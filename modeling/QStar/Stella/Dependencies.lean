import QStar.Stella.Keys

/-!
# The dependency database

The inputs a depfile lists are read from the database of the last successful
build when the size and the modification time of the depfile are the recorded
ones, and from the depfile otherwise.
-/
namespace QStar.Stella

open QStar.Lib.CStrings
open QStar.Lib.Fnv
open QStar.Lib.Numerals
open QStar.Base

/-- `struct qstar_dep_entry` without its name. -/
structure DepEntry where
  size : Nat
  mtime : Nat
  digest : Bytes
  inputs : List Bytes
  deriving DecidableEq

/-- The entries by depfile. -/
abbrev Deps := List (Bytes × DepEntry)

/-- `deps_find_prev` -/
def Deps.find (deps : Deps) (depfile : Bytes) : Option DepEntry :=
  (List.find? (fun e => e.1 = depfile) deps).map Prod.snd

/-- `deps_record`; an entry for the depfile is replaced. -/
def Deps.record (deps : Deps) (depfile : Bytes) : Option DepEntry → Deps
  | none => deps
  | some entry => (depfile, entry) :: deps

/-- `stat_mtime_tick` -/
def mtimeTick (st : FileState) : Nat := st.mtime * 1000000000

/-- The digest of `depfile_fingerprint`. -/
def depfileDigest (depfile : Bytes) (st : FileState) : Bytes :=
  digest (hashStr depfile ++ hashStr (metaText st.content.length (mtimeTick st)) ++ st.content)

/-- The recorded entry stands for the depfile: with the recorded size and time the recorded
digest is taken over, so that only an empty one differs. -/
def DepEntry.matches (entry : DepEntry) (st : FileState) : Bool :=
  entry.size = st.content.length && entry.mtime = mtimeTick st && entry.digest ≠ []

/-- The entry for a depfile in the given state and the inputs it has there. -/
def depEntryFor (prevDeps : Deps) (depfile : Bytes) (st : FileState) : DepEntry :=
  match (prevDeps.find depfile).filter fun entry => entry.matches st with
  | some entry => ⟨st.content.length, mtimeTick st, entry.digest, entry.inputs⟩
  | none =>
    ⟨st.content.length, mtimeTick st, depfileDigest depfile st,
      appendUnique [] (listedInputs st.content)⟩

/-- Pushing inputs one by one; a missing one is an error. -/
def pushTokens (disk : Disk) (tokens : List Bytes) : Except DepfileError (List Bytes) :=
  tokens.foldlM (pushDepfileToken [] disk) []

/-- `push_depfile_inputs`: the discovered inputs and the entry to record. -/
def pushDepfileInputs (disk : Disk) (prevDeps : Deps) (depfile : Bytes) :
    Except DepfileError (List Bytes × Option DepEntry) :=
  match disk depfile with
  | none => .ok ([], none)
  | some st =>
    match pushTokens disk (depEntryFor prevDeps depfile st).inputs with
    | .error e => .error e
    | .ok inputs => .ok (inputs, some (depEntryFor prevDeps depfile st))

/-- The inputs of an action without a depfile are all known beforehand. -/
def discoverInputs (disk : Disk) (prevDeps : Deps) :
    Option Bytes → Except DepfileError (List Bytes × Option DepEntry)
  | none => .ok ([], none)
  | some depfile => pushDepfileInputs disk prevDeps depfile

/-- The inputs an entry or a depfile in some state stands for. -/
def listedBy (prevDeps : Deps) (depfile : Option Bytes) (st : Option FileState) : List Bytes :=
  match depfile, st with
  | some depfile, some st =>
    appendUnique [] ((depEntryFor prevDeps depfile st).inputs.filter (isPackageRelative ·))
  | _, _ => []

/-- The entry recorded for a depfile in some state. -/
def recordFor (prevDeps : Deps) (depfile : Option Bytes) (st : Option FileState) :
    Option DepEntry :=
  match depfile, st with
  | some depfile, some st => some (depEntryFor prevDeps depfile st)
  | _, _ => none

theorem pushTokens_ok_iff {disk : Disk} {tokens inputs : List Bytes} :
    pushTokens disk tokens = .ok inputs ↔
      inputs = appendUnique [] (tokens.filter (isPackageRelative ·)) ∧
      ∀ rel ∈ inputs, disk rel ≠ none := by
  by_cases hall : ∀ token ∈ tokens.filter (isPackageRelative ·),
      disk (fullPathUnderRoot [] token) ≠ none
  · have hok : pushTokens disk tokens = .ok _ := foldlM_pushDepfileToken_ok [] hall
    rw [hok]
    constructor
    · intro h
      cases h
      refine ⟨rfl, ?_⟩
      intro rel hrel
      exact hall rel (by simpa using hrel)
    · intro h
      rw [h.1]
  · push Not at hall
    obtain ⟨token, herr⟩ := foldlM_pushDepfileToken_error [] hall
    have herr' : pushTokens disk tokens = .error (.headerMissing token) := herr
    obtain ⟨missing, hmem, hnone⟩ := hall
    rw [herr']
    constructor
    · intro h
      cases h
    · intro h
      obtain ⟨hinputs, hexist⟩ := h
      have hmissing : missing ∈ inputs := by
        rw [hinputs]
        simpa using hmem
      exact absurd hnone (hexist missing hmissing)

/-- Reading dependencies succeeds exactly when every listed input is there. -/
theorem discoverInputs_ok_iff {disk : Disk} {prevDeps : Deps} {depfile : Option Bytes}
    {inputs : List Bytes} {entry : Option DepEntry} :
    discoverInputs disk prevDeps depfile = .ok (inputs, entry) ↔
      inputs = listedBy prevDeps depfile (depfile.bind disk) ∧
      entry = recordFor prevDeps depfile (depfile.bind disk) ∧
      ∀ rel ∈ inputs, disk rel ≠ none := by
  cases depfile with
  | none => simp +contextual [discoverInputs, listedBy, recordFor, eq_comm]
  | some depfile =>
    cases hst : disk depfile with
    | none =>
      simp +contextual [discoverInputs, pushDepfileInputs, listedBy, recordFor, hst, eq_comm]
    | some st =>
      cases hpush : pushTokens disk (depEntryFor prevDeps depfile st).inputs with
      | error e =>
        simp only [discoverInputs, pushDepfileInputs, hst, hpush, Option.bind_some, listedBy,
          recordFor, reduceCtorEq, false_iff]
        rintro ⟨hinputs, -, hexist⟩
        have hok := pushTokens_ok_iff.mpr ⟨hinputs, hexist⟩
        rw [hpush] at hok
        cases hok
      | ok pushed =>
        obtain ⟨hpushed, hexist⟩ := pushTokens_ok_iff.mp hpush
        simp only [discoverInputs, pushDepfileInputs, hst, hpush, Option.bind_some, listedBy,
          recordFor, Except.ok.injEq, Prod.mk.injEq]
        constructor
        · intro h
          obtain ⟨hinputs, hentry⟩ := h
          rw [← hinputs]
          exact ⟨hpushed, hentry.symm, hexist⟩
        · intro h
          obtain ⟨hinputs, hentry, -⟩ := h
          exact ⟨hpushed.trans hinputs.symm, hentry.symm⟩

theorem depEntryFor_matches (prevDeps : Deps) (depfile : Bytes) (st : FileState) :
    (depEntryFor prevDeps depfile st).matches st = true := by
  unfold depEntryFor
  split
  · rename_i entry hentry
    have hmatch : entry.matches st = true := (Option.filter_eq_some_iff.mp hentry).2
    simp only [DepEntry.matches, Bool.and_eq_true, decide_eq_true_eq] at hmatch ⊢
    exact ⟨⟨trivial, trivial⟩, hmatch.2⟩
  · have hlength : (depfileDigest depfile st).length = 16 := digest_length _
    have hne : depfileDigest depfile st ≠ [] := by
      intro h
      simp [h] at hlength
    simp [DepEntry.matches, hne]

/-- An entry recorded from a state of the depfile is taken over while that state lasts. -/
theorem depEntryFor_of_find {deps prevDeps : Deps} {depfile : Bytes} {st : FileState}
    (h : deps.find depfile = some (depEntryFor prevDeps depfile st)) :
    (depEntryFor deps depfile st).inputs = (depEntryFor prevDeps depfile st).inputs := by
  have hfilter : (deps.find depfile).filter (fun entry => entry.matches st) =
      some (depEntryFor prevDeps depfile st) := by
    rw [h, Option.filter_eq_some_iff]
    exact ⟨rfl, depEntryFor_matches prevDeps depfile st⟩
  have hunfold : depEntryFor deps depfile st =
      ⟨st.content.length, mtimeTick st, (depEntryFor prevDeps depfile st).digest,
        (depEntryFor prevDeps depfile st).inputs⟩ := by
    conv_lhs => unfold depEntryFor
    rw [hfilter]
  rw [hunfold]

theorem listedBy_of_find {deps prevDeps : Deps} {depfile : Bytes} {st : FileState}
    (h : deps.find depfile = some (depEntryFor prevDeps depfile st)) :
    listedBy deps (some depfile) (some st) = listedBy prevDeps (some depfile) (some st) := by
  simp only [listedBy]
  rw [depEntryFor_of_find h]

@[simp] theorem Deps.find_record_self (deps : Deps) (depfile : Bytes) (entry : DepEntry) :
    (deps.record depfile (some entry)).find depfile = some entry := by
  simp [Deps.find, Deps.record]

theorem Deps.find_record_ne {deps : Deps} {depfile other : Bytes} (entry : Option DepEntry)
    (h : other ≠ depfile) : (deps.record depfile entry).find other = deps.find other := by
  cases entry with
  | none => rfl
  | some entry => simp [Deps.find, Deps.record, h.symm]

theorem Deps.mem_of_find {deps : Deps} {depfile : Bytes} {entry : DepEntry}
    (h : deps.find depfile = some entry) : (depfile, entry) ∈ deps := by
  obtain ⟨found, hfound, rfl⟩ := Option.map_eq_some_iff.mp h
  have hname : found.1 = depfile := by simpa using List.find?_some hfound
  subst hname
  exact List.mem_of_find?_eq_some hfound

theorem Deps.find_of_mem {deps : Deps} {depfile : Bytes} {entry : DepEntry}
    (h : (depfile, entry) ∈ deps) : ∃ found, deps.find depfile = some found := by
  unfold Deps.find
  cases hfind : List.find? (fun e => decide (e.1 = depfile)) deps with
  | none =>
    have hne := List.find?_eq_none.mp hfind _ h
    simp at hne
  | some found => exact ⟨found.2, rfl⟩

theorem Deps.ne_nil_of_find {deps : Deps} {depfile : Bytes} {entry : DepEntry}
    (h : deps.find depfile = some entry) : deps ≠ [] :=
  List.ne_nil_of_mem (Deps.mem_of_find h)

end QStar.Stella
