import QStar.Lib.Runs
import QStar.Stella.Dependencies

/-!
# The dependency database over rewrites of depfiles

Builds read the inputs of a depfile from the database where its size and its modification
time, in whole seconds, are the recorded ones; the recorded digest of its content is then
taken over and not compared. Reading the database is reading the depfiles as long as no
rewrite leaves size and second of a depfile that listed other inputs.
-/
namespace QStar.Stella.DepsTransparency

open QStar.Lib.CStrings
open QStar.Lib.Runs
open QStar.Base

/-- `push_depfile_inputs`: the inputs with those that are discovered, and what is recorded. -/
def pushInputs (disk : Disk) (prev : Deps) (depfile : Bytes) (inputs : List Bytes) :
    Except DepfileError (List Bytes × Option DepEntry) :=
  match disk depfile with
  | none => .ok (inputs, none)
  | some st =>
    match (prev.find depfile).filter fun entry => entry.matches st with
    | some entry =>
      match entry.inputs.foldlM (pushDepfileToken [] disk) inputs with
      | .error e => .error e
      | .ok inputs =>
        .ok (inputs, some ⟨st.content.length, mtimeTick st, entry.digest, entry.inputs⟩)
    | none =>
      match parseDepfileContent [] disk st.content inputs with
      | .error e => .error e
      | .ok inputs =>
        .ok (inputs, some ⟨st.content.length, mtimeTick st, depfileDigest depfile st,
          appendUnique [] (listedInputs st.content)⟩)

/-- What reading the depfile itself appends; one that is not there lists nothing. -/
def parseInputs (disk : Disk) (depfile : Bytes) (inputs : List Bytes) :
    Except DepfileError (List Bytes) :=
  match disk depfile with
  | none => .ok inputs
  | some st => parseDepfileContent [] disk st.content inputs

/-- The files, the database on disk, what a build has loaded of it and what it has recorded; and
the states in which depfiles were read. -/
structure History where
  disk : Disk
  saved : Deps
  prev : Deps
  next : Deps
  read : List (Bytes × FileState)

/-- No database yet. -/
def History.start (disk : Disk) : History := ⟨disk, [], [], [], []⟩

inductive Event where
  /-- Files change, between builds or within one. -/
  | rewrite (disk : Disk)
  /-- A build begins: `deps_db_load` -/
  | load
  | push (depfile : Bytes) (inputs : List Bytes)
  /-- A build has succeeded: `deps_db_write` -/
  | save

def History.step (s : History) : Event → History
  | .rewrite disk => { s with disk := disk }
  | .load => { s with prev := s.saved, next := [] }
  | .push depfile inputs =>
    match s.disk depfile, pushInputs s.disk s.prev depfile inputs with
    | some st, .ok (_, entry) =>
      { s with next := s.next.record depfile entry, read := (depfile, st) :: s.read }
    | _, _ => s
  | .save => { s with saved := if s.next = [] then s.saved else s.next }

/-- Two states of a depfile that list the same inputs. -/
def SameInputs (a b : FileState) : Prop :=
  appendUnique [] (listedInputs a.content) = appendUnique [] (listedInputs b.content)

/-- No depfile gets the size and the second of a state in which it was read, unless it lists the
same inputs. -/
def Event.Meets (s : History) : Event → Prop
  | .rewrite disk => ∀ r ∈ s.read, ∀ st, disk r.1 = some st →
      st.content.length = r.2.content.length → st.mtime = r.2.mtime → SameInputs st r.2
  | _ => True

/-- Reading the database is reading the depfiles. -/
def History.Transparent (s : History) : Prop :=
  ∀ depfile inputs,
    (pushInputs s.disk s.prev depfile inputs).map Prod.fst = parseInputs s.disk depfile inputs

/-- An entry was recorded in a state in which its depfile was read. -/
def Recorded (read : List (Bytes × FileState)) (depfile : Bytes) (entry : DepEntry) : Prop :=
  ∃ st, (depfile, st) ∈ read ∧ entry.size = st.content.length ∧ entry.mtime = mtimeTick st ∧
    entry.inputs = appendUnique [] (listedInputs st.content)

structure History.Sound (s : History) : Prop where
  saved : ∀ d e, (d, e) ∈ s.saved → Recorded s.read d e
  prev : ∀ d e, (d, e) ∈ s.prev → Recorded s.read d e
  next : ∀ d e, (d, e) ∈ s.next → Recorded s.read d e
  current : ∀ r ∈ s.read, ∀ st, s.disk r.1 = some st →
    st.content.length = r.2.content.length → st.mtime = r.2.mtime → SameInputs st r.2

theorem Recorded.mono {read more : List (Bytes × FileState)} {depfile : Bytes} {entry : DepEntry}
    (h : Recorded read depfile entry) (hsub : ∀ r ∈ read, r ∈ more) : Recorded more depfile entry := by
  obtain ⟨st, hst, hrest⟩ := h
  exact ⟨st, hsub _ hst, hrest⟩

section Push

variable {s : History} {depfile : Bytes} {st : FileState}

/-- An entry that is taken lists what the depfile lists. -/
theorem inputs_of_matches (hs : s.Sound) (hst : s.disk depfile = some st) {entry : DepEntry}
    (h : (s.prev.find depfile).filter (fun entry => entry.matches st) = some entry) :
    Recorded s.read depfile entry ∧ entry.size = st.content.length ∧ entry.mtime = mtimeTick st ∧
      entry.inputs = appendUnique [] (listedInputs st.content) := by
  obtain ⟨hfind, hmatches⟩ := Option.filter_eq_some_iff.mp h
  obtain ⟨old, hold, hsize, hmtime, hinputs⟩ := hs.prev depfile entry (Deps.mem_of_find hfind)
  simp only [DepEntry.matches, Bool.and_eq_true, decide_eq_true_eq] at hmatches
  obtain ⟨⟨hlength, htick⟩, -⟩ := hmatches
  have hsecond : st.mtime = old.mtime := by
    have heq : mtimeTick old = mtimeTick st := hmtime.symm.trans htick
    simp only [mtimeTick] at heq
    omega
  have hsame : SameInputs st old :=
    hs.current _ hold st hst (hlength.symm.trans hsize) hsecond
  exact ⟨⟨old, hold, hsize, hmtime, hinputs⟩, hlength, htick, hinputs.trans hsame.symm⟩

/-- Pushing what an entry lists is pushing the tokens of the depfile. -/
theorem foldlM_entry (disk : Disk) (content : Bytes) (inputs : List Bytes) :
    (appendUnique [] (listedInputs content)).foldlM (pushDepfileToken [] disk) inputs =
      parseDepfileContent [] disk content inputs :=
  foldlM_pushDepfileToken_unique [] disk (depfileTokens content) inputs

/-- What a push returns, and that what it records was recorded in a state that was read. -/
theorem pushInputs_eq (hs : s.Sound) (hst : s.disk depfile = some st) (inputs : List Bytes) :
    ∃ entry, Recorded ((depfile, st) :: s.read) depfile entry ∧
      pushInputs s.disk s.prev depfile inputs =
        (parseDepfileContent [] s.disk st.content inputs).map fun inputs => (inputs, some entry) := by
  cases hfound : (s.prev.find depfile).filter fun entry => entry.matches st with
  | some entry =>
    obtain ⟨hrecorded, hsize, hmtime, hinputs⟩ := inputs_of_matches hs hst hfound
    refine ⟨⟨st.content.length, mtimeTick st, entry.digest, entry.inputs⟩,
      ⟨st, List.mem_cons_self, rfl, rfl, hinputs⟩, ?_⟩
    simp only [pushInputs, hst, hfound]
    rw [hinputs, foldlM_entry]
    cases parseDepfileContent [] s.disk st.content inputs <;> rfl
  | none =>
    refine ⟨⟨st.content.length, mtimeTick st, depfileDigest depfile st,
      appendUnique [] (listedInputs st.content)⟩, ⟨st, List.mem_cons_self, rfl, rfl, rfl⟩, ?_⟩
    simp only [pushInputs, hst, hfound]
    cases parseDepfileContent [] s.disk st.content inputs <;> rfl

end Push

/-- Onto no inputs it is what a build does with a depfile. -/
theorem pushInputs_nil (disk : Disk) (prev : Deps) (depfile : Bytes) :
    pushInputs disk prev depfile [] = pushDepfileInputs disk prev depfile := by
  unfold pushInputs pushDepfileInputs depEntryFor
  cases disk depfile with
  | none => rfl
  | some st =>
    dsimp only
    cases (prev.find depfile).filter fun entry => entry.matches st with
    | some entry =>
      cases hread : entry.inputs.foldlM (pushDepfileToken [] disk) [] <;> simp [pushTokens, hread]
    | none =>
      cases hread : parseDepfileContent [] disk st.content [] <;>
        simp [pushTokens, foldlM_entry, hread]

theorem transparent_of_sound {s : History} (hs : s.Sound) : s.Transparent := by
  intro depfile inputs
  cases hst : s.disk depfile with
  | none => simp [pushInputs, parseInputs, hst, Except.map]
  | some st =>
    obtain ⟨entry, -, hpush⟩ := pushInputs_eq hs hst inputs
    rw [hpush]
    simp only [parseInputs, hst]
    cases parseDepfileContent [] s.disk st.content inputs <;> rfl

theorem mem_record {deps : Deps} {depfile d : Bytes} {entry : Option DepEntry} {e : DepEntry}
    (h : (d, e) ∈ deps.record depfile entry) : (d, e) ∈ deps ∨ (d = depfile ∧ entry = some e) := by
  cases entry with
  | none => exact .inl h
  | some entry =>
    rcases List.mem_cons.mp h with heq | h
    · cases heq
      exact .inr ⟨rfl, rfl⟩
    · exact .inl h

theorem sound_step {s : History} {event : Event} (hmeets : event.Meets s) (hs : s.Sound) :
    (s.step event).Sound := by
  cases event with
  | rewrite disk => exact ⟨hs.saved, hs.prev, hs.next, hmeets⟩
  | load => exact ⟨hs.saved, hs.saved, by rintro d e ⟨⟩, hs.current⟩
  | save =>
    refine ⟨?_, hs.prev, hs.next, hs.current⟩
    intro d e h
    simp only [History.step] at h
    split at h
    · exact hs.saved d e h
    · exact hs.next d e h
  | push depfile inputs =>
    cases hst : s.disk depfile with
    | none => simpa only [History.step, hst] using hs
    | some st =>
      obtain ⟨entry, hentry, hpush⟩ := pushInputs_eq hs hst inputs
      cases hparse : parseDepfileContent [] s.disk st.content inputs with
      | error e =>
        replace hpush : pushInputs s.disk s.prev depfile inputs = .error e := by rw [hpush, hparse]; rfl
        simpa only [History.step, hst, hpush] using hs
      | ok found =>
        replace hpush : pushInputs s.disk s.prev depfile inputs = .ok (found, some entry) := by
          rw [hpush, hparse]
          rfl
        simp only [History.step, hst, hpush]
        have hmore : ∀ r ∈ s.read, r ∈ (depfile, st) :: s.read :=
          fun r hr => List.mem_cons_of_mem _ hr
        refine ⟨fun d e h => (hs.saved d e h).mono hmore, fun d e h => (hs.prev d e h).mono hmore,
          ?_, ?_⟩
        · intro d e h
          rcases mem_record (show (d, e) ∈ s.next.record depfile (some entry) from h) with
            h | ⟨rfl, heq⟩
          · exact (hs.next d e h).mono hmore
          · cases heq
            exact hentry
        · intro r hr now hnow hsize hmtime
          rcases List.mem_cons.mp hr with rfl | hr
          · rw [hst] at hnow
            cases hnow
            rfl
          · exact hs.current r hr now hnow hsize hmtime

/-- In a history in which no rewrite leaves size and second of a depfile that listed other
inputs, reading the database is reading the depfiles. -/
theorem deps_db_transparent {disk : Disk} {s : History}
    (hrun : ReachableWhere History.step (fun s e => e.Meets s) (.start disk) s) : s.Transparent := by
  have hstart : (History.start disk).Sound :=
    ⟨by rintro _ _ ⟨⟩, by rintro _ _ ⟨⟩, by rintro _ _ ⟨⟩, by rintro _ ⟨⟩⟩
  have hsound : s.Sound :=
    hrun.invariant History.Sound hstart fun _ _ hmeets hs => sound_step hmeets hs
  exact transparent_of_sound hsound

/-- A depfile of some second, and two headers. -/
def headerDisk (depfile : Bytes) (second : Nat) : Disk := fun path =>
  if path = ascii "main.d" then some ⟨depfile, second⟩
  else if path = ascii "a.h" ∨ path = ascii "b.h" then some ⟨[], 1⟩
  else none

/-- A first build that reads a depfile. -/
def firstBuild : History :=
  [Event.load, .push (ascii "main.d") [], .save].foldl History.step
    (.start (headerDisk (ascii "o: a.h\n") 100))

theorem read_firstBuild : firstBuild.read = [(ascii "main.d", ⟨ascii "o: a.h\n", 100⟩)] := by
  decide

/-- The depfile of a second later is read by a second build as it is. -/
theorem deps_db_transparent_later :
    ((firstBuild.step (.rewrite (headerDisk (ascii "o: b.h\n") 101))).step .load).Transparent := by
  have hfirst : ReachableWhere History.step (fun s e => e.Meets s)
      (.start (headerDisk (ascii "o: a.h\n") 100)) firstBuild :=
    reachableWhere_of_along .refl ⟨trivial, trivial, trivial, trivial⟩
  have hload : Event.Meets (firstBuild.step (.rewrite (headerDisk (ascii "o: b.h\n") 101))) .load :=
    trivial
  refine deps_db_transparent (.next .load (.next (.rewrite _) hfirst ?_) hload)
  intro r hr st hst _ hsecond
  rw [read_firstBuild, List.mem_singleton] at hr
  subst hr
  obtain rfl := Option.some.inj hst
  exact absurd hsecond (by decide)

/-- The depfile is rewritten with as many bytes within the second: the next build takes the header
it does not list any more. -/
theorem deps_db_stale : ∃ (disk : Disk) (s : History) (depfile : Bytes),
    Reachable History.step (.start disk) s ∧
    (pushInputs s.disk s.prev depfile []).map Prod.fst = .ok [ascii "a.h"] ∧
    parseInputs s.disk depfile [] = .ok [ascii "b.h"] := by
  refine ⟨headerDisk (ascii "o: a.h\n") 100,
    (firstBuild.step (.rewrite (headerDisk (ascii "o: b.h\n") 100))).step .load, ascii "main.d",
    .next _ (.next _ (reachable_foldl History.step _ _)), ?_, ?_⟩
  · decide
  · decide

end QStar.Stella.DepsTransparency
