import QStar.ActionCache.Restore

/-!
# Lookups that do not hit

A lookup that reports no hit should leave the outputs and the depfile of the
action alone and should be a miss. It is, except on the alias path: there the
stored depfile has already replaced the live one when the entry turns out to be
of no use, or to name a file that is gone.
-/
namespace QStar.ActionCache.Transparency

open QStar.Lib.CStrings
open QStar.Lib.Fnv
open QStar.Base

/-- The files an action writes: its outputs and its depfile. -/
def ownFiles (spec : Spec) : List Bytes :=
  spec.outputs ++ if spec.depfile = [] then [] else [spec.depfile]

/-- The own files of the action are the same, bytes and modes. -/
def OwnFilesKept (pkg : Package) (spec : Spec) (before after : FileTree File) : Prop :=
  ∀ name ∈ ownFiles spec, ∀ path, cacheFullPath pkg.root name = some path →
    after path = before path

/-- Without a hit the own files are kept and the report is a miss, not an error. -/
def TransparentOutcome (pkg : Package) (spec : Spec) (files : FileTree File) (r : Restored) : Prop :=
  r.report ≠ .hit → OwnFilesKept pkg spec files r.files ∧ ∃ reason, r.report = .miss reason

def Transparent (pkg : Package) (files : FileTree File) (cache : Cache) (spec : Spec)
    (decision : Decision) : Prop :=
  TransparentOutcome pkg spec files (restore pkg files cache spec decision)

/-- The stored depfile that the alias path puts in place, and where. -/
structure StoredDepfile where
  key : Bytes
  path : Bytes
  file : File

/-- A usable entry reached through the base key that comes with a stored depfile. -/
def AliasedDepfile (pkg : Package) (cache : Cache) (spec : Spec) (keys : Keys)
    (stored : StoredDepfile) : Prop :=
  ∃ selected m blob,
    selectEntry cache keys = some selected ∧ selected.aliasUsed = true ∧
    usableManifest cache spec selected = some m ∧ m.depfile ≠ [] ∧
    cache (.depfileBlob selected.key) = some blob ∧
    cacheFullPath pkg.root m.depfile = some stored.path ∧
    stored.key = selected.key ∧ stored.file = ⟨blob, m.depfileMode⟩

/-- The files once the stored depfile is in place. -/
def StoredDepfile.inPlace (stored : StoredDepfile) (files : FileTree File) : FileTree File :=
  writeFile files stored.path stored.file

/-- The stored depfile does not carry the lookup to a hit: it names a file that is gone, or
it differs from the live one and its inputs no longer have the contents of the entry. -/
def Unsuited (pkg : Package) (files : FileTree File) (spec : Spec) (stored : StoredDepfile) : Prop :=
  (∃ tool, resolveEligible pkg (stored.inPlace files) spec = .ok tool ∧
    DepfileBroken pkg (stored.inPlace files) spec) ∨
  (files stored.path ≠ some stored.file ∧
    ∀ tool, resolveEligible pkg (stored.inPlace files) spec = .ok tool →
      (keysFor pkg (stored.inPlace files) spec tool
        (coveredInputs pkg (stored.inPlace files) spec)).key ≠ stored.key)

theorem usableManifest_inv {cache : Cache} {spec : Spec} {selected : Selected} {m : Manifest}
    (h : usableManifest cache spec selected = some m) :
    parseManifest spec.outputs selected.key selected.manifest = some m ∧
    (m.depfile = [] ∨ m.depfile = spec.depfile) ∧
    blobsIntact cache selected.key m = true := by
  simp only [usableManifest, Option.bind_eq_bind, Option.bind_eq_some_iff,
    Option.guard_eq_some'] at h
  obtain ⟨m', hparse, _, hdepfile, _, hblobs, hm⟩ := h
  cases hm
  exact ⟨hparse, hdepfile, hblobs⟩

theorem blobMatches_isSome {blob : Option Bytes} {hash : UInt64}
    (h : blobMatches blob hash = true) : ∃ content, blob = some content := by
  cases blob with
  | none => simp [blobMatches] at h
  | some content => exact ⟨content, rfl⟩

/-- Copies of named outputs from blobs that are there do not fail. -/
theorem copyOutputs_complete {root : Bytes} {cache : Cache} {key : Bytes}
    {records : List ((Bytes × UInt64 × Nat) × Nat)} (files : FileTree File)
    (h : ∀ record ∈ records, record.1.1 ≠ [] ∧ (cache (.blob key record.2)).isSome = true) :
    (copyOutputs root cache key files records).2 = none := by
  induction records generalizing files with
  | nil => rfl
  | cons record rest ih =>
    obtain ⟨hname, hblob⟩ := h record (by simp)
    obtain ⟨path, hpath⟩ := cacheFullPath_isSome root hname
    obtain ⟨content, hcontent⟩ := Option.isSome_iff_exists.mp hblob
    simp only [copyOutputs, copyOut, hpath, hcontent]
    exact ih _ fun r hr => h r (by simp [hr])

theorem usable_records {cache : Cache} {spec : Spec} {selected : Selected} {m : Manifest}
    (h : usableManifest cache spec selected = some m) :
    ∀ record ∈ (spec.outputs.zip m.outputs).zipIdx,
      record.1.1 ≠ [] ∧ (cache (.blob selected.key record.2)).isSome = true := by
  obtain ⟨-, -, hblobs⟩ := usableManifest_inv h
  intro record hrecord
  have hget := List.mem_zipIdx_iff_getElem?.mp hrecord
  obtain ⟨hout, hhash⟩ := List.getElem?_zip_eq_some.mp hget
  refine ⟨spec.outputs_named _ (List.mem_of_getElem? hout), ?_⟩
  simp only [blobsIntact, Bool.and_eq_true, List.all_eq_true] at hblobs
  have hmem : (record.1.2, record.2) ∈ m.outputs.zipIdx := List.mem_zipIdx_iff_getElem?.mpr hhash
  obtain ⟨content, hcontent⟩ := blobMatches_isSome (hblobs.2 _ hmem)
  simp [hcontent]

/-- Materialising the outputs of a usable entry is a hit. -/
theorem materializeOutputs_hit (pkg : Package) {cache : Cache} {spec : Spec}
    {selected : Selected} {m : Manifest} (files : FileTree File)
    (h : usableManifest cache spec selected = some m) :
    (materializeOutputs pkg files cache spec selected m).report = .hit := by
  simp [materializeOutputs, copyOutputs_complete files (usable_records h)]

/-- A key taken from an index file is a digest text. -/
theorem readAlias_length {cache : Cache} {baseKey key : Bytes}
    (h : readAlias cache baseKey = some key) : key.length = 16 := by
  obtain ⟨text, -, hkey⟩ := Option.bind_eq_some_iff.mp h
  simp only [Option.ite_none_right_eq_some] at hkey
  obtain ⟨⟨hlength, -⟩, hkey⟩ := hkey
  cases hkey
  exact hlength

theorem selectEntry_key_length {cache : Cache} {keys : Keys} {selected : Selected}
    (h : selectEntry cache keys = some selected) (halias : selected.aliasUsed = true) :
    selected.key.length = 16 := by
  unfold selectEntry at h
  split at h
  · cases h
    cases halias
  · obtain ⟨key, hkey, hsel⟩ := Option.bind_eq_some_iff.mp h
    obtain ⟨text, -, rfl⟩ := Option.map_eq_some_iff.mp hsel
    exact readAlias_length hkey

theorem ownFilesKept_refl (pkg : Package) (spec : Spec) (files : FileTree File) :
    OwnFilesKept pkg spec files files := fun _ _ _ _ => rfl

theorem transparent_of_hit {pkg : Package} {spec : Spec} {files : FileTree File} {r : Restored}
    (h : r.report = .hit) : TransparentOutcome pkg spec files r := fun hne => absurd h hne

theorem transparent_of_miss {pkg : Package} {spec : Spec} {files : FileTree File} {cache : Cache}
    (reason : Miss) : TransparentOutcome pkg spec files ⟨files, cache, .miss reason⟩ :=
  fun _ => ⟨ownFilesKept_refl pkg spec files, reason, rfl⟩

section AliasPath

variable {pkg : Package} {files : FileTree File} {cache : Cache} {spec : Spec}
  {selected : Selected} {m : Manifest} {stored : StoredDepfile}

/-- The alias path once the stored depfile could be copied. -/
theorem refreshThroughDepfile_eq
    (hcopy : copyOut pkg.root files m.depfile (cache (.depfileBlob selected.key))
      m.depfileMode = some (stored.inPlace files)) :
    refreshThroughDepfile pkg files cache spec selected m =
      match evaluate pkg (stored.inPlace files) spec with
      | .error e => ⟨stored.inPlace files, cache, .error (.evaluation e)⟩
      | .ok refreshed =>
        if refreshed.key ≠ selected.key then
          ⟨stored.inPlace files, cache, .miss .dependencyChanged⟩
        else materializeOutputs pkg (stored.inPlace files) cache spec selected m := by
  rw [refreshThroughDepfile, hcopy] <;> rfl

/-- Overwriting the live depfile is harmless when it already is the stored one. -/
theorem ownFilesKept_inPlace_iff (hdep : spec.depfile ≠ [])
    (hpath : cacheFullPath pkg.root spec.depfile = some stored.path) :
    OwnFilesKept pkg spec files (stored.inPlace files) ↔
      files stored.path = some stored.file := by
  constructor
  · intro h
    have hkept := h spec.depfile (by simp [ownFiles, hdep]) stored.path hpath
    simpa [StoredDepfile.inPlace] using hkept.symm
  · intro h
    simpa [StoredDepfile.inPlace, writeFile_same h] using ownFilesKept_refl pkg spec files

/-- The alias path is transparent exactly when the stored depfile is suited. -/
theorem refreshThroughDepfile_transparent_iff
    (husable : usableManifest cache spec selected = some m) (hdepfile : m.depfile ≠ [])
    (hcopy : copyOut pkg.root files m.depfile (cache (.depfileBlob selected.key))
      m.depfileMode = some (stored.inPlace files))
    (hpath : cacheFullPath pkg.root m.depfile = some stored.path)
    (hkey : stored.key = selected.key) (hlength : selected.key.length = 16) :
    TransparentOutcome pkg spec files (refreshThroughDepfile pkg files cache spec selected m) ↔
      ¬ Unsuited pkg files spec stored := by
  obtain ⟨-, hsame, -⟩ := usableManifest_inv husable
  have hspec : m.depfile = spec.depfile := hsame.resolve_left hdepfile
  have hkept : OwnFilesKept pkg spec files (stored.inPlace files) ↔
      files stored.path = some stored.file :=
    ownFilesKept_inPlace_iff (hspec ▸ hdepfile) (hspec ▸ hpath)
  rw [refreshThroughDepfile_eq hcopy]
  cases hres : resolveEligible pkg (stored.inPlace files) spec with
  | error reason =>
    have hchanged : ([] : Bytes) ≠ selected.key := by
      intro h
      simp [← h] at hlength
    simp [evaluate_refused hres, Decision.key, hchanged, TransparentOutcome, hkept, Unsuited, hres]
  | ok tool =>
    by_cases hbroken : DepfileBroken pkg (stored.inPlace files) spec
    · obtain ⟨token, herr⟩ := evaluate_error hres hbroken
      simp [herr, TransparentOutcome, Unsuited, hres, hbroken]
    · have hok := evaluate_eligible hres hbroken
      by_cases hsame : (keysFor pkg (stored.inPlace files) spec tool
          (coveredInputs pkg (stored.inPlace files) spec)).key = selected.key
      · have hhit := materializeOutputs_hit pkg (stored.inPlace files) husable
        simp [hok, Decision.key, hsame, TransparentOutcome, hhit, Unsuited, hres, hbroken, hkey]
      · simp [hok, Decision.key, hsame, TransparentOutcome, hkept, Unsuited, hres, hbroken, hkey]

end AliasPath

/-- Every entry on the alias path has a depfile blob to put in place. -/
theorem aliasedDepfile_of_usable (pkg : Package) {cache : Cache} {spec : Spec} {keys : Keys}
    {selected : Selected} {m : Manifest} (hselect : selectEntry cache keys = some selected)
    (husable : usableManifest cache spec selected = some m)
    (halias : selected.aliasUsed = true) (hdepfile : m.depfile ≠ []) :
    ∃ stored, AliasedDepfile pkg cache spec keys stored := by
  obtain ⟨-, -, hblobs⟩ := usableManifest_inv husable
  have hmatch : blobMatches (cache (.depfileBlob selected.key)) m.depfileDigest = true := by
    simp only [blobsIntact, Bool.and_eq_true, Bool.or_eq_true, decide_eq_true_eq] at hblobs
    exact hblobs.1.resolve_left hdepfile
  obtain ⟨blob, hblob⟩ := blobMatches_isSome hmatch
  obtain ⟨path, hpath⟩ := cacheFullPath_isSome pkg.root hdepfile
  exact ⟨⟨selected.key, path, ⟨blob, m.depfileMode⟩⟩, selected, m, blob, hselect, halias,
    husable, hdepfile, hblob, hpath, rfl, rfl⟩

theorem lookup_transparent_iff (pkg : Package) (files : FileTree File) (cache : Cache)
    (spec : Spec) (keys : Keys) :
    Transparent pkg files cache spec (.eligible keys) ↔
      ∀ stored, AliasedDepfile pkg cache spec keys stored →
        ¬ Unsuited pkg files spec stored := by
  cases hselect : selectEntry cache keys with
  | none =>
    have htransparent : Transparent pkg files cache spec (.eligible keys) := by
      simpa [Transparent, restore, hselect] using transparent_of_miss .entryMissing
    simp [htransparent, AliasedDepfile, hselect]
  | some selected =>
    cases husable : usableManifest cache spec selected with
    | none =>
      have htransparent : Transparent pkg files cache spec (.eligible keys) := by
        simpa [Transparent, restore, hselect, husable] using transparent_of_miss .corruptEntry
      simp [htransparent, AliasedDepfile, hselect, husable]
    | some m =>
      by_cases hpath : selected.aliasUsed = true ∧ m.depfile ≠ []
      · obtain ⟨stored₀, haliased⟩ :=
          aliasedDepfile_of_usable pkg hselect husable hpath.1 hpath.2
        have hiff : ∀ stored, AliasedDepfile pkg cache spec keys stored →
            (Transparent pkg files cache spec (.eligible keys) ↔
              ¬ Unsuited pkg files spec stored) := by
          intro stored ⟨selected', m', blob, hsel, halias, husable', hdep, hblob, hfull, hkey, hfile⟩
          obtain rfl : selected = selected' := Option.some.inj (hselect.symm.trans hsel)
          obtain rfl : m = m' := Option.some.inj (husable.symm.trans husable')
          have hcopy : copyOut pkg.root files m.depfile
              (cache (.depfileBlob selected.key)) m.depfileMode =
                some (stored.inPlace files) := by
            simp [copyOut, hfull, hblob, StoredDepfile.inPlace, hfile]
          have hrestore : restore pkg files cache spec (.eligible keys) =
              refreshThroughDepfile pkg files cache spec selected m := by
            simp [restore, hselect, husable, hpath.1, hpath.2]
          rw [Transparent, hrestore]
          exact refreshThroughDepfile_transparent_iff husable hdep hcopy hfull hkey
            (selectEntry_key_length hselect halias)
        constructor
        · intro h stored hstored
          exact (hiff stored hstored).mp h
        · intro h
          exact (hiff stored₀ haliased).mpr (h stored₀ haliased)
      · have htransparent : Transparent pkg files cache spec (.eligible keys) := by
          have hhit := materializeOutputs_hit pkg files husable
          simp only [Transparent, restore, hselect, husable, if_neg hpath]
          exact transparent_of_hit hhit
        have hnone : ∀ stored, ¬ AliasedDepfile pkg cache spec keys stored := by
          intro stored ⟨selected', m', _, hsel, halias, husable', hdep, _⟩
          obtain rfl : selected = selected' := Option.some.inj (hselect.symm.trans hsel)
          obtain rfl : m = m' := Option.some.inj (husable.symm.trans husable')
          exact hpath ⟨halias, hdep⟩
        constructor
        · intro _ stored hstored
          exact absurd hstored (hnone stored)
        · intro _
          exact htransparent

/-- A lookup is transparent exactly when no unsuited depfile is put in place. -/
theorem restore_transparent_iff (pkg : Package) (files : FileTree File) (cache : Cache)
    (spec : Spec) (decision : Decision) :
    Transparent pkg files cache spec decision ↔
      ∀ keys stored, decision = .eligible keys →
        AliasedDepfile pkg cache spec keys stored → ¬ Unsuited pkg files spec stored := by
  cases decision with
  | refused reason =>
    have htransparent : Transparent pkg files cache spec (.refused reason) :=
      transparent_of_miss (.notCacheable reason)
    simp [htransparent]
  | eligible keys =>
    rw [lookup_transparent_iff]
    constructor
    · intro h keys' stored hkeys
      cases hkeys
      exact h stored
    · intro h stored
      exact h keys stored rfl

/-! ## A header that is gone -/

/-- A package whose root is the working directory, in an empty environment. -/
def compilePackage : Package := ⟨ascii ".", fun _ => none⟩

def compileSpec : Spec where
  id := ascii "//:a:compile:0"
  kind := ascii "compile"
  argv := [ascii "/cc"]
  env := []
  inputs := [ascii "a.c"]
  outputs := [ascii "a.o"]
  depfile := ascii "a.d"
  declaredCacheable := true
  outputs_named := by decide

/-- The files after the compiler ran. -/
def compiledFiles : FileTree File :=
  writeFile (writeFile (writeFile (writeFile (writeFile (fun _ => none)
    (ascii "/cc") ⟨ascii "cc", 493⟩) (ascii "a.c") ⟨ascii "#include \"h.h\"\n", 420⟩)
    (ascii "h.h") ⟨ascii "int x;\n", 420⟩) (ascii "a.o") ⟨ascii "object", 420⟩)
    (ascii "a.d") ⟨ascii "a.o: a.c h.h\n", 420⟩

/-- The same package after a target clean, with its header deleted. -/
def cleanedFiles : FileTree File :=
  removeFile (removeFile (removeFile compiledFiles (ascii "a.o")) (ascii "a.d")) (ascii "h.h")

def compileDecision (files : FileTree File) : Decision :=
  match evaluate compilePackage files compileSpec with
  | .ok decision => decision
  | .error _ => .refused .declaredNonCacheable

def compileCache : Cache :=
  store compilePackage compiledFiles (fun _ => none) compileSpec (compileDecision compiledFiles)

/-- The lookup fails with an error, and the deleted depfile is back. -/
theorem lookup_after_header_removal :
    (restore compilePackage cleanedFiles compileCache compileSpec
        (compileDecision cleanedFiles)).report =
      .error (.evaluation (.headerMissing (ascii "h.h"))) := by
  decide +kernel

/-- Lookups by decisions of the evaluation are not all transparent. -/
theorem not_all_transparent :
    ¬ ∀ pkg files cache spec decision, evaluate pkg files spec = .ok decision →
      Transparent pkg files cache spec decision := by
  intro h
  have hdecision : evaluate compilePackage cleanedFiles compileSpec =
      .ok (compileDecision cleanedFiles) := by decide +kernel
  have hreport := lookup_after_header_removal
  have hne : (restore compilePackage cleanedFiles compileCache compileSpec
      (compileDecision cleanedFiles)).report ≠ .hit := by
    rw [hreport]
    decide
  obtain ⟨-, reason, hmiss⟩ := h _ _ compileCache _ _ hdecision hne
  rw [hreport] at hmiss
  cases hmiss

end QStar.ActionCache.Transparency
