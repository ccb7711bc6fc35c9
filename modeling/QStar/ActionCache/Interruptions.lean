import QStar.ActionCache.Manifests
import QStar.ActionCache.Transparency

/-!
# Stores that are cut short

Stores of which any operations reach the directory, lookups, and damage to the files of entries.
Through all of it a lookup that hits puts the outputs of one store in place, and of no other.
-/
namespace QStar.ActionCache

open QStar.Lib.CStrings
open QStar.Lib.Fnv
open QStar.Base
open Transparency

/-- A call of the store, with the keys its action was evaluated to. -/
structure StoreCall where
  pkg : Package
  files : FileTree File
  spec : Spec
  keys : Keys
  evaluated : evaluate pkg files spec = .ok (.eligible keys)
  outputs_named : ∀ output ∈ spec.outputs, Named output
  depfile_named : Named spec.depfile
  counted : spec.outputs.length < 2 ^ 64

namespace StoreCall

/-- The operations of the call on a cache. -/
def ops (call : StoreCall) (cache : Cache) : List CacheOp :=
  (storeOps call.pkg call.files cache call.spec (.eligible call.keys)).1

/-- The outputs it stores. -/
def outputs (call : StoreCall) : List (Bytes × File) :=
  presentOutputs call.pkg call.files call.spec.outputs

end StoreCall

/-- What may happen to a cache directory, and the stores it has seen. Of a store any operations
may reach it; a file may be removed or get any content, but a manifest only loses its end. -/
inductive Run : List StoreCall → Cache → Prop where
  | fresh : Run [] fun _ => none
  | store {calls : List StoreCall} {cache : Cache} (call : StoreCall) (reached : List CacheOp) :
      Run calls cache → (∀ op ∈ reached, op ∈ call.ops cache) →
      Run (call :: calls) (applyOps cache reached)
  | lookup {calls : List StoreCall} {cache : Cache} (pkg : Package) (files : FileTree File)
      (spec : Spec) (decision : Decision) :
      Run calls cache → Run calls (restore pkg files cache spec decision).cache
  | damage {calls : List StoreCall} {cache : Cache} (file : CacheFile) (left : Option Bytes) :
      Run calls cache → (∀ key text, file = .manifest key → left = some text →
        ∃ whole, cache file = some whole ∧ text <+: whole) →
      Run calls (applyOp cache (file, left))

/-! ## Operations -/

theorem applyOps_append (cache : Cache) (ops ops' : List CacheOp) :
    applyOps cache (ops ++ ops') = applyOps (applyOps cache ops) ops' := by
  simp [applyOps]

/-- A file is as it was, or as some operation left it. -/
theorem applyOps_cases (cache : Cache) (ops : List CacheOp) (file : CacheFile) :
    applyOps cache ops file = cache file ∨ (file, applyOps cache ops file) ∈ ops := by
  induction ops generalizing cache with
  | nil => exact .inl rfl
  | cons op ops ih =>
    show applyOps (applyOp cache op) ops file = _ ∨ (file, applyOps (applyOp cache op) ops file) ∈ _
    rcases ih (applyOp cache op) with heq | hmem
    · by_cases hfile : op.1 = file
      · subst hfile
        rw [heq, applyOp_self]
        exact .inr List.mem_cons_self
      · rw [heq]
        exact .inl (Function.update_of_ne (Ne.symm hfile) _ _)
    · exact .inr (List.mem_cons_of_mem _ hmem)

theorem applyOps_untouched {cache : Cache} {ops : List CacheOp} {file : CacheFile}
    (h : ∀ op ∈ ops, op.1 ≠ file) : applyOps cache ops file = cache file :=
  (applyOps_cases cache ops file).resolve_right fun hmem => h _ hmem rfl

theorem presentOutputs_spec (pkg : Package) (files : FileTree File) (outputs : List Bytes) :
    (presentOutputs pkg files outputs).map Prod.fst <+: outputs ∧
      ∀ o ∈ presentOutputs pkg files outputs, inputFile pkg files o.1 = some o.2 := by
  induction outputs with
  | nil => exact ⟨List.prefix_refl _, by simp [presentOutputs]⟩
  | cons output outputs ih =>
    unfold presentOutputs
    split
    · exact ⟨List.nil_prefix, by simp⟩
    · rename_i file hfile
      refine ⟨(List.prefix_cons_inj output).mpr ih.1, ?_⟩
      rw [List.forall_mem_cons]
      exact ⟨hfile, ih.2⟩

namespace StoreCall

variable {call : StoreCall} {cache : Cache}

theorem outputs_read {o : Bytes × File} (h : o ∈ call.outputs) :
    inputFile call.pkg call.files o.1 = some o.2 :=
  (presentOutputs_spec _ _ _).2 o h

/-- Once as many outputs are there as the action has, they are its outputs. -/
theorem outputs_names (h : ¬call.outputs.length < call.spec.outputs.length) :
    call.outputs.map Prod.fst = call.spec.outputs := by
  have hprefix := (presentOutputs_spec call.pkg call.files call.spec.outputs).1
  refine hprefix.eq_of_length_le ?_
  rw [List.length_map]
  exact Nat.le_of_not_lt h

/-- The operations of a fresh entry. -/
theorem ops_writeEntry {op : CacheOp} (h : op ∈ call.ops cache) :
    op ∈ discardEntry call.keys.key call.spec.outputs.length ∨
      op ∈ writeAlias call.keys.baseKey call.keys.key ∨
      op ∈ (writeEntry call.pkg call.files call.spec call.keys).1 := by
  simp only [ops, storeOps] at h
  split at h
  · exact .inr (.inr h)
  · split at h
    · exact .inr (.inl h)
    · exact (List.mem_append.mp h).imp_right .inr

/-- The depfile it stores. -/
def depfile (call : StoreCall) : Option File :=
  if call.spec.depfile = [] then none else inputFile call.pkg call.files call.spec.depfile

/-- The manifest it writes. -/
def manifest (call : StoreCall) : Bytes :=
  manifestText call.spec call.keys.key call.depfile call.outputs

theorem writeOutputs_manifest {depfile : Option File} {key text : Bytes}
    (h : (CacheFile.manifest key, some text) ∈
      (writeOutputs call.pkg call.files call.spec call.keys depfile).1) :
    key = call.keys.key ∧ call.outputs.map Prod.fst = call.spec.outputs ∧
      text = manifestText call.spec call.keys.key depfile call.outputs := by
  unfold writeOutputs at h
  dsimp only at h
  split at h
  · simp [storeBlob, replaceFile] at h
  · rename_i hcomplete
    refine ⟨?_, outputs_names hcomplete, ?_⟩
    · simp [storeBlob, replaceFile, writeAlias] at h
      exact h.1
    · simp [storeBlob, replaceFile, writeAlias] at h
      exact h.2

/-- A store writes its manifest when all outputs are there, and no other manifest. -/
theorem ops_manifest {key text : Bytes} (h : (CacheFile.manifest key, some text) ∈ call.ops cache) :
    key = call.keys.key ∧ call.outputs.map Prod.fst = call.spec.outputs ∧ text = call.manifest := by
  rw [manifest, depfile]
  rcases ops_writeEntry h with h | h | h
  · simp [discardEntry] at h
  · simp [writeAlias, replaceFile] at h
  · unfold writeEntry at h
    split at h
    · rename_i hnone
      rw [if_pos hnone]
      exact writeOutputs_manifest h
    · rename_i hsome
      rw [if_neg hsome]
      cases hfile : inputFile call.pkg call.files call.spec.depfile with
      | none =>
        rw [hfile] at h
        cases h
      | some file =>
        rw [hfile] at h
        rcases List.mem_append.mp h with h | h
        · simp [replaceFile] at h
        · exact writeOutputs_manifest h

/-- The depfile's name, digest and mode in the manifest. -/
def stamp (call : StoreCall) : Bytes × UInt64 × Nat :=
  match call.depfile with
  | none => ([], 0, 0)
  | some file => (call.spec.depfile, contentHash file, file.mode % 512)

/-- What the manifest says. -/
def contents (call : StoreCall) : Manifest where
  depfile := call.stamp.1
  depfileDigest := call.stamp.2.1
  depfileMode := call.stamp.2.2
  outputs := call.outputs.map fun s => (contentHash s.2, s.2.mode % 512)

theorem stamp_named (call : StoreCall) : Named call.stamp.1 ∧ call.stamp.2.2 < 512 := by
  unfold stamp
  split
  · exact ⟨⟨by simp, by simp, by simp⟩, by decide⟩
  · rename_i file _
    exact ⟨call.depfile_named, mode_lt file⟩

theorem manifest_text (call : StoreCall) :
    call.manifest = headText call.keys.key call.spec.outputs.length call.stamp.1 call.stamp.2.1
      call.stamp.2.2 ++ recordsText call.outputs := by
  rw [manifest, manifestText.eq_def, stamp]
  cases call.depfile with
  | none => rfl
  | some file => rw [List.take_of_length_le call.depfile_named.short]

theorem key_named (call : StoreCall) : Named call.keys.key := by
  have h := call.evaluated
  unfold evaluate at h
  split at h
  · cases h
  · split at h
    · cases h
    · rw [← Decision.eligible.inj (Except.ok.inj h)]
      exact named_hash _

end StoreCall

/-! ## Runs -/

/-- Every manifest is one that a store wrote, or what is left of it. -/
def Kept (calls : List StoreCall) (cache : Cache) : Prop :=
  ∀ key text, cache (.manifest key) = some text →
    ∃ call ∈ calls, call.keys.key = key ∧ call.outputs.map Prod.fst = call.spec.outputs ∧
      text <+: call.manifest

theorem restore_cache (pkg : Package) (files : FileTree File) (cache : Cache) (spec : Spec)
    (decision : Decision) : (restore pkg files cache spec decision).cache = cache ∨
      ∃ key, (restore pkg files cache spec decision).cache =
        applyOps cache (discardEntry key spec.outputs.length) := by
  unfold restore
  split
  · exact .inl rfl
  · split
    · exact .inl rfl
    · split
      · exact .inr ⟨_, rfl⟩
      · split
        · left
          unfold refreshThroughDepfile
          split
          · rfl
          · split
            · rfl
            · split <;> rfl
        · exact .inl rfl

theorem Kept.ops {calls : List StoreCall} {cache : Cache} (h : Kept calls cache)
    {ops : List CacheOp} (hops : ∀ key text, (CacheFile.manifest key, some text) ∈ ops →
      ∃ call ∈ calls, call.keys.key = key ∧ call.outputs.map Prod.fst = call.spec.outputs ∧
        text <+: call.manifest) : Kept calls (applyOps cache ops) := by
  intro key text htext
  rcases applyOps_cases cache ops (.manifest key) with heq | hmem
  · exact h key text (heq.symm.trans htext)
  · rw [htext] at hmem
    exact hops key text hmem

theorem Run.kept {calls : List StoreCall} {cache : Cache} (h : Run calls cache) :
    Kept calls cache := by
  induction h with
  | fresh => nofun
  | @store calls cache call reached _ hreached ih =>
    have hmore : Kept (call :: calls) cache := by
      intro key text htext
      obtain ⟨other, hmem, hother⟩ := ih key text htext
      exact ⟨other, List.mem_cons_of_mem _ hmem, hother⟩
    apply hmore.ops
    intro key text hop
    obtain ⟨rfl, hnames, rfl⟩ := StoreCall.ops_manifest (hreached _ hop)
    exact ⟨call, List.mem_cons_self, rfl, hnames, List.prefix_refl _⟩
  | @lookup calls cache pkg files spec decision _ ih =>
    rcases restore_cache pkg files cache spec decision with heq | ⟨key, heq⟩
    · rwa [heq]
    · rw [heq]
      exact ih.ops (by simp [discardEntry])
  | @damage calls cache file left _ hleft ih =>
    have hop : Kept calls (applyOps cache [(file, left)]) := by
      apply ih.ops
      intro key text hmem
      obtain ⟨rfl, rfl⟩ := Prod.mk.inj (List.mem_singleton.mp hmem)
      obtain ⟨whole, hwhole, hcut⟩ := hleft key text rfl rfl
      obtain ⟨call, hcall, hkey, hnames, hprefix⟩ := ih key whole hwhole
      exact ⟨call, hcall, hkey, hnames, hcut.trans hprefix⟩
    exact hop

/-! ## What a lookup puts in place -/

/-- After copies that do not fail a file is as it was, or some record's blob with its mode. -/
theorem copyOutputs_cases {root : Bytes} {cache : Cache} {key : Bytes}
    {records : List ((Bytes × UInt64 × Nat) × Nat)} {files : FileTree File}
    (h : (copyOutputs root cache key files records).2 = none) (path : Bytes) :
    ((∀ r ∈ records, cacheFullPath root r.1.1 ≠ some path) ∧
      (copyOutputs root cache key files records).1 path = files path) ∨
    ∃ r ∈ records, cacheFullPath root r.1.1 = some path ∧ ∃ content,
      cache (.blob key r.2) = some content ∧
      (copyOutputs root cache key files records).1 path = some ⟨content, r.1.2.2⟩ := by
  induction records generalizing files with
  | nil => exact .inl ⟨by simp, rfl⟩
  | cons record rest ih =>
    obtain ⟨⟨output, hash, mode⟩, i⟩ := record
    cases hfull : cacheFullPath root output with
    | none => simp [copyOutputs, copyOut, hfull] at h
    | some place =>
      cases hblob : cache (.blob key i) with
      | none => simp [copyOutputs, copyOut, hfull, hblob] at h
      | some content =>
        have hcopy : copyOutputs root cache key files (((output, hash, mode), i) :: rest) =
            copyOutputs root cache key (writeFile files place ⟨content, mode⟩) rest := by
          simp [copyOutputs, copyOut, hfull, hblob]
        rw [hcopy] at h ⊢
        rcases ih h with ⟨hnone, heq⟩ | ⟨r, hr, hat⟩
        · by_cases hplace : path = place
          · subst hplace
            rw [writeFile_self] at heq
            exact .inr ⟨_, List.mem_cons_self, hfull, content, hblob, heq⟩
          · left
            rw [List.forall_mem_cons]
            refine ⟨⟨fun hsame => hplace ?_, hnone⟩, heq.trans (writeFile_ne _ _ hplace)⟩
            exact (Option.some.inj (hfull.symm.trans hsame)).symm
        · exact .inr ⟨r, List.mem_cons_of_mem _ hr, hat⟩

/-- The place of an output holds the blob of an output of that place, with its mode. -/
theorem copied_output {root : Bytes} {cache : Cache} {key : Bytes} {outputs : List Bytes}
    {records : List (UInt64 × Nat)} {files : FileTree File} (hlen : records.length = outputs.length)
    (h : (copyOutputs root cache key files (outputs.zip records).zipIdx).2 = none)
    {output path : Bytes} (houtput : output ∈ outputs) (hpath : cacheFullPath root output = some path) :
    ∃ i same record content, outputs[i]? = some same ∧ records[i]? = some record ∧
      cacheFullPath root same = some path ∧ cache (.blob key i) = some content ∧
      (copyOutputs root cache key files (outputs.zip records).zipIdx).1 path =
        some ⟨content, record.2⟩ := by
  rcases copyOutputs_cases h path with ⟨hnone, -⟩ | ⟨r, hr, hplace, content, hblob, hat⟩
  · obtain ⟨i, hi⟩ := List.mem_iff_getElem?.mp houtput
    obtain ⟨hlt, -⟩ := List.getElem?_eq_some_iff.mp hi
    have hlt' : i < records.length := by rwa [hlen]
    have hrecord : ((output, records[i]), i) ∈ (outputs.zip records).zipIdx := by
      rw [List.mem_zipIdx_iff_getElem?, List.getElem?_zip_eq_some]
      exact ⟨hi, List.getElem?_eq_getElem hlt'⟩
    exact absurd hpath (hnone _ hrecord)
  · rw [List.mem_zipIdx_iff_getElem?, List.getElem?_zip_eq_some] at hr
    exact ⟨r.2, r.1.1, r.1.2, content, hr.1, hr.2, hplace, hblob, hat⟩

/-- How a lookup comes to the entry of a key: by its own key, or by the index file of its base key
where its own key has no entry. A depfile of that entry, put in place, then has to bring the action
to the key of the entry. -/
def LeadsTo (pkg : Package) (files : FileTree File) (cache : Cache) (spec : Spec) (keys : Keys)
    (key : Bytes) : Prop :=
  keys.key = key ∨
    (cache (.manifest keys.key) = none ∧ readAlias cache keys.baseKey = some key ∧
      ∀ text m, cache (.manifest key) = some text → parseManifest spec.outputs key text = some m →
        m.depfile ≠ [] → ∃ blob path refreshed, cache (.depfileBlob key) = some blob ∧
          cacheFullPath pkg.root m.depfile = some path ∧
          evaluate pkg (writeFile files path ⟨blob, m.depfileMode⟩) spec = .ok refreshed ∧
          refreshed.key = key)

/-- The entry a lookup hit. -/
structure Hit (pkg : Package) (files : FileTree File) (cache : Cache) (spec : Spec) (keys : Keys)
    (after : FileTree File) where
  key : Bytes
  text : Bytes
  m : Manifest
  before : FileTree File
  found : cache (.manifest key) = some text
  usable : parseManifest spec.outputs key text = some m
  intact : blobsIntact cache key m = true
  leads : LeadsTo pkg files cache spec keys key
  kept : ∀ path, cacheFullPath pkg.root spec.depfile ≠ some path → before path = files path
  copied : after = (copyOutputs pkg.root cache key before (spec.outputs.zip m.outputs).zipIdx).1
  complete : (copyOutputs pkg.root cache key before (spec.outputs.zip m.outputs).zipIdx).2 = none

theorem materializeOutputs_copied {pkg : Package} {files : FileTree File} {cache : Cache}
    {spec : Spec} {selected : Selected} {m : Manifest}
    (h : (materializeOutputs pkg files cache spec selected m).report = .hit) :
    (copyOutputs pkg.root cache selected.key files (spec.outputs.zip m.outputs).zipIdx).2 = none := by
  simp only [materializeOutputs] at h
  cases hcopied : (copyOutputs pkg.root cache selected.key files (spec.outputs.zip m.outputs).zipIdx).2 with
  | none => rfl
  | some e =>
    rw [hcopied] at h
    cases h

theorem ReadBack.length_eq {stored : List (Bytes × File)} {records : List (UInt64 × Nat)}
    (h : ReadBack stored records) : records.length = stored.length := by
  induction h with
  | nil => rfl
  | record _ ih => simpa using ih
  | cut j => rfl

theorem ReadBack.get {stored : List (Bytes × File)} {records : List (UInt64 × Nat)}
    (h : ReadBack stored records) {i : Nat} {s : Bytes × File} {r : UInt64 × Nat}
    (hs : stored[i]? = some s) (hr : records[i]? = some r) :
    r.1 = contentHash s.2 ∧ (r.2 = s.2.mode % 512 ∨
      (i + 1 = stored.length ∧ ∃ j, r.2 = s.2.mode % 512 / 8 ^ j)) := by
  induction h generalizing i with
  | nil => simp at hs
  | record _ ih =>
    cases i with
    | zero =>
      obtain rfl := Option.some.inj hs
      obtain rfl := Option.some.inj hr
      exact ⟨rfl, .inl rfl⟩
    | succ i => simpa using ih hs hr
  | cut j =>
    cases i with
    | zero =>
      obtain rfl := Option.some.inj hs
      obtain rfl := Option.some.inj hr
      exact ⟨rfl, .inr ⟨rfl, j, rfl⟩⟩
    | succ i => simp at hs

/-- The store after a compile. -/
def compileStore : StoreCall where
  pkg := compilePackage
  files := compiledFiles
  spec := compileSpec
  keys :=
    match compileDecision compiledFiles with
    | .eligible keys => keys
    | .refused _ => ⟨[], [], [], []⟩
  evaluated := by decide +kernel
  outputs_named := by
    intro output houtput
    obtain rfl := List.mem_singleton.mp houtput
    exact ⟨by decide, by decide, by decide⟩
  depfile_named := ⟨by decide, by decide, by decide⟩
  counted := by decide

namespace StoreCall

variable {call : StoreCall} {cache : Cache}

/-- The blobs of the depfile and the outputs. -/
def blobs (call : StoreCall) : List CacheOp :=
  (match call.depfile with
    | none => []
    | some file => replaceFile (.depfileBlob call.keys.key) file.content) ++
  call.outputs.zipIdx.flatMap (storeBlob call.keys.key)

/-- What a store that reports an entry did, and that it had all it needed. -/
theorem ops_stored (h : (storeOps call.pkg call.files cache call.spec (.eligible call.keys)).2 = .stored) :
    call.outputs.map Prod.fst = call.spec.outputs ∧
      (call.spec.depfile ≠ [] → call.depfile ≠ none) ∧
      ∃ discards, call.ops cache = discards ++ (call.blobs ++
        (replaceFile (.manifest call.keys.key) call.manifest ++
          writeAlias call.keys.baseKey call.keys.key)) := by
  have hwritten : ∀ depfile, (writeOutputs call.pkg call.files call.spec call.keys depfile).2 = .stored →
      call.outputs.map Prod.fst = call.spec.outputs ∧
        (writeOutputs call.pkg call.files call.spec call.keys depfile).1 =
          call.outputs.zipIdx.flatMap (storeBlob call.keys.key) ++
            (replaceFile (.manifest call.keys.key)
              (manifestText call.spec call.keys.key depfile call.outputs) ++
              writeAlias call.keys.baseKey call.keys.key) := by
    intro depfile hreport
    unfold writeOutputs at hreport ⊢
    dsimp only at hreport ⊢
    split at hreport
    · cases hreport
    · rename_i hcomplete
      rw [if_neg hcomplete, List.append_assoc]
      exact ⟨outputs_names hcomplete, rfl⟩
  have hentry : (writeEntry call.pkg call.files call.spec call.keys).2 = .stored →
      call.outputs.map Prod.fst = call.spec.outputs ∧ (call.spec.depfile ≠ [] → call.depfile ≠ none) ∧
        (writeEntry call.pkg call.files call.spec call.keys).1 = call.blobs ++
          (replaceFile (.manifest call.keys.key) call.manifest ++
            writeAlias call.keys.baseKey call.keys.key) := by
    intro hreport
    unfold writeEntry at hreport ⊢
    split at hreport
    · rename_i hnone
      obtain ⟨hnames, hops⟩ := hwritten none hreport
      have hdepfile : call.depfile = none := if_pos hnone
      refine ⟨hnames, fun hsome => absurd hnone hsome, ?_⟩
      rw [if_pos hnone, hops, blobs, manifest, hdepfile, List.nil_append]
    · rename_i hsome
      have hdepfile : call.depfile = inputFile call.pkg call.files call.spec.depfile := if_neg hsome
      cases hfile : inputFile call.pkg call.files call.spec.depfile with
      | none =>
        rw [hfile] at hreport
        cases hreport
      | some file =>
        rw [hfile] at hreport hdepfile
        obtain ⟨hnames, hops⟩ := hwritten (some file) hreport
        refine ⟨hnames, fun _ => by simp [hdepfile], ?_⟩
        rw [if_neg hsome]
        dsimp only
        rw [hops, blobs, manifest, hdepfile, List.append_assoc]
  simp only [ops, storeOps] at h ⊢
  split at h
  · obtain ⟨hnames, hdepfile, hops⟩ := hentry h
    exact ⟨hnames, hdepfile, [], hops⟩
  · split at h
    · cases h
    · rename_i hinvalid
      obtain ⟨hnames, hdepfile, hops⟩ := hentry h
      rw [if_neg hinvalid]
      exact ⟨hnames, hdepfile, _, congrArg (discardEntry _ _ ++ ·) hops⟩

/-- The blob of an output is its content, whatever the directory held. -/
theorem blob_stored (cache : Cache) (key : Bytes) {outputs : List (Bytes × File)} {n i : Nat}
    {o : Bytes × File} (h : outputs[i]? = some o) :
    applyOps cache ((outputs.zipIdx n).flatMap (storeBlob key)) (.blob key (n + i)) =
      some o.2.content := by
  induction outputs generalizing cache n i with
  | nil => simp at h
  | cons first rest ih =>
    rw [List.zipIdx_cons, List.flatMap_cons, applyOps_append]
    cases i with
    | zero =>
      obtain rfl := Option.some.inj h
      rw [applyOps_untouched]
      · exact applyOp_self (applyOp cache (.blob key n, none)) (.blob key n, some first.2.content)
      · intro op hop
        obtain ⟨record, hrecord, hop⟩ := List.mem_flatMap.mp hop
        have hlater := List.le_snd_of_mem_zipIdx hrecord
        have hfile : op.1 = .blob key record.2 := by
          simp only [storeBlob, replaceFile, List.mem_cons, List.not_mem_nil, or_false] at hop
          rcases hop with rfl | rfl <;> rfl
        rw [hfile]
        intro hsame
        have hindex := (CacheFile.blob.inj hsame).2
        omega
    | succ i =>
      have hrest := ih (applyOps cache (storeBlob key (first, n))) (n := n + 1) h
      rw [← hrest]
      congr 2
      omega

/-- The entry after a store that reports it. -/
theorem entry_stored (h : (storeOps call.pkg call.files cache call.spec (.eligible call.keys)).2 = .stored) :
    applyOps cache (call.ops cache) (.manifest call.keys.key) = some call.manifest ∧
      (∀ file, call.depfile = some file →
        applyOps cache (call.ops cache) (.depfileBlob call.keys.key) = some file.content) ∧
      ∀ i o, call.outputs[i]? = some o →
        applyOps cache (call.ops cache) (.blob call.keys.key i) = some o.2.content := by
  obtain ⟨-, -, discards, hops⟩ := ops_stored h
  rw [hops]
  simp only [applyOps_append]
  have halias : ∀ (c : Cache) (file : CacheFile), (∀ key, file ≠ .alias key) →
      applyOps c (writeAlias call.keys.baseKey call.keys.key) file = c file := by
    intro c file hfile
    refine applyOps_untouched ?_
    simp [writeAlias, replaceFile, (hfile _).symm]
  have hmanifest : ∀ (c : Cache) (file : CacheFile) (text : Bytes), (∀ key, file ≠ .manifest key) →
      applyOps c (replaceFile (.manifest call.keys.key) text) file = c file := by
    intro c file text hfile
    refine applyOps_untouched ?_
    simp [replaceFile, (hfile _).symm]
  refine ⟨?_, ?_, ?_⟩
  · rw [halias _ _ (by simp)]
    exact applyOp_self _ (.manifest call.keys.key, some call.manifest)
  · intro file hfile
    rw [halias _ _ (by simp), hmanifest _ _ _ (by simp), blobs, hfile, applyOps_append,
      applyOps_untouched]
    · exact applyOp_self _ (.depfileBlob call.keys.key, some file.content)
    · intro op hop
      obtain ⟨record, -, hop⟩ := List.mem_flatMap.mp hop
      simp only [storeBlob, replaceFile, List.mem_cons, List.not_mem_nil, or_false] at hop
      rcases hop with rfl | rfl <;> simp
  · intro i o ho
    rw [halias _ _ (by simp), hmanifest _ _ _ (by simp), blobs, applyOps_append]
    have hblob := fun c => @blob_stored c call.keys.key call.outputs 0 i o ho
    simp only [Nat.zero_add] at hblob
    exact hblob _

/-- The manifest of a store is read back by an action with its outputs and its depfile. -/
theorem manifest_read (hnames : call.outputs.map Prod.fst = call.spec.outputs)
    (hreturn : 13 ∉ call.spec.depfile) :
    parseManifest call.spec.outputs call.keys.key call.manifest =
      some call.contents := by
  obtain ⟨hname, hmode⟩ := call.stamp_named
  have hfree : 13 ∉ call.stamp.1 := by
    unfold stamp
    split
    · simp
    · exact hreturn
  have hnamed : ∀ s ∈ call.outputs, Named s.1 := by
    intro s hs
    refine call.outputs_named s.1 ?_
    rw [← hnames]
    exact List.mem_map_of_mem hs
  rw [parseManifest, call.manifest_text, parseHead_headText call.key_named call.counted hname hfree hmode,
    Option.bind_eq_bind, Option.bind_some]
  dsimp only
  rw [← hnames, parseOutputs_recordsText hnamed]
  rfl

/-- The entry of a store can be used by every action with its outputs and its depfile. -/
theorem usable_stored {spec : Spec} (hreturn : 13 ∉ call.spec.depfile)
    (h : (storeOps call.pkg call.files cache call.spec (.eligible call.keys)).2 = .stored)
    (houtputs : spec.outputs = call.spec.outputs) (hdepfile : spec.depfile = call.spec.depfile) :
    usableManifest (applyOps cache (call.ops cache)) spec
      ⟨call.keys.key, call.manifest, false⟩ = some call.contents := by
  obtain ⟨hnames, hstored, -⟩ := ops_stored h
  obtain ⟨-, hdep, hblob⟩ := entry_stored h
  have hname : call.stamp.1 = [] ∨ call.stamp.1 = spec.depfile := by
    rw [hdepfile]
    unfold stamp
    split
    · exact .inl rfl
    · exact .inr rfl
  have hintact : blobsIntact (applyOps cache (call.ops cache)) call.keys.key
      call.contents = true := by
    rw [blobsIntact, contents, Bool.and_eq_true]
    constructor
    · unfold stamp
      split
      · simp
      · rename_i file hfile
        simp [hdep file hfile, blobMatches, contentHash]
    · rw [List.all_eq_true]
      intro record hrecord
      have hget := List.mem_zipIdx_iff_getElem?.mp hrecord
      rw [List.getElem?_map, Option.map_eq_some_iff] at hget
      obtain ⟨s, hs, heq⟩ := hget
      simp [hblob _ _ hs, blobMatches, ← heq, contentHash]
  rw [usableManifest, houtputs, manifest_read hnames hreturn, Option.bind_eq_bind, Option.bind_some]
  have hsame : call.contents.depfile = [] ∨ call.contents.depfile = spec.depfile := hname
  simp only [hsame, hintact, guard_true]
  rfl

end StoreCall

/-- After a store that reports an entry a lookup under its key hits, whatever the directory held
before and in whatever state the package is now, and puts the outputs in place as they were stored. -/
theorem stored_restored {call : StoreCall} {cache : Cache} (hreturn : 13 ∉ call.spec.depfile)
    (hstored : (storeOps call.pkg call.files cache call.spec (.eligible call.keys)).2 = .stored)
    (pkg : Package) (files : FileTree File) {spec : Spec} {keys : Keys}
    (houtputs : spec.outputs = call.spec.outputs) (hdepfile : spec.depfile = call.spec.depfile)
    (hkey : keys.key = call.keys.key) :
    (restore pkg files (applyOps cache (call.ops cache)) spec (.eligible keys)).report = .hit ∧
      ∀ output ∈ spec.outputs, ∀ path, cacheFullPath pkg.root output = some path →
        ∃ same ∈ spec.outputs, cacheFullPath pkg.root same = some path ∧
          ∃ stored, inputFile call.pkg call.files same = some stored ∧
            (restore pkg files (applyOps cache (call.ops cache)) spec (.eligible keys)).files path =
              some ⟨stored.content, stored.mode % 512⟩ := by
  obtain ⟨hnames, -, -⟩ := StoreCall.ops_stored hstored
  obtain ⟨hmanifest, -, hblob⟩ := StoreCall.entry_stored hstored
  have husable := StoreCall.usable_stored hreturn hstored houtputs hdepfile
  have hselect : selectEntry (applyOps cache (call.ops cache)) keys =
      some ⟨call.keys.key, call.manifest, false⟩ := by
    rw [selectEntry, hkey, hmanifest]
  have hrestore : restore pkg files (applyOps cache (call.ops cache)) spec (.eligible keys) =
      materializeOutputs pkg files (applyOps cache (call.ops cache)) spec
        ⟨call.keys.key, call.manifest, false⟩ call.contents := by
    simp only [restore, hselect, husable, Bool.false_eq_true, false_and, if_false]
  have hreport := Transparency.materializeOutputs_hit pkg files husable
  rw [hrestore]
  refine ⟨hreport, ?_⟩
  intro output houtput path hpath
  obtain ⟨i, same, record, content, hname, hrecord, hplace, hcontent, hat⟩ :=
    copied_output (by simp [StoreCall.contents, houtputs, ← hnames]) (materializeOutputs_copied hreport) houtput hpath
  refine ⟨same, List.mem_of_getElem? hname, hplace, ?_⟩
  rw [houtputs, ← hnames, List.getElem?_map, Option.map_eq_some_iff] at hname
  obtain ⟨s, hs, rfl⟩ := hname
  rw [StoreCall.contents, List.getElem?_map, hs, Option.map_some, Option.some.injEq] at hrecord
  rw [hblob i s hs, Option.some.injEq] at hcontent
  subst hrecord hcontent
  exact ⟨s.2, StoreCall.outputs_read (List.mem_of_getElem? hs), hat⟩

theorem stored_restored_compile :
    (restore compilePackage cleanedFiles
      (applyOps (fun _ => none) (compileStore.ops fun _ => none)) compileSpec
      (.eligible compileStore.keys)).report = .hit ∧
    ∀ output ∈ compileSpec.outputs, ∀ path, cacheFullPath compilePackage.root output = some path →
      ∃ same ∈ compileSpec.outputs, cacheFullPath compilePackage.root same = some path ∧
        ∃ stored, inputFile compileStore.pkg compileStore.files same = some stored ∧
          (restore compilePackage cleanedFiles
            (applyOps (fun _ => none) (compileStore.ops fun _ => none)) compileSpec
            (.eligible compileStore.keys)).files path = some ⟨stored.content, stored.mode % 512⟩ :=
  @stored_restored compileStore _ (by decide) (by decide +kernel) compilePackage cleanedFiles
    compileSpec compileStore.keys rfl rfl rfl

end QStar.ActionCache
