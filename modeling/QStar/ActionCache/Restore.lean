import QStar.ActionCache.Entry

/-!
# Restoring an action from the local cache

The lookup by key or through the base key, the checks of the entry, and the
copies that put a stored depfile and stored outputs in place.
-/
namespace QStar.ActionCache

open QStar.Lib.CStrings
open QStar.Base

inductive Miss where
  | notCacheable (reason : Refusal)
  | entryMissing
  | corruptEntry
  | dependencyChanged
  deriving DecidableEq, Repr

inductive RestoreError where
  /-- "qstar: could not materialize local cache depfile" -/
  | depfileNotMaterialized
  /-- "qstar: could not materialize local cache output" -/
  | outputNotMaterialized (output : Bytes)
  | evaluation (e : DepfileError)
  deriving DecidableEq, Repr

/-- What a lookup reports: 1, 0 with a reason, or -1 with an error. -/
inductive Lookup where
  | hit
  | miss (reason : Miss)
  | error (e : RestoreError)
  deriving DecidableEq, Repr

structure Restored where
  files : FileTree File
  cache : Cache
  report : Lookup

/-- The manifest an action is looked up in. -/
structure Selected where
  key : Bytes
  manifest : Bytes
  aliasUsed : Bool
  deriving DecidableEq

def selectEntry (cache : Cache) (keys : Keys) : Option Selected :=
  match cache (.manifest keys.key) with
  | some text => some ⟨keys.key, text, false⟩
  | none =>
    (readAlias cache keys.baseKey).bind fun key =>
      (cache (.manifest key)).map fun text => ⟨key, text, true⟩

/-- The manifest of an entry that passes every check for the action. -/
def usableManifest (cache : Cache) (spec : Spec) (selected : Selected) : Option Manifest := do
  let m ← parseManifest spec.outputs selected.key selected.manifest
  guard (m.depfile = [] ∨ m.depfile = spec.depfile)
  guard (blobsIntact cache selected.key m = true)
  return m

/-- `cache_copy_file` out of the cache; a blob that is gone fails the copy. -/
def copyOut (root : Bytes) (files : FileTree File) (name : Bytes) (blob : Option Bytes)
    (mode : Nat) : Option (FileTree File) :=
  match cacheFullPath root name, blob with
  | some path, some content => some (writeFile files path ⟨content, mode⟩)
  | _, _ => none

/-- The copies of the output blobs, one output after the other; a failed copy leaves the
earlier ones in place. -/
def copyOutputs (root : Bytes) (cache : Cache) (key : Bytes) (files : FileTree File) :
    List ((Bytes × UInt64 × Nat) × Nat) → FileTree File × Option RestoreError
  | [] => (files, none)
  | ((output, _, mode), i) :: rest =>
    match copyOut root files output (cache (.blob key i)) mode with
    | none => (files, some (.outputNotMaterialized output))
    | some files => copyOutputs root cache key files rest

/-- The last part of `qstar_action_cache_restore`. -/
def materializeOutputs (pkg : Package) (files : FileTree File) (cache : Cache) (spec : Spec)
    (selected : Selected) (m : Manifest) : Restored :=
  let copied := copyOutputs pkg.root cache selected.key files
    (spec.outputs.zip m.outputs).zipIdx
  ⟨copied.1, cache, match copied.2 with
    | none => .hit
    | some e => .error e⟩

/-- The alias path of `qstar_action_cache_restore`: the stored depfile replaces the live one
before the action is evaluated again. -/
def refreshThroughDepfile (pkg : Package) (files : FileTree File) (cache : Cache) (spec : Spec)
    (selected : Selected) (m : Manifest) : Restored :=
  match copyOut pkg.root files m.depfile (cache (.depfileBlob selected.key)) m.depfileMode with
  | none => ⟨files, cache, .error .depfileNotMaterialized⟩
  | some files =>
    match evaluate pkg files spec with
    | .error e => ⟨files, cache, .error (.evaluation e)⟩
    | .ok refreshed =>
      if refreshed.key ≠ selected.key then ⟨files, cache, .miss .dependencyChanged⟩
      else materializeOutputs pkg files cache spec selected m

/-- `qstar_action_cache_restore` -/
def restore (pkg : Package) (files : FileTree File) (cache : Cache) (spec : Spec)
    (decision : Decision) : Restored :=
  match decision with
  | .refused reason => ⟨files, cache, .miss (.notCacheable reason)⟩
  | .eligible keys =>
    match selectEntry cache keys with
    | none => ⟨files, cache, .miss .entryMissing⟩
    | some selected =>
      match usableManifest cache spec selected with
      | none =>
        ⟨files, applyOps cache (discardEntry selected.key spec.outputs.length),
          .miss .corruptEntry⟩
      | some m =>
        if selected.aliasUsed = true ∧ m.depfile ≠ [] then
          refreshThroughDepfile pkg files cache spec selected m
        else materializeOutputs pkg files cache spec selected m

end QStar.ActionCache
