import QStar.ActionCache.Key
import QStar.Lib.Numerals
import Mathlib.Data.Option.Basic

/-!
# Entries of the local action cache

The cache directory: for each key a manifest, numbered output blobs and a depfile
blob, and for each base key an index file that names a key. Every one of these
files may be missing or hold arbitrary bytes. The directory is a store of its
own: no package path names a file in it. Files are written under a temporary
name and renamed, so a write appears here as a removal and an addition.
-/
namespace QStar.ActionCache

open QStar.Lib.CStrings
open QStar.Lib.Fnv
open QStar.Lib.Numerals
open QStar.Base

/-- The files of the cache directory. -/
inductive CacheFile where
  /-- `cas/v1/<key>/manifest` -/
  | manifest (key : Bytes)
  /-- `cas/v1/<key>/blob.<i>` -/
  | blob (key : Bytes) (i : Nat)
  /-- `cas/v1/<key>/blob.depfile` -/
  | depfileBlob (key : Bytes)
  /-- `cas/v1/index/<base key>` -/
  | alias (baseKey : Bytes)
  deriving DecidableEq

abbrev Cache := CacheFile → Option Bytes

/-- One operation on the directory: a file gets a content or is removed. -/
abbrev CacheOp := CacheFile × Option Bytes

def applyOp (cache : Cache) (op : CacheOp) : Cache := Function.update cache op.1 op.2

def applyOps (cache : Cache) (ops : List CacheOp) : Cache := ops.foldl applyOp cache

@[simp] theorem applyOp_self (cache : Cache) (op : CacheOp) : applyOp cache op op.1 = op.2 := by
  simp [applyOp]

/-- What a manifest says. -/
structure Manifest where
  depfile : Bytes
  depfileDigest : UInt64
  depfileMode : Nat
  outputs : List (UInt64 × Nat)
  deriving DecidableEq, Repr

/-- One `fgets` into the line buffer of the manifest reader. -/
def readLine (text : Bytes) : Option (Bytes × Bytes) :=
  if text = [] then none
  else some (cString (fgets 8191 text).1, (fgets 8191 text).2)

def scanDigest (label line : Bytes) : Option UInt64 :=
  (scanField label 16 line).map UInt64.ofNat

/-- A mode is read as a 32-bit number; the file system keeps its permission bits. -/
def scanMode (label line : Bytes) : Option Nat :=
  (scanField label 8 line).map fun mode => mode % 2 ^ 32 % 4096

/-- The output records of a manifest. -/
def parseOutputs : List Bytes → Bytes → Option (List (UInt64 × Nat))
  | [], _ => some []
  | output :: rest, text => do
    let (line, text) ← readLine text
    guard (line = ascii "output=" ++ output ++ ascii "\n")
    let (line, text) ← readLine text
    let hash ← scanDigest (ascii "digest=") line
    let (line, text) ← readLine text
    let mode ← scanMode (ascii "mode=") line
    let records ← parseOutputs rest text
    return (hash, mode) :: records

/-- What the first six lines of a manifest say, and the text after them. -/
structure ManifestHead where
  depfile : Bytes
  depfileDigest : UInt64
  depfileMode : Nat
  rest : Bytes

/-- The part of `cache_parse_manifest` before its loop over the outputs. -/
def parseHead (outputCount : Nat) (key text : Bytes) : Option ManifestHead := do
  let (line, text) ← readLine text
  guard (line = ascii "qstar-local-cas-v1\n")
  let (line, text) ← readLine text
  guard (line = ascii "key=" ++ key ++ ascii "\n")
  let (line, text) ← readLine text
  let count ← scanField (ascii "count=") 10 line
  guard (count = outputCount)
  let (line, text) ← readLine text
  guard (ascii "depfile=" <+: line)
  let depfile := ((line.drop 8).take 4095).takeWhile fun c => c ≠ 13 && c ≠ 10
  let (line, text) ← readLine text
  let depfileDigest ← scanDigest (ascii "depfile_digest=") line
  let (line, text) ← readLine text
  let depfileMode ← scanMode (ascii "depfile_mode=") line
  return ⟨depfile, depfileDigest, depfileMode, text⟩

/-- `cache_parse_manifest` -/
def parseManifest (outputs : List Bytes) (key text : Bytes) : Option Manifest := do
  let head ← parseHead outputs.length key text
  let records ← parseOutputs outputs head.rest
  return ⟨head.depfile, head.depfileDigest, head.depfileMode, records⟩

/-- `cache_read_alias` -/
def readAlias (cache : Cache) (baseKey : Bytes) : Option Bytes :=
  (cache (.alias baseKey)).bind fun text =>
    let line := cString (fgets 31 text).1
    let key := (line.reverse.dropWhile fun c => c = 10 || c = 13).reverse
    if key.length = 16 ∧ key.all isLowerHex then some key else none

/-- A blob that is there and has the digest its manifest gives. -/
def blobMatches (blob : Option Bytes) (hash : UInt64) : Bool :=
  blob.any fun content => hashBytes hashInit content = hash

/-- The blob checks of a parsed manifest against its entry. -/
def blobsIntact (cache : Cache) (key : Bytes) (m : Manifest) : Bool :=
  (m.depfile = [] || blobMatches (cache (.depfileBlob key)) m.depfileDigest) &&
  m.outputs.zipIdx.all fun record => blobMatches (cache (.blob key record.2)) record.1.1

/-- `cache_discard_entry` removes as many output blobs as the action has outputs. -/
def discardEntry (key : Bytes) (outputCount : Nat) : List CacheOp :=
  ((List.range outputCount).map fun i => (.blob key i, none)) ++
  [(.manifest key, none), (.depfileBlob key, none)]

/-! ## Storing an action

The operations of a store on the cache directory, in order. A store that is cut short performs an
initial part of them. -/

inductive StoreReport where
  | stored
  | alreadyPresent
  | notCacheable (reason : Refusal)
  | depfileMissing
  | nonFileOutput
  deriving DecidableEq, Repr

/-- What `remove` and `rename` of a temporary file do to a file of the cache. -/
def replaceFile (file : CacheFile) (content : Bytes) : List CacheOp :=
  [(file, none), (file, some content)]

/-- `cache_write_alias` -/
def writeAlias (baseKey key : Bytes) : List CacheOp :=
  replaceFile (.alias baseKey) (key ++ ascii "\n")

/-- The manifest record of one output. -/
def outputRecord (output : Bytes) (hash : UInt64) (mode : Nat) : Bytes :=
  ascii "output=" ++ output ++ ascii "\ndigest=" ++ formatHash hash ++ ascii "\nmode=" ++
  printUnsigned 8 mode ++ ascii "\n"

/-- The text a store writes before the output records. -/
def headText (key : Bytes) (count : Nat) (depfile : Bytes) (depfileHash : UInt64)
    (depfileMode : Nat) : Bytes :=
  ascii "qstar-local-cas-v1\nkey=" ++ key ++ ascii "\ncount=" ++ printUnsigned 10 count ++
  ascii "\ndepfile=" ++ depfile ++ ascii "\ndepfile_digest=" ++ formatHash depfileHash ++
  ascii "\ndepfile_mode=" ++ printUnsigned 8 depfileMode ++ ascii "\n"

def recordsText (outputs : List (Bytes × File)) : Bytes :=
  outputs.flatMap fun output =>
    outputRecord output.1 (contentHash output.2) (output.2.mode % 512)

/-- The manifest of an entry with the given depfile and outputs. -/
def manifestText (spec : Spec) (key : Bytes) (depfile : Option File)
    (outputs : List (Bytes × File)) : Bytes :=
  (match depfile with
    | none => headText key spec.outputs.length [] 0 0
    | some file => headText key spec.outputs.length (spec.depfile.take 4095) (contentHash file)
        (file.mode % 512)) ++
  recordsText outputs

/-- The blob of one output. -/
def storeBlob (key : Bytes) (output : (Bytes × File) × Nat) : List CacheOp :=
  replaceFile (.blob key output.2) output.1.2.content

/-- The outputs that are there, up to the first one that is not. -/
def presentOutputs (pkg : Package) (files : FileTree File) : List Bytes → List (Bytes × File)
  | [] => []
  | output :: rest =>
    match inputFile pkg files output with
    | none => []
    | some file => (output, file) :: presentOutputs pkg files rest

/-- The blobs, the manifest and the index file, once the depfile is dealt with. -/
def writeOutputs (pkg : Package) (files : FileTree File) (spec : Spec) (keys : Keys)
    (depfile : Option File) : List CacheOp × StoreReport :=
  let outputs := presentOutputs pkg files spec.outputs
  let blobs := outputs.zipIdx.flatMap (storeBlob keys.key)
  if outputs.length < spec.outputs.length then (blobs, .nonFileOutput)
  else
    (blobs ++ replaceFile (.manifest keys.key) (manifestText spec keys.key depfile outputs) ++
      writeAlias keys.baseKey keys.key, .stored)

/-- A fresh entry for the current outputs and depfile. -/
def writeEntry (pkg : Package) (files : FileTree File) (spec : Spec) (keys : Keys) :
    List CacheOp × StoreReport :=
  if spec.depfile = [] then writeOutputs pkg files spec keys none
  else
    match inputFile pkg files spec.depfile with
    | none => ([], .depfileMissing)
    | some file =>
      let rest := writeOutputs pkg files spec keys (some file)
      (replaceFile (.depfileBlob keys.key) file.content ++ rest.1, rest.2)

/-- An entry that a store leaves as it is. -/
def entryValid (cache : Cache) (spec : Spec) (key text : Bytes) : Bool :=
  (parseManifest spec.outputs key text).any fun m => blobsIntact cache key m

/-- The operations of `qstar_action_cache_store` and its report. -/
def storeOps (pkg : Package) (files : FileTree File) (cache : Cache) (spec : Spec)
    (decision : Decision) : List CacheOp × StoreReport :=
  match decision with
  | .refused reason => ([], .notCacheable reason)
  | .eligible keys =>
    match cache (.manifest keys.key) with
    | none => writeEntry pkg files spec keys
    | some text =>
      if entryValid cache spec keys.key text then
        (writeAlias keys.baseKey keys.key, .alreadyPresent)
      else
        let rest := writeEntry pkg files spec keys
        (discardEntry keys.key spec.outputs.length ++ rest.1, rest.2)

/-- `qstar_action_cache_store` -/
def store (pkg : Package) (files : FileTree File) (cache : Cache) (spec : Spec)
    (decision : Decision) : Cache :=
  applyOps cache (storeOps pkg files cache spec decision).1

end QStar.ActionCache
