import QStar.ActionCache.Key
import QStar.Lib.Streams

/-!
# What an action cache key is computed from

The stream of a key is a row of lines: strings end in a newline, and the eight raw
bytes of a size stand in front of the next string. Where the newlines of strings and
the ends of lists are the same in two specs, the lines give all strings back; where
they are not, two specs can be written as the same lines.
-/
namespace QStar.ActionCache

open QStar.Lib.CStrings
open QStar.Lib.Fnv
open QStar.Lib.Streams
open QStar.Base

/-- An eligible action whose depfile can be read, and the files it is evaluated among. -/
structure KeyInput where
  pkg : Package
  files : FileTree File
  spec : Spec
  tool : Bytes × File
  eligible : resolveEligible pkg files spec = .ok tool
  settled : ¬ DepfileBroken pkg files spec

namespace KeyInput

variable {x y : KeyInput}

def toolFingerprint (x : KeyInput) : Bytes := digest (toolStream x.tool.1 x.tool.2)

def envFingerprint (x : KeyInput) : Bytes := digest (envStream x.pkg x.spec.env)

/-- The effective inputs, and of each file that is there its digest and size. -/
def inputs (x : KeyInput) : List (Bytes × Option (Bytes × UInt64)) :=
  (coveredInputs x.pkg x.files x.spec).map fun name =>
    (name, (inputFile x.pkg x.files name).map fun file =>
      (formatHash (contentHash file), contentSize file))

/-- The streams fed to the hashes of the environment fingerprint and of the key. -/
def streams (x : KeyInput) : Bytes × Bytes :=
  (envStream x.pkg x.spec.env,
    keyStream x.pkg x.files x.spec x.toolFingerprint x.envFingerprint
      (coveredInputs x.pkg x.files x.spec))

/-- The strings of the inputs and outputs; a size is the start of the next string. -/
def fileStrings : Bytes → List (Bytes × Option (Bytes × UInt64)) → List Bytes → List Bytes
  | size, [], [] => [size]
  | size, [], output :: rest => (size ++ output) :: rest
  | size, (name, none) :: inputs, outputs =>
    (size ++ name) :: ascii "<missing>" :: fileStrings [] inputs outputs
  | size, (name, some (hash, length)) :: inputs, outputs =>
    (size ++ name) :: hash :: fileStrings (wordBytes length) inputs outputs

/-- The strings of the environment fingerprint. -/
def envStrings (x : KeyInput) : List Bytes :=
  envKeys.flatMap (fun key => [key, (x.pkg.getenv key).getD []]) ++ x.spec.env

/-- The strings of the key. -/
def keyStrings (x : KeyInput) : List Bytes :=
  ascii "qstar-local-cas-v1" :: x.spec.id :: x.spec.kind :: x.spec.argv ++
    [x.toolFingerprint, x.envFingerprint] ++ fileStrings [] x.inputs x.spec.outputs

/-- Strings cut at every newline. -/
def lines (strings : List Bytes) : List Bytes := strings.flatMap (List.splitOn 10)

theorem outputs_ne (x : KeyInput) : x.spec.outputs ≠ [] := by
  intro h
  have heligible := x.eligible
  unfold resolveEligible at heligible
  split at heligible
  · cases heligible
  · split at heligible
    · cases heligible
    · simp at heligible

/-- A tool that is found by its path. -/
def toolFile : File := ⟨[], 0o755⟩

end KeyInput

end QStar.ActionCache
