import QStar.Lib.Fnv
import QStar.Base.Depfile

/-!
# Keys of the local action cache

Whether an action may be cached, and the digests of the byte streams that
identify its tool, its environment, its declared inputs (the base key) and all
its effective inputs (the key). The report-only audit text is left out.
-/
namespace QStar.ActionCache

open QStar.Lib.CStrings
open QStar.Lib.Fnv
open QStar.Base

/-- A regular file: its bytes and its permission bits. -/
structure File where
  content : Bytes
  mode : Nat
  deriving DecidableEq, Repr

/-- The package root and the environment of the build process. -/
structure Package where
  root : Bytes
  getenv : Bytes → Option Bytes

/-- `struct qstar_action_cache_spec`; an empty depfile is none. -/
structure Spec where
  id : Bytes
  kind : Bytes
  argv : List Bytes
  env : List Bytes
  inputs : List Bytes
  outputs : List Bytes
  depfile : Bytes
  declaredCacheable : Bool
  outputs_named : ∀ output ∈ outputs, output ≠ []

/-- Why an action is not cached. -/
inductive Refusal where
  | declaredNonCacheable
  | actionKindNotSupported
  | noOwnedOutputs
  | externalRuntimeTool
  | externalDeviceOrVolume
  | toolUnresolved
  deriving DecidableEq, Repr

/-- The digests an eligible action is looked up and stored under. -/
structure Keys where
  toolFingerprint : Bytes
  envFingerprint : Bytes
  baseKey : Bytes
  key : Bytes
  deriving DecidableEq, Repr

/-- `struct qstar_action_cache_decision` -/
inductive Decision where
  | refused (reason : Refusal)
  | eligible (keys : Keys)
  deriving DecidableEq, Repr

/-- The key field of a decision, which a refusal leaves zeroed. -/
def Decision.key : Decision → Bytes
  | .refused _ => []
  | .eligible keys => keys.key

/-- `cache_basename` -/
def basename (path : Bytes) : Bytes :=
  (path.reverse.takeWhile fun c => c ≠ 47 && c ≠ 92).reverse

def foldCase (c : UInt8) : UInt8 := if 65 ≤ c ∧ c ≤ 90 then c + 32 else c

/-- `cache_contains_folded` -/
def containsFolded (s needle : Bytes) : Bool := strstr (s.map foldCase) (needle.map foldCase)

/-- The argument test of `cache_external_interaction`. -/
def namesDeviceOrVolume (arg : Bytes) : Bool :=
  decide (ascii "/dev/" <+: arg) || strstr arg (ascii "/dev/tty") ||
  decide (ascii "/Volumes/" <+: arg) || containsFolded arg (ascii "serial") ||
  containsFolded arg (ascii "hardware-in-loop")

/-- `cache_external_interaction` -/
def externalInteraction (argv : List Bytes) : Option Refusal :=
  let tool := basename (argv.headD [])
  if containsFolded tool (ascii "qemu-system") || containsFolded tool (ascii "hil") then
    some .externalRuntimeTool
  else if argv.any namesDeviceOrVolume then some .externalDeviceOrVolume
  else none

/-- `cache_executable_candidate`: a regular file, whatever its mode. -/
def executableCandidate (files : FileTree File) (path : Bytes) : Bool := (files path).isSome

/-- One directory of the search path; the empty one is the current directory. -/
def searchCandidate (dir tool : Bytes) : Bytes :=
  pathJoin (if dir = [] then ascii "." else dir) tool

/-- `cache_resolve_tool` -/
def resolveTool (pkg : Package) (files : FileTree File) (tool : Bytes) : Option Bytes :=
  if tool = [] then none
  else if tool.any fun c => c = 47 || c = 92 then
    (cacheFullPath pkg.root tool).filter fun path => executableCandidate files path
  else
    (pkg.getenv (ascii "PATH")).bind fun path =>
      ((path.splitOn 58).map fun dir => searchCandidate dir tool).find? fun candidate =>
        executableCandidate files candidate

/-- The bytes `cache_hash_string` feeds. -/
def hashLine (s : Bytes) : Bytes := s ++ [10]

def contentHash (file : File) : UInt64 := hashBytes hashInit file.content
def contentSize (file : File) : UInt64 := UInt64.ofNat file.content.length

def toolStream (path : Bytes) (file : File) : Bytes :=
  hashLine path ++ wordBytes (contentHash file) ++ wordBytes (contentSize file)

/-- The environment variables every key covers. -/
def envKeys : List Bytes :=
  [ascii "PATH", ascii "SDKROOT", ascii "CPATH", ascii "LIBRARY_PATH"]

def envStream (pkg : Package) (env : List Bytes) : Bytes :=
  (envKeys.flatMap fun key => hashLine key ++ hashLine ((pkg.getenv key).getD [])) ++
  env.flatMap hashLine

/-- What a key says about the file of an input. -/
def stateStream : Option File → Bytes
  | none => hashLine (ascii "<missing>")
  | some file => hashLine (formatHash (contentHash file)) ++ wordBytes (contentSize file)

/-- The file an input name stands for. -/
def inputFile (pkg : Package) (files : FileTree File) (name : Bytes) : Option File :=
  (cacheFullPath pkg.root name).bind files

def inputStream (pkg : Package) (files : FileTree File) (name : Bytes) : Bytes :=
  hashLine name ++ stateStream (inputFile pkg files name)

/-- The part of a key's stream before its inputs. -/
def headStream (spec : Spec) (toolFingerprint envFingerprint : Bytes) : Bytes :=
  hashLine (ascii "qstar-local-cas-v1") ++ hashLine spec.id ++ hashLine spec.kind ++
  spec.argv.flatMap hashLine ++ hashLine toolFingerprint ++ hashLine envFingerprint

/-- The stream of a key over the given inputs. -/
def keyStream (pkg : Package) (files : FileTree File) (spec : Spec)
    (toolFingerprint envFingerprint : Bytes) (inputs : List Bytes) : Bytes :=
  headStream spec toolFingerprint envFingerprint ++ inputs.flatMap (inputStream pkg files) ++
  spec.outputs.flatMap hashLine

/-- The eligibility tests, in their order; an eligible action has a resolved tool. -/
def resolveEligible (pkg : Package) (files : FileTree File) (spec : Spec) :
    Except Refusal (Bytes × File) :=
  if !spec.declaredCacheable then .error .declaredNonCacheable
  else if spec.kind ≠ ascii "compile" ∧ spec.kind ≠ ascii "generate" then
    .error .actionKindNotSupported
  else if spec.outputs = [] then .error .noOwnedOutputs
  else
    match externalInteraction spec.argv with
    | some reason => .error reason
    | none =>
      match resolveTool pkg files (spec.argv.headD []) with
      | none => .error .toolUnresolved
      | some path =>
        match files path with
        | none => .error .toolUnresolved
        | some file => .ok (path, file)

/-- The keys of an eligible action with the given effective inputs. -/
def keysFor (pkg : Package) (files : FileTree File) (spec : Spec) (tool : Bytes × File)
    (effectiveInputs : List Bytes) : Keys :=
  let toolFingerprint := digest (toolStream tool.1 tool.2)
  let envFingerprint := digest (envStream pkg spec.env)
  { toolFingerprint := toolFingerprint
    envFingerprint := envFingerprint
    baseKey := digest (keyStream pkg files spec toolFingerprint envFingerprint spec.inputs)
    key := digest (keyStream pkg files spec toolFingerprint envFingerprint effectiveInputs) }

/-- The content of the depfile, as far as it can be opened. -/
def depfileContent (pkg : Package) (files : FileTree File) (spec : Spec) : Bytes :=
  if spec.depfile = [] then []
  else ((files (fullPathUnderRoot pkg.root spec.depfile)).map File.content).getD []

/-- The inputs of an action together with those its depfile lists. -/
def effectiveInputs (pkg : Package) (files : FileTree File) (spec : Spec) :
    Except DepfileError (List Bytes) :=
  parseDepfileContent pkg.root files (depfileContent pkg files spec)
    (appendUnique [] spec.inputs)

/-- `qstar_action_cache_evaluate` -/
def evaluate (pkg : Package) (files : FileTree File) (spec : Spec) :
    Except DepfileError Decision :=
  match resolveEligible pkg files spec with
  | .error reason => .ok (.refused reason)
  | .ok tool =>
    match effectiveInputs pkg files spec with
    | .error e => .error e
    | .ok inputs => .ok (.eligible (keysFor pkg files spec tool inputs))

/-- What the current depfile of an action lists cannot be found. -/
def DepfileBroken (pkg : Package) (files : FileTree File) (spec : Spec) : Prop :=
  ListsMissing pkg.root files (depfileContent pkg files spec)

instance (pkg : Package) (files : FileTree File) (spec : Spec) :
    Decidable (DepfileBroken pkg files spec) :=
  inferInstanceAs (Decidable (ListsMissing _ _ _))

/-- All inputs a key of the action covers. -/
def coveredInputs (pkg : Package) (files : FileTree File) (spec : Spec) : List Bytes :=
  appendUnique (appendUnique [] spec.inputs) (listedInputs (depfileContent pkg files spec))

theorem evaluate_refused {pkg : Package} {files : FileTree File} {spec : Spec} {reason : Refusal}
    (h : resolveEligible pkg files spec = .error reason) :
    evaluate pkg files spec = .ok (.refused reason) := by
  simp [evaluate, h]

theorem evaluate_eligible {pkg : Package} {files : FileTree File} {spec : Spec} {tool : Bytes × File}
    (h : resolveEligible pkg files spec = .ok tool) (hdep : ¬ DepfileBroken pkg files spec) :
    evaluate pkg files spec =
      .ok (.eligible (keysFor pkg files spec tool (coveredInputs pkg files spec))) := by
  have hinputs : effectiveInputs pkg files spec = .ok (coveredInputs pkg files spec) :=
    parseDepfileContent_ok _ hdep
  simp [evaluate, h, hinputs]

/-- Evaluation fails on a depfile that lists a missing file, and on nothing else. -/
theorem evaluate_error {pkg : Package} {files : FileTree File} {spec : Spec} {tool : Bytes × File}
    (h : resolveEligible pkg files spec = .ok tool) (hdep : DepfileBroken pkg files spec) :
    ∃ token, evaluate pkg files spec = .error (.headerMissing token) := by
  obtain ⟨token, htoken⟩ := parseDepfileContent_error (appendUnique [] spec.inputs) hdep
  have hinputs : effectiveInputs pkg files spec = .error (.headerMissing token) := htoken
  exact ⟨token, by simp [evaluate, h, hinputs]⟩

end QStar.ActionCache
