import QStar.BuildGraph.Sources

/-!
# Output paths, artifacts and tokens

Where compiling and linking a target puts its outputs, what a target's artifacts
are on the platform of the graph, and the tokens that stand for artifacts and
stage directories in commands and inputs.
-/
namespace QStar.BuildGraph

open QStar.Lib.CStrings
open QStar.Lib.Numerals
open QStar.Base

/-- Why a graph cannot be lowered. -/
inductive LoweringError where
  | malformedTargetFile
  | unknownTargetFile (label : Bytes)
  | selectorOnGenerated (artifact label : Bytes)
  | groupHasNoArtifact (label : Bytes)
  | objectlibHasNoArtifact (label : Bytes)
  | unknownArtifact (artifact label : Bytes)
  | tooManyArtifacts (label : Bytes)
  | noToolArtifact (label : Bytes)
  | malformedStageDir
  | unknownStage (label : Bytes)
  | toolRoleMissing (role : Bytes)
  | malformedProviderTool
  | headerSource (path : Bytes)
  | modulesDisabled (path : Bytes)
  | unsupportedSource (path : Bytes)
  | compilerNotFound (tool : Bytes)
  | assemblerNotFound (tool : Bytes)
  | cxxStrategy (label : Bytes)
  | sharedlibPlatform (label : Bytes)
  | unityNonLeader
  | unitySource
  | modulePath
  | providerInConsumerContext (path : Bytes)
  | noLoweredCommand (label : Bytes)
  | unsupportedKind (label : Bytes)
  | unknownObjectlib (label : Bytes)
  | frameworksUnsupported (label : Bytes)
  | noDeclaredOutput (id : Bytes)
  | runtimePath
  | toolEmpty
  | toolTokenMalformed
  | toolNotToolFile
  | unknownTool (label : Bytes)
  | absoluteTool (tool : Bytes)
  | toolNotRelative (tool : Bytes)
  | toolNameInvalid (tool : Bytes)
  | pathToolNotAllowed (tool : Bytes)
  | configureFile (label : Bytes)
  | argEscapesPackage (arg : Bytes)
  | runCommandMissing (label : Bytes)
  | invalidActionId (id : Bytes)
  | unknownOwner (label : Bytes)
  | actionIndexOutOfRange
  | notExecutable (id : Bytes)
  | headerMissing (path : Bytes)
  | moduleInConsumerContext (path : Bytes)
  | configHeaderOutputs (label : Bytes)
  | unknownTarget (label : Bytes)
  | unknownDependency (label : Bytes)
  | unresolvedPackage (label : Bytes)
  | dependencyCycle (label : Bytes)
  | circularGenerated (label : Bytes)
  | circularStage (label : Bytes)
  /-- A search that went deeper than there are nodes. -/
  | searchTooDeep
  deriving DecidableEq

/-! ## Paths -/

/-- A path under the output directory of a target. -/
def outPath (g : Graph) (t : Target) (tail : Bytes) : Bytes :=
  buildPath g.buildDir (ascii "out/" ++ mangleLabel t.label ++ ascii "/" ++ tail)

/-- `qstar_graph_object_output_path` -/
def objectOutputPath (g : Graph) (t : Target) (index : Nat) : Bytes :=
  outPath g t (ascii "obj" ++ printUnsigned 10 index ++ ascii ".o")

/-- `qstar_graph_depfile_output_path` -/
def depfileOutputPath (g : Graph) (t : Target) (index : Nat) : Bytes :=
  outPath g t (ascii "obj" ++ printUnsigned 10 index ++ ascii ".d")

/-- `qstar_graph_consumer_object_output_path` -/
def consumerObjectOutputPath (g : Graph) (consumer objectlib : Target) (index : Nat) : Bytes :=
  outPath g consumer (ascii "objects/" ++ mangleLabel objectlib.label ++ ascii "/obj" ++
    printUnsigned 10 index ++ ascii ".o")

/-- `qstar_graph_consumer_depfile_output_path` -/
def consumerDepfileOutputPath (g : Graph) (consumer objectlib : Target) (index : Nat) : Bytes :=
  outPath g consumer (ascii "objects/" ++ mangleLabel objectlib.label ++ ascii "/obj" ++
    printUnsigned 10 index ++ ascii ".d")

/-- `cxx_subpath` -/
def cxxSubpath (g : Graph) (t : Target) (tail : Bytes) : Bytes := outPath g t (ascii "cxx/" ++ tail)

def unityPath (g : Graph) (t : Target) (batch : Nat) (suffix : Bytes) : Bytes :=
  cxxSubpath g t (ascii "unity/unity_" ++ printUnsigned 10 batch ++ suffix)

/-- `qstar_cxx_unity_object_path` -/
def unityObjectPath (g : Graph) (t : Target) (batch : Nat) : Bytes := unityPath g t batch (ascii ".o")

/-- `qstar_cxx_unity_depfile_path` -/
def unityDepfilePath (g : Graph) (t : Target) (batch : Nat) : Bytes :=
  unityPath g t batch (ascii ".d")

/-- `qstar_cxx_unity_source_path` -/
def unitySourcePath (g : Graph) (t : Target) (batch : Nat) : Bytes :=
  unityPath g t batch (ascii ".cpp")

/-- `qstar_cxx_module_dir_path` -/
def moduleDirPath (g : Graph) (t : Target) : Bytes := cxxSubpath g t (ascii "modules")

/-- `path_basename`; a backslash separates too when it comes later than every slash. -/
def pathBasename (path : Bytes) : Bytes :=
  match strrchr 47 path, strrchr 92 path with
  | none, none => path
  | some i, none => path.drop (i + 1)
  | none, some j => path.drop (j + 1)
  | some i, some j => path.drop (max i j + 1)

/-- The part of a basename before its last dot; `none` where it is empty. -/
def baseStem (path : Bytes) : Option Bytes :=
  let base := pathBasename path
  let stem := match strrchr 46 base with
    | none => base
    | some dot => base.take dot
  if stem = [] then none else some stem

/-- `qstar_cxx_module_output_path` -/
def moduleOutputPath (g : Graph) (t : Target) (index : Nat) : Option Bytes := do
  let stem ← baseStem (t.sources.getD index [])
  return cxxSubpath g t (ascii "modules/" ++ stem ++ ascii ".pcm")

/-- `qstar_dirname` -/
def dirname (path : Bytes) : Bytes :=
  match strrchr 47 path with
  | none => ascii "."
  | some 0 => path.take 1
  | some slash => path.take slash

/-- `artifact_basename` -/
def artifactBasename (path : Bytes) : Bytes :=
  match strrchr 47 path with
  | none => path
  | some slash => path.drop (slash + 1)

/-- `split_path_components` -/
def splitPathComponents (path : Bytes) : List Bytes :=
  if path = ascii "." then [] else (path.splitOn 47).filter (· ≠ [])

def dropCommon : List Bytes → List Bytes → List Bytes × List Bytes
  | a :: as, b :: bs => if a = b then dropCommon as bs else (a :: as, b :: bs)
  | as, bs => (as, bs)

/-- `qstar_path_relative_between_dirs` -/
def pathRelativeBetweenDirs (fromDir toDir : Bytes) : Bytes :=
  let (up, down) := dropCommon (splitPathComponents fromDir) (splitPathComponents toDir)
  let parts := up.map (fun _ => ascii "..") ++ down
  if parts = [] then ascii "." else (ascii "/").intercalate parts

/-! ## Platforms -/

def platformIs (g : Graph) (name : Bytes) : Bool :=
  if g.platform = [] ∨ g.platform = ascii "host" ∨ g.platform = ascii "default" then g.host = name
  else g.platform = name

/-- `qstar_platform_is_windows` -/
def isWindows (g : Graph) : Bool := platformIs g (ascii "windows")

/-- `qstar_platform_is_darwin` -/
def isDarwin (g : Graph) : Bool := platformIs g (ascii "darwin")

/-- `qstar_platform_is_linux` -/
def isLinux (g : Graph) : Bool := platformIs g (ascii "linux")

/-- `qstar_platform_supports_sharedlib` -/
def supportsSharedlib (g : Graph) : Bool := isDarwin g || isLinux g || isWindows g

/-! ## Artifacts -/

/-- `struct qstar_target_artifact` -/
structure Artifact where
  id : Bytes
  role : Bytes
  type : Bytes
  path : Bytes
  primary : Bool
  runtime : Bool
  linkInterface : Bool

/-- `push_artifact` -/
def artifactOf (id role path : Bytes) (primary : Bool) : Artifact where
  id := id
  role := role
  type := ascii "file"
  path := path
  primary := primary
  runtime := role = ascii "sharedlib" || role = ascii "exe" || role = ascii "tool"
  linkInterface := role = ascii "link" || role = ascii "import_lib" || role = ascii "staticlib" ||
    role = ascii "archive"

/-- `artifact_prefix` and `artifact_suffix` of the rule of a kind -/
def rulePrefixSuffix : TargetKind → Bytes × Bytes
  | .staticlib => (ascii "lib", ascii ".a")
  | .sharedlib => (ascii "lib", ascii ".so")
  | _ => ([], [])

/-- `target_primary_artifact_filename` -/
def primaryArtifactFilename (g : Graph) (t : Target) : Bytes :=
  if t.artifactName ≠ [] then t.artifactName
  else
    match t.kind with
    | .sharedlib =>
      if isDarwin g then ascii "lib" ++ t.name ++ ascii ".dylib"
      else if isWindows g then t.name ++ ascii ".dll"
      else ascii "lib" ++ t.name ++ ascii ".so"
    | .exe => t.name ++ if isWindows g then ascii ".exe" else []
    | .test => t.name ++ if isWindows g then ascii ".exe" else []
    | kind => (rulePrefixSuffix kind).1 ++ t.name ++ (rulePrefixSuffix kind).2

/-- `replace_extension` -/
def replaceExtension (filename suffix : Bytes) : Bytes :=
  match strrchr 46 filename with
  | none => filename ++ suffix
  | some 0 => filename ++ suffix
  | some dot => filename.take dot ++ suffix

/-- The artifacts of an imported target: those of the platform if it has any, else the
default ones. -/
def importedArtifactsOf (g : Graph) (t : Target) : List Artifact :=
  let exact := t.importedArtifacts.any fun a => a.platform = g.platform
  let platform := if exact then g.platform else ascii "default"
  (t.importedArtifacts.filter fun a => a.platform = platform).map fun a =>
    artifactOf a.id a.role a.path a.primary

/-- The artifacts a provider final declares. -/
def providerArtifactsOf (final : ProviderFinal) : List Artifact :=
  final.artifacts.map fun a =>
    { id := a.id
      role := if a.linkInterface then ascii "link-interface" else if a.runtime then ascii "runtime"
        else if a.primary then ascii "primary" else ascii "secondary"
      type := if a.type = [] then ascii "file" else a.type
      path := a.path
      primary := a.primary
      runtime := a.runtime
      linkInterface := a.linkInterface }

/-- The artifacts of a kind that is linked, archived or materialized. -/
def ownArtifacts (g : Graph) (t : Target) : List Artifact :=
  let filename := primaryArtifactFilename g t
  let path := outPath g t filename
  match t.kind with
  | .sharedlib =>
    artifactOf (ascii "runtime") (ascii "sharedlib") path true ::
      if isWindows g then
        [artifactOf (ascii "import_lib") (ascii "import_lib")
          (outPath g t (replaceExtension filename (ascii ".lib"))) false]
      else []
  | .exe => [artifactOf (ascii "runtime") (ascii "exe") path true]
  | .test => [artifactOf (ascii "runtime") (ascii "exe") path true]
  | .staticlib => [artifactOf (ascii "archive") (ascii "staticlib") path true]
  | .other name => [artifactOf (ascii "primary") name path true]
  | _ => [artifactOf (ascii "primary") (ascii "target") path true]

/-- They lie in the output directory of the target. -/
theorem ownArtifacts_path {g : Graph} {t : Target} {a : Artifact} (ha : a ∈ ownArtifacts g t) :
    ∃ tail, a.path = outPath g t tail := by
  unfold ownArtifacts at ha
  split at ha
  · rcases List.mem_cons.mp ha with rfl | ha
    · exact ⟨_, rfl⟩
    · split at ha
      · obtain rfl := List.mem_singleton.mp ha
        exact ⟨_, rfl⟩
      · cases ha
  all_goals
    obtain rfl := List.mem_singleton.mp ha
    exact ⟨_, rfl⟩

/-- The entries of a `struct qstar_target_artifact_map`. -/
def artifactMapSize : Nat := 16

/-- `qstar_graph_target_artifact_map` -/
def targetArtifactMap (g : Graph) (t : Target) : Except LoweringError (List Artifact) :=
  let artifacts := match t.kind with
    | .group => []
    | .runTarget => []
    | .objectlib => []
    | .interface => []
    | .tool => [artifactOf (ascii "executable") (ascii "tool") t.toolPath true]
    | .imported => importedArtifactsOf g t
    | _ =>
      match t.providerFinal with
      | some final => if final.artifacts = [] then ownArtifacts g t else providerArtifactsOf final
      | none => ownArtifacts g t
  if artifacts.length ≤ artifactMapSize then .ok artifacts else .error (.tooManyArtifacts t.label)

/-- `qstar_graph_target_artifact_path`; no selector selects the primary artifact. -/
def targetArtifactPath (g : Graph) (t : Target) (selector : Bytes) : Except LoweringError Bytes := do
  let artifacts ← targetArtifactMap g t
  let found := artifacts.find? fun a =>
    ((selector = [] || selector = ascii "primary") && a.primary) ||
      (selector ≠ [] && selector = a.id)
  match found with
  | some a => .ok a.path
  | none =>
    if t.kind = .objectlib then .error (.objectlibHasNoArtifact t.label)
    else .error (.unknownArtifact selector t.label)

/-- `qstar_graph_artifact_output_path` -/
def artifactOutputPath (g : Graph) (t : Target) : Except LoweringError Bytes :=
  targetArtifactPath g t []

/-- `qstar_graph_target_artifact_outputs` -/
def targetArtifactOutputs (g : Graph) (t : Target) : Except LoweringError (List Bytes) := do
  let artifacts ← targetArtifactMap g t
  return artifacts.map Artifact.path

/-- `qstar_graph_target_link_artifact_path`; a map that is too large is only an error for
the paths looked for afterwards. -/
def targetLinkArtifactPath (g : Graph) (t : Target) : Except LoweringError Bytes :=
  let linkInterface := match targetArtifactMap g t with
    | .ok artifacts => artifacts.find? Artifact.linkInterface
    | .error _ => none
  match linkInterface with
  | some a => .ok a.path
  | none => do
    if t.kind = .imported then
      let artifacts ← targetArtifactMap g t
      if let some a := artifacts.find? fun a => a.role = ascii "link" then
        return a.path
    targetArtifactPath g t (if t.kind = .sharedlib ∧ isWindows g then ascii "import_lib" else [])

/-- `qstar_graph_target_tool_path` -/
def targetToolPath (g : Graph) (t : Target) : Except LoweringError Bytes := do
  let artifacts ← targetArtifactMap g t
  let found := artifacts.find? fun a =>
    a.role = ascii "tool" || (a.runtime && a.primary && a.type = ascii "file") ||
      ((t.kind = .exe || t.kind = .test) && a.primary)
  match found with
  | some a => .ok a.path
  | none => .error (.noToolArtifact t.label)

/-! ## Tokens -/

/-- A command or input item: plain text, a token, or neither. -/
inductive Token where
  | plain
  | malformed
  | payload (text : Bytes)
  deriving DecidableEq

/-- The text between a token's opening and its closing bracket. -/
def tokenPayload (opening arg : Bytes) : Token :=
  if opening <+: arg then
    let rest := arg.drop opening.length
    if rest.length ≤ 1 ∨ rest.getLast? ≠ some 62 then .malformed else .payload rest.dropLast
  else .plain

/-- `qstar_stage_dir_token_label` -/
def stageDirToken (arg : Bytes) : Token := tokenPayload (ascii "<qstar-stage-dir:") arg

/-- `qstar_provider_tool_token_role` -/
def providerToolToken (arg : Bytes) : Token := tokenPayload (ascii "<qstar-tool:") arg

/-- A target-file token: its label, and its artifact selector where it has one. -/
inductive TargetFileToken where
  | plain
  | malformed
  | targetFile (label artifact : Bytes)
  deriving DecidableEq

/-- `qstar_target_file_token_parse` -/
def targetFileToken (arg : Bytes) : TargetFileToken :=
  match tokenPayload (ascii "<qstar-target-file:") arg with
  | .plain => .plain
  | .malformed => .malformed
  | .payload text =>
    let label := text.takeWhile (· ≠ 35)
    if label = [] then .malformed
    else
      match text.dropWhile (· ≠ 35) with
      | [] => .targetFile label []
      | _ :: artifact => if artifact = [] then .malformed else .targetFile label artifact

/-- `resolve_target_file_token` -/
def resolveTargetFileToken (g : Graph) (arg : Bytes) : Except LoweringError Bytes :=
  match targetFileToken arg with
  | .plain => .ok arg
  | .malformed => .error .malformedTargetFile
  | .targetFile label artifact =>
    match findTarget g label with
    | none =>
      match findGenrule g label with
      | some genrule =>
        if artifact ≠ [] then .error (.selectorOnGenerated artifact label)
        else .ok (genrule.outputs.head genrule.outputs_ne)
      | none => .error (.unknownTargetFile label)
    | some t =>
      if t.kind = .group then .error (.groupHasNoArtifact label)
      else if t.kind = .objectlib then .error (.objectlibHasNoArtifact label)
      else if artifact = ascii "@tool" then targetToolPath g t
      else targetArtifactPath g t artifact

/-- `resolve_stage_dir_token` before `resolve_target_file_token`, as
`qstar_graph_resolve_command_token` does it -/
def resolveCommandToken (g : Graph) (arg : Bytes) : Except LoweringError Bytes :=
  match stageDirToken arg with
  | .plain => resolveTargetFileToken g arg
  | .malformed => .error .malformedStageDir
  | .payload label =>
    match findStage g label with
    | none => .error (.unknownStage label)
    | some stage => .ok (if stage.root = [] then ascii "." else stage.root)

/-- `stage_manifest_rel_for_label` -/
def stageManifestPath (g : Graph) (label : Bytes) : Bytes :=
  buildPath g.buildDir (ascii "stage/" ++ mangleLabel label ++ ascii "/manifest.json")

end QStar.BuildGraph
