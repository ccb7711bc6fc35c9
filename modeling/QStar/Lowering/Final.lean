import QStar.Lowering.Compile

/-!
# Lowering final actions

Linking, archiving and provider finals: the objects of the target and of its object
libraries, the artifacts of its dependencies and the flags around them.
-/
namespace QStar.Lowering

open QStar.Lib.CStrings
open QStar.Base
open QStar.BuildGraph

/-- `target_source_emits_object` -/
def emitsObject (t : Target) (index : Nat) : Bool :=
  match unitySourceInfo t index with
  | none => true
  | some (_, leader) => leader

/-- `target_source_object_input` for a source that emits one -/
def sourceObjectInput (g : Graph) (t : Target) (index : Nat) : Except LoweringError Bytes :=
  match sourceClassify t index with
  | none => .error (.unsupportedSource (t.sources.getD index []))
  | some source =>
    if isLinkObject source then .ok (t.sources.getD index [])
    else
      match unitySourceInfo t index with
      | some (batch, _) => .ok (unityObjectPath g t batch)
      | none => .ok (objectOutputPath g t index)

/-- `objectlib_source_object_input` for a source that emits one -/
def objectlibObjectInput (g : Graph) (consumer objectlib : Target) (index : Nat) :
    Except LoweringError Bytes :=
  match sourceClassify objectlib index with
  | none => .error (.unsupportedSource (objectlib.sources.getD index []))
  | some source =>
    if isLinkObject source then .ok (objectlib.sources.getD index [])
    else if usesConsumerContext objectlib then
      .ok (consumerObjectOutputPath g consumer objectlib index)
    else
      match unitySourceInfo objectlib index with
      | some (batch, _) => .ok (unityObjectPath g objectlib batch)
      | none => .ok (objectOutputPath g objectlib index)

/-- `objectlib_source_depfile_output` -/
def objectlibDepfileOutput (g : Graph) (consumer objectlib : Target) (index : Nat) : Bytes :=
  if usesConsumerContext objectlib then consumerDepfileOutputPath g consumer objectlib index
  else depfileOutputPath g objectlib index

/-- The indices of the sources that emit an object. -/
def emittingSources (t : Target) : List Nat :=
  (List.range t.sources.length).filter (emitsObject t ·)

/-- The objects of the sources of a target. -/
def ownObjects (g : Graph) (t : Target) : Except LoweringError (List Bytes) :=
  (emittingSources t).mapM (sourceObjectInput g t)

/-- The objects of one object library. -/
def objectlibObjects (g : Graph) (t : Target) (label : Bytes) :
    Except LoweringError (List Bytes) :=
  match findTarget g label with
  | none => .error (.unknownObjectlib label)
  | some objectlib => (emittingSources objectlib).mapM (objectlibObjectInput g t objectlib)

/-- `append_objectlib_objects`, `append_objectlib_inputs` -/
def allObjectlibObjects (g : Graph) (t : Target) : Except LoweringError (List Bytes) := do
  let objects ← t.objects.mapM (objectlibObjects g t)
  return objects.flatten

/-- `append_sharedlib_link_flags` -/
def sharedlibLinkFlags (g : Graph) (t : Target) (tc : Toolchain) (artifact : Bytes) :
    Except LoweringError (List Bytes) :=
  if t.kind ≠ .sharedlib then .ok []
  else if supportsSharedlib g = false then .error (.sharedlibPlatform t.label)
  else if isDarwin g then
    .ok [ascii "-dynamiclib", ascii "-install_name", ascii "@rpath/" ++ artifactBasename artifact]
  else if isWindows g then do
    let importLib ← targetArtifactPath g t (ascii "import_lib")
    if tc.linkStyle = ascii "msvc" then
      return [ascii "/DLL", ascii "/IMPLIB:" ++ importLib]
    return [ascii "-shared", ascii "-Wl,--out-implib," ++ importLib]
  else .ok [ascii "-shared", ascii "-Wl,-soname," ++ artifactBasename artifact]

/-- The driver a target is linked with. -/
def linkDriver (t : Target) (tc : Toolchain) : Bytes :=
  if hasCompileProvider t (ascii "cxx") then tc.cxx else tc.linker

/-- `toolchain_needs_msvc_link_boundary` -/
def needsMsvcLinkBoundary (t : Target) (tc : Toolchain) : Bool :=
  tc.linkStyle = ascii "msvc" &&
    (strstr (linkDriver t tc) (ascii "clang-cl") || strstr (linkDriver t tc) (ascii "cl.exe"))

/-- `toolchain_uses_msvc_out_arg` -/
def usesMsvcOutArg (t : Target) (tc : Toolchain) : Bool :=
  strstr (linkDriver t tc) (ascii "lld-link") || strstr (linkDriver t tc) (ascii "link.exe")

/-- `append_system_link_flags` -/
def systemLinkFlags (g : Graph) (t : Target) (tc : Toolchain) : Except LoweringError (List Bytes) :=
  let msvc := tc.linkStyle = ascii "msvc"
  let dirs := t.libDirs.map fun dir =>
    if msvc then ascii "/LIBPATH:" ++ dir else ascii "-L" ++ dir
  let libs := t.libs.map fun lib => if msvc then lib ++ ascii ".lib" else ascii "-l" ++ lib
  if t.frameworks ≠ [] ∧ isDarwin g = false then .error (.frameworksUnsupported t.label)
  else .ok (dirs ++ libs ++ flagged "-framework" t.frameworks)

/-- The kinds `local_executor_supported` is set for. -/
def locallySupported (kind : TargetKind) : Bool :=
  kind = .exe || kind = .test || kind = .staticlib || kind = .sharedlib

/-- A provider final takes part in dependency usage unless its interface has version 2 or it
is archived. -/
def finalTakesUsage (t : Target) (final : ProviderFinal) : Bool :=
  final.api ≠ ascii "qstar.lang/2" && t.kind ≠ .staticlib

/-- What the dependencies of a provider final ask their users for. -/
def finalUsage (g : Graph) (t : Target) (final : ProviderFinal) :
    Except LoweringError (List Bytes) :=
  if finalTakesUsage t final then dependencyUsage g .link t else .ok []

/-- The inputs of a provider final. -/
def finalInputs (g : Graph) (t : Target) (final : ProviderFinal) :
    Except LoweringError (List Bytes) :=
  if finalTakesUsage t final then pushDependencyUsageInputs g .link t final.action.inputs
  else .ok final.action.inputs

/-- `lower_provider_final_action` -/
def lowerProviderFinal (g : Graph) (tc : Toolchain) (t : Target) (final : ProviderFinal) :
    Except LoweringError LoweredAction := do
  if final.action.argv = [] then throw (.noLoweredCommand t.label)
  let argv ← templateArgv g t tc final.action.argv
  let usage ← finalUsage g t final
  let inputs ← finalInputs g t final
  return {
    id := singleActionId t.label (finalAction t)
    kind := finalAction t
    owner := t.label
    toolchain := some tc
    sourcePath := []
    argv := argv ++ usage
    env := final.action.env
    inputs := inputs
    outputs := final.action.outputs
    depfile := final.action.depfile
    wantsDepfile := final.action.wantsDepfile
    keyOutput := final.action.outputs.head final.action.outputs_ne
    unitySource := none
    outputs_ne := final.action.outputs_ne }

/-- The words before the objects. -/
def finalHead (g : Graph) (tc : Toolchain) (t : Target) (artifact : Bytes) :
    Except LoweringError (List Bytes) := do
  let flags ← sharedlibLinkFlags g t tc artifact
  if t.kind = .staticlib then
    return rawToolRole g t tc (ascii "archive") tc.ar ++ [ascii "rcs", artifact] ++ flags
  validateSharedlibPlatform g t
  let usage ← dependencyUsage g .link t
  let output := if usesMsvcOutArg t tc then [ascii "/out:" ++ artifact] else [ascii "-o", artifact]
  return rawToolRole g t tc (ascii "link") (linkDriver t tc) ++ output ++ flags ++ usage ++
    t.linkOptions

/-- The words after the objects, all of which also become inputs. -/
def finalTail (g : Graph) (tc : Toolchain) (t : Target) (artifact : Bytes) :
    Except LoweringError (List Bytes) := do
  let rpaths ← sharedlibRuntimeRpaths g t artifact
  if t.kind = .staticlib then
    return rpaths
  let artifacts ← depArtifacts g t
  let system ← systemLinkFlags g t tc
  return artifacts ++ rpaths ++ (if needsMsvcLinkBoundary t tc then [ascii "/link"] else []) ++
    system

/-- The inputs that dependencies ask the linker for; archives ask for none. -/
def linkUsageInputs (g : Graph) (t : Target) (inputs : List Bytes) :
    Except LoweringError (List Bytes) :=
  if t.kind = .staticlib then .ok inputs else pushDependencyUsageInputs g .link t inputs

/-- `qstar_lower_final_action` and the check of `prepare_final_action` that there is an
output -/
def lowerFinalAction (g : Graph) (tc : Toolchain) (t : Target) :
    Except LoweringError LoweredAction :=
  match t.providerFinal with
  | some final => lowerProviderFinal g tc t final
  | none => do
    if locallySupported t.kind = false then throw (.unsupportedKind t.label)
    let artifact ← artifactOutputPath g t
    let head ← finalHead g tc t artifact
    let own ← ownObjects g t
    let library ← allObjectlibObjects g t
    let tail ← finalTail g tc t artifact
    let linked ← t.linkInputs.foldlM (pushActionInput g) (own ++ library ++ tail)
    let inputs ← linkUsageInputs g t linked
    let outputs ← targetArtifactOutputs g t
    match outputs with
    | [] => throw (.noDeclaredOutput (singleActionId t.label (finalAction t)))
    | output :: rest =>
      return {
        id := singleActionId t.label (finalAction t)
        kind := finalAction t
        owner := t.label
        toolchain := some tc
        sourcePath := []
        argv := head ++ own ++ library ++ tail
        env := []
        inputs := inputs
        outputs := output :: rest
        depfile := []
        wantsDepfile := false
        keyOutput := output
        unitySource := none
        outputs_ne := by simp }

end QStar.Lowering
