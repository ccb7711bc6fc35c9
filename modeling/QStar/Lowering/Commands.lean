import QStar.Lowering.Compile

/-!
# Lowering declared commands

Generated actions and run targets: the tool policy of their toolset, the tokens of
their command and inputs, and the inputs that dependencies bring in.
-/
namespace QStar.Lowering

open QStar.Lib.CStrings
open QStar.Base
open QStar.BuildGraph

/-- `context_bool_enabled` with a default of false -/
def contextBoolEnabled (value : Bytes) : Bool :=
  value = ascii "true" || value = ascii "1" || value = ascii "yes" || value = ascii "on"

/-- `tool_has_path_separator` -/
def hasPathSeparator (tool : Bytes) : Bool := tool.any fun c => c = 47 || c = 92

/-- `tool_is_absolute_path` -/
def isAbsoluteTool : Bytes → Bool
  | 47 :: _ => true
  | c :: 58 :: sep :: _ => isAlpha c && (sep = 92 || sep = 47)
  | _ => false

/-- `valid_tool_name` -/
def validToolName (tool : Bytes) : Bool :=
  tool ≠ [] && !hasPathSeparator tool &&
    tool.all fun c => isAlnum c || c = 95 || c = 45 || c = 46 || c = 43

/-- The toolsets whose policy governs a command: the one it names, that of its target, or
all of them. -/
def policyToolsets (g : Graph) (target : Option Target) (toolset : Bytes) : List Toolset :=
  if toolset ≠ [] then (findToolset g toolset).toList
  else
    match target with
    | some t => if t.toolset ≠ [] then (findToolset g t.toolset).toList else g.toolsets
    | none => g.toolsets

/-- How a command tool was resolved. -/
inductive ToolMode where
  | target
  | absolute
  | package
  | path
  deriving DecidableEq

/-- `resolve_command_tool` -/
def resolveCommandTool (g : Graph) (target : Option Target) (toolset tool : Bytes) :
    Except LoweringError (Bytes × ToolMode) :=
  let policy := policyToolsets g target toolset
  if tool = [] then .error .toolEmpty
  else
    match targetFileToken tool with
    | .malformed => .error .toolTokenMalformed
    | .targetFile label artifact =>
      if artifact ≠ ascii "@tool" then .error .toolNotToolFile
      else
        match findTarget g label with
        | none => .error (.unknownTool label)
        | some t => do
          let path ← targetToolPath g t
          return (path, .target)
    | .plain =>
      if isAbsoluteTool tool then
        if policy.any fun s => contextBoolEnabled s.allowAbsoluteTools then .ok (tool, .absolute)
        else .error (.absoluteTool tool)
      else if hasPathSeparator tool then
        if isPackageRelative tool then .ok (tool, .package) else .error (.toolNotRelative tool)
      else if validToolName tool = false then .error (.toolNameInvalid tool)
      else if policy.any fun s => decide (tool ∈ s.pathTools) then .ok (tool, .path)
      else .error (.pathToolNotAllowed tool)

/-- `generated_arg_escapes_package` -/
def argEscapesPackage (arg : Bytes) : Bool :=
  arg.head? = some 47 || arg = ascii ".." || decide (ascii "../" <+: arg) ||
    strstr arg (ascii "/../") || strstr arg (ascii "=../") || strstr arg (ascii ":../")

/-- The check of the words of a generated action. -/
def validateArgs (r : Genrule) : Except LoweringError Unit :=
  match r.args.find? argEscapesPackage with
  | some arg => .error (.argEscapesPackage arg)
  | none => .ok ()

/-- `qstar_genrule_output_format` -/
def outputFormat (r : Genrule) (index : Nat) : Bytes :=
  let format := r.outputFormats.getD index []
  if format ≠ [] then format else ascii "file"

/-- `qstar_genrule_output_group` -/
def outputGroup (r : Genrule) (index : Nat) : Bytes :=
  let group := r.outputGroups.getD index []
  if group ≠ [] then group
  else if outputFormat r index = ascii "object" then ascii "objects"
  else ascii "generated"

/-- `qstar_genrule_output_identity` -/
def outputIdentity (r : Genrule) (index : Nat) : Bytes :=
  r.outputs.getD index [] ++ ascii "|group=" ++ outputGroup r index ++ ascii "|format=" ++
    outputFormat r index

/-- `qstar_genrule_output_identity_list` -/
def outputIdentityList (r : Genrule) : Bytes :=
  ascii "[" ++ (ascii ",").intercalate ((List.range r.outputs.length).map (outputIdentity r)) ++
    ascii "]"

/-- The files that target-file tokens of a command name. -/
def commandInputs (g : Graph) (words : List Bytes) : Except LoweringError (List Bytes) :=
  (words.filter fun word => targetFileToken word ≠ .plain).mapM (resolveTargetFileToken g)

/-- The platform and the toolset are all that the key of a generated action takes from a
toolchain. -/
def generatedToolchain (g : Graph) (r : Genrule) : Toolchain where
  platform := g.platform
  linkStyle := []
  toolset := r.toolset
  cc := []
  cxx := []
  asm := []
  ar := []
  linker := []
  responseFiles := false
  responseStyle := []

/-- `prepare_generated_action` in a schedule, where no target owns the action -/
def lowerGeneratedAction (g : Graph) (r : Genrule) : Except LoweringError LoweredAction := do
  if r.configHeader then throw (.configureFile r.label)
  let (tool, mode) ← resolveCommandTool g none r.toolset r.tool
  validateArgs r
  let argv ← (tool :: r.args).mapM (resolveCommandToken g)
  let declared ← r.inputs.foldlM (pushActionInput g) []
  let named ← commandInputs g (r.tool :: r.args)
  return {
    id := singleActionId r.label (ascii "generate")
    kind := ascii "generate"
    owner := ascii "<generated>"
    toolchain := some (generatedToolchain g r)
    sourcePath := []
    argv := argv
    env := []
    inputs := declared ++ named ++ if mode = .package then [tool] else []
    outputs := r.outputs
    depfile := []
    wantsDepfile := false
    keyOutput := outputIdentityList r
    unitySource := none
    outputs_ne := r.outputs_ne }

/-- The kinds of dependencies that bring no artifact into a run. -/
def bringsNoArtifact (t : Target) : Bool :=
  t.kind = .group || t.kind = .runTarget || t.kind = .objectlib || t.kind = .interface

/-- The artifact a dependency label brings into a run, if it names a target that has one. -/
def runArtifact (g : Graph) (label : Bytes) : Option Bytes :=
  match findTarget g label with
  | none => none
  | some dep =>
    if bringsNoArtifact dep then none
    else
      match artifactOutputPath g dep with
      | .ok artifact => some artifact
      | .error _ => none

/-- The outputs of the generated action a dependency label names. -/
def runGenerated (g : Graph) (label : Bytes) : List Bytes :=
  match findGenrule g label with
  | none => []
  | some r => r.outputs

/-- What a private dependency brings into a run. -/
def runPrivateDep (g : Graph) (label : Bytes) : List Bytes :=
  match runArtifact g label with
  | some artifact => [artifact]
  | none => runGenerated g label

/-- `push_run_declared_input` -/
def pushRunDeclaredInput (g : Graph) (inputs : List Bytes) (item : Bytes) :
    Except LoweringError (List Bytes) :=
  match stageDirToken item with
  | .malformed => .error .malformedStageDir
  | .payload label => .ok (pushUnique inputs (stageManifestPath g label))
  | .plain => pushActionInput g inputs item

/-- The stamp of a run target. -/
def runStamp (g : Graph) (t : Target) : Bytes := outPath g t (ascii "run.stamp")

/-- `prepare_run_action` -/
def lowerRunAction (g : Graph) (t : Target) : Except LoweringError LoweredAction := do
  if t.runCommand = [] then throw (.runCommandMissing t.label)
  let argv ← t.runCommand.mapM (resolveCommandToken g)
  let deps := t.deps.filterMap (runArtifact g) ++ t.privateDeps.flatMap (runPrivateDep g) ++
    t.deps.flatMap (runGenerated g)
  let named ← commandInputs g t.runCommand
  let inputs ← t.runInputs.foldlM (pushRunDeclaredInput g) (deps ++ named)
  return {
    id := singleActionId t.label (ascii "run")
    kind := ascii "run"
    owner := t.label
    toolchain := none
    sourcePath := []
    argv := argv
    env := []
    inputs := inputs
    outputs := [runStamp g t]
    depfile := []
    wantsDepfile := false
    keyOutput := runStamp g t
    unitySource := none
    outputs_ne := by simp }

end QStar.Lowering
