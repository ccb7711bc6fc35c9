import QStar.Ninja.Edges

/-!
# Edges of finals, aliases, stages and runs

The build statements for archives, links and provider finals, for the collections
that run no process, for stages and for run targets, each with the alias other
statements depend on it by.
-/
namespace QStar.Ninja

open QStar.Lib.CStrings
open QStar.Base
open QStar.BuildGraph
open QStar.Lowering

/-! ## Dependencies -/

/-- What `write_dep_aliases` prints for one label. -/
def depAlias (g : Graph) (label : Bytes) : List Input :=
  match findTarget g label with
  | some _ => [⟨ninjaAliasPath g label, none⟩]
  | none =>
    match findGenrule g label with
    | some r => r.outputs.map Input.file
    | none => []

/-- `write_dep_aliases` for the dependencies of a target -/
def writeDepAliases (g : Graph) (t : Target) : List Input :=
  (t.deps ++ t.privateDeps).flatMap (depAlias g)

/-- The order-only section of a target with dependencies. -/
def orderOnlyDeps (g : Graph) (t : Target) : List (List Input) :=
  if t.deps ++ t.privateDeps = [] then [] else [writeDepAliases g t]

/-- A phony statement that stands for other paths. -/
def aliasStatement (label path : Bytes) (inputs : List Input) : Statement where
  id := label ++ ascii ":alias"
  rule := ascii "phony"
  outputs := [path]
  explicit := inputs
  implicit := []
  orderOnly := []
  command := .phony

/-- The alias of a target or a generated action for its outputs. -/
def outputsAlias (g : Graph) (label : Bytes) (outputs : List Bytes) : Statement :=
  aliasStatement label (ninjaAliasPath g label) (outputs.map Input.file)

/-! ## Finals -/

/-- The object a source puts into the final of its target, if it puts one there. -/
def edgeObject (g : Graph) (t : Target) (index : Nat) : Except LoweringError (List Bytes) :=
  match sourceClassify t index with
  | none => .error (.unsupportedSource (t.sources.getD index []))
  | some source =>
    if (requiresCompile source || isLinkObject source) && emitsObject t index then do
      let object ← sourceObjectInput g t index
      return [object]
    else .ok []

/-- The objects of the sources of a target. -/
def edgeObjects (g : Graph) (t : Target) : Except LoweringError (List Bytes) := do
  let objects ← (List.range t.sources.length).mapM (edgeObject g t)
  return objects.flatten

/-- The items printed for link inputs. -/
def writeLinkInputs (g : Graph) (t : Target) : Except LoweringError (List Input) := do
  let items ← t.linkInputs.mapM (writeGenruleDepItem g)
  return items.flatten

/-- `emit_staticlib_edge` -/
def emitStaticlibEdge (g : Graph) (tc : Toolchain) (t : Target) : Except LoweringError Statement := do
  let artifact ← artifactOutputPath g t
  let lowered ← lowerFinalAction g tc t
  let own ← edgeObjects g t
  let library ← allObjectlibObjects g t
  let linkInputs ← writeLinkInputs g t
  return {
    id := lowered.id
    rule := ascii "qstar_archive"
    outputs := [artifact]
    explicit := (own ++ library).map Input.file
    implicit := if t.linkInputs = [] then [] else [linkInputs]
    orderOnly := orderOnlyDeps g t
    command := .process {
      kind := ascii "archive"
      argv := lowered.argv
      env := []
      outputs := []
      inputs := []
      depfile := []
      cacheable := false }
    outDir := some (dirname artifact) }

/-- `emit_link_edge` -/
def emitLinkEdge (g : Graph) (tc : Toolchain) (t : Target) : Except LoweringError Statement := do
  let artifact ← artifactOutputPath g t
  let lowered ← lowerFinalAction g tc t
  let artifacts ← depArtifacts g t
  let own ← edgeObjects g t
  let library ← allObjectlibObjects g t
  let linkInputs ← writeLinkInputs g t
  let usageInputs ← dependencyUsageInputs g .link t
  return {
    id := lowered.id
    rule := ascii "qstar_link"
    outputs := lowered.outputs
    explicit := (own ++ library ++ artifacts).map Input.file
    implicit := if t.linkInputs = [] ∧ usageInputs = [] then []
      else [linkInputs ++ usageInputs.map Input.file]
    orderOnly := orderOnlyDeps g t
    command := .process {
      kind := ascii "link"
      argv := lowered.argv
      env := lowered.env
      outputs := lowered.outputs
      inputs := lowered.inputs
      depfile := if lowered.wantsDepfile then lowered.depfile else []
      cacheable := false }
    outDir := some (dirname artifact) }

/-- The rule of a provider final. -/
def providerFinalRule (lowered : LoweredAction) : Bytes :=
  if lowered.wantsDepfile then ascii "qstar_compile"
  else if lowered.kind = ascii "archive" then ascii "qstar_archive"
  else ascii "qstar_link"

/-- The usage inputs `emit_provider_final_edge` prints. -/
def providerUsageInputs (g : Graph) (t : Target) (final : ProviderFinal) :
    Except LoweringError (List Bytes) :=
  if finalTakesUsage t final then dependencyUsageInputs g .link t else .ok []

/-- The link inputs `emit_provider_final_edge` prints. -/
def providerLinkInputs (g : Graph) (t : Target) (final : ProviderFinal) :
    Except LoweringError (List Input) :=
  if final.api ≠ ascii "qstar.lang/2" then writeLinkInputs g t else .ok []

/-- `emit_provider_final_edge` -/
def emitProviderFinalEdge (g : Graph) (tc : Toolchain) (t : Target) (final : ProviderFinal) :
    Except LoweringError Statement := do
  let lowered ← lowerFinalAction g tc t
  let usageInputs ← providerUsageInputs g t final
  let linkInputs ← providerLinkInputs g t final
  let opened := usageInputs ≠ [] ∨ (final.api ≠ ascii "qstar.lang/2" ∧ t.linkInputs ≠ [])
  return {
    id := lowered.id
    rule := providerFinalRule lowered
    outputs := lowered.outputs
    explicit := final.action.inputs.map Input.file
    implicit := if opened then [usageInputs.map Input.file ++ linkInputs] else []
    orderOnly := []
    command := .process {
      kind := lowered.kind
      argv := lowered.argv
      env := lowered.env
      outputs := lowered.outputs
      inputs := lowered.inputs
      depfile := if lowered.wantsDepfile then lowered.depfile else []
      cacheable := false }
    depfile := if lowered.wantsDepfile then some lowered.depfile else none
    outDir := some (dirname (lowered.outputs.head lowered.outputs_ne)) }

/-! ## Collections -/

/-- The objects of an object library that is compiled in its own context. -/
def libraryObjects (g : Graph) (t : Target) : Except LoweringError (List Bytes) :=
  if usesConsumerContext t then .ok [] else edgeObjects g t

/-- `emit_objectlib_edge` -/
def emitObjectlibEdge (g : Graph) (t : Target) : Except LoweringError Statement := do
  let objects ← libraryObjects g t
  return {
    id := singleActionId t.label (ascii "compile-objects")
    rule := ascii "phony"
    outputs := [ninjaAliasPath g t.label]
    explicit := objects.map Input.file
    implicit := []
    orderOnly := orderOnlyDeps g t
    command := .phony }

/-- `emit_group_edge` -/
def emitGroupEdge (g : Graph) (t : Target) : Statement where
  id := singleActionId t.label (ascii "group")
  rule := ascii "phony"
  outputs := [ninjaAliasPath g t.label]
  explicit := writeDepAliases g t
  implicit := []
  orderOnly := []
  command := .phony

/-- `emit_typed_dependency_edge` -/
def emitTypedDependencyEdge (g : Graph) (t : Target) : Except LoweringError Statement := do
  let artifacts ← targetArtifactMap g t
  return {
    id := singleActionId t.label (finalAction t)
    rule := ascii "phony"
    outputs := [ninjaAliasPath g t.label]
    explicit := artifacts.map (fun a => Input.file a.path) ++ writeDepAliases g t
    implicit := []
    orderOnly := []
    command := .phony }

/-! ## Stages -/

/-- `stage_alias_path` -/
def stageAliasPath (g : Graph) (label : Bytes) : Bytes :=
  buildPath g.buildDir (ascii "ninja/stages/" ++ mangleLabel label)

/-- The manifest of a stage and the files it places. -/
def stagedOutputs (g : Graph) (stage : Stage) : List Bytes :=
  stageManifestPath g stage.label ::
    stage.dsts.map (pathJoin (if stage.root = [] then ascii "." else stage.root))

/-- `emit_stage_edge`; the script names each source by its path. -/
def emitStageEdge (g : Graph) (stage : Stage) : Except LoweringError Statement := do
  let id := singleActionId stage.label (ascii "stage")
  let _ ← stage.srcs.mapM (resolveTargetFileToken g)
  let srcs ← stage.srcs.mapM (writeGenruleDepItem g)
  return {
    id := id
    rule := ascii "qstar_stage"
    outputs := stagedOutputs g stage
    explicit := [Input.file (scriptPath g id)]
    implicit := if stage.srcs = [] then [] else [srcs.flatten]
    orderOnly := []
    command := .script (scriptPath g id) [] }

/-- The alias of a stage. -/
def stageAlias (g : Graph) (stage : Stage) : Statement :=
  aliasStatement stage.label (stageAliasPath g stage.label)
    ((stagedOutputs g stage).map Input.file)

/-! ## Run targets -/

/-- `write_run_item_dep` for a word that is a token -/
def writeRunItemDep (g : Graph) (item : Bytes) : Except LoweringError (List Input) :=
  match targetFileToken item with
  | .plain => .ok []
  | .malformed => .error .malformedTargetFile
  | .targetFile label _ =>
    if (findTarget g label).isNone ∧ (findGenrule g label).isNone then
      .error (.unknownTargetFile label)
    else writeGenruleDepItem g item

/-- `write_run_input_dep` -/
def writeRunInputDep (g : Graph) (item : Bytes) : Except LoweringError (List Input) :=
  match stageDirToken item with
  | .malformed => .error .malformedStageDir
  | .payload label => .ok [⟨stageAliasPath g label, none⟩]
  | .plain =>
    match targetFileToken item with
    | .plain => .ok [Input.file item]
    | _ => writeRunItemDep g item

/-- `write_run_command_deps` -/
def writeRunCommandDeps (g : Graph) (t : Target) : Except LoweringError (List (List Input)) := do
  let command ← t.runCommand.mapM (writeRunItemDep g)
  let inputs ← t.runInputs.mapM (writeRunInputDep g)
  if t.runInputs = [] ∧ t.runCommand.all (targetFileToken · = .plain) = true then
    return []
  return [command.flatten ++ inputs.flatten]

/-- `emit_run_edge` -/
def emitRunEdge (g : Graph) (t : Target) : Except LoweringError Statement := do
  if t.runCommand = [] then throw (.runCommandMissing t.label)
  let id := singleActionId t.label (ascii "run")
  let argv ← t.runCommand.mapM (resolveCommandToken g)
  let deps ← writeRunCommandDeps g t
  return {
    id := id
    rule := ascii "qstar_run"
    outputs := [runStamp g t]
    explicit := [Input.file (scriptPath g id)]
    implicit := deps
    orderOnly := orderOnlyDeps g t
    command := .script (scriptPath g id) argv }

end QStar.Ninja
