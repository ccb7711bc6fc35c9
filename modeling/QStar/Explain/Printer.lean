import QStar.Lowering.Materialize
import QStar.Scheduler.Discovery

/-!
# Printed commands

The commands that `explain` and `dry-run` print for a label. The printer does not use
the lowered actions but for the final ones: it counts and writes the words of compiles,
generated actions and run targets itself.
-/
namespace QStar.Explain

open QStar.Lib.CStrings
open QStar.Base
open QStar.BuildGraph
open QStar.Stella
open QStar.Lowering
open QStar.Scheduler.Discovery

/-- `qstar_graph_explain_plan` and `qstar_graph_dry_run` -/
inductive PlanMode where
  | explain
  | dryRun
  deriving DecidableEq

/-- A `command_argv` line; an invalid command has no response decision. -/
structure CommandArgv where
  id : Bytes
  argc : Nat
  argv : List Bytes
  digest : Bytes
  response : Option (Option ResponseFile)

/-- `begin_argv`, `argv_item` for every word, `end_argv` -/
def commandArgv (g : Graph) (tc : Option Toolchain) (id : Bytes) (argc : Nat) (argv : List Bytes) :
    CommandArgv where
  id := id
  argc := argc
  argv := argv
  digest := argvKey argv
  response := (actionMaterialize g tc id argv).toOption

/-! ## Compiles -/

/-- `plan_tool_role_argc` -/
def planToolRoleArgc (g : Graph) (t : Target) (tc : Toolchain) (role : Bytes) : Nat :=
  match resolvedToolRoleArgv g t tc role with
  | some argv => argv.length
  | none => 1

/-- The words `plan_argv_provider_template` writes for an item. -/
def planTemplateWords (g : Graph) (t : Target) (tc : Toolchain) (item : Bytes) : List Bytes :=
  match providerToolToken item with
  | .payload role =>
    (resolvedToolRoleArgv g t tc role).getD [ascii "<missing-tool:" ++ role ++ ascii ">"]
  | _ => [item]

/-- What `plan_provider_template_argc` counts for an item. -/
def planTemplateArgc (g : Graph) (t : Target) (tc : Toolchain) (item : Bytes) : Nat :=
  match providerToolToken item with
  | .payload role => planToolRoleArgc g t tc role
  | _ => 1

/-- The arguments of `dump_compile_argv`. -/
structure PlannedSource where
  target : Target
  owner : Target
  input : Bytes
  output : Bytes
  index : Nat
  actionIndex : Nat
  depfileOverride : Option Bytes

/-- The id in `dump_compile_argv` -/
def PlannedSource.id (s : PlannedSource) : Bytes :=
  match leadsBatch s.target s.owner s.index with
  | some batch => numberedActionId s.target.label (ascii "compile-unity-") batch
  | none =>
    if isModuleInterface s.owner s.index then
      numberedActionId s.target.label (ascii "compile-module-interface-") s.actionIndex
    else if (sourceInfo s.owner s.index).provider = ascii "cxx" ∧ s.target.cxxModulesEnabled then
      numberedActionId s.target.label (ascii "compile-module-implementation-") s.actionIndex
    else compileActionId s.target.label s.actionIndex

/-- The depfile in `dump_compile_argv` -/
def PlannedSource.depfile (g : Graph) (s : PlannedSource) : Bytes :=
  match leadsBatch s.target s.owner s.index with
  | some batch => unityDepfilePath g s.target batch
  | none => s.depfileOverride.getD (depfileOutputPath g s.target s.index)

/-- The options `qstar_graph_collect_compile_usage` leaves behind. -/
def planUsageOptions (g : Graph) (t : Target) : List Bytes :=
  match collectUsage g .compile t with
  | .ok usage => usage.options
  | .error _ => []

/-- The flags `qstar_cxx_collect_module_flags` leaves behind. -/
def planModuleFlags (g : Graph) (s : PlannedSource) (cxx : Bool) : List Bytes :=
  if cxx && s.target.cxxModulesEnabled then (moduleFlags g s.target s.index).getD [] else []

/-- The words of the C++ module strategy. -/
def planModuleWords (g : Graph) (s : PlannedSource) (cxx : Bool) : List Bytes :=
  if cxx && s.target.cxxModulesEnabled then
    [ascii "-fprebuilt-module-path=" ++ moduleDirPath g s.target] ++
      (if isModuleInterface s.owner s.index then
        (moduleOutputPath g s.target s.index).toList.map (ascii "-fmodule-output=" ++ ·)
      else []) ++ planModuleFlags g s cxx
  else []

/-- `wants_depfile` in `dump_compile_argv` for a source of a built-in language -/
def planWantsDepfile (t : Target) (source : SourceInfo) : Bool :=
  source.provider = ascii "c" || source.provider = ascii "cxx" || usesAsmPreprocessor t source

/-- The options of a target for the language of a source. -/
def planOptions (t : Target) (asm cxx : Bool) : List Bytes :=
  if asm then t.asmCompileOptions else if cxx then t.cxxflags else t.cflags

/-- The words of `dump_compile_argv` for a source of a built-in language -/
def planCompileWords (g : Graph) (tc : Toolchain) (s : PlannedSource) : List Bytes :=
  let t := s.target
  let source := sourceInfo s.owner s.index
  let asm := isAsm source
  let cxx := decide (source.provider = ascii "cxx")
  let interface := isModuleInterface s.owner s.index
  rawToolRole g t tc source.toolsetRole
      ((providerTool tc source.provider source.providerRole).getD tc.cc) ++
    (if compileNeedsPic g t asm then [ascii "-fPIC"] else []) ++
    (if asm then
      [ascii "-x", if usesAsmPreprocessor t source then ascii "assembler-with-cpp"
        else ascii "assembler"]
    else []) ++
    (if interface then [ascii "-x", ascii "c++-module"] else []) ++
    [ascii "-c", s.input, ascii "-o", s.output] ++
    (if planWantsDepfile t source then [ascii "-MMD", ascii "-MF", s.depfile g] else []) ++
    (if cxx then standardWord t else []) ++
    (if cxx && !interface then pchWords g t tc else []) ++
    planModuleWords g s cxx ++
    (if cxx && (leadsBatch t s.owner s.index).isSome then [ascii "-iquote", ascii "."] else []) ++
    planUsageOptions g t ++
    planOptions t asm cxx ++
    (if asm then flagged "-I" t.asmIncludeDirs else includeWords g t)

/-- The count `dump_compile_argv` announces for a source of a built-in language. -/
def planCompileArgc (g : Graph) (tc : Toolchain) (s : PlannedSource) : Nat :=
  let t := s.target
  let source := sourceInfo s.owner s.index
  let asm := isAsm source
  let cxx := decide (source.provider = ascii "cxx")
  let interface := isModuleInterface s.owner s.index
  5 + planToolRoleArgc g t tc source.toolsetRole - 1 +
    (if asm then t.asmIncludeDirs.length * 2 else (compileIncludeDirs g t).length * 2) +
    (if asm then 0 else t.systemIncludeDirs.length * 2) +
    (if planWantsDepfile t source then 3 else 0) +
    (if asm then 2 else 0) +
    (if interface then 2 else 0) +
    (if compileNeedsPic g t asm then 1 else 0) +
    (if cxx && t.cxxStandard ≠ [] then 1 else 0) +
    (if cxx && !interface && t.cxxPrecompiledHeader ≠ [] then 2 else 0) +
    (if cxx && t.cxxModulesEnabled then if interface then 2 else 1 else 0) +
    (planModuleFlags g s cxx).length +
    (if cxx && (leadsBatch t s.owner s.index).isSome then 2 else 0) +
    (planUsageOptions g t).length +
    (planOptions t asm cxx).length

/-- `dump_compile_argv` -/
def dumpCompileArgv (g : Graph) (tc : Toolchain) (s : PlannedSource) : CommandArgv :=
  match providerSourceUnit s.owner s.index with
  | some unit =>
    commandArgv g (some tc) s.id
      ((unit.action.argv.map (planTemplateArgc g s.target tc)).sum +
        (planUsageOptions g s.target).length)
      ((unit.action.argv.map (planTemplateWords g s.target tc)).flatten ++
        planUsageOptions g s.target)
  | none => commandArgv g (some tc) s.id (planCompileArgc g tc s) (planCompileWords g tc s)

/-- The sources of a target that are printed with a command: `dump_dry_run_compiles` skips
those that a unity batch covers. -/
def plannedSources (mode : PlanMode) (t : Target) : List Nat :=
  if usesConsumerContext t then []
  else
    (List.range t.sources.length).filter fun index =>
      !providerFinalOwnsSource t index && (mode = .explain || emitsObject t index) &&
        requiresCompile (sourceInfo t index)

/-- The batch a source is printed for; `dump_target_plan` knows of none. -/
def plannedBatch (mode : PlanMode) (t : Target) (index : Nat) : Option Nat :=
  match mode with
  | .explain => none
  | .dryRun => leadsBatch t t index

/-- What `dump_target_plan` and `dump_dry_run_compiles` print a source as. -/
def plannedSource (mode : PlanMode) (g : Graph) (t : Target) (index : Nat) : PlannedSource where
  target := t
  owner := t
  input :=
    match plannedBatch mode t index with
    | some batch => unitySourcePath g t batch
    | none => t.sources.getD index []
  output :=
    match plannedBatch mode t index with
    | some batch => unityObjectPath g t batch
    | none => objectOutputPath g t index
  index := index
  actionIndex := index
  depfileOverride := none

/-- `objectlib_source_object_input` of the printer -/
def planObjectlibObject (g : Graph) (consumer objectlib : Target) (index : Nat) :
    Except LoweringError Bytes :=
  match sourceClassify objectlib index with
  | none => .error (.unsupportedSource (objectlib.sources.getD index []))
  | some source =>
    if isLinkObject source then .ok (objectlib.sources.getD index [])
    else if usesConsumerContext objectlib then
      .ok (consumerObjectOutputPath g consumer objectlib index)
    else .ok (objectOutputPath g objectlib index)

/-- What a source of an object library is printed as. -/
def plannedConsumerSource (g : Graph) (t objectlib : Target) (index actionIndex : Nat)
    (output : Bytes) : PlannedSource where
  target := t
  owner := objectlib
  input := objectlib.sources.getD index []
  output := output
  index := index
  actionIndex := actionIndex
  depfileOverride := some (objectlibDepfileOutput g t objectlib index)

/-- One source in `dump_consumer_objectlib_compile_plan` -/
def dumpConsumerCompile (g : Graph) (t objectlib : Target) (index actionIndex : Nat) :
    Except LoweringError CommandArgv :=
  if (providerSourceUnit objectlib index).isSome then
    .error (.providerInConsumerContext (objectlib.sources.getD index []))
  else do
    let output ← planObjectlibObject g t objectlib index
    return dumpCompileArgv g (resolveToolchain g t)
      (plannedConsumerSource g t objectlib index actionIndex output)

/-- One object library in `dump_consumer_objectlib_compile_plan` -/
def dumpObjectlib (g : Graph) (t : Target) (listIndex : Nat) (label : Bytes) :
    Except LoweringError (List CommandArgv) :=
  match findTarget g label with
  | none => .ok []
  | some objectlib =>
    if usesConsumerContext objectlib then
      ((List.range objectlib.sources.length).filter fun j =>
        requiresCompile (sourceInfo objectlib j)).mapM fun j =>
          dumpConsumerCompile g t objectlib j (consumerCompileIndex g t listIndex j)
    else .ok []

/-- `dump_consumer_objectlib_compile_plan` -/
def dumpConsumerObjectlibs (g : Graph) (t : Target) : Except LoweringError (List CommandArgv) := do
  let commands ← t.objects.zipIdx.mapM fun (label, listIndex) => dumpObjectlib g t listIndex label
  return commands.flatten

/-! ## Declared commands and final actions -/

/-- The output of a generated action that a token without a selector stands for. -/
def planGenerated (g : Graph) (label artifact arg : Bytes) : Bytes :=
  match findGenrule g label with
  | some r => if artifact = [] then r.outputs.head r.outputs_ne else arg
  | none => arg

/-- The artifact of a target that a token stands for, where one is found. -/
def planArtifact (g : Graph) (t : Target) (artifact : Bytes) : Option Bytes :=
  let tool := if artifact = ascii "@tool" then (targetToolPath g t).toOption else none
  tool.or (targetArtifactPath g t artifact).toOption

/-- `plan_resolve_target_file_arg`; what does not resolve is printed as it is. -/
def planResolveTargetFileArg (g : Graph) (arg : Bytes) : Bytes :=
  match targetFileToken arg with
  | .targetFile label artifact =>
    match findTarget g label with
    | none => planGenerated g label artifact arg
    | some t =>
      if t.kind = .group then ascii "<group-has-no-artifact>"
      else (planArtifact g t artifact).getD (planGenerated g label artifact arg)
  | _ => arg

/-- `plan_resolve_run_arg` -/
def planResolveRunArg (g : Graph) (arg : Bytes) : Bytes :=
  match stageDirToken arg with
  | .payload label =>
    match findStage g label with
    | some s => if s.root = [] then ascii "." else s.root
    | none => ascii "."
  | .malformed => ascii "<malformed-stage-dir>"
  | .plain => planResolveTargetFileArg g arg

/-- The first word `dump_genrule_argv` writes. -/
def planGenruleTool (g : Graph) (target : Option Target) (r : Genrule) : Bytes :=
  if r.configHeader then r.tool
  else
    match resolveCommandTool g target r.toolset r.tool with
    | .ok (tool, _) => tool
    | .error _ => r.tool

/-- `dump_genrule_argv` -/
def dumpGenruleArgv (g : Graph) (target : Option Target) (r : Genrule) : CommandArgv :=
  commandArgv g (commandToolchain g r.toolset (some r.tool))
    (singleActionId r.label (ascii "generate")) (1 + r.args.length)
    (planGenruleTool g target r :: r.args.map (planResolveTargetFileArg g))

/-- `dump_run_argv` -/
def dumpRunArgv (g : Graph) (t : Target) : CommandArgv :=
  commandArgv g (commandToolchain g t.toolset t.runCommand.head?)
    (singleActionId t.label (ascii "run")) t.runCommand.length
    (t.runCommand.map (planResolveRunArg g))

/-- `dump_lowered_final_argv` -/
def dumpLoweredFinalArgv (g : Graph) (tc : Toolchain) (t : Target) :
    Except LoweringError CommandArgv := do
  let a ← lowerFinalAction g tc t
  let response ← actionMaterialize g (some tc) a.id a.argv
  return ⟨a.id, a.argv.length, a.argv, argvKey a.argv, some response⟩

/-! ## Targets -/

/-- `genrule_referenced_in_list` -/
def genruleReferencedInList (r : Genrule) (items : List Bytes) : Bool :=
  items.any fun item => item = r.label ||
    match targetFileToken item with
    | .targetFile label _ => label = r.label
    | _ => false

/-- `genrule_consumed_by_target` -/
def genruleConsumedByTarget (r : Genrule) (t : Target) : Bool :=
  outputInList r t.sources || outputInList r t.publicHeaders || outputInList r t.privateHeaders

/-- `genrule_referenced_by_target` -/
def genruleReferencedByTarget (r : Genrule) (t : Target) : Bool :=
  genruleConsumedByTarget r t || outputInList r t.linkInputs ||
    genruleReferencedInList r t.linkInputs || genruleReferencedInList r t.compileUsageInputs ||
    genruleReferencedInList r t.linkUsageInputs || genruleReferencedInList r t.runInputs ||
    genruleReferencedInList r t.runCommand || genruleReferencedInList r t.deps ||
    genruleReferencedInList r t.privateDeps

/-- `dump_consumed_genrules`, `dump_dry_run_genrules` -/
def dumpConsumedGenrules (g : Graph) (t : Target) : List CommandArgv :=
  (g.genrules.filter fun r => genruleReferencedByTarget r t).map (dumpGenruleArgv g (some t))

/-- The end of `dump_target_plan`, `dump_dry_run_final` -/
def dumpFinal (g : Graph) (tc : Toolchain) (t : Target) :
    Except LoweringError (List CommandArgv) :=
  if t.kind = .objectlib then .ok []
  else do
    let _ ← artifactOutputPath g t
    let command ← dumpLoweredFinalArgv g tc t
    return [command]

/-- Only a dry run checks the C++ strategies of a target. -/
def dumpStrategies (mode : PlanMode) (g : Graph) (tc : Toolchain) (t : Target) :
    Except LoweringError Unit :=
  match mode with
  | .explain => .ok ()
  | .dryRun => validateStrategies g t tc

/-- The commands that `dump_target_plan` or an iteration of `qstar_graph_dry_run` print. -/
def dumpTarget (mode : PlanMode) (g : Graph) (t : Target) :
    Except LoweringError (List CommandArgv) :=
  if t.kind = .runTarget then
    match mode with
    | .explain => .ok (dumpConsumedGenrules g t ++ [dumpRunArgv g t])
    | .dryRun => .ok (dumpRunArgv g t :: dumpConsumedGenrules g t)
  else if hasNoToolchain t then .ok (dumpConsumedGenrules g t)
  else do
    let tc := resolveToolchain g t
    dumpStrategies mode g tc t
    let own := (plannedSources mode t).map fun index =>
      dumpCompileArgv g tc (plannedSource mode g t index)
    let consumer ← dumpConsumerObjectlibs g t
    let final ← dumpFinal g tc t
    return dumpConsumedGenrules g t ++ own ++ consumer ++ final

/-- The commands that `explain` or `dry-run` print for a label. -/
def dumpPlan (mode : PlanMode) (g : Graph) (label : Option Bytes) :
    Except LoweringError (List CommandArgv) :=
  match rootGenrule g label with
  | some r => .ok [dumpGenruleArgv g none r]
  | none => do
    let closure ← buildClosure g label
    let commands ← closure.mapM (dumpTarget mode g)
    return commands.flatten

end QStar.Explain
