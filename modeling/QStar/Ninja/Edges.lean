import QStar.Lowering.Nodes

/-!
# Edges of the emitted build file

The build statements the Ninja backend writes for compile actions, precompiled
headers and generated actions. A statement keeps apart the sections its helpers
open, and for each input the path it prints and the file whose content stands
behind it. Its command is what the action log and the action cache are told.
-/
namespace QStar.Ninja

open QStar.Lib.CStrings
open QStar.Lib.Results
open QStar.Base
open QStar.BuildGraph
open QStar.Lowering

/-- An input as it is printed, and the file it stands for; an alias that stands for no
single file has none. -/
structure Input where
  named : Bytes
  read : Option Bytes
  deriving DecidableEq

/-- An input printed as the file it is. -/
def Input.file (path : Bytes) : Input := ⟨path, some path⟩

/-- What `write_edge_command` is given. -/
structure EdgeCommand where
  /-- The kind the action cache is told. -/
  kind : Bytes
  argv : List Bytes
  env : List Bytes
  outputs : List Bytes
  inputs : List Bytes
  depfile : Bytes
  cacheable : Bool

/-- How a statement is run. -/
inductive Command where
  | phony
  | process (command : EdgeCommand)
  /-- A script the emitter has written; run targets log their command. -/
  | script (path : Bytes) (argv : List Bytes)

/-- One build statement with the variables below it. -/
structure Statement where
  id : Bytes
  rule : Bytes
  outputs : List Bytes
  explicit : List Input
  /-- The sections opened with `|`, in the order they are printed. -/
  implicit : List (List Input)
  /-- The sections opened with `||`. -/
  orderOnly : List (List Input)
  command : Command
  depfile : Option Bytes := none
  outDir : Option Bytes := none
  /-- The directories a generate command makes. -/
  directories : List Bytes := []

/-- All explicit and implicit inputs. -/
def Statement.inputs (s : Statement) : List Input := s.explicit ++ s.implicit.flatten

/-- The section a helper opens for its items, if it has any. -/
def openSection (items : List Input) : List (List Input) := if items = [] then [] else [items]

/-! ## Paths -/

/-- `ninja_alias_path` -/
def ninjaAliasPath (g : Graph) (label : Bytes) : Bytes :=
  buildPath g.buildDir (ascii "ninja/targets/" ++ mangleLabel label)

/-- The script of an action; `name` is mangled. -/
def scriptPath (g : Graph) (name : Bytes) : Bytes :=
  buildPath g.buildDir (ascii "ninja/scripts/" ++ mangleLabel name ++ ascii ".sh")

/-! ## Inputs -/

/-- `write_header_inputs` -/
def writeHeaderInputs (t : Target) : List (List Input) :=
  openSection ((headerInputs t).map Input.file)

/-- The items `write_dependency_usage_inputs` prints. -/
def dependencyUsageInputs (g : Graph) (phase : UsagePhase) (t : Target) :
    Except LoweringError (List Bytes) := do
  let usage ← collectUsage g phase t
  usage.inputs.mapM (resolveTargetFileToken g)

/-- `write_dependency_usage_inputs` for compiling, which always opens a section. -/
def writeCompileUsageInputs (g : Graph) (t : Target) : Except LoweringError (List (List Input)) := do
  let inputs ← dependencyUsageInputs g .compile t
  return openSection (inputs.map Input.file)

/-- `collect_compile_include_dirs` -/
def collectCompileIncludeDirs (g : Graph) (t : Target) : List Bytes :=
  collectPublicIncludes g (g.targets.length + 1) false t
    (appendUnique (appendUnique (appendUnique [] t.includeDirs) t.privateIncludeDirs)
      t.publicIncludeDirs)

/-- The words for the include directories of a target. -/
def includeDirWords (g : Graph) (t : Target) : List Bytes :=
  flagged "-I" (collectCompileIncludeDirs g t) ++ flagged "-isystem" t.systemIncludeDirs

/-! ## Compile edges -/

/-- `validate_ninja_compile_source` -/
def validateNinjaCompileSource (g : Graph) (owner : Target) (source : SourceInfo) (index : Nat) :
    Except LoweringError Unit :=
  let path := owner.sources.getD index []
  if source.headerInput then .error (.headerSource path)
  else if isCxxModule source && !owner.cxxModulesEnabled then .error (.modulesDisabled path)
  else if languageAvailable g source.provider = false ∨ source.toolsetRole = [] then
    .error (.unsupportedSource path)
  else .ok ()

/-- The id of a compile edge. -/
def compileEdgeId (s : CompileSource) (source : SourceInfo) : Bytes :=
  match leadsBatch s.target s.owner s.index with
  | some batch => numberedActionId s.target.label (ascii "compile-unity-") batch
  | none =>
    if isModuleInterface s.owner s.index then
      numberedActionId s.target.label (ascii "compile-module-interface-") s.actionIndex
    else if source.provider = ascii "cxx" ∧ s.target.cxxModulesEnabled = true then
      numberedActionId s.target.label (ascii "compile-module-implementation-") s.actionIndex
    else compileActionId s.target.label s.actionIndex

/-- The rule of a compile edge. -/
def compileRule (wantsDepfile : Bool) : Bytes :=
  if wantsDepfile then ascii "qstar_compile" else ascii "qstar_compile_nodep"

/-- The branch of a source with a provider unit. -/
def emitProviderEdge (g : Graph) (tc : Toolchain) (s : CompileSource) (source : SourceInfo)
    (unit : ProviderSourceUnit) : Except LoweringError Statement := do
  let t := s.target
  let depfile := if unit.action.depfile = [] then s.depfile g else unit.action.depfile
  let argv ← templateArgv g t tc unit.action.argv
  let usage ← dependencyUsage g .compile t
  let usageInputs ← writeCompileUsageInputs g t
  return {
    id := compileEdgeId s source
    rule := compileRule unit.action.wantsDepfile
    outputs := unit.action.outputs
    explicit := unit.action.inputs.map Input.file
    implicit := usageInputs
    orderOnly := []
    command := .process {
      kind := ascii "compile"
      argv := argv ++ usage
      env := unit.action.env
      outputs := unit.action.outputs
      inputs := unit.action.inputs
      depfile := if unit.action.wantsDepfile then depfile else []
      cacheable := t.cacheable }
    depfile := if unit.action.wantsDepfile then some depfile else none
    outDir := some (dirname (s.object g)) }

/-- The module file of an interface. The emitter prints a buffer it never wrote where the
target that compiles the interface has no modules, for which there is no value here. -/
def interfaceOutput (s : CompileSource) (bmi : List Bytes) : Except LoweringError Unit :=
  if isModuleInterface s.owner s.index = true ∧ bmi = [] then
    .error (.moduleInConsumerContext (s.owner.sources.getD s.index []))
  else .ok ()

/-- The inputs the command of a source of a built-in language names itself: the source or
its unity batch, the precompiled header and the module files. -/
def namedInputs (g : Graph) (tc : Toolchain) (s : CompileSource) (source : SourceInfo)
    (unitySources bmiInputs : List Bytes) : List Bytes :=
  let pch := source.provider = ascii "cxx" && !isModuleInterface s.owner s.index &&
    s.target.cxxPrecompiledHeader ≠ []
  s.input g :: unitySources ++ (if pch then [pchOutputPath g s.target tc] else []) ++ bmiInputs

/-- The headers of the object library that owns the source, printed for its consumer. -/
def writeOwnerHeaderInputs (s : CompileSource) : List (List Input) :=
  if s.owner.label = s.target.label then [] else writeHeaderInputs s.owner

/-- The branch of a source of a built-in language. -/
def emitBuiltinEdge (g : Graph) (tc : Toolchain) (s : CompileSource) (source : SourceInfo)
    (unitySources : List Bytes) : Except LoweringError Statement := do
  let t := s.target
  let asm := isAsm source
  let cxx := decide (source.provider = ascii "cxx")
  let interface := isModuleInterface s.owner s.index
  let preprocessed := usesAsmPreprocessor t source
  let wantsDepfile := source.provider = ascii "c" || cxx || preprocessed
  let tool ← toolRole g t tc source.toolsetRole
    (some ((providerTool tc source.provider source.providerRole).getD tc.cc))
  let (modules, bmi) ← moduleWords g s cxx
  interfaceOutput s bmi
  let usage ← dependencyUsage g .compile t
  let bmiInputs ← moduleFileInputs g s cxx
  let usageInputs ← writeCompileUsageInputs g t
  let named := namedInputs g tc s source unitySources bmiInputs
  return {
    id := compileEdgeId s source
    rule := compileRule wantsDepfile
    outputs := s.object g :: bmi
    explicit := named.map Input.file
    implicit := writeHeaderInputs t ++ writeOwnerHeaderInputs s ++ usageInputs
    orderOnly := []
    command := .process {
      kind := ascii "compile"
      argv := tool ++
        (if compileNeedsPic g t asm then [ascii "-fPIC"] else []) ++
        (if asm then
          [ascii "-x", if preprocessed then ascii "assembler-with-cpp" else ascii "assembler"]
        else []) ++
        (if interface then [ascii "-x", ascii "c++-module"] else []) ++
        [ascii "-c", s.input g, ascii "-o", s.object g] ++
        (if wantsDepfile then [ascii "-MMD", ascii "-MF", s.depfile g] else []) ++
        (if cxx then standardWord t else []) ++
        (if cxx && !interface then pchWords g t tc else []) ++
        modules ++
        (if (leadsBatch t s.owner s.index).isSome then [ascii "-iquote", ascii "."] else []) ++
        usage ++
        (if asm then t.asmCompileOptions else if cxx then t.cxxflags else t.cflags) ++
        (if asm then flagged "-I" t.asmIncludeDirs else includeDirWords g t)
      env := []
      outputs := s.object g :: bmi
      inputs := named ++ headerInputs t
      depfile := if wantsDepfile then s.depfile g else []
      cacheable := t.cacheable }
    depfile := if wantsDepfile then some (s.depfile g) else none
    outDir := some (dirname (s.object g)) }

/-- `emit_compile_edge_from_source` for a source that is compiled -/
def emitCompileEdgeFromSource (g : Graph) (tc : Toolchain) (s : CompileSource) :
    Except LoweringError Statement := do
  let source := sourceInfo s.owner s.index
  validateNinjaCompileSource g s.owner source s.index
  if s.owner.label = s.target.label ∧ (unitySourceInfo s.target s.index).isSome ∧
      leadsBatch s.target s.owner s.index = none then
    throw .unityNonLeader
  let unitySources ← s.unitySources
  match providerSourceUnit s.owner s.index with
  | some unit =>
    if s.owner.label ≠ s.target.label then
      throw (.providerInConsumerContext (s.owner.sources.getD s.index []))
    emitProviderEdge g tc s source unit
  | none => emitBuiltinEdge g tc s source unitySources

/-- `emit_cxx_pch_edge` for a target that has a header to precompile -/
def emitCxxPchEdge (g : Graph) (tc : Toolchain) (t : Target) : Except LoweringError Statement := do
  let output := pchOutputPath g t tc
  let depfile := output ++ ascii ".d"
  let tool ← toolRole g t tc (ascii "cxx.compiler") (some tc.cxx)
  let usage ← dependencyUsage g .compile t
  let usageInputs ← writeCompileUsageInputs g t
  return {
    id := singleActionId t.label (ascii "cxx-pch")
    rule := compileRule true
    outputs := [output]
    explicit := [Input.file t.cxxPrecompiledHeader]
    implicit := writeHeaderInputs t ++ usageInputs
    orderOnly := []
    command := .process {
      kind := ascii "compile"
      argv := tool ++ [ascii "-x", ascii "c++-header", ascii "-c", t.cxxPrecompiledHeader,
        ascii "-o", output, ascii "-MMD", ascii "-MF", depfile] ++ standardWord t ++ usage ++
        t.cxxflags ++ includeDirWords g t
      env := []
      outputs := [output]
      inputs := [t.cxxPrecompiledHeader]
      depfile := depfile
      cacheable := t.cacheable }
    depfile := some depfile
    outDir := some (dirname output) }

/-! ## Generate edges -/

/-- `write_genrule_dep_item`; a token of an unknown label prints nothing. -/
def writeGenruleDepItem (g : Graph) (item : Bytes) : Except LoweringError (List Input) :=
  match targetFileToken item with
  | .malformed => .error .malformedTargetFile
  | .targetFile label _ =>
    match findTarget g label with
    | some _ => .ok [⟨ninjaAliasPath g label, (resolveTargetFileToken g item).toOption⟩]
    | none =>
      match findGenrule g label with
      | some r =>
        .ok [⟨r.outputs.head r.outputs_ne, (resolveTargetFileToken g item).toOption⟩]
      | none => .ok []
  | .plain => .ok [Input.file item]

/-- The tool and the words that are tokens, with all inputs between them. -/
def genruleDepItems (r : Genrule) : List Bytes :=
  (if targetFileToken r.tool = .plain then [] else [r.tool]) ++ r.inputs ++
    r.args.filter fun arg => targetFileToken arg ≠ .plain

/-- `write_genrule_deps` -/
def writeGenruleDeps (g : Graph) (r : Genrule) : Except LoweringError (List (List Input)) := do
  if r.inputs = [] ∧ r.args = [] ∧ targetFileToken r.tool = .plain then
    return []
  let items ← (genruleDepItems r).mapM (writeGenruleDepItem g)
  return [items.flatten]

/-- The command of a generated action: the script that writes a configured file, or the tool
and the words. -/
def genruleArgv (g : Graph) (target : Option Target) (r : Genrule) :
    Except LoweringError (List Bytes) := do
  if r.configHeader then
    if r.outputs.length ≠ 1 then
      throw (.configHeaderOutputs r.label)
    return [ascii "sh", scriptPath g r.label]
  let (tool, _) ← resolveCommandTool g target r.toolset r.tool
  validateArgs r
  let args ← r.args.mapM (resolveTargetFileToken g)
  return tool :: args

/-- `emit_genrule_edge`; the target is the one that consumes the outputs, if it asked. -/
def emitGenruleEdge (g : Graph) (target : Option Target) (r : Genrule) :
    Except LoweringError Statement := do
  let argv ← genruleArgv g target r
  let deps ← writeGenruleDeps g r
  return {
    id := singleActionId r.label (ascii "generate")
    rule := ascii "qstar_generate"
    outputs := r.outputs
    explicit := if r.configHeader then [Input.file (scriptPath g r.label)] else []
    implicit := deps
    orderOnly := []
    command := .process {
      kind := ascii "generate"
      argv := argv
      env := []
      outputs := r.outputs
      inputs := r.inputs
      depfile := []
      cacheable := r.cacheable }
    directories := if r.configHeader ∨ isWindows g = true then [] else r.outputs.map dirname }

end QStar.Ninja
