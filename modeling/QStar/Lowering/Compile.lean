import QStar.Lowering.Usage
import QStar.Stella.Keys

/-!
# Lowering compile actions

What a compile action and the action that precompiles a header are: their command,
environment, inputs, outputs and depfile, as far as the graph determines them. A
source of an object library may be compiled for a consuming target; then the
library owns the source and the consumer everything else.
-/
namespace QStar.Lowering

open QStar.Lib.CStrings
open QStar.Lib.Numerals
open QStar.Base
open QStar.BuildGraph

/-- `struct qstar_prepared_action` before its depfile is read. -/
structure LoweredAction where
  id : Bytes
  kind : Bytes
  /-- The label of the target. -/
  owner : Bytes
  toolchain : Option Toolchain
  sourcePath : Bytes
  argv : List Bytes
  env : List Bytes
  inputs : List Bytes
  outputs : List Bytes
  depfile : Bytes
  wantsDepfile : Bool
  /-- The output the key is computed with. -/
  keyOutput : Bytes
  /-- A unity source that is written unless it is there already. -/
  unitySource : Option (Bytes × Bytes)
  outputs_ne : outputs ≠ []

/-- `"%s:%s:0"` -/
def singleActionId (label kind : Bytes) : Bytes := label ++ ascii ":" ++ kind ++ ascii ":0"

/-- `"%s:compile-…-%zu:0"` -/
def numberedActionId (label kind : Bytes) (number : Nat) : Bytes :=
  singleActionId label (kind ++ printUnsigned 10 number)

/-- `"%s:compile:%zu"` -/
def compileActionId (label : Bytes) (index : Nat) : Bytes :=
  label ++ ascii ":compile:" ++ printUnsigned 10 index

/-- The unity batch a source leads, if it is compiled for its own target. -/
def leadsBatch (t owner : Target) (index : Nat) : Option Nat :=
  if owner.label = t.label then
    match unitySourceInfo t index with
    | some (batch, true) => some batch
    | _ => none
  else none

/-- `format_compile_action_id` -/
def formatCompileActionId (t owner : Target) (index actionIndex : Nat) : Bytes :=
  match leadsBatch t owner index with
  | some batch => numberedActionId t.label (ascii "compile-unity-") batch
  | none =>
    if isModuleInterface owner index then
      numberedActionId t.label (ascii "compile-module-interface-") actionIndex
    else if isImplementation owner index && t.cxxModulesEnabled then
      numberedActionId t.label (ascii "compile-module-implementation-") actionIndex
    else compileActionId t.label actionIndex

/-- The text of a unity source. -/
def unityText (sources : List Bytes) : Bytes :=
  ascii "// Generated by QStar C++ unity strategy.\n" ++
    sources.flatMap fun path =>
      ascii "#line 1 \"" ++ path ++ ascii "\"\n#include \"" ++ path ++ ascii "\"\n"

/-- `qstar_cxx_collect_module_inputs` -/
def moduleInputs (g : Graph) (t : Target) (index : Nat) : Option (List Bytes) :=
  if t.cxxModulesEnabled && (isModuleInterface t index || isImplementation t index) then
    ((List.range t.sources.length).filter fun i =>
      isModuleInterface t i && (!isModuleInterface t index || i < index)).mapM
        (moduleOutputPath g t)
  else some []

/-- `qstar_cxx_collect_module_flags` -/
def moduleFlags (g : Graph) (t : Target) (index : Nat) : Option (List Bytes) := do
  let inputs ← moduleInputs g t index
  inputs.mapM fun input => do
    let stem ← baseStem input
    return ascii "-fmodule-file=" ++ stem ++ ascii "=" ++ input

/-- `qstar_cxx_pch_output_path` -/
def pchOutputPath (g : Graph) (t : Target) (tc : Toolchain) : Bytes :=
  cxxSubpath g t (if compilerFamily g tc = ascii "gcc" then ascii "pch.hpp.gch" else
    ascii "pch.pch")

/-- `qstar_cxx_pch_include_path` -/
def pchIncludePath (g : Graph) (t : Target) (tc : Toolchain) : Bytes :=
  if compilerFamily g tc = ascii "gcc" then
    (pchOutputPath g t tc).take ((pchOutputPath g t tc).length - 4)
  else pchOutputPath g t tc

/-- The same flag before every item. -/
def flagged (flag : String) (items : List Bytes) : List Bytes :=
  items.flatMap fun item => [ascii flag, item]

/-- The words for the include directories of a target. -/
def includeWords (g : Graph) (t : Target) : List Bytes :=
  flagged "-I" (compileIncludeDirs g t) ++ flagged "-isystem" t.systemIncludeDirs

/-- The word for the language standard of a target. -/
def standardWord (t : Target) : List Bytes :=
  if t.cxxStandard = [] then [] else [ascii "-std=" ++ t.cxxStandard]

/-- What a compile action is prepared from. -/
structure CompileSource where
  target : Target
  owner : Target
  index : Nat
  actionIndex : Nat
  objectOverride : Option Bytes
  depfileOverride : Option Bytes

/-- The compiled file. -/
def CompileSource.object (g : Graph) (s : CompileSource) : Bytes :=
  match leadsBatch s.target s.owner s.index with
  | some batch => unityObjectPath g s.target batch
  | none => s.objectOverride.getD (objectOutputPath g s.target s.index)

/-- The depfile, also where none is asked for. -/
def CompileSource.depfile (g : Graph) (s : CompileSource) : Bytes :=
  match leadsBatch s.target s.owner s.index with
  | some batch => unityDepfilePath g s.target batch
  | none => s.depfileOverride.getD (depfileOutputPath g s.target s.index)

/-- The file that is compiled. -/
def CompileSource.input (g : Graph) (s : CompileSource) : Bytes :=
  match leadsBatch s.target s.owner s.index with
  | some batch => unitySourcePath g s.target batch
  | none => s.owner.sources.getD s.index []

/-- The sources of the batch that is led. -/
def CompileSource.unitySources (s : CompileSource) : Except LoweringError (List Bytes) :=
  match leadsBatch s.target s.owner s.index with
  | none => .ok []
  | some batch =>
    match unityBatchSources s.target batch with
    | none => .error .unitySource
    | some sources => .ok sources

/-- The branch of a source with a provider unit. -/
def lowerProviderSource (g : Graph) (tc : Toolchain) (s : CompileSource)
    (unit : ProviderSourceUnit) : Except LoweringError LoweredAction := do
  let t := s.target
  if unit.action.argv = [] then .error (.noLoweredCommand (t.sources.getD s.index []))
  else
    let argv ← templateArgv g t tc unit.action.argv
    let usage ← dependencyUsage g .compile t
    let inputs ← pushDependencyUsageInputs g .compile t unit.action.inputs
    return {
      id := formatCompileActionId t s.owner s.index s.actionIndex
      kind := ascii "compile"
      owner := t.label
      toolchain := some tc
      sourcePath := s.input g
      argv := argv ++ usage
      env := unit.action.env
      inputs := inputs
      outputs := unit.action.outputs
      depfile := if unit.action.depfile = [] then s.depfile g else unit.action.depfile
      wantsDepfile := unit.action.wantsDepfile
      keyOutput := s.object g
      unitySource := none
      outputs_ne := unit.action.outputs_ne }

/-- The words of the C++ module strategy, and the module file an interface produces. -/
def moduleWords (g : Graph) (s : CompileSource) (cxx : Bool) :
    Except LoweringError (List Bytes × List Bytes) :=
  let t := s.target
  if cxx && t.cxxModulesEnabled then
    match moduleFlags g t s.index with
    | none => .error .modulePath
    | some flags =>
      let path := ascii "-fprebuilt-module-path=" ++ moduleDirPath g t
      if isModuleInterface s.owner s.index then
        match moduleOutputPath g t s.index with
        | none => .error .modulePath
        | some bmi => .ok (path :: (ascii "-fmodule-output=" ++ bmi) :: flags, [bmi])
      else .ok (path :: flags, [])
  else .ok ([], [])

/-- The module files a source is compiled against. -/
def moduleFileInputs (g : Graph) (s : CompileSource) (cxx : Bool) :
    Except LoweringError (List Bytes) :=
  if cxx && s.target.cxxModulesEnabled then
    match moduleInputs g s.target s.index with
    | none => .error .modulePath
    | some inputs => .ok inputs
  else .ok []

/-- The words that include the precompiled header. -/
def pchWords (g : Graph) (t : Target) (tc : Toolchain) : List Bytes :=
  if t.cxxPrecompiledHeader = [] then []
  else
    [if compilerFamily g tc = ascii "gcc" then ascii "-include" else ascii "-include-pch",
      pchIncludePath g t tc]

/-- The branch of a source of a built-in language. -/
def lowerBuiltinSource (g : Graph) (tc : Toolchain) (s : CompileSource) (source : SourceInfo)
    (unitySources : List Bytes) : Except LoweringError LoweredAction := do
  let t := s.target
  let asm := isAsm source
  let cxx := decide (source.provider = ascii "cxx")
  let interface := isModuleInterface s.owner s.index
  let preprocessed := usesAsmPreprocessor t source
  let wantsDepfile := source.provider = ascii "c" || cxx || preprocessed
  let batch := leadsBatch t s.owner s.index
  let tool ← toolRole g t tc source.toolsetRole
    (some ((providerTool tc source.provider source.providerRole).getD tc.cc))
  let (modules, bmi) ← moduleWords g s cxx
  let usage ← dependencyUsage g .compile t
  let bmiInputs ← moduleFileInputs g s cxx
  let pch := cxx && !interface && t.cxxPrecompiledHeader ≠ []
  let inputs ← pushDependencyUsageInputs g .compile t
    ([s.input g] ++ unitySources ++ (if pch then [pchOutputPath g t tc] else []) ++ bmiInputs ++
      headerInputs t)
  return {
    id := formatCompileActionId t s.owner s.index s.actionIndex
    kind := ascii "compile"
    owner := t.label
    toolchain := some tc
    sourcePath := s.input g
    argv := tool ++
      (if compileNeedsPic g t asm then [ascii "-fPIC"] else []) ++
      (if asm then
        [ascii "-x", if preprocessed then ascii "assembler-with-cpp" else ascii "assembler"]
      else []) ++
      (if interface then [ascii "-x", ascii "c++-module"] else []) ++
      [ascii "-c", s.input g, ascii "-o", s.object g] ++
      (if wantsDepfile then [ascii "-MMD", ascii "-MF", s.depfile g] else []) ++
      (if cxx then standardWord t else []) ++
      (if cxx && !interface then pchWords g t tc else []) ++
      modules ++
      (if batch.isSome then [ascii "-iquote", ascii "."] else []) ++
      usage ++
      (if asm then t.asmCompileOptions else if cxx then t.cxxflags else t.cflags) ++
      (if asm then flagged "-I" t.asmIncludeDirs else includeWords g t)
    env := []
    inputs := inputs ++ (if s.owner.label = t.label then [] else headerInputs s.owner)
    outputs := s.object g :: bmi
    depfile := s.depfile g
    wantsDepfile := wantsDepfile
    keyOutput := s.object g
    unitySource := batch.map fun batch => (unitySourcePath g t batch, unityText unitySources)
    outputs_ne := by simp }

/-- `prepare_compile_action_from_source` -/
def lowerCompileAction (h : Host) (g : Graph) (tc : Toolchain) (s : CompileSource) :
    Except LoweringError LoweredAction := do
  let source := sourceInfo s.owner s.index
  validateCompileSource h g s.owner tc source s.index
  if s.owner.label = s.target.label ∧ (unitySourceInfo s.target s.index).isSome ∧
      leadsBatch s.target s.owner s.index = none then
    throw .unityNonLeader
  let unitySources ← s.unitySources
  match providerSourceUnit s.owner s.index with
  | some unit =>
    if s.owner.label ≠ s.target.label then
      throw (.providerInConsumerContext (s.owner.sources.getD s.index []))
    lowerProviderSource g tc s unit
  | none => lowerBuiltinSource g tc s source unitySources

/-- `prepare_compile_action`: a source compiled for its own target. -/
def ownSource (t : Target) (index : Nat) : CompileSource := ⟨t, t, index, index, none, none⟩

/-- `prepare_cxx_pch_action` -/
def lowerCxxPchAction (g : Graph) (tc : Toolchain) (t : Target) :
    Except LoweringError LoweredAction := do
  let output := pchOutputPath g t tc
  let depfile := output ++ ascii ".d"
  let tool ← toolRole g t tc (ascii "cxx.compiler") (some tc.cxx)
  let usage ← dependencyUsage g .compile t
  let inputs ← pushDependencyUsageInputs g .compile t (t.cxxPrecompiledHeader :: headerInputs t)
  return {
    id := singleActionId t.label (ascii "cxx-pch")
    kind := ascii "compile"
    owner := t.label
    toolchain := some tc
    sourcePath := t.cxxPrecompiledHeader
    argv := tool ++ [ascii "-x", ascii "c++-header", ascii "-c", t.cxxPrecompiledHeader,
      ascii "-o", output, ascii "-MMD", ascii "-MF", depfile] ++ standardWord t ++ usage ++
      t.cxxflags ++ includeWords g t
    env := []
    inputs := inputs
    outputs := [output]
    depfile := depfile
    wantsDepfile := true
    keyOutput := output
    unitySource := none
    outputs_ne := by simp }

end QStar.Lowering
