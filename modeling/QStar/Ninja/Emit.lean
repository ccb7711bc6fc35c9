import QStar.Lowering.Closure
import QStar.Ninja.Finals

/-!
# Emitting a graph

The targets, generated actions and stages the Ninja backend emits for a label, each
after the producers it asks for, and the statements it writes for each. A generated
action is emitted once, for whichever node asks for it first; meeting it again while
its own producers are emitted is an error, and so it is for a stage. A target met
again is passed over.
-/
namespace QStar.Ninja

open QStar.Lib.CStrings
open QStar.Lib.Search
open QStar.Base
open QStar.BuildGraph
open QStar.Lowering

/-- What is emitted. A generated action comes with the target that asked for its outputs. -/
inductive EmitNode where
  | target (t : Target)
  | genrule (consumer : Option Target) (r : Genrule)
  | stage (s : Stage)

/-- What `target_emitted`, `genrule_state` and `stage_state` are indexed by. -/
inductive EmitKey where
  | target (label : Bytes)
  | genrule (label : Bytes)
  | stage (label : Bytes)
  deriving DecidableEq

def EmitNode.key : EmitNode → EmitKey
  | .target t => .target t.label
  | .genrule _ r => .genrule r.label
  | .stage s => .stage s.label

/-! ## Producers -/

/-- `emit_target_closure` -/
def targetClosure (g : Graph) (label : Bytes) : Except LoweringError (List EmitNode) := do
  let closure ← buildClosure g (some label)
  return closure.map .target

/-- The generated action that has a path among its outputs. -/
def outputProducer (g : Graph) (path : Bytes) : List EmitNode :=
  (findOutputOwner g path).toList.map (.genrule none)

/-- The producer of a label that a token names; an unknown label has none. -/
def labelProducer (g : Graph) (label : Bytes) : Except LoweringError (List EmitNode) :=
  match findTarget g label with
  | some _ => targetClosure g label
  | none => .ok ((findGenrule g label).toList.map (.genrule none))

/-- `emit_target_link_input_producer`, `emit_stage_source_producer` -/
def itemProducer (g : Graph) (item : Bytes) : Except LoweringError (List EmitNode) :=
  match targetFileToken item with
  | .malformed => .error .malformedTargetFile
  | .targetFile label _ => labelProducer g label
  | .plain => .ok (outputProducer g item)

/-- `emit_genrule_item_producer`; an action does not wait for its own outputs. -/
def genruleItemProducer (g : Graph) (r : Genrule) (item : Bytes) :
    Except LoweringError (List EmitNode) :=
  match targetFileToken item with
  | .plain =>
    .ok (((findOutputOwner g item).toList.filter fun owner => owner.label ≠ r.label).map
      (.genrule none))
  | _ => itemProducer g item

/-- `emit_run_item_producer` -/
def runItemProducer (g : Graph) (item : Bytes) : Except LoweringError (List EmitNode) :=
  match targetFileToken item with
  | .plain => .ok []
  | .malformed => .error .malformedTargetFile
  | .targetFile label _ =>
    if (findTarget g label).isNone ∧ (findGenrule g label).isNone then
      .error (.unknownTargetFile label)
    else labelProducer g label

/-- `emit_run_input_producer` -/
def runInputProducer (g : Graph) (item : Bytes) : Except LoweringError (List EmitNode) :=
  match stageDirToken item with
  | .malformed => .error .malformedStageDir
  | .payload label =>
    match findStage g label with
    | none => .error (.unknownStage label)
    | some stage => .ok [.stage stage]
  | .plain =>
    match targetFileToken item with
    | .plain => .ok (outputProducer g item)
    | _ => runItemProducer g item

/-- `emit_target_dep_genrule_producers` -/
def depGenruleProducers (g : Graph) (t : Target) : List EmitNode :=
  ((t.deps ++ t.privateDeps).filter fun label => label.head? ≠ some 64).flatMap fun label =>
    (findGenrule g label).toList.map (.genrule none)

/-- `target_consumes_genrule` -/
def targetConsumesGenrule (t : Target) (r : Genrule) : Bool :=
  r.outputs.any fun output =>
    (t.cxxPrecompiledHeader ≠ [] && output = t.cxxPrecompiledHeader) ||
      decide (output ∈ t.sources ++ t.publicHeaders ++ t.privateHeaders ++ t.linkInputs)

/-- `emit_consumed_genrules` -/
def consumedGenrules (g : Graph) (t : Target) : List EmitNode :=
  (g.genrules.filter (targetConsumesGenrule t)).map (.genrule (some t))

/-- The items of `emit_dependency_usage_input_producers` for one phase. -/
def usageItemProducers (g : Graph) (phase : UsagePhase) (t : Target) :
    Except LoweringError (List EmitNode) := do
  let usage ← collectUsage g phase t
  let producers ← usage.inputs.mapM (itemProducer g)
  return producers.flatten

/-- The kinds that are compiled. -/
def isCompiledKind (t : Target) : Bool :=
  t.kind = .staticlib || t.kind = .sharedlib || t.kind = .exe || t.kind = .test ||
    t.kind = .objectlib

/-- The kinds of `emit_typed_dependency_edge` -/
def isTypedDependency (t : Target) : Bool :=
  t.kind = .interface || t.kind = .imported || t.kind = .tool

/-- What a compiled target asks for. -/
def compiledProducers (g : Graph) (t : Target) : Except LoweringError (List EmitNode) := do
  validateStrategies g t (resolveToolchain g t)
  let linkInputs ← t.linkInputs.mapM (itemProducer g)
  let compileUsage ← usageItemProducers g .compile t
  let linkUsage ← usageItemProducers g .link t
  return consumedGenrules g t ++ linkInputs.flatten ++ compileUsage ++ linkUsage

/-- What a run target asks for. -/
def runProducers (g : Graph) (t : Target) : Except LoweringError (List EmitNode) := do
  let inputs ← t.runInputs.mapM (runInputProducer g)
  let command ← t.runCommand.mapM (runItemProducer g)
  return inputs.flatten ++ command.flatten

/-- What `emit_target` asks for by the kind of the target. -/
def kindProducers (g : Graph) (t : Target) : Except LoweringError (List EmitNode) :=
  if t.kind = .group || isTypedDependency t then .ok []
  else if t.kind = .runTarget then runProducers g t
  else if isCompiledKind t then compiledProducers g t
  else .error (.unsupportedKind t.label)

/-- The nodes that are emitted before a node. -/
def EmitNode.producers (g : Graph) : EmitNode → Except LoweringError (List EmitNode)
  | .target t => do
    let kind ← kindProducers g t
    return depGenruleProducers g t ++ kind
  | .genrule _ r => do
    let producers ← (r.tool :: r.inputs ++ r.args).mapM (genruleItemProducer g r)
    return producers.flatten
  | .stage s => do
    let producers ← s.srcs.mapM (itemProducer g)
    return producers.flatten

/-! ## Statements -/

/-- The sources of one object library that its consumer compiles. -/
def objectlibCompileSources (g : Graph) (t : Target) (listIndex : Nat) (label : Bytes) :
    Except LoweringError (List CompileSource) :=
  match findTarget g label with
  | none => .ok []
  | some objectlib =>
    if usesConsumerContext objectlib then
      ((List.range objectlib.sources.length).filter fun j =>
        requiresCompile (sourceInfo objectlib j)).mapM fun j => do
          let object ← objectlibObjectInput g t objectlib j
          return consumerSource g t objectlib j (consumerCompileIndex g t listIndex j) object
    else .ok []

/-- The sources of `emit_consumer_objectlib_compile_edges` -/
def consumerCompileSources (g : Graph) (t : Target) : Except LoweringError (List CompileSource) := do
  let sources ← t.objects.zipIdx.mapM fun (label, listIndex) =>
    objectlibCompileSources g t listIndex label
  return sources.flatten

/-- The edge of a precompiled header, if the target has one. -/
def pchStatements (g : Graph) (tc : Toolchain) (t : Target) :
    Except LoweringError (List Statement) :=
  if t.cxxPrecompiledHeader = [] then .ok []
  else do
    let edge ← emitCxxPchEdge g tc t
    return [edge]

/-- The edges that compile a target. -/
def compileStatements (g : Graph) (tc : Toolchain) (t : Target) :
    Except LoweringError (List Statement) := do
  let pch ← pchStatements g tc t
  let own ← (ownCompileIndices t).mapM fun i => emitCompileEdgeFromSource g tc (ownSource t i)
  let sources ← consumerCompileSources g t
  let consumer ← sources.mapM (emitCompileEdgeFromSource g tc)
  return pch ++ own ++ consumer

/-- The edge that archives or links a target. -/
def emitOwnFinal (g : Graph) (tc : Toolchain) (t : Target) : Except LoweringError Statement :=
  if t.kind = .staticlib then emitStaticlibEdge g tc t else emitLinkEdge g tc t

/-- The final edge of a target and its alias. -/
def finalStatements (g : Graph) (tc : Toolchain) (t : Target) :
    Except LoweringError (List Statement) :=
  match t.providerFinal with
  | some final => do
    let edge ← emitProviderFinalEdge g tc t final
    return [edge, outputsAlias g t.label edge.outputs]
  | none =>
    if t.kind = .objectlib then do
      let edge ← emitObjectlibEdge g t
      return [edge]
    else do
      let edge ← emitOwnFinal g tc t
      return [edge, outputsAlias g t.label edge.outputs]

/-- What `emit_target` writes. -/
def targetStatements (g : Graph) (t : Target) : Except LoweringError (List Statement) :=
  if t.kind = .group then .ok [emitGroupEdge g t]
  else if isTypedDependency t then do
    let edge ← emitTypedDependencyEdge g t
    return [edge]
  else if t.kind = .runTarget then do
    let edge ← emitRunEdge g t
    return [edge, outputsAlias g t.label edge.outputs]
  else do
    let tc := resolveToolchain g t
    let compile ← compileStatements g tc t
    let final ← finalStatements g tc t
    return compile ++ final

/-- The statements a node is emitted as. -/
def EmitNode.statements (g : Graph) : EmitNode → Except LoweringError (List Statement)
  | .target t => targetStatements g t
  | .genrule consumer r => do
    let edge ← emitGenruleEdge g consumer r
    return [edge, outputsAlias g r.label edge.outputs]
  | .stage s => do
    let edge ← emitStageEdge g s
    return [edge, stageAlias g s]

/-! ## Graphs -/

/-- The search of `emit_target`, `emit_genrule_edge` and `emit_stage_edge` -/
def emitSpace (g : Graph) : Space EmitNode EmitKey LoweringError where
  key := EmitNode.key
  next := EmitNode.producers g
  again
    | .target _ => .ok ()
    | .genrule _ r => .error (.circularGenerated r.label)
    | .stage stage => .error (.circularStage stage.label)
  tooDeep := .searchTooDeep

/-- Where an emission starts: a generated action, a stage or a closure. -/
def emitRoots (g : Graph) (label : Option Bytes) : Except LoweringError (List EmitNode) :=
  let name := label.getD []
  match if name = [] then none else findGenrule g name with
  | some r => .ok [.genrule none r]
  | none =>
    match if name = [] then none else findStage g name with
    | some stage => .ok [.stage stage]
    | none => do
      let closure ← buildClosure g label
      return closure.map .target

/-- The emitted nodes in their order. -/
def emitOrder (g : Graph) (label : Option Bytes) : Except LoweringError (List EmitNode) := do
  let roots ← emitRoots g label
  (emitSpace g).search (g.targets.length + g.genrules.length + g.stages.length + 1) roots

/-- The paths of the default statement, if there is one. -/
def defaultPaths (g : Graph) (label : Option Bytes) : List Bytes :=
  match label with
  | some label =>
    if (findStage g label).isSome ∧ (findTarget g label).isNone ∧ (findGenrule g label).isNone then
      [stageAliasPath g label]
    else [ninjaAliasPath g label]
  | none => g.targets.map fun t => ninjaAliasPath g t.label

/-- `emit_ninja_graph` -/
def emitNinjaGraph (g : Graph) (label : Option Bytes) : Except LoweringError (List Statement) := do
  let order ← emitOrder g label
  let statements ← order.mapM (EmitNode.statements g)
  return statements.flatten

end QStar.Ninja
