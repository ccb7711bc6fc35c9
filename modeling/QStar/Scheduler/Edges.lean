import QStar.Lowering.Nodes
import QStar.Scheduler.Discovery
import QStar.Scheduler.NodeGraph

/-!
# From what was found to a node graph

The scheduler creates nodes for the targets, generated actions and stages that
discovery found and then connects them. Where the last node of a target, the node of
a generated action and that of a stage stand is noted while they are created; the
edges are added by looking there.
-/
namespace QStar.Scheduler.Edges

open QStar.Lib.CStrings
open QStar.Base
open QStar.BuildGraph
open QStar.Lowering
open QStar.Scheduler.NodeGraph (Sched)
open QStar.Scheduler.Discovery

/-- A node of `struct qstar_sched_node`; a compile belongs to the target and has its
source in the source owner. -/
inductive SchedNode where
  | group (t : Target)
  | run (t : Target)
  | metadata (t : Target)
  | cxxPch (t : Target)
  | compile (t owner : Target) (sourceIndex actionIndex : Nat)
  | objectlib (t : Target)
  | final (t : Target)
  | generate (r : Genrule)
  | stage (s : Stage)

/-- Why `scheduler_build_nodes` fails. -/
inductive ScheduleError where
  | lowering (why : LoweringError)
  | selfDependency
  | missingFinalNode
  | unscheduledStage (label : Bytes)

/-! ## The nodes -/

/-- The nodes created so far, and `target_final_node`, `genrule_node` and `stage_node`. -/
structure Plan where
  sched : Sched SchedNode
  targetFinalNode : Bytes → Option Nat
  genruleNode : Bytes → Option Nat
  stageNode : Bytes → Option Nat

def Plan.empty : Plan := ⟨.empty, fun _ => none, fun _ => none, fun _ => none⟩

/-- `scheduler_add_node` -/
def Plan.addNode (p : Plan) (node : SchedNode) : Plan :=
  { p with sched := NodeGraph.addNode p.sched node }

/-- The last node `scheduler_create_target_nodes` creates for a target. -/
def finalNode (t : Target) : SchedNode :=
  match t.kind with
  | .group => .group t
  | .runTarget => .run t
  | .interface => .metadata t
  | .imported => .metadata t
  | .tool => .metadata t
  | .objectlib => .objectlib t
  | _ => .final t

/-- The node that stands for a producer when something waits for it. -/
def producerNode : Producer → SchedNode
  | .target t => finalNode t
  | .genrule r => .generate r
  | .stage s => .stage s

/-- Notes where the next node stands. -/
def Plan.note (p : Plan) : Producer → Plan
  | .target t => { p with
      targetFinalNode := Function.update p.targetFinalNode t.label (some p.sched.nodes.length) }
  | .genrule r => { p with
      genruleNode := Function.update p.genruleNode r.label (some p.sched.nodes.length) }
  | .stage s => { p with
      stageNode := Function.update p.stageNode s.label (some p.sched.nodes.length) }

/-- A node is created and its index noted. -/
def Plan.create (p : Plan) (q : Producer) : Plan := (p.note q).addNode (producerNode q)

/-- The precompiled header and the compiles of a target. -/
def compileNodes (g : Graph) (t : Target) : List SchedNode :=
  (if t.cxxPrecompiledHeader = [] then [] else [.cxxPch t]) ++
    (ownCompileIndices t).map (fun index => .compile t t index index) ++
    (consumerNodes g t).filterMap fun
      | .consumerCompile t objectlib index actionIndex =>
        some (.compile t objectlib index actionIndex)
      | _ => none

/-- `scheduler_create_target_nodes` -/
def createTargetNodes (h : Host) (g : Graph) (p : Plan) (t : Target) :
    Except ScheduleError Plan := do
  if hasNoToolchain t then return p.create (.target t)
  (validateTarget h g t).mapError .lowering
  return ((compileNodes g t).foldl Plan.addNode p).create (.target t)

/-- `scheduler_create_genrule_nodes` -/
def createGenruleNodes (g : Graph) (f : Found) (p : Plan) : Plan :=
  (g.genrules.filter f.needs).foldl (fun p r => p.create (.genrule r)) p

/-- `scheduler_create_stage_nodes` -/
def createStageNodes (g : Graph) (f : Found) (p : Plan) : Plan :=
  (g.stages.filter fun s => f.stages.any fun o => o.label = s.label).foldl
    (fun p s => p.create (.stage s)) p

/-- The first half of `scheduler_build_nodes` -/
def createNodes (h : Host) (g : Graph) (f : Found) : Except ScheduleError Plan := do
  let p ← f.targets.foldlM (createTargetNodes h g) .empty
  return createStageNodes g f (createGenruleNodes g f p)

/-! ## The edges -/

/-- `scheduler_add_edge` -/
def addEdge (s : Sched SchedNode) (dep user : Nat) : Except ScheduleError (Sched SchedNode) :=
  match NodeGraph.addEdge s dep user with
  | none => .error .selfDependency
  | some s => .ok s

/-- An edge from a node, if there is one. -/
def addEdgeFrom (dep : Option Nat) (user : Nat) (s : Sched SchedNode) :
    Except ScheduleError (Sched SchedNode) :=
  match dep with
  | none => .ok s
  | some dep => addEdge s dep user

/-- The last node of the target of a label, else the node of the generated action. -/
def Plan.labelNode (g : Graph) (p : Plan) (label : Bytes) : Option Nat :=
  match (findTarget g label).bind fun t => p.targetFinalNode t.label with
  | some n => some n
  | none => (findGenrule g label).bind fun r => p.genruleNode r.label

/-- An edge from the producer an item names; the owner is that of a plain path. -/
def addItemEdge (g : Graph) (p : Plan) (owner : Option Genrule) (item : Bytes) (user : Nat)
    (s : Sched SchedNode) : Except ScheduleError (Sched SchedNode) :=
  match targetFileToken item with
  | .malformed => .error (.lowering .malformedTargetFile)
  | .targetFile label _ => addEdgeFrom (p.labelNode g label) user s
  | .plain => addEdgeFrom (owner.bind fun r => p.genruleNode r.label) user s

/-- `scheduler_add_genrule_item_edge` -/
def addGenruleItemEdge (g : Graph) (p : Plan) (r : Genrule) (user : Nat) (s : Sched SchedNode)
    (item : Bytes) : Except ScheduleError (Sched SchedNode) :=
  addItemEdge g p ((findOutputOwner g item).filter fun owner => owner.label ≠ r.label) item user s

/-- `scheduler_add_target_file_item_edge`, `scheduler_add_target_link_input_edge` -/
def addTargetFileItemEdge (g : Graph) (p : Plan) (user : Nat) (s : Sched SchedNode)
    (item : Bytes) : Except ScheduleError (Sched SchedNode) :=
  addItemEdge g p (findOutputOwner g item) item user s

/-- `scheduler_add_stage_source_edge` -/
def addStageSourceEdge (g : Graph) (p : Plan) (user : Nat) (s : Sched SchedNode)
    (item : Bytes) : Except ScheduleError (Sched SchedNode) :=
  addItemEdge g p (findOutputOwner g item) item user s

/-- `scheduler_connect_genrule_edges` -/
def connectGenruleEdges (g : Graph) (p : Plan) (s : Sched SchedNode) :
    Except ScheduleError (Sched SchedNode) :=
  g.genrules.foldlM (fun s r =>
    match p.genruleNode r.label with
    | none => .ok s
    | some user => (r.tool :: r.inputs ++ r.args).foldlM (addGenruleItemEdge g p r user) s) s

/-- `scheduler_connect_stage_edges` -/
def connectStageEdges (g : Graph) (p : Plan) (s : Sched SchedNode) :
    Except ScheduleError (Sched SchedNode) :=
  g.stages.foldlM (fun s st =>
    match p.stageNode st.label with
    | none => .ok s
    | some user => st.srcs.foldlM (addStageSourceEdge g p user) s) s

/-- `scheduler_connect_target_dep_list` -/
def connectTargetDepList (g : Graph) (p : Plan) (user : Nat) (deps : List Bytes)
    (s : Sched SchedNode) : Except ScheduleError (Sched SchedNode) :=
  (deps.filter fun label => label.head? ≠ some 64).foldlM
    (fun s label => addEdgeFrom (p.labelNode g label) user s) s

/-- Edges from the generated actions that are consumed. -/
def connectGenrules (g : Graph) (p : Plan) (consumes : Genrule → Bool) (user : Nat)
    (s : Sched SchedNode) : Except ScheduleError (Sched SchedNode) :=
  (g.genrules.filter consumes).foldlM
    (fun s r => addEdgeFrom (p.genruleNode r.label) user s) s

/-- `scheduler_connect_consumed_genrules` -/
def connectConsumedGenrules (g : Graph) (p : Plan) (t : Target) (user : Nat)
    (s : Sched SchedNode) : Except ScheduleError (Sched SchedNode) :=
  connectGenrules g p (targetConsumesGenrule t) user s

/-- `target_compile_consumes_genrule` -/
def targetCompileConsumesGenrule (t : Target) (r : Genrule) : Bool :=
  outputInList r t.publicHeaders || outputInList r t.privateHeaders ||
    (List.range t.sources.length).any fun j =>
      (t.sources[j]?.any fun path => path ∈ r.outputs) &&
        ((sourceClassify t j).any fun source => requiresCompile source)

/-- `scheduler_connect_compile_genrules` -/
def connectCompileGenrules (g : Graph) (p : Plan) (t : Target) (user : Nat)
    (s : Sched SchedNode) : Except ScheduleError (Sched SchedNode) :=
  connectGenrules g p (targetCompileConsumesGenrule t) user s

/-- `scheduler_connect_run_command_edges` -/
def connectRunCommandEdges (g : Graph) (p : Plan) (t : Target) (user : Nat)
    (s : Sched SchedNode) : Except ScheduleError (Sched SchedNode) :=
  if t.kind ≠ .runTarget then .ok s
  else t.runCommand.foldlM (addTargetFileItemEdge g p user) s

/-- An item of `scheduler_connect_run_input_edges` -/
def addRunInputEdge (g : Graph) (p : Plan) (user : Nat) (s : Sched SchedNode) (item : Bytes) :
    Except ScheduleError (Sched SchedNode) :=
  match stageDirToken item with
  | .malformed => .error (.lowering .malformedStageDir)
  | .payload label =>
    match findStage g label with
    | none => .error (.lowering (.unknownStage label))
    | some st =>
      match p.stageNode st.label with
      | none => .error (.unscheduledStage label)
      | some dep => addEdge s dep user
  | .plain => addTargetFileItemEdge g p user s item

/-- `scheduler_connect_run_input_edges` -/
def connectRunInputEdges (g : Graph) (p : Plan) (t : Target) (user : Nat)
    (s : Sched SchedNode) : Except ScheduleError (Sched SchedNode) :=
  if t.kind ≠ .runTarget then .ok s
  else t.runInputs.foldlM (addRunInputEdge g p user) s

/-- `scheduler_connect_dependency_usage_inputs` -/
def connectDependencyUsageInputs (g : Graph) (p : Plan) (t : Target) (phase : UsagePhase)
    (user : Nat) (s : Sched SchedNode) : Except ScheduleError (Sched SchedNode) :=
  match collectUsage g phase t with
  | .error e => .error (.lowering e)
  | .ok usage => usage.inputs.foldlM (addTargetFileItemEdge g p user) s

/-- A compile node of a target with its index, as the loops over `nodes` find it. -/
structure CompileAt where
  index : Nat
  owner : Target
  sourceIndex : Nat

/-- The nodes with their indices. -/
def Plan.indexed (p : Plan) : List (SchedNode × Nat) := (p.sched.nodes.map (·.info)).zipIdx

/-- The compile nodes of a target. -/
def Plan.compiles (p : Plan) (t : Target) : List CompileAt :=
  p.indexed.filterMap fun
    | (.compile o owner source _, j) => if o.label = t.label then some ⟨j, owner, source⟩ else none
    | _ => none

/-- The precompiled-header nodes of a target. -/
def Plan.pchs (p : Plan) (t : Target) : List Nat :=
  p.indexed.filterMap fun
    | (.cxxPch o, j) => if o.label = t.label then some j else none
    | _ => none

/-- The edges at a compile node: to the last node of its target, from the generated sources and
headers of its owner and from the usage inputs. -/
def connectCompile (g : Graph) (p : Plan) (t : Target) (final : Nat) (s : Sched SchedNode)
    (c : CompileAt) : Except ScheduleError (Sched SchedNode) := do
  let s ← addEdge s c.index final
  let s ← connectCompileGenrules g p c.owner c.index s
  connectDependencyUsageInputs g p t .compile c.index s

/-- Whether a compile waits for the precompiled header of its target. -/
def usesPch (owner : Target) (sourceIndex : Nat) : Bool :=
  (sourceClassify owner sourceIndex).any fun source => source.provider = ascii "cxx"

/-- The edges at a precompiled-header node. -/
def connectPch (g : Graph) (p : Plan) (t : Target) (s : Sched SchedNode) (j : Nat) :
    Except ScheduleError (Sched SchedNode) := do
  let s ← addTargetFileItemEdge g p j s t.cxxPrecompiledHeader
  let s ← connectDependencyUsageInputs g p t .compile j s
  ((p.compiles t).filter fun c => usesPch c.owner c.sourceIndex).foldlM
    (fun s c => addEdge s j c.index) s

/-- Whether a source waits for a module interface of its target: an implementation does, and an
interface that is not listed before it. -/
def waitsForInterface (source : Nat) (owner : Target) (sourceIndex : Nat) : Bool :=
  if isModuleInterface owner sourceIndex then decide (source ≤ sourceIndex)
  else isImplementation owner sourceIndex

/-- The edges from the module interfaces of a target. -/
def connectModules (p : Plan) (t : Target) (s : Sched SchedNode) :
    Except ScheduleError (Sched SchedNode) :=
  if t.cxxModulesEnabled then
    ((p.compiles t).filter fun c => isModuleInterface c.owner c.sourceIndex).foldlM (fun s c =>
      ((p.compiles t).filter fun u =>
        u.index ≠ c.index && waitsForInterface c.sourceIndex u.owner u.sourceIndex).foldlM
        (fun s u => addEdge s c.index u.index) s) s
  else .ok s

/-- The edges that end at the last node of every target. -/
def connectFinal (g : Graph) (p : Plan) (t : Target) (final : Nat) (s : Sched SchedNode) :
    Except ScheduleError (Sched SchedNode) := do
  let s ← connectTargetDepList g p final t.objects s
  let s ← connectTargetDepList g p final t.deps s
  let s ← connectTargetDepList g p final t.privateDeps s
  let s ← connectRunCommandEdges g p t final s
  connectRunInputEdges g p t final s

/-- The edges of a target that is compiled. -/
def connectBuilt (g : Graph) (p : Plan) (t : Target) (final : Nat) (s : Sched SchedNode) :
    Except ScheduleError (Sched SchedNode) := do
  let s ← connectConsumedGenrules g p t final s
  let s ← connectDependencyUsageInputs g p t .link final s
  let s ← t.linkInputs.foldlM (addTargetFileItemEdge g p final) s
  let s ← (p.compiles t).foldlM (connectCompile g p t final) s
  let s ← (p.pchs t).foldlM (connectPch g p t) s
  connectModules p t s

/-- One target of `scheduler_connect_target_edges` -/
def connectTarget (g : Graph) (p : Plan) (s : Sched SchedNode) (t : Target) :
    Except ScheduleError (Sched SchedNode) :=
  match p.targetFinalNode t.label with
  | none => .error .missingFinalNode
  | some final => do
    let s ← connectFinal g p t final s
    if hasNoToolchain t then return s
    connectBuilt g p t final s

/-- `scheduler_connect_target_edges` -/
def connectTargetEdges (g : Graph) (f : Found) (p : Plan) (s : Sched SchedNode) :
    Except ScheduleError (Sched SchedNode) :=
  f.targets.foldlM (connectTarget g p) s

/-- The second half of `scheduler_build_nodes` -/
def connectNodes (g : Graph) (f : Found) (p : Plan) : Except ScheduleError (Sched SchedNode) := do
  let s ← connectGenruleEdges g p p.sched
  let s ← connectStageEdges g p s
  connectTargetEdges g f p s

/-- `scheduler_build_nodes` -/
def schedulerBuildNodes (h : Host) (g : Graph) (f : Found) :
    Except ScheduleError (Sched SchedNode) := do
  let p ← createNodes h g f
  connectNodes g f p

end QStar.Scheduler.Edges
