import QStar.Lowering.Final
import QStar.Lowering.Commands

/-!
# Action nodes

The process actions a schedule of a graph consists of, in the order in which the
scheduler creates them for a target, and how each is prepared from the graph.
-/
namespace QStar.Lowering

open QStar.Lib.CStrings
open QStar.Base
open QStar.BuildGraph

/-- The process action nodes of `struct qstar_sched_node`. -/
inductive ActionNode where
  | cxxPch (t : Target)
  | compile (t : Target) (index : Nat)
  /-- A source of an object library, compiled in the context of its consumer. -/
  | consumerCompile (t objectlib : Target) (index actionIndex : Nat)
  | final (t : Target)
  | generate (r : Genrule)
  | run (t : Target)

/-- The kinds whose node starts no process: groups, run targets and metadata. -/
def hasNoToolchain (t : Target) : Bool :=
  t.kind = .group || t.kind = .runTarget || t.kind = .interface || t.kind = .imported ||
    t.kind = .tool

/-- The checks `scheduler_create_target_nodes` makes before it creates compile nodes. -/
def validateTarget (h : Host) (g : Graph) (t : Target) : Except LoweringError Unit := do
  let tc := resolveToolchain g t
  validateStrategies g t tc
  validateSharedlibPlatform g t
  validateNoncompileSources h g t tc

/-- Whether a source of a target gets a compile node of its own. -/
def ownCompiled (t : Target) (index : Nat) : Bool :=
  !providerFinalOwnsSource t index && emitsObject t index && requiresCompile (sourceInfo t index)

/-- The sources that a target compiles for itself. -/
def ownCompileIndices (t : Target) : List Nat :=
  if usesConsumerContext t then []
  else (List.range t.sources.length).filter (ownCompiled t ·)

/-- The number of sources of an object library. -/
def objectlibSources (g : Graph) (label : Bytes) : Nat :=
  match findTarget g label with
  | none => 0
  | some objectlib => objectlib.sources.length

/-- `objectlib_consumer_compile_index` -/
def consumerCompileIndex (g : Graph) (consumer : Target) (listIndex sourceIndex : Nat) : Nat :=
  consumer.sources.length +
    ((consumer.objects.take listIndex).map (objectlibSources g)).sum + sourceIndex

/-- The sources of one object library that its consumer compiles. -/
def consumerNodesOf (g : Graph) (t : Target) (listIndex : Nat) (label : Bytes) :
    List ActionNode :=
  match findTarget g label with
  | none => []
  | some objectlib =>
    if usesConsumerContext objectlib then
      ((List.range objectlib.sources.length).filter fun j =>
        requiresCompile (sourceInfo objectlib j)).map fun j =>
          .consumerCompile t objectlib j (consumerCompileIndex g t listIndex j)
    else []

/-- The sources of object libraries that a target compiles. -/
def consumerNodes (g : Graph) (t : Target) : List ActionNode :=
  (t.objects.zipIdx.map fun (label, listIndex) => consumerNodesOf g t listIndex label).flatten

/-- The actions that compile and link a target. -/
def ownNodes (g : Graph) (t : Target) : List ActionNode :=
  (if t.cxxPrecompiledHeader = [] then [] else [.cxxPch t]) ++
    (ownCompileIndices t).map (.compile t) ++ consumerNodes g t ++
    if t.kind = .objectlib then [] else [.final t]

/-- The process actions among the nodes of `scheduler_create_target_nodes`. -/
def targetNodes (h : Host) (g : Graph) (t : Target) : Except LoweringError (List ActionNode) :=
  if t.kind = .runTarget then .ok [.run t]
  else if hasNoToolchain t then .ok []
  else do
    validateTarget h g t
    return ownNodes g t

/-- `scheduler_create_genrule_nodes`; configured files are written without a process. -/
def genruleNodes (r : Genrule) : List ActionNode := if r.configHeader then [] else [.generate r]

/-- The actions the scheduler creates for some root of a graph. -/
inductive Scheduled (h : Host) (g : Graph) : ActionNode → Prop where
  | target {t : Target} {nodes : List ActionNode} {node : ActionNode} (ht : t ∈ g.targets)
      (hnodes : targetNodes h g t = .ok nodes) (hnode : node ∈ nodes) : Scheduled h g node
  | genrule {r : Genrule} {node : ActionNode} (hr : r ∈ g.genrules)
      (hnode : node ∈ genruleNodes r) : Scheduled h g node

/-- What a consumer-context compile is prepared from. -/
def consumerSource (g : Graph) (t objectlib : Target) (index actionIndex : Nat) (object : Bytes) :
    CompileSource where
  target := t
  owner := objectlib
  index := index
  actionIndex := actionIndex
  objectOverride := some object
  depfileOverride := some (objectlibDepfileOutput g t objectlib index)

/-- `scheduler_prepare_process_node` without a plan -/
def lowerNode (h : Host) (g : Graph) : ActionNode → Except LoweringError LoweredAction
  | .cxxPch t => lowerCxxPchAction g (resolveToolchain g t) t
  | .compile t index => lowerCompileAction h g (resolveToolchain g t) (ownSource t index)
  | .consumerCompile t objectlib index actionIndex => do
    let object ← objectlibObjectInput g t objectlib index
    lowerCompileAction h g (resolveToolchain g t)
      (consumerSource g t objectlib index actionIndex object)
  | .final t => lowerFinalAction g (resolveToolchain g t) t
  | .generate r => lowerGeneratedAction g r
  | .run t => lowerRunAction g t

/-- The id of the action of a node. -/
def nodeId : ActionNode → Bytes
  | .cxxPch t => singleActionId t.label (ascii "cxx-pch")
  | .compile t index => formatCompileActionId t t index index
  | .consumerCompile t objectlib index actionIndex =>
    formatCompileActionId t objectlib index actionIndex
  | .final t => singleActionId t.label (finalAction t)
  | .generate r => singleActionId r.label (ascii "generate")
  | .run t => singleActionId t.label (ascii "run")

/-- The sources a consumer compiles: those of the libraries that ask for it. -/
theorem mem_consumerNodes_iff {g : Graph} {t : Target} {node : ActionNode} :
    node ∈ consumerNodes g t ↔ ∃ listIndex label objectlib index,
      t.objects[listIndex]? = some label ∧ findTarget g label = some objectlib ∧
      usesConsumerContext objectlib = true ∧ index < objectlib.sources.length ∧
      requiresCompile (sourceInfo objectlib index) = true ∧
      node = .consumerCompile t objectlib index (consumerCompileIndex g t listIndex index) := by
  simp only [consumerNodes, List.mem_flatten, List.mem_map, Prod.exists]
  constructor
  · rintro ⟨nodes, ⟨label, listIndex, hlabel, rfl⟩, hnode⟩
    have hmem : t.objects[listIndex]? = some label := List.mk_mem_zipIdx_iff_getElem?.mp hlabel
    unfold consumerNodesOf at hnode
    split at hnode
    · cases hnode
    · rename_i objectlib hfind
      split at hnode
      · rename_i hcontext
        simp only [List.mem_map, List.mem_filter, List.mem_range] at hnode
        obtain ⟨index, ⟨hlt, hcompile⟩, rfl⟩ := hnode
        exact ⟨listIndex, label, objectlib, index, hmem, hfind, hcontext, hlt, hcompile, rfl⟩
      · cases hnode
  · rintro ⟨listIndex, label, objectlib, index, hlabel, hfind, hcontext, hlt, hcompile, rfl⟩
    refine ⟨consumerNodesOf g t listIndex label, ⟨label, listIndex,
      List.mk_mem_zipIdx_iff_getElem?.mpr hlabel, rfl⟩, ?_⟩
    simp only [consumerNodesOf, hfind, hcontext, if_true, List.mem_map, List.mem_filter,
      List.mem_range]
    exact ⟨index, ⟨hlt, hcompile⟩, rfl⟩

theorem mem_consumerNodes {g : Graph} {t : Target} {node : ActionNode}
    (h : node ∈ consumerNodes g t) : ∃ listIndex label objectlib index,
      t.objects[listIndex]? = some label ∧ findTarget g label = some objectlib ∧
      index < objectlib.sources.length ∧ requiresCompile (sourceInfo objectlib index) = true ∧
      node = .consumerCompile t objectlib index (consumerCompileIndex g t listIndex index) := by
  obtain ⟨listIndex, label, objectlib, index, hlabel, hfind, -, hnode⟩ :=
    mem_consumerNodes_iff.mp h
  exact ⟨listIndex, label, objectlib, index, hlabel, hfind, hnode⟩

theorem mem_ownCompileIndices {t : Target} {index : Nat} (h : index ∈ ownCompileIndices t) :
    index < t.sources.length ∧ ownCompiled t index = true := by
  unfold ownCompileIndices at h
  split at h
  · cases h
  · simpa using h

/-- What a node that compiles or links a target is. -/
theorem mem_ownNodes {g : Graph} {t : Target} {node : ActionNode} (hnode : node ∈ ownNodes g t) :
    (t.cxxPrecompiledHeader ≠ [] ∧ node = .cxxPch t) ∨
    (∃ index ∈ ownCompileIndices t, node = .compile t index) ∨
    node ∈ consumerNodes g t ∨ (t.kind ≠ .objectlib ∧ node = .final t) := by
  simp only [ownNodes, List.mem_append, List.mem_map] at hnode
  rcases hnode with ((hpch | ⟨index, hindex, rfl⟩) | hconsumer) | hfinal
  · split at hpch
    · cases hpch
    · rename_i hheader
      exact .inl ⟨hheader, by simpa using hpch⟩
  · exact .inr (.inl ⟨index, hindex, rfl⟩)
  · exact .inr (.inr (.inl hconsumer))
  · split at hfinal
    · cases hfinal
    · rename_i hobjectlib
      exact .inr (.inr (.inr ⟨hobjectlib, by simpa using hfinal⟩))

/-- What a node of a target is. -/
theorem mem_targetNodes {h : Host} {g : Graph} {t : Target} {nodes : List ActionNode}
    {node : ActionNode} (hnodes : targetNodes h g t = .ok nodes) (hnode : node ∈ nodes) :
    (t.kind = .runTarget ∧ node = .run t) ∨
    (hasNoToolchain t = false ∧ validateTarget h g t = .ok () ∧ node ∈ ownNodes g t) := by
  unfold targetNodes at hnodes
  split at hnodes
  · rename_i hrun
    cases hnodes
    exact .inl ⟨hrun, by simpa using hnode⟩
  · split at hnodes
    · cases hnodes
      cases hnode
    · rename_i hkind
      right
      cases hvalid : validateTarget h g t with
      | error e =>
        rw [hvalid] at hnodes
        cases hnodes
      | ok u =>
        rw [hvalid] at hnodes
        cases hnodes
        exact ⟨by simpa using hkind, rfl, hnode⟩

theorem le_consumerCompileIndex (g : Graph) (t : Target) (listIndex sourceIndex : Nat) :
    t.sources.length ≤ consumerCompileIndex g t listIndex sourceIndex := by
  unfold consumerCompileIndex
  omega

theorem validateStrategies_of_validateTarget {h : Host} {g : Graph} {t : Target}
    (hvalid : validateTarget h g t = .ok ()) :
    validateStrategies g t (resolveToolchain g t) = .ok () := by
  unfold validateTarget at hvalid
  cases hstrategies : validateStrategies g t (resolveToolchain g t) with
  | error e =>
    simp only [hstrategies] at hvalid
    cases hvalid
  | ok u => rfl

end QStar.Lowering
