import QStar.Scheduler.Connecting
import QStar.Lowering.Ids

/-!
# Where the nodes stand

The nodes of a schedule are those of the targets, generated actions and stages that were
found, each of them once, and what was noted while they were created is where the node
of each producer stands.
-/
namespace QStar.Scheduler.Creation

open QStar.Lib.CStrings
open QStar.Lib.Results
open QStar.BuildGraph
open QStar.Lowering
open QStar.Scheduler.NodeGraph
open QStar.Scheduler.Discovery
open QStar.Scheduler.Edges
open QStar.Scheduler.Connecting

/-! ## One node after the other -/

/-- The producer a node is the last node of. -/
def producerOf : SchedNode → Option Producer
  | .group t => some (.target t)
  | .run t => some (.target t)
  | .metadata t => some (.target t)
  | .objectlib t => some (.target t)
  | .final t => some (.target t)
  | .generate r => some (.genrule r)
  | .stage s => some (.stage s)
  | .cxxPch _ => none
  | .compile .. => none

/-- A node is added, and noted if something may wait for it. -/
def push (p : Plan) (a : SchedNode) : Plan :=
  match producerOf a with
  | some q => (p.note q).addNode a
  | none => p.addNode a

/-- The nodes of a target before its last one. -/
def innerNodes (g : Graph) (t : Target) : List SchedNode :=
  if hasNoToolchain t then [] else compileNodes g t

/-- The nodes of a target. -/
def targetSched (g : Graph) (t : Target) : List SchedNode := innerNodes g t ++ [finalNode t]

/-- The stages that were found, in the order of the graph. -/
def neededStages (g : Graph) (f : Found) : List Stage :=
  g.stages.filter fun s => f.stages.any fun o => o.label = s.label

/-- The nodes of a schedule in the order of their creation. -/
def schedule (g : Graph) (f : Found) : List SchedNode :=
  f.targets.flatMap (targetSched g) ++ ((g.genrules.filter f.needs).map SchedNode.generate ++
    (neededStages g f).map SchedNode.stage)

/-- The nodes that were created. -/
def infos (p : Plan) : List SchedNode := p.sched.nodes.map (·.info)

section Push

variable {h : Host} {g : Graph} {f : Found} {p : Plan} {t : Target} {a : SchedNode}
  {q : Producer}

theorem producerOf_producerNode : producerOf (producerNode q) = some q := by
  cases q with
  | target t =>
    simp only [producerNode, finalNode]
    cases t.kind <;> rfl
  | genrule r => rfl
  | stage s => rfl

theorem producerNode_inj {q' : Producer} (heq : producerNode q = producerNode q') : q = q' := by
  have hsome := congrArg producerOf heq
  rwa [producerOf_producerNode, producerOf_producerNode, Option.some.injEq] at hsome

theorem create_eq_push : p.create q = push p (producerNode q) := by
  simp only [Plan.create, push, producerOf_producerNode]

theorem mem_compileNodes (ha : a ∈ compileNodes g t) :
    (t.cxxPrecompiledHeader ≠ [] ∧ a = .cxxPch t) ∨
    (∃ i ∈ ownCompileIndices t, a = .compile t t i i) ∨
    ∃ objectlib i k, .consumerCompile t objectlib i k ∈ consumerNodes g t ∧
      a = .compile t objectlib i k := by
  simp only [compileNodes, List.mem_append, List.mem_map, List.mem_filterMap] at ha
  rcases ha with (hpch | ⟨i, hi, rfl⟩) | ⟨node, hnode, ha⟩
  · split at hpch
    · cases hpch
    · rename_i hheader
      exact .inl ⟨hheader, List.mem_singleton.mp hpch⟩
  · exact .inr (.inl ⟨i, hi, rfl⟩)
  · obtain ⟨listIndex, label, objectlib, i, -, -, -, -, rfl⟩ := mem_consumerNodes hnode
    cases ha
    exact .inr (.inr ⟨objectlib, i, _, hnode, rfl⟩)

theorem mem_innerNodes (ha : a ∈ innerNodes g t) :
    hasNoToolchain t = false ∧ a ∈ compileNodes g t := by
  unfold innerNodes at ha
  split at ha
  · cases ha
  · rename_i hkind
    exact ⟨by simpa using hkind, ha⟩

theorem producerOf_inner (ha : a ∈ innerNodes g t) : producerOf a = none := by
  rcases mem_compileNodes (mem_innerNodes ha).2 with ⟨-, rfl⟩ | ⟨i, -, rfl⟩ | ⟨o, i, k, -, rfl⟩ <;>
    rfl

theorem foldl_addNode {nodes : List SchedNode} (hnodes : ∀ a ∈ nodes, producerOf a = none) :
    nodes.foldl Plan.addNode p = nodes.foldl push p := by
  induction nodes generalizing p with
  | nil => rfl
  | cons a rest ih =>
    obtain ⟨ha, hrest⟩ := List.forall_mem_cons.mp hnodes
    rw [List.foldl_cons, List.foldl_cons, ih hrest]
    simp only [push, ha]

theorem createTargetNodes_eq {p' : Plan} (hp : createTargetNodes h g p t = .ok p') :
    p' = (targetSched g t).foldl push p := by
  have hcreated : p' = ((innerNodes g t).foldl Plan.addNode p).create (.target t) := by
    unfold createTargetNodes at hp
    unfold innerNodes
    split at hp <;> rename_i hkind
    · cases hp
      rw [if_pos hkind]
      rfl
    · obtain ⟨-, -, hp⟩ := bind_eq_ok.mp hp
      cases hp
      rw [if_neg hkind]
  rw [hcreated, create_eq_push, foldl_addNode fun a => producerOf_inner, targetSched,
    List.foldl_append]
  rfl

theorem createTargets_eq {targets : List Target} {p' : Plan}
    (hp : targets.foldlM (createTargetNodes h g) p = .ok p') :
    p' = (targets.flatMap (targetSched g)).foldl push p := by
  induction targets generalizing p with
  | nil =>
    cases hp
    rfl
  | cons t rest ih =>
    rw [List.foldlM_cons] at hp
    obtain ⟨mid, hmid, hp⟩ := bind_eq_ok.mp hp
    rw [ih hp, createTargetNodes_eq hmid, List.flatMap_cons, List.foldl_append]

/-- Creating the nodes is adding them one after the other. -/
theorem createNodes_eq (hp : createNodes h g f = .ok p) : p = (schedule g f).foldl push .empty := by
  obtain ⟨targets, htargets, hp⟩ := bind_eq_ok.mp hp
  cases hp
  rw [createTargets_eq htargets, schedule, List.foldl_append, List.foldl_append, List.foldl_map,
    List.foldl_map]
  simp only [createStageNodes, createGenruleNodes, create_eq_push]
  rfl

theorem infos_push : infos (push p a) = infos p ++ [a] := by
  unfold push
  split
  · rename_i q _
    cases q <;> simp [infos, Plan.note, Plan.addNode, NodeGraph.addNode]
  · simp [infos, Plan.addNode, NodeGraph.addNode]

theorem infos_foldl {nodes : List SchedNode} : infos (nodes.foldl push p) = infos p ++ nodes := by
  induction nodes generalizing p with
  | nil => simp
  | cons a rest ih => rw [List.foldl_cons, ih, infos_push, List.append_assoc, List.singleton_append]

/-- No edges are added with the nodes. -/
theorem sched_push : ∃ info, (push p a).sched = NodeGraph.addNode p.sched info := by
  unfold push
  split
  · rename_i q _
    cases q <;> exact ⟨_, rfl⟩
  · exact ⟨_, rfl⟩

theorem deps_addNode {s : Sched SchedNode} (hs : ∀ n, s.deps n = []) (info : SchedNode) (n : Nat) :
    (NodeGraph.addNode s info).deps n = [] := by
  have hn := hs n
  unfold Sched.deps NodeGraph.addNode at *
  rcases Nat.lt_trichotomy n s.nodes.length with hlt | rfl | hgt
  · rwa [List.getElem?_append_left hlt]
  · simp
  · rw [List.getElem?_eq_none (by simp; omega)]
    rfl

theorem built_foldl {nodes : List SchedNode} (hp : Built p.sched) (hdeps : ∀ n, p.sched.deps n = []) :
    Built (nodes.foldl push p).sched ∧ ∀ n, (nodes.foldl push p).sched.deps n = [] := by
  induction nodes generalizing p with
  | nil => exact ⟨hp, hdeps⟩
  | cons a rest ih =>
    obtain ⟨info, hinfo⟩ := sched_push (p := p) (a := a)
    rw [List.foldl_cons]
    apply ih <;> rw [hinfo]
    · exact .node info hp
    · exact deps_addNode hdeps info

end Push

/-! ## Each node once -/

section Nodup

variable {g : Graph} {f : Found} {t : Target} {a : SchedNode}

/-- The target of a node. -/
def targetOf : SchedNode → Option Target
  | .group t => some t
  | .run t => some t
  | .metadata t => some t
  | .cxxPch t => some t
  | .compile t _ _ _ => some t
  | .objectlib t => some t
  | .final t => some t
  | .generate _ => none
  | .stage _ => none

theorem targetOf_finalNode : targetOf (finalNode t) = some t := by
  unfold finalNode
  cases t.kind <;> rfl

theorem targetOf_mem (ha : a ∈ targetSched g t) : targetOf a = some t := by
  rcases List.mem_append.mp ha with ha | ha
  · rcases mem_compileNodes (mem_innerNodes ha).2 with ⟨-, rfl⟩ | ⟨i, -, rfl⟩ | ⟨o, i, k, -, rfl⟩ <;>
      rfl
  · rw [List.mem_singleton.mp ha, targetOf_finalNode]

/-- Its number tells a consumer-context compile of a target. -/
theorem consumerNodes_nodup : (consumerNodes g t).Nodup := by
  refine List.nodup_flatten.mpr ⟨?_, ?_⟩
  · intro nodes hnodes
    obtain ⟨⟨label, i⟩, -, rfl⟩ := List.mem_map.mp hnodes
    simp only [consumerNodesOf]
    split
    · exact List.nodup_nil
    · split
      · refine (List.nodup_range.filter _).map_on fun m _ n _ hmn => ?_
        exact (ActionNode.consumerCompile.inj hmn).2.2.1
      · exact List.nodup_nil
  · rw [List.pairwise_iff_getElem]
    intro i j hi hj hlt node hnode hnode'
    simp only [List.getElem_map, List.getElem_zipIdx, Nat.zero_add] at hnode hnode'
    simp only [List.length_map, List.length_zipIdx] at hi hj
    have hsize : ∀ k (hk : k < t.objects.length), ∀ node ∈ consumerNodesOf g t k t.objects[k],
        ∃ o m, m < objectlibSources g t.objects[k] ∧
          node = .consumerCompile t o m (consumerCompileIndex g t k m) := by
      intro k hk node hnode
      unfold consumerNodesOf at hnode
      unfold objectlibSources
      split at hnode
      · cases hnode
      · rename_i o ho
        split at hnode
        · obtain ⟨m, hm, rfl⟩ := List.mem_map.mp hnode
          exact ⟨o, m, List.mem_range.mp (List.mem_filter.mp hm).1, rfl⟩
        · cases hnode
    obtain ⟨o, m, hm, rfl⟩ := hsize i hi node hnode
    obtain ⟨o', n, hn, heq⟩ := hsize j hj _ hnode'
    obtain ⟨-, -, -, hindex⟩ := ActionNode.consumerCompile.inj heq
    unfold consumerCompileIndex at hindex
    rw [List.map_take, List.map_take] at hindex
    have hsizes : ∀ k, (hk : k < t.objects.length) →
        (t.objects.map (objectlibSources g))[k]? = some (objectlibSources g t.objects[k]) := by
      intro k hk
      rw [List.getElem?_map, List.getElem?_eq_getElem hk]
      rfl
    have hsame := (offset_inj (hsizes i hi) (hsizes j hj) hm hn (by omega)).1
    omega

theorem compileNodes_nodup (ht : t ∈ g.targets) : (compileNodes g t).Nodup := by
  have hown : (ownCompileIndices t).Nodup := by
    unfold ownCompileIndices
    split
    · exact List.nodup_nil
    · exact List.nodup_range.filter _
  refine List.nodup_append.mpr ⟨List.nodup_append.mpr ⟨?_, ?_, ?_⟩, ?_, ?_⟩
  · split <;> simp
  · exact hown.map_on fun i _ j _ hij => (SchedNode.compile.inj hij).2.2.1
  · intro a ha b hb
    obtain ⟨i, -, rfl⟩ := List.mem_map.mp hb
    split at ha
    · cases ha
    · rw [List.mem_singleton.mp ha]
      nofun
  · refine consumerNodes_nodup.filterMap ?_
    intro node node' b hb hb'
    split at hb <;> split at hb' <;> cases hb <;> cases hb'
    rfl
  · intro a ha b hb hab
    obtain ⟨node, hnode, hb⟩ := List.mem_filterMap.mp hb
    obtain ⟨k, label, o, i, hlabel, ho, -, -, rfl⟩ := mem_consumerNodes hnode
    cases hb
    have hne := objects_ne_self ht (List.mem_of_getElem? hlabel) ho
    rw [hab] at ha
    rcases List.mem_append.mp ha with ha | ha
    · split at ha
      · cases ha
      · cases List.mem_singleton.mp ha
    · obtain ⟨j, -, hj⟩ := List.mem_map.mp ha
      exact hne (congrArg Target.label (SchedNode.compile.inj hj).2.1).symm

theorem targetSched_nodup (ht : t ∈ g.targets) : (targetSched g t).Nodup := by
  refine List.nodup_append.mpr ⟨?_, List.nodup_singleton _, ?_⟩
  · unfold innerNodes
    split
    · exact List.nodup_nil
    · exact compileNodes_nodup ht
  · intro a ha b hb hab
    have hnone := producerOf_inner ha
    rw [hab, List.mem_singleton.mp hb, show finalNode t = producerNode (.target t) from rfl,
      producerOf_producerNode] at hnone
    cases hnone

/-- No two stages of a graph share a label: `qstar_graph_add_stage` rejects the second. -/
def StagesApart (g : Graph) : Prop := (g.stages.map Stage.label).Nodup

theorem schedule_nodup (hstages : StagesApart g) (htargets : ∀ t ∈ f.targets, t ∈ g.targets)
    (hnodup : f.targets.Nodup) : (schedule g f).Nodup := by
  refine List.nodup_append.mpr ⟨List.nodup_flatMap.mpr ⟨?_, ?_⟩, List.nodup_append.mpr ⟨?_, ?_, ?_⟩,
    ?_⟩
  · intro t ht
    exact targetSched_nodup (htargets t ht)
  · refine hnodup.imp fun hne a ha ha' => hne ?_
    exact Option.some.inj ((targetOf_mem ha).symm.trans (targetOf_mem ha'))
  · have hgenrules := (List.nodup_append.mp g.labels_nodup).2.1.of_map
    exact (hgenrules.filter _).map fun r r' h => SchedNode.generate.inj h
  · exact ((List.Nodup.of_map _ hstages).filter _).map fun s s' h => SchedNode.stage.inj h
  · intro a ha b hb hab
    obtain ⟨r, -, rfl⟩ := List.mem_map.mp ha
    obtain ⟨s, -, rfl⟩ := List.mem_map.mp hb
    cases hab
  · intro a ha b hb hab
    obtain ⟨t, -, ha⟩ := List.mem_flatMap.mp ha
    have htarget := targetOf_mem ha
    rw [hab] at htarget
    rcases List.mem_append.mp hb with hb | hb <;> obtain ⟨x, -, rfl⟩ := List.mem_map.mp hb <;>
      cases htarget

end Nodup

/-! ## What was noted -/

/-- Whether a producer is one of the graph. -/
def Known (g : Graph) : Producer → Prop
  | .target t => t ∈ g.targets
  | .genrule r => r ∈ g.genrules
  | .stage s => s ∈ g.stages

/-- What is noted of the producers of a graph is where their nodes stand. -/
def Located (g : Graph) (p : Plan) : Prop :=
  ∀ q, Known g q → ∀ n, node p q = some n ↔ (infos p)[n]? = some (producerNode q)

section Located

variable {h : Host} {g : Graph} {f : Found} {p : Plan} {a : SchedNode} {q q' : Producer}

theorem stage_eq_of_label (hstages : StagesApart g) {s s' : Stage} (hs : s ∈ g.stages)
    (hs' : s' ∈ g.stages) (hlabel : s.label = s'.label) : s = s' :=
  List.inj_on_of_nodup_map hstages hs hs' hlabel

theorem node_push_none (ha : producerOf a = none) : node (push p a) q = node p q := by
  unfold push
  rw [ha]
  cases q <;> rfl

theorem node_push_self : node (push p (producerNode q)) q = some (infos p).length := by
  rw [← create_eq_push]
  cases q <;> simp [Plan.create, Plan.note, Plan.addNode, node, infos]

/-- Labels tell the producers of a graph apart. -/
theorem node_push_ne (hstages : StagesApart g) (hq : Known g q) (hq' : Known g q') (hne : q' ≠ q) :
    node (push p (producerNode q)) q' = node p q' := by
  rw [← create_eq_push]
  cases q with
  | target t =>
    cases q' with
    | target t' =>
      refine Function.update_of_ne (fun hlabel => hne ?_) ..
      rw [eq_of_label hq' hq hlabel]
    | genrule r' => rfl
    | stage s' => rfl
  | genrule r =>
    cases q' with
    | target t' => rfl
    | genrule r' =>
      refine Function.update_of_ne (fun hlabel => hne ?_) ..
      have hfind := findGenrule_of_mem hq'
      rw [hlabel, findGenrule_of_mem hq, Option.some.injEq] at hfind
      rw [hfind]
    | stage s' => rfl
  | stage s =>
    cases q' with
    | target t' => rfl
    | genrule r' => rfl
    | stage s' =>
      refine Function.update_of_ne (fun hlabel => hne ?_) ..
      rw [stage_eq_of_label hstages hq' hq hlabel]

theorem getElem?_concat_eq_some {l : List SchedNode} {b : SchedNode} {n : Nat} :
    (l ++ [a])[n]? = some b ↔ l[n]? = some b ∨ n = l.length ∧ a = b := by
  rcases Nat.lt_trichotomy n l.length with hlt | rfl | hgt
  · have hne : n ≠ l.length := by omega
    simp [List.getElem?_append_left hlt, hne]
  · simp
  · have hne : n ≠ l.length := by omega
    rw [List.getElem?_eq_none (by simp; omega), List.getElem?_eq_none (by omega)]
    simp [hne]

theorem Located.push (hp : Located g p) (hstages : StagesApart g)
    (ha : ∀ q, producerOf a = some q → Known g q ∧ a = producerNode q) (hnew : a ∉ infos p) :
    Located g (push p a) := by
  intro q' hq' n
  rw [infos_push, getElem?_concat_eq_some]
  cases hof : producerOf a with
  | none =>
    rw [node_push_none hof, hp q' hq' n]
    refine (or_iff_left ?_).symm
    rintro ⟨-, rfl⟩
    rw [producerOf_producerNode] at hof
    cases hof
  | some q =>
    obtain ⟨hq, rfl⟩ := ha q hof
    by_cases heq : q' = q
    · subst heq
      rw [node_push_self, Option.some.injEq]
      constructor
      · exact fun hn => .inr ⟨hn.symm, rfl⟩
      · rintro (hn | ⟨hn, -⟩)
        · exact absurd (List.mem_of_getElem? hn) hnew
        · exact hn.symm
    · rw [node_push_ne hstages hq hq' heq, hp q' hq' n]
      refine (or_iff_left ?_).symm
      rintro ⟨-, hsame⟩
      exact heq (producerNode_inj hsame).symm

theorem located_foldl (hstages : StagesApart g) {nodes : List SchedNode} (hnodup : nodes.Nodup)
    (hknown : ∀ a ∈ nodes, ∀ q, producerOf a = some q → Known g q ∧ a = producerNode q) :
    Located g (nodes.foldl Creation.push .empty) := by
  induction nodes using List.reverseRecOn with
  | nil =>
    intro q _ n
    cases q <;> simp [node, infos, Plan.empty, Sched.empty]
  | append_singleton nodes a ih =>
    rw [List.foldl_append]
    obtain ⟨hbefore, -, hnew⟩ := List.nodup_append.mp hnodup
    refine (ih hbefore fun b hb => hknown b (List.mem_append_left _ hb)).push hstages
      (hknown a (by simp)) ?_
    rw [infos_foldl]
    intro hmem
    exact hnew a (by simpa [infos, Plan.empty, Sched.empty] using hmem) a (by simp) rfl

/-- What the schedule of what was found consists of. -/
theorem mem_schedule : a ∈ schedule g f ↔ (∃ t ∈ f.targets, a ∈ targetSched g t) ∨
    (∃ r ∈ g.genrules, f.needs r = true ∧ a = .generate r) ∨
    ∃ s ∈ neededStages g f, a = .stage s := by
  simp only [schedule, List.mem_append, List.mem_flatMap, List.mem_map, List.mem_filter, and_assoc,
    eq_comm (b := a)]

theorem known_of_mem (htargets : ∀ t ∈ f.targets, t ∈ g.targets) (ha : a ∈ schedule g f)
    (hq : producerOf a = some q) : Known g q ∧ a = producerNode q := by
  rcases mem_schedule.mp ha with ⟨t, ht, ha⟩ | ⟨r, hr, -, rfl⟩ | ⟨s, hs, rfl⟩
  · rcases List.mem_append.mp ha with ha | ha
    · rw [producerOf_inner ha] at hq
      cases hq
    · obtain rfl := List.mem_singleton.mp ha
      rw [show finalNode t = producerNode (.target t) from rfl, producerOf_producerNode,
        Option.some.injEq] at hq
      subst hq
      exact ⟨htargets t ht, rfl⟩
  · cases hq
    exact ⟨hr, rfl⟩
  · cases hq
    exact ⟨(List.mem_filter.mp hs).1, rfl⟩

/-- What the nodes of a schedule are created as. -/
structure Created (g : Graph) (f : Found) (p : Plan) : Prop where
  infos_eq : infos p = schedule g f
  located : Located g p
  built : Built p.sched
  no_deps : ∀ n, p.sched.deps n = []

theorem createNodes_spec (hstages : StagesApart g) (htargets : ∀ t ∈ f.targets, t ∈ g.targets)
    (hnodup : f.targets.Nodup) (hp : createNodes h g f = .ok p) : Created g f p := by
  obtain rfl := createNodes_eq hp
  obtain ⟨hbuilt, hdeps⟩ : Built ((schedule g f).foldl push .empty).sched ∧
      ∀ n, ((schedule g f).foldl push .empty).sched.deps n = [] := built_foldl .empty fun n => rfl
  refine ⟨?_, ?_, hbuilt, hdeps⟩
  · rw [infos_foldl]
    rfl
  · exact located_foldl hstages (schedule_nodup hstages htargets hnodup)
      fun a ha q hq => known_of_mem htargets ha hq

end Located

end QStar.Scheduler.Creation
