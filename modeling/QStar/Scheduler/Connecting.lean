import QStar.Scheduler.Edges

/-!
# What the edges are

Every function that connects nodes adds the edges of a relation and nothing else. Taken
together they connect a node with exactly those it waits for: the nodes of the producers
it names, and the other nodes of its own target that have to come first.
-/
namespace QStar.Scheduler.Connecting

open QStar.Lib.CStrings
open QStar.Lib.Results
open QStar.BuildGraph
open QStar.Lowering
open QStar.Scheduler.NodeGraph
open QStar.Scheduler.Discovery
open QStar.Scheduler.Edges

universe u

section Adds

variable {α : Type u} {s s' s'' : Sched α} {E E' : Nat → Nat → Prop}

/-- From `s` to `s'` the edges `E user dep` were added, provided that the nodes exist. -/
structure Adds (E : Nat → Nat → Prop) (s s' : Sched α) : Prop where
  infos : s'.nodes.map (·.info) = s.nodes.map (·.info)
  edges : (∀ n d, E n d → n < s.nodes.length ∧ d < s.nodes.length) →
    (Built s → Built s') ∧ ∀ n d, d ∈ s'.deps n ↔ d ∈ s.deps n ∨ E n d

theorem Adds.length (h : Adds E s s') : s'.nodes.length = s.nodes.length := by
  simpa using congrArg List.length h.infos

theorem Adds.refl (s : Sched α) : Adds (fun _ _ => False) s s := ⟨rfl, fun _ => ⟨id, by simp⟩⟩

theorem Adds.trans (h : Adds E s s') (h' : Adds E' s' s'') :
    Adds (fun n d => E n d ∨ E' n d) s s'' where
  infos := h'.infos.trans h.infos
  edges := by
    intro hrange
    obtain ⟨hbuilt, hdeps⟩ := h.edges fun n d hE => hrange n d (.inl hE)
    obtain ⟨hbuilt', hdeps'⟩ := h'.edges fun n d hE => by
      rw [h.length]
      exact hrange n d (.inr hE)
    refine ⟨fun hs => hbuilt' (hbuilt hs), ?_⟩
    intro n d
    rw [hdeps', hdeps, or_assoc]

theorem Adds.congr (h : Adds E s s') (hiff : ∀ n d, E n d ↔ E' n d) : Adds E' s s' := by
  have heq : E = E' := by
    funext n d
    exact propext (hiff n d)
  exact heq ▸ h

theorem adds_addEdge {dep user : Nat} (h : NodeGraph.addEdge s dep user = some s') :
    Adds (fun n d => n = user ∧ d = dep) s s' := by
  obtain ⟨hne, hlength, -⟩ := addEdge_length h
  constructor
  · apply List.ext_getElem?
    intro n
    rw [List.getElem?_map, List.getElem?_map]
    cases hn : s'.nodes[n]? with
    | none =>
      rw [List.getElem?_eq_none_iff, hlength, ← List.getElem?_eq_none_iff] at hn
      rw [hn]
    | some nd =>
      obtain ⟨old, hold, hinfo, -⟩ := addEdge_node h hn
      rw [hold, Option.map_some, Option.map_some, hinfo]
  · intro hrange
    obtain ⟨huser, hdep⟩ := hrange user dep ⟨rfl, rfl⟩
    refine ⟨fun hs => .edge hs hdep huser h, ?_⟩
    intro n d
    unfold Sched.deps
    cases hn : s'.nodes[n]? with
    | none =>
      rw [List.getElem?_eq_none_iff, hlength] at hn
      rw [List.getElem?_eq_none hn]
      have hlt : n ≠ user := by omega
      simp [hlt]
    | some nd =>
      obtain ⟨old, hold, -, -, hdeps, -⟩ := addEdge_node h hn
      rw [hold]
      simp only [Option.map_some, Option.getD_some, hdeps]
      by_cases hu : user = n
      · simp [hu, mem_indexListPush]
      · simp [hu, Ne.symm hu]

/-- A loop adds what its rounds add. -/
theorem adds_foldlM {ε : Type u} {β : Type} {f : Sched α → β → Except ε (Sched α)}
    {E : β → Nat → Nat → Prop} {xs : List β}
    (hf : ∀ x ∈ xs, ∀ s s', f s x = .ok s' → Adds (E x) s s') (h : xs.foldlM f s = .ok s') :
    Adds (fun n d => ∃ x ∈ xs, E x n d) s s' := by
  induction xs generalizing s with
  | nil =>
    cases h
    exact (Adds.refl _).congr (by simp)
  | cons x rest ih =>
    rw [List.foldlM_cons] at h
    cases hx : f s x with
    | error e =>
      rw [hx] at h
      cases h
    | ok mid =>
      rw [hx] at h
      have hfirst := hf x List.mem_cons_self s mid hx
      have hrest := ih (fun y hy => hf y (List.mem_cons_of_mem _ hy)) h
      exact (hfirst.trans hrest).congr (by simp)

end Adds

/-! ## What a node names -/

/-- The producer a target-file item names. -/
def ItemNames (g : Graph) (item : Bytes) (q : Producer) : Prop :=
  ∃ named, targetFileItem g item = .ok named ∧ q ∈ named

def GenruleItemNames (g : Graph) (r : Genrule) (item : Bytes) (q : Producer) : Prop :=
  ∃ named, genruleItem g r item = .ok named ∧ q ∈ named

/-- The generated actions that are consumed. -/
def ConsumedNames (g : Graph) (consumes : Genrule → Bool) (q : Producer) : Prop :=
  ∃ r ∈ g.genrules, consumes r = true ∧ q = .genrule r

/-- The producers that the usage inputs of the dependencies of a target name. -/
def UsageNames (g : Graph) (phase : UsagePhase) (t : Target) (q : Producer) : Prop :=
  ∃ usage, collectUsage g phase t = .ok usage ∧ ∃ item ∈ usage.inputs, ItemNames g item q

/-- The producer a label names, unless it is one of another package. -/
def LabelNames (g : Graph) (label : Bytes) (q : Producer) : Prop :=
  label.head? ≠ some 64 ∧ q ∈ labelProducer g label

/-- The producer an input of a run target names; a stage directory names its stage. -/
inductive RunInputNames (g : Graph) (item : Bytes) : Producer → Prop where
  | stage {label : Bytes} {s : Stage} (htoken : stageDirToken item = .payload label)
      (hs : findStage g label = some s) : RunInputNames g item (.stage s)
  | file {q : Producer} (htoken : stageDirToken item = .plain) (hq : ItemNames g item q) :
      RunInputNames g item q

/-- The producers a target of any kind names. -/
def DeclaredNames (g : Graph) (t : Target) (q : Producer) : Prop :=
  (∃ label ∈ t.objects ++ (t.deps ++ t.privateDeps), LabelNames g label q) ∨
    t.kind = .runTarget ∧ ((∃ word ∈ t.runCommand, ItemNames g word q) ∨
      ∃ item ∈ t.runInputs, RunInputNames g item q)

/-- The producers that a target which is compiled names besides. -/
def LinkNames (g : Graph) (t : Target) (q : Producer) : Prop :=
  ConsumedNames g (targetConsumesGenrule t) q ∨ UsageNames g .link t q ∨
    ∃ item ∈ t.linkInputs, ItemNames g item q

/-- The producers a target names. -/
def TargetNames (g : Graph) (t : Target) (q : Producer) : Prop :=
  DeclaredNames g t q ∨ hasNoToolchain t = false ∧ LinkNames g t q

/-- The producers a node names. -/
def Names (g : Graph) : SchedNode → Producer → Prop
  | .generate r, q => ∃ item ∈ r.tool :: r.inputs ++ r.args, GenruleItemNames g r item q
  | .stage s, q => ∃ item ∈ s.srcs, ItemNames g item q
  | .cxxPch t, q => ItemNames g t.cxxPrecompiledHeader q ∨ UsageNames g .compile t q
  | .compile t owner _ _, q =>
    ConsumedNames g (targetCompileConsumesGenrule owner) q ∨ UsageNames g .compile t q
  | .group t, q => TargetNames g t q
  | .run t, q => TargetNames g t q
  | .metadata t, q => TargetNames g t q
  | .objectlib t, q => TargetNames g t q
  | .final t, q => TargetNames g t q

/-- What a node waits for. -/
inductive Waits (g : Graph) : SchedNode → SchedNode → Prop where
  | producer {a : SchedNode} {q : Producer} (hq : Names g a q) : Waits g a (producerNode q)
  | object {t owner : Target} {i k : Nat} : Waits g (finalNode t) (.compile t owner i k)
  | header {t owner : Target} {i k : Nat} (hcxx : usesPch owner i = true) :
    Waits g (.compile t owner i k) (.cxxPch t)
  | interface {t owner owner' : Target} {i k i' k' : Nat} (hmodules : t.cxxModulesEnabled = true)
      (hinterface : isModuleInterface owner i = true) (hwaits : waitsForInterface i owner' i' = true)
      (hne : SchedNode.compile t owner' i' k' ≠ .compile t owner i k) :
    Waits g (.compile t owner' i' k') (.compile t owner i k)

theorem names_finalNode {g : Graph} {t : Target} {q : Producer} :
    Names g (finalNode t) q ↔ TargetNames g t q := by
  unfold finalNode
  cases t.kind <;> rfl

/-! ## What is added -/

/-- Where the node of a producer stands. -/
def node (p : Plan) : Producer → Option Nat
  | .target t => p.targetFinalNode t.label
  | .genrule r => p.genruleNode r.label
  | .stage s => p.stageNode s.label

/-- Edges to one node from the producers of a kind. -/
def From (p : Plan) (user : Nat) (Q : Producer → Prop) (n d : Nat) : Prop :=
  n = user ∧ ∃ q, Q q ∧ node p q = some d

section Connect

variable {g : Graph} {p : Plan} {t : Target} {user : Nat} {s s' : Sched SchedNode}

theorem from_exists {β : Type} {xs : List β} {Q : β → Producer → Prop} {n d : Nat} :
    (∃ x ∈ xs, From p user (Q x) n d) ↔ From p user (fun q => ∃ x ∈ xs, Q x q) n d := by
  constructor
  · rintro ⟨x, hx, hn, q, hq, hd⟩
    exact ⟨hn, q, ⟨x, hx, hq⟩, hd⟩
  · rintro ⟨hn, q, ⟨x, hx, hq⟩, hd⟩
    exact ⟨x, hx, hn, q, hq, hd⟩

theorem from_or {Q Q' : Producer → Prop} {n d : Nat} :
    From p user Q n d ∨ From p user Q' n d ↔ From p user (fun q => Q q ∨ Q' q) n d := by
  constructor
  · rintro (⟨hn, q, hq, hd⟩ | ⟨hn, q, hq, hd⟩)
    · exact ⟨hn, q, .inl hq, hd⟩
    · exact ⟨hn, q, .inr hq, hd⟩
  · rintro ⟨hn, q, hq | hq, hd⟩
    · exact .inl ⟨hn, q, hq, hd⟩
    · exact .inr ⟨hn, q, hq, hd⟩

theorem from_foldlM {β : Type} {xs : List β} {Q : β → Producer → Prop}
    {f : Sched SchedNode → β → Except ScheduleError (Sched SchedNode)}
    (hf : ∀ x s s', f s x = .ok s' → Adds (From p user (Q x)) s s') (h : xs.foldlM f s = .ok s') :
    Adds (From p user fun q => ∃ x ∈ xs, Q x q) s s' :=
  (adds_foldlM (fun x _ => hf x) h).congr fun _ _ => from_exists

theorem addEdge_adds {dep : Nat} (h : Edges.addEdge s dep user = .ok s') :
    Adds (fun n d => n = user ∧ d = dep) s s' := by
  unfold Edges.addEdge at h
  split at h
  · cases h
  · rename_i hadd
    cases h
    exact adds_addEdge hadd

theorem addEdgeFrom_adds {dep : Option Nat} {Q : Producer → Prop}
    (hdep : ∀ d, dep = some d ↔ ∃ q, Q q ∧ node p q = some d)
    (h : addEdgeFrom dep user s = .ok s') : Adds (From p user Q) s s' := by
  cases dep with
  | none =>
    cases h
    refine (Adds.refl s).congr fun n d => ?_
    simp [From, ← hdep]
  | some dep =>
    refine (addEdge_adds h).congr fun n d => ?_
    rw [From, ← hdep, Option.some.injEq]
    exact and_congr_right fun _ => eq_comm

/-- A label that names a target names no generated action. -/
theorem labelNode_eq_some {label : Bytes} {d : Nat} :
    p.labelNode g label = some d ↔ ∃ q, q ∈ labelProducer g label ∧ node p q = some d := by
  unfold Plan.labelNode labelProducer
  cases hfind : findTarget g label with
  | some t =>
    have hgenrule : findGenrule g label = none :=
      findTarget_label hfind ▸ findGenrule_target (findTarget_mem hfind)
    cases hnode : p.targetFinalNode t.label <;> simp [hnode, hgenrule, node]
  | none => cases findGenrule g label <;> simp [node]

theorem genruleNode_eq_some {owner : Option Genrule} {d : Nat} :
    (owner.bind fun r => p.genruleNode r.label) = some d ↔
      ∃ q, q ∈ owner.toList.map Producer.genrule ∧ node p q = some d := by
  cases owner <;> simp [node]

theorem targetFileItem_adds {item : Bytes}
    (h : addTargetFileItemEdge g p user s item = .ok s') :
    Adds (From p user (ItemNames g item)) s s' := by
  unfold addTargetFileItemEdge addItemEdge at h
  unfold ItemNames targetFileItem
  split at h <;> rename_i htoken
  · cases h
  · exact addEdgeFrom_adds (by simp [htoken, labelNode_eq_some]) h
  · exact addEdgeFrom_adds (by simp [htoken, genruleNode_eq_some, outputOwner]) h

theorem genruleItem_adds {r : Genrule} {item : Bytes}
    (h : addGenruleItemEdge g p r user s item = .ok s') :
    Adds (From p user (GenruleItemNames g r item)) s s' := by
  unfold addGenruleItemEdge addItemEdge at h
  unfold GenruleItemNames genruleItem
  split at h <;> rename_i htoken
  · cases h
  · exact addEdgeFrom_adds (by simp [htoken, labelNode_eq_some]) h
  · exact addEdgeFrom_adds (by simp [htoken, genruleNode_eq_some, Option.toList_filter]) h

theorem runInput_adds {item : Bytes} (h : addRunInputEdge g p user s item = .ok s') :
    Adds (From p user (RunInputNames g item)) s s' := by
  unfold addRunInputEdge at h
  split at h
  · cases h
  · rename_i label htoken
    split at h
    · cases h
    · rename_i st hst
      split at h
      · cases h
      · rename_i dep hdep
        refine (addEdge_adds h).congr fun n d => and_congr_right fun _ => ?_
        constructor
        · rintro rfl
          exact ⟨.stage st, .stage htoken hst, hdep⟩
        · rintro ⟨q, hq, hd⟩
          cases hq with
          | stage htoken' hst' =>
            rw [htoken, Token.payload.injEq] at htoken'
            rw [← htoken', hst, Option.some.injEq] at hst'
            rw [← hst', node, hdep, Option.some.injEq] at hd
            exact hd.symm
          | file htoken' hq =>
            rw [htoken] at htoken'
            cases htoken'
  · rename_i htoken
    refine (targetFileItem_adds h).congr fun n d => and_congr_right fun _ => ?_
    refine exists_congr fun q => and_congr_left fun _ => ?_
    constructor
    · exact .file htoken
    · intro hq
      cases hq with
      | stage htoken' =>
        rw [htoken] at htoken'
        cases htoken'
      | file _ hq => exact hq

theorem genrules_adds {consumes : Genrule → Bool} (h : connectGenrules g p consumes user s = .ok s') :
    Adds (From p user (ConsumedNames g consumes)) s s' := by
  have hadds := from_foldlM (p := p) (Q := fun r q => q = .genrule r)
    (fun r s s' h => addEdgeFrom_adds (by simp [node]) h) h
  refine hadds.congr fun n d => and_congr_right fun _ => exists_congr fun q =>
    and_congr_left fun _ => ?_
  simp [ConsumedNames, and_assoc]

theorem usage_adds {phase : UsagePhase}
    (h : connectDependencyUsageInputs g p t phase user s = .ok s') :
    Adds (From p user (UsageNames g phase t)) s s' := by
  unfold connectDependencyUsageInputs at h
  unfold UsageNames
  split at h
  · cases h
  · rename_i usage husage
    have hadds := from_foldlM (fun item s s' h => targetFileItem_adds h) h
    exact hadds.congr fun n d => by simp [husage]

theorem depList_adds {deps : List Bytes} (h : connectTargetDepList g p user deps s = .ok s') :
    Adds (From p user fun q => ∃ label ∈ deps, LabelNames g label q) s s' := by
  have hadds := from_foldlM (p := p) (Q := fun label q => q ∈ labelProducer g label)
    (fun label s s' h => addEdgeFrom_adds (fun _ => labelNode_eq_some) h) h
  refine hadds.congr fun n d => and_congr_right fun _ => exists_congr fun q =>
    and_congr_left fun _ => ?_
  simp [LabelNames, and_assoc]

theorem connectFinal_adds (h : connectFinal g p t user s = .ok s') :
    Adds (From p user (DeclaredNames g t)) s s' := by
  obtain ⟨s₁, h₁, h⟩ := bind_eq_ok.mp h
  obtain ⟨s₂, h₂, h⟩ := bind_eq_ok.mp h
  obtain ⟨s₃, h₃, h⟩ := bind_eq_ok.mp h
  obtain ⟨s₄, h₄, h⟩ := bind_eq_ok.mp h
  have hdeps := (depList_adds h₁).trans ((depList_adds h₂).trans (depList_adds h₃))
  unfold connectRunCommandEdges at h₄
  unfold connectRunInputEdges at h
  unfold DeclaredNames
  by_cases hkind : t.kind = .runTarget
  · rw [if_neg (by simp [hkind])] at h₄ h
    have hcommand := from_foldlM (fun item s s' h => targetFileItem_adds h) h₄
    have hinputs := from_foldlM (fun item s s' h => runInput_adds h) h
    refine (hdeps.trans (hcommand.trans hinputs)).congr fun n d => ?_
    simp only [from_or, hkind, true_and, List.mem_append, or_and_right, exists_or]
  · rw [if_pos hkind] at h₄ h
    cases h₄
    cases h
    refine hdeps.congr fun n d => ?_
    simp only [from_or, hkind, false_and, or_false, List.mem_append, or_and_right, exists_or]

/-- The edges at the compiles of a target. -/
def CompileEdges (g : Graph) (p : Plan) (t : Target) (final n d : Nat) : Prop :=
  ∃ c ∈ p.compiles t, (n = final ∧ d = c.index) ∨
    From p c.index (Names g (.compile t c.owner c.sourceIndex 0)) n d

/-- The edges at the precompiled header of a target. -/
def PchEdges (g : Graph) (p : Plan) (t : Target) (n d : Nat) : Prop :=
  ∃ j ∈ p.pchs t, From p j (Names g (.cxxPch t)) n d ∨
    ∃ c ∈ p.compiles t, usesPch c.owner c.sourceIndex = true ∧ n = c.index ∧ d = j

/-- The edges between the compiles of a target with module interfaces. -/
def ModuleEdges (p : Plan) (t : Target) (n d : Nat) : Prop :=
  t.cxxModulesEnabled = true ∧ ∃ c ∈ p.compiles t,
    isModuleInterface c.owner c.sourceIndex = true ∧ ∃ u ∈ p.compiles t, u.index ≠ c.index ∧
      waitsForInterface c.sourceIndex u.owner u.sourceIndex = true ∧ n = u.index ∧ d = c.index

theorem connectCompile_adds {c : CompileAt} (h : connectCompile g p t user s c = .ok s') :
    Adds (fun n d => (n = user ∧ d = c.index) ∨
      From p c.index (Names g (.compile t c.owner c.sourceIndex 0)) n d) s s' := by
  obtain ⟨s₁, h₁, h⟩ := bind_eq_ok.mp h
  obtain ⟨s₂, h₂, h⟩ := bind_eq_ok.mp h
  refine ((addEdge_adds h₁).trans ((genrules_adds h₂).trans (usage_adds h))).congr fun n d => ?_
  rw [from_or]
  rfl

theorem connectPch_adds {j : Nat} (h : connectPch g p t s j = .ok s') :
    Adds (fun n d => From p j (Names g (.cxxPch t)) n d ∨
      ∃ c ∈ p.compiles t, usesPch c.owner c.sourceIndex = true ∧ n = c.index ∧ d = j) s s' := by
  obtain ⟨s₁, h₁, h⟩ := bind_eq_ok.mp h
  obtain ⟨s₂, h₂, h⟩ := bind_eq_ok.mp h
  have hedges := adds_foldlM (E := fun c n d => n = c.index ∧ d = j)
    (fun c _ s s' h => addEdge_adds h) h
  refine ((targetFileItem_adds h₁).trans ((usage_adds h₂).trans hedges)).congr fun n d => ?_
  rw [← or_assoc, from_or]
  simp only [List.mem_filter, and_assoc]
  rfl

theorem connectModules_adds (h : connectModules p t s = .ok s') : Adds (ModuleEdges p t) s s' := by
  unfold connectModules at h
  unfold ModuleEdges
  split at h
  · rename_i hmodules
    have hedges := adds_foldlM
      (fun c _ s s' h => adds_foldlM (E := fun u n d => n = u.index ∧ d = c.index)
        (fun u _ s s' h => addEdge_adds h) h) h
    refine hedges.congr fun n d => ?_
    simp [hmodules, and_assoc]
  · rename_i hmodules
    cases h
    exact (Adds.refl s).congr (by simp [hmodules])

theorem connectBuilt_adds (h : connectBuilt g p t user s = .ok s') :
    Adds (fun n d => From p user (LinkNames g t) n d ∨
      (CompileEdges g p t user n d ∨ PchEdges g p t n d ∨ ModuleEdges p t n d)) s s' := by
  obtain ⟨s₁, h₁, h⟩ := bind_eq_ok.mp h
  obtain ⟨s₂, h₂, h⟩ := bind_eq_ok.mp h
  obtain ⟨s₃, h₃, h⟩ := bind_eq_ok.mp h
  obtain ⟨s₄, h₄, h⟩ := bind_eq_ok.mp h
  obtain ⟨s₅, h₅, h⟩ := bind_eq_ok.mp h
  have hnames := (genrules_adds h₁).trans ((usage_adds h₂).trans
    (from_foldlM (fun item s s' h => targetFileItem_adds h) h₃))
  have hinner := (adds_foldlM (fun c _ s s' h => connectCompile_adds h) h₄).trans
    ((adds_foldlM (fun j _ s s' h => connectPch_adds h) h₅).trans (connectModules_adds h))
  refine (hnames.trans hinner).congr fun n d => ?_
  rw [from_or, from_or]
  rfl

/-- The edges that are added for a target. -/
def TargetEdges (g : Graph) (p : Plan) (t : Target) (n d : Nat) : Prop :=
  ∃ final, node p (.target t) = some final ∧ (From p final (TargetNames g t) n d ∨
    hasNoToolchain t = false ∧
      (CompileEdges g p t final n d ∨ PchEdges g p t n d ∨ ModuleEdges p t n d))

theorem connectTarget_adds (h : connectTarget g p s t = .ok s') :
    Adds (TargetEdges g p t) s s' := by
  unfold connectTarget at h
  unfold TargetEdges TargetNames
  split at h
  · cases h
  · rename_i final hfinal
    obtain ⟨s₁, h₁, h⟩ := bind_eq_ok.mp h
    have hdeclared := connectFinal_adds h₁
    split at h <;> rename_i hkind
    · cases h
      exact hdeclared.congr fun n d => by simp [node, hfinal, hkind]
    · refine (hdeclared.trans (connectBuilt_adds h)).congr fun n d => ?_
      simp only [node, hfinal, Option.some.injEq, exists_eq_left', hkind, true_and, ← from_or,
        or_assoc]

/-- The edges that are added for a generated action or a stage. -/
def ProducerEdges (g : Graph) (p : Plan) (q : Producer) (n d : Nat) : Prop :=
  node p q = some n ∧ From p n (Names g (producerNode q)) n d

theorem producer_adds {q : Producer} {β : Type} {xs : List β} {Q : β → Producer → Prop}
    {f : Nat → Sched SchedNode → β → Except ScheduleError (Sched SchedNode)}
    (hf : ∀ n x s s', f n s x = .ok s' → Adds (From p n (Q x)) s s')
    (hnames : ∀ a, Names g (producerNode q) a ↔ ∃ x ∈ xs, Q x a)
    (h : (match node p q with
      | none => .ok s
      | some n => xs.foldlM (f n) s) = Except.ok s') : Adds (ProducerEdges g p q) s s' := by
  unfold ProducerEdges
  split at h <;> rename_i hnode
  · cases h
    exact (Adds.refl s).congr (by simp [hnode])
  · refine (from_foldlM (fun x s s' => hf _ x s s') h).congr fun n d => ?_
    constructor
    · rintro ⟨rfl, a, ha, hd⟩
      exact ⟨hnode, rfl, a, (hnames a).mpr ha, hd⟩
    · rintro ⟨hn, -, a, ha, hd⟩
      exact ⟨Option.some.inj (hn.symm.trans hnode), a, (hnames a).mp ha, hd⟩

/-- Connecting adds the edges of every generated action, stage and target that was found. -/
theorem connectNodes_adds {f : Found} (h : connectNodes g f p = .ok s') :
    Adds (fun n d => (∃ r ∈ g.genrules, ProducerEdges g p (.genrule r) n d) ∨
      (∃ st ∈ g.stages, ProducerEdges g p (.stage st) n d) ∨
      ∃ t ∈ f.targets, TargetEdges g p t n d) p.sched s' := by
  obtain ⟨s₁, h₁, h⟩ := bind_eq_ok.mp h
  obtain ⟨s₂, h₂, h⟩ := bind_eq_ok.mp h
  have hgenrules := adds_foldlM (E := fun r => ProducerEdges g p (.genrule r))
    (fun r _ s s' h => producer_adds (fun n item s s' h => genruleItem_adds h) (fun a => Iff.rfl) h)
    h₁
  have hstages := adds_foldlM (E := fun st => ProducerEdges g p (.stage st))
    (fun st _ s s' h => producer_adds (fun n item s s' h => targetFileItem_adds h)
      (fun a => Iff.rfl) h) h₂
  have htargets := adds_foldlM (fun t _ s s' h => connectTarget_adds h) h
  exact hgenrules.trans (hstages.trans htargets)

end Connect

end QStar.Scheduler.Connecting
