import Mathlib.Data.List.Basic
import Mathlib.Data.List.Nodup
import Mathlib.Tactic.Common

/-!
# The scheduler's node graph

Nodes carry their dependency and dependent index lists, a count of unfinished
dependencies and a state; the scheduler adds a queue of ready indices. The
operations follow `scheduler_add_node`, `scheduler_add_edge`,
`scheduler_ready_push` and `scheduler_complete_node`. The payload of a node
(kind, target, indices) is a parameter. Allocation failure is not modelled.
-/
namespace QStar.Scheduler.NodeGraph

universe u

inductive NodeState where
  | pending
  | ready
  | running
  | done
  deriving DecidableEq, Repr

structure Node (α : Type u) where
  info : α
  state : NodeState
  remaining : Nat
  deps : List Nat
  outs : List Nat
  deriving DecidableEq

/-- The node array and the not yet popped part of the ready queue. -/
structure Sched (α : Type u) where
  nodes : List (Node α)
  ready : List Nat
  deriving DecidableEq

variable {α : Type u}

def Sched.empty : Sched α := ⟨[], []⟩

/-- `scheduler_add_node`: a pending node without edges at the next index. -/
def addNode (s : Sched α) (info : α) : Sched α :=
  { s with nodes := s.nodes ++ [⟨info, .pending, 0, [], []⟩] }

/-- `scheduler_index_list_push`: append unless already present. -/
def indexListPush (items : List Nat) (value : Nat) : List Nat :=
  if value ∈ items then items else items ++ [value]

def Node.pushDep (nd : Node α) (dep : Nat) : Node α :=
  { nd with deps := indexListPush nd.deps dep,
            remaining := (indexListPush nd.deps dep).length }

def Node.pushOut (nd : Node α) (user : Nat) : Node α :=
  { nd with outs := indexListPush nd.outs user }

def Sched.modify (s : Sched α) (n : Nat) (f : Node α → Node α) : Sched α :=
  { s with nodes := s.nodes.modify n f }

/-- `scheduler_add_edge`; `none` is the error "scheduler self dependency". -/
def addEdge (s : Sched α) (dep user : Nat) : Option (Sched α) :=
  if dep = user then none
  else some ((s.modify user (·.pushDep dep)).modify dep (·.pushOut user))

/-- `scheduler_ready_push` -/
def readyPush (s : Sched α) (n : Nat) : Sched α :=
  { s.modify n (fun nd => { nd with state := .ready }) with ready := s.ready ++ [n] }

/-- One round of the loop in `scheduler_complete_node` over the dependents. -/
def releaseDependent (s : Sched α) (out : Nat) : Sched α :=
  match s.nodes[out]? with
  | none => s
  | some dep =>
    if dep.state ≠ .pending then s
    else
      let s := s.modify out (fun nd => { nd with remaining := nd.remaining - 1 })
      if dep.remaining - 1 = 0 then readyPush s out else s

/-- The dependents recorded for a node. -/
def Sched.outs (s : Sched α) (n : Nat) : List Nat := (s.nodes[n]?.map (·.outs)).getD []

/-- The dependencies recorded for a node. -/
def Sched.deps (s : Sched α) (n : Nat) : List Nat := (s.nodes[n]?.map (·.deps)).getD []

def Sched.setState (s : Sched α) (n : Nat) (state : NodeState) : Sched α :=
  s.modify n (fun nd => { nd with state := state })

/-- `scheduler_complete_node` -/
def completeNode (s : Sched α) (n : Nat) : Sched α :=
  (s.outs n).foldl releaseDependent (s.setState n .done)

/-- The node graphs that `scheduler_add_node` and `scheduler_add_edge` build. -/
inductive Built : Sched α → Prop where
  | empty : Built .empty
  | node {s : Sched α} (info : α) : Built s → Built (addNode s info)
  | edge {s t : Sched α} {dep user : Nat} : Built s → dep < s.nodes.length →
      user < s.nodes.length → addEdge s dep user = some t → Built t

/-- What holds of a node graph before execution starts. -/
structure WellFormed (s : Sched α) : Prop where
  ready_empty : s.ready = []
  state_pending : ∀ (n : Nat) (nd : Node α), s.nodes[n]? = some nd → nd.state = .pending
  remaining_eq : ∀ (n : Nat) (nd : Node α), s.nodes[n]? = some nd → nd.remaining = nd.deps.length
  deps_nodup : ∀ (n : Nat) (nd : Node α), s.nodes[n]? = some nd → nd.deps.Nodup
  outs_nodup : ∀ (n : Nat) (nd : Node α), s.nodes[n]? = some nd → nd.outs.Nodup
  deps_lt : ∀ (n : Nat) (nd : Node α), s.nodes[n]? = some nd → ∀ d ∈ nd.deps, d < s.nodes.length
  outs_lt : ∀ (n : Nat) (nd : Node α), s.nodes[n]? = some nd → ∀ u ∈ nd.outs, u < s.nodes.length
  not_self : ∀ (n : Nat) (nd : Node α), s.nodes[n]? = some nd → n ∉ nd.deps
  converse : ∀ (m n : Nat) (nm nn : Node α), s.nodes[m]? = some nm → s.nodes[n]? = some nn →
    (m ∈ nn.deps ↔ n ∈ nm.outs)

theorem mem_indexListPush {items : List Nat} {value x : Nat} :
    x ∈ indexListPush items value ↔ x ∈ items ∨ x = value := by
  unfold indexListPush
  split
  · rename_i hmem
    constructor
    · exact Or.inl
    · rintro (h | rfl)
      · exact h
      · exact hmem
  · simp

theorem nodup_indexListPush {items : List Nat} {value : Nat} (h : items.Nodup) :
    (indexListPush items value).Nodup := by
  unfold indexListPush
  split
  · exact h
  · rename_i hmem
    rw [List.nodup_append]
    refine ⟨h, by simp, ?_⟩
    intro a ha b hb
    simp only [List.mem_singleton] at hb
    subst hb
    rintro rfl
    exact hmem ha

theorem wellFormed_empty : WellFormed (Sched.empty : Sched α) := by
  constructor <;> simp [Sched.empty]

theorem wellFormed_addNode {s : Sched α} (h : WellFormed s) (info : α) :
    WellFormed (addNode s info) := by
  have hcases : ∀ n nd, (addNode s info).nodes[n]? = some nd →
      s.nodes[n]? = some nd ∨
        (n = s.nodes.length ∧ nd = ⟨info, .pending, 0, [], []⟩) := by
    intro n nd hn
    simp only [addNode, List.getElem?_append] at hn
    split at hn
    · exact .inl hn
    · rename_i hge
      have : n - s.nodes.length = 0 := by
        by_contra hne
        rw [List.getElem?_eq_none (by simp; omega)] at hn
        cases hn
      rw [this] at hn
      refine .inr ⟨by omega, ?_⟩
      simpa using hn.symm
  have hlen : (addNode s info).nodes.length = s.nodes.length + 1 := by simp [addNode]
  have hlt : ∀ n nd, s.nodes[n]? = some nd → n < s.nodes.length := by
    intro n nd hn
    exact (List.getElem?_eq_some_iff.mp hn).1
  constructor
  · exact h.ready_empty
  · intro n nd hn
    rcases hcases n nd hn with hn | ⟨_, rfl⟩
    · exact h.state_pending n nd hn
    · rfl
  · intro n nd hn
    rcases hcases n nd hn with hn | ⟨_, rfl⟩
    · exact h.remaining_eq n nd hn
    · rfl
  · intro n nd hn
    rcases hcases n nd hn with hn | ⟨_, rfl⟩
    · exact h.deps_nodup n nd hn
    · exact List.nodup_nil
  · intro n nd hn
    rcases hcases n nd hn with hn | ⟨_, rfl⟩
    · exact h.outs_nodup n nd hn
    · exact List.nodup_nil
  · intro n nd hn d hd
    rcases hcases n nd hn with hn | ⟨_, rfl⟩
    · have := h.deps_lt n nd hn d hd
      omega
    · cases hd
  · intro n nd hn d hd
    rcases hcases n nd hn with hn | ⟨_, rfl⟩
    · have := h.outs_lt n nd hn d hd
      omega
    · cases hd
  · intro n nd hn
    rcases hcases n nd hn with hn | ⟨_, rfl⟩
    · exact h.not_self n nd hn
    · simp
  · intro m n nm nn hm hn
    rcases hcases m nm hm with hm | ⟨rfl, rfl⟩ <;> rcases hcases n nn hn with hn | ⟨rfl, rfl⟩
    · exact h.converse m n nm nn hm hn
    · constructor
      · intro hmem; cases hmem
      · intro hmem
        have := h.outs_lt m nm hm _ hmem
        omega
    · constructor
      · intro hmem
        have := h.deps_lt n nn hn _ hmem
        omega
      · intro hmem; cases hmem
    · simp

theorem getElem?_modify_some {l : List (Node α)} {n m : Nat} {f : Node α → Node α}
    {nd : Node α} (h : (l.modify n f)[m]? = some nd) :
    ∃ old, l[m]? = some old ∧ nd = if n = m then f old else old := by
  rw [List.getElem?_modify] at h
  cases hm : l[m]? with
  | none => simp [hm] at h
  | some old =>
    refine ⟨old, rfl, ?_⟩
    rw [hm] at h
    simpa using h.symm

/-- Inverts one added edge: every node of the new graph comes from the node at the
same index, with the two index lists extended at the ends of the edge. -/
theorem addEdge_node {s t : Sched α} {dep user : Nat} (h : addEdge s dep user = some t)
    {n : Nat} {nd : Node α} (hn : t.nodes[n]? = some nd) :
    ∃ old, s.nodes[n]? = some old ∧ nd.info = old.info ∧ nd.state = old.state ∧
      nd.deps = (if user = n then indexListPush old.deps dep else old.deps) ∧
      nd.outs = (if dep = n then indexListPush old.outs user else old.outs) ∧
      nd.remaining = (if user = n then (indexListPush old.deps dep).length
        else old.remaining) := by
  unfold addEdge at h
  split at h
  · cases h
  · rename_i hne
    cases h
    simp only [Sched.modify] at hn
    obtain ⟨mid, hmid, rfl⟩ := getElem?_modify_some hn
    obtain ⟨old, hold, rfl⟩ := getElem?_modify_some hmid
    refine ⟨old, hold, ?_⟩
    by_cases hu : user = n <;> by_cases hd : dep = n <;>
      simp [hu, hd, Node.pushDep, Node.pushOut]

theorem addEdge_length {s t : Sched α} {dep user : Nat} (h : addEdge s dep user = some t) :
    dep ≠ user ∧ t.nodes.length = s.nodes.length ∧ t.ready = s.ready := by
  unfold addEdge at h
  split at h
  · cases h
  · rename_i hne
    cases h
    exact ⟨hne, by simp [Sched.modify], rfl⟩

theorem wellFormed_addEdge {s t : Sched α} {dep user : Nat} (hs : WellFormed s)
    (hdep : dep < s.nodes.length) (huser : user < s.nodes.length)
    (h : addEdge s dep user = some t) : WellFormed t := by
  obtain ⟨hne, hlen, hready⟩ := addEdge_length h
  constructor
  · rw [hready]; exact hs.ready_empty
  · intro n nd hn
    obtain ⟨old, hold, -, hst, -⟩ := addEdge_node h hn
    rw [hst]; exact hs.state_pending n old hold
  · intro n nd hn
    obtain ⟨old, hold, -, -, hdeps, -, hrem⟩ := addEdge_node h hn
    rw [hrem, hdeps]
    split
    · rfl
    · exact hs.remaining_eq n old hold
  · intro n nd hn
    obtain ⟨old, hold, -, -, hdeps, -⟩ := addEdge_node h hn
    rw [hdeps]
    split
    · exact nodup_indexListPush (hs.deps_nodup n old hold)
    · exact hs.deps_nodup n old hold
  · intro n nd hn
    obtain ⟨old, hold, -, -, -, houts, -⟩ := addEdge_node h hn
    rw [houts]
    split
    · exact nodup_indexListPush (hs.outs_nodup n old hold)
    · exact hs.outs_nodup n old hold
  · intro n nd hn d hd
    obtain ⟨old, hold, -, -, hdeps, -⟩ := addEdge_node h hn
    rw [hlen]
    rw [hdeps] at hd
    split at hd
    · rcases mem_indexListPush.mp hd with hd | rfl
      · exact hs.deps_lt n old hold d hd
      · exact hdep
    · exact hs.deps_lt n old hold d hd
  · intro n nd hn d hd
    obtain ⟨old, hold, -, -, -, houts, -⟩ := addEdge_node h hn
    rw [hlen]
    rw [houts] at hd
    split at hd
    · rcases mem_indexListPush.mp hd with hd | rfl
      · exact hs.outs_lt n old hold d hd
      · exact huser
    · exact hs.outs_lt n old hold d hd
  · intro n nd hn hmem
    obtain ⟨old, hold, -, -, hdeps, -⟩ := addEdge_node h hn
    rw [hdeps] at hmem
    split at hmem
    · rename_i heq
      rcases mem_indexListPush.mp hmem with hmem | rfl
      · exact hs.not_self n old hold hmem
      · exact hne heq.symm
    · exact hs.not_self n old hold hmem
  · intro m n nm nn hm hn
    obtain ⟨om, hom, -, -, -, houts, -⟩ := addEdge_node h hm
    obtain ⟨on, hon, -, -, hdeps, -⟩ := addEdge_node h hn
    have hconv := hs.converse m n om on hom hon
    rw [hdeps, houts]
    by_cases hu : user = n <;> by_cases hd : dep = m <;>
      simp only [hu, hd, if_true, if_false, mem_indexListPush]
    · rw [hconv]
    · rw [hconv]
      constructor
      · rintro (h | rfl)
        · exact h
        · exact absurd rfl hd
      · exact Or.inl
    · rw [hconv]
      constructor
      · exact Or.inl
      · rintro (h | rfl)
        · exact h
        · exact absurd rfl hu
    · exact hconv

/-- Every node graph the scheduler builds is well formed. -/
theorem Built.wellFormed {s : Sched α} (h : Built s) : WellFormed s := by
  induction h with
  | empty => exact wellFormed_empty
  | node info _ ih => exact wellFormed_addNode ih info
  | edge _ hdep huser hedge ih => exact wellFormed_addEdge ih hdep huser hedge

end QStar.Scheduler.NodeGraph
