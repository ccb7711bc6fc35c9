import QStar.Scheduler.NodeGraph

/-!
# What completing a node changes

Completing a node marks it done and lowers the unfinished count of each pending
dependent; the dependents whose count reaches zero enter the ready queue. The
index lists of the graph never change during execution.
-/
namespace QStar.Scheduler.Completion

open QStar.Scheduler.NodeGraph

universe u

variable {α : Type u}

def stateOf (s : Sched α) (n : Nat) : Option NodeState := s.nodes[n]?.map (·.state)

/-- The part of a node that execution never changes. -/
def shapeOf (nd : Node α) : α × List Nat × List Nat := (nd.info, nd.deps, nd.outs)

/-- Two node arrays agree in length, payloads and index lists. -/
def SameShape (g s : Sched α) : Prop :=
  ∀ n : Nat, s.nodes[n]?.map shapeOf = g.nodes[n]?.map shapeOf

theorem SameShape.refl (g : Sched α) : SameShape g g := fun _ => rfl

theorem SameShape.trans {a b c : Sched α} (hab : SameShape a b) (hbc : SameShape b c) :
    SameShape a c := fun n => (hbc n).trans (hab n)

theorem SameShape.deps_eq {g s : Sched α} (h : SameShape g s) (n : Nat) :
    s.deps n = g.deps n := by
  have hshape := congrArg (Option.map (fun x : α × List Nat × List Nat => x.2.1)) (h n)
  simpa [Sched.deps, Option.map_map, Function.comp_def, shapeOf] using
    congrArg (·.getD []) hshape

theorem SameShape.outs_eq {g s : Sched α} (h : SameShape g s) (n : Nat) :
    s.outs n = g.outs n := by
  have hshape := congrArg (Option.map (fun x : α × List Nat × List Nat => x.2.2)) (h n)
  simpa [Sched.outs, Option.map_map, Function.comp_def, shapeOf] using
    congrArg (·.getD []) hshape

theorem SameShape.length_eq {g s : Sched α} (h : SameShape g s) :
    s.nodes.length = g.nodes.length := by
  have hlt : ∀ n, n < s.nodes.length ↔ n < g.nodes.length := by
    intro n
    have hsome := congrArg Option.isSome (h n)
    rw [Option.isSome_map, Option.isSome_map, Bool.eq_iff_iff] at hsome
    simpa using hsome
  have h1 := hlt s.nodes.length
  have h2 := hlt g.nodes.length
  omega

theorem sameShape_modify (s : Sched α) (n : Nat) {f : Node α → Node α}
    (hf : ∀ nd, shapeOf (f nd) = shapeOf nd) : SameShape s (s.modify n f) := by
  intro m
  simp only [Sched.modify, List.getElem?_modify]
  cases s.nodes[m]? with
  | none => rfl
  | some nd =>
    by_cases h : n = m <;> simp [h, hf]

/-- A pending node after one of its dependencies completed. -/
def released (nd : Node α) : Node α :=
  if nd.state = .pending then
    { nd with remaining := nd.remaining - 1,
              state := if nd.remaining - 1 = 0 then .ready else .pending }
  else nd

/-- The completed dependency was the last one. -/
def releases (nd : Node α) : Bool := nd.state = .pending ∧ nd.remaining - 1 = 0

theorem shape_released (nd : Node α) : shapeOf (released nd) = shapeOf nd := by
  unfold released shapeOf
  split <;> rfl

theorem releaseDependent_node (s : Sched α) (u m : Nat) :
    (releaseDependent s u).nodes[m]? =
      s.nodes[m]?.map (fun nd => if m = u then released nd else nd) := by
  unfold releaseDependent
  cases hu : s.nodes[u]? with
  | none =>
    by_cases hm : m = u
    · subst hm; simp [hu]
    · simp [hm]
  | some dep =>
    by_cases hm : m = u
    · subst hm
      by_cases hp : dep.state = .pending
      · by_cases hz : dep.remaining - 1 = 0 <;>
          simp [hp, hz, readyPush, Sched.modify, hu, released]
      · simp [hp, hu, released]
    · have hm' : u ≠ m := fun h => hm h.symm
      by_cases hp : dep.state = .pending
      · by_cases hz : dep.remaining - 1 = 0 <;>
          simp [hp, hz, readyPush, Sched.modify, hm, hm']
      · simp [hp, hm]

theorem releaseDependent_ready (s : Sched α) (u : Nat) :
    (releaseDependent s u).ready =
      s.ready ++ if s.nodes[u]?.any releases then [u] else [] := by
  unfold releaseDependent
  cases hu : s.nodes[u]? with
  | none => simp
  | some dep =>
    by_cases hp : dep.state = .pending
    · by_cases hz : dep.remaining - 1 = 0 <;>
        simp [hp, hz, readyPush, Sched.modify, releases]
    · simp [hp, releases]

/-- The loop over the dependents treats each of them once and nothing else. -/
theorem foldl_releaseDependent {us : List Nat} (hnodup : us.Nodup) (s : Sched α) :
    (∀ m : Nat, (us.foldl releaseDependent s).nodes[m]? =
      s.nodes[m]?.map (fun nd => if m ∈ us then released nd else nd)) ∧
    (us.foldl releaseDependent s).ready =
      s.ready ++ us.filter (fun u => s.nodes[u]?.any releases) := by
  induction us generalizing s with
  | nil => simp
  | cons u rest ih =>
    obtain ⟨hu, hrest⟩ := List.nodup_cons.mp hnodup
    obtain ⟨hnodes, hready⟩ := ih hrest (releaseDependent s u)
    constructor
    · intro m
      rw [List.foldl_cons, hnodes m, releaseDependent_node, Option.map_map]
      congr 1
      funext nd
      by_cases hm : m = u
      · subst hm; simp [hu]
      · simp [hm]
    · rw [List.foldl_cons, hready, releaseDependent_ready]
      have hsame : ∀ v ∈ rest, (releaseDependent s u).nodes[v]? = s.nodes[v]? := by
        intro v hv
        have hne : v ≠ u := by rintro rfl; exact hu hv
        rw [releaseDependent_node]
        simp [hne]
      have hfilter : rest.filter (fun v => (releaseDependent s u).nodes[v]?.any releases) =
          rest.filter (fun v => s.nodes[v]?.any releases) := by
        apply List.filter_congr
        intro v hv
        rw [hsame v hv]
      rw [hfilter, List.filter_cons, List.append_assoc]
      split <;> simp

/-- What completing node `n` does to the node at index `m`. -/
def afterComplete (outs : List Nat) (n m : Nat) (nd : Node α) : Node α :=
  if m = n then { nd with state := .done }
  else if m ∈ outs then released nd else nd

/-- `scheduler_complete_node` on a node without a self edge. -/
theorem completeNode_node {s : Sched α} {n : Nat} (hnodup : (s.outs n).Nodup)
    (hself : n ∉ s.outs n) (m : Nat) :
    (completeNode s n).nodes[m]? =
      s.nodes[m]?.map (afterComplete (s.outs n) n m) := by
  unfold completeNode
  rw [(foldl_releaseDependent hnodup _).1 m]
  simp only [Sched.setState, Sched.modify, List.getElem?_modify]
  cases s.nodes[m]? with
  | none => rfl
  | some nd =>
    by_cases hm : m = n
    · subst hm; simp [hself, afterComplete]
    · have hm' : n ≠ m := fun h => hm h.symm
      simp [hm, hm', afterComplete]

theorem completeNode_ready {s : Sched α} {n : Nat} (hnodup : (s.outs n).Nodup)
    (hself : n ∉ s.outs n) :
    (completeNode s n).ready =
      s.ready ++ (s.outs n).filter (fun u => s.nodes[u]?.any releases) := by
  unfold completeNode
  rw [(foldl_releaseDependent hnodup _).2]
  have hfilter : ∀ u ∈ s.outs n, (s.setState n .done).nodes[u]? = s.nodes[u]? := by
    intro u hu
    have hne : n ≠ u := by rintro rfl; exact hself hu
    simp [Sched.setState, Sched.modify, hne]
  congr 1
  apply List.filter_congr
  intro u hu
  rw [hfilter u hu]

theorem sameShape_completeNode {s : Sched α} {n : Nat} (hnodup : (s.outs n).Nodup)
    (hself : n ∉ s.outs n) : SameShape s (completeNode s n) := by
  intro m
  rw [completeNode_node hnodup hself, Option.map_map]
  congr 1
  funext nd
  simp only [Function.comp_apply, afterComplete]
  split
  · rfl
  · split
    · exact shape_released nd
    · rfl

/-- The number of done nodes. -/
def doneCount (s : Sched α) : Nat := s.nodes.countP (·.state = .done)

theorem countP_modify {β : Type u} (p : β → Bool) (l : List β) (n : Nat) (f : β → β)
    {x : β} (hx : l[n]? = some x) :
    (l.modify n f).countP p + (if p x then 1 else 0) =
      l.countP p + if p (f x) then 1 else 0 := by
  induction l generalizing n with
  | nil => simp at hx
  | cons y rest ih =>
    cases n with
    | zero =>
      simp only [List.getElem?_cons_zero, Option.some.injEq] at hx
      subst hx
      simp only [List.modify_zero_cons, List.countP_cons]
      omega
    | succ n =>
      simp only [List.getElem?_cons_succ] at hx
      have := ih n hx
      simp only [List.modify_succ_cons, List.countP_cons]
      omega

theorem doneCount_releaseDependent (s : Sched α) (u : Nat) :
    doneCount (releaseDependent s u) = doneCount s := by
  unfold releaseDependent
  cases hu : s.nodes[u]? with
  | none => rfl
  | some dep =>
    by_cases hp : dep.state = .pending
    · have hlow := countP_modify (fun nd : Node α => decide (nd.state = .done)) s.nodes u
        (fun nd => { nd with remaining := nd.remaining - 1 }) hu
      by_cases hz : dep.remaining - 1 = 0
      · have hmid : (s.nodes.modify u (fun nd => { nd with remaining := nd.remaining - 1 }))[u]? =
            some { dep with remaining := dep.remaining - 1 } := by
          simp [hu]
        have hready := countP_modify (fun nd : Node α => decide (nd.state = .done)) _ u
          (fun nd => { nd with state := .ready }) hmid
        simp only [hp, ne_eq, not_true_eq_false, if_false, hz, if_true]
        simp only [hp] at hlow hready
        simp only [doneCount, readyPush, Sched.modify]
        simp at hlow hready ⊢
        omega
      · simp only [hp, ne_eq, not_true_eq_false, if_false, hz]
        simp only [hp] at hlow
        simp only [doneCount, Sched.modify]
        simp at hlow ⊢
        omega
    · simp [hp]

theorem doneCount_completeNode {s : Sched α} {n : Nat} {nd : Node α}
    (hn : s.nodes[n]? = some nd) (hnot : nd.state ≠ .done) :
    doneCount (completeNode s n) = doneCount s + 1 := by
  have hfold : ∀ (us : List Nat) (t : Sched α),
      doneCount (us.foldl releaseDependent t) = doneCount t := by
    intro us
    induction us with
    | nil => intro t; rfl
    | cons u rest ih =>
      intro t
      rw [List.foldl_cons, ih, doneCount_releaseDependent]
  have hset := countP_modify (fun nd : Node α => decide (nd.state = .done)) s.nodes n
    (fun nd => { nd with state := .done }) hn
  unfold completeNode
  rw [hfold]
  simp only [doneCount, Sched.setState, Sched.modify]
  simp only [hnot, decide_false, Bool.false_eq_true, if_false, decide_true, if_true] at hset
  omega

end QStar.Scheduler.Completion
