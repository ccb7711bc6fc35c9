import QStar.Scheduler.Completion

/-!
# Counts and states agree on the node array

During execution the unfinished count of a pending node is the number of its
dependencies that are not done, and a node leaves the pending state only after
all of them are. Completing a node and starting a node keep this.
-/
namespace QStar.Scheduler.Consistency

open QStar.Scheduler.NodeGraph
open QStar.Scheduler.Completion

universe u

variable {α : Type u} {g s : Sched α}

/-- How many entries of a dependency list are not done. -/
def unfinished (s : Sched α) (deps : List Nat) : Nat :=
  deps.countP (fun d => stateOf s d ≠ some .done)

structure Consistent (g s : Sched α) : Prop where
  shape : SameShape g s
  remaining_eq : ∀ (n : Nat) (nd : Node α), s.nodes[n]? = some nd → nd.state = .pending →
    nd.remaining = unfinished s nd.deps ∧ 0 < nd.remaining
  deps_done : ∀ (n : Nat) (nd : Node α), s.nodes[n]? = some nd → nd.state ≠ .pending →
    ∀ d ∈ nd.deps, stateOf s d = some .done

theorem stateOf_eq {n : Nat} {nd : Node α} (h : s.nodes[n]? = some nd) :
    stateOf s n = some nd.state := by
  simp [stateOf, h]

theorem stateOf_some {n : Nat} {st : NodeState} (h : stateOf s n = some st) :
    ∃ nd, s.nodes[n]? = some nd ∧ nd.state = st := by
  simpa [stateOf] using h

theorem deps_eq {n : Nat} {nd : Node α} (h : s.nodes[n]? = some nd) : s.deps n = nd.deps := by
  simp [Sched.deps, h]

theorem outs_eq {n : Nat} {nd : Node α} (h : s.nodes[n]? = some nd) : s.outs n = nd.outs := by
  simp [Sched.outs, h]

theorem deps_nodup (hg : WellFormed g) (hs : SameShape g s) (n : Nat) : (s.deps n).Nodup := by
  rw [hs.deps_eq]
  cases hn : g.nodes[n]? with
  | none => simp [Sched.deps, hn]
  | some nd =>
    rw [deps_eq hn]
    exact hg.deps_nodup n nd hn

theorem outs_nodup (hg : WellFormed g) (hs : SameShape g s) (n : Nat) : (s.outs n).Nodup := by
  rw [hs.outs_eq]
  cases hn : g.nodes[n]? with
  | none => simp [Sched.outs, hn]
  | some nd =>
    rw [outs_eq hn]
    exact hg.outs_nodup n nd hn

/-- The two index lists of the graph are converse to each other. -/
theorem mem_outs_iff (hg : WellFormed g) (hs : SameShape g s) (m n : Nat) :
    m ∈ s.outs n ↔ n ∈ s.deps m := by
  rw [hs.outs_eq, hs.deps_eq]
  cases hn : g.nodes[n]? with
  | none =>
    simp only [Sched.outs, hn, Option.map_none, Option.getD_none, List.not_mem_nil, false_iff]
    intro hmem
    cases hm : g.nodes[m]? with
    | none => simp [Sched.deps, hm] at hmem
    | some nm =>
      rw [deps_eq hm] at hmem
      have hlt := hg.deps_lt m nm hm n hmem
      rw [List.getElem?_eq_none_iff] at hn
      omega
  | some nn =>
    rw [outs_eq hn]
    cases hm : g.nodes[m]? with
    | none =>
      simp only [Sched.deps, hm, Option.map_none, Option.getD_none, List.not_mem_nil, iff_false]
      intro hmem
      have hlt := hg.outs_lt n nn hn m hmem
      rw [List.getElem?_eq_none_iff] at hm
      omega
    | some nm =>
      rw [deps_eq hm]
      exact (hg.converse n m nn nm hn hm).symm

theorem not_mem_outs_self (hg : WellFormed g) (hs : SameShape g s) (n : Nat) :
    n ∉ s.outs n := by
  rw [mem_outs_iff hg hs, hs.deps_eq]
  cases hn : g.nodes[n]? with
  | none => simp [Sched.deps, hn]
  | some nd =>
    rw [deps_eq hn]
    exact hg.not_self n nd hn

/-- The dependents whose count reaches zero when `n` completes. -/
def newlyReady (s : Sched α) (n : Nat) : List Nat :=
  (s.outs n).filter (fun u => s.nodes[u]?.any releases)

theorem mem_newlyReady {m n : Nat} : m ∈ newlyReady s n ↔
    m ∈ s.outs n ∧ ∃ nd, s.nodes[m]? = some nd ∧ nd.state = .pending ∧
      nd.remaining - 1 = 0 := by
  unfold newlyReady
  rw [List.mem_filter]
  cases hm : s.nodes[m]? with
  | none => simp
  | some nd => simp [releases]

theorem newlyReady_pending {m n : Nat} (h : m ∈ newlyReady s n) :
    stateOf s m = some .pending := by
  obtain ⟨-, nd, hm, hst, -⟩ := mem_newlyReady.mp h
  rw [stateOf_eq hm, hst]

theorem newlyReady_nodup (hg : WellFormed g) (hs : SameShape g s) (n : Nat) :
    (newlyReady s n).Nodup := (outs_nodup hg hs n).filter _

theorem ready_completeNode (hg : WellFormed g) (hs : SameShape g s) (n : Nat) :
    (completeNode s n).ready = s.ready ++ newlyReady s n :=
  completeNode_ready (outs_nodup hg hs n) (not_mem_outs_self hg hs n)

/-- The state of every node after `n` completes. -/
theorem stateOf_completeNode (hg : WellFormed g) (hs : SameShape g s) {n : Nat}
    (hn : (stateOf s n).isSome) (m : Nat) :
    stateOf (completeNode s n) m =
      if m = n then some .done
      else if m ∈ newlyReady s n then some .ready else stateOf s m := by
  unfold stateOf
  rw [completeNode_node (outs_nodup hg hs n) (not_mem_outs_self hg hs n), Option.map_map]
  cases hm : s.nodes[m]? with
  | none =>
    have hne : m ≠ n := by
      rintro rfl
      simp [stateOf, hm] at hn
    have hmem : m ∉ newlyReady s n := by
      intro h
      have := newlyReady_pending h
      simp [stateOf, hm] at this
    simp [hne, hmem]
  | some nd =>
    by_cases hmn : m = n
    · simp [hmn, afterComplete]
    · by_cases hout : m ∈ s.outs n
      · by_cases hp : nd.state = .pending
        · by_cases hz : nd.remaining - 1 = 0
          · have hmem : m ∈ newlyReady s n := mem_newlyReady.mpr ⟨hout, nd, hm, hp, hz⟩
            simp [hmn, afterComplete, hout, released, hp, hz, hmem]
          · have hmem : m ∉ newlyReady s n := by
              intro h
              obtain ⟨-, nd', hm', -, hz'⟩ := mem_newlyReady.mp h
              rw [hm] at hm'
              cases hm'
              exact hz hz'
            simp [hmn, afterComplete, hout, released, hp, hz, hmem]
        · have hmem : m ∉ newlyReady s n := by
            intro h
            have := newlyReady_pending h
            rw [stateOf_eq hm] at this
            exact hp (Option.some.inj this)
          simp [hmn, afterComplete, hout, released, hp, hmem]
      · have hmem : m ∉ newlyReady s n := fun h => hout (mem_newlyReady.mp h).1
        simp [hmn, afterComplete, hout, hmem]

theorem stateOf_completeNode_done (hg : WellFormed g) (hs : SameShape g s) {n : Nat}
    (hn : (stateOf s n).isSome) (m : Nat) :
    stateOf (completeNode s n) m = some .done ↔ m = n ∨ stateOf s m = some .done := by
  rw [stateOf_completeNode hg hs hn]
  by_cases hmn : m = n
  · simp [hmn]
  · by_cases hmem : m ∈ newlyReady s n
    · simp [hmn, hmem, newlyReady_pending hmem]
    · simp [hmn, hmem]

/-- Removing one value from a predicate lowers the count of a duplicate-free list by
one exactly when the value is in the list. -/
theorem countP_erase_value {p q : Nat → Bool} {n : Nat} (hp : p n = true)
    (hq : ∀ d, q d = (p d && decide (d ≠ n))) {l : List Nat} (hl : l.Nodup) :
    l.countP q + (if n ∈ l then 1 else 0) = l.countP p := by
  induction l with
  | nil => simp
  | cons d rest ih =>
    obtain ⟨hd, hrest⟩ := List.nodup_cons.mp hl
    have hstep := ih hrest
    by_cases hdn : d = n
    · subst hdn
      simp only [hd, if_false, Nat.add_zero] at hstep
      simp [hq, hp, hstep]
    · have hnd : ¬ n = d := fun h => hdn h.symm
      simp only [List.countP_cons, hq, hdn, ne_eq, not_false_eq_true, decide_true,
        Bool.and_true, List.mem_cons, hnd, false_or]
      omega

theorem unfinished_completeNode (hg : WellFormed g) (hs : SameShape g s) {n : Nat}
    {st : NodeState} (hn : stateOf s n = some st) (hst : st ≠ .done) {deps : List Nat}
    (hdeps : deps.Nodup) :
    unfinished (completeNode s n) deps + (if n ∈ deps then 1 else 0) = unfinished s deps := by
  unfold unfinished
  refine countP_erase_value (n := n) ?_ ?_ hdeps
  · simp [hn, hst]
  · intro d
    have hdone := stateOf_completeNode_done hg hs (n := n) (by simp [hn]) d
    by_cases hdn : d = n
    · subst hdn
      simp [hdone]
    · simp [hdn, hdone]

/-- Completing a started node keeps counts and states in agreement. -/
theorem consistent_completeNode (hg : WellFormed g) (h : Consistent g s) {n : Nat}
    {st : NodeState} (hn : stateOf s n = some st) (hpending : st ≠ .pending)
    (hdone : st ≠ .done) : Consistent g (completeNode s n) := by
  have hs := h.shape
  have hdoneIff := stateOf_completeNode_done hg hs (n := n) (by simp [hn])
  have hnode := completeNode_node (outs_nodup hg hs n) (not_mem_outs_self hg hs n)
  refine ⟨hs.trans (sameShape_completeNode (outs_nodup hg hs n) (not_mem_outs_self hg hs n)),
    ?_, ?_⟩
  · intro m nd hm hp
    rw [hnode, Option.map_eq_some_iff] at hm
    obtain ⟨old, hold, rfl⟩ := hm
    have hmn : m ≠ n := by
      rintro rfl
      simp [afterComplete] at hp
    have hnodup := deps_nodup hg hs m
    rw [deps_eq hold] at hnodup
    have hcount := unfinished_completeNode hg hs hn hdone hnodup
    have hmemOut := mem_outs_iff hg hs m n
    rw [deps_eq hold] at hmemOut
    by_cases hout : m ∈ s.outs n
    · have hold_pending : old.state = .pending := by
        by_contra hne
        simp [afterComplete, hmn, hout, released, hne] at hp
      obtain ⟨hrem, hpos⟩ := h.remaining_eq m old hold hold_pending
      have hnz : ¬ old.remaining - 1 = 0 := by
        intro hz
        simp [afterComplete, hmn, hout, released, hold_pending, hz] at hp
      simp only [hmemOut.mp hout, if_true] at hcount
      simp only [afterComplete, hmn, hout, released, hold_pending, if_true, if_false]
      omega
    · have hnot : n ∉ old.deps := fun hin => hout (hmemOut.mpr hin)
      simp only [hnot, if_false, Nat.add_zero] at hcount
      simp only [afterComplete, hmn, hout, if_false] at hp ⊢
      rw [hcount]
      exact h.remaining_eq m old hold hp
  · intro m nd hm hp d hd
    rw [hnode, Option.map_eq_some_iff] at hm
    obtain ⟨old, hold, rfl⟩ := hm
    rw [hdoneIff]
    have hdeps : (afterComplete (s.outs n) n m old).deps = old.deps := by
      unfold afterComplete released
      split
      · rfl
      · split
        · split <;> rfl
        · rfl
    rw [hdeps] at hd
    by_cases hold_pending : old.state = .pending
    · have hmn : m ≠ n := by
        rintro rfl
        rw [stateOf_eq hold] at hn
        exact hpending (by rw [← Option.some.inj hn, hold_pending])
      have hout : m ∈ s.outs n := by
        by_contra hout
        simp [afterComplete, hmn, hout, hold_pending] at hp
      have hz : old.remaining - 1 = 0 := by
        by_contra hz
        simp [afterComplete, hmn, hout, released, hold_pending, hz] at hp
      obtain ⟨hrem, hpos⟩ := h.remaining_eq m old hold hold_pending
      have hnodup := deps_nodup hg hs m
      rw [deps_eq hold] at hnodup
      have hcount := unfinished_completeNode hg hs hn hdone hnodup
      have hin : n ∈ old.deps := by
        have := (mem_outs_iff hg hs m n).mp hout
        rwa [deps_eq hold] at this
      simp only [hin, if_true] at hcount
      -- the last unfinished dependency was `n`, so all of them are done now
      have hzero : unfinished (completeNode s n) old.deps = 0 := by omega
      have hall := List.countP_eq_zero.mp hzero d hd
      rw [← hdoneIff]
      simpa using hall
    · exact .inr (h.deps_done m old hold hold_pending d hd)

theorem stateOf_setState {n : Nat} (hn : (stateOf s n).isSome) (st : NodeState) (m : Nat) :
    stateOf (s.setState n st) m = if m = n then some st else stateOf s m := by
  simp only [stateOf, Sched.setState, Sched.modify, List.getElem?_modify]
  by_cases hmn : m = n
  · subst hmn
    obtain ⟨nd, hnd, -⟩ := stateOf_some (Option.eq_some_of_isSome hn)
    simp [hnd]
  · have hnm : ¬ n = m := fun h => hmn h.symm
    simp [hmn, hnm]

theorem sameShape_setState (s : Sched α) (n : Nat) (st : NodeState) :
    SameShape s (s.setState n st) := sameShape_modify s n (fun _ => rfl)

/-- Moving a node between two states other than pending and done changes no count. -/
theorem consistent_setState (h : Consistent g s) {n : Nat} {old st : NodeState}
    (hn : stateOf s n = some old) (hold : old ≠ .pending ∧ old ≠ .done)
    (hst : st ≠ .pending ∧ st ≠ .done) : Consistent g (s.setState n st) := by
  have hstate := stateOf_setState (s := s) (n := n) (by simp [hn]) st
  have hdone : ∀ d, stateOf (s.setState n st) d = some .done ↔ stateOf s d = some .done := by
    intro d
    rw [hstate]
    by_cases hdn : d = n
    · subst hdn; simp [hn, hst.2, hold.2]
    · simp [hdn]
  have hunf : ∀ deps, unfinished (s.setState n st) deps = unfinished s deps := by
    intro deps
    unfold unfinished
    congr 1
    funext d
    simp [hdone d]
  have hnode : ∀ (m : Nat) (nd : Node α), (s.setState n st).nodes[m]? = some nd →
      ∃ o, s.nodes[m]? = some o ∧ nd = if n = m then { o with state := st } else o :=
    fun m nd hm => getElem?_modify_some hm
  refine ⟨h.shape.trans (sameShape_setState s n st), ?_, ?_⟩
  · intro m nd hm hp
    obtain ⟨o, ho, rfl⟩ := hnode m nd hm
    by_cases hnm : n = m
    · simp [hnm, hst.1] at hp
    · simp only [hnm, if_false] at hp ⊢
      rw [hunf]
      exact h.remaining_eq m o ho hp
  · intro m nd hm hp d hd
    obtain ⟨o, ho, rfl⟩ := hnode m nd hm
    rw [hdone]
    by_cases hnm : n = m
    · subst hnm
      simp only [if_true] at hd
      rw [stateOf_eq ho] at hn
      exact h.deps_done n o ho (by rw [Option.some.inj hn]; exact hold.1) d hd
    · simp only [hnm, if_false] at hp hd
      exact h.deps_done m o ho hp d hd

end QStar.Scheduler.Consistency
