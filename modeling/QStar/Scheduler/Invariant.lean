import QStar.Scheduler.Consistency
import QStar.Scheduler.Execute

/-!
# The invariant of the ready-queue loop

Between two pops the queue holds exactly the ready nodes, the process slots hold
exactly the running ones, and the counters are the sizes of these sets. Inside a
round one node is held: popped from the queue or taken from its slot, and not
yet moved on.
-/
namespace QStar.Scheduler.Invariant

open QStar.Scheduler.NodeGraph
open QStar.Scheduler.Completion
open QStar.Scheduler.Consistency
open QStar.Scheduler.Execute

universe u

variable {α : Type u} {g : Sched α} {jobs : Nat} {e : Exec α}

/-- The edge relation of the node graph, from a dependency to its user. -/
def Edge (g : Sched α) (dep user : Nat) : Prop := dep ∈ g.deps user

/-- The nodes on which work was begun, in order. -/
def begun (e : Exec α) : List Nat := e.events.filterMap Event.begins

/-- The nodes reported as failed or cancelled, in order. -/
def spoiled (e : Exec α) : List Nat := e.events.filterMap Event.spoils

structure Coherent (g : Sched α) (jobs : Nat) (held : Option Nat) (e : Exec α) : Prop where
  consistent : Consistent g e.sched
  grounded : ∀ n st, stateOf e.sched n = some st → st ≠ .pending → Acc (Edge g) n
  ready_iff : ∀ n, n ∈ e.sched.ready ↔ stateOf e.sched n = some .ready ∧ held ≠ some n
  ready_nodup : e.sched.ready.Nodup
  live_iff : ∀ n, n ∈ e.live ↔ stateOf e.sched n = some .running ∧ held ≠ some n
  live_nodup : e.live.Nodup
  slots : e.running.length = jobs
  active_eq : e.active = e.live.length
  completed_eq : e.completed = doneCount e.sched
  begun_nodup : (begun e).Nodup
  begun_iff : ∀ n, n ∈ begun e ↔
    stateOf e.sched n = some .running ∨ stateOf e.sched n = some .done
  unspoiled : spoiled e = []

/-- The control point and the progress flag carry no part of the invariant. -/
theorem Coherent.control {held : Option Nat} (h : Coherent g jobs held e) (c : Control)
    (p : Bool) : Coherent g jobs held { e with control := c, progressed := p } :=
  ⟨h.consistent, h.grounded, h.ready_iff, h.ready_nodup, h.live_iff, h.live_nodup, h.slots,
    h.active_eq, h.completed_eq, h.begun_nodup, h.begun_iff, h.unspoiled⟩

theorem grounded_completeNode (hg : WellFormed g) {s : Sched α} (hs : Consistent g s)
    (hacc : ∀ n st, stateOf s n = some st → st ≠ .pending → Acc (Edge g) n) {n : Nat}
    {st : NodeState} (hn : stateOf s n = some st) (hpending : st ≠ .pending)
    (hdone : st ≠ .done) :
    ∀ m st', stateOf (completeNode s n) m = some st' → st' ≠ .pending → Acc (Edge g) m := by
  intro m st' hm hst'
  have hafter := consistent_completeNode hg hs hn hpending hdone
  have hdoneIff := stateOf_completeNode_done hg hs.shape (n := n) (by simp [hn])
  obtain ⟨nd, hnd, hstate⟩ := stateOf_some hm
  constructor
  intro d hd
  -- every dependency of a node that left the pending state is done by now
  have hdd : stateOf (completeNode s n) d = some .done := by
    refine hafter.deps_done m nd hnd (by rw [hstate]; exact hst') d ?_
    rw [← deps_eq hnd, hafter.shape.deps_eq]
    exact hd
  rcases (hdoneIff d).mp hdd with rfl | hd'
  · exact hacc d st hn hpending
  · exact hacc d .done hd' (by simp)

/-- Completing the held node releases it and every node it was the last blocker of. -/
theorem coherent_complete (hg : WellFormed g) {n : Nat} (h : Coherent g jobs (some n) e)
    {event : Event} (hspoils : event.spoils = none)
    (hstart : (stateOf e.sched n = some .ready ∧ event.begins = some n) ∨
      (stateOf e.sched n = some .running ∧ event.begins = none)) :
    Coherent g jobs none ((e.emit event).complete n) := by
  have hs := h.consistent.shape
  obtain ⟨st, hn, hpending, hdone⟩ :
      ∃ st, stateOf e.sched n = some st ∧ st ≠ .pending ∧ st ≠ .done := by
    rcases hstart with ⟨hn, -⟩ | ⟨hn, -⟩
    · exact ⟨_, hn, by simp, by simp⟩
    · exact ⟨_, hn, by simp, by simp⟩
  have hstate := stateOf_completeNode hg hs (n := n) (by simp [hn])
  have hready := ready_completeNode hg hs n
  have hne_new : n ∉ newlyReady e.sched n := by
    intro hmem
    have hp := newlyReady_pending hmem
    rw [hn] at hp
    exact hpending (Option.some.inj hp)
  constructor
  · exact consistent_completeNode hg h.consistent hn hpending hdone
  · exact grounded_completeNode hg h.consistent h.grounded hn hpending hdone
  · intro m
    show m ∈ (completeNode e.sched n).ready ↔ stateOf (completeNode e.sched n) m = _ ∧ _
    rw [hready, List.mem_append, hstate, h.ready_iff]
    by_cases hmn : m = n
    · subst hmn; simp [hne_new]
    · have hnm : ¬ n = m := fun h => hmn h.symm
      by_cases hnew : m ∈ newlyReady e.sched n <;> simp [hmn, hnm, hnew]
  · show (completeNode e.sched n).ready.Nodup
    rw [hready, List.nodup_append]
    refine ⟨h.ready_nodup, newlyReady_nodup hg hs n, ?_⟩
    intro a ha b hb
    rintro rfl
    have hp := newlyReady_pending hb
    rw [((h.ready_iff a).mp ha).1] at hp
    cases hp
  · intro m
    show m ∈ e.live ↔ stateOf (completeNode e.sched n) m = _ ∧ _
    rw [hstate, h.live_iff]
    by_cases hmn : m = n
    · subst hmn; simp
    · have hnm : ¬ n = m := fun h => hmn h.symm
      by_cases hnew : m ∈ newlyReady e.sched n
      · simp [hmn, hnew, newlyReady_pending hnew]
      · simp [hmn, hnm, hnew]
  · exact h.live_nodup
  · exact h.slots
  · exact h.active_eq
  · show e.completed + 1 = doneCount (completeNode e.sched n)
    obtain ⟨nd, hnd, hst⟩ := stateOf_some hn
    rw [doneCount_completeNode hnd (by rw [hst]; exact hdone), h.completed_eq]
  · show ((e.events ++ [event]).filterMap Event.begins).Nodup
    rw [List.filterMap_append]
    rcases hstart with ⟨hn, hb⟩ | ⟨-, hb⟩
    · have hfresh : n ∉ begun e := by
        rw [h.begun_iff, hn]; simp
      simp only [List.filterMap_cons, hb, List.filterMap_nil]
      rw [List.nodup_append]
      refine ⟨h.begun_nodup, by simp, ?_⟩
      intro a ha b hb'
      simp only [List.mem_singleton] at hb'
      subst hb'
      rintro rfl
      exact hfresh ha
    · simpa [hb, begun] using h.begun_nodup
  · intro m
    show m ∈ (e.events ++ [event]).filterMap Event.begins ↔
      stateOf (completeNode e.sched n) m = _ ∨ stateOf (completeNode e.sched n) m = _
    have hold := h.begun_iff m
    rw [hstate, List.filterMap_append, List.mem_append]
    show m ∈ begun e ∨ _ ↔ _
    rw [hold]
    by_cases hmn : m = n
    · subst hmn
      rcases hstart with ⟨hn, hb⟩ | ⟨hn, hb⟩
      · simp [hb]
      · simp [hn]
    · have hnot : m ∉ List.filterMap Event.begins [event] := by
        rcases hstart with ⟨-, hb⟩ | ⟨-, hb⟩ <;> simp [hb, hmn]
      by_cases hnew : m ∈ newlyReady e.sched n
      · simp [hmn, hnew, hnot, newlyReady_pending hnew]
      · simp [hmn, hnew, hnot]
  · show (e.events ++ [event]).filterMap Event.spoils = []
    rw [List.filterMap_append]
    have := h.unspoiled
    unfold spoiled at this
    simp [this, hspoils]

/-- Changing the ready queue leaves the node array consistent. -/
theorem consistent_ready {s : Sched α} (h : Consistent g s) (ready : List Nat) :
    Consistent g { s with ready := ready } := ⟨h.shape, h.remaining_eq, h.deps_done⟩

theorem coherent_pop (h : Coherent g jobs none e) {n : Nat} {rest : List Nat}
    (hready : e.sched.ready = n :: rest) :
    stateOf e.sched n = some .ready ∧
      Coherent g jobs (some n) { e with sched := { e.sched with ready := rest } } := by
  have hnodup := h.ready_nodup
  rw [hready] at hnodup
  obtain ⟨hn, hrest⟩ := List.nodup_cons.mp hnodup
  have hstate : stateOf e.sched n = some .ready :=
    ((h.ready_iff n).mp (by rw [hready]; exact List.mem_cons_self)).1
  refine ⟨hstate, ?_⟩
  constructor
  · exact consistent_ready h.consistent rest
  · exact h.grounded
  · intro m
    show m ∈ rest ↔ stateOf e.sched m = _ ∧ _
    have hm := h.ready_iff m
    rw [hready, List.mem_cons] at hm
    by_cases hmn : m = n
    · subst hmn; simp [hn]
    · have hnm : ¬ n = m := fun h => hmn h.symm
      simpa [hmn, hnm] using hm
  · exact hrest
  · intro m
    show m ∈ e.live ↔ stateOf e.sched m = _ ∧ _
    rw [h.live_iff]
    by_cases hmn : n = m
    · subst hmn; simp [hstate]
    · simp [hmn]
  · exact h.live_nodup
  · exact h.slots
  · exact h.active_eq
  · exact h.completed_eq
  · exact h.begun_nodup
  · exact h.begun_iff
  · exact h.unspoiled

theorem coherent_repush {n : Nat} (h : Coherent g jobs (some n) e)
    (hn : stateOf e.sched n = some .ready) :
    Coherent g jobs none { e with sched := readyPush e.sched n } := by
  have hstate : ∀ m, stateOf (readyPush e.sched n) m = stateOf e.sched m := by
    intro m
    have := stateOf_setState (s := e.sched) (n := n) (by simp [hn]) .ready m
    show stateOf (e.sched.setState n .ready) m = _
    rw [this]
    by_cases hmn : m = n
    · simp [hmn, hn]
    · simp [hmn]
  have hnot : n ∉ e.sched.ready := by
    rw [h.ready_iff]; simp
  constructor
  · exact consistent_ready (consistent_setState h.consistent hn (by simp) (by simp)) _
  · intro m st hm
    change stateOf (readyPush e.sched n) m = _ at hm
    rw [hstate] at hm
    exact h.grounded m st hm
  · intro m
    show m ∈ e.sched.ready ++ [n] ↔ stateOf (readyPush e.sched n) m = _ ∧ _
    rw [hstate, List.mem_append, h.ready_iff, List.mem_singleton]
    by_cases hmn : m = n
    · subst hmn; simp [hn]
    · have hnm : ¬ n = m := fun h => hmn h.symm
      simp [hmn, hnm]
  · show (e.sched.ready ++ [n]).Nodup
    rw [List.nodup_append]
    refine ⟨h.ready_nodup, by simp, ?_⟩
    intro a ha b hb
    simp only [List.mem_singleton] at hb
    subst hb
    rintro rfl
    exact hnot ha
  · intro m
    show m ∈ e.live ↔ stateOf (readyPush e.sched n) m = _ ∧ _
    rw [hstate, h.live_iff]
    by_cases hmn : n = m
    · subst hmn; simp [hn]
    · simp [hmn]
  · exact h.live_nodup
  · exact h.slots
  · exact h.active_eq
  · show e.completed = doneCount (readyPush e.sched n)
    obtain ⟨nd, hnd, hst⟩ := stateOf_some hn
    have := countP_modify (fun nd : Node α => decide (nd.state = .done)) e.sched.nodes n
      (fun nd => { nd with state := .ready }) hnd
    simp only [hst] at this
    simp only [doneCount, readyPush, Sched.modify, h.completed_eq]
    simpa using this.symm
  · exact h.begun_nodup
  · intro m
    show m ∈ begun e ↔ stateOf (readyPush e.sched n) m = _ ∨
      stateOf (readyPush e.sched n) m = _
    rw [hstate]
    exact h.begun_iff m
  · exact h.unspoiled

/-- Filling a free slot adds its node to the live ones. -/
theorem live_fill {running : List (Option Nat)} {slot n : Nat}
    (h : running[slot]? = some none) :
    ((running.set slot (some n)).filterMap id).Perm (n :: running.filterMap id) := by
  induction running generalizing slot with
  | nil => simp at h
  | cons r rest ih =>
    cases slot with
    | zero =>
      simp only [List.getElem?_cons_zero, Option.some.injEq] at h
      subst h
      simp
    | succ slot =>
      simp only [List.getElem?_cons_succ] at h
      cases r with
      | none => simpa using ih h
      | some m =>
        simp only [List.set_cons_succ, List.filterMap_cons, id_eq]
        exact ((ih h).cons m).trans (List.Perm.swap n m _)

/-- Emptying a slot removes its node from the live ones. -/
theorem live_clear {running : List (Option Nat)} {slot n : Nat}
    (h : running[slot]? = some (some n)) :
    (running.filterMap id).Perm (n :: (running.set slot none).filterMap id) := by
  induction running generalizing slot with
  | nil => simp at h
  | cons r rest ih =>
    cases slot with
    | zero =>
      simp only [List.getElem?_cons_zero, Option.some.injEq] at h
      subst h
      simp
    | succ slot =>
      simp only [List.getElem?_cons_succ] at h
      cases r with
      | none => simpa using ih h
      | some m =>
        simp only [List.set_cons_succ, List.filterMap_cons, id_eq]
        exact ((ih h).cons m).trans (List.Perm.swap n m _)

theorem findFreeSlot_free {running : List (Option Nat)}
    (h : findFreeSlot running < running.length) :
    running[findFreeSlot running]? = some none := by
  rw [List.getElem?_eq_getElem h]
  exact congrArg some (of_decide_eq_true (List.findIdx_getElem (w := h)))

theorem coherent_spawn {n slot : Nat} (h : Coherent g jobs (some n) e)
    (hn : stateOf e.sched n = some .ready) (hslot : e.running[slot]? = some none) :
    Coherent g jobs none
      ({ e with sched := e.sched.setState n .running, active := e.active + 1,
                running := e.running.set slot (some n), progressed := true }.emit
        (.spawned n)) := by
  have hstate := stateOf_setState (s := e.sched) (n := n) (by simp [hn]) .running
  have hperm := live_fill (n := n) hslot
  have hnot : n ∉ e.live := by
    rw [h.live_iff, hn]; simp
  constructor
  · exact consistent_setState h.consistent hn (by simp) (by simp)
  · intro m st hm hst
    change stateOf (e.sched.setState n .running) m = _ at hm
    rw [hstate] at hm
    by_cases hmn : m = n
    · subst hmn; exact h.grounded m .ready hn (by simp)
    · simp only [hmn, if_false] at hm
      exact h.grounded m st hm hst
  · intro m
    show m ∈ e.sched.ready ↔ stateOf (e.sched.setState n .running) m = _ ∧ _
    rw [hstate, h.ready_iff]
    by_cases hmn : m = n
    · subst hmn; simp
    · have hnm : ¬ n = m := fun h => hmn h.symm
      simp [hmn, hnm]
  · exact h.ready_nodup
  · intro m
    show m ∈ (e.running.set slot (some n)).filterMap id ↔
      stateOf (e.sched.setState n .running) m = _ ∧ _
    rw [hperm.mem_iff, List.mem_cons, hstate]
    show m = n ∨ m ∈ e.live ↔ _
    rw [h.live_iff]
    by_cases hmn : m = n
    · subst hmn; simp
    · have hnm : ¬ n = m := fun h => hmn h.symm
      simp [hmn, hnm]
  · show ((e.running.set slot (some n)).filterMap id).Nodup
    rw [hperm.nodup_iff, List.nodup_cons]
    exact ⟨hnot, h.live_nodup⟩
  · show (e.running.set slot (some n)).length = jobs
    rw [List.length_set, h.slots]
  · show e.active + 1 = ((e.running.set slot (some n)).filterMap id).length
    rw [hperm.length_eq, List.length_cons, h.active_eq]
    rfl
  · show e.completed = doneCount (e.sched.setState n .running)
    obtain ⟨nd, hnd, hst⟩ := stateOf_some hn
    have := countP_modify (fun nd : Node α => decide (nd.state = .done)) e.sched.nodes n
      (fun nd => { nd with state := .running }) hnd
    simp only [hst] at this
    simp only [doneCount, Sched.setState, Sched.modify, h.completed_eq]
    simpa using this.symm
  · show ((e.events ++ [Event.spawned n]).filterMap Event.begins).Nodup
    have hfresh : n ∉ begun e := by
      rw [h.begun_iff, hn]; simp
    rw [List.filterMap_append, List.nodup_append]
    refine ⟨h.begun_nodup, by simp [Event.begins], ?_⟩
    intro a ha b hb
    simp only [List.filterMap_cons, Event.begins, List.filterMap_nil, List.mem_singleton] at hb
    subst hb
    rintro rfl
    exact hfresh ha
  · intro m
    show m ∈ (e.events ++ [Event.spawned n]).filterMap Event.begins ↔
      stateOf (e.sched.setState n .running) m = _ ∨ stateOf (e.sched.setState n .running) m = _
    have hold := h.begun_iff m
    rw [hstate, List.filterMap_append, List.mem_append]
    show m ∈ begun e ∨ _ ↔ _
    rw [hold]
    by_cases hmn : m = n
    · subst hmn; simp [Event.begins]
    · simp [hmn, Event.begins]
  · show (e.events ++ [Event.spawned n]).filterMap Event.spoils = []
    have := h.unspoiled
    unfold spoiled at this
    simp [this, Event.spoils]

/-- Taking the exited process out of its slot holds its node. -/
theorem coherent_take (h : Coherent g jobs none e) {n slot : Nat}
    (hslot : e.running[slot]? = some (some n)) :
    stateOf e.sched n = some .running ∧ 0 < e.active ∧
      Coherent g jobs (some n)
        { e with running := e.running.set slot none, active := e.active - 1 } := by
  have hperm := live_clear hslot
  have hlive : n ∈ e.live := by
    show n ∈ e.running.filterMap id
    rw [hperm.mem_iff]
    exact List.mem_cons_self
  have hn : stateOf e.sched n = some .running := ((h.live_iff n).mp hlive).1
  have hlen : e.live.length = ((e.running.set slot none).filterMap id).length + 1 := by
    show (e.running.filterMap id).length = _
    rw [hperm.length_eq, List.length_cons]
  have hactive := h.active_eq
  have hnodup := h.live_nodup
  change (e.running.filterMap id).Nodup at hnodup
  rw [hperm.nodup_iff, List.nodup_cons] at hnodup
  refine ⟨hn, by omega, ?_⟩
  constructor
  · exact h.consistent
  · exact h.grounded
  · intro m
    show m ∈ e.sched.ready ↔ _
    rw [h.ready_iff]
    by_cases hmn : n = m
    · subst hmn; simp [hn]
    · simp [hmn]
  · exact h.ready_nodup
  · intro m
    show m ∈ (e.running.set slot none).filterMap id ↔ stateOf e.sched m = _ ∧ _
    have hm := h.live_iff m
    change m ∈ e.running.filterMap id ↔ _ at hm
    rw [hperm.mem_iff, List.mem_cons] at hm
    by_cases hmn : m = n
    · subst hmn
      simp only [hnodup.1, ne_eq, not_true_eq_false, and_false]
    · have hnm : ¬ n = m := fun h => hmn h.symm
      simpa [hmn, hnm] using hm
  · exact hnodup.2
  · show (e.running.set slot none).length = jobs
    rw [List.length_set, h.slots]
  · show e.active - 1 = ((e.running.set slot none).filterMap id).length
    omega
  · exact h.completed_eq
  · exact h.begun_nodup
  · exact h.begun_iff
  · exact h.unspoiled

end QStar.Scheduler.Invariant
