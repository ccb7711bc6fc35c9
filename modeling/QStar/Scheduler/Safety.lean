import QStar.Scheduler.Invariant
import QStar.Lib.Cycles

/-!
# Safety of every run

Each step keeps the loop invariant or returns, and what a returned run leaves
behind is recorded together with the cause of its result: a stall exhibits a
cycle, any other action failure leaves some node unfinished, and only a run that
finished every node reaches the deferred depfile refresh.
-/
namespace QStar.Scheduler.Safety

open QStar.Lib.Cycles
open QStar.Scheduler.NodeGraph
open QStar.Scheduler.Completion
open QStar.Scheduler.Consistency
open QStar.Scheduler.Execute
open QStar.Scheduler.Invariant

universe u

variable {α : Type u} {g : Sched α} {jobs : Nat} {e : Exec α}

def AllDone (s : Sched α) : Prop := ∀ n, n < s.nodes.length → stateOf s n = some .done

/-- The facts about a run that survive its return. -/
structure Recorded (g : Sched α) (e : Exec α) : Prop where
  shape : SameShape g e.sched
  grounded : ∀ n st, stateOf e.sched n = some st → st ≠ .pending → Acc (Edge g) n
  completed_eq : e.completed = doneCount e.sched
  begun_nodup : (begun e).Nodup
  begun_deps : ∀ n ∈ begun e, ∀ d ∈ g.deps n, stateOf e.sched d = some .done
  spoiled_open : ∀ n ∈ spoiled e, stateOf e.sched n ≠ some .done

/-- Why a run returned what it returned. -/
def Cause (g : Sched α) (e : Exec α) : Result → Prop
  | .success => AllDone e.sched
  | .failed .depfileRefresh => AllDone e.sched
  | .failed .stalled => ¬ AllDone e.sched ∧ Cyclic (Edge g)
  | .failed _ => ¬ AllDone e.sched

structure Stopped (g : Sched α) (e : Exec α) (r : Result) : Prop where
  recorded : Recorded g e
  live_nil : e.live = []
  cause : Cause g e r

/-- The invariant of all runs: coherent with work left in the current round, or stopped. -/
def LoopInvariant (g : Sched α) (jobs : Nat) (e : Exec α) : Prop :=
  match e.control with
  | .returned r => Stopped g e r
  | .loop => Coherent g jobs none e
  | _ => Coherent g jobs none e ∧
      (e.progressed = false → e.completed < e.sched.nodes.length)

theorem state_deps (h : Consistent g e.sched) {n : Nat} {st : NodeState}
    (hn : stateOf e.sched n = some st) (hst : st ≠ .pending) :
    ∀ d ∈ g.deps n, stateOf e.sched d = some .done := by
  obtain ⟨nd, hnd, hstate⟩ := stateOf_some hn
  intro d hd
  refine h.deps_done n nd hnd (by rw [hstate]; exact hst) d ?_
  rw [← deps_eq hnd, h.shape.deps_eq]
  exact hd

theorem recorded_of_coherent {held : Option Nat} (h : Coherent g jobs held e) :
    Recorded g e := by
  refine ⟨h.consistent.shape, h.grounded, h.completed_eq, h.begun_nodup, ?_, ?_⟩
  · intro n hn
    rcases (h.begun_iff n).mp hn with hrun | hdone
    · exact state_deps h.consistent hrun (by simp)
    · exact state_deps h.consistent hdone (by simp)
  · intro n hn
    rw [h.unspoiled] at hn
    cases hn

theorem live_le_of_coherent {held : Option Nat} (h : Coherent g jobs held e) :
    e.live.length ≤ jobs := by
  rw [← h.slots]
  exact List.length_filterMap_le _ _

theorem recorded_failed (h : Recorded g e) {n : Nat} (hn : stateOf e.sched n ≠ some .done) :
    Recorded g (e.emit (.failed n)) := by
  have hbegun : begun (e.emit (.failed n)) = begun e := by
    simp [begun, Exec.emit, Event.begins]
  refine ⟨h.shape, h.grounded, h.completed_eq, ?_, ?_, ?_⟩
  · rw [hbegun]; exact h.begun_nodup
  · rw [hbegun]; exact h.begun_deps
  · intro m hm
    change m ∈ (e.events ++ [Event.failed n]).filterMap Event.spoils at hm
    rw [List.filterMap_append, List.mem_append] at hm
    rcases hm with hm | hm
    · exact h.spoiled_open m hm
    · simp only [List.filterMap_cons, Event.spoils, List.filterMap_nil,
        List.mem_singleton] at hm
      subst hm
      exact hn

theorem recorded_syncRun (h : Recorded g e) {n : Nat} (hfresh : n ∉ begun e)
    (hdeps : ∀ d ∈ g.deps n, stateOf e.sched d = some .done) :
    Recorded g (e.emit (.syncRun n)) := by
  have hbegun : begun (e.emit (.syncRun n)) = begun e ++ [n] := by
    simp [begun, Exec.emit, Event.begins]
  refine ⟨h.shape, h.grounded, h.completed_eq, ?_, ?_, ?_⟩
  · rw [hbegun, List.nodup_append]
    refine ⟨h.begun_nodup, by simp, ?_⟩
    intro a ha b hb
    simp only [List.mem_singleton] at hb
    subst hb
    rintro rfl
    exact hfresh ha
  · rw [hbegun]
    intro m hm
    rcases List.mem_append.mp hm with hm | hm
    · exact h.begun_deps m hm
    · simp only [List.mem_singleton] at hm
      subst hm
      exact hdeps
  · intro m hm
    have hsame : spoiled (e.emit (.syncRun n)) = spoiled e := by
      simp [spoiled, Exec.emit, Event.spoils]
    rw [hsame] at hm
    exact h.spoiled_open m hm

/-- The `fail` label keeps the record and leaves no process alive. -/
theorem stopped_fail (h : Recorded g e) {why : Failure}
    (hlive : ∀ n ∈ e.live, stateOf e.sched n ≠ some .done)
    (hactive : e.active = 0 → e.live = [])
    (hcause : Cause g e (.failed why)) : Stopped g (e.fail why) (.failed why) := by
  unfold Exec.fail
  split
  · have hbegun : (e.live.map Event.cancelled).filterMap Event.begins = [] := by
      simp [List.filterMap_map, Function.comp_def, Event.begins]
    have hspoils : (e.live.map Event.cancelled).filterMap Event.spoils = e.live := by
      simp [List.filterMap_map, Function.comp_def, Event.spoils]
    refine ⟨⟨h.shape, h.grounded, h.completed_eq, ?_, ?_, ?_⟩, ?_, hcause⟩
    · show ((e.events ++ e.live.map Event.cancelled).filterMap Event.begins).Nodup
      rw [List.filterMap_append, hbegun, List.append_nil]
      exact h.begun_nodup
    · show ∀ n ∈ (e.events ++ e.live.map Event.cancelled).filterMap Event.begins, _
      rw [List.filterMap_append, hbegun, List.append_nil]
      exact h.begun_deps
    · show ∀ n ∈ (e.events ++ e.live.map Event.cancelled).filterMap Event.spoils, _
      rw [List.filterMap_append, hspoils]
      intro n hn
      rcases List.mem_append.mp hn with hn | hn
      · exact h.spoiled_open n hn
      · exact hlive n hn
    · simp [Exec.live]
  · rename_i hzero
    exact ⟨⟨h.shape, h.grounded, h.completed_eq, h.begun_nodup, h.begun_deps, h.spoiled_open⟩,
      hactive (by omega), hcause⟩

theorem control_fail (e : Exec α) (why : Failure) :
    (e.fail why).control = .returned (.failed why) := by
  unfold Exec.fail
  split <;> rfl

theorem inv_of_stopped {r : Result} (hcontrol : e.control = .returned r)
    (h : Stopped g e r) : LoopInvariant g jobs e := by
  simp only [LoopInvariant, hcontrol]
  exact h

theorem not_allDone_of_state {n : Nat} {st : NodeState}
    (hn : stateOf e.sched n = some st) (hst : st ≠ .done) : ¬ AllDone e.sched := by
  intro hall
  obtain ⟨nd, hnd, -⟩ := stateOf_some hn
  have hdone := hall n (List.getElem?_eq_some_iff.mp hnd).1
  rw [hn] at hdone
  exact hst (Option.some.inj hdone)

theorem not_allDone_of_completed {held : Option Nat} (h : Coherent g jobs held e)
    (hlt : e.completed < e.sched.nodes.length) : ¬ AllDone e.sched := by
  intro hall
  have hcount : doneCount e.sched = e.sched.nodes.length := by
    unfold doneCount
    rw [List.countP_eq_length]
    intro nd hnd
    obtain ⟨n, hn⟩ := List.mem_iff_getElem?.mp hnd
    have hdone := hall n (List.getElem?_eq_some_iff.mp hn).1
    rw [stateOf_eq hn] at hdone
    simpa using Option.some.inj hdone
  rw [h.completed_eq, hcount] at hlt
  exact lt_irrefl _ hlt

theorem allDone_of_completed {held : Option Nat} (h : Coherent g jobs held e)
    (hge : e.sched.nodes.length ≤ e.completed) : AllDone e.sched := by
  have hle : doneCount e.sched ≤ e.sched.nodes.length := List.countP_le_length
  have hcount : doneCount e.sched = e.sched.nodes.length := by
    rw [← h.completed_eq] at hle ⊢
    omega
  unfold doneCount at hcount
  rw [List.countP_eq_length] at hcount
  intro n hn
  have hget : e.sched.nodes[n]? = some e.sched.nodes[n] := List.getElem?_eq_getElem hn
  rw [stateOf_eq hget]
  simpa using hcount _ (List.getElem_mem hn)

theorem live_open {held : Option Nat} (h : Coherent g jobs held e) :
    ∀ n ∈ e.live, stateOf e.sched n ≠ some .done := by
  intro n hn
  rw [((h.live_iff n).mp hn).1]
  simp

theorem live_nil_of_active {held : Option Nat} (h : Coherent g jobs held e)
    (hzero : e.active = 0) : e.live = [] := by
  rw [h.active_eq] at hzero
  exact List.length_eq_zero_iff.mp hzero

/-- A failed node stops the run; the node itself stays unfinished. -/
theorem inv_failNode_of {n : Nat} {st : NodeState} (hrec : Recorded g e)
    (hlive : ∀ m ∈ e.live, stateOf e.sched m ≠ some .done)
    (hactive : e.active = 0 → e.live = []) (hn : stateOf e.sched n = some st)
    (hst : st ≠ .done) : LoopInvariant g jobs (e.failNode n) := by
  have hopen : stateOf e.sched n ≠ some .done := by rw [hn]; simpa using hst
  exact inv_of_stopped (control_fail _ _)
    (stopped_fail (e := e.emit (.failed n)) (recorded_failed hrec hopen) hlive hactive
      (not_allDone_of_state hn hst))

theorem inv_failNode {n : Nat} {st : NodeState} (h : Coherent g jobs (some n) e)
    (hn : stateOf e.sched n = some st) (hst : st ≠ .done) : LoopInvariant g jobs (e.failNode n) :=
  inv_failNode_of (recorded_of_coherent h) (live_open h) (live_nil_of_active h) hn hst

theorem inv_fail {held : Option Nat} (h : Coherent g jobs held e) {why : Failure}
    (hcause : Cause g e (.failed why)) : LoopInvariant g jobs (e.fail why) :=
  inv_of_stopped (control_fail _ _)
    (stopped_fail (recorded_of_coherent h) (live_open h) (live_nil_of_active h) hcause)

/-- Completing the held node in the pop loop keeps the invariant. -/
theorem inv_complete (hg : WellFormed g) {n : Nat} (h : Coherent g jobs (some n) e)
    (hcontrol : e.control = .pops) (hn : stateOf e.sched n = some .ready) {event : Event}
    (hb : event.begins = some n) (hs : event.spoils = none) :
    LoopInvariant g jobs ((e.emit event).complete n) := by
  have hco := coherent_complete hg h hs (.inl ⟨hn, hb⟩)
  have hc : ((e.emit event).complete n).control = .pops := hcontrol
  simp only [LoopInvariant, hc]
  exact ⟨hco, fun hp => by cases hp⟩

theorem inv_startNode (hg : WellFormed g) {n : Nat} (h : Coherent g jobs (some n) e)
    (hcontrol : e.control = .pops) (hn : stateOf e.sched n = some .ready) (a : Answer)
    (hwork : e.progressed = false → e.completed < e.sched.nodes.length) :
    LoopInvariant g jobs (startNode jobs e a n) := by
  unfold startNode
  split
  · have hrepush := (coherent_repush h hn).control (.scan 0) e.progressed
    have hlen : (readyPush e.sched n).nodes.length = e.sched.nodes.length := by
      simp [readyPush, Sched.modify]
    refine ⟨hrepush, ?_⟩
    intro hp
    have := hwork hp
    show e.completed < (readyPush e.sched n).nodes.length
    omega
  · split
    · exact inv_fail h (not_allDone_of_state hn (by simp))
    · rename_i hactive hslot
      cases a.start with
      | error => exact inv_failNode h hn (by simp)
      | skipped =>
        have hready := stateOf_setState (s := e.sched) (n := n) (by simp [hn]) .done
        have hsame : completeNode (e.sched.setState n .done) n = completeNode e.sched n := by
          simp [completeNode, Sched.setState, Sched.modify, Sched.outs, List.modify_modify_eq,
            Function.comp_def]
        have hco : LoopInvariant g jobs ((e.emit (.startSkipped n)).complete n) :=
          inv_complete hg h hcontrol hn rfl rfl
        simp only [Exec.complete, Exec.emit, hsame] at hco ⊢
        exact hco
      | spawned =>
        have hfree : e.running[findFreeSlot e.running]? = some none := by
          refine findFreeSlot_free ?_
          rw [h.slots]
          omega
        have hco := coherent_spawn h hn hfree
        simp only [LoopInvariant, Exec.emit, hcontrol]
        exact ⟨hco.control .pops true, fun hp => by cases hp⟩

theorem inv_visitNode (hg : WellFormed g) (isProcess : α → Bool) {n : Nat} {node : Node α}
    (h : Coherent g jobs (some n) e) (hcontrol : e.control = .pops)
    (hnode : e.sched.nodes[n]? = some node) (hn : stateOf e.sched n = some .ready)
    (a : Answer) (hwork : e.progressed = false → e.completed < e.sched.nodes.length) :
    LoopInvariant g jobs (visitNode isProcess jobs e a n node) := by
  have hready : node.state = .ready := by
    rw [stateOf_eq hnode] at hn
    exact Option.some.inj hn
  have hfresh : n ∉ begun e := by
    rw [h.begun_iff, hn]; simp
  unfold visitNode
  rw [if_neg (by simp [hready])]
  split
  · split
    · exact inv_complete hg h hcontrol hn rfl rfl
    · have hrec := recorded_syncRun (recorded_of_coherent h) hfresh
        (state_deps h.consistent hn (by simp))
      have hopen := live_open h
      have hnil := live_nil_of_active h
      exact inv_failNode_of (e := e.emit (.syncRun n)) hrec hopen hnil hn (by simp)
  · split
    · exact inv_failNode h hn (by simp)
    · split
      · exact inv_failNode h hn (by simp)
      · split
        · split
          · exact inv_complete hg h hcontrol hn rfl rfl
          · exact inv_failNode h hn (by simp)
        · cases a.restore with
          | error => exact inv_failNode h hn (by simp)
          | hit =>
            simp only
            split
            · exact inv_complete hg h hcontrol hn rfl rfl
            · exact inv_failNode h hn (by simp)
          | miss => exact inv_startNode hg h hcontrol hn a hwork

theorem inv_popStep (hg : WellFormed g) (isProcess : α → Bool) (hcontrol : e.control = .pops)
    (h : Coherent g jobs none e) (a : Answer)
    (hwork : e.progressed = false → e.completed < e.sched.nodes.length) :
    LoopInvariant g jobs (popStep isProcess jobs e a) := by
  unfold popStep
  cases hready : e.sched.ready with
  | nil => exact ⟨h.control (.scan 0) e.progressed, hwork⟩
  | cons n rest =>
    obtain ⟨hn, hpop⟩ := coherent_pop h hready
    obtain ⟨node, hnode, -⟩ := stateOf_some hn
    simp only [hnode]
    exact inv_visitNode hg isProcess hpop hcontrol hnode hn a hwork

theorem inv_scanStep (hg : WellFormed g) (h : Coherent g jobs none e) (slot : Nat) (a : Answer)
    (hwork : e.progressed = false → e.completed < e.sched.nodes.length) :
    LoopInvariant g jobs (scanStep jobs e a slot) := by
  unfold scanStep
  split
  · exact ⟨h.control .idle e.progressed, hwork⟩
  · split
    · rename_i n hslot
      obtain ⟨hrun, hpos, htake⟩ := coherent_take h hslot
      cases a.poll with
      | drainError => exact inv_fail h (not_allDone_of_state hrun (by simp))
      | waitError => exact inv_fail h (not_allDone_of_state hrun (by simp))
      | busy => exact ⟨h.control (.scan (slot + 1)) e.progressed, hwork⟩
      | timedOut =>
        -- the slot is cleared but the counter keeps the timed out process
        have hrec := recorded_of_coherent h
        refine inv_failNode_of (e := { e with running := e.running.set slot none })
          ⟨hrec.shape, hrec.grounded, hrec.completed_eq, hrec.begun_nodup, hrec.begun_deps,
            hrec.spoiled_open⟩
          (fun m hm => live_open htake m hm) ?_ hrun (by simp)
        intro hzero
        change e.active = 0 at hzero
        omega
      | exited =>
        simp only
        split
        · have hspoils : (Event.finished n).spoils = none := rfl
          have hco := coherent_complete hg htake hspoils (.inr ⟨hrun, rfl⟩)
          exact ⟨hco.control .idle true, fun hp => by cases hp⟩
        · exact inv_failNode htake hrun (by simp)
    · exact ⟨h.control (.scan (slot + 1)) e.progressed, hwork⟩

theorem deps_lt (hg : WellFormed g) {d n : Nat} (hd : d ∈ g.deps n) : d < g.nodes.length := by
  cases hn : g.nodes[n]? with
  | none => simp [Sched.deps, hn] at hd
  | some nd =>
    rw [deps_eq hn] at hd
    exact hg.deps_lt n nd hn d hd

/-- With no queued and no live node, every unfinished node waits for another one. -/
theorem cyclic_of_stall (hg : WellFormed g) (h : Coherent g jobs none e) (hactive : e.active = 0)
    (hready : e.sched.ready = []) (hlt : e.completed < e.sched.nodes.length) :
    Cyclic (Edge g) := by
  have hlive := live_nil_of_active h hactive
  have hstates : ∀ n st, stateOf e.sched n = some st → st = .pending ∨ st = .done := by
    intro n st hn
    cases st with
    | pending => exact .inl rfl
    | done => exact .inr rfl
    | ready =>
      have := (h.ready_iff n).mpr ⟨hn, by simp⟩
      rw [hready] at this
      cases this
    | running =>
      have := (h.live_iff n).mpr ⟨hn, by simp⟩
      rw [hlive] at this
      cases this
  have hnot := not_allDone_of_completed h hlt
  refine cyclic_of_finite_set
    (S := { n | n < e.sched.nodes.length ∧ stateOf e.sched n = some .pending }) ?_ ?_ ?_
  · exact (Set.finite_lt_nat e.sched.nodes.length).subset (fun n hn => hn.1)
  · by_contra hempty
    refine hnot ?_
    intro n hn
    have hget : e.sched.nodes[n]? = some e.sched.nodes[n] := List.getElem?_eq_getElem hn
    rcases hstates n _ (stateOf_eq hget) with hp | hd
    · exact absurd ⟨n, hn, by rw [stateOf_eq hget, hp]⟩ hempty
    · rw [stateOf_eq hget, hd]
  · rintro n ⟨-, hn⟩
    obtain ⟨nd, hnd, hst⟩ := stateOf_some hn
    obtain ⟨hrem, hpos⟩ := h.consistent.remaining_eq n nd hnd hst
    rw [hrem, unfinished, List.countP_pos_iff] at hpos
    obtain ⟨d, hd, hnd'⟩ := hpos
    have hdg : d ∈ g.deps n := by
      rw [← h.consistent.shape.deps_eq, deps_eq hnd]
      exact hd
    have hpending : stateOf e.sched d = some .pending := by
      have hlt' : d < e.sched.nodes.length := by
        rw [h.consistent.shape.length_eq]
        exact deps_lt hg hdg
      have hget : e.sched.nodes[d]? = some e.sched.nodes[d] := List.getElem?_eq_getElem hlt'
      rcases hstates d _ (stateOf_eq hget) with hp | hdone
      · rw [stateOf_eq hget, hp]
      · simp [stateOf_eq hget, hdone] at hnd'
    obtain ⟨nd'', hget, -⟩ := stateOf_some hpending
    exact ⟨d, ⟨(List.getElem?_eq_some_iff.mp hget).1, hpending⟩, hdg⟩

theorem inv_step (hg : WellFormed g) (isProcess : α → Bool) (h : LoopInvariant g jobs e)
    (a : Answer) : LoopInvariant g jobs (step isProcess jobs e a) := by
  unfold step
  cases hcontrol : e.control with
  | loop =>
    simp only [LoopInvariant, hcontrol] at h
    simp only [loopStep]
    split
    · rename_i hlt
      exact ⟨h.control .pops false, fun _ => hlt⟩
    · rename_i hge
      have hall := allDone_of_completed h (by omega)
      have hlive : e.live = [] := by
        rw [List.eq_nil_iff_forall_not_mem]
        intro n hn
        have hrun := ((h.live_iff n).mp hn).1
        exact not_allDone_of_state hrun (by simp) hall
      have hrec := recorded_of_coherent h
      split
      · exact ⟨⟨hrec.shape, hrec.grounded, hrec.completed_eq, hrec.begun_nodup,
          hrec.begun_deps, hrec.spoiled_open⟩, hlive, hall⟩
      · exact ⟨⟨hrec.shape, hrec.grounded, hrec.completed_eq, hrec.begun_nodup,
          hrec.begun_deps, hrec.spoiled_open⟩, hlive, hall⟩
  | pops =>
    simp only [LoopInvariant, hcontrol] at h
    exact inv_popStep hg isProcess hcontrol h.1 a h.2
  | scan slot =>
    simp only [LoopInvariant, hcontrol] at h
    exact inv_scanStep hg h.1 slot a h.2
  | idle =>
    simp only [LoopInvariant, hcontrol] at h
    obtain ⟨hco, hwork⟩ := h
    simp only [idleStep]
    split
    · exact hco.control .loop e.progressed
    · rename_i hp
      have hlt := hwork (by simpa using hp)
      split
      · rename_i hstall
        exact inv_fail hco ⟨not_allDone_of_completed hco hlt,
          cyclic_of_stall hg hco hstall.1 hstall.2.1 hlt⟩
      · split
        · exact hco.control .loop e.progressed
        · exact inv_fail hco (not_allDone_of_completed hco hlt)
  | returned r => exact h

/-- The initial pushes mark exactly the nodes without dependencies ready, in order. -/
theorem foldl_pushInitial (s : Sched α) {indices : List Nat} (hnodup : indices.Nodup) :
    let t := indices.foldl
      (fun s i => if (s.nodes[i]?.map (·.remaining)) = some 0 then readyPush s i else s) s
    t.ready = s.ready ++
        indices.filter (fun i => (s.nodes[i]?.map (·.remaining)) = some 0) ∧
      ∀ m : Nat, t.nodes[m]? = s.nodes[m]?.map (fun nd =>
        if m ∈ indices ∧ nd.remaining = 0 then { nd with state := .ready } else nd) := by
  induction indices generalizing s with
  | nil => simp
  | cons i rest ih =>
    obtain ⟨hi, hrest⟩ := List.nodup_cons.mp hnodup
    simp only [List.foldl_cons]
    by_cases hzero : (s.nodes[i]?.map (·.remaining)) = some 0
    · obtain ⟨hready, hnodes⟩ := ih (readyPush s i) hrest
      have hpush : ∀ m : Nat, (readyPush s i).nodes[m]? = s.nodes[m]?.map (fun nd =>
          if i = m then { nd with state := .ready } else nd) := by
        intro m
        simp only [readyPush, Sched.modify, List.getElem?_modify]
        split <;> simp_all
      have hsame : ∀ m : Nat, ((readyPush s i).nodes[m]?.map (·.remaining)) =
          s.nodes[m]?.map (·.remaining) := by
        intro m
        rw [hpush, Option.map_map]
        congr 1
        funext nd
        simp only [Function.comp_apply]
        split <;> rfl
      rw [if_pos hzero]
      constructor
      · rw [hready]
        simp only [hsame, List.filter_cons, hzero, decide_true, if_true]
        simp [readyPush]
      · intro m
        rw [hnodes, hpush, Option.map_map]
        cases hm : s.nodes[m]? with
        | none => rfl
        | some nd =>
          by_cases him : i = m
          · subst him
            rw [hm] at hzero
            have hz : nd.remaining = 0 := by simpa using hzero
            simp [hi, hz]
          · have hmi : ¬ m = i := fun h => him h.symm
            simp [him, hmi]
    · obtain ⟨hready, hnodes⟩ := ih s hrest
      rw [if_neg hzero]
      constructor
      · rw [hready, List.filter_cons]
        simp [hzero]
      · intro m
        rw [hnodes]
        cases hm : s.nodes[m]? with
        | none => rfl
        | some nd =>
          by_cases hmi : m = i
          · subst hmi
            rw [hm] at hzero
            have hz : ¬ nd.remaining = 0 := by simpa using hzero
            simp [hz]
          · simp [hmi]

theorem pushInitial_ready {s : Sched α} (h : s.ready = []) : (pushInitial s).ready =
    (List.range s.nodes.length).filter (fun i => (s.nodes[i]?.map (·.remaining)) = some 0) := by
  have := (foldl_pushInitial s (List.nodup_range (n := s.nodes.length))).1
  rw [h, List.nil_append] at this
  exact this

theorem pushInitial_node (s : Sched α) (m : Nat) : (pushInitial s).nodes[m]? =
    s.nodes[m]?.map (fun nd => if nd.remaining = 0 then { nd with state := .ready } else nd) := by
  have := (foldl_pushInitial s (List.nodup_range (n := s.nodes.length))).2 m
  unfold pushInitial
  rw [this]
  cases hm : s.nodes[m]? with
  | none => rfl
  | some nd =>
    have hlt := (List.getElem?_eq_some_iff.mp hm).1
    simp [hlt]

theorem slotCount_pos (jobs : Int) : 0 < slotCount jobs := by
  unfold slotCount
  split <;> omega

theorem stateOf_pushInitial (hg : WellFormed g) (n : Nat) : stateOf (pushInitial g) n =
    g.nodes[n]?.map (fun nd => if nd.remaining = 0 then .ready else .pending) := by
  rw [stateOf, pushInitial_node, Option.map_map]
  cases hn : g.nodes[n]? with
  | none => rfl
  | some nd =>
    have hp := hg.state_pending n nd hn
    by_cases hz : nd.remaining = 0 <;> simp [hz, hp]

theorem pushInitial_not_started (hg : WellFormed g) (n : Nat) :
    stateOf (pushInitial g) n ≠ some .running ∧ stateOf (pushInitial g) n ≠ some .done := by
  rw [stateOf_pushInitial hg]
  cases g.nodes[n]? with
  | none => simp
  | some nd => by_cases hz : nd.remaining = 0 <;> simp [hz]

theorem pushInitial_state_ready (hg : WellFormed g) (n : Nat) :
    stateOf (pushInitial g) n = some .ready ↔ (g.nodes[n]?.map (·.remaining)) = some 0 := by
  rw [stateOf_pushInitial hg]
  cases g.nodes[n]? with
  | none => simp
  | some nd => by_cases hz : nd.remaining = 0 <;> simp [hz]

theorem deps_nil_of_remaining (hg : WellFormed g) {n : Nat} {nd : Node α}
    (hn : g.nodes[n]? = some nd) (hz : nd.remaining = 0) : nd.deps = [] := by
  rw [hg.remaining_eq n nd hn] at hz
  exact List.length_eq_zero_iff.mp hz

theorem consistent_pushInitial (hg : WellFormed g) : Consistent g (pushInitial g) := by
  refine ⟨?_, ?_, ?_⟩
  · intro n
    rw [pushInitial_node, Option.map_map]
    congr 1
    funext nd
    simp only [Function.comp_apply, shapeOf]
    split <;> rfl
  · intro n nd hn hp
    rw [pushInitial_node, Option.map_eq_some_iff] at hn
    obtain ⟨old, hold, rfl⟩ := hn
    by_cases hz : old.remaining = 0
    · simp [hz] at hp
    · simp only [hz, if_false]
      refine ⟨?_, by omega⟩
      rw [hg.remaining_eq n old hold]
      symm
      unfold unfinished
      rw [List.countP_eq_length]
      intro d _
      simpa using (pushInitial_not_started hg d).2
  · intro n nd hn hp d hd
    rw [pushInitial_node, Option.map_eq_some_iff] at hn
    obtain ⟨old, hold, rfl⟩ := hn
    by_cases hz : old.remaining = 0
    · simp [hz, deps_nil_of_remaining hg hold hz] at hd
    · simp [hz, hg.state_pending n old hold] at hp

/-- The local variables before the first round satisfy the invariant. -/
theorem coherent_start (hg : WellFormed g) (jobs : Int) :
    Coherent g (slotCount jobs) none (start g jobs) := by
  have hnot := pushInitial_not_started hg
  have hready := pushInitial_state_ready hg
  have hlive : (start g jobs).live = [] := by simp [Exec.live, start]
  constructor
  · exact consistent_pushInitial hg
  · intro n st hn hst
    change stateOf (pushInitial g) n = _ at hn
    have hr : stateOf (pushInitial g) n = some .ready := by
      cases st with
      | pending => exact absurd rfl hst
      | ready => exact hn
      | running => exact absurd hn (hnot n).1
      | done => exact absurd hn (hnot n).2
    constructor
    intro d hd
    obtain ⟨nd, hnd, hz⟩ := Option.map_eq_some_iff.mp ((hready n).mp hr)
    rw [Edge, deps_eq hnd, deps_nil_of_remaining hg hnd hz] at hd
    cases hd
  · intro n
    show n ∈ (pushInitial g).ready ↔ stateOf (pushInitial g) n = _ ∧ _
    rw [pushInitial_ready hg.ready_empty, hready, List.mem_filter, List.mem_range]
    constructor
    · rintro ⟨-, hz⟩
      exact ⟨by simpa using hz, by simp⟩
    · rintro ⟨hz, -⟩
      obtain ⟨nd, hnd, -⟩ := Option.map_eq_some_iff.mp hz
      exact ⟨(List.getElem?_eq_some_iff.mp hnd).1, by simpa using hz⟩
  · show (pushInitial g).ready.Nodup
    rw [pushInitial_ready hg.ready_empty]
    exact List.nodup_range.filter _
  · intro n
    rw [hlive]
    show n ∈ [] ↔ stateOf (pushInitial g) n = _ ∧ _
    simp [(hnot n).1]
  · rw [hlive]; exact List.nodup_nil
  · simp [start]
  · rw [hlive]; rfl
  · show 0 = doneCount (pushInitial g)
    symm
    unfold doneCount
    rw [List.countP_eq_zero]
    intro nd hnd
    obtain ⟨n, hn⟩ := List.mem_iff_getElem?.mp hnd
    have := (hnot n).2
    rw [stateOf_eq hn] at this
    simpa using this
  · simp [begun, start]
  · intro n
    show n ∈ [] ↔ stateOf (pushInitial g) n = _ ∨ stateOf (pushInitial g) n = _
    simp [(hnot n).1, (hnot n).2]
  · simp [spoiled, start]

/-- Every state of every run satisfies the invariant. -/
theorem inv_reachable (hg : WellFormed g) (isProcess : α → Bool) (jobs : Int)
    (h : Lib.Runs.Reachable (step isProcess (slotCount jobs)) (start g jobs) e) :
    LoopInvariant g (slotCount jobs) e := by
  have hstart : LoopInvariant g (slotCount jobs) (start g jobs) := coherent_start hg jobs
  refine h.invariant (LoopInvariant g (slotCount jobs)) hstart ?_
  intro s a hs
  exact inv_step hg isProcess hs a

end QStar.Scheduler.Safety
