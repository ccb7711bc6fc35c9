import QStar.Scheduler.Safety

/-!
# Progress of successful runs

A step never undoes begun or completed work. When no call fails and every
process exits in the end, a round that neither begins nor completes anything
finds an empty queue and empty slots, so the loop returns.
-/
namespace QStar.Scheduler.Progress

open QStar.Lib.Cycles
open QStar.Lib.Runs
open QStar.Scheduler.NodeGraph
open QStar.Scheduler.Completion
open QStar.Scheduler.Consistency
open QStar.Scheduler.Execute
open QStar.Scheduler.Invariant
open QStar.Scheduler.Safety

universe u

variable {α : Type u} {g : Sched α} {jobs : Nat} {e : Exec α}

@[simp] theorem begun_emit (e : Exec α) (event : Event) :
    begun (e.emit event) = begun e ++ event.begins.toList := by
  cases event <;> simp [begun, Exec.emit, Event.begins]

@[simp] theorem begun_complete (e : Exec α) (n : Nat) : begun (e.complete n) = begun e := rfl

@[simp] theorem completed_emit (e : Exec α) (event : Event) :
    (e.emit event).completed = e.completed := rfl

@[simp] theorem completed_complete (e : Exec α) (n : Nat) :
    (e.complete n).completed = e.completed + 1 := rfl

@[simp] theorem begun_fail (e : Exec α) (why : Failure) : begun (e.fail why) = begun e := by
  unfold Exec.fail
  split
  · simp [begun, List.filterMap_map, Function.comp_def, Event.begins]
  · rfl

@[simp] theorem completed_fail (e : Exec α) (why : Failure) :
    (e.fail why).completed = e.completed := by
  unfold Exec.fail
  split <;> rfl

@[simp] theorem begun_failNode (e : Exec α) (n : Nat) : begun (e.failNode n) = begun e := by
  simp [Exec.failNode, Event.begins]

@[simp] theorem completed_failNode (e : Exec α) (n : Nat) :
    (e.failNode n).completed = e.completed := by
  simp [Exec.failNode]

/-- What one step adds: newly begun nodes, all drawn from the ready ones. -/
structure Advances (e e' : Exec α) : Prop where
  begun_append : ∃ new, begun e' = begun e ++ new ∧
    ∀ n ∈ new, stateOf e.sched n = some .ready
  completed_le : e.completed ≤ e'.completed

theorem advances_of_eq {e' : Exec α} (hb : begun e' = begun e)
    (hc : e.completed ≤ e'.completed) : Advances e e' :=
  ⟨⟨[], by simp [hb], by simp⟩, hc⟩

theorem advances_of_begin {e' : Exec α} {n : Nat} (hb : begun e' = begun e ++ [n])
    (hn : stateOf e.sched n = some .ready) (hc : e.completed ≤ e'.completed) :
    Advances e e' := by
  refine ⟨⟨[n], hb, ?_⟩, hc⟩
  intro m hm
  simp only [List.mem_singleton] at hm
  subst hm
  exact hn

theorem Advances.fail {e' : Exec α} (h : Advances e e') (why : Failure) :
    Advances e (e'.fail why) := by
  obtain ⟨hb, hc⟩ := h
  exact ⟨by rwa [begun_fail], by rwa [completed_fail]⟩

theorem Advances.failNode {e' : Exec α} (h : Advances e e') (n : Nat) :
    Advances e (e'.failNode n) := by
  obtain ⟨hb, hc⟩ := h
  exact ⟨by rwa [begun_failNode], by rwa [completed_failNode]⟩

theorem advances_refl (e : Exec α) : Advances e e := advances_of_eq rfl (le_refl _)

theorem advances_startNode {n : Nat} (hn : stateOf e.sched n = some .ready) (a : Answer) :
    Advances e (startNode jobs e a n) := by
  unfold startNode
  split
  · exact advances_of_eq rfl (le_refl _)
  · split
    · exact (advances_refl e).fail _
    · cases a.start with
      | error => exact (advances_refl e).failNode n
      | skipped =>
        exact advances_of_begin (begun_emit _ _) hn (Nat.le_succ _)
      | spawned => exact advances_of_begin (begun_emit _ _) hn (le_refl _)

theorem advances_visitNode (isProcess : α → Bool) {n : Nat} (node : Node α)
    (hn : stateOf e.sched n = some .ready) (a : Answer) :
    Advances e (visitNode isProcess jobs e a n node) := by
  have hfail : Advances e (e.failNode n) :=
    (advances_refl e).failNode n
  unfold visitNode
  split
  · exact advances_of_eq rfl (le_refl _)
  · split
    · split
      · exact advances_of_begin (begun_emit e (.syncRun n)) hn (Nat.le_succ _)
      · exact (advances_of_begin (begun_emit e (.syncRun n)) hn (le_refl _)).failNode n
    · split
      · exact hfail
      · split
        · exact hfail
        · split
          · split
            · exact advances_of_begin (begun_emit e (.skipped n)) hn (Nat.le_succ _)
            · exact hfail
          · cases a.restore with
            | error => exact hfail
            | hit =>
              simp only
              split
              · exact advances_of_begin (begun_emit e (.restored n)) hn (Nat.le_succ _)
              · exact hfail
            | miss => exact advances_startNode hn a

theorem advances_popStep (isProcess : α → Bool) (h : Coherent g jobs none e) (a : Answer) :
    Advances e (popStep isProcess jobs e a) := by
  unfold popStep
  cases hready : e.sched.ready with
  | nil => exact advances_of_eq rfl (le_refl _)
  | cons n rest =>
    obtain ⟨hn, -⟩ := coherent_pop h hready
    obtain ⟨node, hnode, -⟩ := stateOf_some hn
    simp only [hnode]
    obtain ⟨hb, hc⟩ := advances_visitNode isProcess
      (e := { e with sched := { e.sched with ready := rest } }) node hn a
    exact ⟨hb, hc⟩

theorem advances_scanStep (a : Answer) (slot : Nat) : Advances e (scanStep jobs e a slot) := by
  unfold scanStep
  split
  · exact advances_of_eq rfl (le_refl _)
  · split
    · cases a.poll with
      | drainError => exact (advances_refl e).fail _
      | waitError => exact (advances_refl e).fail _
      | busy => exact advances_of_eq rfl (le_refl _)
      | timedOut =>
        have hclear : Advances e { e with running := e.running.set slot none } :=
          advances_of_eq rfl (le_refl _)
        exact hclear.failNode _
      | exited =>
        simp only
        split
        · refine advances_of_eq ?_ (Nat.le_succ _)
          simp [begun, Exec.emit, Exec.complete, Event.begins]
        · have htake : Advances e
              { e with running := e.running.set slot none, active := e.active - 1 } :=
            advances_of_eq rfl (le_refl _)
          exact htake.failNode _
    · exact advances_of_eq rfl (le_refl _)

theorem advances_step (isProcess : α → Bool) (h : LoopInvariant g jobs e) (a : Answer) :
    Advances e (step isProcess jobs e a) := by
  unfold step
  cases hcontrol : e.control with
  | loop =>
    simp only [loopStep]
    split
    · exact advances_of_eq rfl (le_refl _)
    · split <;> exact advances_of_eq rfl (le_refl _)
  | pops =>
    simp only [LoopInvariant, hcontrol] at h
    exact advances_popStep isProcess h.1 a
  | scan slot => exact advances_scanStep a slot
  | idle =>
    simp only [idleStep]
    split
    · exact advances_of_eq rfl (le_refl _)
    · split
      · exact (advances_refl e).fail _
      · split
        · exact advances_of_eq rfl (le_refl _)
        · exact (advances_refl e).fail _
  | returned r => exact advances_of_eq rfl (le_refl _)

/-- An answer in which no call fails. -/
structure Succeeds (a : Answer) : Prop where
  runSync : a.runSync = true
  prepare : a.prepare = true
  cacheAudit : a.cacheAudit = true
  skip : a.skip = true
  restore : a.restore ≠ .error
  start : a.start ≠ .error
  poll : a.poll = .busy ∨ a.poll = .exited
  finish : a.finish = true
  checkDepfile : a.checkDepfile = true
  refreshPush : a.refreshPush = true
  wait : a.wait = true
  refreshFlush : a.refreshFlush = true

/-- The node whose process the next step polls. -/
def polled (e : Exec α) : Option Nat :=
  match e.control with
  | .scan slot => e.running[slot]?.join
  | _ => none

/-- Begun and completed work, which bounds the number of productive steps. -/
def total (e : Exec α) : Nat := (begun e).length + e.completed

theorem total_le_of_advances {e' : Exec α} (h : Advances e e') : total e ≤ total e' := by
  obtain ⟨⟨new, hnew, -⟩, hc⟩ := h
  unfold total
  rw [hnew, List.length_append]
  omega

/-- A step that neither begins nor completes a node and does not return. -/
inductive Quiet (jobs : Nat) (a : Answer) (e e' : Exec α) : Prop where
  | loop (h : e.control = .loop) (h' : e' = { e with progressed := false, control := .pops })
  | drained (h : e.control = .pops) (hready : e.sched.ready = [])
      (h' : e' = { e with control := .scan 0 })
  | full {s : Sched α} (h : e.control = .pops) (hactive : jobs ≤ e.active)
      (h' : e' = { e with sched := s, control := .scan 0 })
  | scanned {slot : Nat} (h : e.control = .scan slot) (hslot : jobs ≤ slot)
      (h' : e' = { e with control := .idle })
  | empty {slot : Nat} (h : e.control = .scan slot) (hslot : slot < jobs)
      (hnone : e.running[slot]? = some none) (h' : e' = { e with control := .scan (slot + 1) })
  | busy {slot n : Nat} (h : e.control = .scan slot) (hslot : slot < jobs)
      (hlive : e.running[slot]? = some (some n)) (hpoll : a.poll = .busy)
      (h' : e' = { e with control := .scan (slot + 1) })
  | again (h : e.control = .idle)
      (hwait : e.progressed = true ∨ ¬ (e.active = 0 ∧ e.sched.ready = []))
      (h' : e' = { e with control := .loop })

theorem free_slot_of_active {held : Option Nat} (h : Coherent g jobs held e)
    (hactive : e.active < jobs) : findFreeSlot e.running < jobs := by
  have hlt : e.live.length < e.running.length := by
    rw [← h.active_eq, h.slots]
    exact hactive
  have hnone : none ∈ e.running := by
    by_contra hnone
    have hall : e.running.countP (fun r => (id r).isSome) = e.running.length := by
      rw [List.countP_eq_length]
      intro r hr
      cases r with
      | none => exact absurd hr hnone
      | some n => rfl
    rw [Exec.live, List.length_filterMap_eq_countP, hall] at hlt
    exact lt_irrefl _ hlt
  rw [← h.slots]
  exact List.findIdx_lt_length_of_exists ⟨none, hnone, by simp⟩

theorem total_complete (e : Exec α) (event : Event) (n : Nat) :
    total e < total ((e.emit event).complete n) := by
  simp only [total, begun_complete, begun_emit, completed_complete, completed_emit,
    List.length_append]
  omega

theorem total_startNode {a : Answer} {n : Nat} (h : Coherent g jobs (some n) e)
    (ha : Succeeds a) :
    (jobs ≤ e.active ∧ ∃ s, startNode jobs e a n = { e with sched := s, control := .scan 0 }) ∨
      (total e < total (startNode jobs e a n) ∧
        (startNode jobs e a n).control = e.control) := by
  unfold startNode
  split
  · rename_i hfull
    exact .inl ⟨hfull, _, rfl⟩
  · right
    rename_i hactive
    have hslot := free_slot_of_active h (by omega)
    rw [if_neg (by omega)]
    cases hstart : a.start with
    | error => exact absurd hstart ha.start
    | skipped => exact ⟨total_complete { e with sched := e.sched.setState n .done } _ n, rfl⟩
    | spawned =>
      refine ⟨?_, rfl⟩
      simp only [total, begun_emit, completed_emit, List.length_append, Event.begins,
        Option.toList_some, List.length_singleton]
      show (begun e).length + e.completed < (begun e).length + 1 + e.completed
      omega

theorem total_visitNode {a : Answer} (isProcess : α → Bool) {n : Nat} {node : Node α}
    (h : Coherent g jobs (some n) e) (ha : Succeeds a) (hready : node.state = .ready) :
    (jobs ≤ e.active ∧
      ∃ s, visitNode isProcess jobs e a n node = { e with sched := s, control := .scan 0 }) ∨
      (total e < total (visitNode isProcess jobs e a n node) ∧
        (visitNode isProcess jobs e a n node).control = e.control) := by
  unfold visitNode
  simp only [hready, ha.runSync, ha.prepare, ha.cacheAudit, ha.skip, ne_eq, not_true_eq_false,
    if_false, if_true]
  split
  · exact .inr ⟨total_complete e _ n, rfl⟩
  · split
    · exact .inr ⟨total_complete e _ n, rfl⟩
    · cases hrestore : a.restore with
      | error => exact absurd hrestore ha.restore
      | hit => exact .inr ⟨total_complete e _ n, rfl⟩
      | miss => exact total_startNode h ha

/-- Under a successful answer a step returns, is quiet, or is productive. -/
theorem step_cases (isProcess : α → Bool) {a : Answer} (hinv : LoopInvariant g jobs e)
    (hopen : ¬ ∃ r, e.control = .returned r) (ha : Succeeds a) :
    ((step isProcess jobs e a).control = .returned .success ∨
      (step isProcess jobs e a).control = .returned (.failed .stalled)) ∨
      Quiet jobs a e (step isProcess jobs e a) ∨
      (total e < total (step isProcess jobs e a) ∧
        ∀ r, (step isProcess jobs e a).control ≠ .returned r) := by
  unfold step
  cases hcontrol : e.control with
  | returned r => exact absurd ⟨r, hcontrol⟩ hopen
  | loop =>
    simp only [loopStep]
    split
    · exact .inr (.inl (.loop hcontrol rfl))
    · rw [if_pos ha.refreshFlush]
      exact .inl (.inl rfl)
  | pops =>
    simp only [LoopInvariant, hcontrol] at hinv
    simp only [popStep]
    cases hready : e.sched.ready with
    | nil => exact .inr (.inl (.drained hcontrol hready rfl))
    | cons n rest =>
      obtain ⟨hn, hpop⟩ := coherent_pop hinv.1 hready
      obtain ⟨node, hnode, hst⟩ := stateOf_some hn
      simp only [hnode]
      rcases total_visitNode isProcess hpop ha hst with ⟨hfull, s, hs⟩ | ⟨hlt, hc⟩
      · rw [hs]
        exact .inr (.inl (.full hcontrol hfull rfl))
      · refine .inr (.inr ⟨hlt, ?_⟩)
        intro r hr
        rw [hc, hcontrol] at hr
        cases hr
  | scan slot =>
    simp only [LoopInvariant, hcontrol] at hinv
    simp only [scanStep]
    split
    · rename_i hslot
      exact .inr (.inl (.scanned hcontrol hslot rfl))
    · rename_i hslot
      split
      · rename_i n hlive
        rcases ha.poll with hpoll | hpoll
        · simp only [hpoll]
          exact .inr (.inl (.busy hcontrol (by omega) hlive hpoll rfl))
        · simp only [hpoll, ha.finish, ha.checkDepfile, ha.refreshPush, Bool.and_self, if_true]
          exact .inr (.inr ⟨total_complete { e with running := e.running.set slot none,
                                                    active := e.active - 1 } (.finished n) n,
            by simp⟩)
      · rename_i hother
        have hlt : slot < e.running.length := by
          rw [hinv.1.slots]
          omega
        have hget : e.running[slot]? = some e.running[slot] := List.getElem?_eq_getElem hlt
        cases hr : e.running[slot] with
        | none => exact .inr (.inl (.empty hcontrol (by omega) (by rw [hget, hr]) rfl))
        | some n => exact absurd (by rw [hget, hr]) (hother n)
  | idle =>
    simp only [idleStep]
    split
    · rename_i hp
      exact .inr (.inl (.again hcontrol (.inl hp) rfl))
    · split
      · exact .inl (.inr (control_fail _ _))
      · rename_i hp hstall
        rw [if_pos ha.wait]
        simp only [LoopInvariant, hcontrol] at hinv
        have hlt := hinv.2 (by simpa using hp)
        refine .inr (.inl (.again hcontrol (.inr ?_) rfl))
        rintro ⟨hzero, hempty⟩
        exact hstall ⟨hzero, hempty, hlt⟩

/-- Distance of a control point from the next `while` head in quiet steps. -/
def rank (jobs : Nat) : Control → Nat
  | .loop => 0
  | .idle => 1
  | .scan slot => 2 + (jobs - slot)
  | .pops => jobs + 3
  | .returned _ => 0

theorem rank_quiet {a : Answer} {e' : Exec α} (h : Quiet jobs a e e')
    (hloop : e.control ≠ .loop) : rank jobs e'.control < rank jobs e.control := by
  cases h with
  | loop h => exact absurd h hloop
  | drained h _ h' => rw [h, h']; simp only [rank]; omega
  | full h _ h' => rw [h, h']; simp only [rank]; omega
  | scanned h _ h' => rw [h, h']; simp only [rank]; omega
  | empty h hslot _ h' => rw [h, h']; simp only [rank]; omega
  | busy h hslot _ _ h' => rw [h, h']; simp only [rank]; omega
  | again h _ h' => rw [h, h']; simp only [rank]; omega

section Quiescent

variable {isProcess : α → Bool} {answers : Nat → Answer} {path : Nat → Exec α} {start : Nat}

theorem reaches_loop (hquiet : ∀ m, start ≤ m → Quiet jobs (answers m) (path m) (path (m + 1)))
    (m : Nat) (hm : start ≤ m) : ∃ k, m ≤ k ∧ (path k).control = .loop := by
  induction hr : rank jobs (path m).control using Nat.strong_induction_on generalizing m with
  | _ r ih =>
    by_cases hloop : (path m).control = .loop
    · exact ⟨m, le_refl m, hloop⟩
    · have hlt := rank_quiet (hquiet m hm) hloop
      obtain ⟨k, hk, hkl⟩ := ih _ (by omega) (m + 1) (by omega) rfl
      exact ⟨k, by omega, hkl⟩

/-- A quiet scan that starts after every process has exited finds only empty slots. -/
theorem scan_empty (hquiet : ∀ m, start ≤ m → Quiet jobs (answers m) (path m) (path (m + 1)))
    (hexit : ∀ m n, start ≤ m → polled (path m) = some n → (answers m).poll = .exited)
    {m : Nat} (hm : start ≤ m) (hscan : (path m).control = .scan 0) (i : Nat) (hi : i ≤ jobs) :
    path (m + i) = { path m with control := .scan i } ∧
      ∀ j, j < i → (path m).running[j]? = some none := by
  induction i with
  | zero =>
    refine ⟨?_, by omega⟩
    rw [Nat.add_zero, ← hscan]
  | succ i ih =>
    obtain ⟨hpath, hslots⟩ := ih (by omega)
    have hcontrol : (path (m + i)).control = .scan i := by rw [hpath]
    have hrunning : (path (m + i)).running = (path m).running := by rw [hpath]
    have hstep : ∀ {slot : Nat}, (path (m + i)).control = .scan slot → slot = i := by
      intro slot hslot
      rw [hcontrol] at hslot
      exact (Control.scan.inj hslot).symm
    have hnext : path (m + i + 1) = { path (m + i) with control := .scan (i + 1) } →
        path (m + (i + 1)) = { path m with control := .scan (i + 1) } := by
      intro h
      rw [← Nat.add_assoc, h, hpath]
    cases hquiet (m + i) (by omega) with
    | loop h => rw [hcontrol] at h; cases h
    | drained h => rw [hcontrol] at h; cases h
    | full h => rw [hcontrol] at h; cases h
    | again h => rw [hcontrol] at h; cases h
    | scanned h hslot =>
      have := hstep h
      omega
    | empty h hslot hnone h' =>
      rw [hstep h] at hnone h'
      refine ⟨hnext h', ?_⟩
      intro j hj
      by_cases hji : j < i
      · exact hslots j hji
      · have hj' : j = i := by omega
        rw [hj', ← hrunning]
        exact hnone
    | @busy _ n h hslot hlive hpoll h' =>
      rw [hstep h] at hlive
      have hp := hexit (m + i) n (by omega) (by simp [polled, hcontrol, hlive])
      rw [hpoll] at hp
      cases hp

/-- No run stays quiet forever once every process has exited. -/
theorem not_quiet_forever (hjobs : 0 < jobs)
    (hcoherent : ∀ m, start ≤ m → LoopInvariant g jobs (path m))
    (hquiet : ∀ m, start ≤ m → Quiet jobs (answers m) (path m) (path (m + 1)))
    (hexit : ∀ m n, start ≤ m → polled (path m) = some n → (answers m).poll = .exited) :
    False := by
  obtain ⟨k, hk, hloop⟩ := reaches_loop hquiet start (le_refl start)
  -- the round starts without progress and never makes any
  have hpops : path (k + 1) = { path k with progressed := false, control := .pops } := by
    cases hquiet k hk with
    | loop _ h' => exact h'
    | drained h => rw [hloop] at h; cases h
    | full h => rw [hloop] at h; cases h
    | scanned h => rw [hloop] at h; cases h
    | empty h => rw [hloop] at h; cases h
    | busy h => rw [hloop] at h; cases h
    | again h => rw [hloop] at h; cases h
  have hpops_control : (path (k + 1)).control = .pops := by rw [hpops]
  have hscan : ∃ s, path (k + 2) = { path (k + 1) with sched := s, control := .scan 0 } ∧
      ((path (k + 1)).active < jobs → s.ready = []) := by
    cases hquiet (k + 1) (by omega) with
    | drained _ hready h' => exact ⟨_, h', fun _ => hready⟩
    | full _ hactive h' => exact ⟨_, h', fun hlt => absurd hactive (by omega)⟩
    | loop h => rw [hpops_control] at h; cases h
    | scanned h => rw [hpops_control] at h; cases h
    | empty h => rw [hpops_control] at h; cases h
    | busy h => rw [hpops_control] at h; cases h
    | again h => rw [hpops_control] at h; cases h
  obtain ⟨s, hscan, hready⟩ := hscan
  have hscan_control : (path (k + 2)).control = .scan 0 := by rw [hscan]
  obtain ⟨hend, hslots⟩ := scan_empty hquiet hexit (m := k + 2) (by omega) hscan_control jobs
    (le_refl jobs)
  have hend_control : (path (k + 2 + jobs)).control = .scan jobs := by rw [hend]
  have hcoh := hcoherent (k + 2) (by omega)
  simp only [LoopInvariant, hscan_control] at hcoh
  have hlive : (path (k + 2)).live = [] := by
    rw [Exec.live, List.filterMap_eq_nil_iff]
    intro r hr
    obtain ⟨j, hj⟩ := List.mem_iff_getElem?.mp hr
    have hlt := (List.getElem?_eq_some_iff.mp hj).1
    rw [hcoh.1.slots] at hlt
    rw [hslots j hlt] at hj
    exact (Option.some.inj hj).symm
  have hactive : (path (k + 2)).active = 0 := by
    rw [hcoh.1.active_eq, hlive]
    rfl
  have hidle : path (k + 2 + jobs + 1) = { path (k + 2 + jobs) with control := .idle } := by
    cases hquiet (k + 2 + jobs) (by omega) with
    | scanned _ _ h' => exact h'
    | empty h hslot =>
      rw [hend_control] at h
      have := Control.scan.inj h
      omega
    | busy h hslot =>
      rw [hend_control] at h
      have := Control.scan.inj h
      omega
    | loop h => rw [hend_control] at h; cases h
    | drained h => rw [hend_control] at h; cases h
    | full h => rw [hend_control] at h; cases h
    | again h => rw [hend_control] at h; cases h
  have hidle_control : (path (k + 2 + jobs + 1)).control = .idle := by rw [hidle]
  have hactive_pops : (path (k + 1)).active = 0 := by
    rw [hscan] at hactive
    exact hactive
  cases hquiet (k + 2 + jobs + 1) (by omega) with
  | again _ hwait =>
    rw [hidle, hend, hscan, hpops] at hwait
    rcases hwait with hp | hstall
    · cases hp
    · rw [hpops] at hactive_pops hready
      exact hstall ⟨hactive_pops, hready (by omega)⟩
  | loop h => rw [hidle_control] at h; cases h
  | drained h => rw [hidle_control] at h; cases h
  | full h => rw [hidle_control] at h; cases h
  | scanned h => rw [hidle_control] at h; cases h
  | empty h => rw [hidle_control] at h; cases h
  | busy h => rw [hidle_control] at h; cases h

end Quiescent

theorem begun_lt (h : Coherent g jobs none e) {n : Nat} (hn : n ∈ begun e) :
    n < g.nodes.length := by
  have hstate : ∃ st, stateOf e.sched n = some st := by
    rcases (h.begun_iff n).mp hn with hs | hs
    · exact ⟨_, hs⟩
    · exact ⟨_, hs⟩
  obtain ⟨st, hst⟩ := hstate
  obtain ⟨nd, hnd, -⟩ := stateOf_some hst
  rw [← h.consistent.shape.length_eq]
  exact (List.getElem?_eq_some_iff.mp hnd).1

theorem total_le (h : Coherent g jobs none e) : total e ≤ 2 * g.nodes.length := by
  have hbegun : (begun e).length ≤ g.nodes.length := by
    have hsub : begun e ⊆ List.range g.nodes.length := by
      intro n hn
      exact List.mem_range.mpr (begun_lt h hn)
    have := (List.subperm_of_subset h.begun_nodup hsub).length_le
    rwa [List.length_range] at this
  have hdone : e.completed ≤ g.nodes.length := by
    rw [h.completed_eq, ← h.consistent.shape.length_eq]
    exact List.countP_le_length
  unfold total
  omega

theorem coherent_of_open (h : LoopInvariant g jobs e)
    (hopen : ¬ ∃ r, e.control = .returned r) : Coherent g jobs none e := by
  unfold LoopInvariant at h
  cases hcontrol : e.control with
  | returned r => exact absurd ⟨r, hcontrol⟩ hopen
  | loop => simpa only [hcontrol] using h
  | pops => simp only [hcontrol] at h; exact h.1
  | scan slot => simp only [hcontrol] at h; exact h.1
  | idle => simp only [hcontrol] at h; exact h.1

/-- Every process that is polled long enough after its start has exited. -/
def ProcessesExit (path : Nat → Exec α) (answers : Nat → Answer) : Prop :=
  ∀ n, ∃ limit, ∀ m, limit ≤ m → polled (path m) = some n → (answers m).poll = .exited

theorem common_limit {path : Nat → Exec α} {answers : Nat → Answer}
    (h : ProcessesExit path answers) (bound : Nat) :
    ∃ limit, ∀ m n, limit ≤ m → n < bound → polled (path m) = some n →
      (answers m).poll = .exited := by
  induction bound with
  | zero => exact ⟨0, fun m n _ hn => absurd hn (Nat.not_lt_zero n)⟩
  | succ bound ih =>
    obtain ⟨l₁, h₁⟩ := ih
    obtain ⟨l₂, h₂⟩ := h bound
    refine ⟨max l₁ l₂, ?_⟩
    intro m n hm hn hp
    by_cases hnb : n < bound
    · exact h₁ m n (by omega) hnb hp
    · have : n = bound := by omega
      subst this
      exact h₂ m (by omega) hp

theorem polled_lt (h : Coherent g jobs none e) {n : Nat} (hn : polled e = some n) :
    n < g.nodes.length := by
  unfold polled at hn
  cases hcontrol : e.control with
  | scan slot =>
    simp only [hcontrol] at hn
    have hslot : e.running[slot]? = some (some n) := by
      cases hr : e.running[slot]? with
      | none => simp [hr] at hn
      | some r => simp only [hr, Option.join_some] at hn; rw [hn]
    have hrun := (coherent_take h hslot).1
    obtain ⟨nd, hnd, -⟩ := stateOf_some hrun
    rw [← h.consistent.shape.length_eq]
    exact (List.getElem?_eq_some_iff.mp hnd).1
  | loop => simp [hcontrol] at hn
  | pops => simp [hcontrol] at hn
  | idle => simp [hcontrol] at hn
  | returned r => simp [hcontrol] at hn

/-- When no call fails and every process exits, the loop returns. -/
theorem returns (hg : WellFormed g) (isProcess : α → Bool) (jobs : Int)
    (answers : Nat → Answer) (hsucceeds : ∀ m, Succeeds (answers m))
    (hexit : ProcessesExit
      (trajectory (step isProcess (slotCount jobs)) (start g jobs) answers) answers) :
    ∃ m r, (trajectory (step isProcess (slotCount jobs)) (start g jobs) answers m).control =
      .returned r := by
  generalize hpath : trajectory (step isProcess (slotCount jobs)) (start g jobs) answers = path
    at hexit
  have hnext : ∀ m, path (m + 1) = step isProcess (slotCount jobs) (path m) (answers m) := by
    intro m
    rw [← hpath, trajectory_succ]
  have hinv : ∀ m, LoopInvariant g (slotCount jobs) (path m) := by
    intro m
    rw [← hpath]
    exact inv_reachable hg isProcess jobs (reachable_trajectory _ _ _ m)
  have hmono : ∀ n k, total (path n) ≤ total (path (n + k)) := by
    intro n k
    induction k with
    | zero => exact le_refl _
    | succ k ih =>
      rw [← Nat.add_assoc, hnext]
      exact ih.trans (total_le_of_advances (advances_step isProcess (hinv _) _))
  have hprogress : ∀ n, (¬ ∃ r, (path n).control = .returned r) →
      ∃ m, n ≤ m ∧ ((∃ r, (path m).control = .returned r) ∨
        2 * g.nodes.length - total (path m) < 2 * g.nodes.length - total (path n)) := by
    intro n hopen
    by_contra hstuck
    push Not at hstuck
    obtain ⟨limit, hlimit⟩ := common_limit hexit g.nodes.length
    have hcoh : ∀ m, n ≤ m → Coherent g (slotCount jobs) none (path m) := by
      intro m hm
      refine coherent_of_open (hinv m) ?_
      rintro ⟨r, hr⟩
      exact (hstuck m hm).1 r hr
    -- no later step is productive, so all of them are quiet
    have hquiet : ∀ m, n ≤ m →
        Quiet (slotCount jobs) (answers m) (path m) (path (m + 1)) := by
      intro m hm
      have hopen' : ¬ ∃ r, (path m).control = .returned r := by
        rintro ⟨r, hr⟩
        exact (hstuck m hm).1 r hr
      rcases step_cases isProcess (hinv m) hopen' (hsucceeds m) with hr | hq | ⟨hlt, -⟩
      · rw [← hnext] at hr
        rcases hr with hr | hr
        · exact absurd hr ((hstuck (m + 1) (by omega)).1 _)
        · exact absurd hr ((hstuck (m + 1) (by omega)).1 _)
      · rw [← hnext] at hq
        exact hq
      · rw [← hnext] at hlt
        have hle := (hstuck (m + 1) (by omega)).2
        have hbound := total_le (hcoh (m + 1) (by omega))
        obtain ⟨k, rfl⟩ := Nat.exists_eq_add_of_le hm
        have := hmono n k
        omega
    have hprompt : ∀ m k, max n limit ≤ m → polled (path m) = some k →
        (answers m).poll = .exited := by
      intro m k hm hp
      exact hlimit m k (by omega) (polled_lt (hcoh m (by omega)) hp) hp
    have hquiet' : ∀ m, max n limit ≤ m →
        Quiet (slotCount jobs) (answers m) (path m) (path (m + 1)) :=
      fun m hm => hquiet m (by omega)
    exact not_quiet_forever (slotCount_pos jobs) (fun m _ => hinv m) hquiet' hprompt
  have hfinished : ∃ m, 0 ≤ m ∧ ∃ r, (path m).control = .returned r :=
    eventually_of_decreasing path (fun e => ∃ r, e.control = .returned r)
      (fun e => 2 * g.nodes.length - total e) hprogress 0
  obtain ⟨m, -, r, hr⟩ := hfinished
  exact ⟨m, r, hr⟩

end QStar.Scheduler.Progress
