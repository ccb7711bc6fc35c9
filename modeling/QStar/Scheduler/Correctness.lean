import QStar.Scheduler.Progress

/-!
# Correctness of `scheduler_execute`

The results of the run lemmas for node graphs that the scheduler's own two
operations build. A run can fail after every node completed, because the
deferred depfile refresh still decides the result.
-/
namespace QStar.Scheduler.Correctness

open QStar.Lib.Cycles
open QStar.Lib.Runs
open QStar.Scheduler.NodeGraph
open QStar.Scheduler.Completion
open QStar.Scheduler.Consistency
open QStar.Scheduler.Execute
open QStar.Scheduler.Invariant
open QStar.Scheduler.Safety
open QStar.Scheduler.Progress

universe u

variable {α : Type u}

/-- A node graph that only `scheduler_add_node` and `scheduler_add_edge` produced. -/
structure BuiltGraph (α : Type u) where
  sched : Sched α
  built : Built sched

variable {g : Sched α} {jobs : Nat} {e : Exec α}

theorem slotCount_eq (jobs : Int) : slotCount jobs = max jobs.toNat 1 := by
  unfold slotCount
  split <;> omega

theorem live_le (h : LoopInvariant g jobs e) : e.live.length ≤ jobs := by
  by_cases hreturned : ∃ r, e.control = .returned r
  · obtain ⟨r, hr⟩ := hreturned
    simp only [LoopInvariant, hr] at h
    simp [h.live_nil]
  · exact live_le_of_coherent (coherent_of_open h hreturned)

theorem recorded_of_inv (h : LoopInvariant g jobs e) : Recorded g e := by
  by_cases hreturned : ∃ r, e.control = .returned r
  · obtain ⟨r, hr⟩ := hreturned
    simp only [LoopInvariant, hr] at h
    exact h.recorded
  · exact recorded_of_coherent (coherent_of_open h hreturned)

/-- A finished graph has no cycle, because work only begins behind done dependencies. -/
theorem not_cyclic_of_allDone (h : Recorded g e) (hall : AllDone e.sched) : ¬ Cyclic (Edge g) := by
  rintro ⟨n, hn⟩
  obtain ⟨m, -, hmn⟩ := Relation.TransGen.tail'_iff.mp hn
  have hlt : n < g.nodes.length := by
    by_contra hge
    have hnone : g.nodes[n]? = none := List.getElem?_eq_none (by omega)
    simp [Edge, Sched.deps, hnone] at hmn
  have hdone := hall n (by rw [h.shape.length_eq]; exact hlt)
  exact not_transGen_self_of_acc (h.grounded n .done hdone (by simp)) hn

/-- Inside a round the loop only returns through its `fail` label. -/
def FailsOnly (e : Exec α) : Prop :=
  ∀ r, e.control = .returned r → r ≠ .success ∧ r ≠ .failed .depfileRefresh

theorem failsOnly_of_control {c : Control} (h : e.control = c) (hc : ∀ r, c ≠ .returned r) :
    FailsOnly e := by
  intro r hr
  rw [h] at hr
  exact absurd hr (hc r)

theorem failsOnly_fail (e : Exec α) {why : Failure} (h : why ≠ .depfileRefresh) :
    FailsOnly (e.fail why) := by
  intro r hr
  rw [control_fail] at hr
  cases hr
  exact ⟨by simp, by simpa using h⟩

theorem failsOnly_startNode (h : e.control = .pops) (a : Answer) (n : Nat) :
    FailsOnly (startNode jobs e a n) := by
  unfold startNode
  split
  · exact failsOnly_of_control rfl (by simp)
  · split
    · exact failsOnly_fail e (by simp)
    · cases a.start with
      | error => exact failsOnly_fail _ (by simp)
      | skipped => exact failsOnly_of_control (c := .pops) h (by simp)
      | spawned => exact failsOnly_of_control (c := .pops) h (by simp)

theorem failsOnly_visitNode (isProcess : α → Bool) (h : e.control = .pops) (a : Answer)
    (n : Nat) (node : Node α) : FailsOnly (visitNode isProcess jobs e a n node) := by
  have hopen : ∀ {e' : Exec α}, e'.control = e.control → FailsOnly e' := by
    intro e' he'
    exact failsOnly_of_control (he'.trans h) (by simp)
  have hfail : FailsOnly (e.failNode n) := failsOnly_fail _ (by simp)
  unfold visitNode
  split
  · exact hopen rfl
  · split
    · split
      · exact hopen rfl
      · exact failsOnly_fail _ (by simp)
    · split
      · exact hfail
      · split
        · exact hfail
        · split
          · split
            · exact hopen rfl
            · exact hfail
          · cases a.restore with
            | error => exact hfail
            | hit =>
              simp only
              split
              · exact hopen rfl
              · exact hfail
            | miss => exact failsOnly_startNode h a n

theorem failsOnly_scanStep (slot : Nat) (a : Answer) : FailsOnly (scanStep jobs e a slot) := by
  unfold scanStep
  split
  · exact failsOnly_of_control rfl (by simp)
  · split
    · cases a.poll with
      | drainError => exact failsOnly_fail _ (by simp)
      | waitError => exact failsOnly_fail _ (by simp)
      | busy => exact failsOnly_of_control rfl (by simp)
      | timedOut => exact failsOnly_fail _ (by simp)
      | exited =>
        simp only
        split
        · exact failsOnly_of_control rfl (by simp)
        · exact failsOnly_fail _ (by simp)
    · exact failsOnly_of_control rfl (by simp)

theorem failsOnly_idleStep (a : Answer) : FailsOnly (idleStep e a) := by
  unfold idleStep
  split
  · exact failsOnly_of_control rfl (by simp)
  · split
    · exact failsOnly_fail e (by simp)
    · split
      · exact failsOnly_of_control rfl (by simp)
      · exact failsOnly_fail e (by simp)

theorem failsOnly_step (isProcess : α → Bool) (hopen : ¬ ∃ r, e.control = .returned r)
    (hloop : e.control ≠ .loop) (a : Answer) : FailsOnly (step isProcess jobs e a) := by
  unfold step
  cases hcontrol : e.control with
  | loop => exact absurd hcontrol hloop
  | returned r => exact absurd ⟨r, hcontrol⟩ hopen
  | scan slot => exact failsOnly_scanStep slot a
  | idle => exact failsOnly_idleStep a
  | pops =>
    simp only [popStep]
    split
    · exact failsOnly_of_control rfl (by simp)
    · split
      · exact failsOnly_of_control (c := .pops) hcontrol (by simp)
      · rename_i n rest _ _ node _
        exact failsOnly_visitNode isProcess (e := { e with sched := { e.sched with ready := rest } })
          hcontrol a n node

/-- The returning step decides the result: success needs every node and the refresh. -/
theorem returns_success_iff (hg : WellFormed g) (isProcess : α → Bool)
    (h : LoopInvariant g jobs e) (hopen : ¬ ∃ r, e.control = .returned r) {a : Answer}
    {r : Result} (hr : (step isProcess jobs e a).control = .returned r) :
    r = .success ↔ AllDone (step isProcess jobs e a).sched ∧ a.refreshFlush = true := by
  have hafter := inv_step hg isProcess h a
  simp only [LoopInvariant, hr] at hafter
  have hcause := hafter.cause
  by_cases hloop : e.control = .loop
  · -- only the `while` head reaches the refresh
    simp only [step, hloop, loopStep] at hr hcause ⊢
    split at hr
    · cases hr
    · rename_i hge
      simp only [hge, if_false] at hcause ⊢
      split at hr
      · rename_i hflush
        cases hr
        simp only [hflush, if_true] at hcause ⊢
        simp only [true_iff]
        exact ⟨hcause, trivial⟩
      · rename_i hflush
        cases hr
        simp [hflush]
  · have hfail := failsOnly_step isProcess hopen hloop a r hr
    constructor
    · intro hs
      exact absurd hs hfail.1
    · rintro ⟨hall, -⟩
      cases r with
      | success => rfl
      | failed why =>
        cases why with
        | depfileRefresh => exact absurd rfl hfail.2
        | stalled => exact absurd hall hcause.1
        | action n => exact absurd hall hcause
        | noFreeSlot => exact absurd hall hcause
        | childOutput => exact absurd hall hcause
        | processWait => exact absurd hall hcause
        | outputWait => exact absurd hall hcause

/-- When no call fails, only a stall can make the run fail. -/
theorem result_of_succeeds (isProcess : α → Bool)
    (h : LoopInvariant g jobs e) (hopen : ¬ ∃ r, e.control = .returned r) {a : Answer}
    (ha : Succeeds a) {r : Result} (hr : (step isProcess jobs e a).control = .returned r) :
    r = .success ∨ r = .failed .stalled := by
  rcases step_cases isProcess h hopen ha with hdone | hquiet | ⟨-, hnot⟩
  · rw [hr] at hdone
    simpa using hdone
  · cases hquiet with
    | loop _ h' => rw [h'] at hr; cases hr
    | drained _ _ h' => rw [h'] at hr; cases hr
    | full _ _ h' => rw [h'] at hr; cases hr
    | scanned _ _ h' => rw [h'] at hr; cases hr
    | empty _ _ _ h' => rw [h'] at hr; cases hr
    | busy _ _ _ _ h' => rw [h'] at hr; cases hr
    | again _ _ h' => rw [h'] at hr; cases hr
  · exact absurd hr (hnot r)

theorem inv_execute (hg : WellFormed g) (isProcess : α → Bool) (jobs : Int)
    (answers : List Answer) :
    LoopInvariant g (slotCount jobs) (execute isProcess g jobs answers) :=
  inv_reachable hg isProcess jobs (reachable_foldl _ _ answers)

/-- What holds of one state of a run and of the step the environment answers next. -/
structure RunSound (isProcess : α → Bool) (g : Sched α) (jobs : Int) (e : Exec α) : Prop where
  started_once : (begun e).Nodup
  started_ready : ∀ a new, begun (step isProcess (slotCount jobs) e a) = begun e ++ new →
    ∀ n ∈ new, n ∉ begun e ∧ ∀ d ∈ g.deps n, stateOf e.sched d = some .done
  live_bound : e.live.length ≤ max jobs.toNat 1
  completed_eq : e.completed = doneCount e.sched
  spoiled_not_completed : ∀ n ∈ spoiled e, stateOf e.sched n ≠ some .done
  success_iff : (¬ ∃ r, e.control = .returned r) → ∀ a r,
    (step isProcess (slotCount jobs) e a).control = .returned r →
      (r = .success ↔
        AllDone (step isProcess (slotCount jobs) e a).sched ∧ a.refreshFlush = true)
  stalled_cyclic : e.control = .returned (.failed .stalled) → Cyclic (Edge g)

theorem runSound_of_inv (hg : WellFormed g) (isProcess : α → Bool) (jobs : Int)
    (h : LoopInvariant g (slotCount jobs) e) : RunSound isProcess g jobs e := by
  have hrec := recorded_of_inv h
  refine ⟨hrec.begun_nodup, ?_, ?_, hrec.completed_eq, hrec.spoiled_open, ?_, ?_⟩
  · intro a new hnew n hn
    obtain ⟨⟨added, hadded, hready⟩, -⟩ := advances_step isProcess h a
    rw [hadded] at hnew
    have hsame := List.append_cancel_left hnew
    subst hsame
    have hafter := recorded_of_inv (inv_step hg isProcess h a)
    have hfresh := hafter.begun_nodup
    rw [hadded, List.nodup_append] at hfresh
    refine ⟨fun hmem => hfresh.2.2 n hmem n hn rfl, ?_⟩
    have hopen : ¬ ∃ r, e.control = .returned r := by
      rintro ⟨r, hr⟩
      have hnil : begun (step isProcess (slotCount jobs) e a) = begun e := by
        simp only [step, hr]
      rw [hadded] at hnil
      have := List.append_right_eq_self.mp hnil
      rw [this] at hn
      cases hn
    exact state_deps (coherent_of_open h hopen).consistent (hready n hn) (by simp)
  · rw [← slotCount_eq]
    exact live_le h
  · intro hopen a r hr
    exact returns_success_iff hg isProcess h hopen hr
  · intro hr
    simp only [LoopInvariant, hr] at h
    exact h.cause.2

/-- When no call fails and every process exits, the run returns, and it reports a stall
exactly when the edges have a cycle. -/
theorem returns_by_cycle (hg : WellFormed g) (isProcess : α → Bool) (jobs : Int)
    (answers : Nat → Answer) (hsucceeds : ∀ m, Succeeds (answers m))
    (hexit : ProcessesExit
      (trajectory (step isProcess (slotCount jobs)) (start g jobs) answers) answers) :
    ∃ m, (Cyclic (Edge g) → (trajectory (step isProcess (slotCount jobs)) (start g jobs)
        answers m).control = .returned (.failed .stalled)) ∧
      (¬ Cyclic (Edge g) → (trajectory (step isProcess (slotCount jobs)) (start g jobs)
        answers m).control = .returned .success) := by
  generalize hpath : trajectory (step isProcess (slotCount jobs)) (start g jobs) answers = path
    at hexit ⊢
  have hinv : ∀ m, LoopInvariant g (slotCount jobs) (path m) := by
    intro m
    rw [← hpath]
    exact inv_reachable hg isProcess jobs (reachable_trajectory _ _ _ m)
  have hreturned : ∃ m r, (path m).control = .returned r := by
    rw [← hpath] at hexit ⊢
    exact returns hg isProcess jobs answers hsucceeds hexit
  -- every returned state of the path came from a step under a successful answer
  have hresult : ∀ m r, (path m).control = .returned r →
      r = .success ∨ r = .failed .stalled := by
    intro m
    induction m with
    | zero =>
      intro r hr
      rw [← hpath] at hr
      cases hr
    | succ m ih =>
      intro r hr
      have hnext : path (m + 1) = step isProcess (slotCount jobs) (path m) (answers m) := by
        rw [← hpath, trajectory_succ]
      by_cases hopen : ∃ r', (path m).control = .returned r'
      · obtain ⟨r', hr'⟩ := hopen
        rw [hnext] at hr
        simp only [step, hr'] at hr
        exact ih r (by rw [← hr, hr'])
      · rw [hnext] at hr
        exact result_of_succeeds isProcess (hinv m) hopen (hsucceeds m) hr
  obtain ⟨m, r, hr⟩ := hreturned
  have hstopped := hinv m
  simp only [LoopInvariant, hr] at hstopped
  refine ⟨m, ?_, ?_⟩
  · intro hcyclic
    rcases hresult m r hr with rfl | rfl
    · exact absurd hcyclic (not_cyclic_of_allDone hstopped.recorded hstopped.cause)
    · exact hr
  · intro hacyclic
    rcases hresult m r hr with rfl | rfl
    · exact hr
    · exact absurd hstopped.cause.2 hacyclic

/-- Every state of every run of `scheduler_execute` on a built node graph is sound, and a
run without failures returns with the result its edges determine. -/
theorem scheduler_execute_sound (g : BuiltGraph α) (isProcess : α → Bool) (jobs : Int) :
    (∀ answers : List Answer,
      RunSound isProcess g.sched jobs (execute isProcess g.sched jobs answers)) ∧
    ∀ answers : Nat → Answer, (∀ m, Succeeds (answers m)) →
      ProcessesExit (trajectory (step isProcess (slotCount jobs)) (start g.sched jobs) answers)
        answers →
      ∃ m, (Cyclic (Edge g.sched) → (trajectory (step isProcess (slotCount jobs))
          (start g.sched jobs) answers m).control = .returned (.failed .stalled)) ∧
        (¬ Cyclic (Edge g.sched) → (trajectory (step isProcess (slotCount jobs))
          (start g.sched jobs) answers m).control = .returned .success) := by
  have hg := g.built.wellFormed
  constructor
  · intro answers
    exact runSound_of_inv hg isProcess jobs (inv_execute hg isProcess jobs answers)
  · intro answers hsucceeds hexit
    exact returns_by_cycle hg isProcess jobs answers hsucceeds hexit

/-- Every call succeeds, nothing is cached and each process exits at its first poll. -/
def allSucceed : Answer :=
  { runSync := true, prepare := true, cacheAudit := true, cacheHit := false, skip := true,
    restore := .miss, start := .spawned, poll := .exited, finish := true,
    checkDepfile := true, refreshPush := true, wait := true, refreshFlush := true }

theorem succeeds_allSucceed : Succeeds allSucceed := by
  constructor <;> simp [allSucceed]

/-- Two nodes that depend on each other. -/
def mutualNodes : BuiltGraph Unit where
  sched := ⟨[⟨(), .pending, 1, [1], [1]⟩, ⟨(), .pending, 1, [0], [0]⟩], []⟩
  built := by
    have hnodes : Built (addNode (addNode .empty ()) ()) := .node () (.node () .empty)
    have hback : Built (⟨[⟨(), .pending, 1, [1], []⟩, ⟨(), .pending, 0, [], [0]⟩], []⟩ : Sched Unit) :=
      @Built.edge Unit _ _ 1 0 hnodes (by decide) (by decide) rfl
    exact @Built.edge Unit _ _ 0 1 hback (by decide) (by decide) rfl

theorem cyclic_mutualNodes : Cyclic (Edge mutualNodes.sched) := by
  have h01 : Edge mutualNodes.sched 0 1 := List.mem_singleton.mpr rfl
  have h10 : Edge mutualNodes.sched 1 0 := List.mem_singleton.mpr rfl
  exact ⟨0, .tail (.single h01) h10⟩

theorem scheduler_execute_sound_mutual :
    (execute (fun _ => true) mutualNodes.sched 2 [allSucceed]).live.length ≤ max (2 : Int).toNat 1 ∧
    ∃ m, (trajectory (step (fun _ => true) (slotCount 2)) (start mutualNodes.sched 2)
      (fun _ => allSucceed) m).control = .returned (.failed .stalled) := by
  obtain ⟨hrun, hreturn⟩ := scheduler_execute_sound mutualNodes (fun _ => true) 2
  refine ⟨(hrun [allSucceed]).live_bound, ?_⟩
  obtain ⟨m, hm, -⟩ := hreturn (fun _ => allSucceed) (fun _ => succeeds_allSucceed)
    (fun _ => ⟨0, fun _ _ _ => rfl⟩)
  exact ⟨m, hm cyclic_mutualNodes⟩

/-- One process node without edges. -/
def singleNode : BuiltGraph Unit := ⟨addNode .empty (), .node () .empty⟩

/-- Every call of the loop succeeds, but the final refresh fails. -/
def refreshFails : Answer := { allSucceed with refreshFlush := false }

/-- A run can complete every node and still not return success. -/
theorem all_done_without_success :
    ∃ answers : List Answer,
      let e := execute (fun _ => true) singleNode.sched 1 answers
      (∀ n, n < e.sched.nodes.length → stateOf e.sched n = some .done) ∧
        e.completed = e.sched.nodes.length ∧
        e.control = .returned (.failed .depfileRefresh) := by
  refine ⟨List.replicate 7 refreshFails, ?_⟩
  decide

end QStar.Scheduler.Correctness
