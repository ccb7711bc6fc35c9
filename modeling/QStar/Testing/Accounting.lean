import QStar.Testing.Progress
import QStar.Lib.Tallies

/-!
# Resources in use

The counters of the batch against what they count: the amounts the runs with resources hold,
the number of these runs and the number of finished runs. The amounts are added in machine
integers, so that what is counted is the sum up to wrap-around.
-/
namespace QStar.Testing

open QStar.Lib.CStrings
open QStar.Lib.Runs
open QStar.Lib.Tallies
open QStar.Base

/-- What one request asks of a resource. -/
def requestShare (g : TestGraph) (i : Nat) (q : ResourceRequest) : Int :=
  if resourceIndex g q.name = some i then q.amount.toInt else 0

/-- What a test asks of a resource. -/
def requestedOn (g : TestGraph) (t : TestTarget) (i : Nat) : Int :=
  tally (requestShare g i) t.testResources

/-- What a run holds of a resource. -/
def heldBy (g : TestGraph) (i : Nat) (r : Run) : Int :=
  if r.resourcesHeld then requestedOn g r.target i else 0

/-- What all runs together hold of a resource. -/
def heldOn (g : TestGraph) (runs : List Run) (i : Nat) : Int := tally (heldBy g i) runs

theorem changeResource_apply (g : TestGraph) (acquire : Bool) (used : Nat → Int32)
    (q : ResourceRequest) (i : Nat) :
    changeResource g acquire used q i =
      used i + Int32.ofInt (if acquire then requestShare g i q else -requestShare g i q) := by
  unfold changeResource requestShare
  cases hq : resourceIndex g q.name with
  | none => cases acquire <;> simp
  | some j =>
    by_cases hij : j = i
    · subst hij
      cases acquire <;> simp
    · cases acquire <;> simp [hij, Function.update_of_ne (Ne.symm hij)]

/-- `change_resources` adds to each counter, or takes from it, what the test asks for. -/
theorem changeResources_apply (g : TestGraph) (used : Nat → Int32) (t : TestTarget)
    (acquire : Bool) (i : Nat) :
    changeResources g used t acquire i =
      used i + Int32.ofInt (if acquire then requestedOn g t i else -requestedOn g t i) := by
  unfold changeResources requestedOn
  generalize t.testResources = requests
  induction requests generalizing used with
  | nil => cases acquire <;> simp
  | cons q rest ih =>
    rw [List.foldl_cons, ih, changeResource_apply, tally_cons, Int32.add_assoc, ← Int32.ofInt_add]
    cases acquire
    · simp only [Bool.false_eq_true, if_false, neg_add]
    · simp only [if_true]

/-- Each counter of the pool after a test has taken its resources. -/
theorem acquire_used (g : TestGraph) (pool : Pool) (t : TestTarget) (i : Nat) :
    (pool.acquire g t).used i = pool.used i + Int32.ofInt (requestedOn g t i) :=
  changeResources_apply g pool.used t true i

theorem release_used (g : TestGraph) (pool : Pool) (t : TestTarget) (i : Nat) :
    (pool.release g t).used i = pool.used i + Int32.ofInt (-requestedOn g t i) :=
  changeResources_apply g pool.used t false i

def holding (r : Run) : Nat := if r.resourcesHeld then 1 else 0

/-- A call that moves a run on changes the counters by what the run holds more or less. -/
structure Balanced (g : TestGraph) (r : Run) (pool : Pool) (x : Run × Pool) : Prop where
  target : x.1.target = r.target
  used : ∀ i, x.2.used i = pool.used i + Int32.ofInt (heldBy g i x.1 - heldBy g i r)
  holders : x.2.holders + holding r = pool.holders + holding x.1

variable {g : TestGraph} {r : Run} {pool : Pool}

/-- A run that keeps what it holds changes no counter. -/
theorem balanced_kept {r' : Run} (htarget : r'.target = r.target)
    (hheld : r'.resourcesHeld = r.resourcesHeld) : Balanced g r pool (r', pool) where
  target := htarget
  used := by simp [heldBy, htarget, hheld]
  holders := by simp [holding, hheld]

theorem closeAttempt_balanced {r' : Run} (htarget : r'.target = r.target)
    (hheld : r.resourcesHeld = true) (hpool : 0 < pool.holders) :
    Balanced g r pool (closeAttempt g r' pool) := by
  have hclosed : (closeAttempt g r' pool).1.target = r.target ∧
      (closeAttempt g r' pool).1.resourcesHeld = false := by
    unfold closeAttempt finishAttempt
    split
    · exact ⟨htarget, rfl⟩
    · exact ⟨htarget, rfl⟩
  have hreleased : (closeAttempt g r' pool).2 = pool.release g r.target := by
    rw [← htarget]
    unfold closeAttempt finishAttempt
    split <;> rfl
  refine ⟨hclosed.1, ?_, ?_⟩
  · intro i
    rw [hreleased, release_used]
    simp [heldBy, hclosed.2, hheld]
  · simp only [hreleased, Pool.release, holding, hclosed.2, hheld, if_true, Bool.false_eq_true, if_false]
    omega

theorem advanceToCleanup_balanced (starts : Phase → Bool) {r' : Run} (completed : Phase)
    (htarget : r'.target = r.target) (hkept : r'.resourcesHeld = r.resourcesHeld)
    (hheld : r.resourcesHeld = true) (hpool : 0 < pool.holders) :
    Balanced g r pool (advanceToCleanup g starts r' completed pool) := by
  unfold advanceToCleanup
  split
  · split
    · exact balanced_kept htarget hkept
    · exact closeAttempt_balanced htarget hheld hpool
  · exact closeAttempt_balanced htarget hheld hpool

theorem advanceAfterPhase_balanced (starts : Phase → Bool) {r' : Run} (completed : Phase)
    (htarget : r'.target = r.target) (hkept : r'.resourcesHeld = r.resourcesHeld)
    (hheld : r.resourcesHeld = true) (hpool : 0 < pool.holders) :
    Balanced g r pool (advanceAfterPhase g starts r' completed pool) := by
  unfold advanceAfterPhase
  split
  · split
    · exact balanced_kept htarget hkept
    · exact advanceToCleanup_balanced starts completed htarget hkept hheld hpool
  · exact advanceToCleanup_balanced starts completed htarget hkept hheld hpool

/-- A run that holds nothing is charged for what it has when its attempt is started. -/
theorem startAttempt_balanced (pool : Pool) (starts : Phase → Bool)
    (hheld : r.resourcesHeld = false) :
    Balanced g r pool (startAttempt g starts r pool) := by
  have hacquired (x : Run × Pool)
      (h : Balanced g { r with resourcesHeld := true } (pool.acquire g r.target) x) :
      Balanced g r pool x := by
    refine ⟨h.target, ?_, ?_⟩
    · intro i
      rw [h.used i, acquire_used, Int32.add_assoc, ← Int32.ofInt_add]
      simp [heldBy, hheld]
    · have hholders := h.holders
      simp only [holding, hheld, if_true, Bool.false_eq_true, if_false, Pool.acquire] at hholders ⊢
      omega
  apply hacquired
  unfold startAttempt
  dsimp only
  split
  · exact balanced_kept rfl rfl
  · exact advanceAfterPhase_balanced starts _ rfl rfl rfl (Nat.succ_pos _)

/-- The counters of a batch agree with its runs. -/
structure Counted (g : TestGraph) (s : Batch) : Prop where
  used : ∀ i, s.pool.used i = Int32.ofInt (heldOn g s.runs i)
  holders : s.pool.holders = s.runs.countP Run.resourcesHeld
  doneCount : s.doneCount = s.runs.countP isDone

/-- What all runs hold after one of them has been moved on. -/
theorem heldOn_put {s : Batch} {i : Nat} {x : Run × Pool} {point : Point} (j : Nat)
    (found : s.runs[i]? = some r) :
    heldOn g (s.put i x point).runs j = heldOn g s.runs j + (heldBy g j x.1 - heldBy g j r) := by
  have hset : heldOn g (s.put i x point).runs j + heldBy g j r = heldOn g s.runs j + heldBy g j x.1 :=
    tally_set (heldBy g j) x.1 found
  omega

theorem Counted.put {s : Batch} {i : Nat} {x : Run × Pool} {point : Point} (h : Counted g s)
    (found : s.runs[i]? = some r) (balanced : Balanced g r s.pool x) (unfinished : isDone r = false) :
    Counted g (s.put i x point) where
  used := by
    intro j
    rw [heldOn_put j found, Int32.ofInt_add, ← h.used j]
    exact balanced.used j
  holders := by
    have hset := countP_set Run.resourcesHeld x.1 found
    have hholders := balanced.holders
    rw [h.holders] at hholders
    simp only [holding] at hholders
    show x.2.holders = (s.runs.set i x.1).countP Run.resourcesHeld
    omega
  doneCount := by
    have hset := countP_set isDone x.1 found
    simp only [unfinished, Bool.false_eq_true, if_false, Nat.add_zero] at hset
    rw [Batch.put, h.doneCount, hset]

theorem Counted.holders_pos {s : Batch} (h : Counted g s) (hr : r ∈ s.runs)
    (hheld : r.resourcesHeld = true) : 0 < s.pool.holders := by
  rw [h.holders]
  exact List.countP_pos_iff.mpr ⟨r, hr, hheld⟩

theorem heldOn_eq_zero {runs : List Run} (h : ∀ r ∈ runs, r.resourcesHeld = false) (i : Nat) :
    heldOn g runs i = 0 :=
  tally_eq_zero fun r hr => by simp [heldBy, h r hr]

theorem countP_held_eq_zero {runs : List Run} (h : ∀ r ∈ runs, r.resourcesHeld = false) :
    runs.countP Run.resourcesHeld = 0 :=
  List.countP_eq_zero.mpr fun r hr => by simp [h r hr]

/-- Where no run holds anything the pool is as it was at the start. -/
theorem Counted.idle {s : Batch} (h : Counted g s) (hidle : ∀ r ∈ s.runs, r.resourcesHeld = false) :
    (∀ i, s.pool.used i = 0) ∧ s.pool.holders = 0 := by
  refine ⟨fun i => ?_, ?_⟩
  · rw [h.used i, heldOn_eq_zero hidle]
    rfl
  · rw [h.holders, countP_held_eq_zero hidle]

theorem counted_start (g : TestGraph) (targets : List TestTarget) (options : Option TestOptions) :
    Counted g (Batch.start targets options) := by
  have hidle : ∀ r ∈ (Batch.start targets options).runs, r.resourcesHeld = false := by
    intro r hr
    obtain ⟨t, -, rfl⟩ := List.mem_map.mp hr
    unfold initialRun
    split
    · rfl
    · split <;> rfl
  refine ⟨fun i => ?_, ?_, rfl⟩
  · rw [heldOn_eq_zero hidle]
    rfl
  · rw [countP_held_eq_zero hidle]
    rfl

/-- A pending run holds nothing. -/
theorem Progress.pending_idle (h : Progress g r) (hp : r.phase = .pending) :
    r.resourcesHeld = false ∧ isDone r = false := by
  cases h with
  | waiting _ _ _ _ _ _ held _ => exact ⟨held, by simp [isDone, hp]⟩
  | skipped phase => rw [phase] at hp; cases hp
  | finished _ _ _ phase => rw [phase] at hp; cases hp
  | underway os a p reaches within =>
    rw [← within.phase, hp] at reaches
    exact reaches.elim

/-- A run with a live process holds its resources and is in one of the three phases. -/
theorem Progress.running_held (h : Progress g r) (hr : r.running = true) :
    r.resourcesHeld = true ∧ isDone r = false := by
  cases h with
  | underway os a p reaches within =>
    refine ⟨within.held, ?_⟩
    have hne : r.phase ≠ .done := by
      intro hdone
      rw [← within.phase, hdone] at reaches
      exact reaches.elim
    simp [isDone, hne]
  | skipped _ _ _ _ _ idle => rw [idle] at hr; cases hr
  | waiting _ _ _ _ _ _ _ idle => rw [idle] at hr; cases hr
  | finished _ _ _ _ _ _ _ _ _ idle => rw [idle] at hr; cases hr

/-- A run without a live process holds nothing, and is pending or done. -/
theorem Progress.stopped_idle (h : Progress g r) (hr : r.running = false) :
    r.resourcesHeld = false ∧ (r.phase = .pending ∨ r.phase = .done) := by
  cases h with
  | underway os a p reaches within => rw [within.running] at hr; cases hr
  | skipped phase _ _ _ held _ => exact ⟨held, .inr phase⟩
  | waiting _ _ phase _ _ _ held _ => exact ⟨held, .inl phase⟩
  | finished _ _ _ phase _ _ _ _ held _ => exact ⟨held, .inr phase⟩

/-- What the call for a process that has ended does to the counters. -/
theorem finish_balanced (h : Progress g r) (hr : r.running = true) (starts : Phase → Bool)
    (outcome : Outcome) (hpool : 0 < pool.holders) :
    Balanced g r pool (advanceAfterPhase g starts (completePhase r outcome) r.phase pool) := by
  have heq := completePhase_eq r outcome
  exact advanceAfterPhase_balanced starts _ (by rw [heq]) (by rw [heq]) (h.running_held hr).1 hpool

theorem counted_run {targets : List TestTarget} {options : Option TestOptions} {s : Batch}
    (hs : BatchState g targets options s) : Counted g s := by
  induction hs with
  | refl => exact counted_start g targets options
  | @next s a hs ih =>
    have hprogress := progress_run hs
    cases step_cases g (jobCount options) s a with
    | move point eq =>
      rw [eq]
      exact ⟨ih.used, ih.holders, ih.doneCount⟩
    | start i r _ found _ pending _ eq =>
      have hidle := (hprogress r (List.mem_of_getElem? found)).pending_idle pending
      rw [eq]
      exact ih.put found (startAttempt_balanced s.pool a.starts hidle.1) hidle.2
    | finish i r outcome _ found running eq =>
      have hmem := List.mem_of_getElem? found
      have hheld := (hprogress r hmem).running_held running
      rw [eq]
      exact ih.put found (finish_balanced (hprogress r hmem) running a.starts outcome
        (ih.holders_pos hmem hheld.1)) hheld.2

/-- The targets of the runs are those the batch was given. -/
theorem targets_run {targets : List TestTarget} {options : Option TestOptions} {s : Batch}
    (hs : BatchState g targets options s) : ∀ r ∈ s.runs, r.target ∈ targets := by
  induction hs with
  | refl =>
    intro r hr
    obtain ⟨t, ht, rfl⟩ := List.mem_map.mp hr
    have htarget : (initialRun options t).target = t := by
      unfold initialRun
      split
      · rfl
      · split <;> rfl
    rwa [htarget]
  | @next s a hs ih =>
    have hprogress := progress_run hs
    intro r hr
    cases step_cases g (jobCount options) s a with
    | move point eq =>
      rw [eq] at hr
      exact ih r hr
    | start i r₀ _ found _ pending _ eq =>
      have hidle := (hprogress r₀ (List.mem_of_getElem? found)).pending_idle pending
      rw [eq] at hr
      rcases mem_put hr with hr | rfl
      · exact ih r hr
      · rw [(startAttempt_balanced s.pool a.starts hidle.1).target]
        exact ih r₀ (List.mem_of_getElem? found)
    | finish i r₀ outcome _ found running eq =>
      have hmem := List.mem_of_getElem? found
      have hheld := (hprogress r₀ hmem).running_held running
      rw [eq] at hr
      rcases mem_put hr with hr | rfl
      · exact ih r hr
      · rw [(finish_balanced (hprogress r₀ hmem) running a.starts outcome
          ((counted_run hs).holders_pos hmem hheld.1)).target]
        exact ih r₀ hmem

end QStar.Testing
