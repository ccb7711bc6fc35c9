import QStar.Testing.Progress

/-!
# What a test reports

The lifecycle of a test over its attempts, the status it ends with, and the phase whose
action id and logs stand in its result.
-/
namespace QStar.Testing

open QStar.Lib.CStrings
open QStar.Lib.Runs
open QStar.Base

/-- A process that was started and exited with success. -/
def PhaseEnd.Succeeded (e : PhaseEnd) : Prop := e = .ended (.exited 0)

instance (e : PhaseEnd) : Decidable e.Succeeded := inferInstanceAs (Decidable (e = _))

theorem status_eq_none_iff (phase : Phase) (e : PhaseEnd) :
    e.status phase = none ↔ e.Succeeded := by
  cases e with
  | refused => simp [PhaseEnd.status, PhaseEnd.Succeeded]
  | ended outcome =>
    cases outcome with
    | exited code => by_cases hc : code = 0 <;> simp [PhaseEnd.status, PhaseEnd.Succeeded, hc]
    | signaled number => simp [PhaseEnd.status, PhaseEnd.Succeeded]
    | timedOut => simp [PhaseEnd.status, PhaseEnd.Succeeded]

/-- What a run has done: some whole attempts and the start of another one, which is empty
where none is going on. -/
structure Lifecycle (r : Run) (os : List Attempt) (current : List Entry) : Prop where
  history : r.history = attemptsEntries r.target 1 os ++ current
  started : ∃ a : Attempt, current <+: a.entries r.target (os.length + 1)
  unfinished : .released ∉ current
  attempt : r.attempt = os.length + if current = [] then 0 else 1
  bounded : r.attempt ≤ r.target.testRetryCount + 1
  retried : ∀ a ∈ if current = [] then os.dropLast else os, a.verdict r.target ∈ r.target.testRetryOn
  final : r.phase = .done → (r.status = some .skip ∧ r.history = []) ∨
    ∃ before a, os = before ++ [a] ∧ current = [] ∧ r.status = some (a.verdict r.target)

/-- What the verdict on an attempt says about its phases. -/
structure Judged (t : TestTarget) (a : Attempt) : Prop where
  pass_iff : a.verdict t = .pass ↔ ∀ x ∈ a.phases t, x.2.Succeeded
  cleanup_failed : t.testCleanup ≠ [] → ¬ a.cleanup.Succeeded → a.verdict t = .error
  first_failed : (t.testCleanup = [] ∨ a.cleanup.Succeeded) → a.verdict t ≠ .pass →
    firstFailure (a.phases t) = some (a.verdict t)

theorem firstFailure_eq_none_iff (phases : List (Phase × PhaseEnd)) :
    firstFailure phases = none ↔ ∀ x ∈ phases, x.2.Succeeded := by
  simp only [firstFailure, List.findSome?_eq_none_iff, status_eq_none_iff]

theorem getD_pass_eq_pass {phases : List (Phase × PhaseEnd)} :
    (firstFailure phases).getD .pass = .pass ↔ firstFailure phases = none := by
  cases h : firstFailure phases with
  | none => simp
  | some status =>
    have hne : status ≠ .pass := fun heq => firstFailure_ne_pass phases (by rw [h, heq])
    simp [hne]

/-- Where the cleanup does not fail the verdict is that of the phases before it. -/
theorem verdict_of_succeeded {t : TestTarget} {a : Attempt}
    (h : t.testCleanup = [] ∨ a.cleanup.Succeeded) :
    a.verdict t = (firstFailure (a.phases t)).getD .pass := by
  have hno : ¬ (t.testCleanup ≠ [] ∧ a.cleanup.status .cleanup ≠ none) := by
    rintro ⟨hc, he⟩
    rcases h with h | h
    · exact hc h
    · exact he ((status_eq_none_iff _ _).mpr h)
  have hsame : firstFailure (a.phases t) = firstFailure (a.leading t) := by
    by_cases hc : t.testCleanup = []
    · rw [phases_leading _ _ hc]
    · have hnone : a.cleanup.status .cleanup = none :=
        (status_eq_none_iff _ _).mpr (h.resolve_left hc)
      rw [phases_cleanup _ _ hc, firstFailure, List.findSome?_append]
      simp [firstFailure, hnone]
  rw [Attempt.verdict, if_neg hno, hsame]

theorem judged (t : TestTarget) (a : Attempt) : Judged t a where
  pass_iff := by
    by_cases hc : t.testCleanup = [] ∨ a.cleanup.Succeeded
    · rw [verdict_of_succeeded hc, getD_pass_eq_pass, firstFailure_eq_none_iff]
    · rw [not_or] at hc
      have hfailed : a.cleanup.status .cleanup ≠ none := fun h => hc.2 ((status_eq_none_iff _ _).mp h)
      rw [Attempt.verdict, if_pos ⟨hc.1, hfailed⟩, phases_cleanup _ _ hc.1]
      refine ⟨fun h => (by cases h), fun h => ?_⟩
      exact absurd (h (.cleanup, a.cleanup) (by simp)) hc.2
  cleanup_failed := by
    intro hc hfailed
    rw [Attempt.verdict, if_pos ⟨hc, fun h => hfailed ((status_eq_none_iff _ _).mp h)⟩]
  first_failed := by
    intro hc hne
    rw [verdict_of_succeeded hc] at hne ⊢
    cases h : firstFailure (a.phases t) with
    | none => simp [h] at hne
    | some status => rfl

theorem Retried.bounded {t : TestTarget} {os : List Attempt} (h : Retried t os) :
    os.length + 1 ≤ t.testRetryCount + 1 := Nat.succ_le_succ h.count

/-- An attempt that comes to a phase can go on by being refused it. -/
theorem phases_of_reaches (t : TestTarget) (a : Attempt) {p : Phase} (h : a.Reaches t p) :
    ∃ (b : Attempt) (rest : List (Phase × PhaseEnd)),
      b.phases t = a.before t p ++ (p, .refused) :: rest := by
  cases p with
  | setup =>
    have hleading := leading_setup t { a with setup := .refused } h (by simp [PhaseEnd.status])
    exact ⟨{ a with setup := .refused }, _, by rw [Attempt.phases, hleading]; rfl⟩
  | body =>
    have hleading := leading_body t { a with body := .refused } h
    exact ⟨{ a with body := .refused }, _, by rw [Attempt.phases, hleading, List.append_assoc]; rfl⟩
  | cleanup => exact ⟨{ a with cleanup := .refused }, [], phases_cleanup t _ h⟩
  | pending => exact h.elim
  | done => exact h.elim

/-- An attempt that is in one of its phases has done a part of what it will have done. -/
theorem before_isPrefix (t : TestTarget) (a : Attempt) (n : Nat) {p : Phase} (h : a.Reaches t p) :
    ∃ b : Attempt, .acquired :: (a.before t p).flatMap (phaseEntries n) ++ [.started p n] <+:
      b.entries t n := by
  obtain ⟨b, rest, hb⟩ := phases_of_reaches t a h
  refine ⟨b, .refused p :: rest.flatMap (phaseEntries n) ++ [.released], ?_⟩
  simp [Attempt.entries, hb, phaseEntries]

theorem released_not_mem_phaseEntries (n : Nat) (x : Phase × PhaseEnd) :
    .released ∉ phaseEntries n x := by
  obtain ⟨p, e⟩ := x
  cases e <;> simp [phaseEntries]

/-- The place of a run in its attempts, as its history shows it. -/
theorem Progress.lifecycle {g : TestGraph} {r : Run} (h : Progress g r) :
    ∃ os current, Lifecycle r os current := by
  cases h with
  | skipped phase status attempt history _ _ =>
    refine ⟨[], [], ?_⟩
    exact {
      history := by rw [history]; rfl
      started := ⟨⟨.refused, .refused, .refused⟩, List.nil_prefix⟩
      unfinished := by simp
      attempt := by rw [attempt]; rfl
      bounded := by rw [attempt]; exact Nat.zero_le _
      retried := by simp
      final := fun _ => .inl ⟨status, history⟩ }
  | waiting os retried phase _ attempt history _ _ =>
    refine ⟨os, [], ?_⟩
    exact {
      history := by rw [history, List.append_nil]
      started := ⟨⟨.refused, .refused, .refused⟩, List.nil_prefix⟩
      unfinished := by simp
      attempt := by rw [attempt]; rfl
      bounded := by rw [attempt]; exact Nat.le_succ_of_le retried.count
      retried := fun a ha => retried.listed a (List.mem_of_mem_dropLast (by simpa using ha))
      final := fun hdone => by rw [phase] at hdone; cases hdone }
  | underway os a p reaches within =>
    refine ⟨os, .acquired :: (a.before r.target p).flatMap (phaseEntries (os.length + 1)) ++
      [.started p (os.length + 1)], ?_⟩
    exact {
      history := by rw [within.history, List.append_assoc]
      started := before_isPrefix r.target a (os.length + 1) reaches
      unfinished := by simp [released_not_mem_phaseEntries]
      attempt := by rw [within.attempt]; simp
      bounded := by rw [within.attempt]; exact within.retried.bounded
      retried := fun b hb => within.retried.listed b (by simpa using hb)
      final := fun hdone => by
        rw [← within.phase, hdone] at reaches
        exact reaches.elim }
  | finished os a retried _ status attempt history _ _ _ =>
    refine ⟨os ++ [a], [], ?_⟩
    exact {
      history := by rw [history, List.append_nil]
      started := ⟨⟨.refused, .refused, .refused⟩, List.nil_prefix⟩
      unfinished := by simp
      attempt := by rw [attempt]; simp
      bounded := by rw [attempt]; exact retried.bounded
      retried := fun b hb => retried.listed b (by simpa using hb)
      final := fun _ => .inr ⟨os, a, rfl, rfl, status⟩ }

/-- Every attempt of a test goes through its phases in order and releases its resources once,
another one is made only after a status the test asks to retry on and never more often than
it allows, and the status it ends with is that of the last attempt. -/
theorem test_lifecycle {g : TestGraph} {targets : List TestTarget} {options : Option TestOptions}
    {s : Batch} (hs : BatchState g targets options s) {r : Run} (hr : r ∈ s.runs) :
    (∃ os current, Lifecycle r os current) ∧ ∀ a : Attempt, Judged r.target a :=
  ⟨(progress_run hs r hr).lifecycle, judged r.target⟩

/-- The phase an attempt is judged by: a cleanup that failed, otherwise a setup that failed,
otherwise the test itself. -/
def Attempt.decidingPhase (t : TestTarget) (a : Attempt) : Phase :=
  if t.testCleanup ≠ [] ∧ ¬ a.cleanup.Succeeded then .cleanup
  else if t.testSetup ≠ [] ∧ ¬ a.setup.Succeeded then .setup
  else .body

/-- A cleanup that succeeded after an error. -/
def Attempt.CleanedAfterError (t : TestTarget) (a : Attempt) : Prop :=
  t.testCleanup ≠ [] ∧ a.cleanup.Succeeded ∧ firstFailure (a.leading t) = some .error

theorem leadOwner_ne_cleanup (t : TestTarget) (a : Attempt) : a.leadOwner t ≠ .cleanup := by
  unfold Attempt.leadOwner
  split <;> decide

/-- Different names of phases make different action ids. -/
theorem actionId_ne (g : TestGraph) (t : TestTarget) (n : Nat) {p q : Phase} (h : p.name ≠ q.name) :
    testLogPaths g t p n ≠ testLogPaths g t q n := by
  intro heq
  have hid := congrArg Logs.actionId heq
  simp only [testLogPaths, List.append_assoc, List.append_cancel_left_eq] at hid
  simp only [← List.append_assoc, List.append_cancel_right_eq] at hid
  exact h hid

/-- The owner the batch writes is the deciding phase unless a cleanup succeeded after an error. -/
theorem standing_owner_eq_iff (t : TestTarget) (a : Attempt) :
    (standing (a.phases t)).owner = some (a.decidingPhase t) ↔ ¬ a.CleanedAfterError t := by
  have hlead : (a.leadOwner t) =
      if t.testSetup ≠ [] ∧ ¬ a.setup.Succeeded then .setup else .body := by
    simp only [Attempt.leadOwner, ne_eq, status_eq_none_iff]
  rw [standing_owner, Option.some.injEq, Attempt.decidingPhase, ← hlead]
  simp only [ne_eq, status_eq_none_iff, Attempt.CleanedAfterError]
  by_cases hc : t.testCleanup = []
  · simp [hc]
  · by_cases he : a.cleanup.Succeeded
    · by_cases hf : firstFailure (a.leading t) = some .error
      · simp [hc, he, hf, (leadOwner_ne_cleanup t a).symm]
      · simp [hc, he, hf]
    · simp [hc, he]

theorem owner_name (t : TestTarget) (a : Attempt) {p q : Phase}
    (hp : (standing (a.phases t)).owner = some p) (hq : a.decidingPhase t = q) (hne : p ≠ q) :
    p.name ≠ q.name := by
  rw [standing_owner, Option.some.injEq] at hp
  have hpin : p = .setup ∨ p = .body ∨ p = .cleanup := by
    rw [← hp, Attempt.leadOwner]
    split
    · exact .inr (.inr rfl)
    · split <;> simp
  have hqin : q = .setup ∨ q = .body ∨ q = .cleanup := by
    rw [← hq, Attempt.decidingPhase]
    split
    · exact .inr (.inr rfl)
    · split <;> simp
  rcases hpin with rfl | rfl | rfl <;> rcases hqin with rfl | rfl | rfl <;>
    first | exact absurd rfl hne | decide

/-- The result of a finished test is that of the phase its last attempt is judged by, unless
its cleanup succeeded after an error of an earlier phase. -/
theorem result_attributed_iff {g : TestGraph} {targets : List TestTarget}
    {options : Option TestOptions} {s : Batch} (hs : BatchState g targets options s) {r : Run}
    (hr : r ∈ s.runs) (hdone : r.phase = .done) (hattempted : 0 < r.attempt) :
    ∃ before a, r.history = attemptsEntries r.target 1 (before ++ [a]) ∧
      r.attempt = before.length + 1 ∧ r.status = some (a.verdict r.target) ∧
      (r.result = testLogPaths g r.target (a.decidingPhase r.target) r.attempt ↔
        ¬ a.CleanedAfterError r.target) := by
  cases progress_run hs r hr with
  | finished os a _ _ status attempt history result _ _ =>
    refine ⟨os, a, history, attempt, status, ?_⟩
    rw [← standing_owner_eq_iff]
    refine ⟨fun heq => ?_, result _⟩
    obtain ⟨p, hp⟩ : ∃ p, (standing (a.phases r.target)).owner = some p := ⟨_, standing_owner _ _⟩
    rw [hp]
    refine congrArg some (by_contra fun hne => ?_)
    exact actionId_ne g r.target r.attempt (owner_name r.target a hp rfl hne) ((result p hp).symm.trans heq)
  | skipped _ _ attempt => omega
  | waiting os _ phase => rw [phase] at hdone; cases hdone
  | underway os a p reaches within =>
    rw [← within.phase, hdone] at reaches
    exact reaches.elim

/-- A test with a cleanup command and nothing else. -/
def cleanedTest : TestTarget where
  label := ascii "//:t"
  kind := ascii "test"
  testResources := []
  resources_nodup := by decide
  testSetup := []
  testCleanup := [ascii "clean.sh"]
  testRetryCount := 0
  testRetryOn := []
  testManual := false
  testSkipReason := []

def cleanedGraph : TestGraph where
  buildDir := ascii "build"
  testResources := []
  names_nodup := by decide
  targets := [cleanedTest]

/-- Every process can be started; what has become of the one looked at. -/
def Answer.started (wait : Wait) : Answer := { starts := fun _ => true, wait }

/-- The body is killed by a signal, and the cleanup exits with zero. -/
def crashAnswers : List Answer :=
  [.started .running, .started .running, .started .running, .started (.ended (.signaled 11)),
    .started .running, .started .running, .started .running, .started (.ended (.exited 0))]

def crashed : Batch :=
  crashAnswers.foldl (Batch.step cleanedGraph (jobCount none)) (Batch.start [cleanedTest] none)

/-- How the only attempt went. -/
def crashAttempt : Attempt where
  setup := .refused
  body := .ended (.signaled 11)
  cleanup := .ended (.exited 0)

theorem crashed_batchState : BatchState cleanedGraph [cleanedTest] none crashed :=
  reachable_foldl _ _ _

/-- The run at the end of the crash. -/
def crashedRun : Run where
  target := cleanedTest
  phase := .done
  running := false
  resourcesHeld := false
  attempt := 1
  exitCode := 139
  status := some .error
  skipReason := []
  logs := testLogPaths cleanedGraph cleanedTest .cleanup 1
  result := testLogPaths cleanedGraph cleanedTest .cleanup 1
  history := crashAttempt.entries cleanedTest 1

theorem crashed_runs : crashed.runs = [crashedRun] := by rfl

theorem crashedRun_mem : crashedRun ∈ crashed.runs := by
  rw [crashed_runs]
  exact List.mem_singleton.mpr rfl

theorem crashed_lifecycle :
    (∃ os current, Lifecycle crashedRun os current) ∧ ∀ a : Attempt, Judged cleanedTest a :=
  test_lifecycle crashed_batchState crashedRun_mem

theorem crashed_attributed :
    ∃ before a, crashedRun.history = attemptsEntries cleanedTest 1 (before ++ [a]) ∧
      crashedRun.attempt = before.length + 1 ∧ crashedRun.status = some (a.verdict cleanedTest) ∧
      (crashedRun.result = testLogPaths cleanedGraph cleanedTest (a.decidingPhase cleanedTest) 1 ↔
        ¬ a.CleanedAfterError cleanedTest) :=
  result_attributed_iff crashed_batchState crashedRun_mem rfl (by decide)

/-- The cleanup that succeeded stands in the result of a test whose body was killed. -/
theorem successful_cleanup_owns_result :
    ∃ r ∈ crashed.runs, r.phase = .done ∧
      r.history = attemptsEntries r.target 1 [crashAttempt] ∧
      crashAttempt.decidingPhase r.target = .body ∧ crashAttempt.cleanup.Succeeded ∧
      r.result = testLogPaths cleanedGraph r.target .cleanup r.attempt ∧
      r.result ≠ testLogPaths cleanedGraph r.target .body r.attempt := by
  refine ⟨crashedRun, crashedRun_mem, rfl, by rfl, by decide, by decide, rfl, ?_⟩
  exact actionId_ne cleanedGraph cleanedTest 1 (by decide)

end QStar.Testing
