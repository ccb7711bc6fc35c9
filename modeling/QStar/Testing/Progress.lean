import QStar.Testing.Attempts

/-!
# How far a run has come

At each point a run is the record of some finished attempts and of the phases the current
one has gone through. Starting a phase, being refused one and seeing one end each move this
record on by what the phase leaves behind.
-/
namespace QStar.Testing

open QStar.Lib.CStrings
open QStar.Lib.Runs
open QStar.Base

/-- Attempts that were each followed by another one. -/
structure Retried (t : TestTarget) (os : List Attempt) : Prop where
  count : os.length ≤ t.testRetryCount
  listed : ∀ a ∈ os, a.verdict t ∈ t.testRetryOn

theorem retried_nil (t : TestTarget) : Retried t [] := ⟨Nat.zero_le _, by simp⟩

/-- A run whose current attempt has gone through some phases and is in none. -/
structure Between (g : TestGraph) (r : Run) (os : List Attempt) (phases : List (Phase × PhaseEnd)) :
    Prop where
  retried : Retried r.target os
  attempt : r.attempt = os.length + 1
  history : r.history = attemptsEntries r.target 1 os ++
    .acquired :: phases.flatMap (phaseEntries (os.length + 1))
  status : r.status = (standing phases).status
  result : ∀ p, (standing phases).owner = some p → r.result = testLogPaths g r.target p r.attempt
  held : r.resourcesHeld = true
  idle : r.running = false

/-- A run whose current attempt has gone through some phases and is in the next. -/
structure Within (g : TestGraph) (r : Run) (os : List Attempt) (phases : List (Phase × PhaseEnd))
    (p : Phase) : Prop where
  retried : Retried r.target os
  attempt : r.attempt = os.length + 1
  history : r.history = attemptsEntries r.target 1 os ++
    .acquired :: phases.flatMap (phaseEntries (os.length + 1)) ++ [.started p (os.length + 1)]
  status : r.status = (standing phases).status
  result : ∀ q, (standing phases).owner = some q → r.result = testLogPaths g r.target q r.attempt
  logs : r.logs = testLogPaths g r.target p r.attempt
  held : r.resourcesHeld = true
  running : r.running = true
  phase : r.phase = p

variable {g : TestGraph} {r : Run} {os : List Attempt} {phases : List (Phase × PhaseEnd)}

theorem Between.start (h : Between g r os phases) (p : Phase) :
    Within g (startPhase g r p) os phases p where
  retried := h.retried
  attempt := h.attempt
  history := by
    show r.history ++ [Entry.started p r.attempt] = _
    rw [h.history, h.attempt]
    rfl
  status := h.status
  result := h.result
  logs := rfl
  held := h.held
  running := rfl
  phase := rfl

theorem phaseEntries_snoc (phases : List (Phase × PhaseEnd)) (n : Nat) (x : Phase × PhaseEnd) :
    (phases ++ [x]).flatMap (phaseEntries n) = phases.flatMap (phaseEntries n) ++ phaseEntries n x := by
  simp

theorem Between.refuse (h : Between g r os phases) (p : Phase) :
    Between g (refusePhase g r p) os (phases ++ [(p, .refused)]) where
  retried := h.retried
  attempt := h.attempt
  history := by
    show (r.history ++ [Entry.started p r.attempt]) ++ [Entry.refused p] = _
    rw [h.history, h.attempt, phaseEntries_snoc]
    simp [phaseEntries, refusePhase, enterPhase, recordSpawnFailure, Run.record]
  status := by
    rw [standing_append]
    rfl
  result := by
    intro q hq
    rw [standing_append] at hq
    have hqp : q = p := by simpa [Standing.after, takesOver, eq_comm] using hq
    rw [hqp]
    rfl
  held := h.held
  idle := h.idle

/-- The exit code after a phase that ended. -/
def exitCodeAfter (old : Int) : Outcome → Int
  | .timedOut => 124
  | .exited code => if code = 0 then old else code
  | .signaled number => 128 + number

/-- `set_phase_result` leaves the status of the phase, or the old one after a success. -/
theorem setPhaseResult_eq (r : Run) (p : Phase) (o : Outcome) :
    setPhaseResult r p o = { r with
      status := (PhaseEnd.ended o).status p <|> r.status
      exitCode := exitCodeAfter r.exitCode o } := by
  cases o with
  | exited code =>
    by_cases hc : code = 0
    · simp [setPhaseResult, PhaseEnd.status, exitCodeAfter, hc]
    · by_cases hp : p = .body <;> simp [setPhaseResult, PhaseEnd.status, exitCodeAfter, hc, hp]
  | signaled number => rfl
  | timedOut => rfl

theorem attributeEnded_eq (r : Run) (p : Phase) :
    attributeEnded r p = { r with
      result := if p = .body ∨ (p = .setup ∧ r.status = none) then r.logs else r.result } := by
  unfold attributeEnded
  split <;> rfl

theorem attributeCleanup_eq (r : Run) (p : Phase) :
    attributeCleanup r p = { r with
      result := if p = .cleanup ∧ r.status = some .error then r.logs else r.result } := by
  unfold attributeCleanup
  split <;> rfl

/-- What seeing a process end does to a run. -/
theorem completePhase_eq (r : Run) (o : Outcome) :
    completePhase r o = { r with
      running := false
      exitCode := exitCodeAfter r.exitCode o
      status := (PhaseEnd.ended o).status r.phase <|> r.status
      result := if takesOver r.status ((PhaseEnd.ended o).status r.phase <|> r.status)
        (r.phase, .ended o) then r.logs else r.result
      history := r.history ++ [.ended r.phase o] } := by
  simp only [completePhase, attributeCleanup_eq, setPhaseResult_eq, attributeEnded_eq, Run.record]
  by_cases hfirst : r.phase = .body ∨ (r.phase = .setup ∧ r.status = none)
  · have ht (new : Option Status) : takesOver r.status new (r.phase, .ended o) = true := by
      rcases hfirst with h | h <;> simp [takesOver, h]
    simp only [ht, if_pos hfirst, ite_self, if_true]
  · have ht (new : Option Status) :
        takesOver r.status new (r.phase, .ended o) = decide (r.phase = .cleanup ∧ new = some .error) := by
      rw [not_or] at hfirst
      simp [takesOver, hfirst.1, hfirst.2]
    simp only [ht, if_neg hfirst, decide_eq_true_eq]

theorem Within.complete {p : Phase} (h : Within g r os phases p) (o : Outcome) :
    Between g (completePhase r o) os (phases ++ [(p, .ended o)]) := by
  rw [completePhase_eq, h.phase]
  refine { h with history := ?_, status := ?_, result := ?_, idle := rfl }
  · simp [h.history, phaseEntries]
  · rw [standing_append, h.status]
    rfl
  · intro q hq
    rw [standing_append] at hq
    simp only [Standing.after, ← h.status] at hq
    dsimp only
    split at hq
    · next ht =>
      rw [if_pos ht, h.logs, Option.some.inj hq]
    · next ht =>
      rw [if_neg ht]
      exact h.result q hq

/-- The phases an attempt has gone through when it comes to one. -/
def Attempt.before (t : TestTarget) (a : Attempt) : Phase → List (Phase × PhaseEnd)
  | .body => if t.testSetup = [] then [] else [(.setup, a.setup)]
  | .cleanup => a.leading t
  | _ => []

/-- Whether an attempt comes to a phase. -/
def Attempt.Reaches (t : TestTarget) (a : Attempt) : Phase → Prop
  | .setup => t.testSetup ≠ []
  | .body => t.testSetup = [] ∨ a.setup.status .setup = none
  | .cleanup => t.testCleanup ≠ []
  | _ => False

theorem leading_body (t : TestTarget) (a : Attempt) (h : a.Reaches t .body) :
    a.leading t = a.before t .body ++ [(.body, a.body)] := by
  by_cases hs : t.testSetup = []
  · simp [Attempt.leading, Attempt.before, hs]
  · have he : a.setup.status .setup = none := h.resolve_left hs
    simp [Attempt.leading, Attempt.before, hs, he]

theorem leading_setup (t : TestTarget) (a : Attempt) (hs : t.testSetup ≠ [])
    (he : a.setup.status .setup ≠ none) : a.leading t = [(.setup, a.setup)] := by
  simp [Attempt.leading, hs, he]

theorem phases_cleanup (t : TestTarget) (a : Attempt) (hc : t.testCleanup ≠ []) :
    a.phases t = a.leading t ++ [(.cleanup, a.cleanup)] := by
  simp [Attempt.phases, hc]

theorem phases_leading (t : TestTarget) (a : Attempt) (hc : t.testCleanup = []) :
    a.phases t = a.leading t := by
  simp [Attempt.phases, hc]

/-- What a run of the batch can look like between two steps. -/
inductive Progress (g : TestGraph) (r : Run) : Prop where
  | skipped (phase : r.phase = .done) (status : r.status = some .skip) (attempt : r.attempt = 0)
      (history : r.history = []) (held : r.resourcesHeld = false) (idle : r.running = false)
  | waiting (os : List Attempt) (retried : Retried r.target os) (phase : r.phase = .pending)
      (status : r.status = none) (attempt : r.attempt = os.length)
      (history : r.history = attemptsEntries r.target 1 os) (held : r.resourcesHeld = false)
      (idle : r.running = false)
  | underway (os : List Attempt) (a : Attempt) (p : Phase) (reaches : a.Reaches r.target p)
      (within : Within g r os (a.before r.target p) p)
  | finished (os : List Attempt) (a : Attempt) (retried : Retried r.target os) (phase : r.phase = .done)
      (status : r.status = some (a.verdict r.target)) (attempt : r.attempt = os.length + 1)
      (history : r.history = attemptsEntries r.target 1 (os ++ [a]))
      (result : ∀ p, (standing (a.phases r.target)).owner = some p →
        r.result = testLogPaths g r.target p r.attempt)
      (held : r.resourcesHeld = false) (idle : r.running = false)

theorem retryAllowed_iff (t : TestTarget) (status : Status) :
    retryAllowed t (some status) = true ↔ status ∈ t.testRetryOn := by
  simp [retryAllowed]

/-- The end of an attempt either sends the run back or ends it. -/
theorem Between.close {a : Attempt} (h : Between g r os (a.phases r.target)) (pool : Pool) :
    Progress g (closeAttempt g r pool).1 := by
  have hverdict : r.status.getD .pass = a.verdict r.target := by
    rw [h.status, standing_status]
  have hhistory : r.history ++ [.released] = attemptsEntries r.target 1 (os ++ [a]) := by
    rw [h.history, attemptsEntries_append, Nat.add_comm 1, Attempt.entries, List.append_assoc]
  rw [closeAttempt, hverdict, finishAttempt]
  split
  · next hretry =>
    simp only [retries, h.attempt, retryAllowed_iff, decide_eq_true_eq] at hretry
    have hretried : Retried r.target (os ++ [a]) := by
      refine ⟨by simpa using hretry.1, ?_⟩
      intro b hb
      rcases List.mem_append.mp hb with hb | hb
      · exact h.retried.listed b hb
      · rw [List.mem_singleton.mp hb]
        exact hretry.2
    exact .waiting (os ++ [a]) hretried rfl rfl (by simp [h.attempt, Run.record]) hhistory rfl h.idle
  · exact .finished os a h.retried rfl rfl h.attempt hhistory h.result rfl h.idle

/-- Past the test itself an attempt tries its cleanup, once, or closes. -/
theorem Between.toCleanup {a : Attempt} (h : Between g r os (a.leading r.target))
    (starts : Phase → Bool) {completed : Phase} (hne : completed ≠ .cleanup) (pool : Pool) :
    Progress g (advanceToCleanup g starts r completed pool).1 := by
  by_cases hc : r.target.testCleanup = []
  · have hno : ¬ (completed ≠ .cleanup ∧ r.target.testCleanup ≠ []) := by simp [hc]
    rw [advanceToCleanup, if_neg hno]
    rw [← phases_leading _ _ hc] at h
    exact h.close pool
  · rw [advanceToCleanup, if_pos ⟨hne, hc⟩]
    split
    · exact .underway os a .cleanup hc (h.start .cleanup)
    · have hrefused := h.refuse .cleanup
      have hphases : a.leading r.target ++ [(.cleanup, .refused)] =
          { a with cleanup := .refused }.phases r.target :=
        (phases_cleanup _ { a with cleanup := .refused } hc).symm
      rw [hphases] at hrefused
      exact hrefused.close pool

/-- An attempt whose leading phases are over goes to its cleanup. -/
theorem Between.advance {a : Attempt} (h : Between g r os (a.leading r.target))
    (starts : Phase → Bool) {completed : Phase} (hne : completed ≠ .cleanup)
    (hfailed : completed = .setup → r.status ≠ none) (pool : Pool) :
    Progress g (advanceAfterPhase g starts r completed pool).1 := by
  have hno : ¬ (completed = .setup ∧ r.status = none) := fun hboth => hfailed hboth.1 hboth.2
  rw [advanceAfterPhase, if_neg hno]
  exact h.toCleanup starts hne pool

/-- A failed setup leads to the cleanup, a successful one to the test itself. -/
theorem Between.advance_setup {a : Attempt} (hs : r.target.testSetup ≠ [])
    (h : Between g r os [(.setup, a.setup)]) (starts : Phase → Bool) (pool : Pool) :
    Progress g (advanceAfterPhase g starts r .setup pool).1 := by
  have hstatus : r.status = a.setup.status .setup := by
    rw [h.status]
    simp [standing, Standing.after]
  by_cases he : a.setup.status .setup = none
  · have hreaches : a.Reaches r.target .body := .inr he
    have hbefore : [(Phase.setup, a.setup)] = a.before r.target .body := by
      simp [Attempt.before, hs]
    rw [advanceAfterPhase, if_pos ⟨rfl, hstatus.trans he⟩]
    split
    · refine .underway os a .body hreaches ?_
      rw [hbefore] at h
      exact h.start .body
    · have hrefused := h.refuse .body
      have hleading : [(Phase.setup, a.setup)] ++ [(.body, .refused)] =
          { a with body := .refused }.leading r.target := by
        rw [hbefore]
        exact (leading_body _ { a with body := .refused } hreaches).symm
      rw [hleading] at hrefused
      exact hrefused.toCleanup starts (by decide) pool
  · rw [← leading_setup _ _ hs he] at h
    exact h.advance starts (by decide) (fun _ => by rwa [hstatus]) pool

/-- An attempt that is just about to try its first phase. -/
theorem between_acquired (retried : Retried r.target os) (attempt : r.attempt = os.length)
    (status : r.status = none) (history : r.history = attemptsEntries r.target 1 os)
    (idle : r.running = false) :
    Between g r.acquired os [] where
  retried := retried
  attempt := congrArg (· + 1) attempt
  history := by simp [Run.acquired, Run.record, history]
  status := status
  result := by simp [standing]
  held := rfl
  idle := idle

theorem Progress.startAttempt (h : Progress g r) (hpending : r.phase = .pending)
    (starts : Phase → Bool) (pool : Pool) : Progress g (startAttempt g starts r pool).1 := by
  cases h with
  | waiting os retried _ status attempt history _ idle =>
    have hbetween : Between g r.acquired os [] :=
      between_acquired retried attempt status history idle
    unfold Testing.startAttempt
    by_cases hs : r.target.testSetup = []
    · have hfirst : firstPhase r.target = .body := by simp [firstPhase, hs]
      have hreaches : Attempt.Reaches r.target ⟨.refused, .refused, .refused⟩ .body := .inl hs
      have hbefore : Attempt.before r.target ⟨.refused, .refused, .refused⟩ .body = [] := by
        simp [Attempt.before, hs]
      rw [hfirst]
      dsimp only
      split
      · rw [← hbefore] at hbetween
        exact .underway os _ .body hreaches (hbetween.start .body)
      · have hleading : [] ++ [(Phase.body, PhaseEnd.refused)] =
            Attempt.leading r.target ⟨.refused, .refused, .refused⟩ := by
          rw [leading_body _ _ hreaches, hbefore]
        have hrefused := hbetween.refuse .body
        rw [hleading] at hrefused
        exact hrefused.advance starts (by decide) (by simp) _
    · have hfirst : firstPhase r.target = .setup := by simp [firstPhase, hs]
      rw [hfirst]
      dsimp only
      split
      · exact .underway os ⟨.refused, .refused, .refused⟩ .setup hs (hbetween.start .setup)
      · have hrefused : Between g _ os [(.setup, .refused)] := hbetween.refuse .setup
        refine Between.advance_setup (a := ⟨.refused, .refused, .refused⟩) ?_ hrefused starts _
        exact hs
  | skipped phase => rw [phase] at hpending; cases hpending
  | underway os a p reaches within =>
    rw [within.phase] at hpending
    rw [hpending] at reaches
    exact reaches.elim
  | finished os a _ phase => rw [phase] at hpending; cases hpending

theorem Progress.advance (h : Progress g r) (hrunning : r.running = true) (starts : Phase → Bool)
    (outcome : Outcome) (pool : Pool) :
    Progress g (advanceAfterPhase g starts (completePhase r outcome) r.phase pool).1 := by
  have htarget : (completePhase r outcome).target = r.target := by rw [completePhase_eq]
  cases h with
  | underway os a p reaches within =>
    have hbetween := within.complete outcome
    rw [within.phase]
    cases p with
    | setup =>
      rw [← htarget] at reaches
      exact Between.advance_setup (a := { a with setup := .ended outcome }) reaches hbetween starts pool
    | body =>
      have hleading : a.before r.target .body ++ [(.body, .ended outcome)] =
          { a with body := .ended outcome }.leading r.target :=
        (leading_body _ { a with body := .ended outcome } reaches).symm
      rw [hleading, ← htarget] at hbetween
      exact hbetween.advance starts (by decide) (by simp) pool
    | cleanup =>
      have hphases : a.before r.target .cleanup ++ [(.cleanup, .ended outcome)] =
          { a with cleanup := .ended outcome }.phases r.target :=
        (phases_cleanup _ { a with cleanup := .ended outcome } reaches).symm
      rw [hphases, ← htarget] at hbetween
      exact hbetween.close pool
    | pending => exact reaches.elim
    | done => exact reaches.elim
  | skipped _ _ _ _ _ idle => rw [idle] at hrunning; cases hrunning
  | waiting _ _ _ _ _ _ _ idle => rw [idle] at hrunning; cases hrunning
  | finished _ _ _ _ _ _ _ _ _ idle => rw [idle] at hrunning; cases hrunning

theorem progress_initial (g : TestGraph) (options : Option TestOptions) (t : TestTarget) :
    Progress g (initialRun options t) := by
  unfold initialRun
  split
  · exact .skipped rfl rfl rfl rfl rfl rfl
  · split
    · exact .skipped rfl rfl rfl rfl rfl rfl
    · exact .waiting [] (retried_nil t) rfl rfl rfl rfl rfl rfl

/-- Every run of a batch is somewhere in its attempts at every moment. -/
theorem progress_run {targets : List TestTarget} {options : Option TestOptions} {s : Batch}
    (hs : BatchState g targets options s) : ∀ r ∈ s.runs, Progress g r := by
  refine Reachable.invariant (fun s => ∀ r ∈ s.runs, Progress g r) ?_ ?_ hs
  · intro r hr
    obtain ⟨t, -, rfl⟩ := List.mem_map.mp hr
    exact progress_initial g options t
  · intro s a ih r hr
    cases step_cases g (jobCount options) s a with
    | move point eq =>
      rw [eq] at hr
      exact ih r hr
    | start i r₀ _ found _ pending _ eq =>
      rw [eq] at hr
      rcases mem_put hr with hr | rfl
      · exact ih r hr
      · exact (ih r₀ (List.mem_of_getElem? found)).startAttempt pending a.starts s.pool
    | finish i r₀ outcome _ found running eq =>
      rw [eq] at hr
      rcases mem_put hr with hr | rfl
      · exact ih r hr
      · exact (ih r₀ (List.mem_of_getElem? found)).advance running a.starts outcome s.pool

end QStar.Testing
