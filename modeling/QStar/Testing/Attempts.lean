import QStar.Testing.Batch

/-!
# What an attempt is

An attempt seen from outside: how each of its phases went, which of them it goes through,
what it leaves in the history of the run, and the status and the owner of the result that
the phases leave behind.
-/
namespace QStar.Testing

open QStar.Lib.CStrings
open QStar.Base

/-- How a phase went. -/
inductive PhaseEnd where
  | refused
  | ended (outcome : Outcome)
  deriving DecidableEq

/-- The status of a phase that failed. -/
def PhaseEnd.status (phase : Phase) : PhaseEnd → Option Status
  | .refused => some .error
  | .ended .timedOut => some (if phase = .cleanup then .error else .timeout)
  | .ended (.exited code) =>
    if code = 0 then none else some (if phase = .body then .fail else .error)
  | .ended (.signaled _) => some .error

/-- How the phases of an attempt go, as far as it comes to them. -/
structure Attempt where
  setup : PhaseEnd
  body : PhaseEnd
  cleanup : PhaseEnd

/-- The phases before the cleanup: the setup if there is one, and the test itself unless the
setup failed. -/
def Attempt.leading (t : TestTarget) (a : Attempt) : List (Phase × PhaseEnd) :=
  if t.testSetup = [] then [(.body, a.body)]
  else if a.setup.status .setup = none then [(.setup, a.setup), (.body, a.body)]
  else [(.setup, a.setup)]

/-- The phases an attempt goes through. -/
def Attempt.phases (t : TestTarget) (a : Attempt) : List (Phase × PhaseEnd) :=
  a.leading t ++ if t.testCleanup = [] then [] else [(.cleanup, a.cleanup)]

def phaseEntries (n : Nat) : Phase × PhaseEnd → List Entry
  | (phase, .refused) => [.started phase n, .refused phase]
  | (phase, .ended outcome) => [.started phase n, .ended phase outcome]

/-- What the attempt with a number leaves in the history. -/
def Attempt.entries (t : TestTarget) (n : Nat) (a : Attempt) : List Entry :=
  .acquired :: (a.phases t).flatMap (phaseEntries n) ++ [.released]

/-- What attempts one after the other leave in the history. -/
def attemptsEntries (t : TestTarget) : Nat → List Attempt → List Entry
  | _, [] => []
  | n, a :: rest => a.entries t n ++ attemptsEntries t (n + 1) rest

theorem attemptsEntries_append (t : TestTarget) (n : Nat) (os : List Attempt) (a : Attempt) :
    attemptsEntries t n (os ++ [a]) = attemptsEntries t n os ++ a.entries t (n + os.length) := by
  induction os generalizing n with
  | nil => simp [attemptsEntries]
  | cons b rest ih =>
    simp only [List.cons_append, attemptsEntries, ih, List.length_cons, List.append_assoc]
    rw [Nat.add_right_comm, Nat.add_assoc n]

/-- The status of the phase that failed first. -/
def firstFailure (phases : List (Phase × PhaseEnd)) : Option Status :=
  phases.findSome? fun x => x.2.status x.1

/-- The status an attempt ends with. -/
def Attempt.verdict (t : TestTarget) (a : Attempt) : Status :=
  if t.testCleanup ≠ [] ∧ a.cleanup.status .cleanup ≠ none then .error
  else (firstFailure (a.leading t)).getD .pass

theorem cleanup_status (e : PhaseEnd) :
    e.status .cleanup = none ∨ e.status .cleanup = some .error := by
  cases e with
  | refused => exact .inr rfl
  | ended outcome =>
    cases outcome with
    | exited code =>
      by_cases h : code = 0
      · simp [PhaseEnd.status, h]
      · simp [PhaseEnd.status, h]
    | signaled number => exact .inr rfl
    | timedOut => exact .inr rfl

/-- No phase fails with a status of success. -/
theorem status_ne_pass (phase : Phase) (e : PhaseEnd) : e.status phase ≠ some .pass := by
  cases e with
  | refused => simp [PhaseEnd.status]
  | ended outcome =>
    cases outcome with
    | exited code =>
      by_cases hc : code = 0
      · simp [PhaseEnd.status, hc]
      · by_cases hp : phase = .body <;> simp [PhaseEnd.status, hc, hp]
    | signaled number => simp [PhaseEnd.status]
    | timedOut => by_cases hp : phase = .cleanup <;> simp [PhaseEnd.status, hp]

theorem firstFailure_ne_pass (phases : List (Phase × PhaseEnd)) :
    firstFailure phases ≠ some .pass := by
  intro h
  obtain ⟨x, -, hx⟩ := List.exists_of_findSome?_eq_some h
  exact status_ne_pass x.1 x.2 hx

/-- What the phases of an attempt have left behind: the status, and the phase that owns the
result. -/
structure Standing where
  status : Option Status
  owner : Option Phase
  deriving DecidableEq

/-- Whether a phase takes over the result, after a status and with the one it leaves. -/
def takesOver (old new : Option Status) (x : Phase × PhaseEnd) : Bool :=
  x.2 = .refused ∨ x.1 = .body ∨ (x.1 = .setup ∧ old = none) ∨ (x.1 = .cleanup ∧ new = some .error)

def Standing.after (s : Standing) (x : Phase × PhaseEnd) : Standing :=
  let status := x.2.status x.1 <|> s.status
  { status, owner := if takesOver s.status status x then some x.1 else s.owner }

def standing (phases : List (Phase × PhaseEnd)) : Standing :=
  phases.foldl Standing.after { status := none, owner := none }

theorem standing_append (phases : List (Phase × PhaseEnd)) (x : Phase × PhaseEnd) :
    standing (phases ++ [x]) = (standing phases).after x := by
  simp [standing]

/-- The phase an attempt without its cleanup is judged by. -/
def Attempt.leadOwner (t : TestTarget) (a : Attempt) : Phase :=
  if t.testSetup ≠ [] ∧ a.setup.status .setup ≠ none then .setup else .body

theorem standing_leading (t : TestTarget) (a : Attempt) :
    standing (a.leading t) =
      { status := firstFailure (a.leading t), owner := some (a.leadOwner t) } := by
  by_cases hs : t.testSetup = []
  · cases hb : a.body.status .body <;>
      simp [Attempt.leading, standing, Standing.after, takesOver, firstFailure, Attempt.leadOwner, hs, hb]
  · cases he : a.setup.status .setup with
    | none =>
      cases hb : a.body.status .body <;>
        simp [Attempt.leading, standing, Standing.after, takesOver, firstFailure,
          Attempt.leadOwner, hs, he, hb]
    | some status =>
      simp [Attempt.leading, standing, Standing.after, takesOver, firstFailure,
        Attempt.leadOwner, hs, he]

/-- The status the phases leave is the verdict. -/
theorem standing_status (t : TestTarget) (a : Attempt) :
    (standing (a.phases t)).status.getD .pass = a.verdict t := by
  by_cases hc : t.testCleanup = []
  · simp [Attempt.phases, Attempt.verdict, hc, standing_leading]
  · rw [Attempt.phases, if_neg hc, standing_append, standing_leading]
    rcases cleanup_status a.cleanup with he | he
    · simp [Standing.after, Attempt.verdict, hc, he]
    · simp [Standing.after, Attempt.verdict, hc, he]

/-- The cleanup owns the result where it failed, and also where it did not but the status left
before it is an error. -/
theorem standing_owner (t : TestTarget) (a : Attempt) :
    (standing (a.phases t)).owner =
      some (if t.testCleanup ≠ [] ∧ (a.cleanup.status .cleanup ≠ none ∨
        firstFailure (a.leading t) = some .error) then .cleanup else a.leadOwner t) := by
  by_cases hc : t.testCleanup = []
  · simp [Attempt.phases, hc, standing_leading]
  · rw [Attempt.phases, if_neg hc, standing_append, standing_leading]
    rcases cleanup_status a.cleanup with he | he
    · have hr : a.cleanup ≠ .refused := by
        intro h
        rw [h] at he
        cases he
      by_cases hf : firstFailure (a.leading t) = some .error
      · simp [Standing.after, takesOver, hc, he, hf]
      · simp [Standing.after, takesOver, hc, he, hf, hr]
    · simp [Standing.after, takesOver, hc, he]

end QStar.Testing
