import Mathlib.Data.Nat.Init
import Mathlib.Tactic.Common

/-!
# Runs of a machine that is driven by its environment

A machine is a step function on states that also reads one answer of the
environment. Finite runs are folds over a list of answers and infinite runs are
trajectories under a stream of answers. The rules below carry an invariant
along a run and turn a decreasing measure into an eventual event.
-/
namespace QStar.Lib.Runs

universe u v

variable {σ : Type u} {ε : Type v}

/-- The states reachable from `start` under some finite list of answers. -/
inductive Reachable (step : σ → ε → σ) (start : σ) : σ → Prop where
  | refl : Reachable step start start
  | next {s : σ} (answer : ε) : Reachable step start s → Reachable step start (step s answer)

/-- An invariant of the start state that every step preserves holds everywhere. -/
theorem Reachable.invariant {step : σ → ε → σ} {start s : σ} (I : σ → Prop)
    (hstart : I start) (hstep : ∀ s answer, I s → I (step s answer))
    (h : Reachable step start s) : I s := by
  induction h with
  | refl => exact hstart
  | next answer _ ih => exact hstep _ answer ih

theorem Reachable.trans {step : σ → ε → σ} {a b c : σ}
    (hab : Reachable step a b) (hbc : Reachable step b c) : Reachable step a c := by
  induction hbc with
  | refl => exact hab
  | next answer _ ih => exact .next answer ih

theorem reachable_foldl (step : σ → ε → σ) (start : σ) (answers : List ε) :
    Reachable step start (answers.foldl step start) := by
  induction answers generalizing start with
  | nil => exact .refl
  | cons answer rest ih =>
    have hone : Reachable step start (step start answer) := .next answer .refl
    exact hone.trans (ih (step start answer))

/-- The states reachable by steps that each meet a condition on the state before. -/
inductive ReachableWhere (step : σ → ε → σ) (meets : σ → ε → Prop) (start : σ) : σ → Prop where
  | refl : ReachableWhere step meets start start
  | next {s : σ} (answer : ε) : ReachableWhere step meets start s → meets s answer →
      ReachableWhere step meets start (step s answer)

theorem ReachableWhere.invariant {step : σ → ε → σ} {meets : σ → ε → Prop} {start s : σ}
    (I : σ → Prop) (hstart : I start) (hstep : ∀ s answer, meets s answer → I s → I (step s answer))
    (h : ReachableWhere step meets start s) : I s := by
  induction h with
  | refl => exact hstart
  | next answer _ hmeets ih => exact hstep _ answer hmeets ih

theorem ReachableWhere.reachable {step : σ → ε → σ} {meets : σ → ε → Prop} {start s : σ}
    (h : ReachableWhere step meets start s) : Reachable step start s := by
  induction h with
  | refl => exact .refl
  | next answer _ _ ih => exact .next answer ih

/-- The state after the first `n` answers of a stream. -/
def trajectory (step : σ → ε → σ) (start : σ) (answers : Nat → ε) : Nat → σ
  | 0 => start
  | n + 1 => step (trajectory step start answers n) (answers n)

@[simp] theorem trajectory_zero (step : σ → ε → σ) (start : σ) (answers : Nat → ε) :
    trajectory step start answers 0 = start := rfl

theorem trajectory_succ (step : σ → ε → σ) (start : σ) (answers : Nat → ε) (n : Nat) :
    trajectory step start answers (n + 1) =
      step (trajectory step start answers n) (answers n) := rfl

theorem reachable_trajectory (step : σ → ε → σ) (start : σ) (answers : Nat → ε) (n : Nat) :
    Reachable step start (trajectory step start answers n) := by
  induction n with
  | zero => exact .refl
  | succ n ih => exact .next (answers n) ih

/-- If every unfinished moment is followed by a finished one or by one of smaller
measure, then every moment is followed by a finished one. -/
theorem eventually_of_decreasing (path : Nat → σ) (finished : σ → Prop) (measure : σ → Nat)
    (hprogress : ∀ n, ¬ finished (path n) →
      ∃ m, n ≤ m ∧ (finished (path m) ∨ measure (path m) < measure (path n))) (n : Nat) :
    ∃ m, n ≤ m ∧ finished (path m) := by
  induction hk : measure (path n) using Nat.strong_induction_on generalizing n with
  | _ k ih =>
    by_cases hdone : finished (path n)
    · exact ⟨n, Nat.le_refl n, hdone⟩
    · obtain ⟨m, hnm, hm⟩ := hprogress n hdone
      rcases hm with hm | hm
      · exact ⟨m, hnm, hm⟩
      · obtain ⟨l, hml, hl⟩ := ih (measure (path m)) (by omega) m rfl
        exact ⟨l, by omega, hl⟩

/-- A property of every answer of a run together with the state it is given in. -/
def Along (step : σ → ε → σ) (P : σ → ε → Prop) : σ → List ε → Prop
  | _, [] => True
  | s, answer :: rest => P s answer ∧ Along step P (step s answer) rest

/-- A run whose steps all meet the condition. -/
theorem reachableWhere_of_along {step : σ → ε → σ} {meets : σ → ε → Prop} {start s : σ}
    {answers : List ε} (hstart : ReachableWhere step meets start s) (h : Along step meets s answers) :
    ReachableWhere step meets start (answers.foldl step s) := by
  induction answers generalizing s with
  | nil => exact hstart
  | cons answer rest ih => exact ih (hstart.next answer h.1) h.2

theorem along_congr {step : σ → ε → σ} {P Q : σ → ε → Prop}
    (h : ∀ s answer, P s answer ↔ Q s answer) (s : σ) (answers : List ε) :
    Along step P s answers ↔ Along step Q s answers := by
  induction answers generalizing s with
  | nil => rfl
  | cons answer rest ih => exact and_congr (h s answer) (ih (step s answer))

end QStar.Lib.Runs
