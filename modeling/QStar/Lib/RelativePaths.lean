import Mathlib.Algebra.GroupWithZero.Nat
import Mathlib.Data.List.Basic
import Mathlib.Data.List.Induction
import Mathlib.Algebra.BigOperators.Group.List.Basic
import Mathlib.Tactic.Common

/-!
# Relative paths

The steps from one place of a tree of names to another, where a place is the list of names
from the top down: up to where the two part, and down from there. No walk that stays in the
tree leads there at less cost, whatever a step up and each name cost.
-/
namespace QStar.Lib.RelativePaths

variable {α : Type*}

inductive Step (α : Type*)
  | up
  | down (name : α)

/-- Where a walk leads that does not leave the tree at its top. -/
def walk : List α → List (Step α) → Option (List α)
  | place, [] => some place
  | [], .up :: _ => none
  | a :: place, .up :: rest => walk (a :: place).dropLast rest
  | place, .down name :: rest => walk (place ++ [name]) rest

theorem walk_nil (place : List α) : walk place [] = some place := by
  cases place <;> rfl

theorem walk_down (place : List α) (name : α) (rest : List (Step α)) :
    walk place (.down name :: rest) = walk (place ++ [name]) rest := by
  cases place <;> rfl

theorem walk_up (place : List α) (name : α) (rest : List (Step α)) :
    walk (place ++ [name]) (.up :: rest) = walk place rest := by
  obtain ⟨first, others, h⟩ := List.exists_cons_of_ne_nil (List.append_ne_nil_of_right_ne_nil place
    (List.cons_ne_nil name []))
  rw [h, walk, ← h, List.dropLast_concat]

theorem walk_append {start place : List α} {first : List (Step α)}
    (h : walk start first = some place) (rest : List (Step α)) :
    walk start (first ++ rest) = walk place rest := by
  induction first generalizing start with
  | nil =>
    rw [walk_nil] at h
    rw [List.nil_append, Option.some.inj h]
  | cons step first ih =>
    cases step with
    | down name =>
      rw [walk_down] at h
      rw [List.cons_append, walk_down]
      exact ih h
    | up =>
      cases start with
      | nil => cases h
      | cons a start => exact ih h

theorem walk_downs (place names : List α) :
    walk place (names.map .down) = some (place ++ names) := by
  induction names generalizing place with
  | nil => rw [List.map_nil, walk_nil, List.append_nil]
  | cons name names ih => rw [List.map_cons, walk_down, ih, List.append_assoc, List.singleton_append]

theorem walk_ups (place names : List α) :
    walk (place ++ names) (names.map fun _ => .up) = some place := by
  induction names using List.reverseRecOn with
  | nil => rw [List.append_nil, List.map_nil, walk_nil]
  | append_singleton names name ih =>
    have hcons : ((names ++ [name]).map fun _ => (Step.up : Step α)) =
        .up :: names.map fun _ => .up := by
      rw [List.map_const', List.map_const', List.length_append, List.length_singleton,
        List.replicate_succ]
    rw [hcons, ← List.append_assoc, walk_up, ih]

variable [DecidableEq α]

/-- Up to where two places part, and down. -/
def between : List α → List α → List (Step α)
  | [], target => target.map .down
  | a :: start, [] => (a :: start).map fun _ => .up
  | a :: start, b :: target =>
    if a = b then between start target
    else (a :: start).map (fun _ => .up) ++ (b :: target).map .down

theorem walk_between (place start target : List α) :
    walk (place ++ start) (between start target) = some (place ++ target) := by
  induction start generalizing place target with
  | nil => rw [List.append_nil, between, walk_downs]
  | cons a start ih =>
    cases target with
    | nil => rw [between, walk_ups, List.append_nil]
    | cons b target =>
      unfold between
      split
      · rename_i hab
        have hstep := ih (place ++ [a]) target
        rw [List.append_assoc, List.append_assoc] at hstep
        rw [← hab]
        exact hstep
      · rw [walk_append (walk_ups place (a :: start)), walk_downs]

theorem between_eq_nil {start target : List α} : between start target = [] ↔ start = target := by
  induction start generalizing target with
  | nil =>
    rw [between, List.map_eq_nil_iff]
    exact eq_comm
  | cons a start ih =>
    cases target with
    | nil => simp [between]
    | cons b target =>
      unfold between
      split
      · rename_i hab
        rw [ih, hab, List.cons_inj_right]
      · rename_i hab
        simp [hab]

section Cost

variable (up : Nat) (cost : α → Nat)

omit [DecidableEq α]

def stepCost : Step α → Nat
  | .up => up
  | .down name => cost name

def walkCost (steps : List (Step α)) : Nat := (steps.map (stepCost up cost)).sum

@[simp] theorem walkCost_nil : walkCost up cost [] = 0 := rfl

@[simp] theorem walkCost_cons (step : Step α) (steps : List (Step α)) :
    walkCost up cost (step :: steps) = stepCost up cost step + walkCost up cost steps := by
  simp [walkCost]

@[simp] theorem walkCost_append (first rest : List (Step α)) :
    walkCost up cost (first ++ rest) = walkCost up cost first + walkCost up cost rest := by
  simp [walkCost]

theorem walkCost_ups (names : List α) :
    walkCost up cost (names.map fun _ => .up) = names.length * up := by
  simp [walkCost, stepCost]

variable [DecidableEq α]

/-- A step up brings the target nearer by no more than its cost. -/
theorem cost_between_up (start target : List α) (name : α) :
    walkCost up cost (between (start ++ [name]) target) ≤
      up + walkCost up cost (between start target) := by
  induction start generalizing target with
  | nil =>
    cases target with
    | nil => simp [between, stepCost]
    | cons b target =>
      rw [List.nil_append, between, between]
      split
      · simp only [between, List.map_cons, walkCost_cons]
        omega
      · simp [stepCost]
  | cons a start ih =>
    cases target with
    | nil =>
      rw [List.cons_append, between, between, walkCost_ups, walkCost_ups]
      simp only [List.length_cons, List.length_append, List.length_nil, Nat.add_mul]
      omega
    | cons b target =>
      rw [List.cons_append, between, between]
      split
      · exact ih target
      · rw [walkCost_append, walkCost_append, walkCost_ups, walkCost_ups]
        simp only [List.length_cons, List.length_append, List.length_nil, Nat.add_mul]
        omega

/-- So does a step down. -/
theorem cost_between_down (start target : List α) (name : α) :
    walkCost up cost (between start target) ≤
      cost name + walkCost up cost (between (start ++ [name]) target) := by
  induction start generalizing target with
  | nil =>
    cases target with
    | nil => simp [between]
    | cons b target =>
      rw [List.nil_append, between, between]
      split
      · rename_i hname
        simp [between, stepCost, hname]
      · simp [stepCost]
        omega
  | cons a start ih =>
    cases target with
    | nil =>
      rw [List.cons_append, between, between, walkCost_ups, walkCost_ups]
      simp only [List.length_cons, List.length_append, List.length_nil, Nat.add_mul]
      omega
    | cons b target =>
      rw [List.cons_append, between, between]
      split
      · exact ih target
      · rw [walkCost_append, walkCost_append, walkCost_ups, walkCost_ups]
        simp only [List.length_cons, List.length_append, List.length_nil, Nat.add_mul]
        omega

/-- No walk between two places costs less than the one by the place where they part. -/
theorem cost_between_le {start target : List α} {steps : List (Step α)}
    (h : walk start steps = some target) :
    walkCost up cost (between start target) ≤ walkCost up cost steps := by
  induction steps generalizing start with
  | nil =>
    rw [walk_nil] at h
    exact Nat.le_of_eq (congrArg (walkCost up cost) (between_eq_nil.mpr (Option.some.inj h)))
  | cons step steps ih =>
    cases step with
    | down name =>
      rw [walk_down] at h
      exact Nat.le_trans (cost_between_down up cost start target name)
        (Nat.add_le_add_left (ih h) (cost name))
    | up =>
      obtain rfl | ⟨place, name, rfl⟩ := List.eq_nil_or_concat' start
      · cases h
      · rw [walk_up] at h
        exact Nat.le_trans (cost_between_up up cost place target name)
          (Nat.add_le_add_left (ih h) up)

end Cost

end QStar.Lib.RelativePaths
