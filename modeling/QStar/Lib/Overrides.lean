import Mathlib.Data.List.Induction

/-!
# Layered settings

Layers are laid over a default, one after another. A value is taken from the last layer that
gives it, and a list is what all layers give in their order, where entries that are there already
may be repeated.
-/
namespace QStar.Lib.Overrides

variable {α β : Type*}

/-- The value of the last layer that gives one. -/
def lastGiven (default : α) (layers : List (Option α)) : α :=
  layers.foldl (fun value layer => layer.getD value) default

/-- The second list is the first with further entries put in, of which the property holds. -/
inductive Repeats (p : α → Prop) : List α → List α → Prop where
  | nil : Repeats p [] []
  | keep (a : α) {plain full : List α} (h : Repeats p plain full) : Repeats p (a :: plain) (a :: full)
  | again {a : α} (ha : p a) {plain full : List α} (h : Repeats p plain full) : Repeats p plain (a :: full)

namespace Repeats

variable {p q : α → Prop}

theorem refl (plain : List α) : Repeats p plain plain := by
  induction plain with
  | nil => exact .nil
  | cons a rest ih => exact .keep a ih

theorem append {plain full plain' full' : List α} (h : Repeats p plain full)
    (h' : Repeats p plain' full') : Repeats p (plain ++ plain') (full ++ full') := by
  induction h with
  | nil => exact h'
  | keep a _ ih => exact .keep a ih
  | again ha _ ih => exact .again ha ih

theorem mono (hpq : ∀ a, p a → q a) {plain full : List α} (h : Repeats p plain full) :
    Repeats q plain full := by
  induction h with
  | nil => exact .nil
  | keep a _ ih => exact .keep a ih
  | again ha _ ih => exact .again (hpq _ ha) ih

/-- Nothing but repetitions. -/
theorem of_forall {full : List α} (h : ∀ a ∈ full, p a) : Repeats p [] full := by
  induction full with
  | nil => exact .nil
  | cons a rest ih =>
    obtain ⟨ha, hrest⟩ := List.forall_mem_cons.mp h
    exact .again ha (ih hrest)

end Repeats

/-- Lists that are laid over one another come to the last of them just where the ones below it are
empty. -/
theorem flatten_eq_getLast_iff (layers : List (List α)) :
    layers.flatten = layers.getLast?.getD [] ↔ ∀ layer ∈ layers.dropLast, layer = [] := by
  induction layers using List.reverseRecOn with
  | nil => simp
  | append_singleton below top =>
    rw [List.flatten_append, List.flatten_singleton, List.getLast?_append, List.dropLast_concat]
    change below.flatten ++ top = top ↔ _
    rw [List.append_left_eq_self, List.flatten_eq_nil_iff]

end QStar.Lib.Overrides
