import QStar.Lib.Results
import Mathlib.Logic.Relation

/-!
# Passes until nothing is new

What is reached from some roots along a relation, and the loop that repeats a pass
over a growing state until a pass adds nothing. The state such a loop ends with is
one that its last pass left as it was.
-/
namespace QStar.Lib.Fixpoints

open QStar.Lib.Results

variable {α σ ε : Type}

/-- What a root reaches. -/
def Reached (root : α → Prop) (asks : α → α → Prop) (x : α) : Prop :=
  ∃ r, root r ∧ Relation.ReflTransGen asks r x

section Reached

variable {root : α → Prop} {asks : α → α → Prop} {x y : α}

theorem Reached.of_root (h : root x) : Reached root asks x := ⟨x, h, .refl⟩

theorem Reached.step (h : Reached root asks x) (hasks : asks x y) : Reached root asks y := by
  obtain ⟨r, hr, hreach⟩ := h
  exact ⟨r, hr, hreach.tail hasks⟩

/-- A property of the roots that the relation preserves holds of all that is reached. -/
theorem Reached.induction {P : α → Prop} (h : Reached root asks x) (hroot : ∀ r, root r → P r)
    (hstep : ∀ a b, P a → asks a b → P b) : P x := by
  obtain ⟨r, hr, hreach⟩ := h
  induction hreach with
  | refl => exact hroot _ hr
  | tail _ hasks ih => exact hstep _ _ ih hasks

/-- Reaching is preserved by a map under which roots are reached and asking reaches. -/
theorem Reached.map {β : Type} {root' : β → Prop} {asks' : β → β → Prop} {f : α → β}
    (h : Reached root asks x) (hroot : ∀ r, root r → Reached root' asks' (f r))
    (hstep : ∀ a b, asks a b → asks' (f a) (f b)) : Reached root' asks' (f x) :=
  h.induction hroot fun a b ha hasks => ha.step (hstep a b hasks)

end Reached

/-- Passes until one leaves the size as it was; the fuel bounds their number. -/
def settle (tooDeep : ε) (size : σ → Nat) (pass : σ → Except ε σ) : Nat → σ → Except ε σ
  | 0, _ => .error tooDeep
  | fuel + 1, s => do
    let next ← pass s
    if size next = size s then return next else settle tooDeep size pass fuel next

section Settle

variable {tooDeep : ε} {size : σ → Nat} {pass : σ → Except ε σ} {s final : σ}

/-- What every pass preserves holds before the last pass, which adds nothing. -/
theorem settle_last {I : σ → Prop} (hpass : ∀ s next, I s → pass s = .ok next → I next)
    {fuel : Nat} (hs : I s) (hsettle : settle tooDeep size pass fuel s = .ok final) :
    ∃ last, I last ∧ pass last = .ok final ∧ size final = size last := by
  induction fuel generalizing s with
  | zero => cases hsettle
  | succ fuel ih =>
    obtain ⟨next, hnext, hrest⟩ := bind_eq_ok.mp hsettle
    split at hrest
    · rename_i hsame
      cases hrest
      exact ⟨s, hs, hnext, hsame⟩
    · exact ih (hpass s next hs hnext) hrest

end Settle

end QStar.Lib.Fixpoints
