import Mathlib.Data.Fintype.Pigeonhole
import Mathlib.Data.Set.Finite.Basic
import Mathlib.Logic.Function.Iterate
import Mathlib.Logic.Relation

/-!
# Cycles in finite relations

On a finite nonempty set where every element has a predecessor inside the set,
following predecessors must revisit an element, so the relation has a cycle.
-/
namespace QStar.Lib.Cycles

universe u

variable {α : Type u}

/-- Some element reaches itself in one or more steps. -/
def Cyclic (r : α → α → Prop) : Prop := ∃ a, Relation.TransGen r a a

private theorem transGen_iterate {r : α → α → Prop} {f : α → α} (hf : ∀ a, r (f a) a)
    (a : α) (n : Nat) : Relation.TransGen r (f^[n + 1] a) a := by
  induction n with
  | zero => exact .single (hf a)
  | succ n ih =>
    rw [Function.iterate_succ_apply']
    exact .head (hf _) ih

/-- A choice of predecessors on a finite type closes a cycle. -/
theorem cyclic_of_predecessor [Finite α] [Nonempty α] {r : α → α → Prop} {f : α → α}
    (hf : ∀ a, r (f a) a) : Cyclic r := by
  obtain ⟨a⟩ := ‹Nonempty α›
  obtain ⟨i, j, hne, heq⟩ := Finite.exists_ne_map_eq_of_infinite (fun n : Nat => f^[n] a)
  wlog hlt : i < j generalizing i j
  · exact this j i hne.symm heq.symm (by omega)
  obtain ⟨n, rfl⟩ : ∃ n, j = i + (n + 1) := ⟨j - i - 1, by omega⟩
  have hback := transGen_iterate hf (f^[i] a) n
  rw [← Function.iterate_add_apply, Nat.add_comm (n + 1) i] at hback
  exact ⟨f^[i] a, by simpa only [← heq] using hback⟩

/-- A finite nonempty set in which every element has a predecessor contains a cycle. -/
theorem cyclic_of_finite_set {r : α → α → Prop} {S : Set α} (hfin : S.Finite)
    (hne : S.Nonempty) (hpred : ∀ a ∈ S, ∃ b ∈ S, r b a) : Cyclic r := by
  choose! f hfS hfr using hpred
  have : Finite S := hfin
  have : Nonempty S := hne.to_subtype
  obtain ⟨a, ha⟩ := cyclic_of_predecessor (r := fun x y : S => r x y)
    (f := fun x => ⟨f x, hfS x x.property⟩) (fun x => hfr x x.property)
  exact ⟨a, Relation.TransGen.lift Subtype.val (fun _ _ h => h) _ _ ha⟩

/-- A rank that grows along every edge excludes cycles. -/
theorem not_cyclic_of_rank {r : α → α → Prop} (rank : α → Nat)
    (h : ∀ a b, r a b → rank a < rank b) : ¬ Cyclic r := by
  rintro ⟨a, ha⟩
  have hlt : ∀ b, Relation.TransGen r a b → rank a < rank b := by
    intro b hb
    induction hb with
    | single hab => exact h _ _ hab
    | tail _ hbc ih => exact ih.trans (h _ _ hbc)
  exact absurd (hlt a ha) (lt_irrefl _)

/-- No accessible element lies on a cycle. -/
theorem not_transGen_self_of_acc {r : α → α → Prop} {a : α} (h : Acc r a) :
    ¬ Relation.TransGen r a a := by
  induction h with
  | intro a _ ih =>
    intro hcycle
    obtain ⟨b, hab, hba⟩ := Relation.TransGen.tail'_iff.mp hcycle
    exact ih b hba (Relation.TransGen.head' hba hab)

end QStar.Lib.Cycles
