import Mathlib.Algebra.BigOperators.Group.List.Basic
import Mathlib.Algebra.Order.BigOperators.Group.List
import Mathlib.Tactic.Abel

/-!
# Tallies over the entries of a list

Sums and counts over a list, and what becomes of them when one entry is replaced: the old
entry's share goes out and the new one's comes in.
-/
namespace QStar.Lib.Tallies

variable {α M : Type} [AddCommMonoid M]

/-- The sum of what each entry adds. -/
def tally (share : α → M) (entries : List α) : M := (entries.map share).sum

@[simp] theorem tally_nil (share : α → M) : tally share [] = 0 := rfl

@[simp] theorem tally_cons (share : α → M) (a : α) (entries : List α) :
    tally share (a :: entries) = share a + tally share entries := by
  simp [tally]

/-- Replacing an entry exchanges its share. -/
theorem tally_set (share : α → M) {entries : List α} {i : Nat} {a : α} (b : α)
    (h : entries[i]? = some a) :
    tally share (entries.set i b) + share a = tally share entries + share b := by
  induction entries generalizing i with
  | nil => simp at h
  | cons c rest ih =>
    cases i with
    | zero =>
      have hc : c = a := by simpa using h
      rw [List.set_cons_zero, tally_cons, tally_cons, hc]
      abel
    | succ i =>
      rw [List.set_cons_succ, tally_cons, tally_cons, add_assoc, ih (by simpa using h), add_assoc]

theorem tally_eq_zero {share : α → M} {entries : List α} (h : ∀ a ∈ entries, share a = 0) :
    tally share entries = 0 := by
  induction entries with
  | nil => rfl
  | cons a rest ih =>
    rw [tally_cons, h a (by simp), ih fun b hb => h b (by simp [hb]), add_zero]

/-- A tally in which at most one entry has a share is that share. -/
theorem tally_eq_single {share : α → M} {entries : List α}
    (h : entries.Pairwise fun a b => share a = 0 ∨ share b = 0) :
    tally share entries = 0 ∨ ∃ a ∈ entries, tally share entries = share a := by
  induction entries with
  | nil => exact .inl rfl
  | cons a rest ih =>
    obtain ⟨hfirst, hrest⟩ := List.pairwise_cons.mp h
    by_cases ha : share a = 0
    · rw [tally_cons, ha, zero_add]
      rcases ih hrest with hzero | ⟨b, hb, hsum⟩
      · exact .inl hzero
      · exact .inr ⟨b, by simp [hb], hsum⟩
    · have hzero : tally share rest = 0 := tally_eq_zero fun b hb => (hfirst b hb).resolve_left ha
      exact .inr ⟨a, by simp, by rw [tally_cons, hzero, add_zero]⟩

theorem tally_nonneg {share : α → Int} {entries : List α} (h : ∀ a ∈ entries, 0 ≤ share a) :
    0 ≤ tally share entries := by
  apply List.sum_nonneg
  intro x hx
  obtain ⟨a, ha, rfl⟩ := List.mem_map.mp hx
  exact h a ha

/-- A count is a tally of ones. -/
theorem countP_eq_tally (p : α → Bool) (entries : List α) :
    entries.countP p = tally (fun a => if p a then 1 else 0) entries := by
  induction entries with
  | nil => rfl
  | cons a rest ih => rw [List.countP_cons, tally_cons, ih, Nat.add_comm]

theorem countP_set (p : α → Bool) {entries : List α} {i : Nat} {a : α} (b : α)
    (h : entries[i]? = some a) :
    (entries.set i b).countP p + (if p a then 1 else 0) =
      entries.countP p + if p b then 1 else 0 := by
  rw [countP_eq_tally, countP_eq_tally]
  exact tally_set _ b h

end QStar.Lib.Tallies
