import Mathlib.Data.List.Range
import Mathlib.Data.List.Basic
import Mathlib.Tactic.Common

/-!
# Batches

A list cut into consecutive runs of one size. The run an element falls into is its position
divided by the size, and the runs one after the other are the list again.
-/
namespace QStar.Lib.Batches

variable {α : Type*}

/-- The run numbered `b` of a list. -/
def batch (size b : Nat) (l : List α) : List α := (l.drop (b * size)).take size

/-- The number of runs of a list. -/
def batchCount (size length : Nat) : Nat := (length + size - 1) / size

theorem lt_batchCount_iff {size length b : Nat} (hsize : 0 < size) :
    b < batchCount size length ↔ b * size < length := by
  rw [batchCount, ← Nat.add_one_le_iff, Nat.le_div_iff_mul_le hsize, Nat.add_mul]
  omega

theorem length_batch_le (size b : Nat) (l : List α) : (batch size b l).length ≤ size :=
  List.length_take_le size (l.drop (b * size))

theorem batch_ne_nil {size b : Nat} {l : List α} (hsize : 0 < size)
    (hb : b < batchCount size l.length) : batch size b l ≠ [] := by
  have hlen := (lt_batchCount_iff hsize).mp hb
  intro hnil
  have hzero := congrArg List.length hnil
  simp only [batch, List.length_take, List.length_drop, List.length_nil] at hzero
  omega

/-- The first runs together are what they cover of the list. -/
theorem flatMap_batch (size n : Nat) (l : List α) :
    (List.range n).flatMap (fun b => batch size b l) = l.take (n * size) := by
  induction n with
  | zero => simp
  | succ n ih =>
    rw [List.range_succ, List.flatMap_append, ih, List.flatMap_singleton, batch, Nat.succ_mul,
      List.take_add]

/-- All runs together are the list. -/
theorem flatMap_batch_all {size : Nat} (hsize : 0 < size) (l : List α) :
    (List.range (batchCount size l.length)).flatMap (fun b => batch size b l) = l := by
  rw [flatMap_batch]
  refine List.take_of_length_le ?_
  by_contra hless
  have hlt := (lt_batchCount_iff hsize).mpr (Nat.not_le.mp hless)
  exact Nat.lt_irrefl _ hlt

/-- What lies between two positions, counted from `start`. -/
theorem filter_zipIdx_between (l : List α) (start first last : Nat) :
    ((l.zipIdx start).filter fun x => decide (first ≤ x.2 ∧ x.2 < last)).map Prod.fst =
      (l.take (last - start)).drop (first - start) := by
  induction l generalizing start with
  | nil => simp
  | cons a l ih =>
    rw [List.zipIdx_cons, List.filter_cons]
    by_cases hlast : start < last
    · obtain ⟨room, hroom⟩ : ∃ room, last - start = room + 1 := ⟨last - start - 1, by omega⟩
      by_cases hfirst : first ≤ start
      · rw [if_pos (by simpa using ⟨hfirst, hlast⟩), List.map_cons, ih (start + 1), hroom,
          List.take_succ_cons, show first - start = 0 by omega,
          show first - (start + 1) = 0 by omega, show last - (start + 1) = room by omega]
        simp
      · obtain ⟨skip, hskip⟩ : ∃ skip, first - start = skip + 1 := ⟨first - start - 1, by omega⟩
        rw [if_neg (by simp; omega), ih (start + 1), hroom, List.take_succ_cons, hskip,
          List.drop_succ_cons, show first - (start + 1) = skip by omega,
          show last - (start + 1) = room by omega]
    · rw [if_neg (by simp; omega), ih (start + 1), show last - start = 0 by omega,
        show last - (start + 1) = 0 by omega]
      simp

/-- A run is what stands at the positions between its bounds. -/
theorem batch_eq_between (size b : Nat) (l : List α) :
    ((l.zipIdx).filter fun x => decide (b * size ≤ x.2 ∧ x.2 < b * size + size)).map Prod.fst =
      batch size b l := by
  rw [filter_zipIdx_between, Nat.sub_zero, Nat.sub_zero, List.drop_take, batch,
    show b * size + size - b * size = size by omega]

theorem between_iff {size b n : Nat} (hsize : 0 < size) :
    b * size ≤ n ∧ n < b * size + size ↔ n / size = b := by
  rw [Nat.div_eq_iff hsize]
  omega

/-- The elements of a filtered range stand where the ones before them count up to. -/
theorem zipIdx_filter_range (p : Nat → Bool) (n : Nat) :
    ((List.range n).filter p).zipIdx =
      ((List.range n).filter p).map fun i => (i, (List.range i).countP p) := by
  induction n with
  | zero => rfl
  | succ n ih =>
    rw [List.range_succ, List.filter_append, List.zipIdx_append, ih, List.map_append]
    congr 1
    cases hp : p n with
    | false => simp [hp]
    | true => simp [hp, List.countP_eq_length_filter]

/-- A run of a filtered range, by the count of what is before each element. -/
theorem batch_filter_range {size : Nat} (hsize : 0 < size) (b : Nat) (p : Nat → Bool) (n : Nat) :
    batch size b ((List.range n).filter p) =
      ((List.range n).filter p).filter fun i => decide ((List.range i).countP p / size = b) := by
  rw [← batch_eq_between, zipIdx_filter_range, List.filter_map, List.map_map]
  simp only [Function.comp_def, between_iff hsize]
  exact List.map_id' _

end QStar.Lib.Batches
