import QStar.Lib.CStrings

/-!
# Lists without repetition

The `push unless present` idiom the build code uses for inputs.
-/
namespace QStar.Base

universe u

variable {α : Type u} [DecidableEq α]

/-- `string_list_contains` before `qstar_string_list_push` -/
def pushUnique (xs : List α) (x : α) : List α := if x ∈ xs then xs else xs ++ [x]

/-- Pushing a whole list, each item unless present. -/
def appendUnique (xs ys : List α) : List α := ys.foldl pushUnique xs

/-- The items of a list that are not in another one. -/
def without (xs ys : List α) : List α := xs.filter fun x => x ∉ ys

@[simp] theorem mem_without {xs ys : List α} {x : α} : x ∈ without xs ys ↔ x ∈ xs ∧ x ∉ ys := by
  simp [without]

theorem without_append (xs xs' ys : List α) :
    without (xs ++ xs') ys = without xs ys ++ without xs' ys := by
  simp [without]

theorem without_without (xs ys zs : List α) : without (without xs ys) zs = without xs (ys ++ zs) := by
  unfold without
  rw [List.filter_filter]
  refine List.filter_congr ?_
  intro x _
  simp [Bool.and_comm]

theorem without_eq_self {xs ys : List α} (h : ∀ x ∈ xs, x ∉ ys) : without xs ys = xs :=
  List.filter_eq_self.mpr fun x hx => by simpa using h x hx

theorem without_eq_nil_iff {xs ys : List α} : without xs ys = [] ↔ ∀ x ∈ xs, x ∈ ys := by
  simp [without]

theorem without_length_le (xs ys : List α) : (without xs ys).length ≤ xs.length :=
  List.length_filter_le _ _

@[simp] theorem appendUnique_nil (xs : List α) : appendUnique xs [] = xs := rfl

@[simp] theorem appendUnique_cons (xs : List α) (y : α) (ys : List α) :
    appendUnique xs (y :: ys) = appendUnique (pushUnique xs y) ys := rfl

theorem appendUnique_append (xs ys zs : List α) :
    appendUnique xs (ys ++ zs) = appendUnique (appendUnique xs ys) zs := by
  simp [appendUnique]

@[simp] theorem mem_pushUnique {xs : List α} {x y : α} :
    y ∈ pushUnique xs x ↔ y ∈ xs ∨ y = x := by
  unfold pushUnique
  split
  · constructor
    · exact Or.inl
    · rintro (h | rfl)
      · exact h
      · assumption
  · simp

@[simp] theorem mem_appendUnique {xs ys : List α} {y : α} :
    y ∈ appendUnique xs ys ↔ y ∈ xs ∨ y ∈ ys := by
  induction ys generalizing xs with
  | nil => simp
  | cons z ys ih => simp [ih, or_assoc]

/-- Pushing adds a tail of pushed items. -/
theorem appendUnique_eq_append (xs ys : List α) :
    ∃ tail, appendUnique xs ys = xs ++ tail ∧ ∀ z ∈ tail, z ∈ ys := by
  induction ys generalizing xs with
  | nil => exact ⟨[], by simp⟩
  | cons y ys ih =>
    obtain ⟨tail, htail, hmem⟩ := ih (pushUnique xs y)
    by_cases hy : y ∈ xs
    · refine ⟨tail, ?_, fun z hz => List.mem_cons_of_mem _ (hmem z hz)⟩
      rw [appendUnique_cons, htail, pushUnique, if_pos hy]
    · refine ⟨y :: tail, ?_, ?_⟩
      · rw [appendUnique_cons, htail, pushUnique, if_neg hy]
        simp
      · intro z hz
        rcases List.mem_cons.mp hz with rfl | hz
        · exact List.mem_cons_self
        · exact List.mem_cons_of_mem _ (hmem z hz)

theorem nodup_pushUnique {xs : List α} (x : α) (h : xs.Nodup) : (pushUnique xs x).Nodup := by
  unfold pushUnique
  split
  · exact h
  · rename_i hx
    exact List.nodup_append.mpr ⟨h, by simp, by
      intro a ha b hb
      simp only [List.mem_singleton] at hb
      rintro rfl
      exact hx (hb ▸ ha)⟩

theorem nodup_appendUnique {xs : List α} (ys : List α) (h : xs.Nodup) :
    (appendUnique xs ys).Nodup := by
  induction ys generalizing xs with
  | nil => exact h
  | cons y ys ih => exact ih (nodup_pushUnique y h)

/-- Pushing leaves out the items that are there and the repetitions of the others. -/
theorem appendUnique_eq_eraseDups [BEq α] [LawfulBEq α] (xs ys : List α) :
    appendUnique xs ys = xs ++ (without ys xs).eraseDups := by
  induction ys generalizing xs with
  | nil => simp [without]
  | cons y ys ih =>
    rw [appendUnique_cons, ih]
    by_cases hmem : y ∈ xs
    · simp [pushUnique, hmem, without]
    · have hhead : without (y :: ys) xs = y :: without ys xs := by simp [without, hmem]
      have hrest : without ys (xs ++ [y]) = (without ys xs).filter fun z => !z == y := by
        rw [← without_without, without]
        exact List.filter_congr fun z _ => by rw [Bool.eq_iff_iff]; simp
      rw [pushUnique, if_neg hmem, hhead, List.eraseDups_cons, hrest, List.append_assoc]
      rfl

/-- Items that do not repeat are pushed in their order. -/
theorem appendUnique_of_nodup {xs ys : List α} (h : ys.Nodup) :
    appendUnique xs ys = xs ++ without ys xs := by
  induction ys generalizing xs with
  | nil => simp [without]
  | cons y ys ih =>
    obtain ⟨hy, hys⟩ := List.nodup_cons.mp h
    rw [appendUnique_cons, ih hys]
    by_cases hmem : y ∈ xs
    · simp [pushUnique, hmem, without]
    · have hsame : without ys (xs ++ [y]) = without ys xs := by
        rw [← without_without]
        refine without_eq_self ?_
        intro z hz
        simp only [List.mem_singleton]
        rintro rfl
        exact hy (mem_without.mp hz).1
      have hhead : without (y :: ys) xs = y :: without ys xs := by simp [without, hmem]
      rw [pushUnique, if_neg hmem, hsame, hhead, List.append_assoc]
      rfl

theorem appendUnique_pushUnique (xs ys : List α) (y : α) :
    appendUnique xs (pushUnique ys y) = pushUnique (appendUnique xs ys) y := by
  unfold pushUnique
  by_cases hy : y ∈ ys
  · have hmem : y ∈ appendUnique xs ys := mem_appendUnique.mpr (.inr hy)
    rw [if_pos hy, if_pos hmem]
  · rw [if_neg hy, appendUnique_append]
    rfl

/-- Pushing a list that was pushed together is pushing its parts. -/
theorem appendUnique_appendUnique (xs ys zs : List α) :
    appendUnique xs (appendUnique ys zs) = appendUnique (appendUnique xs ys) zs := by
  induction zs generalizing ys with
  | nil => rfl
  | cons z zs ih => rw [appendUnique_cons, ih, appendUnique_pushUnique, appendUnique_cons]

theorem appendUnique_of_subset {xs ys : List α} (h : ∀ y ∈ ys, y ∈ xs) : appendUnique xs ys = xs := by
  induction ys with
  | nil => rfl
  | cons y ys ih =>
    obtain ⟨hy, hys⟩ := List.forall_mem_cons.mp h
    rw [appendUnique_cons, pushUnique, if_pos hy, ih hys]

/-- The first item of a kind is the same without repetition. -/
theorem find?_appendUnique (p : α → Bool) (xs ys : List α) :
    (appendUnique xs ys).find? p = (xs ++ ys).find? p := by
  induction ys generalizing xs with
  | nil => simp
  | cons y ys ih =>
    rw [appendUnique_cons, ih, pushUnique]
    by_cases hy : y ∈ xs
    · rw [if_pos hy, List.find?_append, List.find?_append]
      cases hxs : xs.find? p with
      | some x => rfl
      | none => rw [List.find?_cons_of_neg (List.find?_eq_none.mp hxs y hy)]
    · rw [if_neg hy, List.append_assoc, List.singleton_append]

end QStar.Base
