import Mathlib.Data.List.Infix
import Mathlib.Tactic.Common

/-!
# Terminated strings

Byte streams that concatenate strings, each followed by a terminator, determine
the strings as long as none of them contains the terminator, or as long as it is
known how often each of them does. In general they determine the pieces of the
strings between terminators.
-/
namespace QStar.Lib.Streams

universe u

variable {α : Type u}

/-- A string followed by its terminator. -/
def terminated (t : α) (s : List α) : List α := s ++ [t]

/-- The first string of a stream and the rest of the stream are determined. -/
theorem terminated_append_inj {t : α} {a b x y : List α} (ha : t ∉ a) (hb : t ∉ b)
    (h : terminated t a ++ x = terminated t b ++ y) : a = b ∧ x = y := by
  induction a generalizing b with
  | nil =>
    cases b with
    | nil => exact ⟨rfl, by simpa [terminated] using h⟩
    | cons c rest =>
      simp only [terminated, List.nil_append, List.cons_append, List.cons.injEq] at h
      exact absurd (List.mem_cons.mpr (.inl h.1)) hb
  | cons c rest ih =>
    cases b with
    | nil =>
      simp only [terminated, List.nil_append, List.cons_append, List.cons.injEq] at h
      exact absurd (List.mem_cons.mpr (.inl h.1.symm)) ha
    | cons d other =>
      simp only [terminated, List.cons_append, List.cons.injEq] at h
      obtain ⟨rfl, hrest⟩ := h
      obtain ⟨rfl, hxy⟩ := ih (fun hm => ha (List.mem_cons_of_mem _ hm))
        (fun hm => hb (List.mem_cons_of_mem _ hm)) hrest
      exact ⟨rfl, hxy⟩

theorem terminated_inj {t : α} {a b : List α} (h : terminated t a = terminated t b) : a = b := by
  simpa [terminated] using h

/-- A whole list of strings is determined by its stream. -/
theorem flatMap_terminated_inj {t : α} {xs ys : List (List α)} (hxs : ∀ x ∈ xs, t ∉ x)
    (hys : ∀ y ∈ ys, t ∉ y) (h : xs.flatMap (terminated t) = ys.flatMap (terminated t)) :
    xs = ys := by
  induction xs generalizing ys with
  | nil =>
    cases ys with
    | nil => rfl
    | cons y rest => simp [terminated] at h
  | cons x rest ih =>
    cases ys with
    | nil => simp [terminated] at h
    | cons y other =>
      simp only [List.flatMap_cons] at h
      obtain ⟨rfl, htail⟩ := terminated_append_inj (hxs x (by simp)) (hys y (by simp)) h
      have hrest : rest = other := ih (fun z hz => hxs z (by simp [hz]))
        (fun z hz => hys z (by simp [hz])) htail
      rw [hrest]

/-- A string with a separator in front. -/
def preceded (t : α) (s : List α) : List α := t :: s

/-- What a string without separators shares its start with, among rows of strings, is the
string itself. -/
theorem append_flatMap_preceded {t : α} {x d rest : List α} {xs : List (List α)} (hx : t ∉ x)
    (h : x ++ xs.flatMap (preceded t) = d ++ t :: rest) :
    ∃ e, d = x ++ e ∧ xs.flatMap (preceded t) = e ++ t :: rest := by
  rcases List.append_eq_append_iff.mp h with ⟨e, hd, hrest⟩ | ⟨c, hd, hrest⟩
  · exact ⟨e, hd, hrest⟩
  · cases c with
    | nil => exact ⟨[], by simpa using hd.symm, by simpa using hrest.symm⟩
    | cons b bs =>
      rw [List.cons_append, List.cons.injEq] at hrest
      rw [hd, ← hrest.1] at hx
      exact absurd (List.mem_append_right d List.mem_cons_self) hx

/-- A row of strings determines the strings. -/
theorem flatMap_preceded_inj {t : α} {xs ys : List (List α)} (hxs : ∀ x ∈ xs, t ∉ x)
    (hys : ∀ y ∈ ys, t ∉ y) (h : xs.flatMap (preceded t) = ys.flatMap (preceded t)) : xs = ys := by
  apply flatMap_terminated_inj hxs hys
  have hshift : ∀ zs : List (List α),
      zs.flatMap (preceded t) ++ [t] = t :: zs.flatMap (terminated t) := by
    intro zs
    induction zs with
    | nil => rfl
    | cons z rest ih => simp [preceded, terminated, ih]
  have hboth := congrArg (· ++ [t]) h
  simp only [hshift, List.cons.injEq, true_and] at hboth
  exact hboth

/-- A row that ends in another row has the strings of that one at its end. -/
theorem flatMap_preceded_suffix {t : α} {d : List α} {xs ys : List (List α)}
    (hxs : ∀ x ∈ xs, t ∉ x) (hys : ∀ y ∈ ys, t ∉ y) (hne : ys ≠ [])
    (h : xs.flatMap (preceded t) = d ++ ys.flatMap (preceded t)) :
    ∃ zs, xs = zs ++ ys ∧ d = zs.flatMap (preceded t) := by
  induction xs generalizing d with
  | nil =>
    cases ys with
    | nil => exact absurd rfl hne
    | cons y others => simp [preceded] at h
  | cons x rest ih =>
    cases d with
    | nil => exact ⟨[], flatMap_preceded_inj hxs hys h, rfl⟩
    | cons c others =>
      obtain ⟨y, ys', rfl⟩ := List.exists_cons_of_ne_nil hne
      simp only [List.flatMap_cons, preceded, List.cons_append, List.cons.injEq] at h
      obtain ⟨rfl, h⟩ := h
      obtain ⟨e, rfl, hrest⟩ := append_flatMap_preceded (hxs x List.mem_cons_self) h
      obtain ⟨zs, rfl, rfl⟩ := ih (fun z hz => hxs z (List.mem_cons_of_mem _ hz)) hrest
      exact ⟨x :: zs, rfl, rfl⟩

end QStar.Lib.Streams
