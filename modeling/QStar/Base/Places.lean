import QStar.Base.Paths
import QStar.Lib.FileTrees

/-!
# Places of paths

Where paths below the package root lead in a tree of files, and what the checks on
package-relative paths say about it. Two spellings of one file lead to one place.
-/
namespace QStar.Base

open QStar.Lib.CStrings QStar.Lib.FileTrees

/-- Where a path below the package root leads. -/
def placeAt (root : Place) (rel : Bytes) : Place := leadsTo root (names rel)

/-- The directories a path below the package root goes through. -/
def through (root : Place) (rel : Bytes) : List Place := passes root (names rel)

theorem walk_names {t : Tree} {root : Place} {rel : Bytes} {p : Place} :
    t.walk root (names rel) = some p ↔
      p = placeAt root rel ∧ ∀ d ∈ through root rel, t.entry d = some .dir :=
  Tree.walk_eq_some

theorem names_ne_nil (path : Bytes) : names path ≠ [] := List.splitOn_ne_nil 47 path

theorem root_mem_through (root : Place) (rel : Bytes) : root ∈ through root rel := by
  unfold through
  cases h : names rel with
  | nil => exact absurd h (names_ne_nil rel)
  | cons name rest => simp [passes]

theorem names_append {a b : Bytes} (h : 47 ∉ b) : names (a ++ 47 :: b) = names a ++ [b] := by
  rw [names, List.splitOn_append_cons_self, List.splitOn_eq_singleton h]
  rfl

/-- A path that does not lead back to a directory it goes through leads to an entry of one. -/
theorem placeAt_eq_cons {root : Place} {rel : Bytes}
    (h : ∀ d ∈ through root rel, ¬ placeAt root rel <:+ d) :
    ∃ name, placeAt root rel = name :: leadsTo root (names rel).dropLast := by
  have hlast : leadsTo root (names rel).dropLast ∈ through root rel := by
    rw [through, passes_dropLast root (names_ne_nil rel)]
    simp
  obtain ⟨name, hname⟩ := leadsTo_dropLast root (names_ne_nil rel)
  have hno := h _ hlast
  rw [placeAt, hname] at hno ⊢
  rcases descend_cases (leadsTo root (names rel).dropLast) name with h | h | h
  · simp [h] at hno
  · exact absurd (List.tail_suffix _) (h ▸ hno)
  · exact ⟨name, h⟩

theorem names_slash (a b : Bytes) : names (a ++ 47 :: b) = names a ++ names b :=
  List.splitOn_append_cons_self a b

theorem pathJoin_relative {a : Bytes} (h : isPackageRelative a = true) (b : Bytes) :
    pathJoin a b = a ++ 47 :: b := by
  simp only [isPackageRelative, Bool.and_eq_true, decide_eq_true_eq] at h
  have hne : a ≠ [] := h.1.1.1.1.1.1.1.1.1
  have hdot : a ≠ ascii "." := h.1.1.1.1.1.2
  have hslash : ascii "/" = [47] := by decide
  simp [pathJoin, hne, hdot, hslash]

theorem placeAt_pathJoin {a : Bytes} (h : isPackageRelative a = true) (root : Place) (b : Bytes) :
    placeAt root (pathJoin a b) = leadsTo (placeAt root a) (names b) := by
  rw [placeAt, pathJoin_relative h, names_slash, leadsTo, List.foldl_append]
  rfl

/-- A name before the last one has a separator on either side. -/
theorem intercalate_split (pre : List Bytes) (name : Bytes) {post : List Bytes} (hpost : post ≠ []) :
    ∃ x y, [47].intercalate (pre ++ name :: post) = x ++ name ++ 47 :: y ∧
      (x = [] ∨ ∃ x', x = x' ++ [47]) := by
  induction pre with
  | nil =>
    refine ⟨[], [47].intercalate post, ?_, .inl rfl⟩
    rw [List.nil_append, List.intercalate_cons_of_ne_nil hpost]
    simp
  | cons head pre ih =>
    obtain ⟨x, y, heq, hx⟩ := ih
    refine ⟨head ++ [47] ++ x, y, ?_, .inr ?_⟩
    · rw [List.cons_append, List.intercalate_cons_of_ne_nil (by simp), heq]
      simp
    · rcases hx with rfl | ⟨x', rfl⟩
      · exact ⟨head, by simp⟩
      · exact ⟨head ++ [47] ++ x', by simp⟩

/-- A package-relative path goes up at most at its end. -/
theorem dotdot_last {path : Bytes} (h : isPackageRelative path = true) {pre post : List Bytes}
    (hnames : names path = pre ++ ascii ".." :: post) : post = [] := by
  by_contra hpost
  obtain ⟨x, y, heq, hx⟩ := intercalate_split pre (ascii "..") hpost
  have hpath : path = x ++ ascii ".." ++ 47 :: y := by
    rw [← heq, ← hnames, names, List.intercalate_splitOn]
  simp only [isPackageRelative, Bool.and_eq_true, Bool.not_eq_true', decide_eq_false_iff_not,
    strstr] at h
  rcases hx with rfl | ⟨x', rfl⟩
  · exact h.1.1.1.2 ⟨y, by rw [hpath]; rfl⟩
  · exact h.1.1.2 ⟨x', y, by rw [hpath]; simp [ascii]⟩

theorem relative_dropLast {path : Bytes} (h : isPackageRelative path = true) :
    ascii ".." ∉ (names path).dropLast := by
  intro hmem
  obtain ⟨pre, post, hnames⟩ := List.append_of_mem hmem
  have hwhole := List.dropLast_append_getLast (names_ne_nil path)
  rw [hnames, List.append_assoc, List.cons_append] at hwhole
  have hpost := dotdot_last h hwhole.symm
  simp at hpost

/-- A destination at which a file can stand does not go up. -/
theorem no_dotdot {root : Place} {a b : Bytes} (ha : isPackageRelative a = true)
    (hb : isPackageRelative b = true)
    (hplace : ∀ d ∈ through root (pathJoin a b), ¬ placeAt root (pathJoin a b) <:+ d) :
    ascii ".." ∉ names b := by
  intro hmem
  obtain ⟨pre, post, hnames⟩ := List.append_of_mem hmem
  obtain rfl := dotdot_last hb hnames
  have hwhole : names (pathJoin a b) = names a ++ pre ++ [ascii ".."] := by
    rw [pathJoin_relative ha, names_slash, hnames, List.append_assoc]
  have hlast : leadsTo root (names a ++ pre) ∈ through root (pathJoin a b) := by
    rw [through, passes_dropLast root (names_ne_nil _), hwhole, List.dropLast_concat]
    simp
  refine hplace _ hlast ?_
  have hup : placeAt root (pathJoin a b) = (leadsTo root (names a ++ pre)).tail := by
    rw [placeAt, hwhole, leadsTo, List.foldl_append]
    rfl
  rw [hup]
  exact List.tail_suffix _

end QStar.Base
