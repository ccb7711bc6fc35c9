import QStar.Base.Places
import QStar.Lib.Separated

/-!
# Containment in the package

The check on package-relative paths looks for dots between slashes, so dots at the
ends of a path get through. Where an accepted path leads is told by its names: those
that enter a directory against a last name that leaves one.
-/
namespace QStar.Base

open QStar.Lib.CStrings QStar.Lib.FileTrees

/-- A place under a directory, and not the directory itself. -/
def StrictlyBelow (root p : Place) : Prop := root <:+ p ∧ p ≠ root

instance (root p : Place) : Decidable (StrictlyBelow root p) :=
  inferInstanceAs (Decidable (_ ∧ _))

/-- The names that lead into a directory or to a file. -/
def entering (path : List Bytes) : List Bytes :=
  path.filter fun name => name ≠ [] ∧ name ≠ ascii "." ∧ name ≠ ascii ".."

theorem strictlyBelow_append (down root : Place) :
    StrictlyBelow root (down ++ root) ↔ down ≠ [] := by
  constructor
  · rintro ⟨-, hne⟩ rfl
    exact hne rfl
  · intro hne
    refine ⟨List.suffix_append down root, fun heq => hne ?_⟩
    simpa using heq

theorem not_strictlyBelow_tail (root : Place) : ¬ StrictlyBelow root root.tail := by
  rintro ⟨hbelow, hne⟩
  exact hne (hbelow.eq_of_length_le (by simp)).symm

/-- Names that do not go up are entered one after the other. -/
theorem leadsTo_entering {path : List Bytes} (hup : ascii ".." ∉ path) (root : Place) :
    leadsTo root path = (entering path).reverse ++ root := by
  induction path generalizing root with
  | nil => rfl
  | cons name rest ih =>
    obtain ⟨hname, hrest⟩ := not_or.mp fun hmem => hup (List.mem_cons.mpr hmem)
    have hnext : leadsTo root (name :: rest) = leadsTo (descend root name) rest := rfl
    rw [hnext, ih hrest]
    unfold descend
    by_cases hstay : name = [] ∨ name = ascii "."
    · rw [if_pos hstay]
      rcases hstay with rfl | rfl <;> simp [entering]
    · obtain ⟨hempty, hdot⟩ := not_or.mp hstay
      rw [if_neg hstay, if_neg (Ne.symm hname)]
      simp [entering, hempty, hdot, Ne.symm hname]

/-- The names that are left when a last `..` takes one back. -/
def keptNames (path : List Bytes) : List Bytes :=
  if ascii ".." ∈ path then (entering path).dropLast else entering path

/-- A path that goes up, and only at its end, leads above the names that it enters. -/
theorem leadsTo_dotdot {path : List Bytes} (hup : ascii ".." ∉ path.dropLast)
    (hlast : ascii ".." ∈ path) (root : Place) :
    path.count (ascii "..") = 1 ∧ leadsTo root path = ((entering path).reverse ++ root).tail := by
  have hne : path ≠ [] := List.ne_nil_of_mem hlast
  have hsplit := List.dropLast_append_getLast hne
  have hdots : path.getLast hne = ascii ".." := by
    rw [← hsplit, List.mem_append, List.mem_singleton] at hlast
    exact (hlast.resolve_left hup).symm
  rw [hdots] at hsplit
  generalize path.dropLast = way at hup hsplit
  subst hsplit
  have hentering : entering (way ++ [ascii ".."]) = entering way := by
    rw [entering, List.filter_append]
    simp [entering]
  refine ⟨?_, ?_⟩
  · rw [List.count_append, List.count_eq_zero.mpr hup]
    rfl
  · rw [hentering, ← leadsTo_entering hup, leadsTo, List.foldl_append]
    rfl

/-- A path that goes up at most at its end, and not further than it went down, leads to the names
that are left of it. -/
theorem leadsTo_keptNames {path : List Bytes} (hup : ascii ".." ∉ path.dropLast)
    (henters : path.count (ascii "..") < (entering path).length) (root : Place) :
    leadsTo root path = (keptNames path).reverse ++ root := by
  by_cases hlast : ascii ".." ∈ path
  · obtain ⟨hcount, hplace⟩ := leadsTo_dotdot hup hlast root
    have hdown : entering path ≠ [] := by
      rw [← List.length_pos_iff]
      omega
    obtain ⟨way, last, heq⟩ := (List.eq_nil_or_concat (entering path)).resolve_left hdown
    rw [keptNames, if_pos hlast, hplace, heq]
    simp
  · rw [keptNames, if_neg hlast, leadsTo_entering hlast]

/-- A path that goes up at most at its end leads strictly below where it starts exactly when it
enters more directories than it leaves. -/
theorem strictlyBelow_leadsTo_iff {path : List Bytes} (hup : ascii ".." ∉ path.dropLast)
    (root : Place) : StrictlyBelow root (leadsTo root path) ↔
      path.count (ascii "..") < (entering path).length := by
  by_cases hlast : ascii ".." ∈ path
  · obtain ⟨hcount, hplace⟩ := leadsTo_dotdot hup hlast root
    rw [hplace, hcount, ← List.length_reverse]
    cases (entering path).reverse with
    | nil => simpa using not_strictlyBelow_tail root
    | cons name down =>
      rw [List.cons_append, List.tail_cons, strictlyBelow_append, ← List.length_pos_iff,
        List.length_cons]
      omega
  · rw [leadsTo_entering hlast, strictlyBelow_append, List.count_eq_zero.mpr hlast,
      List.length_pos_iff]
    simp

/-- An accepted path stays strictly inside the package exactly when it enters more directories
than it leaves. -/
theorem contained_iff {path : Bytes} (h : isPackageRelative path = true) (root : Place) :
    StrictlyBelow root (placeAt root path) ↔
      (names path).count (ascii "..") < (entering (names path)).length :=
  strictlyBelow_leadsTo_iff (relative_dropLast h) root

theorem source_contained :
    StrictlyBelow [ascii "pkg"] (placeAt [ascii "pkg"] (ascii "src/main.c")) ↔
      (names (ascii "src/main.c")).count (ascii "..") <
        (entering (names (ascii "src/main.c"))).length :=
  contained_iff (by decide) [ascii "pkg"]

/-- Accepted paths that lead to the package itself, and out of it. -/
theorem accepted_not_contained :
    isPackageRelative (ascii "src/..") = true ∧ isPackageRelative (ascii "./..") = true ∧
      ¬ StrictlyBelow [ascii "pkg"] (placeAt [ascii "pkg"] (ascii "src/..")) ∧
      placeAt [ascii "pkg"] (ascii "src/..") = [ascii "pkg"] ∧
      placeAt [ascii "pkg"] (ascii "./..") = [] := by
  decide

/-! ## Paths as they are written -/

/-- A path with a name that is empty, `.` or `..`. -/
def Dotted (path : Bytes) : Prop := entering (names path) ≠ names path

section Written

variable {a b path : Bytes}

/-- The names of a path without dots are left as they are. -/
theorem kept_of_not_dotted (h : ¬Dotted path) : keptNames (names path) = names path ∧
    (names path).count (ascii "..") < (entering (names path)).length := by
  rw [Dotted, not_not] at h
  have hup : ascii ".." ∉ names path := by
    rw [← h]
    intro hmem
    simpa using (List.mem_filter.mp hmem).2
  rw [keptNames, if_neg hup, h, List.count_eq_zero.mpr hup, List.length_pos_iff]
  exact ⟨rfl, names_ne_nil path⟩

theorem names_inj (h : names a = names b) : a = b := by
  have hjoin := congrArg (fun path => [47].intercalate path) h
  simpa only [names, List.intercalate_splitOn] using hjoin

/-- The names of a path begin those of another one if it is the other one or stands before a slash
in it. -/
theorem names_prefix_iff : names a <+: names b ↔ a = b ∨ a ++ ascii "/" <+: b := by
  constructor
  · rintro ⟨rest, hrest⟩
    by_cases hend : rest = []
    · subst hend
      exact .inl (names_inj (by simpa using hrest))
    · have hsep : ∀ name ∈ rest, 47 ∉ name := by
        intro name hname hmem
        have hin : name ∈ b.splitOn 47 := by
          rw [← names, ← hrest]
          exact List.mem_append_right _ hname
        exact QStar.Lib.Separated.not_mem_of_mem_splitOn hin hmem
      have hjoined : names ([47].intercalate rest) = rest := List.splitOn_intercalate 47 hsep hend
      have hb : a ++ 47 :: [47].intercalate rest = b := by
        apply names_inj
        rw [names_slash, hjoined, hrest]
      exact .inr ⟨[47].intercalate rest, by simpa [ascii] using hb⟩
  · rintro (rfl | ⟨rest, rfl⟩)
    · exact List.prefix_rfl
    · have hjoin : a ++ ascii "/" ++ rest = a ++ 47 :: rest := by simp [ascii]
      rw [hjoin, names_slash]
      exact List.prefix_append _ _

end Written

end QStar.Base
