import QStar.Base.Containment
import QStar.BuildGraph.Artifacts

/-!
# Paths that are spelled plainly

A package-relative path can still end in a slash, in `.` or in `..`. One that does
not, and that does not begin in `./`, has no name to leave out: then two paths that
lead to one place are the same text.
-/
namespace QStar.Base

open QStar.Lib.CStrings QStar.Lib.FileTrees
open QStar.BuildGraph

/-- Where a path leads that is opened with the working directory given. -/
def filePlace (cwd : Place) (path : Bytes) : Place :=
  placeAt (if path.head? = some 47 then [] else cwd) path

/-- The path ends in a name that enters a directory or a file. -/
def EndsPlain (path : Bytes) : Prop :=
  ¬ascii "/" <:+ path ∧ ¬ascii "/." <:+ path ∧ ¬ascii "/.." <:+ path

instance (path : Bytes) : Decidable (EndsPlain path) := inferInstanceAs (Decidable (_ ∧ _))

/-- A name that enters a directory or a file. -/
def PlainName (name : Bytes) : Prop := name ≠ [] ∧ name ≠ ascii "." ∧ name ≠ ascii ".."

theorem not_dotted_iff {path : Bytes} : ¬Dotted path ↔ ∀ name ∈ names path, PlainName name := by
  rw [Dotted, not_not, entering, List.filter_eq_self]
  simp only [PlainName, decide_eq_true_eq]

theorem not_mem_of_mem_names {path name : Bytes} (h : name ∈ names path) : 47 ∉ name :=
  QStar.Lib.Separated.not_mem_of_mem_splitOn h

theorem names_singleton {name : Bytes} (h : 47 ∉ name) : names name = [name] :=
  List.splitOn_eq_singleton h

/-- Names from some point on are those of the text behind a slash. -/
theorem names_eq_append {path : Bytes} {pre post : List Bytes} (hpre : pre ≠ []) (hpost : post ≠ [])
    (h : names path = pre ++ post) : ∃ a b, path = a ++ 47 :: b ∧ names a = pre ∧ names b = post := by
  have hsep : ∀ name ∈ pre ++ post, 47 ∉ name := by
    rw [← h]
    exact fun name hname => not_mem_of_mem_names hname
  have ha : names ([47].intercalate pre) = pre :=
    List.splitOn_intercalate 47 (fun name hname => hsep name (List.mem_append_left _ hname)) hpre
  have hb : names ([47].intercalate post) = post :=
    List.splitOn_intercalate 47 (fun name hname => hsep name (List.mem_append_right _ hname)) hpost
  refine ⟨_, _, ?_, ha, hb⟩
  apply names_inj
  rw [names_slash, ha, hb, h]

/-- The names behind the first are plain in a package-relative path that ends plainly. -/
theorem plainName_of_relative {path : Bytes} (hrel : isPackageRelative path = true) (hends : EndsPlain path)
    {pre post : List Bytes} {name : Bytes} (hpre : pre ≠ []) (h : names path = pre ++ name :: post) :
    PlainName name := by
  obtain ⟨a, b, hpath, -, hb⟩ := names_eq_append hpre (List.cons_ne_nil name post) h
  simp only [isPackageRelative, Bool.and_eq_true, Bool.not_eq_true', decide_eq_false_iff_not, strstr] at hrel
  by_cases hpost : post = []
  · -- the last name: the path ends in it
    rw [hpost] at hb
    have hname : b = name := names_inj (hb.trans (names_singleton (not_mem_of_mem_names (by
      rw [hb]
      exact List.mem_cons_self))).symm)
    rw [hname] at hpath
    refine ⟨?_, ?_, ?_⟩
    · rintro rfl
      exact hends.1 ⟨a, hpath.symm⟩
    · rintro rfl
      exact hends.2.1 ⟨a, hpath.symm⟩
    · rintro rfl
      exact hends.2.2 ⟨a, hpath.symm⟩
  · obtain ⟨c, d, hsplit, hc, -⟩ := names_eq_append (List.cons_ne_nil name []) hpost hb
    have hname : c = name := names_inj (hc.trans (names_singleton (not_mem_of_mem_names (by
      rw [hc]
      exact List.mem_cons_self))).symm)
    rw [hsplit, hname] at hpath
    refine ⟨?_, ?_, ?_⟩
    · rintro rfl
      exact hrel.2 ⟨a, d, by rw [hpath]; simp [ascii]⟩
    · rintro rfl
      exact hrel.1.2 ⟨a, d, by rw [hpath]; simp [ascii]⟩
    · rintro rfl
      exact hrel.1.1.2 ⟨a, d, by rw [hpath]; simp [ascii]⟩

/-- What is left of a package-relative path behind `./`. -/
theorem plainNames_behind_dot {path : Bytes} (hrel : isPackageRelative path = true) (hends : EndsPlain path)
    (hdot : ascii "./" <+: path) : ∀ name ∈ names (path.drop 2), PlainName name := by
  obtain ⟨rest, rfl⟩ := hdot
  have hnames : names (ascii "./" ++ rest) = [ascii "."] ++ names rest := names_slash (ascii ".") rest
  intro name hname
  have hdrop : (ascii "./" ++ rest).drop 2 = rest := rfl
  rw [hdrop] at hname
  obtain ⟨pre, post, hsplit⟩ := List.append_of_mem hname
  rw [hsplit, ← List.append_assoc] at hnames
  exact plainName_of_relative hrel hends (by simp) hnames

/-- A package-relative path is plain if it ends plainly and does not begin in `./`. -/
theorem not_dotted_of_relative {path : Bytes} (hrel : isPackageRelative path = true) (hends : EndsPlain path)
    (hdot : ¬ascii "./" <+: path) : ¬Dotted path := by
  rw [not_dotted_iff]
  intro name hname
  obtain ⟨pre, post, hsplit⟩ := List.append_of_mem hname
  by_cases hpre : pre = []
  · rw [hpre, List.nil_append] at hsplit
    have hslash : 47 ∉ name := not_mem_of_mem_names hname
    simp only [isPackageRelative, Bool.and_eq_true, Bool.not_eq_true', decide_eq_false_iff_not,
      decide_eq_true_eq] at hrel
    by_cases hpost : post = []
    · rw [hpost] at hsplit
      have hpath : path = name := names_inj (hsplit.trans (names_singleton hslash).symm)
      rw [hpath] at hrel
      exact ⟨hrel.1.1.1.1.1.1.1.1.1, hrel.1.1.1.1.1.2, hrel.1.1.1.1.2⟩
    · obtain ⟨a, b, hpath, ha, -⟩ := names_eq_append (List.cons_ne_nil name []) hpost hsplit
      have hname : a = name := names_inj (ha.trans (names_singleton hslash).symm)
      rw [hname] at hpath
      refine ⟨?_, ?_, ?_⟩
      · rintro rfl
        rw [hpath] at hrel
        exact hrel.1.1.1.1.1.1.1.1.2 rfl
      · rintro rfl
        exact hdot ⟨b, hpath.symm⟩
      · rintro rfl
        exact hrel.1.1.1.2 ⟨b, hpath.symm⟩
  · exact plainName_of_relative hrel hends hpre hsplit

theorem not_dotted_slash {a b : Bytes} (ha : ¬Dotted a) (hb : ∀ name ∈ names b, PlainName name) :
    ¬Dotted (a ++ 47 :: b) := by
  rw [not_dotted_iff] at ha ⊢
  rw [names_slash]
  intro name hname
  rcases List.mem_append.mp hname with hname | hname
  · exact ha name hname
  · exact hb name hname

theorem ne_nil_of_not_dotted {path : Bytes} (h : ¬Dotted path) : path ≠ [] := by
  rintro rfl
  rw [not_dotted_iff] at h
  exact (h [] (by rw [names_singleton List.not_mem_nil]; exact List.mem_cons_self)).1 rfl

theorem head_of_not_dotted {path : Bytes} (h : ¬Dotted path) : path.head? ≠ some 47 := by
  intro hhead
  obtain ⟨rest, rfl⟩ : ∃ rest, path = 47 :: rest := by
    cases path with
    | nil => cases hhead
    | cons c rest =>
      cases hhead
      exact ⟨rest, rfl⟩
  rw [not_dotted_iff] at h
  have hnames : names (47 :: rest) = [[]] ++ names rest := names_slash [] rest
  exact (h [] (by rw [hnames]; simp)).1 rfl

theorem dot_of_not_dotted {path : Bytes} (h : ¬Dotted path) : ¬ascii "./" <+: path := by
  rintro ⟨rest, rfl⟩
  rw [not_dotted_iff] at h
  have hnames : names (ascii "./" ++ rest) = [ascii "."] ++ names rest := names_slash (ascii ".") rest
  exact (h (ascii ".") (by rw [hnames]; simp)).2.1 rfl

theorem pathJoin_of_not_dotted {a b : Bytes} (ha : ¬Dotted a) : pathJoin a b = a ++ 47 :: b := by
  have hdot : a ≠ ascii "." := by
    rintro rfl
    rw [not_dotted_iff] at ha
    exact (ha (ascii ".") (by decide)).2.1 rfl
  rw [pathJoin, if_neg (not_or.mpr ⟨ne_nil_of_not_dotted ha, hdot⟩)]
  simp [ascii]

/-- The directory of a plain path is plain, or the path is one name. -/
theorem dirname_of_not_dotted {path : Bytes} (h : ¬Dotted path) :
    dirname path = ascii "." ∨ ¬Dotted (dirname path) := by
  unfold dirname
  cases hslash : strrchr 47 path with
  | none => exact .inl rfl
  | some n =>
    right
    have hsplit : path = path.take n ++ 47 :: path.drop (n + 1) := (strrchr_eq_some hslash).1
    cases n with
    | zero =>
      rw [List.take_zero, List.nil_append] at hsplit
      exact absurd (by rw [hsplit]; rfl) (head_of_not_dotted h)
    | succ n =>
      simp only
      rw [hsplit, not_dotted_iff, names_slash] at h
      rw [not_dotted_iff]
      exact fun name hname => h name (List.mem_append_left _ hname)

/-- A plain path leads to its names below where it starts. -/
theorem placeAt_of_not_dotted {path : Bytes} (h : ¬Dotted path) (root : Place) :
    placeAt root path = (names path).reverse ++ root := by
  have hplain := not_dotted_iff.mp h
  rw [placeAt, leadsTo_entering (fun hup => (hplain _ hup).2.2 rfl)]
  rw [Dotted, not_not] at h
  rw [h]

/-- Plain paths that lead to one place are one path. -/
theorem placeAt_injective {a b : Bytes} (ha : ¬Dotted a) (hb : ¬Dotted b) {root : Place}
    (h : placeAt root a = placeAt root b) : a = b := by
  rw [placeAt_of_not_dotted ha, placeAt_of_not_dotted hb] at h
  exact names_inj (List.reverse_injective (List.append_cancel_right h))

/-- A file below the root is at the place of the root followed by its names. -/
theorem filePlace_pathJoin (cwd : Place) (root : Bytes) {rel : Bytes} (h : rel.head? ≠ some 47) :
    filePlace cwd (pathJoin root rel) = placeAt (filePlace cwd root) rel := by
  unfold pathJoin
  split
  · rename_i hroot
    have hcwd : filePlace cwd root = cwd := by
      rcases hroot with rfl | rfl <;> rfl
    rw [hcwd, filePlace, if_neg h]
  · rename_i hroot
    obtain ⟨hne, -⟩ := not_or.mp hroot
    have hhead : (root ++ ascii "/" ++ rel).head? = root.head? := by
      cases root with
      | nil => exact absurd rfl hne
      | cons c rest => rfl
    have hassoc : root ++ ascii "/" ++ rel = root ++ 47 :: rel := by simp [ascii]
    rw [filePlace, hhead, hassoc, placeAt, names_slash, leadsTo, List.foldl_append]
    rfl

theorem placeAt_behind_dot (root : Place) (rel : Bytes) : placeAt root (ascii "./" ++ rel) = placeAt root rel := by
  have hnames : names (ascii "./" ++ rel) = ascii "." :: names rel := names_slash (ascii ".") rel
  rw [placeAt, hnames]
  rfl

/-- The directory of a path is written at its start, unless it is not written at all. -/
theorem dirname_cases (path : Bytes) :
    dirname path = ascii "." ∨ (dirname path = ascii "/" ∧ path.head? = some 47) ∨ dirname path ++ ascii "/" <+: path := by
  unfold dirname
  cases h : strrchr 47 path with
  | none => exact .inl rfl
  | some n =>
    right
    have hsplit := (strrchr_eq_some h).1
    cases n with
    | zero =>
      left
      rw [List.take_zero, List.nil_append] at hsplit
      have hhead : path.head? = some 47 := by
        rw [hsplit]
        rfl
      refine ⟨?_, hhead⟩
      rw [hsplit]
      rfl
    | succ n =>
      right
      have hassoc : path.take (n + 1) ++ ascii "/" ++ path.drop (n + 1 + 1) = path := by
        rw [List.append_assoc]
        exact hsplit.symm
      exact ⟨_, hassoc⟩

theorem artifactBasename_of_not_mem {path : Bytes} (h : 47 ∉ path) : artifactBasename path = path := by
  rw [artifactBasename, strrchr_eq_none h]

/-- The last name of a path is that of what stands behind a slash. -/
theorem artifactBasename_slash (a b : Bytes) : artifactBasename (a ++ 47 :: b) = artifactBasename b := by
  have hlast : ∀ (a b : Bytes), 47 ∉ b → artifactBasename (a ++ 47 :: b) = b := by
    intro a b hb
    rw [artifactBasename, strrchr_append a hb]
    simp only
    rw [← List.drop_drop, List.drop_left]
    rfl
  cases h : strrchr 47 b with
  | none =>
    have hb := not_mem_of_strrchr h
    rw [hlast a b hb, artifactBasename_of_not_mem hb]
  | some n =>
    obtain ⟨hsplit, hrest⟩ := strrchr_eq_some h
    have hassoc : a ++ 47 :: b = (a ++ 47 :: b.take n) ++ 47 :: b.drop (n + 1) := by
      rw [List.append_assoc, List.cons_append, ← hsplit]
    rw [hassoc, hlast _ _ hrest]
    conv_rhs => rw [hsplit]
    rw [hlast _ _ hrest]

/-- The last name of a path is at the head of its place. -/
theorem placeAt_basename (root : Place) {path : Bytes} (h : PlainName (artifactBasename path)) :
    ∃ dir, placeAt root path = artifactBasename path :: dir := by
  have hlast : ∃ pre, names path = pre ++ [artifactBasename path] := by
    unfold artifactBasename
    cases hslash : strrchr 47 path with
    | none => exact ⟨[], names_singleton (not_mem_of_strrchr hslash)⟩
    | some n =>
      obtain ⟨hsplit, hrest⟩ := strrchr_eq_some hslash
      refine ⟨names (path.take n), ?_⟩
      simp only
      conv_lhs => rw [hsplit]
      exact names_append hrest
  obtain ⟨pre, hpre⟩ := hlast
  refine ⟨leadsTo root pre, ?_⟩
  rw [placeAt, hpre, leadsTo, List.foldl_append]
  obtain ⟨hne, hdot, hdots⟩ := h
  change descend _ _ = _
  rw [descend, if_neg (not_or.mpr ⟨hne, hdot⟩), if_neg hdots]
  rfl

end QStar.Base
