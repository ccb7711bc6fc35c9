import Mathlib.Algebra.GroupWithZero.Nat
import Mathlib.Data.List.Basic
import Mathlib.Tactic.Common

/-!
# Lists in one text

Items are joined with a separator and read back by a loop that looks for the next
separator and stops at the end of the text. Such a loop sees no empty item behind
the last separator, and that is all it loses of what `List.splitOn` reads.
-/
namespace QStar.Lib.Separated

variable {α : Type*} [DecidableEq α] {sep : α}

/-- The items a loop reads that stops at the end of the text, with the item it is in. -/
def readItems (sep : α) : Option (List α) → List α → List (List α)
  | none, [] => []
  | some item, [] => [item]
  | item, c :: rest =>
    if c = sep then item.getD [] :: readItems sep none rest
    else readItems sep (some (item.getD [] ++ [c])) rest

/-- `while (*p) { q = strchr(p, sep); …; p = q ? q + 1 : NULL; }` -/
def split (sep : α) (text : List α) : List (List α) := readItems sep none text

def join (sep : α) (items : List (List α)) : List α := [sep].intercalate items

/-- A list without its last item where that is empty. -/
def trim (items : List (List α)) : List (List α) :=
  if items.getLast? = some [] then items.dropLast else items

theorem trim_cons {item : List α} {items : List (List α)} (h : items ≠ []) :
    trim (item :: items) = item :: trim items := by
  obtain ⟨second, rest, rfl⟩ := List.exists_cons_of_ne_nil h
  unfold trim
  rw [List.getLast?_cons_cons]
  split
  · rfl
  · rfl

theorem trim_eq_self {items : List (List α)} : trim items = items ↔ items.getLast? ≠ some [] := by
  unfold trim
  split
  · rename_i hlast
    constructor
    · intro h
      have hne : items ≠ [] := by
        intro hnil
        rw [hnil] at hlast
        cases hlast
      have hlen := congrArg List.length h
      have hpos := List.length_pos_iff.mpr hne
      rw [List.length_dropLast] at hlen
      omega
    · intro h
      exact absurd hlast h
  · rename_i hlast
    exact ⟨fun _ => hlast, fun _ => rfl⟩

/-- What the loop reads in the middle of an item. -/
theorem readItems_some {item : List α} (hitem : item ≠ []) (text : List α) :
    readItems sep (some item) text = trim ((text.splitOn sep).modifyHead (item ++ ·)) ∧
      readItems sep none text = trim (text.splitOn sep) := by
  induction text generalizing item with
  | nil =>
    constructor
    · simp [readItems, trim, hitem]
    · simp [readItems, trim]
  | cons c rest ih =>
    have hrest : rest.splitOn sep ≠ [] := List.splitOn_ne_nil sep rest
    rw [List.splitOn_cons_eq_if_modifyHead]
    by_cases hc : c = sep
    · have hbeq : (c == sep) = true := by simp [hc]
      rw [if_pos hbeq]
      constructor
      · rw [readItems, if_pos hc, List.modifyHead_cons, List.append_nil, trim_cons hrest,
          (ih hitem).2]
        rfl
      · rw [readItems, if_pos hc, trim_cons hrest, (ih hitem).2]
        rfl
    · have hbeq : ¬(c == sep) = true := by simp [hc]
      rw [if_neg hbeq]
      constructor
      · rw [readItems, if_neg hc, Option.getD_some,
          (ih (List.append_ne_nil_of_right_ne_nil item (List.cons_ne_nil c []))).1,
          List.modifyHead_modifyHead]
        congr 2
        funext tail
        simp
      · rw [readItems, if_neg hc, Option.getD_none, List.nil_append,
          (ih (List.cons_ne_nil c [])).1]
        rfl

/-- The loop and `List.splitOn`. -/
theorem split_eq_trim (sep : α) (text : List α) : split sep text = trim (text.splitOn sep) :=
  (readItems_some (List.cons_ne_nil sep []) text).2

theorem split_join {items : List (List α)} (h : ∀ item ∈ items, sep ∉ item) :
    split sep (join sep items) = trim items := by
  cases items with
  | nil => rfl
  | cons item rest => rw [split_eq_trim, join, List.splitOn_intercalate sep h (by simp)]

theorem not_mem_of_mem_splitOn {text item : List α} (h : item ∈ text.splitOn sep) : sep ∉ item := by
  induction text generalizing item with
  | nil =>
    obtain rfl : item = [] := by simpa using h
    simp
  | cons c rest ih =>
    rw [List.splitOn_cons_eq_if_modifyHead] at h
    split at h
    · rcases List.mem_cons.mp h with rfl | h
      · simp
      · exact ih h
    · rename_i hc
      obtain ⟨first, others, heq⟩ := List.exists_cons_of_ne_nil (List.splitOn_ne_nil sep rest)
      rw [heq, List.modifyHead_cons] at h
      rcases List.mem_cons.mp h with rfl | h
      · have hfirst : sep ∉ first := ih (by simp [heq])
        have hne : ¬c = sep := by simpa using hc
        simp [hfirst, Ne.symm hne]
      · exact ih (by simp [heq, h])

theorem mem_of_mem_trim {items : List (List α)} {item : List α} (h : item ∈ trim items) :
    item ∈ items := by
  unfold trim at h
  split at h
  · exact List.dropLast_subset _ h
  · exact h

omit [DecidableEq α] in
theorem join_cons_cons {first second : List α} {rest : List (List α)} :
    join sep (first :: second :: rest) = first ++ sep :: join sep (second :: rest) := by
  simp [join]

omit [DecidableEq α] in
/-- A text is made of its items and separators. -/
theorem mem_join {items : List (List α)} {c : α} (hc : c ≠ sep) :
    c ∈ join sep items ↔ ∃ item ∈ items, c ∈ item := by
  induction items with
  | nil => simp [join]
  | cons first rest ih =>
    cases rest with
    | nil => simp [join]
    | cons second rest =>
      rw [join_cons_cons, List.mem_append, List.mem_cons, ih]
      simp [hc]

/-- No item holds the separator. -/
theorem not_mem_of_mem_split {text item : List α} (h : item ∈ split sep text) : sep ∉ item := by
  rw [split_eq_trim] at h
  exact not_mem_of_mem_splitOn (mem_of_mem_trim h)

theorem mem_of_mem_split {text item : List α} {c : α} (h : item ∈ split sep text) (hc : c ∈ item) :
    c ∈ text := by
  have hne : c ≠ sep := by
    rintro rfl
    exact not_mem_of_mem_split h hc
  rw [split_eq_trim] at h
  have htext : join sep (text.splitOn sep) = text := List.intercalate_splitOn sep
  rw [← htext, mem_join hne]
  exact ⟨item, mem_of_mem_trim h, hc⟩

/-- The lists that are read back as they were joined. -/
theorem eq_split_join_iff {items : List (List α)} :
    items = split sep (join sep items) ↔ (∀ item ∈ items, sep ∉ item) ∧ items.getLast? ≠ some [] := by
  constructor
  · intro h
    have hitems : ∀ item ∈ items, sep ∉ item := by
      intro item hitem
      rw [h] at hitem
      exact not_mem_of_mem_split hitem
    refine ⟨hitems, trim_eq_self.mp ?_⟩
    rw [split_join hitems] at h
    exact h.symm
  · rintro ⟨hitems, hlast⟩
    rw [split_join hitems, trim_eq_self.mpr hlast]

omit [DecidableEq α] in
theorem join_append_nil {items : List (List α)} (h : items ≠ []) :
    join sep (items ++ [[]]) = join sep items ++ [sep] := by
  induction items with
  | nil => exact absurd rfl h
  | cons item rest ih =>
    by_cases hrest : rest = []
    · simp [join, hrest]
    · have htail : rest ++ [[]] ≠ [] := by simp
      have ih := ih hrest
      rw [join, join] at ih ⊢
      rw [List.cons_append, List.intercalate_cons_of_ne_nil htail,
        List.intercalate_cons_of_ne_nil hrest, ih]
      simp

/-- The last item is empty in an empty text and behind a separator at its end. -/
theorem getLast?_splitOn {text : List α} :
    (text.splitOn sep).getLast? = some [] ↔ text = [] ∨ text.getLast? = some sep := by
  constructor
  · intro h
    obtain ⟨items, hitems⟩ := List.getLast?_eq_some_iff.mp h
    have htext : join sep (text.splitOn sep) = text := List.intercalate_splitOn sep
    by_cases hnil : items = []
    · left
      rw [← htext, hitems, hnil]
      rfl
    · right
      rw [← htext, hitems, join_append_nil hnil]
      simp
  · rintro (rfl | h)
    · rfl
    · obtain ⟨before, rfl⟩ := List.getLast?_eq_some_iff.mp h
      rw [List.splitOn_append_cons_self]
      simp

/-- The items a text lists; the empty text lists none. -/
def itemsOf (sep : α) (text : List α) : List (List α) := if text = [] then [] else text.splitOn sep

/-- The loop reads the items a text lists unless the last of them is empty. -/
theorem split_eq_itemsOf_iff {text : List α} :
    split sep text = itemsOf sep text ↔ text.getLast? ≠ some sep := by
  by_cases h : text = []
  · subst h
    simp [split, readItems, itemsOf]
  · rw [itemsOf, if_neg h, split_eq_trim, trim_eq_self, ne_eq, getLast?_splitOn]
    simp [h]

/-! ## Texts that are put together -/

omit [DecidableEq α] in
theorem join_glue {before after : List (List α)} {first last : List α} (mid : List α) :
    join sep (before ++ [last]) ++ mid ++ join sep (first :: after) =
      join sep (before ++ (last ++ mid ++ first) :: after) := by
  induction before with
  | nil =>
    cases after with
    | nil => simp [join]
    | cons second rest =>
      rw [join_cons_cons]
      simp [join]
  | cons item before ih =>
    have hleft : before ++ [last] ≠ [] := by simp
    have hright : before ++ (last ++ mid ++ first) :: after ≠ [] := by simp
    rw [join, join, join] at ih ⊢
    rw [List.cons_append, List.cons_append, List.intercalate_cons_of_ne_nil hleft,
      List.intercalate_cons_of_ne_nil hright, ← ih]
    simp

/-- The items of two texts with some bytes between them, which join two items. -/
theorem splitOn_glue {a mid b first last : List α} {before after : List (List α)} (hmid : sep ∉ mid)
    (ha : a.splitOn sep = before ++ [last]) (hb : b.splitOn sep = first :: after) :
    (a ++ mid ++ b).splitOn sep = before ++ (last ++ mid ++ first) :: after := by
  have hleft : join sep (before ++ [last]) = a := by rw [← ha, join, List.intercalate_splitOn]
  have hright : join sep (first :: after) = b := by rw [← hb, join, List.intercalate_splitOn]
  have hitems : ∀ item ∈ before ++ (last ++ mid ++ first) :: after, sep ∉ item := by
    intro item hitem
    rcases List.mem_append.mp hitem with hin | hin
    · exact not_mem_of_mem_splitOn (ha ▸ List.mem_append_left _ hin)
    rcases List.mem_cons.mp hin with rfl | hin
    · have hlast : sep ∉ last := not_mem_of_mem_splitOn (ha ▸ List.mem_append_right _ List.mem_cons_self)
      have hfirst : sep ∉ first := not_mem_of_mem_splitOn (hb ▸ List.mem_cons_self)
      simp [hlast, hmid, hfirst]
    · exact not_mem_of_mem_splitOn (hb ▸ List.mem_cons_of_mem _ hin)
  rw [← List.splitOn_intercalate sep hitems (by simp), ← hleft, ← hright, join_glue, join]

/-- An item without a byte of the middle is an item of one of the two texts. -/
theorem mem_splitOn_glue {a mid b item : List α} {c : α} (hmid : sep ∉ mid) (hc : c ∈ mid)
    (hitem : c ∉ item) :
    (item ∈ (a ++ mid ++ b).splitOn sep ↔
      item ∈ (a.splitOn sep).dropLast ∨ item ∈ (b.splitOn sep).tail) ∧
    (item ∈ ((a ++ mid ++ b).splitOn sep).tail ↔
      item ∈ (a.splitOn sep).dropLast.tail ∨ item ∈ (b.splitOn sep).tail) := by
  obtain ⟨first, after, hb⟩ := List.exists_cons_of_ne_nil (List.splitOn_ne_nil sep b)
  obtain ⟨before, last, ha⟩ : ∃ before last, a.splitOn sep = before ++ [last] :=
    ⟨_, _, (List.dropLast_append_getLast (List.splitOn_ne_nil sep a)).symm⟩
  have hne : item ≠ last ++ mid ++ first := by
    rintro rfl
    exact hitem (by simp [hc])
  rw [splitOn_glue hmid ha hb, ha, hb, List.dropLast_concat, List.tail_cons]
  generalize last ++ mid ++ first = merged at hne
  constructor
  · simp [hne]
  · cases before with
    | nil => simp
    | cons head before => simp [hne]

/-- A text is made of the lines that its items are. -/
theorem flatMap_splitOn (text : List α) :
    ((text.splitOn sep).flatMap fun item => item ++ [sep]) = text ++ [sep] := by
  induction text with
  | nil => simp
  | cons c rest ih =>
    rw [List.splitOn_cons_eq_if_modifyHead]
    by_cases hc : c = sep
    · rw [if_pos (by simp [hc]), List.flatMap_cons, ih]
      simp [hc]
    · obtain ⟨first, others, heq⟩ := List.exists_cons_of_ne_nil (List.splitOn_ne_nil sep rest)
      rw [heq] at ih
      rw [if_neg (by simp [hc]), heq, List.modifyHead_cons, List.flatMap_cons]
      rw [List.flatMap_cons] at ih
      rw [List.cons_append, List.cons_append, ih]
      rfl

omit [DecidableEq α] in
theorem join_concat {items : List (List α)} (h : items ≠ []) (item : List α) :
    join sep (items ++ [item]) = join sep items ++ sep :: item := by
  induction items with
  | nil => exact absurd rfl h
  | cons first rest ih =>
    cases rest with
    | nil => simp [join]
    | cons second rest =>
      rw [List.cons_append, List.cons_append, join_cons_cons, join_cons_cons, ← List.cons_append,
        ih (List.cons_ne_nil second rest), List.append_assoc]
      rfl

omit [DecidableEq α] in
/-- Each item takes its length and one, but there is no separator behind the last. -/
theorem length_join (sep : α) {items : List (List α)} (h : items ≠ []) :
    (join sep items).length + 1 = (items.map fun item => item.length + 1).sum := by
  induction items with
  | nil => exact absurd rfl h
  | cons first rest ih =>
    cases rest with
    | nil => simp [join]
    | cons second rest =>
      have hrest := ih (List.cons_ne_nil second rest)
      rw [join_cons_cons, List.map_cons, List.sum_cons, ← hrest]
      simp only [List.length_append, List.length_cons]
      omega

omit [DecidableEq α] in
theorem join_ne_nil {items : List (List α)} (h : items ≠ []) (hitems : ∀ item ∈ items, item ≠ []) :
    join sep items ≠ [] := by
  cases items with
  | nil => exact absurd rfl h
  | cons first rest =>
    have hfirst := hitems first (by simp)
    cases rest with
    | nil => simpa [join] using hfirst
    | cons second rest => simp [join_cons_cons]

end QStar.Lib.Separated
