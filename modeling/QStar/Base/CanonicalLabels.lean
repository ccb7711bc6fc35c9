import QStar.Base.Paths

/-!
# Canonical labels

The canonical form of a label as the code writes it into its buffers, and where that form is
its own canonical form again: a local label takes the fragment directory as it is, and the
directory is checked only when the result is read back as an absolute label.
-/
namespace QStar.Base

open QStar.Lib.CStrings

/-- `snprintf(dst, dstlen, …) < (int)dstlen` -/
def printInto (dstlen : Nat) (text : Bytes) : Option Bytes :=
  if text.length < dstlen then some text else none

/-- The check past the slashes, where the path is copied into `tmp`. -/
def validLabelRest (rest : Bytes) : Bool :=
  match splitLast 58 rest with
  | none => false
  | some (path, name) =>
    validSpan validNameChar name &&
      (path = [] || (decide (path.length < 4096) && validSpan validPathChar path))

/-- `qstar_label_canonicalize`, with its buffers. An alias that does not fit `tmp` is copied
past its end: such a label has no result here. -/
def canonicalizeInto (label fragmentDir : Bytes) (dstlen : Nat) : Option Bytes :=
  match label with
  | [] => none
  | 58 :: name =>
    if validSpan validNameChar name = false then none
    else if fragmentDir ≠ [] then
      printInto dstlen (ascii "//" ++ fragmentDir ++ ascii ":" ++ name)
    else printInto dstlen (ascii "//:" ++ name)
  | 64 :: external =>
    match splitSlashes external with
    | none => none
    | some (package, rest) =>
      if 4096 ≤ package.length ∨ validSpan validNameChar package = false then none
      else if validLabelRest rest then printInto dstlen label
      else none
  | 47 :: 47 :: rest => if validLabelRest rest then printInto dstlen label else none
  | _ => none

/-- `qstar_label_package_path` -/
def labelPackagePath (label : Bytes) (dstlen : Nat) : Option Bytes :=
  match label with
  | 47 :: 47 :: start =>
    if dstlen = 0 then none
    else
      match strrchr 58 start with
      | none => none
      | some n => if dstlen < n + 1 then none else some (start.take n)
  | _ => none

/-- What stands behind the last colon of a label. -/
def labelName (label : Bytes) : Option Bytes := (splitLast 58 label).map Prod.snd

theorem printInto_eq_some {dstlen : Nat} {text result : Bytes} :
    printInto dstlen text = some result ↔ text = result ∧ text.length < dstlen := by
  unfold printInto
  split
  · rename_i hroom
    simp [hroom]
  · rename_i hfull
    simp [hfull]

theorem no_colon_of_name {name : Bytes} (h : validSpan validNameChar name = true) : 58 ∉ name := by
  rw [validSpan, decide_eq_true_eq] at h
  intro hmem
  exact absurd (List.all_eq_true.mp h.2 58 hmem) (by decide)

theorem validLabelRest_iff {path name : Bytes} (hname : 58 ∉ name) :
    validLabelRest (path ++ 58 :: name) = true ↔ validSpan validNameChar name = true ∧
      (path = [] ∨ path.length < 4096 ∧ validSpan validPathChar path = true) := by
  rw [validLabelRest, splitLast_append path hname]
  simp

theorem exists_of_validLabelRest {rest : Bytes} (h : validLabelRest rest = true) :
    ∃ path name, rest = path ++ 58 :: name ∧ validSpan validNameChar name = true := by
  rw [validLabelRest] at h
  split at h
  · cases h
  · rename_i path name hsplit
    exact ⟨path, name, (splitLast_eq_some.mp hsplit).1, (Bool.and_eq_true_iff.mp h).1⟩

/-- A canonical label that is read back by itself, whatever the fragment. -/
def Stable (dstlen : Nat) (result : Bytes) : Prop :=
  ∀ fragmentDir, canonicalizeInto result fragmentDir dstlen = some result

/-- A local canonical label is its package path and its name. -/
def Recombines (dstlen : Nat) (result : Bytes) : Prop :=
  ∃ path name, labelPackagePath result dstlen = some path ∧ labelName result = some name ∧
    ascii "//" ++ path ++ ascii ":" ++ name = result

theorem canonicalizeInto_absolute (rest fragmentDir : Bytes) (dstlen : Nat) :
    canonicalizeInto (47 :: 47 :: rest) fragmentDir dstlen =
      if validLabelRest rest then printInto dstlen (47 :: 47 :: rest) else none := rfl

theorem stable_absolute {dstlen : Nat} {rest : Bytes} :
    Stable dstlen (47 :: 47 :: rest) ↔
      validLabelRest rest = true ∧ (47 :: 47 :: rest).length < dstlen := by
  simp only [Stable, canonicalizeInto_absolute]
  constructor
  · intro h
    have hone := h []
    split at hone
    · rename_i hvalid
      exact ⟨hvalid, (printInto_eq_some.mp hone).2⟩
    · cases hone
  · rintro ⟨hvalid, hlen⟩ _
    rw [if_pos hvalid]
    exact printInto_eq_some.mpr ⟨rfl, hlen⟩

theorem recombines_absolute {dstlen : Nat} {path name : Bytes} (hname : 58 ∉ name)
    (hlen : (ascii "//" ++ path ++ ascii ":" ++ name).length < dstlen) :
    Recombines dstlen (ascii "//" ++ path ++ ascii ":" ++ name) := by
  have htext : ascii "//" ++ path ++ ascii ":" ++ name = 47 :: 47 :: (path ++ 58 :: name) := by
    simp [ascii]
  have hcolon : strrchr 58 (path ++ 58 :: name) = some path.length := strrchr_append path hname
  refine ⟨path, name, ?_, ?_, rfl⟩
  · rw [htext] at hlen ⊢
    simp only [List.length_cons, List.length_append] at hlen
    simp only [labelPackagePath, hcolon]
    rw [if_neg (by omega), if_neg (by omega)]
    simp
  · rw [htext, labelName, ← List.cons_append, ← List.cons_append,
      splitLast_append (47 :: 47 :: path) hname]
    rfl

/-- What a canonical label was made of. -/
theorem canonicalizeInto_cases {label fragmentDir result : Bytes} {dstlen : Nat}
    (h : canonicalizeInto label fragmentDir dstlen = some result) :
    (∃ name, label = 58 :: name ∧ validSpan validNameChar name = true ∧
      result = ascii "//" ++ fragmentDir ++ ascii ":" ++ name ∧ result.length < dstlen) ∨
    (∃ external, label = 64 :: external ∧ result = label ∧ Stable dstlen result) ∨
    ∃ rest, label = 47 :: 47 :: rest ∧ result = label ∧ validLabelRest rest = true ∧
      result.length < dstlen := by
  have hwhole := h
  unfold canonicalizeInto at h
  split at h
  · cases h
  · rename_i name
    split at h
    · cases h
    rename_i hname
    refine .inl ⟨name, rfl, by simpa using hname, ?_⟩
    split at h
    · obtain ⟨rfl, hlen⟩ := printInto_eq_some.mp h
      exact ⟨rfl, hlen⟩
    · rename_i hdir
      obtain ⟨rfl, hlen⟩ := printInto_eq_some.mp h
      rw [not_not.mp hdir]
      exact ⟨rfl, hlen⟩
  · rename_i external
    have hresult : result = 64 :: external := by
      split at h
      · cases h
      split at h
      · cases h
      split at h
      · exact (printInto_eq_some.mp h).1.symm
      · cases h
    rw [hresult] at hwhole ⊢
    -- no branch of an external label looks at the fragment directory
    exact .inr (.inl ⟨external, rfl, rfl, fun _ => hwhole⟩)
  · rename_i rest
    split at h
    · rename_i hvalid
      obtain ⟨rfl, hlen⟩ := printInto_eq_some.mp h
      exact .inr (.inr ⟨rest, rfl, rfl, hvalid, hlen⟩)
    · cases h
  · cases h

/-! ## The bytes of a label -/

theorem splitSlashes_eq_some {s before after : Bytes} (h : splitSlashes s = some (before, after)) :
    s = before ++ 47 :: 47 :: after := by
  induction s generalizing before with
  | nil => cases h
  | cons c rest ih =>
    unfold splitSlashes at h
    split at h
    · rename_i rest' heq
      cases h
      exact heq
    · rename_i c' rest' _ heq
      cases heq
      obtain ⟨⟨before', after'⟩, hrest, hpair⟩ := Option.map_eq_some_iff.mp h
      cases hpair
      rw [ih hrest, List.cons_append]
    · cases h

theorem mem_validSpan {valid : UInt8 → Bool} {s : Bytes} (h : validSpan valid s = true) {c : UInt8}
    (hc : c ∈ s) : valid c = true := by
  rw [validSpan, decide_eq_true_eq] at h
  exact List.all_eq_true.mp h.2 c hc

theorem validPathChar_of_name {c : UInt8} (h : validNameChar c = true) : validPathChar c = true := by
  rw [validPathChar, h]
  rfl

theorem mem_validLabelRest {rest : Bytes} (h : validLabelRest rest = true) {c : UInt8} (hc : c ∈ rest) :
    c = 58 ∨ validPathChar c = true := by
  obtain ⟨path, name, rfl, hname⟩ := exists_of_validLabelRest h
  have hpath := ((validLabelRest_iff (no_colon_of_name hname)).mp h).2
  rcases List.mem_append.mp hc with hc | hc
  · rcases hpath with rfl | ⟨-, hpath⟩
    · cases hc
    · exact .inr (mem_validSpan hpath hc)
  · rcases List.mem_cons.mp hc with rfl | hc
    · exact .inl rfl
    · exact .inr (validPathChar_of_name (mem_validSpan hname hc))

/-- A canonical label has only the bytes of paths, colons and the mark of a package, unless it
is made of the fragment directory. -/
theorem canonicalizeInto_bytes {label fragmentDir result : Bytes} {dstlen : Nat}
    (h : canonicalizeInto label fragmentDir dstlen = some result) :
    (∀ c ∈ result, c = 58 ∨ c = 64 ∨ validPathChar c = true) ∨
      ∃ name, validSpan validNameChar name = true ∧
        result = ascii "//" ++ fragmentDir ++ ascii ":" ++ name := by
  have hslash : validPathChar 47 = true := by decide
  rcases canonicalizeInto_cases h with ⟨name, -, hname, hresult, -⟩ | ⟨external, rfl, rfl, -⟩ |
    ⟨rest, rfl, rfl, hvalid, -⟩
  · exact .inr ⟨name, hname, hresult⟩
  · refine .inl ?_
    simp only [canonicalizeInto] at h
    split at h
    · cases h
    rename_i package rest hslashes
    split at h
    · cases h
    rename_i hpackage
    split at h
    · rename_i hrest
      have hspan : validSpan validNameChar package = true := by
        simpa using (not_or.mp hpackage).2
      rw [splitSlashes_eq_some hslashes]
      intro c hc
      rcases List.mem_cons.mp hc with rfl | hc
      · exact .inr (.inl rfl)
      rcases List.mem_append.mp hc with hc | hc
      · exact .inr (.inr (validPathChar_of_name (mem_validSpan hspan hc)))
      rcases List.mem_cons.mp hc with rfl | hc
      · exact .inr (.inr hslash)
      rcases List.mem_cons.mp hc with rfl | hc
      · exact .inr (.inr hslash)
      · exact (mem_validLabelRest hrest hc).imp_right .inr
    · cases h
  · refine .inl ?_
    intro c hc
    rcases List.mem_cons.mp hc with rfl | hc
    · exact .inr (.inr hslash)
    rcases List.mem_cons.mp hc with rfl | hc
    · exact .inr (.inr hslash)
    · exact (mem_validLabelRest hvalid hc).imp_right .inr

/-- A fragment directory an absolute label could name. -/
def LabelPath (fragmentDir : Bytes) : Prop :=
  fragmentDir = [] ∨ fragmentDir.length < 4096 ∧ validSpan validPathChar fragmentDir = true

/-- A canonical label is its own canonical form just where it does not come from a local label
in a fragment directory that no absolute label could name; and the canonical form of a local
label always falls into its package path and its name. -/
theorem canonicalizeInto_stable_iff {label fragmentDir result : Bytes} {dstlen : Nat}
    (h : canonicalizeInto label fragmentDir dstlen = some result) :
    (Stable dstlen result ∧ (label.head? ≠ some 64 → Recombines dstlen result)) ↔
      (label.head? = some 58 → LabelPath fragmentDir) := by
  rcases canonicalizeInto_cases h with ⟨name, rfl, hname, rfl, hlen⟩ | ⟨external, rfl, rfl, hstable⟩ |
    ⟨rest, rfl, rfl, hvalid, hlen⟩
  · have hcolon := no_colon_of_name hname
    have htext : ascii "//" ++ fragmentDir ++ ascii ":" ++ name =
        47 :: 47 :: (fragmentDir ++ 58 :: name) := by simp [ascii]
    have hrecombines := recombines_absolute hcolon hlen
    rw [htext] at hlen hrecombines ⊢
    rw [stable_absolute, validLabelRest_iff hcolon]
    constructor
    · intro hboth _
      exact hboth.1.1.2
    · intro hpath
      exact ⟨⟨⟨hname, hpath rfl⟩, hlen⟩, fun _ => hrecombines⟩
  · refine iff_of_true ⟨hstable, ?_⟩ ?_
    · intro hhead
      exact absurd rfl hhead
    · intro hhead
      cases hhead
  · obtain ⟨path, name, rfl, hname⟩ := exists_of_validLabelRest hvalid
    have htext : ascii "//" ++ path ++ ascii ":" ++ name = 47 :: 47 :: (path ++ 58 :: name) := by
      simp [ascii]
    have hrecombines : Recombines dstlen (ascii "//" ++ path ++ ascii ":" ++ name) :=
      recombines_absolute (no_colon_of_name hname) (by rw [htext]; exact hlen)
    rw [htext] at hrecombines
    refine iff_of_true ⟨stable_absolute.mpr ⟨hvalid, hlen⟩, fun _ => hrecombines⟩ ?_
    intro hhead
    cases hhead

theorem canonicalizeInto_stable_src : Stable 4096 (ascii "//src/app:main") :=
  ((canonicalizeInto_stable_iff (show canonicalizeInto (ascii ":main") (ascii "src/app") 4096 =
    some (ascii "//src/app:main") by decide)).mpr fun _ => .inr (by decide)).1

/-- A fragment in `my dir` makes labels that are refused when they are read again. -/
theorem canonical_label_refused :
    ¬∀ label fragmentDir result dstlen,
      canonicalizeInto label fragmentDir dstlen = some result → Stable dstlen result := by
  intro h
  have hstable := h (ascii ":app") (ascii "my dir") (ascii "//my dir:app") 4096 (by decide)
  exact absurd (hstable []) (by decide)

end QStar.Base
