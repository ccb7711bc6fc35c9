import QStar.Lib.WindowsArguments

/-!
# Arguments of a response file

The rules by which the Microsoft tools cut a response file into arguments. White
space outside quotes separates them, line breaks included. Of `2n` backslashes
before a quote `n` are left and the quote opens or closes quoting, of `2n + 1`
backslashes `n` are left and the quote is a character; other backslashes stand for
themselves.
-/
namespace QStar.Lib.ResponseArguments

open QStar.Lib.CStrings
open QStar.Lib.WindowsArguments (backslashes backslashes_add)

/-- `isspace` in the C locale. -/
def isSpace (c : UInt8) : Bool := c == 32 || (9 ≤ c && c ≤ 13)

/-- The arguments of what is left of a file, with the argument that was begun and the backslashes
read behind it. -/
def scan (word : Option Bytes) (quoted : Bool) (slashes : Nat) : Bytes → List Bytes
  | [] => (word.map fun text => text ++ backslashes slashes).toList
  | c :: rest =>
    if c = 92 then scan (some (word.getD [])) quoted (slashes + 1) rest
    else if c = 34 then
      if slashes % 2 = 1 then
        scan (some (word.getD [] ++ backslashes (slashes / 2) ++ [34])) quoted 0 rest
      else scan (some (word.getD [] ++ backslashes (slashes / 2))) (!quoted) 0 rest
    else if !quoted && isSpace c then
      (word.map fun text => text ++ backslashes slashes).toList ++ scan none false 0 rest
    else scan (some (word.getD [] ++ backslashes slashes ++ [c])) quoted 0 rest

/-- The arguments of a response file. -/
def arguments (text : Bytes) : List Bytes := scan none false 0 text

section Scan

variable (word : Option Bytes) (quoted : Bool) (slashes : Nat) (rest : Bytes)

theorem scan_slash : scan word quoted slashes (92 :: rest) =
    scan (some (word.getD [])) quoted (slashes + 1) rest := by
  rw [scan, if_pos rfl]

theorem scan_literal {slashes : Nat} (h : slashes % 2 = 1) : scan word quoted slashes (34 :: rest) =
    scan (some (word.getD [] ++ backslashes (slashes / 2) ++ [34])) quoted 0 rest := by
  rw [scan, if_neg (by decide), if_pos rfl, if_pos h]

theorem scan_switch {slashes : Nat} (h : slashes % 2 = 0) : scan word quoted slashes (34 :: rest) =
    scan (some (word.getD [] ++ backslashes (slashes / 2))) (!quoted) 0 rest := by
  rw [scan, if_neg (by decide), if_pos rfl, if_neg (by omega)]

theorem scan_space {c : UInt8} (h : isSpace c = true) : scan word false slashes (c :: rest) =
    (word.map fun text => text ++ backslashes slashes).toList ++ scan none false 0 rest := by
  have hslash : c ≠ 92 := by
    rintro rfl
    cases h
  have hquote : c ≠ 34 := by
    rintro rfl
    cases h
  rw [scan, if_neg hslash, if_neg hquote, if_pos (by rw [h]; rfl)]

variable {quoted} in
theorem scan_char {c : UInt8} (hslash : c ≠ 92) (hquote : c ≠ 34)
    (hspace : quoted = false → isSpace c = false) : scan word quoted slashes (c :: rest) =
      scan (some (word.getD [] ++ backslashes slashes ++ [c])) quoted 0 rest := by
  have hinside : ¬(!quoted && isSpace c) = true := by
    cases quoted with
    | true => simp
    | false => simp [hspace rfl]
  rw [scan, if_neg hslash, if_neg hquote, if_neg hinside]

/-- Backslashes are counted behind an argument that was begun. -/
theorem scan_backslashes (text : Bytes) (n : Nat) :
    scan (some text) quoted slashes (backslashes n ++ rest) = scan (some text) quoted (slashes + n) rest := by
  induction n generalizing slashes with
  | zero => rfl
  | succ n ih =>
    show scan (some text) quoted slashes (92 :: (backslashes n ++ rest)) = _
    rw [scan_slash, Option.getD_some, ih]
    congr 1
    omega

/-- A text without white space, quotes and backslashes is read as it stands. -/
theorem scan_plain {value : Bytes}
    (h : ∀ c ∈ value, isSpace c = false ∧ c ≠ 34 ∧ c ≠ 92) (text : Bytes) :
    scan (some text) false 0 (value ++ rest) = scan (some (text ++ value)) false 0 rest := by
  induction value generalizing text with
  | nil => rw [List.nil_append, List.append_nil]
  | cons c value ih =>
    obtain ⟨hspace, hquote, hslash⟩ := h c List.mem_cons_self
    rw [List.cons_append, scan_char _ _ _ hslash hquote (fun _ => hspace),
      ih fun d hd => h d (List.mem_cons_of_mem c hd)]
    simp [backslashes]

end Scan

/-- The first character of a text begins an argument. -/
theorem scan_none {c : UInt8} (h : isSpace c = false) (rest : Bytes) :
    scan none false 0 (c :: rest) = scan (some []) false 0 (c :: rest) := by
  by_cases hslash : c = 92
  · subst hslash
    rw [scan_slash, scan_slash]
    rfl
  by_cases hquote : c = 34
  · subst hquote
    rw [scan_switch _ _ _ rfl, scan_switch _ _ _ rfl]
    rfl
  · rw [scan_char _ _ _ hslash hquote (fun _ => h), scan_char _ _ _ hslash hquote (fun _ => h)]
    rfl

/-- A line ends its last argument. -/
theorem scan_newline (text rest : Bytes) :
    scan (some text) false 0 (10 :: rest) = text :: arguments rest := by
  rw [scan_space _ _ _ (by decide)]
  simp [backslashes, arguments]

end QStar.Lib.ResponseArguments
