import QStar.Base.Files

/-!
# Paths and labels

Joining paths under the package root, and which paths count as package-relative.
A path names a file by its text: two spellings of one file are two paths here.
-/
namespace QStar.Base

open QStar.Lib.CStrings

/-- `qstar_path_join` -/
def pathJoin (a b : Bytes) : Bytes :=
  if a = [] ∨ a = ascii "." then b else a ++ ascii "/" ++ b

def isAlpha (c : UInt8) : Bool := (65 ≤ c && c ≤ 90) || (97 ≤ c && c ≤ 122)

def hasDrivePrefix : Bytes → Bool
  | c :: 58 :: _ => isAlpha c
  | _ => false

/-- `qstar_path_is_package_relative` -/
def isPackageRelative (path : Bytes) : Bool :=
  path ≠ [] && path.head? ≠ some 47 && !hasDrivePrefix path &&
  !(path.any fun c => c = 92 || c = 58) &&
  path ≠ ascii "." && path ≠ ascii ".." &&
  !(decide (ascii "../" <+: path)) && !strstr path (ascii "/../") &&
  !strstr path (ascii "/./") && !strstr path (ascii "//")

/-- `full_path_under_root` -/
def fullPathUnderRoot (root rel : Bytes) : Bytes := pathJoin root rel

/-- `cache_full_path`; the empty name has no path. -/
def cacheFullPath (root rel : Bytes) : Option Bytes :=
  if rel = [] then none
  else if rel.head? = some 47 then some rel
  else some (pathJoin root rel)

theorem cacheFullPath_isSome (root : Bytes) {rel : Bytes} (h : rel ≠ []) :
    ∃ path, cacheFullPath root rel = some path := by
  simp only [cacheFullPath, if_neg h]
  split
  · exact ⟨_, rfl⟩
  · exact ⟨_, rfl⟩

/-! ## Labels

How a label is checked and brought into its canonical form, relative to the directory of the
fragment that names it. -/

/-- `valid_name_char` -/
def validNameChar (c : UInt8) : Bool := isAlnum c || c = 95 || c = 45 || c = 46

/-- `valid_path_char` -/
def validPathChar (c : UInt8) : Bool := validNameChar c || c = 47

/-- `valid_span` -/
def validSpan (valid : UInt8 → Bool) (s : Bytes) : Bool := s ≠ [] ∧ s.all valid

/-- A text before and after its first two slashes in a row. -/
def splitSlashes : Bytes → Option (Bytes × Bytes)
  | 47 :: 47 :: rest => some ([], rest)
  | c :: rest => (splitSlashes rest).map fun (before, after) => (c :: before, after)
  | [] => none

/-- The check of a label past the slashes: a path, which may be empty, and a name. -/
def validPackageName (rest : Bytes) : Bool :=
  match splitLast 58 rest with
  | none => false
  | some (path, name) => validSpan validNameChar name && (path = [] || validSpan validPathChar path)

/-- `qstar_label_canonicalize` -/
def labelCanonicalize (label fragmentDir : Bytes) : Option Bytes :=
  match label with
  | [] => none
  | 58 :: name =>
    if validSpan validNameChar name then some (ascii "//" ++ fragmentDir ++ ascii ":" ++ name)
    else none
  | 64 :: external =>
    match splitSlashes external with
    | none => none
    | some (package, rest) =>
      if validSpan validNameChar package ∧ validPackageName rest = true then some label else none
  | 47 :: 47 :: rest => if validPackageName rest then some label else none
  | _ => none

end QStar.Base
