import QStar.Lib.LineSearch
import QStar.RunTarget.Verdict

/-!
# Which expectations are found

The expected text of a run step is searched in each file with a buffer of 4096 bytes. It is
found where an occurrence of it lies in one buffer, with no NUL before it there: an occurrence
that goes on behind a newline, across the end of a piece of a long line, or behind a NUL of its
line is missed.
-/
namespace QStar.RunTarget.Verdict

open QStar.Lib.CStrings
open QStar.Lib.LineSearch
open QStar.Base
open QStar.RunTarget.Capture

/-- An occurrence of a text that `file_contains_text` sees. -/
def Found (content text : Bytes) : Prop :=
  ∃ before rest, content = before ++ text ++ rest ∧ Seen 4095 before text

section Search

variable {files : Files} {path content text : Bytes}

theorem linesContain_iff (htext : text ≠ []) (hzero : 0 ∉ text) :
    linesContain content text = true ↔ Found content text :=
  any_fgetsAll_iff (by decide) htext hzero (le_refl _)

theorem fileContainsText_iff (htext : text ≠ []) (hzero : 0 ∉ text) :
    fileContainsText files path text = true ↔ ∃ content, files path = some content ∧ Found content text := by
  rw [fileContainsText_eq htext]
  cases files path with
  | none =>
    refine iff_of_false nofun ?_
    rintro ⟨content, hfile, -⟩
    cases hfile
  | some content =>
    rw [Option.any_some, linesContain_iff htext hzero]
    constructor
    · intro hfound
      exact ⟨content, rfl, hfound⟩
    · rintro ⟨content', hfile, hfound⟩
      cases hfile
      exact hfound

/-- A text that occurs in a file is found just where it does not occur only behind a NUL of its
line, across the pieces of a long line, or with a newline inside of it. -/
theorem text_found_iff (hfile : files path = some content) (htext : text ≠ []) (hzero : 0 ∉ text) :
    (text <:+: content → fileContainsText files path text = true) ↔
      (text <:+: content → Found content text) := by
  have hsearch : fileContainsText files path text = true ↔ Found content text := by
    rw [fileContainsText_eq htext, hfile]
    exact linesContain_iff htext hzero
  rw [hsearch]

theorem ok_found :
    (ascii "ok" <:+: ascii "is ok\n" → fileContainsText (fun _ => some (ascii "is ok\n")) [] (ascii "ok") = true) ↔
      (ascii "ok" <:+: ascii "is ok\n" → Found (ascii "is ok\n") (ascii "ok")) :=
  @text_found_iff (fun _ => some (ascii "is ok\n")) [] (ascii "is ok\n") (ascii "ok") rfl (by decide) (by decide)

/-- Behind a NUL on its line a text is not found. -/
theorem text_behind_nul_missed :
    ascii "ok" <:+: 0 :: ascii "ok\n" ∧
      fileContainsText (fun _ => some (0 :: ascii "ok\n")) (ascii "out.txt") (ascii "ok") = false := by
  decide

end Search

/-- A run step meets its expectation just where one of the searched files shows it. -/
theorem runExpectContainsMatch_iff {buildDir : Bytes} {files : Files} {run : RunStep}
    (htext : run.expectContains ≠ []) (hzero : 0 ∉ run.expectContains) :
    (runExpectContainsMatch buildDir files run).isSome = true ↔
      ∃ path content, (path = stdoutLog buildDir run ∨ path = stderrLog buildDir run ∨
        (run.expectFile ≠ [] ∧ path = run.expectFile)) ∧
        files path = some content ∧ Found content run.expectContains := by
  have hsearch (path : Bytes) := @fileContainsText_iff files path run.expectContains htext hzero
  unfold runExpectContainsMatch
  rw [if_neg htext]
  split
  · rename_i hout
    obtain ⟨content, hfile, hfound⟩ := (hsearch _).mp hout
    exact iff_of_true rfl ⟨_, content, .inl rfl, hfile, hfound⟩
  rename_i hout
  split
  · rename_i herr
    obtain ⟨content, hfile, hfound⟩ := (hsearch _).mp herr
    exact iff_of_true rfl ⟨_, content, .inr (.inl rfl), hfile, hfound⟩
  rename_i herr
  split
  · rename_i hown
    obtain ⟨content, hfile, hfound⟩ := (hsearch _).mp hown.2
    exact iff_of_true rfl ⟨_, content, .inr (.inr ⟨hown.1, rfl⟩), hfile, hfound⟩
  · rename_i hown
    refine iff_of_false nofun ?_
    rintro ⟨path, content, hpath, hfile, hfound⟩
    have hcontains := (hsearch path).mpr ⟨content, hfile, hfound⟩
    rcases hpath with rfl | rfl | ⟨hne, rfl⟩
    · exact hout hcontains
    · exact herr hcontains
    · exact hown ⟨hne, hcontains⟩

end QStar.RunTarget.Verdict
