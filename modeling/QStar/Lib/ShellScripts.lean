import QStar.Lib.ShellWords
import QStar.Lib.Separated

/-!
# Shell scripts that write a file

A script is read command by command: the words and redirections of a line, and
behind a line with a quoted here-document its body up to the delimiter. Setting
options, making a directory and `cat` into a file are run here. What the shell
does with anything else, and with all that follows it, is a parameter.
-/
namespace QStar.Lib.ShellScripts

open QStar.Lib.CStrings
open QStar.Lib.ShellWords

/-- The files of a run, by the names the script gives them. -/
abbrev ScriptFiles := Bytes → Option Bytes

inductive Token where
  | word (w : Bytes)
  /-- `>` -/
  | great
  /-- `<<` in front of a quote -/
  | here
  deriving DecidableEq

/-- Where the reader of a line stands: in its words, or at a here-document. -/
inductive Place where
  | words (s : State)
  | less
  | lessLess

/-- The word that ends where the reader is outside of quotes. -/
def Place.close : Place → Option (List Bytes)
  | .words s => s.close
  | _ => none

/-- A number in front of a redirection is no word. -/
def isNumber (w : Bytes) : Bool := w.all fun c => 48 ≤ c && c ≤ 57

/-- A redirection ends the words before it. -/
def redirect (ended : List Bytes) (more : List Token) (p : Place) : Option (List Token × Place) :=
  if ended.any isNumber then none else some (ended.map .word ++ more, p)

/-- One byte of a line. -/
def Place.next : Place → UInt8 → Option (List Token × Place)
  | .words s, c =>
    if s.close.isSome ∧ c = 62 then redirect (s.close.getD []) [.great] (.words .between)
    else if s.close.isSome ∧ c = 60 then redirect (s.close.getD []) [] .less
    else (s.next c).map fun r => (r.1.map .word, .words r.2)
  | .less, c => if c = 60 then some ([.here], .lessLess) else none
  | .lessLess, c => if c = 39 then some ([], .words (.single [])) else none

/-- The tokens up to the newline that ends the line, and what follows it. -/
def readCommand : Place → Bytes → Option (List Token × Bytes)
  | p, [] => p.close.map fun ended => (ended.map .word, [])
  | p, c :: rest =>
    if c = 10 ∧ p.close.isSome then some ((p.close.getD []).map .word, rest)
    else
      match p.next c with
      | none => none
      | some (ended, p) => (readCommand p rest).map fun r => (ended ++ r.1, r.2)

/-- The body of a here-document and what follows its delimiter, with the line read so far. -/
def hereDocument (delimiter : Bytes) : Bytes → Bytes → Bytes × Bytes
  | line, [] => (if line = delimiter then [] else line, [])
  | line, c :: rest =>
    if c = 10 then
      if line = delimiter then ([], rest)
      else
        let r := hereDocument delimiter [] rest
        (line ++ 10 :: r.1, r.2)
    else hereDocument delimiter (line ++ [c]) rest

inductive Command where
  | setOptions
  | makeDirectory (dir : Bytes)
  /-- `cat > file <<'delimiter'` -/
  | write (file delimiter : Bytes)
  | other
  deriving DecidableEq

def command : List Token → Command
  | [.word name, .word options] =>
    if name = ascii "set" ∧ options = ascii "-eu" then .setOptions else .other
  | [.word name, .word option, .word dir] =>
    if name = ascii "mkdir" ∧ option = ascii "-p" then .makeDirectory dir else .other
  | [.word name, .great, .word file, .here, .word delimiter] =>
    if name = ascii "cat" then .write file delimiter else .other
  | _ => .other

/-- An argument that a utility takes for options. -/
def isOption (w : Bytes) : Bool := w.head? = some 45 && w != [45]

theorem readCommand_length {p : Place} {text left : Bytes} {tokens : List Token}
    (h : readCommand p text = some (tokens, left)) : left.length ≤ text.length - 1 := by
  induction text generalizing p tokens with
  | nil =>
    obtain ⟨ended, -, heq⟩ := Option.map_eq_some_iff.mp h
    cases heq
    exact Nat.le_refl _
  | cons c rest ih =>
    rw [readCommand] at h
    split at h
    · cases h
      exact Nat.le_refl _
    · split at h
      · cases h
      · obtain ⟨⟨more, left'⟩, hrest, heq⟩ := Option.map_eq_some_iff.mp h
        cases heq
        have hlen := ih hrest
        rw [List.length_cons]
        omega

/-- A body and what follows it are no longer than the text they are read from. -/
theorem hereDocument_length (delimiter line text : Bytes) :
    (hereDocument delimiter line text).1.length ≤ line.length + text.length ∧
      (hereDocument delimiter line text).2.length ≤ text.length := by
  induction text generalizing line with
  | nil =>
    rw [hereDocument]
    constructor
    · dsimp only
      split
      · exact Nat.zero_le _
      · exact Nat.le_refl _
    · exact Nat.le_refl _
  | cons c rest ih =>
    rw [hereDocument]
    split
    · split
      · simp
      · obtain ⟨hbody, hafter⟩ := ih []
        simp only [List.length_append, List.length_cons, List.length_nil] at hbody ⊢
        omega
    · obtain ⟨hbody, hafter⟩ := ih (line ++ [c])
      simp only [List.length_append, List.length_cons, List.length_nil] at hbody ⊢
      omega

/-- A script that ends at its first failing command. -/
def run (other : Bytes → ScriptFiles → ScriptFiles) (text : Bytes) (files : ScriptFiles) : ScriptFiles :=
  match text with
  | [] => files
  | c :: rest =>
    match _h : readCommand (.words .between) (c :: rest) with
    | none => other (c :: rest) files
    | some (tokens, left) =>
      match command tokens with
      | .setOptions => run other left files
      | .makeDirectory dir => if isOption dir then files else run other left files
      | .write file delimiter =>
        run other (hereDocument delimiter [] left).2
          (Function.update files file (some (hereDocument delimiter [] left).1))
      | .other => other (c :: rest) files
  termination_by text.length
  decreasing_by
  · have hleft := readCommand_length _h
    simp only [List.length_cons] at hleft ⊢
    omega
  · have hleft := readCommand_length _h
    simp only [List.length_cons] at hleft ⊢
    omega
  · have hleft := readCommand_length _h
    have hafter := (hereDocument_length delimiter [] left).2
    simp only [List.length_cons] at hleft ⊢
    omega

/-! ## Lines -/

/-- Words without operators are read as words. -/
theorem readCommand_append {s t : State} {a : Bytes} {ended : List Bytes}
    (h : ShellWords.run s a = some (ended, t)) (b : Bytes) : readCommand (.words s) (a ++ b) =
      (readCommand (.words t) b).map fun r => (ended.map .word ++ r.1, r.2) := by
  induction a generalizing s ended with
  | nil =>
    cases h
    simp
  | cons c a ih =>
    simp only [ShellWords.run, Option.bind_eq_bind, Option.bind_eq_some_iff, Option.pure_def] at h
    obtain ⟨⟨first, u⟩, hnext, ⟨more, v⟩, hmore, heq⟩ := h
    cases heq
    have hplain : ¬(s.close.isSome = true ∧ (c = 10 ∨ c = 62 ∨ c = 60)) := by
      rintro ⟨hclose, hc⟩
      have hactive : isActive c = true := by
        rcases hc with rfl | rfl | rfl
        · decide
        · decide
        · decide
      rw [next_active hclose hactive] at hnext
      cases hnext
    have hplace : (Place.words s).next c = some (first.map .word, .words u) := by
      have hgreat : ¬(s.close.isSome = true ∧ c = 62) := fun hc => hplain ⟨hc.1, by simp [hc.2]⟩
      have hless : ¬(s.close.isSome = true ∧ c = 60) := fun hc => hplain ⟨hc.1, by simp [hc.2]⟩
      rw [Place.next, if_neg hgreat, if_neg hless, hnext]
      rfl
    have hnewline : ¬(c = 10 ∧ (Place.words s).close.isSome = true) :=
      fun hc => hplain ⟨hc.2, Or.inl hc.1⟩
    rw [List.cons_append, readCommand, if_neg hnewline, hplace]
    dsimp only
    rw [ih hmore, Option.map_map]
    congr 1
    funext r
    simp

/-- A newline ends a line of words. -/
theorem readCommand_newline {s : State} {ended : List Bytes} (h : s.close = some ended)
    (rest : Bytes) : readCommand (.words s) (10 :: rest) = some (ended.map .word, rest) := by
  have hclose : (Place.words s).close = some ended := h
  rw [readCommand, hclose, if_pos ⟨rfl, rfl⟩]
  rfl

/-- A redirection of the output. -/
theorem readCommand_great (rest : Bytes) : readCommand (.words .between) (62 :: rest) =
    (readCommand (.words .between) rest).map fun r => (.great :: r.1, r.2) := rfl

/-- A here-document with a quoted delimiter. -/
theorem readCommand_here (rest : Bytes) : readCommand (.words .between) (60 :: 60 :: 39 :: rest) =
    (readCommand (.words (.single [])) rest).map fun r => (.here :: r.1, r.2) := by
  have hless : readCommand (.words .between) (60 :: 60 :: 39 :: rest) =
      (readCommand .less (60 :: 39 :: rest)).map fun r => ([] ++ r.1, r.2) := rfl
  have hlessLess : readCommand .less (60 :: 39 :: rest) =
      (readCommand .lessLess (39 :: rest)).map fun r => ([.here] ++ r.1, r.2) := rfl
  have hquote : readCommand .lessLess (39 :: rest) =
      (readCommand (.words (.single [])) rest).map fun r => ([] ++ r.1, r.2) := rfl
  rw [hless, hlessLess, hquote, Option.map_map, Option.map_map]
  rfl

theorem hereDocument_line {delimiter text : Bytes} (line : Bytes) (htext : 10 ∉ text) (rest : Bytes) :
    hereDocument delimiter line (text ++ rest) = hereDocument delimiter (line ++ text) rest := by
  induction text generalizing line with
  | nil => rw [List.nil_append, List.append_nil]
  | cons c text ih =>
    obtain ⟨hc, htext⟩ := not_or.mp (mt List.mem_cons.mpr htext)
    rw [List.cons_append, hereDocument, if_neg (Ne.symm hc), ih (line ++ [c]) htext]
    simp

/-- The delimiter ends the body. -/
theorem hereDocument_delimiter {delimiter : Bytes} (h : 10 ∉ delimiter) (rest : Bytes) :
    hereDocument delimiter [] (delimiter ++ 10 :: rest) = ([], rest) := by
  rw [hereDocument_line [] h, List.nil_append, hereDocument, if_pos rfl, if_pos rfl]

/-- The lines before the delimiter are the body. -/
theorem hereDocument_lines {delimiter : Bytes} {lines : List Bytes}
    (h : ∀ line ∈ lines, 10 ∉ line ∧ line ≠ delimiter) (rest : Bytes) :
    hereDocument delimiter [] ((lines.flatMap fun line => line ++ [10]) ++ rest) =
      ((lines.flatMap fun line => line ++ [10]) ++ (hereDocument delimiter [] rest).1,
        (hereDocument delimiter [] rest).2) := by
  induction lines with
  | nil => rfl
  | cons line lines ih =>
    obtain ⟨hline, hne⟩ := h line List.mem_cons_self
    have hrest := ih fun l hl => h l (List.mem_cons_of_mem _ hl)
    rw [List.flatMap_cons, List.append_assoc, List.append_assoc, hereDocument_line [] hline,
      List.nil_append, List.singleton_append, hereDocument, if_pos rfl, if_neg hne, hrest]
    simp

/-- One command of a script. -/
theorem run_command {other : Bytes → ScriptFiles → ScriptFiles} {text left : Bytes} {files : ScriptFiles}
    {tokens : List Token} (hne : text ≠ [])
    (h : readCommand (.words .between) text = some (tokens, left)) : run other text files =
      match command tokens with
      | .setOptions => run other left files
      | .makeDirectory dir => if isOption dir then files else run other left files
      | .write file delimiter =>
        run other (hereDocument delimiter [] left).2
          (Function.update files file (some (hereDocument delimiter [] left).1))
      | .other => other text files := by
  obtain ⟨c, rest, rfl⟩ := List.exists_cons_of_ne_nil hne
  rw [run]
  split
  · rename_i hnone
    rw [hnone] at h
    cases h
  · rename_i hsome
    rw [hsome] at h
    cases h
    rfl

/-- A text that is no line of words. -/
theorem run_unread {other : Bytes → ScriptFiles → ScriptFiles} {text : Bytes} {files : ScriptFiles} (hne : text ≠ [])
    (h : readCommand (.words .between) text = none) : run other text files = other text files := by
  obtain ⟨c, rest, rfl⟩ := List.exists_cons_of_ne_nil hne
  rw [run]
  split
  · rfl
  · rename_i hsome
    rw [hsome] at h
    cases h

/-- What is left of a file is short when it was and the script is. -/
theorem run_short {other : Bytes → ScriptFiles → ScriptFiles} {file : Bytes}
    (hother : ∀ text files, other text files file = files file) {n : Nat} (text : Bytes) (files : ScriptFiles)
    (htext : text.length < n) (hfile : ∀ body, files file = some body → body.length < n) :
    ∀ body, run other text files file = some body → body.length < n := by
  induction hlen : text.length using Nat.strong_induction_on generalizing text files with
  | _ length ih =>
    by_cases hne : text = []
    · subst hne
      rw [run]
      exact hfile
    · have hkeep : ∀ body, other text files file = some body → body.length < n := by
        rw [hother]
        exact hfile
      have hpos := List.length_pos_iff.mpr hne
      cases hread : readCommand (.words .between) text with
      | none =>
        rw [run_unread hne hread]
        exact hkeep
      | some r =>
        obtain ⟨tokens, left⟩ := r
        have hleft := readCommand_length hread
        rw [run_command hne hread]
        cases command tokens with
        | setOptions => exact ih left.length (by omega) left files (by omega) hfile rfl
        | makeDirectory dir =>
          dsimp only
          split
          · exact hfile
          · exact ih left.length (by omega) left files (by omega) hfile rfl
        | write target delimiter =>
          obtain ⟨hbody, hafter⟩ := hereDocument_length delimiter [] left
          rw [List.length_nil, Nat.zero_add] at hbody
          refine ih _ (by omega) _ _ (by omega) ?_ rfl
          intro body
          by_cases htarget : file = target
          · rw [htarget, Function.update_self]
            intro heq
            cases heq
            omega
          · rw [Function.update_of_ne htarget]
            exact hfile body
        | other => exact hkeep

end QStar.Lib.ShellScripts
