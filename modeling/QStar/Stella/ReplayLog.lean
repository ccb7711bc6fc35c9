import QStar.Lib.NinjaFiles
import QStar.Lib.ShellWords
import QStar.Stella.Logs

/-!
# Replaying a failed action

A failed execution writes a log with a field on each line, some of them quoted for a shell,
and a replay prints the rest of the first line that begins like the quoted arguments. A
newline within quotes is kept as it is, so it ends a line of the log.
-/
namespace QStar.Stella.ReplayLog

open QStar.Lib.CStrings
open QStar.Lib.Fnv
open QStar.Lib.Numerals
open QStar.Lib.ShellWords
open QStar.Lib.NinjaFiles
open QStar.Base
open QStar.Stella.Logs

def isSimpleArg (c : UInt8) : Bool := isAlnum c || decide (c ∈ ascii "_-./:=+,")

/-- `write_shell_arg` -/
def shellArg (s : Bytes) : Bytes := quoteWord isSimpleArg s

/-- Fields with an index. -/
def indexed (name : Bytes) (texts : List Bytes) : List Bytes :=
  texts.zipIdx.map fun t => name ++ (ascii "[" ++ (printUnsigned 10 t.2 ++ (ascii "]=" ++ t.1)))

/-- `write_log_description` -/
def descriptionField (description : Bytes) : Bytes :=
  ascii "description=" ++ shellArg (if description = [] then ascii "<none>" else description)

/-- `write_env_redacted` -/
def envFields (env : List Bytes) : List Bytes :=
  (ascii "envc=" ++ printUnsigned 10 env.length) ::
    indexed (ascii "env") (env.map fun item => item.takeWhile (· ≠ 61) ++ ascii "=<redacted>")

/-- `write_action_outputs` -/
def outputFields (outputs : List Bytes) : List Bytes :=
  (ascii "output_count=" ++ printUnsigned 10 outputs.length) ::
    indexed (ascii "output") (outputs.map shellArg)

/-- `qstar_argv_digest` -/
def argvDigest (argv : List Bytes) : Bytes := digest (argv.flatMap fun arg => arg ++ [255])

def argvFields (argv : List Bytes) : List Bytes :=
  [ascii "argc=" ++ printUnsigned 10 argv.length,
   ascii "logical_argc=" ++ printUnsigned 10 argv.length,
   ascii "logical_argv_digest=" ++ argvDigest argv,
   ascii "logical_bytes=" ++ printUnsigned 10 (argv.map fun arg => arg.length + 1).sum] ++
  indexed (ascii "argv") (argv.map shellArg) ++
  [ascii "argv=" ++ (ascii " ").intercalate argv,
   ascii "argv_shell=" ++ quoteWords isSimpleArg argv]

/-- `write_action_log_stream` of a failed execution, on a POSIX host -/
def actionLog (argv : List Bytes) (failure : Failure) (description : Bytes)
    (env outputs : List Bytes) : Bytes :=
  joinLines ([ascii "qstar-action-log v2", ascii "exit=" ++ failure.text, ascii "backend=stella",
    descriptionField description] ++ envFields env ++ outputFields outputs ++ argvFields argv)

/-- What the loop of a replay prints before the command, and the command. -/
structure Replay where
  echoed : Bytes
  command : Option Bytes

/-- The fields a replay repeats. -/
def echoedKeys : List Bytes :=
  [ascii "description=", ascii "envc=", ascii "env[", ascii "output_count=", ascii "output[",
   ascii "logical_argc=", ascii "logical_argv_digest=", ascii "logical_bytes=",
   ascii "response_file=", ascii "response_style=", ascii "response_digest=", ascii "exec_argc="]

def replayLines : List Bytes → Replay
  | [] => ⟨[], none⟩
  | line :: rest =>
    if echoedKeys.any (· <+: line) then
      ⟨line ++ 10 :: (replayLines rest).echoed, (replayLines rest).command⟩
    else if ascii "argv_shell=" <+: line then ⟨[], some (line.drop 11)⟩
    else replayLines rest

/-- `qstar_graph_replay_action` of an action that has a log -/
def replayAction (packageRoot actionId rel log : Bytes) : Except Bytes Bytes :=
  match (replayLines (splitLines log)).command with
  | none => .error (ascii "qstar: action log '" ++ rel ++ ascii "' has no replay argv")
  | some command =>
    .ok (joinLines [ascii "qstar replay v1", ascii "action " ++ actionId, ascii "log " ++ rel,
        ascii "cd " ++ packageRoot] ++
      (replayLines (splitLines log)).echoed ++ joinLines [command, ascii "status ok"])

/-- The line before the last one. -/
def commandLine (printed : Bytes) : Option Bytes := (splitLines printed).dropLast.getLast?

/-- The lines of a field behind the first, where it has newlines. -/
def laterLines (field : Bytes) : List Bytes := (splitLines (field ++ [10])).tail

/-- The lines before the arguments that begin like the quoted arguments. -/
def strayCommands (description : Bytes) (env outputs : List Bytes) : List Bytes :=
  ((descriptionField description :: (envFields env ++ outputFields outputs)).flatMap
    laterLines).filter fun line => ascii "argv_shell=" <+: line

/-! ## The line that is taken for the command -/

theorem command_eq (lines : List Bytes) : (replayLines lines).command =
    (lines.find? fun line => ascii "argv_shell=" <+: line).map (·.drop 11) := by
  induction lines with
  | nil => rfl
  | cons line rest ih =>
    rw [replayLines, List.find?_cons]
    by_cases hechoed : echoedKeys.any (· <+: line) = true
    · have hother : ¬ ascii "argv_shell=" <+: line := by
        intro hcommand
        obtain ⟨key, hkey, hprefix⟩ := List.any_eq_true.mp hechoed
        have hapart : ∀ key ∈ echoedKeys, ¬ key <+: ascii "argv_shell=" ∧
            ¬ ascii "argv_shell=" <+: key := by decide
        rcases List.prefix_or_prefix_of_prefix (of_decide_eq_true hprefix) hcommand with h | h
        · exact (hapart key hkey).1 h
        · exact (hapart key hkey).2 h
      simp [hechoed, hother, ih]
    · by_cases hcommand : ascii "argv_shell=" <+: line
      · simp [hechoed, hcommand]
      · simp [hechoed, hcommand, ih]

/-- What is printed before the command ends with a newline. -/
theorem echoed_eq (lines : List Bytes) : ∃ texts, (replayLines lines).echoed = joinLines texts := by
  induction lines with
  | nil => exact ⟨[], rfl⟩
  | cons line rest ih =>
    obtain ⟨texts, htexts⟩ := ih
    rw [replayLines]
    split_ifs
    · exact ⟨line :: texts, by simp [joinLines, htexts]⟩
    · exact ⟨[], rfl⟩
    · exact ⟨texts, htexts⟩

/-- A field whose first line is not taken for the command. -/
def Apart (field : Bytes) : Prop := ∃ key text, field = key ++ text ∧ 10 ∉ key ∧
  ¬ key <+: ascii "argv_shell=" ∧ ¬ ascii "argv_shell=" <+: key

theorem apart_append {key : Bytes} (h : 10 ∉ key ∧ ¬ key <+: ascii "argv_shell=" ∧
    ¬ ascii "argv_shell=" <+: key) (text : Bytes) : Apart (key ++ text) :=
  ⟨key, text, rfl, h⟩

theorem apart_indexed {name : Bytes} (h : 10 ∉ name ++ ascii "[" ∧
    ¬ name ++ ascii "[" <+: ascii "argv_shell=" ∧ ¬ ascii "argv_shell=" <+: name ++ ascii "[")
    {texts : List Bytes} {field : Bytes} (hfield : field ∈ indexed name texts) : Apart field := by
  obtain ⟨t, -, rfl⟩ := List.mem_map.mp hfield
  rw [← List.append_assoc]
  exact apart_append h _

theorem find_apart {field : Bytes} (h : Apart field) :
    (splitLines (field ++ [10])).find? (fun line => ascii "argv_shell=" <+: line) =
      (laterLines field).find? fun line => ascii "argv_shell=" <+: line := by
  obtain ⟨key, text, rfl, hbreak, hshort, hlong⟩ := h
  obtain ⟨first, later, hlines, hprefix⟩ := splitLines_head hbreak text
  have hfirst : ¬ ascii "argv_shell=" <+: first := by
    intro hcommand
    rcases List.prefix_or_prefix_of_prefix hprefix hcommand with h | h
    · exact hshort h
    · exact hlong h
  rw [laterLines, hlines, List.tail_cons, List.find?_cons_of_neg (by simpa using hfirst)]

theorem laterLines_of_line {field : Bytes} (h : 10 ∉ field) : laterLines field = [] := by
  rw [laterLines, splitLines_line h]
  rfl

theorem find_fields {fields : List Bytes} (h : ∀ field ∈ fields, Apart field) :
    (splitLines (joinLines fields)).find? (fun line => ascii "argv_shell=" <+: line) =
      (fields.flatMap laterLines).find? fun line => ascii "argv_shell=" <+: line := by
  rw [splitLines_joinLines, List.find?_flatMap, List.find?_flatMap]
  induction fields with
  | nil => rfl
  | cons field rest ih =>
    obtain ⟨hfield, hrest⟩ := List.forall_mem_cons.mp h
    rw [List.findSome?_cons, List.findSome?_cons, find_apart hfield, ih hrest]

section Log

variable {argv : List Bytes} {failure : Failure} {description : Bytes} {env outputs : List Bytes}

theorem apart_before {field : Bytes}
    (h : field ∈ descriptionField description :: (envFields env ++ outputFields outputs)) :
    Apart field := by
  rcases List.mem_cons.mp h with rfl | h
  · exact apart_append (by decide) _
  · rcases List.mem_append.mp h with h | h
    · rcases List.mem_cons.mp h with rfl | h
      · exact apart_append (by decide) _
      · exact apart_indexed (by decide) h
    · rcases List.mem_cons.mp h with rfl | h
      · exact apart_append (by decide) _
      · exact apart_indexed (by decide) h

theorem newline_notMem_printUnsigned (n : Nat) : 10 ∉ printUnsigned 10 n := by
  intro h
  exact absurd (printUnsigned_isDigit h) (by decide)

theorem newline_notMem_failure : 10 ∉ failure.text := by
  cases failure with
  | exit code _ => exact newline_notMem_printUnsigned code
  | expectMissing => decide

/-- The lines before those of the arguments. -/
theorem find_before : (splitLines (joinLines ([ascii "qstar-action-log v2",
    ascii "exit=" ++ failure.text, ascii "backend=stella", descriptionField description] ++
      envFields env ++ outputFields outputs))).find? (fun line => ascii "argv_shell=" <+: line) =
    (strayCommands description env outputs).head? := by
  have hexit : 10 ∉ ascii "exit=" ++ failure.text := by
    simp only [List.mem_append, newline_notMem_failure, or_false]
    decide
  have hhead : 10 ∉ ascii "qstar-action-log v2" ∧ 10 ∉ ascii "backend=stella" := by decide
  rw [find_fields, strayCommands, List.head?_filter]
  · simp only [List.cons_append, List.nil_append, List.flatMap_cons,
      laterLines_of_line hhead.1, laterLines_of_line hexit, laterLines_of_line hhead.2]
  · intro field hfield
    simp only [List.cons_append, List.nil_append, List.mem_cons] at hfield
    rcases hfield with rfl | rfl | rfl | hfield
    · exact ⟨_, [], (List.append_nil _).symm, by decide⟩
    · exact apart_append (by decide) _
    · exact ⟨_, [], (List.append_nil _).symm, by decide⟩
    · exact apart_before (List.mem_cons.mpr hfield)

theorem newline_notMem_indexed {name : Bytes} (hname : 10 ∉ name) {texts : List Bytes}
    (h : ∀ t ∈ texts, 10 ∉ t) : ∀ field ∈ indexed name texts, 10 ∉ field := by
  intro field hfield
  obtain ⟨t, ht, rfl⟩ := List.mem_map.mp hfield
  have htext := h t.1 (List.fst_mem_of_mem_zipIdx ht)
  have hbrackets : 10 ∉ ascii "[" ∧ 10 ∉ ascii "]=" := by decide
  simp [hname, htext, hbrackets.1, hbrackets.2, newline_notMem_printUnsigned]

/-- Where no argument has a newline, the arguments are one line. -/
theorem find_argv (hbreak : ∀ arg ∈ argv, 10 ∉ arg) :
    (splitLines (joinLines (argvFields argv))).find? (fun line => ascii "argv_shell=" <+: line) =
      some (ascii "argv_shell=" ++ quoteWords isSimpleArg argv) := by
  have hquoted : 10 ∉ quoteWords isSimpleArg argv :=
    notMem_quoteWords (by decide) (by decide) (by decide) isSimpleArg hbreak
  have hshell : ∀ t ∈ argv.map shellArg, 10 ∉ t := by
    intro t ht
    obtain ⟨arg, harg, rfl⟩ := List.mem_map.mp ht
    exact notMem_quoteWord (by decide) (by decide) isSimpleArg (hbreak arg harg)
  have hjoined : 10 ∉ (ascii " ").intercalate argv := notMem_intercalate (by decide) hbreak
  have hdigest : 10 ∉ argvDigest argv := notMem_digest (by decide) _
  let before : List Bytes := [ascii "argc=" ++ printUnsigned 10 argv.length,
    ascii "logical_argc=" ++ printUnsigned 10 argv.length,
    ascii "logical_argv_digest=" ++ argvDigest argv,
    ascii "logical_bytes=" ++ printUnsigned 10 (argv.map fun arg => arg.length + 1).sum] ++
    indexed (ascii "argv") (argv.map shellArg) ++ [ascii "argv=" ++ (ascii " ").intercalate argv]
  have hfields : argvFields argv =
      before ++ [ascii "argv_shell=" ++ quoteWords isSimpleArg argv] := by
    simp [argvFields, before]
  have hlines : ∀ field ∈ before, Apart field ∧ 10 ∉ field := by
    have hkeys : 10 ∉ ascii "argc=" ∧ 10 ∉ ascii "logical_argc=" ∧ 10 ∉ ascii "logical_argv_digest=" ∧
        10 ∉ ascii "logical_bytes=" ∧ 10 ∉ ascii "argv=" := by decide
    obtain ⟨h1, h2, h3, h4, h5⟩ := hkeys
    intro field hfield
    simp only [before, List.mem_append, List.mem_cons, List.not_mem_nil, or_false] at hfield
    rcases hfield with ((rfl | rfl | rfl | rfl) | hfield) | rfl
    · exact ⟨apart_append (by decide) _, by simp [h1, newline_notMem_printUnsigned]⟩
    · exact ⟨apart_append (by decide) _, by simp [h2, newline_notMem_printUnsigned]⟩
    · exact ⟨apart_append (by decide) _, by simp [h3, hdigest]⟩
    · exact ⟨apart_append (by decide) _, by simp [h4, newline_notMem_printUnsigned]⟩
    · exact ⟨apart_indexed (by decide) hfield,
        newline_notMem_indexed (by decide) hshell field hfield⟩
    · exact ⟨apart_append (by decide) _, by simp [h5, hjoined]⟩
  have hnone : (splitLines (joinLines before)).find? (fun line => ascii "argv_shell=" <+: line) =
      none := by
    have hempty : before.flatMap laterLines = [] :=
      List.flatMap_eq_nil_iff.mpr fun field hfield => laterLines_of_line (hlines field hfield).2
    rw [find_fields fun field hfield => (hlines field hfield).1, hempty]
    rfl
  have hlast : 10 ∉ ascii "argv_shell=" ++ quoteWords isSimpleArg argv := by
    simp only [List.mem_append, hquoted, or_false]
    decide
  have hline : splitLines (joinLines [ascii "argv_shell=" ++ quoteWords isSimpleArg argv]) =
      [ascii "argv_shell=" ++ quoteWords isSimpleArg argv] := by
    rw [splitLines_joinLines, List.flatMap_singleton,
      splitLines_line hlast]
    rfl
  rw [hfields, joinLines_append, splitLines_append_joinLines,
    List.find?_append, hnone, hline]
  simp

/-- The command that is found in a log. -/
theorem command_of_stray {line : Bytes}
    (h : (strayCommands description env outputs).head? = some line) :
    (replayLines (splitLines (actionLog argv failure description env outputs))).command =
      some (line.drop 11) := by
  rw [command_eq, actionLog, joinLines_append,
    splitLines_append_joinLines, List.find?_append, find_before, h]
  rfl

theorem command_of_argv (hbreak : ∀ arg ∈ argv, 10 ∉ arg)
    (h : (strayCommands description env outputs).head? = none) :
    (replayLines (splitLines (actionLog argv failure description env outputs))).command =
      some (quoteWords isSimpleArg argv) := by
  rw [command_eq, actionLog, joinLines_append,
    splitLines_append_joinLines, List.find?_append, find_before, h,
    find_argv hbreak]
  rfl

end Log

/-! ## The printed line -/

theorem isInert_of_isSimpleArg {c : UInt8} (h : isSimpleArg c = true) : isInert c = true := by
  have hall : ∀ n < 256, isSimpleArg (UInt8.ofNat n) = true → isInert (UInt8.ofNat n) = true := by
    decide +kernel
  have hbyte := hall c.toNat (UInt8.toNat_lt c)
  rw [UInt8.ofNat_toNat] at hbyte
  exact hbyte h

theorem newline_notMem_command {lines : List Bytes} (h : ∀ line ∈ lines, 10 ∉ line) {command : Bytes}
    (hcommand : (replayLines lines).command = some command) : 10 ∉ command := by
  rw [command_eq] at hcommand
  obtain ⟨line, hline, rfl⟩ := Option.map_eq_some_iff.mp hcommand
  exact fun hmem => h line (List.mem_of_find?_eq_some hline) (List.mem_of_mem_drop hmem)

/-- The line a replay prints before its last one is the command it found. -/
theorem commandLine_replayAction {packageRoot actionId rel log printed : Bytes}
    (h : replayAction packageRoot actionId rel log = .ok printed) :
    commandLine printed = (replayLines (splitLines log)).command := by
  unfold replayAction at h
  split at h
  · cases h
  · rename_i command hcommand
    cases h
    have hline : 10 ∉ command :=
      newline_notMem_command (fun _ => newline_notMem_splitLines) hcommand
    obtain ⟨texts, htexts⟩ := echoed_eq (splitLines log)
    have hend : splitLines (joinLines [command, ascii "status ok"]) = [command, ascii "status ok"] := by
      have hstatus : splitLines (ascii "status ok" ++ [10]) = [ascii "status ok"] := by decide
      rw [splitLines_joinLines]
      simp [hstatus, splitLines_line hline, splitLines]
    rw [commandLine, hcommand, htexts, ← joinLines_append,
      splitLines_append_joinLines, hend, List.dropLast_append_of_ne_nil (by simp)]
    simp

/-- A replay prints the arguments of a failed action just when none of them has a newline and no
line before them passes for the quoted arguments, or the first that does splits into them. -/
theorem replay_exact_iff (packageRoot actionId rel : Bytes) (argv : List Bytes) (failure : Failure)
    (description : Bytes) (env outputs : List Bytes) :
    (∃ printed, replayAction packageRoot actionId rel
        (actionLog argv failure description env outputs) = .ok printed ∧
      (commandLine printed).bind split = some argv) ↔
    (∀ arg ∈ argv, 10 ∉ arg) ∧
      ∀ line, (strayCommands description env outputs).head? = some line →
        split (line.drop 11) = some argv := by
  constructor
  · rintro ⟨printed, hprinted, hsplit⟩
    rw [commandLine_replayAction hprinted] at hsplit
    obtain ⟨command, hcommand, hsplit⟩ := Option.bind_eq_some_iff.mp hsplit
    have hline : 10 ∉ command :=
      newline_notMem_command (fun _ => newline_notMem_splitLines) hcommand
    refine ⟨notMem_of_split (by decide) hline hsplit, fun line hstray => ?_⟩
    rw [command_of_stray hstray] at hcommand
    exact Option.some.inj hcommand ▸ hsplit
  · rintro ⟨hbreak, hstray⟩
    have hfound : ∃ command, (replayLines (splitLines
        (actionLog argv failure description env outputs))).command = some command ∧
        split command = some argv := by
      cases hhead : (strayCommands description env outputs).head? with
      | none =>
        refine ⟨_, command_of_argv hbreak hhead, ?_⟩
        exact split_quoteWords (fun _ => isInert_of_isSimpleArg) argv
      | some line => exact ⟨_, command_of_stray hhead, hstray line hhead⟩
    obtain ⟨command, hcommand, hsplit⟩ := hfound
    have hprinted : ∃ printed, replayAction packageRoot actionId rel
        (actionLog argv failure description env outputs) = .ok printed := by
      simp [replayAction, hcommand]
    obtain ⟨printed, hprinted⟩ := hprinted
    refine ⟨printed, hprinted, ?_⟩
    rw [commandLine_replayAction hprinted, hcommand]
    exact hsplit

/-- An argument of two lines: what is printed ends within its quotes. -/
theorem replay_cuts_argument : ∃ printed,
    replayAction (ascii "/src/app") (ascii "//:gen:genrule") (ascii "build/qstar/logs/gen.log")
      (actionLog [ascii "sh", ascii "-c", ascii "echo a\necho b"] (.exit 1 (by decide))
        (ascii "Generate") [] [ascii "out.h"]) = .ok printed ∧
    commandLine printed = some (ascii "sh -c 'echo a") ∧ (commandLine printed).bind split = none := by
  refine ⟨_, rfl, ?_, ?_⟩
  · decide
  · decide

end QStar.Stella.ReplayLog
