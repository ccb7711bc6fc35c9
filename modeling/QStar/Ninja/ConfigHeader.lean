import QStar.Lib.ShellScripts
import QStar.Ninja.Text

/-!
# Configuration headers

The executor writes the header of a `qstar.configure_file` itself; the Ninja
backend writes a script that has a here-document with the header. Both print the
same lines around the name of the include guard, which each of them makes from the
output in its own way, and the here-document ends at the first line that is its
delimiter.
-/
namespace QStar.Ninja.ConfigHeader

open QStar.Lib.CStrings
open QStar.Lib.Separated
open QStar.Lib.ShellScripts
open QStar.Base
open QStar.BuildGraph

/-- `QSTAR_PATH_MAX` -/
def pathMax : Nat := 4096

/-- `toupper` -/
def toUpper (c : UInt8) : UInt8 := if 97 ≤ c ∧ c ≤ 122 then c - 32 else c

/-- A guard name in a buffer of `QSTAR_PATH_MAX` bytes. -/
def guardName (letter : UInt8 → UInt8) (output : Bytes) : Bytes :=
  ascii "QSTAR_CONFIG_" ++
    (output.take (pathMax - 1 - 13)).map fun c => if isAlnum c then letter c else 95

/-- `config_guard_name` of the executor -/
def executorGuardName (output : Bytes) : Bytes := guardName toUpper output

/-- `config_guard_name` of the Ninja backend -/
def ninjaGuardName (output : Bytes) : Bytes := guardName id output

/-- The line of `write_config_define`, without its newline. -/
def configDefine (define : Bytes) : Bytes :=
  match define.dropWhile (· ≠ 61) with
  | [] => ascii "#define " ++ define ++ ascii " 1"
  | _ :: value => ascii "#define " ++ define.takeWhile (· ≠ 61) ++ ascii " " ++ value

/-- What is printed before each newline of a header. -/
def headerPieces (guard : Bytes) (r : Genrule) : List Bytes :=
  [ascii "/* generated by qstar.configure_file: " ++ r.label ++ ascii " */",
    ascii "#ifndef " ++ guard, ascii "#define " ++ guard] ++ r.args.map configDefine ++
    [ascii "#endif /* " ++ guard ++ ascii " */"]

/-- The header as both backends print it. -/
def headerText (guard : Bytes) (r : Genrule) : Bytes :=
  (headerPieces guard r).flatMap fun piece => piece ++ [10]

/-- `write_config_header`: the file and its text. -/
def writeConfigHeader (r : Genrule) : Option (Bytes × Bytes) :=
  match r.outputs with
  | [output] => some (output, headerText (executorGuardName output) r)
  | _ => none

def delimiter : Bytes := ascii "QSTAR_CONFIG_EOF"

/-- `write_config_script` -/
def writeConfigScript (r : Genrule) : Option Bytes :=
  match r.outputs with
  | [output] => some (ascii "set -eu\nmkdir -p " ++ shellArg (dirname output) ++ ascii "\ncat > " ++
      shellArg output ++ ascii " <<'QSTAR_CONFIG_EOF'\n" ++ headerText (ninjaGuardName output) r ++
      delimiter ++ [10])
  | _ => none

/-- Whatever files there are, the script leaves the header the executor writes. -/
def SameHeader (other : Bytes → ScriptFiles → ScriptFiles) (r : Genrule) : Prop :=
  ∀ files script output text, writeConfigScript r = some script →
    writeConfigHeader r = some (output, text) → run other script files output = some text

/-- The lines of a text but for the first and the last. -/
def innerLines (text : Bytes) : List Bytes := (text.splitOn 10).dropLast.tail

/-- The lines of a text but for the first. -/
def laterLines (text : Bytes) : List Bytes := (text.splitOn 10).tail

/-- No line of a define is the delimiter: of a name none between two newlines, of a value none
behind a newline. -/
def PlainDefine (define : Bytes) : Prop :=
  match define.dropWhile (· ≠ 61) with
  | [] => delimiter ∉ innerLines define
  | _ :: value => delimiter ∉ innerLines (define.takeWhile (· ≠ 61)) ∧ delimiter ∉ laterLines value

def isLower (c : UInt8) : Bool := 97 ≤ c && c ≤ 122

/-- No lower-case letter gets into the guard, the directory is none of the options of `mkdir`
and the delimiter is no line of the header. -/
def Plain (r : Genrule) : Prop :=
  ∀ output, r.outputs = [output] →
    (∀ c ∈ output.take (pathMax - 1 - 13), isLower c = false) ∧
      isOption (dirname output) = false ∧
      delimiter ∉ innerLines r.label ∧ ∀ define ∈ r.args, PlainDefine define

section Text

theorem guardName_noNewline (letter : UInt8 → UInt8) (hletter : ∀ c, isAlnum c = true → letter c ≠ 10)
    (output : Bytes) : 10 ∉ guardName letter output := by
  intro h
  rcases List.mem_append.mp h with h | h
  · exact absurd h (by decide)
  · obtain ⟨c, -, hc⟩ := List.mem_map.mp h
    split at hc
    · rename_i halnum
      exact hletter c halnum hc
    · cases hc

theorem id_ne_newline (c : UInt8) (h : isAlnum c = true) : id c ≠ 10 := by
  rintro rfl
  cases h

theorem toUpper_eq_self (c : UInt8) (h : isAlnum c = true) : toUpper c = c ↔ isLower c = false := by
  revert h
  exact forall_byte (P := fun c => isAlnum c = true → (toUpper c = c ↔ isLower c = false))
    (by decide +kernel) c

theorem isLower_alnum (c : UInt8) (h : isLower c = true) : isAlnum c = true := by
  revert h
  exact forall_byte (P := fun c => isLower c = true → isAlnum c = true) (by decide +kernel) c

/-- The guards agree when no letter of them was lower case. -/
theorem guardNames_eq_iff (output : Bytes) : ninjaGuardName output = executorGuardName output ↔
    ∀ c ∈ output.take (pathMax - 1 - 13), isLower c = false := by
  rw [ninjaGuardName, executorGuardName, guardName, guardName, List.append_cancel_left_eq,
    List.map_inj_left]
  apply forall₂_congr
  intro c _
  by_cases h : isAlnum c = true
  · rw [if_pos h, if_pos h, id, eq_comm, toUpper_eq_self c h]
  · have hlower : isLower c = false := by
      cases hc : isLower c with
      | false => rfl
      | true => exact absurd (isLower_alnum c hc) h
    rw [if_neg h, if_neg h]
    exact iff_of_true rfl hlower

theorem headerText_length (guard other : Bytes) (r : Genrule) (h : guard.length = other.length) :
    (headerText guard r).length = (headerText other r).length := by
  simp only [headerText, headerPieces, List.flatMap_append, List.flatMap_cons, List.flatMap_nil,
    List.length_append, h]

/-- Headers differ where their guards do. -/
theorem headerText_injective {guard other : Bytes} {r : Genrule} (hlen : guard.length = other.length)
    (h : headerText guard r = headerText other r) : guard = other := by
  simp only [headerText, headerPieces, List.flatMap_append, List.flatMap_cons, List.flatMap_nil,
    List.append_assoc, List.append_cancel_left_eq] at h
  exact (List.append_inj h hlen).1

/-- The lines of a header. -/
def headerLines (guard : Bytes) (r : Genrule) : List Bytes :=
  (headerPieces guard r).flatMap fun piece => piece.splitOn 10

theorem headerText_eq_lines (guard : Bytes) (r : Genrule) :
    headerText guard r = (headerLines guard r).flatMap fun line => line ++ [10] := by
  rw [headerText, headerLines, List.flatMap_assoc]
  congr 1
  funext piece
  exact (flatMap_splitOn piece).symm

theorem headerLines_noNewline {guard line : Bytes} {r : Genrule} (h : line ∈ headerLines guard r) :
    10 ∉ line := by
  obtain ⟨piece, -, hline⟩ := List.mem_flatMap.mp h
  exact not_mem_of_mem_splitOn hline

/-- Where a text stands between two others that the delimiter does not go with. -/
theorem delimiter_mem_glue {a mid b : Bytes} (hmid : 10 ∉ mid) (hblank : 32 ∈ mid) :
    (delimiter ∈ (a ++ mid ++ b).splitOn 10 ↔
      delimiter ∈ (a.splitOn 10).dropLast ∨ delimiter ∈ laterLines b) ∧
    (delimiter ∈ laterLines (a ++ mid ++ b) ↔ delimiter ∈ innerLines a ∨ delimiter ∈ laterLines b) :=
  mem_splitOn_glue hmid hblank (by decide)

theorem delimiter_mem_before {mid b : Bytes} (hmid : 10 ∉ mid) (hblank : 32 ∈ mid) :
    delimiter ∈ (mid ++ b).splitOn 10 ↔ delimiter ∈ laterLines b := by
  have h := (delimiter_mem_glue (a := []) (b := b) hmid hblank).1
  simpa using h

theorem delimiter_mem_after {a mid : Bytes} (hmid : 10 ∉ mid) (hblank : 32 ∈ mid) :
    delimiter ∈ laterLines (a ++ mid) ↔ delimiter ∈ innerLines a := by
  have h := (delimiter_mem_glue (a := a) (b := []) hmid hblank).2
  simpa [laterLines] using h

theorem configDefine_plain (define : Bytes) :
    delimiter ∉ (configDefine define).splitOn 10 ↔ PlainDefine define := by
  unfold configDefine PlainDefine
  split
  · rw [List.append_assoc, delimiter_mem_before (by decide) (by decide),
      delimiter_mem_after (by decide) (by decide)]
  · rw [List.append_assoc, List.append_assoc, delimiter_mem_before (by decide) (by decide),
      ← List.append_assoc, (delimiter_mem_glue (by decide) (by decide)).2, not_or]

/-- The delimiter is a line of the header when it is one of the label or of a define. -/
theorem delimiter_mem_headerLines {guard : Bytes} (hguard : 10 ∉ guard) (r : Genrule) :
    delimiter ∉ headerLines guard r ↔
      delimiter ∉ innerLines r.label ∧ ∀ define ∈ r.args, PlainDefine define := by
  have hblank : (32 : UInt8) ∉ delimiter := by decide
  have hplain : ∀ mid b : Bytes, 10 ∉ mid → 32 ∈ mid → 10 ∉ b → delimiter ∉ (mid ++ b).splitOn 10 := by
    intro mid b hmid hin hb
    rw [delimiter_mem_before hmid hin, laterLines, List.splitOn_eq_singleton hb]
    simp
  have hifndef := hplain (ascii "#ifndef ") guard (by decide) (by decide) hguard
  have hdefine := hplain (ascii "#define ") guard (by decide) (by decide) hguard
  have hendif : delimiter ∉ (ascii "#endif /* " ++ guard ++ ascii " */").splitOn 10 := by
    rw [List.append_assoc]
    refine hplain _ _ (by decide) (by decide) ?_
    intro hin
    rcases List.mem_append.mp hin with hin | hin
    · exact hguard hin
    · exact absurd hin (by decide)
  have hcomment : delimiter ∉ (ascii "/* generated by qstar.configure_file: " ++ r.label ++
      ascii " */").splitOn 10 ↔ delimiter ∉ innerLines r.label := by
    rw [List.append_assoc, delimiter_mem_before (by decide) (by decide),
      delimiter_mem_after (by decide) (by decide)]
  have hargs : (∀ define ∈ r.args, delimiter ∉ (configDefine define).splitOn 10) ↔
      ∀ define ∈ r.args, PlainDefine define :=
    forall₂_congr fun define _ => configDefine_plain define
  rw [← hcomment, ← hargs, headerLines, headerPieces]
  simp only [List.flatMap_append, List.flatMap_cons, List.flatMap_nil, List.append_nil,
    List.mem_append, hifndef, hdefine, hendif, or_false, not_or, List.flatMap_map, List.mem_flatMap,
    not_exists, not_and]

end Text

section Script

variable {other : Bytes → ScriptFiles → ScriptFiles} {files : ScriptFiles}

theorem readCommand_setOptions (rest : Bytes) : readCommand (.words .between) (ascii "set -eu\n" ++ rest) =
    some ([.word (ascii "set"), .word (ascii "-eu")], rest) := by
  have hrun : QStar.Lib.ShellWords.run .between (ascii "set -eu") = 
      some ([ascii "set"], .plain (ascii "-eu")) := rfl
  have htext : ascii "set -eu\n" ++ rest = ascii "set -eu" ++ 10 :: rest := rfl
  rw [htext, readCommand_append hrun, readCommand_newline rfl]
  rfl

theorem readCommand_makeDirectory (dir rest : Bytes) :
    readCommand (.words .between) (ascii "mkdir -p " ++ shellArg dir ++ ascii "\n" ++ rest) =
      some ([.word (ascii "mkdir"), .word (ascii "-p"), .word dir], rest) := by
  have hrun : QStar.Lib.ShellWords.run .between (ascii "mkdir -p ") =
      some ([ascii "mkdir", ascii "-p"], .between) := rfl
  have htext : ascii "\n" ++ rest = 10 :: rest := rfl
  rw [List.append_assoc, List.append_assoc, htext, readCommand_append hrun,
    readCommand_append (run_shellArg dir), readCommand_newline rfl]
  rfl

theorem readCommand_write (file rest : Bytes) :
    readCommand (.words .between) (ascii "cat > " ++ shellArg file ++
      ascii " <<'QSTAR_CONFIG_EOF'\n" ++ rest) =
      some ([.word (ascii "cat"), .great, .word file, .here, .word delimiter], rest) := by
  have hcat : QStar.Lib.ShellWords.run .between (ascii "cat ") = some ([ascii "cat"], .between) := rfl
  have hblank : QStar.Lib.ShellWords.run .between (ascii " ") = some ([], .between) := rfl
  have hfile : QStar.Lib.ShellWords.run .between (shellArg file ++ ascii " ") =
      some ([file], .between) := by
    rw [QStar.Lib.ShellWords.run_append, run_shellArg]
    rfl
  have hend : QStar.Lib.ShellWords.run (.single []) (ascii "QSTAR_CONFIG_EOF'") =
      some ([], .plain delimiter) := rfl
  have htext : ascii "cat > " ++ shellArg file ++ ascii " <<'QSTAR_CONFIG_EOF'\n" ++ rest =
      ascii "cat " ++ 62 :: (ascii " " ++ ((shellArg file ++ ascii " ") ++
        60 :: 60 :: 39 :: (ascii "QSTAR_CONFIG_EOF'" ++ 10 :: rest))) := by
    rw [show ascii "cat > " = ascii "cat " ++ 62 :: ascii " " from rfl,
      show ascii " <<'QSTAR_CONFIG_EOF'\n" =
        ascii " " ++ 60 :: 60 :: 39 :: (ascii "QSTAR_CONFIG_EOF'" ++ [10]) from rfl]
    simp
  rw [htext, readCommand_append hcat, readCommand_great, readCommand_append hblank,
    readCommand_append hfile, readCommand_here, readCommand_append hend, readCommand_newline rfl]
  rfl

/-- What the script does with the header behind its command. -/
theorem run_configScript {r : Genrule} {output script : Bytes} (houtput : r.outputs = [output])
    (h : writeConfigScript r = some script) : run other script files =
      if isOption (dirname output) then files
      else
        let body := hereDocument delimiter [] (headerText (ninjaGuardName output) r ++ delimiter ++ [10])
        run other body.2 (Function.update files output (some body.1)) := by
  rw [writeConfigScript, houtput] at h
  cases h
  have hscript : ascii "set -eu\nmkdir -p " ++ shellArg (dirname output) ++ ascii "\ncat > " ++
      shellArg output ++ ascii " <<'QSTAR_CONFIG_EOF'\n" ++ headerText (ninjaGuardName output) r ++
      delimiter ++ [10] =
      ascii "set -eu\n" ++ (ascii "mkdir -p " ++ shellArg (dirname output) ++ ascii "\n" ++
        (ascii "cat > " ++ shellArg output ++ ascii " <<'QSTAR_CONFIG_EOF'\n" ++
          (headerText (ninjaGuardName output) r ++ delimiter ++ [10]))) := by
    rw [show ascii "set -eu\nmkdir -p " = ascii "set -eu\n" ++ ascii "mkdir -p " from rfl,
      show ascii "\ncat > " = ascii "\n" ++ ascii "cat > " from rfl]
    simp only [List.append_assoc]
  rw [hscript]
  generalize headerText (ninjaGuardName output) r ++ delimiter ++ [10] = text
  have hmake := readCommand_makeDirectory (dirname output)
    (ascii "cat > " ++ shellArg output ++ ascii " <<'QSTAR_CONFIG_EOF'\n" ++ text)
  rw [run_command (by simp [ascii]) (readCommand_setOptions _)]
  dsimp only [command]
  rw [if_pos ⟨rfl, rfl⟩]
  dsimp only
  rw [run_command (by simp [ascii]) hmake]
  dsimp only [command]
  rw [if_pos ⟨rfl, rfl⟩]
  dsimp only
  rw [run_command (by simp [ascii]) (readCommand_write output text)]
  dsimp only [command]
  rw [if_pos rfl]

theorem writeConfigHeader_eq {r : Genrule} {output text : Bytes}
    (h : writeConfigHeader r = some (output, text)) :
    r.outputs = [output] ∧ headerText (executorGuardName output) r = text := by
  rw [writeConfigHeader] at h
  split at h
  · rename_i output' houtput
    cases h
    exact ⟨houtput, rfl⟩
  · cases h

/-- Without the delimiter among its lines the header is the body. -/
theorem body_of_plain {guard : Bytes} {r : Genrule} (h : delimiter ∉ headerLines guard r) :
    hereDocument delimiter [] (headerText guard r ++ delimiter ++ [10]) = (headerText guard r, []) := by
  have hlines : ∀ line ∈ headerLines guard r, 10 ∉ line ∧ line ≠ delimiter :=
    fun line hline => ⟨headerLines_noNewline hline, fun heq => h (heq ▸ hline)⟩
  rw [headerText_eq_lines, List.append_assoc, hereDocument_lines hlines,
    hereDocument_delimiter (by decide), List.append_nil]

/-- With the delimiter among its lines the body and what follows it are shorter than the header. -/
theorem body_of_delimiter {guard : Bytes} {r : Genrule} (hguard : delimiter ∈ headerLines guard r) :
    let body := hereDocument delimiter [] (headerText guard r ++ delimiter ++ [10])
    body.1.length < (headerText guard r).length ∧ body.2.length < (headerText guard r).length := by
  obtain ⟨before, after, hlines, hbefore⟩ := List.eq_append_cons_of_mem hguard
  have hbody : ∀ line ∈ before, 10 ∉ line ∧ line ≠ delimiter := by
    intro line hline
    refine ⟨headerLines_noNewline (hlines ▸ List.mem_append_left _ hline), ?_⟩
    rintro rfl
    exact hbefore hline
  have hfirst : before ≠ [] := by
    rintro rfl
    have htext := headerText_eq_lines guard r
    rw [hlines] at htext
    have hhead : (headerText guard r).head? = some 47 := rfl
    rw [htext] at hhead
    cases hhead
  rw [headerText_eq_lines, hlines, List.flatMap_append, List.flatMap_cons]
  simp only [List.append_assoc]
  rw [hereDocument_lines hbody]
  rw [show ∀ rest : Bytes, delimiter ++ ([10] ++ rest) = delimiter ++ 10 :: rest from fun _ => rfl,
    hereDocument_delimiter (by decide)]
  obtain ⟨line, before, rfl⟩ := List.exists_cons_of_ne_nil hfirst
  simp only [List.flatMap_cons, List.length_append, List.length_cons, List.length_nil]
  omega

end Script

/-- The Ninja script writes the header that the executor writes when no lower-case letter gets
into the guard, the directory is no option and no line of the header is the delimiter; and only
then, unless commands among the defines write the output. -/
theorem config_header_agrees_iff (other : Bytes → ScriptFiles → ScriptFiles) (r : Genrule) :
    (Plain r → SameHeader other r) ∧
      ((∀ output ∈ r.outputs, ∀ text files, other text files output = files output) →
        SameHeader other r → Plain r) := by
  have hguard : ∀ output, 10 ∉ ninjaGuardName output := guardName_noNewline id id_ne_newline
  have hlength : ∀ output, (ninjaGuardName output).length = (executorGuardName output).length := by
    intro output
    simp [ninjaGuardName, executorGuardName, guardName]
  constructor
  · intro hplain files script output text hscript hheader
    obtain ⟨houtput, rfl⟩ := writeConfigHeader_eq hheader
    obtain ⟨hletters, hdirectory, hlines⟩ := hplain output houtput
    have hbody := body_of_plain ((delimiter_mem_headerLines (hguard output) r).mpr hlines)
    rw [run_configScript houtput hscript, hdirectory, hbody, (guardNames_eq_iff output).mpr hletters]
    dsimp only
    rw [run]
    simp
  · intro hother hsame output houtput
    obtain ⟨script, hscript⟩ : ∃ script, writeConfigScript r = some script := by
      rw [writeConfigScript, houtput]
      exact ⟨_, rfl⟩
    have hheader : writeConfigHeader r = some (output, headerText (executorGuardName output) r) := by
      rw [writeConfigHeader, houtput]
    have hrun := hsame (fun _ => none) script output _ hscript hheader
    rw [run_configScript houtput hscript] at hrun
    split at hrun
    · cases hrun
    rename_i hdirectory
    by_cases hdelimiter : delimiter ∈ headerLines (ninjaGuardName output) r
    · obtain ⟨hbody, hafter⟩ := body_of_delimiter hdelimiter
      have hkeep : ∀ text files, other text files output = files output :=
        hother output (houtput ▸ List.mem_cons_self)
      have hshort := run_short hkeep _ _ hafter (by
        intro body heq
        rw [Function.update_self] at heq
        cases heq
        exact hbody) _ hrun
      rw [headerText_length _ _ r (hlength output)] at hshort
      exact absurd hshort (lt_irrefl _)
    · have hbody := body_of_plain hdelimiter
      rw [hbody] at hrun
      dsimp only at hrun
      rw [run, Function.update_self] at hrun
      have htext := headerText_injective (hlength output) (Option.some.inj hrun)
      exact ⟨(guardNames_eq_iff output).mp htext, by simpa using hdirectory,
        (delimiter_mem_headerLines (hguard output) r).mp hdelimiter⟩

/-- The header `config.h`, whose guards are `QSTAR_CONFIG_CONFIG_H` and `QSTAR_CONFIG_config_h`. -/
def lowerCaseHeader : Genrule where
  label := ascii "//:cfg"
  tool := ascii "<qstar-config-header>"
  toolset := []
  configHeader := true
  inputs := []
  outputs := [ascii "config.h"]
  outputGroups := []
  outputFormats := []
  args := [ascii "HAVE_CFG"]
  label_ne := by decide
  outputs_ne := by decide

theorem config_headers_differ : ¬∀ (other : Bytes → ScriptFiles → ScriptFiles) (r : Genrule),
    r.configHeader = true → (∀ output ∈ r.outputs, isPackageRelative output = true) →
      SameHeader other r := by
  intro h
  have hrun := h (fun _ files => files) lowerCaseHeader rfl (by decide) (fun _ => none) _ _ _ rfl rfl
  have hplain : delimiter ∉ headerLines (ninjaGuardName (ascii "config.h")) lowerCaseHeader :=
    (delimiter_mem_headerLines (guardName_noNewline id id_ne_newline _) _).mpr
      ⟨by decide, fun define hdefine => by
        obtain rfl : define = ascii "HAVE_CFG" := List.mem_singleton.mp hdefine
        show delimiter ∉ innerLines _
        decide⟩
  have hdirectory : isOption (dirname (ascii "config.h")) = false := by decide
  rw [@run_configScript _ _ lowerCaseHeader _ _ rfl rfl, hdirectory, body_of_plain hplain] at hrun
  dsimp only at hrun
  rw [run] at hrun
  have hlength : (ninjaGuardName (ascii "config.h")).length =
      (executorGuardName (ascii "config.h")).length := by decide
  have htext : headerText (ninjaGuardName (ascii "config.h")) lowerCaseHeader =
      headerText (executorGuardName (ascii "config.h")) lowerCaseHeader := by simpa using hrun
  exact absurd (headerText_injective hlength htext) (by decide)

end QStar.Ninja.ConfigHeader
