import QStar.Base.Files
import QStar.Lib.Fnv
import QStar.Lib.ResponseArguments

/-!
# Response files

A command that is too long is given to its tool through a file of its arguments,
one on a line and quoted in the style of the tool. What the file says is also
folded into a digest, by functions of their own that quote the arguments again.
-/
namespace QStar.Actions

open QStar.Lib.CStrings
open QStar.Lib.Fnv (hashInit hashPrime hashBytes hashBytes_append)
open QStar.Lib.WindowsArguments (backslashes backslashes_add)
open QStar.Lib.ResponseArguments
open QStar.Base (buildPath mangleLabel)

/-- The characters that need no quotes from a shell. -/
def isSimple (c : UInt8) : Bool :=
  (48 ≤ c && c ≤ 57) || (65 ≤ c && c ≤ 90) || (97 ≤ c && c ≤ 122) || (ascii "_-./:=+,").contains c

/-- `simple` of a value. -/
def simple (value : Bytes) : Bool := !value.isEmpty && value.all isSimple

/-- `quote` of a value. -/
def needsQuote (value : Bytes) : Bool := value.isEmpty || value.any fun c => isSpace c || c == 34 || c == 92

/-! ## The digest -/

/-- `response_digest_char` -/
def responseDigestChar (hash : UInt64) (value : UInt8) : UInt64 := (hash ^^^ value.toUInt64) * hashPrime

/-- `response_digest_text` -/
def responseDigestText (hash : UInt64) : Bytes → UInt64
  | [] => hash
  | c :: value => responseDigestText (responseDigestChar hash c) value

/-- `while (backslashes > 0)` with a text for each of them. -/
def responseDigestRepeated (hash : UInt64) (text : Bytes) : Nat → UInt64
  | 0 => hash
  | n + 1 => responseDigestRepeated (responseDigestText hash text) text n

/-- The loop of `response_digest_shell_arg` inside its quotes. -/
def responseDigestShellQuoted (hash : UInt64) : Bytes → UInt64
  | [] => hash
  | c :: value =>
    if c = 39 then responseDigestShellQuoted (responseDigestText hash (ascii "'\\''")) value
    else responseDigestShellQuoted (responseDigestChar hash c) value

/-- `response_digest_shell_arg` -/
def responseDigestShellArg (hash : UInt64) (value : Bytes) : UInt64 :=
  if simple value then responseDigestText hash value
  else responseDigestChar (responseDigestShellQuoted (responseDigestChar hash 39) value) 39

/-- The loop of `response_digest_windows_arg` inside its quotes, with the backslashes it holds
back, and its last flush. -/
def responseDigestWindowsQuoted (hash : UInt64) (slashes : Nat) : Bytes → UInt64
  | [] => responseDigestRepeated hash (ascii "\\\\") slashes
  | c :: value =>
    if c = 92 then responseDigestWindowsQuoted hash (slashes + 1) value
    else if c = 34 then
      let hash := responseDigestRepeated hash (ascii "\\\\") slashes
      responseDigestWindowsQuoted (responseDigestText hash (ascii "\\\"")) 0 value
    else
      let hash := responseDigestRepeated hash (ascii "\\") slashes
      responseDigestWindowsQuoted (responseDigestChar hash c) 0 value

/-- `response_digest_windows_arg` -/
def responseDigestWindowsArg (hash : UInt64) (value : Bytes) : UInt64 :=
  if !needsQuote value then responseDigestText hash value
  else responseDigestChar (responseDigestWindowsQuoted (responseDigestChar hash 34) 0 value) 34

/-- The styles of the Microsoft tools. -/
def isWindowsStyle : Option Bytes → Bool
  | some style => style == ascii "windows" || style == ascii "msvc"
  | none => false

/-- The loop of `response_digest`. -/
def responseDigestItems (style : Option Bytes) (hash : UInt64) : List Bytes → UInt64
  | [] => hash
  | item :: items =>
    let hash := if isWindowsStyle style then responseDigestWindowsArg hash item
      else responseDigestShellArg hash item
    responseDigestItems style (responseDigestChar hash 10) items

/-- `response_digest` of a logical `argv`. -/
def responseDigest (logical : List Bytes) (style : Option Bytes) : UInt64 :=
  responseDigestItems style hashInit logical.tail

/-! ## The file -/

/-- `fputc` -/
def fputc (file : Bytes) (c : UInt8) : Bytes := file ++ [c]

/-- `fputs` -/
def fputs (file : Bytes) (text : Bytes) : Bytes := file ++ text

/-- `while (backslashes > 0)` with a text for each of them. -/
def fputsRepeated (file : Bytes) (text : Bytes) : Nat → Bytes
  | 0 => file
  | n + 1 => fputsRepeated (fputs file text) text n

/-- The loop of `write_shell_arg` inside its quotes. -/
def writeShellQuoted (file : Bytes) : Bytes → Bytes
  | [] => file
  | c :: value =>
    if c = 39 then writeShellQuoted (fputs file (ascii "'\\''")) value
    else writeShellQuoted (fputc file c) value

/-- `write_shell_arg` -/
def writeShellArg (file value : Bytes) : Bytes :=
  if simple value then fputs file value else fputc (writeShellQuoted (fputc file 39) value) 39

/-- The loop of `write_windows_arg` inside its quotes, with the backslashes it holds back, and its
last flush. -/
def writeWindowsQuoted (file : Bytes) (slashes : Nat) : Bytes → Bytes
  | [] => fputsRepeated file (ascii "\\\\") slashes
  | c :: value =>
    if c = 92 then writeWindowsQuoted file (slashes + 1) value
    else if c = 34 then
      let file := fputsRepeated file (ascii "\\\\") slashes
      writeWindowsQuoted (fputs file (ascii "\\\"")) 0 value
    else
      let file := fputsRepeated file (ascii "\\") slashes
      writeWindowsQuoted (fputc file c) 0 value

/-- `write_windows_arg` -/
def writeWindowsArg (file value : Bytes) : Bytes :=
  if !needsQuote value then fputs file value
  else fputc (writeWindowsQuoted (fputc file 34) 0 value) 34

/-- `write_response_arg` -/
def writeResponseArg (file value : Bytes) (style : Option Bytes) : Bytes :=
  if isWindowsStyle style then writeWindowsArg file value else writeShellArg file value

/-- The loop of `write_response_file`. -/
def writeResponseItems (style : Option Bytes) (file : Bytes) : List Bytes → Bytes
  | [] => file
  | item :: items => writeResponseItems style (fputc (writeResponseArg file item style) 10) items

/-- `write_response_file`: the bytes given to the stream of the file. -/
def writeResponseFile (logical : List Bytes) (style : Option Bytes) : Bytes :=
  writeResponseItems style [] logical.tail

/-! ## The command -/

/-- The bytes of an `argv`, a terminator for each item. -/
def argvBytes (argv : List Bytes) : Nat := (argv.map fun item => item.length + 1).sum

/-- `qstar_action_needs_response_file` -/
def needsResponseFile (logical : List Bytes) : Bool :=
  decide (512 ≤ argvBytes logical) || decide (48 < logical.length)

/-- What `struct qstar_materialized_command` says about a response file, and what the file holds. -/
structure ResponseFile where
  path : Bytes
  style : Bytes
  digest : Bytes
  text : Bytes

/-- `struct qstar_materialized_command` -/
structure MaterializedCommand where
  execArgv : List Bytes
  responseFile : Option ResponseFile

/-- `style` of a toolchain. -/
def responseStyle (style : Bytes) : Bytes := if style = [] then ascii "posix" else style

/-- `qstar_action_materialize` where the toolchain has response files or the command fits the host
without one; a logical `argv` has a program. -/
def materialize (buildDir actionId : Bytes) (responseFiles : Bool) (style : Bytes) (argv0 : Bytes)
    (args : List Bytes) : MaterializedCommand :=
  let logical := argv0 :: args
  if !needsResponseFile logical || !responseFiles then ⟨logical, none⟩
  else
    let path := buildPath buildDir (ascii "rsp/" ++ mangleLabel actionId ++ ascii ".rsp")
    let style := responseStyle style
    ⟨[argv0, ascii "@" ++ path],
      some {
        path := path
        style := style
        digest := QStar.Lib.Fnv.formatHash (responseDigest logical (some style))
        text := writeResponseFile logical (some style) }⟩

/-! ## The digest of the file

Each writer is followed by its digest: whatever the file held, the digest of its bytes goes over
to the digest of its bytes. -/

section Digest

variable (file : Bytes)

theorem responseDigestChar_fputc (c : UInt8) :
    responseDigestChar (hashBytes hashInit file) c = hashBytes hashInit (fputc file c) := by
  rw [fputc, hashBytes_append]
  rfl

theorem responseDigestText_eq (hash : UInt64) (text : Bytes) :
    responseDigestText hash text = hashBytes hash text := by
  induction text generalizing hash with
  | nil => rfl
  | cons c text ih => exact ih (responseDigestChar hash c)

theorem responseDigestText_fputs (text : Bytes) :
    responseDigestText (hashBytes hashInit file) text = hashBytes hashInit (fputs file text) := by
  rw [fputs, hashBytes_append, responseDigestText_eq]

theorem responseDigestRepeated_fputsRepeated (text : Bytes) (n : Nat) :
    responseDigestRepeated (hashBytes hashInit file) text n =
      hashBytes hashInit (fputsRepeated file text n) := by
  induction n generalizing file with
  | zero => rfl
  | succ n ih => rw [responseDigestRepeated, responseDigestText_fputs, ih, fputsRepeated]

theorem responseDigestShellQuoted_writeShellQuoted (value : Bytes) :
    responseDigestShellQuoted (hashBytes hashInit file) value =
      hashBytes hashInit (writeShellQuoted file value) := by
  induction value generalizing file with
  | nil => rfl
  | cons c value ih =>
    rw [responseDigestShellQuoted, writeShellQuoted]
    by_cases hquote : c = 39
    · rw [if_pos hquote, if_pos hquote, responseDigestText_fputs, ih]
    · rw [if_neg hquote, if_neg hquote, responseDigestChar_fputc, ih]

theorem responseDigestShellArg_writeShellArg (value : Bytes) :
    responseDigestShellArg (hashBytes hashInit file) value =
      hashBytes hashInit (writeShellArg file value) := by
  rw [responseDigestShellArg, writeShellArg]
  by_cases hsimple : simple value = true
  · rw [if_pos hsimple, if_pos hsimple, responseDigestText_fputs]
  · rw [if_neg hsimple, if_neg hsimple, responseDigestChar_fputc,
      responseDigestShellQuoted_writeShellQuoted, responseDigestChar_fputc]

theorem responseDigestWindowsQuoted_writeWindowsQuoted (slashes : Nat) (value : Bytes) :
    responseDigestWindowsQuoted (hashBytes hashInit file) slashes value =
      hashBytes hashInit (writeWindowsQuoted file slashes value) := by
  induction value generalizing file slashes with
  | nil => exact responseDigestRepeated_fputsRepeated file _ slashes
  | cons c value ih =>
    rw [responseDigestWindowsQuoted, writeWindowsQuoted]
    by_cases hslash : c = 92
    · rw [if_pos hslash, if_pos hslash, ih]
    by_cases hquote : c = 34
    · rw [if_neg hslash, if_pos hquote, if_neg hslash, if_pos hquote]
      dsimp only
      rw [responseDigestRepeated_fputsRepeated, responseDigestText_fputs, ih]
    · rw [if_neg hslash, if_neg hquote, if_neg hslash, if_neg hquote]
      dsimp only
      rw [responseDigestRepeated_fputsRepeated, responseDigestChar_fputc, ih]

theorem responseDigestWindowsArg_writeWindowsArg (value : Bytes) :
    responseDigestWindowsArg (hashBytes hashInit file) value =
      hashBytes hashInit (writeWindowsArg file value) := by
  rw [responseDigestWindowsArg, writeWindowsArg]
  by_cases hquote : (!needsQuote value) = true
  · rw [if_pos hquote, if_pos hquote, responseDigestText_fputs]
  · rw [if_neg hquote, if_neg hquote, responseDigestChar_fputc,
      responseDigestWindowsQuoted_writeWindowsQuoted, responseDigestChar_fputc]

theorem responseDigestItems_writeResponseItems (style : Option Bytes) (items : List Bytes) :
    responseDigestItems style (hashBytes hashInit file) items =
      hashBytes hashInit (writeResponseItems style file items) := by
  induction items generalizing file with
  | nil => rfl
  | cons item items ih =>
    rw [responseDigestItems, writeResponseItems, writeResponseArg]
    by_cases hstyle : isWindowsStyle style = true
    · rw [if_pos hstyle, if_pos hstyle, responseDigestWindowsArg_writeWindowsArg,
        responseDigestChar_fputc, ih]
    · rw [if_neg hstyle, if_neg hstyle, responseDigestShellArg_writeShellArg,
        responseDigestChar_fputc, ih]

end Digest

/-- The digest of a response file is the digest of its bytes. -/
theorem response_digest_of_file (logical : List Bytes) (style : Option Bytes) :
    responseDigest logical style = hashBytes hashInit (writeResponseFile logical style) :=
  responseDigestItems_writeResponseItems [] style logical.tail

/-! ## The arguments of the file -/

/-- What `write_windows_arg` writes between its quotes, with backslashes held back. -/
def windowsBody (slashes : Nat) : Bytes → Bytes
  | [] => backslashes (2 * slashes)
  | c :: value =>
    if c = 92 then windowsBody (slashes + 1) value
    else if c = 34 then backslashes (2 * slashes + 1) ++ 34 :: windowsBody 0 value
    else backslashes slashes ++ c :: windowsBody 0 value

theorem fputsRepeated_backslash (file : Bytes) (n : Nat) :
    fputsRepeated file (ascii "\\") n = file ++ backslashes n := by
  induction n generalizing file with
  | zero => rw [fputsRepeated, backslashes, List.replicate_zero, List.append_nil]
  | succ n ih =>
    rw [fputsRepeated, ih, fputs, List.append_assoc]
    rfl

theorem fputsRepeated_backslashes (file : Bytes) (n : Nat) :
    fputsRepeated file (ascii "\\\\") n = file ++ backslashes (2 * n) := by
  induction n generalizing file with
  | zero => rw [fputsRepeated, backslashes, Nat.mul_zero, List.replicate_zero, List.append_nil]
  | succ n ih =>
    have hpair : ascii "\\\\" = backslashes 2 := rfl
    rw [fputsRepeated, ih, fputs, List.append_assoc, hpair, backslashes_add, Nat.mul_add_one,
      Nat.add_comm 2]

theorem writeWindowsQuoted_eq (file : Bytes) (slashes : Nat) (value : Bytes) :
    writeWindowsQuoted file slashes value = file ++ windowsBody slashes value := by
  induction value generalizing file slashes with
  | nil => exact fputsRepeated_backslashes file slashes
  | cons c value ih =>
    rw [writeWindowsQuoted, windowsBody]
    by_cases hslash : c = 92
    · rw [if_pos hslash, if_pos hslash, ih]
    by_cases hquote : c = 34
    · rw [if_neg hslash, if_pos hquote, if_neg hslash, if_pos hquote]
      dsimp only
      rw [fputsRepeated_backslashes, ih, fputs, ← backslashes_add]
      simp [ascii, backslashes]
    · rw [if_neg hslash, if_neg hquote, if_neg hslash, if_neg hquote]
      dsimp only
      rw [fputsRepeated_backslash, ih, fputc]
      simp

/-- What was written between quotes is read back up to the closing quote. -/
theorem scan_windowsBody (text : Bytes) (slashes : Nat) (value rest : Bytes) :
    scan (some text) true 0 (windowsBody slashes value ++ 34 :: rest) =
      scan (some (text ++ backslashes slashes ++ value)) false 0 rest := by
  induction value generalizing text slashes with
  | nil =>
    rw [windowsBody, scan_backslashes, scan_switch _ _ _ (by omega), Option.getD_some,
      List.append_nil]
    congr 4
    omega
  | cons c value ih =>
    rw [windowsBody]
    by_cases hslash : c = 92
    · have hone : backslashes (slashes + 1) = backslashes slashes ++ [92] :=
        (backslashes_add slashes 1).symm
      rw [if_pos hslash, ih, hone, hslash]
      simp
    by_cases hquote : c = 34
    · have hhalf : (0 + (2 * slashes + 1)) / 2 = slashes := by omega
      rw [if_neg hslash, if_pos hquote, List.append_assoc, List.cons_append, scan_backslashes,
        scan_literal _ _ _ (by omega), ih, hhalf, hquote]
      simp [backslashes]
    · rw [if_neg hslash, if_neg hquote, List.append_assoc, List.cons_append, scan_backslashes,
        scan_char _ _ _ hslash hquote (fun hinside => absurd hinside (by decide)), ih]
      simp [backslashes]

theorem writeWindowsArg_eq (file value : Bytes) :
    writeWindowsArg file value = file ++ writeWindowsArg [] value := by
  rw [writeWindowsArg, writeWindowsArg]
  by_cases hquote : (!needsQuote value) = true
  · rw [if_pos hquote, if_pos hquote]
    rfl
  · rw [if_neg hquote, if_neg hquote, writeWindowsQuoted_eq, writeWindowsQuoted_eq]
    simp [fputc]

/-- An argument that needs no quotes has no character that is read otherwise. -/
theorem plain_of_not_needsQuote {value : Bytes} (h : needsQuote value = false) :
    value ≠ [] ∧ ∀ c ∈ value, isSpace c = false ∧ c ≠ 34 ∧ c ≠ 92 := by
  simp only [needsQuote, Bool.or_eq_false_iff, List.any_eq_false, List.isEmpty_eq_false_iff,
    Bool.not_eq_true, beq_eq_false_iff_ne] at h
  exact ⟨h.1, fun c hc => ⟨(h.2 c hc).1.1, (h.2 c hc).1.2, (h.2 c hc).2⟩⟩

/-- An argument on a line of its own is read back, and then the lines behind it. -/
theorem arguments_writeWindowsArg (value rest : Bytes) :
    arguments (writeWindowsArg [] value ++ 10 :: rest) = value :: arguments rest := by
  rw [arguments, writeWindowsArg]
  by_cases hquote : needsQuote value = true
  · rw [if_neg (by simp [hquote]), writeWindowsQuoted_eq]
    have htext : fputc (fputc [] 34 ++ windowsBody 0 value) 34 ++ 10 :: rest =
        34 :: (windowsBody 0 value ++ 34 :: 10 :: rest) := by simp [fputc]
    rw [htext, scan_switch _ _ _ rfl]
    show scan (some []) true 0 _ = _
    rw [scan_windowsBody, scan_newline]
    rfl
  · rw [Bool.not_eq_true] at hquote
    obtain ⟨hne, hplain⟩ := plain_of_not_needsQuote hquote
    rw [if_pos (by simp [hquote]), fputs, List.nil_append]
    cases value with
    | nil => exact absurd rfl hne
    | cons c value =>
      rw [List.cons_append, scan_none (hplain c List.mem_cons_self).1, ← List.cons_append,
        scan_plain _ hplain, scan_newline]
      rfl

theorem arguments_writeResponseItems {style : Option Bytes} (hstyle : isWindowsStyle style = true)
    (file : Bytes) (items : List Bytes) :
    ∃ text, writeResponseItems style file items = file ++ text ∧ arguments text = items := by
  induction items generalizing file with
  | nil => exact ⟨[], (List.append_nil file).symm, rfl⟩
  | cons item items ih =>
    obtain ⟨text, htext, hread⟩ := ih (fputc (writeResponseArg file item style) 10)
    refine ⟨writeWindowsArg [] item ++ 10 :: text, ?_, ?_⟩
    · rw [writeResponseItems, htext, writeResponseArg, if_pos hstyle, writeWindowsArg_eq file, fputc]
      simp
    · rw [arguments_writeWindowsArg, hread]

theorem arguments_writeResponseFile {style : Option Bytes} (hstyle : isWindowsStyle style = true)
    (logical : List Bytes) : arguments (writeResponseFile logical style) = logical.tail := by
  obtain ⟨text, htext, hread⟩ := arguments_writeResponseItems hstyle [] logical.tail
  rw [writeResponseFile, htext, List.nil_append, hread]

/-- An argument and a line break are read as the argument, and a file in the style of the Microsoft
tools is read as the arguments behind the program. -/
theorem windows_response_read (value : Bytes) (logical : List Bytes) :
    arguments (fputc (writeWindowsArg [] value) 10) = [value] ∧
      ∀ style, isWindowsStyle style = true → arguments (writeResponseFile logical style) = logical.tail := by
  refine ⟨arguments_writeWindowsArg value [], ?_⟩
  intro style hstyle
  exact arguments_writeResponseFile hstyle logical

theorem windows_response_read_msvc :
    arguments (writeResponseFile [ascii "link.exe", ascii "/OUT:my app.exe", ascii "a\\", []]
      (some (ascii "msvc"))) = [ascii "/OUT:my app.exe", ascii "a\\", []] :=
  (windows_response_read [] _).2 (some (ascii "msvc")) (by decide)

/-- A tool that reads the file a command names finds the arguments of the command, and the digest
kept for the command is the one of the file. -/
theorem materialize_read {buildDir actionId style argv0 : Bytes} {responseFiles : Bool}
    {args : List Bytes} {file : ResponseFile}
    (h : (materialize buildDir actionId responseFiles style argv0 args).responseFile = some file) :
    (materialize buildDir actionId responseFiles style argv0 args).execArgv =
        [argv0, ascii "@" ++ file.path] ∧
      file.digest = QStar.Lib.Fnv.digest file.text ∧
      (isWindowsStyle (some file.style) = true → arguments file.text = args) := by
  rw [materialize] at h ⊢
  dsimp only at h ⊢
  split at h
  · cases h
  · next hresponse =>
    rw [if_neg hresponse]
    cases h
    have hdigest := responseDigestItems_writeResponseItems [] (some (responseStyle style)) args
    refine ⟨rfl, congrArg QStar.Lib.Fnv.formatHash hdigest, ?_⟩
    intro hstyle
    exact arguments_writeResponseFile hstyle (argv0 :: args)

end QStar.Actions
