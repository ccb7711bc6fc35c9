import QStar.Lib.WindowsArguments

/-!
# The command line of a Windows process

`qstar_platform_windows_command_line_from_argv` writes an `argv` into a buffer as
one command line, and every character is checked against the room left. What it
writes is read back by the runtime of the child as the same `argv`.
-/
namespace QStar.Processes.WindowsCommandLine

open QStar.Lib.CStrings
open QStar.Lib.WindowsArguments

/-- What was written so far and the room left, its terminator included. -/
structure Cursor where
  written : Bytes
  remaining : Nat
  room : 0 < remaining

/-- `append_char` -/
def appendChar (cursor : Cursor) (c : UInt8) : Option Cursor :=
  if h : cursor.remaining ≤ 1 then none
  else some ⟨cursor.written ++ [c], cursor.remaining - 1, by omega⟩

/-- `append_repeated` -/
def appendRepeated (cursor : Cursor) (c : UInt8) : Nat → Option Cursor
  | 0 => some cursor
  | count + 1 => (appendChar cursor c).bind fun next => appendRepeated next c count

/-- `append_string` -/
def appendString (cursor : Cursor) : Bytes → Option Cursor
  | [] => some cursor
  | c :: s => (appendChar cursor c).bind fun next => appendString next s

/-- `windows_arg_needs_quotes` -/
def windowsArgNeedsQuotes (arg : Bytes) : Bool :=
  arg.isEmpty || arg.any fun c => c == 32 || c == 9 || c == 34

/-- The loop of `append_windows_quoted_arg` with the backslashes it holds back, and the
closing quote. -/
def appendQuoted (cursor : Cursor) (slashes : Nat) : Bytes → Option Cursor
  | [] => (appendRepeated cursor 92 (slashes * 2)).bind fun next => appendChar next 34
  | c :: arg =>
    if c = 92 then appendQuoted cursor (slashes + 1) arg
    else if c = 34 then
      (appendRepeated cursor 92 (slashes * 2 + 1)).bind fun next =>
        (appendChar next 34).bind fun next => appendQuoted next 0 arg
    else
      (appendRepeated cursor 92 slashes).bind fun next =>
        (appendChar next c).bind fun next => appendQuoted next 0 arg

/-- `append_windows_quoted_arg` -/
def appendWindowsQuotedArg (cursor : Cursor) (arg : Bytes) : Option Cursor :=
  if windowsArgNeedsQuotes arg then
    (appendChar cursor 34).bind fun next => appendQuoted next 0 arg
  else appendString cursor arg

/-- `windows_argv_needs_sh_adapter` -/
def windowsArgvNeedsShAdapter (onWindows : Bool) (argv : List Bytes) : Bool :=
  onWindows &&
    match argv with
    | [] => false
    | argv0 :: _ => decide (3 ≤ argv0.length) && argv0.drop (argv0.length - 3) == ascii ".sh"

/-- The vector that is written: `windows_effective_argv`, or `argv` where it gives none. -/
def windowsEffectiveArgv (onWindows : Bool) (argv : List Bytes) : List Bytes :=
  if windowsArgvNeedsShAdapter onWindows argv then ascii "sh" :: argv else argv

/-- The items behind the first one. -/
def appendItems (cursor : Cursor) : List Bytes → Option Cursor
  | [] => some cursor
  | item :: items =>
    (appendChar cursor 32).bind fun next =>
      (appendWindowsQuotedArg next item).bind fun next => appendItems next items

/-- `qstar_platform_windows_command_line_from_argv`: the text in `dst` with its terminator. -/
def windowsCommandLineFromArgv (onWindows : Bool) (argv : List Bytes) (dstlen : Nat) : Option Bytes :=
  match windowsEffectiveArgv onWindows argv with
  | [] => none
  | item :: items =>
    if h : dstlen = 0 then none
    else
      ((appendWindowsQuotedArg ⟨[], dstlen, Nat.pos_of_ne_zero h⟩ item).bind fun next =>
        appendItems next items).map fun cursor => cursor.written ++ [0]

/-! ## What is written -/

/-- The text goes behind what was written if it fits. -/
def Cursor.push (cursor : Cursor) (text : Bytes) : Option Cursor :=
  if h : text.length < cursor.remaining then
    some ⟨cursor.written ++ text, cursor.remaining - text.length, by omega⟩
  else none

theorem Cursor.push_nil (cursor : Cursor) : cursor.push [] = some cursor := by
  have hroom := cursor.room
  rw [Cursor.push, dif_pos (by simpa using hroom)]
  simp

/-- Two texts fit one after the other just when they fit together. -/
theorem Cursor.push_append (cursor : Cursor) (a b : Bytes) :
    ((cursor.push a).bind fun next => next.push b) = cursor.push (a ++ b) := by
  by_cases ha : a.length < cursor.remaining
  · by_cases hb : b.length < cursor.remaining - a.length
    · have hab : (a ++ b).length < cursor.remaining := by
        rw [List.length_append]
        omega
      simp only [Cursor.push, dif_pos ha, Option.bind_some, dif_pos hb, dif_pos hab]
      simp only [List.append_assoc, List.length_append, Nat.sub_sub]
    · have hab : ¬ (a ++ b).length < cursor.remaining := by
        rw [List.length_append]
        omega
      simp only [Cursor.push, dif_pos ha, Option.bind_some, dif_neg hb, dif_neg hab]
  · have hab : ¬ (a ++ b).length < cursor.remaining := by
      rw [List.length_append]
      omega
    simp only [Cursor.push, dif_neg ha, Option.bind_none, dif_neg hab]

theorem appendChar_eq (cursor : Cursor) (c : UInt8) : appendChar cursor c = cursor.push [c] := by
  by_cases h : cursor.remaining ≤ 1
  · rw [appendChar, dif_pos h, Cursor.push, dif_neg (by simpa using h)]
  · rw [appendChar, dif_neg h, Cursor.push, dif_pos (by simpa using h)]
    rfl

theorem appendRepeated_eq (cursor : Cursor) (c : UInt8) (count : Nat) :
    appendRepeated cursor c count = cursor.push (List.replicate count c) := by
  induction count generalizing cursor with
  | zero => exact cursor.push_nil.symm
  | succ count ih =>
    simp only [appendRepeated, appendChar_eq, ih]
    exact cursor.push_append [c] (List.replicate count c)

theorem appendString_eq (cursor : Cursor) (s : Bytes) : appendString cursor s = cursor.push s := by
  induction s generalizing cursor with
  | nil => exact cursor.push_nil.symm
  | cons c s ih =>
    simp only [appendString, appendChar_eq, ih]
    exact cursor.push_append [c] s

/-- The text of an argument behind its opening quote, with backslashes held back. -/
def quotedText (slashes : Nat) : Bytes → Bytes
  | [] => backslashes (slashes * 2) ++ [34]
  | c :: arg =>
    if c = 92 then quotedText (slashes + 1) arg
    else if c = 34 then backslashes (slashes * 2 + 1) ++ 34 :: quotedText 0 arg
    else backslashes slashes ++ c :: quotedText 0 arg

def quotedArg (arg : Bytes) : Bytes :=
  if windowsArgNeedsQuotes arg then 34 :: quotedText 0 arg else arg

/-- Every item behind a blank. -/
def spacedArgs (items : List Bytes) : Bytes := items.flatMap fun item => 32 :: quotedArg item

theorem appendQuoted_eq (cursor : Cursor) (slashes : Nat) (arg : Bytes) :
    appendQuoted cursor slashes arg = cursor.push (quotedText slashes arg) := by
  induction arg generalizing cursor slashes with
  | nil =>
    simp only [appendQuoted, appendRepeated_eq, appendChar_eq, Cursor.push_append]
    rfl
  | cons c arg ih =>
    rw [appendQuoted, quotedText]
    by_cases hslash : c = 92
    · rw [if_pos hslash, if_pos hslash, ih]
    by_cases hquote : c = 34
    · rw [if_neg hslash, if_neg hslash, if_pos hquote, if_pos hquote]
      simp only [appendRepeated_eq, appendChar_eq, ih, Cursor.push_append]
      rfl
    · rw [if_neg hslash, if_neg hslash, if_neg hquote, if_neg hquote]
      simp only [appendRepeated_eq, appendChar_eq, ih, Cursor.push_append]
      rfl

theorem appendWindowsQuotedArg_eq (cursor : Cursor) (arg : Bytes) :
    appendWindowsQuotedArg cursor arg = cursor.push (quotedArg arg) := by
  rw [appendWindowsQuotedArg, quotedArg]
  split
  · simp only [appendChar_eq, appendQuoted_eq, Cursor.push_append]
    rfl
  · exact appendString_eq cursor arg

theorem appendItems_eq (cursor : Cursor) (items : List Bytes) :
    appendItems cursor items = cursor.push (spacedArgs items) := by
  induction items generalizing cursor with
  | nil => exact cursor.push_nil.symm
  | cons item items ih =>
    simp only [appendItems, appendChar_eq, appendWindowsQuotedArg_eq, ih, Cursor.push_append]
    rfl

/-- The line is written when it fits with its terminator. -/
theorem windowsCommandLineFromArgv_eq {onWindows : Bool} {argv items : List Bytes} {item : Bytes}
    (h : windowsEffectiveArgv onWindows argv = item :: items) (dstlen : Nat) :
    windowsCommandLineFromArgv onWindows argv dstlen
      = if (quotedArg item ++ spacedArgs items).length + 1 ≤ dstlen then
          some (quotedArg item ++ spacedArgs items ++ [0])
        else none := by
  rw [windowsCommandLineFromArgv, h]
  dsimp only
  by_cases hzero : dstlen = 0
  · subst hzero
    rw [dif_pos rfl, if_neg (by omega)]
  · simp only [dif_neg hzero, appendWindowsQuotedArg_eq, appendItems_eq, Cursor.push_append]
    by_cases hfits : (quotedArg item ++ spacedArgs items).length < dstlen
    · rw [Cursor.push, dif_pos hfits, if_pos (Nat.succ_le_of_lt hfits), Option.map_some,
        List.nil_append]
    · have hlong : ¬ (quotedArg item ++ spacedArgs items).length + 1 ≤ dstlen := hfits
      rw [Cursor.push, dif_neg hfits, if_neg hlong, Option.map_none]

/-! ## What is read back -/

theorem windowsArgNeedsQuotes_eq_false {arg : Bytes} (h : windowsArgNeedsQuotes arg = false) :
    arg ≠ [] ∧ 34 ∉ arg ∧ ∀ c ∈ arg, isBlank c = false := by
  rw [windowsArgNeedsQuotes, Bool.or_eq_false_iff, List.isEmpty_eq_false_iff, List.any_eq_false] at h
  refine ⟨h.1, fun hmem => ?_, fun c hmem => ?_⟩
  · exact h.2 34 hmem rfl
  · have hc := h.2 c hmem
    simp only [Bool.or_eq_true, beq_iff_eq, not_or] at hc
    simp [isBlank, hc.1.1, hc.1.2]

/-- Inside quotes the text is read as the argument it was written for; the backslashes held
back stand before it. -/
theorem scanArgument_quotedText (slashes : Nat) (arg : Bytes) {rest : Bytes} (h : Ends rest) :
    scanArgument true 0 (quotedText slashes arg ++ rest) = (backslashes slashes ++ arg, rest) := by
  induction arg generalizing slashes with
  | nil =>
    rw [quotedText, List.append_assoc, scanArgument_backslashes, List.singleton_append,
      scanArgument_switch (by omega) (fun _ => h.head_ne), Bool.not_true, scanArgument_ends h, before]
    have hhalf : (0 + slashes * 2) / 2 = slashes := by omega
    rw [hhalf]
    rfl
  | cons c arg ih =>
    rw [quotedText]
    by_cases hslash : c = 92
    · subst hslash
      rw [if_pos rfl, ih, ← backslashes_add, List.append_assoc]
      rfl
    rw [if_neg hslash]
    by_cases hquote : c = 34
    · subst hquote
      rw [if_pos rfl, List.append_assoc, List.cons_append, scanArgument_backslashes,
        scanArgument_literal true (by omega), ih, before]
      have hhalf : (0 + (slashes * 2 + 1)) / 2 = slashes := by omega
      rw [hhalf]
      simp [backslashes]
    · rw [if_neg hquote, List.append_assoc, List.cons_append, scanArgument_backslashes,
        scanArgument_char _ hslash hquote (fun hq => absurd hq (by decide)), ih, before, Nat.zero_add]
      simp [backslashes]

theorem scanArgument_quotedArg (arg : Bytes) {rest : Bytes} (h : Ends rest) :
    scanArgument false 0 (quotedArg arg ++ rest) = (arg, rest) := by
  rw [quotedArg]
  cases hneeds : windowsArgNeedsQuotes arg with
  | true =>
    rw [if_pos rfl, List.cons_append, scanArgument_switch rfl (fun hq => absurd hq (by decide)),
      Bool.not_false, scanArgument_quotedText 0 arg h]
    rfl
  | false =>
    obtain ⟨-, hquote, hblank⟩ := windowsArgNeedsQuotes_eq_false hneeds
    rw [if_neg (by decide), scanArgument_plain hquote hblank h]
    rfl

theorem spacedArgs_ends (items : List Bytes) : Ends (spacedArgs items) := by
  cases items with
  | nil => exact Or.inl rfl
  | cons item items => exact Or.inr ⟨32, quotedArg item ++ spacedArgs items, rfl, rfl⟩

/-- No item begins with a blank. -/
theorem quotedArg_head (arg : Bytes) :
    ∃ c tail, isBlank c = false ∧ quotedArg arg = c :: tail := by
  rw [quotedArg]
  cases hneeds : windowsArgNeedsQuotes arg with
  | true => exact ⟨34, quotedText 0 arg, rfl, rfl⟩
  | false =>
    obtain ⟨hne, -, hblank⟩ := windowsArgNeedsQuotes_eq_false hneeds
    obtain ⟨c, tail, rfl⟩ := List.exists_cons_of_ne_nil hne
    exact ⟨c, tail, hblank c List.mem_cons_self, rfl⟩

/-- The items are read back one by one. -/
theorem arguments_spacedArgs (items : List Bytes) : arguments (spacedArgs items) = items := by
  induction items with
  | nil => exact arguments_nil
  | cons item items ih =>
    have hitem : spacedArgs (item :: items) = 32 :: (quotedArg item ++ spacedArgs items) := rfl
    obtain ⟨c, tail, hblank, hhead⟩ := quotedArg_head item
    have hscan := scanArgument_quotedArg item (spacedArgs_ends items)
    rw [hhead, List.cons_append] at hscan
    rw [hitem, arguments_blank rfl, hhead, List.cons_append, arguments_cons hblank, hscan, ih]

/-- Without quotes in it and backslashes at its end the quoted text is the argument itself. -/
theorem quotedText_plain {slashes : Nat} {arg : Bytes} (hquote : 34 ∉ arg)
    (hlast : (backslashes slashes ++ arg).getLast? ≠ some 92) :
    quotedText slashes arg = backslashes slashes ++ arg ++ [34] := by
  induction arg generalizing slashes with
  | nil =>
    cases slashes with
    | zero => rfl
    | succ n =>
      refine absurd ?_ hlast
      simp [backslashes, List.getLast?_replicate]
  | cons c arg ih =>
    have hrest : 34 ∉ arg := fun hmem => hquote (List.mem_cons_of_mem c hmem)
    have hc : c ≠ 34 := fun heq => hquote (heq ▸ List.mem_cons_self)
    rw [quotedText]
    by_cases hslash : c = 92
    · subst hslash
      have hmove : backslashes slashes ++ 92 :: arg = backslashes (slashes + 1) ++ arg := by
        rw [← backslashes_add, List.append_assoc]
        rfl
      rw [hmove] at hlast
      rw [if_pos rfl, ih hrest hlast, hmove]
    · have hnext : (backslashes 0 ++ arg).getLast? ≠ some 92 := by
        intro heq
        apply hlast
        have harg : arg.getLast? = some 92 := heq
        have hne : arg ≠ [] := by
          rintro rfl
          cases harg
        obtain ⟨d, tail, rfl⟩ := List.exists_cons_of_ne_nil hne
        rw [List.getLast?_append, List.getLast?_cons_cons, harg]
        rfl
      rw [if_neg hslash, if_neg hc, ih hrest hnext]
      simp [backslashes]

/-- The program's name is read back when it has no quote, and no backslash at its end where it
is quoted. -/
theorem programName_quotedArg {arg : Bytes} (hquote : 34 ∉ arg)
    (hlast : windowsArgNeedsQuotes arg = true → arg.getLast? ≠ some 92) {rest : Bytes}
    (h : Ends rest) : programName false (quotedArg arg ++ rest) = (arg, rest.tail) := by
  rw [quotedArg]
  cases hneeds : windowsArgNeedsQuotes arg with
  | true =>
    have htext : quotedText 0 arg = backslashes 0 ++ arg ++ [34] :=
      quotedText_plain hquote (by simpa [backslashes] using hlast hneeds)
    rw [if_pos rfl, htext, List.cons_append, programName, if_pos rfl, Bool.not_false, List.append_assoc, List.append_assoc, programName_append (by simp [backslashes])
        (fun hq => absurd hq (by decide)), programName_append hquote (fun hq => absurd hq (by decide)),
      List.singleton_append, programName, if_pos rfl, Bool.not_true, programName_ends h]
    simp [backslashes]
  | false =>
    obtain ⟨-, -, hblank⟩ := windowsArgNeedsQuotes_eq_false hneeds
    rw [if_neg (by decide), programName_append hquote (fun _ => hblank), programName_ends h]
    simp

theorem parseCommandLine_written {item : Bytes} (hquote : 34 ∉ item)
    (hlast : windowsArgNeedsQuotes item = true → item.getLast? ≠ some 92) (items : List Bytes) :
    parseCommandLine (quotedArg item ++ spacedArgs items) = item :: items := by
  rw [parseCommandLine, programName_quotedArg hquote hlast (spacedArgs_ends items)]
  dsimp only
  rw [arguments_tail (spacedArgs_ends items), arguments_spacedArgs]

theorem zero_notMem_quotedText (slashes : Nat) {arg : Bytes} (h : 0 ∉ arg) :
    0 ∉ quotedText slashes arg := by
  have hslashes : ∀ n, (0 : UInt8) ∉ backslashes n := by
    intro n hmem
    exact absurd (List.eq_of_mem_replicate hmem) (by decide)
  induction arg generalizing slashes with
  | nil => simp [quotedText, hslashes]
  | cons c arg ih =>
    rw [List.mem_cons, not_or] at h
    rw [quotedText]
    split
    · exact ih _ h.2
    split
    · simp [hslashes, ih 0 h.2]
    · simp [hslashes, ih 0 h.2, h.1]

theorem zero_notMem_quotedArg {arg : Bytes} (h : 0 ∉ arg) : 0 ∉ quotedArg arg := by
  rw [quotedArg]
  split
  · simp [zero_notMem_quotedText 0 h]
  · exact h

theorem zero_notMem_written {item : Bytes} {items : List Bytes} (h : ∀ a ∈ item :: items, 0 ∉ a) :
    0 ∉ quotedArg item ++ spacedArgs items := by
  rw [List.mem_append, not_or]
  refine ⟨zero_notMem_quotedArg (h item List.mem_cons_self), fun hmem => ?_⟩
  obtain ⟨a, ha, hin⟩ := List.mem_flatMap.mp hmem
  rcases List.mem_cons.mp hin with heq | hin
  · cases heq
  · exact zero_notMem_quotedArg (h a (List.mem_cons_of_mem item ha)) hin

/-- The vector that is written has a name the runtime reads back. -/
theorem windowsEffectiveArgv_cons (onWindows : Bool) {argv0 : Bytes} (args : List Bytes)
    (hnul : ∀ a ∈ argv0 :: args, 0 ∉ a) (hquote : 34 ∉ argv0)
    (hlast : windowsArgNeedsQuotes argv0 = true → argv0.getLast? ≠ some 92) :
    ∃ item items, windowsEffectiveArgv onWindows (argv0 :: args) = item :: items ∧
      (∀ a ∈ item :: items, 0 ∉ a) ∧ 34 ∉ item ∧
      (windowsArgNeedsQuotes item = true → item.getLast? ≠ some 92) := by
  rw [windowsEffectiveArgv]
  split
  · refine ⟨ascii "sh", argv0 :: args, rfl, ?_, by decide, by decide⟩
    intro a ha
    rcases List.mem_cons.mp ha with rfl | ha
    · decide
    · exact hnul a ha
  · exact ⟨argv0, args, rfl, hnul, hquote, hlast⟩

/-- There is one line for an `argv`. It is written just when it fits the buffer with its
terminator, and the runtime of the child reads the effective `argv` from it. -/
theorem windowsCommandLine_round_trip (onWindows : Bool) (argv0 : Bytes) (args : List Bytes)
    (hnul : ∀ a ∈ argv0 :: args, 0 ∉ a) (hquote : 34 ∉ argv0)
    (hlast : windowsArgNeedsQuotes argv0 = true → argv0.getLast? ≠ some 92) :
    ∃ line : Bytes,
      parseCommandLine (cString (line ++ [0])) = windowsEffectiveArgv onWindows (argv0 :: args) ∧
      ∀ dstlen, windowsCommandLineFromArgv onWindows (argv0 :: args) dstlen
        = if line.length + 1 ≤ dstlen then some (line ++ [0]) else none := by
  obtain ⟨item, items, hargv, hfree, hitem, hend⟩ :=
    windowsEffectiveArgv_cons onWindows args hnul hquote hlast
  refine ⟨quotedArg item ++ spacedArgs items, ?_, windowsCommandLineFromArgv_eq hargv⟩
  have htext : cString (quotedArg item ++ spacedArgs items ++ [0])
      = quotedArg item ++ spacedArgs items := by
    rw [cString, List.takeWhile_append_of_pos]
    · simp
    · intro c hc
      rw [decide_eq_true_eq]
      rintro rfl
      exact zero_notMem_written hfree hc
  rw [htext, parseCommandLine_written hitem hend, hargv]

theorem windowsCommandLine_round_trip_script :
    ∃ line : Bytes,
      parseCommandLine (cString (line ++ [0]))
        = windowsEffectiveArgv true [ascii "C:\\my tools\\run.sh", ascii "a\"b\\", []] ∧
      ∀ dstlen, windowsCommandLineFromArgv true [ascii "C:\\my tools\\run.sh", ascii "a\"b\\", []] dstlen
        = if line.length + 1 ≤ dstlen then some (line ++ [0]) else none :=
  windowsCommandLine_round_trip true _ _ (by decide) (by decide) (by decide)

end QStar.Processes.WindowsCommandLine
