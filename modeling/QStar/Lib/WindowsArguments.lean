import QStar.Lib.CStrings

/-!
# Arguments of a Windows command line

The rules by which the Microsoft C runtime cuts a command line into arguments.
Arguments are separated by blanks outside quotes. Of backslashes before a quote
every pair is one backslash, and an odd one makes the quote a literal character;
other backslashes stand for themselves. Inside quotes two quotes in a row are a
literal one. The program's name is read first and by rules of its own: quotes
only switch quoting on and off, backslashes are ordinary.
-/
namespace QStar.Lib.WindowsArguments

open QStar.Lib.CStrings

/-- A space or a tab. -/
def isBlank (c : UInt8) : Bool := c == 32 || c == 9

def backslashes (n : Nat) : Bytes := List.replicate n 92

/-- The program's name and what follows the blank after it. -/
def programName (quoted : Bool) : Bytes → Bytes × Bytes
  | [] => ([], [])
  | c :: rest =>
    if c = 34 then programName (!quoted) rest
    else if !quoted && isBlank c then ([], rest)
    else (c :: (programName quoted rest).1, (programName quoted rest).2)

/-- What is read of an argument goes before its remaining part. -/
def before (text : Bytes) (scanned : Bytes × Bytes) : Bytes × Bytes := (text ++ scanned.1, scanned.2)

/-- The rest of an argument, with backslashes read before it, and what follows it. -/
def scanArgument (quoted : Bool) (slashes : Nat) : Bytes → Bytes × Bytes
  | [] => (backslashes slashes, [])
  | c :: rest =>
    if c = 92 then scanArgument quoted (slashes + 1) rest
    else if c = 34 then
      if slashes % 2 = 1 then before (backslashes (slashes / 2) ++ [34]) (scanArgument quoted 0 rest)
      else if quoted && rest.head? == some 34 then
        before (backslashes (slashes / 2) ++ [34]) (scanArgument quoted 0 rest.tail)
      else before (backslashes (slashes / 2)) (scanArgument (!quoted) 0 rest)
    else if !quoted && isBlank c then (backslashes slashes, c :: rest)
    else before (backslashes slashes ++ [c]) (scanArgument quoted 0 rest)
  termination_by line => line.length

@[simp] theorem before_snd (text : Bytes) (scanned : Bytes × Bytes) :
    (before text scanned).2 = scanned.2 := rfl

theorem before_nil (scanned : Bytes × Bytes) : before [] scanned = scanned := rfl

theorem scanArgument_nil (quoted : Bool) (slashes : Nat) :
    scanArgument quoted slashes [] = (backslashes slashes, []) := by rw [scanArgument]

theorem scanArgument_slash (quoted : Bool) (slashes : Nat) (rest : Bytes) :
    scanArgument quoted slashes (92 :: rest) = scanArgument quoted (slashes + 1) rest := by
  rw [scanArgument, if_pos rfl]

/-- An odd backslash before it makes the quote literal. -/
theorem scanArgument_literal (quoted : Bool) {slashes : Nat} (h : slashes % 2 = 1) (rest : Bytes) :
    scanArgument quoted slashes (34 :: rest)
      = before (backslashes (slashes / 2) ++ [34]) (scanArgument quoted 0 rest) := by
  rw [scanArgument, if_neg (by decide), if_pos rfl, if_pos h]

theorem scanArgument_double {slashes : Nat} (h : slashes % 2 = 0) (rest : Bytes) :
    scanArgument true slashes (34 :: 34 :: rest)
      = before (backslashes (slashes / 2) ++ [34]) (scanArgument true 0 rest) := by
  rw [scanArgument, if_neg (by decide), if_pos rfl, if_neg (by omega), if_pos (by rfl), List.tail_cons]

/-- A quote opens or closes quoting. -/
theorem scanArgument_switch {quoted : Bool} {slashes : Nat} (h : slashes % 2 = 0) {rest : Bytes}
    (hnext : quoted = true → rest.head? ≠ some 34) :
    scanArgument quoted slashes (34 :: rest)
      = before (backslashes (slashes / 2)) (scanArgument (!quoted) 0 rest) := by
  have hsingle : ¬ (quoted && rest.head? == some 34) = true := by
    rw [Bool.and_eq_true, beq_iff_eq]
    exact fun hboth => hnext hboth.1 hboth.2
  rw [scanArgument, if_neg (by decide), if_pos rfl, if_neg (by omega), if_neg hsingle]

/-- A blank outside quotes ends the argument. -/
theorem scanArgument_blank (slashes : Nat) {c : UInt8} (h : isBlank c = true) (rest : Bytes) :
    scanArgument false slashes (c :: rest) = (backslashes slashes, c :: rest) := by
  have hslash : c ≠ 92 := by
    rintro rfl
    cases h
  have hquote : c ≠ 34 := by
    rintro rfl
    cases h
  rw [scanArgument, if_neg hslash, if_neg hquote, if_pos (by rw [h]; rfl)]

theorem scanArgument_char {quoted : Bool} (slashes : Nat) {c : UInt8} (hslash : c ≠ 92)
    (hquote : c ≠ 34) (hblank : quoted = false → isBlank c = false) (rest : Bytes) :
    scanArgument quoted slashes (c :: rest)
      = before (backslashes slashes ++ [c]) (scanArgument quoted 0 rest) := by
  have hinside : ¬ (!quoted && isBlank c) = true := by
    cases quoted with
    | true => simp
    | false => simp [hblank rfl]
  rw [scanArgument, if_neg hslash, if_neg hquote, if_neg hinside]

/-- What follows an argument is a part of what was there. -/
theorem scanArgument_length (quoted : Bool) (slashes : Nat) (line : Bytes) :
    (scanArgument quoted slashes line).2.length ≤ line.length := by
  induction quoted, slashes, line using scanArgument.induct with
  | case1 quoted slashes => rw [scanArgument_nil]
  | case2 quoted slashes rest ih =>
    rw [scanArgument_slash, List.length_cons]
    omega
  | case3 quoted slashes rest hodd _ ih =>
    rw [scanArgument_literal quoted hodd, before_snd, List.length_cons]
    omega
  | case4 quoted slashes rest hodd hdouble _ ih =>
    obtain ⟨rfl, hnext⟩ : quoted = true ∧ rest.head? = some 34 := by simpa using hdouble
    obtain ⟨tail, rfl⟩ : ∃ tail, rest = 34 :: tail := List.head?_eq_some_iff.mp hnext
    rw [scanArgument_double (by omega), before_snd]
    simp only [List.tail_cons] at ih
    simp only [List.length_cons]
    omega
  | case5 quoted slashes rest hodd hsingle _ ih =>
    have hnext : quoted = true → rest.head? ≠ some 34 := by
      rintro rfl hnext
      rw [hnext] at hsingle
      exact hsingle rfl
    rw [scanArgument_switch (by omega) hnext, before_snd, List.length_cons]
    omega
  | case6 quoted slashes c rest hslash hquote hblank =>
    rw [Bool.and_eq_true, Bool.not_eq_true'] at hblank
    obtain ⟨rfl, hblank⟩ := hblank
    rw [scanArgument_blank slashes hblank]
  | case7 quoted slashes c rest hslash hquote hblank ih =>
    have hinside : quoted = false → isBlank c = false := by
      rintro rfl
      simpa using hblank
    rw [scanArgument_char slashes hslash hquote hinside, before_snd, List.length_cons]
    omega

/-- An argument takes what it begins with. -/
theorem scanArgument_lt {c : UInt8} (h : isBlank c = false) (rest : Bytes) :
    (scanArgument false 0 (c :: rest)).2.length < (c :: rest).length := by
  by_cases hslash : c = 92
  · subst hslash
    rw [scanArgument_slash, List.length_cons]
    exact Nat.lt_succ_of_le (scanArgument_length _ _ _)
  by_cases hquote : c = 34
  · subst hquote
    rw [scanArgument_switch rfl (fun hq => absurd hq (by decide)), before_snd, List.length_cons]
    exact Nat.lt_succ_of_le (scanArgument_length _ _ _)
  · rw [scanArgument_char 0 hslash hquote (fun _ => h), before_snd, List.length_cons]
    exact Nat.lt_succ_of_le (scanArgument_length _ _ _)

/-- The arguments behind the program's name. -/
def arguments (line : Bytes) : List Bytes :=
  match line with
  | [] => []
  | c :: rest =>
    if isBlank c then arguments rest
    else (scanArgument false 0 (c :: rest)).1 :: arguments (scanArgument false 0 (c :: rest)).2
  termination_by line.length
  decreasing_by
    · exact Nat.lt_succ_self _
    · rename_i hword
      exact scanArgument_lt (Bool.eq_false_iff.mpr hword) rest

/-- `argv` as the runtime makes it from a command line. -/
def parseCommandLine (line : Bytes) : List Bytes :=
  (programName false line).1 :: arguments (programName false line).2

theorem arguments_nil : arguments [] = [] := by rw [arguments]

theorem arguments_blank {c : UInt8} (h : isBlank c = true) (rest : Bytes) :
    arguments (c :: rest) = arguments rest := by rw [arguments, if_pos h]

theorem arguments_cons {c : UInt8} (h : isBlank c = false) (rest : Bytes) :
    arguments (c :: rest)
      = (scanArgument false 0 (c :: rest)).1 :: arguments (scanArgument false 0 (c :: rest)).2 := by
  rw [arguments, if_neg (by rw [h]; decide)]

/-! ## Reading what was written -/

/-- Nothing or a blank follows. -/
def Ends (rest : Bytes) : Prop := rest = [] ∨ ∃ c tail, isBlank c = true ∧ rest = c :: tail

theorem backslashes_add (m n : Nat) : backslashes m ++ backslashes n = backslashes (m + n) :=
  List.replicate_append_replicate

theorem scanArgument_ends {rest : Bytes} (h : Ends rest) (slashes : Nat) :
    scanArgument false slashes rest = (backslashes slashes, rest) := by
  rcases h with rfl | ⟨c, tail, hblank, rfl⟩
  · exact scanArgument_nil false slashes
  · exact scanArgument_blank slashes hblank tail

theorem Ends.head_ne {rest : Bytes} (h : Ends rest) : rest.head? ≠ some 34 := by
  rcases h with rfl | ⟨c, tail, hblank, rfl⟩
  · exact nofun
  · rw [List.head?_cons]
    rintro heq
    rw [Option.some.inj heq] at hblank
    cases hblank

theorem scanArgument_backslashes (quoted : Bool) (slashes n : Nat) (rest : Bytes) :
    scanArgument quoted slashes (backslashes n ++ rest) = scanArgument quoted (slashes + n) rest := by
  induction n generalizing slashes with
  | zero => rfl
  | succ n ih =>
    have hsucc : backslashes (n + 1) ++ rest = 92 :: (backslashes n ++ rest) := rfl
    rw [hsucc, scanArgument_slash, ih]
    congr 1
    omega

/-- A text without quotes and blanks is read as it stands. -/
theorem scanArgument_plain {text : Bytes} (hquote : 34 ∉ text) (hblank : ∀ c ∈ text, isBlank c = false)
    {rest : Bytes} (h : Ends rest) (slashes : Nat) :
    scanArgument false slashes (text ++ rest) = (backslashes slashes ++ text, rest) := by
  induction text generalizing slashes with
  | nil => rw [List.nil_append, scanArgument_ends h, List.append_nil]
  | cons c text ih =>
    have hrest := ih (fun hmem => hquote (List.mem_cons_of_mem c hmem))
      (fun d hd => hblank d (List.mem_cons_of_mem c hd))
    rw [List.cons_append]
    by_cases hslash : c = 92
    · subst hslash
      rw [scanArgument_slash, hrest, ← backslashes_add, List.append_assoc]
      rfl
    · have hc : c ≠ 34 := fun heq => hquote (heq ▸ List.mem_cons_self)
      rw [scanArgument_char slashes hslash hc (fun _ => hblank c List.mem_cons_self), hrest, before]
      simp [backslashes]

theorem programName_ends {rest : Bytes} (h : Ends rest) : programName false rest = ([], rest.tail) := by
  rcases h with rfl | ⟨c, tail, hblank, rfl⟩
  · rfl
  · have hquote : c ≠ 34 := by
      rintro rfl
      cases hblank
    rw [programName, if_neg hquote, if_pos (by rw [hblank]; rfl), List.tail_cons]

/-- A name without quotes, and without blanks when it is not quoted, is read as it stands. -/
theorem programName_append {quoted : Bool} {text : Bytes} (hquote : 34 ∉ text)
    (hblank : quoted = false → ∀ c ∈ text, isBlank c = false) (rest : Bytes) :
    programName quoted (text ++ rest)
      = (text ++ (programName quoted rest).1, (programName quoted rest).2) := by
  induction text with
  | nil => rfl
  | cons c text ih =>
    have hc : c ≠ 34 := fun heq => hquote (heq ▸ List.mem_cons_self)
    have hinside : ¬ (!quoted && isBlank c) = true := by
      cases quoted with
      | true => simp
      | false => simp [hblank rfl c List.mem_cons_self]
    rw [List.cons_append, programName, if_neg hc, if_neg hinside,
      ih (fun hmem => hquote (List.mem_cons_of_mem c hmem))
        (fun hq d hd => hblank hq d (List.mem_cons_of_mem c hd)), List.cons_append]

/-- The blank behind an argument may be gone already. -/
theorem arguments_tail {rest : Bytes} (h : Ends rest) : arguments rest.tail = arguments rest := by
  rcases h with rfl | ⟨c, tail, hblank, rfl⟩
  · rfl
  · rw [arguments_blank hblank, List.tail_cons]

end QStar.Lib.WindowsArguments
