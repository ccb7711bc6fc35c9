import QStar.ActionCache.Restore

/-!
# Manifests that are read back

What the reader of a manifest makes of the text a store wrote, and of a text that has lost its end:
nothing, or all of the manifest but for the last digits of its last mode.
-/
namespace QStar.ActionCache

open QStar.Lib.CStrings
open QStar.Lib.Fnv
open QStar.Lib.Numerals
open QStar.Base

/-! ## Numbers in a line -/

theorem hexDigits_allDigits (width n : Nat) : AllDigits 16 (hexDigits width n) := by
  induction width generalizing n with
  | zero =>
    intro c hc
    cases hc
  | succ width ih =>
    intro c hc
    have hlt := Nat.mod_lt n (show 0 < 16 by decide)
    rcases List.mem_append.mp hc with hc | hc
    · exact ih _ c hc
    · obtain rfl := List.mem_singleton.mp hc
      exact ⟨n % 16, hlt, digitValue_hexDigit hlt⟩

/-- A number is read from as many of its hexadecimal digits as it has. -/
theorem scanDigits_hexDigits {width n : Nat} (h : n < 16 ^ (width + 1)) :
    scanDigits 16 none (hexDigits (width + 1) n) = some n := by
  induction width generalizing n with
  | zero =>
    have hlt : n < 16 := by simpa using h
    have hvalue := digitValue_hexDigit hlt
    simp [hexDigits, scanDigits, Nat.mod_eq_of_lt hlt, hvalue, hlt]
  | succ width ih =>
    have hlt := Nat.mod_lt n (show 0 < 16 by decide)
    have hdiv : n / 16 < 16 ^ (width + 1) := Nat.div_lt_of_lt_mul (by rwa [← Nat.pow_succ'])
    rw [hexDigits, scanDigits_concat (hexDigits_allDigits _ _) hlt (digitValue_hexDigit hlt),
      ih hdiv, Option.getD_some, Nat.div_add_mod']

/-- A text that no digit begins does not go on a number. -/
def NoDigit (tail : Bytes) : Prop := ∀ c ∈ tail.head?, digitValue c = none

theorem scanDigits_stop {base : Nat} {text tail : Bytes} (htext : AllDigits base text)
    (htail : NoDigit tail) (acc : Option Nat) :
    scanDigits base acc (text ++ tail) = scanDigits base acc text := by
  induction text generalizing acc with
  | nil =>
    cases tail with
    | nil => rfl
    | cons c tail =>
      have hc : digitValue c = none := htail c rfl
      simp [scanDigits, hc]
  | cons c text ih =>
    obtain ⟨d, hd, hvalue⟩ := htext c List.mem_cons_self
    simp only [List.cons_append, scanDigits, hvalue, if_pos hd]
    exact ih (fun c hc => htext c (List.mem_cons_of_mem _ hc)) _

/-- A digit is no blank, no sign and no mark of a base. -/
theorem digit_bare {c : UInt8} (h : ∃ d < 16, digitValue c = some d) :
    isSpace c = false ∧ c ≠ 43 ∧ c ≠ 45 ∧ c ≠ 120 ∧ c ≠ 88 := by
  have hall : ∀ n < 256, (digitValue (UInt8.ofNat n)).any (· < 16) = true →
      isSpace (UInt8.ofNat n) = false ∧ UInt8.ofNat n ≠ 43 ∧ UInt8.ofNat n ≠ 45 ∧
        UInt8.ofNat n ≠ 120 ∧ UInt8.ofNat n ≠ 88 := by
    decide +kernel
  obtain ⟨d, hd, hvalue⟩ := h
  refine forall_byte (P := fun c => (digitValue c).any (· < 16) = true →
    isSpace c = false ∧ c ≠ 43 ∧ c ≠ 45 ∧ c ≠ 120 ∧ c ≠ 88) hall c ?_
  simp [hvalue, hd]

theorem dropHexMark_eq {text : Bytes} (h : ∀ c ∈ text, c ≠ 120 ∧ c ≠ 88) :
    dropHexMark text = text := by
  unfold dropHexMark
  split
  · exact absurd rfl (h 120 (by simp)).1
  · exact absurd rfl (h 88 (by simp)).2
  · rfl

/-- Digits are read up to their end. -/
theorem scanUnsigned_digits {base : Nat} (hbase : base ≤ 16) {text tail : Bytes}
    (htext : AllDigits base text) (hne : text ≠ []) (htail : tail = [] ∨ tail = [10]) :
    scanUnsigned base (text ++ tail) =
      (scanDigits base none text).map fun n => min n (2 ^ 64 - 1) := by
  have hbare : ∀ c ∈ text, isSpace c = false ∧ c ≠ 43 ∧ c ≠ 45 ∧ c ≠ 120 ∧ c ≠ 88 := by
    intro c hc
    obtain ⟨d, hd, hvalue⟩ := htext c hc
    exact digit_bare ⟨d, by omega, hvalue⟩
  have hmark : dropHexMark (text ++ tail) = text ++ tail := by
    apply dropHexMark_eq
    intro c hc
    rcases List.mem_append.mp hc with hc | hc
    · exact (hbare c hc).2.2.2
    · rcases htail with rfl | rfl
      · cases hc
      · obtain rfl := List.mem_singleton.mp hc
        decide
  have hstop : NoDigit tail := by
    rcases htail with rfl | rfl
    · nofun
    · intro c hc
      obtain rfl : 10 = c := Option.some.inj hc
      rfl
  cases text with
  | nil => exact absurd rfl hne
  | cons c text =>
    obtain ⟨hspace, hplus, hminus, -⟩ := hbare c List.mem_cons_self
    have hwhole : (c :: text ++ tail).dropWhile isSpace = c :: text ++ tail :=
      List.dropWhile_cons_of_neg (by simp [hspace])
    have hhead : (c :: text ++ tail).head? = some c := rfl
    simp only [scanUnsigned, hwhole, hhead, Option.some.injEq, hplus, hminus, or_self, if_false,
      hmark, ite_self, scanDigits_stop htext hstop]

/-! ## Lines -/

/-- A line that the reader's buffer holds. -/
structure Fits (line : Bytes) : Prop where
  unbroken : 10 ∉ line
  zeroless : 0 ∉ line
  short : line.length < 8191

@[simp] theorem readLine_nil : readLine [] = none := rfl

theorem readLine_line {line : Bytes} (h : Fits line) (rest : Bytes) :
    readLine (line ++ 10 :: rest) = some (line ++ [10], rest) := by
  have hzero : 0 ∉ line ++ [10] := by simpa using h.zeroless
  rw [readLine, if_neg (by simp), fgets_line h.unbroken h.short]
  simp only [cString_eq_self hzero]

/-- A name that a line can hold behind its label. -/
structure Named (name : Bytes) : Prop where
  unbroken : 10 ∉ name
  zeroless : 0 ∉ name
  short : name.length ≤ 4095

theorem Named.fits {label name : Bytes} (h : Named name)
    (hlabel : 10 ∉ label ∧ 0 ∉ label ∧ label.length ≤ 32) : Fits (label ++ name) := by
  obtain ⟨hbreak, hzero, hlen⟩ := hlabel
  have hshort := h.short
  constructor
  · simp [hbreak, h.unbroken]
  · simp [hzero, h.zeroless]
  · rw [List.length_append]
    omega

theorem named_of_digits {base : Nat} {text : Bytes} (h : AllDigits base text)
    (hlen : text.length ≤ 4095) : Named text := by
  have hmem : ∀ c ∈ text, digitValue c ≠ none := by
    intro c hc
    obtain ⟨d, -, hvalue⟩ := h c hc
    simp [hvalue]
  exact ⟨fun h => hmem 10 h rfl, fun h => hmem 0 h rfl, hlen⟩

theorem printUnsigned_allDigits {base : Nat} (hpos : 1 < base) (hbase : base ≤ 16) (n : Nat) :
    AllDigits base (printUnsigned base n) :=
  printDigits_allDigits hbase (n + 1) n (Nat.zero_lt_of_lt hpos)

theorem named_hash (hash : UInt64) : Named (formatHash hash) :=
  named_of_digits (hexDigits_allDigits 16 hash.toNat) (by simp)

theorem named_number {base n : Nat} (hpos : 1 < base) (hbase : base ≤ 16) (h : n < base ^ 65) :
    Named (printUnsigned base n) :=
  named_of_digits (printUnsigned_allDigits hpos hbase n)
    ((printDigits_length_le (Nat.zero_lt_of_lt hpos) (n + 1) 64 n h).trans (by decide))

theorem named_count {n : Nat} (h : n < 2 ^ 64) : Named (printUnsigned 10 n) :=
  named_number (by decide) (by decide) (h.trans (by decide))

theorem named_mode {mode : Nat} (h : mode < 512) : Named (printUnsigned 8 mode) :=
  named_number (by decide) (by decide) (h.trans (by decide))

theorem scanUnsigned_printed {base n : Nat} (hpos : 1 < base) (hbase : base ≤ 16) :
    scanUnsigned base (printUnsigned base n ++ [10]) = some (min n (2 ^ 64 - 1)) := by
  have hscan : scanDigits base none (printUnsigned base n) = some n :=
    scanDigits_printDigits hpos hbase (Nat.lt_succ_self n)
  rw [scanUnsigned_digits hbase (printUnsigned_allDigits hpos hbase n) (printUnsigned_ne_nil base n)
    (.inr rfl), hscan, Option.map_some]

theorem scanField_label (label : Bytes) (base : Nat) (text : Bytes) :
    scanField label base (label ++ text) = scanUnsigned base text := by
  rw [scanField, if_pos (List.prefix_append _ _), List.drop_left]

theorem scanDigest_line (label : Bytes) (hash : UInt64) :
    scanDigest label (label ++ formatHash hash ++ [10]) = some hash := by
  have hlt : hash.toNat < 16 ^ (15 + 1) := hash.toNat_lt
  have hmin : min hash.toNat (2 ^ 64 - 1) = hash.toNat := by omega
  have hne : formatHash hash ≠ [] := List.ne_nil_of_length_pos (by simp)
  have hdigits : AllDigits 16 (formatHash hash) := hexDigits_allDigits 16 hash.toNat
  have hscan : scanDigits 16 none (formatHash hash) = some hash.toNat := scanDigits_hexDigits hlt
  rw [scanDigest, List.append_assoc, scanField_label,
    scanUnsigned_digits (Nat.le_refl 16) hdigits hne (.inr rfl), hscan, Option.map_some,
    Option.map_some, hmin, UInt64.ofNat_toNat]

theorem scanCount_line {n : Nat} (h : n < 2 ^ 64) :
    scanField (ascii "count=") 10 (ascii "count=" ++ printUnsigned 10 n ++ [10]) = some n := by
  have hmin : min n (2 ^ 64 - 1) = n := by omega
  rw [List.append_assoc, scanField_label, scanUnsigned_printed (by decide) (by decide), hmin]

theorem scanMode_line (label : Bytes) {mode : Nat} (h : mode < 512) :
    scanMode label (label ++ printUnsigned 8 mode ++ [10]) = some mode := by
  have hmin : min mode (2 ^ 64 - 1) % 2 ^ 32 % 4096 = mode := by omega
  rw [scanMode, List.append_assoc, scanField_label, scanUnsigned_printed (by decide) (by decide),
    Option.map_some, hmin]

section Head

variable {key depfile rest : Bytes} {count mode : Nat} {hash : UInt64}

theorem headText_lines : headText key count depfile hash mode ++ rest =
    ascii "qstar-local-cas-v1" ++ 10 :: (ascii "key=" ++ key ++ 10 ::
      (ascii "count=" ++ printUnsigned 10 count ++ 10 :: (ascii "depfile=" ++ depfile ++ 10 ::
        (ascii "depfile_digest=" ++ formatHash hash ++ 10 ::
          (ascii "depfile_mode=" ++ printUnsigned 8 mode ++ 10 :: rest))))) := by
  simp [headText, ascii]

/-- The name that is read of a depfile's line. -/
theorem depfile_line (hname : Named depfile) (hreturn : 13 ∉ depfile) :
    (((ascii "depfile=" ++ depfile ++ [10]).drop 8).take 4095).takeWhile
      (fun c => c ≠ 13 && c ≠ 10) = depfile := by
  have hdrop : (ascii "depfile=" ++ depfile ++ [10]).drop 8 = depfile ++ [10] := by
    rw [List.append_assoc]
    exact @List.drop_left UInt8 (ascii "depfile=") (depfile ++ [10])
  have hall : ∀ c ∈ depfile, (c ≠ 13 && c ≠ 10) = true := by
    intro c hc
    simp only [ne_eq, Bool.and_eq_true, decide_eq_true_eq]
    exact ⟨fun h => hreturn (h ▸ hc), fun h => hname.unbroken (h ▸ hc)⟩
  rw [hdrop, List.take_append, List.take_of_length_le hname.short, List.takeWhile_append_of_pos hall,
    List.append_right_eq_self]
  cases 4095 - depfile.length with
  | zero => rfl
  | succ n => rfl

/-- The head of a manifest is read back. -/
theorem parseHead_headText (hkey : Named key) (hcount : count < 2 ^ 64)
    (hname : Named depfile) (hreturn : 13 ∉ depfile) (hmode : mode < 512) :
    parseHead count key (headText key count depfile hash mode ++ rest) =
      some ⟨depfile, hash, mode, rest⟩ := by
  have hfirst : Fits (ascii "qstar-local-cas-v1") := ⟨by decide, by decide, by decide⟩
  have hkeyline : Fits (ascii "key=" ++ key) := hkey.fits (by decide)
  have hcountline : Fits (ascii "count=" ++ printUnsigned 10 count) :=
    (named_count hcount).fits (by decide)
  have hnameline : Fits (ascii "depfile=" ++ depfile) := hname.fits (by decide)
  have hhashline : Fits (ascii "depfile_digest=" ++ formatHash hash) :=
    (named_hash hash).fits (by decide)
  have hmodeline : Fits (ascii "depfile_mode=" ++ printUnsigned 8 mode) :=
    (named_mode hmode).fits (by decide)
  have hmagic : ascii "qstar-local-cas-v1\n" = ascii "qstar-local-cas-v1" ++ [10] := by decide
  have hend : ascii "\n" = [10] := by decide
  have hprefix : ascii "depfile=" <+: ascii "depfile=" ++ depfile ++ [10] := by
    rw [List.append_assoc]
    exact List.prefix_append _ _
  rw [headText_lines, parseHead]
  simp only [Option.bind_eq_bind, readLine_line hfirst, readLine_line hkeyline,
    readLine_line hcountline, readLine_line hnameline, readLine_line hhashline,
    readLine_line hmodeline, Option.bind_some, scanCount_line hcount, scanDigest_line,
    scanMode_line _ hmode, hmagic, hend, guard_true, hprefix, depfile_line hname hreturn]
  rfl

end Head

/-! ## The records of the outputs -/

/-- What is read of the records of some outputs: their digests and modes, but that the last mode
may be without its last digits. -/
inductive ReadBack : List (Bytes × File) → List (UInt64 × Nat) → Prop where
  | nil : ReadBack [] []
  | record {output : Bytes} {file : File} {stored : List (Bytes × File)}
      {records : List (UInt64 × Nat)} : ReadBack stored records →
      ReadBack ((output, file) :: stored) ((contentHash file, file.mode % 512) :: records)
  | cut {output : Bytes} {file : File} (j : Nat) :
      ReadBack [(output, file)] [(contentHash file, file.mode % 512 / 8 ^ j)]

theorem recordsText_cons (output : Bytes) (file : File) (stored : List (Bytes × File)) :
    recordsText ((output, file) :: stored) =
      ascii "output=" ++ output ++ 10 :: (ascii "digest=" ++ formatHash (contentHash file) ++
        10 :: (ascii "mode=" ++ printUnsigned 8 (file.mode % 512) ++ 10 :: recordsText stored)) := by
  simp [recordsText, outputRecord, ascii]

theorem mode_lt (file : File) : file.mode % 512 < 512 := Nat.mod_lt _ (by decide)

/-- The records of the outputs are read back. -/
theorem parseOutputs_recordsText {stored : List (Bytes × File)} (h : ∀ s ∈ stored, Named s.1) :
    parseOutputs (stored.map Prod.fst) (recordsText stored) =
      some (stored.map fun s => (contentHash s.2, s.2.mode % 512)) := by
  induction stored with
  | nil => rfl
  | cons s stored ih =>
    obtain ⟨output, file⟩ := s
    rw [List.forall_mem_cons] at h
    have hname : Fits (ascii "output=" ++ output) := h.1.fits (by decide)
    have hhash : Fits (ascii "digest=" ++ formatHash (contentHash file)) :=
      (named_hash _).fits (by decide)
    have hmode : Fits (ascii "mode=" ++ printUnsigned 8 (file.mode % 512)) :=
      (named_mode (mode_lt file)).fits (by decide)
    have hend : ascii "\n" = [10] := by decide
    rw [recordsText_cons, List.map_cons, parseOutputs]
    simp only [Option.bind_eq_bind, readLine_line hname, readLine_line hhash, readLine_line hmode,
      Option.bind_some, hend, guard_true, scanDigest_line, scanMode_line _ (mode_lt file), ih h.2]
    rfl

end QStar.ActionCache
