import QStar.Lib.Fnv

/-!
# Numbers in text

Printing a number in some base and reading it back the way the `scanf` family
does: leading blanks and a sign are accepted, reading stops at the first byte
that is no digit, and values saturate at 64 bits.
-/
namespace QStar.Lib.Numerals

open QStar.Lib.CStrings
open QStar.Lib.Fnv

/-- The value of a digit in bases up to 36. -/
def digitValue (c : UInt8) : Option Nat :=
  if 48 ≤ c ∧ c ≤ 57 then some (c.toNat - 48)
  else if 97 ≤ c ∧ c ≤ 122 then some (c.toNat - 87)
  else if 65 ≤ c ∧ c ≤ 90 then some (c.toNat - 55)
  else none

/-- The number at the start of a text, together with the value read so far. -/
def scanDigits (base : Nat) : Option Nat → Bytes → Option Nat
  | acc, [] => acc
  | acc, c :: rest =>
    match digitValue c with
    | none => acc
    | some d => if d < base then scanDigits base (some (acc.getD 0 * base + d)) rest else acc

/-- `isspace` in the C locale. -/
def isSpace (c : UInt8) : Bool := c = 32 || (9 ≤ c && c ≤ 13)

def dropHexMark : Bytes → Bytes
  | 48 :: 120 :: rest => rest
  | 48 :: 88 :: rest => rest
  | text => text

/-- `strtoull` -/
def scanUnsigned (base : Nat) (text : Bytes) : Option Nat :=
  let text := text.dropWhile isSpace
  let negative := text.head? = some 45
  let text := if text.head? = some 43 ∨ text.head? = some 45 then text.drop 1 else text
  let text := if base = 16 then dropHexMark text else text
  (scanDigits base none text).map fun n =>
    let value := min n (2 ^ 64 - 1)
    if negative then (2 ^ 64 - value) % 2 ^ 64 else value

/-- `sscanf(line, "label%…", &value)` -/
def scanField (label : Bytes) (base : Nat) (line : Bytes) : Option Nat :=
  if label <+: line then scanUnsigned base (line.drop label.length) else none

/-- The digits of a number in a base, most significant first; the fuel bounds their count. -/
def printDigits (base : Nat) : Nat → Nat → Bytes
  | 0, _ => []
  | fuel + 1, n =>
    if n < base then [hexDigit n] else printDigits base fuel (n / base) ++ [hexDigit (n % base)]

/-- `%zu`, `%o` -/
def printUnsigned (base n : Nat) : Bytes := printDigits base (n + 1) n

def isDigit (c : UInt8) : Bool := 48 ≤ c && c ≤ 57

/-- `strtoul(text, &end, 10)` where it reads the whole text: the value, and whether it was out
of range. -/
def strtoulAll (text : Bytes) : Option (Nat × Bool) :=
  if text = [] then some (0, false)
  else
    let body := text.dropWhile isSpace
    let negative := body.head? = some 45
    let digits := if body.head? = some 43 ∨ negative then body.drop 1 else body
    if digits = [] ∨ digits.all isDigit = false then none
    else
      let n := (scanDigits 10 none digits).getD 0
      if 2 ^ 64 ≤ n then some (2 ^ 64 - 1, true)
      else some (if negative then (2 ^ 64 - n) % 2 ^ 64 else n, false)

/-- `strtol(text, &end, 10)`: the value, and the text at `end`. -/
def strtol (text : Bytes) : Int × Bytes :=
  let body := text.dropWhile isSpace
  let negative := body.head? = some 45
  let digits := if body.head? = some 43 ∨ negative then body.drop 1 else body
  match scanDigits 10 none digits with
  | none => (0, text)
  | some n =>
    (max (-2 ^ 63) (min (2 ^ 63 - 1) (if negative then -(n : Int) else n)), digits.dropWhile isDigit)

/-- A scan of decimal digits goes up to the first byte that is none. -/
theorem scanDigits_ten_append {a rest : Bytes} (hrest : ∀ c ∈ rest.head?, isDigit c = false)
    (acc : Option Nat) : scanDigits 10 acc (a ++ rest) = scanDigits 10 acc a := by
  induction a generalizing acc with
  | nil =>
    cases rest with
    | nil => rfl
    | cons c rest =>
      have hc := hrest c rfl
      rw [List.nil_append, scanDigits, scanDigits]
      split
      · rfl
      · rename_i d hd
        have hlarge : ¬ d < 10 := by
          simp only [isDigit, Bool.and_eq_false_iff, decide_eq_false_iff_not, UInt8.le_iff_toNat_le] at hc
          simp only [digitValue, UInt8.le_iff_toNat_le] at hd
          split at hd
          · rename_i hdigit
            exact absurd hdigit (by omega)
          · split at hd
            · rename_i hletter
              have h97 : (97 : UInt8).toNat = 97 := rfl
              have heq := Option.some.inj hd
              omega
            · split at hd
              · rename_i hletter
                have h65 : (65 : UInt8).toNat = 65 := rfl
                have heq := Option.some.inj hd
                omega
              · cases hd
        rw [if_neg hlarge]
  | cons c a ih =>
    rw [List.cons_append, scanDigits, scanDigits]
    cases digitValue c with
    | none => rfl
    | some d =>
      dsimp only
      split
      · exact ih _
      · rfl

theorem digitValue_hexDigit {d : Nat} (h : d < 16) : digitValue (hexDigit d) = some d := by
  have hall : ∀ d < 16, digitValue (hexDigit d) = some d := by decide
  exact hall d h

/-- Texts of digits of a base. -/
def AllDigits (base : Nat) (text : Bytes) : Prop := ∀ c ∈ text, ∃ d < base, digitValue c = some d

theorem printDigits_allDigits {base : Nat} (hbase : base ≤ 16) (fuel n : Nat) (hpos : 0 < base) :
    AllDigits base (printDigits base fuel n) := by
  induction fuel generalizing n with
  | zero =>
    intro c hc
    cases hc
  | succ fuel ih =>
    intro c hc
    unfold printDigits at hc
    split at hc
    · rename_i hlt
      obtain rfl : c = hexDigit n := by simpa using hc
      exact ⟨n, hlt, digitValue_hexDigit (by omega)⟩
    · rcases List.mem_append.mp hc with hc | hc
      · exact ih _ c hc
      · obtain rfl : c = hexDigit (n % base) := by simpa using hc
        have hlt := Nat.mod_lt n hpos
        exact ⟨n % base, hlt, digitValue_hexDigit (by omega)⟩

/-- One more digit. -/
theorem scanDigits_concat {base : Nat} {text : Bytes} (htext : AllDigits base text) {c : UInt8}
    {d : Nat} (hd : d < base) (hc : digitValue c = some d) (acc : Option Nat) :
    scanDigits base acc (text ++ [c]) = some ((scanDigits base acc text).getD 0 * base + d) := by
  induction text generalizing acc with
  | nil => simp [scanDigits, hc, hd]
  | cons b rest ih =>
    obtain ⟨e, he, hb⟩ := htext b List.mem_cons_self
    simp only [List.cons_append, scanDigits, hb, he, if_true]
    exact ih (fun c' hc' => htext c' (List.mem_cons_of_mem _ hc')) _

theorem scanDigits_printDigits {base : Nat} (hpos : 1 < base) (hbase : base ≤ 16) {fuel n : Nat}
    (h : n < fuel) : scanDigits base none (printDigits base fuel n) = some n := by
  induction fuel generalizing n with
  | zero => omega
  | succ fuel ih =>
    unfold printDigits
    split
    · rename_i hlt
      have hvalue := digitValue_hexDigit (d := n) (by omega)
      simp [scanDigits, hvalue, hlt]
    · rename_i hge
      have hlt := Nat.mod_lt n (show 0 < base by omega)
      have hdiv : n / base < fuel := by
        have hsmaller := Nat.div_lt_self (show 0 < n by omega) hpos
        omega
      rw [scanDigits_concat (printDigits_allDigits hbase fuel _ (by omega)) hlt
        (digitValue_hexDigit (by omega)), ih hdiv, Option.getD_some, Nat.div_add_mod']

theorem printUnsigned_injective {m n : Nat} (h : printUnsigned 10 m = printUnsigned 10 n) :
    m = n := by
  have hm : scanDigits 10 none (printUnsigned 10 m) = some m :=
    scanDigits_printDigits (by decide) (by decide) (Nat.lt_succ_self m)
  have hn : scanDigits 10 none (printUnsigned 10 n) = some n :=
    scanDigits_printDigits (by decide) (by decide) (Nat.lt_succ_self n)
  rw [h, hn, Option.some.injEq] at hm
  exact hm.symm

/-- A number below a power of the base has no more digits than its exponent says. -/
theorem printDigits_length_le {base : Nat} (hpos : 0 < base) (fuel k n : Nat) (h : n < base ^ (k + 1)) :
    (printDigits base fuel n).length ≤ k + 1 := by
  induction fuel generalizing k n with
  | zero => exact Nat.zero_le _
  | succ fuel ih =>
    unfold printDigits
    split
    · simp
    · rename_i hge
      cases k with
      | zero =>
        rw [Nat.zero_add, Nat.pow_one] at h
        exact absurd h hge
      | succ k =>
        have hdiv : n / base < base ^ (k + 1) := by
          rw [Nat.div_lt_iff_lt_mul hpos, ← Nat.pow_succ]
          exact h
        have hlen := ih k (n / base) hdiv
        rw [List.length_append, List.length_singleton]
        omega

theorem printUnsigned_ne_nil (base n : Nat) : printUnsigned base n ≠ [] := by
  unfold printUnsigned printDigits
  split
  · simp
  · simp

theorem isDigit_of_value {c : UInt8} {d : Nat} (hd : d < 10) (h : digitValue c = some d) :
    isDigit c = true := by
  revert h
  unfold digitValue isDigit
  split
  · rename_i hc
    simp [hc]
  · split
    · rename_i hc
      intro h
      have hle : (97 : UInt8).toNat ≤ c.toNat := UInt8.le_iff_toNat_le.mp hc.1
      have h97 : (97 : UInt8).toNat = 97 := rfl
      have hvalue : c.toNat - 87 = d := Option.some.inj h
      omega
    · split
      · rename_i hc
        intro h
        have hle : (65 : UInt8).toNat ≤ c.toNat := UInt8.le_iff_toNat_le.mp hc.1
        have h65 : (65 : UInt8).toNat = 65 := rfl
        have hvalue : c.toNat - 55 = d := Option.some.inj h
        omega
      · intro h
        cases h

theorem printUnsigned_isDigit {n : Nat} {c : UInt8} (h : c ∈ printUnsigned 10 n) :
    isDigit c = true := by
  obtain ⟨d, hd, hvalue⟩ := printDigits_allDigits (by decide) _ _ (by decide) c h
  exact isDigit_of_value hd hvalue

theorem isDigit_ne {c : UInt8} (h : isDigit c = true) :
    isSpace c = false ∧ c ≠ 43 ∧ c ≠ 45 := by
  have hall : ∀ n < 256, isDigit (UInt8.ofNat n) = true →
      isSpace (UInt8.ofNat n) = false ∧ UInt8.ofNat n ≠ 43 ∧ UInt8.ofNat n ≠ 45 := by
    decide +kernel
  have hc : UInt8.ofNat c.toNat = c := UInt8.ofNat_toNat
  have hbyte := hall c.toNat (UInt8.toNat_lt c)
  rw [hc] at hbyte
  exact hbyte h

/-- A printed number is read back, or as the largest one when it is out of range. -/
theorem strtoulAll_printUnsigned (n : Nat) : strtoulAll (printUnsigned 10 n) =
    some (if n < 2 ^ 64 then (n, false) else (2 ^ 64 - 1, true)) := by
  obtain ⟨c, rest, hprint⟩ := List.exists_cons_of_ne_nil (printUnsigned_ne_nil 10 n)
  have hdigit : isDigit c = true := printUnsigned_isDigit (n := n) (by simp [hprint])
  have hfirst := isDigit_ne hdigit
  have hall : (printUnsigned 10 n).all isDigit = true :=
    List.all_eq_true.mpr fun c hc => printUnsigned_isDigit hc
  have hscan : scanDigits 10 none (printUnsigned 10 n) = some n :=
    scanDigits_printDigits (by decide) (by decide) (Nat.lt_succ_self n)
  unfold strtoulAll
  rw [hprint] at hall hscan ⊢
  generalize 2 ^ 64 = limit
  by_cases h : n < limit
  · simp [hfirst.1, hfirst.2.1, hfirst.2.2, hall, hscan, h, Nat.not_le.mpr h]
  · simp [hfirst.1, hfirst.2.1, hfirst.2.2, hall, hscan, h, Nat.not_lt.mp h]

/-- `strtol` reads digits up to the first byte that is none. -/
theorem strtol_digits {digits rest : Bytes} {n : Nat} (hdigits : ∀ c ∈ digits, isDigit c = true)
    (hrest : ∀ c ∈ rest.head?, isDigit c = false) (hscan : scanDigits 10 none digits = some n) (hn : n < 2 ^ 63) :
    (strtol (digits ++ rest)).1 = n := by
  cases digits with
  | nil => cases hscan
  | cons c digits =>
    obtain ⟨hspace, hplus, hminus⟩ := isDigit_ne (hdigits c List.mem_cons_self)
    have hvalue : scanDigits 10 none (c :: (digits ++ rest)) = some n := by
      rw [← List.cons_append, scanDigits_ten_append hrest, hscan]
    have hstart : (c :: (digits ++ rest)).dropWhile isSpace = c :: (digits ++ rest) :=
      List.dropWhile_cons_of_neg (by simp [hspace])
    rw [List.cons_append]
    simp only [strtol, hstart, List.head?_cons, Option.some.injEq, hplus, hminus, or_self, if_false, hvalue]
    omega

/-- A printed number is read back up to where it ends. -/
theorem strtol_printUnsigned {n : Nat} {rest : Bytes} (hn : n < 2 ^ 63)
    (hrest : ∀ c ∈ rest.head?, isDigit c = false) : strtol (printUnsigned 10 n ++ rest) = (↑n, rest) := by
  have hdigits : ∀ c ∈ printUnsigned 10 n, isDigit c = true := fun c hc => printUnsigned_isDigit hc
  have hscan : scanDigits 10 none (printUnsigned 10 n) = some n :=
    scanDigits_printDigits (by decide) (by decide) (Nat.lt_succ_self n)
  have hvalue := strtol_digits hdigits hrest hscan hn
  have hstop : (printUnsigned 10 n ++ rest).dropWhile isDigit = rest := by
    rw [List.dropWhile_append_of_pos hdigits]
    cases rest with
    | nil => rfl
    | cons c rest => exact List.dropWhile_cons_of_neg (by simp [hrest c rfl])
  refine Prod.ext hvalue ?_
  obtain ⟨c, digits, hprint⟩ := List.exists_cons_of_ne_nil (printUnsigned_ne_nil 10 n)
  rw [hprint, List.cons_append] at hstop
  rw [hprint] at hdigits hscan
  obtain ⟨hspace, hplus, hminus⟩ := isDigit_ne (hdigits c List.mem_cons_self)
  have hstart : (c :: (digits ++ rest)).dropWhile isSpace = c :: (digits ++ rest) :=
    List.dropWhile_cons_of_neg (by simp [hspace])
  have hread : scanDigits 10 none (c :: (digits ++ rest)) = some n := by
    rw [← List.cons_append, scanDigits_ten_append hrest, hscan]
  rw [hprint, List.cons_append]
  simp only [strtol, hstart, List.head?_cons, Option.some.injEq, hplus, hminus, or_self, if_false, hread]
  exact hstop

end QStar.Lib.Numerals
