import QStar.Lib.Wire
import QStar.Lib.Numerals

/-!
# Values sent as lines

A value is written as a line and read up to the next newline; the reader drops
carriage returns. A line that holds neither is read back as it was sent, and
whatever is read holds neither. Numbers are sent as signed decimals and must fill
their line.
-/
namespace QStar.Lib.Lines

open QStar.Lib.CStrings
open QStar.Lib.Fnv
open QStar.Lib.Numerals
open QStar.Lib.Wire

/-- A text that fits on one line. -/
def OneLine (s : Bytes) : Prop := 10 ∉ s ∧ 13 ∉ s

instance (s : Bytes) : Decidable (OneLine s) := inferInstanceAs (Decidable (_ ∧ _))

theorem oneLine_cons {c : UInt8} {s : Bytes} : OneLine (c :: s) ↔ (c ≠ 10 ∧ c ≠ 13) ∧ OneLine s := by
  simp only [OneLine, List.mem_cons, not_or, ne_eq, @eq_comm _ _ c]
  exact and_and_and_comm

def writeLine (s : Bytes) : Bytes := s ++ [10]

/-- Up to the next newline, which must come. -/
def readLine : Reader Bytes
  | [] => none
  | c :: rest =>
    if c = 10 then some ([], rest)
    else (readLine rest).map fun p => (if c = 13 then p.1 else c :: p.1, p.2)

theorem reads_readLine {s : Bytes} (h : OneLine s) : Reads readLine (writeLine s) s := by
  intro rest
  induction s with
  | nil => simp [writeLine, readLine]
  | cons c s ih =>
    obtain ⟨⟨hnewline, hreturn⟩, htail⟩ := oneLine_cons.mp h
    have hcons : writeLine (c :: s) ++ rest = c :: (writeLine s ++ rest) := rfl
    rw [hcons, readLine, if_neg hnewline, ih htail]
    simp [hreturn]

theorem readLine_oneLine {s line rest : Bytes} (h : readLine s = some (line, rest)) : OneLine line := by
  induction s generalizing line rest with
  | nil => cases h
  | cons c s ih =>
    unfold readLine at h
    split at h
    · cases h
      simp [OneLine]
    · rename_i hnewline
      obtain ⟨⟨tail, left⟩, htail, heq⟩ := Option.map_eq_some_iff.mp h
      cases heq
      split
      · exact ih htail
      · rename_i hreturn
        exact oneLine_cons.mpr ⟨⟨hnewline, hreturn⟩, ih htail⟩

/-- `%d` -/
def printInt : Int → Bytes
  | .ofNat n => printUnsigned 10 n
  | .negSucc n => 45 :: printUnsigned 10 (n + 1)

/-- `sscanf(line, "%d%c", …) == 1` -/
def parseInt (line : Bytes) : Option Int :=
  let body := line.dropWhile isSpace
  let negative := body.head? = some 45
  let digits := if body.head? = some 43 ∨ negative then body.drop 1 else body
  if digits = [] ∨ digits.all isDigit = false then none
  else
    let n : Int := (scanDigits 10 none digits).getD 0
    some (if negative then -n else n)

theorem printUnsigned_ten (n : Nat) : (∃ c rest, printUnsigned 10 n = c :: rest ∧ isDigit c = true) ∧
    (printUnsigned 10 n).all isDigit = true ∧
    scanDigits 10 none (printUnsigned 10 n) = some n := by
  obtain ⟨c, rest, hprint⟩ := List.exists_cons_of_ne_nil (printUnsigned_ne_nil 10 n)
  refine ⟨⟨c, rest, hprint, printUnsigned_isDigit (n := n) (by simp [hprint])⟩, ?_, ?_⟩
  · exact List.all_eq_true.mpr fun c hc => printUnsigned_isDigit hc
  · exact scanDigits_printDigits (by decide) (by decide) (Nat.lt_succ_self n)

theorem parseInt_printInt (i : Int) : parseInt (printInt i) = some i := by
  cases i with
  | ofNat n =>
    obtain ⟨⟨c, rest, hprint, hc⟩, hall, hscan⟩ := printUnsigned_ten n
    have hfirst := isDigit_ne hc
    simp only [printInt, hprint] at hall hscan ⊢
    simp [parseInt, hfirst.1, hfirst.2.1, hfirst.2.2, hall, hscan]
  | negSucc n =>
    obtain ⟨⟨c, rest, hprint, hc⟩, hall, hscan⟩ := printUnsigned_ten (n + 1)
    have hminus : isSpace 45 = false := by decide
    simp only [printInt, hprint] at hall hscan ⊢
    simp only [parseInt, List.dropWhile_cons, hminus, Bool.false_eq_true, if_false, List.head?_cons,
      or_true, if_true, List.drop_succ_cons, List.drop_zero, hall, hscan, reduceCtorEq, or_self,
      Option.getD_some]
    rfl

theorem printInt_oneLine (i : Int) : OneLine (printInt i) := by
  have hdigits : ∀ n, OneLine (printUnsigned 10 n) := by
    intro n
    constructor
    · intro h
      exact absurd (printUnsigned_isDigit h) (by decide)
    · intro h
      exact absurd (printUnsigned_isDigit h) (by decide)
  cases i with
  | ofNat n => exact hdigits n
  | negSucc n => exact oneLine_cons.mpr ⟨by decide, hdigits (n + 1)⟩

/-- A line with a number. -/
def readInt : Reader Int := do
  let line ← readLine
  match parseInt line with
  | none => failure
  | some i => return i

theorem reads_readInt (i : Int) : Reads readInt (writeLine (printInt i)) i := by
  refine (reads_readLine (printInt_oneLine i)).bind_nil ?_
  rw [parseInt_printInt]
  exact reads_pure i

end QStar.Lib.Lines
