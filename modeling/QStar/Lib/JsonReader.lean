import QStar.Lib.Numerals
import QStar.Lib.Utf8

/-!
# Reading JSON

A reader of JSON texts: UTF-8, strings with their escapes, numbers by their grammar, arrays
and objects. A text that is read has no control characters but blanks, and a string reads
back as what it was written for when each of its bytes does.
-/
namespace QStar.Lib.JsonReader

open QStar.Lib.CStrings
open QStar.Lib.Numerals

inductive Value where
  | null
  | bool (b : Bool)
  /-- A number as it is written -/
  | num (text : Bytes)
  | str (s : Bytes)
  | arr (items : List Value)
  | obj (members : List (Bytes × Value))

/-! ## Strings -/

/-- Where a reader of a string stands: behind a backslash, within a numeric escape, behind the
first half of a pair of them. -/
inductive Spot where
  | plain
  | escape (high : Option Nat)
  | hex (high : Option Nat) (count value : Nat)
  | low (high : Nat)
  deriving DecidableEq

/-- The byte a letter behind a backslash stands for. -/
def escapeLetter (c : UInt8) : Option UInt8 :=
  if c = 34 ∨ c = 92 ∨ c = 47 then some c
  else if c = 98 then some 8
  else if c = 102 then some 12
  else if c = 110 then some 10
  else if c = 114 then some 13
  else if c = 116 then some 9
  else none

/-- A code unit behind its last digit. -/
def endHex (high : Option Nat) (n : Nat) : Option (Bytes × Spot) :=
  match high with
  | some h =>
    if 0xDC00 ≤ n ∧ n < 0xE000 then
      some (Utf8.encode (0x10000 + (h - 0xD800) * 1024 + (n - 0xDC00)), .plain)
    else none
  | none =>
    if 0xD800 ≤ n ∧ n < 0xDC00 then some ([], .low n)
    else if 0xDC00 ≤ n ∧ n < 0xE000 then none
    else some (Utf8.encode n, .plain)

/-- One byte, with what it adds to the string. -/
def Spot.next : Spot → UInt8 → Option (Bytes × Spot)
  | .plain, c =>
    if c = 92 then some ([], .escape none) else if c < 32 then none else some ([c], .plain)
  | .escape high, c =>
    if c = 117 then some ([], .hex high 0 0)
    else if high = none then (escapeLetter c).map fun d => ([d], .plain)
    else none
  | .hex high count value, c => do
    let d ← digitValue c
    if 16 ≤ d then none
    else if count = 3 then endHex high (value * 16 + d)
    else some ([], .hex high (count + 1) (value * 16 + d))
  | .low high, c => if c = 92 then some ([], .escape (some high)) else none

/-- A string up to its closing quote, and what follows. -/
def readString : Spot → Bytes → Option (Bytes × Bytes)
  | _, [] => none
  | spot, c :: rest =>
    if spot = .plain ∧ c = 34 then some ([], rest)
    else do
      let (out, spot) ← spot.next c
      let (s, rest) ← readString spot rest
      return (out ++ s, rest)

/-! ## Numbers -/

inductive NumberSpot where
  | start
  | minus
  | zero
  | int
  | point
  | fraction
  | exponent
  | exponentSign
  | exponentDigits

def NumberSpot.next : NumberSpot → UInt8 → Option NumberSpot
  | .start, c =>
    if c = 45 then some .minus else if c = 48 then some .zero
    else if isDigit c then some .int else none
  | .minus, c => if c = 48 then some .zero else if isDigit c then some .int else none
  | .zero, c =>
    if c = 46 then some .point else if c = 69 ∨ c = 101 then some .exponent else none
  | .int, c =>
    if isDigit c then some .int else if c = 46 then some .point
    else if c = 69 ∨ c = 101 then some .exponent else none
  | .point, c => if isDigit c then some .fraction else none
  | .fraction, c =>
    if isDigit c then some .fraction else if c = 69 ∨ c = 101 then some .exponent else none
  | .exponent, c =>
    if c = 43 ∨ c = 45 then some .exponentSign
    else if isDigit c then some .exponentDigits else none
  | .exponentSign, c | .exponentDigits, c => if isDigit c then some .exponentDigits else none

def NumberSpot.accepts : NumberSpot → Bool
  | .zero | .int | .fraction | .exponentDigits => true
  | _ => false

def isNumberByte (c : UInt8) : Bool := isDigit c || decide (c ∈ ascii "+-.eE")

def readNumber (text : Bytes) : Option (Value × Bytes) :=
  let number := text.takeWhile isNumberByte
  match number.foldlM NumberSpot.next .start with
  | some spot => if spot.accepts then some (.num number, text.dropWhile isNumberByte) else none
  | none => none

/-! ## Values -/

def isBlank (c : UInt8) : Bool := c = 32 || c = 9 || c = 10 || c = 13

/-- What follows a byte behind blanks. -/
def token (c : UInt8) (text : Bytes) : Option Bytes :=
  match text.dropWhile isBlank with
  | [] => none
  | d :: rest => if d = c then some rest else none

def readWord (word : Bytes) (v : Value) (text : Bytes) : Option (Value × Bytes) :=
  if word <+: text then some (v, text.drop word.length) else none

def readAtom (text : Bytes) : Option (Value × Bytes) :=
  (readWord (ascii "null") .null text).or
    ((readWord (ascii "true") (.bool true) text).or
      ((readWord (ascii "false") (.bool false) text).or (readNumber text)))

mutual

/-- A value and what follows; the fuel bounds the nesting and the lengths of lists. -/
def readValue : Nat → Bytes → Option (Value × Bytes)
  | 0, _ => none
  | fuel + 1, text =>
    match token 34 text with
    | some rest => (readString .plain rest).map fun r => (.str r.1, r.2)
    | none =>
      match token 91 text with
      | some rest =>
        match token 93 rest with
        | some rest => some (.arr [], rest)
        | none => (readItems fuel rest).map fun r => (.arr r.1, r.2)
      | none =>
        match token 123 text with
        | some rest =>
          match token 125 rest with
          | some rest => some (.obj [], rest)
          | none => (readMembers fuel rest).map fun r => (.obj r.1, r.2)
        | none => readAtom (text.dropWhile isBlank)

/-- The items up to the closing bracket. -/
def readItems : Nat → Bytes → Option (List Value × Bytes)
  | 0, _ => none
  | fuel + 1, text => do
    let (v, rest) ← readValue fuel text
    match token 44 rest with
    | some rest => (readItems fuel rest).map fun r => (v :: r.1, r.2)
    | none => (token 93 rest).map fun rest => ([v], rest)

/-- The members up to the closing brace. -/
def readMembers : Nat → Bytes → Option (List (Bytes × Value) × Bytes)
  | 0, _ => none
  | fuel + 1, text => do
    let rest ← token 34 text
    let (key, rest) ← readString .plain rest
    let rest ← token 58 rest
    let (v, rest) ← readValue fuel rest
    match token 44 rest with
    | some rest => (readMembers fuel rest).map fun r => ((key, v) :: r.1, r.2)
    | none => (token 125 rest).map fun rest => ([(key, v)], rest)

end

/-- The value of a JSON text. -/
def parse (text : Bytes) : Option Value :=
  if Utf8.Valid text then do
    let (v, rest) ← readValue (2 * text.length + 2) text
    if rest.dropWhile isBlank = [] then some v else none
  else none

/-! ## What is read has no control characters -/

/-- A byte that may stand in a text. -/
def Fine (c : UInt8) : Prop := c < 32 → isBlank c = true

/-- A reader has taken fine bytes only. -/
def Took (text rest : Bytes) : Prop := ∃ used, text = used ++ rest ∧ ∀ c ∈ used, Fine c

theorem Took.trans {a b c : Bytes} (hab : Took a b) (hbc : Took b c) : Took a c := by
  obtain ⟨u, rfl, hu⟩ := hab
  obtain ⟨v, rfl, hv⟩ := hbc
  refine ⟨u ++ v, (List.append_assoc u v c).symm, fun d hd => ?_⟩
  exact (List.mem_append.mp hd).elim (hu d) (hv d)

theorem took_cons {c : UInt8} {rest : Bytes} (h : Fine c) : Took (c :: rest) rest :=
  ⟨[c], rfl, fun _ hd => List.mem_singleton.mp hd ▸ h⟩

theorem fine_of_le {c : UInt8} (h : ¬c < 32) : Fine c := fun hc => absurd hc h

theorem took_dropWhile {p : UInt8 → Bool} (hp : ∀ c, p c = true → Fine c) (text : Bytes) :
    Took text (text.dropWhile p) :=
  ⟨text.takeWhile p, List.takeWhile_append_dropWhile.symm,
    fun _ hc => hp _ (List.mem_takeWhile_imp hc)⟩

theorem took_token {c : UInt8} (hc : ¬c < 32) {text rest : Bytes} (h : token c text = some rest) :
    Took text rest := by
  have hblanks := took_dropWhile (fun _ hblank _ => hblank) (p := isBlank) text
  unfold token at h
  split at h
  · cases h
  · rename_i d tail hdrop
    rw [hdrop] at hblanks
    split at h
    · rename_i hd
      subst hd
      cases h
      exact hblanks.trans (took_cons (fine_of_le hc))
    · cases h

theorem le_of_next {spot spot' : Spot} {c : UInt8} {out : Bytes}
    (h : spot.next c = some (out, spot')) : ¬c < 32 := by
  have hletter : ∀ n < 256, UInt8.ofNat n < 32 → escapeLetter (UInt8.ofNat n) = none ∧
      digitValue (UInt8.ofNat n) = none := by decide +kernel
  have hnone := hletter c.toNat (UInt8.toNat_lt c)
  rw [UInt8.ofNat_toNat] at hnone
  intro hc
  obtain ⟨hescape, hdigit⟩ := hnone hc
  have hne : c ≠ 92 ∧ c ≠ 117 := by
    constructor <;> rintro rfl <;> exact absurd hc (by decide)
  cases spot with
  | plain => simp [Spot.next, hne.1, hc] at h
  | escape high => simp [Spot.next, hne.2, hescape] at h
  | hex high count value => simp [Spot.next, hdigit] at h
  | low high => simp [Spot.next, hne.1] at h

theorem took_readString {spot : Spot} {text s rest : Bytes}
    (h : readString spot text = some (s, rest)) : Took text rest := by
  induction text generalizing spot s with
  | nil => cases h
  | cons c tail ih =>
    rw [readString] at h
    split at h
    · rename_i hclose
      cases h
      exact took_cons (fine_of_le (hclose.2 ▸ by decide))
    · obtain ⟨⟨out, spot'⟩, hnext, h⟩ := Option.bind_eq_some_iff.mp h
      obtain ⟨⟨s', rest'⟩, htail, h⟩ := Option.bind_eq_some_iff.mp h
      cases h
      exact (took_cons (fine_of_le (le_of_next hnext))).trans (ih htail)

theorem took_readWord {word : Bytes} (hword : ∀ c ∈ word, ¬c < 32) {v v' : Value} {text rest : Bytes}
    (h : readWord word v text = some (v', rest)) : Took text rest := by
  unfold readWord at h
  split at h
  · rename_i hprefix
    obtain ⟨tail, rfl⟩ := hprefix
    cases h
    rw [List.drop_left]
    exact ⟨word, rfl, fun c hc => fine_of_le (hword c hc)⟩
  · cases h

theorem le_of_isNumberByte {c : UInt8} (h : isNumberByte c = true) : ¬c < 32 := by
  have hall : ∀ n < 256, isNumberByte (UInt8.ofNat n) = true → ¬UInt8.ofNat n < 32 := by
    decide +kernel
  have hbyte := hall c.toNat (UInt8.toNat_lt c)
  rw [UInt8.ofNat_toNat] at hbyte
  exact hbyte h

theorem took_readAtom {text rest : Bytes} {v : Value} (h : readAtom text = some (v, rest)) :
    Took text rest := by
  rcases Option.or_eq_some_iff.mp h with h | ⟨-, h⟩
  · exact took_readWord (by decide) h
  rcases Option.or_eq_some_iff.mp h with h | ⟨-, h⟩
  · exact took_readWord (by decide) h
  rcases Option.or_eq_some_iff.mp h with h | ⟨-, h⟩
  · exact took_readWord (by decide) h
  unfold readNumber at h
  dsimp only at h
  split at h
  · split at h
    · cases h
      exact took_dropWhile (fun c hc => fine_of_le (le_of_isNumberByte hc)) text
    · cases h
  · cases h

/-- Values, items and members alike, with the same fuel. -/
theorem took_read (fuel : Nat) :
    (∀ text v rest, readValue fuel text = some (v, rest) → Took text rest) ∧
    (∀ text vs rest, readItems fuel text = some (vs, rest) → Took text rest) ∧
    (∀ text ms rest, readMembers fuel text = some (ms, rest) → Took text rest) := by
  induction fuel with
  | zero =>
    refine ⟨?_, ?_, ?_⟩ <;> intro text x rest h <;> simp [readValue, readItems, readMembers] at h
  | succ fuel ih =>
    obtain ⟨ihValue, ihItems, ihMembers⟩ := ih
    refine ⟨?_, ?_, ?_⟩
    · intro text v rest h
      rw [readValue] at h
      split at h
      · rename_i tail hquote
        obtain ⟨⟨s, rest'⟩, hstring, heq⟩ := Option.map_eq_some_iff.mp h
        cases heq
        exact (took_token (by decide) hquote).trans (took_readString hstring)
      · split at h
        · rename_i tail hbracket
          have hopen := took_token (by decide) hbracket
          split at h
          · rename_i rest' hclose
            cases h
            exact hopen.trans (took_token (by decide) hclose)
          · obtain ⟨⟨vs, rest'⟩, hitems, heq⟩ := Option.map_eq_some_iff.mp h
            cases heq
            exact hopen.trans (ihItems _ _ _ hitems)
        · split at h
          · rename_i tail hbrace
            have hopen := took_token (by decide) hbrace
            split at h
            · rename_i rest' hclose
              cases h
              exact hopen.trans (took_token (by decide) hclose)
            · obtain ⟨⟨ms, rest'⟩, hmembers, heq⟩ := Option.map_eq_some_iff.mp h
              cases heq
              exact hopen.trans (ihMembers _ _ _ hmembers)
          · exact (took_dropWhile (fun _ hblank _ => hblank) text).trans (took_readAtom h)
    · intro text vs rest h
      rw [readItems] at h
      obtain ⟨⟨v, tail⟩, hvalue, h⟩ := Option.bind_eq_some_iff.mp h
      have hfirst := ihValue _ _ _ hvalue
      dsimp only at h
      split at h
      · rename_i tail' hcomma
        obtain ⟨⟨vs', rest'⟩, hitems, heq⟩ := Option.map_eq_some_iff.mp h
        cases heq
        exact (hfirst.trans (took_token (by decide) hcomma)).trans (ihItems _ _ _ hitems)
      · obtain ⟨rest', hclose, heq⟩ := Option.map_eq_some_iff.mp h
        cases heq
        exact hfirst.trans (took_token (by decide) hclose)
    · intro text ms rest h
      rw [readMembers] at h
      obtain ⟨tail, hquote, h⟩ := Option.bind_eq_some_iff.mp h
      obtain ⟨⟨key, behind⟩, hkey, h⟩ := Option.bind_eq_some_iff.mp h
      obtain ⟨value, hcolon, h⟩ := Option.bind_eq_some_iff.mp h
      obtain ⟨⟨v, more⟩, hvalue, h⟩ := Option.bind_eq_some_iff.mp h
      have hfirst := (((took_token (by decide) hquote).trans (took_readString hkey)).trans
        (took_token (by decide) hcolon)).trans (ihValue _ _ _ hvalue)
      dsimp only at h
      split at h
      · rename_i tail' hcomma
        obtain ⟨⟨ms', rest'⟩, hmembers, heq⟩ := Option.map_eq_some_iff.mp h
        cases heq
        exact (hfirst.trans (took_token (by decide) hcomma)).trans (ihMembers _ _ _ hmembers)
      · obtain ⟨rest', hclose, heq⟩ := Option.map_eq_some_iff.mp h
        cases heq
        exact hfirst.trans (took_token (by decide) hclose)

/-- A text that is read is UTF-8 without control characters but blanks. -/
theorem fine_of_parse {text : Bytes} {v : Value} (h : parse text = some v) :
    Utf8.Valid text ∧ ∀ c ∈ text, Fine c := by
  unfold parse at h
  split at h
  · rename_i hvalid
    refine ⟨hvalid, ?_⟩
    obtain ⟨⟨v', rest⟩, hvalue, h⟩ := Option.bind_eq_some_iff.mp h
    obtain ⟨used, htext, hused⟩ := (took_read _).1 _ _ _ hvalue
    dsimp only at h
    split at h
    · rename_i hblank
      intro c hc
      rw [htext] at hc
      rcases List.mem_append.mp hc with hc | hc
      · exact hused c hc
      · exact fun _ => List.dropWhile_eq_nil_iff.mp hblank c hc
    · cases h
  · cases h

/-! ## Reading strings that were written -/

/-- A byte is written so that it is read as itself. -/
def ReadsByte (f : UInt8 → Bytes) (c : UInt8) : Prop :=
  ∀ rest, readString .plain (f c ++ rest) = (readString .plain rest).map fun r => (c :: r.1, r.2)

theorem readString_flatMap {f : UInt8 → Bytes} {s : Bytes} (h : ∀ c ∈ s, ReadsByte f c)
    (rest : Bytes) : readString .plain (s.flatMap f ++ 34 :: rest) = some (s, rest) := by
  induction s with
  | nil => rfl
  | cons c s ih =>
    obtain ⟨hc, hs⟩ := List.forall_mem_cons.mp h
    rw [List.flatMap_cons, List.append_assoc, hc, ih hs]
    rfl

theorem token_cons {c : UInt8} (hc : isBlank c = false) (rest : Bytes) :
    token c (c :: rest) = some rest := by
  simp [token, hc]

theorem token_ne {c d : UInt8} (hd : isBlank d = false) (hne : d ≠ c) (rest : Bytes) :
    token c (d :: rest) = none := by
  simp [token, hd, hne]

theorem token_blank {c d : UInt8} (hd : isBlank d = true) (rest : Bytes) :
    token c (d :: rest) = token c rest := by
  simp [token, hd]

theorem readValue_blank {c : UInt8} (hc : isBlank c = true) (fuel : Nat) (text : Bytes) :
    readValue fuel (c :: text) = readValue fuel text := by
  cases fuel with
  | zero => simp only [readValue]
  | succ fuel =>
    have hdrop : (c :: text).dropWhile isBlank = text.dropWhile isBlank := by simp [hc]
    simp only [readValue, token_blank hc, hdrop]

theorem readItems_blank {c : UInt8} (hc : isBlank c = true) (fuel : Nat) (text : Bytes) :
    readItems fuel (c :: text) = readItems fuel text := by
  cases fuel with
  | zero => simp only [readItems]
  | succ fuel => simp only [readItems, readValue_blank hc]

theorem readsByte_self {c : UInt8} (hquote : c ≠ 34) (hescape : c ≠ 92) (hc : ¬c < 32) :
    ReadsByte (fun c => [c]) c := by
  intro rest
  rw [List.singleton_append, readString, if_neg (by simp [hquote])]
  simp only [Spot.next, hescape, hc, if_false, Option.bind_eq_bind, Option.bind_some]
  cases readString .plain rest <;> rfl

/-- A name without quotes, backslashes and control characters. -/
theorem readString_name {name : Bytes} (h : ∀ c ∈ name, c ≠ 34 ∧ c ≠ 92 ∧ ¬c < 32) (rest : Bytes) :
    readString .plain (name ++ 34 :: rest) = some (name, rest) := by
  have hread := readString_flatMap (f := fun c => [c])
    (fun c hc => readsByte_self (h c hc).1 (h c hc).2.1 (h c hc).2.2) rest
  rwa [List.flatMap_singleton'] at hread

section Written

variable {f : UInt8 → Bytes} {s : Bytes}

theorem readValue_string (h : ∀ c ∈ s, ReadsByte f c) (fuel : Nat) (rest : Bytes) :
    readValue (fuel + 1) (34 :: (s.flatMap f ++ 34 :: rest)) = some (.str s, rest) := by
  simp [readValue, token_cons (show isBlank 34 = false by decide), readString_flatMap h rest]

/-- A member with a string, and what follows it. -/
theorem readMembers_string {name : Bytes} (hname : ∀ c ∈ name, c ≠ 34 ∧ c ≠ 92 ∧ ¬c < 32)
    (h : ∀ c ∈ s, ReadsByte f c) (fuel : Nat) (rest : Bytes) :
    readMembers (fuel + 2) (34 :: (name ++ 34 :: 58 :: 34 :: (s.flatMap f ++ 34 :: rest))) =
      match token 44 rest with
      | some rest => (readMembers (fuel + 1) rest).map fun r => ((name, .str s) :: r.1, r.2)
      | none => (token 125 rest).map fun rest => ([(name, .str s)], rest) := by
  rw [readMembers, token_cons (by decide)]
  simp only [Option.bind_eq_bind, Option.bind_some, readString_name hname,
    token_cons (show isBlank 58 = false by decide), readValue_string h]

end Written

end QStar.Lib.JsonReader
