import QStar.Lib.Json
import QStar.Lib.JsonMembers
import Mathlib.Tactic.IntervalCases

/-!
# Texts that are read as they were written

A written text has one value whatever follows it, if that is no byte of a number.
A reader that has read a text reads the same in front of more, so a text without
holes is checked by running the reader; the others are put together from strings,
numbers, arrays and objects, one lemma for each.
-/
namespace QStar.Lib.JsonWriting

open QStar.Lib.CStrings
open QStar.Lib.Json (escapeByte quote)
open QStar.Lib.JsonMembers
open QStar.Lib.JsonReader
open QStar.Lib.Lines
open QStar.Lib.Numerals

/-- A text does not go on with a byte of a number. -/
def Ends (text : Bytes) : Prop := ∀ c ∈ text.head?, isNumberByte c = false

theorem ends_cons {c : UInt8} (hc : isNumberByte c = false) (rest : Bytes) : Ends (c :: rest) := by
  intro d hd
  obtain rfl : c = d := Option.some.inj hd
  exact hc

/-- A text that is read as a value, whatever follows it. -/
structure Reads (text : Bytes) (v : Value) : Prop where
  valid : Utf8.Valid text
  reads : ∀ fuel rest, text.length ≤ fuel → Ends rest → readValue fuel (text ++ rest) = some (v, rest)

theorem parse_of_reads {text : Bytes} {v : Value} (h : Reads text v) : parse text = some v := by
  have hread := h.reads (2 * text.length + 2) [] (by omega) nofun
  rw [List.append_nil] at hread
  rw [parse, if_pos h.valid, hread]
  rfl

/-! ## Reading in front of more -/

theorem ne_nil_of_token {c : UInt8} {text rest : Bytes} (h : token c text = some rest) :
    text.dropWhile isBlank ≠ [] := by
  intro hnil
  rw [token, hnil] at h
  cases h

theorem token_append {text : Bytes} (h : text.dropWhile isBlank ≠ []) (c : UInt8) (more : Bytes) :
    token c (text ++ more) = (token c text).map (· ++ more) := by
  obtain ⟨d, rest, hdrop⟩ := List.exists_cons_of_ne_nil h
  have hmore : (text ++ more).dropWhile isBlank = d :: (rest ++ more) := by
    rw [List.dropWhile_append, hdrop]
    rfl
  rw [token, token, hdrop, hmore]
  dsimp only
  split <;> rfl

theorem readString_append {spot : Spot} {text s rest : Bytes} (h : readString spot text = some (s, rest))
    (more : Bytes) : readString spot (text ++ more) = some (s, rest ++ more) := by
  induction text generalizing spot s with
  | nil => cases h
  | cons c text ih =>
    rw [List.cons_append]
    rw [readString] at h ⊢
    split at h
    · rename_i hclose
      cases h
      rw [if_pos hclose]
    · rename_i hopen
      obtain ⟨⟨out, spot'⟩, hnext, h⟩ := Option.bind_eq_some_iff.mp h
      obtain ⟨⟨s', rest'⟩, htail, h⟩ := Option.bind_eq_some_iff.mp h
      cases h
      rw [if_neg hopen, hnext]
      simp only [Option.bind_eq_bind, Option.bind_some, ih htail]
      rfl

theorem takeWhile_append {p : UInt8 → Bool} {more : Bytes} (hmore : ∀ c ∈ more.head?, p c = false)
    (text : Bytes) : (text ++ more).takeWhile p = text.takeWhile p ∧
      (text ++ more).dropWhile p = text.dropWhile p ++ more := by
  induction text with
  | nil =>
    cases more with
    | nil => exact ⟨rfl, rfl⟩
    | cons c more =>
      have hc := hmore c rfl
      simp [hc]
  | cons c text ih =>
    by_cases hc : p c = true
    · simp [hc, ih]
    · simp [hc]

theorem readAtom_append {text rest : Bytes} {v : Value} (h : readAtom text = some (v, rest)) {more : Bytes}
    (hmore : Ends more) : readAtom (text ++ more) = some (v, rest ++ more) := by
  have hword : ∀ {word : Bytes} {w : Value}, readWord word w text = some (v, rest) →
      readWord word w (text ++ more) = some (v, rest ++ more) := by
    intro word w hread
    obtain ⟨rfl, rfl⟩ := readWord_eq_some hread
    rw [List.append_assoc, readWord, if_pos (List.prefix_append _ _), List.drop_left]
  have hnot : ∀ {word rest' : Bytes} {c : UInt8} {w : Value}, text = c :: rest' → word.head? ≠ some c →
      word ≠ [] → readWord word w (text ++ more) = none := by
    rintro word rest' c w rfl hhead hne
    rw [readWord, if_neg]
    rintro ⟨tail, htail⟩
    obtain ⟨d, word', rfl⟩ := List.exists_cons_of_ne_nil hne
    exact hhead (congrArg some (List.cons.inj htail).1)
  unfold readAtom at h ⊢
  rcases Option.or_eq_some_iff.mp h with h | ⟨-, h⟩
  · rw [hword h, Option.some_or]
  rcases Option.or_eq_some_iff.mp h with h | ⟨-, h⟩
  · rw [hnot (readWord_eq_some h).2 (by decide) (by decide), hword h, Option.none_or, Option.some_or]
  rcases Option.or_eq_some_iff.mp h with h | ⟨-, h⟩
  · rw [hnot (readWord_eq_some h).2 (by decide) (by decide), hnot (readWord_eq_some h).2 (by decide) (by decide),
      hword h, Option.none_or, Option.none_or, Option.some_or]
  · obtain ⟨-, -, hne⟩ := readNumber_eq_some h
    obtain ⟨c, number, hnumber⟩ := List.exists_cons_of_ne_nil hne
    have hc : isNumberByte c = true := by
      apply List.mem_takeWhile_imp (l := text)
      rw [hnumber]
      exact List.mem_cons_self
    have htext : text = c :: (number ++ text.dropWhile isNumberByte) := by
      rw [← List.cons_append, ← hnumber, List.takeWhile_append_dropWhile]
    have hletter : ∀ {word : Bytes} {d : UInt8}, word.head? = some d → isNumberByte d = false →
        word.head? ≠ some c := by
      intro word d hword hd heq
      obtain rfl : d = c := Option.some.inj (hword.symm.trans heq)
      rw [hd] at hc
      cases hc
    have hnull : (ascii "null").head? = some 110 := by decide
    have htrue : (ascii "true").head? = some 116 := by decide
    have hfalse : (ascii "false").head? = some 102 := by decide
    rw [hnot htext (hletter hnull rfl) (by decide), hnot htext (hletter htrue rfl) (by decide),
      hnot htext (hletter hfalse rfl) (by decide), Option.none_or, Option.none_or, Option.none_or]
    obtain ⟨htake, hdrop⟩ := takeWhile_append hmore text
    rw [readNumber, htake, hdrop]
    rw [readNumber] at h
    split at h
    · rename_i spot hspot
      split at h
      · rename_i haccepts
        cases h
        simp only [haccepts, if_true]
      · cases h
    · cases h

theorem ne_nil_of_readAtom {text : Bytes} {r : Value × Bytes} (h : readAtom (text.dropWhile isBlank) = some r) :
    text.dropWhile isBlank ≠ [] := by
  intro hnil
  rw [hnil] at h
  cases h

theorem ne_nil_of_readValue {fuel : Nat} {text : Bytes} {r : Value × Bytes} (h : readValue fuel text = some r) :
    text.dropWhile isBlank ≠ [] := by
  rcases readValue_cases h with ⟨inner, s, hopen, -⟩ | ⟨inner, hopen, -⟩ | ⟨inner, hopen, -⟩ | ⟨-, -, -, hatom⟩
  · exact ne_nil_of_token hopen
  · exact ne_nil_of_token hopen
  · exact ne_nil_of_token hopen
  · exact ne_nil_of_readAtom hatom

theorem ne_nil_of_readItems {fuel : Nat} {text : Bytes} {r : List Value × Bytes}
    (h : readItems fuel text = some r) : text.dropWhile isBlank ≠ [] := by
  cases fuel with
  | zero => cases h
  | succ fuel =>
    rw [readItems] at h
    obtain ⟨first, hvalue, -⟩ := Option.bind_eq_some_iff.mp h
    exact ne_nil_of_readValue hvalue

theorem ne_nil_of_readMembers {fuel : Nat} {text : Bytes} {r : List (Bytes × Value) × Bytes}
    (h : readMembers fuel text = some r) : text.dropWhile isBlank ≠ [] := by
  cases fuel with
  | zero => cases h
  | succ fuel =>
    rw [readMembers] at h
    obtain ⟨inner, hquote, -⟩ := Option.bind_eq_some_iff.mp h
    exact ne_nil_of_token hquote

/-- What is read of a text is read in front of more, and with more fuel. -/
def Kept {α : Type} (read : Nat → Bytes → Option (α × Bytes)) (fuel : Nat) : Prop :=
  ∀ {text x rest}, read fuel text = some (x, rest) → ∀ {fuel' more}, fuel ≤ fuel' → Ends more →
    read fuel' (text ++ more) = some (x, rest ++ more)

theorem kept_readValue {fuel : Nat} (hitems : Kept readItems fuel) (hmembers : Kept readMembers fuel) :
    Kept readValue (fuel + 1) := by
  intro text v rest h fuel' more hfuel hmore
  obtain ⟨fuel', rfl⟩ : ∃ n, fuel' = n + 1 := ⟨fuel' - 1, by omega⟩
  have hle : fuel ≤ fuel' := by omega
  have hstart := ne_nil_of_readValue h
  rw [readValue] at h ⊢
  simp only [token_append hstart]
  split at h
  · rename_i tail hquote
    obtain ⟨⟨s, rest'⟩, hstring, heq⟩ := Option.map_eq_some_iff.mp h
    cases heq
    simp only [hquote, Option.map_some, readString_append hstring]
  · rename_i hquote
    simp only [hquote, Option.map_none]
    split at h
    · rename_i tail hbracket
      simp only [hbracket, Option.map_some]
      split at h
      · rename_i rest' hclose
        cases h
        rw [token_append (ne_nil_of_token hclose), hclose]
        rfl
      · rename_i hopen
        obtain ⟨⟨vs, rest'⟩, hread, heq⟩ := Option.map_eq_some_iff.mp h
        cases heq
        rw [token_append (ne_nil_of_readItems hread), hopen]
        simp only [Option.map_none, hitems hread hle hmore, Option.map_some]
    · rename_i hbracket
      simp only [hbracket, Option.map_none]
      split at h
      · rename_i tail hbrace
        simp only [hbrace, Option.map_some]
        split at h
        · rename_i rest' hclose
          cases h
          rw [token_append (ne_nil_of_token hclose), hclose]
          rfl
        · rename_i hopen
          obtain ⟨⟨ms, rest'⟩, hread, heq⟩ := Option.map_eq_some_iff.mp h
          cases heq
          rw [token_append (ne_nil_of_readMembers hread), hopen]
          simp only [Option.map_none, hmembers hread hle hmore, Option.map_some]
      · rename_i hbrace
        obtain ⟨c, tail, hdrop⟩ := List.exists_cons_of_ne_nil hstart
        have hblanks : (text ++ more).dropWhile isBlank = text.dropWhile isBlank ++ more := by
          rw [List.dropWhile_append, hdrop]
          rfl
        simp only [hbrace, Option.map_none]
        rw [hblanks]
        exact readAtom_append h hmore

theorem kept_readItems {fuel : Nat} (hvalues : Kept readValue fuel) (hitems : Kept readItems fuel) :
    Kept readItems (fuel + 1) := by
  intro text vs rest h fuel' more hfuel hmore
  obtain ⟨fuel', rfl⟩ : ∃ n, fuel' = n + 1 := ⟨fuel' - 1, by omega⟩
  have hle : fuel ≤ fuel' := by omega
  rw [readItems] at h ⊢
  obtain ⟨⟨v, tail⟩, hvalue, h⟩ := Option.bind_eq_some_iff.mp h
  dsimp only at h
  rw [hvalues hvalue hle hmore]
  simp only [Option.bind_eq_bind, Option.bind_some]
  split at h
  · rename_i tail' hcomma
    obtain ⟨⟨vs', rest'⟩, hread, heq⟩ := Option.map_eq_some_iff.mp h
    cases heq
    rw [token_append (ne_nil_of_token hcomma), hcomma]
    simp only [Option.map_some, hitems hread hle hmore]
  · rename_i hcomma
    obtain ⟨rest', hclose, heq⟩ := Option.map_eq_some_iff.mp h
    cases heq
    have hstart := ne_nil_of_token hclose
    rw [token_append hstart, token_append hstart, hcomma, hclose]
    rfl

theorem kept_readMembers {fuel : Nat} (hvalues : Kept readValue fuel) (hmembers : Kept readMembers fuel) :
    Kept readMembers (fuel + 1) := by
  intro text ms rest h fuel' more hfuel hmore
  obtain ⟨fuel', rfl⟩ : ∃ n, fuel' = n + 1 := ⟨fuel' - 1, by omega⟩
  have hle : fuel ≤ fuel' := by omega
  rw [readMembers] at h ⊢
  obtain ⟨tail, hquote, h⟩ := Option.bind_eq_some_iff.mp h
  obtain ⟨⟨key, behind⟩, hkey, h⟩ := Option.bind_eq_some_iff.mp h
  obtain ⟨value, hcolon, h⟩ := Option.bind_eq_some_iff.mp h
  obtain ⟨⟨v, after⟩, hvalue, h⟩ := Option.bind_eq_some_iff.mp h
  dsimp only at h hcolon hvalue
  rw [token_append (ne_nil_of_token hquote), hquote]
  simp only [Option.bind_eq_bind, Option.map_some, Option.bind_some, readString_append hkey]
  rw [token_append (ne_nil_of_token hcolon), hcolon]
  simp only [Option.map_some, Option.bind_some, hvalues hvalue hle hmore]
  split at h
  · rename_i tail' hcomma
    obtain ⟨⟨ms', rest'⟩, hread, heq⟩ := Option.map_eq_some_iff.mp h
    cases heq
    rw [token_append (ne_nil_of_token hcomma), hcomma]
    simp only [Option.map_some, hmembers hread hle hmore]
  · rename_i hcomma
    obtain ⟨rest', hclose, heq⟩ := Option.map_eq_some_iff.mp h
    cases heq
    have hstart := ne_nil_of_token hclose
    rw [token_append hstart, token_append hstart, hcomma, hclose]
    rfl

theorem kept_read (fuel : Nat) : Kept readValue fuel ∧ Kept readItems fuel ∧ Kept readMembers fuel := by
  induction fuel with
  | zero => exact ⟨nofun, nofun, nofun⟩
  | succ fuel ih =>
    obtain ⟨hvalues, hitems, hmembers⟩ := ih
    exact ⟨kept_readValue hitems hmembers, kept_readItems hvalues hitems, kept_readMembers hvalues hmembers⟩

/-- A text that the reader takes as a whole. -/
theorem reads_of_readValue {text : Bytes} {v : Value} (hvalid : Utf8.Valid text)
    (h : readValue text.length text = some (v, [])) : Reads text v where
  valid := hvalid
  reads := fun _ _ hfuel hrest => (kept_read _).1 h hfuel hrest

theorem reads_null : Reads (ascii "null") .null := reads_of_readValue (by decide) rfl

theorem exists_reads_of_read {text : Bytes} (hvalid : Utf8.Valid text)
    (h : (readValue text.length text).map (·.2) = some []) : ∃ v, Reads text v := by
  obtain ⟨⟨v, rest⟩, hread, hrest⟩ := Option.map_eq_some_iff.mp h
  subst hrest
  exact ⟨v, reads_of_readValue hvalid hread⟩

/-! ## Strings -/

theorem readString_step {spot spot' : Spot} {c : UInt8} {out : Bytes} (hopen : ¬(spot = .plain ∧ c = 34))
    (h : spot.next c = some (out, spot')) (rest : Bytes) :
    readString spot (c :: rest) = (readString spot' rest).map fun r => (out ++ r.1, r.2) := by
  rw [readString, if_neg hopen, h]
  simp only [Option.bind_eq_bind, Option.bind_some]
  cases readString spot' rest <;> rfl

/-- A letter behind a backslash. -/
theorem readString_letter {c d : UInt8} (h : (Spot.escape none).next d = some ([c], .plain)) (rest : Bytes) :
    readString .plain (92 :: d :: rest) = (readString .plain rest).map fun r => (c :: r.1, r.2) := by
  have hopen : Spot.next .plain 92 = some ([], .escape none) := rfl
  rw [readString_step (by decide) hopen, readString_step (by simp) h, Option.map_map]
  rfl

/-- A control character by its number. -/
theorem readString_control {c : UInt8} (h : c < 32) (rest : Bytes) :
    readString .plain ([92, 117, 48, 48, Json.hexDigit (c / 16), Json.hexDigit (c % 16)] ++ rest) =
      (readString .plain rest).map fun r => (c :: r.1, r.2) := by
  have hcontrol : ∀ n < 32, (Spot.hex none 2 0).next (Json.hexDigit (UInt8.ofNat n / 16)) =
        some ([], .hex none 3 (n / 16)) ∧
      (Spot.hex none 3 (n / 16)).next (Json.hexDigit (UInt8.ofNat n % 16)) = some ([UInt8.ofNat n], .plain) := by
    decide
  obtain ⟨hhigh, hlow⟩ := hcontrol c.toNat (UInt8.lt_iff_toNat_lt.mp h)
  rw [UInt8.ofNat_toNat] at hhigh hlow
  have hopen : Spot.next .plain 92 = some ([], .escape none) := rfl
  have hletter : (Spot.escape none).next 117 = some ([], .hex none 0 0) := rfl
  have hfirst : (Spot.hex none 0 0).next 48 = some ([], .hex none 1 0) := rfl
  have hsecond : (Spot.hex none 1 0).next 48 = some ([], .hex none 2 0) := rfl
  simp only [List.cons_append, List.nil_append]
  rw [readString_step (by decide) hopen, readString_step (by decide) hletter, readString_step (by decide) hfirst,
    readString_step (by decide) hsecond, readString_step (by simp) hhigh, readString_step (by simp) hlow]
  simp only [Option.map_map]
  rfl

theorem readsByte_escapeByte (c : UInt8) : ReadsByte escapeByte c := by
  intro rest
  unfold escapeByte
  split
  · rename_i h
    rcases h with rfl | rfl <;> exact readString_letter rfl rest
  · rename_i hplain
    rw [not_or] at hplain
    split
    · rename_i h
      subst h
      exact readString_letter rfl rest
    · split
      · rename_i h
        subst h
        exact readString_letter rfl rest
      · split
        · rename_i h
          subst h
          exact readString_letter rfl rest
        · split
          · rename_i h
            exact readString_control h rest
          · rename_i h
            exact readsByte_self hplain.1 hplain.2 h rest

theorem writesAscii_escapeByte : Utf8.WritesAscii escapeByte := by
  intro c
  exact forall_byte (P := fun c => (c < 0x80 → escapeByte c ≠ [] ∧ ∀ d ∈ escapeByte c, d < 0x80) ∧
    (¬c < 0x80 → escapeByte c = [c])) (by decide +kernel) c

theorem readString_quote (s rest : Bytes) :
    readString .plain (s.flatMap escapeByte ++ 34 :: rest) = some (s, rest) :=
  readString_flatMap (fun c _ => readsByte_escapeByte c) rest

theorem quote_append (s rest : Bytes) : quote s ++ rest = 34 :: (s.flatMap escapeByte ++ 34 :: rest) := by
  simp [quote]

theorem valid_quote {s : Bytes} (h : Utf8.Valid s) : Utf8.Valid (quote s) := by
  apply Utf8.valid_append (a := [34]) rfl
  exact Utf8.valid_append ((Utf8.valid_flatMap writesAscii_escapeByte).mpr h) rfl

theorem token_quote (rest : Bytes) : token 34 (34 :: rest) = some rest := token_cons (by decide) rest

theorem length_of_readString {spot : Spot} {text s rest : Bytes} (h : readString spot text = some (s, rest)) :
    rest.length < text.length := by
  induction text generalizing spot s with
  | nil => cases h
  | cons c text ih =>
    rw [readString] at h
    split at h
    · cases h
      exact Nat.lt_succ_self _
    · obtain ⟨⟨out, spot'⟩, -, h⟩ := Option.bind_eq_some_iff.mp h
      obtain ⟨⟨s', rest'⟩, hread, h⟩ := Option.bind_eq_some_iff.mp h
      cases h
      exact Nat.lt_succ_of_lt (ih hread)

/-- A text between quotes that is read as a string. -/
theorem reads_string {inner s : Bytes} (hvalid : Utf8.Valid inner)
    (h : ∀ rest, readString .plain (inner ++ 34 :: rest) = some (s, rest)) :
    Reads (34 :: (inner ++ [34])) (.str s) where
  valid := Utf8.valid_append (a := [34]) rfl (Utf8.valid_append hvalid rfl)
  reads := by
    intro fuel rest hfuel hrest
    obtain ⟨fuel, rfl⟩ : ∃ n, fuel = n + 1 := ⟨fuel - 1, by simp at hfuel; omega⟩
    have htext : 34 :: (inner ++ [34]) ++ rest = 34 :: (inner ++ 34 :: rest) := by simp
    rw [htext, readValue, token_quote]
    simp only [h, Option.map_some]

/-- A string that is read is read in front of anything. -/
theorem readString_closed {spot : Spot} {text s rest : Bytes} (h : readString spot (text ++ 34 :: rest) = some (s, rest))
    (more : Bytes) : readString spot (text ++ 34 :: more) = some (s, more) := by
  induction text generalizing spot s with
  | nil =>
    rw [List.nil_append, readString] at h ⊢
    split at h
    · rename_i hclose
      cases h
      rw [if_pos hclose]
    · obtain ⟨⟨out, spot'⟩, -, h⟩ := Option.bind_eq_some_iff.mp h
      obtain ⟨⟨s', rest'⟩, hread, h⟩ := Option.bind_eq_some_iff.mp h
      cases h
      have hlength := length_of_readString hread
      omega
  | cons c text ih =>
    rw [List.cons_append, readString] at h ⊢
    split at h
    · have hlength := congrArg (fun r => r.2.length) (Option.some.inj h)
      simp at hlength
      omega
    · rename_i hopen
      obtain ⟨⟨out, spot'⟩, hnext, h⟩ := Option.bind_eq_some_iff.mp h
      obtain ⟨⟨s', rest'⟩, hread, h⟩ := Option.bind_eq_some_iff.mp h
      cases h
      rw [if_neg hopen, hnext]
      simp only [Option.bind_eq_bind, Option.bind_some, ih hread]
      rfl

theorem reads_quote {s : Bytes} (h : Utf8.Valid s) : Reads (quote s) (.str s) :=
  reads_string ((Utf8.valid_flatMap writesAscii_escapeByte).mpr h) (readString_quote s)

/-! ## Numbers -/

/-- A printed number is one by the grammar, which has no zeros in front. -/
theorem foldlM_printDigits {fuel n : Nat} (h : n < fuel) :
    (printDigits 10 fuel n).foldlM NumberSpot.next .start = some (if n = 0 then .zero else .int) := by
  have hfirst : ∀ n < 10, NumberSpot.next .start (Fnv.hexDigit n) = some (if n = 0 then .zero else .int) := by
    intro n hn
    interval_cases n <;> rfl
  have hnext : ∀ n < 10, NumberSpot.next .int (Fnv.hexDigit n) = some .int := by
    intro n hn
    interval_cases n <;> rfl
  induction fuel generalizing n with
  | zero => omega
  | succ fuel ih =>
    unfold printDigits
    split
    · rename_i hsmall
      rw [List.foldlM_cons, hfirst n hsmall]
      rfl
    · rename_i hlarge
      have hdiv : n / 10 ≠ 0 := by omega
      rw [List.foldlM_append, ih (by omega), if_neg hdiv, if_neg (by omega)]
      rw [Option.bind_eq_bind, Option.bind_some, List.foldlM_cons, hnext _ (Nat.mod_lt _ (by decide))]
      rfl

theorem isNumberByte_of_isDigit {c : UInt8} (h : isDigit c = true) : isNumberByte c = true := by
  rw [isNumberByte, h, Bool.true_or]

theorem takeWhile_all {p : UInt8 → Bool} {text rest : Bytes} (htext : ∀ c ∈ text, p c = true)
    (hrest : ∀ c ∈ rest.head?, p c = false) :
    (text ++ rest).takeWhile p = text ∧ (text ++ rest).dropWhile p = rest := by
  obtain ⟨htake, hdrop⟩ := takeWhile_append hrest text
  rw [htake, hdrop, List.takeWhile_eq_self_iff.mpr htext, List.dropWhile_eq_nil_iff.mpr htext]
  exact ⟨rfl, rfl⟩

/-- A number by the grammar is read as itself. -/
theorem reads_number {t : Bytes} {spot : NumberSpot} (ht : ∀ c ∈ t, isNumberByte c = true)
    (hspot : t.foldlM NumberSpot.next .start = some spot) (haccepts : spot.accepts = true) :
    Reads t (.num t) := by
  have hbyte : ∀ c, isNumberByte c = true → c < 0x80 ∧ isBlank c = false ∧ c ∉ [34, 91, 123, 110, 116, 102] :=
    forall_byte (P := fun c => isNumberByte c = true → c < 0x80 ∧ isBlank c = false ∧
      c ∉ [34, 91, 123, 110, 116, 102]) (by decide +kernel)
  have hne : t ≠ [] := by
    rintro rfl
    cases hspot
    cases haccepts
  apply reads_of_readValue
  · exact Utf8.valid_of_ascii fun c hc => (hbyte c (ht c hc)).1
  · obtain ⟨c, t', rfl⟩ := List.exists_cons_of_ne_nil hne
    obtain ⟨-, hblank, hother⟩ := hbyte c (ht c List.mem_cons_self)
    simp only [List.mem_cons, List.not_mem_nil, or_false, not_or] at hother
    obtain ⟨hquote, hbracket, hbrace, hn, ht', hf⟩ := hother
    have hword : ∀ {word : Bytes} {w : Value}, word.head? ≠ some c → word ≠ [] →
        readWord word w (c :: t') = none := by
      intro word w hhead hword
      rw [readWord, if_neg]
      rintro ⟨tail, htail⟩
      obtain ⟨d, word', rfl⟩ := List.exists_cons_of_ne_nil hword
      exact hhead (congrArg some (List.cons.inj htail).1)
    have hend : ∀ c ∈ ([] : Bytes).head?, isNumberByte c = false := nofun
    obtain ⟨htake, hdrop⟩ := takeWhile_all ht hend
    rw [List.append_nil] at htake hdrop
    rw [List.length_cons, readValue, token_ne hblank hquote, token_ne hblank hbracket, token_ne hblank hbrace]
    simp only [List.dropWhile_cons_of_neg (show ¬isBlank c = true by simp [hblank])]
    rw [readAtom, hword (by simpa [ascii] using Ne.symm hn) (by decide),
      hword (by simpa [ascii] using Ne.symm ht') (by decide),
      hword (by simpa [ascii] using Ne.symm hf) (by decide), readNumber]
    simp only [Option.none_or, htake, hspot, haccepts, if_true, hdrop]

/-- A number that is read is read in front of anything. -/
theorem reads_of_readAtom {text rest t : Bytes} (h : readAtom text = some (.num t, rest)) : Reads t (.num t) := by
  have hnumber : readNumber text = some (.num t, rest) := by
    unfold readAtom at h
    rcases Option.or_eq_some_iff.mp h with h | ⟨-, h⟩
    · cases (readWord_eq_some h).1
    rcases Option.or_eq_some_iff.mp h with h | ⟨-, h⟩
    · cases (readWord_eq_some h).1
    rcases Option.or_eq_some_iff.mp h with h | ⟨-, h⟩
    · cases (readWord_eq_some h).1
    · exact h
  unfold readNumber at hnumber
  dsimp only at hnumber
  split at hnumber
  · rename_i spot hspot
    split at hnumber
    · rename_i haccepts
      cases hnumber
      exact reads_number (fun c hc => List.mem_takeWhile_imp hc) hspot haccepts
    · cases hnumber
  · cases hnumber

theorem reads_unsigned (n : Nat) : Reads (printUnsigned 10 n) (.num (printUnsigned 10 n)) := by
  have hspot := foldlM_printDigits (Nat.lt_succ_self n)
  refine reads_number (fun c hc => isNumberByte_of_isDigit (printUnsigned_isDigit hc)) hspot ?_
  split <;> rfl

/-! ## Arrays and objects -/

/-- The members of an object from behind its brace. -/
structure ReadsMembers (text : Bytes) (members : List (Bytes × Value)) : Prop where
  valid : Utf8.Valid text
  quoted : text.head? = some 34
  reads : ∀ fuel rest, text.length ≤ fuel → readMembers fuel (text ++ rest) = some (members, rest)

theorem readsMembers_last (key : Bytes) {t : Bytes} {v : Value} (hkey : Utf8.Valid key) (h : Reads t v) :
    ReadsMembers (quote key ++ 58 :: (t ++ [125])) [(key, v)] where
  valid := Utf8.valid_append (valid_quote hkey)
    (Utf8.valid_append (a := [58]) rfl (Utf8.valid_append h.valid rfl))
  quoted := rfl
  reads := by
    intro fuel rest hfuel
    simp only [List.length_append, List.length_cons] at hfuel
    obtain ⟨fuel, rfl⟩ : ∃ n, fuel = n + 1 := ⟨fuel - 1, by omega⟩
    have htext : quote key ++ 58 :: (t ++ [125]) ++ rest =
        34 :: (key.flatMap escapeByte ++ 34 :: 58 :: (t ++ 125 :: rest)) := by
      rw [List.append_assoc, quote_append]
      simp
    rw [htext, readMembers, token_quote]
    simp only [Option.bind_eq_bind, Option.bind_some, readString_quote,
      token_cons (show isBlank 58 = false by decide), h.reads fuel (125 :: rest) (by omega) (ends_cons (by decide) _),
      token_ne (show isBlank 125 = false by decide) (show (125 : UInt8) ≠ 44 by decide),
      token_cons (show isBlank 125 = false by decide), Option.map_some]

theorem readsMembers_cons (key : Bytes) {t more : Bytes} {v : Value} {members : List (Bytes × Value)}
    (hkey : Utf8.Valid key) (h : Reads t v) (hmore : ReadsMembers more members) :
    ReadsMembers (quote key ++ 58 :: (t ++ 44 :: more)) ((key, v) :: members) where
  valid := Utf8.valid_append (valid_quote hkey)
    (Utf8.valid_append (a := [58]) rfl (Utf8.valid_append h.valid (Utf8.valid_append (a := [44]) rfl hmore.valid)))
  quoted := rfl
  reads := by
    intro fuel rest hfuel
    simp only [List.length_append, List.length_cons] at hfuel
    obtain ⟨fuel, rfl⟩ : ∃ n, fuel = n + 1 := ⟨fuel - 1, by omega⟩
    have htext : quote key ++ 58 :: (t ++ 44 :: more) ++ rest =
        34 :: (key.flatMap escapeByte ++ 34 :: 58 :: (t ++ 44 :: (more ++ rest))) := by
      rw [List.append_assoc, quote_append]
      simp
    rw [htext, readMembers, token_quote]
    simp only [Option.bind_eq_bind, Option.bind_some, readString_quote,
      token_cons (show isBlank 58 = false by decide), h.reads fuel (44 :: (more ++ rest)) (by omega)
      (ends_cons (by decide) _), token_cons (show isBlank 44 = false by decide), hmore.reads fuel rest (by omega),
      Option.map_some]

theorem reads_object {text : Bytes} {members : List (Bytes × Value)} (h : ReadsMembers text members) :
    Reads (123 :: text) (.obj members) where
  valid := Utf8.valid_append (a := [123]) rfl h.valid
  reads := by
    intro fuel rest hfuel hrest
    rw [List.length_cons] at hfuel
    obtain ⟨fuel, rfl⟩ : ∃ n, fuel = n + 1 := ⟨fuel - 1, by omega⟩
    have hread := h.reads fuel rest (by omega)
    obtain ⟨tail, rfl⟩ : ∃ tail, text = 34 :: tail := by
      cases text with
      | nil => cases h.quoted
      | cons c tail => exact ⟨tail, by rw [Option.some.inj h.quoted]⟩
    rw [List.cons_append, readValue, token_ne (by decide) (by decide), token_ne (by decide) (by decide),
      token_cons (by decide)]
    dsimp only
    rw [List.cons_append, token_ne (by decide) (by decide), ← List.cons_append, hread]
    rfl

/-- No value begins as an array ends. -/
theorem token_bracket {text : Bytes} {v : Value} (h : Reads text v) (rest : Bytes) :
    token 93 (text ++ rest) = none := by
  have hread := h.reads text.length [] le_rfl nofun
  rw [List.append_nil] at hread
  rw [token_append (ne_nil_of_readValue hread), Option.map_eq_none_iff]
  rcases readValue_cases hread with ⟨inner, s, hopen, -⟩ | ⟨inner, hopen, -⟩ | ⟨inner, hopen, -⟩
    | ⟨-, -, -, hatom⟩
  · exact token_ne_of_token hopen (by decide)
  · exact token_ne_of_token hopen (by decide)
  · exact token_ne_of_token hopen (by decide)
  · by_contra hsome
    obtain ⟨tail, htail⟩ := Option.ne_none_iff_exists'.mp hsome
    have hdrop : text.dropWhile isBlank = 93 :: tail := by
      unfold token at htail
      split at htail
      · cases htail
      · rename_i d rest' hcons
        split at htail
        · rename_i hd
          cases htail
          rw [hcons, hd]
        · cases htail
    rw [hdrop] at hatom
    simp [readAtom, readWord, readNumber, ascii, isNumberByte, isDigit] at hatom

/-- Texts with commas between them. -/
def commaSeparated : List Bytes → Bytes
  | [] => []
  | [t] => t
  | t :: rest => t ++ 44 :: commaSeparated rest

theorem commaSeparated_cons (t t' : Bytes) (texts : List Bytes) :
    commaSeparated (t :: t' :: texts) = t ++ 44 :: commaSeparated (t' :: texts) := rfl

theorem readItems_commaSeparated {texts : List Bytes} {values : List Value} (h : List.Forall₂ Reads texts values)
    (hne : texts ≠ []) {fuel : Nat} (hfuel : (commaSeparated texts).length < fuel) (rest : Bytes) :
    readItems fuel (commaSeparated texts ++ 93 :: rest) = some (values, rest) := by
  induction h generalizing fuel with
  | nil => exact absurd rfl hne
  | @cons t v texts values hread htexts ih =>
    obtain ⟨fuel, rfl⟩ : ∃ n, fuel = n + 1 := ⟨fuel - 1, by omega⟩
    cases htexts with
    | nil =>
      rw [commaSeparated] at hfuel ⊢
      rw [readItems, hread.reads fuel (93 :: rest) (by omega) (ends_cons (by decide) _)]
      simp only [Option.bind_eq_bind, Option.bind_some,
        token_ne (show isBlank 93 = false by decide) (show (93 : UInt8) ≠ 44 by decide),
        token_cons (show isBlank 93 = false by decide), Option.map_some]
    | @cons t' v' texts values hread' htexts =>
      rw [commaSeparated_cons] at hfuel ⊢
      simp only [List.length_append, List.length_cons] at hfuel
      have hshort : (commaSeparated (t' :: texts)).length < fuel := by omega
      have htail := ih (by simp) hshort
      rw [List.append_assoc, List.cons_append, readItems, hread.reads fuel _ (by omega) (ends_cons (by decide) _)]
      simp only [Option.bind_eq_bind, Option.bind_some, token_cons (show isBlank 44 = false by decide), htail,
        Option.map_some]

theorem valid_commaSeparated {texts : List Bytes} (h : ∀ t ∈ texts, Utf8.Valid t) :
    Utf8.Valid (commaSeparated texts) := by
  induction texts with
  | nil => rfl
  | cons t texts ih =>
    obtain ⟨ht, htexts⟩ := List.forall_mem_cons.mp h
    cases texts with
    | nil => exact ht
    | cons t' texts =>
      rw [commaSeparated_cons]
      exact Utf8.valid_append ht (Utf8.valid_append (a := [44]) rfl (ih htexts))

theorem reads_array {texts : List Bytes} {values : List Value} (h : List.Forall₂ Reads texts values) :
    Reads (91 :: (commaSeparated texts ++ [93])) (.arr values) where
  valid := by
    have hvalid : ∀ t ∈ texts, Utf8.Valid t := by
      intro t ht
      induction h with
      | nil => cases ht
      | cons hread htexts ih =>
        rcases List.mem_cons.mp ht with rfl | ht
        · exact hread.valid
        · exact ih ht
    exact Utf8.valid_append (a := [91]) rfl (Utf8.valid_append (valid_commaSeparated hvalid) rfl)
  reads := by
    intro fuel rest hfuel hrest
    simp only [List.length_append, List.length_cons] at hfuel
    obtain ⟨fuel, rfl⟩ : ∃ n, fuel = n + 1 := ⟨fuel - 1, by omega⟩
    have htext : 91 :: (commaSeparated texts ++ [93]) ++ rest = 91 :: (commaSeparated texts ++ 93 :: rest) := by
      simp
    rw [htext, readValue, token_ne (by decide) (by decide), token_cons (by decide)]
    dsimp only
    cases h with
    | nil => rw [commaSeparated, List.nil_append, token_cons (by decide)]
    | @cons t v texts values hread htexts =>
      have hshort : (commaSeparated (t :: texts)).length < fuel := by omega
      have hitems := readItems_commaSeparated (.cons hread htexts) (by simp) hshort rest
      obtain ⟨more, hmore⟩ : ∃ more, commaSeparated (t :: texts) ++ 93 :: rest = t ++ more := by
        cases texts with
        | nil => exact ⟨93 :: rest, rfl⟩
        | cons t' texts =>
          refine ⟨44 :: commaSeparated (t' :: texts) ++ 93 :: rest, ?_⟩
          rw [commaSeparated_cons, List.append_assoc]
      rw [hitems, hmore, token_bracket hread]
      rfl

/-- Texts that are read make an array that is read. -/
theorem exists_reads_array {texts : List Bytes} (h : ∀ t ∈ texts, ∃ v, Reads t v) :
    ∃ v, Reads (91 :: (commaSeparated texts ++ [93])) v := by
  have hvalues : ∃ values, List.Forall₂ Reads texts values := by
    induction texts with
    | nil => exact ⟨[], .nil⟩
    | cons t texts ih =>
      obtain ⟨⟨v, hv⟩, htexts⟩ := List.forall_mem_cons.mp h
      obtain ⟨values, hvalues⟩ := ih htexts
      exact ⟨v :: values, .cons hv hvalues⟩
  obtain ⟨values, hvalues⟩ := hvalues
  exact ⟨.arr values, reads_array hvalues⟩

end QStar.Lib.JsonWriting
