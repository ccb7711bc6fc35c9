import QStar.Lib.Json

/-!
# Members found by the text of their keys

A reader that looks a member up by the first text that is its key between quotes, and an
object with one member on a line. What it finds is the member of the key, or the one behind
a string that is the key or ends like it; numeric escapes it does not read.
-/
namespace QStar.Lib.TextualKeys

open QStar.Lib.CStrings
open QStar.Lib.Json

/-- A string from behind its quote; a backslash stands for the byte behind it. -/
def readString : Bytes → Bytes
  | [] => []
  | 34 :: _ => []
  | 92 :: c :: rest =>
    (if c = 110 then 10 else if c = 114 then 13 else if c = 116 then 9 else c) :: readString rest
  | c :: rest => c :: readString rest

/-- A key between quotes. -/
def needle (key : Bytes) : Bytes := 34 :: (key ++ [34])

/-- What stands behind the colon behind the first text that is a key between quotes. -/
def valueText (text key : Bytes) : Option Bytes := do
  let p ← afterFirst (needle key) text
  let p ← afterFirst [58] p
  return p.dropWhile fun c => c = 32 || c = 9

def getString (text key : Bytes) : Option Bytes := do
  match ← valueText text key with
  | 34 :: p => some (readString p)
  | _ => none

/-! ## Objects -/

inductive Field where
  | str (s : Bytes)
  /-- A number as it is printed -/
  | raw (text : Bytes)

def Field.print : Field → Bytes
  | .str s => quote s
  | .raw text => text

def printMember (m : Bytes × Field) : Bytes := ascii "  " ++ (quote m.1 ++ 58 :: m.2.print)

/-- What follows a member. -/
def printRest : List (Bytes × Field) → Bytes
  | [] => ascii "\n\x7d\n"
  | m :: rest => ascii ",\n" ++ (printMember m ++ printRest rest)

def printObject : List (Bytes × Field) → Bytes
  | [] => ascii "\x7b\n\x7d\n"
  | m :: rest => ascii "\x7b\n" ++ (printMember m ++ printRest rest)

/-- A byte of a key. -/
def isKeyByte (c : UInt8) : Bool := (97 ≤ c && c ≤ 122) || c = 95

def KeyName (key : Bytes) : Prop := key ≠ [] ∧ ∀ c ∈ key, isKeyByte c = true

instance (key : Bytes) : Decidable (KeyName key) :=
  inferInstanceAs (Decidable (key ≠ [] ∧ ∀ c ∈ key, isKeyByte c = true))

/-- A number without quotes, colons and blanks. -/
def Digits (text : Bytes) : Prop := text ≠ [] ∧ ∀ c ∈ text, 48 ≤ c ∧ c ≤ 57

/-- A string that is a key, or ends like one behind a quote. -/
def Misleads (key : Bytes) : Field → Prop
  | .str s => (34 :: key) <:+ (34 :: s)
  | .raw _ => False

instance (key : Bytes) : DecidablePred (Misleads key)
  | .str s => inferInstanceAs (Decidable ((34 :: key) <:+ (34 :: s)))
  | .raw _ => inferInstanceAs (Decidable False)

/-- What is read of a string that was written: numeric escapes come back as they are written. -/
def readBack (s : Bytes) : Bytes := s.flatMap fun c => readString (escapeByte c)

/-- A byte that comes back. -/
def Readable (c : UInt8) : Prop := ¬(c < 32 ∧ c ≠ 10 ∧ c ≠ 13 ∧ c ≠ 9)

instance (c : UInt8) : Decidable (Readable c) :=
  inferInstanceAs (Decidable (¬(c < 32 ∧ c ≠ 10 ∧ c ≠ 13 ∧ c ≠ 9)))

/-- The first string that misleads before the member of the key has the value of the key
behind it. -/
def Undisturbed (key value : Bytes) (members : List (Bytes × Field)) : Prop :=
  ∀ before name field next after, members = before ++ (name, field) :: next :: after →
    (∀ m ∈ before, m.1 ≠ key ∧ ¬Misleads key m.2) → name ≠ key → Misleads key field →
    ∃ s, next.2 = .str s ∧ readBack s = value

def nextValue : List (Bytes × Field) → Option (Field × List (Bytes × Field))
  | [] => none
  | (_, field) :: rest => some (field, rest)

/-- The value that is found for a key, with the members behind it. -/
def lookUp (key : Bytes) : List (Bytes × Field) → Option (Field × List (Bytes × Field))
  | [] => none
  | (name, field) :: rest =>
    if name = key then some (field, rest)
    else if Misleads key field then nextValue rest
    else lookUp key rest

/-! ## Searching a string -/

theorem keyByte_cases {c : UInt8} (h : isKeyByte c = true) :
    c ≠ 34 ∧ c ≠ 92 ∧ c ≠ 58 ∧ c ≠ 44 ∧ c ≠ 10 ∧ c ≠ 13 ∧ c ≠ 9 ∧ c ≠ 32 ∧ ¬c < 32 := by
  have hall : ∀ n < 256, isKeyByte (UInt8.ofNat n) = true →
      UInt8.ofNat n ≠ 34 ∧ UInt8.ofNat n ≠ 92 ∧ UInt8.ofNat n ≠ 58 ∧ UInt8.ofNat n ≠ 44 ∧
      UInt8.ofNat n ≠ 10 ∧ UInt8.ofNat n ≠ 13 ∧ UInt8.ofNat n ≠ 9 ∧ UInt8.ofNat n ≠ 32 ∧
      ¬UInt8.ofNat n < 32 := by
    decide +kernel
  have hbyte := hall c.toNat (UInt8.toNat_lt c)
  rw [UInt8.ofNat_toNat] at hbyte
  exact hbyte h

theorem escapeByte_keyByte {c : UInt8} (h : isKeyByte c = true) : escapeByte c = [c] := by
  obtain ⟨h34, h92, -, -, h10, h13, h9, -, h32⟩ := keyByte_cases h
  simp [escapeByte, h34, h92, h10, h13, h9, h32]

theorem escapeByte_cases (c : UInt8) : escapeByte c = [c] ∨ ∃ rest, escapeByte c = 92 :: rest := by
  unfold escapeByte
  repeat' split
  all_goals first | exact .inl rfl | exact .inr ⟨_, rfl⟩

theorem quote_notMem_escapeByte {c : UInt8} (hc : c ≠ 34) : 34 ∉ escapeByte c := by
  have hall : ∀ n < 256, UInt8.ofNat n ≠ 34 → 34 ∉ escapeByte (UInt8.ofNat n) := by
    decide +kernel
  have hbyte := hall c.toNat (UInt8.toNat_lt c)
  rw [UInt8.ofNat_toNat] at hbyte
  exact hbyte hc

section Search

variable {key s rest : Bytes}

/-- A key and a quote stand at the start of an escaped string just when it is the key. -/
theorem key_prefix_iff (hkey : ∀ c ∈ key, isKeyByte c = true) :
    key ++ [34] <+: s.flatMap escapeByte ++ 34 :: rest ↔ s = key := by
  induction key generalizing s with
  | nil =>
    cases s with
    | nil => simp
    | cons c s =>
      obtain ⟨d, more, hd, hne⟩ := escapeByte_head c
      rw [List.flatMap_cons, hd]
      simp [Ne.symm hne]
  | cons k key ih =>
    have hk := hkey k List.mem_cons_self
    obtain ⟨h34, h92, -⟩ := keyByte_cases hk
    cases s with
    | nil => simp [h34]
    | cons c s =>
      have ih := ih (s := s) fun c hc => hkey c (List.mem_cons_of_mem _ hc)
      by_cases hc : c = k
      · subst hc
        rw [List.flatMap_cons, escapeByte_keyByte hk]
        simpa using ih
      · have hno : ¬ k :: key ++ [34] <+: (c :: s).flatMap escapeByte ++ 34 :: rest := by
          intro h
          rw [List.flatMap_cons] at h
          rcases escapeByte_cases c with hplain | ⟨more, hescaped⟩
          · rw [hplain] at h
            exact hc (List.cons_prefix_cons.mp h).1.symm
          · rw [hescaped] at h
            exact h92 (List.cons_prefix_cons.mp h).1
        simp only [hno, List.cons.injEq, hc, false_and]

/-- At a quote the search ends just when the key and a quote follow. -/
theorem afterFirst_quote {text : Bytes} : afterFirst (needle key) (34 :: text) =
    if key ++ [34] <+: text then some (text.drop (key.length + 1))
    else afterFirst (needle key) text := by
  have hiff : needle key <+: 34 :: text ↔ key ++ [34] <+: text := by
    rw [needle, List.cons_prefix_cons]
    simp
  rw [afterFirst]
  by_cases h : key ++ [34] <+: text
  · rw [if_pos (hiff.mpr h), if_pos h]
    simp [needle]
  · rw [if_neg (mt hiff.mp h), if_neg h]

theorem drop_string (hkey : ∀ c ∈ key, isKeyByte c = true) :
    (key.flatMap escapeByte ++ 34 :: rest).drop (key.length + 1) = rest := by
  have hsame : key.flatMap escapeByte = key := by
    induction key with
    | nil => rfl
    | cons c key ih =>
      rw [List.flatMap_cons, escapeByte_keyByte (hkey c List.mem_cons_self),
        ih fun d hd => hkey d (List.mem_cons_of_mem _ hd)]
      rfl
  rw [hsame, ← List.drop_drop, List.drop_left]
  rfl

/-- A search that has come to the inside of a string. -/
theorem afterFirst_inside (hkey : KeyName key) (hrest : ∀ c ∈ rest.head?, isKeyByte c = false) :
    afterFirst (needle key) (s.flatMap escapeByte ++ 34 :: rest) =
      if (34 :: key) <:+ s then some rest else afterFirst (needle key) rest := by
  induction s with
  | nil =>
    obtain ⟨k, more, rfl⟩ := List.exists_cons_of_ne_nil hkey.1
    have hno : ¬ k :: more ++ [34] <+: rest := by
      intro h
      cases rest with
      | nil => simp at h
      | cons c rest =>
        have hc := hrest c rfl
        rw [← (List.cons_prefix_cons.mp h).1, hkey.2 k List.mem_cons_self] at hc
        cases hc
    rw [List.flatMap_nil, List.nil_append, afterFirst_quote, if_neg hno]
    simp
  | cons c s ih =>
    by_cases hc : c = 34
    · subst hc
      have hskip : afterFirst (needle key) ((34 :: s).flatMap escapeByte ++ 34 :: rest) =
          afterFirst (needle key) (34 :: (s.flatMap escapeByte ++ 34 :: rest)) :=
        afterFirst_skip (show 34 ∉ [92] by decide) _
      rw [hskip, afterFirst_quote, ih]
      simp only [key_prefix_iff hkey.2, List.suffix_cons_iff, List.cons.injEq, true_and]
      by_cases hs : s = key
      · subst hs
        rw [if_pos rfl, drop_string hkey.2, if_pos (.inl rfl)]
      · rw [if_neg hs]
        simp [Ne.symm hs]
    · have hskip : afterFirst (needle key) (escapeByte c ++ (s.flatMap escapeByte ++ 34 :: rest)) =
          afterFirst (needle key) (s.flatMap escapeByte ++ 34 :: rest) :=
        afterFirst_skip (quote_notMem_escapeByte hc) _
      rw [List.flatMap_cons, List.append_assoc, hskip, ih]
      simp only [List.suffix_cons_iff, List.cons.injEq, Ne.symm hc, false_and, false_or]

/-- A string stops the search just when it misleads it. -/
theorem afterFirst_string (hkey : KeyName key) (hrest : ∀ c ∈ rest.head?, isKeyByte c = false) :
    afterFirst (needle key) (quote s ++ rest) =
      if Misleads key (.str s) then some rest else afterFirst (needle key) rest := by
  rw [show quote s ++ rest = 34 :: (s.flatMap escapeByte ++ 34 :: rest) by simp [quote],
    afterFirst_quote, afterFirst_inside hkey hrest]
  simp only [key_prefix_iff hkey.2, Misleads, List.suffix_cons_iff, List.cons.injEq, true_and]
  by_cases hs : s = key
  · subst hs
    rw [if_pos rfl, drop_string hkey.2, if_pos (.inl rfl)]
  · rw [if_neg hs]
    simp [Ne.symm hs]

end Search

/-! ## Searching an object -/

section Objects

variable {key : Bytes} {members : List (Bytes × Field)}

/-- Keys are key names and numbers are digits. -/
def Regular (members : List (Bytes × Field)) : Prop :=
  ∀ m ∈ members, KeyName m.1 ∧ ∀ text, m.2 = .raw text → Digits text

theorem printRest_head (members : List (Bytes × Field)) :
    ∀ c ∈ (printRest members).head?, isKeyByte c = false := by
  intro c hc
  cases members with
  | nil =>
    obtain rfl : 10 = c := Option.some.inj hc
    decide
  | cons m rest =>
    obtain rfl : 44 = c := Option.some.inj hc
    decide

/-- A key name misleads only for itself. -/
theorem misleads_name {name : Bytes} (hname : ∀ c ∈ name, isKeyByte c = true) :
    Misleads key (.str name) ↔ name = key := by
  simp only [Misleads, List.suffix_cons_iff, List.cons.injEq, true_and]
  constructor
  · rintro (heq | hsuffix)
    · exact heq.symm
    · exact absurd rfl (keyByte_cases (hname 34 (hsuffix.subset List.mem_cons_self))).1
  · exact fun heq => .inl heq.symm

theorem colon_notMem_quote {name : Bytes} (hname : ∀ c ∈ name, isKeyByte c = true) :
    58 ∉ quote name := by
  have hinside : 58 ∉ name.flatMap escapeByte := by
    intro hmem
    obtain ⟨c, hc, hmem⟩ := List.mem_flatMap.mp hmem
    rw [escapeByte_keyByte (hname c hc), List.mem_singleton] at hmem
    exact (keyByte_cases (hname c hc)).2.2.1 hmem.symm
  simp [quote, hinside]

theorem digit_cases {c : UInt8} (h : 48 ≤ c ∧ c ≤ 57) : c ≠ 34 ∧ c ≠ 32 ∧ c ≠ 9 := by
  refine ⟨?_, ?_, ?_⟩ <;> rintro rfl <;> exact absurd h (by decide)

/-- No value begins with a blank. -/
theorem dropWhile_print {field : Field} {rest : Bytes}
    (hfield : ∀ text, field = .raw text → Digits text) :
    (field.print ++ rest).dropWhile (fun c => c = 32 || c = 9) = field.print ++ rest := by
  cases field with
  | str s => rfl
  | raw text =>
    obtain ⟨hne, hdigits⟩ := hfield text rfl
    obtain ⟨c, more, rfl⟩ := List.exists_cons_of_ne_nil hne
    obtain ⟨-, h32, h9⟩ := digit_cases (hdigits c List.mem_cons_self)
    simp [Field.print, h32, h9]

/-- Behind the colon of the next member stands its value. -/
theorem afterFirst_colon {name : Bytes} (hname : ∀ c ∈ name, isKeyByte c = true) (field : Field)
    (rest : List (Bytes × Field)) : afterFirst [58] (printRest ((name, field) :: rest)) =
      some (field.print ++ printRest rest) := by
  have hskip : afterFirst [58] (printRest ((name, field) :: rest)) =
      afterFirst [58] (58 :: (field.print ++ printRest rest)) := by
    have hfront : 58 ∉ ascii ",\n" ++ (ascii "  " ++ quote name) := by
      simp only [List.mem_append, colon_notMem_quote hname, or_false]
      decide
    simpa [printRest, printMember] using
      afterFirst_skip hfront (58 :: (field.print ++ printRest rest))
  rw [hskip, afterFirst, if_pos ⟨_, rfl⟩]
  rfl

theorem afterFirst_members (hkey : KeyName key) {name : Bytes} {field : Field}
    {rest : List (Bytes × Field)} (hname : ∀ c ∈ name, isKeyByte c = true) :
    afterFirst (needle key) (printRest ((name, field) :: rest)) =
      if name = key then some (58 :: (field.print ++ printRest rest))
      else afterFirst (needle key) (field.print ++ printRest rest) := by
  have hskip : afterFirst (needle key) (printRest ((name, field) :: rest)) =
      afterFirst (needle key) (quote name ++ 58 :: (field.print ++ printRest rest)) := by
    have hfront : 34 ∉ ascii ",\n" ++ ascii "  " := by decide
    have h : afterFirst (needle key) (ascii ",\n" ++ ascii "  " ++
        (quote name ++ 58 :: (field.print ++ printRest rest))) =
        afterFirst (needle key) (quote name ++ 58 :: (field.print ++ printRest rest)) :=
      afterFirst_skip hfront _
    simpa [printRest, printMember] using h
  have hcolon : afterFirst (needle key) (58 :: (field.print ++ printRest rest)) =
      afterFirst (needle key) (field.print ++ printRest rest) :=
    afterFirst_skip (show 34 ∉ [58] by decide) _
  have hhead : ∀ c ∈ (58 :: (field.print ++ printRest rest)).head?, isKeyByte c = false := by
    intro c hc
    obtain rfl : 58 = c := Option.some.inj hc
    decide
  rw [hskip, afterFirst_string hkey hhead, hcolon]
  simp only [misleads_name hname]

/-- The text of a value is that of the member that is looked up. -/
theorem valueText_members (hkey : KeyName key) (hregular : Regular members) :
    valueText (printRest members) key =
      (lookUp key members).map fun found => found.1.print ++ printRest found.2 := by
  induction members with
  | nil =>
    have hnone : afterFirst (needle key) (printRest []) = none := by
      have h : afterFirst (needle key) (printRest [] ++ []) = afterFirst (needle key) [] :=
        afterFirst_skip (show 34 ∉ printRest [] by decide) []
      rw [List.append_nil] at h
      rw [h]
      rfl
    simp [valueText, hnone, lookUp]
  | cons m rest ih =>
    obtain ⟨name, field⟩ := m
    obtain ⟨⟨-, hname⟩, hfield⟩ := hregular _ List.mem_cons_self
    have hrest : Regular rest := fun m hm => hregular m (List.mem_cons_of_mem _ hm)
    have ih := ih hrest
    unfold valueText at ih ⊢
    rw [afterFirst_members hkey hname, lookUp]
    by_cases hsame : name = key
    · rw [if_pos hsame, if_pos hsame]
      have hcolon : afterFirst [58] (58 :: (field.print ++ printRest rest)) =
          some (field.print ++ printRest rest) := by
        rw [afterFirst, if_pos ⟨_, rfl⟩]
        rfl
      simp only [Option.bind_eq_bind, Option.bind_some, hcolon, Option.map_some]
      exact congrArg some (dropWhile_print hfield)
    · rw [if_neg hsame, if_neg hsame]
      cases field with
      | raw text =>
        have hskip : afterFirst (needle key) (Field.print (.raw text) ++ printRest rest) =
            afterFirst (needle key) (printRest rest) := by
          refine afterFirst_skip ?_ _
          intro hmem
          exact (digit_cases ((hfield text rfl).2 34 hmem)).1 rfl
        rw [hskip, if_neg (by simp [Misleads])]
        exact ih
      | str s =>
        rw [show Field.print (.str s) = quote s from rfl,
          afterFirst_string hkey (printRest_head rest)]
        by_cases hmisleads : Misleads key (.str s)
        · rw [if_pos hmisleads, if_pos hmisleads]
          cases rest with
          | nil => rfl
          | cons next more =>
            obtain ⟨⟨-, hname⟩, hfield⟩ := hrest _ List.mem_cons_self
            simp only [Option.bind_eq_bind, Option.bind_some, afterFirst_colon hname]
            exact congrArg some (dropWhile_print hfield)
        · rw [if_neg hmisleads, if_neg hmisleads]
          exact ih

theorem valueText_object (hkey : KeyName key) (hregular : Regular members) :
    valueText (printObject members) key =
      (lookUp key members).map fun found => found.1.print ++ printRest found.2 := by
  rw [← valueText_members hkey hregular]
  have hsame : afterFirst (needle key) (printObject members) =
      afterFirst (needle key) (printRest members) := by
    cases members with
    | nil =>
      have hskip : ∀ t, 34 ∉ t → afterFirst (needle key) t = none := by
        intro t ht
        have h : afterFirst (needle key) (t ++ []) = afterFirst (needle key) [] :=
          afterFirst_skip ht []
        rw [List.append_nil] at h
        rw [h]
        rfl
      rw [hskip (printObject []) (by decide), hskip (printRest []) (by decide)]
    | cons m rest =>
      have hskip : ∀ t, 34 ∉ t → afterFirst (needle key) (t ++ (printMember m ++ printRest rest)) =
          afterFirst (needle key) (printMember m ++ printRest rest) :=
        fun t ht => afterFirst_skip ht _
      rw [printObject, printRest, hskip _ (by decide), hskip _ (by decide)]
  unfold valueText
  rw [hsame]

/-! ## Reading a string back -/

theorem readString_cons {c : UInt8} {rest : Bytes} (hquote : c ≠ 34) (hescape : c ≠ 92) :
    readString (c :: rest) = c :: readString rest := by
  simp [readString, hescape]

theorem readString_escapeByte (c : UInt8) (rest : Bytes) :
    readString (escapeByte c ++ rest) = readString (escapeByte c) ++ readString rest := by
  have hhex : hexDigit (c / 16) ≠ 34 ∧ hexDigit (c / 16) ≠ 92 ∧ hexDigit (c % 16) ≠ 34 ∧
      hexDigit (c % 16) ≠ 92 :=
    forall_byte (P := fun c => hexDigit (c / 16) ≠ 34 ∧ hexDigit (c / 16) ≠ 92 ∧
      hexDigit (c % 16) ≠ 34 ∧ hexDigit (c % 16) ≠ 92) (by decide +kernel) c
  unfold escapeByte
  split
  · rename_i h
    rcases h with rfl | rfl <;> rfl
  · rename_i hplain
    obtain ⟨hquote, hescape⟩ := not_or.mp hplain
    split
    · rename_i h
      subst h
      rfl
    · split
      · rename_i h
        subst h
        rfl
      · split
        · rename_i h
          subst h
          rfl
        · split
          · obtain ⟨h1, h2, h3, h4⟩ := hhex
            simp [readString, h2, h4]
          · simp [readString_cons hquote hescape, readString]

theorem readString_quote (s rest : Bytes) :
    readString (s.flatMap escapeByte ++ 34 :: rest) = readBack s := by
  induction s with
  | nil => rfl
  | cons c s ih =>
    rw [List.flatMap_cons, List.append_assoc, readString_escapeByte, ih]
    rfl

theorem readBack_of_readable {s : Bytes} (h : ∀ c ∈ s, Readable c) : readBack s = s := by
  induction s with
  | nil => rfl
  | cons c s ih =>
    have hbyte : Readable c → readString (escapeByte c) = [c] :=
      forall_byte (P := fun c => Readable c → readString (escapeByte c) = [c])
        (by decide +kernel) c
    show readString (escapeByte c) ++ readBack s = c :: s
    rw [hbyte (h c List.mem_cons_self), ih fun d hd => h d (List.mem_cons_of_mem _ hd)]
    rfl

theorem readable_of_mem_readBack {s : Bytes} {c : UInt8} (h : c ∈ readBack s) : Readable c := by
  obtain ⟨d, -, hc⟩ := List.mem_flatMap.mp h
  have hbyte : ∀ c ∈ readString (escapeByte d), Readable c :=
    forall_byte (P := fun d => ∀ c ∈ readString (escapeByte d), Readable c) (by decide +kernel) d
  exact hbyte c hc

theorem mem_of_nextValue {found : Field × List (Bytes × Field)}
    (h : nextValue members = some found) : ∃ name, (name, found.1) ∈ members := by
  cases members with
  | nil => cases h
  | cons m rest =>
    obtain rfl : (m.2, rest) = found := Option.some.inj h
    exact ⟨m.1, List.mem_cons_self⟩

theorem mem_of_lookUp {found : Field × List (Bytes × Field)}
    (h : lookUp key members = some found) : ∃ name, (name, found.1) ∈ members := by
  induction members with
  | nil => cases h
  | cons m rest ih =>
    rw [lookUp] at h
    split at h
    · obtain rfl : (m.2, rest) = found := Option.some.inj h
      exact ⟨m.1, List.mem_cons_self⟩
    · split at h
      · obtain ⟨name, hmem⟩ := mem_of_nextValue h
        exact ⟨name, List.mem_cons_of_mem _ hmem⟩
      · obtain ⟨name, hmem⟩ := ih h
        exact ⟨name, List.mem_cons_of_mem _ hmem⟩

/-- The string that is found for a key. -/
theorem getString_object (hkey : KeyName key) (hregular : Regular members) :
    getString (printObject members) key =
      match lookUp key members with
      | some (.str s, _) => some (readBack s)
      | _ => none := by
  unfold getString
  rw [valueText_object hkey hregular]
  cases hfound : lookUp key members with
  | none => rfl
  | some found =>
    obtain ⟨field, rest⟩ := found
    cases field with
    | str s =>
      have hread := readString_quote s (printRest rest)
      simpa [Field.print, quote] using hread
    | raw text =>
      obtain ⟨name, hmem⟩ := mem_of_lookUp hfound
      obtain ⟨hne, hdigits⟩ := (hregular _ hmem).2 text rfl
      obtain ⟨c, more, rfl⟩ := List.exists_cons_of_ne_nil hne
      have hquote := (digit_cases (hdigits c List.mem_cons_self)).1
      simp [Field.print, hquote]

/-- What is found reads back as the value just when the value can be read back and no string
before its key stands in the way. -/
theorem lookUp_iff {value : Bytes} (hmem : (key, .str value) ∈ members)
    (hnodup : (members.map Prod.fst).Nodup) :
    (∃ s rest, lookUp key members = some (.str s, rest) ∧ readBack s = value) ↔
      (∀ c ∈ value, Readable c) ∧ Undisturbed key value members := by
  induction members with
  | nil => cases hmem
  | cons m members ih =>
    obtain ⟨name, field⟩ := m
    obtain ⟨hname, hnodup⟩ := List.nodup_cons.mp hnodup
    rw [lookUp]
    by_cases hkey : name = key
    · subst hkey
      have hfield : field = .str value := by
        rcases List.mem_cons.mp hmem with heq | hmem
        · exact (Prod.mk.inj heq).2.symm
        · exact absurd (List.mem_map_of_mem hmem) hname
      subst hfield
      rw [if_pos rfl]
      constructor
      · rintro ⟨s, rest, hfound, hread⟩
        refine ⟨fun c hc => readable_of_mem_readBack (hread ▸ hc), ?_⟩
        intro before other field next after hsplit hbefore hother _
        cases before with
        | nil => exact absurd (Prod.mk.inj (List.cons.inj hsplit).1).1.symm hother
        | cons b before =>
          obtain rfl := (List.cons.inj hsplit).1
          exact absurd rfl (hbefore _ List.mem_cons_self).1
      · rintro ⟨hreadable, -⟩
        exact ⟨value, members, rfl, readBack_of_readable hreadable⟩
    · have hmem : (key, .str value) ∈ members := by
        rcases List.mem_cons.mp hmem with heq | hmem
        · exact absurd (Prod.mk.inj heq).1.symm hkey
        · exact hmem
      rw [if_neg hkey]
      by_cases hmisleads : Misleads key field
      · obtain ⟨next, after, rfl⟩ := List.exists_cons_of_ne_nil (List.ne_nil_of_mem hmem)
        rw [if_pos hmisleads, nextValue]
        constructor
        · rintro ⟨s, rest, hfound, hread⟩
          refine ⟨fun c hc => readable_of_mem_readBack (hread ▸ hc), ?_⟩
          intro before other field' next' after' hsplit hbefore hother _
          cases before with
          | nil =>
            obtain ⟨-, hsplit⟩ := List.cons.inj hsplit
            obtain ⟨rfl, -⟩ := List.cons.inj hsplit
            exact ⟨s, (Prod.mk.inj (Option.some.inj hfound)).1, hread⟩
          | cons b before =>
            obtain rfl := (List.cons.inj hsplit).1
            exact absurd hmisleads (hbefore _ List.mem_cons_self).2
        · rintro ⟨-, hundisturbed⟩
          obtain ⟨s, hs, hread⟩ :=
            hundisturbed [] name field next after rfl (by simp) hkey hmisleads
          exact ⟨s, after, by rw [← hs], hread⟩
      · rw [if_neg hmisleads, ih hmem hnodup]
        refine and_congr_right fun _ => ⟨?_, ?_⟩
        · intro hundisturbed before other field' next after hsplit hbefore hother hmisleads'
          cases before with
          | nil =>
            obtain ⟨heq, -⟩ := List.cons.inj hsplit
            rw [(Prod.mk.inj heq).2] at hmisleads
            exact absurd hmisleads' hmisleads
          | cons b before =>
            exact hundisturbed before other field' next after (List.cons.inj hsplit).2
              (fun m hm => hbefore m (List.mem_cons_of_mem _ hm)) hother hmisleads'
        · intro hundisturbed before other field' next after hsplit hbefore hother hmisleads'
          refine hundisturbed ((name, field) :: before) other field' next after
            (by rw [hsplit]; rfl) ?_ hother hmisleads'
          intro m hm
          rcases List.mem_cons.mp hm with rfl | hm
          · exact ⟨hkey, hmisleads⟩
          · exact hbefore m hm

/-- The value of a key is found in an object just when it can be read back and no string before
its key stands in the way. -/
theorem getString_iff {value : Bytes} (hkey : KeyName key) (hregular : Regular members)
    (hmem : (key, .str value) ∈ members) (hnodup : (members.map Prod.fst).Nodup) :
    getString (printObject members) key = some value ↔
      (∀ c ∈ value, Readable c) ∧ Undisturbed key value members := by
  rw [← lookUp_iff hmem hnodup, getString_object hkey hregular]
  constructor
  · intro h
    split at h
    · rename_i s rest hfound
      exact ⟨s, rest, hfound, Option.some.inj h⟩
    · cases h
  · rintro ⟨s, rest, hfound, rfl⟩
    rw [hfound]

/-- Where no string misleads, a key finds its own member. -/
theorem lookUp_of_clear {value : Bytes} (hmem : (key, .str value) ∈ members)
    (hnodup : (members.map Prod.fst).Nodup) (hclear : ∀ m ∈ members, m.1 ≠ key → ¬Misleads key m.2) :
    ∃ rest, lookUp key members = some (.str value, rest) := by
  induction members with
  | nil => cases hmem
  | cons m members ih =>
    obtain ⟨hname, hnodup⟩ := List.nodup_cons.mp hnodup
    rw [lookUp]
    rcases List.mem_cons.mp hmem with rfl | hmem
    · exact ⟨members, if_pos rfl⟩
    · have hkey : m.1 ≠ key := by
        intro heq
        exact hname (heq ▸ List.mem_map_of_mem (f := Prod.fst) hmem)
      rw [if_neg hkey, if_neg (hclear m List.mem_cons_self hkey)]
      exact ih hmem hnodup fun m hm => hclear m (List.mem_cons_of_mem _ hm)

end Objects

end QStar.Lib.TextualKeys
