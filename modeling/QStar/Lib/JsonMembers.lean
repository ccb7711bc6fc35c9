import QStar.Lib.Bindings
import QStar.Lib.JsonReader

/-!
# Where the members of a JSON text stand

A path leads through a value by the names of members and to the last items of
arrays. The same path leads through the text the value was read from: to the text
behind the name of a member, with the fuel the reader has left there. What is read
at that place is what the path finds in the value.
-/
namespace QStar.Lib.JsonMembers

open QStar.Lib.Bindings
open QStar.Lib.CStrings
open QStar.Lib.JsonReader

inductive Step where
  | member (name : Bytes)
  | lastItem
  deriving DecidableEq

/-- What the path leads to in a value. -/
def follow : List Step → Value → Option Value
  | [], v => some v
  | .member name :: path, .obj members => (members.lookup name).bind (follow path)
  | .lastItem :: path, .arr items => items.getLast?.bind (follow path)
  | _ :: _, _ => none

/-- From behind the brace of an object: the text behind the name of a member. -/
def seekMember (name : Bytes) : Nat → Bytes → Option (Nat × Bytes)
  | 0, _ => none
  | fuel + 1, text =>
    match token 34 text with
    | none => none
    | some text =>
      match readString .plain text with
      | none => none
      | some (key, text) =>
        if key = name then some (fuel, text)
        else
          match token 58 text with
          | none => none
          | some text =>
            match readValue fuel text with
            | none => none
            | some (_, text) => (token 44 text).bind (seekMember name fuel)

/-- From behind the bracket of an array: the text of its last item. -/
def seekLast : Nat → Bytes → Option (Nat × Bytes)
  | 0, _ => none
  | fuel + 1, text =>
    match readValue fuel text with
    | none => none
    | some (_, rest) =>
      match token 44 rest with
      | some rest => seekLast fuel rest
      | none => some (fuel, text)

/-- The text of the value that the path leads to. -/
def valueText : List Step → Nat × Bytes → Option (Nat × Bytes)
  | [], start => some start
  | .member name :: path, (fuel, text) =>
    match token 123 text with
    | none => none
    | some text =>
      match seekMember name (fuel - 1) text with
      | none => none
      | some (fuel, text) => (token 58 text).bind fun text => valueText path (fuel, text)
  | .lastItem :: path, (fuel, text) =>
    match token 91 text with
    | none => none
    | some text =>
      if (token 93 text).isSome then none else (seekLast (fuel - 1) text).bind (valueText path)

/-- The text behind the name of the member in the object that the path leads to. -/
def nameText (path : List Step) (name : Bytes) (start : Nat × Bytes) : Option (Nat × Bytes) :=
  (valueText path start).bind fun found =>
    (token 123 found.2).bind fun text => seekMember name (found.1 - 1) text

/-- What follows a value in an object. -/
def Closed (text : Bytes) : Prop := (token 44 text).isSome ∨ (token 125 text).isSome

/-- A place in a text where a member has its name and its value. -/
structure MemberAt (fuel : Nat) (text : Bytes) (w : Value) (value rest : Bytes) : Prop where
  colon : token 58 text = some value
  reads : readValue fuel value = some (w, rest)
  closed : Closed rest

theorem seekMember_spec {fuel : Nat} {text rest : Bytes} {members : List (Bytes × Value)}
    (h : readMembers fuel text = some (members, rest)) (name : Bytes) :
    match members.lookup name with
    | some w => ∃ fuel' found value rest', seekMember name fuel text = some (fuel', found) ∧
        MemberAt fuel' found w value rest'
    | none => seekMember name fuel text = none := by
  induction fuel generalizing text members rest with
  | zero => cases h
  | succ fuel ih =>
    rw [readMembers] at h
    obtain ⟨text₁, hquote, h⟩ := Option.bind_eq_some_iff.mp h
    obtain ⟨⟨key, text₂⟩, hkey, h⟩ := Option.bind_eq_some_iff.mp h
    obtain ⟨text₃, hcolon, h⟩ := Option.bind_eq_some_iff.mp h
    obtain ⟨⟨v, text₄⟩, hvalue, h⟩ := Option.bind_eq_some_iff.mp h
    dsimp only at h hvalue hcolon
    have hseek : seekMember name (fuel + 1) text =
        if key = name then some (fuel, text₂) else (token 44 text₄).bind (seekMember name fuel) := by
      rw [seekMember, hquote]
      simp only [hkey, hcolon, hvalue]
    rw [hseek]
    split at h
    · rename_i text₅ hcomma
      obtain ⟨⟨others, rest'⟩, hothers, heq⟩ := Option.map_eq_some_iff.mp h
      cases heq
      by_cases hname : key = name
      · subst hname
        rw [List.lookup_cons_self]
        exact ⟨fuel, text₂, text₃, text₄, if_pos rfl, hcolon, hvalue, .inl (by rw [hcomma]; rfl)⟩
      · rw [lookup_cons_ne hname, if_neg hname, hcomma, Option.bind_some]
        exact ih hothers
    · rename_i hcomma
      obtain ⟨rest', hclose, heq⟩ := Option.map_eq_some_iff.mp h
      cases heq
      by_cases hname : key = name
      · subst hname
        rw [List.lookup_cons_self]
        exact ⟨fuel, text₂, text₃, text₄, if_pos rfl, hcolon, hvalue, .inr (by rw [hclose]; rfl)⟩
      · rw [lookup_cons_ne hname, if_neg hname, hcomma]
        rfl

theorem seekLast_spec {fuel : Nat} {text rest : Bytes} {items : List Value}
    (h : readItems fuel text = some (items, rest)) :
    ∃ fuel' found w rest', items.getLast? = some w ∧ seekLast fuel text = some (fuel', found) ∧
      readValue fuel' found = some (w, rest') := by
  induction fuel generalizing text items rest with
  | zero => cases h
  | succ fuel ih =>
    rw [readItems] at h
    obtain ⟨⟨v, text₁⟩, hvalue, h⟩ := Option.bind_eq_some_iff.mp h
    dsimp only at h hvalue
    have hseek : seekLast (fuel + 1) text =
        match token 44 text₁ with
        | some rest => seekLast fuel rest
        | none => some (fuel, text) := by
      rw [seekLast, hvalue]
    split at h
    · rename_i text₂ hcomma
      obtain ⟨⟨others, rest'⟩, hothers, heq⟩ := Option.map_eq_some_iff.mp h
      cases heq
      obtain ⟨fuel', found, w, rest'', hlast, hfound, hread⟩ := ih hothers
      refine ⟨fuel', found, w, rest'', ?_, ?_, hread⟩
      · rw [List.getLast?_cons, hlast]
        rfl
      · simp only [hseek, hcomma, hfound]
    · rename_i hcomma
      obtain ⟨rest', -, heq⟩ := Option.map_eq_some_iff.mp h
      cases heq
      exact ⟨fuel, text, v, text₁, rfl, by simp only [hseek, hcomma], hvalue⟩

/-- A text goes on with one byte behind its blanks. -/
theorem token_ne_of_token {c d : UInt8} {text rest : Bytes} (h : token c text = some rest) (hne : d ≠ c) :
    token d text = none := by
  unfold token at h ⊢
  split at h
  · cases h
  · split at h
    · rename_i e tail _ heq
      rw [heq]
      exact if_neg (Ne.symm hne)
    · cases h

/-- A word or a number: what is read behind the blanks. -/
def Atomic : Value → Prop
  | .str _ | .arr _ | .obj _ => False
  | _ => True

theorem readWord_eq_some {word text rest : Bytes} {v w : Value}
    (h : readWord word w text = some (v, rest)) : v = w ∧ text = word ++ rest := by
  unfold readWord at h
  split at h
  · rename_i hprefix
    obtain ⟨tail, rfl⟩ := hprefix
    rw [List.drop_left] at h
    cases h
    exact ⟨rfl, rfl⟩
  · cases h

theorem readNumber_eq_some {text rest : Bytes} {v : Value} (h : readNumber text = some (v, rest)) :
    v = .num (text.takeWhile isNumberByte) ∧ rest = text.dropWhile isNumberByte ∧
      text.takeWhile isNumberByte ≠ [] := by
  unfold readNumber at h
  dsimp only at h
  split at h
  · rename_i spot hspot
    split at h
    · rename_i haccepts
      cases h
      refine ⟨rfl, rfl, ?_⟩
      intro hempty
      rw [hempty] at hspot
      cases hspot
      cases haccepts
    · cases h
  · cases h

/-- One of the three words, or a number. -/
theorem readAtom_cases {text rest : Bytes} {v : Value} (h : readAtom text = some (v, rest)) :
    (v = .null ∧ text = ascii "null" ++ rest) ∨ (∃ b, v = .bool b) ∨
      (v = .num (text.takeWhile isNumberByte) ∧ rest = text.dropWhile isNumberByte ∧
        text.takeWhile isNumberByte ≠ []) := by
  unfold readAtom at h
  rcases Option.or_eq_some_iff.mp h with h | ⟨-, h⟩
  · exact .inl (readWord_eq_some h)
  rcases Option.or_eq_some_iff.mp h with h | ⟨-, h⟩
  · exact .inr (.inl ⟨true, (readWord_eq_some h).1⟩)
  rcases Option.or_eq_some_iff.mp h with h | ⟨-, h⟩
  · exact .inr (.inl ⟨false, (readWord_eq_some h).1⟩)
  · exact .inr (.inr (readNumber_eq_some h))

theorem atomic_of_readAtom {text rest : Bytes} {v : Value} (h : readAtom text = some (v, rest)) : Atomic v := by
  rcases readAtom_cases h with ⟨rfl, -⟩ | ⟨b, rfl⟩ | ⟨rfl, -⟩ <;> exact trivial

/-- What a text starts with tells the kind of value that is read of it. -/
theorem readValue_cases {fuel : Nat} {text rest : Bytes} {v : Value}
    (h : readValue fuel text = some (v, rest)) :
    (∃ inner s, token 34 text = some inner ∧ readString .plain inner = some (s, rest) ∧ v = .str s) ∨
    (∃ inner, token 91 text = some inner ∧ ∃ items, v = .arr items) ∨
    (∃ inner, token 123 text = some inner ∧ ∃ members, v = .obj members) ∨
    (token 34 text = none ∧ token 91 text = none ∧ token 123 text = none ∧
      readAtom (text.dropWhile isBlank) = some (v, rest)) := by
  cases fuel with
  | zero => cases h
  | succ fuel =>
    rw [readValue] at h
    split at h
    · rename_i inner hquote
      obtain ⟨⟨s, rest'⟩, hread, heq⟩ := Option.map_eq_some_iff.mp h
      cases heq
      exact .inl ⟨inner, s, hquote, hread, rfl⟩
    · rename_i hquote
      split at h
      · rename_i inner hbracket
        refine .inr (.inl ⟨inner, hbracket, ?_⟩)
        split at h
        · cases h
          exact ⟨[], rfl⟩
        · obtain ⟨⟨items, rest'⟩, -, heq⟩ := Option.map_eq_some_iff.mp h
          cases heq
          exact ⟨items, rfl⟩
      · rename_i hbracket
        split at h
        · rename_i inner hbrace
          refine .inr (.inr (.inl ⟨inner, hbrace, ?_⟩))
          split at h
          · cases h
            exact ⟨[], rfl⟩
          · obtain ⟨⟨members, rest'⟩, -, heq⟩ := Option.map_eq_some_iff.mp h
            cases heq
            exact ⟨members, rfl⟩
        · rename_i hbrace
          exact .inr (.inr (.inr ⟨hquote, hbracket, hbrace, h⟩))

theorem readValue_str {fuel : Nat} {text rest s : Bytes} (h : readValue fuel text = some (.str s, rest)) :
    ∃ inner, token 34 text = some inner ∧ readString .plain inner = some (s, rest) := by
  rcases readValue_cases h with ⟨inner, s', hquote, hread, heq⟩ | ⟨-, -, items, heq⟩
    | ⟨-, -, members, heq⟩ | ⟨-, -, -, hatom⟩
  · cases heq
    exact ⟨inner, hquote, hread⟩
  · cases heq
  · cases heq
  · exact absurd (atomic_of_readAtom hatom) id

theorem readValue_atomic {fuel : Nat} {text rest : Bytes} {v : Value} (hv : Atomic v)
    (h : readValue fuel text = some (v, rest)) : readAtom (text.dropWhile isBlank) = some (v, rest) := by
  rcases readValue_cases h with ⟨-, s, -, -, rfl⟩ | ⟨-, -, items, rfl⟩ | ⟨-, -, members, rfl⟩ | ⟨-, -, -, hatom⟩
  · exact absurd hv id
  · exact absurd hv id
  · exact absurd hv id
  · exact hatom

/-- A number is the number bytes the text starts with. -/
theorem readAtom_num {text rest t : Bytes} (h : readAtom text = some (.num t, rest)) :
    t = text.takeWhile isNumberByte ∧ rest = text.dropWhile isNumberByte ∧ t ≠ [] := by
  rcases readAtom_cases h with ⟨heq, -⟩ | ⟨b, heq⟩ | ⟨heq, hrest, hne⟩
  · cases heq
  · cases heq
  · cases heq
    exact ⟨rfl, hrest, hne⟩

theorem readAtom_null {text rest : Bytes} (h : readAtom text = some (.null, rest)) :
    text = ascii "null" ++ rest := by
  rcases readAtom_cases h with ⟨-, htext⟩ | ⟨b, heq⟩ | ⟨heq, -⟩
  · exact htext
  · cases heq
  · cases heq

/-- An object is read from behind its brace, or is empty. -/
theorem readValue_brace {fuel : Nat} {text rest inner : Bytes} {v : Value}
    (h : readValue fuel text = some (v, rest)) (hbrace : token 123 text = some inner) :
    (∃ rest', token 125 inner = some rest' ∧ v = .obj []) ∨
      ∃ members, readMembers (fuel - 1) inner = some (members, rest) ∧ v = .obj members := by
  cases fuel with
  | zero => cases h
  | succ fuel =>
    rw [readValue, token_ne_of_token hbrace (by decide)] at h
    simp only [token_ne_of_token hbrace (show (91 : UInt8) ≠ 123 by decide), hbrace] at h
    split at h
    · rename_i rest' hclose
      cases h
      exact .inl ⟨rest, hclose, rfl⟩
    · obtain ⟨⟨members, rest'⟩, hmembers, heq⟩ := Option.map_eq_some_iff.mp h
      cases heq
      exact .inr ⟨members, hmembers, rfl⟩

theorem readValue_bracket {fuel : Nat} {text rest inner : Bytes} {v : Value}
    (h : readValue fuel text = some (v, rest)) (hbracket : token 91 text = some inner) :
    (token 93 inner = some rest ∧ v = .arr []) ∨
      ∃ items, token 93 inner = none ∧ readItems (fuel - 1) inner = some (items, rest) ∧ v = .arr items := by
  cases fuel with
  | zero => cases h
  | succ fuel =>
    rw [readValue, token_ne_of_token hbracket (by decide)] at h
    simp only [hbracket] at h
    split at h
    · rename_i rest' hclose
      cases h
      exact .inl ⟨hclose, rfl⟩
    · rename_i hclose
      obtain ⟨⟨items, rest'⟩, hitems, heq⟩ := Option.map_eq_some_iff.mp h
      cases heq
      exact .inr ⟨items, hclose, hitems, rfl⟩

/-- What does not start with a bracket or a brace is no array and no object. -/
theorem readValue_plain {fuel : Nat} {text rest : Bytes} {v : Value}
    (h : readValue fuel text = some (v, rest)) :
    (token 123 text = none → ∀ members, v ≠ .obj members) ∧
      (token 91 text = none → ∀ items, v ≠ .arr items) := by
  rcases readValue_cases h with ⟨-, s, -, -, rfl⟩ | ⟨inner, hopen, items, rfl⟩ | ⟨inner, hopen, members, rfl⟩
    | ⟨-, -, -, hatom⟩
  · exact ⟨nofun, nofun⟩
  · exact ⟨nofun, fun hnone => absurd (hnone.symm.trans hopen) (by simp)⟩
  · exact ⟨fun hnone => absurd (hnone.symm.trans hopen) (by simp), nofun⟩
  · have hv := atomic_of_readAtom hatom
    constructor
    · rintro - members rfl
      exact hv
    · rintro - items rfl
      exact hv

/-- A member is found in an object just when the object has it. -/
theorem member_spec {fuel : Nat} {text rest : Bytes} {v : Value}
    (h : readValue fuel text = some (v, rest)) (name : Bytes) :
    match follow [.member name] v with
    | some w => ∃ inner fuel' found value rest', token 123 text = some inner ∧
        seekMember name (fuel - 1) inner = some (fuel', found) ∧ MemberAt fuel' found w value rest'
    | none => ((token 123 text).bind fun inner => seekMember name (fuel - 1) inner) = none := by
  cases hbrace : token 123 text with
  | none =>
    have hno := (readValue_plain h).1 hbrace
    cases v with
    | obj members => exact absurd rfl (hno members)
    | _ => rfl
  | some inner =>
    rcases readValue_brace h hbrace with ⟨rest', hclose, rfl⟩ | ⟨members, hmembers, rfl⟩
    · show seekMember name (fuel - 1) inner = none
      cases fuel - 1 with
      | zero => rfl
      | succ fuel' => rw [seekMember, token_ne_of_token hclose (by decide)]
    · have hspec := seekMember_spec hmembers name
      cases hlookup : members.lookup name with
      | none =>
        rw [hlookup] at hspec
        simp only [follow, hlookup, Option.bind_none]
        exact hspec
      | some w =>
        rw [hlookup] at hspec
        obtain ⟨fuel', found, value, rest', hseek, hat⟩ := hspec
        simp only [follow, hlookup, Option.bind_some]
        exact ⟨inner, fuel', found, value, rest', rfl, hseek, hat⟩

theorem follow_cons (step : Step) (path : List Step) (v : Value) :
    follow (step :: path) v = (follow [step] v).bind (follow path) := by
  cases step with
  | member name =>
    cases v with
    | obj members =>
      simp only [follow]
      cases members.lookup name <;> rfl
    | _ => rfl
  | lastItem =>
    cases v with
    | arr items =>
      simp only [follow]
      cases items.getLast? <;> rfl
    | _ => rfl

theorem follow_append (path path' : List Step) (v : Value) :
    follow (path ++ path') v = (follow path v).bind (follow path') := by
  induction path generalizing v with
  | nil => rfl
  | cons step path ih =>
    rw [List.cons_append, follow_cons, follow_cons step path]
    cases follow [step] v with
    | none => rfl
    | some w => exact ih w

/-- The text that a path leads to is that of the value it leads to. -/
theorem valueText_spec {fuel : Nat} {text rest : Bytes} {v : Value}
    (h : readValue fuel text = some (v, rest)) (path : List Step) :
    match follow path v with
    | some w => ∃ found rest', valueText path (fuel, text) = some found ∧
        readValue found.1 found.2 = some (w, rest')
    | none => valueText path (fuel, text) = none := by
  induction path generalizing fuel text rest v with
  | nil => exact ⟨(fuel, text), rest, rfl, h⟩
  | cons step path ih =>
    rw [follow_cons]
    cases step with
    | member name =>
      have hspec := member_spec h name
      cases hfollow : follow [.member name] v with
      | none =>
        rw [hfollow] at hspec
        rw [Option.bind_none, valueText]
        cases hbrace : token 123 text with
        | none => rfl
        | some inner =>
          rw [hbrace, Option.bind_some] at hspec
          simp only [hspec]
      | some w =>
        rw [hfollow] at hspec
        obtain ⟨inner, fuel', found, value, rest', hbrace, hseek, hat⟩ := hspec
        have hnext : valueText (.member name :: path) (fuel, text) = valueText path (fuel', value) := by
          rw [valueText, hbrace]
          simp only [hseek, hat.colon, Option.bind_some]
        rw [Option.bind_some, hnext]
        exact ih hat.reads
    | lastItem =>
      cases hbracket : token 91 text with
      | none =>
        have hno := (readValue_plain h).2 hbracket
        have hnone : follow [.lastItem] v = none := by
          cases v with
          | arr items => exact absurd rfl (hno items)
          | _ => rfl
        rw [hnone, Option.bind_none, valueText, hbracket]
      | some inner =>
        rcases readValue_bracket h hbracket with ⟨hclose, rfl⟩ | ⟨items, hopen, hitems, rfl⟩
        · simp [follow, valueText, hbracket, hclose]
        · obtain ⟨fuel', found, w, rest', hlast, hseek, hread⟩ := seekLast_spec hitems
          have hnext : valueText (.lastItem :: path) (fuel, text) = valueText path (fuel', found) := by
            rw [valueText, hbracket]
            simp [hopen, hseek]
          rw [hnext]
          simp only [follow, hlast, Option.bind_some]
          exact ih hread

/-- The name of a member stands where the path leads to just when the value has the member. -/
theorem nameText_spec {fuel : Nat} {text rest : Bytes} {v : Value}
    (h : readValue fuel text = some (v, rest)) (path : List Step) (name : Bytes) :
    match follow (path ++ [.member name]) v with
    | some w => ∃ found value rest', nameText path name (fuel, text) = some found ∧
        MemberAt found.1 found.2 w value rest'
    | none => nameText path name (fuel, text) = none := by
  rw [follow_append]
  have hspec := valueText_spec h path
  cases hpath : follow path v with
  | none =>
    rw [hpath] at hspec
    rw [Option.bind_none, nameText, hspec]
    rfl
  | some o =>
    rw [hpath] at hspec
    obtain ⟨found, rest', hfound, hread⟩ := hspec
    have hmember := member_spec hread name
    rw [Option.bind_some, nameText, hfound, Option.bind_some]
    cases hw : follow [.member name] o with
    | none =>
      rw [hw] at hmember
      cases hbrace : token 123 found.2 with
      | none => rfl
      | some inner =>
        rw [hbrace, Option.bind_some] at hmember
        rw [Option.bind_some, hmember]
    | some w =>
      rw [hw] at hmember
      obtain ⟨inner, fuel', text', value, rest'', hbrace, hseek, hat⟩ := hmember
      refine ⟨(fuel', text'), value, rest'', ?_, hat⟩
      rw [hbrace, Option.bind_some, hseek]

end QStar.Lib.JsonMembers
