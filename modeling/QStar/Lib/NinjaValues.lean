import QStar.Lib.NinjaFiles

/-!
# The values of Ninja variables

What Ninja makes of the text behind a binding: escapes stand for their byte and
references for the value of their variable. A writer that doubles each dollar gets
its text back. A writer that does not gets it back only if there was no dollar: a
reference takes its dollar away, and a value that puts one there puts something
there that no reference is made of.
-/
namespace QStar.Lib.NinjaValues

open QStar.Lib.CStrings
open QStar.Lib.NinjaFiles

/-- Where a reader stands, with the name it is in. -/
inductive State where
  | text
  | dollar
  | name (n : Bytes)
  | brace (n : Bytes)

/-- A byte outside of escapes. -/
def textStep (c : UInt8) : Option (Bytes × State) :=
  if c = 36 then some ([], .dollar) else if c = 10 ∨ c = 13 then none else some ([c], .text)

/-- One byte, with what the value gets from it. -/
def State.next (vars : Bytes → Bytes) : State → UInt8 → Option (Bytes × State)
  | .text, c => textStep c
  | .dollar, c =>
    if c = 32 ∨ c = 58 ∨ c = 36 then some ([c], .text)
    else if nameByte c = true then some ([], .name [c])
    else if c = 123 then some ([], .brace [])
    else none
  | .name n, c =>
    if nameByte c = true then some ([], .name (n ++ [c]))
    else (textStep c).map fun r => (vars n ++ r.1, r.2)
  | .brace n, c =>
    if nameByte c = true ∨ c = 46 then some ([], .brace (n ++ [c]))
    else if c = 125 ∧ n ≠ [] then some (vars n, .text)
    else none

/-- The end of a value. -/
def State.close (vars : Bytes → Bytes) : State → Option Bytes
  | .text => some []
  | .name n => some (vars n)
  | _ => none

def evalFrom (vars : Bytes → Bytes) : State → Bytes → Option Bytes
  | s, [] => s.close vars
  | s, c :: rest =>
    match s.next vars c with
    | none => none
    | some (out, s) => (evalFrom vars s rest).map (out ++ ·)

/-- The value of a text; `none` where Ninja refuses it or the line ends within it. -/
def eval (vars : Bytes → Bytes) (text : Bytes) : Option Bytes := evalFrom vars .text text

variable {vars : Bytes → Bytes}

/-! ## Texts that are read -/

/-- A text is read as another one, whatever follows it. -/
def Evaluates (vars : Bytes → Bytes) (text value : Bytes) : Prop :=
  ∀ rest, evalFrom vars .text (text ++ rest) = (evalFrom vars .text rest).map (value ++ ·)

theorem Evaluates.nil : Evaluates vars [] [] := by
  intro rest
  simp

theorem Evaluates.append {a b v w : Bytes} (ha : Evaluates vars a v) (hb : Evaluates vars b w) :
    Evaluates vars (a ++ b) (v ++ w) := by
  intro rest
  rw [List.append_assoc, ha, hb, Option.map_map]
  congr 1
  funext r
  simp

theorem Evaluates.eval {text value : Bytes} (h : Evaluates vars text value) :
    eval vars text = some value := by
  have hall := h []
  rw [List.append_nil] at hall
  rw [NinjaValues.eval, hall]
  simp [evalFrom, State.close]

/-- A byte that is itself. -/
theorem evaluates_byte {c : UInt8} (h : c ≠ 36 ∧ c ≠ 10 ∧ c ≠ 13) : Evaluates vars [c] [c] := by
  intro rest
  have hnext : State.next vars .text c = some ([c], .text) := by
    simp [State.next, textStep, h.1, h.2.1, h.2.2]
  rw [List.singleton_append, evalFrom, hnext]

theorem evaluates_dollars : Evaluates vars [36, 36] [36] := by
  intro rest
  have hfirst : State.next vars .text 36 = some ([], .dollar) := rfl
  have hsecond : State.next vars .dollar 36 = some ([36], .text) := rfl
  rw [show [36, 36] ++ rest = 36 :: 36 :: rest from rfl, evalFrom, hfirst]
  dsimp only
  rw [evalFrom, hsecond]
  dsimp only
  rw [Option.map_map]
  congr 1

/-- A text in pieces that are read. -/
theorem evaluates_flatMap {α : Type} {f g : α → Bytes} {items : List α}
    (h : ∀ x ∈ items, Evaluates vars (f x) (g x)) :
    Evaluates vars (items.flatMap f) (items.flatMap g) := by
  induction items with
  | nil => exact .nil
  | cons x rest ih =>
    rw [List.flatMap_cons, List.flatMap_cons]
    exact (h x List.mem_cons_self).append (ih fun y hy => h y (List.mem_cons_of_mem _ hy))

/-- A text without dollars and line breaks is itself. -/
theorem evaluates_plain {text : Bytes} (h : ∀ c ∈ text, c ≠ 36 ∧ c ≠ 10 ∧ c ≠ 13) :
    Evaluates vars text text := by
  have hall : Evaluates vars (text.flatMap fun c => [c]) (text.flatMap fun c => [c]) :=
    evaluates_flatMap fun c hc => evaluates_byte (h c hc)
  simpa using hall

/-! ## Values and readable texts -/

/-- What a reader of values stands in where this one does. -/
def State.shape : State → ValueState
  | .text => .text
  | .dollar => .dollar
  | .name _ => .text
  | .brace n => .brace (n != [])

theorem nameByte_ne {c : UInt8} (h : nameByte c = true) : c ≠ 36 ∧ c ≠ 10 ∧ c ≠ 13 := by
  refine ⟨?_, ?_, ?_⟩
  · rintro rfl
    cases h
  · rintro rfl
    cases h
  · rintro rfl
    cases h

theorem shape_next (s : State) (c : UInt8) :
    (s.next vars c).map (fun r => r.2.shape) = valueStep s.shape c := by
  cases s with
  | text =>
    simp only [State.next, textStep, State.shape, valueStep]
    split
    · rfl
    · split
      · rfl
      · rfl
  | dollar =>
    simp only [State.next, State.shape, valueStep]
    by_cases hself : c = 32 ∨ c = 58 ∨ c = 36
    · rw [if_pos hself, if_pos (by tauto)]
      rfl
    · rw [if_neg hself]
      by_cases hname : nameByte c = true
      · rw [if_pos hname, if_pos (by tauto)]
        rfl
      · have hneither : ¬(c = 32 ∨ c = 58 ∨ c = 36 ∨ nameByte c = true) := by tauto
        rw [if_neg hname, if_neg hneither]
        split
        · rfl
        · rfl
  | name n =>
    simp only [State.next, State.shape, valueStep, textStep]
    by_cases hname : nameByte c = true
    · obtain ⟨hdollar, hnewline, hreturn⟩ := nameByte_ne hname
      rw [if_pos hname, if_neg hdollar, if_neg (by tauto)]
      rfl
    · rw [if_neg hname]
      split
      · rfl
      · split
        · rfl
        · rfl
  | brace n =>
    simp only [State.next, State.shape, valueStep]
    split
    · simp
    · by_cases hclose : c = 125 ∧ n ≠ []
      · have hsame : c = 125 ∧ (n != []) = true := ⟨hclose.1, bne_iff_ne.mpr hclose.2⟩
        rw [if_pos hclose, if_pos hsame]
        rfl
      · have hsame : ¬(c = 125 ∧ (n != []) = true) := fun h => hclose ⟨h.1, bne_iff_ne.mp h.2⟩
        rw [if_neg hclose, if_neg hsame]
        rfl

/-- The texts that have a value are those that can be read as one. -/
theorem eval_isSome (vars : Bytes → Bytes) (text : Bytes) :
    (eval vars text).isSome = true ↔ IsValue text := by
  have hstates : ∀ s : State, (evalFrom vars s text).isSome = true ↔
      readValue s.shape text = some .text := by
    induction text with
    | nil =>
      intro s
      cases s with
      | text => simp [evalFrom, State.close, readValue, State.shape]
      | dollar => simp [evalFrom, State.close, readValue, State.shape]
      | name n => simp [evalFrom, State.close, readValue, State.shape]
      | brace n => simp [evalFrom, State.close, readValue, State.shape]
    | cons c rest ih =>
      intro s
      have hshape : (s.next vars c).map (fun r => r.2.shape) = valueStep s.shape c := shape_next s c
      rw [evalFrom, readValue, ← hshape]
      cases s.next vars c with
      | none => simp
      | some r => simpa using ih r.2
  exact hstates .text

theorem next_stop {c : UInt8} (hc : Stops c) {s t : State} {out : Bytes}
    (h : s.next vars c = some (out, t)) : t = .text := by
  have hname : ¬nameByte c = true := by
    intro hname
    have hnone := hc.2.1
    rw [valueStep, if_pos (by tauto)] at hnone
    cases hnone
  have hshape : (s.next vars c).map (fun r => r.2.shape) = valueStep s.shape c := shape_next s c
  rw [h] at hshape
  cases s with
  | text =>
    rw [State.next, textStep] at h
    split at h
    · cases h
      have htext := hc.1
      rw [← show State.shape .text = .text from rfl, ← hshape] at htext
      cases htext
    · split at h
      · cases h
      · cases h
        rfl
  | dollar =>
    have hnone := hc.2.1
    rw [← show State.shape .dollar = .dollar from rfl, ← hshape] at hnone
    cases hnone
  | name n =>
    rw [State.next, if_neg hname] at h
    obtain ⟨r, hr, heq⟩ := Option.map_eq_some_iff.mp h
    cases heq
    have htext := hc.1
    rw [← show State.shape (.name n) = .text from rfl, ← hshape] at htext
    rw [textStep] at hr
    split at hr
    · cases hr
      cases htext
    · split at hr
      · cases hr
      · cases hr
        rfl
  | brace n =>
    have hnone := hc.2.2 (n != [])
    rw [← show State.shape (.brace n) = .brace (n != []) from rfl, ← hshape] at hnone
    cases hnone

/-- A text is read in two parts where one of them ends with a byte that ends all escapes. -/
theorem evalFrom_stop {c : UInt8} (hc : Stops c) (s : State) (a b : Bytes) :
    evalFrom vars s (a ++ c :: b) =
      (evalFrom vars s (a ++ [c])).bind fun v => (evalFrom vars .text b).map (v ++ ·) := by
  induction a generalizing s with
  | nil =>
    rw [List.nil_append, List.nil_append, evalFrom, evalFrom]
    cases hnext : s.next vars c with
    | none => rfl
    | some r =>
      obtain ⟨out, t⟩ := r
      obtain rfl := next_stop hc hnext
      simp [evalFrom, State.close]
  | cons d a ih =>
    rw [List.cons_append, List.cons_append, evalFrom, evalFrom]
    cases s.next vars d with
    | none => rfl
    | some r =>
      dsimp only
      rw [ih r.2]
      cases evalFrom vars r.2 (a ++ [c]) with
      | none => rfl
      | some v =>
        rw [Option.bind_some, Option.map_map, Option.map_some, Option.bind_some]
        congr 1
        funext w
        simp

/-! ## What a dollar costs -/

/-- Slashes and dollars of a value and of the text it is read from: there are more slashes, or as
many and fewer dollars unless there was none. -/
def Loses (value text : Bytes) : Prop :=
  text.count 47 < value.count 47 ∨
    (value.count 47 = text.count 47 ∧
      (value.count 36 < text.count 36 ∨ (value.count 36 = 0 ∧ text.count 36 = 0)))

theorem Loses.append {a b v w : Bytes} (ha : Loses v a) (hb : Loses w b) : Loses (v ++ w) (a ++ b) := by
  unfold Loses at *
  simp only [List.count_append]
  omega

/-- A variable whose value has a slash or no dollar. -/
def Harmless (vars : Bytes → Bytes) : Prop := ∀ n, 47 ∈ vars n ∨ 36 ∉ vars n

/-- The bytes read of an escape. -/
def State.pending : State → Bytes
  | .text => []
  | .dollar => [36]
  | .name n => 36 :: n
  | .brace n => 36 :: 123 :: n

/-- Names have neither slashes nor dollars. -/
def State.Named : State → Prop
  | .name n => 47 ∉ n ∧ 36 ∉ n
  | .brace n => 47 ∉ n ∧ 36 ∉ n
  | _ => True

theorem loses_reference (hvars : Harmless vars) (n : Bytes) {text : Bytes} (hslash : 47 ∉ text) :
    Loses (vars n) (36 :: text) := by
  have hnone := List.count_eq_zero.mpr hslash
  unfold Loses
  simp only [List.count_cons, hnone]
  by_cases h : 47 ∈ vars n
  · left
    simpa using h
  · have hdollar := List.count_eq_zero.mpr ((hvars n).resolve_left h)
    have hslashes := List.count_eq_zero.mpr h
    right
    simp [hdollar, hslashes]

theorem loses_nil : Loses [] [] := Or.inr ⟨rfl, Or.inr ⟨rfl, rfl⟩⟩

theorem nameByte_no_slash {c : UInt8} (h : nameByte c = true) : c ≠ 47 ∧ c ≠ 36 := by
  constructor
  · rintro rfl
    cases h
  · rintro rfl
    cases h

instance (value text : Bytes) : Decidable (Loses value text) := inferInstanceAs (Decidable (_ ∨ _))

theorem loses_byte {c : UInt8} (h : c ≠ 36) : Loses [c] [c] := by
  unfold Loses
  simp [h]

/-- A reader in the middle of a text. -/
theorem loses_next (hvars : Harmless vars) {s t : State} (hs : s.Named) {c : UInt8} {out : Bytes}
    (h : s.next vars c = some (out, t)) :
    t.Named ∧ ∃ read, s.pending ++ [c] = read ++ t.pending ∧ Loses out read := by
  cases s with
  | text =>
    rw [State.next, textStep] at h
    split at h
    · rename_i hc
      cases h
      exact ⟨trivial, [], by simp [State.pending, hc], loses_nil⟩
    · rename_i hc
      split at h
      · cases h
      · cases h
        exact ⟨trivial, [c], rfl, loses_byte hc⟩
  | dollar =>
    rw [State.next] at h
    split at h
    · rename_i hc
      cases h
      refine ⟨trivial, [36, c], rfl, ?_⟩
      rcases hc with rfl | rfl | rfl
      · decide
      · decide
      · decide
    · split at h
      · rename_i hname
        cases h
        obtain ⟨hslash, hdollar⟩ := nameByte_no_slash hname
        exact ⟨by simp [State.Named, Ne.symm hslash, Ne.symm hdollar], [], rfl, loses_nil⟩
      · split at h
        · rename_i hc
          cases h
          exact ⟨by simp [State.Named], [], by simp [State.pending, hc], loses_nil⟩
        · cases h
  | name n =>
    rw [State.next] at h
    split at h
    · rename_i hname
      cases h
      obtain ⟨hslash, hdollar⟩ := nameByte_no_slash hname
      exact ⟨by simp [State.Named, hs.1, hs.2, Ne.symm hslash, Ne.symm hdollar], [],
        by simp [State.pending], loses_nil⟩
    · obtain ⟨r, hr, heq⟩ := Option.map_eq_some_iff.mp h
      cases heq
      rw [textStep] at hr
      split at hr
      · rename_i hc
        cases hr
        refine ⟨trivial, 36 :: n, by simp [State.pending, hc], ?_⟩
        rw [List.append_nil]
        exact loses_reference hvars n hs.1
      · rename_i hc
        split at hr
        · cases hr
        · cases hr
          exact ⟨trivial, 36 :: n ++ [c], by simp [State.pending],
            (loses_reference hvars n hs.1).append (loses_byte hc)⟩
  | brace n =>
    rw [State.next] at h
    split at h
    · rename_i hname
      cases h
      have hc : c ≠ 47 ∧ c ≠ 36 := by
        rcases hname with hname | rfl
        · exact nameByte_no_slash hname
        · decide
      exact ⟨by simp [State.Named, hs.1, hs.2, Ne.symm hc.1, Ne.symm hc.2], [],
        by simp [State.pending], loses_nil⟩
    · split at h
      · rename_i hclose
        cases h
        refine ⟨trivial, 36 :: 123 :: n ++ [125], by simp [State.pending, hclose.1], ?_⟩
        refine loses_reference hvars n ?_
        simpa using hs.1
      · cases h

/-- A text that has dollars has another value. -/
theorem loses_evalFrom (hvars : Harmless vars) {s : State} (hs : s.Named) {text value : Bytes}
    (h : evalFrom vars s text = some value) : Loses value (s.pending ++ text) := by
  induction text generalizing s value with
  | nil =>
    cases s with
    | text =>
      cases h
      simp [Loses, State.pending]
    | name n =>
      cases h
      rw [List.append_nil]
      exact loses_reference hvars n hs.1
    | dollar => cases h
    | brace n => cases h
  | cons c rest ih =>
    rw [evalFrom] at h
    split at h
    · cases h
    rename_i out t hnext
    obtain ⟨tail, htail, rfl⟩ := Option.map_eq_some_iff.mp h
    obtain ⟨ht, read, hread, hloses⟩ := loses_next hvars hs hnext
    have htext : s.pending ++ c :: rest = read ++ (t.pending ++ rest) := by
      rw [← List.append_assoc, ← hread]
      simp
    rw [htext]
    exact hloses.append (ih ht htail)

theorem not_mem_of_eval_self (hvars : Harmless vars) {text value : Bytes}
    (h : eval vars text = some value) (hslash : value.count 47 = text.count 47)
    (hdollar : value.count 36 = text.count 36) : 36 ∉ text := by
  have hloses : Loses value (State.text.pending ++ text) :=
    @loses_evalFrom vars hvars .text trivial _ _ h
  unfold Loses at hloses
  rw [← List.count_eq_zero (a := 36)]
  simp only [State.pending, List.nil_append] at hloses
  omega

end QStar.Lib.NinjaValues
