import QStar.Lib.CStrings

/-!
# Fields found by their quoted names

A text is cut by its quotes into pieces. A search for a quoted name followed by
a colon and a quote finds the first piece of that name in front of a colon; in
a row of named values it finds the value of the name.
-/
namespace QStar.Lib.QuotedFields

open QStar.Lib.CStrings

/-- `"` -/
def quote : UInt8 := 34

/-- Pieces with a quote in front of each. -/
def pieces (ps : List Bytes) : Bytes := ps.flatMap fun p => quote :: p

/-- The name between quotes, then a colon and a quote. -/
def fieldPattern (name : Bytes) : Bytes := quote :: (name ++ [quote, 58, quote])

/-- The string that follows a field name, up to the next quote. -/
def fieldText (name text : Bytes) : Option Bytes :=
  match afterFirst (fieldPattern name) text with
  | none => none
  | some rest => if quote ∈ rest then some (rest.takeWhile (· ≠ quote)) else none

/-- A row of fields, the names and values between quotes; the last value is followed by
`close`. -/
def fieldPieces (close : Bytes) : List (Bytes × Bytes) → List Bytes
  | [] => []
  | [(name, value)] => [name, [58], value, close]
  | (name, value) :: rest => [name, [58], value, [44]] ++ fieldPieces close rest

variable {name value close : Bytes}

@[simp] theorem pieces_cons (p : Bytes) (ps : List Bytes) :
    pieces (p :: ps) = quote :: (p ++ pieces ps) := rfl

/-- Equal texts up to their first quote. -/
theorem eq_of_append_quote_prefix {a b x y : Bytes} (ha : quote ∉ a) (hb : quote ∉ b)
    (h : a ++ quote :: x <+: b ++ quote :: y) : a = b ∧ x <+: y := by
  induction a generalizing b with
  | nil =>
    cases b with
    | nil => exact ⟨rfl, (List.cons_prefix_cons.mp h).2⟩
    | cons c b =>
      have hc := (List.cons_prefix_cons.mp h).1
      exact absurd (by simp [hc]) hb
  | cons c a ih =>
    obtain ⟨hca, hrest⟩ := not_or.mp (fun hm => ha (List.mem_cons.mpr hm))
    cases b with
    | nil => exact absurd (List.cons_prefix_cons.mp h).1.symm hca
    | cons d b =>
      obtain ⟨-, hother⟩ := not_or.mp (fun hm => hb (List.mem_cons.mpr hm))
      obtain ⟨rfl, htail⟩ := List.cons_prefix_cons.mp h
      obtain ⟨rfl, hxy⟩ := ih hrest hother htail
      exact ⟨rfl, hxy⟩

/-- The pattern stands at a quote only if its name and a colon follow. -/
theorem fieldPattern_prefix_iff {p q : Bytes} {ps : List Bytes} (hname : quote ∉ name)
    (hp : quote ∉ p) (hq : quote ∉ q) (hps : ps ≠ []) :
    fieldPattern name <+: pieces (p :: q :: ps) ↔ p = name ∧ q = [58] := by
  obtain ⟨s, rest, rfl⟩ := List.exists_cons_of_ne_nil hps
  simp only [pieces_cons, fieldPattern]
  rw [List.cons_prefix_cons]
  constructor
  · rintro ⟨-, h⟩
    obtain ⟨rfl, htail⟩ := eq_of_append_quote_prefix hname hp h
    have hcolon : quote ∉ ([58] : Bytes) := by decide
    obtain ⟨rfl, -⟩ := eq_of_append_quote_prefix hcolon hq htail
    exact ⟨rfl, rfl⟩
  · rintro ⟨rfl, rfl⟩
    exact ⟨rfl, ⟨s ++ pieces rest, by simp⟩⟩

/-- A piece that is not the name in front of a colon is passed over. -/
theorem afterFirst_pieces_skip {p q : Bytes} {ps : List Bytes} (hname : quote ∉ name)
    (hp : quote ∉ p) (hq : quote ∉ q) (hps : ps ≠ []) (hne : ¬ (p = name ∧ q = [58])) :
    afterFirst (fieldPattern name) (pieces (p :: q :: ps)) =
      afterFirst (fieldPattern name) (pieces (q :: ps)) := by
  have hno := mt (fieldPattern_prefix_iff hname hp hq hps).mp hne
  rw [pieces_cons] at hno ⊢
  rw [afterFirst, if_neg hno]
  exact afterFirst_skip hp _

theorem afterFirst_pieces_hit {p : Bytes} {ps : List Bytes} :
    afterFirst (fieldPattern name) (pieces (name :: [58] :: p :: ps)) = some (p ++ pieces ps) := by
  have hhit : fieldPattern name <+: pieces (name :: [58] :: p :: ps) :=
    ⟨p ++ pieces ps, by simp [fieldPattern]⟩
  rw [pieces_cons] at hhit ⊢
  rw [afterFirst, if_pos hhit]
  simp [fieldPattern]

/-- The pieces of a row before a field are passed over. -/
theorem afterFirst_fieldPieces {fields : List (Bytes × Bytes)} (hname : quote ∉ name)
    (hcolon : name ≠ [58]) (hcomma : name ≠ [44])
    (hquote : ∀ f ∈ fields, quote ∉ f.1 ∧ quote ∉ f.2)
    (hfield : (fields.lookup name) = some value) :
    quote ∉ value ∧ ∃ ps, ps ≠ [] ∧
      afterFirst (fieldPattern name) (pieces (fieldPieces close fields)) =
        some (value ++ pieces ps) := by
  induction fields with
  | nil => cases hfield
  | cons field rest ih =>
    obtain ⟨n, v⟩ := field
    rw [List.lookup_cons] at hfield
    obtain ⟨hn, hv⟩ := hquote (n, v) (by simp)
    by_cases heq : name = n
    · subst heq
      simp only [beq_self_eq_true, Option.some.injEq] at hfield
      subst hfield
      refine ⟨hv, ?_⟩
      cases rest with
      | nil => exact ⟨[close], by simp, afterFirst_pieces_hit⟩
      | cons other more => exact ⟨[44] :: fieldPieces close (other :: more), by simp, afterFirst_pieces_hit⟩
    · have hbeq : (name == n) = false := by simpa using heq
      rw [hbeq] at hfield
      obtain ⟨hvalue, ps, hps, hrest⟩ := ih (fun f hf => hquote f (by simp [hf])) hfield
      refine ⟨hvalue, ps, hps, ?_⟩
      cases rest with
      | nil => cases hfield
      | cons other more =>
        obtain ⟨on, ov⟩ := other
        obtain ⟨q, qs, hq⟩ : ∃ q qs, fieldPieces close ((on, ov) :: more) = on :: q :: qs := by
          cases more <;> exact ⟨_, _, rfl⟩
        obtain ⟨hon, -⟩ := hquote (on, ov) (by simp)
        have hc : quote ∉ ([58] : Bytes) := by decide
        have hm : quote ∉ ([44] : Bytes) := by decide
        rw [← hrest]
        show afterFirst _ (pieces (n :: [58] :: v :: [44] :: fieldPieces close ((on, ov) :: more))) = _
        rw [hq]
        rw [afterFirst_pieces_skip hname hn hc (by simp) (fun h => heq h.1.symm),
          afterFirst_pieces_skip hname hc hv (by simp) (fun h => hcolon h.1.symm),
          afterFirst_pieces_skip hname hv hm (by simp) (fun h => absurd h.2 (by decide)),
          afterFirst_pieces_skip hname hm hon (by simp) (fun h => hcomma h.1.symm)]

/-- In a row of fields the text of a name is the value it has there. -/
theorem fieldText_row {fields : List (Bytes × Bytes)} {before : Bytes} (hbefore : quote ∉ before)
    (hname : quote ∉ name) (hcolon : name ≠ [58]) (hcomma : name ≠ [44])
    (hquote : ∀ f ∈ fields, quote ∉ f.1 ∧ quote ∉ f.2)
    (hfield : fields.lookup name = some value) :
    fieldText name (before ++ pieces (fieldPieces close fields)) = some value := by
  obtain ⟨hvalue, ps, hps, hafter⟩ : quote ∉ value ∧ ∃ ps, ps ≠ [] ∧
      afterFirst (fieldPattern name) (pieces (fieldPieces close fields)) =
        some (value ++ pieces ps) :=
    afterFirst_fieldPieces hname hcolon hcomma hquote hfield
  obtain ⟨p, rest, rfl⟩ := List.exists_cons_of_ne_nil hps
  have hskip : afterFirst (fieldPattern name) (before ++ pieces (fieldPieces close fields)) =
      afterFirst (fieldPattern name) (pieces (fieldPieces close fields)) :=
    afterFirst_skip hbefore _
  have hwhole : ∀ c ∈ value, decide (c ≠ quote) = true := fun c hc =>
    decide_eq_true fun heq => hvalue (heq ▸ hc)
  simp only [fieldText, hskip, hafter, pieces_cons]
  rw [if_pos (by simp), List.takeWhile_append_of_pos hwhole]
  simp

end QStar.Lib.QuotedFields
