import Mathlib.Data.List.Basic
import Mathlib.Tactic.Common

/-!
# Lists of bindings

A list of bindings gives a name the value of its first entry. A later list is
laid over it in two ways: entry by entry, each replacing the value its name had,
or at once, what it names being dropped below. The first gives a name the last
value of the later list, the second its first value.
-/
namespace QStar.Lib.Bindings

variable {α β : Type*} [DecidableEq α] [BEq α] [LawfulBEq α]

/-- A name is set: its first entry is replaced, or an entry is added. -/
def assign (k : α) (v : β) : List (α × β) → List (α × β)
  | [] => [(k, v)]
  | (k', v') :: rest => if k' = k then (k, v) :: rest else (k', v') :: assign k v rest

/-- The entries are set one after another. -/
def assignAll (below entries : List (α × β)) : List (α × β) :=
  entries.foldl (fun acc entry => assign entry.1 entry.2 acc) below

/-- An entry is for the name. -/
def names (entries : List (α × β)) (k : α) : Bool := entries.any fun e => decide (e.1 = k)

/-- The entries behind those below that they do not name. -/
def overlay (below entries : List (α × β)) : List (α × β) :=
  below.filter (fun entry => !names entries entry.1) ++ entries

/-- The value of the last entry for a name. -/
def last (entries : List (α × β)) (k : α) : Option β := entries.reverse.lookup k

omit [DecidableEq α] in
theorem lookup_cons_ne {k k' : α} {v : β} {entries : List (α × β)} (h : k' ≠ k) :
    List.lookup k ((k', v) :: entries) = entries.lookup k := by
  have hne : (k == k') = false := beq_eq_false_iff_ne.mpr (Ne.symm h)
  rw [List.lookup_cons, hne]

omit [DecidableEq α] in
theorem lookup_eq_none {k : α} {entries : List (α × β)} :
    entries.lookup k = none ↔ ∀ e ∈ entries, e.1 ≠ k := by
  rw [List.lookup_eq_none_iff]
  constructor
  · intro h e he heq
    have hne := h e he
    rw [heq] at hne
    simp at hne
  · intro h e he
    have hne := h e he
    simpa [bne_iff_ne] using Ne.symm hne

omit [DecidableEq α] in
theorem mem_of_lookup {k : α} {v : β} {entries : List (α × β)} (h : entries.lookup k = some v) :
    (k, v) ∈ entries := by
  obtain ⟨before, after, rfl, -⟩ := List.lookup_eq_some_iff.mp h
  simp

omit [DecidableEq α] in
/-- Where names do not come twice, an entry is what is found for its name. -/
theorem lookup_of_mem {entries : List (α × β)} (hd : (entries.map (·.1)).Nodup) {e : α × β} (he : e ∈ entries) :
    entries.lookup e.1 = some e.2 := by
  induction entries with
  | nil => cases he
  | cons e' rest ih =>
    obtain ⟨hnew, hrest⟩ := List.nodup_cons.mp hd
    rcases List.mem_cons.mp he with rfl | he
    · exact List.lookup_cons_self
    · have hne : e'.1 ≠ e.1 := by
        intro heq
        exact hnew (List.mem_map.mpr ⟨e, he, heq.symm⟩)
      exact (lookup_cons_ne hne).trans (ih hrest he)

omit [BEq α] [LawfulBEq α] in
theorem names_iff {entries : List (α × β)} {k : α} : names entries k = true ↔ ∃ e ∈ entries, e.1 = k := by
  simp [names]

omit [BEq α] [LawfulBEq α] in
/-- A new name is added at the end. -/
theorem assign_of_forall_ne {k : α} {entries : List (α × β)} (h : ∀ e ∈ entries, e.1 ≠ k) (v : β) :
    assign k v entries = entries ++ [(k, v)] := by
  induction entries with
  | nil => rfl
  | cons e rest ih =>
    obtain ⟨hne, hrest⟩ := List.forall_mem_cons.mp h
    rw [assign, if_neg hne, ih hrest, List.cons_append]

/-- Setting a name changes what is found for it and nothing else. -/
theorem lookup_assign (k name : α) (v : β) (entries : List (α × β)) :
    (assign k v entries).lookup name = if k = name then some v else entries.lookup name := by
  induction entries with
  | nil =>
    by_cases hk : k = name
    · subst hk
      simp [assign]
    · rw [assign, lookup_cons_ne hk, if_neg hk]
  | cons e rest ih =>
    obtain ⟨k', v'⟩ := e
    rw [assign]
    by_cases hkk : k' = k
    · subst hkk
      rw [if_pos rfl]
      by_cases hk : k' = name
      · subst hk
        simp
      · rw [lookup_cons_ne hk, lookup_cons_ne hk, if_neg hk]
    · rw [if_neg hkk]
      by_cases hk' : k' = name
      · subst hk'
        rw [List.lookup_cons_self, List.lookup_cons_self, if_neg (Ne.symm hkk)]
      · rw [lookup_cons_ne hk', lookup_cons_ne hk', ih]

omit [BEq α] [LawfulBEq α] in
theorem mem_keys_assign {k name : α} {v : β} {entries : List (α × β)}
    (h : name ∈ (assign k v entries).map (·.1)) : name = k ∨ name ∈ entries.map (·.1) := by
  induction entries with
  | nil =>
    rw [assign, List.map_singleton, List.mem_singleton] at h
    exact .inl h
  | cons e rest ih =>
    obtain ⟨k', v'⟩ := e
    rw [assign] at h
    split at h
    · rcases List.mem_cons.mp h with hk | hrest
      · exact .inl hk
      · exact .inr (List.mem_cons_of_mem _ hrest)
    · rcases List.mem_cons.mp h with hk | hrest
      · exact .inr (by rw [hk]; exact List.mem_cons_self)
      · rcases ih hrest with hk | hold
        · exact .inl hk
        · exact .inr (List.mem_cons_of_mem _ hold)

omit [BEq α] [LawfulBEq α] in
/-- Names that do not come twice still do not when one is set. -/
theorem nodup_keys_assign {entries : List (α × β)} (h : (entries.map (·.1)).Nodup) (k : α) (v : β) :
    ((assign k v entries).map (·.1)).Nodup := by
  induction entries with
  | nil => exact List.pairwise_singleton _ k
  | cons e rest ih =>
    obtain ⟨k', v'⟩ := e
    rw [List.map_cons, List.nodup_cons] at h
    rw [assign]
    split
    · rename_i hk
      rw [List.map_cons, List.nodup_cons, ← hk]
      exact h
    · rename_i hk
      rw [List.map_cons, List.nodup_cons]
      refine ⟨?_, ih h.2⟩
      intro hin
      rcases mem_keys_assign hin with hk' | hrest
      · exact hk hk'
      · exact h.1 hrest

theorem last_cons (e : α × β) (entries : List (α × β)) (name : α) :
    last (e :: entries) name
      = (last entries name).or (if e.1 = name then some e.2 else none) := by
  obtain ⟨k, v⟩ := e
  simp only [last, List.reverse_cons, List.lookup_append]
  by_cases hk : k = name
  · subst hk
    simp
  · rw [lookup_cons_ne hk, if_neg hk, List.lookup_nil]

/-- The last value for a name is the last of all its values. -/
theorem last_eq_getLast? (entries : List (α × β)) (name : α) :
    last entries name = ((entries.filter fun e => decide (e.1 = name)).map (·.2)).getLast? := by
  induction entries with
  | nil => rfl
  | cons e rest ih =>
    rw [last_cons, ih, List.filter_cons]
    by_cases hname : e.1 = name
    · rw [if_pos hname, if_pos (decide_eq_true hname), List.map_cons, List.getLast?_cons]
      cases ((rest.filter fun e => decide (e.1 = name)).map (·.2)).getLast? <;> rfl
    · rw [if_neg hname, if_neg (by simpa using hname), Option.or_none]

/-- Set one after another, the last entry for a name counts. -/
theorem lookup_assignAll (below entries : List (α × β)) (name : α) :
    (assignAll below entries).lookup name = (last entries name).or (below.lookup name) := by
  induction entries generalizing below with
  | nil => rfl
  | cons e rest ih =>
    have hstep : assignAll below (e :: rest) = assignAll (assign e.1 e.2 below) rest := rfl
    rw [hstep, ih, lookup_assign, last_cons]
    by_cases hk : e.1 = name
    · cases last rest name <;> simp [hk]
    · cases last rest name <;> simp [hk]

theorem lookup_filter {p : α × β → Bool} {name : α} (h : ∀ v, p (name, v) = true)
    (entries : List (α × β)) : (entries.filter p).lookup name = entries.lookup name := by
  induction entries with
  | nil => rfl
  | cons e rest ih =>
    obtain ⟨k, v⟩ := e
    by_cases hk : k = name
    · subst hk
      rw [List.filter_cons_of_pos (h v), List.lookup_cons_self, List.lookup_cons_self]
    · rw [lookup_cons_ne hk, ← ih]
      by_cases hp : p (k, v) = true
      · rw [List.filter_cons_of_pos hp, lookup_cons_ne hk]
      · rw [List.filter_cons_of_neg hp]

/-- Laid over at once, the first entry for a name counts. -/
theorem lookup_overlay (below entries : List (α × β)) (name : α) :
    (overlay below entries).lookup name = (entries.lookup name).or (below.lookup name) := by
  rw [overlay, List.lookup_append]
  cases hfound : entries.lookup name with
  | none =>
    have hfree : names entries name = false := by
      rw [Bool.eq_false_iff, Ne, names_iff]
      rintro ⟨e, he, hname⟩
      exact lookup_eq_none.mp hfound e he hname
    rw [lookup_filter (fun v => by rw [hfree]; rfl), Option.or_none, Option.none_or]
  | some v =>
    have hnamed : names entries name = true := by
      by_contra hnot
      have hnone : entries.lookup name = none :=
        lookup_eq_none.mpr fun e he hname => hnot (names_iff.mpr ⟨e, he, hname⟩)
      rw [hfound] at hnone
      cases hnone
    have hnone : (below.filter fun entry => !names entries entry.1).lookup name = none := by
      rw [lookup_eq_none]
      intro e he heq
      have hkept := (List.mem_filter.mp he).2
      rw [heq, hnamed] at hkept
      cases hkept
    rw [hnone, Option.none_or, Option.some_or]

theorem last_isSome (entries : List (α × β)) (name : α) :
    (last entries name).isSome = (entries.lookup name).isSome := by
  rw [Bool.eq_iff_iff, Option.isSome_iff_ne_none, Option.isSome_iff_ne_none, last, Ne, Ne,
    lookup_eq_none, lookup_eq_none]
  simp

/-- Also the last entry of the whole is the later list's if it has one. -/
theorem last_overlay (below entries : List (α × β)) (name : α) :
    last (overlay below entries) name = (last entries name).or (last below name) := by
  rw [last, overlay, List.reverse_append, List.lookup_append, ← last]
  cases hlast : last entries name with
  | some v => rfl
  | none =>
    have hsome := last_isSome entries name
    rw [hlast, Option.isSome_none, eq_comm, Option.isSome_eq_false_iff,
      Option.isNone_iff_eq_none] at hsome
    have hfree : names entries name = false := by
      rw [Bool.eq_false_iff, Ne, names_iff]
      rintro ⟨e, he, hname⟩
      exact lookup_eq_none.mp hsome e he hname
    rw [← List.filter_reverse, lookup_filter (fun v => by rw [hfree]; rfl), Option.none_or,
      Option.none_or, last]

/-- The two ways agree on a name just when its first and last entry do. -/
theorem lookup_overlay_eq_assignAll (below entries : List (α × β)) (name : α) :
    (overlay below entries).lookup name = (assignAll below entries).lookup name
      ↔ entries.lookup name = last entries name := by
  rw [lookup_overlay, lookup_assignAll]
  have hsome := last_isSome entries name
  cases hfirst : entries.lookup name with
  | none =>
    rw [hfirst, Option.isSome_none, Option.isSome_eq_false_iff, Option.isNone_iff_eq_none] at hsome
    simp [hsome]
  | some v =>
    rw [hfirst, Option.isSome_some, Option.isSome_iff_exists] at hsome
    obtain ⟨w, hw⟩ := hsome
    rw [hw, Option.some_or, Option.some_or]

section MapValues

variable {γ : Type*} {f : α → β → Option γ}

/-- The values are replaced under their names, unless one of them has no replacement. -/
def mapValues (f : α → β → Option γ) : List (α × β) → Option (List (α × γ))
  | [] => some []
  | (k, v) :: rest =>
    (f k v).bind fun w => (mapValues f rest).map fun replaced => (k, w) :: replaced

omit [DecidableEq α] [BEq α] [LawfulBEq α] in
theorem mapValues_cons_eq_some {k : α} {v : β} {rest : List (α × β)} {replaced : List (α × γ)} :
    mapValues f ((k, v) :: rest) = some replaced
      ↔ ∃ w replaced', f k v = some w ∧ mapValues f rest = some replaced' ∧ replaced = (k, w) :: replaced' := by
  rw [mapValues, Option.bind_eq_some_iff]
  constructor
  · rintro ⟨w, hw, hrest⟩
    obtain ⟨replaced', hreplaced, heq⟩ := Option.map_eq_some_iff.mp hrest
    exact ⟨w, replaced', hw, hreplaced, heq.symm⟩
  · rintro ⟨w, replaced', hw, hreplaced, rfl⟩
    exact ⟨w, hw, by rw [hreplaced]; rfl⟩

omit [DecidableEq α] [BEq α] [LawfulBEq α] in
/-- All values are replaced when each has a replacement. -/
theorem mapValues_isSome_iff {entries : List (α × β)} :
    (∃ replaced, mapValues f entries = some replaced) ↔ ∀ e ∈ entries, ∃ w, f e.1 e.2 = some w := by
  induction entries with
  | nil => simp [mapValues]
  | cons e rest ih =>
    obtain ⟨k, v⟩ := e
    simp only [mapValues_cons_eq_some, List.forall_mem_cons, ← ih]
    constructor
    · rintro ⟨_, w, replaced', hw, hreplaced, -⟩
      exact ⟨⟨w, hw⟩, replaced', hreplaced⟩
    · rintro ⟨⟨w, hw⟩, replaced', hreplaced⟩
      exact ⟨_, w, replaced', hw, hreplaced, rfl⟩

omit [DecidableEq α] in
/-- A name has the replacement of the value it had, or none where it had none. -/
theorem lookup_mapValues {entries : List (α × β)} {replaced : List (α × γ)}
    (h : mapValues f entries = some replaced) (name : α) :
    replaced.lookup name = (entries.lookup name).bind (f name) := by
  induction entries generalizing replaced with
  | nil =>
    cases h
    rfl
  | cons e rest ih =>
    obtain ⟨k, v⟩ := e
    obtain ⟨w, replaced', hw, hrest, rfl⟩ := mapValues_cons_eq_some.mp h
    by_cases hk : k = name
    · subst hk
      rw [List.lookup_cons_self, List.lookup_cons_self, Option.bind_some, hw]
    · rw [lookup_cons_ne hk, lookup_cons_ne hk, ih hrest]

omit [DecidableEq α] [BEq α] [LawfulBEq α] in
/-- Every replacement stands for an entry of before. -/
theorem mem_of_mem_mapValues {entries : List (α × β)} {replaced : List (α × γ)}
    (h : mapValues f entries = some replaced) {e : α × γ} (he : e ∈ replaced) :
    ∃ v, (e.1, v) ∈ entries ∧ f e.1 v = some e.2 := by
  induction entries generalizing replaced with
  | nil =>
    cases h
    cases he
  | cons e' rest ih =>
    obtain ⟨k, v⟩ := e'
    obtain ⟨w, replaced', hw, hrest, rfl⟩ := mapValues_cons_eq_some.mp h
    rcases List.mem_cons.mp he with rfl | he
    · exact ⟨v, List.mem_cons_self, hw⟩
    · obtain ⟨v', hv', hfv⟩ := ih hrest he
      exact ⟨v', List.mem_cons_of_mem _ hv', hfv⟩

omit [DecidableEq α] [BEq α] [LawfulBEq α] in
/-- Every entry of before has a replacement. -/
theorem exists_mem_mapValues {entries : List (α × β)} {replaced : List (α × γ)}
    (h : mapValues f entries = some replaced) {e : α × β} (he : e ∈ entries) :
    ∃ w, (e.1, w) ∈ replaced ∧ f e.1 e.2 = some w := by
  induction entries generalizing replaced with
  | nil => cases he
  | cons e' rest ih =>
    obtain ⟨k, v⟩ := e'
    obtain ⟨w, replaced', hw, hrest, rfl⟩ := mapValues_cons_eq_some.mp h
    rcases List.mem_cons.mp he with rfl | he
    · exact ⟨w, List.mem_cons_self, hw⟩
    · obtain ⟨w', hw', hfw⟩ := ih hrest he
      exact ⟨w', List.mem_cons_of_mem _ hw', hfw⟩

end MapValues

end QStar.Lib.Bindings
