import Mathlib.Data.List.Forall2

/-!
# Results with errors

What it takes for a computation that may fail to succeed, one step at a time.
-/
namespace QStar.Lib.Results

variable {ε α β : Type}

theorem bind_eq_ok {x : Except ε α} {f : α → Except ε β} {b : β} :
    x >>= f = .ok b ↔ ∃ a, x = .ok a ∧ f a = .ok b := by
  cases x with
  | error e =>
    constructor
    · intro h
      cases h
    · rintro ⟨a, h, -⟩
      cases h
  | ok a =>
    constructor
    · intro h
      exact ⟨a, rfl, h⟩
    · rintro ⟨a', h, hf⟩
      cases h
      exact hf

theorem map_eq_ok {x : Except ε α} {f : α → β} {b : β} :
    x.map f = .ok b ↔ ∃ a, x = .ok a ∧ f a = b := by
  cases x with
  | error e => simp [Except.map]
  | ok a => simp [Except.map]

/-- A check in front of a computation. -/
theorem guard_eq_ok {c : Prop} [Decidable c] {e : ε} {x : Except ε β} {b : β} :
    (do
      if c then throw e
      x) = .ok b ↔ ¬c ∧ x = .ok b := by
  by_cases h : c
  · constructor
    · intro hx
      rw [if_pos h] at hx
      cases hx
    · rintro ⟨hc, -⟩
      exact absurd h hc
  · rw [if_neg h]
    constructor
    · intro hx
      exact ⟨h, hx⟩
    · rintro ⟨-, hx⟩
      exact hx

theorem toOption_eq_some {x : Except ε α} {a : α} : x.toOption = some a ↔ x = .ok a := by
  cases x with
  | error e => simp [Except.toOption]
  | ok b => simp [Except.toOption]

theorem exists_eq_ok {x : Except ε α} (h : x.toOption.isSome = true) : ∃ a, x = .ok a := by
  cases x with
  | error e => cases h
  | ok a => exact ⟨a, rfl⟩

/-- Where the results of a successful pass over a list come from. -/
theorem mapM_eq_ok_mem {f : α → Except ε β} {items : List α} {results : List β}
    (h : items.mapM f = .ok results) : ∀ b ∈ results, ∃ a ∈ items, f a = .ok b := by
  induction items generalizing results with
  | nil =>
    cases h
    nofun
  | cons item rest ih =>
    rw [List.mapM_cons, bind_eq_ok] at h
    obtain ⟨first, hfirst, h⟩ := h
    obtain ⟨others, hothers, h⟩ := bind_eq_ok.mp h
    cases h
    intro b hb
    rcases List.mem_cons.mp hb with rfl | hb
    · exact ⟨item, List.mem_cons_self, hfirst⟩
    · obtain ⟨a, ha, hfa⟩ := ih hothers b hb
      exact ⟨a, List.mem_cons_of_mem _ ha, hfa⟩

/-- A successful pass over a list has a result for each of its items. -/
theorem mapM_eq_ok_of_mem {f : α → Except ε β} {items : List α} {results : List β}
    (h : items.mapM f = .ok results) {a : α} (ha : a ∈ items) : ∃ b ∈ results, f a = .ok b := by
  induction items generalizing results with
  | nil => cases ha
  | cons item rest ih =>
    rw [List.mapM_cons, bind_eq_ok] at h
    obtain ⟨first, hfirst, h⟩ := h
    obtain ⟨others, hothers, h⟩ := bind_eq_ok.mp h
    cases h
    rcases List.mem_cons.mp ha with heq | ha
    · exact ⟨first, List.mem_cons_self, heq ▸ hfirst⟩
    · obtain ⟨b, hb, hfb⟩ := ih hothers ha
      exact ⟨b, List.mem_cons_of_mem _ hb, hfb⟩

/-- A pass succeeds when it does on every item. -/
theorem mapM_succeeds_iff {f : α → Except ε β} {items : List α} :
    (∃ results, items.mapM f = .ok results) ↔ ∀ a ∈ items, ∃ b, f a = .ok b := by
  constructor
  · rintro ⟨results, h⟩ a ha
    obtain ⟨b, -, hb⟩ := mapM_eq_ok_of_mem h ha
    exact ⟨b, hb⟩
  · intro h
    induction items with
    | nil => exact ⟨[], rfl⟩
    | cons item rest ih =>
      obtain ⟨first, hfirst⟩ := h item List.mem_cons_self
      obtain ⟨others, hothers⟩ := ih fun a ha => h a (List.mem_cons_of_mem _ ha)
      refine ⟨first :: others, ?_⟩
      rw [List.mapM_cons, hfirst, hothers]
      rfl

/-- What holds of all results of a successful pass. -/
theorem mapM_eq_ok_forall_iff {f : α → Except ε β} {p : β → Prop} {q : α → Prop} {items : List α}
    {results : List β} (hf : ∀ a ∈ items, ∀ b, f a = .ok b → (p b ↔ q a))
    (h : items.mapM f = .ok results) : (∀ b ∈ results, p b) ↔ ∀ a ∈ items, q a := by
  constructor
  · intro hp a ha
    obtain ⟨b, hb, hfa⟩ := mapM_eq_ok_of_mem h ha
    exact (hf a ha b hfa).mp (hp b hb)
  · intro hq b hb
    obtain ⟨a, ha, hfa⟩ := mapM_eq_ok_mem h b hb
    exact (hf a ha b hfa).mpr (hq a ha)

/-- What holds between the items and the results of a successful pass. -/
theorem mapM_eq_ok_forall₂_iff {f : α → Except ε β} {r : α → β → Prop} {q : α → Prop} {items : List α}
    {results : List β} (hf : ∀ a ∈ items, ∀ b, f a = .ok b → (r a b ↔ q a))
    (h : items.mapM f = .ok results) : List.Forall₂ r items results ↔ ∀ a ∈ items, q a := by
  induction items generalizing results with
  | nil =>
    cases h
    exact iff_of_true .nil nofun
  | cons item rest ih =>
    rw [List.mapM_cons, bind_eq_ok] at h
    obtain ⟨first, hfirst, h⟩ := h
    obtain ⟨others, hothers, h⟩ := bind_eq_ok.mp h
    cases h
    rw [List.forall₂_cons, List.forall_mem_cons, hf item List.mem_cons_self first hfirst,
      ih (fun a ha => hf a (List.mem_cons_of_mem item ha)) hothers]

/-- A pass of whose results something is known where it succeeds. -/
theorem mapM_eq_ok_map_map {γ : Type} {f : α → Except ε β} {p : β → γ} {k : α → γ}
    {items : List α} {results : List β} (hf : ∀ a ∈ items, ∀ b, f a = .ok b → p b = k a)
    (h : items.mapM f = .ok results) : results.map p = items.map k := by
  induction items generalizing results with
  | nil =>
    cases h
    rfl
  | cons item rest ih =>
    rw [List.mapM_cons, bind_eq_ok] at h
    obtain ⟨first, hfirst, h⟩ := h
    obtain ⟨others, hothers, h⟩ := bind_eq_ok.mp h
    cases h
    rw [List.map_cons, List.map_cons, hf item List.mem_cons_self first hfirst,
      ih (fun a ha => hf a (List.mem_cons_of_mem _ ha)) hothers]

/-- A pass whose results are known where it succeeds. -/
theorem mapM_eq_ok_map {f : α → Except ε β} {k : α → β} {items : List α} {results : List β}
    (hf : ∀ a ∈ items, ∀ b, f a = .ok b → b = k a) (h : items.mapM f = .ok results) :
    results = items.map k := by
  simpa using mapM_eq_ok_map_map (p := id) hf h

/-- A pass of checks succeeds when each of them does. -/
theorem forM_eq_ok {f : α → Except ε PUnit} {items : List α} (h : items.forM f = .ok ()) :
    ∀ a ∈ items, f a = .ok () := by
  induction items with
  | nil => nofun
  | cons item rest ih =>
    obtain ⟨u, hitem, hrest⟩ := bind_eq_ok.mp h
    intro a ha
    rcases List.mem_cons.mp ha with rfl | ha
    · exact hitem
    · exact ih hrest a ha

theorem length_of_mapM_ok {f : α → Except ε β} {items : List α} {results : List β}
    (h : items.mapM f = .ok results) : results.length = items.length := by
  induction items generalizing results with
  | nil =>
    cases h
    rfl
  | cons item rest ih =>
    rw [List.mapM_cons, bind_eq_ok] at h
    obtain ⟨b, -, h⟩ := h
    obtain ⟨bs, hbs, h⟩ := bind_eq_ok.mp h
    cases h
    rw [List.length_cons, List.length_cons, ih hbs]

/-- The result at an index is that of the item there. -/
theorem mapM_eq_ok_getElem? {f : α → Except ε β} {items : List α} {results : List β}
    (h : items.mapM f = .ok results) {i : Nat} {b : β} (hb : results[i]? = some b) :
    ∃ a, items[i]? = some a ∧ f a = .ok b := by
  induction items generalizing results i with
  | nil =>
    cases h
    cases hb
  | cons item rest ih =>
    rw [List.mapM_cons, bind_eq_ok] at h
    obtain ⟨first, hfirst, h⟩ := h
    obtain ⟨others, hothers, h⟩ := bind_eq_ok.mp h
    cases h
    cases i with
    | zero =>
      cases hb
      exact ⟨item, rfl, hfirst⟩
    | succ i => exact ih hothers hb

/-- Passes over the parts of a list, and one over the whole of it. -/
theorem mapM_flatten_eq_ok {f : α → Except ε β} {lists : List (List α)} {results : List β}
    (h : lists.flatten.mapM f = .ok results) :
    ∃ parts, lists.mapM (fun items => items.mapM f) = .ok parts ∧ results = parts.flatten := by
  induction lists generalizing results with
  | nil =>
    cases h
    exact ⟨[], rfl, rfl⟩
  | cons items rest ih =>
    rw [List.flatten_cons, List.mapM_append, bind_eq_ok] at h
    obtain ⟨first, hfirst, h⟩ := h
    obtain ⟨others, hothers, h⟩ := bind_eq_ok.mp h
    cases h
    obtain ⟨parts, hparts, rfl⟩ := ih hothers
    refine ⟨first :: parts, ?_, rfl⟩
    rw [List.mapM_cons, hfirst, hparts]
    rfl

/-- Two passes are one. -/
theorem mapM_mapM_eq_ok {γ : Type} {f : α → Except ε β} {k : β → Except ε γ} {items : List α}
    {middle : List β} {results : List γ} (hf : items.mapM f = .ok middle) (hk : middle.mapM k = .ok results) :
    items.mapM (fun a => f a >>= k) = .ok results := by
  induction items generalizing middle results with
  | nil =>
    cases hf
    cases hk
    rfl
  | cons item rest ih =>
    rw [List.mapM_cons, bind_eq_ok] at hf
    obtain ⟨b, hb, hf⟩ := hf
    obtain ⟨bs, hbs, hf⟩ := bind_eq_ok.mp hf
    cases hf
    rw [List.mapM_cons, bind_eq_ok] at hk
    obtain ⟨c, hc, hk⟩ := hk
    obtain ⟨cs, hcs, hk⟩ := bind_eq_ok.mp hk
    cases hk
    rw [List.mapM_cons, hb, ih hbs hcs]
    change (k b >>= _) = _
    rw [hc]
    rfl

/-- Where a pass succeeds, another one has the same results just where it has the same result at
each item. -/
theorem mapM_eq_some_iff {f : α → Except ε β} {m : α → Option β} {q : α → Prop} {items : List α}
    {results : List β} (hm : ∀ a ∈ items, ∀ b, f a = .ok b → (m a = some b ↔ q a))
    (h : items.mapM f = .ok results) : items.mapM m = some results ↔ ∀ a ∈ items, q a := by
  induction items generalizing results with
  | nil =>
    cases h
    exact iff_of_true rfl nofun
  | cons item rest ih =>
    rw [List.mapM_cons, bind_eq_ok] at h
    obtain ⟨b, hb, h⟩ := h
    obtain ⟨bs, hbs, h⟩ := bind_eq_ok.mp h
    cases h
    have hfirst := hm item List.mem_cons_self b hb
    have hrest := ih (fun a ha => hm a (List.mem_cons_of_mem item ha)) hbs
    rw [List.forall_mem_cons, ← hfirst, ← hrest, List.mapM_cons]
    constructor
    · intro hall
      obtain ⟨c, hc, hall⟩ := Option.bind_eq_some_iff.mp hall
      obtain ⟨cs, hcs, hall⟩ := Option.bind_eq_some_iff.mp hall
      cases hall
      exact ⟨hc, hcs⟩
    · rintro ⟨hc, hcs⟩
      rw [hc, hcs]
      rfl

section Option

variable {f : α → Option β} {items : List α}

theorem exists_mapM (h : ∀ item ∈ items, ∃ b, f item = some b) : ∃ results, items.mapM f = some results := by
  induction items with
  | nil => exact ⟨[], rfl⟩
  | cons item rest ih =>
    obtain ⟨b, hb⟩ := h item List.mem_cons_self
    obtain ⟨bs, hbs⟩ := ih fun a ha => h a (List.mem_cons_of_mem item ha)
    exact ⟨b :: bs, by rw [List.mapM_cons, hb, hbs]; rfl⟩

theorem mapM_eq_some_of_mem {results : List β} (h : items.mapM f = some results) {a : α} (ha : a ∈ items) :
    ∃ b ∈ results, f a = some b := by
  induction items generalizing results with
  | nil => cases ha
  | cons item rest ih =>
    rw [List.mapM_cons] at h
    obtain ⟨b, hb, h⟩ := Option.bind_eq_some_iff.mp h
    obtain ⟨bs, hbs, h⟩ := Option.bind_eq_some_iff.mp h
    cases h
    rcases List.mem_cons.mp ha with rfl | hrest
    · exact ⟨b, List.mem_cons_self, hb⟩
    · obtain ⟨c, hc, hf⟩ := ih hbs hrest
      exact ⟨c, List.mem_cons_of_mem b hc, hf⟩

end Option

end QStar.Lib.Results
