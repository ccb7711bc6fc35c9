import Mathlib.Data.List.Perm.Subperm
import Mathlib.Data.List.Nodup
import Mathlib.Data.List.Lex
import Mathlib.Tactic.Common

/-!
# Nested tables and their deep merge

A nested table is its entries, in the order in which they are walked. A key is an
atom or itself a table, and two tables that are keys are never the same key. A
table whose keys are the numbers from one on is a list.
-/
namespace QStar.Lib.NestedTables

inductive Nested (α : Type) where
  | leaf (a : α)
  | node (entries : List (Nested α × Nested α))

variable {α : Type}

/-- The entries of a table. -/
abbrev Entries (α : Type) := List (Nested α × Nested α)

mutual

/-- How many tables lie in one another below the outermost, counted to what they hold. -/
def Nested.depth : Nested α → Nat
  | .leaf _ => 0
  | .node entries => depthAll entries

def depthAll : List (Nested α × Nested α) → Nat
  | [] => 0
  | (key, value) :: rest => max (max key.depth value.depth + 1) (depthAll rest)

end

mutual

/-- A property of every table that is reached through values. -/
def Nested.Throughout (P : Entries α → Prop) : Nested α → Prop
  | .leaf _ => True
  | .node entries => P entries ∧ ThroughoutAll P entries

def ThroughoutAll (P : Entries α → Prop) : List (Nested α × Nested α) → Prop
  | [] => True
  | (_, value) :: rest => value.Throughout P ∧ ThroughoutAll P rest

end

theorem throughoutAll_iff {P : Entries α → Prop} {entries : Entries α} :
    ThroughoutAll P entries ↔ ∀ e ∈ entries, e.2.Throughout P := by
  induction entries with
  | nil => simp [ThroughoutAll]
  | cons e rest ih =>
    obtain ⟨key, value⟩ := e
    rw [ThroughoutAll, ih, List.forall_mem_cons]

theorem throughout_node {P : Entries α → Prop} {entries : Entries α} :
    (Nested.node entries).Throughout P ↔ P entries ∧ ∀ e ∈ entries, e.2.Throughout P := by
  rw [Nested.Throughout, throughoutAll_iff]

theorem depthAll_le {entries : Entries α} {n : Nat}
    (h : ∀ e ∈ entries, e.1.depth < n ∧ e.2.depth < n) : depthAll entries ≤ n := by
  induction entries with
  | nil => exact Nat.zero_le n
  | cons e rest ih =>
    obtain ⟨key, value⟩ := e
    obtain ⟨hhead, hrest⟩ := List.forall_mem_cons.mp h
    have hle := ih hrest
    rw [depthAll]
    simp only at hhead
    omega

theorem depth_lt_of_mem {entries : Entries α} {e : Nested α × Nested α} (he : e ∈ entries) :
    e.1.depth < (Nested.node entries).depth ∧ e.2.depth < (Nested.node entries).depth := by
  rw [Nested.depth]
  induction entries with
  | nil => cases he
  | cons e' rest ih =>
    obtain ⟨key, value⟩ := e'
    rw [depthAll]
    rcases List.mem_cons.mp he with rfl | hrest
    · constructor <;> simp only <;> omega
    · have := ih hrest
      omega

/-- Induction over a table by its keys and values. -/
theorem Nested.induct {P : Nested α → Prop} (leaf : ∀ a, P (.leaf a))
    (node : ∀ entries : Entries α, (∀ e ∈ entries, P e.1 ∧ P e.2) → P (.node entries)) (t : Nested α) : P t := by
  induction hdepth : t.depth using Nat.strong_induction_on generalizing t with
  | _ depth ih =>
    subst hdepth
    cases t with
    | leaf a => exact leaf a
    | node entries =>
      apply node
      intro e he
      have hlt := depth_lt_of_mem he
      exact ⟨ih _ hlt.1 _ rfl, ih _ hlt.2 _ rfl⟩

section Entries

variable [DecidableEq α]

/-- Two keys are the same: equal atoms. -/
def Nested.same : Nested α → Nested α → Bool
  | .leaf a, .leaf b => decide (a = b)
  | _, _ => false

/-- The value at a key. -/
def find (key : Nested α) : Entries α → Option (Nested α)
  | [] => none
  | e :: rest => if e.1.same key then some e.2 else find key rest

/-- The entry of a key is replaced, or one is added. -/
def put (key value : Nested α) : Entries α → Entries α
  | [] => [(key, value)]
  | e :: rest => if e.1.same key then (e.1, value) :: rest else e :: put key value rest

/-- No key comes twice. -/
def Distinct (entries : Entries α) : Prop := entries.Pairwise fun e e' => e.1.same e'.1 = false

theorem same_iff {key key' : Nested α} : key.same key' = true ↔ ∃ a, key = .leaf a ∧ key' = .leaf a := by
  cases key with
  | node entries => cases key' <;> simp [Nested.same]
  | leaf a =>
    cases key' with
    | node entries => simp [Nested.same]
    | leaf b => simp [Nested.same, eq_comm]

theorem same_comm (key key' : Nested α) : key.same key' = key'.same key := by
  rw [Bool.eq_iff_iff, same_iff, same_iff]
  constructor
  · rintro ⟨a, h, h'⟩
    exact ⟨a, h', h⟩
  · rintro ⟨a, h, h'⟩
    exact ⟨a, h', h⟩

/-- Keys that are the same are the same as the same keys. -/
theorem same_congr {key key' : Nested α} (h : key.same key' = true) (other : Nested α) :
    other.same key = other.same key' := by
  obtain ⟨a, rfl, rfl⟩ := same_iff.mp h
  rfl

theorem find_eq_none {key : Nested α} {entries : Entries α} :
    find key entries = none ↔ ∀ e ∈ entries, e.1.same key = false := by
  induction entries with
  | nil => simp [find]
  | cons e rest ih =>
    rw [find, List.forall_mem_cons]
    cases h : e.1.same key <;> simp [ih]

theorem mem_of_find {key value : Nested α} {entries : Entries α} (h : find key entries = some value) :
    ∃ e ∈ entries, e.1.same key = true ∧ e.2 = value := by
  induction entries with
  | nil => cases h
  | cons e rest ih =>
    rw [find] at h
    split at h
    · rename_i hsame
      exact ⟨e, List.mem_cons_self, hsame, Option.some.inj h⟩
    · obtain ⟨e', he', hsame, hval⟩ := ih h
      exact ⟨e', List.mem_cons_of_mem e he', hsame, hval⟩

/-- Where keys do not come twice, an entry is what is found at its key. -/
theorem find_of_mem {entries : Entries α} (hd : Distinct entries) {e : Nested α × Nested α} (he : e ∈ entries)
    {key : Nested α} (hsame : e.1.same key = true) : find key entries = some e.2 := by
  induction entries with
  | nil => cases he
  | cons e' rest ih =>
    obtain ⟨hhead, htail⟩ := List.pairwise_cons.mp hd
    rw [find]
    rcases List.mem_cons.mp he with rfl | hrest
    · rw [if_pos hsame]
    · have hne : e'.1.same key = false := by rw [← same_congr hsame]; exact hhead e hrest
      rw [hne]
      exact ih htail hrest

/-- A new key is added at the end. -/
theorem put_of_find_none {key : Nested α} {entries : Entries α} (h : find key entries = none) (value : Nested α) :
    put key value entries = entries ++ [(key, value)] := by
  induction entries with
  | nil => rfl
  | cons e rest ih =>
    rw [find] at h
    split at h
    · cases h
    · rename_i hsame
      rw [put, if_neg hsame, ih h, List.cons_append]

theorem find_append (key : Nested α) (entries entries' : Entries α) :
    find key (entries ++ entries') = (find key entries).or (find key entries') := by
  induction entries with
  | nil => rfl
  | cons e rest ih =>
    rw [List.cons_append, find, find]
    split
    · rfl
    · exact ih

/-- Setting a key changes what is found at it and nothing else. -/
theorem find_put (key name value : Nested α) (entries : Entries α) :
    find name (put key value entries) = if key.same name then some value else find name entries := by
  induction entries with
  | nil => rfl
  | cons e rest ih =>
    rw [put]
    by_cases hk : e.1.same key = true
    · rw [if_pos hk, find, find]
      have hcongr : e.1.same name = key.same name := by
        rw [same_comm e.1, same_comm key]
        exact same_congr hk name
      simp only [hcongr]
      split <;> rfl
    · rw [if_neg hk, find, find]
      by_cases hn : e.1.same name = true
      · have hkn : key.same name = false := by
          by_contra hsame
          have hsame' : key.same name = true := by simpa using hsame
          apply hk
          rw [same_congr hsame' e.1]
          exact hn
        rw [if_pos hn, if_pos hn, hkn]
        rfl
      · rw [if_neg hn, if_neg hn]
        exact ih

/-- What `put` leaves are the entries of before and the one that is set. -/
theorem mem_put {key value : Nested α} {entries : Entries α} {e : Nested α × Nested α}
    (he : e ∈ put key value entries) : e ∈ entries ∨ e.2 = value := by
  induction entries with
  | nil =>
    rw [put, List.mem_singleton] at he
    exact .inr (by rw [he])
  | cons e' rest ih =>
    rw [put] at he
    split at he
    · rcases List.mem_cons.mp he with rfl | hrest
      · exact .inr rfl
      · exact .inl (List.mem_cons_of_mem e' hrest)
    · rcases List.mem_cons.mp he with rfl | hrest
      · exact .inl List.mem_cons_self
      · rcases ih hrest with hold | hnew
        · exact .inl (List.mem_cons_of_mem e' hold)
        · exact .inr hnew

/-- The keys of before stay where they are, and a new one comes last. -/
theorem keys_put (key value : Nested α) (entries : Entries α) :
    (put key value entries).map (·.1)
      = if (find key entries).isSome then entries.map (·.1) else entries.map (·.1) ++ [key] := by
  induction entries with
  | nil => rfl
  | cons e rest ih =>
    rw [put, find]
    by_cases hk : e.1.same key = true
    · rw [if_pos hk, if_pos hk]
      rfl
    · rw [if_neg hk, if_neg hk, List.map_cons, ih]
      split <;> rfl

theorem distinct_iff_keys {entries : Entries α} :
    Distinct entries ↔ (entries.map (·.1)).Pairwise fun key key' => key.same key' = false := by
  rw [Distinct, List.pairwise_map]

theorem Distinct.put {entries : Entries α} (hd : Distinct entries) (key value : Nested α) :
    Distinct (put key value entries) := by
  rw [distinct_iff_keys] at hd ⊢
  rw [keys_put]
  split
  · exact hd
  · rename_i hnone
    have hnone' : find key entries = none := by simpa using hnone
    rw [List.pairwise_append]
    refine ⟨hd, List.pairwise_singleton _ _, ?_⟩
    intro k hk k' hk'
    obtain ⟨e, he, rfl⟩ := List.mem_map.mp hk
    rw [List.mem_singleton.mp hk']
    exact find_eq_none.mp hnone' e he

/-- Where keys do not come twice, the order does not matter to what is found. -/
theorem find_perm {entries entries' : Entries α} (hp : entries.Perm entries') (hd : Distinct entries)
    (key : Nested α) : find key entries = find key entries' := by
  have hd' : Distinct entries' :=
    hp.pairwise hd fun hsame => by rw [same_comm]; exact hsame
  cases h : find key entries with
  | none =>
    symm
    rw [find_eq_none] at h ⊢
    exact fun e he => h e (hp.mem_iff.mpr he)
  | some value =>
    obtain ⟨e, he, hsame, rfl⟩ := mem_of_find h
    exact (find_of_mem hd' (hp.mem_iff.mp he) hsame).symm

/-- Setting a key, entries in another order stay entries in another order. -/
theorem perm_put {entries entries' : Entries α} (hp : entries.Perm entries') (hd : Distinct entries)
    (key value : Nested α) : (put key value entries).Perm (put key value entries') := by
  induction hp with
  | nil => exact List.Perm.refl _
  | cons e hp ih =>
    obtain ⟨-, htail⟩ := List.pairwise_cons.mp hd
    rw [put, put]
    split
    · exact hp.cons _
    · exact (ih htail).cons e
  | swap e e' rest =>
    obtain ⟨hhead, -⟩ := List.pairwise_cons.mp hd
    have hne := hhead e List.mem_cons_self
    simp only [put]
    by_cases hk : e.1.same key = true
    · have hk' : e'.1.same key = false := by rw [← same_congr hk]; exact hne
      simp only [hk, hk', if_true, Bool.false_eq_true, if_false]
      exact List.Perm.swap _ _ _
    · simp only [hk]
      split
      · exact List.Perm.swap _ _ _
      · exact List.Perm.swap _ _ _
  | trans hp hp' ih ih' =>
    have hd' : Distinct _ := hp.pairwise hd fun hsame => by rw [same_comm]; exact hsame
    exact (ih hd).trans (ih' hd')

end Entries

/-- The atoms that are numbers. -/
structure Numbers (α : Type) where
  index : Nat → α
  number : α → Option Nat
  number_iff : ∀ a n, number a = some n ↔ a = index n

section Lists

variable [DecidableEq α] (ν : Numbers α)

/-- The key is a number from one to the bound. -/
def within (bound : Nat) : Nested α → Bool
  | .leaf a =>
    match ν.number a with
    | some n => decide (1 ≤ n ∧ n ≤ bound)
    | none => false
  | .node _ => false

/-- The keys are the numbers from one on. -/
def isList (entries : Entries α) : Bool := entries.all fun e => within ν entries.length e.1

/-- There is a value at the number. -/
def present (n : Nat) (entries : Entries α) : Bool := (find (.leaf (ν.index n)) entries).isSome

/-- No number between one and a key that is a number is missing. -/
def Gapless (entries : Entries α) : Prop :=
  ∀ n, 0 < n → present ν (n + 1) entries = true → present ν n entries = true

/-- The values of a list in their order. -/
def items (entries : Entries α) : List (Nested α) :=
  (List.range entries.length).filterMap fun i => find (.leaf (ν.index (i + 1))) entries

/-- The values are added at the numbers that follow. -/
def appendItems : Entries α → List (Nested α) → Entries α
  | entries, [] => entries
  | entries, value :: rest => appendItems (entries ++ [(.leaf (ν.index (entries.length + 1)), value)]) rest

variable {ν}

omit [DecidableEq α] in
theorem index_injective {n m : Nat} (h : ν.index n = ν.index m) : n = m := by
  have hn := (ν.number_iff (ν.index n) n).mpr rfl
  rw [h] at hn
  have hm := (ν.number_iff (ν.index m) m).mpr rfl
  rw [hm] at hn
  exact (Option.some.inj hn).symm

omit [DecidableEq α] in
theorem within_iff {bound : Nat} {key : Nested α} :
    within ν bound key = true ↔ ∃ n, key = .leaf (ν.index n) ∧ 1 ≤ n ∧ n ≤ bound := by
  cases key with
  | node entries => simp [within]
  | leaf a =>
    rw [within]
    cases h : ν.number a with
    | none =>
      constructor
      · intro hfalse
        cases hfalse
      · rintro ⟨n, hkey, -⟩
        cases hkey
        rw [(ν.number_iff _ n).mpr rfl] at h
        cases h
    | some n =>
      have ha := (ν.number_iff a n).mp h
      subst ha
      constructor
      · intro hle
        exact ⟨n, rfl, of_decide_eq_true hle⟩
      · rintro ⟨m, hkey, hle⟩
        have hsame : n = m := index_injective (Nested.leaf.inj hkey)
        subst hsame
        exact decide_eq_true hle

omit [DecidableEq α] in
theorem isList_iff {entries : Entries α} :
    isList ν entries = true ↔
      ∀ e ∈ entries, ∃ n, e.1 = .leaf (ν.index n) ∧ 1 ≤ n ∧ n ≤ entries.length := by
  simp only [isList, List.all_eq_true, within_iff]

theorem present_iff {n : Nat} {entries : Entries α} :
    present ν n entries = true ↔ ∃ e ∈ entries, e.1 = .leaf (ν.index n) := by
  rw [present]
  constructor
  · intro h
    obtain ⟨value, hfind⟩ := Option.isSome_iff_exists.mp h
    obtain ⟨e, he, hsame, -⟩ := mem_of_find hfind
    obtain ⟨a, hkey, hother⟩ := same_iff.mp hsame
    exact ⟨e, he, hkey.trans hother.symm⟩
  · rintro ⟨e, he, hkey⟩
    by_contra hnone
    have hfind : find (.leaf (ν.index n)) entries = none := by simpa using hnone
    have hne := find_eq_none.mp hfind e he
    rw [hkey] at hne
    simp [Nested.same] at hne

/-- The numbers that are keys, in the order of the entries. -/
def keyNumbers (ν : Numbers α) (entries : Entries α) : List Nat :=
  entries.filterMap fun e =>
    match e.1 with
    | .leaf a => ν.number a
    | .node _ => none

omit [DecidableEq α] in
theorem mem_keyNumbers {n : Nat} {entries : Entries α} :
    n ∈ keyNumbers ν entries ↔ ∃ e ∈ entries, e.1 = .leaf (ν.index n) := by
  rw [keyNumbers, List.mem_filterMap]
  constructor
  · rintro ⟨e, he, hn⟩
    refine ⟨e, he, ?_⟩
    split at hn
    · rename_i a ha
      rw [ha, (ν.number_iff a n).mp hn]
    · cases hn
  · rintro ⟨e, he, hkey⟩
    refine ⟨e, he, ?_⟩
    rw [hkey]
    exact (ν.number_iff _ n).mpr rfl

theorem nodup_keyNumbers {entries : Entries α} (hd : Distinct entries) : (keyNumbers ν entries).Nodup := by
  induction entries with
  | nil => exact List.nodup_nil
  | cons e rest ih =>
    obtain ⟨hhead, htail⟩ := List.pairwise_cons.mp hd
    have hcons : keyNumbers ν (e :: rest) = (keyNumbers ν [e]) ++ keyNumbers ν rest := by
      rw [keyNumbers, keyNumbers, keyNumbers, ← List.filterMap_append]
      rfl
    rw [hcons, List.nodup_append]
    refine ⟨?_, ih htail, ?_⟩
    · rw [keyNumbers, List.filterMap_cons]
      split
      · exact List.nodup_nil
      · exact List.nodup_singleton _
    · intro n hn m hm heq
      subst heq
      obtain ⟨e1, he1, hkey1⟩ := mem_keyNumbers.mp hn
      obtain ⟨e2, he2, hkey2⟩ := mem_keyNumbers.mp hm
      rw [List.mem_singleton.mp he1] at hkey1
      have hne := hhead e2 he2
      rw [hkey1, hkey2] at hne
      simp [Nested.same] at hne

/-- A list holds every number up to its length. -/
theorem present_of_isList {entries : Entries α} (hd : Distinct entries) (hl : isList ν entries = true) {n : Nat}
    (hn : 1 ≤ n) (hle : n ≤ entries.length) : present ν n entries = true := by
  have hlen : (keyNumbers ν entries).length = entries.length := by
    rw [keyNumbers, List.length_filterMap_eq_countP, List.countP_eq_length]
    intro e he
    obtain ⟨m, hkey, -⟩ := isList_iff.mp hl e he
    rw [hkey]
    simp [(ν.number_iff _ m).mpr rfl]
  have hsub : keyNumbers ν entries ⊆ List.range' 1 entries.length := by
    intro m hm
    obtain ⟨e, he, hkey⟩ := mem_keyNumbers.mp hm
    obtain ⟨k, hkey', hk⟩ := isList_iff.mp hl e he
    rw [hkey] at hkey'
    have hmk : m = k := index_injective (Nested.leaf.inj hkey')
    rw [List.mem_range'_1]
    omega
  have hperm := (List.subperm_of_subset (nodup_keyNumbers hd) hsub).perm_of_length_le (by simp [hlen])
  have hmem : n ∈ keyNumbers ν entries := by
    rw [hperm.mem_iff, List.mem_range'_1]
    omega
  exact present_iff.mpr (mem_keyNumbers.mp hmem)

theorem not_present_of_isList {entries : Entries α} (hl : isList ν entries = true) {n : Nat}
    (hn : entries.length < n) : find (.leaf (ν.index n)) entries = none := by
  rw [find_eq_none]
  intro e he
  obtain ⟨m, hkey, hm⟩ := isList_iff.mp hl e he
  rw [hkey, Nested.same, decide_eq_false_iff_not]
  intro heq
  have := index_injective heq
  omega

/-- Without a gap every number below one that is a key is a key. -/
theorem Gapless.down {entries : Entries α} (hg : Gapless ν entries) {n m : Nat} (hm : 0 < m) (hle : m ≤ n)
    (hn : present ν n entries = true) : present ν m entries = true := by
  induction hle with
  | refl => exact hn
  | step hle ih => exact ih (hg _ (Nat.lt_of_lt_of_le hm hle) hn)

/-- A number behind which the next is missing. -/
def Border (ν : Numbers α) (entries : Entries α) (n : Nat) : Prop :=
  (n = 0 ∨ present ν n entries = true) ∧ present ν (n + 1) entries = false

/-- Without a gap the keys are the numbers up to a border exactly where the table is a list. -/
theorem within_border_iff {entries : Entries α} (hd : Distinct entries) (hg : Gapless ν entries) {n : Nat}
    (hb : Border ν entries n) :
    (∀ e ∈ entries, within ν n e.1 = true) ↔ isList ν entries = true := by
  constructor
  · intro hall
    have hcovers : List.range' 1 n ⊆ keyNumbers ν entries := by
      intro m hm
      rw [List.mem_range'_1] at hm
      have hn : present ν n entries = true := by
        rcases hb.1 with h0 | hp
        · omega
        · exact hp
      exact mem_keyNumbers.mpr (present_iff.mp (hg.down (by omega) (by omega) hn))
    have hlen : n ≤ entries.length := by
      have hsub := (List.subperm_of_subset List.nodup_range' hcovers).length_le
      have hle : (keyNumbers ν entries).length ≤ entries.length := List.length_filterMap_le _ _
      rw [List.length_range'] at hsub
      omega
    rw [isList_iff]
    intro e he
    obtain ⟨m, hkey, hm⟩ := within_iff.mp (hall e he)
    exact ⟨m, hkey, hm.1, by omega⟩
  · intro hl e he
    obtain ⟨m, hkey, hm⟩ := isList_iff.mp hl e he
    have hle : entries.length ≤ n := by
      by_contra hlt
      have hnext := present_of_isList hd hl (n := n + 1) (by omega) (by omega)
      rw [hb.2] at hnext
      cases hnext
    exact within_iff.mpr ⟨m, hkey, hm.1, by omega⟩

/-- The one border of a list is its length. -/
theorem border_of_isList {entries : Entries α} (hd : Distinct entries) (hl : isList ν entries = true) {n : Nat}
    (hb : Border ν entries n) : n = entries.length := by
  apply Nat.le_antisymm
  · rcases hb.1 with h0 | hp
    · omega
    · obtain ⟨e, he, hkey⟩ := present_iff.mp hp
      obtain ⟨m, hkey', hm⟩ := isList_iff.mp hl e he
      rw [hkey] at hkey'
      have := index_injective (Nested.leaf.inj hkey')
      omega
  · by_contra hlt
    have hnext := present_of_isList hd hl (n := n + 1) (by omega) (by omega)
    rw [hb.2] at hnext
    cases hnext

omit [DecidableEq α] in
/-- A list stays one when the next value is added. -/
theorem isList_snoc {entries : Entries α} (hl : isList ν entries = true) (value : Nested α) :
    isList ν (entries ++ [(.leaf (ν.index (entries.length + 1)), value)]) = true := by
  rw [isList_iff] at hl ⊢
  intro e he
  rw [List.length_append, List.length_singleton]
  rcases List.mem_append.mp he with hold | hnew
  · obtain ⟨m, hkey, hm⟩ := hl e hold
    exact ⟨m, hkey, hm.1, by omega⟩
  · rw [List.mem_singleton.mp hnew]
    exact ⟨entries.length + 1, rfl, by omega, by omega⟩

omit [DecidableEq α] in
theorem appendItems_isList {entries : Entries α} (hl : isList ν entries = true) (values : List (Nested α)) :
    isList ν (appendItems ν entries values) = true := by
  induction values generalizing entries with
  | nil => exact hl
  | cons value rest ih => exact ih (isList_snoc hl value)

theorem distinct_snoc {entries : Entries α} (hd : Distinct entries) {key : Nested α}
    (hnew : find key entries = none) (value : Nested α) : Distinct (entries ++ [(key, value)]) := by
  rw [← put_of_find_none hnew]
  exact hd.put key value

theorem Distinct.appendItems {entries : Entries α} (hd : Distinct entries) (hl : isList ν entries = true)
    (values : List (Nested α)) : Distinct (appendItems ν entries values) := by
  induction values generalizing entries with
  | nil => exact hd
  | cons value rest ih =>
    exact ih (distinct_snoc hd (not_present_of_isList hl (by omega)) value) (isList_snoc hl value)

omit [DecidableEq α] in
theorem appendItems_append (entries : Entries α) (values values' : List (Nested α)) :
    appendItems ν entries (values ++ values') = appendItems ν (appendItems ν entries values) values' := by
  induction values generalizing entries with
  | nil => rfl
  | cons value rest ih => exact ih _

omit [DecidableEq α] in
theorem length_appendItems (entries : Entries α) (values : List (Nested α)) :
    (appendItems ν entries values).length = entries.length + values.length := by
  induction values generalizing entries with
  | nil => rfl
  | cons value rest ih =>
    rw [appendItems, ih, List.length_append, List.length_singleton, List.length_cons]
    omega

omit [DecidableEq α] in
/-- What `appendItems` leaves are the entries of before and the values. -/
theorem mem_appendItems {entries : Entries α} {values : List (Nested α)} {e : Nested α × Nested α}
    (he : e ∈ appendItems ν entries values) : e ∈ entries ∨ e.2 ∈ values := by
  induction values generalizing entries with
  | nil => exact .inl he
  | cons value rest ih =>
    rcases ih he with hold | hnew
    · rcases List.mem_append.mp hold with hbefore | hvalue
      · exact .inl hbefore
      · rw [List.mem_singleton.mp hvalue]
        exact .inr List.mem_cons_self
    · exact .inr (List.mem_cons_of_mem value hnew)

omit [DecidableEq α] in
theorem perm_appendItems {entries entries' : Entries α} (hp : entries.Perm entries') (values : List (Nested α)) :
    (appendItems ν entries values).Perm (appendItems ν entries' values) := by
  induction values generalizing entries entries' with
  | nil => exact hp
  | cons value rest ih =>
    rw [appendItems, appendItems, hp.length_eq]
    exact ih (hp.append_right _)

/-- A list has no gap. -/
theorem gapless_of_isList {entries : Entries α} (hd : Distinct entries) (hl : isList ν entries = true) :
    Gapless ν entries := by
  intro n hn hnext
  obtain ⟨e, he, hkey⟩ := present_iff.mp hnext
  obtain ⟨m, hkey', hm⟩ := isList_iff.mp hl e he
  rw [hkey] at hkey'
  have := index_injective (Nested.leaf.inj hkey')
  exact present_of_isList hd hl hn (by omega)

omit [DecidableEq α] in
theorem isList_perm {entries entries' : Entries α} (hp : entries.Perm entries') :
    isList ν entries = isList ν entries' := by
  rw [Bool.eq_iff_iff, isList_iff, isList_iff, hp.length_eq]
  constructor
  · exact fun h e he => h e (hp.mem_iff.mpr he)
  · exact fun h e he => h e (hp.mem_iff.mp he)

end Lists

section Merge

variable [DecidableEq α] (ν : Numbers α)

mutual

/-- Two lists are put one behind the other, two other tables are merged key by key,
and otherwise the second value wins. -/
def Nested.merge (t : Nested α) : Nested α → Nested α
  | .leaf a => .leaf a
  | .node entries' =>
    match t with
    | .leaf _ => .node entries'
    | .node entries =>
      if isList ν entries && isList ν entries' then .node (appendItems ν entries (items ν entries'))
      else .node (mergeEntries entries entries')

/-- Each entry is merged with the one at its key. -/
def mergeEntries (entries : Entries α) : List (Nested α × Nested α) → Entries α
  | [] => entries
  | (key, value) :: rest =>
    mergeEntries
      (put key (match find key entries with
        | some old => old.merge value
        | none => value) entries) rest

end

variable {ν}

/-- What an entry puts at its key. -/
def merged (ν : Numbers α) (old : Option (Nested α)) (value : Nested α) : Nested α :=
  match old with
  | some t => t.merge ν value
  | none => value

/-- The entries of the merge of two tables. -/
def mergeTables (ν : Numbers α) (entries entries' : Entries α) : Entries α :=
  if isList ν entries && isList ν entries' then appendItems ν entries (items ν entries')
  else mergeEntries ν entries entries'

theorem merge_nodes (entries entries' : Entries α) :
    (Nested.node entries).merge ν (.node entries') = .node (mergeTables ν entries entries') := by
  rw [Nested.merge, mergeTables]
  split <;> rfl

theorem mergeEntries_cons (entries : Entries α) (key value : Nested α) (rest : Entries α) :
    mergeEntries ν entries ((key, value) :: rest)
      = mergeEntries ν (put key (merged ν (find key entries) value) entries) rest := by
  rw [mergeEntries]
  rfl

/-- What the merge holds at a key: the first table's value, the second's, or the two merged. -/
theorem find_mergeEntries (entries entries' : Entries α) (hd : Distinct entries') (key : Nested α) :
    find key (mergeEntries ν entries entries')
      = match find key entries' with
        | some value => some (merged ν (find key entries) value)
        | none => find key entries := by
  induction entries' generalizing entries with
  | nil => rfl
  | cons e rest ih =>
    obtain ⟨k, value⟩ := e
    obtain ⟨hhead, htail⟩ := List.pairwise_cons.mp hd
    rw [mergeEntries_cons, ih _ htail, find_put, find]
    by_cases hk : k.same key = true
    · have hrest : find key rest = none := by
        rw [find_eq_none]
        intro e' he'
        rw [← same_congr hk, same_comm]
        exact hhead e' he'
      have hcongr : find k entries = find key entries := by
        obtain ⟨a, rfl, rfl⟩ := same_iff.mp hk
        rfl
      rw [hrest, if_pos hk, if_pos hk, hcongr]
    · rw [if_neg hk, if_neg hk]

theorem Distinct.mergeEntries {entries : Entries α} (hd : Distinct entries) (entries' : Entries α) :
    Distinct (mergeEntries ν entries entries') := by
  induction entries' generalizing entries with
  | nil => exact hd
  | cons e rest ih =>
    obtain ⟨key, value⟩ := e
    rw [mergeEntries_cons]
    exact ih (hd.put _ _)

theorem present_mergeEntries {entries entries' : Entries α} (hd : Distinct entries') (n : Nat) :
    present ν n (mergeEntries ν entries entries') = (present ν n entries || present ν n entries') := by
  rw [present, find_mergeEntries _ _ hd, present, present]
  cases find (Nested.leaf (ν.index n)) entries' <;> simp

theorem Gapless.mergeEntries {entries entries' : Entries α} (hd : Distinct entries')
    (hg : Gapless ν entries) (hg' : Gapless ν entries') : Gapless ν (mergeEntries ν entries entries') := by
  intro n hn hnext
  rw [present_mergeEntries hd, Bool.or_eq_true] at hnext ⊢
  rcases hnext with hleft | hright
  · exact .inl (hg n hn hleft)
  · exact .inr (hg' n hn hright)

theorem perm_mergeEntries {entries entries' : Entries α} (hp : entries.Perm entries') (hd : Distinct entries)
    (others : Entries α) : (mergeEntries ν entries others).Perm (mergeEntries ν entries' others) := by
  induction others generalizing entries entries' with
  | nil => exact hp
  | cons e rest ih =>
    obtain ⟨key, value⟩ := e
    rw [mergeEntries_cons, mergeEntries_cons, find_perm hp hd key]
    exact ih (perm_put hp hd key _) (hd.put _ _)

/-- The values of a list, by their numbers. -/
theorem items_eq {entries : Entries α} (hd : Distinct entries) (hl : isList ν entries = true) :
    ∃ value : Nat → Nested α, items ν entries = (List.range entries.length).map value ∧
      ∀ i < entries.length, find (.leaf (ν.index (i + 1))) entries = some (value i) := by
  have hsome : ∀ i < entries.length, ∃ value, find (.leaf (ν.index (i + 1))) entries = some value := by
    intro i hi
    exact Option.isSome_iff_exists.mp (present_of_isList hd hl (n := i + 1) (by omega) (by omega))
  refine ⟨fun i => (find (.leaf (ν.index (i + 1))) entries).getD (.node []), ?_, ?_⟩
  · rw [items, ← List.filterMap_eq_map]
    apply List.filterMap_congr
    intro i hi
    obtain ⟨value, hvalue⟩ := hsome i (List.mem_range.mp hi)
    rw [Function.comp_apply, hvalue]
    rfl
  · intro i hi
    obtain ⟨value, hvalue⟩ := hsome i hi
    simp only [hvalue, Option.getD_some]

theorem length_items {entries : Entries α} (hd : Distinct entries) (hl : isList ν entries = true) :
    (items ν entries).length = entries.length := by
  obtain ⟨value, hitems, -⟩ := items_eq hd hl
  rw [hitems, List.length_map, List.length_range]

/-- Each value of a list is the value of an entry. -/
theorem mem_items {entries : Entries α} {value : Nested α} (h : value ∈ items ν entries) :
    ∃ e ∈ entries, e.2 = value := by
  rw [items, List.mem_filterMap] at h
  obtain ⟨i, -, hfind⟩ := h
  obtain ⟨e, he, -, hvalue⟩ := mem_of_find hfind
  exact ⟨e, he, hvalue⟩

omit [DecidableEq α] in
theorem appendItems_eq (entries : Entries α) (values : List (Nested α)) :
    appendItems ν entries values
      = entries ++ (values.zipIdx (entries.length + 1)).map fun p => (.leaf (ν.index p.2), p.1) := by
  induction values generalizing entries with
  | nil => simp [appendItems]
  | cons value rest ih =>
    rw [appendItems, ih, List.length_append, List.length_singleton, List.zipIdx_cons, List.map_cons,
      List.append_assoc]
    rfl

/-- The values of a list, numbered from one on, are the list. -/
theorem perm_items {entries : Entries α} (hd : Distinct entries) (hl : isList ν entries = true) :
    (appendItems ν [] (items ν entries)).Perm entries := by
  have nodup : ∀ {l : Entries α}, Distinct l → isList ν l = true → l.Nodup := by
    intro l hdl hll
    apply hdl.imp_of_mem
    intro e e' he _ hne heq
    obtain ⟨m, hkey, -⟩ := isList_iff.mp hll e he
    rw [← heq, hkey] at hne
    simp [Nested.same] at hne
  have hl' : isList ν (appendItems ν ([] : Entries α) (items ν entries)) = true := appendItems_isList rfl _
  have hd' : Distinct (appendItems ν ([] : Entries α) (items ν entries)) :=
    Distinct.appendItems List.Pairwise.nil rfl _
  rw [List.perm_ext_iff_of_nodup (nodup hd' hl') (nodup hd hl)]
  obtain ⟨value, hitems, hvalue⟩ := items_eq hd hl
  intro e
  rw [appendItems_eq, hitems, List.nil_append, List.mem_map]
  constructor
  · rintro ⟨p, hp, rfl⟩
    obtain ⟨i, hi, hget⟩ := List.mem_iff_getElem.mp hp
    rw [List.length_zipIdx, List.length_map, List.length_range] at hi
    rw [List.getElem_zipIdx, List.getElem_map, List.getElem_range] at hget
    subst hget
    obtain ⟨e', he', hsame, hval⟩ := mem_of_find (hvalue i hi)
    obtain ⟨a, hkey, hother⟩ := same_iff.mp hsame
    have hnum : ([] : Entries α).length + 1 + i = i + 1 := by simp only [List.length_nil]; omega
    rw [hnum, ← hval, hother, ← hkey]
    exact he'
  · intro he
    obtain ⟨m, hkey, hm⟩ := isList_iff.mp hl e he
    have hsame : e.1.same (.leaf (ν.index m)) = true := by
      rw [hkey]
      simp [Nested.same]
    have hfind := find_of_mem hd he hsame
    have hval := hvalue (m - 1) (by omega)
    have hsucc : m - 1 + 1 = m := by omega
    rw [hsucc, hfind] at hval
    refine ⟨(value (m - 1), m), ?_, ?_⟩
    · rw [List.mem_iff_getElem]
      refine ⟨m - 1, by simp; omega, ?_⟩
      rw [List.getElem_zipIdx, List.getElem_map, List.getElem_range]
      simp only [List.length_nil, Prod.mk.injEq, true_and]
      omega
    · rw [← Option.some.inj hval, ← hkey]

/-- Merging into an empty table keeps the entries. -/
theorem mergeEntries_nil {entries : Entries α} (hd : Distinct entries) (before : Entries α)
    (hnew : ∀ e ∈ entries, find e.1 before = none) : mergeEntries ν before entries = before ++ entries := by
  induction entries generalizing before with
  | nil => rw [mergeEntries, List.append_nil]
  | cons e rest ih =>
    obtain ⟨key, value⟩ := e
    obtain ⟨hhead, htail⟩ := List.pairwise_cons.mp hd
    obtain ⟨hkey, hrest⟩ := List.forall_mem_cons.mp hnew
    rw [mergeEntries_cons, hkey, put_of_find_none hkey, ih htail, List.append_assoc]
    · rfl
    · intro e' he'
      rw [find_append, hrest e' he', find, if_neg (by rw [hhead e' he']; decide)]
      rfl

theorem Distinct.mergeTables {entries : Entries α} (hd : Distinct entries) (entries' : Entries α) :
    Distinct (mergeTables ν entries entries') := by
  rw [NestedTables.mergeTables]
  split
  · rename_i hlists
    rw [Bool.and_eq_true] at hlists
    exact hd.appendItems hlists.1 _
  · exact hd.mergeEntries entries'

theorem perm_mergeTables {entries entries' : Entries α} (hp : entries.Perm entries') (hd : Distinct entries)
    (others : Entries α) : (mergeTables ν entries others).Perm (mergeTables ν entries' others) := by
  rw [mergeTables, mergeTables, isList_perm hp]
  split
  · exact perm_appendItems hp _
  · exact perm_mergeEntries hp hd others

/-- Merging into an empty table gives the table. -/
theorem mergeTables_nil {entries : Entries α} (hd : Distinct entries) :
    (mergeTables ν [] entries).Perm entries := by
  rw [mergeTables]
  split
  · rename_i hlists
    rw [Bool.and_eq_true] at hlists
    exact perm_items hd hlists.2
  · rw [mergeEntries_nil hd [] (fun _ _ => rfl)]
    exact List.Perm.refl _

/-- Merges one after another, entries in another order stay entries in another order. -/
theorem perm_foldl_mergeTables {entries entries' : Entries α} (hp : entries.Perm entries') (hd : Distinct entries)
    (others : List (Entries α)) :
    (others.foldl (mergeTables ν) entries).Perm (others.foldl (mergeTables ν) entries') := by
  induction others generalizing entries entries' with
  | nil => exact hp
  | cons other rest ih => exact ih (perm_mergeTables hp hd other) (hd.mergeTables other)

end Merge

section Plain

variable [DecidableEq α] {ν : Numbers α}

/-- How a table says that it is more than a table: an atom of some sort at a key that is no number. -/
structure Marks (ν : Numbers α) where
  key : α
  sort : α → Bool
  key_no_number : ν.number key = none

/-- The table is no more than a table. -/
def Marks.Unmarked (μ : Marks ν) (entries : Entries α) : Prop :=
  ∀ a, find (.leaf μ.key) entries = some (.leaf a) → μ.sort a = false

/-- A table without a mark that has no gap among its numbers. -/
structure Plain (μ : Marks ν) (entries : Entries α) : Prop where
  distinct : Distinct entries
  gapless : Gapless ν entries
  unmarked : μ.Unmarked entries

variable {μ : Marks ν}

theorem unmarked_of_isList {entries : Entries α} (hl : isList ν entries = true) : μ.Unmarked entries := by
  intro a hfind
  obtain ⟨e, he, hsame, -⟩ := mem_of_find hfind
  obtain ⟨m, hkey, -⟩ := isList_iff.mp hl e he
  rw [hkey, Nested.same, decide_eq_true_iff] at hsame
  have hnumber := (ν.number_iff μ.key m).mpr hsame.symm
  rw [μ.key_no_number] at hnumber
  cases hnumber

theorem Plain.appendItems {entries : Entries α} (hp : Plain μ entries) (hl : isList ν entries = true)
    (values : List (Nested α)) : Plain μ (appendItems ν entries values) where
  distinct := hp.distinct.appendItems hl values
  gapless := gapless_of_isList (hp.distinct.appendItems hl values) (appendItems_isList hl values)
  unmarked := unmarked_of_isList (appendItems_isList hl values)

/-- A merge with a table is a table. -/
theorem merge_node (t : Nested α) (entries : Entries α) : ∃ entries', t.merge ν (.node entries) = .node entries' := by
  cases t with
  | leaf a => exact ⟨entries, by rw [Nested.merge]⟩
  | node others =>
    rw [Nested.merge]
    split <;> exact ⟨_, rfl⟩

theorem merged_leaf (old : Option (Nested α)) (a : α) : merged ν old (.leaf a) = .leaf a := by
  cases old with
  | none => rfl
  | some t => rw [merged, Nested.merge]

theorem Plain.mergeEntries {entries entries' : Entries α} (hp : Plain μ entries) (hp' : Plain μ entries') :
    Plain μ (mergeEntries ν entries entries') where
  distinct := hp.distinct.mergeEntries entries'
  gapless := hp.gapless.mergeEntries hp'.distinct hp'.gapless
  unmarked := by
    intro a hfind
    rw [find_mergeEntries _ _ hp'.distinct] at hfind
    split at hfind
    · rename_i value hvalue
      cases value with
      | leaf b =>
        rw [merged_leaf] at hfind
        cases hfind
        exact hp'.unmarked a hvalue
      | node others =>
        cases hold : find (.leaf μ.key) entries with
        | none =>
          rw [hold] at hfind
          cases hfind
        | some t =>
          obtain ⟨result, hresult⟩ := merge_node (ν := ν) t others
          rw [hold, merged, hresult] at hfind
          cases hfind
    · exact hp.unmarked a hfind

mutual

/-- A merge of tables that are plain throughout is plain throughout. -/
theorem throughout_merge {t : Nested α} (ht : t.Throughout (Plain μ)) :
    ∀ {u : Nested α}, u.Throughout (Plain μ) → (t.merge ν u).Throughout (Plain μ)
  | .leaf a, _ => by
    rw [Nested.merge]
    trivial
  | .node entries', hu => by
    cases t with
    | leaf a =>
      rw [Nested.merge]
      exact hu
    | node entries =>
      rw [Nested.merge]
      obtain ⟨hp, hvalues⟩ := throughout_node.mp ht
      obtain ⟨hp', hvalues'⟩ := throughout_node.mp hu
      split
      · rename_i hlists
        rw [Bool.and_eq_true] at hlists
        rw [throughout_node]
        refine ⟨hp.appendItems hlists.1 _, ?_⟩
        intro e he
        rcases mem_appendItems he with hold | hnew
        · exact hvalues e hold
        · obtain ⟨e', he', hvalue⟩ := mem_items hnew
          rw [← hvalue]
          exact hvalues' e' he'
      · rw [throughout_node]
        exact ⟨hp.mergeEntries hp', throughout_mergeEntries hvalues (throughoutAll_iff.mpr hvalues')⟩

theorem throughout_mergeEntries {entries : Entries α} (h : ∀ e ∈ entries, e.2.Throughout (Plain μ)) :
    ∀ {entries' : List (Nested α × Nested α)}, ThroughoutAll (Plain μ) entries' →
      ∀ e ∈ mergeEntries ν entries entries', e.2.Throughout (Plain μ)
  | [], _ => h
  | (key, value) :: rest, h' => by
    obtain ⟨hvalue, hrest⟩ := h'
    rw [mergeEntries_cons]
    refine throughout_mergeEntries ?_ hrest
    intro e he
    rcases mem_put he with hold | hnew
    · exact h e hold
    · rw [hnew]
      cases hfind : find key entries with
      | none => exact hvalue
      | some old =>
        obtain ⟨e', he', -, hval⟩ := mem_of_find hfind
        have hold : old.Throughout (Plain μ) := by rw [← hval]; exact h e' he'
        exact throughout_merge hold hvalue

end

/-- What a merge puts at a key is plain throughout. -/
theorem throughout_merged {entries : Entries α} (h : ∀ e ∈ entries, e.2.Throughout (Plain μ)) {value : Nested α}
    (hvalue : value.Throughout (Plain μ)) (key : Nested α) :
    (merged ν (find key entries) value).Throughout (Plain μ) := by
  cases hfind : find key entries with
  | none => exact hvalue
  | some old =>
    obtain ⟨e, he, -, hval⟩ := mem_of_find hfind
    have hold : old.Throughout (Plain μ) := by rw [← hval]; exact h e he
    exact throughout_merge hold hvalue

end Plain

end QStar.Lib.NestedTables
