import QStar.Lib.Bindings
import QStar.Lib.NestedTables

/-!
# Nested tables in a heap

Tables are numbered as they are made. A value of the heap is the root of a nested
table, and what is said about one names the tables that it takes, so that two of
them are known to share none. A step that works on one nested table leaves every
other table of before as it was.
-/
namespace QStar.Lib.TableHeaps

open QStar.Lib.Bindings
open QStar.Lib.NestedTables

inductive Value (α : Type) where
  | atom (a : α)
  | table (id : Nat)
  deriving DecidableEq

structure Table (α : Type) where
  entries : List (Value α × Value α)
  /-- the table that `__index` reads -/
  behind : Option Nat
  deriving DecidableEq

abbrev Heap (α : Type) := List (Table α)

variable {α : Type}

namespace Heap

def entries (h : Heap α) (id : Nat) : List (Value α × Value α) := (h[id]?.map (·.entries)).getD []

def behind (h : Heap α) (id : Nat) : Option Nat := h[id]?.bind (·.behind)

section Access

variable [DecidableEq α]

/-- `lua_rawget` -/
def rawget (h : Heap α) (id : Nat) (key : Value α) : Option (Value α) := (h.entries id).lookup key

/-- `t[key]`: the entry of the table, else that of the table `__index` reads, which has no
metatable itself. -/
def gettable (h : Heap α) (id : Nat) (key : Value α) : Option (Value α) :=
  (h.rawget id key).or ((h.behind id).bind fun data => h.rawget data key)

/-- `lua_newtable`: the new table is numbered by how many there are. -/
def alloc (h : Heap α) : Heap α := h ++ [⟨[], none⟩]

/-- `lua_rawset`: an entry that is set to nil is none. -/
def rawset (h : Heap α) (id : Nat) (key : Value α) (value : Option (Value α)) : Heap α :=
  h.modify id fun t =>
    { t with entries := match value with
        | some v => assign key v t.entries
        | none => t.entries.filter fun e => decide (e.1 ≠ key) }

end Access

end Heap

/-- The entries of a table and of a nested table agree one by one, and the tables they take
are listed. -/
inductive Entrywise (R : Value α → Nested α → List Nat → Prop) :
    List (Value α × Value α) → List (Nested α × Nested α) → List Nat → Prop
  | nil : Entrywise R [] [] []
  | cons {key value : Value α} {tkey tvalue : Nested α} {keyIds valueIds ids : List Nat}
      {es : List (Value α × Value α)} {ts : List (Nested α × Nested α)} :
      R key tkey keyIds → R value tvalue valueIds → Entrywise R es ts ids →
      Entrywise R ((key, value) :: es) ((tkey, tvalue) :: ts) (keyIds ++ (valueIds ++ ids))

/-- The value is the root of a nested table of plain tables, and takes the tables listed. -/
inductive Holds (h : Heap α) : Value α → Nested α → List Nat → Prop
  | atom (a : α) : Holds h (.atom a) (.leaf a) []
  | table {id : Nat} {es : List (Value α × Value α)} {ts : List (Nested α × Nested α)} {ids : List Nat} :
      h[id]? = some ⟨es, none⟩ → (es.map (·.1)).Nodup → Entrywise (Holds h) es ts ids →
      Holds h (.table id) (.node ts) (id :: ids)

/-- The work on a nested table that took the first tables and takes the second. -/
structure Updated (h h' : Heap α) (ids ids' : List Nat) : Prop where
  grown : h.length ≤ h'.length
  frame : ∀ id < h.length, id ∉ ids → h'[id]? = h[id]?
  nodup : ids'.Nodup
  owned : ∀ id ∈ ids', id ∈ ids ∨ h.length ≤ id

theorem Updated.trans {h h' h'' : Heap α} {ids ids' ids'' : List Nat} (hu : Updated h h' ids ids')
    (hu' : Updated h' h'' ids' ids'') : Updated h h'' ids ids'' where
  grown := Nat.le_trans hu.grown hu'.grown
  frame := by
    intro id hid hout
    have hout' : id ∉ ids' := by
      intro hin
      rcases hu.owned id hin with hold | hnew
      · exact hout hold
      · omega
    rw [hu'.frame id (Nat.lt_of_lt_of_le hid hu.grown) hout', hu.frame id hid hout]
  nodup := hu'.nodup
  owned := by
    intro id hid
    rcases hu'.owned id hid with hold | hnew
    · exact hu.owned id hold
    · exact .inr (Nat.le_trans hu.grown hnew)

/-- Entries stay where what they hold stays. -/
theorem Entrywise.imp {R R' : Value α → Nested α → List Nat → Prop} {es : List (Value α × Value α)}
    {ts : List (Nested α × Nested α)} {ids : List Nat} (hz : Entrywise R es ts ids)
    (himp : ∀ e ∈ ts, ∀ v i, (∀ id ∈ i, id ∈ ids) → (R v e.1 i → R' v e.1 i) ∧ (R v e.2 i → R' v e.2 i)) :
    Entrywise R' es ts ids := by
  induction hz with
  | nil => exact .nil
  | cons hkey hvalue _ ih =>
    obtain ⟨hhead, hrest⟩ := List.forall_mem_cons.mp himp
    refine .cons ((hhead _ _ ?_).1 hkey) ((hhead _ _ ?_).2 hvalue) (ih ?_)
    · exact fun id hid => List.mem_append_left _ hid
    · exact fun id hid => List.mem_append_right _ (List.mem_append_left _ hid)
    · exact fun e he v i hsub => hrest e he v i fun id hid =>
        List.mem_append_right _ (List.mem_append_right _ (hsub id hid))

/-- A nested table stays where its tables stay. -/
theorem Holds.frame {h h' : Heap α} {v : Value α} {t : Nested α} {ids : List Nat} (hv : Holds h v t ids)
    (hsame : ∀ id ∈ ids, h'[id]? = h[id]?) : Holds h' v t ids := by
  induction t using Nested.induct generalizing v ids with
  | leaf a =>
    cases hv
    exact .atom a
  | node ts ih =>
    cases hv with
    | @table id es _ ids hget hkeys hentries =>
      refine .table ((hsame id List.mem_cons_self).trans hget) hkeys (hentries.imp ?_)
      intro e he v i hsub
      have hsame' : ∀ j ∈ i, h'[j]? = h[j]? := fun j hj => hsame j (List.mem_cons_of_mem id (hsub j hj))
      exact ⟨fun hkey => (ih e he).1 hkey hsame', fun hvalue => (ih e he).2 hvalue hsame'⟩

theorem Entrywise.frame {h h' : Heap α} {es : List (Value α × Value α)} {ts : List (Nested α × Nested α)}
    {ids : List Nat} (hz : Entrywise (Holds h) es ts ids) (hsame : ∀ id ∈ ids, h'[id]? = h[id]?) :
    Entrywise (Holds h') es ts ids :=
  hz.imp fun _ _ _ _ hsub =>
    ⟨fun hkey => hkey.frame fun id hid => hsame id (hsub id hid),
      fun hvalue => hvalue.frame fun id hid => hsame id (hsub id hid)⟩

theorem Entrywise.forall_ids {R : Value α → Nested α → List Nat → Prop} {P : Nat → Prop}
    {es : List (Value α × Value α)} {ts : List (Nested α × Nested α)} {ids : List Nat} (hz : Entrywise R es ts ids)
    (hP : ∀ e ∈ ts, ∀ v i, (R v e.1 i → ∀ id ∈ i, P id) ∧ (R v e.2 i → ∀ id ∈ i, P id)) :
    ∀ id ∈ ids, P id := by
  induction hz with
  | nil =>
    intro id hid
    cases hid
  | cons hkey hvalue _ ih =>
    obtain ⟨hhead, hrest⟩ := List.forall_mem_cons.mp hP
    intro id hid
    rcases List.mem_append.mp hid with hk | hid
    · exact (hhead _ _).1 hkey id hk
    · rcases List.mem_append.mp hid with hv | hr
      · exact (hhead _ _).2 hvalue id hv
      · exact ih hrest id hr

/-- The tables a nested table takes exist. -/
theorem Holds.lt {h : Heap α} {v : Value α} {t : Nested α} {ids : List Nat} (hv : Holds h v t ids) :
    ∀ id ∈ ids, id < h.length := by
  induction t using Nested.induct generalizing v ids with
  | leaf a =>
    cases hv
    intro id hid
    cases hid
  | node ts ih =>
    cases hv with
    | @table id es _ ids hget hkeys hentries =>
      intro i hi
      rcases List.mem_cons.mp hi with rfl | hi
      · exact (List.getElem?_eq_some_iff.mp hget).1
      · exact hentries.forall_ids (fun e he _ _ => ⟨(ih e he).1, (ih e he).2⟩) i hi

theorem Entrywise.lt {h : Heap α} {es : List (Value α × Value α)} {ts : List (Nested α × Nested α)} {ids : List Nat}
    (hz : Entrywise (Holds h) es ts ids) : ∀ id ∈ ids, id < h.length :=
  hz.forall_ids fun _ _ _ _ => ⟨Holds.lt, Holds.lt⟩

/-- A nested table stays through work on another. -/
theorem Holds.updated {h h' : Heap α} {v : Value α} {t : Nested α} {ids work work' : List Nat}
    (hv : Holds h v t ids) (hu : Updated h h' work work') (hdisjoint : ∀ id ∈ ids, id ∉ work) :
    Holds h' v t ids :=
  hv.frame fun id hid => hu.frame id (hv.lt id hid) (hdisjoint id hid)

theorem Entrywise.length_eq {R : Value α → Nested α → List Nat → Prop} {es : List (Value α × Value α)}
    {ts : List (Nested α × Nested α)} {ids : List Nat} (hz : Entrywise R es ts ids) : es.length = ts.length := by
  induction hz with
  | nil => rfl
  | cons _ _ _ ih => rw [List.length_cons, List.length_cons, ih]

/-- Each entry of the nested table is one of the table. -/
theorem Entrywise.exists_of_mem {R : Value α → Nested α → List Nat → Prop} {es : List (Value α × Value α)}
    {ts : List (Nested α × Nested α)} {ids : List Nat} (hz : Entrywise R es ts ids) {e : Nested α × Nested α}
    (he : e ∈ ts) : ∃ e' ∈ es, ∃ keyIds valueIds, R e'.1 e.1 keyIds ∧ R e'.2 e.2 valueIds := by
  induction hz with
  | nil => cases he
  | @cons key value tkey tvalue keyIds valueIds ids es ts hkey hvalue _ ih =>
    rcases List.mem_cons.mp he with rfl | hrest
    · exact ⟨(key, value), List.mem_cons_self, keyIds, valueIds, hkey, hvalue⟩
    · obtain ⟨e', he', hboth⟩ := ih hrest
      exact ⟨e', List.mem_cons_of_mem _ he', hboth⟩

/-- Entries that are read one by one are read as the entries of a nested table. -/
theorem Entrywise.exists_of_forall {R : Value α → Nested α → List Nat → Prop} {es : List (Value α × Value α)}
    (hall : ∀ e ∈ es, (∃ t ids, R e.1 t ids) ∧ ∃ t ids, R e.2 t ids) : ∃ ts ids, Entrywise R es ts ids := by
  induction es with
  | nil => exact ⟨[], [], .nil⟩
  | cons e rest ih =>
    obtain ⟨⟨⟨tkey, keyIds, hkey⟩, tvalue, valueIds, hvalue⟩, hrest⟩ := List.forall_mem_cons.mp hall
    obtain ⟨ts, ids, hz⟩ := ih hrest
    exact ⟨_, _, .cons hkey hvalue hz⟩

theorem Holds.key_atom {h : Heap α} {key : Value α} {a : α} {ids : List Nat} (hk : Holds h key (.leaf a) ids) :
    key = .atom a := by
  cases hk
  rfl

theorem Holds.atom_eq {h : Heap α} {a : α} {t : Nested α} {ids : List Nat} (hk : Holds h (.atom a) t ids) :
    t = .leaf a := by
  cases hk
  rfl

/-- Entries are read one by one as what they hold. -/
theorem Entrywise.unique {R : Value α → Nested α → List Nat → Prop} {es : List (Value α × Value α)}
    {ts ts' : List (Nested α × Nested α)} {ids ids' : List Nat} (hz : Entrywise R es ts ids)
    (hz' : Entrywise R es ts' ids')
    (hR : ∀ e ∈ ts, ∀ v t i i', (R v e.1 i → R v t i' → e.1 = t) ∧ (R v e.2 i → R v t i' → e.2 = t)) : ts = ts' := by
  induction hz generalizing ts' ids' with
  | nil =>
    cases hz'
    rfl
  | cons hkey hvalue _ ih =>
    cases hz' with
    | cons hkey' hvalue' hrest' =>
      obtain ⟨hhead, hrest⟩ := List.forall_mem_cons.mp hR
      have hk := (hhead _ _ _ _).1 hkey hkey'
      have hv := (hhead _ _ _ _).2 hvalue hvalue'
      simp only at hk hv
      rw [hk, hv, ih hrest' hrest]

theorem Holds.entries_nil {h : Heap α} {id : Nat} {ids : List Nat} (ht : Holds h (.table id) (.node []) ids) :
    h.entries id = [] := by
  cases ht with
  | table hget _ hentries =>
    cases hentries
    rw [Heap.entries, hget]
    rfl

/-- A value is the root of one nested table at most. -/
theorem Holds.unique {h : Heap α} {v : Value α} {t t' : Nested α} {ids ids' : List Nat} (hv : Holds h v t ids)
    (hv' : Holds h v t' ids') : t = t' := by
  induction t using Nested.induct generalizing v t' ids ids' with
  | leaf a =>
    cases hv
    cases hv'
    rfl
  | node ts ih =>
    cases hv with
    | table hget _ hentries =>
      cases hv' with
      | table hget' _ hentries' =>
        rw [hget] at hget'
        cases hget'
        rw [hentries.unique hentries' fun e he v t i i' => ⟨(ih e he).1, (ih e he).2⟩]

section Keys

variable [DecidableEq α] {h : Heap α}

/-- Two keys that take different tables are equal where they read as the same key. -/
theorem key_iff {key key' : Value α} {t t' : Nested α} {ids ids' : List Nat} (hk : Holds h key t ids)
    (hk' : Holds h key' t' ids') (hdisjoint : ∀ id ∈ ids, id ∉ ids') : key = key' ↔ t.same t' = true := by
  cases hk with
  | atom a =>
    cases hk' with
    | atom b => simp [Nested.same]
    | table => simp [Nested.same]
  | @table id _ _ _ _ _ _ =>
    cases hk' with
    | atom b => simp [Nested.same]
    | @table id' _ _ _ _ _ _ =>
      have hne : id ≠ id' := by
        intro heq
        subst heq
        exact hdisjoint id List.mem_cons_self List.mem_cons_self
      simp [Nested.same, hne]

/-- What is found at a key of a table is what is found in the nested table. -/
theorem Entrywise.lookup {es : List (Value α × Value α)} {ts : List (Nested α × Nested α)} {ids keyIds : List Nat}
    {key : Value α} {tkey : Nested α} (hz : Entrywise (Holds h) es ts ids) (hk : Holds h key tkey keyIds)
    (hdisjoint : ∀ id ∈ ids, id ∉ keyIds) :
    (es.lookup key = none ∧ find tkey ts = none) ∨
      ∃ value t valueIds, es.lookup key = some value ∧ find tkey ts = some t ∧ Holds h value t valueIds ∧
        ∀ id ∈ valueIds, id ∈ ids := by
  induction hz with
  | nil => exact .inl ⟨rfl, rfl⟩
  | @cons key' value' tkey' tvalue' keyIds' valueIds' ids es ts hkey hvalue _ ih =>
    have hiff := key_iff hkey hk fun id hid => hdisjoint id (List.mem_append_left _ hid)
    by_cases heq : key' = key
    · right
      refine ⟨value', tvalue', valueIds', ?_, ?_, hvalue, ?_⟩
      · rw [heq, List.lookup_cons_self]
      · rw [find, if_pos (hiff.mp heq)]
      · exact fun id hid => List.mem_append_right _ (List.mem_append_left _ hid)
    · rw [lookup_cons_ne heq, find, if_neg fun hsame => heq (hiff.mpr hsame)]
      rcases ih fun id hid => hdisjoint id (List.mem_append_right _ (List.mem_append_right _ hid)) with
        hnone | ⟨value, t, valueIds, hlookup, hfind, hholds, hsub⟩
      · exact .inl hnone
      · refine .inr ⟨value, t, valueIds, hlookup, hfind, hholds, ?_⟩
        exact fun id hid => List.mem_append_right _ (List.mem_append_right _ (hsub id hid))

/-- An entry is set. -/
theorem Entrywise.assign {es : List (Value α × Value α)} {ts : List (Nested α × Nested α)}
    {ids keyIds valueIds : List Nat} {key value : Value α} {tkey tvalue : Nested α}
    (hz : Entrywise (Holds h) es ts ids) (hk : Holds h key tkey keyIds) (hv : Holds h value tvalue valueIds)
    (hnodup : (ids ++ (keyIds ++ valueIds)).Nodup) :
    ∃ ids', Entrywise (Holds h) (Bindings.assign key value es) (put tkey tvalue ts) ids' ∧ ids'.Nodup ∧
      ∀ id ∈ ids', id ∈ ids ∨ id ∈ keyIds ∨ id ∈ valueIds := by
  induction hz with
  | nil =>
    refine ⟨keyIds ++ (valueIds ++ []), .cons hk hv .nil, ?_, ?_⟩
    · simpa using hnodup
    · intro id hid
      simpa using hid
  | @cons key' value' tkey' tvalue' keyIds' valueIds' ids es ts hkey hvalue hrest ih =>
    have hdisjoint : ∀ id ∈ keyIds', id ∉ keyIds := by
      intro id hid hid'
      simp only [List.nodup_append, List.mem_append] at hnodup
      exact hnodup.2.2 id (.inl hid) id (.inl hid') rfl
    have hiff := key_iff hkey hk hdisjoint
    by_cases heq : key' = key
    · refine ⟨keyIds' ++ (valueIds ++ ids), ?_, ?_, ?_⟩
      · rw [Bindings.assign, if_pos heq, put, if_pos (hiff.mp heq), ← heq]
        exact .cons hkey hv hrest
      · simp only [List.nodup_append, List.mem_append] at hnodup ⊢
        grind
      · intro id hid
        simp only [List.mem_append] at hid ⊢
        tauto
    · have hnodup' : (ids ++ (keyIds ++ valueIds)).Nodup := by
        simp only [List.nodup_append, List.mem_append] at hnodup ⊢
        grind
      obtain ⟨ids', hz', hn', hsub⟩ := ih hnodup'
      refine ⟨keyIds' ++ (valueIds' ++ ids'), ?_, ?_, ?_⟩
      · rw [Bindings.assign, if_neg heq, put, if_neg fun hsame => heq (hiff.mpr hsame)]
        exact .cons hkey hvalue hz'
      · simp only [List.nodup_append, List.mem_append] at hnodup ⊢
        grind
      · intro id hid
        simp only [List.mem_append] at hid ⊢
        rcases hid with hid | hid | hid
        · exact .inl (.inl hid)
        · exact .inl (.inr (.inl hid))
        · rcases hsub id hid with hold | hnew
          · exact .inl (.inr (.inr hold))
          · exact .inr hnew

/-- The keys of a table do not come twice in the nested table. -/
theorem Entrywise.distinct {es : List (Value α × Value α)} {ts : List (Nested α × Nested α)} {ids : List Nat}
    (hz : Entrywise (Holds h) es ts ids) (hkeys : (es.map (·.1)).Nodup) : Distinct ts := by
  induction hz with
  | nil => exact List.Pairwise.nil
  | @cons key value tkey tvalue keyIds valueIds ids es ts hkey hvalue hrest ih =>
    rw [List.map_cons, List.nodup_cons] at hkeys
    refine List.pairwise_cons.mpr ⟨?_, ih hkeys.2⟩
    cases hkey with
    | table =>
      intro e _
      cases e.1 <;> rfl
    | atom a =>
      have hnone : es.lookup (.atom a) = none := by
        rw [lookup_eq_none]
        intro e he heq
        exact hkeys.1 (List.mem_map.mpr ⟨e, he, heq⟩)
      rcases hrest.lookup (Holds.atom a) (fun _ _ hin => by cases hin) with
        ⟨-, hfind⟩ | ⟨value', t, valueIds', hlookup, -⟩
      · intro e he
        rw [same_comm]
        exact find_eq_none.mp hfind e he
      · rw [hnone] at hlookup
        cases hlookup

theorem Holds.distinct {v : Value α} {ts : List (Nested α × Nested α)} {ids : List Nat}
    (hv : Holds h v (.node ts) ids) : Distinct ts := by
  cases hv with
  | table hget hkeys hentries => exact hentries.distinct hkeys

end Keys

section Set

variable [DecidableEq α] {h : Heap α}

theorem getElem?_rawset (id id' : Nat) (key : Value α) (value : Option (Value α)) (hne : id ≠ id') :
    (h.rawset id key value)[id']? = h[id']? := by
  rw [Heap.rawset, List.getElem?_modify]
  simp [hne]

theorem length_rawset (id : Nat) (key : Value α) (value : Option (Value α)) :
    (h.rawset id key value).length = h.length := List.length_modify _ _ _

/-- An entry of a nested table is set: the table takes over what the key and the value take. -/
theorem Holds.rawset {id : Nat} {ts : List (Nested α × Nested α)} {ids keyIds valueIds : List Nat}
    {key value : Value α} {tkey tvalue : Nested α} (ht : Holds h (.table id) (.node ts) ids)
    (hk : Holds h key tkey keyIds) (hv : Holds h value tvalue valueIds)
    (hnodup : (ids ++ (keyIds ++ valueIds)).Nodup) :
    ∃ ids', Holds (h.rawset id key (some value)) (.table id) (.node (put tkey tvalue ts)) ids' ∧ ids'.Nodup ∧
      ∀ i ∈ ids', i ∈ ids ∨ i ∈ keyIds ∨ i ∈ valueIds := by
  cases ht with
  | @table _ es _ rest hget hkeys hentries =>
    have hsame : ∀ i, i ≠ id → (h.rawset id key (some value))[i]? = h[i]? :=
      fun i hi => getElem?_rawset id i key _ (Ne.symm hi)
    rw [List.cons_append, List.nodup_cons] at hnodup
    obtain ⟨hout, hnodup⟩ := hnodup
    simp only [List.mem_append, not_or] at hout
    obtain ⟨ids', hz, hn, hsub⟩ := hentries.assign hk hv hnodup
    have hfresh : id ∉ ids' := by
      intro hin
      rcases hsub id hin with hi | hi | hi
      · exact hout.1 hi
      · exact hout.2.1 hi
      · exact hout.2.2 hi
    have hmoved : Holds (h.rawset id key (some value)) (.table id) (.node (put tkey tvalue ts)) (id :: ids') := by
      have hself : (h.rawset id key (some value))[id]? = some ⟨assign key value es, none⟩ := by
        rw [Heap.rawset, List.getElem?_modify, hget]
        simp
      exact .table hself (nodup_keys_assign hkeys key value) (hz.frame fun i hi => hsame i fun heq => hfresh (heq ▸ hi))
    refine ⟨id :: ids', hmoved, List.nodup_cons.mpr ⟨hfresh, hn⟩, ?_⟩
    intro i hi
    rcases List.mem_cons.mp hi with rfl | hi
    · exact .inl List.mem_cons_self
    · rcases hsub i hi with hi | hi | hi
      · exact .inl (List.mem_cons_of_mem id hi)
      · exact .inr (.inl hi)
      · exact .inr (.inr hi)

omit [DecidableEq α] in
/-- A new table is empty. -/
theorem holds_alloc (h : Heap α) : Holds h.alloc (.table h.length) (.node []) [h.length] := by
  have hself : h.alloc[h.length]? = some ⟨[], none⟩ := by rw [Heap.alloc, List.getElem?_concat_length]
  exact .table hself List.nodup_nil .nil

omit [DecidableEq α] in
theorem updated_alloc (h : Heap α) : Updated h h.alloc [] [h.length] where
  grown := by rw [Heap.alloc, List.length_append]; omega
  frame := fun id hid _ => List.getElem?_append_left hid
  nodup := List.nodup_singleton _
  owned := fun id hid => .inr (by rw [List.mem_singleton.mp hid])

omit [DecidableEq α] in
theorem updated_refl (h : Heap α) : Updated h h [] [] where
  grown := Nat.le_refl _
  frame := fun _ _ _ => rfl
  nodup := List.nodup_nil
  owned := fun _ hid => by cases hid

/-- A key and a value are made anew and set. -/
theorem Holds.set {h₁ h₂ : Heap α} {id : Nat} {ts : List (Nested α × Nested α)} {ids keyIds valueIds : List Nat}
    {key value : Value α} {tkey tvalue : Nested α} (ht : Holds h (.table id) (.node ts) ids) (hnodup : ids.Nodup)
    (hu : Updated h h₁ [] keyIds) (hk : Holds h₁ key tkey keyIds)
    (hu' : Updated h₁ h₂ [] valueIds) (hv : Holds h₂ value tvalue valueIds) :
    ∃ ids', Updated h (h₂.rawset id key (some value)) ids ids' ∧
      Holds (h₂.rawset id key (some value)) (.table id) (.node (put tkey tvalue ts)) ids' := by
  have hold : ∀ i ∈ ids, i < h.length := ht.lt
  have hnewKey : ∀ i ∈ keyIds, h.length ≤ i ∧ i < h₁.length := by
    intro i hi
    refine ⟨?_, hk.lt i hi⟩
    rcases hu.owned i hi with hin | hnew
    · cases hin
    · exact hnew
  have hnewValue : ∀ i ∈ valueIds, h₁.length ≤ i := by
    intro i hi
    rcases hu'.owned i hi with hin | hnew
    · cases hin
    · exact hnew
  have hgrown := hu.grown
  have ht₂ : Holds h₂ (.table id) (.node ts) ids :=
    (ht.updated hu fun _ _ hin => by cases hin).updated hu' fun _ _ hin => by cases hin
  have hk₂ : Holds h₂ key tkey keyIds := hk.updated hu' fun _ _ hin => by cases hin
  have hall : (ids ++ (keyIds ++ valueIds)).Nodup := by
    rw [List.nodup_append, List.nodup_append]
    refine ⟨hnodup, ⟨hu.nodup, hu'.nodup, ?_⟩, ?_⟩
    · intro i hi j hj heq
      have := hnewKey i hi
      have := hnewValue j hj
      omega
    · intro i hi j hj heq
      have := hold i hi
      rcases List.mem_append.mp hj with hj | hj
      · have := hnewKey j hj
        omega
      · have := hnewValue j hj
        omega
  have hid : id ∈ ids := by
    cases ht with
    | table => exact List.mem_cons_self
  obtain ⟨ids', hset, hn, hsub⟩ := ht₂.rawset hk₂ hv hall
  refine ⟨ids', ⟨?_, ?_, hn, ?_⟩, hset⟩
  · rw [length_rawset]
    exact Nat.le_trans hu.grown hu'.grown
  · intro i hi hout
    have hne : id ≠ i := fun heq => hout (heq ▸ hid)
    rw [getElem?_rawset id i key _ hne, hu'.frame i (by omega) List.not_mem_nil,
      hu.frame i hi List.not_mem_nil]
  · intro i hi
    rcases hsub i hi with hi | hi | hi
    · exact .inl hi
    · exact .inr (hnewKey i hi).1
    · have := hnewValue i hi
      exact .inr (by omega)

/-- What is found at a key is worked on in its place. -/
theorem Entrywise.work {es : List (Value α × Value α)} {ts : List (Nested α × Nested α)} {ids keyIds : List Nat}
    {key value : Value α} {tkey : Nested α} (hz : Entrywise (Holds h) es ts ids) (hk : Holds h key tkey keyIds)
    (hdisjoint : ∀ id ∈ ids, id ∉ keyIds) (hnodup : ids.Nodup) (hlookup : es.lookup key = some value) :
    ∃ t valueIds, find tkey ts = some t ∧ Holds h value t valueIds ∧ valueIds.Nodup ∧ (∀ id ∈ valueIds, id ∈ ids) ∧
      ∀ h' t' valueIds', Updated h h' valueIds valueIds' → Holds h' value t' valueIds' →
        ∃ ids', Entrywise (Holds h') es (put tkey t' ts) ids' ∧ ids'.Nodup ∧
          ∀ id ∈ ids', id ∈ ids ∨ h.length ≤ id := by
  induction hz with
  | nil => cases hlookup
  | @cons key' value' tkey' tvalue' keyIds' valueIds' ids es ts hkey hvalue hrest ih =>
    have hiff := key_iff hkey hk fun id hid => hdisjoint id (List.mem_append_left _ hid)
    have hltKey := hkey.lt
    have hltValue := hvalue.lt
    simp only [List.nodup_append, List.mem_append] at hnodup
    by_cases heq : key' = key
    · rw [heq, List.lookup_cons_self] at hlookup
      cases hlookup
      refine ⟨tvalue', valueIds', ?_, hvalue, hnodup.2.1.1, ?_, ?_⟩
      · rw [find, if_pos (hiff.mp heq)]
      · exact fun id hid => List.mem_append_right _ (List.mem_append_left _ hid)
      · intro h' t' newIds hu hnew
        have hltRest := hrest.lt
        refine ⟨keyIds' ++ (newIds ++ ids), ?_, ?_, ?_⟩
        · rw [put, if_pos (hiff.mp heq)]
          refine .cons ?_ hnew ?_
          · exact hkey.updated hu fun id hid hin => hnodup.2.2 id hid id (.inl hin) rfl
          · exact hrest.frame fun id hid =>
              hu.frame id (hltRest id hid) fun hin => hnodup.2.1.2.2 id hin id hid rfl
        · have hn := hu.nodup
          have hown := hu.owned
          simp only [List.nodup_append, List.mem_append]
          grind
        · have hown := hu.owned
          intro id hid
          simp only [List.mem_append] at hid ⊢
          grind
    · rw [lookup_cons_ne heq] at hlookup
      have hdisjoint' : ∀ id ∈ ids, id ∉ keyIds := fun id hid =>
        hdisjoint id (List.mem_append_right _ (List.mem_append_right _ hid))
      obtain ⟨t, foundIds, hfind, hfound, hn, hsub, hwork⟩ := ih hdisjoint' hnodup.2.1.2.1 hlookup
      refine ⟨t, foundIds, ?_, hfound, hn, ?_, ?_⟩
      · rw [find, if_neg fun hsame => heq (hiff.mpr hsame)]
        exact hfind
      · exact fun id hid => List.mem_append_right _ (List.mem_append_right _ (hsub id hid))
      · intro h' t' newIds hu hnew
        obtain ⟨ids', hz', hn', hown'⟩ := hwork h' t' newIds hu hnew
        refine ⟨keyIds' ++ (valueIds' ++ ids'), ?_, ?_, ?_⟩
        · rw [put, if_neg fun hsame => heq (hiff.mpr hsame)]
          refine .cons ?_ ?_ hz'
          · exact hkey.updated hu fun id hid hin => hnodup.2.2 id hid id (.inr (hsub id hin)) rfl
          · exact hvalue.updated hu fun id hid hin => hnodup.2.1.2.2 id hid id (hsub id hin) rfl
        · simp only [List.nodup_append, List.mem_append]
          grind
        · intro id hid
          simp only [List.mem_append] at hid ⊢
          grind

/-- What is found at a key of a table is worked on in its place. -/
theorem Holds.work {id : Nat} {ts : List (Nested α × Nested α)} {ids keyIds : List Nat} {key value : Value α}
    {tkey : Nested α} (ht : Holds h (.table id) (.node ts) ids) (hnodup : ids.Nodup) (hk : Holds h key tkey keyIds)
    (hdisjoint : ∀ i ∈ ids, i ∉ keyIds) (hget : h.rawget id key = some value) :
    ∃ t valueIds, find tkey ts = some t ∧ Holds h value t valueIds ∧ valueIds.Nodup ∧ (∀ i ∈ valueIds, i ∈ ids) ∧
      ∀ h' t' valueIds', Updated h h' valueIds valueIds' → Holds h' value t' valueIds' →
        ∃ ids', Updated h h' ids ids' ∧ Holds h' (.table id) (.node (put tkey t' ts)) ids' := by
  cases ht with
  | @table _ es _ rest hself hkeys hentries =>
    obtain ⟨hout, hrest⟩ := List.nodup_cons.mp hnodup
    have hlookup : es.lookup key = some value := by
      rw [Heap.rawget, Heap.entries, hself] at hget
      exact hget
    obtain ⟨t, valueIds, hfind, hvalue, hn, hsub, hwork⟩ :=
      hentries.work hk (fun i hi => hdisjoint i (List.mem_cons_of_mem id hi)) hrest hlookup
    refine ⟨t, valueIds, hfind, hvalue, hn, fun i hi => List.mem_cons_of_mem id (hsub i hi), ?_⟩
    intro h' t' valueIds' hu hvalue'
    obtain ⟨ids', hz, hn', hown⟩ := hwork h' t' valueIds' hu hvalue'
    have hlt : id < h.length := (List.getElem?_eq_some_iff.mp hself).1
    have hself' : h'[id]? = some ⟨es, none⟩ := by
      rw [hu.frame id hlt fun hin => hout (hsub id hin), hself]
    refine ⟨id :: ids', ⟨hu.grown, ?_, ?_, ?_⟩, .table hself' hkeys hz⟩
    · exact fun i hi hi' => hu.frame i hi fun hin => hi' (List.mem_cons_of_mem id (hsub i hin))
    · refine List.nodup_cons.mpr ⟨?_, hn'⟩
      intro hin
      rcases hown id hin with hold | hnew
      · exact hout hold
      · omega
    · intro i hi
      rcases List.mem_cons.mp hi with rfl | hi
      · exact .inl List.mem_cons_self
      · rcases hown i hi with hold | hnew
        · exact .inl (List.mem_cons_of_mem id hold)
        · exact .inr hnew

/-- What is found at a key of a table, and in the nested table. -/
theorem Holds.rawget {id : Nat} {ts : List (Nested α × Nested α)} {ids keyIds : List Nat} {key : Value α}
    {tkey : Nested α} (ht : Holds h (.table id) (.node ts) ids) (hk : Holds h key tkey keyIds)
    (hdisjoint : ∀ i ∈ ids, i ∉ keyIds) :
    (h.rawget id key = none ∧ find tkey ts = none) ∨
      ∃ value t valueIds, h.rawget id key = some value ∧ find tkey ts = some t ∧ Holds h value t valueIds ∧
        ∀ i ∈ valueIds, i ∈ ids := by
  cases ht with
  | @table _ es _ rest hself hkeys hentries =>
    have hes : h.entries id = es := by
      rw [Heap.entries, hself]
      rfl
    rw [Heap.rawget, hes]
    rcases hentries.lookup hk fun i hi => hdisjoint i (List.mem_cons_of_mem id hi) with
      hnone | ⟨value, t, valueIds, hlookup, hfind, hvalue, hsub⟩
    · exact .inl hnone
    · exact .inr ⟨value, t, valueIds, hlookup, hfind, hvalue, fun i hi => List.mem_cons_of_mem id (hsub i hi)⟩

/-- A plain table is read as it is. -/
theorem Holds.gettable {id : Nat} {ts : List (Nested α × Nested α)} {ids : List Nat}
    (ht : Holds h (.table id) (.node ts) ids) (key : Value α) : h.gettable id key = h.rawget id key := by
  cases ht with
  | table hself _ _ => rw [Heap.gettable, Heap.behind, hself, Option.bind_some, Option.bind_none, Option.or_none]

end Set

section Lengths

variable [DecidableEq α] {ν : Numbers α} {h : Heap α}

/-- What `lua_rawlen` may answer: any number with a value, or zero, where the number behind it has none. -/
structure Lengths (ν : Numbers α) where
  len : Heap α → Nat → Nat
  border : ∀ h id, (len h id = 0 ∨ (h.rawget id (.atom (ν.index (len h id)))).isSome = true) ∧
    h.rawget id (.atom (ν.index (len h id + 1))) = none

theorem Holds.isSome_rawget {id : Nat} {ts : List (Nested α × Nested α)} {ids : List Nat}
    (ht : Holds h (.table id) (.node ts) ids) (n : Nat) :
    (h.rawget id (.atom (ν.index n))).isSome = present ν n ts := by
  rw [present]
  rcases ht.rawget (Holds.atom (ν.index n)) (fun _ _ hin => by cases hin) with
    ⟨hraw, hfind⟩ | ⟨value, t, _, hraw, hfind, -⟩
  · rw [hraw, hfind]
    rfl
  · rw [hraw, hfind]
    rfl

theorem Holds.border {id : Nat} {ts : List (Nested α × Nested α)} {ids : List Nat}
    (ht : Holds h (.table id) (.node ts) ids) (L : Lengths ν) : Border ν ts (L.len h id) := by
  obtain ⟨hself, hnext⟩ := L.border h id
  rw [ht.isSome_rawget] at hself
  refine ⟨hself, ?_⟩
  rw [← ht.isSome_rawget, hnext]
  rfl

/-- The key is a number from one to the bound. -/
def keyWithin (ν : Numbers α) (bound : Nat) : Value α → Bool
  | .atom a =>
    match ν.number a with
    | some n => decide (1 ≤ n ∧ n ≤ bound)
    | none => false
  | .table _ => false

omit [DecidableEq α] in
theorem keyWithin_eq {key : Value α} {t : Nested α} {ids : List Nat} (hk : Holds h key t ids) (bound : Nat) :
    keyWithin ν bound key = within ν bound t := by
  cases hk <;> rfl

omit [DecidableEq α] in
theorem keyWithin_iff {bound : Nat} {key : Value α} :
    keyWithin ν bound key = true ↔ ∃ n, key = .atom (ν.index n) ∧ 1 ≤ n ∧ n ≤ bound := by
  cases key with
  | table id => simp [keyWithin]
  | atom a =>
    change within ν bound (.leaf a) = true ↔ _
    simp only [within_iff, Nested.leaf.injEq, Value.atom.injEq]

omit [DecidableEq α] in
theorem Entrywise.all_keyWithin {es : List (Value α × Value α)} {ts : List (Nested α × Nested α)} {ids : List Nat}
    (hz : Entrywise (Holds h) es ts ids) (bound : Nat) :
    (es.all fun e => keyWithin ν bound e.1) = ts.all fun e => within ν bound e.1 := by
  induction hz with
  | nil => rfl
  | cons hkey _ _ ih => rw [List.all_cons, List.all_cons, keyWithin_eq hkey, ih]

/-- Whether the keys lie up to any border is whether the table is a list. -/
theorem Holds.all_keyWithin {id : Nat} {ts : List (Nested α × Nested α)} {ids : List Nat}
    (ht : Holds h (.table id) (.node ts) ids) (hg : Gapless ν ts) (L : Lengths ν) :
    ((h.entries id).all fun e => keyWithin ν (L.len h id) e.1) = isList ν ts := by
  have hd := ht.distinct
  have hb := ht.border L
  cases ht with
  | @table _ es _ rest hself hkeys hentries =>
    have hes : h.entries id = es := by
      rw [Heap.entries, hself]
      rfl
    rw [hes, hentries.all_keyWithin, Bool.eq_iff_iff, List.all_eq_true]
    exact within_border_iff hd hg hb

/-- The length of a list is that of its entries, whichever border is answered. -/
theorem Holds.len {id : Nat} {ts : List (Nested α × Nested α)} {ids : List Nat}
    (ht : Holds h (.table id) (.node ts) ids) (hl : isList ν ts = true) (L : Lengths ν) :
    L.len h id = ts.length := border_of_isList ht.distinct hl (ht.border L)

/-- The numbers in a row that have values, counted on from the one given. -/
def countNumbers (ν : Numbers α) (h : Heap α) (id : Nat) : Nat → Nat → Nat
  | 0, n => n
  | fuel + 1, n =>
    if (h.rawget id (.atom (ν.index (n + 1)))).isSome then countNumbers ν h id fuel (n + 1) else n

theorem countNumbers_spec (id fuel n : Nat) :
    n ≤ countNumbers ν h id fuel n ∧
      (∀ i, n < i → i ≤ countNumbers ν h id fuel n → (h.rawget id (.atom (ν.index i))).isSome = true) ∧
      (countNumbers ν h id fuel n = n + fuel ∨
        h.rawget id (.atom (ν.index (countNumbers ν h id fuel n + 1))) = none) := by
  induction fuel generalizing n with
  | zero => exact ⟨Nat.le_refl n, fun i hlt hle => absurd hle (by simp only [countNumbers]; omega), .inl rfl⟩
  | succ fuel ih =>
    simp only [countNumbers]
    split
    · rename_i hsome
      obtain ⟨hle, hall, hend⟩ := ih (n + 1)
      refine ⟨by omega, ?_, ?_⟩
      · intro i hlt hi
        by_cases heq : i = n + 1
        · rw [heq]
          exact hsome
        · exact hall i (by omega) hi
      · rcases hend with hfull | hnone
        · exact .inl (by omega)
        · exact .inr hnone
    · rename_i hnone
      exact ⟨Nat.le_refl n, fun i hlt hle => by omega, .inr (by simpa using hnone)⟩

/-- A table does not have a value at each of more numbers than it has entries. -/
theorem exists_rawget_none (ν : Numbers α) (h : Heap α) (id : Nat) :
    ∃ i, 0 < i ∧ i ≤ (h.entries id).length + 1 ∧ h.rawget id (.atom (ν.index i)) = none := by
  by_contra hall
  push Not at hall
  have hsub : (List.range' 1 ((h.entries id).length + 1)).map (fun i => Value.atom (ν.index i))
      ⊆ (h.entries id).map (·.1) := by
    intro key hkey
    obtain ⟨i, hi, rfl⟩ := List.mem_map.mp hkey
    rw [List.mem_range'_1] at hi
    obtain ⟨v, hv⟩ := Option.ne_none_iff_exists'.mp (hall i (by omega) (by omega))
    exact List.mem_map.mpr ⟨_, mem_of_lookup hv, rfl⟩
  have hnodup : ((List.range' 1 ((h.entries id).length + 1)).map fun i => Value.atom (ν.index i)).Nodup := by
    apply List.Nodup.map _ List.nodup_range'
    intro i j heq
    exact index_injective (Value.atom.inj heq)
  have hle := (List.subperm_of_subset hnodup hsub).length_le
  rw [List.length_map, List.length_range', List.length_map] at hle
  omega

/-- The least border of each table. -/
def leastLengths (ν : Numbers α) : Lengths ν where
  len h id := countNumbers ν h id ((h.entries id).length + 1) 0
  border := by
    intro h id
    obtain ⟨-, hall, hend⟩ := countNumbers_spec (ν := ν) (h := h) id ((h.entries id).length + 1) 0
    obtain ⟨i, hi, hle, hnone⟩ := exists_rawget_none ν h id
    constructor
    · by_cases h0 : countNumbers ν h id ((h.entries id).length + 1) 0 = 0
      · exact .inl h0
      · exact .inr (hall _ (by omega) (Nat.le_refl _))
    · rcases hend with hfull | hend
      · have hsome := hall i hi (by omega)
        rw [hnone] at hsome
        cases hsome
      · exact hend

end Lengths

end QStar.Lib.TableHeaps
