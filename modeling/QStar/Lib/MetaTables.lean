import QStar.Lib.Bindings
import QStar.Lib.CStrings

/-!
# Lua tables with metatables

Tables live in a heap and are known by a number. A table may have a metatable, and all strings
share one. A read that finds no entry goes on with `__index`, and an assignment to an entry that
is not there with `__newindex`, from table to table, until an entry, a function or an end is
found. Functions are of any type.
-/
namespace QStar.Lib.MetaTables

open QStar.Lib.CStrings
open QStar.Lib.Bindings

inductive Value (F : Type) where
  | nil
  | boolean (b : Bool)
  | integer (i : Int64)
  /-- a number that is no integer, by the text Lua prints for it -/
  | float (text : Bytes)
  | string (s : Bytes)
  | table (id : Nat)
  | function (f : F)
  deriving DecidableEq

structure Table (F : Type) where
  entries : List (Value F × Value F)
  metatable : Option Nat
  deriving DecidableEq

structure Heap (F : Type) where
  tables : List (Table F)
  /-- the metatable of all strings -/
  strings : Option Nat
  deriving DecidableEq

/-- What a read comes to: a value, a function that is called for it, or an error. -/
inductive Access (F : Type) where
  | value (v : Value F)
  | call (f : F)
  | error
  deriving DecidableEq

/-- What an assignment comes to: a table that takes the entry, a function that is called, or an
error. -/
inductive Target (F : Type) where
  | store (id : Nat)
  | call (f : F)
  | error
  deriving DecidableEq

/-- `MAXTAGLOOP` -/
def maxTagLoop : Nat := 2000

variable {F : Type} [DecidableEq F]

/-- A key that an entry can have: neither nil nor a NaN. -/
def storable : Value F → Bool
  | .nil => false
  | .float text => decide (text ≠ ascii "nan" ∧ text ≠ ascii "-nan")
  | _ => true

namespace Heap

def entries (h : Heap F) (id : Nat) : List (Value F × Value F) :=
  (h.tables[id]?.map (·.entries)).getD []

/-- `lua_rawget` -/
def rawget (h : Heap F) (id : Nat) (key : Value F) : Value F := ((h.entries id).lookup key).getD .nil

/-- `lua_rawset` with a key that an entry can have. -/
def rawset (h : Heap F) (id : Nat) (key value : Value F) : Heap F :=
  { h with tables := h.tables.modify id fun t =>
      { t with entries :=
          if value = .nil then t.entries.filter fun e => decide (e.1 ≠ key)
          else assign key value t.entries } }

/-- The table that is made next. -/
def fresh (h : Heap F) : Nat := h.tables.length

/-- New tables, numbered from the next one on. -/
def alloc (h : Heap F) (ts : List (Table F)) : Heap F := { h with tables := h.tables ++ ts }

/-- `lua_getmetatable` -/
def metatable (h : Heap F) : Value F → Option Nat
  | .table id => h.tables[id]?.bind (·.metatable)
  | .string _ => h.strings
  | _ => none

/-- `luaT_gettmbyobj` -/
def metafield (h : Heap F) (v : Value F) (event : String) : Value F :=
  ((h.metatable v).map fun id => h.rawget id (.string (ascii event))).getD .nil

/-- `luaB_getmetatable`: a `__metatable` hides the metatable. -/
def getmetatable (h : Heap F) (v : Value F) : Value F :=
  match h.metatable v with
  | none => .nil
  | some id =>
    let shown := h.rawget id (.string (ascii "__metatable"))
    if shown = .nil then .table id else shown

/-- The entry a value has for a key without asking its metatable. -/
def present (h : Heap F) (t key : Value F) : Value F :=
  match t with
  | .table id => h.rawget id key
  | _ => .nil

/-- `t[key]`; the number bounds how many times `__index` leads on. -/
def index (h : Heap F) : Nat → Value F → Value F → Access F
  | 0, _, _ => .error
  | n + 1, t, key =>
    if h.present t key ≠ .nil then .value (h.present t key)
    else
      match h.metafield t "__index", t with
      | .nil, .table _ => .value .nil
      | .nil, _ => .error
      | .function f, _ => .call f
      | next, _ => h.index n next key

/-- Where `t[key] = value` puts the entry. -/
def target (h : Heap F) : Nat → Value F → Value F → Target F
  | 0, _, _ => .error
  | n + 1, t, key =>
    match h.present t key, h.metafield t "__newindex", t with
    | .nil, .nil, .table id => .store id
    | .nil, .nil, _ => .error
    | .nil, .function f, _ => .call f
    | .nil, next, _ => h.target n next key
    | _, _, .table id => .store id
    | _, _, _ => .error

/-! ## What a store and a new table leave -/

theorem entries_rawset (h : Heap F) (id : Nat) (key value : Value F) (j : Nat) :
    (h.rawset id key value).entries j =
      if j = id ∧ id < h.tables.length then
        if value = .nil then (h.entries j).filter fun e => decide (e.1 ≠ key)
        else assign key value (h.entries j)
      else h.entries j := by
  unfold entries rawset
  rw [List.getElem?_modify]
  by_cases hj : j = id
  · subst hj
    rcases Nat.lt_or_ge j h.tables.length with hlt | hge
    · rw [List.getElem?_eq_getElem hlt, if_pos ⟨rfl, hlt⟩]
      simp
    · rw [List.getElem?_eq_none hge, if_neg (by omega)]
      rfl
  · rw [if_neg (fun h => hj h.1)]
    simp [Ne.symm hj]

/-- An entry that is set to nil is none. -/
theorem lookup_entries_set (entries : List (Value F × Value F)) (key value k : Value F) :
    ((if value = .nil then entries.filter fun e => decide (e.1 ≠ key)
      else assign key value entries).lookup k).getD .nil =
      if k = key then value else (entries.lookup k).getD .nil := by
  split
  · rename_i hv
    subst hv
    by_cases hk : k = key
    · have hnone : (entries.filter fun e => decide (e.1 ≠ key)).lookup k = none := by
        rw [lookup_eq_none]
        intro e he heq
        exact of_decide_eq_true (List.mem_filter.mp he).2 (heq.trans hk)
      rw [hnone, if_pos hk]
      rfl
    · have hkeep (v : Value F) : decide ((k, v).1 ≠ key) = true := decide_eq_true hk
      rw [lookup_filter hkeep, if_neg hk]
  · rw [lookup_assign]
    by_cases hk : k = key
    · rw [if_pos hk.symm, if_pos hk]
      rfl
    · rw [if_neg (Ne.symm hk), if_neg hk]

theorem rawget_rawset {h : Heap F} {id : Nat} (hid : id < h.tables.length) (key value : Value F) (j : Nat)
    (k : Value F) :
    (h.rawset id key value).rawget j k = if j = id ∧ k = key then value else h.rawget j k := by
  unfold rawget
  rw [entries_rawset]
  by_cases hj : j = id
  · rw [if_pos ⟨hj, hid⟩, lookup_entries_set]
    simp only [hj, true_and]
  · rw [if_neg (fun hboth => hj hboth.1), if_neg (fun hboth => hj hboth.1)]

theorem rawset_absent {h : Heap F} {id : Nat} (hid : h.tables.length ≤ id) (key value : Value F) :
    h.rawset id key value = h := by
  rw [rawset, List.modify_eq_self hid]

theorem metatable_rawset (h : Heap F) (id : Nat) (key value v : Value F) :
    (h.rawset id key value).metatable v = h.metatable v := by
  cases v with
  | table j =>
    simp only [metatable, rawset, List.getElem?_modify]
    cases h.tables[j]? with
    | none => rfl
    | some t =>
      by_cases hj : id = j
      · simp [hj]
      · simp [hj]
  | _ => rfl

theorem length_rawset (h : Heap F) (id : Nat) (key value : Value F) :
    (h.rawset id key value).tables.length = h.tables.length := List.length_modify _ _ _

section Alloc

omit [DecidableEq F]

variable (h : Heap F) (ts : List (Table F))

theorem length_alloc : (h.alloc ts).tables.length = h.tables.length + ts.length := by
  rw [alloc, List.length_append]

theorem entries_alloc {j : Nat} (hj : j < h.tables.length) : (h.alloc ts).entries j = h.entries j := by
  rw [entries, alloc, List.getElem?_append_left hj, entries]

theorem metatable_alloc {j : Nat} (hj : j < h.tables.length) :
    (h.alloc ts).metatable (.table j) = h.metatable (.table j) := by
  simp only [metatable, alloc, List.getElem?_append_left hj]

theorem entries_new (i : Nat) : (h.alloc ts).entries (h.fresh + i) = (ts[i]?.map (·.entries)).getD [] := by
  rw [entries, alloc, fresh, List.getElem?_append_right (Nat.le_add_right _ _), Nat.add_sub_cancel_left]

theorem metatable_new (i : Nat) :
    (h.alloc ts).metatable (.table (h.fresh + i)) = ts[i]?.bind (·.metatable) := by
  simp only [metatable, alloc, fresh]
  rw [List.getElem?_append_right (Nat.le_add_right _ _), Nat.add_sub_cancel_left]

end Alloc

theorem rawget_alloc (h : Heap F) (ts : List (Table F)) {j : Nat} (hj : j < h.tables.length)
    (key : Value F) : (h.alloc ts).rawget j key = h.rawget j key := by
  rw [rawget, entries_alloc h ts hj, rawget]

theorem rawget_new (h : Heap F) (ts : List (Table F)) (i : Nat) (key : Value F) :
    (h.alloc ts).rawget (h.fresh + i) key =
      (((ts[i]?.map (·.entries)).getD []).lookup key).getD .nil := by
  rw [rawget, entries_new]

/-- A table without an `__index` is read by its entries. -/
theorem index_plain {h : Heap F} {id : Nat} (hplain : h.metafield (.table id) "__index" = .nil) (n : Nat)
    (key : Value F) : h.index (n + 1) (.table id) key = .value (h.rawget id key) := by
  unfold index
  rw [hplain, present]
  split
  · rfl
  · rename_i hnil
    rw [not_not.mp hnil]

/-- A table without an entry is read where its `__index` leads. -/
theorem index_through {h : Heap F} {id next : Nat} {key : Value F} (habsent : h.rawget id key = .nil)
    (hnext : h.metafield (.table id) "__index" = .table next) (n : Nat) :
    h.index (n + 1) (.table id) key = h.index n (.table next) key := by
  conv => lhs; unfold index
  rw [present, if_neg (not_not.mpr habsent), hnext]

end Heap

end QStar.Lib.MetaTables
