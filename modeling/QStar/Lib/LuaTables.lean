import QStar.Lib.Bindings
import QStar.Lib.CStrings

/-!
# Lua tables and read-only proxies

Tables live in a heap and are known by a number. A table is plain, or it is a
proxy: an empty table whose metatable reads through to a table made before it,
refuses every assignment and hides itself from `getmetatable`. Proxies differ in
what `pairs` and `#` make of them.
-/
namespace QStar.Lib.LuaTables

open QStar.Lib.CStrings
open QStar.Lib.Bindings

/-- `other` is a value that is compared by what it is, such as a function. -/
inductive Value where
  | nil
  | boolean (b : Bool)
  | integer (i : Int64)
  /-- a number that is no integer, by the text Lua prints for it -/
  | float (text : Bytes)
  | string (s : Bytes)
  | table (id : Nat)
  | other (tag : Nat)
  deriving DecidableEq

/-- What `__pairs` of a proxy returns. -/
inductive Pairs where
  /-- there is none -/
  | absent
  /-- `next` and the table behind the proxy -/
  | backing
  /-- a closure that runs over the table behind the proxy, and nothing to run it on -/
  | closure
  deriving DecidableEq

/-- The metatable of a proxy. -/
structure Proxy where
  /-- the table `__index` reads -/
  data : Nat
  /-- what the refusal of `__newindex` calls the proxy -/
  label : Bytes
  pairsOf : Pairs
  /-- `__len` counts the table behind the proxy -/
  counted : Bool
  deriving DecidableEq

structure Table where
  entries : List (Value × Value)
  proxy : Option Proxy
  deriving DecidableEq

structure Heap where
  tables : List Table
  /-- a proxy is empty and the table behind it is older -/
  founded : ∀ (id : Nat) (t : Table) (p : Proxy), tables[id]? = some t → t.proxy = some p →
    p.data < id ∧ t.entries = []

namespace Heap

def proxy (h : Heap) (id : Nat) : Option Proxy := h.tables[id]?.bind (·.proxy)

def entries (h : Heap) (id : Nat) : List (Value × Value) :=
  (h.tables[id]?.map (·.entries)).getD []

/-- `lua_rawget` -/
def rawget (h : Heap) (id : Nat) (key : Value) : Value := ((h.entries id).lookup key).getD .nil

theorem proxy_spec {h : Heap} {id : Nat} {p : Proxy} (hp : h.proxy id = some p) :
    p.data < id ∧ id < h.tables.length ∧ h.entries id = [] := by
  obtain ⟨t, ht, htp⟩ := Option.bind_eq_some_iff.mp hp
  have hfounded := h.founded id t p ht htp
  refine ⟨hfounded.1, ?_, ?_⟩
  · exact (List.getElem?_eq_some_iff.mp ht).1
  · rw [entries, ht]
    exact hfounded.2

/-- `t[key]`: the entry of the table, else what `__index` finds. -/
def index (h : Heap) (id : Nat) (key : Value) : Value :=
  match h.rawget id key with
  | .nil =>
    match _hp : h.proxy id with
    | none => .nil
    | some p => h.index p.data key
  | value => value
termination_by id
decreasing_by exact (proxy_spec _hp).1

/-- The plain table behind a chain of proxies. -/
def root (h : Heap) (id : Nat) : Nat :=
  match _hp : h.proxy id with
  | none => id
  | some p => h.root p.data
termination_by id
decreasing_by exact (proxy_spec _hp).1

theorem root_of_plain {h : Heap} {id : Nat} (hp : h.proxy id = none) : h.root id = id := by
  rw [root]
  split
  · rfl
  · rename_i p hp'
    rw [hp] at hp'
    cases hp'

theorem root_of_proxy {h : Heap} {id : Nat} {p : Proxy} (hp : h.proxy id = some p) :
    h.root id = h.root p.data := by
  rw [root]
  split
  · rename_i hp'
    rw [hp] at hp'
    cases hp'
  · rename_i q hq
    rw [hp] at hq
    cases hq
    rfl

/-- Reading a proxy is reading the plain table at the end of its chain. -/
theorem index_eq_root (h : Heap) (id : Nat) (key : Value) : h.index id key = h.rawget (h.root id) key := by
  induction id using Nat.strong_induction_on with
  | _ id ih =>
    cases hp : h.proxy id with
    | none =>
      rw [root_of_plain hp, index]
      split
      · rename_i hraw
        split
        · exact hraw.symm
        · rename_i p hp'
          rw [hp] at hp'
          cases hp'
      · rfl
    | some p =>
      have hempty : h.rawget id key = .nil := by rw [rawget, (proxy_spec hp).2.2]; rfl
      rw [root_of_proxy hp, ← ih p.data (proxy_spec hp).1, index]
      split
      · split
        · rename_i hp'
          rw [hp] at hp'
          cases hp'
        · rename_i q hq
          rw [hp] at hq
          cases hq
          rfl
      · rename_i hsome
        exact absurd hempty hsome

theorem root_le (h : Heap) (id : Nat) : h.root id ≤ id := by
  induction id using Nat.strong_induction_on with
  | _ id ih =>
    cases hp : h.proxy id with
    | none => rw [root_of_plain hp]
    | some p =>
      have hlt := (proxy_spec hp).1
      have hle := ih p.data hlt
      rw [root_of_proxy hp]
      omega

/-- `lua_rawset` on a table that is no proxy. -/
def rawset (h : Heap) (id : Nat) (key value : Value) (plain : h.proxy id = none) : Heap where
  tables := h.tables.modify id fun t => { t with entries := assign key value t.entries }
  founded := by
    intro id' t p ht hp
    rw [List.getElem?_modify] at ht
    obtain ⟨t', ht', rfl⟩ := Option.map_eq_some_iff.mp ht
    by_cases hid : id = id'
    · subst hid
      rw [proxy, ht', Option.bind_some] at plain
      rw [if_pos rfl] at hp
      rw [plain] at hp
      cases hp
    · rw [if_neg hid] at hp ⊢
      exact h.founded id' t' p ht' hp

section Rawset

variable {h : Heap} {id : Nat} (key value : Value) (plain : h.proxy id = none)

theorem proxy_rawset (id' : Nat) : (h.rawset id key value plain).proxy id' = h.proxy id' := by
  rw [proxy, rawset, proxy, List.getElem?_modify]
  cases h.tables[id']? with
  | none => rfl
  | some t => by_cases hid : id = id' <;> simp [hid]

theorem root_rawset (id' : Nat) : (h.rawset id key value plain).root id' = h.root id' := by
  induction id' using Nat.strong_induction_on with
  | _ id' ih =>
    have hsame := proxy_rawset key value plain id'
    cases hp : h.proxy id' with
    | none => rw [root_of_plain hp, root_of_plain (hsame.trans hp)]
    | some p =>
      rw [root_of_proxy hp, root_of_proxy (hsame.trans hp)]
      exact ih p.data (proxy_spec hp).1

/-- An entry is set and no other entry of any table changes. -/
theorem rawget_rawset (hlt : id < h.tables.length) (id' : Nat) (key' : Value) :
    (h.rawset id key value plain).rawget id' key'
      = if id = id' ∧ key = key' then value else h.rawget id' key' := by
  rw [rawget, entries, rawset, rawget, entries, List.getElem?_modify]
  by_cases hid : id = id'
  · subst hid
    rw [List.getElem?_eq_getElem hlt]
    simp only [Option.map_eq_map, Option.map_some, Option.getD_some, if_pos, true_and]
    rw [lookup_assign]
    by_cases hkey : key = key' <;> simp [hkey]
  · rw [if_neg (fun hboth => hid hboth.1)]
    cases h.tables[id']? with
    | none => rfl
    | some t => simp [hid]

theorem length_rawset : (h.rawset id key value plain).tables.length = h.tables.length :=
  List.length_modify _ _ _

/-- What reading through any table shows after an entry of a plain table is set. -/
theorem index_rawset (hlt : id < h.tables.length) (id' : Nat) (key' : Value) :
    (h.rawset id key value plain).index id' key'
      = if id = h.root id' ∧ key = key' then value else h.index id' key' := by
  rw [index_eq_root, index_eq_root, root_rawset, rawget_rawset key value plain hlt]

end Rawset

/-- Why an assignment is refused. -/
inductive AssignError where
  | readonly (label : Bytes) (key : Value)
  | nilKey
  deriving DecidableEq

/-- `t[key] = value`: a proxy has no entry of its own, so its `__newindex` is called. -/
def assign (h : Heap) (id : Nat) (key value : Value) : Except AssignError Heap :=
  match plain : h.proxy id with
  | some p => .error (.readonly p.label key)
  | none => if key = .nil then .error .nilKey else .ok (h.rawset id key value plain)

/-- An assignment that is carried out sets an entry of a plain table. -/
theorem assign_eq_ok {h h' : Heap} {id : Nat} {key value : Value} (hok : h.assign id key value = .ok h') :
    key ≠ .nil ∧ ∃ plain : h.proxy id = none, h' = h.rawset id key value plain := by
  rw [assign] at hok
  split at hok
  · cases hok
  · split at hok
    · cases hok
    · rename_i plain hkey
      cases hok
      exact ⟨hkey, plain, rfl⟩

theorem assign_of_plain {h : Heap} {id : Nat} {key : Value} (value : Value) (plain : h.proxy id = none)
    (hkey : key ≠ .nil) : h.assign id key value = .ok (h.rawset id key value plain) := by
  rw [assign]
  split
  · rename_i p hp
    rw [plain] at hp
    cases hp
  · rw [if_neg hkey]

/-- `lua_rawlen`: how many keys `1, 2, ..` in a row the table has. -/
def rawlen (h : Heap) (id : Nat) : Nat :=
  let present : Nat → Bool := fun n => decide (h.rawget id (.integer (.ofNat (n + 1))) ≠ .nil)
  ((List.range ((h.entries id).length + 1)).find? fun n => !present n).getD (h.entries id).length

/-- `#t` -/
def len (h : Heap) (id : Nat) : Nat :=
  match h.proxy id with
  | some p => if p.counted then h.rawlen p.data else h.rawlen id
  | none => h.rawlen id

/-- The entries behind the one with the key. -/
def behind (key : Value) : List (Value × Value) → Option (List (Value × Value))
  | [] => none
  | e :: rest => if e.1 = key then some rest else behind key rest

/-- `next(t, key)`: it does not ask a metatable. The order is that of the entries, a cleared
entry is passed over, and an unknown key is an error. -/
def next (h : Heap) (id : Nat) (key : Value) : Option (Option (Value × Value)) :=
  let rest := if key = .nil then some (h.entries id) else behind key (h.entries id)
  rest.map fun entries => entries.find? fun e => decide (e.2 ≠ .nil)

/-- What `pairs(t)` returns to iterate with. -/
inductive Iteration where
  /-- `next`, a table and `nil` -/
  | table (id : Nat)
  /-- a closure and twice `nil` -/
  | closure (data : Nat)
  deriving DecidableEq

/-- `pairs(t)` -/
def pairs (h : Heap) (id : Nat) : Iteration :=
  match h.proxy id with
  | none => .table id
  | some p =>
    match p.pairsOf with
    | .absent => .table id
    | .backing => .table p.data
    | .closure => .closure p.data

/-- `getmetatable(t)`: a proxy answers with its `__metatable`. -/
def getmetatable (h : Heap) (id : Nat) : Value :=
  match h.proxy id with
  | some _ => .boolean false
  | none => .nil

/-- A table that `pairs` hands out has the same end as the table it was asked of. -/
theorem root_of_pairs {h : Heap} {id id' : Nat} (hp : h.pairs id = .table id') :
    h.root id' = h.root id := by
  rw [pairs] at hp
  split at hp
  · cases hp
    rfl
  · rename_i p hproxy
    split at hp
    · cases hp
      rfl
    · cases hp
      exact (root_of_proxy hproxy).symm
    · cases hp

/-- A proxy of an existing table is made. -/
def push (h : Heap) (p : Proxy) (hdata : p.data < h.tables.length) : Heap where
  tables := h.tables ++ [⟨[], some p⟩]
  founded := by
    intro id t q ht hq
    rw [List.getElem?_append] at ht
    by_cases hid : id < h.tables.length
    · rw [if_pos hid] at ht
      exact h.founded id t q ht hq
    · rw [if_neg hid, List.getElem?_singleton] at ht
      split at ht
      · cases ht
        cases hq
        exact ⟨by omega, rfl⟩
      · cases ht

section Push

variable {h : Heap} (p : Proxy) (hdata : p.data < h.tables.length)

theorem proxy_push : (h.push p hdata).proxy h.tables.length = some p := by
  simp [proxy, push]

theorem getElem?_push {id : Nat} (hid : id < h.tables.length) :
    (h.push p hdata).tables[id]? = h.tables[id]? :=
  List.getElem?_append_left hid

/-- The tables of before read as before. -/
theorem index_push {id : Nat} (hid : id < h.tables.length) (key : Value) :
    (h.push p hdata).index id key = h.index id key := by
  rw [index_eq_root, index_eq_root]
  have hroot : ∀ id < h.tables.length, (h.push p hdata).root id = h.root id := by
    intro id hid
    induction id using Nat.strong_induction_on with
    | _ id ih =>
      have hsame : (h.push p hdata).proxy id = h.proxy id := by
        rw [proxy, getElem?_push p hdata hid, ← proxy]
      cases hp : h.proxy id with
      | none => rw [root_of_plain hp, root_of_plain (hsame.trans hp)]
      | some q =>
        have hlt := (proxy_spec hp).1
        rw [root_of_proxy hp, root_of_proxy (hsame.trans hp)]
        exact ih q.data hlt (by omega)
  have hle := h.root_le id
  rw [hroot id hid, rawget, entries, getElem?_push p hdata (by omega), rawget, entries]

/-- The proxy reads as the table behind it. -/
theorem index_push_new (key : Value) :
    (h.push p hdata).index h.tables.length key = h.index p.data key := by
  rw [index_eq_root, root_of_proxy (proxy_push p hdata), ← index_eq_root, index_push p hdata hdata]

theorem length_push : (h.push p hdata).tables.length = h.tables.length + 1 := by
  simp [push]

end Push

end Heap

end QStar.Lib.LuaTables
