import QStar.Authoring.TableHelpers
import QStar.Base.Files
import QStar.Lib.Results

/-!
# Values of variants

`qstar.variant` takes literal data under `values`, which it checks to be lists and
maps of scalars, and a list of strings under `tags`. It shows both through
read-only tables: each is an empty table whose metatable reads through to a
table with the data, in which nested tables are read-only again.
-/
namespace QStar.Authoring.VariantValues

open QStar.Lib
open QStar.Lib.CStrings
open QStar.Lib.Lines
open QStar.Lib.NestedTables
open QStar.Lib.Results
open QStar.Lib.TableHeaps
open QStar.Base
open QStar.Authoring.TableHelpers

/-- `lua_tostring` of what `lua_isstring` takes, as the C string that is read -/
def luaTostring : Scalar → Option Bytes
  | .integer i => some (printInt i)
  | .float text => some (cString text)
  | .string s => some (cString s)
  | .boolean _ | .other _ => none

/-- `variant_metadata_key_valid` -/
def variantMetadataKeyValid (key : Bytes) : Bool :=
  match key with
  | [] => false
  | c :: rest => (isAlnum c || c = 95) && rest.all fun c => isAlnum c || c = 95 || c = 45 || c = 46

/-- A key of a map. A float that is a key ends the walk of `lua_next` in an error, since
`lua_tostring` turns it into a string in place. -/
def nameKey : Value Scalar → Bool
  | .atom (.string key) => variantMetadataKeyValid (cString key)
  | _ => false

/-- A key of a list. -/
def indexKey : Value Scalar → Option Nat
  | .atom (.integer i) => if 1 ≤ i then some i.toNat else none
  | _ => none

/-- `variant_table_shape`: whether the table is a list, and its length. -/
def variantTableShape (es : List (Value Scalar × Value Scalar)) : Option (Bool × Nat) :=
  if es = [] then none
  else if es.all fun e => nameKey e.1 then some (false, 0)
  else
    match es.mapM fun e => indexKey e.1 with
    | none => none
    | some keys => if keys.max? = some es.length then some (true, es.length) else none

/-- QSTAR_PATH_MAX -/
def pathMax : Nat := 4096

/-- `variant_value_entry_push` -/
def variantValueEntry (path kind value : Bytes) : Bytes := path ++ ascii ":" ++ kind ++ ascii "=" ++ value

/-- `collect_variant_values` and `collect_variant_scalar` for what lies at a path of the root
table. A path grows at each level, so that `fuel` is never short when it is `pathMax`. -/
def collectVariantValues (h : Heap Scalar) : Nat → Bytes → Option (Value Scalar) → Option (List Bytes)
  | _, path, some (.atom (.boolean b)) =>
    some [variantValueEntry path (ascii "boolean") (if b then ascii "true" else ascii "false")]
  | _, path, some (.atom (.integer i)) => some [variantValueEntry path (ascii "integer") (printInt i)]
  | _, path, some (.atom (.float text)) => some [variantValueEntry path (ascii "string") (cString text)]
  | _, path, some (.atom (.string s)) => some [variantValueEntry path (ascii "string") (cString s)]
  | _, _, some (.atom (.other _)) => none
  | _, _, none => none
  | 0, _, some (.table _) => none
  | fuel + 1, path, some (.table id) =>
    match variantTableShape (h.entries id) with
    | none => none
    | some (true, n) =>
      ((List.range n).mapM fun (i : Nat) =>
        let child := path ++ ascii "[" ++ printInt ((i + 1 : Nat) : Int) ++ ascii "]"
        if child.length < pathMax then
          collectVariantValues h fuel child (h.rawget id (.atom (numbers.index (i + 1))))
        else none).map List.flatten
    | some (false, _) =>
      ((h.entries id).mapM fun (e : Value Scalar × Value Scalar) =>
        match e.1 with
        | .atom (.string key) =>
          let child := path ++ ascii "." ++ cString key
          if child.length < pathMax then collectVariantValues h fuel child (some e.2) else none
        | _ => none).map List.flatten

/-- `push_readonly_scalar_copy`: text is copied as a C string. -/
def pushReadonlyScalarCopy : Scalar → Option Scalar
  | .boolean b => some (.boolean b)
  | .integer i => some (.integer i)
  | .float text => some (.string (cString text))
  | .string s => some (.string (cString s))
  | .other _ => none

/-- `push_readonly_proxy` -/
def pushReadonlyProxy (h : Heap Scalar) (data : Nat) : Heap Scalar := h ++ [⟨[], some data⟩]

/-- `push_readonly_table_copy_depth`. `room` is 64 less the depth, which may be 63. -/
def pushReadonlyTableCopy (h : Heap Scalar) (src : Nat) : Nat → Option (Heap Scalar × Nat)
  | 0 => none
  | room + 1 => do
    let done ← (h.entries src).foldlM (fun h' e =>
      match e.2 with
      | .table id => do
        let (h₁, shown) ← pushReadonlyTableCopy h' id room
        pure (h₁.rawset h.length e.1 (some (.table shown)))
      | .atom a => do
        let a' ← pushReadonlyScalarCopy a
        pure (h'.rawset h.length e.1 (some (.atom a')))) h.alloc
    pure (pushReadonlyProxy done h.length, done.length)

/-- The tags of `push_variant_result`. -/
def pushVariantTags (h : Heap Scalar) (tags : List Bytes) : Heap Scalar × Nat :=
  let filled := tags.zipIdx.foldl (fun h' tag =>
    h'.rawset h.length (.atom (numbers.index (tag.2 + 1))) (some (.atom (.string tag.1)))) h.alloc
  (pushReadonlyProxy filled h.length, filled.length)

/-- The keys of the table are no tables. -/
def AtomicKeys (entries : Entries Scalar) : Prop := ∀ e ∈ entries, ∃ a, e.1 = .leaf a

theorem nameKey_eq {key : Value Scalar} (hk : nameKey key = true) :
    ∃ s, key = .atom (.string s) ∧ variantMetadataKeyValid (cString s) = true := by
  cases key with
  | table id => cases hk
  | atom a =>
    cases a with
    | string s => exact ⟨s, rfl, hk⟩
    | _ => cases hk

theorem indexKey_eq {key : Value Scalar} {n : Nat} (hk : indexKey key = some n) :
    key = .atom (numbers.index n) ∧ 1 ≤ n := by
  cases key with
  | table id => cases hk
  | atom a =>
    cases a with
    | integer i =>
      rw [indexKey] at hk
      split at hk
      · cases hk
        refine ⟨?_, by omega⟩
        have hi : ((i.toNat : Nat) : Int) = i := Int.toNat_of_nonneg (by omega)
        change Value.atom (Scalar.integer i) = .atom (.integer ((i.toNat : Nat) : Int))
        rw [hi]
      · cases hk
    | _ => cases hk

/-- A table that is accepted has entries, under names or under the numbers up to its length. -/
theorem variantTableShape_spec {es : List (Value Scalar × Value Scalar)} {shape : Bool × Nat}
    (hs : variantTableShape es = some shape) :
    es ≠ [] ∧ ((shape.1 = false ∧ ∀ e ∈ es, nameKey e.1 = true) ∨
      (shape = (true, es.length) ∧
        ∀ e ∈ es, ∃ n, e.1 = .atom (numbers.index n) ∧ 1 ≤ n ∧ n ≤ es.length)) := by
  rw [variantTableShape] at hs
  split at hs
  · cases hs
  · rename_i hne
    refine ⟨hne, ?_⟩
    split at hs
    · rename_i hnames
      cases hs
      exact .inl ⟨rfl, List.all_eq_true.mp hnames⟩
    · right
      split at hs
      · cases hs
      · rename_i keys hkeys
        split at hs
        · rename_i hmax
          cases hs
          refine ⟨rfl, ?_⟩
          intro e he
          obtain ⟨n, hn, hkey⟩ := mapM_eq_some_of_mem hkeys he
          obtain ⟨hkey, hone⟩ := indexKey_eq hkey
          exact ⟨n, hkey, hone, (List.max?_eq_some_iff.mp hmax).2 n hn⟩
        · cases hs

variable {h : Heap Scalar}

/-- The shape of a nested table that is accepted. -/
theorem shape_of_holds {id : Nat} {entries : Entries Scalar} {ids : List Nat} {shape : Bool × Nat}
    (ht : Holds h (.table id) (.node entries) ids) (hs : variantTableShape (h.entries id) = some shape) :
    entries ≠ [] ∧ AtomicKeys entries ∧
      ((shape.1 = false ∧ ∀ e ∈ entries, ∃ s, e.1 = .leaf (.string s)) ∨
        (shape = (true, entries.length) ∧ isList numbers entries = true)) := by
  obtain ⟨hne, hkeys⟩ := variantTableShape_spec hs
  cases ht with
  | @table _ es _ rest hself hnodup hentries =>
    have hes : h.entries id = es := by
      rw [Heap.entries, hself]
      rfl
    rw [hes] at hne hkeys
    have hlen := hentries.length_eq
    have hcover : ∀ e ∈ entries, ∃ e' ∈ es, ∃ keyIds, Holds h e'.1 e.1 keyIds := by
      intro e he
      obtain ⟨e', he', keyIds, -, hkey, -⟩ := hentries.exists_of_mem he
      exact ⟨e', he', keyIds, hkey⟩
    refine ⟨?_, ?_⟩
    · intro hnil
      rw [hnil] at hlen
      exact hne (List.length_eq_zero_iff.mp hlen)
    · rcases hkeys with ⟨hshape, hnames⟩ | ⟨hshape, hnumbers⟩
      · have hstrings : ∀ e ∈ entries, ∃ s, e.1 = .leaf (.string s) := by
          intro e he
          obtain ⟨e', he', keyIds, hkey⟩ := hcover e he
          obtain ⟨s, hs, -⟩ := nameKey_eq (hnames e' he')
          rw [hs] at hkey
          exact ⟨s, hkey.atom_eq⟩
        refine ⟨fun e he => ?_, .inl ⟨hshape, hstrings⟩⟩
        obtain ⟨s, hs⟩ := hstrings e he
        exact ⟨_, hs⟩
      · have hnums : ∀ e ∈ entries, ∃ n, e.1 = .leaf (numbers.index n) ∧ 1 ≤ n ∧ n ≤ entries.length := by
          intro e he
          obtain ⟨e', he', keyIds, hkey⟩ := hcover e he
          obtain ⟨n, hn, hle⟩ := hnumbers e' he'
          rw [hn] at hkey
          exact ⟨n, hkey.atom_eq, by omega⟩
        refine ⟨fun e he => ?_, .inr ⟨by rw [hshape, hlen], isList_iff.mpr hnums⟩⟩
        obtain ⟨n, hn, -⟩ := hnums e he
        exact ⟨_, hn⟩

/-- What holds of the tables of the interpreter: a key comes once, and a table that reads through
to another is empty. `setmetatable` is forbidden, so that qstar made it, and it refuses
assignments. -/
structure Regular (h : Heap Scalar) : Prop where
  keys : ∀ {id : Nat} {t : Table Scalar}, h[id]? = some t → (t.entries.map (·.1)).Nodup
  behind : ∀ {id data : Nat} {t : Table Scalar}, h[id]? = some t → t.behind = some data →
    t.entries = [] ∧ data < h.length

/-- A table with entries reads through to no other. -/
theorem Regular.get {id : Nat} (hr : Regular h) (hne : h.entries id ≠ []) :
    h[id]? = some ⟨h.entries id, none⟩ ∧ ((h.entries id).map (·.1)).Nodup := by
  cases hget : h[id]? with
  | none =>
    rw [Heap.entries, hget] at hne
    exact absurd rfl hne
  | some t =>
    obtain ⟨es, behind⟩ := t
    have hes : h.entries id = es := by
      rw [Heap.entries, hget]
      rfl
    rw [hes]
    rw [hes] at hne
    cases behind with
    | none => exact ⟨rfl, hr.keys hget⟩
    | some data => exact absurd (hr.behind hget rfl).1 hne

/-- A value that is accepted is a nested table. -/
theorem holds_of_collectVariantValues (hr : Regular h) {fuel : Nat} {path : Bytes} {v : Value Scalar}
    {values : List Bytes} (hc : collectVariantValues h fuel path (some v) = some values) :
    ∃ t ids, Holds h v t ids := by
  induction fuel generalizing path v values with
  | zero =>
    cases v with
    | atom a => exact ⟨.leaf a, [], .atom a⟩
    | table id => cases hc
  | succ fuel ih =>
    cases v with
    | atom a => exact ⟨.leaf a, [], .atom a⟩
    | table id =>
      rw [collectVariantValues] at hc
      cases hshape : variantTableShape (h.entries id) with
      | none =>
        rw [hshape] at hc
        cases hc
      | some shape =>
        rw [hshape] at hc
        obtain ⟨hne, hkeys⟩ := variantTableShape_spec hshape
        obtain ⟨hself, hnodup⟩ := hr.get hne
        have hall : ∀ e ∈ h.entries id, (∃ t ids, Holds h e.1 t ids) ∧ ∃ t ids, Holds h e.2 t ids := by
          intro e he
          rcases hkeys with ⟨hfalse, hnames⟩ | ⟨htrue, hnumbers⟩
          · obtain ⟨isList, n⟩ := shape
            simp only at hfalse
            subst hfalse
            obtain ⟨lists, hmap, -⟩ := Option.map_eq_some_iff.mp hc
            obtain ⟨found, -, hone⟩ := mapM_eq_some_of_mem hmap he
            obtain ⟨s, hs, -⟩ := nameKey_eq (hnames e he)
            rw [hs] at hone ⊢
            simp only at hone
            split at hone
            · exact ⟨⟨_, _, .atom _⟩, ih hone⟩
            · cases hone
          · subst htrue
            obtain ⟨lists, hmap, -⟩ := Option.map_eq_some_iff.mp hc
            obtain ⟨n, hn, hle⟩ := hnumbers e he
            have hrange : n - 1 ∈ List.range (h.entries id).length := List.mem_range.mpr (by omega)
            obtain ⟨found, -, hone⟩ := mapM_eq_some_of_mem hmap hrange
            have hsucc : n - 1 + 1 = n := by omega
            have hraw : h.rawget id (.atom (numbers.index n)) = some e.2 := by
              rw [Heap.rawget, ← hn]
              exact Bindings.lookup_of_mem hnodup he
            rw [hsucc, hraw] at hone
            rw [hn]
            simp only at hone
            split at hone
            · exact ⟨⟨_, _, .atom _⟩, ih hone⟩
            · cases hone
        obtain ⟨ts, ids, hz⟩ := Entrywise.exists_of_forall hall
        exact ⟨.node ts, id :: ids, .table hself hnodup hz⟩

/-- The tables in a value that is accepted have no tables for keys. -/
theorem collectVariantValues_keys {fuel : Nat} {path : Bytes} {v : Value Scalar} {t : Nested Scalar} {ids : List Nat}
    {values : List Bytes} (hv : Holds h v t ids) (hc : collectVariantValues h fuel path (some v) = some values) :
    t.Throughout AtomicKeys := by
  induction fuel generalizing path v t ids values with
  | zero =>
    cases hv with
    | atom a => trivial
    | table => cases hc
  | succ fuel ih =>
    cases hv with
    | atom a => trivial
    | @table id es ts ids hself hnodup hentries =>
      have ht : Holds h (.table id) (.node ts) (id :: ids) := .table hself hnodup hentries
      have hes : h.entries id = es := by
        rw [Heap.entries, hself]
        rfl
      rw [collectVariantValues] at hc
      cases hshape : variantTableShape (h.entries id) with
      | none =>
        rw [hshape] at hc
        cases hc
      | some shape =>
        obtain ⟨-, hatomic, hcases⟩ := shape_of_holds ht hshape
        rw [throughout_node]
        refine ⟨hatomic, ?_⟩
        intro e he
        obtain ⟨e', he', keyIds, valueIds, hkey, hvalue⟩ := hentries.exists_of_mem he
        rw [hshape] at hc
        rcases hcases with ⟨hfalse, hstrings⟩ | ⟨htrue, hlist⟩
        · obtain ⟨isList, n⟩ := shape
          simp only at hfalse
          subst hfalse
          obtain ⟨lists, hmap, -⟩ := Option.map_eq_some_iff.mp hc
          rw [hes] at hmap
          obtain ⟨found, -, hone⟩ := mapM_eq_some_of_mem hmap he'
          obtain ⟨s, hs⟩ := hstrings e he
          rw [hs] at hkey
          rw [hkey.key_atom] at hone
          simp only at hone
          split at hone
          · exact ih hvalue hone
          · cases hone
        · subst htrue
          obtain ⟨lists, hmap, -⟩ := Option.map_eq_some_iff.mp hc
          obtain ⟨n, hn, hle⟩ := isList_iff.mp hlist e he
          have hrange : n - 1 ∈ List.range ts.length := List.mem_range.mpr (by omega)
          obtain ⟨found, -, hone⟩ := mapM_eq_some_of_mem hmap hrange
          have hsucc : n - 1 + 1 = n := by omega
          have hraw : h.rawget id (.atom (numbers.index n)) = some e'.2 := by
            rw [Heap.rawget, hes]
            have hatom : e'.1 = .atom (numbers.index n) := by
              rw [hn] at hkey
              exact hkey.key_atom
            rw [← hatom]
            exact Bindings.lookup_of_mem hnodup he'
          rw [hsucc, hraw] at hone
          simp only at hone
          split at hone
          · exact ih hvalue hone
          · cases hone

/-- How a value of the data is shown: a scalar as its copy, a table as a newer read-only one. -/
def ShownAs (h : Heap Scalar) (data : Nat) (value shown : Value Scalar) : Prop :=
  match value with
  | .atom a => ∃ a', pushReadonlyScalarCopy a = some a' ∧ shown = .atom a'
  | .table _ => ∃ q behind, shown = .table q ∧ data < q ∧ h[q]? = some ⟨[], some behind⟩

/-- The entries of the data behind a read-only table are those of the table it shows. -/
def Mirrors (h : Heap Scalar) (data : Nat) (es es' : List (Value Scalar × Value Scalar)) : Prop :=
  List.Forall₂ (fun e e' => e'.1 = e.1 ∧ ShownAs h data e.2 e'.2) es es'

theorem ShownAs.later {h' : Heap Scalar} {data : Nat} {value shown : Value Scalar} (hs : ShownAs h data value shown)
    (hsame : ∀ i, data < i → i < h.length → h'[i]? = h[i]?) : ShownAs h' data value shown := by
  cases value with
  | atom a => exact hs
  | table id =>
    obtain ⟨q, behind, heq, hlt, hget⟩ := hs
    exact ⟨q, behind, heq, hlt, (hsame q hlt (List.getElem?_eq_some_iff.mp hget).1).trans hget⟩

theorem Mirrors.later {h' : Heap Scalar} {data : Nat} {es es' : List (Value Scalar × Value Scalar)}
    (hm : Mirrors h data es es') (hsame : ∀ i, data < i → i < h.length → h'[i]? = h[i]?) : Mirrors h' data es es' :=
  hm.imp fun _ _ hboth => ⟨hboth.1, hboth.2.later hsame⟩

theorem Mirrors.keys {data : Nat} {es es' : List (Value Scalar × Value Scalar)} (hm : Mirrors h data es es') :
    es'.map (·.1) = es.map (·.1) := by
  induction hm with
  | nil => rfl
  | cons hhead _ ih => rw [List.map_cons, List.map_cons, hhead.1, ih]

theorem Mirrors.lookup {data : Nat} {es es' : List (Value Scalar × Value Scalar)} (hm : Mirrors h data es es')
    (key : Value Scalar) :
    match es.lookup key with
    | none => es'.lookup key = none
    | some value => ∃ shown, es'.lookup key = some shown ∧ ShownAs h data value shown := by
  induction hm with
  | nil => rfl
  | @cons e e' es es' hhead _ ih =>
    obtain ⟨k, value⟩ := e
    obtain ⟨k', shown⟩ := e'
    obtain ⟨hkey, hs⟩ := hhead
    simp only at hkey
    subst hkey
    by_cases heq : k' = key
    · subst heq
      rw [List.lookup_cons_self, List.lookup_cons_self]
      exact ⟨shown, rfl, hs⟩
    · rw [Bindings.lookup_cons_ne heq, Bindings.lookup_cons_ne heq]
      exact ih

/-- A value is put at a new key of the data. -/
theorem Mirrors.snoc {h₀ : Heap Scalar} {data : Nat} {es es' : List (Value Scalar × Value Scalar)}
    {key value shown : Value Scalar} (hm : Mirrors h₀ data es es') (hget : h₀[data]? = some ⟨es', none⟩)
    (hnew : ∀ e ∈ es, e.1 ≠ key) (hs : ShownAs h₀ data value shown) :
    (h₀.rawset data key (some shown))[data]? = some ⟨es' ++ [(key, shown)], none⟩ ∧
      Mirrors (h₀.rawset data key (some shown)) data (es ++ [(key, value)]) (es' ++ [(key, shown)]) := by
  have hnew' : ∀ e ∈ es', e.1 ≠ key := by
    intro e he heq
    have hin : e.1 ∈ es.map (·.1) := by
      rw [← hm.keys]
      exact List.mem_map.mpr ⟨e, he, rfl⟩
    obtain ⟨e', he', heq'⟩ := List.mem_map.mp hin
    exact hnew e' he' (heq'.trans heq)
  have hsame : ∀ i, data < i → i < h₀.length → (h₀.rawset data key (some shown))[i]? = h₀[i]? :=
    fun i hi _ => getElem?_rawset data i key _ (by omega)
  refine ⟨?_, ?_⟩
  · rw [Heap.rawset, List.getElem?_modify, hget]
    simp [Bindings.assign_of_forall_ne hnew']
  · exact List.rel_append (hm.later hsame) (.cons ⟨rfl, hs.later hsame⟩ .nil)

/-- What is made of a nested table that is accepted: an empty table that reads through to a copy
of the entries. Nothing of before changes, and the tables lie less deep than the limit. -/
theorem pushReadonlyTableCopy_spec (room : Nat) {h h' : Heap Scalar} {src shown : Nat} {ts : Entries Scalar}
    {es : List (Value Scalar × Value Scalar)} {ids : List Nat} (hself : h[src]? = some ⟨es, none⟩)
    (hkeys : (es.map (·.1)).Nodup) (hentries : Entrywise (Holds h) es ts ids)
    (hatomic : (Nested.node ts).Throughout AtomicKeys) (hcopy : pushReadonlyTableCopy h src room = some (h', shown)) :
    (Nested.node ts).depth ≤ room ∧ (∀ i < h.length, h'[i]? = h[i]?) ∧ h.length < shown ∧
      ∃ es', h'[shown]? = some ⟨[], some h.length⟩ ∧ h'[h.length]? = some ⟨es', none⟩ ∧
        Mirrors h' h.length es es' := by
  induction room generalizing h h' src shown ts es ids with
  | zero => cases hcopy
  | succ room ih =>
    -- the entries that are left are copied behind those that are done
    have hloop : ∀ {es : List (Value Scalar × Value Scalar)} {ts : Entries Scalar} {ids : List Nat},
        Entrywise (Holds h) es ts ids → (∀ e ∈ ts, (∃ a, e.1 = .leaf a) ∧ e.2.Throughout AtomicKeys) →
        ∀ {before before' : List (Value Scalar × Value Scalar)} {h₀ done : Heap Scalar},
        ((before ++ es).map (·.1)).Nodup → (∀ i < h.length, h₀[i]? = h[i]?) →
        h₀[h.length]? = some ⟨before', none⟩ → Mirrors h₀ h.length before before' →
        es.foldlM (fun h' e =>
          match e.2 with
          | .table id => do
            let (h₁, shown) ← pushReadonlyTableCopy h' id room
            pure (h₁.rawset h.length e.1 (some (.table shown)))
          | .atom a => do
            let a' ← pushReadonlyScalarCopy a
            pure (h'.rawset h.length e.1 (some (.atom a')))) h₀ = some done →
        depthAll ts ≤ room + 1 ∧ (∀ i < h.length, done[i]? = h[i]?) ∧
          ∃ es', done[h.length]? = some ⟨es', none⟩ ∧ Mirrors done h.length (before ++ es) es' := by
      intro es ts ids hz
      induction hz with
      | nil =>
        intro _ before before' h₀ done _ hsame hget hm hrun
        cases hrun
        rw [List.append_nil]
        exact ⟨Nat.zero_le _, hsame, before', hget, hm⟩
      | @cons key value tkey tvalue keyIds valueIds ids es ts hkey hvalue hrest ihrest =>
        intro hts before before' h₀ done hnodup hsame hget hm hrun
        obtain ⟨⟨⟨a, ha⟩, hatomic⟩, hts'⟩ := List.forall_mem_cons.mp hts
        have hnew : ∀ e ∈ before, e.1 ≠ key := by
          intro e he heq
          rw [List.map_append, List.nodup_append] at hnodup
          exact hnodup.2.2 e.1 (List.mem_map.mpr ⟨e, he, rfl⟩) key List.mem_cons_self heq
        have hassoc : before ++ (key, value) :: es = (before ++ [(key, value)]) ++ es := by simp
        have hlt : h.length < h₀.length := (List.getElem?_eq_some_iff.mp hget).1
        rw [List.foldlM_cons] at hrun
        obtain ⟨h₂, hone, hrun⟩ := Option.bind_eq_some_iff.mp hrun
        have ha' : tkey = .leaf a := ha
        rw [hassoc] at hnodup ⊢
        rw [depthAll, ha', Nested.depth]
        cases value with
        | atom b =>
          cases hvalue
          obtain ⟨b', hb, hone⟩ := Option.bind_eq_some_iff.mp hone
          cases hone
          have hshown : ShownAs h₀ h.length (.atom b) (.atom b') := ⟨b', hb, rfl⟩
          obtain ⟨hget', hm'⟩ := hm.snoc hget hnew hshown
          have hsame' : ∀ i < h.length, (h₀.rawset h.length key (some (.atom b')))[i]? = h[i]? :=
            fun i hi => (getElem?_rawset h.length i key _ (by omega)).trans (hsame i hi)
          obtain ⟨hdepth, hrest⟩ := ihrest hts' hnodup hsame' hget' hm' hrun
          refine ⟨?_, hrest⟩
          rw [Nested.depth]
          omega
        | table id =>
          cases hvalue with
          | @table _ es₁ ts₁ ids₁ hself₁ hkeys₁ hentries₁ =>
            obtain ⟨⟨h₁, q⟩, hcopied, hone⟩ := Option.bind_eq_some_iff.mp hone
            cases hone
            have hvalue : Holds h (.table id) (.node ts₁) (id :: ids₁) := .table hself₁ hkeys₁ hentries₁
            have hold : ∀ i ∈ id :: ids₁, h₀[i]? = h[i]? := fun i hi => hsame i (hvalue.lt i hi)
            obtain ⟨hdepth₁, hsame₁, hq, es₂, hshown, -, -⟩ :=
              ih ((hold id List.mem_cons_self).trans hself₁) hkeys₁
                (hentries₁.frame fun i hi => hold i (List.mem_cons_of_mem id hi)) hatomic hcopied
            have hget₁ : h₁[h.length]? = some ⟨before', none⟩ := (hsame₁ h.length hlt).trans hget
            have hm₁ : Mirrors h₁ h.length before before' := hm.later fun i _ hi => hsame₁ i hi
            have hshownAs : ShownAs h₁ h.length (.table id) (.table q) := ⟨q, h₀.length, rfl, by omega, hshown⟩
            obtain ⟨hget', hm'⟩ := hm₁.snoc hget₁ hnew hshownAs
            have hsame' : ∀ i < h.length, (h₁.rawset h.length key (some (.table q)))[i]? = h[i]? :=
              fun i hi => ((getElem?_rawset h.length i key _ (by omega)).trans (hsame₁ i (by omega))).trans (hsame i hi)
            obtain ⟨hdepth, hrest⟩ := ihrest hts' hnodup hsame' hget' hm' hrun
            refine ⟨?_, hrest⟩
            omega
    have hes : h.entries src = es := by
      rw [Heap.entries, hself]
      rfl
    obtain ⟨hkeysAtomic, hvalues⟩ := throughout_node.mp hatomic
    rw [pushReadonlyTableCopy, hes] at hcopy
    obtain ⟨done, hrun, hpushed⟩ := Option.bind_eq_some_iff.mp hcopy
    cases hpushed
    have hstart : h.alloc[h.length]? = some ⟨[], none⟩ := List.getElem?_concat_length
    have hkeys' : ((([] : List (Value Scalar × Value Scalar)) ++ es).map (·.1)).Nodup := hkeys
    obtain ⟨hdepth, hsame, es', hget, hm⟩ := hloop hentries (fun e he => ⟨hkeysAtomic e he, hvalues e he⟩)
      hkeys' (fun i hi => List.getElem?_append_left hi) hstart .nil hrun
    have hlt : h.length < done.length := (List.getElem?_eq_some_iff.mp hget).1
    have hkeep : ∀ i < done.length, (pushReadonlyProxy done h.length)[i]? = done[i]? :=
      fun i hi => List.getElem?_append_left hi
    refine ⟨by rw [Nested.depth]; exact hdepth, ?_, hlt, es', ?_, ?_, ?_⟩
    · exact fun i hi => (hkeep i (by omega)).trans (hsame i hi)
    · exact List.getElem?_concat_length
    · rw [hkeep h.length hlt, hget]
    · exact hm.later fun i _ hi => hkeep i hi

end QStar.Authoring.VariantValues
