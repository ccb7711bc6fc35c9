import QStar.Lib.Lines
import QStar.Lib.TableHeaps

/-!
# The table helpers

`qstar.copy`, `append`, `merge` and `extend` work on the tables of the interpreter.
What the interpreter answers for the length of a table is any of its borders, so
that a table with a gap among its numbers may count as a list in one place and not
in another. On tables without gaps the helpers are what the wiki says of them:
deep copies, concatenations and key by key merges of nested tables.
-/
namespace QStar.Authoring.TableHelpers

open QStar.Lib.CStrings
open QStar.Lib.Lines
open QStar.Lib.NestedTables
open QStar.Lib.TableHeaps

/-- The values that are no tables. -/
inductive Scalar where
  | boolean (b : Bool)
  | integer (i : Int)
  /-- a number that is no integer, by the text Lua prints for it -/
  | float (text : Bytes)
  | string (s : Bytes)
  | other (tag : Nat)
  deriving DecidableEq

/-- The integers from zero on. -/
def numbers : Numbers Scalar where
  index n := .integer n
  number
    | .integer i => if 0 ≤ i then some i.toNat else none
    | _ => none
  number_iff := by
    intro a n
    cases a with
    | integer i =>
      simp only [Scalar.integer.injEq]
      split
      · rw [Option.some.injEq]
        omega
      · constructor
        · intro h
          cases h
        · intro h
          omega
    | _ =>
      constructor <;> intro h <;> cases h

/-- `lua_isstring`: Lua takes numbers for strings. -/
def luaIsstring : Scalar → Bool
  | .integer _ | .float _ | .string _ => true
  | .boolean _ | .other _ => false

/-- The mark of the tables that qstar makes. -/
def kindMark : Marks numbers where
  key := .string (ascii "__qstar_kind")
  sort := luaIsstring
  key_no_number := rfl

/-- Why a helper fails. -/
inductive HelperError where
  /-- `luaL_checktype`: the argument is no table -/
  | badArgument
  /-- "qstar: helper table is nested too deeply" -/
  | tooDeep
  /-- "qstar: qstar.append first argument must be a list" -/
  | notList
  /-- "qstar: qstar.merge arguments must be plain tables" -/
  | mergeNotPlain
  /-- "qstar: qstar.extend base must be a plain table" -/
  | baseNotPlain
  /-- "qstar: qstar.extend overlays must be plain tables" -/
  | overlayNotPlain
  /-- a read-only table refuses an assignment -/
  | readonly
  deriving DecidableEq

/-- `qstar_table_kind` -/
def qstarTableKind (h : Heap Scalar) (id : Nat) : Option Scalar :=
  match h.gettable id (.atom kindMark.key) with
  | some (.atom a) => if luaIsstring a then some a else none
  | _ => none

/-- `qstar_lua_plain_table` of a table -/
def plainTable (h : Heap Scalar) (id : Nat) : Bool := (qstarTableKind h id).isNone

/-- `qstar_lua_push_value_copy`. `room` is 65 less the depth, which may be 64. -/
def pushValueCopy (h : Heap Scalar) (v : Value Scalar) : Nat → Except HelperError (Heap Scalar × Value Scalar)
  | 0 => .error .tooDeep
  | room + 1 =>
    match v with
    | .atom a => .ok (h, .atom a)
    | .table src => do
      let done ← (h.entries src).foldlM (fun h' e => do
        let (h₁, key) ← pushValueCopy h' e.1 room
        let (h₂, value) ← pushValueCopy h₁ e.2 room
        pure (h₂.rawset h.length key (some value))) h.alloc
      pure (done, .table h.length)

/-- `qstar_lua_append_value_copy`: a nil takes a place. -/
def appendValueCopy (h : Heap Scalar) (dst : Nat) (value : Option (Value Scalar)) (next room : Nat) :
    Except HelperError (Heap Scalar × Nat) :=
  match value with
  | some v => do
    let (h₁, v') ← pushValueCopy h v (room - 1)
    pure (h₁.rawset dst (.atom (numbers.index next)) (some v'), next + 1)
  | none =>
    if room - 1 = 0 then .error .tooDeep
    else .ok (h.rawset dst (.atom (numbers.index next)) none, next + 1)

/-- `lua_settable` -/
def settable (h : Heap Scalar) (id : Nat) (key value : Value Scalar) : Except HelperError (Heap Scalar) :=
  if (h.rawget id key).isNone && (h.behind id).isSome then .error .readonly
  else .ok (h.rawset id key (some value))

section Shapes

variable (L : Lengths numbers)

/-- `qstar_lua_array_table` of a table -/
def arrayTable (h : Heap Scalar) (id : Nat) : Bool :=
  plainTable h id && (h.entries id).all fun e => keyWithin numbers (L.len h id) e.1

/-- `qstar_lua_append_list_copy` -/
def appendListCopy (h : Heap Scalar) (dst src next room : Nat) : Except HelperError (Heap Scalar × Nat) :=
  (List.range (L.len h src)).foldlM (fun (s : Heap Scalar × Nat) i =>
    appendValueCopy s.1 dst (s.1.rawget src (.atom (numbers.index (i + 1)))) s.2 (room - 1)) (h, next)

/-- The copies of a key and a value are set. -/
def setCopies (h : Heap Scalar) (dst : Nat) (key value : Value Scalar) (room : Nat) :
    Except HelperError (Heap Scalar) := do
  let (h₁, key') ← pushValueCopy h key room
  let (h₂, value') ← pushValueCopy h₁ value room
  settable h₂ dst key' value'

/-- The loop body of `qstar_lua_merge_into`, which calls itself as `into`. -/
def mergeEntry (into : Heap Scalar → Nat → Nat → Except HelperError (Heap Scalar)) (room : Nat) (dst : Nat)
    (h : Heap Scalar) (e : Value Scalar × Value Scalar) : Except HelperError (Heap Scalar) :=
  match e.2 with
  | .atom _ => setCopies h dst e.1 e.2 room
  | .table value =>
    if plainTable h value then
      match h.gettable dst e.1 with
      | some (.table existing) =>
        if plainTable h existing then
          if arrayTable L h existing && arrayTable L h value then
            (appendListCopy L h existing value (L.len h existing + 1) room).map (·.1)
          else into h existing value
        else setCopies h dst e.1 e.2 room
      | _ => setCopies h dst e.1 e.2 room
    else setCopies h dst e.1 e.2 room

/-- `qstar_lua_merge_into`. The entries are those at the start: `lua_next` walks a table
that the loop does not write to. -/
def mergeInto (h : Heap Scalar) (dst src : Nat) : Nat → Except HelperError (Heap Scalar)
  | 0 => .error .tooDeep
  | room + 1 =>
    (h.entries src).foldlM (mergeEntry L (fun h' existing value => mergeInto h' existing value room) room dst) h

/-- `qstar_lua_copy` -/
def copy (h : Heap Scalar) (arg : Option (Value Scalar)) : Except HelperError (Heap Scalar × Value Scalar) :=
  match arg with
  | some (.table id) => pushValueCopy h (.table id) 65
  | _ => .error .badArgument

/-- The loop body of `qstar_lua_append` behind the first list. -/
def appendArgument (dst : Nat) (s : Heap Scalar × Nat) (arg : Option (Value Scalar)) :
    Except HelperError (Heap Scalar × Nat) :=
  match arg with
  | some (.table id) =>
    if arrayTable L s.1 id then appendListCopy L s.1 dst id s.2 65
    else appendValueCopy s.1 dst arg s.2 65
  | _ => appendValueCopy s.1 dst arg s.2 65

/-- `qstar_lua_append` -/
def append (h : Heap Scalar) (args : List (Option (Value Scalar))) :
    Except HelperError (Heap Scalar × Value Scalar) :=
  match args with
  | some (.table first) :: rest =>
    if arrayTable L h first then do
      let start ← appendListCopy L h.alloc h.length first 1 65
      let done ← rest.foldlM (appendArgument L h.length) start
      pure (done.1, .table h.length)
    else .error .notList
  | _ => .error .badArgument

/-- What `qstar_lua_merge` and `qstar_lua_extend` do with an argument. -/
def mergeArgument (h : Heap Scalar) (dst id : Nat) : Except HelperError (Heap Scalar) :=
  if arrayTable L h dst && arrayTable L h id then
    (appendListCopy L h dst id (L.len h dst + 1) 65).map (·.1)
  else mergeInto L h dst id 65

/-- The loop of `qstar_lua_merge` and `qstar_lua_extend` over arguments, of which each must be
a plain table. -/
def mergeArguments (refusal : HelperError) (h : Heap Scalar) (dst : Nat) (args : List (Option (Value Scalar))) :
    Except HelperError (Heap Scalar) :=
  args.foldlM (fun h' arg =>
    match arg with
    | some (.table id) => if plainTable h' id then mergeArgument L h' dst id else .error refusal
    | _ => .error .badArgument) h

/-- `qstar_lua_merge` -/
def merge (h : Heap Scalar) (args : List (Option (Value Scalar))) :
    Except HelperError (Heap Scalar × Value Scalar) := do
  let done ← mergeArguments L .mergeNotPlain h.alloc h.length args
  pure (done, .table h.length)

/-- `qstar_lua_extend` -/
def extend (h : Heap Scalar) (args : List (Option (Value Scalar))) :
    Except HelperError (Heap Scalar × Value Scalar) :=
  match args with
  | some (.table base) :: overlays =>
    if plainTable h base then do
      let done ← mergeArguments L .overlayNotPlain h base overlays
      pure (done, .table base)
    else .error .baseNotPlain
  | _ => .error .badArgument

end Shapes

variable {h : Heap Scalar}

theorem plainTable_of_holds {id : Nat} {entries : Entries Scalar} {ids : List Nat}
    (ht : Holds h (.table id) (.node entries) ids) (hu : kindMark.Unmarked entries) : plainTable h id = true := by
  have hkind : qstarTableKind h id = none := by
    rw [qstarTableKind, ht.gettable]
    rcases ht.rawget (Holds.atom kindMark.key) (fun _ _ hin => by cases hin) with
      ⟨hraw, -⟩ | ⟨value, t, valueIds, hraw, hfind, hvalue, -⟩
    · rw [hraw]
    · rw [hraw]
      cases hvalue with
      | table => rfl
      | atom a =>
        have hsort : luaIsstring a = false := hu a hfind
        simp only [hsort, Bool.false_eq_true, if_false]
  rw [plainTable, hkind]
  rfl

/-- A copy is a nested table of new tables that reads as the value. -/
theorem pushValueCopy_spec (room : Nat) {h : Heap Scalar} {v : Value Scalar} {t : Nested Scalar} {ids : List Nat}
    (hv : Holds h v t ids) (hdepth : t.depth < room) :
    ∃ h' v' ids', pushValueCopy h v room = .ok (h', v') ∧ Updated h h' [] ids' ∧ Holds h' v' t ids' := by
  induction room generalizing h v t ids with
  | zero => omega
  | succ room ih =>
    cases hv with
    | atom a => exact ⟨h, .atom a, [], rfl, updated_refl h, .atom a⟩
    | @table src es ts ids hself hkeys hentries =>
      -- each round adds the copies of one entry behind those of the entries before
      have hloop : ∀ {es : List (Value Scalar × Value Scalar)} {ts : Entries Scalar} {ids : List Nat},
          Entrywise (Holds h) es ts ids → (∀ e ∈ ts, e.1.depth < room ∧ e.2.depth < room) →
          ∀ {before : Entries Scalar} {h₀ : Heap Scalar} {work : List Nat}, Distinct (before ++ ts) →
          Updated h h₀ [] work → Holds h₀ (.table h.length) (.node before) work →
          ∃ h' work', (es.foldlM (fun h' e => do
              let (h₁, key) ← pushValueCopy h' e.1 room
              let (h₂, value) ← pushValueCopy h₁ e.2 room
              pure (h₂.rawset h.length key (some value))) h₀ : Except HelperError (Heap Scalar)) = .ok h' ∧
            Updated h h' [] work' ∧ Holds h' (.table h.length) (.node (before ++ ts)) work' := by
        intro es ts ids hz
        induction hz with
        | nil =>
          intro _ before h₀ work _ hu hdst
          rw [List.append_nil]
          exact ⟨h₀, work, rfl, hu, hdst⟩
        | @cons key value tkey tvalue keyIds valueIds ids es ts hkey hvalue hrest ihrest =>
          intro hdepths before h₀ work hdistinct hu hdst
          obtain ⟨⟨hdkey, hdvalue⟩, hdrest⟩ := List.forall_mem_cons.mp hdepths
          obtain ⟨h₁, key', keyIds', hcopyKey, hu₁, hkey'⟩ :=
            ih (hkey.updated hu fun _ _ hin => by cases hin) hdkey
          have hvalue₁ : Holds h₁ value tvalue valueIds :=
            (hvalue.updated hu fun _ _ hin => by cases hin).updated hu₁ fun _ _ hin => by cases hin
          obtain ⟨h₂, value', valueIds', hcopyValue, hu₂, hvalue'⟩ := ih hvalue₁ hdvalue
          obtain ⟨work', hu₃, hdst'⟩ := hdst.set hu.nodup hu₁ hkey' hu₂ hvalue'
          have hnew : find tkey before = none := by
            rw [find_eq_none]
            exact fun e he => (List.pairwise_append.mp hdistinct).2.2 e he _ List.mem_cons_self
          rw [put_of_find_none hnew] at hdst'
          have hassoc : before ++ (tkey, tvalue) :: ts = (before ++ [(tkey, tvalue)]) ++ ts := by simp
          rw [hassoc] at hdistinct ⊢
          obtain ⟨h', work'', hrun, hu', hdst''⟩ := ihrest hdrest hdistinct (hu.trans hu₃) hdst'
          refine ⟨h', work'', ?_, hu', hdst''⟩
          rw [List.foldlM_cons, hcopyKey]
          change ((pushValueCopy h₁ value room >>= _) >>= _) = _
          rw [hcopyValue]
          exact hrun
      have hes : h.entries src = es := by
        rw [Heap.entries, hself]
        rfl
      have hdepths : ∀ e ∈ ts, e.1.depth < room ∧ e.2.depth < room := by
        intro e he
        have := depth_lt_of_mem he
        omega
      have hdistinct : Distinct ([] ++ ts) := hentries.distinct hkeys
      obtain ⟨h', work', hrun, hu, hdst⟩ :=
        hloop hentries hdepths hdistinct (updated_alloc h) (holds_alloc h)
      refine ⟨h', .table h.length, work', ?_, hu, hdst⟩
      rw [pushValueCopy, hes, hrun]
      rfl

/-- Copies of a key and a value are set in a table. -/
theorem setCopies_spec {room dst : Nat} {entries : Entries Scalar} {ids keyIds valueIds : List Nat}
    {key value : Value Scalar} {tkey tvalue : Nested Scalar} (ht : Holds h (.table dst) (.node entries) ids)
    (hnodup : ids.Nodup) (hkey : Holds h key tkey keyIds) (hdkey : tkey.depth < room)
    (hvalue : Holds h value tvalue valueIds) (hdvalue : tvalue.depth < room) :
    ∃ h' ids', setCopies h dst key value room = .ok h' ∧ Updated h h' ids ids' ∧
      Holds h' (.table dst) (.node (put tkey tvalue entries)) ids' := by
  obtain ⟨h₁, key', keyIds', hcopyKey, hu₁, hkey'⟩ := pushValueCopy_spec room hkey hdkey
  obtain ⟨h₂, value', valueIds', hcopyValue, hu₂, hvalue'⟩ :=
    pushValueCopy_spec room (hvalue.updated hu₁ fun _ _ hin => by cases hin) hdvalue
  obtain ⟨ids', hu, hdst⟩ := ht.set hnodup hu₁ hkey' hu₂ hvalue'
  refine ⟨_, ids', ?_, hu, hdst⟩
  have hplain : h₂.behind dst = none := by
    have hlt := ht.lt
    cases ht with
    | @table _ es _ rest hself hkeys hentries =>
      have hdst := hlt dst List.mem_cons_self
      have hgrown := hu₁.grown
      rw [Heap.behind, hu₂.frame dst (by omega) List.not_mem_nil, hu₁.frame dst hdst List.not_mem_nil, hself]
      rfl
  rw [setCopies, hcopyKey]
  change (pushValueCopy h₁ value room >>= _) = _
  rw [hcopyValue]
  change settable h₂ dst key' value' = _
  rw [settable, hplain, Option.isSome_none, Bool.and_false, if_neg Bool.false_ne_true]

/-- A copy of a value is put at a number. -/
theorem appendValueCopy_spec (room next : Nat) {dst : Nat} {entries : Entries Scalar} {ids valueIds : List Nat}
    {value : Value Scalar} {tvalue : Nested Scalar} (ht : Holds h (.table dst) (.node entries) ids)
    (hnodup : ids.Nodup) (hvalue : Holds h value tvalue valueIds) (hdvalue : tvalue.depth + 1 < room) :
    ∃ h' ids', appendValueCopy h dst (some value) next room = .ok (h', next + 1) ∧ Updated h h' ids ids' ∧
      Holds h' (.table dst) (.node (put (.leaf (numbers.index next)) tvalue entries)) ids' := by
  obtain ⟨h₁, value', valueIds', hcopy, hu₁, hvalue'⟩ := pushValueCopy_spec (room - 1) hvalue (by omega)
  obtain ⟨ids', hu, hdst⟩ := ht.set hnodup (updated_refl h) (.atom (numbers.index next)) hu₁ hvalue'
  refine ⟨_, ids', ?_, hu, hdst⟩
  rw [appendValueCopy, hcopy]
  rfl

/-- What a nested table takes stays apart from what another takes through the work on that. -/
theorem apart_updated {h' : Heap Scalar} {v : Value Scalar} {t : Nested Scalar} {ids work work' : List Nat}
    (hv : Holds h v t ids) (hu : Updated h h' work work') (hapart : ∀ id ∈ ids, id ∉ work) :
    ∀ id ∈ ids, id ∉ work' := by
  intro id hid hin
  have hlt := hv.lt id hid
  rcases hu.owned id hin with hold | hnew
  · exact hapart id hid hold
  · omega

/-- The values of a list are copied behind those of another. -/
theorem appendListCopy_spec (L : Lengths numbers) (room : Nat) {dst src : Nat} {entries others : Entries Scalar}
    {ids srcIds : List Nat} (ht : Holds h (.table dst) (.node entries) ids) (hnodup : ids.Nodup)
    (hlist : isList numbers entries = true) (hsrc : Holds h (.table src) (.node others) srcIds)
    (hlist' : isList numbers others = true) (hapart : ∀ id ∈ srcIds, id ∉ ids)
    (hdepth : (Nested.node others).depth + 1 < room) :
    ∃ h' ids', appendListCopy L h dst src (entries.length + 1) room
        = .ok (h', entries.length + others.length + 1) ∧ Updated h h' ids ids' ∧
      Holds h' (.table dst) (.node (appendItems numbers entries (items numbers others))) ids' := by
  obtain ⟨value, hitems, hvalue⟩ := items_eq hsrc.distinct hlist'
  have hloop : ∀ (is : List Nat), (∀ i ∈ is, i < others.length) →
      ∀ {h₀ : Heap Scalar} {before : Entries Scalar} {work : List Nat}, isList numbers before = true →
      work.Nodup → Holds h₀ (.table dst) (.node before) work → Holds h₀ (.table src) (.node others) srcIds →
      (∀ id ∈ srcIds, id ∉ work) →
      ∃ h' work', (is.foldlM (fun (s : Heap Scalar × Nat) i =>
          appendValueCopy s.1 dst (s.1.rawget src (.atom (numbers.index (i + 1)))) s.2 (room - 1))
          (h₀, before.length + 1) : Except HelperError (Heap Scalar × Nat))
            = .ok (h', before.length + is.length + 1) ∧ Updated h₀ h' work work' ∧
        Holds h' (.table dst) (.node (appendItems numbers before (is.map value))) work' := by
    intro is
    induction is with
    | nil =>
      intro _ h₀ before work _ hn hdst _ _
      exact ⟨h₀, work, rfl, ⟨Nat.le_refl _, fun _ _ _ => rfl, hn, fun _ hid => .inl hid⟩, hdst⟩
    | cons i rest ih =>
      intro hbound h₀ before work hl hn hdst hsrc₀ hapart₀
      obtain ⟨hi, hrest⟩ := List.forall_mem_cons.mp hbound
      have hfind := hvalue i hi
      rcases hsrc₀.rawget (Holds.atom (numbers.index (i + 1))) (fun _ _ hin => by cases hin) with
        ⟨-, hnone⟩ | ⟨v, t, valueIds, hraw, hsome, hv, -⟩
      · rw [hfind] at hnone
        cases hnone
      · rw [hfind] at hsome
        cases hsome
        obtain ⟨e, he, -, hval⟩ := mem_of_find hfind
        have hdv : (value i).depth < (Nested.node others).depth := by
          rw [← hval]
          exact (depth_lt_of_mem he).2
        obtain ⟨h₁, work₁, hone, hu₁, hdst₁⟩ :=
          appendValueCopy_spec (room - 1) (before.length + 1) hdst hn hv (by omega)
        rw [put_of_find_none (not_present_of_isList hl (by omega))] at hdst₁
        obtain ⟨h', work', hrun, hu', hdst'⟩ := ih hrest (isList_snoc hl (value i)) hu₁.nodup hdst₁
          (hsrc₀.updated hu₁ hapart₀) (apart_updated hsrc₀ hu₁ hapart₀)
        refine ⟨h', work', ?_, hu₁.trans hu', hdst'⟩
        rw [List.foldlM_cons, hraw, hone]
        rw [List.length_append, List.length_singleton] at hrun
        rw [List.length_cons]
        have hcount : before.length + (rest.length + 1) + 1 = before.length + 1 + rest.length + 1 := by omega
        rw [hcount]
        exact hrun
  obtain ⟨h', ids', hrun, hu, hdst⟩ := hloop (List.range others.length) (fun i hi => List.mem_range.mp hi)
    hlist hnodup ht hsrc hapart
  refine ⟨h', ids', ?_, hu, ?_⟩
  · rw [appendListCopy, hsrc.len hlist' L, hrun, List.length_range]
  · rw [hitems]
    exact hdst

/-- A plain table counts as a list exactly where it is one. -/
theorem arrayTable_eq (L : Lengths numbers) {id : Nat} {entries : Entries Scalar} {ids : List Nat}
    (ht : Holds h (.table id) (.node entries) ids) (hp : Plain kindMark entries) :
    arrayTable L h id = isList numbers entries := by
  rw [arrayTable, plainTable_of_holds ht hp.unmarked, Bool.true_and, ht.all_keyWithin hp.gapless L]

/-- A merge into a table does what the merge of nested tables says. -/
def Merges (into : Heap Scalar → Nat → Nat → Except HelperError (Heap Scalar)) (room : Nat) : Prop :=
  ∀ {h : Heap Scalar} {dst src : Nat} {entries others : Entries Scalar} {ids srcIds : List Nat},
    Holds h (.table dst) (.node entries) ids → ids.Nodup → (Nested.node entries).Throughout (Plain kindMark) →
    Holds h (.table src) (.node others) srcIds → (Nested.node others).Throughout (Plain kindMark) →
    (∀ id ∈ srcIds, id ∉ ids) → (Nested.node others).depth + 1 < room →
    ∃ h' ids', into h dst src = .ok h' ∧ Updated h h' ids ids' ∧
      Holds h' (.table dst) (.node (mergeEntries numbers entries others)) ids'

theorem mergeEntry_spec (L : Lengths numbers) {into : Heap Scalar → Nat → Nat → Except HelperError (Heap Scalar)}
    {room dst : Nat} (hinto : Merges into room) {entries : Entries Scalar} {ids keyIds valueIds : List Nat}
    {key value : Value Scalar} {tkey tvalue : Nested Scalar} (ht : Holds h (.table dst) (.node entries) ids)
    (hnodup : ids.Nodup) (hplain : ∀ e ∈ entries, e.2.Throughout (Plain kindMark))
    (hkey : Holds h key tkey keyIds) (hvalue : Holds h value tvalue valueIds)
    (hplain' : tvalue.Throughout (Plain kindMark)) (hkeyApart : ∀ id ∈ keyIds, id ∉ ids)
    (hvalueApart : ∀ id ∈ valueIds, id ∉ ids) (hdkey : tkey.depth < room) (hdvalue : tvalue.depth + 1 < room) :
    ∃ h' ids', mergeEntry L into room dst h (key, value) = .ok h' ∧ Updated h h' ids ids' ∧
      Holds h' (.table dst) (.node (put tkey (merged numbers (find tkey entries) tvalue) entries)) ids' := by
  have hset := setCopies_spec ht hnodup hkey hdkey hvalue (by omega : tvalue.depth < room)
  cases hvalue with
  | atom a =>
    rw [merged_leaf]
    exact hset
  | @table value es others valueIds hself hkeys hentries =>
    have hvalue : Holds h (.table value) (.node others) (value :: valueIds) := .table hself hkeys hentries
    have hother : plainTable h value = true := plainTable_of_holds hvalue (throughout_node.mp hplain').1.unmarked
    simp only [mergeEntry, hother, if_true, ht.gettable]
    have hkeyApart' : ∀ id ∈ ids, id ∉ keyIds := fun id hid hin => hkeyApart id hin hid
    rcases ht.rawget hkey hkeyApart' with ⟨hraw, hfind⟩ | ⟨existing, t, existingIds, hraw, hfind, -⟩
    · rw [hraw, hfind]
      exact hset
    · obtain ⟨t', existingIds, hfind', hexisting, hn, hsub, hwork⟩ := ht.work hnodup hkey hkeyApart' hraw
      rw [hfind] at hfind'
      cases hfind'
      rw [hraw, hfind]
      cases hexisting with
      | atom a =>
        rw [merged, Nested.merge]
        exact hset
      | @table existing es' ts existingIds hself' hkeys' hentries' =>
        have hexisting : Holds h (.table existing) (.node ts) (existing :: existingIds) :=
          .table hself' hkeys' hentries'
        obtain ⟨e, he, -, hval⟩ := mem_of_find hfind
        have hplainOld : (Nested.node ts).Throughout (Plain kindMark) := by
          rw [← hval]
          exact hplain e he
        have hold : plainTable h existing = true :=
          plainTable_of_holds hexisting (throughout_node.mp hplainOld).1.unmarked
        have hapart : ∀ id ∈ value :: valueIds, id ∉ existing :: existingIds :=
          fun id hid hin => hvalueApart id hid (hsub id hin)
        simp only [hold, if_true, arrayTable_eq L hexisting (throughout_node.mp hplainOld).1,
          arrayTable_eq L hvalue (throughout_node.mp hplain').1]
        rw [merged, merge_nodes, mergeTables]
        by_cases hlists : (isList numbers ts && isList numbers others) = true
        · rw [if_pos hlists, if_pos hlists]
          rw [Bool.and_eq_true] at hlists
          obtain ⟨h', ids', hrun, hu, hdst⟩ :=
            appendListCopy_spec L room hexisting hn hlists.1 hvalue hlists.2 hapart hdvalue
          obtain ⟨ids'', hu', hdst'⟩ := hwork h' _ ids' hu hdst
          refine ⟨h', ids'', ?_, hu', hdst'⟩
          rw [hexisting.len hlists.1 L, hrun]
          rfl
        · rw [if_neg hlists, if_neg hlists]
          obtain ⟨h', ids', hrun, hu, hdst⟩ := hinto hexisting hn hplainOld hvalue hplain' hapart hdvalue
          obtain ⟨ids'', hu', hdst'⟩ := hwork h' _ ids' hu hdst
          exact ⟨h', ids'', hrun, hu', hdst'⟩

theorem mergeInto_spec (L : Lengths numbers) (room : Nat) :
    Merges (fun h dst src => mergeInto L h dst src room) room := by
  induction room with
  | zero =>
    intro h dst src entries others ids srcIds _ _ _ _ _ _ hdepth
    omega
  | succ room ih =>
    intro h dst src entries others ids srcIds ht hnodup hp hsrc hp' hapart hdepth
    -- the entries that are left are merged into what those before made of the table
    have hloop : ∀ {es : List (Value Scalar × Value Scalar)} {ts : Entries Scalar} {left : List Nat},
        Entrywise (Holds h) es ts left → (∀ id ∈ left, id ∉ ids) →
        (∀ e ∈ ts, e.1.depth < room ∧ e.2.depth + 1 < room ∧ e.2.Throughout (Plain kindMark)) →
        ∀ {before : Entries Scalar} {h₀ : Heap Scalar} {work : List Nat}, Updated h h₀ ids work →
        Holds h₀ (.table dst) (.node before) work → (∀ e ∈ before, e.2.Throughout (Plain kindMark)) →
        ∃ h' work', es.foldlM (mergeEntry L (fun h' d s => mergeInto L h' d s room) room dst) h₀ = .ok h' ∧
          Updated h h' ids work' ∧ Holds h' (.table dst) (.node (mergeEntries numbers before ts)) work' := by
      intro es ts left hz
      induction hz with
      | nil =>
        intro _ _ before h₀ work hu hdst _
        exact ⟨h₀, work, rfl, hu, by rw [mergeEntries]; exact hdst⟩
      | @cons key value tkey tvalue keyIds valueIds left es ts hkey hvalue hrest ihrest =>
        intro hleft hts before h₀ work hu hdst hbefore
        obtain ⟨⟨hdkey, hdvalue, hplain⟩, hts'⟩ := List.forall_mem_cons.mp hts
        have hkeyApart : ∀ id ∈ keyIds, id ∉ ids := fun id hid => hleft id (List.mem_append_left _ hid)
        have hvalueApart : ∀ id ∈ valueIds, id ∉ ids :=
          fun id hid => hleft id (List.mem_append_right _ (List.mem_append_left _ hid))
        have hleft' : ∀ id ∈ left, id ∉ ids :=
          fun id hid => hleft id (List.mem_append_right _ (List.mem_append_right _ hid))
        obtain ⟨h₁, work₁, hone, hu₁, hdst₁⟩ := mergeEntry_spec L ih hdst hu.nodup hbefore
          (hkey.updated hu hkeyApart) (hvalue.updated hu hvalueApart) hplain
          (apart_updated hkey hu hkeyApart) (apart_updated hvalue hu hvalueApart) hdkey hdvalue
        have hplain₁ : ∀ e ∈ put tkey (merged numbers (find tkey before) tvalue) before,
            e.2.Throughout (Plain kindMark) := by
          intro e he
          rcases mem_put he with hold | hnew
          · exact hbefore e hold
          · rw [hnew]
            exact throughout_merged hbefore hplain tkey
        obtain ⟨h', work', hrun, hu', hdst'⟩ := ihrest hleft' hts' (hu.trans hu₁) hdst₁ hplain₁
        refine ⟨h', work', ?_, hu', ?_⟩
        · rw [List.foldlM_cons, hone]
          exact hrun
        · rw [mergeEntries_cons]
          exact hdst'
    obtain ⟨hpo, hvalues⟩ := throughout_node.mp hp'
    cases hsrc with
    | @table _ es _ srcIds hself hkeys hentries =>
      have hes : h.entries src = es := by
        rw [Heap.entries, hself]
        rfl
      have hts : ∀ e ∈ others, e.1.depth < room ∧ e.2.depth + 1 < room ∧ e.2.Throughout (Plain kindMark) := by
        intro e he
        have := depth_lt_of_mem he
        exact ⟨by omega, by omega, hvalues e he⟩
      obtain ⟨h', work', hrun, hu, hdst⟩ := hloop hentries (fun id hid => hapart id (List.mem_cons_of_mem src hid))
        hts ⟨Nat.le_refl _, fun _ _ _ => rfl, hnodup, fun _ hid => .inl hid⟩ ht (throughout_node.mp hp).2
      refine ⟨h', work', ?_, hu, hdst⟩
      simp only [mergeInto]
      rw [hes]
      exact hrun

/-- Where the table has no value at the key, a copy is set. -/
theorem mergeEntry_new (L : Lengths numbers) {into : Heap Scalar → Nat → Nat → Except HelperError (Heap Scalar)}
    {room dst : Nat} {e : Value Scalar × Value Scalar} (hnone : h.gettable dst e.1 = none) :
    mergeEntry L into room dst h e = setCopies h dst e.1 e.2 room := by
  rw [mergeEntry]
  cases hvalue : e.2 with
  | atom a => rfl
  | table id =>
    simp only [hnone]
    split <;> rfl

/-- Entries under new keys are copied behind those of the table. -/
theorem mergeInto_new (L : Lengths numbers) (room : Nat) {dst src : Nat} {entries others : Entries Scalar}
    {ids srcIds : List Nat} (ht : Holds h (.table dst) (.node entries) ids) (hnodup : ids.Nodup)
    (hsrc : Holds h (.table src) (.node others) srcIds) (hapart : ∀ id ∈ srcIds, id ∉ ids)
    (hdistinct : Distinct (entries ++ others)) (hdepth : (Nested.node others).depth < room) :
    ∃ h' ids', mergeInto L h dst src room = .ok h' ∧ Updated h h' ids ids' ∧
      Holds h' (.table dst) (.node (entries ++ others)) ids' := by
  cases room with
  | zero => omega
  | succ room =>
    have hloop : ∀ {es : List (Value Scalar × Value Scalar)} {ts : Entries Scalar} {left : List Nat},
        Entrywise (Holds h) es ts left → (∀ id ∈ left, id ∉ ids) → (∀ e ∈ ts, e.1.depth < room ∧ e.2.depth < room) →
        ∀ {before : Entries Scalar} {h₀ : Heap Scalar} {work : List Nat}, Distinct (before ++ ts) →
        Updated h h₀ ids work → Holds h₀ (.table dst) (.node before) work →
        ∃ h' work', es.foldlM (mergeEntry L (fun h' d s => mergeInto L h' d s room) room dst) h₀ = .ok h' ∧
          Updated h h' ids work' ∧ Holds h' (.table dst) (.node (before ++ ts)) work' := by
      intro es ts left hz
      induction hz with
      | nil =>
        intro _ _ before h₀ work _ hu hdst
        rw [List.append_nil]
        exact ⟨h₀, work, rfl, hu, hdst⟩
      | @cons key value tkey tvalue keyIds valueIds left es ts hkey hvalue hrest ihrest =>
        intro hleft hts before h₀ work hdistinct hu hdst
        obtain ⟨⟨hdkey, hdvalue⟩, hts'⟩ := List.forall_mem_cons.mp hts
        have hkeyApart : ∀ id ∈ keyIds, id ∉ ids := fun id hid => hleft id (List.mem_append_left _ hid)
        have hvalueApart : ∀ id ∈ valueIds, id ∉ ids :=
          fun id hid => hleft id (List.mem_append_right _ (List.mem_append_left _ hid))
        have hleft' : ∀ id ∈ left, id ∉ ids :=
          fun id hid => hleft id (List.mem_append_right _ (List.mem_append_right _ hid))
        have hkey₀ := hkey.updated hu hkeyApart
        have hnew : find tkey before = none := by
          rw [find_eq_none]
          exact fun e he => (List.pairwise_append.mp hdistinct).2.2 e he _ List.mem_cons_self
        have hnone : h₀.gettable dst key = none := by
          rw [hdst.gettable]
          rcases hdst.rawget hkey₀ (fun id hid hin => apart_updated hkey hu hkeyApart id hin hid) with
            ⟨hraw, -⟩ | ⟨_, t, _, -, hfind, -⟩
          · exact hraw
          · rw [hnew] at hfind
            cases hfind
        obtain ⟨h₁, work₁, hone, hu₁, hdst₁⟩ :=
          setCopies_spec hdst hu.nodup hkey₀ hdkey (hvalue.updated hu hvalueApart) hdvalue
        rw [put_of_find_none hnew] at hdst₁
        have hassoc : before ++ (tkey, tvalue) :: ts = (before ++ [(tkey, tvalue)]) ++ ts := by simp
        rw [hassoc] at hdistinct ⊢
        obtain ⟨h', work', hrun, hu', hdst'⟩ := ihrest hleft' hts' hdistinct (hu.trans hu₁) hdst₁
        refine ⟨h', work', ?_, hu', hdst'⟩
        rw [List.foldlM_cons, mergeEntry_new L hnone, hone]
        exact hrun
    cases hsrc with
    | @table _ es _ srcIds hself hkeys hentries =>
      have hes : h.entries src = es := by
        rw [Heap.entries, hself]
        rfl
      have hts : ∀ e ∈ others, e.1.depth < room ∧ e.2.depth < room := by
        intro e he
        have := depth_lt_of_mem he
        omega
      obtain ⟨h', work', hrun, hu, hdst⟩ := hloop hentries (fun id hid => hapart id (List.mem_cons_of_mem src hid))
        hts hdistinct ⟨Nat.le_refl _, fun _ _ _ => rfl, hnodup, fun _ hid => .inl hid⟩ ht
      refine ⟨h', work', ?_, hu, hdst⟩
      simp only [mergeInto]
      rw [hes]
      exact hrun

/-- The argument is a nested table, plain throughout and nested less deep than the limit, that
takes none of the tables listed. -/
def Argument (h : Heap Scalar) (taken : List Nat) (arg : Option (Value Scalar)) (entries : Entries Scalar) : Prop :=
  ∃ id ids, arg = some (.table id) ∧ Holds h (.table id) (.node entries) ids ∧ (∀ i ∈ ids, i ∉ taken) ∧
    (Nested.node entries).Throughout (Plain kindMark) ∧ (Nested.node entries).depth < 64

theorem Argument.updated {h' : Heap Scalar} {taken taken' : List Nat} {arg : Option (Value Scalar)}
    {entries : Entries Scalar} (ha : Argument h taken arg entries) (hu : Updated h h' taken taken') :
    Argument h' taken' arg entries := by
  obtain ⟨id, ids, rfl, ht, hapart, hp, hdepth⟩ := ha
  exact ⟨id, ids, rfl, ht.updated hu hapart, apart_updated ht hu hapart, hp, hdepth⟩

theorem mergeArgument_spec (L : Lengths numbers) {dst src : Nat} {entries others : Entries Scalar}
    {ids srcIds : List Nat} (ht : Holds h (.table dst) (.node entries) ids) (hnodup : ids.Nodup)
    (hp : (Nested.node entries).Throughout (Plain kindMark)) (hsrc : Holds h (.table src) (.node others) srcIds)
    (hp' : (Nested.node others).Throughout (Plain kindMark)) (hapart : ∀ id ∈ srcIds, id ∉ ids)
    (hdepth : (Nested.node others).depth < 64) :
    ∃ h' ids', mergeArgument L h dst src = .ok h' ∧ Updated h h' ids ids' ∧
      Holds h' (.table dst) (.node (mergeTables numbers entries others)) ids' := by
  rw [mergeArgument, arrayTable_eq L ht (throughout_node.mp hp).1, arrayTable_eq L hsrc (throughout_node.mp hp').1,
    mergeTables]
  by_cases hlists : (isList numbers entries && isList numbers others) = true
  · rw [if_pos hlists, if_pos hlists]
    rw [Bool.and_eq_true] at hlists
    obtain ⟨h', ids', hrun, hu, hdst⟩ :=
      appendListCopy_spec L 65 ht hnodup hlists.1 hsrc hlists.2 hapart (by omega)
    refine ⟨h', ids', ?_, hu, hdst⟩
    rw [ht.len hlists.1 L, hrun]
    rfl
  · rw [if_neg hlists, if_neg hlists]
    exact mergeInto_spec L 65 ht hnodup hp hsrc hp' hapart (by omega)

/-- The arguments are merged one after another into a table. -/
theorem mergeArguments_spec (L : Lengths numbers) (refusal : HelperError) {args : List (Option (Value Scalar))}
    {tables : List (Entries Scalar)} {dst : Nat} {entries : Entries Scalar} {ids : List Nat}
    (ht : Holds h (.table dst) (.node entries) ids) (hnodup : ids.Nodup)
    (hp : (Nested.node entries).Throughout (Plain kindMark)) (hargs : List.Forall₂ (Argument h ids) args tables) :
    ∃ h' ids', mergeArguments L refusal h dst args = .ok h' ∧ Updated h h' ids ids' ∧
      Holds h' (.table dst) (.node (tables.foldl (mergeTables numbers) entries)) ids' := by
  induction args generalizing h tables entries ids with
  | nil =>
    cases hargs
    exact ⟨h, ids, rfl, ⟨Nat.le_refl _, fun _ _ _ => rfl, hnodup, fun _ hid => .inl hid⟩, ht⟩
  | cons arg rest ih =>
    cases hargs with
    | @cons _ others _ tables harg hrest =>
      obtain ⟨src, srcIds, rfl, hsrc, hapart, hp', hdepth⟩ := harg
      obtain ⟨h₁, ids₁, hone, hu₁, hdst₁⟩ := mergeArgument_spec L ht hnodup hp hsrc hp' hapart hdepth
      have hp₁ : (Nested.node (mergeTables numbers entries others)).Throughout (Plain kindMark) := by
        rw [← merge_nodes]
        exact throughout_merge hp hp'
      obtain ⟨h', ids', hrun, hu, hdst⟩ :=
        ih hdst₁ hu₁.nodup hp₁ (hrest.imp fun _ _ ha => ha.updated hu₁)
      refine ⟨h', ids', ?_, hu₁.trans hu, hdst⟩
      have hplain := plainTable_of_holds hsrc (throughout_node.mp hp').1.unmarked
      rw [mergeArguments, List.foldlM_cons]
      simp only [hplain, if_true, hone]
      exact hrun

/-- What an argument of `qstar.append` puts behind: the values of a list, or the table. -/
def appended (entries : Entries Scalar) : List (Nested Scalar) :=
  if isList numbers entries then items numbers entries else [.node entries]

theorem appendArgument_spec (L : Lengths numbers) {dst : Nat} {before entries : Entries Scalar} {ids : List Nat}
    {arg : Option (Value Scalar)} (ht : Holds h (.table dst) (.node before) ids) (hnodup : ids.Nodup)
    (hlist : isList numbers before = true) (harg : Argument h ids arg entries) :
    ∃ h' ids', appendArgument L dst (h, before.length + 1) arg
        = .ok (h', (appendItems numbers before (appended entries)).length + 1) ∧ Updated h h' ids ids' ∧
      Holds h' (.table dst) (.node (appendItems numbers before (appended entries))) ids' := by
  obtain ⟨src, srcIds, rfl, hsrc, hapart, hp, hdepth⟩ := harg
  simp only [appendArgument, arrayTable_eq L hsrc (throughout_node.mp hp).1]
  rw [appended, length_appendItems]
  by_cases hl : isList numbers entries = true
  · rw [if_pos hl, if_pos hl, length_items hsrc.distinct hl]
    exact appendListCopy_spec L 65 ht hnodup hlist hsrc hl hapart (by omega)
  · rw [if_neg hl, if_neg hl, List.length_singleton]
    obtain ⟨h', ids', hrun, hu, hdst⟩ :=
      appendValueCopy_spec 65 (before.length + 1) ht hnodup hsrc (by omega)
    rw [put_of_find_none (not_present_of_isList hlist (by omega))] at hdst
    exact ⟨h', ids', hrun, hu, hdst⟩

theorem appendArguments_spec (L : Lengths numbers) {dst : Nat} {args : List (Option (Value Scalar))}
    {tables : List (Entries Scalar)} {before : Entries Scalar} {ids : List Nat}
    (ht : Holds h (.table dst) (.node before) ids) (hnodup : ids.Nodup) (hlist : isList numbers before = true)
    (hargs : List.Forall₂ (Argument h ids) args tables) :
    ∃ s ids', args.foldlM (appendArgument L dst) (h, before.length + 1) = .ok s ∧ Updated h s.1 ids ids' ∧
      Holds s.1 (.table dst) (.node (appendItems numbers before (tables.flatMap appended))) ids' := by
  induction args generalizing h tables before ids with
  | nil =>
    cases hargs
    exact ⟨(h, before.length + 1), ids, rfl,
      ⟨Nat.le_refl _, fun _ _ _ => rfl, hnodup, fun _ hid => .inl hid⟩, ht⟩
  | cons arg rest ih =>
    cases hargs with
    | @cons _ entries _ tables harg hrest =>
      obtain ⟨h₁, ids₁, hone, hu₁, hdst₁⟩ := appendArgument_spec L ht hnodup hlist harg
      obtain ⟨s, ids', hrun, hu, hdst⟩ := ih hdst₁ hu₁.nodup (appendItems_isList hlist _)
        (hrest.imp fun _ _ ha => ha.updated hu₁)
      refine ⟨s, ids', ?_, hu₁.trans hu, ?_⟩
      · rw [List.foldlM_cons, hone]
        exact hrun
      · rw [List.flatMap_cons, appendItems_append]
        exact hdst

/-- The value is a nested table of new tables, and every nested table of before is still what it
was and shares no table with it. -/
def Made (h h' : Heap Scalar) (v : Value Scalar) (t : Nested Scalar) : Prop :=
  ∃ ids, Updated h h' [] ids ∧ Holds h' v t ids ∧
    ∀ {v' : Value Scalar} {t' : Nested Scalar} {ids' : List Nat}, Holds h v' t' ids' →
      Holds h' v' t' ids' ∧ ∀ id ∈ ids', id ∉ ids

theorem made_of_updated {h' : Heap Scalar} {v : Value Scalar} {t : Nested Scalar} {ids : List Nat}
    (hu : Updated h h' [] ids) (hv : Holds h' v t ids) : Made h h' v t := by
  refine ⟨ids, hu, hv, ?_⟩
  intro v' t' ids' hv'
  have hapart : ∀ id ∈ ids', id ∉ ([] : List Nat) := fun _ _ hin => by cases hin
  exact ⟨hv'.updated hu hapart, apart_updated hv' hu hapart⟩

theorem copy_spec {id : Nat} {t : Nested Scalar} {ids : List Nat} (ht : Holds h (.table id) t ids)
    (hdepth : t.depth < 65) : ∃ h' v, copy h (some (.table id)) = .ok (h', v) ∧ Made h h' v t := by
  obtain ⟨h', v, ids', hrun, hu, hv⟩ := pushValueCopy_spec 65 ht hdepth
  exact ⟨h', v, hrun, made_of_updated hu hv⟩

theorem argument_alloc {arg : Option (Value Scalar)} {entries : Entries Scalar} (ha : Argument h [] arg entries) :
    Argument h.alloc [h.length] arg entries := ha.updated (updated_alloc h)

theorem append_spec (L : Lengths numbers) {arg : Option (Value Scalar)} {args : List (Option (Value Scalar))}
    {entries : Entries Scalar} {tables : List (Entries Scalar)} (harg : Argument h [] arg entries)
    (hlist : isList numbers entries = true) (hargs : List.Forall₂ (Argument h []) args tables) :
    ∃ h' v, append L h (arg :: args) = .ok (h', v) ∧
      Made h h' v (.node (appendItems numbers [] ((entries :: tables).flatMap appended))) := by
  obtain ⟨first, ids, rfl, hfirst, -, hp, -⟩ := id harg
  have harray := arrayTable_eq L hfirst (throughout_node.mp hp).1
  obtain ⟨h₁, ids₁, hone, hu₁, hdst₁⟩ := appendArgument_spec L (holds_alloc h)
    (updated_alloc h).nodup rfl (argument_alloc harg)
  obtain ⟨s, ids', hrun, hu, hdst⟩ := appendArguments_spec L hdst₁ hu₁.nodup (appendItems_isList rfl _)
    (hargs.imp fun _ _ ha => (argument_alloc ha).updated hu₁)
  have hu' := ((updated_alloc h).trans hu₁).trans hu
  refine ⟨s.1, .table h.length, ?_, made_of_updated hu' ?_⟩
  · have harray' : arrayTable L h.alloc first = true := by
      rw [arrayTable_eq L (hfirst.updated (updated_alloc h) fun _ _ hin => by cases hin) (throughout_node.mp hp).1, hlist]
    simp only [appendArgument, harray', if_true] at hone
    simp only [append, harray, hlist, if_true]
    rw [List.length_nil, Nat.zero_add] at hone
    rw [hone]
    change ((args.foldlM (appendArgument L h.length) _) >>= _) = _
    rw [hrun]
    rfl
  · rw [List.flatMap_cons, appendItems_append]
    exact hdst

theorem throughout_nil : (Nested.node ([] : Entries Scalar)).Throughout (Plain kindMark) := by
  rw [throughout_node]
  refine ⟨⟨List.Pairwise.nil, ?_, ?_⟩, fun _ he => by cases he⟩
  · intro n _ hn
    cases hn
  · intro a ha
    cases ha

/-- The left fold of the merge over the tables. -/
def mergeAll : List (Entries Scalar) → Entries Scalar
  | [] => []
  | first :: rest => rest.foldl (mergeTables numbers) first

theorem Argument.distinct {taken : List Nat} {arg : Option (Value Scalar)} {entries : Entries Scalar}
    (ha : Argument h taken arg entries) : Distinct entries := by
  obtain ⟨_, _, -, ht, -⟩ := ha
  exact ht.distinct

theorem merge_spec (L : Lengths numbers) {args : List (Option (Value Scalar))} {tables : List (Entries Scalar)}
    (hargs : List.Forall₂ (Argument h []) args tables) :
    ∃ h' v entries, merge L h args = .ok (h', v) ∧ Made h h' v (.node entries) ∧ entries.Perm (mergeAll tables) := by
  obtain ⟨h', ids', hrun, hu, hdst⟩ := mergeArguments_spec L .mergeNotPlain (holds_alloc h)
    (updated_alloc h).nodup throughout_nil (hargs.imp fun _ _ ha => argument_alloc ha)
  refine ⟨h', .table h.length, _, ?_, made_of_updated ((updated_alloc h).trans hu) hdst, ?_⟩
  · rw [merge, hrun]
    rfl
  · cases hargs with
    | nil => exact List.Perm.refl _
    | cons harg _ => exact perm_foldl_mergeTables (mergeTables_nil harg.distinct) (Distinct.mergeTables List.Pairwise.nil _) _

theorem extend_spec (L : Lengths numbers) {base : Nat} {entries : Entries Scalar} {ids : List Nat}
    {overlays : List (Option (Value Scalar))} {tables : List (Entries Scalar)}
    (hbase : Holds h (.table base) (.node entries) ids) (hnodup : ids.Nodup)
    (hp : (Nested.node entries).Throughout (Plain kindMark)) (hargs : List.Forall₂ (Argument h ids) overlays tables) :
    ∃ h' ids', extend L h (some (.table base) :: overlays) = .ok (h', .table base) ∧ Updated h h' ids ids' ∧
      Holds h' (.table base) (.node (mergeAll (entries :: tables))) ids' ∧
      List.Forall₂ (Argument h' ids') overlays tables := by
  obtain ⟨h', ids', hrun, hu, hdst⟩ := mergeArguments_spec L .overlayNotPlain hbase hnodup hp hargs
  refine ⟨h', ids', ?_, hu, hdst, hargs.imp fun _ _ ha => ha.updated hu⟩
  have hplain := plainTable_of_holds hbase (throughout_node.mp hp).1.unmarked
  simp only [extend, hplain, if_true]
  rw [hrun]
  rfl

/-- `qstar.copy` gives an equal table, whatever it is given. On tables that are plain throughout
and have no gap among their numbers, for every border that the interpreter may answer,
`qstar.append` gives the concatenation and `qstar.merge` the left fold of the merge, all of new
tables; and where no table lies twice in the base, `qstar.extend` leaves in it what
`qstar.merge` gives, and leaves the overlays apart from it and as they were. -/
theorem table_helpers (L : Lengths numbers) (h : Heap Scalar) :
    (∀ (id : Nat) (t : Nested Scalar) (ids : List Nat), Holds h (.table id) t ids → t.depth < 65 →
      ∃ h' v, copy h (some (.table id)) = .ok (h', v) ∧ Made h h' v t) ∧
    (∀ (arg : Option (Value Scalar)) (args : List (Option (Value Scalar))) (entries : Entries Scalar)
      (tables : List (Entries Scalar)), Argument h [] arg entries → isList numbers entries = true →
      List.Forall₂ (Argument h []) args tables →
      ∃ h' v, append L h (arg :: args) = .ok (h', v) ∧
        Made h h' v (.node (appendItems numbers [] ((entries :: tables).flatMap appended)))) ∧
    (∀ (args : List (Option (Value Scalar))) (tables : List (Entries Scalar)),
      List.Forall₂ (Argument h []) args tables →
      ∃ h' v entries, merge L h args = .ok (h', v) ∧ Made h h' v (.node entries) ∧
        entries.Perm (mergeAll tables)) ∧
    ∀ (base : Nat) (entries : Entries Scalar) (ids : List Nat) (overlays : List (Option (Value Scalar)))
      (tables : List (Entries Scalar)), Holds h (.table base) (.node entries) ids → ids.Nodup →
      (Nested.node entries).Throughout (Plain kindMark) → List.Forall₂ (Argument h ids) overlays tables →
      ∃ h' ids', extend L h (some (.table base) :: overlays) = .ok (h', .table base) ∧ Updated h h' ids ids' ∧
        Holds h' (.table base) (.node (mergeAll (entries :: tables))) ids' ∧
        List.Forall₂ (Argument h' ids') overlays tables := by
  refine ⟨?_, ?_, ?_, ?_⟩
  · intro id t ids ht hdepth
    exact copy_spec ht hdepth
  · intro arg args entries tables harg hlist hargs
    exact append_spec L harg hlist hargs
  · intro args tables hargs
    exact merge_spec L hargs
  · intro base entries ids overlays tables hbase hnodup hp hargs
    exact extend_spec L hbase hnodup hp hargs

def int (i : Int) : Value Scalar := .atom (.integer i)
def name (s : String) : Value Scalar := .atom (.string (ascii s))

/-- Two lists of one number each. -/
def pairHeap : Heap Scalar := [⟨[(int 1, int 7)], none⟩, ⟨[(int 1, int 8)], none⟩]

/-- The list of one number. -/
def single (i : Int) : Entries Scalar := [(.leaf (.integer 1), .leaf (.integer i))]

theorem holds_pairHeap {id : Nat} {i : Int} (hget : pairHeap[id]? = some ⟨[(int 1, int i)], none⟩) :
    Holds pairHeap (.table id) (.node (single i)) [id] :=
  .table hget (List.nodup_singleton _) (.cons (Holds.atom _) (Holds.atom _) .nil)

theorem throughout_single (i : Int) : (Nested.node (single i)).Throughout (Plain kindMark) := by
  have hl : isList numbers (single i) = true := rfl
  have hd : Distinct (single i) := List.pairwise_singleton _ _
  rw [throughout_node]
  refine ⟨⟨hd, gapless_of_isList hd hl, unmarked_of_isList hl⟩, ?_⟩
  intro e he
  rw [List.mem_singleton.mp he]
  trivial

theorem argument_pairHeap {taken : List Nat} {id : Nat} {i : Int}
    (hget : pairHeap[id]? = some ⟨[(int 1, int i)], none⟩) (hfree : id ∉ taken) :
    Argument pairHeap taken (some (.table id)) (single i) := by
  refine ⟨id, [id], rfl, holds_pairHeap hget, ?_, throughout_single i, ?_⟩
  · intro j hj
    rw [List.mem_singleton.mp hj]
    exact hfree
  · change max (max 0 0 + 1) 0 < 64
    omega

theorem table_helpers_pair :
    (∃ h' v, copy pairHeap (some (.table 0)) = .ok (h', v) ∧ Made pairHeap h' v (.node (single 7))) ∧
    (∃ h' v, append (leastLengths numbers) pairHeap [some (.table 0), some (.table 1)] = .ok (h', v) ∧
      Made pairHeap h' v (.node (appendItems numbers [] ([single 7, single 8].flatMap appended)))) ∧
    (∃ h' v entries, merge (leastLengths numbers) pairHeap [some (.table 0), some (.table 1)] = .ok (h', v) ∧
      Made pairHeap h' v (.node entries) ∧ entries.Perm (mergeAll [single 7, single 8])) ∧
    ∃ h' ids', extend (leastLengths numbers) pairHeap [some (.table 0), some (.table 1)] = .ok (h', .table 0) ∧
      Updated pairHeap h' [0] ids' ∧ Holds h' (.table 0) (.node (mergeAll [single 7, single 8])) ids' ∧
      List.Forall₂ (Argument h' ids') [some (.table 1)] [single 8] := by
  obtain ⟨hcopy, happend, hmerge, hextend⟩ := table_helpers (leastLengths numbers) pairHeap
  have hfirst : Argument pairHeap [] (some (.table 0)) (single 7) := argument_pairHeap rfl List.not_mem_nil
  have hsecond : Argument pairHeap [] (some (.table 1)) (single 8) := argument_pairHeap rfl List.not_mem_nil
  refine ⟨?_, ?_, ?_, ?_⟩
  · exact hcopy 0 _ [0] (holds_pairHeap rfl) (by decide)
  · exact happend _ _ _ _ hfirst rfl (.cons hsecond .nil)
  · exact hmerge _ _ (.cons hfirst (.cons hsecond .nil))
  · exact hextend 0 (single 7) [0] _ [single 8] (holds_pairHeap rfl) (List.nodup_singleton 0)
      (throughout_single 7) (.cons (argument_pairHeap rfl (by decide)) .nil)

/-- The table `{1, nil, 3}` answers 3 for its length, and every other table its least border. -/
def gapLengths : Lengths numbers where
  len h id :=
    if id = 0 ∧ (h.rawget 0 (.atom (numbers.index 3))).isSome ∧ h.rawget 0 (.atom (numbers.index 4)) = none then 3
    else (leastLengths numbers).len h id
  border := by
    intro h id
    split
    · rename_i hgap
      obtain ⟨rfl, hthree, hfour⟩ := hgap
      exact ⟨.inr hthree, hfour⟩
    · exact (leastLengths numbers).border h id

/-- A base with a gap and an overlay that is a list. -/
def gapHeap : Heap Scalar :=
  [⟨[(int 1, int 1), (int 3, int 3)], none⟩, ⟨[(int 1, int 4), (int 2, int 5)], none⟩]

/-- A base that holds one table twice and an overlay for one of the two keys. -/
def sharedHeap : Heap Scalar :=
  [⟨[(name "a", .table 1), (name "b", .table 1)], none⟩, ⟨[], none⟩, ⟨[(name "a", .table 3)], none⟩,
    ⟨[(name "k", int 1)], none⟩]

/-- A base with a gap counts as a list where its copy does not, and a table that lies twice in
the base is written to in both places. -/
theorem extend_unlike_merge :
    (extend gapLengths gapHeap [some (.table 0), some (.table 1)]).toOption.map (fun r => r.1.entries 0)
        = some [(int 1, int 1), (int 3, int 3), (int 4, int 4), (int 5, int 5)] ∧
      (merge gapLengths gapHeap [some (.table 0), some (.table 1)]).toOption.map (fun r => r.1.entries 2)
        = some [(int 1, int 4), (int 3, int 3), (int 2, int 5)] ∧
      (extend (leastLengths numbers) sharedHeap [some (.table 0), some (.table 2)]).toOption.map
          (fun r => [r.1.entries 0, r.1.entries 1])
        = some [[(name "a", .table 1), (name "b", .table 1)], [(name "k", int 1)]] ∧
      (merge (leastLengths numbers) sharedHeap [some (.table 0), some (.table 2)]).toOption.map
          (fun r => [r.1.entries 4, r.1.entries 5, r.1.entries 6])
        = some [[(name "a", .table 5), (name "b", .table 6)], [(name "k", int 1)], []] := by
  decide +kernel

end QStar.Authoring.TableHelpers
