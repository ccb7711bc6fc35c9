import QStar.Authoring.Evaluation
import QStar.Authoring.VariantValues

/-!
# Readers of tables and read-only tables

The functions that take a table read its own entries, and a read-only table has
none. What a reader makes of the read-only table through which a variant shows a
value is therefore what it makes of an empty table, unless it looks a field up.
-/
namespace QStar.Authoring.ReadOnlyTables

open QStar.Lib
open QStar.Lib.CStrings
open QStar.Lib.NestedTables
open QStar.Lib.Questions
open QStar.Lib.Results
open QStar.Lib.TableHeaps
open QStar.Base
open QStar.BuildGraph
open QStar.Authoring.TableHelpers
open QStar.Authoring.VariantValues

/-- The types that the items of a list field may have. -/
structure ItemTypes where
  string : Bool
  boolean : Bool
  integer : Bool
  table : Bool

/-- `qstar_lua_value_schema_type` against the types -/
def ItemTypes.accepts (types : ItemTypes) : Value Scalar → Bool
  | .atom (.string _) => types.string
  | .atom (.boolean _) => types.boolean
  | .atom (.integer _) => types.integer
  | .atom (.float _) | .atom (.other _) => false
  | .table _ => types.table

/-- Why a reader refuses a table. -/
inductive ReadError where
  /-- "field '%s' must be a list with contiguous integer indexes starting at 1" or an item's type -/
  | schema
  /-- "field '%s' must be a list" -/
  | notList
  /-- "field '%s' contains non-string item" -/
  | nonString
  /-- "invalid label '%s'" -/
  | label (s : Bytes)
  /-- "%s path '%s' must be package-relative (%s)", or no file for it -/
  | path
  /-- "field '%s' contains malformed qstar.source token" -/
  | token
  /-- "out of memory", also where an output path has no path -/
  | memory
  /-- what a provider says of a source -/
  | provider (message : Bytes)
  deriving DecidableEq

section Readers

variable (L : Lengths numbers)

/-- `qstar_lua_validate_schema_list` -/
def validateSchemaList (types : ItemTypes) (h : Heap Scalar) (id : Nat) : Bool :=
  ((h.entries id).all fun e => keyWithin numbers (L.len h id) e.1) &&
    (h.entries id).length = L.len h id &&
    (List.range (L.len h id)).all fun i =>
      match h.rawget id (.atom (numbers.index (i + 1))) with
      | some v => types.accepts v
      | none => false

/-- The loop over `lua_rawlen` and `lua_rawgeti` that the readers share. -/
def readItems {β : Type} (item : Option (Value Scalar) → Except ReadError β) (h : Heap Scalar) (id : Nat) :
    Except ReadError (List β) :=
  (List.range (L.len h id)).mapM fun i => item (h.rawget id (.atom (numbers.index (i + 1))))

/-- `lua_getfield` and `lua_tostring` of what `lua_isstring` takes -/
def stringField (h : Heap Scalar) (id : Nat) (name : String) : Option Bytes :=
  match h.gettable id (.atom (.string (ascii name))) with
  | some (.atom a) => luaTostring a
  | _ => none

/-- A table among strings: an output path stands for its path. -/
def outputPathItem (h : Heap Scalar) (id : Nat) : Except ReadError Bytes :=
  if stringField h id "__qstar_kind" = some (ascii "output_path") then
    match stringField h id "path" with
    | some s => .ok s
    | none => .error .memory
  else .error .nonString

/-- An item of `push_table_strings` -/
def tableStringItem (canonicalize : Bool) (fragmentDir : Bytes) (h : Heap Scalar) :
    Option (Value Scalar) → Except ReadError Bytes
  | some (.atom a) =>
    match luaTostring a with
    | none => .error .nonString
    | some s =>
      if canonicalize then
        match labelCanonicalize s fragmentDir with
        | none => .error (.label s)
        | some label => .ok label
      else .ok s
  | some (.table id) => outputPathItem h id
  | none => .error .nonString

/-- An item of `push_table_path_strings` -/
def tablePathItem (fragmentDir : Bytes) (h : Heap Scalar) : Option (Value Scalar) → Except ReadError Bytes
  | some (.atom a) =>
    match luaTostring a with
    | none => .error .nonString
    | some s =>
      match resolveFragmentRelativePath s fragmentDir with
      | none => .error .path
      | some path => .ok path
  | some (.table id) => outputPathItem h id
  | none => .error .nonString

/-- What the graph's language providers say of sources. -/
structure Providers where
  /-- `find_raw_provider_source_unit` and the lowering of the unit -/
  raw : Bytes → Except ReadError (Option (Bytes × Bytes))
  /-- the checks of `read_source_unit_table` on a token and the lowering of its unit -/
  token : Bytes → Bytes → Bytes → Except ReadError Unit

/-- A source of a target and the provider unit that compiles it. -/
structure SourceItem where
  path : Bytes
  unit : Option (Bytes × Bytes)

/-- An item of `read_sources_field` -/
def sourceItem (providers : Providers) (fragmentDir : Bytes) (h : Heap Scalar) :
    Option (Value Scalar) → Except ReadError SourceItem
  | some (.atom a) =>
    match luaTostring a with
    | none => .error .nonString
    | some s =>
      match resolveFragmentRelativePath s fragmentDir with
      | none => .error .path
      | some path => (providers.raw path).map (⟨path, ·⟩)
  | some (.table id) =>
    if stringField h id "__qstar_kind" = some (ascii "source_unit") then
      match stringField h id "path", stringField h id "language", stringField h id "unit" with
      | some path, some language, some unit =>
        (providers.token path language unit).map fun _ => ⟨path, some (language, unit)⟩
      | _, _, _ => .error .token
    else (outputPathItem h id).map (⟨·, none⟩)
  | none => .error .nonString

/-- The readers of a list field. -/
inductive Reader where
  /-- `push_table_strings` -/
  | tableStrings (canonicalize : Bool) (fragmentDir : Bytes)
  /-- `push_table_path_strings` -/
  | tablePathStrings (fragmentDir : Bytes)
  /-- `read_sources_field` -/
  | sources (providers : Providers) (fragmentDir : Bytes)

def Reader.item (reader : Reader) (h : Heap Scalar) : Option (Value Scalar) → Except ReadError SourceItem :=
  match reader with
  | .tableStrings canonicalize fragmentDir => fun v => (tableStringItem canonicalize fragmentDir h v).map (⟨·, none⟩)
  | .tablePathStrings fragmentDir => fun v => (tablePathItem fragmentDir h v).map (⟨·, none⟩)
  | .sources providers fragmentDir => sourceItem providers fragmentDir h

/-- A list field: the check of its declaration, where there is one, and the reader. -/
def readListField (schema : Option ItemTypes) (reader : Reader) (h : Heap Scalar) (id : Nat) :
    Except ReadError (List SourceItem) :=
  match schema with
  | some types =>
    if validateSchemaList L types h id then readItems L (reader.item h) h id else .error .schema
  | none => readItems L (reader.item h) h id

/-- An item of the lists of `qstar.files` -/
def patternItem : Option (Value Scalar) → Except ReadError Bytes
  | some (.atom a) =>
    match luaTostring a with
    | none => .error .nonString
    | some s => .ok s
  | _ => .error .nonString

/-- The exclude patterns of `qstar.files` -/
def excludePatterns (h : Heap Scalar) (id : Nat) : Except ReadError (List Bytes) :=
  match h.gettable id (.atom (.string (ascii "exclude"))) with
  | none => .ok []
  | some (.atom _) => .error .notList
  | some (.table list) => readItems L patternItem h list

/-- `qstar_lua_files`: whether a glob came up, and the files. -/
def filesOfTable (answer : ∀ q : Question, q.Answer) (ctx : Context) (h : Heap Scalar) (id : Nat) :
    Except ReadError (Bool × List Bytes) := do
  let exclude ← excludePatterns L h id
  let (excludeGlobs, excludes) := resolveExcludes ctx exclude
  let excludes ← excludes.elim (.error .path) .ok
  let patterns ← readItems L patternItem h id
  let (globs, paths) := (expandPatterns ctx patterns).run answer
  let paths ← paths.elim (.error .path) .ok
  pure (excludeGlobs || globs, paths.filter fun path => !excludedByPatterns path excludes)

/-- An item of `qstar_lua_args_if` -/
def argsIfItem : Option (Value Scalar) → Except ReadError Scalar
  | some (.atom a) => if luaIsstring a then .ok a else .error .nonString
  | _ => .error .nonString

/-- `qstar_lua_args_if` behind its condition -/
def argsIf (h : Heap Scalar) (id : Nat) : Except ReadError (List Scalar) := readItems L argsIfItem h id

end Readers

section Shown

variable {L : Lengths numbers} {h : Heap Scalar}

/-- The length of a table without numbers is zero. -/
theorem len_of_no_numbers {id : Nat} (hnone : ∀ n, h.rawget id (.atom (numbers.index n)) = none) : L.len h id = 0 := by
  rcases (L.border h id).1 with h0 | hsome
  · exact h0
  · rw [hnone] at hsome
    cases hsome

theorem rawget_of_no_entries {id : Nat} (hnil : h.entries id = []) (key : Value Scalar) : h.rawget id key = none := by
  rw [Heap.rawget, hnil]
  rfl

theorem len_of_no_entries {id : Nat} (hnil : h.entries id = []) : L.len h id = 0 :=
  len_of_no_numbers fun _ => rawget_of_no_entries hnil _

theorem readItems_of_len_zero {β : Type} {item : Option (Value Scalar) → Except ReadError β} {id : Nat}
    (hlen : L.len h id = 0) : readItems L item h id = .ok [] := by
  rw [readItems, hlen]
  rfl

/-- A list that is read without an error has as many items as the table. -/
theorem length_readItems {β : Type} {item : Option (Value Scalar) → Except ReadError β} {id : Nat} {items : List β}
    (hread : readItems L item h id = .ok items) : items.length = L.len h id := by
  rw [readItems] at hread
  have hlen := length_of_mapM_ok hread
  rw [hlen, List.length_range]

theorem validateSchemaList_of_no_entries {types : ItemTypes} {id : Nat} (hnil : h.entries id = []) :
    validateSchemaList L types h id = true := by
  rw [validateSchemaList, len_of_no_entries hnil, hnil]
  rfl

/-- What a field is shown as: a scalar as its copy, a table as a read-only one. -/
def FieldShown (own : Nat → Prop) (h : Heap Scalar) (field shown : Option (Value Scalar)) : Prop :=
  match field with
  | none => shown = none
  | some (.atom a) => ∃ a', pushReadonlyScalarCopy a = some a' ∧ shown = some (.atom a')
  | some (.table _) => ∃ q behind, shown = some (.table q) ∧ h[q]? = some ⟨[], some behind⟩ ∧ own q

/-- A read-only table stands before the data for a table: it has no entries of its own, and the
data has under names what the table itself has there. The table may be a read-only one, which has
no entries. The tables that this rests on are its own. -/
structure Shows (own : Nat → Prop) (h : Heap Scalar) (v shown data : Nat) (t : Table Scalar)
    (copied : List (Value Scalar × Value Scalar)) : Prop where
  atShown : h[shown]? = some ⟨[], some data⟩
  atData : h[data]? = some ⟨copied, none⟩
  atTable : h[v]? = some t
  ownShown : own shown
  ownData : own data
  ownTable : own v
  behind : ∀ i, t.behind = some i → t.entries = [] ∧ i < h.length ∧ own i
  field : ∀ name, FieldShown own h (t.entries.lookup (.atom (.string name))) (copied.lookup (.atom (.string name)))

/-- The tables that are one's own stay as they are. -/
def Keeps (own : Nat → Prop) (h h₂ : Heap Scalar) : Prop := ∀ i, own i → i < h.length → h₂[i]? = h[i]?

variable {own : Nat → Prop}

theorem Keeps.get {h₂ : Heap Scalar} {id : Nat} {t : Table Scalar} (hk : Keeps own h h₂) (hown : own id)
    (hget : h[id]? = some t) : h₂[id]? = some t :=
  (hk id hown (List.getElem?_eq_some_iff.mp hget).1).trans hget

theorem FieldShown.kept {h₂ : Heap Scalar} {field shown : Option (Value Scalar)} (hf : FieldShown own h field shown)
    (hk : Keeps own h h₂) : FieldShown own h₂ field shown := by
  unfold FieldShown at hf ⊢
  split at hf
  · exact hf
  · exact hf
  · obtain ⟨q, behind, heq, hq, hown⟩ := hf
    exact ⟨q, behind, heq, hk.get hown hq, hown⟩

variable {v shown data : Nat} {t : Table Scalar} {copied : List (Value Scalar × Value Scalar)}

theorem Keeps.length_le {h₂ : Heap Scalar} {id : Nat} (hk : Keeps own h h₂) (hown : own id) (hlt : id < h.length) :
    id < h₂.length := by
  obtain ⟨t, ht⟩ : ∃ t, h[id]? = some t := ⟨_, List.getElem?_eq_getElem hlt⟩
  exact (List.getElem?_eq_some_iff.mp (hk.get hown ht)).1

theorem Shows.kept {h₂ : Heap Scalar} (hs : Shows own h v shown data t copied) (hk : Keeps own h h₂) :
    Shows own h₂ v shown data t copied where
  atShown := hk.get hs.ownShown hs.atShown
  atData := hk.get hs.ownData hs.atData
  atTable := hk.get hs.ownTable hs.atTable
  ownShown := hs.ownShown
  ownData := hs.ownData
  ownTable := hs.ownTable
  behind := by
    intro i hi
    obtain ⟨hnil, hlt, hown⟩ := hs.behind i hi
    exact ⟨hnil, hk.length_le hown hlt, hown⟩
  field := fun name => (hs.field name).kept hk

theorem Shows.empty (hs : Shows own h v shown data t copied) : h.entries shown = [] := by
  rw [Heap.entries, hs.atShown]
  rfl

theorem Shows.entries_eq (hs : Shows own h v shown data t copied) : h.entries v = t.entries := by
  rw [Heap.entries, hs.atTable]
  rfl

/-- What a name of the read-only table leads to, and what the table it shows has there itself. -/
theorem Shows.gettable (hs : Shows own h v shown data t copied) (name : Bytes) :
    FieldShown own h (h.rawget v (.atom (.string name))) (h.gettable shown (.atom (.string name))) := by
  have hraw : h.rawget v (.atom (.string name)) = t.entries.lookup (.atom (.string name)) := by
    rw [Heap.rawget, hs.entries_eq]
  have hproxy : h.gettable shown (.atom (.string name)) = copied.lookup (.atom (.string name)) := by
    rw [Heap.gettable, Heap.rawget, Heap.entries, Heap.behind, hs.atShown, Option.bind_some, Option.bind_some,
      Heap.rawget, Heap.entries, hs.atData]
    rfl
  rw [hraw, hproxy]
  exact hs.field name

theorem luaIsstring_copy {a a' : Scalar} (h : pushReadonlyScalarCopy a = some a') : luaIsstring a' = luaIsstring a := by
  cases a <;> cases h <;> rfl

/-- The table has a kind among its own entries. -/
def ownKind (h : Heap Scalar) (id : Nat) : Bool :=
  match h.rawget id (.atom kindMark.key) with
  | some (.atom a) => luaIsstring a
  | _ => false

theorem ownKind_of_no_entries {id : Nat} (hnil : h.entries id = []) : ownKind h id = false := by
  rw [ownKind, rawget_of_no_entries hnil]

/-- A table that reads through to no other has a kind where it has one itself. -/
theorem plainTable_of_behind {id : Nat} (hbehind : h.behind id = none) : plainTable h id = !ownKind h id := by
  have hget : h.gettable id (.atom kindMark.key) = h.rawget id (.atom kindMark.key) := by
    rw [Heap.gettable, hbehind]
    exact Option.or_none
  rw [plainTable, qstarTableKind, ownKind, hget]
  cases h.rawget id (.atom kindMark.key) with
  | none => rfl
  | some value =>
    cases value with
    | table => rfl
    | atom a =>
      simp only
      cases luaIsstring a <;> rfl

/-- A read-only table has a kind where the table it shows has one itself. -/
theorem Shows.plainTable_shown (hs : Shows own h v shown data t copied) : plainTable h shown = !ownKind h v := by
  have hfield := hs.gettable (ascii "__qstar_kind")
  rw [plainTable, qstarTableKind, ownKind]
  change (match h.gettable shown (.atom (.string (ascii "__qstar_kind"))) with
    | some (.atom a) => if luaIsstring a then some a else none
    | _ => none).isNone = !(match h.rawget v (.atom (.string (ascii "__qstar_kind"))) with
    | some (.atom a) => luaIsstring a
    | _ => false)
  unfold FieldShown at hfield
  split at hfield
  · rename_i hv
    rw [hv, hfield]
    rfl
  · rename_i a hv
    obtain ⟨a', hcopy, heq⟩ := hfield
    rw [hv, heq]
    simp only [luaIsstring_copy hcopy]
    cases luaIsstring a <;> rfl
  · rename_i id hv
    obtain ⟨q, behind, heq, -⟩ := hfield
    rw [hv, heq]
    rfl

/-- A nested table and the read-only table for it are both plain or both not. -/
theorem Shows.plainTable_eq {nested : Nested Scalar} {ids : List Nat} (hs : Shows own h v shown data t copied)
    (ht : Holds h (.table v) nested ids) : plainTable h shown = plainTable h v := by
  have hbehind : h.behind v = none := by
    cases ht with
    | table hself _ _ =>
      rw [Heap.behind, hself]
      rfl
  rw [hs.plainTable_shown, plainTable_of_behind hbehind]

/-- A table that has a kind itself is no plain table. -/
theorem Shows.plainTable_of_kind (hs : Shows own h v shown data t copied) (hkind : ownKind h v = true) :
    plainTable h v = false := by
  have hbehind : h.behind v = none := by
    rw [Heap.behind, hs.atTable]
    cases hb : t.behind with
    | none => exact hb
    | some i =>
      have hnil := (hs.behind i hb).1
      rw [ownKind_of_no_entries (hs.entries_eq.trans hnil)] at hkind
      cases hkind
  rw [plainTable_of_behind hbehind, hkind]
  rfl

theorem Shows.entries_kept {h₂ : Heap Scalar} (hs : Shows own h v shown data t copied) (hk : Keeps own h h₂) :
    h₂.entries v = h.entries v := by rw [(hs.kept hk).entries_eq, hs.entries_eq]

/-- What a key of the table leads to. -/
theorem Shows.gettable_kept {h₂ : Heap Scalar} (hs : Shows own h v shown data t copied) (hk : Keeps own h h₂)
    (key : Value Scalar) : h₂.gettable v key = h.gettable v key := by
  have hbehind : h₂.behind v = h.behind v := by rw [Heap.behind, Heap.behind, (hs.kept hk).atTable, hs.atTable]
  have hraw : h₂.rawget v key = h.rawget v key := by rw [Heap.rawget, Heap.rawget, hs.entries_kept hk]
  rw [Heap.gettable, Heap.gettable, hraw, hbehind]
  cases hb : h.behind v with
  | none => rfl
  | some i =>
    rw [Heap.behind, hs.atTable] at hb
    obtain ⟨-, hlt, hown⟩ := hs.behind i hb
    have hback : h₂.rawget i key = h.rawget i key := by
      rw [Heap.rawget, Heap.rawget, Heap.entries, Heap.entries, hk i hown hlt]
    rw [Option.bind_some, Option.bind_some, hback]

theorem Shows.plain_kept {h₂ : Heap Scalar} (hs : Shows own h v shown data t copied) (hk : Keeps own h h₂) :
    plainTable h₂ v = plainTable h v := by
  rw [plainTable, plainTable, qstarTableKind, qstarTableKind, hs.gettable_kept hk]

theorem Shows.kind_kept {h₂ : Heap Scalar} (hs : Shows own h v shown data t copied) (hk : Keeps own h h₂) :
    ownKind h₂ v = ownKind h v := by
  rw [ownKind, ownKind, Heap.rawget, Heap.rawget, hs.entries_kept hk]

end Shown

section Lists

variable {L : Lengths numbers} {h : Heap Scalar}

/-- A reader is told nothing wrong by the second table: it makes the same of it, or refuses it. -/
def SameOrError {ε β : Type} (plain shown : Except ε β) : Prop := shown = plain ∨ ∃ e, shown = .error e

theorem sameOrError_ok {ε β : Type} {plain : Except ε β} {b : β} :
    SameOrError plain (.ok b) ↔ plain = .ok b := by
  constructor
  · rintro (h | ⟨e, he⟩)
    · exact h.symm
    · cases he
  · exact fun h => .inl h.symm

theorem readListField_of_no_entries {id : Nat} (hnil : h.entries id = []) (schema : Option ItemTypes)
    (reader : Reader) : readListField L schema reader h id = .ok [] := by
  have hread : readItems L (reader.item h) h id = .ok [] := readItems_of_len_zero (len_of_no_entries hnil)
  cases schema with
  | none => exact hread
  | some types =>
    simp only [readListField, validateSchemaList_of_no_entries hnil, if_true]
    exact hread

/-- A list field is read as empty just when the table has no items, and no entries where its
declaration is checked. -/
theorem readListField_nil_iff {id : Nat} (schema : Option ItemTypes) (reader : Reader) :
    readListField L schema reader h id = .ok [] ↔
      L.len h id = 0 ∧ (schema ≠ none → h.entries id = []) := by
  constructor
  · intro hread
    cases schema with
    | none =>
      exact ⟨(length_readItems hread).symm, fun hne => absurd rfl hne⟩
    | some types =>
      simp only [readListField] at hread
      split at hread
      · rename_i hvalid
        have hlen := (length_readItems hread).symm
        refine ⟨hlen, fun _ => ?_⟩
        simp only [validateSchemaList, Bool.and_eq_true, decide_eq_true_eq] at hvalid
        rw [List.length_nil] at hlen
        exact List.length_eq_zero_iff.mp (hvalid.1.2.trans hlen)
      · cases hread
  · rintro ⟨hlen, hempty⟩
    cases schema with
    | none => exact readItems_of_len_zero hlen
    | some types => exact readListField_of_no_entries (hempty (by simp)) (some types) reader

/-- A condition's arguments are read as none just when the table has no items. -/
theorem argsIf_nil_iff {id : Nat} : argsIf L h id = .ok [] ↔ L.len h id = 0 :=
  ⟨fun hread => (length_readItems hread).symm, readItems_of_len_zero⟩

end Lists

section Files

variable {L : Lengths numbers} {h : Heap Scalar} {ctx : Context} {answer : ∀ q : Question, q.Answer}

/-- A glob that matches has matches. -/
theorem expandGlob_ne_nil {root pattern : Bytes} {found : List Bytes}
    (hrun : (expandGlob root pattern).run answer = some found) : found ≠ [] := by
  simp only [expandGlob, bind_eq, run_bind, run_question] at hrun
  split at hrun
  · cases hrun
  · split at hrun
    · cases hrun
    · rename_i hne
      rw [run_pure, Option.some.injEq] at hrun
      intro hnil
      rw [hnil] at hrun
      have hlen := congrArg List.length hrun
      rw [List.length_mergeSort, List.length_map, List.length_nil] at hlen
      exact hne (List.length_eq_zero_iff.mp hlen)

/-- Every pattern gives a path, or an error. -/
theorem expandPatterns_ne_nil {patterns : List Bytes} (hne : patterns ≠ []) {globs : Bool} {paths : List Bytes}
    (hrun : (expandPatterns ctx patterns).run answer = (globs, some paths)) : paths ≠ [] := by
  cases patterns with
  | nil => exact absurd rfl hne
  | cons pattern rest =>
    rw [expandPatterns] at hrun
    split at hrun
    · cases hrun
    · split at hrun
      · simp only [bind_eq, run_bind] at hrun
        split at hrun
        · cases hrun
        · rename_i found hfound
          simp only [run_bind, run_pure, Prod.mk.injEq] at hrun
          obtain ⟨more, -, rfl⟩ := Option.map_eq_some_iff.mp hrun.2
          intro hnil
          exact expandGlob_ne_nil hfound (List.append_eq_nil_iff.mp hnil).1
      · simp only [bind_eq, run_bind, run_pure, Prod.mk.injEq] at hrun
        obtain ⟨more, -, rfl⟩ := Option.map_eq_some_iff.mp hrun.2
        exact List.cons_ne_nil _ _

/-- The exclude patterns are read, and none of them is a glob. -/
def ExcludesPlain (L : Lengths numbers) (ctx : Context) (h : Heap Scalar) (id : Nat) : Prop :=
  ∃ patterns excludes, excludePatterns L h id = .ok patterns ∧ resolveExcludes ctx patterns = (false, some excludes)

theorem filesOfTable_of_len_zero {id : Nat} {patterns excludes : List Bytes} (hlen : L.len h id = 0)
    (hpatterns : excludePatterns L h id = .ok patterns)
    (hexcludes : resolveExcludes ctx patterns = (false, some excludes)) :
    filesOfTable L answer ctx h id = .ok (false, []) := by
  rw [filesOfTable, hpatterns]
  change ((resolveExcludes ctx patterns).2.elim (Except.error ReadError.path) .ok >>= _) = _
  rw [hexcludes]
  change (readItems L patternItem h id >>= _) = _
  rw [readItems_of_len_zero hlen]
  rfl

/-- No file is found just when there is no pattern for one and the exclude patterns are plain,
where a table with patterns has no exclude patterns. -/
theorem filesOfTable_nil_iff (answer : ∀ q : Question, q.Answer) {id : Nat}
    (hlist : L.len h id ≠ 0 → h.gettable id (.atom (.string (ascii "exclude"))) = none) :
    filesOfTable L answer ctx h id = .ok (false, []) ↔ L.len h id = 0 ∧ ExcludesPlain L ctx h id := by
  constructor
  · intro hfiles
    rw [filesOfTable] at hfiles
    obtain ⟨exclude, hexclude, hfiles⟩ := bind_eq_ok.mp hfiles
    obtain ⟨excludes, hresolved, hfiles⟩ := bind_eq_ok.mp hfiles
    obtain ⟨patterns, hpatterns, hfiles⟩ := bind_eq_ok.mp hfiles
    obtain ⟨paths, hpaths, hfiles⟩ := bind_eq_ok.mp hfiles
    cases hres : resolveExcludes ctx exclude with
    | mk excludeGlobs resolved =>
      cases hexp : (expandPatterns ctx patterns).run answer with
      | mk globs found =>
        rw [hres] at hresolved hfiles
        rw [hexp] at hpaths hfiles
        cases hfiles' : resolved with
        | none =>
          rw [hfiles'] at hresolved
          cases hresolved
        | some resolved =>
          rw [hfiles'] at hresolved hres
          cases hresolved
          cases found with
          | none => cases hpaths
          | some found =>
            cases hpaths
            simp only [pure, Except.pure, Except.ok.injEq, Prod.mk.injEq, Bool.or_eq_false_iff] at hfiles
            obtain ⟨⟨hglobs, hglobs'⟩, hnil⟩ := hfiles
            subst hglobs
            refine ⟨?_, exclude, excludes, hexclude, hres⟩
            by_contra hlen
            -- with patterns there are no exclude patterns, and each pattern gives a path
            rw [excludePatterns, hlist hlen] at hexclude
            cases hexclude
            cases hres
            have hpatternsNe : patterns ≠ [] := by
              intro hnone
              rw [hnone] at hpatterns
              exact hlen (length_readItems hpatterns).symm
            have hfound := expandPatterns_ne_nil hpatternsNe hexp
            cases hf : paths with
            | nil => exact hfound hf
            | cons path rest =>
              rw [hf] at hnil
              cases hnil
  · rintro ⟨hlen, patterns, excludes, hpatterns, hexcludes⟩
    exact filesOfTable_of_len_zero hlen hpatterns hexcludes

end Files

section Helpers

variable {L : Lengths numbers} {h : Heap Scalar}

/-- Two calls of a helper give tables that read alike. -/
def SameTable (plain shown : Except HelperError (Heap Scalar × Value Scalar)) : Prop :=
  match plain, shown with
  | .ok (h₁, x₁), .ok (h₂, x₂) => ∀ t, (∃ ids, Holds h₁ x₁ t ids) ↔ ∃ ids, Holds h₂ x₂ t ids
  | .error e, .error e' => e = e'
  | _, _ => False

def SameTableOrError (plain shown : Except HelperError (Heap Scalar × Value Scalar)) : Prop :=
  SameTable plain shown ∨ ∃ e, shown = .error e

theorem sameTable_refl (r : Except HelperError (Heap Scalar × Value Scalar)) : SameTable r r := by
  cases r with
  | error e => rfl
  | ok s => exact fun t => Iff.rfl

/-- Tables that read differently are not told apart by an error. -/
theorem not_sameTableOrError {plain : Except HelperError (Heap Scalar × Value Scalar)} {h₁ h₂ : Heap Scalar}
    {x₁ x₂ : Value Scalar} {t₁ t₂ : Nested Scalar} {ids₁ ids₂ : List Nat} (hplain : plain = .ok (h₁, x₁))
    (ht₁ : Holds h₁ x₁ t₁ ids₁) (ht₂ : Holds h₂ x₂ t₂ ids₂) (hne : t₁ ≠ t₂) :
    ¬SameTableOrError plain (.ok (h₂, x₂)) := by
  rintro (hsame | ⟨e, he⟩)
  · rw [hplain] at hsame
    obtain ⟨ids, ht⟩ := (hsame t₁).mp ⟨ids₁, ht₁⟩
    exact hne (ht.unique ht₂)
  · cases he

theorem pushValueCopy_of_no_entries {id : Nat} (hnil : h.entries id = []) {room : Nat} (hroom : 0 < room) :
    pushValueCopy h (.table id) room = .ok (h.alloc, .table h.length) := by
  cases room with
  | zero => omega
  | succ room =>
    rw [pushValueCopy, hnil]
    rfl

theorem arrayTable_of_no_entries {id : Nat} (hnil : h.entries id = []) : arrayTable L h id = plainTable h id := by
  rw [arrayTable, hnil]
  exact Bool.and_true _

theorem appendListCopy_of_no_entries {dst src next room : Nat} (hnil : h.entries src = []) :
    appendListCopy L h dst src next room = .ok (h, next) := by
  rw [appendListCopy, len_of_no_entries hnil]
  rfl

theorem mergeInto_of_no_entries {dst src room : Nat} (hnil : h.entries src = []) (hroom : 0 < room) :
    mergeInto L h dst src room = .ok h := by
  cases room with
  | zero => omega
  | succ room =>
    simp only [mergeInto]
    rw [hnil]
    rfl

theorem mergeArgument_of_no_entries {dst src : Nat} (hnil : h.entries src = []) :
    mergeArgument L h dst src = .ok h := by
  rw [mergeArgument, appendListCopy_of_no_entries hnil, mergeInto_of_no_entries hnil (by omega)]
  split <;> rfl

variable {own : Nat → Prop} {v shown data : Nat} {t : Table Scalar} {copied : List (Value Scalar × Value Scalar)}

/-- The helpers do the same with an empty plain table and the read-only table for it. -/
theorem Shows.appendArgument_eq {dst next : Nat} (hs : Shows own h v shown data t copied) (hnil : h.entries v = [])
    (hplain : plainTable h v = true) :
    appendArgument L dst (h, next) (some (.table shown)) = appendArgument L dst (h, next) (some (.table v)) := by
  simp only [appendArgument, arrayTable_of_no_entries hnil, arrayTable_of_no_entries hs.empty, hs.plainTable_shown,
    ownKind_of_no_entries hnil, Bool.not_false, hplain, if_true, appendListCopy_of_no_entries hnil,
    appendListCopy_of_no_entries hs.empty]

/-- The loop body of `mergeArguments` -/
theorem mergeArguments_append (refusal : HelperError) {dst : Nat} {h' : Heap Scalar}
    {before after : List (Option (Value Scalar))} {id : Nat}
    (hbefore : mergeArguments L refusal h dst before = .ok h') :
    mergeArguments L refusal h dst (before ++ some (.table id) :: after) =
      (if plainTable h' id then mergeArgument L h' dst id else .error refusal) >>=
        fun h'' => mergeArguments L refusal h'' dst after := by
  rw [mergeArguments, List.foldlM_append]
  rw [mergeArguments] at hbefore
  rw [hbefore]
  rfl

/-- An empty plain table, or one with a kind, and the read-only table for it are merged alike. -/
theorem Shows.mergeArguments_eq {h' : Heap Scalar} {dst : Nat} (hs : Shows own h' v shown data t copied)
    (refusal : HelperError) {before after : List (Option (Value Scalar))}
    (hbefore : mergeArguments L refusal h dst before = .ok h')
    (halike : (h'.entries v = [] ∧ plainTable h' v = true) ∨ ownKind h' v = true) :
    mergeArguments L refusal h dst (before ++ some (.table shown) :: after)
      = mergeArguments L refusal h dst (before ++ some (.table v) :: after) := by
  rw [mergeArguments_append refusal hbefore, mergeArguments_append refusal hbefore, hs.plainTable_shown]
  rcases halike with ⟨hnil, hplain⟩ | hkind
  · rw [mergeArgument_of_no_entries hs.empty, mergeArgument_of_no_entries hnil, hplain, ownKind_of_no_entries hnil]
    rfl
  · rw [hkind, hs.plainTable_of_kind hkind]
    rfl

/-- A table that counts as a list is one, unless it has gaps. -/
theorem isList_of_arrayTable {v : Nat} {entries : Entries Scalar} {ids : List Nat}
    (ht : Holds h (.table v) (.node entries) ids)
    (hshape : isList numbers entries = true ∨ ∃ e ∈ entries, ∃ s, e.1 = .leaf (.string s))
    (harray : arrayTable L h v = true) : isList numbers entries = true := by
  rcases hshape with hl | ⟨e, he, s, hs⟩
  · exact hl
  · rw [arrayTable, Bool.and_eq_true] at harray
    cases ht with
    | @table _ es _ _ hself hkeys hentries =>
      have hes : h.entries v = es := by
        rw [Heap.entries, hself]
        rfl
      rw [hes, hentries.all_keyWithin, List.all_eq_true] at harray
      obtain ⟨n, hn, -⟩ := within_iff.mp (harray.2 e he)
      rw [hs] at hn
      cases hn

theorem appendItems_ne_nil {entries : Entries Scalar} (hd : Distinct entries) (hl : isList numbers entries = true)
    (hne : entries ≠ []) : appendItems numbers [] (items numbers entries) ≠ [] := by
  intro hnil
  have hlen := congrArg List.length hnil
  rw [length_appendItems, length_items hd hl] at hlen
  simp only [List.length_nil, Nat.zero_add] at hlen
  exact hne (List.length_eq_zero_iff.mp hlen)

/-- A table that has entries and no kind, merged into an empty one. -/
theorem mergeArgument_nonempty {v dst : Nat} {entries : Entries Scalar} {ids work : List Nat}
    (ht : Holds h (.table v) (.node entries) ids) (hdst : Holds h (.table dst) (.node []) work) (hnodup : work.Nodup)
    (hapart : ∀ id ∈ ids, id ∉ work) (hdepth : (Nested.node entries).depth < 64)
    (hshape : isList numbers entries = true ∨ ∃ e ∈ entries, ∃ s, e.1 = .leaf (.string s)) (hne : entries ≠ []) :
    ∃ h' entries' ids', mergeArgument L h dst v = .ok h' ∧ Holds h' (.table dst) (.node entries') ids' ∧
      entries' ≠ [] := by
  have hempty : arrayTable L h dst = true := arrayTable_eq L hdst (throughout_node.mp throughout_nil).1
  by_cases harray : arrayTable L h v = true
  · have hl : isList numbers entries = true := isList_of_arrayTable ht hshape harray
    obtain ⟨h', ids', hrun, -, hresult⟩ :=
      appendListCopy_spec L 65 hdst hnodup rfl ht hl hapart (by omega)
    refine ⟨h', _, ids', ?_, hresult, appendItems_ne_nil ht.distinct hl hne⟩
    rw [mergeArgument, hempty, harray]
    change (appendListCopy L h dst v (L.len h dst + 1) 65).map (·.1) = _
    rw [hdst.len rfl L, hrun]
    rfl
  · obtain ⟨h', ids', hrun, -, hresult⟩ :=
      mergeInto_new L 65 hdst hnodup ht hapart ht.distinct (by omega)
    refine ⟨h', entries, ids', ?_, hresult, hne⟩
    have hno : arrayTable L h v = false := by simpa using harray
    rw [mergeArgument, hno, Bool.and_false]
    exact hrun

/-- What a table with entries and the read-only table for it put into an empty list. -/
theorem appendArgument_differ {dst : Nat} {entries : Entries Scalar} {ids work : List Nat}
    (hs : Shows own h v shown data t copied) (ht : Holds h (.table v) (.node entries) ids)
    (hdst : Holds h (.table dst) (.node []) work) (hnodup : work.Nodup) (hapart : ∀ id ∈ ids, id ∉ work)
    (hdepth : (Nested.node entries).depth < 64)
    (hshape : isList numbers entries = true ∨ ∃ e ∈ entries, ∃ s, e.1 = .leaf (.string s)) (hne : entries ≠ []) :
    ∃ s s' r r' ids₁ ids₂, appendArgument L dst (h, 1) (some (.table v)) = .ok s ∧
      appendArgument L dst (h, 1) (some (.table shown)) = .ok s' ∧ Holds s.1 (.table dst) r ids₁ ∧
      Holds s'.1 (.table dst) r' ids₂ ∧ r ≠ r' := by
  -- a table that is no list is put in whole, and so is the read-only table of one with a kind
  have hput := appendValueCopy_spec 65 1 hdst hnodup ht (by omega)
  by_cases hkind : plainTable h v = true
  · have hshown : appendArgument L dst (h, 1) (some (.table shown)) = .ok (h, 1) := by
      simp only [appendArgument, arrayTable_of_no_entries hs.empty, hs.plainTable_eq ht, hkind, if_true]
      exact appendListCopy_of_no_entries hs.empty
    by_cases harray : arrayTable L h v = true
    · have hl : isList numbers entries = true := isList_of_arrayTable ht hshape harray
      obtain ⟨h', ids', hrun, -, hresult⟩ :=
        appendListCopy_spec L 65 hdst hnodup rfl ht hl hapart (by omega)
      refine ⟨(h', ([] : Entries Scalar).length + entries.length + 1), (h, 1), _, _, ids', work, ?_, hshown, hresult,
        hdst, ?_⟩
      · simp only [appendArgument, harray, if_true]
        exact hrun
      · intro heq
        exact appendItems_ne_nil ht.distinct hl hne (Nested.node.inj heq)
    · obtain ⟨h', ids', hrun, -, hresult⟩ := hput
      refine ⟨(h', 2), (h, 1), _, _, ids', work, ?_, hshown, hresult, hdst, ?_⟩
      · simp only [appendArgument, if_neg harray]
        exact hrun
      · intro heq
        cases heq
  · have hnone : arrayTable L h v = false := by
      rw [arrayTable, Bool.eq_false_iff.mpr hkind, Bool.false_and]
    have hnone' : arrayTable L h shown = false := by
      rw [arrayTable_of_no_entries hs.empty, hs.plainTable_eq ht]
      exact Bool.eq_false_iff.mpr hkind
    obtain ⟨h', ids', hrun, -, hresult⟩ := hput
    obtain ⟨ids'', -, hresult'⟩ := hdst.set hnodup (updated_refl h) (.atom (numbers.index 1)) (updated_alloc h)
      (holds_alloc h)
    refine ⟨(h', 2), (h.alloc.rawset dst (.atom (numbers.index 1)) (some (.table h.length)), 2), _, _, ids', ids'', ?_,
      ?_, hresult, hresult', ?_⟩
    · simp only [appendArgument, hnone, Bool.false_eq_true, if_false]
      exact hrun
    · simp only [appendArgument, hnone', Bool.false_eq_true, if_false]
      rw [appendValueCopy, pushValueCopy_of_no_entries hs.empty (by omega)]
      rfl
    · intro heq
      simp only [put, Nested.node.injEq, List.cons.injEq, Prod.mk.injEq] at heq
      exact hne heq.1.2

end Helpers

section Accepted

variable {L : Lengths numbers} {h h' : Heap Scalar}

/-- How `qstar.variant` shows a table under its values, which it accepts at some path and copies
below the limit, and how it shows its tags. -/
inductive VariantShows (L : Lengths numbers) (h : Heap Scalar) (v : Nat) : Heap Scalar → Nat → Prop where
  | value {h' : Heap Scalar} {shown fuel room : Nat} {path : Bytes} {values : List Bytes} :
      collectVariantValues h fuel path (some (.table v)) = some values → room < 64 →
      pushReadonlyTableCopy h v room = some (h', shown) → VariantShows L h v h' shown
  | tags {texts : List Bytes} {fragmentDir : Bytes} :
      validateSchemaList L ⟨true, false, false, false⟩ h v = true →
      readItems L (tableStringItem false fragmentDir h) h v = .ok texts →
      VariantShows L h v (pushVariantTags h texts).1 (pushVariantTags h texts).2

/-- The tables a variant makes, the table it is given, and the one that this reads through to. -/
def variantTables (h h' : Heap Scalar) (v i : Nat) : Prop :=
  i = v ∨ h.behind v = some i ∨ (h.length ≤ i ∧ i < h'.length)

/-- The entries are those of a list, or lie under names, and less deep than the limit. -/
structure Shaped (entries : Entries Scalar) : Prop where
  shape : isList numbers entries = true ∨ (entries ≠ [] ∧ ∀ e ∈ entries, ∃ s, e.1 = .leaf (.string s))
  depth : (Nested.node entries).depth < 64

/-- What is known of a table that a variant accepts and of the read-only one. -/
structure Accepted (h h' : Heap Scalar) (v shown : Nat) : Prop where
  later : ∀ i < h.length, h'[i]? = h[i]?
  shows : ∃ data t copied, Shows (variantTables h h' v) h' v shown data t copied
  shaped : h.entries v ≠ [] → ∃ entries ids, Holds h (.table v) (.node entries) ids ∧ Shaped entries

theorem accepted_value (hr : Regular h) {v shown fuel room : Nat} {path : Bytes} {values : List Bytes}
    (hcollect : collectVariantValues h fuel path (some (.table v)) = some values) (hroom : room < 64)
    (hcopy : pushReadonlyTableCopy h v room = some (h', shown)) : Accepted h h' v shown := by
  obtain ⟨nested, ids, ht⟩ := holds_of_collectVariantValues hr hcollect
  have hatomic := collectVariantValues_keys ht hcollect
  have hshape : ∃ shape, variantTableShape (h.entries v) = some shape := by
    cases fuel with
    | zero => cases hcollect
    | succ fuel =>
      rw [collectVariantValues] at hcollect
      cases hs : variantTableShape (h.entries v) with
      | none =>
        rw [hs] at hcollect
        cases hcollect
      | some shape => exact ⟨shape, rfl⟩
  obtain ⟨shape, hshape⟩ := hshape
  cases ht with
  | @table _ es entries rest hself hkeys hentries =>
    have ht : Holds h (.table v) (.node entries) (v :: rest) := .table hself hkeys hentries
    obtain ⟨hne, -, hcases⟩ := shape_of_holds ht hshape
    obtain ⟨hdepth, hlater, hlt, es', hshown, hdata, hm⟩ :=
      pushReadonlyTableCopy_spec room hself hkeys hentries hatomic hcopy
    have hself' : h'[v]? = some ⟨es, none⟩ := by
      rw [hlater v (List.getElem?_eq_some_iff.mp hself).1, hself]
    have hbound : ∀ {i : Nat} {t : Table Scalar}, h'[i]? = some t → i < h'.length :=
      fun hget => (List.getElem?_eq_some_iff.mp hget).1
    refine ⟨hlater, ⟨h.length, ⟨es, none⟩, es', hshown, hdata, hself', ?_, ?_, .inl rfl, ?_, ?_⟩,
      fun _ => ⟨entries, v :: rest, ht, ?_, by omega⟩⟩
    · exact .inr (.inr ⟨by omega, hbound hshown⟩)
    · exact .inr (.inr ⟨Nat.le_refl _, hbound hdata⟩)
    · intro i hi
      cases hi
    · intro name
      have hlookup := hm.lookup (.atom (.string name))
      unfold FieldShown
      cases hes : es.lookup (.atom (.string name)) with
      | none =>
        rw [hes] at hlookup
        exact hlookup
      | some value =>
        rw [hes] at hlookup
        obtain ⟨field, hfield, hs⟩ := hlookup
        cases value with
        | atom a =>
          obtain ⟨a', hcopy, heq⟩ := hs
          exact ⟨a', hcopy, by rw [hfield, heq]⟩
        | table id =>
          obtain ⟨q, behind, heq, hq, hget⟩ := hs
          exact ⟨q, behind, by rw [hfield, heq], hget, .inr (.inr ⟨by omega, hbound hget⟩)⟩
    · rcases hcases with ⟨-, hstrings⟩ | ⟨-, hl⟩
      · exact .inr ⟨hne, hstrings⟩
      · exact .inl hl

/-- The data behind the tags has numbers for keys. -/
theorem pushVariantTags_spec (h : Heap Scalar) (tags : List Bytes) :
    ∃ es', (pushVariantTags h tags).2 = h.length + 1 ∧
      (pushVariantTags h tags).1[h.length + 1]? = some ⟨[], some h.length⟩ ∧
      (pushVariantTags h tags).1[h.length]? = some ⟨es', none⟩ ∧
      (∀ e ∈ es', ∃ n, e.1 = .atom (numbers.index n)) ∧
      ∀ i < h.length, (pushVariantTags h tags).1[i]? = h[i]? := by
  have hloop : ∀ (tags : List (Bytes × Nat)) (h₀ : Heap Scalar) (before : List (Value Scalar × Value Scalar)),
      h₀.length = h.length + 1 → h₀[h.length]? = some ⟨before, none⟩ →
      (∀ e ∈ before, ∃ n, e.1 = .atom (numbers.index n)) → (∀ i < h.length, h₀[i]? = h[i]?) →
      ∃ done es', tags.foldl (fun h' tag =>
          Heap.rawset h' h.length (.atom (numbers.index (tag.2 + 1))) (some (.atom (.string tag.1)))) h₀ = done ∧
        done.length = h.length + 1 ∧ done[h.length]? = some ⟨es', none⟩ ∧
        (∀ e ∈ es', ∃ n, e.1 = .atom (numbers.index n)) ∧ ∀ i < h.length, done[i]? = h[i]? := by
    intro tags
    induction tags with
    | nil => exact fun h₀ before hlen hget hkeys hsame => ⟨h₀, before, rfl, hlen, hget, hkeys, hsame⟩
    | cons tag rest ih =>
      intro h₀ before hlen hget hkeys hsame
      refine ih (h₀.rawset h.length (.atom (numbers.index (tag.2 + 1))) (some (.atom (.string tag.1))))
        (Bindings.assign (.atom (numbers.index (tag.2 + 1))) (.atom (.string tag.1)) before) ?_ ?_ ?_ ?_
      · rw [length_rawset, hlen]
      · rw [Heap.rawset, List.getElem?_modify, hget]
        simp
      · intro e he
        have hin : e.1 ∈ (Bindings.assign (.atom (numbers.index (tag.2 + 1)))
            (Value.atom (Scalar.string tag.1)) before).map (·.1) := List.mem_map.mpr ⟨e, he, rfl⟩
        rcases Bindings.mem_keys_assign hin with hnew | hold
        · exact ⟨tag.2 + 1, hnew⟩
        · obtain ⟨e', he', heq⟩ := List.mem_map.mp hold
          obtain ⟨n, hn⟩ := hkeys e' he'
          exact ⟨n, heq.symm.trans hn⟩
      · exact fun i hi => (getElem?_rawset h.length i _ _ (by omega)).trans (hsame i hi)
  obtain ⟨done, es', hdone, hlen, hget, hkeys, hsame⟩ := hloop tags.zipIdx h.alloc []
    (by rw [Heap.alloc, List.length_append]; rfl) List.getElem?_concat_length
    (fun _ he => by cases he) fun i hi => List.getElem?_append_left hi
  refine ⟨es', ?_, ?_, ?_, hkeys, ?_⟩
  · rw [pushVariantTags, hdone, hlen]
  · rw [pushVariantTags, hdone, pushReadonlyProxy, ← hlen]
    exact List.getElem?_concat_length
  · rw [pushVariantTags, hdone, pushReadonlyProxy, List.getElem?_append_left (by omega), hget]
  · intro i hi
    rw [pushVariantTags, hdone, pushReadonlyProxy, List.getElem?_append_left (by omega), hsame i hi]

theorem lookup_name_of_numbers {es : List (Value Scalar × Value Scalar)}
    (hkeys : ∀ e ∈ es, ∃ n, e.1 = .atom (numbers.index n)) (name : Bytes) :
    es.lookup (.atom (.string name)) = none := by
  rw [Bindings.lookup_eq_none]
  intro e he heq
  obtain ⟨n, hn⟩ := hkeys e he
  rw [heq] at hn
  cases hn

/-- A list of strings has strings at the numbers up to its length. -/
theorem entries_of_validateSchemaList {v : Nat} (hnodup : ((h.entries v).map (·.1)).Nodup)
    (hvalid : validateSchemaList L ⟨true, false, false, false⟩ h v = true) :
    ∀ e ∈ h.entries v, (∃ n, e.1 = .atom (numbers.index n) ∧ 1 ≤ n ∧ n ≤ (h.entries v).length) ∧ ∃ a, e.2 = .atom a := by
  simp only [validateSchemaList, Bool.and_eq_true, decide_eq_true_eq] at hvalid
  obtain ⟨⟨hwithin, hlen⟩, hitems⟩ := hvalid
  intro e he
  obtain ⟨n, hn, hone, hle⟩ := keyWithin_iff.mp (List.all_eq_true.mp hwithin e he)
  refine ⟨⟨n, hn, hone, by omega⟩, ?_⟩
  have hrange : n - 1 ∈ List.range (L.len h v) := List.mem_range.mpr (by omega)
  have hitem := List.all_eq_true.mp hitems (n - 1) hrange
  have hsucc : n - 1 + 1 = n := by omega
  have hraw : h.rawget v (.atom (numbers.index n)) = some e.2 := by
    rw [Heap.rawget, ← hn]
    exact Bindings.lookup_of_mem hnodup he
  rw [hsucc, hraw] at hitem
  cases hvalue : e.2 with
  | atom a => exact ⟨a, rfl⟩
  | table id =>
    rw [hvalue] at hitem
    cases hitem

/-- A list of strings is a nested table. -/
theorem shaped_of_strings {v : Nat} (hself : h[v]? = some ⟨h.entries v, none⟩)
    (hnodup : ((h.entries v).map (·.1)).Nodup)
    (hstrings : ∀ e ∈ h.entries v, (∃ n, e.1 = .atom (numbers.index n) ∧ 1 ≤ n ∧ n ≤ (h.entries v).length) ∧
      ∃ a, e.2 = .atom a) :
    ∃ entries ids, Holds h (.table v) (.node entries) ids ∧ Shaped entries := by
  have hall : ∀ e ∈ h.entries v, (∃ t ids, Holds h e.1 t ids) ∧ ∃ t ids, Holds h e.2 t ids := by
    intro e he
    obtain ⟨⟨n, hn, -⟩, a, ha⟩ := hstrings e he
    rw [hn, ha]
    exact ⟨⟨_, _, .atom _⟩, _, _, .atom _⟩
  obtain ⟨entries, ids, hz⟩ := Entrywise.exists_of_forall hall
  have hleaf : ∀ e ∈ entries, (∃ n, e.1 = .leaf (numbers.index n) ∧ 1 ≤ n ∧ n ≤ entries.length) ∧
      ∃ a, e.2 = .leaf a := by
    intro e he
    obtain ⟨e', he', keyIds, valueIds, hkey, hvalue⟩ := hz.exists_of_mem he
    obtain ⟨⟨n, hn, hle⟩, a, ha⟩ := hstrings e' he'
    rw [hn] at hkey
    rw [ha] at hvalue
    exact ⟨⟨n, hkey.atom_eq, by rw [← hz.length_eq]; exact hle⟩, a, hvalue.atom_eq⟩
  refine ⟨entries, v :: ids, .table hself hnodup hz, .inl (isList_iff.mpr fun e he => (hleaf e he).1), ?_⟩
  have hle : depthAll entries ≤ 1 := depthAll_le fun e he => by
    obtain ⟨⟨n, hn, -⟩, a, ha⟩ := hleaf e he
    rw [hn, ha, Nested.depth, Nested.depth]
    omega
  rw [Nested.depth]
  omega

theorem accepted_tags (hr : Regular h) {v : Nat} {texts : List Bytes} (hlt : v < h.length)
    (hvalid : validateSchemaList L ⟨true, false, false, false⟩ h v = true) :
    Accepted h (pushVariantTags h texts).1 v (pushVariantTags h texts).2 := by
  obtain ⟨t, hself⟩ : ∃ t, h[v]? = some t := ⟨_, List.getElem?_eq_getElem hlt⟩
  have hes : h.entries v = t.entries := by
    rw [Heap.entries, hself]
    rfl
  have hnodup : ((h.entries v).map (·.1)).Nodup := by
    rw [hes]
    exact hr.keys hself
  have hstrings := entries_of_validateSchemaList hnodup hvalid
  obtain ⟨es', hshown, hproxy, hdata, hnumbers, hlater⟩ := pushVariantTags_spec h texts
  have hbound : ∀ {i : Nat} {t : Table Scalar}, (pushVariantTags h texts).1[i]? = some t →
      i < (pushVariantTags h texts).1.length := fun hget => (List.getElem?_eq_some_iff.mp hget).1
  have hnames : ∀ e ∈ t.entries, ∃ n, e.1 = .atom (numbers.index n) := by
    intro e he
    rw [← hes] at he
    obtain ⟨⟨n, hn, -⟩, -⟩ := hstrings e he
    exact ⟨n, hn⟩
  refine ⟨hlater, ⟨h.length, t, es', ?_, hdata, (hlater v hlt).trans hself, ?_,
    .inr (.inr ⟨Nat.le_refl _, hbound hdata⟩), .inl rfl, ?_, ?_⟩, ?_⟩
  · rw [hshown]
    exact hproxy
  · rw [hshown]
    exact .inr (.inr ⟨by omega, hbound hproxy⟩)
  · intro i hi
    obtain ⟨hnil, hin⟩ := hr.behind hself hi
    refine ⟨hnil, by have := hbound hdata; omega, .inr (.inl ?_)⟩
    rw [Heap.behind, hself]
    exact hi
  · intro name
    rw [lookup_name_of_numbers hnames, lookup_name_of_numbers hnumbers]
    rfl
  · intro hne
    exact shaped_of_strings (hr.get hne).1 hnodup hstrings

theorem VariantShows.accepted (hr : Regular h) {v shown : Nat} (hlt : v < h.length)
    (hs : VariantShows L h v h' shown) : Accepted h h' v shown := by
  cases hs with
  | value hcollect hroom hcopy => exact accepted_value hr hcollect hroom hcopy
  | tags hvalid _ => exact accepted_tags hr hlt hvalid

end Accepted

section Sites

variable {L : Lengths numbers} {own : Nat → Prop} {h : Heap Scalar} {v shown data : Nat} {t : Table Scalar}
  {copied : List (Value Scalar × Value Scalar)}

/-- The places that take a table. -/
inductive Site where
  | list (schema : Option ItemTypes) (reader : Reader)
  | files (ctx : Context) (answer : ∀ q : Question, q.Answer)
  | argsIf
  | copy
  | append
  | merge
  | extend

/-- Everything that is there stays as it is. -/
def Later (h h₂ : Heap Scalar) : Prop := ∀ i < h.length, h₂[i]? = h[i]?

theorem Later.keeps {h₂ : Heap Scalar} (hl : Later h h₂) : Keeps own h h₂ := fun i _ hi => hl i hi

/-- The place makes the same of the read-only table as of the table it shows, or refuses it. For
the helpers that take more tables this is asked of every call whose arguments before it are
plain nested tables, and whose base takes none of the tables that the variant made or was given. -/
def Faithful (L : Lengths numbers) (own : Nat → Prop) (h : Heap Scalar) (v shown : Nat) : Site → Prop
  | .list schema reader => SameOrError (readListField L schema reader h v) (readListField L schema reader h shown)
  | .files ctx answer => SameOrError (filesOfTable L answer ctx h v) (filesOfTable L answer ctx h shown)
  | .argsIf => SameOrError (argsIf L h v) (argsIf L h shown)
  | .copy => SameTableOrError (copy h (some (.table v))) (copy h (some (.table shown)))
  | .append => ∀ (h₂ : Heap Scalar) (before after : List (Option (Value Scalar))) (tables : List (Entries Scalar)),
      Later h h₂ → List.Forall₂ (Argument h₂ []) before tables →
      SameTableOrError (append L h₂ (before ++ some (.table v) :: after))
        (append L h₂ (before ++ some (.table shown) :: after))
  | .merge => ∀ (h₂ : Heap Scalar) (before after : List (Option (Value Scalar))) (tables : List (Entries Scalar)),
      Later h h₂ → List.Forall₂ (Argument h₂ []) before tables →
      SameTableOrError (merge L h₂ (before ++ some (.table v) :: after))
        (merge L h₂ (before ++ some (.table shown) :: after))
  | .extend => ∀ (h₂ : Heap Scalar) (base : Nat) (entries : Entries Scalar) (ids : List Nat)
      (before after : List (Option (Value Scalar))) (tables : List (Entries Scalar)), Later h h₂ →
      Holds h₂ (.table base) (.node entries) ids → ids.Nodup → (Nested.node entries).Throughout (Plain kindMark) →
      (∀ i ∈ ids, ¬own i) → List.Forall₂ (Argument h₂ ids) before tables →
      SameTableOrError (extend L h₂ (some (.table base) :: (before ++ some (.table v) :: after)))
        (extend L h₂ (some (.table base) :: (before ++ some (.table shown) :: after)))

/-- The table has nothing that the place would read: no items for a reader of items, no entries
where a declaration is checked or entries are copied; or the place refuses it for what it has
itself under a name. -/
def ReadAlike (L : Lengths numbers) (h : Heap Scalar) (v : Nat) : Site → Prop
  | .list schema _ => L.len h v = 0 ∧ (schema ≠ none → h.entries v = [])
  | .files ctx _ => (∃ a, h.rawget v (.atom (.string (ascii "exclude"))) = some (.atom a)) ∨
      (L.len h v = 0 ∧ ExcludesPlain L ctx h v)
  | .argsIf => L.len h v = 0
  | .copy => h.entries v = []
  | .append => h.entries v = [] ∧ plainTable h v = true
  | .merge | .extend => (h.entries v = [] ∧ plainTable h v = true) ∨ ownKind h v = true

theorem list_iff {schema : Option ItemTypes} {reader : Reader} (hs : Shows own h v shown data t copied) :
    Faithful L own h v shown (.list schema reader) ↔ ReadAlike L h v (.list schema reader) := by
  rw [Faithful, ReadAlike, readListField_of_no_entries hs.empty, sameOrError_ok]
  exact readListField_nil_iff schema reader

theorem argsIf_iff (hs : Shows own h v shown data t copied) :
    Faithful L own h v shown .argsIf ↔ ReadAlike L h v .argsIf := by
  have hshown : argsIf L h shown = .ok [] := readItems_of_len_zero (len_of_no_entries hs.empty)
  rw [Faithful, ReadAlike, hshown, sameOrError_ok]
  exact argsIf_nil_iff

theorem files_iff {ctx : Context} {answer : ∀ q : Question, q.Answer} (hs : Shows own h v shown data t copied)
    (hlist : L.len h v ≠ 0 → h.gettable v (.atom (.string (ascii "exclude"))) = none) :
    Faithful L own h v shown (.files ctx answer) ↔ ReadAlike L h v (.files ctx answer) := by
  have hfield := hs.gettable (ascii "exclude")
  have hlen : L.len h shown = 0 := len_of_no_entries hs.empty
  rw [Faithful, ReadAlike, ← filesOfTable_nil_iff answer hlist]
  unfold FieldShown at hfield
  split at hfield
  · rename_i hnone
    have hshown : filesOfTable L answer ctx h shown = .ok (false, []) :=
      filesOfTable_of_len_zero hlen (by rw [excludePatterns, hfield]) rfl
    rw [hshown, sameOrError_ok, hnone]
    constructor
    · exact .inr
    · rintro (⟨a, ha⟩ | hnil)
      · cases ha
      · exact hnil
  · rename_i a hatom
    obtain ⟨a', -, heq⟩ := hfield
    have hshown : filesOfTable L answer ctx h shown = .error .notList := by
      rw [filesOfTable, excludePatterns, heq]
      rfl
    rw [hshown]
    exact ⟨fun _ => .inl ⟨a, hatom⟩, fun _ => .inr ⟨_, rfl⟩⟩
  · rename_i id htable
    obtain ⟨q, behind, heq, hq, -⟩ := hfield
    have hempty : h.entries q = [] := by
      rw [Heap.entries, hq]
      rfl
    have hshown : filesOfTable L answer ctx h shown = .ok (false, []) := by
      have hpatterns : excludePatterns L h shown = .ok [] := by
        rw [excludePatterns, heq]
        exact readItems_of_len_zero (len_of_no_entries hempty)
      exact filesOfTable_of_len_zero hlen hpatterns rfl
    rw [hshown, sameOrError_ok, htable]
    constructor
    · exact .inr
    · rintro (⟨a, ha⟩ | hnil)
      · cases ha
      · exact hnil

/-- What is known of the entries of a table that a variant accepts. -/
def EntriesShaped (h : Heap Scalar) (v : Nat) : Prop :=
  h.entries v ≠ [] → ∃ entries ids, Holds h (.table v) (.node entries) ids ∧ Shaped entries

/-- A table with items is a list, and has nothing under names. -/
theorem EntriesShaped.gettable_name (he : EntriesShaped h v) (hlen : L.len h v ≠ 0) (name : Bytes) :
    h.gettable v (.atom (.string name)) = none := by
  by_cases hnil : h.entries v = []
  · exact absurd (len_of_no_entries hnil) hlen
  · obtain ⟨entries, ids, ht, hshaped⟩ := he hnil
    rw [ht.gettable]
    rcases hshaped.shape with hl | ⟨-, hnames⟩
    · rcases ht.rawget (Holds.atom (Scalar.string name)) (fun _ _ hin => by cases hin) with
        ⟨hraw, -⟩ | ⟨value, nested, valueIds, -, hfind, -⟩
      · exact hraw
      · obtain ⟨e, he, hsame, -⟩ := mem_of_find hfind
        obtain ⟨n, hn, -⟩ := isList_iff.mp hl e he
        rw [hn] at hsame
        simp [Nested.same, numbers] at hsame
    · refine absurd (len_of_no_numbers fun n => ?_) hlen
      rcases ht.rawget (Holds.atom (numbers.index n)) (fun _ _ hin => by cases hin) with
        ⟨hraw, -⟩ | ⟨value, nested, valueIds, -, hfind, -⟩
      · exact hraw
      · obtain ⟨e, he, hsame, -⟩ := mem_of_find hfind
        obtain ⟨s, hs⟩ := hnames e he
        rw [hs] at hsame
        simp [Nested.same, numbers] at hsame

theorem copy_iff (hs : Shows own h v shown data t copied) (he : EntriesShaped h v) :
    Faithful L own h v shown .copy ↔ ReadAlike L h v .copy := by
  have hshown : copy h (some (.table shown)) = .ok (h.alloc, .table h.length) :=
    pushValueCopy_of_no_entries hs.empty (by omega)
  rw [Faithful, ReadAlike, hshown]
  constructor
  · intro hsame
    by_contra hne
    obtain ⟨entries, ids, ht, hshaped⟩ := he hne
    have hdepth := hshaped.depth
    obtain ⟨h₁, x, hrun, ids₁, -, hx, -⟩ := copy_spec ht (by omega)
    refine not_sameTableOrError hrun hx (holds_alloc h) ?_ hsame
    intro hnil
    cases hnil
    exact hne ht.entries_nil
  · intro hnil
    have hplain : copy h (some (.table v)) = .ok (h.alloc, .table h.length) :=
      pushValueCopy_of_no_entries hnil (by omega)
    rw [hplain]
    exact .inl (sameTable_refl _)

theorem Later.length_le {h₂ : Heap Scalar} (hl : Later h h₂) : h.length ≤ h₂.length := by
  by_contra hlt
  push Not at hlt
  have hsame := hl h₂.length hlt
  rw [List.getElem?_eq_none (Nat.le_refl _), List.getElem?_eq_getElem hlt] at hsame
  cases hsame

theorem Later.trans {h₁ h₂ : Heap Scalar} (hl : Later h h₁) (hl' : Later h₁ h₂) : Later h h₂ := by
  intro i hi
  have hlen := hl.length_le
  exact (hl' i (by omega)).trans (hl i hi)

theorem later_alloc (h : Heap Scalar) : Later h h.alloc := fun i hi => (updated_alloc h).frame i hi List.not_mem_nil

theorem later_of_updated {h₂ : Heap Scalar} {ids : List Nat} (hu : Updated h h₂ [] ids) : Later h h₂ :=
  fun i hi => hu.frame i hi List.not_mem_nil

/-- Work on a table outside, and on new ones, keeps what is one's own. -/
theorem keeps_of_updated {h₂ : Heap Scalar} {work work' : List Nat} (hu : Updated h h₂ work work')
    (hout : ∀ i ∈ work, ¬own i) : Keeps own h h₂ := fun i hown hi => hu.frame i hi fun hin => hout i hin hown

/-- An empty plain table and the read-only table for it are appended alike. -/
theorem append_eq_of_no_entries {before after : List (Option (Value Scalar))} {tables : List (Entries Scalar)}
    (hs : Shows own h v shown data t copied) (hnil : h.entries v = []) (hplain : plainTable h v = true)
    (hbefore : List.Forall₂ (Argument h []) before tables) :
    append L h (before ++ some (.table shown) :: after) = append L h (before ++ some (.table v) :: after) := by
  cases hbefore with
  | nil =>
    have hk : Keeps own h h.alloc := (later_alloc h).keeps
    simp only [List.nil_append, append, arrayTable_of_no_entries hnil, arrayTable_of_no_entries hs.empty,
      hs.plainTable_shown, ownKind_of_no_entries hnil, Bool.not_false, hplain, if_true,
      appendListCopy_of_no_entries ((hs.entries_kept hk).trans hnil),
      appendListCopy_of_no_entries (hs.kept hk).empty]
  | @cons arg entries rest tables harg hrest =>
    obtain ⟨first, firstIds, rfl, hfirst, -, hp, -⟩ := id harg
    simp only [List.cons_append, append]
    by_cases harray : arrayTable L h first = true
    · simp only [harray, if_true]
      have hlist : isList numbers entries = true := by
        rw [← arrayTable_eq L hfirst (throughout_node.mp hp).1]
        exact harray
      obtain ⟨h₁, ids₁, hone, hu₁, hdst₁⟩ := appendArgument_spec L (holds_alloc h)
        (updated_alloc h).nodup rfl (argument_alloc harg)
      have hfirst' : arrayTable L h.alloc first = true := by
        rw [arrayTable_eq L (hfirst.updated (updated_alloc h) fun _ _ hin => by cases hin)
          (throughout_node.mp hp).1, hlist]
      simp only [appendArgument, hfirst', if_true] at hone
      rw [List.length_nil, Nat.zero_add] at hone
      obtain ⟨s, ids', hrun, hu, -⟩ := appendArguments_spec L hdst₁ hu₁.nodup (appendItems_isList rfl _)
        (hrest.imp fun _ _ ha => (argument_alloc ha).updated hu₁)
      have hk : Keeps own h s.1 := (later_of_updated (((updated_alloc h).trans hu₁).trans hu)).keeps
      have heq : appendArgument L h.length (s.1, s.2) (some (.table shown)) =
          appendArgument L h.length (s.1, s.2) (some (.table v)) :=
        (hs.kept hk).appendArgument_eq ((hs.entries_kept hk).trans hnil) ((hs.plain_kept hk).trans hplain)
      rw [hone]
      change ((rest ++ some (.table shown) :: after).foldlM (appendArgument L h.length) _ >>= _) =
        ((rest ++ some (.table v) :: after).foldlM (appendArgument L h.length) _ >>= _)
      rw [List.foldlM_append, List.foldlM_append, hrun]
      change ((appendArgument L h.length (s.1, s.2) (some (.table shown)) >>= _) >>= _) =
        ((appendArgument L h.length (s.1, s.2) (some (.table v)) >>= _) >>= _)
      rw [heq]
    · simp only [if_neg harray]

theorem Shaped.index_or_name {entries : Entries Scalar} (hshaped : Shaped entries) :
    isList numbers entries = true ∨ ∃ e ∈ entries, ∃ s, e.1 = .leaf (.string s) := by
  rcases hshaped.shape with hl | ⟨hne, hnames⟩
  · exact .inl hl
  · obtain ⟨e, he⟩ := List.exists_mem_of_ne_nil entries hne
    exact .inr ⟨e, he, hnames e he⟩

/-- What is appended to a list that is new and empty. -/
theorem append_to_empty {x : Nat} {s : Heap Scalar × Nat}
    (hrun : appendArgument L h.alloc.length (h.alloc.alloc, 1) (some (.table x)) = .ok s) :
    append L h.alloc [some (.table h.length), some (.table x)] = .ok (s.1, .table h.alloc.length) := by
  have hempty : Holds h.alloc (.table h.length) (.node []) [h.length] := holds_alloc h
  have hfirst : arrayTable L h.alloc h.length = true := arrayTable_eq L hempty (throughout_node.mp throughout_nil).1
  have hstart : appendListCopy L h.alloc.alloc h.alloc.length h.length 1 65 = .ok (h.alloc.alloc, 1) :=
    appendListCopy_of_no_entries (hempty.frame fun id hid => later_alloc h.alloc id (hempty.lt id hid)).entries_nil
  simp only [append, hfirst, if_true]
  rw [hstart]
  change (([some (Value.table x)] : List (Option (Value Scalar))).foldlM (appendArgument L h.alloc.length)
    (h.alloc.alloc, 1) >>= _) = _
  rw [List.foldlM_cons, hrun]
  rfl

/-- A table with entries is appended to an empty list otherwise than the read-only table for it. -/
theorem append_differ {entries : Entries Scalar} {ids : List Nat} (hs : Shows own h v shown data t copied)
    (ht : Holds h (.table v) (.node entries) ids) (hshaped : Shaped entries) (hne : entries ≠ []) :
    ¬Faithful L own h v shown .append := by
  intro hfaithful
  have hlater := (later_alloc h).trans (later_alloc h.alloc)
  have hempty : Holds h.alloc (.table h.length) (.node []) [h.length] := holds_alloc h
  have harg : Argument h.alloc [] (some (.table h.length)) [] :=
    ⟨h.length, [h.length], rfl, hempty, fun _ _ => List.not_mem_nil, throughout_nil, by decide⟩
  have hsame := hfaithful h.alloc [some (.table h.length)] [] [[]] (later_alloc h) (.cons harg .nil)
  have hapart : ∀ id ∈ ids, id ∉ [h.alloc.length] := by
    intro id hid hin
    have hlt := ht.lt id hid
    have hgrown := (updated_alloc h).grown
    rw [List.mem_singleton.mp hin] at hlt
    omega
  obtain ⟨s, s', r, r', ids₁, ids₂, hrun, hrun', hresult, hresult', hdiffer⟩ := appendArgument_differ (L := L)
    (hs.kept hlater.keeps) (ht.frame fun id hid => hlater id (ht.lt id hid)) (holds_alloc h.alloc)
    (List.nodup_singleton _) hapart hshaped.depth hshaped.index_or_name hne
  change SameTableOrError (append L h.alloc [some (.table h.length), some (.table v)])
    (append L h.alloc [some (.table h.length), some (.table shown)]) at hsame
  rw [append_to_empty hrun'] at hsame
  exact not_sameTableOrError (append_to_empty hrun) hresult hresult' hdiffer hsame

/-- The read-only table for an empty table is copied into a new list, which a table with a kind
is not. -/
theorem append_refused (hs : Shows own h v shown data t copied) (hnil : h.entries v = [])
    (hkind : plainTable h v = false) : ¬Faithful L own h v shown .append := by
  intro hfaithful
  have hsame := hfaithful h [] [] [] (fun _ _ => rfl) .nil
  have hempty := (hs.kept (later_alloc h).keeps).empty
  have hrefused : append L h [some (.table v)] = .error .notList := by
    simp only [append, arrayTable_of_no_entries hnil, hkind, Bool.false_eq_true, if_false]
  have hshown : append L h [some (.table shown)] = .ok (h.alloc, .table h.length) := by
    simp only [append, arrayTable_of_no_entries hs.empty, hs.plainTable_shown, ownKind_of_no_entries hnil,
      Bool.not_false, if_true]
    rw [appendListCopy_of_no_entries hempty]
    rfl
  rw [List.nil_append, List.nil_append, hrefused, hshown] at hsame
  rcases hsame with hfalse | ⟨e, he⟩
  · exact hfalse
  · cases he

theorem append_iff (hs : Shows own h v shown data t copied) (he : EntriesShaped h v) :
    Faithful L own h v shown .append ↔ ReadAlike L h v .append := by
  constructor
  · intro hfaithful
    by_cases hnil : h.entries v = []
    · refine ⟨hnil, ?_⟩
      by_contra hkind
      exact append_refused hs hnil (Bool.eq_false_iff.mpr hkind) hfaithful
    · obtain ⟨entries, ids, ht, hshaped⟩ := he hnil
      refine absurd hfaithful (append_differ hs ht hshaped ?_)
      intro hentries
      rw [hentries] at ht
      exact hnil ht.entries_nil
  · rintro ⟨hnil, hplain⟩ h₂ before after tables hlater hbefore
    have hk : Keeps own h h₂ := hlater.keeps
    rw [append_eq_of_no_entries (hs.kept hk) ((hs.entries_kept hk).trans hnil) ((hs.plain_kept hk).trans hplain) hbefore]
    exact .inl (sameTable_refl _)

/-- What is left of the merge of the arguments at two empty tables, or two with a kind. -/
theorem mergeArguments_shown {h' : Heap Scalar} {dst : Nat} {work work' : List Nat}
    (hs : Shows own h v shown data t copied) (refusal : HelperError) {before after : List (Option (Value Scalar))}
    (hbefore : mergeArguments L refusal h dst before = .ok h') (hu : Updated h h' work work')
    (hout : ∀ i ∈ work, ¬own i) (halike : (h.entries v = [] ∧ plainTable h v = true) ∨ ownKind h v = true) :
    mergeArguments L refusal h dst (before ++ some (.table shown) :: after)
      = mergeArguments L refusal h dst (before ++ some (.table v) :: after) := by
  have hk : Keeps own h h' := keeps_of_updated hu hout
  refine (hs.kept hk).mergeArguments_eq refusal hbefore ?_
  rw [hs.entries_kept hk, hs.plain_kept hk, hs.kind_kept hk]
  exact halike

/-- The table is merged into a new one as the read-only table for it is, or refused as that is. -/
theorem alike_of_new (hs : Shows own h v shown data t copied) (he : EntriesShaped h v) (refusal : HelperError)
    (hsame : SameTableOrError
      ((mergeArguments L refusal h.alloc h.length [some (.table v)]).map fun h' => (h', .table h.length))
      ((mergeArguments L refusal h.alloc h.length [some (.table shown)]).map fun h' => (h', .table h.length))) :
    (h.entries v = [] ∧ plainTable h v = true) ∨ ownKind h v = true := by
  have hk : Keeps own h h.alloc := (later_alloc h).keeps
  have hs' := hs.kept hk
  by_cases hkind : ownKind h v = true
  · exact .inr hkind
  · left
    have hshown : mergeArguments L refusal h.alloc h.length [some (.table shown)] = .ok h.alloc := by
      rw [mergeArguments, List.foldlM_cons]
      simp only [hs'.plainTable_shown, hs.kind_kept hk, Bool.eq_false_iff.mpr hkind, Bool.not_false, if_true,
        mergeArgument_of_no_entries hs'.empty]
      rfl
    rw [hshown] at hsame
    have hplain : plainTable h.alloc v = true := by
      by_contra hrefused
      have hrun : mergeArguments L refusal h.alloc h.length [some (.table v)] = .error refusal := by
        rw [mergeArguments, List.foldlM_cons]
        simp only [if_neg hrefused]
        rfl
      rw [hrun] at hsame
      rcases hsame with hfalse | ⟨e, herror⟩
      · exact hfalse
      · cases herror
    refine ⟨?_, (hs.plain_kept hk).symm.trans hplain⟩
    by_contra hne
    obtain ⟨entries, ids, ht, hshaped⟩ := he hne
    have hne' : entries ≠ [] := by
      intro hnil
      rw [hnil] at ht
      exact hne ht.entries_nil
    have hapart : ∀ id ∈ ids, id ∉ [h.length] := by
      intro id hid hin
      have hlt := ht.lt id hid
      rw [List.mem_singleton.mp hin] at hlt
      omega
    obtain ⟨h', entries', ids', hrun, hresult, hdiffer⟩ :=
      mergeArgument_nonempty (L := L) (ht.updated (updated_alloc h) fun _ _ hin => by cases hin) (holds_alloc h)
        (List.nodup_singleton _) hapart hshaped.depth hshaped.index_or_name hne'
    have hrun' : mergeArguments L refusal h.alloc h.length [some (.table v)] = .ok h' := by
      rw [mergeArguments, List.foldlM_cons]
      simp only [hplain, if_true, hrun]
      rfl
    rw [hrun'] at hsame
    exact not_sameTableOrError rfl hresult (holds_alloc h) (fun heq => hdiffer (Nested.node.inj heq)) hsame

theorem merge_eq (h : Heap Scalar) (args : List (Option (Value Scalar))) :
    merge L h args = (mergeArguments L .mergeNotPlain h.alloc h.length args).map fun h' => (h', .table h.length) := by
  rw [merge]
  cases mergeArguments L .mergeNotPlain h.alloc h.length args <;> rfl

theorem extend_eq {base : Nat} (args : List (Option (Value Scalar))) (hplain : plainTable h base = true) :
    extend L h (some (.table base) :: args)
      = (mergeArguments L .overlayNotPlain h base args).map fun h' => (h', .table base) := by
  simp only [extend, hplain, if_true]
  cases mergeArguments L .overlayNotPlain h base args <;> rfl

theorem merge_iff (hs : Shows own h v shown data t copied) (he : EntriesShaped h v)
    (hown : ∀ i, own i → i < h.length) :
    Faithful L own h v shown .merge ↔ ReadAlike L h v .merge := by
  constructor
  · intro hfaithful
    have hsame := hfaithful h [] [] [] (fun _ _ => rfl) .nil
    rw [merge_eq, merge_eq] at hsame
    exact alike_of_new hs he .mergeNotPlain hsame
  · intro halike h₂ before after tables hlater hbefore
    have hk : Keeps own h h₂.alloc := (hlater.trans (later_alloc h₂)).keeps
    obtain ⟨h', ids', hrun, hu, -⟩ := mergeArguments_spec L .mergeNotPlain (holds_alloc h₂)
      (updated_alloc h₂).nodup throughout_nil (hbefore.imp fun _ _ ha => argument_alloc ha)
    have hout : ∀ i ∈ [h₂.length], ¬own i := by
      intro i hi hin
      have hlt := hown i hin
      have hlen := hlater.length_le
      rw [List.mem_singleton.mp hi] at hlt
      omega
    have halike' : (h₂.alloc.entries v = [] ∧ plainTable h₂.alloc v = true) ∨ ownKind h₂.alloc v = true := by
      rw [hs.entries_kept hk, hs.plain_kept hk, hs.kind_kept hk]
      exact halike
    rw [merge_eq, merge_eq, mergeArguments_shown (hs.kept hk) .mergeNotPlain hrun hu hout halike']
    exact .inl (sameTable_refl _)

theorem extend_iff (hs : Shows own h v shown data t copied) (he : EntriesShaped h v)
    (hown : ∀ i, own i → i < h.length) :
    Faithful L own h v shown .extend ↔ ReadAlike L h v .extend := by
  constructor
  · intro hfaithful
    have hfree : ∀ i ∈ [h.length], ¬own i := by
      intro i hi hin
      have hlt := hown i hin
      rw [List.mem_singleton.mp hi] at hlt
      omega
    have hsame := hfaithful h.alloc h.length [] [h.length] [] [] [] (later_alloc h) (holds_alloc h)
      (List.nodup_singleton _) throughout_nil hfree .nil
    have hbase : plainTable h.alloc h.length = true :=
      plainTable_of_holds (holds_alloc h) (throughout_node.mp throughout_nil).1.unmarked
    rw [extend_eq _ hbase, extend_eq _ hbase] at hsame
    exact alike_of_new hs he .overlayNotPlain hsame
  · intro halike h₂ base baseEntries baseIds before after tables hlater hbase hnodup hp hfree hbefore
    have hk : Keeps own h h₂ := hlater.keeps
    obtain ⟨h', ids', hrun, hu, -⟩ := mergeArguments_spec L .overlayNotPlain hbase hnodup hp hbefore
    have halike' : (h₂.entries v = [] ∧ plainTable h₂ v = true) ∨ ownKind h₂ v = true := by
      rw [hs.entries_kept hk, hs.plain_kept hk, hs.kind_kept hk]
      exact halike
    have hplain := plainTable_of_holds hbase (throughout_node.mp hp).1.unmarked
    rw [extend_eq _ hplain, extend_eq _ hplain, mergeArguments_shown (hs.kept hk) .overlayNotPlain hrun hu hfree halike']
    exact .inl (sameTable_refl _)

/-- Where a table that `qstar.variant` accepts is given to a place that takes one, the place makes
the same of the read-only table through which the variant shows it, or refuses that, exactly where
the table has nothing that the place would read, or where the place refuses it for what it has under
a name. For each list field with items and each overlay with entries the read-only table is taken
for an empty one instead. -/
theorem readOnly_alike_iff (L : Lengths numbers) {h h' h₂ : Heap Scalar} {v shown : Nat} (hr : Regular h)
    (hv : v < h.length) (hs : VariantShows L h v h' shown) (hl : Later h' h₂) (site : Site) :
    Faithful L (variantTables h h' v) h₂ v shown site ↔ ReadAlike L h₂ v site := by
  obtain ⟨hlater, ⟨data, t, copied, hshows⟩, hshaped⟩ := hs.accepted hr hv
  have hk : Keeps (variantTables h h' v) h' h₂ := hl.keeps
  have hshows₂ := hshows.kept hk
  have hentries : h'.entries v = h.entries v := by rw [Heap.entries, Heap.entries, hlater v hv]
  have hlater' : Later h h' := hlater
  have hlater₂ : Later h h₂ := hlater'.trans hl
  have he : EntriesShaped h₂ v := by
    intro hne
    rw [hshows.entries_kept hk, hentries] at hne
    obtain ⟨entries, ids, ht, hentriesShaped⟩ := hshaped hne
    exact ⟨entries, ids, ht.frame fun id hid => hlater₂ id (ht.lt id hid), hentriesShaped⟩
  have hown : ∀ i, variantTables h h' v i → i < h₂.length := by
    intro i hi
    have hlen := hlater₂.length_le
    have hlen' := hl.length_le
    rcases hi with rfl | hbehind | ⟨-, hlt⟩
    · omega
    · obtain ⟨t₀, ht₀, hbehind⟩ := Option.bind_eq_some_iff.mp hbehind
      have hin := (hr.behind ht₀ hbehind).2
      omega
    · omega
  cases site with
  | list schema reader => exact list_iff hshows₂
  | files ctx answer => exact files_iff hshows₂ fun hlen => he.gettable_name hlen _
  | argsIf => exact argsIf_iff hshows₂
  | copy => exact copy_iff hshows₂ he
  | append => exact append_iff hshows₂ he
  | merge => exact merge_iff hshows₂ he hown
  | extend => exact extend_iff hshows₂ he hown

/-- A list of one file name. -/
def listHeap : Heap Scalar := [⟨[(int 1, name "a.c")], none⟩]

/-- The list, its data and its read-only table. -/
def shownHeap : Heap Scalar :=
  [⟨[(int 1, name "a.c")], none⟩, ⟨[(int 1, name "a.c")], none⟩, ⟨[], some 1⟩]

/-- The check and the reader of a list of sources. -/
def sourcesSite : Site := .list (some ⟨true, false, false, true⟩) (.tablePathStrings (ascii "lib"))

theorem variantShows_listHeap : VariantShows (leastLengths numbers) listHeap 0 shownHeap 2 := by
  have hcollect : collectVariantValues listHeap 2 (ascii "sources") (some (.table 0))
      = some [ascii "sources[1]:string=a.c"] := by decide +kernel
  have hcopy : pushReadonlyTableCopy listHeap 0 62 = some (shownHeap, 2) := by decide +kernel
  exact .value hcollect (by omega) hcopy

theorem regular_listHeap : Regular listHeap := by
  have hget : ∀ {id : Nat} {t : Table Scalar}, listHeap[id]? = some t → t = ⟨[(int 1, name "a.c")], none⟩ := by
    intro id t ht
    exact List.mem_singleton.mp (List.mem_of_getElem? ht)
  refine ⟨?_, ?_⟩
  · intro id t ht
    rw [hget ht]
    exact List.nodup_singleton _
  · intro id data t ht hbehind
    rw [hget ht] at hbehind
    cases hbehind

theorem readOnly_alike_list :
    Faithful (leastLengths numbers) (variantTables listHeap shownHeap 0) shownHeap 0 2 sourcesSite ↔
      ReadAlike (leastLengths numbers) shownHeap 0 sourcesSite :=
  readOnly_alike_iff (leastLengths numbers) regular_listHeap (by decide) variantShows_listHeap (fun _ _ => rfl) sourcesSite

/-- The read-only list of sources is read as one without sources. -/
theorem readOnly_list_dropped :
    VariantShows (leastLengths numbers) listHeap 0 shownHeap 2 ∧
      ¬Faithful (leastLengths numbers) (variantTables listHeap shownHeap 0) shownHeap 0 2 sourcesSite ∧
      (readListField (leastLengths numbers) (some ⟨true, false, false, true⟩) (.tablePathStrings (ascii "lib")) shownHeap
          0).toOption.map (·.map (·.path)) = some [ascii "a.c"] ∧
      (readListField (leastLengths numbers) (some ⟨true, false, false, true⟩) (.tablePathStrings (ascii "lib")) shownHeap
          2).toOption.map (·.map (·.path)) = some [] := by
  have hplain : (readListField (leastLengths numbers) (some ⟨true, false, false, true⟩)
      (.tablePathStrings (ascii "lib")) shownHeap 0).toOption.map (·.map (·.path)) = some [ascii "a.c"] := by
    decide +kernel
  have hshown : readListField (leastLengths numbers) (some ⟨true, false, false, true⟩)
      (.tablePathStrings (ascii "lib")) shownHeap 2 = .ok [] := readListField_of_no_entries rfl _ _
  refine ⟨variantShows_listHeap, ?_, hplain, ?_⟩
  · intro hfaithful
    rw [sourcesSite, Faithful, hshown, sameOrError_ok] at hfaithful
    rw [hfaithful] at hplain
    cases hplain
  · rw [hshown]
    rfl

end Sites

end QStar.Authoring.ReadOnlyTables
