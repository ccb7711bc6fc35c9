import QStar.Lib.Bindings
import QStar.Lib.Lines
import QStar.Lib.Results

/-!
# Command specifications

`qstar.command_spec` checks a table against the fields of a command and copies
it into read-only proxies; `qstar.command_set` copies such a specification back
into plain tables for the reader of commands. The first copy runs over the own
entries of every table, and a read-only proxy has none: what it shows to an
index is left out.
-/
namespace QStar.Authoring.CommandSpecs

open QStar.Lib.Bindings
open QStar.Lib.CStrings
open QStar.Lib.Lines
open QStar.Lib.Numerals
open QStar.Lib.Results

/-- A key of a table. `other` is a key that is neither a string nor a number. -/
inductive Key where
  | integer (i : Int64)
  /-- by the text Lua prints for it -/
  | float (text : Bytes)
  | string (s : Bytes)
  | other (typeName : Bytes) (tag : Nat)
  deriving DecidableEq

/-- A Lua value. What a read-only proxy shows are the entries of the table behind it. -/
inductive LuaValue where
  | boolean (b : Bool)
  | integer (i : Int64)
  | float (text : Bytes)
  | string (s : Bytes)
  | table (readonly : Bool) (entries : List (Key × LuaValue))
  | other (typeName : Bytes)

/-- `lua_istable` -/
def LuaValue.isTable : LuaValue → Bool
  | .table _ _ => true
  | _ => false

abbrev Entries := List (Key × LuaValue)

/-- The entries `lua_next` visits. -/
def rawEntries (readonly : Bool) (entries : Entries) : Entries :=
  if readonly then [] else entries

/-- `push_readonly_backing_table` -/
def pushReadonlyBackingTable : LuaValue → Option Entries
  | .table true entries => some entries
  | _ => none

/-- `lua_isstring(L, -2) || lua_isinteger(L, -2)` -/
def Key.named : Key → Bool
  | .other _ _ => false
  | _ => true

/-- `push_readonly_scalar_copy` -/
def pushReadonlyScalarCopy : LuaValue → Option LuaValue
  | .boolean b => some (.boolean b)
  | .integer i => some (.integer i)
  | .float text => some (.string (cString text))
  | .string s => some (.string (cString s))
  | .table _ _ => none
  | .other _ => none

/-- In what the two copies of a table differ. -/
structure CopyRule where
  /-- the entries that are visited -/
  source : Bool → Entries → Entries
  keyAllowed : Key → Bool
  /-- the copy is put behind a proxy -/
  readonly : Bool

/-- A copy of a value, with so many levels of tables at most. -/
def copyValue (rule : CopyRule) : Nat → LuaValue → Option LuaValue
  | 0, .table _ _ => none
  | levels + 1, .table readonly entries =>
    (mapValues (fun key v => if rule.keyAllowed key then copyValue rule levels v else none)
      (rule.source readonly entries)).map (.table rule.readonly)
  | _, v => pushReadonlyScalarCopy v

/-- `push_readonly_table_copy_depth` -/
def readonlyRule : CopyRule := ⟨rawEntries, fun _ => true, true⟩

/-- `push_plain_command_table_copy`: a proxy is read through to the table behind it. -/
def plainRule : CopyRule where
  source := fun readonly entries =>
    (pushReadonlyBackingTable (.table readonly entries)).getD (rawEntries readonly entries)
  keyAllowed := Key.named
  readonly := false

def pushReadonlyTableCopy (v : LuaValue) : Option LuaValue := copyValue readonlyRule 64 v

def pushPlainCommandTableCopy (v : LuaValue) : Option LuaValue := copyValue plainRule 64 v

inductive SchemaType where
  | string
  | boolean
  | integer
  | table
  deriving DecidableEq

/-- `qstar_lua_value_schema_type` -/
def schemaType : LuaValue → Option SchemaType
  | .string _ => some .string
  | .boolean _ => some .boolean
  | .integer _ => some .integer
  | .table _ _ => some .table
  | .float _ => none
  | .other _ => none

/-- `qstar_lua_value_type_name` -/
def valueTypeName : LuaValue → Bytes
  | .string _ => ascii "string"
  | .boolean _ => ascii "boolean"
  | .integer _ => ascii "integer"
  | .float _ => ascii "number"
  | .table _ _ => ascii "table"
  | .other typeName => typeName

def keyTypeName : Key → Bytes
  | .string _ => ascii "string"
  | .integer _ => ascii "integer"
  | .float _ => ascii "number"
  | .other typeName _ => typeName

structure FieldSchema where
  name : Bytes
  type : SchemaType
  /-- for a list, the type of its items -/
  itemType : Option SchemaType
  expected : Bytes
  itemExpected : Bytes

/-- `QSTAR_SCHEMA_FIELD` -/
def schemaField (name : String) (type : SchemaType) (expected : String) : FieldSchema :=
  ⟨ascii name, type, none, ascii expected, []⟩

/-- `QSTAR_SCHEMA_LIST` -/
def schemaList (name : String) (itemType : SchemaType) (itemExpected : String) : FieldSchema :=
  ⟨ascii name, .table, some itemType, ascii "list", ascii itemExpected⟩

/-- `qstar_command_schema` -/
def qstarCommandSchema : List FieldSchema :=
  [schemaField "description" .table "qstar.status(\"...\")",
    schemaField "options" .table "table",
    schemaList "env" .string "string",
    schemaField "working_dir" .string "string",
    schemaList "steps" .table "qstar.step.* value",
    schemaField "is_default" .boolean "boolean",
    schemaField "hidden" .boolean "boolean",
    schemaList "aliases" .string "string"]

/-- `qstar_lua_schema_find` -/
def schemaFind (schema : List FieldSchema) (name : Bytes) : Option FieldSchema :=
  schema.find? fun field => decide (field.name = name)

/-- The integer key `n`. -/
def position (n : Nat) : Key := .integer (.ofNat n)

/-- `lua_rawlen`: how many keys `1, 2, ..` in a row there are. -/
def rawLen (entries : Entries) : Nat :=
  ((List.range (entries.length + 1)).find? fun n => (entries.lookup (position (n + 1))).isNone).getD 0

/-- The entries are those of a list: their keys are `1, .., rawLen`. -/
def contiguous (entries : Entries) : Bool :=
  entries.all (fun e =>
    match e.1 with
    | .integer i => decide (1 ≤ i.toInt ∧ i.toInt ≤ rawLen entries)
    | _ => false) && entries.length == rawLen entries

/-- `qstar_lua_validate_schema_list`; the error is the detail of the message. -/
def validateSchemaList (field : FieldSchema) (itemType : SchemaType) (entries : Entries) :
    Except Bytes Unit :=
  if contiguous entries then
    (List.range (rawLen entries)).forM fun i =>
      match entries.lookup (position (i + 1)) with
      | some item =>
        if schemaType item = some itemType then .ok ()
        else .error (ascii "field '" ++ field.name ++ ascii "' item " ++ printUnsigned 10 (i + 1)
          ++ ascii " must be " ++ field.itemExpected ++ ascii ", got " ++ valueTypeName item)
      | none => .ok ()
  else
    .error (ascii "field '" ++ field.name
      ++ ascii "' must be a list with contiguous integer indexes starting at 1")

/-- One round of the loop of `qstar_lua_validate_declaration`. -/
def validateEntry (schema : List FieldSchema) (e : Key × LuaValue) : Except Bytes Unit :=
  match e.1 with
  | .string s =>
    match schemaFind schema (cString s) with
    | none => .error (ascii "unknown field '" ++ cString s ++ ascii "'")
    | some field =>
      if schemaType e.2 = some field.type then
        match field.itemType, e.2 with
        | some itemType, .table readonly entries =>
          validateSchemaList field itemType (rawEntries readonly entries)
        | _, _ => .ok ()
      else
        .error (ascii "field '" ++ field.name ++ ascii "' must be " ++ field.expected
          ++ ascii ", got " ++ valueTypeName e.2)
  | key => .error (ascii "field keys must be strings, got " ++ keyTypeName key)

/-- `qstar_lua_validate_declaration` -/
def validateDeclaration (schema : List FieldSchema) (entries : Entries) : Except Bytes Unit :=
  entries.forM (validateEntry schema)

def kindKey : Key := .string (ascii "__qstar_kind")

def nameKey : Key := .string (ascii "name")

/-- `make_command_spec`; the place in the build file is left out of the messages. -/
def makeCommandSpec (name : Bytes) (v : LuaValue) : Except Bytes LuaValue :=
  match v with
  | .table readonly entries =>
    match validateDeclaration qstarCommandSchema (rawEntries readonly entries) with
    | .error detail =>
      .error (ascii "qstar.command_spec declaration '"
        ++ (if cString name = [] then ascii "<unnamed>" else cString name) ++ ascii "': " ++ detail)
    | .ok () =>
      match (pushReadonlyTableCopy v).bind pushReadonlyBackingTable with
      | none =>
        .error (ascii "qstar: qstar.command_spec '" ++ cString name
          ++ ascii "' must contain only deterministic scalar and table values with nesting below 64 levels")
      | some data =>
        .ok (.table true (assign nameKey (.string (cString name))
          (assign kindKey (.string (ascii "command_spec")) data)))
  | _ => .error (ascii "table expected, got " ++ valueTypeName v)

/-- `lua_isstring(L, -1) ? lua_tostring(L, -1) : NULL` -/
def luaText : LuaValue → Option Bytes
  | .integer i => some (printInt i.toInt)
  | .float text => some text
  | .string s => some (cString s)
  | _ => none

/-- What the loop of `qstar_lua_command_set` gives to `add_project_command` for item `i`: the
name and the plain table. -/
def commandSetItem (i : Nat) (spec : LuaValue) : Except Bytes (Bytes × LuaValue) :=
  let refused := ascii "qstar: qstar.command_set item " ++ printUnsigned 10 i
  match pushReadonlyBackingTable spec with
  | none => .error (refused ++ ascii " must be an immutable qstar.command_spec value")
  | some data =>
    match (data.lookup kindKey).bind luaText, (data.lookup nameKey).bind luaText with
    | some kind, some name =>
      if kind = ascii "command_spec" ∧ name ≠ [] then
        match pushPlainCommandTableCopy spec with
        | some (.table readonly entries) =>
          .ok (name, .table readonly
            (entries.filter fun e => decide (e.1 ≠ kindKey ∧ e.1 ≠ nameKey)))
        | _ => .error (refused ++ ascii " could not be materialized")
      else .error (refused ++ ascii " must be an immutable qstar.command_spec value")
    | _, _ => .error (refused ++ ascii " must be an immutable qstar.command_spec value")

/-- `qstar_lua_command_set`: the commands it declares. -/
def commandSet (list : LuaValue) : Except Bytes (List (Bytes × LuaValue)) :=
  match list with
  | .table _ entries =>
    if rawLen entries = 0 then
      .error (ascii "qstar: qstar.command_set requires at least one qstar.command_spec value")
    else if contiguous entries then
      (List.range (rawLen entries)).mapM fun i =>
        commandSetItem (i + 1) ((entries.lookup (position (i + 1))).getD (.other (ascii "nil")))
    else .error (ascii "qstar: qstar.command_set expects a contiguous list starting at index 1")
  | _ =>
    .error (ascii "qstar: qstar.command_set expects exactly one list of qstar.command_spec values")

/-- What stands at the end of a path into a value. -/
inductive Leaf where
  | absent
  | boolean (b : Bool)
  | integer (i : Int64)
  | float (text : Bytes)
  | string (s : Bytes)
  | table
  | other (typeName : Bytes)
  deriving DecidableEq

def leaf : LuaValue → Leaf
  | .boolean b => .boolean b
  | .integer i => .integer i
  | .float text => .float text
  | .string s => .string s
  | .table _ _ => .table
  | .other typeName => .other typeName

/-- What the path leads to when a table has the entries that `source` gives. -/
def showsBy (source : Bool → Entries → Entries) : LuaValue → List Key → Leaf
  | v, [] => leaf v
  | .table readonly entries, key :: rest =>
    match (source readonly entries).lookup key with
    | some v => showsBy source v rest
    | none => .absent
  | _, _ :: _ => .absent

/-- What reading a value by indexing and `pairs` shows. -/
def shows : LuaValue → List Key → Leaf := showsBy fun _ entries => entries

/-- What `lua_pushstring(L, lua_tostring(L, idx))` makes of a string or a number that is no
integer. -/
def cut : Leaf → Leaf
  | .float text => .string (cString text)
  | .string s => .string (cString s)
  | l => l

theorem cString_cString (s : Bytes) : cString (cString s) = cString s := by
  apply cString_eq_self
  intro h
  have hne := List.mem_takeWhile_imp h
  simp at hne

theorem cut_cut (l : Leaf) : cut (cut l) = cut l := by
  cases l <;> simp [cut, cString_cString]

section Copies

variable {rule : CopyRule}

/-- A scalar is copied as `lua_pushstring` has it. -/
theorem leaf_scalarCopy {v w : LuaValue} (h : pushReadonlyScalarCopy v = some w) :
    leaf w = cut (leaf v) := by
  cases v <;> cases h <;> rfl

theorem scalarCopy_scalar {v w : LuaValue} (h : pushReadonlyScalarCopy v = some w) :
    w.isTable = false := by
  cases v <;> cases h <;> rfl

theorem copyValue_scalar {v : LuaValue} (hv : v.isTable = false) (levels : Nat) :
    copyValue rule levels v = pushReadonlyScalarCopy v := by
  cases v with
  | table readonly entries => cases hv
  | boolean b => cases levels <;> rfl
  | integer i => cases levels <;> rfl
  | float text => cases levels <;> rfl
  | string s => cases levels <;> rfl
  | other typeName => cases levels <;> rfl

/-- A table is copied entry by entry. -/
theorem copyValue_table {levels : Nat} {readonly : Bool} {entries : Entries} {w : LuaValue} :
    copyValue rule levels (.table readonly entries) = some w ↔ ∃ below copied, levels = below + 1 ∧
      mapValues (fun key v => if rule.keyAllowed key then copyValue rule below v else none)
        (rule.source readonly entries) = some copied ∧ w = .table rule.readonly copied := by
  cases levels with
  | zero =>
    constructor
    · nofun
    · rintro ⟨below, copied, hlevels, -⟩
      cases hlevels
  | succ below =>
    rw [copyValue, Option.map_eq_some_iff]
    constructor
    · rintro ⟨copied, hcopied, heq⟩
      exact ⟨below, copied, rfl, hcopied, heq.symm⟩
    · rintro ⟨_, copied, hlevels, hcopied, rfl⟩
      cases hlevels
      exact ⟨copied, hcopied, rfl⟩

/-- A copied value shows along every path what its original shows to the copying. -/
theorem shows_copyValue {levels : Nat} {v w : LuaValue} (h : copyValue rule levels v = some w)
    (path : List Key) : shows w path = cut (showsBy rule.source v path) := by
  induction path generalizing levels v w with
  | nil =>
    cases v with
    | table readonly entries =>
      obtain ⟨below, copied, -, -, rfl⟩ := copyValue_table.mp h
      rfl
    | boolean b => exact leaf_scalarCopy ((copyValue_scalar rfl levels).symm.trans h)
    | integer i => exact leaf_scalarCopy ((copyValue_scalar rfl levels).symm.trans h)
    | float text => exact leaf_scalarCopy ((copyValue_scalar rfl levels).symm.trans h)
    | string s => exact leaf_scalarCopy ((copyValue_scalar rfl levels).symm.trans h)
    | other typeName => exact leaf_scalarCopy ((copyValue_scalar rfl levels).symm.trans h)
  | cons key rest ih =>
    have hscalar : v.isTable = false → shows w (key :: rest) = .absent := by
      intro hv
      have hcopy := scalarCopy_scalar ((copyValue_scalar hv levels).symm.trans h)
      cases w with
      | table readonly entries => cases hcopy
      | _ => rfl
    cases v with
    | table readonly entries =>
      obtain ⟨below, copied, -, hcopied, rfl⟩ := copyValue_table.mp h
      have hlookup := lookup_mapValues hcopied key
      rw [shows, showsBy, showsBy, hlookup]
      cases hentry : (rule.source readonly entries).lookup key with
      | none => rfl
      | some v' =>
        obtain ⟨w', hw'⟩ := mapValues_isSome_iff.mp ⟨copied, hcopied⟩ (key, v') (mem_of_lookup hentry)
        rw [Option.bind_some, hw']
        split at hw'
        · exact ih hw'
        · cases hw'
    | boolean b => exact hscalar rfl
    | integer i => exact hscalar rfl
    | float text => exact hscalar rfl
    | string s => exact hscalar rfl
    | other typeName => exact hscalar rfl

end Copies

/-- A table has every key once, at every depth. -/
inductive Distinct : LuaValue → Prop where
  | scalar {v : LuaValue} : v.isTable = false → Distinct v
  | table {readonly : Bool} {entries : Entries} : (entries.map Prod.fst).Nodup →
      (∀ e ∈ entries, Distinct e.2) → Distinct (.table readonly entries)

/-- No number other than an integer, no string with a NUL byte and no read-only table that
shows anything, at any depth. -/
inductive Whole : LuaValue → Prop where
  | boolean (b : Bool) : Whole (.boolean b)
  | integer (i : Int64) : Whole (.integer i)
  | string {s : Bytes} : 0 ∉ s → Whole (.string s)
  | other (typeName : Bytes) : Whole (.other typeName)
  | emptyProxy : Whole (.table true [])
  | plain {entries : Entries} : (∀ e ∈ entries, Whole e.2) → Whole (.table false entries)

/-- Every key that is visited in a copy, at any depth, is a string or a number. -/
inductive Named : LuaValue → Prop where
  | scalar {v : LuaValue} : v.isTable = false → Named v
  | table {readonly : Bool} {entries : Entries} :
      (∀ e ∈ rawEntries readonly entries, e.1.named = true) →
      (∀ e ∈ rawEntries readonly entries, Named e.2) → Named (.table readonly entries)

theorem whole_of_shows {v : LuaValue} (hd : Distinct v)
    (h : ∀ path, cut (showsBy rawEntries v path) = shows v path) : Whole v := by
  induction hd with
  | @scalar v hv =>
    have hleaf := h []
    cases v with
    | boolean b => exact .boolean b
    | integer i => exact .integer i
    | float text => cases hleaf
    | string s =>
      refine .string ?_
      intro hmem
      have heq : cString s = s := Leaf.string.inj hleaf
      rw [← heq] at hmem
      have hne := List.mem_takeWhile_imp hmem
      simp at hne
    | table readonly entries => cases hv
    | other typeName => exact .other typeName
  | @table readonly entries hkeys hvalues ih =>
    cases readonly with
    | true =>
      cases entries with
      | nil => exact .emptyProxy
      | cons e rest =>
        have hfirst := h [e.1]
        rw [shows, showsBy, showsBy, lookup_of_mem hkeys List.mem_cons_self] at hfirst
        cases he : e.2 <;> rw [he] at hfirst <;> cases hfirst
    | false =>
      refine .plain ?_
      intro e he
      apply ih e he
      intro path
      have hpath := h (e.1 :: path)
      rw [shows, showsBy, showsBy, rawEntries, if_neg Bool.false_ne_true,
        lookup_of_mem hkeys he] at hpath
      exact hpath

theorem shows_of_whole {v : LuaValue} (hw : Whole v) (path : List Key) :
    cut (showsBy rawEntries v path) = shows v path := by
  induction hw generalizing path with
  | boolean b => cases path <;> rfl
  | integer i => cases path <;> rfl
  | string hs =>
    cases path with
    | nil => exact congrArg Leaf.string (cString_eq_self hs)
    | cons key rest => rfl
  | other typeName => cases path <;> rfl
  | emptyProxy => cases path <;> rfl
  | @plain entries hvalues ih =>
    cases path with
    | nil => rfl
    | cons key rest =>
      rw [shows, showsBy, showsBy, rawEntries, if_neg Bool.false_ne_true]
      cases hentry : entries.lookup key with
      | none => rfl
      | some v => exact ih (key, v) (mem_of_lookup hentry) rest

/-- A copied scalar can be copied again. -/
theorem scalarCopy_twice {v w : LuaValue} (h : pushReadonlyScalarCopy v = some w) :
    ∃ p, pushReadonlyScalarCopy w = some p := by
  cases v <;> cases h <;> exact ⟨_, rfl⟩

theorem plain_of_scalar {levels : Nat} {v w : LuaValue} (hv : v.isTable = false)
    (h : copyValue readonlyRule levels v = some w) : ∃ p, copyValue plainRule levels w = some p := by
  have hcopy := (copyValue_scalar hv levels).symm.trans h
  obtain ⟨p, hp⟩ := scalarCopy_twice hcopy
  exact ⟨p, (copyValue_scalar (scalarCopy_scalar hcopy) levels).trans hp⟩

/-- The plain copy of a proxy is made when that of every entry behind it is. -/
theorem plain_table_iff {below : Nat} {entries : Entries} :
    (∃ p, copyValue plainRule (below + 1) (.table true entries) = some p)
      ↔ ∀ e ∈ entries, e.1.named = true ∧ ∃ p, copyValue plainRule below e.2 = some p := by
  have hentry : ∀ e : Key × LuaValue,
      (∃ p, (if e.1.named then copyValue plainRule below e.2 else none) = some p)
        ↔ e.1.named = true ∧ ∃ p, copyValue plainRule below e.2 = some p := by
    intro e
    cases e.1.named <;> simp
  simp only [← hentry]
  constructor
  · rintro ⟨p, hp⟩
    obtain ⟨_, copied, hlevels, hcopied, -⟩ := copyValue_table.mp hp
    cases hlevels
    exact mapValues_isSome_iff.mp ⟨copied, hcopied⟩
  · intro hall
    have hsome : ∃ copied, mapValues
        (fun key v => if plainRule.keyAllowed key then copyValue plainRule below v else none)
        (plainRule.source true entries) = some copied := mapValues_isSome_iff.mpr hall
    obtain ⟨copied, hcopied⟩ := hsome
    exact ⟨_, copyValue_table.mpr ⟨below, copied, rfl, hcopied, rfl⟩⟩

/-- Of a read-only copy there is a plain copy just when all keys are strings or numbers. -/
theorem plain_of_readonly {levels : Nat} {v w : LuaValue}
    (h : copyValue readonlyRule levels v = some w) :
    (∃ p, copyValue plainRule levels w = some p) ↔ Named v := by
  induction levels generalizing v w with
  | zero =>
    cases hv : v.isTable with
    | true =>
      cases v with
      | table readonly entries => cases h
      | _ => cases hv
    | false => exact ⟨fun _ => .scalar hv, fun _ => plain_of_scalar hv h⟩
  | succ below ih =>
    cases hv : v.isTable with
    | false => exact ⟨fun _ => .scalar hv, fun _ => plain_of_scalar hv h⟩
    | true =>
      cases v with
      | table readonly entries =>
        obtain ⟨_, copied, hlevels, hcopied, rfl⟩ := copyValue_table.mp h
        cases hlevels
        rw [show readonlyRule.readonly = true from rfl, plain_table_iff]
        constructor
        · intro hall
          apply Named.table
          · intro e he
            obtain ⟨w', hw', -⟩ := exists_mem_mapValues hcopied he
            exact (hall _ hw').1
          · intro e he
            obtain ⟨w', hw', hcopy⟩ := exists_mem_mapValues hcopied he
            exact (ih hcopy).mp (hall _ hw').2
        · intro hnamed e he
          obtain ⟨v', hv', hcopy⟩ := mem_of_mem_mapValues hcopied he
          cases hnamed with
          | scalar hscalar => cases hscalar
          | table hkeys hvalues => exact ⟨hkeys (e.1, v') hv', (ih hcopy).mpr (hvalues (e.1, v') hv')⟩
      | _ => cases hv

/-- An entry that passes the check is for a field. -/
theorem validateEntry_field {schema : List FieldSchema} {e : Key × LuaValue}
    (h : validateEntry schema e = .ok ()) :
    ∃ s field, e.1 = .string s ∧ schemaFind schema (cString s) = some field := by
  rw [validateEntry] at h
  split at h
  · rename_i s hkey
    split at h
    · cases h
    · rename_i field hfield
      exact ⟨s, field, hkey, hfield⟩
  · cases h

/-- The keys of the two entries that mark a specification. -/
def marks (key : Key) : Prop := key = kindKey ∨ key = nameKey

/-- No field of a command has the name of a mark. -/
theorem not_marks_of_validated {entries : Entries}
    (h : validateDeclaration qstarCommandSchema entries = .ok ()) {e : Key × LuaValue} (he : e ∈ entries) :
    ¬ marks e.1 := by
  obtain ⟨s, field, hkey, hfield⟩ := validateEntry_field (forM_eq_ok h e he)
  have hunknown : ∀ s, marks (.string s) → schemaFind qstarCommandSchema (cString s) = none := by
    intro s hs
    rcases hs with heq | heq <;> cases heq <;> decide
  intro hmarks
  rw [hkey] at hmarks
  rw [hunknown s hmarks] at hfield
  cases hfield

/-- The entries behind a specification: those of the copied table and the two that mark it. -/
def marked (name : Bytes) (data : Entries) : Entries :=
  data ++ [(kindKey, .string (ascii "command_spec")), (nameKey, .string (cString name))]

/-- What an accepted specification consists of. -/
theorem makeCommandSpec_eq_ok {name : Bytes} {v spec : LuaValue} (h : makeCommandSpec name v = .ok spec) :
    ∃ data, copyValue readonlyRule 64 v = some (.table true data) ∧
      (∀ e ∈ data, ¬ marks e.1) ∧
      (∀ key rest, marks key → showsBy rawEntries v (key :: rest) = .absent) ∧
      spec = .table true (marked name data) := by
  cases v with
  | table readonly entries =>
    rw [makeCommandSpec] at h
    split at h
    · cases h
    · rename_i hvalid
      split at h
      · cases h
      · rename_i data hdata
        obtain ⟨w, hw, hback⟩ := Option.bind_eq_some_iff.mp hdata
        obtain ⟨below, copied, hlevels, hcopied, rfl⟩ := copyValue_table.mp hw
        cases hback
        have hkeys : ∀ e ∈ data, ¬ marks e.1 := by
          intro e he
          obtain ⟨v', hv', -⟩ := mem_of_mem_mapValues hcopied he
          exact not_marks_of_validated (e := (e.1, v')) hvalid hv'
        refine ⟨data, hw, hkeys, ?_, ?_⟩
        · intro key rest hkey
          have hnone : (rawEntries readonly entries).lookup key = none := by
            apply lookup_eq_none.mpr
            intro e he heq
            rw [← heq] at hkey
            exact not_marks_of_validated hvalid he hkey
          rw [showsBy, hnone]
        · cases h
          rw [assign_of_forall_ne (fun e he heq => hkeys e he (.inl heq)), assign_of_forall_ne]
          · rw [marked, List.append_assoc]
            rfl
          · intro e he heq
            rcases List.mem_append.mp he with he | he
            · exact hkeys e he (.inr heq)
            · rw [List.mem_singleton.mp he] at heq
              revert heq
              decide
  | _ => cases h

section Marked

variable {name : Bytes} {data : Entries} (hkeys : ∀ e ∈ data, ¬ marks e.1)

include hkeys

theorem lookup_kind : (marked name data).lookup kindKey = some (.string (ascii "command_spec")) := by
  have hnone : data.lookup kindKey = none := lookup_eq_none.mpr fun e he heq => hkeys e he (.inl heq)
  rw [marked, List.lookup_append, hnone, Option.none_or, List.lookup_cons_self]

theorem lookup_name : (marked name data).lookup nameKey = some (.string (cString name)) := by
  have hnone : data.lookup nameKey = none := lookup_eq_none.mpr fun e he heq => hkeys e he (.inr heq)
  rw [marked, List.lookup_append, hnone, Option.none_or, lookup_cons_ne (by decide), List.lookup_cons_self]

omit hkeys in
theorem lookup_marked {key : Key} (hkey : ¬ marks key) : (marked name data).lookup key = data.lookup key := by
  rw [marked, List.lookup_append, lookup_cons_ne (fun heq => hkey (.inl heq.symm)),
    lookup_cons_ne (fun heq => hkey (.inr heq.symm)), List.lookup_nil, Option.or_none]

/-- What a set of commands takes from a specification: its plain copy without the marks. -/
theorem commandSetItem_eq_ok {i : Nat} {built : Bytes × LuaValue} :
    commandSetItem i (.table true (marked name data)) = .ok built ↔ cString name ≠ [] ∧
      ∃ readonly entries,
        pushPlainCommandTableCopy (.table true (marked name data)) = some (.table readonly entries) ∧
        built = (cString name, .table readonly
          (entries.filter fun e => decide (e.1 ≠ kindKey ∧ e.1 ≠ nameKey))) := by
  have hkind : ((marked name data).lookup kindKey).bind luaText = some (ascii "command_spec") := by
    rw [lookup_kind hkeys]
    rfl
  have hname : ((marked name data).lookup nameKey).bind luaText = some (cString name) := by
    rw [lookup_name hkeys]
    exact congrArg some (cString_cString name)
  simp only [commandSetItem, pushReadonlyBackingTable, hkind, hname, true_and]
  by_cases hempty : cString name = []
  · simp [hempty]
  · rw [if_pos hempty]
    constructor
    · intro h
      split at h
      · rename_i readonly entries hcopy
        cases h
        exact ⟨hempty, readonly, entries, hcopy, rfl⟩
      · cases h
    · rintro ⟨-, readonly, entries, hcopy, rfl⟩
      rw [hcopy]

omit hkeys in
/-- The plain copy is made with the marks when it is without them. -/
theorem plain_marked_iff :
    (∃ p, pushPlainCommandTableCopy (.table true (marked name data)) = some p)
      ↔ ∃ p, copyValue plainRule 64 (.table true data) = some p := by
  rw [pushPlainCommandTableCopy, plain_table_iff, plain_table_iff, marked, List.forall_mem_append]
  constructor
  · exact fun h => h.1
  · intro h
    refine ⟨h, ?_⟩
    intro e he
    simp only [List.mem_cons, List.not_mem_nil, or_false] at he
    rcases he with rfl | rfl
    · exact ⟨rfl, _, rfl⟩
    · exact ⟨rfl, _, rfl⟩

end Marked

/-- The plain copy reads a value through its proxies. -/
theorem source_plainRule : plainRule.source = fun _ entries => entries := by
  funext readonly entries
  cases readonly <;> rfl

theorem shows_table_congr (readonly readonly' : Bool) {entries entries' : Entries} {key : Key}
    (h : entries.lookup key = entries'.lookup key) (rest : List Key) :
    shows (.table readonly entries) (key :: rest) = shows (.table readonly' entries') (key :: rest) := by
  rw [shows, showsBy, showsBy, h]

/-- The table a set of commands gets shows what the original shows to `lua_next`, with its
strings cut. -/
theorem shows_built {name : Bytes} {v : LuaValue} {data entries : Entries} {readonly : Bool}
    (hdata : copyValue readonlyRule 64 v = some (.table true data))
    (habsent : ∀ key rest, marks key → showsBy rawEntries v (key :: rest) = .absent)
    (hcopy : pushPlainCommandTableCopy (.table true (marked name data)) = some (.table readonly entries))
    (path : List Key) :
    shows (.table readonly (entries.filter fun e => decide (e.1 ≠ kindKey ∧ e.1 ≠ nameKey))) path
      = cut (showsBy rawEntries v path) := by
  cases path with
  | nil => exact shows_copyValue hdata []
  | cons key rest =>
    by_cases hmarks : marks key
    · have hnone : (entries.filter fun e => decide (e.1 ≠ kindKey ∧ e.1 ≠ nameKey)).lookup key = none := by
        apply lookup_eq_none.mpr
        intro e he heq
        have hkept := of_decide_eq_true (List.mem_filter.mp he).2
        rw [heq] at hkept
        rcases hmarks with hkind | hname
        · exact hkept.1 hkind
        · exact hkept.2 hname
      rw [habsent key rest hmarks, shows, showsBy, hnone]
      rfl
    · have hkept : (entries.filter fun e => decide (e.1 ≠ kindKey ∧ e.1 ≠ nameKey)).lookup key
          = entries.lookup key := by
        apply lookup_filter
        intro w
        exact decide_eq_true ⟨fun heq => hmarks (.inl heq), fun heq => hmarks (.inr heq)⟩
      have hplain := shows_copyValue hcopy (key :: rest)
      rw [source_plainRule, ← shows, shows_table_congr true true (lookup_marked hmarks),
        shows_copyValue hdata] at hplain
      rw [shows_table_congr readonly readonly hkept, hplain]
      exact cut_cut _

/-- The plain table a set of commands gets is made just when the specification has a name and
keys that are strings or numbers. It shows what the original shows at every depth just when
nothing in the original is lost to a copy. -/
theorem materialized_iff {name : Bytes} {v spec : LuaValue} (hd : Distinct v)
    (hspec : makeCommandSpec name v = .ok spec) (i : Nat) :
    ((∃ built, commandSetItem i spec = .ok built) ↔ cString name ≠ [] ∧ Named v) ∧
      ∀ built, commandSetItem i spec = .ok built → built.1 = cString name ∧
        ((∀ path, shows built.2 path = shows v path) ↔ Whole v) := by
  obtain ⟨data, hdata, hkeys, habsent, rfl⟩ := makeCommandSpec_eq_ok hspec
  constructor
  · rw [← plain_of_readonly hdata, ← plain_marked_iff]
    constructor
    · rintro ⟨built, hbuilt⟩
      obtain ⟨hname, readonly, entries, hcopy, -⟩ := (commandSetItem_eq_ok hkeys).mp hbuilt
      exact ⟨hname, _, hcopy⟩
    · rintro ⟨hname, p, hp⟩
      obtain ⟨below, copied, -, -, rfl⟩ := copyValue_table.mp hp
      exact ⟨_, (commandSetItem_eq_ok hkeys).mpr ⟨hname, _, _, hp, rfl⟩⟩
  · intro built hbuilt
    obtain ⟨hname, readonly, entries, hcopy, rfl⟩ := (commandSetItem_eq_ok hkeys).mp hbuilt
    refine ⟨rfl, ?_⟩
    simp only [shows_built hdata habsent hcopy]
    constructor
    · exact whole_of_shows hd
    · exact shows_of_whole

def textKey (s : String) : Key := .string (ascii s)

/-- `{options = {x = value}}` -/
def optionSpec (value : LuaValue) : LuaValue :=
  .table false [(textKey "options", .table false [(textKey "x", value)])]

theorem distinct_optionSpec {value : LuaValue} (h : Distinct value) : Distinct (optionSpec value) := by
  have hinner : Distinct (.table false [(textKey "x", value)]) := by
    refine .table (by simp) ?_
    intro e he
    rw [List.mem_singleton.mp he]
    exact h
  refine .table (by simp) ?_
  intro e he
  rw [List.mem_singleton.mp he]
  exact hinner

/-- A read-only table with the entry `k = "v"`. -/
def proxied : LuaValue := .table true [(textKey "k", .string (ascii "v"))]

/-- An option that is a read-only table is accepted, and nothing is left of its entry. -/
theorem option_dropped : ∃ spec built, makeCommandSpec (ascii "check") (optionSpec proxied) = .ok spec ∧
    commandSetItem 1 spec = .ok built ∧
    shows built.2 [textKey "options", textKey "x", textKey "k"] = .absent ∧
    shows (optionSpec proxied) [textKey "options", textKey "x", textKey "k"] = .string (ascii "v") :=
  ⟨_, _, rfl, rfl, rfl, rfl⟩

theorem materialized_iff_of_string : ∃ spec,
    makeCommandSpec (ascii "check") (optionSpec (.string (ascii "v"))) = .ok spec ∧
    (((∃ built, commandSetItem 1 spec = .ok built)
        ↔ cString (ascii "check") ≠ [] ∧ Named (optionSpec (.string (ascii "v")))) ∧
      ∀ built, commandSetItem 1 spec = .ok built → built.1 = cString (ascii "check") ∧
        ((∀ path, shows built.2 path = shows (optionSpec (.string (ascii "v"))) path)
          ↔ Whole (optionSpec (.string (ascii "v"))))) :=
  ⟨_, rfl, materialized_iff (distinct_optionSpec (.scalar rfl)) rfl 1⟩

end QStar.Authoring.CommandSpecs
