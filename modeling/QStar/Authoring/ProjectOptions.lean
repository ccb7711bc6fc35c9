import QStar.Base.Files
import QStar.Lib.Lines
import QStar.Lib.Results
import QStar.Lib.Separated

/-!
# Project options

`qstar.option` declares an option with a type and a value, `-D` overrides the
value from the command line, and the declaration returns the value that holds to
the build file. In between a value is one text: a list is joined with commas, an
integer is printed, and the text is what an override replaces.
-/
namespace QStar.Authoring.ProjectOptions

open QStar.Lib.CStrings
open QStar.Lib.Lines
open QStar.Lib.Numerals
open QStar.Lib.Results
open QStar.Lib.Separated
open QStar.Base

/-- The Lua values an option is about; `other` is any other kind of value. -/
inductive LuaScalar where
  | nil
  | boolean (b : Bool)
  | integer (i : Int64)
  /-- a number that is no integer, with the text Lua prints for it -/
  | float (text : Bytes)
  | string (s : Bytes)
  | other
  deriving DecidableEq

/-- A value, where a table has its items and may have other keys than theirs. -/
inductive LuaValue where
  | scalar (v : LuaScalar)
  | table (items : List LuaScalar) (plain : Bool)
  deriving DecidableEq

/-- The fields of the table of a declaration in the order `lua_next` visits them; a key that
is no string is `none`. -/
abbrev Declaration := List (Option Bytes × LuaValue)

/-- `lua_getfield` -/
def getField (d : Declaration) (field : String) : LuaValue :=
  (d.lookup (some (ascii field))).getD (.scalar .nil)

/-- `lua_isstring(L, -1) ? lua_tostring(L, -1) : NULL` -/
def luaText : LuaScalar → Option Bytes
  | .integer i => some (printInt i.toInt)
  | .float text => some text
  | .string s => some (cString s)
  | _ => none

/-- The types of options; any other text is an unknown type. -/
inductive OptionType where
  | string
  | boolean
  | integer
  | combo
  | list
  | other (name : Bytes)
  deriving DecidableEq

def OptionType.ofText (text : Bytes) : OptionType :=
  if text = ascii "string" then .string
  else if text = ascii "boolean" then .boolean
  else if text = ascii "integer" then .integer
  else if text = ascii "combo" then .combo
  else if text = ascii "list" then .list
  else .other text

/-- The errors of `qstar.option` and of `-D`, with what they name. -/
inductive OptionError where
  | inModule
  | notATable
  | badKey
  | unknownField (field : Bytes)
  | wrongFieldType (field : Bytes)
  | notAList (field : Bytes)
  | wrongItemType (field : Bytes)
  | noType (name : Bytes)
  | noValue (name : Bytes) (type : OptionType)
  | badName (name : Bytes)
  | duplicate (name : Bytes)
  | unknownType (name type : Bytes)
  | noChoices (name : Bytes)
  | choicesNotAllowed (name : Bytes)
  | badValue (name value : Bytes) (type : OptionType)
  | badOverride (name value : Bytes) (type : OptionType)
  | noEquals
  | longName
  | duplicateOverride (name : Bytes)
  deriving DecidableEq

/-- The fields of `qstar.option` and whether a value fits them. -/
def checkSchemaField (field : Bytes) (value : LuaValue) : Except OptionError Unit :=
  if field = ascii "type" ∨ field = ascii "description" then
    match value with
    | .scalar (.string _) => .ok ()
    | _ => .error (.wrongFieldType field)
  else if field = ascii "value" then .ok ()
  else if field = ascii "choices" then
    match value with
    | .table items plain =>
      if plain = false then .error (.notAList field)
      else if items.all (fun | .string _ => true | _ => false) then .ok ()
      else .error (.wrongItemType field)
    | _ => .error (.wrongFieldType field)
  else .error (.unknownField field)

/-- `validate_project_option_fields` -/
def validateProjectOptionFields (d : Declaration) : Except OptionError Unit :=
  d.forM fun entry =>
    match entry.1 with
    | none => .error .badKey
    | some key => checkSchemaField (cString key) entry.2

/-- `join_project_option_list` -/
def joinProjectOptionList (items : List LuaScalar) : Option Bytes :=
  (items.mapM luaText).map (join 44)

/-- `read_project_option_value` -/
def readProjectOptionValue (type : OptionType) (value : LuaValue) : Option Bytes :=
  match type, value with
  | _, .scalar .nil => none
  | .boolean, .scalar (.boolean b) => some (ascii (if b then "true" else "false"))
  | .boolean, _ => none
  | .integer, .scalar (.integer i) => some (printInt i.toInt)
  | .integer, _ => none
  | .list, .table items _ => joinProjectOptionList items
  | _, .table _ _ => none
  | _, .scalar v => luaText v

/-- The sizes of the C types on a host: `long` has 64 bits or, on Windows, 32. -/
inductive DataModel where
  | lp64
  | llp64
  deriving DecidableEq

/-- `LONG_MAX + 1` -/
def DataModel.longEnd : DataModel → Int
  | .lp64 => 2 ^ 63
  | .llp64 => 2 ^ 31

/-- `strtol(text, &end, 10)` on a host: the value, and the text at `end`. -/
def DataModel.strtol (host : DataModel) (text : Bytes) : Int × Bytes :=
  let (n, left) := QStar.Lib.Numerals.strtol text
  (max (-host.longEnd) (min (host.longEnd - 1) n), left)

/-- `struct qstar_project_option` -/
structure ProjectOption where
  name : Bytes
  type : OptionType
  value : Bytes
  description : Bytes
  choices : List Bytes
  overrideValue : Option Bytes
  deriving DecidableEq

/-- The part of a graph that options are about. -/
structure OptionGraph where
  overrides : List (Bytes × Bytes)
  options : List ProjectOption := []
  deriving DecidableEq

/-- `project_option_name_valid` -/
def projectOptionNameValid : Bytes → Bool
  | [] => false
  | c :: rest => (isAlnum c || c = 95) &&
      (c :: rest).all fun b => isAlnum b || b = 95 || b = 45 || b = 46

/-- `project_option_value_valid` -/
def projectOptionValueValid (host : DataModel) (type : OptionType) (value : Bytes)
    (choices : List Bytes) : Bool :=
  match type with
  | .string => true
  | .list => true
  | .boolean => value = ascii "true" || value = ascii "false"
  | .integer => value != [] && (host.strtol value).2 == []
  | .combo => choices.contains value
  | .other _ => false

/-- `qstar_project_option_effective_value` -/
def effectiveValue (option : ProjectOption) : Bytes := option.overrideValue.getD option.value

/-- `qstar_graph_add_project_option_override` -/
def addProjectOptionOverride (overrides : List (Bytes × Bytes)) (name value : Bytes) :
    Except OptionError (List (Bytes × Bytes)) :=
  if projectOptionNameValid name = false then .error (.badName name)
  else if (overrides.lookup name).isSome then .error (.duplicateOverride name)
  else .ok (overrides ++ [(name, value)])

/-- `QSTAR_PATH_MAX` -/
def pathMax : Nat := 4096

/-- `add_project_option_override_spec` -/
def addProjectOptionOverrideSpec (overrides : List (Bytes × Bytes)) (spec : Bytes) :
    Except OptionError (List (Bytes × Bytes)) :=
  let name := spec.takeWhile (· ≠ 61)
  if 61 ∉ spec ∨ name = [] then .error .noEquals
  else if pathMax < name.length + 1 then .error .longName
  else addProjectOptionOverride overrides name (spec.drop (name.length + 1))

/-- The overrides of a command line. -/
def readOverrides (specs : List Bytes) : Except OptionError (List (Bytes × Bytes)) :=
  specs.foldlM addProjectOptionOverrideSpec []

/-- `qstar_graph_add_project_option` -/
def addProjectOption (host : DataModel) (g : OptionGraph) (name : Bytes) (type : OptionType)
    (value description : Bytes) (choices : List Bytes) :
    Except OptionError (OptionGraph × ProjectOption) :=
  let override := g.overrides.lookup name
  if projectOptionNameValid name = false then .error (.badName name)
  else if g.options.any (·.name = name) then .error (.duplicate name)
  else match type with
  | .other text => .error (.unknownType name text)
  | _ =>
    if type = .combo ∧ choices = [] then .error (.noChoices name)
    else if type ≠ .combo ∧ choices ≠ [] then .error (.choicesNotAllowed name)
    else if projectOptionValueValid host type value choices = false then
      .error (.badValue name value type)
    else if override.any (fun text => !projectOptionValueValid host type text choices) then
      .error (.badOverride name (override.getD []) type)
    else
      let option : ProjectOption :=
        { name, type, value, description, choices, overrideValue := override }
      .ok ({ g with options := g.options ++ [option] }, option)

/-- `push_project_option_result` -/
def pushProjectOptionResult (host : DataModel) (option : ProjectOption) : LuaValue :=
  let value := effectiveValue option
  match option.type with
  | .boolean => .scalar (.boolean (value = ascii "true"))
  | .integer => .scalar (.integer (Int64.ofInt (host.strtol value).1))
  | .list => .table ((split 44 value).map .string) true
  | _ => .scalar (.string value)

/-- The strings of the field `choices`. -/
def readChoices (d : Declaration) : List Bytes :=
  match getField d "choices" with
  | .table items _ => items.filterMap luaText
  | _ => []

/-- `check_string_field` -/
def checkStringField (d : Declaration) (field : String) : Option Bytes :=
  match getField d field with
  | .scalar v => luaText v
  | .table _ _ => none

/-- `add_project_option_from_lua`: the graph it leaves and the value it returns, for an
argument that may be no table. -/
def addProjectOptionFromLua (host : DataModel) (moduleDepth : Nat) (g : OptionGraph) (name : Bytes)
    (argument : Option Declaration) : Except OptionError (OptionGraph × LuaValue) :=
  if 0 < moduleDepth then .error .inModule
  else match argument with
  | none => .error .notATable
  | some d =>
    match validateProjectOptionFields d with
    | .error e => .error e
    | .ok () =>
      match checkStringField d "type" with
      | none => .error (.noType name)
      | some text =>
        match readProjectOptionValue (.ofText text) (getField d "value") with
        | none => .error (.noValue name (.ofText text))
        | some value =>
          (addProjectOption host g name (.ofText text) value
            ((checkStringField d "description").getD []) (readChoices d)).map
            fun (g', option) => (g', pushProjectOptionResult host option)

/-- The text of the first override of a name on the command line. -/
def given (specs : List Bytes) (name : Bytes) : Option Bytes :=
  specs.findSome? fun spec =>
    if name ++ [61] <+: spec then some (spec.drop (name.length + 1)) else none

/-- The value that a text on the command line denotes for a type of options. -/
def Denotes : OptionType → Bytes → LuaValue → Prop
  | .string, text, v => v = .scalar (.string text)
  | .combo, text, v => v = .scalar (.string text)
  | .boolean, text, v =>
    (text = ascii "true" ∧ v = .scalar (.boolean true)) ∨
      (text = ascii "false" ∧ v = .scalar (.boolean false))
  | .integer, text, v => ∃ i : Int64, v = .scalar (.integer i) ∧ parseInt text = some i.toInt
  | .list, text, v => v = .table ((itemsOf 44 text).map .string) true
  | .other _, _, _ => False

/-- The type a declaration names. -/
def optionType (d : Declaration) : OptionType := .ofText ((checkStringField d "type").getD [])

/-- The value a declaration should return: the declared one, or what its override denotes. -/
def Meant (specs : List Bytes) (name : Bytes) (d : Declaration) (v : LuaValue) : Prop :=
  match given specs name with
  | none => v = getField d "value"
  | some text => Denotes (optionType d) text v

/-- An item that a list can carry through a text. -/
def PlainItem : LuaScalar → Prop
  | .string s => 44 ∉ s ∧ 0 ∉ s
  | _ => False

/-- A number that `long` can hold. -/
def DataModel.Fits (host : DataModel) (n : Int) : Prop := -host.longEnd ≤ n ∧ n < host.longEnd

/-- The declared values that come back as they are. -/
def CarriedValue (host : DataModel) : OptionType → LuaValue → Prop
  | .boolean, _ => True
  | .integer, .scalar (.integer i) => host.Fits i.toInt
  | .list, .table items plain =>
    plain = true ∧ (∀ item ∈ items, PlainItem item) ∧ items.getLast? ≠ some (.string [])
  | .string, .scalar (.string s) => 0 ∉ s
  | .combo, .scalar (.string s) => 0 ∉ s
  | _, _ => False

/-- The overrides that come back as what they denote. -/
def CarriedText (host : DataModel) : OptionType → Bytes → Prop
  | .integer, text => ∀ n, parseInt text = some n → host.Fits n
  | .list, text => text.getLast? ≠ some 44
  | _, _ => True

/-- The declarations whose value goes through the text of the option unchanged. -/
def Carried (host : DataModel) (specs : List Bytes) (name : Bytes) (d : Declaration) : Prop :=
  match given specs name with
  | none => CarriedValue host (optionType d) (getField d "value")
  | some text => CarriedText host (optionType d) text

section Overrides

theorem projectOptionNameValid_ne_equals {name : Bytes} (h : projectOptionNameValid name = true) :
    61 ∉ name := by
  intro hmem
  cases name with
  | nil => cases hmem
  | cons c rest =>
    simp only [projectOptionNameValid, Bool.and_eq_true] at h
    have hbyte := List.all_eq_true.mp h.2 61 hmem
    exact absurd hbyte (by decide)

theorem eq_append_equals {spec : Bytes} (h : 61 ∈ spec) : spec = spec.takeWhile (· ≠ 61) ++
    61 :: spec.drop ((spec.takeWhile (· ≠ 61)).length + 1) := by
  induction spec with
  | nil => cases h
  | cons c rest ih =>
    by_cases hc : c = 61
    · simp [hc]
    · have hrest : 61 ∈ rest := by simpa [Ne.symm hc] using h
      have htake : (c :: rest).takeWhile (· ≠ 61) = c :: rest.takeWhile (· ≠ 61) := by simp [hc]
      rw [htake, List.length_cons, List.drop_succ_cons, List.cons_append, ← ih hrest]

/-- An override has a name without `=` and the text behind the first `=`. -/
theorem addProjectOptionOverrideSpec_ok {overrides after : List (Bytes × Bytes)} {spec : Bytes}
    (h : addProjectOptionOverrideSpec overrides spec = .ok after) :
    ∃ name text, spec = name ++ 61 :: text ∧ 61 ∉ name ∧ after = overrides ++ [(name, text)] := by
  simp only [addProjectOptionOverrideSpec] at h
  split at h
  · cases h
  rename_i hequals
  split at h
  · cases h
  rw [addProjectOptionOverride] at h
  split at h
  · cases h
  rename_i hvalid
  split at h
  · cases h
  cases h
  have hname : 61 ∉ spec.takeWhile (· ≠ 61) := by
    intro hmem
    simpa using List.mem_takeWhile_imp hmem
  refine ⟨_, _, ?_, hname, rfl⟩
  have hmem : 61 ∈ spec := by
    by_contra hnone
    exact hequals (Or.inl hnone)
  exact eq_append_equals hmem

theorem append_equals_start {name other text : Bytes} (hname : 61 ∉ name) (hother : 61 ∉ other) :
    name ++ [61] <+: other ++ 61 :: text ↔ name = other := by
  constructor
  · intro h
    induction name generalizing other with
    | nil =>
      cases other with
      | nil => rfl
      | cons c rest =>
        obtain ⟨heq, -⟩ := List.cons_prefix_cons.mp h
        exact absurd (heq ▸ List.mem_cons_self) hother
    | cons b name ih =>
      cases other with
      | nil =>
        obtain ⟨heq, -⟩ := List.cons_prefix_cons.mp h
        exact absurd (heq ▸ List.mem_cons_self) hname
      | cons c rest =>
        obtain ⟨rfl, htail⟩ := List.cons_prefix_cons.mp h
        rw [ih (fun hin => hname (List.mem_cons_of_mem _ hin))
          (fun hin => hother (List.mem_cons_of_mem _ hin)) htail]
  · rintro rfl
    exact ⟨text, by simp⟩

theorem lookup_append_one {overrides : List (Bytes × Bytes)} {name other text : Bytes} :
    (overrides ++ [(other, text)]).lookup name =
      (overrides.lookup name).or (if name = other then some text else none) := by
  rw [List.lookup_append, List.lookup_cons, List.lookup_nil]
  by_cases h : name = other
  · simp [h]
  · have hne : (name == other) = false := by simp [h]
    simp [h, hne]

/-- What is found for a name is what the command line gives for it. -/
theorem lookup_foldlM {specs : List Bytes} {overrides after : List (Bytes × Bytes)} {name : Bytes}
    (hname : 61 ∉ name) (h : specs.foldlM addProjectOptionOverrideSpec overrides = .ok after) :
    after.lookup name = (overrides.lookup name).or (given specs name) := by
  induction specs generalizing overrides with
  | nil =>
    cases h
    simp [given]
  | cons spec rest ih =>
    rw [List.foldlM_cons] at h
    obtain ⟨middle, hspec, hrest⟩ := bind_eq_ok.mp h
    obtain ⟨other, text, rfl, hother, rfl⟩ := addProjectOptionOverrideSpec_ok hspec
    rw [ih hrest, lookup_append_one, Option.or_assoc]
    congr 1
    rw [given, given, List.findSome?_cons]
    by_cases heq : name = other
    · subst heq
      simp
    · rw [if_neg heq, if_neg (mt (append_equals_start hname hother).mp heq)]
      rfl

theorem lookup_readOverrides {specs : List Bytes} {overrides : List (Bytes × Bytes)} {name : Bytes}
    (hname : projectOptionNameValid name = true) (h : readOverrides specs = .ok overrides) :
    overrides.lookup name = given specs name := by
  have hlookup := lookup_foldlM (projectOptionNameValid_ne_equals hname) h
  simpa using hlookup

end Overrides

section Integers

/-- What `strtol` makes of a text that it reads to its end. -/
theorem strtol_of_end {host : DataModel} {text : Bytes} (hne : text ≠ [])
    (hend : (host.strtol text).2 = []) : ∃ n, parseInt text = some n ∧
      (host.strtol text).1 = max (-host.longEnd) (min (host.longEnd - 1) n) := by
  have hlong : host.longEnd ≤ 2 ^ 63 := by cases host <;> decide
  simp only [DataModel.strtol] at hend ⊢
  unfold QStar.Lib.Numerals.strtol at hend ⊢
  unfold parseInt
  dsimp only at hend ⊢
  generalize hbody : text.dropWhile isSpace = body at hend ⊢
  generalize hdigits : (if body.head? = some 43 ∨ body.head? = some 45 then body.drop 1 else body) =
    digits at hend ⊢
  cases hscan : scanDigits 10 none digits with
  | none =>
    rw [hscan] at hend
    exact absurd hend hne
  | some n =>
    rw [hscan] at hend
    have hall : digits.all isDigit = true :=
      List.all_eq_true.mpr (List.dropWhile_eq_nil_iff.mp hend)
    have hnonempty : digits ≠ [] := by
      rintro rfl
      cases hscan
    have hcond : ¬(digits = [] ∨ digits.all isDigit = false) := by
      simp [hall, hnonempty]
    rw [if_neg hcond]
    refine ⟨_, rfl, ?_⟩
    dsimp only
    simp only [Option.getD_some]
    omega

/-- The integers that are read back exactly. -/
theorem toInt_clamp_iff {host : DataModel} {n : Int} :
    (Int64.ofInt (max (-host.longEnd) (min (host.longEnd - 1) n))).toInt = n ↔ host.Fits n := by
  have hlong : 0 < host.longEnd ∧ host.longEnd ≤ 2 ^ 63 := by cases host <;> decide
  have hpow : (2 : Int) ^ 63 = 9223372036854775808 := by decide
  have hread : (Int64.ofInt (max (-host.longEnd) (min (host.longEnd - 1) n))).toInt =
      max (-host.longEnd) (min (host.longEnd - 1) n) :=
    Int64.toInt_ofInt_of_le (by omega) (by omega)
  rw [hread, DataModel.Fits]
  omega

end Integers

section Values

variable {host : DataModel} {option : ProjectOption} {choices : List Bytes} {text : Bytes}

theorem getLast?_map {items : List Bytes} :
    (items.map LuaScalar.string).getLast? = some (.string []) ↔ items.getLast? = some [] := by
  rw [List.getLast?_map, Option.map_eq_some_iff]
  constructor
  · rintro ⟨item, hlast, hitem⟩
    cases hitem
    exact hlast
  · intro h
    exact ⟨[], h, rfl⟩

theorem map_string_injective {items others : List Bytes}
    (h : items.map LuaScalar.string = others.map .string) : items = others :=
  List.map_injective_iff.mpr (fun a b hab => by cases hab; rfl) h

theorem cString_eq_self {s : Bytes} : cString s = s ↔ 0 ∉ s := by
  rw [cString, List.takeWhile_eq_self_iff]
  constructor
  · intro h hmem
    simpa using h 0 hmem
  · intro h c hc
    have hne : c ≠ 0 := fun heq => h (heq ▸ hc)
    simpa using hne

theorem cString_cString (s : Bytes) : cString (cString s) = cString s := by
  rw [cString_eq_self]
  intro hmem
  simpa using List.mem_takeWhile_imp hmem

theorem exists_strings {items : List LuaScalar} (h : ∀ item ∈ items, ∃ s, item = .string s) :
    ∃ strings : List Bytes, items = strings.map .string := by
  induction items with
  | nil => exact ⟨[], rfl⟩
  | cons item rest ih =>
    obtain ⟨s, rfl⟩ := h item List.mem_cons_self
    obtain ⟨strings, rfl⟩ := ih fun i hi => h i (List.mem_cons_of_mem _ hi)
    exact ⟨s :: strings, rfl⟩

theorem luaText_string {items : List Bytes} (h : ∀ s ∈ items, 0 ∉ s) :
    (items.map LuaScalar.string).mapM luaText = some items := by
  induction items with
  | nil => rfl
  | cons s rest ih =>
    have hs : luaText (.string s) = some s := congrArg some (cString_eq_self.mpr (h s List.mem_cons_self))
    rw [List.map_cons, List.mapM_cons, hs, ih fun s hs => h s (List.mem_cons_of_mem _ hs)]
    rfl

/-- The strings that are read for items are theirs cut at a NUL. -/
theorem mapM_luaText_strings {items texts : List Bytes}
    (h : (items.map LuaScalar.string).mapM luaText = some texts) : texts = items.map cString := by
  induction items generalizing texts with
  | nil =>
    cases h
    rfl
  | cons s rest ih =>
    rw [List.map_cons, List.mapM_cons] at h
    obtain ⟨first, hfirst, h⟩ := Option.bind_eq_some_iff.mp h
    obtain ⟨others, hothers, h⟩ := Option.bind_eq_some_iff.mp h
    cases hfirst
    cases h
    rw [List.map_cons, ih hothers]

/-- Lists come back as they are when their items are plain and the last is not empty. -/
theorem list_carried_iff {items : List LuaScalar} {plain : Bool}
    (hread : joinProjectOptionList items = some text) :
    LuaValue.table ((split 44 text).map .string) true = .table items plain ↔
      CarriedValue host .list (.table items plain) := by
  obtain ⟨texts, htexts, rfl⟩ := Option.map_eq_some_iff.mp hread
  constructor
  · intro h
    obtain ⟨rfl, rfl⟩ : (split 44 (join 44 texts)).map LuaScalar.string = items ∧ true = plain := by
      simpa using h
    have hcut := mapM_luaText_strings htexts
    have hnul : ∀ t ∈ split 44 (join 44 texts), 0 ∉ t := by
      intro t ht h0
      obtain ⟨cut, hin, h0⟩ := (mem_join (by decide)).mp (mem_of_mem_split ht h0)
      rw [hcut] at hin
      obtain ⟨whole, -, rfl⟩ := List.mem_map.mp hin
      exact absurd h0 (cString_eq_self.mp (cString_cString whole))
    have hsame : split 44 (join 44 texts) = texts := by
      rw [luaText_string hnul] at htexts
      exact Option.some.inj htexts
    obtain ⟨hitems, hlast⟩ := eq_split_join_iff.mp hsame.symm
    refine ⟨rfl, ?_, ?_⟩
    · intro item hitem
      obtain ⟨t, ht, rfl⟩ := List.mem_map.mp hitem
      exact ⟨not_mem_of_mem_split ht, hnul t ht⟩
    · rw [ne_eq, getLast?_map, hsame]
      exact hlast
  · rintro ⟨rfl, hplain, hlast⟩
    obtain ⟨strings, rfl⟩ : ∃ strings : List Bytes, items = strings.map .string := by
      refine exists_strings fun item hitem => ?_
      have hitem := hplain item hitem
      cases item with
      | string s => exact ⟨s, rfl⟩
      | _ => exact absurd hitem id
    have hstrings : ∀ s ∈ strings, 44 ∉ s ∧ 0 ∉ s := fun s hs =>
      hplain (.string s) (List.mem_map_of_mem hs)
    rw [luaText_string fun s hs => (hstrings s hs).2] at htexts
    cases htexts
    rw [ne_eq, getLast?_map] at hlast
    rw [← eq_split_join_iff.mpr ⟨fun s hs => (hstrings s hs).1, hlast⟩]

/-- A string comes back when it is no number and has no NUL. -/
theorem string_carried_iff {v : LuaScalar} (hread : luaText v = some text) :
    LuaValue.scalar (.string text) = .scalar v ↔ CarriedValue host .string (.scalar v) := by
  cases v with
  | string s =>
    cases hread
    have hcut : cString s = s ↔ 0 ∉ s := cString_eq_self
    simpa [CarriedValue] using hcut
  | _ => simp [CarriedValue]

theorem integer_valid (hvalid : projectOptionValueValid host .integer text choices = true) :
    ∃ n, parseInt text = some n ∧
      (host.strtol text).1 = max (-host.longEnd) (min (host.longEnd - 1) n) := by
  simp only [projectOptionValueValid, Bool.and_eq_true, bne_iff_ne, beq_iff_eq] at hvalid
  exact strtol_of_end hvalid.1 hvalid.2

/-- The declared values that come back. -/
theorem value_carried_iff {type : OptionType} {value : LuaValue} (htype : option.type = type)
    (heffective : effectiveValue option = text) (hread : readProjectOptionValue type value = some text)
    (hvalid : projectOptionValueValid host type text choices = true) :
    pushProjectOptionResult host option = value ↔ CarriedValue host type value := by
  simp only [pushProjectOptionResult, htype, heffective]
  cases type with
  | string =>
    match value, hread with
    | .scalar (.integer i), hread => exact string_carried_iff hread
    | .scalar (.float t), hread => exact string_carried_iff hread
    | .scalar (.string s), hread => exact string_carried_iff hread
  | combo =>
    match value, hread with
    | .scalar (.integer i), hread => exact @string_carried_iff host _ _ hread
    | .scalar (.float t), hread => exact @string_carried_iff host _ _ hread
    | .scalar (.string s), hread => exact @string_carried_iff host _ _ hread
  | boolean =>
    match value, hread with
    | .scalar (.boolean b), hread =>
      cases hread
      cases b with
      | false => exact iff_of_true rfl trivial
      | true => exact iff_of_true rfl trivial
  | integer =>
    match value, hread with
    | .scalar (.integer i), hread =>
      cases hread
      obtain ⟨n, hparse, hstrtol⟩ := integer_valid hvalid
      rw [parseInt_printInt] at hparse
      obtain rfl := Option.some.inj hparse
      simp only [hstrtol, CarriedValue, LuaValue.scalar.injEq, LuaScalar.integer.injEq]
      rw [← Int64.toInt_inj, toInt_clamp_iff]
  | list =>
    match value, hread with
    | .table items plain, hread => exact list_carried_iff hread
    | .scalar (.integer i), _ => exact iff_of_false nofun id
    | .scalar (.float t), _ => exact iff_of_false nofun id
    | .scalar (.string s), _ => exact iff_of_false nofun id
  | other name => cases hvalid

/-- The overrides that come back. -/
theorem text_carried_iff {type : OptionType} (htype : option.type = type)
    (heffective : effectiveValue option = text)
    (hvalid : projectOptionValueValid host type text choices = true) :
    Denotes type text (pushProjectOptionResult host option) ↔ CarriedText host type text := by
  simp only [pushProjectOptionResult, htype, heffective]
  cases type with
  | string => exact iff_of_true rfl trivial
  | combo => exact iff_of_true rfl trivial
  | boolean =>
    simp only [projectOptionValueValid, Bool.or_eq_true, decide_eq_true_eq] at hvalid
    rcases hvalid with rfl | rfl
    · exact iff_of_true (Or.inl ⟨rfl, rfl⟩) trivial
    · exact iff_of_true (Or.inr ⟨rfl, rfl⟩) trivial
  | integer =>
    obtain ⟨n, hparse, hstrtol⟩ := integer_valid hvalid
    simp only [Denotes, CarriedText, hparse, hstrtol]
    constructor
    · rintro ⟨i, hvalue, hn⟩ m hm
      obtain rfl := Option.some.inj hm
      have hi : Int64.ofInt (max (-host.longEnd) (min (host.longEnd - 1) n)) = i := by
        simpa using hvalue
      rw [← toInt_clamp_iff, hi]
      exact (Option.some.inj hn).symm
    · intro hfits
      exact ⟨_, rfl, congrArg some (toInt_clamp_iff.mpr (hfits n rfl)).symm⟩
  | list =>
    have hsplit : split 44 text = itemsOf 44 text ↔ text.getLast? ≠ some 44 := split_eq_itemsOf_iff
    simp only [Denotes, CarriedText]
    rw [← hsplit]
    constructor
    · intro h
      have hmaps : (split 44 text).map LuaScalar.string = (itemsOf 44 text).map .string := by
        simpa using h
      exact map_string_injective hmaps
    · intro h
      rw [h]
  | other name => cases hvalid

end Values

/-- What an accepted option holds. -/
theorem addProjectOption_ok {host : DataModel} {g g' : OptionGraph} {name : Bytes}
    {type : OptionType} {value description : Bytes} {choices : List Bytes} {option : ProjectOption}
    (h : addProjectOption host g name type value description choices = .ok (g', option)) :
    projectOptionNameValid name = true ∧ option.type = type ∧ option.value = value ∧
      option.overrideValue = g.overrides.lookup name ∧ g'.overrides = g.overrides ∧
      projectOptionValueValid host type (effectiveValue option) choices = true := by
  simp only [addProjectOption] at h
  split at h
  · cases h
  rename_i hname
  split at h
  · cases h
  split at h
  · cases h
  split at h
  · cases h
  split at h
  · cases h
  split at h
  · cases h
  rename_i hvalue
  split at h
  · cases h
  rename_i hoverride
  cases h
  refine ⟨by simpa using hname, rfl, rfl, rfl, rfl, ?_⟩
  simp only [effectiveValue]
  cases hlookup : g.overrides.lookup name with
  | none => simpa using hvalue
  | some text => simpa [hlookup] using hoverride

/-- The parts of an accepted declaration. -/
theorem addProjectOptionFromLua_ok {host : DataModel} {moduleDepth : Nat} {g g' : OptionGraph}
    {name : Bytes} {d : Declaration} {v : LuaValue}
    (h : addProjectOptionFromLua host moduleDepth g name (some d) = .ok (g', v)) :
    ∃ text option, readProjectOptionValue (optionType d) (getField d "value") = some text ∧
      addProjectOption host g name (optionType d) text ((checkStringField d "description").getD [])
        (readChoices d) = .ok (g', option) ∧ v = pushProjectOptionResult host option := by
  simp only [addProjectOptionFromLua] at h
  split at h
  · cases h
  split at h
  · cases h
  split at h
  · cases h
  rename_i type htype
  split at h
  · cases h
  rename_i text htext
  obtain ⟨⟨g'', option⟩, hadd, hresult⟩ := map_eq_ok.mp h
  cases hresult
  have hoption : optionType d = .ofText type := by rw [optionType, htype, Option.getD_some]
  rw [hoption]
  exact ⟨text, option, htext, hadd, rfl⟩

/-- An accepted declaration returns the value it declares, or the one its override denotes,
exactly when that value goes through the text of the option. -/
theorem option_value_returned_iff (host : DataModel) (moduleDepth : Nat) (specs : List Bytes)
    (g g' : OptionGraph) (name : Bytes) (d : Declaration) (v : LuaValue)
    (hspecs : readOverrides specs = .ok g.overrides)
    (h : addProjectOptionFromLua host moduleDepth g name (some d) = .ok (g', v)) :
    Meant specs name d v ↔ Carried host specs name d := by
  obtain ⟨text, option, hread, hadd, rfl⟩ := addProjectOptionFromLua_ok h
  obtain ⟨hname, htype, hvalue, hoverride, -, hvalid⟩ := addProjectOption_ok hadd
  rw [lookup_readOverrides hname hspecs] at hoverride
  unfold Meant Carried
  split
  · rename_i hgiven
    have heffective : effectiveValue option = text := by
      rw [effectiveValue, hoverride, hgiven, Option.getD_none, hvalue]
    rw [heffective] at hvalid
    exact value_carried_iff htype heffective hread hvalid
  · rename_i other hgiven
    have heffective : effectiveValue option = other := by
      rw [effectiveValue, hoverride, hgiven, Option.getD_some]
    rw [heffective] at hvalid
    exact text_carried_iff htype heffective hvalid

/-- The declaration of a list of strings. -/
def listDeclaration (items : List Bytes) : Declaration :=
  [(some (ascii "type"), .scalar (.string (ascii "list"))),
    (some (ascii "value"), .table (items.map .string) true)]

/-- The option that such a declaration adds. -/
def listOption (value : Bytes) : ProjectOption where
  name := ascii "features"
  type := .list
  value := value
  description := []
  choices := []
  overrideValue := none

/-- A list with an empty item in front is returned as it was declared. -/
theorem option_value_returned_iff_list :
    Meant [] (ascii "features") (listDeclaration [[], ascii "simd"])
        (.table [.string [], .string (ascii "simd")] true) ↔
      Carried .lp64 [] (ascii "features") (listDeclaration [[], ascii "simd"]) :=
  option_value_returned_iff .lp64 0 [] ⟨[], []⟩ ⟨[], [listOption (ascii ",simd")]⟩
    (ascii "features") (listDeclaration [[], ascii "simd"]) _ rfl rfl

/-- The list with one empty item is returned as the empty list. -/
theorem option_value_lost : ¬∀ (host : DataModel) (moduleDepth : Nat) (specs : List Bytes)
    (g g' : OptionGraph) (name : Bytes) (d : Declaration) (v : LuaValue),
    readOverrides specs = .ok g.overrides →
    addProjectOptionFromLua host moduleDepth g name (some d) = .ok (g', v) → Meant specs name d v := by
  intro h
  have hmeant := h .lp64 0 [] ⟨[], []⟩ ⟨[], [listOption []]⟩ (ascii "features")
    (listDeclaration [[]]) (.table [] true) rfl rfl
  have hvalue : LuaValue.table [] true = .table [.string []] true := hmeant
  cases hvalue

end QStar.Authoring.ProjectOptions
