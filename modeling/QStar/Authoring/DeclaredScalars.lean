import QStar.Authoring.Evaluation
import QStar.Base.CanonicalLabels
import QStar.Lib.Results

/-!
# Reading declared scalars

The numbers, texts and lists of texts of declarations, and what the graph holds of them. Lua has
integers of 64 bits and texts with a length; the graph has an `int` for the one and a string up
to its first NUL for the other, and nearly every check of a value is made on what was converted.
A field is absent or of the type that its schema asks for.
-/
namespace QStar.Authoring.DeclaredScalars

open QStar.Lib.CStrings
open QStar.Lib.Results
open QStar.Base

/-! ## Numbers -/

inductive IntegerField where
  /-- `lang.cxx.unity.batch_size` -/
  | unityBatchSize
  | retryCount
  | runTargetTimeout
  | testTimeout
  | testResourceCapacity
  /-- of a step that `qstar.step.run` makes, or of one that is written as a table -/
  | stepTimeout (made : Bool)
  deriving DecidableEq

/-- `check_int_field`; `(int)` keeps the low 32 bits. -/
def checkIntField (given : Option Int64) (fallback : Int32) : Int32 :=
  match given with
  | some i => i.toInt32
  | none => fallback

namespace IntegerField

def fallback : IntegerField → Int32
  | .unityBatchSize => 8
  | _ => 0

/-- What is asked of the integer itself. -/
def asked : IntegerField → Int64 → Bool
  | .stepTimeout true, i => decide (0 ≤ i)
  | _, _ => true

/-- What is asked of the converted number. -/
def accepts : IntegerField → Int32 → Bool
  | .unityBatchSize, n => !(decide (n < 2) || decide (1024 < n))
  | .retryCount, n => !(decide (n < 0) || decide (100 < n))
  | .testResourceCapacity, n => !decide (n ≤ 0)
  | _, n => !decide (n < 0)

end IntegerField

/-! ## Texts -/

/-- How the text of a field gets to the graph. -/
inductive TextReader where
  /-- `replace_lua_string`, `qstar_string_list_push` -/
  | copied
  /-- `text && *text ? text : fallback` -/
  | unlessEmpty (fallback : Bytes) (whole : 0 ∉ fallback)
  /-- `read_status_field` -/
  | status
  /-- `expect.contains` of `read_run_expect_field` and `read_command_step_expect_field` -/
  | expected
  /-- `push_define_option` -/
  | define
  /-- `resolve_fragment_relative_path` into a buffer -/
  | path (fragmentDir : Bytes)
  /-- `qstar_label_canonicalize` into a buffer -/
  | label (fragmentDir : Bytes)
  /-- `qstar_lua_step_label` -/
  | stepLabel (fragmentDir : Bytes)

/-- `QSTAR_PATH_MAX` -/
def pathMax : Nat := 4096

def isLine (text : Bytes) : Bool := text.all fun c => c ≠ 10 && c ≠ 13

/-- `validate_status_description` -/
def validateStatusDescription (text : Bytes) : Bool :=
  text ≠ [] && decide (text.length ≤ 240) && isLine text

namespace TextReader

/-- What is asked of the text with its length. -/
def asked : TextReader → Bytes → Bool
  | .status, text => validateStatusDescription text
  | .expected, text => text ≠ [] && isLine text
  | _, _ => true

/-- What a field of this kind stands for. -/
def form : TextReader → Bytes → Option Bytes
  | .copied, text => some text
  | .unlessEmpty fallback _, text => some (if text = [] then fallback else text)
  | .status, text => some text
  | .expected, text => some text
  | .define, text => printInto pathMax (ascii "-D" ++ text)
  | .path fragmentDir, text => (resolveFragmentRelativePath text fragmentDir).bind (printInto pathMax)
  | .label fragmentDir, text => canonicalizeInto text fragmentDir pathMax
  | .stepLabel fragmentDir, text =>
    if text = ascii "//..." then some text else canonicalizeInto text fragmentDir pathMax

/-- Whether the field takes a text. -/
def takes (reader : TextReader) (text : Bytes) : Bool :=
  reader.asked text && (reader.form (cString text)).isSome

end TextReader

/-! ## Declarations -/

/-- A field with the value that is given for it. What else is asked of a text, by its own field or
by the others, is asked of the C strings: any such check is `admits`. -/
inductive Declared where
  | integer (field : IntegerField) (given : Option Int64)
  | text (reader : TextReader) (admits : Bytes → Bool) (given : Bytes)
  | list (reader : TextReader) (admits : List Bytes → Bool) (given : List Bytes)

inductive ReadError where
  | outOfRange (field : IntegerField)
  | invalidText (given : Bytes)
  | invalidList (given : List Bytes)
  deriving DecidableEq

/-- What the graph has for a field. -/
inductive Stored where
  | integer (n : Int32)
  | text (s : Bytes)
  | list (items : List Bytes)
  deriving DecidableEq

/-- `check_int_field` or the reading of a step's timeout, and the check of the range -/
def readInteger (field : IntegerField) (given : Option Int64) : Except ReadError Int32 := do
  if given.all field.asked = false then throw (.outOfRange field)
  let value := checkIntField given field.fallback
  if field.accepts value = false then throw (.outOfRange field)
  return value

/-- `lua_tostring`, and what the reader does with the C string -/
def readText (reader : TextReader) (given : Bytes) : Except ReadError Bytes :=
  if reader.asked given = false then throw (.invalidText given)
  else (reader.form (cString given)).elim (throw (.invalidText given)) pure

namespace Declared

def read : Declared → Except ReadError Stored
  | .integer field given => (readInteger field given).map Stored.integer
  | .text reader admits given =>
    if admits (cString given) = false then throw (.invalidText given)
    else (readText reader given).map Stored.text
  | .list reader admits given =>
    if admits (given.map cString) = false then throw (.invalidList given)
    else (given.mapM (readText reader)).map Stored.list

/-- The graph has the very number or text that is given. A label stands for its canonical form, a
path for where it leads from its fragment, and an empty text for the default. -/
def Exact : Declared → Stored → Prop
  | .integer field given, .integer n => n.toInt = (given.map Int64.toInt).getD field.fallback.toInt
  | .text reader _ given, .text s => reader.form given = some s
  | .list reader _ given, .list items => given.mapM reader.form = some items
  | _, _ => False

end Declared

/-- The fields of the declarations of an evaluation, one after another. -/
def evaluate (fields : List Declared) : Except ReadError (List Stored) := fields.mapM Declared.read

/-! ## Where the graph has what is given -/

/-- The documented range of a field. -/
def IntegerField.Range : IntegerField → Int → Prop
  | .unityBatchSize, n => 2 ≤ n ∧ n ≤ 1024
  | .retryCount, n => 0 ≤ n ∧ n ≤ 100
  | .testResourceCapacity, n => 0 < n
  | _, n => 0 ≤ n

/-- The value goes into what C has for it. -/
def Declared.Whole : Declared → Prop
  | .integer _ given => ∀ i ∈ given, -2 ^ 31 ≤ i.toInt ∧ i.toInt < 2 ^ 31
  | .text _ _ given => 0 ∉ given
  | .list _ _ given => ∀ s ∈ given, 0 ∉ s

/-- What the checks see of the value is not for this field. -/
def Declared.Refused : Declared → Prop
  | .integer field (some i) => field.asked i = false ∨ ¬field.Range (i.toInt.bmod (2 ^ 32))
  | .integer field none => ¬field.Range field.fallback.toInt
  | .text reader admits given => admits (cString given) = false ∨ reader.takes given = false
  | .list reader admits given => admits (given.map cString) = false ∨ ∃ s ∈ given, reader.takes s = false

theorem accepts_iff (field : IntegerField) (n : Int32) :
    field.accepts n = true ↔ field.Range n.toInt := by
  have hzero : (0 : Int32).toInt = 0 := rfl
  have hbatch : (2 : Int32).toInt = 2 ∧ (1024 : Int32).toInt = 1024 := ⟨rfl, rfl⟩
  have hcount : (100 : Int32).toInt = 100 := rfl
  cases field <;>
    simp only [IntegerField.accepts, IntegerField.Range, Bool.not_eq_true', Bool.or_eq_false_iff,
      decide_eq_false_iff_not, Int32.lt_iff_toInt_lt, Int32.le_iff_toInt_le, hzero, hbatch, hcount] <;>
    omega

theorem readInteger_eq_ok {field : IntegerField} {given : Option Int64} {n : Int32} :
    readInteger field given = .ok n ↔ given.all field.asked = true ∧
      field.Range (checkIntField given field.fallback).toInt ∧ checkIntField given field.fallback = n := by
  unfold readInteger
  rw [guard_eq_ok, guard_eq_ok, Bool.not_eq_false, Bool.not_eq_false, accepts_iff]
  exact and_congr_right fun _ => and_congr_right fun _ => ⟨Except.ok.inj, congrArg Except.ok⟩

/-- The low 32 bits of an integer are the integer just where it is an `int`. -/
theorem toInt32_exact_iff (i : Int64) :
    i.toInt32.toInt = i.toInt ↔ -2 ^ 31 ≤ i.toInt ∧ i.toInt < 2 ^ 31 := by
  rw [Int64.toInt_toInt32, Int.bmod_def]
  have hmodulus : ((2 ^ 32 : Nat) : Int) = 4294967296 := rfl
  rw [hmodulus]
  split <;> omega

/-! ### Texts -/

theorem dotSlash_cString {s : Bytes} : ascii "./" <+: cString s ↔ ascii "./" <+: s := by
  constructor
  · intro h
    exact h.trans (List.takeWhile_prefix _)
  · rintro ⟨rest, rfl⟩
    exact ⟨cString rest, rfl⟩

/-- A path is itself, or what stands behind its `./` with something in front. -/
theorem resolve_eq_some (fragmentDir : Bytes) : ∃ lead : Bytes, ∀ {raw path : Bytes},
    resolveFragmentRelativePath raw fragmentDir = some path →
      path = if ascii "./" <+: raw then lead ++ raw.drop 2 else raw := by
  refine ⟨if fragmentDir = [] ∨ fragmentDir = ascii "." then [] else fragmentDir ++ ascii "/", ?_⟩
  intro raw path h
  unfold resolveFragmentRelativePath at h
  split at h
  · cases h
  split at h
  · rename_i hplain
    rw [if_neg hplain]
    exact (Option.some.inj h).symm
  rename_i hlocal
  rw [if_pos (not_not.mp hlocal)]
  split at h
  · cases h
  by_cases hdir : fragmentDir = []
  · simp only [if_pos hdir] at h
    split at h
    · rw [if_pos (.inl hdir), List.nil_append]
      exact (Option.some.inj h).symm
    · cases h
  · simp only [if_neg hdir] at h
    split at h
    · rw [← Option.some.inj h, pathJoin]
      split <;> rfl
    · cases h

/-- A path that a NUL cuts short leads elsewhere. -/
theorem whole_of_resolve {fragmentDir s path : Bytes}
    (hcut : resolveFragmentRelativePath (cString s) fragmentDir = some path)
    (h : resolveFragmentRelativePath s fragmentDir = some path) : 0 ∉ s := by
  obtain ⟨lead, hlead⟩ := resolve_eq_some fragmentDir
  have heq := (hlead hcut).symm.trans (hlead h)
  intro hzero
  have hlen := length_cString_lt hzero
  by_cases hlocal : ascii "./" <+: s
  · rw [if_pos hlocal, if_pos (dotSlash_cString.mpr hlocal)] at heq
    have hcutlen := (dotSlash_cString.mpr hlocal).length_le
    have htails := congrArg List.length (List.append_cancel_left heq)
    rw [List.length_drop, List.length_drop] at htails
    have htwo : (ascii "./").length = 2 := rfl
    omega
  · rw [if_neg hlocal, if_neg fun hcutlocal => hlocal (dotSlash_cString.mp hcutlocal)] at heq
    exact absurd (congrArg List.length heq) (Nat.ne_of_lt hlen)

/-- A label has no NUL. -/
theorem whole_of_canonical {label fragmentDir result : Bytes} {dstlen : Nat}
    (h : canonicalizeInto label fragmentDir dstlen = some result) : 0 ∉ label := by
  have hname : validNameChar 0 = false := by decide
  have hpath : validPathChar 0 = false := by decide
  intro hzero
  rcases canonicalizeInto_cases h with ⟨name, rfl, hvalid, -⟩ | ⟨external, rfl, rfl, -⟩ |
    ⟨rest, rfl, -, hvalid, -⟩
  · rcases List.mem_cons.mp hzero with hfirst | hzero
    · cases hfirst
    · rw [mem_validSpan hvalid hzero] at hname
      cases hname
  · rcases canonicalizeInto_bytes h with hbytes | ⟨name, -, hname⟩
    · rcases hbytes 0 hzero with hcolon | hmark | hvalid
      · cases hcolon
      · cases hmark
      · rw [hvalid] at hpath
        cases hpath
    · cases hname
  · rcases List.mem_cons.mp hzero with hfirst | hzero
    · cases hfirst
    rcases List.mem_cons.mp hzero with hfirst | hzero
    · cases hfirst
    rcases mem_validLabelRest hvalid hzero with hcolon | hvalid
    · cases hcolon
    · rw [hvalid] at hpath
      cases hpath

theorem whole_of_eq {s : Bytes} (h : cString s = s) : 0 ∉ s := by
  intro hzero
  exact absurd (congrArg List.length h) (Nat.ne_of_lt (length_cString_lt hzero))

theorem whole_of_define {s text : Bytes} (hcut : printInto pathMax (ascii "-D" ++ cString s) = some text)
    (h : printInto pathMax (ascii "-D" ++ s) = some text) : 0 ∉ s := by
  have heq := (printInto_eq_some.mp hcut).1.trans (printInto_eq_some.mp h).1.symm
  exact whole_of_eq (List.append_cancel_left heq)

/-- No field stands for the same with a text and with the C string at its start, unless the C
string is the text. -/
theorem TextReader.form_exact_iff {reader : TextReader} {s text : Bytes}
    (hcut : reader.form (cString s) = some text) : reader.form s = some text ↔ 0 ∉ s := by
  constructor
  · intro h
    cases reader with
    | copied | status | expected => exact whole_of_eq (Option.some.inj (hcut.trans h.symm))
    | unlessEmpty fallback whole =>
      intro hzero
      have hne : s ≠ [] := List.ne_nil_of_mem hzero
      simp only [form, if_neg hne] at h
      have htext := Option.some.inj (hcut.trans h.symm)
      split at htext
      · rw [← htext] at hzero
        exact whole hzero
      · exact whole_of_eq htext hzero
    | define => exact whole_of_define hcut h
    | path fragmentDir =>
      obtain ⟨path, hpath, hprint⟩ := Option.bind_eq_some_iff.mp h
      obtain ⟨cut, hcutpath, hcutprint⟩ := Option.bind_eq_some_iff.mp hcut
      obtain rfl := (printInto_eq_some.mp hprint).1
      obtain rfl := (printInto_eq_some.mp hcutprint).1
      exact whole_of_resolve hcutpath hpath
    | label fragmentDir => exact whole_of_canonical h
    | stepLabel fragmentDir =>
      simp only [form] at h
      split at h
      · rename_i hall
        rw [hall]
        decide
      · exact whole_of_canonical h
  · intro hwhole
    rwa [cString_eq_self hwhole] at hcut

theorem readText_eq_ok {reader : TextReader} {given text : Bytes} :
    readText reader given = .ok text ↔
      reader.asked given = true ∧ reader.form (cString given) = some text := by
  unfold readText
  split
  · rename_i hasked
    simp [hasked, throw, throwThe, MonadExceptOf.throw]
  · rename_i hasked
    rw [Bool.not_eq_false] at hasked
    rw [and_iff_right hasked]
    cases reader.form (cString given) with
    | none => exact ⟨nofun, nofun⟩
    | some t => exact ⟨fun h => congrArg some (Except.ok.inj h), fun h => congrArg Except.ok (Option.some.inj h)⟩

theorem readText_succeeds_iff {reader : TextReader} {given : Bytes} :
    (∃ text, readText reader given = .ok text) ↔ reader.takes given = true := by
  simp only [readText_eq_ok, TextReader.takes, Bool.and_eq_true, Option.isSome_iff_exists,
    exists_and_left]

/-! ### Declarations -/

/-- A check in front of what is stored. -/
theorem checked_eq_ok {α : Type} {admitted : Bool} {e : ReadError} {x : Except ReadError α} {f : α → Stored}
    {stored : Stored} : (if admitted = false then throw e else x.map f) = .ok stored ↔
      admitted = true ∧ ∃ a, x = .ok a ∧ f a = stored := by
  rw [← map_eq_ok]
  cases admitted with
  | false => exact ⟨nofun, nofun⟩
  | true => simp

theorem read_succeeds_iff (d : Declared) : (∃ stored, d.read = .ok stored) ↔ ¬d.Refused := by
  cases d with
  | integer field given =>
    have hread : (∃ stored, (Declared.integer field given).read = .ok stored) ↔
        given.all field.asked = true ∧ field.Range (checkIntField given field.fallback).toInt := by
      simp only [Declared.read, map_eq_ok, readInteger_eq_ok]
      constructor
      · rintro ⟨_, _, ⟨hasked, hrange, _⟩, _⟩
        exact ⟨hasked, hrange⟩
      · rintro ⟨hasked, hrange⟩
        exact ⟨_, _, ⟨hasked, hrange, rfl⟩, rfl⟩
    rw [hread]
    cases given with
    | none => simp [Declared.Refused, checkIntField]
    | some i => simp [Declared.Refused, checkIntField]
  | text reader admits given =>
    simp only [Declared.read, checked_eq_ok, Declared.Refused, not_or, Bool.not_eq_false,
      ← readText_succeeds_iff]
    constructor
    · rintro ⟨_, hadmits, text, htext, _⟩
      exact ⟨hadmits, text, htext⟩
    · rintro ⟨hadmits, text, htext⟩
      exact ⟨_, hadmits, text, htext, rfl⟩
  | list reader admits given =>
    simp only [Declared.read, checked_eq_ok, Declared.Refused, not_or, Bool.not_eq_false, not_exists,
      not_and, ← readText_succeeds_iff, ← mapM_succeeds_iff]
    constructor
    · rintro ⟨_, hadmits, items, hitems, _⟩
      exact ⟨hadmits, items, hitems⟩
    · rintro ⟨hadmits, items, hitems⟩
      exact ⟨_, hadmits, items, hitems, rfl⟩

/-- What the graph has of one field is what was given just where the value went in whole. -/
theorem exact_iff {d : Declared} {stored : Stored} (h : d.read = .ok stored) :
    d.Exact stored ↔ d.Whole := by
  cases d with
  | integer field given =>
    obtain ⟨n, hn, rfl⟩ := map_eq_ok.mp h
    obtain ⟨-, -, rfl⟩ := readInteger_eq_ok.mp hn
    cases given with
    | none => simp [Declared.Exact, Declared.Whole, checkIntField]
    | some i =>
      simpa [Declared.Exact, Declared.Whole, checkIntField] using toInt32_exact_iff i
  | text reader admits given =>
    obtain ⟨-, text, htext, rfl⟩ := checked_eq_ok.mp h
    exact TextReader.form_exact_iff (readText_eq_ok.mp htext).2
  | list reader admits given =>
    obtain ⟨-, items, hitems, rfl⟩ := checked_eq_ok.mp h
    refine mapM_eq_some_iff (fun s _ text htext => ?_) hitems
    exact TextReader.form_exact_iff (readText_eq_ok.mp htext).2

/-- The graph of an evaluation has every number and every text as it is given just where one of
the fields is refused, or where every integer is an `int` and no text has a NUL. A number that is
no `int` is refused by its low 32 bits, and a text with a NUL by what stands in front of it. -/
theorem evaluate_exact_iff (fields : List Declared) :
    (∀ graph, evaluate fields = .ok graph → List.Forall₂ Declared.Exact fields graph) ↔
      (∃ d ∈ fields, d.Refused) ∨ ∀ d ∈ fields, d.Whole := by
  by_cases hrefused : ∃ d ∈ fields, d.Refused
  · refine iff_of_true (fun graph h => ?_) (.inl hrefused)
    obtain ⟨d, hd, hrefused⟩ := hrefused
    exact absurd hrefused ((read_succeeds_iff d).mp (mapM_succeeds_iff.mp ⟨graph, h⟩ d hd))
  · have hsome : ∃ graph, evaluate fields = .ok graph := by
      refine mapM_succeeds_iff.mpr fun d hd => (read_succeeds_iff d).mpr fun hone => ?_
      exact hrefused ⟨d, hd, hone⟩
    obtain ⟨graph, hgraph⟩ := hsome
    have hexact := mapM_eq_ok_forall₂_iff (fun d _ _ => exact_iff (d := d)) hgraph
    rw [or_iff_right hrefused, ← hexact]
    constructor
    · intro h
      exact h graph hgraph
    · rintro h graph' hgraph'
      rwa [← Except.ok.inj (hgraph.symm.trans hgraph')]

/-- A timeout of 4294967301 seconds is one of five seconds, and of a text with a NUL there is the
beginning. -/
theorem long_timeout_shortened :
    let fields : List Declared := [.integer .testTimeout (some 4294967301),
      .text .copied (fun _ => true) [97, 0, 98]]
    evaluate fields = .ok [.integer 5, .text [97]] ∧
      ¬List.Forall₂ Declared.Exact fields [.integer 5, .text [97]] := by
  refine ⟨rfl, fun h => ?_⟩
  have hfirst : (5 : Int32).toInt = (4294967301 : Int64).toInt := (List.forall₂_cons.mp h).1
  exact absurd hfirst (by decide)

end QStar.Authoring.DeclaredScalars
