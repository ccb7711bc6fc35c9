import QStar.Lib.QuotedFields
import QStar.Stella.StateDb

/-!
# The JSON dump of the action state

`state/actions.json` is written on request, an entry on each line. It is read
back by a search for the quoted field names, which does not undo the escapes and
cuts lines and values to the size of their buffers. Entries without escapes that
fit come back as they were.
-/
namespace QStar.Stella

open QStar.Lib.CStrings
open QStar.Lib.QuotedFields

/-- `QSTAR_PATH_MAX` -/
def pathMax : Nat := 4096

/-- `sizeof(line)` in `state_load` -/
def stateLineSize : Nat := 8192

/-- The sizes of `key`, `status` and `kind` in `state_load`. -/
def stateWordSize : Nat := 64

def stateFieldNames : List Bytes :=
  [ascii "id", ascii "key", ascii "output", ascii "status", ascii "kind", ascii "argv_key",
    ascii "env_key", ascii "input_key", ascii "depfile_key", ascii "tool_policy_key",
    ascii "output_key", ascii "external_tool_key"]

def StateEntry.fields (e : StateEntry) : List (Bytes × Bytes) := stateFieldNames.zip e.strings

/-- One character of `json_string`. -/
def jsonEscape (c : UInt8) : Bytes :=
  if c = quote ∨ c = 92 then [92, c]
  else if c = 10 then ascii "\\n"
  else if c = 13 then ascii "\\r"
  else if c = 9 then ascii "\\t"
  else [c]

def jsonString (s : Bytes) : Bytes := quote :: s.flatMap jsonEscape ++ [quote]

def dumpFields : List (Bytes × Bytes) → Bytes
  | [] => []
  | [(name, value)] => quote :: name ++ [quote, 58] ++ jsonString value
  | (name, value) :: rest =>
    quote :: name ++ [quote, 58] ++ jsonString value ++ [44] ++ dumpFields rest

def dumpEntry (e : StateEntry) : Bytes := ascii "  \x7b" ++ dumpFields e.fields ++ ascii "\x7d"

def dumpLines : List StateEntry → List Bytes
  | [] => []
  | [e] => [dumpEntry e]
  | e :: rest => (dumpEntry e ++ [44]) :: dumpLines rest

/-- What `state_write` puts into `actions.json`. -/
def dumpText (entries : List StateEntry) : Bytes :=
  (ascii "[" :: dumpLines entries ++ [ascii "]"]).flatMap fun line => line ++ [10]

/-- `json_field_copy` -/
def jsonFieldCopy (line name : Bytes) (dstlen : Nat) : Bytes :=
  ((fieldText name line).getD []).take (dstlen - 1)

/-- One turn of the loop of `state_load`. -/
def entryOfLine (line : Bytes) : Option StateEntry :=
  let e : StateEntry := {
    id := jsonFieldCopy line (ascii "id") pathMax
    key := jsonFieldCopy line (ascii "key") stateWordSize
    output := jsonFieldCopy line (ascii "output") pathMax
    status := jsonFieldCopy line (ascii "status") stateWordSize
    kind := jsonFieldCopy line (ascii "kind") stateWordSize
    argvKey := jsonFieldCopy line (ascii "argv_key") digestSize
    envKey := jsonFieldCopy line (ascii "env_key") digestSize
    inputKey := jsonFieldCopy line (ascii "input_key") digestSize
    depfileKey := jsonFieldCopy line (ascii "depfile_key") digestSize
    toolPolicyKey := jsonFieldCopy line (ascii "tool_policy_key") digestSize
    outputKey := jsonFieldCopy line (ascii "output_key") digestSize
    externalToolKey := jsonFieldCopy line (ascii "external_tool_key") digestSize }
  if e.complete then some e else none

/-- The loop of `state_load` over the lines of `actions.json`. -/
def jsonLoad (text : Bytes) : List StateEntry :=
  (fgetsAll (stateLineSize - 1) text.length text).filterMap fun line => entryOfLine (cString line)

/-- An entry that comes back from its line as it was: no character is escaped and the strings
fit their buffers. -/
structure StateEntry.Plain (e : StateEntry) : Prop where
  unescaped : ∀ s ∈ e.strings, ∀ c ∈ s, jsonEscape c = [c]
  id : e.id.length < pathMax
  key : e.key.length < stateWordSize
  output : e.output.length < pathMax
  status : e.status.length < stateWordSize
  kind : e.kind.length < stateWordSize

/-- A list of entries that is read back from its dump. -/
structure PlainDump (entries : List StateEntry) : Prop where
  plain : ∀ e ∈ entries, e.Plain
  lines : ∀ line ∈ dumpLines entries, line.length < stateLineSize - 1

theorem flatMap_jsonEscape {s : Bytes} (h : ∀ c ∈ s, jsonEscape c = [c]) :
    s.flatMap jsonEscape = s := by
  induction s with
  | nil => rfl
  | cons c s ih =>
    rw [List.flatMap_cons, h c (by simp), ih fun d hd => h d (by simp [hd])]
    rfl

theorem unescaped_ne {c : UInt8} (h : jsonEscape c = [c]) : c ≠ quote ∧ c ≠ 10 := by
  constructor
  · rintro rfl
    cases h
  · rintro rfl
    cases h

theorem dumpFields_eq_pieces {fields : List (Bytes × Bytes)} {close : Bytes} (hne : fields ≠ [])
    (h : ∀ f ∈ fields, ∀ c ∈ f.2, jsonEscape c = [c]) :
    dumpFields fields ++ close = pieces (fieldPieces close fields) := by
  induction fields with
  | nil => exact absurd rfl hne
  | cons field rest ih =>
    obtain ⟨name, value⟩ := field
    have hvalue := flatMap_jsonEscape (h (name, value) (by simp))
    cases rest with
    | nil => simp [dumpFields, fieldPieces, jsonString, hvalue, pieces]
    | cons other more =>
      have hrest := ih (by simp) fun f hf => h f (by simp [hf])
      simp only [dumpFields, fieldPieces, jsonString, hvalue, List.append_assoc, hrest,
        List.cons_append, List.nil_append, pieces_cons]

/-- The line of a plain entry, whatever follows its closing brace, is read as the entry. -/
theorem entryOfLine_dump {e : StateEntry} (hvalid : e.Valid) (hplain : e.Plain) (after : Bytes) :
    entryOfLine (dumpEntry e ++ after) = some e := by
  have hrow : dumpEntry e ++ after =
      ascii "  \x7b" ++ pieces (fieldPieces (ascii "\x7d" ++ after) e.fields) := by
    rw [← dumpFields_eq_pieces (by simp [StateEntry.fields, stateFieldNames, StateEntry.strings])]
    · simp [dumpEntry]
    · intro f hf
      exact hplain.unescaped f.2 (List.of_mem_zip hf).2
  have hquote : ∀ f ∈ e.fields, quote ∉ f.1 ∧ quote ∉ f.2 := by
    intro f hf
    obtain ⟨hname, hstring⟩ := List.of_mem_zip hf
    refine ⟨?_, fun hmem => (unescaped_ne (hplain.unescaped f.2 hstring _ hmem)).1 rfl⟩
    revert hname
    generalize f.1 = name
    revert name
    decide
  have hfield : ∀ name value, e.fields.lookup name = some value → quote ∉ name → name ≠ [58] →
      name ≠ [44] → fieldText name (dumpEntry e ++ after) = some value := by
    intro name value hlookup hname hcolon hcomma
    rw [hrow]
    exact fieldText_row (by decide) hname hcolon hcomma hquote hlookup
  have hcopy : ∀ name value size, e.fields.lookup name = some value → value.length < size →
      quote ∉ name → name ≠ [58] → name ≠ [44] →
      jsonFieldCopy (dumpEntry e ++ after) name size = value := by
    intro name value size hlookup hsize hname hcolon hcomma
    rw [jsonFieldCopy, hfield name value hlookup hname hcolon hcomma, Option.getD_some,
      List.take_of_length_le (by omega)]
  have hdigest := hvalid.digests
  simp only [StateEntry.digests, List.mem_cons, List.not_mem_nil, or_false, forall_eq_or_imp,
    forall_eq] at hdigest
  obtain ⟨hargv, henv, hinput, hdepfile, hpolicy, hout, hext⟩ := hdigest
  have hread : ∀ d : StateEntry, d = e → (if d.complete then some d else none) = some e := by
    rintro d rfl
    exact if_pos hvalid.complete
  refine hread _ ?_
  rw [hcopy (ascii "id") e.id _ rfl hplain.id (by decide) (by decide) (by decide),
    hcopy (ascii "key") e.key _ rfl hplain.key (by decide) (by decide) (by decide),
    hcopy (ascii "output") e.output _ rfl hplain.output (by decide) (by decide) (by decide),
    hcopy (ascii "status") e.status _ rfl hplain.status (by decide) (by decide) (by decide),
    hcopy (ascii "kind") e.kind _ rfl hplain.kind (by decide) (by decide) (by decide),
    hcopy (ascii "argv_key") e.argvKey _ rfl hargv (by decide) (by decide) (by decide),
    hcopy (ascii "env_key") e.envKey _ rfl henv (by decide) (by decide) (by decide),
    hcopy (ascii "input_key") e.inputKey _ rfl hinput (by decide) (by decide) (by decide),
    hcopy (ascii "depfile_key") e.depfileKey _ rfl hdepfile (by decide) (by decide) (by decide),
    hcopy (ascii "tool_policy_key") e.toolPolicyKey _ rfl hpolicy (by decide) (by decide)
      (by decide),
    hcopy (ascii "output_key") e.outputKey _ rfl hout (by decide) (by decide) (by decide),
    hcopy (ascii "external_tool_key") e.externalToolKey _ rfl hext (by decide) (by decide)
      (by decide)]

theorem notMem_dumpFields {c : UInt8} {fields : List (Bytes × Bytes)} (hc : c ∉ [quote, 58, 44])
    (h : ∀ f ∈ fields, c ∉ f.1 ∧ c ∉ f.2.flatMap jsonEscape) : c ∉ dumpFields fields := by
  simp only [List.mem_cons, List.not_mem_nil, or_false, not_or] at hc
  obtain ⟨hq, hcolon, hcomma⟩ := hc
  induction fields with
  | nil => simp [dumpFields]
  | cons field rest ih =>
    obtain ⟨name, value⟩ := field
    obtain ⟨hname, hvalue⟩ := h (name, value) (by simp)
    have hrest := ih fun f hf => h f (by simp [hf])
    cases rest with
    | nil =>
      simp only [dumpFields, jsonString, List.mem_append, List.mem_cons, List.not_mem_nil]
      tauto
    | cons other more =>
      simp only [dumpFields, jsonString, List.mem_append, List.mem_cons, List.not_mem_nil] at hrest ⊢
      tauto

/-- A byte outside the names and the punctuation is in a plain line only if it is in a string. -/
theorem notMem_dumpEntry {e : StateEntry} (hplain : e.Plain) {c : UInt8} (hc : c = 0 ∨ c = 10)
    (hstrings : ∀ s ∈ e.strings, c ∉ s) : c ∉ dumpEntry e := by
  have hnames : ∀ name ∈ stateFieldNames, c ∉ name := by
    rcases hc with rfl | rfl <;> decide
  have hpunctuation : c ∉ [quote, 58, 44] ∧ c ∉ ascii "  \x7b" ∧ c ∉ ascii "\x7d" := by
    rcases hc with rfl | rfl <;> decide
  obtain ⟨hmarks, hopen, hclose⟩ := hpunctuation
  have hfields : c ∉ dumpFields e.fields := by
    refine notMem_dumpFields hmarks ?_
    intro f hf
    obtain ⟨hname, hstring⟩ := List.of_mem_zip hf
    rw [flatMap_jsonEscape (hplain.unescaped f.2 hstring)]
    exact ⟨hnames f.1 hname, hstrings f.2 hstring⟩
  simp only [dumpEntry, List.mem_append, not_or]
  exact ⟨⟨hopen, hfields⟩, hclose⟩

theorem mem_dumpLines {entries : List StateEntry} {line : Bytes} (h : line ∈ dumpLines entries) :
    ∃ e ∈ entries, line = dumpEntry e ∨ line = dumpEntry e ++ [44] := by
  induction entries with
  | nil => cases h
  | cons e rest ih =>
    cases rest with
    | nil => exact ⟨e, by simp, .inl (List.mem_singleton.mp h)⟩
    | cons other more =>
      rcases List.mem_cons.mp h with rfl | h
      · exact ⟨e, by simp, .inr rfl⟩
      · obtain ⟨f, hf, hline⟩ := ih h
        exact ⟨f, by simp [hf], hline⟩

theorem filterMap_dumpLines {entries : List StateEntry} (hvalid : ∀ e ∈ entries, e.Valid)
    (hplain : ∀ e ∈ entries, e.Plain) :
    (dumpLines entries).filterMap (fun line => entryOfLine (line ++ [10])) = entries := by
  induction entries with
  | nil => rfl
  | cons e rest ih =>
    have hone := entryOfLine_dump (hvalid e (by simp)) (hplain e (by simp))
    have hrest := ih (fun f hf => hvalid f (by simp [hf])) fun f hf => hplain f (by simp [hf])
    cases rest with
    | nil => simp [dumpLines, hone]
    | cons other more =>
      have hcons : dumpLines (e :: other :: more) =
          (dumpEntry e ++ [44]) :: dumpLines (other :: more) := rfl
      have hhead : entryOfLine ((dumpEntry e ++ [44]) ++ [10]) = some e := by
        rw [List.append_assoc]
        exact hone _
      rw [hcons, List.filterMap_cons, hrest]
      simp only [hhead]

/-- What was dumped is read back when no string is escaped or cut. -/
theorem jsonLoad_dumpText {entries : List StateEntry} (hvalid : ∀ e ∈ entries, e.Valid)
    (hplain : PlainDump entries) : jsonLoad (dumpText entries) = entries := by
  have hfree : ∀ c : UInt8, c = 0 ∨ c = 10 → ∀ line ∈ dumpLines entries, c ∉ line := by
    intro c hc line hline
    obtain ⟨e, he, hline⟩ := mem_dumpLines hline
    have hstrings : ∀ s ∈ e.strings, c ∉ s := by
      intro s hs hmem
      rcases hc with rfl | rfl
      · exact (hvalid e he).text s hs hmem
      · exact (unescaped_ne ((hplain.plain e he).unescaped s hs _ hmem)).2 rfl
    have hentry := notMem_dumpEntry (hplain.plain e he) hc hstrings
    rcases hline with rfl | rfl
    · exact hentry
    · have hcomma : c ≠ 44 := by rcases hc with rfl | rfl <;> decide
      simp [hentry, hcomma]
  have hlines : ∀ line ∈ ascii "[" :: dumpLines entries ++ [ascii "]"],
      0 ∉ line ∧ 10 ∉ line ∧ line.length < stateLineSize - 1 := by
    intro line hline
    simp only [List.cons_append, List.mem_cons, List.mem_append, List.not_mem_nil, or_false] at hline
    rcases hline with rfl | hline | rfl
    · decide
    · exact ⟨hfree 0 (.inl rfl) line hline, hfree 10 (.inr rfl) line hline,
        hplain.lines line hline⟩
    · decide
  have hcut : ∀ line ∈ ascii "[" :: dumpLines entries ++ [ascii "]"],
      cString (line ++ [10]) = line ++ [10] := by
    intro line hline
    exact cString_eq_self (by simp [(hlines line hline).1])
  have hread := fgetsAll_lines (fun l hl => (hlines l hl).2.1) (fun l hl => (hlines l hl).2.2)
    (length_le_lines _)
  have hframe : entryOfLine (ascii "[" ++ [10]) = none ∧ entryOfLine (ascii "]" ++ [10]) = none := by
    decide
  have hload : jsonLoad (dumpText entries) = (ascii "[" :: dumpLines entries ++ [ascii "]"]).filterMap
      fun line => entryOfLine (line ++ [10]) := by
    rw [jsonLoad, dumpText, hread, List.filterMap_map]
    refine List.filterMap_congr ?_
    intro line hline
    simp only [Function.comp_apply, hcut line hline]
  rw [hload, List.cons_append, List.filterMap_cons, List.filterMap_append,
    filterMap_dumpLines hvalid hplain.plain]
  simp [hframe]

end QStar.Stella
