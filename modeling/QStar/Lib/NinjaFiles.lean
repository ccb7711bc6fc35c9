import QStar.Lib.NinjaEdges
import QStar.Lib.Streams

/-!
# Ninja files line by line

The lines a generated Ninja file consists of: blank lines and comments, rule
declarations, bindings, build statements and defaults. A file is read line by line,
and it is read as it was meant when no line holds a newline and each is read as it
was meant.
-/
namespace QStar.Lib.NinjaFiles

open QStar.Lib.CStrings
open QStar.Lib.NinjaEdges
open QStar.Lib.Streams

/-! ## Values -/

/-- A byte of the name of a variable. -/
def nameByte (c : UInt8) : Bool :=
  (48 ≤ c && c ≤ 57) || (65 ≤ c && c ≤ 90) || (97 ≤ c && c ≤ 122) || c = 95 || c = 45

/-- What has been read of an escape in a value. -/
inductive ValueState where
  | text
  | dollar
  /-- After an opening brace, and whether a name has begun. -/
  | brace (named : Bool)
  deriving DecidableEq

/-- Reading one byte of a value. -/
def valueStep : ValueState → UInt8 → Option ValueState
  | .text, c =>
    if c = 36 then some .dollar else if c = 10 ∨ c = 13 then none else some .text
  | .dollar, c =>
    if c = 32 ∨ c = 58 ∨ c = 36 ∨ nameByte c = true then some .text
    else if c = 123 then some (.brace false)
    else none
  | .brace named, c =>
    if nameByte c = true ∨ c = 46 then some (.brace true)
    else if c = 125 ∧ named = true then some .text
    else none

/-- What a text leaves a reader of values in. -/
def readValue : ValueState → Bytes → Option ValueState
  | s, [] => some s
  | s, c :: rest => (valueStep s c).bind fun s => readValue s rest

/-- A text is a value: every dollar starts an escape or a reference, and it is one line. -/
def IsValue (text : Bytes) : Prop := readValue .text text = some .text

instance (text : Bytes) : Decidable (IsValue text) := inferInstanceAs (Decidable (_ = _))

theorem readValue_append (s : ValueState) (a b : Bytes) :
    readValue s (a ++ b) = (readValue s a).bind fun s => readValue s b := by
  induction a generalizing s with
  | nil => rfl
  | cons c a ih =>
    rw [List.cons_append, readValue, readValue]
    cases valueStep s c with
    | none => rfl
    | some s' => exact ih s'

/-- A text without dollars and without line breaks is a value. -/
theorem isValue_of_forall {text : Bytes} (h : ∀ c ∈ text, c ≠ 36 ∧ c ≠ 10 ∧ c ≠ 13) :
    IsValue text := by
  induction text with
  | nil => rfl
  | cons c rest ih =>
    obtain ⟨hdollar, hnewline, hreturn⟩ := h c (by simp)
    have hrest := ih fun d hd => h d (by simp [hd])
    simpa [IsValue, readValue, valueStep, hdollar, hnewline, hreturn] using hrest

/-- No byte after the text completes an escape in it. -/
def Closed (text : Bytes) : Prop :=
  readValue .text text = some .text ∨ readValue .text text = none

theorem IsValue.closed {text : Bytes} (h : IsValue text) : Closed text := .inl h

theorem closed_singleton {c : UInt8} (h : c ≠ 36) : Closed [c] := by
  simp only [Closed, readValue, valueStep, if_neg h]
  split
  · exact .inr rfl
  · exact .inl rfl

theorem isValue_append_iff {a b : Bytes} (ha : Closed a) :
    IsValue (a ++ b) ↔ IsValue a ∧ IsValue b := by
  unfold IsValue
  rw [readValue_append]
  rcases ha with ha | ha
  · simp [ha]
  · simp [ha]

theorem Closed.append {a b : Bytes} (ha : Closed a) (hb : Closed b) : Closed (a ++ b) := by
  unfold Closed
  rw [readValue_append]
  rcases ha with ha | ha
  · rw [ha]
    exact hb
  · rw [ha]
    exact .inr rfl

/-- A text in closed pieces is a value when its pieces are. -/
theorem isValue_flatMap_iff {α : Type} {f : α → Bytes} {items : List α}
    (hf : ∀ x ∈ items, Closed (f x)) : IsValue (items.flatMap f) ↔ ∀ x ∈ items, IsValue (f x) := by
  induction items with
  | nil => simp [IsValue, readValue]
  | cons x rest ih =>
    rw [List.flatMap_cons, isValue_append_iff (hf x (by simp)),
      ih fun y hy => hf y (by simp [hy])]
    simp

theorem closed_flatMap {α : Type} {f : α → Bytes} {items : List α}
    (hf : ∀ x ∈ items, Closed (f x)) : Closed (items.flatMap f) := by
  induction items with
  | nil => exact .inl rfl
  | cons x rest ih =>
    rw [List.flatMap_cons]
    exact (hf x (by simp)).append (ih fun y hy => hf y (by simp [hy]))

/-- Words with spaces between them. -/
theorem isValue_words_iff {words : List Bytes} (hwords : ∀ w ∈ words, Closed w) :
    IsValue ((ascii " ").intercalate words) ↔ ∀ w ∈ words, IsValue w := by
  have hspace : IsValue (ascii " ") := by decide
  induction words with
  | nil => simp [List.intercalate, IsValue, readValue]
  | cons w rest ih =>
    cases rest with
    | nil => simp [List.intercalate]
    | cons v more =>
      have hrest : IsValue ((ascii " ").intercalate (v :: more)) ↔ ∀ w ∈ v :: more, IsValue w :=
        ih fun w hw => hwords w (List.mem_cons_of_mem _ hw)
      have htext : (ascii " ").intercalate (w :: v :: more) =
          w ++ (ascii " " ++ (ascii " ").intercalate (v :: more)) := by
        simp [List.intercalate, List.intersperse]
      rw [htext, isValue_append_iff (hwords w (by simp)), isValue_append_iff hspace.closed, hrest]
      simp [hspace]

/-- A byte that no escape and no reference goes on with. -/
def Stops (c : UInt8) : Prop :=
  valueStep .text c = some .text ∧ valueStep .dollar c = none ∧
    ∀ named, valueStep (.brace named) c = none

theorem isValue_stop_iff {c : UInt8} (hc : Stops c) (a b : Bytes) :
    IsValue (a ++ c :: b) ↔ IsValue a ∧ IsValue b := by
  obtain ⟨htext, hdollar, hbrace⟩ := hc
  unfold IsValue
  rw [readValue_append]
  cases readValue .text a with
  | none => simp
  | some s =>
    cases s with
    | text => simp [readValue, htext]
    | dollar => simp [readValue, hdollar]
    | brace named => simp [readValue, hbrace]

theorem closed_stop {c : UInt8} (hc : Stops c) (a : Bytes) : Closed (a ++ [c]) := by
  obtain ⟨htext, hdollar, hbrace⟩ := hc
  unfold Closed
  rw [readValue_append]
  cases readValue .text a with
  | none => exact .inr rfl
  | some s =>
    cases s with
    | text => simp [readValue, htext]
    | dollar => simp [readValue, hdollar]
    | brace named => simp [readValue, hbrace]

/-- A text without line breaks. -/
def Unbroken (text : Bytes) : Prop := ∀ c ∈ text, c ≠ 10 ∧ c ≠ 13

instance (text : Bytes) : Decidable (Unbroken text) := inferInstanceAs (Decidable (∀ c ∈ text, _))

/-- No state goes on with a line break. -/
theorem valueStep_break {s : ValueState} {c : UInt8} (hc : c = 10 ∨ c = 13) :
    valueStep s c = none := by
  rcases hc with rfl | rfl
  · cases s with
    | brace named => simp [valueStep, nameByte]
    | _ => decide
  · cases s with
    | brace named => simp [valueStep, nameByte]
    | _ => decide

theorem unbroken_of_readValue {text : Bytes} {s s' : ValueState}
    (h : readValue s text = some s') : Unbroken text := by
  induction text generalizing s with
  | nil => nofun
  | cons c rest ih =>
    obtain ⟨mid, hstep, hrest⟩ := Option.bind_eq_some_iff.mp h
    intro d hd
    rcases List.mem_cons.mp hd with rfl | hd
    · by_contra hbreak
      rw [valueStep_break (by tauto)] at hstep
      cases hstep
    · exact ih hrest d hd

theorem IsValue.unbroken {text : Bytes} (h : IsValue text) : Unbroken text :=
  unbroken_of_readValue h

/-- A text in which a writer escapes every dollar, byte by byte. -/
theorem isValue_escaped_iff {f : UInt8 → Bytes}
    (hdollar : ∀ c, c = 36 ∨ f c ≠ [c] → IsValue (f c) ∧ c ≠ 10 ∧ c ≠ 13) (text : Bytes) :
    Closed (text.flatMap f) ∧ (IsValue (text.flatMap f) ↔ Unbroken text) := by
  have hclosed : ∀ c, Closed (f c) := by
    intro c
    by_cases hc : c = 36 ∨ f c ≠ [c]
    · exact (hdollar c hc).1.closed
    · obtain ⟨hne, heq⟩ := not_or.mp hc
      rw [not_not.mp heq]
      exact closed_singleton hne
  refine ⟨closed_flatMap fun c _ => hclosed c, ?_⟩
  rw [isValue_flatMap_iff fun c _ => hclosed c]
  unfold Unbroken
  refine forall₂_congr ?_
  intro c _
  by_cases hc : c = 36 ∨ f c ≠ [c]
  · simp [hdollar c hc]
  · obtain ⟨hne, heq⟩ := not_or.mp hc
    rw [not_not.mp heq]
    simp [IsValue, readValue, valueStep, hne]

/-- A written path is a value when it has no line break. -/
theorem isValue_escape_iff (p : Bytes) : IsValue (escape p) ↔ Unbroken p := by
  refine (isValue_escaped_iff ?_ p).2
  intro c hc
  by_cases hspecial : c = 32 ∨ c = 58 ∨ c = 36
  · rcases hspecial with rfl | rfl | rfl <;> decide
  · simp [hspecial] at hc
    exact absurd (.inr (.inr hc)) hspecial

/-! ## Lines -/

inductive Line where
  | blank
  | comment
  | rule (name : Bytes)
  | binding (name : Bytes)
  /-- An indented binding, which belongs to the statement above it. -/
  | variable (name : Bytes)
  | build (edge : Edge)
  | default (paths : List Bytes)
  deriving DecidableEq, Repr

/-- The name of a binding whose value can be read. -/
def readBinding (text : Bytes) : Option Bytes :=
  let name := text.takeWhile fun c => nameByte c || c = 46
  let rest := text.dropWhile fun c => nameByte c || c = 46
  if name ≠ [] ∧ ascii " = " <+: rest ∧ IsValue (rest.drop 3) then some name else none

/-- The paths of a default line. -/
def readDefault (tokens : List Token) : Option (List Bytes) :=
  if (takePaths tokens).2 = [] ∧ (takePaths tokens).1 ≠ [] then some (takePaths tokens).1 else none

def readLine (text : Bytes) : Option Line :=
  if text = [] then some .blank
  else if text.head? = some 35 then some .comment
  else if ascii "build " <+: text then
    ((lex .between (text.drop 5)).bind readEdge).map .build
  else if ascii "default " <+: text then
    ((lex .between (text.drop 7)).bind readDefault).map .default
  else if ascii "rule " <+: text then
    if text.drop 5 ≠ [] ∧ (text.drop 5).all (fun c => nameByte c || c = 46) = true then
      some (.rule (text.drop 5))
    else none
  else if ascii "  " <+: text then (readBinding (text.drop 2)).map .variable
  else (readBinding text).map .binding

/-! ## Written lines -/

/-- A build line. -/
def buildText (e : WrittenEdge) : Bytes := ascii "build" ++ e.tokens.flatMap Token.print

/-- A default line. -/
def defaultText (paths : List Bytes) : Bytes :=
  ascii "default" ++ paths.flatMap fun p => (Token.path p).print

/-- An indented binding. -/
def variableText (name value : Bytes) : Bytes := ascii "  " ++ name ++ ascii " = " ++ value

/-- A build line is read as it is meant exactly when each of its paths can be written, it has
an output and it opens no section twice. -/
theorem readLine_build_iff {e : WrittenEdge} (hrule : Plain e.rule) (houtputs : e.outputs ≠ []) :
    readLine (buildText e) = some (.build e.edge) ↔
      (∀ p ∈ e.paths, Plain p) ∧ e.implicit.length ≤ 1 ∧ e.orderOnly.length ≤ 1 := by
  obtain ⟨p, ps, hps⟩ := List.exists_cons_of_ne_nil houtputs
  have hspace : ∃ rest, e.tokens.flatMap Token.print = 32 :: rest := by
    simp [WrittenEdge.tokens, hps, Token.print]
  obtain ⟨rest, hrest⟩ := hspace
  have hline : readLine (buildText e) =
      ((lex .between (e.tokens.flatMap Token.print)).bind readEdge).map .build := by
    have hprefix : ascii "build " <+: buildText e := ⟨rest, by simp [buildText, hrest, ascii]⟩
    have hne : buildText e ≠ [] := by simp [buildText, ascii]
    have hhead : (buildText e).head? ≠ some 35 := by simp [buildText, ascii]
    have hdrop : (buildText e).drop 5 = e.tokens.flatMap Token.print := by
      simp [buildText, ascii]
    rw [readLine, if_neg hne, if_neg hhead, if_pos hprefix, hdrop]
  rw [hline, Option.map_eq_some_iff]
  simp only [Line.build.injEq, exists_eq_right]
  rw [read_written_iff hrule]
  simp [houtputs]

/-- A default line is read as it is meant exactly when its paths can be written. -/
theorem readLine_default_iff {paths : List Bytes} (hne : paths ≠ []) :
    readLine (defaultText paths) = some (.default paths) ↔ ∀ p ∈ paths, Plain p := by
  have htext : paths.flatMap (fun p => (Token.path p).print) =
      (paths.map Token.path).flatMap Token.print := by simp [List.flatMap_map]
  obtain ⟨p, ps, hps⟩ := List.exists_cons_of_ne_nil hne
  have hline : readLine (defaultText paths) =
      ((lex .between ((paths.map Token.path).flatMap Token.print)).bind readDefault).map
        .default := by
    have hprefix : ascii "default " <+: defaultText paths := by
      refine ⟨escape p ++ ps.flatMap fun p => (Token.path p).print, ?_⟩
      simp [defaultText, hps, ascii, Token.print]
    have hempty : defaultText paths ≠ [] := by simp [defaultText, ascii]
    have hhead : (defaultText paths).head? ≠ some 35 := by simp [defaultText, ascii]
    have hbuild : ¬ascii "build " <+: defaultText paths := by
      simp [defaultText, ascii]
    have hdrop : (defaultText paths).drop 7 = (paths.map Token.path).flatMap Token.print := by
      rw [← htext]
      simp [defaultText, ascii]
    rw [readLine, if_neg hempty, if_neg hhead, if_neg hbuild, if_pos hprefix, hdrop]
  have hall : takePaths (paths.map Token.path) = (paths, []) := by
    simpa using @takePaths_map paths [] (by simp)
  rw [hline, Option.map_eq_some_iff]
  simp only [Line.default.injEq, exists_eq_right]
  constructor
  · intro h p hp
    obtain ⟨tokens, hlex, hread⟩ := Option.bind_eq_some_iff.mp h
    refine plain_of_lex (s := .between) trivial hlex p ?_
    unfold readDefault at hread
    split at hread
    · cases hread
      exact mem_takePaths.1 hp
    · cases hread
  · intro h
    have htokens : ∀ p, .path p ∈ paths.map Token.path → Plain p := by
      intro p hp
      exact h p (by simpa using hp)
    rw [@lex_print _ htokens _ [] rfl]
    simp [readDefault, hall, hne]

theorem readBinding_eq {name : Bytes} (hne : name ≠ []) (hname : ∀ c ∈ name, nameByte c = true)
    (value : Bytes) :
    readBinding (name ++ (ascii " = " ++ value)) = if IsValue value then some name else none := by
  have hall : ∀ c ∈ name, (nameByte c || decide (c = 46)) = true := by
    intro c hc
    simp [hname c hc]
  have hstop : (ascii " = " ++ value).takeWhile (fun c => nameByte c || decide (c = 46)) = [] := by
    simp [ascii, nameByte]
  have hdrop : (ascii " = " ++ value).dropWhile (fun c => nameByte c || decide (c = 46)) =
      ascii " = " ++ value := by
    simp [ascii, nameByte]
  unfold readBinding
  rw [List.takeWhile_append_of_pos hall, List.dropWhile_append_of_pos hall, hstop, hdrop]
  simp [hne, ascii]

/-- An indented binding is read under its name exactly when its value can be read. -/
theorem readLine_variable_iff {name value : Bytes} (hne : name ≠ [])
    (hname : ∀ c ∈ name, nameByte c = true) :
    readLine (variableText name value) = some (.variable name) ↔ IsValue value := by
  have hline : readLine (variableText name value) =
      (readBinding (name ++ (ascii " = " ++ value))).map .variable := by
    simp [readLine, variableText, ascii]
  rw [hline, readBinding_eq hne hname]
  split
  · rename_i h
    simp [h]
  · rename_i h
    simp [h]

/-! ## Lines without breaks -/

/-- A text is one line, and is read as that line. -/
def ReadsAs (text : Bytes) (line : Line) : Prop := 10 ∉ text ∧ readLine text = some line

instance (text : Bytes) (line : Line) : Decidable (ReadsAs text line) :=
  inferInstanceAs (Decidable (_ ∧ _))

theorem newline_notMem_print {token : Token} (h : ∀ p, token = .path p → Plain p) :
    10 ∉ token.print := by
  cases token with
  | path p =>
    obtain ⟨-, hbytes⟩ := h p rfl
    intro hmem
    rcases List.mem_cons.mp hmem with heq | hmem
    · cases heq
    · obtain ⟨c, hc, hmem⟩ := List.mem_flatMap.mp hmem
      have hne := (hbytes c hc).2.1
      split at hmem
      · simp only [List.mem_cons, List.not_mem_nil, or_false] at hmem
        rcases hmem with heq | heq
        · cases heq
        · exact hne heq.symm
      · exact hne (List.mem_singleton.mp hmem).symm
  | colon => simp [Token.print]
  | pipe => simp [Token.print]
  | pipe2 => simp [Token.print]

theorem newline_notMem_tokens {tokens : List Token} (h : ∀ p, .path p ∈ tokens → Plain p) :
    10 ∉ tokens.flatMap Token.print := by
  intro hmem
  obtain ⟨token, htoken, hmem⟩ := List.mem_flatMap.mp hmem
  exact newline_notMem_print (fun p hp => h p (hp ▸ htoken)) hmem

theorem reads_build_iff {e : WrittenEdge} (hrule : Plain e.rule) (houtputs : e.outputs ≠ []) :
    ReadsAs (buildText e) (.build e.edge) ↔
      (∀ p ∈ e.paths, Plain p) ∧ e.implicit.length ≤ 1 ∧ e.orderOnly.length ≤ 1 := by
  unfold ReadsAs
  rw [readLine_build_iff hrule houtputs, and_iff_right_iff_imp]
  intro hplain hmem
  rcases List.mem_append.mp hmem with hmem | hmem
  · revert hmem
    decide
  · refine newline_notMem_tokens ?_ hmem
    intro p hp
    rcases path_mem_tokens.mp hp with rfl | hp
    · exact hrule
    · exact hplain.1 p hp

theorem reads_default_iff {paths : List Bytes} (hne : paths ≠ []) :
    ReadsAs (defaultText paths) (.default paths) ↔ ∀ p ∈ paths, Plain p := by
  unfold ReadsAs
  rw [readLine_default_iff hne, and_iff_right_iff_imp]
  intro hpaths hmem
  rcases List.mem_append.mp hmem with hmem | hmem
  · revert hmem
    decide
  · obtain ⟨p, hp, hmem⟩ := List.mem_flatMap.mp hmem
    refine newline_notMem_print ?_ hmem
    intro q hq
    cases hq
    exact hpaths p hp

theorem reads_variable_iff {name value : Bytes} (hne : name ≠ [])
    (hname : ∀ c ∈ name, nameByte c = true) :
    ReadsAs (variableText name value) (.variable name) ↔ IsValue value := by
  unfold ReadsAs
  rw [readLine_variable_iff hne hname, and_iff_right_iff_imp]
  intro hvalue hmem
  simp only [variableText, List.mem_append] at hmem
  rcases hmem with ((hmem | hmem) | hmem) | hmem
  · revert hmem
    decide
  · have hbyte := hname 10 hmem
    revert hbyte
    decide
  · revert hmem
    decide
  · exact (hvalue.unbroken 10 hmem).1 rfl

/-- A binding is read under its name, unless the name begins a statement. -/
theorem reads_binding_iff {name : Bytes} (hne : name ≠ [])
    (hname : ∀ c ∈ name, nameByte c = true)
    (hword : name ∉ [ascii "build", ascii "default", ascii "rule"]) (value : Bytes) :
    ReadsAs (name ++ ascii " = " ++ value) (.binding name) ↔ IsValue value := by
  have hspace : 32 ∉ name := by
    intro hmem
    have hbyte := hname 32 hmem
    revert hbyte
    decide
  have hstatement : ∀ word : Bytes, 32 ∉ word → word ≠ name →
      ¬word ++ [32] <+: name ++ ascii " = " ++ value := by
    intro word hword hother hprefix
    obtain ⟨rest, hrest⟩ := hprefix
    refine hother (terminated_append_inj hword hspace (t := 32) (x := rest)
      (y := ascii "= " ++ value) ?_).1
    simpa [terminated, ascii] using hrest
  have hbuild : ¬ascii "build " <+: name ++ ascii " = " ++ value :=
    hstatement (ascii "build") (by decide) (fun h => hword (h ▸ by simp))
  have hdefault : ¬ascii "default " <+: name ++ ascii " = " ++ value :=
    hstatement (ascii "default") (by decide) (fun h => hword (h ▸ by simp))
  have hrule : ¬ascii "rule " <+: name ++ ascii " = " ++ value :=
    hstatement (ascii "rule") (by decide) (fun h => hword (h ▸ by simp))
  obtain ⟨c, rest, rfl⟩ := List.exists_cons_of_ne_nil hne
  have hfirst := hname c (by simp)
  have hcomment : c ≠ 35 := by
    rintro rfl
    revert hfirst
    decide
  have hindent : ¬ascii "  " <+: c :: rest ++ ascii " = " ++ value := by
    intro hprefix
    obtain ⟨more, hmore⟩ := hprefix
    simp [ascii] at hmore
    exact hspace (by simp [hmore.1])
  have hline : readLine (c :: rest ++ ascii " = " ++ value) =
      (readBinding (c :: rest ++ (ascii " = " ++ value))).map .binding := by
    rw [readLine, if_neg (by simp), if_neg (by simpa using hcomment), if_neg hbuild,
      if_neg hdefault, if_neg hrule, if_neg hindent, List.append_assoc]
  unfold ReadsAs
  rw [hline, readBinding_eq hne hname]
  constructor
  · intro h
    by_contra hvalue
    simp [hvalue] at h
  · intro hvalue
    refine ⟨?_, by simp [hvalue]⟩
    intro hmem
    simp only [List.mem_append] at hmem
    rcases hmem with (hmem | hmem) | hmem
    · have hbyte := hname 10 hmem
      revert hbyte
      decide
    · revert hmem
      decide
    · exact (hvalue.unbroken 10 hmem).1 rfl

theorem reads_comment_iff (text : Bytes) :
    ReadsAs (ascii "# " ++ text) .comment ↔ 10 ∉ text := by
  simp [ReadsAs, readLine, ascii]

/-! ## Files -/

/-- The lines of a text; what follows the last newline is one if it is not empty. -/
def splitLines : Bytes → List Bytes
  | [] => []
  | c :: rest =>
    if c = 10 then [] :: splitLines rest
    else
      match splitLines rest with
      | [] => [[c]]
      | line :: lines => (c :: line) :: lines

/-- A file that is read line by line. -/
def readFile (text : Bytes) : Option (List Line) := (splitLines text).mapM readLine

/-- Lines as they are written. -/
def joinLines (lines : List Bytes) : Bytes := lines.flatMap fun line => line ++ [10]

theorem splitLines_line {line : Bytes} (h : 10 ∉ line) (rest : Bytes) :
    splitLines (line ++ 10 :: rest) = line :: splitLines rest := by
  induction line with
  | nil => simp [splitLines]
  | cons c line ih =>
    obtain ⟨hc, hline⟩ := not_or.mp (fun hm => h (List.mem_cons.mpr hm))
    simp [splitLines, Ne.symm hc, ih hline]

/-- Every newline ends a line. -/
theorem length_splitLines (line rest : Bytes) :
    (splitLines (line ++ 10 :: rest)).length = line.count 10 + 1 + (splitLines rest).length := by
  induction line with
  | nil =>
    simp [splitLines]
    omega
  | cons c line ih =>
    by_cases hc : c = 10
    · rw [List.cons_append, splitLines, if_pos hc, List.length_cons, ih, hc]
      simp
      omega
    · have hcount : (c :: line).count 10 = line.count 10 := by simp [hc]
      rw [hcount, ← ih, List.cons_append, splitLines, if_neg hc]
      split
      · rename_i hnil
        rw [hnil, List.length_nil] at ih
        omega
      · rename_i first lines hlines
        rw [hlines]
        rfl

theorem splitLines_ne_nil (line : Bytes) : splitLines (line ++ [10]) ≠ [] := by
  intro hnil
  have hlength := length_splitLines line []
  rw [hnil] at hlength
  simp [splitLines] at hlength

theorem splitLines_append (line rest : Bytes) :
    splitLines (line ++ 10 :: rest) = splitLines (line ++ [10]) ++ splitLines rest := by
  induction line with
  | nil => simp [splitLines]
  | cons c line ih =>
    by_cases hc : c = 10
    · subst hc
      simp [splitLines, ih]
    · obtain ⟨first, lines, hlines⟩ := List.exists_cons_of_ne_nil (splitLines_ne_nil line)
      rw [hlines] at ih
      simp [splitLines, hc, ih, hlines]

theorem splitLines_joinLines (texts : List Bytes) :
    splitLines (joinLines texts) = texts.flatMap fun text => splitLines (text ++ [10]) := by
  induction texts with
  | nil => rfl
  | cons text rest ih =>
    have hjoin : joinLines (text :: rest) = text ++ 10 :: joinLines rest := by simp [joinLines]
    rw [hjoin, splitLines_append, ih, List.flatMap_cons]

theorem joinLines_append (a b : List Bytes) : joinLines (a ++ b) = joinLines a ++ joinLines b :=
  List.flatMap_append

theorem splitLines_append_joinLines (a b : List Bytes) : splitLines (joinLines a ++ joinLines b) =
    splitLines (joinLines a) ++ splitLines (joinLines b) := by
  rw [← joinLines_append, splitLines_joinLines, List.flatMap_append, ← splitLines_joinLines,
    ← splitLines_joinLines]

theorem newline_notMem_splitLines {text line : Bytes} (h : line ∈ splitLines text) : 10 ∉ line := by
  induction text generalizing line with
  | nil => cases h
  | cons c rest ih =>
    rw [splitLines] at h
    split at h
    · rcases List.mem_cons.mp h with rfl | h
      · simp
      · exact ih h
    · rename_i hc
      split at h
      · obtain rfl := List.mem_singleton.mp h
        simpa using Ne.symm hc
      · rename_i first lines hlines
        rcases List.mem_cons.mp h with rfl | h
        · have hfirst := ih (hlines ▸ List.mem_cons_self)
          simp [hfirst, Ne.symm hc]
        · exact ih (hlines ▸ List.mem_cons_of_mem _ h)

/-- The first line of a text begins with what stands before its first newline. -/
theorem splitLines_head {key : Bytes} (hkey : 10 ∉ key) (text : Bytes) :
    ∃ first later, splitLines (key ++ text ++ [10]) = first :: later ∧ key <+: first := by
  induction key with
  | nil =>
    obtain ⟨first, later, hlines⟩ := List.exists_cons_of_ne_nil (splitLines_ne_nil text)
    exact ⟨first, later, hlines, List.nil_prefix⟩
  | cons c key ih =>
    obtain ⟨hc, hrest⟩ := not_or.mp (mt List.mem_cons.mpr hkey)
    obtain ⟨first, later, hlines, hprefix⟩ := ih hrest
    refine ⟨c :: first, later, ?_, List.cons_prefix_cons.mpr ⟨rfl, hprefix⟩⟩
    rw [List.append_assoc] at hlines
    simp [splitLines, Ne.symm hc, hlines]

theorem length_le_splitLines (lines : List Bytes) :
    lines.length ≤ (splitLines (joinLines lines)).length := by
  induction lines with
  | nil => simp
  | cons line rest ih =>
    have hjoin : joinLines (line :: rest) = line ++ 10 :: joinLines rest := by simp [joinLines]
    rw [hjoin, length_splitLines, List.length_cons]
    omega

theorem length_of_mapM {α β : Type} {f : α → Option β} {xs : List α} {ys : List β}
    (h : xs.mapM f = some ys) : ys.length = xs.length := by
  induction xs generalizing ys with
  | nil =>
    cases h
    rfl
  | cons x xs ih =>
    rw [List.mapM_cons] at h
    obtain ⟨y, -, h⟩ := Option.bind_eq_some_iff.mp h
    obtain ⟨rest, hrest, h⟩ := Option.bind_eq_some_iff.mp h
    cases h
    simp [ih hrest]

/-- A written file is read as it was meant exactly when none of its lines holds a newline and
each is read as it was meant. -/
theorem readFile_iff {α : Type} {text : α → Bytes} {meant : α → Line} {items : List α} :
    readFile (joinLines (items.map text)) = some (items.map meant) ↔
      ∀ x ∈ items, ReadsAs (text x) (meant x) := by
  unfold ReadsAs
  induction items with
  | nil => simp [readFile, joinLines, splitLines]
  | cons x rest ih =>
    have hjoin : joinLines ((x :: rest).map text) =
        text x ++ 10 :: joinLines (rest.map text) := by simp [joinLines]
    rw [hjoin, List.forall_mem_cons, ← ih]
    by_cases hbreak : 10 ∈ text x
    · simp only [hbreak, not_true_eq_false, false_and, iff_false]
      intro h
      have hlength := length_of_mapM h
      have hrest := length_le_splitLines (rest.map text)
      have hcount : 0 < (text x).count 10 := List.count_pos_iff.mpr hbreak
      rw [length_splitLines] at hlength
      simp only [List.length_map, List.length_cons] at hlength hrest
      omega
    · rw [readFile, splitLines_line hbreak, List.mapM_cons]
      simp only [hbreak, not_false_eq_true, true_and, List.map_cons]
      constructor
      · intro h
        obtain ⟨line, hline, h⟩ := Option.bind_eq_some_iff.mp h
        obtain ⟨lines, hlines, h⟩ := Option.bind_eq_some_iff.mp h
        cases h
        exact ⟨hline, hlines⟩
      · intro ⟨hline, hlines⟩
        rw [readFile] at hlines
        rw [hline, hlines]
        rfl

end QStar.Lib.NinjaFiles
