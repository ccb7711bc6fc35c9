import QStar.Ninja.Apart
import QStar.Ninja.Text

/-!
# The file says what was meant

When the text of an emitted file is read back, line by line, as the statements that
were meant, and no path is an output of two of them. A compile edge opens a section
for its own headers, another for those of the object library its source is from and
another for what its dependencies ask for, of which only one can be read; and what is
not quoted for Ninja has to be readable as it stands.
-/
namespace QStar.Ninja

open QStar.Lib.CStrings
open QStar.Lib.Results
open QStar.Lib.NinjaEdges
open QStar.Lib.NinjaFiles
open QStar.Base
open QStar.BuildGraph
open QStar.Lowering

/-- The text is read line by line as what was meant, and no path is an output of two
statements. -/
structure WellFormed (pr : Printing) (g : Graph) (label : Option Bytes)
    (statements : List Statement) : Prop where
  read : readFile (fileText pr g label statements) =
    some ((fileLines pr g label statements).map Written.meant)
  apart : statements.Pairwise fun a b => ∀ p ∈ a.outputs, p ∉ b.outputs

/-! ## Values -/

theorem stops_quote : Stops 39 := ⟨by decide, by decide, fun _ => by simp [valueStep, nameByte]⟩

theorem stops_equals : Stops 61 := ⟨by decide, by decide, fun _ => by simp [valueStep, nameByte]⟩

theorem isValue_of_simple {text : Bytes} (h : text.all isSimple = true) : IsValue text := by
  refine isValue_of_forall ?_
  intro c hc
  have hsimple := List.all_eq_true.mp h c hc
  refine ⟨?_, ?_, ?_⟩ <;> (rintro rfl; revert hsimple; decide)

theorem shellArgMode_closed (ninja : Bool) (text : Bytes) : Closed (shellArgMode ninja text) := by
  unfold shellArgMode
  split
  · rename_i h
    exact (isValue_of_simple h.2).closed
  · exact closed_stop stops_quote _

/-- A word of a command is a value when it has no line break. -/
theorem isValue_ninjaShellArg_iff (text : Bytes) :
    IsValue (ninjaShellArg text) ↔ Unbroken text := by
  unfold ninjaShellArg shellArgMode
  split
  · rename_i h
    have hvalue := isValue_of_simple h.2
    exact ⟨fun _ => hvalue.unbroken, fun _ => hvalue⟩
  · have hquote : IsValue [39] := by decide
    obtain ⟨hclosed, hiff⟩ := isValue_escaped_iff (f := fun c => if c = 39 then ascii "'\\''"
        else if true = true ∧ c = 36 then ascii "$$" else [c]) (by
      intro c hc
      by_cases hquote : c = 39
      · subst hquote
        decide
      · by_cases hdollar : c = 36
        · subst hdollar
          decide
        · simp [hquote, hdollar] at hc) text
    rw [isValue_append_iff (hquote.closed.append hclosed), isValue_append_iff hquote.closed, hiff]
    simp [hquote]

theorem isValue_ninjaVarText_iff (text : Bytes) : IsValue (ninjaVarText text) ↔ Unbroken text := by
  refine (isValue_escaped_iff ?_ text).2
  intro c hc
  by_cases hdollar : c = 36
  · subst hdollar
    decide
  · simp [hdollar] at hc

/-- The name of an environment variable is not quoted, and its value is. -/
def EnvReadable (windows : Bool) (item : Bytes) : Prop :=
  if windows = true ∨ 61 ∉ item ∨ item.head? = some 61 then Unbroken item
  else IsValue (item.takeWhile (· ≠ 61)) ∧ Unbroken (item.dropWhile (· ≠ 61))

theorem isValue_cmdEnvAssignment_iff (item : Bytes) :
    Closed (cmdEnvAssignment item) ∧ (IsValue (cmdEnvAssignment item) ↔ Unbroken item) := by
  have hopen : IsValue (ascii "set \"") := by decide
  have hquote : IsValue (ascii "\"") := by decide
  obtain ⟨hclosed, hiff⟩ := isValue_escaped_iff (f := fun c => if c = 34 then ascii "\\\""
      else if c = 36 then ascii "$$" else [c]) (by
    intro c hc
    by_cases hquote : c = 34
    · subst hquote
      decide
    · by_cases hdollar : c = 36
      · subst hdollar
        decide
      · simp [hquote, hdollar] at hc) item
  have hprefix := hopen.closed.append hclosed
  refine ⟨Closed.append hprefix hquote.closed, ?_⟩
  unfold cmdEnvAssignment
  rw [isValue_append_iff hprefix, isValue_append_iff hopen.closed, hiff]
  simp [hopen, hquote]

theorem isValue_ninjaShellEnvAssignment_iff (item : Bytes) :
    Closed (ninjaShellEnvAssignment item) ∧
      (IsValue (ninjaShellEnvAssignment item) ↔ EnvReadable false item) := by
  unfold ninjaShellEnvAssignment EnvReadable
  cases hrest : item.dropWhile (· ≠ 61) with
  | nil =>
    have hnone : 61 ∉ item := by
      intro hmem
      have hall := List.dropWhile_eq_nil_iff.mp hrest 61 hmem
      simp at hall
    rw [if_pos (.inr (.inl hnone))]
    exact ⟨shellArgMode_closed true item, isValue_ninjaShellArg_iff item⟩
  | cons c value =>
    have hc : c = 61 := by
      have hne : item.dropWhile (fun c => decide (c ≠ 61)) ≠ [] := by rw [hrest]; nofun
      have hhead := List.head_dropWhile_not (fun c : UInt8 => decide (c ≠ 61)) hne
      simp only [hrest, List.head_cons] at hhead
      simpa using hhead
    have hmem : 61 ∈ item := by
      have hsuffix : item.dropWhile (· ≠ 61) <:+ item := List.dropWhile_suffix _
      exact hsuffix.mem (by rw [hrest, hc]; simp)
    dsimp only
    by_cases hhead : item.head? = some 61
    · rw [if_pos hhead, if_pos (.inr (.inr hhead))]
      exact ⟨shellArgMode_closed true item, isValue_ninjaShellArg_iff item⟩
    · rw [if_neg hhead, if_neg (by simp [hmem, hhead])]
      have htext : item.takeWhile (· ≠ 61) ++ ascii "=" ++ ninjaShellArg value =
          item.takeWhile (· ≠ 61) ++ 61 :: ninjaShellArg value := by simp [ascii]
      constructor
      · have hname : Closed (item.takeWhile (· ≠ 61) ++ ascii "=") := closed_stop stops_equals _
        exact hname.append (shellArgMode_closed true value)
      · rw [htext, isValue_stop_iff stops_equals, isValue_ninjaShellArg_iff, hc]
        simp [Unbroken]

theorem isValue_shellEnvPrefix_iff (windows : Bool) (env : List Bytes) :
    Closed (shellEnvPrefix windows env) ∧
      (IsValue (shellEnvPrefix windows env) ↔ ∀ item ∈ env, EnvReadable windows item) := by
  have hand : IsValue (ascii " && ") := by decide
  have hspace : IsValue (ascii " ") := by decide
  have hitem : ∀ item, Closed (if windows then cmdEnvAssignment item ++ ascii " && "
      else ninjaShellEnvAssignment item ++ ascii " ") ∧
      (IsValue (if windows then cmdEnvAssignment item ++ ascii " && "
        else ninjaShellEnvAssignment item ++ ascii " ") ↔ EnvReadable windows item) := by
    intro item
    cases windows with
    | true =>
      obtain ⟨hclosed, hiff⟩ := isValue_cmdEnvAssignment_iff item
      refine ⟨hclosed.append hand.closed, ?_⟩
      rw [if_pos rfl, isValue_append_iff hclosed, hiff]
      simp [EnvReadable, hand]
    | false =>
      obtain ⟨hclosed, hiff⟩ := isValue_ninjaShellEnvAssignment_iff item
      refine ⟨hclosed.append hspace.closed, ?_⟩
      rw [if_neg (by simp), isValue_append_iff hclosed, hiff]
      simp [hspace]
  unfold shellEnvPrefix
  refine ⟨closed_flatMap fun item _ => (hitem item).1, ?_⟩
  rw [isValue_flatMap_iff fun item _ => (hitem item).1]
  exact forall₂_congr fun item _ => (hitem item).2

theorem isValue_makeDirectories_iff (directories : List Bytes) :
    Closed (makeDirectories directories) ∧
      (IsValue (makeDirectories directories) ↔ ∀ dir ∈ directories, IsValue (shellArg dir)) := by
  have hopen : IsValue (ascii "mkdir -p") := by decide
  have hand : IsValue (ascii " && ") := by decide
  have hspace : IsValue (ascii " ") := by decide
  have hdir : ∀ dir, Closed (ascii " " ++ shellArg dir) :=
    fun dir => hspace.closed.append (shellArgMode_closed false dir)
  unfold makeDirectories
  split
  · rename_i hnone
    exact ⟨.inl rfl, by simp [hnone, IsValue, readValue]⟩
  · have hlist := hopen.closed.append (closed_flatMap fun dir (_ : dir ∈ directories) => hdir dir)
    refine ⟨hlist.append hand.closed, ?_⟩
    rw [isValue_append_iff hlist, isValue_append_iff hopen.closed,
      isValue_flatMap_iff fun dir _ => hdir dir]
    simp [hopen, hand, isValue_append_iff hspace.closed, hspace]

theorem isValue_command_iff (windows : Bool) (argv : List Bytes) :
    IsValue (shellArgvNinjaCommand windows argv) ↔ ∀ word ∈ argv, Unbroken word := by
  have hsh : IsValue (ninjaShellArg (ascii "sh") ++ ascii " ") := by decide
  have hnil : IsValue [] := rfl
  have hprefix : IsValue (if (windows && argv.head?.any isShScript) = true then
      ninjaShellArg (ascii "sh") ++ ascii " " else []) := by
    split
    · exact hsh
    · exact hnil
  unfold shellArgvNinjaCommand
  rw [isValue_append_iff hprefix.closed, isValue_words_iff (by
    intro word hword
    obtain ⟨arg, -, rfl⟩ := List.mem_map.mp hword
    exact shellArgMode_closed true arg), and_iff_right hprefix]
  simp [isValue_ninjaShellArg_iff]

/-! ## Statements -/

/-- The values below a statement can be read as they are written. -/
def Statement.ValuesReadable (pr : Printing) (g : Graph) (s : Statement) : Prop :=
  IsValue s.id ∧
    match s.command with
    | .phony => True
    | .process c =>
      Unbroken (pr.description s) ∧ (∀ dir ∈ s.directories, IsValue (shellArg dir)) ∧
        (pr.cacheHit s = false → (∀ item ∈ c.env, EnvReadable (isWindows g) item) ∧
          ∀ word ∈ pr.execArgv c, Unbroken word) ∧
        (∀ depfile ∈ s.depfile, Unbroken depfile) ∧ ∀ dir ∈ s.outDir, IsValue (shellArg dir)
    | .script path _ => Unbroken (pr.description s) ∧ IsValue (shellArg path)

/-- What a statement lists and what stands below it can be read as they are written. -/
structure Statement.Readable (pr : Printing) (g : Graph) (s : Statement) : Prop where
  paths : ∀ p ∈ s.written.paths, Plain p
  values : s.ValuesReadable pr g

/-- What holds of every statement that is emitted. -/
structure Statement.Regular (s : Statement) : Prop where
  rule : Plain s.rule
  outputs : s.outputs ≠ []
  orderOnly : s.orderOnly.length ≤ 1

theorem writeEdgeCommand_iff (pr : Printing) (windows : Bool) (s : Statement) (c : EdgeCommand) :
    IsValue (writeEdgeCommand pr windows s c) ↔
      (pr.cacheHit s = false → (∀ item ∈ c.env, EnvReadable windows item) ∧
        ∀ word ∈ pr.execArgv c, Unbroken word) := by
  unfold writeEdgeCommand
  cases pr.cacheHit s with
  | true =>
    have hnothing : IsValue (ascii (if windows then "cmd /c exit 0" else ":")) := by
      cases windows <;> decide
    simp [hnothing]
  | false =>
    obtain ⟨hclosed, hiff⟩ := isValue_shellEnvPrefix_iff windows c.env
    rw [if_neg (by simp), isValue_append_iff hclosed, hiff, isValue_command_iff]
    simp

/-- The variables below a statement are read when its values can be. -/
theorem variables_iff (pr : Printing) (g : Graph) (s : Statement) :
    (∀ v ∈ s.variables pr g, IsValue v.2) ↔ s.ValuesReadable pr g := by
  unfold Statement.variables Statement.ValuesReadable
  cases s.command with
  | phony => simp
  | process c =>
    obtain ⟨hclosed, hiff⟩ := isValue_makeDirectories_iff s.directories
    simp only [List.forall_mem_cons, List.forall_mem_append, List.forall_mem_map,
      isValue_append_iff hclosed, hiff, writeEdgeCommand_iff, isValue_ninjaVarText_iff,
      isValue_escape_iff, Option.mem_toList, List.not_mem_nil]
    tauto
  | script path argv =>
    have hsh : IsValue (shellArg (ascii "sh")) := by decide
    have hwords : IsValue (shellArgv [ascii "sh", path]) ↔ IsValue (shellArg path) := by
      unfold shellArgv
      rw [isValue_words_iff (by
        intro word hword
        obtain ⟨arg, -, rfl⟩ := List.mem_map.mp hword
        exact shellArgMode_closed false arg)]
      simp [hsh]
    simp only [List.forall_mem_cons, hwords, isValue_ninjaVarText_iff, List.not_mem_nil]
    tauto

/-- Every variable has a name. -/
theorem name_of_variable {pr : Printing} {g : Graph} {s : Statement} {v : Bytes × Bytes}
    (hv : v ∈ s.variables pr g) : v.1 ≠ [] ∧ ∀ c ∈ v.1, nameByte c = true := by
  have hnames : ∀ name ∈ ["command", "depfile", "out_dir", "description", "qstar_action_id"],
      ascii name ≠ [] ∧ ∀ c ∈ ascii name, nameByte c = true := by decide
  have hv : v.1 ∈ ["command", "depfile", "out_dir", "description", "qstar_action_id"].map ascii := by
    unfold Statement.variables at hv
    split at hv
    · simp only [List.mem_singleton] at hv
      simp [hv]
    · simp only [List.mem_append, List.mem_cons, List.mem_map, List.not_mem_nil, or_false] at hv
      rcases hv with ((hv | ⟨_, -, hv⟩) | ⟨_, -, hv⟩) | hv | hv
      · simp [hv]
      · simp [← hv]
      · simp [← hv]
      · simp [hv]
      · simp [hv]
    · simp only [List.mem_cons, List.not_mem_nil, or_false] at hv
      rcases hv with hv | hv | hv <;> simp [hv]
  obtain ⟨name, hname, heq⟩ := List.mem_map.mp hv
  exact heq ▸ hnames name hname

/-- The lines of a statement are read as they were meant when it can be read and opens one
section at most. -/
theorem statementLines_iff {pr : Printing} {g : Graph} {s : Statement} (hs : s.Regular) :
    (∀ x ∈ statementLines pr g s, ReadsAs x.text x.meant) ↔
      s.Readable pr g ∧ s.implicit.length ≤ 1 := by
  have hbuild : ReadsAs (Written.build s).text (Written.build s).meant ↔
      (∀ p ∈ s.written.paths, Plain p) ∧ s.implicit.length ≤ 1 := by
    have hiff := reads_build_iff (e := s.written) hs.rule hs.outputs
    simpa [Written.text, Written.meant, Statement.written, hs.orderOnly] using hiff
  have hvariables : (∀ v ∈ s.variables pr g,
      ReadsAs (Written.variable v.1 v.2).text (Written.variable v.1 v.2).meant) ↔
      s.ValuesReadable pr g := by
    rw [← variables_iff]
    refine forall₂_congr ?_
    intro v hv
    obtain ⟨hne, hname⟩ := name_of_variable hv
    exact reads_variable_iff hne hname
  have hcomment : IsValue s.id →
      ReadsAs (Written.comment (ascii "qstar-action-id: " ++ s.id)).text .comment := by
    intro hid
    refine (reads_comment_iff _).mpr ?_
    intro hmem
    rcases List.mem_append.mp hmem with hmem | hmem
    · revert hmem
      decide
    · exact (hid.unbroken 10 hmem).1 rfl
  have hblank : ReadsAs Written.blank.text Written.blank.meant := by decide
  unfold statementLines
  simp only [List.forall_mem_append, List.forall_mem_cons, List.forall_mem_map, hbuild, hvariables]
  constructor
  · intro h
    obtain ⟨⟨⟨-, ⟨hpaths, hsections⟩, -⟩, hvalues⟩, -⟩ := h
    exact ⟨⟨hpaths, hvalues⟩, hsections⟩
  · intro ⟨⟨hpaths, hvalues⟩, hsections⟩
    exact ⟨⟨⟨hcomment hvalues.1, ⟨hpaths, hsections⟩, by simp⟩, hvalues⟩, hblank, by simp⟩

/-! ## The rest of the file -/

theorem headerRules_read (windows : Bool) : ∀ x ∈ headerRules windows, ReadsAs x.text x.meant := by
  cases windows <;> decide

theorem headerLines_iff (g : Graph) :
    (∀ x ∈ headerLines g, ReadsAs x.text x.meant) ↔ Unbroken g.buildDir := by
  have hcomment : ReadsAs (Written.comment (ascii "generated by qstar; do not edit")).text
      .comment := by decide
  have hversion : ReadsAs (Written.binding (ascii "ninja_required_version") (ascii "1.3")).text
      (.binding (ascii "ninja_required_version")) := by decide
  have hblank : ReadsAs Written.blank.text Written.blank.meant := by decide
  have hbuildDir : ReadsAs (Written.binding (ascii "builddir")
      (escape (buildPath g.buildDir (ascii "ninja")))).text (.binding (ascii "builddir")) ↔
      Unbroken g.buildDir := by
    have hpath : Unbroken (buildPath g.buildDir (ascii "ninja")) ↔ Unbroken g.buildDir := by
      simp [Unbroken, buildPath, ascii, or_imp, forall_and]
    rw [← hpath, ← isValue_escape_iff]
    exact reads_binding_iff (by decide) (by decide) (by decide) _
  unfold headerLines
  simp only [List.forall_mem_append, List.forall_mem_cons]
  constructor
  · intro h
    exact hbuildDir.mp h.1.2.2.1
  · intro h
    exact ⟨⟨hcomment, hversion, hbuildDir.mpr h, hblank, by simp⟩, headerRules_read _⟩

theorem defaultLines_iff (g : Graph) (label : Option Bytes) :
    (∀ x ∈ defaultLines g label, ReadsAs x.text x.meant) ↔ ∀ p ∈ defaultPaths g label, Plain p := by
  unfold defaultLines
  split
  · rename_i hnone
    simp [hnone]
  · rename_i hne
    rw [← reads_default_iff hne]
    simp [Written.text, Written.meant]

/-! ## Sections -/

/-- The dependencies of a target ask its compiles for inputs. -/
def AsksForInputs (g : Graph) (t : Target) : Prop :=
  ∃ usage, collectUsage g .compile t = .ok usage ∧ usage.inputs ≠ []

/-- A target that compiles a source has at most one reason to open a section: its own headers,
those of the owner of the source, and what its dependencies ask for. -/
structure OneSection (g : Graph) (t owner : Target) : Prop where
  own : headerInputs t ≠ [] → ¬AsksForInputs g t
  other : owner.label ≠ t.label → headerInputs owner ≠ [] →
    headerInputs t = [] ∧ ¬AsksForInputs g t

/-- No edge of a node opens a section twice. -/
def EmitNode.OneSection (g : Graph) : EmitNode → Prop
  | .target t => isCompiledKind t = true →
    ((t.cxxPrecompiledHeader ≠ [] ∨
      ∃ i ∈ ownCompileIndices t, providerSourceUnit t i = none) → Ninja.OneSection g t t) ∧
    ∀ r ∈ (libraries g t).flatMap libraryCompiles, Ninja.OneSection g t r.owner
  | _ => True

section Sections

variable {g : Graph} {t : Target} {tc : Toolchain} {s : CompileSource} {stmt : Statement}

theorem length_openSection (items : List Input) :
    (openSection items).length ≤ 1 ∧ ((openSection items).length = 1 ↔ items ≠ []) := by
  unfold openSection
  split
  · rename_i h
    simp [h]
  · rename_i h
    simp [h]

theorem length_writeHeaderInputs (t : Target) :
    (writeHeaderInputs t).length ≤ 1 ∧
      ((writeHeaderInputs t).length = 1 ↔ headerInputs t ≠ []) := by
  obtain ⟨hle, hiff⟩ := length_openSection ((headerInputs t).map Input.file)
  exact ⟨hle, hiff.trans (by simp)⟩

theorem length_writeOwnerHeaderInputs (s : CompileSource) :
    (writeOwnerHeaderInputs s).length ≤ 1 ∧ ((writeOwnerHeaderInputs s).length = 1 ↔
      s.owner.label ≠ s.target.label ∧ headerInputs s.owner ≠ []) := by
  unfold writeOwnerHeaderInputs
  split
  · rename_i hsame
    simp [hsame]
  · rename_i hother
    obtain ⟨hle, hiff⟩ := length_writeHeaderInputs s.owner
    exact ⟨hle, hiff.trans (and_iff_right hother).symm⟩

theorem length_writeCompileUsageInputs {sections : List (List Input)}
    (h : writeCompileUsageInputs g t = .ok sections) :
    sections.length ≤ 1 ∧ (sections.length = 1 ↔ AsksForInputs g t) := by
  obtain ⟨inputs, hinputs, h⟩ := bind_eq_ok.mp h
  cases h
  obtain ⟨usage, husage, hresolved⟩ := bind_eq_ok.mp hinputs
  obtain ⟨hle, hiff⟩ := length_openSection (inputs.map Input.file)
  refine ⟨hle, hiff.trans ?_⟩
  have hlength := congrArg List.length (mapM_eq_ok_map_map (p := fun _ => ()) (k := fun _ => ())
    (fun _ _ _ _ => rfl) hresolved)
  simp only [List.length_map] at hlength
  have hnone : inputs = [] ↔ usage.inputs = [] := by
    rw [← List.length_eq_zero_iff, ← List.length_eq_zero_iff, hlength]
  constructor
  · intro hne
    exact ⟨usage, husage, fun h => hne (by simp [hnone.mpr h])⟩
  · intro ⟨usage', husage', hne⟩ h
    rw [husage, Except.ok.injEq] at husage'
    subst husage'
    exact hne (hnone.mp (by simpa using h))

theorem plain_compileRule (wantsDepfile : Bool) : Plain (compileRule wantsDepfile) := by
  cases wantsDepfile <;> decide

/-- A compile edge opens one section exactly when there is one reason to, and the edge of a
source with a provider unit has one at most. -/
theorem emitCompileEdge_sections (h : emitCompileEdgeFromSource g tc s = .ok stmt) :
    stmt.Regular ∧ (stmt.implicit.length ≤ 1 ↔
      (providerSourceUnit s.owner s.index = none → OneSection g s.target s.owner)) := by
  unfold emitCompileEdgeFromSource at h
  obtain ⟨u, -, h⟩ := bind_eq_ok.mp h
  obtain ⟨-, h⟩ := guard_eq_ok.mp h
  obtain ⟨unitySources, -, h⟩ := bind_eq_ok.mp h
  split at h
  · rename_i unit hunit
    obtain ⟨-, h⟩ := guard_eq_ok.mp h
    unfold emitProviderEdge at h
    simp only [bind_eq_ok] at h
    obtain ⟨argv, -, usage, -, sections, hsections, h⟩ := h
    cases h
    refine ⟨⟨plain_compileRule _, unit.action.outputs_ne, by simp⟩, ?_⟩
    simp [hunit, (length_writeCompileUsageInputs hsections).1]
  · rename_i hunit
    unfold emitBuiltinEdge at h
    simp only [bind_eq_ok] at h
    obtain ⟨tool, -, ⟨modules, bmi⟩, -, u', -, usage, -, bmiInputs, -, sections, hsections, h⟩ := h
    cases h
    refine ⟨⟨plain_compileRule _, by simp, by simp⟩, ?_⟩
    obtain ⟨hown, howniff⟩ := length_writeHeaderInputs s.target
    obtain ⟨hother, hotheriff⟩ := length_writeOwnerHeaderInputs s
    obtain ⟨hasked, haskediff⟩ := length_writeCompileUsageInputs hsections
    simp only [List.length_append, hunit, true_implies]
    constructor
    · intro hle
      refine ⟨?_, ?_⟩
      · intro hheaders hasks
        have h1 := howniff.mpr hheaders
        have h2 := haskediff.mpr hasks
        omega
      · intro hlabel hheaders
        have h1 := hotheriff.mpr ⟨hlabel, hheaders⟩
        refine ⟨?_, ?_⟩
        · by_contra hne
          have h2 := howniff.mpr hne
          omega
        · intro hasks
          have h2 := haskediff.mpr hasks
          omega
    · intro hone
      by_contra htwo
      by_cases hlabel : s.owner.label ≠ s.target.label ∧ headerInputs s.owner ≠ []
      · obtain ⟨hnone, hasks⟩ := hone.other hlabel.1 hlabel.2
        have h1 : (writeHeaderInputs s.target).length ≠ 1 := fun h => howniff.mp h hnone
        have h2 : sections.length ≠ 1 := fun h => hasks (haskediff.mp h)
        omega
      · have h1 : (writeOwnerHeaderInputs s).length ≠ 1 := fun h => hlabel (hotheriff.mp h)
        have h2 : (writeHeaderInputs s.target).length = 1 ∧ sections.length = 1 := by omega
        exact hone.own (howniff.mp h2.1) (haskediff.mp h2.2)

theorem oneSection_self : OneSection g t t ↔ (headerInputs t ≠ [] → ¬AsksForInputs g t) :=
  ⟨fun h => h.own, fun h => ⟨h, fun hlabel => absurd rfl hlabel⟩⟩

theorem emitCxxPchEdge_sections (h : emitCxxPchEdge g tc t = .ok stmt) :
    stmt.Regular ∧ (stmt.implicit.length ≤ 1 ↔ OneSection g t t) := by
  unfold emitCxxPchEdge at h
  simp only [bind_eq_ok] at h
  obtain ⟨tool, -, usage, -, sections, hsections, h⟩ := h
  cases h
  refine ⟨⟨plain_compileRule true, by simp, by simp⟩, ?_⟩
  obtain ⟨hown, howniff⟩ := length_writeHeaderInputs t
  obtain ⟨hasked, haskediff⟩ := length_writeCompileUsageInputs hsections
  rw [oneSection_self, ← howniff, ← haskediff, List.length_append]
  constructor
  · intro hle h1 h2
    omega
  · intro hone
    by_contra htwo
    have h1 : (writeHeaderInputs t).length = 1 ∧ sections.length = 1 := by omega
    exact hone h1.1 h1.2

/-- A statement that always opens one section at most. -/
structure Statement.Settled (s : Statement) : Prop where
  regular : s.Regular
  sections : s.implicit.length ≤ 1

theorem length_orderOnlyDeps (g : Graph) (t : Target) : (orderOnlyDeps g t).length ≤ 1 := by
  unfold orderOnlyDeps
  split <;> simp

theorem aliasStatement_settled (label path : Bytes) (inputs : List Input) :
    (aliasStatement label path inputs).Settled where
  regular := ⟨show Plain (ascii "phony") by decide, by simp [aliasStatement], by simp [aliasStatement]⟩
  sections := by simp [aliasStatement]

theorem emitGenruleEdge_settled {consumer : Option Target} {r : Genrule}
    (h : emitGenruleEdge g consumer r = .ok stmt) : stmt.Settled := by
  unfold emitGenruleEdge at h
  simp only [bind_eq_ok] at h
  obtain ⟨argv, -, sections, hsections, h⟩ := h
  cases h
  refine ⟨⟨show Plain (ascii "qstar_generate") by decide, r.outputs_ne, by simp⟩, ?_⟩
  unfold writeGenruleDeps at hsections
  split at hsections
  · cases hsections
    simp
  · obtain ⟨items, -, hsections⟩ := bind_eq_ok.mp hsections
    cases hsections
    simp

theorem emitStaticlibEdge_settled (h : emitStaticlibEdge g tc t = .ok stmt) : stmt.Settled := by
  unfold emitStaticlibEdge at h
  simp only [bind_eq_ok] at h
  obtain ⟨artifact, -, lowered, -, own, -, library, -, links, -, h⟩ := h
  cases h
  refine ⟨⟨show Plain (ascii "qstar_archive") by decide, by simp, length_orderOnlyDeps g t⟩, ?_⟩
  dsimp only
  split <;> simp

theorem emitLinkEdge_settled (h : emitLinkEdge g tc t = .ok stmt) : stmt.Settled := by
  unfold emitLinkEdge at h
  simp only [bind_eq_ok] at h
  obtain ⟨artifact, -, lowered, -, artifacts, -, own, -, library, -, links, -, usage, -, h⟩ := h
  cases h
  refine ⟨⟨show Plain (ascii "qstar_link") by decide, lowered.outputs_ne, length_orderOnlyDeps g t⟩, ?_⟩
  dsimp only
  split <;> simp

theorem plain_providerFinalRule (lowered : LoweredAction) : Plain (providerFinalRule lowered) := by
  unfold providerFinalRule
  split
  · decide
  · split <;> decide

theorem emitProviderFinalEdge_settled {final : ProviderFinal}
    (h : emitProviderFinalEdge g tc t final = .ok stmt) : stmt.Settled := by
  unfold emitProviderFinalEdge at h
  simp only [bind_eq_ok] at h
  obtain ⟨lowered, -, usage, -, links, -, h⟩ := h
  cases h
  refine ⟨⟨plain_providerFinalRule lowered, lowered.outputs_ne, by simp⟩, ?_⟩
  dsimp only
  split <;> simp

theorem emitObjectlibEdge_settled (h : emitObjectlibEdge g t = .ok stmt) : stmt.Settled := by
  obtain ⟨objects, -, h⟩ := bind_eq_ok.mp h
  cases h
  exact ⟨⟨show Plain (ascii "phony") by decide, by simp, length_orderOnlyDeps g t⟩, by simp⟩

theorem emitTypedDependencyEdge_settled (h : emitTypedDependencyEdge g t = .ok stmt) :
    stmt.Settled := by
  obtain ⟨artifacts, -, h⟩ := bind_eq_ok.mp h
  cases h
  exact ⟨⟨show Plain (ascii "phony") by decide, by simp, by simp⟩, by simp⟩

theorem emitStageEdge_settled {stage : Stage} (h : emitStageEdge g stage = .ok stmt) :
    stmt.Settled := by
  unfold emitStageEdge at h
  simp only [bind_eq_ok] at h
  obtain ⟨srcs, -, items, -, h⟩ := h
  cases h
  refine ⟨⟨show Plain (ascii "qstar_stage") by decide, by simp [stagedOutputs], by simp⟩, ?_⟩
  dsimp only
  split <;> simp

theorem emitRunEdge_settled (h : emitRunEdge g t = .ok stmt) : stmt.Settled := by
  unfold emitRunEdge at h
  simp only [bind_eq_ok, guard_eq_ok] at h
  obtain ⟨-, argv, -, sections, hsections, h⟩ := h
  cases h
  refine ⟨⟨show Plain (ascii "qstar_run") by decide, by simp, length_orderOnlyDeps g t⟩, ?_⟩
  simp only [writeRunCommandDeps, bind_eq_ok] at hsections
  obtain ⟨command, -, inputs, -, hsections⟩ := hsections
  split at hsections
  · cases hsections
    simp
  · cases hsections
    simp

theorem emitOwnFinal_settled (h : emitOwnFinal g tc t = .ok stmt) : stmt.Settled := by
  unfold emitOwnFinal at h
  split at h
  · exact emitStaticlibEdge_settled h
  · exact emitLinkEdge_settled h

theorem finalStatements_settled {stmts : List Statement}
    (h : finalStatements g tc t = .ok stmts) : ∀ stmt ∈ stmts, stmt.Settled := by
  intro stmt hstmt
  unfold finalStatements at h
  split at h
  · obtain ⟨edge, hedge, h⟩ := bind_eq_ok.mp h
    cases h
    rcases List.mem_pair.mp hstmt with rfl | rfl
    · exact emitProviderFinalEdge_settled hedge
    · exact aliasStatement_settled _ _ _
  · split at h
    · obtain ⟨edge, hedge, h⟩ := bind_eq_ok.mp h
      cases h
      rw [List.mem_singleton] at hstmt
      exact hstmt ▸ emitObjectlibEdge_settled hedge
    · obtain ⟨edge, hedge, h⟩ := bind_eq_ok.mp h
      cases h
      rcases List.mem_pair.mp hstmt with rfl | rfl
      · exact emitOwnFinal_settled hedge
      · exact aliasStatement_settled _ _ _

/-- The compile edges of a target open one section each exactly when there is one reason to. -/
theorem compileStatements_sections (ht : t ∈ g.targets) {stmts : List Statement}
    (h : compileStatements g tc t = .ok stmts) :
    (∀ stmt ∈ stmts, stmt.Regular) ∧ ((∀ stmt ∈ stmts, stmt.implicit.length ≤ 1) ↔
      ((t.cxxPrecompiledHeader ≠ [] ∨
        ∃ i ∈ ownCompileIndices t, providerSourceUnit t i = none) → OneSection g t t) ∧
      ∀ r ∈ (libraries g t).flatMap libraryCompiles, OneSection g t r.owner) := by
  unfold compileStatements at h
  obtain ⟨pch, hpch, h⟩ := bind_eq_ok.mp h
  obtain ⟨own, hown, h⟩ := bind_eq_ok.mp h
  obtain ⟨sources, hsources, h⟩ := bind_eq_ok.mp h
  obtain ⟨consumer, hconsumer, h⟩ := bind_eq_ok.mp h
  cases h
  obtain ⟨hspec, hrefs⟩ := consumerCompileSources_spec hsources
  have hpchs : (∀ stmt ∈ pch, stmt.Regular) ∧ ((∀ stmt ∈ pch, stmt.implicit.length ≤ 1) ↔
      (t.cxxPrecompiledHeader ≠ [] → OneSection g t t)) := by
    unfold pchStatements at hpch
    split at hpch
    · rename_i hnone
      cases hpch
      simp [hnone]
    · rename_i hheader
      obtain ⟨edge, hedge, hpch⟩ := bind_eq_ok.mp hpch
      cases hpch
      obtain ⟨hregular, hiff⟩ := emitCxxPchEdge_sections hedge
      simp [hheader, hregular, hiff]
  have howns : (∀ stmt ∈ own, stmt.implicit.length ≤ 1) ↔
      ∀ i ∈ ownCompileIndices t, providerSourceUnit t i = none → OneSection g t t :=
    mapM_eq_ok_forall_iff (fun i _ stmt hstmt => (emitCompileEdge_sections hstmt).2) hown
  have hunits : ∀ s ∈ sources, ∀ stmt, emitCompileEdgeFromSource g tc s = .ok stmt →
      providerSourceUnit s.owner s.index = none := by
    intro s hs stmt hstmt
    obtain ⟨o, index, actionIndex, object, ho, -, -, -, rfl⟩ := hspec s hs
    rcases emitCompileEdge_outputs hstmt with ⟨unit, -, hlabel, -⟩ | ⟨hunit, -⟩
    · exact absurd hlabel (Linking.mem_libraries ht ho).2.2.2
    · exact hunit
  have hconsumers : (∀ stmt ∈ consumer, stmt.implicit.length ≤ 1) ↔
      ∀ s ∈ sources, OneSection g t s.owner := by
    refine mapM_eq_ok_forall_iff (fun s hs stmt hstmt => ?_) hconsumer
    have hiff := (emitCompileEdge_sections hstmt).2
    obtain ⟨o, index, actionIndex, object, -, -, -, -, rfl⟩ := hspec s hs
    rw [hiff]
    exact ⟨fun h => h (hunits _ hs stmt hstmt), fun h _ => h⟩
  have hconsumerRegular : ∀ stmt ∈ consumer, stmt.Regular := by
    intro stmt hstmt
    obtain ⟨s, -, hedge⟩ := mapM_eq_ok_mem hconsumer stmt hstmt
    exact (emitCompileEdge_sections hedge).1
  have hownRegular : ∀ stmt ∈ own, stmt.Regular := by
    intro stmt hstmt
    obtain ⟨i, -, hedge⟩ := mapM_eq_ok_mem hown stmt hstmt
    exact (emitCompileEdge_sections hedge).1
  have hrefsIff : (∀ s ∈ sources, OneSection g t s.owner) ↔
      ∀ r ∈ (libraries g t).flatMap libraryCompiles, OneSection g t r.owner := by
    rw [← hrefs, List.forall_mem_map]
  simp only [List.forall_mem_append, hpchs.2, howns, hconsumers, hrefsIff]
  refine ⟨⟨⟨hpchs.1, hownRegular⟩, hconsumerRegular⟩, and_congr_left' ?_⟩
  constructor
  · intro ⟨hpch, hown⟩ hreason
    rcases hreason with hheader | ⟨i, hi, hunit⟩
    · exact hpch hheader
    · exact hown i hi hunit
  · intro h
    exact ⟨fun hheader => h (.inl hheader), fun i hi hunit => h (.inr ⟨i, hi, hunit⟩)⟩

/-- Settled statements open one section each. -/
theorem settled_sections {stmts : List Statement} (h : ∀ stmt ∈ stmts, stmt.Settled) {q : Prop}
    (hq : q) : (∀ stmt ∈ stmts, stmt.Regular) ∧
      ((∀ stmt ∈ stmts, stmt.implicit.length ≤ 1) ↔ q) :=
  ⟨fun stmt hstmt => (h stmt hstmt).regular,
    fun _ => hq, fun _ stmt hstmt => (h stmt hstmt).sections⟩

theorem targetStatements_sections (ht : t ∈ g.targets) {asked : List EmitNode}
    (hasked : (EmitNode.target t).producers g = .ok asked) {stmts : List Statement}
    (h : targetStatements g t = .ok stmts) :
    (∀ stmt ∈ stmts, stmt.Regular) ∧ ((∀ stmt ∈ stmts, stmt.implicit.length ≤ 1) ↔
      (EmitNode.target t).OneSection g) := by
  unfold targetStatements at h
  split at h
  · rename_i hgroup
    cases h
    refine settled_sections ?_ (by simp [EmitNode.OneSection, isCompiledKind, hgroup])
    intro stmt hstmt
    rw [List.mem_singleton] at hstmt
    exact hstmt ▸ ⟨⟨show Plain (ascii "phony") by decide, by simp [emitGroupEdge],
      by simp [emitGroupEdge]⟩, by simp [emitGroupEdge]⟩
  · rename_i hgroup
    split at h
    · rename_i htyped
      obtain ⟨edge, hedge, h⟩ := bind_eq_ok.mp h
      cases h
      refine settled_sections ?_ ?_
      · intro stmt hstmt
        rw [List.mem_singleton] at hstmt
        exact hstmt ▸ emitTypedDependencyEdge_settled hedge
      · intro hcompiled
        simp only [isTypedDependency, Bool.or_eq_true, decide_eq_true_eq] at htyped
        rcases htyped with (hk | hk) | hk <;> simp [isCompiledKind, hk] at hcompiled
    · rename_i htyped
      split at h
      · rename_i hrun
        obtain ⟨edge, hedge, h⟩ := bind_eq_ok.mp h
        cases h
        refine settled_sections ?_ (by simp [EmitNode.OneSection, isCompiledKind, hrun])
        intro stmt hstmt
        rcases List.mem_pair.mp hstmt with rfl | rfl
        · exact emitRunEdge_settled hedge
        · exact aliasStatement_settled _ _ _
      · rename_i hrun
        obtain ⟨compile, hcompile, h⟩ := bind_eq_ok.mp h
        obtain ⟨final, hfinal, h⟩ := bind_eq_ok.mp h
        cases h
        have hcompiled : isCompiledKind t = true := by
          obtain ⟨kind, hkind, -⟩ := bind_eq_ok.mp hasked
          unfold kindProducers at hkind
          rw [if_neg (by simp [hgroup, htyped]), if_neg hrun] at hkind
          split at hkind
          · assumption
          · cases hkind
        obtain ⟨hregular, hiff⟩ := compileStatements_sections ht hcompile
        have hsettled := finalStatements_settled hfinal
        have hfinalRegular : ∀ stmt ∈ final, stmt.Regular :=
          fun stmt hstmt => (hsettled stmt hstmt).regular
        have hfinalSections : ∀ stmt ∈ final, stmt.implicit.length ≤ 1 :=
          fun stmt hstmt => (hsettled stmt hstmt).sections
        simp only [List.forall_mem_append, hiff, EmitNode.OneSection, hcompiled, true_implies]
        exact ⟨⟨hregular, hfinalRegular⟩, and_iff_left hfinalSections⟩

theorem statements_sections {n : EmitNode} (hn : n.Declared g) {asked : List EmitNode}
    (hasked : n.producers g = .ok asked) {stmts : List Statement}
    (h : n.statements g = .ok stmts) :
    (∀ stmt ∈ stmts, stmt.Regular) ∧
      ((∀ stmt ∈ stmts, stmt.implicit.length ≤ 1) ↔ n.OneSection g) := by
  cases n with
  | target t => exact targetStatements_sections hn hasked h
  | genrule consumer r =>
    obtain ⟨edge, hedge, h⟩ := bind_eq_ok.mp h
    cases h
    refine settled_sections ?_ trivial
    intro stmt hstmt
    rcases List.mem_pair.mp hstmt with rfl | rfl
    · exact emitGenruleEdge_settled hedge
    · exact aliasStatement_settled _ _ _
  | stage stage =>
    obtain ⟨edge, hedge, h⟩ := bind_eq_ok.mp h
    cases h
    refine settled_sections ?_ trivial
    intro stmt hstmt
    rcases List.mem_pair.mp hstmt with rfl | rfl
    · exact emitStageEdge_settled hedge
    · exact aliasStatement_settled _ _ _

/-- The statements of an emission open one section each exactly when its nodes do. -/
theorem emission_sections {label : Option Bytes} {order : List EmitNode}
    {statements : List Statement} (horder : emitOrder g label = .ok order)
    (h : emitNinjaGraph g label = .ok statements) :
    (∀ stmt ∈ statements, stmt.Regular) ∧
      ((∀ stmt ∈ statements, stmt.implicit.length ≤ 1) ↔ ∀ n ∈ order, n.OneSection g) := by
  obtain ⟨order', horder', h⟩ := bind_eq_ok.mp h
  rw [horder, Except.ok.injEq] at horder'
  subst horder'
  obtain ⟨lists, hlists, h⟩ := bind_eq_ok.mp h
  cases h
  have hnode : ∀ n ∈ order, ∀ stmts, n.statements g = .ok stmts →
      (∀ stmt ∈ stmts, stmt.Regular) ∧
        ((∀ stmt ∈ stmts, stmt.implicit.length ≤ 1) ↔ n.OneSection g) := by
    intro n hn stmts hstmts
    obtain ⟨asked, hasked, -⟩ := emitOrder_producers horder hn
    exact statements_sections (emitOrder_declared horder hn) hasked hstmts
  constructor
  · intro stmt hstmt
    obtain ⟨stmts, hmem, hstmt⟩ := List.mem_flatten.mp hstmt
    obtain ⟨n, hn, hstmts⟩ := mapM_eq_ok_mem hlists stmts hmem
    exact (hnode n hn stmts hstmts).1 stmt hstmt
  · rw [← mapM_eq_ok_forall_iff (p := fun stmts => ∀ stmt ∈ stmts, stmt.implicit.length ≤ 1)
      (fun n hn stmts hstmts => (hnode n hn stmts hstmts).2) hlists]
    simp only [List.mem_flatten]
    constructor
    · intro hall stmts hmem stmt hstmt
      exact hall stmt ⟨stmts, hmem, hstmt⟩
    · intro hall stmt ⟨stmts, hmem, hstmt⟩
      exact hall stmts hmem stmt hstmt

end Sections

/-! ## The emitted file -/

/-- What the names in a graph have to be for its file to be read as it was meant. -/
structure Legible (pr : Printing) (g : Graph) (label : Option Bytes) (order : List EmitNode)
    (statements : List Statement) : Prop where
  /-- No edge opens a section twice. -/
  sections : ∀ n ∈ order, n.OneSection g
  /-- What the edges list and what stands below them can be read as it is written. -/
  readable : ∀ s ∈ statements, s.Readable pr g
  buildDir : Unbroken g.buildDir
  default : ∀ p ∈ defaultPaths g label, Plain p
  /-- The labels of the emitted nodes mangle apart. -/
  labels : order.Pairwise EmitNode.LabelsApart
  /-- No chosen path is an output of another edge. -/
  chosen : (order.flatMap (EmitNode.slots g)).Pairwise (Slot.ChosenApart g)

/-- When the text is read back as what was meant. -/
theorem read_fileText_iff {pr : Printing} {g : Graph} {label : Option Bytes}
    {statements : List Statement} (hregular : ∀ s ∈ statements, s.Regular) :
    readFile (fileText pr g label statements) =
        some ((fileLines pr g label statements).map Written.meant) ↔
      Unbroken g.buildDir ∧ (∀ s ∈ statements, s.Readable pr g ∧ s.implicit.length ≤ 1) ∧
        ∀ p ∈ defaultPaths g label, Plain p := by
  rw [fileText, readFile_iff, fileLines, List.forall_mem_append, List.forall_mem_append,
    headerLines_iff, defaultLines_iff, and_assoc]
  refine and_congr_right' (and_congr_left' ?_)
  simp only [List.mem_flatMap]
  constructor
  · intro hall s hs
    exact (statementLines_iff (hregular s hs)).mp fun x hx => hall x ⟨s, hs, hx⟩
  · intro hall x ⟨s, hs, hx⟩
    exact (statementLines_iff (hregular s hs)).mpr (hall s hs) x hx

/-- The emitted file says what was meant if and only if its names are legible. -/
theorem wellFormed_iff {pr : Printing} {g : Graph} {label : Option Bytes} {order : List EmitNode}
    {statements : List Statement} (hvalid : Linking.Validated g)
    (horder : emitOrder g label = .ok order) (h : emitNinjaGraph g label = .ok statements) :
    WellFormed pr g label statements ↔ Legible pr g label order statements := by
  obtain ⟨hregular, hsections⟩ := emission_sections horder h
  have hread := @read_fileText_iff pr g label _ hregular
  have hapart := outputs_apart_iff hvalid horder h
  constructor
  · intro ⟨htext, houtputs⟩
    obtain ⟨hbuildDir, hstatements, hdefault⟩ := hread.mp htext
    obtain ⟨hlabels, hchosen⟩ := hapart.mp houtputs
    exact ⟨hsections.mp fun s hs => (hstatements s hs).2, fun s hs => (hstatements s hs).1,
      hbuildDir, hdefault, hlabels, hchosen⟩
  · intro hlegible
    refine ⟨hread.mpr ⟨hlegible.buildDir, ?_, hlegible.default⟩,
      hapart.mpr ⟨hlegible.labels, hlegible.chosen⟩⟩
    intro s hs
    exact ⟨hlegible.readable s hs, hsections.mpr hlegible.sections s hs⟩

/-! ## Headers and asked inputs -/

/-- A library that asks the compiles of its users for a file. -/
def apiInterface : Target where
  label := ascii "//:api"
  name := ascii "api"
  kind := .interface
  compileUsageInputs := [ascii "api.def"]
  label_ne := by decide
  sources_lt := Target.no_sources_lt

/-- An executable with a header of its own that uses it. -/
def apiApp : Target where
  label := ascii "//:app"
  name := ascii "app"
  kind := .exe
  sources := [ascii "main.c"]
  privateHeaders := [ascii "app.h"]
  deps := [ascii "//:api"]
  label_ne := app_label_ne
  sources_lt := Target.main_source_lt

def apiGraph : Graph where
  host := ascii "linux"
  platform := []
  buildDir := ascii "build"
  targets := [apiApp, apiInterface]
  genrules := []
  stages := []
  toolsets := []
  languages := []
  labels_nodup := by decide
  objectlib_objects := by decide
  objects_objectlib := by decide

theorem validated_apiGraph : Linking.Validated apiGraph where
  objects_nodup := by decide
  consumer_objectlib := by decide
  objectlib_final := by
    intro t ht _
    simp only [apiGraph, List.mem_cons, List.not_mem_nil, or_false] at ht
    rcases ht with rfl | rfl
    · rfl
    · rfl

/-- Commands as they are, nothing in the cache, and no descriptions. -/
def plainPrinting : Printing where
  execArgv := EdgeCommand.argv
  cacheHit := fun _ => false
  description := fun _ => []

theorem wellFormed_api :
    ∃ order statements, emitOrder apiGraph (some (ascii "//:app")) = .ok order ∧
      emitNinjaGraph apiGraph (some (ascii "//:app")) = .ok statements ∧
      (WellFormed plainPrinting apiGraph (some (ascii "//:app")) statements ↔
        Legible plainPrinting apiGraph (some (ascii "//:app")) order statements) := by
  obtain ⟨order, horder⟩ := exists_eq_ok
    (x := emitOrder apiGraph (some (ascii "//:app"))) (by decide)
  obtain ⟨statements, hstatements⟩ := exists_eq_ok
    (x := emitNinjaGraph apiGraph (some (ascii "//:app"))) (by decide)
  exact ⟨order, statements, horder, hstatements,
    wellFormed_iff validated_apiGraph horder hstatements⟩

/-- The header and the file that was asked for stand in two sections of one edge. -/
theorem header_and_asked_input_not_wellFormed :
    Linking.Validated apiGraph ∧
      ∃ statements, emitNinjaGraph apiGraph (some (ascii "//:app")) = .ok statements ∧
        ∀ pr, ¬WellFormed pr apiGraph (some (ascii "//:app")) statements := by
  obtain ⟨order, horder⟩ := exists_eq_ok
    (x := emitOrder apiGraph (some (ascii "//:app"))) (by decide)
  obtain ⟨statements, hstatements⟩ := exists_eq_ok
    (x := emitNinjaGraph apiGraph (some (ascii "//:app"))) (by decide)
  refine ⟨validated_apiGraph, statements, hstatements, ?_⟩
  intro pr hwell
  obtain ⟨hregular, hsections⟩ := emission_sections horder hstatements
  obtain ⟨-, hreadable, -⟩ := (read_fileText_iff hregular).mp hwell.read
  have hmem : .target apiApp ∈ order := emitOrder_root horder rfl rfl
  have hone := hsections.mp (fun s hs => (hreadable s hs).2) _ hmem
  obtain ⟨hown, -⟩ := hone rfl
  have hself := hown (.inr ⟨0, by decide, rfl⟩)
  refine hself.own (by decide) ⟨⟨[], [ascii "api.def"]⟩, ?_, by simp⟩
  rfl

end QStar.Ninja
