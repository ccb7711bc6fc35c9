import QStar.Ninja.Edges

/-!
# What the action cache is told about an edge

The inputs of a compile, precompiled-header or generate edge are printed by one
piece of code and listed for the action cache by another. Listed are the inputs a
compile command names and the headers of its target, the header that is
precompiled, and the declared inputs of a generated action as they were written.
Printed are also the headers of an object library for its consumer, what
dependencies ask to have, the headers beside a precompiled one, the files behind
tokens and the script of a configured file.
-/
namespace QStar.Ninja

open QStar.Lib.CStrings
open QStar.Lib.Results
open QStar.Base
open QStar.BuildGraph
open QStar.Lowering

/-- The edges whose command the action cache may replace. -/
inductive CachedEdge where
  | compile (s : CompileSource)
  | cxxPch (t : Target)
  | generate (target : Option Target) (r : Genrule)

/-- The statement that is emitted for the edge. -/
def CachedEdge.emit (g : Graph) : CachedEdge → Except LoweringError Statement
  | .compile s => emitCompileEdgeFromSource g (resolveToolchain g s.target) s
  | .cxxPch t => emitCxxPchEdge g (resolveToolchain g t) t
  | .generate target r => emitGenruleEdge g target r

/-- The command of a statement, if a process runs it. -/
def Statement.edgeCommand (s : Statement) : Option EdgeCommand :=
  match s.command with
  | .process command => some command
  | _ => none

/-- The files behind the explicit and implicit inputs of a statement. -/
def Statement.reads (s : Statement) : List Bytes := s.inputs.filterMap Input.read

/-- Every file behind an input is one the action cache is told. -/
def Covered (s : Statement) : Prop := ∀ command ∈ s.edgeCommand, s.reads ⊆ command.inputs

/-- The dependencies of a target ask for a file to be there when it is compiled. -/
def AsksFor (g : Graph) (t : Target) (path : Bytes) : Prop :=
  ∃ usage, collectUsage g .compile t = .ok usage ∧
    ∃ item ∈ usage.inputs, resolveTargetFileToken g item = .ok path

/-- The inputs a compile command of a built-in language names. -/
def NamedForCompile (g : Graph) (s : CompileSource) (path : Bytes) : Prop :=
  ∃ unitySources bmiInputs, s.unitySources = .ok unitySources ∧
    moduleFileInputs g s (decide ((sourceInfo s.owner s.index).provider = ascii "cxx")) =
      .ok bmiInputs ∧
    path ∈ namedInputs g (resolveToolchain g s.target) s (sourceInfo s.owner s.index) unitySources
      bmiInputs

/-- What an edge prints beyond the inputs that are listed for it. -/
def CachedEdge.Unlisted (g : Graph) : CachedEdge → Bytes → Prop
  | .compile s, path =>
    AsksFor g s.target path ∨
      ((providerSourceUnit s.owner s.index).isNone = true ∧ s.owner.label ≠ s.target.label ∧
        path ∈ headerInputs s.owner)
  | .cxxPch t, path => AsksFor g t path ∨ path ∈ headerInputs t
  | .generate _ r, path =>
    (∃ item ∈ genruleDepItems r, targetFileToken item ≠ .plain ∧
      resolveTargetFileToken g item = .ok path) ∨
    (r.configHeader = true ∧ path = scriptPath g r.label)

/-- The inputs that are listed for an edge. -/
def CachedEdge.Listed (g : Graph) : CachedEdge → Bytes → Prop
  | .compile s, path =>
    match providerSourceUnit s.owner s.index with
    | some unit => path ∈ unit.action.inputs
    | none => NamedForCompile g s path ∨ path ∈ headerInputs s.target
  | .cxxPch t, path => path = t.cxxPrecompiledHeader
  | .generate _ r, path => path ∈ r.inputs

/-- What is printed beyond the listed inputs happens to be listed too. -/
def CachedEdge.NothingUnlisted (g : Graph) (e : CachedEdge) : Prop :=
  ∀ path, e.Unlisted g path → e.Listed g path

/-! ## Inputs of statements -/

@[simp] theorem flatten_openSection (items : List Input) : (openSection items).flatten = items := by
  unfold openSection
  split
  · rename_i h
    exact h.symm
  · simp

@[simp] theorem filterMap_file (paths : List Bytes) :
    (paths.map Input.file).filterMap Input.read = paths := by
  simp [List.filterMap_map, Function.comp_def, Input.file]

theorem reads_eq (s : Statement) :
    s.reads = s.explicit.filterMap Input.read ++ s.implicit.flatten.filterMap Input.read := by
  simp [Statement.reads, Statement.inputs]

/-- The files a compile usage section prints are those that were asked for. -/
theorem mem_writeCompileUsageInputs {g : Graph} {t : Target} {sections : List (List Input)}
    (h : writeCompileUsageInputs g t = .ok sections) (path : Bytes) :
    path ∈ sections.flatten.filterMap Input.read ↔ AsksFor g t path := by
  obtain ⟨inputs, hinputs, h⟩ := bind_eq_ok.mp h
  cases h
  obtain ⟨usage, husage, hresolved⟩ := bind_eq_ok.mp hinputs
  rw [flatten_openSection, filterMap_file]
  constructor
  · intro hmem
    obtain ⟨item, hitem, hpath⟩ := mapM_eq_ok_mem hresolved path hmem
    exact ⟨usage, husage, item, hitem, hpath⟩
  · intro ⟨usage', husage', item, hitem, hpath⟩
    rw [husage, Except.ok.injEq] at husage'
    subst husage'
    obtain ⟨path', hmem, hpath'⟩ := mapM_eq_ok_of_mem hresolved hitem
    rw [hpath, Except.ok.injEq] at hpath'
    exact hpath' ▸ hmem

/-- The file a generated action reads for an item it depends on. -/
theorem writeGenruleDepItem_read {g : Graph} {item : Bytes} {printed : List Input}
    (h : writeGenruleDepItem g item = .ok printed) (path : Bytes) :
    path ∈ printed.filterMap Input.read ↔ resolveTargetFileToken g item = .ok path := by
  unfold writeGenruleDepItem at h
  cases htoken : targetFileToken item with
  | plain =>
    simp only [htoken] at h
    cases h
    simp [Input.file, resolveTargetFileToken, htoken, eq_comm]
  | malformed => simp [htoken] at h
  | targetFile label artifact =>
    simp only [htoken] at h
    cases htarget : findTarget g label with
    | some t =>
      simp only [htarget] at h
      cases h
      simp [toOption_eq_some]
    | none =>
      simp only [htarget] at h
      cases hgenrule : findGenrule g label with
      | some r =>
        simp only [hgenrule] at h
        cases h
        simp [toOption_eq_some]
      | none =>
        simp only [hgenrule] at h
        cases h
        simp [resolveTargetFileToken, htoken, htarget, hgenrule]

/-- A generated action reads the files of the items it depends on. -/
theorem mem_writeGenruleDeps {g : Graph} {r : Genrule} {sections : List (List Input)}
    (h : writeGenruleDeps g r = .ok sections) (path : Bytes) :
    path ∈ sections.flatten.filterMap Input.read ↔
      ∃ item ∈ genruleDepItems r, resolveTargetFileToken g item = .ok path := by
  unfold writeGenruleDeps at h
  split at h
  · rename_i hnone
    obtain ⟨hinputs, hargs, htool⟩ := hnone
    cases h
    simp [genruleDepItems, hinputs, hargs, htool]
  · obtain ⟨items, hitems, h⟩ := bind_eq_ok.mp h
    cases h
    simp only [List.flatten_cons, List.flatten_nil, List.append_nil, List.filterMap_flatten,
      List.mem_flatten, List.mem_map]
    constructor
    · intro ⟨reads, ⟨printed, hprinted, hreads⟩, hpath⟩
      subst hreads
      obtain ⟨item, hitem, hwrite⟩ := mapM_eq_ok_mem hitems printed hprinted
      exact ⟨item, hitem, (writeGenruleDepItem_read hwrite path).mp hpath⟩
    · intro ⟨item, hitem, hpath⟩
      obtain ⟨printed, hprinted, hwrite⟩ := mapM_eq_ok_of_mem hitems hitem
      exact ⟨_, ⟨printed, hprinted, rfl⟩, (writeGenruleDepItem_read hwrite path).mpr hpath⟩

/-! ## Coverage of the edges -/

section Coverage

variable {g : Graph} {tc : Toolchain} {s : CompileSource} {stmt : Statement}

/-- A statement with a process command is covered when what it reads is listed. -/
theorem covered_iff {command : EdgeCommand} (h : stmt.command = .process command) :
    Covered stmt ↔ ∀ path ∈ stmt.reads, path ∈ command.inputs := by
  simp [Covered, Statement.edgeCommand, h, List.subset_def]

theorem emitProviderEdge_covered_iff {source : SourceInfo} {unit : ProviderSourceUnit}
    (h : emitProviderEdge g tc s source unit = .ok stmt) :
    Covered stmt ↔ ∀ path, AsksFor g s.target path → path ∈ unit.action.inputs := by
  unfold emitProviderEdge at h
  simp only [bind_eq_ok] at h
  obtain ⟨argv, -, usage, -, sections, hsections, h⟩ := h
  cases h
  rw [covered_iff rfl]
  simp only [reads_eq, List.mem_append, filterMap_file, mem_writeCompileUsageInputs hsections]
  constructor
  · intro hcovered path hasked
    exact hcovered path (.inr hasked)
  · intro hasked path hpath
    rcases hpath with hpath | hpath
    · exact hpath
    · exact hasked path hpath

/-- The headers an object library adds to the statement of its consumer. -/
theorem mem_writeOwnerHeaderInputs (s : CompileSource) (path : Bytes) :
    path ∈ (writeOwnerHeaderInputs s).flatten.filterMap Input.read ↔
      s.owner.label ≠ s.target.label ∧ path ∈ headerInputs s.owner := by
  unfold writeOwnerHeaderInputs
  split
  · rename_i hsame
    simp [hsame]
  · rename_i hother
    simp only [writeHeaderInputs, flatten_openSection, filterMap_file]
    exact (and_iff_right hother).symm

theorem emitBuiltinEdge_covered_iff {unitySources : List Bytes}
    (hunity : s.unitySources = .ok unitySources)
    (h : emitBuiltinEdge g (resolveToolchain g s.target) s (sourceInfo s.owner s.index)
      unitySources = .ok stmt) :
    Covered stmt ↔ ∀ path,
      AsksFor g s.target path ∨ (s.owner.label ≠ s.target.label ∧ path ∈ headerInputs s.owner) →
      NamedForCompile g s path ∨ path ∈ headerInputs s.target := by
  unfold emitBuiltinEdge at h
  simp only [bind_eq_ok] at h
  obtain ⟨tool, -, modules, -, u, -, usage, -, bmiInputs, hbmi, sections, hsections, h⟩ := h
  cases h
  have hnamed : ∀ path, NamedForCompile g s path ↔
      path ∈ namedInputs g (resolveToolchain g s.target) s (sourceInfo s.owner s.index)
        unitySources bmiInputs := by
    intro path
    constructor
    · intro ⟨unitySources', bmiInputs', hunity', hbmi', hpath⟩
      rw [hunity, Except.ok.injEq] at hunity'
      rw [hbmi, Except.ok.injEq] at hbmi'
      rw [hunity', hbmi']
      exact hpath
    · intro hpath
      exact ⟨unitySources, bmiInputs, hunity, hbmi, hpath⟩
  rw [covered_iff rfl]
  simp only [reads_eq, List.mem_append, filterMap_file, List.flatten_append,
    List.filterMap_append, mem_writeCompileUsageInputs hsections, mem_writeOwnerHeaderInputs,
    writeHeaderInputs, flatten_openSection, hnamed]
  constructor
  · intro hcovered path hpath
    refine hcovered path (.inr ?_)
    rcases hpath with hasked | howner
    · exact .inr hasked
    · exact .inl (.inr howner)
  · intro hlisted path hpath
    rcases hpath with hpath | (hpath | howner) | hasked
    · exact .inl hpath
    · exact .inr hpath
    · exact hlisted path (.inr howner)
    · exact hlisted path (.inl hasked)

theorem emitCompileEdgeFromSource_covered_iff
    (h : emitCompileEdgeFromSource g (resolveToolchain g s.target) s = .ok stmt) :
    Covered stmt ↔ (CachedEdge.compile s).NothingUnlisted g := by
  unfold emitCompileEdgeFromSource at h
  obtain ⟨u, -, h⟩ := bind_eq_ok.mp h
  obtain ⟨-, h⟩ := guard_eq_ok.mp h
  obtain ⟨unitySources, hunity, h⟩ := bind_eq_ok.mp h
  simp only [CachedEdge.NothingUnlisted, CachedEdge.Unlisted, CachedEdge.Listed]
  cases hunit : providerSourceUnit s.owner s.index with
  | some unit =>
    simp only [hunit] at h
    obtain ⟨-, h⟩ := guard_eq_ok.mp h
    simpa [hunit] using emitProviderEdge_covered_iff h
  | none =>
    simp only [hunit] at h
    simpa [hunit] using emitBuiltinEdge_covered_iff hunity h

theorem emitCxxPchEdge_covered_iff {t : Target} (h : emitCxxPchEdge g tc t = .ok stmt) :
    Covered stmt ↔ (CachedEdge.cxxPch t).NothingUnlisted g := by
  unfold emitCxxPchEdge at h
  simp only [bind_eq_ok] at h
  obtain ⟨tool, -, usage, -, sections, hsections, h⟩ := h
  cases h
  rw [covered_iff rfl]
  simp only [CachedEdge.NothingUnlisted, CachedEdge.Unlisted, CachedEdge.Listed, reads_eq,
    List.mem_append, List.flatten_append, List.filterMap_append,
    mem_writeCompileUsageInputs hsections, writeHeaderInputs, flatten_openSection, filterMap_file]
  constructor
  · intro hcovered path hpath
    simpa using hcovered path (.inr hpath.symm)
  · intro hlisted path hpath
    rcases hpath with hpath | hpath
    · simpa [Input.file] using hpath
    · simpa using hlisted path hpath.symm

/-- A plain item is the file it names. -/
theorem resolveTargetFileToken_plain {item : Bytes} (h : targetFileToken item = .plain) :
    resolveTargetFileToken g item = .ok item := by
  simp [resolveTargetFileToken, h]

theorem mem_genruleDepItems {r : Genrule} {item : Bytes} (h : item ∈ genruleDepItems r)
    (hplain : targetFileToken item = .plain) : item ∈ r.inputs := by
  unfold genruleDepItems at h
  simp only [List.mem_append, List.mem_filter, decide_eq_true_eq] at h
  rcases h with (htool | hinput) | ⟨-, harg⟩
  · split at htool
    · cases htool
    · rename_i hne
      rw [List.mem_singleton] at htool
      exact absurd (htool ▸ hplain) hne
  · exact hinput
  · exact absurd hplain harg

theorem emitGenruleEdge_covered_iff {target : Option Target} {r : Genrule}
    (h : emitGenruleEdge g target r = .ok stmt) :
    Covered stmt ↔ (CachedEdge.generate target r).NothingUnlisted g := by
  unfold emitGenruleEdge at h
  simp only [bind_eq_ok] at h
  obtain ⟨argv, -, sections, hsections, h⟩ := h
  cases h
  have hscript : ∀ path, path ∈ (if r.configHeader then [Input.file (scriptPath g r.label)]
      else []).filterMap Input.read ↔ r.configHeader = true ∧ path = scriptPath g r.label := by
    intro path
    cases r.configHeader <;> simp [Input.file]
  rw [covered_iff rfl]
  simp only [CachedEdge.NothingUnlisted, CachedEdge.Unlisted, CachedEdge.Listed, reads_eq,
    List.mem_append, hscript, mem_writeGenruleDeps hsections]
  constructor
  · intro hcovered path hpath
    rcases hpath with ⟨item, hitem, -, hresolve⟩ | hconfig
    · exact hcovered path (.inr ⟨item, hitem, hresolve⟩)
    · exact hcovered path (.inl hconfig)
  · intro hlisted path hpath
    rcases hpath with hconfig | ⟨item, hitem, hresolve⟩
    · exact hlisted path (.inr hconfig)
    · by_cases hplain : targetFileToken item = .plain
      · rw [resolveTargetFileToken_plain hplain, Except.ok.injEq] at hresolve
        exact hresolve ▸ mem_genruleDepItems hitem hplain
      · exact hlisted path (.inl ⟨item, hitem, hplain, hresolve⟩)

end Coverage

/-- The action cache is told every file an edge reads exactly when what is printed beyond the
listed inputs happens to be listed too. -/
theorem cached_inputs_cover_iff {g : Graph} {e : CachedEdge} {stmt : Statement}
    (h : e.emit g = .ok stmt) : Covered stmt ↔ e.NothingUnlisted g := by
  cases e with
  | compile s => exact emitCompileEdgeFromSource_covered_iff h
  | cxxPch t => exact emitCxxPchEdge_covered_iff h
  | generate target r => exact emitGenruleEdge_covered_iff h

/-- An executable that generates tables. -/
def maketab : Target where
  label := ascii "//:maketab"
  name := ascii "maketab"
  kind := .exe
  sources := [ascii "maketab.c"]
  label_ne := by decide
  sources_lt := by decide

/-- The action that runs it. -/
def tables : Genrule where
  label := ascii "//:tables"
  tool := ascii "<qstar-target-file://:maketab#@tool>"
  toolset := []
  configHeader := false
  inputs := [ascii "tables.txt"]
  outputs := [ascii "build/gen/tables.h"]
  outputGroups := []
  outputFormats := []
  args := [ascii "tables.txt", ascii "build/gen/tables.h"]
  label_ne := by decide
  outputs_ne := by decide

def tableGraph : Graph where
  host := ascii "linux"
  platform := ascii "linux"
  buildDir := ascii "build"
  targets := [maketab]
  genrules := [tables]
  stages := []
  toolsets := []
  languages := []
  labels_nodup := by decide
  objectlib_objects := by decide
  objects_objectlib := by decide

theorem cached_inputs_cover_maketab :
    ∃ stmt, (CachedEdge.compile (ownSource maketab 0)).emit tableGraph = .ok stmt ∧
      (Covered stmt ↔ (CachedEdge.compile (ownSource maketab 0)).NothingUnlisted tableGraph) := by
  obtain ⟨stmt, hstmt⟩ := exists_eq_ok
    (x := (CachedEdge.compile (ownSource maketab 0)).emit tableGraph) (by decide)
  exact ⟨stmt, hstmt, cached_inputs_cover_iff hstmt⟩

/-- The action reads the executable it runs, and the action cache is told the table alone. -/
theorem tool_token_not_listed :
    ∃ stmt, (CachedEdge.generate none tables).emit tableGraph = .ok stmt ∧
      (∃ command ∈ stmt.edgeCommand, command.cacheable = true) ∧ ¬Covered stmt := by
  obtain ⟨stmt, hstmt⟩ := exists_eq_ok
    (x := (CachedEdge.generate none tables).emit tableGraph) (by decide)
  obtain ⟨argv, hargv, hrest⟩ := bind_eq_ok.mp hstmt
  obtain ⟨sections, hsections, heq⟩ := bind_eq_ok.mp hrest
  refine ⟨stmt, hstmt, ?_, ?_⟩
  · cases heq
    exact ⟨_, rfl, rfl⟩
  · rw [@emitGenruleEdge_covered_iff tableGraph _ none tables hstmt]
    intro hlisted
    have hresolve : resolveTargetFileToken tableGraph tables.tool =
        .ok (ascii "build/out/___maketab/maketab") := by decide
    have hmem := hlisted (ascii "build/out/___maketab/maketab")
      (.inl ⟨tables.tool, by decide, by decide, hresolve⟩)
    revert hmem
    simp only [CachedEdge.Listed]
    decide

end QStar.Ninja
