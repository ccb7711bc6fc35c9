import QStar.Explain.Printer
import QStar.Ninja.ToolPolicy
import QStar.Lowering.Agreement

/-!
# Printed and lowered commands

Where an action can be lowered, the printer writes the words of its command, announces
as many as it writes and uses the id of its node. Only for a source that leads a unity
batch does `explain` print another command.
-/
namespace QStar.Explain

open QStar.Lib.CStrings
open QStar.Lib.Results
open QStar.Base
open QStar.BuildGraph
open QStar.Stella
open QStar.Lowering
open QStar.Ninja (CheckedPaths resolveCommandTool_permitted)

/-- What evaluation and validation make sure of. -/
structure Checked (g : Graph) : Prop where
  paths : CheckedPaths g
  /-- `qstar_graph_validate_generated_outputs` -/
  arguments : ∀ r ∈ g.genrules, ∀ arg ∈ r.args, stageDirToken arg = .plain
  /-- `qstar_graph_add_language_provider` -/
  providers : ∀ t ∈ g.targets, ∀ unit ∈ t.providerSources, unit.provider ≠ ascii "cxx"
  /-- `add_config_header` -/
  configured : ∀ r ∈ g.genrules, r.configHeader = true →
    r.tool = ascii "<qstar-config-header>" ∧ r.toolset = []

variable {h : Host} {g : Graph} {t o : Target} {tc : Toolchain} {a : LoweredAction}
  {role : Bytes} {index actionIndex : Nat}

/-! ## Words -/

theorem toolRole_eq_raw {fallback : Bytes} {words : List Bytes}
    (hwords : toolRole g t tc role (some fallback) = .ok words) :
    rawToolRole g t tc role fallback = words := by
  unfold toolRole at hwords
  unfold rawToolRole
  cases hargv : resolvedToolRoleArgv g t tc role with
  | some argv =>
    simp only [hargv] at hwords
    cases hwords
    rfl
  | none =>
    simp only [hargv] at hwords
    split at hwords
    · cases hwords
    · cases hwords
      rfl

theorem length_rawToolRole (fallback : Bytes) :
    (rawToolRole g t tc role fallback).length = planToolRoleArgc g t tc role := by
  unfold rawToolRole planToolRoleArgc
  cases resolvedToolRoleArgv g t tc role with
  | some argv => rfl
  | none => rfl

theorem length_planTemplateWords (item : Bytes) :
    (planTemplateWords g t tc item).length = planTemplateArgc g t tc item := by
  unfold planTemplateWords planTemplateArgc
  cases providerToolToken item with
  | payload role =>
    unfold planToolRoleArgc
    cases hargv : resolvedToolRoleArgv g t tc role with
    | some argv => simp [hargv]
    | none => simp [hargv]
  | plain => rfl
  | malformed => rfl

theorem templateWord_eq {item : Bytes} {words : List Bytes}
    (hwords : templateWord g t tc item = .ok words) : words = planTemplateWords g t tc item := by
  unfold templateWord at hwords
  unfold planTemplateWords
  cases htoken : providerToolToken item with
  | plain =>
    simp only [htoken] at hwords
    cases hwords
    rfl
  | malformed =>
    simp only [htoken] at hwords
    cases hwords
  | payload role =>
    simp only [htoken, toolRole] at hwords
    cases hargv : resolvedToolRoleArgv g t tc role with
    | some argv =>
      simp only [hargv] at hwords
      cases hwords
      simp [hargv]
    | none =>
      simp only [hargv] at hwords
      cases hwords

theorem templateArgv_eq {items words : List Bytes} (hwords : templateArgv g t tc items = .ok words) :
    (items.map (planTemplateWords g t tc)).flatten = words := by
  obtain ⟨parts, hparts, hwords⟩ := bind_eq_ok.mp hwords
  cases hwords
  rw [mapM_eq_ok_map (fun item _ part hpart => templateWord_eq hpart) hparts]

theorem planUsageOptions_eq {usage : List Bytes} (husage : dependencyUsage g .compile t = .ok usage) :
    planUsageOptions g t = usage := by
  obtain ⟨collected, hcollected, husage⟩ := bind_eq_ok.mp husage
  cases husage
  simp only [planUsageOptions, hcollected]

theorem length_flagged (flag : String) (items : List Bytes) :
    (flagged flag items).length = items.length * 2 := by
  induction items with
  | nil => rfl
  | cons item rest ih =>
    show ([ascii flag, item] ++ flagged flag rest).length = _
    rw [List.length_append, ih, List.length_cons, List.length_cons, List.length_cons,
      List.length_nil]
    omega

/-! ## Compiled sources -/

/-- A compiled source that is no module is of C++ just when it is an implementation; no
provider takes the name of that language. -/
theorem isImplementation_iff (hunit : ∀ unit, providerSourceUnit o index = some unit →
      unit.provider ≠ ascii "cxx")
    (hcompiled : requiresCompile (sourceInfo o index) = true)
    (hinterface : isModuleInterface o index = false) :
    isImplementation o index = true ↔ (sourceInfo o index).provider = ascii "cxx" := by
  have hrules : ∀ rule ∈ sourceRules, requiresCompile rule.2 = true → isCxxModule rule.2 = false →
      (rule.2.provider = ascii "cxx" ↔
        rule.2.provider = ascii "cxx" ∧ rule.2.language = ascii "cxx") := by decide
  rw [isModuleInterface_eq] at hinterface
  unfold isImplementation
  unfold sourceInfo at hcompiled hinterface ⊢
  cases hclassify : sourceClassify o index with
  | none => simp [hclassify, unknownSource, requiresCompile] at hcompiled
  | some source =>
    simp only [hclassify, Option.getD_some] at hcompiled hinterface ⊢
    unfold sourceClassify at hclassify
    cases hpath : o.sources[index]? with
    | none => simp [hpath] at hclassify
    | some path =>
      cases hfound : providerSourceUnit o index with
      | some unit =>
        simp only [hpath, hfound, Option.some.injEq] at hclassify
        subst hclassify
        simp [hunit unit hfound]
      | none =>
        simp only [hpath, hfound, sourceKindLookupPath, Option.map_eq_some_iff] at hclassify
        obtain ⟨rule, hrule, rfl⟩ := hclassify
        have hiff := hrules rule (List.mem_of_find?_eq_some hrule) hcompiled hinterface
        simp only [Option.isNone_none, Bool.and_true, Bool.and_eq_true, decide_eq_true_eq]
        exact hiff.symm

/-- The source as the printer is given it. -/
@[reducible] def plannedOf (g : Graph) (s : CompileSource) : PlannedSource where
  target := s.target
  owner := s.owner
  input := s.input g
  output := s.object g
  index := s.index
  actionIndex := s.actionIndex
  depfileOverride := s.depfileOverride

/-- The line printed for a command without a mistake. -/
def expectedArgv (g : Graph) (tc : Option Toolchain) (a : LoweredAction) : CommandArgv :=
  commandArgv g tc a.id a.argv.length a.argv

/-- What the graph makes sure of for a compiled source: a source is not compiled for another
target of the same label, and no provider takes the name of C++. -/
structure SourceChecked (s : CompileSource) : Prop where
  owner : s.owner.label = s.target.label → s.owner = s.target
  unit : ∀ unit, providerSourceUnit s.owner s.index = some unit → unit.provider ≠ ascii "cxx"
  compiled : requiresCompile (sourceInfo s.owner s.index) = true

variable {s : CompileSource}

/-- The source that leads a unity batch is a C++ source. -/
theorem SourceChecked.leads (hs : SourceChecked s) {batch : Nat}
    (hlead : leadsBatch s.target s.owner s.index = some batch) :
    (sourceInfo s.owner s.index).provider = ascii "cxx" := by
  have hsame : s.owner = s.target := by
    apply hs.owner
    unfold leadsBatch at hlead
    split at hlead
    · assumption
    · cases hlead
  rw [← hsame] at hlead
  obtain ⟨-, himplementation, -, -⟩ := unitySourceInfo_eq_some.mp (leadsBatch_own.mp hlead)
  unfold isImplementation at himplementation
  unfold sourceInfo
  cases hclassify : sourceClassify s.owner s.index with
  | none => simp [hclassify] at himplementation
  | some source =>
    simp only [hclassify, Bool.and_eq_true, decide_eq_true_eq] at himplementation
    exact himplementation.1.1

theorem planned_id (hs : SourceChecked s) :
    (plannedOf g s).id = formatCompileActionId s.target s.owner s.index s.actionIndex := by
  unfold PlannedSource.id formatCompileActionId
  cases leadsBatch s.target s.owner s.index with
  | some batch => rfl
  | none =>
    dsimp only
    by_cases hinterface : isModuleInterface s.owner s.index = true
    · simp only [hinterface, if_true]
    · have hiff := isImplementation_iff hs.unit hs.compiled (by simpa using hinterface)
      simp only [hinterface, Bool.false_eq_true, if_false, Bool.and_eq_true, hiff]

theorem planModuleWords_eq {cxx : Bool} {words bmi : List Bytes}
    (hwords : moduleWords g s cxx = .ok (words, bmi)) :
    planModuleWords g (plannedOf g s) cxx = words := by
  unfold moduleWords at hwords
  unfold planModuleWords planModuleFlags
  dsimp only [plannedOf] at hwords ⊢
  by_cases hmodules : (cxx && s.target.cxxModulesEnabled) = true
  · rw [if_pos hmodules] at hwords
    cases hflags : moduleFlags g s.target s.index with
    | none =>
      rw [hflags] at hwords
      cases hwords
    | some flags =>
      rw [hflags] at hwords
      dsimp only at hwords
      by_cases hinterface : isModuleInterface s.owner s.index = true
      · rw [if_pos hinterface] at hwords
        cases hpath : moduleOutputPath g s.target s.index with
        | none =>
          rw [hpath] at hwords
          cases hwords
        | some path =>
          rw [hpath] at hwords
          cases hwords
          simp [hinterface, hmodules]
      · rw [if_neg hinterface] at hwords
        cases hwords
        simp [hinterface, hmodules]
  · rw [if_neg hmodules] at hwords
    cases hwords
    simp [hmodules]

/-- The printer writes the words of a source of a built-in language. -/
theorem planCompileWords_eq (hs : SourceChecked s) {unitySources : List Bytes}
    (ha : lowerBuiltinSource g tc s (sourceInfo s.owner s.index) unitySources = .ok a) :
    planCompileWords g tc (plannedOf g s) = a.argv := by
  simp only [lowerBuiltinSource, bind_eq_ok] at ha
  obtain ⟨tool, htool, ⟨modules, bmi⟩, hmodules, usage, husage, bmiInputs, -, inputs, -, ha⟩ := ha
  have hquoted : (decide ((sourceInfo s.owner s.index).provider = ascii "cxx") &&
      (leadsBatch s.target s.owner s.index).isSome) =
        (leadsBatch s.target s.owner s.index).isSome := by
    cases hlead : leadsBatch s.target s.owner s.index with
    | none => simp
    | some batch => simp [hs.leads hlead]
  have hdepfile : (plannedOf g s).depfile g = s.depfile g := rfl
  cases ha
  unfold planCompileWords
  simp only [planModuleWords_eq hmodules, hdepfile, toolRole_eq_raw htool, hquoted, planUsageOptions_eq husage, planOptions,
    planWantsDepfile]

theorem length_standardWord (t : Target) :
    (standardWord t).length = if t.cxxStandard ≠ [] then 1 else 0 := by
  unfold standardWord
  by_cases hstandard : t.cxxStandard = []
  · simp [hstandard]
  · simp [hstandard]

theorem length_pchWords :
    (pchWords g t tc).length = if t.cxxPrecompiledHeader ≠ [] then 2 else 0 := by
  unfold pchWords
  by_cases hheader : t.cxxPrecompiledHeader = []
  · simp [hheader]
  · simp [hheader]

theorem length_includeWords :
    (includeWords g t).length =
      (compileIncludeDirs g t).length * 2 + t.systemIncludeDirs.length * 2 := by
  simp only [includeWords, List.length_append, length_flagged]

/-- The path of the module file of an interface is announced and, where there is one, written. -/
theorem length_planModuleWords {p : PlannedSource} {cxx : Bool}
    (hpath : cxx = true → isModuleInterface p.owner p.index = true →
      p.target.cxxModulesEnabled = true → (moduleOutputPath g p.target p.index).isSome = true) :
    (planModuleWords g p cxx).length =
      (if cxx && p.target.cxxModulesEnabled then
        if isModuleInterface p.owner p.index then 2 else 1
      else 0) + (planModuleFlags g p cxx).length := by
  unfold planModuleWords
  by_cases hmodules : (cxx && p.target.cxxModulesEnabled) = true
  · rw [if_pos hmodules, if_pos hmodules]
    rw [Bool.and_eq_true] at hmodules
    by_cases hinterface : isModuleInterface p.owner p.index = true
    · obtain ⟨path, hsome⟩ :=
        Option.isSome_iff_exists.mp (hpath hmodules.1 hinterface hmodules.2)
      simp only [hinterface, if_true, hsome, Option.toList_some, List.map_cons, List.map_nil,
        List.length_append, List.length_cons, List.length_nil]
    · simp only [hinterface, Bool.false_eq_true, if_false, List.length_append, List.length_cons,
        List.length_nil]
  · rw [if_neg hmodules, if_neg hmodules]
    simp [planModuleFlags, hmodules]

/-- The printer announces as many words as it writes. -/
theorem planCompileArgc_eq {p : PlannedSource}
    (hpath : (sourceInfo p.owner p.index).provider = ascii "cxx" →
      isModuleInterface p.owner p.index = true → p.target.cxxModulesEnabled = true →
        (moduleOutputPath g p.target p.index).isSome = true) :
    (planCompileWords g tc p).length = planCompileArgc g tc p := by
  have hmodules := length_planModuleWords (g := g) (p := p) fun hcxx =>
    hpath (of_decide_eq_true hcxx)
  unfold planCompileWords planCompileArgc
  simp only [List.length_append, hmodules, length_rawToolRole, apply_ite List.length,
    length_standardWord, length_pchWords, length_includeWords, length_flagged, List.length_cons,
    List.length_nil, Nat.reduceAdd, Bool.and_eq_true, decide_eq_true_eq, ite_and]
  cases isAsm (sourceInfo p.owner p.index) with
  | false =>
    simp only [Bool.false_eq_true, if_false]
    omega
  | true =>
    simp only [if_true]
    omega

theorem lowerBuiltinSource_modulePath {source : SourceInfo} {unitySources : List Bytes}
    (ha : lowerBuiltinSource g tc s source unitySources = .ok a)
    (hcxx : source.provider = ascii "cxx") (hinterface : isModuleInterface s.owner s.index = true)
    (hmodules : s.target.cxxModulesEnabled = true) :
    (moduleOutputPath g s.target s.index).isSome = true := by
  simp only [lowerBuiltinSource, bind_eq_ok] at ha
  obtain ⟨tool, -, ⟨modules, bmi⟩, hwords, -⟩ := ha
  unfold moduleWords at hwords
  simp only [hcxx, hmodules, hinterface, decide_true, Bool.and_self, if_true] at hwords
  cases hpath : moduleOutputPath g s.target s.index with
  | some path => rfl
  | none =>
    simp only [hpath] at hwords
    split at hwords
    · cases hwords
    · cases hwords

/-- A compile that can be lowered is printed as it is lowered. -/
theorem dumpCompileArgv_eq (hs : SourceChecked s) (ha : lowerCompileAction h g tc s = .ok a) :
    dumpCompileArgv g tc (plannedOf g s) = expectedArgv g (some tc) a := by
  have hid : (plannedOf g s).id = a.id :=
    (planned_id hs).trans (lowerCompileAction_as ha).id.symm
  obtain ⟨unitySources, -, ⟨unit, hunit, -, hlow⟩ | ⟨hunit, hlow⟩⟩ := lowerCompileAction_cases ha
  · unfold lowerProviderSource at hlow
    split at hlow
    · cases hlow
    · simp only [bind_eq_ok] at hlow
      obtain ⟨argv, hargv, usage, husage, inputs, -, hlow⟩ := hlow
      have hwords := templateArgv_eq hargv
      have hcount : (unit.action.argv.map (planTemplateArgc g s.target tc)).sum = argv.length := by
        rw [← hwords, List.length_flatten, List.map_map]
        congr 1
        exact List.map_congr_left fun item _ => (length_planTemplateWords item).symm
      cases hlow
      simp only [dumpCompileArgv, expectedArgv, hunit, hid, hwords, hcount,
        planUsageOptions_eq husage, List.length_append]
  · have hwords := planCompileWords_eq hs hlow
    have hcount : (planCompileWords g tc (plannedOf g s)).length =
        planCompileArgc g tc (plannedOf g s) :=
      planCompileArgc_eq fun hcxx hinterface hmodules =>
        lowerBuiltinSource_modulePath hlow hcxx hinterface hmodules
    simp only [dumpCompileArgv, expectedArgv, hunit, hid, hwords, ← hcount]

/-! ## Declared commands and final actions -/

theorem planResolveTargetFileArg_eq {arg word : Bytes}
    (hword : resolveTargetFileToken g arg = .ok word) : planResolveTargetFileArg g arg = word := by
  unfold resolveTargetFileToken at hword
  unfold planResolveTargetFileArg
  cases htoken : targetFileToken arg with
  | plain =>
    simp only [htoken] at hword
    cases hword
    rfl
  | malformed =>
    simp only [htoken] at hword
    cases hword
  | targetFile label artifact =>
    simp only [htoken] at hword ⊢
    cases hfind : findTarget g label with
    | none =>
      simp only [hfind] at hword ⊢
      unfold planGenerated
      cases hgenrule : findGenrule g label with
      | none =>
        simp only [hgenrule] at hword
        cases hword
      | some r =>
        simp only [hgenrule] at hword ⊢
        split at hword
        · cases hword
        · rename_i hartifact
          cases hword
          rw [if_pos (not_not.mp hartifact)]
    | some t =>
      simp only [hfind] at hword ⊢
      split at hword
      · cases hword
      · rename_i hgroup
        rw [if_neg hgroup]
        split at hword
        · cases hword
        · unfold planArtifact
          split at hword
          · rename_i htool
            simp only [htool, if_true, toOption_eq_some.mpr hword]
            rfl
          · rename_i htool
            simp only [htool, if_false, toOption_eq_some.mpr hword]
            rfl

theorem planResolveRunArg_eq {arg word : Bytes} (hword : resolveCommandToken g arg = .ok word) :
    planResolveRunArg g arg = word := by
  unfold resolveCommandToken at hword
  unfold planResolveRunArg
  cases htoken : stageDirToken arg with
  | plain =>
    simp only [htoken] at hword ⊢
    exact planResolveTargetFileArg_eq hword
  | malformed =>
    simp only [htoken] at hword
    cases hword
  | payload label =>
    simp only [htoken] at hword ⊢
    cases hfind : findStage g label with
    | none =>
      simp only [hfind] at hword
      cases hword
    | some stage =>
      simp only [hfind] at hword
      cases hword
      rfl

/-- The words after the tool of a generated action. -/
theorem planArgs_eq (hchecked : Checked g) {r : Genrule} (hr : r ∈ g.genrules) {words : List Bytes}
    (hwords : r.args.mapM (resolveCommandToken g) = .ok words) :
    r.args.map (planResolveTargetFileArg g) = words := by
  refine (mapM_eq_ok_map ?_ hwords).symm
  intro arg harg word hword
  unfold resolveCommandToken at hword
  rw [hchecked.arguments r hr arg harg] at hword
  exact (planResolveTargetFileArg_eq hword).symm

/-- A tool that names no target resolves to itself. -/
theorem resolveCommandTool_plain {target : Option Target} {toolset tool path : Bytes}
    {mode : ToolMode} (hplain : targetFileToken tool = .plain)
    (htool : resolveCommandTool g target toolset tool = .ok (path, mode)) : path = tool := by
  unfold resolveCommandTool at htool
  simp only [hplain] at htool
  split_ifs at htool <;> cases htool <;> rfl

/-- The policy does not decide what a tool that names a target resolves to. -/
theorem resolveCommandTool_token {target target' : Option Target} {toolset tool label : Bytes}
    {artifact : Bytes} (htoken : targetFileToken tool = .targetFile label artifact) :
    resolveCommandTool g target toolset tool = resolveCommandTool g target' toolset tool := by
  unfold resolveCommandTool
  simp only [htoken]

/-- The printer resolves a tool under the policy of the target it prints, and writes it as it is
declared where that policy refuses it. -/
theorem planGenruleTool_eq {r : Genrule} {target : Option Target} {tool : Bytes} {mode : ToolMode}
    (hconfig : r.configHeader = false)
    (htool : resolveCommandTool g none r.toolset r.tool = .ok (tool, mode)) :
    planGenruleTool g target r = tool := by
  unfold planGenruleTool
  rw [hconfig]
  simp only [Bool.false_eq_true, if_false]
  cases htoken : targetFileToken r.tool with
  | plain =>
    obtain rfl := resolveCommandTool_plain htoken htool
    cases hprinted : resolveCommandTool g target r.toolset r.tool with
    | error e => rfl
    | ok result => exact resolveCommandTool_plain htoken hprinted
  | targetFile label artifact =>
    rw [show resolveCommandTool g target r.toolset r.tool = .ok (tool, mode) from
      (resolveCommandTool_token htoken).trans htool]
  | malformed =>
    unfold resolveCommandTool at htool
    simp only [htoken] at htool
    split at htool <;> cases htool

/-- A generated action is printed as it is lowered, whichever target it is printed for. -/
theorem dumpGenruleArgv_eq (hchecked : Checked g) {r : Genrule} (hr : r ∈ g.genrules)
    (ha : lowerGeneratedAction g r = .ok a) (target : Option Target) :
    dumpGenruleArgv g target r = expectedArgv g (commandToolchain g r.toolset (some r.tool)) a := by
  obtain ⟨hconfig, ha⟩ := guard_eq_ok.mp ha
  obtain ⟨⟨tool, mode⟩, htool, ha⟩ := bind_eq_ok.mp ha
  obtain ⟨-, -, ha⟩ := bind_eq_ok.mp ha
  obtain ⟨argv, hargv, ha⟩ := bind_eq_ok.mp ha
  obtain ⟨declared, -, ha⟩ := bind_eq_ok.mp ha
  obtain ⟨named, -, ha⟩ := bind_eq_ok.mp ha
  rw [List.mapM_cons] at hargv
  obtain ⟨first, hfirst, hargv⟩ := bind_eq_ok.mp hargv
  obtain ⟨rest, hrest, hargv⟩ := bind_eq_ok.mp hargv
  have hsame := (resolveCommandTool_permitted hchecked.paths htool).2
  rw [hsame, Except.ok.injEq] at hfirst
  subst hfirst
  cases hargv
  cases ha
  have hwords := planArgs_eq hchecked hr hrest
  have hcount : 1 + r.args.length = (tool :: rest).length := by
    rw [← hwords, List.length_cons, List.length_map]
    omega
  simp only [dumpGenruleArgv, expectedArgv, hwords, hcount,
    planGenruleTool_eq (by simpa using hconfig) htool]

theorem dumpRunArgv_eq (ha : lowerRunAction g t = .ok a) :
    dumpRunArgv g t = expectedArgv g (commandToolchain g t.toolset t.runCommand.head?) a := by
  obtain ⟨hcommand, ha⟩ := guard_eq_ok.mp ha
  obtain ⟨argv, hargv, ha⟩ := bind_eq_ok.mp ha
  obtain ⟨named, -, ha⟩ := bind_eq_ok.mp ha
  obtain ⟨inputs, -, ha⟩ := bind_eq_ok.mp ha
  cases ha
  have hwords := mapM_eq_ok_map (fun arg _ word hword => (planResolveRunArg_eq hword).symm) hargv
  have hcount : t.runCommand.length = argv.length := by rw [hwords, List.length_map]
  simp only [dumpRunArgv, expectedArgv, ← hwords, hcount]

theorem dumpLoweredFinalArgv_eq (ha : lowerFinalAction g tc t = .ok a) {c : CommandArgv}
    (hc : dumpLoweredFinalArgv g tc t = .ok c) : c = expectedArgv g (some tc) a := by
  obtain ⟨a', ha', hc⟩ := bind_eq_ok.mp hc
  obtain ⟨response, hresponse, hc⟩ := bind_eq_ok.mp hc
  cases ha.symm.trans ha'
  cases hc
  simp only [expectedArgv, commandArgv, toOption_eq_some.mpr hresponse]

/-! ## Unity batches -/

theorem objectOutputPath_ne_unity (batch : Nat) :
    objectOutputPath g t index ≠ unityObjectPath g t batch := by
  simp [objectOutputPath, unityObjectPath, unityPath, cxxSubpath, outPath, buildPath, ascii]

/-- The words of a compile tell its output. -/
theorem output_of_planCompileWords {input input' output output' : Bytes} {override : Option Bytes}
    (hwords : planCompileWords g tc ⟨t, o, input, output, index, actionIndex, override⟩ =
      planCompileWords g tc ⟨t, o, input', output', index, actionIndex, override⟩) :
    output = output' := by
  unfold planCompileWords at hwords
  simp only [List.append_assoc, List.append_cancel_left_eq, List.cons_append, List.nil_append,
    List.cons.injEq] at hwords
  exact hwords.2.2.2.1

/-- What `explain` prints for a source that leads a batch writes to the object of the source,
and the lowered action to that of the batch. -/
theorem explain_leader_ne {batch : Nat} (hs : SourceChecked (ownSource t index))
    (hlead : leadsBatch t t index = some batch)
    (ha : lowerCompileAction h g tc (ownSource t index) = .ok a) :
    (dumpCompileArgv g tc (plannedSource .explain g t index)).argv ≠ a.argv := by
  have hunit : providerSourceUnit t index = none := by
    cases hunit : providerSourceUnit t index with
    | none => rfl
    | some unit =>
      rw [Agreement.leadsBatch_provider hunit] at hlead
      cases hlead
  have hprinted := congrArg CommandArgv.argv (dumpCompileArgv_eq hs ha)
  have hobject : (ownSource t index).object g = unityObjectPath g t batch := by
    simp only [CompileSource.object, ownSource, hlead]
  intro hsame
  rw [show a.argv = (expectedArgv g (some tc) a).argv from rfl, ← hprinted] at hsame
  simp only [dumpCompileArgv, plannedSource, ownSource, hunit, commandArgv] at hsame
  have houtput := output_of_planCompileWords hsame
  exact objectOutputPath_ne_unity batch (houtput.trans hobject)

end QStar.Explain
