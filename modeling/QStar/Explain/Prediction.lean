import QStar.Explain.Agreement
import QStar.Explain.Prepared

/-!
# Plans against builds

The commands that `explain` or `dry-run` print for a label against those that a build of
the label prepares. They are the same when the plan knows of all that the build does:
unity batches, precompiled headers, and what is needed besides the closure of the label.
-/
namespace QStar.Explain

open QStar.Lib.CStrings
open QStar.Lib.Fixpoints
open QStar.Lib.Results
open QStar.Base
open QStar.BuildGraph
open QStar.Stella
open QStar.Lowering
open QStar.Lowering.Plan
open QStar.Scheduler.Discovery

/-- A printed command and the command of an action with its id. -/
structure Foretells (c : CommandArgv) (q : PreparedCommand) : Prop where
  argv : c.argv = q.argv
  argc : c.argc = q.argv.length
  digest : c.digest = q.digest
  response : c.response = some q.response

/-- A plan predicts what is prepared: the same ids, each with its command. -/
structure Predicts (printed : List CommandArgv) (prepared : List PreparedCommand) : Prop where
  ids : ∀ id, (∃ c ∈ printed, c.id = id) ↔ ∃ q ∈ prepared, q.id = id
  commands : ∀ c ∈ printed, ∀ q ∈ prepared, c.id = q.id → Foretells c q
  counted : ∀ c ∈ printed, c.argc = c.argv.length

/-- A generated action that is printed: the one the label selects, or one that a target of the
closure names. -/
def Shown (g : Graph) (label : Option Bytes) (r : Genrule) : Prop :=
  rootGenrule g label = some r ∨
    ∃ t, InClosure g label t ∧ genruleReferencedByTarget r t = true

/-- The process actions of a target. -/
def processNodes (g : Graph) (t : Target) : List ActionNode :=
  if t.kind = .runTarget then [.run t] else if hasNoToolchain t then [] else ownNodes g t

/-- When a plan predicts the build. -/
structure Predictable (mode : PlanMode) (g : Graph) (label : Option Bytes) : Prop where
  /-- `explain` prints a compile for each source of a unity batch. -/
  unity : mode = .explain → ∀ t, InClosure g label t → hasNoToolchain t = false →
    ∀ index ∈ plannedSources .explain t, unitySourceInfo t index = none
  /-- The command that precompiles a header is not printed. -/
  header : ∀ t, InClosure g label t → hasNoToolchain t = false → t.cxxPrecompiledHeader = []
  /-- The printer has its own idea of which generated actions are needed. -/
  generated : ∀ r ∈ g.genrules, Shown g label r ↔ Needed g label (.genrule r)
  /-- Of the targets it knows those of the closure. -/
  targets : ∀ t, Needed g label (.target t) → ¬InClosure g label t → processNodes g t = []

/-! ## Nodes -/

/-- The actions of a target that are printed. -/
def plannedNodes (mode : PlanMode) (g : Graph) (t : Target) : List ActionNode :=
  if t.kind = .runTarget then [.run t]
  else if hasNoToolchain t then []
  else
    (plannedSources mode t).map (.compile t) ++ consumerNodes g t ++
      if t.kind = .objectlib then [] else [.final t]

/-- The actions that are printed for a label. -/
inductive PlannedNode (mode : PlanMode) (g : Graph) (label : Option Bytes) : ActionNode → Prop where
  | target {t : Target} {node : ActionNode} (ht : InClosure g label t)
      (hnode : node ∈ plannedNodes mode g t) : PlannedNode mode g label node
  | genrule {r : Genrule} (hr : r ∈ g.genrules) (hshown : Shown g label r) :
      PlannedNode mode g label (.generate r)

/-- The actions a build of a label prepares. -/
inductive ScheduledNode (g : Graph) (label : Option Bytes) : ActionNode → Prop where
  | target {t : Target} {node : ActionNode} (ht : Needed g label (.target t))
      (hnode : node ∈ processNodes g t) : ScheduledNode g label node
  | genrule {r : Genrule} (hr : r ∈ g.genrules) (hneeded : Needed g label (.genrule r)) :
      ScheduledNode g label (.generate r)

/-- A node whose id tells it. -/
inductive KnownNode (g : Graph) : ActionNode → Prop where
  | own {t : Target} {node : ActionNode} (ht : t ∈ g.targets) (hnode : NodeOf g t node)
      (hlabel : nodeLabel node = t.label) (hkind : hasNoToolchain t = false)
      (hvalid : (nodeShape node).Valid) : KnownNode g node
  | generate {r : Genrule} (hr : r ∈ g.genrules) : KnownNode g (.generate r)
  | run {t : Target} (ht : t ∈ g.targets) (hkind : t.kind = .runTarget) : KnownNode g (.run t)

section Nodes

variable {mode : PlanMode} {h : Host} {g : Graph} {label : Option Bytes} {t : Target}
  {node node' : ActionNode}

theorem inClosure_mem (ht : InClosure g label t) : t ∈ g.targets := by
  refine ht.induction ?_ ?_
  · rintro root ⟨roots, hroots, hroot⟩
    exact mem_closureRoots hroots root hroot
  · rintro a b - ⟨name, -, hfind⟩
    exact findTarget_mem hfind

theorem inClosure_root_none (ht : InClosure g label t) : rootGenrule g label = none := by
  refine ht.induction (P := fun _ => rootGenrule g label = none) ?_ fun _ _ hnone _ => hnone
  rintro root ⟨roots, hroots, -⟩
  unfold rootGenrule
  unfold closureRoots at hroots
  cases label with
  | none => rfl
  | some name =>
    dsimp only at hroots ⊢
    split
    · rfl
    · rename_i hne
      rw [if_neg hne] at hroots
      cases hfind : findTarget g name with
      | none =>
        rw [hfind] at hroots
        cases hroots
      | some found =>
        obtain rfl := findTarget_label hfind
        exact findGenrule_target (findTarget_mem hfind)

/-- A build needs the closure of its label. -/
theorem inClosure_needed (ht : InClosure g label t) : Needed g label (.target t) :=
  ht.map (f := Producer.target)
    (fun _ hroot => .of_root (.target (inClosure_root_none ht) hroot))
    fun _ _ hdep => .dependency hdep

theorem needed_declared {p : Producer} (hp : Needed g label p) : p.Declared g := by
  refine hp.induction ?_ ?_
  · rintro root (⟨hr⟩ | ⟨-, roots, hroots, hroot⟩)
    · unfold rootGenrule at hr
      split at hr
      · cases hr
      · split at hr
        · cases hr
        · exact findGenrule_mem hr
    · exact mem_closureRoots hroots _ hroot
  · rintro a b - (⟨⟨name, -, hfind⟩⟩ | ⟨hasked, hb⟩)
    · exact findTarget_mem hfind
    · exact asked_declared hasked hb

theorem KnownNode.colon_notMem (hnode : KnownNode g node) :
    58 ∉ (nodeShape node).kind ∧ 58 ∉ (nodeShape node).number := by
  cases hnode with
  | own ht hnode hlabel hkind hvalid => exact IdShape.colon_notMem hvalid
  | generate hr => exact ⟨show 58 ∉ ascii "generate" by decide, show 58 ∉ ascii "0" by decide⟩
  | run ht hkind => exact ⟨show 58 ∉ ascii "run" by decide, show 58 ∉ ascii "0" by decide⟩

theorem label_ne_of_genrule {r : Genrule} (ht : t ∈ g.targets) (hr : r ∈ g.genrules) :
    t.label ≠ r.label := by
  intro hlabel
  have hnone := findGenrule_target ht
  rw [hlabel, findGenrule_of_mem hr] at hnone
  cases hnone

/-- No two nodes that are printed or scheduled share an id. -/
theorem KnownNode.inj (hnode : KnownNode g node) (hnode' : KnownNode g node')
    (hid : nodeId node = nodeId node') : node = node' := by
  rw [nodeId_eq, nodeId_eq] at hid
  obtain ⟨hkind, hnumber⟩ := hnode.colon_notMem
  obtain ⟨hkind', hnumber'⟩ := hnode'.colon_notMem
  obtain ⟨hlabel, hsame, hsame'⟩ := append_colon_inj hkind hkind' hnumber hnumber' hid
  cases hnode with
  | own ht hown hown_label htool hvalid =>
    rw [hown_label] at hlabel
    cases hnode' with
    | own ht' hown' hown_label' htool' hvalid' =>
      rw [hown_label'] at hlabel
      obtain rfl := eq_of_label ht ht' hlabel
      exact nodeShape_inj ht hown hown' (IdShape.ext_print hvalid hvalid' hsame hsame')
    | generate hr => exact absurd hlabel (label_ne_of_genrule ht hr)
    | run ht' hrun =>
      obtain rfl := eq_of_label ht ht' hlabel
      simp [hasNoToolchain, hrun] at htool
  | generate hr =>
    cases hnode' with
    | own ht' hown' hown_label' htool' hvalid' =>
      rw [hown_label'] at hlabel
      exact absurd hlabel.symm (label_ne_of_genrule ht' hr)
    | generate hr' =>
      have hfind := (findGenrule_of_mem hr).symm.trans
        ((congrArg (findGenrule g) hlabel).trans (findGenrule_of_mem hr'))
      rw [Option.some.inj hfind]
    | run ht' hrun => exact absurd hlabel.symm (label_ne_of_genrule ht' hr)
  | run ht hrun =>
    cases hnode' with
    | own ht' hown' hown_label' htool' hvalid' =>
      rw [hown_label'] at hlabel
      obtain rfl := eq_of_label ht ht' hlabel
      simp [hasNoToolchain, hrun] at htool'
    | generate hr => exact absurd hlabel (label_ne_of_genrule ht hr)
    | run ht' hrun' => rw [eq_of_label ht ht' hlabel]

theorem processNodes_own (hnode : node ∈ processNodes g t) :
    (t.kind = .runTarget ∧ node = .run t) ∨ (hasNoToolchain t = false ∧ node ∈ ownNodes g t) := by
  unfold processNodes at hnode
  split at hnode
  · rename_i hrun
    exact .inl ⟨hrun, List.mem_singleton.mp hnode⟩
  · split at hnode
    · cases hnode
    · rename_i hkind
      exact .inr ⟨by simpa using hkind, hnode⟩

theorem ScheduledNode.known (hnode : ScheduledNode g label node) : KnownNode g node := by
  cases hnode with
  | @target t _ ht hmem =>
    have hdeclared : t ∈ g.targets := needed_declared ht
    rcases processNodes_own hmem with ⟨hrun, rfl⟩ | ⟨hkind, hown⟩
    · exact .run hdeclared hrun
    · exact .own hdeclared (nodeOf_of_mem hown) (nodeLabel_of_mem hown) hkind
        (nodeShape_valid hkind hown)
  | genrule hr hneeded => exact .generate hr

/-- What a printed action of a target is. -/
theorem mem_plannedNodes (hnode : node ∈ plannedNodes mode g t) :
    (t.kind = .runTarget ∧ node = .run t) ∨
    (hasNoToolchain t = false ∧ ((∃ index ∈ plannedSources mode t, node = .compile t index) ∨
      node ∈ consumerNodes g t ∨ (t.kind ≠ .objectlib ∧ node = .final t))) := by
  unfold plannedNodes at hnode
  split at hnode
  · rename_i hrun
    exact .inl ⟨hrun, List.mem_singleton.mp hnode⟩
  · split at hnode
    · cases hnode
    · rename_i hkind
      refine .inr ⟨by simpa using hkind, ?_⟩
      simp only [List.mem_append, List.mem_map] at hnode
      rcases hnode with (⟨index, hindex, rfl⟩ | hconsumer) | hfinal
      · exact .inl ⟨index, hindex, rfl⟩
      · exact .inr (.inl hconsumer)
      · split at hfinal
        · cases hfinal
        · rename_i hobjectlib
          exact .inr (.inr ⟨hobjectlib, List.mem_singleton.mp hfinal⟩)

theorem mem_plannedSources {index : Nat} (hindex : index ∈ plannedSources mode t) :
    index < t.sources.length ∧ requiresCompile (sourceInfo t index) = true := by
  unfold plannedSources at hindex
  split at hindex
  · cases hindex
  · simp only [List.mem_filter, List.mem_range, Bool.and_eq_true] at hindex
    exact ⟨hindex.1, hindex.2.2⟩

theorem PlannedNode.known (hnode : PlannedNode mode g label node) : KnownNode g node := by
  cases hnode with
  | @target t _ ht hmem =>
    have hdeclared := inClosure_mem ht
    rcases mem_plannedNodes hmem with ⟨hrun, rfl⟩ | ⟨hkind, hcases⟩
    · exact .run hdeclared hrun
    · rcases hcases with ⟨index, hindex, rfl⟩ | hconsumer | ⟨hobjectlib, rfl⟩
      · exact .own hdeclared (nodeOf_compile (mem_plannedSources hindex).1) rfl hkind
          (compileShape_valid t t index index)
      · obtain ⟨listIndex, name, objectlib, index, -, -, -, -, rfl⟩ := mem_consumerNodes hconsumer
        exact .own hdeclared (nodeOf_consumer hconsumer) rfl hkind
          (compileShape_valid t objectlib index _)
      · exact .own hdeclared (.inr ⟨id, .inr rfl⟩) rfl hkind (finalAction_mem hkind hobjectlib)
  | genrule hr hshown => exact .generate hr

/-- A dry run prints the sources that a target compiles for itself. -/
theorem plannedSources_dryRun (t : Target) : plannedSources .dryRun t = ownCompileIndices t := by
  unfold plannedSources ownCompileIndices
  split
  · rfl
  · refine List.filter_congr fun index _ => ?_
    simp [ownCompiled]

/-- `explain` prints more of them where there are batches. -/
theorem mem_plannedSources_explain {index : Nat} :
    index ∈ ownCompileIndices t ↔
      index ∈ plannedSources .explain t ∧ emitsObject t index = true := by
  unfold plannedSources ownCompileIndices
  split
  · simp
  · simp only [List.mem_filter, List.mem_range, ownCompiled, Bool.and_eq_true, decide_true,
      Bool.true_or]
    constructor
    · rintro ⟨hlt, ⟨howned, hemits⟩, hcompile⟩
      exact ⟨⟨hlt, ⟨howned, trivial⟩, hcompile⟩, hemits⟩
    · rintro ⟨⟨hlt, ⟨howned, -⟩, hcompile⟩, hemits⟩
      exact ⟨hlt, ⟨howned, hemits⟩, hcompile⟩

/-- The target an action is for; generated actions are for none. -/
def nodeOwner : ActionNode → Option Target
  | .cxxPch t => some t
  | .compile t _ => some t
  | .consumerCompile t _ _ _ => some t
  | .final t => some t
  | .generate _ => none
  | .run t => some t

theorem nodeOwner_consumer (hnode : node ∈ consumerNodes g t) : nodeOwner node = some t := by
  obtain ⟨listIndex, name, objectlib, index, -, -, -, -, rfl⟩ := mem_consumerNodes hnode
  rfl

theorem nodeOwner_planned (hnode : node ∈ plannedNodes mode g t) : nodeOwner node = some t := by
  rcases mem_plannedNodes hnode with ⟨-, rfl⟩ | ⟨-, ⟨index, -, rfl⟩ | hconsumer | ⟨-, rfl⟩⟩
  · rfl
  · rfl
  · exact nodeOwner_consumer hconsumer
  · rfl

theorem nodeOwner_process (hnode : node ∈ processNodes g t) : nodeOwner node = some t := by
  rcases processNodes_own hnode with ⟨-, rfl⟩ | ⟨-, hown⟩
  · rfl
  · rcases mem_ownNodes hown with ⟨-, rfl⟩ | ⟨index, -, rfl⟩ | hconsumer | ⟨-, rfl⟩
    · rfl
    · rfl
    · exact nodeOwner_consumer hconsumer
    · rfl

theorem runTarget_ne (htool : hasNoToolchain t = false) : t.kind ≠ .runTarget := by
  intro hrun
  simp [hasNoToolchain, hrun] at htool

theorem compile_mem_ownNodes {index : Nat} :
    .compile t index ∈ ownNodes g t ↔ index ∈ ownCompileIndices t := by
  constructor
  · intro hnode
    rcases mem_ownNodes hnode with ⟨-, hpch⟩ | ⟨i, hi, heq⟩ | hconsumer | ⟨-, hfinal⟩
    · cases hpch
    · cases heq
      exact hi
    · obtain ⟨listIndex, name, objectlib, i, -, -, -, -, heq⟩ := mem_consumerNodes hconsumer
      cases heq
    · cases hfinal
  · intro hindex
    simp only [ownNodes, List.mem_append, List.mem_map]
    exact .inl (.inl (.inr ⟨index, hindex, rfl⟩))

theorem compile_mem_plannedNodes {index : Nat} (hnode : .compile t index ∈ plannedNodes mode g t) :
    hasNoToolchain t = false ∧ index ∈ plannedSources mode t := by
  rcases mem_plannedNodes hnode with ⟨-, hrun⟩ | ⟨htool, ⟨i, hi, heq⟩ | hconsumer | ⟨-, hfinal⟩⟩
  · cases hrun
  · cases heq
    exact ⟨htool, hi⟩
  · obtain ⟨listIndex, name, objectlib, i, -, -, -, -, heq⟩ := mem_consumerNodes hconsumer
    cases heq
  · cases hfinal

theorem cxxPch_notMem_plannedNodes : .cxxPch t ∉ plannedNodes mode g t := by
  intro hnode
  rcases mem_plannedNodes hnode with ⟨-, hrun⟩ | ⟨-, ⟨i, -, hcompile⟩ | hconsumer | ⟨-, hfinal⟩⟩
  · cases hrun
  · cases hcompile
  · obtain ⟨listIndex, name, objectlib, i, -, -, -, -, heq⟩ := mem_consumerNodes hconsumer
    cases heq
  · cases hfinal

theorem PlannedNode.of_owner (hnode : PlannedNode mode g label node)
    (howner : nodeOwner node = some t) : InClosure g label t ∧ node ∈ plannedNodes mode g t := by
  cases hnode with
  | target ht hmem =>
    cases (nodeOwner_planned hmem).symm.trans howner
    exact ⟨ht, hmem⟩
  | genrule hr hshown => cases howner

theorem ScheduledNode.of_owner (hnode : ScheduledNode g label node)
    (howner : nodeOwner node = some t) :
    Needed g label (.target t) ∧ node ∈ processNodes g t := by
  cases hnode with
  | target ht hmem =>
    cases (nodeOwner_process hmem).symm.trans howner
    exact ⟨ht, hmem⟩
  | genrule hr hneeded => cases howner

theorem PlannedNode.shown {r : Genrule} (hnode : PlannedNode mode g label (.generate r)) :
    r ∈ g.genrules ∧ Shown g label r := by
  cases hnode with
  | target ht hmem => cases nodeOwner_planned hmem
  | genrule hr hshown => exact ⟨hr, hshown⟩

theorem ScheduledNode.needed {r : Genrule} (hnode : ScheduledNode g label (.generate r)) :
    Needed g label (.genrule r) := by
  cases hnode with
  | target ht hmem => cases nodeOwner_process hmem
  | genrule hr hneeded => exact hneeded

end Nodes

/-! ## Printed commands -/

/-- The command that is printed for a node. -/
def DumpedAs (mode : PlanMode) (g : Graph) (c : CommandArgv) : ActionNode → Prop
  | .cxxPch _ => False
  | .compile t index =>
    c = dumpCompileArgv g (resolveToolchain g t) (plannedSource mode g t index)
  | .consumerCompile t objectlib index actionIndex =>
    dumpConsumerCompile g t objectlib index actionIndex = .ok c
  | .final t => dumpLoweredFinalArgv g (resolveToolchain g t) t = .ok c
  | .generate r => ∃ target, c = dumpGenruleArgv g target r
  | .run t => c = dumpRunArgv g t

section Printed

variable {mode : PlanMode} {g : Graph} {label : Option Bytes} {t : Target} {c : CommandArgv}
  {printed : List CommandArgv}

theorem mem_dumpConsumerObjectlibs (hdump : dumpConsumerObjectlibs g t = .ok printed) :
    c ∈ printed ↔ ∃ node ∈ consumerNodes g t, DumpedAs mode g c node := by
  obtain ⟨commands, hcommands, hdump⟩ := bind_eq_ok.mp hdump
  cases hdump
  constructor
  · intro hc
    obtain ⟨library, hlibrary, hc⟩ := List.mem_flatten.mp hc
    obtain ⟨⟨name, listIndex⟩, hname, hlibrary⟩ := mapM_eq_ok_mem hcommands library hlibrary
    replace hlibrary : dumpObjectlib g t listIndex name = .ok library := hlibrary
    unfold dumpObjectlib at hlibrary
    cases hfind : findTarget g name with
    | none =>
      rw [hfind] at hlibrary
      cases hlibrary
      cases hc
    | some objectlib =>
      rw [hfind] at hlibrary
      dsimp only at hlibrary
      by_cases hcontext : usesConsumerContext objectlib = true
      · rw [if_pos hcontext] at hlibrary
        obtain ⟨index, hindex, hcompile⟩ := mapM_eq_ok_mem hlibrary c hc
        rw [List.mem_filter, List.mem_range] at hindex
        exact ⟨_, mem_consumerNodes_iff.mpr ⟨listIndex, name, objectlib, index,
          List.mk_mem_zipIdx_iff_getElem?.mp hname, hfind, hcontext, hindex.1, hindex.2, rfl⟩,
          hcompile⟩
      · rw [if_neg hcontext] at hlibrary
        cases hlibrary
        cases hc
  · rintro ⟨node, hnode, hc⟩
    obtain ⟨listIndex, name, objectlib, index, hname, hfind, hcontext, hlt, hcompile, rfl⟩ :=
      mem_consumerNodes_iff.mp hnode
    obtain ⟨library, hlibrary, hdumped⟩ :=
      mapM_eq_ok_of_mem hcommands (List.mk_mem_zipIdx_iff_getElem?.mpr hname)
    simp only [dumpObjectlib, hfind, hcontext, if_true] at hdumped
    obtain ⟨c', hc', hsame⟩ := mapM_eq_ok_of_mem hdumped
      (List.mem_filter.mpr ⟨List.mem_range.mpr hlt, hcompile⟩)
    cases hsame.symm.trans hc
    exact List.mem_flatten.mpr ⟨library, hlibrary, hc'⟩

theorem mem_dumpFinal {tc : Toolchain} (hdump : dumpFinal g tc t = .ok printed) :
    c ∈ printed ↔ t.kind ≠ .objectlib ∧ dumpLoweredFinalArgv g tc t = .ok c := by
  unfold dumpFinal at hdump
  split at hdump
  · rename_i hobjectlib
    cases hdump
    simp [hobjectlib]
  · rename_i hobjectlib
    obtain ⟨artifact, -, hdump⟩ := bind_eq_ok.mp hdump
    obtain ⟨command, hcommand, hdump⟩ := bind_eq_ok.mp hdump
    cases hdump
    rw [List.mem_singleton]
    constructor
    · rintro rfl
      exact ⟨hobjectlib, hcommand⟩
    · rintro ⟨-, hc⟩
      cases hc.symm.trans hcommand
      rfl

/-- What is printed for a target: its generated actions and the commands of its nodes. -/
theorem mem_dumpTarget (hdump : dumpTarget mode g t = .ok printed) :
    c ∈ printed ↔
      (∃ r ∈ g.genrules, genruleReferencedByTarget r t = true ∧ c = dumpGenruleArgv g (some t) r) ∨
        ∃ node ∈ plannedNodes mode g t, DumpedAs mode g c node := by
  have hconsumed : c ∈ dumpConsumedGenrules g t ↔ ∃ r ∈ g.genrules,
      genruleReferencedByTarget r t = true ∧ c = dumpGenruleArgv g (some t) r := by
    simp only [dumpConsumedGenrules, List.mem_map, List.mem_filter]
    constructor
    · rintro ⟨r, ⟨hr, hreferenced⟩, rfl⟩
      exact ⟨r, hr, hreferenced, rfl⟩
    · rintro ⟨r, hr, hreferenced, rfl⟩
      exact ⟨r, ⟨hr, hreferenced⟩, rfl⟩
  rw [← hconsumed]
  unfold dumpTarget at hdump
  unfold plannedNodes
  by_cases hrun : t.kind = .runTarget
  · rw [if_pos hrun] at hdump ⊢
    cases mode with
    | explain =>
      cases hdump
      simp [DumpedAs]
    | dryRun =>
      cases hdump
      simp [DumpedAs, or_comm]
  · rw [if_neg hrun] at hdump ⊢
    by_cases htool : hasNoToolchain t = true
    · rw [if_pos htool] at hdump ⊢
      cases hdump
      simp
    · rw [if_neg htool] at hdump ⊢
      obtain ⟨-, -, hdump⟩ := bind_eq_ok.mp hdump
      obtain ⟨consumer, hconsumer, hdump⟩ := bind_eq_ok.mp hdump
      obtain ⟨final, hfinal, hdump⟩ := bind_eq_ok.mp hdump
      cases hdump
      have hfinals : (∃ node ∈ (if t.kind = .objectlib then [] else [ActionNode.final t]),
          DumpedAs mode g c node) ↔ c ∈ final := by
        rw [mem_dumpFinal hfinal]
        split
        · rename_i hobjectlib
          simp [hobjectlib]
        · rename_i hobjectlib
          simp [hobjectlib, DumpedAs]
      have hown : (∃ node ∈ (plannedSources mode t).map (ActionNode.compile t),
          DumpedAs mode g c node) ↔ c ∈ (plannedSources mode t).map fun index =>
            dumpCompileArgv g (resolveToolchain g t) (plannedSource mode g t index) := by
        simp [DumpedAs, eq_comm]
      have hlibraries : (∃ node ∈ consumerNodes g t, DumpedAs mode g c node) ↔ c ∈ consumer :=
        (mem_dumpConsumerObjectlibs hconsumer).symm
      simp only [List.mem_append, or_and_right, exists_or, hfinals, hown, hlibraries, or_assoc]

/-- Where a target is printed, each of its nodes is. -/
theorem dumpedAs_of_mem (hdump : dumpTarget mode g t = .ok printed) {node : ActionNode}
    (hnode : node ∈ plannedNodes mode g t) : ∃ c, DumpedAs mode g c node := by
  rcases mem_plannedNodes hnode with ⟨-, rfl⟩ | ⟨hkind, hcases⟩
  · exact ⟨_, rfl⟩
  · rcases hcases with ⟨index, -, rfl⟩ | hother
    · exact ⟨_, rfl⟩
    · unfold dumpTarget at hdump
      have hrun : t.kind ≠ .runTarget := by
        intro hrun
        simp [hasNoToolchain, hrun] at hkind
      rw [if_neg hrun, hkind] at hdump
      obtain ⟨-, -, hdump⟩ := bind_eq_ok.mp hdump
      obtain ⟨consumer, hconsumer, hdump⟩ := bind_eq_ok.mp hdump
      obtain ⟨final, hfinal, -⟩ := bind_eq_ok.mp hdump
      rcases hother with hmem | ⟨hobjectlib, rfl⟩
      · obtain ⟨listIndex, name, objectlib, index, hname, hfind, hcontext, hlt, hcompile, rfl⟩ :=
          mem_consumerNodes_iff.mp hmem
        obtain ⟨commands, hcommands, -⟩ := bind_eq_ok.mp hconsumer
        obtain ⟨library, -, hdumped⟩ :=
          mapM_eq_ok_of_mem hcommands (List.mk_mem_zipIdx_iff_getElem?.mpr hname)
        simp only [dumpObjectlib, hfind, hcontext, if_true] at hdumped
        obtain ⟨c, -, hc⟩ := mapM_eq_ok_of_mem hdumped
          (List.mem_filter.mpr ⟨List.mem_range.mpr hlt, hcompile⟩)
        exact ⟨c, hc⟩
      · unfold dumpFinal at hfinal
        rw [if_neg hobjectlib] at hfinal
        obtain ⟨artifact, -, hfinal⟩ := bind_eq_ok.mp hfinal
        obtain ⟨c, hc, -⟩ := bind_eq_ok.mp hfinal
        exact ⟨c, hc⟩

/-- What is printed for a label are the commands of the nodes that are planned for it. -/
theorem mem_dumpPlan (hplan : dumpPlan mode g label = .ok printed) :
    (∀ c ∈ printed, ∃ node, PlannedNode mode g label node ∧ DumpedAs mode g c node) ∧
      ∀ node, PlannedNode mode g label node → ∃ c ∈ printed, DumpedAs mode g c node := by
  unfold dumpPlan at hplan
  cases hroot : rootGenrule g label with
  | some r =>
    rw [hroot] at hplan
    cases hplan
    have hnotarget : ∀ t, ¬InClosure g label t := by
      intro t ht
      cases hroot.symm.trans (inClosure_root_none ht)
    constructor
    · intro c hc
      obtain rfl := List.mem_singleton.mp hc
      have hr : r ∈ g.genrules := needed_declared (p := .genrule r) (.of_root (.genrule hroot))
      exact ⟨.generate r, .genrule hr (.inl hroot), none, rfl⟩
    · intro node hnode
      cases hnode with
      | target ht hmem => exact absurd ht (hnotarget _)
      | genrule hr hshown =>
        rcases hshown with hselected | ⟨t, ht, -⟩
        · cases hroot.symm.trans hselected
          exact ⟨_, List.mem_singleton_self _, none, rfl⟩
        · exact absurd ht (hnotarget t)
  | none =>
    rw [hroot] at hplan
    obtain ⟨closure, hclosure, hplan⟩ := bind_eq_ok.mp hplan
    obtain ⟨commands, hcommands, hplan⟩ := bind_eq_ok.mp hplan
    cases hplan
    constructor
    · intro c hc
      obtain ⟨dumped, hdumped, hc⟩ := List.mem_flatten.mp hc
      obtain ⟨t, ht, hdump⟩ := mapM_eq_ok_mem hcommands dumped hdumped
      have hin := (mem_buildClosure hclosure).mp ht
      rcases (mem_dumpTarget hdump).mp hc with ⟨r, hr, hreferenced, rfl⟩ | ⟨node, hnode, hc⟩
      · exact ⟨.generate r, .genrule hr (.inr ⟨t, hin, hreferenced⟩), some t, rfl⟩
      · exact ⟨node, .target hin hnode, hc⟩
    · intro node hnode
      cases hnode with
      | @target t _ hin hmem =>
        obtain ⟨dumped, hdumped, hdump⟩ :=
          mapM_eq_ok_of_mem hcommands ((mem_buildClosure hclosure).mpr hin)
        obtain ⟨c, hc⟩ := dumpedAs_of_mem hdump hmem
        have hmem : c ∈ dumped := (mem_dumpTarget hdump).mpr (.inr ⟨node, hmem, hc⟩)
        exact ⟨c, List.mem_flatten.mpr ⟨dumped, hdumped, hmem⟩, hc⟩
      | @genrule r hr hshown =>
        rcases hshown with hselected | ⟨t, hin, hreferenced⟩
        · cases hroot.symm.trans hselected
        · obtain ⟨dumped, hdumped, hdump⟩ :=
            mapM_eq_ok_of_mem hcommands ((mem_buildClosure hclosure).mpr hin)
          have hc : dumpGenruleArgv g (some t) r ∈ dumped :=
            (mem_dumpTarget hdump).mpr (.inl ⟨r, hr, hreferenced, rfl⟩)
          exact ⟨_, List.mem_flatten.mpr ⟨dumped, hdumped, hc⟩, some t, rfl⟩

end Printed

/-! ## Prepared commands -/

/-- The command that is prepared for a node. -/
inductive PreparedAs (g : Graph) : PreparedCommand → ActionNode → Prop where
  | process {h : Host} {node : ActionNode} {a : LoweredAction} {response : Option ResponseFile}
      (ha : lowerNode h g node = .ok a)
      (hresponse : actionMaterialize g (materializationToolchain g node) a.id a.argv =
        .ok response) : PreparedAs g ⟨a.id, a.argv, argvKey a.argv, response⟩ node
  | configured {r : Genrule} {q : PreparedCommand} (hconfig : r.configHeader = true)
      (hq : configuredCommand g r = .ok q) : PreparedAs g q (.generate r)

section Prepared

variable {h : Host} {g : Graph} {label : Option Bytes} {t : Target} {node : ActionNode}
  {q : PreparedCommand} {prepared : List PreparedCommand} {states : ActionNode → BuildState g}

theorem mapError_eq_ok {α ε ε' : Type} {x : Except ε α} {f : ε → ε'} {a : α} :
    x.mapError f = .ok a ↔ x = .ok a := by
  cases x with
  | error e => simp [Except.mapError]
  | ok b => simp [Except.mapError]

/-- A record of the plan that is found for a node was lowered from it. -/
theorem preparePlanned_lowered {st : BuildState g} (ht : t ∈ g.targets)
    (hkind : hasNoToolchain t = false) (hnode : node ∈ ownNodes g t) {r : Ready}
    (hr : preparePlanned g st node = .ok (some r)) :
    ∃ h a, lowerNode h g node = .ok a ∧ r.action.id = a.id ∧ r.action.argv = a.argv := by
  unfold preparePlanned at hr
  split at hr
  · cases hr
  · rename_i owner kind hplanned
    rw [mapError_eq_ok] at hr
    unfold prepareCachedAction at hr
    split at hr
    · cases hr
    · rename_i c hc
      split at hr
      · cases hr
      · obtain ⟨depInputs, -, hr⟩ := bind_eq_ok.mp hr
        cases hr
        obtain ⟨h₀, closure, hclosure, hplan⟩ := st.planned
        obtain ⟨t', ht', hkind', node', hnode', a, ha, rfl⟩ :=
          mem_plan hplan (List.mem_of_find?_eq_some hc)
        have hfound := List.find?_some hc
        have hid : a.id = nodeId node := of_decide_eq_true hfound
        rw [lowerNode_id ha] at hid
        obtain rfl := nodeId_inj (hclosure t' ht') ht hkind' hkind hnode' hnode hid
        exact ⟨h₀, a, ha, rfl, rfl⟩

theorem prepareFresh_lowered {st : BuildState g} {r : Ready}
    (hr : prepareFresh h g st node = .ok r) :
    ∃ h a, lowerNode h g node = .ok a ∧ r.action.id = a.id ∧ r.action.argv = a.argv := by
  obtain ⟨a, ha, hr⟩ := bind_eq_ok.mp hr
  rw [mapError_eq_ok] at ha hr
  obtain ⟨depInputs, entry, -, rfl⟩ := prepareLowered_ok hr
  exact ⟨h, a, ha, rfl, rfl⟩

theorem prepareProcessNode_lowered {st : BuildState g} (hnode : ScheduledNode g label node)
    {r : Ready} (hr : prepareProcessNode h g st node = .ok r) :
    ∃ h a, lowerNode h g node = .ok a ∧ r.action.id = a.id ∧ r.action.argv = a.argv := by
  obtain ⟨planned, hplanned, hr⟩ := bind_eq_ok.mp hr
  cases planned with
  | none => exact prepareFresh_lowered hr
  | some record =>
    cases hr
    cases hnode with
    | genrule hr hneeded => cases hplanned
    | @target t _ ht hmem =>
      rcases processNodes_own hmem with ⟨-, rfl⟩ | ⟨hkind, hown⟩
      · cases hplanned
      · exact preparePlanned_lowered (needed_declared (p := .target t) ht) hkind hown hplanned

/-- Whichever way a node is prepared, its command is the lowered one. -/
theorem prepareCommand_as (hnode : ScheduledNode g label node)
    (hq : prepareCommand h g states node = .ok q) : PreparedAs g q node := by
  obtain ⟨r, hr, hq⟩ := bind_eq_ok.mp hq
  obtain ⟨response, hresponse, hq⟩ := bind_eq_ok.mp hq
  rw [mapError_eq_ok] at hresponse
  obtain ⟨h₀, a, ha, hid, hargv⟩ := prepareProcessNode_lowered hnode hr
  cases hq
  rw [hid, hargv] at hresponse ⊢
  exact .process ha hresponse

theorem targetNodes_eq {nodes : List ActionNode} (hnodes : targetNodes h g t = .ok nodes) :
    nodes = processNodes g t := by
  unfold targetNodes at hnodes
  unfold processNodes
  by_cases hrun : t.kind = .runTarget
  · rw [if_pos hrun] at hnodes ⊢
    cases hnodes
    rfl
  · rw [if_neg hrun] at hnodes ⊢
    by_cases htool : hasNoToolchain t = true
    · rw [if_pos htool] at hnodes ⊢
      cases hnodes
      rfl
    · rw [if_neg htool] at hnodes ⊢
      obtain ⟨-, -, hnodes⟩ := bind_eq_ok.mp hnodes
      cases hnodes
      rfl

/-- The generated actions that discovery marked. -/
theorem needs_iff {f : Found} (hf : schedulerDiscover g label = .ok f) {r : Genrule}
    (hr : r ∈ g.genrules) : f.needs r = true ↔ Needed g label (.genrule r) := by
  rw [← mem_found_genrules hf]
  constructor
  · exact mem_of_needs (schedulerDiscover_spec hf).1 hr
  · intro hmem
    exact List.any_eq_true.mpr ⟨r, hmem, by simp⟩

theorem mem_scheduledNodes {f : Found} {nodes : List ActionNode}
    (hf : schedulerDiscover g label = .ok f) (hnodes : scheduledNodes h g f = .ok nodes) :
    node ∈ nodes ↔ (∃ t, Needed g label (.target t) ∧ node ∈ processNodes g t) ∨
      ∃ r ∈ g.genrules, Needed g label (.genrule r) ∧ r.configHeader = false ∧
        node = .generate r := by
  obtain ⟨own, hown, hnodes⟩ := bind_eq_ok.mp hnodes
  cases hnodes
  rw [mapM_eq_ok_map (fun t _ nodes hnodes => targetNodes_eq hnodes) hown, List.mem_append]
  refine or_congr ?_ ?_
  · simp only [List.mem_flatten, List.mem_map]
    constructor
    · rintro ⟨nodes, ⟨t, ht, rfl⟩, hnode⟩
      exact ⟨t, (mem_found_targets hf).mp ht, hnode⟩
    · rintro ⟨t, ht, hnode⟩
      exact ⟨_, ⟨t, (mem_found_targets hf).mpr ht, rfl⟩, hnode⟩
  · simp only [List.mem_flatMap, List.mem_filter]
    constructor
    · rintro ⟨r, ⟨hr, hneeds⟩, hnode⟩
      unfold genruleNodes at hnode
      split at hnode
      · cases hnode
      · rename_i hconfig
        exact ⟨r, hr, (needs_iff hf hr).mp hneeds, by simpa using hconfig,
          List.mem_singleton.mp hnode⟩
    · rintro ⟨r, hr, hneeded, hconfig, rfl⟩
      exact ⟨r, ⟨hr, (needs_iff hf hr).mpr hneeded⟩, by simp [genruleNodes, hconfig]⟩

theorem mem_scheduledFiles {f : Found} (hf : schedulerDiscover g label = .ok f) {r : Genrule} :
    r ∈ scheduledFiles g f ↔
      r ∈ g.genrules ∧ Needed g label (.genrule r) ∧ r.configHeader = true := by
  simp only [scheduledFiles, List.mem_filter, Bool.and_eq_true]
  constructor
  · rintro ⟨hr, hneeds, hconfig⟩
    exact ⟨hr, (needs_iff hf hr).mp hneeds, hconfig⟩
  · rintro ⟨hr, hneeded, hconfig⟩
    exact ⟨hr, (needs_iff hf hr).mpr hneeded, hconfig⟩

/-- What a build of a label prepares are the commands of the nodes that are scheduled for it. -/
theorem mem_prepareBuild (hbuild : prepareBuild h g states label = .ok prepared) :
    (∀ q ∈ prepared, ∃ node, ScheduledNode g label node ∧ PreparedAs g q node) ∧
      ∀ node, ScheduledNode g label node → ∃ q ∈ prepared, PreparedAs g q node := by
  obtain ⟨f, hf, hbuild⟩ := bind_eq_ok.mp hbuild
  obtain ⟨nodes, hnodes, hbuild⟩ := bind_eq_ok.mp hbuild
  obtain ⟨processes, hprocesses, hbuild⟩ := bind_eq_ok.mp hbuild
  obtain ⟨files, hfiles, hbuild⟩ := bind_eq_ok.mp hbuild
  rw [mapError_eq_ok] at hf hnodes hfiles
  cases hbuild
  have hscheduled : ∀ node ∈ nodes, ScheduledNode g label node := by
    intro node hnode
    rcases (mem_scheduledNodes hf hnodes).mp hnode with ⟨t, ht, hmem⟩ | ⟨r, hr, hneeded, -, rfl⟩
    · exact .target ht hmem
    · exact .genrule hr hneeded
  constructor
  · intro q hq
    rcases List.mem_append.mp hq with hq | hq
    · obtain ⟨node, hnode, hprepared⟩ := mapM_eq_ok_mem hprocesses q hq
      exact ⟨node, hscheduled node hnode, prepareCommand_as (hscheduled node hnode) hprepared⟩
    · obtain ⟨r, hr, hconfigured⟩ := mapM_eq_ok_mem hfiles q hq
      obtain ⟨hr, hneeded, hconfig⟩ := (mem_scheduledFiles hf).mp hr
      exact ⟨.generate r, .genrule hr hneeded, .configured hconfig hconfigured⟩
  · intro node hnode
    by_cases hmem : node ∈ nodes
    · obtain ⟨q, hq, hprepared⟩ := mapM_eq_ok_of_mem hprocesses hmem
      exact ⟨q, List.mem_append_left _ hq, prepareCommand_as hnode hprepared⟩
    · cases hnode with
      | target ht hown =>
        exact absurd ((mem_scheduledNodes hf hnodes).mpr (.inl ⟨_, ht, hown⟩)) hmem
      | @genrule r hr hneeded =>
        have hconfig : r.configHeader = true := by
          by_contra hconfig
          exact hmem ((mem_scheduledNodes hf hnodes).mpr
            (.inr ⟨r, hr, hneeded, by simpa using hconfig, rfl⟩))
        obtain ⟨q, hq, hconfigured⟩ :=
          mapM_eq_ok_of_mem hfiles ((mem_scheduledFiles hf).mpr ⟨hr, hneeded, hconfig⟩)
        exact ⟨q, List.mem_append_right _ hq, .configured hconfig hconfigured⟩

end Prepared

/-! ## Commands of one node -/

section Commands

variable {mode : PlanMode} {h : Host} {g : Graph} {label : Option Bytes} {t : Target}
  {node : ActionNode} {c : CommandArgv} {q : PreparedCommand}

theorem sourceChecked_own (hchecked : Checked g) (ht : t ∈ g.targets) {index : Nat}
    (hindex : index ∈ plannedSources mode t) : SourceChecked (ownSource t index) where
  owner _ := rfl
  unit unit hunit := hchecked.providers t ht unit (List.mem_of_find?_eq_some hunit)
  compiled := (mem_plannedSources hindex).2

theorem sourceChecked_consumer (hchecked : Checked g) (ht : t ∈ g.targets) {name : Bytes}
    {objectlib : Target} {index actionIndex : Nat} {object : Bytes} (hname : name ∈ t.objects)
    (hfind : findTarget g name = some objectlib)
    (hcompile : requiresCompile (sourceInfo objectlib index) = true) :
    SourceChecked (consumerSource g t objectlib index actionIndex object) where
  owner hsame := absurd hsame (objects_ne_self ht hname hfind)
  unit unit hunit :=
    hchecked.providers objectlib (findTarget_mem hfind) unit (List.mem_of_find?_eq_some hunit)
  compiled := hcompile

/-- Without a unity batch `explain` and `dry-run` print the same for a source. -/
theorem plannedSource_eq {index : Nat}
    (hmode : mode = .explain → leadsBatch t t index = none) :
    plannedSource mode g t index = plannedOf g (ownSource t index) := by
  cases mode with
  | explain =>
    simp only [plannedSource, plannedBatch, plannedOf, CompileSource.input, CompileSource.object,
      ownSource, hmode rfl, Option.getD_none]
  | dryRun =>
    simp only [plannedSource, plannedBatch, plannedOf, CompileSource.input, CompileSource.object,
      ownSource]
    cases leadsBatch t t index with
    | none => rfl
    | some batch => rfl

/-- A source of an object library is printed with the object it is compiled to. -/
theorem dumpConsumerCompile_eq_ok {objectlib : Target} {index actionIndex : Nat}
    (hlabel : objectlib.label ≠ t.label) (hcontext : usesConsumerContext objectlib = true)
    (hc : dumpConsumerCompile g t objectlib index actionIndex = .ok c) :
    ∃ object, objectlibObjectInput g t objectlib index = .ok object ∧
      c = dumpCompileArgv g (resolveToolchain g t)
        (plannedOf g (consumerSource g t objectlib index actionIndex object)) := by
  unfold dumpConsumerCompile at hc
  split at hc
  · cases hc
  · obtain ⟨object, hobject, hc⟩ := bind_eq_ok.mp hc
    cases hc
    refine ⟨object, ?_, ?_⟩
    · unfold planObjectlibObject at hobject
      unfold objectlibObjectInput
      rw [hcontext] at hobject ⊢
      exact hobject
    · simp only [plannedConsumerSource, plannedOf, CompileSource.input, CompileSource.object,
        consumerSource, leadsBatch_consumer hlabel, Option.getD_some]

theorem dumpCompileArgv_id {tc : Toolchain} (s : PlannedSource) :
    (dumpCompileArgv g tc s).id = s.id := by
  unfold dumpCompileArgv
  cases providerSourceUnit s.owner s.index with
  | some unit => rfl
  | none => rfl

/-- A command is printed under the id of its node. -/
theorem dumpedAs_id (hchecked : Checked g) (hnode : PlannedNode mode g label node)
    (hc : DumpedAs mode g c node) : c.id = nodeId node := by
  cases hnode with
  | genrule hr hshown =>
    obtain ⟨target, rfl⟩ := hc
    rfl
  | target ht hmem =>
    rcases mem_plannedNodes hmem with ⟨-, rfl⟩ | ⟨-, hcases⟩
    · cases hc
      rfl
    · rcases hcases with ⟨index, hindex, rfl⟩ | hconsumer | ⟨-, rfl⟩
      · cases hc
        rw [dumpCompileArgv_id]
        exact planned_id (g := g) (sourceChecked_own hchecked (inClosure_mem ht) hindex)
      · obtain ⟨listIndex, name, objectlib, index, hname, hfind, hcontext, -, hcompile, rfl⟩ :=
          mem_consumerNodes_iff.mp hconsumer
        have hmem := List.mem_of_getElem? hname
        obtain ⟨object, -, rfl⟩ := dumpConsumerCompile_eq_ok
          (objects_ne_self (inClosure_mem ht) hmem hfind) hcontext hc
        rw [dumpCompileArgv_id]
        exact planned_id (sourceChecked_consumer hchecked (inClosure_mem ht) hmem hfind hcompile)
      · obtain ⟨a, ha, hc⟩ := bind_eq_ok.mp hc
        obtain ⟨response, -, hc⟩ := bind_eq_ok.mp hc
        cases hc
        exact (lowerFinalAction_as ha).id

theorem preparedAs_id (hq : PreparedAs g q node) : q.id = nodeId node := by
  cases hq with
  | process ha hresponse => exact lowerNode_id ha
  | configured hconfig hq =>
    obtain ⟨-, -, hq⟩ := bind_eq_ok.mp hq
    obtain ⟨argv, -, hq⟩ := bind_eq_ok.mp hq
    obtain ⟨declared, -, hq⟩ := bind_eq_ok.mp hq
    obtain ⟨named, -, hq⟩ := bind_eq_ok.mp hq
    cases hq
    rfl

/-- The line printed for a command without a mistake foretells it. -/
theorem expectedArgv_foretells {tc : Option Toolchain} {a : LoweredAction}
    {response : Option ResponseFile} (hresponse : actionMaterialize g tc a.id a.argv = .ok response) :
    Foretells (expectedArgv g tc a) ⟨a.id, a.argv, argvKey a.argv, response⟩ :=
  ⟨rfl, rfl, rfl, toOption_eq_some.mpr hresponse⟩

/-- What a configured file is printed as is what the build logs for it. -/
theorem configured_foretells (hchecked : Checked g) {r : Genrule} (hr : r ∈ g.genrules)
    (hconfig : r.configHeader = true) (hq : configuredCommand g r = .ok q)
    (target : Option Target) :
    Foretells (dumpGenruleArgv g target r) q ∧
      (dumpGenruleArgv g target r).argc = (dumpGenruleArgv g target r).argv.length := by
  obtain ⟨htool, htoolset⟩ := hchecked.configured r hr hconfig
  obtain ⟨-, -, hq⟩ := bind_eq_ok.mp hq
  obtain ⟨argv, hargv, hq⟩ := bind_eq_ok.mp hq
  obtain ⟨declared, -, hq⟩ := bind_eq_ok.mp hq
  obtain ⟨named, -, hq⟩ := bind_eq_ok.mp hq
  cases hq
  rw [List.mapM_cons] at hargv
  obtain ⟨first, hfirst, hargv⟩ := bind_eq_ok.mp hargv
  obtain ⟨rest, hrest, hargv⟩ := bind_eq_ok.mp hargv
  have hsame : resolveCommandToken g r.tool = .ok r.tool := by
    rw [htool]
    exact Ninja.resolveCommandToken_plain (by decide) (by decide)
  rw [hsame, Except.ok.injEq] at hfirst
  subst hfirst
  cases hargv
  have hwords : (dumpGenruleArgv g target r).argv = r.tool :: rest := by
    simp only [dumpGenruleArgv, commandArgv, planGenruleTool, hconfig, if_true,
      planArgs_eq hchecked hr hrest]
  have hcount : (dumpGenruleArgv g target r).argc = (r.tool :: rest).length := by
    simp only [dumpGenruleArgv, commandArgv, ← planArgs_eq hchecked hr hrest, List.length_cons,
      List.length_map]
    omega
  refine ⟨⟨hwords, hcount, congrArg argvKey hwords, ?_⟩, hcount.trans (by rw [hwords])⟩
  have hresponse : (dumpGenruleArgv g target r).response =
      (actionMaterialize g none (singleActionId r.label (ascii "generate"))
        (dumpGenruleArgv g target r).argv).toOption := by
    simp only [dumpGenruleArgv, commandArgv, commandToolchain, htoolset, dite_true]
  rw [hresponse, hwords]
  simp only [actionMaterialize, List.cons_ne_nil, if_false, Option.filter_none, Option.map_none,
    ite_self]
  rfl

/-- What is printed for a node foretells its action, unless it leads a batch that `explain`
does not look at. -/
theorem dumpedAs_foretells (hchecked : Checked g) (hnode : PlannedNode mode g label node)
    (hmode : mode = .explain → ∀ t index, node = .compile t index → leadsBatch t t index = none)
    (hc : DumpedAs mode g c node) (hq : PreparedAs g q node) :
    Foretells c q ∧ c.argc = c.argv.length := by
  cases hq with
  | @configured r q hconfig hq =>
    obtain ⟨target, rfl⟩ := hc
    exact configured_foretells hchecked hnode.shown.1 hconfig hq target
  | @process h node a response ha hresponse =>
    -- it is enough that the line printed is the one for the lowered action
    suffices hsame : c = expectedArgv g (materializationToolchain g node) a by
      rw [hsame]
      exact ⟨expectedArgv_foretells hresponse, rfl⟩
    cases hnode with
    | genrule hr hshown =>
      obtain ⟨target, rfl⟩ := hc
      exact dumpGenruleArgv_eq hchecked hr ha target
    | target ht hmem =>
      rcases mem_plannedNodes hmem with ⟨-, rfl⟩ | ⟨-, hcases⟩
      · cases hc
        exact dumpRunArgv_eq ha
      · rcases hcases with ⟨index, hindex, rfl⟩ | hconsumer | ⟨-, rfl⟩
        · cases hc
          rw [plannedSource_eq fun hexplain => hmode hexplain _ index rfl]
          exact dumpCompileArgv_eq (sourceChecked_own hchecked (inClosure_mem ht) hindex) ha
        · obtain ⟨listIndex, name, objectlib, index, hname, hfind, hcontext, -, hcompile, rfl⟩ :=
            mem_consumerNodes_iff.mp hconsumer
          have hmem := List.mem_of_getElem? hname
          obtain ⟨object, hobject, rfl⟩ := dumpConsumerCompile_eq_ok
            (objects_ne_self (inClosure_mem ht) hmem hfind) hcontext hc
          obtain ⟨object', hobject', ha⟩ := bind_eq_ok.mp ha
          cases hobject.symm.trans hobject'
          exact dumpCompileArgv_eq
            (sourceChecked_consumer hchecked (inClosure_mem ht) hmem hfind hcompile) ha
        · exact dumpLoweredFinalArgv_eq ha hc

end Commands

/-! ## When a plan predicts the build -/

section Prediction

variable {mode : PlanMode} {h : Host} {g : Graph} {label : Option Bytes} {t : Target}
  {node : ActionNode} {states : ActionNode → BuildState g} {printed : List CommandArgv}
  {prepared : List PreparedCommand}

/-- In a closure without precompiled headers and without batches that the printer misses, a
target is printed with the actions that are scheduled for it. -/
theorem mem_plannedNodes_iff (hunity : mode = .explain → ∀ index ∈ plannedSources .explain t,
      unitySourceInfo t index = none) (hheader : t.cxxPrecompiledHeader = []) :
    node ∈ plannedNodes mode g t ↔ node ∈ processNodes g t := by
  have hsources : plannedSources mode t = ownCompileIndices t ∨
      ∀ index, index ∈ plannedSources mode t ↔ index ∈ ownCompileIndices t := by
    cases mode with
    | dryRun => exact .inl (plannedSources_dryRun t)
    | explain =>
      refine .inr fun index => ?_
      rw [mem_plannedSources_explain]
      constructor
      · intro hindex
        refine ⟨hindex, ?_⟩
        simp only [emitsObject, hunity rfl index hindex]
      · exact And.left
  have hmem : ∀ index, index ∈ plannedSources mode t ↔ index ∈ ownCompileIndices t := by
    rcases hsources with heq | hmem
    · intro index
      rw [heq]
    · exact hmem
  unfold plannedNodes processNodes ownNodes
  split
  · rfl
  · split
    · rfl
    · rw [List.nil_append]
      simp only [List.mem_append, List.mem_map, hmem]

theorem planned_iff_scheduled (hpredictable : Predictable mode g label) :
    PlannedNode mode g label node ↔ ScheduledNode g label node := by
  have hiff : ∀ t, InClosure g label t →
      (node ∈ plannedNodes mode g t ↔ node ∈ processNodes g t) := by
    intro t ht
    by_cases htool : hasNoToolchain t = true
    · unfold plannedNodes processNodes
      rw [if_pos htool, if_pos htool]
    · have htool : hasNoToolchain t = false := by simpa using htool
      exact mem_plannedNodes_iff (fun hmode => hpredictable.unity hmode t ht htool)
        (hpredictable.header t ht htool)
  constructor
  · rintro (⟨ht, hmem⟩ | ⟨hr, hshown⟩)
    · exact .target (inClosure_needed ht) ((hiff _ ht).mp hmem)
    · exact .genrule hr ((hpredictable.generated _ hr).mp hshown)
  · intro hnode
    cases hnode with
    | @target t _ ht hmem =>
      by_cases hin : InClosure g label t
      · exact .target hin ((hiff t hin).mpr hmem)
      · rw [hpredictable.targets t ht hin] at hmem
        cases hmem
    | genrule hr hneeded => exact .genrule hr ((hpredictable.generated _ hr).mpr hneeded)

/-- What is planned and scheduled alike tells what the plan misses. -/
theorem predictable_of_same
    (hsame : ∀ node, PlannedNode mode g label node ↔ ScheduledNode g label node)
    (hleads : mode = .explain → ∀ t index, PlannedNode mode g label (.compile t index) →
      leadsBatch t t index = none) : Predictable mode g label where
  unity := by
    rintro rfl t ht htool index hindex
    have hmem : .compile t index ∈ plannedNodes .explain g t := by
      unfold plannedNodes
      rw [if_neg (runTarget_ne htool), htool]
      exact List.mem_append_left _ (List.mem_append_left _ (List.mem_map.mpr ⟨index, hindex, rfl⟩))
    have hplanned : PlannedNode .explain g label (.compile t index) := .target ht hmem
    cases hinfo : unitySourceInfo t index with
    | none => rfl
    | some info =>
      obtain ⟨batch, leader⟩ := info
      cases leader with
      | true =>
        have hlead := leadsBatch_own.mpr hinfo
        rw [hleads rfl t index hplanned] at hlead
        cases hlead
      | false =>
        -- a source that another one leads is not compiled on its own
        have hprocess := ((hsame _).mp hplanned).of_owner rfl
        have hcompiled : index ∈ ownCompileIndices t := by
          rcases processNodes_own hprocess.2 with ⟨-, hrun⟩ | ⟨-, hown⟩
          · cases hrun
          · exact compile_mem_ownNodes.mp hown
        have hemits := (mem_plannedSources_explain.mp hcompiled).2
        simp [emitsObject, hinfo] at hemits
  header := by
    intro t ht htool
    by_contra hheader
    have hmem : .cxxPch t ∈ processNodes g t := by
      unfold processNodes ownNodes
      rw [if_neg (runTarget_ne htool), htool, if_neg hheader]
      simp
    have hplanned := (hsame _).mpr (.target (inClosure_needed ht) hmem)
    exact cxxPch_notMem_plannedNodes (hplanned.of_owner rfl).2
  generated := by
    intro r hr
    constructor
    · intro hshown
      exact ((hsame _).mp (.genrule hr hshown)).needed
    · intro hneeded
      exact ((hsame _).mpr (.genrule hr hneeded)).shown.2
  targets := by
    intro t ht hin
    by_contra hne
    obtain ⟨node, hnode⟩ := List.exists_mem_of_ne_nil _ hne
    have hplanned := (hsame node).mpr (.target ht hnode)
    exact hin (hplanned.of_owner (nodeOwner_process hnode)).1

/-- A plan predicts the build of a label if and only if it knows of all that the build does. -/
theorem plan_predicts_iff (hchecked : Checked g) (hplan : dumpPlan mode g label = .ok printed)
    (hbuild : prepareBuild h g states label = .ok prepared) :
    Predicts printed prepared ↔ Predictable mode g label := by
  obtain ⟨hdumped, hdump⟩ := mem_dumpPlan hplan
  obtain ⟨hprepared, hprepare⟩ := mem_prepareBuild hbuild
  constructor
  · intro hpredicts
    refine predictable_of_same ?_ ?_
    · intro node
      constructor
      · intro hnode
        obtain ⟨c, hc, hdumpedAs⟩ := hdump node hnode
        obtain ⟨q, hq, hid⟩ := (hpredicts.ids c.id).mp ⟨c, hc, rfl⟩
        obtain ⟨node', hnode', hpreparedAs⟩ := hprepared q hq
        rw [preparedAs_id hpreparedAs, dumpedAs_id hchecked hnode hdumpedAs] at hid
        rwa [hnode.known.inj hnode'.known hid.symm]
      · intro hnode
        obtain ⟨q, hq, hpreparedAs⟩ := hprepare node hnode
        obtain ⟨c, hc, hid⟩ := (hpredicts.ids q.id).mpr ⟨q, hq, rfl⟩
        obtain ⟨node', hnode', hdumpedAs⟩ := hdumped c hc
        rw [preparedAs_id hpreparedAs, dumpedAs_id hchecked hnode' hdumpedAs] at hid
        rwa [hnode.known.inj hnode'.known hid.symm]
    · rintro rfl t index hnode
      by_contra hlead
      obtain ⟨batch, hlead⟩ := Option.ne_none_iff_exists'.mp hlead
      obtain ⟨c, hc, hdumpedAs⟩ := hdump _ hnode
      obtain ⟨q, hq, hid⟩ := (hpredicts.ids c.id).mp ⟨c, hc, rfl⟩
      obtain ⟨node', hnode', hpreparedAs⟩ := hprepared q hq
      have hforetells := hpredicts.commands c hc q hq hid.symm
      rw [preparedAs_id hpreparedAs, dumpedAs_id hchecked hnode hdumpedAs] at hid
      obtain rfl := hnode.known.inj hnode'.known hid.symm
      obtain ⟨ht, hmem⟩ := hnode.of_owner rfl
      have hsource := sourceChecked_own hchecked (inClosure_mem ht)
        (compile_mem_plannedNodes hmem).2
      cases hpreparedAs with
      | process ha hresponse =>
        cases hdumpedAs
        exact explain_leader_ne hsource hlead ha hforetells.argv
  · intro hpredictable
    have hsame : ∀ node, PlannedNode mode g label node ↔ ScheduledNode g label node :=
      fun node => planned_iff_scheduled hpredictable
    have hleads : mode = .explain → ∀ t index, PlannedNode mode g label (.compile t index) →
        leadsBatch t t index = none := by
      intro hmode t index hnode
      subst hmode
      obtain ⟨ht, hmem⟩ := hnode.of_owner rfl
      obtain ⟨htool, hindex⟩ := compile_mem_plannedNodes hmem
      have hinfo := hpredictable.unity rfl t ht htool index hindex
      simp [leadsBatch, hinfo]
    have hforetells : ∀ c ∈ printed, ∀ q ∈ prepared, c.id = q.id →
        Foretells c q ∧ c.argc = c.argv.length := by
      intro c hc q hq hid
      obtain ⟨node, hnode, hdumpedAs⟩ := hdumped c hc
      obtain ⟨node', hnode', hpreparedAs⟩ := hprepared q hq
      rw [preparedAs_id hpreparedAs, dumpedAs_id hchecked hnode hdumpedAs] at hid
      obtain rfl := hnode.known.inj hnode'.known hid
      exact dumpedAs_foretells hchecked hnode
        (fun hmode t index heq => hleads hmode t index (heq ▸ hnode)) hdumpedAs hpreparedAs
    have hids : ∀ id, (∃ c ∈ printed, c.id = id) ↔ ∃ q ∈ prepared, q.id = id := by
      intro id
      constructor
      · rintro ⟨c, hc, rfl⟩
        obtain ⟨node, hnode, hdumpedAs⟩ := hdumped c hc
        obtain ⟨q, hq, hpreparedAs⟩ := hprepare node ((hsame node).mp hnode)
        exact ⟨q, hq, by rw [preparedAs_id hpreparedAs, dumpedAs_id hchecked hnode hdumpedAs]⟩
      · rintro ⟨q, hq, rfl⟩
        obtain ⟨node, hnode, hpreparedAs⟩ := hprepared q hq
        obtain ⟨c, hc, hdumpedAs⟩ := hdump node ((hsame node).mpr hnode)
        exact ⟨c, hc, by
          rw [preparedAs_id hpreparedAs, dumpedAs_id hchecked ((hsame node).mpr hnode) hdumpedAs]⟩
    refine ⟨hids, fun c hc q hq hid => (hforetells c hc q hq hid).1, fun c hc => ?_⟩
    obtain ⟨q, hq, hid⟩ := (hids c.id).mp ⟨c, hc, rfl⟩
    exact (hforetells c hc q hq hid.symm).2

end Prediction

/-! ## A unity batch -/

/-- A program of two C++ sources that are compiled as one. -/
def unityProgram : Target where
  label := ascii "//:app"
  name := ascii "app"
  kind := .exe
  sources := [ascii "a.cpp", ascii "b.cpp"]
  cxxUnityEnabled := true
  label_ne := app_label_ne
  sources_lt := by decide

def unityGraph : Graph where
  host := ascii "linux"
  platform := ascii "linux"
  buildDir := ascii "build"
  targets := [unityProgram]
  genrules := []
  stages := []
  toolsets := []
  languages := []
  labels_nodup := by decide
  objectlib_objects := by decide
  objects_objectlib := by decide

/-- A process environment in which every tool is found. -/
def toolHost : Host :=
  ⟨fun name => if name = ascii "PATH" then some (ascii "/usr/bin") else none, fun _ => true⟩

/-- Before the first build. -/
def cleanState : BuildState unityGraph where
  disk := fun _ => none
  now := 0
  deps := []
  plan := []
  planned := ⟨toolHost, [], by simp, rfl⟩

theorem unityGraph_checked : Checked unityGraph where
  paths := ⟨by decide, by simp [unityGraph, unityProgram], by simp [unityGraph, unityProgram],
    by simp [unityGraph, unityProgram]⟩
  arguments := by simp [unityGraph]
  providers := by simp [unityGraph, unityProgram]
  configured := by simp [unityGraph]

theorem unityProgram_inClosure : InClosure unityGraph (some unityProgram.label) unityProgram :=
  .of_root ⟨[unityProgram], rfl, by simp⟩

theorem unityGraph_predictable : Predictable .dryRun unityGraph (some unityProgram.label) where
  unity := by simp
  header := by
    intro t ht _
    obtain rfl := List.mem_singleton.mp (inClosure_mem ht)
    rfl
  generated := by simp [unityGraph]
  targets := by
    intro t ht hin
    obtain rfl := List.mem_singleton.mp (show t ∈ [unityProgram] from needed_declared ht)
    exact absurd unityProgram_inClosure hin

theorem dry_run_predicts_unity : ∃ printed prepared,
    dumpPlan .dryRun unityGraph (some unityProgram.label) = .ok printed ∧
      prepareBuild toolHost unityGraph (fun _ => cleanState) (some unityProgram.label) =
        .ok prepared ∧ Predicts printed prepared := by
  obtain ⟨printed, hplan⟩ := exists_eq_ok
    (x := dumpPlan .dryRun unityGraph (some unityProgram.label)) (by decide)
  obtain ⟨prepared, hbuild⟩ := exists_eq_ok
    (x := prepareBuild toolHost unityGraph (fun _ => cleanState) (some unityProgram.label))
    (by decide)
  exact ⟨printed, prepared, hplan, hbuild,
    (plan_predicts_iff unityGraph_checked hplan hbuild).mpr unityGraph_predictable⟩

/-- `explain` prints a compile of `b.cpp`, which no build starts. -/
theorem explain_misses_unity : ∃ printed prepared,
    dumpPlan .explain unityGraph (some unityProgram.label) = .ok printed ∧
      prepareBuild toolHost unityGraph (fun _ => cleanState) (some unityProgram.label) =
        .ok prepared ∧
      ascii "//:app:compile:1" ∈ printed.map CommandArgv.id ∧
      ascii "//:app:compile:1" ∉ prepared.map PreparedCommand.id ∧
      ¬Predicts printed prepared := by
  obtain ⟨printed, hplan⟩ := exists_eq_ok
    (x := dumpPlan .explain unityGraph (some unityProgram.label)) (by decide)
  obtain ⟨prepared, hbuild⟩ := exists_eq_ok
    (x := prepareBuild toolHost unityGraph (fun _ => cleanState) (some unityProgram.label))
    (by decide)
  have hprinted : ascii "//:app:compile:1" ∈ printed.map CommandArgv.id := by
    have hids : ((dumpPlan .explain unityGraph (some unityProgram.label)).toOption.map
        (List.map CommandArgv.id)).any (ascii "//:app:compile:1" ∈ ·) = true := by decide
    rw [hplan] at hids
    exact of_decide_eq_true hids
  have hprepared : ascii "//:app:compile:1" ∉ prepared.map PreparedCommand.id := by
    have hids : ((prepareBuild toolHost unityGraph (fun _ => cleanState)
        (some unityProgram.label)).toOption.map
        (List.map PreparedCommand.id)).any (ascii "//:app:compile:1" ∈ ·) = false := by
      decide
    rw [hbuild] at hids
    exact of_decide_eq_false hids
  refine ⟨printed, prepared, hplan, hbuild, hprinted, hprepared, ?_⟩
  intro hpredicts
  obtain ⟨c, hc, hid⟩ := List.mem_map.mp hprinted
  obtain ⟨q, hq, hsame⟩ := (hpredicts.ids (ascii "//:app:compile:1")).mp ⟨c, hc, hid⟩
  exact hprepared (List.mem_map.mpr ⟨q, hq, hsame⟩)

end QStar.Explain
