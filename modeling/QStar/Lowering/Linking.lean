import Mathlib.Data.List.Nodup
import QStar.Lowering.Objects

/-!
# What a final action links

The objects in the command of a final action against the raw link objects among the
sources and the compile actions a schedule holds for the target and its object libraries.
-/
namespace QStar.Lowering.Linking

open QStar.Lib.CStrings
open QStar.Lib.Results
open QStar.Base
open QStar.BuildGraph

/-- What evaluation and validation make sure of. -/
structure Validated (g : Graph) : Prop where
  /-- `validate_object_consumers` -/
  objects_nodup : ∀ t ∈ g.targets, t.objects.Nodup
  /-- No other kind has the field `compile_context`. -/
  consumer_objectlib : ∀ t ∈ g.targets, usesConsumerContext t = true → t.kind = .objectlib
  /-- `provider_final_kind_for_target` -/
  objectlib_final : ∀ t ∈ g.targets, t.kind = .objectlib → t.providerFinal = none

/-- The nodes a schedule of a target holds for its own sources and for the libraries that
are compiled in their own context. The closure of a target visits its libraries first. -/
inductive ScheduledFor (h : Host) (g : Graph) (t : Target) : ActionNode → Prop where
  | own {nodes : List ActionNode} {node : ActionNode} (hnodes : targetNodes h g t = .ok nodes)
      (hnode : node ∈ nodes) : ScheduledFor h g t node
  | library {o : Target} {nodes : List ActionNode} {node : ActionNode} (ho : o ∈ libraries g t)
      (hcontext : usesConsumerContext o = false) (hnodes : targetNodes h g o = .ok nodes)
      (hnode : node ∈ nodes) : ScheduledFor h g t node

/-- The object a compile node produces; other nodes produce none. -/
def nodeObject (g : Graph) : ActionNode → Option Bytes
  | .compile t index => some ((ownSource t index).object g)
  | .consumerCompile t objectlib index actionIndex =>
    (objectlibObjectInput g t objectlib index).toOption.map fun object =>
      (consumerSource g t objectlib index actionIndex object).object g
  | _ => none

/-- The raw link objects among the sources of a target and of its object libraries. -/
def RawObject (g : Graph) (t : Target) (path : Bytes) : Prop :=
  ∃ o ∈ t :: libraries g t, ∃ index < o.sources.length,
    isLinkObject (sourceInfo o index) = true ∧ o.sources.getD index [] = path

/-- The objects of the compile actions scheduled for a target. -/
def ScheduledObject (h : Host) (g : Graph) (t : Target) (path : Bytes) : Prop :=
  ∃ node, ScheduledFor h g t node ∧ nodeObject g node = some path

/-- The words of a final action before and after its objects. -/
def FinalWords (g : Graph) (t : Target) (head tail : List Bytes) : Prop :=
  ∃ artifact, artifactOutputPath g t = .ok artifact ∧
    finalHead g (resolveToolchain g t) t artifact = .ok head ∧
    finalTail g (resolveToolchain g t) t artifact = .ok tail

/-- The objects in the command are those of the raw link objects and of the scheduled
compiles, each once, and they are inputs. -/
def ConsumesOnce (h : Host) (g : Graph) (t : Target) (a : LoweredAction) : Prop :=
  ∃ head objects tail, FinalWords g t head tail ∧ a.argv = head ++ objects ++ tail ∧
    objects.Nodup ∧ (∀ path, path ∈ objects ↔ RawObject g t path ∨ ScheduledObject h g t path) ∧
    objects ⊆ a.inputs

/-- The nodes of a target and of its object libraries were created, so their checks passed. -/
def Created (h : Host) (g : Graph) (t : Target) : Prop :=
  ∀ o ∈ t :: libraries g t, ∃ nodes, targetNodes h g o = .ok nodes

/-- The linked sources are named apart. -/
structure NamedApart (g : Graph) (t : Target) : Prop where
  /-- No raw link object is listed by two targets. -/
  raw : ∀ x ∈ linkedSources g t, ∀ y ∈ linkedSources g t, x.raw = true → y.raw = true →
    x.path = y.path → x = y
  /-- No two compiled sources share context, mangled label and number. -/
  compiled : ∀ x ∈ linkedSources g t, ∀ y ∈ linkedSources g t, x.raw = false → y.raw = false →
    x.SharesObject y → x = y
  /-- No raw link object is spelled like the object of a compiled source. -/
  spelled : ∀ x ∈ linkedSources g t, ∀ y ∈ linkedSources g t, x.raw = true → y.raw = false →
    x.path ≠ y.object g t
  /-- No language is called `object`: the sources of its units are linked in place of what
  they compile to, unless another source is linked as that. -/
  language : ∀ x ∈ linkedSources g t, usesConsumerContext x.owner = false → x.raw = true →
    x.compiled = true → ∃ y ∈ linkedSources g t,
      (y.raw = true ∧ y.path = x.object g t) ∨ (y.raw = false ∧ y.SharesObject x)

section Linking

variable {h : Host} {g : Graph} {t o : Target} {tc : Toolchain} {a : LoweredAction}

/-! ## The linked sources -/

theorem mem_libraries (ht : t ∈ g.targets) (ho : o ∈ libraries g t) :
    o ∈ g.targets ∧ o.kind = .objectlib ∧ o.label ∈ t.objects ∧ o.label ≠ t.label := by
  obtain ⟨label, hlabel, hfind⟩ := List.mem_filterMap.mp ho
  obtain rfl := findTarget_label hfind
  obtain ⟨o', hmem, heq, hkind⟩ := g.objects_objectlib t ht o.label hlabel
  obtain rfl := eq_of_label hmem (findTarget_mem hfind) heq
  exact ⟨hmem, hkind, hlabel, objects_ne_self ht hlabel hfind⟩

theorem owners_nodup (hvalid : Validated g) (ht : t ∈ g.targets) :
    (t :: libraries g t).Nodup := by
  refine List.nodup_cons.mpr ⟨fun hself => (mem_libraries ht hself).2.2.2 rfl, ?_⟩
  refine List.Nodup.filterMap ?_ (hvalid.objects_nodup t ht)
  intro label label' o ho ho'
  rw [← findTarget_label ho, ← findTarget_label ho']

theorem mem_linkedSources {s : SourceRef} :
    s ∈ linkedSources g t ↔ s.owner ∈ t :: libraries g t ∧
      s.index < s.owner.sources.length ∧ emitsObject s.owner s.index = true := by
  simp only [linkedSources, emittingSources, List.mem_flatMap, List.mem_map, List.mem_filter,
    List.mem_range]
  constructor
  · rintro ⟨o, ho, index, hindex, rfl⟩
    exact ⟨ho, hindex⟩
  · rintro ⟨ho, hindex⟩
    exact ⟨s.owner, ho, s.index, hindex, rfl⟩

theorem linkedSources_nodup (hvalid : Validated g) (ht : t ∈ g.targets) :
    (linkedSources g t).Nodup := by
  refine List.nodup_flatMap.mpr ⟨?_, ?_⟩
  · intro o ho
    refine List.Nodup.map ?_ ((List.nodup_range).filter _)
    intro i j hij
    cases hij
    rfl
  · refine (owners_nodup hvalid ht).imp ?_
    intro o o' hne s hs hs'
    obtain ⟨i, -, rfl⟩ := List.mem_map.mp hs
    obtain ⟨j, -, hj⟩ := List.mem_map.mp hs'
    exact hne (congrArg SourceRef.owner hj).symm

/-- Raw link objects are in no unity batch. -/
theorem emitsObject_of_raw {index : Nat} (hraw : isLinkObject (sourceInfo o index) = true) :
    emitsObject o index = true := by
  unfold emitsObject
  cases hunity : unitySourceInfo o index with
  | none => rfl
  | some info =>
    have himpl := (unitySourceInfo_eq_some.mp (show _ = some (info.1, info.2) from hunity)).2.1
    unfold isImplementation at himpl
    split at himpl
    · rename_i source hsource
      simp only [isLinkObject, sourceInfo, hsource, Option.getD_some, decide_eq_true_eq] at hraw
      simp only [hraw, Bool.and_eq_true, decide_eq_true_eq] at himpl
      exact absurd himpl.1.2 (by decide)
    · cases himpl

/-- The classification of a source that is compiled or linked did not fail. -/
theorem sourceClassify_of_compiled {index : Nat} (h : requiresCompile (sourceInfo o index) = true) :
    sourceClassify o index = some (sourceInfo o index) := by
  cases hclass : sourceClassify o index with
  | none => simp [sourceInfo, hclass, unknownSource, requiresCompile] at h
  | some source => simp [sourceInfo, hclass]

/-! ## The objects in the command -/

theorem objectlibObjectInput_eq {index : Nat} {path : Bytes}
    (hpath : objectlibObjectInput g t o index = .ok path) :
    path = (SourceRef.mk o index).linked g t := by
  unfold objectlibObjectInput at hpath
  cases hclass : sourceClassify o index with
  | none =>
    rw [hclass] at hpath
    cases hpath
  | some source =>
    simp only [hclass] at hpath
    unfold SourceRef.linked SourceRef.raw SourceRef.path SourceRef.object
    simp only [sourceInfo, hclass, Option.getD_some]
    split at hpath
    · rename_i hraw
      cases hpath
      rw [if_pos hraw]
    · rename_i hraw
      rw [if_neg hraw]
      split at hpath
      · rename_i hconsumer
        cases hpath
        rw [if_pos hconsumer]
      · rename_i hconsumer
        rw [if_neg hconsumer]
        cases hunity : unitySourceInfo o index with
        | none =>
          simp only [hunity] at hpath
          cases hpath
          rfl
        | some info =>
          simp only [hunity] at hpath
          cases hpath
          rfl

/-- A target that compiles for itself names its objects like a library of its own would. -/
theorem sourceObjectInput_eq (hcontext : usesConsumerContext t = false) (index : Nat) :
    sourceObjectInput g t index = objectlibObjectInput g t t index := by
  simp [sourceObjectInput, objectlibObjectInput, hcontext]

theorem ownObjects_eq (hcontext : usesConsumerContext t = false) {own : List Bytes}
    (hown : ownObjects g t = .ok own) :
    own = (emittingSources t).map fun index => (SourceRef.mk t index).linked g t := by
  refine mapM_eq_ok_map ?_ hown
  intro index _ path hpath
  rw [sourceObjectInput_eq hcontext] at hpath
  exact objectlibObjectInput_eq hpath

theorem allObjectlibObjects_eq {library : List Bytes}
    (hlibrary : allObjectlibObjects g t = .ok library) :
    library = (libraries g t).flatMap fun o =>
      (emittingSources o).map fun index => (SourceRef.mk o index).linked g t := by
  obtain ⟨lists, hlists, hlibrary⟩ := bind_eq_ok.mp hlibrary
  cases hlibrary
  show lists.flatten = (t.objects.filterMap (findTarget g)).flatMap _
  generalize t.objects = labels at hlists ⊢
  clear hlibrary
  induction labels generalizing lists with
  | nil =>
    cases hlists
    rfl
  | cons label rest ih =>
    rw [List.mapM_cons, bind_eq_ok] at hlists
    obtain ⟨first, hfirst, hlists⟩ := hlists
    obtain ⟨others, hothers, hlists⟩ := bind_eq_ok.mp hlists
    cases hlists
    unfold objectlibObjects at hfirst
    split at hfirst
    · cases hfirst
    · rename_i o hfind
      rw [List.flatten_cons, ih others hothers, List.filterMap_cons_some hfind, List.flatMap_cons]
      congr 1
      exact mapM_eq_ok_map (fun index _ path => objectlibObjectInput_eq) hfirst

/-- The objects in the command of a final action, between its other words. -/
theorem lowerFinalAction_objects (hfinal : t.providerFinal = none)
    (hcontext : usesConsumerContext t = false)
    (ha : lowerFinalAction g (resolveToolchain g t) t = .ok a) :
    ∃ head tail, FinalWords g t head tail ∧
      a.argv = head ++ (linkedSources g t).map (·.linked g t) ++ tail ∧
      (linkedSources g t).map (·.linked g t) ⊆ a.inputs := by
  unfold lowerFinalAction at ha
  simp only [hfinal, bind_eq_ok, guard_eq_ok] at ha
  obtain ⟨-, artifact, hartifact, head, hhead, own, hown, library, hlibrary, tail, htail, linked,
    hlinked, inputs, hinputs, outputs, -, ha⟩ := ha
  have hobjects : own ++ library = (linkedSources g t).map (·.linked g t) := by
    rw [ownObjects_eq hcontext hown, allObjectlibObjects_eq hlibrary]
    simp [linkedSources, List.map_flatMap, Function.comp_def]
  have hsubset : own ++ library ⊆ inputs := by
    have hfirst : own ++ library ⊆ linked := fun path hpath =>
      subset_foldlM_pushActionInput hlinked (List.mem_append_left _ hpath)
    unfold linkUsageInputs at hinputs
    split at hinputs
    · cases hinputs
      exact hfirst
    · exact fun path hpath => subset_pushDependencyUsageInputs hinputs (hfirst hpath)
  split at ha
  · cases ha
  · cases ha
    refine ⟨head, tail, ⟨artifact, hartifact, hhead, htail⟩, ?_, ?_⟩
    · rw [← hobjects]
      simp
    · rw [← hobjects]
      exact hsubset

/-! ## The objects of the schedule -/

/-- A target that is linked or compiled has all its nodes, and its sources were checked. -/
theorem targetNodes_eq {nodes : List ActionNode} (hkind : hasNoToolchain o = false)
    (hnodes : targetNodes h g o = .ok nodes) :
    nodes = ownNodes g o ∧ validateTarget h g o = .ok () := by
  have hrun : o.kind ≠ .runTarget := by
    intro hrun
    simp [hasNoToolchain, hrun] at hkind
  rw [targetNodes, if_neg hrun, if_neg (by simp [hkind])] at hnodes
  obtain ⟨u, hvalid, hnodes⟩ := bind_eq_ok.mp hnodes
  cases hnodes
  exact ⟨rfl, hvalid⟩

/-- A checked source is compiled or a raw link object. -/
theorem compiled_or_raw (hvalid : validateTarget h g o = .ok ()) {index : Nat}
    (hindex : index < o.sources.length) :
    requiresCompile (sourceInfo o index) = true ∨ isLinkObject (sourceInfo o index) = true := by
  obtain ⟨u, -, hvalid⟩ := bind_eq_ok.mp hvalid
  obtain ⟨u', -, hnoncompile⟩ := bind_eq_ok.mp hvalid
  have hcheck := forM_eq_ok hnoncompile index (List.mem_range.mpr hindex)
  by_cases hkept : (requiresCompile (sourceInfo o index) ||
      isLinkObject (sourceInfo o index)) = true
  · simpa using hkept
  · -- a source that is neither is a header, or of no known language
    simp only [hkept, if_false, Bool.false_eq_true, validateCompileSource] at hcheck
    split at hcheck
    · cases hcheck
    · rename_i hheader
      split at hcheck
      · cases hcheck
      · split at hcheck
        · cases hcheck
        · rename_i hlanguage
          exact absurd (.inr (toolsetRole_of_other (by simpa using hkept) (by simpa using hheader)))
            hlanguage

/-- A consumer-context library that passed the checks has no unity batches. -/
theorem emitsObject_of_consumer (hkind : o.kind = .objectlib)
    (hcontext : usesConsumerContext o = true) (hvalid : validateTarget h g o = .ok ())
    (index : Nat) : emitsObject o index = true := by
  have hstrategies := validateStrategies_of_validateTarget hvalid
  have hunity : o.cxxUnityEnabled = false := by
    unfold validateStrategies at hstrategies
    split at hstrategies
    · rename_i hnone
      exact hnone.2.1
    · split at hstrategies
      · cases hstrategies
      · simp [hkind, hcontext] at hstrategies
  simp [emitsObject, unitySourceInfo, hunity]

/-- A target compiles the sources that emit an object to what it links. -/
theorem ownSource_object {index : Nat} (hcontext : usesConsumerContext o = false)
    (hemits : emitsObject o index = true) :
    (ownSource o index).object g = (SourceRef.mk o index).object g t := by
  unfold CompileSource.object SourceRef.object
  simp only [ownSource, hcontext, Bool.false_eq_true, if_false, Option.getD_none]
  cases hunity : unitySourceInfo o index with
  | none => simp [leadsBatch, hunity]
  | some info =>
    obtain ⟨batch, leader⟩ := info
    simp only [emitsObject, hunity] at hemits
    simp [leadsBatch_own.mpr (hemits ▸ hunity)]

/-- What the compile of a source for its consumer produces is what the consumer links. -/
theorem consumerCompile_object {index actionIndex : Nat} (hlabel : o.label ≠ t.label)
    (hcompiled : requiresCompile (sourceInfo o index) = true) :
    nodeObject g (.consumerCompile t o index actionIndex) =
      some ((SourceRef.mk o index).linked g t) := by
  obtain ⟨path, hpath⟩ : ∃ path, objectlibObjectInput g t o index = .ok path := by
    simp only [objectlibObjectInput, sourceClassify_of_compiled hcompiled]
    split
    · exact ⟨_, rfl⟩
    · split
      · exact ⟨_, rfl⟩
      · split <;> exact ⟨_, rfl⟩
  have hnone := leadsBatch_consumer hlabel index
  simp [nodeObject, hpath, Except.toOption, CompileSource.object, consumerSource, hnone,
    ← objectlibObjectInput_eq hpath]

/-- An action lowered from a compile node has the object of the node as the output of its key. -/
theorem keyOutput_of_nodeObject {node : ActionNode} {path : Bytes}
    (ha : lowerNode h g node = .ok a) (hobject : nodeObject g node = some path) :
    a.keyOutput = path := by
  cases node with
  | compile t index =>
    cases hobject
    exact lowerCompileAction_keyOutput ha
  | consumerCompile t objectlib index actionIndex =>
    obtain ⟨object, hinput, ha⟩ := bind_eq_ok.mp ha
    simp only [nodeObject, hinput, Except.toOption, Option.map_some, Option.some.injEq] at hobject
    rw [lowerCompileAction_keyOutput ha, hobject]
  | cxxPch t => cases hobject
  | final t => cases hobject
  | generate r => cases hobject
  | run t => cases hobject

/-- What the compile of a source that `t` links something of produces. -/
def compiledObject (g : Graph) (t : Target) (s : SourceRef) : Bytes :=
  if usesConsumerContext s.owner then s.linked g t else s.object g t

theorem hasNoToolchain_of_objectlib (hkind : o.kind = .objectlib) : hasNoToolchain o = false := by
  simp [hasNoToolchain, hkind]

/-- The compiles among the nodes of a target that compiles for itself. -/
theorem compile_mem_ownNodes {index : Nat} (hfinal : o.providerFinal = none)
    (hcontext : usesConsumerContext o = false) :
    .compile o index ∈ ownNodes g o ↔ index < o.sources.length ∧ emitsObject o index = true ∧
      requiresCompile (sourceInfo o index) = true := by
  have hindices : index ∈ ownCompileIndices o ↔ index < o.sources.length ∧
      emitsObject o index = true ∧ requiresCompile (sourceInfo o index) = true := by
    simp [ownCompileIndices, hcontext, ownCompiled, providerFinalOwnsSource, hfinal]
  rw [← hindices]
  constructor
  · intro hmem
    rcases mem_ownNodes hmem with ⟨-, hnode⟩ | ⟨index', hindex, hnode⟩ | hconsumer | ⟨-, hnode⟩
    · cases hnode
    · cases hnode
      exact hindex
    · obtain ⟨listIndex, label, objectlib, index', -, -, -, -, hnode⟩ := mem_consumerNodes hconsumer
      cases hnode
    · cases hnode
  · intro hindex
    simp [ownNodes, hindex]

/-- The objects of the scheduled compiles are those of the compiled sources, one for each
unity batch. -/
theorem scheduledObject_iff (hvalid : Validated g) (ht : t ∈ g.targets)
    (hfinal : t.providerFinal = none) (hkind : hasNoToolchain t = false)
    (hcontext : usesConsumerContext t = false) (hcreated : Created h g t) (path : Bytes) :
    ScheduledObject h g t path ↔
      ∃ s ∈ linkedSources g t, s.compiled = true ∧ compiledObject g t s = path := by
  constructor
  · rintro ⟨node, hnode, hobject⟩
    -- the nodes of one owner that compile for themselves
    have hown : ∀ o ∈ t :: libraries g t, usesConsumerContext o = false →
        o.providerFinal = none → ∀ index, .compile o index ∈ ownNodes g o →
        nodeObject g (.compile o index) = some path →
        ∃ s ∈ linkedSources g t, s.compiled = true ∧ compiledObject g t s = path := by
      intro o ho hcontext hfinal index hmem hobject
      obtain ⟨hindex, hemits, hcompile⟩ := (compile_mem_ownNodes hfinal hcontext).mp hmem
      refine ⟨⟨o, index⟩, mem_linkedSources.mpr ⟨ho, hindex, hemits⟩, hcompile, ?_⟩
      rw [compiledObject, if_neg (by simp [hcontext]), ← ownSource_object hcontext hemits]
      exact Option.some.inj hobject
    cases hnode with
    | own hnodes hmem =>
      rw [(targetNodes_eq hkind hnodes).1] at hmem
      rcases mem_ownNodes hmem with ⟨-, rfl⟩ | ⟨index, -, rfl⟩ | hconsumer | ⟨-, rfl⟩
      · cases hobject
      · exact hown t List.mem_cons_self hcontext hfinal index hmem hobject
      · obtain ⟨listIndex, label, o, index, hlabel, hfind, hconsumes, hindex, hcompile, rfl⟩ :=
          mem_consumerNodes_iff.mp hconsumer
        have ho : o ∈ libraries g t :=
          List.mem_filterMap.mpr ⟨label, List.mem_of_getElem? hlabel, hfind⟩
        obtain ⟨-, hobjectlib, -, hne⟩ := mem_libraries ht ho
        obtain ⟨nodes', hnodes'⟩ := hcreated o (List.mem_cons_of_mem _ ho)
        have hchecked := (targetNodes_eq (hasNoToolchain_of_objectlib hobjectlib) hnodes').2
        refine ⟨⟨o, index⟩, mem_linkedSources.mpr ⟨List.mem_cons_of_mem _ ho, hindex,
          emitsObject_of_consumer hobjectlib hconsumes hchecked index⟩, hcompile, ?_⟩
        rw [consumerCompile_object hne hcompile] at hobject
        rw [compiledObject, if_pos hconsumes]
        exact Option.some.inj hobject
      · cases hobject
    | @library o nodes _ ho hcontext' hnodes hmem =>
      obtain ⟨hmem', hobjectlib, -, -⟩ := mem_libraries ht ho
      rw [(targetNodes_eq (hasNoToolchain_of_objectlib hobjectlib) hnodes).1] at hmem
      rcases mem_ownNodes hmem with ⟨-, rfl⟩ | ⟨index, -, rfl⟩ | hconsumer | ⟨-, rfl⟩
      · cases hobject
      · exact hown o (List.mem_cons_of_mem _ ho) hcontext'
          (hvalid.objectlib_final o hmem' hobjectlib) index hmem hobject
      · -- an object library consumes none
        obtain ⟨listIndex, label, o', index, hlabel, -⟩ := mem_consumerNodes hconsumer
        simp [g.objectlib_objects o hmem' hobjectlib] at hlabel
      · cases hobject
  · rintro ⟨⟨o, index⟩, hs, hcompile, rfl⟩
    obtain ⟨howner, hindex, hemits⟩ := mem_linkedSources.mp hs
    obtain ⟨nodes, hnodes⟩ := hcreated o howner
    cases hconsumer : usesConsumerContext o with
    | false =>
      have hobject : nodeObject g (.compile o index) = some (compiledObject g t ⟨o, index⟩) := by
        rw [compiledObject, if_neg (by simp [hconsumer])]
        exact congrArg some (ownSource_object hconsumer hemits)
      rcases List.mem_cons.mp howner with rfl | ho
      · refine ⟨_, .own hnodes ?_, hobject⟩
        rw [(targetNodes_eq hkind hnodes).1]
        exact (compile_mem_ownNodes hfinal hcontext).mpr ⟨hindex, hemits, hcompile⟩
      · obtain ⟨hmem', hobjectlib, -, -⟩ := mem_libraries ht ho
        refine ⟨_, .library ho hconsumer hnodes ?_, hobject⟩
        rw [(targetNodes_eq (hasNoToolchain_of_objectlib hobjectlib) hnodes).1]
        exact (compile_mem_ownNodes (hvalid.objectlib_final _ hmem' hobjectlib) hconsumer).mpr
          ⟨hindex, hemits, hcompile⟩
    | true =>
      rcases List.mem_cons.mp howner with rfl | ho
      · rw [hcontext] at hconsumer
        cases hconsumer
      · obtain ⟨-, -, hlabel, hne⟩ := mem_libraries ht ho
        obtain ⟨label, hmem, hfind⟩ := List.mem_filterMap.mp ho
        obtain ⟨listIndex, hlist⟩ := List.mem_iff_getElem?.mp hmem
        obtain ⟨nodes', hnodes'⟩ := hcreated t List.mem_cons_self
        refine ⟨.consumerCompile t o index (consumerCompileIndex g t listIndex index),
          .own hnodes' ?_, ?_⟩
        · rw [(targetNodes_eq hkind hnodes').1]
          have hconsumers := mem_consumerNodes_iff.mpr
            ⟨listIndex, label, o, index, hlist, hfind, hconsumer, hindex, hcompile, rfl⟩
          simp [ownNodes, hconsumers]
        · rw [consumerCompile_object hne hcompile, compiledObject, if_pos hconsumer]

/-! ## Once each -/

theorem rawObject_iff {path : Bytes} :
    RawObject g t path ↔ ∃ s ∈ linkedSources g t, s.raw = true ∧ s.path = path := by
  constructor
  · rintro ⟨o, ho, index, hindex, hraw, hpath⟩
    exact ⟨⟨o, index⟩, mem_linkedSources.mpr ⟨ho, hindex, emitsObject_of_raw hraw⟩, hraw, hpath⟩
  · rintro ⟨s, hs, hraw, hpath⟩
    obtain ⟨howner, hindex, -⟩ := mem_linkedSources.mp hs
    exact ⟨s.owner, howner, s.index, hindex, hraw, hpath⟩

theorem linked_of_raw {s : SourceRef} (hraw : s.raw = true) : s.linked g t = s.path := if_pos hraw

theorem linked_of_compiled {s : SourceRef} (hraw : s.raw = false) :
    s.linked g t = s.object g t := if_neg (by simp [hraw])

theorem finalWords_unique {head head' tail tail' : List Bytes} (hwords : FinalWords g t head tail)
    (hwords' : FinalWords g t head' tail') : head = head' ∧ tail = tail' := by
  obtain ⟨artifact, hartifact, hhead, htail⟩ := hwords
  obtain ⟨artifact', hartifact', hhead', htail'⟩ := hwords'
  rw [hartifact, Except.ok.injEq] at hartifact'
  subst hartifact'
  exact ⟨Except.ok.inj (hhead.symm.trans hhead'), Except.ok.inj (htail.symm.trans htail')⟩

/-- Names apart are names that tell the linked sources apart. -/
theorem NamedApart.linked_inj (hnamed : NamedApart g t) {x y : SourceRef}
    (hx : x ∈ linkedSources g t) (hy : y ∈ linkedSources g t)
    (h : x.linked g t = y.linked g t) : x = y := by
  cases hxraw : x.raw with
  | true =>
    rw [linked_of_raw hxraw] at h
    cases hyraw : y.raw with
    | true =>
      rw [linked_of_raw hyraw] at h
      exact hnamed.raw x hx y hy hxraw hyraw h
    | false =>
      rw [linked_of_compiled hyraw] at h
      exact absurd h (hnamed.spelled x hx y hy hxraw hyraw)
  | false =>
    rw [linked_of_compiled hxraw] at h
    cases hyraw : y.raw with
    | true =>
      rw [linked_of_raw hyraw] at h
      exact absurd h.symm (hnamed.spelled y hy x hx hyraw hxraw)
    | false =>
      rw [linked_of_compiled hyraw] at h
      exact hnamed.compiled x hx y hy hxraw hyraw (object_eq_iff.mp h)

/-- The set of the linked objects is that of the raw and the compiled ones. -/
def Complete (h : Host) (g : Graph) (t : Target) : Prop :=
  ∀ path, path ∈ (linkedSources g t).map (·.linked g t) ↔
    RawObject g t path ∨ ScheduledObject h g t path

/-- Every linked object is a raw one or compiled by the schedule. -/
theorem linked_expected (hscheduled : ∀ path, ScheduledObject h g t path ↔
      ∃ s ∈ linkedSources g t, s.compiled = true ∧ compiledObject g t s = path)
    (hkind : hasNoToolchain t = false) (ht : t ∈ g.targets) (hcreated : Created h g t)
    {s : SourceRef} (hs : s ∈ linkedSources g t) :
    RawObject g t (s.linked g t) ∨ ScheduledObject h g t (s.linked g t) := by
  cases hraw : s.raw with
  | true => exact .inl (rawObject_iff.mpr ⟨s, hs, hraw, (linked_of_raw hraw).symm⟩)
  | false =>
    obtain ⟨howner, hindex, -⟩ := mem_linkedSources.mp hs
    obtain ⟨nodes, hnodes⟩ := hcreated s.owner howner
    have hkind' : hasNoToolchain s.owner = false := by
      rcases List.mem_cons.mp howner with heq | ho
      · rw [heq]
        exact hkind
      · exact hasNoToolchain_of_objectlib (mem_libraries ht ho).2.1
    have hcompiled : s.compiled = true := by
      rcases compiled_or_raw (targetNodes_eq hkind' hnodes).2 hindex with hcompiled | hraw'
      · exact hcompiled
      · exact absurd (hraw.symm.trans hraw') (by decide)
    refine .inr ((hscheduled _).mpr ⟨s, hs, hcompiled, ?_⟩)
    unfold compiledObject
    split
    · rfl
    · exact (linked_of_compiled hraw).symm

/-- What the schedule compiles is linked exactly when languages called `object` do no harm. -/
theorem complete_iff (hscheduled : ∀ path, ScheduledObject h g t path ↔
      ∃ s ∈ linkedSources g t, s.compiled = true ∧ compiledObject g t s = path)
    (hkind : hasNoToolchain t = false) (ht : t ∈ g.targets) (hcreated : Created h g t) :
    Complete h g t ↔ ∀ x ∈ linkedSources g t, usesConsumerContext x.owner = false →
      x.raw = true → x.compiled = true → ∃ y ∈ linkedSources g t,
        (y.raw = true ∧ y.path = x.object g t) ∨ (y.raw = false ∧ y.SharesObject x) := by
  constructor
  · intro hcomplete x hx hcontext hraw hcompiled
    have hlinked := (hcomplete (x.object g t)).mpr (.inr ((hscheduled _).mpr
      ⟨x, hx, hcompiled, if_neg (by simp [hcontext])⟩))
    obtain ⟨y, hy, hsame⟩ := List.mem_map.mp hlinked
    refine ⟨y, hy, ?_⟩
    cases hyraw : y.raw with
    | true => exact .inl ⟨rfl, (linked_of_raw hyraw).symm.trans hsame⟩
    | false => exact .inr ⟨rfl, object_eq_iff.mp ((linked_of_compiled hyraw).symm.trans hsame)⟩
  · intro hlanguage path
    constructor
    · intro hpath
      obtain ⟨s, hs, rfl⟩ := List.mem_map.mp hpath
      exact linked_expected hscheduled hkind ht hcreated hs
    · rintro (hraw | hobject)
      · obtain ⟨s, hs, hsraw, rfl⟩ := rawObject_iff.mp hraw
        exact List.mem_map.mpr ⟨s, hs, linked_of_raw hsraw⟩
      · obtain ⟨s, hs, hcompiled, rfl⟩ := (hscheduled path).mp hobject
        cases hcontext : usesConsumerContext s.owner with
        | true => exact List.mem_map.mpr ⟨s, hs, (if_pos hcontext).symm⟩
        | false =>
          have hcompiles : compiledObject g t s = s.object g t := if_neg (by simp [hcontext])
          rw [hcompiles]
          cases hraw : s.raw with
          | false => exact List.mem_map.mpr ⟨s, hs, linked_of_compiled hraw⟩
          | true =>
            obtain ⟨y, hy, ⟨hyraw, hpath⟩ | ⟨hyraw, hshares⟩⟩ :=
              hlanguage s hs hcontext hraw hcompiled
            · exact List.mem_map.mpr ⟨y, hy, (linked_of_raw hyraw).trans hpath⟩
            · exact List.mem_map.mpr
                ⟨y, hy, (linked_of_compiled hyraw).trans (object_eq_iff.mpr hshares)⟩

/-- A kind that is linked or archived starts a process and compiles for itself. -/
theorem kind_of_lowered (hvalid : Validated g) (ht : t ∈ g.targets)
    (hfinal : t.providerFinal = none) (ha : lowerFinalAction g tc t = .ok a) :
    hasNoToolchain t = false ∧ usesConsumerContext t = false := by
  unfold lowerFinalAction at ha
  simp only [hfinal, bind_eq_ok, guard_eq_ok] at ha
  have hsupported := ha.1
  constructor
  · cases hkind : t.kind <;> simp [locallySupported, hasNoToolchain, hkind] at hsupported ⊢
  · cases hcontext : usesConsumerContext t with
    | false => rfl
    | true =>
      rw [hvalid.consumer_objectlib t ht hcontext] at hsupported
      exact absurd rfl hsupported

theorem consumesOnce_iff_nodup (hvalid : Validated g) (ht : t ∈ g.targets)
    (hfinal : t.providerFinal = none) (ha : lowerFinalAction g (resolveToolchain g t) t = .ok a) :
    ConsumesOnce h g t a ↔
      ((linkedSources g t).map (·.linked g t)).Nodup ∧ Complete h g t := by
  obtain ⟨-, hcontext⟩ := kind_of_lowered hvalid ht hfinal ha
  obtain ⟨head, tail, hwords, hargv, hinputs⟩ := lowerFinalAction_objects hfinal hcontext ha
  constructor
  · rintro ⟨head', objects, tail', hwords', hargv', hnodup, hset, -⟩
    obtain ⟨rfl, rfl⟩ := finalWords_unique hwords hwords'
    rw [hargv, List.append_cancel_right_eq, List.append_cancel_left_eq] at hargv'
    subst hargv'
    exact ⟨hnodup, hset⟩
  · rintro ⟨hnodup, hset⟩
    exact ⟨head, _, tail, hwords, hargv, hnodup, hset, hinputs⟩

/-- A final action consumes each object exactly once if and only if the sources it links are
named apart. -/
theorem final_consumes_once_iff (hvalid : Validated g) (ht : t ∈ g.targets)
    (hfinal : t.providerFinal = none) (hcreated : Created h g t)
    (ha : lowerFinalAction g (resolveToolchain g t) t = .ok a) :
    ConsumesOnce h g t a ↔ NamedApart g t := by
  obtain ⟨hkind, hcontext⟩ := kind_of_lowered hvalid ht hfinal ha
  have hscheduled := scheduledObject_iff hvalid ht hfinal hkind hcontext hcreated
  have hcomplete := complete_iff hscheduled hkind ht hcreated
  rw [consumesOnce_iff_nodup hvalid ht hfinal ha]
  constructor
  · rintro ⟨hnodup, hset⟩
    have hinj := List.inj_on_of_nodup_map hnodup
    refine ⟨?_, ?_, ?_, hcomplete.mp hset⟩
    · intro x hx y hy hxraw hyraw hpath
      refine hinj hx hy ?_
      rw [linked_of_raw hxraw, linked_of_raw hyraw, hpath]
    · intro x hx y hy hxraw hyraw hshares
      refine hinj hx hy ?_
      rw [linked_of_compiled hxraw, linked_of_compiled hyraw, object_eq_iff.mpr hshares]
    · intro x hx y hy hxraw hyraw hpath
      have hsame : x = y := by
        refine hinj hx hy ?_
        rw [linked_of_raw hxraw, linked_of_compiled hyraw, hpath]
      rw [hsame, hyraw] at hxraw
      cases hxraw
  · intro hnamed
    refine ⟨?_, hcomplete.mpr hnamed.language⟩
    exact (linkedSources_nodup hvalid ht).map_on fun x hx y hy => hnamed.linked_inj hx hy

end Linking

/-! ## Two libraries whose labels mangle to one -/

def mathTarget (label : Bytes) (kind : TargetKind) (sources objects : List Bytes)
    (hlabel : label ≠ []) (hsources : sources.length < 2 ^ 64) : Target where
  label := label
  name := ascii "math"
  kind := kind
  sources := sources
  objects := objects
  compileContext := ascii "own"
  label_ne := hlabel
  sources_lt := hsources

theorem dashed_label_ne : ascii "//:fast-math" ≠ [] := by decide

theorem scored_label_ne : ascii "//:fast_math" ≠ [] := by decide

def fastDash : Target :=
  mathTarget (ascii "//:fast-math") .objectlib [ascii "a.c"] [] dashed_label_ne Target.a_source_lt

def fastScore : Target :=
  mathTarget (ascii "//:fast_math") .objectlib [ascii "b.c", ascii "start.o"] [] scored_label_ne
    (by decide)

def mathApp (objects : List Bytes) : Target :=
  mathTarget (ascii "//:app") .exe [ascii "main.c"] objects app_label_ne Target.main_source_lt

def mathGraph (objects : List Bytes)
    (hobjects : ∀ label ∈ objects, label = fastDash.label ∨ label = fastScore.label) : Graph where
  host := ascii "linux"
  platform := []
  buildDir := ascii "build"
  targets := [mathApp objects, fastDash, fastScore]
  genrules := []
  stages := []
  toolsets := []
  languages := []
  labels_nodup := by
    show [ascii "//:app", ascii "//:fast-math", ascii "//:fast_math"].Nodup
    decide
  objectlib_objects := by
    intro t ht hkind
    simp only [List.mem_cons, List.not_mem_nil, or_false] at ht
    rcases ht with rfl | rfl | rfl
    · cases hkind
    · rfl
    · rfl
  objects_objectlib := by
    intro t ht label hlabel
    simp only [List.mem_cons, List.not_mem_nil, or_false] at ht
    rcases ht with rfl | rfl | rfl
    · rcases hobjects label hlabel with rfl | rfl
      · exact ⟨fastDash, by simp, rfl, rfl⟩
      · exact ⟨fastScore, by simp, rfl, rfl⟩
    · cases hlabel
    · cases hlabel

def emptyHost : Host := ⟨fun _ => none, fun _ => false⟩

theorem validated_mathGraph {objects : List Bytes} (hnodup : objects.Nodup)
    (hobjects : ∀ label ∈ objects, label = fastDash.label ∨ label = fastScore.label) :
    Validated (mathGraph objects hobjects) where
  objects_nodup := by
    intro t ht
    simp only [mathGraph, List.mem_cons, List.not_mem_nil, or_false] at ht
    rcases ht with rfl | rfl | rfl
    · exact hnodup
    · exact List.nodup_nil
    · exact List.nodup_nil
  consumer_objectlib := by
    intro t ht hcontext
    simp only [mathGraph, List.mem_cons, List.not_mem_nil, or_false] at ht
    rcases ht with rfl | rfl | rfl
    · revert hcontext
      simp [usesConsumerContext, mathApp, mathTarget, ascii]
    · rfl
    · rfl
  objectlib_final := by
    intro t ht _
    simp only [mathGraph, List.mem_cons, List.not_mem_nil, or_false] at ht
    rcases ht with rfl | rfl | rfl
    · rfl
    · rfl
    · rfl

/-- The graph in which the executable links one of the libraries. -/
def scoreGraph : Graph := mathGraph [ascii "//:fast_math"] (by decide)

theorem final_consumes_once_score :
    ∃ a, lowerFinalAction scoreGraph (resolveToolchain scoreGraph (mathApp [ascii "//:fast_math"]))
        (mathApp [ascii "//:fast_math"]) = .ok a ∧
      (ConsumesOnce emptyHost scoreGraph (mathApp [ascii "//:fast_math"]) a ↔
        NamedApart scoreGraph (mathApp [ascii "//:fast_math"])) := by
  have hvalid : Validated scoreGraph := validated_mathGraph (by decide) (by decide)
  have hcreated : Created emptyHost scoreGraph (mathApp [ascii "//:fast_math"]) := by
    intro o ho
    have howners : mathApp [ascii "//:fast_math"] :: libraries scoreGraph
        (mathApp [ascii "//:fast_math"]) = [mathApp [ascii "//:fast_math"], fastScore] := rfl
    simp only [howners, List.mem_cons, List.not_mem_nil, or_false] at ho
    refine exists_eq_ok ?_
    rcases ho with rfl | rfl <;> decide
  obtain ⟨a, ha⟩ := exists_eq_ok (x := lowerFinalAction scoreGraph
    (resolveToolchain scoreGraph (mathApp [ascii "//:fast_math"]))
    (mathApp [ascii "//:fast_math"])) (by decide)
  exact ⟨a, ha, final_consumes_once_iff hvalid (by simp [scoreGraph, mathGraph]) rfl hcreated ha⟩

/-- The graph in which it links both. -/
def bothGraph : Graph := mathGraph [ascii "//:fast-math", ascii "//:fast_math"] (by decide)

def bothApp : Target := mathApp [ascii "//:fast-math", ascii "//:fast_math"]

/-- The first sources of both libraries are compiled to one path, which is linked twice. -/
theorem mangled_libraries_share_object :
    Validated bothGraph ∧ bothApp ∈ bothGraph.targets ∧ bothApp.providerFinal = none ∧
      Created emptyHost bothGraph bothApp ∧
      ∃ a, lowerFinalAction bothGraph (resolveToolchain bothGraph bothApp) bothApp = .ok a ∧
        ¬ConsumesOnce emptyHost bothGraph bothApp a := by
  have hvalid : Validated bothGraph := validated_mathGraph (by decide) (by decide)
  have hmem : bothApp ∈ bothGraph.targets := by simp [bothGraph, bothApp, mathGraph]
  have hcreated : Created emptyHost bothGraph bothApp := by
    intro o ho
    have howners : bothApp :: libraries bothGraph bothApp = [bothApp, fastDash, fastScore] := rfl
    simp only [howners, List.mem_cons, List.not_mem_nil, or_false] at ho
    refine exists_eq_ok ?_
    rcases ho with rfl | rfl | rfl <;> decide
  obtain ⟨a, ha⟩ := exists_eq_ok (x := lowerFinalAction bothGraph
    (resolveToolchain bothGraph bothApp) bothApp) (by decide)
  refine ⟨hvalid, hmem, rfl, hcreated, a, ha, ?_⟩
  rw [consumesOnce_iff_nodup hvalid hmem rfl ha]
  rintro ⟨hnodup, -⟩
  revert hnodup
  decide

end QStar.Lowering.Linking
