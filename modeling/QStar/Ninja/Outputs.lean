import QStar.Lowering.Linking
import QStar.Ninja.Order

/-!
# The outputs of emitted edges

An output is a name that the emitter makes from a label, or a path that a
declaration chooses. Made names are told apart by the mangled label and by what they
are for; so two edges share an output only if labels mangle alike or a chosen path
is met twice.
-/
namespace QStar.Ninja

open QStar.Lib.CStrings
open QStar.Lib.Numerals
open QStar.Lib.Results
open QStar.Lib.Streams
open QStar.Base
open QStar.BuildGraph
open QStar.Lowering

/-! ## Made names -/

/-- A label as it stands in paths. -/
def Mangled := { name : Bytes // 47 ∉ name }

instance : DecidableEq Mangled := inferInstanceAs (DecidableEq { name : Bytes // 47 ∉ name })

def mangled (label : Bytes) : Mangled := ⟨mangleLabel label, slash_notMem_mangleLabel label⟩

/-- What a name in the output directory of a target is for. -/
inductive OutName where
  /-- The object of a source, or of a unity batch. -/
  | object (number : Bool × Nat)
  /-- The object of a source of an object library, made for its consumer. -/
  | consumerObject (library : Mangled) (index : Nat)
  | bmi (stem : Bytes)
  | pch (gcc : Bool)
  | stamp
  deriving DecidableEq

def OutName.tail : OutName → Bytes
  | .object number => objectTail number
  | .consumerObject library index =>
    ascii "objects/" ++ library.1 ++ ascii "/obj" ++ printUnsigned 10 index ++ ascii ".o"
  | .bmi stem => ascii "cxx/" ++ (ascii "modules/" ++ stem ++ ascii ".pcm")
  | .pch gcc => ascii "cxx/" ++ if gcc then ascii "pch.hpp.gch" else ascii "pch.pch"
  | .stamp => ascii "run.stamp"

/-- Where the name of an output is made. -/
inductive Place where
  | out (name : OutName)
  | targetAlias
  | manifest
  | stageAlias
  deriving DecidableEq

def Place.path (g : Graph) (label : Mangled) : Place → Bytes
  | .out name => buildPath g.buildDir (ascii "out/" ++ label.1 ++ ascii "/" ++ name.tail)
  | .targetAlias => buildPath g.buildDir (ascii "ninja/targets/" ++ label.1)
  | .manifest => buildPath g.buildDir (ascii "stage/" ++ label.1 ++ ascii "/manifest.json")
  | .stageAlias => buildPath g.buildDir (ascii "ninja/stages/" ++ label.1)

/-- What stands between slashes is told from the text around it. -/
theorem slash_append_inj {a b : Mangled} {x y : Bytes}
    (h : a.1 ++ (47 :: x) = b.1 ++ (47 :: y)) : a = b ∧ x = y := by
  have hsplit := terminated_append_inj a.2 b.2 (t := 47) (x := x) (y := y)
    (by simpa [terminated] using h)
  exact ⟨Subtype.ext hsplit.1, hsplit.2⟩

/-- The digit after `obj` tells an object of a target from those it keeps for libraries. -/
theorem objectTail_ne_objects (number : Bool × Nat) (rest : Bytes) :
    objectTail number ≠ ascii "objects/" ++ rest := by
  obtain ⟨unity, n⟩ := number
  intro h
  cases unity with
  | true => simp [objectTail, ascii] at h
  | false =>
    obtain ⟨c, digits, hprint⟩ := List.exists_cons_of_ne_nil (printUnsigned_ne_nil 10 n)
    have hdigit : isDigit c = true := printUnsigned_isDigit (n := n) (by simp [hprint])
    simp [objectTail, ascii, hprint] at h
    rw [h.1] at hdigit
    revert hdigit
    decide

theorem OutName.tail_injective {m n : OutName} (h : m.tail = n.tail) : m = n := by
  cases m with
  | object number =>
    cases n with
    | object number' => rw [objectTail_inj h]
    | consumerObject library index =>
      refine absurd h ?_
      simp only [OutName.tail, List.append_assoc]
      exact objectTail_ne_objects number _
    | bmi stem => obtain ⟨_ | _, k⟩ := number <;> simp [OutName.tail, objectTail, ascii] at h
    | pch gcc => obtain ⟨_ | _, k⟩ := number <;> cases gcc <;>
        simp [OutName.tail, objectTail, ascii] at h
    | stamp => obtain ⟨_ | _, k⟩ := number <;> simp [OutName.tail, objectTail, ascii] at h
  | consumerObject library index =>
    cases n with
    | object number =>
      refine absurd h.symm ?_
      simp only [OutName.tail, List.append_assoc]
      exact objectTail_ne_objects number _
    | consumerObject library' index' =>
      have hsplit := slash_append_inj (a := library) (b := library')
        (x := ascii "obj" ++ printUnsigned 10 index ++ ascii ".o")
        (y := ascii "obj" ++ printUnsigned 10 index' ++ ascii ".o")
        (by simpa [OutName.tail, ascii] using h)
      have hnumber := objectTail_inj (m := (false, index)) (n := (false, index')) hsplit.2
      have hindex : index = index' := congrArg Prod.snd hnumber
      rw [hsplit.1, hindex]
    | bmi stem => simp [OutName.tail, ascii] at h
    | pch gcc => simp [OutName.tail, ascii] at h
    | stamp => simp [OutName.tail, ascii] at h
  | bmi stem =>
    cases n with
    | object number => obtain ⟨_ | _, k⟩ := number <;> simp [OutName.tail, objectTail, ascii] at h
    | consumerObject library index => simp [OutName.tail, ascii] at h
    | bmi stem' => simpa [OutName.tail] using h
    | pch gcc => cases gcc <;> simp [OutName.tail, ascii] at h
    | stamp => simp [OutName.tail, ascii] at h
  | pch gcc =>
    cases n with
    | object number => obtain ⟨_ | _, k⟩ := number <;> cases gcc <;>
        simp [OutName.tail, objectTail, ascii] at h
    | consumerObject library index => simp [OutName.tail, ascii] at h
    | bmi stem => cases gcc <;> simp [OutName.tail, ascii] at h
    | pch gcc' => cases gcc <;> cases gcc' <;> simp [OutName.tail, ascii] at h <;> rfl
    | stamp => simp [OutName.tail, ascii] at h
  | stamp =>
    cases n with
    | object number => obtain ⟨_ | _, k⟩ := number <;> simp [OutName.tail, objectTail, ascii] at h
    | stamp => rfl
    | _ => simp [OutName.tail, ascii] at h

/-- A made name tells its label and its place. -/
theorem Place.path_inj {g : Graph} {a b : Mangled} {p q : Place}
    (h : p.path g a = q.path g b) : a = b ∧ p = q := by
  cases p with
  | out m =>
    cases q with
    | out n =>
      simp only [Place.path, buildPath, List.append_assoc, List.append_cancel_left_eq] at h
      obtain ⟨hlabel, htail⟩ := slash_append_inj (x := m.tail) (y := n.tail)
        (by simpa [ascii] using h)
      rw [OutName.tail_injective htail]
      exact ⟨hlabel, rfl⟩
    | _ => simp [Place.path, buildPath, ascii] at h
  | targetAlias =>
    cases q with
    | targetAlias =>
      simp only [Place.path, buildPath, List.append_assoc, List.append_cancel_left_eq] at h
      exact ⟨Subtype.ext h, rfl⟩
    | _ => simp [Place.path, buildPath, ascii] at h
  | manifest =>
    cases q with
    | manifest =>
      simp only [Place.path, buildPath, List.append_assoc, List.append_cancel_left_eq] at h
      exact ⟨(slash_append_inj (x := ascii "manifest.json") (y := ascii "manifest.json")
        (by simpa [ascii] using h)).1, rfl⟩
    | _ => simp [Place.path, buildPath, ascii] at h
  | stageAlias =>
    cases q with
    | stageAlias =>
      simp only [Place.path, buildPath, List.append_assoc, List.append_cancel_left_eq] at h
      exact ⟨Subtype.ext h, rfl⟩
    | _ => simp [Place.path, buildPath, ascii] at h

/-! ## Slots -/

/-- The outputs of one edge: the names made for it, and the paths chosen for it. -/
structure Slot where
  label : Bytes
  places : List Place
  chosen : List Bytes

def Slot.paths (g : Graph) (s : Slot) : List Bytes :=
  s.places.map (Place.path g (mangled s.label)) ++ s.chosen

/-- The slot of one made name. -/
def madeSlot (label : Bytes) (place : Place) : Slot := ⟨label, [place], []⟩

/-- The module file of an interface is called after its source. -/
def bmiStem (t : Target) (index : Nat) : Bytes := (baseStem (t.sources.getD index [])).getD []

/-- The outputs of a source that a target compiles for itself. -/
def ownSlot (t : Target) (index : Nat) : Slot :=
  match providerSourceUnit t index with
  | some unit => ⟨t.label, [], unit.action.outputs⟩
  | none =>
    ⟨t.label, .out (.object (SourceRef.mk t index).number) ::
      if isModuleInterface t index then [.out (.bmi (bmiStem t index))] else [], []⟩

/-- The sources of an object library that are compiled. -/
def libraryCompileIndices (o : Target) : List Nat :=
  (List.range o.sources.length).filter fun j => requiresCompile (sourceInfo o j)

/-- What an object library has compiled by its consumer. -/
def libraryCompiles (o : Target) : List SourceRef :=
  if usesConsumerContext o then (libraryCompileIndices o).map (SourceRef.mk o) else []

/-- The outputs of a source that a target compiles for one of its object libraries. -/
def librarySlot (t : Target) (s : SourceRef) : Slot :=
  madeSlot t.label (.out (.consumerObject (mangled s.owner.label) s.index))

def pchSlots (g : Graph) (t : Target) : List Slot :=
  if t.cxxPrecompiledHeader = [] then []
  else
    [madeSlot t.label
      (.out (.pch (decide (compilerFamily g (resolveToolchain g t) = ascii "gcc"))))]

/-- The outputs a final chooses; an object library has none. -/
def finalSlots (g : Graph) (t : Target) : List Slot :=
  match t.providerFinal with
  | some final => [⟨t.label, [], final.action.outputs⟩]
  | none =>
    if t.kind = .objectlib then []
    else [⟨t.label, [], (ownArtifacts g t).map Artifact.path⟩]

/-- The outputs of the edges of a target, its alias last. -/
def targetSlots (g : Graph) (t : Target) : List Slot :=
  (if t.kind = .group || isTypedDependency t then []
  else if t.kind = .runTarget then [madeSlot t.label (.out .stamp)]
  else pchSlots g t ++ (ownCompileIndices t).map (ownSlot t) ++
    ((libraries g t).flatMap libraryCompiles).map (librarySlot t) ++ finalSlots g t) ++
  [madeSlot t.label .targetAlias]

/-- The outputs of the edges of a node. -/
def EmitNode.slots (g : Graph) : EmitNode → List Slot
  | .target t => targetSlots g t
  | .genrule _ r => [⟨r.label, [], r.outputs⟩, madeSlot r.label .targetAlias]
  | .stage s =>
    [⟨s.label, [.manifest], s.dsts.map (pathJoin (if s.root = [] then ascii "." else s.root))⟩,
      madeSlot s.label .stageAlias]

/-! ## Edges and their slots -/

section Statements

variable {g : Graph} {t : Target} {tc : Toolchain} {s : CompileSource} {stmt : Statement}

/-- The outputs of a compile edge. -/
theorem emitCompileEdge_outputs (h : emitCompileEdgeFromSource g tc s = .ok stmt) :
    (∃ unit, providerSourceUnit s.owner s.index = some unit ∧
      s.owner.label = s.target.label ∧ stmt.outputs = unit.action.outputs) ∨
    (providerSourceUnit s.owner s.index = none ∧ ∃ modules bmi,
      moduleWords g s (decide ((sourceInfo s.owner s.index).provider = ascii "cxx")) =
        .ok (modules, bmi) ∧ interfaceOutput s bmi = .ok () ∧
      (isCxxModule (sourceInfo s.owner s.index) = true → s.owner.cxxModulesEnabled = true) ∧
      stmt.outputs = s.object g :: bmi) := by
  unfold emitCompileEdgeFromSource at h
  obtain ⟨u, hvalid, h⟩ := bind_eq_ok.mp h
  obtain ⟨-, h⟩ := guard_eq_ok.mp h
  obtain ⟨unitySources, -, h⟩ := bind_eq_ok.mp h
  split at h
  · rename_i unit hunit
    obtain ⟨hlabel, h⟩ := guard_eq_ok.mp h
    unfold emitProviderEdge at h
    simp only [bind_eq_ok] at h
    obtain ⟨argv, -, usage, -, sections, -, h⟩ := h
    cases h
    exact .inl ⟨unit, hunit, not_not.mp hlabel, rfl⟩
  · rename_i hunit
    unfold emitBuiltinEdge at h
    simp only [bind_eq_ok] at h
    obtain ⟨tool, -, ⟨modules, bmi⟩, hmodules, u', hinterface, usage, -, bmiInputs, -, sections, -,
      h⟩ := h
    cases h
    refine .inr ⟨hunit, modules, bmi, hmodules, hinterface, ?_, rfl⟩
    intro hmodule
    unfold validateNinjaCompileSource at hvalid
    simp only [hmodule, Bool.true_and] at hvalid
    split at hvalid
    · cases hvalid
    · split at hvalid
      · cases hvalid
      · rename_i henabled
        simpa using henabled

theorem outPath_eq (g : Graph) (t : Target) (name : OutName) :
    outPath g t name.tail = Place.path g (mangled t.label) (.out name) := rfl

/-- A target that compiles sources for itself is compiled in its own context. -/
theorem context_of_ownCompile {index : Nat} (h : index ∈ ownCompileIndices t) :
    usesConsumerContext t = false := by
  unfold ownCompileIndices at h
  split at h
  · cases h
  · rename_i hcontext
    simpa using hcontext

theorem ownEdge_outputs {index : Nat} (hindex : index ∈ ownCompileIndices t)
    (h : emitCompileEdgeFromSource g tc (ownSource t index) = .ok stmt) :
    stmt.outputs = (ownSlot t index).paths g := by
  have hcontext := context_of_ownCompile hindex
  have hemits : emitsObject t index = true := by
    obtain ⟨-, howned⟩ := mem_ownCompileIndices hindex
    simp only [ownCompiled, Bool.and_eq_true] at howned
    exact howned.1.2
  rcases emitCompileEdge_outputs h with ⟨unit, hunit, -, houtputs⟩ |
    ⟨hunit, modules, bmi, hmodules, hinterface, henabled, houtputs⟩
  · have hunit' : providerSourceUnit t index = some unit := hunit
    simp [ownSlot, hunit', Slot.paths, houtputs]
  · have hunit' : providerSourceUnit t index = none := hunit
    have hobject : (ownSource t index).object g =
        Place.path g (mangled t.label) (.out (.object (SourceRef.mk t index).number)) := by
      rw [Linking.ownSource_object (t := t) hcontext hemits, object_of_own hcontext]
      exact outPath_eq g t (.object _)
    have hbmi : bmi = (if isModuleInterface t index then [Place.out (.bmi (bmiStem t index))]
        else []).map (Place.path g (mangled t.label)) := by
      cases hmodule : isModuleInterface t index with
      | false =>
        unfold moduleWords at hmodules
        simp only [ownSource, hmodule, Bool.false_eq_true, if_false] at hmodules
        split at hmodules
        · split at hmodules
          · cases hmodules
          · cases hmodules
            rfl
        · cases hmodules
          rfl
      | true =>
        have hcxx : (sourceInfo t index).provider = ascii "cxx" ∧
            isCxxModule (sourceInfo t index) = true := by
          rw [isModuleInterface_eq] at hmodule
          have hboth := hmodule
          simp only [isCxxModule, Bool.and_eq_true, decide_eq_true_eq] at hboth
          exact ⟨hboth.1, hmodule⟩
        have hmod : t.cxxModulesEnabled = true := henabled hcxx.2
        unfold moduleWords at hmodules
        simp only [ownSource, hcxx.1, hmod, hmodule, decide_true, Bool.and_self, if_true] at hmodules
        split at hmodules
        · cases hmodules
        · split at hmodules
          · cases hmodules
          · rename_i path hpath
            cases hmodules
            unfold moduleOutputPath at hpath
            obtain ⟨stem, hstem, hpath⟩ := Option.bind_eq_some_iff.mp hpath
            cases hpath
            simp only [bmiStem, hstem, Option.getD_some, if_true, List.map_cons, List.map_nil]
            rfl
    simp only [ownSlot, hunit', Slot.paths, List.map_cons, List.append_nil]
    rw [houtputs, hobject, hbmi]

/-- The outputs of a source that is compiled for a consumer without modules of its own. -/
theorem libraryEdge_outputs {o : Target} {index actionIndex : Nat} {object : Bytes}
    (hlabel : o.label ≠ t.label) (hcontext : usesConsumerContext o = true)
    (hmodules : o.cxxModulesEnabled = false)
    (hcompiled : requiresCompile (sourceInfo o index) = true)
    (hobject : objectlibObjectInput g t o index = .ok object)
    (h : emitCompileEdgeFromSource g tc (consumerSource g t o index actionIndex object) = .ok stmt) :
    stmt.outputs = (librarySlot t ⟨o, index⟩).paths g := by
  rcases emitCompileEdge_outputs h with ⟨unit, -, hsame, -⟩ |
    ⟨hunit, modules, bmi, hwords, -, henabled, houtputs⟩
  · exact absurd hsame hlabel
  · have hinterface : isModuleInterface o index = false := by
      rw [isModuleInterface_eq]
      cases hmodule : isCxxModule (sourceInfo o index) with
      | false => rfl
      | true =>
        have hmod : o.cxxModulesEnabled = true := henabled hmodule
        rw [hmodules] at hmod
        cases hmod
    have hbmi : bmi = [] := by
      unfold moduleWords at hwords
      simp only [consumerSource, hinterface, Bool.false_eq_true, if_false] at hwords
      split at hwords
      · split at hwords
        · cases hwords
        · cases hwords
          rfl
      · cases hwords
        rfl
    have hnotraw : isLinkObject (sourceInfo o index) = false :=
      isLinkObject_of_compiled hunit hcompiled
    have hpath : object = Place.path g (mangled t.label)
        (.out (.consumerObject (mangled o.label) index)) := by
      rw [Linking.objectlibObjectInput_eq hobject]
      simp only [SourceRef.linked, SourceRef.raw, hnotraw, Bool.false_eq_true, if_false]
      rw [object_of_consumer hcontext]
      rfl
    have hleads : leadsBatch t o index = none := by
      simp [leadsBatch, hlabel]
    rw [houtputs, hbmi]
    simp [CompileSource.object, consumerSource, hleads, librarySlot, madeSlot, Slot.paths, hpath]

theorem emitCxxPchEdge_outputs (h : emitCxxPchEdge g tc t = .ok stmt) :
    stmt.outputs = [pchOutputPath g t tc] := by
  unfold emitCxxPchEdge at h
  simp only [bind_eq_ok] at h
  obtain ⟨tool, -, usage, -, sections, -, h⟩ := h
  cases h
  rfl

theorem pchOutputPath_eq (g : Graph) (t : Target) (tc : Toolchain) :
    pchOutputPath g t tc = Place.path g (mangled t.label)
      (.out (.pch (decide (compilerFamily g tc = ascii "gcc")))) := by
  by_cases hgcc : compilerFamily g tc = ascii "gcc"
  · rw [pchOutputPath, if_pos hgcc, decide_eq_true hgcc]
    rfl
  · rw [pchOutputPath, if_neg hgcc, decide_eq_false hgcc]
    rfl

/-- What an archive or a link produces is what the kind of the target makes. -/
theorem targetArtifactMap_own (hfinal : t.providerFinal = none)
    (hkind : locallySupported t.kind = true) {artifacts : List Artifact}
    (h : targetArtifactMap g t = .ok artifacts) : artifacts = ownArtifacts g t := by
  have hkinds : t.kind = .exe ∨ t.kind = .test ∨ t.kind = .staticlib ∨ t.kind = .sharedlib := by
    simpa [locallySupported, or_assoc] using hkind
  have hmap : targetArtifactMap g t =
      if (ownArtifacts g t).length ≤ artifactMapSize then .ok (ownArtifacts g t)
      else .error (.tooManyArtifacts t.label) := by
    rcases hkinds with hk | hk | hk | hk <;> simp only [targetArtifactMap, hk, hfinal]
  rw [hmap] at h
  split at h
  · cases h
    rfl
  · cases h

theorem lowerFinalAction_outputs (hfinal : t.providerFinal = none) {a : LoweredAction}
    (h : lowerFinalAction g tc t = .ok a) :
    locallySupported t.kind = true ∧ a.outputs = (ownArtifacts g t).map Artifact.path := by
  unfold lowerFinalAction at h
  simp only [hfinal, bind_eq_ok, guard_eq_ok] at h
  obtain ⟨hkind, artifact, -, head, -, own, -, library, -, tail, -, linked, -, inputs, -, outputs,
    houtputs, h⟩ := h
  have hkind : locallySupported t.kind = true := by simpa using hkind
  obtain ⟨artifacts, hartifacts, houtputs⟩ := bind_eq_ok.mp houtputs
  cases houtputs
  rw [targetArtifactMap_own hfinal hkind hartifacts] at h
  split at h
  · cases h
  · rename_i output rest heq
    cases h
    exact ⟨hkind, heq.symm⟩

theorem emitStaticlibEdge_outputs (hfinal : t.providerFinal = none) (hkind : t.kind = .staticlib)
    (h : emitStaticlibEdge g tc t = .ok stmt) :
    stmt.outputs = (ownArtifacts g t).map Artifact.path := by
  unfold emitStaticlibEdge at h
  simp only [bind_eq_ok] at h
  obtain ⟨artifact, hartifact, lowered, -, own, -, library, -, links, -, h⟩ := h
  cases h
  obtain ⟨artifacts, hartifacts, hfound⟩ := bind_eq_ok.mp hartifact
  rw [targetArtifactMap_own hfinal (by simp [locallySupported, hkind]) hartifacts] at hfound
  have hown : ownArtifacts g t = [artifactOf (ascii "archive") (ascii "staticlib")
      (outPath g t (primaryArtifactFilename g t)) true] := by
    simp [ownArtifacts, hkind]
  rw [hown] at hfound ⊢
  simp only [List.find?_cons, artifactOf, decide_true, Bool.true_or, Bool.and_self] at hfound
  cases hfound
  rfl

theorem emitLinkEdge_outputs (hfinal : t.providerFinal = none)
    (h : emitLinkEdge g tc t = .ok stmt) :
    stmt.outputs = (ownArtifacts g t).map Artifact.path := by
  unfold emitLinkEdge at h
  simp only [bind_eq_ok] at h
  obtain ⟨artifact, -, lowered, hlowered, artifacts, -, own, -, library, -, links, -, usage, -,
    h⟩ := h
  cases h
  exact (lowerFinalAction_outputs hfinal hlowered).2

theorem emitProviderFinalEdge_outputs {final : ProviderFinal}
    (hfinal : t.providerFinal = some final)
    (h : emitProviderFinalEdge g tc t final = .ok stmt) :
    stmt.outputs = final.action.outputs := by
  unfold emitProviderFinalEdge at h
  simp only [bind_eq_ok] at h
  obtain ⟨lowered, hlowered, usage, -, links, -, h⟩ := h
  cases h
  simp only [lowerFinalAction, hfinal, lowerProviderFinal, bind_eq_ok, guard_eq_ok] at hlowered
  obtain ⟨-, argv, -, options, -, inputs, -, hlowered⟩ := hlowered
  cases hlowered
  rfl

/-! ## Sources compiled for a consumer -/

/-- A source that is compiled for a consumer. -/
def ConsumerSource (g : Graph) (t : Target) (s : CompileSource) : Prop :=
  ∃ o index actionIndex object, o ∈ libraries g t ∧ usesConsumerContext o = true ∧
    index ∈ libraryCompileIndices o ∧ objectlibObjectInput g t o index = .ok object ∧
    s = consumerSource g t o index actionIndex object

theorem objectlibCompileSources_spec {listIndex : Nat} {label : Bytes} (hlabel : label ∈ t.objects)
    {sources : List CompileSource} (h : objectlibCompileSources g t listIndex label = .ok sources) :
    (∀ s ∈ sources, ConsumerSource g t s) ∧
      sources.map (fun s => SourceRef.mk s.owner s.index) =
        (findTarget g label).toList.flatMap libraryCompiles := by
  unfold objectlibCompileSources at h
  split at h
  · rename_i hnone
    cases h
    simp [hnone]
  · rename_i o ho
    have hmem : o ∈ libraries g t := List.mem_filterMap.mpr ⟨label, hlabel, ho⟩
    split at h
    · rename_i hcontext
      constructor
      · intro s hs
        obtain ⟨index, hindex, hsource⟩ := mapM_eq_ok_mem h s hs
        obtain ⟨object, hobject, hsource⟩ := bind_eq_ok.mp hsource
        cases hsource
        exact ⟨o, index, _, object, hmem, hcontext, hindex, hobject, rfl⟩
      · have hrefs := mapM_eq_ok_map_map (p := fun s => SourceRef.mk s.owner s.index)
          (k := SourceRef.mk o) (f := fun j => do
            let object ← objectlibObjectInput g t o j
            return consumerSource g t o j (consumerCompileIndex g t listIndex j) object)
          (by
            intro j _ s hsource
            obtain ⟨object, -, hsource⟩ := bind_eq_ok.mp hsource
            cases hsource
            rfl) h
        rw [hrefs, ho]
        simp [libraryCompiles, hcontext, libraryCompileIndices]
    · rename_i hcontext
      cases h
      simp [ho, libraryCompiles, hcontext]

theorem consumerCompileSources_spec {sources : List CompileSource}
    (h : consumerCompileSources g t = .ok sources) :
    (∀ s ∈ sources, ConsumerSource g t s) ∧
      sources.map (fun s => SourceRef.mk s.owner s.index) =
        (libraries g t).flatMap libraryCompiles := by
  obtain ⟨lists, hlists, h⟩ := bind_eq_ok.mp h
  cases h
  have hmem : ∀ item ∈ t.objects.zipIdx, item.1 ∈ t.objects := by
    intro item hitem
    exact List.fst_mem_of_mem_zipIdx hitem
  constructor
  · intro s hs
    obtain ⟨list, hlist, hs⟩ := List.mem_flatten.mp hs
    obtain ⟨item, hitem, hsources⟩ := mapM_eq_ok_mem hlists list hlist
    exact (objectlibCompileSources_spec (hmem item hitem) hsources).1 s hs
  · have hrefs := mapM_eq_ok_map_map
      (p := fun list => list.map fun s : CompileSource => SourceRef.mk s.owner s.index)
      (k := fun item : Bytes × Nat => (findTarget g item.1).toList.flatMap libraryCompiles)
      (fun item hitem list hlist => (objectlibCompileSources_spec (hmem item hitem) hlist).2) hlists
    have hfirst : t.objects.zipIdx.map
        (fun item : Bytes × Nat => (findTarget g item.1).toList.flatMap libraryCompiles) =
        t.objects.map fun label => (findTarget g label).toList.flatMap libraryCompiles := by
      conv_rhs => rw [← List.zipIdx_map_fst 0 t.objects, List.map_map]
      rfl
    rw [List.map_flatten, hrefs, hfirst, ← List.flatMap_def, ← List.flatMap_assoc]
    congr 1
    simp [libraries, List.filterMap_eq_flatMap_toList]

/-! ## Edges of nodes -/

/-- No consumer-context library of a target has modules. -/
def NoModulesForConsumer (g : Graph) (t : Target) : Prop :=
  ∀ o ∈ libraries g t, usesConsumerContext o = true → o.cxxModulesEnabled = false

theorem compileStatements_outputs (ht : t ∈ g.targets) (hlibs : NoModulesForConsumer g t)
    {stmts : List Statement} (h : compileStatements g (resolveToolchain g t) t = .ok stmts) :
    stmts.map Statement.outputs =
      (pchSlots g t ++ (ownCompileIndices t).map (ownSlot t) ++
        ((libraries g t).flatMap libraryCompiles).map (librarySlot t)).map (Slot.paths g) := by
  unfold compileStatements at h
  obtain ⟨pch, hpch, h⟩ := bind_eq_ok.mp h
  obtain ⟨own, hown, h⟩ := bind_eq_ok.mp h
  obtain ⟨sources, hsources, h⟩ := bind_eq_ok.mp h
  obtain ⟨consumer, hconsumer, h⟩ := bind_eq_ok.mp h
  cases h
  have hpchs : pch.map Statement.outputs = (pchSlots g t).map (Slot.paths g) := by
    unfold pchSlots
    unfold pchStatements at hpch
    split at hpch
    · rename_i hnone
      cases hpch
      rw [if_pos hnone]
      rfl
    · rename_i hheader
      obtain ⟨edge, hedge, hpch⟩ := bind_eq_ok.mp hpch
      cases hpch
      rw [if_neg hheader]
      simp [madeSlot, Slot.paths, emitCxxPchEdge_outputs hedge, pchOutputPath_eq]
  have howns : own.map Statement.outputs =
      (ownCompileIndices t).map fun i => (ownSlot t i).paths g :=
    mapM_eq_ok_map_map (fun i hi stmt hstmt => ownEdge_outputs hi hstmt) hown
  obtain ⟨hspec, hrefs⟩ := consumerCompileSources_spec hsources
  have hconsumers : consumer.map Statement.outputs =
      sources.map fun s => (librarySlot t ⟨s.owner, s.index⟩).paths g := by
    refine mapM_eq_ok_map_map ?_ hconsumer
    intro s hs stmt hstmt
    obtain ⟨o, index, actionIndex, object, ho, hcontext, hindex, hobject, rfl⟩ := hspec s hs
    obtain ⟨-, -, -, hlabel⟩ := Linking.mem_libraries ht ho
    exact libraryEdge_outputs hlabel hcontext (hlibs o ho hcontext)
      (List.mem_filter.mp hindex).2 hobject hstmt
  simp only [List.map_append, List.map_map, hpchs, howns, hconsumers, ← hrefs]
  rfl

theorem finalStatements_outputs {stmts : List Statement}
    (h : finalStatements g tc t = .ok stmts) :
    stmts.map Statement.outputs =
      (finalSlots g t ++ [madeSlot t.label .targetAlias]).map (Slot.paths g) := by
  have halias : (madeSlot t.label .targetAlias).paths g = [ninjaAliasPath g t.label] := rfl
  rw [List.map_append, List.map_singleton, halias]
  cases hfinal : t.providerFinal with
  | some final =>
    simp only [finalStatements, hfinal] at h
    obtain ⟨edge, hedge, h⟩ := bind_eq_ok.mp h
    cases h
    simp [finalSlots, hfinal, Slot.paths, emitProviderFinalEdge_outputs hfinal hedge, outputsAlias,
      aliasStatement]
  | none =>
    simp only [finalStatements, hfinal] at h
    split at h
    · rename_i hobjectlib
      obtain ⟨edge, hedge, h⟩ := bind_eq_ok.mp h
      cases h
      obtain ⟨objects, -, hedge⟩ := bind_eq_ok.mp hedge
      cases hedge
      simp [finalSlots, hfinal, hobjectlib]
    · rename_i hobjectlib
      obtain ⟨edge, hedge, h⟩ := bind_eq_ok.mp h
      cases h
      have houtputs : edge.outputs = (ownArtifacts g t).map Artifact.path := by
        unfold emitOwnFinal at hedge
        split at hedge
        · rename_i hkind
          exact emitStaticlibEdge_outputs hfinal hkind hedge
        · exact emitLinkEdge_outputs hfinal hedge
      simp [finalSlots, hfinal, hobjectlib, Slot.paths, houtputs, outputsAlias, aliasStatement]

theorem targetStatements_outputs (ht : t ∈ g.targets) (hlibs : NoModulesForConsumer g t)
    {stmts : List Statement} (h : targetStatements g t = .ok stmts) :
    stmts.map Statement.outputs = (targetSlots g t).map (Slot.paths g) := by
  have halias : (madeSlot t.label .targetAlias).paths g = [ninjaAliasPath g t.label] := rfl
  unfold targetStatements at h
  unfold targetSlots
  split at h
  · rename_i hgroup
    cases h
    simp [hgroup, halias, emitGroupEdge]
  · rename_i hgroup
    split at h
    · rename_i htyped
      obtain ⟨edge, hedge, h⟩ := bind_eq_ok.mp h
      cases h
      obtain ⟨artifacts, -, hedge⟩ := bind_eq_ok.mp hedge
      cases hedge
      simp [htyped, halias]
    · rename_i htyped
      have hneither : (decide (t.kind = .group) || isTypedDependency t) = false := by
        simp [hgroup, htyped]
      rw [hneither, if_neg (by simp)]
      split at h
      · rename_i hrun
        obtain ⟨edge, hedge, h⟩ := bind_eq_ok.mp h
        cases h
        unfold emitRunEdge at hedge
        simp only [bind_eq_ok, guard_eq_ok] at hedge
        obtain ⟨-, argv, -, deps, -, hedge⟩ := hedge
        cases hedge
        rw [if_pos hrun]
        rfl
      · rename_i hrun
        obtain ⟨compile, hcompile, h⟩ := bind_eq_ok.mp h
        obtain ⟨final, hfinal, h⟩ := bind_eq_ok.mp h
        cases h
        rw [if_neg hrun, List.map_append, compileStatements_outputs ht hlibs hcompile,
          finalStatements_outputs hfinal]
        simp

theorem statements_outputs {n : EmitNode} (hn : n.Declared g)
    (hlibs : ∀ t, n = .target t → NoModulesForConsumer g t)
    {stmts : List Statement} (h : n.statements g = .ok stmts) :
    stmts.map Statement.outputs = (n.slots g).map (Slot.paths g) := by
  cases n with
  | target t => exact targetStatements_outputs hn (hlibs t rfl) h
  | genrule consumer r =>
    obtain ⟨edge, hedge, h⟩ := bind_eq_ok.mp h
    cases h
    unfold emitGenruleEdge at hedge
    simp only [bind_eq_ok] at hedge
    obtain ⟨argv, -, deps, -, hedge⟩ := hedge
    cases hedge
    rfl
  | stage s =>
    obtain ⟨edge, hedge, h⟩ := bind_eq_ok.mp h
    cases h
    unfold emitStageEdge at hedge
    simp only [bind_eq_ok] at hedge
    obtain ⟨srcs, -, items, -, hedge⟩ := hedge
    cases hedge
    simp [EmitNode.slots, Slot.paths, stagedOutputs, stageAlias, aliasStatement, madeSlot,
      Place.path, stageManifestPath, stageAliasPath, mangled]

end Statements

end QStar.Ninja
