import QStar.Lib.Results
import QStar.Lowering.Nodes

/-!
# Ids of lowered actions

Every lowered action carries the id of the node it was prepared for, and no two nodes
that compile or link targets of a graph share an id.
-/
namespace QStar.Lowering

open QStar.Lib.CStrings
open QStar.Lib.Numerals
open QStar.Lib.Results
open QStar.Base
open QStar.BuildGraph

variable {h : Host} {g : Graph} {tc : Toolchain} {s : CompileSource} {t : Target}
  {a : LoweredAction}

/-- The id, the kind, the owner and the toolchain of a lowered action. -/
structure LoweredAs (id kind owner : Bytes) (tc : Option Toolchain) (a : LoweredAction) : Prop where
  id : a.id = id
  kind : a.kind = kind
  owner : a.owner = owner
  toolchain : a.toolchain = tc

theorem lowerProviderSource_as {unit : ProviderSourceUnit}
    (ha : lowerProviderSource g tc s unit = .ok a) :
    LoweredAs (formatCompileActionId s.target s.owner s.index s.actionIndex) (ascii "compile")
      s.target.label (some tc) a := by
  unfold lowerProviderSource at ha
  split at ha
  · cases ha
  · simp only [bind_eq_ok] at ha
    obtain ⟨argv, -, usage, -, inputs, -, ha⟩ := ha
    cases ha
    exact ⟨rfl, rfl, rfl, rfl⟩

theorem lowerBuiltinSource_as {source : SourceInfo} {unitySources : List Bytes}
    (ha : lowerBuiltinSource g tc s source unitySources = .ok a) :
    LoweredAs (formatCompileActionId s.target s.owner s.index s.actionIndex) (ascii "compile")
      s.target.label (some tc) a := by
  simp only [lowerBuiltinSource, bind_eq_ok] at ha
  obtain ⟨tool, -, ⟨modules, bmi⟩, -, usage, -, bmiInputs, -, inputs, -, ha⟩ := ha
  cases ha
  exact ⟨rfl, rfl, rfl, rfl⟩

/-- Where a compile action that was prepared comes from. -/
theorem lowerCompileAction_cases (ha : lowerCompileAction h g tc s = .ok a) :
    ∃ unitySources, s.unitySources = .ok unitySources ∧
      ((∃ unit, providerSourceUnit s.owner s.index = some unit ∧
          s.owner.label = s.target.label ∧ lowerProviderSource g tc s unit = .ok a) ∨
        (providerSourceUnit s.owner s.index = none ∧
          lowerBuiltinSource g tc s (sourceInfo s.owner s.index) unitySources = .ok a)) := by
  simp only [lowerCompileAction, bind_eq_ok, guard_eq_ok] at ha
  obtain ⟨-, -, -, unitySources, hunity, ha⟩ := ha
  refine ⟨unitySources, hunity, ?_⟩
  split at ha
  · rename_i unit hunit
    rw [guard_eq_ok] at ha
    exact .inl ⟨unit, hunit, not_not.mp ha.1, ha.2⟩
  · rename_i hunit
    exact .inr ⟨hunit, ha⟩

theorem lowerCompileAction_as (ha : lowerCompileAction h g tc s = .ok a) :
    LoweredAs (formatCompileActionId s.target s.owner s.index s.actionIndex) (ascii "compile")
      s.target.label (some tc) a := by
  obtain ⟨unitySources, -, ⟨unit, -, -, ha⟩ | ⟨-, ha⟩⟩ := lowerCompileAction_cases ha
  · exact lowerProviderSource_as ha
  · exact lowerBuiltinSource_as ha

/-- A compile is keyed with its object. -/
theorem lowerCompileAction_keyOutput (ha : lowerCompileAction h g tc s = .ok a) :
    a.keyOutput = s.object g := by
  obtain ⟨unitySources, -, ⟨unit, -, -, ha⟩ | ⟨-, ha⟩⟩ := lowerCompileAction_cases ha
  · unfold lowerProviderSource at ha
    split at ha
    · cases ha
    · simp only [bind_eq_ok] at ha
      obtain ⟨argv, -, usage, -, inputs, -, ha⟩ := ha
      cases ha
      rfl
  · simp only [lowerBuiltinSource, bind_eq_ok] at ha
    obtain ⟨tool, -, ⟨modules, bmi⟩, -, usage, -, bmiInputs, -, inputs, -, ha⟩ := ha
    cases ha
    rfl

theorem lowerCxxPchAction_as (ha : lowerCxxPchAction g tc t = .ok a) :
    LoweredAs (singleActionId t.label (ascii "cxx-pch")) (ascii "compile") t.label (some tc) a := by
  simp only [lowerCxxPchAction, bind_eq_ok] at ha
  obtain ⟨tool, -, usage, -, inputs, -, ha⟩ := ha
  cases ha
  exact ⟨rfl, rfl, rfl, rfl⟩

theorem lowerProviderFinal_as {final : ProviderFinal}
    (ha : lowerProviderFinal g tc t final = .ok a) :
    LoweredAs (singleActionId t.label (finalAction t)) (finalAction t) t.label (some tc) a := by
  simp only [lowerProviderFinal, bind_eq_ok, guard_eq_ok] at ha
  obtain ⟨-, argv, -, usage, -, inputs, -, ha⟩ := ha
  cases ha
  exact ⟨rfl, rfl, rfl, rfl⟩

theorem lowerFinalAction_as (ha : lowerFinalAction g tc t = .ok a) :
    LoweredAs (singleActionId t.label (finalAction t)) (finalAction t) t.label (some tc) a := by
  unfold lowerFinalAction at ha
  split at ha
  · exact lowerProviderFinal_as ha
  · simp only [bind_eq_ok, guard_eq_ok] at ha
    obtain ⟨-, artifact, -, head, -, own, -, library, -, tail, -, linked, -, inputs, -, outputs,
      -, ha⟩ := ha
    split at ha
    · cases ha
    · cases ha
      exact ⟨rfl, rfl, rfl, rfl⟩

theorem lowerGeneratedAction_as {r : Genrule} (ha : lowerGeneratedAction g r = .ok a) :
    LoweredAs (singleActionId r.label (ascii "generate")) (ascii "generate")
      (ascii "<generated>") (some (generatedToolchain g r)) a ∧ a.outputs = r.outputs := by
  simp only [lowerGeneratedAction, bind_eq_ok, guard_eq_ok] at ha
  obtain ⟨-, ⟨tool, mode⟩, -, -, -, argv, -, declared, -, named, -, ha⟩ := ha
  cases ha
  exact ⟨⟨rfl, rfl, rfl, rfl⟩, rfl⟩

theorem lowerRunAction_as (ha : lowerRunAction g t = .ok a) :
    LoweredAs (singleActionId t.label (ascii "run")) (ascii "run") t.label none a ∧
      a.outputs = [runStamp g t] := by
  simp only [lowerRunAction, bind_eq_ok, guard_eq_ok] at ha
  obtain ⟨-, argv, -, named, -, inputs, -, ha⟩ := ha
  cases ha
  exact ⟨⟨rfl, rfl, rfl, rfl⟩, rfl⟩

/-- An action is prepared under the id of its node. -/
theorem lowerNode_id {node : ActionNode} (ha : lowerNode h g node = .ok a) :
    a.id = nodeId node := by
  cases node with
  | cxxPch t => exact (lowerCxxPchAction_as ha).id
  | compile t index => exact (lowerCompileAction_as ha).id
  | consumerCompile t objectlib index actionIndex =>
    obtain ⟨object, -, ha⟩ := bind_eq_ok.mp ha
    exact (lowerCompileAction_as ha).id
  | final t => exact (lowerFinalAction_as ha).id
  | generate r => exact (lowerGeneratedAction_as ha).1.id
  | run t => exact (lowerRunAction_as ha).1.id

/-- Which files can be executed decides only whether an action is prepared. -/
theorem lowerCompileAction_host {h' : Host} {a' : LoweredAction}
    (ha : lowerCompileAction h g tc s = .ok a) (ha' : lowerCompileAction h' g tc s = .ok a') :
    a = a' := by
  obtain ⟨us, hus, hcases⟩ := lowerCompileAction_cases ha
  obtain ⟨us', hus', hcases'⟩ := lowerCompileAction_cases ha'
  rw [hus, Except.ok.injEq] at hus'
  subst hus'
  rcases hcases with ⟨unit, hunit, -, hlow⟩ | ⟨hunit, hlow⟩ <;>
    rcases hcases' with ⟨unit', hunit', -, hlow'⟩ | ⟨hunit', hlow'⟩ <;>
    rw [hunit] at hunit'
  · cases hunit'
    rw [hlow, Except.ok.injEq] at hlow'
    exact hlow'
  · cases hunit'
  · cases hunit'
  · rw [hlow, Except.ok.injEq] at hlow'
    exact hlow'

theorem lowerNode_host {h' : Host} {node : ActionNode} {a' : LoweredAction}
    (ha : lowerNode h g node = .ok a) (ha' : lowerNode h' g node = .ok a') : a = a' := by
  cases node with
  | compile t index => exact lowerCompileAction_host ha ha'
  | consumerCompile t objectlib index actionIndex =>
    obtain ⟨object, hobject, ha⟩ := bind_eq_ok.mp ha
    obtain ⟨object', hobject', ha'⟩ := bind_eq_ok.mp ha'
    rw [hobject, Except.ok.injEq] at hobject'
    subst hobject'
    exact lowerCompileAction_host ha ha'
  | _ => exact Except.ok.inj (ha.symm.trans ha')

/-- The actions of a target are prepared with its toolchain. -/
theorem lowerNode_toolchain {node : ActionNode} (hnode : node ∈ ownNodes g t)
    (ha : lowerNode h g node = .ok a) : a.toolchain = some (resolveToolchain g t) := by
  rcases mem_ownNodes hnode with ⟨-, rfl⟩ | ⟨index, -, rfl⟩ | hconsumer | ⟨-, rfl⟩
  · exact (lowerCxxPchAction_as ha).toolchain
  · exact (lowerCompileAction_as ha).toolchain
  · obtain ⟨listIndex, label, objectlib, index, -, -, -, -, rfl⟩ := mem_consumerNodes hconsumer
    obtain ⟨object, -, ha⟩ := bind_eq_ok.mp ha
    exact (lowerCompileAction_as ha).toolchain
  · exact (lowerFinalAction_as ha).toolchain

/-! ## No two nodes share an id -/

/-- The kind and the number in an id. -/
inductive IdShape where
  | pch
  | unity (batch : Nat)
  | interface (number : Nat)
  | implementation (number : Nat)
  | plain (number : Nat)
  | final (kind : Bytes)

def IdShape.kind : IdShape → Bytes
  | .pch => ascii "cxx-pch"
  | .unity batch => ascii "compile-unity-" ++ printUnsigned 10 batch
  | .interface number => ascii "compile-module-interface-" ++ printUnsigned 10 number
  | .implementation number => ascii "compile-module-implementation-" ++ printUnsigned 10 number
  | .plain _ => ascii "compile"
  | .final kind => kind

def IdShape.number : IdShape → Bytes
  | .plain number => printUnsigned 10 number
  | _ => ascii "0"

/-- The final actions that start a process. -/
def processFinals : List Bytes :=
  [ascii "link", ascii "archive", ascii "link-shared", ascii "materialize"]

theorem finalAction_mem (hkind : hasNoToolchain t = false) (hobjectlib : t.kind ≠ .objectlib) :
    finalAction t ∈ processFinals := by
  unfold finalAction processFinals
  cases h : t.kind <;> simp [hasNoToolchain, h] at hkind hobjectlib ⊢

/-- Shapes of nodes; a final action has one of the kinds that start a process. -/
def IdShape.Valid : IdShape → Prop
  | .final kind => kind ∈ processFinals
  | _ => True

theorem colon_notMem_printUnsigned (n : Nat) : 58 ∉ printUnsigned 10 n := by
  intro h
  have hdigit := printUnsigned_isDigit h
  revert hdigit
  decide

theorem IdShape.colon_notMem {shape : IdShape} (hvalid : shape.Valid) :
    58 ∉ shape.kind ∧ 58 ∉ shape.number := by
  have hfinals : ∀ kind ∈ processFinals, 58 ∉ kind := by decide
  cases shape with
  | pch => decide
  | unity n => exact ⟨by simp [kind, ascii, colon_notMem_printUnsigned], by simp [number, ascii]⟩
  | interface n => exact ⟨by simp [kind, ascii, colon_notMem_printUnsigned], by simp [number, ascii]⟩
  | implementation n => exact ⟨by simp [kind, ascii, colon_notMem_printUnsigned], by simp [number, ascii]⟩
  | plain n => exact ⟨by simp [kind, ascii], colon_notMem_printUnsigned n⟩
  | final k => exact ⟨hfinals k hvalid, by simp [number, ascii]⟩

/-- Kind and number tell shapes apart. -/
theorem IdShape.ext_print {shape shape' : IdShape} (hvalid : shape.Valid) (hvalid' : shape'.Valid)
    (hkind : shape.kind = shape'.kind) (hnumber : shape.number = shape'.number) :
    shape = shape' := by
  have hfinals : ∀ kind ∈ processFinals, kind.head? ≠ some 99 := by decide
  cases shape <;> cases shape' <;> simp [IdShape.kind, IdShape.number, ascii] at hkind hnumber ⊢
  all_goals first
    | exact printUnsigned_injective hkind
    | exact printUnsigned_injective hnumber
    | exact hkind
    | exact absurd (hkind ▸ rfl) (hfinals _ hvalid')
    | exact absurd (hkind ▸ rfl) (hfinals _ hvalid)

theorem append_colon_inj {owner owner' kind kind' number number' : Bytes} (hkind : 58 ∉ kind)
    (hkind' : 58 ∉ kind') (hnumber : 58 ∉ number) (hnumber' : 58 ∉ number')
    (h : owner ++ 58 :: kind ++ 58 :: number = owner' ++ 58 :: kind' ++ 58 :: number') :
    owner = owner' ∧ kind = kind' ∧ number = number' := by
  have hlast := splitLast_append (owner ++ 58 :: kind) hnumber
  rw [h, splitLast_append _ hnumber', Option.some.injEq, Prod.mk.injEq] at hlast
  have hfirst := splitLast_append owner hkind
  rw [← hlast.1, splitLast_append _ hkind', Option.some.injEq, Prod.mk.injEq] at hfirst
  exact ⟨hfirst.1.symm, hfirst.2.symm, hlast.2.symm⟩

/-- The id of a shape. -/
def IdShape.print (shape : IdShape) (label : Bytes) : Bytes :=
  label ++ 58 :: shape.kind ++ 58 :: shape.number

theorem IdShape.print_inj {shape shape' : IdShape} {label label' : Bytes} (hvalid : shape.Valid)
    (hvalid' : shape'.Valid) (h : shape.print label = shape'.print label') :
    label = label' ∧ shape = shape' := by
  obtain ⟨hkind, hnumber⟩ := IdShape.colon_notMem hvalid
  obtain ⟨hkind', hnumber'⟩ := IdShape.colon_notMem hvalid'
  obtain ⟨hlabel, hk, hn⟩ := append_colon_inj hkind hkind' hnumber hnumber' h
  exact ⟨hlabel, IdShape.ext_print hvalid hvalid' hk hn⟩

theorem leadsBatch_own {index batch : Nat} :
    leadsBatch t t index = some batch ↔ unitySourceInfo t index = some (batch, true) := by
  unfold leadsBatch
  rw [if_pos rfl]
  split
  · rename_i b hinfo
    simp [hinfo]
  · rename_i hinfo
    constructor
    · intro hnone
      cases hnone
    · intro hsome
      exact absurd hsome (hinfo batch)

theorem leadsBatch_consumer {objectlib : Target} (hlabel : objectlib.label ≠ t.label) (index : Nat) :
    leadsBatch t objectlib index = none := if_neg hlabel

/-- The shape of the id of a compile. -/
def compileShape (t owner : Target) (index actionIndex : Nat) : IdShape :=
  match leadsBatch t owner index with
  | some batch => .unity batch
  | none =>
    if isModuleInterface owner index then .interface actionIndex
    else if isImplementation owner index && t.cxxModulesEnabled then .implementation actionIndex
    else .plain actionIndex

theorem print_number_zero (shape : IdShape) (hnumber : shape.number = ascii "0") (label : Bytes) :
    shape.print label = singleActionId label shape.kind := by
  simp [IdShape.print, hnumber, singleActionId, ascii]

theorem formatCompileActionId_eq (t owner : Target) (index actionIndex : Nat) :
    formatCompileActionId t owner index actionIndex =
      (compileShape t owner index actionIndex).print t.label := by
  unfold formatCompileActionId compileShape
  cases leadsBatch t owner index with
  | some batch => exact (print_number_zero (.unity batch) rfl t.label).symm
  | none =>
    simp only
    by_cases hinterface : isModuleInterface owner index = true
    · rw [if_pos hinterface, if_pos hinterface]
      exact (print_number_zero (.interface actionIndex) rfl t.label).symm
    · rw [if_neg hinterface, if_neg hinterface]
      by_cases himpl : (isImplementation owner index && t.cxxModulesEnabled) = true
      · rw [if_pos himpl, if_pos himpl]
        exact (print_number_zero (.implementation actionIndex) rfl t.label).symm
      · rw [if_neg himpl, if_neg himpl]
        simp [IdShape.print, IdShape.kind, IdShape.number, compileActionId, ascii]

/-- Compiles of one shape lead the same batch or have the same number. -/
theorem compileShape_inj {t owner owner' : Target} {index index' actionIndex actionIndex' : Nat}
    (h : compileShape t owner index actionIndex = compileShape t owner' index' actionIndex') :
    (∃ batch, leadsBatch t owner index = some batch ∧ leadsBatch t owner' index' = some batch) ∨
    (leadsBatch t owner index = none ∧ leadsBatch t owner' index' = none ∧
      actionIndex = actionIndex') := by
  unfold compileShape at h
  cases hlead : leadsBatch t owner index <;> cases hlead' : leadsBatch t owner' index' <;>
    simp only [hlead, hlead'] at h
  · refine .inr ⟨rfl, rfl, ?_⟩
    split_ifs at h <;> cases h <;> rfl
  · split_ifs at h
  · split_ifs at h
  · cases h
    exact .inl ⟨_, rfl, rfl⟩

/-- The shape of the id of a node; commands share one shape. -/
def nodeShape : ActionNode → IdShape
  | .cxxPch _ => .pch
  | .compile t index => compileShape t t index index
  | .consumerCompile t objectlib index actionIndex => compileShape t objectlib index actionIndex
  | .final t => .final (finalAction t)
  | .generate _ => .final (ascii "generate")
  | .run _ => .final (ascii "run")

section Own

variable {g : Graph}

/-- The target of a node that compiles or links one. -/
def nodeLabel : ActionNode → Bytes
  | .cxxPch t => t.label
  | .compile t _ => t.label
  | .consumerCompile t _ _ _ => t.label
  | .final t => t.label
  | .generate r => r.label
  | .run t => t.label

theorem nodeId_eq (node : ActionNode) : nodeId node = (nodeShape node).print (nodeLabel node) := by
  cases node with
  | cxxPch t => exact (print_number_zero .pch rfl t.label).symm
  | compile t index => exact formatCompileActionId_eq t t index index
  | consumerCompile t objectlib index actionIndex =>
    exact formatCompileActionId_eq t objectlib index actionIndex
  | final t => exact (print_number_zero (.final (finalAction t)) rfl t.label).symm
  | generate r => exact (print_number_zero (.final (ascii "generate")) rfl r.label).symm
  | run t => exact (print_number_zero (.final (ascii "run")) rfl t.label).symm

theorem nodeLabel_of_mem {node : ActionNode} (hnode : node ∈ ownNodes g t) :
    nodeLabel node = t.label := by
  rcases mem_ownNodes hnode with ⟨-, rfl⟩ | ⟨index, -, rfl⟩ | hconsumer | ⟨-, rfl⟩
  · rfl
  · rfl
  · obtain ⟨listIndex, label, objectlib, index, -, -, -, -, rfl⟩ := mem_consumerNodes hconsumer
    rfl
  · rfl

theorem compileShape_valid (t owner : Target) (index actionIndex : Nat) :
    (compileShape t owner index actionIndex).Valid := by
  unfold compileShape
  split
  · trivial
  · split_ifs <;> trivial

theorem nodeShape_valid {node : ActionNode} (hkind : hasNoToolchain t = false)
    (hnode : node ∈ ownNodes g t) : (nodeShape node).Valid := by
  rcases mem_ownNodes hnode with ⟨-, rfl⟩ | ⟨index, -, rfl⟩ | hconsumer | ⟨hobjectlib, rfl⟩
  · trivial
  · exact compileShape_valid t t index index
  · obtain ⟨listIndex, label, objectlib, index, -, -, -, -, rfl⟩ := mem_consumerNodes hconsumer
    exact compileShape_valid t objectlib index _
  · exact finalAction_mem hkind hobjectlib

/-- An offset into concatenated lists tells the list and the position in it. -/
theorem offset_inj {sizes : List Nat} {i j a b m n : Nat} (hi : sizes[i]? = some a)
    (hj : sizes[j]? = some b) (hm : m < a) (hn : n < b)
    (h : (sizes.take i).sum + m = (sizes.take j).sum + n) : i = j ∧ m = n := by
  induction sizes generalizing i j with
  | nil => simp at hi
  | cons size rest ih =>
    cases i with
    | zero =>
      cases j with
      | zero => exact ⟨rfl, by simpa using h⟩
      | succ j =>
        simp only [List.getElem?_cons_zero, Option.some.injEq] at hi
        simp only [List.take_zero, List.sum_nil, List.take_succ_cons, List.sum_cons] at h
        omega
    | succ i =>
      cases j with
      | zero =>
        simp only [List.getElem?_cons_zero, Option.some.injEq] at hj
        simp only [List.take_zero, List.sum_nil, List.take_succ_cons, List.sum_cons] at h
        omega
      | succ j =>
        simp only [List.take_succ_cons, List.sum_cons] at h
        have hrest := ih (by simpa using hi) (by simpa using hj) (by omega)
        exact ⟨by omega, hrest.2⟩

/-- The number of a consumer-context compile tells the library and its source. -/
theorem consumerCompileIndex_inj {i j m n : Nat} {label label' : Bytes} {o o' : Target}
    (hi : t.objects[i]? = some label) (hj : t.objects[j]? = some label')
    (ho : findTarget g label = some o) (ho' : findTarget g label' = some o')
    (hm : m < o.sources.length) (hn : n < o'.sources.length)
    (h : consumerCompileIndex g t i m = consumerCompileIndex g t j n) : o = o' ∧ m = n := by
  have hsum : ((t.objects.map (objectlibSources g)).take i).sum + m =
      ((t.objects.map (objectlibSources g)).take j).sum + n := by
    unfold consumerCompileIndex at h
    rw [← List.map_take, ← List.map_take]
    omega
  have hsize : (t.objects.map (objectlibSources g))[i]? = some o.sources.length := by
    simp [hi, objectlibSources, ho]
  have hsize' : (t.objects.map (objectlibSources g))[j]? = some o'.sources.length := by
    simp [hj, objectlibSources, ho']
  obtain ⟨rfl, rfl⟩ := offset_inj hsize hsize' hm hn hsum
  rw [hi, Option.some.injEq] at hj
  subst hj
  rw [ho, Option.some.injEq] at ho'
  exact ⟨ho', rfl⟩

theorem compileShape_inj_own {i j : Nat} (h : compileShape t t i i = compileShape t t j j) :
    i = j := by
  rcases compileShape_inj h with ⟨batch, hi, hj⟩ | ⟨-, -, hij⟩
  · exact unity_leader_unique (leadsBatch_own.mp hi) (leadsBatch_own.mp hj)
  · exact hij

theorem compileShape_inj_consumer (ht : t ∈ g.targets) {node node' : ActionNode}
    (hnode : node ∈ consumerNodes g t) (hnode' : node' ∈ consumerNodes g t)
    (h : nodeShape node = nodeShape node') : node = node' := by
  obtain ⟨i, label, o, m, hlabel, ho, hm, -, rfl⟩ := mem_consumerNodes hnode
  obtain ⟨j, label', o', n, hlabel', ho', hn, -, rfl⟩ := mem_consumerNodes hnode'
  have hlead := leadsBatch_consumer (objects_ne_self ht (List.mem_of_getElem? hlabel) ho) m
  rcases compileShape_inj h with ⟨batch, hbatch, -⟩ | ⟨-, -, hindex⟩
  · rw [hlead] at hbatch
    cases hbatch
  · obtain ⟨rfl, rfl⟩ := consumerCompileIndex_inj hlabel hlabel' ho ho' hm hn hindex
    rw [hindex]

/-- Own compiles count below the sources, consumer-context compiles past them. -/
theorem compileShape_ne_consumer (ht : t ∈ g.targets) {index : Nat}
    (hindex : index < t.sources.length) {node : ActionNode} (hnode : node ∈ consumerNodes g t) :
    compileShape t t index index ≠ nodeShape node := by
  obtain ⟨j, label, o, n, hlabel, ho, -, -, rfl⟩ := mem_consumerNodes hnode
  have hlead := leadsBatch_consumer (objects_ne_self ht (List.mem_of_getElem? hlabel) ho) n
  intro h
  rcases compileShape_inj h with ⟨batch, -, hbatch⟩ | ⟨-, -, hsame⟩
  · rw [hlead] at hbatch
    cases hbatch
  · have hpast := le_consumerCompileIndex g t j n
    omega

/-- Whether a shape is one of compiles. -/
def IdShape.IsCompile : IdShape → Prop
  | .pch => False
  | .final _ => False
  | _ => True

theorem compileShape_isCompile (t owner : Target) (index actionIndex : Nat) :
    (compileShape t owner index actionIndex).IsCompile := by
  unfold compileShape
  split
  · trivial
  · split_ifs <;> trivial

theorem consumerNodes_isCompile {node : ActionNode} (hnode : node ∈ consumerNodes g t) :
    (nodeShape node).IsCompile := by
  obtain ⟨listIndex, label, objectlib, index, -, -, -, -, rfl⟩ := mem_consumerNodes hnode
  exact compileShape_isCompile t objectlib index _

/-- A node of a target, by whether it compiles a source; a source that another one of its batch
is compiled with counts too. -/
def NodeOf (g : Graph) (t : Target) (node : ActionNode) : Prop :=
  ((nodeShape node).IsCompile ∧
    ((∃ index < t.sources.length, node = .compile t index) ∨ node ∈ consumerNodes g t)) ∨
  (¬(nodeShape node).IsCompile ∧ (node = .cxxPch t ∨ node = .final t))

theorem nodeOf_compile {index : Nat} (hindex : index < t.sources.length) :
    NodeOf g t (.compile t index) :=
  .inl ⟨compileShape_isCompile t t index index, .inl ⟨index, hindex, rfl⟩⟩

theorem nodeOf_consumer {node : ActionNode} (hnode : node ∈ consumerNodes g t) : NodeOf g t node :=
  .inl ⟨consumerNodes_isCompile hnode, .inr hnode⟩

theorem nodeOf_of_mem {node : ActionNode} (hnode : node ∈ ownNodes g t) : NodeOf g t node := by
  rcases mem_ownNodes hnode with ⟨-, rfl⟩ | ⟨index, hindex, rfl⟩ | hconsumer | ⟨-, rfl⟩
  · exact .inr ⟨id, .inl rfl⟩
  · exact nodeOf_compile (mem_ownCompileIndices hindex).1
  · exact nodeOf_consumer hconsumer
  · exact .inr ⟨id, .inr rfl⟩

/-- Among the nodes of a target, the shape of the id tells the node. -/
theorem nodeShape_inj {node node' : ActionNode} (ht : t ∈ g.targets)
    (hnode : NodeOf g t node) (hnode' : NodeOf g t node')
    (h : nodeShape node = nodeShape node') : node = node' := by
  rcases hnode with ⟨hcompile, hcases⟩ | ⟨hother, hcases⟩ <;>
    rcases hnode' with ⟨hcompile', hcases'⟩ | ⟨hother', hcases'⟩
  · rcases hcases with ⟨i, hi, rfl⟩ | hconsumer <;>
      rcases hcases' with ⟨j, hj, rfl⟩ | hconsumer'
    · rw [compileShape_inj_own h]
    · exact absurd h (compileShape_ne_consumer ht hi hconsumer')
    · exact absurd h.symm (compileShape_ne_consumer ht hj hconsumer)
    · exact compileShape_inj_consumer ht hconsumer hconsumer' h
  · exact absurd (h ▸ hcompile) hother'
  · exact absurd (h ▸ hcompile') hother
  · rcases hcases with rfl | rfl <;> rcases hcases' with rfl | rfl
    · rfl
    · cases h
    · cases h
    · rfl

theorem eq_of_label {t' : Target} (ht : t ∈ g.targets) (ht' : t' ∈ g.targets)
    (h : t.label = t'.label) : t = t' := by
  have hfind := findTarget_of_mem ht
  rw [h, findTarget_of_mem ht', Option.some.injEq] at hfind
  exact hfind.symm

/-- A node that compiles or links a target of the graph is known by its id. -/
theorem nodeId_inj {t' : Target} {node node' : ActionNode} (ht : t ∈ g.targets)
    (ht' : t' ∈ g.targets) (hkind : hasNoToolchain t = false) (hkind' : hasNoToolchain t' = false)
    (hnode : node ∈ ownNodes g t) (hnode' : node' ∈ ownNodes g t')
    (h : nodeId node = nodeId node') : node = node' := by
  rw [nodeId_eq, nodeId_eq] at h
  obtain ⟨hlabel, hshape⟩ := IdShape.print_inj (nodeShape_valid hkind hnode)
    (nodeShape_valid hkind' hnode') h
  rw [nodeLabel_of_mem hnode, nodeLabel_of_mem hnode'] at hlabel
  obtain rfl := eq_of_label ht ht' hlabel
  exact nodeShape_inj ht (nodeOf_of_mem hnode) (nodeOf_of_mem hnode') hshape

end Own

end QStar.Lowering
