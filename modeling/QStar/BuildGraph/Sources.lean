import QStar.BuildGraph.Model
import QStar.Lib.Numerals

/-!
# Sources

What a source is, from its suffix or its provider unit, and how C++ sources are
grouped into unity batches and modules.
-/
namespace QStar.BuildGraph

open QStar.Lib.CStrings
open QStar.Lib.Numerals
open QStar.Base

/-- `struct qstar_source_info`, without the fields only listings read. -/
structure SourceInfo where
  language : Bytes
  provider : Bytes
  providerRole : Bytes
  toolsetRole : Bytes
  compileInput : Bool
  headerInput : Bool

def compiled (language provider toolsetRole : String) : SourceInfo :=
  ⟨ascii language, ascii provider, ascii "compiler", ascii toolsetRole, true, false⟩

def header (language provider : String) : SourceInfo :=
  ⟨ascii language, ascii provider, [], [], false, true⟩

def linkObject : SourceInfo := ⟨ascii "object", ascii "native", [], [], false, false⟩

/-- `source_rules` -/
def sourceRules : List (Bytes × SourceInfo) :=
  [(ascii ".c", compiled "c" "c" "c.compiler"),
   (ascii ".cc", compiled "cxx" "cxx" "cxx.compiler"),
   (ascii ".cpp", compiled "cxx" "cxx" "cxx.compiler"),
   (ascii ".cxx", compiled "cxx" "cxx" "cxx.compiler"),
   (ascii ".cppm", compiled "cxx-module" "cxx" "cxx.compiler"),
   (ascii ".ixx", compiled "cxx-module" "cxx" "cxx.compiler"),
   (ascii ".h", header "header" "c"),
   (ascii ".hpp", header "cxx-header" "cxx"),
   (ascii ".hh", header "cxx-header" "cxx"),
   (ascii ".s", compiled "asm" "asm" "asm.compiler"),
   (ascii ".S", compiled "asm-cpp" "asm" "asm.compiler"),
   (ascii ".o", linkObject),
   (ascii ".obj", linkObject)]

/-- `qstar_source_kind_lookup_path` -/
def sourceKindLookupPath (path : Bytes) : Option SourceInfo :=
  (sourceRules.find? fun rule => decide (rule.1 <:+ path)).map Prod.snd

/-- What `qstar_source_classify` leaves behind for a suffix without a rule. -/
def unknownSource : SourceInfo := ⟨ascii "unknown", ascii "unknown", [], [], false, false⟩

/-- `qstar_target_provider_source_unit` -/
def providerSourceUnit (t : Target) (index : Nat) : Option ProviderSourceUnit :=
  t.providerSources.find? fun unit => unit.sourceIndex = index

/-- `qstar_target_source_classify` -/
def sourceClassify (t : Target) (index : Nat) : Option SourceInfo :=
  match t.sources[index]? with
  | none => none
  | some path =>
    match providerSourceUnit t index with
    | none => sourceKindLookupPath path
    | some unit =>
      some ⟨unit.provider, unit.provider, ascii "compiler", unit.toolsetRole, true, false⟩

/-- The classification where its failure is not looked at. -/
def sourceInfo (t : Target) (index : Nat) : SourceInfo := (sourceClassify t index).getD unknownSource

/-- `qstar_source_requires_compile` -/
def requiresCompile (source : SourceInfo) : Bool := source.compileInput

/-- `qstar_source_is_link_object` -/
def isLinkObject (source : SourceInfo) : Bool := source.language = ascii "object"

/-- `qstar_source_is_asm` -/
def isAsm (source : SourceInfo) : Bool := source.provider = ascii "asm" && source.compileInput

/-- `qstar_source_uses_asm_preprocessor` -/
def usesAsmPreprocessor (t : Target) (source : SourceInfo) : Bool :=
  isAsm source && (source.language = ascii "asm-cpp" ||
    (source.language = ascii "asm" && t.asmPreprocess))

/-- `qstar_source_is_cxx_module` -/
def isCxxModule (source : SourceInfo) : Bool :=
  source.provider = ascii "cxx" && source.language = ascii "cxx-module"

/-- `qstar_target_has_compile_provider` -/
def hasCompileProvider (t : Target) (provider : Bytes) : Bool :=
  (List.range t.sources.length).any fun i =>
    match sourceClassify t i with
    | some source => requiresCompile source && source.provider = provider
    | none => false

/-- `qstar_cxx_source_is_module_interface` -/
def isModuleInterface (t : Target) (index : Nat) : Bool :=
  match sourceClassify t index with
  | some source => isCxxModule source
  | none => false

/-- `qstar_cxx_source_is_implementation` -/
def isImplementation (t : Target) (index : Nat) : Bool :=
  match sourceClassify t index with
  | some source =>
    source.provider = ascii "cxx" && source.language = ascii "cxx" &&
      (providerSourceUnit t index).isNone
  | none => false

/-- The size of a unity batch where none is set. -/
def unityBatchSize (t : Target) : Nat :=
  if 0 < t.cxxUnityBatchSize then t.cxxUnityBatchSize.toNat else 8

/-- The number of implementation sources before an index. -/
def implementationsBefore (t : Target) (index : Nat) : Nat :=
  (List.range index).countP fun i => isImplementation t i

/-- `qstar_cxx_unity_source_info`: the batch of a source and whether it leads the batch. -/
def unitySourceInfo (t : Target) (index : Nat) : Option (Nat × Bool) :=
  if t.cxxUnityEnabled && isImplementation t index then
    let ordinal := implementationsBefore t index
    some (ordinal / unityBatchSize t, decide (ordinal % unityBatchSize t = 0))
  else none

/-- `qstar_cxx_unity_batch_sources`; a batch without sources is an error. -/
def unityBatchSources (t : Target) (batch : Nat) : Option (List Bytes) :=
  let implementations := (List.range t.sources.length).filter fun i => isImplementation t i
  let members := (implementations.drop (batch * unityBatchSize t)).take (unityBatchSize t)
  let sources := members.filterMap fun i => t.sources[i]?
  if sources = [] then none else some sources

/-- `qstar_target_provider_final_owns_source` -/
def providerFinalOwnsSource (t : Target) (index : Nat) : Bool :=
  match t.providerFinal with
  | none => false
  | some final =>
    if final.api ≠ ascii "qstar.lang/2" then true
    else
      match providerSourceUnit t index with
      | none => false
      | some unit =>
        unit.provider ≠ [] && decide (unit.provider = final.provider) &&
          decide (ascii "sources" ∈ final.inputOwnership)

/-- `objectlib_uses_consumer_context` -/
def usesConsumerContext (t : Target) : Bool := t.compileContext = ascii "consumer"

/-- `qstar_target_final_action` -/
def finalAction (t : Target) : Bytes :=
  match t.kind with
  | .exe => ascii "link"
  | .test => ascii "link"
  | .staticlib => ascii "archive"
  | .sharedlib => ascii "link-shared"
  | .objectlib => ascii "compile-objects"
  | .runTarget => ascii "run"
  | .group => ascii "group"
  | .interface => ascii "interface"
  | .imported => ascii "imported"
  | .tool => ascii "tool"
  | .target => ascii "materialize"
  | .other _ => ascii "materialize"

theorem isModuleInterface_eq (t : Target) (index : Nat) :
    isModuleInterface t index = isCxxModule (sourceInfo t index) := by
  unfold isModuleInterface sourceInfo
  cases sourceClassify t index with
  | none => decide
  | some source => rfl

theorem unityBatchSize_pos (t : Target) : 0 < unityBatchSize t := by
  unfold unityBatchSize
  split
  · omega
  · decide

theorem sourceClassify_lt {t : Target} {index : Nat} {source : SourceInfo}
    (h : sourceClassify t index = some source) : index < t.sources.length := by
  unfold sourceClassify at h
  split at h
  · cases h
  · rename_i path hpath
    exact (List.getElem?_eq_some_iff.mp hpath).1

/-- What is neither compiled nor a header nor a raw link object has no tool. -/
theorem toolsetRole_of_other {t : Target} {index : Nat}
    (hother : requiresCompile (sourceInfo t index) = false ∧
      isLinkObject (sourceInfo t index) = false)
    (hheader : (sourceInfo t index).headerInput = false) :
    (sourceInfo t index).toolsetRole = [] := by
  have hrules : ∀ rule ∈ sourceRules, requiresCompile rule.2 = false →
      isLinkObject rule.2 = false → rule.2.headerInput = false → rule.2.toolsetRole = [] := by
    decide
  unfold sourceInfo sourceClassify at hother hheader ⊢
  cases hpath : t.sources[index]? with
  | none => rfl
  | some path =>
    cases hunit : providerSourceUnit t index with
    | some unit => simp [hpath, hunit, requiresCompile] at hother
    | none =>
      simp only [hpath, hunit] at hother hheader ⊢
      cases hrule : sourceRules.find? fun rule => decide (rule.1 <:+ path) with
      | none => simp [sourceKindLookupPath, hrule, unknownSource]
      | some rule =>
        simp only [sourceKindLookupPath, hrule, Option.map_some, Option.getD_some] at hother hheader ⊢
        exact hrules rule (List.mem_of_find?_eq_some hrule) hother.1 hother.2 hheader

/-- No suffix of a compiled language is that of a raw link object. -/
theorem isLinkObject_of_compiled {t : Target} {index : Nat}
    (hunit : providerSourceUnit t index = none)
    (hcompiled : requiresCompile (sourceInfo t index) = true) :
    isLinkObject (sourceInfo t index) = false := by
  have hrules : ∀ rule ∈ sourceRules, requiresCompile rule.2 = true →
      isLinkObject rule.2 = false := by decide
  unfold sourceInfo sourceClassify at hcompiled ⊢
  cases hpath : t.sources[index]? with
  | none => simp [hpath, unknownSource, requiresCompile] at hcompiled
  | some path =>
    simp only [hpath, hunit] at hcompiled ⊢
    cases hrule : sourceRules.find? fun rule => decide (rule.1 <:+ path) with
    | none => simp [sourceKindLookupPath, hrule, unknownSource, requiresCompile] at hcompiled
    | some rule =>
      simp only [sourceKindLookupPath, hrule, Option.map_some, Option.getD_some] at hcompiled ⊢
      exact hrules rule (List.mem_of_find?_eq_some hrule) hcompiled

theorem isImplementation_lt {t : Target} {index : Nat} (h : isImplementation t index = true) :
    index < t.sources.length := by
  unfold isImplementation at h
  split at h
  · rename_i source hsource
    exact sourceClassify_lt hsource
  · cases h

/-- Each implementation source counts one further. -/
theorem implementationsBefore_lt {t : Target} {i j : Nat} (hi : isImplementation t i = true)
    (hij : i < j) : implementationsBefore t i < implementationsBefore t j := by
  have hstep : implementationsBefore t (i + 1) = implementationsBefore t i + 1 := by
    simp [implementationsBefore, List.range_succ, hi]
  have hmono : implementationsBefore t (i + 1) ≤ implementationsBefore t j := by
    refine List.Sublist.countP_le ?_
    exact (List.range_sublist.mpr hij)
  omega

theorem implementationsBefore_inj {t : Target} {i j : Nat} (hi : isImplementation t i = true)
    (hj : isImplementation t j = true)
    (h : implementationsBefore t i = implementationsBefore t j) : i = j := by
  rcases Nat.lt_trichotomy i j with hlt | heq | hgt
  · have hless := implementationsBefore_lt hi hlt
    omega
  · exact heq
  · have hless := implementationsBefore_lt hj hgt
    omega

theorem unitySourceInfo_eq_some {t : Target} {index batch : Nat} {leader : Bool} :
    unitySourceInfo t index = some (batch, leader) ↔
      t.cxxUnityEnabled = true ∧ isImplementation t index = true ∧
      implementationsBefore t index / unityBatchSize t = batch ∧
      decide (implementationsBefore t index % unityBatchSize t = 0) = leader := by
  unfold unitySourceInfo
  split
  · rename_i h
    rw [Bool.and_eq_true] at h
    simp [h.1, h.2]
  · rename_i h
    rw [Bool.and_eq_true] at h
    constructor
    · intro hnone
      cases hnone
    · intro hsome
      exact absurd ⟨hsome.1, hsome.2.1⟩ h

/-- A batch has one leader. -/
theorem unity_leader_unique {t : Target} {i j batch : Nat}
    (hi : unitySourceInfo t i = some (batch, true)) (hj : unitySourceInfo t j = some (batch, true)) :
    i = j := by
  obtain ⟨-, himpl, hibatch, hilead⟩ := unitySourceInfo_eq_some.mp hi
  obtain ⟨-, hjmpl, hjbatch, hjlead⟩ := unitySourceInfo_eq_some.mp hj
  refine implementationsBefore_inj himpl hjmpl ?_
  have hidiv := Nat.div_add_mod (implementationsBefore t i) (unityBatchSize t)
  have hjdiv := Nat.div_add_mod (implementationsBefore t j) (unityBatchSize t)
  rw [hibatch, of_decide_eq_true hilead] at hidiv
  rw [hjbatch, of_decide_eq_true hjlead] at hjdiv
  omega

end QStar.BuildGraph
