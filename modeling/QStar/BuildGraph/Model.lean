import QStar.Base.Paths
import QStar.Base.StringLists

/-!
# The evaluated graph

Targets, generated actions, stages and toolsets as evaluation leaves them. Labels
are canonical: no two declarations share one, and none is empty. Absent strings
are empty. Fields that only messages, listings and other subsystems read are left
out, and so are buffer limits.
-/
namespace QStar.BuildGraph

open QStar.Lib.CStrings
open QStar.Base

/-- The kinds of `target_rules`; any other text is a kind without a rule. -/
inductive TargetKind where
  | exe
  | test
  | staticlib
  | sharedlib
  | objectlib
  | runTarget
  | group
  | interface
  | imported
  | tool
  | target
  | other (name : Bytes)
  deriving DecidableEq

/-- `struct qstar_provider_action_template`; evaluation rejects one whose outputs lack the
path it has to produce. -/
structure ActionTemplate where
  argv : List Bytes
  env : List Bytes
  inputs : List Bytes
  outputs : List Bytes
  depfile : Bytes
  wantsDepfile : Bool
  outputs_ne : outputs ≠ []

/-- `struct qstar_provider_source_unit` -/
structure ProviderSourceUnit where
  sourceIndex : Nat
  provider : Bytes
  toolsetRole : Bytes
  action : ActionTemplate

theorem ProviderSourceUnit.outputs_ne (unit : ProviderSourceUnit) : unit.action.outputs ≠ [] :=
  unit.action.outputs_ne

/-- `struct qstar_provider_artifact_descriptor` -/
structure ProviderArtifact where
  id : Bytes
  type : Bytes
  path : Bytes
  primary : Bool
  secondary : Bool
  runtime : Bool
  linkInterface : Bool

/-- `struct qstar_provider_final_action` -/
structure ProviderFinal where
  api : Bytes
  provider : Bytes
  inputOwnership : List Bytes
  artifacts : List ProviderArtifact
  action : ActionTemplate

/-- `struct qstar_imported_artifact` -/
structure ImportedArtifact where
  platform : Bytes
  id : Bytes
  role : Bytes
  path : Bytes
  primary : Bool

/-- `struct qstar_target` -/
structure Target where
  label : Bytes
  name : Bytes
  kind : TargetKind
  sources : List Bytes := []
  objects : List Bytes := []
  providerSources : List ProviderSourceUnit := []
  providerFinal : Option ProviderFinal := none
  publicHeaders : List Bytes := []
  privateHeaders : List Bytes := []
  includeDirs : List Bytes := []
  privateIncludeDirs : List Bytes := []
  publicIncludeDirs : List Bytes := []
  interfaceIncludeDirs : List Bytes := []
  systemIncludeDirs : List Bytes := []
  deps : List Bytes := []
  privateDeps : List Bytes := []
  libs : List Bytes := []
  libDirs : List Bytes := []
  frameworks : List Bytes := []
  linkOptions : List Bytes := []
  linkInputs : List Bytes := []
  compileUsageOptions : List Bytes := []
  compileUsageInputs : List Bytes := []
  linkUsageOptions : List Bytes := []
  linkUsageInputs : List Bytes := []
  importedArtifacts : List ImportedArtifact := []
  cflags : List Bytes := []
  cxxflags : List Bytes := []
  asmIncludeDirs : List Bytes := []
  asmCompileOptions : List Bytes := []
  runInputs : List Bytes := []
  runCommand : List Bytes := []
  artifactName : Bytes := []
  toolPath : Bytes := []
  compileContext : Bytes := []
  cxxStandard : Bytes := []
  cxxPrecompiledHeader : Bytes := []
  runExpectContains : Bytes := []
  runExpectFile : Bytes := []
  asmPreprocess : Bool := false
  cxxModulesEnabled : Bool := false
  cxxUnityEnabled : Bool := false
  cxxUnityBatchSize : Int := 0
  toolset : Bytes := []
  cacheable : Bool := true
  label_ne : label ≠ []
  /-- A `size_t` counts the sources. -/
  sources_lt : sources.length < 2 ^ 64

/-- `struct qstar_genrule`; validation rejects one without outputs. -/
structure Genrule where
  label : Bytes
  tool : Bytes
  toolset : Bytes
  configHeader : Bool
  inputs : List Bytes
  outputs : List Bytes
  outputGroups : List Bytes
  outputFormats : List Bytes
  args : List Bytes
  cacheable : Bool := true
  label_ne : label ≠ []
  outputs_ne : outputs ≠ []

/-- `struct qstar_stage` -/
structure Stage where
  label : Bytes
  root : Bytes
  srcs : List Bytes
  dsts : List Bytes := []

/-- `struct qstar_tool_role` -/
structure ToolRole where
  role : Bytes
  argv : List Bytes

/-- `struct qstar_toolset` -/
structure Toolset where
  label : Bytes
  roles : List ToolRole
  pathTools : List Bytes
  responseFileTools : List Bytes
  responseFiles : Bytes
  responseStyle : Bytes
  allowAbsoluteTools : Bytes

/-- `struct qstar_graph` -/
structure Graph where
  /-- The platform qstar was compiled for. -/
  host : Bytes
  /-- `qstar_graph_platform` -/
  platform : Bytes
  /-- `qstar_graph_build_dir` -/
  buildDir : Bytes
  targets : List Target
  genrules : List Genrule
  stages : List Stage
  toolsets : List Toolset
  /-- The namespaces of the providers that are not built in. -/
  languages : List Bytes
  /-- The aliases of the external packages. -/
  packages : List Bytes := []
  labels_nodup : (targets.map Target.label ++ genrules.map Genrule.label).Nodup
  /-- `validate_objectlib_target` -/
  objectlib_objects : ∀ t ∈ targets, t.kind = .objectlib → t.objects = []
  /-- `validate_object_consumers` -/
  objects_objectlib : ∀ t ∈ targets, ∀ label ∈ t.objects,
    ∃ o ∈ targets, o.label = label ∧ o.kind = .objectlib

/-! The invariants of graphs and targets that leave lists empty, and of the programs that several
graphs below are about -/

theorem Target.no_sources_lt : ([] : List Bytes).length < 2 ^ 64 := by decide

theorem Target.main_source_lt : [ascii "main.c"].length < 2 ^ 64 := by decide

theorem Target.a_source_lt : [ascii "a.c"].length < 2 ^ 64 := by decide

theorem app_label_ne : ascii "//:app" ≠ [] := by decide

theorem Graph.no_labels_nodup :
    (([] : List Target).map Target.label ++ ([] : List Genrule).map Genrule.label).Nodup :=
  List.nodup_nil

theorem Graph.no_objectlib_objects :
    ∀ t ∈ ([] : List Target), t.kind = .objectlib → t.objects = [] := nofun

theorem Graph.no_objects_objectlib : ∀ t ∈ ([] : List Target), ∀ label ∈ t.objects,
    ∃ o ∈ ([] : List Target), o.label = label ∧ o.kind = .objectlib := nofun

/-- `find_target` -/
def findTarget (g : Graph) (label : Bytes) : Option Target :=
  g.targets.find? fun t => t.label = label

/-- `qstar_graph_find_genrule` -/
def findGenrule (g : Graph) (label : Bytes) : Option Genrule :=
  g.genrules.find? fun r => r.label = label

/-- `qstar_graph_find_stage` -/
def findStage (g : Graph) (label : Bytes) : Option Stage :=
  g.stages.find? fun s => s.label = label

/-- `qstar_graph_find_toolset` -/
def findToolset (g : Graph) (label : Bytes) : Option Toolset :=
  if label = [] then none else g.toolsets.find? fun s => s.label = label

/-- `qstar_graph_find_output_owner` -/
def findOutputOwner (g : Graph) (path : Bytes) : Option Genrule :=
  g.genrules.find? fun r => path ∈ r.outputs

theorem findTarget_label {g : Graph} {label : Bytes} {t : Target}
    (h : findTarget g label = some t) : t.label = label := by
  simpa using List.find?_some h

theorem findTarget_mem {g : Graph} {label : Bytes} {t : Target}
    (h : findTarget g label = some t) : t ∈ g.targets :=
  List.mem_of_find?_eq_some h

theorem findGenrule_label {g : Graph} {label : Bytes} {r : Genrule}
    (h : findGenrule g label = some r) : r.label = label := by
  simpa using List.find?_some h

theorem findGenrule_mem {g : Graph} {label : Bytes} {r : Genrule}
    (h : findGenrule g label = some r) : r ∈ g.genrules :=
  List.mem_of_find?_eq_some h

/-- Among items without a repeated name, looking a name up finds its item. -/
theorem find?_of_nodup {α : Type} {name : α → Bytes} {items : List α} {item : α}
    (hnodup : (items.map name).Nodup) (hmem : item ∈ items) :
    items.find? (fun x => decide (name x = name item)) = some item := by
  induction items with
  | nil => cases hmem
  | cons head rest ih =>
    rw [List.map_cons, List.nodup_cons] at hnodup
    rcases List.mem_cons.mp hmem with rfl | hrest
    · simp
    · have hne : name head ≠ name item := by
        intro h
        exact hnodup.1 (h ▸ List.mem_map_of_mem hrest)
      rw [List.find?_cons_of_neg (by simpa using hne)]
      exact ih hnodup.2 hrest

theorem findTarget_of_mem {g : Graph} {t : Target} (h : t ∈ g.targets) :
    findTarget g t.label = some t :=
  find?_of_nodup (List.nodup_append.mp g.labels_nodup).1 h

theorem findGenrule_of_mem {g : Graph} {r : Genrule} (h : r ∈ g.genrules) :
    findGenrule g r.label = some r :=
  find?_of_nodup (List.nodup_append.mp g.labels_nodup).2.1 h

/-- A target does not share its label with a generated action. -/
theorem findGenrule_target {g : Graph} {t : Target} (h : t ∈ g.targets) :
    findGenrule g t.label = none := by
  refine List.find?_eq_none.mpr ?_
  intro r hr
  have hdisjoint := (List.nodup_append.mp g.labels_nodup).2.2 t.label
    (List.mem_map_of_mem h) r.label (List.mem_map_of_mem hr)
  simpa using hdisjoint.symm

/-- No target consumes itself. -/
theorem objects_ne_self {g : Graph} {t o : Target} (ht : t ∈ g.targets) {label : Bytes}
    (hlabel : label ∈ t.objects) (ho : findTarget g label = some o) : o.label ≠ t.label := by
  obtain ⟨o', hmem, rfl, hkind⟩ := g.objects_objectlib t ht label hlabel
  rw [findTarget_of_mem hmem, Option.some.injEq] at ho
  subst ho
  intro heq
  have hsame : o' = t := by
    have hfind := findTarget_of_mem hmem
    rw [heq, findTarget_of_mem ht, Option.some.injEq] at hfind
    exact hfind.symm
  rw [g.objectlib_objects t ht (hsame ▸ hkind)] at hlabel
  cases hlabel

end QStar.BuildGraph
