import QStar.Lowering.Plan

/-!
# Planned and fresh actions

Actions rebuilt from a plan agree with freshly prepared ones in everything but the
key, which takes its output from the recorded outputs and sees a unity source only if
it is on disk. That the keys differ otherwise is up to collisions of their digests.
-/
namespace QStar.Lowering.Agreement

open QStar.Lib.CStrings
open QStar.Lib.Fnv
open QStar.Lib.Results
open QStar.Base
open QStar.BuildGraph
open QStar.Stella
open QStar.Lowering.Plan

/-- The unity source that preparing a node writes. -/
def nodeUnitySource (g : Graph) : ActionNode → Option (Bytes × Bytes)
  | .compile t index => do
    let batch ← leadsBatch t t index
    let sources ← unityBatchSources t batch
    return (unitySourcePath g t batch, unityText sources)
  | _ => none

/-- A provider action for a source lists the object first. -/
def ObjectFirst (g : Graph) : ActionNode → Prop
  | .compile t index => ∀ unit, providerSourceUnit t index = some unit →
      unit.action.outputs.head unit.outputs_ne = objectOutputPath g t index
  | _ => True

/-- The unity source of the node is on disk, as far as keys can tell. -/
def UnityCurrent (h : Host) (g : Graph) (disk : Disk) (now : Nat) (node : ActionNode) : Prop :=
  ∀ path text, nodeUnitySource g node = some (path, text) →
    SameStamp (settingOf h g) path (disk path) (materialize disk now (some (path, text)) path)

section Facts

variable {h : Host} {g : Graph} {t : Target} {tc : Toolchain} {s : CompileSource}
  {node : ActionNode} {a : LoweredAction}

/-- What an action says about its source file, its depfile and the output of its key. -/
structure CompileFacts (g : Graph) (s : CompileSource) (unitySources : List Bytes)
    (a : LoweredAction) : Prop where
  unitySource : a.unitySource = (leadsBatch s.target s.owner s.index).map fun batch =>
    (unitySourcePath g s.target batch, unityText unitySources)
  depfile : a.depfile = s.depfile g
  input : s.input g ∈ a.inputs
  keyOutput : a.outputs.head a.outputs_ne = a.keyOutput

theorem lowerBuiltinSource_facts {source : SourceInfo} {unitySources : List Bytes}
    (ha : lowerBuiltinSource g tc s source unitySources = .ok a) :
    CompileFacts g s unitySources a := by
  simp only [lowerBuiltinSource, bind_eq_ok] at ha
  obtain ⟨tool, -, ⟨modules, bmi⟩, -, usage, -, bmiInputs, -, inputs, hinputs, ha⟩ := ha
  have hinput : s.input g ∈ inputs := subset_pushDependencyUsageInputs hinputs (by simp)
  cases ha
  exact ⟨rfl, rfl, List.mem_append_left _ hinput, rfl⟩

theorem lowerProviderSource_facts {unit : ProviderSourceUnit}
    (ha : lowerProviderSource g tc s unit = .ok a) :
    a.unitySource = none ∧ a.keyOutput = s.object g ∧
      a.outputs.head a.outputs_ne = unit.action.outputs.head unit.action.outputs_ne := by
  unfold lowerProviderSource at ha
  split at ha
  · cases ha
  · simp only [bind_eq_ok] at ha
    obtain ⟨argv, -, usage, -, inputs, -, ha⟩ := ha
    cases ha
    exact ⟨rfl, rfl, rfl⟩

theorem lowerCxxPchAction_facts (ha : lowerCxxPchAction g tc t = .ok a) :
    a.unitySource = none ∧ a.outputs.head a.outputs_ne = a.keyOutput := by
  simp only [lowerCxxPchAction, bind_eq_ok] at ha
  obtain ⟨tool, -, usage, -, inputs, -, ha⟩ := ha
  cases ha
  exact ⟨rfl, rfl⟩

theorem lowerFinalAction_facts (ha : lowerFinalAction g tc t = .ok a) :
    a.unitySource = none ∧ a.outputs.head a.outputs_ne = a.keyOutput := by
  unfold lowerFinalAction at ha
  split at ha
  · simp only [lowerProviderFinal, bind_eq_ok, guard_eq_ok] at ha
    obtain ⟨-, argv, -, usage, -, inputs, -, ha⟩ := ha
    cases ha
    exact ⟨rfl, rfl⟩
  · simp only [bind_eq_ok, guard_eq_ok] at ha
    obtain ⟨-, artifact, -, head, -, own, -, library, -, tail, -, linked, -, inputs, -, outputs,
      -, ha⟩ := ha
    split at ha
    · cases ha
    · cases ha
      exact ⟨rfl, rfl⟩

/-- A source with a provider unit is in no unity batch. -/
theorem leadsBatch_provider {index : Nat} {unit : ProviderSourceUnit}
    (hunit : providerSourceUnit t index = some unit) : leadsBatch t t index = none := by
  cases hlead : leadsBatch t t index with
  | none => rfl
  | some batch =>
    obtain ⟨-, himpl, -, -⟩ := unitySourceInfo_eq_some.mp (leadsBatch_own.mp hlead)
    unfold isImplementation at himpl
    split at himpl
    · simp [hunit] at himpl
    · cases himpl

/-- What keys and files see of a lowered action. -/
structure NodeFacts (g : Graph) (node : ActionNode) (a : LoweredAction) : Prop where
  unitySource : a.unitySource = nodeUnitySource g node
  depfile : ∀ path text, a.unitySource = some (path, text) → a.depfile ≠ path
  input : ∀ path text, a.unitySource = some (path, text) → path ∈ a.inputs
  keyOutput : a.outputs.head a.outputs_ne = a.keyOutput ↔ ObjectFirst g node

theorem NodeFacts.of_plain (hunity : a.unitySource = none)
    (hnone : nodeUnitySource g node = none)
    (hkey : a.outputs.head a.outputs_ne = a.keyOutput ↔ ObjectFirst g node) :
    NodeFacts g node a :=
  ⟨hunity.trans hnone.symm, by simp [hunity], by simp [hunity], hkey⟩

theorem unityDepfilePath_ne (g : Graph) (t : Target) (batch : Nat) :
    unityDepfilePath g t batch ≠ unitySourcePath g t batch := by
  simp [unityDepfilePath, unitySourcePath, unityPath, cxxSubpath, outPath, buildPath, ascii]

theorem lowerNode_facts_compile {index : Nat} (ha : lowerNode h g (.compile t index) = .ok a) :
    NodeFacts g (.compile t index) a := by
  obtain ⟨unitySources, hsources, ⟨unit, hunit, -, hlow⟩ | ⟨hunit, hlow⟩⟩ :=
    lowerCompileAction_cases ha
  · obtain ⟨hunity, hkey, hhead⟩ := lowerProviderSource_facts hlow
    have hlead : leadsBatch t t index = none := leadsBatch_provider hunit
    refine .of_plain hunity (by simp [nodeUnitySource, hlead]) ?_
    have hobject : (ownSource t index).object g = objectOutputPath g t index := by
      simp [CompileSource.object, ownSource, hlead]
    rw [hhead, hkey, hobject]
    constructor
    · intro heq unit' hunit'
      cases hunit.symm.trans hunit'
      exact heq
    · intro hfirst
      exact hfirst unit hunit
  · have hfacts := lowerBuiltinSource_facts hlow
    have hfirst : ObjectFirst g (.compile t index) := by
      intro unit hsome
      rw [show providerSourceUnit t index = none from hunit] at hsome
      cases hsome
    have hkey : a.outputs.head a.outputs_ne = a.keyOutput ↔ ObjectFirst g (.compile t index) :=
      ⟨fun _ => hfirst, fun _ => hfacts.keyOutput⟩
    cases hlead : leadsBatch t t index with
    | none =>
      have hunity := hfacts.unitySource
      simp only [ownSource, hlead, Option.map_none] at hunity
      exact .of_plain hunity (by simp [nodeUnitySource, hlead]) hkey
    | some batch =>
      have hunity := hfacts.unitySource
      have hdepfile := hfacts.depfile
      have hinput := hfacts.input
      simp only [ownSource, hlead, Option.map_some, CompileSource.depfile,
        CompileSource.input] at hunity hdepfile hinput
      have hbatch : unityBatchSources t batch = some unitySources := by
        simp only [CompileSource.unitySources, ownSource, hlead] at hsources
        split at hsources
        · cases hsources
        · cases hsources
          assumption
      refine ⟨?_, ?_, ?_, hkey⟩
      · simp [hunity, nodeUnitySource, hlead, hbatch]
      · intro path text hsome
        rw [hunity] at hsome
        cases hsome
        rw [hdepfile]
        exact unityDepfilePath_ne g t batch
      · intro path text hsome
        rw [hunity] at hsome
        cases hsome
        exact hinput

theorem lowerNode_facts (ht : t ∈ g.targets) (hnode : node ∈ ownNodes g t)
    (ha : lowerNode h g node = .ok a) : NodeFacts g node a := by
  rcases mem_ownNodes hnode with ⟨-, rfl⟩ | ⟨index, -, rfl⟩ | hconsumer | ⟨-, rfl⟩
  · obtain ⟨hunity, hkey⟩ := lowerCxxPchAction_facts ha
    exact .of_plain hunity rfl ⟨fun _ => trivial, fun _ => hkey⟩
  · exact lowerNode_facts_compile ha
  · obtain ⟨listIndex, label, objectlib, index, hlabel, hfind, -, -, rfl⟩ :=
      mem_consumerNodes hconsumer
    have hne := objects_ne_self ht (List.mem_of_getElem? hlabel) hfind
    obtain ⟨object, -, ha⟩ := bind_eq_ok.mp ha
    obtain ⟨unitySources, -, ⟨unit, -, hsame, -⟩ | ⟨-, hlow⟩⟩ := lowerCompileAction_cases ha
    · exact absurd hsame hne
    · have hfacts := lowerBuiltinSource_facts hlow
      have hunity := hfacts.unitySource
      simp only [consumerSource, leadsBatch_consumer hne, Option.map_none] at hunity
      exact .of_plain hunity rfl ⟨fun _ => trivial, fun _ => hfacts.keyOutput⟩
  · obtain ⟨hunity, hkey⟩ := lowerFinalAction_facts ha
    exact .of_plain hunity rfl ⟨fun _ => trivial, fun _ => hkey⟩

end Facts

/-! ## Agreement -/

section Agreement

variable {h h₀ : Host} {g : Graph} {disk : Disk} {now : Nat} {deps : Deps} {t : Target}
  {node : ActionNode} {a : LoweredAction} {f c : Ready} {closure : List Target}
  {plan : List CachedAction} {kind : Bytes}

theorem discover_ok {depInputs : List Bytes}
    (hdeps : (cachePreparedAction (a.prepared [])).discover disk deps = .ok depInputs) :
    ∃ entry, discoverInputs disk deps (if a.wantsDepfile then some a.depfile else none) =
      .ok (depInputs, entry) := by
  unfold CachedAction.discover at hdeps
  by_cases hwants : (cachePreparedAction (a.prepared [])).wantsDepfile = true
  · rw [if_pos hwants] at hdeps
    obtain ⟨⟨inputs, entry⟩, hpush, rfl⟩ := map_eq_ok.mp hdeps
    rw [if_pos (show a.wantsDepfile = true from hwants)]
    exact ⟨entry, hpush⟩
  · rw [if_neg hwants] at hdeps
    cases hdeps
    rw [if_neg (show ¬a.wantsDepfile = true from hwants)]
    exact ⟨none, rfl⟩

/-- Writing the unity source does not change what the depfile lists. -/
theorem discoverInputs_materialize {depInputs depInputs' : List Bytes}
    {entry entry' : Option DepEntry} {depfile : Option Bytes} {unity : Option (Bytes × Bytes)}
    (hne : ∀ path text, unity = some (path, text) → depfile ≠ some path)
    (hcached : discoverInputs disk deps depfile = .ok (depInputs, entry))
    (hfresh : discoverInputs (materialize disk now unity) deps depfile = .ok (depInputs', entry')) :
    depInputs = depInputs' := by
  obtain ⟨hinputs, -, -⟩ := discoverInputs_ok_iff.mp hcached
  obtain ⟨hinputs', -, -⟩ := discoverInputs_ok_iff.mp hfresh
  rw [hinputs, hinputs']
  cases depfile with
  | none => rfl
  | some path =>
    have hsame : materialize disk now unity path = disk path := by
      refine materialize_ne ?_
      rintro source text hunity rfl
      exact hne _ text hunity rfl
    rw [Option.bind_some, Option.bind_some, hsame]

/-- An action without a depfile discovers nothing. -/
theorem discovered_nil {depInputs : List Bytes} {entry : Option DepEntry}
    (hwants : a.wantsDepfile = false)
    (hdeps : discoverInputs disk deps (if a.wantsDepfile then some a.depfile else none) =
      .ok (depInputs, entry)) : depInputs = [] := by
  rw [hwants] at hdeps
  cases hdeps
  rfl

/-- The two routes give one action, but the keys may name other outputs and see other files. -/
theorem prepared_same (hclosure : ∀ t ∈ closure, t ∈ g.targets)
    (hplan : prepareLoweredActionCache h₀ g closure = .ok plan) (ht : t ∈ closure)
    (hkind : hasNoToolchain t = false) (hnode : node ∈ ownNodes g t)
    (ha : lowerNode h g node = .ok a) (hfresh : prepareLowered disk now deps a = .ok f)
    (hcached : prepareCachedAction disk deps plan t (resolveToolchain g t) (nodeId node) kind =
      .ok (some c)) :
    c = ⟨f.action, a.outputs.head a.outputs_ne, disk⟩ ∧
      f = ⟨f.action, a.keyOutput, materialize disk now a.unitySource⟩ ∧
      a.inputs ⊆ f.action.inputs := by
  have hfacts := lowerNode_facts (hclosure t ht) hnode ha
  obtain ⟨depInputs, entry, hdeps, rfl⟩ := prepareLowered_ok hfresh
  unfold prepareCachedAction at hcached
  split at hcached
  · cases hcached
  · rename_i record hrecord
    obtain rfl := findCachedAction_eq hclosure hplan ht hkind hnode ha hrecord
    split at hcached
    · cases hcached
    · rename_i hfits
      obtain ⟨depInputs', hdiscover, hcached⟩ := bind_eq_ok.mp hcached
      cases hcached
      obtain ⟨entry', hdeps'⟩ := discover_ok hdiscover
      obtain rfl : depInputs' = depInputs := by
        refine discoverInputs_materialize ?_ hdeps' hdeps
        intro path text hunity hdepfile
        split at hdepfile
        · exact hfacts.depfile path text hunity (Option.some.inj hdepfile)
        · cases hdepfile
      have howner : a.owner = t.label := by
        simp only [CachedAction.fits, Bool.not_eq_false, Bool.and_eq_true, decide_eq_true_eq]
          at hfits
        exact hfits.1.1.1
      have hinputs : (if a.wantsDepfile = true then appendUnique a.inputs depInputs'
          else a.inputs) = appendUnique a.inputs depInputs' := by
        split
        · rfl
        · rename_i hwants
          rw [discovered_nil (by simpa using hwants) hdeps', appendUnique_nil]
      have hhead : a.outputs.headD [] = a.outputs.head a.outputs_ne := by
        rw [List.headD_eq_head?_getD, List.head?_eq_some_head a.outputs_ne, Option.getD_some]
      have hstatic : without a.inputs [] = a.inputs := without_eq_self (by simp)
      simp only [cachePreparedAction, LoweredAction.prepared, appendUnique_nil, hstatic, hinputs,
        hhead, ← howner, ← lowerNode_toolchain hnode ha]
      refine ⟨trivial, trivial, ?_⟩
      exact fun x hx => mem_appendUnique.mpr (.inl hx)

/-- What `scheduler_prepare_process_node` asks of a record. -/
def nodeKind : ActionNode → Bytes
  | .final t => finalAction t
  | _ => ascii "compile"

/-- The action of a node rebuilt from the plan of a closure and the one prepared directly,
where both succeed. The plan may have been made where other files can be executed. -/
def bothRoutes (h₀ h : Host) (g : Graph) (disk : Disk) (now : Nat) (deps : Deps)
    (closure : List Target) (t : Target) (node : ActionNode) : Option (Ready × Ready) := do
  let plan ← (prepareLoweredActionCache h₀ g closure).toOption
  let a ← (lowerNode h g node).toOption
  let f ← (prepareLowered disk now deps a).toOption
  let planned ← (prepareCachedAction disk deps plan t (resolveToolchain g t) (nodeId node)
    (nodeKind node)).toOption
  let c ← planned
  return (c, f)

theorem bothRoutes_eq_some
    (hboth : bothRoutes h₀ h g disk now deps closure t node = some (c, f)) :
    ∃ plan a, prepareLoweredActionCache h₀ g closure = .ok plan ∧ lowerNode h g node = .ok a ∧
      prepareLowered disk now deps a = .ok f ∧
      prepareCachedAction disk deps plan t (resolveToolchain g t) (nodeId node)
        (nodeKind node) = .ok (some c) := by
  simp only [bothRoutes, Option.bind_eq_bind, Option.bind_eq_some_iff, toOption_eq_some] at hboth
  obtain ⟨plan, hplan, a, ha, f', hfresh, planned, hcached, c', rfl, hpair⟩ := hboth
  cases hpair
  exact ⟨plan, a, hplan, ha, hfresh, hcached⟩

/-- The streams digested for the key of a prepared action. -/
def readyDigested (h : Host) (g : Graph) (r : Ready) : List Bytes := (r.material h g).digested

/-- The same command, environment, outputs, depfile, inputs in order, and key. -/
structure Agrees (h : Host) (g : Graph) (c f : Ready) : Prop where
  argv : c.action.argv = f.action.argv
  env : c.action.env = f.action.env
  outputs : c.action.outputs = f.action.outputs
  depfile : c.action.depfile = f.action.depfile
  inputs : c.action.inputs = f.action.inputs
  key : c.key h g = f.key h g

/-- Equal keys of one action name the same output and see the same inputs, unless they
collide. -/
theorem key_inj (haction : c.action = f.action)
    (hnone : ¬Collide (readyDigested h g c) (readyDigested h g f))
    (hkey : c.key h g = f.key h g) :
    c.keyOutput = f.keyOutput ∧
      ∀ rel ∈ f.action.inputs, SameStamp (settingOf h g) rel (c.disk rel) (f.disk rel) := by
  have hsame : SameMaterial (c.material h g) (f.material h g) :=
    sameMaterial_of_key hnone (by simp [Ready.material, PreparedAction.keyed, haction])
      (by simp [Ready.material, PreparedAction.keyed, haction])
      (by simp [Ready.material, PreparedAction.keyed, haction]) hkey
  have hstreams : fileStreams (settingOf h g) c.disk c.action.inputs =
      fileStreams (settingOf h g) f.disk f.action.inputs := hsame.inputs
  rw [haction] at hstreams
  exact ⟨hsame.output, List.map_inj_left.mp hstreams⟩

/-- Where the unity source is on disk, writing it changes nothing keys can tell. -/
theorem sameStamp_materialize (hcurrent : UnityCurrent h g disk now node) (rel : Bytes) :
    SameStamp (settingOf h g) rel (disk rel)
      (materialize disk now (nodeUnitySource g node) rel) := by
  cases hunity : nodeUnitySource g node with
  | none => rfl
  | some source =>
    obtain ⟨path, text⟩ := source
    by_cases hrel : rel = path
    · rw [hrel]
      exact hcurrent path text hunity
    · rw [materialize_ne]
      · rfl
      · intro source text' hsome
        cases hsome
        exact hrel

/-- An action rebuilt from the plan is the freshly prepared one. Their keys are equal if the
object comes first among the outputs and the unity source is on disk, and only then unless
digests collide. -/
theorem planned_agrees_iff (hclosure : ∀ t ∈ closure, t ∈ g.targets) (ht : t ∈ closure)
    (hkind : hasNoToolchain t = false) (hnode : node ∈ ownNodes g t)
    (hboth : bothRoutes h₀ h g disk now deps closure t node = some (c, f)) :
    c.action = f.action ∧
    (ObjectFirst g node ∧ UnityCurrent h g disk now node → Agrees h g c f) ∧
    (Agrees h g c f → (ObjectFirst g node ∧ UnityCurrent h g disk now node) ∨
      Collide (readyDigested h g c) (readyDigested h g f)) := by
  obtain ⟨plan, a, hplan, ha, hfresh, hcached⟩ := bothRoutes_eq_some hboth
  obtain ⟨hc, hf, hsubset⟩ := prepared_same hclosure hplan ht hkind hnode ha hfresh hcached
  have hfacts := lowerNode_facts (hclosure t ht) hnode ha
  rw [hfacts.unitySource] at hf
  have haction : c.action = f.action := by rw [hc]
  have hcout : c.keyOutput = a.outputs.head a.outputs_ne := by rw [hc]
  have hfout : f.keyOutput = a.keyOutput := by rw [hf]
  have hcdisk : c.disk = disk := by rw [hc]
  have hfdisk : f.disk = materialize disk now (nodeUnitySource g node) := by rw [hf]
  refine ⟨haction, ?_, ?_⟩
  · rintro ⟨hfirst, hcurrent⟩
    have hkey : c.key h g = f.key h g := by
      unfold Ready.key Ready.material
      rw [haction, hcout, hfout, hcdisk, hfdisk, hfacts.keyOutput.mpr hfirst]
      exact actionKey_congr (fun rel _ => sameStamp_materialize hcurrent rel)
        (fun rel _ => sameStamp_materialize hcurrent rel)
    exact ⟨by rw [haction], by rw [haction], by rw [haction], by rw [haction], by rw [haction], hkey⟩
  · intro hagrees
    by_cases hcollide : Collide (readyDigested h g c) (readyDigested h g f)
    · exact .inr hcollide
    · obtain ⟨houtput, hinputs⟩ := key_inj haction hcollide hagrees.key
      rw [hcout, hfout] at houtput
      rw [hcdisk, hfdisk] at hinputs
      refine .inl ⟨hfacts.keyOutput.mp houtput, ?_⟩
      intro path text hunity
      rw [← hunity]
      exact hinputs path (hsubset (hfacts.input path text (hfacts.unitySource.trans hunity)))

end Agreement

/-! ## A provider action that lists a header before its object -/

def generatorUnit : ProviderSourceUnit where
  sourceIndex := 0
  provider := ascii "gen"
  toolsetRole := ascii "gen.compiler"
  action :=
    { argv := [ascii "/bin/genc", ascii "a.gen"]
      env := []
      inputs := [ascii "a.gen"]
      outputs := [ascii "build/a.h", ascii "build/out/___app/obj0.o"]
      depfile := []
      wantsDepfile := false
      outputs_ne := by simp }

def generatorTarget : Target where
  label := ascii "//:app"
  name := ascii "app"
  kind := .exe
  sources := [ascii "a.gen", ascii "b.c"]
  providerSources := [generatorUnit]
  label_ne := app_label_ne
  sources_lt := by decide

def generatorGraph : Graph where
  host := ascii "linux"
  platform := []
  buildDir := ascii "build"
  targets := [generatorTarget]
  genrules := []
  stages := []
  toolsets := []
  languages := [ascii "gen"]
  labels_nodup := by decide
  objectlib_objects := by decide
  objects_objectlib := by decide

/-- Both routes for a node, on an empty disk. -/
def generatorRoutes (node : ActionNode) : Option (Ready × Ready) :=
  bothRoutes ⟨fun _ => none, fun _ => false⟩ ⟨fun _ => none, fun _ => false⟩ generatorGraph
    (fun _ => none) 0 [] [generatorTarget] generatorTarget node

theorem generator_nodes : ownNodes generatorGraph generatorTarget =
    [.compile generatorTarget 0, .compile generatorTarget 1, .final generatorTarget] := rfl

theorem planned_agrees_source :
    ∃ c f, generatorRoutes (.compile generatorTarget 1) = some (c, f) ∧ c.action = f.action ∧
      (ObjectFirst generatorGraph (.compile generatorTarget 1) ∧
          UnityCurrent ⟨fun _ => none, fun _ => false⟩ generatorGraph (fun _ => none) 0
            (.compile generatorTarget 1) →
        Agrees ⟨fun _ => none, fun _ => false⟩ generatorGraph c f) := by
  have hsome : (generatorRoutes (.compile generatorTarget 1)).isSome = true := by decide
  obtain ⟨⟨c, f⟩, hboth⟩ := Option.isSome_iff_exists.mp hsome
  have hagrees := planned_agrees_iff (by simp [generatorGraph]) (by simp) (by decide)
    (by simp [generator_nodes]) hboth
  exact ⟨c, f, hboth, hagrees.1, hagrees.2.1⟩

/-- The rebuilt action of `a.gen` has the key of its header, the fresh one that of its object. -/
theorem planned_key_differs :
    ∃ c f, generatorRoutes (.compile generatorTarget 0) = some (c, f) ∧
      c.key ⟨fun _ => none, fun _ => false⟩ generatorGraph ≠
        f.key ⟨fun _ => none, fun _ => false⟩ generatorGraph := by
  have hdiffers : (generatorRoutes (.compile generatorTarget 0)).map (fun routes =>
      decide (routes.1.key ⟨fun _ => none, fun _ => false⟩ generatorGraph =
        routes.2.key ⟨fun _ => none, fun _ => false⟩ generatorGraph)) = some false := by
    decide +kernel
  obtain ⟨⟨c, f⟩, hboth, hkeys⟩ := Option.map_eq_some_iff.mp hdiffers
  exact ⟨c, f, hboth, of_decide_eq_false hkeys⟩

end QStar.Lowering.Agreement
