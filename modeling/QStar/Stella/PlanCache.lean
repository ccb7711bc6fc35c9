import QStar.Lib.Runs
import QStar.Lowering.Plan

/-!
# The plan cache

A build stores the evaluated graph, the plan of its actions, the authoring files
and last the request into four files, each moved into place by a rename, and a
later build with the same request loads the first two. The authoring files stay
as they are here. What a load returns is of one store of its request as long as
no store stops between its first and its last rename while the manifest in place
is of another request.
-/
namespace QStar.Stella.PlanCache

open QStar.Lib.CStrings
open QStar.Lib.Fnv
open QStar.Lib.Runs
open QStar.BuildGraph
open QStar.Lowering.Plan

/-- What a build is asked for; absent strings are empty. -/
structure Request where
  entryFile : Bytes
  label : Bytes
  cliPlatform : Bytes
  packages : List (Bytes × Bytes)
  overrides : List (Bytes × Bytes)
  deriving DecidableEq

/-- `struct cache_file_fp` without its path -/
structure Fingerprint where
  size : Nat
  mtime : Nat
  hash : Nat
  deriving DecidableEq

/-- What all builds of one build directory share while the authoring files stay. -/
structure Workspace where
  version : Bytes
  buildDir : Bytes
  generator : Bytes
  /-- `discover_root_for_cache` -/
  discoverRoot : Bytes → Option Bytes
  /-- `fingerprint_file` -/
  fingerprint : Bytes → Option Fingerprint

/-- `QSTAR_STELLA_CACHE_SCHEMA` -/
def cacheSchema : Bytes := ascii "qstar-stella-plan-cache-v12"

def planAbi : Nat := 16

/-- `label_key` -/
def labelKey (label : Bytes) : Bytes := if label = [] then ascii "<all>" else label

/-- `package_alias_hash` and `project_option_override_hash`, as they are printed -/
def pairHash (pairs : List (Bytes × Bytes)) : Bytes :=
  digest (pairs.flatMap fun p => p.1 ++ [10] ++ (p.2 ++ [10]))

/-- What `json_get_string` reads of a text that `json_string` wrote: control characters without
an escape of their own come back as the letters of a numeric one. -/
def readBack (s : Bytes) : Bytes :=
  s.flatMap fun c =>
    if c < 32 ∧ c ≠ 10 ∧ c ≠ 13 ∧ c ≠ 9 then
      ascii "u00" ++ [hexDigit (c.toNat / 16), hexDigit (c.toNat % 16)]
    else [c]

/-- `manifest.json`, the fields that are compared -/
structure Manifest where
  schema : Bytes
  version : Bytes
  planAbi : Nat
  packageRoot : Bytes
  buildDir : Bytes
  generator : Bytes
  command : Bytes
  label : Bytes
  entryFile : Bytes
  cliPlatform : Bytes
  aliasHash : Bytes
  overrideHash : Bytes

/-- `write_manifest` -/
def writeManifest (w : Workspace) (packageRoot : Bytes) (r : Request) : Manifest where
  schema := cacheSchema
  version := w.version
  planAbi := planAbi
  packageRoot := packageRoot
  buildDir := w.buildDir
  generator := w.generator
  command := ascii "build"
  label := labelKey r.label
  entryFile := r.entryFile
  cliPlatform := r.cliPlatform
  aliasHash := pairHash r.packages
  overrideHash := pairHash r.overrides

/-- `manifest_matches` -/
def manifestMatches (m : Manifest) (w : Workspace) (packageRoot : Bytes) (r : Request) : Bool :=
  readBack m.schema = cacheSchema && readBack m.version = w.version && m.planAbi = planAbi &&
  readBack m.packageRoot = packageRoot && readBack m.buildDir = w.buildDir &&
  readBack m.generator = w.generator && readBack m.command = ascii "build" &&
  readBack m.label = labelKey r.label && readBack m.entryFile = r.entryFile &&
  readBack m.cliPlatform = r.cliPlatform && readBack m.aliasHash = pairHash r.packages &&
  readBack m.overrideHash = pairHash r.overrides

/-- A build that missed the cache: its request, what it evaluated and what it lowered. -/
structure Store where
  request : Request
  graph : Graph
  usesFileGlobs : Bool
  fragments : List Bytes
  actions : List CachedAction

/-- The files under the plan cache directory. -/
structure CacheFiles where
  graph : Option Graph
  actions : Option (Bytes × List CachedAction)
  inputs : Option (List (Bytes × Fingerprint))
  manifest : Option Manifest

/-- A file that `rename_atomic` moves into place. -/
inductive Rename where
  | graph (g : Graph)
  | actions (root : Bytes) (plan : List CachedAction)
  | inputs (fps : List (Bytes × Fingerprint))
  | manifest (m : Manifest)

def Rename.apply (files : CacheFiles) : Rename → CacheFiles
  | .graph g => { files with graph := some g }
  | .actions root plan => { files with actions := some (root, plan) }
  | .inputs fps => { files with inputs := some fps }
  | .manifest m => { files with manifest := some m }

/-- `write_inputs_json`; `none` when an input cannot be read. -/
def inputFingerprints (w : Workspace) (fragments : List Bytes) : Option (List (Bytes × Fingerprint)) :=
  fragments.mapM fun rel => (w.fingerprint rel).map fun fp => (rel, fp)

/-- The renames of `qstar_stella_plan_cache_store`, in order. -/
def storeRenames (w : Workspace) (st : Store) : List Rename :=
  if w.generator ≠ ascii "stella" then []
  else if st.usesFileGlobs then []
  else
    [.graph st.graph, .actions (labelKey st.request.label) st.actions] ++
      match inputFingerprints w st.fragments with
      | none => []
      | some fps =>
        [.inputs fps,
          .manifest (writeManifest w ((w.discoverRoot st.request.entryFile).getD []) st.request)]

/-- `cached_action_shape_ok` -/
def cachedActionShapeOk (a : CachedAction) : Bool :=
  a.id ≠ [] && a.kind ≠ [] && a.targetLabel ≠ [] && a.argv ≠ [] && a.outputs ≠ []

/-- `read_actions_file` -/
def readActions (files : CacheFiles) (label : Bytes) : Option (List CachedAction) :=
  match files.actions with
  | none => none
  | some (root, plan) =>
    if readBack root ≠ labelKey label then none
    else if 1000000 < plan.length then none
    else if plan.all cachedActionShapeOk then some plan else none

/-- `inputs_match` -/
def inputsMatch (w : Workspace) (files : CacheFiles) : Bool :=
  match files.inputs with
  | none => false
  | some fps => fps ≠ [] && fps.all fun f => w.fingerprint f.1 = some f.2

/-- `qstar_stella_plan_cache_try_load`; the graph and the plan of a hit. -/
def tryLoad (w : Workspace) (files : CacheFiles) (r : Request) :
    Option (Graph × List CachedAction) :=
  if w.generator ≠ ascii "stella" then none
  else
    match w.discoverRoot r.entryFile, files.manifest with
    | some root, some m =>
      if manifestMatches m w root r = false then none
      else if files.actions.isNone then none
      else if inputsMatch w files = false then none
      else
        match files.graph, readActions files r.label with
        | some g, some plan => some (g, plan)
        | _, _ => none
    | _, _ => none

/-- A store that stops after the given number of renames. -/
structure StoreEvent where
  store : Store
  renames : Nat

/-- The files with the stores so far and the one whose manifest is in place. -/
structure CacheHistory where
  files : CacheFiles
  stores : List Store
  manifestOf : Option Store

def CacheHistory.start : CacheHistory where
  files := ⟨none, none, none, none⟩
  stores := []
  manifestOf := none

def StoreEvent.done (w : Workspace) (e : StoreEvent) : List Rename :=
  (storeRenames w e.store).take e.renames

def CacheHistory.step (w : Workspace) (s : CacheHistory) (e : StoreEvent) : CacheHistory where
  files := (e.done w).foldl Rename.apply s.files
  stores := e.store :: s.stores
  manifestOf := if (e.done w).length = 4 then some e.store else s.manifestOf

/-- The plan in place is of another label than the request of the store. -/
def OtherLabel (files : CacheFiles) (st : Store) : Prop :=
  ∃ root plan, files.actions = some (root, plan) ∧
    readBack root ≠ readBack (labelKey st.request.label)

/-- The plan in place is the one the store writes. -/
def SamePlan (files : CacheFiles) (st : Store) : Prop :=
  files.actions = some (labelKey st.request.label, st.actions)

/-- A store that stops between its first and its last rename finds no manifest in place, or puts a
plan there that the manifest does not admit, or is of the request of the manifest, or changes
nothing. One that renamed the graph alone leaves the plan that was there before. -/
def StoreEvent.Meets (w : Workspace) (s : CacheHistory) (e : StoreEvent) : Prop :=
  ∀ cur, s.manifestOf = some cur →
    match (e.done w).length with
    | 0 => True
    | 1 => OtherLabel s.files cur ∨ e.store.request = cur.request ∧ SamePlan s.files e.store ∨
        s.files.graph = some e.store.graph
    | 2 | 3 => readBack (labelKey e.store.request.label) ≠ readBack (labelKey cur.request.label) ∨
        e.store.request = cur.request ∨
        s.files.graph = some e.store.graph ∧ SamePlan s.files e.store
    | _ => True

/-- The files of a history belong to one store of the manifest's request, or are not loaded. -/
structure CacheHistory.Sound (w : Workspace) (s : CacheHistory) : Prop where
  bare : s.manifestOf = none → s.files.manifest = none
  manifest : ∀ cur, s.manifestOf = some cur → cur ∈ s.stores ∧
    s.files.manifest =
      some (writeManifest w ((w.discoverRoot cur.request.entryFile).getD []) cur.request)
  paired : ∀ cur, s.manifestOf = some cur → OtherLabel s.files cur ∨
    ∃ st ∈ s.stores, st.request = cur.request ∧ s.files.graph = some st.graph ∧
      SamePlan s.files st

variable {w : Workspace} {s : CacheHistory} {e : StoreEvent}

theorem storeRenames_cases (w : Workspace) (st : Store) : storeRenames w st = [] ∨
    storeRenames w st = [.graph st.graph, .actions (labelKey st.request.label) st.actions] ∨
    ∃ fps, storeRenames w st = [.graph st.graph, .actions (labelKey st.request.label) st.actions,
      .inputs fps,
      .manifest (writeManifest w ((w.discoverRoot st.request.entryFile).getD []) st.request)] := by
  unfold storeRenames
  split
  · exact .inl rfl
  · split
    · exact .inl rfl
    · cases inputFingerprints w st.fragments with
      | none => exact .inr (.inl rfl)
      | some fps => exact .inr (.inr ⟨fps, rfl⟩)

/-- What a store puts in place before it stops. -/
theorem done_cases (w : Workspace) (e : StoreEvent) : e.done w = [] ∨
    e.done w = [.graph e.store.graph] ∨
    (∃ rest, e.done w = .graph e.store.graph ::
      .actions (labelKey e.store.request.label) e.store.actions :: rest ∧
      (rest = [] ∨ ∃ fps, rest = [.inputs fps])) ∨
    ∃ fps, e.done w = [.graph e.store.graph,
      .actions (labelKey e.store.request.label) e.store.actions, .inputs fps,
      .manifest (writeManifest w ((w.discoverRoot e.store.request.entryFile).getD [])
        e.store.request)] := by
  unfold StoreEvent.done
  rcases storeRenames_cases w e.store with hr | hr | ⟨fps, hr⟩
  · exact .inl (by simp [hr])
  · rw [hr]
    match e.renames with
    | 0 => exact .inl rfl
    | 1 => exact .inr (.inl rfl)
    | n + 2 => exact .inr (.inr (.inl ⟨[], by simp, .inl rfl⟩))
  · rw [hr]
    match e.renames with
    | 0 => exact .inl rfl
    | 1 => exact .inr (.inl rfl)
    | 2 => exact .inr (.inr (.inl ⟨[], by simp, .inl rfl⟩))
    | 3 => exact .inr (.inr (.inl ⟨_, rfl, .inr ⟨fps, rfl⟩⟩))
    | n + 4 => exact .inr (.inr (.inr ⟨fps, by simp⟩))

/-- A store that leaves the manifest alone is sound if graph and plan still belong together. -/
theorem sound_of_partial {s' : CacheHistory} (hsound : s.Sound w)
    (hof : s'.manifestOf = s.manifestOf) (hstores : ∀ st ∈ s.stores, st ∈ s'.stores)
    (hmanifest : s'.files.manifest = s.files.manifest)
    (hpair : ∀ cur, s.manifestOf = some cur → OtherLabel s'.files cur ∨
      ∃ st ∈ s'.stores, st.request = cur.request ∧ s'.files.graph = some st.graph ∧
        SamePlan s'.files st) : s'.Sound w := by
  constructor
  · intro hnone
    rw [hmanifest]
    apply hsound.bare
    rwa [hof] at hnone
  · intro cur hcur
    rw [hof] at hcur
    obtain ⟨hmem, hm⟩ := hsound.manifest cur hcur
    exact ⟨hstores cur hmem, by rw [hmanifest, hm]⟩
  · intro cur hcur
    rw [hof] at hcur
    exact hpair cur hcur

/-- Files with the same graph and plan. -/
theorem paired_of_same {s' : CacheHistory} {cur : Store} (hsound : s.Sound w)
    (hcur : s.manifestOf = some cur) (hstores : ∀ st ∈ s.stores, st ∈ s'.stores)
    (hgraph : s'.files.graph = s.files.graph) (hactions : s'.files.actions = s.files.actions) :
    OtherLabel s'.files cur ∨ ∃ st ∈ s'.stores, st.request = cur.request ∧
      s'.files.graph = some st.graph ∧ SamePlan s'.files st := by
  rw [OtherLabel, hactions, hgraph]
  rcases hsound.paired cur hcur with hother | ⟨st, hst, hreq, hg, hplan⟩
  · exact .inl hother
  · refine .inr ⟨st, hstores st hst, hreq, hg, ?_⟩
    rwa [SamePlan, hactions]

/-- What one store keeps. -/
theorem sound_step (hmeets : e.Meets w s) (hsound : s.Sound w) : (s.step w e).Sound w := by
  have hstores : ∀ st ∈ s.stores, st ∈ (s.step w e).stores := fun st hst =>
    List.mem_cons_of_mem _ hst
  have hself : e.store ∈ (s.step w e).stores := List.mem_cons_self
  unfold StoreEvent.Meets at hmeets
  rcases done_cases w e with hd | hd | ⟨rest, hd, hrest⟩ | ⟨fps, hd⟩
  · -- nothing was renamed
    have hfiles : (s.step w e).files = s.files := by simp [CacheHistory.step, hd]
    apply sound_of_partial hsound (by simp [CacheHistory.step, hd]) hstores (by rw [hfiles])
    intro cur hcur
    exact paired_of_same hsound hcur hstores (by rw [hfiles]) (by rw [hfiles])
  · -- the graph alone
    have hfiles : (s.step w e).files = { s.files with graph := some e.store.graph } := by
      simp [CacheHistory.step, hd, Rename.apply]
    apply sound_of_partial hsound (by simp [CacheHistory.step, hd]) hstores (by rw [hfiles])
    intro cur hcur
    have hmeet := hmeets cur hcur
    rw [hd] at hmeet
    rcases hmeet with hother | ⟨hreq, hplan⟩ | hsame
    · rw [hfiles]
      exact .inl hother
    · refine .inr ⟨e.store, hself, hreq, by rw [hfiles], ?_⟩
      rw [hfiles]
      exact hplan
    · exact paired_of_same hsound hcur hstores (by rw [hfiles, hsame]) (by rw [hfiles])
  · -- graph and plan, the manifest not
    have hlength : (e.done w).length = 2 ∨ (e.done w).length = 3 := by
      rw [hd]
      rcases hrest with rfl | ⟨fps, rfl⟩
      · exact .inl rfl
      · exact .inr rfl
    have hfiles : (s.step w e).files.graph = some e.store.graph ∧
        (s.step w e).files.actions = some (labelKey e.store.request.label, e.store.actions) ∧
        (s.step w e).files.manifest = s.files.manifest := by
      rcases hrest with rfl | ⟨fps, rfl⟩ <;> simp [CacheHistory.step, hd, Rename.apply]
    obtain ⟨hgraph, hactions, hmanifest⟩ := hfiles
    have hof : (s.step w e).manifestOf = s.manifestOf := by
      rcases hlength with hl | hl <;> simp [CacheHistory.step, hl]
    apply sound_of_partial hsound hof hstores hmanifest
    intro cur hcur
    have hmeet : readBack (labelKey e.store.request.label) ≠ readBack (labelKey cur.request.label) ∨
        e.store.request = cur.request ∨
        s.files.graph = some e.store.graph ∧ SamePlan s.files e.store := by
      have hmeet := hmeets cur hcur
      rcases hlength with hl | hl <;> rwa [hl] at hmeet
    rcases hmeet with hother | hreq | ⟨hsame, hplan⟩
    · exact .inl ⟨_, _, hactions, hother⟩
    · exact .inr ⟨e.store, hself, hreq, hgraph, hactions⟩
    · exact paired_of_same hsound hcur hstores (by rw [hgraph, hsame]) (by rw [hactions, hplan])
  · -- a complete store
    have hof : (s.step w e).manifestOf = some e.store := by simp [CacheHistory.step, hd]
    constructor
    · intro hnone
      rw [hof] at hnone
      cases hnone
    · intro cur hcur
      rw [hof] at hcur
      cases hcur
      exact ⟨hself, by simp [CacheHistory.step, hd, Rename.apply]⟩
    · intro cur hcur
      rw [hof] at hcur
      cases hcur
      exact .inr ⟨e.store, hself, rfl, by simp [CacheHistory.step, hd, Rename.apply],
        by simp [SamePlan, CacheHistory.step, hd, Rename.apply]⟩

theorem readActions_inv {files : CacheFiles} {label : Bytes} {plan : List CachedAction}
    (h : readActions files label = some plan) :
    ∃ root, files.actions = some (root, plan) ∧ readBack root = labelKey label := by
  unfold readActions at h
  split at h
  · cases h
  · rename_i root found hactions
    split at h
    · cases h
    · rename_i hroot
      split at h
      · cases h
      · split at h
        · cases h
          exact ⟨root, hactions, not_not.mp hroot⟩
        · cases h

/-- What a hit read. -/
theorem tryLoad_inv {files : CacheFiles} {r : Request} {g : Graph} {plan : List CachedAction}
    (h : tryLoad w files r = some (g, plan)) :
    ∃ root m, w.discoverRoot r.entryFile = some root ∧ files.manifest = some m ∧
      manifestMatches m w root r = true ∧ files.graph = some g ∧
      readActions files r.label = some plan := by
  unfold tryLoad at h
  split at h
  · cases h
  · split at h
    · rename_i root m hroot hm
      split at h
      · cases h
      · rename_i hmatch
        split at h
        · cases h
        · split at h
          · cases h
          · split at h
            · rename_i hg hplan
              cases h
              exact ⟨root, m, hroot, hm, by simpa using hmatch, hg, hplan⟩
            · cases h
    · cases h

/-- The manifest a store writes passes for that of a request. -/
def Passes (w : Workspace) (st : Store) (r : Request) : Prop :=
  manifestMatches (writeManifest w ((w.discoverRoot st.request.entryFile).getD []) st.request) w
    ((w.discoverRoot r.entryFile).getD []) r = true

theorem label_of_passes {st : Store} {r : Request} (h : Passes w st r) :
    readBack (labelKey st.request.label) = labelKey r.label := by
  simp only [Passes, manifestMatches, Bool.and_eq_true, decide_eq_true_eq] at h
  exact h.1.1.1.1.2

/-- In a history whose stores meet the condition, the graph and the plan of a hit were written by
one store of the request, where no other request of the history passes for it. -/
theorem plan_cache_hit_sound {w : Workspace} {s : CacheHistory}
    (hrun : ReachableWhere (CacheHistory.step w) (fun s e => e.Meets w s) .start s) (r : Request)
    (hkeys : ∀ st ∈ s.stores, Passes w st r → st.request = r)
    {g : Graph} {plan : List CachedAction} (hhit : tryLoad w s.files r = some (g, plan)) :
    ∃ st ∈ s.stores, st.request = r ∧ st.graph = g ∧ st.actions = plan := by
  have hstart : CacheHistory.start.Sound w := ⟨fun _ => rfl, by rintro _ ⟨⟩, by rintro _ ⟨⟩⟩
  have hsound : s.Sound w :=
    hrun.invariant (CacheHistory.Sound w) hstart fun _ _ hmeets hs => sound_step hmeets hs
  obtain ⟨root, m, hroot, hm, hmatch, hg, hplan⟩ := tryLoad_inv hhit
  obtain ⟨actionRoot, hactions, hlabel⟩ := readActions_inv hplan
  cases hcur : s.manifestOf with
  | none =>
    rw [hsound.bare hcur] at hm
    cases hm
  | some cur =>
    obtain ⟨hmem, hwritten⟩ := hsound.manifest cur hcur
    rw [hwritten] at hm
    cases hm
    have hpasses : Passes w cur r := by
      rw [Passes, hroot]
      exact hmatch
    rcases hsound.paired cur hcur with ⟨other, otherPlan, hother, hne⟩ | ⟨st, hst, hreq, hgraph, hsame⟩
    · rw [hactions] at hother
      cases hother
      exact absurd (hlabel.trans (label_of_passes hpasses).symm) hne
    · refine ⟨st, hst, hreq.trans (hkeys cur hmem hpasses), ?_, ?_⟩
      · rw [hg] at hgraph
        cases hgraph
        rfl
      · rw [SamePlan, hactions] at hsame
        cases hsame
        rfl

def sampleWorkspace : Workspace where
  version := ascii "1.0"
  buildDir := ascii "build"
  generator := ascii "stella"
  discoverRoot := fun _ => some (ascii ".")
  fingerprint := fun _ => some ⟨1, 1, 1⟩

/-- A build of an empty package for a platform. -/
def platformStore (platform : Bytes) : Store where
  request := ⟨ascii "qstar.lua", [], platform, [], []⟩
  graph := {
    host := ascii "linux"
    platform := platform
    buildDir := ascii "build"
    targets := []
    genrules := []
    stages := []
    toolsets := []
    languages := []
    labels_nodup := Graph.no_labels_nodup
    objectlib_objects := Graph.no_objectlib_objects
    objects_objectlib := Graph.no_objects_objectlib }
  usesFileGlobs := false
  fragments := [ascii "qstar.lua"]
  actions := []

def completeStore : CacheHistory :=
  CacheHistory.start.step sampleWorkspace ⟨platformStore (ascii "linux"), 4⟩

/-- The platform of the graph that a request for Linux gets. -/
def loadedPlatform (s : CacheHistory) : Option Bytes :=
  (tryLoad sampleWorkspace s.files (platformStore (ascii "linux")).request).map fun x =>
    x.1.platform

theorem plan_cache_hit_complete : ∃ g plan,
    tryLoad sampleWorkspace completeStore.files (platformStore (ascii "linux")).request =
      some (g, plan) ∧
    ∃ st ∈ completeStore.stores, st.request = (platformStore (ascii "linux")).request ∧
      st.graph = g ∧ st.actions = plan := by
  have hmeets : StoreEvent.Meets sampleWorkspace .start ⟨platformStore (ascii "linux"), 4⟩ := by
    rintro cur ⟨⟩
  have hhit : loadedPlatform completeStore = some (ascii "linux") := by decide
  obtain ⟨⟨g, plan⟩, hload, -⟩ := Option.map_eq_some_iff.mp hhit
  refine ⟨g, plan, hload, plan_cache_hit_sound (.next _ .refl hmeets) _ ?_ hload⟩
  intro st hst _
  rw [List.mem_singleton.mp hst]

/-- A store for another platform stops after its first rename. -/
def stoppedStore : CacheHistory :=
  completeStore.step sampleWorkspace ⟨platformStore (ascii "windows"), 1⟩

/-- The first request then gets the graph of the other platform. -/
theorem graph_of_other_platform : ∃ (w : Workspace) (s : CacheHistory) (r : Request) (g : Graph)
    (plan : List CachedAction), Reachable (CacheHistory.step w) .start s ∧
      tryLoad w s.files r = some (g, plan) ∧
      ¬∃ st ∈ s.stores, st.request = r ∧ st.graph = g ∧ st.actions = plan := by
  have hhit : loadedPlatform stoppedStore = some (ascii "windows") := by decide
  obtain ⟨⟨g, plan⟩, hload, hplatform⟩ := Option.map_eq_some_iff.mp hhit
  refine ⟨sampleWorkspace, stoppedStore, _, g, plan, .next _ (.next _ .refl), hload, ?_⟩
  rintro ⟨st, hst, hreq, rfl, -⟩
  simp only [stoppedStore, completeStore, CacheHistory.step, List.mem_cons] at hst
  rcases hst with rfl | rfl | hst
  · revert hreq
    decide
  · have hne : (platformStore (ascii "linux")).graph.platform ≠ ascii "windows" := by decide
    exact hne hplatform
  · cases hst

end QStar.Stella.PlanCache
