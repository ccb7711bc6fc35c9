import QStar.Authoring.Evaluation
import QStar.Stella.PlanCache

/-!
# Loaded plans and fresh evaluations

The surroundings of a package directory change while builds evaluate its
description, store what they evaluated and load what earlier builds stored. The
stored inputs are the files that evaluation loaded, digested when the store runs.
What a load returns is what evaluation would give now as long as nothing that the
stored evaluation asked of its surroundings has changed unseen.
-/
namespace QStar.Stella.FreshPlans

open QStar.Lib.CStrings
open QStar.Lib.Fnv
open QStar.Lib.Questions
open QStar.Lib.Runs
open QStar.Base
open QStar.BuildGraph
open QStar.Lowering.Plan
open QStar.Authoring
open QStar.Stella.PlanCache

/-- What `write_graph_cache_file` keeps of a declared graph, and the directory that
`qstar.project` names. -/
structure GraphFile (G S : Type) where
  stored : G → S
  projectBuildDir : G → Bytes

/-- The generator `qstar_graph_set_cli_overrides` makes of the requested one. -/
def effectiveGenerator (requested : Bytes) : Bytes :=
  if requested = [] ∨ requested = ascii "auto" then ascii "stella" else requested

/-- `qstar_graph_build_dir` -/
def effectiveBuildDir (override project : Bytes) : Bytes :=
  if override ≠ [] then override else if project ≠ [] then project else ascii "build/qstar"

/-- `full_path` -/
def fullPath (root rel : Bytes) : Bytes := if rel.head? = some 47 then rel else pathJoin root rel

/-- The directory of `cache_full`. -/
def cacheDir (root buildDir : Bytes) : Bytes := fullPath root (buildDir ++ ascii "/stella")

/-- `canonical_platform_context` of an accepted platform; an absent one is empty. -/
def canonicalPlatformContext (platform : Bytes) : Bytes :=
  if platform = ascii "win32" then ascii "windows"
  else if platform = ascii "macos" then ascii "darwin"
  else platform

/-- The fields of `graph.qsg`. -/
structure StoredGraph (S : Type) where
  packageRoot : Bytes
  generator : Bytes
  requestedGenerator : Bytes
  buildDirOverride : Bytes
  platform : Bytes
  packages : List (Bytes × Bytes)
  usesFileGlobs : Bool
  fragments : List Bytes
  declared : S
  deriving DecidableEq

/-- A finished evaluation and where it took place. -/
structure Evaluation (G : Type) where
  evaluated : Evaluated G
  world : World

/-- The files of one complete store. -/
structure Entry (S : Type) where
  graph : StoredGraph S
  label : Bytes
  actions : List CachedAction
  inputs : List (Bytes × Fingerprint)
  manifest : Manifest

/-- `struct cache_file_fp` of a file -/
def sourceFingerprint (f : SourceFile) : Fingerprint where
  size := f.text.length
  mtime := f.mtime * 1000000000 % 2 ^ 64
  hash := (hashBytes hashInit f.text).toNat

/-- `fingerprint_file` -/
def fingerprintFile (w : World) (root rel : Bytes) : Option Fingerprint :=
  (w.file (fullPath root rel)).map sourceFingerprint

/-- `inputs_match` -/
def inputsMatch (w : World) (root : Bytes) (inputs : List (Bytes × Fingerprint)) : Bool :=
  inputs ≠ [] && inputs.all fun f => fingerprintFile w root (readBack f.1) = some f.2

/-- The request the manifest is written for and compared with. -/
def manifestRequest (r : EvalRequest) (label : Bytes) : Request :=
  ⟨r.entryFile, label, r.cliPlatform, r.packages, r.overrides⟩

variable {G V S : Type}

def storedGraph (kept : GraphFile G S) (e : Evaluated G) : StoredGraph S where
  packageRoot := e.packageRoot
  generator := effectiveGenerator e.request.requestedGenerator
  requestedGenerator := e.request.requestedGenerator
  buildDirOverride := e.request.buildDirOverride
  platform := canonicalPlatformContext e.request.cliPlatform
  packages := e.request.packages
  usesFileGlobs := e.usesFileGlobs
  fragments := e.fragments
  declared := kept.stored e.graph

def evaluatedBuildDir (kept : GraphFile G S) (e : Evaluated G) : Bytes :=
  effectiveBuildDir e.request.buildDirOverride (kept.projectBuildDir e.graph)

/-- What of a directory the manifests are compared with. -/
def workspaceOf (version generator buildDir : Bytes) (w : World) (root : Bytes) : Workspace where
  version := version
  buildDir := buildDir
  generator := generator
  discoverRoot := fun file => (discoverRoot file).run w.answer
  fingerprint := fingerprintFile w root

/-- `write_inputs_json` -/
def writeInputs (w : World) (e : Evaluated G) : Option (List (Bytes × Fingerprint)) :=
  e.fragments.mapM fun rel => (fingerprintFile w e.packageRoot rel).map fun fp => (rel, fp)

/-- `qstar_stella_plan_cache_store`; the directory and the files, unless it refuses or stops. -/
def storeEntry (kept : GraphFile G S) (version : Bytes) (w : World) (e : Evaluated G)
    (label : Bytes) (actions : List CachedAction) : Option (Bytes × Entry S) :=
  let generator := effectiveGenerator e.request.requestedGenerator
  if generator ≠ ascii "stella" ∨ e.usesFileGlobs then none
  else
    (writeInputs w e).map fun inputs =>
      (cacheDir e.packageRoot (evaluatedBuildDir kept e),
        { graph := storedGraph kept e
          label := labelKey label
          actions := actions
          inputs := inputs
          manifest := writeManifest
            (workspaceOf version generator (evaluatedBuildDir kept e) w e.packageRoot) e.packageRoot
            (manifestRequest e.request label) })

/-- The manifest of an entry passes for a request. -/
def Entry.passes (entry : Entry S) (version : Bytes) (w : World) (root : Bytes) (r : EvalRequest)
    (label : Bytes) : Bool :=
  manifestMatches entry.manifest
    (workspaceOf version (effectiveGenerator r.requestedGenerator)
      (effectiveBuildDir r.buildDirOverride []) w root) root (manifestRequest r label)

/-- `qstar_stella_plan_cache_try_load` in a directory whose files are all of one store. -/
def tryLoad (version : Bytes) (w : World) (cache : Bytes → Option (Entry S)) (r : EvalRequest)
    (label : Bytes) : Option (StoredGraph S) :=
  if effectiveGenerator r.requestedGenerator ≠ ascii "stella" then none
  else
    match (discoverRoot r.entryFile).run w.answer with
    | none => none
    | some root =>
      match cache (cacheDir root (effectiveBuildDir r.buildDirOverride [])) with
      | none => none
      | some entry =>
        if entry.passes version w root r label = false then none
        else if inputsMatch w root entry.inputs = false then none
        else if (readActions ⟨none, some (entry.label, entry.actions), none, none⟩ label).isNone then
          none
        else some entry.graph

/-- A load that returned a graph. -/
structure Hit (S : Type) where
  request : EvalRequest
  world : World
  loaded : StoredGraph S

/-- A complete store with the evaluation it is of. -/
structure Placed (G S : Type) where
  entry : Entry S
  source : Evaluation G

/-- The surroundings, what has been evaluated and stored, and the loads that hit. -/
structure History (G S : Type) where
  world : World
  evaluations : List (Evaluation G)
  cache : Bytes → Option (Placed G S)
  hits : List (Hit S)

/-- Files and variables change in any way between the steps of builds. -/
inductive Event where
  | change (w : World)
  | evaluate (r : EvalRequest)
  | store (evaluation : Nat) (label : Bytes) (actions : List CachedAction)
  | load (r : EvalRequest) (label : Bytes)

/-- The parts that stay: Lua, the depth its C stack allows, the fields of the graph file and the
version of the program. -/
structure Program (G V S : Type) where
  lua : Lua G V
  depth : Nat
  kept : GraphFile G S
  version : Bytes

def Program.evaluate (p : Program G V S) (w : World) (r : EvalRequest) : Option (Evaluated G) :=
  (evalFile p.lua p.depth r).run w.answer

/-- The questions of an evaluation. -/
def Program.asked (p : Program G V S) (w : World) (r : EvalRequest) : List Question :=
  (evalFile p.lua p.depth r).asked w.answer

def History.entries (s : History G S) (dir : Bytes) : Option (Entry S) :=
  (s.cache dir).map Placed.entry

def History.step (p : Program G V S) (s : History G S) : Event → History G S
  | .change w => { s with world := w }
  | .evaluate r =>
    match p.evaluate s.world r with
    | none => s
    | some e => { s with evaluations := s.evaluations ++ [⟨e, s.world⟩] }
  | .store k label actions =>
    match s.evaluations[k]? with
    | none => s
    | some e =>
      match storeEntry p.kept p.version s.world e.evaluated label actions with
      | none => s
      | some (dir, entry) =>
        { s with cache := Function.update s.cache dir (some ⟨entry, e⟩) }
  | .load r label =>
    match tryLoad p.version s.world s.entries r label with
    | none => s
    | some loaded => { s with hits := s.hits ++ [⟨r, s.world, loaded⟩] }

def History.start (w : World) : History G S := ⟨w, [], fun _ => none, []⟩

/-- Evaluating now gives a graph whose stored fields are the loaded ones. -/
def Hit.Fresh (p : Program G V S) (h : Hit S) : Prop :=
  ∃ e, p.evaluate h.world h.request = some e ∧ storedGraph p.kept e = h.loaded

/-- The files that an evaluation loaded are recorded under names that lead back to them, and have
the texts that were loaded. -/
def Evaluation.Recorded (p : Program G V S) (e : Evaluation G) (w : World) : Prop :=
  ∀ path, Question.text path ∈ p.asked e.world e.evaluated.request →
    w.answer (.text path) = e.world.answer (.text path) ∧
    ∃ rel ∈ e.evaluated.fragments, readBack rel = rel ∧ fullPath e.evaluated.packageRoot rel = path

/-- Nothing an evaluation asked shows a difference: probes, directories, variables and the program
answer as they did, and a loaded file with the size and the digest it had is the file it was. -/
structure Evaluation.Unchanged (p : Program G V S) (e : Evaluation G) (w : World) : Prop where
  probes : ∀ q ∈ p.asked e.world e.evaluated.request, (∀ path, q ≠ .text path) →
    w.answer q = e.world.answer q
  digests : ∀ path, Question.text path ∈ p.asked e.world e.evaluated.request →
    ∀ f old, w.file path = some f → e.world.file path = some old →
      f.text.length = old.text.length → hashBytes hashInit f.text = hashBytes hashInit old.text →
      f.text = old.text

/-- A store finds the files as evaluation loaded them. A load whose manifest passes and whose
inputs match is for the request that was evaluated, and nothing else that evaluation asked has
changed. -/
def Event.Meets (p : Program G V S) (s : History G S) : Event → Prop
  | .change _ | .evaluate _ => True
  | .store k _ _ => ∀ e, s.evaluations[k]? = some e → e.Recorded p s.world
  | .load r label => ∀ root placed,
      (discoverRoot r.entryFile).run s.world.answer = some root →
      s.cache (cacheDir root (effectiveBuildDir r.buildDirOverride [])) = some placed →
      placed.entry.passes p.version s.world root r label = true →
      inputsMatch s.world root placed.entry.inputs = true →
      r = placed.source.evaluated.request ∧ placed.source.Unchanged p s.world

/-- The search for the root only probes. -/
theorem readable_of_mem_findRoot {w : World} {q : Question} {dirs : List Bytes}
    (hq : q ∈ (findRoot dirs).asked w.answer) : ∃ path, q = .readable path := by
  induction dirs with
  | nil => cases hq
  | cons dir rest ih =>
    simp only [findRoot, bind_eq, asked_bind, asked_fileExists, run_fileExists] at hq
    rcases List.mem_append.mp hq with hq | hq
    · exact ⟨_, List.mem_singleton.mp hq⟩
    · cases hfile : (w.file (pathJoin dir (ascii "qstar.lua"))).isSome with
      | true =>
        simp [hfile] at hq
      | false =>
        exact ih (by simpa [hfile] using hq)

/-- Evaluation starts with the search for the root. -/
theorem discoverRoot_asked {lua : Lua G V} {depth : Nat} {r : EvalRequest} {w : World}
    (hsuffix : pathHasSuffix r.entryFile (ascii ".qs") = false) {q : Question}
    (hq : q ∈ (discoverRoot r.entryFile).asked w.answer) :
    q ∈ (evalFile lua depth r).asked w.answer := by
  simp only [evalFile, hsuffix, Bool.false_eq_true, if_false, bind_eq, asked_bind,
    discoverWorkspaceRoot]
  exact List.mem_append_left _ (List.mem_append_left _ hq)

/-- What a successful evaluation says about its request and its root. -/
theorem evaluate_inv {p : Program G V S} {w : World} {r : EvalRequest} {e : Evaluated G}
    (h : p.evaluate w r = some e) : e.request = r ∧
      pathHasSuffix r.entryFile (ascii ".qs") = false ∧
      (discoverRoot r.entryFile).run w.answer = some e.packageRoot := by
  unfold Program.evaluate evalFile at h
  split at h
  · cases h
  · rename_i hsuffix
    simp only [bind_eq, run_bind, discoverWorkspaceRoot] at h
    cases hroot : (discoverRoot r.entryFile).run w.answer with
    | none => simp [hroot] at h
    | some root =>
      simp only [hroot, run_pure] at h
      cases hfragment : workspaceFragment root (dirname r.entryFile) with
      | none => simp [hfragment] at h
      | some fragment =>
        simp only [hfragment, Option.map_some] at h
        split at h
        · cases h
        · rw [run_bind] at h
          split at h
          · cases h
            exact ⟨rfl, by simpa using hsuffix, rfl⟩
          · cases h

/-- What a store recorded of each fragment. -/
theorem writeInputs_mem {w : World} {e : Evaluated G} {inputs : List (Bytes × Fingerprint)}
    (h : writeInputs w e = some inputs) {rel : Bytes} (hrel : rel ∈ e.fragments) :
    ∃ fp, (rel, fp) ∈ inputs ∧ fingerprintFile w e.packageRoot rel = some fp := by
  unfold writeInputs at h
  generalize e.fragments = fragments at h hrel
  induction fragments generalizing inputs with
  | nil => cases hrel
  | cons first rest ih =>
    simp only [List.mapM_cons, Option.bind_eq_bind, Option.bind_eq_some_iff, Option.map_eq_some_iff,
      Option.pure_def, Option.some.injEq] at h
    obtain ⟨_, ⟨fp, hfp, rfl⟩, more, hmore, rfl⟩ := h
    rcases List.mem_cons.mp hrel with rfl | hrel
    · exact ⟨fp, List.mem_cons_self, hfp⟩
    · obtain ⟨fp', hmem, hfp'⟩ := ih hmore hrel
      exact ⟨fp', List.mem_cons_of_mem _ hmem, hfp'⟩

/-- What a load that returns a graph found. -/
theorem tryLoad_inv {version : Bytes} {w : World} {cache : Bytes → Option (Entry S)}
    {r : EvalRequest} {label : Bytes} {loaded : StoredGraph S}
    (h : tryLoad version w cache r label = some loaded) : ∃ root entry,
      (discoverRoot r.entryFile).run w.answer = some root ∧
      cache (cacheDir root (effectiveBuildDir r.buildDirOverride [])) = some entry ∧
      entry.passes version w root r label = true ∧ inputsMatch w root entry.inputs = true ∧
      loaded = entry.graph := by
  unfold tryLoad at h
  split at h
  · cases h
  · split at h
    · cases h
    · rename_i root hroot
      split at h
      · cases h
      · rename_i entry hentry
        split at h
        · cases h
        · rename_i hpasses
          split at h
          · cases h
          · rename_i hinputs
            split at h
            · cases h
            · cases h
              exact ⟨root, entry, hroot, hentry, by simpa using hpasses, by simpa using hinputs, rfl⟩

variable {p : Program G V S} {s : History G S}

/-- A file that was recorded when it had the text evaluation loaded, and that still looks the same,
answers the load as it did. -/
theorem text_answer_of_inputs {e : Evaluation G} {stored w : World} {path root : Bytes}
    {inputs : List (Bytes × Fingerprint)} (hroot : e.evaluated.packageRoot = root)
    (hrecorded : e.Recorded p stored) (hinputs : writeInputs stored e.evaluated = some inputs)
    (hmatch : inputsMatch w root inputs = true) (hunchanged : e.Unchanged p w)
    (hasked : Question.text path ∈ p.asked e.world e.evaluated.request) :
    w.answer (.text path) = e.world.answer (.text path) := by
  subst hroot
  obtain ⟨hanswer, rel, hrel, hread, hfull⟩ := hrecorded path hasked
  obtain ⟨fp, hfp, hstored⟩ := writeInputs_mem hinputs hrel
  simp only [inputsMatch, Bool.and_eq_true, List.all_eq_true, decide_eq_true_eq] at hmatch
  have hnow := hmatch.2 _ hfp
  simp only [fingerprintFile, hread, hfull, Option.map_eq_some_iff] at hnow hstored
  obtain ⟨f, hf, hfpf⟩ := hnow
  obtain ⟨f', hf', hfpf'⟩ := hstored
  have hsame : sourceFingerprint f = sourceFingerprint f' := hfpf.trans hfpf'.symm
  simp only [sourceFingerprint, Fingerprint.mk.injEq] at hsame
  -- the text at the store is the one evaluation loaded
  simp only [World.answer, hf', Option.map_some] at hanswer
  obtain ⟨old, hold, htext⟩ := Option.map_eq_some_iff.mp hanswer.symm
  have hsize : f.text.length = old.text.length := by rw [hsame.1, htext]
  have hhash : hashBytes hashInit f.text = hashBytes hashInit old.text := by
    rw [htext]
    exact UInt64.toNat_inj.mp hsame.2.2
  simp only [World.answer, hf, hold, Option.map_some]
  rw [hunchanged.digests path hasked f old hf hold hsize hhash]

/-- What the steps of a history keep: evaluations are what evaluation gave, and each complete store
is of an evaluation whose files it found as they were loaded. -/
structure History.Sound (p : Program G V S) (s : History G S) : Prop where
  evaluations : ∀ e ∈ s.evaluations, p.evaluate e.world e.evaluated.request = some e.evaluated
  cache : ∀ dir placed, s.cache dir = some placed →
    p.evaluate placed.source.world placed.source.evaluated.request =
        some placed.source.evaluated ∧
      placed.entry.graph = storedGraph p.kept placed.source.evaluated ∧
      ∃ w, placed.source.Recorded p w ∧
        writeInputs w placed.source.evaluated = some placed.entry.inputs
  hits : ∀ h ∈ s.hits, h.Fresh p

/-- A load that meets the condition is fresh. -/
theorem load_fresh (hsound : s.Sound p) {r : EvalRequest} {label : Bytes}
    (hmeets : (Event.load r label).Meets p s) {loaded : StoredGraph S}
    (hload : tryLoad p.version s.world s.entries r label = some loaded) :
    Hit.Fresh p ⟨r, s.world, loaded⟩ := by
  obtain ⟨root, entry, hroot, hentry, hpasses, hmatch, rfl⟩ := tryLoad_inv hload
  obtain ⟨placed, hplaced, rfl⟩ := Option.map_eq_some_iff.mp hentry
  obtain ⟨rfl, hunchanged⟩ := hmeets root placed hroot hplaced hpasses hmatch
  obtain ⟨hevaluate, hgraph, stored, hrecorded, hinputs⟩ := hsound.cache _ placed hplaced
  obtain ⟨-, hsuffix, hsourceRoot⟩ := evaluate_inv hevaluate
  have hsameRoot : placed.source.evaluated.packageRoot = root := by
    have hsearch : (discoverRoot placed.source.evaluated.request.entryFile).run s.world.answer =
        (discoverRoot placed.source.evaluated.request.entryFile).run
          placed.source.world.answer := by
      apply run_congr
      intro q hq
      obtain ⟨path, rfl⟩ := readable_of_mem_findRoot hq
      exact hunchanged.probes _ (discoverRoot_asked hsuffix hq) (by simp)
    rw [hroot, hsourceRoot] at hsearch
    exact (Option.some.inj hsearch).symm
  have hanswers : ∀ q ∈ p.asked placed.source.world placed.source.evaluated.request,
      s.world.answer q = placed.source.world.answer q := by
    intro q hq
    by_cases htext : ∃ path, q = .text path
    · obtain ⟨path, rfl⟩ := htext
      exact text_answer_of_inputs hsameRoot hrecorded hinputs hmatch hunchanged hq
    · exact hunchanged.probes q hq fun path hpath => htext ⟨path, hpath⟩
  have hnow : p.evaluate s.world placed.source.evaluated.request =
      some placed.source.evaluated := by
    rw [← hevaluate]
    exact run_congr hanswers
  exact ⟨_, hnow, hgraph.symm⟩

theorem Event.world_store (p : Program G V S) (s : History G S) (k : Nat) (label : Bytes)
    (actions : List CachedAction) : (s.step p (.store k label actions)).world = s.world := by
  simp only [History.step]
  split
  · rfl
  · split <;> rfl

/-- What one step keeps. -/
theorem sound_step {ev : Event} (hmeets : ev.Meets p s) (hsound : s.Sound p) :
    (s.step p ev).Sound p := by
  cases ev with
  | change w => exact ⟨hsound.evaluations, hsound.cache, hsound.hits⟩
  | evaluate r =>
    simp only [History.step]
    split
    · exact hsound
    · rename_i e he
      refine ⟨?_, hsound.cache, hsound.hits⟩
      intro e' he'
      rcases List.mem_append.mp he' with he' | he'
      · exact hsound.evaluations e' he'
      · cases List.mem_singleton.mp he'
        rw [(evaluate_inv he).1]
        exact he
  | store k label actions =>
    simp only [History.step]
    split
    · exact hsound
    · rename_i e he
      split
      · exact hsound
      · rename_i dir entry hstore
        refine ⟨hsound.evaluations, ?_, hsound.hits⟩
        intro dir' placed hplaced
        dsimp only at hplaced
        by_cases hdir : dir' = dir
        · subst hdir
          rw [Function.update_self] at hplaced
          cases hplaced
          unfold storeEntry at hstore
          simp only at hstore
          split at hstore
          · cases hstore
          · obtain ⟨inputs, hinputs, heq⟩ := Option.map_eq_some_iff.mp hstore
            cases heq
            exact ⟨hsound.evaluations e (List.mem_of_getElem? he), rfl, s.world, hmeets e he,
              hinputs⟩
        · rw [Function.update_of_ne hdir] at hplaced
          exact hsound.cache dir' placed hplaced
  | load r label =>
    simp only [History.step]
    split
    · exact hsound
    · rename_i loaded hload
      refine ⟨hsound.evaluations, hsound.cache, ?_⟩
      intro h hh
      rcases List.mem_append.mp hh with hh | hh
      · exact hsound.hits h hh
      · cases List.mem_singleton.mp hh
        exact load_fresh hsound hmeets hload

/-- In a history whose stores find the files that were evaluated and whose loads find unchanged
what was asked, every load that hits returns what evaluation would give. -/
theorem plan_cache_hits_fresh {start : World}
    (hrun : ReachableWhere (History.step p) (fun s ev => ev.Meets p s) (.start start) s) :
    ∀ h ∈ s.hits, h.Fresh p := by
  have hstart : (History.start start : History G S).Sound p :=
    ⟨by simp [History.start], by simp [History.start], by simp [History.start]⟩
  exact (hrun.invariant (History.Sound p) hstart fun _ _ hmeets hs => sound_step hmeets hs).hits

/-- A Lua whose values are texts: the entry file activates a provider and declares what the
provider exports, which is the text of its implementation. -/
def providerLua : Lua (List Bytes) Bytes where
  load := fun text =>
    some (if text = ascii "use_language" then
      .calls (.useLanguage (ascii "c")) fun
        | none => .raises
        | some exported => .calls (.declare fun _ g => some (exported :: g, [])) fun _ => .returns []
    else .returns text)
  nil := []
  isTable := fun _ => true
  list := fun _ => []
  readonly := id
  manifest := fun _ _ => some (ascii "c.lua")
  activate := fun g _ implementation _ _ => ⟨g, true, some implementation⟩
  start := fun _ => []
  lowerFinals := some

def providerProgram : Program (List Bytes) Bytes (List Bytes) where
  lua := providerLua
  depth := 8
  kept := ⟨id, fun _ => []⟩
  version := ascii "0.7.19-beta"

def sourceFile (text : String) : SourceFile := ⟨ascii text, 0⟩

/-- A package whose provider is found through the environment. -/
def installedProvider : World where
  file := fun path =>
    if path = ascii "qstar.lua" then some (sourceFile "use_language")
    else if path = ascii "/opt/c/c.qsm" then some (sourceFile "manifest")
    else if path = ascii "/opt/c/c.lua" then some (sourceFile "installed")
    else none
  environment := fun _ => some (ascii "/opt")
  names := fun _ => none
  executable := none

/-- The package with a provider of its own, created later. -/
def ownProvider : World :=
  { installedProvider with
    file := fun path =>
      if path = ascii "qstar/languages/c/c.qsm" then some (sourceFile "manifest")
      else if path = ascii "qstar/languages/c/c.lua" then some (sourceFile "own")
      else installedProvider.file path }

def plainRequest : EvalRequest := ⟨ascii "qstar.lua", [], [], [], ascii "auto", []⟩

/-- A build that evaluates, stores and is followed by a load. -/
def storedBuild : List Event := [.evaluate plainRequest, .store 0 [] [], .load plainRequest []]

def runFrom (w : World) (events : List Event) : History (List Bytes) (List Bytes) :=
  events.foldl (History.step providerProgram) (.start w)

/-- Every loaded text is recorded under its own name. -/
theorem recorded_installed {e : Evaluated (List Bytes)}
    (he : providerProgram.evaluate installedProvider plainRequest = some e) :
    Evaluation.Recorded providerProgram ⟨e, installedProvider⟩ installedProvider := by
  have hfragments : (providerProgram.evaluate installedProvider plainRequest).map
      (fun e => (e.packageRoot, e.fragments)) =
        some (ascii ".", [ascii "qstar.lua", ascii "/opt/c/c.qsm", ascii "/opt/c/c.lua"]) := by
    decide
  have hasked : ∀ q ∈ providerProgram.asked installedProvider plainRequest,
      (∃ path ∈ [ascii "qstar.lua", ascii "/opt/c/c.qsm", ascii "/opt/c/c.lua"],
        readBack path = path ∧ fullPath (ascii ".") path = path ∧ q = .text path) ∨
      q = .executable ∨ (q matches .readable _) ∨ (q matches .getenv _) := by decide
  rw [he, Option.map_some, Option.some.injEq, Prod.mk.injEq] at hfragments
  obtain ⟨hroot, hfragments⟩ := hfragments
  intro path hpath
  rw [(evaluate_inv he).1] at hpath
  refine ⟨rfl, path, ?_⟩
  rcases hasked _ hpath with ⟨path', hmem, hread, hfull, heq⟩ | h | h | h
  · cases heq
    exact ⟨hfragments ▸ hmem, hread, hroot ▸ hfull⟩
  · cases h
  · cases h
  · cases h

theorem plan_cache_hits_fresh_stored :
    (runFrom installedProvider storedBuild).hits.length = 1 ∧
      ∀ h ∈ (runFrom installedProvider storedBuild).hits, h.Fresh providerProgram := by
  have hsome : (providerProgram.evaluate installedProvider plainRequest).isSome := by decide
  obtain ⟨e, he⟩ := Option.isSome_iff_exists.mp hsome
  have hevaluated : History.step providerProgram (.start installedProvider)
      (.evaluate plainRequest) = ⟨installedProvider, [⟨e, installedProvider⟩], fun _ => none, []⟩ := by
    simp [History.step, History.start, he]
  have hstore : Event.Meets providerProgram ⟨installedProvider, [⟨e, installedProvider⟩],
      fun _ => none, []⟩ (.store 0 [] []) := by
    intro e' he'
    cases he'
    exact recorded_installed he
  have hload : Event.Meets providerProgram (History.step providerProgram
      ⟨installedProvider, [⟨e, installedProvider⟩], fun _ => none, []⟩ (.store 0 [] []))
        (.load plainRequest []) := by
    intro root placed _ hplaced _ _
    simp only [History.step, List.getElem?_cons_zero] at hplaced
    split at hplaced
    · cases hplaced
    · rename_i dir entry hentry
      simp only [Function.update_apply] at hplaced
      split at hplaced
      · cases hplaced
        rw [Event.world_store]
        refine ⟨(evaluate_inv he).1.symm, fun q _ _ => rfl, ?_⟩
        intro path _ f old hf hold _ _
        rw [Option.some.inj (hf.symm.trans hold)]
      · cases hplaced
  rw [← hevaluated] at hstore hload
  have hrun : ReachableWhere (History.step providerProgram)
      (fun s ev => ev.Meets providerProgram s) (.start installedProvider)
      (History.step providerProgram (.start installedProvider) (.evaluate plainRequest)) :=
    .next _ .refl trivial
  exact ⟨by decide, plan_cache_hits_fresh (.next _ (.next _ hrun hstore) hload)⟩

/-- A build stores, the package gets its own provider, and the next build loads. -/
def providerCreated : List Event :=
  [.evaluate plainRequest, .store 0 [] [], .change ownProvider, .load plainRequest []]

/-- The load hits with the graph of the other provider. -/
theorem provider_created_not_fresh :
    ∃ (p : Program (List Bytes) Bytes (List Bytes)) (start : World)
      (s : History (List Bytes) (List Bytes)) (h : Hit (List Bytes)),
      Reachable (History.step p) (.start start) s ∧ h ∈ s.hits ∧ ¬h.Fresh p := by
  have hone : (runFrom installedProvider providerCreated).hits.length = 1 := by decide
  have hstale : ∀ h ∈ (runFrom installedProvider providerCreated).hits,
      (providerProgram.evaluate h.world h.request).map (fun e => e.graph) ≠
        some h.loaded.declared := by decide
  obtain ⟨h, hh⟩ := List.exists_mem_of_length_pos (by rw [hone]; exact Nat.one_pos)
  refine ⟨providerProgram, installedProvider, _, h,
    reachable_foldl (History.step providerProgram) _ providerCreated, hh, ?_⟩
  intro ⟨e, he, hloaded⟩
  apply hstale h hh
  rw [he, ← hloaded]
  rfl

end QStar.Stella.FreshPlans
