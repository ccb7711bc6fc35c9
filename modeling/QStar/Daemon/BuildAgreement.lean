import QStar.Daemon.BuildPaths

/-!
# When a daemon builds what a direct build builds

The ways agree whatever the actions do exactly when they hand the same to the
executor. A carried command line gives both the same request, and then it depends
on the checks that only one of them makes. A command line that is not carried
leaves its traces in the graph or in the options.
-/
namespace QStar.Daemon

open QStar.Lib.CStrings
open QStar.Lib.Lines
open QStar.Lib.Questions
open QStar.Lib.Wire
open QStar.Base
open QStar.Authoring
open QStar.BuildGraph
open QStar.Stella.FreshPlans

variable {G V S : Type} {m : Machine G V S} {c : CommandLine}

theorem agrees_iff : m.Agrees c ↔ m.direct c = m.served c := by
  constructor
  · intro h
    obtain ⟨hany, hsame⟩ := h fun _ => true
    cases hdirect : m.direct c with
    | none =>
      cases hserved : m.served c with
      | none => rfl
      | some v => simp [hdirect, hserved] at hany
    | some d =>
      cases hserved : m.served c with
      | none => simp [hdirect, hserved] at hany
      | some v => rw [hsame d hdirect v hserved rfl rfl]
  · intro h runs
    rw [h]
    refine ⟨rfl, ?_⟩
    intro d hd v hv _ _
    rw [Option.mem_def] at hd hv
    exact Option.some.inj (hd.symm.trans hv)

/-- A request that names the generator. -/
def named (r : EvalRequest) : EvalRequest := { r with requestedGenerator := ascii "stella" }

theorem named_effective : effectiveGenerator (ascii "stella") = ascii "stella" := by decide

section Named

variable {p : Installed G V S} {w : World} {r : EvalRequest}

theorem tryLoad_named (hstella : effectiveGenerator r.requestedGenerator = ascii "stella")
    (version : Bytes) (plans : Bytes → Option (Entry S)) (label : Bytes) :
    tryLoad version w plans (named r) label = tryLoad version w plans r label := by
  simp [tryLoad, Entry.passes, named, manifestRequest, hstella, named_effective]

theorem evaluate_named :
    p.evaluate w (named r) = (p.evaluate w r).map fun e => { e with request := named r } := by
  unfold Program.evaluate evalFile
  rw [named, p.blind r (ascii "stella")]
  dsimp only
  split
  · rfl
  · simp only [bind_eq, run_bind, discoverWorkspaceRoot]
    cases (discoverRoot r.entryFile).run w.answer with
    | none => rfl
    | some root =>
      simp only [run_pure]
      cases workspaceFragment root (dirname r.entryFile) with
      | none => rfl
      | some fragment =>
        simp only [Option.map_some]
        split
        · rfl
        · simp only [run_bind]
          split
          · rfl
          · rfl

theorem evaluatedGraph_named {e : Evaluated G} (h : e.request = r) :
    evaluatedGraph { e with request := named r } = evaluatedGraph e := by
  subst h
  rfl

theorem storesPlan_named {e : Evaluated G} (h : e.request = r)
    (hstella : effectiveGenerator r.requestedGenerator = ascii "stella") (label : Bytes) :
    p.storesPlan w { e with request := named r } label = p.storesPlan w e label := by
  subst h
  have hstored : ∀ actions, (storeEntry p.kept p.version w
      { e with request := named e.request } label actions).isSome =
        (storeEntry p.kept p.version w e label actions).isSome := by
    intro actions
    simp only [storeEntry, named, named_effective, hstella, ne_eq, not_true, false_or]
    split
    · rfl
    · simp [writeInputs]
  simp only [Installed.storesPlan, hstored]
  rfl

/-- Naming the generator changes nothing. -/
theorem prepare_named (hstella : effectiveGenerator r.requestedGenerator = ascii "stella")
    (checks : World → LoadedGraph G → Bool) (plans : Bytes → Option (Entry S)) (label : Bytes) :
    p.prepare checks w plans (named r) label = p.prepare checks w plans r label := by
  simp only [Installed.prepare, tryLoad_named hstella, evaluate_named]
  cases tryLoad p.version w plans r label with
  | some stored => rfl
  | none =>
    cases hevaluate : p.evaluate w r with
    | none => rfl
    | some e =>
      have hrequest := (evaluate_inv hevaluate).1
      simp only [Option.map_some, evaluatedGraph_named hrequest, storesPlan_named hrequest hstella]

end Named

theorem oneLine_platform {platform : Option Bytes} (h : acceptsPlatform platform = true) :
    OneLine (platform.getD []) := by
  cases platform with
  | none => decide
  | some platform =>
    have hall : ∀ q ∈ [ascii "host", ascii "windows", ascii "win32", ascii "darwin", ascii "macos",
        ascii "linux", ascii "generic"], OneLine q := by decide
    exact hall platform (by simpa [acceptsPlatform] using h)

/-- The server accepts the platform that the client accepted. -/
theorem accepted_received (h : c.accepted = true) : c.buildRequest.received.accepted = true := by
  simp only [CommandLine.accepted, Bool.and_eq_true] at h
  have hplatform : ∀ platform : Option Bytes, acceptsPlatform platform = true →
      acceptsPlatform (if platform.getD [] = [] then none else some (platform.getD [])) = true := by
    intro platform hplatform
    split
    · rfl
    · cases platform with
      | none => contradiction
      | some platform => exact hplatform
  exact Bool.and_eq_true_iff.mpr ⟨hplatform c.platform h.1, h.2⟩

theorem plain_request (hcarried : c.Carried) (h : c.accepted = true) : c.buildRequest.Plain where
  cwd := hcarried.cwd
  file := hcarried.file
  label := hcarried.label
  buildDir := hcarried.buildDir
  platform := by
    simp only [CommandLine.accepted, Bool.and_eq_true] at h
    exact oneLine_platform h.1

theorem readRequest_plain_eq (h : c.buildRequest.Plain) :
    readRequest (sendRequestBody c.buildRequest) = some (c.buildRequest.received, []) := by
  simpa using reads_request h []

theorem direct_accepted (h : c.accepted = true) : m.direct c =
    (m.installed.prepare m.installed.checks.direct (m.world c.cwd) (m.plans c.cwd) c.evalRequest
      c.label).map fun g => ⟨c.cwd, g, c.label, c.options⟩ := by
  simp [Machine.direct, h]

/-- What the daemon makes of a carried command line. -/
theorem served_carried (hcarried : c.Carried) (h : c.accepted = true) : m.served c =
    ((m.installed.prepare m.installed.checks.daemon (m.world c.cwd) (m.plans c.cwd) c.evalRequest
      c.label).filter (captured (m.world c.cwd))).map fun g => ⟨c.cwd, g, c.label, c.options⟩ := by
  have hrequest : c.buildRequest.received.evalRequest = named c.evalRequest := by
    simp [BuildRequest.evalRequest, BuildRequest.received, CommandLine.buildRequest, named,
      CommandLine.evalRequest, hcarried.overrides, hcarried.packages]
  have hoptions : c.buildRequest.received.options = c.options := by
    simp [BuildRequest.received, CommandLine.buildRequest, ← hcarried.explainCache]
  have hstella : effectiveGenerator c.evalRequest.requestedGenerator = ascii "stella" := c.stella
  simp only [Machine.served, h, Bool.true_eq_false, if_false,
    readRequest_plain_eq (plain_request hcarried h), Machine.serve, accepted_received h, hrequest,
    hoptions, prepare_named hstella]
  rfl

theorem handed_injective (cwd label : Bytes) (options : BuildOptions) :
    Function.Injective fun g : LoadedGraph G => (⟨cwd, g, label, options⟩ : Handed G) := by
  intro g g' h
  exact (Handed.mk.inj h).2.1

/-- Without overrides the validations of `main` are those of the daemon and that of the project
commands. -/
theorem direct_checks {k : Checks G} {w : World} {g : LoadedGraph G} (h : g.overrides = []) :
    k.direct w g = (k.daemon w g && k.projectCommands w g) := by
  simp only [Checks.direct, Checks.daemon, Checks.optionOverrides, h, List.all_nil, Bool.true_and,
    Bool.and_assoc, Bool.and_comm, Bool.and_left_comm]

/-- The ways agree on a carried command line if their own checks do. -/
theorem agrees_carried (hcarried : c.Carried) : m.Agrees c ↔ m.ChecksAgree c := by
  rw [agrees_iff]
  cases haccepted : c.accepted with
  | false => simp [Machine.ChecksAgree, Machine.direct, Machine.served, haccepted]
  | true =>
    rw [direct_accepted haccepted, served_carried hcarried haccepted,
      (Option.map_injective (handed_injective c.cwd c.label c.options)).eq_iff]
    simp only [Machine.ChecksAgree, haccepted, Bool.true_eq_false, false_or, Installed.prepare]
    cases tryLoad m.installed.version (m.world c.cwd) (m.plans c.cwd) c.evalRequest c.label with
    | some stored =>
      rw [eq_comm, Option.filter_eq_some_iff]
      simp
    | none =>
      cases hevaluate : m.installed.evaluate (m.world c.cwd) c.evalRequest with
      | none => simp
      | some e =>
        have hoverrides : (evaluatedGraph e).overrides = [] := by
          rw [evaluatedGraph, (evaluate_inv hevaluate).1]
          exact hcarried.overrides
        simp only [direct_checks hoverrides, Option.some.injEq, forall_eq']
        cases m.installed.checks.daemon (m.world c.cwd) (evaluatedGraph e) with
        | false => simp
        | true =>
          cases m.installed.storesPlan (m.world c.cwd) e c.label with
          | false => simp
          | true =>
            cases m.installed.checks.projectCommands (m.world c.cwd) (evaluatedGraph e) <;>
              cases hcaptured : captured (m.world c.cwd) (evaluatedGraph e) <;>
                simp [Option.filter, hcaptured]

/-- A graph of `prepare` that no plan gave was evaluated. -/
theorem prepare_evaluated {p : Installed G V S} {checks : World → LoadedGraph G → Bool} {w : World}
    {plans : Bytes → Option (Entry S)} {r : EvalRequest} {label : Bytes} {g : LoadedGraph G}
    (hprepare : p.prepare checks w plans r label = some g)
    (hplan : (tryLoad p.version w plans r label).isSome = false) :
    ∃ e, p.evaluate w r = some e ∧ evaluatedGraph e = g := by
  unfold Installed.prepare at hprepare
  rw [Option.isSome_eq_false_iff, Option.isNone_iff_eq_none] at hplan
  rw [hplan] at hprepare
  cases hevaluate : p.evaluate w r with
  | none => simp [hevaluate] at hprepare
  | some e =>
    simp only [hevaluate] at hprepare
    split at hprepare
    · exact ⟨e, rfl, Option.some.inj hprepare⟩
    · cases hprepare

/-- What the two ways hand on when they agree and neither found a plan came of a carried command
line. -/
theorem carried_of_evaluated {req : BuildRequest} (hplain : req.Plain)
    (hexplain : req.options.explainCache = 0) {d : Handed G} (hdirect : m.direct c = some d)
    (hserve : m.serve req = some d) (hcwd : req.cwd = c.cwd) (hlabel : req.label = c.label)
    (hoptions : req.options = c.options)
    (hplan : m.findsPlan c.cwd c.evalRequest c.label = false)
    (hplan' : m.findsPlan c.cwd req.evalRequest c.label = false) : c.Carried := by
  unfold Machine.direct at hdirect
  split at hdirect
  · cases hdirect
  · obtain ⟨g, hprepare, rfl⟩ := Option.map_eq_some_iff.mp hdirect
    unfold Machine.serve at hserve
    split at hserve
    · cases hserve
    · obtain ⟨g', hfilter, heq⟩ := Option.map_eq_some_iff.mp hserve
      obtain rfl : g' = g := (Handed.mk.inj heq).2.1
      have hprepare' := (Option.filter_eq_some_iff.mp hfilter).1
      rw [hcwd, hlabel] at hprepare'
      obtain ⟨e, hevaluate, hgraph⟩ := prepare_evaluated hprepare hplan
      obtain ⟨e', hevaluate', hgraph'⟩ := prepare_evaluated hprepare' hplan'
      have hsame : evaluatedGraph e = evaluatedGraph e' := hgraph.trans hgraph'.symm
      simp only [evaluatedGraph, (evaluate_inv hevaluate).1, (evaluate_inv hevaluate').1,
        LoadedGraph.mk.injEq, CommandLine.evalRequest, BuildRequest.evalRequest] at hsame
      obtain ⟨hroot, hbuildDir, -, hpackages, hoverrides, -, hfragments, -⟩ := hsame
      refine ⟨hoverrides, hpackages, ?_, ?_, ?_, ?_, ?_⟩
      · rw [← hoptions]
        exact hexplain
      · rw [← hcwd]
        exact hplain.cwd
      · have hbytes : ∀ b, b ∈ c.file → b ≠ 46 → b ≠ 47 → b ∈ req.file := fun b hb hdot hslash =>
          entryFile_bytes hevaluate hevaluate' hroot hfragments hb hdot hslash
        exact ⟨fun h => hplain.file.1 (hbytes 10 h (by decide) (by decide)),
          fun h => hplain.file.2 (hbytes 13 h (by decide) (by decide))⟩
      · rw [← hlabel]
        exact hplain.label
      · rw [hbuildDir]
        exact hplain.buildDir

/-- The ways agree on a command line that is not carried if none of them gets to a build or a plan
stands in. -/
theorem agrees_uncarried (hcarried : ¬c.Carried) :
    m.Agrees c ↔ m.direct c = none ∧ m.served c = none ∨ m.PlanStandsIn c := by
  rw [agrees_iff]
  constructor
  · intro h
    cases hdirect : m.direct c with
    | none => exact .inl ⟨rfl, by rw [← h, hdirect]⟩
    | some d =>
      right
      have haccepted : c.accepted = true := by
        rw [← Bool.not_eq_false]
        intro hrefused
        simp [Machine.direct, hrefused] at hdirect
      have hserved := h.symm.trans hdirect
      simp only [Machine.served, haccepted, Bool.true_eq_false, if_false] at hserved
      split at hserved
      · cases hserved
      · rename_i req rest hread
        have hd : d.cwd = c.cwd ∧ d.label = c.label ∧ d.options = c.options := by
          rw [direct_accepted haccepted] at hdirect
          obtain ⟨g, -, rfl⟩ := Option.map_eq_some_iff.mp hdirect
          exact ⟨rfl, rfl, rfl⟩
        have hv : d.cwd = req.cwd ∧ d.label = req.label ∧ d.options = req.options := by
          unfold Machine.serve at hserved
          split at hserved
          · cases hserved
          · obtain ⟨g, -, rfl⟩ := Option.map_eq_some_iff.mp hserved
            exact ⟨rfl, rfl, rfl⟩
        have hcwd : req.cwd = c.cwd := hv.1.symm.trans hd.1
        have hlabel : req.label = c.label := hv.2.1.symm.trans hd.2.1
        have hoptions : req.options = c.options := hv.2.2.symm.trans hd.2.2
        refine ⟨haccepted, req, rest, hread, hcwd, hlabel, hoptions, ?_, by rw [hdirect, hserved]⟩
        by_contra hnone
        rw [not_or, Bool.not_eq_true, Bool.not_eq_true] at hnone
        exact hcarried (carried_of_evaluated (readRequest_plain hread)
          (readRequest_explainCache hread) hdirect hserved hcwd hlabel hoptions hnone.1 hnone.2)
  · rintro (⟨hdirect, hserved⟩ | ⟨haccepted, req, rest, hread, hcwd, hlabel, hoptions, -, hgraph⟩)
    · rw [hdirect, hserved]
    · have hserved : m.served c = m.serve req := by
        simp [Machine.served, haccepted, hread]
      rw [hserved]
      rw [direct_accepted haccepted] at hgraph ⊢
      unfold Machine.serve at hgraph ⊢
      rw [hcwd, hlabel, hoptions] at hgraph ⊢
      split at hgraph
      · rename_i hrefused
        rw [if_pos hrefused]
        simpa using hgraph
      · rename_i haccepts
        rw [if_neg haccepts]
        simp only [Option.map_map, Function.comp_def] at hgraph
        simp only [Option.map_id'] at hgraph
        rw [hgraph]

/-- A daemon that has just started agrees with a direct build exactly where a command line is
carried and the checks of the two are of one mind, or where the rest makes no difference. -/
theorem daemon_agrees_iff (m : Machine G V S) (c : CommandLine) : m.Agrees c ↔ m.Agreeable c := by
  by_cases hcarried : c.Carried
  · rw [agrees_carried hcarried]
    simp [Machine.Agreeable, hcarried]
  · rw [agrees_uncarried hcarried]
    simp [Machine.Agreeable, hcarried]

/-- A Lua that declares what the overrides of the project options say. -/
def optionLua : Lua (List (Bytes × Bytes)) Bytes where
  load := fun text => some (.returns text)
  nil := []
  isTable := fun _ => true
  list := fun _ => []
  readonly := id
  manifest := fun _ _ => none
  activate := fun g _ _ _ _ => ⟨g, false, none⟩
  start := EvalRequest.overrides
  lowerFinals := some

/-- Checks that pass. -/
def optionChecks : Checks (List (Bytes × Bytes)) where
  toolsets := fun _ _ => true
  packages := fun _ _ => true
  generatedOutputs := fun _ _ => true
  sources := fun _ _ => true
  headers := fun _ _ => true
  projectCommands := fun _ _ => true
  testSuites := fun _ _ => true
  testResources := fun _ _ => true
  fileInputs := fun _ _ => true
  optionNames := fun _ => [ascii "mode"]

/-- A package with an empty `qstar.lua` and no stored plan. -/
def optionMachine : Machine (List (Bytes × Bytes)) Bytes (List (Bytes × Bytes)) where
  installed :=
    { lua := optionLua
      depth := 8
      kept := ⟨id, fun _ => []⟩
      version := ascii "0.7.19-beta"
      restore := id
      checks := optionChecks
      lower := fun _ _ _ => some []
      blind := fun _ _ => rfl }
  world := fun _ =>
    { file := fun path => if path = ascii "qstar.lua" then some ⟨[], 0⟩ else none
      environment := fun _ => none
      names := fun _ => none
      executable := none }
  plans := fun _ _ => none

/-- `qstar -D mode=fast build --use-daemon=always` -/
def optionBuild : CommandLine where
  cwd := ascii "/work"
  file := ascii "qstar.lua"
  label := []
  overrides := [(ascii "mode", ascii "fast")]
  packages := []
  generator := []
  buildDir := []
  platform := none
  options := ⟨0, 0, 0, 0, 0, 0, 0, 0⟩
  stella := by decide

/-- The daemon builds a graph without the override, and both ways succeed. -/
theorem override_not_carried : (optionMachine.direct optionBuild).isSome = true ∧
    (optionMachine.served optionBuild).isSome = true ∧ ¬optionMachine.Agrees optionBuild := by
  rw [agrees_iff]
  decide

end QStar.Daemon
