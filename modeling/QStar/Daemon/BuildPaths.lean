import QStar.Authoring.Entered
import QStar.Daemon.BuildRequest
import QStar.Stella.FreshPlans

/-!
# A build by a daemon and a build without one

A command line reaches the executor on two ways: evaluated and checked by the
program itself, or sent to a daemon that has just started and that evaluates and
checks for itself. Both hand a graph, a label and options to the executor. The
requested generator of a graph is left out, since the daemon asks for its own.
-/
namespace QStar.Daemon

open QStar.Lib.CStrings
open QStar.Lib.Lines
open QStar.Base
open QStar.Lowering.Plan
open QStar.Authoring
open QStar.Stella.FreshPlans

/-- What a build uses of `struct qstar_graph`: its settings and what is declared. -/
structure LoadedGraph (G : Type) where
  packageRoot : Bytes
  buildDirOverride : Bytes
  platform : Bytes
  packages : List (Bytes × Bytes)
  overrides : List (Bytes × Bytes)
  usesFileGlobs : Bool
  fragments : List Bytes
  declared : G
  deriving DecidableEq

/-- The `qstar_graph_validate_` functions, and the names of the declared project options. -/
structure Checks (G : Type) where
  toolsets : World → LoadedGraph G → Bool
  packages : World → LoadedGraph G → Bool
  generatedOutputs : World → LoadedGraph G → Bool
  sources : World → LoadedGraph G → Bool
  headers : World → LoadedGraph G → Bool
  projectCommands : World → LoadedGraph G → Bool
  testSuites : World → LoadedGraph G → Bool
  testResources : World → LoadedGraph G → Bool
  fileInputs : World → LoadedGraph G → Bool
  optionNames : G → List Bytes

/-- The program with the steps between an evaluation and a build. -/
structure Installed (G V S : Type) extends Program G V S where
  /-- What `read_graph_cache_file` makes of the stored fields. -/
  restore : S → G
  checks : Checks G
  /-- `qstar_graph_prepare_lowered_action_cache` -/
  lower : World → LoadedGraph G → Bytes → Option (List CachedAction)
  /-- Evaluation does not see which generator was requested. -/
  blind : ∀ r generator, lua.start { r with requestedGenerator := generator } = lua.start r

/-- The program, and what it finds in a working directory. -/
structure Machine (G V S : Type) where
  installed : Installed G V S
  world : Bytes → World
  plans : Bytes → Bytes → Option (Entry S)

/-- A command line of `qstar build` for the Stella generator; an absent label, generator or build
directory is empty. -/
structure CommandLine where
  cwd : Bytes
  file : Bytes
  label : Bytes
  overrides : List (Bytes × Bytes)
  packages : List (Bytes × Bytes)
  generator : Bytes
  buildDir : Bytes
  platform : Option Bytes
  options : BuildOptions
  stella : effectiveGenerator generator = ascii "stella"

/-- What the executor is given. -/
structure Handed (G : Type) where
  cwd : Bytes
  graph : LoadedGraph G
  label : Bytes
  options : BuildOptions
  deriving DecidableEq

variable {G V S : Type}

def CommandLine.evalRequest (c : CommandLine) : EvalRequest :=
  ⟨c.file, c.platform.getD [], c.packages, c.overrides, c.generator, c.buildDir⟩

/-- The request `qstar_daemon_build_client` fills in. -/
def CommandLine.buildRequest (c : CommandLine) : BuildRequest :=
  ⟨c.cwd, c.file, c.label, c.buildDir, c.platform.getD [], c.options⟩

/-- `qstar_graph_set_platform_context` accepts. -/
def acceptsPlatform : Option Bytes → Bool
  | none => true
  | some platform =>
    [ascii "host", ascii "windows", ascii "win32", ascii "darwin", ascii "macos", ascii "linux",
      ascii "generic"].contains platform

/-- `qstar_graph_set_cli_overrides` accepts the build directory. -/
def acceptsBuildDir (buildDir : Bytes) : Bool := buildDir = [] || isPackageRelative buildDir

def CommandLine.accepted (c : CommandLine) : Bool :=
  acceptsPlatform c.platform && acceptsBuildDir c.buildDir

/-- A graph read from the plan cache. -/
def restoredGraph (restore : S → G) (s : StoredGraph S) : LoadedGraph G where
  packageRoot := s.packageRoot
  buildDirOverride := s.buildDirOverride
  platform := s.platform
  packages := s.packages
  overrides := []
  usesFileGlobs := s.usesFileGlobs
  fragments := s.fragments
  declared := restore s.declared

/-- A graph that was evaluated. -/
def evaluatedGraph (e : Evaluated G) : LoadedGraph G where
  packageRoot := e.packageRoot
  buildDirOverride := e.request.buildDirOverride
  platform := canonicalPlatformContext e.request.cliPlatform
  packages := e.request.packages
  overrides := e.request.overrides
  usesFileGlobs := e.usesFileGlobs
  fragments := e.fragments
  declared := e.graph

/-- `qstar_graph_validate_project_option_overrides` -/
def Checks.optionOverrides (k : Checks G) (g : LoadedGraph G) : Bool :=
  g.overrides.all fun o => (k.optionNames g.declared).contains o.1

/-- The validations of `main` for a build. -/
def Checks.direct (k : Checks G) (w : World) (g : LoadedGraph G) : Bool :=
  k.optionOverrides g && k.toolsets w g && k.packages w g && k.generatedOutputs w g &&
    k.sources w g && k.headers w g && k.projectCommands w g && k.testSuites w g &&
    k.testResources w g && k.fileInputs w g

/-- The validations of `load_graph`. -/
def Checks.daemon (k : Checks G) (w : World) (g : LoadedGraph G) : Bool :=
  k.toolsets w g && k.packages w g && k.generatedOutputs w g && k.sources w g && k.headers w g &&
    k.testSuites w g && k.testResources w g && k.fileInputs w g

/-- `qstar_stella_plan_cache_store` returns no error. -/
def Installed.storesPlan (p : Installed G V S) (w : World) (e : Evaluated G) (label : Bytes) : Bool :=
  e.usesFileGlobs || (p.lower w (evaluatedGraph e) label).any fun actions =>
    (storeEntry p.kept p.version w e label actions).isSome

/-- The graph of a build: from the plan cache, or evaluated, checked and stored. -/
def Installed.prepare (p : Installed G V S) (checks : World → LoadedGraph G → Bool) (w : World)
    (plans : Bytes → Option (Entry S)) (r : EvalRequest) (label : Bytes) : Option (LoadedGraph G) :=
  match tryLoad p.version w plans r label with
  | some stored => some (restoredGraph p.restore stored)
  | none =>
    match p.evaluate w r with
    | none => none
    | some e =>
      if checks w (evaluatedGraph e) && p.storesPlan w e label then some (evaluatedGraph e) else none

/-- `main` without a daemon, up to `qstar_graph_build_with_options`. -/
def Machine.direct (m : Machine G V S) (c : CommandLine) : Option (Handed G) :=
  if c.accepted = false then none
  else
    (m.installed.prepare m.installed.checks.direct (m.world c.cwd) (m.plans c.cwd) c.evalRequest
      c.label).map fun g => ⟨c.cwd, g, c.label, c.options⟩

/-- `capture_authoring_fps` finds every authoring file. -/
def captured (w : World) (g : LoadedGraph G) : Bool :=
  g.fragments.all fun rel => (w.file (fullPath g.packageRoot rel)).isSome

/-- What the daemon evaluates for a request. -/
def BuildRequest.evalRequest (req : BuildRequest) : EvalRequest :=
  ⟨req.file, req.platform, [], [], ascii "stella", req.buildDir⟩

def BuildRequest.accepted (req : BuildRequest) : Bool :=
  acceptsPlatform (if req.platform = [] then none else some req.platform) &&
    acceptsBuildDir req.buildDir

/-- `handle_build_request` of a daemon that has just started, up to
`qstar_graph_build_with_state_cache`. -/
def Machine.serve (m : Machine G V S) (req : BuildRequest) : Option (Handed G) :=
  if req.accepted = false then none
  else
    ((m.installed.prepare m.installed.checks.daemon (m.world req.cwd) (m.plans req.cwd)
      req.evalRequest req.label).filter (captured (m.world req.cwd))).map fun g =>
        ⟨req.cwd, g, req.label, req.options⟩

/-- `main` with a daemon: what the server makes of what the client sends. -/
def Machine.served (m : Machine G V S) (c : CommandLine) : Option (Handed G) :=
  if c.accepted = false then none
  else
    match readRequest (sendRequestBody c.buildRequest) with
    | none => none
    | some (req, _) => m.serve req

/-- With this executor one way succeeds if the other does, on the same graph and with the same
options. -/
def SucceedAlike (runs : Handed G → Bool) (direct served : Option (Handed G)) : Prop :=
  direct.any runs = served.any runs ∧
    ∀ d ∈ direct, ∀ v ∈ served, runs d = true → runs v = true → d = v

/-- Whatever the actions of the build do. -/
def Machine.Agrees (m : Machine G V S) (c : CommandLine) : Prop :=
  ∀ runs : Handed G → Bool, SucceedAlike runs (m.direct c) (m.served c)

/-- A command line that loses nothing on its way to the daemon. -/
structure CommandLine.Carried (c : CommandLine) : Prop where
  overrides : c.overrides = []
  packages : c.packages = []
  explainCache : c.options.explainCache = 0
  cwd : OneLine c.cwd
  file : OneLine c.file
  label : OneLine c.label
  buildDir : OneLine c.buildDir

/-- A plan is in place for the request. -/
def Machine.findsPlan (m : Machine G V S) (cwd : Bytes) (r : EvalRequest) (label : Bytes) : Bool :=
  (tryLoad m.installed.version (m.world cwd) (m.plans cwd) r label).isSome

/-- A carried command line is refused by both ways or by none. The project commands are checked by
one of them and the names of the authoring files by the other. -/
def Machine.ChecksAgree (m : Machine G V S) (c : CommandLine) : Prop :=
  c.accepted = false ∨
    match tryLoad m.installed.version (m.world c.cwd) (m.plans c.cwd) c.evalRequest c.label with
    | some stored => captured (m.world c.cwd) (restoredGraph m.installed.restore stored) = true
    | none => ∀ e, m.installed.evaluate (m.world c.cwd) c.evalRequest = some e →
        m.installed.checks.daemon (m.world c.cwd) (evaluatedGraph e) = true →
        m.installed.storesPlan (m.world c.cwd) e c.label = true →
        m.installed.checks.projectCommands (m.world c.cwd) (evaluatedGraph e) =
          captured (m.world c.cwd) (evaluatedGraph e)

/-- A stored plan makes up for what a command line loses. -/
def Machine.PlanStandsIn (m : Machine G V S) (c : CommandLine) : Prop :=
  c.accepted = true ∧ ∃ req rest, readRequest (sendRequestBody c.buildRequest) = some (req, rest) ∧
    req.cwd = c.cwd ∧ req.label = c.label ∧ req.options = c.options ∧
    (m.findsPlan c.cwd c.evalRequest c.label = true ∨
      m.findsPlan c.cwd req.evalRequest c.label = true) ∧
    (m.direct c).map Handed.graph = (m.serve req).map Handed.graph

/-- Where the two ways agree. -/
def Machine.Agreeable (m : Machine G V S) (c : CommandLine) : Prop :=
  c.Carried ∧ m.ChecksAgree c ∨
    ¬c.Carried ∧ (m.direct c = none ∧ m.served c = none ∨ m.PlanStandsIn c)

end QStar.Daemon
