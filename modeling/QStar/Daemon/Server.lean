import QStar.Stella.FreshPlans

/-!
# The graph a daemon keeps in memory

A daemon answers requests from a graph that it loaded once. Files change between
and during its steps, so what takes time is cut into steps: each file is read,
fingerprinted and put under the watcher on its own. A change of a watched file is
put into the queue of the watcher, or lost to an overflow that the queue then
shows. Only the paths and the texts of the authoring files of a graph are kept.
-/
namespace QStar.Daemon

open QStar.Lib.CStrings
open QStar.Authoring
open QStar.Stella.PlanCache
open QStar.Stella.FreshPlans

/-- A file with its time in nanoseconds. -/
structure DiskFile where
  text : Bytes
  mtime : Nat
  deriving DecidableEq

/-- `stat_fp`: the size and the time. -/
def DiskFile.stat (f : DiskFile) : Nat × Nat := (f.text.length, f.mtime)

/-- The fingerprint of the plan cache, with whole seconds. -/
def DiskFile.fingerprint (f : DiskFile) : Fingerprint :=
  sourceFingerprint ⟨f.text, f.mtime / 1000000000⟩

/-- `struct qstar_daemon_request`, the fields that name the graph. -/
structure Request where
  cwd : Bytes
  file : Bytes
  label : Bytes
  buildDir : Bytes
  platform : Bytes
  /-- A read-only query and no build. -/
  query : Bool
  deriving DecidableEq

/-- An authoring file of a stored plan: the text it had when it was evaluated and the fingerprint
that was taken when the plan was stored. -/
structure PlanFile where
  path : Bytes
  evaluated : Option Bytes
  fingerprint : Fingerprint
  deriving DecidableEq

/-- `struct qstar_daemon_fp` -/
structure Captured where
  path : Bytes
  stat : Nat × Nat
  deriving DecidableEq

/-- The scope bits of a watch. -/
structure Scope where
  authoring : Bool
  input : Bool
  deriving DecidableEq

def Scope.union (a b : Scope) : Scope := ⟨a.authoring || b.authoring, a.input || b.input⟩

/-- What the queue of a watcher holds; an error of the backend counts as an overflow. -/
inductive Notice where
  | changed (path : Bytes)
  | overflow
  deriving DecidableEq

/-- `struct qstar_daemon_watcher` and its queue -/
structure Watcher where
  active : Bool
  incomplete : Bool
  skippedMissing : Bool
  watches : List (Bytes × Scope)
  graphDirty : Bool
  inputDirty : Bool
  queue : List Notice
  deriving DecidableEq

/-- `watcher_close` -/
def Watcher.closed : Watcher := ⟨false, false, false, [], false, false, []⟩

/-- `watcher_open`, which the backend may refuse. -/
def Watcher.opened (opens : Bool) : Watcher := { Watcher.closed with active := opens }

/-- `watcher_find_path` -/
def Watcher.scopeOf (w : Watcher) (path : Bytes) : Option Scope := w.watches.lookup path

/-- `watcher_add_existing`; the backend may refuse a watch. -/
def Watcher.addExisting (w : Watcher) (disk : Bytes → Option DiskFile) (path : Bytes)
    (scope : Scope) (refused : Bool) : Watcher :=
  if w.active = false then w
  else
    match w.scopeOf path with
    | some old =>
      { w with watches := (path, old.union scope) :: w.watches.filter fun e => e.1 ≠ path }
    | none =>
      if (disk path).isNone then { w with skippedMissing := true }
      else if refused then { w with incomplete := true }
      else { w with watches := (path, scope) :: w.watches }

/-- A notice that makes `watcher_poll` mark the graph. -/
def Watcher.dirties (w : Watcher) : Notice → Bool
  | .changed path => (w.scopeOf path).any Scope.authoring
  | .overflow => true

/-- `watcher_poll` -/
def Watcher.poll (w : Watcher) : Watcher :=
  if w.active = false then w
  else
    { w with
      graphDirty := w.queue.any w.dirties
      inputDirty := w.queue.any fun
        | .changed path => (w.scopeOf path).any Scope.input
        | .overflow => false
      incomplete := w.incomplete || w.queue.contains .overflow
      queue := [] }

/-- What a change of a file does to the queue. -/
def Watcher.notify (w : Watcher) (path : Bytes) (overflow : Bool) : Watcher :=
  if w.active && (w.scopeOf path).isSome then
    { w with queue := w.queue ++ [if overflow then .overflow else .changed path] }
  else w

/-- What the daemon does. -/
inductive Phase where
  | idle
  /-- `load_graph` until the graph is there -/
  | evaluating (req : Request)
  /-- `capture_authoring_fps`, with the files to go -/
  | capturing (req : Request) (todo : List Bytes)
  /-- `watcher_refresh`, with the files to go; for a load or after a build -/
  | watching (req : Request) (todo : List (Bytes × Scope)) (loads : Bool)
  /-- `ensure_graph` after the poll -/
  | polled (req : Request)
  | building (req : Request)
  deriving DecidableEq

/-- The daemon, the files and the stored plan. -/
structure Server where
  disk : Bytes → Option DiskFile
  plan : Option (List PlanFile)
  phase : Phase
  graphLoaded : Bool
  identity : Request
  /-- `evaluated_fragments`, with the text each had for the evaluation -/
  files : List (Bytes × Option Bytes)
  /-- What else of the graph is watched. -/
  inputs : List Bytes
  fps : List Captured
  watcher : Watcher

inductive Event where
  /-- A file is changed, created or deleted. -/
  | edit (path : Bytes) (file : Option DiskFile) (overflow : Bool)
  /-- Another build stores a plan. -/
  | otherPlan (plan : Option (List PlanFile))
  | request (req : Request)
  /-- The stored plan is loaded; its inputs besides the authoring files. -/
  | loadPlan (inputs : List Bytes)
  /-- Evaluation loads a file. -/
  | read (path : Bytes)
  /-- Evaluation and validation end, and the plan is stored unless globs forbid it. -/
  | evaluated (ok : Bool) (inputs : List Bytes) (stores : Bool)
  | capture
  | openWatcher (opens : Bool)
  | watch (refused : Bool)
  | watched
  | decide
  | buildDone (ok : Bool) (opens : Bool)

def Server.textAt (s : Server) (path : Bytes) : Option Bytes := (s.disk path).map DiskFile.text

/-- `same_identity` -/
def sameIdentity (a b : Request) : Bool :=
  a.cwd = b.cwd && a.file = b.file && a.label = b.label && a.buildDir = b.buildDir &&
    a.platform = b.platform

/-- `same_graph_identity` -/
def sameGraphIdentity (a b : Request) : Bool :=
  a.cwd = b.cwd && a.file = b.file && a.buildDir = b.buildDir && a.platform = b.platform

/-- `reject_workspace_identity_mismatch` -/
def identityMismatch (a b : Request) : Bool :=
  a.cwd ≠ b.cwd || a.file ≠ b.file || a.buildDir ≠ b.buildDir

/-- The start of `load_graph`. -/
def Server.startLoad (s : Server) (req : Request) : Server :=
  { s with
    phase := .evaluating req
    graphLoaded := false
    files := []
    inputs := []
    watcher := .closed }

/-- What follows `ensure_graph`. -/
def afterEnsure (req : Request) : Phase := if req.query then .idle else .building req

/-- `authoring_inputs_changed` -/
def Server.authoringInputsChanged (s : Server) : Bool :=
  s.fps.any fun c => (s.disk c.path).map DiskFile.stat ≠ some c.stat

/-- The checks of `ensure_graph` after the poll. -/
def Server.hits (s : Server) : Bool :=
  !s.watcher.graphDirty &&
    !((!s.watcher.active || s.watcher.incomplete) && s.authoringInputsChanged)

/-- `inputs_match` of the stored plan -/
def Server.planMatches (s : Server) (plan : List PlanFile) : Bool :=
  plan ≠ [] && plan.all fun f => (s.disk f.path).map DiskFile.fingerprint = some f.fingerprint

/-- `qstar_stella_plan_cache_store` of what was evaluated -/
def Server.planOf (s : Server) : Option (List PlanFile) :=
  s.files.mapM fun f => (s.disk f.1).map fun file => ⟨f.1, f.2, file.fingerprint⟩

/-- The paths of `watcher_refresh`, authoring files first. -/
def Server.watchList (s : Server) : List (Bytes × Scope) :=
  (s.files.map fun f => (f.1, ⟨true, false⟩)) ++ s.inputs.map fun path => (path, ⟨false, true⟩)

/-- The graph is there and the fingerprints are taken next. -/
def Server.startCapture (s : Server) (req : Request) : Server :=
  { s with phase := .capturing req (s.files.map Prod.fst), fps := [] }

def Server.failLoad (s : Server) : Server := { s with phase := .idle }

/-- `watcher_refresh` begins. -/
def Server.refresh (s : Server) (req : Request) (opens loads : Bool) : Server :=
  { s with
    watcher := .opened opens
    phase := .watching req (if opens then s.watchList else []) loads }

/-- One step; an event that the phase has no use for changes nothing. -/
def Server.step (s : Server) : Event → Server
  | .edit path file overflow =>
    { s with
      disk := Function.update s.disk path file
      watcher := s.watcher.notify path overflow }
  | .otherPlan plan => { s with plan }
  | .request req =>
    if s.phase ≠ .idle then s
    else if s.graphLoaded = false then s.startLoad req
    else if identityMismatch s.identity req then s
    else if (if req.query then sameGraphIdentity s.identity req else sameIdentity s.identity req) then
      { s with watcher := s.watcher.poll, phase := .polled req }
    else s.startLoad req
  | .loadPlan inputs =>
    match s.phase, s.plan with
    | .evaluating req, some plan =>
      if s.files = [] ∧ s.planMatches plan = true then
        { s with files := plan.map fun (f : PlanFile) => (f.path, f.evaluated), inputs }.startCapture req
      else s
    | _, _ => s
  | .read path =>
    match s.phase with
    | .evaluating _ => { s with files := s.files ++ [(path, s.textAt path)] }
    | _ => s
  | .evaluated ok inputs stores =>
    match s.phase with
    | .evaluating req =>
      if ok = false then s.failLoad
      else if stores then
        match s.planOf with
        | none => s.failLoad
        | some plan => { s with plan := some plan, inputs }.startCapture req
      else { s with inputs }.startCapture req
    | _ => s
  | .capture =>
    match s.phase with
    | .capturing req (path :: todo) =>
      match s.disk path with
      | none => s.failLoad
      | some f => { s with fps := s.fps ++ [⟨path, f.stat⟩], phase := .capturing req todo }
    | _ => s
  | .openWatcher opens =>
    match s.phase with
    | .capturing req [] => s.refresh req opens true
    | _ => s
  | .watch refused =>
    match s.phase with
    | .watching req ((path, scope) :: todo) loads =>
      { s with
        watcher := s.watcher.addExisting s.disk path scope refused
        phase := .watching req todo loads }
    | _ => s
  | .watched =>
    match s.phase with
    | .watching req [] true =>
      { s with identity := req, graphLoaded := true, phase := afterEnsure req }
    | .watching _ [] false => { s with phase := .idle }
    | _ => s
  | .decide =>
    match s.phase with
    | .polled req => if s.hits then { s with phase := afterEnsure req } else s.startLoad req
    | _ => s
  | .buildDone ok opens =>
    match s.phase with
    | .building req =>
      if ok && s.watcher.active && s.watcher.skippedMissing then s.refresh req opens false
      else { s with phase := .idle }
    | _ => s

/-- A daemon that has loaded nothing. -/
def Server.start (disk : Bytes → Option DiskFile) (plan : Option (List PlanFile)) (id : Request) :
    Server := ⟨disk, plan, .idle, false, id, [], [], [], .closed⟩

/-- Every authoring file of the graph has the text it had for the evaluation. -/
def Server.Fresh (s : Server) : Prop := ∀ path text, (path, text) ∈ s.files → s.textAt path = text

end QStar.Daemon
