import QStar.Base.Files
import QStar.Lib.Numerals
import QStar.Lib.Results

/-!
# Tests and their phases

A test target is run in attempts. An attempt holds the resources the test requests and goes
through the setup command, the test itself and the cleanup command. Whether a process could
be started and how it ended is up to the environment. Log directories are always created.
-/
namespace QStar.Testing

open QStar.Lib.CStrings
open QStar.Lib.Numerals
open QStar.Base

/-- `struct qstar_test_resource` -/
structure TestResource where
  name : Bytes
  capacity : Int32
  deriving DecidableEq

/-- `struct qstar_test_resource_request` -/
structure ResourceRequest where
  name : Bytes
  amount : Int32
  deriving DecidableEq

/-- The result states. -/
inductive Status where
  | pass
  | fail
  | skip
  | error
  | timeout
  deriving DecidableEq

/-- What a test target declares. No resource is requested twice: see
`qstar_target_add_test_resource_request`. -/
structure TestTarget where
  label : Bytes
  kind : Bytes
  testResources : List ResourceRequest
  resources_nodup : (testResources.map ResourceRequest.name).Nodup
  testSetup : List Bytes
  testCleanup : List Bytes
  testRetryCount : Nat
  testRetryOn : List Status
  testManual : Bool
  testSkipReason : Bytes

/-- The part of a graph the test scheduler reads. No resource is declared twice: see
`qstar_graph_add_test_resource`. -/
structure TestGraph where
  buildDir : Bytes
  testResources : List TestResource
  names_nodup : (testResources.map TestResource.name).Nodup
  targets : List TestTarget

/-- `valid_resource_name` -/
def validResourceName (name : Bytes) : Bool :=
  name ≠ [] ∧ name.all fun c => isAlnum c || c = 95 || c = 45 || c = 46

/-- The errors of `qstar_graph_validate_test_resources`, with what they name. -/
inductive ResourceError where
  | badName (resource : Bytes)
  | badCapacity (resource : Bytes)
  | notATest (target : Bytes)
  | unknown (target resource : Bytes)
  | exceeds (target resource : Bytes) (amount capacity : Int32)
  deriving DecidableEq

/-- `resource_index` -/
def resourceIndex (g : TestGraph) (name : Bytes) : Option Nat :=
  g.testResources.findIdx? fun r => r.name = name

/-- `qstar_graph_find_test_resource` -/
def findTestResource (g : TestGraph) (name : Bytes) : Option TestResource :=
  (resourceIndex g name).bind fun i => g.testResources[i]?

def checkResource (r : TestResource) : Except ResourceError Unit :=
  if validResourceName r.name = false then .error (.badName r.name)
  else if r.capacity ≤ 0 then .error (.badCapacity r.name)
  else .ok ()

def checkRequest (g : TestGraph) (t : TestTarget) (q : ResourceRequest) : Except ResourceError Unit :=
  match findTestResource g q.name with
  | none => .error (.unknown t.label q.name)
  | some r =>
    if q.amount ≤ 0 ∨ r.capacity < q.amount then .error (.exceeds t.label q.name q.amount r.capacity)
    else .ok ()

def checkTarget (g : TestGraph) (t : TestTarget) : Except ResourceError Unit :=
  if t.testResources = [] then .ok ()
  else if t.kind ≠ ascii "test" then .error (.notATest t.label)
  else t.testResources.forM (checkRequest g t)

/-- `qstar_graph_validate_test_resources` -/
def validateTestResources (g : TestGraph) : Except ResourceError Unit := do
  g.testResources.forM checkResource
  g.targets.forM (checkTarget g)

/-- `enum qstar_test_phase` -/
inductive Phase where
  | pending
  | setup
  | body
  | cleanup
  | done
  deriving DecidableEq

/-- The name of a phase in action ids. -/
def Phase.name : Phase → Bytes
  | .setup => ascii "setup"
  | .cleanup => ascii "cleanup"
  | _ => ascii "test"

/-- How a process ended. -/
inductive Outcome where
  | exited (code : Int)
  | signaled (number : Int)
  | timedOut
  deriving DecidableEq

/-- The action id and the log files of a phase. -/
structure Logs where
  actionId : Bytes
  stdoutRel : Bytes
  stderrRel : Bytes
  deriving DecidableEq

/-- What an attempt has done, in order. -/
inductive Entry where
  | acquired
  | started (phase : Phase) (attempt : Nat)
  | refused (phase : Phase)
  | ended (phase : Phase) (outcome : Outcome)
  | released
  deriving DecidableEq

/-- `struct qstar_test_run`; the empty status is `none`. The history keeps what the run has
printed and written to its action logs. -/
structure Run where
  target : TestTarget
  phase : Phase
  running : Bool
  resourcesHeld : Bool
  attempt : Nat
  exitCode : Int
  status : Option Status
  skipReason : Bytes
  logs : Logs
  result : Logs
  history : List Entry

/-- The resources in use and the number of attempts that hold some. -/
structure Pool where
  used : Nat → Int32
  holders : Nat

/-- `test_log_paths` -/
def testLogPaths (g : TestGraph) (t : TestTarget) (phase : Phase) (attempt : Nat) : Logs :=
  let actionId := t.label ++ ascii ":test:" ++ phase.name ++ ascii ":" ++ printUnsigned 10 attempt
  let name :=
    if phase.name = ascii "test" ∧ attempt = 1 then mangleLabel t.label ++ ascii ".test"
    else mangleLabel actionId
  { actionId
    stdoutRel := buildPath g.buildDir (ascii "logs/" ++ name ++ ascii ".stdout")
    stderrRel := buildPath g.buildDir (ascii "logs/" ++ name ++ ascii ".stderr") }

def Run.record (r : Run) (e : Entry) : Run := { r with history := r.history ++ [e] }

/-- `start_phase` up to the start of the process. -/
def enterPhase (g : TestGraph) (r : Run) (phase : Phase) : Run :=
  { r with phase, logs := testLogPaths g r.target phase r.attempt }.record (.started phase r.attempt)

/-- `start_phase` where the process is started. -/
def startPhase (g : TestGraph) (r : Run) (phase : Phase) : Run :=
  { enterPhase g r phase with running := true }

/-- `record_spawn_failure` -/
def recordSpawnFailure (r : Run) : Run := { r with result := r.logs }

/-- What is left of a phase that could not be started. -/
def refusePhase (g : TestGraph) (r : Run) (phase : Phase) : Run :=
  (recordSpawnFailure { enterPhase g r phase with status := some .error, exitCode := 127 }).record
    (.refused phase)

/-- `resources_available`; the comparison is made on machine integers. -/
def resourcesAvailable (g : TestGraph) (used : Nat → Int32) (t : TestTarget) : Bool :=
  t.testResources.all fun q =>
    match resourceIndex g q.name with
    | none => false
    | some i => (g.testResources[i]?).any fun r => !decide (r.capacity < used i + q.amount)

/-- One turn of the loop of `change_resources`. -/
def changeResource (g : TestGraph) (acquire : Bool) (used : Nat → Int32) (q : ResourceRequest) :
    Nat → Int32 :=
  match resourceIndex g q.name with
  | none => used
  | some i => Function.update used i (used i + if acquire then q.amount else -q.amount)

/-- `change_resources` -/
def changeResources (g : TestGraph) (used : Nat → Int32) (t : TestTarget) (acquire : Bool) :
    Nat → Int32 :=
  t.testResources.foldl (changeResource g acquire) used

/-- An attempt takes what its test asks for. -/
def Pool.acquire (g : TestGraph) (pool : Pool) (t : TestTarget) : Pool where
  used := changeResources g pool.used t true
  holders := pool.holders + 1

/-- An attempt gives back what its test asks for. -/
def Pool.release (g : TestGraph) (pool : Pool) (t : TestTarget) : Pool where
  used := changeResources g pool.used t false
  holders := pool.holders - 1

/-- `retry_allowed` -/
def retryAllowed (t : TestTarget) (status : Option Status) : Bool :=
  t.testRetryOn.any fun s => status = some s

/-- `set_phase_result` -/
def setPhaseResult (r : Run) (phase : Phase) (outcome : Outcome) : Run :=
  match outcome with
  | .timedOut =>
    { r with status := some (if phase = .cleanup then .error else .timeout), exitCode := 124 }
  | .exited code =>
    if code = 0 then r
    else if phase = .body then { r with status := some .fail, exitCode := code }
    else { r with status := some .error, exitCode := code }
  | .signaled number => { r with status := some .error, exitCode := 128 + number }

/-- Whether `finish_attempt` sends a run back. -/
def retries (r : Run) : Bool :=
  r.attempt ≤ r.target.testRetryCount ∧ retryAllowed r.target r.status

/-- `finish_attempt` -/
def finishAttempt (g : TestGraph) (r : Run) (pool : Pool) : Run × Pool :=
  let pool := pool.release g r.target
  let released := { r with resourcesHeld := false }.record .released
  if retries r then ({ released with phase := .pending, status := none, exitCode := 0 }, pool)
  else ({ released with phase := .done }, pool)

/-- The end of `advance_after_phase`. -/
def closeAttempt (g : TestGraph) (r : Run) (pool : Pool) : Run × Pool :=
  finishAttempt g { r with status := some (r.status.getD .pass) } pool

/-- `advance_after_phase` past the start of the test itself. -/
def advanceToCleanup (g : TestGraph) (starts : Phase → Bool) (r : Run) (completed : Phase)
    (pool : Pool) : Run × Pool :=
  if completed ≠ .cleanup ∧ r.target.testCleanup ≠ [] then
    if starts .cleanup then (startPhase g r .cleanup, pool)
    else closeAttempt g (refusePhase g r .cleanup) pool
  else closeAttempt g r pool

/-- `advance_after_phase`; `starts` tells the phases whose process can be started now. -/
def advanceAfterPhase (g : TestGraph) (starts : Phase → Bool) (r : Run) (completed : Phase)
    (pool : Pool) : Run × Pool :=
  if completed = .setup ∧ r.status = none then
    if starts .body then (startPhase g r .body, pool)
    else advanceToCleanup g starts (refusePhase g r .body) completed pool
  else advanceToCleanup g starts r completed pool

def firstPhase (t : TestTarget) : Phase := if t.testSetup ≠ [] then .setup else .body

/-- A run at the start of its next attempt. -/
def Run.acquired (r : Run) : Run :=
  { r with resourcesHeld := true, attempt := r.attempt + 1 }.record .acquired

/-- `start_attempt` -/
def startAttempt (g : TestGraph) (starts : Phase → Bool) (r : Run) (pool : Pool) : Run × Pool :=
  let pool := pool.acquire g r.target
  let phase := firstPhase r.target
  if starts phase then (startPhase g r.acquired phase, pool)
  else advanceAfterPhase g starts (refusePhase g r.acquired phase) phase pool

/-- Before the outcome is looked at, the test itself takes the result, and so does a setup. -/
def attributeEnded (r : Run) (completed : Phase) : Run :=
  if completed = .body ∨ (completed = .setup ∧ r.status = none) then { r with result := r.logs } else r

/-- Afterwards a cleanup takes the result where the status is an error. -/
def attributeCleanup (r : Run) (completed : Phase) : Run :=
  if completed = .cleanup ∧ r.status = some .error then { r with result := r.logs } else r

/-- What the main loop does with a process that has ended. -/
def completePhase (r : Run) (outcome : Outcome) : Run :=
  let completed := r.phase
  let ended := { r with running := false }.record (.ended completed outcome)
  attributeCleanup (setPhaseResult (attributeEnded ended completed) completed outcome) completed

end QStar.Testing
