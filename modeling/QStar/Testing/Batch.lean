import QStar.Testing.Lifecycle
import QStar.Lib.Runs

/-!
# A batch of tests

The loop of `qstar_graph_execute_test_batch` as a machine. Each turn first starts pending
runs, as far as the job count and the resources allow, and then looks at the processes one
by one. One step is one turn of an inner loop, and the environment answers which processes
can be started and what has become of the process that is looked at.
-/
namespace QStar.Testing

open QStar.Lib.CStrings
open QStar.Lib.Runs
open QStar.Base

/-- The part of `struct qstar_test_options` the batch reads. -/
structure TestOptions where
  jobs : Int
  includeManual : Bool

/-- Where the main loop is; `scan` and `poll` are its two inner loops with their index. -/
inductive Point where
  | top
  | scan (i : Nat)
  | poll (i : Nat)
  | finished
  | aborted
  deriving DecidableEq

/-- `qstar_platform_process_wait_nohang` and the clock: a wait error, a process that is
still running in time, or one that has ended. -/
inductive Wait where
  | failed
  | running
  | ended (outcome : Outcome)

structure Answer where
  starts : Phase → Bool
  wait : Wait

structure Batch where
  runs : List Run
  pool : Pool
  doneCount : Nat
  point : Point

/-- The job count of the options; none are given to a null pointer. -/
def jobCount : Option TestOptions → Nat
  | none => 1
  | some options => if 0 < options.jobs then options.jobs.toNat else 1

def noLogs : Logs := { actionId := [], stdoutRel := [], stderrRel := [] }

def pendingRun (t : TestTarget) : Run where
  target := t
  phase := .pending
  running := false
  resourcesHeld := false
  attempt := 0
  exitCode := 0
  status := none
  skipReason := []
  logs := noLogs
  result := noLogs
  history := []

def skippedRun (t : TestTarget) (reason : Bytes) : Run :=
  { pendingRun t with phase := .done, status := some .skip, skipReason := reason }

/-- The run a target starts with. -/
def initialRun (options : Option TestOptions) (t : TestTarget) : Run :=
  if t.testSkipReason ≠ [] then skippedRun t (t.testSkipReason.take 255)
  else if t.testManual = true ∧ options.all (fun o => !o.includeManual) then
    skippedRun t (ascii "manual test excluded from automatic selection")
  else pendingRun t

def isDone (r : Run) : Bool := r.phase = .done

def Batch.start (targets : List TestTarget) (options : Option TestOptions) : Batch where
  runs := targets.map (initialRun options)
  pool := { used := fun _ => 0, holders := 0 }
  doneCount := (targets.map (initialRun options)).countP isDone
  point := .top

/-- A run takes the place of another after one of the two calls that move it on. -/
def Batch.put (s : Batch) (i : Nat) (x : Run × Pool) (point : Point) : Batch where
  runs := s.runs.set i x.1
  pool := x.2
  doneCount := s.doneCount + if isDone x.1 then 1 else 0
  point := point

/-- One turn of the loop that starts pending runs. -/
def Batch.scanStep (g : TestGraph) (jobs : Nat) (s : Batch) (i : Nat) (starts : Phase → Bool) :
    Batch :=
  match s.runs[i]? with
  | none => { s with point := .poll 0 }
  | some r =>
    if jobs ≤ s.pool.holders then { s with point := .poll 0 }
    else if r.phase = .pending ∧ resourcesAvailable g s.pool.used r.target = true then
      s.put i (startAttempt g starts r s.pool) (.scan (i + 1))
    else { s with point := .scan (i + 1) }

/-- One turn of the loop that looks at the processes. -/
def Batch.pollStep (g : TestGraph) (s : Batch) (i : Nat) (a : Answer) : Batch :=
  match s.runs[i]? with
  | none => { s with point := .top }
  | some r =>
    if r.running = false then { s with point := .poll (i + 1) }
    else
      match a.wait with
      | .failed => { s with point := .aborted }
      | .running => { s with point := .poll (i + 1) }
      | .ended outcome =>
        s.put i (advanceAfterPhase g a.starts (completePhase r outcome) r.phase s.pool)
          (.poll (i + 1))

def Batch.step (g : TestGraph) (jobs : Nat) (s : Batch) (a : Answer) : Batch :=
  match s.point with
  | .top =>
    if s.doneCount < s.runs.length then { s with point := .scan 0 }
    else { s with point := .finished }
  | .scan i => s.scanStep g jobs i a.starts
  | .poll i => s.pollStep g i a
  | .finished => s
  | .aborted => s

/-- A step of the batch either moves on in a loop, or it starts a pending run, or it takes note
of a process that has ended. -/
inductive StepCase (g : TestGraph) (jobs : Nat) (s : Batch) (a : Answer) : Prop where
  | move (point : Point) (eq : s.step g jobs a = { s with point := point })
  | start (i : Nat) (r : Run) (at_scan : s.point = .scan i) (found : s.runs[i]? = some r)
      (free : s.pool.holders < jobs) (pending : r.phase = .pending)
      (available : resourcesAvailable g s.pool.used r.target = true)
      (eq : s.step g jobs a = s.put i (startAttempt g a.starts r s.pool) (.scan (i + 1)))
  | finish (i : Nat) (r : Run) (outcome : Outcome) (at_poll : s.point = .poll i)
      (found : s.runs[i]? = some r) (running : r.running = true)
      (eq : s.step g jobs a =
        s.put i (advanceAfterPhase g a.starts (completePhase r outcome) r.phase s.pool) (.poll (i + 1)))

theorem scanStep_cases (g : TestGraph) (jobs : Nat) {s : Batch} {i : Nat} (a : Answer)
    (h : s.point = .scan i) : StepCase g jobs s a := by
  have hstep : s.step g jobs a = s.scanStep g jobs i a.starts := by rw [Batch.step, h]
  unfold Batch.scanStep at hstep
  split at hstep
  · exact .move _ hstep
  · next r hr =>
    split at hstep
    · exact .move _ hstep
    · next hjobs =>
      split at hstep
      · next hready => exact .start i r h hr (Nat.lt_of_not_le hjobs) hready.1 hready.2 hstep
      · exact .move _ hstep

theorem pollStep_cases (g : TestGraph) (jobs : Nat) {s : Batch} {i : Nat} (a : Answer)
    (h : s.point = .poll i) : StepCase g jobs s a := by
  have hstep : s.step g jobs a = s.pollStep g i a := by rw [Batch.step, h]
  unfold Batch.pollStep at hstep
  split at hstep
  · exact .move _ hstep
  · next r hr =>
    split at hstep
    · exact .move _ hstep
    · next hrunning =>
      split at hstep
      · exact .move _ hstep
      · exact .move _ hstep
      · next outcome _ => exact .finish i r outcome h hr (by simpa using hrunning) hstep

theorem step_cases (g : TestGraph) (jobs : Nat) (s : Batch) (a : Answer) : StepCase g jobs s a := by
  cases h : s.point with
  | top =>
    by_cases hlt : s.doneCount < s.runs.length
    · exact .move (.scan 0) (by simp [Batch.step, h, hlt])
    · exact .move .finished (by simp [Batch.step, h, hlt])
  | scan i => exact scanStep_cases g jobs a h
  | poll i => exact pollStep_cases g jobs a h
  | finished =>
    have hstay : s.step g jobs a = s := by simp only [Batch.step, h]
    exact .move s.point hstay
  | aborted =>
    have hstay : s.step g jobs a = s := by simp only [Batch.step, h]
    exact .move s.point hstay

/-- The runs after a step are those before, or one that has been moved on. -/
theorem mem_put {s : Batch} {i : Nat} {x : Run × Pool} {point : Point} {r : Run}
    (h : r ∈ (s.put i x point).runs) : r ∈ s.runs ∨ r = x.1 :=
  List.mem_or_eq_of_mem_set h

/-- The states of `qstar_graph_execute_test_batch`. -/
def BatchState (g : TestGraph) (targets : List TestTarget) (options : Option TestOptions) :
    Batch → Prop :=
  Reachable (Batch.step g (jobCount options)) (Batch.start targets options)

end QStar.Testing
