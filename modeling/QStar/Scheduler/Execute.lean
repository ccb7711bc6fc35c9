import QStar.Scheduler.NodeGraph
import QStar.Lib.Runs

/-!
# The ready-queue loop

`scheduler_execute` as a machine with explicit control points. Everything the
loop learns from outside (a sync node's result, cache lookups, process starts,
polls and exits) is read from the answer of the environment for that step, so a
run is any sequence of answers. The event list is a record for the statements;
the machine never reads it.
-/
namespace QStar.Scheduler.Execute

open QStar.Scheduler.NodeGraph

universe u

/-- Result of `prepared_action_cache_restore`. -/
inductive Restore where
  | error
  | miss
  | hit
  deriving DecidableEq, Repr

/-- Result of `start_prepared_action`: an error, a cache-hit skip or a live process. -/
inductive Start where
  | error
  | skipped
  | spawned
  deriving DecidableEq, Repr

/-- What polling one live process reports. -/
inductive Poll where
  | drainError
  | waitError
  | busy
  | timedOut
  | exited
  deriving DecidableEq, Repr

/-- The environment's replies to the calls one step may make. A check that the step
does not make (no local cache, no depfile) counts as passed. -/
structure Answer where
  runSync : Bool
  prepare : Bool
  cacheAudit : Bool
  cacheHit : Bool
  skip : Bool
  restore : Restore
  start : Start
  poll : Poll
  finish : Bool
  checkDepfile : Bool
  refreshPush : Bool
  wait : Bool
  refreshFlush : Bool
  deriving DecidableEq, Repr

inductive Event where
  | syncRun (node : Nat)
  | skipped (node : Nat)
  | restored (node : Nat)
  | startSkipped (node : Nat)
  | spawned (node : Nat)
  | finished (node : Nat)
  | failed (node : Nat)
  | cancelled (node : Nat)
  deriving DecidableEq, Repr

/-- The node an event starts work on. -/
def Event.begins : Event → Option Nat
  | .syncRun n | .skipped n | .restored n | .startSkipped n | .spawned n => some n
  | .finished _ | .failed _ | .cancelled _ => none

/-- The node an event reports as failed or cancelled. -/
def Event.spoils : Event → Option Nat
  | .failed n | .cancelled n => some n
  | _ => none

inductive Failure where
  | action (node : Nat)
  | noFreeSlot
  | childOutput
  | processWait
  | outputWait
  | stalled
  | depfileRefresh
  deriving DecidableEq, Repr

inductive Result where
  | success
  | failed (why : Failure)
  deriving DecidableEq, Repr

/-- Where the loop stands: at the `while` head, in the pop loop, at slot `i` of the
process scan, at the wait, or returned. -/
inductive Control where
  | loop
  | pops
  | scan (slot : Nat)
  | idle
  | returned (result : Result)
  deriving DecidableEq, Repr

/-- The local variables of `scheduler_execute`. A slot with a live process holds the
node index of that process. -/
structure Exec (α : Type u) where
  sched : Sched α
  completed : Nat
  active : Nat
  running : List (Option Nat)
  progressed : Bool
  control : Control
  events : List Event

variable {α : Type u}

/-- The node indices of the live processes, in slot order. -/
def Exec.live (e : Exec α) : List Nat := e.running.filterMap id

def Exec.emit (e : Exec α) (event : Event) : Exec α :=
  { e with events := e.events ++ [event] }

/-- `scheduler_complete_node` with the counter updates its callers make. -/
def Exec.complete (e : Exec α) (n : Nat) : Exec α :=
  { e with sched := completeNode e.sched n, completed := e.completed + 1,
           progressed := true }

/-- The `fail` label: cancel the live processes and return. -/
def Exec.fail (e : Exec α) (why : Failure) : Exec α :=
  if 0 < e.active then
    { e with events := e.events ++ e.live.map .cancelled,
             running := e.running.map fun _ => none,
             control := .returned (.failed why) }
  else { e with control := .returned (.failed why) }

/-- `goto fail` on behalf of a node whose own step failed. -/
def Exec.failNode (e : Exec α) (n : Nat) : Exec α := (e.emit (.failed n)).fail (.action n)

/-- `find_free_slot` -/
def findFreeSlot (running : List (Option Nat)) : Nat := running.findIdx (· = none)

/-- The tail of the pop loop for a process node that no cache satisfied. -/
def startNode (jobs : Nat) (e : Exec α) (a : Answer) (n : Nat) : Exec α :=
  if jobs ≤ e.active then
    { e with sched := readyPush e.sched n, control := .scan 0 }
  else if jobs ≤ findFreeSlot e.running then e.fail .noFreeSlot
  else
    match a.start with
    | .error => e.failNode n
    | .skipped =>
      ({ e with sched := e.sched.setState n .done }.emit (.startSkipped n)).complete n
    | .spawned =>
      { e with sched := e.sched.setState n .running, active := e.active + 1,
               running := e.running.set (findFreeSlot e.running) (some n),
               progressed := true }.emit (.spawned n)

/-- One round of the pop loop for the popped node `n`. -/
def visitNode (isProcess : α → Bool) (jobs : Nat) (e : Exec α) (a : Answer) (n : Nat)
    (node : Node α) : Exec α :=
  if node.state ≠ .ready then e
  else if ¬ isProcess node.info then
    if a.runSync then (e.emit (.syncRun n)).complete n
    else (e.emit (.syncRun n)).failNode n
  else if ¬ a.prepare then e.failNode n
  else if ¬ a.cacheAudit then e.failNode n
  else if a.cacheHit then
    if a.skip then (e.emit (.skipped n)).complete n else e.failNode n
  else
    match a.restore with
    | .error => e.failNode n
    | .hit => if a.skip then (e.emit (.restored n)).complete n else e.failNode n
    | .miss => startNode jobs e a n

/-- The pop loop: `scheduler_ready_pop`, then the round for the popped node. -/
def popStep (isProcess : α → Bool) (jobs : Nat) (e : Exec α) (a : Answer) : Exec α :=
  match e.sched.ready with
  | [] => { e with control := .scan 0 }
  | n :: rest =>
    let e := { e with sched := { e.sched with ready := rest } }
    match e.sched.nodes[n]? with
    | none => e
    | some node => visitNode isProcess jobs e a n node

/-- One slot of the process scan. -/
def scanStep (jobs : Nat) (e : Exec α) (a : Answer) (slot : Nat) : Exec α :=
  if jobs ≤ slot then { e with control := .idle }
  else
    match e.running[slot]? with
    | some (some n) =>
      match a.poll with
      | .drainError => e.fail .childOutput
      | .waitError => e.fail .processWait
      | .busy => { e with control := .scan (slot + 1) }
      | .timedOut => { e with running := e.running.set slot none }.failNode n
      | .exited =>
        let e := { e with running := e.running.set slot none, active := e.active - 1 }
        if a.finish && a.checkDepfile && a.refreshPush then
          { (e.emit (.finished n)).complete n with control := .idle }
        else e.failNode n
    | _ => { e with control := .scan (slot + 1) }

/-- The end of one round of the outer loop. -/
def idleStep (e : Exec α) (a : Answer) : Exec α :=
  if e.progressed then { e with control := .loop }
  else if e.active = 0 ∧ e.sched.ready = [] ∧ e.completed < e.sched.nodes.length then
    e.fail .stalled
  else if a.wait then { e with control := .loop }
  else e.fail .outputWait

/-- The outer `while` head; past it the deferred depfile refresh decides the result. -/
def loopStep (e : Exec α) (a : Answer) : Exec α :=
  if e.completed < e.sched.nodes.length then
    { e with progressed := false, control := .pops }
  else if a.refreshFlush then { e with control := .returned .success }
  else { e with control := .returned (.failed .depfileRefresh) }

/-- One step of `scheduler_execute`. -/
def step (isProcess : α → Bool) (jobs : Nat) (e : Exec α) (a : Answer) : Exec α :=
  match e.control with
  | .loop => loopStep e a
  | .pops => popStep isProcess jobs e a
  | .scan slot => scanStep jobs e a slot
  | .idle => idleStep e a
  | .returned _ => e

/-- `jobs = ctx->jobs > 1 ? ctx->jobs : 1` -/
def slotCount (jobs : Int) : Nat := if 1 < jobs then jobs.toNat else 1

/-- The ready queue before the first round: nodes without dependencies, in order. -/
def pushInitial (s : Sched α) : Sched α :=
  (List.range s.nodes.length).foldl
    (fun s i => if (s.nodes[i]?.map (·.remaining)) = some 0 then readyPush s i else s) s

def start (s : Sched α) (jobs : Int) : Exec α :=
  { sched := pushInitial s, completed := 0, active := 0,
    running := List.replicate (slotCount jobs) none, progressed := false,
    control := .loop, events := [] }

/-- `scheduler_execute` under a finite list of answers. -/
def execute (isProcess : α → Bool) (s : Sched α) (jobs : Int) (answers : List Answer) :
    Exec α :=
  answers.foldl (step isProcess (slotCount jobs)) (start s jobs)

end QStar.Scheduler.Execute
