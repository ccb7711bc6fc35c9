import QStar.Stella.Dependencies

/-!
# A Stella build, action by action

The state of one build invocation and its steps: preparing an action, launching
it (which skips it on a cache hit), the writes of its process, its successful
end, and changes of files by anyone else. The order of steps is free, so every
schedule is a run. After the last step the keys of actions with depfiles are
computed again and the databases are saved. The local action cache is off.
-/
namespace QStar.Stella

open QStar.Lib.CStrings
open QStar.Base

/-- A prepared action: the depfile it was prepared with, what that lists, all its inputs,
and the key. -/
structure Prepared where
  action : Action
  depfileState : Option FileState
  depInputs : List Bytes
  inputs : List Bytes
  key : Bytes

/-- Where an action is in a build. -/
inductive Phase where
  | prepared
  | running
  | skipped
  | finished
  deriving DecidableEq

/-- The file states this invocation has digested; a path is digested once. -/
abbrev Memo := Bytes → Option (Option FileState)

structure Build where
  disk : Disk
  memo : Memo
  /-- Keys of the last successful build, by action id. -/
  prev : Bytes → Option Bytes
  prevDeps : Deps
  next : Bytes → Option Bytes
  nextDeps : Deps
  actions : Bytes → Option (Phase × Prepared)
  /-- The queue of `depfile_refresh_queue_push`. -/
  refresh : List Prepared

/-- What is kept from build to build. -/
structure Saved where
  disk : Disk
  keys : Bytes → Option Bytes
  deps : Deps

/-- The start of an invocation. -/
def Build.start (saved : Saved) : Build where
  disk := saved.disk
  memo := fun _ => none
  prev := saved.keys
  prevDeps := saved.deps
  next := fun _ => none
  nextDeps := []
  actions := fun _ => none
  refresh := []

/-- What `hash_file` takes a file to be. -/
def Build.seen (b : Build) : Observation := fun rel => (b.memo rel).getD (b.disk rel)

/-- The memo once the given paths were digested. -/
def Build.remember (b : Build) (paths : List Bytes) : Build :=
  { b with memo := fun rel => if rel ∈ paths then some (b.seen rel) else b.memo rel }

def Build.setAction (b : Build) (phase : Phase) (p : Prepared) : Build :=
  { b with actions := Function.update b.actions p.action.id (some (phase, p)) }

/-- `state_push`, `state_update_material` -/
def Build.pushKey (b : Build) (id key : Bytes) : Build :=
  { b with next := Function.update b.next id (some key) }

def Build.recordDeps (b : Build) (a : Action) (entry : Option DepEntry) : Build :=
  match a.depfile with
  | none => b
  | some depfile => { b with nextDeps := b.nextDeps.record depfile entry }

section Updates

variable (b : Build) (paths : List Bytes) (phase : Phase) (p : Prepared) (id key : Bytes)
  (a : Action) (entry : Option DepEntry)

@[simp] theorem Build.remember_disk : (b.remember paths).disk = b.disk := rfl
@[simp] theorem Build.remember_prev : (b.remember paths).prev = b.prev := rfl
@[simp] theorem Build.remember_prevDeps : (b.remember paths).prevDeps = b.prevDeps := rfl
@[simp] theorem Build.remember_next : (b.remember paths).next = b.next := rfl
@[simp] theorem Build.remember_nextDeps : (b.remember paths).nextDeps = b.nextDeps := rfl
@[simp] theorem Build.remember_actions : (b.remember paths).actions = b.actions := rfl
@[simp] theorem Build.remember_refresh : (b.remember paths).refresh = b.refresh := rfl

@[simp] theorem Build.setAction_disk : (b.setAction phase p).disk = b.disk := rfl
@[simp] theorem Build.setAction_memo : (b.setAction phase p).memo = b.memo := rfl
@[simp] theorem Build.setAction_prev : (b.setAction phase p).prev = b.prev := rfl
@[simp] theorem Build.setAction_prevDeps : (b.setAction phase p).prevDeps = b.prevDeps := rfl
@[simp] theorem Build.setAction_next : (b.setAction phase p).next = b.next := rfl
@[simp] theorem Build.setAction_nextDeps : (b.setAction phase p).nextDeps = b.nextDeps := rfl
@[simp] theorem Build.setAction_refresh : (b.setAction phase p).refresh = b.refresh := rfl
@[simp] theorem Build.setAction_seen : (b.setAction phase p).seen = b.seen := rfl

@[simp] theorem Build.setAction_self :
    (b.setAction phase p).actions p.action.id = some (phase, p) := by simp [Build.setAction]

theorem Build.setAction_ne {id : Bytes} (h : id ≠ p.action.id) :
    (b.setAction phase p).actions id = b.actions id := by simp [Build.setAction, h]

@[simp] theorem Build.pushKey_disk : (b.pushKey id key).disk = b.disk := rfl
@[simp] theorem Build.pushKey_memo : (b.pushKey id key).memo = b.memo := rfl
@[simp] theorem Build.pushKey_prev : (b.pushKey id key).prev = b.prev := rfl
@[simp] theorem Build.pushKey_prevDeps : (b.pushKey id key).prevDeps = b.prevDeps := rfl
@[simp] theorem Build.pushKey_nextDeps : (b.pushKey id key).nextDeps = b.nextDeps := rfl
@[simp] theorem Build.pushKey_actions : (b.pushKey id key).actions = b.actions := rfl
@[simp] theorem Build.pushKey_refresh : (b.pushKey id key).refresh = b.refresh := rfl
@[simp] theorem Build.pushKey_seen : (b.pushKey id key).seen = b.seen := rfl

@[simp] theorem Build.pushKey_self : (b.pushKey id key).next id = some key := by
  simp [Build.pushKey]

theorem Build.pushKey_ne {other : Bytes} (h : other ≠ id) :
    (b.pushKey id key).next other = b.next other := by simp [Build.pushKey, h]

@[simp] theorem Build.recordDeps_disk : (b.recordDeps a entry).disk = b.disk := by
  unfold Build.recordDeps
  split <;> rfl

@[simp] theorem Build.recordDeps_memo : (b.recordDeps a entry).memo = b.memo := by
  unfold Build.recordDeps
  split <;> rfl

@[simp] theorem Build.recordDeps_prev : (b.recordDeps a entry).prev = b.prev := by
  unfold Build.recordDeps
  split <;> rfl

@[simp] theorem Build.recordDeps_prevDeps : (b.recordDeps a entry).prevDeps = b.prevDeps := by
  unfold Build.recordDeps
  split <;> rfl

@[simp] theorem Build.recordDeps_next : (b.recordDeps a entry).next = b.next := by
  unfold Build.recordDeps
  split <;> rfl

@[simp] theorem Build.recordDeps_actions : (b.recordDeps a entry).actions = b.actions := by
  unfold Build.recordDeps
  split <;> rfl

@[simp] theorem Build.recordDeps_refresh : (b.recordDeps a entry).refresh = b.refresh := by
  unfold Build.recordDeps
  split <;> rfl

@[simp] theorem Build.recordDeps_seen : (b.recordDeps a entry).seen = b.seen := by
  unfold Build.recordDeps
  split <;> rfl

theorem Build.mem_recordDeps {depfile : Bytes} {e : DepEntry} :
    (depfile, e) ∈ (b.recordDeps a entry).nextDeps ↔
      (depfile, e) ∈ b.nextDeps ∨ (a.depfile = some depfile ∧ entry = some e) := by
  unfold Build.recordDeps
  cases ha : a.depfile with
  | none => simp
  | some d =>
    cases entry with
    | none => simp [Deps.record]
    | some e' =>
      simp only [Deps.record, List.mem_cons, Prod.mk.injEq, Option.some.injEq]
      constructor
      · intro h
        rcases h with h | h
        · exact .inr ⟨h.1.symm, h.2.symm⟩
        · exact .inl h
      · intro h
        rcases h with h | h
        · exact .inr h
        · exact .inl ⟨h.1.symm, h.2.symm⟩

end Updates

/-- The state of the depfile of an action. -/
def depfileOnDisk (disk : Disk) (a : Action) : Option FileState := a.depfile.bind disk

/-- The prepared form of an action whose depfile lists the given inputs. -/
def Build.prepared (set : Setting) (b : Build) (a : Action) (depInputs : List Bytes) : Prepared :=
  let inputs := appendUnique a.staticInputs depInputs
  { action := a
    depfileState := depfileOnDisk b.disk a
    depInputs := depInputs
    inputs := inputs
    key := actionKey set a b.seen inputs depInputs a.keyOutput }

/-- The end of the prepare functions and of `prepare_cached_action`: the depfile inputs join
the static ones and the key is computed. -/
def Build.prepare (set : Setting) (b : Build) (a : Action) : Option Build :=
  match discoverInputs b.disk b.prevDeps a.depfile with
  | .error _ => none
  | .ok (depInputs, entry) =>
    let p := b.prepared set a depInputs
    some (((b.remember (p.inputs ++ depInputs)).recordDeps a entry).setAction .prepared p)

/-- `outputs_exist` -/
def outputsExist (disk : Disk) (a : Action) : Bool := a.outputs.all fun rel => (disk rel).isSome

/-- `prepared_action_cache_hit` -/
def Build.cacheHit (b : Build) (p : Prepared) : Bool :=
  decide (b.prev p.action.id = some p.key) && outputsExist b.disk p.action

/-- A hit is recorded and skipped; otherwise a process is started. -/
def Build.launch (b : Build) (p : Prepared) : Build :=
  if b.cacheHit p then (b.pushKey p.action.id p.key).setAction .skipped p
  else b.setAction .running p

/-- `finish_running_action` after exit status zero. -/
def Build.finish (b : Build) (p : Prepared) : Build :=
  let done := (b.pushKey p.action.id p.key).setAction .finished p
  if p.action.depfile.isSome then { done with refresh := done.refresh ++ [p] } else done

inductive Event where
  | prepare (a : Action)
  | launch (id : Bytes)
  /-- A running process writes or removes a file. -/
  | write (id path : Bytes) (content : Option FileState)
  | finish (id : Bytes)
  /-- A change of a file by anyone but the action processes. -/
  | change (path : Bytes) (content : Option FileState)

def Build.setFile (b : Build) (path : Bytes) (content : Option FileState) : Build :=
  { b with disk := Function.update b.disk path content }

/-- One step; `none` where the step is not possible or fails the build. -/
def Build.step (set : Setting) (b : Build) : Event → Option Build
  | .prepare a =>
    match b.actions a.id with
    | none => b.prepare set a
    | some _ => none
  | .launch id =>
    match b.actions id with
    | some (.prepared, p) => some (b.launch p)
    | _ => none
  | .write id path content =>
    match b.actions id with
    | some (.running, _) => some (b.setFile path content)
    | _ => none
  | .finish id =>
    match b.actions id with
    | some (.running, p) => some (b.finish p)
    | _ => none
  | .change path content => some (b.setFile path content)

def Build.run (set : Setting) (b : Build) (events : List Event) : Option Build :=
  events.foldlM (Build.step set) b

/-- `copy_static_inputs` -/
def copyStaticInputs (inputs depInputs : List Bytes) : List Bytes := without inputs depInputs

/-- The input list `refresh_action_state_after_depfile` forms. -/
def refreshedInputs (p : Prepared) (depInputs : List Bytes) : List Bytes :=
  appendUnique (copyStaticInputs p.inputs p.depInputs) depInputs

/-- `refresh_action_state_after_depfile` -/
def Build.refreshOne (set : Setting) (b : Build) (p : Prepared) : Option Build :=
  match discoverInputs b.disk b.prevDeps p.action.depfile with
  | .error _ => none
  | .ok (depInputs, entry) =>
    let inputs := refreshedInputs p depInputs
    let key := actionKey set p.action b.seen inputs depInputs p.action.firstOutput
    some (((b.remember (inputs ++ depInputs)).recordDeps p.action entry).pushKey
      p.action.id key)

/-- `depfile_refresh_queue_flush` -/
def Build.flush (set : Setting) (b : Build) : Option Build :=
  b.refresh.foldlM (Build.refreshOne set) b

/-- The databases after a successful build; keys of actions that were not visited stay. -/
def Build.save (b : Build) : Saved where
  disk := b.disk
  keys := fun id => (b.next id).or (b.prev id)
  deps := if b.nextDeps = [] then b.prevDeps else b.nextDeps

/-- Every action that was visited is skipped or finished. -/
def Build.Settled (b : Build) : Prop :=
  ∀ id phase p, b.actions id = some (phase, p) → phase = .skipped ∨ phase = .finished

/-- A successful build: its steps, the flush, and the saved databases. -/
def buildSucceeds (set : Setting) (saved : Saved) (events : List Event) (b : Build)
    (after : Saved) : Prop :=
  (Build.start saved).run set events = some b ∧ b.Settled ∧
    ∃ flushed, b.flush set = some flushed ∧ after = flushed.save

/-- A build that stops after any of its steps; only the files keep what it did. -/
def buildStops (set : Setting) (saved : Saved) (events : List Event) (b : Build)
    (after : Saved) : Prop :=
  (Build.start saved).run set events = some b ∧ after = { saved with disk := b.disk }

end QStar.Stella
