import QStar.Stella.Build
import QStar.Stella.StateFiles

/-!
# The databases of a build directory and their copies in a daemon

Builds load the action state and the discovered dependencies when they begin and
save what they have when they succeed; a build of a daemon takes both from the
memory of the daemon, once they are there, and updates the memory after each
file. Builds and cleans of one build directory come in any order, and a build may
begin before another has ended. There is one build directory, so that the paths
of the copies always match. The file of the dependencies holds what was written.
-/
namespace QStar.Daemon.Resident

open QStar.Lib.CStrings
open QStar.Base
open QStar.Stella

/-- The dependencies a build has recorded, one entry for each depfile. -/
structure DepRecords where
  deps : Deps
  distinct : (deps.map Prod.fst).Nodup

/-- The checks of `deps_db_load` on an entry. -/
def depReadable (e : Bytes × DepEntry) : Bool :=
  e.1 ≠ [] && e.1.length ≤ stateDbMaxString && e.2.digest.length < digestSize &&
    e.2.inputs.length ≤ 1000000 &&
    e.2.inputs.all fun input => input.length ≤ stateDbMaxString && isPackageRelative input

/-- The checks of `deps_db_load` -/
def depsReadable (deps : Deps) : Bool := deps.length ≤ 10000000 && deps.all depReadable

/-- `deps_db_load`; a refused file is like none. -/
def depsLoad : Option Deps → Deps
  | none => []
  | some deps => if depsReadable deps then deps else []

/-- `deps_unchanged` -/
def depsUnchanged (prev next : Deps) : Bool :=
  prev.length = next.length && next.all fun e => prev.find e.1 = some e.2

/-- `deps_db_write` replaces the file. -/
def depsWrites (file : Option Deps) (prev next : Deps) : Bool :=
  next ≠ [] && !(depsUnchanged prev next && file.isSome)

/-- `state_preserve_previous_unvisited` -/
def preserveUnvisited (visited prev : List StateEntry) : List StateEntry :=
  prev.foldl (fun next e => if (stateFind next e.id).isSome then next else next ++ [e]) visited

/-- `struct qstar_stella_state_cache` -/
structure Memory where
  state : Option (List StateEntry)
  deps : Option Deps
  deriving DecidableEq

/-- A build under way: what it loaded. -/
structure Working where
  prev : List StateEntry
  prevDeps : Deps
  deriving DecidableEq

/-- Where the saving of a build ends. -/
inductive Stop where
  /-- Before or during `state_write`, after some of its renames; none where the build failed. -/
  | saving (renames : Nat)
  /-- Before `deps_db_write` has replaced the file. -/
  | dependencies
  /-- Before `deps_memory_update` -/
  | remembering
  | complete
  deriving DecidableEq

/-- The end of a build: the actions it visited, the dependencies it recorded, whether it dumps the
state, and how far it got. -/
structure Finish where
  visited : Entries
  deps : DepRecords
  dump : Bool
  stop : Stop

/-- The files, the memory of the daemon, and the builds under way. -/
structure Shared where
  files : StateFiles
  deps : Option Deps
  memory : Memory
  daemon : Option Working
  direct : List Working

/-- What `state_write` is given. -/
def Working.next (w : Working) (f : Finish) : List StateEntry :=
  preserveUnvisited f.visited.entries w.prev

/-- The renames of the state files that happen. -/
def Shared.renames (s : Shared) (w : Working) (f : Finish) : List Rename :=
  let all := stateWrite s.files w.prev (w.next f) f.dump
  match f.stop with
  | .saving n => all.take n
  | _ => all

/-- `deps_db_write` is reached and replaces the file. -/
def Shared.replacesDeps (s : Shared) (w : Working) (f : Finish) : Bool :=
  match f.stop with
  | .saving _ | .dependencies => false
  | .remembering | .complete => depsWrites s.deps w.prevDeps f.deps.deps

/-- The end of a build up to the memory. -/
def Shared.save (s : Shared) (w : Working) (f : Finish) : Shared :=
  { s with
    files := (s.renames w f).foldl Rename.apply s.files
    deps := if s.replacesDeps w f then some f.deps.deps else s.deps }

/-- `state_memory_update` and `deps_memory_update` -/
def Memory.update (m : Memory) (w : Working) (f : Finish) : Memory :=
  match f.stop with
  | .saving _ => m
  | .dependencies | .remembering => { m with state := some (w.next f) }
  | .complete => ⟨some (w.next f), if f.deps.deps = [] then m.deps else some f.deps.deps⟩

/-- `state_load_with_memory` -/
def Shared.stateWithMemory (s : Shared) : List StateEntry :=
  s.memory.state.getD (stateLoad s.files)

/-- `deps_load_with_memory` -/
def Shared.depsWithMemory (s : Shared) : Deps := s.memory.deps.getD (depsLoad s.deps)

/-- The memory once both are loaded; no dependencies are not kept. -/
def Shared.warmed (s : Shared) : Memory where
  state := some s.stateWithMemory
  deps := if s.depsWithMemory = [] then s.memory.deps else some s.depsWithMemory

inductive Event where
  | daemonBegin
  | daemonEnd (f : Finish)
  | directBegin
  | directEnd (build : Nat) (f : Finish)
  /-- `qstar clean` -/
  | clean
  /-- `qstar clean LABEL`, which removes outputs -/
  | cleanTarget
  /-- Another daemon takes the place of this one. -/
  | restart

def Shared.step (s : Shared) : Event → Shared
  | .daemonBegin =>
    match s.daemon with
    | some _ => s
    | none =>
      { s with memory := s.warmed, daemon := some ⟨s.stateWithMemory, s.depsWithMemory⟩ }
  | .daemonEnd f =>
    match s.daemon with
    | none => s
    | some w => { s.save w f with memory := s.memory.update w f, daemon := none }
  | .directBegin => { s with direct := s.direct ++ [⟨stateLoad s.files, depsLoad s.deps⟩] }
  | .directEnd k f =>
    match s.direct[k]? with
    | none => s
    | some w => { s.save w f with direct := s.direct.eraseIdx k }
  | .clean => { s with files := ⟨.missing, .missing⟩, deps := none }
  | .cleanTarget => s
  | .restart => { s with memory := ⟨none, none⟩, daemon := none }

/-- A build directory that nothing was built in. -/
def Shared.start : Shared := ⟨⟨.missing, .missing⟩, none, ⟨none, none⟩, none, []⟩

/-- An entry without what happened to its action in the build that recorded it. -/
def recorded (e : StateEntry) : StateEntry := { e with status := [] }

/-- Entries that differ in their order and in what happened to the actions. -/
def AlikeState (a b : List StateEntry) : Prop :=
  ∀ id, (stateFind a id).map recorded = (stateFind b id).map recorded

/-- Entries that differ in their order. -/
def AlikeDeps (a b : Deps) : Prop := ∀ depfile, a.find depfile = b.find depfile

/-- What a build of the daemon would load and what a direct build would load. -/
structure Shared.Agrees (R : List StateEntry → List StateEntry → Prop) (D : Deps → Deps → Prop)
    (s : Shared) : Prop where
  state : R s.stateWithMemory (stateLoad s.files)
  deps : D s.depsWithMemory (depsLoad s.deps)

/-- The comparison of keys in `prepared_action_cache_hit` -/
def keyHit (prev : List StateEntry) (id key : Bytes) : Bool :=
  (stateFind prev id).any fun e => e.key = key

/-- The same actions hit, the same dependencies are taken over, and a build of the daemon that is
under way has an entry for every action that has one on disk. -/
structure Shared.SameDecisions (s : Shared) : Prop where
  hits : ∀ id key, keyHit s.stateWithMemory id key = keyHit (stateLoad s.files) id key
  deps : ∀ depfile, s.depsWithMemory.find depfile = (depsLoad s.deps).find depfile
  kept : ∀ w, s.daemon = some w → ∀ id, (stateFind (stateLoad s.files) id).isSome = true →
    ∀ f, (stateFind (w.next f) id).isSome = true

/-- The state files are replaced. -/
def Shared.replacesState (s : Shared) (w : Working) (f : Finish) : Bool := s.renames w f ≠ []

/-- What is written can be read back. -/
def Shared.WritesReadable (s : Shared) (w : Working) (f : Finish) : Prop :=
  (s.replacesState w f = true → WithinLimits (w.next f)) ∧
    (s.replacesDeps w f = true → depsReadable f.deps.deps = true)

/-- What is written is readable, and where the memory does not follow it is what the memory holds:
for a build of the daemon that stops in between, for a direct build, and for a clean. -/
def Event.Meets (R : List StateEntry → List StateEntry → Prop) (D : Deps → Deps → Prop)
    (s : Shared) : Event → Prop
  | .daemonEnd f => ∀ w, s.daemon = some w → s.WritesReadable w f ∧
      (s.replacesState w f = true → (∃ n, f.stop = .saving n) → R w.prev (w.next f)) ∧
      (s.replacesDeps w f = true → f.stop = .remembering → w.prevDeps ≠ [] →
        D w.prevDeps f.deps.deps)
  | .directEnd k f => ∀ w, s.direct[k]? = some w → s.WritesReadable w f ∧
      (s.replacesState w f = true → ∀ es, s.memory.state = some es → R es (w.next f)) ∧
      (s.replacesDeps w f = true → ∀ ds, s.memory.deps = some ds → D ds f.deps.deps)
  | .clean => (∀ es, s.memory.state = some es → R es []) ∧ ∀ ds, s.memory.deps = some ds → D ds []
  | _ => True

/-- A build of the daemon that does not replace a file leaves its copy as it was loaded. -/
def Event.Silent (R : List StateEntry → List StateEntry → Prop) (D : Deps → Deps → Prop)
    (s : Shared) : Event → Prop
  | .daemonEnd f => ∀ w, s.daemon = some w →
      (s.replacesState w f = false → (∀ n, f.stop ≠ .saving n) → R (w.next f) w.prev) ∧
      (s.replacesDeps w f = false → f.stop = .complete → f.deps.deps ≠ [] →
        D f.deps.deps w.prevDeps)
  | _ => True

end QStar.Daemon.Resident
