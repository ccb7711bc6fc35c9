import QStar.Lowering.Materialize
import QStar.Lowering.Plan
import QStar.Scheduler.Discovery

/-!
# Commands a build prepares

The process actions and configured files of the schedule of a label, each prepared in
the state its node finds: rebuilt from the plan that was lowered before where it has a
record, and lowered from the graph otherwise.
-/
namespace QStar.Explain

open QStar.Lib.CStrings
open QStar.Lib.Results
open QStar.Base
open QStar.BuildGraph
open QStar.Stella
open QStar.Lowering
open QStar.Lowering.Plan
open QStar.Scheduler.Discovery

/-- What a build finds when it prepares a node: the files, the depfile database and the plan
that was lowered from the graph, if there is one. -/
structure BuildState (g : Graph) where
  disk : Disk
  now : Nat
  deps : Deps
  plan : List CachedAction
  planned : ∃ h closure, (∀ t ∈ closure, t ∈ g.targets) ∧
    prepareLoweredActionCache h g closure = .ok plan

/-- Why an action cannot be prepared. -/
inductive PrepareError where
  | lowering (e : LoweringError)
  | depfile (e : DepfileError)

/-- The target and the kind a record of the plan is looked up for. -/
def plannedAs : ActionNode → Option (Target × Bytes)
  | .cxxPch t => some (t, ascii "compile")
  | .compile t _ => some (t, ascii "compile")
  | .consumerCompile t _ _ _ => some (t, ascii "compile")
  | .final t => some (t, finalAction t)
  | .generate _ => none
  | .run _ => none

/-- A node that is prepared from the graph. -/
def prepareFresh (h : Host) (g : Graph) (st : BuildState g) (node : ActionNode) :
    Except PrepareError Ready := do
  let a ← (lowerNode h g node).mapError .lowering
  (prepareLowered st.disk st.now st.deps a).mapError .depfile

/-- The record of the plan for a node, if it has one that fits. -/
def preparePlanned (g : Graph) (st : BuildState g) (node : ActionNode) :
    Except PrepareError (Option Ready) :=
  match plannedAs node with
  | none => .ok none
  | some (t, kind) =>
    (prepareCachedAction st.disk st.deps st.plan t (resolveToolchain g t) (nodeId node)
      kind).mapError .depfile

/-- `scheduler_prepare_process_node` -/
def prepareProcessNode (h : Host) (g : Graph) (st : BuildState g) (node : ActionNode) :
    Except PrepareError Ready := do
  let planned ← preparePlanned g st node
  match planned with
  | some r => return r
  | none => prepareFresh h g st node

/-- The command of a prepared action and the response file it is handed to its tool in. -/
structure PreparedCommand where
  id : Bytes
  argv : List Bytes
  digest : Bytes
  response : Option ResponseFile

/-- The command `start_prepared_action` materializes for a node. -/
def prepareCommand (h : Host) (g : Graph) (states : ActionNode → BuildState g)
    (node : ActionNode) : Except PrepareError PreparedCommand := do
  let r ← prepareProcessNode h g (states node) node
  let response ← (actionMaterialize g (materializationToolchain g node) r.action.id
    r.action.argv).mapError .lowering
  return ⟨r.action.id, r.action.argv, argvKey r.action.argv, response⟩

/-- The part of `run_one_generated_action` for a configured file, which is written without a
process. -/
def configuredCommand (g : Graph) (r : Genrule) : Except LoweringError PreparedCommand := do
  validateArgs r
  let argv ← (r.tool :: r.args).mapM (resolveCommandToken g)
  let _ ← r.inputs.foldlM (pushActionInput g) []
  let _ ← commandInputs g (r.tool :: r.args)
  return ⟨singleActionId r.label (ascii "generate"), argv, argvKey argv, none⟩

/-- The process actions of a schedule: those of the targets found and of the generated
actions that are needed. -/
def scheduledNodes (h : Host) (g : Graph) (f : Found) : Except LoweringError (List ActionNode) := do
  let nodes ← f.targets.mapM (targetNodes h g)
  return nodes.flatten ++ (g.genrules.filter f.needs).flatMap genruleNodes

/-- The configured files of a schedule. -/
def scheduledFiles (g : Graph) (f : Found) : List Genrule :=
  g.genrules.filter fun r => f.needs r && r.configHeader

/-- The commands a build of a label prepares. -/
def prepareBuild (h : Host) (g : Graph) (states : ActionNode → BuildState g)
    (label : Option Bytes) : Except PrepareError (List PreparedCommand) := do
  let f ← (schedulerDiscover g label).mapError .lowering
  let nodes ← (scheduledNodes h g f).mapError .lowering
  let processes ← nodes.mapM (prepareCommand h g states)
  let files ← ((scheduledFiles g f).mapM (configuredCommand g)).mapError .lowering
  return processes ++ files

end QStar.Explain
