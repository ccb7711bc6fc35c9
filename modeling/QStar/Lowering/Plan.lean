import QStar.Lowering.Prepare

/-!
# The plan of lowered actions

A plan records the lowered actions of the targets in a closure, and a build rebuilds
its actions from the records. The record found for an action is its own.
-/
namespace QStar.Lowering.Plan

open QStar.Lib.CStrings
open QStar.Lib.Results
open QStar.Base
open QStar.BuildGraph
open QStar.Stella

/-- `struct qstar_cached_action` -/
structure CachedAction where
  id : Bytes
  kind : Bytes
  targetLabel : Bytes
  depfile : Bytes
  sourcePath : Bytes
  wantsDepfile : Bool
  argv : List Bytes
  env : List Bytes
  outputs : List Bytes
  inputs : List Bytes
  depfileInputs : List Bytes

/-- `cache_prepared_action` -/
def cachePreparedAction (p : PreparedAction) : CachedAction where
  id := p.id
  kind := p.kind
  targetLabel := p.owner
  depfile := p.depfile
  sourcePath := p.sourcePath
  wantsDepfile := p.wantsDepfile
  argv := p.argv
  env := p.env
  outputs := p.outputs
  inputs := without p.inputs p.depfileInputs
  depfileInputs := p.depfileInputs

/-- The actions `lowered_cache_visit` records for a target. -/
def planTarget (h : Host) (g : Graph) (t : Target) : Except LoweringError (List CachedAction) :=
  if hasNoToolchain t then .ok []
  else do
    let tc := resolveToolchain g t
    validateStrategies g t tc
    validateNoncompileSources h g t tc
    let actions ← (ownNodes g t).mapM (lowerNode h g)
    return actions.map fun a => cachePreparedAction (a.prepared [])

/-- `qstar_graph_prepare_lowered_action_cache` over the targets of a closure. -/
def prepareLoweredActionCache (h : Host) (g : Graph) (closure : List Target) :
    Except LoweringError (List CachedAction) := do
  let plans ← closure.mapM (planTarget h g)
  return plans.flatten

/-- `find_cached_action` -/
def findCachedAction (plan : List CachedAction) (id : Bytes) : Option CachedAction :=
  plan.find? fun c => c.id = id

/-- A record that can be turned into an action of a target. -/
def CachedAction.fits (c : CachedAction) (t : Target) (kind : Bytes) : Bool :=
  c.targetLabel = t.label && c.kind = kind && c.argv ≠ [] && c.outputs ≠ []

/-- The inputs a depfile adds, or those recorded. -/
def CachedAction.discover (c : CachedAction) (disk : Disk) (deps : Deps) :
    Except DepfileError (List Bytes) :=
  if c.wantsDepfile then (pushDepfileInputs disk deps c.depfile).map Prod.fst
  else .ok c.depfileInputs

/-- `prepare_cached_action`; no record is no action. -/
def prepareCachedAction (disk : Disk) (deps : Deps)
    (plan : List CachedAction) (t : Target) (tc : Toolchain) (id kind : Bytes) :
    Except DepfileError (Option Ready) :=
  match findCachedAction plan id with
  | none => .ok none
  | some c =>
    if c.fits t kind = false then .ok none
    else do
      let depInputs ← c.discover disk deps
      let p : PreparedAction :=
        { id := c.id
          kind := c.kind
          owner := t.label
          toolchain := some tc
          sourcePath := c.sourcePath
          argv := c.argv
          env := c.env
          outputs := c.outputs
          depfile := c.depfile
          wantsDepfile := c.wantsDepfile
          inputs := if c.wantsDepfile then appendUnique c.inputs depInputs else c.inputs
          depfileInputs := depInputs }
      return some ⟨p, c.outputs.headD [], disk⟩

/-! ## Where a record comes from -/

section Records

variable {h h₀ : Host} {g : Graph} {t : Target} {node : ActionNode} {a : LoweredAction}
  {closure : List Target} {plan : List CachedAction} {c : CachedAction}

theorem mem_planTarget {records : List CachedAction} (hplan : planTarget h g t = .ok records)
    (hc : c ∈ records) :
    hasNoToolchain t = false ∧ ∃ node ∈ ownNodes g t, ∃ a, lowerNode h g node = .ok a ∧
      c = cachePreparedAction (a.prepared []) := by
  unfold planTarget at hplan
  split at hplan
  · cases hplan
    cases hc
  · rename_i hkind
    simp only [bind_eq_ok] at hplan
    obtain ⟨-, -, -, -, actions, hactions, hplan⟩ := hplan
    cases hplan
    obtain ⟨a, hmem, rfl⟩ := List.mem_map.mp hc
    obtain ⟨node, hnode, ha⟩ := mapM_eq_ok_mem hactions a hmem
    exact ⟨by simpa using hkind, node, hnode, a, ha, rfl⟩

theorem mem_plan (hplan : prepareLoweredActionCache h g closure = .ok plan) (hc : c ∈ plan) :
    ∃ t ∈ closure, hasNoToolchain t = false ∧ ∃ node ∈ ownNodes g t, ∃ a,
      lowerNode h g node = .ok a ∧ c = cachePreparedAction (a.prepared []) := by
  obtain ⟨plans, hplans, hplan⟩ := bind_eq_ok.mp hplan
  cases hplan
  obtain ⟨records, hrecords, hc⟩ := List.mem_flatten.mp hc
  obtain ⟨t, ht, hplanned⟩ := mapM_eq_ok_mem hplans records hrecords
  exact ⟨t, ht, mem_planTarget hplanned hc⟩

/-- The record found for a node is that of its own action. -/
theorem findCachedAction_eq (hclosure : ∀ t ∈ closure, t ∈ g.targets)
    (hplan : prepareLoweredActionCache h₀ g closure = .ok plan) (ht : t ∈ closure)
    (hkind : hasNoToolchain t = false) (hnode : node ∈ ownNodes g t)
    (ha : lowerNode h g node = .ok a) (hc : findCachedAction plan (nodeId node) = some c) :
    c = cachePreparedAction (a.prepared []) := by
  obtain ⟨t', ht', hkind', node', hnode', a', ha', rfl⟩ := mem_plan hplan (List.mem_of_find?_eq_some hc)
  have hfound := List.find?_some hc
  have hid : a'.id = nodeId node := of_decide_eq_true hfound
  rw [lowerNode_id ha'] at hid
  obtain rfl := nodeId_inj (hclosure t' ht') (hclosure t ht) hkind' hkind hnode' hnode hid
  rw [lowerNode_host ha' ha]

end Records

end QStar.Lowering.Plan
