import QStar.Lowering.LinkOrder

/-!
# The closure of usage requirements

The options and inputs a target is asked to use are those of its dependencies, direct
and private ones, and of what these depend on publicly. The walk that collects them
enters a target once, whichever of the two lists and whichever way it came by first.
-/
namespace QStar.Lowering

open QStar.Lib.CStrings
open QStar.Lib.Results
open QStar.Lib.Walks
open QStar.Base
open QStar.BuildGraph
open Relation

/-- A label of a list names a target: it is not an external one and the graph has a target of it. -/
def Names (g : Graph) (labels : List Bytes) (dep : Target) : Prop :=
  ∃ label ∈ labels, label.head? ≠ some 64 ∧ findTarget g label = some dep

/-- A target that a target depends on, and what that one publicly depends on. -/
def UsageReaches (g : Graph) (t dep : Target) : Prop :=
  ∃ first, (Names g t.deps first ∨ Names g t.privateDeps first) ∧
    ReflTransGen (fun a b => Names g a.deps b) first dep

theorem mem_followed {g : Graph} {labels : List Bytes} {dep : Target} :
    dep ∈ followed g labels ↔ Names g labels dep := by
  unfold followed Names
  rw [List.mem_filterMap]
  refine exists_congr fun label => and_congr_right fun _ => ?_
  by_cases hexternal : label.head? = some 64
  · simp [hexternal]
  · simp [hexternal]

theorem names_append {g : Graph} {xs ys : List Bytes} {dep : Target} :
    Names g (xs ++ ys) dep ↔ Names g xs dep ∨ Names g ys dep := by
  simp only [Names, List.mem_append, or_and_right, exists_or]

theorem leads_followed_iff {g : Graph} {t dep : Target} :
    Leads (fun a => followed g a.deps) (followed g (t.deps ++ t.privateDeps)) dep ↔
      UsageReaches g t dep := by
  have hstep : Step (fun a : Target => followed g a.deps) = fun a b => Names g a.deps b :=
    funext fun a => funext fun b => propext mem_followed
  rw [Leads, UsageReaches, hstep]
  refine exists_congr fun first => and_congr_left fun _ => ?_
  rw [mem_followed, names_append]

section Total

variable {σ : Type} {g : Graph} {visit : Target → σ → Except LoweringError σ}
  {next : Target → List Bytes}

theorem foldlM_followLabel_total
    {step : Target → List Bytes × σ → Except LoweringError (List Bytes × σ)}
    (hstep : ∀ t acc, ∃ r, step t acc = .ok r) (labels : List Bytes) (acc : List Bytes × σ) :
    ∃ r, labels.foldlM (followLabel g step) acc = .ok r := by
  induction labels generalizing acc with
  | nil => exact ⟨acc, rfl⟩
  | cons label rest ih =>
    obtain ⟨mid, hmid⟩ : ∃ mid, followLabel g step acc label = .ok mid := by
      unfold followLabel
      split
      · exact ⟨acc, rfl⟩
      · split
        · exact ⟨acc, rfl⟩
        · exact hstep _ acc
    obtain ⟨r, hr⟩ := ih mid
    refine ⟨r, ?_⟩
    rw [List.foldlM_cons]
    exact bind_eq_ok.mpr ⟨mid, hmid, hr⟩

/-- A walk fails only where a visit does. -/
theorem visitOnce_total (hvisit : ∀ t s, ∃ s', visit t s = .ok s') (fuel : Nat) (t : Target)
    (acc : List Bytes × σ) : ∃ r, visitOnce g visit next fuel t acc = .ok r := by
  induction fuel generalizing t acc with
  | zero => exact ⟨acc, rfl⟩
  | succ fuel ih =>
    obtain ⟨seen, s⟩ := acc
    unfold visitOnce
    split
    · exact ⟨(seen, s), rfl⟩
    · obtain ⟨mid, hmid⟩ := hvisit t s
      obtain ⟨r, hr⟩ := foldlM_followLabel_total (g := g) ih (next t) (seen ++ [t.label], mid)
      exact ⟨r, bind_eq_ok.mpr ⟨mid, hmid, hr⟩⟩

theorem visitDeps_total (hvisit : ∀ t s, ∃ s', visit t s = .ok s') (t : Target) (s : σ) :
    ∃ s', visitDeps g visit next t s = .ok s' := by
  have hstep : ∀ t' acc, ∃ r, visitOnce g visit next (g.targets.length + 1) t' acc = .ok r :=
    visitOnce_total hvisit _
  obtain ⟨⟨entered, s'⟩, h⟩ := foldlM_followLabel_total (g := g) hstep (t.deps ++ t.privateDeps) ([], s)
  exact ⟨s', bind_eq_ok.mpr ⟨(entered, s'), h, rfl⟩⟩

end Total

/-- What a walk over some targets has collected. -/
theorem foldlM_usage {phase : UsagePhase} {order : List Target} {before after : Usage}
    (h : order.foldlM (fun usage dep => (.ok
      ⟨appendUnique usage.options (usageOptionsOf phase dep),
        appendUnique usage.inputs (usageInputsOf phase dep)⟩ : Except LoweringError Usage)) before =
          .ok after) :
    after.options = appendUnique before.options (order.flatMap (usageOptionsOf phase)) ∧
      after.inputs = appendUnique before.inputs (order.flatMap (usageInputsOf phase)) := by
  induction order generalizing before with
  | nil =>
    cases h
    exact ⟨rfl, rfl⟩
  | cons dep rest ih =>
    obtain ⟨hoptions, hinputs⟩ := ih h
    rw [hoptions, hinputs, List.flatMap_cons, List.flatMap_cons, appendUnique_append,
      appendUnique_append]
    exact ⟨rfl, rfl⟩

/-- Usage options and inputs are collected without an error and without repetition, from the
targets that are reached by one dependency, public or private, and public ones after it. The walk
is finite whether or not the dependencies have cycles. -/
theorem collectUsage_closure (g : Graph) (phase : UsagePhase) (t : Target) :
    ∃ usage order, collectUsage g phase t = .ok usage ∧
      Walk (fun dep => followed g dep.deps) (followed g (t.deps ++ t.privateDeps)) [] order ∧
      usage.options = appendUnique [] (order.flatMap (usageOptionsOf phase)) ∧
      usage.inputs = appendUnique [] (order.flatMap (usageInputsOf phase)) ∧
      usage.options.Nodup ∧ usage.inputs.Nodup ∧
      (∀ option, option ∈ usage.options ↔
        ∃ dep, UsageReaches g t dep ∧ option ∈ usageOptionsOf phase dep) ∧
      ∀ input, input ∈ usage.inputs ↔
        ∃ dep, UsageReaches g t dep ∧ input ∈ usageInputsOf phase dep := by
  obtain ⟨usage, husage⟩ : ∃ usage, collectUsage g phase t = .ok usage :=
    visitDeps_total (fun dep s => ⟨_, rfl⟩) t _
  obtain ⟨order, hwalk, hcollected⟩ := visitDeps_visits husage
  obtain ⟨hoptions, hinputs⟩ := foldlM_usage hcollected
  have hmem : ∀ {dep}, dep ∈ order ↔ UsageReaches g t dep := by
    intro dep
    rw [hwalk.mem_iff_leads, leads_followed_iff]
  refine ⟨usage, order, husage, hwalk, hoptions, hinputs, ?_, ?_, ?_, ?_⟩
  · rw [hoptions]
    exact nodup_appendUnique _ List.nodup_nil
  · rw [hinputs]
    exact nodup_appendUnique _ List.nodup_nil
  · intro option
    simp [hoptions, hmem]
  · intro input
    simp [hinputs, hmem]

end QStar.Lowering
