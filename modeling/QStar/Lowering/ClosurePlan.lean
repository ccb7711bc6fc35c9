import QStar.Lowering.Closure
import Mathlib.Data.List.Sort

/-!
# Closures by index

The traversal as the code runs it: a state for every index of the array of targets,
labels looked up one after the other between the visits, and indices sorted in place
for a whole graph. It finishes what the search over targets finishes, in its order.
-/
namespace QStar.Lowering

open QStar.Lib.CStrings
open QStar.Lib.Fixpoints
open QStar.Lib.Results
open QStar.Lib.Search
open QStar.Base
open QStar.BuildGraph

/-- The states 0, 1 and 2 of `struct qstar_plan` -/
inductive VisitState where
  | unvisited
  | entered
  | finished
  deriving DecidableEq

/-- `struct qstar_plan` -/
structure ClosurePlan (g : Graph) where
  order : List Target
  state : Fin g.targets.length → VisitState

def ClosurePlan.empty (g : Graph) : ClosurePlan g := ⟨[], fun _ => .unvisited⟩

def ClosurePlan.enter {g : Graph} (p : ClosurePlan g) (index : Fin g.targets.length) :
    ClosurePlan g :=
  { p with state := Function.update p.state index .entered }

/-- `plan_push` of a target that is finished -/
def ClosurePlan.finish {g : Graph} (p : ClosurePlan g) (index : Fin g.targets.length) :
    ClosurePlan g where
  order := p.order ++ [g.targets.get index]
  state := Function.update p.state index .finished

/-- `target_index` -/
def targetIndex (g : Graph) (label : Bytes) : Option (Fin g.targets.length) :=
  g.targets.findFinIdx? fun t => t.label = label

/-- One label of a list in `visit_target`; only dependencies may be external. -/
def visitDependency (g : Graph)
    (visit : Fin g.targets.length → ClosurePlan g → Except LoweringError (ClosurePlan g))
    (external : Bool) (p : ClosurePlan g) (dep : Bytes) : Except LoweringError (ClosurePlan g) :=
  match targetIndex g dep with
  | some index => visit index p
  | none =>
    if external ∧ dep.head? = some 64 then
      if externalDepResolved g dep then .ok p else .error (.unresolvedPackage dep)
    else if (findGenrule g dep).isSome then .ok p
    else .error (.unknownDependency dep)

/-- The lists of a target in `visit_target` -/
def visitDependencies (g : Graph)
    (visit : Fin g.targets.length → ClosurePlan g → Except LoweringError (ClosurePlan g))
    (t : Target) (p : ClosurePlan g) : Except LoweringError (ClosurePlan g) := do
  let p ← t.objects.foldlM (visitDependency g visit false) p
  let p ← t.deps.foldlM (visitDependency g visit true) p
  t.privateDeps.foldlM (visitDependency g visit true) p

/-- `visit_target`; every level below enters a target, which bounds the depth. -/
def visitTarget (g : Graph) :
    Nat → Fin g.targets.length → ClosurePlan g → Except LoweringError (ClosurePlan g)
  | 0, _, _ => .error .searchTooDeep
  | fuel + 1, index, p =>
    match p.state index with
    | .finished => .ok p
    | .entered => .error (.dependencyCycle (g.targets.get index).label)
    | .unvisited => do
      let p ← visitDependencies g (visitTarget g fuel) (g.targets.get index) (p.enter index)
      return p.finish index

/-- Whether `sort_indices` leaves `v` behind `w`. -/
def sortsAfter (g : Graph) (v w : Fin g.targets.length) : Prop :=
  (g.targets.get w).label ≤ (g.targets.get v).label

instance (g : Graph) : DecidableRel (sortsAfter g) := fun v w =>
  inferInstanceAs (Decidable ((g.targets.get w).label ≤ (g.targets.get v).label))

/-- `sort_indices`: each index moves down the sorted ones, which are held last one first. -/
def sortIndices (g : Graph) : List (Fin g.targets.length) :=
  ((List.finRange g.targets.length).foldl
    (fun sorted v => sorted.orderedInsert (sortsAfter g) v) []).reverse

/-- `build_closure` -/
def buildPlan (g : Graph) (label : Option Bytes) : Except LoweringError (List Target) := do
  let fuel := g.targets.length + 1
  let p ←
    match label.filter fun label => label ≠ [] with
    | some label =>
      match targetIndex g label with
      | none => .error (.unknownTarget label)
      | some index => visitTarget g fuel index (.empty g)
    | none => (sortIndices g).foldlM (fun p index => visitTarget g fuel index p) (.empty g)
  return p.order

/-! ## Indices -/

section Indices

variable {g : Graph} {label : Bytes} {index index' : Fin g.targets.length}

theorem get_injective (h : (g.targets.get index).label = (g.targets.get index').label) :
    index = index' := by
  have hnodup := (List.nodup_append.mp g.labels_nodup).1
  have htarget : g.targets.get index = g.targets.get index' :=
    eq_of_label (List.get_mem _ _) (List.get_mem _ _) h
  exact (List.nodup_iff_injective_get.mp (List.Nodup.of_map _ hnodup)) htarget

theorem targetIndex_eq_some :
    targetIndex g label = some index ↔ (g.targets.get index).label = label := by
  unfold targetIndex
  rw [List.findFinIdx?_eq_some_iff]
  constructor
  · rintro ⟨hlabel, -⟩
    simpa using hlabel
  · intro hlabel
    refine ⟨by simpa using hlabel, fun j hj hsame => ?_⟩
    have hsame : (g.targets.get ⟨j, j.isLt⟩).label = label := by simpa using hsame
    have heq : (⟨j, j.isLt⟩ : Fin g.targets.length) = index :=
      get_injective (hsame.trans hlabel.symm)
    subst heq
    exact absurd hj (lt_irrefl _)

theorem targetIndex_get : (targetIndex g label).map g.targets.get = findTarget g label := by
  cases hindex : targetIndex g label with
  | some index =>
    have hlabel := targetIndex_eq_some.mp hindex
    have hfind : findTarget g (g.targets.get index).label = some (g.targets.get index) :=
      findTarget_of_mem (List.get_mem _ _)
    rw [Option.map_some, ← hfind, hlabel]
  | none =>
    refine Eq.symm (List.find?_eq_none.mpr ?_)
    exact List.findFinIdx?_eq_none_iff.mp hindex

theorem foldl_orderedInsert_eq {indices : List (Fin g.targets.length)} :
    indices.foldl (fun sorted v => sorted.orderedInsert (sortsAfter g) v) [] =
      indices.reverse.insertionSort (sortsAfter g) := by
  rw [List.insertionSort, List.foldr_reverse]

instance : Std.Total (sortsAfter g) := ⟨fun _ _ => List.le_total _ _⟩

instance : IsTrans (Fin g.targets.length) (sortsAfter g) := ⟨fun _ _ _ h h' => List.le_trans h' h⟩

theorem sortedTargets_pairwise : (sortedTargets g).Pairwise fun a b => a.label ≤ b.label := by
  have h : (sortedTargets g).Pairwise fun a b => decide (a.label ≤ b.label) = true := by
    refine List.pairwise_mergeSort ?_ ?_ g.targets
    · intro a b c hab hbc
      simp only [decide_eq_true_eq] at hab hbc ⊢
      exact List.le_trans hab hbc
    · intro a b
      simpa using List.le_total a.label b.label
  simpa using h

/-- Labels tell the targets apart, so there is one way to sort them. -/
theorem eq_sortedTargets {targets : List Target} (hperm : targets.Perm g.targets)
    (hsorted : targets.Pairwise fun a b => a.label ≤ b.label) : targets = sortedTargets g := by
  refine List.Perm.eq_of_pairwise ?_ hsorted sortedTargets_pairwise
    (hperm.trans (List.mergeSort_perm _ _).symm)
  intro a b ha hb hab hba
  exact eq_of_label (hperm.subset ha) (List.mem_mergeSort.mp hb) (List.le_antisymm hab hba)

/-- The indices in the order of their labels are those of the sorted targets. -/
theorem sortIndices_get : (sortIndices g).map g.targets.get = sortedTargets g := by
  have hsorted : ((sortIndices g).map g.targets.get).Pairwise fun a b => a.label ≤ b.label := by
    rw [List.pairwise_map, sortIndices, foldl_orderedInsert_eq, List.pairwise_reverse]
    exact List.pairwise_insertionSort (sortsAfter g) _
  have hperm : ((sortIndices g).map g.targets.get).Perm g.targets := by
    have hindices : (sortIndices g).Perm (List.finRange g.targets.length) := by
      rw [sortIndices, foldl_orderedInsert_eq]
      exact (List.reverse_perm _).trans
        ((List.perm_insertionSort _ _).trans (List.reverse_perm _))
    have h := hindices.map g.targets.get
    rwa [List.map_get_finRange] at h
  exact eq_sortedTargets hperm hsorted

end Indices

/-! ## Plans and searches -/

/-- A plan that has come as far as a search. -/
structure ClosurePlan.Follows {g : Graph} (p : ClosurePlan g) (q : Progress Target Bytes) :
    Prop where
  order : q.finished = p.order
  finished : ∀ index, p.state index = .finished ↔
    (g.targets.get index).label ∈ (closureSpace g).keys p.order
  entered : ∀ index, p.state index ≠ .unvisited ↔ (g.targets.get index).label ∈ q.entered
  sound : (closureSpace g).Sound q

/-- Both fail, or both succeed and the plan follows the search. -/
def Follow {g : Graph} : Except LoweringError (ClosurePlan g) →
    Except LoweringError (Progress Target Bytes) → Prop
  | .ok p, .ok q => p.Follows q
  | .error _, .error _ => True
  | _, _ => False

theorem Follow.bind {g : Graph} {x : Except LoweringError (ClosurePlan g)}
    {y : Except LoweringError (Progress Target Bytes)} (h : Follow x y)
    {f : ClosurePlan g → Except LoweringError (ClosurePlan g)}
    {f' : Progress Target Bytes → Except LoweringError (Progress Target Bytes)}
    (hf : ∀ p q, y = .ok q → p.Follows q → Follow (f p) (f' q)) : Follow (x >>= f) (y >>= f') := by
  cases x with
  | error e =>
    cases y with
    | error e' => trivial
    | ok q => cases h
  | ok p =>
    cases y with
    | error e => cases h
    | ok q => exact hf p q rfl h

section Follow

variable {g : Graph} {p : ClosurePlan g} {q : Progress Target Bytes} {fuel : Nat}
  {external : Bool} {label : Bytes} {asked : List Target} {index : Fin g.targets.length}

theorem follows_empty : (ClosurePlan.empty g).Follows ⟨[], []⟩ where
  order := rfl
  finished := by simp [ClosurePlan.empty, Space.keys]
  entered := by simp [ClosurePlan.empty]
  sound := nofun

theorem ClosurePlan.Follows.enter (h : p.Follows q) (hstate : p.state index = .unvisited) :
    (p.enter index).Follows ⟨(g.targets.get index).label :: q.entered, q.finished⟩ where
  order := h.order
  finished := by
    intro i
    show (p.enter index).state i = .finished ↔ _ ∈ (closureSpace g).keys p.order
    rw [← h.finished i]
    by_cases hi : i = index
    · subst hi
      simp [ClosurePlan.enter, hstate]
    · simp [ClosurePlan.enter, hi]
  entered := by
    intro i
    rw [List.mem_cons, ← h.entered i]
    by_cases hi : i = index
    · subst hi
      simp [ClosurePlan.enter]
    · have hstate : (p.enter index).state i = p.state i := Function.update_of_ne hi _ _
      rw [hstate]
      exact ⟨.inr, fun hmem => hmem.resolve_left fun hlabel => hi (get_injective hlabel)⟩
  sound := fun k hk => List.mem_cons_of_mem _ (h.sound k hk)

theorem ClosurePlan.Follows.finish (h : p.Follows q)
    (hentered : (g.targets.get index).label ∈ q.entered) :
    (p.finish index).Follows ⟨q.entered, q.finished ++ [g.targets.get index]⟩ where
  order := by rw [h.order]; rfl
  finished := by
    intro i
    rw [ClosurePlan.finish, keys_append, List.mem_append, ← h.finished i]
    by_cases hi : i = index
    · subst hi
      simp [Space.keys, closureSpace]
    · have hstate : (p.finish index).state i = p.state i := Function.update_of_ne hi _ _
      have hlabel : (g.targets.get i).label ∉ (closureSpace g).keys [g.targets.get index] :=
        fun hmem => hi (get_injective (List.mem_singleton.mp hmem))
      exact hstate ▸ ⟨.inl, fun hmem => hmem.resolve_right hlabel⟩
  entered := by
    intro i
    rw [← h.entered i]
    by_cases hi : i = index
    · subst hi
      simp [ClosurePlan.finish, (h.entered i).mpr hentered]
    · simp [ClosurePlan.finish, hi]
  sound := by
    intro k hk
    rw [keys_append, List.mem_append] at hk
    rcases hk with hk | hk
    · exact h.sound k hk
    · exact List.mem_singleton.mp hk ▸ hentered

/-- A label that leads somewhere is followed to where the search goes. -/
theorem visitDependency_follow
    {visit : Fin g.targets.length → ClosurePlan g → Except LoweringError (ClosurePlan g)}
    (hvisit : ∀ index p q, p.Follows q →
      Follow (visit index p) ((closureSpace g).visit fuel (g.targets.get index) q))
    (hasked : visitLabel g external label = .ok asked) (h : p.Follows q) :
    Follow (visitDependency g visit external p label)
      (asked.foldlM (fun q t => (closureSpace g).visit fuel t q) q) := by
  have hget : (targetIndex g label).map g.targets.get = findTarget g label := targetIndex_get
  unfold visitLabel at hasked
  unfold visitDependency
  cases hindex : targetIndex g label with
  | some index =>
    rw [hindex, Option.map_some] at hget
    rw [← hget] at hasked
    cases hasked
    simpa using hvisit index p q h
  | none =>
    rw [hindex, Option.map_none] at hget
    rw [← hget] at hasked
    dsimp only at hasked ⊢
    split at hasked <;> split at hasked <;> cases hasked
    · rename_i hexternal hresolved
      rw [if_pos hexternal, if_pos hresolved]
      exact h
    · rename_i hexternal hgenrule
      rw [if_neg hexternal, if_pos hgenrule]
      exact h

/-- A label that leads nowhere stops both. -/
theorem visitDependency_error {e : LoweringError}
    {visit : Fin g.targets.length → ClosurePlan g → Except LoweringError (ClosurePlan g)}
    (hasked : visitLabel g external label = .error e) :
    visitDependency g visit external p label = .error e := by
  have hget : (targetIndex g label).map g.targets.get = findTarget g label := targetIndex_get
  unfold visitLabel at hasked
  unfold visitDependency
  cases hindex : targetIndex g label with
  | some index =>
    rw [hindex, Option.map_some] at hget
    rw [← hget] at hasked
    cases hasked
  | none =>
    rw [hindex, Option.map_none] at hget
    rw [← hget] at hasked
    dsimp only at hasked ⊢
    split at hasked <;> split at hasked <;> cases hasked
    · rename_i hexternal hresolved
      rw [if_pos hexternal, if_neg hresolved]
    · rename_i hexternal hgenrule
      rw [if_neg hexternal, if_neg hgenrule]

/-- The labels of a list are followed one after the other. -/
theorem foldl_visitDependency_follow {labels : List Bytes} {asked : List (List Target)}
    {visit : Fin g.targets.length → ClosurePlan g → Except LoweringError (ClosurePlan g)}
    (hvisit : ∀ index p q, p.Follows q →
      Follow (visit index p) ((closureSpace g).visit fuel (g.targets.get index) q))
    (hasked : labels.mapM (visitLabel g external) = .ok asked) (h : p.Follows q) :
    Follow (labels.foldlM (visitDependency g visit external) p)
      (asked.flatten.foldlM (fun q t => (closureSpace g).visit fuel t q) q) := by
  induction labels generalizing asked p q with
  | nil =>
    cases hasked
    exact h
  | cons label rest ih =>
    rw [List.mapM_cons] at hasked
    obtain ⟨first, hfirst, hasked⟩ := bind_eq_ok.mp hasked
    obtain ⟨others, hothers, hasked⟩ := bind_eq_ok.mp hasked
    cases hasked
    have hstep := visitDependency_follow hvisit hfirst h
    rw [List.foldlM_cons, List.flatten_cons, List.foldlM_append]
    exact hstep.bind fun p' q' _ h' => ih hothers h'

/-- Labels that are all followed are all resolved. -/
theorem visitLabel_of_foldlM {labels : List Bytes} {p' : ClosurePlan g}
    {visit : Fin g.targets.length → ClosurePlan g → Except LoweringError (ClosurePlan g)}
    (h : labels.foldlM (visitDependency g visit external) p = .ok p') :
    ∃ asked, labels.mapM (visitLabel g external) = .ok asked := by
  induction labels generalizing p with
  | nil => exact ⟨[], rfl⟩
  | cons label rest ih =>
    rw [List.foldlM_cons] at h
    obtain ⟨mid, hmid, h⟩ := bind_eq_ok.mp h
    cases hlabel : visitLabel g external label with
    | error e =>
      rw [visitDependency_error hlabel] at hmid
      cases hmid
    | ok first =>
      obtain ⟨others, hothers⟩ := ih h
      refine ⟨first :: others, ?_⟩
      rw [List.mapM_cons, hlabel, hothers]
      rfl

theorem visitDependencies_follow {t : Target}
    {visit : Fin g.targets.length → ClosurePlan g → Except LoweringError (ClosurePlan g)}
    (hvisit : ∀ index p q, p.Follows q →
      Follow (visit index p) ((closureSpace g).visit fuel (g.targets.get index) q))
    (hasked : (closureSpace g).next t = .ok asked) (h : p.Follows q) :
    Follow (visitDependencies g visit t p)
      (asked.foldlM (fun q t => (closureSpace g).visit fuel t q) q) := by
  obtain ⟨objects, hobjects, hasked⟩ := bind_eq_ok.mp hasked
  obtain ⟨deps, hdeps, hasked⟩ := bind_eq_ok.mp hasked
  cases hasked
  have hobjects := foldl_visitDependency_follow hvisit hobjects h
  rw [List.foldlM_append]
  refine hobjects.bind fun p' q' _ h' => ?_
  rw [← List.foldlM_append]
  exact foldl_visitDependency_follow hvisit hdeps h'

theorem next_of_visitDependencies {t : Target} {p' : ClosurePlan g}
    {visit : Fin g.targets.length → ClosurePlan g → Except LoweringError (ClosurePlan g)}
    (h : visitDependencies g visit t p = .ok p') :
    ∃ asked, (closureSpace g).next t = .ok asked := by
  obtain ⟨mid, hobjects, h⟩ := bind_eq_ok.mp h
  rw [← List.foldlM_append] at h
  obtain ⟨objects, hobjects⟩ := visitLabel_of_foldlM hobjects
  obtain ⟨deps, hdeps⟩ := visitLabel_of_foldlM h
  exact ⟨_, bind_eq_ok.mpr ⟨objects, hobjects, bind_eq_ok.mpr ⟨deps, hdeps, rfl⟩⟩⟩

/-- A visit of an index fails, or goes, where the search does. -/
theorem visitTarget_follow (h : p.Follows q) :
    Follow (visitTarget g fuel index p) ((closureSpace g).visit fuel (g.targets.get index) q) := by
  induction fuel generalizing index p q with
  | zero => trivial
  | succ fuel ih =>
    have hkey : (closureSpace g).key (g.targets.get index) = (g.targets.get index).label := rfl
    unfold visitTarget Space.visit
    rw [hkey, h.order]
    cases hstate : p.state index with
    | finished =>
      rw [if_pos ((h.finished index).mp hstate)]
      exact h
    | entered =>
      rw [if_neg (fun hmem => by simp [(h.finished index).mpr hmem] at hstate),
        if_pos ((h.entered index).mp (by simp [hstate]))]
      trivial
    | unvisited =>
      rw [if_neg (fun hmem => by simp [(h.finished index).mpr hmem] at hstate),
        if_neg (fun hmem => absurd hstate ((h.entered index).mpr hmem)), ← h.order]
      have henter := h.enter hstate
      cases hnext : (closureSpace g).next (g.targets.get index) with
      | error e =>
        cases hplan : visitDependencies g (visitTarget g fuel) (g.targets.get index)
            (p.enter index) with
        | error e' => trivial
        | ok p' =>
          obtain ⟨asked, hasked⟩ := next_of_visitDependencies hplan
          rw [hnext] at hasked
          cases hasked
      | ok asked =>
        have hvisits := visitDependencies_follow (fun _ _ _ h' => ih h') hnext henter
        refine Follow.bind hvisits fun p' q' hsearch h' => h'.finish ?_
        obtain ⟨-, added, hadded, -⟩ :=
          foldlM_extends (fun _ _ _ hp hq => visit_extends hp hq) henter.sound hsearch
        exact (hadded.entered _).mpr (.inl List.mem_cons_self)

theorem visitTargets_follow {indices : List (Fin g.targets.length)} (h : p.Follows q) :
    Follow (indices.foldlM (fun p index => visitTarget g fuel index p) p)
      ((indices.map g.targets.get).foldlM (fun q t => (closureSpace g).visit fuel t q) q) := by
  induction indices generalizing p q with
  | nil => exact h
  | cons index rest ih =>
    rw [List.map_cons, List.foldlM_cons, List.foldlM_cons]
    exact (visitTarget_follow h).bind fun p' q' _ h' => ih h'

theorem Follow.eq_ok_iff {x : Except LoweringError (ClosurePlan g)}
    {y : Except LoweringError (Progress Target Bytes)} (h : Follow x y) {order : List Target} :
    (x >>= fun p => pure p.order) = .ok order ↔ (y >>= fun q => pure q.finished) = .ok order := by
  cases x with
  | error e =>
    cases y with
    | error e' => exact ⟨nofun, nofun⟩
    | ok q => cases h
  | ok p =>
    cases y with
    | error e => cases h
    | ok q =>
      show Except.ok p.order = .ok order ↔ Except.ok q.finished = .ok order
      rw [h.order]

theorem sortedPlan_follow :
    Follow ((sortIndices g).foldlM (fun p index => visitTarget g fuel index p) (.empty g))
      ((sortedTargets g).foldlM (fun q t => (closureSpace g).visit fuel t q) ⟨[], []⟩) := by
  rw [← sortIndices_get]
  exact visitTargets_follow follows_empty

/-- A plan holds what the search finishes. -/
theorem buildPlan_eq_ok {label : Option Bytes} {order : List Target} :
    buildPlan g label = .ok order ↔ buildClosure g label = .ok order := by
  unfold buildPlan buildClosure closureRoots
  cases label with
  | none => exact sortedPlan_follow.eq_ok_iff
  | some label =>
    by_cases hempty : label = []
    · subst hempty
      exact sortedPlan_follow.eq_ok_iff
    · simp only [Option.filter_some, hempty, ne_eq, not_false_eq_true, decide_true, if_true,
        if_false]
      have hget : (targetIndex g label).map g.targets.get = findTarget g label := targetIndex_get
      cases hindex : targetIndex g label with
      | none =>
        rw [hindex, Option.map_none] at hget
        rw [← hget]
        exact ⟨nofun, nofun⟩
      | some index =>
        rw [hindex, Option.map_some] at hget
        rw [← hget]
        have h : Follow (visitTarget g (g.targets.length + 1) index (.empty g))
            ([g.targets.get index].foldlM
              (fun q t => (closureSpace g).visit (g.targets.length + 1) t q) ⟨[], []⟩) := by
          simpa using visitTarget_follow follows_empty
        exact h.eq_ok_iff

end Follow

/-! ## What a plan holds, and when there is none -/

/-- A label that stops the traversal: it names no target, and of the others a dependency may
name those of a package that is known, or a generated action where it is not external. -/
def Unresolved (g : Graph) (external : Bool) (label : Bytes) : Prop :=
  findTarget g label = none ∧
    if external ∧ label.head? = some 64 then externalDepResolved g label = false
    else findGenrule g label = none

def NamesUnresolved (g : Graph) (t : Target) : Prop :=
  (∃ label ∈ t.objects, Unresolved g false label) ∨
    ∃ label ∈ t.deps ++ t.privateDeps, Unresolved g true label

/-- A label is given that no target has. -/
def UnknownRoot (g : Graph) (label : Option Bytes) : Prop :=
  ∃ name, label = some name ∧ name ≠ [] ∧ findTarget g name = none

section Closed

variable {g : Graph} {label : Option Bytes} {t : Target} {order : List Target}

theorem visitLabel_succeeds_iff {external : Bool} {name : Bytes} :
    (∃ asked, visitLabel g external name = .ok asked) ↔ ¬Unresolved g external name := by
  unfold visitLabel Unresolved
  cases findTarget g name with
  | some t => simp
  | none =>
    by_cases hexternal : external ∧ name.head? = some 64
    · cases hresolved : externalDepResolved g name <;> simp [hexternal]
    · cases hgenrule : findGenrule g name <;> simp [hexternal]

theorem closureSpace_succeeds_iff :
    (∃ asked, (closureSpace g).next t = .ok asked) ↔ ¬NamesUnresolved g t := by
  have hobjects : (∃ objects, t.objects.mapM (visitLabel g false) = .ok objects) ↔
      ∀ name ∈ t.objects, ¬Unresolved g false name := by
    rw [mapM_succeeds_iff]
    exact forall₂_congr fun _ _ => visitLabel_succeeds_iff
  have hdeps : (∃ deps, (t.deps ++ t.privateDeps).mapM (visitLabel g true) = .ok deps) ↔
      ∀ name ∈ t.deps ++ t.privateDeps, ¬Unresolved g true name := by
    rw [mapM_succeeds_iff]
    exact forall₂_congr fun _ _ => visitLabel_succeeds_iff
  unfold NamesUnresolved
  push Not
  constructor
  · rintro ⟨asked, h⟩
    obtain ⟨objects, hobjects', h⟩ := bind_eq_ok.mp h
    obtain ⟨deps, hdeps', -⟩ := bind_eq_ok.mp h
    exact ⟨hobjects.mp ⟨objects, hobjects'⟩, hdeps.mp ⟨deps, hdeps'⟩⟩
  · rintro ⟨h, h'⟩
    obtain ⟨objects, hobjects'⟩ := hobjects.mpr h
    obtain ⟨deps, hdeps'⟩ := hdeps.mpr h'
    exact ⟨_, bind_eq_ok.mpr ⟨objects, hobjects', bind_eq_ok.mpr ⟨deps, hdeps', rfl⟩⟩⟩

theorem closureSpace_within (g : Graph) : (closureSpace g).Within g.targets where
  nodup := (List.nodup_append.mp g.labels_nodup).1
  closed := by
    intro t _ asked hasked o ho
    obtain ⟨name, -, hfind⟩ := (mem_closureSpace_next hasked).mp ho
    exact findTarget_mem hfind

theorem dependsOn_of_asks {o : Target} (h : (closureSpace g).Asks t o) : DependsOn g t o := by
  obtain ⟨asked, hasked, ho⟩ := h
  exact (mem_closureSpace_next hasked).mp ho

theorem asks_of_dependsOn {o : Target} (hresolved : ¬NamesUnresolved g t) (h : DependsOn g t o) :
    (closureSpace g).Asks t o := by
  obtain ⟨asked, hasked⟩ := closureSpace_succeeds_iff.mpr hresolved
  exact ⟨asked, hasked, (mem_closureSpace_next hasked).mpr h⟩

theorem closureRoots_error_iff :
    (∃ e, closureRoots g label = .error e) ↔ UnknownRoot g label := by
  unfold closureRoots UnknownRoot
  cases label with
  | none => simp
  | some name =>
    by_cases hempty : name = []
    · simp [hempty]
    · cases hfind : findTarget g name <;> simp [hempty, hfind]

/-- A closure is found when no target of it names a label that is unresolved or needs itself. -/
theorem buildClosure_succeeds_iff : (∃ order, buildClosure g label = .ok order) ↔
    ¬UnknownRoot g label ∧
      ∀ t, InClosure g label t → ¬NamesUnresolved g t ∧ ¬Relation.TransGen (DependsOn g) t t := by
  cases hroots : closureRoots g label with
  | error e =>
    have hunknown := closureRoots_error_iff.mp ⟨e, hroots⟩
    simp [buildClosure, hroots, hunknown, bind_eq_ok]
  | ok roots =>
    have hknown : ¬UnknownRoot g label := by
      intro hunknown
      obtain ⟨e, he⟩ := closureRoots_error_iff.mpr hunknown
      cases hroots.symm.trans he
    have hsearch : (∃ order, buildClosure g label = .ok order) ↔
        ∃ order, (closureSpace g).search (g.targets.length + 1) roots = .ok order := by
      unfold buildClosure
      rw [hroots]
      rfl
    rw [hsearch, search_succeeds_iff (closureSpace_strict g) (closureSpace_within g)
      (mem_closureRoots hroots) (Nat.lt_succ_self _), and_iff_right hknown]
    have hrooted : ∀ {r}, ClosureRoot g label r ↔ r ∈ roots := by
      intro r
      constructor
      · rintro ⟨roots', hroots', hr⟩
        cases hroots.symm.trans hroots'
        exact hr
      · exact fun hr => ⟨roots, hroots, hr⟩
    constructor
    · intro h t ht
      -- while no label is unresolved, the search goes wherever a target depends on another
      have hreached : ∀ {n}, InClosure g label n →
          Reached (· ∈ roots) (closureSpace g).Asks n := by
        intro n hn
        refine hn.induction (fun r hr => .of_root (hrooted.mp hr)) fun a b ha hab => ?_
        exact ha.step (asks_of_dependsOn (closureSpace_succeeds_iff.mp (h a ha).1) hab)
      refine ⟨closureSpace_succeeds_iff.mp (h t (hreached ht)).1, fun hcycle => ?_⟩
      have hasked : ∀ {o}, Relation.TransGen (DependsOn g) t o →
          Relation.TransGen (closureSpace g).Asks t o ∧ InClosure g label o := by
        intro o ho
        induction ho with
        | single hto =>
          exact ⟨.single (asks_of_dependsOn
            (closureSpace_succeeds_iff.mp (h t (hreached ht)).1) hto), ht.step hto⟩
        | tail _ hab ih =>
          obtain ⟨hpath, hin⟩ := ih
          exact ⟨hpath.tail (asks_of_dependsOn
            (closureSpace_succeeds_iff.mp (h _ (hreached hin)).1) hab), hin.step hab⟩
      exact (h t (hreached ht)).2 (hasked hcycle).1
    · intro h t ht
      have hin : InClosure g label t := ht.map (f := id)
        (fun r hr => .of_root (hrooted.mpr hr)) fun a b hab => dependsOn_of_asks hab
      obtain ⟨hresolved, hacyclic⟩ := h t hin
      refine ⟨closureSpace_succeeds_iff.mpr hresolved, fun hcycle => hacyclic ?_⟩
      exact Relation.TransGen.mono (fun _ _ => dependsOn_of_asks) _ _ hcycle

/-- Where there is a plan for the whole graph, there are no cycles. -/
theorem acyclic_of_buildPlan (h : buildPlan g none = .ok order) :
    ∀ t, ¬Relation.TransGen (DependsOn g) t t := by
  intro t hcycle
  have hclosure := buildClosure_succeeds_iff.mp ⟨order, buildPlan_eq_ok.mp h⟩
  obtain ⟨o, -, name, -, hfind⟩ := Relation.TransGen.tail'_iff.mp hcycle
  have hin : InClosure g none t :=
    .of_root ⟨sortedTargets g, rfl, List.mem_mergeSort.mpr (findTarget_mem hfind)⟩
  exact (hclosure.2 t hin).2 hcycle

end Closed

/-! ## An external label that is declared -/

/-- The graph with its targets declared in another order. -/
def reorder (g : Graph) (targets : List Target) (hperm : targets.Perm g.targets) : Graph :=
  { g with
    targets := targets
    labels_nodup := by
      refine (List.Perm.nodup_iff ?_).mpr g.labels_nodup
      exact (hperm.map Target.label).append_right _
    objectlib_objects := fun t ht => g.objectlib_objects t (hperm.subset ht)
    objects_objectlib := by
      intro t ht name hname
      obtain ⟨o, ho, hlabel, hkind⟩ := g.objects_objectlib t (hperm.subset ht) name hname
      exact ⟨o, hperm.symm.subset ho, hlabel, hkind⟩ }

section Reorder

variable {g : Graph} {targets : List Target} {hperm : targets.Perm g.targets}

theorem findTarget_reorder (name : Bytes) :
    findTarget (reorder g targets hperm) name = findTarget g name := by
  cases hfind : findTarget g name with
  | some t =>
    have hmem : t ∈ (reorder g targets hperm).targets := hperm.symm.subset (findTarget_mem hfind)
    rw [← findTarget_label hfind]
    exact findTarget_of_mem hmem
  | none =>
    refine List.find?_eq_none.mpr fun t ht => ?_
    exact List.find?_eq_none.mp hfind t (hperm.subset ht)

theorem visitLabel_reorder : visitLabel (reorder g targets hperm) = visitLabel g := by
  funext external name
  unfold visitLabel
  rw [findTarget_reorder]
  rfl

theorem closureSpace_reorder : closureSpace (reorder g targets hperm) = closureSpace g := by
  unfold closureSpace
  rw [visitLabel_reorder]

theorem sortedTargets_reorder : sortedTargets (reorder g targets hperm) = sortedTargets g :=
  eq_sortedTargets ((List.mergeSort_perm _ _).trans hperm) sortedTargets_pairwise

theorem buildClosure_reorder (label : Option Bytes) :
    buildClosure (reorder g targets hperm) label = buildClosure g label := by
  have hroots : closureRoots (reorder g targets hperm) label = closureRoots g label := by
    unfold closureRoots
    simp only [sortedTargets_reorder, findTarget_reorder]
  have hlength : (reorder g targets hperm).targets.length = g.targets.length := hperm.length_eq
  unfold buildClosure
  rw [hroots, closureSpace_reorder, hlength]

end Reorder

/-- The order in which targets are declared does not show in a plan: it fails for both orders, or
lists the same targets in the same order. -/
theorem buildPlan_reorder (g : Graph) (targets : List Target) (hperm : targets.Perm g.targets)
    (label : Option Bytes) :
    (buildPlan (reorder g targets hperm) label).toOption = (buildPlan g label).toOption := by
  refine Option.ext fun order => ?_
  rw [toOption_eq_some, toOption_eq_some, buildPlan_eq_ok, buildPlan_eq_ok, buildClosure_reorder]

def mainProgram : Target where
  label := ascii "//:main"
  name := ascii "main"
  kind := .exe
  deps := [ascii "//:core"]
  label_ne := by decide
  sources_lt := Target.no_sources_lt

def coreLibrary : Target where
  label := ascii "//:core"
  name := ascii "core"
  kind := .staticlib
  label_ne := by decide
  sources_lt := Target.no_sources_lt

def pairGraph : Graph where
  host := ascii "linux"
  platform := []
  buildDir := ascii "build"
  targets := [mainProgram, coreLibrary]
  genrules := []
  stages := []
  toolsets := []
  languages := []
  labels_nodup := by decide
  objectlib_objects := by decide
  objects_objectlib := by decide

theorem pairGraph_swapped :
    (buildPlan (reorder pairGraph [coreLibrary, mainProgram] (.swap _ _ _))
        (some mainProgram.label)).toOption =
      (buildPlan pairGraph (some mainProgram.label)).toOption :=
  buildPlan_reorder pairGraph [coreLibrary, mainProgram] (.swap _ _ _) (some mainProgram.label)

end QStar.Lowering
