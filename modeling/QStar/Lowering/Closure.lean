import QStar.Lib.Search
import QStar.Lowering.Ids

/-!
# Dependency closures

The targets a label or a whole graph needs, dependencies first. A dependency is an
object library, a target, a generated action, which is not followed, or a label of
an external package.
-/
namespace QStar.Lowering

open QStar.Lib.CStrings
open QStar.Lib.Fixpoints
open QStar.Lib.Results
open QStar.Lib.Search
open QStar.Base
open QStar.BuildGraph

/-- The part of a label before its first two slashes. -/
def beforeSlashes : Bytes → Option Bytes
  | 47 :: 47 :: _ => some []
  | c :: rest => (beforeSlashes rest).map (c :: ·)
  | [] => none

/-- `external_dep_resolved` -/
def externalDepResolved (g : Graph) (label : Bytes) : Bool :=
  label.head? = some 64 && (beforeSlashes label).any fun name => decide (name ∈ g.packages)

/-- Where `visit_target` goes for one label; only dependencies may be external. -/
def visitLabel (g : Graph) (external : Bool) (label : Bytes) : Except LoweringError (List Target) :=
  match findTarget g label with
  | some t => .ok [t]
  | none =>
    if external ∧ label.head? = some 64 then
      if externalDepResolved g label then .ok [] else .error (.unresolvedPackage label)
    else if (findGenrule g label).isSome then .ok []
    else .error (.unknownDependency label)

/-- `visit_target` -/
def closureSpace (g : Graph) : Space Target Bytes LoweringError where
  key := Target.label
  next t := do
    let objects ← t.objects.mapM (visitLabel g false)
    let deps ← (t.deps ++ t.privateDeps).mapM (visitLabel g true)
    return objects.flatten ++ deps.flatten
  again t := .error (.dependencyCycle t.label)
  tooDeep := .searchTooDeep

/-- `sort_indices`; labels do not repeat. -/
def sortedTargets (g : Graph) : List Target :=
  g.targets.mergeSort fun a b => decide (a.label ≤ b.label)

/-- Where a closure starts. -/
def closureRoots (g : Graph) (label : Option Bytes) : Except LoweringError (List Target) :=
  match label with
  | none => .ok (sortedTargets g)
  | some label =>
    if label = [] then .ok (sortedTargets g)
    else
      match findTarget g label with
      | some t => .ok [t]
      | none => .error (.unknownTarget label)

/-- `build_closure` -/
def buildClosure (g : Graph) (label : Option Bytes) : Except LoweringError (List Target) := do
  let roots ← closureRoots g label
  (closureSpace g).search (g.targets.length + 1) roots

section Closure

variable {g : Graph} {closure : List Target}

theorem visitLabel_eq_ok {external : Bool} {label : Bytes} {visited : List Target}
    (h : visitLabel g external label = .ok visited) :
    visited = (findTarget g label).toList := by
  unfold visitLabel at h
  split at h
  · rename_i t ht
    cases h
    rw [ht]
    rfl
  · rename_i hnone
    rw [hnone]
    split at h
    · split at h
      · cases h
        rfl
      · cases h
    · split at h
      · cases h
        rfl
      · cases h

/-- What a target asks a closure for: its object libraries and its dependencies. -/
theorem mem_closureSpace_next {t o : Target} {asked : List Target}
    (h : (closureSpace g).next t = .ok asked) :
    o ∈ asked ↔ ∃ label ∈ t.objects ++ (t.deps ++ t.privateDeps), findTarget g label = some o := by
  obtain ⟨objects, hobjects, h⟩ := bind_eq_ok.mp h
  obtain ⟨deps, hdeps, h⟩ := bind_eq_ok.mp h
  cases h
  rw [mapM_eq_ok_map (k := fun label => (findTarget g label).toList)
      (fun label _ visited hvisited => visitLabel_eq_ok hvisited) hobjects,
    mapM_eq_ok_map (k := fun label => (findTarget g label).toList)
      (fun label _ visited hvisited => visitLabel_eq_ok hvisited) hdeps]
  simp [or_and_right, exists_or]

theorem mem_closureRoots {label : Option Bytes} {roots : List Target}
    (h : closureRoots g label = .ok roots) : ∀ t ∈ roots, t ∈ g.targets := by
  have hsorted : ∀ t ∈ sortedTargets g, t ∈ g.targets := fun t ht => List.mem_mergeSort.mp ht
  intro t ht
  unfold closureRoots at h
  split at h
  · cases h
    exact hsorted t ht
  · split at h
    · cases h
      exact hsorted t ht
    · split at h
      · rename_i found hfound
        cases h
        rw [List.mem_singleton] at ht
        exact ht ▸ findTarget_mem hfound
      · cases h

theorem buildClosure_mem {label : Option Bytes} (h : buildClosure g label = .ok closure) :
    ∀ t ∈ closure, t ∈ g.targets := by
  obtain ⟨roots, hroots, hsearch⟩ := bind_eq_ok.mp h
  intro t ht
  rcases search_wanted hsearch t ht with hroot | ⟨n, -, asked, hasked, hmem⟩
  · exact mem_closureRoots hroots t hroot
  · obtain ⟨name, -, hfind⟩ := (mem_closureSpace_next hasked).mp hmem
    exact findTarget_mem hfind

/-- A closure is told by its labels. -/
theorem mem_of_key_mem {nodes : List Target} (hmem : ∀ t ∈ nodes, t ∈ g.targets) {o : Target}
    (ho : o ∈ g.targets) (hkey : o.label ∈ (closureSpace g).keys nodes) : o ∈ nodes := by
  obtain ⟨t, ht, hlabel⟩ := List.mem_map.mp hkey
  exact eq_of_label (hmem t ht) ho hlabel ▸ ht

/-- A closure holds the object libraries and the dependencies of its targets. -/
theorem buildClosure_closed {label : Option Bytes} (h : buildClosure g label = .ok closure)
    {t o : Target} (ht : t ∈ closure) {name : Bytes}
    (hname : name ∈ t.objects ++ (t.deps ++ t.privateDeps)) (ho : findTarget g name = some o) :
    o ∈ closure := by
  have hmem := buildClosure_mem h
  obtain ⟨roots, -, hsearch⟩ := bind_eq_ok.mp h
  obtain ⟨asked, hasked, hmet⟩ := (search_spec hsearch).2.2 t ht
  have hasks : o ∈ asked := (mem_closureSpace_next hasked).mpr ⟨name, hname, ho⟩
  exact mem_of_key_mem hmem (findTarget_mem ho) (hmet o hasks)

/-- The closure of a label holds its target. -/
theorem buildClosure_root {label : Bytes} (h : buildClosure g (some label) = .ok closure)
    {t : Target} (ht : findTarget g label = some t) : t ∈ closure := by
  have hmem := buildClosure_mem h
  obtain ⟨roots, hroots, hsearch⟩ := bind_eq_ok.mp h
  have hne : label ≠ [] := findTarget_label ht ▸ t.label_ne
  have hroot : t ∈ roots := by
    simp only [closureRoots, hne, if_false, ht] at hroots
    cases hroots
    exact List.mem_singleton_self t
  exact mem_of_key_mem hmem (findTarget_mem ht) ((search_spec hsearch).2.1 t hroot)

/-- A target a target names as an object library or a dependency. -/
def DependsOn (g : Graph) (t o : Target) : Prop :=
  ∃ name ∈ t.objects ++ (t.deps ++ t.privateDeps), findTarget g name = some o

/-- Where the closure of a label starts. -/
def ClosureRoot (g : Graph) (label : Option Bytes) (t : Target) : Prop :=
  ∃ roots, closureRoots g label = .ok roots ∧ t ∈ roots

/-- The targets of the dependency closure of a label. -/
def InClosure (g : Graph) (label : Option Bytes) (t : Target) : Prop :=
  Reached (ClosureRoot g label) (DependsOn g) t

theorem closureSpace_strict (g : Graph) (t : Target) (u : Unit) :
    (closureSpace g).again t ≠ .ok u := by
  have hagain : (closureSpace g).again t = .error (.dependencyCycle t.label) := rfl
  simp [hagain]

/-- A closure holds just what its roots depend on. -/
theorem mem_buildClosure {label : Option Bytes} (h : buildClosure g label = .ok closure)
    {t : Target} : t ∈ closure ↔ InClosure g label t := by
  have hmem := buildClosure_mem h
  obtain ⟨roots, hroots, hsearch⟩ := bind_eq_ok.mp h
  constructor
  · intro ht
    have hreached := search_reached (closureSpace_strict g) hsearch ht
    refine hreached.map (f := id) (fun r hr => .of_root ⟨roots, hroots, hr⟩) ?_
    rintro a b ⟨asked, hasked, hb⟩
    exact (mem_closureSpace_next hasked).mp hb
  · intro ht
    refine ht.induction ?_ ?_
    · rintro r ⟨roots', hroots', hr⟩
      cases hroots.symm.trans hroots'
      exact mem_of_key_mem hmem (mem_closureRoots hroots r hr) ((search_spec hsearch).2.1 r hr)
    · rintro a b ha ⟨name, hname, hfind⟩
      exact buildClosure_closed h ha hname hfind

end Closure

end QStar.Lowering
