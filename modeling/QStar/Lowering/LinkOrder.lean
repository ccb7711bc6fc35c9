import QStar.Lib.Walks
import QStar.Lowering.ClosurePlan
import Mathlib.Data.List.Perm.Subperm

/-!
# The order of linked artifacts

The walk that collects the artifacts to link enters a target before its dependencies, and
so before all that it leads to only if no entry that is passed on the way leads there first.
-/
namespace QStar.Lowering

open QStar.Lib.CStrings
open QStar.Lib.Results
open QStar.Lib.Walks
open QStar.Base
open QStar.BuildGraph
open Relation

/-- The targets that a list of labels leads a walk to. -/
def followed (g : Graph) (labels : List Bytes) : List Target :=
  labels.filterMap fun label => if label.head? = some 64 then none else findTarget g label

section Visits

variable {σ : Type} {g : Graph} {visit : Target → σ → Except LoweringError σ}
  {next : Target → List Bytes} {seen : List Target} {labels entered : List Bytes} {s s' : σ}

/-- One label of a list in a dependency walk. -/
def followLabel (g : Graph) (step : Target → List Bytes × σ → Except LoweringError (List Bytes × σ))
    (acc : List Bytes × σ) (label : Bytes) : Except LoweringError (List Bytes × σ) :=
  if label.head? = some 64 then .ok acc
  else
    match findTarget g label with
    | none => .ok acc
    | some t => step t acc

/-- What a dependency walk adds to the entered targets and to its state. -/
def Visits (g : Graph) (visit : Target → σ → Except LoweringError σ)
    (next : Target → List Bytes) (todo seen : List Target) (entered : List Bytes) (s s' : σ) :
    Prop :=
  ∃ added, Walk (fun t => followed g (next t)) todo seen (seen ++ added) ∧
    entered = (seen ++ added).map Target.label ∧ added.foldlM (fun s t => visit t s) s = .ok s' ∧
    ∀ t ∈ added, t ∈ g.targets

theorem label_mem_map {t : Target} (hseen : ∀ t ∈ seen, t ∈ g.targets) (ht : t ∈ g.targets) :
    t.label ∈ seen.map Target.label ↔ t ∈ seen := by
  constructor
  · intro hmem
    obtain ⟨o, ho, hlabel⟩ := List.mem_map.mp hmem
    exact eq_of_label (hseen o ho) ht hlabel ▸ ho
  · exact List.mem_map_of_mem

theorem foldlM_followLabel_visits
    (step : Target → List Bytes × σ → Except LoweringError (List Bytes × σ)) (room : Nat)
    (hstep : ∀ t ∈ g.targets, ∀ (seen : List Target) entered s s', seen.Nodup →
      (∀ t ∈ seen, t ∈ g.targets) → room ≤ seen.length →
      step t (seen.map Target.label, s) = .ok (entered, s') →
      Visits g visit next [t] seen entered s s')
    (hnodup : seen.Nodup) (hseen : ∀ t ∈ seen, t ∈ g.targets) (hroom : room ≤ seen.length)
    (h : labels.foldlM (followLabel g step) (seen.map Target.label, s) = .ok (entered, s')) :
    Visits g visit next (followed g labels) seen entered s s' := by
  induction labels generalizing seen s with
  | nil =>
    cases h
    exact ⟨[], by simpa using .done, by simp, rfl, List.forall_mem_nil _⟩
  | cons label rest ih =>
    rw [List.foldlM_cons] at h
    obtain ⟨⟨mid, between⟩, hfirst, hrest⟩ := bind_eq_ok.mp h
    unfold followLabel at hfirst
    unfold followed
    rw [List.filterMap_cons]
    split at hfirst
    · rename_i hexternal
      cases hfirst
      simp only [hexternal, if_true]
      exact ih hnodup hseen hroom hrest
    · rename_i hexternal
      simp only [hexternal, if_false]
      cases hfind : findTarget g label with
      | none =>
        rw [hfind] at hfirst
        cases hfirst
        exact ih hnodup hseen hroom hrest
      | some t =>
        rw [hfind] at hfirst
        obtain ⟨added, hwalk, rfl, hadded, hmem⟩ :=
          hstep t (findTarget_mem hfind) seen mid s between hnodup hseen hroom hfirst
        have hmem' : ∀ t ∈ seen ++ added, t ∈ g.targets := by
          intro t ht
          exact (List.mem_append.mp ht).elim (hseen t) (hmem t)
        obtain ⟨more, hwalk', hentered, hmore, hmem''⟩ :=
          ih (hwalk.nodup hnodup) hmem' (by simp; omega) hrest
        refine ⟨added ++ more, ?_, ?_, ?_, ?_⟩
        · rw [← List.append_assoc]
          exact hwalk.append hwalk'
        · rw [hentered, List.append_assoc]
        · rw [List.foldlM_append, hadded]
          exact hmore
        · intro t ht
          exact (List.mem_append.mp ht).elim (hmem t) (hmem'' t)

/-- A dependency walk never runs out of fuel while there are fewer targets than it has fuel and
entered targets. -/
theorem visitOnce_visits {fuel : Nat} {t : Target} (ht : t ∈ g.targets) (hnodup : seen.Nodup)
    (hseen : ∀ t ∈ seen, t ∈ g.targets) (hroom : g.targets.length < fuel + seen.length)
    (h : visitOnce g visit next fuel t (seen.map Target.label, s) = .ok (entered, s')) :
    Visits g visit next [t] seen entered s s' := by
  induction fuel generalizing t seen entered s s' with
  | zero =>
    have hlength := (List.subperm_of_subset hnodup hseen).length_le
    omega
  | succ fuel ih =>
    unfold visitOnce at h
    split at h
    · rename_i hentered
      cases h
      have hmem := (label_mem_map hseen ht).mp hentered
      exact ⟨[], by simpa using .skip hmem .done, by simp, rfl, List.forall_mem_nil _⟩
    · rename_i hentered
      have hnotMem : t ∉ seen := fun hmem => hentered ((label_mem_map hseen ht).mpr hmem)
      obtain ⟨mid, hvisit, h⟩ := bind_eq_ok.mp h
      have hnodup' : (seen ++ [t]).Nodup := by
        refine List.nodup_append.mpr ⟨hnodup, List.nodup_singleton _, ?_⟩
        rintro o ho o' ho' rfl
        exact hnotMem (List.mem_singleton.mp ho' ▸ ho)
      have hseen' : ∀ o ∈ seen ++ [t], o ∈ g.targets := by
        intro o ho
        rcases List.mem_append.mp ho with ho | ho
        · exact hseen o ho
        · exact List.mem_singleton.mp ho ▸ ht
      have hlabels : seen.map Target.label ++ [t.label] = (seen ++ [t]).map Target.label := by simp
      rw [hlabels] at h
      obtain ⟨added, hwalk, hlabels', hadded, hmem⟩ :=
        foldlM_followLabel_visits (visitOnce g visit next fuel) (g.targets.length + 1 - fuel)
          (fun o ho seen' entered' s s' hnodup hseen hroom hstep =>
            ih ho hnodup hseen (by omega) hstep)
          hnodup' hseen' (by simp only [List.length_append, List.length_singleton]; omega) h
      refine ⟨t :: added, ?_, ?_, ?_, ?_⟩
      · rw [List.append_cons]
        exact .enter hnotMem hwalk .done
      · simpa using hlabels'
      · rw [List.foldlM_cons]
        exact bind_eq_ok.mpr ⟨mid, hvisit, hadded⟩
      · intro o ho
        rcases List.mem_cons.mp ho with rfl | ho
        · exact ht
        · exact hmem o ho

/-- The walk from the dependencies of a target. -/
theorem visitDeps_visits {t : Target} (h : visitDeps g visit next t s = .ok s') :
    ∃ order, Walk (fun t => followed g (next t)) (followed g (t.deps ++ t.privateDeps)) [] order ∧
      order.foldlM (fun s t => visit t s) s = .ok s' := by
  obtain ⟨⟨entered, final⟩, h, hfinal⟩ := bind_eq_ok.mp h
  cases hfinal
  obtain ⟨added, hwalk, -, hadded, -⟩ :=
    foldlM_followLabel_visits (visitOnce g visit next (g.targets.length + 1)) 0
      (fun o ho seen' entered' s s' hnodup hseen _ hstep =>
        visitOnce_visits ho hnodup hseen (by omega) hstep)
      List.nodup_nil (List.forall_mem_nil _) (Nat.zero_le _) h
  exact ⟨added, by simpa using hwalk, hadded⟩

end Visits

/-! ## Artifacts -/

/-- A target that has something to link. -/
def bearsArtifact (t : Target) : Bool := !(hasNothingToLink t || t.kind = .interface)

/-- Where the walk for artifacts goes from a target. -/
def linkNext (g : Graph) (t : Target) : List Target := followed g (linkedDeps t)

/-- Where the walk for the artifacts of a target starts. -/
def linkRoots (g : Graph) (t : Target) : List Target := followed g (t.deps ++ t.privateDeps)

/-- A target with an artifact that the dependencies of a target lead to. -/
def LinksWith (g : Graph) (t dep : Target) : Prop :=
  Leads (linkNext g) (linkRoots g t) dep ∧ bearsArtifact dep = true

/-- What the artifacts to link are: those of the targets that are led to, once each, and before
those of the targets they depend on. -/
structure LinksInOrder (g : Graph) (t : Target) (artifacts : List Bytes) : Prop where
  nodup : artifacts.Nodup
  exact : ∀ path, path ∈ artifacts ↔ ∃ dep, LinksWith g t dep ∧
    targetLinkArtifactPath g dep = .ok path
  ordered : ∀ a b, LinksWith g t a → LinksWith g t b → TransGen (DependsOn g) a b →
    ∀ path path', targetLinkArtifactPath g a = .ok path → targetLinkArtifactPath g b = .ok path' →
      [path, path'].Sublist artifacts

/-- No two targets to link have one artifact. -/
def DistinctArtifacts (g : Graph) (t : Target) : Prop :=
  ∀ a b path, LinksWith g t a → LinksWith g t b → targetLinkArtifactPath g a = .ok path →
    targetLinkArtifactPath g b = .ok path → a = b

/-- On the way to a target with an artifact, the entries passed in the lists of dependencies
lead to nothing with an artifact that it depends on, unless they lead to the target too. -/
def NothingAhead (g : Graph) (t : Target) : Prop :=
  ∀ passed a, Arrives (linkNext g) (linkRoots g t) passed a → ¬Leads (linkNext g) passed a →
    bearsArtifact a = true → ∀ b, bearsArtifact b = true → TransGen (DependsOn g) a b →
      ¬Leads (linkNext g) passed b

section Artifacts

variable {g : Graph} {t : Target} {order : List Target} {artifacts start : List Bytes}

theorem dependsOn_of_followed {a b : Target} {labels : List Bytes}
    (hlabels : labels ⊆ a.deps ++ a.privateDeps) (h : b ∈ followed g labels) : DependsOn g a b := by
  obtain ⟨name, hname, hfind⟩ := List.mem_filterMap.mp h
  split at hfind
  · cases hfind
  · exact ⟨name, List.mem_append_right _ (hlabels hname), hfind⟩

theorem linkedDeps_subset (t : Target) : linkedDeps t ⊆ t.deps ++ t.privateDeps := by
  unfold linkedDeps
  split
  · exact List.nil_subset _
  · split
    · exact List.subset_append_left _ _
    · exact List.Subset.refl _

theorem dependsOn_of_step {a b : Target} (h : Step (linkNext g) a b) : DependsOn g a b :=
  dependsOn_of_followed (linkedDeps_subset a) h

/-- The path of an artifact that there is. -/
def linkPath (g : Graph) (t : Target) : Bytes := (targetLinkArtifactPath g t).toOption.getD []

theorem linkPath_eq {path : Bytes} (h : targetLinkArtifactPath g t = .ok path) :
    linkPath g t = path := by
  rw [linkPath, h]
  rfl

/-- The walk collects the paths of the targets with artifacts that it enters. -/
theorem foldlM_linkArtifact
    (h : order.foldlM (fun artifacts t => linkArtifact g t artifacts) start = .ok artifacts) :
    artifacts = start ++ (order.filter bearsArtifact).map (linkPath g) ∧
      ∀ t ∈ order, bearsArtifact t = true → targetLinkArtifactPath g t = .ok (linkPath g t) := by
  induction order generalizing start with
  | nil =>
    cases h
    exact ⟨by simp, List.forall_mem_nil _⟩
  | cons t rest ih =>
    rw [List.foldlM_cons] at h
    obtain ⟨mid, hfirst, hrest⟩ := bind_eq_ok.mp h
    obtain ⟨heq, hpaths⟩ := ih hrest
    unfold linkArtifact at hfirst
    split at hfirst
    · rename_i hnothing
      cases hfirst
      have hbears : bearsArtifact t = false := by rw [bearsArtifact, hnothing, Bool.not_true]
      refine ⟨by rw [heq, List.filter_cons_of_neg (by simp [hbears])], fun o ho hbears' => ?_⟩
      rcases List.mem_cons.mp ho with rfl | ho
      · rw [hbears] at hbears'
        cases hbears'
      · exact hpaths o ho hbears'
    · rename_i hsomething
      obtain ⟨path, hpath, hmid⟩ := bind_eq_ok.mp hfirst
      cases hmid
      have hbears : bearsArtifact t = true := by simpa [bearsArtifact] using hsomething
      refine ⟨?_, fun o ho hbears' => ?_⟩
      · rw [heq, List.filter_cons_of_pos hbears, List.map_cons, linkPath_eq hpath,
          List.append_assoc]
        rfl
      · rcases List.mem_cons.mp ho with rfl | ho
        · rw [linkPath_eq hpath, hpath]
        · exact hpaths o ho hbears'

/-- The artifacts to link are in order if and only if their paths differ and nothing that a
target with an artifact depends on is come to ahead of it. -/
theorem depArtifacts_inOrder_iff (hacyclic : ∀ a, ¬TransGen (DependsOn g) a a)
    (h : depArtifacts g t = .ok artifacts) :
    LinksInOrder g t artifacts ↔ DistinctArtifacts g t ∧ NothingAhead g t := by
  obtain ⟨order, hwalk, hartifacts⟩ := visitDeps_visits h
  obtain ⟨heq, hpaths⟩ := foldlM_linkArtifact hartifacts
  rw [List.nil_append] at heq
  have hstep : ∀ a b, Step (linkNext g) a b → DependsOn g a b := fun _ _ => dependsOn_of_step
  have hacyclic' : ∀ a, ¬TransGen (Step (linkNext g)) a a :=
    fun a hcycle => hacyclic a (TransGen.mono hstep _ _ hcycle)
  have hneeds : ∀ a b, TransGen (DependsOn g) a b → ¬ReflTransGen (Step (linkNext g)) b a :=
    fun a b hab hba => hacyclic a (hab.trans_left (ReflTransGen.mono hstep _ _ hba))
  have hmem : ∀ {dep}, dep ∈ order ↔ Leads (linkNext g) (linkRoots g t) dep := by
    intro dep
    rw [hwalk.mem_iff hacyclic' stands_nil]
    simp [linkRoots]
  have hlinks : ∀ {dep}, LinksWith g t dep ↔ dep ∈ order.filter bearsArtifact := by
    intro dep
    rw [List.mem_filter, hmem, LinksWith]
  have hpath : ∀ {dep}, LinksWith g t dep → targetLinkArtifactPath g dep = .ok (linkPath g dep) :=
    fun hdep => hpaths _ (hmem.mpr hdep.1) hdep.2
  have hnodup : (order.filter bearsArtifact).Nodup := (hwalk.nodup List.nodup_nil).filter _
  have hdistinct : artifacts.Nodup ↔ DistinctArtifacts g t := by
    rw [heq, List.nodup_map_iff_inj_on hnodup]
    constructor
    · intro hinj a b path ha hb hpa hpb
      exact hinj a (hlinks.mp ha) b (hlinks.mp hb) ((linkPath_eq hpa).trans (linkPath_eq hpb).symm)
    · intro hinj a ha b hb hsame
      have ha := hlinks.mpr ha
      have hb := hlinks.mpr hb
      exact hinj a b (linkPath g a) ha hb (hpath ha) (hsame ▸ hpath hb)
  have hexact : ∀ path, path ∈ artifacts ↔ ∃ dep, LinksWith g t dep ∧
      targetLinkArtifactPath g dep = .ok path := by
    intro path
    rw [heq, List.mem_map]
    constructor
    · rintro ⟨dep, hdep, rfl⟩
      exact ⟨dep, hlinks.mpr hdep, hpath (hlinks.mpr hdep)⟩
    · rintro ⟨dep, hdep, hpath⟩
      exact ⟨dep, hlinks.mp hdep, linkPath_eq hpath⟩
  -- the order of the paths is that of the targets, which their paths tell apart
  have hordered : DistinctArtifacts g t → ∀ a b, LinksWith g t a → LinksWith g t b →
      ([linkPath g a, linkPath g b].Sublist artifacts ↔ [a, b].Sublist order) := by
    intro hinj a b ha hb
    rw [heq]
    constructor
    · intro hsublist
      obtain ⟨pair, hpair, hpaths⟩ := List.sublist_map_iff.mp hsublist
      obtain ⟨x, rest, rfl, hx, hrest⟩ := List.map_eq_cons_iff.mp hpaths.symm
      obtain ⟨y, rest, rfl, hy, hrest⟩ := List.map_eq_cons_iff.mp hrest
      obtain rfl := List.map_eq_nil_iff.mp hrest
      have hxlinks : LinksWith g t x := hlinks.mpr (hpair.subset (by simp))
      have hylinks : LinksWith g t y := hlinks.mpr (hpair.subset (by simp))
      have hxa : x = a := hinj x a _ hxlinks ha (hpath hxlinks) (hx ▸ hpath ha)
      have hyb : y = b := hinj y b _ hylinks hb (hpath hylinks) (hy ▸ hpath hb)
      subst hxa hyb
      exact hpair.trans List.filter_sublist
    · intro hsublist
      have hfiltered := (hsublist.filter bearsArtifact).map (linkPath g)
      simpa [ha.2, hb.2] using hfiltered
  constructor
  · intro hin
    have hinj := hdistinct.mp hin.nodup
    refine ⟨hinj, (hwalk.ordered_iff hacyclic' hneeds).mp ?_⟩
    intro a ha b hb hwanted hwanted' hab
    have ha : LinksWith g t a := ⟨hmem.mp ha, hwanted⟩
    have hb : LinksWith g t b := ⟨hmem.mp hb, hwanted'⟩
    exact (hordered hinj a b ha hb).mp (hin.ordered a b ha hb hab _ _ (hpath ha) (hpath hb))
  · rintro ⟨hinj, hahead⟩
    refine ⟨hdistinct.mpr hinj, hexact, fun a b ha hb hab path path' hpa hpb => ?_⟩
    rw [← linkPath_eq hpa, ← linkPath_eq hpb]
    refine (hordered hinj a b ha hb).mpr ?_
    exact (hwalk.ordered_iff hacyclic' hneeds).mpr hahead a (hmem.mpr ha.1) b (hmem.mpr hb.1)
      ha.2 hb.2 hab

end Artifacts

/-! ## A library that is named before one that uses it -/

def baseLibrary : Target where
  label := ascii "//:base"
  name := ascii "base"
  kind := .staticlib
  label_ne := by decide
  sources_lt := Target.no_sources_lt

def utilLibrary : Target where
  label := ascii "//:util"
  name := ascii "util"
  kind := .staticlib
  deps := [ascii "//:base"]
  label_ne := by decide
  sources_lt := Target.no_sources_lt

def linkedProgram : Target where
  label := ascii "//:app"
  name := ascii "app"
  kind := .exe
  deps := [ascii "//:base", ascii "//:util"]
  label_ne := app_label_ne
  sources_lt := Target.no_sources_lt

def diamondGraph : Graph where
  host := ascii "linux"
  platform := ascii "linux"
  buildDir := ascii "build"
  targets := [linkedProgram, utilLibrary, baseLibrary]
  genrules := []
  stages := []
  toolsets := []
  languages := []
  labels_nodup := by decide
  objectlib_objects := by decide
  objects_objectlib := by decide

theorem diamondGraph_acyclic : ∀ t, ¬TransGen (DependsOn diamondGraph) t t := by
  obtain ⟨order, horder⟩ := exists_eq_ok (x := buildPlan diamondGraph none) (by decide)
  exact acyclic_of_buildPlan horder

theorem diamondGraph_artifacts : depArtifacts diamondGraph linkedProgram =
    .ok [ascii "build/out/___base/libbase.a", ascii "build/out/___util/libutil.a"] := by
  rfl

theorem diamond_inOrder_iff :
    LinksInOrder diamondGraph linkedProgram
        [ascii "build/out/___base/libbase.a", ascii "build/out/___util/libutil.a"] ↔
      DistinctArtifacts diamondGraph linkedProgram ∧ NothingAhead diamondGraph linkedProgram :=
  depArtifacts_inOrder_iff diamondGraph_acyclic diamondGraph_artifacts

/-- `base` is linked before `util`, which uses it. -/
theorem diamond_out_of_order : (∀ t, ¬TransGen (DependsOn diamondGraph) t t) ∧
    ∃ artifacts, depArtifacts diamondGraph linkedProgram = .ok artifacts ∧
      ¬LinksInOrder diamondGraph linkedProgram artifacts := by
  refine ⟨diamondGraph_acyclic, _, diamondGraph_artifacts, fun hin => ?_⟩
  have hutil : LinksWith diamondGraph linkedProgram utilLibrary :=
    ⟨⟨utilLibrary, List.mem_filterMap.mpr ⟨utilLibrary.label, by decide, rfl⟩, .refl⟩, rfl⟩
  have hbase : LinksWith diamondGraph linkedProgram baseLibrary :=
    ⟨⟨baseLibrary, List.mem_filterMap.mpr ⟨baseLibrary.label, by decide, rfl⟩, .refl⟩, rfl⟩
  have hdepends : DependsOn diamondGraph utilLibrary baseLibrary :=
    ⟨baseLibrary.label, by decide, rfl⟩
  have hpair := hin.ordered utilLibrary baseLibrary hutil hbase (.single hdepends) _ _ rfl rfl
  revert hpair
  decide

end QStar.Lowering
