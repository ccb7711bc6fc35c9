import QStar.Lib.Cycles
import QStar.Testing.Selection

/-!
# Resolving a suite

Validation and resolution walk the suites in two different ways: the one colours the
suites it enters and finishes, the other keeps the suites it is inside of and walks a
suite again wherever it is shared. What the one accepts the other resolves.
-/
namespace QStar.Testing

open QStar.Lib.CStrings
open QStar.Lib.Cycles
open QStar.Lib.Results
open QStar.Base

variable {g : SuiteGraph}

/-- A suite of the graph has another one among its members. -/
def SuiteContains (g : SuiteGraph) (s n : TestSuite) : Prop :=
  s ∈ g.testSuites ∧ ∃ member ∈ s.tests, findTestSuite g member = some n

/-- A label of a test or a run target. -/
def NamesTest (g : SuiteGraph) (label : Bytes) : Prop :=
  ∃ t, findTestTarget g label = some t ∧ (t.kind = ascii "test" ∨ t.kind = ascii "run_target")

theorem not_cyclic_of_validated (h : validateTestSuites g = .ok ()) : ¬Cyclic (SuiteContains g) := by
  obtain ⟨rank, hlt, hrank⟩ := validated_rank h
  refine not_cyclic_of_rank (fun s => g.testSuites.length - rank s.label) ?_
  rintro s n ⟨hs, member, hmember, hfound⟩
  have hbelow := hrank s hs n (List.mem_filterMap.mpr ⟨member, hmember, hfound⟩)
  have hbound := hlt s hs
  show g.testSuites.length - rank s.label < g.testSuites.length - rank n.label
  omega

theorem checkMembers_ok {suite : Bytes} {seen members : List Bytes}
    (h : checkMembers g suite seen members = .ok ()) :
    ∀ member ∈ members, findTestSuite g member = none → NamesTest g member := by
  induction members generalizing seen with
  | nil => exact nofun
  | cons member rest ih =>
    intro label hlabel hplain
    rw [checkMembers] at h
    split at h
    · cases h
    · split at h
      · next hsuite =>
        rcases List.mem_cons.mp hlabel with rfl | hlabel
        · rw [hplain] at hsuite
          cases hsuite
        · exact ih h label hlabel hplain
      · split at h
        · cases h
        · next t hfound =>
          split at h
          · cases h
          · next hkind =>
            rcases List.mem_cons.mp hlabel with rfl | hlabel
            · rw [not_and_or, not_not, not_not] at hkind
              exact ⟨t, hfound, hkind⟩
            · exact ih h label hlabel hplain

theorem namesTest_of_validated (h : validateTestSuites g = .ok ()) {s : TestSuite}
    (hs : s ∈ g.testSuites) : ∀ member ∈ s.tests, findTestSuite g member = none → NamesTest g member := by
  obtain ⟨⟨⟩, hsuites, -⟩ := bind_eq_ok.mp h
  have hcheck := forM_eq_ok hsuites s hs
  unfold checkSuite at hcheck
  split at hcheck
  · cases hcheck
  · split at hcheck
    · cases hcheck
    · obtain ⟨⟨⟩, -, hmembers⟩ := bind_eq_ok.mp hcheck
      exact checkMembers_ok hmembers

/-- No listing but one. -/
theorem Listing.unique {excludeTags members leaves others : List Bytes}
    (h : Listing g excludeTags members leaves) (h' : Listing g excludeTags members others) :
    leaves = others := by
  induction h generalizing others with
  | done =>
    cases h'
    rfl
  | leaf plain _ ih =>
    cases h' with
    | leaf _ hrest => rw [ih hrest]
    | excluded found => cases plain.symm.trans found
    | nested found => cases plain.symm.trans found
  | excluded found cut _ ih =>
    cases h' with
    | leaf plain => cases plain.symm.trans found
    | excluded _ _ hrest => exact ih hrest
    | nested found' kept =>
      cases found.symm.trans found'
      cases cut.symm.trans kept
  | nested found kept _ _ ihinside ihothers =>
    cases h' with
    | leaf plain => cases plain.symm.trans found
    | excluded found' cut =>
      cases found.symm.trans found'
      cases cut.symm.trans kept
    | nested found' _ hinside hrest =>
      cases found.symm.trans found'
      rw [ihinside hinside, ihothers hrest]

theorem SuiteListing.unique {excludeTags leaves others : List Bytes} {s : TestSuite}
    (h : SuiteListing g excludeTags s leaves) (h' : SuiteListing g excludeTags s others) :
    leaves = others := by
  rcases h with ⟨hcut, rfl⟩ | ⟨hkept, hlisting⟩
  · rcases h' with ⟨-, rfl⟩ | ⟨hkept, -⟩
    · rfl
    · cases hcut.symm.trans hkept
  · rcases h' with ⟨hcut, -⟩ | ⟨-, hlisting'⟩
    · cases hcut.symm.trans hkept
    · exact hlisting.unique hlisting'

/-- A graph is validated only if no suite is inside itself and every member that is no suite is a
test or a run target; then every suite is resolved to its leaves in the order in which a
depth-first walk first comes to them, for every choice of excluded tags. -/
theorem validated_suites_resolve (h : validateTestSuites g = .ok ()) :
    ¬Cyclic (SuiteContains g) ∧
      (∀ s ∈ g.testSuites, ∀ member ∈ s.tests, findTestSuite g member = none → NamesTest g member) ∧
      ∀ excludeTags, ∀ s ∈ g.testSuites, ∃ leaves,
        (∀ listed, SuiteListing g excludeTags s listed ↔ listed = leaves) ∧
        resolveMembers g excludeTags s [] = some leaves.eraseDups ∧ leaves.eraseDups.Nodup ∧
        ∀ x, x ∈ leaves.eraseDups ↔ Leaf g excludeTags s x := by
  refine ⟨not_cyclic_of_validated h, fun s hs => namesTest_of_validated h hs, ?_⟩
  intro excludeTags s hs
  obtain ⟨leaves, hresolved, hlisting⟩ := resolveMembers_listing h excludeTags hs []
  have hunique : appendUnique [] leaves = leaves.eraseDups := by
    rw [appendUnique_eq_eraseDups, List.nil_append, without_eq_self fun x _ => List.not_mem_nil]
  rw [hunique] at hresolved
  refine ⟨leaves, fun listed => ⟨fun h => h.unique hlisting, ?_⟩, hresolved, ?_, ?_⟩
  · rintro rfl
    exact hlisting
  · rw [← hunique]
    exact nodup_appendUnique leaves List.nodup_nil
  · intro x
    rw [List.mem_eraseDups, hlisting.mem_iff]

/-- A suite with a leaf of its own and a shared one, and a suite that contains it. -/
def sharedSuites : SuiteGraph :=
  { twoSuites with
    testSuites := [
      { label := ascii "//:a", tests := [ascii "//:x"], tags := [], manual := false },
      { label := ascii "//:b", tests := [ascii "//:a", ascii "//:y", ascii "//:c"], tags := [],
        manual := false },
      { label := ascii "//:c", tests := [ascii "//:a"], tags := [], manual := false }]
    suites_nodup := by decide }

theorem sharedSuites_resolve :
    ¬Cyclic (SuiteContains sharedSuites) ∧
      resolveMembers sharedSuites [] (sharedSuites.testSuites.get ⟨1, by decide⟩) [] =
        some [ascii "//:x", ascii "//:y"] :=
  ⟨(validated_suites_resolve (g := sharedSuites) (by decide)).1, by decide⟩

end QStar.Testing
