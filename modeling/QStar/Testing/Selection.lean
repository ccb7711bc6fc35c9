import QStar.Testing.Suites
import Mathlib.Data.List.Perm.Subperm

/-!
# What a selection selects

The leaves of a suite are its members that are no suites and the leaves of its nested suites,
cut off at every suite with an excluded tag. In a validated graph resolving a suite succeeds
and adds its leaves, each once.
-/
namespace QStar.Testing

open QStar.Lib.CStrings
open QStar.Lib.Results
open QStar.Lib.Search
open QStar.Base

/-- The leaf members of a suite under excluded tags. -/
inductive Leaf (g : SuiteGraph) (excludeTags : List Bytes) : TestSuite → Bytes → Prop where
  | member {s : TestSuite} {label : Bytes} (kept : suiteIsExcluded excludeTags s = false)
      (listed : label ∈ s.tests) (plain : findTestSuite g label = none) : Leaf g excludeTags s label
  | nested {s n : TestSuite} {member label : Bytes} (kept : suiteIsExcluded excludeTags s = false)
      (listed : member ∈ s.tests) (found : findTestSuite g member = some n)
      (below : Leaf g excludeTags n label) : Leaf g excludeTags s label

variable {g : SuiteGraph} {excludeTags : List Bytes}

theorem findTestSuite_mem {label : Bytes} {s : TestSuite} (h : findTestSuite g label = some s) :
    s ∈ g.testSuites ∧ s.label = label :=
  ⟨List.mem_of_find?_eq_some h, by simpa using List.find?_some h⟩

/-- The suites of a validated graph can be ranked above the suites they contain. -/
theorem validated_rank (h : validateTestSuites g = .ok ()) :
    ∃ rank : Bytes → Nat, (∀ s ∈ g.testSuites, rank s.label < g.testSuites.length) ∧
      ∀ s ∈ g.testSuites, ∀ n ∈ nestedSuites g s, rank n.label < rank s.label := by
  obtain ⟨⟨⟩, -, h⟩ := bind_eq_ok.mp h
  obtain ⟨order, hsearch, -⟩ := bind_eq_ok.mp h
  obtain ⟨hnodup, hroots, -⟩ := search_spec hsearch
  have hordered : (suiteSpace g).Ordered order :=
    search_ordered (s := suiteSpace g) (fun _ _ hagain => by cases hagain) hsearch
  have hsuites : ∀ s ∈ order, s ∈ g.testSuites := by
    intro s hs
    rcases search_wanted hsearch s hs with hroot | ⟨n, -, asked, hasked, hmem⟩
    · exact hroot
    · cases hasked
      obtain ⟨member, -, hfound⟩ := List.mem_filterMap.mp hmem
      exact (findTestSuite_mem hfound).1
  have hin (s : TestSuite) (hs : s ∈ g.testSuites) : s ∈ order := by
    obtain ⟨t, ht, hlabel⟩ := List.mem_map.mp (hroots s hs)
    exact List.inj_on_of_nodup_map g.suites_nodup (hsuites t ht) hs hlabel ▸ ht
  have hlength : order.length ≤ g.testSuites.length := by
    have hkeys : (order.map TestSuite.label).length ≤ (g.testSuites.map TestSuite.label).length := by
      refine (List.subperm_of_subset hnodup ?_).length_le
      intro label hlabel
      obtain ⟨t, ht, rfl⟩ := List.mem_map.mp hlabel
      exact List.mem_map_of_mem (hsuites t ht)
    simpa using hkeys
  obtain ⟨rank, hrank⟩ := hordered.exists_rank hnodup
  refine ⟨rank, fun s hs => ?_, fun s hs n hn => ?_⟩
  · exact lt_of_lt_of_le (hrank s (hin s hs)).1 hlength
  · exact (hrank s (hin s hs)).2 _ rfl n hn

theorem leaf_iff (s : TestSuite) (x : Bytes) :
    Leaf g excludeTags s x ↔ suiteIsExcluded excludeTags s = false ∧ ∃ member ∈ s.tests,
      (findTestSuite g member = none ∧ x = member) ∨
        ∃ n, findTestSuite g member = some n ∧ Leaf g excludeTags n x := by
  constructor
  · intro h
    cases h with
    | member kept listed plain => exact ⟨kept, x, listed, .inl ⟨plain, rfl⟩⟩
    | nested kept listed found below => exact ⟨kept, _, listed, .inr ⟨_, found, below⟩⟩
  · rintro ⟨kept, member, listed, ⟨plain, rfl⟩ | ⟨n, found, below⟩⟩
    · exact .member kept listed plain
    · exact .nested kept listed found below

/-- The leaves of the members of a suite in the order in which a depth-first walk comes to them,
as often as it does. -/
inductive Listing (g : SuiteGraph) (excludeTags : List Bytes) : List Bytes → List Bytes → Prop where
  | done : Listing g excludeTags [] []
  | leaf {member : Bytes} {rest leaves : List Bytes} (plain : findTestSuite g member = none)
      (others : Listing g excludeTags rest leaves) :
      Listing g excludeTags (member :: rest) (member :: leaves)
  | excluded {member : Bytes} {rest leaves : List Bytes} {n : TestSuite}
      (found : findTestSuite g member = some n) (cut : suiteIsExcluded excludeTags n = true)
      (others : Listing g excludeTags rest leaves) : Listing g excludeTags (member :: rest) leaves
  | nested {member : Bytes} {rest below leaves : List Bytes} {n : TestSuite}
      (found : findTestSuite g member = some n) (kept : suiteIsExcluded excludeTags n = false)
      (inside : Listing g excludeTags n.tests below) (others : Listing g excludeTags rest leaves) :
      Listing g excludeTags (member :: rest) (below ++ leaves)

/-- The same for a suite, which has none when it is excluded. -/
def SuiteListing (g : SuiteGraph) (excludeTags : List Bytes) (s : TestSuite) (leaves : List Bytes) :
    Prop :=
  (suiteIsExcluded excludeTags s = true ∧ leaves = []) ∨
    (suiteIsExcluded excludeTags s = false ∧ Listing g excludeTags s.tests leaves)

theorem SuiteListing.before {member : Bytes} {rest below leaves : List Bytes} {n : TestSuite}
    (hfound : findTestSuite g member = some n) (hn : SuiteListing g excludeTags n below)
    (hrest : Listing g excludeTags rest leaves) :
    Listing g excludeTags (member :: rest) (below ++ leaves) := by
  rcases hn with ⟨hcut, rfl⟩ | ⟨hkept, hinside⟩
  · exact .excluded hfound hcut hrest
  · exact .nested hfound hkept hinside hrest

theorem Listing.mem_iff {members leaves : List Bytes} (h : Listing g excludeTags members leaves)
    (x : Bytes) : x ∈ leaves ↔ ∃ member ∈ members, (findTestSuite g member = none ∧ x = member) ∨
      ∃ n, findTestSuite g member = some n ∧ Leaf g excludeTags n x := by
  induction h with
  | done => simp
  | leaf plain _ ih => simp [ih, plain]
  | @excluded member rest leaves n found cut _ ih =>
    have hnone : ¬Leaf g excludeTags n x := by
      rw [leaf_iff, cut]
      simp
    simp [ih, found, hnone]
  | @nested member rest below leaves n found kept _ _ ihinside ihothers =>
    have hinside : x ∈ below ↔ Leaf g excludeTags n x := by
      rw [ihinside, leaf_iff n, and_iff_right kept]
    simp [hinside, ihothers, found]

theorem SuiteListing.mem_iff {s : TestSuite} {leaves : List Bytes}
    (h : SuiteListing g excludeTags s leaves) (x : Bytes) : x ∈ leaves ↔ Leaf g excludeTags s x := by
  rw [leaf_iff]
  rcases h with ⟨hcut, rfl⟩ | ⟨hkept, hlisting⟩
  · simp [hcut]
  · rw [hlisting.mem_iff, and_iff_right hkept]

/-- What is added for the members of a suite, when its nested suites add their leaves. -/
theorem foldlM_members (excludeTags : List Bytes)
    (resolve : TestSuite → List Bytes → Option (List Bytes)) (members : List Bytes)
    (hresolve : ∀ member ∈ members, ∀ n, findTestSuite g member = some n → ∀ labels,
      ∃ leaves, resolve n labels = some (appendUnique labels leaves) ∧
        SuiteListing g excludeTags n leaves) (labels : List Bytes) :
    ∃ leaves, members.foldlM (fun labels member =>
        match findTestSuite g member with
        | some nested => resolve nested labels
        | none => some (pushUnique labels member)) labels = some (appendUnique labels leaves) ∧
      Listing g excludeTags members leaves := by
  induction members generalizing labels with
  | nil => exact ⟨[], rfl, .done⟩
  | cons member rest ih =>
    have hrest := ih fun m hm => hresolve m (List.mem_cons_of_mem _ hm)
    cases hfound : findTestSuite g member with
    | none =>
      obtain ⟨leaves, hfold, hleaves⟩ := hrest (pushUnique labels member)
      refine ⟨member :: leaves, ?_, .leaf hfound hleaves⟩
      simp only [List.foldlM_cons, hfound, Option.bind_eq_bind, Option.bind_some, hfold,
        appendUnique_cons]
    | some n =>
      obtain ⟨below, hbelow, hlisted⟩ := hresolve member List.mem_cons_self n hfound labels
      obtain ⟨leaves, hfold, hleaves⟩ := hrest (appendUnique labels below)
      refine ⟨below ++ leaves, ?_, hlisted.before hfound hleaves⟩
      simp only [List.foldlM_cons, hfound, Option.bind_eq_bind, Option.bind_some, hbelow, hfold,
        appendUnique_append]

/-- Where the suites are ranked, resolving one of them adds its leaves. -/
theorem resolveSuite_eq {rank : Bytes → Nat}
    (hrank : ∀ s ∈ g.testSuites, ∀ n ∈ nestedSuites g s, rank n.label < rank s.label)
    {fuel : Nat} {stack : List Bytes} {s : TestSuite} (hs : s ∈ g.testSuites)
    (hfuel : rank s.label < fuel) (hstack : ∀ label ∈ stack, rank s.label < rank label)
    (labels : List Bytes) :
    ∃ leaves, resolveSuite g excludeTags fuel stack s labels = some (appendUnique labels leaves) ∧
      SuiteListing g excludeTags s leaves := by
  induction fuel generalizing stack s labels with
  | zero => omega
  | succ fuel ih =>
    have hfresh : s.label ∉ stack := fun hmem => lt_irrefl _ (hstack _ hmem)
    rw [resolveSuite]
    cases hkept : suiteIsExcluded excludeTags s with
    | true => exact ⟨[], rfl, .inl ⟨hkept, rfl⟩⟩
    | false =>
      rw [if_neg Bool.false_ne_true, if_neg hfresh]
      obtain ⟨leaves, hfold, hleaves⟩ := foldlM_members excludeTags
        (resolveSuite g excludeTags fuel (s.label :: stack)) s.tests
        (fun member hm n hfound labels => by
          have hn : n ∈ nestedSuites g s := List.mem_filterMap.mpr ⟨member, hm, hfound⟩
          have hlt := hrank s hs n hn
          refine ih (findTestSuite_mem hfound).1 (by omega) ?_ labels
          intro label hlabel
          rcases List.mem_cons.mp hlabel with rfl | hlabel
          · exact hlt
          · exact hlt.trans (hstack label hlabel)) labels
      exact ⟨leaves, hfold, .inr ⟨hkept, hleaves⟩⟩

/-- In a validated graph resolving a suite succeeds and adds its leaves as they are come to. -/
theorem resolveMembers_listing (h : validateTestSuites g = .ok ()) (excludeTags : List Bytes)
    {s : TestSuite} (hs : s ∈ g.testSuites) (labels : List Bytes) :
    ∃ leaves, resolveMembers g excludeTags s labels = some (appendUnique labels leaves) ∧
      SuiteListing g excludeTags s leaves := by
  obtain ⟨rank, hlt, hrank⟩ := validated_rank h
  exact resolveSuite_eq hrank hs (Nat.lt_succ_of_lt (hlt s hs)) (by simp) labels

theorem resolveMembers_eq (h : validateTestSuites g = .ok ()) (excludeTags : List Bytes)
    {s : TestSuite} (hs : s ∈ g.testSuites) (labels : List Bytes) :
    ∃ leaves, resolveMembers g excludeTags s labels = some (appendUnique labels leaves) ∧
      ∀ x, x ∈ leaves ↔ Leaf g excludeTags s x := by
  obtain ⟨leaves, hresolved, hlisting⟩ := resolveMembers_listing h excludeTags hs labels
  exact ⟨leaves, hresolved, hlisting.mem_iff⟩

/-- A suite that a filter names. -/
def Names (g : SuiteGraph) (filter : Bytes) (s : TestSuite) : Prop :=
  ∃ canonical, labelCanonicalize filter [] = some canonical ∧ findTestSuite g canonical = some s

/-- Filters that are not turned down: tags of one line, and suites of the graph. -/
structure FiltersKnown (g : SuiteGraph) (options : SelectionOptions) : Prop where
  tags : ∀ tag ∈ options.tags, tagValid tag = true
  excludeTags : ∀ tag ∈ options.excludeTags, tagValid tag = true
  suites : ∀ filter ∈ options.suites, ∃ s, Names g filter s

/-- What a selection is for: the leaves of the named suites, those of the non-manual suites
with one of the tags, and those of all non-manual suites where only tags to exclude are given. -/
def Selected (g : SuiteGraph) (options : SelectionOptions) (label : Bytes) : Prop :=
  (∃ filter ∈ options.suites, ∃ s, Names g filter s ∧ Leaf g options.excludeTags s label) ∨
  (∃ s ∈ g.testSuites, s.manual = false ∧ optionTagMatches options.tags s = true ∧
    Leaf g options.excludeTags s label) ∨
  (options.suites = [] ∧ options.tags = [] ∧ options.excludeTags ≠ [] ∧
    ∃ s ∈ g.testSuites, s.manual = false ∧ Leaf g options.excludeTags s label)

/-- Steps that each add their own labels add all of them one after the other. -/
theorem foldlM_adds {α : Type} {step : List Bytes → α → Except SelectionError (List Bytes)}
    {adds : α → Bytes → Prop} (items : List α)
    (hstep : ∀ a ∈ items, ∀ labels out, step labels a = .ok out →
      ∃ added, out = appendUnique labels added ∧ ∀ x, x ∈ added ↔ adds a x)
    {labels out : List Bytes} (h : items.foldlM step labels = .ok out) :
    ∃ added, out = appendUnique labels added ∧ ∀ x, x ∈ added ↔ ∃ a ∈ items, adds a x := by
  induction items generalizing labels with
  | nil =>
    cases h
    exact ⟨[], rfl, by simp⟩
  | cons a rest ih =>
    rw [List.foldlM_cons, bind_eq_ok] at h
    obtain ⟨mid, hmid, h⟩ := h
    obtain ⟨first, rfl, hfirst⟩ := hstep a List.mem_cons_self labels mid hmid
    obtain ⟨others, rfl, hothers⟩ := ih (fun b hb => hstep b (List.mem_cons_of_mem _ hb)) h
    refine ⟨first ++ others, (appendUnique_append labels first others).symm, fun x => ?_⟩
    simp only [List.mem_append, hfirst, hothers, List.mem_cons, exists_eq_or_imp]

theorem foldlM_succeeds {α : Type} {step : List Bytes → α → Except SelectionError (List Bytes)}
    {items : List α} (hstep : ∀ a ∈ items, ∀ labels, ∃ out, step labels a = .ok out)
    (labels : List Bytes) : ∃ out, items.foldlM step labels = .ok out := by
  induction items generalizing labels with
  | nil => exact ⟨labels, rfl⟩
  | cons a rest ih =>
    obtain ⟨mid, hmid⟩ := hstep a List.mem_cons_self labels
    obtain ⟨out, hout⟩ := ih (fun b hb => hstep b (List.mem_cons_of_mem _ hb)) mid
    exact ⟨out, by rw [List.foldlM_cons, hmid]; exact hout⟩

variable {options : SelectionOptions}

theorem selectSuite_adds (h : validateTestSuites g = .ok ()) {filter : Bytes}
    {labels out : List Bytes} (hout : selectSuite g options labels filter = .ok out) :
    ∃ added, out = appendUnique labels added ∧ ∀ x, x ∈ added ↔
      ∃ s, Names g filter s ∧ Leaf g options.excludeTags s x := by
  unfold selectSuite at hout
  split at hout
  · cases hout
  · split at hout
    · cases hout
    · next canonical hcanonical =>
      split at hout
      · cases hout
      · next s hfound =>
        obtain ⟨leaves, hresolved, hleaves⟩ :=
          resolveMembers_eq h options.excludeTags (findTestSuite_mem hfound).1 labels
        rw [hresolved] at hout
        cases hout
        refine ⟨leaves, rfl, fun x => ?_⟩
        rw [hleaves]
        constructor
        · exact fun hleaf => ⟨s, ⟨canonical, hcanonical, hfound⟩, hleaf⟩
        · rintro ⟨t, ⟨other, hother, hfound'⟩, hleaf⟩
          cases hcanonical.symm.trans hother
          cases hfound.symm.trans hfound'
          exact hleaf

theorem selectSuite_succeeds (h : validateTestSuites g = .ok ()) {filter : Bytes} {s : TestSuite}
    (hnames : Names g filter s) (labels : List Bytes) :
    ∃ out, selectSuite g options labels filter = .ok out := by
  obtain ⟨canonical, hcanonical, hfound⟩ := hnames
  obtain ⟨leaves, hresolved, -⟩ :=
    resolveMembers_eq h options.excludeTags (findTestSuite_mem hfound).1 labels
  have hne : filter ≠ [] := by
    rintro rfl
    cases hcanonical
  refine ⟨appendUnique labels leaves, ?_⟩
  rw [selectSuite, if_neg hne]
  simp only [hcanonical, hfound, hresolved]

/-- The suites the loop over all suites takes. -/
def TakenByTags (g : SuiteGraph) (options : SelectionOptions) (s : TestSuite) (x : Bytes) : Prop :=
  s.manual = false ∧ (options.tags = [] ∨ optionTagMatches options.tags s = true) ∧
    Leaf g options.excludeTags s x

theorem selectByTags_eq (h : validateTestSuites g = .ok ()) (options : SelectionOptions) {s : TestSuite} (hs : s ∈ g.testSuites)
    (labels : List Bytes) :
    ∃ added, selectByTags g options labels s = .ok (appendUnique labels added) ∧
      ∀ x, x ∈ added ↔ TakenByTags g options s x := by
  unfold selectByTags
  by_cases hskip : s.manual = true ∨ suiteIsExcluded options.excludeTags s = true
  · refine ⟨[], by rw [if_pos hskip]; rfl, fun x => ?_⟩
    rw [TakenByTags, leaf_iff]
    rcases hskip with hskip | hskip <;> simp [hskip]
  · rw [if_neg hskip]
    rw [not_or, Bool.not_eq_true, Bool.not_eq_true] at hskip
    by_cases hother : options.tags ≠ [] ∧ optionTagMatches options.tags s = false
    · refine ⟨[], by rw [if_pos hother]; rfl, fun x => ?_⟩
      rw [TakenByTags]
      simp [hother.1, hother.2]
    · rw [if_neg hother]
      obtain ⟨leaves, hresolved, hleaves⟩ :=
        resolveMembers_eq h options.excludeTags hs labels
      refine ⟨leaves, by rw [hresolved], fun x => ?_⟩
      have htaken : options.tags = [] ∨ optionTagMatches options.tags s = true := by
        by_cases htags : options.tags = []
        · exact .inl htags
        · exact .inr (by simpa [htags] using hother)
      rw [hleaves, TakenByTags, and_iff_right hskip.1, and_iff_right htaken]

/-- What the resolved list holds. -/
theorem resolved_labels (h : validateTestSuites g = .ok ()) {labels : List Bytes}
    (hok : resolveTestSelection g options = .ok labels) :
    labels.Nodup ∧ ∀ x, x ∈ labels ↔
      (∃ filter ∈ options.suites, ∃ s, Names g filter s ∧ Leaf g options.excludeTags s x) ∨
      ((options.tags ≠ [] ∨ options.excludeTags ≠ []) ∧
        ∃ s ∈ g.testSuites, TakenByTags g options s x) := by
  have hguards := (guard_eq_ok.mp (guard_eq_ok.mp hok).2).2
  obtain ⟨named, hnamed, hrest⟩ := bind_eq_ok.mp hguards
  obtain ⟨added, rfl, hadded⟩ :=
    foldlM_adds options.suites (fun filter _ labels out hout => selectSuite_adds h hout) hnamed
  have hnodup : (appendUnique [] added).Nodup := nodup_appendUnique added List.nodup_nil
  split at hrest
  · next hnone =>
    cases hrest
    refine ⟨hnodup, fun x => ?_⟩
    simp only [mem_appendUnique, List.not_mem_nil, false_or, hadded, hnone, ne_eq, not_true_eq_false,
      or_self, false_and, or_false]
  · next hsome =>
    have hsome : options.tags ≠ [] ∨ options.excludeTags ≠ [] := by
      rwa [not_and_or] at hsome
    have hstep : ∀ s ∈ sortedSuites g, ∀ labels out, selectByTags g options labels s = .ok out →
        ∃ added, out = appendUnique labels added ∧ ∀ x, x ∈ added ↔ TakenByTags g options s x := by
      intro s hs labels out hout
      obtain ⟨added, hadds, hmem⟩ :=
        selectByTags_eq h options (List.mem_mergeSort.mp hs) labels
      rw [hadds] at hout
      cases hout
      exact ⟨added, rfl, hmem⟩
    obtain ⟨more, rfl, hmore⟩ := foldlM_adds (sortedSuites g) hstep hrest
    refine ⟨nodup_appendUnique more hnodup, fun x => ?_⟩
    have hsorted (s : TestSuite) : s ∈ sortedSuites g ↔ s ∈ g.testSuites := List.mem_mergeSort
    simp only [mem_appendUnique, List.not_mem_nil, false_or, hadded, hmore, hsorted, hsome, true_and]

/-- Filters that are not turned down are resolved. -/
theorem selection_resolves (h : validateTestSuites g = .ok ()) (hknown : FiltersKnown g options) :
    ∃ labels, resolveTestSelection g options = .ok labels := by
  obtain ⟨named, hnamed⟩ : ∃ out, options.suites.foldlM (selectSuite g options) [] = .ok out := by
    refine foldlM_succeeds (fun filter hfilter labels => ?_) []
    obtain ⟨s, hnames⟩ := hknown.suites filter hfilter
    exact selectSuite_succeeds h hnames labels
  obtain ⟨all, hall⟩ : ∃ out, (sortedSuites g).foldlM (selectByTags g options) named = .ok out := by
    refine foldlM_succeeds (fun s hs labels => ?_) named
    obtain ⟨added, hadds, -⟩ := selectByTags_eq h options (List.mem_mergeSort.mp hs) labels
    exact ⟨_, hadds⟩
  have htags : options.tags.all tagValid = true := List.all_eq_true.mpr hknown.tags
  have hexclude : options.excludeTags.all tagValid = true := List.all_eq_true.mpr hknown.excludeTags
  simp only [resolveTestSelection, htags, hexclude, Bool.true_eq_false, if_false, hnamed]
  by_cases hnone : options.tags = [] ∧ options.excludeTags = []
  · exact ⟨named, if_pos hnone⟩
  · exact ⟨all, (if_neg hnone).trans hall⟩

/-- A selection with known filters is resolved to a list without duplicates, and the list is
what is selected unless suites are named together with nothing but tags to exclude: then the
leaves of all other non-manual suites come in too. -/
theorem selection_iff (h : validateTestSuites g = .ok ()) :
    (FiltersKnown g options → ∃ labels, resolveTestSelection g options = .ok labels) ∧
      ∀ labels, resolveTestSelection g options = .ok labels →
        labels.Nodup ∧
          ((∀ x, x ∈ labels ↔ Selected g options x) ↔
            options.suites = [] ∨ options.tags ≠ [] ∨ options.excludeTags = [] ∨
              ∀ s ∈ g.testSuites, s.manual = false → ∀ x, Leaf g options.excludeTags s x →
                ∃ filter ∈ options.suites, ∃ n, Names g filter n ∧ Leaf g options.excludeTags n x) := by
  refine ⟨selection_resolves h, fun labels hok => ?_⟩
  obtain ⟨hnodup, hlabels⟩ := resolved_labels h hok
  refine ⟨hnodup, ?_⟩
  by_cases htags : options.tags = []
  · have hmatches (s : TestSuite) : optionTagMatches [] s = false := rfl
    simp only [hlabels, Selected, TakenByTags, htags, hmatches, ne_eq, not_true_eq_false, false_or,
      true_or, true_and, Bool.false_eq_true, false_and, and_false, exists_false]
    by_cases hexclude : options.excludeTags = []
    · simp [hexclude]
    · by_cases hsuites : options.suites = []
      · simp [hexclude, hsuites]
      · simp only [hexclude, hsuites, not_false_eq_true, true_and, false_and, or_false, false_or,
          or_iff_left_iff_imp]
        constructor
        · intro hall s hs hmanual x hleaf
          exact hall x ⟨s, hs, hmanual, hleaf⟩
        · rintro hall x ⟨s, hs, hmanual, hleaf⟩
          exact hall s hs hmanual x hleaf
  · simp [hlabels, Selected, TakenByTags, htags]

theorem no_requests_nodup : (([] : List ResourceRequest).map ResourceRequest.name).Nodup :=
  List.nodup_nil

theorem no_resources_nodup : (([] : List TestResource).map TestResource.name).Nodup :=
  List.nodup_nil

def plainTest (label : Bytes) : TestTarget where
  label := label
  kind := ascii "test"
  testResources := []
  resources_nodup := no_requests_nodup
  testSetup := []
  testCleanup := []
  testRetryCount := 0
  testRetryOn := []
  testManual := false
  testSkipReason := []

def plainSuite (label test : Bytes) : TestSuite where
  label := label
  tests := [test]
  tags := []
  manual := false

/-- Two suites with one test each. -/
def twoSuites : SuiteGraph where
  buildDir := ascii "build"
  testResources := []
  names_nodup := no_resources_nodup
  targets := [plainTest (ascii "//:x"), plainTest (ascii "//:y")]
  testSuites := [plainSuite (ascii "//:a") (ascii "//:x"), plainSuite (ascii "//:b") (ascii "//:y")]
  suites_nodup := by decide
  genruleLabels := []
  stageLabels := []
  configLabels := []
  toolsetLabels := []

/-- `--suite //:a --exclude-tag slow` -/
def suiteWithoutSlow : SelectionOptions where
  suites := [ascii "//:a"]
  tags := []
  excludeTags := [ascii "slow"]

theorem twoSuites_validated : validateTestSuites twoSuites = .ok () := by decide

theorem twoSuites_sorted : sortedSuites twoSuites = twoSuites.testSuites :=
  List.mergeSort_of_pairwise (by decide)

theorem twoSuites_selection :
    (FiltersKnown twoSuites suiteWithoutSlow →
      ∃ labels, resolveTestSelection twoSuites suiteWithoutSlow = .ok labels) ∧
      ∀ labels, resolveTestSelection twoSuites suiteWithoutSlow = .ok labels →
        labels.Nodup ∧
          ((∀ x, x ∈ labels ↔ Selected twoSuites suiteWithoutSlow x) ↔
            suiteWithoutSlow.suites = [] ∨ suiteWithoutSlow.tags ≠ [] ∨
              suiteWithoutSlow.excludeTags = [] ∨
              ∀ s ∈ twoSuites.testSuites, s.manual = false →
                ∀ x, Leaf twoSuites suiteWithoutSlow.excludeTags s x →
                  ∃ filter ∈ suiteWithoutSlow.suites, ∃ n, Names twoSuites filter n ∧
                    Leaf twoSuites suiteWithoutSlow.excludeTags n x) :=
  selection_iff twoSuites_validated

/-- Naming one suite and excluding a tag that no suite has selects the other suite too. -/
theorem unnamed_suite_selected :
    validateTestSuites twoSuites = .ok () ∧
      resolveTestSelection twoSuites suiteWithoutSlow = .ok [ascii "//:x", ascii "//:y"] ∧
      ¬ Selected twoSuites suiteWithoutSlow (ascii "//:y") := by
  have hresolved : resolveTestSelection twoSuites suiteWithoutSlow =
      .ok [ascii "//:x", ascii "//:y"] := by
    unfold resolveTestSelection
    rw [twoSuites_sorted]
    decide
  refine ⟨twoSuites_validated, hresolved, ?_⟩
  rintro (⟨filter, hfilter, s, ⟨canonical, hcanonical, hfound⟩, hleaf⟩ | ⟨s, -, -, hmatches, -⟩ | ⟨hnone, -⟩)
  · cases List.mem_singleton.mp hfilter
    have hlabel : labelCanonicalize (ascii "//:a") [] = some (ascii "//:a") := by decide
    cases hlabel.symm.trans hcanonical
    have hsuite : findTestSuite twoSuites (ascii "//:a") =
        some (plainSuite (ascii "//:a") (ascii "//:x")) := by decide
    cases hsuite.symm.trans hfound
    obtain ⟨-, member, hmember, hcase⟩ := (leaf_iff _ _).mp hleaf
    cases List.mem_singleton.mp hmember
    rcases hcase with ⟨-, heq⟩ | ⟨n, hn, -⟩
    · exact absurd heq (by decide)
    · have hplain : findTestSuite twoSuites (ascii "//:x") = none := by decide
      rw [hplain] at hn
      cases hn
  · cases hmatches
  · cases hnone

end QStar.Testing
