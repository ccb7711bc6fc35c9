import QStar.Staging.Preservation
import QStar.Lib.Results

/-!
# When exports keep contents

The second run of copies of an export, and the exact condition for a stage, an
override of its root and an export to keep contents.
-/
namespace QStar.Staging

open QStar.Lib.CStrings QStar.Lib.FileTrees
open QStar.Lib.Copies QStar.Lib.Results
open QStar.Base QStar.BuildGraph

/-! ## Validation -/

/-- What `validate_stage` has checked. -/
structure ValidStage (s : Stage) : Prop where
  root : isPackageRelative s.root = true
  files : s.srcs ≠ []
  lengths : s.srcs.length = s.dsts.length
  dsts : ∀ dst ∈ s.dsts, isPackageRelative dst = true

theorem validStage_of_validate {visible : Visible} {g : Graph} {s : Stage}
    (h : validateStage visible g s = .ok ()) : ValidStage s := by
  obtain ⟨_, h⟩ := guard_eq_ok.mp h
  obtain ⟨hroot, h⟩ := guard_eq_ok.mp h
  obtain ⟨hfiles, h⟩ := guard_eq_ok.mp h
  obtain ⟨hlengths, h⟩ := guard_eq_ok.mp h
  obtain ⟨_, h⟩ := guard_eq_ok.mp h
  split at h
  · cases h
  · have hlengths' : s.srcs.length = s.dsts.length := by simpa using hlengths
    refine ⟨by simpa using hroot, hfiles, hlengths', ?_⟩
    intro dst hdst
    have hzip : dst ∈ (s.srcs.zip s.dsts).map Prod.snd := by
      rwa [List.map_snd_zip (by omega)]
    obtain ⟨entry, hentry, rfl⟩ := List.mem_map.mp hzip
    obtain ⟨_, _, hrel⟩ := bind_eq_ok.mp (forM_eq_ok h entry hentry)
    split at hrel
    · assumption
    · cases hrel

/-- The destinations of a resolved stage are those it lists. -/
theorem resolved_dsts {g : Graph} {s : Stage} {es : List (Bytes × Bytes)}
    (hlengths : s.srcs.length = s.dsts.length) (hes : resolved g s = some es) :
    es.map Prod.snd = s.dsts := by
  have hsnd : ∀ entries es' : List (Bytes × Bytes), entries.mapM (resolveEntry g) = some es' →
      es'.map Prod.snd = entries.map Prod.snd := by
    intro entries
    induction entries with
    | nil =>
      intro es' h
      obtain rfl : es' = [] := by simpa using h.symm
      rfl
    | cons entry rest ih =>
      intro es' h
      rw [List.mapM_cons] at h
      obtain ⟨e, he, h⟩ := Option.bind_eq_some_iff.mp h
      obtain ⟨tail, htail, heq⟩ := Option.bind_eq_some_iff.mp h
      obtain rfl := Option.some.inj heq
      have hdst : e.2 = entry.2 := by
        unfold resolveEntry at he
        split at he
        · exact Option.some.inj he ▸ rfl
        · cases he
      simp [ih tail htail, hdst]
  rw [hsnd _ _ hes, List.map_snd_zip (by omega)]

/-! ## The second run -/

variable {g : Graph} {root : Place} {s : Stage} {exportTo : Bytes} {es : List (Bytes × Bytes)}

/-- The copies from the staged files. -/
def between (a b : Bytes) (es : List (Bytes × Bytes)) : List (Bytes × Bytes) :=
  es.map fun e => (pathJoin a e.2, pathJoin b e.2)

/-- The paths that are files after an export. -/
def exportPaths (g : Graph) (s : Stage) (exportTo : Bytes) (es : List (Bytes × Bytes)) :
    List Bytes :=
  es.map Prod.fst ++ es.map (fun e => pathJoin s.root e.2) ++
    es.map (fun e => pathJoin exportTo e.2) ++ [manifestPath g s]

/-- An export that succeeds on files that are there preserves them: what is exported is what
the sources of the stage held. -/
def ExportPreserves (g : Graph) (root : Place) (s : Stage) (exportTo : Bytes) : Prop :=
  ∀ t t' es, resolved g s = some es → (∀ e ∈ es, t.content (placeAt root e.1) ≠ none) →
    exportRun t g root s exportTo false = some t' →
    Preserved (moves root (below s.root es) ++ moves root (below exportTo es))
      [tmpPlace g root s, manifestPlace g root s] t t'

/-- No file is exported onto itself, and a place that is exported to is staged to, or exported
to again, only from one source. -/
structure ExportApart (root : Place) (s : Stage) (exportTo : Bytes) (es : List (Bytes × Bytes)) :
    Prop where
  proper : ∀ e ∈ es, placeAt root (pathJoin s.root e.2) ≠ placeAt root (pathJoin exportTo e.2)
  staged : ∀ e ∈ es, ∀ e' ∈ es, placeAt root (pathJoin exportTo e.2) = placeAt root (pathJoin s.root e'.2) →
    placeAt root e.1 = placeAt root e'.1
  agree : ∀ e ∈ es, ∀ e' ∈ es,
    placeAt root (pathJoin exportTo e.2) = placeAt root (pathJoin exportTo e'.2) → placeAt root e.1 = placeAt root e'.1

theorem mem_between {a b : Bytes} {pair : Bytes × Bytes} :
    pair ∈ between a b es ↔ ∃ e ∈ es, pair = (pathJoin a e.2, pathJoin b e.2) := by
  simp [between, eq_comm]

theorem mem_exportPaths {rel : Bytes} : rel ∈ exportPaths g s exportTo es ↔
    (∃ e ∈ es, rel = e.1 ∨ rel = pathJoin s.root e.2 ∨ rel = pathJoin exportTo e.2) ∨
      rel = manifestPath g s := by
  simp only [exportPaths, List.mem_append, List.mem_map, List.mem_singleton]
  constructor
  · rintro (((⟨e, he, rfl⟩ | ⟨e, he, rfl⟩) | ⟨e, he, rfl⟩) | h)
    · exact .inl ⟨e, he, .inl rfl⟩
    · exact .inl ⟨e, he, .inr (.inl rfl)⟩
    · exact .inl ⟨e, he, .inr (.inr rfl)⟩
    · exact .inr h
  · rintro (⟨e, he, rfl | rfl | rfl⟩ | h)
    · exact .inl (.inl (.inl ⟨e, he, rfl⟩))
    · exact .inl (.inl (.inr ⟨e, he, rfl⟩))
    · exact .inl (.inr ⟨e, he, rfl⟩)
    · exact .inr h

theorem exportFiles_eq (hlengths : s.srcs.length = s.dsts.length) (hes : resolved g s = some es)
    (a b : Bytes) (t : Tree) :
    s.dsts.foldlM (exportFile root a b) t = placeAll t root (between a b es) := by
  rw [← resolved_dsts hlengths hes, placeAll, between, List.foldlM_map, List.foldlM_map]
  rfl

theorem exportRun_eq (hvalid : ValidStage s) (hto : isPackageRelative exportTo = true)
    (hes : resolved g s = some es) (t : Tree) : exportRun t g root s exportTo false =
      (stageRun t g root s {}).bind fun t => placeAll t root (between s.root exportTo es) := by
  have hroot : s.root ≠ [] := by
    intro h
    have := hvalid.root
    rw [h] at this
    exact absurd this (by decide)
  have hfiles (t : Tree) : s.dsts.foldlM (exportFile root s.root exportTo) t =
      placeAll t root (between s.root exportTo es) :=
    exportFiles_eq hvalid.lengths hes s.root exportTo t
  simp only [exportRun, if_pos hto, if_pos hroot, hfiles]
  rfl

/-- The staged files of a stage whose copies are apart are there. -/
theorem staged_sources {t t' : Tree} (hstaged : Staged g root s s.root es t t')
    (hsrc : ∀ e ∈ es, t.content (placeAt root e.1) ≠ none) (hapart : StageApart g root s s.root es) :
    ∀ pair ∈ between s.root exportTo es, t'.content (placeAt root pair.1) ≠ none := by
  intro pair hpair
  obtain ⟨e, he, rfl⟩ := mem_between.mp hpair
  exact hstaged.files hsrc (mem_stagePaths.mpr (.inl ⟨_, mem_below.mpr ⟨e, he, rfl⟩, .inr rfl⟩))
    (hapart.tmp _ (mem_moves_below.mpr ⟨e, he, rfl⟩)).2

/-- The layout of an export that has succeeded could be laid. -/
theorem layable_of_export {t u t' : Tree} (hstaged : Staged g root s s.root es t u)
    (hsrc : ∀ e ∈ es, t.content (placeAt root e.1) ≠ none) (hapart : StageApart g root s s.root es)
    (hall : AllPlaced u t' root (between s.root exportTo es)) :
    Layable root (exportPaths g s exportTo es) := by
  have hdirs : ∀ d, DirPlace root (exportPaths g s exportTo es) d → t'.entry d = some .dir := by
    have hstage : ∀ d, DirPlace root (stagePaths g s s.root es) d → t'.entry d = some .dir :=
      fun d hd => hall.dirs d (hstaged.dirs hd)
    rintro d (hd | ⟨rel, hrel, c, hc, hd⟩)
    · exact hstage d (.inl hd)
    · rcases mem_exportPaths.mp hrel with ⟨e, he, rfl | rfl | rfl⟩ | rfl
      · exact hstage d (.inr ⟨_, mem_stagePaths.mpr
          (.inl ⟨_, mem_below.mpr ⟨e, he, rfl⟩, .inl rfl⟩), c, hc, hd⟩)
      · exact hstage d (.inr ⟨_, mem_stagePaths.mpr
          (.inl ⟨_, mem_below.mpr ⟨e, he, rfl⟩, .inr rfl⟩), c, hc, hd⟩)
      · exact Tree.suffix_dir (hall.made _ (mem_between.mpr ⟨e, he, rfl⟩) c hc) hd
      · exact hstage d (.inr ⟨_, mem_stagePaths.mpr (.inr (.inl rfl)), c, hc, hd⟩)
  rintro p ⟨rel, hrel, rfl⟩ hdir
  have hempty := Tree.content_dir (hdirs _ hdir)
  have hstage : ∀ rel ∈ stagePaths g s s.root es, placeAt root rel ≠ tmpPlace g root s →
      t'.content (placeAt root rel) ≠ none :=
    fun rel hrel hne => hall.files _ (.inl (hstaged.files hsrc hrel hne))
  rcases mem_exportPaths.mp hrel with ⟨e, he, rfl | rfl | rfl⟩ | rfl
  · exact hstage _ (mem_stagePaths.mpr (.inl ⟨_, mem_below.mpr ⟨e, he, rfl⟩, .inl rfl⟩))
      (hapart.tmp _ (mem_moves_below.mpr ⟨e, he, rfl⟩)).1 hempty
  · exact hstage _ (mem_stagePaths.mpr (.inl ⟨_, mem_below.mpr ⟨e, he, rfl⟩, .inr rfl⟩))
      (hapart.tmp _ (mem_moves_below.mpr ⟨e, he, rfl⟩)).2 hempty
  · exact hall.files _ (.inr ⟨_, mem_between.mpr ⟨e, he, rfl⟩, rfl⟩) hempty
  · exact hstage _ (mem_stagePaths.mpr (.inr (.inl rfl))) (Ne.symm tmpPlace_ne) hempty

theorem mem_moves_between {a b : Bytes} {m : Place × Place} :
    m ∈ moves root (between a b es) ↔
      ∃ e ∈ es, m = (placeAt root (pathJoin a e.2), placeAt root (pathJoin b e.2)) := by
  simp [moves, between, eq_comm]

open Classical in
/-- What the place of a destination is to hold. -/
noncomputable def wanted (root : Place) (s : Stage) (exportTo : Bytes) (es : List (Bytes × Bytes))
    (t : Tree) (p : Place) : Option Bytes :=
  if h : ∃ e ∈ es, p = placeAt root (pathJoin s.root e.2) ∨ p = placeAt root (pathJoin exportTo e.2) then
    t.content (placeAt root h.choose.1)
  else none

/-- Where copies to one place come from one source, the source decides what a place holds. -/
theorem wanted_eq (hstage : StageApart g root s s.root es)
    (hexport : ExportApart root s exportTo es) (t : Tree) {e : Bytes × Bytes} (he : e ∈ es)
    {p : Place} (hp : p = placeAt root (pathJoin s.root e.2) ∨ p = placeAt root (pathJoin exportTo e.2)) :
    wanted root s exportTo es t p = t.content (placeAt root e.1) := by
  have hex : ∃ e ∈ es, p = placeAt root (pathJoin s.root e.2) ∨ p = placeAt root (pathJoin exportTo e.2) :=
    ⟨e, he, hp⟩
  rw [wanted, dif_pos hex]
  obtain ⟨hmem, hchosen⟩ := hex.choose_spec
  congr 1
  rcases hchosen with hc | hc
  · rcases hp with hp | hp
    · exact hstage.copies.agree _ (mem_moves_below.mpr ⟨_, hmem, rfl⟩) _
        (mem_moves_below.mpr ⟨e, he, rfl⟩) (hc.symm.trans hp)
    · exact (hexport.staged e he _ hmem (hp.symm.trans hc)).symm
  · rcases hp with hp | hp
    · exact hexport.staged _ hmem e he (hc.symm.trans hp)
    · exact hexport.agree _ hmem e he (hc.symm.trans hp)

theorem export_preserved {t u t' : Tree} (hstaged : Staged g root s s.root es t u)
    (hstage : StageApart g root s s.root es)
    (hexport : ExportApart root s exportTo es)
    (hall : AllPlaced u t' root (between s.root exportTo es)) :
    Preserved (moves root (below s.root es) ++ moves root (below exportTo es))
      [tmpPlace g root s, manifestPlace g root s] t t' := by
  have hkept := hstaged.preserved hstage
  have hfirst : ∀ e ∈ es, u.content (placeAt root (pathJoin s.root e.2)) = t.content (placeAt root e.1) :=
    fun e he => hkept.copied _ (mem_moves_below.mpr ⟨e, he, rfl⟩)
  have hlabel : ∀ p, u.content p = wanted root s exportTo es t p ∨
      p ∈ (moves root (between s.root exportTo es)).map Prod.snd →
      t'.content p = wanted root s exportTo es t p := by
    intro p hp
    rw [hall.content]
    refine copies_labelled ?_ ?_ ?_ hp
    · intro m hm
      obtain ⟨e, he, rfl⟩ := mem_moves_between.mp hm
      exact hexport.proper e he
    · intro m hm
      obtain ⟨e, he, rfl⟩ := mem_moves_between.mp hm
      rw [wanted_eq hstage hexport t he (.inl rfl), wanted_eq hstage hexport t he (.inr rfl)]
    · intro m hm
      obtain ⟨e, he, rfl⟩ := mem_moves_between.mp hm
      rw [wanted_eq hstage hexport t he (.inl rfl), hfirst e he]
  constructor
  · intro m hm
    rcases List.mem_append.mp hm with hm | hm
    · obtain ⟨e, he, rfl⟩ := mem_moves_below.mp hm
      have hwant := wanted_eq hstage hexport t he (.inl rfl)
      rw [← hwant]
      exact hlabel _ (.inl (by rw [hwant, hfirst e he]))
    · obtain ⟨e, he, rfl⟩ := mem_moves_below.mp hm
      rw [← wanted_eq hstage hexport t he (.inr rfl)]
      exact hlabel _ (.inr (List.mem_map.mpr
        ⟨(placeAt root (pathJoin s.root e.2), _), mem_moves_between.mpr ⟨e, he, rfl⟩, rfl⟩))
  · intro p hp hown
    rw [List.map_append, List.mem_append, not_or] at hp
    rw [hall.content, copies_frame, hkept.frame p hp.1 hown]
    intro hmem
    obtain ⟨m, hm, rfl⟩ := List.mem_map.mp hmem
    obtain ⟨e, he, rfl⟩ := mem_moves_between.mp hm
    exact hp.2 (List.mem_map.mpr ⟨(placeAt root e.1, _), mem_moves_below.mpr ⟨e, he, rfl⟩, rfl⟩)

/-- The files of a stage that has run on marked files. -/
theorem staged_within {hsources : Layable root (es.map Prod.fst)} {x : Place} {u : Tree}
    (hstaged : Staged g root s s.root es (markedTree root es hsources x) u) :
    Within (FilePlace root (exportPaths g s exportTo es))
      (DirPlace root (exportPaths g s exportTo es)) u := by
  have hsub : es.map Prod.fst ⊆ exportPaths g s exportTo es := by
    intro rel hrel
    obtain ⟨e, he, rfl⟩ := List.mem_map.mp hrel
    exact mem_exportPaths.mpr (.inl ⟨e, he, .inl rfl⟩)
  have hstart : Within _ _ (markedTree root es hsources x) := layTree_within hsub
  obtain ⟨text, -, hcontent⟩ := hstaged.content_of
  constructor
  · intro p hp
    rw [hcontent] at hp
    by_cases htmp : p = tmpPlace g root s
    · simp [htmp] at hp
    · rw [Function.update_of_ne htmp] at hp
      by_cases hmanifest : p = manifestPlace g root s
      · exact ⟨_, mem_exportPaths.mpr (.inr rfl), hmanifest⟩
      · rw [Function.update_of_ne hmanifest] at hp
        by_cases hmem : p ∈ (moves root (below s.root es)).map Prod.snd
        · obtain ⟨m, hm, rfl⟩ := List.mem_map.mp hmem
          obtain ⟨e, he, rfl⟩ := mem_moves_below.mp hm
          exact ⟨_, mem_exportPaths.mpr (.inl ⟨e, he, .inr (.inl rfl)⟩), rfl⟩
        · rw [copies_frame hmem, Function.update_of_ne htmp] at hp
          exact hstart.files p hp
  · intro d hd
    rcases hstaged.new hd with hd | hd | ⟨pair, hpair, hd⟩
    · exact hstart.dirs d hd
    · exact dirPlace_through (mem_exportPaths.mpr (.inr rfl)) hd
    · obtain ⟨e, he, rfl⟩ := mem_below.mp hpair
      exact dirPlace_through (mem_exportPaths.mpr (.inl ⟨e, he, .inr (.inl rfl)⟩)) hd

/-- An export that preserves files whatever they hold keeps its copies apart. -/
theorem exportApart_of_preserves (hvalid : ValidStage s)
    (hto : isPackageRelative exportTo = true) (hes : resolved g s = some es)
    (hlay : Layable root (stagePaths g s s.root es)) (hstage : StageApart g root s s.root es)
    (hlay' : Layable root (exportPaths g s exportTo es))
    (h : ExportPreserves g root s exportTo) : ExportApart root s exportTo es := by
  have hsources : Layable root (es.map Prod.fst) := hlay.mono fun rel hrel =>
    List.mem_append_left _ (List.mem_append_left _ hrel)
  -- what an export of marked files leaves
  have hrun : ∀ x, ∃ f : Place → Option Bytes, ∀ e ∈ es,
      copies blank f (moves root (between s.root exportTo es)) (placeAt root (pathJoin s.root e.2)) =
        marked (some markOne) (some markZero) x (placeAt root e.1) ∧
      copies blank f (moves root (between s.root exportTo es)) (placeAt root (pathJoin exportTo e.2)) =
        marked (some markOne) (some markZero) x (placeAt root e.1) := by
    intro x
    have hrun : ({} : StageOptions).dryRun = false := rfl
    obtain ⟨u, hu⟩ := markedTree_stage (h := hsources) (x := x) hrun (.inl rfl) hes hlay
    have hsrc : ∀ e ∈ es, (markedTree root es hsources x).content (placeAt root e.1) ≠ none := by
      intro e he
      rw [markedTree_source he]
      unfold marked
      split <;> simp
    have hstaged : Staged g root s s.root es _ u := staged_of_stageRun rfl hes hsrc hu
    have hsrcs : ∀ pair ∈ between s.root exportTo es, u.content (placeAt root pair.1) ≠ none :=
      staged_sources hstaged hsrc hstage
    obtain ⟨t', ht', -⟩ := placeAll_isSome (separate_of_layable hlay') (staged_within hstaged) hsrcs
      (fun pair hpair d hd => by
        obtain ⟨e, he, rfl⟩ := mem_between.mp hpair
        exact hstaged.dirs (dirPlace_through (mem_stagePaths.mpr
          (.inl ⟨_, mem_below.mpr ⟨e, he, rfl⟩, .inr rfl⟩)) hd))
      (fun pair hpair => by
        obtain ⟨e, he, rfl⟩ := mem_between.mp hpair
        exact ⟨_, mem_exportPaths.mpr (.inl ⟨e, he, .inr (.inr rfl)⟩), rfl⟩)
      (fun pair hpair d hd => by
        obtain ⟨e, he, rfl⟩ := mem_between.mp hpair
        exact dirPlace_through (mem_exportPaths.mpr (.inl ⟨e, he, .inr (.inr rfl)⟩)) hd)
    have hwhole : exportRun (markedTree root es hsources x) g root s exportTo false = some t' := by
      rw [exportRun_eq hvalid hto hes, hu, Option.bind_some, ht']
    have hkept := h _ _ es hes hsrc hwhole
    refine ⟨u.content, ?_⟩
    intro e he
    rw [← (placeAll_placed hsrcs ht').content, ← markedTree_source (h := hsources) he]
    exact ⟨hkept.copied (_, _) (List.mem_append_left _ (mem_moves_below.mpr ⟨e, he, rfl⟩)),
      hkept.copied (_, _) (List.mem_append_right _ (mem_moves_below.mpr ⟨e, he, rfl⟩))⟩
  have hzero : some markOne ≠ some markZero := by decide
  constructor
  · -- one file exported onto itself means that all of them are
    intro e he heq
    have hdots := no_dotdot hvalid.root (hvalid.dsts e.2 (by
      rw [← resolved_dsts hvalid.lengths hes]
      exact List.mem_map_of_mem he))
      (not_suffix_of_layable hlay' (mem_exportPaths.mpr (.inl ⟨e, he, .inr (.inl rfl)⟩)))
    rw [placeAt_pathJoin hvalid.root, placeAt_pathJoin hto] at heq
    have hsame := leadsTo_injective hdots heq
    have hself : ∀ m ∈ moves root (between s.root exportTo es), m.1 = m.2 := by
      intro m hm
      obtain ⟨e', he', rfl⟩ := mem_moves_between.mp hm
      dsimp only
      rw [placeAt_pathJoin hvalid.root, placeAt_pathJoin hto, hsame]
    obtain ⟨f, hleft⟩ := hrun root
    have hend := (hleft e he).2
    rw [copies_self hself (.inr (List.mem_map_of_mem (mem_moves_between.mpr ⟨e, he, rfl⟩)))] at hend
    unfold marked at hend
    split at hend <;> exact absurd hend (by decide)
  · intro e he e' he' heq
    refine eq_of_marked hzero fun x => ?_
    obtain ⟨f, hleft⟩ := hrun x
    rw [← (hleft e he).2, heq, (hleft e' he').1]
  · intro e he e' he' heq
    refine eq_of_marked hzero fun x => ?_
    obtain ⟨f, hleft⟩ := hrun x
    rw [← (hleft e he).2, heq, (hleft e' he').2]

/-! ## The condition -/

/-- Staging a validated stage, staging it below an accepted root and exporting it to an accepted
destination keep contents exactly when the copies of each are apart, as far as its paths can be
files at the same time. -/
theorem staging_preserves_iff {visible : Visible} {g : Graph} {s : Stage} {exportTo : Bytes}
    (root : Place) (options : StageOptions) (hvalid : validateStage visible g s = .ok ())
    (hdry : options.dryRun = false)
    (hroot : options.root = [] ∨ isPackageRelative options.root = true)
    (hto : isPackageRelative exportTo = true) :
    (StagePreserves g root s options ∧ StagePreserves g root s {} ∧
        ExportPreserves g root s exportTo) ↔
      ∀ es, resolved g s = some es →
        (Layable root (stagePaths g s (rootRel s options) es) →
          StageApart g root s (rootRel s options) es) ∧
        (Layable root (stagePaths g s s.root es) → StageApart g root s s.root es ∧
          (Layable root (exportPaths g s exportTo es) → ExportApart root s exportTo es)) := by
  have hvalid' := validStage_of_validate hvalid
  have hdefault : rootRel s {} = s.root := rfl
  have hrun : ({} : StageOptions).dryRun = false := rfl
  rw [stagePreserves_iff hdry hroot, stagePreserves_iff hrun (.inl rfl), hdefault]
  constructor
  · rintro ⟨hover, hstage, hexport⟩ es hes
    refine ⟨hover es hes, fun hlay => ⟨hstage es hes hlay, fun hlay' => ?_⟩⟩
    exact exportApart_of_preserves hvalid' hto hes hlay (hstage es hes hlay) hlay' hexport
  · intro h
    refine ⟨fun es hes => (h es hes).1, fun es hes hlay => ((h es hes).2 hlay).1, ?_⟩
    intro t t' es hes hsrc hrun
    rw [exportRun_eq hvalid' hto hes] at hrun
    obtain ⟨u, hu, hplace⟩ := Option.bind_eq_some_iff.mp hrun
    have hstaged : Staged g root s s.root es t u := staged_of_stageRun rfl hes hsrc hu
    obtain ⟨hstage, hexport⟩ := (h es hes).2 (hstaged.layable hsrc)
    have hall := placeAll_placed (staged_sources hstaged hsrc hstage) hplace
    exact export_preserved hstaged hstage
      (hexport (layable_of_export hstaged hsrc hstage hall)) hall

section Site

/-- One page, staged below `out`. -/
def siteStage : Stage where
  label := ascii "//:site"
  root := ascii "out"
  srcs := [ascii "src/page"]
  dsts := [ascii "page"]

def siteGraph : Graph where
  host := ascii "linux"
  platform := ascii "linux"
  buildDir := ascii "build"
  targets := []
  genrules := []
  stages := [siteStage]
  toolsets := []
  languages := []
  labels_nodup := Graph.no_labels_nodup
  objectlib_objects := Graph.no_objectlib_objects
  objects_objectlib := Graph.no_objects_objectlib

/-- A tree with nothing in it. -/
def emptyTree : Tree where
  entry p := if p = [] then some .dir else none
  root_dir := rfl
  parent_dir := by simp

/-- The page under its source directory. -/
def siteTree : Option Tree :=
  (emptyTree.makeDirs [] [ascii "src"]).bind fun t => t.write [ascii "page", ascii "src"] (ascii "hi")

theorem staging_preserves_site :
    validateStage (fun _ _ => true) siteGraph siteStage = .ok () ∧
    ((StagePreserves siteGraph [] siteStage { root := ascii "src" } ∧
        StagePreserves siteGraph [] siteStage {} ∧
        ExportPreserves siteGraph [] siteStage (ascii "dist")) ↔
      ∀ es, resolved siteGraph siteStage = some es →
        (Layable [] (stagePaths siteGraph siteStage (ascii "src") es) →
          StageApart siteGraph [] siteStage (ascii "src") es) ∧
        (Layable [] (stagePaths siteGraph siteStage (ascii "out") es) →
          StageApart siteGraph [] siteStage (ascii "out") es ∧
          (Layable [] (exportPaths siteGraph siteStage (ascii "dist") es) →
            ExportApart [] siteStage (ascii "dist") es))) :=
  have hvalid : validateStage (fun _ _ => true) siteGraph siteStage = .ok () := by rfl
  ⟨hvalid, staging_preserves_iff [] { root := ascii "src" } hvalid rfl (.inr (by decide))
    (by decide)⟩

/-- Staged below the directory it comes from, the page is emptied by its own copy. -/
theorem staged_over_itself :
    validateStage (fun _ _ => true) siteGraph siteStage = .ok () ∧
    isPackageRelative (ascii "src") = true ∧
    ¬ StagePreserves siteGraph [] siteStage { root := ascii "src" } := by
  refine ⟨by rfl, by decide, ?_⟩
  intro h
  have hpage : siteTree.bind (fun t => t.content [ascii "page", ascii "src"]) =
      some (ascii "hi") := by decide
  have hrun : (siteTree.bind fun t =>
      stageRun t siteGraph [] siteStage { root := ascii "src" }).bind
        (fun t => t.content [ascii "page", ascii "src"]) = some [] := by decide
  obtain ⟨t, ht, hpage⟩ := Option.bind_eq_some_iff.mp hpage
  obtain ⟨t', ht', hempty⟩ := Option.bind_eq_some_iff.mp hrun
  rw [ht, Option.bind_some] at ht'
  have hes : resolved siteGraph siteStage = some [(ascii "src/page", ascii "page")] := by
    decide
  have hat : placeAt [] (ascii "src/page") = [ascii "page", ascii "src"] := by decide
  have hkept := (h t t' _ hes (by simp [hat, hpage]) ht').copied
    (placeAt [] (ascii "src/page"), placeAt [] (ascii "src/page")) (by decide)
  dsimp only at hkept
  rw [hat, hempty, hpage] at hkept
  exact absurd hkept (by decide)

end Site

end QStar.Staging
