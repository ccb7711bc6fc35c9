import QStar.Staging.Runs

/-!
# When staging and exporting keep contents

Which layouts give every destination what its source held when the operation
began, whatever the files hold: a layout is judged by the places its paths lead
to. An export is a second run of copies, from what the stage in it has put down.
-/
namespace QStar.Staging

open QStar.Lib.CStrings QStar.Lib.FileTrees
open QStar.Lib.Copies
open QStar.Base QStar.BuildGraph

variable {g : Graph} {root : Place} {s : Stage}

/-! ## Layouts -/

def FilePlace (root : Place) (paths : List Bytes) (p : Place) : Prop :=
  ∃ rel ∈ paths, p = placeAt root rel

/-- The directories some path goes through, and those above them and the package root. -/
def DirPlace (root : Place) (paths : List Bytes) (d : Place) : Prop :=
  d <:+ root ∨ ∃ rel ∈ paths, ∃ e ∈ through root rel, d <:+ e

/-- All the paths can name files at the same time. -/
def Layable (root : Place) (paths : List Bytes) : Prop :=
  ∀ p, FilePlace root paths p → ¬ DirPlace root paths p

/-- The paths of a stage: sources, destinations and the manifest's two. -/
def stagePaths (g : Graph) (s : Stage) (dir : Bytes) (es : List (Bytes × Bytes)) : List Bytes :=
  es.map Prod.fst ++ (below dir es).map Prod.snd ++ [manifestPath g s, manifestTmp g s]

/-- No copy reads what the stage has written before it or is about to write, copies to one
place read one place, and no copy touches the manifest's files or reads the temporary one. -/
structure StageApart (g : Graph) (root : Place) (s : Stage) (dir : Bytes)
    (es : List (Bytes × Bytes)) : Prop where
  copies : Apart (moves root (below dir es))
  tmp : ∀ m ∈ moves root (below dir es), m.1 ≠ tmpPlace g root s ∧ m.2 ≠ tmpPlace g root s
  manifest : ∀ m ∈ moves root (below dir es), m.2 ≠ manifestPlace g root s

/-- Every destination holds what its source held, and other files are as they were. -/
structure Preserved (asked : List (Place × Place)) (own : List Place) (before after : Tree) :
    Prop where
  copied : ∀ m ∈ asked, after.content m.2 = before.content m.1
  frame : ∀ p, p ∉ asked.map Prod.snd → p ∉ own → after.content p = before.content p

/-- A stage that succeeds on files that are there preserves them. -/
def StagePreserves (g : Graph) (root : Place) (s : Stage) (options : StageOptions) : Prop :=
  ∀ t t' es, resolved g s = some es → (∀ e ∈ es, t.content (placeAt root e.1) ≠ none) →
    stageRun t g root s options = some t' →
    Preserved (moves root (below (rootRel s options) es))
      [tmpPlace g root s, manifestPlace g root s] t t'

theorem separate_of_layable {paths : List Bytes} (h : Layable root paths) :
    Separate (FilePlace root paths) (DirPlace root paths) where
  apart := h
  closed := by
    rintro d q (hd | ⟨rel, hrel, e, he, hd⟩) hq
    · exact .inl (hq.trans hd)
    · exact .inr ⟨rel, hrel, e, he, hq.trans hd⟩

theorem dirPlace_through {paths : List Bytes} {rel : Bytes} (hrel : rel ∈ paths) {d : Place}
    (hd : d ∈ through root rel) : DirPlace root paths d :=
  .inr ⟨rel, hrel, d, hd, List.suffix_rfl⟩

theorem not_suffix_of_layable {paths : List Bytes} (h : Layable root paths) {rel : Bytes}
    (hrel : rel ∈ paths) : ∀ d ∈ through root rel, ¬ placeAt root rel <:+ d :=
  fun d hd hsuffix => h _ ⟨rel, hrel, rfl⟩ (.inr ⟨rel, hrel, d, hd, hsuffix⟩)

theorem mem_moves_below {dir : Bytes} {es : List (Bytes × Bytes)} {m : Place × Place} :
    m ∈ moves root (below dir es) ↔
      ∃ e ∈ es, m = (placeAt root e.1, placeAt root (pathJoin dir e.2)) := by
  simp [moves, below, eq_comm]

/-- The sources are still files once the manifest is open. -/
theorem Begun.sources {t t' : Tree} (h : Begun g root s t t') {p : Place}
    (hp : t.content p ≠ none) : t'.content p ≠ none := by
  rw [h.content]
  by_cases heq : p = tmpPlace g root s
  · simp [heq, blank]
  · rwa [Function.update_of_ne heq]

theorem mem_below {dir : Bytes} {es : List (Bytes × Bytes)} {pair : Bytes × Bytes} :
    pair ∈ below dir es ↔ ∃ e ∈ es, pair = (e.1, pathJoin dir e.2) := by
  simp [below, eq_comm]

theorem mem_stagePaths {dir : Bytes} {es : List (Bytes × Bytes)} {rel : Bytes} :
    rel ∈ stagePaths g s dir es ↔ (∃ pair ∈ below dir es, rel = pair.1 ∨ rel = pair.2) ∨
      rel = manifestPath g s ∨ rel = manifestTmp g s := by
  simp only [stagePaths, below, List.mem_append, List.mem_map, List.mem_cons, List.not_mem_nil,
    or_false]
  constructor
  · rintro ((⟨e, he, rfl⟩ | ⟨_, ⟨e, he, rfl⟩, rfl⟩) | h)
    · exact .inl ⟨_, ⟨e, he, rfl⟩, .inl rfl⟩
    · exact .inl ⟨_, ⟨e, he, rfl⟩, .inr rfl⟩
    · exact .inr h
  · rintro (⟨_, ⟨e, he, rfl⟩, rfl | rfl⟩ | h)
    · exact .inl (.inl ⟨e, he, rfl⟩)
    · exact .inl (.inr ⟨_, ⟨e, he, rfl⟩, rfl⟩)
    · exact .inr h

theorem below_sources {t : Tree} (dir : Bytes) {es : List (Bytes × Bytes)}
    (h : ∀ e ∈ es, t.content (placeAt root e.1) ≠ none) :
    ∀ pair ∈ below dir es, t.content (placeAt root pair.1) ≠ none := by
  intro pair hpair
  obtain ⟨e, he, rfl⟩ := mem_below.mp hpair
  exact h e he

/-- A stage that succeeds on files that are there, taken apart. -/
def Staged (g : Graph) (root : Place) (s : Stage) (dir : Bytes) (es : List (Bytes × Bytes))
    (t t' : Tree) : Prop :=
  ∃ begun copied text, Begun g root s t begun ∧ AllPlaced begun copied root (below dir es) ∧
    Ended g root s text copied t' ∧ text.head? = some 123

theorem staged_of_stageRun {t t' : Tree} {options : StageOptions} (hdry : options.dryRun = false)
    {es : List (Bytes × Bytes)} (hes : resolved g s = some es)
    (hsrc : ∀ e ∈ es, t.content (placeAt root e.1) ≠ none)
    (h : stageRun t g root s options = some t') :
    Staged g root s (rootRel s options) es t t' := by
  obtain ⟨es', begun, copied, text, hes', hbegun, hall, hended, htext⟩ := stageRun_eq_some hdry h
  rw [hes] at hes'
  obtain rfl := Option.some.inj hes'
  have hbegunsrc := below_sources (rootRel s options)
    fun e he => hbegun.sources (hsrc e he)
  exact ⟨begun, copied, text, hbegun, placeAll_placed hbegunsrc hall, hended, htext⟩

/-- Every directory of the layout is there once the copies are made. -/
theorem dirs_of_placed {t begun copied : Tree} {dir : Bytes} {es : List (Bytes × Bytes)}
    (hbegun : Begun g root s t begun) (hall : AllPlaced begun copied root (below dir es))
    {d : Place} (hd : DirPlace root (stagePaths g s dir es) d) : copied.entry d = some .dir := by
  have hmanifest : ∀ d ∈ through root (manifestPath g s), copied.entry d = some .dir :=
    fun d hd => hall.dirs d (hbegun.made d hd)
  rcases hd with hd | ⟨rel, hrel, e, he, hd⟩
  · exact Tree.suffix_dir (hmanifest _ (root_mem_through root _)) hd
  · refine Tree.suffix_dir ?_ hd
    rcases mem_stagePaths.mp hrel with ⟨pair, hpair, rfl | rfl⟩ | rfl | rfl
    · exact hall.reached pair hpair e he
    · exact hall.made pair hpair e he
    · exact hmanifest e he
    · exact hmanifest e (through_tmp (g := g) ▸ he)

theorem Staged.dirs {t t' : Tree} {dir : Bytes} {es : List (Bytes × Bytes)}
    (h : Staged g root s dir es t t') {d : Place} (hd : DirPlace root (stagePaths g s dir es) d) :
    t'.entry d = some .dir := by
  obtain ⟨begun, copied, text, hbegun, hall, hended, -⟩ := h
  exact (hended.dirs d).mpr (dirs_of_placed hbegun hall hd)

/-- The layout of a stage that has succeeded could be laid. -/
theorem Staged.layable {t t' : Tree} {dir : Bytes} {es : List (Bytes × Bytes)}
    (h : Staged g root s dir es t t') (hsrc : ∀ e ∈ es, t.content (placeAt root e.1) ≠ none) :
    Layable root (stagePaths g s dir es) := by
  obtain ⟨begun, copied, text, hbegun, hall, hended, -⟩ := h
  rintro p ⟨rel, hrel, rfl⟩ hdir
  have hcopied := dirs_of_placed hbegun hall hdir
  have hempty := Tree.content_dir hcopied
  rcases mem_stagePaths.mp hrel with ⟨pair, hpair, rfl | rfl⟩ | rfl | rfl
  · exact hall.files _ (.inl (below_sources dir (fun e he => hbegun.sources (hsrc e he)) pair hpair))
      hempty
  · exact hall.files _ (.inr ⟨pair, hpair, rfl⟩) hempty
  · have hend := Tree.content_dir ((hended.dirs _).mpr hcopied)
    change t'.content (manifestPlace g root s) = none at hend
    simp [hended.content, Function.update_of_ne (Ne.symm tmpPlace_ne)] at hend
  · refine hall.files _ (.inl ?_) hempty
    change begun.content (tmpPlace g root s) ≠ none
    simp [hbegun.content, blank]

/-- The files of a stage are there when it has run, but for the manifest's temporary one. -/
theorem Staged.files {t t' : Tree} {dir : Bytes} {es : List (Bytes × Bytes)}
    (h : Staged g root s dir es t t') (hsrc : ∀ e ∈ es, t.content (placeAt root e.1) ≠ none)
    {rel : Bytes} (hrel : rel ∈ stagePaths g s dir es) (hne : placeAt root rel ≠ tmpPlace g root s) :
    t'.content (placeAt root rel) ≠ none := by
  obtain ⟨begun, copied, text, hbegun, hall, hended, -⟩ := h
  rw [hended.content, Function.update_of_ne hne]
  by_cases hmanifest : placeAt root rel = manifestPlace g root s
  · simp [hmanifest]
  · rw [Function.update_of_ne hmanifest]
    rcases mem_stagePaths.mp hrel with ⟨pair, hpair, rfl | rfl⟩ | rfl | rfl
    · exact hall.files _
        (.inl (below_sources dir (fun e he => hbegun.sources (hsrc e he)) pair hpair))
    · exact hall.files _ (.inr ⟨pair, hpair, rfl⟩)
    · exact absurd rfl hmanifest
    · exact absurd rfl hne

/-- Nothing but the layout's directories is made. -/
theorem Staged.new {t t' : Tree} {dir : Bytes} {es : List (Bytes × Bytes)}
    (h : Staged g root s dir es t t') {d : Place} (hd : t'.entry d = some .dir) :
    t.entry d = some .dir ∨ d ∈ through root (manifestPath g s) ∨
      ∃ pair ∈ below dir es, d ∈ through root pair.2 := by
  obtain ⟨begun, copied, text, hbegun, hall, hended, -⟩ := h
  rcases hall.new d ((hended.dirs d).mp hd) with hd | hd
  · rcases hbegun.new d hd with hd | hd
    · exact .inl hd
    · exact .inr (.inl hd)
  · exact .inr (.inr hd)

/-- What a stage leaves is what its copies leave, but for the manifest's files. -/
theorem Staged.content_of {t t' : Tree} {dir : Bytes} {es : List (Bytes × Bytes)}
    (h : Staged g root s dir es t t') : ∃ text, text.head? = some 123 ∧ t'.content =
      Function.update (Function.update (copies blank
        (Function.update t.content (tmpPlace g root s) blank) (moves root (below dir es)))
        (manifestPlace g root s) (some text)) (tmpPlace g root s) none := by
  obtain ⟨begun, copied, text, hbegun, hall, hended, htext⟩ := h
  refine ⟨text, htext, ?_⟩
  rw [hended.content, hall.content, hbegun.content]

theorem Staged.preserved {t t' : Tree} {dir : Bytes} {es : List (Bytes × Bytes)}
    (h : Staged g root s dir es t t') (hapart : StageApart g root s dir es) :
    Preserved (moves root (below dir es)) [tmpPlace g root s, manifestPlace g root s] t t' := by
  obtain ⟨text, -, hcontent⟩ := h.content_of
  constructor
  · intro m hm
    rw [hcontent, Function.update_of_ne (hapart.tmp m hm).2,
      Function.update_of_ne (hapart.manifest m hm), copies_of_apart hapart.copies m hm,
      Function.update_of_ne (hapart.tmp m hm).1]
  · intro p hp hown
    simp only [List.mem_cons, List.not_mem_nil, or_false, not_or] at hown
    rw [hcontent, Function.update_of_ne hown.1, Function.update_of_ne hown.2, copies_frame hp,
      Function.update_of_ne hown.1]

/-! ## Layouts that can be laid -/

open Classical in
/-- The tree that holds the given files and the directories of their paths. -/
noncomputable def layTree (root : Place) (paths : List Bytes) (h : Layable root paths)
    (f : Place → Bytes) : Tree where
  entry p := if FilePlace root paths p then some (.file (f p))
    else if DirPlace root paths p then some .dir else none
  root_dir := by
    have hdir : DirPlace root paths [] := .inl List.nil_suffix
    have hno : ¬ FilePlace root paths [] := fun hf => h [] hf hdir
    simp [hno, hdir]
  parent_dir := by
    intro name q hentry
    have hq : DirPlace root paths q := by
      by_cases hfile : FilePlace root paths (name :: q)
      · obtain ⟨rel, hrel, heq⟩ := hfile
        obtain ⟨n, hn⟩ := placeAt_eq_cons (not_suffix_of_layable h hrel)
        rw [hn] at heq
        obtain ⟨-, rfl⟩ := List.cons.inj heq
        apply dirPlace_through hrel
        rw [through, passes_dropLast root (names_ne_nil rel)]
        simp
      · have hdir : DirPlace root paths (name :: q) := by
          by_contra hno
          simp [hfile, hno] at hentry
        exact (separate_of_layable h).closed _ _ hdir (List.suffix_cons name q)
    have hno : ¬ FilePlace root paths q := fun hf => h q hf hq
    simp [hno, hq]

theorem layTree_file {paths : List Bytes} {h : Layable root paths} {f : Place → Bytes} {p : Place}
    (hp : FilePlace root paths p) : (layTree root paths h f).content p = some (f p) := by
  simp [Tree.content_eq_some, layTree, hp]

theorem layTree_dir {paths : List Bytes} {h : Layable root paths} {f : Place → Bytes} {p : Place} :
    (layTree root paths h f).entry p = some .dir ↔ DirPlace root paths p := by
  by_cases hp : FilePlace root paths p
  · simp [layTree, hp, h p hp]
  · by_cases hd : DirPlace root paths p <;> simp [layTree, hp, hd]

theorem layTree_none {paths : List Bytes} {h : Layable root paths} {f : Place → Bytes} {p : Place}
    (hp : ¬ FilePlace root paths p) : (layTree root paths h f).content p = none := by
  by_cases hd : DirPlace root paths p <;> simp [Tree.content, layTree, hp, hd]

theorem FilePlace.mono {paths more : List Bytes} (hsub : paths ⊆ more) {p : Place}
    (h : FilePlace root paths p) : FilePlace root more p := by
  obtain ⟨rel, hrel, rfl⟩ := h
  exact ⟨rel, hsub hrel, rfl⟩

theorem DirPlace.mono {paths more : List Bytes} (hsub : paths ⊆ more) {p : Place}
    (h : DirPlace root paths p) : DirPlace root more p := by
  rcases h with h | ⟨rel, hrel, h⟩
  · exact .inl h
  · exact .inr ⟨rel, hsub hrel, h⟩

theorem Layable.mono {paths more : List Bytes} (hsub : paths ⊆ more) (h : Layable root more) :
    Layable root paths :=
  fun p hp hd => h p (hp.mono hsub) (hd.mono hsub)

theorem layTree_within {paths more : List Bytes} {h : Layable root paths} {f : Place → Bytes}
    (hsub : paths ⊆ more) :
    Within (FilePlace root more) (DirPlace root more) (layTree root paths h f) where
  files p hp := by
    by_contra hno
    exact hp (layTree_none fun hf => hno (hf.mono hsub))
  dirs d hd := (layTree_dir.mp hd).mono hsub

/-- A stage whose layout can be laid goes through where its sources are files and nothing is in
the way. -/
theorem stageRun_isSome {t : Tree} {options : StageOptions} (hdry : options.dryRun = false)
    (hroot : options.root = [] ∨ isPackageRelative options.root = true)
    {es : List (Bytes × Bytes)} (hes : resolved g s = some es)
    (hlay : Layable root (stagePaths g s (rootRel s options) es))
    (ht : Within (FilePlace root (stagePaths g s (rootRel s options) es))
      (DirPlace root (stagePaths g s (rootRel s options) es)) t)
    (hdir : t.entry root = some .dir) (hsrc : ∀ e ∈ es, t.content (placeAt root e.1) ≠ none)
    (hreach : ∀ e ∈ es, ∀ d ∈ through root e.1, t.entry d = some .dir) :
    ∃ t', stageRun t g root s options = some t' := by
  have hsep := separate_of_layable hlay
  have hin : ∀ rel ∈ stagePaths g s (rootRel s options) es,
      FilePlace root (stagePaths g s (rootRel s options) es) (placeAt root rel) :=
    fun rel hrel => ⟨rel, hrel, rfl⟩
  have hmanifest : manifestPath g s ∈ stagePaths g s (rootRel s options) es :=
    mem_stagePaths.mpr (.inr (.inl rfl))
  obtain ⟨begun, hrun, hwithin⟩ := manifestBegin_isSome hsep ht hdir
    (hin (manifestTmp g s) (mem_stagePaths.mpr (.inr (.inr rfl))))
    fun d hd => dirPlace_through hmanifest hd
  have hbegun := manifestBegin_begun hrun
  have hsrcs := below_sources (rootRel s options) fun e he => hbegun.sources (hsrc e he)
  obtain ⟨copied, hplace, hcopied⟩ := placeAll_isSome hsep hwithin hsrcs
    (fun pair hpair d hd => by
      obtain ⟨e, he, rfl⟩ := mem_below.mp hpair
      exact hbegun.dirs d (hreach e he d hd))
    (fun pair hpair => hin _ (mem_stagePaths.mpr (.inl ⟨pair, hpair, .inr rfl⟩)))
    (fun pair hpair d hd => dirPlace_through (mem_stagePaths.mpr (.inl ⟨pair, hpair, .inr rfl⟩)) hd)
  have hall := placeAll_placed hsrcs hplace
  obtain ⟨p, hp, rfl⟩ := stageFiles_isSome (p := ⟨begun, manifestHead s (rootRel s options) false,
    true⟩) hes hplace
  obtain ⟨t', ht'⟩ := manifestEnd_isSome (g := g) (s := s) hsep hcopied
    (fun d hd => hall.dirs d (hbegun.made d hd))
    (hall.files _ (.inl (by simp [hbegun.content, blank]))) (hin _ hmanifest)
    (p.text ++ manifestTail)
  refine ⟨t', ?_⟩
  have haccepted : ¬ (options.root ≠ [] ∧ !isPackageRelative options.root) := by
    rcases hroot with h | h <;> simp [h]
  rw [stageRun, if_neg haccepted, hrun, Option.bind_some, hdry, hp, Option.bind_some]
  exact ht'

/-! ## Marked files -/

/-- The contents that tell one file from all others. -/
def markOne : Bytes := ascii "1"

def markZero : Bytes := ascii "0"

/-- One file marked among the sources of a layout. -/
noncomputable def markedTree (root : Place) (es : List (Bytes × Bytes))
    (h : Layable root (es.map Prod.fst)) (x : Place) : Tree :=
  layTree root (es.map Prod.fst) h (marked markOne markZero x)

section Marked

variable {es : List (Bytes × Bytes)} {h : Layable root (es.map Prod.fst)} {x : Place}

theorem markedTree_source {e : Bytes × Bytes} (he : e ∈ es) :
    (markedTree root es h x).content (placeAt root e.1) =
      marked (some markOne) (some markZero) x (placeAt root e.1) := by
  rw [markedTree, layTree_file ⟨e.1, List.mem_map_of_mem he, rfl⟩]
  unfold marked
  split <;> rfl

theorem markedTree_one {p : Place} (hp : (markedTree root es h x).content p = some markOne) :
    p = x := by
  by_cases hfile : FilePlace root (es.map Prod.fst) p
  · rw [markedTree, layTree_file hfile, Option.some.injEq] at hp
    by_contra hne
    simp only [marked, if_neg hne] at hp
    exact absurd hp (by decide)
  · rw [markedTree, layTree_none hfile] at hp
    cases hp

/-- A stage on marked files goes through. -/
theorem markedTree_stage {options : StageOptions} (hdry : options.dryRun = false)
    (hroot : options.root = [] ∨ isPackageRelative options.root = true)
    (hes : resolved g s = some es) (hlay : Layable root (stagePaths g s (rootRel s options) es)) :
    ∃ t', stageRun (markedTree root es h x) g root s options = some t' := by
  have hsub : es.map Prod.fst ⊆ stagePaths g s (rootRel s options) es :=
    fun rel hrel => List.mem_append_left _ (List.mem_append_left _ hrel)
  refine stageRun_isSome hdry hroot hes hlay (layTree_within hsub) ?_ ?_ ?_
  · exact layTree_dir.mpr (.inl List.suffix_rfl)
  · intro e he
    rw [markedTree_source he]
    unfold marked
    split <;> simp
  · exact fun e he d hd => layTree_dir.mpr (dirPlace_through (List.mem_map_of_mem he) hd)

end Marked

theorem head_ne_mark {text : Bytes} (h : text.head? = some 123) (x p : Place) :
    some text ≠ marked (some markOne) (some markZero) x p := by
  unfold marked
  split <;>
  · intro heq
    rw [Option.some.inj heq] at h
    exact absurd h (by decide)

/-- A stage that preserves files whatever they hold keeps its copies apart. -/
theorem apart_of_preserves {options : StageOptions} (hdry : options.dryRun = false)
    (hroot : options.root = [] ∨ isPackageRelative options.root = true)
    {es : List (Bytes × Bytes)} (hes : resolved g s = some es)
    (hlay : Layable root (stagePaths g s (rootRel s options) es))
    (h : StagePreserves g root s options) : StageApart g root s (rootRel s options) es := by
  have hsources : Layable root (es.map Prod.fst) := hlay.mono fun rel hrel =>
    List.mem_append_left _ (List.mem_append_left _ hrel)
  -- what a run on marked files leaves
  have hrun : ∀ x, ∃ text : Bytes, text.head? = some 123 ∧
      ∀ m ∈ moves root (below (rootRel s options) es),
        Function.update (Function.update (copies blank
          (Function.update (markedTree root es hsources x).content (tmpPlace g root s) blank)
          (moves root (below (rootRel s options) es))) (manifestPlace g root s) (some text))
          (tmpPlace g root s) none m.2 = marked (some markOne) (some markZero) x m.1 := by
    intro x
    obtain ⟨t', ht'⟩ := markedTree_stage (h := hsources) (x := x) hdry hroot hes hlay
    have hsrc : ∀ e ∈ es, (markedTree root es hsources x).content (placeAt root e.1) ≠ none := by
      intro e he
      rw [markedTree_source he]
      unfold marked
      split <;> simp
    obtain ⟨text, htext, hcontent⟩ := (staged_of_stageRun hdry hes hsrc ht').content_of
    refine ⟨text, htext, ?_⟩
    intro m hm
    obtain ⟨e, he, rfl⟩ := mem_moves_below.mp hm
    rw [← hcontent, (h _ _ es hes hsrc ht').copied _ hm, markedTree_source he]
  have htmp : ∀ m ∈ moves root (below (rootRel s options) es), m.2 ≠ tmpPlace g root s := by
    intro m hm heq
    obtain ⟨text, -, hleft⟩ := hrun root
    have hm' := hleft m hm
    rw [heq, Function.update_self] at hm'
    unfold marked at hm'
    split at hm' <;> cases hm'
  have hmanifest : ∀ m ∈ moves root (below (rootRel s options) es),
      m.2 ≠ manifestPlace g root s := by
    intro m hm heq
    obtain ⟨text, htext, hleft⟩ := hrun root
    have hm' := hleft m hm
    rw [heq, Function.update_of_ne (Ne.symm tmpPlace_ne), Function.update_self] at hm'
    exact head_ne_mark htext _ _ hm'
  have htmpsrc : ∀ m ∈ moves root (below (rootRel s options) es), m.1 ≠ tmpPlace g root s := by
    intro m hm heq
    obtain ⟨text, -, hleft⟩ := hrun (tmpPlace g root s)
    have hm' := hleft m hm
    rw [Function.update_of_ne (htmp m hm), Function.update_of_ne (hmanifest m hm), heq] at hm'
    have hblank : blank ≠ some markOne := by decide
    refine copies_absent (fun _ => True) hblank (by simp) ?_ m.2 trivial
      (hm'.trans (by simp [marked]))
    intro p _ hp
    by_cases hpt : p = tmpPlace g root s
    · rw [hpt, Function.update_self] at hp
      exact absurd hp (by decide)
    · rw [Function.update_of_ne hpt] at hp
      exact hpt (markedTree_one hp)
  have hfaithful : Faithful blank (some markOne) (some markZero)
      (moves root (below (rootRel s options) es)) := by
    intro x m hm
    obtain ⟨text, -, hleft⟩ := hrun x
    rw [← hleft m hm, Function.update_of_ne (htmp m hm), Function.update_of_ne (hmanifest m hm)]
    refine (copies_congr ?_ (.inr (List.mem_map_of_mem hm))).symm
    intro n hn
    rw [Function.update_of_ne (htmpsrc n hn)]
    obtain ⟨e, he, rfl⟩ := mem_moves_below.mp hn
    exact markedTree_source he
  exact ⟨apart_of_faithful (by decide) (by decide) hfaithful,
    fun m hm => ⟨htmpsrc m hm, htmp m hm⟩, hmanifest⟩

/-- A stage keeps contents exactly when its copies are apart, or its paths can never be files at
the same time and it never succeeds. -/
theorem stagePreserves_iff {options : StageOptions} (hdry : options.dryRun = false)
    (hroot : options.root = [] ∨ isPackageRelative options.root = true) :
    StagePreserves g root s options ↔ ∀ es, resolved g s = some es →
      Layable root (stagePaths g s (rootRel s options) es) →
      StageApart g root s (rootRel s options) es := by
  constructor
  · intro h es hes hlay
    exact apart_of_preserves hdry hroot hes hlay h
  · intro h t t' es hes hsrc hrun
    have hstaged := staged_of_stageRun hdry hes hsrc hrun
    exact hstaged.preserved (h es hes (hstaged.layable hsrc))

end QStar.Staging
