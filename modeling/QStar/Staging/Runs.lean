import QStar.Staging.Copying

/-!
# The run of a stage

A stage opens its manifest, makes its copies and renames the manifest. What each
part leaves behind, and when it goes through.
-/
namespace QStar.Staging

open QStar.Lib.CStrings QStar.Lib.FileTrees
open QStar.Base QStar.BuildGraph

/-! ## The run of a stage -/

def resolveEntry (g : Graph) (entry : Bytes × Bytes) : Option (Bytes × Bytes) :=
  match resolveTargetFileToken g entry.1 with
  | .ok src => some (src, entry.2)
  | .error _ => none

/-- The files of a stage, every source resolved to its path. -/
def resolved (g : Graph) (s : Stage) : Option (List (Bytes × Bytes)) :=
  (s.srcs.zip s.dsts).mapM (resolveEntry g)

/-- The copies that put files below a directory. -/
def below (dir : Bytes) (entries : List (Bytes × Bytes)) : List (Bytes × Bytes) :=
  entries.map fun entry => (entry.1, pathJoin dir entry.2)

theorem stageFile_eq (g : Graph) (root : Place) (dir : Bytes) (p : Progress)
    (entry : Bytes × Bytes) : stageFile g root dir false p entry =
      (resolveEntry g entry).bind fun e => (placeFile p.tree root e.1 (pathJoin dir e.2)).map
        fun t => ⟨t, p.text ++ manifestRecord p.first e.1 (pathJoin dir e.2)
          (stageAction p.tree root e.1 (pathJoin dir e.2)) (sourceKind g entry.1 e.1), false⟩ := by
  unfold stageFile resolveEntry
  cases resolveTargetFileToken g entry.1 <;> rfl

theorem stageFiles_eq_some {g : Graph} {root : Place} {dir : Bytes} {p p' : Progress}
    {entries : List (Bytes × Bytes)}
    (h : entries.foldlM (stageFile g root dir false) p = some p') :
    ∃ es, entries.mapM (resolveEntry g) = some es ∧
      placeAll p.tree root (below dir es) = some p'.tree ∧ p.text <+: p'.text := by
  induction entries generalizing p with
  | nil =>
    obtain rfl := Option.some.inj h
    exact ⟨[], rfl, rfl, List.prefix_rfl⟩
  | cons entry rest ih =>
    rw [List.foldlM_cons, stageFile_eq] at h
    obtain ⟨q, hq, hrest⟩ := Option.bind_eq_some_iff.mp h
    obtain ⟨e, he, hq⟩ := Option.bind_eq_some_iff.mp hq
    obtain ⟨u, hu, rfl⟩ := Option.map_eq_some_iff.mp hq
    obtain ⟨es, hes, hall, htext⟩ := ih hrest
    refine ⟨e :: es, ?_, ?_, (List.prefix_append _ _).trans htext⟩
    · simp [List.mapM_cons, he, hes]
    · rw [below, List.map_cons, placeAll_cons]
      dsimp only
      rw [hu, Option.bind_some]
      exact hall

theorem stageFiles_isSome {g : Graph} {root : Place} {dir : Bytes} {p : Progress} {t' : Tree}
    {entries es : List (Bytes × Bytes)} (hes : entries.mapM (resolveEntry g) = some es)
    (h : placeAll p.tree root (below dir es) = some t') :
    ∃ p', entries.foldlM (stageFile g root dir false) p = some p' ∧ p'.tree = t' := by
  induction entries generalizing p es with
  | nil =>
    obtain rfl : es = [] := by simpa using hes.symm
    exact ⟨p, rfl, Option.some.inj h⟩
  | cons entry rest ih =>
    rw [List.mapM_cons] at hes
    obtain ⟨e, he, hes⟩ := Option.bind_eq_some_iff.mp hes
    obtain ⟨es', hes', heq⟩ := Option.bind_eq_some_iff.mp hes
    obtain rfl := Option.some.inj heq
    rw [below, List.map_cons, placeAll_cons] at h
    obtain ⟨u, hu, hrest⟩ := Option.bind_eq_some_iff.mp h
    obtain ⟨p', hp', htree⟩ := ih hes' (p := ⟨u, p.text ++ manifestRecord p.first e.1
      (pathJoin dir e.2) (stageAction p.tree root e.1 (pathJoin dir e.2))
      (sourceKind g entry.1 e.1), false⟩) hrest
    refine ⟨p', ?_, htree⟩
    rw [List.foldlM_cons, stageFile_eq, he, Option.bind_some]
    dsimp only at hu ⊢
    rw [hu]
    exact hp'

/-! ## The manifest -/

variable {g : Graph} {root : Place} {s : Stage}

/-- Where the manifest of a stage stands. -/
def manifestPlace (g : Graph) (root : Place) (s : Stage) : Place := placeAt root (manifestPath g s)

/-- Where its text is collected. -/
def tmpPlace (g : Graph) (root : Place) (s : Stage) : Place := placeAt root (manifestTmp g s)

theorem names_manifest : names (manifestPath g s) =
    names (manifestDir g s) ++ [ascii "manifest.json"] := by
  rw [← names_append (by decide)]
  simp [manifestPath, stageManifestPath, manifestDir, buildPath, ascii]

theorem names_tmp : names (manifestTmp g s) =
    names (manifestDir g s) ++ [ascii "manifest.json.tmp"] := by
  rw [← names_append (by decide)]
  simp [manifestTmp, manifestPath, stageManifestPath, manifestDir, buildPath, ascii]

theorem manifestPlace_eq : manifestPlace g root s =
    ascii "manifest.json" :: placeAt root (manifestDir g s) := by
  rw [manifestPlace, placeAt, names_manifest, leadsTo, List.foldl_append]
  rfl

theorem tmpPlace_eq : tmpPlace g root s =
    ascii "manifest.json.tmp" :: placeAt root (manifestDir g s) := by
  rw [tmpPlace, placeAt, names_tmp, leadsTo, List.foldl_append]
  rfl

theorem tmpPlace_ne : tmpPlace g root s ≠ manifestPlace g root s := by
  rw [tmpPlace_eq, manifestPlace_eq]
  intro h
  exact absurd (List.cons.inj h).1 (by decide)

theorem through_manifest : through root (manifestPath g s) =
    through root (manifestDir g s) ++ [placeAt root (manifestDir g s)] := by
  rw [through, passes_dropLast root (names_ne_nil _), names_manifest, List.dropLast_concat]
  rfl

theorem through_tmp : through root (manifestTmp g s) = through root (manifestPath g s) := by
  rw [through_manifest, through, passes_dropLast root (names_ne_nil _), names_tmp,
    List.dropLast_concat]
  rfl

/-- What opening a manifest has done. -/
structure Begun (g : Graph) (root : Place) (s : Stage) (t t' : Tree) : Prop where
  content : t'.content = Function.update t.content (tmpPlace g root s) blank
  dirs : ∀ d, t.entry d = some .dir → t'.entry d = some .dir
  made : ∀ d ∈ through root (manifestPath g s), t'.entry d = some .dir
  new : ∀ d, t'.entry d = some .dir →
    t.entry d = some .dir ∨ d ∈ through root (manifestPath g s)

theorem manifestBegin_begun {t t' : Tree} (h : manifestBegin t g root s = some t') :
    Begun g root s t t' := by
  obtain ⟨u, hu, h⟩ := Option.bind_eq_some_iff.mp h
  obtain ⟨tmp, htmp, h⟩ := Option.bind_eq_some_iff.mp h
  obtain ⟨rfl, hmade⟩ := walk_names.mp htmp
  obtain ⟨hentry, hover⟩ := Tree.write_eq_some h
  have hgrows := Tree.makeDirs_grows hu
  have hkept : ∀ d, u.entry d = some .dir → t'.entry d = some .dir := by
    intro d hd
    rw [dir_of_update hentry]
    exact ⟨fun heq => hover (heq ▸ hd), hd⟩
  constructor
  · rw [content_of_entry hentry, hgrows.content]
    rfl
  · exact fun d hd => hkept d (hgrows.dirs d hd)
  · intro d hd
    rw [← through_tmp] at hd
    exact hkept d (hmade d hd)
  · intro d hd
    rw [through_manifest]
    rcases Tree.makeDirs_new hu ((dir_of_update hentry).mp hd).2 with hd | hd | hd
    · exact .inl hd
    · exact .inr (List.mem_append_left _ hd)
    · exact .inr (List.mem_append_right _ (List.mem_singleton.mpr hd))

theorem manifestBegin_isSome {file dir : Place → Prop} (hsep : Separate file dir) {t : Tree}
    (ht : Within file dir t) (hroot : t.entry root = some .dir)
    (htmp : file (tmpPlace g root s)) (hmade : ∀ d ∈ through root (manifestPath g s), dir d) :
    ∃ t', manifestBegin t g root s = some t' ∧ Within file dir t' := by
  have hclear : ∀ d ∈ through root (manifestPath g s), t.content d = none := by
    intro d hd
    by_contra hcontent
    exact hsep.apart d (ht.files d hcontent) (hmade d hd)
  rw [through_manifest] at hclear hmade
  obtain ⟨u, hu, hdirs, hlast⟩ := Tree.makeDirs_isSome (names (manifestDir g s)) hroot
    (fun d hd => hclear d (List.mem_append_left _ hd))
    (hclear _ (List.mem_append_right _ (List.mem_singleton_self _)))
  have hwalk : u.walk root (names (manifestTmp g s)) = some (tmpPlace g root s) := by
    refine walk_names.mpr ⟨rfl, ?_⟩
    rw [through_tmp, through_manifest]
    intro d hd
    rcases List.mem_append.mp hd with hd | hd
    · exact hdirs d hd
    · rwa [List.mem_singleton.mp hd]
  have hover : u.entry (tmpPlace g root s) ≠ some .dir := by
    intro hdir
    rcases Tree.makeDirs_new hu hdir with hd | hd | hd
    · exact hsep.apart _ htmp (ht.dirs _ hd)
    · exact hsep.apart _ htmp (hmade _ (List.mem_append_left _ hd))
    · exact hsep.apart _ htmp (hmade _ (List.mem_append_right _ (List.mem_singleton.mpr hd)))
  obtain ⟨t', ht'⟩ : ∃ t', u.write (tmpPlace g root s) [] = some t' := by
    rw [tmpPlace_eq] at hover ⊢
    exact Tree.write_isSome hlast hover
  have hrun : manifestBegin t g root s = some t' := by
    rw [manifestBegin, hu, Option.bind_some, hwalk, Option.bind_some]
    exact ht'
  have hbegun := manifestBegin_begun hrun
  refine ⟨t', hrun, ?_, ?_⟩
  · intro p hp
    rw [hbegun.content] at hp
    by_cases heq : p = tmpPlace g root s
    · exact heq ▸ htmp
    · rw [Function.update_of_ne heq] at hp
      exact ht.files p hp
  · intro d hd
    rcases hbegun.new d hd with hd | hd
    · exact ht.dirs d hd
    · rw [through_manifest] at hd
      exact hmade d hd

/-- What closing a manifest and renaming it has done. -/
structure Ended (g : Graph) (root : Place) (s : Stage) (text : Bytes) (t t' : Tree) : Prop where
  content : t'.content = Function.update
    (Function.update t.content (manifestPlace g root s) (some text)) (tmpPlace g root s) none
  dirs : ∀ d, t'.entry d = some .dir ↔ t.entry d = some .dir

theorem manifestEnd_ended {t t' : Tree} {text : Bytes}
    (h : manifestEnd t g root s text = some t') : Ended g root s text t t' := by
  obtain ⟨tmp, htmp, h⟩ := Option.bind_eq_some_iff.mp h
  obtain ⟨u, hu, h⟩ := Option.bind_eq_some_iff.mp h
  obtain ⟨manifest, hmanifest, h⟩ := Option.bind_eq_some_iff.mp h
  obtain ⟨rfl, -⟩ := walk_names.mp htmp
  obtain ⟨rfl, -⟩ := walk_names.mp hmanifest
  obtain ⟨hentry, hover⟩ : u.entry = Function.update t.entry (tmpPlace g root s)
      (some (.file text)) ∧ t.entry (tmpPlace g root s) ≠ some .dir := Tree.write_eq_some hu
  obtain ⟨c, hc, hover', hlast⟩ := Tree.rename_eq_some tmpPlace_ne h
  obtain rfl : text = c := by
    change u.content (tmpPlace g root s) = some c at hc
    rw [content_of_entry hentry, Function.update_self] at hc
    exact Option.some.inj hc
  have hentry' : ∀ p, p ≠ tmpPlace g root s → p ≠ manifestPlace g root s →
      t'.entry p = t.entry p := by
    intro p hp hp'
    rw [hlast, Function.update_of_ne hp]
    rw [Function.update_of_ne hp', hentry]
    exact Function.update_of_ne hp _ _
  have htmp : t'.entry (tmpPlace g root s) = none := by
    rw [hlast]
    exact Function.update_self _ _ _
  have hmanifest : t'.entry (manifestPlace g root s) = some (.file text) := by
    rw [hlast, Function.update_of_ne (Ne.symm tmpPlace_ne)]
    exact Function.update_self _ _ _
  constructor
  · funext p
    by_cases hp : p = tmpPlace g root s
    · simp [hp, Tree.content, htmp]
    · rw [Function.update_of_ne hp]
      by_cases hp' : p = manifestPlace g root s
      · simp [hp', Tree.content, hmanifest]
      · rw [Function.update_of_ne hp', Tree.content, hentry' p hp hp']
        rfl
  · intro d
    by_cases hd : d = tmpPlace g root s
    · subst hd
      simpa [htmp] using hover
    · by_cases hd' : d = manifestPlace g root s
      · subst hd'
        have hno := (dir_of_update hentry).not.mp hover'
        simpa [hmanifest, Ne.symm tmpPlace_ne] using hno
      · rw [hentry' d hd hd']

theorem manifestEnd_isSome {file dir : Place → Prop} (hsep : Separate file dir) {t : Tree}
    (ht : Within file dir t) (hmade : ∀ d ∈ through root (manifestPath g s), t.entry d = some .dir)
    (htmp : t.content (tmpPlace g root s) ≠ none) (hmanifest : file (manifestPlace g root s))
    (text : Bytes) : ∃ t', manifestEnd t g root s text = some t' := by
  obtain ⟨c, hc⟩ := Option.ne_none_iff_exists'.mp htmp
  obtain ⟨u, hu⟩ := write_file_isSome hc text
  obtain ⟨hentry, hover⟩ := Tree.write_eq_some hu
  have hreach : ∀ d ∈ through root (manifestPath g s), u.entry d = some .dir := by
    intro d hd
    rw [dir_of_update hentry]
    exact ⟨fun heq => hover (heq ▸ hmade d hd), hmade d hd⟩
  have hcontent : u.content (tmpPlace g root s) = some text := by
    rw [content_of_entry hentry, Function.update_self]
  have hdir : u.entry (placeAt root (manifestDir g s)) = some .dir := by
    apply hreach
    rw [through_manifest]
    simp
  obtain ⟨v, hv⟩ : ∃ v, u.write (manifestPlace g root s) text = some v := by
    rw [manifestPlace_eq]
    refine Tree.write_isSome hdir ?_
    rw [← manifestPlace_eq]
    intro hd
    exact hsep.apart _ hmanifest (ht.dirs _ ((dir_of_update hentry).mp hd).2)
  have hfile : v.entry (tmpPlace g root s) = some (.file text) := by
    rw [(Tree.write_eq_some hv).1, Function.update_of_ne tmpPlace_ne, ← Tree.content_eq_some]
    exact hcontent
  have hunlink : ∃ t', v.unlink (tmpPlace g root s) = some t' := by
    have hsome : ∃ c, v.entry (tmpPlace g root s) = some (.file c) := ⟨text, hfile⟩
    simp only [Tree.unlink, dif_pos hsome]
    exact ⟨_, rfl⟩
  obtain ⟨t', ht'⟩ := hunlink
  refine ⟨t', ?_⟩
  have hwalk : t.walk root (names (manifestTmp g s)) = some (tmpPlace g root s) :=
    walk_names.mpr ⟨rfl, through_tmp (g := g) ▸ hmade⟩
  have hwalk' : u.walk root (names (manifestPath g s)) = some (manifestPlace g root s) :=
    walk_names.mpr ⟨rfl, hreach⟩
  rw [manifestEnd, hwalk, Option.bind_some, hu, Option.bind_some, hwalk', Option.bind_some,
    Tree.rename, hcontent]
  dsimp only
  rw [if_neg tmpPlace_ne, hv, Option.bind_some]
  exact ht'

/-! ## The operations as copies -/

theorem stageRun_eq_some {t t' : Tree} {options : StageOptions} (hdry : options.dryRun = false)
    (h : stageRun t g root s options = some t') : ∃ es begun copied text,
      resolved g s = some es ∧ Begun g root s t begun ∧
      placeAll begun root (below (rootRel s options) es) = some copied ∧
      Ended g root s text copied t' ∧ text.head? = some 123 := by
  unfold stageRun at h
  split at h
  · cases h
  · obtain ⟨begun, hbegun, h⟩ := Option.bind_eq_some_iff.mp h
    obtain ⟨p, hp, hend⟩ := Option.bind_eq_some_iff.mp h
    rw [hdry] at hp
    obtain ⟨es, hes, hall, htext⟩ := stageFiles_eq_some hp
    refine ⟨es, begun, p.tree, _, hes, manifestBegin_begun hbegun, hall, manifestEnd_ended hend, ?_⟩
    obtain ⟨rest, hrest⟩ := htext
    have hhead := manifestHead_head s (rootRel s options) false
    cases hhd : manifestHead s (rootRel s options) false with
    | nil => simp [hhd] at hhead
    | cons c cs =>
      rw [← hrest]
      simpa [hhd] using hhead

end QStar.Staging
