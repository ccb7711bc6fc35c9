import QStar.Cleaning.Exposure

/-!
# Clean safety

The paths of a clean form a chain or a family of siblings, so none of them hides
another one. With that the conditions of a safe clean are about paths only: no file
to be left alone lies below the build directory, or below an output directory whose
mangled name its own target shares.
-/
namespace QStar.Cleaning

open QStar.Lib.CStrings QStar.Lib.FileTrees
open QStar.Base QStar.BuildGraph QStar.Lowering

variable {root : Place} {g : Graph} {p : Package} {label f : Bytes}

/-! ## The paths of a clean -/

theorem names_targetOutputDir (g : Graph) (t : Target) :
    names (targetOutputDir g t) = names g.buildDir ++ [ascii "out", mangleLabel t.label] := by
  have hslash : ascii "/" = [47] := by decide
  have hout : ascii "out/" = ascii "out" ++ [47] := by decide
  have htail : names (ascii "out" ++ 47 :: mangleLabel t.label) =
      [ascii "out", mangleLabel t.label] := by
    rw [names_append (slash_notMem_mangleLabel t.label), names,
      List.splitOn_eq_singleton (by decide)]
    rfl
  rw [targetOutputDir, buildPath, hout, hslash, List.append_assoc, List.append_assoc]
  exact (names_slash _ _).trans (by rw [← htail]; rfl)

theorem mangleLabel_ordinary {label : Bytes} (h : label ≠ []) : Ordinary (mangleLabel label) := by
  have hdot : 46 ∉ mangleLabel label := by
    intro hmem
    obtain ⟨c, -, hc⟩ := List.mem_map.mp hmem
    split at hc
    · rename_i halnum
      rw [hc] at halnum
      revert halnum
      decide
    · revert hc
      decide
  refine ⟨by simpa [mangleLabel] using h, fun heq => ?_, fun heq => ?_⟩
  · exact hdot (heq ▸ by decide)
  · exact hdot (heq ▸ by decide)

theorem placeAt_targetOutputDir (root : Place) (g : Graph) (t : Target) :
    placeAt root (targetOutputDir g t) =
      mangleLabel t.label :: ascii "out" :: placeAt root g.buildDir := by
  have hout : Ordinary (ascii "out") := by decide
  have hsplit : names g.buildDir ++ [ascii "out", mangleLabel t.label] =
      names g.buildDir ++ [ascii "out"] ++ [mangleLabel t.label] := by simp
  rw [placeAt, names_targetOutputDir, hsplit, leadsTo_concat _ _ (mangleLabel_ordinary t.label_ne),
    leadsTo_concat _ _ hout]
  rfl

theorem through_targetOutputDir (root : Place) (g : Graph) (t : Target) :
    through root (targetOutputDir g t) = through root g.buildDir ++
      [placeAt root g.buildDir, ascii "out" :: placeAt root g.buildDir] := by
  have hout : Ordinary (ascii "out") := by decide
  have hsplit : names g.buildDir ++ [ascii "out", mangleLabel t.label] =
      names g.buildDir ++ [ascii "out"] ++ [mangleLabel t.label] := by simp
  rw [through, names_targetOutputDir, hsplit, passes_concat, passes_concat, leadsTo_concat _ _ hout,
    List.append_assoc]
  rfl

theorem through_length (h : isPackageRelative g.buildDir = true) {t : Target} {e : Place}
    (he : e ∈ through root (targetOutputDir g t)) :
    e.length ≤ (placeAt root g.buildDir).length + 1 := by
  simp only [through_targetOutputDir, List.mem_append, List.mem_cons, List.not_mem_nil,
    or_false] at he
  rcases he with he | rfl | rfl
  · exact passes_length (relative_dropLast h) he
  · omega
  · simp

theorem targetOutputDir_ordered (h : isPackageRelative g.buildDir = true) (root : Place)
    (t t' : Target) : Ordered root (targetOutputDir g t) (targetOutputDir g t') where
  stopped := by
    intro f c tree hblocks hexposed
    refine absurd ?_ hexposed.2
    rwa [Blocks, through_targetOutputDir] at hblocks ⊢
  ahead := by
    intro e he hbelow
    have hlength := through_length h he
    have hlonger := hbelow.length_le
    simp only [placeAt_targetOutputDir, List.length_cons] at hlonger
    omega

theorem through_compileCommands (root : Place) :
    through root (ascii "compile_commands.json") = [root] := by
  have hnames : names (ascii "compile_commands.json") = [ascii "compile_commands.json"] := by
    decide
  simp [through, hnames, passes]

theorem placeAt_compileCommands (root : Place) :
    placeAt root (ascii "compile_commands.json") = ascii "compile_commands.json" :: root := by
  have hnames : names (ascii "compile_commands.json") = [] ++ [ascii "compile_commands.json"] := by
    decide
  rw [placeAt, hnames, leadsTo_concat _ _ (by decide)]
  rfl

theorem compileCommands_ordered {dir : Bytes} (h : isPackageRelative dir = true) (root : Place) :
    Ordered root dir (ascii "compile_commands.json") where
  stopped := by
    rintro f c t ⟨e, he, hbelow⟩ ⟨hexposed, -⟩ hfile
    rw [placeAt_compileCommands] at hexposed
    exact Tree.stat_blocked (relative_dropLast h) hfile
      ((List.suffix_cons _ root).trans hexposed) he hbelow
  ahead := by
    intro e he hbelow
    rw [through_compileCommands, List.mem_singleton] at he
    subst he
    rw [placeAt_compileCommands]
    exact hbelow.trans (List.suffix_cons _ e)

theorem cleanPaths_ordered (h : isPackageRelative p.graph.buildDir = true) (label : Bytes) :
    (cleanPaths p label).Pairwise (Ordered p.root) := by
  unfold cleanPaths
  split
  · rw [List.pairwise_map]
    exact List.pairwise_of_forall_mem_list fun t _ t' _ => targetOutputDir_ordered h p.root t t'
  · split
    · exact List.pairwise_pair.mpr (compileCommands_ordered h p.root)
    · exact List.pairwise_singleton _ _

/-! ## Action outputs -/

def nodeOutputs (h : Host) (g : Graph) (node : ActionNode) : List Bytes :=
  match lowerNode h g node with
  | .ok a => a.outputs
  | .error _ => []

def scheduledNodes (h : Host) (g : Graph) : List ActionNode :=
  g.targets.flatMap (fun t =>
    match targetNodes h g t with
    | .ok nodes => nodes
    | .error _ => []) ++ g.genrules.flatMap genruleNodes

theorem mem_scheduledNodes {h : Host} {node : ActionNode} :
    node ∈ scheduledNodes h g ↔ Scheduled h g node := by
  simp only [scheduledNodes, List.mem_append, List.mem_flatMap]
  constructor
  · rintro (⟨t, ht, hnode⟩ | ⟨r, hr, hnode⟩)
    · split at hnode
      · rename_i nodes hnodes
        exact .target ht hnodes hnode
      · cases hnode
    · exact .genrule hr hnode
  · rintro (⟨ht, hnodes, hnode⟩ | ⟨hr, hnode⟩)
    · exact .inl ⟨_, ht, by rwa [hnodes]⟩
    · exact .inr ⟨_, hr, hnode⟩

theorem actionOutput_iff {h : Host} {path : Bytes} : ActionOutput h g path ↔
    path ∈ (scheduledNodes h g).flatMap (nodeOutputs h g) ++ g.genrules.flatMap Genrule.outputs := by
  simp only [List.mem_append, List.mem_flatMap]
  constructor
  · rintro (⟨hnode, ha, hpath⟩ | ⟨hr, hpath⟩)
    · refine .inl ⟨_, mem_scheduledNodes.mpr hnode, ?_⟩
      simpa only [nodeOutputs, ha] using hpath
    · exact .inr ⟨_, hr, hpath⟩
  · rintro (⟨node, hnode, hpath⟩ | ⟨r, hr, hpath⟩)
    · unfold nodeOutputs at hpath
      split at hpath
      · rename_i a ha
        exact .action (mem_scheduledNodes.mp hnode) ha hpath
      · cases hpath
    · exact .configured hr hpath

/-! ## Safe cleans -/

/-- The output directory of a label reaches the outputs of all labels with its mangled name. -/
theorem exposed_outPath_iff {t u : Target} {name : Bytes} (hname : Ordinary name)
    (hslash : 47 ∉ name) (h : isPackageRelative g.buildDir = true) :
    Exposed root (targetOutputDir g t) (outPath g u name) ↔
      mangleLabel t.label = mangleLabel u.label := by
  have hpath : outPath g u name = targetOutputDir g u ++ 47 :: name := by
    have hone : ascii "/" = [47] := by decide
    simp [outPath, targetOutputDir, buildPath, hone]
  have hplace : placeAt root (outPath g u name) =
      name :: mangleLabel u.label :: ascii "out" :: placeAt root g.buildDir := by
    rw [← placeAt_targetOutputDir, hpath, placeAt, names_append hslash, leadsTo_concat _ _ hname]
    rfl
  have hfree : ¬ Blocks root (targetOutputDir g t) (outPath g u name) := by
    rintro ⟨e, he, hbelow⟩
    have hlength := through_length h he
    have hlonger := hbelow.length_le
    simp only [hplace, List.length_cons] at hlonger
    omega
  constructor
  · rintro ⟨hbelow, -⟩
    rw [hplace, placeAt_targetOutputDir] at hbelow
    rcases List.suffix_cons_iff.mp hbelow with heq | hbelow
    · have hlength := congrArg List.length heq
      simp at hlength
    · exact (List.cons.inj (hbelow.eq_of_length (by simp))).1
  · intro hmangled
    refine ⟨?_, hfree⟩
    rw [hplace, placeAt_targetOutputDir, hmangled]
    exact List.suffix_cons _ _

/-- A doomed file is lost in some package that has it. -/
theorem not_cleanSafe {path : Bytes} (h : isPackageRelative p.graph.buildDir = true)
    (hkept : Kept p label path) (hdoomed : Doomed p.root path (cleanPaths p label)) :
    ¬ CleanSafe p label := by
  intro hsafe
  obtain ⟨name, hname⟩ := placeAt_eq_cons hkept.names_file
  obtain ⟨readdir, fuel, t, hlists, hfile, hgone⟩ :=
    removeAll_takes p.root_ordinary (by simp [hname]) (cleanPaths_ordered h label) hdoomed
  have hsame := hsafe readdir fuel t hlists path hkept
  simp [clean, Tree.content, hfile, hgone] at hsame

/-- A clean is safe exactly when no file that it is to leave alone is doomed. -/
theorem cleanSafe_iff (p : Package) (label : Bytes) (h : isPackageRelative p.graph.buildDir = true) :
    CleanSafe p label ↔
      ∀ path, Kept p label path → ¬ Doomed p.root path (cleanPaths p label) := by
  have hordered := cleanPaths_ordered h label
  constructor
  · intro hsafe path hkept hdoomed
    exact not_cleanSafe h hkept hdoomed hsafe
  · intro hfree readdir fuel t _ path hkept
    cases hc : t.content (placeAt p.root path) with
    | some c =>
      rw [Tree.content_eq_some] at hc ⊢
      exact removeAll_spares hordered (hfree path hkept) hc
    | none =>
      have hnofile : ∀ c, t.entry (placeAt p.root path) ≠ some (.file c) := by
        intro c hfile
        simp [Tree.content_eq_some.mpr hfile] at hc
      cases hleft : (clean readdir fuel p label t).content (placeAt p.root path) with
      | none => rfl
      | some c =>
        exact absurd (Tree.content_eq_some.mp hleft)
          (removeAll_shrinks readdir p.root fuel t _ _ hnofile c)

section Sources

def sourceApp : Target where
  label := ascii "//:app"
  name := ascii "app"
  kind := .exe
  sources := [ascii "src/main.c"]
  compileContext := ascii "own"
  label_ne := app_label_ne
  sources_lt := by decide

/-- A program whose build directory is the one its source is in. -/
def sourceGraph : Graph where
  host := ascii "linux"
  platform := []
  buildDir := ascii "src"
  targets := [sourceApp]
  genrules := []
  stages := []
  toolsets := []
  languages := []
  labels_nodup := by simp
  objectlib_objects := by simp [sourceApp]
  objects_objectlib := by simp [sourceApp]

def sourcePackage : Package where
  host := ⟨fun _ => none, fun _ => false⟩
  graph := sourceGraph
  root := []
  authoring := [ascii "qstar.lua"]
  compileCommands := ascii "build"
  root_ordinary := by simp

theorem clean_source_safe_iff :
    CleanSafe sourcePackage [] ↔ ∀ path, Kept sourcePackage [] path →
      ¬ Doomed sourcePackage.root path (cleanPaths sourcePackage []) :=
  cleanSafe_iff sourcePackage [] (by decide)

/-- The source is no output of an action, and a clean of the whole build takes it. -/
theorem sources_cleaned :
    validateTarget sourcePackage.host sourceGraph sourceApp = .ok () ∧
      isPackageRelative sourceGraph.buildDir = true ∧ Kept sourcePackage [] (ascii "src/main.c") ∧
      ¬ CleanSafe sourcePackage [] := by
  have hrelative : isPackageRelative sourceGraph.buildDir = true := by decide
  have hplace : placeAt [] (ascii "src/main.c") = [ascii "main.c", ascii "src"] := by
    decide
  have hthrough : through [] (ascii "src/main.c") = [[], [ascii "src"]] := by decide
  have hdir : placeAt [] (ascii "src") = [ascii "src"] := by decide +kernel
  have hway : through [] (ascii "src") = [[]] := by decide
  have hkept : Kept sourcePackage [] (ascii "src/main.c") := by
    refine ⟨.inl ⟨by decide, by decide, ?_⟩, ?_⟩
    · rw [actionOutput_iff]
      decide
    · show ∀ d ∈ through [] (ascii "src/main.c"), ¬ placeAt [] (ascii "src/main.c") <:+ d
      rw [hplace, hthrough]
      decide
  refine ⟨by rfl, hrelative, hkept, not_cleanSafe hrelative hkept ?_⟩
  have hpaths : cleanPaths sourcePackage [] = [ascii "src"] := by decide
  show Doomed [] (ascii "src/main.c") (cleanPaths sourcePackage [])
  rw [hpaths]
  refine .inl ⟨by rw [hdir, hplace]; decide +kernel, ?_⟩
  rw [Blocks, hway, hplace]
  decide

end Sources

end QStar.Cleaning
