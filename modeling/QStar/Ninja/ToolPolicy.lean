import QStar.Ninja.Order

/-!
# The external tool policy

Which programs a toolset lets a declared command start, and the routes by which the
Stella scheduler and the Ninja backend start one. Generated actions pass the resolver
of the policy on both; the command of a run target is only freed of its tokens.
-/
namespace QStar.Ninja

open QStar.Lib.CStrings
open QStar.Lib.Results
open QStar.Base
open QStar.BuildGraph
open QStar.Lowering

variable {h : Host} {g : Graph} {policy : List Toolset} {word declared started : Bytes}

/-! ## The policy -/

/-- What a policy lets a command start whose first word is declared as `declared`. -/
inductive Permitted (g : Graph) (policy : List Toolset) (declared started : Bytes) : Prop where
  | artifact {label selector : Bytes} {t : Target} {artifacts : List Artifact} {a : Artifact}
      (htoken : targetFileToken declared = .targetFile label selector)
      (htarget : findTarget g label = some t) (hartifacts : targetArtifactMap g t = .ok artifacts)
      (ha : a ∈ artifacts) (hpath : started = a.path)
  | package (hseparator : hasPathSeparator started = true)
      (hrelative : isPackageRelative started = true)
  | listed {s : Toolset} (hs : s ∈ policy) (hbare : hasPathSeparator started = false)
      (htool : started ∈ s.pathTools)
  | absolute {s : Toolset} (hs : s ∈ policy)
      (hallowed : contextBoolEnabled s.allowAbsoluteTools = true)
      (habsolute : isAbsoluteTool started = true)

/-- What a policy lets a command start that names no target. -/
def allowsWord (policy : List Toolset) (word : Bytes) : Bool :=
  if isAbsoluteTool word then policy.any fun s => contextBoolEnabled s.allowAbsoluteTools
  else if hasPathSeparator word then isPackageRelative word
  else policy.any fun s => decide (word ∈ s.pathTools)

/-- A first word that names a target, or stands for a word the policy allows. -/
def allowsFirstWord (g : Graph) (policy : List Toolset) (word : Bytes) : Bool :=
  match stageDirToken word with
  | .malformed => false
  | .payload label =>
    match findStage g label with
    | none => false
    | some stage => allowsWord policy (if stage.root = [] then ascii "." else stage.root)
  | .plain =>
    match targetFileToken word with
    | .malformed => false
    | .plain => allowsWord policy word
    | .targetFile label _ =>
      match findTarget g label, findGenrule g label with
      | some _, _ => true
      | none, some r => allowsWord policy (r.outputs.head r.outputs_ne)
      | none, none => false

/-! ## Words -/

/-- An absolute path has a separator and is not package-relative. -/
theorem absolute_word (habsolute : isAbsoluteTool word = true) :
    hasPathSeparator word = true ∧ isPackageRelative word = false := by
  unfold isAbsoluteTool at habsolute
  split at habsolute
  · simp [hasPathSeparator, isPackageRelative]
  · rename_i c sep rest _
    simp only [Bool.and_eq_true, Bool.or_eq_true, decide_eq_true_eq] at habsolute
    have hseparator : sep = 47 ∨ sep = 92 := habsolute.2.symm
    constructor
    · rcases hseparator with rfl | rfl
      · simp [hasPathSeparator]
      · simp [hasPathSeparator]
    · simp [isPackageRelative]
  · cases habsolute

/-- The resolver's order of tests decides the policy. -/
theorem allowsWord_iff : allowsWord policy word = true ↔
    (hasPathSeparator word = true ∧ isPackageRelative word = true) ∨
    (∃ s ∈ policy, hasPathSeparator word = false ∧ word ∈ s.pathTools) ∨
    ∃ s ∈ policy, contextBoolEnabled s.allowAbsoluteTools = true ∧ isAbsoluteTool word = true := by
  unfold allowsWord
  split
  · rename_i habsolute
    obtain ⟨hseparator, hrelative⟩ := absolute_word habsolute
    simp [hseparator, hrelative, habsolute]
  · rename_i habsolute
    split
    · rename_i hseparator
      simp [hseparator, habsolute]
    · rename_i hseparator
      simp [hseparator, habsolute]

theorem permitted_of_allowsWord (hallows : allowsWord policy started = true) :
    Permitted g policy declared started := by
  rcases allowsWord_iff.mp hallows with ⟨hseparator, hrelative⟩ | ⟨s, hs, hbare, htool⟩ |
    ⟨s, hs, hallowed, habsolute⟩
  · exact .package hseparator hrelative
  · exact .listed hs hbare htool
  · exact .absolute hs hallowed habsolute

/-- Without a token for a target only the policy's words are left. -/
theorem allowsWord_of_permitted (hpermitted : Permitted g policy declared started)
    (hplain : ∀ label selector t, targetFileToken declared = .targetFile label selector →
      findTarget g label = some t → False) : allowsWord policy started = true := by
  apply allowsWord_iff.mpr
  cases hpermitted with
  | artifact htoken htarget _ _ _ => exact (hplain _ _ _ htoken htarget).elim
  | package hseparator hrelative => exact .inl ⟨hseparator, hrelative⟩
  | listed hs hbare htool => exact .inr (.inl ⟨_, hs, hbare, htool⟩)
  | absolute hs hallowed habsolute => exact .inr (.inr ⟨_, hs, hallowed, habsolute⟩)

/-! ## Tokens -/

theorem tokenPayload_plain_of_head {opening : Bytes} (hopening : opening.head? = some 60)
    (hword : word.head? ≠ some 60) : tokenPayload opening word = .plain := by
  unfold tokenPayload
  rw [if_neg]
  rintro ⟨rest, rfl⟩
  cases opening with
  | nil => cases hopening
  | cons b bs => exact hword hopening

theorem tokenPayload_plain_of_notMem {opening : Bytes} (hopening : 58 ∈ opening)
    (hword : 58 ∉ word) : tokenPayload opening word = .plain := by
  unfold tokenPayload
  rw [if_neg]
  intro hstart
  exact hword (hstart.subset hopening)

/-- The command resolver leaves a word without tokens as it is. -/
theorem resolveCommandToken_plain (hstage : stageDirToken word = .plain)
    (htarget : targetFileToken word = .plain) : resolveCommandToken g word = .ok word := by
  simp only [resolveCommandToken, hstage, resolveTargetFileToken, htarget]

theorem targetFileToken_plain (hword : tokenPayload (ascii "<qstar-target-file:") word = .plain) :
    targetFileToken word = .plain := by
  simp only [targetFileToken, hword]

/-- No word is a token of both sorts. -/
theorem stageDirToken_of_targetFile {label selector : Bytes}
    (htoken : targetFileToken word = .targetFile label selector) : stageDirToken word = .plain := by
  have hprefix : ascii "<qstar-target-file:" <+: word := by
    by_contra hno
    have hplain : targetFileToken word = .plain :=
      targetFileToken_plain (by simp only [tokenPayload, if_neg hno])
    rw [hplain] at htoken
    cases htoken
  unfold stageDirToken tokenPayload
  rw [if_neg]
  intro hstage
  have hshorter : ascii "<qstar-stage-dir:" <+: ascii "<qstar-target-file:" :=
    List.prefix_of_prefix_length_le hstage hprefix (by decide)
  revert hshorter
  decide

theorem notMem_of_isPackageRelative (hrelative : isPackageRelative word = true) : 58 ∉ word := by
  intro hmem
  simp only [isPackageRelative, Bool.and_eq_true, Bool.not_eq_true', List.any_eq_false,
    Bool.or_eq_true, decide_eq_true_eq, not_or] at hrelative
  exact (hrelative.1.1.1.1.1.1.2 58 hmem).2 rfl

theorem resolveCommandToken_of_relative (hrelative : isPackageRelative word = true) :
    resolveCommandToken g word = .ok word := by
  have hcolon := notMem_of_isPackageRelative hrelative
  exact resolveCommandToken_plain (tokenPayload_plain_of_notMem (by decide) hcolon)
    (targetFileToken_plain (tokenPayload_plain_of_notMem (by decide) hcolon))

theorem resolveCommandToken_of_head (hhead : word.head? ≠ some 60) :
    resolveCommandToken g word = .ok word :=
  resolveCommandToken_plain (tokenPayload_plain_of_head (by decide) hhead)
    (targetFileToken_plain (tokenPayload_plain_of_head (by decide) hhead))

theorem head_of_isAbsoluteTool (habsolute : isAbsoluteTool word = true) : word.head? ≠ some 60 := by
  unfold isAbsoluteTool at habsolute
  split at habsolute
  · simp
  · rename_i c sep rest _
    rintro hhead
    have hc : c = 60 := by simpa using hhead
    subst hc
    simp [isAlpha] at habsolute
  · cases habsolute

theorem head_of_validToolName (hvalid : validToolName word = true) : word.head? ≠ some 60 := by
  intro hhead
  cases word with
  | nil => cases hhead
  | cons c rest =>
    have hc : c = 60 := by simpa using hhead
    subst hc
    simp [validToolName, isAlnum] at hvalid

/-! ## Artifacts -/

/-- What evaluation and the graph validators check of the paths that artifacts lie at. -/
structure CheckedPaths (g : Graph) : Prop where
  /-- `qstar_graph_set_project`, `qstar_graph_set_cli_overrides` -/
  buildDir : isPackageRelative g.buildDir = true
  /-- `qstar.tool` -/
  tool : ∀ t ∈ g.targets, t.kind = .tool → isPackageRelative t.toolPath = true
  /-- `read_imported_artifacts_field` -/
  imported : ∀ t ∈ g.targets, ∀ a ∈ t.importedArtifacts, isPackageRelative a.path = true
  /-- `resolve_provider_final_artifacts` puts them beside the primary artifact. -/
  provider : ∀ t ∈ g.targets, ∀ final, t.providerFinal = some final →
    ∀ a ∈ final.artifacts, ∃ tail, a.path = outPath g t tail

/-- A path under a checked directory does not begin like a token. -/
theorem not_prefix_buildPath {opening sub : Bytes} (hcolon : opening.getLast? = some 58)
    (hslash : 47 ∉ opening) (hrelative : isPackageRelative word = true) :
    ¬ opening <+: buildPath word sub := by
  intro hstart
  have hword : word ++ [47] <+: buildPath word sub := ⟨sub, rfl⟩
  rcases List.prefix_or_prefix_of_prefix hstart hword with hin | hout
  · have hcolon : 58 ∈ word ++ [47] := hin.subset (List.mem_of_getLast? hcolon)
    simp [notMem_of_isPackageRelative hrelative] at hcolon
  · exact hslash (hout.subset (by simp))

theorem tokenPayload_buildPath {opening sub : Bytes} (hcolon : opening.getLast? = some 58)
    (hslash : 47 ∉ opening) (hrelative : isPackageRelative word = true) :
    tokenPayload opening (buildPath word sub) = .plain := by
  unfold tokenPayload
  rw [if_neg (not_prefix_buildPath hcolon hslash hrelative)]

theorem resolveCommandToken_outPath (hpaths : CheckedPaths g) (t : Target) (tail : Bytes) :
    resolveCommandToken g (outPath g t tail) = .ok (outPath g t tail) :=
  resolveCommandToken_plain (tokenPayload_buildPath (by decide) (by decide) hpaths.buildDir)
    (targetFileToken_plain (tokenPayload_buildPath (by decide) (by decide) hpaths.buildDir))

theorem within_map_eq_ok {artifacts found : List Artifact} {label : Bytes}
    (hmap : (if artifacts.length ≤ artifactMapSize then Except.ok artifacts
      else Except.error (LoweringError.tooManyArtifacts label)) = .ok found) : artifacts = found := by
  split at hmap
  · cases hmap
    rfl
  · cases hmap

/-- An artifact lies at a checked path, or beside the primary artifact of its target. -/
theorem artifact_path (hpaths : CheckedPaths g) {t : Target} (ht : t ∈ g.targets)
    {artifacts : List Artifact} (hartifacts : targetArtifactMap g t = .ok artifacts) {a : Artifact}
    (ha : a ∈ artifacts) : isPackageRelative a.path = true ∨ ∃ tail, a.path = outPath g t tail := by
  unfold targetArtifactMap at hartifacts
  split at hartifacts
  · cases within_map_eq_ok hartifacts
    cases ha
  · cases within_map_eq_ok hartifacts
    cases ha
  · cases within_map_eq_ok hartifacts
    cases ha
  · cases within_map_eq_ok hartifacts
    cases ha
  · rename_i hkind
    cases within_map_eq_ok hartifacts
    obtain rfl := List.mem_singleton.mp ha
    exact .inl (hpaths.tool t ht hkind)
  · cases within_map_eq_ok hartifacts
    simp only [importedArtifactsOf, List.mem_map, List.mem_filter] at ha
    obtain ⟨imported, ⟨himported, -⟩, rfl⟩ := ha
    exact .inl (hpaths.imported t ht imported himported)
  · cases within_map_eq_ok hartifacts
    split at ha
    · rename_i final hfinal
      split at ha
      · exact .inr (ownArtifacts_path ha)
      · simp only [providerArtifactsOf, List.mem_map] at ha
        obtain ⟨provided, hprovided, rfl⟩ := ha
        exact .inr (hpaths.provider t ht final hfinal provided hprovided)
    · exact .inr (ownArtifacts_path ha)

/-- The command resolver leaves the path of an artifact as it is. -/
theorem resolveCommandToken_artifact (hpaths : CheckedPaths g) {t : Target} (ht : t ∈ g.targets)
    {artifacts : List Artifact} (hartifacts : targetArtifactMap g t = .ok artifacts) {a : Artifact}
    (ha : a ∈ artifacts) : resolveCommandToken g a.path = .ok a.path := by
  rcases artifact_path hpaths ht hartifacts ha with hrelative | ⟨tail, htail⟩
  · exact resolveCommandToken_of_relative hrelative
  · rw [htail]
    exact resolveCommandToken_outPath hpaths t tail

/-- A tool is one of the artifacts of its target. -/
theorem targetToolPath_artifact {t : Target} {path : Bytes} (hpath : targetToolPath g t = .ok path) :
    ∃ artifacts, targetArtifactMap g t = .ok artifacts ∧ ∃ a ∈ artifacts, path = a.path := by
  obtain ⟨artifacts, hartifacts, hpath⟩ := bind_eq_ok.mp hpath
  dsimp only at hpath
  split at hpath
  · rename_i a hfound
    cases hpath
    exact ⟨artifacts, hartifacts, a, List.mem_of_find?_eq_some hfound, rfl⟩
  · cases hpath

theorem targetArtifactPath_artifact {t : Target} {selector path : Bytes}
    (hpath : targetArtifactPath g t selector = .ok path) :
    ∃ artifacts, targetArtifactMap g t = .ok artifacts ∧ ∃ a ∈ artifacts, path = a.path := by
  obtain ⟨artifacts, hartifacts, hpath⟩ := bind_eq_ok.mp hpath
  dsimp only at hpath
  split at hpath
  · rename_i a hfound
    cases hpath
    exact ⟨artifacts, hartifacts, a, List.mem_of_find?_eq_some hfound, rfl⟩
  · split at hpath
    · cases hpath
    · cases hpath

/-! ## The resolver -/

/-- What the resolver of the policy accepts is permitted, and stays what it is where the
command resolver is run on it again. -/
theorem resolveCommandTool_permitted (hpaths : CheckedPaths g) {target : Option Target}
    {toolset tool path : Bytes} {mode : ToolMode}
    (hresolve : resolveCommandTool g target toolset tool = .ok (path, mode)) :
    Permitted g (policyToolsets g target toolset) tool path ∧
      resolveCommandToken g path = .ok path := by
  unfold resolveCommandTool at hresolve
  dsimp only at hresolve
  split at hresolve
  · cases hresolve
  · split at hresolve
    · cases hresolve
    · rename_i label selector htoken
      split at hresolve
      · cases hresolve
      · split at hresolve
        · cases hresolve
        · rename_i t htarget
          obtain ⟨path, hpath, hresolve⟩ := bind_eq_ok.mp hresolve
          cases hresolve
          obtain ⟨artifacts, hartifacts, a, ha, rfl⟩ := targetToolPath_artifact hpath
          exact ⟨.artifact htoken htarget hartifacts ha rfl,
            resolveCommandToken_artifact hpaths (findTarget_mem htarget) hartifacts ha⟩
    · rename_i htoken
      split at hresolve
      · rename_i habsolute
        split at hresolve
        · rename_i hallowed
          cases hresolve
          obtain ⟨s, hs, hallowed⟩ := List.any_eq_true.mp hallowed
          exact ⟨.absolute hs hallowed habsolute,
            resolveCommandToken_of_head (head_of_isAbsoluteTool habsolute)⟩
        · cases hresolve
      · split at hresolve
        · rename_i hseparator
          split at hresolve
          · rename_i hrelative
            cases hresolve
            exact ⟨.package hseparator hrelative, resolveCommandToken_of_relative hrelative⟩
          · cases hresolve
        · rename_i hbare
          split at hresolve
          · cases hresolve
          · rename_i hvalid
            split at hresolve
            · rename_i hlisted
              cases hresolve
              obtain ⟨s, hs, htool⟩ := List.any_eq_true.mp hlisted
              exact ⟨.listed hs (by simpa using hbare) (by simpa using htool),
                resolveCommandToken_of_head (head_of_validToolName (by simpa using hvalid))⟩
            · cases hresolve

/-- What the token of a run target's first word stands for. -/
theorem resolveCommandToken_permitted_iff 
    (hresolve : resolveCommandToken g declared = .ok started) :
    Permitted g policy declared started ↔ allowsFirstWord g policy declared = true := by
  unfold resolveCommandToken at hresolve
  unfold allowsFirstWord
  split at hresolve
  · rename_i hstage
    simp only [hstage]
    unfold resolveTargetFileToken at hresolve
    split at hresolve
    · rename_i hplain
      cases hresolve
      simp only [hplain]
      exact ⟨fun hp => allowsWord_of_permitted hp (by simp [hplain]), permitted_of_allowsWord⟩
    · cases hresolve
    · rename_i label selector htoken
      simp only [htoken]
      split at hresolve
      · rename_i hnone
        split at hresolve
        · rename_i r hr
          simp only [hnone, hr]
          split at hresolve
          · cases hresolve
          · cases hresolve
            refine ⟨fun hp => allowsWord_of_permitted hp ?_, permitted_of_allowsWord⟩
            intro label' selector' t htoken' ht
            rw [htoken] at htoken'
            cases htoken'
            rw [hnone] at ht
            cases ht
        · cases hresolve
      · rename_i t ht
        simp only [ht, iff_true]
        have hpath : targetToolPath g t = .ok started ∨ targetArtifactPath g t selector = .ok started := by
          split at hresolve
          · cases hresolve
          · split at hresolve
            · cases hresolve
            · split at hresolve
              · exact .inl hresolve
              · exact .inr hresolve
        have hartifact : ∃ artifacts, targetArtifactMap g t = .ok artifacts ∧
            ∃ a ∈ artifacts, started = a.path := by
          rcases hpath with hpath | hpath
          · exact targetToolPath_artifact hpath
          · exact targetArtifactPath_artifact hpath
        obtain ⟨artifacts, hartifacts, a, ha, hstarted⟩ := hartifact
        exact .artifact htoken ht hartifacts ha hstarted
  · cases hresolve
  · rename_i label hstage
    cases hfind : findStage g label with
    | none =>
      simp only [hfind] at hresolve
      cases hresolve
    | some stage =>
      simp only [hfind, Except.ok.injEq] at hresolve
      subst hresolve
      simp only [hstage, hfind]
      refine ⟨fun hp => allowsWord_of_permitted hp ?_, permitted_of_allowsWord⟩
      intro label' selector t htoken ht
      rw [stageDirToken_of_targetFile htoken] at hstage
      cases hstage

/-! ## Commands -/

/-- A declared command, with the target whose toolset governs a generated action. -/
inductive DeclaredCommand where
  | generated (target : Option Target) (r : Genrule)
  | run (t : Target)

/-- The first word as it is declared. -/
def DeclaredCommand.firstWord : DeclaredCommand → Bytes
  | .generated _ r => r.tool
  | .run t => t.runCommand.headD []

/-- The toolsets that govern a command. -/
def DeclaredCommand.toolsets (g : Graph) : DeclaredCommand → List Toolset
  | .generated target r => policyToolsets g target r.toolset
  | .run t => policyToolsets g (some t) []

/-- What has to hold of the command of a run target. -/
def DeclaredCommand.Checked (g : Graph) : DeclaredCommand → Prop
  | .generated _ _ => True
  | c@(.run _) => allowsFirstWord g (c.toolsets g) c.firstWord = true

/-- The command a node of the scheduler starts. -/
def scheduledCommand : ActionNode → Option DeclaredCommand
  | .generate r => some (.generated none r)
  | .run t => some (.run t)
  | _ => none

/-- The command an emitted node runs; a configured file is written by a script of its own. -/
def emittedCommand : EmitNode → Option DeclaredCommand
  | .genrule consumer r => if r.configHeader then none else some (.generated consumer r)
  | .target t => if t.kind = .runTarget then some (.run t) else none
  | .stage _ => none

/-- The words a statement runs, those of a run target within its script. -/
def Command.words : Command → List Bytes
  | .phony => []
  | .process command => command.argv
  | .script _ argv => argv

/-- The scheduler starts a declared command, for some label it builds. -/
inductive Started (h : Host) (g : Graph) : DeclaredCommand → List Bytes → Prop where
  | node {node : ActionNode} {c : DeclaredCommand} {action : LoweredAction}
      (hnode : Scheduled h g node) (hcommand : scheduledCommand node = some c)
      (haction : lowerNode h g node = .ok action) : Started h g c action.argv

/-- The Ninja backend emits a declared command for a label. -/
inductive Emitted (g : Graph) (label : Option Bytes) : DeclaredCommand → List Bytes → Prop where
  | edge {order : List EmitNode} {node : EmitNode} {all statements : List Statement}
      {s : Statement} {c : DeclaredCommand} (horder : emitOrder g label = .ok order)
      (hall : emitNinjaGraph g label = .ok all) (hnode : node ∈ order)
      (hcommand : emittedCommand node = some c) (hstatements : node.statements g = .ok statements)
      (hs : s ∈ statements) (hprocess : s.command ≠ .phony) : Emitted g label c s.command.words

/-- A command process of either route. -/
inductive Runs (h : Host) (g : Graph) (c : DeclaredCommand) (argv : List Bytes) : Prop where
  | stella (hstarted : Started h g c argv)
  | ninja {label : Option Bytes} (hemitted : Emitted g label c argv)

/-! ## Routes -/

theorem cons_of_mapM {f : Bytes → Except LoweringError Bytes} {words argv : List Bytes}
    (hwords : words ≠ []) (hargv : words.mapM f = .ok argv) :
    f (words.headD []) = .ok (argv.headD []) := by
  cases words with
  | nil => exact absurd rfl hwords
  | cons word rest =>
    rw [List.mapM_cons] at hargv
    obtain ⟨first, hfirst, hargv⟩ := bind_eq_ok.mp hargv
    obtain ⟨others, -, hargv⟩ := bind_eq_ok.mp hargv
    cases hargv
    exact hfirst

/-- The scheduler resolves the tool of a generated action and then its words. -/
theorem lowerGeneratedAction_argv {r : Genrule} {action : LoweredAction}
    (haction : lowerGeneratedAction g r = .ok action) :
    ∃ tool mode, resolveCommandTool g none r.toolset r.tool = .ok (tool, mode) ∧
      resolveCommandToken g tool = .ok (action.argv.headD []) := by
  obtain ⟨-, haction⟩ := guard_eq_ok.mp haction
  obtain ⟨⟨tool, mode⟩, htool, haction⟩ := bind_eq_ok.mp haction
  obtain ⟨-, -, haction⟩ := bind_eq_ok.mp haction
  obtain ⟨argv, hargv, haction⟩ := bind_eq_ok.mp haction
  obtain ⟨declared, -, haction⟩ := bind_eq_ok.mp haction
  obtain ⟨named, -, haction⟩ := bind_eq_ok.mp haction
  cases haction
  exact ⟨tool, mode, htool, cons_of_mapM (List.cons_ne_nil _ _) hargv⟩

theorem lowerRunAction_argv {t : Target} {action : LoweredAction}
    (haction : lowerRunAction g t = .ok action) :
    resolveCommandToken g (t.runCommand.headD []) = .ok (action.argv.headD []) := by
  obtain ⟨hcommand, haction⟩ := guard_eq_ok.mp haction
  obtain ⟨argv, hargv, haction⟩ := bind_eq_ok.mp haction
  obtain ⟨named, -, haction⟩ := bind_eq_ok.mp haction
  obtain ⟨inputs, -, haction⟩ := bind_eq_ok.mp haction
  cases haction
  exact cons_of_mapM hcommand hargv

theorem emitGenruleEdge_argv {consumer : Option Target} {r : Genrule} {s : Statement}
    (hconfig : r.configHeader = false) (hs : emitGenruleEdge g consumer r = .ok s) :
    ∃ tool mode, resolveCommandTool g consumer r.toolset r.tool = .ok (tool, mode) ∧
      s.command.words.headD [] = tool := by
  obtain ⟨argv, hargv, hs⟩ := bind_eq_ok.mp hs
  obtain ⟨deps, -, hs⟩ := bind_eq_ok.mp hs
  cases hs
  unfold genruleArgv at hargv
  rw [if_neg (by simp [hconfig])] at hargv
  obtain ⟨⟨tool, mode⟩, htool, hargv⟩ := bind_eq_ok.mp hargv
  obtain ⟨-, -, hargv⟩ := bind_eq_ok.mp hargv
  obtain ⟨args, -, hargv⟩ := bind_eq_ok.mp hargv
  cases hargv
  exact ⟨tool, mode, htool, rfl⟩

theorem emitRunEdge_argv {t : Target} {s : Statement} (hs : emitRunEdge g t = .ok s) :
    resolveCommandToken g (t.runCommand.headD []) = .ok (s.command.words.headD []) := by
  obtain ⟨hcommand, hs⟩ := guard_eq_ok.mp hs
  obtain ⟨argv, hargv, hs⟩ := bind_eq_ok.mp hs
  obtain ⟨deps, -, hs⟩ := bind_eq_ok.mp hs
  cases hs
  exact cons_of_mapM hcommand hargv

/-- The process among the statements of a generated action is its edge. -/
theorem statement_of_genrule {consumer : Option Target} {r : Genrule} {statements : List Statement}
    {s : Statement} (hstatements : (EmitNode.genrule consumer r).statements g = .ok statements)
    (hs : s ∈ statements) (hprocess : s.command ≠ .phony) :
    emitGenruleEdge g consumer r = .ok s := by
  obtain ⟨edge, hedge, hstatements⟩ := bind_eq_ok.mp hstatements
  cases hstatements
  simp only [List.mem_cons, List.not_mem_nil, or_false] at hs
  rcases hs with rfl | rfl
  · exact hedge
  · exact absurd rfl hprocess

theorem statements_of_run {t : Target} (hkind : t.kind = .runTarget) :
    (EmitNode.target t).statements g = (do
      let edge ← emitRunEdge g t
      return [edge, outputsAlias g t.label edge.outputs]) := by
  simp [EmitNode.statements, targetStatements, isTypedDependency, hkind]

theorem statement_of_run {t : Target} {statements : List Statement} {s : Statement}
    (hkind : t.kind = .runTarget) (hstatements : (EmitNode.target t).statements g = .ok statements)
    (hs : s ∈ statements) (hprocess : s.command ≠ .phony) : emitRunEdge g t = .ok s := by
  rw [statements_of_run hkind] at hstatements
  obtain ⟨edge, hedge, hstatements⟩ := bind_eq_ok.mp hstatements
  cases hstatements
  simp only [List.mem_cons, List.not_mem_nil, or_false] at hs
  rcases hs with rfl | rfl
  · exact hedge
  · exact absurd rfl hprocess

/-- A first word that a route got from the resolver of the policy. -/
theorem generated_permitted (hpaths : CheckedPaths g) {target : Option Target} {r : Genrule}
    {tool first : Bytes} {mode : ToolMode}
    (hresolve : resolveCommandTool g target r.toolset r.tool = .ok (tool, mode))
    (hfirst : first = tool ∨ resolveCommandToken g tool = .ok first) :
    Permitted g (policyToolsets g target r.toolset) r.tool first := by
  obtain ⟨hpermitted, hstable⟩ := resolveCommandTool_permitted hpaths hresolve
  rcases hfirst with rfl | hfirst
  · exact hpermitted
  · rw [hstable] at hfirst
    cases hfirst
    exact hpermitted

theorem started_permitted_iff (hpaths : CheckedPaths g) {c : DeclaredCommand} {argv : List Bytes}
    (hstarted : Started h g c argv) :
    Permitted g (c.toolsets g) c.firstWord (argv.headD []) ↔ c.Checked g := by
  obtain ⟨hnode, hcommand, haction⟩ := hstarted
  rename_i node action
  cases node with
  | generate r =>
    cases hcommand
    obtain ⟨tool, mode, hresolve, hfirst⟩ := lowerGeneratedAction_argv haction
    simp only [DeclaredCommand.Checked, iff_true]
    exact generated_permitted hpaths hresolve (.inr hfirst)
  | run t =>
    cases hcommand
    exact resolveCommandToken_permitted_iff (lowerRunAction_argv haction)
  | cxxPch t => cases hcommand
  | compile t index => cases hcommand
  | consumerCompile t objectlib index actionIndex => cases hcommand
  | final t => cases hcommand

theorem emitted_permitted_iff (hpaths : CheckedPaths g) {label : Option Bytes}
    {c : DeclaredCommand} {argv : List Bytes} (hemitted : Emitted g label c argv) :
    Permitted g (c.toolsets g) c.firstWord (argv.headD []) ↔ c.Checked g := by
  obtain ⟨-, -, -, hcommand, hstatements, hs, hprocess⟩ := hemitted
  rename_i node _ _ _
  unfold emittedCommand at hcommand
  split at hcommand
  · rename_i consumer r
    split at hcommand
    · cases hcommand
    · rename_i hconfig
      cases hcommand
      obtain ⟨tool, mode, hresolve, hfirst⟩ := emitGenruleEdge_argv (by simpa using hconfig)
        (statement_of_genrule hstatements hs hprocess)
      simp only [DeclaredCommand.Checked, iff_true]
      exact generated_permitted hpaths hresolve (.inl hfirst)
  · split at hcommand
    · rename_i hkind
      cases hcommand
      exact resolveCommandToken_permitted_iff
        (emitRunEdge_argv (statement_of_run hkind hstatements hs hprocess))
    · cases hcommand
  · cases hcommand

/-- The policy holds of a command process exactly where it is a generated action's or the
declaration of its run target keeps it by itself. -/
theorem tool_policy_iff (hpaths : CheckedPaths g) {c : DeclaredCommand} {argv : List Bytes}
    (hruns : Runs h g c argv) :
    Permitted g (c.toolsets g) c.firstWord (argv.headD []) ↔ c.Checked g := by
  cases hruns with
  | stella hstarted => exact started_permitted_iff hpaths hstarted
  | ninja hemitted => exact emitted_permitted_iff hpaths hemitted

/-! ## Run targets past the policy -/

/-- `validate_link_lists` and the graph validators of a word of a run target's command, the
visibility of a target apart -/
def validRunWord (g : Graph) (t : Target) (word : Bytes) : Bool :=
  (resolveTargetFileToken g word).toOption.isSome &&
    match stageDirToken word with
    | .plain => true
    | .malformed => false
    | .payload _ => decide (word ∈ t.runInputs)

/-- A run target that starts a program from the search path. -/
def fetchTarget : Target where
  label := ascii "//:fetch"
  name := ascii "fetch"
  kind := .runTarget
  runCommand := [ascii "curl", ascii "--version"]
  toolset := ascii "//:host"
  label_ne := by decide
  sources_lt := Target.no_sources_lt

/-- Its graph, with a toolset that lists some tools. -/
def fetchGraph (pathTools : List Bytes) : Graph where
  host := ascii "linux"
  platform := []
  buildDir := ascii "build"
  targets := [fetchTarget]
  genrules := []
  stages := []
  toolsets := [⟨ascii "//:host", [], pathTools, [], [], [], ascii "false"⟩]
  languages := []
  labels_nodup := by decide
  objectlib_objects := by decide
  objects_objectlib := by decide

theorem checkedPaths_fetchGraph (pathTools : List Bytes) : CheckedPaths (fetchGraph pathTools) where
  buildDir := show isPackageRelative (ascii "build") = true by decide
  tool := by
    intro t ht hkind
    obtain rfl := List.mem_singleton.mp ht
    cases hkind
  imported := by
    intro t ht a ha
    obtain rfl := List.mem_singleton.mp ht
    cases ha
  provider := by
    intro t ht final hfinal
    obtain rfl := List.mem_singleton.mp ht
    cases hfinal

theorem started_run {t : Target} {argv : List Bytes} (ht : t ∈ g.targets)
    (hkind : t.kind = .runTarget)
    (hargv : (lowerRunAction g t).toOption.map LoweredAction.argv = some argv) :
    Started h g (.run t) argv := by
  obtain ⟨action, haction, rfl⟩ := Option.map_eq_some_iff.mp hargv
  have hnodes : targetNodes h g t = .ok [.run t] := by simp only [targetNodes, hkind, if_true]
  exact .node (.target ht hnodes (List.mem_singleton_self _)) rfl (toOption_eq_some.mp haction)

theorem emitted_run {t : Target} {argv : List Bytes} {label : Option Bytes}
    {order : List EmitNode} (horder : emitOrder g label = .ok order) (ht : .target t ∈ order)
    (hkind : t.kind = .runTarget) (hall : (emitNinjaGraph g label).toOption.isSome = true)
    (hargv : (emitRunEdge g t).toOption.map (fun s => s.command.words) = some argv)
    (hne : argv ≠ []) : Emitted g label (.run t) argv := by
  obtain ⟨all, hall⟩ := exists_eq_ok hall
  obtain ⟨s, hs, rfl⟩ := Option.map_eq_some_iff.mp hargv
  have hstatements : (EmitNode.target t).statements g =
      .ok [s, outputsAlias g t.label s.outputs] := by
    rw [statements_of_run hkind, toOption_eq_some.mp hs]
    rfl
  refine .edge horder hall ht ?_ hstatements List.mem_cons_self ?_
  · simp only [emittedCommand, hkind, if_true]
  · intro hphony
    rw [hphony] at hne
    exact hne rfl

/-- A run target whose program its toolset lists. -/
theorem tool_policy_listed :
    Permitted (fetchGraph [ascii "curl"])
        (DeclaredCommand.toolsets (fetchGraph [ascii "curl"]) (.run fetchTarget)) (ascii "curl")
        (ascii "curl") ↔
      DeclaredCommand.Checked (fetchGraph [ascii "curl"]) (.run fetchTarget) := by
  have hstarted : Started ⟨fun _ => none, fun _ => false⟩ (fetchGraph [ascii "curl"])
      (.run fetchTarget) [ascii "curl", ascii "--version"] :=
    started_run (List.mem_singleton_self _) rfl (by decide)
  exact tool_policy_iff (checkedPaths_fetchGraph _) (.stella hstarted)

/-- Both routes start a program that no toolset lists. -/
theorem unlisted_program_run : CheckedPaths (fetchGraph []) ∧
    fetchTarget.runCommand.all (validRunWord (fetchGraph []) fetchTarget) = true ∧
    (∀ h, Started h (fetchGraph []) (.run fetchTarget) [ascii "curl", ascii "--version"]) ∧
    Emitted (fetchGraph []) (some (ascii "//:fetch")) (.run fetchTarget)
      [ascii "curl", ascii "--version"] ∧
    ¬Permitted (fetchGraph []) (DeclaredCommand.toolsets (fetchGraph []) (.run fetchTarget))
      (ascii "curl") (ascii "curl") := by
  have hargv : (lowerRunAction (fetchGraph []) fetchTarget).toOption.map LoweredAction.argv =
      some [ascii "curl", ascii "--version"] := by decide
  obtain ⟨order, horder⟩ := exists_eq_ok
    (x := emitOrder (fetchGraph []) (some (ascii "//:fetch"))) (by decide)
  have hmem : .target fetchTarget ∈ order := emitOrder_root horder rfl rfl
  refine ⟨checkedPaths_fetchGraph [], by decide,
    fun h => started_run (List.mem_singleton_self _) rfl hargv,
    emitted_run horder hmem rfl (by decide) (by decide) (by simp), ?_⟩
  intro hpermitted
  have hallows := allowsWord_of_permitted hpermitted (by
    intro label selector t htoken
    have hplain : targetFileToken (ascii "curl") = .plain := by decide
    rw [hplain] at htoken
    cases htoken)
  revert hallows
  decide

end QStar.Ninja
