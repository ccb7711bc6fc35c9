import QStar.ProjectCommands.CommandLines
import QStar.Ninja.ToolPolicy

/-!
# What becomes of the items of a command line

An item is written as tokens, the tokens are read when the step is read and again when it
runs. Each token has its own opening, so each reading takes only what was written for it; what
an item stands for is compared with what the readings put in its place.
-/
namespace QStar.ProjectCommands

open QStar.Lib.CStrings
open QStar.Lib.Numerals
open QStar.Lib.Results
open QStar.Base
open QStar.BuildGraph

deriving instance DecidableEq for RuntimeValue

/-! ## Openings -/

section Openings

variable {a b rest : Bytes}

/-- A text with one opening does not have another one. -/
theorem not_prefix_append (hab : ¬ a <+: b) (hba : ¬ b <+: a) : ¬ a <+: b ++ rest := by
  intro h
  rcases List.prefix_or_prefix_of_prefix h (List.prefix_append b rest) with hin | hout
  · exact hab hin
  · exact hba hout

theorem parsePlaceholderIndex_none {s opening : Bytes} (h : ¬ opening <+: s) :
    parsePlaceholderIndex s opening = .none := by rw [parsePlaceholderIndex, if_pos h]

theorem resolveCliPlaceholder_self {inputs outputs : List Bytes} {item : Bytes}
    (hinput : ¬ ascii "<qstar-input:" <+: item) (houtput : ¬ ascii "<qstar-output:" <+: item) :
    resolveCliPlaceholder inputs outputs item = .ok item := by
  rw [resolveCliPlaceholder, parsePlaceholderIndex_none hinput, parsePlaceholderIndex_none houtput]

theorem commandParamTokenName_none {item : Bytes} (h : ¬ ascii "<qstar-command-param:" <+: item) :
    commandParamTokenName item = .none := by
  rw [commandParamTokenName, if_pos (.inr (.inl h))]

theorem commandArgIfTokenParseExec_plain {item : Bytes} (h : ¬ ascii "<qstar-command-arg-if:" <+: item) :
    commandArgIfTokenParseExec item = .plain := by
  rw [commandArgIfTokenParseExec, if_pos h]

theorem tokenPayload_plain {opening word : Bytes} (h : ¬ opening <+: word) :
    tokenPayload opening word = .plain := by
  rw [tokenPayload, if_neg h]

theorem prefix_of_tokenPayload {opening word : Bytes} (h : tokenPayload opening word ≠ .plain) :
    opening <+: word := by
  by_contra hno
  exact h (tokenPayload_plain hno)

/-- What is no token of an option is left to the resolver of artifacts and stages. -/
theorem resolveRuntimeItem_word {g : Graph} {runtime : Runtime} {item : Bytes}
    (hparam : ¬ ascii "<qstar-command-param:" <+: item)
    (hargIf : ¬ ascii "<qstar-command-arg-if:" <+: item) :
    resolveRuntimeItem g runtime item = resolvedWord g item := by
  rw [resolveRuntimeItem, commandParamTokenName_none hparam, commandArgIfTokenParseExec_plain hargIf]

end Openings

/-! ## Tokens -/

section Tokens

variable {g : Graph} {runtime : Runtime} {name arg token : Bytes}

/-- A token that fits its buffer. -/
theorem formatted_eq_ok {e : ArgvError} {text : Bytes}
    (h : formatted e (printInto 4096 text) = .ok token) : token = text ∧ text.length < 4096 := by
  unfold formatted at h
  split at h
  · cases h
  · rename_i printed hprinted
    cases h
    obtain ⟨rfl, hroom⟩ := printInto_eq_some.mp hprinted
    exact ⟨rfl, hroom⟩

theorem valid_name (h : validCommandOptionRefName name = true) :
    name ≠ [] ∧ ∀ c ∈ name, c ≠ 58 ∧ c ≠ 0 := by
  cases name with
  | nil => cases h
  | cons c name =>
    rw [validCommandOptionRefName, commandOptionNameValid, Bool.and_eq_true, List.all_eq_true] at h
    obtain ⟨hfirst, hrest⟩ := h
    refine ⟨List.cons_ne_nil c name, ?_⟩
    intro b hb
    rcases List.mem_cons.mp hb with rfl | hb
    · constructor
      · rintro rfl
        exact absurd hfirst (by decide)
      · rintro rfl
        exact absurd hfirst (by decide)
    · have hvalid := hrest b hb
      constructor
      · rintro rfl
        exact absurd hvalid (by decide)
      · rintro rfl
        exact absurd hvalid (by decide)

theorem dropLast_bracket (s : Bytes) : (s ++ ascii ">").dropLast = s := List.dropLast_concat

/-- The token of `qstar.param` is read as its name. -/
theorem commandParamTokenName_format (hne : name ≠ []) :
    commandParamTokenName (ascii "<qstar-command-param:" ++ (name ++ ascii ">")) =
      if 128 ≤ name.length then .malformed else .option name := by
  have hpos := List.length_pos_of_ne_nil hne
  have hlen : (ascii "<qstar-command-param:" ++ (name ++ ascii ">")).length =
      (ascii "<qstar-command-param:").length + name.length + 1 := by
    simp only [List.length_append]
    rfl
  have hlast : (ascii "<qstar-command-param:" ++ (name ++ ascii ">")).getLast? = some 62 := by
    rw [← List.append_assoc]
    exact List.getLast?_concat
  rw [commandParamTokenName, if_neg, hlen, List.drop_left, dropLast_bracket]
  · congr 1
    rw [eq_iff_iff]
    omega
  · rw [hlen, hlast]
    intro h
    rcases h with h | h | h
    · omega
    · exact h (List.prefix_append _ _)
    · exact h rfl

/-- Up to the first colon, and from there on. -/
theorem splits_at_colon (hcolon : 58 ∉ name) (rest : Bytes) :
    (name ++ 58 :: rest).takeWhile (· ≠ 58) = name ∧
      (name ++ 58 :: rest).dropWhile (· ≠ 58) = 58 :: rest := by
  have hall : ∀ c ∈ name, decide (c ≠ 58) = true := by
    intro c hc
    rw [decide_eq_true_eq]
    rintro rfl
    exact hcolon hc
  constructor
  · rw [List.takeWhile_append_of_pos hall]
    simp
  · rw [List.dropWhile_append_of_pos hall]
    simp

/-- The token of `arg_if` is read as its name and its argument: the length says where the
argument ends, whatever is in it. -/
theorem commandArgIfTokenParseExec_format (hne : name ≠ []) (hcolon : 58 ∉ name)
    (hroom : arg.length < 4096) :
    commandArgIfTokenParseExec (ascii "<qstar-command-arg-if:" ++
      (name ++ (ascii ":" ++ (printUnsigned 10 arg.length ++ (ascii ":" ++ (arg ++ ascii ">")))))) =
      if 128 ≤ name.length then .malformed else .token name arg := by
  have hmark : ascii ":" = [58] := rfl
  have hend : ascii ">" = [62] := rfl
  obtain ⟨hname, hrest⟩ := splits_at_colon hcolon (printUnsigned 10 arg.length ++ 58 :: (arg ++ [62]))
  have hlen : strtol (printUnsigned 10 arg.length ++ 58 :: (arg ++ [62])) =
      (↑arg.length, 58 :: (arg ++ [62])) := by
    apply strtol_printUnsigned
    · omega
    · intro c hc
      cases hc
      decide
  rw [commandArgIfTokenParseExec, if_neg (not_not.mpr (List.prefix_append _ _)), List.drop_left, hmark,
    hend, List.singleton_append, List.singleton_append, hname, hrest]
  by_cases hlong : 128 ≤ name.length
  · rw [if_pos (.inr (.inr hlong)), if_pos hlong]
  · have hshort : ¬ (58 :: (printUnsigned 10 arg.length ++ 58 :: (arg ++ [62])) = [] ∨ name = [] ∨
        128 ≤ name.length) := by
      simp [hne, hlong]
    rw [if_neg hshort, if_neg hlong, List.drop_one, List.tail_cons, hlen]
    dsimp only
    rw [if_neg, List.drop_one, List.tail_cons, Int.toNat_natCast, List.drop_left, if_pos rfl,
      List.take_left]
    rintro (h | h | h)
    · exact h rfl
    · omega
    · rw [Int.toNat_natCast] at h
      omega

end Tokens

/-! ## Artifacts and stages -/

/-- What the rest of the code has checked of a graph whose commands run. -/
structure DeclaredGraph (g : Graph) : Prop where
  /-- Targets are declared under canonical labels. -/
  targets : ∀ t ∈ g.targets, 58 ∈ t.label
  /-- Generated actions are declared under canonical labels. -/
  genrules : ∀ r ∈ g.genrules, 58 ∈ r.label
  paths : Ninja.CheckedPaths g
  /-- `push_genrule_output` -/
  outputs : ∀ r ∈ g.genrules, ∀ path ∈ r.outputs, isPackageRelative path = true
  /-- `add_stage` -/
  roots : ∀ s ∈ g.stages, s.root = [] ∨ isPackageRelative s.root = true

/-- The artifact of a target that a selector selects, or the first output of a generated
action. -/
def targetFilePath (g : Graph) (label artifact : Bytes) : Option Bytes :=
  match findTarget g label with
  | some t =>
    if t.kind = .group ∨ t.kind = .objectlib then none
    else if artifact = ascii "@tool" then (targetToolPath g t).toOption
    else (targetArtifactPath g t artifact).toOption
  | none =>
    match findGenrule g label with
    | some genrule => if artifact = [] then some (genrule.outputs.head genrule.outputs_ne) else none
    | none => none

/-- The root of a stage. -/
def stageRoot (g : Graph) (label : Bytes) : Option Bytes :=
  (findStage g label).map fun stage => if stage.root = [] then ascii "." else stage.root

section Paths

variable {g : Graph} {label artifact path item : Bytes}

theorem targetFilePath_of_resolve (htoken : targetFileToken item = .targetFile label artifact)
    (h : resolveTargetFileToken g item = .ok path) : targetFilePath g label artifact = some path := by
  unfold resolveTargetFileToken at h
  simp only [htoken] at h
  unfold targetFilePath
  cases htarget : findTarget g label with
  | none =>
    simp only [htarget] at h ⊢
    cases hgenrule : findGenrule g label with
    | none =>
      simp only [hgenrule] at h
      cases h
    | some genrule =>
      simp only [hgenrule] at h ⊢
      by_cases hselector : artifact = []
      · rw [if_neg (not_not.mpr hselector)] at h
        rw [if_pos hselector, Except.ok.inj h]
      · rw [if_pos hselector] at h
        cases h
  | some t =>
    simp only [htarget] at h ⊢
    split at h
    · cases h
    rename_i hgroup
    split at h
    · cases h
    rename_i hobjectlib
    rw [if_neg (not_or.mpr ⟨hgroup, hobjectlib⟩)]
    split at h
    · rename_i htool
      rw [if_pos htool]
      exact toOption_eq_some.mpr h
    · rename_i htool
      rw [if_neg htool]
      exact toOption_eq_some.mpr h

/-- No path of a graph begins like a token. -/
theorem targetFilePath_no_token (hg : DeclaredGraph g) {opening : Bytes}
    (hcolon : opening.getLast? = some 58) (hslash : 47 ∉ opening)
    (h : targetFilePath g label artifact = some path) : ¬ opening <+: path := by
  have hin : 58 ∈ opening := List.mem_of_getLast? hcolon
  have hrelative {word : Bytes} (hword : isPackageRelative word = true) : ¬ opening <+: word := by
    intro hstart
    exact Ninja.notMem_of_isPackageRelative hword (hstart.subset hin)
  unfold targetFilePath at h
  split at h
  · rename_i t htarget
    have hmem := findTarget_mem htarget
    have hartifact {artifacts : List Artifact} (hartifacts : targetArtifactMap g t = .ok artifacts)
        {a : Artifact} (ha : a ∈ artifacts) : ¬ opening <+: a.path := by
      rcases Ninja.artifact_path hg.paths hmem hartifacts ha with hword | ⟨tail, htail⟩
      · exact hrelative hword
      · rw [htail]
        exact Ninja.not_prefix_buildPath hcolon hslash hg.paths.buildDir
    split at h
    · cases h
    split at h
    · obtain ⟨artifacts, hartifacts, a, ha, rfl⟩ :=
        Ninja.targetToolPath_artifact (toOption_eq_some.mp h)
      exact hartifact hartifacts ha
    · obtain ⟨artifacts, hartifacts, a, ha, rfl⟩ :=
        Ninja.targetArtifactPath_artifact (toOption_eq_some.mp h)
      exact hartifact hartifacts ha
  · split at h
    · rename_i genrule hgenrule
      obtain ⟨-, h⟩ := Option.ite_none_right_eq_some.mp h
      cases h
      exact hrelative (hg.outputs genrule (findGenrule_mem hgenrule) _ (List.head_mem _))
    · cases h

theorem stageRoot_no_token (hg : DeclaredGraph g) {opening : Bytes} (hcolon : opening.getLast? = some 58)
    (h : stageRoot g label = some path) : ¬ opening <+: path := by
  have hin : 58 ∈ opening := List.mem_of_getLast? hcolon
  obtain ⟨stage, hstage, rfl⟩ := Option.map_eq_some_iff.mp h
  intro hstart
  have hmem := hstart.subset hin
  split at hmem
  · exact absurd hmem (by decide)
  · rename_i hroot
    have hrelative := (hg.roots stage (List.mem_of_find?_eq_some hstage)).resolve_left hroot
    exact Ninja.notMem_of_isPackageRelative hrelative hmem

theorem tokenPayload_format {opening text : Bytes} (hne : text ≠ []) :
    tokenPayload opening (opening ++ (text ++ ascii ">")) = .payload text := by
  have hpos := List.length_pos_of_ne_nil hne
  have hrest : ¬ ((text ++ ascii ">").length ≤ 1 ∨ (text ++ ascii ">").getLast? ≠ some 62) := by
    have hlast : (text ++ ascii ">").getLast? = some 62 := List.getLast?_concat
    have hlen : (text ++ ascii ">").length = text.length + 1 := List.length_append
    rw [hlast, hlen]
    rintro (h | h)
    · omega
    · exact h rfl
  rw [tokenPayload, if_pos (List.prefix_append _ _)]
  dsimp only
  rw [List.drop_left, if_neg hrest, dropLast_bracket]

/-- The token of a label without `#` is read as its label and its selector. -/
theorem targetFileToken_format (hne : label ≠ []) (hhash : 35 ∉ label) :
    targetFileToken (ascii "<qstar-target-file:" ++
      (label ++ ((if artifact = [] then [] else ascii "#" ++ artifact) ++ ascii ">"))) =
      .targetFile label artifact := by
  have hall : ∀ c ∈ label, decide (c ≠ 35) = true := by
    intro c hc
    rw [decide_eq_true_eq]
    rintro rfl
    exact hhash hc
  have hmark : ascii "#" = [35] := rfl
  rw [← List.append_assoc label, targetFileToken, tokenPayload_format (by simp [hne])]
  dsimp only
  rw [List.takeWhile_append_of_pos hall, List.dropWhile_append_of_pos hall, hmark, List.singleton_append]
  by_cases hartifact : artifact = []
  · simp [hartifact, hne]
  · simp [hartifact, hne]

/-- A label with `#` comes from a directory with it; its token is read as a label no target and
no generated action has. -/
theorem resolveTargetFileToken_hash (hg : DeclaredGraph g) {tail : Bytes} (hne : label ≠ [])
    (hhash : 35 ∈ label) (hcolon : 58 ∉ label.takeWhile (· ≠ 35)) :
    resolveTargetFileToken g (ascii "<qstar-target-file:" ++ ((label ++ tail) ++ ascii ">")) ≠ .ok path := by
  have hstart : (label ++ tail).takeWhile (· ≠ 35) = label.takeWhile (· ≠ 35) := by
    rw [List.takeWhile_append, if_neg]
    intro hlen
    have hwhole : label.takeWhile (· ≠ 35) = label :=
      (List.takeWhile_prefix _).eq_of_length hlen
    have hin : 35 ∈ label.takeWhile (· ≠ 35) := by
      rw [hwhole]
      exact hhash
    exact absurd (List.mem_takeWhile_imp hin) (by decide)
  have htarget : findTarget g (label.takeWhile (· ≠ 35)) = none := by
    cases hfound : findTarget g (label.takeWhile (· ≠ 35)) with
    | none => rfl
    | some t => exact absurd (findTarget_label hfound ▸ hg.targets t (findTarget_mem hfound)) hcolon
  have hgenrule : findGenrule g (label.takeWhile (· ≠ 35)) = none := by
    cases hfound : findGenrule g (label.takeWhile (· ≠ 35)) with
    | none => rfl
    | some r => exact absurd (findGenrule_label hfound ▸ hg.genrules r (findGenrule_mem hfound)) hcolon
  intro h
  unfold resolveTargetFileToken at h
  split at h
  · rename_i hplain
    rw [targetFileToken, tokenPayload_format (by simp [hne])] at hplain
    dsimp only at hplain
    split at hplain
    · cases hplain
    split at hplain
    · cases hplain
    · split at hplain
      · cases hplain
      · cases hplain
  · cases h
  · rename_i found selector htoken
    have hfound : found = label.takeWhile (· ≠ 35) := by
      rw [targetFileToken, tokenPayload_format (by simp [hne])] at htoken
      dsimp only at htoken
      rw [hstart] at htoken
      split at htoken
      · cases htoken
      split at htoken
      · cases htoken
        rfl
      · split at htoken
        · cases htoken
        · cases htoken
          rfl
    rw [hfound, htarget, hgenrule] at h
    cases h

theorem resolvedWord_eq_ok {words : List Bytes} (h : resolvedWord g item = .ok words) :
    ∃ word, resolveCommandToken g item = .ok word ∧ words = [word] := by
  unfold resolvedWord at h
  split at h
  · cases h
  · rename_i word hword
    split at h
    · cases h
      exact ⟨word, hword, rfl⟩
    · cases h

/-- The token of `target_file` and `tool_file` becomes the path it stands for. -/
theorem resolvedWord_targetFile (hg : DeclaredGraph g) (hne : label ≠ [])
    (hhash : 35 ∈ label → 58 ∉ label.takeWhile (· ≠ 35)) {words : List Bytes}
    (h : resolvedWord g (ascii "<qstar-target-file:" ++
      (label ++ ((if artifact = [] then [] else ascii "#" ++ artifact) ++ ascii ">"))) = .ok words) :
    (targetFilePath g label artifact).map ([·]) = some words := by
  obtain ⟨word, hword, rfl⟩ := resolvedWord_eq_ok h
  rw [resolveCommandToken, stageDirToken, tokenPayload_plain (not_prefix_append (by decide) (by decide))]
    at hword
  by_cases hmem : 35 ∈ label
  · rw [← List.append_assoc label] at hword
    exact absurd hword (resolveTargetFileToken_hash hg hne hmem (hhash hmem))
  · rw [targetFilePath_of_resolve (targetFileToken_format hne hmem) hword]
    rfl

/-- The token of `stage_dir` becomes the root of the stage. -/
theorem resolvedWord_stageDir (hne : label ≠ []) {words : List Bytes}
    (h : resolvedWord g (ascii "<qstar-stage-dir:" ++ (label ++ ascii ">")) = .ok words) :
    (stageRoot g label).map ([·]) = some words := by
  obtain ⟨word, hword, rfl⟩ := resolvedWord_eq_ok h
  rw [resolveCommandToken, stageDirToken, tokenPayload_format hne] at hword
  dsimp only at hword
  split at hword
  · cases hword
  · rename_i stage hstage
    cases hword
    rw [stageRoot, hstage]
    rfl

end Paths

/-! ## What items stand for -/

/-- What an input of the step stands for: a literal is itself. -/
def inputMeaning (g : Graph) (item : CliItem) : Option Bytes :=
  match item.call with
  | .literal s => some s
  | .targetFile raw artifact =>
    (canonicalizeInto (cString raw) item.dir 4096).bind fun label =>
      targetFilePath g label ((artifact.map cString).getD [])
  | .toolFile raw =>
    (canonicalizeInto (cString raw) item.dir 4096).bind fun label => targetFilePath g label (ascii "@tool")
  | .stageDir raw => (canonicalizeInto (cString raw) item.dir 4096).bind (stageRoot g)
  | _ => none

/-- The arguments of a conditional, where its option is on. -/
def conditionalMeaning (runtime : Runtime) (name : Bytes) (args : List Bytes) : Option (List Bytes) :=
  if args = [] then some []
  else (commandRuntimeValueForName runtime name).map fun slot => if slot.boolValue then args else []

/-- The words an item stands for. -/
def meaning (g : Graph) (runtime : Runtime) (inputs : List CliItem) (item : CliItem) : Option (List Bytes) :=
  match item.call with
  | .input index => ((inputs[index.toInt.toNat]?).bind (inputMeaning g)).map ([·])
  | .param name => (commandRuntimeValueForName runtime (cString name)).map commandValueAppendArgv
  | .argIf name arg => conditionalMeaning runtime (cString name) [arg]
  | .argsIf name args => conditionalMeaning runtime (cString name) args
  | _ => (inputMeaning g item).map ([·])

/-! ## What the readings put in their place -/

/-- What becomes of a token when the step is read and run. -/
def tokenWords (g : Graph) (runtime : Runtime) (texts : List Bytes) (token : Bytes) :
    Except ArgvError (List Bytes) :=
  resolveCliPlaceholder texts [] (cString token) >>= resolveRuntimeItem g runtime

/-- What becomes of an item. -/
def itemWords (g : Graph) (runtime : Runtime) (texts : List Bytes) (item : CliItem) :
    Except ArgvError (List Bytes) := do
  let value ← item.value
  let tokens ← pushCliItem value
  let words ← tokens.mapM (tokenWords g runtime texts)
  return words.flatten

/-- A text that is read as a token when the step runs. -/
def ReadsAsToken (s : Bytes) : Prop :=
  commandParamTokenName s ≠ .none ∨ commandArgIfTokenParseExec s ≠ .plain ∨
    stageDirToken s ≠ .plain ∨ targetFileToken s ≠ .plain

/-- A literal among the inputs that has no NUL and is not read as a token, or is read as the
token of an option that was given this very text. -/
def KeptInput (runtime : Runtime) (s : Bytes) : Prop :=
  (0 ∉ s ∧ ¬ ReadsAsToken s) ∨
    ∃ name slot, commandParamTokenName (cString s) = .option name ∧
      commandRuntimeValueForName runtime name = some slot ∧ commandValueAppendArgv slot = [s]

/-- Arguments of a conditional that have no NUL, where its option is on. -/
def KeptArguments (runtime : Runtime) (name : Bytes) (args : List Bytes) : Prop :=
  ∀ slot, commandRuntimeValueForName runtime name = some slot → slot.boolValue = true →
    ∀ arg ∈ args, 0 ∉ arg

/-- An item whose texts are kept. -/
def Kept (runtime : Runtime) (inputs : List CliItem) (item : CliItem) : Prop :=
  match item.call with
  | .literal s => 0 ∉ s
  | .input index =>
    ∀ source s, inputs[index.toInt.toNat]? = some source → source.call = .literal s → KeptInput runtime s
  | .argIf name arg => KeptArguments runtime (cString name) [arg]
  | .argsIf name args => KeptArguments runtime (cString name) args
  | _ => True

section Words

variable {g : Graph} {runtime : Runtime} {texts words : List Bytes} {s name arg token : Bytes}

theorem cString_eq_iff : cString s = s ↔ 0 ∉ s := by
  constructor
  · intro h hzero
    rw [← h, cString] at hzero
    exact absurd (List.mem_takeWhile_imp hzero) (by decide)
  · exact cString_eq_self

theorem zero_notMem_cString : 0 ∉ cString s := by
  intro hzero
  rw [cString] at hzero
  exact absurd (List.mem_takeWhile_imp hzero) (by decide)

theorem cString_isPrefix (s : Bytes) : cString s <+: s := List.takeWhile_prefix _

theorem strtol_length_le (text : Bytes) : (strtol text).2.length ≤ text.length := by
  have hbody := (List.dropWhile_sublist isSpace (l := text)).length_le
  unfold strtol
  dsimp only
  split
  · exact le_refl _
  · refine le_trans (List.dropWhile_sublist _).length_le ?_
    split
    · rw [List.length_drop]
      omega
    · exact hbody

/-- The argument in a token of `arg_if` is shorter than the token. -/
theorem argument_length_lt (h : commandArgIfTokenParseExec token = .token name arg) :
    arg.length < token.length := by
  unfold commandArgIfTokenParseExec at h
  dsimp only at h
  split at h
  · cases h
  split at h
  · cases h
  split at h
  · cases h
  split at h
  · rename_i hend
    cases h
    have hrest := (List.dropWhile_sublist (· ≠ 58)
      (l := token.drop (ascii "<qstar-command-arg-if:").length)).length_le
    have hstop := strtol_length_le (((token.drop (ascii "<qstar-command-arg-if:").length).dropWhile
      (· ≠ 58)).drop 1)
    have hlen := congrArg List.length hend
    simp only [List.length_drop, List.length_singleton] at hlen hrest hstop
    rw [List.length_take, List.length_drop]
    omega
  · cases h

theorem valueOfToken_eq_ok {slot : RuntimeValue} (h : valueOfToken runtime name = .ok slot) :
    commandRuntimeValueForName runtime name = some slot := by
  unfold valueOfToken at h
  split at h
  · cases h
  · rename_i found hfound
    cases h
    exact hfound

/-- What the resolver of artifacts and stages makes of a text is the text, or a path that does
not begin like a token. -/
theorem resolveCommandToken_cases (hg : DeclaredGraph g) {item word : Bytes}
    (h : resolveCommandToken g item = .ok word) :
    (stageDirToken item = .plain ∧ targetFileToken item = .plain ∧ word = item) ∨
      (stageDirToken item ≠ .plain ∧ ¬ ascii "<qstar-stage-dir:" <+: word) ∨
      (targetFileToken item ≠ .plain ∧ ¬ ascii "<qstar-target-file:" <+: word) := by
  unfold resolveCommandToken at h
  split at h
  · rename_i hstage
    cases htoken : targetFileToken item with
    | plain =>
      refine .inl ⟨hstage, rfl, ?_⟩
      unfold resolveTargetFileToken at h
      simp only [htoken] at h
      exact (Except.ok.inj h).symm
    | malformed =>
      unfold resolveTargetFileToken at h
      simp only [htoken] at h
      cases h
    | targetFile label artifact =>
      refine .inr (.inr ⟨nofun, ?_⟩)
      exact targetFilePath_no_token hg (by decide) (by decide) (targetFilePath_of_resolve htoken h)
  · cases h
  · rename_i label hstage
    split at h
    · cases h
    · rename_i stage hfound
      refine .inr (.inl ⟨?_, ?_⟩)
      · rw [hstage]
        nofun
      · cases h
        exact stageRoot_no_token hg (by decide) (by rw [stageRoot, hfound]; rfl)

/-- The words put in for a literal among the inputs are the literal just where it is kept. -/
theorem input_text_iff (hg : DeclaredGraph g)
    (h : resolveRuntimeItem g runtime (cString s) = .ok words) : [s] = words ↔ KeptInput runtime s := by
  have hself : 0 ∉ s → cString s = s := cString_eq_self
  unfold resolveRuntimeItem at h
  split at h
  · cases h
  · rename_i name hname
    -- the token of `qstar.param`
    obtain ⟨slot, hslot, hwords⟩ := map_eq_ok.mp h
    have hvalue := valueOfToken_eq_ok hslot
    constructor
    · intro heq
      exact .inr ⟨name, slot, hname, hvalue, hwords.trans heq.symm⟩
    · rintro (⟨hzero, htoken⟩ | ⟨name', slot', hname', hvalue', hgiven⟩)
      · rw [hself hzero] at hname
        refine absurd (.inl ?_) htoken
        rw [hname]
        nofun
      · rw [hname] at hname'
        cases hname'
        rw [hvalue] at hvalue'
        cases hvalue'
        exact hgiven.symm.trans hwords
  · rename_i hparam
    have hnone : ¬ ∃ name slot, commandParamTokenName (cString s) = .option name ∧
        commandRuntimeValueForName runtime name = some slot ∧ commandValueAppendArgv slot = [s] := by
      rintro ⟨name, slot, hname, -⟩
      rw [hparam] at hname
      cases hname
    split at h
    · cases h
    · rename_i name arg hargIf
      -- the token of `arg_if`, whose argument is shorter than it
      obtain ⟨slot, -, hwords⟩ := bind_eq_ok.mp h
      have hshort : arg.length < s.length :=
        lt_of_lt_of_le (argument_length_lt hargIf) (cString_isPrefix s).length_le
      refine iff_of_false ?_ ?_
      · intro heq
        unfold argIfWords at hwords
        split at hwords
        · cases hwords
        · have hgiven := (Except.ok.inj hwords).trans heq.symm
          split at hgiven
          · cases hgiven
            omega
          · cases hgiven
      · rintro (⟨hzero, htoken⟩ | hgiven)
        · rw [hself hzero] at hargIf
          refine absurd (.inr (.inl ?_)) htoken
          rw [hargIf]
          nofun
        · exact hnone hgiven
    · rename_i hargIf
      obtain ⟨word, hword, rfl⟩ := resolvedWord_eq_ok h
      have hopens {opening : Bytes} (hstart : opening <+: cString s) (hno : ¬ opening <+: word) :
          [s] ≠ [word] := by
        intro heq
        cases heq
        exact hno (hstart.trans (cString_isPrefix s))
      rcases resolveCommandToken_cases hg hword with ⟨hstage, htarget, rfl⟩ | ⟨hstage, hno⟩ | ⟨htarget, hno⟩
      · constructor
        · intro heq
          have hzero : 0 ∉ s := cString_eq_iff.mp (List.singleton_inj.mp heq).symm
          rw [hself hzero] at hparam hargIf hstage htarget
          refine .inl ⟨hzero, ?_⟩
          rintro (hread | hread | hread | hread)
          · exact hread hparam
          · exact hread hargIf
          · exact hread hstage
          · exact hread htarget
        · rintro (⟨hzero, -⟩ | hgiven)
          · rw [hself hzero]
          · exact absurd hgiven hnone
      · refine iff_of_false (hopens (prefix_of_tokenPayload hstage) hno) ?_
        rintro (⟨hzero, htoken⟩ | hgiven)
        · rw [hself hzero] at hstage
          exact htoken (.inr (.inr (.inl hstage)))
        · exact hnone hgiven
      · have hstart : ascii "<qstar-target-file:" <+: cString s := by
          by_contra hplain
          exact htarget (Ninja.targetFileToken_plain (tokenPayload_plain hplain))
        refine iff_of_false (hopens hstart hno) ?_
        rintro (⟨hzero, htoken⟩ | hgiven)
        · rw [hself hzero] at htarget
          exact htoken (.inr (.inr (.inr htarget)))
        · exact hnone hgiven

/-- A token that is not for an input or an output waits until the step runs. -/
theorem tokenWords_later (hzero : 0 ∉ token) (hinput : ¬ ascii "<qstar-input:" <+: token)
    (houtput : ¬ ascii "<qstar-output:" <+: token) :
    tokenWords g runtime texts token = resolveRuntimeItem g runtime token := by
  rw [tokenWords, cString_eq_self hzero, resolveCliPlaceholder_self hinput houtput]
  rfl

theorem zero_notMem_digits (n : Nat) : 0 ∉ printUnsigned 10 n := fun hzero =>
  absurd (printUnsigned_isDigit hzero) (by decide)

theorem tokenWords_param (hname : validCommandOptionRefName name = true)
    (h : tokenWords g runtime texts (ascii "<qstar-command-param:" ++ (name ++ ascii ">")) = .ok words) :
    (commandRuntimeValueForName runtime name).map commandValueAppendArgv = some words := by
  obtain ⟨hne, hbytes⟩ := valid_name hname
  have hzero : 0 ∉ ascii "<qstar-command-param:" ++ (name ++ ascii ">") := by
    simp only [List.mem_append, not_or]
    exact ⟨by decide, fun hmem => (hbytes 0 hmem).2 rfl, by decide⟩
  rw [tokenWords_later hzero (not_prefix_append (by decide) (by decide))
    (not_prefix_append (by decide) (by decide)), resolveRuntimeItem, commandParamTokenName_format hne] at h
  split at h
  · cases h
  · rename_i found hfound
    obtain ⟨slot, hslot, rfl⟩ := map_eq_ok.mp h
    split at hfound
    · cases hfound
    · cases hfound
      rw [valueOfToken_eq_ok hslot]
      rfl
  · rename_i hfound
    split at hfound
    · cases hfound
    · cases hfound

/-- The words put in for an argument of a conditional. -/
theorem tokenWords_argIf (hname : validCommandOptionRefName name = true) (hroom : arg.length < 4096)
    (hzero : 0 ∉ arg)
    (h : tokenWords g runtime texts (ascii "<qstar-command-arg-if:" ++ (name ++ (ascii ":" ++
      (printUnsigned 10 arg.length ++ (ascii ":" ++ (arg ++ ascii ">")))))) = .ok words) :
    conditionalMeaning runtime name [arg] = some words := by
  obtain ⟨hne, hbytes⟩ := valid_name hname
  have hcolon : 58 ∉ name := fun hmem => (hbytes 58 hmem).1 rfl
  have htoken : 0 ∉ ascii "<qstar-command-arg-if:" ++ (name ++ (ascii ":" ++
      (printUnsigned 10 arg.length ++ (ascii ":" ++ (arg ++ ascii ">"))))) := by
    simp only [List.mem_append, not_or]
    exact ⟨by decide, fun hmem => (hbytes 0 hmem).2 rfl, by decide, zero_notMem_digits _, by decide,
      hzero, by decide⟩
  rw [tokenWords_later htoken (not_prefix_append (by decide) (by decide))
    (not_prefix_append (by decide) (by decide)), resolveRuntimeItem,
    commandParamTokenName_none (not_prefix_append (by decide) (by decide)),
    commandArgIfTokenParseExec_format hne hcolon hroom] at h
  dsimp only at h
  split at h
  · cases h
  · rename_i name' arg' hfound
    split at hfound
    · cases hfound
    · cases hfound
      obtain ⟨slot, hslot, hwords⟩ := bind_eq_ok.mp h
      rw [conditionalMeaning, if_neg (List.cons_ne_nil _ _), valueOfToken_eq_ok hslot]
      unfold argIfWords at hwords
      split at hwords
      · cases hwords
      · exact congrArg some (Except.ok.inj hwords)
  · rename_i hfound
    split at hfound
    · cases hfound
    · cases hfound

theorem conditionalMeaning_cons {args rest : List Bytes}
    (hfirst : conditionalMeaning runtime name [arg] = some words)
    (hrest : conditionalMeaning runtime name args = some rest) :
    conditionalMeaning runtime name (arg :: args) = some (words ++ rest) := by
  rw [conditionalMeaning, if_neg (List.cons_ne_nil _ _)] at hfirst ⊢
  obtain ⟨slot, hslot, rfl⟩ := Option.map_eq_some_iff.mp hfirst
  rw [conditionalMeaning, hslot] at hrest
  rw [hslot]
  split at hrest
  · rename_i hnil
    cases hrest
    rw [hnil, List.append_nil]
    rfl
  · cases hrest
    rw [Option.map_some]
    dsimp only
    cases slot.boolValue with
    | false => rfl
    | true => rfl

/-- Arguments are put in up to their first NUL. -/
theorem arguments_iff {args : List Bytes} (h : conditionalMeaning runtime name (args.map cString) = some words) :
    conditionalMeaning runtime name args = some words ↔ KeptArguments runtime name args := by
  cases args with
  | nil => exact iff_of_true h fun _ _ _ => nofun
  | cons arg args =>
    rw [conditionalMeaning, if_neg (by simp)] at h
    obtain ⟨slot, hslot, hwords⟩ := Option.map_eq_some_iff.mp h
    rw [conditionalMeaning, if_neg (List.cons_ne_nil _ _), KeptArguments, hslot, Option.map_some]
    cases hon : slot.boolValue with
    | false =>
      rw [hon] at hwords
      refine iff_of_true (congrArg some hwords) ?_
      intro slot' hslot' hbool
      cases hslot'
      rw [hon] at hbool
      cases hbool
    | true =>
      have hself : (arg :: args).map cString = arg :: args ↔ ∀ a ∈ arg :: args, 0 ∉ a := by
        have hinj := List.map_inj_left (l := arg :: args) (f := cString) (g := id)
        simpa only [List.map_id, id_eq, cString_eq_iff] using hinj
      rw [hon, if_pos rfl] at hwords
      rw [if_pos rfl, ← hwords, Option.some.injEq, eq_comm, hself]
      constructor
      · intro hzero _ _ _
        exact hzero
      · intro hkept
        exact hkept slot rfl hon

theorem tokenWords_input {index : Nat} (hindex : index < 2 ^ 63) (h : tokenWords g runtime texts
      (ascii "<qstar-input:" ++ (printUnsigned 10 index ++ ascii ">")) = .ok words) :
    ∃ text, texts[index]? = some text ∧ resolveRuntimeItem g runtime text = .ok words := by
  have hzero : 0 ∉ ascii "<qstar-input:" ++ (printUnsigned 10 index ++ ascii ">") := by
    simp only [List.mem_append, not_or]
    exact ⟨by decide, zero_notMem_digits _, by decide⟩
  have hread : parsePlaceholderIndex (ascii "<qstar-input:" ++ (printUnsigned 10 index ++ ascii ">"))
      (ascii "<qstar-input:") = .index index := by
    have hend : strtol (printUnsigned 10 index ++ ascii ">") = (↑index, [62]) := by
      apply strtol_printUnsigned hindex
      intro c hc
      cases hc
      decide
    rw [parsePlaceholderIndex, if_neg (not_not.mpr (List.prefix_append _ _)), List.drop_left, hend]
    rfl
  obtain ⟨text, htext, hwords⟩ := bind_eq_ok.mp h
  rw [cString_eq_self hzero, resolveCliPlaceholder, hread] at htext
  dsimp only at htext
  rw [itemAt, if_neg (by omega), Int.toNat_natCast] at htext
  split at htext
  · cases htext
  · rename_i found hfound
    cases htext
    exact ⟨text, hfound, hwords⟩

/-- A run step has no outputs. -/
theorem tokenWords_output {index : Nat} : tokenWords g runtime texts
    (ascii "<qstar-output:" ++ (printUnsigned 10 index ++ ascii ">")) ≠ .ok words := by
  have hzero : 0 ∉ ascii "<qstar-output:" ++ (printUnsigned 10 index ++ ascii ">") := by
    simp only [List.mem_append, not_or]
    exact ⟨by decide, zero_notMem_digits _, by decide⟩
  intro h
  obtain ⟨text, htext, -⟩ := bind_eq_ok.mp h
  rw [cString_eq_self hzero, resolveCliPlaceholder,
    parsePlaceholderIndex_none (not_prefix_append (by decide) (by decide))] at htext
  dsimp only at htext
  split at htext
  · unfold itemAt at htext
    split at htext
    · cases htext
    · cases htext
  · cases htext
  · rename_i hplain
    rw [parsePlaceholderIndex, if_neg (not_not.mpr (List.prefix_append _ _))] at hplain
    dsimp only at hplain
    split at hplain
    · cases hplain
    · cases hplain

theorem tokenWords_literal (hliteral : ¬ ascii "<qstar-" <+: s)
    (h : tokenWords g runtime texts s = .ok words) : words = [cString s] := by
  have hstart {opening : Bytes} (hopening : ascii "<qstar-" <+: opening) : ¬ opening <+: cString s :=
    fun hs => hliteral (hopening.trans (hs.trans (cString_isPrefix s)))
  rw [tokenWords, resolveCliPlaceholder_self (hstart (by decide)) (hstart (by decide))] at h
  change resolveRuntimeItem g runtime (cString s) = .ok words at h
  rw [resolveRuntimeItem_word (hstart (by decide)) (hstart (by decide))] at h
  obtain ⟨word, hword, rfl⟩ := resolvedWord_eq_ok h
  rw [Ninja.resolveCommandToken_plain (tokenPayload_plain (hstart (by decide)))
    (Ninja.targetFileToken_plain (tokenPayload_plain (hstart (by decide))))] at hword
  rw [Except.ok.inj hword]

end Words

/-! ## Items -/

section Items

variable {g : Graph} {runtime : Runtime} {texts words : List Bytes} {label artifact dir raw name : Bytes}

/-- What is known of a label that a call took. -/
structure TakenLabel (label : Bytes) : Prop where
  ne_nil : label ≠ []
  zero : 0 ∉ label
  /-- Where the directory has a `#`, the label has no colon before it. -/
  hash : 35 ∈ label → 58 ∉ label.takeWhile (· ≠ 35)

theorem checkLabel_ok (hdir : 58 ∉ dir ∧ 0 ∉ dir) (h : checkLabel dir raw = .ok label) :
    canonicalizeInto (cString raw) dir 4096 = some label ∧ TakenLabel label := by
  unfold checkLabel at h
  split at h
  · cases h
  rename_i found hcanonical
  cases h
  refine ⟨hcanonical, ?_⟩
  rcases canonicalizeInto_bytes hcanonical with hbytes | ⟨name, hname, rfl⟩
  · refine ⟨?_, ?_, ?_⟩
    · rintro rfl
      rcases canonicalizeInto_cases hcanonical with ⟨_, -, -, h, -⟩ | ⟨_, h, h', -⟩ | ⟨_, h, h', -⟩
      · cases h
      · rw [h] at h'
        cases h'
      · rw [h] at h'
        cases h'
    · intro hmem
      exact absurd (hbytes 0 hmem) (by decide)
    · intro hmem
      exact absurd (hbytes 35 hmem) (by decide)
  · have hplain : ∀ c ∈ name, c ≠ 0 ∧ c ≠ 35 := by
      intro c hc
      have hvalid := mem_validSpan hname hc
      constructor
      · rintro rfl
        exact absurd hvalid (by decide)
      · rintro rfl
        exact absurd hvalid (by decide)
    refine ⟨List.cons_ne_nil _ _, ?_, ?_⟩
    · simp only [List.mem_append, not_or]
      exact ⟨⟨⟨by decide, hdir.2⟩, by decide⟩, fun hmem => (hplain 0 hmem).1 rfl⟩
    · intro hmem hcolon
      simp only [List.mem_append] at hmem
      have hin : 35 ∈ dir := by
        rcases hmem with ((hmem | hmem) | hmem) | hmem
        · exact absurd hmem (by decide)
        · exact hmem
        · exact absurd hmem (by decide)
        · exact absurd rfl (hplain 35 hmem).2
      -- the label is cut inside of the directory
      have hcut : (ascii "//" ++ dir ++ ascii ":" ++ name).takeWhile (· ≠ 35) <+: ascii "//" ++ dir := by
        have hpre : ascii "//" ++ dir <+: ascii "//" ++ dir ++ ascii ":" ++ name := by
          rw [List.append_assoc (ascii "//" ++ dir)]
          exact List.prefix_append _ _
        rcases List.prefix_or_prefix_of_prefix (List.takeWhile_prefix _) hpre with hin' | hout
        · exact hin'
        · have hhash := hout.subset (List.mem_append_right _ hin)
          exact absurd (List.mem_takeWhile_imp hhash) (by decide)
      rcases List.mem_append.mp (hcut.subset hcolon) with hslash | hmem
      · exact absurd hslash (by decide)
      · exact hdir.1 hmem

theorem checkName_ok {found : Bytes} (h : checkName name = .ok found) :
    found = cString name ∧ validCommandOptionRefName found = true := by
  unfold checkName at h
  split at h
  · rename_i hvalid
    cases h
    exact ⟨rfl, hvalid⟩
  · cases h

theorem checkIndex_ok {index : Int64} {n : Nat} (h : checkIndex index = .ok n) :
    n = index.toInt.toNat ∧ n < 2 ^ 63 := by
  unfold checkIndex at h
  split at h
  · cases h
  · cases h
    have hlt := Int64.toInt_lt index
    exact ⟨rfl, by omega⟩

theorem zero_notMem_selector (h : validArtifactSelector artifact = true) : 0 ∉ artifact := by
  rw [validArtifactSelector, decide_eq_true_eq] at h
  intro hmem
  exact absurd (List.all_eq_true.mp h.2 0 hmem) (by decide)

/-- A label and a selector that `target_file` or `tool_file` took. -/
theorem checkSelector_ok {selector : Option Bytes} {value : CliValue}
    (h : checkSelector label selector = .ok value) :
    value = .targetFile label ((selector.map cString).getD []) ∧ 0 ∉ (selector.map cString).getD [] := by
  unfold checkSelector at h
  split at h
  · cases h
    exact ⟨rfl, List.not_mem_nil⟩
  · split at h
    · rename_i hvalid
      cases h
      exact ⟨rfl, zero_notMem_selector hvalid⟩
    · cases h

/-- The token of `target_file` when the step runs. -/
theorem targetFile_words (hg : DeclaredGraph g) (hlabel : TakenLabel label)
    (h : resolveRuntimeItem g runtime (ascii "<qstar-target-file:" ++
      (label ++ ((if artifact = [] then [] else ascii "#" ++ artifact) ++ ascii ">"))) = .ok words) :
    (targetFilePath g label artifact).map ([·]) = some words := by
  rw [resolveRuntimeItem_word (not_prefix_append (by decide) (by decide))
    (not_prefix_append (by decide) (by decide))] at h
  exact resolvedWord_targetFile hg hlabel.ne_nil hlabel.hash h

theorem stageDir_words (hlabel : TakenLabel label)
    (h : resolveRuntimeItem g runtime (ascii "<qstar-stage-dir:" ++ (label ++ ascii ">")) = .ok words) :
    (stageRoot g label).map ([·]) = some words := by
  rw [resolveRuntimeItem_word (not_prefix_append (by decide) (by decide))
    (not_prefix_append (by decide) (by decide))] at h
  exact resolvedWord_stageDir hlabel.ne_nil h

/-- The words put in for an input are what it stands for just where it is kept. -/
theorem input_iff (hg : DeclaredGraph g) {item : CliItem} {value : CliValue} {text : Bytes}
    (hvalue : item.value = .ok value) (hread : readStepInput value = .ok text)
    (h : resolveRuntimeItem g runtime text = .ok words) :
    (inputMeaning g item).map ([·]) = some words ↔ ∀ s, item.call = .literal s → KeptInput runtime s := by
  unfold CliItem.value at hvalue
  unfold inputMeaning
  cases hcall : item.call with
  | literal s =>
    simp only [hcall] at hvalue ⊢
    cases hvalue
    rw [readStepInput] at hread
    split at hread
    · cases hread
    · cases hread
      rw [Option.map_some, Option.some.injEq, input_text_iff hg h]
      constructor
      · intro hkept s' hs'
        cases hs'
        exact hkept
      · intro hall
        exact hall s rfl
  | targetFile raw selector =>
    simp only [hcall] at hvalue ⊢
    obtain ⟨label, hlabel, hvalue⟩ := bind_eq_ok.mp hvalue
    obtain ⟨hcanonical, htaken⟩ := checkLabel_ok item.dir_plain hlabel
    obtain ⟨rfl, -⟩ := checkSelector_ok hvalue
    obtain ⟨rfl, -⟩ := formatted_eq_ok hread
    rw [hcanonical]
    exact iff_of_true (targetFile_words hg htaken h) nofun
  | toolFile raw =>
    simp only [hcall] at hvalue ⊢
    obtain ⟨label, hlabel, rfl⟩ := map_eq_ok.mp hvalue
    obtain ⟨hcanonical, htaken⟩ := checkLabel_ok item.dir_plain hlabel
    obtain ⟨rfl, -⟩ := formatted_eq_ok hread
    rw [hcanonical]
    exact iff_of_true (targetFile_words hg htaken h) nofun
  | stageDir raw =>
    simp only [hcall] at hvalue ⊢
    obtain ⟨label, hlabel, rfl⟩ := map_eq_ok.mp hvalue
    obtain ⟨hcanonical, htaken⟩ := checkLabel_ok item.dir_plain hlabel
    obtain ⟨rfl, -⟩ := formatted_eq_ok hread
    rw [hcanonical]
    exact iff_of_true (stageDir_words htaken h) nofun
  | input index =>
    simp only [hcall] at hvalue
    obtain ⟨n, -, rfl⟩ := map_eq_ok.mp hvalue
    cases hread
  | output index =>
    simp only [hcall] at hvalue
    obtain ⟨n, -, rfl⟩ := map_eq_ok.mp hvalue
    cases hread
  | param name =>
    simp only [hcall] at hvalue
    obtain ⟨n, -, rfl⟩ := map_eq_ok.mp hvalue
    cases hread
  | argIf name arg =>
    simp only [hcall] at hvalue
    obtain ⟨n, -, rfl⟩ := map_eq_ok.mp hvalue
    cases hread
  | argsIf name args =>
    simp only [hcall] at hvalue
    obtain ⟨n, -, rfl⟩ := map_eq_ok.mp hvalue
    cases hread

/-- The item among the inputs that a text comes from. -/
theorem readStepInputs_getElem? {inputs : List CliItem} (h : readStepInputs inputs = .ok texts) {i : Nat}
    {text : Bytes} (htext : texts[i]? = some text) :
    ∃ source value, inputs[i]? = some source ∧ source.value = .ok value ∧ readStepInput value = .ok text := by
  obtain ⟨values, hvalues, hread⟩ := bind_eq_ok.mp h
  obtain ⟨value, hvalue, htext⟩ := mapM_eq_ok_getElem? hread htext
  obtain ⟨source, hsource, hvalue⟩ := mapM_eq_ok_getElem? hvalues hvalue
  exact ⟨source, value, hsource, hvalue, htext⟩

theorem flatten_of_singleton {token : Bytes} {parts : List (List Bytes)}
    (h : [token].mapM (tokenWords g runtime texts) = .ok parts) :
    tokenWords g runtime texts token = .ok parts.flatten := by
  rw [List.mapM_cons, bind_eq_ok] at h
  obtain ⟨words, hwords, h⟩ := h
  rw [List.mapM_nil, pure_bind] at h
  cases h
  rw [hwords, List.flatten_cons, List.flatten_nil, List.append_nil]

/-- An item with one token. -/
theorem singleToken_words {token : Option Bytes} {tokens : List Bytes} {parts : List (List Bytes)}
    (hpush : (formatted .unsupportedItem token).map ([·]) = .ok tokens)
    (hparts : tokens.mapM (tokenWords g runtime texts) = .ok parts) :
    ∃ text, formatted .unsupportedItem token = .ok text ∧
      tokenWords g runtime texts text = .ok parts.flatten := by
  obtain ⟨text, htext, rfl⟩ := map_eq_ok.mp hpush
  exact ⟨text, htext, flatten_of_singleton hparts⟩

theorem targetFileToken_words (hg : DeclaredGraph g) (hlabel : TakenLabel label) (hzero : 0 ∉ artifact)
    (h : tokenWords g runtime texts (ascii "<qstar-target-file:" ++
      (label ++ ((if artifact = [] then [] else ascii "#" ++ artifact) ++ ascii ">"))) = .ok words) :
    (targetFilePath g label artifact).map ([·]) = some words := by
  have hselector : 0 ∉ if artifact = [] then [] else ascii "#" ++ artifact := by
    split
    · exact List.not_mem_nil
    · rw [List.mem_append, not_or]
      exact ⟨by decide, hzero⟩
  have htoken : 0 ∉ ascii "<qstar-target-file:" ++
      (label ++ ((if artifact = [] then [] else ascii "#" ++ artifact) ++ ascii ">")) := by
    simp only [List.mem_append, not_or]
    exact ⟨by decide, hlabel.zero, hselector, by decide⟩
  rw [tokenWords_later htoken (not_prefix_append (by decide) (by decide))
    (not_prefix_append (by decide) (by decide))] at h
  exact targetFile_words hg hlabel h

theorem stageDirToken_words (hlabel : TakenLabel label)
    (h : tokenWords g runtime texts (ascii "<qstar-stage-dir:" ++ (label ++ ascii ">")) = .ok words) :
    (stageRoot g label).map ([·]) = some words := by
  have htoken : 0 ∉ ascii "<qstar-stage-dir:" ++ (label ++ ascii ">") := by
    simp only [List.mem_append, not_or]
    exact ⟨by decide, hlabel.zero, by decide⟩
  rw [tokenWords_later htoken (not_prefix_append (by decide) (by decide))
    (not_prefix_append (by decide) (by decide))] at h
  exact stageDir_words hlabel h

/-- The token of a conditional argument that fits its buffer. -/
theorem argIfToken_words (hname : validCommandOptionRefName name = true) {arg token : Bytes}
    (hformat : formatted .unsupportedItem (formatCommandArgIfToken name (cString arg)) = .ok token)
    (h : tokenWords g runtime texts token = .ok words) :
    conditionalMeaning runtime name [cString arg] = some words := by
  obtain ⟨rfl, hroom⟩ := formatted_eq_ok hformat
  refine tokenWords_argIf hname ?_ zero_notMem_cString h
  simp only [List.length_append] at hroom
  omega

/-- The arguments of `args_if` become tokens and words one by one. -/
theorem argsIf_words (hname : validCommandOptionRefName name = true) {args : List Bytes}
    {parts : List (List Bytes)} (h : args.mapM (fun arg => formatted .unsupportedItem
      (formatCommandArgIfToken name (cString arg)) >>= tokenWords g runtime texts) = .ok parts) :
    conditionalMeaning runtime name (args.map cString) = some parts.flatten := by
  induction args generalizing parts with
  | nil =>
    cases h
    rfl
  | cons arg args ih =>
    rw [List.mapM_cons, bind_eq_ok] at h
    obtain ⟨words, hwords, h⟩ := h
    obtain ⟨rest, hrest, h⟩ := bind_eq_ok.mp h
    cases h
    obtain ⟨token, htoken, hwords⟩ := bind_eq_ok.mp hwords
    exact conditionalMeaning_cons (argIfToken_words hname htoken hwords) (ih hrest)

/-- The words put in for an item are what it stands for just where its texts are kept. -/
theorem item_iff (hg : DeclaredGraph g) {inputs : List CliItem} (htexts : readStepInputs inputs = .ok texts)
    {item : CliItem} (hliteral : ∀ s, item.call = .literal s → ¬ ascii "<qstar-" <+: s)
    (h : itemWords g runtime texts item = .ok words) :
    meaning g runtime inputs item = some words ↔ Kept runtime inputs item := by
  obtain ⟨value, hvalue, h⟩ := bind_eq_ok.mp h
  obtain ⟨tokens, hpush, h⟩ := bind_eq_ok.mp h
  obtain ⟨parts, hparts, h⟩ := bind_eq_ok.mp h
  cases h
  unfold CliItem.value at hvalue
  unfold meaning inputMeaning Kept
  cases hcall : item.call with
  | literal s =>
    simp only [hcall] at hvalue ⊢
    cases hvalue
    cases hpush
    rw [tokenWords_literal (hliteral s hcall) (flatten_of_singleton hparts), Option.map_some,
      Option.some.injEq, List.singleton_inj, eq_comm, cString_eq_iff]
  | input index =>
    simp only [hcall] at hvalue ⊢
    obtain ⟨n, hindex, rfl⟩ := map_eq_ok.mp hvalue
    obtain ⟨rfl, hlt⟩ := checkIndex_ok hindex
    obtain ⟨token, htoken, hwords⟩ := singleToken_words hpush hparts
    obtain ⟨rfl, -⟩ := formatted_eq_ok htoken
    obtain ⟨text, htext, hwords⟩ := tokenWords_input hlt hwords
    obtain ⟨source, value, hsource, hvalue, hread⟩ := readStepInputs_getElem? htexts htext
    have hinput := input_iff hg hvalue hread hwords
    rw [hsource]
    refine Iff.trans hinput ?_
    constructor
    · intro hkept source' s hsource' hs
      cases hsource'
      exact hkept s hs
    · intro hall s hs
      exact hall source s rfl hs
  | output index =>
    simp only [hcall] at hvalue
    obtain ⟨n, -, rfl⟩ := map_eq_ok.mp hvalue
    obtain ⟨token, htoken, hwords⟩ := singleToken_words hpush hparts
    obtain ⟨rfl, -⟩ := formatted_eq_ok htoken
    exact absurd hwords tokenWords_output
  | targetFile raw selector =>
    simp only [hcall] at hvalue ⊢
    obtain ⟨label, hlabel, hvalue⟩ := bind_eq_ok.mp hvalue
    obtain ⟨hcanonical, htaken⟩ := checkLabel_ok item.dir_plain hlabel
    obtain ⟨rfl, hzero⟩ := checkSelector_ok hvalue
    obtain ⟨token, htoken, hwords⟩ := singleToken_words hpush hparts
    obtain ⟨rfl, -⟩ := formatted_eq_ok htoken
    rw [hcanonical]
    exact iff_of_true (targetFileToken_words hg htaken hzero hwords) trivial
  | toolFile raw =>
    simp only [hcall] at hvalue ⊢
    obtain ⟨label, hlabel, rfl⟩ := map_eq_ok.mp hvalue
    obtain ⟨hcanonical, htaken⟩ := checkLabel_ok item.dir_plain hlabel
    obtain ⟨token, htoken, hwords⟩ := singleToken_words hpush hparts
    obtain ⟨rfl, -⟩ := formatted_eq_ok htoken
    rw [hcanonical]
    exact iff_of_true (targetFileToken_words hg htaken (by decide) hwords) trivial
  | stageDir raw =>
    simp only [hcall] at hvalue ⊢
    obtain ⟨label, hlabel, rfl⟩ := map_eq_ok.mp hvalue
    obtain ⟨hcanonical, htaken⟩ := checkLabel_ok item.dir_plain hlabel
    obtain ⟨token, htoken, hwords⟩ := singleToken_words hpush hparts
    obtain ⟨rfl, -⟩ := formatted_eq_ok htoken
    rw [hcanonical]
    exact iff_of_true (stageDirToken_words htaken hwords) trivial
  | param name =>
    simp only [hcall] at hvalue ⊢
    obtain ⟨found, hname, rfl⟩ := map_eq_ok.mp hvalue
    obtain ⟨rfl, hvalid⟩ := checkName_ok hname
    obtain ⟨token, htoken, hwords⟩ := singleToken_words hpush hparts
    obtain ⟨rfl, -⟩ := formatted_eq_ok htoken
    exact iff_of_true (tokenWords_param hvalid hwords) trivial
  | argIf name arg =>
    simp only [hcall] at hvalue ⊢
    obtain ⟨found, hname, rfl⟩ := map_eq_ok.mp hvalue
    obtain ⟨rfl, hvalid⟩ := checkName_ok hname
    obtain ⟨token, htoken, hwords⟩ := singleToken_words hpush hparts
    have hwords := argIfToken_words hvalid htoken hwords
    exact @arguments_iff runtime _ (cString name) [arg] hwords
  | argsIf name args =>
    simp only [hcall] at hvalue ⊢
    obtain ⟨found, hname, rfl⟩ := map_eq_ok.mp hvalue
    obtain ⟨rfl, hvalid⟩ := checkName_ok hname
    exact arguments_iff (argsIf_words hvalid (mapM_mapM_eq_ok hpush hparts))

end Items

/-! ## Runs -/

section Runs

variable {g : Graph} {command : ProjectCommand} {runtime : Runtime} {cli inputs : List CliItem}
  {argv : List Bytes}

/-- The argv of a run step is what becomes of its items, one after another. -/
theorem runStepArgv_parts (h : runStepArgv g command runtime cli inputs = .ok argv) :
    ∃ texts parts, readStepInputs inputs = .ok texts ∧
      cli.mapM (itemWords g runtime texts) = .ok parts ∧ argv = parts.flatten := by
  obtain ⟨runCommand, hread, h⟩ := bind_eq_ok.mp h
  obtain ⟨_, -, h⟩ := bind_eq_ok.mp h
  obtain ⟨found, hfound, h⟩ := bind_eq_ok.mp h
  have hargv : found = argv := by
    split at h
    · cases h
    · exact Except.ok.inj h
  subst hargv
  obtain ⟨words, hwords, hfound⟩ := bind_eq_ok.mp hfound
  cases hfound
  obtain ⟨tokens, htokens, hread⟩ := bind_eq_ok.mp hread
  obtain ⟨texts, htexts, hread⟩ := bind_eq_ok.mp hread
  obtain ⟨values, hvalues, htokens⟩ := bind_eq_ok.mp htokens
  obtain ⟨lists, hlists, htokens⟩ := bind_eq_ok.mp htokens
  cases htokens
  rw [List.mapM_map] at hread
  obtain ⟨parts, hparts, rfl⟩ := mapM_flatten_eq_ok (mapM_mapM_eq_ok hread hwords)
  have hjoin : parts.mapM (fun words => (pure words.flatten : Except ArgvError (List Bytes))) =
      .ok (parts.map List.flatten) := List.mapM_pure
  have hitems := mapM_mapM_eq_ok hvalues (mapM_mapM_eq_ok hlists (mapM_mapM_eq_ok hparts hjoin))
  exact ⟨texts, parts.map List.flatten, htexts, hitems, List.flatten_flatten⟩

/-- The items of a run step are replaced by what they stand for just where the texts that are put
in for them are kept: they have no NUL, and a literal among the inputs is not read as a token. -/
theorem runStepArgv_meaning_iff (hg : DeclaredGraph g)
    (hliterals : ∀ item ∈ cli, ∀ s, item.call = .literal s → ¬ ascii "<qstar-" <+: s)
    (h : runStepArgv g command runtime cli inputs = .ok argv) :
    ∃ texts parts, readStepInputs inputs = .ok texts ∧
      cli.mapM (itemWords g runtime texts) = .ok parts ∧ argv = parts.flatten ∧
      (cli.mapM (meaning g runtime inputs) = some parts ↔ ∀ item ∈ cli, Kept runtime inputs item) := by
  obtain ⟨texts, parts, htexts, hparts, hargv⟩ := runStepArgv_parts h
  refine ⟨texts, parts, htexts, hparts, hargv, ?_⟩
  apply mapM_eq_some_iff _ hparts
  intro item hitem words hwords
  exact item_iff hg htexts (hliterals item hitem) hwords

end Runs

/-- A graph without targets. -/
def plainGraph : Graph where
  host := ascii "linux"
  platform := ascii "linux"
  buildDir := ascii "build/qstar"
  targets := []
  genrules := []
  stages := []
  toolsets := []
  languages := []
  labels_nodup := Graph.no_labels_nodup
  objectlib_objects := Graph.no_objectlib_objects
  objects_objectlib := Graph.no_objects_objectlib

theorem plainGraph_declared : DeclaredGraph plainGraph where
  targets t ht := absurd ht List.not_mem_nil
  genrules r hr := absurd hr List.not_mem_nil
  paths := {
    buildDir := by decide +kernel
    tool := fun t ht => absurd ht List.not_mem_nil
    imported := fun t ht => absurd ht List.not_mem_nil
    provider := fun t ht => absurd ht List.not_mem_nil }
  outputs r hr := absurd hr List.not_mem_nil
  roots s hs := absurd hs List.not_mem_nil

/-- `--mode`, a text. -/
def modeOption : CommandOption := { name := ascii "mode", type := .string }

/-- `--v`, a switch. -/
def verboseOption : CommandOption := { name := ascii "v", type := .bool }

def showCommand : ProjectCommand where
  name := ascii "show"
  options := [modeOption, verboseOption]
  options_valid := by decide
  options_nodup := by decide
  list_default := by decide

/-- `--mode=fast --v` -/
def showRuntime : Runtime :=
  [⟨modeOption, ascii "fast", false, [], true⟩, ⟨verboseOption, ascii "true", true, [], true⟩]

/-- A tool, an option, conditional arguments that look like parts of tokens, and an input. -/
def showCli : List CliItem :=
  [{ call := .literal (ascii "cc") }, { call := .param (ascii "mode") },
    { call := .argsIf (ascii "v") [ascii "1:a>", ascii "2"] }, { call := .input 0 }]

theorem runStepArgv_meaning_show :
    ∃ texts parts, readStepInputs [{ call := .literal (ascii "a.txt") }] = .ok texts ∧
      showCli.mapM (itemWords plainGraph showRuntime texts) = .ok parts ∧
      [ascii "cc", ascii "fast", ascii "1:a>", ascii "2", ascii "a.txt"] = parts.flatten ∧
      (showCli.mapM (meaning plainGraph showRuntime [{ call := .literal (ascii "a.txt") }]) = some parts ↔
        ∀ item ∈ showCli, Kept showRuntime [{ call := .literal (ascii "a.txt") }] item) := by
  apply @runStepArgv_meaning_iff _ showCommand _ _ _ _ plainGraph_declared
  · intro item hitem s hs
    simp only [showCli, List.mem_cons, List.not_mem_nil, or_false] at hitem
    rcases hitem with rfl | rfl | rfl | rfl
    · cases hs
      decide
    · cases hs
    · cases hs
    · cases hs
  · decide +kernel

/-- An input that is a text like a token of `qstar.param` gives the value of the option. -/
theorem input_read_as_option :
    DeclaredGraph plainGraph ∧
      parseProjectCommandArgs showCommand [ascii "--mode=fast", ascii "--v"] = .ok showRuntime ∧
      runStepArgv plainGraph showCommand showRuntime
        [{ call := .literal (ascii "printf") }, { call := .input 0 }]
        [{ call := .literal (ascii "<qstar-command-param:mode>") }] = .ok [ascii "printf", ascii "fast"] ∧
      ([{ call := .literal (ascii "printf") }, { call := .input 0 }] : List CliItem).mapM
        (meaning plainGraph showRuntime [{ call := .literal (ascii "<qstar-command-param:mode>") }]) =
        some [[ascii "printf"], [ascii "<qstar-command-param:mode>"]] :=
  ⟨plainGraph_declared, by decide +kernel, by decide +kernel, by decide +kernel⟩

end QStar.ProjectCommands
