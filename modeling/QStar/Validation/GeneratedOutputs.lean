import QStar.Base.Containment
import QStar.Lowering.Commands
import QStar.Staging.Stage
import Mathlib.Data.List.Nodup
import Mathlib.Data.List.Pairwise

/-!
# Validation of generated outputs

The checks on what generated actions, stages and run targets produce and read. The
outputs of all actions are compared as they are written, and they are below the
generated directory if they begin with it.
-/
namespace QStar.Validation

open QStar.Lib.CStrings QStar.Lib.FileTrees
open QStar.Lib.Results
open QStar.Base QStar.BuildGraph
open QStar.Lowering (resolveCommandTool)
open QStar.Staging (StageError validateStage)

/-- `struct qstar_target_family` -/
structure TargetFamily where
  name : Bytes
  targets : List Bytes

/-- What validation reads of a graph besides its targets, actions and stages. -/
structure Declarations where
  /-- `project.generated_dir` -/
  generatedDir : Bytes
  visibility : Target → List Bytes
  families : List TargetFamily

inductive GeneratedError where
  | emptyTool (owner : Bytes)
  | malformedToken (owner token : Bytes)
  | notVisible (owner label : Bytes)
  | withoutArtifact (owner token : Bytes) (error : LoweringError)
  | toolRefused (owner : Bytes) (error : LoweringError)
  | malformedInput (owner input : Bytes)
  | dependsOnItself (owner : Bytes)
  | groupInput (owner label : Bytes)
  | objectlibInput (owner label : Bytes)
  | selectorOnGenerated (owner artifact label : Bytes)
  | unknownInput (owner label : Bytes)
  | inputNotRelative (owner input : Bytes)
  | consumesOwnOutput (owner input : Bytes)
  | outputNotRelative (owner output : Bytes)
  | outputNotGenerated (owner output : Bytes)
  | multipleProducers (owner output : Bytes)
  | malformedStageDir (owner : Bytes)
  | stageDirInAction (owner : Bytes)
  | stageDirNotInput (owner : Bytes)
  | unknownStage (owner label : Bytes)
  | stage (owner : Bytes) (error : StageError)
  | unknownFamilyTarget (family label : Bytes)

/-- `qstar_graph_generated_dir` -/
def effectiveGeneratedDir (d : Declarations) : Bytes :=
  if d.generatedDir = [] then ascii "generated" else d.generatedDir

/-- `qstar_graph_path_is_generated` -/
def pathIsGenerated (d : Declarations) (path : Bytes) : Bool :=
  path ≠ [] && decide (effectiveGeneratedDir d ++ ascii "/" <+: path) &&
    decide ((effectiveGeneratedDir d).length + 1 < path.length)

/-- `qstar_label_package_path` -/
def labelPackagePath (label : Bytes) : Option Bytes :=
  if ascii "//" <+: label then (splitLast 58 (label.drop 2)).map Prod.fst else none

/-- `visibility_pattern_matches` -/
def visibilityPatternMatches (pattern consumerLabel consumerPackage : Bytes) : Bool :=
  if pattern = ascii "//..." then true
  else if pattern = consumerLabel then true
  else if !decide (ascii "//" <+: pattern) then false
  else if ascii ":..." <:+ pattern then
    (pattern.drop 2).take (pattern.length - 6) = consumerPackage
  else false

/-- `target_visible_to_label` -/
def targetVisibleToLabel (d : Declarations) (dep : Target) (consumerLabel : Bytes) : Bool :=
  match labelPackagePath dep.label, labelPackagePath consumerLabel with
  | some depPackage, some consumerPackage =>
    depPackage = consumerPackage || (d.visibility dep).isEmpty ||
      (d.visibility dep).any fun pattern =>
        visibilityPatternMatches pattern consumerLabel consumerPackage
  | _, _ => false

/-- `validate_target_file_artifact_ref` -/
def validateTargetFileArtifactRef (d : Declarations) (g : Graph) (owner token : Bytes) :
    Except GeneratedError Unit :=
  match targetFileToken token with
  | .plain => .ok ()
  | .malformed => .error (.malformedToken owner token)
  | .targetFile label artifact =>
    if (findTarget g label).any fun t =>
        (artifact = ascii "@tool" || t.kind = .imported || t.kind = .tool) &&
          !targetVisibleToLabel d t owner then
      .error (.notVisible owner label)
    else
      match resolveTargetFileToken g token with
      | .ok _ => .ok ()
      | .error e => .error (.withoutArtifact owner token e)

/-- The loop of `validate_genrule` over the inputs. -/
def validateInput (d : Declarations) (g : Graph) (r : Genrule) (path : Bytes) :
    Except GeneratedError Unit :=
  match targetFileToken path with
  | .malformed => .error (.malformedInput r.label path)
  | .targetFile label artifact =>
    if label = r.label then .error (.dependsOnItself r.label)
    else
      match findTarget g label with
      | some t =>
        if t.kind = .group then .error (.groupInput r.label label)
        else if t.kind = .objectlib then .error (.objectlibInput r.label label)
        else validateTargetFileArtifactRef d g r.label path
      | none =>
        if (findGenrule g label).isNone then .error (.unknownInput r.label label)
        else if artifact ≠ [] then .error (.selectorOnGenerated r.label artifact label)
        else .ok ()
  | .plain =>
    if !isPackageRelative path then .error (.inputNotRelative r.label path)
    else if pathIsGenerated d path &&
        (findOutputOwner g path).any fun owner => owner.label = r.label then
      .error (.consumesOwnOutput r.label path)
    else .ok ()

/-- An output of an action that is not its output of this index has the same path. -/
def hasOtherProducer (g : Graph) (r : Genrule) (path : Bytes) (index : Nat) : Bool :=
  g.genrules.any fun other => other.outputs.zipIdx.any fun (output, k) =>
    !(other.label = r.label && k = index) && path = output

/-- The loop of `validate_genrule` over the outputs. -/
def validateOutput (d : Declarations) (g : Graph) (r : Genrule) (output : Bytes × Nat) :
    Except GeneratedError Unit :=
  if !isPackageRelative output.1 then .error (.outputNotRelative r.label output.1)
  else if !pathIsGenerated d output.1 then .error (.outputNotGenerated r.label output.1)
  else if hasOtherProducer g r output.1 output.2 then .error (.multipleProducers r.label output.1)
  else .ok ()

/-- The checks of `validate_genrule` on the tool. -/
def validateTool (d : Declarations) (g : Graph) (r : Genrule) : Except GeneratedError Unit :=
  if r.tool = [] then .error (.emptyTool r.label)
  else do
    validateTargetFileArtifactRef d g r.label r.tool
    if r.configHeader then pure ()
    else
      match resolveCommandTool g none [] r.tool with
      | .ok _ => pure ()
      | .error e => throw (.toolRefused r.label e)

/-- `validate_genrule`; an action without outputs is none. -/
def validateGenrule (d : Declarations) (g : Graph) (r : Genrule) : Except GeneratedError Unit := do
  validateTool d g r
  r.inputs.forM (validateInput d g r)
  r.outputs.zipIdx.forM (validateOutput d g r)

/-- The words of a generated action. -/
def validateArg (d : Declarations) (g : Graph) (owner arg : Bytes) : Except GeneratedError Unit := do
  validateTargetFileArtifactRef d g owner arg
  match stageDirToken arg with
  | .plain => pure ()
  | .malformed => throw (.malformedStageDir owner)
  | .payload _ => throw (.stageDirInAction owner)

/-- The words of a run target. -/
def validateRunArg (d : Declarations) (g : Graph) (t : Target) (arg : Bytes) :
    Except GeneratedError Unit := do
  validateTargetFileArtifactRef d g t.label arg
  match stageDirToken arg with
  | .plain => pure ()
  | .malformed => throw (.malformedStageDir t.label)
  | .payload _ => if arg ∈ t.runInputs then pure () else throw (.stageDirNotInput t.label)

/-- The inputs of a run target. -/
def validateRunInput (d : Declarations) (g : Graph) (t : Target) (input : Bytes) :
    Except GeneratedError Unit := do
  validateTargetFileArtifactRef d g t.label input
  match stageDirToken input with
  | .plain => pure ()
  | .malformed => throw (.malformedStageDir t.label)
  | .payload label =>
    if (findStage g label).isSome then pure () else throw (.unknownStage t.label label)

/-- `validate_target_family` -/
def validateTargetFamily (g : Graph) (family : TargetFamily) : Except GeneratedError Unit :=
  family.targets.forM fun label =>
    if (findTarget g label).isSome then .ok () else .error (.unknownFamilyTarget family.name label)

/-- `qstar_graph_validate_generated_outputs` -/
def validateGeneratedOutputs (d : Declarations) (g : Graph) : Except GeneratedError Unit := do
  g.genrules.forM (validateGenrule d g)
  g.genrules.forM fun r => r.args.forM (validateArg d g r.label)
  g.stages.forM fun s =>
    match validateStage (targetVisibleToLabel d) g s with
    | .ok _ => pure ()
    | .error e => throw (.stage s.label e)
  g.targets.forM fun t => do
    t.runCommand.forM (validateRunArg d g t)
    t.runInputs.forM (validateRunInput d g t)
  d.families.forM (validateTargetFamily g)

/-! ## What validation has checked -/

/-- The outputs of all actions. -/
def allOutputs (g : Graph) : List Bytes := g.genrules.flatMap Genrule.outputs

/-- What an output is called below the generated directory. -/
def outputName (d : Declarations) (output : Bytes) : Bytes :=
  output.drop ((effectiveGeneratedDir d).length + 1)

section Checked

variable {d : Declarations} {g : Graph} {r : Genrule} {output : Bytes}

theorem validateGenrule_ok (h : validateGenrule d g r = .ok ()) :
    ∀ indexed ∈ r.outputs.zipIdx, validateOutput d g r indexed = .ok () := by
  obtain ⟨⟨⟩, -, h⟩ := bind_eq_ok.mp h
  obtain ⟨⟨⟩, -, h⟩ := bind_eq_ok.mp h
  exact forM_eq_ok h

theorem validateOutput_ok {indexed : Bytes × Nat} (h : validateOutput d g r indexed = .ok ()) :
    isPackageRelative indexed.1 = true ∧ pathIsGenerated d indexed.1 = true ∧
      hasOtherProducer g r indexed.1 indexed.2 = false := by
  unfold validateOutput at h
  split at h
  · cases h
  · next hrelative =>
    split at h
    · cases h
    · next hgenerated =>
      split at h
      · cases h
      · next hproducer =>
        exact ⟨by simpa using hrelative, by simpa using hgenerated, by simpa using hproducer⟩

theorem genrules_ok (h : validateGeneratedOutputs d g = .ok ()) :
    g.genrules.forM (validateGenrule d g) = .ok () := by
  unfold validateGeneratedOutputs at h
  obtain ⟨⟨⟩, hgenrules, -⟩ := bind_eq_ok.mp h
  exact hgenrules

theorem checked_output (h : validateGeneratedOutputs d g = .ok ()) (hr : r ∈ g.genrules)
    {indexed : Bytes × Nat} (hindexed : indexed ∈ r.outputs.zipIdx) :
    isPackageRelative indexed.1 = true ∧ pathIsGenerated d indexed.1 = true ∧
      hasOtherProducer g r indexed.1 indexed.2 = false := by
  have hgenrule : validateGenrule d g r = .ok () := forM_eq_ok (genrules_ok h) r hr
  have hchecked : validateOutput d g r indexed = .ok () := validateGenrule_ok hgenrule indexed hindexed
  exact validateOutput_ok hchecked

theorem eq_of_genrule_label {other : Genrule} (hr : r ∈ g.genrules) (hother : other ∈ g.genrules)
    (h : r.label = other.label) : r = other := by
  have hfind := findGenrule_of_mem hr
  rw [h, findGenrule_of_mem hother, Option.some.injEq] at hfind
  exact hfind.symm

/-- An output is produced at one index of one action. -/
theorem unique_producer (h : validateGeneratedOutputs d g = .ok ()) (hr : r ∈ g.genrules)
    {other : Genrule} (hother : other ∈ g.genrules) {i k : Nat} (hi : (output, i) ∈ r.outputs.zipIdx)
    (hk : (output, k) ∈ other.outputs.zipIdx) : other = r ∧ k = i := by
  obtain ⟨-, -, hproducer⟩ := checked_output h hr hi
  rw [hasOtherProducer, List.any_eq_false] at hproducer
  have hnone := hproducer other hother
  rw [Bool.not_eq_true, List.any_eq_false] at hnone
  have hself := hnone _ hk
  simp only [Bool.and_eq_true, Bool.not_eq_true', decide_eq_true_eq, and_true,
    Bool.not_eq_false] at hself
  obtain ⟨hlabel, hindex⟩ := hself
  exact ⟨eq_of_genrule_label hother hr hlabel, hindex⟩

theorem exists_index {other : Genrule} (h : output ∈ other.outputs) :
    ∃ k, (output, k) ∈ other.outputs.zipIdx := by
  obtain ⟨k, hk, hget⟩ := List.mem_iff_getElem.mp h
  refine ⟨k, ?_⟩
  rw [List.mk_mem_zipIdx_iff_getElem?, List.getElem?_eq_getElem hk, hget]

/-- The outputs of all actions are written differently. -/
theorem nodup_allOutputs (h : validateGeneratedOutputs d g = .ok ()) : (allOutputs g).Nodup := by
  have hlabels : (g.genrules.map Genrule.label).Nodup := (List.nodup_append.mp g.labels_nodup).2.1
  rw [allOutputs, List.nodup_flatMap]
  refine ⟨?_, ?_⟩
  · intro r hr
    rw [List.nodup_iff_getElem?_ne_getElem?]
    intro i k hik hk heq
    have hi : i < r.outputs.length := Nat.lt_trans hik hk
    have hleft : (r.outputs[i], i) ∈ r.outputs.zipIdx := by
      rw [List.mk_mem_zipIdx_iff_getElem?, List.getElem?_eq_getElem hi]
    have hright : (r.outputs[i], k) ∈ r.outputs.zipIdx := by
      rw [List.mk_mem_zipIdx_iff_getElem?, ← heq, List.getElem?_eq_getElem hi]
    have hindex := (unique_producer h hr hr hleft hright).2
    omega
  · have hpairwise : g.genrules.Pairwise fun a b => a ≠ b :=
      (List.pairwise_map.mp hlabels).imp fun hlabel heq => hlabel (congrArg Genrule.label heq)
    refine hpairwise.imp_of_mem ?_
    intro a b ha hb hne output houta houtb
    obtain ⟨i, hi⟩ := exists_index houta
    obtain ⟨k, hk⟩ := exists_index houtb
    exact hne (unique_producer h ha hb hi hk).1.symm

/-- The owner of an output is the one action that declares it. -/
theorem findOutputOwner_of_mem (h : validateGeneratedOutputs d g = .ok ()) (hr : r ∈ g.genrules)
    (houtput : output ∈ r.outputs) :
    findOutputOwner g output = some r ∧ ∀ other ∈ g.genrules, output ∈ other.outputs → other = r := by
  obtain ⟨i, hi⟩ := exists_index houtput
  have hunique : ∀ other ∈ g.genrules, output ∈ other.outputs → other = r := by
    intro other hother hmem
    obtain ⟨k, hk⟩ := exists_index hmem
    exact (unique_producer h hr hother hi hk).1
  refine ⟨?_, hunique⟩
  cases hfind : findOutputOwner g output with
  | none =>
    have hnone := List.find?_eq_none.mp hfind r hr
    simp [houtput] at hnone
  | some owner =>
    have hmem : output ∈ owner.outputs := by simpa using List.find?_some hfind
    rw [hunique owner (List.mem_of_find?_eq_some hfind) hmem]

theorem mem_allOutputs : output ∈ allOutputs g ↔ ∃ r ∈ g.genrules, output ∈ r.outputs :=
  List.mem_flatMap

/-- An output is the generated directory and its name there, and only the name goes up, at its
end. -/
theorem output_split (h : validateGeneratedOutputs d g = .ok ()) (houtput : output ∈ allOutputs g) :
    output = effectiveGeneratedDir d ++ 47 :: outputName d output ∧
      ascii ".." ∉ (names (outputName d output)).dropLast := by
  obtain ⟨r, hr, hmem⟩ := mem_allOutputs.mp houtput
  obtain ⟨i, hi⟩ := exists_index hmem
  obtain ⟨hrelative, hgenerated, -⟩ := checked_output h hr hi
  have hprefix : effectiveGeneratedDir d ++ ascii "/" <+: output := by
    simp only [pathIsGenerated, Bool.and_eq_true, decide_eq_true_eq] at hgenerated
    exact hgenerated.1.2
  obtain ⟨rest, hrest⟩ := hprefix
  have hname : outputName d output = rest := by
    rw [outputName, ← hrest]
    simp [ascii]
  have hsplit : output = effectiveGeneratedDir d ++ 47 :: rest := by
    rw [← hrest]
    simp [ascii]
  rw [hname]
  refine ⟨hsplit, ?_⟩
  have hup := relative_dropLast hrelative
  rw [hsplit, names_slash, List.dropLast_append_of_ne_nil (names_ne_nil rest)] at hup
  exact fun hin => hup (List.mem_append_right _ hin)

theorem placeAt_output (h : validateGeneratedOutputs d g = .ok ()) (houtput : output ∈ allOutputs g)
    (root : Place) : placeAt root output =
      leadsTo (placeAt root (effectiveGeneratedDir d)) (names (outputName d output)) := by
  have hsplit := (output_split h houtput).1
  rw [placeAt]
  conv_lhs => rw [hsplit, names_slash, leadsTo, List.foldl_append]
  rfl

end Checked

/-! ## Ownership -/

/-- Every output leads strictly below the generated directory, no two of them to one place, and its
owner is the one action that declares it. -/
structure OutputsOwned (root : Place) (d : Declarations) (g : Graph) : Prop where
  below : ∀ output ∈ allOutputs g,
    StrictlyBelow (placeAt root (effectiveGeneratedDir d)) (placeAt root output)
  apart : (allOutputs g).Pairwise fun a b => placeAt root a ≠ placeAt root b
  owner : ∀ r ∈ g.genrules, ∀ output ∈ r.outputs, findOutputOwner g output = some r ∧
    ∀ other ∈ g.genrules, output ∈ other.outputs → other = r

/-- The dots of the outputs do no harm: one with some of them below the generated directory enters
more than it leaves, and the names that are left of it are not those of another output. -/
structure DotsHarmless (d : Declarations) (outputs : List Bytes) : Prop where
  enters : ∀ output ∈ outputs, Dotted (outputName d output) →
    (names (outputName d output)).count (ascii "..") <
      (entering (names (outputName d output))).length
  apart : ∀ a ∈ outputs, Dotted (outputName d a) → ∀ b ∈ outputs, b ≠ a →
    keptNames (names (outputName d a)) ≠ keptNames (names (outputName d b))

/-- The outputs of a validated graph are owned if and only if the dots in them do no harm. -/
theorem outputs_owned_iff {d : Declarations} {g : Graph} (root : Place)
    (h : validateGeneratedOutputs d g = .ok ()) :
    OutputsOwned root d g ↔ DotsHarmless d (allOutputs g) := by
  have hbelow : ∀ output ∈ allOutputs g,
      (StrictlyBelow (placeAt root (effectiveGeneratedDir d)) (placeAt root output) ↔
        (names (outputName d output)).count (ascii "..") <
          (entering (names (outputName d output))).length) := by
    intro output houtput
    rw [placeAt_output h houtput]
    exact strictlyBelow_leadsTo_iff (output_split h houtput).2 _
  have hsame : (∀ output ∈ allOutputs g, (names (outputName d output)).count (ascii "..") <
      (entering (names (outputName d output))).length) → ∀ a ∈ allOutputs g, ∀ b ∈ allOutputs g,
        (placeAt root a = placeAt root b ↔
          keptNames (names (outputName d a)) = keptNames (names (outputName d b))) := by
    intro henters a ha b hb
    rw [placeAt_output h ha, placeAt_output h hb,
      leadsTo_keptNames (output_split h ha).2 (henters a ha),
      leadsTo_keptNames (output_split h hb).2 (henters b hb), List.append_left_inj,
      List.reverse_inj]
  constructor
  · intro howned
    have henters := fun output houtput => (hbelow output houtput).mp (howned.below output houtput)
    refine ⟨fun output houtput _ => henters output houtput, ?_⟩
    intro a ha _ b hb hne hkept
    have hsymm : Std.Symm fun a b => placeAt root a ≠ placeAt root b := ⟨fun _ _ => Ne.symm⟩
    exact howned.apart.forall ha hb (Ne.symm hne) ((hsame henters a ha b hb).mpr hkept)
  · intro hdots
    have henters : ∀ output ∈ allOutputs g, (names (outputName d output)).count (ascii "..") <
        (entering (names (outputName d output))).length := by
      intro output houtput
      by_cases hdotted : Dotted (outputName d output)
      · exact hdots.enters output houtput hdotted
      · exact (kept_of_not_dotted hdotted).2
    refine ⟨fun output houtput => (hbelow output houtput).mpr (henters output houtput), ?_,
      fun r hr output houtput => findOutputOwner_of_mem h hr houtput⟩
    refine (nodup_allOutputs h).imp_of_mem ?_
    intro a b ha hb hne hplace
    have hkept := (hsame henters a ha b hb).mp hplace
    by_cases hadotted : Dotted (outputName d a)
    · exact hdots.apart a ha hadotted b hb (Ne.symm hne) hkept
    by_cases hbdotted : Dotted (outputName d b)
    · exact hdots.apart b hb hbdotted a ha hne hkept.symm
    -- the comparison of the written paths decides
    rw [(kept_of_not_dotted hadotted).1, (kept_of_not_dotted hbdotted).1] at hkept
    refine hne ?_
    rw [(output_split h ha).1, (output_split h hb).1, names_inj hkept]

theorem table_label_ne : ascii "//:tables" ≠ [] := by decide

/-- An action with the given outputs. -/
def tableAction (outputs : List Bytes) (houtputs : outputs ≠ []) : Genrule where
  label := ascii "//:tables"
  tool := ascii "scripts/tables"
  toolset := []
  configHeader := false
  inputs := [ascii "tables.txt"]
  outputs := outputs
  outputGroups := []
  outputFormats := []
  args := []
  label_ne := table_label_ne
  outputs_ne := houtputs

def actionGraph (r : Genrule) : Graph where
  host := ascii "linux"
  platform := ascii "linux"
  buildDir := ascii "build"
  targets := []
  genrules := [r]
  stages := []
  toolsets := []
  languages := []
  labels_nodup := by simp
  objectlib_objects := Graph.no_objectlib_objects
  objects_objectlib := Graph.no_objects_objectlib

def plainDeclarations : Declarations where
  generatedDir := []
  visibility := fun _ => []
  families := []

theorem outputs_owned_iff_tables :
    OutputsOwned [] plainDeclarations
        (actionGraph (tableAction [ascii "generated/a.h", ascii "generated/b.h"] (by decide))) ↔
      DotsHarmless plainDeclarations [ascii "generated/a.h", ascii "generated/b.h"] :=
  outputs_owned_iff (d := plainDeclarations)
    (g := actionGraph (tableAction [ascii "generated/a.h", ascii "generated/b.h"] (by decide)))
    [] rfl

/-- Two outputs that are accepted are one file. -/
theorem spellings_not_owned :
    validateGeneratedOutputs plainDeclarations
        (actionGraph (tableAction [ascii "generated/a.h", ascii "generated/a.h/."] (by decide))) = .ok () ∧
      ¬OutputsOwned [] plainDeclarations
        (actionGraph (tableAction [ascii "generated/a.h", ascii "generated/a.h/."] (by decide))) := by
  refine ⟨rfl, fun howned => ?_⟩
  have hapart := (List.pairwise_cons.mp howned.apart).1 (ascii "generated/a.h/.") List.mem_cons_self
  exact hapart (by decide)

end QStar.Validation
