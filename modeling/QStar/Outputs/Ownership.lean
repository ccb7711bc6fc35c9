import QStar.Lowering.Linking
import QStar.Outputs.Names

/-!
# Who owns an output

The paths that are computed for a target or a generated action and for their actions:
objects, depfiles, default artifacts, run stamps, response files and logs. Two owners
share one of them exactly where their labels mangle alike and they have an output of
one name.
-/
namespace QStar.Outputs

open QStar.Lib.CStrings
open QStar.Lib.Numerals
open QStar.Base
open QStar.BuildGraph
open QStar.Lowering

variable {g : Graph}

/-! ## Owners -/

/-- What outputs are computed for. -/
inductive Owner where
  | target (t : Target)
  | genrule (r : Genrule)

def Owner.label : Owner → Bytes
  | .target t => t.label
  | .genrule r => r.label

/-- The actions of an owner that start a process, on either backend. -/
def Owner.nodes (g : Graph) : Owner → List ActionNode
  | .target t =>
    if t.kind = .runTarget then [.run t] else if hasNoToolchain t then [] else ownNodes g t
  | .genrule r => [.generate r]

/-- What numbers the object of a source a target compiles for itself. -/
def compileNumber (t : Target) (index : Nat) : Bool × Nat :=
  match leadsBatch t t index with
  | some batch => (true, batch)
  | none => (false, index)

def depfileTail : Bool × Nat → Bytes
  | (true, batch) => ascii "cxx/" ++ (ascii "unity/unity_" ++ printUnsigned 10 batch ++ ascii ".d")
  | (false, index) => ascii "obj" ++ printUnsigned 10 index ++ ascii ".d"

/-- The response file of `qstar_action_materialize` -/
def responsePath (g : Graph) (id : Bytes) : Bytes :=
  buildPath g.buildDir (ascii "rsp/" ++ mangleLabel id ++ ascii ".rsp")

/-- What is logged of an action: its command, and what it prints. -/
def logExtensions : List Bytes := [ascii "log", ascii "stdout", ascii "stderr"]

/-- The name of a log of a phase of a test. -/
def testLogName (phase : Testing.Phase) (attempt : Nat) (ext : Bytes) : LocalName :=
  if phase.name = ascii "test" ∧ attempt = 1 then ⟨.logs, 46 :: ascii "test." ++ ext⟩
  else ⟨.logs, (ActionName.test phase attempt).stem ++ 46 :: ext⟩

/-- A path that is computed for an owner or one of its actions, and its name behind the
label. -/
inductive Owned (g : Graph) : Owner → Bytes → LocalName → Prop where
  | object {t : Target} {index : Nat} (hnode : .compile t index ∈ Owner.nodes g (.target t)) :
    Owned g (.target t) ((ownSource t index).object g)
      ⟨.out, 47 :: objectTail (compileNumber t index)⟩
  | depfile {t : Target} {index : Nat} (hnode : .compile t index ∈ Owner.nodes g (.target t)) :
    Owned g (.target t) ((ownSource t index).depfile g)
      ⟨.out, 47 :: depfileTail (compileNumber t index)⟩
  | consumerObject {t o : Target} {index actionIndex : Nat}
      (hnode : .consumerCompile t o index actionIndex ∈ Owner.nodes g (.target t)) :
    Owned g (.target t) (consumerObjectOutputPath g t o index) ⟨.out, 47 :: consumerTail o index⟩
  | consumerDepfile {t o : Target} {index actionIndex : Nat}
      (hnode : .consumerCompile t o index actionIndex ∈ Owner.nodes g (.target t)) :
    Owned g (.target t) (consumerDepfileOutputPath g t o index)
      ⟨.out, 47 :: (ascii "objects/" ++ mangleLabel o.label ++ ascii "/obj" ++
        printUnsigned 10 index ++ ascii ".d")⟩
  | pch {t : Target} {name : Bytes} (hnode : .cxxPch t ∈ Owner.nodes g (.target t))
      (hname : pchOutputPath g t (resolveToolchain g t) = cxxSubpath g t name) :
    Owned g (.target t) (pchOutputPath g t (resolveToolchain g t))
      ⟨.out, 47 :: (ascii "cxx/" ++ name)⟩
  | pchDepfile {t : Target} {name : Bytes} (hnode : .cxxPch t ∈ Owner.nodes g (.target t))
      (hname : pchOutputPath g t (resolveToolchain g t) = cxxSubpath g t name) :
    Owned g (.target t) (pchOutputPath g t (resolveToolchain g t) ++ ascii ".d")
      ⟨.out, 47 :: (ascii "cxx/" ++ name ++ ascii ".d")⟩
  | artifact {t : Target} {a : Artifact} {filename : Bytes}
      (hnode : .final t ∈ Owner.nodes g (.target t)) (hdefault : t.artifactName = [])
      (ha : a ∈ ownArtifacts g t) (hname : a.path = outPath g t filename) :
    Owned g (.target t) a.path ⟨.out, 47 :: filename⟩
  | stamp {t : Target} (hnode : .run t ∈ Owner.nodes g (.target t)) :
    Owned g (.target t) (runStamp g t) ⟨.out, 47 :: ascii "run.stamp"⟩
  | response {owner : Owner} {node : ActionNode} (hnode : node ∈ owner.nodes g) :
    Owned g owner (responsePath g (nodeId node))
      ⟨.rsp, (ActionName.process (nodeShape node)).stem ++ 46 :: ascii "rsp"⟩
  | log {owner : Owner} {node : ActionNode} {ext : Bytes} (hnode : node ∈ owner.nodes g)
      (hext : ext ∈ logExtensions) :
    Owned g owner (buildLogRel g.buildDir (nodeId node) (46 :: ext))
      ⟨.logs, (ActionName.process (nodeShape node)).stem ++ 46 :: ext⟩
  | testLog {t : Target} {tests : Testing.TestGraph} {test : Testing.TestTarget}
      {phase : Testing.Phase} {attempt : Nat} (hkind : t.kind = .test)
      (hbuild : tests.buildDir = g.buildDir) (hlabel : test.label = t.label) :
    Owned g (.target t)
      (buildLogRel g.buildDir (Testing.testLogPaths tests test phase attempt).actionId
        (ascii ".log"))
      ⟨.logs, (ActionName.test phase attempt).stem ++ 46 :: ascii "log"⟩
  | testStdout {t : Target} {tests : Testing.TestGraph} {test : Testing.TestTarget}
      {phase : Testing.Phase} {attempt : Nat} (hkind : t.kind = .test)
      (hbuild : tests.buildDir = g.buildDir) (hlabel : test.label = t.label) :
    Owned g (.target t) (Testing.testLogPaths tests test phase attempt).stdoutRel
      (testLogName phase attempt (ascii "stdout"))
  | testStderr {t : Target} {tests : Testing.TestGraph} {test : Testing.TestTarget}
      {phase : Testing.Phase} {attempt : Nat} (hkind : t.kind = .test)
      (hbuild : tests.buildDir = g.buildDir) (hlabel : test.label = t.label) :
    Owned g (.target t) (Testing.testLogPaths tests test phase attempt).stderrRel
      (testLogName phase attempt (ascii "stderr"))

/-- The paths of an owner. -/
def OwnPath (g : Graph) (owner : Owner) (path : Bytes) : Prop := ∃ name, Owned g owner path name

/-- What an owner has outputs for: the numbers of its objects, the file names of its
artifacts, the kinds and numbers of its actions. -/
def OwnName (g : Graph) (owner : Owner) (name : LocalName) : Prop :=
  ∃ path, Owned g owner path name

/-! ## Where they lie -/

theorem outPath_path (g : Graph) (t : Target) (tail : Bytes) :
    outPath g t tail = LocalName.path g t.label ⟨.out, 47 :: tail⟩ := by
  simp [outPath, LocalName.path, Area.name, ascii]

theorem node_label {owner : Owner} {node : ActionNode} (hnode : node ∈ owner.nodes g) :
    nodeLabel node = owner.label := by
  cases owner with
  | target t =>
    simp only [Owner.nodes] at hnode
    split at hnode
    · obtain rfl := List.mem_singleton.mp hnode
      rfl
    · split at hnode
      · cases hnode
      · exact nodeLabel_of_mem hnode
  | genrule r =>
    obtain rfl := List.mem_singleton.mp hnode
    rfl

theorem node_valid {owner : Owner} {node : ActionNode} (hnode : node ∈ owner.nodes g) :
    (ActionName.process (nodeShape node)).Valid := by
  cases owner with
  | target t =>
    simp only [Owner.nodes] at hnode
    split at hnode
    · obtain rfl := List.mem_singleton.mp hnode
      exact show ascii "run" ∈ processKinds by decide
    · split at hnode
      · cases hnode
      · rename_i hkind
        have hvalid := nodeShape_valid (by simpa using hkind) hnode
        cases hshape : nodeShape node with
        | final kind =>
          rw [hshape] at hvalid
          exact List.mem_append_left _ hvalid
        | _ => trivial
  | genrule r =>
    obtain rfl := List.mem_singleton.mp hnode
    exact show ascii "generate" ∈ processKinds by decide

/-- The id of an action in a file name. -/
theorem mangleLabel_nodeId {owner : Owner} {node : ActionNode} (hnode : node ∈ owner.nodes g) :
    mangleLabel (nodeId node) =
      mangleLabel owner.label ++ (ActionName.process (nodeShape node)).stem := by
  rw [nodeId_eq, mangleLabel_print, node_label hnode]

theorem buildPath_log (g : Graph) (id ext : Bytes) :
    buildLogRel g.buildDir id (46 :: ext) =
      buildPath g.buildDir (ascii "logs/" ++ mangleLabel id ++ 46 :: ext) := rfl

theorem testLogPaths_id {tests : Testing.TestGraph} {test : Testing.TestTarget}
    {phase : Testing.Phase} {attempt : Nat} :
    mangleLabel (Testing.testLogPaths tests test phase attempt).actionId =
      mangleLabel test.label ++ (ActionName.test phase attempt).stem := by
  simp only [Testing.testLogPaths, ActionName.stem, ActionName.text, mangleLabel_append,
    List.append_assoc]

/-- The name in the paths of `test_log_paths` -/
theorem testLogName_path {t : Target} {tests : Testing.TestGraph} {test : Testing.TestTarget}
    {phase : Testing.Phase} {attempt : Nat} (hbuild : tests.buildDir = g.buildDir)
    (hlabel : test.label = t.label) (ext : Bytes) :
    buildPath tests.buildDir (ascii "logs/" ++
        (if phase.name = ascii "test" ∧ attempt = 1 then mangleLabel test.label ++ ascii ".test"
        else mangleLabel (Testing.testLogPaths tests test phase attempt).actionId) ++ 46 :: ext) =
      (testLogName phase attempt ext).path g t.label := by
  rw [testLogPaths_id, hbuild, hlabel]
  unfold testLogName
  split
  · simp [LocalName.path, Area.name, ascii]
  · simp [LocalName.path, Area.name, ascii]

theorem testLogName_made (phase : Testing.Phase) (attempt : Nat) {ext : Bytes} (hext : 46 ∉ ext) :
    (testLogName phase attempt ext).Made := by
  unfold testLogName
  split
  · exact .firstTest (by simp [ascii])
  · exact .action (by decide) trivial hext

/-- An owned path is made of the label and the name. -/
theorem Owned.spec {owner : Owner} {path : Bytes} {name : LocalName} (h : Owned g owner path name) :
    path = name.path g owner.label ∧ name.Made := by
  cases h with
  | object hnode =>
    rename_i t index
    refine ⟨?_, .output _⟩
    rw [Owner.label, ← outPath_path]
    unfold CompileSource.object compileNumber
    simp only [ownSource]
    cases leadsBatch t t index with
    | none => rfl
    | some batch => rfl
  | depfile hnode =>
    rename_i t index
    refine ⟨?_, .output _⟩
    rw [Owner.label, ← outPath_path]
    unfold CompileSource.depfile compileNumber
    simp only [ownSource]
    cases leadsBatch t t index with
    | none => rfl
    | some batch => rfl
  | consumerObject hnode =>
    refine ⟨?_, .output _⟩
    rw [Owner.label, ← outPath_path]
    rfl
  | consumerDepfile hnode =>
    refine ⟨?_, .output _⟩
    rw [Owner.label, ← outPath_path]
    rfl
  | pch hnode hname =>
    refine ⟨?_, .output _⟩
    rw [Owner.label, ← outPath_path, hname]
    rfl
  | pchDepfile hnode hname =>
    refine ⟨?_, .output _⟩
    rw [Owner.label, ← outPath_path, hname]
    simp [cxxSubpath, outPath, buildPath]
  | artifact hnode hdefault ha hname =>
    refine ⟨?_, .output _⟩
    rw [Owner.label, ← outPath_path, hname]
  | stamp hnode =>
    refine ⟨?_, .output _⟩
    rw [Owner.label, ← outPath_path]
    rfl
  | response hnode =>
    refine ⟨?_, .action (by decide) (node_valid hnode) (by decide)⟩
    simp only [responsePath, LocalName.path, Area.name, mangleLabel_nodeId hnode, List.append_assoc]
    rfl
  | log hnode hext =>
    have hdot : ∀ e ∈ logExtensions, 46 ∉ e := by decide
    refine ⟨?_, .action (by decide) (node_valid hnode) (hdot _ hext)⟩
    simp only [buildPath_log, LocalName.path, Area.name, mangleLabel_nodeId hnode, List.append_assoc]
  | testLog hkind hbuild hlabel =>
    refine ⟨?_, .action (by decide) trivial (by decide)⟩
    simp only [buildLogRel, testLogPaths_id, hlabel, LocalName.path, Area.name, Owner.label,
      List.append_assoc]
    rfl
  | testStdout hkind hbuild hlabel =>
    exact ⟨testLogName_path hbuild hlabel (ascii "stdout"), testLogName_made _ _ (by decide)⟩
  | testStderr hkind hbuild hlabel =>
    exact ⟨testLogName_path hbuild hlabel (ascii "stderr"), testLogName_made _ _ (by decide)⟩

/-! ## Ownership -/

/-- Two owners have no path in common exactly where their labels mangle apart, or they have
no output of one name. -/
theorem ownership_disjoint_iff (g : Graph) (a b : Owner) :
    (∀ path, OwnPath g a path → ¬OwnPath g b path) ↔
      mangleLabel a.label ≠ mangleLabel b.label ∨ ∀ name, OwnName g a name → ¬OwnName g b name := by
  constructor
  · intro hdisjoint
    by_contra hboth
    simp only [not_or, not_not, not_forall] at hboth
    obtain ⟨hlabel, name, ⟨path, hpath⟩, path', hpath'⟩ := hboth
    refine hdisjoint path ⟨name, hpath⟩ ⟨name, ?_⟩
    have hsame : path = path' := by
      rw [hpath.spec.1, hpath'.spec.1, LocalName.path, LocalName.path, hlabel]
    exact hsame ▸ hpath'
  · rintro happart path ⟨name, hname⟩ ⟨name', hname'⟩
    have hpath : name.path g a.label = name'.path g b.label := by
      rw [← hname.spec.1, ← hname'.spec.1]
    obtain ⟨hlabel, rfl⟩ := LocalName.path_inj hname.spec.2 hname'.spec.2 hpath
    rcases happart with hapart | hnames
    · exact hapart hlabel
    · exact hnames name ⟨path, hname⟩ ⟨path, hname'⟩

/-! ## Labels that mangle alike -/

/-- A program called with a hyphen. -/
def dashedTarget : Target where
  label := ascii "//:fast-math"
  name := ascii "fast-math"
  kind := .exe
  sources := [ascii "dashed.c"]
  label_ne := Linking.dashed_label_ne
  sources_lt := by decide

/-- One called with an underscore. -/
def scoredTarget : Target where
  label := ascii "//:fast_math"
  name := ascii "fast_math"
  kind := .exe
  sources := [ascii "scored.c"]
  label_ne := Linking.scored_label_ne
  sources_lt := by decide

def twinGraph : Graph where
  host := ascii "linux"
  platform := []
  buildDir := ascii "build"
  targets := [dashedTarget, scoredTarget]
  genrules := []
  stages := []
  toolsets := []
  languages := []
  labels_nodup := by decide
  objectlib_objects := by decide
  objects_objectlib := by decide

theorem validated_twinGraph : Linking.Validated twinGraph where
  objects_nodup := by decide
  consumer_objectlib := by decide
  objectlib_final := by
    intro t ht hkind
    simp only [twinGraph, List.mem_cons, List.not_mem_nil, or_false] at ht
    rcases ht with rfl | rfl
    · cases hkind
    · cases hkind

/-- The first object of a program that is compiled for itself. -/
theorem first_object_owned {t : Target} (hkind : t.kind = .exe) (hindex : 0 ∈ ownCompileIndices t) :
    OwnPath g (.target t) ((ownSource t 0).object g) := by
  refine ⟨_, .object ?_⟩
  have hprocess : hasNoToolchain t = false := by simp [hasNoToolchain, hkind]
  simp only [Owner.nodes, hkind, hprocess, reduceCtorEq, if_false, Bool.false_eq_true, ownNodes,
    List.mem_append, List.mem_map]
  exact .inl (.inl (.inr ⟨0, hindex, rfl⟩))

/-- Both programs compile their source to one object. -/
theorem object_owned_twice : Linking.Validated twinGraph ∧
    labelCanonicalize (ascii ":fast-math") [] = some dashedTarget.label ∧
    labelCanonicalize (ascii ":fast_math") [] = some scoredTarget.label ∧
    dashedTarget.label ≠ scoredTarget.label ∧
    OwnPath twinGraph (.target dashedTarget) (ascii "build/out/___fast_math/obj0.o") ∧
    OwnPath twinGraph (.target scoredTarget) (ascii "build/out/___fast_math/obj0.o") :=
  ⟨validated_twinGraph, by decide, by decide, by decide,
    first_object_owned rfl (by decide), first_object_owned rfl (by decide)⟩

end QStar.Outputs
