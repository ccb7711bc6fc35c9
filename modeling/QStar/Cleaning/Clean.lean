import QStar.Lowering.Closure
import QStar.Base.Places

/-!
# Cleaning

The recursive removal of a path, the paths `clean` removes for a label or for the
whole build, and the files of a package that are not build products. Directories
are read in whatever order the system gives their names. The first argument of a
removal bounds its depth, as the length of path buffers does.
-/
namespace QStar.Cleaning

open QStar.Lib.CStrings QStar.Lib.FileTrees
open QStar.Base QStar.BuildGraph QStar.Lowering

/-- Names other than those that stay in a directory or leave it. -/
def Ordinary (name : Bytes) : Prop := name ≠ [] ∧ name ≠ ascii "." ∧ name ≠ ascii ".."

instance (name : Bytes) : Decidable (Ordinary name) := inferInstanceAs (Decidable (_ ∧ _ ∧ _))

/-- What `readdir` gives for every directory. -/
abbrev Listing := Place → List Bytes

/-- Every entry is listed. -/
def Lists (readdir : Listing) (t : Tree) : Prop :=
  ∀ place name, t.entry (name :: place) ≠ none → name ∈ readdir place

/-- `qstar_remove_dir`: the directory is empty and its path ends with its name. -/
def removeDir (readdir : Listing) (t : Tree) (root : Place) (path : List Bytes) : Tree × Bool :=
  match t.stat root path with
  | .found place .dir =>
    if path.getLast? ≠ some (ascii ".") ∧ path.getLast? ≠ some (ascii "..") ∧
        (readdir place).all fun name => t.entry (name :: place) = none then
      (t.prune place, true)
    else (t, false)
  | _ => (t, false)

/-- `remove_tree` -/
def removeTree (readdir : Listing) (root : Place) : Nat → Tree → List Bytes → Tree × Bool
  | 0, t, _ => (t, false)
  | fuel + 1, t, path =>
    match t.stat root path with
    | .missing => (t, true)
    | .blocked => (t, false)
    | .found place (.file _) => (t.prune place, true)
    | .found place .dir =>
      let (t, ok) := ((readdir place).filter fun name => Ordinary name).foldl
        (fun (t, ok) name =>
          if ok then removeTree readdir root fuel t (path ++ [name]) else (t, false)) (t, true)
      if ok then removeDir readdir t root path else (t, false)

/-- Removals one after the other until one fails. -/
def removeAll (readdir : Listing) (root : Place) (fuel : Nat) (t : Tree) : List Bytes → Tree × Bool
  | [] => (t, true)
  | rel :: rest =>
    let (t, ok) := removeTree readdir root fuel t (names rel)
    if ok then removeAll readdir root fuel t rest else (t, false)

/-- A package: its graph, where it is, its authoring files and its policy for
`compile_commands.json`. -/
structure Package where
  host : Host
  graph : Graph
  root : Place
  authoring : List Bytes
  compileCommands : Bytes
  root_ordinary : ∀ name ∈ root, Ordinary name

/-- The path `clean_target_output` removes. -/
def targetOutputDir (g : Graph) (t : Target) : Bytes :=
  buildPath g.buildDir (ascii "out/" ++ mangleLabel t.label)

/-- The targets of a label that is given. -/
def cleanClosure (p : Package) (label : Bytes) : List Target :=
  match buildClosure p.graph (some label) with
  | .ok closure => closure
  | .error _ => []

/-- The paths `qstar_graph_clean` removes, in order; no label is the empty one. -/
def cleanPaths (p : Package) (label : Bytes) : List Bytes :=
  if label ≠ [] then (cleanClosure p label).map (targetOutputDir p.graph)
  else
    p.graph.buildDir ::
      if p.compileCommands = ascii "root" then [ascii "compile_commands.json"] else []

/-- `qstar_graph_clean`, what it leaves -/
def clean (readdir : Listing) (fuel : Nat) (p : Package) (label : Bytes) (t : Tree) : Tree :=
  (removeAll readdir p.root fuel t (cleanPaths p label)).1

/-! ## What is not a build product -/

/-- Outputs of the actions of a graph, those of configured files too. -/
inductive ActionOutput (h : Host) (g : Graph) (path : Bytes) : Prop where
  | action {node : ActionNode} {a : LoweredAction} (hnode : Scheduled h g node)
      (ha : lowerNode h g node = .ok a) (hpath : path ∈ a.outputs) : ActionOutput h g path
  | configured {r : Genrule} (hr : r ∈ g.genrules) (hpath : path ∈ r.outputs) :
      ActionOutput h g path

/-- The files a package is written in: authoring files, sources, headers, inputs of generated
actions and sources of stages. -/
def writtenFiles (p : Package) : List Bytes :=
  p.authoring ++
    p.graph.targets.flatMap (fun t => t.sources ++ t.publicHeaders ++ t.privateHeaders ++
      if t.cxxPrecompiledHeader = [] then [] else [t.cxxPrecompiledHeader]) ++
    p.graph.genrules.flatMap Genrule.inputs ++ p.graph.stages.flatMap Stage.srcs

/-- A file of the package that no action makes. -/
def Written (p : Package) (path : Bytes) : Prop :=
  path ∈ writtenFiles p ∧ targetFileToken path = .plain ∧ ¬ ActionOutput p.host p.graph path

/-- An output of an action of a target that the closure of the label does not hold. -/
def OutsideOutput (p : Package) (label path : Bytes) : Prop :=
  label ≠ [] ∧ ∃ t ∈ p.graph.targets, t ∉ cleanClosure p label ∧ ∃ node a,
    Scheduled p.host p.graph node ∧ nodeLabel node = t.label ∧
    lowerNode p.host p.graph node = .ok a ∧ path ∈ a.outputs

/-- The files a clean is to leave alone, as far as their paths can name a file. -/
structure Kept (p : Package) (label path : Bytes) : Prop where
  kind : Written p path ∨ OutsideOutput p label path
  names_file : ∀ d ∈ through p.root path, ¬ placeAt p.root path <:+ d

/-- Whatever the package holds, a clean leaves the files alone that it is to leave alone. -/
def CleanSafe (p : Package) (label : Bytes) : Prop :=
  ∀ readdir fuel t, Lists readdir t → ∀ path, Kept p label path →
    (clean readdir fuel p label t).content (placeAt p.root path) =
      t.content (placeAt p.root path)

end QStar.Cleaning
