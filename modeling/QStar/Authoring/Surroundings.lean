import QStar.BuildGraph.Artifacts
import QStar.Lib.Questions

/-!
# What evaluation asks of its surroundings

Evaluation opens files for reading, loads the text of some, reads one variable of
the environment, lists directories for globs and asks where the running program
is. The searches below are made of such questions: for the package root, upwards
from the entry file, and for the manifest of a language provider.
-/
namespace QStar.Authoring

open QStar.Lib.CStrings
open QStar.Lib.Questions
open QStar.Base
open QStar.BuildGraph

inductive Question where
  /-- `fopen` for reading succeeds. -/
  | readable (path : Bytes)
  /-- The text `luaL_loadfilex` reads. -/
  | text (path : Bytes)
  /-- `getenv` -/
  | getenv (name : Bytes)
  /-- The names `readdir` delivers, if the directory opens. -/
  | names (dir : Bytes)
  /-- `current_executable_path` -/
  | executable
  deriving DecidableEq

@[reducible] def Question.Answer : Question → Type
  | .readable _ => Bool
  | .text _ => Option Bytes
  | .getenv _ => Option Bytes
  | .names _ => Option (List Bytes)
  | .executable => Option Bytes

abbrev Asking (R : Type) : Type := Asks Question.Answer R

/-- A file as `stat` and reading show it; times are whole seconds. -/
structure SourceFile where
  text : Bytes
  mtime : Nat
  deriving DecidableEq

/-- Where evaluation takes place. -/
structure World where
  file : Bytes → Option SourceFile
  environment : Bytes → Option Bytes
  names : Bytes → Option (List Bytes)
  executable : Option Bytes

def World.answer (w : World) : ∀ q : Question, q.Answer
  | .readable path => (w.file path).isSome
  | .text path => (w.file path).map SourceFile.text
  | .getenv name => w.environment name
  | .names dir => w.names dir
  | .executable => w.executable

/-- `filesystem_file_exists` and `regular_file_exists` -/
def fileExists (path : Bytes) : Asking Bool := question (Question.readable path)

@[simp] theorem run_fileExists (w : World) (path : Bytes) :
    (fileExists path).run w.answer = (w.file path).isSome := rfl

@[simp] theorem asked_fileExists (w : World) (path : Bytes) :
    (fileExists path).asked w.answer = [.readable path] := rfl

def readText (path : Bytes) : Asking (Option Bytes) := question (Question.text path)

def getenv (name : Bytes) : Asking (Option Bytes) := question (Question.getenv name)

/-- `current_executable_path` -/
def currentExecutablePath : Asking (Option Bytes) := question Question.executable

/-- A directory and those above it, up to `.` or `/`. -/
def ancestors : Nat → Bytes → List Bytes
  | 0, cur => [cur]
  | fuel + 1, cur =>
    cur :: if cur = ascii "." ∨ cur = ascii "/" ∨ dirname cur = cur then []
      else ancestors fuel (dirname cur)

/-- The first directory with a `qstar.lua`. -/
def findRoot : List Bytes → Asking (Option Bytes)
  | [] => pure none
  | cur :: rest => do
    if ← fileExists (pathJoin cur (ascii "qstar.lua")) then return some cur
    findRoot rest

/-- `discover_root_for_cache`, and the search of `discover_workspace_root` -/
def discoverRoot (file : Bytes) : Asking (Option Bytes) :=
  findRoot (ancestors (dirname file).length (dirname file))

/-- `workspace_fragment` -/
def workspaceFragment (root child : Bytes) : Option Bytes :=
  if root = child ∨ child = ascii "." then some []
  else if root = ascii "." then some child
  else if root ++ ascii "/" <+: child then some (child.drop (root.length + 1))
  else if root = ascii "/" ∧ child.head? = some 47 then some (child.drop 1)
  else none

/-- `valid_tool_role_component` -/
def validToolRoleComponent (s : Bytes) : Bool :=
  s ≠ [] && s.all fun c => isAlpha c || (48 ≤ c && c ≤ 57) || c = 95 || c = 45

/-- `path_has_suffix` -/
def pathHasSuffix (path suffix : Bytes) : Bool := decide (suffix <:+ path)

/-- `path_basename_component` -/
def pathBasenameComponent (path : Bytes) : Bytes := artifactBasename path

/-- `path_join_root_or_absolute` -/
def pathJoinRootOrAbsolute (root path : Bytes) : Bytes :=
  if path.head? = some 47 then path else pathJoin root path

/-- Where a provider is: its directory, its manifest as recorded and the file to open. -/
structure ProviderPath where
  relDir : Bytes
  rel : Bytes
  full : Bytes

/-- `standard_provider_manifest_from_base` -/
def standardProviderManifestFromBase (base : Option Bytes) (id : Bytes) :
    Asking (Option ProviderPath) :=
  match base with
  | none => pure none
  | some base =>
    if base = [] then pure none
    else do
      let candidateDir := pathJoin base id
      let manifest := candidateDir ++ ascii "/" ++ id ++ ascii ".qsm"
      if ← fileExists manifest then return some ⟨candidateDir, manifest, manifest⟩
      return none

/-- The provider directories of `resolve_standard_language_provider_path` beside the program:
the installed one and that of a source tree. -/
def executableBases (exe : Bytes) : List Bytes :=
  let prefixDir := dirname (dirname exe)
  [pathJoin prefixDir (ascii "share/qstar/languages"),
    pathJoin (dirname prefixDir) (ascii "qstar/languages")]

/-- The first of some bases that has the provider. -/
def firstProvider (id : Bytes) : List Bytes → Asking (Option ProviderPath)
  | [] => pure none
  | base :: rest => do
    match ← standardProviderManifestFromBase (some base) id with
    | some found => return some found
    | none => firstProvider id rest

/-- `resolve_standard_language_provider_path` -/
def resolveStandardLanguageProviderPath (id : Bytes) : Asking (Option ProviderPath) := do
  let envDir ← getenv (ascii "QSTAR_PROVIDER_DIR")
  match ← standardProviderManifestFromBase envDir id with
  | some found => return some found
  | none =>
    match ← currentExecutablePath with
    | none => return none
    | some exe => firstProvider id (executableBases exe)

/-- `resolve_language_provider_path`; `none` for an id or a folder it rejects. -/
def resolveLanguageProviderPath (root raw : Bytes) : Asking (Option ProviderPath) :=
  if raw = [] then pure none
  else if pathHasSuffix raw (ascii ".qsm") || pathHasSuffix raw (ascii ".qst") ||
      raw = ascii "qstar.lua" then pure none
  else if raw.getLast? = some 47 then pure none
  else if (if 47 ∈ raw then !isPackageRelative raw else !validToolRoleComponent raw) then pure none
  else do
    let isId := decide (47 ∉ raw)
    let relDir := if isId then ascii "qstar/languages/" ++ raw else raw
    let rel := relDir ++ ascii "/" ++ pathBasenameComponent relDir ++ ascii ".qsm"
    let full := pathJoin root rel
    let inPackage : ProviderPath := ⟨relDir, rel, full⟩
    if ← fileExists full then return some inPackage
    if isId then
      match ← resolveStandardLanguageProviderPath raw with
      | some found => return some found
      | none => return some inPackage
    return some inPackage

end QStar.Authoring
