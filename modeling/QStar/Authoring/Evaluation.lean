import QStar.Authoring.Surroundings

/-!
# Evaluating a build description

The entry file is loaded and run, and what it calls may load further files. Lua
itself is a parameter: a loaded text is a chunk that returns, raises an error or
calls `qstar` and goes on with the reply, which may be an error it catches. Calls
that only declare are functions of the context and the graph so far. Path buffer
limits and the texts of errors are left out.
-/
namespace QStar.Authoring

open QStar.Lib.CStrings
open QStar.Lib.Questions
open QStar.Base
open QStar.BuildGraph

/-- What `qstar_lua_eval_file` starts from: the entry file and what the command line put into the
graph; absent strings are empty. -/
structure EvalRequest where
  entryFile : Bytes
  cliPlatform : Bytes
  packages : List (Bytes × Bytes)
  overrides : List (Bytes × Bytes)
  requestedGenerator : Bytes
  buildDirOverride : Bytes
  deriving DecidableEq

/-- `struct qstar_lua_context` -/
structure Context where
  rootDir : Bytes
  currentDir : Bytes
  importStack : List Bytes
  providerStack : List Bytes
  moduleDepth : Nat

/-- A call of the authoring API. -/
inductive Call (G V : Type) where
  | importFile (raw : Bytes)
  | importModule (raw : Bytes)
  | useLanguage (raw : Bytes)
  | subdir (dir : Bytes)
  | files (exclude patterns : List Bytes)
  | declare (f : Context → G → Option (G × V))

/-- A loaded text. The reply to a call is `none` where it raised an error. -/
inductive Chunk (G V : Type) where
  | returns (v : V)
  | raises
  | calls (c : Call G V) (next : Option V → Chunk G V)

/-- How a provider is entered into the graph, with its exports unless an error is raised. -/
structure Activation (G V : Type) where
  graph : G
  registered : Bool
  exports : Option V

/-- Lua and the parts of the API that only look at values and at the graph. -/
structure Lua (G V : Type) where
  /-- `luaL_loadfilex` of a text -/
  load : Bytes → Option (Chunk G V)
  nil : V
  isTable : V → Bool
  /-- A list of strings as a table. -/
  list : List Bytes → V
  /-- `push_readonly_module_export` -/
  readonly : V → V
  /-- `read_language_provider_manifest`; the name of the implementation. -/
  manifest : G → V → Option Bytes
  /-- The rest of `qstar_lua_use_language` for the manifest and the implementation of a path. -/
  activate : G → V → V → ProviderPath → Bytes → Activation G V
  /-- The graph `qstar_lua_eval_file` is called with. -/
  start : EvalRequest → G
  /-- `lower_provider_final_action` for every target -/
  lowerFinals : G → Option G

/-- What the authoring files have built so far. -/
structure EvalState (G V : Type) where
  graph : G
  usesFileGlobs : Bool
  /-- `evaluated_fragments` -/
  fragments : List Bytes
  /-- `qstar.module.exports` -/
  modules : List (Bytes × V)
  /-- The manifests of the providers of the graph with their exports. -/
  providers : List (Bytes × Option V)

variable {G V : Type}

/-- What happens to a call: the state it leaves and its reply. -/
abbrev Outcome (G V : Type) : Type := EvalState G V × Option V

/-- `resolve_fragment_relative_path` -/
def resolveFragmentRelativePath (raw fragmentDir : Bytes) : Option Bytes :=
  if isPackageRelative raw = false then none
  else if ¬ascii "./" <+: raw then some raw
  else if raw.drop 2 = [] then none
  else
    let path := if fragmentDir = [] then raw.drop 2 else pathJoin fragmentDir (raw.drop 2)
    if isPackageRelative path then some path else none

/-- `resolve_import_path`, relative to the root -/
def resolveImportPath (ctx : Context) (raw : Bytes) : Option Bytes :=
  resolveFragmentRelativePath raw (if ascii "./" <+: raw then ctx.currentDir else [])

/-- `package_relative_input` -/
def packageRelativeInput (root file : Bytes) : Bytes :=
  if root ≠ [] ∧ root ≠ ascii "." ∧ root ++ ascii "/" <+: file then file.drop (root.length + 1)
  else if ascii "./" <+: file then file.drop 2
  else file

/-- Enters an authoring input, loads it and runs what was loaded. -/
def evalInput (lua : Lua G V) (run : Context → Chunk G V → EvalState G V → Asking (Outcome G V))
    (ctx : Context) (full rel : Bytes) (s : EvalState G V) : Asking (Outcome G V) := do
  let entered := { s with fragments := s.fragments ++ [rel] }
  match (← readText full).bind lua.load with
  | none => return (entered, none)
  | some chunk => run { ctx with importStack := ctx.importStack ++ [rel] } chunk entered

section Calls

variable (lua : Lua G V) (run : Context → Chunk G V → EvalState G V → Asking (Outcome G V))
  (ctx : Context) (s : EvalState G V)

/-- `eval_fragment` -/
def evalFragment (file fragmentDir : Bytes) : Asking (Outcome G V) := do
  let (s, reply) ← evalInput lua run { ctx with currentDir := fragmentDir } file
    (packageRelativeInput ctx.rootDir file) s
  return (s, reply.map fun _ => lua.nil)

/-- `eval_module` -/
def evalModule (file moduleDir rel : Bytes) : Asking (Outcome G V) := do
  let (s, reply) ← evalInput lua run
    { ctx with currentDir := moduleDir, moduleDepth := ctx.moduleDepth + 1 } file rel s
  return (s, reply.filter lua.isTable)

/-- `eval_provider_implementation` -/
def evalProviderImplementation (file providerDir rel : Bytes) : Asking (Outcome G V) := do
  let (s, reply) ← evalInput lua run { ctx with currentDir := providerDir } file rel s
  return (s, reply.filter lua.isTable)

/-- `qstar_lua_import_file` -/
def importFile (raw : Bytes) : Asking (Outcome G V) :=
  if 0 < ctx.moduleDepth ∨ pathHasSuffix raw (ascii ".qst") = false then pure (s, none)
  else
    match resolveImportPath ctx raw with
    | none => pure (s, none)
    | some rel =>
      if rel ∈ ctx.importStack ∨ rel ∈ s.fragments then pure (s, none)
      else do
        let full := pathJoin ctx.rootDir rel
        if ← fileExists full then
          evalFragment lua run ctx s full (if dirname rel = ascii "." then [] else dirname rel)
        else return (s, none)

/-- `qstar_lua_import_module` -/
def importModule (raw : Bytes) : Asking (Outcome G V) :=
  if pathHasSuffix raw (ascii ".qsm") || pathHasSuffix raw (ascii ".qst") ||
      raw = ascii "qstar.lua" || raw.getLast? = some 47 then pure (s, none)
  else
    match resolveImportPath ctx raw with
    | none => pure (s, none)
    | some relDir =>
      let base := pathBasenameComponent relDir
      let rel := relDir ++ ascii "/" ++ base ++ ascii ".qsm"
      if base = [] ∨ rel ∈ ctx.importStack then pure (s, none)
      else
        match s.modules.lookup rel with
        | some v => pure (s, some v)
        | none =>
          if rel ∈ s.fragments then pure (s, none)
          else do
            let full := pathJoin ctx.rootDir rel
            if ← fileExists full then
              let (s, reply) ← evalModule lua run ctx s full relDir rel
              match reply with
              | none => return (s, none)
              | some v =>
                let exported := lua.readonly v
                return ({ s with modules := s.modules ++ [(rel, exported)] }, some exported)
            else return (s, none)

/-- The implementation of a provider whose manifest has been evaluated. -/
def useImplementation (path : ProviderPath) (manifest : V) (name : Bytes) :
    Asking (Outcome G V) := do
  let rel := pathJoin path.relDir name
  let full := pathJoinRootOrAbsolute ctx.rootDir rel
  if ← fileExists full then
    let (s, reply) ← evalProviderImplementation lua run ctx s full path.relDir rel
    match reply with
    | none => return (s, none)
    | some implementation =>
      let act := lua.activate s.graph manifest implementation path rel
      let providers := if act.registered then s.providers ++ [(path.rel, act.exports)]
        else s.providers
      return ({ s with graph := act.graph, providers }, act.exports)
  else return (s, none)

/-- `qstar_lua_use_language` -/
def useLanguage (raw : Bytes) : Asking (Outcome G V) :=
  if 0 < ctx.moduleDepth ∧ ctx.providerStack = [] then pure (s, none)
  else do
    match ← resolveLanguageProviderPath ctx.rootDir raw with
    | none => return (s, none)
    | some path =>
      if path.rel ∈ ctx.importStack ∨ path.rel ∈ ctx.providerStack then return (s, none)
      else
        match s.providers.lookup path.rel with
        | some exports => return (s, exports)
        | none =>
          if ← fileExists path.full then
            let (s, reply) ← evalModule lua run
              { ctx with providerStack := ctx.providerStack ++ [path.rel] } s path.full path.relDir
              path.rel
            match reply with
            | none => return (s, none)
            | some manifest =>
              match lua.manifest s.graph manifest with
              | none => return (s, none)
              | some name => useImplementation lua run ctx s path manifest name
          else return (s, none)

/-- `qstar_lua_subdir` -/
def subdir (dir : Bytes) : Asking (Outcome G V) :=
  if 0 < ctx.moduleDepth ∨ isPackageRelative dir = false then pure (s, none)
  else
    let fullDir :=
      if ascii "./" <+: dir then resolveFragmentRelativePath dir ctx.currentDir
      else some (if ctx.currentDir = [] then dir else pathJoin ctx.currentDir dir)
    match fullDir.filter isPackageRelative with
    | none => pure (s, none)
    | some fullDir => do
      let path := fullDir ++ ascii "/" ++ pathBasenameComponent fullDir ++ ascii ".qst"
      let candidate := pathJoin ctx.rootDir path
      if ← fileExists candidate then
        if path ∈ ctx.importStack ∨ path ∈ s.fragments then return (s, none)
        else evalFragment lua run ctx s candidate fullDir
      else return (s, none)

end Calls

/-- `has_glob_magic` -/
def hasGlobMagic (s : Bytes) : Bool := decide (42 ∈ s) || decide (63 ∈ s)

/-- `wildcard_match` -/
def wildcardMatch : Bytes → Bytes → Bool
  | [], text => text = []
  | 42 :: pattern, [] => wildcardMatch pattern []
  | 42 :: pattern, c :: text => wildcardMatch pattern (c :: text) || wildcardMatch (42 :: pattern) text
  | 63 :: pattern, c :: text => c ≠ 47 && wildcardMatch pattern text
  | p :: pattern, c :: text => p = c && wildcardMatch pattern text
  | _ :: _, [] => false
termination_by pattern text => (pattern.length, text.length)

/-- `split_glob_pattern`: the directory before the component with the first wildcard, and the
rest. -/
def splitGlobPattern (pattern : Bytes) : Bytes × Bytes :=
  let first := pattern.takeWhile fun c => c ≠ 42 && c ≠ 63
  match strrchr 47 first with
  | none => (ascii ".", pattern)
  | some slash => (pattern.take slash, pattern.drop (slash + 1))

/-- `expand_glob` -/
def expandGlob (root pattern : Bytes) : Asking (Option (List Bytes)) := do
  let (dir, base) := splitGlobPattern pattern
  match ← question (Question.names (pathJoin root dir)) with
  | none => return none
  | some names =>
    let found := names.filter fun name =>
      name ≠ ascii "." && name ≠ ascii ".." && wildcardMatch base name
    if found = [] then return none
    let rels := found.map fun name => if dir = ascii "." then name else dir ++ ascii "/" ++ name
    return some (rels.mergeSort bytesLe)

/-- `excluded_by_patterns` -/
def excludedByPatterns (path : Bytes) (excludes : List Bytes) : Bool :=
  excludes.any fun e => if hasGlobMagic e then wildcardMatch e path else e = path

/-- The paths of `qstar.files`; whether a glob came up before an error, and the paths unless one
was raised. -/
def expandPatterns (ctx : Context) : List Bytes → Asking (Bool × Option (List Bytes))
  | [] => pure (false, some [])
  | pattern :: rest =>
    match resolveFragmentRelativePath pattern ctx.currentDir with
    | none => pure (false, none)
    | some path => do
      if hasGlobMagic path then
        match ← expandGlob ctx.rootDir path with
        | none => return (true, none)
        | some found =>
          let (_, more) ← expandPatterns ctx rest
          return (true, more.map (found ++ ·))
      else
        let (globs, more) ← expandPatterns ctx rest
        return (globs, more.map (path :: ·))

/-- The exclude patterns of `qstar.files`, read like its paths. -/
def resolveExcludes (ctx : Context) : List Bytes → Bool × Option (List Bytes)
  | [] => (false, some [])
  | path :: rest =>
    let resolved :=
      if ascii "./" <+: path then resolveFragmentRelativePath path ctx.currentDir else some path
    match resolved with
    | none => (hasGlobMagic path, none)
    | some e =>
      let (globs, more) := resolveExcludes ctx rest
      (hasGlobMagic path || globs, more.map (e :: ·))

/-- `qstar_lua_files` -/
def files (lua : Lua G V) (ctx : Context) (s : EvalState G V) (exclude patterns : List Bytes) :
    Asking (Outcome G V) := do
  let (excludeGlobs, excludes) := resolveExcludes ctx exclude
  let s := { s with usesFileGlobs := s.usesFileGlobs || excludeGlobs }
  match excludes with
  | none => return (s, none)
  | some excludes =>
    let (globs, paths) ← expandPatterns ctx patterns
    let s := { s with usesFileGlobs := s.usesFileGlobs || globs }
    return (s, paths.map fun paths =>
      lua.list (paths.filter fun path => !excludedByPatterns path excludes))

/-- A call of the API. -/
def callQStar (lua : Lua G V)
    (run : Context → Chunk G V → EvalState G V → Asking (Outcome G V)) (ctx : Context)
    (c : Call G V) (s : EvalState G V) : Asking (Outcome G V) :=
  match c with
  | .importFile raw => importFile lua run ctx s raw
  | .importModule raw => importModule lua run ctx s raw
  | .useLanguage raw => useLanguage lua run ctx s raw
  | .subdir dir => subdir lua run ctx s dir
  | .files exclude patterns => files lua ctx s exclude patterns
  | .declare f =>
    match f ctx s.graph with
    | none => pure (s, none)
    | some (graph, v) => pure ({ s with graph }, some v)

/-- A chunk with the calls it makes. -/
def runChunk (call : Call G V → EvalState G V → Asking (Outcome G V)) :
    Chunk G V → EvalState G V → Asking (Outcome G V)
  | .returns v, s => pure (s, some v)
  | .raises, s => pure (s, none)
  | .calls c next, s => (call c s).bind fun outcome => runChunk call (next outcome.2) outcome.1

/-- Chunks that run inside each other up to the depth at which Lua reports an overflow of the C
stack. -/
def evalChunk (lua : Lua G V) : Nat → Context → Chunk G V → EvalState G V → Asking (Outcome G V)
  | 0, _, _, s => pure (s, none)
  | depth + 1, ctx, chunk, s => runChunk (callQStar lua (evalChunk lua depth) ctx) chunk s

/-- An evaluated graph and the authoring files that were evaluated for it. -/
structure Evaluated (G : Type) where
  request : EvalRequest
  packageRoot : Bytes
  graph : G
  usesFileGlobs : Bool
  fragments : List Bytes

/-- The root and the fragment directory of `discover_workspace_root`. -/
def discoverWorkspaceRoot (file : Bytes) : Asking (Option (Bytes × Bytes)) := do
  match ← discoverRoot file with
  | none => return none
  | some root => return (workspaceFragment root (dirname file)).map fun fragment => (root, fragment)

/-- `qstar_lua_eval_file` -/
def evalFile (lua : Lua G V) (depth : Nat) (r : EvalRequest) : Asking (Option (Evaluated G)) :=
  if pathHasSuffix r.entryFile (ascii ".qs") then pure none
  else do
    match ← discoverWorkspaceRoot r.entryFile with
    | none => return none
    | some (root, fragment) =>
      if fragment = [] ∧ pathBasenameComponent r.entryFile ≠ ascii "qstar.lua" then return none
      else
        let ctx : Context := ⟨root, [], [], [], 0⟩
        let (s, reply) ← evalFragment lua (evalChunk lua depth) ctx
          ⟨lua.start r, false, [], [], []⟩ r.entryFile fragment
        match reply, lua.lowerFinals s.graph with
        | some _, some graph =>
          return some ⟨r, root, graph, s.usesFileGlobs, s.fragments⟩
        | _, _ => return none

end QStar.Authoring
