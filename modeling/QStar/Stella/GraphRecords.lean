import QStar.Lib.Wire

/-!
# The graph cache file

The records of a graph in `graph.qsg`, as two sets of functions write and read them: no
record has a tag or a length, only strings and arrays have counts in front. A reader refuses
a count above its limit. Numbers are in the byte order of a little-endian host.
-/
namespace QStar.Stella.GraphCache

open QStar.Lib.CStrings
open QStar.Lib.Wire

/-- `QSTAR_STELLA_MAX_STRING` -/
def maxString : Nat := 16 * 1024 * 1024

def maxEntries : Nat := 1000000

def maxArtifacts : Nat := 16

/-! ## Strings and arrays -/

/-- A string of the length a reader takes. -/
@[ext] structure Text where
  bytes : Bytes
  no_nul : 0 ∉ bytes
  length_le : bytes.length ≤ maxString
  deriving DecidableEq

/-- `""` -/
def Text.empty : Text := ⟨[], List.not_mem_nil, Nat.zero_le _⟩

/-- A string that may be NULL -/
abbrev Str := Option Text

/-- An array of the length a reader takes. -/
@[ext] structure Entries (limit : Nat) (α : Type) where
  items : List α
  length_le : items.length ≤ limit
  deriving DecidableEq

/-- The strings of a list are copies and not NULL. -/
abbrev StringList := Entries maxEntries Text

variable {α β : Type} {limit : Nat}

namespace Entries

/-- What an allocated record holds before anything is pushed. -/
instance : Inhabited (Entries limit α) := ⟨⟨[], Nat.zero_le _⟩⟩

def map (f : α → β) (xs : Entries limit α) : Entries limit β :=
  ⟨xs.items.map f, by simpa using xs.length_le⟩

theorem map_id (xs : Entries limit α) : xs.map id = xs := by
  ext1
  exact List.map_id _

end Entries

def writeU64 (n : Nat) : Bytes := leBytes 8 n

def readU64 : Reader Nat := readLe 8

def writeI32 (v : Int32) : Bytes := leBytes 4 v.toUInt32.toNat

def readI32 : Reader Int32 := do
  let n ← readLe 4
  return (UInt32.ofNat n).toInt32

/-- `UINT64_MAX`, the length of NULL -/
def nullLength : Nat := 2 ^ 64 - 1

def writeStr : Str → Bytes
  | none => writeU64 nullLength
  | some s => writeU64 s.bytes.length ++ s.bytes

/-- The bytes of a string behind its length. -/
def readText (len : Nat) (h : len ≤ maxString) : Reader Text := fun s =>
  if s.length < len then none
  else
    have hnul : 0 ∉ cString (s.take len) := fun hmem => by
      simpa using List.mem_takeWhile_imp hmem
    have hlen : (cString (s.take len)).length ≤ maxString :=
      ((List.takeWhile_prefix _).length_le.trans (List.length_take_le len s)).trans h
    some (⟨cString (s.take len), hnul, hlen⟩, s.drop len)

def readStr : Reader Str := do
  let len ← readU64
  if len = nullLength then return none
  else if h : len ≤ maxString then
    let s ← readText len h
    return some s
  else failure

/-- A count and so many records. -/
def writeEntries (write : α → Bytes) (xs : Entries limit α) : Bytes :=
  writeU64 xs.items.length ++ xs.items.flatMap write

def readEntries (limit : Nat) (read : Reader α) : Reader (Entries limit α) := do
  let n ← readU64
  if h : n ≤ limit then
    let xs ← readExactly read n
    return ⟨xs.1, by rw [xs.2]; exact h⟩
  else failure

def writeList (xs : StringList) : Bytes := writeEntries (fun s => writeStr (some s)) xs

/-- `qstar_string_list_push` takes NULL for the empty string. -/
def readList : Reader StringList :=
  readEntries maxEntries do
    let s ← readStr
    return s.getD Text.empty

/-! ## Toolsets -/

/-- `struct qstar_tool_role` -/
structure ToolRole where
  role : Text
  argv : StringList

/-- `struct qstar_toolset` -/
structure Toolset where
  label : Str
  name : Str
  fragmentDir : Str
  originFile : Str
  originLine : Int32
  roles : Entries maxEntries ToolRole
  pathTools : StringList
  responseFileTools : StringList
  responseFiles : Str
  responseStyle : Str
  allowAbsoluteTools : Str
  deriving Inhabited

def writeToolRole (r : ToolRole) : Bytes := [writeStr (some r.role), writeList r.argv].flatten

def writeToolset (toolset : Toolset) : Bytes :=
  [writeStr toolset.label, writeStr toolset.name, writeStr toolset.fragmentDir,
    writeStr toolset.originFile, writeI32 toolset.originLine, writeEntries writeToolRole toolset.roles,
    writeList toolset.pathTools, writeList toolset.responseFileTools, writeStr toolset.responseFiles,
    writeStr toolset.responseStyle, writeStr toolset.allowAbsoluteTools].flatten

/-- `qstar_toolset_add_role`: the name of the new role, unless it is empty or there. -/
def addRole (roles : List ToolRole) (role : Str) : Option Text := do
  let name ← role
  guard (name.bytes ≠ [])
  guard (∀ r ∈ roles, r.role ≠ name)
  return name

/-- The roles after those that are there. -/
def readRoles : (n : Nat) → (roles : List ToolRole) →
    Reader {rs : List ToolRole // rs.length = roles.length + n}
  | 0, roles => return ⟨roles, rfl⟩
  | n + 1, roles => do
    let role ← readStr
    let name ← (addRole roles role : Option Text)
    let argv ← readList
    let rs ← readRoles n (roles ++ [⟨name, argv⟩])
    return ⟨rs.1, by simpa [Nat.add_assoc, Nat.add_comm 1] using rs.2⟩

/-- `compare_tool_role` -/
def roleLe (a b : ToolRole) : Bool := bytesLe a.role.bytes b.role.bytes

/-- `qstar_toolset_sort_roles` -/
def sortRoles (roles : Entries maxEntries ToolRole) : Entries maxEntries ToolRole :=
  ⟨roles.items.mergeSort roleLe, by rw [List.length_mergeSort]; exact roles.length_le⟩

def readToolRoles : Reader (Entries maxEntries ToolRole) := do
  let n ← readU64
  if h : n ≤ maxEntries then
    let rs ← readRoles n []
    return sortRoles ⟨rs.1, by simpa [rs.2] using h⟩
  else failure

def readToolset : Reader Toolset := do
  let label ← readStr
  let name ← readStr
  let fragmentDir ← readStr
  let originFile ← readStr
  let originLine ← readI32
  let roles ← readToolRoles
  let pathTools ← readList
  let responseFileTools ← readList
  let responseFiles ← readStr
  let responseStyle ← readStr
  let allowAbsoluteTools ← readStr
  return { label, name, fragmentDir, originFile, originLine, roles, pathTools, responseFileTools,
           responseFiles, responseStyle, allowAbsoluteTools }

/-! ## Provider actions and language providers -/

/-- `struct qstar_provider_action_template` -/
structure ProviderAction where
  argv : StringList
  env : StringList
  inputs : StringList
  outputs : StringList
  depfile : Str
  wantsDepfile : Int32
  deriving Inhabited

def writeProviderAction (action : ProviderAction) : Bytes :=
  [writeList action.argv, writeList action.env, writeList action.inputs, writeList action.outputs,
    writeStr action.depfile, writeI32 action.wantsDepfile].flatten

def readProviderAction : Reader ProviderAction := do
  let argv ← readList
  let env ← readList
  let inputs ← readList
  let outputs ← readList
  let depfile ← readStr
  let wantsDepfile ← readI32
  return { argv, env, inputs, outputs, depfile, wantsDepfile }

/-- `struct qstar_provider_artifact_descriptor` -/
structure ProviderArtifact where
  id : Str
  type : Str
  suffix : Str
  path : Str
  primary : Int32
  secondary : Int32
  runtime : Int32
  linkInterface : Int32

def writeProviderArtifact (artifact : ProviderArtifact) : Bytes :=
  [writeStr artifact.id, writeStr artifact.type, writeStr artifact.suffix, writeStr artifact.path,
    writeI32 artifact.primary, writeI32 artifact.secondary, writeI32 artifact.runtime,
    writeI32 artifact.linkInterface].flatten

def readProviderArtifact : Reader ProviderArtifact := do
  let id ← readStr
  let type ← readStr
  let suffix ← readStr
  let path ← readStr
  let primary ← readI32
  let secondary ← readI32
  let runtime ← readI32
  let linkInterface ← readI32
  return { id, type, suffix, path, primary, secondary, runtime, linkInterface }

/-- `struct qstar_language_option_schema` -/
structure LanguageOption where
  name : Str
  type : Str
  hasDefault : Int32
  defaultValue : Str
  defaultList : StringList
  values : StringList

/-- `struct qstar_language_unit_schema` -/
structure LanguageUnit where
  name : Str
  suffixes : StringList
  emits : Str
  lower : Str
  deps : Str

/-- `struct qstar_language_final_schema` -/
structure LanguageFinal where
  kind : Str
  lower : Str
  inputs : StringList
  artifacts : Entries maxArtifacts ProviderArtifact

/-- `struct qstar_language_provider` -/
structure LanguageProvider where
  api : Str
  id : Str
  nameSpace : Str
  version : Str
  dir : Str
  manifest : Str
  implementation : Str
  options : Entries maxEntries LanguageOption
  units : Entries maxEntries LanguageUnit
  finals : Entries maxEntries LanguageFinal

def writeLanguageOption (option : LanguageOption) : Bytes :=
  [writeStr option.name, writeStr option.type, writeI32 option.hasDefault,
    writeStr option.defaultValue, writeList option.defaultList, writeList option.values].flatten

def readLanguageOption : Reader LanguageOption := do
  let name ← readStr
  let type ← readStr
  let hasDefault ← readI32
  let defaultValue ← readStr
  let defaultList ← readList
  let values ← readList
  return { name, type, hasDefault, defaultValue, defaultList, values }

def writeLanguageUnit (unit : LanguageUnit) : Bytes :=
  [writeStr unit.name, writeList unit.suffixes, writeStr unit.emits, writeStr unit.lower,
    writeStr unit.deps].flatten

def readLanguageUnit : Reader LanguageUnit := do
  let name ← readStr
  let suffixes ← readList
  let emits ← readStr
  let lower ← readStr
  let deps ← readStr
  return { name, suffixes, emits, lower, deps }

def writeLanguageFinal (final : LanguageFinal) : Bytes :=
  [writeStr final.kind, writeStr final.lower, writeList final.inputs,
    writeEntries writeProviderArtifact final.artifacts].flatten

def readLanguageFinal : Reader LanguageFinal := do
  let kind ← readStr
  let lower ← readStr
  let inputs ← readList
  let artifacts ← readEntries maxArtifacts readProviderArtifact
  return { kind, lower, inputs, artifacts }

def writeLanguageProvider (provider : LanguageProvider) : Bytes :=
  [writeStr provider.api, writeStr provider.id, writeStr provider.nameSpace,
    writeStr provider.version, writeStr provider.dir, writeStr provider.manifest,
    writeStr provider.implementation, writeEntries writeLanguageOption provider.options,
    writeEntries writeLanguageUnit provider.units, writeEntries writeLanguageFinal provider.finals].flatten

def readLanguageProvider : Reader LanguageProvider := do
  let api ← readStr
  let id ← readStr
  let nameSpace ← readStr
  let version ← readStr
  let dir ← readStr
  let manifest ← readStr
  let implementation ← readStr
  let options ← readEntries maxEntries readLanguageOption
  let units ← readEntries maxEntries readLanguageUnit
  let finals ← readEntries maxEntries readLanguageFinal
  return { api, id, nameSpace, version, dir, manifest, implementation, options, units, finals }

/-! ## Targets -/

/-- `struct qstar_modules` -/
structure Modules where
  present : Int32
  root : Str
  includes : StringList
  excludes : StringList
  deriving Inhabited

/-- `struct qstar_provider_source_unit` -/
structure ProviderSourceUnit where
  sourceIndex : Nat
  path : Str
  provider : Str
  unit : Str
  emits : Str
  lower : Str
  toolsetRole : Str
  action : ProviderAction
  deriving Inhabited

/-- `struct qstar_provider_final_action` -/
structure ProviderFinalAction where
  present : Int32
  api : Str
  provider : Str
  kind : Str
  lower : Str
  inputOwnership : StringList
  artifacts : Entries maxArtifacts ProviderArtifact
  action : ProviderAction
  deriving Inhabited

/-- `struct qstar_imported_artifact` -/
structure ImportedArtifact where
  platform : Str
  id : Str
  role : Str
  path : Str
  primary : Int32

/-- `struct qstar_provider_option_value` -/
structure ProviderOption where
  provider : Str
  name : Str
  type : Str
  value : Str
  list : StringList

/-- The fields of `struct qstar_target` that are written -/
structure TargetRecord where
  label : Str
  name : Str
  kind : Str
  fragmentDir : Str
  originFile : Str
  originLine : Int32
  modules : Modules
  configs : StringList
  sources : StringList
  objects : StringList
  providerSources : Entries maxEntries ProviderSourceUnit
  providerFinal : ProviderFinalAction
  publicHeaders : StringList
  privateHeaders : StringList
  includeDirs : StringList
  publicIncludeDirs : StringList
  privateIncludeDirs : StringList
  interfaceIncludeDirs : StringList
  systemIncludeDirs : StringList
  deps : StringList
  privateDeps : StringList
  visibility : StringList
  libs : StringList
  libDirs : StringList
  frameworks : StringList
  linkOptions : StringList
  linkInputs : StringList
  compileUsageOptions : StringList
  compileUsageInputs : StringList
  linkUsageOptions : StringList
  linkUsageInputs : StringList
  importedArtifacts : Entries maxEntries ImportedArtifact
  cflags : StringList
  cxxflags : StringList
  asmIncludeDirs : StringList
  asmCompileOptions : StringList
  providerOptions : Entries maxEntries ProviderOption
  runInputs : StringList
  runCommand : StringList
  description : Str
  artifactName : Str
  importedArtifactKind : Str
  toolPath : Str
  compileContext : Str
  cxxStandard : Str
  cxxPrecompiledHeader : Str
  runExpectContains : Str
  runExpectFile : Str
  runTimeoutSec : Int32
  asmPreprocess : Int32
  cxxModulesPresent : Int32
  cxxModulesEnabled : Int32
  cxxPchPresent : Int32
  cxxUnityPresent : Int32
  cxxUnityEnabled : Int32
  cxxUnityBatchSize : Int32
  cacheablePresent : Int32
  cacheable : Int32
  toolset : Str
  deriving Inhabited

def writeProviderSourceUnit (source : ProviderSourceUnit) : Bytes :=
  [writeU64 source.sourceIndex, writeStr source.path, writeStr source.provider, writeStr source.unit,
    writeStr source.emits, writeStr source.lower, writeStr source.toolsetRole,
    writeProviderAction source.action].flatten

def readProviderSourceUnit : Reader ProviderSourceUnit := do
  let sourceIndex ← readU64
  guard (sourceIndex ≤ maxEntries)
  let path ← readStr
  let provider ← readStr
  let unit ← readStr
  let emits ← readStr
  let lower ← readStr
  let toolsetRole ← readStr
  let action ← readProviderAction
  return { sourceIndex, path, provider, unit, emits, lower, toolsetRole, action }

def writeImportedArtifact (artifact : ImportedArtifact) : Bytes :=
  [writeStr artifact.platform, writeStr artifact.id, writeStr artifact.role, writeStr artifact.path,
    writeI32 artifact.primary].flatten

def readImportedArtifact : Reader ImportedArtifact := do
  let platform ← readStr
  let id ← readStr
  let role ← readStr
  let path ← readStr
  let primary ← readI32
  return { platform, id, role, path, primary }

def writeProviderOption (option : ProviderOption) : Bytes :=
  [writeStr option.provider, writeStr option.name, writeStr option.type, writeStr option.value,
    writeList option.list].flatten

def readProviderOption : Reader ProviderOption := do
  let provider ← readStr
  let name ← readStr
  let type ← readStr
  let value ← readStr
  let list ← readList
  return { provider, name, type, value, list }

/-- `write_target` -/
def writeTarget (t : TargetRecord) : Bytes :=
  [writeStr t.label, writeStr t.name, writeStr t.kind, writeStr t.fragmentDir, writeStr t.originFile,
    writeI32 t.originLine, writeI32 t.modules.present, writeStr t.modules.root,
    writeList t.modules.includes, writeList t.modules.excludes,
    writeList t.configs, writeList t.sources, writeList t.objects,
    writeEntries writeProviderSourceUnit t.providerSources,
    writeI32 t.providerFinal.present, writeStr t.providerFinal.api, writeStr t.providerFinal.provider,
    writeStr t.providerFinal.kind, writeStr t.providerFinal.lower,
    writeList t.providerFinal.inputOwnership,
    writeEntries writeProviderArtifact t.providerFinal.artifacts,
    writeProviderAction t.providerFinal.action,
    writeList t.publicHeaders, writeList t.privateHeaders, writeList t.includeDirs,
    writeList t.publicIncludeDirs, writeList t.privateIncludeDirs, writeList t.interfaceIncludeDirs,
    writeList t.systemIncludeDirs, writeList t.deps, writeList t.privateDeps, writeList t.visibility,
    writeList t.libs, writeList t.libDirs, writeList t.frameworks, writeList t.linkOptions,
    writeList t.linkInputs, writeList t.compileUsageOptions, writeList t.compileUsageInputs,
    writeList t.linkUsageOptions, writeList t.linkUsageInputs,
    writeEntries writeImportedArtifact t.importedArtifacts,
    writeList t.cflags, writeList t.cxxflags, writeList t.asmIncludeDirs,
    writeList t.asmCompileOptions,
    writeEntries writeProviderOption t.providerOptions,
    writeList t.runInputs, writeList t.runCommand,
    writeStr t.description, writeStr t.artifactName, writeStr t.importedArtifactKind,
    writeStr t.toolPath, writeStr t.compileContext, writeStr t.cxxStandard,
    writeStr t.cxxPrecompiledHeader, writeStr t.runExpectContains, writeStr t.runExpectFile,
    writeI32 t.runTimeoutSec, writeI32 t.asmPreprocess, writeI32 t.cxxModulesPresent,
    writeI32 t.cxxModulesEnabled, writeI32 t.cxxPchPresent, writeI32 t.cxxUnityPresent,
    writeI32 t.cxxUnityEnabled, writeI32 t.cxxUnityBatchSize, writeI32 t.cacheablePresent,
    writeI32 t.cacheable, writeStr t.toolset].flatten

/-- `read_target` -/
def readTarget : Reader TargetRecord := do
  let label ← readStr
  let name ← readStr
  let kind ← readStr
  let fragmentDir ← readStr
  let originFile ← readStr
  let originLine ← readI32
  let modulesPresent ← readI32
  let modulesRoot ← readStr
  let modulesIncludes ← readList
  let modulesExcludes ← readList
  let configs ← readList
  let sources ← readList
  let objects ← readList
  let providerSources ← readEntries maxEntries readProviderSourceUnit
  let finalPresent ← readI32
  let finalApi ← readStr
  let finalProvider ← readStr
  let finalKind ← readStr
  let finalLower ← readStr
  let finalInputOwnership ← readList
  let finalArtifacts ← readEntries maxArtifacts readProviderArtifact
  let finalAction ← readProviderAction
  let publicHeaders ← readList
  let privateHeaders ← readList
  let includeDirs ← readList
  let publicIncludeDirs ← readList
  let privateIncludeDirs ← readList
  let interfaceIncludeDirs ← readList
  let systemIncludeDirs ← readList
  let deps ← readList
  let privateDeps ← readList
  let visibility ← readList
  let libs ← readList
  let libDirs ← readList
  let frameworks ← readList
  let linkOptions ← readList
  let linkInputs ← readList
  let compileUsageOptions ← readList
  let compileUsageInputs ← readList
  let linkUsageOptions ← readList
  let linkUsageInputs ← readList
  let importedArtifacts ← readEntries maxEntries readImportedArtifact
  let cflags ← readList
  let cxxflags ← readList
  let asmIncludeDirs ← readList
  let asmCompileOptions ← readList
  let providerOptions ← readEntries maxEntries readProviderOption
  let runInputs ← readList
  let runCommand ← readList
  let description ← readStr
  let artifactName ← readStr
  let importedArtifactKind ← readStr
  let toolPath ← readStr
  let compileContext ← readStr
  let cxxStandard ← readStr
  let cxxPrecompiledHeader ← readStr
  let runExpectContains ← readStr
  let runExpectFile ← readStr
  let runTimeoutSec ← readI32
  let asmPreprocess ← readI32
  let cxxModulesPresent ← readI32
  let cxxModulesEnabled ← readI32
  let cxxPchPresent ← readI32
  let cxxUnityPresent ← readI32
  let cxxUnityEnabled ← readI32
  let cxxUnityBatchSize ← readI32
  let cacheablePresent ← readI32
  let cacheable ← readI32
  let toolset ← readStr
  return {
    label, name, kind, fragmentDir, originFile, originLine
    modules := {
      present := modulesPresent, root := modulesRoot
      includes := modulesIncludes, excludes := modulesExcludes }
    configs, sources, objects, providerSources
    providerFinal := {
      present := finalPresent, api := finalApi, provider := finalProvider, kind := finalKind
      lower := finalLower, inputOwnership := finalInputOwnership, artifacts := finalArtifacts
      action := finalAction }
    publicHeaders, privateHeaders, includeDirs, publicIncludeDirs, privateIncludeDirs
    interfaceIncludeDirs, systemIncludeDirs, deps, privateDeps, visibility, libs, libDirs
    frameworks, linkOptions, linkInputs, compileUsageOptions, compileUsageInputs
    linkUsageOptions, linkUsageInputs, importedArtifacts, cflags, cxxflags, asmIncludeDirs
    asmCompileOptions, providerOptions, runInputs, runCommand, description, artifactName
    importedArtifactKind, toolPath, compileContext, cxxStandard, cxxPrecompiledHeader
    runExpectContains, runExpectFile, runTimeoutSec, asmPreprocess, cxxModulesPresent
    cxxModulesEnabled, cxxPchPresent, cxxUnityPresent, cxxUnityEnabled, cxxUnityBatchSize
    cacheablePresent, cacheable, toolset }

/-! ## Genrules, stages and families -/

/-- `struct qstar_genrule` -/
structure GenruleRecord where
  label : Str
  name : Str
  fragmentDir : Str
  originFile : Str
  originLine : Int32
  tool : Str
  toolset : Str
  description : Str
  configHeader : Int32
  cacheablePresent : Int32
  cacheable : Int32
  inputs : StringList
  outputs : StringList
  outputGroups : StringList
  outputFormats : StringList
  args : StringList
  command : StringList

def writeGenrule (g : GenruleRecord) : Bytes :=
  [writeStr g.label, writeStr g.name, writeStr g.fragmentDir, writeStr g.originFile,
    writeI32 g.originLine, writeStr g.tool, writeStr g.toolset, writeStr g.description,
    writeI32 g.configHeader, writeI32 g.cacheablePresent, writeI32 g.cacheable, writeList g.inputs,
    writeList g.outputs, writeList g.outputGroups, writeList g.outputFormats, writeList g.args,
    writeList g.command].flatten

def readGenrule : Reader GenruleRecord := do
  let label ← readStr
  let name ← readStr
  let fragmentDir ← readStr
  let originFile ← readStr
  let originLine ← readI32
  let tool ← readStr
  let toolset ← readStr
  let description ← readStr
  let configHeader ← readI32
  let cacheablePresent ← readI32
  let cacheable ← readI32
  let inputs ← readList
  let outputs ← readList
  let outputGroups ← readList
  let outputFormats ← readList
  let args ← readList
  let command ← readList
  return { label, name, fragmentDir, originFile, originLine, tool, toolset, description,
           configHeader, cacheablePresent, cacheable, inputs, outputs, outputGroups, outputFormats,
           args, command }

/-- `struct qstar_stage` -/
structure StageRecord where
  label : Str
  name : Str
  fragmentDir : Str
  originFile : Str
  originLine : Int32
  root : Str
  description : Str
  srcs : StringList
  dsts : StringList

def writeStage (s : StageRecord) : Bytes :=
  [writeStr s.label, writeStr s.name, writeStr s.fragmentDir, writeStr s.originFile,
    writeI32 s.originLine, writeStr s.root, writeStr s.description, writeList s.srcs,
    writeList s.dsts].flatten

def readStage : Reader StageRecord := do
  let label ← readStr
  let name ← readStr
  let fragmentDir ← readStr
  let originFile ← readStr
  let originLine ← readI32
  let root ← readStr
  let description ← readStr
  let srcs ← readList
  let dsts ← readList
  return { label, name, fragmentDir, originFile, originLine, root, description, srcs, dsts }

/-- `struct qstar_target_family` -/
structure TargetFamily where
  name : Str
  fragmentDir : Str
  originFile : Str
  originLine : Int32
  allowSharedSources : Int32
  variants : StringList
  targets : StringList

def writeFamily (family : TargetFamily) : Bytes :=
  [writeStr family.name, writeStr family.fragmentDir, writeStr family.originFile,
    writeI32 family.originLine, writeI32 family.allowSharedSources, writeList family.variants,
    writeList family.targets].flatten

def readFamily : Reader TargetFamily := do
  let name ← readStr
  let fragmentDir ← readStr
  let originFile ← readStr
  let originLine ← readI32
  let allowSharedSources ← readI32
  let variants ← readList
  let targets ← readList
  return { name, fragmentDir, originFile, originLine, allowSharedSources, variants, targets }

/-! ## The file -/

/-- `struct qstar_project` -/
structure ProjectRecord where
  present : Int32
  name : Str
  version : Str
  root : Str
  buildDir : Str
  generatedDir : Str
  compileCommands : Str
  actionCache : Str
  deriving Inhabited

/-- `struct qstar_package_alias` -/
structure PackageAlias where
  aliasName : Str
  root : Str

/-- The fields of `struct qstar_graph` that are written -/
structure GraphRecord where
  packageRoot : Str
  generator : Str
  requestedGenerator : Str
  buildDirOverride : Str
  project : ProjectRecord
  usesFileGlobs : Int32
  platform : Str
  evaluatedFragments : StringList
  packages : Entries maxEntries PackageAlias
  toolsets : Entries maxEntries Toolset
  languageProviders : Entries maxEntries LanguageProvider
  targets : Entries maxEntries TargetRecord
  genrules : Entries maxEntries GenruleRecord
  stages : Entries maxEntries StageRecord
  families : Entries maxEntries TargetFamily
  deriving Inhabited

/-- `QSTAR_STELLA_GRAPH_MAGIC` -/
def graphMagic : Text := ⟨ascii "qstar-stella-graph-cache-v8", by decide, by decide⟩

/-- `QSTAR_STELLA_PLAN_ABI` -/
def planAbi : Nat := 16

def writePackageAlias (p : PackageAlias) : Bytes := [writeStr p.aliasName, writeStr p.root].flatten

def readPackageAlias : Reader PackageAlias := do
  let aliasName ← readStr
  let root ← readStr
  return { aliasName, root }

/-- `write_graph_cache_file` -/
def writeGraphCacheFile (graph : GraphRecord) : Bytes :=
  [writeStr (some graphMagic), writeU64 planAbi, writeStr graph.packageRoot, writeStr graph.generator,
    writeStr graph.requestedGenerator, writeStr graph.buildDirOverride,
    writeI32 graph.project.present, writeStr graph.project.name, writeStr graph.project.version,
    writeStr graph.project.root, writeStr graph.project.buildDir, writeStr graph.project.generatedDir,
    writeStr graph.project.compileCommands, writeStr graph.project.actionCache,
    writeI32 graph.usesFileGlobs, writeStr graph.platform, writeList graph.evaluatedFragments,
    writeEntries writePackageAlias graph.packages, writeEntries writeToolset graph.toolsets,
    writeEntries writeLanguageProvider graph.languageProviders, writeEntries writeTarget graph.targets,
    writeEntries writeGenrule graph.genrules, writeEntries writeStage graph.stages,
    writeEntries writeFamily graph.families].flatten

/-- `read_graph_cache_file`; what follows the last family is left. -/
def readGraphCacheFile : Reader GraphRecord := do
  let magic ← readStr
  guard (magic = some graphMagic)
  let version ← readU64
  guard (version = planAbi)
  let packageRoot ← readStr
  let generator ← readStr
  let requestedGenerator ← readStr
  let buildDirOverride ← readStr
  let projectPresent ← readI32
  let projectName ← readStr
  let projectVersion ← readStr
  let projectRoot ← readStr
  let projectBuildDir ← readStr
  let projectGeneratedDir ← readStr
  let projectCompileCommands ← readStr
  let projectActionCache ← readStr
  let usesFileGlobs ← readI32
  let platform ← readStr
  let evaluatedFragments ← readList
  let packages ← readEntries maxEntries readPackageAlias
  let toolsets ← readEntries maxEntries readToolset
  let languageProviders ← readEntries maxEntries readLanguageProvider
  let targets ← readEntries maxEntries readTarget
  let genrules ← readEntries maxEntries readGenrule
  let stages ← readEntries maxEntries readStage
  let families ← readEntries maxEntries readFamily
  return {
    packageRoot, generator, requestedGenerator, buildDirOverride
    project := {
      present := projectPresent, name := projectName, version := projectVersion
      root := projectRoot, buildDir := projectBuildDir, generatedDir := projectGeneratedDir
      compileCommands := projectCompileCommands, actionCache := projectActionCache }
    usesFileGlobs, platform, evaluatedFragments, packages, toolsets, languageProviders
    targets, genrules, stages, families }

end QStar.Stella.GraphCache
