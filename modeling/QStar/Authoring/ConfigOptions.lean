import QStar.Authoring.DeclaredScalars
import QStar.ProjectCommands.CommandLines

/-!
# The options of configs and targets

A config is a set of options under a label, read from its table as the options of a target are.
A target starts from its defaults, takes over what its configs have, one after another, and then
reads its own table. Tables are plain: an exported table of a module has no entries of its own.
-/
namespace QStar.Authoring.ConfigOptions

open QStar.Lib.Bindings
open QStar.Lib.CStrings
open QStar.Base
open QStar.ProjectCommands (CliValue formatPlaceholderToken)
open QStar.Authoring.DeclaredScalars (TextReader readInteger pathMax)

/-! ## Tables -/

/-- An item of a list. -/
inductive Item where
  | text (s : Bytes)
  /-- `qstar.output(path, …)` -/
  | outputPath (path : Bytes)
  | placeholder (value : CliValue)

/-- A field that is read as a text where it is one. -/
inductive TextField where
  | absent
  | text (s : Bytes)
  | other

/-- The fields that `lang.c` and `lang.cxx` have in common; an absent list is empty. -/
structure LangFields where
  publicHeaders : List Item := []
  privateHeaders : List Item := []
  includeDirs : List Item := []
  publicIncludeDirs : List Item := []
  privateIncludeDirs : List Item := []
  systemIncludeDirs : List Item := []
  compileOptions : List Item := []
  defines : List Item := []

structure UnityFields where
  enabled : Option Bool := none
  batchSize : Option Int64 := none

structure CxxFields extends LangFields where
  standard : TextField := .absent
  precompiledHeader : TextField := .absent
  unity : Option UnityFields := none
  /-- the table and its `enabled` -/
  modules : Option (Option Bool) := none

structure AsmFields where
  includeDirs : List Item := []
  compileOptions : List Item := []
  preprocess : Option Bool := none

inductive ProviderValue where
  | text (s : Bytes)
  | boolean (b : Bool)
  | list (items : List Bytes)
  | other

/-- The options in the table of a config or a target. The schema has only texts in `libs`,
`lib_dirs` and `link_options`. -/
structure Fields where
  c : Option LangFields := none
  cxx : Option CxxFields := none
  asm : Option AsmFields := none
  /-- the other namespaces of `lang` with their options, in the order of `lua_next` -/
  providers : List (Bytes × List (Bytes × ProviderValue)) := []
  libs : List Bytes := []
  libDirs : List Bytes := []
  frameworks : List Item := []
  linkOptions : List Bytes := []
  linkInputs : List Item := []
  toolset : Option Bytes := none
  artifactName : Option Bytes := none
  cacheable : Option Bool := none

/-! ## Options -/

/-- The lists of `struct qstar_target` that `merge_config_lists` goes through. -/
inductive ListOption where
  | publicHeaders
  | privateHeaders
  | includeDirs
  | publicIncludeDirs
  | privateIncludeDirs
  | interfaceIncludeDirs
  | systemIncludeDirs
  | libs
  | libDirs
  | frameworks
  | linkOptions
  | linkInputs
  | cflags
  | cxxflags
  | asmIncludeDirs
  | asmCompileOptions
  deriving DecidableEq

/-- `struct qstar_provider_option_value` without its provider and name -/
structure ProviderOption where
  type : Bytes
  value : Bytes
  list : List Bytes
  deriving DecidableEq

/-- The options of `struct qstar_target`; a string that is `NULL` is `none`. The module roots that
no table can give are left out. -/
structure Options where
  lists : ListOption → List Bytes
  /-- by provider and name -/
  providerOptions : List ((Bytes × Bytes) × ProviderOption)
  artifactName : Option Bytes
  cxxStandard : Option Bytes
  cxxPrecompiledHeader : Option Bytes
  cxxPchPresent : Bool
  toolset : Option Bytes
  asmPreprocess : Bool
  cxxModulesPresent : Bool
  cxxModulesEnabled : Bool
  cxxUnityPresent : Bool
  cxxUnityEnabled : Bool
  cxxUnityBatchSize : Int32
  cacheablePresent : Bool
  cacheable : Bool

/-- The options `qstar_graph_add_config` makes. -/
def cleared : Options where
  lists _ := []
  providerOptions := []
  artifactName := none
  cxxStandard := none
  cxxPrecompiledHeader := none
  cxxPchPresent := false
  toolset := none
  asmPreprocess := false
  cxxModulesPresent := false
  cxxModulesEnabled := false
  cxxUnityPresent := false
  cxxUnityEnabled := false
  cxxUnityBatchSize := 0
  cacheablePresent := false
  cacheable := false

/-- The options `qstar_graph_add_target` makes. -/
def defaults : Options :=
  { cleared with
    artifactName := some []
    cxxStandard := some []
    cxxPrecompiledHeader := some []
    toolset := some []
    cxxUnityBatchSize := 8
    cacheable := true }

/-- `copy_string_list` to one of the lists -/
def Options.push (s : Options) (o : ListOption) (items : List Bytes) : Options :=
  { s with lists := fun o' => if o' = o then s.lists o' ++ items else s.lists o' }

/-- The types of the options of a language provider. -/
inductive OptionSchema where
  | string
  | bool
  | list
  | enum (values : List Bytes)

def OptionSchema.type : OptionSchema → Bytes
  | .string => ascii "string"
  | .bool => ascii "bool"
  | .list => ascii "list"
  | .enum _ => ascii "enum"

/-- The language providers of the graph with the schemas of their options. -/
abbrev Providers := List (Bytes × List (Bytes × OptionSchema))

/-! ## Reading a table -/

/-- An item of `push_table_strings` -/
def Item.string : Item → Option Bytes
  | .text s => some s
  | .outputPath path => some path
  | .placeholder _ => none

/-- `resolve_fragment_path_or_error` -/
def resolvePath (dir raw : Bytes) : Option Bytes := (TextReader.path dir).form raw

/-- An item of `push_table_path_strings` -/
def Item.path (dir : Bytes) : Item → Option Bytes
  | .text s => resolvePath dir s
  | .outputPath path => some path
  | .placeholder _ => none

/-- An item of `read_target_file_list_field` -/
def Item.targetFile (dir : Bytes) : Item → Option Bytes
  | .text s => (resolvePath dir s).filter (· ≠ [])
  | .placeholder (.targetFile label artifact) => formatPlaceholderToken (.targetFile label artifact)
  | _ => none

/-- An item of `read_lang_defines` -/
def Item.define : Item → Option Bytes
  | .text s => TextReader.define.form s
  | _ => none

/-- `lua_isstring(L, -1) ? lua_tostring(L, -1) : NULL` -/
def TextField.toOption : TextField → Option Bytes
  | .text s => some s
  | _ => none

/-- `nested_lang_field_present` -/
def TextField.present : TextField → Bool
  | .absent => false
  | _ => true

/-- The items of a list are read one after another into a list of the options. -/
def readInto {α : Type} (read : α → Option Bytes) (o : ListOption) (items : List α) (s : Options) : Option Options :=
  (items.mapM read).map (s.push o)

/-- `validate_provider_option_value`, and the value that is kept -/
def readProviderValue : OptionSchema → ProviderValue → Option ProviderOption
  | .string, .text s => some ⟨ascii "string", s, []⟩
  | .bool, .boolean b => some ⟨ascii "bool", if b then ascii "true" else ascii "false", []⟩
  | .list, .list items => some ⟨ascii "list", [], items⟩
  | .enum values, .text s => if s ∈ values then some ⟨ascii "enum", s, []⟩ else none
  | _, _ => none

/-- An option as `read_provider_lang_options` reads it -/
def readProviderEntry (schemas : List (Bytes × OptionSchema)) (space : Bytes)
    (entry : Bytes × ProviderValue) : Option ((Bytes × Bytes) × ProviderOption) :=
  (schemas.lookup entry.1).bind fun schema =>
    (readProviderValue schema entry.2).map fun value => ((space, entry.1), value)

/-- The options of a namespace -/
def readNamespace (providers : Providers) (given : Bytes × List (Bytes × ProviderValue)) :
    Option (List ((Bytes × Bytes) × ProviderOption)) :=
  (providers.lookup given.1).bind fun schemas => given.2.mapM (readProviderEntry schemas given.1)

/-- The walk of `read_lang_options` over the namespaces; `qstar_target_set_provider_option` sets
one option after another. -/
def readProviders (providers : Providers) (given : List (Bytes × List (Bytes × ProviderValue)))
    (s : Options) : Option Options :=
  (given.mapM (readNamespace providers)).map fun entries =>
    { s with providerOptions := assignAll s.providerOptions entries.flatten }

/-- What `read_lang_c` and `read_lang_cxx` begin with. -/
def readLangLists (dir : Bytes) (flags : ListOption) (given : LangFields) (s : Options) : Option Options := do
  let s ← readInto (Item.path dir) .publicHeaders given.publicHeaders s
  let s ← readInto (Item.path dir) .privateHeaders given.privateHeaders s
  let s ← readInto (Item.path dir) .includeDirs given.includeDirs s
  let s ← readInto (Item.path dir) .publicIncludeDirs given.publicIncludeDirs s
  let s ← readInto (Item.path dir) .privateIncludeDirs given.privateIncludeDirs s
  let s ← readInto (Item.path dir) .systemIncludeDirs given.systemIncludeDirs s
  let s ← readInto Item.string flags given.compileOptions s
  readInto Item.define flags given.defines s

/-- The two calls of `append_lang_include_self` -/
def appendLangIncludeSelf (s : Options) : Options :=
  let s := s.push .includeDirs (s.lists .privateIncludeDirs)
  s.push .includeDirs (s.lists .publicIncludeDirs)

/-- `read_lang_c` -/
def readLangC (dir : Bytes) (given : Option LangFields) (s : Options) : Option Options :=
  match given with
  | none => some s
  | some c => (readLangLists dir .cflags c s).map appendLangIncludeSelf

def readStandard (given : TextField) (s : Options) : Options :=
  match given.toOption with
  | none => s
  | some standard => { s with cxxStandard := some standard }

def readPrecompiledHeader (dir : Bytes) (given : TextField) (s : Options) : Option Options :=
  match given.toOption with
  | none => some s
  | some raw => (resolvePath dir raw).map fun path =>
    { s with cxxPrecompiledHeader := some path, cxxPchPresent := true }

def readUnity (given : Option UnityFields) (s : Options) : Option Options :=
  match given with
  | none => some s
  | some unity => (readInteger .unityBatchSize unity.batchSize).toOption.map fun batchSize =>
    { s with
      cxxUnityPresent := true
      cxxUnityEnabled := unity.enabled.getD false
      cxxUnityBatchSize := batchSize }

def readModules (given : Option (Option Bool)) (s : Options) : Options :=
  match given with
  | none => s
  | some enabled => { s with cxxModulesPresent := true, cxxModulesEnabled := enabled.getD false }

/-- `read_lang_cxx` -/
def readLangCxx (dir : Bytes) (given : Option CxxFields) (s : Options) : Option Options :=
  match given with
  | none => some s
  | some cxx => do
    let s ← readLangLists dir .cxxflags cxx.toLangFields s
    let s ← readPrecompiledHeader dir cxx.precompiledHeader (readStandard cxx.standard s)
    let s ← readUnity cxx.unity (appendLangIncludeSelf s)
    return readModules cxx.modules s

/-- `read_lang_asm` -/
def readLangAsm (dir : Bytes) (given : Option AsmFields) (s : Options) : Option Options :=
  match given with
  | none => some s
  | some asm => do
    let s ← readInto (Item.path dir) .asmIncludeDirs asm.includeDirs s
    let s ← readInto Item.string .asmCompileOptions asm.compileOptions s
    return { s with asmPreprocess := asm.preprocess.getD s.asmPreprocess }

/-- `read_lang_options` -/
def readLangOptions (providers : Providers) (dir : Bytes) (given : Fields) (s : Options) : Option Options := do
  let s ← readProviders providers given.providers s
  let s ← readLangC dir given.c s
  let s ← readLangCxx dir given.cxx s
  readLangAsm dir given.asm s

/-- The fields `libs`, `lib_dirs`, `link`, `link_options` and `link_inputs` -/
def readLink (dir : Bytes) (given : Fields) (s : Options) : Option Options := do
  let s ← readInto some .libs given.libs s
  let s ← readInto (resolvePath dir) .libDirs given.libDirs s
  let s ← readInto Item.string .frameworks given.frameworks s
  let s ← readInto some .linkOptions given.linkOptions s
  readInto (Item.targetFile dir) .linkInputs given.linkInputs s

/-- `read_label_scalar_field` for `toolset` -/
def readToolset (dir : Bytes) (given : Option Bytes) (s : Options) : Option Options :=
  match given with
  | none => some s
  | some raw => ((TextReader.label dir).form raw).map fun label => { s with toolset := some label }

def readCacheable (given : Option Bool) (s : Options) : Options :=
  match given with
  | none => s
  | some cacheable => { s with cacheablePresent := true, cacheable := cacheable }

/-- `valid_target_artifact_name` -/
def validTargetArtifactName (name : Bytes) : Bool :=
  name.all fun c => isAlnum c || c == 95 || c == 45 || c == 46 || c == 43

def readArtifactName (given : Option Bytes) (s : Options) : Option Options :=
  match given with
  | none => some s
  | some name => if validTargetArtifactName name then some { s with artifactName := some name } else none

/-! ## Configs and targets -/

/-- `struct qstar_config` -/
structure Config where
  label : Bytes
  options : Options
  hasArtifactName : Bool
  hasCxxStandard : Bool
  hasCxxPrecompiledHeader : Bool
  hasCxxUnity : Bool
  hasCxxModules : Bool
  hasAsmPreprocess : Bool
  hasToolset : Bool
  hasCacheable : Bool

/-- A call of `qstar.config`, with its canonical label and the directory of its file. -/
structure ConfigDeclaration where
  label : Bytes
  fragmentDir : Bytes
  fields : Fields

/-- A declaration of a target; of its fields the options and the labels of its configs. -/
structure TargetDeclaration where
  fragmentDir : Bytes
  configs : List Bytes
  fields : Fields

/-- `add_config` for a label that is not taken -/
def addConfig (providers : Providers) (d : ConfigDeclaration) : Option Config := do
  let s ← readLink d.fragmentDir d.fields cleared
  let s ← readLangOptions providers d.fragmentDir d.fields s
  let s ← readToolset d.fragmentDir d.fields.toolset (readCacheable d.fields.cacheable s)
  let s ← readArtifactName d.fields.artifactName s
  return {
    label := d.label
    options := s
    hasArtifactName := d.fields.artifactName.isSome
    hasCxxStandard := d.fields.cxx.any (·.standard.present)
    hasCxxPrecompiledHeader := d.fields.cxx.any (·.precompiledHeader.present)
    hasCxxUnity := d.fields.cxx.any (·.unity.isSome)
    hasCxxModules := d.fields.cxx.any (·.modules.isSome)
    hasAsmPreprocess := d.fields.asm.any (·.preprocess.isSome)
    hasToolset := d.fields.toolset.isSome
    hasCacheable := d.fields.cacheable.isSome }

/-- The configs of the graph after their declarations. -/
def addConfigs (providers : Providers) (ds : List ConfigDeclaration) : Option (List Config) :=
  if (ds.map (·.label)).Nodup then ds.mapM (addConfig providers) else none

/-- `replace_string` -/
def replaceString (slot value : Option Bytes) : Option Bytes := value.or slot

/-- `merge_config_lists` -/
def mergeConfigLists (s options : Options) : Options :=
  { s with
    lists := fun o => s.lists o ++ options.lists o
    providerOptions := assignAll s.providerOptions options.providerOptions }

/-- `merge_config_scalars` -/
def mergeConfigScalars (s : Options) (config : Config) : Options :=
  let options := config.options
  { s with
    artifactName := if config.hasArtifactName then replaceString s.artifactName options.artifactName
      else s.artifactName
    cxxStandard := if config.hasCxxStandard then replaceString s.cxxStandard options.cxxStandard
      else s.cxxStandard
    cxxPrecompiledHeader := if config.hasCxxPrecompiledHeader then
      replaceString s.cxxPrecompiledHeader options.cxxPrecompiledHeader else s.cxxPrecompiledHeader
    toolset := if config.hasToolset then replaceString s.toolset options.toolset else s.toolset
    asmPreprocess := if config.hasAsmPreprocess then options.asmPreprocess else s.asmPreprocess
    cxxModulesPresent := if config.hasCxxModules then options.cxxModulesPresent else s.cxxModulesPresent
    cxxModulesEnabled := if config.hasCxxModules then options.cxxModulesEnabled else s.cxxModulesEnabled
    cxxPchPresent := if config.hasCxxPrecompiledHeader then options.cxxPchPresent else s.cxxPchPresent
    cxxUnityPresent := if config.hasCxxUnity then options.cxxUnityPresent else s.cxxUnityPresent
    cxxUnityEnabled := if config.hasCxxUnity then options.cxxUnityEnabled else s.cxxUnityEnabled
    cxxUnityBatchSize := if config.hasCxxUnity then options.cxxUnityBatchSize else s.cxxUnityBatchSize
    cacheablePresent := if config.hasCacheable then true else s.cacheablePresent
    cacheable := if config.hasCacheable then options.cacheable else s.cacheable }

def mergeConfig (s : Options) (config : Config) : Options :=
  mergeConfigScalars (mergeConfigLists s config.options) config

/-- `find_config` -/
def findConfig (configs : List Config) (label : Bytes) : Option Config :=
  configs.find? fun config => config.label = label

/-- `qstar_graph_apply_target_configs` -/
def applyTargetConfigs (configs : List Config) (labels : List Bytes) (s : Options) : Option Options :=
  labels.foldlM (fun s label => (findConfig configs label).map (mergeConfig s)) s

/-- `add_target`, as far as its options -/
def addTarget (providers : Providers) (configs : List Config) (t : TargetDeclaration) : Option Options := do
  let labels ← t.configs.mapM (TextReader.label t.fragmentDir).form
  let s ← applyTargetConfigs configs labels defaults
  let s ← readLangOptions providers t.fragmentDir t.fields s
  let s ← readLink t.fragmentDir t.fields s
  let s ← readToolset t.fragmentDir t.fields.toolset s
  readArtifactName t.fields.artifactName (readCacheable t.fields.cacheable s)

/-- The options of a target behind the declarations of the configs. -/
def evaluate (providers : Providers) (ds : List ConfigDeclaration) (t : TargetDeclaration) : Option Options :=
  (addConfigs providers ds).bind fun configs => addTarget providers configs t

end QStar.Authoring.ConfigOptions
