import QStar.BuildGraph.Artifacts

/-!
# Toolchains

The tools a target is compiled and linked with, what its C++ strategies require of
them, and the checks a source passes before it is compiled.
-/
namespace QStar.Lowering

open QStar.Lib.CStrings
open QStar.Base
open QStar.BuildGraph

/-- The process environment, and which files can be executed. -/
structure Host where
  getenv : Bytes → Option Bytes
  executable : Bytes → Bool

/-- `struct qstar_resolved_toolchain` -/
structure Toolchain where
  platform : Bytes
  linkStyle : Bytes
  toolset : Bytes
  cc : Bytes
  cxx : Bytes
  asm : Bytes
  ar : Bytes
  linker : Bytes
  responseFiles : Bool
  responseStyle : Bytes

/-- `qstar_toolset_role_argv`; the first entry of a role counts, and not when it is empty. -/
def toolsetRoleArgv (s : Toolset) (role : Bytes) : Option (List Bytes) :=
  match s.roles.find? fun r => r.role = role with
  | none => none
  | some r => if r.argv = [] then none else some r.argv

/-- The first word of a role, or a default. -/
def roleTool (s : Toolset) (role : String) (default : Bytes) : Bytes :=
  ((toolsetRoleArgv s (ascii role)).bind List.head?).getD default

/-- `response_files_enabled` -/
def responseFilesEnabled (value : Bytes) (default : Bool) : Bool :=
  if value = [] ∨ value = ascii "auto" then default
  else !(value = ascii "off" || value = ascii "false" || value = ascii "0")

/-- `tool_name_uses_msvc_link_style` -/
def usesMsvcLinkStyle (tool : Bytes) : Bool :=
  strstr tool (ascii "clang-cl") || strstr tool (ascii "cl.exe") ||
    strstr tool (ascii "lld-link") || strstr tool (ascii "link.exe")

/-- `resolved_link_style` -/
def resolvedLinkStyle (responseStyle cc cxx linker : Bytes) : Bytes :=
  if responseStyle = ascii "msvc" then ascii "msvc"
  else if usesMsvcLinkStyle cc || usesMsvcLinkStyle cxx || usesMsvcLinkStyle linker then
    ascii "msvc"
  else ascii "posix"

/-- `qstar_resolve_toolchain` -/
def resolveToolchain (g : Graph) (t : Target) : Toolchain :=
  let style := if isWindows g then ascii "windows" else ascii "posix"
  match findToolset g t.toolset with
  | none =>
    { platform := g.platform
      linkStyle := resolvedLinkStyle style (ascii "cc") (ascii "c++") (ascii "cc")
      toolset := []
      cc := ascii "cc"
      cxx := ascii "c++"
      asm := ascii "cc"
      ar := ascii "ar"
      linker := ascii "cc"
      responseFiles := true
      responseStyle := style }
  | some s =>
    let cc := roleTool s "c.compiler" (ascii "cc")
    let cxx := roleTool s "cxx.compiler" (ascii "c++")
    let linker := roleTool s "link" (ascii "cc")
    let style := if s.responseStyle = [] ∨ s.responseStyle = ascii "auto" then style
      else s.responseStyle
    { platform := g.platform
      linkStyle := resolvedLinkStyle style cc cxx linker
      toolset := s.label
      cc := cc
      cxx := cxx
      asm := roleTool s "asm.compiler" cc
      ar := roleTool s "archive" (ascii "ar")
      linker := linker
      responseFiles := responseFilesEnabled s.responseFiles true
      responseStyle := style }

/-- `qstar_resolved_toolchain_provider_tool` -/
def providerTool (tc : Toolchain) (provider providerRole : Bytes) : Option Bytes :=
  if providerRole ≠ ascii "compiler" then none
  else if provider = ascii "c" then some tc.cc
  else if provider = ascii "cxx" then some tc.cxx
  else if provider = ascii "asm" then some tc.asm
  else none

/-- `resolved_tool_role_argv` -/
def resolvedToolRoleArgv (g : Graph) (t : Target) (tc : Toolchain) (role : Bytes) :
    Option (List Bytes) :=
  let toolset := if tc.toolset ≠ [] then tc.toolset else t.toolset
  (findToolset g toolset).bind fun s => toolsetRoleArgv s role

/-- The words `prepared_action_push_tool_role` pushes. -/
def toolRole (g : Graph) (t : Target) (tc : Toolchain) (role : Bytes) (fallback : Option Bytes) :
    Except LoweringError (List Bytes) :=
  match resolvedToolRoleArgv g t tc role, fallback with
  | some argv, _ => .ok argv
  | none, none => .error (.toolRoleMissing role)
  | none, some tool => if tool = [] then .error (.toolRoleMissing role) else .ok [tool]

/-- The words `append_raw_tool_role` pushes. -/
def rawToolRole (g : Graph) (t : Target) (tc : Toolchain) (role fallback : Bytes) : List Bytes :=
  (resolvedToolRoleArgv g t tc role).getD [fallback]

/-- The words `prepared_action_push_provider_template` pushes for one item. -/
def templateWord (g : Graph) (t : Target) (tc : Toolchain) (item : Bytes) :
    Except LoweringError (List Bytes) :=
  match providerToolToken item with
  | .plain => .ok [item]
  | .malformed => .error .malformedProviderTool
  | .payload role => toolRole g t tc role none

/-- `prepared_action_push_provider_template` -/
def templateArgv (g : Graph) (t : Target) (tc : Toolchain) (argv : List Bytes) :
    Except LoweringError (List Bytes) := do
  let words ← argv.mapM (templateWord g t tc)
  return words.flatten

/-- `qstar_cxx_compiler_family` -/
def compilerFamily (g : Graph) (tc : Toolchain) : Bytes :=
  let apple := g.host = ascii "darwin"
  let tool := pathBasename tc.cxx
  if apple ∧ (tc.cxx = ascii "/usr/bin/clang++" ∨ tc.cxx = ascii "clang++") then
    ascii "apple-clang"
  else if strstr tool (ascii "clang") then ascii "clang"
  else if strstr tool (ascii "g++") || strstr tool (ascii "gcc") then ascii "gcc"
  else if tool = ascii "c++" then if apple then ascii "apple-clang" else ascii "gcc"
  else if tool = ascii "cl" ∨ tool = ascii "cl.exe" then ascii "msvc"
  else ascii "unknown"

/-- `cxx_standard_supports_modules` -/
def standardSupportsModules (standard : Bytes) : Bool :=
  let version := if ascii "c++" <+: standard then some (standard.drop 3)
    else if ascii "gnu++" <+: standard then some (standard.drop 5)
    else none
  match version with
  | none => false
  | some v => decide (v ∈ [ascii "20", ascii "23", ascii "26", ascii "2a", ascii "2b", ascii "2c"])

/-- `target_has_cxx_source` -/
def hasCxxSource (t : Target) : Bool := hasCompileProvider t (ascii "cxx")

/-- The compiled module files of the interfaces of a target; `none` where a path fails. -/
def interfaceOutputs (g : Graph) (t : Target) : List (Option Bytes) :=
  ((List.range t.sources.length).filter fun i => isModuleInterface t i).map (moduleOutputPath g t)

/-- `qstar_cxx_validate_strategies` -/
def validateStrategies (g : Graph) (t : Target) (tc : Toolchain) : Except LoweringError Unit :=
  let family := compilerFamily g tc
  let outputs := interfaceOutputs g t
  if t.cxxPrecompiledHeader = [] ∧ t.cxxUnityEnabled = false ∧ t.cxxModulesEnabled = false then
    .ok ()
  else if hasCxxSource t = false then .error (.cxxStrategy t.label)
  else if t.kind = .objectlib ∧ usesConsumerContext t then .error (.cxxStrategy t.label)
  else if family ∉ [ascii "clang", ascii "apple-clang", ascii "gcc"] then
    .error (.cxxStrategy t.label)
  else if t.cxxModulesEnabled ∧ (family ≠ ascii "clang" ∨
      standardSupportsModules t.cxxStandard = false ∨ outputs = [] ∨
      (1 < outputs.length ∧ (none ∈ outputs ∨ ¬outputs.Nodup))) then
    .error (.cxxStrategy t.label)
  else .ok ()

/-- `command_exists`: a name without a slash is searched on the path. -/
def commandExists (h : Host) (cmd : Bytes) : Bool :=
  if cmd = [] then false
  else if 47 ∈ cmd then h.executable cmd
  else
    match h.getenv (ascii "PATH") with
    | none => false
    | some path =>
      (path.splitOn 58).any fun dir =>
        h.executable (if dir = [] then cmd else dir ++ ascii "/" ++ cmd)

/-- `command_exists_in_graph`; paths are named from the package root. -/
def commandExistsInGraph (h : Host) (cmd : Bytes) : Bool :=
  if cmd = [] then false
  else if 47 ∈ cmd ∧ cmd.head? ≠ some 47 ∧ isPackageRelative cmd = true then
    h.executable (fullPathUnderRoot [] cmd)
  else commandExists h cmd

/-- `qstar_graph_language_provider_is_available` -/
def languageAvailable (g : Graph) (provider : Bytes) : Bool :=
  decide (provider ∈ [ascii "c", ascii "cxx", ascii "asm"]) ||
    (provider ≠ [] && decide (provider ∈ g.languages))

/-- `validate_compile_source` -/
def validateCompileSource (h : Host) (g : Graph) (t : Target) (tc : Toolchain)
    (source : SourceInfo) (index : Nat) : Except LoweringError Unit :=
  let path := t.sources.getD index []
  if source.headerInput then .error (.headerSource path)
  else if isCxxModule source && !t.cxxModulesEnabled then .error (.modulesDisabled path)
  else if languageAvailable g source.provider = false ∨ source.toolsetRole = [] then
    .error (.unsupportedSource path)
  else if source.provider = ascii "cxx" ∧ commandExistsInGraph h tc.cxx = false then
    .error (.compilerNotFound tc.cxx)
  else if isAsm source && !commandExistsInGraph h tc.asm then .error (.assemblerNotFound tc.asm)
  else .ok ()

/-- `validate_noncompile_sources` -/
def validateNoncompileSources (h : Host) (g : Graph) (t : Target) (tc : Toolchain) :
    Except LoweringError Unit :=
  (List.range t.sources.length).forM fun i =>
    let source := sourceInfo t i
    if requiresCompile source || isLinkObject source then .ok ()
    else validateCompileSource h g t tc source i

/-- `validate_sharedlib_platform` -/
def validateSharedlibPlatform (g : Graph) (t : Target) : Except LoweringError Unit :=
  if t.kind = .sharedlib ∧ supportsSharedlib g = false then .error (.sharedlibPlatform t.label)
  else .ok ()

end QStar.Lowering
