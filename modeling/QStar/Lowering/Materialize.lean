import QStar.Lowering.Nodes

/-!
# Response files

A command that is long is handed to its tool in a response file where the toolchain
allows one. Declared commands use the toolchain of their toolset, and only for the
tools it lists.
-/
namespace QStar.Lowering

open QStar.Lib.CStrings
open QStar.Base
open QStar.BuildGraph

/-- `bytes` of `struct qstar_argv`; each item counts its terminator. -/
def argvBytes (argv : List Bytes) : Nat := (argv.map fun item => item.length + 1).sum

/-- `qstar_action_needs_response_file` -/
def needsResponseFile (argv : List Bytes) : Bool := 512 ≤ argvBytes argv || 48 < argv.length

/-- The response file of `struct qstar_materialized_command`; its digest is one of the words
and the style. -/
structure ResponseFile where
  path : Bytes
  style : Bytes
  deriving DecidableEq

def responseFile (g : Graph) (tc : Toolchain) (id : Bytes) : ResponseFile where
  path := buildPath g.buildDir (ascii "rsp/" ++ mangleLabel id ++ ascii ".rsp")
  style := if tc.responseStyle = [] then ascii "posix" else tc.responseStyle

/-- `qstar_action_materialize` -/
def actionMaterialize (g : Graph) (tc : Option Toolchain) (id : Bytes) (argv : List Bytes) :
    Except LoweringError (Option ResponseFile) :=
  if argv = [] then .error (.noLoweredCommand id)
  else if needsResponseFile argv then
    .ok ((tc.filter Toolchain.responseFiles).map fun tc => responseFile g tc id)
  else .ok none

/-- `tool_list_contains` -/
def toolListContains (g : Graph) (toolset : Bytes) (tool : Option Bytes) : Bool :=
  match findToolset g toolset, tool with
  | some s, some tool => decide (tool ∈ s.responseFileTools)
  | _, _ => false

/-- The owner of `qstar_resolve_toolset_context`, of which only the toolset is looked at. -/
def toolsetOwner (toolset : Bytes) (htoolset : toolset ≠ []) : Target where
  label := toolset
  name := []
  kind := .other []
  toolset := toolset
  label_ne := htoolset
  sources_lt := Target.no_sources_lt

/-- `qstar_resolve_command_materialization_context` for a command that may name a toolset -/
def commandToolchain (g : Graph) (toolset : Bytes) (tool : Option Bytes) : Option Toolchain :=
  if htoolset : toolset = [] then none
  else
    let tc := resolveToolchain g (toolsetOwner toolset htoolset)
    some { tc with responseFiles := tc.responseFiles && toolListContains g toolset tool }

/-- `prepared_action_materialization_toolchain` -/
def materializationToolchain (g : Graph) : ActionNode → Option Toolchain
  | .cxxPch t => some (resolveToolchain g t)
  | .compile t _ => some (resolveToolchain g t)
  | .consumerCompile t _ _ _ => some (resolveToolchain g t)
  | .final t => some (resolveToolchain g t)
  | .generate r => commandToolchain g r.toolset (some r.tool)
  | .run t => commandToolchain g t.toolset t.runCommand.head?

end QStar.Lowering
