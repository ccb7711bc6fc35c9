import QStar.Base.CanonicalLabels
import QStar.BuildGraph.Artifacts
import QStar.ProjectCommands.Arguments

/-!
# Command lines of run steps

The command of a run step is a `qstar.cli` list. Its items become texts when the file is
evaluated: a literal stays what it is, and what is not known yet becomes a token. Inputs are
put in for their tokens when the step is read; options, artifacts and stages when it runs.
-/
namespace QStar.ProjectCommands

open QStar.Lib.CStrings
open QStar.Lib.Numerals
open QStar.Base
open QStar.BuildGraph (Graph LoweringError resolveCommandToken)

/-- The errors between the file and the argv of a run step, with what they name. -/
inductive ArgvError where
  | badIndex (index : Int64)
  | badLabel (raw : Bytes)
  | badSelector (artifact : Bytes)
  | badOptionReference (name : Bytes)
  | unsupportedItem
  | badInput
  | emptyInput
  | missingInput (index : Int)
  | malformedInput
  | missingOutput (index : Int)
  | malformedOutput
  | invalid (e : CommandError)
  | malformedParam
  | malformedArgIf
  | unknownOption (name : Bytes)
  | notABool (name : Bytes)
  | token (e : LoweringError)
  | tooLong
  | emptyArgv
  deriving DecidableEq

/-! ## Items -/

/-- An item of a `qstar.cli` list or of `inputs` as it is written: a literal, or a call with
its arguments; `arg_if` and `args_if` are given `qstar.param(name)`. -/
inductive CliCall where
  | literal (s : Bytes)
  | input (index : Int64)
  | output (index : Int64)
  | targetFile (raw : Bytes) (artifact : Option Bytes)
  | toolFile (raw : Bytes)
  | stageDir (raw : Bytes)
  | param (name : Bytes)
  | argIf (name arg : Bytes)
  | argsIf (name : Bytes) (args : List Bytes)

/-- An item, and the `current_dir` of the file it is evaluated in. -/
structure CliItem where
  dir : Bytes := []
  call : CliCall
  /-- It is empty, or the directory of a package-relative path. -/
  dir_plain : 58 ∉ dir ∧ 0 ∉ dir := by decide

/-- The value of an item: a text, or a table with its `__qstar_kind` and its fields. -/
inductive CliValue where
  | text (s : Bytes)
  | input (index : Nat)
  | output (index : Nat)
  | targetFile (label artifact : Bytes)
  | stageDir (label : Bytes)
  | commandParam (name : Bytes)
  | commandArgIf (name arg : Bytes)
  | commandArgsIf (name : Bytes) (args : List Bytes)

/-- `valid_command_option_ref_name` -/
def validCommandOptionRefName (name : Bytes) : Bool := commandOptionNameValid name

/-- `valid_artifact_selector` -/
def validArtifactSelector (value : Bytes) : Bool :=
  value ≠ [] ∧ value.all fun b => isAlnum b || b == 95 || b == 45

/-- The index that `qstar_lua_input` and `qstar_lua_output` take. -/
def checkIndex (index : Int64) : Except ArgvError Nat :=
  if index < 0 then .error (.badIndex index) else .ok index.toInt.toNat

/-- The label that `qstar_lua_target_file`, `qstar_lua_tool_file` and `qstar_lua_stage_dir` take. -/
def checkLabel (dir raw : Bytes) : Except ArgvError Bytes :=
  match canonicalizeInto (cString raw) dir 4096 with
  | none => .error (.badLabel raw)
  | some label => .ok label

/-- The name that `qstar_lua_param_ref` takes. -/
def checkName (name : Bytes) : Except ArgvError Bytes :=
  if validCommandOptionRefName (cString name) then .ok (cString name)
  else .error (.badOptionReference name)

/-- `qstar_lua_target_file` past its label. -/
def checkSelector (label : Bytes) : Option Bytes → Except ArgvError CliValue
  | none => .ok (.targetFile label [])
  | some artifact =>
    if validArtifactSelector (cString artifact) then .ok (.targetFile label (cString artifact))
    else .error (.badSelector artifact)

/-- `qstar_lua_input`, `qstar_lua_output`, `qstar_lua_target_file`, `qstar_lua_tool_file`,
`qstar_lua_stage_dir`, `qstar_lua_param_ref`, `qstar_lua_arg_if` and `qstar_lua_args_if` -/
def CliItem.value (item : CliItem) : Except ArgvError CliValue :=
  match item.call with
  | .literal s => .ok (.text s)
  | .input index => (checkIndex index).map .input
  | .output index => (checkIndex index).map .output
  | .targetFile raw artifact => checkLabel item.dir raw >>= fun label => checkSelector label artifact
  | .toolFile raw => (checkLabel item.dir raw).map fun label => .targetFile label (ascii "@tool")
  | .stageDir raw => (checkLabel item.dir raw).map .stageDir
  | .param name => (checkName name).map .commandParam
  | .argIf name arg => (checkName name).map fun name => .commandArgIf name (cString arg)
  | .argsIf name args => (checkName name).map fun name => .commandArgsIf name args

/-! ## Tokens -/

/-- `format_placeholder_token` -/
def formatPlaceholderToken : CliValue → Option Bytes
  | .input index => printInto 4096 (ascii "<qstar-input:" ++ (printUnsigned 10 index ++ ascii ">"))
  | .output index => printInto 4096 (ascii "<qstar-output:" ++ (printUnsigned 10 index ++ ascii ">"))
  | .targetFile label artifact =>
    printInto 4096 (ascii "<qstar-target-file:" ++
      (label ++ ((if artifact = [] then [] else ascii "#" ++ artifact) ++ ascii ">")))
  | .stageDir label => printInto 4096 (ascii "<qstar-stage-dir:" ++ (label ++ ascii ">"))
  | _ => none

/-- `format_command_param_token` -/
def formatCommandParamToken (name : Bytes) : Option Bytes :=
  printInto 4096 (ascii "<qstar-command-param:" ++ (name ++ ascii ">"))

/-- `format_command_arg_if_token` -/
def formatCommandArgIfToken (name arg : Bytes) : Option Bytes :=
  printInto 4096 (ascii "<qstar-command-arg-if:" ++
    (name ++ (ascii ":" ++ (printUnsigned 10 arg.length ++ (ascii ":" ++ (arg ++ ascii ">"))))))

/-- A token that fits its buffer. -/
def formatted (e : ArgvError) : Option Bytes → Except ArgvError Bytes
  | none => .error e
  | some token => .ok token

/-- `push_cli_item` -/
def pushCliItem : CliValue → Except ArgvError (List Bytes)
  | .text s => .ok [s]
  | .commandParam name => (formatted .unsupportedItem (formatCommandParamToken name)).map ([·])
  | .commandArgIf name arg =>
    (formatted .unsupportedItem (formatCommandArgIfToken name arg)).map ([·])
  | .commandArgsIf name args =>
    args.mapM fun arg => formatted .unsupportedItem (formatCommandArgIfToken name (cString arg))
  | value => (formatted .unsupportedItem (formatPlaceholderToken value)).map ([·])

/-- `qstar_lua_cli`, with what its items are evaluated to. -/
def qstarCli (cli : List CliItem) : Except ArgvError (List Bytes) := do
  let values ← cli.mapM CliItem.value
  let tokens ← values.mapM pushCliItem
  return tokens.flatten

/-! ## Reading the step -/

/-- One turn of the loop of `read_command_step_inputs_field`. -/
def readStepInput : CliValue → Except ArgvError Bytes
  | .text s => if cString s = [] then .error .emptyInput else .ok (cString s)
  | .targetFile label artifact => formatted .badInput (formatPlaceholderToken (.targetFile label artifact))
  | .stageDir label => formatted .badInput (formatPlaceholderToken (.stageDir label))
  | _ => .error .badInput

/-- `read_command_step_inputs_field`, with what its items are evaluated to. -/
def readStepInputs (inputs : List CliItem) : Except ArgvError (List Bytes) := do
  let values ← inputs.mapM CliItem.value
  values.mapM readStepInput

/-- A text that may be the token of an index: no token, one that is malformed, or one with
its index. -/
inductive Placeholder where
  | none
  | malformed
  | index (n : Int)

/-- `parse_placeholder_index` -/
def parsePlaceholderIndex (s opening : Bytes) : Placeholder :=
  if ¬ opening <+: s then .none
  else
    let (index, stop) := strtol (s.drop opening.length)
    if stop = [62] then .index index else .malformed

/-- The item of a list at an index that may be out of range. -/
def itemAt (items : List Bytes) (index : Int) (missing : Int → ArgvError) : Except ArgvError Bytes :=
  if index < 0 then .error (missing index)
  else
    match items[index.toNat]? with
    | none => .error (missing index)
    | some item => .ok item

/-- One turn of the loop of `resolve_cli_placeholders`. -/
def resolveCliPlaceholder (inputs outputs : List Bytes) (item : Bytes) : Except ArgvError Bytes :=
  match parsePlaceholderIndex item (ascii "<qstar-input:") with
  | .index index => itemAt inputs index .missingInput
  | .malformed => .error .malformedInput
  | .none =>
    match parsePlaceholderIndex item (ascii "<qstar-output:") with
    | .index index => itemAt outputs index .missingOutput
    | .malformed => .error .malformedOutput
    | .none => .ok item

/-- `run_command` of a run step: `read_command_field` takes the texts of the list as C strings,
and `resolve_cli_placeholders` knows the inputs and no outputs. -/
def readRunCommand (cli inputs : List CliItem) : Except ArgvError (List Bytes) := do
  let tokens ← qstarCli cli
  let texts ← readStepInputs inputs
  (tokens.map cString).mapM (resolveCliPlaceholder texts [])

/-! ## Running the step -/

/-- A text that may be a token of `arg_if`: no token, one that is malformed, or one with the
name of its option and its argument. -/
inductive ArgIfToken where
  | plain
  | malformed
  | token (name arg : Bytes)
  deriving DecidableEq

/-- `command_arg_if_token_parse_exec` -/
def commandArgIfTokenParseExec (token : Bytes) : ArgIfToken :=
  let start := ascii "<qstar-command-arg-if:"
  if ¬ start <+: token then .plain
  else
    let name := (token.drop start.length).takeWhile (· ≠ 58)
    let rest := (token.drop start.length).dropWhile (· ≠ 58)
    if rest = [] ∨ name = [] ∨ 128 ≤ name.length then .malformed
    else
      let (len, stop) := strtol (rest.drop 1)
      if stop.head? ≠ some 58 ∨ len < 0 ∨ 4096 ≤ len.toNat then .malformed
      else if (stop.drop 1).drop len.toNat = [62] then .token name ((stop.drop 1).take len.toNat)
      else .malformed

/-- `command_runtime_value_for_name` -/
def commandRuntimeValueForName (runtime : Runtime) (name : Bytes) : Option RuntimeValue :=
  runtime.find? fun slot => slot.option.name = name

/-- The value of an option that a token names. -/
def valueOfToken (runtime : Runtime) (name : Bytes) : Except ArgvError RuntimeValue :=
  match commandRuntimeValueForName runtime name with
  | none => .error (.unknownOption name)
  | some slot => .ok slot

/-- `arg_if` when the step runs. -/
def argIfWords (slot : RuntimeValue) (name arg : Bytes) : Except ArgvError (List Bytes) :=
  if slot.option.type ≠ .bool then .error (.notABool name)
  else .ok (if slot.boolValue then [arg] else [])

/-- `qstar_graph_resolve_command_token` into a buffer. -/
def resolvedWord (g : Graph) (item : Bytes) : Except ArgvError (List Bytes) :=
  match resolveCommandToken g item with
  | .error e => .error (.token e)
  | .ok word => if word.length < 4096 then .ok [word] else .error .tooLong

/-- One turn of the loop of `resolve_command_runtime_argv`. -/
def resolveRuntimeItem (g : Graph) (runtime : Runtime) (item : Bytes) : Except ArgvError (List Bytes) :=
  match commandParamTokenName item with
  | .malformed => .error .malformedParam
  | .option name => (valueOfToken runtime name).map commandValueAppendArgv
  | .none =>
    match commandArgIfTokenParseExec item with
    | .malformed => .error .malformedArgIf
    | .token name arg => valueOfToken runtime name >>= fun slot => argIfWords slot name arg
    | .plain => resolvedWord g item

/-- `resolve_command_runtime_argv` -/
def resolveCommandRuntimeArgv (g : Graph) (runtime : Runtime) (input : List Bytes) :
    Except ArgvError (List Bytes) := do
  let words ← input.mapM (resolveRuntimeItem g runtime)
  return words.flatten

/-- The argv that `run_project_command_process` starts for a run step of a validated command,
once what the step needs is built. -/
def runStepArgv (g : Graph) (command : ProjectCommand) (runtime : Runtime) (cli inputs : List CliItem) :
    Except ArgvError (List Bytes) := do
  let runCommand ← readRunCommand cli inputs
  (match runCommand.forM (validateRuntimeArg command) with
    | .error e => .error (.invalid e)
    | .ok _ => .ok ())
  let argv ← resolveCommandRuntimeArgv g runtime runCommand
  if argv = [] then .error .emptyArgv else .ok argv

end QStar.ProjectCommands
