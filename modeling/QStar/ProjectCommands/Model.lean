import QStar.Lib.Numerals
import QStar.Lib.Search
import QStar.Processes.Environment

/-!
# Project commands

A project command has options and steps. It is validated before it can run: its
names are usable, its options are consistent, every step refers to something
that exists, and no chain of call steps leads back to where it began.
-/
namespace QStar.ProjectCommands

open QStar.Lib.CStrings
open QStar.Lib.Numerals
open QStar.Lib.Results
open QStar.Lib.Search
open QStar.Base
open QStar.Processes.Environment (commandEnvAssignmentOk)

/-- The types of command options; any other text is an unknown type. -/
inductive OptionType where
  | string
  | path
  | bool
  | int
  | enum
  | list
  | other (name : Bytes)
  deriving DecidableEq

/-- `struct qstar_command_option` -/
structure CommandOption where
  name : Bytes
  type : OptionType
  required : Bool := false
  hasDefault : Bool := false
  defaultValue : Bytes := []
  choices : List Bytes := []
  deriving DecidableEq

/-- The kinds of steps; any other text is an unknown kind. -/
inductive StepKind where
  | build
  | test
  | stage
  | check
  | lint
  | call
  | run
  | exportStage
  | other (name : Bytes)
  deriving DecidableEq

/-- `struct qstar_command_step`; absent strings are empty. -/
structure CommandStep where
  kind : StepKind
  label : Bytes := []
  command : Bytes := []
  stageRoot : Bytes := []
  when : Bytes := []
  workingDir : Bytes := []
  runCommand : List Bytes := []
  env : List Bytes := []
  runExpectFile : Bytes := []
  exportTo : Bytes := []
  deriving DecidableEq

/-- `command_option_name_valid` -/
def commandOptionNameValid : Bytes → Bool
  | [] => false
  | c :: name => (isAlpha c || c == 95) && name.all fun b => isAlnum b || b == 95 || b == 45

/-- `struct qstar_project_command` -/
structure ProjectCommand where
  name : Bytes
  aliases : List Bytes := []
  workingDir : Bytes := []
  isDefault : Bool := false
  options : List CommandOption := []
  steps : List CommandStep := []
  /-- `qstar_project_command_add_option` -/
  options_valid : ∀ o ∈ options, commandOptionNameValid o.name = true
  /-- `qstar_project_command_add_option` -/
  options_nodup : (options.map CommandOption.name).Nodup
  /-- `read_command_option_default` -/
  list_default : ∀ o ∈ options, o.type = .list → o.hasDefault = false

/-- The part of a graph that project commands are about. -/
structure CommandGraph where
  commands : List ProjectCommand
  targetLabels : List Bytes := []
  testLabels : List Bytes := []
  genruleLabels : List Bytes := []
  stageLabels : List Bytes := []

/-- The errors of `qstar_graph_validate_project_commands`, with what they name. -/
inductive CommandError where
  | badName (command : Bytes)
  | reserved (name : Bytes)
  | badWorkingDir (command : Bytes)
  | noSteps (command : Bytes)
  | badAlias (command name : Bytes)
  | unknownType (command option : Bytes)
  | requiredDefaulted (command option : Bytes)
  | requiredBool (command option : Bytes)
  | noChoices (command option : Bytes)
  | badDefault (command option : Bytes)
  | unknownOption (command option : Bytes)
  | wrongType (command option : Bytes) (type : OptionType)
  | unknownLabel (command label : Bytes) (kind : StepKind)
  | notATest (command label : Bytes)
  | badStageRoot (command : Bytes)
  | unknownCommand (command called : Bytes)
  | noRunCommand (command : Bytes)
  | badParam (command : Bytes)
  | badArgIf (command : Bytes)
  | badEnv (command item : Bytes)
  | badExpectFile (command : Bytes)
  | noDestination (command : Bytes)
  | badDestination (command : Bytes)
  | unknownKind (command : Bytes)
  | duplicateCommand (command : Bytes)
  | aliasConflict (name command : Bytes)
  | duplicateAlias (name : Bytes)
  | severalDefaults
  | cycle (command : Bytes)
  | tooDeep
  deriving DecidableEq

/-- A test that ends validation with an error. -/
def refuse (c : Prop) [Decidable c] (e : CommandError) : Except CommandError Unit :=
  if c then .error e else .ok ()

/-- `command_token_valid` -/
def commandTokenValid (name : Bytes) : Bool :=
  name ≠ [] ∧ name.head? ∉ [some 45, some 58, some 47, some 64] ∧
    name.all fun c => 32 < c && c != 47 && c != 92

/-- `project_command_name_reserved` -/
def projectCommandNameReserved (name : Bytes) : Bool :=
  decide (name ∈ ["help", "version", "docs", "init", "lsp", "fmt", "daemon", "commands", "command",
    "list-targets", "query", "doctor", "check", "lint", "explain", "dry-run", "emit-ninja", "build",
    "test", "stage", "why-rebuild", "clean", "log", "last-failure", "action-log", "replay"].map ascii)

/-- `qstar_graph_find_project_command` -/
def findProjectCommand (g : CommandGraph) (name : Bytes) : Option ProjectCommand :=
  if name = [] then none
  else g.commands.find? fun c => decide (c.name = name) || decide (name ∈ c.aliases)

/-- `project_command_find_option_decl`, `project_command_option` -/
def projectCommandOption (command : ProjectCommand) (name : Bytes) : Option CommandOption :=
  if name = [] then none else command.options.find? fun o => o.name = name

/-- `project_command_step_label_known` -/
def stepLabelKnown (g : CommandGraph) (label : Bytes) : Bool :=
  label ∈ g.targetLabels ∨ label ∈ g.genruleLabels ∨ label ∈ g.stageLabels

/-- A text that may be a token: no token, one that is malformed, or one for an option. -/
inductive Token where
  | none
  | malformed
  | option (name : Bytes)
  deriving DecidableEq

/-- `command_param_token_name` with room for 128 bytes. -/
def commandParamTokenName (token : Bytes) : Token :=
  let start := ascii "<qstar-command-param:"
  if token.length ≤ start.length + 1 ∨ ¬ start <+: token ∨ token.getLast? ≠ some 62 then .none
  else if 128 ≤ token.length - start.length - 1 then .malformed
  else .option ((token.drop start.length).dropLast)

/-- `command_arg_if_token_parse` with room for 128 bytes. -/
def commandArgIfTokenParse (token : Bytes) : Token :=
  let start := ascii "<qstar-command-arg-if:"
  if ¬ start <+: token then .none
  else
    let name := (token.drop start.length).takeWhile (· ≠ 58)
    let rest := (token.drop start.length).dropWhile (· ≠ 58)
    if rest = [] ∨ name = [] ∨ 128 ≤ name.length then .malformed
    else
      let (len, stop) := strtol (rest.drop 1)
      if stop.head? ≠ some 58 ∨ len < 0 then .malformed
      else if (stop.drop 1).drop len.toNat = [62] then .option name
      else .malformed

/-- `validate_command_runtime_ref` and `validate_command_runtime_ref_type` -/
def validateRuntimeRef (command : ProjectCommand) (name : Bytes) (type : Option OptionType) :
    Except CommandError Unit :=
  match projectCommandOption command name with
  | none => .error (.unknownOption command.name name)
  | some option =>
    match type with
    | none => .ok ()
    | some type => if option.type ≠ type then .error (.wrongType command.name name type) else .ok ()

/-- One item of `validate_command_runtime_argv`. -/
def validateRuntimeArg (command : ProjectCommand) (item : Bytes) : Except CommandError Unit :=
  match commandParamTokenName item with
  | .malformed => .error (.badParam command.name)
  | .option name => validateRuntimeRef command name none
  | .none =>
    match commandArgIfTokenParse item with
    | .malformed => .error (.badArgIf command.name)
    | .option name => validateRuntimeRef command name (some .bool)
    | .none => .ok ()

/-- `validate_command_env` -/
def validateEnvItem (command : ProjectCommand) (item : Bytes) : Except CommandError Unit :=
  if commandEnvAssignmentOk item then .ok () else .error (.badEnv command.name item)

/-- What `validate_project_command_step` asks of a step's kind. -/
def validateStepKind (g : CommandGraph) (command : ProjectCommand) (step : CommandStep) :
    Except CommandError Unit :=
  match step.kind with
  | .build =>
    if step.label = [] ∨ stepLabelKnown g step.label = false then
      .error (.unknownLabel command.name step.label .build)
    else .ok ()
  | .test =>
    if step.label = [] then .error (.unknownLabel command.name step.label .test)
    else if step.label = ascii "//..." then .ok ()
    else if step.label ∉ g.targetLabels then .error (.unknownLabel command.name step.label .test)
    else if step.label ∉ g.testLabels then .error (.notATest command.name step.label)
    else .ok ()
  | .stage =>
    if step.label = [] ∨ step.label ∉ g.stageLabels then
      .error (.unknownLabel command.name step.label .stage)
    else if step.stageRoot ≠ [] ∧ isPackageRelative step.stageRoot = false then
      .error (.badStageRoot command.name)
    else .ok ()
  | .check | .lint =>
    if step.label ≠ [] ∧ step.label ≠ ascii "//..." ∧ stepLabelKnown g step.label = false then
      .error (.unknownLabel command.name step.label step.kind)
    else .ok ()
  | .call =>
    if (findProjectCommand g step.command).isNone then
      .error (.unknownCommand command.name step.command)
    else .ok ()
  | .run =>
    if step.runCommand = [] then .error (.noRunCommand command.name)
    else if step.workingDir ≠ [] ∧ isPackageRelative step.workingDir = false then
      .error (.badWorkingDir command.name)
    else do
      step.runCommand.forM (validateRuntimeArg command)
      step.env.forM (validateEnvItem command)
      refuse (step.runExpectFile ≠ [] ∧ isPackageRelative step.runExpectFile = false)
        (.badExpectFile command.name)
  | .exportStage =>
    if step.label = [] ∨ step.label ∉ g.stageLabels then
      .error (.unknownLabel command.name step.label .exportStage)
    else if step.exportTo = [] then .error (.noDestination command.name)
    else
      match commandParamTokenName step.exportTo with
      | .malformed => .error (.badParam command.name)
      | .option name => validateRuntimeRef command name (some .path)
      | .none =>
        if isPackageRelative step.exportTo = false then .error (.badDestination command.name) else .ok ()
  | .other _ => .error (.unknownKind command.name)

/-- `validate_project_command_step` -/
def validateProjectCommandStep (g : CommandGraph) (command : ProjectCommand) (step : CommandStep) :
    Except CommandError Unit := do
  (if step.when = [] then .ok () else validateRuntimeRef command step.when (some .bool))
  validateStepKind g command step

/-- `validate_project_command_option` -/
def validateProjectCommandOption (command : ProjectCommand) (option : CommandOption) :
    Except CommandError Unit :=
  match option.type with
  | .other _ => .error (.unknownType command.name option.name)
  | type =>
    if option.required ∧ option.hasDefault then .error (.requiredDefaulted command.name option.name)
    else if option.required ∧ type = .bool then .error (.requiredBool command.name option.name)
    else if type = .enum ∧ option.choices = [] then .error (.noChoices command.name option.name)
    else if option.hasDefault ∧ type = .enum ∧ option.defaultValue ∉ option.choices then
      .error (.badDefault command.name option.name)
    else if option.hasDefault ∧ type = .path ∧ isPackageRelative option.defaultValue = false then
      .error (.badDefault command.name option.name)
    else .ok ()

/-- One name of a command: the tests of `command_token_valid` and
`project_command_name_reserved`. -/
def validateName (name : Bytes) (invalid : CommandError) : Except CommandError Unit :=
  if commandTokenValid name = false then .error invalid
  else if projectCommandNameReserved name then .error (.reserved name)
  else .ok ()

/-- A command's name against a later command. -/
def validateNameApart (command later : ProjectCommand) : Except CommandError Unit :=
  if command.name = later.name then .error (.duplicateCommand command.name)
  else if command.name ∈ later.aliases then .error (.aliasConflict command.name command.name)
  else .ok ()

/-- A command's alias against another command. -/
def validateAliasApart (name : Bytes) (other : ProjectCommand) : Except CommandError Unit :=
  if name = other.name then .error (.aliasConflict name other.name)
  else if name ∈ other.aliases then .error (.duplicateAlias name)
  else .ok ()

/-- The aliases of a command against the rest of its own and against the other commands. -/
def validateAliases (others : List ProjectCommand) : List Bytes → Except CommandError Unit
  | [] => .ok ()
  | name :: rest => do
    refuse (name ∈ rest) (.duplicateAlias name)
    others.forM (validateAliasApart name)
    validateAliases others rest

/-- One turn of the loop of `qstar_graph_validate_project_commands`, with the commands before
and after the command. -/
def validateProjectCommand (g : CommandGraph) (earlier : List ProjectCommand)
    (command : ProjectCommand) (later : List ProjectCommand) : Except CommandError Unit := do
  validateName command.name (.badName command.name)
  refuse (command.workingDir ≠ [] ∧ isPackageRelative command.workingDir = false)
    (.badWorkingDir command.name)
  refuse (command.steps = []) (.noSteps command.name)
  command.aliases.forM fun name => validateName name (.badAlias command.name name)
  command.options.forM (validateProjectCommandOption command)
  command.steps.forM (validateProjectCommandStep g command)
  later.forM (validateNameApart command)
  validateAliases (earlier ++ later) command.aliases

def validateEach (g : CommandGraph) (earlier : List ProjectCommand) :
    List ProjectCommand → Except CommandError Unit
  | [] => .ok ()
  | command :: later => do
    validateProjectCommand g earlier command later
    validateEach g (earlier ++ [command]) later

/-- The commands that the call steps of a command name. -/
def calledCommands (g : CommandGraph) (command : ProjectCommand) : Except CommandError (List ProjectCommand) :=
  (command.steps.filter fun step => step.kind = .call).mapM fun step =>
    match findProjectCommand g step.command with
    | none => .error (.unknownCommand command.name step.command)
    | some called => .ok called

/-- `project_command_dfs_validate`: the states 1 and 2 of a command are the entered and the
finished. The names of the commands are unique when it runs. -/
def commandSpace (g : CommandGraph) : Space ProjectCommand Bytes CommandError where
  key := ProjectCommand.name
  next := calledCommands g
  again command := .error (.cycle command.name)
  tooDeep := .tooDeep

/-- `qstar_graph_validate_project_commands` -/
def validateProjectCommands (g : CommandGraph) : Except CommandError Unit := do
  validateEach g [] g.commands
  refuse (1 < (g.commands.filter ProjectCommand.isDefault).length) .severalDefaults
  let _ ← (commandSpace g).search (g.commands.length + 1) g.commands
  return ()

end QStar.ProjectCommands
