import QStar.ProjectCommands.Model

/-!
# Arguments of project commands

The words after a project command's name are read from left to right, each an
option in one of several spellings: `--name=value`, `--name value`, and `--name` or
`--no-name` for a switch. What is given replaces the option's default, or is added
to the values of a list.
-/
namespace QStar.ProjectCommands

open QStar.Lib.CStrings
open QStar.Lib.Numerals
open QStar.Lib.Results
open QStar.Base

/-- `struct qstar_command_runtime_value` -/
structure RuntimeValue where
  option : CommandOption
  value : Bytes
  boolValue : Bool
  list : List Bytes
  seen : Bool

/-- The values of `struct qstar_command_runtime`, one for each option of its command. -/
abbrev Runtime := List RuntimeValue

/-- The errors of `parse_project_command_args`, with what they name. -/
inductive ArgumentError where
  | positional (arg : Bytes)
  | unknownBool (arg : Bytes)
  | invalid (arg : Bytes)
  | unknown (name : Bytes)
  | notABool (option : Bytes)
  | missingValue (option : Bytes)
  | notAnInteger (option : Bytes)
  | notInChoices (option value : Bytes)
  | notRelative (option value : Bytes)
  | missingRequired (option : Bytes)
  deriving DecidableEq

/-- Why parsing ends without values: help was asked for, or there is an error. -/
inductive Stop where
  | help
  | error (e : ArgumentError)
  deriving DecidableEq

/-- `parse_command_bool_value` -/
def parseCommandBoolValue (value : Bytes) : Option Bool :=
  if value ∈ [ascii "true", ascii "1", ascii "on", ascii "yes"] then some true
  else if value ∈ [ascii "false", ascii "0", ascii "off", ascii "no"] then some false
  else none

/-- `bool_value ? "true" : "false"` -/
def boolText (on : Bool) : Bytes := if on then ascii "true" else ascii "false"

/-- `validate_command_option_value` -/
def validateCommandOptionValue (option : CommandOption) (value : Bytes) : Except ArgumentError Unit :=
  if option.type = .int ∧ (value = [] ∨ (strtol value).2 ≠ []) then .error (.notAnInteger option.name)
  else if option.type = .enum ∧ value ∉ option.choices then .error (.notInChoices option.name value)
  else if option.type = .path ∧ isPackageRelative value = false then
    .error (.notRelative option.name value)
  else .ok ()

/-- A bool option that is not given. -/
def defaultSetting (option : CommandOption) : Bool :=
  option.hasDefault && (parseCommandBoolValue option.defaultValue).getD false

/-- Another option that is not given. -/
def defaultText (option : CommandOption) : Bytes := if option.hasDefault then option.defaultValue else []

/-- The value `command_runtime_init` gives an option. -/
def initialValue (option : CommandOption) : RuntimeValue :=
  if option.type = .bool then
    ⟨option, boolText (defaultSetting option), defaultSetting option, [], false⟩
  else ⟨option, defaultText option, false, [], false⟩

/-- `command_runtime_init` -/
def commandRuntimeInit (command : ProjectCommand) : Runtime := command.options.map initialValue

/-- What a word says: a switch, an option with its value, or an option whose value follows. -/
inductive Argument where
  | switch (option : CommandOption) (on : Bool)
  | assigned (option : CommandOption) (value : Bytes)
  | separated (option : CommandOption)

/-- An option word that does not begin with `--no-`. -/
def readOption (command : ProjectCommand) (arg name : Bytes) (value : Option Bytes) :
    Except Stop Argument :=
  if value.isSome ∧ (name = [] ∨ 128 ≤ name.length) then .error (.error (.invalid arg))
  else
    match projectCommandOption command name with
    | none => .error (.error (.unknown name))
    | some option =>
      match value with
      | none => .ok (if option.type = .bool then .switch option true else .separated option)
      | some value =>
        if option.type = .bool then
          match parseCommandBoolValue value with
          | none => .error (.error (.notABool option.name))
          | some on => .ok (.switch option on)
        else .ok (.assigned option value)

/-- How the loop of `parse_project_command_args` takes a word at its start. -/
def readArgument (command : ProjectCommand) (arg : Bytes) : Except Stop Argument :=
  if arg = ascii "--help" ∨ arg = ascii "-h" then .error .help
  else if ¬ ascii "--" <+: arg ∨ arg = ascii "--" then .error (.error (.positional arg))
  else
    let name := arg.drop 2
    if ascii "no-" <+: name then
      match projectCommandOption command (name.drop 3) with
      | none => .error (.error (.unknownBool arg))
      | some option =>
        if option.type ≠ .bool then .error (.error (.unknownBool arg)) else .ok (.switch option false)
    else if 61 ∈ name then
      readOption command arg (name.takeWhile (· ≠ 61)) (some ((name.dropWhile (· ≠ 61)).drop 1))
    else readOption command arg name none

/-- A change of the value of an option. -/
def store (runtime : Runtime) (option : CommandOption) (f : RuntimeValue → RuntimeValue) : Runtime :=
  runtime.map fun slot => if slot.option = option then f slot else slot

/-- A switch is set. -/
def RuntimeValue.switch (on : Bool) (slot : RuntimeValue) : RuntimeValue :=
  { slot with value := boolText on, boolValue := on, seen := true }

/-- A value is stored, or added to a list. -/
def RuntimeValue.give (value : Bytes) (slot : RuntimeValue) : RuntimeValue :=
  if slot.option.type = .list then { slot with list := slot.list ++ [value], seen := true }
  else { slot with value := value, seen := true }

/-- A value is checked and stored. -/
def takeValue (runtime : Runtime) (option : CommandOption) (value : Bytes) : Except Stop Runtime :=
  match validateCommandOptionValue option value with
  | .error e => .error (.error e)
  | .ok _ => .ok (store runtime option (RuntimeValue.give value))

/-- The loop of `parse_project_command_args`, with the option whose value comes next. -/
def parseLoop (command : ProjectCommand) : Option CommandOption → List Bytes → Runtime → Except Stop Runtime
  | none, [], runtime => .ok runtime
  | some option, [], _ => .error (.error (.missingValue option.name))
  | some option, value :: argv, runtime =>
    if ascii "--" <+: value then .error (.error (.missingValue option.name))
    else
      match takeValue runtime option value with
      | .error stop => .error stop
      | .ok runtime => parseLoop command none argv runtime
  | none, arg :: argv, runtime =>
    match readArgument command arg with
    | .error stop => .error stop
    | .ok (.switch option on) => parseLoop command none argv (store runtime option (RuntimeValue.switch on))
    | .ok (.separated option) => parseLoop command (some option) argv runtime
    | .ok (.assigned option value) =>
      match takeValue runtime option value with
      | .error stop => .error stop
      | .ok runtime => parseLoop command none argv runtime

/-- A required option must have been given. -/
def requireSeen (slot : RuntimeValue) : Except Stop Unit :=
  if slot.option.required ∧ slot.seen = false then
    .error (.error (.missingRequired slot.option.name))
  else .ok ()

/-- `parse_project_command_args` -/
def parseProjectCommandArgs (command : ProjectCommand) (argv : List Bytes) : Except Stop Runtime := do
  let runtime ← parseLoop command none argv (commandRuntimeInit command)
  runtime.forM requireSeen
  return runtime

/-- `command_value_append_argv` -/
def commandValueAppendArgv (slot : RuntimeValue) : List Bytes :=
  if slot.option.type = .list then slot.list else [slot.value]

/-! ## What is given -/

/-- An option given in one of its spellings. -/
inductive Given where
  | assigned (option : CommandOption) (value : Bytes)
  | separated (option : CommandOption) (value : Bytes)
  | switched (option : CommandOption) (on : Bool)

def Given.option : Given → CommandOption
  | .assigned option _ => option
  | .separated option _ => option
  | .switched option _ => option

/-- `--name=value`, `--name value`, `--name` or `--no-name`. -/
def Given.words : Given → List Bytes
  | .assigned option value => [ascii "--" ++ option.name ++ ascii "=" ++ value]
  | .separated option value => [ascii "--" ++ option.name, value]
  | .switched option true => [ascii "--" ++ option.name]
  | .switched option false => [ascii "--no-" ++ option.name]

/-- The value that is given; a switch is `true` or `false`. -/
def Given.text : Given → Bytes
  | .assigned _ value => value
  | .separated _ value => value
  | .switched _ on => boolText on

/-- The setting of a bool option. -/
def Given.setting : Given → Bool
  | .assigned _ value => (parseCommandBoolValue value).getD false
  | .separated _ _ => false
  | .switched _ on => on

/-- The command has the option, the spelling is one for its type, and the value is one of it. -/
def Given.Admissible (command : ProjectCommand) (given : Given) : Prop :=
  given.option ∈ command.options ∧
    match given with
    | .assigned option value =>
      if option.type = .bool then (parseCommandBoolValue value).isSome = true
      else validateCommandOptionValue option value = .ok ()
    | .separated option value =>
      option.type ≠ .bool ∧ validateCommandOptionValue option value = .ok ()
    | .switched option _ => option.type = .bool

/-- The words are not taken for others: the name does not begin with `no-`, is short enough to be
split from its value, and is not the request for help; a value that follows does not look like
an option. -/
def Given.Plain : Given → Prop
  | .assigned option _ => ¬ ascii "no-" <+: option.name ∧ option.name.length < 128
  | .separated option value =>
    ¬ ascii "no-" <+: option.name ∧ option.name ≠ ascii "help" ∧ ¬ ascii "--" <+: value
  | .switched option true => ¬ ascii "no-" <+: option.name ∧ option.name ≠ ascii "help"
  | .switched _ false => True

/-- What is given sets or adds to a value. -/
def Given.change : Given → RuntimeValue → RuntimeValue
  | .assigned option value, slot =>
    if option.type = .bool then slot.switch ((parseCommandBoolValue value).getD false) else slot.give value
  | .separated _ value, slot => slot.give value
  | .switched _ on, slot => slot.switch on

/-- What is given changes the value of its option. -/
def Given.apply (given : Given) (slot : RuntimeValue) : RuntimeValue :=
  if slot.option = given.option then given.change slot else slot

/-- What was given for an option, in order. -/
def givenFor (givens : List Given) (option : CommandOption) : List Given :=
  givens.filter fun given => given.option = option

/-- The value of an option after what was given. -/
structure Holds (givens : List Given) (slot : RuntimeValue) : Prop where
  seen : slot.seen = true ↔ givenFor givens slot.option ≠ []
  bool : slot.option.type = .bool →
    slot.boolValue = ((givenFor givens slot.option).map Given.setting).getLastD (defaultSetting slot.option) ∧
      commandValueAppendArgv slot = [boolText slot.boolValue]
  list : slot.option.type = .list →
    commandValueAppendArgv slot = (givenFor givens slot.option).map Given.text
  scalar : slot.option.type ≠ .bool → slot.option.type ≠ .list →
    commandValueAppendArgv slot
      = [((givenFor givens slot.option).map Given.text).getLastD (defaultText slot.option)]

@[simp] theorem RuntimeValue.switch_option (on : Bool) (slot : RuntimeValue) :
    (slot.switch on).option = slot.option := rfl

@[simp] theorem RuntimeValue.give_option (value : Bytes) (slot : RuntimeValue) :
    (slot.give value).option = slot.option := by
  rw [RuntimeValue.give]
  split
  · rfl
  · rfl

@[simp] theorem Given.apply_option (given : Given) (slot : RuntimeValue) :
    (given.apply slot).option = slot.option := by
  rw [Given.apply]
  split
  · cases given with
    | assigned option value =>
      rw [Given.change]
      split
      · rfl
      · exact slot.give_option value
    | separated option value => exact slot.give_option value
    | switched option on => rfl
  · rfl

/-- What is given for an option is a setting or a value, by its type. -/
theorem Given.apply_own {command : ProjectCommand} {given : Given} (hadm : given.Admissible command)
    {slot : RuntimeValue} (h : slot.option = given.option) :
    given.apply slot
      = if slot.option.type = .bool then slot.switch given.setting else slot.give given.text := by
  rw [Given.apply, if_pos h, h]
  cases given with
  | assigned option value => rfl
  | separated option value =>
    have htype : option.type ≠ .bool := hadm.2.1
    exact (if_neg htype).symm
  | switched option on =>
    have htype : option.type = .bool := hadm.2
    exact (if_pos htype).symm

/-- What a value becomes by what is given for its option. -/
structure Becomes (given : List Given) (slot last : RuntimeValue) : Prop where
  option : last.option = slot.option
  seen : last.seen = true ↔ slot.seen = true ∨ given ≠ []
  bool : slot.option.type = .bool →
    last.boolValue = (given.map Given.setting).getLastD slot.boolValue ∧
      (slot.value = boolText slot.boolValue → last.value = boolText last.boolValue)
  list : slot.option.type = .list → last.list = slot.list ++ given.map Given.text
  scalar : slot.option.type ≠ .bool → slot.option.type ≠ .list →
    last.value = (given.map Given.text).getLastD slot.value

theorem Becomes.refl (slot : RuntimeValue) : Becomes [] slot slot where
  option := rfl
  seen := by simp
  bool _ := ⟨rfl, id⟩
  list _ := by simp
  scalar _ _ := rfl

/-- One thing more was given before. -/
theorem Becomes.cons {command : ProjectCommand} {given : Given} (hadm : given.Admissible command)
    {slot last : RuntimeValue} (hown : slot.option = given.option) {rest : List Given}
    (h : Becomes rest (given.apply slot) last) : Becomes (given :: rest) slot last := by
  have hoption := given.apply_option slot
  have happly := given.apply_own hadm hown
  by_cases hbool : slot.option.type = .bool
  · rw [if_pos hbool] at happly
    have hlist : slot.option.type ≠ .list := by
      rw [hbool]
      decide
    obtain ⟨hsetting, hvalue⟩ := h.bool (by rw [hoption]; exact hbool)
    rw [happly] at hsetting hvalue
    refine ⟨h.option.trans hoption, ?_, fun _ => ⟨?_, fun _ => hvalue rfl⟩, fun hl => absurd hl hlist,
      fun hb => absurd hbool hb⟩
    · rw [h.seen, happly]
      simp [RuntimeValue.switch]
    · rw [hsetting, List.map_cons, List.getLastD_cons]
      rfl
  · rw [if_neg hbool] at happly
    by_cases hlist : slot.option.type = .list
    · have htexts := h.list (by rw [hoption]; exact hlist)
      have hgive : slot.give given.text = { slot with list := slot.list ++ [given.text], seen := true } :=
        if_pos hlist
      refine ⟨h.option.trans hoption, ?_, fun hb => absurd hb hbool, fun _ => ?_,
        fun _ hl => absurd hlist hl⟩
      · rw [h.seen, happly, hgive]
        simp
      · rw [htexts, happly, hgive, List.map_cons, List.append_assoc]
        rfl
    · have htext := h.scalar (by rw [hoption]; exact hbool) (by rw [hoption]; exact hlist)
      have hgive : slot.give given.text = { slot with value := given.text, seen := true } := if_neg hlist
      refine ⟨h.option.trans hoption, ?_, fun hb => absurd hb hbool, fun hl => absurd hl hlist,
        fun _ _ => ?_⟩
      · rw [h.seen, happly, hgive]
        simp
      · rw [htext, happly, hgive, List.map_cons, List.getLastD_cons]

/-- A validated command that does not take options of its own with values of theirs, though no
required one is missing. -/
def Refused (command : ProjectCommand) (givens : List Given) : Prop :=
  (∃ g : CommandGraph, validateProjectCommands g = .ok () ∧ command ∈ g.commands) ∧
    (∀ given ∈ givens, given.Admissible command) ∧
    (∀ option ∈ command.options, option.required = true → ∃ given ∈ givens, given.option = option) ∧
    ¬ ∃ runtime, parseProjectCommandArgs command (givens.flatMap Given.words) = .ok runtime

/-- A command with one option. -/
def oneOption (option : CommandOption) (hname : commandOptionNameValid option.name = true)
    (hlist : option.type ≠ .list) : ProjectCommand where
  name := ascii "show"
  options := [option]
  steps := [{ kind := .check }]
  options_valid _ ho := (List.mem_singleton.mp ho).symm ▸ hname
  options_nodup := List.nodup_singleton _
  list_default _ ho htype := absurd ((List.mem_singleton.mp ho) ▸ htype) hlist

end QStar.ProjectCommands
