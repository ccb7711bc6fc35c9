import QStar.ProjectCommands.Arguments

/-!
# Running project commands

The steps of a command run in order, and a call step runs another command with no
arguments, up to a depth. Validation knows the commands that are called and refuses
cycles; it does not look at the options of the called commands or at the depth.
-/
namespace QStar.ProjectCommands

open QStar.Lib.CStrings
open QStar.Lib.Results

/-- The errors of `run_project_command_internal`. -/
inductive RunFailure where
  | unknownOption (name : Bytes)
  | notABool (name : Bytes)
  | unknownCommand (name : Bytes)
  | arguments (called : Bytes) (stop : Stop)
  | depthExceeded
  | unknownKind (command : Bytes)
  | step (command : Bytes) (step : CommandStep)

/-- What a build, test, stage, check, lint, run or export step does to the world, unless it
fails. -/
abbrev Perform (σ : Type) := σ → ProjectCommand → CommandStep → Runtime → Option σ

/-- `command_runtime_bool_enabled` -/
def runtimeBoolEnabled (runtime : Runtime) (name : Bytes) : Except RunFailure Bool :=
  if name = [] then .ok true
  else
    match runtime.find? fun slot => slot.option.name = name with
    | none => .error (.unknownOption name)
    | some slot => if slot.option.type ≠ .bool then .error (.notABool name) else .ok slot.boolValue

/-- A call step: the called command without arguments. -/
def runCall {σ : Type} (g : CommandGraph) (run : ProjectCommand → Runtime → σ → Except RunFailure σ)
    (step : CommandStep) (s : σ) : Except RunFailure σ :=
  match findProjectCommand g step.command with
  | none => .error (.unknownCommand step.command)
  | some called =>
    match parseProjectCommandArgs called [] with
    | .error stop => .error (.arguments called.name stop)
    | .ok runtime => run called runtime s

/-- One turn of the loop of `run_project_command_internal`. -/
def runStep {σ : Type} (g : CommandGraph) (perform : Perform σ)
    (run : ProjectCommand → Runtime → σ → Except RunFailure σ) (command : ProjectCommand)
    (runtime : Runtime) (s : σ) (step : CommandStep) : Except RunFailure σ :=
  match runtimeBoolEnabled runtime step.when with
  | .error failure => .error failure
  | .ok false => .ok s
  | .ok true =>
    match step.kind with
    | .call => runCall g run step s
    | .other _ => .error (.unknownKind command.name)
    | _ =>
      match perform s command step runtime with
      | none => .error (.step command.name step)
      | some s => .ok s

/-- `run_project_command_internal`, with the number of levels its depth leaves. -/
def runProjectCommandInternal {σ : Type} (g : CommandGraph) (perform : Perform σ) :
    Nat → ProjectCommand → Runtime → σ → Except RunFailure σ
  | 0, _, _, _ => .error .depthExceeded
  | levels + 1, command, runtime, s =>
    command.steps.foldlM
      (runStep g perform (runProjectCommandInternal g perform levels) command runtime) s

/-- The levels at depth 0: a depth above 32 is an error. -/
def callLevels : Nat := 33

/-! ## What validation says about steps -/

theorem validateEach_ok {g : CommandGraph} {earlier commands : List ProjectCommand}
    (h : validateEach g earlier commands = .ok ()) :
    ∀ command ∈ commands, ∃ before after, validateProjectCommand g before command after = .ok () := by
  induction commands generalizing earlier with
  | nil => exact fun _ hmem => absurd hmem List.not_mem_nil
  | cons first rest ih =>
    obtain ⟨_, hfirst, hrest⟩ := bind_eq_ok.mp h
    intro command hmem
    rcases List.mem_cons.mp hmem with rfl | hmem
    · exact ⟨earlier, rest, hfirst⟩
    · exact ih hrest command hmem

theorem validateProjectCommand_steps {g : CommandGraph} {before after : List ProjectCommand}
    {command : ProjectCommand} (h : validateProjectCommand g before command after = .ok ()) :
    ∀ step ∈ command.steps, validateProjectCommandStep g command step = .ok () := by
  obtain ⟨_, -, h⟩ := bind_eq_ok.mp h
  obtain ⟨_, -, h⟩ := bind_eq_ok.mp h
  obtain ⟨_, -, h⟩ := bind_eq_ok.mp h
  obtain ⟨_, -, h⟩ := bind_eq_ok.mp h
  obtain ⟨_, -, h⟩ := bind_eq_ok.mp h
  obtain ⟨_, hsteps, -⟩ := bind_eq_ok.mp h
  exact forM_eq_ok hsteps

/-- What a validated step is known by when it runs. -/
structure StepReady (g : CommandGraph) (command : ProjectCommand) (step : CommandStep) : Prop where
  when : step.when = [] ∨ ∃ option, projectCommandOption command step.when = some option ∧ option.type = .bool
  call : step.kind = .call → ∃ called, findProjectCommand g step.command = some called
  kind : ∀ name, step.kind ≠ .other name

theorem stepReady {g : CommandGraph} {command : ProjectCommand} {step : CommandStep}
    (h : validateProjectCommandStep g command step = .ok ()) : StepReady g command step := by
  obtain ⟨_, hwhen, hkind⟩ := bind_eq_ok.mp h
  refine ⟨?_, fun hcall => ?_, fun name hother => ?_⟩
  · by_cases hnil : step.when = []
    · exact .inl hnil
    · right
      rw [if_neg hnil, validateRuntimeRef] at hwhen
      cases hoption : projectCommandOption command step.when with
      | none =>
        rw [hoption] at hwhen
        cases hwhen
      | some option =>
        rw [hoption] at hwhen
        dsimp only at hwhen
        by_cases htype : option.type = .bool
        · exact ⟨option, rfl, htype⟩
        · rw [if_pos htype] at hwhen
          cases hwhen
  · cases hfound : findProjectCommand g step.command with
    | some called => exact ⟨called, rfl⟩
    | none =>
      rw [validateStepKind, hcall] at hkind
      dsimp only at hkind
      rw [hfound] at hkind
      cases hkind
  · rw [validateStepKind, hother] at hkind
    cases hkind

theorem steps_ready {g : CommandGraph} (h : validateProjectCommands g = .ok ()) {command : ProjectCommand}
    (hmem : command ∈ g.commands) : ∀ step ∈ command.steps, StepReady g command step := by
  obtain ⟨_, heach, -⟩ := bind_eq_ok.mp h
  obtain ⟨before, after, hcommand⟩ := validateEach_ok heach command hmem
  exact fun step hstep => stepReady (validateProjectCommand_steps hcommand step hstep)

theorem findProjectCommand_mem {g : CommandGraph} {name : Bytes} {command : ProjectCommand}
    (h : findProjectCommand g name = some command) : command ∈ g.commands := by
  rw [findProjectCommand] at h
  split at h
  · cases h
  · exact List.mem_of_find?_eq_some h

/-! ## The values a command runs with -/

/-- A failure of a step that is not a call step. -/
def RunFailure.OfStep (failure : RunFailure) : Prop := ∃ command step, failure = .step command step

/-- A command that requires an option, and one that calls it. -/
def requiringCommands : CommandGraph where
  commands :=
    [oneOption ⟨ascii "message", .string, true, false, [], []⟩ (by decide) (by decide),
      { name := ascii "all", steps := [{ kind := .call, command := ascii "show" }], options_valid := by decide,
        options_nodup := by decide, list_default := by decide }]

/-- A validated command whose only step is a call can fail by the call: the called command requires
an option, and a call gives none. -/
theorem call_of_requiring_command_fails :
    ∃ (g : CommandGraph) (command : ProjectCommand) (argv : List Bytes) (runtime : Runtime),
      validateProjectCommands g = .ok () ∧ command ∈ g.commands ∧
      parseProjectCommandArgs command argv = .ok runtime ∧
      ∃ failure : RunFailure,
        runProjectCommandInternal g (fun (s : Unit) _ _ _ => some s) callLevels command runtime ()
          = .error failure ∧ ¬ failure.OfStep := by
  refine ⟨requiringCommands, _, [], [], rfl, List.mem_cons_of_mem _ List.mem_cons_self, rfl,
    .arguments (ascii "show") (.error (.missingRequired (ascii "message"))), rfl, ?_⟩
  rintro ⟨_, _, heq⟩
  cases heq

end QStar.ProjectCommands
