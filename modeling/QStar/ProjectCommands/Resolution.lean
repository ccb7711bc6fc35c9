import Mathlib.Data.List.Perm.Subperm
import QStar.ProjectCommands.Calls

/-!
# Names and calls of validated commands

What the loops over names and aliases and the search over call steps establish together: a
name stands for one command, and replacing call steps by what they call comes to an end.
-/
namespace QStar.ProjectCommands

open QStar.Lib.CStrings
open QStar.Lib.Fixpoints
open QStar.Lib.Results
open QStar.Lib.Search
open QStar.Base

/-- A command is called by its name and its aliases. -/
def Named (name : Bytes) (command : ProjectCommand) : Prop :=
  name = command.name ∨ name ∈ command.aliases

/-- A call step of a command that names another. -/
def CallsTo (g : CommandGraph) (command called : ProjectCommand) : Prop :=
  command ∈ g.commands ∧ ∃ step ∈ command.steps, step.kind = .call ∧
    findProjectCommand g step.command = some called

/-- The steps of a command with its call steps replaced by the steps of what they call. -/
def expandCalls (g : CommandGraph) : Nat → ProjectCommand → Option (List CommandStep)
  | 0, _ => none
  | levels + 1, command => do
    let steps ← command.steps.mapM fun step =>
      if step.kind = .call then (findProjectCommand g step.command).bind (expandCalls g levels)
      else some [step]
    return steps.flatten

/-! ## What the loop over the commands checks -/

section Checks

variable {g : CommandGraph} {earlier later commands : List ProjectCommand} {command : ProjectCommand}

/-- Each command is checked against those before and those after it. -/
theorem validateEach_split (h : validateEach g earlier commands = .ok ())
    {before after : List ProjectCommand} (hsplit : commands = before ++ command :: after) :
    validateProjectCommand g (earlier ++ before) command after = .ok () := by
  induction before generalizing earlier commands with
  | nil =>
    rw [hsplit, List.nil_append] at h
    obtain ⟨_, hfirst, -⟩ := bind_eq_ok.mp h
    rwa [List.append_nil]
  | cons first before ih =>
    rw [hsplit, List.cons_append] at h
    obtain ⟨_, -, hrest⟩ := bind_eq_ok.mp h
    have htail := ih hrest rfl
    rwa [List.append_assoc, List.singleton_append] at htail

theorem validateName_ok {name : Bytes} {invalid : CommandError}
    (h : validateName name invalid = .ok ()) :
    commandTokenValid name = true ∧ projectCommandNameReserved name = false := by
  unfold validateName at h
  split at h
  · cases h
  · rename_i hvalid
    split at h
    · cases h
    · rename_i hreserved
      exact ⟨by simpa using hvalid, by simpa using hreserved⟩

theorem validateAliases_ok {others : List ProjectCommand} {aliases : List Bytes}
    (h : validateAliases others aliases = .ok ()) :
    ∀ name ∈ aliases, ∀ other ∈ others, ¬Named name other := by
  induction aliases with
  | nil => nofun
  | cons first rest ih =>
    obtain ⟨_, -, h⟩ := bind_eq_ok.mp h
    obtain ⟨_, hfirst, hrest⟩ := bind_eq_ok.mp h
    intro name hname other hother
    rcases List.mem_cons.mp hname with rfl | hname
    · have hapart := forM_eq_ok hfirst other hother
      unfold validateAliasApart at hapart
      split at hapart
      · cases hapart
      · rename_i hne
        split at hapart
        · cases hapart
        · rename_i hno
          exact fun hnamed => hnamed.elim hne hno
    · exact ih hrest name hname other hother

/-- What a checked command is known for: its names can be used, and none of them is a name of
another command. -/
structure Checked (earlier : List ProjectCommand) (command : ProjectCommand)
    (later : List ProjectCommand) : Prop where
  usable : ∀ name, Named name command →
    commandTokenValid name = true ∧ projectCommandNameReserved name = false
  name : ∀ other ∈ later, ¬Named command.name other
  aliases : ∀ name ∈ command.aliases, ∀ other ∈ earlier ++ later, ¬Named name other

theorem validateProjectCommand_checked
    (h : validateProjectCommand g earlier command later = .ok ()) :
    Checked earlier command later := by
  obtain ⟨_, hname, h⟩ := bind_eq_ok.mp h
  obtain ⟨_, -, h⟩ := bind_eq_ok.mp h
  obtain ⟨_, -, h⟩ := bind_eq_ok.mp h
  obtain ⟨_, haliases, h⟩ := bind_eq_ok.mp h
  obtain ⟨_, -, h⟩ := bind_eq_ok.mp h
  obtain ⟨_, -, h⟩ := bind_eq_ok.mp h
  obtain ⟨_, hlater, hapart⟩ := bind_eq_ok.mp h
  refine ⟨?_, ?_, validateAliases_ok hapart⟩
  · rintro name (rfl | hmem)
    · exact validateName_ok hname
    · exact validateName_ok (forM_eq_ok haliases name hmem)
  · intro other hother
    have hother := forM_eq_ok hlater other hother
    unfold validateNameApart at hother
    split at hother
    · cases hother
    · rename_i hne
      split at hother
      · cases hother
      · rename_i hno
        exact fun hnamed => hnamed.elim hne hno

end Checks

/-! ## Names -/

section Names

variable {g : CommandGraph}

theorem checked_of_validated (h : validateProjectCommands g = .ok ())
    {before after : List ProjectCommand} {command : ProjectCommand}
    (hsplit : g.commands = before ++ command :: after) : Checked before command after := by
  obtain ⟨_, heach, -⟩ := bind_eq_ok.mp h
  exact validateProjectCommand_checked (validateEach_split heach hsplit)

/-- No two commands have a name in common. -/
def Apart (command other : ProjectCommand) : Prop := ∀ name, ¬(Named name command ∧ Named name other)

theorem commands_apart (h : validateProjectCommands g = .ok ()) : g.commands.Pairwise Apart := by
  have hall : ∀ before after, g.commands = before ++ after → after.Pairwise Apart := by
    intro before after hsplit
    induction after generalizing before with
    | nil => exact .nil
    | cons command after ih =>
      refine .cons ?_ (ih (before ++ [command]) (by simp [hsplit]))
      rintro other hother name ⟨hcommand, hnamed⟩
      have hchecked := checked_of_validated h hsplit
      rcases hcommand with rfl | hmem
      · exact hchecked.name other hother hnamed
      · exact hchecked.aliases name hmem other (List.mem_append_right _ hother) hnamed
  exact hall [] g.commands rfl

theorem eq_of_named (h : validateProjectCommands g = .ok ()) {name : Bytes}
    {command other : ProjectCommand} (hcommand : command ∈ g.commands) (hother : other ∈ g.commands)
    (hname : Named name command) (hname' : Named name other) : command = other := by
  have hapart := commands_apart h
  have hall := List.Pairwise.forall_of_forall_of_flip (R := fun a b => a = b ∨ Apart a b)
    (fun _ _ => .inl rfl) (hapart.imp .inr)
    (hapart.imp fun hab => .inr fun name hboth => hab name ⟨hboth.2, hboth.1⟩)
  exact (hall hcommand hother).resolve_right fun hno => hno name ⟨hname, hname'⟩

theorem usable_of_validated (h : validateProjectCommands g = .ok ()) {name : Bytes}
    {command : ProjectCommand} (hcommand : command ∈ g.commands) (hname : Named name command) :
    commandTokenValid name = true ∧ projectCommandNameReserved name = false := by
  obtain ⟨before, after, hsplit⟩ := List.append_of_mem hcommand
  exact (checked_of_validated h hsplit).usable name hname

/-- A name of a command leads to it. -/
theorem find_of_named (h : validateProjectCommands g = .ok ()) {name : Bytes}
    {command : ProjectCommand} (hcommand : command ∈ g.commands) (hname : Named name command) :
    findProjectCommand g name = some command := by
  have hne : name ≠ [] := by
    rintro rfl
    have hvalid := (usable_of_validated h hcommand hname).1
    simp [commandTokenValid] at hvalid
  have hiff : ∀ c : ProjectCommand,
      (decide (c.name = name) || decide (name ∈ c.aliases)) = true ↔ Named name c := by
    intro c
    rw [Bool.or_eq_true, decide_eq_true_eq, decide_eq_true_eq, eq_comm]
    rfl
  rw [findProjectCommand, if_neg hne]
  cases hfound : g.commands.find? fun c => decide (c.name = name) || decide (name ∈ c.aliases) with
  | none => exact absurd ((hiff command).mpr hname) (List.find?_eq_none.mp hfound command hcommand)
  | some found =>
    have hfits := List.find?_some hfound
    have hnamed := (hiff found).mp hfits
    rw [eq_of_named h (List.mem_of_find?_eq_some hfound) hcommand hnamed hname]

end Names

/-! ## Calls -/

section Calls

variable {g : CommandGraph}

theorem commandSpace_strict (g : CommandGraph) (command : ProjectCommand) (u : Unit) :
    (commandSpace g).again command ≠ .ok u := nofun

theorem findCalled_ok {name called : Bytes} {c : ProjectCommand} :
    (match findProjectCommand g called with
      | none => Except.error (CommandError.unknownCommand name called)
      | some found => .ok found) = .ok c ↔ findProjectCommand g called = some c := by
  cases findProjectCommand g called with
  | none => simp
  | some found => simp

theorem calledCommands_ok {command : ProjectCommand} {asked : List ProjectCommand}
    (h : calledCommands g command = .ok asked) {called : ProjectCommand} :
    called ∈ asked ↔ ∃ step ∈ command.steps, step.kind = .call ∧
      findProjectCommand g step.command = some called := by
  constructor
  · intro hmem
    obtain ⟨step, hstep, hfound⟩ := mapM_eq_ok_mem h called hmem
    obtain ⟨hmem, hkind⟩ := List.mem_filter.mp hstep
    exact ⟨step, hmem, of_decide_eq_true hkind, findCalled_ok.mp hfound⟩
  · rintro ⟨step, hstep, hkind, hfound⟩
    obtain ⟨c, hc, heq⟩ := mapM_eq_ok_of_mem h (List.mem_filter.mpr ⟨hstep, decide_eq_true hkind⟩)
    have hsame := hfound.symm.trans (findCalled_ok.mp heq)
    rwa [Option.some.inj hsame]

theorem commandSpace_within (h : validateProjectCommands g = .ok ()) :
    (commandSpace g).Within g.commands where
  nodup := by
    refine List.pairwise_map.mpr ((commands_apart h).imp ?_)
    intro a b hab heq
    exact hab a.name ⟨.inl rfl, .inl heq⟩
  closed := by
    intro command _ asked hasked called hcalled
    obtain ⟨step, -, -, hfound⟩ := (calledCommands_ok hasked).mp hcalled
    exact findProjectCommand_mem hfound

/-- The commands of a validated graph can be ranked above the commands they call. -/
theorem validated_rank (h : validateProjectCommands g = .ok ()) :
    ∃ rank : Bytes → Nat, (∀ command ∈ g.commands, rank command.name < g.commands.length) ∧
      ∀ command called, CallsTo g command called → rank called.name < rank command.name := by
  have hwithin := commandSpace_within h
  obtain ⟨_, -, hrest⟩ := bind_eq_ok.mp h
  obtain ⟨_, -, hrest⟩ := bind_eq_ok.mp hrest
  obtain ⟨order, hsearch, -⟩ := bind_eq_ok.mp hrest
  obtain ⟨hnodup, -, hclosed⟩ := search_spec hsearch
  have hmem : ∀ command, command ∈ order ↔
      Reached (· ∈ g.commands) (commandSpace g).Asks command := fun _ =>
    mem_search_iff (commandSpace_strict g) hwithin (fun _ hr => hr) hsearch
  have hwithinOrder : ∀ command ∈ order, command ∈ g.commands := fun command hcommand =>
    hwithin.of_reached (fun _ hr => hr) ((hmem command).mp hcommand)
  have hlength : order.length ≤ g.commands.length := by
    have hkeys := (List.subperm_of_subset hnodup fun k hk => by
      obtain ⟨command, hcommand, rfl⟩ := List.mem_map.mp hk
      exact List.mem_map_of_mem (f := (commandSpace g).key) (hwithinOrder command hcommand)).length_le
    simpa [Space.keys] using hkeys
  obtain ⟨rank, hrank⟩ := (search_ordered (commandSpace_strict g) hsearch).exists_rank hnodup
  refine ⟨rank, ?_, ?_⟩
  · intro command hcommand
    exact Nat.lt_of_lt_of_le (hrank command ((hmem command).mpr (.of_root hcommand))).1 hlength
  · rintro command called ⟨hcommand, hstep⟩
    have horder := (hmem command).mpr (.of_root hcommand)
    obtain ⟨asked, hasked, -⟩ := hclosed command horder
    exact (hrank command horder).2 asked hasked called ((calledCommands_ok hasked).mpr hstep)

/-- A command is expanded on as many levels as its rank has below it. -/
theorem expandCalls_of_rank (h : validateProjectCommands g = .ok ()) {rank : Bytes → Nat}
    (hrank : ∀ command called, CallsTo g command called → rank called.name < rank command.name)
    {levels : Nat} {command : ProjectCommand} (hcommand : command ∈ g.commands)
    (hlevels : rank command.name < levels) : ∃ steps, expandCalls g levels command = some steps := by
  induction levels generalizing command with
  | zero => omega
  | succ levels ih =>
    have hsteps : ∀ step ∈ command.steps, ∃ expanded,
        (if step.kind = .call then (findProjectCommand g step.command).bind (expandCalls g levels)
          else some [step]) = some expanded := by
      intro step hstep
      split
      · rename_i hkind
        obtain ⟨called, hcalled⟩ := (steps_ready h hcommand step hstep).call hkind
        have hlower := hrank command called ⟨hcommand, step, hstep, hkind, hcalled⟩
        obtain ⟨expanded, hexpanded⟩ := ih (findProjectCommand_mem hcalled) (by omega)
        exact ⟨expanded, by rw [hcalled, Option.bind_some, hexpanded]⟩
      · exact ⟨_, rfl⟩
    obtain ⟨results, hresults⟩ := exists_mapM hsteps
    exact ⟨results.flatten, by rw [expandCalls, hresults]; rfl⟩

end Calls

/-- In a validated graph no text is a name or alias of two commands, each leads to its command
and none is reserved; no chain of call steps comes back, and replacing the call steps of a
command by those of what they call ends on at most as many levels as there are commands. -/
theorem validated_resolution (g : CommandGraph) (h : validateProjectCommands g = .ok ()) :
    g.commands.Pairwise (fun command other => ∀ name, ¬(Named name command ∧ Named name other)) ∧
    (∀ command ∈ g.commands, ∀ name, Named name command →
      findProjectCommand g name = some command ∧ projectCommandNameReserved name = false) ∧
    (∀ command, ¬Relation.TransGen (CallsTo g) command command) ∧
    ∀ command ∈ g.commands, ∃ steps, expandCalls g g.commands.length command = some steps := by
  obtain ⟨rank, hbound, hrank⟩ := validated_rank h
  refine ⟨commands_apart h, ?_, ?_, ?_⟩
  · intro command hcommand name hname
    exact ⟨find_of_named h hcommand hname, (usable_of_validated h hcommand hname).2⟩
  · intro command hcycle
    have hdown : ∀ called, Relation.TransGen (CallsTo g) command called →
        rank called.name < rank command.name := by
      intro called hchain
      induction hchain with
      | single hcall => exact hrank _ _ hcall
      | tail _ hcall ih => exact Nat.lt_trans (hrank _ _ hcall) ih
    exact Nat.lt_irrefl _ (hdown command hcycle)
  · intro command hcommand
    exact expandCalls_of_rank h hrank hcommand (hbound command hcommand)

theorem validated_resolution_sample :
    findProjectCommand requiringCommands (ascii "all") = requiringCommands.commands[1]? :=
  ((validated_resolution requiringCommands rfl).2.1 _
    (List.mem_cons_of_mem _ List.mem_cons_self) (ascii "all") (.inl rfl)).1

end QStar.ProjectCommands
