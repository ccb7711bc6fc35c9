import QStar.Base.Paths
import QStar.Lib.Bindings

/-!
# The environment of a child process

An action's `env` list reaches its child in three ways. `posix_spawn_process`
hands over a rebuilt array (`posix_env_overlay`): the parent's entries the list
does not name, then the list. `fork_process` calls `putenv` for one item after
another. The command line printed for replay has the items as assignments before
the command. A name the list gives twice has its first value in the first child
and its last value in the other two.
-/
namespace QStar.Processes.Environment

open QStar.Lib.CStrings
open QStar.Lib.Bindings
open QStar.Base (isAlnum isAlpha)

/-- `command_env_assignment_ok` -/
def commandEnvAssignmentOk (item : Bytes) : Bool :=
  decide (61 ∈ item) &&
    match item.takeWhile (· ≠ 61) with
    | [] => false
    | c :: name => (isAlpha c || c == 95) && (c :: name).all fun b => isAlnum b || b == 95

/-- `validate_command_env` accepts the list. -/
def validateCommandEnv (env : List Bytes) : Bool := env.all commandEnvAssignmentOk

/-- `env_assignment_name_len` -/
def envAssignmentNameLen (assignment : Bytes) : Nat :=
  if 61 ∈ assignment then (assignment.takeWhile (· ≠ 61)).length else 0

/-- `env_name_equal_n`, POSIX -/
def envNameEqualN (a b : Bytes) (n : Nat) : Bool := a.take n == b.take n

/-- `env_entry_overridden` -/
def envEntryOverridden (entry : Bytes) (env : List Bytes) : Bool :=
  env.any fun item =>
    let n := envAssignmentNameLen item
    decide (0 < n) && decide (n < entry.length) && entry[n]? == some 61 &&
      envNameEqualN entry item n

/-- `posix_env_overlay`; without items the child has the parent's array. -/
def posixEnvOverlay (environ env : List Bytes) : List Bytes :=
  if env = [] then environ else environ.filter (fun entry => !envEntryOverridden entry env) ++ env

/-- `putenv` of a `NAME=value` item: the first entry of its name is replaced. -/
def putenv (item : Bytes) : List Bytes → List Bytes
  | [] => [item]
  | entry :: rest =>
    if item.takeWhile (· ≠ 61) ++ [61] <+: entry then item :: rest else entry :: putenv item rest

/-- The two runners of `posix_start_process`. -/
inductive Runner where
  | posixSpawn
  | fork
  deriving DecidableEq, Repr

/-- The environment the child's program starts with. -/
def childEnviron (runner : Runner) (environ env : List Bytes) : List Bytes :=
  match runner with
  | .posixSpawn => posixEnvOverlay environ env
  | .fork => env.foldl (fun acc item => putenv item acc) environ

/-- `getenv` -/
def getenv (environ : List Bytes) (name : Bytes) : Option Bytes :=
  environ.findSome? fun entry =>
    if name ++ [61] <+: entry then some (entry.drop (name.length + 1)) else none

/-- An assignment of a shell command line: the name's value from then on. -/
def shellAssign (values : Bytes → Option Bytes) (item : Bytes) : Bytes → Option Bytes :=
  fun name =>
    if item.takeWhile (· ≠ 61) = name then some ((item.dropWhile (· ≠ 61)).drop 1)
    else values name

/-- What the command of a replayed line finds: its assignments from left to right over
the parent's environment. -/
def replayValue (environ env : List Bytes) : Bytes → Option Bytes :=
  env.foldl shellAssign (getenv environ)

/-- `project_command_env_overridden`, POSIX -/
def projectCommandEnvOverridden (entry : Bytes) (overlay : List Bytes) : Bool :=
  let n := envAssignmentNameLen entry
  decide (n ≠ 0) &&
    overlay.any fun item => envAssignmentNameLen item == n && envNameEqualN entry item n

/-- `project_command_merge_env` -/
def projectCommandMergeEnv (command step : List Bytes) : List Bytes :=
  command.filter (fun item => !projectCommandEnvOverridden item step) ++ step

/-! ## Entries as bindings -/

/-- An entry's name and value. -/
def binding (entry : Bytes) : Option (Bytes × Bytes) :=
  match entry.dropWhile (· ≠ 61) with
  | [] => none
  | _ :: value => some (entry.takeWhile (· ≠ 61), value)

def bindings (environ : List Bytes) : List (Bytes × Bytes) := environ.filterMap binding

theorem binding_append {name : Bytes} (h : 61 ∉ name) (value : Bytes) :
    binding (name ++ 61 :: value) = some (name, value) := by
  have hall : ∀ c ∈ name, (decide (c ≠ 61)) = true := by
    intro c hc
    rw [decide_eq_true_eq]
    rintro rfl
    exact h hc
  have htake : (name ++ 61 :: value).takeWhile (· ≠ 61) = name := by
    rw [List.takeWhile_append_of_pos hall]
    simp
  have hdrop : (name ++ 61 :: value).dropWhile (· ≠ 61) = 61 :: value := by
    rw [List.dropWhile_append_of_pos hall]
    simp
  rw [binding, hdrop, htake]

theorem binding_eq_some {entry name value : Bytes} :
    binding entry = some (name, value) ↔ 61 ∉ name ∧ entry = name ++ 61 :: value := by
  constructor
  · intro h
    have hsplit := List.takeWhile_append_dropWhile (p := fun c : UInt8 => decide (c ≠ 61)) (l := entry)
    have hfree : 61 ∉ entry.takeWhile (· ≠ 61) := by
      intro hmem
      simpa using List.mem_takeWhile_imp hmem
    rw [binding] at h
    split at h
    · cases h
    · rename_i c tail hdrop
      cases h
      have hhead : c = 61 := by
        have hnonempty : entry.dropWhile (fun c => decide (c ≠ 61)) ≠ [] := by
          rw [hdrop]
          exact List.cons_ne_nil c value
        have hnot := List.head_dropWhile_not (fun c => decide (c ≠ 61)) hnonempty
        simp only [hdrop, List.head_cons] at hnot
        simpa using hnot
      rw [hdrop, hhead] at hsplit
      exact ⟨hfree, hsplit.symm⟩
  · rintro ⟨hfree, rfl⟩
    exact binding_append hfree value

theorem takeWhile_of_binding {entry name value : Bytes} (h : binding entry = some (name, value)) :
    entry.takeWhile (· ≠ 61) = name := by
  rw [binding] at h
  split at h
  · cases h
  · exact congrArg Prod.fst (Option.some.inj h)

/-- An entry begins with a name and `=` just when it binds that name. -/
theorem prefix_iff_binding {name entry : Bytes} (h : 61 ∉ name) :
    name ++ [61] <+: entry ↔ ∃ value, binding entry = some (name, value) := by
  constructor
  · rintro ⟨value, rfl⟩
    refine ⟨value, ?_⟩
    rw [List.append_assoc]
    exact binding_append h value
  · rintro ⟨value, hb⟩
    obtain ⟨-, rfl⟩ := binding_eq_some.mp hb
    exact ⟨value, by simp⟩

theorem bindings_cons_none {entry : Bytes} (h : binding entry = none) (rest : List Bytes) :
    bindings (entry :: rest) = bindings rest := by
  rw [bindings, List.filterMap_cons_none h, bindings]

theorem bindings_cons_some {entry : Bytes} {e : Bytes × Bytes} (h : binding entry = some e)
    (rest : List Bytes) : bindings (entry :: rest) = e :: bindings rest := by
  rw [bindings, List.filterMap_cons_some h, bindings]

theorem getenv_eq_lookup {name : Bytes} (h : 61 ∉ name) (environ : List Bytes) :
    getenv environ name = (bindings environ).lookup name := by
  induction environ with
  | nil => rfl
  | cons entry rest ih =>
    have hstep : getenv (entry :: rest) name
        = if name ++ [61] <+: entry then some (entry.drop (name.length + 1))
          else getenv rest name := by
      rw [getenv, List.findSome?_cons]
      by_cases hpre : name ++ [61] <+: entry
      · simp [hpre]
      · simp [hpre, getenv]
    rw [hstep]
    by_cases hpre : name ++ [61] <+: entry
    · obtain ⟨value, hb⟩ := (prefix_iff_binding h).mp hpre
      rw [if_pos hpre, bindings_cons_some hb, List.lookup_cons_self]
      obtain ⟨-, rfl⟩ := binding_eq_some.mp hb
      simp
    · rw [if_neg hpre, ih]
      cases hb : binding entry with
      | none => rw [bindings_cons_none hb]
      | some e =>
        obtain ⟨k, v⟩ := e
        have hk : k ≠ name := by
          rintro rfl
          exact hpre ((prefix_iff_binding h).mpr ⟨v, hb⟩)
        rw [bindings_cons_some hb, lookup_cons_ne hk]

theorem binding_of_mem {entry : Bytes} (h : 61 ∈ entry) :
    ∃ value, binding entry = some (entry.takeWhile (· ≠ 61), value) := by
  cases hdrop : entry.dropWhile (· ≠ 61) with
  | nil =>
    have hall := List.dropWhile_eq_nil_iff.mp hdrop 61 h
    simp at hall
  | cons c value => exact ⟨value, by rw [binding, hdrop]⟩

/-- A validated item binds a name. -/
theorem binding_of_ok {item : Bytes} (h : commandEnvAssignmentOk item = true) :
    ∃ name value, name ≠ [] ∧ binding item = some (name, value) := by
  rw [commandEnvAssignmentOk, Bool.and_eq_true, decide_eq_true_eq] at h
  obtain ⟨value, hb⟩ := binding_of_mem h.1
  refine ⟨item.takeWhile (· ≠ 61), value, ?_, hb⟩
  intro hnil
  rw [hnil] at h
  cases h.2

/-! ## What each way does to the bindings -/

theorem bindings_putenv {item name value : Bytes} (h : binding item = some (name, value))
    (environ : List Bytes) : bindings (putenv item environ) = assign name value (bindings environ) := by
  obtain ⟨hfree, rfl⟩ := binding_eq_some.mp h
  have htake : (name ++ 61 :: value).takeWhile (· ≠ 61) = name := takeWhile_of_binding h
  induction environ with
  | nil => rw [putenv, bindings_cons_some h]; rfl
  | cons entry rest ih =>
    rw [putenv, htake]
    by_cases hpre : name ++ [61] <+: entry
    · obtain ⟨v, hb⟩ := (prefix_iff_binding hfree).mp hpre
      rw [if_pos hpre, bindings_cons_some h, bindings_cons_some hb, assign, if_pos rfl]
    · rw [if_neg hpre]
      cases hb : binding entry with
      | none => rw [bindings_cons_none hb, bindings_cons_none hb, ih]
      | some e =>
        obtain ⟨k, v⟩ := e
        have hk : k ≠ name := by
          rintro rfl
          exact hpre ((prefix_iff_binding hfree).mpr ⟨v, hb⟩)
        rw [bindings_cons_some hb, bindings_cons_some hb, assign, if_neg hk, ih]

theorem bindings_fork (environ : List Bytes) {env : List Bytes} (hvalid : validateCommandEnv env = true) :
    bindings (childEnviron .fork environ env) = assignAll (bindings environ) (bindings env) := by
  simp only [childEnviron]
  induction env generalizing environ with
  | nil => rfl
  | cons item rest ih =>
    rw [validateCommandEnv, List.all_cons, Bool.and_eq_true] at hvalid
    obtain ⟨name, value, -, hb⟩ := binding_of_ok hvalid.1
    rw [List.foldl_cons, ih _ hvalid.2, bindings_putenv hb, bindings_cons_some hb]
    rfl

theorem envAssignmentNameLen_of_binding {item name value : Bytes}
    (h : binding item = some (name, value)) : envAssignmentNameLen item = name.length := by
  have hmem : 61 ∈ item := by
    rw [(binding_eq_some.mp h).2]
    simp
  rw [envAssignmentNameLen, if_pos hmem, takeWhile_of_binding h]

theorem mem_bindings {environ : List Bytes} {e : Bytes × Bytes} :
    e ∈ bindings environ ↔ ∃ entry ∈ environ, binding entry = some e := List.mem_filterMap

/-- An entry is overridden when an item binds its name. -/
theorem envEntryOverridden_iff {env : List Bytes} (hvalid : validateCommandEnv env = true)
    (entry : Bytes) :
    envEntryOverridden entry env = true
      ↔ ∃ e ∈ bindings env, ∃ value, binding entry = some (e.1, value) := by
  have hitem : ∀ item ∈ env, ∃ name value, name ≠ [] ∧ binding item = some (name, value) :=
    fun item h => binding_of_ok (List.all_eq_true.mp hvalid item h)
  rw [envEntryOverridden, List.any_eq_true]
  constructor
  · rintro ⟨item, hmem, h⟩
    obtain ⟨name, value, -, hb⟩ := hitem item hmem
    simp only [envAssignmentNameLen_of_binding hb, Bool.and_eq_true, decide_eq_true_eq, beq_iff_eq,
      envNameEqualN] at h
    obtain ⟨⟨⟨-, hlt⟩, hat⟩, heq⟩ := h
    obtain ⟨hfree, rfl⟩ := binding_eq_some.mp hb
    rw [List.take_left' rfl] at heq
    refine ⟨(name, value), mem_bindings.mpr ⟨_, hmem, hb⟩, entry.drop (name.length + 1), ?_⟩
    have hsplit : entry = name ++ 61 :: entry.drop (name.length + 1) := by
      have hdrop : entry.drop name.length = 61 :: entry.drop (name.length + 1) := by
        rw [List.drop_eq_getElem_cons hlt]
        rw [List.getElem?_eq_getElem hlt] at hat
        rw [Option.some.inj hat]
      calc entry = entry.take name.length ++ entry.drop name.length :=
            (List.take_append_drop _ _).symm
        _ = name ++ 61 :: entry.drop (name.length + 1) := by rw [heq, hdrop]
    exact binding_eq_some.mpr ⟨hfree, hsplit⟩
  · rintro ⟨⟨name, value⟩, hmem, rest, hb⟩
    obtain ⟨item, hitemMem, hbItem⟩ := mem_bindings.mp hmem
    obtain ⟨name', value', hne, hb'⟩ := hitem item hitemMem
    rw [hbItem] at hb'
    obtain ⟨rfl, rfl⟩ := Prod.mk.inj (Option.some.inj hb')
    refine ⟨item, hitemMem, ?_⟩
    obtain ⟨-, rfl⟩ := binding_eq_some.mp hb
    simp only [envAssignmentNameLen_of_binding hbItem, envNameEqualN]
    obtain ⟨-, rfl⟩ := binding_eq_some.mp hbItem
    have hpos : 0 < name.length := List.length_pos_iff.mpr hne
    simp [hpos]

theorem bindings_append (a b : List Bytes) : bindings (a ++ b) = bindings a ++ bindings b :=
  List.filterMap_append

/-- The rebuilt array binds what the items bind over what the parent binds. -/
theorem bindings_posixSpawn (environ : List Bytes) {env : List Bytes}
    (hvalid : validateCommandEnv env = true) :
    bindings (childEnviron .posixSpawn environ env) = overlay (bindings environ) (bindings env) := by
  have hkept : bindings (environ.filter fun entry => !envEntryOverridden entry env)
      = (bindings environ).filter fun entry => !names (bindings env) entry.1 := by
    induction environ with
    | nil => rfl
    | cons entry rest ih =>
      cases hb : binding entry with
      | none =>
        have hnot : envEntryOverridden entry env = false := by
          rw [Bool.eq_false_iff, Ne, envEntryOverridden_iff hvalid]
          rintro ⟨e, -, value, hv⟩
          rw [hb] at hv
          cases hv
        rw [List.filter_cons_of_pos (by rw [hnot]; rfl), bindings_cons_none hb,
          bindings_cons_none hb, ih]
      | some e =>
        have hsame : envEntryOverridden entry env = names (bindings env) e.1 := by
          rw [Bool.eq_iff_iff, envEntryOverridden_iff hvalid, names_iff]
          constructor
          · rintro ⟨e', he', value, hv⟩
            rw [hb] at hv
            exact ⟨e', he', (congrArg Prod.fst (Option.some.inj hv)).symm⟩
          · rintro ⟨e', he', hname⟩
            exact ⟨e', he', e.2, by rw [hb, hname]⟩
        cases hnamed : names (bindings env) e.1 with
        | true =>
          rw [hnamed] at hsame
          rw [List.filter_cons_of_neg (by rw [hsame]; decide), bindings_cons_some hb,
            List.filter_cons_of_neg (by rw [hnamed]; decide), ih]
        | false =>
          rw [hnamed] at hsame
          rw [List.filter_cons_of_pos (by rw [hsame]; rfl), bindings_cons_some hb,
            bindings_cons_some hb, List.filter_cons_of_pos (by rw [hnamed]; rfl), ih]
  simp only [childEnviron, posixEnvOverlay]
  by_cases hnil : env = []
  · subst hnil
    simp [overlay, bindings, names]
  · rw [if_neg hnil, bindings_append, hkept, overlay]

/-- The value of the last item that assigns the name. -/
theorem replayValue_eq (environ : List Bytes) {env : List Bytes}
    (hvalid : validateCommandEnv env = true) (name : Bytes) :
    replayValue environ env name = (last (bindings env) name).or (getenv environ name) := by
  have hrun : ∀ values : Bytes → Option Bytes,
      env.foldl shellAssign values name = (last (bindings env) name).or (values name) := by
    induction env with
    | nil => exact fun values => rfl
    | cons item rest ih =>
      intro values
      rw [validateCommandEnv, List.all_cons, Bool.and_eq_true] at hvalid
      obtain ⟨k, v, -, hb⟩ := binding_of_ok hvalid.1
      have hassign : shellAssign values item name = if k = name then some v else values name := by
        obtain ⟨hfree, hitem⟩ := binding_eq_some.mp hb
        have hk : item.takeWhile (· ≠ 61) = k := takeWhile_of_binding hb
        have hsplit := List.takeWhile_append_dropWhile (p := fun c : UInt8 => decide (c ≠ 61))
          (l := item)
        rw [hk] at hsplit
        have hd : item.dropWhile (· ≠ 61) = 61 :: v :=
          List.append_cancel_left (hsplit.trans hitem)
        rw [shellAssign, hk, hd]
        rfl
      rw [List.foldl_cons, ih hvalid.2, hassign, bindings_cons_some hb, last_cons]
      by_cases hk : k = name
      · cases last (bindings rest) name <;> simp [hk]
      · cases last (bindings rest) name <;> simp [hk]
  exact hrun _

/-! ## When the ways agree -/

/-- The name of a variable. -/
def IsEnvName (name : Bytes) : Prop := name ≠ [] ∧ 61 ∉ name

/-- Every child finds the values the replayed command line gives. -/
def ChildrenAgree (environ env : List Bytes) : Prop :=
  ∀ name, IsEnvName name → ∀ runner,
    getenv (childEnviron runner environ env) name = replayValue environ env name

/-- The first and the last item of each name give it one value. -/
def Settled (env : List Bytes) : Prop :=
  ∀ name, IsEnvName name → getenv env name = getenv env.reverse name

theorem bindings_reverse (env : List Bytes) : bindings env.reverse = (bindings env).reverse :=
  List.filterMap_reverse

theorem getenv_reverse {name : Bytes} (h : 61 ∉ name) (env : List Bytes) :
    getenv env.reverse name = last (bindings env) name := by
  rw [getenv_eq_lookup h, bindings_reverse, last]

theorem getenv_fork {name : Bytes} (h : 61 ∉ name) (environ : List Bytes) {env : List Bytes}
    (hvalid : validateCommandEnv env = true) :
    getenv (childEnviron .fork environ env) name = replayValue environ env name := by
  rw [getenv_eq_lookup h, bindings_fork environ hvalid, lookup_assignAll,
    replayValue_eq environ hvalid, getenv_eq_lookup h]

/-- The child's environment is the same for both runners and a replayed command line just
when no name has items that begin and end with different values. -/
theorem childrenAgree_iff (environ env : List Bytes) (hvalid : validateCommandEnv env = true) :
    ChildrenAgree environ env ↔ Settled env := by
  have hspawn : ∀ name, IsEnvName name →
      (getenv (childEnviron .posixSpawn environ env) name = replayValue environ env name
        ↔ getenv env name = getenv env.reverse name) := by
    intro name hname
    rw [← getenv_fork hname.2 environ hvalid, getenv_eq_lookup hname.2, getenv_eq_lookup hname.2,
      bindings_posixSpawn environ hvalid, bindings_fork environ hvalid,
      lookup_overlay_eq_assignAll, getenv_eq_lookup hname.2, getenv_reverse hname.2]
  constructor
  · intro h name hname
    exact (hspawn name hname).mp (h name hname .posixSpawn)
  · intro h name hname runner
    cases runner with
    | posixSpawn => exact (hspawn name hname).mpr (h name hname)
    | fork => exact getenv_fork hname.2 environ hvalid

theorem childrenAgree_iff_path :
    ChildrenAgree [ascii "PATH=/bin", ascii "A=0"] [ascii "A=1", ascii "A=2", ascii "A=1"]
      ↔ Settled [ascii "A=1", ascii "A=2", ascii "A=1"] :=
  childrenAgree_iff _ _ (by decide)

/-- A command's `env` may name a variable twice: one runner's child finds the first value,
the other's the second. -/
theorem repeated_name_depends_on_runner :
    ∃ environ command step : List Bytes, validateCommandEnv command = true ∧
      validateCommandEnv step = true ∧
      getenv (childEnviron .posixSpawn environ (projectCommandMergeEnv command step)) (ascii "A")
        ≠ getenv (childEnviron .fork environ (projectCommandMergeEnv command step)) (ascii "A") ∧
      ¬ ChildrenAgree environ (projectCommandMergeEnv command step) := by
  have hdiffer : getenv (childEnviron .posixSpawn [] [ascii "A=1", ascii "A=2"]) (ascii "A")
      ≠ getenv (childEnviron .fork [] [ascii "A=1", ascii "A=2"]) (ascii "A") := by decide
  refine ⟨[], [ascii "A=1", ascii "A=2"], [], by decide, by decide, hdiffer, fun hagree => hdiffer ?_⟩
  have hname : IsEnvName (ascii "A") := ⟨by decide, by decide⟩
  exact (hagree _ hname .posixSpawn).trans (hagree _ hname .fork).symm

/-! ## The list a project command passes on -/

theorem projectCommandEnvOverridden_iff {step : List Bytes}
    (hstep : validateCommandEnv step = true) {item name value : Bytes} (hne : name ≠ [])
    (hb : binding item = some (name, value)) :
    projectCommandEnvOverridden item step = names (bindings step) name := by
  have hpos : name.length ≠ 0 := fun h => hne (List.length_eq_zero_iff.mp h)
  have htaken : item.take name.length = name := by
    rw [(binding_eq_some.mp hb).2, List.take_left' rfl]
  rw [Bool.eq_iff_iff, projectCommandEnvOverridden, names_iff]
  simp only [envAssignmentNameLen_of_binding hb, envNameEqualN, htaken, Bool.and_eq_true,
    decide_eq_true_eq, List.any_eq_true, beq_iff_eq]
  constructor
  · rintro ⟨-, other, hmem, hlen, htake⟩
    obtain ⟨name', value', -, hb'⟩ := binding_of_ok (List.all_eq_true.mp hstep other hmem)
    rw [envAssignmentNameLen_of_binding hb'] at hlen
    refine ⟨(name', value'), mem_bindings.mpr ⟨other, hmem, hb'⟩, ?_⟩
    rw [(binding_eq_some.mp hb').2, List.take_left' hlen] at htake
    exact htake.symm
  · rintro ⟨⟨name', value'⟩, hmem, hname⟩
    dsimp only at hname
    subst hname
    obtain ⟨other, hother, hb'⟩ := mem_bindings.mp hmem
    refine ⟨hpos, other, hother, envAssignmentNameLen_of_binding hb', ?_⟩
    rw [(binding_eq_some.mp hb').2, List.take_left' rfl]

/-- The merged list binds what the step binds over what the command binds. -/
theorem bindings_merge {command step : List Bytes} (hcommand : validateCommandEnv command = true)
    (hstep : validateCommandEnv step = true) :
    bindings (projectCommandMergeEnv command step) = overlay (bindings command) (bindings step) := by
  rw [projectCommandMergeEnv, bindings_append, overlay, List.append_cancel_right_eq]
  induction command with
  | nil => rfl
  | cons item rest ih =>
    rw [validateCommandEnv, List.all_cons, Bool.and_eq_true] at hcommand
    obtain ⟨name, value, hne, hb⟩ := binding_of_ok hcommand.1
    have hsame := projectCommandEnvOverridden_iff hstep hne hb
    rw [bindings_cons_some hb]
    cases hnamed : names (bindings step) name with
    | true =>
      rw [hnamed] at hsame
      rw [List.filter_cons_of_neg (by rw [hsame]; decide),
        List.filter_cons_of_neg (by rw [hnamed]; decide), ih hcommand.2]
    | false =>
      rw [hnamed] at hsame
      rw [List.filter_cons_of_pos (by rw [hsame]; rfl), bindings_cons_some hb,
        List.filter_cons_of_pos (by rw [hnamed]; rfl), ih hcommand.2]

theorem validate_merge {command step : List Bytes} (hcommand : validateCommandEnv command = true)
    (hstep : validateCommandEnv step = true) :
    validateCommandEnv (projectCommandMergeEnv command step) = true := by
  rw [validateCommandEnv, List.all_eq_true] at *
  intro item hmem
  rcases List.mem_append.mp hmem with hmem | hmem
  · exact hcommand item (List.mem_of_mem_filter hmem)
  · exact hstep item hmem

/-- Merging removes what a command's list and a step's list both name, and leaves a name that
one of the lists gives twice: the merged list is settled when the step's is and, for the names
the step leaves alone, the command's is. -/
theorem settled_merge_iff {command step : List Bytes} (hcommand : validateCommandEnv command = true)
    (hstep : validateCommandEnv step = true) :
    Settled (projectCommandMergeEnv command step)
      ↔ Settled step ∧ ∀ name, IsEnvName name → getenv step name = none →
          getenv command name = getenv command.reverse name := by
  have hmerged : ∀ name, IsEnvName name →
      ((getenv (projectCommandMergeEnv command step) name
          = getenv (projectCommandMergeEnv command step).reverse name)
        ↔ (getenv step name).or (getenv command name)
          = (getenv step.reverse name).or (getenv command.reverse name)) := by
    intro name hname
    simp only [getenv_reverse hname.2, getenv_eq_lookup hname.2, bindings_merge hcommand hstep,
      lookup_overlay, last_overlay]
  have hsome : ∀ name, IsEnvName name →
      (getenv step.reverse name).isSome = (getenv step name).isSome := by
    intro name hname
    rw [getenv_reverse hname.2, getenv_eq_lookup hname.2, last_isSome]
  constructor
  · intro h
    constructor
    · intro name hname
      have heq := (hmerged name hname).mp (h name hname)
      have hboth := hsome name hname
      cases hfirst : getenv step name with
      | none =>
        rw [hfirst] at hboth
        exact (Option.isNone_iff_eq_none.mp (Option.isSome_eq_false_iff.mp hboth)).symm
      | some v =>
        rw [hfirst] at hboth
        obtain ⟨w, hw⟩ := Option.isSome_iff_exists.mp hboth
        rw [hfirst, hw] at heq
        rw [hw]
        exact heq
    · intro name hname hnone
      have heq := (hmerged name hname).mp (h name hname)
      have hboth := hsome name hname
      rw [hnone, Option.isSome_none, Option.isSome_eq_false_iff, Option.isNone_iff_eq_none] at hboth
      rwa [hnone, hboth, Option.none_or, Option.none_or] at heq
  · rintro ⟨hs, hc⟩ name hname
    rw [hmerged name hname, ← hs name hname]
    cases hfirst : getenv step name with
    | none => exact hc name hname hfirst
    | some v => rfl

end QStar.Processes.Environment
