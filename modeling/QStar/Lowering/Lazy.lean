import QStar.Lowering.Ids

/-!
# Resolving action ids

The action log and the replay file rebuild an action from its id alone. The id is
split at its last two colons and the action is lowered again from the graph. This
gives the action that was scheduled exactly when the node is a compile of a source
of its own target, the precompiled header or the final action.
-/
namespace QStar.Lowering.Lazy

open QStar.Lib.CStrings
open QStar.Lib.Numerals
open QStar.Base
open QStar.BuildGraph

/-- What the action log shows of an action. -/
structure Resolved where
  argv : List Bytes
  env : List Bytes
  outputs : List Bytes
  deriving DecidableEq

def resolved (a : LoweredAction) : Resolved := ⟨a.argv, a.env, a.outputs⟩

/-- `parse_action_id_parts` -/
def parseActionIdParts (id : Bytes) : Option (Bytes × Bytes × Nat) := do
  let (rest, number) ← splitLast 58 id
  if rest = [] ∨ number = [] then none
  else
    let (owner, kind) ← splitLast 58 rest
    let (index, outOfRange) ← strtoulAll number
    if owner = [] ∨ outOfRange = true ∨ kind = [] then none else some (owner, kind, index)

/-- The tool of a generated action; that of a configured file is not resolved. -/
def lazyTool (g : Graph) (r : Genrule) : Except LoweringError Bytes :=
  if r.configHeader then .ok r.tool
  else (resolveCommandTool g none r.toolset r.tool).map Prod.fst

/-- `prepare_lazy_generated_action`; nothing is said of outputs. -/
def lazyGeneratedAction (g : Graph) (r : Genrule) : Except LoweringError Resolved := do
  let tool ← lazyTool g r
  let argv ← (tool :: r.args).mapM (resolveCommandToken g)
  return ⟨argv, [], []⟩

/-- `prepare_lazy_run_action` -/
def lazyRunAction (g : Graph) (t : Target) : Except LoweringError Resolved := do
  let argv ← t.runCommand.mapM (resolveCommandToken g)
  return ⟨argv, [], []⟩

/-- The kind after a number-free start, where it has that start. -/
def kindNumber (start : String) (kind : Bytes) : Option Bytes :=
  if ascii start <+: kind then some (kind.drop (ascii start).length) else none

/-- The first source that leads a batch. -/
def batchLeader (t : Target) (batch : Nat) : Option Nat :=
  (List.range t.sources.length).find? fun i => unitySourceInfo t i = some (batch, true)

/-- A compile of a source of the target. -/
def lazyCompile (h : Host) (g : Graph) (t : Target) (index : Nat) :
    Except LoweringError Resolved := do
  let a ← lowerCompileAction h g (resolveToolchain g t) (ownSource t index)
  return resolved a

/-- A kind that ends in the number of a source. -/
def lazyNumbered (h : Host) (g : Graph) (t : Target) (number : Bytes) :
    Except LoweringError Resolved :=
  match strtoulAll number with
  | none => .error .actionIndexOutOfRange
  | some (index, _) =>
    if t.sources.length ≤ index then .error .actionIndexOutOfRange else lazyCompile h g t index

/-- A kind that ends in the number of a unity batch. -/
def lazyUnity (h : Host) (g : Graph) (t : Target) (id number : Bytes) :
    Except LoweringError Resolved :=
  match strtoulAll number with
  | none => .error (.invalidActionId id)
  | some (batch, _) =>
    match batchLeader t batch with
    | none => .error .actionIndexOutOfRange
    | some index => lazyCompile h g t index

/-- The actions of a target with a toolchain. -/
def lazyTargetAction (h : Host) (g : Graph) (t : Target) (id kind : Bytes) (index : Nat) :
    Except LoweringError Resolved := do
  let tc := resolveToolchain g t
  validateStrategies g t tc
  if kind = ascii "cxx-pch" ∧ index = 0 then
    let a ← lowerCxxPchAction g tc t
    return resolved a
  match if index = 0 then kindNumber "compile-unity-" kind else none with
  | some number => lazyUnity h g t id number
  | none =>
    match if index = 0 then (kindNumber "compile-module-interface-" kind).or
        (kindNumber "compile-module-implementation-" kind) else none with
    | some number => lazyNumbered h g t number
    | none =>
      if kind = ascii "compile" then
        if t.sources.length ≤ index then .error .actionIndexOutOfRange
        else lazyCompile h g t index
      else if index = 0 ∧ kind = finalAction t ∧ kind ≠ ascii "group" ∧ kind ≠ ascii "run" then
        let a ← lowerFinalAction g tc t
        return resolved a
      else .error (.notExecutable id)

/-- `prepare_lazy_action_from_graph` -/
def prepareLazyAction (h : Host) (g : Graph) (id : Bytes) : Except LoweringError Resolved :=
  match parseActionIdParts id with
  | none => .error (.invalidActionId id)
  | some (owner, kind, index) =>
    match findGenrule g owner with
    | some r =>
      if kind ≠ ascii "generate" ∨ index ≠ 0 then .error (.invalidActionId id)
      else lazyGeneratedAction g r
    | none =>
      match findTarget g owner with
      | none => .error (.unknownOwner owner)
      | some t =>
        if kind = ascii "run" then
          if index ≠ 0 ∨ t.kind ≠ .runTarget then .error (.invalidActionId id)
          else lazyRunAction g t
        else lazyTargetAction h g t id kind index

/-! ## Reading printed ids -/

theorem parse_eq {owner kind number : Bytes} {value : Nat × Bool}
    (howner : owner ≠ []) (hkind : kind ≠ []) (hcolon : 58 ∉ kind) (hne : number ≠ [])
    (hdigits : 58 ∉ number) (hvalue : strtoulAll number = some value) :
    parseActionIdParts (owner ++ 58 :: kind ++ 58 :: number) =
      if value.2 = true then none else some (owner, kind, value.1) := by
  have hrest : owner ++ 58 :: kind ≠ [] := by simp
  unfold parseActionIdParts
  rw [splitLast_append _ hdigits, Option.bind_eq_bind, Option.bind_some]
  simp only [hrest, hne, or_self, if_false]
  rw [splitLast_append owner hcolon, Option.bind_eq_bind, Option.bind_some, hvalue]
  simp [howner, hkind]

theorem parse_singleActionId {label kind : Bytes} (hlabel : label ≠ []) (hkind : kind ≠ [])
    (hcolon : 58 ∉ kind) : parseActionIdParts (singleActionId label kind) = some (label, kind, 0) := by
  have hparse := parse_eq hlabel hkind hcolon (by decide) (by decide)
    (show strtoulAll [48] = some (0, false) by decide)
  simpa [singleActionId, ascii] using hparse

theorem parse_compileActionId {label : Bytes} (hlabel : label ≠ []) (index : Nat) :
    parseActionIdParts (compileActionId label index) =
      if index < 2 ^ 64 then some (label, ascii "compile", index) else none := by
  have hparse := parse_eq hlabel (by decide) (show 58 ∉ ascii "compile" by decide)
    (printUnsigned_ne_nil 10 index) (colon_notMem_printUnsigned index)
    (strtoulAll_printUnsigned index)
  have hid : compileActionId label index =
      label ++ 58 :: ascii "compile" ++ 58 :: printUnsigned 10 index := by
    simp [compileActionId, ascii]
  rw [hid, hparse]
  generalize 2 ^ 64 = limit
  by_cases h : index < limit
  · simp [h]
  · simp [h]

theorem parse_numberedActionId {label : Bytes} {start : String} (hlabel : label ≠ [])
    (hstart : 58 ∉ ascii start) (number : Nat) :
    parseActionIdParts (numberedActionId label (ascii start) number) =
      some (label, ascii start ++ printUnsigned 10 number, 0) := by
  refine parse_singleActionId hlabel ?_ ?_
  · simp [printUnsigned_ne_nil]
  · simp [hstart, colon_notMem_printUnsigned]

/-! ## Actions that are found again -/

section Found

variable {h : Host} {g : Graph} {t : Target} {index : Nat}

@[simp] theorem kindNumber_self (start : String) (number : Bytes) :
    kindNumber start (ascii start ++ number) = some number := by
  simp [kindNumber]

/-- The owner of an id leads to its target. -/
theorem prepareLazyAction_target (ht : t ∈ g.targets) {id kind : Bytes}
    (hparse : parseActionIdParts id = some (t.label, kind, index)) (hrun : kind ≠ ascii "run") :
    prepareLazyAction h g id = lazyTargetAction h g t id kind index := by
  simp [prepareLazyAction, hparse, findGenrule_target ht, findTarget_of_mem ht, hrun]

theorem lazyTargetAction_pch (hvalid : validateStrategies g t (resolveToolchain g t) = .ok ())
    (id : Bytes) : lazyTargetAction h g t id (ascii "cxx-pch") 0 =
      (lowerCxxPchAction g (resolveToolchain g t) t).map resolved := by
  simp only [lazyTargetAction, hvalid]
  rfl

theorem lazyTargetAction_unity (hvalid : validateStrategies g t (resolveToolchain g t) = .ok ())
    (id number : Bytes) : lazyTargetAction h g t id (ascii "compile-unity-" ++ number) 0 =
      lazyUnity h g t id number := by
  have hpch : ascii "compile-unity-" ++ number ≠ ascii "cxx-pch" := by simp [ascii]
  simp only [lazyTargetAction, hvalid, hpch, kindNumber_self]
  rfl

theorem lazyTargetAction_interface
    (hvalid : validateStrategies g t (resolveToolchain g t) = .ok ()) (id number : Bytes) :
    lazyTargetAction h g t id (ascii "compile-module-interface-" ++ number) 0 =
      lazyNumbered h g t number := by
  have hpch : ascii "compile-module-interface-" ++ number ≠ ascii "cxx-pch" := by simp [ascii]
  have hunity : kindNumber "compile-unity-" (ascii "compile-module-interface-" ++ number) =
      none := by simp [kindNumber, ascii]
  simp only [lazyTargetAction, hvalid, hpch, hunity, kindNumber_self]
  rfl

theorem lazyTargetAction_implementation
    (hvalid : validateStrategies g t (resolveToolchain g t) = .ok ()) (id number : Bytes) :
    lazyTargetAction h g t id (ascii "compile-module-implementation-" ++ number) 0 =
      lazyNumbered h g t number := by
  have hpch : ascii "compile-module-implementation-" ++ number ≠ ascii "cxx-pch" := by
    simp [ascii]
  have hunity : kindNumber "compile-unity-" (ascii "compile-module-implementation-" ++ number) =
      none := by simp [kindNumber, ascii]
  have hinterface : kindNumber "compile-module-interface-"
      (ascii "compile-module-implementation-" ++ number) = none := by simp [kindNumber, ascii]
  simp only [lazyTargetAction, hvalid, hpch, hunity, hinterface, kindNumber_self]
  rfl

theorem lazyTargetAction_compile
    (hvalid : validateStrategies g t (resolveToolchain g t) = .ok ()) (id : Bytes) (index : Nat) :
    lazyTargetAction h g t id (ascii "compile") index =
      if t.sources.length ≤ index then .error .actionIndexOutOfRange
      else lazyCompile h g t index := by
  have hpch : ascii "compile" ≠ ascii "cxx-pch" := by decide
  have hunity : kindNumber "compile-unity-" (ascii "compile") = none := by decide
  have hinterface : kindNumber "compile-module-interface-" (ascii "compile") = none := by decide
  have himplementation : kindNumber "compile-module-implementation-" (ascii "compile") = none := by
    decide
  have hmodule : (kindNumber "compile-module-interface-" (ascii "compile")).or
      (kindNumber "compile-module-implementation-" (ascii "compile")) = none := by
    rw [hinterface, himplementation]
    rfl
  simp only [lazyTargetAction, hvalid, hpch, false_and, if_false, hunity, hmodule, ite_self]
  rfl

theorem lazyTargetAction_final (hvalid : validateStrategies g t (resolveToolchain g t) = .ok ())
    (hkind : hasNoToolchain t = false) (hobjectlib : t.kind ≠ .objectlib) (id : Bytes) :
    lazyTargetAction h g t id (finalAction t) 0 =
      (lowerFinalAction g (resolveToolchain g t) t).map resolved := by
  have hfinal := finalAction_mem hkind hobjectlib
  have hplain : ∀ kind ∈ processFinals, kind ≠ ascii "cxx-pch" ∧ kindNumber "compile-unity-" kind = none ∧
      (kindNumber "compile-module-interface-" kind).or
        (kindNumber "compile-module-implementation-" kind) = none ∧
      kind ≠ ascii "compile" ∧ kind ≠ ascii "group" ∧ kind ≠ ascii "run" := by decide
  obtain ⟨hpch, hunity, hmodule, hcompile, hgroup, hrun⟩ := hplain _ hfinal
  simp only [lazyTargetAction, hvalid, hpch, false_and, if_false, hunity, hmodule, ite_self,
    hcompile, hgroup, hrun, ne_eq, not_false_eq_true, and_self, if_true]
  rfl

end Found

end QStar.Lowering.Lazy
