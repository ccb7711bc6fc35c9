import QStar.Lowering.Ids
import QStar.Stella.Dependencies
import QStar.Stella.Collisions

/-!
# Prepared actions

From a lowered action to the action a build compares with its database: a unity
source is written, the depfile of the previous run adds the inputs it lists, and
the key is computed over what is then on disk.
-/
namespace QStar.Lowering

open QStar.Lib.CStrings
open QStar.Base
open QStar.BuildGraph
open QStar.Stella

/-- `hash_toolsets` -/
def toolsetStrings (g : Graph) : List Bytes :=
  g.toolsets.flatMap fun s =>
    [s.label, s.responseFiles, s.responseStyle, s.allowAbsoluteTools] ++
      (s.roles.flatMap fun r => r.role :: r.argv) ++ s.pathTools ++ s.responseFileTools

/-- The strings of `compute_tool_policy_key`. -/
def toolPolicyStrings (g : Graph) (tc : Option Toolchain) : List Bytes :=
  g.platform :: toolsetStrings g ++
    match tc with
    | none => []
    | some tc =>
      [tc.platform, tc.linkStyle, tc.toolset, tc.cc, tc.cxx, tc.asm, tc.ar, tc.linker,
        if tc.responseFiles then ascii "rsp=on" else ascii "rsp=off", tc.responseStyle]

/-- The strings of `compute_external_tool_key` after the tool. -/
def externalToolStrings (g : Graph) (tc : Option Toolchain) : List Bytes :=
  toolsetStrings g ++
    match tc with
    | none => []
    | some tc => [tc.cc, tc.cxx, tc.asm, tc.ar, tc.linker, tc.toolset]

/-- What the keys of a build are computed in. -/
def settingOf (h : Host) (g : Graph) : Setting := ⟨g.buildDir, h.getenv⟩

/-- `struct qstar_prepared_action` -/
structure PreparedAction where
  id : Bytes
  kind : Bytes
  owner : Bytes
  toolchain : Option Toolchain
  sourcePath : Bytes
  argv : List Bytes
  env : List Bytes
  outputs : List Bytes
  depfile : Bytes
  wantsDepfile : Bool
  inputs : List Bytes
  depfileInputs : List Bytes

/-- The parts of a prepared action that its key covers, with the output it names. -/
def PreparedAction.keyed (g : Graph) (p : PreparedAction) (output : Bytes) : Action where
  id := p.id
  kind := p.kind
  owner := p.owner
  argv := p.argv
  env := p.env
  staticInputs := p.inputs
  outputs := [output]
  keyOutput := output
  depfile := if p.wantsDepfile then some p.depfile else none
  toolPolicy := toolPolicyStrings g p.toolchain
  externalTools := externalToolStrings g p.toolchain
  expectContains := []
  expectFile := []
  outputs_ne := by simp

/-- `qstar_cxx_materialize_unity_source`; a source that is there already is kept. -/
def materialize (disk : Disk) (now : Nat) : Option (Bytes × Bytes) → Disk
  | none => disk
  | some (path, text) =>
    if (disk path).map FileState.content = some text then disk else writeFile disk path ⟨text, now⟩

/-- The prepared action of a lowered action and the inputs its depfile lists. -/
def LoweredAction.prepared (a : LoweredAction) (depInputs : List Bytes) : PreparedAction where
  id := a.id
  kind := a.kind
  owner := a.owner
  toolchain := a.toolchain
  sourcePath := a.sourcePath
  argv := a.argv
  env := a.env
  outputs := a.outputs
  depfile := a.depfile
  wantsDepfile := a.wantsDepfile
  inputs := appendUnique a.inputs depInputs
  depfileInputs := depInputs

/-- An action as a build gets it, with the output its key names and the files the key is
computed over. -/
structure Ready where
  action : PreparedAction
  keyOutput : Bytes
  disk : Disk

/-- What the key of a prepared action is computed from. -/
def Ready.material (h : Host) (g : Graph) (r : Ready) : Material where
  set := settingOf h g
  action := r.action.keyed g r.keyOutput
  seen := r.disk
  inputs := r.action.inputs
  depInputs := r.action.depfileInputs
  output := r.keyOutput

/-- `compute_action_key` on a prepared action. -/
def Ready.key (h : Host) (g : Graph) (r : Ready) : Bytes := (r.material h g).key

/-- The depfile part and the key of `prepare_compile_action_from_source`,
`prepare_cxx_pch_action` and `prepare_final_action` -/
def prepareLowered (disk : Disk) (now : Nat) (deps : Deps)
    (a : LoweredAction) : Except DepfileError Ready := do
  let disk := materialize disk now a.unitySource
  let (depInputs, _) ← discoverInputs disk deps (if a.wantsDepfile then some a.depfile else none)
  return ⟨a.prepared depInputs, a.keyOutput, disk⟩

theorem prepareLowered_ok {disk : Disk} {now : Nat} {deps : Deps}
    {a : LoweredAction} {r : Ready} (hr : prepareLowered disk now deps a = .ok r) :
    ∃ depInputs entry, discoverInputs (materialize disk now a.unitySource) deps
        (if a.wantsDepfile then some a.depfile else none) = .ok (depInputs, entry) ∧
      r = ⟨a.prepared depInputs, a.keyOutput, materialize disk now a.unitySource⟩ := by
  simp only [prepareLowered, QStar.Lib.Results.bind_eq_ok] at hr
  obtain ⟨⟨depInputs, entry⟩, hdeps, hr⟩ := hr
  cases hr
  exact ⟨depInputs, entry, hdeps, rfl⟩

theorem materialize_ne {disk : Disk} {now : Nat} {unit : Option (Bytes × Bytes)} {path : Bytes}
    (h : ∀ source text, unit = some (source, text) → path ≠ source) :
    materialize disk now unit path = disk path := by
  unfold materialize
  split
  · rfl
  · rename_i source text
    split
    · rfl
    · exact writeFile_ne disk _ (h source text rfl)

end QStar.Lowering
