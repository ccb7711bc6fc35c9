import QStar.Lib.Results
import QStar.Lowering.Toolchain

/-!
# What dependencies contribute

Walks over the dependencies of a target that enter every target once: the options
and inputs its dependencies ask their users for, the artifacts it links and the
directories they are loaded from. Include directories are collected without
remembering what was entered, and so may repeat work but not results.
-/
namespace QStar.Lowering

open QStar.Lib.CStrings
open QStar.Lib.Results
open QStar.Base
open QStar.BuildGraph

section Walk

universe u

variable {σ : Type u} (g : Graph) (visit : Target → σ → Except LoweringError σ)
  (next : Target → List Bytes)

/-- A dependency walk from one target: labels entered before are skipped, external labels
and unknown ones are not followed. The fuel bounds the depth, which the entered labels do
too. -/
def visitOnce : Nat → Target → List Bytes × σ → Except LoweringError (List Bytes × σ)
  | 0, _, acc => .ok acc
  | fuel + 1, t, (seen, s) =>
    if t.label ∈ seen then .ok (seen, s)
    else do
      let s ← visit t s
      (next t).foldlM
        (fun acc label =>
          if label.head? = some 64 then .ok acc
          else
            match findTarget g label with
            | none => .ok acc
            | some t' => visitOnce fuel t' acc)
        (seen ++ [t.label], s)

/-- The walk from the direct dependencies of a target. -/
def visitDeps (t : Target) (s : σ) : Except LoweringError σ := do
  let (_, s) ← (t.deps ++ t.privateDeps).foldlM
    (fun acc label =>
      if label.head? = some 64 then .ok acc
      else
        match findTarget g label with
        | none => .ok acc
        | some t' => visitOnce g visit next (g.targets.length + 1) t' acc)
    ([], s)
  return s

end Walk

/-- Compiling and linking ask dependencies for different things. -/
inductive UsagePhase where
  | compile
  | link
  deriving DecidableEq

def usageOptionsOf (phase : UsagePhase) (t : Target) : List Bytes :=
  match phase with
  | .compile => t.compileUsageOptions
  | .link => t.linkUsageOptions

def usageInputsOf (phase : UsagePhase) (t : Target) : List Bytes :=
  match phase with
  | .compile => t.compileUsageInputs
  | .link => t.linkUsageInputs

/-- Usage options and usage inputs collected so far. -/
structure Usage where
  options : List Bytes
  inputs : List Bytes

/-- `collect_target_usage` -/
def collectUsage (g : Graph) (phase : UsagePhase) (t : Target) : Except LoweringError Usage :=
  visitDeps g
    (fun dep usage => .ok
      ⟨appendUnique usage.options (usageOptionsOf phase dep),
        appendUnique usage.inputs (usageInputsOf phase dep)⟩)
    Target.deps t ⟨[], []⟩

/-- The words `prepared_action_push_dependency_usage` pushes. -/
def dependencyUsage (g : Graph) (phase : UsagePhase) (t : Target) :
    Except LoweringError (List Bytes) := do
  let usage ← collectUsage g phase t
  return usage.options

/-- `push_link_action_input`, `push_generated_action_input` -/
def pushActionInput (g : Graph) (inputs : List Bytes) (item : Bytes) :
    Except LoweringError (List Bytes) := do
  let resolved ← resolveTargetFileToken g item
  return pushUnique inputs resolved

/-- `push_dependency_usage_inputs` -/
def pushDependencyUsageInputs (g : Graph) (phase : UsagePhase) (t : Target)
    (inputs : List Bytes) : Except LoweringError (List Bytes) := do
  let usage ← collectUsage g phase t
  usage.inputs.foldlM (pushActionInput g) inputs

/-- `push_target_header_inputs` -/
def headerInputs (t : Target) : List Bytes := t.publicHeaders ++ t.privateHeaders

/-- `collect_public_includes_rec`; the fuel bounds the depth of the dependencies. -/
def collectPublicIncludes (g : Graph) : Nat → Bool → Target → List Bytes → List Bytes
  | 0, _, _, out => out
  | fuel + 1, includeSelf, t, out =>
    let out := if includeSelf then
        appendUnique out (t.publicIncludeDirs ++ t.interfaceIncludeDirs)
      else out
    t.deps.foldl
      (fun out label =>
        match findTarget g label with
        | none => out
        | some dep => collectPublicIncludes g fuel true dep out)
      out

/-- `collect_compile_include_dirs` -/
def compileIncludeDirs (g : Graph) (t : Target) : List Bytes :=
  collectPublicIncludes g (g.targets.length + 1) false t (appendUnique [] t.includeDirs)

/-- The kinds at which the search for artifacts to link ends. -/
def hasNothingToLink (t : Target) : Bool :=
  t.kind = .group || t.kind = .runTarget || t.kind = .objectlib || t.kind = .tool

/-- What a dependency adds to the artifacts to link. -/
def linkArtifact (g : Graph) (dep : Target) (artifacts : List Bytes) :
    Except LoweringError (List Bytes) :=
  if hasNothingToLink dep || dep.kind = .interface then .ok artifacts
  else do
    let path ← targetLinkArtifactPath g dep
    return artifacts ++ [path]

/-- The dependencies that are searched for further artifacts. -/
def linkedDeps (dep : Target) : List Bytes :=
  if hasNothingToLink dep then []
  else if dep.kind = .interface then dep.deps
  else dep.deps ++ dep.privateDeps

/-- `append_dep_artifacts` -/
def depArtifacts (g : Graph) (t : Target) : Except LoweringError (List Bytes) :=
  visitDeps g (linkArtifact g) linkedDeps t []

/-- What a dependency adds to the runtime search paths. -/
def runtimePath (g : Graph) (consumerDir : Bytes) (dep : Target) (rpaths : List Bytes) :
    Except LoweringError (List Bytes) :=
  if dep.kind ≠ .sharedlib then .ok rpaths
  else do
    let artifact ← artifactOutputPath g dep
    let rel := pathRelativeBetweenDirs consumerDir (dirname artifact)
    let base := if isDarwin g then ascii "@loader_path" else ascii "$ORIGIN"
    let path := if rel = ascii "." then base else base ++ ascii "/" ++ rel
    return pushUnique rpaths (ascii "-Wl,-rpath," ++ path)

/-- `append_sharedlib_runtime_rpaths` -/
def sharedlibRuntimeRpaths (g : Graph) (t : Target) (artifact : Bytes) :
    Except LoweringError (List Bytes) :=
  if t.kind = .staticlib ∨ supportsSharedlib g = false ∨ isWindows g = true then .ok []
  else
    visitDeps g (runtimePath g (dirname artifact)) (fun dep => dep.deps ++ dep.privateDeps) t []

/-- `target_compile_needs_pic` -/
def compileNeedsPic (g : Graph) (t : Target) (isAsm : Bool) : Bool :=
  t.kind = .sharedlib && supportsSharedlib g && !isWindows g && !isAsm

theorem subset_foldlM_pushActionInput {g : Graph} {items inputs result : List Bytes}
    (hresult : items.foldlM (pushActionInput g) inputs = .ok result) : inputs ⊆ result := by
  induction items generalizing inputs with
  | nil =>
    cases hresult
    exact List.Subset.refl _
  | cons item rest ih =>
    rw [List.foldlM_cons] at hresult
    obtain ⟨pushed, hpushed, hresult⟩ := bind_eq_ok.mp hresult
    obtain ⟨resolved, -, hpushed⟩ := bind_eq_ok.mp hpushed
    cases hpushed
    exact fun x hx => ih hresult (mem_pushUnique.mpr (.inl hx))

theorem subset_pushDependencyUsageInputs {g : Graph} {t : Target} {phase : UsagePhase}
    {inputs result : List Bytes}
    (hresult : pushDependencyUsageInputs g phase t inputs = .ok result) : inputs ⊆ result := by
  obtain ⟨usage, -, hresult⟩ := bind_eq_ok.mp hresult
  exact subset_foldlM_pushActionInput hresult

end QStar.Lowering
