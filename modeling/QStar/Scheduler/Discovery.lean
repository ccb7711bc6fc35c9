import QStar.Lowering.Closure

/-!
# What a schedule needs

Discovery starts with a generated action or the closure of a label and adds, pass by
pass, what the targets and generated actions found so far ask for: dependencies,
producers of files they read and what the tokens in their commands and inputs name.
It ends with exactly the targets and generated actions that are reached that way.
-/
namespace QStar.Scheduler.Discovery

open QStar.Lib.CStrings
open QStar.Lib.Fixpoints
open QStar.Lib.Results
open QStar.Lib.Search
open QStar.Base
open QStar.BuildGraph
open QStar.Lowering

/-- What discovery is asked to add. -/
inductive Producer where
  | target (t : Target)
  | genrule (r : Genrule)
  | stage (s : Stage)

/-! ## What is asked for -/

/-- The generated action that has a path among its outputs. -/
def outputOwner (g : Graph) (path : Bytes) : List Producer :=
  (findOutputOwner g path).toList.map .genrule

/-- The producer of a label; an unknown label has none. -/
def labelProducer (g : Graph) (label : Bytes) : List Producer :=
  match findTarget g label with
  | some t => [.target t]
  | none => (findGenrule g label).toList.map .genrule

/-- `scheduler_discover_target_file_item` -/
def targetFileItem (g : Graph) (item : Bytes) : Except LoweringError (List Producer) :=
  match targetFileToken item with
  | .malformed => .error .malformedTargetFile
  | .targetFile label _ => .ok (labelProducer g label)
  | .plain => .ok (outputOwner g item)

/-- An item of `scheduler_discover_target_link_inputs` or
`scheduler_discover_run_command_inputs`, where only tokens count. -/
def tokenItem (g : Graph) (item : Bytes) : Except LoweringError (List Producer) :=
  match targetFileToken item with
  | .malformed => .error .malformedTargetFile
  | .targetFile label _ => .ok (labelProducer g label)
  | .plain => .ok []

/-- An item of `scheduler_discover_genrule_deps`; an action does not wait for itself. -/
def genruleItem (g : Graph) (r : Genrule) (item : Bytes) : Except LoweringError (List Producer) :=
  match targetFileToken item with
  | .malformed => .error .malformedTargetFile
  | .targetFile label _ => .ok (labelProducer g label)
  | .plain =>
    .ok (((findOutputOwner g item).toList.filter fun owner => owner.label ≠ r.label).map .genrule)

/-- `generated_output_in_list` -/
def outputInList (r : Genrule) (items : List Bytes) : Bool :=
  r.outputs.any fun output => decide (output ∈ items)

/-- `target_consumes_genrule` -/
def targetConsumesGenrule (t : Target) (r : Genrule) : Bool :=
  (t.cxxPrecompiledHeader ≠ [] && decide (t.cxxPrecompiledHeader ∈ r.outputs)) ||
    outputInList r t.sources || outputInList r t.publicHeaders || outputInList r t.privateHeaders ||
    outputInList r t.linkInputs

/-- `scheduler_discover_target_genrules` -/
def consumedGenrules (g : Graph) (t : Target) : List Producer :=
  (g.genrules.filter (targetConsumesGenrule t)).map .genrule

/-- `scheduler_discover_target_dep_genrules` -/
def depGenrules (g : Graph) (t : Target) : List Producer :=
  ((t.deps ++ t.privateDeps).filter fun label => label.head? ≠ some 64).flatMap fun label =>
    (findGenrule g label).toList.map .genrule

/-- `scheduler_discover_dependency_usage` for one phase -/
def usageItems (g : Graph) (phase : UsagePhase) (t : Target) :
    Except LoweringError (List Producer) := do
  let usage ← collectUsage g phase t
  let items ← usage.inputs.mapM (targetFileItem g)
  return items.flatten

/-- An item of `scheduler_discover_run_inputs` -/
def runInputItem (g : Graph) (item : Bytes) : Except LoweringError (List Producer) :=
  match stageDirToken item with
  | .malformed => .error .malformedStageDir
  | .payload label =>
    match findStage g label with
    | none => .error (.unknownStage label)
    | some stage => do
      let items ← stage.srcs.mapM (targetFileItem g)
      return .stage stage :: items.flatten
  | .plain => targetFileItem g item

/-- `scheduler_discover_run_inputs`, `scheduler_discover_run_command_inputs` -/
def runItems (g : Graph) (t : Target) : Except LoweringError (List Producer) :=
  if t.kind ≠ .runTarget then .ok []
  else do
    let inputs ← t.runInputs.mapM (runInputItem g)
    let command ← t.runCommand.mapM (tokenItem g)
    return inputs.flatten ++ command.flatten

/-- What the discovery functions of a target ask for, one after the other. -/
def targetAsked (g : Graph) (t : Target) : Except LoweringError (List Producer) := do
  let linkInputs ← t.linkInputs.mapM (tokenItem g)
  let compileUsage ← usageItems g .compile t
  let linkUsage ← usageItems g .link t
  let run ← runItems g t
  return consumedGenrules g t ++ depGenrules g t ++ linkInputs.flatten ++ compileUsage ++
    linkUsage ++ run

/-- `scheduler_discover_genrule_deps` -/
def genruleAsked (g : Graph) (r : Genrule) : Except LoweringError (List Producer) := do
  let items ← (r.tool :: r.inputs ++ r.args).mapM (genruleItem g r)
  return items.flatten

/-- What a producer asks for besides its dependencies. -/
def Producer.asked (g : Graph) : Producer → Except LoweringError (List Producer)
  | .target t => targetAsked g t
  | .genrule r => genruleAsked g r
  | .stage _ => .ok []

/-- The generated action that a label selects. -/
def rootGenrule (g : Graph) (label : Option Bytes) : Option Genrule :=
  match label with
  | none => none
  | some label => if label = [] then none else findGenrule g label

/-! ## The search -/

/-- `targets`, `genrule_needed` and `stage_needed` of `struct qstar_scheduler` -/
structure Found where
  targets : List Target
  genrules : List Genrule
  stages : List Stage

/-- `scheduler_add_target` -/
def Found.addTarget (f : Found) (t : Target) : Found :=
  if f.targets.any fun o => o.label = t.label then f else { f with targets := f.targets ++ [t] }

/-- `genrule_needed` -/
def Found.needs (f : Found) (r : Genrule) : Bool := f.genrules.any fun o => o.label = r.label

/-- `scheduler_mark_genrule` -/
def Found.markGenrule (f : Found) (r : Genrule) : Found :=
  if f.needs r then f else { f with genrules := f.genrules ++ [r] }

/-- `scheduler_mark_stage` -/
def Found.markStage (f : Found) (s : Stage) : Found :=
  if f.stages.any fun o => o.label = s.label then f else { f with stages := f.stages ++ [s] }

/-- `scheduler_add_target_closure` -/
def Found.addTargetClosure (g : Graph) (f : Found) (label : Option Bytes) :
    Except LoweringError Found := do
  let closure ← buildClosure g label
  return closure.foldl Found.addTarget f

/-- A target is added with its closure. -/
def Found.add (g : Graph) (f : Found) : Producer → Except LoweringError Found
  | .target t => f.addTargetClosure g (some t.label)
  | .genrule r => .ok (f.markGenrule r)
  | .stage s => .ok (f.markStage s)

/-- The part of a pass that goes over the targets, those that it adds included. -/
def discoverTargets (g : Graph) : Nat → Nat → Found → Except LoweringError Found
  | 0, _, _ => .error .searchTooDeep
  | fuel + 1, i, f =>
    match f.targets[i]? with
    | none => .ok f
    | some t => do
      let asked ← targetAsked g t
      let f ← asked.foldlM (Found.add g) f
      discoverTargets g fuel (i + 1) f

/-- One generated action of a pass. -/
def discoverGenrule (g : Graph) (f : Found) (r : Genrule) : Except LoweringError Found :=
  if f.needs r then do
    let asked ← genruleAsked g r
    asked.foldlM (Found.add g) f
  else .ok f

/-- One pass of the loop of `scheduler_discover` -/
def discoverPass (g : Graph) (f : Found) : Except LoweringError Found := do
  let f ← discoverTargets g (g.targets.length + 1) 0 f
  g.genrules.foldlM (discoverGenrule g) f

/-- What `changed` tells apart. -/
def Found.size (f : Found) : Nat := f.targets.length + f.genrules.length + f.stages.length

/-- What discovery starts with. -/
def discoverRoots (g : Graph) (label : Option Bytes) : Except LoweringError Found :=
  match rootGenrule g label with
  | some r => .ok (Found.markGenrule ⟨[], [], []⟩ r)
  | none => Found.addTargetClosure g ⟨[], [], []⟩ label

/-- `scheduler_discover` -/
def schedulerDiscover (g : Graph) (label : Option Bytes) : Except LoweringError Found := do
  let f ← discoverRoots g label
  settle .searchTooDeep Found.size (discoverPass g)
    (g.targets.length + g.genrules.length + g.stages.length + 1) f

/-! ## What is needed -/

/-- A dependency of a target, or what a producer asks for otherwise. -/
inductive Asks (g : Graph) : Producer → Producer → Prop where
  | dependency {t o : Target} (hdep : DependsOn g t o) : Asks g (.target t) (.target o)
  | asked {p q : Producer} {asked : List Producer} (hasked : p.asked g = .ok asked)
      (hq : q ∈ asked) : Asks g p q

/-- Where discovery starts. -/
inductive Root (g : Graph) (label : Option Bytes) : Producer → Prop where
  | genrule {r : Genrule} (hr : rootGenrule g label = some r) : Root g label (.genrule r)
  | target {t : Target} (hnone : rootGenrule g label = none) (ht : ClosureRoot g label t) :
    Root g label (.target t)

/-- What a build of a label needs. -/
def Needed (g : Graph) (label : Option Bytes) : Producer → Prop := Reached (Root g label) (Asks g)

/-- Whether a producer is declared in the graph. -/
def Producer.Declared (g : Graph) : Producer → Prop
  | .target t => t ∈ g.targets
  | .genrule r => r ∈ g.genrules
  | .stage _ => True

/-- Stages are not followed any further. -/
def Found.Has (f : Found) : Producer → Prop
  | .target t => t ∈ f.targets
  | .genrule r => r ∈ f.genrules
  | .stage _ => True

/-- What was found stays and keeps its place. -/
structure Grows (f f' : Found) : Prop where
  targets : f.targets <+: f'.targets
  genrules : f.genrules <+: f'.genrules
  stages : f.stages <+: f'.stages

/-- Only what is declared and needed was found, and targets with what they depend on. -/
structure Sound (g : Graph) (label : Option Bytes) (f : Found) : Prop where
  targets : ∀ t ∈ f.targets, t ∈ g.targets ∧ Needed g label (.target t)
  genrules : ∀ r ∈ f.genrules, r ∈ g.genrules ∧ Needed g label (.genrule r)
  depends : ∀ t ∈ f.targets, ∀ o, DependsOn g t o → o ∈ f.targets

section Asked

variable {g : Graph} {t : Target} {r : Genrule} {p : Producer} {items : List Producer}

theorem labelProducer_declared {label : Bytes} (hp : p ∈ labelProducer g label) : p.Declared g := by
  unfold labelProducer at hp
  cases hfind : findTarget g label with
  | some t =>
    rw [hfind] at hp
    obtain rfl := List.mem_singleton.mp hp
    exact findTarget_mem hfind
  | none =>
    simp only [hfind, List.mem_map, Option.mem_toList] at hp
    obtain ⟨r, hr, rfl⟩ := hp
    exact findGenrule_mem hr

theorem outputOwner_declared {path : Bytes} (hp : p ∈ outputOwner g path) : p.Declared g := by
  simp only [outputOwner, List.mem_map, Option.mem_toList] at hp
  obtain ⟨r, hr, rfl⟩ := hp
  exact List.mem_of_find?_eq_some hr

theorem targetFileItem_declared {item : Bytes} (h : targetFileItem g item = .ok items)
    (hp : p ∈ items) : p.Declared g := by
  unfold targetFileItem at h
  split at h
  · cases h
  · cases h
    exact labelProducer_declared hp
  · cases h
    exact outputOwner_declared hp

theorem tokenItem_declared {item : Bytes} (h : tokenItem g item = .ok items) (hp : p ∈ items) :
    p.Declared g := by
  unfold tokenItem at h
  split at h
  · cases h
  · cases h
    exact labelProducer_declared hp
  · cases h
    cases hp

theorem genruleItem_declared {item : Bytes} (h : genruleItem g r item = .ok items) (hp : p ∈ items) :
    p.Declared g := by
  unfold genruleItem at h
  split at h
  · cases h
  · cases h
    exact labelProducer_declared hp
  · cases h
    simp only [List.mem_map, List.mem_filter, Option.mem_toList] at hp
    obtain ⟨owner, ⟨howner, -⟩, rfl⟩ := hp
    exact List.mem_of_find?_eq_some howner

/-- What every item declares, all of them declare. -/
theorem mapM_declared {f : Bytes → Except LoweringError (List Producer)}
    (hf : ∀ item result, f item = .ok result → ∀ p ∈ result, p.Declared g) {words : List Bytes}
    {results : List (List Producer)} (h : words.mapM f = .ok results) (hp : p ∈ results.flatten) :
    p.Declared g := by
  obtain ⟨result, hresult, hp⟩ := List.mem_flatten.mp hp
  obtain ⟨item, -, hitem⟩ := mapM_eq_ok_mem h result hresult
  exact hf item result hitem p hp

theorem usageItems_declared {phase : UsagePhase} (h : usageItems g phase t = .ok items)
    (hp : p ∈ items) : p.Declared g := by
  obtain ⟨usage, -, h⟩ := bind_eq_ok.mp h
  obtain ⟨results, hresults, h⟩ := bind_eq_ok.mp h
  cases h
  exact mapM_declared (fun _ _ h' _ hp' => targetFileItem_declared h' hp') hresults hp

theorem runInputItem_declared {item : Bytes} (h : runInputItem g item = .ok items) (hp : p ∈ items) :
    p.Declared g := by
  unfold runInputItem at h
  split at h
  · cases h
  · split at h
    · cases h
    · obtain ⟨results, hresults, h⟩ := bind_eq_ok.mp h
      cases h
      rcases List.mem_cons.mp hp with rfl | hp
      · trivial
      · exact mapM_declared (fun _ _ h' _ hp' => targetFileItem_declared h' hp') hresults hp
  · exact targetFileItem_declared h hp

theorem runItems_declared (h : runItems g t = .ok items) (hp : p ∈ items) : p.Declared g := by
  unfold runItems at h
  split at h
  · cases h
    cases hp
  · obtain ⟨inputs, hinputs, h⟩ := bind_eq_ok.mp h
    obtain ⟨command, hcommand, h⟩ := bind_eq_ok.mp h
    cases h
    rcases List.mem_append.mp hp with hp | hp
    · exact mapM_declared (fun _ _ h' _ hp' => runInputItem_declared h' hp') hinputs hp
    · exact mapM_declared (fun _ _ h' _ hp' => tokenItem_declared h' hp') hcommand hp

theorem consumedGenrules_declared (hp : p ∈ consumedGenrules g t) : p.Declared g := by
  simp only [consumedGenrules, List.mem_map, List.mem_filter] at hp
  obtain ⟨r, ⟨hr, -⟩, rfl⟩ := hp
  exact hr

theorem depGenrules_declared (hp : p ∈ depGenrules g t) : p.Declared g := by
  simp only [depGenrules, List.mem_flatMap, List.mem_map, Option.mem_toList] at hp
  obtain ⟨label, -, r, hr, rfl⟩ := hp
  exact findGenrule_mem hr

/-- Only declared producers are asked for. -/
theorem asked_declared {q : Producer} (h : q.asked g = .ok items) (hp : p ∈ items) :
    p.Declared g := by
  cases q with
  | target t =>
    obtain ⟨linkInputs, hlink, h⟩ := bind_eq_ok.mp h
    obtain ⟨compileUsage, hcompile, h⟩ := bind_eq_ok.mp h
    obtain ⟨linkUsage, husage, h⟩ := bind_eq_ok.mp h
    obtain ⟨run, hrun, h⟩ := bind_eq_ok.mp h
    cases h
    simp only [List.mem_append] at hp
    rcases hp with ((((hp | hp) | hp) | hp) | hp) | hp
    · exact consumedGenrules_declared hp
    · exact depGenrules_declared hp
    · exact mapM_declared (fun _ _ h' _ hp' => tokenItem_declared h' hp') hlink hp
    · exact usageItems_declared hcompile hp
    · exact usageItems_declared husage hp
    · exact runItems_declared hrun hp
  | genrule r =>
    obtain ⟨results, hresults, h⟩ := bind_eq_ok.mp h
    cases h
    exact mapM_declared (fun _ _ h' _ hp' => genruleItem_declared h' hp') hresults hp
  | stage s =>
    cases h
    cases hp

end Asked

/-! ## The search finds what is needed -/

section Search

variable {g : Graph} {label : Option Bytes} {f f' f'' : Found} {p : Producer}

theorem Grows.refl (f : Found) : Grows f f := ⟨List.prefix_rfl, List.prefix_rfl, List.prefix_rfl⟩

theorem Grows.trans (h : Grows f f') (h' : Grows f' f'') : Grows f f'' :=
  ⟨h.targets.trans h'.targets, h.genrules.trans h'.genrules, h.stages.trans h'.stages⟩

theorem Found.Has.mono (h : f.Has p) (hgrows : Grows f f') : f'.Has p := by
  cases p with
  | target t => exact hgrows.targets.subset h
  | genrule r => exact hgrows.genrules.subset h
  | stage s => trivial

/-- What grows without getting larger is the same. -/
theorem Grows.eq_of_size (h : Grows f f') (hsize : f'.size = f.size) : f' = f := by
  have htargets := h.targets.length_le
  have hgenrules := h.genrules.length_le
  have hstages := h.stages.length_le
  unfold Found.size at hsize
  have ht := h.targets.eq_of_length (by omega)
  have hr := h.genrules.eq_of_length (by omega)
  have hs := h.stages.eq_of_length (by omega)
  cases f
  cases f'
  simp only at ht hr hs
  rw [ht, hr, hs]

theorem addTarget_grows (f : Found) (t : Target) : Grows f (f.addTarget t) := by
  unfold Found.addTarget
  split
  · exact .refl f
  · exact ⟨List.prefix_append _ _, List.prefix_rfl, List.prefix_rfl⟩

theorem markGenrule_grows (f : Found) (r : Genrule) : Grows f (f.markGenrule r) := by
  unfold Found.markGenrule
  split
  · exact .refl f
  · exact ⟨List.prefix_rfl, List.prefix_append _ _, List.prefix_rfl⟩

theorem markStage_grows (f : Found) (s : Stage) : Grows f (f.markStage s) := by
  unfold Found.markStage
  split
  · exact .refl f
  · exact ⟨List.prefix_rfl, List.prefix_rfl, List.prefix_append _ _⟩

theorem mem_of_needs (hsound : Sound g label f) {r : Genrule} (hr : r ∈ g.genrules)
    (hneeds : f.needs r = true) : r ∈ f.genrules := by
  simp only [Found.needs, List.any_eq_true, decide_eq_true_eq] at hneeds
  obtain ⟨o, ho, hlabel⟩ := hneeds
  have hfind := findGenrule_of_mem (hsound.genrules o ho).1
  rw [hlabel, findGenrule_of_mem hr, Option.some.injEq] at hfind
  exact hfind ▸ ho

/-- Labels tell the targets of a graph apart. -/
theorem mem_addTarget (hf : ∀ o ∈ f.targets, o ∈ g.targets) {t o : Target} (ht : t ∈ g.targets) :
    o ∈ (f.addTarget t).targets ↔ o ∈ f.targets ∨ o = t := by
  unfold Found.addTarget
  split
  · rename_i hfound
    simp only [List.any_eq_true, decide_eq_true_eq] at hfound
    obtain ⟨o', ho', hlabel⟩ := hfound
    obtain rfl := eq_of_label (hf o' ho') ht hlabel
    constructor
    · exact .inl
    · rintro (ho | rfl)
      · exact ho
      · exact ho'
  · simp

theorem addTarget_genrules (f : Found) (t : Target) : (f.addTarget t).genrules = f.genrules := by
  unfold Found.addTarget
  split <;> rfl

theorem addTargets_spec (hf : ∀ o ∈ f.targets, o ∈ g.targets) {targets : List Target}
    (htargets : ∀ t ∈ targets, t ∈ g.targets) :
    Grows f (targets.foldl Found.addTarget f) ∧
      (targets.foldl Found.addTarget f).genrules = f.genrules ∧
      ∀ o, o ∈ (targets.foldl Found.addTarget f).targets ↔ o ∈ f.targets ∨ o ∈ targets := by
  induction targets generalizing f with
  | nil => exact ⟨.refl f, rfl, by simp⟩
  | cons t rest ih =>
    have ht := htargets t List.mem_cons_self
    have hmem : ∀ o, o ∈ (f.addTarget t).targets ↔ o ∈ f.targets ∨ o = t :=
      fun o => mem_addTarget hf ht
    have hf' : ∀ o ∈ (f.addTarget t).targets, o ∈ g.targets := by
      intro o ho
      rcases (hmem o).mp ho with ho | rfl
      · exact hf o ho
      · exact ht
    obtain ⟨hgrows, hgenrules, hall⟩ :=
      ih hf' fun o ho => htargets o (List.mem_cons_of_mem _ ho)
    refine ⟨(addTarget_grows f t).trans hgrows, hgenrules.trans (addTarget_genrules f t), ?_⟩
    intro o
    rw [List.foldl_cons, hall, hmem, List.mem_cons, or_assoc]

theorem markGenrule_spec (hsound : Sound g label f) {r : Genrule} (hr : r ∈ g.genrules)
    (hneeded : Needed g label (.genrule r)) :
    Sound g label (f.markGenrule r) ∧ r ∈ (f.markGenrule r).genrules := by
  unfold Found.markGenrule
  split
  · rename_i hfound
    exact ⟨hsound, mem_of_needs hsound hr hfound⟩
  · refine ⟨⟨hsound.targets, ?_, hsound.depends⟩,
      List.mem_append_right _ (List.mem_singleton_self r)⟩
    intro o ho
    rcases List.mem_append.mp ho with ho | ho
    · exact hsound.genrules o ho
    · obtain rfl := List.mem_singleton.mp ho
      exact ⟨hr, hneeded⟩

theorem markStage_sound (hsound : Sound g label f) (s : Stage) :
    Sound g label (f.markStage s) := by
  unfold Found.markStage
  split
  · exact hsound
  · exact ⟨hsound.targets, hsound.genrules, hsound.depends⟩

/-- A closure whose roots are needed is needed. -/
theorem addTargetClosure_spec (hsound : Sound g label f) {name : Option Bytes}
    (hroots : ∀ t, ClosureRoot g name t → Needed g label (.target t))
    (h : f.addTargetClosure g name = .ok f') :
    Grows f f' ∧ Sound g label f' ∧ ∀ t, ClosureRoot g name t → t ∈ f'.targets := by
  obtain ⟨closure, hclosure, h⟩ := bind_eq_ok.mp h
  cases h
  have hneeded : ∀ t ∈ closure, t ∈ g.targets ∧ Needed g label (.target t) := by
    intro t ht
    refine ⟨buildClosure_mem hclosure t ht, ?_⟩
    exact ((mem_buildClosure hclosure).mp ht).induction hroots
      fun a b ha hdep => ha.step (.dependency hdep)
  obtain ⟨hgrows, hgenrules, hall⟩ := addTargets_spec (fun o ho => (hsound.targets o ho).1)
    fun t ht => (hneeded t ht).1
  refine ⟨hgrows, ⟨?_, hgenrules ▸ hsound.genrules, ?_⟩, ?_⟩
  · intro t ht
    rcases (hall t).mp ht with ht | ht
    · exact hsound.targets t ht
    · exact hneeded t ht
  · intro t ht o hdep
    rcases (hall t).mp ht with ht | ht
    · exact (hall o).mpr (.inl (hsound.depends t ht o hdep))
    · obtain ⟨name, hname, hfind⟩ := hdep
      exact (hall o).mpr (.inr (buildClosure_closed hclosure ht hname hfind))
  · intro t ht
    exact (hall t).mpr (.inr ((mem_buildClosure hclosure).mpr (.of_root ht)))

/-- The target of a label is where its closure starts. -/
theorem closureRoot_label {t o : Target} (ht : t ∈ g.targets) :
    ClosureRoot g (some t.label) o ↔ o = t := by
  have hroots : closureRoots g (some t.label) = .ok [t] := by
    simp only [closureRoots, if_neg t.label_ne, findTarget_of_mem ht]
  constructor
  · rintro ⟨roots, hok, ho⟩
    cases hroots.symm.trans hok
    exact List.mem_singleton.mp ho
  · rintro rfl
    exact ⟨[o], hroots, List.mem_singleton_self o⟩

/-- What one addition leaves behind. -/
theorem add_spec (hsound : Sound g label f) (hdeclared : p.Declared g) (hneeded : Needed g label p)
    (h : f.add g p = .ok f') : Grows f f' ∧ Sound g label f' ∧ f'.Has p := by
  cases p with
  | target t =>
    obtain ⟨hgrows, hfinal, hall⟩ := addTargetClosure_spec hsound
      (fun o ho => (closureRoot_label hdeclared).mp ho ▸ hneeded) h
    exact ⟨hgrows, hfinal, hall t ((closureRoot_label hdeclared).mpr rfl)⟩
  | genrule r =>
    cases h
    exact ⟨markGenrule_grows f r, markGenrule_spec hsound hdeclared hneeded⟩
  | stage s =>
    cases h
    exact ⟨markStage_grows f s, markStage_sound hsound s, trivial⟩

theorem adds_spec (hsound : Sound g label f) {asked : List Producer}
    (hasked : ∀ p ∈ asked, p.Declared g ∧ Needed g label p)
    (h : asked.foldlM (Found.add g) f = .ok f') :
    Grows f f' ∧ Sound g label f' ∧ ∀ p ∈ asked, f'.Has p := by
  induction asked generalizing f with
  | nil =>
    cases h
    exact ⟨.refl _, hsound, List.forall_mem_nil _⟩
  | cons q rest ih =>
    rw [List.foldlM_cons] at h
    obtain ⟨mid, hmid, h⟩ := bind_eq_ok.mp h
    obtain ⟨hdeclared, hneeded⟩ := hasked q List.mem_cons_self
    obtain ⟨hgrows, hsound', hhas⟩ := add_spec hsound hdeclared hneeded hmid
    obtain ⟨hgrows', hfinal, hall⟩ :=
      ih hsound' (fun p hp => hasked p (List.mem_cons_of_mem _ hp)) h
    refine ⟨hgrows.trans hgrows', hfinal, ?_⟩
    intro p hp
    rcases List.mem_cons.mp hp with rfl | hp
    · exact hhas.mono hgrows'
    · exact hall p hp

/-- Everything a producer asks for was found. -/
def Found.Answers (g : Graph) (f : Found) (p : Producer) : Prop :=
  ∃ asked, p.asked g = .ok asked ∧ ∀ q ∈ asked, f.Has q

theorem Found.Answers.mono (h : f.Answers g p) (hgrows : Grows f f') : f'.Answers g p := by
  obtain ⟨asked, hasked, hall⟩ := h
  exact ⟨asked, hasked, fun q hq => (hall q hq).mono hgrows⟩

/-- What is asked for on behalf of something needed. -/
theorem discover_spec (hsound : Sound g label f) (hneeded : Needed g label p)
    {asked : List Producer} (hasked : p.asked g = .ok asked)
    (h : asked.foldlM (Found.add g) f = .ok f') :
    Grows f f' ∧ Sound g label f' ∧ f'.Answers g p := by
  obtain ⟨hgrows, hfinal, hall⟩ := adds_spec hsound
    (fun q hq => ⟨asked_declared hasked hq, hneeded.step (.asked hasked hq)⟩) h
  exact ⟨hgrows, hfinal, asked, hasked, hall⟩

/-- The loop over the targets answers all that stand from its index on. -/
theorem discoverTargets_spec {fuel i : Nat} (hsound : Sound g label f)
    (h : discoverTargets g fuel i f = .ok f') :
    Grows f f' ∧ Sound g label f' ∧
      ∀ j t, i ≤ j → f'.targets[j]? = some t → f'.Answers g (.target t) := by
  induction fuel generalizing i f with
  | zero => cases h
  | succ fuel ih =>
    unfold discoverTargets at h
    split at h
    · rename_i hend
      cases h
      refine ⟨.refl _, hsound, ?_⟩
      intro j t hj ht
      rw [List.getElem?_eq_none_iff] at hend
      rw [List.getElem?_eq_none (by omega)] at ht
      cases ht
    · rename_i t ht
      obtain ⟨asked, hasked, h⟩ := bind_eq_ok.mp h
      obtain ⟨mid, hmid, h⟩ := bind_eq_ok.mp h
      obtain ⟨-, hneeded⟩ := hsound.targets t (List.mem_of_getElem? ht)
      obtain ⟨hgrows, hsound', hanswers⟩ :=
        discover_spec (p := .target t) hsound hneeded hasked hmid
      obtain ⟨hgrows', hfinal, hrest⟩ := ih hsound' h
      refine ⟨hgrows.trans hgrows', hfinal, ?_⟩
      intro j o hj ho
      rcases Nat.eq_or_lt_of_le hj with rfl | hlt
      · obtain ⟨more, hmore⟩ := (hgrows.trans hgrows').targets
        have hlt := (List.getElem?_eq_some_iff.mp ht).1
        rw [← hmore, List.getElem?_append_left hlt, ht, Option.some.injEq] at ho
        exact ho ▸ hanswers.mono hgrows'
      · exact hrest j o hlt ho

/-- One generated action of a pass is answered if it was needed before. -/
theorem discoverGenrule_spec {r : Genrule} (hr : r ∈ g.genrules) (hsound : Sound g label f)
    (h : discoverGenrule g f r = .ok f') :
    Grows f f' ∧ Sound g label f' ∧ (r ∈ f.genrules → f'.Answers g (.genrule r)) := by
  unfold discoverGenrule at h
  split at h
  · rename_i hneeds
    obtain ⟨asked, hasked, h⟩ := bind_eq_ok.mp h
    obtain ⟨-, hneeded⟩ := hsound.genrules r (mem_of_needs hsound hr hneeds)
    obtain ⟨hgrows, hfinal, hanswers⟩ :=
      discover_spec (p := .genrule r) hsound hneeded hasked h
    exact ⟨hgrows, hfinal, fun _ => hanswers⟩
  · rename_i hneeds
    cases h
    refine ⟨.refl _, hsound, fun hfound => ?_⟩
    exact absurd (List.any_eq_true.mpr ⟨r, hfound, by simp⟩) hneeds

theorem discoverGenrules_spec {rules : List Genrule} (hrules : ∀ r ∈ rules, r ∈ g.genrules)
    (hsound : Sound g label f) (h : rules.foldlM (discoverGenrule g) f = .ok f') :
    Grows f f' ∧ Sound g label f' ∧
      ∀ r ∈ rules, r ∈ f.genrules → f'.Answers g (.genrule r) := by
  induction rules generalizing f with
  | nil =>
    cases h
    exact ⟨.refl _, hsound, List.forall_mem_nil _⟩
  | cons r rest ih =>
    rw [List.foldlM_cons] at h
    obtain ⟨mid, hmid, h⟩ := bind_eq_ok.mp h
    obtain ⟨hgrows, hsound', hanswers⟩ :=
      discoverGenrule_spec (hrules r List.mem_cons_self) hsound hmid
    obtain ⟨hgrows', hfinal, hrest⟩ :=
      ih (fun o ho => hrules o (List.mem_cons_of_mem _ ho)) hsound' h
    refine ⟨hgrows.trans hgrows', hfinal, ?_⟩
    intro o ho hfound
    rcases List.mem_cons.mp ho with rfl | ho
    · exact (hanswers hfound).mono hgrows'
    · exact hrest o ho (hgrows.genrules.subset hfound)

/-- A pass answers what was found before it. -/
theorem discoverPass_spec (hsound : Sound g label f) (h : discoverPass g f = .ok f') :
    Grows f f' ∧ Sound g label f' ∧ (∀ t ∈ f.targets, f'.Answers g (.target t)) ∧
      ∀ r ∈ f.genrules, f'.Answers g (.genrule r) := by
  obtain ⟨mid, hmid, h⟩ := bind_eq_ok.mp h
  obtain ⟨hgrows, hsound', htargets⟩ := discoverTargets_spec hsound hmid
  obtain ⟨hgrows', hfinal, hgenrules⟩ := discoverGenrules_spec (fun _ hr => hr) hsound' h
  refine ⟨hgrows.trans hgrows', hfinal, ?_, ?_⟩
  · intro t ht
    obtain ⟨j, hj⟩ := List.mem_iff_getElem?.mp (hgrows.targets.subset ht)
    exact (htargets j t (Nat.zero_le j) hj).mono hgrows'
  · intro r hr
    exact hgenrules r (hsound.genrules r hr).1 (hgrows.genrules.subset hr)

theorem discoverRoots_spec (h : discoverRoots g label = .ok f) :
    Sound g label f ∧ ∀ p, Root g label p → f.Has p := by
  have hempty : Sound g label ⟨[], [], []⟩ :=
    ⟨List.forall_mem_nil _, List.forall_mem_nil _, List.forall_mem_nil _⟩
  unfold discoverRoots at h
  cases hroot : rootGenrule g label with
  | some r =>
    simp only [hroot] at h
    cases h
    have hr : r ∈ g.genrules := by
      unfold rootGenrule at hroot
      split at hroot
      · cases hroot
      · split at hroot
        · cases hroot
        · exact findGenrule_mem hroot
    obtain ⟨hsound, hmem⟩ := markGenrule_spec hempty hr (.of_root (.genrule hroot))
    refine ⟨hsound, ?_⟩
    rintro p (⟨hr'⟩ | ⟨hnone, -⟩)
    · cases hroot.symm.trans hr'
      exact hmem
    · cases hroot.symm.trans hnone
  | none =>
    simp only [hroot] at h
    obtain ⟨-, hsound, hall⟩ := addTargetClosure_spec hempty
      (fun t ht => .of_root (.target hroot ht)) h
    refine ⟨hsound, ?_⟩
    rintro p (⟨hr'⟩ | ⟨-, ht⟩)
    · cases hroot.symm.trans hr'
    · exact hall _ ht

/-- Discovery ends with what the label needs. -/
theorem schedulerDiscover_spec (h : schedulerDiscover g label = .ok f) :
    Sound g label f ∧ ∀ p, Needed g label p → f.Has p := by
  obtain ⟨start, hstart, h⟩ := bind_eq_ok.mp h
  obtain ⟨hsound, hroots⟩ := discoverRoots_spec hstart
  -- the last pass adds nothing and answers all that was found before it
  obtain ⟨last, ⟨hsound, hgrows⟩, hpass, hsize⟩ :=
    settle_last (I := fun f => Sound g label f ∧ Grows start f)
      (fun f next hinv hnext => by
        obtain ⟨hgrows, hsound, -⟩ := discoverPass_spec hinv.1 hnext
        exact ⟨hsound, hinv.2.trans hgrows⟩) ⟨hsound, .refl start⟩ h
  obtain ⟨hgrown, -, htargets, hgenrules⟩ := discoverPass_spec hsound hpass
  obtain rfl := hgrown.eq_of_size hsize
  refine ⟨hsound, fun p hp => hp.induction (fun q hq => (hroots q hq).mono hgrows) ?_⟩
  intro a b ha hasks
  cases hasks with
  | dependency hdep => exact hsound.depends _ ha _ hdep
  | asked hasked hb =>
    have hanswers : f.Answers g a := by
      cases a with
      | target t => exact htargets t ha
      | genrule r => exact hgenrules r ha
      | stage s => exact ⟨[], rfl, List.forall_mem_nil _⟩
    obtain ⟨asked, hasked', hall⟩ := hanswers
    cases hasked.symm.trans hasked'
    exact hall b hb

theorem mem_found_targets (h : schedulerDiscover g label = .ok f) {t : Target} :
    t ∈ f.targets ↔ Needed g label (.target t) := by
  obtain ⟨hsound, hall⟩ := schedulerDiscover_spec h
  exact ⟨fun ht => (hsound.targets t ht).2, hall (.target t)⟩

theorem mem_found_genrules (h : schedulerDiscover g label = .ok f) {r : Genrule} :
    r ∈ f.genrules ↔ Needed g label (.genrule r) := by
  obtain ⟨hsound, hall⟩ := schedulerDiscover_spec h
  exact ⟨fun hr => (hsound.genrules r hr).2, hall (.genrule r)⟩

end Search

end QStar.Scheduler.Discovery
