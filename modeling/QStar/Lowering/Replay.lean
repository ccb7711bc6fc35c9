import QStar.Lowering.Lazy

/-!
# Which ids resolve

An id of a scheduled action leads back to that action when the action compiles a
source of its own target, compiles its precompiled header or is its final action.
The id of a consumer-context compile counts past the sources of the consumer and is
refused; generated actions and run targets come back without their outputs.
-/
namespace QStar.Lowering.Replay

open QStar.Lib.CStrings
open QStar.Lib.Numerals
open QStar.Lib.Results
open QStar.Base
open QStar.BuildGraph
open QStar.Lowering.Lazy

/-- The action compiles, precompiles or links for its own target. -/
def OfOwnTarget : ActionNode → Prop
  | .cxxPch _ => True
  | .compile _ _ => True
  | .consumerCompile _ _ _ _ => False
  | .final _ => True
  | .generate _ => False
  | .run _ => False

section Resolving

variable {h : Host} {g : Graph} {t : Target}

/-! ## Own actions -/

/-- What a target with scheduled actions has passed. -/
structure Validated (h : Host) (g : Graph) (t : Target) : Prop where
  mem : t ∈ g.targets
  strategies : validateStrategies g t (resolveToolchain g t) = .ok ()

theorem prepareLazyAction_pch (hv : Validated h g t) :
    prepareLazyAction h g (nodeId (.cxxPch t)) = (lowerNode h g (.cxxPch t)).map resolved := by
  have hparse := parse_singleActionId t.label_ne (by decide)
    (show 58 ∉ ascii "cxx-pch" by decide)
  rw [nodeId, prepareLazyAction_target hv.mem hparse (by decide)]
  exact lazyTargetAction_pch hv.strategies _

theorem prepareLazyAction_final (hv : Validated h g t) (hkind : hasNoToolchain t = false)
    (hobjectlib : t.kind ≠ .objectlib) :
    prepareLazyAction h g (nodeId (.final t)) = (lowerNode h g (.final t)).map resolved := by
  have hfinal := finalAction_mem hkind hobjectlib
  have hplain : ∀ kind ∈ processFinals, kind ≠ [] ∧ 58 ∉ kind ∧ kind ≠ ascii "run" := by decide
  obtain ⟨hne, hcolon, hrun⟩ := hplain _ hfinal
  rw [nodeId, prepareLazyAction_target hv.mem (parse_singleActionId t.label_ne hne hcolon) hrun]
  exact lazyTargetAction_final hv.strategies hkind hobjectlib _

/-- A batch is found by the source that leads it. -/
theorem batchLeader_eq {index batch : Nat} (hlead : unitySourceInfo t index = some (batch, true)) :
    batchLeader t batch = some index := by
  obtain ⟨-, himpl, -, -⟩ := unitySourceInfo_eq_some.mp hlead
  have hmem : index ∈ List.range t.sources.length := List.mem_range.mpr (isImplementation_lt himpl)
  unfold batchLeader
  cases hfind : (List.range t.sources.length).find?
      fun i => decide (unitySourceInfo t i = some (batch, true)) with
  | none =>
    have hnone := List.find?_eq_none.mp hfind index hmem
    simp [hlead] at hnone
  | some i =>
    have hi : unitySourceInfo t i = some (batch, true) := by simpa using List.find?_some hfind
    rw [unity_leader_unique hi hlead]

/-- Batches are counted by a `size_t`. -/
theorem batch_lt {index batch : Nat} {leader : Bool}
    (hinfo : unitySourceInfo t index = some (batch, leader)) : batch < 2 ^ 64 := by
  obtain ⟨-, himpl, rfl, -⟩ := unitySourceInfo_eq_some.mp hinfo
  have hle : implementationsBefore t index ≤ index := by
    have hcount := List.countP_le_length (p := fun i => isImplementation t i)
      (l := List.range index)
    simpa [implementationsBefore] using hcount
  have hdiv := Nat.div_le_self (implementationsBefore t index) (unityBatchSize t)
  have hindex := isImplementation_lt himpl
  have hsources := t.sources_lt
  omega

/-- A number that counts sources is read back as it was printed. -/
theorem lazyNumbered_source {index : Nat} (hindex : index < t.sources.length) :
    lazyNumbered h g t (printUnsigned 10 index) = lazyCompile h g t index := by
  have hlt : index < 2 ^ 64 := lt_trans hindex t.sources_lt
  rw [lazyNumbered, strtoulAll_printUnsigned, if_pos hlt]
  exact if_neg (by omega)

theorem lazyUnity_leader {index batch : Nat}
    (hlead : unitySourceInfo t index = some (batch, true)) (id : Bytes) :
    lazyUnity h g t id (printUnsigned 10 batch) = lazyCompile h g t index := by
  rw [lazyUnity, strtoulAll_printUnsigned, if_pos (batch_lt hlead)]
  simp only [batchLeader_eq hlead]

theorem lazyCompile_eq (h : Host) (g : Graph) (t : Target) (index : Nat) :
    lazyCompile h g t index = (lowerNode h g (.compile t index)).map resolved := by
  rw [lazyCompile, lowerNode]
  cases lowerCompileAction h g (resolveToolchain g t) (ownSource t index) <;> rfl

/-- What the id of a numbered kind leads to. -/
theorem prepareLazyAction_numbered (ht : t ∈ g.targets) (start : String)
    (hstart : 58 ∉ ascii start) (hrun : ¬ascii start <+: ascii "run") (number : Nat) :
    prepareLazyAction h g (numberedActionId t.label (ascii start) number) =
      lazyTargetAction h g t (numberedActionId t.label (ascii start) number)
        (ascii start ++ printUnsigned 10 number) 0 := by
  refine prepareLazyAction_target ht (parse_numberedActionId t.label_ne hstart number) ?_
  intro heq
  exact hrun (heq ▸ List.prefix_append _ _)

/-- The id of a compile, by its shape. -/
theorem prepareLazyAction_compile (hv : Validated h g t) {index : Nat}
    (hindex : index < t.sources.length) :
    prepareLazyAction h g (nodeId (.compile t index)) =
      (lowerNode h g (.compile t index)).map resolved := by
  have hlt : index < 2 ^ 64 := lt_trans hindex t.sources_lt
  rw [← lazyCompile_eq]
  rw [nodeId, formatCompileActionId]
  split
  · rename_i batch hbatch
    rw [prepareLazyAction_numbered hv.mem "compile-unity-" (by decide) (by decide),
      lazyTargetAction_unity hv.strategies]
    exact lazyUnity_leader (leadsBatch_own.mp hbatch) _
  · split
    · rw [prepareLazyAction_numbered hv.mem "compile-module-interface-" (by decide) (by decide),
        lazyTargetAction_interface hv.strategies]
      exact lazyNumbered_source hindex
    · split
      · rw [prepareLazyAction_numbered hv.mem "compile-module-implementation-" (by decide) (by decide),
          lazyTargetAction_implementation hv.strategies]
        exact lazyNumbered_source hindex
      · have hparse := parse_compileActionId t.label_ne index
        rw [if_pos hlt] at hparse
        rw [prepareLazyAction_target hv.mem hparse (by decide),
          lazyTargetAction_compile hv.strategies]
        exact if_neg (by omega)

/-! ## Actions that are not found -/

/-- A number past the sources is refused, also when it is too large to be read. -/
theorem lazyNumbered_past {index : Nat} (hindex : t.sources.length ≤ index) :
    lazyNumbered h g t (printUnsigned 10 index) = .error .actionIndexOutOfRange := by
  have hsources := t.sources_lt
  by_cases hlt : index < 2 ^ 64
  · rw [lazyNumbered, strtoulAll_printUnsigned, if_pos hlt]
    exact if_pos hindex
  · rw [lazyNumbered, strtoulAll_printUnsigned, if_neg hlt]
    exact if_pos (by omega)

/-- The id of a consumer-context compile is refused. -/
theorem prepareLazyAction_consumer (hv : Validated h g t) {objectlib : Target}
    (hlabel : objectlib.label ≠ t.label) (index : Nat) {actionIndex : Nat}
    (hpast : t.sources.length ≤ actionIndex) (a : Resolved) :
    prepareLazyAction h g (nodeId (.consumerCompile t objectlib index actionIndex)) ≠ .ok a := by
  rw [nodeId, formatCompileActionId]
  simp only [leadsBatch_consumer hlabel]
  split
  · rw [prepareLazyAction_numbered hv.mem "compile-module-interface-" (by decide) (by decide),
      lazyTargetAction_interface hv.strategies, lazyNumbered_past hpast]
    nofun
  · split
    · rw [prepareLazyAction_numbered hv.mem "compile-module-implementation-" (by decide) (by decide),
        lazyTargetAction_implementation hv.strategies, lazyNumbered_past hpast]
      nofun
    · have hparse := parse_compileActionId t.label_ne actionIndex
      split at hparse
      · rw [prepareLazyAction_target hv.mem hparse (by decide),
          lazyTargetAction_compile hv.strategies, if_pos hpast]
        nofun
      · simp [prepareLazyAction, hparse]

/-- A generated action comes back without outputs. -/
theorem prepareLazyAction_generate {r : Genrule} (hr : r ∈ g.genrules) {a : Resolved}
    (ha : prepareLazyAction h g (nodeId (.generate r)) = .ok a) : a.outputs = [] := by
  have hparse := parse_singleActionId r.label_ne (by decide)
    (show 58 ∉ ascii "generate" by decide)
  simp only [prepareLazyAction, nodeId, hparse, findGenrule_of_mem hr, ne_eq, not_true_eq_false,
    or_self, if_false, lazyGeneratedAction, bind_eq_ok] at ha
  obtain ⟨tool, -, argv, -, ha⟩ := ha
  cases ha
  rfl

/-- A run comes back without its stamp. -/
theorem prepareLazyAction_run (ht : t ∈ g.targets) (hkind : t.kind = .runTarget) {a : Resolved}
    (ha : prepareLazyAction h g (nodeId (.run t)) = .ok a) : a.outputs = [] := by
  have hparse := parse_singleActionId t.label_ne (by decide)
    (show 58 ∉ ascii "run" by decide)
  simp only [prepareLazyAction, nodeId, hparse, findGenrule_target ht, findTarget_of_mem ht, hkind,
    ne_eq, not_true_eq_false, or_self, if_true, if_false, lazyRunAction, bind_eq_ok] at ha
  obtain ⟨argv, -, ha⟩ := ha
  cases ha
  rfl

end Resolving

/-! ## The scheduled actions -/

/-- Where a scheduled node comes from. -/
theorem scheduled_cases {h : Host} {g : Graph} {node : ActionNode} (hs : Scheduled h g node) :
    (∃ t, Validated h g t ∧
      (node = .cxxPch t ∨
      (∃ index, index < t.sources.length ∧ node = .compile t index) ∨
      (hasNoToolchain t = false ∧ t.kind ≠ .objectlib ∧ node = .final t) ∨
      (∃ objectlib index actionIndex, objectlib.label ≠ t.label ∧
        t.sources.length ≤ actionIndex ∧ node = .consumerCompile t objectlib index actionIndex))) ∨
    (∃ t ∈ g.targets, t.kind = .runTarget ∧ node = .run t) ∨
    (∃ r ∈ g.genrules, node = .generate r) := by
  cases hs with
  | @target t nodes node ht hnodes hnode =>
    rcases mem_targetNodes hnodes hnode with ⟨hrun, rfl⟩ | ⟨hkind, hvalid, hcases⟩
    · exact .inr (.inl ⟨t, ht, hrun, rfl⟩)
    · refine .inl ⟨t, ⟨ht, validateStrategies_of_validateTarget hvalid⟩, ?_⟩
      rcases mem_ownNodes hcases with ⟨-, rfl⟩ | ⟨index, hindex, rfl⟩ | hconsumer | ⟨hobjectlib, rfl⟩
      · exact .inl rfl
      · exact .inr (.inl ⟨index, (mem_ownCompileIndices hindex).1, rfl⟩)
      · obtain ⟨listIndex, label, objectlib, index, hlabel, hfind, -, -, rfl⟩ :=
          mem_consumerNodes hconsumer
        exact .inr (.inr (.inr ⟨objectlib, index, _,
          objects_ne_self ht (List.mem_of_getElem? hlabel) hfind,
          le_consumerCompileIndex g t listIndex index, rfl⟩))
      · exact .inr (.inr (.inl ⟨hkind, hobjectlib, rfl⟩))
  | @genrule r node hr hnode =>
    unfold genruleNodes at hnode
    split at hnode
    · cases hnode
    · exact .inr (.inr ⟨r, hr, by simpa using hnode⟩)

/-- The id of a scheduled action resolves to that action if and only if the action compiles,
precompiles or links for its own target. -/
theorem lazy_resolves_iff {h : Host} {g : Graph} {node : ActionNode} {a : LoweredAction}
    (hs : Scheduled h g node) (ha : lowerNode h g node = .ok a) :
    prepareLazyAction h g a.id = .ok (resolved a) ↔ OfOwnTarget node := by
  rw [lowerNode_id ha]
  rcases scheduled_cases hs with ⟨t, hv, hcases⟩ | ⟨t, ht, hkind, rfl⟩ | ⟨r, hr, rfl⟩
  · rcases hcases with rfl | ⟨index, hindex, rfl⟩ | ⟨hkind, hobjectlib, rfl⟩ |
      ⟨objectlib, index, actionIndex, hlabel, hpast, rfl⟩
    · rw [prepareLazyAction_pch hv, ha]
      exact ⟨fun _ => trivial, fun _ => rfl⟩
    · rw [prepareLazyAction_compile hv hindex, ha]
      exact ⟨fun _ => trivial, fun _ => rfl⟩
    · rw [prepareLazyAction_final hv hkind hobjectlib, ha]
      exact ⟨fun _ => trivial, fun _ => rfl⟩
    · exact ⟨fun hok => absurd hok (prepareLazyAction_consumer hv hlabel index hpast _), nofun⟩
  · refine ⟨fun hok => ?_, nofun⟩
    have hnone := prepareLazyAction_run ht hkind hok
    exact absurd hnone (by simp [resolved, (lowerRunAction_as ha).2])
  · refine ⟨fun hok => ?_, nofun⟩
    have hnone := prepareLazyAction_generate hr hok
    exact absurd hnone (by simpa [resolved, (lowerGeneratedAction_as ha).2] using r.outputs_ne)

/-! ## An object library compiled for its consumer -/

/-- A program of one source that takes the objects of a library, and that library. -/
def program : Target where
  label := ascii "//:app"
  name := ascii "app"
  kind := .exe
  sources := [ascii "a.c"]
  objects := [ascii "//:lib"]
  label_ne := app_label_ne
  sources_lt := Target.a_source_lt

def library : Target where
  label := ascii "//:lib"
  name := ascii "lib"
  kind := .objectlib
  sources := [ascii "l.c"]
  compileContext := ascii "consumer"
  label_ne := by decide
  sources_lt := by decide

def consumerGraph : Graph where
  host := ascii "linux"
  platform := []
  buildDir := ascii "build"
  targets := [program, library]
  genrules := []
  stages := []
  toolsets := []
  languages := []
  labels_nodup := by decide
  objectlib_objects := by decide
  objects_objectlib := by decide

/-- A process environment without tools. -/
def bareHost : Host := ⟨fun _ => none, fun _ => false⟩

theorem program_nodes : targetNodes bareHost consumerGraph program =
    .ok [.compile program 0, .consumerCompile program library 0 1, .final program] := rfl

theorem program_scheduled {node : ActionNode}
    (hnode : node ∈ [.compile program 0, .consumerCompile program library 0 1, .final program]) :
    Scheduled bareHost consumerGraph node :=
  .target (by simp [consumerGraph]) program_nodes hnode

theorem lazy_resolves_source :
    ∃ a, lowerNode bareHost consumerGraph (.compile program 0) = .ok a ∧
      (prepareLazyAction bareHost consumerGraph a.id = .ok (resolved a) ↔
        OfOwnTarget (.compile program 0)) := by
  obtain ⟨a, ha⟩ := exists_eq_ok
    (x := lowerNode bareHost consumerGraph (.compile program 0)) (by decide)
  exact ⟨a, ha, lazy_resolves_iff (program_scheduled (by simp)) ha⟩

/-- The source of the library is compiled under `//:app:compile:1`, and the program has one
source. -/
theorem consumer_compile_unresolved :
    ∃ a, lowerNode bareHost consumerGraph (.consumerCompile program library 0 1) = .ok a ∧
      Scheduled bareHost consumerGraph (.consumerCompile program library 0 1) ∧
      a.id = ascii "//:app:compile:1" ∧
      prepareLazyAction bareHost consumerGraph a.id = .error .actionIndexOutOfRange := by
  obtain ⟨a, ha⟩ := exists_eq_ok
    (x := lowerNode bareHost consumerGraph (.consumerCompile program library 0 1))
    (by decide)
  have hid : a.id = ascii "//:app:compile:1" := by
    rw [lowerNode_id ha]
    decide
  refine ⟨a, ha, program_scheduled (by simp), hid, ?_⟩
  rw [hid]
  rfl

end QStar.Lowering.Replay
