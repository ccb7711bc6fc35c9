import Mathlib.Data.List.Pairwise
import QStar.Ninja.Outputs

/-!
# Edges with outputs of their own

When no path is an output of two emitted edges. The labels of the emitted targets and
generated actions have to mangle apart, and so have those of the stages; and no
chosen path may be an output of another edge. Nothing else can go wrong: the objects,
module files and precompiled headers of one target are told apart by its sources.
-/
namespace QStar.Ninja

open QStar.Lib.CStrings
open QStar.Lib.Results
open QStar.Base
open QStar.BuildGraph
open QStar.Lowering

def EmitNode.label : EmitNode → Bytes
  | .target t => t.label
  | .genrule _ r => r.label
  | .stage s => s.label

def EmitNode.isStage : EmitNode → Bool
  | .stage _ => true
  | _ => false

def Place.isStage : Place → Bool
  | .manifest => true
  | .stageAlias => true
  | _ => false

/-- The names made for two nodes differ. -/
def EmitNode.LabelsApart (a b : EmitNode) : Prop :=
  a.isStage = b.isStage → mangled a.label ≠ mangled b.label

instance : Std.Symm EmitNode.LabelsApart where
  symm := fun _ _ h heq hlabel => h heq.symm hlabel.symm

/-- No chosen path of one edge is an output of the other. -/
structure Slot.ChosenApart (g : Graph) (a b : Slot) : Prop where
  left : ∀ p ∈ a.chosen, p ∉ b.paths g
  right : ∀ p ∈ b.chosen, p ∉ a.paths g

/-- No name is made for both edges. -/
def Slot.MadeApart (a b : Slot) : Prop :=
  ∀ p ∈ a.places, ∀ q ∈ b.places, mangled a.label = mangled b.label → p ≠ q

/-- Two edges share no output. -/
def Slot.Apart (g : Graph) (a b : Slot) : Prop := ∀ p ∈ a.paths g, p ∉ b.paths g

theorem Slot.apart_of {g : Graph} {a b : Slot} (hchosen : a.ChosenApart g b)
    (hmade : a.MadeApart b) : a.Apart g b := by
  intro path ha hb
  rcases List.mem_append.mp ha with hplace | hmem
  · rcases List.mem_append.mp hb with hplace' | hmem'
    · obtain ⟨p, hp, rfl⟩ := List.mem_map.mp hplace
      obtain ⟨q, hq, heq⟩ := List.mem_map.mp hplace'
      obtain ⟨hlabel, hsame⟩ := Place.path_inj heq
      exact hmade p hp q hq hlabel.symm hsame.symm
    · exact hchosen.right path hmem' ha
  · exact hchosen.left path hmem hb

theorem Slot.Apart.chosenApart {g : Graph} {a b : Slot} (h : a.Apart g b) : a.ChosenApart g b where
  left := fun p hp hb => h p (List.mem_append_right _ hp) hb
  right := fun p hp ha => h p ha (List.mem_append_right _ hp)

/-! ## Slots of a node -/

/-- A slot of a node is labelled by it, and its names are those of its kind. -/
structure Slot.BelongsTo (s : Slot) (n : EmitNode) : Prop where
  label : s.label = n.label
  places : ∀ p ∈ s.places, p.isStage = n.isStage

theorem madeSlot_belongs {n : EmitNode} {place : Place} (h : place.isStage = n.isStage) :
    (madeSlot n.label place).BelongsTo n where
  label := rfl
  places := by simpa [madeSlot] using h

theorem chosenSlot_belongs (n : EmitNode) (chosen : List Bytes) :
    (Slot.mk n.label [] chosen).BelongsTo n where
  label := rfl
  places := by simp

theorem ownSlot_belongs (t : Target) (index : Nat) :
    (ownSlot t index).BelongsTo (.target t) := by
  unfold ownSlot
  split
  · exact chosenSlot_belongs (.target t) _
  · refine ⟨rfl, ?_⟩
    split <;> simp [Place.isStage, EmitNode.isStage]

theorem slot_belongs {g : Graph} {n : EmitNode} {s : Slot} (hs : s ∈ n.slots g) :
    s.BelongsTo n := by
  cases n with
  | target t =>
    have hmade : ∀ place : Place, place.isStage = false →
        (madeSlot t.label place).BelongsTo (.target t) :=
      fun place h => madeSlot_belongs (n := .target t) h
    simp only [EmitNode.slots, targetSlots, List.mem_append, List.mem_singleton] at hs
    rcases hs with hs | rfl
    · split at hs
      · cases hs
      · split at hs
        · rw [List.mem_singleton] at hs
          exact hs ▸ hmade _ rfl
        · simp only [List.mem_append, List.mem_map] at hs
          rcases hs with ((hs | ⟨i, -, rfl⟩) | ⟨r, -, rfl⟩) | hs
          · unfold pchSlots at hs
            split at hs
            · cases hs
            · rw [List.mem_singleton] at hs
              exact hs ▸ hmade _ rfl
          · exact ownSlot_belongs t i
          · exact hmade _ rfl
          · unfold finalSlots at hs
            split at hs
            · rw [List.mem_singleton] at hs
              exact hs ▸ chosenSlot_belongs (.target t) _
            · split at hs
              · cases hs
              · rw [List.mem_singleton] at hs
                exact hs ▸ chosenSlot_belongs (.target t) _
    · exact hmade _ rfl
  | genrule consumer r =>
    simp only [EmitNode.slots, List.mem_cons, List.not_mem_nil, or_false] at hs
    rcases hs with rfl | rfl
    · exact chosenSlot_belongs (.genrule consumer r) _
    · exact madeSlot_belongs (n := .genrule consumer r) rfl
  | stage stage =>
    simp only [EmitNode.slots, List.mem_cons, List.not_mem_nil, or_false] at hs
    rcases hs with rfl | rfl
    · exact ⟨rfl, by simp [Place.isStage, EmitNode.isStage]⟩
    · exact madeSlot_belongs (n := .stage stage) rfl

/-- The names made for two nodes whose labels mangle apart differ. -/
theorem madeApart_of_labelsApart {g : Graph} {m n : EmitNode} (h : m.LabelsApart n) {a b : Slot}
    (ha : a ∈ m.slots g) (hb : b ∈ n.slots g) : a.MadeApart b := by
  intro p hp q hq hlabel heq
  obtain ⟨halabel, haplaces⟩ := slot_belongs ha
  obtain ⟨hblabel, hbplaces⟩ := slot_belongs hb
  have hstage : m.isStage = n.isStage := by
    rw [← haplaces p hp, ← hbplaces q hq, heq]
  refine h hstage ?_
  rw [← halabel, ← hblabel]
  exact hlabel

/-- Every node has an alias. -/
theorem alias_mem_slots (g : Graph) (n : EmitNode) :
    madeSlot n.label (if n.isStage then .stageAlias else .targetAlias) ∈ n.slots g := by
  cases n with
  | target t => exact List.mem_append_right _ (List.mem_singleton_self _)
  | genrule consumer r => exact List.mem_cons_of_mem _ (List.mem_singleton_self _)
  | stage s => exact List.mem_cons_of_mem _ (List.mem_singleton_self _)

/-- Two nodes whose aliases are told apart have labels that mangle apart. -/
theorem labelsApart_of_apart {g : Graph} {m n : EmitNode}
    (h : ∀ a ∈ m.slots g, ∀ b ∈ n.slots g, a.Apart g b) : m.LabelsApart n := by
  intro hstage hlabel
  have hapart := h _ (alias_mem_slots g m) _ (alias_mem_slots g n)
  rw [hstage] at hapart
  refine hapart (Place.path g (mangled m.label) (if n.isStage then .stageAlias else .targetAlias))
    ?_ ?_
  · simp [madeSlot, Slot.paths]
  · rw [hlabel]
    simp [madeSlot, Slot.paths]

/-! ## Within a target -/

section Within

variable {g : Graph} {t : Target}

/-- The number of the object of a compiled source tells its index. -/
theorem number_inj {i j : Nat} (hi : i ∈ ownCompileIndices t) (hj : j ∈ ownCompileIndices t)
    (h : (SourceRef.mk t i).number = (SourceRef.mk t j).number) : i = j := by
  have hcontext := context_of_ownCompile hi
  have hemits : ∀ k ∈ ownCompileIndices t, emitsObject t k = true := by
    intro k hk
    have howned := (mem_ownCompileIndices hk).2
    simp only [ownCompiled, Bool.and_eq_true] at howned
    exact howned.1.2
  have hleads : ∀ k ∈ ownCompileIndices t, ∀ batch leader,
      unitySourceInfo t k = some (batch, leader) → leader = true := by
    intro k hk batch leader hunity
    simpa [emitsObject, hunity] using hemits k hk
  simp only [SourceRef.number, hcontext, Bool.false_eq_true, if_false] at h
  cases hiunity : unitySourceInfo t i with
  | none =>
    cases hjunity : unitySourceInfo t j with
    | none =>
      simp only [hiunity, hjunity] at h
      exact congrArg Prod.snd h
    | some info => simp [hiunity, hjunity] at h
  | some info =>
    cases hjunity : unitySourceInfo t j with
    | none => simp [hiunity, hjunity] at h
    | some info' =>
      obtain ⟨batch, leader⟩ := info
      obtain ⟨batch', leader'⟩ := info'
      simp only [hiunity, hjunity, Prod.mk.injEq, true_and] at h
      subst h
      rw [hleads i hi _ _ hiunity] at hiunity
      rw [hleads j hj _ _ hjunity] at hjunity
      exact unity_leader_unique hiunity hjunity

/-- A list with two members is longer than one. -/
theorem one_lt_length {α : Type} {items : List α} {x y : α} (hx : x ∈ items) (hy : y ∈ items)
    (hne : x ≠ y) : 1 < items.length := by
  rcases items with _ | ⟨a, _ | ⟨b, rest⟩⟩
  · cases hx
  · rw [List.mem_singleton] at hx hy
    exact absurd (hx.trans hy.symm) hne
  · simp

/-- The module file of an interface is named by its stem. -/
theorem moduleOutputPath_eq {i : Nat} (h : moduleOutputPath g t i ≠ none) :
    moduleOutputPath g t i =
      some (cxxSubpath g t (ascii "modules/" ++ bmiStem t i ++ ascii ".pcm")) := by
  unfold moduleOutputPath at h ⊢
  unfold bmiStem
  cases hstem : baseStem (t.sources.getD i []) with
  | none =>
    rw [hstem] at h
    exact absurd rfl h
  | some stem => rfl

/-- Validation tells several module files apart. -/
theorem interfaceOutputs_of_validated
    (hstrategies : validateStrategies g t (resolveToolchain g t) = .ok ())
    (henabled : t.cxxModulesEnabled = true) (hlength : 1 < (interfaceOutputs g t).length) :
    none ∉ interfaceOutputs g t ∧ (interfaceOutputs g t).Nodup := by
  unfold validateStrategies at hstrategies
  simp only [henabled, and_false, if_false, Bool.true_eq_false] at hstrategies
  split at hstrategies
  · cases hstrategies
  · split at hstrategies
    · cases hstrategies
    · split at hstrategies
      · cases hstrategies
      · split at hstrategies
        · cases hstrategies
        · rename_i hmodules
          simp only [true_and, not_or, not_and, not_not] at hmodules
          exact hmodules.2.2.2 hlength

/-- The module files of a target whose strategies were validated are told apart. -/
theorem bmiStem_inj (hstrategies : validateStrategies g t (resolveToolchain g t) = .ok ())
    (henabled : t.cxxModulesEnabled = true) {i j : Nat}
    (hi : isModuleInterface t i = true) (hj : isModuleInterface t j = true)
    (hilt : i < t.sources.length) (hjlt : j < t.sources.length)
    (h : bmiStem t i = bmiStem t j) : i = j := by
  by_contra hne
  have hmem : ∀ k, isModuleInterface t k = true → k < t.sources.length →
      k ∈ (List.range t.sources.length).filter fun i => isModuleInterface t i := by
    intro k hk hlt
    simp [hk, hlt]
  have himem := hmem i hi hilt
  have hjmem := hmem j hj hjlt
  have hlength : 1 < (interfaceOutputs g t).length := by
    rw [interfaceOutputs, List.length_map]
    exact one_lt_length himem hjmem hne
  obtain ⟨hnone, hnodup⟩ := interfaceOutputs_of_validated hstrategies henabled hlength
  have hpath : ∀ k, isModuleInterface t k = true → k < t.sources.length →
      moduleOutputPath g t k ≠ none := by
    intro k hk hlt heq
    exact hnone (heq ▸ List.mem_map_of_mem (hmem k hk hlt))
  refine hne (List.inj_on_of_nodup_map hnodup himem hjmem ?_)
  rw [moduleOutputPath_eq (hpath i hi hilt), moduleOutputPath_eq (hpath j hj hjlt), h]

theorem mem_ownSlot_places {i : Nat} {p : Place} (hp : p ∈ (ownSlot t i).places) :
    p = .out (.object (SourceRef.mk t i).number) ∨
      (providerSourceUnit t i = none ∧ isModuleInterface t i = true ∧
        p = .out (.bmi (bmiStem t i))) := by
  unfold ownSlot at hp
  split at hp
  · cases hp
  · rename_i hunit
    rcases List.mem_cons.mp hp with rfl | hp
    · exact .inl rfl
    · split at hp
      · rename_i hmodule
        rw [List.mem_singleton] at hp
        exact .inr ⟨hunit, hmodule, hp⟩
      · cases hp

theorem finalSlots_places {s : Slot} (hs : s ∈ finalSlots g t) : s.places = [] := by
  unfold finalSlots at hs
  split at hs
  · rw [List.mem_singleton] at hs
    exact hs ▸ rfl
  · split at hs
    · cases hs
    · rw [List.mem_singleton] at hs
      exact hs ▸ rfl

/-- What a target that is compiled has been checked for. -/
structure CompileChecked (g : Graph) (t : Target) : Prop where
  strategies : validateStrategies g t (resolveToolchain g t) = .ok ()
  modules : ∀ i ∈ ownCompileIndices t, providerSourceUnit t i = none →
    isModuleInterface t i = true → t.cxxModulesEnabled = true

theorem ownSlots_madeApart (hchecked : CompileChecked g t) :
    ((ownCompileIndices t).map (ownSlot t)).Pairwise Slot.MadeApart := by
  have hnodup : (ownCompileIndices t).Nodup := by
    unfold ownCompileIndices
    split
    · exact List.nodup_nil
    · exact List.nodup_range.filter _
  rw [List.pairwise_map]
  refine hnodup.imp_of_mem ?_
  intro i j hi hj hne p hp q hq _ heq
  rcases mem_ownSlot_places hp with hp | ⟨hunit, hmodule, hp⟩
  · rcases mem_ownSlot_places hq with hq | ⟨-, -, hq⟩
    · rw [hp, hq] at heq
      simp only [Place.out.injEq, OutName.object.injEq] at heq
      exact hne (number_inj hi hj heq)
    · rw [hp, hq] at heq
      cases heq
  · rcases mem_ownSlot_places hq with hq | ⟨-, hmodule', hq⟩
    · rw [hp, hq] at heq
      cases heq
    · rw [hp, hq] at heq
      simp only [Place.out.injEq, OutName.bmi.injEq] at heq
      exact hne (bmiStem_inj hchecked.strategies (hchecked.modules i hi hunit hmodule) hmodule
        hmodule' (mem_ownCompileIndices hi).1 (mem_ownCompileIndices hj).1 heq)

/-- The sources that a target compiles for its libraries, told apart by mangled labels. -/
def CompilesApart (g : Graph) (t : Target) : Prop :=
  ((libraries g t).flatMap libraryCompiles).Pairwise fun r s =>
    mangled r.owner.label = mangled s.owner.label → r.index ≠ s.index

theorem librarySlots_madeApart (h : CompilesApart g t) :
    (((libraries g t).flatMap libraryCompiles).map (librarySlot t)).Pairwise Slot.MadeApart := by
  rw [List.pairwise_map]
  refine h.imp ?_
  intro r s hrs p hp q hq _ heq
  simp only [librarySlot, madeSlot, List.mem_singleton] at hp hq
  rw [hp, hq] at heq
  simp only [Place.out.injEq, OutName.consumerObject.injEq] at heq
  exact hrs heq.1 heq.2

/-- The parts of a target its edges belong to. -/
def Place.family : Place → Nat
  | .out (.pch _) => 0
  | .out (.object _) => 1
  | .out (.bmi _) => 1
  | .out (.consumerObject _ _) => 2
  | _ => 3

/-- All names of an edge are of one part. -/
def Slot.InFamily (s : Slot) (k : Nat) : Prop := ∀ p ∈ s.places, p.family = k

theorem madeApart_of_family {a b : Slot} {j k : Nat} (ha : a.InFamily j) (hb : b.InFamily k)
    (hne : j ≠ k) : a.MadeApart b := by
  intro p hp q hq _ heq
  exact hne (by rw [← ha p hp, ← hb q hq, heq])

theorem madeSlot_family (label : Bytes) (p : Place) : (madeSlot label p).InFamily p.family := by
  simp [Slot.InFamily, madeSlot]

theorem pchSlots_family {s : Slot} (hs : s ∈ pchSlots g t) : s.InFamily 0 := by
  unfold pchSlots at hs
  split at hs
  · cases hs
  · rw [List.mem_singleton] at hs
    exact hs ▸ madeSlot_family _ _

theorem ownSlot_family (t : Target) (i : Nat) : (ownSlot t i).InFamily 1 := by
  intro p hp
  rcases mem_ownSlot_places hp with rfl | ⟨-, -, rfl⟩
  · rfl
  · rfl

theorem librarySlot_family (t : Target) (r : SourceRef) : (librarySlot t r).InFamily 2 :=
  madeSlot_family _ _

theorem finalSlots_family {s : Slot} (hs : s ∈ finalSlots g t) (k : Nat) : s.InFamily k := by
  intro p hp
  rw [finalSlots_places hs] at hp
  cases hp

/-- No edge of a target but its last has the name of its alias. -/
theorem mem_targetSlots_family {s : Slot} (hs : s ∈ pchSlots g t ++ (ownCompileIndices t).map
    (ownSlot t) ++ ((libraries g t).flatMap libraryCompiles).map (librarySlot t) ++ finalSlots g t) :
    ∃ k ≠ 3, s.InFamily k := by
  simp only [List.mem_append, List.mem_map] at hs
  rcases hs with ((hs | ⟨i, -, rfl⟩) | ⟨r, -, rfl⟩) | hs
  · exact ⟨0, by decide, pchSlots_family hs⟩
  · exact ⟨1, by decide, ownSlot_family t i⟩
  · exact ⟨2, by decide, librarySlot_family t r⟩
  · exact ⟨0, by decide, finalSlots_family hs 0⟩

/-- The edges that compile and link a target make different names. -/
theorem compiledSlots_madeApart (hchecked : CompileChecked g t) (happart : CompilesApart g t) :
    (pchSlots g t ++ (ownCompileIndices t).map (ownSlot t) ++
      ((libraries g t).flatMap libraryCompiles).map (librarySlot t) ++
      finalSlots g t).Pairwise Slot.MadeApart := by
  have hpch : (pchSlots g t).Pairwise Slot.MadeApart := by
    unfold pchSlots
    split <;> simp
  have hfinal : (finalSlots g t).Pairwise Slot.MadeApart := by
    unfold finalSlots
    split
    · simp
    · split <;> simp
  refine List.pairwise_append.mpr ⟨?_, hfinal, ?_⟩
  · refine List.pairwise_append.mpr ⟨?_, librarySlots_madeApart happart, ?_⟩
    · refine List.pairwise_append.mpr ⟨hpch, ownSlots_madeApart hchecked, ?_⟩
      intro a ha b hb
      obtain ⟨i, -, rfl⟩ := List.mem_map.mp hb
      exact madeApart_of_family (pchSlots_family ha) (ownSlot_family t i) (by decide)
    · intro a ha b hb
      obtain ⟨r, -, rfl⟩ := List.mem_map.mp hb
      rcases List.mem_append.mp ha with ha | ha
      · exact madeApart_of_family (pchSlots_family ha) (librarySlot_family t r) (by decide)
      · obtain ⟨i, -, rfl⟩ := List.mem_map.mp ha
        exact madeApart_of_family (ownSlot_family t i) (librarySlot_family t r) (by decide)
  · intro a _ b hb p _ q hq
    rw [finalSlots_places hb] at hq
    cases hq

theorem targetSlots_madeApart
    (hcompiled : (decide (t.kind = .group) || isTypedDependency t) = false →
      t.kind ≠ .runTarget → CompileChecked g t ∧ CompilesApart g t) :
    (targetSlots g t).Pairwise Slot.MadeApart := by
  unfold targetSlots
  split
  · simp
  · rename_i hneither
    split
    · rw [List.singleton_append, List.pairwise_pair]
      intro p hp q hq _ heq
      simp only [madeSlot, List.mem_singleton] at hp hq
      rw [hp, hq] at heq
      cases heq
    · rename_i hrun
      obtain ⟨hchecked, happart⟩ := hcompiled (by simpa using hneither) hrun
      refine List.pairwise_append.mpr ⟨compiledSlots_madeApart hchecked happart, by simp, ?_⟩
      intro a ha b hb
      rw [List.mem_singleton] at hb
      obtain ⟨k, hk, hfamily⟩ := mem_targetSlots_family ha
      exact madeApart_of_family hfamily (hb ▸ madeSlot_family t.label .targetAlias) hk

end Within

/-! ## Across an emission -/

section Emission

variable {g : Graph} {label : Option Bytes} {order : List EmitNode} {statements : List Statement}

/-- A target that is emitted as a compiled one was validated. -/
theorem strategies_of_producers {t : Target} {asked : List EmitNode}
    (hneither : (decide (t.kind = .group) || isTypedDependency t) = false)
    (hrun : t.kind ≠ .runTarget) (h : (EmitNode.target t).producers g = .ok asked) :
    validateStrategies g t (resolveToolchain g t) = .ok () := by
  obtain ⟨kind, hkind, -⟩ := bind_eq_ok.mp h
  unfold kindProducers at hkind
  rw [hneither, if_neg (by simp), if_neg hrun] at hkind
  split at hkind
  · obtain ⟨u, hu, -⟩ := bind_eq_ok.mp hkind
    exact hu
  · cases hkind

/-- A library that is compiled for its consumers has no modules. -/
theorem modules_of_consumer {o : Target} {tc : Toolchain} (hkind : o.kind = .objectlib)
    (hcontext : usesConsumerContext o = true) (h : validateStrategies g o tc = .ok ()) :
    o.cxxModulesEnabled = false := by
  unfold validateStrategies at h
  split at h
  · rename_i hnone
    exact hnone.2.2
  · split at h
    · cases h
    · simp [hkind, hcontext] at h

theorem noModulesForConsumer (horder : emitOrder g label = .ok order) {t : Target}
    (ht : .target t ∈ order) : NoModulesForConsumer g t := by
  intro o ho hcontext
  have htmem : t ∈ g.targets := emitOrder_declared horder ht
  obtain ⟨homem, hkind, hlabel, -⟩ := Linking.mem_libraries htmem ho
  have hneeds : Needs g t o :=
    ⟨o.label, List.mem_append_left _ hlabel, findTarget_of_mem homem⟩
  obtain ⟨asked, hasked, -⟩ := emitOrder_producers horder (emitOrder_closed horder ht hneeds)
  have hstrategies := strategies_of_producers (by simp [hkind, isTypedDependency]) (by simp [hkind])
    hasked
  exact modules_of_consumer hkind hcontext hstrategies

theorem compileChecked {t : Target} {asked : List EmitNode} {stmts : List Statement}
    (hneither : (decide (t.kind = .group) || isTypedDependency t) = false)
    (hrun : t.kind ≠ .runTarget) (hasked : (EmitNode.target t).producers g = .ok asked)
    (h : targetStatements g t = .ok stmts) : CompileChecked g t where
  strategies := strategies_of_producers hneither hrun hasked
  modules := by
    intro i hi hunit hmodule
    rw [Bool.or_eq_false_iff] at hneither
    unfold targetStatements at h
    rw [if_neg (by simpa using hneither.1), if_neg (by simp [hneither.2]), if_neg hrun] at h
    obtain ⟨compile, hcompile, -⟩ := bind_eq_ok.mp h
    obtain ⟨pch, -, hcompile⟩ := bind_eq_ok.mp hcompile
    obtain ⟨own, hown, -⟩ := bind_eq_ok.mp hcompile
    obtain ⟨stmt, -, hstmt⟩ := mapM_eq_ok_of_mem hown hi
    rcases emitCompileEdge_outputs hstmt with ⟨unit, hsome, -⟩ | ⟨-, -, -, -, -, henabled, -⟩
    · have hsome : providerSourceUnit t i = some unit := hsome
      rw [hunit] at hsome
      cases hsome
    · rw [isModuleInterface_eq] at hmodule
      exact henabled hmodule

/-- Emitted nodes of one kind whose labels mangle alike are one node. -/
theorem eq_of_mangled (hlabels : order.Pairwise EmitNode.LabelsApart) {m n : EmitNode}
    (hm : m ∈ order) (hn : n ∈ order) (hstage : m.isStage = n.isStage)
    (hlabel : mangled m.label = mangled n.label) : m = n := by
  by_contra hne
  exact hlabels.forall hm hn hne hstage hlabel

theorem compilesApart (hvalid : Linking.Validated g) (horder : emitOrder g label = .ok order)
    (hlabels : order.Pairwise EmitNode.LabelsApart) {t : Target} (ht : .target t ∈ order) :
    CompilesApart g t := by
  have htmem : t ∈ g.targets := emitOrder_declared horder ht
  have hemitted : ∀ o ∈ libraries g t, .target o ∈ order := by
    intro o ho
    obtain ⟨homem, -, hlabel, -⟩ := Linking.mem_libraries htmem ho
    exact emitOrder_closed horder ht
      ⟨o.label, List.mem_append_left _ hlabel, findTarget_of_mem homem⟩
  have howner : ∀ o, ∀ r ∈ libraryCompiles o, r.owner = o := by
    intro o r hr
    unfold libraryCompiles at hr
    split at hr
    · obtain ⟨i, -, rfl⟩ := List.mem_map.mp hr
      rfl
    · cases hr
  refine List.pairwise_flatMap.mpr ⟨?_, ?_⟩
  · intro o _
    unfold libraryCompiles
    split
    · rw [List.pairwise_map]
      refine (List.nodup_range.filter _).imp ?_
      intro i j hne _
      exact hne
    · exact List.Pairwise.nil
  · have hnodup := (List.nodup_cons.mp (Linking.owners_nodup hvalid htmem)).2
    refine hnodup.imp_of_mem ?_
    intro o o' ho ho' hne r hr s hs hmangled
    rw [howner o r hr, howner o' s hs] at hmangled
    have hsame := eq_of_mangled hlabels (hemitted o ho) (hemitted o' ho') rfl hmangled
    exact absurd (EmitNode.target.inj hsame) hne

/-- The outputs of an emission are those of the slots of its nodes. -/
theorem emission_outputs (horder : emitOrder g label = .ok order)
    (h : emitNinjaGraph g label = .ok statements) :
    statements.map Statement.outputs = (order.flatMap (EmitNode.slots g)).map (Slot.paths g) := by
  obtain ⟨order', horder', h⟩ := bind_eq_ok.mp h
  rw [horder, Except.ok.injEq] at horder'
  subst horder'
  obtain ⟨lists, hlists, h⟩ := bind_eq_ok.mp h
  cases h
  have heach := mapM_eq_ok_map_map (p := List.map Statement.outputs)
    (k := fun n : EmitNode => (n.slots g).map (Slot.paths g)) (by
      intro n hn stmts hstmts
      refine statements_outputs (emitOrder_declared horder hn) ?_ hstmts
      intro t heq
      exact noModulesForConsumer horder (heq ▸ hn)) hlists
  rw [List.map_flatten, heach, ← List.flatMap_def, List.map_flatMap]

theorem slots_madeApart (hvalid : Linking.Validated g) (horder : emitOrder g label = .ok order)
    (h : emitNinjaGraph g label = .ok statements)
    (hlabels : order.Pairwise EmitNode.LabelsApart) {n : EmitNode} (hn : n ∈ order) :
    (n.slots g).Pairwise Slot.MadeApart := by
  cases n with
  | target t =>
    refine targetSlots_madeApart ?_
    intro hneither hrun
    obtain ⟨asked, hasked, -⟩ := emitOrder_producers horder hn
    obtain ⟨order', horder', h⟩ := bind_eq_ok.mp h
    rw [horder, Except.ok.injEq] at horder'
    subst horder'
    obtain ⟨lists, hlists, -⟩ := bind_eq_ok.mp h
    obtain ⟨stmts, -, hstmts⟩ := mapM_eq_ok_of_mem hlists hn
    exact ⟨compileChecked hneither hrun hasked hstmts, compilesApart hvalid horder hlabels hn⟩
  | genrule consumer r =>
    rw [EmitNode.slots, List.pairwise_pair]
    intro p hp
    cases hp
  | stage s =>
    rw [EmitNode.slots, List.pairwise_pair]
    intro p hp q hq _ heq
    simp only [madeSlot, List.mem_singleton] at hp hq
    rw [hp, hq] at heq
    cases heq

/-- No path is an output of two emitted edges if and only if labels mangle apart and no chosen
path is an output of another edge. -/
theorem outputs_apart_iff (hvalid : Linking.Validated g) (horder : emitOrder g label = .ok order)
    (h : emitNinjaGraph g label = .ok statements) :
    statements.Pairwise (fun a b => ∀ p ∈ a.outputs, p ∉ b.outputs) ↔
      order.Pairwise EmitNode.LabelsApart ∧
        (order.flatMap (EmitNode.slots g)).Pairwise (Slot.ChosenApart g) := by
  have hslots : statements.Pairwise (fun a b => ∀ p ∈ a.outputs, p ∉ b.outputs) ↔
      (order.flatMap (EmitNode.slots g)).Pairwise (Slot.Apart g) := by
    have hlists : statements.Pairwise (fun a b => ∀ p ∈ a.outputs, p ∉ b.outputs) ↔
        (statements.map Statement.outputs).Pairwise fun a b => ∀ p ∈ a, p ∉ b :=
      (List.pairwise_map (R := fun a b => ∀ p ∈ a, p ∉ b)).symm
    rw [hlists, emission_outputs horder h, List.pairwise_map]
    rfl
  rw [hslots]
  constructor
  · intro hapart
    refine ⟨(List.pairwise_flatMap.mp hapart).2.imp fun hab => labelsApart_of_apart hab, ?_⟩
    exact hapart.imp fun hab => hab.chosenApart
  · intro ⟨hlabels, hchosen⟩
    have hmade : (order.flatMap (EmitNode.slots g)).Pairwise Slot.MadeApart := by
      refine List.pairwise_flatMap.mpr ⟨fun n hn => slots_madeApart hvalid horder h hlabels hn, ?_⟩
      exact hlabels.imp fun hmn a ha b hb => madeApart_of_labelsApart hmn ha hb
    exact (hchosen.and hmade).imp fun ⟨hc, hm⟩ => Slot.apart_of hc hm

end Emission

end QStar.Ninja
