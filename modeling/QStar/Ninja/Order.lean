import QStar.Ninja.Emit

/-!
# What is emitted

An emission takes every node from its graph, each once, and a target never comes
without the object libraries and the dependencies of its closure.
-/
namespace QStar.Ninja

open QStar.Lib.CStrings
open QStar.Lib.Results
open QStar.Lib.Search
open QStar.Base
open QStar.BuildGraph
open QStar.Lowering

/-- A node is declared in the graph. -/
def EmitNode.Declared (g : Graph) : EmitNode → Prop
  | .target t => t ∈ g.targets
  | .genrule _ r => r ∈ g.genrules
  | .stage s => s ∈ g.stages

/-- What a target needs in its closure. -/
def Needs (g : Graph) (t o : Target) : Prop :=
  ∃ label ∈ t.objects ++ (t.deps ++ t.privateDeps), findTarget g label = some o

/-- Nodes that are declared, and targets that come with what they need. -/
structure Requested (g : Graph) (nodes : List EmitNode) : Prop where
  declared : ∀ n ∈ nodes, n.Declared g
  closed : ∀ t, .target t ∈ nodes → ∀ o, Needs g t o → .target o ∈ nodes

section Requested

variable {g : Graph} {xs ys : List EmitNode}

theorem requested_nil (g : Graph) : Requested g [] where
  declared := by simp
  closed := by simp

theorem Requested.append (hxs : Requested g xs) (hys : Requested g ys) :
    Requested g (xs ++ ys) where
  declared := by
    intro n hn
    rcases List.mem_append.mp hn with hn | hn
    · exact hxs.declared n hn
    · exact hys.declared n hn
  closed := by
    intro t ht o ho
    rcases List.mem_append.mp ht with ht | ht
    · exact List.mem_append_left _ (hxs.closed t ht o ho)
    · exact List.mem_append_right _ (hys.closed t ht o ho)

theorem requested_flatten {lists : List (List EmitNode)} (h : ∀ xs ∈ lists, Requested g xs) :
    Requested g lists.flatten := by
  induction lists with
  | nil => exact requested_nil g
  | cons xs rest ih =>
    rw [List.flatten_cons]
    exact (h xs (by simp)).append (ih fun ys hys => h ys (by simp [hys]))

/-- A pass over items requests what each of them does. -/
theorem requested_mapM {f : Bytes → Except LoweringError (List EmitNode)} {items : List Bytes}
    {lists : List (List EmitNode)} (hf : ∀ item nodes, f item = .ok nodes → Requested g nodes)
    (h : items.mapM f = .ok lists) : Requested g lists.flatten := by
  refine requested_flatten ?_
  intro xs hxs
  obtain ⟨item, -, hitem⟩ := mapM_eq_ok_mem h xs hxs
  exact hf item xs hitem

/-- Generated actions come alone. -/
theorem requested_genrules {consumer : Option Target} {rules : List Genrule}
    (h : ∀ r ∈ rules, r ∈ g.genrules) : Requested g (rules.map (.genrule consumer)) where
  declared := by
    intro n hn
    obtain ⟨r, hr, rfl⟩ := List.mem_map.mp hn
    exact h r hr
  closed := by
    intro t ht
    obtain ⟨r, -, hr⟩ := List.mem_map.mp ht
    cases hr

theorem requested_stage {s : Stage} (h : s ∈ g.stages) : Requested g [.stage s] where
  declared := by
    intro n hn
    rw [List.mem_singleton] at hn
    exact hn ▸ h
  closed := by
    intro t ht
    rw [List.mem_singleton] at ht
    cases ht

theorem requested_closure {label : Option Bytes} {closure : List Target}
    (h : buildClosure g label = .ok closure) : Requested g (closure.map .target) where
  declared := by
    intro n hn
    obtain ⟨t, ht, rfl⟩ := List.mem_map.mp hn
    exact buildClosure_mem h t ht
  closed := by
    intro t ht o ⟨name, hname, ho⟩
    obtain ⟨t', ht', heq⟩ := List.mem_map.mp ht
    cases heq
    exact List.mem_map_of_mem (buildClosure_closed h ht' hname ho)

end Requested

/-! ## Producers -/

section Producers

variable {g : Graph} {nodes : List EmitNode}

theorem findOutputOwner_mem {path : Bytes} {r : Genrule} (h : findOutputOwner g path = some r) :
    r ∈ g.genrules := List.mem_of_find?_eq_some h

theorem requested_findGenrule (label : Bytes) :
    Requested g ((findGenrule g label).toList.map (.genrule none)) := by
  refine requested_genrules ?_
  intro r hr
  exact findGenrule_mem (Option.mem_toList.mp hr)

theorem labelProducer_requested {label : Bytes} (h : labelProducer g label = .ok nodes) :
    Requested g nodes := by
  unfold labelProducer at h
  split at h
  · obtain ⟨closure, hclosure, h⟩ := bind_eq_ok.mp h
    cases h
    exact requested_closure hclosure
  · cases h
    exact requested_findGenrule label

theorem outputProducer_requested (path : Bytes) : Requested g (outputProducer g path) := by
  refine requested_genrules ?_
  intro r hr
  exact findOutputOwner_mem (Option.mem_toList.mp hr)

theorem itemProducer_requested {item : Bytes} (h : itemProducer g item = .ok nodes) :
    Requested g nodes := by
  unfold itemProducer at h
  split at h
  · cases h
  · exact labelProducer_requested h
  · cases h
    exact outputProducer_requested item

theorem genruleItemProducer_requested {r : Genrule} {item : Bytes}
    (h : genruleItemProducer g r item = .ok nodes) : Requested g nodes := by
  unfold genruleItemProducer at h
  split at h
  · cases h
    refine requested_genrules ?_
    intro owner howner
    exact findOutputOwner_mem (Option.mem_toList.mp (List.mem_filter.mp howner).1)
  · exact itemProducer_requested h

theorem runItemProducer_requested {item : Bytes} (h : runItemProducer g item = .ok nodes) :
    Requested g nodes := by
  unfold runItemProducer at h
  split at h
  · cases h
    exact requested_nil g
  · cases h
  · split at h
    · cases h
    · exact labelProducer_requested h

theorem runInputProducer_requested {item : Bytes} (h : runInputProducer g item = .ok nodes) :
    Requested g nodes := by
  unfold runInputProducer at h
  split at h
  · cases h
  · split at h
    · cases h
    · rename_i stage hstage
      cases h
      exact requested_stage (List.mem_of_find?_eq_some hstage)
  · split at h
    · cases h
      exact outputProducer_requested item
    · exact runItemProducer_requested h

theorem depGenruleProducers_requested (t : Target) : Requested g (depGenruleProducers g t) := by
  unfold depGenruleProducers
  rw [List.flatMap_def]
  refine requested_flatten ?_
  intro xs hxs
  obtain ⟨label, -, rfl⟩ := List.mem_map.mp hxs
  exact requested_findGenrule label

theorem usageItemProducers_requested {phase : UsagePhase} {t : Target}
    (h : usageItemProducers g phase t = .ok nodes) : Requested g nodes := by
  obtain ⟨usage, -, h⟩ := bind_eq_ok.mp h
  obtain ⟨lists, hlists, h⟩ := bind_eq_ok.mp h
  cases h
  exact requested_mapM (fun item nodes => itemProducer_requested) hlists

theorem compiledProducers_requested {t : Target} (h : compiledProducers g t = .ok nodes) :
    Requested g nodes := by
  obtain ⟨u, -, h⟩ := bind_eq_ok.mp h
  obtain ⟨links, hlinks, h⟩ := bind_eq_ok.mp h
  obtain ⟨compileUsage, hcompile, h⟩ := bind_eq_ok.mp h
  obtain ⟨linkUsage, hlink, h⟩ := bind_eq_ok.mp h
  cases h
  have hconsumed : Requested g (consumedGenrules g t) :=
    requested_genrules fun r hr => (List.mem_filter.mp hr).1
  have hlinks' := requested_mapM (fun item nodes => itemProducer_requested) hlinks
  exact ((hconsumed.append hlinks').append (usageItemProducers_requested hcompile)).append
    (usageItemProducers_requested hlink)

theorem kindProducers_requested {t : Target} (h : kindProducers g t = .ok nodes) :
    Requested g nodes := by
  unfold kindProducers at h
  split at h
  · cases h
    exact requested_nil g
  · split at h
    · obtain ⟨inputs, hinputs, h⟩ := bind_eq_ok.mp h
      obtain ⟨command, hcommand, h⟩ := bind_eq_ok.mp h
      cases h
      exact (requested_mapM (fun item nodes => runInputProducer_requested) hinputs).append
        (requested_mapM (fun item nodes => runItemProducer_requested) hcommand)
    · split at h
      · exact compiledProducers_requested h
      · cases h

theorem producers_requested {n : EmitNode} (h : n.producers g = .ok nodes) :
    Requested g nodes := by
  cases n with
  | target t =>
    obtain ⟨kind, hkind, h⟩ := bind_eq_ok.mp h
    cases h
    exact (depGenruleProducers_requested t).append (kindProducers_requested hkind)
  | genrule consumer r =>
    obtain ⟨lists, hlists, h⟩ := bind_eq_ok.mp h
    cases h
    exact requested_mapM (fun item nodes => genruleItemProducer_requested) hlists
  | stage s =>
    obtain ⟨lists, hlists, h⟩ := bind_eq_ok.mp h
    cases h
    exact requested_mapM (fun item nodes => itemProducer_requested) hlists

theorem emitRoots_requested {label : Option Bytes} (h : emitRoots g label = .ok nodes) :
    Requested g nodes := by
  have hgenrule : ∀ r, (if label.getD [] = [] then none else findGenrule g (label.getD [])) =
      some r → r ∈ g.genrules := by
    intro r hr
    split at hr
    · cases hr
    · exact findGenrule_mem hr
  have hstage : ∀ s, (if label.getD [] = [] then none else findStage g (label.getD [])) =
      some s → s ∈ g.stages := by
    intro s hs
    split at hs
    · cases hs
    · exact List.mem_of_find?_eq_some hs
  unfold emitRoots at h
  simp only at h
  split at h
  · rename_i r hr
    cases h
    exact @requested_genrules g none [r] (by simpa using hgenrule r hr)
  · split at h
    · rename_i s hs
      cases h
      exact requested_stage (hstage s hs)
    · obtain ⟨closure, hclosure, h⟩ := bind_eq_ok.mp h
      cases h
      exact requested_closure hclosure

end Producers

/-! ## The emitted nodes -/

section Order

variable {g : Graph} {label : Option Bytes} {order : List EmitNode}

/-- Every emitted node was requested by a list that asks for nothing that is not emitted. -/
theorem emitOrder_requested (h : emitOrder g label = .ok order) {n : EmitNode} (hn : n ∈ order) :
    ∃ nodes, Requested g nodes ∧ n ∈ nodes ∧
      ∀ m ∈ nodes, m.key ∈ order.map EmitNode.key := by
  obtain ⟨roots, hroots, hsearch⟩ := bind_eq_ok.mp h
  obtain ⟨-, hmet, hclosed⟩ := search_spec hsearch
  rcases search_wanted hsearch n hn with hroot | ⟨k, hk, asked, hasked, hmem⟩
  · exact ⟨roots, emitRoots_requested hroots, hroot, hmet⟩
  · obtain ⟨asked', hasked', hkeys⟩ := hclosed k hk
    rw [hasked, Except.ok.injEq] at hasked'
    subst hasked'
    exact ⟨asked, producers_requested hasked, hmem, hkeys⟩

theorem emitOrder_declared (h : emitOrder g label = .ok order) {n : EmitNode} (hn : n ∈ order) :
    n.Declared g := by
  obtain ⟨nodes, hrequested, hmem, -⟩ := emitOrder_requested h hn
  exact hrequested.declared n hmem

theorem emitOrder_nodup (h : emitOrder g label = .ok order) :
    (order.map EmitNode.key).Nodup := by
  obtain ⟨roots, -, hsearch⟩ := bind_eq_ok.mp h
  exact (search_spec hsearch).1

/-- A target is emitted when its key is. -/
theorem target_mem_of_key (h : emitOrder g label = .ok order) {t : Target} (ht : t ∈ g.targets)
    (hkey : EmitKey.target t.label ∈ order.map EmitNode.key) : .target t ∈ order := by
  obtain ⟨n, hn, hlabel⟩ := List.mem_map.mp hkey
  cases n with
  | target t' =>
    have hmem : t' ∈ g.targets := emitOrder_declared h hn
    have hsame : t' = t := eq_of_label hmem ht (EmitKey.target.inj hlabel)
    exact hsame ▸ hn
  | genrule consumer r => cases hlabel
  | stage s => cases hlabel

/-- The target that was asked for is emitted. -/
theorem emitOrder_root {name : Bytes} (h : emitOrder g (some name) = .ok order) {t : Target}
    (ht : findTarget g name = some t) (hstage : findStage g name = none) : .target t ∈ order := by
  have hmem := findTarget_mem ht
  have hname : name ≠ [] := findTarget_label ht ▸ t.label_ne
  have hgenrule : findGenrule g name = none := findTarget_label ht ▸ findGenrule_target hmem
  obtain ⟨roots, hroots, hsearch⟩ := bind_eq_ok.mp h
  simp only [emitRoots, Option.getD_some, hname, if_false, hgenrule, hstage] at hroots
  obtain ⟨closure, hclosure, hroots⟩ := bind_eq_ok.mp hroots
  cases hroots
  refine target_mem_of_key h hmem ((search_spec hsearch).2.1 (.target t) ?_)
  exact List.mem_map_of_mem (buildClosure_root hclosure ht)

/-- What an emitted target needs is emitted. -/
theorem emitOrder_closed (h : emitOrder g label = .ok order) {t o : Target}
    (ht : .target t ∈ order) (ho : Needs g t o) : .target o ∈ order := by
  obtain ⟨nodes, hrequested, hmem, hkeys⟩ := emitOrder_requested h ht
  have hnodes := hrequested.closed t hmem o ho
  obtain ⟨name, -, hfind⟩ := ho
  exact target_mem_of_key h (findTarget_mem hfind) (hkeys (.target o) hnodes)

/-- The producers of an emitted node were found, and are emitted. -/
theorem emitOrder_producers (h : emitOrder g label = .ok order) {n : EmitNode} (hn : n ∈ order) :
    ∃ asked, n.producers g = .ok asked ∧ ∀ m ∈ asked, m.key ∈ order.map EmitNode.key := by
  obtain ⟨roots, -, hsearch⟩ := bind_eq_ok.mp h
  exact (search_spec hsearch).2.2 n hn

end Order

end QStar.Ninja
