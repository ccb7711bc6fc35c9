import QStar.Scheduler.Creation

/-!
# The schedule of a label

The node graph of what was found for a label has just the nodes that the label needs and
just the edges along which they wait for each other. What a node names is scheduled with
it, but for two kinds of names that discovery does not look at.
-/
namespace QStar.Scheduler.Schedule

open QStar.Lib.CStrings
open QStar.Lib.Fixpoints
open QStar.Lib.Results
open QStar.Base
open QStar.BuildGraph
open QStar.Lowering
open QStar.Scheduler.NodeGraph
open QStar.Scheduler.Discovery
open QStar.Scheduler.Edges
open QStar.Scheduler.Connecting
open QStar.Scheduler.Creation

/-! ## The edges of a schedule -/

/-- An edge to a node from one it waits for. -/
def WaitEdge (g : Graph) (p : Plan) (n d : Nat) : Prop :=
  ∃ a b, (infos p)[n]? = some a ∧ (infos p)[d]? = some b ∧ Waits g a b

section Edges

variable {g : Graph} {f : Found} {p : Plan} {t : Target} {q : Producer} {n d : Nat}
  {a : SchedNode}

theorem labelProducer_known {label : Bytes} (hq : q ∈ labelProducer g label) : Known g q := by
  unfold labelProducer at hq
  split at hq
  · rename_i t ht
    rw [List.mem_singleton.mp hq]
    exact findTarget_mem ht
  · obtain ⟨r, hr, rfl⟩ := List.mem_map.mp hq
    exact findGenrule_mem (Option.mem_toList.mp hr)

theorem itemNames_known {item : Bytes} (hq : ItemNames g item q) : Known g q := by
  obtain ⟨named, hnamed, hq⟩ := hq
  unfold targetFileItem at hnamed
  split at hnamed <;> cases hnamed
  · exact labelProducer_known hq
  · obtain ⟨r, hr, rfl⟩ := List.mem_map.mp hq
    exact List.mem_of_find?_eq_some (Option.mem_toList.mp hr)

theorem genruleItemNames_known {r : Genrule} {item : Bytes} (hq : GenruleItemNames g r item q) :
    Known g q := by
  obtain ⟨named, hnamed, hq⟩ := hq
  unfold genruleItem at hnamed
  split at hnamed <;> cases hnamed
  · exact labelProducer_known hq
  · obtain ⟨r, hr, rfl⟩ := List.mem_map.mp hq
    exact List.mem_of_find?_eq_some (Option.mem_toList.mp (List.mem_filter.mp hr).1)

theorem usageNames_known {phase : UsagePhase} (hq : UsageNames g phase t q) : Known g q := by
  obtain ⟨usage, -, item, -, hq⟩ := hq
  exact itemNames_known hq

theorem consumedNames_known {consumes : Genrule → Bool} (hq : ConsumedNames g consumes q) :
    Known g q := by
  obtain ⟨r, hr, -, rfl⟩ := hq
  exact hr

theorem targetNames_known (hq : TargetNames g t q) : Known g q := by
  rcases hq with (⟨label, -, -, hq⟩ | ⟨-, ⟨word, -, hq⟩ | ⟨item, -, hq⟩⟩) | ⟨-, hq | hq | ⟨item, -, hq⟩⟩
  · exact labelProducer_known hq
  · exact itemNames_known hq
  · cases hq with
    | stage _ hs => exact List.mem_of_find?_eq_some hs
    | file _ hq => exact itemNames_known hq
  · exact consumedNames_known hq
  · exact usageNames_known hq
  · exact itemNames_known hq

/-- A node names producers of the graph. -/
theorem names_known (hq : Names g a q) : Known g q := by
  cases a with
  | generate r =>
    obtain ⟨item, -, hq⟩ := hq
    exact genruleItemNames_known hq
  | stage s =>
    obtain ⟨item, -, hq⟩ := hq
    exact itemNames_known hq
  | cxxPch t => exact hq.elim itemNames_known usageNames_known
  | compile t owner i k => exact hq.elim consumedNames_known usageNames_known
  | group t => exact targetNames_known hq
  | run t => exact targetNames_known hq
  | metadata t => exact targetNames_known hq
  | objectlib t => exact targetNames_known hq
  | final t => exact targetNames_known hq

variable (hp : Created g f p) (htargets : ∀ t ∈ f.targets, t ∈ g.targets)
include hp

theorem mem_schedule_of_get (ha : (infos p)[n]? = some a) : a ∈ schedule g f :=
  hp.infos_eq ▸ List.mem_of_getElem? ha

theorem mem_targetSched (ha : (infos p)[n]? = some a) (ht : targetOf a = some t) :
    t ∈ f.targets ∧ a ∈ targetSched g t := by
  rcases mem_schedule.mp (mem_schedule_of_get hp ha) with ⟨o, ho, ha⟩ | ⟨r, -, -, rfl⟩ | ⟨s, -, rfl⟩
  · rw [targetOf_mem ha, Option.some.injEq] at ht
    exact ht ▸ ⟨ho, ha⟩
  · cases ht
  · cases ht

/-- Only targets that are compiled have nodes before the last one. -/
theorem hasToolchain_of_get (ha : (infos p)[n]? = some a) (ht : targetOf a = some t)
    (hinner : producerOf a = none) : t ∈ f.targets ∧ hasNoToolchain t = false := by
  obtain ⟨ht, hmem⟩ := mem_targetSched hp ha ht
  rcases List.mem_append.mp hmem with hmem | hmem
  · exact ⟨ht, (mem_innerNodes hmem).1⟩
  · rw [List.mem_singleton.mp hmem, show finalNode t = producerNode (.target t) from rfl,
      producerOf_producerNode] at hinner
    cases hinner

theorem edge_of_producer (hq : Known g q) (h : ProducerEdges g p q n d) : WaitEdge g p n d := by
  obtain ⟨hn, -, b, hb, hd⟩ := h
  exact ⟨_, _, (hp.located q hq n).mp hn, (hp.located b (names_known hb) d).mp hd, .producer hb⟩

include htargets

theorem mem_compiles (ht : t ∈ f.targets) {c : CompileAt} : c ∈ p.compiles t ↔
    ∃ k, (infos p)[c.index]? = some (.compile t c.owner c.sourceIndex k) := by
  simp only [Plan.compiles, Plan.indexed, List.mem_filterMap, Prod.exists,
    List.mk_mem_zipIdx_iff_getElem?]
  constructor
  · rintro ⟨a, j, ha, hc⟩
    split at hc
    · rename_i o owner source k j' heq
      obtain ⟨rfl, rfl⟩ := Prod.mk.inj heq
      split at hc
      · rename_i hlabel
        cases hc
        have ho := (mem_targetSched (t := o) hp ha rfl).1
        obtain rfl := eq_of_label (htargets o ho) (htargets t ht) hlabel
        exact ⟨k, ha⟩
      · cases hc
    · cases hc
  · rintro ⟨k, hc⟩
    exact ⟨_, _, hc, by simp⟩

theorem mem_pchs (ht : t ∈ f.targets) {j : Nat} :
    j ∈ p.pchs t ↔ (infos p)[j]? = some (.cxxPch t) := by
  simp only [Plan.pchs, Plan.indexed, List.mem_filterMap, Prod.exists,
    List.mk_mem_zipIdx_iff_getElem?]
  constructor
  · rintro ⟨a, i, ha, hj⟩
    split at hj
    · rename_i o i' heq
      obtain ⟨rfl, rfl⟩ := Prod.mk.inj heq
      split at hj
      · rename_i hlabel
        cases hj
        have ho := (mem_targetSched (t := o) hp ha rfl).1
        obtain rfl := eq_of_label (htargets o ho) (htargets t ht) hlabel
        exact ha
      · cases hj
    · cases hj
  · intro hj
    exact ⟨_, _, hj, by simp⟩

theorem edge_of_target (hnodup : (schedule g f).Nodup) (ht : t ∈ f.targets)
    (h : TargetEdges g p t n d) : WaitEdge g p n d := by
  have hnode : ∀ q, Known g q → ∀ n, node p q = some n → (infos p)[n]? = some (producerNode q) :=
    fun q hq n hn => (hp.located q hq n).mp hn
  obtain ⟨final, hfinal, h⟩ := h
  have hfinal := hnode (.target t) (htargets t ht) final hfinal
  rcases h with ⟨rfl, q, hq, hd⟩ | ⟨-, ⟨c, hc, ⟨rfl, rfl⟩ | ⟨rfl, q, hq, hd⟩⟩ |
    ⟨j, hj, ⟨rfl, q, hq, hd⟩ | ⟨c, hc, hcxx, rfl, rfl⟩⟩ |
    ⟨hmodules, c, hc, hinterface, u, hu, hne, hwaits, rfl, rfl⟩⟩
  · exact ⟨_, _, hfinal, hnode q (targetNames_known hq) d hd, .producer (names_finalNode.mpr hq)⟩
  · obtain ⟨k, hc⟩ := (mem_compiles hp htargets ht).mp hc
    exact ⟨_, _, hfinal, hc, .object⟩
  · obtain ⟨k, hc⟩ := (mem_compiles hp htargets ht).mp hc
    exact ⟨_, _, hc, hnode q (names_known hq) d hd, .producer hq⟩
  · exact ⟨_, _, (mem_pchs hp htargets ht).mp hj, hnode q (names_known hq) d hd, .producer hq⟩
  · obtain ⟨k, hc⟩ := (mem_compiles hp htargets ht).mp hc
    exact ⟨_, _, hc, (mem_pchs hp htargets ht).mp hj, .header hcxx⟩
  · obtain ⟨k, hc⟩ := (mem_compiles hp htargets ht).mp hc
    obtain ⟨k', hu⟩ := (mem_compiles hp htargets ht).mp hu
    refine ⟨_, _, hu, hc, .interface hmodules hinterface hwaits fun hsame => hne ?_⟩
    rw [hp.infos_eq] at hu hc
    have hlt := (List.getElem?_eq_some_iff.mp hu).1
    exact (List.getElem?_inj hlt hnodup).mp (hu.trans (hsame ▸ hc).symm)

theorem final_noted (ht : t ∈ f.targets) : ∃ final, node p (.target t) = some final := by
  have hmem : finalNode t ∈ infos p :=
    hp.infos_eq ▸ mem_schedule.mpr (.inl ⟨t, ht, by simp [targetSched]⟩)
  obtain ⟨final, hget⟩ := List.mem_iff_getElem?.mp hmem
  exact ⟨final, (hp.located (.target t) (htargets t ht) final).mpr hget⟩

/-- What a node of a target waits for by name. -/
theorem edge_of_names (ht : t ∈ f.targets) (hmem : a ∈ targetSched g t)
    (ha : (infos p)[n]? = some a) (hq : Names g a q) (hd : node p q = some d) :
    TargetEdges g p t n d := by
  obtain ⟨final, hfinal⟩ := final_noted hp htargets ht
  refine ⟨final, hfinal, ?_⟩
  rcases List.mem_append.mp hmem with hmem | hmem
  · obtain ⟨hkind, hmem⟩ := mem_innerNodes hmem
    refine .inr ⟨hkind, ?_⟩
    rcases mem_compileNodes hmem with ⟨-, rfl⟩ | ⟨i, -, rfl⟩ | ⟨o, i, k, -, rfl⟩
    · exact .inr (.inl ⟨n, (mem_pchs hp htargets ht).mpr ha, .inl ⟨rfl, q, hq, hd⟩⟩)
    · exact .inl ⟨⟨n, t, i⟩, (mem_compiles hp htargets ht).mpr ⟨i, ha⟩, .inr ⟨rfl, q, hq, hd⟩⟩
    · exact .inl ⟨⟨n, o, i⟩, (mem_compiles hp htargets ht).mpr ⟨k, ha⟩, .inr ⟨rfl, q, hq, hd⟩⟩
  · obtain rfl := List.mem_singleton.mp hmem
    have hn := (hp.located (.target t) (htargets t ht) n).mpr ha
    cases hfinal.symm.trans hn
    exact .inl ⟨rfl, q, names_finalNode.mp hq, hd⟩

/-- What is added for the producers that were found are the edges along which they wait. -/
theorem edges_iff (hnodup : (schedule g f).Nodup) :
    ((∃ r ∈ g.genrules, ProducerEdges g p (.genrule r) n d) ∨
      (∃ s ∈ g.stages, ProducerEdges g p (.stage s) n d) ∨
      ∃ t ∈ f.targets, TargetEdges g p t n d) ↔ WaitEdge g p n d := by
  constructor
  · rintro (⟨r, hr, h⟩ | ⟨s, hs, h⟩ | ⟨t, ht, h⟩)
    · exact edge_of_producer (q := .genrule r) hp hr h
    · exact edge_of_producer (q := .stage s) hp hs h
    · exact edge_of_target hp htargets hnodup ht h
  · rintro ⟨a, b, ha, hb, hwaits⟩
    cases hwaits with
    | @producer _ q hq =>
      have hd := (hp.located q (names_known hq) d).mpr hb
      rcases mem_schedule.mp (mem_schedule_of_get hp ha) with ⟨t, ht, hmem⟩ | ⟨r, hr, -, rfl⟩ |
        ⟨s, hs, rfl⟩
      · exact .inr (.inr ⟨t, ht, edge_of_names hp htargets ht hmem ha hq hd⟩)
      · exact .inl ⟨r, hr, (hp.located (.genrule r) hr n).mpr ha, rfl, q, hq, hd⟩
      · have hs := (List.mem_filter.mp hs).1
        exact .inr (.inl ⟨s, hs, (hp.located (.stage s) hs n).mpr ha, rfl, q, hq, hd⟩)
    | @object t owner i k =>
      obtain ⟨ht, hkind⟩ := hasToolchain_of_get hp hb rfl rfl
      have hn := (hp.located (.target t) (htargets t ht) n).mpr ha
      have hc := (mem_compiles hp htargets ht (c := ⟨d, owner, i⟩)).mpr ⟨k, hb⟩
      exact .inr (.inr ⟨t, ht, n, hn, .inr ⟨hkind, .inl ⟨_, hc, .inl ⟨rfl, rfl⟩⟩⟩⟩)
    | @header t owner i k hcxx =>
      obtain ⟨ht, hkind⟩ := hasToolchain_of_get hp hb rfl rfl
      obtain ⟨final, hfinal⟩ := final_noted hp htargets ht
      have hc := (mem_compiles hp htargets ht (c := ⟨n, owner, i⟩)).mpr ⟨k, ha⟩
      have hj := (mem_pchs hp htargets ht).mpr hb
      exact .inr (.inr ⟨t, ht, final, hfinal,
        .inr ⟨hkind, .inr (.inl ⟨d, hj, .inr ⟨_, hc, hcxx, rfl, rfl⟩⟩)⟩⟩)
    | @interface t owner owner' i k i' k' hmodules hinterface hwaits hne =>
      obtain ⟨ht, hkind⟩ := hasToolchain_of_get hp hb rfl rfl
      obtain ⟨final, hfinal⟩ := final_noted hp htargets ht
      have hc := (mem_compiles hp htargets ht (c := ⟨d, owner, i⟩)).mpr ⟨k, hb⟩
      have hu := (mem_compiles hp htargets ht (c := ⟨n, owner', i'⟩)).mpr ⟨k', ha⟩
      have hapart : n ≠ d := by
        rintro rfl
        exact hne (Option.some.inj (ha.symm.trans hb))
      exact .inr (.inr ⟨t, ht, final, hfinal, .inr ⟨hkind,
        .inr (.inr ⟨hmodules, _, hc, hinterface, _, hu, hapart, hwaits, rfl, rfl⟩)⟩⟩)

end Edges

/-! ## What was found -/

section Found

variable {g : Graph} {label : Option Bytes} {f f' : Found} {t : Target} {q : Producer}
  {asked : List Producer}

/-- The targets stand once, and stages are found because they are needed. -/
structure FoundWell (g : Graph) (label : Option Bytes) (f : Found) : Prop where
  nodup : (f.targets.map Target.label).Nodup
  stages : ∀ s ∈ f.stages, Needed g label (.stage s)

theorem foundWell_addTarget (hf : FoundWell g label f) (t : Target) :
    FoundWell g label (f.addTarget t) := by
  unfold Found.addTarget
  split
  · exact hf
  · rename_i hnew
    refine ⟨?_, hf.stages⟩
    rw [List.map_append, List.nodup_append]
    refine ⟨hf.nodup, by simp, ?_⟩
    intro o ho l hl heq
    obtain ⟨o', ho', rfl⟩ := List.mem_map.mp ho
    obtain rfl : l = t.label := by simpa using hl
    exact hnew (List.any_eq_true.mpr ⟨o', ho', decide_eq_true heq⟩)

theorem foundWell_closure (hf : FoundWell g label f) {name : Option Bytes}
    (h : f.addTargetClosure g name = .ok f') : FoundWell g label f' := by
  obtain ⟨closure, -, hadded⟩ := bind_eq_ok.mp h
  clear h
  cases hadded
  induction closure generalizing f with
  | nil => exact hf
  | cons t rest ih => exact ih (foundWell_addTarget hf t)

theorem foundWell_mark (hf : FoundWell g label f) (r : Genrule) :
    FoundWell g label (f.markGenrule r) := by
  unfold Found.markGenrule
  split
  · exact hf
  · exact ⟨hf.nodup, hf.stages⟩

theorem foundWell_add (hf : FoundWell g label f) (hq : Needed g label q)
    (h : f.add g q = .ok f') : FoundWell g label f' := by
  cases q with
  | target t => exact foundWell_closure hf h
  | genrule r =>
    cases h
    exact foundWell_mark hf r
  | stage s =>
    cases h
    unfold Found.markStage
    split
    · exact hf
    · refine ⟨hf.nodup, ?_⟩
      intro s' hs'
      rcases List.mem_append.mp hs' with hs' | hs'
      · exact hf.stages s' hs'
      · rw [List.mem_singleton.mp hs']
        exact hq

theorem foundWell_adds {p : Producer} (hsound : Sound g label f) (hp : Needed g label p)
    (hasked : p.asked g = .ok asked) (hf : FoundWell g label f)
    (h : asked.foldlM (Found.add g) f = .ok f') : FoundWell g label f' := by
  have hneeded : ∀ q ∈ asked, q.Declared g ∧ Needed g label q :=
    fun q hq => ⟨asked_declared hasked hq, hp.step (.asked hasked hq)⟩
  clear hasked
  induction asked generalizing f with
  | nil =>
    cases h
    exact hf
  | cons q rest ih =>
    rw [List.foldlM_cons] at h
    obtain ⟨mid, hmid, h⟩ := bind_eq_ok.mp h
    obtain ⟨⟨hdeclared, hq⟩, hrest⟩ := List.forall_mem_cons.mp hneeded
    exact ih (add_spec hsound hdeclared hq hmid).2.1 (foundWell_add hf hq hmid) h hrest

theorem foundWell_targets {fuel i : Nat} (hsound : Sound g label f) (hf : FoundWell g label f)
    (h : discoverTargets g fuel i f = .ok f') : FoundWell g label f' := by
  induction fuel generalizing i f with
  | zero => cases h
  | succ fuel ih =>
    unfold discoverTargets at h
    split at h
    · cases h
      exact hf
    · rename_i t ht
      obtain ⟨asked, hasked, h⟩ := bind_eq_ok.mp h
      obtain ⟨mid, hmid, h⟩ := bind_eq_ok.mp h
      obtain ⟨-, hneeded⟩ := hsound.targets t (List.mem_of_getElem? ht)
      exact ih (discover_spec (p := .target t) hsound hneeded hasked hmid).2.1
        (foundWell_adds (p := .target t) hsound hneeded hasked hf hmid) h

theorem foundWell_genrules {rules : List Genrule} (hrules : ∀ r ∈ rules, r ∈ g.genrules)
    (hsound : Sound g label f) (hf : FoundWell g label f)
    (h : rules.foldlM (discoverGenrule g) f = .ok f') : FoundWell g label f' := by
  induction rules generalizing f with
  | nil =>
    cases h
    exact hf
  | cons r rest ih =>
    rw [List.foldlM_cons] at h
    obtain ⟨mid, hmid, h⟩ := bind_eq_ok.mp h
    obtain ⟨hr, hrest⟩ := List.forall_mem_cons.mp hrules
    refine ih hrest (discoverGenrule_spec hr hsound hmid).2.1 ?_ h
    unfold discoverGenrule at hmid
    split at hmid
    · rename_i hneeds
      obtain ⟨asked, hasked, hmid⟩ := bind_eq_ok.mp hmid
      obtain ⟨-, hneeded⟩ := hsound.genrules r (mem_of_needs hsound hr hneeds)
      exact foundWell_adds (p := .genrule r) hsound hneeded hasked hf hmid
    · cases hmid
      exact hf

/-- Discovery ends with targets that stand once, and with an answer to each of them. -/
theorem foundWell_discover (h : schedulerDiscover g label = .ok f) :
    FoundWell g label f ∧ (∀ t ∈ f.targets, f.Answers g (.target t)) ∧
      ∀ r ∈ f.genrules, f.Answers g (.genrule r) := by
  obtain ⟨start, hstart, h⟩ := bind_eq_ok.mp h
  have hwell : FoundWell g label start := by
    have hempty : FoundWell g label ⟨[], [], []⟩ := ⟨List.nodup_nil, List.forall_mem_nil _⟩
    unfold discoverRoots at hstart
    split at hstart
    · cases hstart
      exact foundWell_mark hempty _
    · exact foundWell_closure hempty hstart
  obtain ⟨last, ⟨hsound, hlast⟩, hpass, hsize⟩ :=
    settle_last (I := fun f => Sound g label f ∧ FoundWell g label f)
      (fun f next hinv hnext => by
        refine ⟨(discoverPass_spec hinv.1 hnext).2.1, ?_⟩
        obtain ⟨mid, hmid, hnext⟩ := bind_eq_ok.mp hnext
        exact foundWell_genrules (fun _ hr => hr) (discoverTargets_spec hinv.1 hmid).2.1
          (foundWell_targets hinv.1 hinv.2 hmid) hnext)
      ⟨(discoverRoots_spec hstart).1, hwell⟩ h
  obtain ⟨hgrown, -, htargets, hgenrules⟩ := discoverPass_spec hsound hpass
  obtain rfl := hgrown.eq_of_size hsize
  exact ⟨hlast, htargets, hgenrules⟩

/-- The results of a pass over items are those of its items. -/
theorem mem_flatten_of_mapM {c : Bytes → Except LoweringError (List Producer)} {items : List Bytes}
    {results : List (List Producer)} (h : items.mapM c = .ok results) :
    q ∈ results.flatten ↔ ∃ item ∈ items, ∃ named, c item = .ok named ∧ q ∈ named := by
  constructor
  · intro hq
    obtain ⟨named, hnamed, hq⟩ := List.mem_flatten.mp hq
    obtain ⟨item, hitem, hok⟩ := mapM_eq_ok_mem h named hnamed
    exact ⟨item, hitem, named, hok, hq⟩
  · rintro ⟨item, hitem, named, hok, hq⟩
    obtain ⟨named', hnamed, hok'⟩ := mapM_eq_ok_of_mem h hitem
    cases hok.symm.trans hok'
    exact List.mem_flatten.mpr ⟨named, hnamed, hq⟩

theorem mem_usageItems {phase : UsagePhase} {items : List Producer}
    (h : usageItems g phase t = .ok items) : q ∈ items ↔ UsageNames g phase t q := by
  obtain ⟨usage, husage, h⟩ := bind_eq_ok.mp h
  obtain ⟨results, hresults, h⟩ := bind_eq_ok.mp h
  cases h
  rw [mem_flatten_of_mapM hresults, UsageNames]
  simp only [husage, Except.ok.injEq, exists_eq_left']
  rfl

/-- A token in an item names a producer. -/
def TokenNames (g : Graph) (item : Bytes) (q : Producer) : Prop :=
  ∃ named, tokenItem g item = .ok named ∧ q ∈ named

/-- What an item of a run target asks for: a stage comes with its sources. -/
def RunInputAsks (g : Graph) (item : Bytes) (q : Producer) : Prop :=
  ∃ named, runInputItem g item = .ok named ∧ q ∈ named

/-- What a target asks for. -/
theorem mem_targetAsked (h : targetAsked g t = .ok asked) : q ∈ asked ↔
    ConsumedNames g (targetConsumesGenrule t) q ∨ q ∈ depGenrules g t ∨
    (∃ item ∈ t.linkInputs, TokenNames g item q) ∨ UsageNames g .compile t q ∨
    UsageNames g .link t q ∨ t.kind = .runTarget ∧
      ((∃ item ∈ t.runInputs, RunInputAsks g item q) ∨
        ∃ word ∈ t.runCommand, TokenNames g word q) := by
  obtain ⟨linkInputs, hlink, h⟩ := bind_eq_ok.mp h
  obtain ⟨compileUsage, hcompile, h⟩ := bind_eq_ok.mp h
  obtain ⟨linkUsage, husage, h⟩ := bind_eq_ok.mp h
  obtain ⟨run, hrun, h⟩ := bind_eq_ok.mp h
  cases h
  have hruns : q ∈ run ↔ t.kind = .runTarget ∧
      ((∃ item ∈ t.runInputs, RunInputAsks g item q) ∨
        ∃ word ∈ t.runCommand, TokenNames g word q) := by
    unfold runItems at hrun
    split at hrun <;> rename_i hkind
    · cases hrun
      simp [hkind]
    · obtain ⟨inputs, hinputs, hrun⟩ := bind_eq_ok.mp hrun
      obtain ⟨command, hcommand, hrun⟩ := bind_eq_ok.mp hrun
      cases hrun
      rw [List.mem_append, mem_flatten_of_mapM hinputs, mem_flatten_of_mapM hcommand]
      exact (and_iff_right (not_not.mp hkind)).symm
  have hconsumed : q ∈ consumedGenrules g t ↔ ConsumedNames g (targetConsumesGenrule t) q := by
    simp only [consumedGenrules, ConsumedNames, List.mem_map, List.mem_filter, and_assoc,
      eq_comm (b := q)]
  simp only [List.mem_append, or_assoc, hconsumed, mem_flatten_of_mapM hlink,
    mem_usageItems hcompile, mem_usageItems husage, hruns]
  rfl

theorem runInput_ok (h : targetAsked g t = .ok asked) (hkind : t.kind = .runTarget) {item : Bytes}
    (hitem : item ∈ t.runInputs) : ∃ named, runInputItem g item = .ok named := by
  obtain ⟨linkInputs, -, h⟩ := bind_eq_ok.mp h
  obtain ⟨compileUsage, -, h⟩ := bind_eq_ok.mp h
  obtain ⟨linkUsage, -, h⟩ := bind_eq_ok.mp h
  obtain ⟨run, hrun, -⟩ := bind_eq_ok.mp h
  rw [runItems, if_neg (not_not.mpr hkind)] at hrun
  obtain ⟨inputs, hinputs, -⟩ := bind_eq_ok.mp hrun
  obtain ⟨named, -, hnamed⟩ := mapM_eq_ok_of_mem hinputs hitem
  exact ⟨named, hnamed⟩

theorem runInputNames_asks {item : Bytes} (hok : ∃ named, runInputItem g item = .ok named)
    (hq : RunInputNames g item q) : RunInputAsks g item q := by
  obtain ⟨named, hnamed⟩ := hok
  refine ⟨named, hnamed, ?_⟩
  unfold runInputItem at hnamed
  cases hq with
  | stage htoken hs =>
    simp only [htoken, hs] at hnamed
    obtain ⟨results, -, hnamed⟩ := bind_eq_ok.mp hnamed
    cases hnamed
    exact List.mem_cons_self
  | file htoken hq =>
    obtain ⟨named', hnamed', hq⟩ := hq
    simp only [htoken] at hnamed
    cases hnamed.symm.trans hnamed'
    exact hq

theorem mem_genruleAsked {r : Genrule} (h : genruleAsked g r = .ok asked) :
    q ∈ asked ↔ Names g (.generate r) q := by
  obtain ⟨results, hresults, h⟩ := bind_eq_ok.mp h
  cases h
  exact mem_flatten_of_mapM hresults

theorem not_stage_label {name : Bytes} {s : Stage} : Producer.stage s ∉ labelProducer g name := by
  unfold labelProducer
  split <;> simp

theorem not_stage_item {item : Bytes} {s : Stage} : ¬ItemNames g item (.stage s) := by
  rintro ⟨named, hnamed, hq⟩
  unfold targetFileItem at hnamed
  split at hnamed <;> cases hnamed
  · exact not_stage_label hq
  · simp [outputOwner] at hq

theorem not_stage_token {item : Bytes} {s : Stage} : ¬TokenNames g item (.stage s) := by
  rintro ⟨named, hnamed, hq⟩
  unfold tokenItem at hnamed
  split at hnamed <;> cases hnamed
  · exact not_stage_label hq
  · cases hq

/-- A token item asks for what it names, a plain one for nothing. -/
theorem item_cases {item : Bytes} (hq : ItemNames g item q) : TokenNames g item q ∨
    targetFileToken item = .plain ∧ ∃ r, findOutputOwner g item = some r ∧ q = .genrule r := by
  obtain ⟨named, hnamed, hq⟩ := hq
  unfold targetFileItem at hnamed
  split at hnamed <;> rename_i htoken <;> cases hnamed
  · exact .inl ⟨_, by rw [tokenItem, htoken], hq⟩
  · obtain ⟨r, hr, rfl⟩ := List.mem_map.mp hq
    exact .inr ⟨htoken, r, Option.mem_toList.mp hr, rfl⟩

/-- A stage is needed because a run target names it, which asks for its sources too. -/
theorem needed_stage {s : Stage} (hs : Needed g label (.stage s)) :
    ∃ t asked, Needed g label (.target t) ∧ targetAsked g t = .ok asked ∧ t.kind = .runTarget ∧
      (∃ item ∈ t.runInputs, ∃ name, stageDirToken item = .payload name ∧
        findStage g name = some s) ∧ ∀ src ∈ s.srcs, ∀ q, ItemNames g src q → q ∈ asked := by
  obtain ⟨root, hroot, hreach⟩ := hs
  rcases hreach.cases_tail with rfl | ⟨a, ha, hasks⟩
  · cases hroot
  · cases hasks with
    | @asked _ _ asked hasked hq =>
      cases a with
      | stage s' =>
        cases hasked
        cases hq
      | genrule r =>
        obtain ⟨item, -, named, hnamed, hq⟩ := (mem_genruleAsked hasked).mp hq
        unfold genruleItem at hnamed
        split at hnamed <;> cases hnamed
        · exact absurd hq not_stage_label
        · simp at hq
      | target t =>
        rcases (mem_targetAsked hasked).mp hq with ⟨r, -, -, hq⟩ | hq | ⟨item, -, hq⟩ |
          ⟨usage, -, item, -, hq⟩ | ⟨usage, -, item, -, hq⟩ | ⟨hkind, ⟨item, hitem, hq⟩ | ⟨word, -, hq⟩⟩
        · cases hq
        · simp [depGenrules] at hq
        · exact absurd hq not_stage_token
        · exact absurd hq not_stage_item
        · exact absurd hq not_stage_item
        · obtain ⟨named, hnamed, hq⟩ := hq
          have hall := fun q hq => (mem_targetAsked (q := q) hasked).mpr
            (.inr (.inr (.inr (.inr (.inr ⟨hkind, .inl ⟨item, hitem, named, hnamed, hq⟩⟩)))))
          unfold runInputItem at hnamed
          split at hnamed
          · cases hnamed
          · rename_i name htoken
            split at hnamed
            · cases hnamed
            · rename_i st hst
              obtain ⟨results, hresults, hnamed⟩ := bind_eq_ok.mp hnamed
              cases hnamed
              have hsame : st = s := by
                rcases List.mem_cons.mp hq with hq | hq
                · exact (Producer.stage.inj hq).symm
                · obtain ⟨src, -, hsrc⟩ := (mem_flatten_of_mapM hresults).mp hq
                  exact absurd hsrc not_stage_item
              subst hsame
              refine ⟨t, asked, ⟨root, hroot, ha⟩, hasked, hkind, ⟨item, hitem, name, htoken, hst⟩, ?_⟩
              intro src hsrc q hq
              exact hall q (List.mem_cons_of_mem _
                ((mem_flatten_of_mapM hresults).mpr ⟨src, hsrc, hq⟩))
          · exact absurd ⟨named, hnamed, hq⟩ not_stage_item
        · exact absurd hq not_stage_token

end Found

/-! ## What is waited for is scheduled -/

/-- The nodes of a producer. -/
def nodesOf (g : Graph) : Producer → List SchedNode
  | .target t => targetSched g t
  | .genrule r => [.generate r]
  | .stage s => [.stage s]

/-- The nodes that a build of a label needs. -/
def NeededNode (g : Graph) (label : Option Bytes) (a : SchedNode) : Prop :=
  ∃ q, Needed g label q ∧ a ∈ nodesOf g q

/-- What a node names without asking for it: a plain word of a run command, and a token in the
place of a precompiled header. -/
inductive NamesOnly (g : Graph) : SchedNode → Producer → Prop where
  | word {t : Target} {word : Bytes} {r : Genrule} (hword : word ∈ t.runCommand)
      (hplain : targetFileToken word = .plain) (howner : findOutputOwner g word = some r) :
      NamesOnly g (.run t) (.genrule r)
  | header {t : Target} {q : Producer} (hq : TokenNames g t.cxxPrecompiledHeader q) :
      NamesOnly g (.cxxPch t) q

section Needed

variable {g : Graph} {label : Option Bytes} {f : Found} {t : Target} {q : Producer}
  {a : SchedNode}

theorem consumes_of_compile {r : Genrule} (h : targetCompileConsumesGenrule t r = true) :
    targetConsumesGenrule t r = true := by
  unfold targetCompileConsumesGenrule at h
  unfold targetConsumesGenrule
  simp only [Bool.or_eq_true, List.any_eq_true, Bool.and_eq_true] at h ⊢
  rcases h with (h | h) | ⟨j, -, h, -⟩
  · exact .inl (.inl (.inr h))
  · exact .inl (.inr h)
  · obtain ⟨path, hpath, hmem⟩ := (Option.any_eq_true ..).mp h
    refine .inl (.inl (.inl (.inr ?_)))
    simp only [outputInList, List.any_eq_true, decide_eq_true_eq]
    exact ⟨path, of_decide_eq_true hmem, List.mem_of_getElem? hpath⟩

variable (hf : schedulerDiscover g label = .ok f)
include hf

/-- What a needed target asks for is needed. -/
theorem needed_asked (ht : Needed g label (.target t)) : ∃ asked, targetAsked g t = .ok asked ∧
    ∀ q ∈ asked, Needed g label q := by
  obtain ⟨asked, hasked, -⟩ := (foundWell_discover hf).2.1 t ((mem_found_targets hf).mpr ht)
  exact ⟨asked, hasked, fun q hq => ht.step (.asked hasked hq)⟩

theorem needed_consumed (ht : Needed g label (.target t))
    (hq : ConsumedNames g (targetConsumesGenrule t) q) : Needed g label q := by
  obtain ⟨asked, hasked, hall⟩ := needed_asked hf ht
  exact hall q ((mem_targetAsked hasked).mpr (.inl hq))

theorem needed_label (ht : Needed g label (.target t)) {name : Bytes}
    (hname : name ∈ t.objects ++ (t.deps ++ t.privateDeps)) (hq : LabelNames g name q) :
    Needed g label q := by
  obtain ⟨hhead, hq⟩ := hq
  obtain ⟨asked, hasked, hall⟩ := needed_asked hf ht
  unfold labelProducer at hq
  split at hq
  · rename_i o ho
    rw [List.mem_singleton.mp hq]
    exact ht.step (.dependency ⟨name, hname, ho⟩)
  · rename_i hnone
    rcases List.mem_append.mp hname with hobject | hdep
    · obtain ⟨hdeclared, -⟩ :=
        (schedulerDiscover_spec hf).1.targets t ((mem_found_targets hf).mpr ht)
      obtain ⟨o, ho, hlabel, -⟩ := g.objects_objectlib t hdeclared name hobject
      rw [← hlabel, findTarget_of_mem ho] at hnone
      cases hnone
    · refine hall q ((mem_targetAsked hasked).mpr (.inr (.inl ?_)))
      exact List.mem_flatMap.mpr ⟨name, List.mem_filter.mpr ⟨hdep, by simpa using hhead⟩, hq⟩

theorem needed_targetNames (ht : Needed g label (.target t)) (hq : TargetNames g t q) :
    Needed g label q ∨ NamesOnly g (finalNode t) q := by
  obtain ⟨asked, hasked, hall⟩ := needed_asked hf ht
  have hmem := fun h => hall q ((mem_targetAsked hasked).mpr h)
  rcases hq with (⟨name, hname, hq⟩ | ⟨hkind, ⟨word, hword, hq⟩ | ⟨item, hitem, hq⟩⟩) |
    ⟨-, hq | hq | ⟨item, hitem, hq⟩⟩
  · exact .inl (needed_label hf ht hname hq)
  · rcases item_cases hq with hq | ⟨hplain, r, hr, rfl⟩
    · exact .inl (hmem (.inr (.inr (.inr (.inr (.inr ⟨hkind, .inr ⟨word, hword, hq⟩⟩))))))
    · right
      have hfinal : finalNode t = .run t := by simp only [finalNode, hkind]
      exact hfinal ▸ .word hword hplain hr
  · refine .inl (hmem (.inr (.inr (.inr (.inr (.inr ⟨hkind, .inl ⟨item, hitem, ?_⟩⟩))))))
    exact runInputNames_asks (runInput_ok hasked hkind hitem) hq
  · exact .inl (hmem (.inl hq))
  · exact .inl (hmem (.inr (.inr (.inr (.inr (.inl hq))))))
  · rcases item_cases hq with hq | ⟨-, r, hr, rfl⟩
    · exact .inl (hmem (.inr (.inr (.inl ⟨item, hitem, hq⟩))))
    · refine .inl (hmem (.inl ⟨r, List.mem_of_find?_eq_some hr, ?_, rfl⟩))
      have hout : item ∈ r.outputs := by
        unfold findOutputOwner at hr
        simpa using List.find?_some hr
      simp only [targetConsumesGenrule, outputInList, Bool.or_eq_true, List.any_eq_true,
        decide_eq_true_eq]
      exact .inr ⟨item, hout, hitem⟩

/-- What a scheduled node waits for by name is scheduled too. -/
theorem needed_names {p : Producer} (hp : Needed g label p) (ha : a ∈ nodesOf g p)
    (hq : Names g a q) : Needed g label q ∨ NamesOnly g a q := by
  cases p with
  | stage s =>
    obtain rfl := List.mem_singleton.mp ha
    obtain ⟨item, hitem, hq⟩ := hq
    obtain ⟨t, asked, ht, hasked, -, -, hsrcs⟩ := needed_stage hp
    exact .inl (ht.step (.asked (p := .target t) hasked (hsrcs item hitem q hq)))
  | genrule r =>
    obtain rfl := List.mem_singleton.mp ha
    obtain ⟨asked, hasked, -⟩ := (foundWell_discover hf).2.2 r ((mem_found_genrules hf).mpr hp)
    exact .inl (hp.step (.asked hasked ((mem_genruleAsked hasked).mpr hq)))
  | target t =>
    rcases List.mem_append.mp ha with ha | ha
    · have husage : UsageNames g .compile t q → Needed g label q := by
        intro hq
        obtain ⟨asked, hasked, hall⟩ := needed_asked hf hp
        exact hall q ((mem_targetAsked hasked).mpr (.inr (.inr (.inr (.inl hq)))))
      have hcompiled : ∀ owner, Needed g label (.target owner) →
          ConsumedNames g (targetCompileConsumesGenrule owner) q → Needed g label q := by
        rintro owner howner ⟨r, hr, hconsumes, rfl⟩
        exact needed_consumed hf howner ⟨r, hr, consumes_of_compile hconsumes, rfl⟩
      rcases mem_compileNodes (mem_innerNodes ha).2 with ⟨hheader, rfl⟩ | ⟨i, -, rfl⟩ |
        ⟨o, i, k, hnode, rfl⟩
      · rcases hq with hq | hq
        · rcases item_cases hq with hq | ⟨-, r, hr, rfl⟩
          · exact .inr (.header hq)
          · refine .inl (needed_consumed hf hp ⟨r, List.mem_of_find?_eq_some hr, ?_, rfl⟩)
            have hout : t.cxxPrecompiledHeader ∈ r.outputs := by
              unfold findOutputOwner at hr
              simpa using List.find?_some hr
            simp [targetConsumesGenrule, hheader, hout]
        · exact .inl (husage hq)
      · exact .inl (hq.elim (hcompiled t hp) husage)
      · obtain ⟨j, name, objectlib, m, hname, hfind, -, -, heq⟩ := mem_consumerNodes hnode
        cases heq
        have howner : Needed g label (.target o) := hp.step (.dependency
          ⟨name, List.mem_append_left _ (List.mem_of_getElem? hname), hfind⟩)
        exact .inl (hq.elim (hcompiled o howner) husage)
    · obtain rfl := List.mem_singleton.mp ha
      exact needed_targetNames hf hp (names_finalNode.mp hq)

end Needed

/-! ## The node graph -/

/-- The nodes of a node graph. -/
def nodes (s : Sched SchedNode) : List SchedNode := s.nodes.map (·.info)

/-- The node graph of a label: what is needed has nodes, each of them once, and nothing else has,
and the dependencies of a node are the nodes it waits for. -/
structure Scheduled (g : Graph) (label : Option Bytes) (s : Sched SchedNode) : Prop where
  built : Built s
  once : (nodes s).Nodup
  needed : ∀ a, a ∈ nodes s ↔ NeededNode g label a
  deps : ∀ n d, d ∈ s.deps n ↔
    ∃ a b, (nodes s)[n]? = some a ∧ (nodes s)[d]? = some b ∧ Waits g a b

section NodeGraph

variable {h : Host} {g : Graph} {label : Option Bytes} {f : Found} {p : Plan} {t : Target}
  {s s' : Sched SchedNode} {a : SchedNode}

/-- A loop that succeeds takes every round. -/
theorem foldlM_ok_of_mem {σ β : Type} {step : σ → β → Except ScheduleError σ} {xs : List β}
    {before after : σ} (hsteps : xs.foldlM step before = .ok after) {x : β} (hx : x ∈ xs) :
    ∃ s₁ s₂, step s₁ x = .ok s₂ := by
  induction xs generalizing before with
  | nil => cases hx
  | cons y rest ih =>
    rw [List.foldlM_cons] at hsteps
    obtain ⟨mid, hmid, hrest⟩ := bind_eq_ok.mp hsteps
    rcases List.mem_cons.mp hx with rfl | hx
    · exact ⟨before, mid, hmid⟩
    · exact ih hrest hx

/-- Connecting fails when a run target names a stage that has no node. -/
theorem stage_noted (hs : connectNodes g f p = .ok s) (ht : t ∈ f.targets)
    (hkind : t.kind = .runTarget) {item name : Bytes} {st : Stage} (hitem : item ∈ t.runInputs)
    (htoken : stageDirToken item = .payload name) (hst : findStage g name = some st) :
    ∃ n, node p (.stage st) = some n := by
  obtain ⟨_, -, hs⟩ := bind_eq_ok.mp hs
  obtain ⟨_, -, hs⟩ := bind_eq_ok.mp hs
  obtain ⟨s₁, s₂, hconnect⟩ := foldlM_ok_of_mem hs ht
  unfold connectTarget at hconnect
  split at hconnect
  · cases hconnect
  · obtain ⟨_, hfinal, -⟩ := bind_eq_ok.mp hconnect
    obtain ⟨_, -, hfinal⟩ := bind_eq_ok.mp hfinal
    obtain ⟨_, -, hfinal⟩ := bind_eq_ok.mp hfinal
    obtain ⟨_, -, hfinal⟩ := bind_eq_ok.mp hfinal
    obtain ⟨_, -, hfinal⟩ := bind_eq_ok.mp hfinal
    rw [connectRunInputEdges, if_neg (not_not.mpr hkind)] at hfinal
    obtain ⟨s₃, s₄, hinput⟩ := foldlM_ok_of_mem hfinal hitem
    simp only [addRunInputEdge, htoken, hst] at hinput
    split at hinput
    · cases hinput
    · rename_i n hn
      exact ⟨n, hn⟩

/-- The nodes that were created are the needed ones. -/
theorem mem_schedule_iff (hstages : StagesApart g) (hf : schedulerDiscover g label = .ok f)
    (hp : Created g f p) (hs : connectNodes g f p = .ok s) :
    a ∈ schedule g f ↔ NeededNode g label a := by
  have hsound := (schedulerDiscover_spec hf).1
  constructor
  · intro ha
    rcases mem_schedule.mp ha with ⟨t, ht, ha⟩ | ⟨r, hr, hneeds, rfl⟩ | ⟨st, hst, rfl⟩
    · exact ⟨.target t, (mem_found_targets hf).mp ht, ha⟩
    · exact ⟨.genrule r, (hsound.genrules r (mem_of_needs hsound hr hneeds)).2, by simp [nodesOf]⟩
    · obtain ⟨hst, hany⟩ := List.mem_filter.mp hst
      obtain ⟨o, ho, hlabel⟩ := List.any_eq_true.mp hany
      have hneeded := (foundWell_discover hf).1.stages o ho
      obtain ⟨_, _, -, -, -, ⟨_, -, _, -, hfind⟩, -⟩ := needed_stage hneeded
      obtain rfl := stage_eq_of_label hstages (List.mem_of_find?_eq_some hfind) hst
        (of_decide_eq_true hlabel)
      exact ⟨.stage o, hneeded, by simp [nodesOf]⟩
  · rintro ⟨q, hq, ha⟩
    cases q with
    | target t => exact mem_schedule.mpr (.inl ⟨t, (mem_found_targets hf).mpr hq, ha⟩)
    | genrule r =>
      have hr := (mem_found_genrules hf).mpr hq
      refine mem_schedule.mpr (.inr (.inl ⟨r, (hsound.genrules r hr).1, ?_,
        List.mem_singleton.mp ha⟩))
      exact List.any_eq_true.mpr ⟨r, hr, by simp⟩
    | stage st =>
      obtain rfl := List.mem_singleton.mp ha
      obtain ⟨t, _, ht, -, hkind, ⟨item, hitem, name, htoken, hfind⟩, -⟩ := needed_stage hq
      obtain ⟨n, hn⟩ := stage_noted hs ((mem_found_targets hf).mpr ht) hkind hitem htoken hfind
      have hget := (hp.located (.stage st) (List.mem_of_find?_eq_some hfind) n).mp hn
      exact mem_schedule_of_get hp hget

theorem scheduled (hstages : StagesApart g) (hf : schedulerDiscover g label = .ok f)
    (hs : schedulerBuildNodes h g f = .ok s) : Scheduled g label s := by
  obtain ⟨p, hcreate, hs⟩ := bind_eq_ok.mp hs
  have htargets := fun t ht => ((schedulerDiscover_spec hf).1.targets t ht).1
  have hfound : f.targets.Nodup := .of_map _ (foundWell_discover hf).1.nodup
  have hp := createNodes_spec hstages htargets hfound hcreate
  have hnodup := schedule_nodup hstages htargets hfound
  have hadds := (connectNodes_adds hs).congr fun n d => edges_iff hp htargets hnodup
  have hnodes : nodes s = infos p := hadds.infos
  have hlt : ∀ n a, (infos p)[n]? = some a → n < p.sched.nodes.length := by
    intro n a hn
    simpa [infos] using (List.getElem?_eq_some_iff.mp hn).1
  obtain ⟨hbuilt, hdeps⟩ := hadds.edges (by
    rintro n d ⟨a, b, ha, hb, -⟩
    exact ⟨hlt n a ha, hlt d b hb⟩)
  refine ⟨hbuilt hp.built, ?_, ?_, ?_⟩
  · rw [hnodes, hp.infos_eq]
    exact hnodup
  · intro a
    rw [hnodes, hp.infos_eq]
    exact mem_schedule_iff hstages hf hp hs
  · intro n d
    rw [hdeps, hp.no_deps, hnodes]
    exact or_iff_right List.not_mem_nil

/-- The node graph of a label has the needed nodes and the edges along which they wait, and what
its nodes name has nodes too. -/
theorem schedulerBuildNodes_exact (hstages : StagesApart g) (hf : schedulerDiscover g label = .ok f)
    (hs : schedulerBuildNodes h g f = .ok s) : Scheduled g label s ∧
      ∀ a ∈ nodes s, ∀ q, Names g a q → producerNode q ∈ nodes s ∨ NamesOnly g a q := by
  have hsched := scheduled hstages hf hs
  refine ⟨hsched, ?_⟩
  intro a ha q hq
  obtain ⟨p, hp, ha⟩ := (hsched.needed a).mp ha
  refine (needed_names hf hp ha hq).imp_left fun hneeded => (hsched.needed _).mpr ⟨q, hneeded, ?_⟩
  cases q <;> simp [nodesOf, producerNode, targetSched]

end NodeGraph

/-! ## A program with a generated header -/

def headerRule : Genrule where
  label := ascii "//:gen"
  tool := ascii "/bin/gen"
  toolset := []
  configHeader := false
  inputs := []
  outputs := [ascii "gen.h"]
  outputGroups := []
  outputFormats := []
  args := []
  label_ne := by decide
  outputs_ne := by simp

def headerTarget : Target where
  label := ascii "//:app"
  name := ascii "app"
  kind := .exe
  sources := [ascii "a.c"]
  privateHeaders := [ascii "gen.h"]
  label_ne := app_label_ne
  sources_lt := Target.a_source_lt

def headerGraph : Graph where
  host := ascii "linux"
  platform := []
  buildDir := ascii "build"
  targets := [headerTarget]
  genrules := [headerRule]
  stages := []
  toolsets := []
  languages := []
  labels_nodup := by decide
  objectlib_objects := by decide
  objects_objectlib := by decide

/-- The program is scheduled with the action that generates its header. -/
theorem header_schedule : ∃ f s, schedulerDiscover headerGraph none = .ok f ∧
    schedulerBuildNodes ⟨fun _ => none, fun _ => false⟩ headerGraph f = .ok s := by
  have hfound : (schedulerDiscover headerGraph none).toOption.isSome = true := by decide +kernel
  obtain ⟨f, hf⟩ := exists_eq_ok hfound
  have hbuilt : ((schedulerDiscover headerGraph none).toOption.any fun f =>
      (schedulerBuildNodes ⟨fun _ => none, fun _ => false⟩ headerGraph f).toOption.isSome) = true := by
    decide +kernel
  rw [hf] at hbuilt
  obtain ⟨s, hs⟩ := exists_eq_ok hbuilt
  exact ⟨f, s, hf, hs⟩

theorem header_stages : StagesApart headerGraph := List.nodup_nil

theorem schedulerBuildNodes_exact_header : ∃ s, Scheduled headerGraph none s ∧
    ∀ a ∈ nodes s, ∀ q, Names headerGraph a q →
      producerNode q ∈ nodes s ∨ NamesOnly headerGraph a q := by
  obtain ⟨f, s, hf, hs⟩ := header_schedule
  exact ⟨s, schedulerBuildNodes_exact header_stages hf hs⟩

end QStar.Scheduler.Schedule
