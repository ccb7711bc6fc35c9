import Mathlib.Data.List.Basic
import Mathlib.Data.List.Nodup
import Mathlib.Logic.Relation

/-!
# Walks that enter a node once

A walk enters the nodes of a list one by one, each followed by what it leads to, and
skips those that it has entered before. Without cycles it enters what the list reaches;
the nodes it enters before a node are those that lead to it and those that the entries
lead to which it passes on the way.
-/
namespace QStar.Lib.Walks

open Relation

variable {α : Type} (next : α → List α)

/-- The walk over a list, from the nodes entered before to those entered after it, in the order
in which they are entered. -/
inductive Walk : List α → List α → List α → Prop where
  | done {seen : List α} : Walk [] seen seen
  | skip {node : α} {rest seen out : List α} (hseen : node ∈ seen) (hrest : Walk rest seen out) :
      Walk (node :: rest) seen out
  | enter {node : α} {rest seen mid out : List α} (hseen : node ∉ seen)
      (hbelow : Walk (next node) (seen ++ [node]) mid) (hrest : Walk rest mid out) :
      Walk (node :: rest) seen out

def Step (a b : α) : Prop := b ∈ next a

/-- One of the entries reaches a node. -/
def Leads (entries : List α) (x : α) : Prop := ∃ e ∈ entries, ReflTransGen (Step next) e x

/-- A way from the roots to a node, with the entries that it passes in the lists on it. -/
inductive Arrives (roots : List α) : List α → α → Prop where
  | root {passed after : List α} {node : α} (hroots : roots = passed ++ node :: after) :
      Arrives roots passed node
  | step {passed before after : List α} {parent node : α} (hparent : Arrives roots passed parent)
      (hnext : next parent = before ++ node :: after) : Arrives roots (passed ++ before) node

section Leads

variable {next} {entries more : List α} {node x y : α}

theorem Leads.step (h : Leads next entries x) (hstep : y ∈ next x) : Leads next entries y := by
  obtain ⟨e, he, hreach⟩ := h
  exact ⟨e, he, hreach.tail hstep⟩

theorem leads_append : Leads next (entries ++ more) x ↔ Leads next entries x ∨ Leads next more x := by
  simp only [Leads, List.mem_append, or_and_right, exists_or]

theorem leads_nil : ¬Leads next [] x := by simp [Leads]

theorem leads_cons :
    Leads next (node :: more) x ↔ x = node ∨ Leads next (next node) x ∨ Leads next more x := by
  constructor
  · rintro ⟨e, he, hreach⟩
    rcases List.mem_cons.mp he with rfl | he
    · rcases ReflTransGen.cases_head hreach with rfl | ⟨m, hm, hreach⟩
      · exact .inl rfl
      · exact .inr (.inl ⟨m, hm, hreach⟩)
    · exact .inr (.inr ⟨e, he, hreach⟩)
  · rintro (rfl | ⟨m, hm, hreach⟩ | ⟨e, he, hreach⟩)
    · exact ⟨x, List.mem_cons_self, .refl⟩
    · exact ⟨node, List.mem_cons_self, .head hm hreach⟩
    · exact ⟨e, List.mem_cons_of_mem _ he, hreach⟩

theorem leads_cons_iff :
    Leads next (node :: more) x ↔ Leads next [node] x ∨ Leads next more x := by
  rw [← List.singleton_append, leads_append]

end Leads

section Walks

variable {next} {roots todo passed seen out order : List α} {a b x : α}

theorem Walk.grows (h : Walk next todo seen out) : seen <+: out := by
  induction h with
  | done => exact List.prefix_rfl
  | skip _ _ ih => exact ih
  | enter _ _ _ ihbelow ihrest =>
    exact (List.prefix_append _ _).trans (ihbelow.trans ihrest)

theorem Walk.nodup (h : Walk next todo seen out) (hseen : seen.Nodup) : out.Nodup := by
  induction h with
  | done => exact hseen
  | skip _ _ ih => exact ih hseen
  | enter hnode _ _ ihbelow ihrest =>
    refine ihrest (ihbelow (List.nodup_append.mpr ⟨hseen, List.nodup_singleton _, ?_⟩))
    rintro y hy z hz rfl
    exact hnode (List.mem_singleton.mp hz ▸ hy)

theorem Walk.split {before after : List α} (h : Walk next (before ++ after) seen out) :
    ∃ mid, Walk next before seen mid ∧ Walk next after mid out := by
  induction before generalizing seen with
  | nil => exact ⟨seen, .done, h⟩
  | cons node rest ih =>
    cases h with
    | skip hnode hrest =>
      obtain ⟨mid, hbefore, hafter⟩ := ih hrest
      exact ⟨mid, .skip hnode hbefore, hafter⟩
    | enter hnode hbelow hrest =>
      obtain ⟨mid, hbefore, hafter⟩ := ih hrest
      exact ⟨mid, .enter hnode hbelow hbefore, hafter⟩

theorem Walk.append {before after mid : List α} (hbefore : Walk next before seen mid)
    (hafter : Walk next after mid out) : Walk next (before ++ after) seen out := by
  induction hbefore with
  | done => exact hafter
  | skip hnode _ ih => exact .skip hnode (ih hafter)
  | enter hnode hbelow _ _ ih => exact .enter hnode hbelow (ih hafter)

/-- A walk enters nothing but what its list reaches. -/
theorem Walk.sound (h : Walk next todo seen out) (hx : x ∈ out) : x ∈ seen ∨ Leads next todo x := by
  induction h with
  | done => exact .inl hx
  | skip _ _ ih => exact (ih hx).imp_right fun hleads => leads_cons_iff.mpr (.inr hleads)
  | enter _ _ _ ihbelow ihrest =>
    rcases ihrest hx with hmid | hleads
    · rcases ihbelow hmid with hseen | hleads
      · rcases List.mem_append.mp hseen with hseen | hnode
        · exact .inl hseen
        · exact .inr (leads_cons.mpr (.inl (List.mem_singleton.mp hnode)))
      · exact .inr (leads_cons.mpr (.inr (.inl hleads)))
    · exact .inr (leads_cons.mpr (.inr (.inr hleads)))

/-- A walk enters its list, and with each node that it enters all that the node leads to. -/
theorem Walk.closed (h : Walk next todo seen out) :
    (∀ a ∈ todo, a ∈ out) ∧ ∀ a ∈ out, a ∈ seen ∨ ∀ b ∈ next a, b ∈ out := by
  induction h with
  | done => exact ⟨nofun, fun a ha => .inl ha⟩
  | skip hnode hrest ih =>
    obtain ⟨hentered, hclosed⟩ := ih
    refine ⟨?_, hclosed⟩
    intro a ha
    rcases List.mem_cons.mp ha with rfl | ha
    · exact hrest.grows.subset hnode
    · exact hentered a ha
  | @enter node rest seen mid out hnode hbelow hrest ihbelow ihrest =>
    obtain ⟨hnext, hmid⟩ := ihbelow
    obtain ⟨hentered, hclosed⟩ := ihrest
    have hgrown : ∀ b ∈ mid, b ∈ out := fun b hb => hrest.grows.subset hb
    have hhead : node ∈ mid := hbelow.grows.subset (by simp)
    refine ⟨?_, ?_⟩
    · intro a ha
      rcases List.mem_cons.mp ha with rfl | ha
      · exact hgrown a hhead
      · exact hentered a ha
    · intro a ha
      rcases hclosed a ha with ha | hout
      · rcases hmid a ha with ha | hout
        · rcases List.mem_append.mp ha with ha | ha
          · exact .inl ha
          · rw [List.mem_singleton.mp ha]
            exact .inr fun b hb => hgrown b (hnext b hb)
        · exact .inr fun b hb => hgrown b (hout b hb)
      · exact .inr hout

/-- A walk that begins with nothing entered enters what its roots reach, with cycles too. -/
theorem Walk.mem_iff_leads (h : Walk next roots [] order) : x ∈ order ↔ Leads next roots x := by
  obtain ⟨hentered, hclosed⟩ := h.closed
  constructor
  · intro hx
    exact (h.sound hx).resolve_left List.not_mem_nil
  · rintro ⟨root, hroot, hreach⟩
    induction hreach with
    | refl => exact hentered root hroot
    | tail _ hstep ih => exact (hclosed _ ih).resolve_left List.not_mem_nil _ hstep

/-- Where a walk stands: it has entered what the entries it passed lead to, and nodes that lead
to all it has in front of it. -/
structure Stands (next : α → List α) (passed seen todo : List α) : Prop where
  entered : ∀ x, Leads next passed x → x ∈ seen
  either : ∀ x ∈ seen, Leads next passed x ∨ ∀ y ∈ todo, TransGen (Step next) x y

theorem stands_nil : Stands next [] [] todo := ⟨fun _ h => absurd h leads_nil, nofun⟩

theorem Stands.enter {node : α} {rest : List α} (h : Stands next passed seen (node :: rest)) :
    Stands next passed (seen ++ [node]) (next node) where
  entered := fun x hx => List.mem_append_left _ (h.entered x hx)
  either := by
    intro x hx
    rcases List.mem_append.mp hx with hx | hx
    · exact (h.either x hx).imp_right fun hopen y hy => (hopen node List.mem_cons_self).tail hy
    · obtain rfl := List.mem_singleton.mp hx
      exact .inr fun y hy => .single hy

/-- Past some entries, when what they lead to has been entered. -/
theorem Stands.past {before after mid : List α} (h : Stands next passed seen (before ++ after))
    (hmid : ∀ x, x ∈ mid ↔ x ∈ seen ∨ Leads next before x) :
    Stands next (passed ++ before) mid after where
  entered := by
    intro x hx
    rcases leads_append.mp hx with hx | hx
    · exact (hmid x).mpr (.inl (h.entered x hx))
    · exact (hmid x).mpr (.inr hx)
  either := by
    intro x hx
    rcases (hmid x).mp hx with hx | hx
    · exact (h.either x hx).imp (fun h => leads_append.mpr (.inl h))
        fun hopen y hy => hopen y (List.mem_append_right _ hy)
    · exact .inl (leads_append.mpr (.inr hx))

/-- An entry that has been entered leads to nothing new. -/
theorem Stands.mem_of_leads (hacyclic : ∀ a, ¬TransGen (Step next) a a) {node : α} {rest : List α}
    (h : Stands next passed seen (node :: rest)) (hnode : node ∈ seen)
    (hx : Leads next [node] x) : x ∈ seen := by
  obtain ⟨e, he, hreach⟩ := hx
  obtain rfl := List.mem_singleton.mp he
  rcases h.either e hnode with ⟨entry, hentry, hreach'⟩ | hopen
  · exact h.entered x ⟨entry, hentry, hreach'.trans hreach⟩
  · exact absurd (hopen e List.mem_cons_self) (hacyclic e)

/-- What a walk enters on the list in front of it. -/
theorem Walk.mem_iff (hacyclic : ∀ a, ¬TransGen (Step next) a a) (h : Walk next todo seen out)
    (hstands : Stands next passed seen todo) : x ∈ out ↔ x ∈ seen ∨ Leads next todo x := by
  induction h generalizing passed x with
  | done => simp [leads_nil]
  | @skip node rest seen out hnode hrest ih =>
    have hsame : ∀ x, x ∈ seen ↔ x ∈ seen ∨ Leads next [node] x :=
      fun x => ⟨.inl, fun hx => hx.elim id (hstands.mem_of_leads hacyclic hnode)⟩
    have hrest : Stands next (passed ++ [node]) seen rest := hstands.past hsame
    rw [ih hrest, hsame x, or_assoc, ← leads_cons_iff, ← hsame x]
  | @enter node rest seen mid out hnode hbelow hrest ihbelow ihrest =>
    have hmid : ∀ x, x ∈ mid ↔ x ∈ seen ∨ Leads next [node] x := by
      intro x
      rw [ihbelow hstands.enter, leads_cons, List.mem_append, List.mem_singleton, or_assoc]
      simp [leads_nil]
    have hrest : Stands next (passed ++ [node]) mid rest := hstands.past hmid
    rw [ihrest hrest, hmid x, or_assoc, ← leads_cons_iff]

/-- A walk over the front of a list stands before the rest of it. -/
theorem Walk.stands (hacyclic : ∀ a, ¬TransGen (Step next) a a) {before after mid : List α}
    (h : Walk next before seen mid) (hstands : Stands next passed seen (before ++ after)) :
    Stands next (passed ++ before) mid after := by
  refine hstands.past fun x => h.mem_iff hacyclic ⟨hstands.entered, fun y hy => ?_⟩
  exact (hstands.either y hy).imp_right fun hopen z hz => hopen z (List.mem_append_left _ hz)

/-! ## What is entered before a node -/

theorem eq_of_split {before before' after after' : List α} {node : α}
    (hnodup : (before ++ node :: after).Nodup)
    (heq : before ++ node :: after = before' ++ node :: after') : before = before' := by
  obtain ⟨-, hafter, hdisjoint⟩ := List.nodup_append.mp hnodup
  have hbefore : node ∉ before := fun hmem => hdisjoint node hmem node List.mem_cons_self rfl
  exact ((List.append_cons_inj_of_notMem hbefore (List.nodup_cons.mp hafter).1).mp heq).1

theorem mem_of_sublist {before after : List α} (hnodup : (before ++ a :: after).Nodup)
    (h : [a, b].Sublist (before ++ a :: after)) : b ∈ after := by
  induction before with
  | nil => exact List.singleton_sublist.mp (List.cons_sublist_cons.mp h)
  | cons node rest ih =>
    rw [List.cons_append] at hnodup h
    obtain ⟨hnode, hnodup⟩ := List.nodup_cons.mp hnodup
    cases h with
    | cons _ h => exact ih hnodup h
    | cons_cons _ h => exact absurd (by simp) hnode

/-- Before a node a walk enters only what leads to it and what the entries lead to that it
passes on some way to it, of which none leads to the node. -/
theorem Walk.arrives (hacyclic : ∀ a, ¬TransGen (Step next) a a) (h : Walk next todo seen out)
    (hseen : seen.Nodup) (hstands : Stands next passed seen todo)
    (hways : ∀ before node after, todo = before ++ node :: after →
      Arrives next roots (passed ++ before) node)
    {before after : List α} (hout : out = before ++ a :: after) (ha : a ∉ seen) :
    ∃ passed, Arrives next roots passed a ∧ ¬Leads next passed a ∧
      ∀ x ∈ before, Leads next passed x ∨ TransGen (Step next) x a := by
  induction h generalizing passed before after with
  | done => exact absurd (hout ▸ List.mem_append_right _ List.mem_cons_self) ha
  | @skip node rest seen out hnode hrest ih =>
    have hrest : Stands next (passed ++ [node]) seen rest := hstands.past fun x =>
      ⟨.inl, fun hx => hx.elim id (hstands.mem_of_leads hacyclic hnode)⟩
    refine ih hseen hrest ?_ hout ha
    · rintro before' node' after' rfl
      rw [List.append_assoc]
      exact hways (node :: before') node' after' rfl
  | @enter node rest seen mid out hnode hbelow hrest ihbelow ihrest =>
    have hway : Arrives next roots passed node := by
      simpa using hways [] node rest rfl
    have hinner : (seen ++ [node]).Nodup := by
      refine List.nodup_append.mpr ⟨hseen, List.nodup_singleton _, ?_⟩
      rintro y hy z hz rfl
      exact hnode (List.mem_singleton.mp hz ▸ hy)
    have hmid := hbelow.nodup hinner
    have hnodup := hrest.nodup hmid
    obtain ⟨later, rfl⟩ := hrest.grows
    by_cases hmem : a ∈ mid
    · obtain ⟨before', after', rfl⟩ := List.append_of_mem hmem
      have hsame : before' = before := by
        rw [List.append_assoc, List.cons_append] at hout hnodup
        exact eq_of_split hnodup hout
      subst hsame
      by_cases hanode : a = node
      · subst hanode
        obtain ⟨below, hgrown⟩ := hbelow.grows
        have hbefore : seen = before' := by
          rw [List.append_assoc, List.singleton_append] at hgrown
          exact eq_of_split (hgrown ▸ hmid) hgrown
        subst hbefore
        refine ⟨passed, hway, fun hleads => ha (hstands.entered a hleads), fun x hx => ?_⟩
        exact (hstands.either x hx).imp_right fun hopen => hopen a List.mem_cons_self
      · refine ihbelow hinner hstands.enter ?_ rfl (by simp [ha, hanode])
        rintro before' node' after' hnext
        exact hway.step hnext
    · have hstep : Walk next [node] seen mid := .enter hnode hbelow .done
      refine ihrest hmid (hstep.stands hacyclic hstands) ?_ hout hmem
      rintro before' node' after' rfl
      rw [List.append_assoc]
      exact hways (node :: before') node' after' rfl

/-- Behind entries that lead neither to a node nor to what is in front of the walk, it enters the
node next. -/
theorem Walk.enters (hacyclic : ∀ a, ¬TransGen (Step next) a a) {before after : List α}
    (h : Walk next (before ++ a :: after) seen out)
    (hstands : Stands next passed seen (before ++ a :: after))
    (ha : ¬Leads next (passed ++ before) a) :
    ∃ mid below, a ∉ mid ∧ Walk next (next a) (mid ++ [a]) below ∧ below <+: out ∧
      Stands next (passed ++ before) (mid ++ [a]) (next a) ∧
      ∀ x, Leads next (passed ++ before) x → x ∈ mid := by
  obtain ⟨mid, hbefore, hafter⟩ := h.split
  have hmid := hbefore.stands hacyclic hstands
  have hnotMem : a ∉ mid := by
    intro hmem
    rcases hmid.either a hmem with hleads | hopen
    · exact ha hleads
    · exact hacyclic a (hopen a List.mem_cons_self)
  cases hafter with
  | skip hmem => exact absurd hmem hnotMem
  | enter _ hbelow hrest =>
    exact ⟨mid, _, hnotMem, hbelow, hrest.grows, hmid.enter, hmid.entered⟩

/-- What the entries lead to that are passed on a way to a node, of which none leads to it, is
entered before it. -/
theorem Walk.enters_passed (hacyclic : ∀ a, ¬TransGen (Step next) a a) (h : Walk next roots [] order)
    (hway : Arrives next roots passed a) (ha : ¬Leads next passed a) :
    ∃ before after, order = before ++ a :: after ∧ ∀ x, Leads next passed x → x ∈ before := by
  have hentered : ∃ mid below, Walk next (next a) (mid ++ [a]) below ∧ below <+: order ∧
      Stands next passed (mid ++ [a]) (next a) ∧ ∀ x, Leads next passed x → x ∈ mid := by
    induction hway with
    | @root passed after node hroots =>
      subst hroots
      obtain ⟨mid, below, -, hbelow, hgrown, hstands, hmid⟩ :=
        h.enters hacyclic stands_nil (by simpa using ha)
      exact ⟨mid, below, hbelow, hgrown, hstands, hmid⟩
    | @step passed before after parent node hparent hnext ih =>
      have hpassed : ¬Leads next passed parent := by
        intro hleads
        have hstep : node ∈ next parent := by simp [hnext]
        exact ha (leads_append.mpr (.inl (hleads.step hstep)))
      obtain ⟨mid, below, hwalk, hgrown, hstands, -⟩ := ih hpassed
      rw [hnext] at hwalk hstands
      obtain ⟨mid', below', -, hwalk', hgrown', hstands', hmid'⟩ :=
        hwalk.enters hacyclic hstands ha
      exact ⟨mid', below', hwalk', hgrown'.trans hgrown, hstands', hmid'⟩
  obtain ⟨mid, below, hbelow, hgrown, -, hmid⟩ := hentered
  obtain ⟨after, rfl⟩ := hbelow.grows.trans hgrown
  exact ⟨mid, after, by simp, hmid⟩

/-- A walk puts each wanted node before those it needs if and only if on no way to a wanted node
entries are passed that lead to one it needs, unless they lead to the node itself. -/
theorem Walk.ordered_iff {needs : α → α → Prop} {wanted : α → Prop}
    (hacyclic : ∀ a, ¬TransGen (Step next) a a)
    (hneeds : ∀ a b, needs a b → ¬ReflTransGen (Step next) b a) (h : Walk next roots [] order) :
    (∀ a ∈ order, ∀ b ∈ order, wanted a → wanted b → needs a b → [a, b].Sublist order) ↔
      ∀ passed a, Arrives next roots passed a → ¬Leads next passed a → wanted a →
        ∀ b, wanted b → needs a b → ¬Leads next passed b := by
  have hnodup := h.nodup List.nodup_nil
  constructor
  · intro hordered passed a hway ha hwanted b hwanted' hab hleads
    obtain ⟨before, after, rfl, hbefore⟩ := h.enters_passed hacyclic hway ha
    have hb := hbefore b hleads
    have hsublist := hordered a (by simp) b (by simp [hb]) hwanted hwanted' hab
    -- the node stands once, behind what it needs
    have hafter := mem_of_sublist hnodup hsublist
    exact (List.nodup_append.mp hnodup).2.2 b hb b (List.mem_cons_of_mem _ hafter) rfl
  · intro hways a ha b hb hwanted hwanted' hab
    obtain ⟨before, after, rfl⟩ := List.append_of_mem ha
    obtain ⟨passed, hway, hpassed, hbefore⟩ := h.arrives hacyclic List.nodup_nil stands_nil
      (fun before node after heq => .root heq) rfl (by simp)
    have hafter : b ∈ after := by
      rcases List.mem_append.mp hb with hb | hb
      · rcases hbefore b hb with hleads | hreach
        · exact absurd hleads (hways passed a hway hpassed hwanted b hwanted' hab)
        · exact absurd hreach.to_reflTransGen (hneeds a b hab)
      · rcases List.mem_cons.mp hb with rfl | hb
        · exact absurd .refl (hneeds b b hab)
        · exact hb
    refine List.Sublist.trans ?_ (List.sublist_append_right before _)
    exact (List.singleton_sublist.mpr hafter).cons_cons a

end Walks

end QStar.Lib.Walks
