import Mathlib.Logic.Function.Basic
import Mathlib.Logic.Relation
import Mathlib.Data.List.Induction
import Mathlib.Data.List.Pairwise
import Mathlib.Tactic.Common

/-!
# Copies made one after the other

A copy empties its destination before it reads its source. What a list of copies
leaves at each place, and which lists give every destination what its source held
at the start, whatever that was.
-/
namespace QStar.Lib.Copies

variable {α β : Type} [DecidableEq α] (blank : β)

/-- One copy from the first place to the second. -/
def copy (f : α → β) (m : α × α) : α → β :=
  Function.update f m.2 (if m.1 = m.2 then blank else f m.1)

def copies (f : α → β) (moves : List (α × α)) : α → β := moves.foldl (copy blank) f

/-- No copy reads what an earlier copy or the same one has written, and copies to one place
read one place. -/
structure Apart (moves : List (α × α)) : Prop where
  proper : ∀ m ∈ moves, m.1 ≠ m.2
  fresh : moves.Pairwise fun earlier later => later.1 ≠ earlier.2
  agree : ∀ m ∈ moves, ∀ n ∈ moves, m.2 = n.2 → m.1 = n.1

variable {blank} {f g : α → β} {moves : List (α × α)}

omit [DecidableEq α] in
theorem Apart.tail {m : α × α} (h : Apart (m :: moves)) : Apart moves where
  proper := fun n hn => h.proper n (List.mem_cons_of_mem _ hn)
  fresh := (List.pairwise_cons.mp h.fresh).2
  agree := fun n hn k hk =>
    h.agree n (List.mem_cons_of_mem _ hn) k (List.mem_cons_of_mem _ hk)

@[simp] theorem copies_nil : copies blank f [] = f := rfl

theorem copies_cons (m : α × α) :
    copies blank f (m :: moves) = copies blank (copy blank f m) moves := rfl

theorem copies_append (rest : List (α × α)) :
    copies blank f (moves ++ rest) = copies blank (copies blank f moves) rest :=
  List.foldl_append

theorem copy_ne (f : α → β) {m : α × α} {p : α} (h : p ≠ m.2) : copy blank f m p = f p := by
  simp [copy, h]

theorem copy_self (f : α → β) (m : α × α) :
    copy blank f m m.2 = if m.1 = m.2 then blank else f m.1 := by
  simp [copy]

/-- Copies change nothing but their destinations. -/
theorem copies_frame {p : α} (h : p ∉ moves.map Prod.snd) : copies blank f moves p = f p := by
  induction moves generalizing f with
  | nil => rfl
  | cons m rest ih =>
    obtain ⟨hm, hrest⟩ := not_or.mp fun hmem => h (List.mem_cons.mpr hmem)
    rw [copies_cons, ih hrest, copy_ne f hm]

theorem copies_of_apart (h : Apart moves) :
    ∀ m ∈ moves, copies blank f moves m.2 = f m.1 := by
  induction moves generalizing f with
  | nil => simp
  | cons m rest ih =>
    have hfresh := (List.pairwise_cons.mp h.fresh).1
    have hrest : ∀ n ∈ rest, copies blank f (m :: rest) n.2 = f n.1 := by
      intro n hn
      rw [copies_cons, ih h.tail n hn, copy_ne f (hfresh n hn)]
    intro n hn
    rcases List.mem_cons.mp hn with rfl | hn
    · by_cases hagain : n.2 ∈ rest.map Prod.snd
      · obtain ⟨k, hk, heq⟩ := List.mem_map.mp hagain
        rw [← heq, hrest k hk, h.agree k (List.mem_cons_of_mem _ hk) n (by simp) heq]
      · rw [copies_cons, copies_frame hagain, copy_self, if_neg (h.proper n (by simp))]
    · exact hrest n hn

/-- What copies leave only depends on what they read. -/
theorem copies_congr (h : ∀ m ∈ moves, f m.1 = g m.1) {p : α}
    (hp : f p = g p ∨ p ∈ moves.map Prod.snd) : copies blank f moves p = copies blank g moves p := by
  induction moves generalizing f g with
  | nil => simpa using hp
  | cons m rest ih =>
    have hstep : ∀ q, f q = g q ∨ q = m.2 → copy blank f m q = copy blank g m q := by
      intro q hq
      by_cases hqm : q = m.2
      · subst hqm
        rw [copy_self, copy_self, h m (by simp)]
      · rw [copy_ne f hqm, copy_ne g hqm]
        exact hq.resolve_right hqm
    apply ih fun n hn => hstep _ (.inl (h n (List.mem_cons_of_mem _ hn)))
    rcases hp with hp | hp
    · exact .inl (hstep p (.inl hp))
    · rcases List.mem_cons.mp hp with rfl | hp
      · exact .inl (hstep _ (.inr rfl))
      · exact .inr hp

/-- Copies between places that are to hold the same keep those that do. -/
theorem copies_labelled {label : α → β} (hproper : ∀ m ∈ moves, m.1 ≠ m.2)
    (hlabel : ∀ m ∈ moves, label m.1 = label m.2) (hf : ∀ m ∈ moves, f m.1 = label m.1) {p : α}
    (hp : f p = label p ∨ p ∈ moves.map Prod.snd) : copies blank f moves p = label p := by
  induction moves generalizing f with
  | nil => simpa using hp
  | cons m rest ih =>
    have hstep : ∀ q, f q = label q ∨ q = m.2 → copy blank f m q = label q := by
      intro q hq
      by_cases hqm : q = m.2
      · subst hqm
        rw [copy_self, if_neg (hproper m (by simp)), hf m (by simp), hlabel m (by simp)]
      · rw [copy_ne f hqm]
        exact hq.resolve_right hqm
    apply ih (fun n hn => hproper n (List.mem_cons_of_mem _ hn))
      (fun n hn => hlabel n (List.mem_cons_of_mem _ hn))
      fun n hn => hstep _ (.inl (hf n (List.mem_cons_of_mem _ hn)))
    rcases hp with hp | hp
    · exact .inl (hstep p (.inl hp))
    · rcases List.mem_cons.mp hp with rfl | hp
      · exact .inl (hstep _ (.inr rfl))
      · exact .inr hp

/-- Copies of places onto themselves leave nothing. -/
theorem copies_self (h : ∀ m ∈ moves, m.1 = m.2) {p : α} (hp : f p = blank ∨ p ∈ moves.map Prod.snd) :
    copies blank f moves p = blank := by
  induction moves generalizing f with
  | nil => simpa using hp
  | cons m rest ih =>
    apply ih fun n hn => h n (List.mem_cons_of_mem _ hn)
    by_cases hpm : p = m.2
    · subst hpm
      rw [copy_self, if_pos (h m (by simp))]
      exact .inl rfl
    · rw [copy_ne f hpm]
      rcases hp with hp | hp
      · exact .inl hp
      · rcases List.mem_cons.mp hp with rfl | hp
        · exact absurd rfl hpm
        · exact .inr hp

/-- A value that copies find nowhere in a set of places they only fill from the set. -/
theorem copies_absent (inside : α → Prop) {value : β} (hblank : blank ≠ value)
    (hclosed : ∀ m ∈ moves, inside m.2 → inside m.1) (hf : ∀ p, inside p → f p ≠ value) :
    ∀ p, inside p → copies blank f moves p ≠ value := by
  induction moves generalizing f with
  | nil => exact hf
  | cons m rest ih =>
    apply ih fun n hn => hclosed n (List.mem_cons_of_mem _ hn)
    intro p hp
    by_cases hpm : p = m.2
    · subst hpm
      rw [copy_self]
      split
      · exact hblank
      · exact hf _ (hclosed m (by simp) hp)
    · rw [copy_ne f hpm]
      exact hf p hp

omit [DecidableEq α] in
/-- The first copy into a set of places. -/
theorem first_into (inside : α → Prop) (h : ∃ m ∈ moves, inside m.2) :
    ∃ before m after, moves = before ++ m :: after ∧ inside m.2 ∧ ∀ n ∈ before, ¬ inside n.2 := by
  classical
  obtain ⟨m, hm⟩ := Option.isSome_iff_exists.mp
    (List.find?_isSome.mpr (by simpa using h) : (moves.find? fun m => inside m.2).isSome)
  obtain ⟨hin, before, after, heq, hbefore⟩ := List.find?_eq_some_iff_append.mp hm
  exact ⟨before, m, after, heq, by simpa using hin, by simpa using hbefore⟩

omit [DecidableEq α] in
/-- The last copy to a place. -/
theorem last_to {m : α × α} {moves : List (α × α)} (h : m ∈ moves) :
    ∃ before last after, moves = before ++ last :: after ∧ last.2 = m.2 ∧
      ∀ n ∈ after, n.2 ≠ m.2 := by
  have hrev : ∃ n ∈ moves.reverse, n.2 = m.2 := ⟨m, by simpa using h, rfl⟩
  obtain ⟨before, n, after, heq, hn, hbefore⟩ := first_into (· = m.2) hrev
  refine ⟨after.reverse, n, before.reverse, ?_, hn, by simpa using hbefore⟩
  have hflip := congrArg List.reverse heq
  simpa using hflip

omit [DecidableEq α] in
theorem pairwise_of_splits {R : α → α → Prop} {items : List α}
    (h : ∀ before x after, items = before ++ x :: after → ∀ y ∈ before, R y x) :
    items.Pairwise R := by
  induction items using List.reverseRecOn with
  | nil => exact .nil
  | append_singleton rest x ih =>
    refine List.pairwise_append.mpr ⟨ih ?_, List.pairwise_singleton _ _, ?_⟩
    · intro before y after heq
      exact h before y (after ++ [x]) (by simp [heq])
    · intro y hy z hz
      obtain rfl := List.mem_singleton.mp hz
      exact h rest z [] rfl y hy

/-! ## What has to hold of the list -/

section Needed

variable {one zero : β}

/-- One value at one place and another everywhere else. -/
def marked (one zero : β) (x : α) : α → β := fun p => if p = x then one else zero

/-- Every destination ends with what its source held, for the contents that mark one place. -/
def Faithful (blank one zero : β) (moves : List (α × α)) : Prop :=
  ∀ x, ∀ m ∈ moves,
    copies blank (marked one zero x) moves m.2 = marked one zero x m.1

variable (hzero : one ≠ zero) (hblank : blank ≠ one)
include hzero

/-- Places that every mark treats alike are one place. -/
theorem eq_of_marked {p q : α} (h : ∀ x, marked one zero x p = marked one zero x q) : p = q := by
  have hone := h p
  by_contra hne
  simp [marked, Ne.symm hne, hzero] at hone

theorem agree_of_faithful (h : Faithful blank one zero moves) :
    ∀ m ∈ moves, ∀ n ∈ moves, m.2 = n.2 → m.1 = n.1 := by
  intro m hm n hn heq
  apply eq_of_marked hzero
  intro x
  rw [← h x m hm, heq, h x n hn]

/-- The places a place is filled from, directly or over others. -/
def Feeds (moves : List (α × α)) (a : α) : α → Prop :=
  Relation.ReflTransGen (fun q p => (p, q) ∈ moves) a

include hblank

/-- A destination that is last filled from a place which some copy up to then has overwritten:
marking the first place that is lost among those that feed the source shows it. -/
theorem not_faithful {before after : List (α × α)} {k : α × α}
    (hmoves : moves = before ++ k :: after) (hlast : ∀ n ∈ after, n.2 ≠ k.2)
    (hover : ∃ m ∈ before ++ [k], m.2 = k.1) : ¬ Faithful blank one zero moves := by
  intro h
  have hsplit : moves = (before ++ [k]) ++ after := by simp [hmoves]
  obtain ⟨m, hm, hmk⟩ := hover
  obtain ⟨pre, d, mid, hpre, hd, hfirst⟩ :=
    first_into (Feeds moves k.1) ⟨m, hm, hmk ▸ .refl⟩
  have hclosed : ∀ n ∈ moves, Feeds moves k.1 n.2 → Feeds moves k.1 n.1 :=
    fun n hn hin => hin.tail hn
  have hdmem : d ∈ moves := by rw [hsplit, hpre]; simp
  -- once the marked place is overwritten its value is nowhere among those that feed the source
  have hlost : ∀ p, Feeds moves k.1 p →
      copy blank (copies blank (marked one zero d.2) pre) d p ≠ one := by
    have hkept : ∀ p, Feeds moves k.1 p →
        copies blank (marked one zero d.2) pre p = marked one zero d.2 p := by
      intro p hp
      apply copies_frame
      intro hmem
      obtain ⟨n, hn, rfl⟩ := List.mem_map.mp hmem
      exact hfirst n hn hp
    intro p hp
    by_cases hpd : p = d.2
    · subst hpd
      rw [copy_self]
      split
      · exact hblank
      · rename_i hne
        rw [hkept _ (hclosed d hdmem hd)]
        simpa [marked, hne] using hzero.symm
    · rw [copy_ne _ hpd, hkept p hp]
      simpa [marked, hpd] using hzero.symm
  have hlater : ∀ rest, (∀ n ∈ rest, n ∈ moves) → ∀ p, Feeds moves k.1 p →
      copies blank (marked one zero d.2) (pre ++ d :: rest) p ≠ one := by
    intro rest hrest
    rw [copies_append, copies_cons]
    exact copies_absent _ hblank (fun n hn => hclosed n (hrest n hn)) hlost
  have hend : ∀ p, Feeds moves k.1 p → copies blank (marked one zero d.2) moves p ≠ one := by
    have hwhole : moves = pre ++ d :: (mid ++ after) := by rw [hsplit, hpre]; simp
    have hall := hlater (mid ++ after) (fun n hn => by
      rw [hwhole]
      exact List.mem_append_right _ (List.mem_cons_of_mem _ hn))
    rwa [← hwhole] at hall
  by_cases hx : d.2 = k.1
  · -- the source itself is lost, by the last copy from it or before
    have hk : copies blank (marked one zero d.2) moves k.2 = one := by
      rw [h d.2 k (by simp [hmoves])]
      simp [marked, hx]
    rcases List.eq_nil_or_concat mid with rfl | ⟨mid', e, rfl⟩
    · have hlast' : before = pre ∧ k = d := by simpa using hpre
      exact hend k.2 (hlast'.2 ▸ hd) hk
    · have hends : before ++ [k] = (pre ++ d :: mid') ++ [e] := by simpa using hpre
      obtain ⟨rfl, he⟩ := List.append_inj' hends rfl
      obtain rfl : k = e := by simpa using he
      have hbefore := hlater mid' (fun n hn => by rw [hmoves]; simp [hn]) k.1 .refl
      have hafter : k.2 ∉ after.map Prod.snd := by
        intro hmem
        obtain ⟨n, hn, heq⟩ := List.mem_map.mp hmem
        exact hlast n hn heq
      rw [hmoves, copies_append, copies_cons, copies_frame hafter, copy_self] at hk
      split at hk
      · exact hblank hk
      · exact hbefore hk
  · obtain hrefl | ⟨q, hq, hedge⟩ := (Relation.ReflTransGen.cases_tail_iff _ _ _).mp hd
    · exact hx hrefl
    · have hmark := h d.2 (d.2, q) hedge
      apply hend q hq
      simpa [marked] using hmark

/-- Lists of copies that give every destination what its source held are apart. -/
theorem apart_of_faithful (h : Faithful blank one zero moves) : Apart moves := by
  have hagree := agree_of_faithful hzero h
  -- a copy that reads what was overwritten up to it gives a last copy that does
  have hnone : ∀ pre m post, moves = pre ++ m :: post → ∀ n ∈ pre ++ [m], n.2 ≠ m.1 := by
    intro pre m post heq n hn hover
    obtain ⟨post', l, after, hpost, hl, hafter⟩ := last_to (List.mem_cons_self : m ∈ m :: post)
    have hmoves : moves = (pre ++ post') ++ l :: after := by rw [heq, hpost]; simp
    have hsame : l.1 = m.1 :=
      hagree l (by rw [hmoves]; simp) m (by rw [heq]; simp) hl
    refine not_faithful hzero hblank hmoves (hl ▸ hafter) ⟨n, ?_, hsame ▸ hover⟩ h
    rcases List.mem_append.mp hn with hn | hn
    · simp [hn]
    · obtain rfl := List.mem_singleton.mp hn
      cases post' with
      | nil =>
        obtain ⟨rfl, _⟩ : n = l ∧ post = after := by simpa using hpost
        simp
      | cons x xs =>
        obtain ⟨rfl, _⟩ : n = x ∧ post = xs ++ l :: after := by simpa using hpost
        simp
  constructor
  · intro m hm heq
    obtain ⟨pre, post, hsplit⟩ := List.append_of_mem hm
    exact hnone pre m post hsplit m (by simp) heq.symm
  · apply pairwise_of_splits
    intro pre m post hsplit n hn heq
    exact hnone pre m post hsplit n (by simp [hn]) heq.symm
  · exact hagree

end Needed

end QStar.Lib.Copies
