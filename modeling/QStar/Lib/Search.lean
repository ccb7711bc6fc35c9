import QStar.Lib.Fixpoints
import Mathlib.Data.List.Nodup

/-!
# Depth-first search

A search that enters every key once and finishes a node after the nodes it asks
for. Meeting a node that has been entered but not finished is an error or not, as
the space says. A search that succeeds has finished, without repetition, a set of
nodes that holds its roots and is closed under asking.
-/
namespace QStar.Lib.Search

open QStar.Lib.Fixpoints
open QStar.Lib.Results

variable {ν κ ε : Type}

/-- What is searched. -/
structure Space (ν κ ε : Type) where
  key : ν → κ
  next : ν → Except ε (List ν)
  /-- What meeting an entered node that is not finished amounts to. -/
  again : ν → Except ε Unit
  /-- The error of a search that is deeper than its fuel. -/
  tooDeep : ε

/-- How far a search has come: the entered keys, and the finished nodes in their order. -/
structure Progress (ν κ : Type) where
  entered : List κ
  finished : List ν

def Space.keys (s : Space ν κ ε) (nodes : List ν) : List κ := nodes.map s.key

@[simp] theorem keys_append (s : Space ν κ ε) (xs ys : List ν) :
    s.keys (xs ++ ys) = s.keys xs ++ s.keys ys := List.map_append

/-- Finished nodes have been entered. -/
def Space.Sound (s : Space ν κ ε) (p : Progress ν κ) : Prop :=
  ∀ k ∈ s.keys p.finished, k ∈ p.entered

/-- What a search adds: nodes with new keys, once each, whose successors have been entered. -/
structure Space.Extends (s : Space ν κ ε) (p q : Progress ν κ) (added : List ν) : Prop where
  finished : q.finished = p.finished ++ added
  entered : ∀ k, k ∈ q.entered ↔ k ∈ p.entered ∨ k ∈ s.keys added
  fresh : ∀ k ∈ s.keys added, k ∉ p.entered
  nodup : (s.keys added).Nodup
  closed : ∀ n ∈ added, ∃ asked, s.next n = .ok asked ∧ ∀ m ∈ asked, s.key m ∈ q.entered

/-- Each of the nodes is one of those that are wanted, or another of them asks for it. -/
def Space.WantedFrom (s : Space ν κ ε) (wanted nodes : List ν) : Prop :=
  ∀ m ∈ nodes, m ∈ wanted ∨ ∃ n ∈ nodes, ∃ asked, s.next n = .ok asked ∧ m ∈ asked

theorem Space.WantedFrom.append {s : Space ν κ ε} {wanted wanted' xs ys : List ν}
    (hxs : s.WantedFrom wanted xs) (hys : s.WantedFrom wanted' ys) :
    s.WantedFrom (wanted ++ wanted') (xs ++ ys) := by
  intro m hm
  rcases List.mem_append.mp hm with hm | hm
  · rcases hxs m hm with hwanted | ⟨n, hn, hasked⟩
    · exact .inl (List.mem_append_left _ hwanted)
    · exact .inr ⟨n, List.mem_append_left _ hn, hasked⟩
  · rcases hys m hm with hwanted | ⟨n, hn, hasked⟩
    · exact .inl (List.mem_append_right _ hwanted)
    · exact .inr ⟨n, List.mem_append_right _ hn, hasked⟩

/-- What a node asked for is wanted for its sake. -/
theorem Space.WantedFrom.finish {s : Space ν κ ε} {n : ν} {asked xs : List ν}
    (hnext : s.next n = .ok asked) (hxs : s.WantedFrom asked xs) :
    s.WantedFrom [n] (xs ++ [n]) := by
  intro m hm
  rcases List.mem_append.mp hm with hm | hm
  · rcases hxs m hm with hwanted | ⟨k, hk, hasked⟩
    · exact .inr ⟨n, by simp, asked, hnext, hwanted⟩
    · exact .inr ⟨k, List.mem_append_left _ hk, hasked⟩
  · exact .inl hm

section Extends

variable {s : Space ν κ ε} {p q r : Progress ν κ} {xs ys : List ν}

theorem Space.Extends.refl (s : Space ν κ ε) (p : Progress ν κ) : s.Extends p p [] where
  finished := by simp
  entered := by simp [Space.keys]
  fresh := by simp [Space.keys]
  nodup := List.nodup_nil
  closed := by simp

theorem Space.Extends.trans (hpq : s.Extends p q xs) (hqr : s.Extends q r ys) :
    s.Extends p r (xs ++ ys) where
  finished := by rw [hqr.finished, hpq.finished, List.append_assoc]
  entered := by
    intro k
    rw [hqr.entered, hpq.entered, keys_append, List.mem_append, or_assoc]
  fresh := by
    intro k hk
    rw [keys_append, List.mem_append] at hk
    rcases hk with hk | hk
    · exact hpq.fresh k hk
    · intro hp
      exact hqr.fresh k hk ((hpq.entered k).mpr (.inl hp))
  nodup := by
    rw [keys_append]
    refine List.nodup_append.mpr ⟨hpq.nodup, hqr.nodup, ?_⟩
    intro a ha b hb hab
    exact hqr.fresh b hb ((hpq.entered b).mpr (.inr (hab ▸ ha)))
  closed := by
    intro n hn
    rcases List.mem_append.mp hn with hn | hn
    · obtain ⟨asked, hnext, hasked⟩ := hpq.closed n hn
      exact ⟨asked, hnext, fun m hm => (hqr.entered _).mpr (.inl (hasked m hm))⟩
    · exact hqr.closed n hn

theorem Space.Extends.sound (hpq : s.Extends p q xs) (hp : s.Sound p) : s.Sound q := by
  intro k hk
  rw [hpq.finished, keys_append, List.mem_append] at hk
  rcases hk with hk | hk
  · exact (hpq.entered k).mpr (.inl (hp k hk))
  · exact (hpq.entered k).mpr (.inr hk)

/-- A node that is finished after what it asked for. -/
theorem Space.Extends.finish {n : ν} {asked : List ν} (hfresh : s.key n ∉ p.entered)
    (hasked : s.next n = .ok asked) (hmet : ∀ m ∈ asked, s.key m ∈ q.entered)
    (hpq : s.Extends ⟨s.key n :: p.entered, p.finished⟩ q xs) :
    s.Extends p ⟨q.entered, q.finished ++ [n]⟩ (xs ++ [n]) where
  finished := by
    rw [hpq.finished, List.append_assoc]
  entered := by
    intro k
    rw [hpq.entered, List.mem_cons, keys_append, List.mem_append]
    constructor
    · intro h
      rcases h with (rfl | h) | h
      · exact .inr (.inr (by simp [Space.keys]))
      · exact .inl h
      · exact .inr (.inl h)
    · intro h
      rcases h with h | h | h
      · exact .inl (.inr h)
      · exact .inr h
      · exact .inl (.inl (by simpa [Space.keys] using h))
  fresh := by
    intro k hk
    rw [keys_append, List.mem_append] at hk
    rcases hk with hk | hk
    · exact fun hp => hpq.fresh k hk (List.mem_cons_of_mem _ hp)
    · simp only [Space.keys, List.map_cons, List.map_nil, List.mem_singleton] at hk
      exact hk ▸ hfresh
  nodup := by
    rw [keys_append]
    refine List.nodup_append.mpr ⟨hpq.nodup, by simp [Space.keys], ?_⟩
    intro a ha b hb hab
    simp only [Space.keys, List.map_cons, List.map_nil, List.mem_singleton] at hb
    refine hpq.fresh a ha ?_
    rw [hab, hb]
    exact List.mem_cons_self
  closed := by
    intro m hm
    rcases List.mem_append.mp hm with hm | hm
    · exact hpq.closed m hm
    · rw [List.mem_singleton] at hm
      exact ⟨asked, hm ▸ hasked, hmet⟩

end Extends

/-- Every node stands behind all that it asks for. -/
def Space.Ordered (s : Space ν κ ε) (order : List ν) : Prop :=
  ∀ before n after, order = before ++ n :: after →
    ∃ asked, s.next n = .ok asked ∧ ∀ m ∈ asked, s.key m ∈ s.keys before

theorem Space.Ordered.snoc {s : Space ν κ ε} {order asked : List ν} {n : ν} (h : s.Ordered order)
    (hnext : s.next n = .ok asked) (hasked : ∀ m ∈ asked, s.key m ∈ s.keys order) :
    s.Ordered (order ++ [n]) := by
  intro before k after heq
  rcases List.eq_nil_or_concat after with rfl | ⟨rest, last, rfl⟩
  · obtain ⟨rfl, hk⟩ := List.append_inj' heq (by simp only [List.length_cons])
    cases hk
    exact ⟨asked, hnext, hasked⟩
  · rw [List.concat_eq_append, ← List.cons_append, ← List.append_assoc] at heq
    obtain ⟨horder, -⟩ := List.append_inj' heq (by simp only [List.length_cons])
    exact h before k rest horder

theorem mem_keys_of_prefix {s : Space ν κ ε} {xs ys : List ν} (h : xs <+: ys) {k : κ} (hk : k ∈ s.keys xs) :
    k ∈ s.keys ys :=
  (h.map s.key).subset hk

/-! ## Asking -/

/-- A node that a node asks for. -/
def Space.Asks (s : Space ν κ ε) (n m : ν) : Prop := ∃ asked, s.next n = .ok asked ∧ m ∈ asked

/-- Nodes that are told by their keys, with all that they ask for. -/
structure Space.Within (s : Space ν κ ε) (nodes : List ν) : Prop where
  nodup : (s.keys nodes).Nodup
  closed : ∀ n ∈ nodes, ∀ asked, s.next n = .ok asked → ∀ m ∈ asked, m ∈ nodes

section Asks

variable {s : Space ν κ ε} {nodes roots added : List ν} {n m : ν} {p q : Progress ν κ}

theorem Space.Within.eq_of_key (hwithin : s.Within nodes) (hn : n ∈ nodes) (hm : m ∈ nodes)
    (hkey : s.key n = s.key m) : n = m :=
  List.inj_on_of_nodup_map hwithin.nodup hn hm hkey

theorem Space.Within.of_reached (hwithin : s.Within nodes) (hroots : ∀ r ∈ roots, r ∈ nodes)
    (hn : Reached (· ∈ roots) s.Asks n) : n ∈ nodes := by
  refine hn.induction hroots ?_
  rintro a b ha ⟨asked, hasked, hb⟩
  exact hwithin.closed a ha asked hasked b hb

/-- The entered nodes that are not finished lead to the node in hand. -/
def Space.Leads (s : Space ν κ ε) (nodes : List ν) (p : Progress ν κ) (n : ν) : Prop :=
  ∀ k ∈ p.entered, k ∈ s.keys p.finished ∨
    ∃ a ∈ nodes, s.key a = k ∧ Relation.TransGen s.Asks a n

theorem Space.Leads.extend (h : s.Leads nodes p n)
    (hq : s.Extends p q added) : s.Leads nodes q n := by
  intro k hk
  rw [hq.finished, keys_append, List.mem_append]
  rcases (hq.entered k).mp hk with hold | hnew
  · rcases h k hold with hfinished | hleads
    · exact .inl (.inl hfinished)
    · exact .inr hleads
  · exact .inl (.inr hnew)

theorem Space.Leads.enter (h : s.Leads nodes p n) (hn : n ∈ nodes)
    (hasks : s.Asks n m) : s.Leads nodes ⟨s.key n :: p.entered, p.finished⟩ m := by
  intro k hk
  rcases List.mem_cons.mp hk with rfl | hk
  · exact .inr ⟨n, hn, rfl, .single hasks⟩
  · rcases h k hk with hfinished | ⟨a, ha, hkey, hleads⟩
    · exact .inl hfinished
    · exact .inr ⟨a, ha, hkey, hleads.tail hasks⟩

end Asks

/-! ## Searching -/

variable [DecidableEq κ]

/-- A search from one node. Every level below enters a key, which bounds the depth. -/
def Space.visit (s : Space ν κ ε) : Nat → ν → Progress ν κ → Except ε (Progress ν κ)
  | 0, _, _ => .error s.tooDeep
  | fuel + 1, n, p =>
    if s.key n ∈ s.keys p.finished then .ok p
    else if s.key n ∈ p.entered then do
      s.again n
      return p
    else do
      let asked ← s.next n
      let p ← asked.foldlM (fun p m => s.visit fuel m p) ⟨s.key n :: p.entered, p.finished⟩
      return ⟨p.entered, p.finished ++ [n]⟩

/-- The nodes a search from some roots finishes, in their order. -/
def Space.search (s : Space ν κ ε) (fuel : Nat) (roots : List ν) : Except ε (List ν) := do
  let p ← roots.foldlM (fun p n => s.visit fuel n p) ⟨[], []⟩
  return p.finished

variable {s : Space ν κ ε} {p q : Progress ν κ}

/-- What visits do one by one they do one after the other. -/
theorem foldlM_extends {fuel : Nat}
    (hvisit : ∀ n p q, s.Sound p → s.visit fuel n p = .ok q →
      s.key n ∈ q.entered ∧ ∃ added, s.Extends p q added ∧ s.WantedFrom [n] added)
    {nodes : List ν} (hp : s.Sound p)
    (h : nodes.foldlM (fun p n => s.visit fuel n p) p = .ok q) :
    (∀ n ∈ nodes, s.key n ∈ q.entered) ∧
      ∃ added, s.Extends p q added ∧ s.WantedFrom nodes added := by
  induction nodes generalizing p with
  | nil =>
    cases h
    exact ⟨by simp, [], .refl s _, nofun⟩
  | cons n rest ih =>
    rw [List.foldlM_cons, bind_eq_ok] at h
    obtain ⟨mid, hmid, h⟩ := h
    obtain ⟨hentered, xs, hxs, hwantedxs⟩ := hvisit n p mid hp hmid
    obtain ⟨hrest, ys, hys, hwantedys⟩ := ih (hxs.sound hp) h
    refine ⟨?_, xs ++ ys, hxs.trans hys, hwantedxs.append hwantedys⟩
    intro m hm
    rcases List.mem_cons.mp hm with rfl | hm
    · exact (hys.entered _).mpr (.inl hentered)
    · exact hrest m hm

/-- A visit enters its node and adds nodes that are wanted and whose successors it enters. -/
theorem visit_extends {fuel : Nat} {n : ν} (hp : s.Sound p) (h : s.visit fuel n p = .ok q) :
    s.key n ∈ q.entered ∧ ∃ added, s.Extends p q added ∧ s.WantedFrom [n] added := by
  induction fuel generalizing n p q with
  | zero => cases h
  | succ fuel ih =>
    unfold Space.visit at h
    split at h
    · rename_i hdone
      cases h
      exact ⟨hp _ hdone, [], .refl s p, nofun⟩
    · split at h
      · rename_i hentered
        obtain ⟨u, -, h⟩ := bind_eq_ok.mp h
        cases h
        exact ⟨hentered, [], .refl s p, nofun⟩
      · rename_i hfresh
        obtain ⟨asked, hasked, h⟩ := bind_eq_ok.mp h
        obtain ⟨below, hbelow, h⟩ := bind_eq_ok.mp h
        cases h
        have hstart : s.Sound ⟨s.key n :: p.entered, p.finished⟩ :=
          fun k hk => List.mem_cons_of_mem _ (hp k hk)
        obtain ⟨hmet, xs, hxs, hwanted⟩ :=
          foldlM_extends (fun m p' q' hp' h' => ih hp' h') hstart hbelow
        refine ⟨(hxs.entered _).mpr (.inl List.mem_cons_self), xs ++ [n], ?_, hwanted.finish hasked⟩
        exact Space.Extends.finish hfresh hasked hmet hxs

/-- A successful search finishes its roots and what finished nodes ask for, each key once. -/
theorem search_spec {fuel : Nat} {roots order : List ν} (h : s.search fuel roots = .ok order) :
    (s.keys order).Nodup ∧ (∀ n ∈ roots, s.key n ∈ s.keys order) ∧
      ∀ n ∈ order, ∃ asked, s.next n = .ok asked ∧ ∀ m ∈ asked, s.key m ∈ s.keys order := by
  obtain ⟨q, hq, h⟩ := bind_eq_ok.mp h
  cases h
  have hstart : s.Sound ⟨[], []⟩ := by simp [Space.Sound, Space.keys]
  obtain ⟨hroots, added, hadded, -⟩ :=
    foldlM_extends (fun n p' q' hp' h' => visit_extends hp' h') hstart hq
  have horder : q.finished = added := by simpa using hadded.finished
  have hentered : ∀ k, k ∈ q.entered ↔ k ∈ s.keys added := by simpa using hadded.entered
  rw [horder]
  refine ⟨hadded.nodup, fun n hn => (hentered _).mp (hroots n hn), ?_⟩
  intro n hn
  obtain ⟨asked, hasked, hmet⟩ := hadded.closed n hn
  exact ⟨asked, hasked, fun m hm => (hentered _).mp (hmet m hm)⟩

/-- A search finishes nothing but its roots and what finished nodes ask for. -/
theorem search_wanted {fuel : Nat} {roots order : List ν} (h : s.search fuel roots = .ok order) :
    s.WantedFrom roots order := by
  obtain ⟨q, hq, h⟩ := bind_eq_ok.mp h
  cases h
  have hstart : s.Sound ⟨[], []⟩ := by simp [Space.Sound, Space.keys]
  obtain ⟨-, added, hadded, hwanted⟩ :=
    foldlM_extends (fun n p' q' hp' h' => visit_extends hp' h') hstart hq
  have horder : q.finished = added := by simpa using hadded.finished
  exact horder ▸ hwanted

/-! ## Searches that may not come back to an entered node -/

/-- What strict visits do one by one they do one after the other. -/
theorem foldlM_ordered {fuel : Nat}
    (hvisit : ∀ n p q, s.Ordered p.finished → s.visit fuel n p = .ok q →
      s.Ordered q.finished ∧ p.finished <+: q.finished ∧ s.key n ∈ s.keys q.finished)
    {nodes : List ν} (hp : s.Ordered p.finished)
    (h : nodes.foldlM (fun p n => s.visit fuel n p) p = .ok q) :
    s.Ordered q.finished ∧ p.finished <+: q.finished ∧ ∀ n ∈ nodes, s.key n ∈ s.keys q.finished := by
  induction nodes generalizing p with
  | nil =>
    cases h
    exact ⟨hp, List.prefix_rfl, nofun⟩
  | cons n rest ih =>
    rw [List.foldlM_cons, bind_eq_ok] at h
    obtain ⟨mid, hmid, h⟩ := h
    obtain ⟨hordered, hgrown, hfinished⟩ := hvisit n p mid hp hmid
    obtain ⟨hq, hgrown', hrest⟩ := ih hordered h
    refine ⟨hq, hgrown.trans hgrown', ?_⟩
    intro m hm
    rcases List.mem_cons.mp hm with rfl | hm
    · exact mem_keys_of_prefix hgrown' hfinished
    · exact hrest m hm

/-- Where no entered node may be met again, a visit finishes its node after what it asks for. -/
theorem visit_ordered (hstrict : ∀ n u, s.again n ≠ .ok u) {fuel : Nat} {n : ν}
    (hp : s.Ordered p.finished) (h : s.visit fuel n p = .ok q) :
    s.Ordered q.finished ∧ p.finished <+: q.finished ∧ s.key n ∈ s.keys q.finished := by
  induction fuel generalizing n p q with
  | zero => cases h
  | succ fuel ih =>
    unfold Space.visit at h
    split at h
    · rename_i hdone
      cases h
      exact ⟨hp, List.prefix_rfl, hdone⟩
    · split at h
      · obtain ⟨u, hagain, -⟩ := bind_eq_ok.mp h
        exact absurd hagain (hstrict n u)
      · obtain ⟨asked, hasked, h⟩ := bind_eq_ok.mp h
        obtain ⟨below, hbelow, h⟩ := bind_eq_ok.mp h
        cases h
        have hstart : s.Ordered (Progress.mk (s.key n :: p.entered) p.finished).finished := hp
        obtain ⟨hordered, hgrown, hmet⟩ :=
          foldlM_ordered (fun m p' q' hp' h' => ih hp' h') hstart hbelow
        refine ⟨hordered.snoc hasked hmet, hgrown.trans (List.prefix_append _ _), ?_⟩
        simp [Space.keys]

/-- A strict search finishes its nodes after what they ask for. -/
theorem search_ordered (hstrict : ∀ n u, s.again n ≠ .ok u) {fuel : Nat} {roots order : List ν}
    (h : s.search fuel roots = .ok order) : s.Ordered order := by
  obtain ⟨q, hq, h⟩ := bind_eq_ok.mp h
  cases h
  have hstart : s.Ordered (⟨[], []⟩ : Progress ν κ).finished := by
    intro before n after heq
    simp at heq
  exact (foldlM_ordered (fun n p' q' hp' h' => visit_ordered hstrict hp' h') hstart hq).1

/-- The place of a node in a strict order is above those of the nodes it asks for. -/
theorem Space.Ordered.exists_rank {order : List ν} (h : s.Ordered order)
    (hnodup : (s.keys order).Nodup) :
    ∃ rank : κ → Nat, ∀ n ∈ order, rank (s.key n) < order.length ∧
      ∀ asked, s.next n = .ok asked → ∀ m ∈ asked, rank (s.key m) < rank (s.key n) := by
  refine ⟨fun k => (s.keys order).idxOf k, fun n hn => ⟨?_, ?_⟩⟩
  · have hkey : s.key n ∈ s.keys order := List.mem_map_of_mem hn
    simpa [Space.keys] using List.idxOf_lt_length_of_mem hkey
  · intro asked hnext m hm
    obtain ⟨before, after, rfl⟩ := List.append_of_mem hn
    obtain ⟨asked', hnext', hmet⟩ := h before n after rfl
    have hbefore : s.key m ∈ s.keys before := by
      rw [hnext] at hnext'
      cases hnext'
      exact hmet m hm
    have hfresh : s.key n ∉ s.keys before := by
      rw [keys_append] at hnodup
      intro hmem
      exact (List.nodup_append.mp hnodup).2.2 _ hmem _ (by simp [Space.keys]) rfl
    dsimp only
    rw [keys_append, List.idxOf_append_of_mem hbefore, List.idxOf_append_of_notMem hfresh]
    exact Nat.lt_of_lt_of_le (List.idxOf_lt_length_of_mem hbefore) (Nat.le_add_right _ _)

/-- A strict search finishes only what its roots reach. -/
theorem search_reached (hstrict : ∀ n u, s.again n ≠ .ok u) {fuel : Nat} {roots order : List ν}
    (h : s.search fuel roots = .ok order) {n : ν} (hn : n ∈ order) :
    Reached (· ∈ roots) s.Asks n := by
  obtain ⟨rank, hrank⟩ := (search_ordered hstrict h).exists_rank (search_spec h).1
  -- a node that is no root is asked for by one of a higher rank, and ranks are bounded
  have hwanted := search_wanted h
  generalize hdepth : order.length - rank (s.key n) = depth
  induction depth using Nat.strongRecOn generalizing n with
  | _ depth ih =>
    rcases hwanted n hn with hroot | ⟨m, hm, asked, hasked, hmem⟩
    · exact .of_root hroot
    · have hhigher := (hrank m hm).2 asked hasked n hmem
      have hbelow := (hrank m hm).1
      have hreached := ih (order.length - rank (s.key m)) (by omega) hm rfl
      exact hreached.step ⟨asked, hasked, hmem⟩

/-! ## When a strict search succeeds -/

section Within

variable {nodes roots order : List ν} {n m : ν} {fuel : Nat}

/-- A strict search finishes just what its roots reach. -/
theorem mem_search_iff (hstrict : ∀ n u, s.again n ≠ .ok u) (hwithin : s.Within nodes)
    (hroots : ∀ r ∈ roots, r ∈ nodes) (h : s.search fuel roots = .ok order) :
    n ∈ order ↔ Reached (· ∈ roots) s.Asks n := by
  have hmem : ∀ k ∈ order, k ∈ nodes :=
    fun k hk => hwithin.of_reached hroots (search_reached hstrict h hk)
  have hfinished : ∀ k ∈ nodes, s.key k ∈ s.keys order → k ∈ order := by
    intro k hk hkey
    obtain ⟨o, ho, hsame⟩ := List.mem_map.mp hkey
    exact hwithin.eq_of_key (hmem o ho) hk hsame ▸ ho
  obtain ⟨-, hstarted, hclosed⟩ := search_spec h
  constructor
  · exact search_reached hstrict h
  · intro hn
    refine hn.induction (fun r hr => hfinished r (hroots r hr) (hstarted r hr)) ?_
    rintro a b ha ⟨asked, hasked, hb⟩
    obtain ⟨asked', hasked', hmet⟩ := hclosed a ha
    cases hasked.symm.trans hasked'
    exact hfinished b (hwithin.closed a (hmem a ha) asked hasked b hb) (hmet b hb)

/-- No node that a successful strict search finishes reaches itself. -/
theorem not_transGen_of_search (hstrict : ∀ n u, s.again n ≠ .ok u) (hwithin : s.Within nodes)
    (hroots : ∀ r ∈ roots, r ∈ nodes) (h : s.search fuel roots = .ok order) (hn : n ∈ order) :
    ¬Relation.TransGen s.Asks n n := by
  obtain ⟨rank, hrank⟩ := (search_ordered hstrict h).exists_rank (search_spec h).1
  have hstep : ∀ a b, a ∈ order → s.Asks a b → b ∈ order ∧ rank (s.key b) < rank (s.key a) := by
    rintro a b ha ⟨asked, hasked, hb⟩
    have hreached := (mem_search_iff hstrict hwithin hroots h).mp ha
    exact ⟨(mem_search_iff hstrict hwithin hroots h).mpr (hreached.step ⟨asked, hasked, hb⟩),
      (hrank a ha).2 asked hasked b hb⟩
  have hdown : ∀ b, Relation.TransGen s.Asks n b → b ∈ order ∧ rank (s.key b) < rank (s.key n) := by
    intro b hb
    induction hb with
    | single hasks => exact hstep _ _ hn hasks
    | tail _ hasks ih =>
      obtain ⟨hmem, hlt⟩ := ih
      obtain ⟨hmem', hlt'⟩ := hstep _ _ hmem hasks
      exact ⟨hmem', Nat.lt_trans hlt' hlt⟩
  intro hcycle
  exact absurd (hdown n hcycle).2 (Nat.lt_irrefl _)

/-- The keys that are still to be entered. -/
def Space.left (s : Space ν κ ε) (nodes : List ν) (p : Progress ν κ) : List κ :=
  (s.keys nodes).filter fun k => decide (k ∉ p.entered)

theorem length_left_le {p q : Progress ν κ} (hgrown : ∀ k ∈ p.entered, k ∈ q.entered) :
    (s.left nodes q).length ≤ (s.left nodes p).length := by
  refine (List.Sublist.length_le (List.monotone_filter_right _ fun k hk => ?_))
  simp only [decide_eq_true_eq] at hk ⊢
  exact fun hentered => hk (hgrown k hentered)

theorem length_left_enter {p : Progress ν κ} (hn : n ∈ nodes) (hfresh : s.key n ∉ p.entered) :
    (s.left nodes ⟨s.key n :: p.entered, p.finished⟩).length < (s.left nodes p).length := by
  have hkey : s.key n ∈ s.left nodes p := by
    refine List.mem_filter.mpr ⟨List.mem_map_of_mem hn, ?_⟩
    exact decide_eq_true hfresh
  have hsame : s.left nodes ⟨s.key n :: p.entered, p.finished⟩ =
      (s.left nodes p).filter fun k => decide (k ≠ s.key n) := by
    unfold Space.left
    rw [List.filter_filter]
    refine List.filter_congr fun k _ => ?_
    simp only [List.mem_cons, not_or, Bool.decide_and]
  rw [hsame]
  exact List.length_filter_lt_length_iff_exists.mpr ⟨_, hkey, by simp⟩

/-- Visits that succeed one by one succeed one after the other. -/
theorem foldlM_succeeds {visited : List ν}
    (hvisit : ∀ m ∈ visited, ∀ p, s.Sound p → s.Leads nodes p m → (s.left nodes p).length < fuel →
      ∃ q, s.visit fuel m p = .ok q) (hp : s.Sound p) (hleads : ∀ m ∈ visited, s.Leads nodes p m)
    (hfuel : (s.left nodes p).length < fuel) :
    ∃ q, visited.foldlM (fun p m => s.visit fuel m p) p = .ok q := by
  induction visited generalizing p with
  | nil => exact ⟨p, rfl⟩
  | cons m rest ih =>
    obtain ⟨mid, hmid⟩ := hvisit m List.mem_cons_self p hp (hleads m List.mem_cons_self) hfuel
    obtain ⟨-, added, hadded, -⟩ := visit_extends hp hmid
    have hgrown : (s.left nodes mid).length ≤ (s.left nodes p).length :=
      length_left_le fun k hk => (hadded.entered k).mpr (.inl hk)
    obtain ⟨q, hq⟩ := ih (fun k hk => hvisit k (List.mem_cons_of_mem _ hk)) (hadded.sound hp)
      (fun k hk => (hleads k (List.mem_cons_of_mem _ hk)).extend hadded) (by omega)
    refine ⟨q, ?_⟩
    rw [List.foldlM_cons, bind_eq_ok]
    exact ⟨mid, hmid, hq⟩

/-- A visit of a node that reaches no error and no cycle succeeds. -/
theorem visit_succeeds (hwithin : s.Within nodes)
    (hnext : ∀ m, Relation.ReflTransGen s.Asks n m → ∃ asked, s.next m = .ok asked)
    (hacyclic : ∀ m, Relation.ReflTransGen s.Asks n m → ¬Relation.TransGen s.Asks m m)
    (hn : n ∈ nodes) (hp : s.Sound p) (hleads : s.Leads nodes p n)
    (hfuel : (s.left nodes p).length < fuel) : ∃ q, s.visit fuel n p = .ok q := by
  induction fuel generalizing n p with
  | zero => omega
  | succ fuel ih =>
    unfold Space.visit
    split
    · exact ⟨p, rfl⟩
    · rename_i hunfinished
      split
      · rename_i hentered
        rcases hleads _ hentered with hfinished | ⟨a, ha, hkey, hcycle⟩
        · exact absurd hfinished hunfinished
        · obtain rfl := hwithin.eq_of_key ha hn hkey
          exact absurd hcycle (hacyclic a .refl)
      · rename_i hfresh
        obtain ⟨asked, hasked⟩ := hnext n .refl
        have hasks : ∀ m ∈ asked, s.Asks n m := fun m hm => ⟨asked, hasked, hm⟩
        have hstart : s.Sound ⟨s.key n :: p.entered, p.finished⟩ :=
          fun k hk => List.mem_cons_of_mem _ (hp k hk)
        have hless := length_left_enter hn hfresh
        obtain ⟨q, hq⟩ := foldlM_succeeds
          (fun m hm p' hp' hleads' hfuel' => ih
            (fun k hk => hnext k (.head (hasks m hm) hk))
            (fun k hk => hacyclic k (.head (hasks m hm) hk))
            (hwithin.closed n hn asked hasked m hm) hp' hleads' hfuel')
          hstart (fun m hm => hleads.enter hn (hasks m hm)) (by omega)
        refine ⟨⟨q.entered, q.finished ++ [n]⟩, ?_⟩
        rw [bind_eq_ok]
        exact ⟨asked, hasked, bind_eq_ok.mpr ⟨q, hq, rfl⟩⟩

/-- A strict search fails just when its roots reach an error or a cycle. -/
theorem search_succeeds_iff (hstrict : ∀ n u, s.again n ≠ .ok u) (hwithin : s.Within nodes)
    (hroots : ∀ r ∈ roots, r ∈ nodes) (hfuel : nodes.length < fuel) :
    (∃ order, s.search fuel roots = .ok order) ↔
      ∀ n, Reached (· ∈ roots) s.Asks n →
        (∃ asked, s.next n = .ok asked) ∧ ¬Relation.TransGen s.Asks n n := by
  constructor
  · rintro ⟨order, h⟩ n hn
    have hmem := (mem_search_iff hstrict hwithin hroots h).mpr hn
    obtain ⟨asked, hasked, -⟩ := (search_spec h).2.2 n hmem
    exact ⟨⟨asked, hasked⟩, not_transGen_of_search hstrict hwithin hroots h hmem⟩
  · intro hreached
    have hbelow : ∀ r ∈ roots, ∀ m, Relation.ReflTransGen s.Asks r m →
        (∃ asked, s.next m = .ok asked) ∧ ¬Relation.TransGen s.Asks m m :=
      fun r hr m hm => hreached m ⟨r, hr, hm⟩
    obtain ⟨q, hq⟩ := foldlM_succeeds (p := ⟨[], []⟩)
      (fun r hr p hp hleads hless => visit_succeeds hwithin (fun m hm => (hbelow r hr m hm).1)
        (fun m hm => (hbelow r hr m hm).2) (hroots r hr) hp hleads hless)
      nofun (fun r _ => nofun) (by simpa [Space.left, Space.keys] using hfuel)
    exact ⟨q.finished, bind_eq_ok.mpr ⟨q, hq, rfl⟩⟩

end Within

end QStar.Lib.Search
