import QStar.Cleaning.Removal
import QStar.Lowering.Objects

/-!
# What a clean puts at risk

The paths a clean removes are tried in order, and a file on the way to one of them
stops the walk there. A file is doomed when the first path that reaches down to it
is not stopped before. A clean is safe exactly when nothing it is to leave alone is
doomed.
-/
namespace QStar.Cleaning

open QStar.Lib.CStrings QStar.Lib.FileTrees
open QStar.Base QStar.BuildGraph QStar.Lowering

/-- A file stands where the walk along a path needs a directory. -/
def Blocks (root : Place) (d f : Bytes) : Prop := ∃ e ∈ through root d, placeAt root f <:+ e

/-- A file lies at a path or below it, and not on the way there. -/
def Exposed (root : Place) (d f : Bytes) : Prop :=
  placeAt root d <:+ placeAt root f ∧ ¬ Blocks root d f

/-- A file that the removal of paths one after the other may take. -/
def Doomed (root : Place) (f : Bytes) : List Bytes → Prop
  | [] => False
  | d :: rest => Exposed root d f ∨ ¬ Blocks root d f ∧ Doomed root f rest

variable {readdir : Listing} {root : Place} {fuel : Nat} {f : Bytes}

theorem Doomed.exists_exposed {ds : List Bytes} (h : Doomed root f ds) :
    ∃ d ∈ ds, Exposed root d f := by
  induction ds with
  | nil => exact h.elim
  | cons d rest ih =>
    rcases h with h | ⟨-, h⟩
    · exact ⟨d, by simp, h⟩
    · obtain ⟨d', hd', hexposed⟩ := ih h
      exact ⟨d', List.mem_cons_of_mem _ hd', hexposed⟩

/-- The first path that reaches a doomed file. -/
theorem Doomed.first {ds : List Bytes} (h : Doomed root f ds) :
    ∃ pre d post, ds = pre ++ d :: post ∧ Exposed root d f ∧
      ∀ d' ∈ pre, ¬ Blocks root d' f ∧ ¬ Exposed root d' f := by
  induction ds with
  | nil => exact h.elim
  | cons d rest ih =>
    by_cases hd : Exposed root d f
    · exact ⟨[], d, rest, rfl, hd, by simp⟩
    · rcases h with h | ⟨hfree, h⟩
      · exact absurd h hd
      · obtain ⟨pre, d', post, rfl, hd', hpre⟩ := ih h
        refine ⟨d :: pre, d', post, rfl, hd', ?_⟩
        rintro e he
        rcases List.mem_cons.mp he with rfl | he
        · exact ⟨hfree, hd⟩
        · exact hpre e he

/-- What the paths of a clean have to do with each other. -/
structure Ordered (root : Place) (d d' : Bytes) : Prop where
  stopped : ∀ f c (t : Tree), Blocks root d f → Exposed root d' f →
    t.entry (placeAt root f) = some (.file c) → t.stat root (names d) = .blocked
  ahead : ∀ e ∈ through root d', placeAt root d <:+ e → placeAt root d <:+ placeAt root d'

/-! ## What is not doomed -/

theorem removeAll_cons (readdir : Listing) (root : Place) (fuel : Nat) (t : Tree) (d : Bytes)
    (rest : List Bytes) : removeAll readdir root fuel t (d :: rest) =
      if (removeTree readdir root fuel t (names d)).2 then
        removeAll readdir root fuel (removeTree readdir root fuel t (names d)).1 rest
      else ((removeTree readdir root fuel t (names d)).1, false) := rfl

/-- What is blocked stops a clean or does nothing. -/
theorem removeTree_blocks {t : Tree} {d : Bytes} {c : Bytes} (h : Blocks root d f)
    (hfile : t.entry (placeAt root f) = some (.file c)) :
    (removeTree readdir root fuel t (names d)).1 = t := by
  obtain ⟨e, he, hbelow⟩ := h
  apply (removeTree_removes readdir root fuel t (names d)).reached
  refine ⟨e, he, fun hdir => ?_⟩
  have hplace := Tree.suffix_dir hdir hbelow
  simp [hfile] at hplace

theorem removeTree_blocked {t : Tree} {path : List Bytes} (h : t.stat root path = .blocked) :
    (removeTree readdir root fuel t path).2 = false := by
  cases fuel with
  | zero => rfl
  | succ fuel => simp [removeTree, h]

theorem removeAll_spares {ds : List Bytes} (hordered : ds.Pairwise (Ordered root))
    (hsafe : ¬ Doomed root f ds) {t : Tree} {c : Bytes}
    (hfile : t.entry (placeAt root f) = some (.file c)) :
    (removeAll readdir root fuel t ds).1.entry (placeAt root f) = some (.file c) := by
  induction ds generalizing t with
  | nil => exact hfile
  | cons d rest ih =>
    obtain ⟨hfirst, hrest⟩ := List.pairwise_cons.mp hordered
    obtain ⟨hexposed, hlater⟩ := not_or.mp hsafe
    rw [removeAll_cons]
    by_cases hblocks : Blocks root d f
    · rw [removeTree_blocks hblocks hfile]
      by_cases hsome : ∃ d' ∈ rest, Exposed root d' f
      · obtain ⟨d', hd', hreach⟩ := hsome
        have hstop := (hfirst d' hd').stopped f c t hblocks hreach hfile
        rw [removeTree_blocked hstop]
        exact hfile
      · split
        · exact ih hrest (fun h => hsome h.exists_exposed) hfile
        · exact hfile
    · have houtside : ¬ leadsTo root (names d) <:+ placeAt root f :=
        fun h => hexposed ⟨h, hblocks⟩
      have hleft : (removeTree readdir root fuel t (names d)).1.entry (placeAt root f) =
          some (.file c) := by
        rw [(removeTree_removes readdir root fuel t (names d)).outside _ houtside, hfile]
      split
      · exact ih hrest (fun h => hlater ⟨hblocks, h⟩) hleft
      · exact hleft

theorem removeAll_shrinks (readdir : Listing) (root : Place) (fuel : Nat) (t : Tree)
    (ds : List Bytes) (q : Place) (hq : ∀ c, t.entry q ≠ some (.file c)) (c : Bytes) :
    (removeAll readdir root fuel t ds).1.entry q ≠ some (.file c) := by
  induction ds generalizing t with
  | nil => exact hq c
  | cons d rest ih =>
    rw [removeAll_cons]
    have hleft : ∀ c, (removeTree readdir root fuel t (names d)).1.entry q ≠ some (.file c) := by
      intro c
      rcases (removeTree_removes readdir root fuel t (names d)).shrinks q with h | h
      · rw [h]
        exact hq c
      · simp [h]
    split
    · exact ih _ hleft
    · exact hleft c

/-! ## What is doomed -/

theorem removeAll_gone {t : Tree} {q : Place} (h : t.entry q = none) (ds : List Bytes) :
    (removeAll readdir root fuel t ds).1.entry q = none := by
  induction ds generalizing t with
  | nil => exact h
  | cons d rest ih =>
    rw [removeAll_cons]
    have hleft := (removeTree_removes readdir root fuel t (names d)).gone h
    split
    · exact ih hleft
    · exact hleft

theorem removeAll_missing {t : Tree} {pre : List Bytes}
    (h : ∀ d ∈ pre, t.stat root (names d) = .missing) (rest : List Bytes) :
    removeAll readdir root (fuel + 1) t (pre ++ rest) = removeAll readdir root (fuel + 1) t rest := by
  induction pre with
  | nil => rfl
  | cons d pre ih =>
    have hd : removeTree readdir root (fuel + 1) t (names d) = (t, true) := by
      simp [removeTree, h d (by simp)]
    rw [List.cons_append, removeAll_cons, hd]
    exact ih fun e he => h e (List.mem_cons_of_mem _ he)

theorem leadsTo_ordinary {place : Place} (h : ∀ name ∈ place, Ordinary name) (path : List Bytes) :
    ∀ name ∈ leadsTo place path, Ordinary name := by
  induction path generalizing place with
  | nil => exact h
  | cons name rest ih =>
    apply ih
    intro n hn
    unfold descend at hn
    split at hn
    · exact h n hn
    · rename_i hstay
      split at hn
      · exact h n (List.mem_of_mem_tail hn)
      · rename_i hup
        rcases List.mem_cons.mp hn with rfl | hn
        · exact ⟨fun hnil => hstay (.inl hnil), fun hdot => hstay (.inr hdot), hup⟩
        · exact h n hn

/-- The names on the way to a place first, then all names there are. -/
def onward (p : Place) (all : List Bytes) : Listing :=
  fun q => p.reverse.drop q.length ++ all

theorem onward_first {p q : Place} {all : List Bytes} {name : Bytes} (h : name :: q <:+ p) :
    (onward p all q).head? = some name := by
  obtain ⟨down, rfl⟩ := h
  simp [onward]

/-- A doomed file can be lost: by the tree that has it, what leads to it and what leads to the
path that reaches it, read along the file. -/
theorem removeAll_takes (hroot : ∀ name ∈ root, Ordinary name) (hne : placeAt root f ≠ [])
    {ds : List Bytes} (hordered : ds.Pairwise (Ordered root)) (hdoomed : Doomed root f ds) :
    ∃ readdir fuel t, Lists readdir t ∧ t.entry (placeAt root f) = some (.file []) ∧
      (removeAll readdir root fuel t ds).1.entry (placeAt root f) = none := by
  obtain ⟨pre, d, post, rfl, ⟨hbelow, hfree⟩, hpre⟩ := hdoomed.first
  let p := placeAt root f
  let all := p ++ (through root d).flatten
  let t := Tree.trail p [] (through root d) hne fun e he h => hfree ⟨e, he, h⟩
  have hfile : t.entry p = some (.file []) := by simp [t, Tree.trail]
  have hnofile : ∀ q, q ≠ p → t.content q = none := by
    intro q hq
    simp only [Tree.content, t, Tree.trail, if_neg hq]
    split
    · rename_i hcase
      split at hcase <;> cases hcase
    · rfl
  have hlists : Lists (onward p all) t := by
    intro place name hentry
    apply List.mem_append_right
    by_contra hnot
    apply hentry
    have hout : ∀ q, name :: place <:+ q → ¬ q <:+ p ∧ q ∉ through root d := by
      intro q hq
      have hmem : name ∈ q := hq.subset (by simp)
      refine ⟨fun h => hnot (List.mem_append_left _ (h.subset hmem)), fun h => hnot ?_⟩
      exact List.mem_append_right _ (List.mem_flatten.mpr ⟨q, h, hmem⟩)
    have hself := hout _ List.suffix_rfl
    simp only [t, Tree.trail]
    rw [if_neg fun h : name :: place = p => hself.1 (h ▸ List.suffix_rfl), if_neg]
    rintro (h | ⟨e, he, h⟩)
    · exact hself.1 h
    · exact (hout e h).2 he
  have hmissing : ∀ d' ∈ pre, t.stat root (names d') = .missing := by
    intro d' hd'
    obtain ⟨hfree', hexposed'⟩ := hpre d' hd'
    have hapart : ¬ placeAt root d' <:+ p := fun h => hexposed' ⟨h, hfree'⟩
    have hahead := ((List.pairwise_append.mp hordered).2.2 d' hd' d (by simp)).ahead
    apply Tree.stat_missing
    · intro e he
      exact hnofile e fun h => hfree' ⟨e, he, h ▸ List.suffix_rfl⟩
    · show t.entry (placeAt root d') = none
      simp only [t, Tree.trail]
      rw [if_neg fun h : placeAt root d' = p => hapart (h ▸ List.suffix_rfl), if_neg]
      rintro (h | ⟨e, he, h⟩)
      · exact hapart h
      · exact hapart ((hahead e he h).trans hbelow)
  have hdirs : ∀ e ∈ passes root (names d), t.entry e = some .dir := by
    intro e he
    have hnot : e ≠ p := fun h => hfree ⟨e, he, h ▸ List.suffix_rfl⟩
    simp only [t, Tree.trail, if_neg hnot]
    rw [if_pos (.inr ⟨e, he, List.suffix_rfl⟩)]
  refine ⟨onward p all, p.length + 1, t, hlists, hfile, ?_⟩
  rw [removeAll_missing hmissing, removeAll_cons]
  have hgone : (removeTree (onward p all) root (p.length + 1) t (names d)).1.entry p = none :=
    removeTree_takes (fun q name h => onward_first h) (leadsTo_ordinary hroot (names f)) hfile hbelow
      (Nat.lt_add_right _ (Nat.lt_succ_self p.length)) hdirs
  split
  · exact removeAll_gone hgone post
  · exact hgone

end QStar.Cleaning
