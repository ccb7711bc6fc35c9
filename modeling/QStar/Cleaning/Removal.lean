import QStar.Cleaning.Clean

/-!
# What a clean removes

A removal touches nothing outside the place its path leads to, and takes whatever
is there when the names on the way to it are read first. A clean is safe exactly
when nothing it is to leave alone lies at a place it removes.
-/
namespace QStar.Cleaning

open QStar.Lib.CStrings QStar.Lib.FileTrees
open QStar.Base QStar.BuildGraph QStar.Lowering

variable {readdir : Listing} {root : Place} {fuel : Nat} {t : Tree} {path : List Bytes}

theorem leadsTo_concat (place : Place) (path : List Bytes) {name : Bytes} (h : Ordinary name) :
    leadsTo place (path ++ [name]) = name :: leadsTo place path := by
  simp [leadsTo, descend, h.1, h.2.1, h.2.2]

theorem passes_concat (place : Place) (path : List Bytes) (name : Bytes) :
    passes place (path ++ [name]) = passes place path ++ [leadsTo place path] := by
  rw [passes_dropLast place (by simp), List.dropLast_concat]

/-! ## One removal -/

/-- What a removal may do to a tree. -/
structure Removes (root : Place) (path : List Bytes) (t t' : Tree) : Prop where
  outside : ∀ q, ¬ leadsTo root path <:+ q → t'.entry q = t.entry q
  shrinks : ∀ q, t'.entry q = t.entry q ∨ t'.entry q = none
  reached : (∃ d ∈ passes root path, t.entry d ≠ some .dir) → t' = t

theorem Removes.refl (root : Place) (path : List Bytes) (t : Tree) : Removes root path t t where
  outside _ _ := rfl
  shrinks _ := .inl rfl
  reached _ := rfl

theorem removes_prune {e : Entry} {place : Place} (h : t.stat root path = .found place e) :
    Removes root path t (t.prune place) := by
  obtain ⟨rfl, hpasses, -⟩ := Tree.stat_found.mp h
  refine ⟨fun q hq => Tree.prune_entry hq, Tree.prune_shrinks, ?_⟩
  rintro ⟨d, hd, hne⟩
  exact absurd (hpasses d hd) hne

theorem removeDir_removes (readdir : Listing) (root : Place) (path : List Bytes) (t : Tree) :
    Removes root path t (removeDir readdir t root path).1 := by
  unfold removeDir
  split
  · rename_i place hstat
    split
    · exact removes_prune hstat
    · exact .refl root path t
  · exact .refl root path t

theorem Removes.trans {t' u : Tree} (h : Removes root path t t') (h' : Removes root path t' u) :
    Removes root path t u where
  outside q hq := (h'.outside q hq).trans (h.outside q hq)
  shrinks q := by
    rcases h'.shrinks q with heq | heq
    · rw [heq]
      exact h.shrinks q
    · exact .inr heq
  reached := by
    intro hblocked
    obtain rfl := h.reached hblocked
    exact h'.reached hblocked

theorem Removes.gone {t' : Tree} (h : Removes root path t t') {q : Place}
    (hq : t.entry q = none) : t'.entry q = none := by
  rcases h.shrinks q with heq | heq
  · rw [heq, hq]
  · exact heq

/-- The removal of an entry is one of what is below its directory. -/
theorem removes_child {name : Bytes} (hname : Ordinary name) {t' : Tree}
    (h : Removes root (path ++ [name]) t t') : Removes root path t t' where
  outside q hq := by
    apply h.outside
    rw [leadsTo_concat root path hname]
    exact fun hsuffix => hq ((List.suffix_cons name _).trans hsuffix)
  shrinks := h.shrinks
  reached := by
    rintro ⟨d, hd, hne⟩
    exact h.reached ⟨d, by simp [passes_concat, hd], hne⟩

/-- One entry of a directory after the other, until a removal fails. -/
def removeEntries (readdir : Listing) (root : Place) (fuel : Nat) (path : List Bytes)
    (entries : List Bytes) (t : Tree) (ok : Bool) : Tree × Bool :=
  entries.foldl (fun (t, ok) name =>
    if ok then removeTree readdir root fuel t (path ++ [name]) else (t, false)) (t, ok)

theorem removeEntries_cons (entries : List Bytes) (name : Bytes) (t : Tree) :
    removeEntries readdir root fuel path (name :: entries) t true =
      removeEntries readdir root fuel path entries
        (removeTree readdir root fuel t (path ++ [name])).1
        (removeTree readdir root fuel t (path ++ [name])).2 := rfl

theorem removeEntries_removes
    (hone : ∀ t name, Ordinary name → Removes root (path ++ [name]) t
      (removeTree readdir root fuel t (path ++ [name])).1)
    {entries : List Bytes} (hentries : ∀ name ∈ entries, Ordinary name) (t : Tree) (ok : Bool) :
    Removes root path t (removeEntries readdir root fuel path entries t ok).1 := by
  induction entries generalizing t ok with
  | nil => exact .refl root path t
  | cons name rest ih =>
    have hrest := ih fun n hn => hentries n (List.mem_cons_of_mem _ hn)
    cases ok with
    | false => exact hrest t false
    | true =>
      rw [removeEntries_cons]
      exact (removes_child (hentries name (by simp)) (hone t name (hentries name (by simp)))).trans
        (hrest _ _)

theorem removeTree_dir {place : Place} (h : t.stat root path = .found place .dir) :
    removeTree readdir root (fuel + 1) t path =
      (let r := removeEntries readdir root fuel path
        ((readdir place).filter fun name => Ordinary name) t true
      if r.2 then removeDir readdir r.1 root path else (r.1, false)) := by
  simp only [removeTree, h]
  rfl

theorem removeTree_removes (readdir : Listing) (root : Place) (fuel : Nat) (t : Tree)
    (path : List Bytes) : Removes root path t (removeTree readdir root fuel t path).1 := by
  induction fuel generalizing t path with
  | zero => exact .refl root path t
  | succ fuel ih =>
    cases hstat : t.stat root path with
    | missing => simpa [removeTree, hstat] using .refl root path t
    | blocked => simpa [removeTree, hstat] using .refl root path t
    | found place e =>
      cases e with
      | file c => simpa [removeTree, hstat] using removes_prune hstat
      | dir =>
        rw [removeTree_dir hstat]
        have hordinary : ∀ name ∈ (readdir place).filter (fun name => Ordinary name), Ordinary name := by
          simp
        have hentries :=
          removeEntries_removes (fun t name _ => ih t (path ++ [name])) hordinary t true
        dsimp only
        split
        · exact hentries.trans (removeDir_removes readdir root path _)
        · exact hentries

/-- A file below a removed path is gone when the names on the way to it are read first. -/
theorem removeTree_takes {p : Place} {c : Bytes}
    (hfirst : ∀ q name, name :: q <:+ p → (readdir q).head? = some name)
    (hp : ∀ name ∈ p, Ordinary name) {t : Tree} (hfile : t.entry p = some (.file c))
    {fuel : Nat} {path : List Bytes} (hbelow : leadsTo root path <:+ p)
    (hfuel : p.length < fuel + (leadsTo root path).length)
    (hdirs : ∀ d ∈ passes root path, t.entry d = some .dir) :
    (removeTree readdir root fuel t path).1.entry p = none := by
  induction fuel generalizing path with
  | zero => exact absurd hbelow.length_le (by omega)
  | succ fuel ih =>
    by_cases hat : leadsTo root path = p
    · -- the path is that of the file
      have hstat : t.stat root path = .found p (.file c) :=
        Tree.stat_found.mpr ⟨hat.symm, hdirs, hfile⟩
      simp only [removeTree, hstat]
      cases p with
      | nil => simp [t.root_dir] at hfile
      | cons name q => exact Tree.prune_self
    · have hdir : t.entry (leadsTo root path) = some .dir := Tree.above_file hfile hbelow hat
      have hstat : t.stat root path = .found (leadsTo root path) .dir :=
        Tree.stat_found.mpr ⟨rfl, hdirs, hdir⟩
      -- the name that leads on to the file
      obtain ⟨name, hnext⟩ : ∃ name, name :: leadsTo root path <:+ p := by
        obtain ⟨down, hdown⟩ := hbelow
        rcases List.eq_nil_or_concat down with rfl | ⟨down, name, rfl⟩
        · exact absurd hdown hat
        · exact ⟨name, down, by rw [← hdown]; simp⟩
      have hname : Ordinary name := hp name (hnext.subset (by simp))
      have hread : ∃ others, (readdir (leadsTo root path)).filter (fun n => Ordinary n) =
          name :: others := by
        obtain ⟨others, hothers⟩ := List.head?_eq_some_iff.mp (hfirst _ _ hnext)
        exact ⟨_, by rw [hothers, List.filter_cons_of_pos (by simpa using hname)]⟩
      obtain ⟨others, hothers⟩ := hread
      have hgone : (removeTree readdir root fuel t (path ++ [name])).1.entry p = none := by
        apply ih
        · rwa [leadsTo_concat root path hname]
        · rw [leadsTo_concat root path hname, List.length_cons]
          omega
        · intro d hd
          rw [passes_concat, List.mem_append, List.mem_singleton] at hd
          rcases hd with hd | rfl
          · exact hdirs d hd
          · exact hdir
      have hordinary : ∀ n ∈ others, Ordinary n := by
        intro n hn
        have hmem : n ∈ (readdir (leadsTo root path)).filter (fun n => Ordinary n) := by
          rw [hothers]
          exact List.mem_cons_of_mem _ hn
        simpa using (List.mem_filter.mp hmem).2
      rw [removeTree_dir hstat, hothers, removeEntries_cons]
      have hone : ∀ t name, Ordinary name → Removes root (path ++ [name]) t
          (removeTree readdir root fuel t (path ++ [name])).1 :=
        fun t name _ => removeTree_removes readdir root fuel t (path ++ [name])
      have hrest := removeEntries_removes hone hordinary
        (removeTree readdir root fuel t (path ++ [name])).1
        (removeTree readdir root fuel t (path ++ [name])).2
      have hleft := hrest.gone hgone
      dsimp only
      split
      · exact (removeDir_removes readdir root path _).gone hleft
      · exact hleft

end QStar.Cleaning
