import QStar.Staging.Stage
import QStar.Base.Places
import QStar.Lib.Copies

/-!
# What the copies leave behind

A run of copies changes the contents as copies on contents do, one place after the
other, makes the directories of its destinations, and goes through wherever no
file stands in the way of a directory and no directory in the way of a file.
-/
namespace QStar.Staging

open QStar.Lib.CStrings QStar.Lib.FileTrees
open QStar.Lib.Copies (copy copies)
open QStar.Base

/-- What a copy of a file onto itself leaves. -/
def blank : Option Bytes := some []

/-! ## One copy -/

theorem write_file_isSome {t : Tree} {place : Place} {c : Bytes} (h : t.content place = some c)
    (d : Bytes) : ∃ t', t.write place d = some t' := by
  rw [Tree.content_eq_some] at h
  cases place with
  | nil => simp [t.root_dir] at h
  | cons name q =>
    exact Tree.write_isSome (t.parent_dir name q (by simp [h])) (by simp [h])

theorem content_of_entry {t t' : Tree} {place : Place} {c : Bytes}
    (h : t'.entry = Function.update t.entry place (some (.file c))) :
    t'.content = Function.update t.content place (some c) := by
  funext q
  unfold Tree.content
  rw [h]
  by_cases hq : q = place
  · simp [hq]
  · simp [Function.update_of_ne hq]

/-- The loop of a copy between two places appends what it has not read yet. -/
theorem copyChunks_eq {source target : Place} (fuel pos : Nat) {t : Tree} {c : Bytes}
    (hne : source ≠ target) (hsource : readable t source = c)
    (htarget : t.content target = some (c.take pos)) (hfuel : c.length < fuel + pos) :
    ∃ t', copyChunks source target fuel pos t = some t' ∧
      t'.entry = Function.update t.entry target (some (.file c)) := by
  induction fuel generalizing pos t with
  | zero =>
    refine ⟨t, rfl, ?_⟩
    have hall : c.take pos = c := List.take_of_length_le (by omega)
    rw [hall, Tree.content_eq_some] at htarget
    simp [← htarget]
  | succ fuel ih =>
    have hread : readable t target = c.take pos := by simp [readable, htarget]
    simp only [copyChunks, hsource, hread]
    by_cases hchunk : (c.drop pos).take copyBuffer = []
    · rw [if_pos hchunk]
      have hempty : c.drop pos = [] := by
        rcases List.take_eq_nil_iff.mp hchunk with h | h
        · exact absurd h (by decide)
        · exact h
      have hall : c.take pos = c := List.take_of_length_le (List.drop_eq_nil_iff.mp hempty)
      rw [hall, Tree.content_eq_some] at htarget
      exact ⟨t, rfl, by simp [← htarget]⟩
    · rw [if_neg hchunk]
      set chunk := (c.drop pos).take copyBuffer with hdef
      obtain ⟨u, hu⟩ := write_file_isSome htarget (c.take pos ++ chunk)
      have hentry := (Tree.write_eq_some hu).1
      have hcontent := content_of_entry hentry
      have hpos : 0 < chunk.length := List.length_pos_iff.mpr hchunk
      have hnext : c.take pos ++ chunk = c.take (pos + chunk.length) := by
        rw [List.take_add, hdef, List.length_take, ← List.take_eq_take_min]
      obtain ⟨t', ht', hlast⟩ := ih (pos + chunk.length) (t := u)
        (by rw [readable, hcontent, Function.update_of_ne hne]; exact hsource)
        (by rw [hcontent, Function.update_self, hnext]) (by omega)
      refine ⟨t', by rw [hu, Option.bind_some]; exact ht', ?_⟩
      rw [hlast, hentry, Function.update_idem]

theorem copyChunks_blank {target : Place} {fuel pos : Nat} {t : Tree}
    (h : readable t target = []) : copyChunks target target fuel pos t = some t := by
  cases fuel with
  | zero => rfl
  | succ fuel => simp [copyChunks, h]

/-- What a copy that succeeds has done. -/
structure Placed (t t' : Tree) (root : Place) (src dst : Bytes) : Prop where
  found : t.entry (placeAt root src) ≠ none
  reached : ∀ d ∈ through root src, t'.entry d = some .dir
  content : t'.content = Function.update t.content (placeAt root dst)
    (some (if placeAt root src = placeAt root dst then [] else readable t (placeAt root src)))
  dirs : ∀ d, t.entry d = some .dir → t'.entry d = some .dir
  made : ∀ d ∈ through root dst, t'.entry d = some .dir
  new : ∀ d, t'.entry d = some .dir → t.entry d = some .dir ∨ d ∈ through root dst

theorem entry_ne_none_of_content {t : Tree} {place : Place} (h : t.content place ≠ none) :
    t.entry place ≠ none := by
  intro hnone
  simp [Tree.content, hnone] at h

/-- A file written over stands where no directory does. -/
theorem dir_of_update {t t' : Tree} {place d : Place} {c : Bytes}
    (hentry : t'.entry = Function.update t.entry place (some (.file c))) :
    t'.entry d = some .dir ↔ d ≠ place ∧ t.entry d = some .dir := by
  rw [hentry]
  by_cases hd : d = place
  · simp [hd]
  · simp [hd]

theorem copyContent_eq {t opened : Tree} (source : Place) {target : Place}
    (hopened : t.write target [] = some opened) : ∃ t', copyContent t source target = some t' ∧
      t'.entry = Function.update t.entry target
        (some (.file (if source = target then [] else readable t source))) := by
  have hentry := (Tree.write_eq_some hopened).1
  have hcontent := content_of_entry hentry
  simp only [copyContent, hopened, Option.bind_some]
  by_cases hsame : source = target
  · subst hsame
    have hread : readable opened source = [] := by simp [readable, hcontent]
    exact ⟨opened, copyChunks_blank hread, by simp [hentry]⟩
  · have hread : readable opened source = readable t source := by
      simp only [readable, hcontent]
      rw [Function.update_of_ne hsame]
    obtain ⟨t', ht', hlast⟩ := copyChunks_eq ((readable opened source).length + 1)
      0 hsame hread (by simp [hcontent]) (by rw [hread]; omega)
    exact ⟨t', ht', by rw [hlast, hentry, Function.update_idem, if_neg hsame]⟩

theorem copyContent_eq_some {t t' : Tree} {source target : Place}
    (h : copyContent t source target = some t') : t.entry target ≠ some .dir ∧
      t'.entry = Function.update t.entry target
        (some (.file (if source = target then [] else readable t source))) := by
  obtain ⟨opened, hopened, -⟩ := Option.bind_eq_some_iff.mp h
  obtain ⟨u, hu, hentry⟩ := copyContent_eq source hopened
  rw [hu] at h
  obtain rfl := Option.some.inj h
  exact ⟨(Tree.write_eq_some hopened).2, hentry⟩

theorem pathExists_entry {t : Tree} {root : Place} {rel : Bytes}
    (h : pathExists t root rel = true) : t.entry (placeAt root rel) ≠ none := by
  unfold pathExists at h
  split at h
  · rename_i place hwalk
    obtain ⟨rfl, -⟩ := walk_names.mp hwalk
    simpa using h
  · cases h

theorem placeFile_placed {t t' : Tree} {root : Place} {src dst : Bytes}
    (h : placeFile t root src dst = some t') : Placed t t' root src dst := by
  unfold placeFile at h
  split at h
  · rename_i hexists
    have hfirst : t.entry (placeAt root src) ≠ none := pathExists_entry hexists
    obtain ⟨u, hu, h⟩ := Option.bind_eq_some_iff.mp h
    obtain ⟨source, hsource, h⟩ := Option.bind_eq_some_iff.mp h
    split at h
    · cases h
    · rename_i hfound
      obtain ⟨target, htarget, h⟩ := Option.bind_eq_some_iff.mp h
      obtain ⟨hat, hreached⟩ := walk_names.mp hsource
      obtain ⟨hto, hmade⟩ := walk_names.mp htarget
      subst hat hto
      obtain ⟨hover, hentry⟩ := copyContent_eq_some h
      have hgrows := Tree.makeDirs_grows hu
      have hcontent := content_of_entry hentry
      have hkept : ∀ d, u.entry d = some .dir → t'.entry d = some .dir := by
        intro d hd
        rw [dir_of_update hentry]
        exact ⟨fun heq => hover (heq ▸ hd), hd⟩
      constructor
      · exact hfirst
      · exact fun d hd => hkept d (hreached d hd)
      · rw [hcontent, readable, hgrows.content]
        rfl
      · exact fun d hd => hkept d (hgrows.dirs d hd)
      · exact fun d hd => hkept d (hmade d hd)
      · intro d hd
        rcases Tree.makeDirs_new hu ((dir_of_update hentry).mp hd).2 with hd | hd | hd
        · exact .inl hd
        all_goals
          right
          rw [through, passes_dropLast root (names_ne_nil dst)]
          simp [hd]
  · cases h

/-- A copy goes through from a file to a place where a file can stand. -/
theorem placeFile_isSome {t : Tree} {root : Place} {src dst : Bytes}
    (hsrc : t.content (placeAt root src) ≠ none)
    (hreach : ∀ d ∈ through root src, t.entry d = some .dir)
    (hmake : ∀ d ∈ through root dst, t.content d = none)
    (hdst : ∀ d ∈ through root dst, ¬ placeAt root dst <:+ d)
    (hover : t.entry (placeAt root dst) ≠ some .dir) :
    ∃ t', placeFile t root src dst = some t' := by
  have hfound := entry_ne_none_of_content hsrc
  have hexists : pathExists t root src = true := by
    simp only [pathExists, walk_names.mpr ⟨rfl, hreach⟩]
    simpa using hfound
  have hpasses := passes_dropLast root (names_ne_nil dst)
  obtain ⟨u, hu, hdirs, hlast⟩ := Tree.makeDirs_isSome (names dst).dropLast
    (hreach _ (root_mem_through root src))
    (fun d hd => hmake d (by rw [through, hpasses]; simp [hd]))
    (hmake _ (by rw [through, hpasses]; simp))
  have hgrows := Tree.makeDirs_grows hu
  have hmade : ∀ d ∈ through root dst, u.entry d = some .dir := by
    intro d hd
    rw [through, hpasses] at hd
    rcases List.mem_append.mp hd with hd | hd
    · exact hdirs d hd
    · rwa [List.mem_singleton.mp hd]
  have hoveru : u.entry (placeAt root dst) ≠ some .dir := by
    intro hdir
    rcases Tree.makeDirs_new hu hdir with hd | hd | hd
    · exact hover hd
    all_goals
      refine hdst (placeAt root dst) ?_ List.suffix_rfl
      rw [through, hpasses]
      simp [hd]
  obtain ⟨name, hname⟩ := placeAt_eq_cons hdst
  obtain ⟨opened, hopened⟩ : ∃ opened, u.write (placeAt root dst) [] = some opened := by
    rw [hname] at hoveru ⊢
    exact Tree.write_isSome hlast hoveru
  obtain ⟨t', ht', -⟩ := copyContent_eq (placeAt root src) hopened
  have hfoundu : u.entry (placeAt root src) ≠ none :=
    entry_ne_none_of_content (by rw [hgrows.content]; exact hsrc)
  refine ⟨t', ?_⟩
  rw [placeFile, if_pos hexists, hu, Option.bind_some, copyFileToPath,
    walk_names.mpr ⟨rfl, fun d hd => hgrows.dirs d (hreach d hd)⟩, Option.bind_some]
  rw [if_neg hfoundu, walk_names.mpr ⟨rfl, hmade⟩, Option.bind_some]
  exact ht'

/-! ## A run of copies -/

/-- The copies between paths below the package root, in order. -/
def placeAll (t : Tree) (root : Place) (pairs : List (Bytes × Bytes)) : Option Tree :=
  pairs.foldlM (fun t pair => placeFile t root pair.1 pair.2) t

def moves (root : Place) (pairs : List (Bytes × Bytes)) : List (Place × Place) :=
  pairs.map fun pair => (placeAt root pair.1, placeAt root pair.2)

theorem placeAll_cons (t : Tree) (root : Place) (pair : Bytes × Bytes)
    (pairs : List (Bytes × Bytes)) : placeAll t root (pair :: pairs) =
      (placeFile t root pair.1 pair.2).bind fun t => placeAll t root pairs := by
  simp only [placeAll, List.foldlM_cons]
  rfl

/-- What a run of copies that succeeds has done. -/
structure AllPlaced (t t' : Tree) (root : Place) (pairs : List (Bytes × Bytes)) : Prop where
  content : t'.content = copies blank t.content (moves root pairs)
  files : ∀ p, t.content p ≠ none ∨ (∃ pair ∈ pairs, p = placeAt root pair.2) → t'.content p ≠ none
  reached : ∀ pair ∈ pairs, ∀ d ∈ through root pair.1, t'.entry d = some .dir
  made : ∀ pair ∈ pairs, ∀ d ∈ through root pair.2, t'.entry d = some .dir
  dirs : ∀ d, t.entry d = some .dir → t'.entry d = some .dir
  new : ∀ d, t'.entry d = some .dir →
    t.entry d = some .dir ∨ ∃ pair ∈ pairs, d ∈ through root pair.2

/-- A copy of a file changes the contents as a copy of contents. -/
theorem Placed.content_copy {t t' : Tree} {root : Place} {src dst : Bytes} (h : Placed t t' root src dst)
    (hsrc : t.content (placeAt root src) ≠ none) :
    t'.content = copy blank t.content (placeAt root src, placeAt root dst) := by
  obtain ⟨c, hc⟩ := Option.ne_none_iff_exists'.mp hsrc
  rw [h.content, copy, readable, hc]
  dsimp only
  split <;> rfl

theorem Placed.file {t t' : Tree} {root : Place} {src dst : Bytes} (h : Placed t t' root src dst)
    {p : Place} (hp : t.content p ≠ none) : t'.content p ≠ none := by
  rw [h.content]
  by_cases heq : p = placeAt root dst
  · simp [heq]
  · rwa [Function.update_of_ne heq]

theorem placeAll_placed {t t' : Tree} {root : Place} {pairs : List (Bytes × Bytes)}
    (hsrc : ∀ pair ∈ pairs, t.content (placeAt root pair.1) ≠ none)
    (h : placeAll t root pairs = some t') : AllPlaced t t' root pairs := by
  induction pairs generalizing t with
  | nil =>
    obtain rfl := Option.some.inj h
    exact ⟨rfl, by simp, by simp, by simp, fun _ hd => hd, fun _ hd => .inl hd⟩
  | cons pair rest ih =>
    rw [placeAll_cons] at h
    obtain ⟨u, hu, hrest⟩ := Option.bind_eq_some_iff.mp h
    have hone := placeFile_placed hu
    have hall := ih (fun p hp => hone.file (hsrc p (List.mem_cons_of_mem _ hp))) hrest
    constructor
    · rw [hall.content, hone.content_copy (hsrc pair (by simp))]
      rfl
    · rintro p (hp | ⟨q, hq, rfl⟩)
      · exact hall.files p (.inl (hone.file hp))
      · rcases List.mem_cons.mp hq with rfl | hq
        · exact hall.files _ (.inl (by simp [hone.content]))
        · exact hall.files _ (.inr ⟨q, hq, rfl⟩)
    · intro p hp d hd
      rcases List.mem_cons.mp hp with rfl | hp
      · exact hall.dirs d (hone.reached d hd)
      · exact hall.reached p hp d hd
    · intro p hp d hd
      rcases List.mem_cons.mp hp with rfl | hp
      · exact hall.dirs d (hone.made d hd)
      · exact hall.made p hp d hd
    · exact fun d hd => hall.dirs d (hone.dirs d hd)
    · intro d hd
      rcases hall.new d hd with hd | ⟨p, hp, hd⟩
      · rcases hone.new d hd with hd | hd
        · exact .inl hd
        · exact .inr ⟨pair, by simp, hd⟩
      · exact .inr ⟨p, List.mem_cons_of_mem _ hp, hd⟩

/-- Files and directories stand where they may. -/
structure Within (file dir : Place → Prop) (t : Tree) : Prop where
  files : ∀ p, t.content p ≠ none → file p
  dirs : ∀ d, t.entry d = some .dir → dir d

/-- Places for files that are no places for directories or above one. -/
structure Separate (file dir : Place → Prop) : Prop where
  apart : ∀ p, file p → ¬ dir p
  closed : ∀ d q, dir d → q <:+ d → dir q

theorem placeAll_isSome {file dir : Place → Prop} (hsep : Separate file dir) {t : Tree}
    {root : Place} {pairs : List (Bytes × Bytes)} (ht : Within file dir t)
    (hsrc : ∀ pair ∈ pairs, t.content (placeAt root pair.1) ≠ none)
    (hreach : ∀ pair ∈ pairs, ∀ d ∈ through root pair.1, t.entry d = some .dir)
    (hdst : ∀ pair ∈ pairs, file (placeAt root pair.2))
    (hmake : ∀ pair ∈ pairs, ∀ d ∈ through root pair.2, dir d) :
    ∃ t', placeAll t root pairs = some t' ∧ Within file dir t' := by
  induction pairs generalizing t with
  | nil => exact ⟨t, rfl, ht⟩
  | cons pair rest ih =>
    have hfile := hdst pair (by simp)
    have hpair := hmake pair (by simp)
    obtain ⟨u, hu⟩ := placeFile_isSome (hsrc pair (by simp)) (hreach pair (by simp))
      (fun d hd => by
        by_contra hcontent
        exact hsep.apart d (ht.files d hcontent) (hpair d hd))
      (fun d hd hsuffix => hsep.apart _ hfile (hsep.closed d _ (hpair d hd) hsuffix))
      (fun hdir => hsep.apart _ hfile (ht.dirs _ hdir))
    have hone := placeFile_placed hu
    have hwithin : Within file dir u := by
      constructor
      · intro p hp
        rw [hone.content] at hp
        by_cases heq : p = placeAt root pair.2
        · exact heq ▸ hfile
        · rw [Function.update_of_ne heq] at hp
          exact ht.files p hp
      · intro d hd
        rcases hone.new d hd with hd | hd
        · exact ht.dirs d hd
        · exact hpair d hd
    obtain ⟨t', ht', hlast⟩ := ih hwithin
      (fun p hp => hone.file (hsrc p (List.mem_cons_of_mem _ hp)))
      (fun p hp d hd => hone.dirs d (hreach p (List.mem_cons_of_mem _ hp) d hd))
      (fun p hp => hdst p (List.mem_cons_of_mem _ hp))
      (fun p hp => hmake p (List.mem_cons_of_mem _ hp))
    exact ⟨t', by rw [placeAll_cons, hu, Option.bind_some, ht'], hlast⟩

end QStar.Staging
