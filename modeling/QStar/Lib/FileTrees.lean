import QStar.Lib.CStrings
import Mathlib.Logic.Function.Basic

/-!
# Trees of files and directories

A tree gives the entry at every place, and every entry stands in a directory.
Paths are walked name by name as POSIX does without links: every name but the
last has to lead to a directory, whatever the path comes back to. The calls that
change a tree fail where the walk or the entry they find refuses them.
-/
namespace QStar.Lib.FileTrees

open QStar.Lib.CStrings

/-- The names from an entry up to the root of the tree, its own name first. -/
abbrev Place := List Bytes

inductive Entry where
  | file (content : Bytes)
  | dir
  deriving DecidableEq

structure Tree where
  entry : Place → Option Entry
  root_dir : entry [] = some .dir
  parent_dir : ∀ name place, entry (name :: place) ≠ none → entry place = some .dir

/-! ## Walking -/

/-- The names of a path. -/
def names (path : Bytes) : List Bytes := path.splitOn 47

/-- Where a name leads from a directory. -/
def descend (place : Place) (name : Bytes) : Place :=
  if name = [] ∨ name = ascii "." then place
  else if name = ascii ".." then place.tail
  else name :: place

theorem descend_cases (place : Place) (name : Bytes) : descend place name = place ∨
    descend place name = place.tail ∨ descend place name = name :: place := by
  unfold descend
  split
  · exact .inl rfl
  · split
    · exact .inr (.inl rfl)
    · exact .inr (.inr rfl)

def leadsTo (place : Place) (path : List Bytes) : Place := path.foldl descend place

/-- The places a walk needs to be directories. -/
def passes : Place → List Bytes → List Place
  | _, [] => []
  | place, name :: rest => place :: passes (descend place name) rest

theorem passes_dropLast (place : Place) {path : List Bytes} (h : path ≠ []) :
    passes place path = passes place path.dropLast ++ [leadsTo place path.dropLast] := by
  induction path generalizing place with
  | nil => exact absurd rfl h
  | cons name rest ih =>
    cases rest with
    | nil => rfl
    | cons next rest => simpa [passes, leadsTo] using ih (descend place name) (by simp)

/-- A walk that goes up at most at its end stays below where it starts. -/
theorem passes_below {place : Place} {path : List Bytes} (hup : ascii ".." ∉ path.dropLast)
    {d : Place} (hd : d ∈ passes place path) : place <:+ d := by
  induction path generalizing place with
  | nil => simp [passes] at hd
  | cons name rest ih =>
    rcases List.mem_cons.mp hd with rfl | hd
    · exact List.suffix_rfl
    · have hne : rest ≠ [] := by
        rintro rfl
        simp [passes] at hd
      rw [List.dropLast_cons_of_ne_nil hne, List.mem_cons, not_or] at hup
      have hbelow := ih hup.2 hd
      unfold descend at hbelow
      split at hbelow
      · exact hbelow
      · rw [if_neg (Ne.symm hup.1)] at hbelow
        exact (List.suffix_cons name place).trans hbelow

theorem leadsTo_below (place : Place) {path : List Bytes} (hup : ascii ".." ∉ path) :
    place <:+ leadsTo place path := by
  induction path generalizing place with
  | nil => exact List.suffix_rfl
  | cons name rest ih =>
    obtain ⟨hname, hrest⟩ := not_or.mp fun hmem => hup (List.mem_cons.mpr hmem)
    refine List.IsSuffix.trans ?_ (ih (descend place name) hrest)
    unfold descend
    split
    · exact List.suffix_rfl
    · rw [if_neg (Ne.symm hname)]
      exact List.suffix_cons name place

/-- A walk that does not go up passes what is above its end. -/
theorem passes_above {place : Place} {path : List Bytes} (hup : ascii ".." ∉ path) {d : Place}
    (hd : d ∈ passes place path) : d <:+ leadsTo place path := by
  induction path generalizing place with
  | nil => simp [passes] at hd
  | cons name rest ih =>
    rcases List.mem_cons.mp hd with rfl | hd
    · exact leadsTo_below d hup
    · exact ih (fun h => hup (List.mem_cons_of_mem _ h)) hd

theorem leadsTo_dropLast (place : Place) {path : List Bytes} (h : path ≠ []) :
    ∃ name, leadsTo place path = descend (leadsTo place path.dropLast) name := by
  refine ⟨path.getLast h, ?_⟩
  have hsplit := List.dropLast_append_getLast h
  conv_lhs => rw [← hsplit]
  simp [leadsTo]

/-- A walk that goes up at most at its end passes nothing much deeper than its end. -/
theorem passes_length {place : Place} {path : List Bytes} (hup : ascii ".." ∉ path.dropLast)
    {d : Place} (hd : d ∈ passes place path) : d.length ≤ (leadsTo place path).length + 1 := by
  have hne : path ≠ [] := by
    rintro rfl
    simp [passes] at hd
  have hlength : d.length ≤ (leadsTo place path.dropLast).length := by
    rw [passes_dropLast place hne, List.mem_append, List.mem_singleton] at hd
    rcases hd with hd | rfl
    · exact (passes_above hup hd).length_le
    · exact Nat.le_refl _
  obtain ⟨name, hname⟩ := leadsTo_dropLast place hne
  rcases descend_cases (leadsTo place path.dropLast) name with h | h | h
  · rw [hname, h]
    omega
  · rw [hname, h, List.length_tail]
    omega
  · rw [hname, h, List.length_cons]
    omega

/-- Names that do not go up lead to different places from different directories. -/
theorem leadsTo_injective {path : List Bytes} (h : ascii ".." ∉ path) {p q : Place}
    (heq : leadsTo p path = leadsTo q path) : p = q := by
  induction path generalizing p q with
  | nil => exact heq
  | cons name rest ih =>
    obtain ⟨hname, hrest⟩ := not_or.mp fun hmem => h (List.mem_cons.mpr hmem)
    have hnext := ih hrest heq
    unfold descend at hnext
    split at hnext
    · exact hnext
    · rw [if_neg (Ne.symm hname), if_neg (Ne.symm hname)] at hnext
      exact (List.cons.inj hnext).2

namespace Tree

def walk (t : Tree) : Place → List Bytes → Option Place
  | place, [] => some place
  | place, name :: rest =>
    if t.entry place = some .dir then t.walk (descend place name) rest else none

/-- What a regular file holds. -/
def content (t : Tree) (place : Place) : Option Bytes :=
  match t.entry place with
  | some (.file c) => some c
  | _ => none

theorem content_eq_some {t : Tree} {place : Place} {c : Bytes} :
    t.content place = some c ↔ t.entry place = some (.file c) := by
  unfold content
  split
  · rename_i d hd
    simp [hd]
  · rename_i hno
    exact ⟨nofun, fun h => (hno c h).elim⟩

theorem content_dir {t : Tree} {place : Place} (h : t.entry place = some .dir) :
    t.content place = none := by
  simp [content, h]

theorem walk_eq_some {t : Tree} {place : Place} {path : List Bytes} {q : Place} :
    t.walk place path = some q ↔
      q = leadsTo place path ∧ ∀ d ∈ passes place path, t.entry d = some .dir := by
  induction path generalizing place with
  | nil => simp [walk, leadsTo, passes, eq_comm]
  | cons name rest ih =>
    by_cases hdir : t.entry place = some .dir
    · simp [walk, hdir, ih, leadsTo, passes]
    · simp [walk, hdir, passes]

/-! ## Changing a tree -/

/-- A new entry in a directory, over anything but a directory. -/
def graft (t : Tree) (name : Bytes) (place : Place) (e : Entry)
    (hparent : t.entry place = some .dir) (hover : t.entry (name :: place) ≠ some .dir) : Tree where
  entry := Function.update t.entry (name :: place) (some e)
  root_dir := by simpa using t.root_dir
  parent_dir := by
    intro child q hchild
    by_cases hq : q = name :: place
    · subst hq
      rw [Function.update_of_ne (by simp)] at hchild
      exact absurd (t.parent_dir child _ hchild) hover
    · rw [Function.update_of_ne hq]
      by_cases hsame : child :: q = name :: place
      · obtain ⟨-, rfl⟩ := List.cons.inj hsame
        exact hparent
      · rw [Function.update_of_ne hsame] at hchild
        exact t.parent_dir child q hchild

/-- Opening for writing and writing the given bytes, at the place a walk has reached. -/
def write (t : Tree) : Place → Bytes → Option Tree
  | [], _ => none
  | name :: place, c =>
    if h : t.entry place = some .dir ∧ t.entry (name :: place) ≠ some .dir then
      some (t.graft name place (.file c) h.1 h.2)
    else none

/-- `mkdir`, an entry that exists accepted whatever it is. -/
def mkdir (t : Tree) : Place → Option Tree
  | [] => some t
  | name :: place =>
    if h : t.entry (name :: place) = none then
      if hparent : t.entry place = some .dir then
        some (t.graft name place .dir hparent (by simp [h]))
      else none
    else some t

/-- `mkdir` for every name of a path in turn. -/
def makeDirs (t : Tree) : Place → List Bytes → Option Tree
  | _, [] => some t
  | place, name :: rest =>
    if t.entry place = some .dir then
      (t.mkdir (descend place name)).bind fun t => t.makeDirs (descend place name) rest
    else none

instance (t : Tree) (place : Place) : Decidable (∃ c, t.entry place = some (.file c)) :=
  decidable_of_iff ((t.content place).isSome) (by simp [Option.isSome_iff_exists, content_eq_some])

/-- A file removed. -/
def unlink (t : Tree) (place : Place) : Option Tree :=
  if h : ∃ c, t.entry place = some (.file c) then
    some {
      entry := Function.update t.entry place none
      root_dir := by
        obtain ⟨c, hc⟩ := h
        have hne : ([] : Place) ≠ place := by
          rintro rfl
          simp [t.root_dir] at hc
        rw [Function.update_of_ne hne]
        exact t.root_dir
      parent_dir := by
        obtain ⟨c, hc⟩ := h
        intro child q hchild
        have hne : child :: q ≠ place := by
          rintro rfl
          simp at hchild
        rw [Function.update_of_ne hne] at hchild
        have hdir := t.parent_dir child q hchild
        have hq : q ≠ place := by
          rintro rfl
          simp [hc] at hdir
        rw [Function.update_of_ne hq]
        exact hdir }
  else none

/-- `rename` of a file. -/
def rename (t : Tree) (place target : Place) : Option Tree :=
  match t.content place with
  | none => none
  | some c =>
    if place = target then some t else (t.write target c).bind fun t => t.unlink place

/-- What `lstat` finds. -/
inductive Stat where
  | missing
  | blocked
  | found (place : Place) (e : Entry)

/-- `lstat`: a name after a file is an error of its own. -/
def stat (t : Tree) : Place → List Bytes → Stat
  | place, [] =>
    match t.entry place with
    | none => .missing
    | some e => .found place e
  | place, name :: rest =>
    match t.entry place with
    | none => .missing
    | some (.file _) => .blocked
    | some .dir => t.stat (descend place name) rest

/-- A tree without an entry and what is below it. -/
def prune (t : Tree) : Place → Tree
  | [] => t
  | name :: place => {
      entry := fun q => if name :: place <:+ q then none else t.entry q
      root_dir := by
        rw [if_neg (by simp)]
        exact t.root_dir
      parent_dir := by
        intro child q hchild
        have hout : ¬ name :: place <:+ child :: q := by
          intro h
          simp [h] at hchild
        rw [if_neg hout] at hchild
        rw [if_neg fun h => hout (h.trans (List.suffix_cons child q))]
        exact t.parent_dir child q hchild }

/-- One file, what leads to it, and given directories that it is not above. -/
def trail (place : Place) (c : Bytes) (dirs : List Place) (hne : place ≠ [])
    (hdirs : ∀ d ∈ dirs, ¬ place <:+ d) : Tree where
  entry q :=
    if q = place then some (.file c)
    else if q <:+ place ∨ ∃ d ∈ dirs, q <:+ d then some .dir
    else none
  root_dir := by simp [Ne.symm hne]
  parent_dir := by
    intro name q hchild
    have hbelow : q <:+ place ∨ ∃ d ∈ dirs, q <:+ d := by
      by_contra hno
      rw [not_or, not_exists] at hno
      apply hchild
      rw [if_neg fun h : name :: q = place => hno.1 ⟨[name], h⟩, if_neg]
      rintro (h | ⟨d, hd, h⟩)
      · exact hno.1 ((List.suffix_cons name q).trans h)
      · exact hno.2 d ⟨hd, (List.suffix_cons name q).trans h⟩
    have hne : q ≠ place := by
      rintro rfl
      apply hchild
      rw [if_neg (by simp), if_neg]
      rintro (h | ⟨d, hd, h⟩)
      · exact absurd h.length_le (by simp)
      · exact hdirs d hd ((List.suffix_cons name q).trans h)
    rw [if_neg hne, if_pos hbelow]

/-! ## What the calls do -/

variable {t t' : Tree} {place p : Place} {path : List Bytes} {c : Bytes}

theorem write_eq_some (h : t.write place c = some t') :
    t'.entry = Function.update t.entry place (some (.file c)) ∧ t.entry place ≠ some .dir := by
  cases place with
  | nil => cases h
  | cons name q =>
    simp only [write] at h
    split at h
    · rename_i hwrite
      obtain rfl := Option.some.inj h
      exact ⟨rfl, hwrite.2⟩
    · cases h

theorem write_isSome {name : Bytes} {q : Place} (hparent : t.entry q = some .dir)
    (hover : t.entry (name :: q) ≠ some .dir) : ∃ t', t.write (name :: q) c = some t' := by
  simp only [write, dif_pos (And.intro hparent hover)]
  exact ⟨_, rfl⟩

/-- A later state of a tree in which nothing but directories was made. -/
structure Grows (t t' : Tree) : Prop where
  content : t'.content = t.content
  dirs : ∀ d, t.entry d = some .dir → t'.entry d = some .dir

theorem Grows.refl (t : Tree) : Grows t t := ⟨rfl, fun _ h => h⟩

theorem Grows.trans {u : Tree} (h : Grows t t') (h' : Grows t' u) : Grows t u where
  content := h'.content.trans h.content
  dirs := fun d hd => h'.dirs d (h.dirs d hd)

theorem mkdir_eq_some (h : t.mkdir place = some t') :
    t' = t ∨ t.entry place = none ∧ t'.entry = Function.update t.entry place (some .dir) := by
  cases place with
  | nil => exact .inl (Option.some.inj h).symm
  | cons name q =>
    simp only [mkdir] at h
    split at h
    · rename_i hnone
      split at h
      · obtain rfl := Option.some.inj h
        exact .inr ⟨hnone, rfl⟩
      · cases h
    · exact .inl (Option.some.inj h).symm

theorem mkdir_grows (h : t.mkdir place = some t') : Grows t t' := by
  rcases mkdir_eq_some h with rfl | ⟨hnone, hentry⟩
  · exact .refl _
  · constructor
    · funext q
      unfold content
      rw [hentry]
      by_cases hq : q = place
      · simp [hq, hnone]
      · rw [Function.update_of_ne hq]
    · intro d hd
      rw [hentry, Function.update_of_ne]
      · exact hd
      · rintro rfl
        simp [hnone] at hd

theorem makeDirs_grows (h : t.makeDirs place path = some t') : Grows t t' := by
  induction path generalizing t place with
  | nil => exact Option.some.inj h ▸ .refl t
  | cons name rest ih =>
    simp only [makeDirs] at h
    split at h
    · obtain ⟨u, hu, hrest⟩ := Option.bind_eq_some_iff.mp h
      exact (mkdir_grows hu).trans (ih hrest)
    · cases h

/-- Only the places a path passes, and the one it leads to, become directories. -/
theorem makeDirs_new (h : t.makeDirs place path = some t') {d : Place}
    (hd : t'.entry d = some .dir) :
    t.entry d = some .dir ∨ d ∈ passes place path ∨ d = leadsTo place path := by
  induction path generalizing t place with
  | nil => exact .inl (Option.some.inj h ▸ hd)
  | cons name rest ih =>
    simp only [makeDirs] at h
    split at h
    · obtain ⟨u, hu, hrest⟩ := Option.bind_eq_some_iff.mp h
      have hnext : descend place name ∈ passes (descend place name) rest ∨
          descend place name = leadsTo (descend place name) rest := by
        cases rest with
        | nil => exact .inr rfl
        | cons _ _ => exact .inl (by simp [passes])
      rcases ih hrest with hd | hd | hd
      · rcases mkdir_eq_some hu with rfl | ⟨-, hentry⟩
        · exact .inl hd
        · by_cases heq : d = descend place name
          · subst heq
            rcases hnext with hin | hat
            · exact .inr (.inl (List.mem_cons_of_mem _ hin))
            · exact .inr (.inr hat)
          · rw [hentry, Function.update_of_ne heq] at hd
            exact .inl hd
      · exact .inr (.inl (List.mem_cons_of_mem _ hd))
      · exact .inr (.inr hd)
    · cases h

theorem tail_dir (h : t.entry place = some .dir) : t.entry place.tail = some .dir := by
  cases place with
  | nil => exact t.root_dir
  | cons name q => exact t.parent_dir name q (by simp [h])

theorem suffix_dir {q : Place} (h : t.entry place = some .dir) (hq : q <:+ place) :
    t.entry q = some .dir := by
  induction place with
  | nil => rwa [List.suffix_nil.mp hq]
  | cons name r ih =>
    rcases List.suffix_cons_iff.mp hq with rfl | hq
    · exact h
    · exact ih (tail_dir h) hq

/-- What leads to a file is a directory. -/
theorem above_file {q : Place} (hfile : t.entry p = some (.file c)) (hq : q <:+ p) (hne : q ≠ p) :
    t.entry q = some .dir := by
  cases p with
  | nil => exact absurd (List.suffix_nil.mp hq) hne
  | cons name r =>
    rcases List.suffix_cons_iff.mp hq with rfl | hq
    · exact absurd rfl hne
    · exact suffix_dir (t.parent_dir name r (by simp [hfile])) hq

/-- A path none of whose places is a file can be made, and is then made of directories. -/
theorem makeDirs_isSome (path : List Bytes) (hplace : t.entry place = some .dir)
    (hpasses : ∀ d ∈ passes place path, t.content d = none)
    (hend : t.content (leadsTo place path) = none) :
    ∃ t', t.makeDirs place path = some t' ∧
      (∀ d ∈ passes place path, t'.entry d = some .dir) ∧
      t'.entry (leadsTo place path) = some .dir := by
  induction path generalizing t place with
  | nil => exact ⟨t, rfl, by simp [passes], hplace⟩
  | cons name rest ih =>
    have hnext : t.content (descend place name) = none := by
      cases rest with
      | nil => exact hend
      | cons _ _ => exact hpasses _ (by simp [passes])
    -- the next name leads to a directory, or to a place where one can be made
    obtain ⟨u, hu, hudir⟩ : ∃ u, t.mkdir (descend place name) = some u ∧
        u.entry (descend place name) = some .dir := by
      by_cases hnone : t.entry (descend place name) = none
      · have hdesc : descend place name = name :: place := by
          rcases descend_cases place name with h | h | h
          · simp [h, hplace] at hnone
          · simp [h, tail_dir hplace] at hnone
          · exact h
        rw [hdesc] at hnone ⊢
        exact ⟨t.graft name place .dir hplace (by simp [hnone]),
          by simp only [mkdir, dif_pos hnone, dif_pos hplace], by simp [graft]⟩
      · refine ⟨t, ?_, ?_⟩
        · cases hdesc : descend place name with
          | nil => rfl
          | cons n q =>
            rw [hdesc] at hnone
            simp only [mkdir, dif_neg hnone]
        · cases hentry : t.entry (descend place name) with
          | none => exact absurd hentry hnone
          | some e =>
            cases e with
            | file c =>
              rw [content_eq_some.mpr hentry] at hnext
              cases hnext
            | dir => rfl
    have hgrows := mkdir_grows hu
    obtain ⟨t', ht', hdirs, hlast⟩ := ih hudir
      (fun d hd => by
        rw [hgrows.content]
        exact hpasses d (List.mem_cons_of_mem _ hd))
      (by rw [hgrows.content]; exact hend)
    refine ⟨t', ?_, ?_, hlast⟩
    · simp only [makeDirs, if_pos hplace, hu, Option.bind_some, ht']
    · intro d hd
      rcases List.mem_cons.mp hd with rfl | hd
      · exact (makeDirs_grows ht').dirs _ (hgrows.dirs _ hplace)
      · exact hdirs d hd

theorem unlink_eq_some (h : t.unlink place = some t') :
    t'.entry = Function.update t.entry place none ∧ ∃ c, t.entry place = some (.file c) := by
  unfold unlink at h
  split at h
  · rename_i hfile
    obtain rfl := Option.some.inj h
    exact ⟨rfl, hfile⟩
  · cases h

theorem rename_eq_some {target : Place} (hne : place ≠ target)
    (h : t.rename place target = some t') : ∃ c, t.content place = some c ∧
      t.entry target ≠ some .dir ∧ t'.entry =
        Function.update (Function.update t.entry target (some (.file c))) place none := by
  unfold rename at h
  split at h
  · cases h
  · rename_i c hc
    rw [if_neg hne] at h
    obtain ⟨u, hu, hunlink⟩ := Option.bind_eq_some_iff.mp h
    obtain ⟨hentry, hover⟩ := write_eq_some hu
    exact ⟨c, hc, hover, by rw [(unlink_eq_some hunlink).1, hentry]⟩

theorem stat_found {q : Place} {e : Entry} : t.stat place path = .found q e ↔
    q = leadsTo place path ∧ (∀ d ∈ passes place path, t.entry d = some .dir) ∧
      t.entry q = some e := by
  induction path generalizing place with
  | nil =>
    simp only [stat, leadsTo, passes, List.foldl_nil]
    cases h : t.entry place with
    | none =>
      constructor
      · nofun
      · rintro ⟨rfl, -, hq⟩
        rw [h] at hq
        cases hq
    | some e' =>
      constructor
      · intro heq
        cases heq
        exact ⟨rfl, by simp, h⟩
      · rintro ⟨rfl, -, hq⟩
        rw [h, Option.some.injEq] at hq
        rw [hq]
  | cons name rest ih =>
    simp only [stat, passes, List.mem_cons, forall_eq_or_imp]
    cases h : t.entry place with
    | none => simp
    | some e' =>
      cases e' with
      | file c => simp
      | dir =>
        dsimp only
        rw [ih]
        simp [leadsTo]

/-- A path that meets no file and leads to nothing. -/
theorem stat_missing (hpasses : ∀ d ∈ passes place path, t.content d = none)
    (hend : t.entry (leadsTo place path) = none) : t.stat place path = .missing := by
  induction path generalizing place with
  | nil =>
    have hnone : t.entry place = none := hend
    simp [stat, hnone]
  | cons name rest ih =>
    simp only [stat]
    cases h : t.entry place with
    | none => rfl
    | some e =>
      cases e with
      | file c =>
        have hno := hpasses place (by simp [passes])
        simp [content, h] at hno
      | dir => exact ih (fun d hd => hpasses d (List.mem_cons_of_mem _ hd)) hend

/-- A path that goes up at most at its end does not get past a file it meets. -/
theorem stat_blocked (hup : ascii ".." ∉ path.dropLast) (hfile : t.entry p = some (.file c))
    (hplace : place <:+ p) {d : Place} (hd : d ∈ passes place path) (hp : p <:+ d) :
    t.stat place path = .blocked := by
  induction path generalizing place with
  | nil => simp [passes] at hd
  | cons name rest ih =>
    by_cases heq : place = p
    · subst heq
      simp [stat, hfile]
    · simp only [stat, above_file hfile hplace heq]
      rcases List.mem_cons.mp hd with rfl | hd
      · exact absurd (hplace.eq_of_length_le hp.length_le) heq
      · have hne : rest ≠ [] := by
          rintro rfl
          simp [passes] at hd
        rw [List.dropLast_cons_of_ne_nil hne, List.mem_cons, not_or] at hup
        apply ih hup.2 _ hd
        have hbelow : descend place name <:+ d := passes_below hup.2 hd
        rcases List.suffix_or_suffix_of_suffix hp hbelow with h | h
        · rcases descend_cases place name with hat | hat | hat
          · rwa [hat]
          · exact (hat ▸ List.tail_suffix place).trans hplace
          · rw [hat] at h ⊢
            rcases List.suffix_cons_iff.mp h with rfl | h
            · exact List.suffix_rfl
            · exact absurd (hplace.eq_of_length_le h.length_le) heq
        · exact h

theorem prune_entry {q : Place} (h : ¬ place <:+ q) : (t.prune place).entry q = t.entry q := by
  cases place with
  | nil => exact absurd List.nil_suffix h
  | cons name r => simp [prune, h]

theorem prune_self {name : Bytes} : (t.prune (name :: place)).entry (name :: place) = none := by
  simp [prune]

theorem prune_shrinks (q : Place) :
    (t.prune place).entry q = t.entry q ∨ (t.prune place).entry q = none := by
  cases place with
  | nil => exact .inl rfl
  | cons name r =>
    simp only [prune]
    split
    · exact .inr rfl
    · exact .inl rfl

end Tree

end QStar.Lib.FileTrees
