import QStar.BuildGraph.Artifacts
import QStar.Base.Places
import QStar.Lib.RelativePaths
import QStar.Lib.Separated

/-!
# Relative directories

The path from one package-relative directory to another, as the code computes it in its
buffers, and what it is for: behind the first directory it leads to the second, and no text
that does is shorter.
-/
namespace QStar.BuildGraph

open QStar.Lib.CStrings QStar.Lib.FileTrees QStar.Lib.RelativePaths QStar.Lib.Separated
open QStar.Base

/-! ## The code -/

/-- The loop of `split_path_components`: the parts read, and the one it is in. -/
def splitLoop (cap : Nat) : List Bytes → Option Bytes → Bytes → Option (List Bytes)
  | parts, none, [] => some parts
  | parts, some part, [] => some (parts ++ [part])
  | parts, none, c :: rest =>
    if c = 47 then splitLoop cap parts none rest
    else if cap ≤ parts.length then none
    else splitLoop cap parts (some [c]) rest
  | parts, some part, c :: rest =>
    if c = 47 then splitLoop cap (parts ++ [part]) none rest
    else splitLoop cap parts (some (part ++ [c])) rest

/-- `split_path_components`, with room for `cap` parts. -/
def splitComponents (cap : Nat) (path : Bytes) : Option (List Bytes) :=
  if path = [] ∨ path = ascii "." then some [] else splitLoop cap [] none path

/-- The number of parts two lists begin with alike. -/
def commonParts : List Bytes → List Bytes → Nat
  | a :: as, b :: bs => if a = b then commonParts as bs + 1 else 0
  | _, _ => 0

/-- `append_relative_component`; what is used of the buffer is the text so far. -/
def appendRelativeComponent (dstlen : Nat) (dst part : Bytes) : Option Bytes :=
  if dstlen < dst.length + (if dst = [] then 0 else 1) + part.length + 1 then none
  else some (if dst = [] then part else dst ++ 47 :: part)

/-- `qstar_path_relative_between_dirs`; a missing directory is the package root. -/
def relativeBetweenDirs (fromDir toDir : Option Bytes) (dstlen : Nat) : Option Bytes :=
  if dstlen = 0 then none
  else
    let fromBuf := fromDir.getD (ascii ".")
    let toBuf := toDir.getD (ascii ".")
    if 4096 ≤ fromBuf.length ∨ 4096 ≤ toBuf.length then none
    else do
      let fromParts ← splitComponents 128 fromBuf
      let toParts ← splitComponents 128 toBuf
      let common := commonParts fromParts toParts
      let dst ← (fromParts.drop common).foldlM
        (fun dst _ => appendRelativeComponent dstlen dst (ascii "..")) []
      let dst ← (toParts.drop common).foldlM (appendRelativeComponent dstlen) dst
      if dst = [] then if dstlen < 2 then none else some (ascii ".") else some dst

/-! ## Lexical normalisation -/

/-- One component: the empty one and `.` stay, `..` takes a name back, or stands where there
is none to take. -/
def normalizeStep (parts : List Bytes) (part : Bytes) : List Bytes :=
  if part = [] ∨ part = ascii "." then parts
  else if part = ascii ".." then
    if parts = [] ∨ parts.getLast? = some (ascii "..") then parts ++ [part] else parts.dropLast
  else parts ++ [part]

/-- The text of a list of components, none for the directory itself. -/
def pathText (parts : List Bytes) : Bytes :=
  if parts = [] then ascii "." else join 47 parts

/-- A relative path in its shortest spelling. -/
def normalizePath (path : Bytes) : Bytes := pathText ((names path).foldl normalizeStep [])

/-- A name of a directory entry. -/
def Ordinary (name : Bytes) : Prop := name ≠ [] ∧ name ≠ ascii "." ∧ name ≠ ascii ".."

instance (name : Bytes) : Decidable (Ordinary name) := inferInstanceAs (Decidable (_ ∧ _ ∧ _))

/-- A package-relative directory of ordinary names; the root is `.`. -/
def Directory (path : Bytes) : Prop :=
  path = ascii "." ∨ path ≠ [] ∧ path.head? ≠ some 47 ∧
    ∀ name ∈ names path, name ≠ [] → Ordinary name

/-- A directory spelled with no more separators than it needs. -/
def Tidy (path : Bytes) : Prop := [] ∉ names path

/-! ## What the code computes -/

def fitting (cap : Nat) (parts : List Bytes) : Option (List Bytes) :=
  if parts.length ≤ cap then some parts else none

theorem splitLoop_eq {cap : Nat} (path : Bytes) (parts : List Bytes) :
    (parts.length ≤ cap → splitLoop cap parts none path =
      fitting cap (parts ++ (names path).filter (· ≠ []))) ∧
    ∀ part, part ≠ [] → parts.length < cap → splitLoop cap parts (some part) path =
      fitting cap (parts ++ ((names path).modifyHead (part ++ ·)).filter (· ≠ [])) := by
  induction path generalizing parts with
  | nil =>
    refine ⟨?_, ?_⟩
    · intro hcap
      simp [splitLoop, names, fitting, hcap]
    · intro part hpart hcap
      simp [splitLoop, names, fitting, hpart, Nat.succ_le_of_lt hcap]
  | cons c rest ih =>
    have hnames : names (c :: rest) =
        if c = 47 then [] :: names rest else (names rest).modifyHead (c :: ·) := by
      rw [names, List.splitOn_cons_eq_if_modifyHead]
      simp only [beq_iff_eq]
      rfl
    obtain ⟨first, others, hrest⟩ := List.exists_cons_of_ne_nil (names_ne_nil rest)
    by_cases hc : c = 47
    · rw [hnames, if_pos hc]
      refine ⟨?_, ?_⟩
      · intro hcap
        rw [splitLoop, if_pos hc, (ih parts).1 hcap]
        rfl
      · intro part hpart hcap
        have hroom : (parts ++ [part]).length ≤ cap := by simpa using Nat.succ_le_of_lt hcap
        rw [splitLoop, if_pos hc, (ih (parts ++ [part])).1 hroom]
        simp [hpart]
    · rw [hnames, if_neg hc, hrest]
      rw [hrest] at ih
      refine ⟨?_, ?_⟩
      · intro hcap
        rw [splitLoop, if_neg hc]
        split
        · rename_i hfull
          simp [fitting]
          omega
        · rename_i hroom
          rw [(ih parts).2 [c] (List.cons_ne_nil c []) (Nat.not_le.mp hroom)]
          rfl
      · intro part hpart hcap
        rw [splitLoop, if_neg hc, (ih parts).2 (part ++ [c]) (by simp) hcap]
        simp

theorem splitComponents_eq (cap : Nat) (path : Bytes) :
    splitComponents cap path = fitting cap (splitPathComponents path) := by
  unfold splitComponents splitPathComponents
  by_cases hdot : path = ascii "."
  · rw [if_pos (.inr hdot), if_pos hdot]
    rfl
  · by_cases hnil : path = []
    · rw [if_pos (.inl hnil), if_neg hdot, hnil]
      rfl
    · rw [if_neg (by simp [hnil, hdot]), if_neg hdot, (splitLoop_eq path []).1 (Nat.zero_le cap)]
      rfl

theorem dropCommon_eq (as bs : List Bytes) :
    dropCommon as bs = (as.drop (commonParts as bs), bs.drop (commonParts as bs)) := by
  induction as generalizing bs with
  | nil => simp [dropCommon, commonParts]
  | cons a as ih =>
    cases bs with
    | nil => simp [dropCommon, commonParts]
    | cons b bs =>
      unfold dropCommon commonParts
      split
      · rw [ih bs]
        rfl
      · rfl

theorem appendRelativeComponent_eq (dstlen : Nat) {done : List Bytes} (part : Bytes)
    (hdone : ∀ p ∈ done, p ≠ []) :
    appendRelativeComponent dstlen (join 47 done) part =
      if (join 47 (done ++ [part])).length < dstlen then some (join 47 (done ++ [part]))
      else none := by
  unfold appendRelativeComponent
  obtain rfl | hne := eq_or_ne done []
  · have hnil : join (47 : UInt8) [] = [] := rfl
    have hone : join 47 ([] ++ [part]) = part := by simp [join]
    rw [hone, if_pos hnil, if_pos hnil, hnil, List.length_nil]
    split
    · rw [if_neg (by omega)]
    · rw [if_pos (by omega)]
  · have hnil : join 47 done ≠ [] := join_ne_nil hne hdone
    rw [if_neg hnil, if_neg hnil, join_concat hne, List.length_append, List.length_cons]
    split
    · rw [if_neg (by omega)]
    · rw [if_pos (by omega)]

theorem length_join_le (done parts : List Bytes) :
    (join 47 done).length ≤ (join 47 (done ++ parts)).length := by
  obtain rfl | hdone := eq_or_ne done []
  · exact Nat.zero_le _
  · have hless := length_join 47 hdone
    have hmore := length_join 47 (List.append_ne_nil_of_left_ne_nil hdone parts)
    rw [List.map_append, List.sum_append] at hmore
    omega

/-- The append loops stop at the first part that does not fit. -/
theorem appendComponents_eq (dstlen : Nat) (done parts : List Bytes)
    (hdone : ∀ p ∈ done, p ≠ []) (hparts : ∀ p ∈ parts, p ≠ []) :
    parts.foldlM (appendRelativeComponent dstlen) (join 47 done) =
      if parts = [] ∨ (join 47 (done ++ parts)).length < dstlen then some (join 47 (done ++ parts))
      else none := by
  induction parts generalizing done with
  | nil => simp
  | cons part parts ih =>
    rw [List.foldlM_cons, appendRelativeComponent_eq dstlen part hdone]
    have hmore : ∀ p ∈ done ++ [part], p ≠ [] := by
      intro p hp
      rcases List.mem_append.mp hp with hp | hp
      · exact hdone p hp
      · exact hparts p (List.mem_cons.mpr (.inl (List.mem_singleton.mp hp)))
    have hstep := ih _ hmore fun p hp => hparts p (List.mem_cons_of_mem part hp)
    have hle := length_join_le (done ++ [part]) parts
    rw [List.append_assoc, List.singleton_append] at hstep hle
    split
    · rw [Option.bind_eq_bind, Option.bind_some, hstep]
      obtain rfl | hne := eq_or_ne parts []
      · rename_i hfits
        rw [if_pos (.inl rfl), if_pos (.inr hfits)]
      · simp [hne]
    · rename_i hfull
      rw [if_neg (by simp; omega)]
      rfl

theorem splitPathComponents_ne_nil {path part : Bytes} (h : part ∈ splitPathComponents path) :
    part ≠ [] := by
  unfold splitPathComponents at h
  split at h
  · cases h
  · simpa using (List.mem_filter.mp h).2

/-- The parts of the path between two directories. -/
def relativeParts (fromDir toDir : Bytes) : List Bytes :=
  (dropCommon (splitPathComponents fromDir) (splitPathComponents toDir)).1.map
      (fun _ => ascii "..") ++
    (dropCommon (splitPathComponents fromDir) (splitPathComponents toDir)).2

theorem pathRelativeBetweenDirs_eq (fromDir toDir : Bytes) :
    pathRelativeBetweenDirs fromDir toDir = pathText (relativeParts fromDir toDir) := by
  have hslash : ascii "/" = [47] := by decide
  rw [pathRelativeBetweenDirs, hslash]
  rfl

/-- What the two append loops and the dot for no part leave in the buffer. -/
theorem writeParts_eq (dstlen : Nat) (above below : List Bytes) (hbelow : ∀ p ∈ below, p ≠ []) :
    (do
      let dst ← above.foldlM (fun dst _ => appendRelativeComponent dstlen dst (ascii "..")) []
      let dst ← below.foldlM (appendRelativeComponent dstlen) dst
      if dst = [] then if dstlen < 2 then none else some (ascii ".") else some dst) =
      let path := pathText (above.map (fun _ => ascii "..") ++ below)
      if path.length < dstlen then some path else none := by
  have hparts : ∀ p ∈ above.map (fun _ => ascii "..") ++ below, p ≠ [] := by
    intro p hp
    rcases List.mem_append.mp hp with hp | hp
    · obtain ⟨_, -, rfl⟩ := List.mem_map.mp hp
      decide
    · exact hbelow p hp
  have happend := appendComponents_eq dstlen [] _ (by simp) hparts
  rw [List.nil_append, List.foldlM_append, List.foldlM_map] at happend
  rw [show join (47 : UInt8) [] = [] from rfl] at happend
  simp only [Option.bind_eq_bind] at happend ⊢
  rw [← Option.bind_assoc, happend, pathText]
  generalize above.map (fun _ => ascii "..") ++ below = parts at hparts
  obtain rfl | hne := eq_or_ne parts []
  · have hdot : (ascii ".").length = 1 := by decide
    have hnil : join (47 : UInt8) [] = [] := rfl
    simp only [true_or, if_true, Option.bind_some, hnil, hdot]
    split
    · rw [if_neg (by omega)]
    · rw [if_pos (by omega)]
  · have hjoin : join 47 parts ≠ [] := join_ne_nil hne hparts
    simp only [hne, false_or, if_false]
    split
    · rw [Option.bind_some, if_neg hjoin]
    · rfl

/-- When the directories and the result fit their buffers. -/
def Fits (fromDir toDir : Bytes) (dstlen : Nat) : Prop :=
  (fromDir.length < 4096 ∧ toDir.length < 4096) ∧
  ((splitPathComponents fromDir).length ≤ 128 ∧ (splitPathComponents toDir).length ≤ 128) ∧
  (pathRelativeBetweenDirs fromDir toDir).length < dstlen

instance (fromDir toDir : Bytes) (dstlen : Nat) : Decidable (Fits fromDir toDir dstlen) :=
  inferInstanceAs (Decidable (_ ∧ _ ∧ _))

/-- Where everything fits, the code computes the path between the directories, and nothing
where something does not. -/
theorem relativeBetweenDirs_eq (fromDir toDir : Bytes) (dstlen : Nat) :
    relativeBetweenDirs (some fromDir) (some toDir) dstlen =
      if Fits fromDir toDir dstlen then some (pathRelativeBetweenDirs fromDir toDir) else none := by
  unfold relativeBetweenDirs
  by_cases hzero : dstlen = 0
  · have hno : ¬Fits fromDir toDir dstlen := fun h => Nat.not_lt_zero _ (hzero ▸ h.2.2)
    rw [if_pos hzero, if_neg hno]
  rw [if_neg hzero]
  simp only [Option.getD_some]
  by_cases hlong : 4096 ≤ fromDir.length ∨ 4096 ≤ toDir.length
  · have hno : ¬Fits fromDir toDir dstlen := by
      intro h
      have hshort := h.1
      omega
    rw [if_pos hlong, if_neg hno]
  rw [if_neg hlong, splitComponents_eq, splitComponents_eq]
  by_cases hfrom : (splitPathComponents fromDir).length ≤ 128
  · by_cases htarget : (splitPathComponents toDir).length ≤ 128
    · rw [fitting, if_pos hfrom, fitting, if_pos htarget]
      have hbelow : ∀ p ∈ (splitPathComponents toDir).drop
          (commonParts (splitPathComponents fromDir) (splitPathComponents toDir)), p ≠ [] :=
        fun p hp => splitPathComponents_ne_nil (List.mem_of_mem_drop hp)
      have hwrite := writeParts_eq dstlen ((splitPathComponents fromDir).drop
        (commonParts (splitPathComponents fromDir) (splitPathComponents toDir))) _ hbelow
      have hparts := pathRelativeBetweenDirs_eq fromDir toDir
      rw [relativeParts, dropCommon_eq] at hparts
      dsimp only at hwrite hparts
      rw [← hparts] at hwrite
      refine hwrite.trans ?_
      split
      · rename_i hroom
        have hfits : Fits fromDir toDir dstlen := ⟨by omega, ⟨hfrom, htarget⟩, hroom⟩
        rw [if_pos hfits]
      · rename_i hroom
        have hno : ¬Fits fromDir toDir dstlen := fun h => hroom h.2.2
        rw [if_neg hno]
    · have hno : ¬Fits fromDir toDir dstlen := fun h => htarget h.2.1.2
      rw [fitting, if_pos hfrom, fitting, if_neg htarget, if_neg hno]
      rfl
  · have hno : ¬Fits fromDir toDir dstlen := fun h => hfrom h.2.1.1
    rw [fitting, if_neg hfrom, if_neg hno]
    rfl

/-! ## Normalisation as a walk -/

/-- The steps some components take. -/
def stepsOf (parts : List Bytes) : List (Step Bytes) :=
  parts.filterMap fun part =>
    if part = [] ∨ part = ascii "." then none
    else if part = ascii ".." then some .up else some (.down part)

theorem stepsOf_skip {part : Bytes} (h : part = [] ∨ part = ascii ".") (parts : List Bytes) :
    stepsOf (part :: parts) = stepsOf parts := by
  simp [stepsOf, h]

theorem stepsOf_up (parts : List Bytes) : stepsOf (ascii ".." :: parts) = .up :: stepsOf parts := by
  rw [stepsOf, List.filterMap_cons, if_neg (by decide), if_pos rfl]
  rfl

theorem stepsOf_down {part : Bytes} (h : Ordinary part) (parts : List Bytes) :
    stepsOf (part :: parts) = .down part :: stepsOf parts := by
  rw [stepsOf, List.filterMap_cons, if_neg (not_or.mpr ⟨h.1, h.2.1⟩), if_neg h.2.2]
  rfl

/-- A `..` that stands is never taken back. -/
theorem dotdot_mem_step {parts : List Bytes} (h : ascii ".." ∈ parts) (part : Bytes) :
    ascii ".." ∈ normalizeStep parts part := by
  unfold normalizeStep
  split
  · exact h
  split
  · split
    · exact List.mem_append_left _ h
    · rename_i hlast
      obtain ⟨before, last, rfl⟩ := List.eq_nil_or_concat' parts |>.resolve_left
        (List.ne_nil_of_mem h)
      rw [List.dropLast_concat]
      rw [List.getLast?_concat, Option.some.injEq] at hlast
      rcases List.mem_append.mp h with h | h
      · exact h
      · exact absurd (List.mem_singleton.mp h).symm (not_or.mp hlast).2
  · exact List.mem_append_left _ h

theorem dotdot_mem_fold {parts : List Bytes} (h : ascii ".." ∈ parts) (path : List Bytes) :
    ascii ".." ∈ path.foldl normalizeStep parts := by
  induction path generalizing parts with
  | nil => exact h
  | cons part path ih => exact ih (dotdot_mem_step h part)

/-- Between places without `..`, normalising walks. -/
theorem fold_eq_iff_walk {start target : List Bytes} (path : List Bytes)
    (hstart : ascii ".." ∉ start) (htarget : ascii ".." ∉ target) :
    path.foldl normalizeStep start = target ↔ walk start (stepsOf path) = some target := by
  induction path generalizing start with
  | nil => rw [List.foldl_nil, stepsOf, List.filterMap_nil, walk_nil, Option.some.injEq]
  | cons part path ih =>
    rw [List.foldl_cons]
    by_cases hskip : part = [] ∨ part = ascii "."
    · rw [stepsOf_skip hskip, normalizeStep, if_pos hskip]
      exact ih hstart
    by_cases hup : part = ascii ".."
    · subst hup
      rw [stepsOf_up, normalizeStep, if_neg hskip, if_pos rfl]
      obtain rfl | ⟨place, name, rfl⟩ := List.eq_nil_or_concat' start
      · -- above the root the `..` stands for good
        rw [if_pos (.inl rfl), walk]
        refine iff_of_false ?_ (by simp)
        rintro rfl
        exact htarget (dotdot_mem_fold (by simp) path)
      · have hname : ¬(place ++ [name] = [] ∨
            (place ++ [name]).getLast? = some (ascii "..")) := by
          rw [List.getLast?_concat, Option.some.injEq]
          rintro (h | h)
          · simp at h
          · exact hstart (by simp [h])
        rw [if_neg hname, List.dropLast_concat, walk_up]
        exact ih fun h => hstart (List.mem_append_left _ h)
    · have hord : Ordinary part := ⟨(not_or.mp hskip).1, (not_or.mp hskip).2, hup⟩
      rw [stepsOf_down hord, normalizeStep, if_neg hskip, if_neg hup, walk_down]
      refine ih ?_
      intro h
      rcases List.mem_append.mp h with h | h
      · exact hstart h
      · exact hup (List.mem_singleton.mp h).symm

theorem fold_ordinary {parts : List Bytes} (path : List Bytes)
    (hpath : ∀ part ∈ path, part ≠ [] → Ordinary part) :
    path.foldl normalizeStep parts = parts ++ path.filter (· ≠ []) := by
  induction path generalizing parts with
  | nil => simp
  | cons part path ih =>
    have hrest : ∀ p ∈ path, p ≠ [] → Ordinary p :=
      fun p hp => hpath p (List.mem_cons_of_mem part hp)
    rw [List.foldl_cons, ih hrest, normalizeStep]
    by_cases hnil : part = []
    · rw [if_pos (.inl hnil)]
      simp [hnil]
    · obtain ⟨-, hdot, hup⟩ := hpath part (by simp) hnil
      rw [if_neg (not_or.mpr ⟨hnil, hdot⟩), if_neg hup]
      simp [hnil]

theorem fold_directory {path : Bytes} (h : Directory path) :
    (names path).foldl normalizeStep [] = splitPathComponents path := by
  unfold splitPathComponents
  split
  · rename_i hdot
    rw [hdot]
    decide
  · rename_i hdot
    obtain ⟨-, -, hnames⟩ := h.resolve_left hdot
    rw [fold_ordinary (names path) hnames]
    rfl

theorem ordinary_of_mem {path part : Bytes} (h : Directory path)
    (hpart : part ∈ splitPathComponents path) : Ordinary part := by
  unfold splitPathComponents at hpart
  split at hpart
  · cases hpart
  · rename_i hdot
    obtain ⟨-, -, hnames⟩ := h.resolve_left hdot
    obtain ⟨hmem, hne⟩ := List.mem_filter.mp hpart
    exact hnames part hmem (by simpa using hne)

theorem no_dotdot_of_directory {path : Bytes} (h : Directory path) :
    ascii ".." ∉ splitPathComponents path :=
  fun hmem => (ordinary_of_mem h hmem).2.2 rfl

/-- Components as normalising leaves them. -/
def Normal (parts : List Bytes) : Prop :=
  ∀ part ∈ parts, part ≠ [] ∧ part ≠ ascii "." ∧ (47 : UInt8) ∉ part

theorem Normal.step {parts : List Bytes} (h : Normal parts) {part : Bytes}
    (hpart : (47 : UInt8) ∉ part) : Normal (normalizeStep parts part) := by
  have happend : ¬(part = [] ∨ part = ascii ".") → Normal (parts ++ [part]) := by
    intro hskip p hp
    rcases List.mem_append.mp hp with hp | hp
    · exact h p hp
    · obtain rfl := List.mem_singleton.mp hp
      exact ⟨(not_or.mp hskip).1, (not_or.mp hskip).2, hpart⟩
  unfold normalizeStep
  split
  · exact h
  · rename_i hskip
    split
    · split
      · exact happend hskip
      · exact fun p hp => h p (List.dropLast_subset parts hp)
    · exact happend hskip

theorem normal_fold {parts : List Bytes} (h : Normal parts) (path : List Bytes)
    (hpath : ∀ part ∈ path, (47 : UInt8) ∉ part) : Normal (path.foldl normalizeStep parts) := by
  induction path generalizing parts with
  | nil => exact h
  | cons part path ih =>
    exact ih (h.step (hpath part (by simp))) fun p hp => hpath p (List.mem_cons_of_mem part hp)

theorem normal_names (path : Bytes) : Normal ((names path).foldl normalizeStep []) :=
  normal_fold (by simp [Normal]) (names path) fun _ => not_mem_of_mem_splitOn

theorem names_pathText {parts : List Bytes} (h : Normal parts) :
    names (pathText parts) = if parts = [] then [ascii "."] else parts := by
  unfold pathText
  split
  · decide
  · rename_i hne
    exact List.splitOn_intercalate 47 (fun p hp => (h p hp).2.2) hne

theorem pathText_inj {parts parts' : List Bytes} (h : Normal parts) (h' : Normal parts')
    (heq : pathText parts = pathText parts') : parts = parts' := by
  have hnames := congrArg names heq
  rw [names_pathText h, names_pathText h'] at hnames
  by_cases hnil : parts = []
  · by_cases hnil' : parts' = []
    · rw [hnil, hnil']
    · rw [if_pos hnil, if_neg hnil'] at hnames
      exact absurd rfl (h' (ascii ".") (by rw [← hnames]; simp)).2.1
  · by_cases hnil' : parts' = []
    · rw [if_neg hnil, if_pos hnil'] at hnames
      exact absurd rfl (h (ascii ".") (by rw [hnames]; simp)).2.1
    · rwa [if_neg hnil, if_neg hnil'] at hnames

theorem normalizePath_eq_iff {path path' : Bytes} : normalizePath path = normalizePath path' ↔
    (names path).foldl normalizeStep [] = (names path').foldl normalizeStep [] :=
  ⟨pathText_inj (normal_names path) (normal_names path'), congrArg pathText⟩

/-! ## The shortest path -/

theorem normalizePath_behind {fromDir toDir : Bytes} (hfrom : Directory fromDir)
    (htarget : Directory toDir) (path : Bytes) :
    normalizePath (fromDir ++ 47 :: path) = normalizePath toDir ↔
      walk (splitPathComponents fromDir) (stepsOf (names path)) =
        some (splitPathComponents toDir) := by
  rw [normalizePath_eq_iff, names_slash, List.foldl_append, fold_directory hfrom,
    fold_directory htarget]
  exact fold_eq_iff_walk _ (no_dotdot_of_directory hfrom) (no_dotdot_of_directory htarget)

theorem stepsOf_ups (above : List Bytes) (rest : List Bytes) :
    stepsOf (above.map (fun _ => ascii "..") ++ rest) =
      above.map (fun _ => .up) ++ stepsOf rest := by
  induction above with
  | nil => rfl
  | cons a above ih => rw [List.map_cons, List.cons_append, stepsOf_up, ih]; rfl

theorem stepsOf_downs {below : List Bytes} (h : ∀ p ∈ below, Ordinary p) :
    stepsOf below = below.map .down := by
  induction below with
  | nil => rfl
  | cons name below ih =>
    rw [stepsOf_down (h name (by simp)), ih fun p hp => h p (List.mem_cons_of_mem name hp)]
    rfl

/-- The parts the code writes take the steps between the two places. -/
theorem stepsOf_dropCommon (start : List Bytes) {target : List Bytes}
    (h : ∀ p ∈ target, Ordinary p) :
    stepsOf ((dropCommon start target).1.map (fun _ => ascii "..") ++
      (dropCommon start target).2) = between start target := by
  induction start generalizing target with
  | nil => rw [between, dropCommon, List.map_nil, List.nil_append, stepsOf_downs h]; simp
  | cons a start ih =>
    cases target with
    | nil =>
      rw [between, dropCommon, stepsOf_ups]
      · simp [stepsOf]
      · simp
    | cons b target =>
      unfold dropCommon between
      split
      · exact ih fun p hp => h p (List.mem_cons_of_mem b hp)
      · rw [stepsOf_ups, stepsOf_downs h]

theorem stepsOf_relativeParts (fromDir : Bytes) {toDir : Bytes} (htarget : Directory toDir) :
    stepsOf (relativeParts fromDir toDir) =
      between (splitPathComponents fromDir) (splitPathComponents toDir) :=
  stepsOf_dropCommon _ fun _ hp => ordinary_of_mem htarget hp

/-- What a step takes of a text: its name and a separator. -/
def textCost (steps : List (Step Bytes)) : Nat := walkCost 3 (fun name => name.length + 1) steps

theorem textCost_up (steps : List (Step Bytes)) : textCost (.up :: steps) = 3 + textCost steps :=
  walkCost_cons 3 _ .up steps

theorem textCost_down (name : Bytes) (steps : List (Step Bytes)) :
    textCost (.down name :: steps) = name.length + 1 + textCost steps :=
  walkCost_cons 3 _ (.down name) steps

/-- No step is spelled with fewer bytes than it costs. -/
theorem textCost_stepsOf_le (parts : List Bytes) :
    textCost (stepsOf parts) ≤ (parts.map fun part => part.length + 1).sum := by
  induction parts with
  | nil => exact Nat.le_refl 0
  | cons part parts ih =>
    rw [List.map_cons, List.sum_cons]
    by_cases hskip : part = [] ∨ part = ascii "."
    · rw [stepsOf_skip hskip]
      omega
    by_cases hup : part = ascii ".."
    · rw [hup, stepsOf_up, textCost_up]
      have hlen : (ascii "..").length = 2 := by decide
      omega
    · rw [stepsOf_down ⟨(not_or.mp hskip).1, (not_or.mp hskip).2, hup⟩, textCost_down]
      omega

theorem textCost_of_written {parts : List Bytes}
    (h : ∀ part ∈ parts, part ≠ [] ∧ part ≠ ascii ".") :
    textCost (stepsOf parts) = (parts.map fun part => part.length + 1).sum := by
  induction parts with
  | nil => rfl
  | cons part parts ih =>
    obtain ⟨hne, hdot⟩ := h part (by simp)
    have hrest := ih fun p hp => h p (List.mem_cons_of_mem part hp)
    rw [List.map_cons, List.sum_cons, ← hrest]
    by_cases hup : part = ascii ".."
    · rw [hup, stepsOf_up, textCost_up]
      rfl
    · rw [stepsOf_down ⟨hne, hdot, hup⟩, textCost_down]

theorem length_eq_sum (path : Bytes) :
    path.length + 1 = ((names path).map fun part => part.length + 1).sum := by
  rw [← length_join 47 (names_ne_nil path), join, names, List.intercalate_splitOn]

/-- What the code writes is made of names and `..`. -/
theorem normal_relativeParts (fromDir : Bytes) {toDir : Bytes} (htarget : Directory toDir) :
    Normal (relativeParts fromDir toDir) := by
  intro part hpart
  rw [relativeParts, dropCommon_eq] at hpart
  rcases List.mem_append.mp hpart with hpart | hpart
  · obtain ⟨_, -, rfl⟩ := List.mem_map.mp hpart
    decide
  · have hmem := List.mem_of_mem_drop hpart
    have hord := ordinary_of_mem htarget hmem
    refine ⟨hord.1, hord.2.1, ?_⟩
    unfold splitPathComponents at hmem
    split at hmem
    · cases hmem
    · exact not_mem_of_mem_splitOn (List.mem_filter.mp hmem).1

theorem stepsOf_result {fromDir toDir : Bytes} (htarget : Directory toDir) :
    stepsOf (names (pathRelativeBetweenDirs fromDir toDir)) =
      between (splitPathComponents fromDir) (splitPathComponents toDir) := by
  rw [pathRelativeBetweenDirs_eq, names_pathText (normal_relativeParts fromDir htarget),
    ← stepsOf_relativeParts fromDir htarget]
  split
  · rename_i hnil
    rw [hnil, stepsOf_skip (.inr rfl)]
  · rfl

/-- Behind the first directory, the computed path leads to the second. -/
theorem result_leads {fromDir toDir : Bytes} (hfrom : Directory fromDir)
    (htarget : Directory toDir) :
    normalizePath (fromDir ++ 47 :: pathRelativeBetweenDirs fromDir toDir) =
      normalizePath toDir := by
  rw [normalizePath_behind hfrom htarget, stepsOf_result htarget]
  exact walk_between [] _ _

theorem result_eq_dot {fromDir toDir : Bytes} (hfrom : Directory fromDir)
    (htarget : Directory toDir) : pathRelativeBetweenDirs fromDir toDir = ascii "." ↔
      normalizePath fromDir = normalizePath toDir := by
  have hdot : ascii "." = pathText [] := rfl
  have hsteps := stepsOf_relativeParts fromDir htarget
  have hsame : between (splitPathComponents fromDir) (splitPathComponents toDir) = [] ↔
      splitPathComponents fromDir = splitPathComponents toDir := between_eq_nil
  rw [normalizePath_eq_iff, fold_directory hfrom, fold_directory htarget, ← hsame,
    ← hsteps, pathRelativeBetweenDirs_eq, hdot]
  constructor
  · intro h
    rw [pathText_inj (normal_relativeParts fromDir htarget) (by simp [Normal]) h]
    rfl
  · intro h
    have hcost := textCost_of_written fun part hp =>
      ⟨(normal_relativeParts fromDir htarget part hp).1,
        (normal_relativeParts fromDir htarget part hp).2.1⟩
    rw [h] at hcost
    have hnil : textCost [] = 0 := rfl
    cases hparts : relativeParts fromDir toDir with
    | nil => rfl
    | cons part parts =>
      rw [hparts, List.map_cons, List.sum_cons] at hcost
      omega

/-- No text leads from one directory to the other in fewer bytes. -/
theorem result_shortest {fromDir toDir : Bytes} (hfrom : Directory fromDir)
    (htarget : Directory toDir) {path : Bytes} (hpath : path ≠ [])
    (hleads : normalizePath (fromDir ++ 47 :: path) = normalizePath toDir) :
    (pathRelativeBetweenDirs fromDir toDir).length ≤ path.length := by
  have hpos := List.length_pos_iff.mpr hpath
  have hwalk := (normalizePath_behind hfrom htarget path).mp hleads
  have hleast : textCost (between (splitPathComponents fromDir) (splitPathComponents toDir)) ≤
      textCost (stepsOf (names path)) := cost_between_le 3 _ hwalk
  have hspelled := textCost_stepsOf_le (names path)
  rw [← length_eq_sum] at hspelled
  have hwritten := textCost_of_written fun part hp =>
    ⟨(normal_relativeParts fromDir htarget part hp).1,
      (normal_relativeParts fromDir htarget part hp).2.1⟩
  rw [stepsOf_relativeParts fromDir htarget] at hwritten
  rw [pathRelativeBetweenDirs_eq, pathText]
  split
  · exact hpos
  · rename_i hne
    have hlen : (join 47 (relativeParts fromDir toDir)).length + 1 =
        ((relativeParts fromDir toDir).map fun part => part.length + 1).sum := length_join 47 hne
    omega

theorem normalizePath_tidy {path : Bytes} (h : Directory path) (htidy : Tidy path) :
    normalizePath path = path := by
  rw [normalizePath, fold_directory h, splitPathComponents]
  split
  · rename_i hdot
    rw [hdot]
    rfl
  · have hall : (path.splitOn 47).filter (· ≠ []) = path.splitOn 47 := by
      rw [List.filter_eq_self]
      intro part hpart
      have hne : part ≠ [] := by
        rintro rfl
        exact htidy hpart
      simpa using hne
    rw [hall, pathText, if_neg (List.splitOn_ne_nil 47 path)]
    exact List.intercalate_splitOn 47

/-- Between two package-relative directories of ordinary names there is a path wherever the
directories have at most 128 parts and everything fits its buffer. Behind the first directory
it is, in its shortest spelling, the second; no text that leads there is shorter; and it is the
dot just where the two are one directory. -/
theorem relativeBetweenDirs_spec (fromDir toDir : Bytes) (dstlen : Nat)
    (hfrom : Directory fromDir) (htarget : Directory toDir) :
    ((∃ path, relativeBetweenDirs (some fromDir) (some toDir) dstlen = some path) ↔
      Fits fromDir toDir dstlen) ∧
    (Tidy toDir → normalizePath toDir = toDir) ∧
    ∀ path, relativeBetweenDirs (some fromDir) (some toDir) dstlen = some path →
      normalizePath (fromDir ++ 47 :: path) = normalizePath toDir ∧
      (∀ other, other ≠ [] → normalizePath (fromDir ++ 47 :: other) = normalizePath toDir →
        path.length ≤ other.length) ∧
      (path = ascii "." ↔ normalizePath fromDir = normalizePath toDir) := by
  rw [relativeBetweenDirs_eq]
  refine ⟨?_, normalizePath_tidy htarget, ?_⟩
  · constructor
    · rintro ⟨path, hpath⟩
      by_contra hno
      rw [if_neg hno] at hpath
      cases hpath
    · intro hfits
      exact ⟨_, if_pos hfits⟩
  · intro path hpath
    split at hpath
    · obtain rfl := Option.some.inj hpath
      exact ⟨result_leads hfrom htarget, fun other => result_shortest hfrom htarget,
        result_eq_dot hfrom htarget⟩
    · cases hpath

theorem relativeBetweenDirs_spec_sibling :
    normalizePath (ascii "src/app" ++ 47 :: ascii "../lib/math") = ascii "src/lib/math" :=
  ((relativeBetweenDirs_spec (ascii "src/app") (ascii "src/lib/math") 4096
      (.inr ⟨by decide, by decide, by decide⟩) (.inr ⟨by decide, by decide, by decide⟩)).2.2
    (ascii "../lib/math") (by decide)).1.trans (by decide)

end QStar.BuildGraph
