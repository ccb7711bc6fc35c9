import Mathlib.Data.List.Nodup
import QStar.Authoring.Imports

/-!
# Files that are evaluated once

The record of evaluated files is kept by the paths that calls resolve to. Where
these are spelled plainly, a file has one path: it is evaluated once at most, and a
call that leads to a file that is still being evaluated fails. A file has two paths
where the entry file is named through `./`, or where a call is given a path that
ends in a slash, in `.` or in `..`.
-/
namespace QStar.Authoring

open QStar.Lib.CStrings QStar.Lib.FileTrees
open QStar.Lib.Questions
open QStar.Base
open QStar.BuildGraph

variable {G V : Type}

/-- The path of an authoring file below the root. -/
def Source (rel : Bytes) : Prop := ¬Dotted rel ∧ (ascii ".qst" <:+ rel ∨ ascii ".qsm" <:+ rel)

/-- The path a call is given ends plainly; no language is asked for. -/
def PlainCall : Call G V → Prop
  | .importFile raw | .importModule raw | .subdir raw => EndsPlain raw
  | .useLanguage _ => False
  | .files _ _ | .declare _ => True

def PlainDir (dir : Bytes) : Prop := dir = [] ∨ ¬Dotted dir

theorem resolveFragmentRelativePath_plain {raw dir path : Bytes} (hends : EndsPlain raw) (hdir : PlainDir dir)
    (h : resolveFragmentRelativePath raw dir = some path) : ¬Dotted path := by
  rw [resolveFragmentRelativePath] at h
  split at h
  · cases h
  · rename_i hrel
    have hrel' : isPackageRelative raw = true := by simpa using hrel
    split at h
    · rename_i hdot
      cases h
      exact not_dotted_of_relative hrel' hends hdot
    · rename_i hdot
      rw [not_not] at hdot
      have hplain := plainNames_behind_dot hrel' hends hdot
      split at h
      · cases h
      · obtain ⟨-, h⟩ := Option.ite_none_right_eq_some.mp h
        cases h
        split
        · exact not_dotted_iff.mpr hplain
        · rename_i hne
          rw [pathJoin_of_not_dotted (hdir.resolve_left hne)]
          exact not_dotted_slash (hdir.resolve_left hne) hplain

theorem resolveImportPath_plain {ctx : Context} {raw path : Bytes} (hends : EndsPlain raw)
    (hdir : PlainDir ctx.currentDir) (h : resolveImportPath ctx raw = some path) : ¬Dotted path := by
  refine resolveFragmentRelativePath_plain hends ?_ h
  split
  · exact hdir
  · exact .inl rfl

/-- A suffix without a slash stands behind the slash. -/
theorem suffix_behind_slash {suffix a b : Bytes} (h : suffix <:+ a ++ 47 :: b) (hslash : 47 ∉ suffix) :
    suffix <:+ b := by
  rcases List.suffix_or_suffix_of_suffix h (List.suffix_append a (47 :: b)) with hshort | hlong
  · rcases List.suffix_cons_iff.mp hshort with heq | hin
    · rw [heq] at hslash
      exact absurd List.mem_cons_self hslash
    · exact hin
  · exact absurd (hlong.subset List.mem_cons_self) hslash

/-- A path keeps its suffix where it is resolved. -/
theorem resolveFragmentRelativePath_suffix {raw dir path suffix : Bytes} (hslash : 47 ∉ suffix)
    (hsuffix : suffix <:+ raw) (h : resolveFragmentRelativePath raw dir = some path) : suffix <:+ path := by
  rw [resolveFragmentRelativePath] at h
  split at h
  · cases h
  · split at h
    · cases h
      exact hsuffix
    · rename_i hdot
      rw [not_not] at hdot
      obtain ⟨rest, rfl⟩ := hdot
      have hrest : suffix <:+ rest := suffix_behind_slash (a := ascii ".") hsuffix hslash
      split at h
      · cases h
      · obtain ⟨-, h⟩ := Option.ite_none_right_eq_some.mp h
        cases h
        have hdrop : (ascii "./" ++ rest).drop 2 = rest := rfl
        rw [hdrop]
        split
        · exact hrest
        · rw [pathJoin]
          split
          · exact hrest
          · exact hrest.trans (List.suffix_append _ _)

theorem not_mem_basename (path : Bytes) : 47 ∉ pathBasenameComponent path := by
  rw [pathBasenameComponent, artifactBasename]
  cases h : strrchr 47 path with
  | none => exact not_mem_of_strrchr h
  | some n => exact (strrchr_eq_some h).2

/-- A file of a plain directory that is named after it. -/
theorem source_of_dir {dir suffix : Bytes} (hdir : ¬Dotted dir) (hsuffix : suffix = ascii ".qst" ∨ suffix = ascii ".qsm") :
    Source (dir ++ ascii "/" ++ pathBasenameComponent dir ++ suffix) := by
  have hassoc : dir ++ ascii "/" ++ pathBasenameComponent dir ++ suffix
      = dir ++ 47 :: (pathBasenameComponent dir ++ suffix) := by simp [ascii]
  have hlen : suffix.length = 4 ∧ 47 ∉ suffix := by
    rcases hsuffix with rfl | rfl <;> decide
  have hslash : 47 ∉ pathBasenameComponent dir ++ suffix := by
    rw [List.mem_append]
    exact not_or.mpr ⟨not_mem_basename dir, hlen.2⟩
  rw [hassoc]
  refine ⟨not_dotted_slash hdir ?_, ?_⟩
  · rw [names_singleton hslash]
    intro name hname
    rw [List.mem_singleton.mp hname]
    have hlong : 4 ≤ (pathBasenameComponent dir ++ suffix).length := by
      rw [List.length_append]
      omega
    refine ⟨?_, ?_, ?_⟩
    · intro h
      rw [h] at hlong
      exact absurd hlong (by decide)
    · intro h
      rw [h] at hlong
      exact absurd hlong (by decide)
    · intro h
      rw [h] at hlong
      exact absurd hlong (by decide)
  · have hend : suffix <:+ dir ++ 47 :: (pathBasenameComponent dir ++ suffix) :=
      ⟨dir ++ 47 :: pathBasenameComponent dir, by simp⟩
    rcases hsuffix with rfl | rfl
    · exact .inl hend
    · exact .inr hend

/-- What a plain call leads to. -/
theorem callTarget_source {ctx : Context} {c : Call G V} {t : Target} (hdir : PlainDir ctx.currentDir)
    (hc : PlainCall c) (ht : callTarget ctx c = some t) : Source t.rel ∧ PlainDir t.dir := by
  cases c with
  | importFile raw =>
    rw [callTarget] at ht
    split at ht
    · cases ht
    · rename_i haccepted
      obtain ⟨rel, hrel, rfl⟩ := Option.map_eq_some_iff.mp ht
      have hplain := resolveImportPath_plain hc hdir hrel
      refine ⟨⟨hplain, .inl ?_⟩, ?_⟩
      · have hsuffix : pathHasSuffix raw (ascii ".qst") = true := by
          simpa using (not_or.mp haccepted).2
        exact resolveFragmentRelativePath_suffix (by decide) (of_decide_eq_true hsuffix) hrel
      · dsimp only
        split
        · exact .inl rfl
        · rename_i hne
          exact .inr ((dirname_of_not_dotted hplain).resolve_left hne)
  | importModule raw =>
    rw [callTarget] at ht
    split at ht
    · cases ht
    · obtain ⟨relDir, hrel, ht⟩ := Option.bind_eq_some_iff.mp ht
      have hplain := resolveImportPath_plain hc hdir hrel
      split at ht
      · cases ht
      · cases ht
        exact ⟨source_of_dir hplain (.inr rfl), .inr hplain⟩
  | subdir dir =>
    rw [callTarget] at ht
    split at ht
    · cases ht
    · rename_i haccepted
      obtain ⟨fullDir, hfull, rfl⟩ := Option.map_eq_some_iff.mp ht
      have hplain : ¬Dotted fullDir := by
        have hfull := (Option.filter_eq_some_iff.mp hfull).1
        have hrel : isPackageRelative dir = true := by simpa using (not_or.mp haccepted).2
        split at hfull
        · exact resolveFragmentRelativePath_plain hc hdir hfull
        · rename_i hdot
          have hdirPlain := not_dotted_of_relative hrel hc hdot
          cases hfull
          split
          · exact hdirPlain
          · rename_i hne
            rw [pathJoin_of_not_dotted (hdir.resolve_left hne)]
            exact not_dotted_slash (hdir.resolve_left hne) (not_dotted_iff.mp hdirPlain)
      exact ⟨source_of_dir hplain (.inl rfl), .inr hplain⟩
  | useLanguage raw => cases ht
  | files exclude patterns => cases ht
  | declare g => cases ht

/-- A path below the root that is opened is recorded as it was looked up. -/
theorem packageRelativeInput_pathJoin (root : Bytes) {rel : Bytes} (h : ¬ascii "./" <+: rel) :
    packageRelativeInput root (pathJoin root rel) = rel := by
  rw [packageRelativeInput, pathJoin]
  by_cases hroot : root = [] ∨ root = ascii "."
  · have hno : ¬(root ≠ [] ∧ root ≠ ascii "." ∧ root ++ ascii "/" <+: rel) := by
      rintro ⟨hne, hdot, -⟩
      rcases hroot with heq | heq
      · exact hne heq
      · exact hdot heq
    rw [if_pos hroot, if_neg hno, if_neg h]
  · obtain ⟨hne, hdot⟩ := not_or.mp hroot
    rw [if_neg hroot, if_pos ⟨hne, hdot, List.prefix_append _ _⟩]
    have hlen : (root ++ ascii "/").length = root.length + 1 := by simp [ascii]
    rw [← hlen, List.drop_left]

theorem recorded_eq {ctx : Context} {t : Target} (h : Source t.rel) : t.recorded ctx = t.rel := by
  rw [Target.recorded]
  split
  · rfl
  · exact packageRelativeInput_pathJoin _ (dot_of_not_dotted h.1)

/-- A computation goes on with files that have not been evaluated, and records them as it reads
them. -/
def Advances (f : ∀ q : Question, q.Answer) (root : Bytes) (s : EvalState G V) (a : Asking (Outcome G V)) : Prop :=
  ∃ new, (a.run f).1.fragments = s.fragments ++ new ∧ filesRead f a = new.map (pathJoin root) ∧
    (s.fragments ++ new).Nodup ∧ ∀ rel ∈ new, Source rel

section Once

variable {f : ∀ q : Question, q.Answer} {lua : Lua G V} {root : Bytes}

theorem advances_still {s : EvalState G V} {a : Asking (Outcome G V)} (hnodup : s.fragments.Nodup)
    (h : Still f s a) : Advances f root s a :=
  ⟨[], by rw [h.1, List.append_nil], h.2, by rw [List.append_nil]; exact hnodup, fun _ hin => by cases hin⟩

theorem Advances.nodup {s : EvalState G V} {a : Asking (Outcome G V)} (h : Advances f root s a) :
    (a.run f).1.fragments.Nodup := by
  obtain ⟨new, hfragments, -, hnodup, -⟩ := h
  rw [hfragments]
  exact hnodup

/-- One computation goes on behind another. -/
theorem Advances.bind {s : EvalState G V} {a : Asking (Outcome G V)} {k : Outcome G V → Asking (Outcome G V)}
    (h : Advances f root s a) (hk : Advances f root (a.run f).1 (k (a.run f))) : Advances f root s (a.bind k) := by
  obtain ⟨new, hfragments, hread, -, hsource⟩ := h
  obtain ⟨more, hfragments', hread', hnodup, hsource'⟩ := hk
  rw [hfragments, List.append_assoc] at hfragments' hnodup
  refine ⟨new ++ more, ?_, ?_, hnodup, ?_⟩
  · rw [run_bind]
    exact hfragments'
  · rw [filesRead_bind, hread, hread', List.map_append]
  · intro rel hrel
    rcases List.mem_append.mp hrel with hrel | hrel
    · exact hsource rel hrel
    · exact hsource' rel hrel

theorem Advances.of_follows {s : EvalState G V} {a b : Asking (Outcome G V)} (h : Follows f a b)
    (hb : Advances f root s b) : Advances f root s a := by
  obtain ⟨new, hfragments, hread, hnodup, hsource⟩ := hb
  exact ⟨new, h.1.trans hfragments, h.2.trans hread, hnodup, hsource⟩

/-- A file that has not been evaluated is read, and then what it calls for. -/
theorem evalInput_advances {run : Context → Chunk G V → EvalState G V → Asking (Outcome G V)} {ctx : Context}
    {s : EvalState G V} {rel : Bytes} (hrel : Source rel) (hnew : rel ∉ s.fragments) (hnodup : s.fragments.Nodup)
    (hrun : ∀ chunk, (f (.text (pathJoin root rel))).bind lua.load = some chunk → (s.entered rel).fragments.Nodup →
      Advances f root (s.entered rel) (run { ctx with importStack := ctx.importStack ++ [rel] } chunk (s.entered rel))) :
    Advances f root s (evalInput lua run ctx (pathJoin root rel) rel s) := by
  have hnodup' : (s.fragments ++ [rel]).Nodup := by
    refine List.nodup_append.mpr ⟨hnodup, List.pairwise_singleton _ _, ?_⟩
    intro r hr r' hr' heq
    rw [heq, List.mem_singleton.mp hr'] at hr
    exact hnew hr
  cases hload : (f (.text (pathJoin root rel))).bind lua.load with
  | none =>
    obtain ⟨hran, hread⟩ := evalInput_unloaded run ctx s rel hload
    refine ⟨[rel], ?_, hread, hnodup', fun r hr => ?_⟩
    · rw [hran]
      rfl
    · rw [List.mem_singleton.mp hr]
      exact hrel
  | some chunk =>
    obtain ⟨hran, hread⟩ := evalInput_loaded run ctx s rel hload
    obtain ⟨new, hfragments, hreadNew, hnodupNew, hsource⟩ := hrun chunk hload hnodup'
    have hentered : (s.entered rel).fragments = s.fragments ++ [rel] := rfl
    rw [hentered, List.append_assoc, List.singleton_append] at hfragments hnodupNew
    refine ⟨rel :: new, ?_, ?_, hnodupNew, ?_⟩
    · rw [hran]
      exact hfragments
    · rw [hread, hreadNew, List.map_cons]
    · intro r hr
      rcases List.mem_cons.mp hr with rfl | hr
      · exact hrel
      · exact hsource r hr

/-- A run whose calls are plain reads each file once, and records it. -/
theorem evalChunk_advances (depth : Nat) {ctx : Context} {chunk : Chunk G V} {s : EvalState G V}
    (hroot : ctx.rootDir = root) (hdir : PlainDir ctx.currentDir) (hnodup : s.fragments.Nodup)
    (hcalls : EveryCall f lua (fun _ c _ => PlainCall c) depth ctx chunk s) :
    Advances f root s (evalChunk lua depth ctx chunk s) := by
  induction depth generalizing ctx chunk s with
  | zero => exact advances_still hnodup ⟨rfl, rfl⟩
  | succ depth ih =>
    -- the calls of the chunk are made one after another
    rw [evalChunk]
    rw [EveryCall] at hcalls
    induction chunk generalizing s with
    | returns v => exact advances_still hnodup ⟨rfl, rfl⟩
    | raises => exact advances_still hnodup ⟨rfl, rfl⟩
    | calls c next ihnext =>
      obtain ⟨⟨hplain, hinside⟩, hrest⟩ := hcalls
      have hcall : Advances f root s (callQStar lua (evalChunk lua depth) ctx c s) := by
        have hdoes : Does f lua (evalChunk lua depth) ctx s c (callQStar lua (evalChunk lua depth) ctx c s) := by
          refine callQStar_does ?_
          rintro raw rfl
          exact hplain
        rw [Does] at hdoes
        cases henters : enters f ctx s c with
        | none =>
          rw [henters] at hdoes
          exact advances_still hnodup hdoes
        | some t =>
          rw [henters] at hdoes
          obtain ⟨htarget, hseen⟩ := Option.filter_eq_some_iff.mp henters
          obtain ⟨hsource, hdir'⟩ := callTarget_source hdir hplain htarget
          simp only [Bool.and_eq_true, decide_eq_true_eq] at hseen
          refine Advances.of_follows hdoes ?_
          rw [recorded_eq hsource, Target.full, hroot]
          refine evalInput_advances hsource hseen.1.1.2 hnodup ?_
          intro loaded hload hnodup'
          have hthere := hinside t loaded henters (by rw [Target.full, hroot]; exact hload)
          rw [recorded_eq hsource] at hthere
          have hctx : { t.context ctx with importStack := (t.context ctx).importStack ++ [t.rel] } = t.inside ctx := by
            rw [Target.inside, recorded_eq hsource, Target.context]
            split <;> rfl
          rw [hctx]
          refine ih ?_ ?_ hnodup' hthere
          · rw [Target.inside, Target.context]
            split <;> exact hroot
          · rw [Target.inside, Target.context]
            split <;> exact hdir'
      exact hcall.bind (ihnext _ hcall.nodup hrest)

end Once

section Places

variable {f : ∀ q : Question, q.Answer} {root file : Bytes} {cwd : Place}

/-- A directory that the search for the root comes by is above the file as it is written. -/
theorem ancestors_above {fuel : Nat} {dir cur : Bytes} (hdir : dir ∈ ancestors fuel cur)
    (hcur : cur = ascii "." ∨ (cur = ascii "/" ∧ file.head? = some 47) ∨ cur ++ ascii "/" <+: file) :
    dir = ascii "." ∨ (dir = ascii "/" ∧ file.head? = some 47) ∨ dir ++ ascii "/" <+: file := by
  induction fuel generalizing cur with
  | zero =>
    rw [ancestors, List.mem_singleton] at hdir
    rw [hdir]
    exact hcur
  | succ fuel ih =>
    rw [ancestors] at hdir
    rcases List.mem_cons.mp hdir with rfl | hdir
    · exact hcur
    · split at hdir
      · cases hdir
      · rename_i hgo
        refine ih hdir ?_
        rcases hcur with hdot | ⟨hroot, -⟩ | hprefix
        · exact absurd (.inl hdot) hgo
        · exact absurd (.inr (.inl hroot)) hgo
        · rcases dirname_cases cur with hdot | ⟨hslash, hhead⟩ | habove
          · exact .inl hdot
          · refine .inr (.inl ⟨hslash, ?_⟩)
            obtain ⟨rest, rfl⟩ := hprefix
            cases cur with
            | nil => cases hhead
            | cons c tail => exact hhead
          · exact .inr (.inr (habove.trans ((List.prefix_append cur (ascii "/")).trans hprefix)))

theorem discoverRoot_above (h : (discoverRoot file).run f = some root) :
    root = ascii "." ∨ (root = ascii "/" ∧ file.head? = some 47) ∨ root ++ ascii "/" <+: file := by
  refine ancestors_above (findRoot_mem h) ?_
  exact dirname_cases file

/-- The entry file is where its plain path below the root leads. -/
theorem filePlace_entry (h : (discoverRoot file).run f = some root) (hplain : ¬Dotted (packageRelativeInput root file)) :
    filePlace cwd file = placeAt (filePlace cwd root) (packageRelativeInput root file) := by
  have habove := discoverRoot_above h
  have hhead := head_of_not_dotted hplain
  rw [packageRelativeInput] at hplain hhead ⊢
  by_cases hbelow : root ≠ [] ∧ root ≠ ascii "." ∧ root ++ ascii "/" <+: file
  · rw [if_pos hbelow] at hplain hhead ⊢
    obtain ⟨hne, hdot, rest, rfl⟩ := hbelow
    have hlen : (root ++ ascii "/").length = root.length + 1 := by simp [ascii]
    rw [← hlen, List.drop_left] at hhead ⊢
    rw [← filePlace_pathJoin cwd root hhead, pathJoin, if_neg (not_or.mpr ⟨hne, hdot⟩)]
  · rw [if_neg hbelow] at hplain hhead ⊢
    have hcwd : file.head? = some 47 ∨ filePlace cwd root = cwd := by
      rcases habove with rfl | ⟨-, hslash⟩ | hprefix
      · exact .inr rfl
      · exact .inl hslash
      · by_cases hne : root = []
        · rw [hne]
          exact .inr rfl
        · by_cases hdot : root = ascii "."
          · rw [hdot]
            exact .inr rfl
          · exact absurd ⟨hne, hdot, hprefix⟩ hbelow
    by_cases hdot : ascii "./" <+: file
    · rw [if_pos hdot] at hplain hhead ⊢
      obtain ⟨rest, rfl⟩ := hdot
      have hslash : ¬(ascii "./" ++ rest).head? = some 47 := by
        intro heq
        cases heq
      have hdrop : (ascii "./" ++ rest).drop 2 = rest := rfl
      rw [hcwd.resolve_left hslash, hdrop, filePlace, if_neg hslash, placeAt_behind_dot]
    · rw [if_neg hdot] at hplain hhead ⊢
      rw [hcwd.resolve_left hhead, filePlace, if_neg hhead]

/-- How the entry file may be named. -/
def PlainEntry (root fragment file : Bytes) : Prop :=
  PlainDir fragment ∧
    (pathBasenameComponent file = ascii "qstar.lua" ∨ ¬Dotted (packageRelativeInput root file))

theorem basename_of_source {rel : Bytes} (h : Source rel) :
    PlainName (artifactBasename rel) ∧ artifactBasename rel ≠ ascii "qstar.lua" := by
  have hplain := not_dotted_iff.mp h.1
  have hbase : artifactBasename rel ∈ names rel ∧
      ∀ suffix, 47 ∉ suffix → suffix <:+ rel → suffix <:+ artifactBasename rel := by
    unfold artifactBasename
    cases hslash : strrchr 47 rel with
    | none =>
      refine ⟨?_, fun _ _ hsuffix => hsuffix⟩
      rw [names_singleton (not_mem_of_strrchr hslash)]
      exact List.mem_cons_self
    | some n =>
      obtain ⟨hsplit, hrest⟩ := strrchr_eq_some hslash
      simp only
      refine ⟨?_, ?_⟩
      · have hnames : names rel = names (rel.take n) ++ [rel.drop (n + 1)] := by
          conv_lhs => rw [hsplit]
          exact names_append hrest
        rw [hnames]
        exact List.mem_append_right _ List.mem_cons_self
      · intro suffix hno hsuffix
        rw [hsplit] at hsuffix
        exact suffix_behind_slash hsuffix hno
  refine ⟨hplain _ hbase.1, ?_⟩
  intro heq
  rw [heq] at hbase
  rcases h.2 with hsuffix | hsuffix
  · exact absurd (hbase.2 _ (by decide) hsuffix) (by decide)
  · exact absurd (hbase.2 _ (by decide) hsuffix) (by decide)

theorem filePlace_source {rel : Bytes} (h : Source rel) :
    filePlace cwd (pathJoin root rel) = placeAt (filePlace cwd root) rel :=
  filePlace_pathJoin cwd root (head_of_not_dotted h.1)

theorem artifactBasename_pathJoin (a b : Bytes) : artifactBasename (pathJoin a b) = artifactBasename b := by
  rw [pathJoin]
  split
  · rfl
  · have hassoc : a ++ ascii "/" ++ b = a ++ 47 :: b := by simp [ascii]
    rw [hassoc, artifactBasename_slash]

/-- The recorded path of the entry file keeps its name. -/
theorem artifactBasename_packageRelativeInput (root file : Bytes) :
    artifactBasename (packageRelativeInput root file) = artifactBasename file := by
  rw [packageRelativeInput]
  split
  · rename_i h
    obtain ⟨-, -, rest, rfl⟩ := h
    have hlen : (root ++ ascii "/").length = root.length + 1 := by simp [ascii]
    have hassoc : root ++ ascii "/" ++ rest = root ++ 47 :: rest := by simp [ascii]
    rw [← hlen, List.drop_left, hassoc, artifactBasename_slash]
  · split
    · rename_i h
      obtain ⟨rest, rfl⟩ := h
      exact (artifactBasename_slash (ascii ".") rest).symm
    · rfl

/-- No authoring file is where a `qstar.lua` is. -/
theorem source_apart {rel path : Bytes} (hrel : Source rel) (hname : artifactBasename path = ascii "qstar.lua") :
    filePlace cwd (pathJoin root rel) ≠ filePlace cwd path := by
  intro h
  obtain ⟨hbase, hne⟩ := basename_of_source hrel
  have hplainName : PlainName (artifactBasename path) := by
    rw [hname]
    unfold PlainName
    decide
  obtain ⟨dir, hdir⟩ := placeAt_basename (filePlace cwd root) hbase
  obtain ⟨dir', hdir'⟩ := placeAt_basename (if path.head? = some 47 then [] else cwd) hplainName
  have hfile : filePlace cwd path = artifactBasename path :: dir' := hdir'
  rw [filePlace_source hrel, hdir, hfile, List.cons.injEq] at h
  exact hne (h.1.trans hname)

/-- The entry file and another file are at one place only where they have one path. -/
theorem entry_apart (hfound : (discoverRoot file).run f = some root)
    (hentry : pathBasenameComponent file = ascii "qstar.lua" ∨ ¬Dotted (packageRelativeInput root file)) {rel : Bytes}
    (hrel : Source rel) (h : filePlace cwd (pathJoin root rel) = filePlace cwd file) :
    rel = packageRelativeInput root file := by
  rcases hentry with hname | hplain
  · exact absurd h (source_apart hrel hname)
  · rw [filePlace_source hrel, filePlace_entry hfound hplain] at h
    exact placeAt_injective hrel.1 hplain h

/-- The same of the path under which the entry file is recorded. -/
theorem recorded_apart (hentry : pathBasenameComponent file = ascii "qstar.lua" ∨ ¬Dotted (packageRelativeInput root file))
    {rel : Bytes} (hrel : Source rel)
    (h : filePlace cwd (pathJoin root rel) = filePlace cwd (pathJoin root (packageRelativeInput root file))) :
    rel = packageRelativeInput root file := by
  rcases hentry with hname | hplain
  · refine absurd h (source_apart hrel ?_)
    rw [artifactBasename_pathJoin, artifactBasename_packageRelativeInput]
    exact hname
  · rw [filePlace_source hrel, filePlace_pathJoin cwd root (head_of_not_dotted hplain)] at h
    exact placeAt_injective hrel.1 hplain h

end Places

section Reentry

variable {f : ∀ q : Question, q.Answer} {lua : Lua G V}
  {run : Context → Chunk G V → EvalState G V → Asking (Outcome G V)} {ctx : Context} {s : EvalState G V}

/-- A call that resolves to a path that is being evaluated fails. -/
theorem callQStar_in_stack {c : Call G V} {t : Target} (ht : callTarget ctx c = some t)
    (hin : t.rel ∈ ctx.importStack) : (callQStar lua run ctx c s).run f = (s, none) := by
  cases c with
  | importFile raw =>
    rw [callTarget] at ht
    split at ht
    · cases ht
    · rename_i haccepted
      obtain ⟨rel, hrel, rfl⟩ := Option.map_eq_some_iff.mp ht
      rw [callQStar, importFile, if_neg haccepted, hrel]
      simp only
      rw [if_pos (.inl hin)]
      rfl
  | importModule raw =>
    rw [callTarget] at ht
    split at ht
    · cases ht
    · rename_i haccepted
      obtain ⟨relDir, hrel, ht⟩ := Option.bind_eq_some_iff.mp ht
      split at ht
      · cases ht
      · cases ht
        rw [callQStar, importModule, if_neg haccepted, hrel]
        simp only
        rw [if_pos (.inr hin)]
        rfl
  | subdir dir =>
    rw [callTarget] at ht
    split at ht
    · cases ht
    · rename_i haccepted
      obtain ⟨fullDir, hfull, rfl⟩ := Option.map_eq_some_iff.mp ht
      rw [callQStar, subdir, if_neg haccepted]
      dsimp only at hfull ⊢
      rw [hfull]
      simp only [bind_eq, run_bind]
      split
      · rw [if_pos (.inl hin)]
        rfl
      · rfl
  | useLanguage raw => cases ht
  | files exclude patterns => cases ht
  | declare g => cases ht

/-- The place is that of the entry file, or of a file below the root that is being evaluated. -/
def InProgress (cwd : Place) (entryFile : Bytes) (ctx : Context) (p : Place) : Prop :=
  p = filePlace cwd entryFile ∨ ∃ rel ∈ ctx.importStack, p = filePlace cwd (pathJoin ctx.rootDir rel)

/-- Where the call leads to a file that is being evaluated, it fails and evaluates nothing. -/
def ReentryFails (f : ∀ q : Question, q.Answer) (lua : Lua G V) (cwd : Place) (entryFile : Bytes) (ctx : Context)
    (c : Call G V) (s : EvalState G V) : Prop :=
  ∀ t, callTarget ctx c = some t → InProgress cwd entryFile ctx (filePlace cwd (t.full ctx)) →
    ∀ run, (callQStar lua run ctx c s).run f = (s, none)

/-- What the context of a run is like whose calls are plain. -/
structure PlainContext (root entry : Bytes) (ctx : Context) : Prop where
  atRoot : ctx.rootDir = root
  inDir : PlainDir ctx.currentDir
  hasEntry : entry ∈ ctx.importStack
  ofStack : ∀ rel ∈ ctx.importStack, rel = entry ∨ Source rel

theorem reentryFails {root file : Bytes} {cwd : Place} (hfound : (discoverRoot file).run f = some root)
    (hentry : pathBasenameComponent file = ascii "qstar.lua" ∨ ¬Dotted (packageRelativeInput root file))
    (hctx : PlainContext root (packageRelativeInput root file) ctx) {c : Call G V} (hc : PlainCall c) :
    ReentryFails f lua cwd file ctx c s := by
  intro t ht hplace run
  have hsource := (callTarget_source hctx.inDir hc ht).1
  refine callQStar_in_stack ht ?_
  rw [Target.full, InProgress, hctx.atRoot] at hplace
  rcases hplace with hfile | ⟨rel, hrel, hsame⟩
  · rw [entry_apart hfound hentry hsource hfile]
    exact hctx.hasEntry
  · rcases hctx.ofStack rel hrel with rfl | hrelSource
    · rw [recorded_apart hentry hsource hsame]
      exact hrel
    · rw [filePlace_source hsource, filePlace_source hrelSource] at hsame
      rw [placeAt_injective hsource.1 hrelSource.1 hsame]
      exact hrel

theorem PlainContext.inside {root entry : Bytes} (hctx : PlainContext root entry ctx) {c : Call G V} (hc : PlainCall c)
    {t : Target} (ht : callTarget ctx c = some t) : PlainContext root entry (t.inside ctx) := by
  obtain ⟨hsource, hdir⟩ := callTarget_source hctx.inDir hc ht
  have hstack : (t.inside ctx).importStack = ctx.importStack ++ [t.rel] := by
    rw [Target.inside, recorded_eq hsource]
  refine ⟨?_, ?_, ?_, ?_⟩
  · rw [Target.inside, Target.context]
    split <;> exact hctx.atRoot
  · rw [Target.inside, Target.context]
    split <;> exact hdir
  · rw [hstack]
    exact List.mem_append_left _ hctx.hasEntry
  · rw [hstack]
    intro rel hrel
    rcases List.mem_append.mp hrel with hrel | hrel
    · exact hctx.ofStack rel hrel
    · rw [List.mem_singleton.mp hrel]
      exact .inr hsource

end Reentry

section Evaluations

variable (f : ∀ q : Question, q.Answer) (lua : Lua G V)

/-- The context in which the calls of the entry file are made. -/
def entryContext (root fragment file : Bytes) : Context :=
  ⟨root, fragment, [packageRelativeInput root file], [], 0⟩

/-- What there is before the entry file is entered. -/
def startState (r : EvalRequest) : EvalState G V := ⟨lua.start r, false, [], [], []⟩

/-- The entry file with all that it calls for, once its root is found. -/
def evalEntry (depth : Nat) (r : EvalRequest) (root fragment : Bytes) : Asking (Outcome G V) :=
  evalFragment lua (evalChunk lua depth) ⟨root, [], [], [], 0⟩ (startState lua r) r.entryFile fragment

/-- Every call of an evaluation is as stated. -/
def EvalEvery (P : Context → Call G V → EvalState G V → Prop) (depth : Nat) (r : EvalRequest) : Prop :=
  ∀ root fragment chunk, (discoverWorkspaceRoot r.entryFile).run f = some (root, fragment) →
    (f (.text r.entryFile)).bind lua.load = some chunk →
    EveryCall f lua P depth (entryContext root fragment r.entryFile) chunk
      ((startState lua r).entered (packageRelativeInput root r.entryFile))

variable {f}

theorem filesRead_findRoot (dirs : List Bytes) : filesRead f (findRoot dirs) = [] := by
  induction dirs with
  | nil => rfl
  | cons cur rest ih =>
    rw [findRoot]
    simp only [bind_eq, filesRead_bind, filesRead_fileExists, List.nil_append]
    split
    · rfl
    · exact ih

theorem filesRead_discoverWorkspaceRoot (file : Bytes) : filesRead f (discoverWorkspaceRoot file) = [] := by
  rw [discoverWorkspaceRoot, discoverRoot]
  simp only [bind_eq, filesRead_bind, filesRead_findRoot, List.nil_append]
  split <;> rfl

variable (f)

/-- An evaluation refuses its entry file, or finds a root and evaluates the entry file. -/
theorem evalFile_cases (depth : Nat) (r : EvalRequest) :
    ((evalFile lua depth r).run f = none ∧ filesRead f (evalFile lua depth r) = []) ∨
      ∃ root fragment, (discoverWorkspaceRoot r.entryFile).run f = some (root, fragment) ∧
        filesRead f (evalFile lua depth r) = filesRead f (evalEntry lua depth r root fragment) ∧
        ∀ e, (evalFile lua depth r).run f = some e → e.packageRoot = root ∧
          e.fragments = ((evalEntry lua depth r root fragment).run f).1.fragments := by
  rw [evalFile]
  split
  · exact .inl ⟨rfl, rfl⟩
  · simp only [bind_eq, run_bind, filesRead_bind, filesRead_discoverWorkspaceRoot, List.nil_append]
    cases hfound : (discoverWorkspaceRoot r.entryFile).run f with
    | none => exact .inl ⟨rfl, rfl⟩
    | some found =>
      obtain ⟨root, fragment⟩ := found
      simp only
      split
      · exact .inl ⟨rfl, rfl⟩
      · right
        refine ⟨root, fragment, rfl, ?_, ?_⟩
        · rw [filesRead_bind]
          split <;> exact List.append_nil _
        · intro e he
          rw [run_bind] at he
          split at he
          · cases he
            exact ⟨rfl, rfl⟩
          · cases he

variable {f lua}

/-- The entry file is read first, and then each file that is entered, once. -/
theorem evalEntry_spec {depth : Nat} {r : EvalRequest} {root fragment : Bytes}
    (hfound : (discoverWorkspaceRoot r.entryFile).run f = some (root, fragment)) (hdir : PlainDir fragment)
    (hcalls : EvalEvery f lua (fun _ c _ => PlainCall c) depth r) :
    ∃ new, ((evalEntry lua depth r root fragment).run f).1.fragments
        = packageRelativeInput root r.entryFile :: new ∧
      filesRead f (evalEntry lua depth r root fragment) = r.entryFile :: new.map (pathJoin root) ∧
      (packageRelativeInput root r.entryFile :: new).Nodup ∧ ∀ rel ∈ new, Source rel := by
  have hfollows := @evalFragment_follows G V f lua (evalChunk lua depth) ⟨root, [], [], [], 0⟩ (startState lua r)
    r.entryFile fragment
  rw [evalEntry, hfollows.1, hfollows.2]
  cases hload : (f (.text r.entryFile)).bind lua.load with
  | none =>
    obtain ⟨hran, hread⟩ := evalInput_unloaded (evalChunk lua depth) ⟨root, fragment, [], [], 0⟩ (startState lua r)
      (packageRelativeInput root r.entryFile) hload
    refine ⟨[], ?_, hread, List.pairwise_singleton _ _, fun _ hin => by cases hin⟩
    rw [hran]
    rfl
  | some chunk =>
    obtain ⟨hran, hread⟩ := evalInput_loaded (evalChunk lua depth) ⟨root, fragment, [], [], 0⟩ (startState lua r)
      (packageRelativeInput root r.entryFile) hload
    have hroot : (entryContext root fragment r.entryFile).rootDir = root := rfl
    have hstart : ((startState lua r).entered (packageRelativeInput root r.entryFile)).fragments.Nodup :=
      List.nodup_singleton _
    obtain ⟨new, hfragments, hreadNew, hnodup, hsource⟩ :=
      evalChunk_advances depth hroot hdir hstart (hcalls root fragment chunk hfound hload)
    refine ⟨new, ?_, ?_, hnodup, hsource⟩
    · rw [hran]
      exact hfragments
    · rw [hread]
      exact congrArg (r.entryFile :: ·) hreadNew

/-- Where the entry file is a `qstar.lua` or is named by a plain path below the root, and no call
is given a path that ends in a slash, in `.` or in `..`, an evaluation reads no file twice, whatever
the file system answers and whatever the files call for; the record of evaluated files lists the
files it reads in order; and a call that leads to a file that is being evaluated fails. -/
theorem evaluated_once (f : ∀ q : Question, q.Answer) (lua : Lua G V) (depth : Nat) (r : EvalRequest) (cwd : Place)
    (hentry : ∀ root fragment, (discoverWorkspaceRoot r.entryFile).run f = some (root, fragment) →
      PlainEntry root fragment r.entryFile)
    (hcalls : EvalEvery f lua (fun _ c _ => PlainCall c) depth r) :
    ((filesRead f (evalFile lua depth r)).map (filePlace cwd)).Nodup ∧
      (∀ e, (evalFile lua depth r).run f = some e →
        e.fragments = (filesRead f (evalFile lua depth r)).map (packageRelativeInput e.packageRoot)) ∧
      (∀ root fragment, (discoverWorkspaceRoot r.entryFile).run f = some (root, fragment) →
        ((evalEntry lua depth r root fragment).run f).1.fragments
          = (filesRead f (evalEntry lua depth r root fragment)).map (packageRelativeInput root)) ∧
      EvalEvery f lua (ReentryFails f lua cwd r.entryFile) depth r := by
  have hlists : ∀ root fragment, (discoverWorkspaceRoot r.entryFile).run f = some (root, fragment) →
      ((evalEntry lua depth r root fragment).run f).1.fragments
        = (filesRead f (evalEntry lua depth r root fragment)).map (packageRelativeInput root) := by
    intro root fragment hfound
    obtain ⟨new, hfragments, hread, -, hsource⟩ := evalEntry_spec hfound (hentry root fragment hfound).1 hcalls
    rw [hfragments, hread, List.map_cons, List.map_map]
    congr 1
    conv_lhs => rw [← List.map_id new]
    refine List.map_congr_left fun rel hrel => ?_
    exact (packageRelativeInput_pathJoin root (dot_of_not_dotted (hsource rel hrel).1)).symm
  have hroot : ∀ root fragment, (discoverWorkspaceRoot r.entryFile).run f = some (root, fragment) →
      (discoverRoot r.entryFile).run f = some root := by
    intro root fragment hfound
    rw [discoverWorkspaceRoot, bind_eq, run_bind] at hfound
    split at hfound
    · cases hfound
    · rename_i found hdiscovered
      obtain ⟨fragment', -, heq⟩ := Option.map_eq_some_iff.mp hfound
      cases heq
      exact hdiscovered
  refine ⟨?_, ?_, hlists, ?_⟩
  · rcases evalFile_cases f lua depth r with ⟨-, hread⟩ | ⟨root, fragment, hfound, hread, -⟩
    · rw [hread]
      exact List.nodup_nil
    · obtain ⟨hdir, hname⟩ := hentry root fragment hfound
      obtain ⟨new, -, hread', hnodup, hsource⟩ := evalEntry_spec hfound hdir hcalls
      obtain ⟨hfresh, hdistinct⟩ := List.nodup_cons.mp hnodup
      rw [hread, hread', List.map_cons, List.map_map, List.nodup_cons]
      refine ⟨?_, ?_⟩
      · intro hin
        obtain ⟨rel, hrel, hsame⟩ := List.mem_map.mp hin
        have heq := entry_apart (hroot root fragment hfound) hname (hsource rel hrel) hsame
        rw [heq] at hrel
        exact hfresh hrel
      · refine List.Nodup.map_on ?_ hdistinct
        intro rel hrel rel' hrel' hsame
        have hsource₁ := hsource rel hrel
        have hsource₂ := hsource rel' hrel'
        change filePlace cwd (pathJoin root rel) = filePlace cwd (pathJoin root rel') at hsame
        rw [filePlace_source hsource₁, filePlace_source hsource₂] at hsame
        exact placeAt_injective hsource₁.1 hsource₂.1 hsame
  · intro e he
    rcases evalFile_cases f lua depth r with ⟨hnone, -⟩ | ⟨root, fragment, hfound, hread, hresult⟩
    · rw [hnone] at he
      cases he
    · obtain ⟨hpackage, hfragments⟩ := hresult e he
      rw [hfragments, hread, hpackage]
      exact hlists root fragment hfound
  · intro root fragment chunk hfound hload
    obtain ⟨hdir, hname⟩ := hentry root fragment hfound
    have hctx : PlainContext root (packageRelativeInput root r.entryFile) (entryContext root fragment r.entryFile) :=
      ⟨rfl, hdir, List.mem_cons_self, fun rel hrel => .inl (List.mem_singleton.mp hrel)⟩
    refine EveryCall.imp (I := PlainContext root (packageRelativeInput root r.entryFile)) ?_ hctx
      (hcalls root fragment chunk hfound hload)
    intro ctx c s hI hc
    refine ⟨reentryFails (hroot root fragment hfound) hname hI hc, ?_⟩
    intro t ht
    exact hI.inside hc (Option.filter_eq_some_iff.mp ht).1

end Evaluations

/-- A chunk that makes calls and takes no notice of the replies. -/
def callAll : List (Call Unit Unit) → Chunk Unit Unit
  | [] => .returns ()
  | c :: rest => .calls c fun _ => callAll rest

/-- Lua for an entry file that makes the calls and other files that make none. -/
def importLua (calls : List (Call Unit Unit)) : Lua Unit Unit where
  load text := some (if text = ascii "entry" then callAll calls else .returns ())
  nil := ()
  isTable := fun _ => true
  list := fun _ => ()
  readonly := id
  manifest := fun _ _ => none
  activate := fun g _ _ _ _ => ⟨g, false, none⟩
  start := fun _ => ()
  lowerFinals := some

/-- A root with one entry file and `p/b.qst`, under all their names. -/
def importWorld (entry : Bytes) : World where
  file path :=
    if filePlace [] path = filePlace [] entry then some ⟨ascii "entry", 0⟩
    else if filePlace [] path = [ascii "b.qst", ascii "p"] then some ⟨ascii "b", 0⟩
    else if filePlace [] path = [ascii "qstar.lua"] then some ⟨[], 0⟩
    else none
  environment := fun _ => none
  names := fun _ => none
  executable := none

def importRequest (entry : Bytes) : EvalRequest := ⟨entry, [], [], [], [], []⟩

/-- The calls of one file. -/
def oneImport : List (Call Unit Unit) := [.importFile (ascii "p/b.qst")]

theorem oneImport_plain (f : ∀ q : Question, q.Answer) {text : Bytes} {chunk : Chunk Unit Unit}
    (hload : (importLua oneImport).load text = some chunk) (depth : Nat) (ctx : Context) (s : EvalState Unit Unit) :
    EveryCall f (importLua oneImport) (fun _ c _ => PlainCall c) depth ctx chunk s := by
  induction depth generalizing text chunk ctx s with
  | zero => trivial
  | succ depth ih =>
    have hends : EndsPlain (ascii "p/b.qst") := by decide
    simp only [importLua, Option.some.injEq] at hload
    subst hload
    split
    · refine ⟨⟨hends, ?_⟩, trivial⟩
      intro t loaded _ hloaded
      obtain ⟨content, -, hloaded⟩ := Option.bind_eq_some_iff.mp hloaded
      exact ih hloaded _ _
    · trivial

theorem evaluated_once_import :
    ((filesRead (importWorld (ascii "qstar.lua")).answer
        (evalFile (importLua oneImport) 8 (importRequest (ascii "qstar.lua")))).map (filePlace [])).Nodup := by
  refine (evaluated_once (importWorld (ascii "qstar.lua")).answer (importLua oneImport) 8
    (importRequest (ascii "qstar.lua")) [] ?_ ?_).1
  · intro root fragment hfound
    have hroot : (discoverWorkspaceRoot (ascii "qstar.lua")).run (importWorld (ascii "qstar.lua")).answer
        = some (ascii ".", []) := by decide +kernel
    have hsame := hroot.symm.trans hfound
    cases hsame
    exact ⟨.inl rfl, .inl (by decide +kernel)⟩
  · intro root fragment chunk _ hload
    obtain ⟨text, -, hload⟩ := Option.bind_eq_some_iff.mp hload
    exact oneImport_plain _ hload _ _ _

/-- The calls of one file twice, as the file beside it is named. -/
def twoImports : List (Call Unit Unit) := [.importFile (ascii "./b.qst"), .importFile (ascii "./b.qst")]

/-- An entry file that is named through `./` can enter a file beside it twice. -/
theorem evaluated_twice :
    filesRead (importWorld (ascii "./p/p.qst")).answer
        (evalFile (importLua twoImports) 8 (importRequest (ascii "./p/p.qst")))
      = [ascii "./p/p.qst", ascii "./p/b.qst", ascii "./p/b.qst"] ∧
    ¬((filesRead (importWorld (ascii "./p/p.qst")).answer
        (evalFile (importLua twoImports) 8 (importRequest (ascii "./p/p.qst")))).map (filePlace [])).Nodup := by
  have hread : filesRead (importWorld (ascii "./p/p.qst")).answer
      (evalFile (importLua twoImports) 8 (importRequest (ascii "./p/p.qst")))
        = [ascii "./p/p.qst", ascii "./p/b.qst", ascii "./p/b.qst"] := by decide +kernel
  refine ⟨hread, ?_⟩
  rw [hread]
  decide +kernel

end QStar.Authoring
