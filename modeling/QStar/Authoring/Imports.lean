import QStar.Authoring.Entered
import QStar.Base.PlainPaths

/-!
# What a call enters

`import_file`, `import_module` and `subdir` resolve their argument to a path of the
package, look that path up among the files that are being evaluated or have been,
and then evaluate one file. What the call leaves is told by that evaluation.
-/
namespace QStar.Authoring

open QStar.Lib.CStrings
open QStar.Lib.Questions
open QStar.Base
open QStar.BuildGraph

variable {G V : Type}

/-- The file a call resolves its argument to: the path that is looked up, and the directory in
which the file's own calls are resolved. -/
structure Target where
  rel : Bytes
  dir : Bytes
  isModule : Bool

/-- What `qstar.import_file`, `qstar.import_module` and `qstar.subdir` make of their argument,
unless they refuse it. -/
def callTarget (ctx : Context) : Call G V → Option Target
  | .importFile raw =>
    if 0 < ctx.moduleDepth ∨ pathHasSuffix raw (ascii ".qst") = false then none
    else
      (resolveImportPath ctx raw).map fun rel =>
        ⟨rel, if dirname rel = ascii "." then [] else dirname rel, false⟩
  | .importModule raw =>
    if pathHasSuffix raw (ascii ".qsm") || pathHasSuffix raw (ascii ".qst") ||
        raw = ascii "qstar.lua" || raw.getLast? = some 47 then none
    else
      (resolveImportPath ctx raw).bind fun relDir =>
        if pathBasenameComponent relDir = [] then none
        else some ⟨relDir ++ ascii "/" ++ pathBasenameComponent relDir ++ ascii ".qsm", relDir, true⟩
  | .subdir dir =>
    if 0 < ctx.moduleDepth ∨ isPackageRelative dir = false then none
    else
      let fullDir :=
        if ascii "./" <+: dir then resolveFragmentRelativePath dir ctx.currentDir
        else some (if ctx.currentDir = [] then dir else pathJoin ctx.currentDir dir)
      (fullDir.filter isPackageRelative).map fun fullDir =>
        ⟨fullDir ++ ascii "/" ++ pathBasenameComponent fullDir ++ ascii ".qst", fullDir, false⟩
  | .useLanguage _ | .files _ _ | .declare _ => none

/-- The path that is opened. -/
def Target.full (t : Target) (ctx : Context) : Bytes := pathJoin ctx.rootDir t.rel

/-- The path that is recorded: `eval_fragment` takes it from the path that is opened. -/
def Target.recorded (t : Target) (ctx : Context) : Bytes :=
  if t.isModule then t.rel else packageRelativeInput ctx.rootDir (t.full ctx)

/-- The context in which the file is loaded. -/
def Target.context (t : Target) (ctx : Context) : Context :=
  if t.isModule then { ctx with currentDir := t.dir, moduleDepth := ctx.moduleDepth + 1 }
  else { ctx with currentDir := t.dir }

/-- The context in which the calls of the file are made. -/
def Target.inside (t : Target) (ctx : Context) : Context :=
  { t.context ctx with importStack := ctx.importStack ++ [t.recorded ctx] }

/-- What is recorded when the file is entered. -/
def EvalState.entered (s : EvalState G V) (rel : Bytes) : EvalState G V :=
  { s with fragments := s.fragments ++ [rel] }

variable (f : ∀ q : Question, q.Answer)

/-- The file that a call evaluates. -/
def enters (ctx : Context) (s : EvalState G V) (c : Call G V) : Option Target :=
  (callTarget ctx c).filter fun t =>
    t.rel ∉ ctx.importStack && t.rel ∉ s.fragments && f (.readable (t.full ctx)) &&
      !(t.isModule && (s.modules.lookup t.rel).isSome)

/-- The authoring files that a computation reads, in order. -/
def filesRead {R : Type} (a : Asking R) : List Bytes :=
  (a.asked f).filterMap fun q =>
    match q with
    | .text path => some path
    | _ => none

section Reads

variable {f} {R S : Type}

@[simp] theorem filesRead_pure (r : R) : filesRead f (pure r : Asking R) = [] := rfl

@[simp] theorem filesRead_bind (a : Asking R) (k : R → Asking S) :
    filesRead f (a.bind k) = filesRead f a ++ filesRead f (k (a.run f)) := by
  simp only [filesRead, asked_bind, List.filterMap_append]

@[simp] theorem filesRead_fileExists (path : Bytes) : filesRead f (fileExists path) = [] := rfl

@[simp] theorem filesRead_readText (path : Bytes) : filesRead f (readText path) = [path] := rfl

end Reads

section Runs

variable {f} {lua : Lua G V} {run : Context → Chunk G V → EvalState G V → Asking (Outcome G V)}
  {ctx : Context} {s : EvalState G V}

/-- A call that evaluates nothing. -/
def Still (f : ∀ q : Question, q.Answer) (s : EvalState G V) (a : Asking (Outcome G V)) : Prop :=
  (a.run f).1.fragments = s.fragments ∧ filesRead f a = []

/-- A call that evaluates what the computation does, and leaves the files that it leaves. -/
def Follows (f : ∀ q : Question, q.Answer) (a b : Asking (Outcome G V)) : Prop :=
  (a.run f).1.fragments = (b.run f).1.fragments ∧ filesRead f a = filesRead f b

theorem still_same {t : EvalState G V} (reply : Option V) (h : t.fragments = s.fragments) :
    Still f s (pure (t, reply)) := ⟨h, rfl⟩

theorem Follows.trans {a b c : Asking (Outcome G V)} (h : Follows f a b) (h' : Follows f b c) : Follows f a c :=
  ⟨h.1.trans h'.1, h.2.trans h'.2⟩

/-- What is done with the outcome reads no file and leaves the files of the outcome. -/
theorem follows_bind (a : Asking (Outcome G V)) (k : Outcome G V → Asking (Outcome G V))
    (hk : ∀ o, ((k o).run f).1.fragments = o.1.fragments ∧ filesRead f (k o) = []) : Follows f (a.bind k) a := by
  obtain ⟨hfragments, hread⟩ := hk (a.run f)
  exact ⟨by rw [run_bind]; exact hfragments, by rw [filesRead_bind, hread, List.append_nil]⟩

theorem evalFragment_follows (file fragmentDir : Bytes) :
    Follows f (evalFragment lua run ctx s file fragmentDir)
      (evalInput lua run { ctx with currentDir := fragmentDir } file (packageRelativeInput ctx.rootDir file) s) :=
  follows_bind _ _ fun _ => ⟨rfl, rfl⟩

theorem evalModule_follows (file moduleDir rel : Bytes) :
    Follows f (evalModule lua run ctx s file moduleDir rel)
      (evalInput lua run { ctx with currentDir := moduleDir, moduleDepth := ctx.moduleDepth + 1 } file rel s) :=
  follows_bind _ _ fun _ => ⟨rfl, rfl⟩

/-- A call evaluates the one file that it enters, or nothing. -/
def Does (f : ∀ q : Question, q.Answer) (lua : Lua G V)
    (run : Context → Chunk G V → EvalState G V → Asking (Outcome G V)) (ctx : Context) (s : EvalState G V)
    (c : Call G V) (a : Asking (Outcome G V)) : Prop :=
  match enters f ctx s c with
  | none => Still f s a
  | some t => Follows f a (evalInput lua run (t.context ctx) (t.full ctx) (t.recorded ctx) s)

theorem does_none {c : Call G V} {a : Asking (Outcome G V)} (h : enters f ctx s c = none) (ha : Still f s a) :
    Does f lua run ctx s c a := by
  rw [Does, h]
  exact ha

theorem does_some {c : Call G V} {a : Asking (Outcome G V)} {t : Target} (h : enters f ctx s c = some t)
    (ha : Follows f a (evalInput lua run (t.context ctx) (t.full ctx) (t.recorded ctx) s)) :
    Does f lua run ctx s c a := by
  rw [Does, h]
  exact ha

/-- A computation that goes on where a file is readable. -/
theorem follows_readable {path : Bytes} {a b : Asking (Outcome G V)} (h : f (.readable path) = true) :
    Follows f ((fileExists path).bind fun exists? => if exists? then a else b) a := by
  refine ⟨?_, ?_⟩
  · rw [run_bind]
    change ((if f (.readable path) = true then a else b).run f).1.fragments = _
    rw [if_pos h]
  · rw [filesRead_bind, filesRead_fileExists, List.nil_append]
    change filesRead f (if f (.readable path) = true then a else b) = _
    rw [if_pos h]

theorem still_unreadable {path : Bytes} {a : Asking (Outcome G V)} (h : ¬f (.readable path) = true) :
    Still f s ((fileExists path).bind fun exists? => if exists? then a else pure (s, none)) := by
  refine ⟨?_, ?_⟩
  · rw [run_bind]
    change ((if f (.readable path) = true then a else pure (s, none)).run f).1.fragments = _
    rw [if_neg h]
    rfl
  · rw [filesRead_bind, filesRead_fileExists, List.nil_append]
    change filesRead f (if f (.readable path) = true then a else pure (s, none)) = _
    rw [if_neg h]
    rfl

theorem importFile_does (raw : Bytes) :
    Does f lua run ctx s (.importFile raw) (importFile lua run ctx s raw) := by
  rw [importFile]
  by_cases hrefused : 0 < ctx.moduleDepth ∨ pathHasSuffix raw (ascii ".qst") = false
  · rw [if_pos hrefused]
    refine does_none ?_ (still_same none rfl)
    rw [enters, callTarget, if_pos hrefused]
    rfl
  · rw [if_neg hrefused]
    have htarget : callTarget ctx (.importFile raw : Call G V) = (resolveImportPath ctx raw).map fun rel =>
        ⟨rel, if dirname rel = ascii "." then [] else dirname rel, false⟩ := by
      rw [callTarget, if_neg hrefused]
    cases hrel : resolveImportPath ctx raw with
    | none =>
      refine does_none ?_ (still_same none rfl)
      rw [enters, htarget, hrel]
      rfl
    | some rel =>
      rw [hrel, Option.map_some] at htarget
      simp only
      by_cases hseen : rel ∈ ctx.importStack ∨ rel ∈ s.fragments
      · rw [if_pos hseen]
        refine does_none ?_ (still_same none rfl)
        rw [enters, htarget]
        rcases hseen with hseen | hseen <;> simp [hseen]
      · rw [if_neg hseen]
        obtain ⟨hstack, hfragments⟩ := not_or.mp hseen
        by_cases hreadable : f (.readable (pathJoin ctx.rootDir rel)) = true
        · refine does_some (t := ⟨rel, if dirname rel = ascii "." then [] else dirname rel, false⟩) ?_
            ((follows_readable hreadable).trans (evalFragment_follows _ _))
          rw [enters, htarget]
          simp [hstack, hfragments, Target.full, hreadable]
        · refine does_none ?_ (still_unreadable hreadable)
          rw [enters, htarget]
          simp [Target.full, hreadable]

theorem importModule_does (raw : Bytes) :
    Does f lua run ctx s (.importModule raw) (importModule lua run ctx s raw) := by
  rw [importModule]
  by_cases hrefused : (pathHasSuffix raw (ascii ".qsm") || pathHasSuffix raw (ascii ".qst") ||
      raw = ascii "qstar.lua" || raw.getLast? = some 47) = true
  · rw [if_pos hrefused]
    refine does_none ?_ (still_same none rfl)
    rw [enters, callTarget, if_pos hrefused]
    rfl
  · rw [if_neg hrefused]
    have htarget : callTarget ctx (.importModule raw : Call G V) = (resolveImportPath ctx raw).bind fun relDir =>
        if pathBasenameComponent relDir = [] then none
        else some ⟨relDir ++ ascii "/" ++ pathBasenameComponent relDir ++ ascii ".qsm", relDir, true⟩ := by
      rw [callTarget, if_neg hrefused]
    cases hdir : resolveImportPath ctx raw with
    | none =>
      refine does_none ?_ (still_same none rfl)
      rw [enters, htarget, hdir]
      rfl
    | some relDir =>
      rw [hdir, Option.bind_some] at htarget
      simp only
      by_cases hbase : pathBasenameComponent relDir = []
      · rw [if_pos (.inl hbase)]
        refine does_none ?_ (still_same none rfl)
        rw [enters, htarget, if_pos hbase]
        rfl
      · rw [if_neg hbase] at htarget
        generalize relDir ++ ascii "/" ++ pathBasenameComponent relDir ++ ascii ".qsm" = rel at htarget ⊢
        by_cases hstack : rel ∈ ctx.importStack
        · rw [if_pos (.inr hstack)]
          refine does_none ?_ (still_same none rfl)
          rw [enters, htarget]
          simp [hstack]
        · rw [if_neg (not_or.mpr ⟨hbase, hstack⟩)]
          cases hmodule : s.modules.lookup rel with
          | some v =>
            refine does_none ?_ (still_same _ rfl)
            rw [enters, htarget]
            simp [Option.filter, hmodule]
          | none =>
            simp only
            by_cases hfragments : rel ∈ s.fragments
            · rw [if_pos hfragments]
              refine does_none ?_ (still_same none rfl)
              rw [enters, htarget]
              simp [hfragments]
            · rw [if_neg hfragments]
              by_cases hreadable : f (.readable (pathJoin ctx.rootDir rel)) = true
              · refine does_some (t := ⟨rel, relDir, true⟩) ?_
                  ((follows_readable hreadable).trans ((follows_bind _ _ ?_).trans (evalModule_follows _ _ _)))
                · rw [enters, htarget]
                  simp [hstack, hfragments, hmodule, Target.full, hreadable]
                · rintro ⟨t, reply⟩
                  cases reply <;> exact ⟨rfl, rfl⟩
              · refine does_none ?_ (still_unreadable hreadable)
                rw [enters, htarget]
                simp [Target.full, hreadable]

theorem subdir_does (dir : Bytes) : Does f lua run ctx s (.subdir dir) (subdir lua run ctx s dir) := by
  rw [subdir]
  by_cases hrefused : 0 < ctx.moduleDepth ∨ isPackageRelative dir = false
  · rw [if_pos hrefused]
    refine does_none ?_ (still_same none rfl)
    rw [enters, callTarget, if_pos hrefused]
    rfl
  · rw [if_neg hrefused]
    have htarget := @callTarget.eq_3 G V ctx dir
    rw [if_neg hrefused] at htarget
    dsimp only at htarget ⊢
    generalize ((if ascii "./" <+: dir then resolveFragmentRelativePath dir ctx.currentDir
        else some (if ctx.currentDir = [] then dir else pathJoin ctx.currentDir dir)).filter isPackageRelative)
      = fullDir at htarget ⊢
    cases fullDir with
    | none =>
      refine does_none ?_ (still_same none rfl)
      rw [enters, htarget]
      rfl
    | some fullDir =>
      rw [Option.map_some] at htarget
      simp only
      generalize fullDir ++ ascii "/" ++ pathBasenameComponent fullDir ++ ascii ".qst" = rel at htarget ⊢
      by_cases hreadable : f (.readable (pathJoin ctx.rootDir rel)) = true
      · by_cases hseen : rel ∈ ctx.importStack ∨ rel ∈ s.fragments
        · refine does_none ?_ ?_
          · rw [enters, htarget]
            rcases hseen with hseen | hseen <;> simp [hseen]
          · rw [if_pos hseen]
            exact follows_readable hreadable
        · obtain ⟨hstack, hfragments⟩ := not_or.mp hseen
          rw [if_neg hseen]
          refine does_some (t := ⟨rel, fullDir, false⟩) ?_
            ((follows_readable hreadable).trans (evalFragment_follows _ _))
          rw [enters, htarget]
          simp [hstack, hfragments, Target.full, hreadable]
      · refine does_none ?_ (still_unreadable hreadable)
        rw [enters, htarget]
        simp [Target.full, hreadable]

theorem filesRead_expandGlob (root pattern : Bytes) : filesRead f (expandGlob root pattern) = [] := by
  rw [expandGlob]
  simp only [bind_eq, filesRead_bind]
  split
  · rfl
  · split <;> rfl

theorem filesRead_expandPatterns (patterns : List Bytes) : filesRead f (expandPatterns ctx patterns) = [] := by
  induction patterns with
  | nil => rfl
  | cons pattern rest ih =>
    rw [expandPatterns]
    split
    · rfl
    · split
      · simp only [bind_eq, filesRead_bind, filesRead_expandGlob, List.nil_append]
        split
        · rfl
        · rw [filesRead_bind, ih]
          rfl
      · simp only [bind_eq, filesRead_bind, ih]
        rfl

theorem files_still (exclude patterns : List Bytes) : Still f s (files lua ctx s exclude patterns) := by
  rw [files]
  dsimp only
  split
  · exact still_same none rfl
  · refine ⟨?_, ?_⟩
    · simp only [bind_eq, run_bind]
      rfl
    · simp only [bind_eq, filesRead_bind, filesRead_expandPatterns]
      rfl

/-- A call evaluates the one file that it enters, or nothing, where it asks for no language. -/
theorem callQStar_does {c : Call G V} (hc : ∀ raw, c ≠ .useLanguage raw) :
    Does f lua run ctx s c (callQStar lua run ctx c s) := by
  cases c with
  | importFile raw => exact importFile_does raw
  | importModule raw => exact importModule_does raw
  | useLanguage raw => exact absurd rfl (hc raw)
  | subdir dir => exact subdir_does dir
  | files exclude patterns => exact does_none rfl (files_still exclude patterns)
  | declare g =>
    refine does_none rfl ?_
    rw [callQStar]
    split
    · exact still_same none rfl
    · exact still_same _ rfl

/-- What is left of an authoring input that is loaded. -/
theorem evalInput_loaded (run : Context → Chunk G V → EvalState G V → Asking (Outcome G V)) (ctx : Context)
    (s : EvalState G V) (rel : Bytes) {full : Bytes} {chunk : Chunk G V}
    (h : (f (.text full)).bind lua.load = some chunk) :
    (evalInput lua run ctx full rel s).run f
        = (run { ctx with importStack := ctx.importStack ++ [rel] } chunk (s.entered rel)).run f ∧
      filesRead f (evalInput lua run ctx full rel s)
        = full :: filesRead f (run { ctx with importStack := ctx.importStack ++ [rel] } chunk (s.entered rel)) := by
  have hload : ((readText full).run f).bind lua.load = some chunk := h
  refine ⟨?_, ?_⟩
  · rw [evalInput, bind_eq, run_bind, hload]
    rfl
  · rw [evalInput, bind_eq, filesRead_bind, hload, filesRead_readText]
    rfl

theorem evalInput_unloaded (run : Context → Chunk G V → EvalState G V → Asking (Outcome G V)) (ctx : Context)
    (s : EvalState G V) (rel : Bytes) {full : Bytes} (h : (f (.text full)).bind lua.load = none) :
    (evalInput lua run ctx full rel s).run f = (s.entered rel, none) ∧
      filesRead f (evalInput lua run ctx full rel s) = [full] := by
  have hload : ((readText full).run f).bind lua.load = none := h
  refine ⟨?_, ?_⟩
  · rw [evalInput, bind_eq, run_bind, hload]
    rfl
  · rw [evalInput, bind_eq, filesRead_bind, hload, filesRead_readText]
    rfl

end Runs

section Every

/-- Every call of a chunk is as stated in the state in which it is made. -/
def Chunk.Every (call : Call G V → EvalState G V → Outcome G V) (P : Call G V → EvalState G V → Prop) :
    Chunk G V → EvalState G V → Prop
  | .returns _, _ | .raises, _ => True
  | .calls c next, s => P c s ∧ (next (call c s).2).Every call P (call c s).1

/-- Every call of a run is as stated, those of the files that it enters included. -/
def EveryCall (lua : Lua G V) (P : Context → Call G V → EvalState G V → Prop) :
    Nat → Context → Chunk G V → EvalState G V → Prop
  | 0, _, _, _ => True
  | depth + 1, ctx, chunk, s =>
    chunk.Every (fun c s => (callQStar lua (evalChunk lua depth) ctx c s).run f)
      (fun c s => P ctx c s ∧ ∀ t loaded, enters f ctx s c = some t →
        (f (.text (t.full ctx))).bind lua.load = some loaded →
        EveryCall lua P depth (t.inside ctx) loaded (s.entered (t.recorded ctx))) s

variable {f}

theorem Chunk.Every.imp {call : Call G V → EvalState G V → Outcome G V} {P Q : Call G V → EvalState G V → Prop}
    {chunk : Chunk G V} {s : EvalState G V} (h : chunk.Every call P s) (himp : ∀ c s, P c s → Q c s) :
    chunk.Every call Q s := by
  induction chunk generalizing s with
  | returns v => trivial
  | raises => trivial
  | calls c next ih => exact ⟨himp c s h.1, ih _ h.2⟩

/-- What holds of the context of every file that is entered can be used at every call. -/
theorem EveryCall.imp {lua : Lua G V} {P Q : Context → Call G V → EvalState G V → Prop} {I : Context → Prop}
    (hstep : ∀ ctx c s, I ctx → P ctx c s → Q ctx c s ∧ ∀ t, enters f ctx s c = some t → I (t.inside ctx))
    {depth : Nat} {ctx : Context} {chunk : Chunk G V} {s : EvalState G V} (hctx : I ctx)
    (h : EveryCall f lua P depth ctx chunk s) : EveryCall f lua Q depth ctx chunk s := by
  induction depth generalizing ctx chunk s with
  | zero => trivial
  | succ depth ih =>
    refine Chunk.Every.imp h ?_
    rintro c s ⟨hcall, hinside⟩
    obtain ⟨hq, hI⟩ := hstep ctx c s hctx hcall
    exact ⟨hq, fun t loaded ht hload => ih (hI t ht) (hinside t loaded ht hload)⟩

end Every

end QStar.Authoring
