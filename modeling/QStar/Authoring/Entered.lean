import QStar.Authoring.Evaluation

/-!
# The authoring files of an evaluation

Evaluation enters the entry file first and only adds files after it, so that the
name of the entry file can be told from an evaluated graph up to the root it was
found under.
-/
namespace QStar.Authoring

open QStar.Lib.CStrings
open QStar.Lib.Questions
open QStar.Base
open QStar.BuildGraph

variable {G V : Type} {lua : Lua G V} {f : ∀ q : Question, q.Answer}

/-- The authoring files of an outcome continue those there were. -/
def Grows (f : ∀ q : Question, q.Answer) (s : EvalState G V) (a : Asking (Outcome G V)) : Prop :=
  s.fragments <+: (a.run f).1.fragments

theorem grows_same {s t : EvalState G V} (reply : Option V) (h : t.fragments = s.fragments) :
    Grows f s (pure (t, reply)) := by
  rw [Grows, run_pure, h]

section Calls

variable {run : Context → Chunk G V → EvalState G V → Asking (Outcome G V)} {ctx : Context}
  {s : EvalState G V}

theorem evalInput_fragments (hrun : ∀ ctx chunk s, Grows f s (run ctx chunk s)) (full rel : Bytes) :
    s.fragments ++ [rel] <+: ((evalInput lua run ctx full rel s).run f).1.fragments := by
  simp only [evalInput, bind_eq, run_bind]
  split
  · exact List.prefix_refl _
  · exact hrun _ _ { s with fragments := s.fragments ++ [rel] }

theorem evalFragment_fragments (hrun : ∀ ctx chunk s, Grows f s (run ctx chunk s))
    (file fragmentDir : Bytes) : s.fragments ++ [packageRelativeInput ctx.rootDir file] <+:
      ((evalFragment lua run ctx s file fragmentDir).run f).1.fragments := by
  simp only [evalFragment, bind_eq, run_bind, run_pure]
  exact @evalInput_fragments G V lua f run { ctx with currentDir := fragmentDir } s hrun _ _

theorem grows_of_append {rel : Bytes} {a : Asking (Outcome G V)}
    (h : s.fragments ++ [rel] <+: (a.run f).1.fragments) : Grows f s a :=
  (List.prefix_append _ _).trans h

theorem evalModule_grows (hrun : ∀ ctx chunk s, Grows f s (run ctx chunk s))
    (file moduleDir rel : Bytes) : Grows f s (evalModule lua run ctx s file moduleDir rel) := by
  apply grows_of_append
  simp only [evalModule, bind_eq, run_bind, run_pure]
  exact evalInput_fragments hrun _ _

theorem evalProviderImplementation_grows (hrun : ∀ ctx chunk s, Grows f s (run ctx chunk s))
    (file providerDir rel : Bytes) :
    Grows f s (evalProviderImplementation lua run ctx s file providerDir rel) := by
  apply grows_of_append
  simp only [evalProviderImplementation, bind_eq, run_bind, run_pure]
  exact evalInput_fragments hrun _ _

theorem importFile_grows (hrun : ∀ ctx chunk s, Grows f s (run ctx chunk s)) (raw : Bytes) :
    Grows f s (importFile lua run ctx s raw) := by
  unfold importFile
  split
  · exact grows_same none rfl
  · split
    · exact grows_same none rfl
    · split
      · exact grows_same none rfl
      · simp only [bind_eq, Grows, run_bind]
        split
        · exact grows_of_append (evalFragment_fragments hrun _ _)
        · exact grows_same none rfl

theorem importModule_grows (hrun : ∀ ctx chunk s, Grows f s (run ctx chunk s)) (raw : Bytes) :
    Grows f s (importModule lua run ctx s raw) := by
  unfold importModule
  split
  · exact grows_same none rfl
  · split
    · exact grows_same none rfl
    · rename_i relDir hrel
      dsimp only
      split
      · exact grows_same none rfl
      · split
        · exact grows_same _ rfl
        · split
          · exact grows_same none rfl
          · simp only [bind_eq, Grows, run_bind]
            split
            · have hmodule := @evalModule_grows G V lua f run ctx s hrun
                (pathJoin ctx.rootDir
                  (relDir ++ ascii "/" ++ pathBasenameComponent relDir ++ ascii ".qsm"))
                relDir (relDir ++ ascii "/" ++ pathBasenameComponent relDir ++ ascii ".qsm")
              simp only [Grows] at hmodule
              rw [run_bind]
              split
              · exact hmodule
              · exact hmodule
            · exact grows_same none rfl

theorem useImplementation_grows (hrun : ∀ ctx chunk s, Grows f s (run ctx chunk s))
    (path : ProviderPath) (manifest : V) (name : Bytes) :
    Grows f s (useImplementation lua run ctx s path manifest name) := by
  unfold useImplementation
  simp only [bind_eq, Grows, run_bind]
  split
  · have himplementation := @evalProviderImplementation_grows G V lua f run ctx s hrun
      (pathJoinRootOrAbsolute ctx.rootDir (pathJoin path.relDir name)) path.relDir
      (pathJoin path.relDir name)
    simp only [Grows] at himplementation
    rw [run_bind]
    split
    · exact himplementation
    · exact himplementation
  · exact grows_same none rfl

theorem useLanguage_grows (hrun : ∀ ctx chunk s, Grows f s (run ctx chunk s)) (raw : Bytes) :
    Grows f s (useLanguage lua run ctx s raw) := by
  unfold useLanguage
  split
  · exact grows_same none rfl
  · simp only [bind_eq, Grows, run_bind]
    split
    · exact grows_same none rfl
    · rename_i path _
      split
      · exact grows_same none rfl
      · split
        · exact grows_same _ rfl
        · rw [run_bind]
          split
          · have hmodule := @evalModule_grows G V lua f run
              { ctx with providerStack := ctx.providerStack ++ [path.rel] } s hrun path.full
              path.relDir path.rel
            simp only [Grows] at hmodule
            rw [run_bind]
            split
            · exact hmodule
            · split
              · exact hmodule
              · exact hmodule.trans (useImplementation_grows hrun _ _ _)
          · exact grows_same none rfl

theorem subdir_grows (hrun : ∀ ctx chunk s, Grows f s (run ctx chunk s)) (dir : Bytes) :
    Grows f s (subdir lua run ctx s dir) := by
  unfold subdir
  split
  · exact grows_same none rfl
  · dsimp only
    split
    · exact grows_same none rfl
    · simp only [bind_eq, Grows, run_bind]
      split
      · split
        · exact grows_same none rfl
        · exact grows_of_append (evalFragment_fragments hrun _ _)
      · exact grows_same none rfl

theorem files_grows (exclude patterns : List Bytes) : Grows f s (files lua ctx s exclude patterns) := by
  unfold files
  dsimp only
  split
  · exact grows_same none rfl
  · simp only [bind_eq, Grows, run_bind]
    exact grows_same _ rfl

theorem callQStar_grows (hrun : ∀ ctx chunk s, Grows f s (run ctx chunk s)) (c : Call G V) :
    Grows f s (callQStar lua run ctx c s) := by
  cases c with
  | importFile raw => exact importFile_grows hrun raw
  | importModule raw => exact importModule_grows hrun raw
  | useLanguage raw => exact useLanguage_grows hrun raw
  | subdir dir => exact subdir_grows hrun dir
  | files exclude patterns => exact files_grows exclude patterns
  | declare g =>
    simp only [callQStar]
    split
    · exact grows_same none rfl
    · exact grows_same _ rfl

end Calls

theorem runChunk_grows {call : Call G V → EvalState G V → Asking (Outcome G V)}
    (hcall : ∀ c s, Grows f s (call c s)) (chunk : Chunk G V) (s : EvalState G V) :
    Grows f s (runChunk call chunk s) := by
  induction chunk generalizing s with
  | returns v => exact grows_same _ rfl
  | raises => exact grows_same none rfl
  | calls c next ih =>
    simp only [runChunk, Grows, run_bind]
    exact (hcall c s).trans (ih _ _)

theorem evalChunk_grows (depth : Nat) (ctx : Context) (chunk : Chunk G V) (s : EvalState G V) :
    Grows f s (evalChunk lua depth ctx chunk s) := by
  induction depth generalizing ctx chunk s with
  | zero => exact grows_same none rfl
  | succ depth ih => exact runChunk_grows (fun c s => callQStar_grows ih c) chunk s

theorem mem_dirname {c : UInt8} {path : Bytes} (h : c ∈ dirname path) : c ∈ path ∨ c = 46 := by
  unfold dirname at h
  split at h
  · exact .inr (List.mem_singleton.mp h)
  · exact .inl (List.mem_of_mem_take h)
  · exact .inl (List.mem_of_mem_take h)

theorem mem_ancestors {c : UInt8} {fuel : Nat} {cur dir : Bytes} (hdir : dir ∈ ancestors fuel cur)
    (hc : c ∈ dir) : c ∈ cur ∨ c = 46 := by
  induction fuel generalizing cur with
  | zero =>
    obtain rfl := List.mem_singleton.mp hdir
    exact .inl hc
  | succ fuel ih =>
    unfold ancestors at hdir
    rcases List.mem_cons.mp hdir with rfl | hdir
    · exact .inl hc
    · split at hdir
      · cases hdir
      · rcases ih hdir with h | h
        · exact mem_dirname h
        · exact .inr h

theorem findRoot_mem {dirs : List Bytes} {root : Bytes} (h : (findRoot dirs).run f = some root) :
    root ∈ dirs := by
  induction dirs with
  | nil => cases h
  | cons cur rest ih =>
    simp only [findRoot, bind_eq, run_bind] at h
    split at h
    · cases h
      exact List.mem_cons_self
    · exact List.mem_cons_of_mem _ (ih h)

/-- The root is spelled with the bytes of the entry file and dots. -/
theorem mem_discoverRoot {c : UInt8} {file root : Bytes}
    (h : (discoverRoot file).run f = some root) (hc : c ∈ root) : c ∈ file ∨ c = 46 := by
  rcases mem_ancestors (findRoot_mem h) hc with h | h
  · exact mem_dirname h
  · exact .inr h

theorem mem_packageRelativeInput {c : UInt8} {root file : Bytes}
    (h : c ∈ packageRelativeInput root file) : c ∈ file := by
  unfold packageRelativeInput at h
  split at h
  · exact List.mem_of_mem_drop h
  · split at h
    · exact List.mem_of_mem_drop h
    · exact h

/-- The entry file is spelled with the bytes of the root and of its name under the root, apart from
dots and slashes. -/
theorem mem_of_packageRelativeInput {c : UInt8} {root file : Bytes} (h : c ∈ file) (hdot : c ≠ 46)
    (hslash : c ≠ 47) : c ∈ root ∨ c ∈ packageRelativeInput root file := by
  unfold packageRelativeInput
  split
  · rename_i hcond
    obtain ⟨rest, rfl⟩ := hcond.2.2
    have hlength : (root ++ ascii "/").length = root.length + 1 := by simp [ascii]
    rw [← hlength, List.drop_left]
    rcases List.mem_append.mp h with h | h
    · rcases List.mem_append.mp h with h | h
      · exact .inl h
      · exact absurd (List.mem_singleton.mp h) hslash
    · exact .inr h
  · split
    · rename_i hcond
      obtain ⟨rest, rfl⟩ := hcond
      rcases List.mem_append.mp h with h | h
      · have hcases : c = 46 ∨ c = 47 := by simpa [ascii] using h
        rcases hcases with h | h
        · exact absurd h hdot
        · exact absurd h hslash
      · exact .inr h
    · exact .inr h

/-- The first authoring file is the entry file. -/
theorem evalFile_entered {depth : Nat} {r : EvalRequest} {e : Evaluated G}
    (h : (evalFile lua depth r).run f = some e) :
    (discoverRoot r.entryFile).run f = some e.packageRoot ∧
      [packageRelativeInput e.packageRoot r.entryFile] <+: e.fragments := by
  unfold evalFile at h
  split at h
  · cases h
  · simp only [bind_eq, run_bind, discoverWorkspaceRoot] at h
    cases hroot : (discoverRoot r.entryFile).run f with
    | none => simp [hroot] at h
    | some root =>
      simp only [hroot, run_pure] at h
      cases hfragment : workspaceFragment root (dirname r.entryFile) with
      | none => simp [hfragment] at h
      | some fragment =>
        simp only [hfragment, Option.map_some] at h
        split at h
        · cases h
        · rw [run_bind] at h
          have hentered := @evalFragment_fragments G V lua f (evalChunk lua depth)
            ⟨root, [], [], [], 0⟩ ⟨lua.start r, false, [], [], []⟩ (evalChunk_grows depth)
            r.entryFile fragment
          split at h
          · cases h
            exact ⟨rfl, hentered⟩
          · cases h

/-- Evaluations with the same root and the same files are of entry files with the same bytes apart
from dots and slashes. -/
theorem entryFile_bytes {depth : Nat} {r r' : EvalRequest} {e e' : Evaluated G}
    {f' : ∀ q : Question, q.Answer} (h : (evalFile lua depth r).run f = some e)
    (h' : (evalFile lua depth r').run f' = some e') (hroot : e.packageRoot = e'.packageRoot)
    (hfragments : e.fragments = e'.fragments) {c : UInt8} (hc : c ∈ r.entryFile) (hdot : c ≠ 46)
    (hslash : c ≠ 47) : c ∈ r'.entryFile := by
  obtain ⟨-, hfirst⟩ := evalFile_entered h
  obtain ⟨hroot', hfirst'⟩ := evalFile_entered h'
  rw [hfragments] at hfirst
  have hname : packageRelativeInput e.packageRoot r.entryFile =
      packageRelativeInput e'.packageRoot r'.entryFile := by
    obtain ⟨rest, hrest⟩ := hfirst
    obtain ⟨rest', hrest'⟩ := hfirst'
    exact (List.cons.inj (hrest.trans hrest'.symm)).1
  rcases @mem_of_packageRelativeInput c e.packageRoot _ hc hdot hslash with hmem | hmem
  · rw [hroot] at hmem
    exact (mem_discoverRoot hroot' hmem).resolve_right hdot
  · rw [hname] at hmem
    exact mem_packageRelativeInput hmem

end QStar.Authoring
