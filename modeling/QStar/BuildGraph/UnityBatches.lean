import QStar.BuildGraph.Sources
import QStar.Lib.Batches

/-!
# Unity batches

The three functions that number the C++ implementation sources of a target, each by a loop
of its own: what batch a source is in, how many batches there are, and what a batch compiles.
-/
namespace QStar.BuildGraph

open QStar.Lib.CStrings
open QStar.Lib.Batches
open QStar.Base

/-- The indices of the sources the loops do not skip. -/
def implementations (t : Target) : List Nat :=
  (List.range t.sources.length).filter fun i => isImplementation t i

/-- The loop of `qstar_cxx_unity_source_info`. -/
def unitySourceInfoLoop (t : Target) (index : Nat) : Nat → List Nat → Option (Nat × Bool)
  | _, [] => none
  | ordinal, i :: rest =>
    if isImplementation t i = false then unitySourceInfoLoop t index ordinal rest
    else if i = index then
      some (ordinal / unityBatchSize t, decide (ordinal % unityBatchSize t = 0))
    else unitySourceInfoLoop t index (ordinal + 1) rest

/-- `qstar_cxx_unity_source_info`, with its loop. -/
def cxxUnitySourceInfo (t : Target) (index : Nat) : Option (Nat × Bool) :=
  if t.cxxUnityEnabled = false ∨ isImplementation t index = false then none
  else unitySourceInfoLoop t index 0 (List.range t.sources.length)

/-- The counting loop of `qstar_cxx_unity_batch_count`. -/
def unityCountLoop (t : Target) : Nat → List Nat → Nat
  | count, [] => count
  | count, i :: rest =>
    if isImplementation t i then unityCountLoop t (count + 1) rest else unityCountLoop t count rest

/-- `qstar_cxx_unity_batch_count` -/
def cxxUnityBatchCount (t : Target) : Nat :=
  if t.cxxUnityEnabled = false then 0
  else
    (unityCountLoop t 0 (List.range t.sources.length) + unityBatchSize t - 1) / unityBatchSize t

/-- The loop of `qstar_cxx_unity_batch_sources`. -/
def unityBatchLoop (t : Target) (first last : Nat) : Nat → List Nat → List Bytes → List Bytes
  | _, [], sources => sources
  | ordinal, i :: rest, sources =>
    if isImplementation t i = false then unityBatchLoop t first last ordinal rest sources
    else
      let sources := if first ≤ ordinal ∧ ordinal < last then sources ++ t.sources[i]?.toList
        else sources
      unityBatchLoop t first last (ordinal + 1) rest sources

/-- `qstar_cxx_unity_batch_sources`, with its loop. -/
def cxxUnityBatchSources (t : Target) (batch : Nat) : Option (List Bytes) :=
  let first := batch * unityBatchSize t
  let last := first + unityBatchSize t
  let sources := unityBatchLoop t first last 0 (List.range t.sources.length) []
  if sources = [] then none else some sources

/-- The paths of some sources. -/
def sourcePaths (t : Target) (indices : List Nat) : List Bytes :=
  indices.filterMap fun i => t.sources[i]?

section Loops

variable {t : Target}

theorem unityCountLoop_eq (count : Nat) (indices : List Nat) :
    unityCountLoop t count indices = count + indices.countP fun i => isImplementation t i := by
  induction indices generalizing count with
  | nil => rfl
  | cons i rest ih =>
    rw [unityCountLoop, List.countP_cons]
    split
    · rw [ih]
      omega
    · rw [ih]
      omega

theorem unitySourceInfoLoop_eq {index : Nat} {before after : List Nat} (ordinal : Nat)
    (himpl : isImplementation t index = true) (hbefore : index ∉ before) :
    unitySourceInfoLoop t index ordinal (before ++ index :: after) =
      let position := ordinal + before.countP fun i => isImplementation t i
      some (position / unityBatchSize t, decide (position % unityBatchSize t = 0)) := by
  induction before generalizing ordinal with
  | nil => rw [List.nil_append, unitySourceInfoLoop, if_neg (by simp [himpl]), if_pos rfl]; rfl
  | cons i before ih =>
    obtain ⟨hi, hrest⟩ := not_or.mp (List.mem_cons.not.mp hbefore)
    rw [List.cons_append, unitySourceInfoLoop, List.countP_cons]
    cases hskip : isImplementation t i with
    | false =>
      rw [if_pos rfl, ih ordinal hrest]
      simp
    | true =>
      rw [if_neg (by decide), if_neg (Ne.symm hi), ih (ordinal + 1) hrest]
      simp [Nat.add_assoc, Nat.add_comm 1]

/-- The loop stops at the index it looks for, when the sources before it are counted. -/
theorem cxxUnitySourceInfo_eq (index : Nat) :
    cxxUnitySourceInfo t index = unitySourceInfo t index := by
  unfold cxxUnitySourceInfo unitySourceInfo
  cases henabled : t.cxxUnityEnabled with
  | false => simp
  | true =>
    cases himpl : isImplementation t index with
    | false => simp
    | true =>
      have hlt := isImplementation_lt himpl
      obtain ⟨rest, hrest⟩ : ∃ rest, t.sources.length = index + 1 + rest :=
        ⟨t.sources.length - (index + 1), by omega⟩
      rw [if_neg (by simp), hrest, List.range_add, List.range_succ, List.append_assoc,
        List.singleton_append, unitySourceInfoLoop_eq 0 himpl (by simp), Nat.zero_add]
      rfl

theorem cxxUnityBatchCount_eq (henabled : t.cxxUnityEnabled = true) :
    cxxUnityBatchCount t = batchCount (unityBatchSize t) (implementations t).length := by
  rw [cxxUnityBatchCount, if_neg (by simp [henabled]), unityCountLoop_eq, Nat.zero_add,
    List.countP_eq_length_filter]
  rfl

/-- The loop pushes what stands between its bounds among the sources it does not skip. -/
theorem unityBatchLoop_eq (first last ordinal : Nat) (indices : List Nat) (sources : List Bytes) :
    unityBatchLoop t first last ordinal indices sources =
      sources ++ sourcePaths t ((((indices.filter fun i => isImplementation t i).zipIdx
        ordinal).filter fun x => decide (first ≤ x.2 ∧ x.2 < last)).map Prod.fst) := by
  induction indices generalizing ordinal sources with
  | nil => simp [unityBatchLoop, sourcePaths]
  | cons i rest ih =>
    rw [unityBatchLoop]
    cases hi : isImplementation t i with
    | false => rw [if_pos rfl, ih, List.filter_cons_of_neg (by simp [hi])]
    | true =>
      rw [if_neg (by decide), ih, List.filter_cons_of_pos (by simpa using hi), List.zipIdx_cons,
        List.filter_cons]
      by_cases hbetween : first ≤ ordinal ∧ ordinal < last
      · rw [if_pos hbetween, if_pos (by simpa using hbetween), List.map_cons, List.append_assoc,
          sourcePaths, sourcePaths, List.filterMap_cons]
        cases t.sources[i]? <;> rfl
      · rw [if_neg hbetween, if_neg (by simpa using hbetween)]

theorem unityBatchLoop_all (b : Nat) :
    unityBatchLoop t (b * unityBatchSize t) (b * unityBatchSize t + unityBatchSize t) 0
        (List.range t.sources.length) [] =
      sourcePaths t (batch (unityBatchSize t) b (implementations t)) := by
  rw [unityBatchLoop_eq, List.nil_append, ← batch_eq_between]
  rfl

end Loops

section Partition

variable {t : Target}

theorem mem_implementations {i : Nat} :
    i ∈ implementations t ↔ isImplementation t i = true := by
  rw [implementations, List.mem_filter, List.mem_range]
  exact and_iff_right_of_imp isImplementation_lt

/-- Every implementation source has a path. -/
theorem sourcePaths_length {indices : List Nat} (h : ∀ i ∈ indices, isImplementation t i = true) :
    (sourcePaths t indices).length = indices.length := by
  rw [sourcePaths, List.length_filterMap_eq_countP, List.countP_eq_length]
  intro i hi
  rw [List.getElem?_eq_getElem (isImplementation_lt (h i hi))]
  rfl

theorem sourcePaths_flatMap (l : List Nat) (f : Nat → List Nat) :
    sourcePaths t (l.flatMap f) = l.flatMap fun b => sourcePaths t (f b) := by
  rw [sourcePaths, List.filterMap_flatMap]
  rfl

/-- The sources of a batch are those the source info gives that batch. -/
theorem batch_implementations (henabled : t.cxxUnityEnabled = true) (b : Nat) :
    batch (unityBatchSize t) b (implementations t) =
      (List.range t.sources.length).filter fun i =>
        decide ((cxxUnitySourceInfo t i).map Prod.fst = some b) := by
  rw [implementations, batch_filter_range (unityBatchSize_pos t), List.filter_filter]
  refine List.filter_congr ?_
  intro i _
  rw [cxxUnitySourceInfo_eq, unitySourceInfo, henabled]
  cases himpl : isImplementation t i with
  | false => simp
  | true => simp [implementationsBefore]

theorem cxxUnityBatchSources_some (henabled : t.cxxUnityEnabled = true) {b : Nat}
    (hb : b < cxxUnityBatchCount t) :
    cxxUnityBatchSources t b =
      some (sourcePaths t (batch (unityBatchSize t) b (implementations t))) := by
  rw [cxxUnityBatchCount_eq henabled] at hb
  have hne := batch_ne_nil (unityBatchSize_pos t) hb
  have hmem : ∀ i ∈ batch (unityBatchSize t) b (implementations t),
      isImplementation t i = true := by
    intro i hi
    exact mem_implementations.mp (List.mem_of_mem_drop (List.mem_of_mem_take hi))
  have hlength := sourcePaths_length hmem
  simp only [cxxUnityBatchSources, unityBatchLoop_all]
  refine if_neg ?_
  intro hnil
  rw [hnil] at hlength
  exact hne (List.length_eq_zero_iff.mp hlength.symm)

/-- What an implementation source is told, by what is counted before it. -/
theorem cxxUnitySourceInfo_implementation (henabled : t.cxxUnityEnabled = true) {i : Nat}
    (himpl : isImplementation t i = true) :
    cxxUnitySourceInfo t i =
      some (implementationsBefore t i / unityBatchSize t,
        decide (implementationsBefore t i % unityBatchSize t = 0)) := by
  rw [cxxUnitySourceInfo_eq, unitySourceInfo, henabled, himpl]
  rfl

/-- The implementation sources are counted up from 0. -/
theorem exists_implementation {n : Nat} (hn : n < (implementations t).length) :
    ∃ i, isImplementation t i = true ∧ implementationsBefore t i = n := by
  have hget := congrArg (fun l => l[n]?)
    (zipIdx_filter_range (fun i => isImplementation t i) t.sources.length)
  simp only [List.getElem?_zipIdx, List.getElem?_map, Nat.zero_add] at hget
  refine ⟨(implementations t)[n], mem_implementations.mp (List.getElem_mem hn), ?_⟩
  rw [show (List.range t.sources.length).filter (fun i => isImplementation t i) =
    implementations t from rfl, List.getElem?_eq_getElem hn] at hget
  simp only [Option.map_some, Option.some.injEq, Prod.mk.injEq, true_and] at hget
  exact hget.symm

theorem implementationsBefore_lt_length {i : Nat} (himpl : isImplementation t i = true) :
    implementationsBefore t i < (implementations t).length := by
  have hlt := implementationsBefore_lt himpl (isImplementation_lt himpl)
  rwa [implementationsBefore, implementationsBefore, List.countP_eq_length_filter
    (l := List.range t.sources.length)] at hlt

theorem unityBatch_lt_count (henabled : t.cxxUnityEnabled = true) {i : Nat}
    (himpl : isImplementation t i = true) :
    implementationsBefore t i / unityBatchSize t < cxxUnityBatchCount t := by
  rw [cxxUnityBatchCount_eq henabled, lt_batchCount_iff (unityBatchSize_pos t)]
  have hdiv := Nat.div_mul_le_self (implementationsBefore t i) (unityBatchSize t)
  have hlt := implementationsBefore_lt_length himpl
  omega

/-- The first source of a batch leads it, and no other does. -/
theorem unity_leader (henabled : t.cxxUnityEnabled = true) {b : Nat}
    (hb : b < cxxUnityBatchCount t) : ∃! i, cxxUnitySourceInfo t i = some (b, true) := by
  rw [cxxUnityBatchCount_eq henabled, lt_batchCount_iff (unityBatchSize_pos t)] at hb
  obtain ⟨i, himpl, hposition⟩ := exists_implementation hb
  have hlead : cxxUnitySourceInfo t i = some (b, true) := by
    rw [cxxUnitySourceInfo_implementation henabled himpl, hposition,
      Nat.mul_div_cancel _ (unityBatchSize_pos t), Nat.mul_mod_left]
    rfl
  refine ⟨i, hlead, ?_⟩
  intro j (hj : cxxUnitySourceInfo t j = some (b, true))
  rw [cxxUnitySourceInfo_eq] at hlead hj
  exact unity_leader_unique hj hlead

/-- The three functions agree on one partition of the implementation sources: each is told one
batch below the count, the lists of the batches one after the other are all of them in order,
each list has between one source and the batch size, holds the sources that were told its
batch, and has one leader. -/
theorem unity_batches_partition (t : Target) (henabled : t.cxxUnityEnabled = true) :
    (∀ i, isImplementation t i = true → ∃! b, b < cxxUnityBatchCount t ∧
      ∃ leader, cxxUnitySourceInfo t i = some (b, leader)) ∧
    (List.range (cxxUnityBatchCount t)).flatMap (fun b => (cxxUnityBatchSources t b).getD []) =
      sourcePaths t (implementations t) ∧
    ∀ b < cxxUnityBatchCount t,
      (∃ sources, cxxUnityBatchSources t b = some sources ∧
        0 < sources.length ∧ sources.length ≤ unityBatchSize t ∧
        sources = sourcePaths t ((List.range t.sources.length).filter fun i =>
          decide ((cxxUnitySourceInfo t i).map Prod.fst = some b))) ∧
      ∃! i, cxxUnitySourceInfo t i = some (b, true) := by
  refine ⟨?_, ?_, ?_⟩
  · intro i himpl
    have hinfo := cxxUnitySourceInfo_implementation henabled himpl
    refine ⟨_, ⟨unityBatch_lt_count henabled himpl, _, hinfo⟩, ?_⟩
    rintro b ⟨-, leader, hb⟩
    rw [hinfo] at hb
    exact (Prod.mk.inj (Option.some.inj hb)).1.symm
  · have hsome : ∀ b ∈ List.range (cxxUnityBatchCount t),
        (cxxUnityBatchSources t b).getD [] =
          sourcePaths t (batch (unityBatchSize t) b (implementations t)) := by
      intro b hb
      rw [cxxUnityBatchSources_some henabled (List.mem_range.mp hb)]
      rfl
    rw [List.flatMap_congr hsome, ← sourcePaths_flatMap, cxxUnityBatchCount_eq henabled,
      flatMap_batch_all (unityBatchSize_pos t)]
  · intro b hb
    have hsome := cxxUnityBatchSources_some henabled hb
    refine ⟨⟨_, hsome, ?_, ?_, ?_⟩, unity_leader henabled hb⟩
    · rw [cxxUnityBatchSources] at hsome
      split at hsome
      · cases hsome
      · rename_i hne
        rw [← Option.some.inj hsome]
        exact List.length_pos_of_ne_nil hne
    · exact (List.length_filterMap_le _ _).trans (length_batch_le _ _ _)
    · rw [batch_implementations henabled]

/-- Three implementation sources between a header and a C file, in batches of two. -/
def mixedSources : Target where
  label := ascii "//:app"
  name := ascii "app"
  kind := .exe
  sources := [ascii "a.cc", ascii "a.hh", ascii "b.cpp", ascii "c.c", ascii "d.cxx"]
  cxxUnityEnabled := true
  cxxUnityBatchSize := 2
  label_ne := app_label_ne
  sources_lt := by decide

theorem unity_batches_partition_mixed :
    (List.range (cxxUnityBatchCount mixedSources)).flatMap
        (fun b => (cxxUnityBatchSources mixedSources b).getD []) =
      [ascii "a.cc", ascii "b.cpp", ascii "d.cxx"] :=
  (unity_batches_partition mixedSources rfl).2.1.trans (by decide)

example : (cxxUnityBatchCount mixedSources, cxxUnitySourceInfo mixedSources 4) =
    (2, some (1, true)) := by decide

end Partition

end QStar.BuildGraph
