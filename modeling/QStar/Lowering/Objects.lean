import QStar.Lowering.Ids

/-!
# The objects of a final action

The scheduler decides which sources are compiled, and the lowering of a final action
decides again which objects are linked. Here each source of a target and of its object
libraries gets the path of the object it is linked as, and it is told when two of them
are linked as one.
-/
namespace QStar.Lowering

open QStar.Lib.CStrings
open QStar.Lib.Numerals
open QStar.Lib.Results
open QStar.Lib.Streams
open QStar.Base
open QStar.BuildGraph

/-- The object libraries of a target. -/
def libraries (g : Graph) (t : Target) : List Target := t.objects.filterMap (findTarget g)

/-- A source of a target. -/
structure SourceRef where
  owner : Target
  index : Nat

/-- The sources a final action links something of: one of each unity batch, and all others. -/
def linkedSources (g : Graph) (t : Target) : List SourceRef :=
  (t :: libraries g t).flatMap fun o => (emittingSources o).map (SourceRef.mk o)

namespace SourceRef

def path (s : SourceRef) : Bytes := s.owner.sources.getD s.index []

/-- A raw link object. -/
def raw (s : SourceRef) : Bool := isLinkObject (sourceInfo s.owner s.index)

def compiled (s : SourceRef) : Bool := requiresCompile (sourceInfo s.owner s.index)

/-- What tells the object of a source from those of the same target: its unity batch, or its
index. Sources compiled for a consumer are in no batch. -/
def number (s : SourceRef) : Bool × Nat :=
  if usesConsumerContext s.owner then (false, s.index)
  else
    match unitySourceInfo s.owner s.index with
    | some (batch, _) => (true, batch)
    | none => (false, s.index)

/-- The object a source is compiled to when `t` links it. -/
def object (g : Graph) (t : Target) (s : SourceRef) : Bytes :=
  if usesConsumerContext s.owner then consumerObjectOutputPath g t s.owner s.index
  else
    match unitySourceInfo s.owner s.index with
    | some (batch, _) => unityObjectPath g s.owner batch
    | none => objectOutputPath g s.owner s.index

/-- The path a source is linked as. -/
def linked (g : Graph) (t : Target) (s : SourceRef) : Bytes :=
  if s.raw then s.path else s.object g t

/-- Two sources are compiled in one context under one name and number. -/
def SharesObject (x y : SourceRef) : Prop :=
  usesConsumerContext x.owner = usesConsumerContext y.owner ∧
    mangleLabel x.owner.label = mangleLabel y.owner.label ∧ x.number = y.number

end SourceRef

/-! ## Object paths -/

theorem slash_notMem_mangleLabel (label : Bytes) : 47 ∉ mangleLabel label := by
  intro h
  obtain ⟨c, -, hc⟩ := List.mem_map.mp h
  split at hc
  · rename_i halnum
    rw [hc] at halnum
    revert halnum
    decide
  · revert hc
    decide

/-- A path under an output directory tells the directory and the rest. -/
theorem outPath_inj {g : Graph} {o o' : Target} {tail tail' : Bytes} :
    outPath g o tail = outPath g o' tail' ↔
      mangleLabel o.label = mangleLabel o'.label ∧ tail = tail' := by
  constructor
  · intro h
    simp only [outPath, buildPath, List.append_assoc, List.append_cancel_left_eq] at h
    refine terminated_append_inj (slash_notMem_mangleLabel _) (slash_notMem_mangleLabel _) (t := 47) ?_
    simpa [terminated, ascii] using h
  · rintro ⟨hlabel, rfl⟩
    simp [outPath, hlabel]

/-- The name of an object in the output directory of the target that compiles it. -/
def objectTail : Bool × Nat → Bytes
  | (true, batch) => ascii "cxx/" ++ (ascii "unity/unity_" ++ printUnsigned 10 batch ++ ascii ".o")
  | (false, index) => ascii "obj" ++ printUnsigned 10 index ++ ascii ".o"

theorem objectTail_inj {m n : Bool × Nat} (h : objectTail m = objectTail n) : m = n := by
  obtain ⟨unity, m⟩ := m
  obtain ⟨unity', n⟩ := n
  cases unity <;> cases unity' <;> simp [objectTail, ascii] at h
  · rw [printUnsigned_injective h]
  · rw [printUnsigned_injective h]

/-- The name of a consumer-context object in the output directory of the consumer. -/
def consumerTail (objectlib : Target) (index : Nat) : Bytes :=
  ascii "objects/" ++ mangleLabel objectlib.label ++ ascii "/obj" ++ printUnsigned 10 index ++
    ascii ".o"

theorem consumerTail_inj {o o' : Target} {m n : Nat} :
    consumerTail o m = consumerTail o' n ↔ mangleLabel o.label = mangleLabel o'.label ∧ m = n := by
  constructor
  · intro h
    have hsplit := terminated_append_inj (slash_notMem_mangleLabel o.label)
      (slash_notMem_mangleLabel o'.label) (t := 47)
      (x := ascii "obj" ++ printUnsigned 10 m ++ ascii ".o")
      (y := ascii "obj" ++ printUnsigned 10 n ++ ascii ".o")
      (by simpa [consumerTail, terminated, ascii] using h)
    have hnumber := objectTail_inj (m := (false, m)) (n := (false, n)) hsplit.2
    exact ⟨hsplit.1, congrArg Prod.snd hnumber⟩
  · rintro ⟨hlabel, rfl⟩
    simp [consumerTail, hlabel]

/-- A numbered object is never called `objects/…`: a digit follows `obj`. -/
theorem consumerTail_ne_objectTail (o : Target) (m : Nat) (n : Bool × Nat) :
    consumerTail o m ≠ objectTail n := by
  obtain ⟨unity, n⟩ := n
  intro h
  cases unity with
  | true => simp [consumerTail, objectTail, ascii] at h
  | false =>
    obtain ⟨c, rest, hprint⟩ := List.exists_cons_of_ne_nil (printUnsigned_ne_nil 10 n)
    have hdigit : isDigit c = true := printUnsigned_isDigit (n := n) (by simp [hprint])
    simp [consumerTail, objectTail, ascii, hprint] at h
    rw [← h.1] at hdigit
    revert hdigit
    decide

theorem object_of_consumer {g : Graph} {t : Target} {s : SourceRef}
    (h : usesConsumerContext s.owner = true) :
    s.object g t = outPath g t (consumerTail s.owner s.index) := by
  simp [SourceRef.object, h, consumerObjectOutputPath, consumerTail]

theorem object_of_own {g : Graph} {t : Target} {s : SourceRef}
    (h : usesConsumerContext s.owner = false) :
    s.object g t = outPath g s.owner (objectTail s.number) := by
  unfold SourceRef.object SourceRef.number
  rw [if_neg (by simp [h]), if_neg (by simp [h])]
  cases unitySourceInfo s.owner s.index with
  | none => rfl
  | some info => rfl

/-- When two sources are compiled to one object. -/
theorem object_eq_iff {g : Graph} {t : Target} {x y : SourceRef} :
    x.object g t = y.object g t ↔ x.SharesObject y := by
  unfold SourceRef.SharesObject
  cases hx : usesConsumerContext x.owner with
  | true =>
    have hnumber : x.number = (false, x.index) := by simp [SourceRef.number, hx]
    cases hy : usesConsumerContext y.owner with
    | true =>
      have hnumber' : y.number = (false, y.index) := by simp [SourceRef.number, hy]
      rw [object_of_consumer hx, object_of_consumer hy, outPath_inj, consumerTail_inj, hnumber,
        hnumber']
      simp
    | false =>
      rw [object_of_consumer hx, object_of_own hy, outPath_inj]
      simp [consumerTail_ne_objectTail]
  | false =>
    cases hy : usesConsumerContext y.owner with
    | true =>
      rw [object_of_own hx, object_of_consumer hy, outPath_inj]
      simp [(consumerTail_ne_objectTail y.owner y.index x.number).symm]
    | false =>
      rw [object_of_own hx, object_of_own hy, outPath_inj]
      constructor
      · rintro ⟨hlabel, htail⟩
        exact ⟨rfl, hlabel, objectTail_inj htail⟩
      · rintro ⟨-, hlabel, hnumber⟩
        exact ⟨hlabel, by rw [hnumber]⟩

end QStar.Lowering
