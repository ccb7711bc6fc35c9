import QStar.Lib.CStrings

/-!
# Readers of framed records

A reader takes what it wants from the front of a byte stream or fails. It reads
given bytes as a value when it returns the value and leaves all that follows.
Bytes guard a value when nothing else can come of them: with more behind them
the reader fails or returns the value and leaves the rest, and on a proper
prefix of them it fails. Both are kept by sequencing and by repetition.
-/
namespace QStar.Lib.Wire

open QStar.Lib.CStrings

/-- What a reader returns with the bytes it leaves. -/
abbrev Reader (α : Type) := StateT Bytes Option α

variable {α β : Type} {r : Reader α} {s t : Bytes} {a : α} {b : β}

/-- The reader returns the value and leaves what follows. -/
def Reads (r : Reader α) (s : Bytes) (a : α) : Prop := ∀ rest, r (s ++ rest) = some (a, rest)

/-- Nothing but the value can be read from the bytes, and nothing from a part of them. -/
structure Guarded (r : Reader α) (s : Bytes) (a : α) : Prop where
  only : ∀ rest x, r (s ++ rest) = some x → x = (a, rest)
  starves : ∀ p, p <+: s → p ≠ s → r p = none

theorem reads_pure (a : α) : Reads (pure a) [] a := fun _ => rfl

theorem guarded_pure (a : α) : Guarded (pure a) [] a where
  only _ _ h := by
    cases h
    rfl
  starves _ hp hne := absurd (List.prefix_nil.mp hp) hne

/-- A reader that fails guards every value with nothing. -/
theorem guarded_failure (a : α) : Guarded failure [] a where
  only _ _ h := by cases h
  starves _ hp hne := absurd (List.prefix_nil.mp hp) hne

theorem bind_apply (r : Reader α) (k : α → Reader β) (s : Bytes) :
    (r >>= k) s = (r s).bind fun x => k x.1 x.2 := rfl

/-- A proper prefix of two parts ends in the first or holds it whole. -/
theorem prefix_append_cases {p : Bytes} (h : p <+: s ++ t) (hne : p ≠ s ++ t) :
    (p <+: s ∧ p ≠ s) ∨ ∃ q, p = s ++ q ∧ q <+: t ∧ q ≠ t := by
  obtain ⟨u, hu⟩ := h
  rcases List.append_eq_append_iff.mp hu with ⟨q, hs, -⟩ | ⟨q, hp, ht⟩
  · by_cases heq : p = s
    · refine .inr ⟨[], by simp [heq], List.nil_prefix, ?_⟩
      rintro rfl
      exact hne (by simp [heq])
    · exact .inl ⟨⟨q, hs.symm⟩, heq⟩
  · refine .inr ⟨q, hp, ⟨u, ht.symm⟩, ?_⟩
    rintro rfl
    exact hne hp

theorem Reads.bind {k : α → Reader β} (hr : Reads r s a) (hk : Reads (k a) t b) :
    Reads (r >>= k) (s ++ t) b := by
  intro rest
  rw [bind_apply, List.append_assoc, hr]
  exact hk rest

/-- The same with nothing left for the continuation to read. -/
theorem Reads.bind_nil {k : α → Reader β} (hr : Reads r s a) (hk : Reads (k a) [] b) :
    Reads (r >>= k) s b := by
  simpa using hr.bind hk

/-- What is written in chunks is read chunk by chunk. -/
theorem Reads.chunk {k : α → Reader β} {chunks : List Bytes} (hr : Reads r s a)
    (hk : Reads (k a) chunks.flatten b) : Reads (r >>= k) (s :: chunks).flatten b :=
  hr.bind hk

/-- A condition that holds reads nothing. -/
theorem Reads.of_guard {k : Unit → Reader β} {p : Prop} [Decidable p] (hp : p) (hk : Reads (k ()) t b) :
    Reads (guard p >>= k) t b := by
  have hguard : (guard p : Reader Unit) = pure () := if_pos hp
  rw [hguard]
  exact hk

theorem bind_eq_some {k : α → Reader β} {x : β × Bytes} (h : (r >>= k) s = some x) :
    ∃ a rest, r s = some (a, rest) ∧ k a rest = some x := by
  rw [bind_apply] at h
  obtain ⟨⟨a, rest⟩, hr, hk⟩ := Option.bind_eq_some_iff.mp h
  exact ⟨a, rest, hr, hk⟩

theorem Guarded.bind {k : α → Reader β} (hr : Guarded r s a) (hk : Guarded (k a) t b) :
    Guarded (r >>= k) (s ++ t) b := by
  constructor
  · intro rest x h
    rw [List.append_assoc] at h
    obtain ⟨c, left, hc, h⟩ := bind_eq_some h
    cases hr.only _ _ hc
    exact hk.only rest x h
  · intro p hp hne
    rw [Option.eq_none_iff_forall_ne_some]
    intro x h
    obtain ⟨c, left, hc, hcont⟩ := bind_eq_some h
    rcases prefix_append_cases hp hne with ⟨hps, hps'⟩ | ⟨q, rfl, hq, hq'⟩
    · rw [hr.starves p hps hps'] at hc
      cases hc
    · cases hr.only _ _ hc
      rw [hk.starves _ hq hq'] at hcont
      cases hcont

theorem Guarded.bind_nil {k : α → Reader β} (hr : Guarded r s a) (hk : Guarded (k a) [] b) :
    Guarded (r >>= k) s b := by
  simpa using hr.bind hk

/-- A reader run a number of times. -/
def readMany (r : Reader α) : Nat → Reader (List α)
  | 0 => Pure.pure []
  | n + 1 => do
    let a ← r
    let rest ← readMany r n
    return a :: rest

theorem reads_many {encode : α → Bytes} {xs : List α} (h : ∀ x ∈ xs, Reads r (encode x) x) :
    Reads (readMany r xs.length) (xs.flatMap encode) xs := by
  induction xs with
  | nil => exact reads_pure []
  | cons x rest ih =>
    have hrest := ih fun y hy => h y (List.mem_cons_of_mem _ hy)
    rw [List.flatMap_cons]
    exact (h x (by simp)).bind (hrest.bind_nil (reads_pure _))

theorem guarded_many {encode : α → Bytes} {xs : List α}
    (h : ∀ x ∈ xs, Guarded r (encode x) x) :
    Guarded (readMany r xs.length) (xs.flatMap encode) xs := by
  induction xs with
  | nil => exact guarded_pure []
  | cons x rest ih =>
    have hrest := ih fun y hy => h y (List.mem_cons_of_mem _ hy)
    rw [List.flatMap_cons]
    exact (h x (by simp)).bind (hrest.bind_nil (guarded_pure _))

theorem readMany_eq_some {n : Nat} {xs : List α} {rest : Bytes}
    (h : readMany r n s = some (xs, rest)) :
    xs.length = n ∧ ∀ x ∈ xs, ∃ start left, r start = some (x, left) := by
  induction n generalizing s xs with
  | zero =>
    cases h
    simp
  | succ n ih =>
    obtain ⟨x, after, hx, h⟩ := bind_eq_some h
    obtain ⟨others, left, hothers, h⟩ := bind_eq_some h
    cases h
    obtain ⟨hlen, hall⟩ := ih hothers
    refine ⟨by simp [hlen], ?_⟩
    intro y hy
    rcases List.mem_cons.mp hy with rfl | hy
    · exact ⟨s, after, hx⟩
    · exact hall y hy

/-- The same with the number known of what was read. -/
def readExactly (r : Reader α) : (n : Nat) → Reader {xs : List α // xs.length = n}
  | 0 => Pure.pure ⟨[], rfl⟩
  | n + 1 => do
    let a ← r
    let rest ← readExactly r n
    return ⟨a :: rest.1, by simp [rest.2]⟩

theorem reads_exactly {encode : β → Bytes} {f : β → α} {xs : List β}
    (h : ∀ x ∈ xs, Reads r (encode x) (f x)) :
    Reads (readExactly r xs.length) (xs.flatMap encode) ⟨xs.map f, List.length_map f⟩ := by
  induction xs with
  | nil => exact reads_pure _
  | cons x rest ih =>
    have hrest := ih fun y hy => h y (List.mem_cons_of_mem _ hy)
    rw [List.flatMap_cons]
    exact (h x (by simp)).bind (hrest.bind_nil (reads_pure _))

/-- `fread` of a fixed number of bytes. -/
def readBytes (n : Nat) : Reader Bytes := fun s =>
  if s.length < n then none else some (s.take n, s.drop n)

theorem reads_readBytes (s : Bytes) : Reads (readBytes s.length) s s := by
  intro rest
  simp [readBytes]

theorem guarded_readBytes (s : Bytes) : Guarded (readBytes s.length) s s where
  only rest x h := by
    rw [reads_readBytes s rest] at h
    cases h
    rfl
  starves p hp hne := by
    have hlt : p.length < s.length :=
      lt_of_le_of_ne hp.length_le fun heq => hne (hp.eq_of_length heq)
    simp [readBytes, hlt]

/-- A number in the given count of bytes, the lowest first. -/
def leBytes : Nat → Nat → Bytes
  | 0, _ => []
  | w + 1, n => UInt8.ofNat n :: leBytes w (n / 256)

def leValue : Bytes → Nat
  | [] => 0
  | b :: rest => b.toNat + 256 * leValue rest

@[simp] theorem length_leBytes (w n : Nat) : (leBytes w n).length = w := by
  induction w generalizing n with
  | zero => rfl
  | succ w ih => simp [leBytes, ih]

theorem leValue_leBytes (w n : Nat) : leValue (leBytes w n) = n % 256 ^ w := by
  induction w generalizing n with
  | zero => simp [leBytes, leValue, Nat.mod_one]
  | succ w ih =>
    rw [leBytes, leValue, ih, Nat.pow_succ', Nat.mod_mul, UInt8.toNat_ofNat']

/-- A number read from a fixed count of bytes. -/
def readLe (w : Nat) : Reader Nat := do
  let s ← readBytes w
  return leValue s

theorem reads_readLe (w n : Nat) : Reads (readLe w) (leBytes w n) (n % 256 ^ w) := by
  have hbytes := reads_readBytes (leBytes w n)
  rw [length_leBytes] at hbytes
  rw [← leValue_leBytes]
  exact hbytes.bind_nil (reads_pure _)

theorem guarded_readLe (w n : Nat) : Guarded (readLe w) (leBytes w n) (n % 256 ^ w) := by
  have hbytes := guarded_readBytes (leBytes w n)
  rw [length_leBytes] at hbytes
  rw [← leValue_leBytes]
  exact hbytes.bind_nil (guarded_pure _)

end QStar.Lib.Wire
