import QStar.Lib.CStrings

/-!
# FNV-1a digests

The 64-bit FNV-1a hash of a byte stream, its sixteen hexadecimal digits and the
bytes of a 64-bit word in memory on a little-endian host. Nothing is assumed
about collisions here.
-/
namespace QStar.Lib.Fnv

open QStar.Lib.CStrings

def hashInit : UInt64 := 1469598103934665603
def hashPrime : UInt64 := 1099511628211

/-- Feeding bytes to a running hash. -/
def hashBytes (h : UInt64) (data : Bytes) : UInt64 :=
  data.foldl (fun h b => (h ^^^ b.toUInt64) * hashPrime) h

theorem hashBytes_append (h : UInt64) (a b : Bytes) :
    hashBytes h (a ++ b) = hashBytes (hashBytes h a) b := by
  simp [hashBytes]

def hexDigit (n : Nat) : UInt8 := if n < 10 then UInt8.ofNat (48 + n) else UInt8.ofNat (87 + n)

/-- The last `width` hexadecimal digits of a number. -/
def hexDigits : Nat → Nat → Bytes
  | 0, _ => []
  | width + 1, n => hexDigits width (n / 16) ++ [hexDigit (n % 16)]

/-- `snprintf("%016llx")` -/
def formatHash (h : UInt64) : Bytes := hexDigits 16 h.toNat

/-- The text of the digest of a byte stream. -/
def digest (stream : Bytes) : Bytes := formatHash (hashBytes hashInit stream)

/-- The eight bytes of a word in memory. -/
def wordBytes (n : UInt64) : Bytes := (List.range 8).map fun i => UInt8.ofNat (n.toNat / 256 ^ i)

theorem hexDigits_length (width n : Nat) : (hexDigits width n).length = width := by
  induction width generalizing n with
  | zero => rfl
  | succ width ih => simp [hexDigits, ih]

@[simp] theorem formatHash_length (h : UInt64) : (formatHash h).length = 16 :=
  hexDigits_length 16 h.toNat

@[simp] theorem digest_length (stream : Bytes) : (digest stream).length = 16 :=
  formatHash_length _

@[simp] theorem wordBytes_length (n : UInt64) : (wordBytes n).length = 8 := by
  simp [wordBytes]

/-- Lower-case hexadecimal digits are what digest texts consist of. -/
def isLowerHex (c : UInt8) : Bool := (48 ≤ c && c ≤ 57) || (97 ≤ c && c ≤ 102)

theorem hexDigit_isLowerHex {n : Nat} (h : n < 16) : isLowerHex (hexDigit n) = true := by
  revert n
  decide

theorem hexDigits_isLowerHex (width n : Nat) : ∀ c ∈ hexDigits width n, isLowerHex c = true := by
  induction width generalizing n with
  | zero => simp [hexDigits]
  | succ width ih =>
    intro c hc
    simp only [hexDigits, List.mem_append, List.mem_singleton] at hc
    rcases hc with hc | rfl
    · exact ih _ c hc
    · exact hexDigit_isLowerHex (by omega)

theorem formatHash_isLowerHex (h : UInt64) : ∀ c ∈ formatHash h, isLowerHex c = true :=
  hexDigits_isLowerHex 16 h.toNat

theorem digest_isLowerHex (stream : Bytes) : ∀ c ∈ digest stream, isLowerHex c = true :=
  formatHash_isLowerHex _

/-- Digest texts contain no byte that is not a digit. -/
theorem notMem_digest {c : UInt8} (hc : isLowerHex c = false) (stream : Bytes) :
    c ∉ digest stream := by
  intro hmem
  rw [digest_isLowerHex stream c hmem] at hc
  cases hc

/-- Two different streams, one from each list, with the same digest. -/
def Collide (xs ys : List Bytes) : Prop := ∃ x ∈ xs, ∃ y ∈ ys, x ≠ y ∧ digest x = digest y

instance (xs ys : List Bytes) : Decidable (Collide xs ys) :=
  inferInstanceAs (Decidable (∃ x ∈ xs, ∃ y ∈ ys, x ≠ y ∧ digest x = digest y))

theorem eq_of_not_collide {xs ys : List Bytes} (h : ¬Collide xs ys) {x y : Bytes} (hx : x ∈ xs)
    (hy : y ∈ ys) (hd : digest x = digest y) : x = y := by
  by_contra hne
  exact h ⟨x, hx, y, hy, hne, hd⟩

/-- Lists of digests, where none collide. -/
theorem map_digest_inj {xs ys as bs : List Bytes} (h : ¬Collide xs ys) (has : ∀ a ∈ as, a ∈ xs)
    (hbs : ∀ b ∈ bs, b ∈ ys) (heq : as.map digest = bs.map digest) : as = bs := by
  induction as generalizing bs with
  | nil =>
    cases bs with
    | nil => rfl
    | cons b rest => cases heq
  | cons a as ih =>
    cases bs with
    | nil => cases heq
    | cons b bs =>
      simp only [List.map_cons, List.cons.injEq] at heq
      have hhead := eq_of_not_collide h (has a (by simp)) (hbs b (by simp)) heq.1
      have htail := ih (fun x hx => has x (by simp [hx])) (fun y hy => hbs y (by simp [hy])) heq.2
      rw [hhead, htail]

end QStar.Lib.Fnv
