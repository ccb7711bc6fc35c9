import QStar.Lib.Numerals
import QStar.Lib.Results

/-!
# Checked memory

C strings and buffers as blocks of bytes, where a load past the NUL of a string or past the end
of a buffer is an error, and so is a store past the end of a buffer. The functions of `string.h`
work on a block and an offset in it; on a string they are functions of its text.
-/
namespace QStar.Lib.CheckedMemory

open QStar.Lib.CStrings
open QStar.Lib.Numerals
open QStar.Lib.Results

/-- What C leaves undefined. -/
inductive Fault where
  | load
  | store
  deriving DecidableEq

abbrev Checked := Except Fault

/-- A computation without a fault. -/
def InBounds {α : Type} (x : Checked α) : Prop := ∃ a, x = .ok a

/-- A text in a block of its own, with a NUL behind it. -/
structure CString where
  text : Bytes
  no_nul : 0 ∉ text

def CString.block (s : CString) : Bytes := s.text ++ [0]

/-- An array of a declared size. -/
structure Buffer (size : Nat) where
  bytes : Bytes
  length_eq : bytes.length = size

/-- `block[p]` -/
def load (block : Bytes) (p : Nat) : Checked UInt8 :=
  match block[p]? with
  | none => .error .load
  | some c => .ok c

/-- The `n` bytes at `p`. -/
def loadSpan (block : Bytes) (p n : Nat) : Checked Bytes :=
  if p + n ≤ block.length then .ok ((block.drop p).take n) else .error .load

/-- The bytes up to the first NUL. -/
def upToNul : Bytes → Checked Bytes
  | [] => .error .load
  | c :: rest => if c = 0 then .ok [] else (upToNul rest).map (c :: ·)

/-- The string at `p`. -/
def stringAt (block : Bytes) (p : Nat) : Checked Bytes := upToNul (block.drop p)

def strlen (block : Bytes) (p : Nat) : Checked Nat := (stringAt block p).map List.length

/-- `strncmp(block + p, start, strlen(start)) == 0` -/
def startsWith (block : Bytes) (p : Nat) : Bytes → Checked Bool
  | [] => .ok true
  | c :: start => do
    if (← load block p) = c then startsWith block (p + 1) start else .ok false

/-- Where a byte first stands in a text. -/
def indexOf (c : UInt8) (s : Bytes) : Option Nat := if c ∈ s then some (s.idxOf c) else none

def strchr (block : Bytes) (p : Nat) (c : UInt8) : Checked (Option Nat) :=
  (stringAt block p).map fun s => (indexOf c s).map (p + ·)

def memchr (block : Bytes) (p : Nat) (c : UInt8) (n : Nat) : Checked (Option Nat) :=
  (loadSpan block p n).map fun s => (indexOf c s).map (p + ·)

def strrchr (block : Bytes) (p : Nat) (c : UInt8) : Checked (Option Nat) :=
  (stringAt block p).map fun s => (CStrings.strrchr c s).map (p + ·)

/-- `strtol(block + p, &end, 10)`: the value, and `end`. -/
def strtol (block : Bytes) (p : Nat) : Checked (Int × Nat) :=
  (stringAt block p).map fun s => ((Numerals.strtol s).1, p + (s.length - (Numerals.strtol s).2.length))

namespace Buffer

variable {size : Nat}

/-- `b[p] = c` -/
def store (b : Buffer size) (p : Nat) (c : UInt8) : Checked (Buffer size) :=
  if p < size then .ok ⟨b.bytes.set p c, by rw [List.length_set, b.length_eq]⟩ else .error .store

/-- `memcpy(b, s, |s|)` -/
def copy (b : Buffer size) (s : Bytes) : Checked (Buffer size) :=
  if h : s.length ≤ size then
    .ok ⟨s ++ b.bytes.drop s.length, by rw [List.length_append, List.length_drop, b.length_eq]; omega⟩
  else .error .store

/-- `memcpy(b, block + p, n); b[n] = '\0';` -/
def copyString (b : Buffer size) (block : Bytes) (p n : Nat) : Checked (Buffer size) := do
  let s ← loadSpan block p n
  let b ← b.copy s
  b.store n 0

/-- `snprintf(b, sizeof(b), …)` of a text. -/
def print (b : Buffer size) (s : Bytes) : Checked (Buffer size) :=
  if size = 0 then .ok b else b.copy (s.take (size - 1) ++ [0])

end Buffer

/-! ## Computations without a fault -/

section
variable {α β : Type}

@[simp] theorem inBounds_ok (a : α) : InBounds (.ok a : Checked α) := ⟨a, rfl⟩

@[simp] theorem inBounds_pure (a : α) : InBounds (pure a : Checked α) := ⟨a, rfl⟩

@[simp] theorem not_inBounds_error (e : Fault) : ¬ InBounds (.error e : Checked α) := by
  rintro ⟨a, h⟩
  cases h

theorem inBounds_bind {x : Checked α} {f : α → Checked β} :
    InBounds (x >>= f) ↔ ∃ a, x = .ok a ∧ InBounds (f a) := by
  constructor
  · rintro ⟨b, h⟩
    obtain ⟨a, hx, hf⟩ := bind_eq_ok.mp h
    exact ⟨a, hx, b, hf⟩
  · rintro ⟨a, hx, b, hf⟩
    exact ⟨b, bind_eq_ok.mpr ⟨a, hx, hf⟩⟩

end

/-! ## The functions on a string -/

theorem load_block {s : CString} {p : Nat} (hp : p ≤ s.text.length) :
    load s.block p = .ok (s.text[p]?.getD 0) := by
  unfold load CString.block
  rcases Nat.lt_or_eq_of_le hp with hlt | rfl
  · rw [List.getElem?_append_left hlt, List.getElem?_eq_getElem hlt]
    rfl
  · rw [List.getElem?_append_right (le_refl _), Nat.sub_self, List.getElem?_eq_none (le_refl _)]
    rfl

theorem inBounds_load_iff {s : CString} {p : Nat} :
    InBounds (load s.block p) ↔ p ≤ s.text.length := by
  constructor
  · rintro ⟨c, h⟩
    unfold load at h
    split at h
    · cases h
    · rename_i d hd
      obtain ⟨hlt, -⟩ := List.getElem?_eq_some_iff.mp hd
      rw [CString.block, List.length_append, List.length_singleton] at hlt
      omega
  · intro hp
    exact ⟨_, load_block hp⟩

/-- A walk over a text stops at the NUL behind it, whatever follows. -/
theorem upToNul_append {s rest : Bytes} (hs : 0 ∉ s) : upToNul (s ++ 0 :: rest) = .ok s := by
  induction s with
  | nil => rfl
  | cons c s ih =>
    rw [List.mem_cons, not_or] at hs
    rw [List.cons_append, upToNul, if_neg (Ne.symm hs.1), ih hs.2]
    rfl

theorem CString.block_drop {s : CString} {p : Nat} (hp : p ≤ s.text.length) :
    s.block.drop p = s.text.drop p ++ [0] := by
  rw [CString.block, List.drop_append_of_le_length hp]

theorem stringAt_block {s : CString} {p : Nat} (hp : p ≤ s.text.length) :
    stringAt s.block p = .ok (s.text.drop p) := by
  rw [stringAt, CString.block_drop hp]
  exact upToNul_append fun h => s.no_nul (List.mem_of_mem_drop h)

theorem loadSpan_block {s : CString} {p n : Nat} (h : p + n ≤ s.text.length) :
    loadSpan s.block p n = .ok ((s.text.drop p).take n) := by
  have hp : p ≤ s.text.length := by omega
  have hlen : n ≤ (s.text.drop p).length := by
    rw [List.length_drop]
    omega
  rw [loadSpan, if_pos, CString.block_drop hp, List.take_append_of_le_length hlen]
  rw [CString.block, List.length_append]
  omega

/-- A comparison with a text goes no further than the NUL. -/
theorem startsWith_block {s : CString} {start : Bytes} (hstart : 0 ∉ start) {p : Nat}
    (hp : p ≤ s.text.length) : startsWith s.block p start = .ok (start.isPrefixOf (s.text.drop p)) := by
  induction start generalizing p with
  | nil => rfl
  | cons c start ih =>
    rw [List.mem_cons, not_or] at hstart
    rw [startsWith, load_block hp]
    change (if s.text[p]?.getD 0 = c then _ else _) = _
    rcases Nat.lt_or_eq_of_le hp with hlt | rfl
    · rw [List.getElem?_eq_getElem hlt, Option.getD_some, ← List.getElem_cons_drop hlt,
        List.isPrefixOf_cons_cons]
      by_cases hc : s.text[p] = c
      · rw [if_pos hc, ih hstart.2 hlt, hc, beq_self_eq_true, Bool.true_and]
      · rw [if_neg hc, beq_false_of_ne (Ne.symm hc), Bool.false_and]
    · rw [List.getElem?_eq_none (le_refl _), Option.getD_none, if_neg hstart.1, List.drop_length]
      rfl

theorem indexOf_append {c : UInt8} {a b : Bytes} (h : c ∉ a) :
    indexOf c (a ++ c :: b) = some a.length := by
  rw [indexOf, if_pos (by simp), List.idxOf_append_of_notMem h, List.idxOf_cons_self, Nat.add_zero]

theorem indexOf_eq_some {c : UInt8} {s : Bytes} {n : Nat} (h : indexOf c s = some n) :
    ∃ a b, s = a ++ c :: b ∧ c ∉ a ∧ a.length = n := by
  unfold indexOf at h
  split at h
  · rename_i hc
    obtain ⟨a, b, rfl, ha⟩ := List.eq_append_cons_of_mem hc
    refine ⟨a, b, rfl, ha, ?_⟩
    rw [List.idxOf_append_of_notMem ha, List.idxOf_cons_self] at h
    exact Option.some.inj h
  · cases h

theorem indexOf_lt {c : UInt8} {s : Bytes} {n : Nat} (h : indexOf c s = some n) : n < s.length := by
  obtain ⟨a, b, rfl, -, rfl⟩ := indexOf_eq_some h
  rw [List.length_append, List.length_cons]
  omega

theorem strchr_block {s : CString} {p : Nat} (hp : p ≤ s.text.length) (c : UInt8) :
    strchr s.block p c = .ok ((indexOf c (s.text.drop p)).map (p + ·)) := by
  rw [strchr, stringAt_block hp]
  rfl

theorem strrchr_block {s : CString} {p : Nat} (hp : p ≤ s.text.length) (c : UInt8) :
    strrchr s.block p c = .ok ((CStrings.strrchr c (s.text.drop p)).map (p + ·)) := by
  rw [strrchr, stringAt_block hp]
  rfl

theorem strrchr_lt {c : UInt8} {s : Bytes} {k : Nat} (h : CStrings.strrchr c s = some k) : k < s.length := by
  have hlen := congrArg List.length (strrchr_eq_some h).1
  rw [List.length_append, List.length_take, List.length_cons, List.length_drop] at hlen
  omega

theorem memchr_block {s : CString} {p n : Nat} (h : p + n ≤ s.text.length) (c : UInt8) :
    memchr s.block p c n = .ok ((indexOf c ((s.text.drop p).take n)).map (p + ·)) := by
  rw [memchr, loadSpan_block h]
  rfl

/-- What `strtol` leaves is the end of the text it got. -/
theorem strtol_suffix (s : Bytes) : (Numerals.strtol s).2 <:+ s := by
  have hdigits (t : Bytes) (P : Prop) [Decidable P] :
      ((if P then (t.dropWhile isSpace).drop 1 else t.dropWhile isSpace) : Bytes) <:+ t := by
    split
    · exact (List.drop_suffix 1 _).trans (List.dropWhile_suffix _)
    · exact List.dropWhile_suffix _
  simp only [Numerals.strtol]
  split
  · exact List.suffix_refl s
  · exact (List.dropWhile_suffix _).trans (hdigits s _)

/-- `strtol` stops inside the string, in front of what it leaves. -/
theorem strtol_block {s : CString} {p : Nat} (hp : p ≤ s.text.length) :
    ∃ stop ≤ s.text.length, s.text.drop stop = (Numerals.strtol (s.text.drop p)).2 ∧
      strtol s.block p = .ok ((Numerals.strtol (s.text.drop p)).1, stop) := by
  obtain ⟨taken, htaken⟩ := strtol_suffix (s.text.drop p)
  have hlen := congrArg List.length htaken
  rw [List.length_append, List.length_drop] at hlen
  refine ⟨p + taken.length, by omega, ?_, ?_⟩
  · rw [← List.drop_drop, ← htaken, List.drop_left]
    rw [htaken]
  · rw [strtol, stringAt_block hp]
    have hstop : p + ((s.text.drop p).length - (Numerals.strtol (s.text.drop p)).2.length) =
        p + taken.length := by
      rw [List.length_drop]
      omega
    rw [← hstop]
    rfl

/-! ## Stores -/

namespace Buffer

variable {size : Nat}

theorem inBounds_store_iff {b : Buffer size} {p : Nat} {c : UInt8} :
    InBounds (b.store p c) ↔ p < size := by
  unfold store
  split <;> simp [*]

theorem inBounds_copy_iff {b : Buffer size} {s : Bytes} : InBounds (b.copy s) ↔ s.length ≤ size := by
  unfold copy
  split <;> simp [*]

/-- A text copied with its NUL is what the buffer starts with. -/
theorem copyString_eq {b : Buffer size} {s : CString} {p n : Nat} (h : p + n ≤ s.text.length)
    (hn : n < size) : ∃ b' rest, b.copyString s.block p n = .ok b' ∧
      b'.bytes = (s.text.drop p).take n ++ 0 :: rest := by
  have hlen : ((s.text.drop p).take n).length = n := by
    rw [List.length_take, List.length_drop]
    omega
  have hdrop : n < b.bytes.length := by
    rw [b.length_eq]
    exact hn
  rw [copyString, loadSpan_block h]
  change ∃ b' rest, (b.copy ((s.text.drop p).take n) >>= fun b => b.store n 0) = _ ∧ _
  rw [copy, dif_pos (by omega)]
  change ∃ b' rest, store _ n 0 = _ ∧ _
  rw [store, if_pos hn]
  refine ⟨_, b.bytes.drop (n + 1), rfl, ?_⟩
  dsimp only
  rw [hlen, List.drop_eq_getElem_cons hdrop, List.set_append_right (h := by omega), hlen, Nat.sub_self,
    List.set_cons_zero]

theorem inBounds_copyString_iff {b : Buffer size} {s : CString} {p n : Nat}
    (h : p + n ≤ s.text.length) : InBounds (b.copyString s.block p n) ↔ n < size := by
  constructor
  · intro hin
    obtain ⟨t, -, hin⟩ := inBounds_bind.mp hin
    obtain ⟨b', -, hin⟩ := inBounds_bind.mp hin
    exact inBounds_store_iff.mp hin
  · intro hn
    obtain ⟨b', -, hb', -⟩ := copyString_eq (b := b) h hn
    exact ⟨b', hb'⟩

theorem inBounds_print (b : Buffer size) (s : Bytes) : InBounds (b.print s) := by
  unfold print
  split
  · exact inBounds_ok b
  · rw [inBounds_copy_iff, List.length_append, List.length_take, List.length_singleton]
    omega

/-- A text with room for it and its NUL is printed as it is. -/
theorem print_eq {b b' : Buffer size} {s : Bytes} (hroom : s.length < size) (h : b.print s = .ok b') :
    ∃ rest, b'.bytes = s ++ 0 :: rest := by
  have htake : s.take (size - 1) = s := List.take_of_length_le (by omega)
  rw [print, if_neg (by omega), htake] at h
  unfold copy at h
  split at h
  · cases h
    exact ⟨_, List.append_assoc _ _ _⟩
  · cases h

end Buffer

end QStar.Lib.CheckedMemory
