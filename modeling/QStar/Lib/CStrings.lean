import Mathlib.Algebra.Group.Int.Defs
import Mathlib.Algebra.GroupWithZero.Nat
import Mathlib.Data.List.Infix
import Mathlib.Data.List.TakeWhile
import Mathlib.Tactic.Common

/-!
# C strings and line-wise reading

Byte buffers as the C library sees them: the text of a buffer ends at its first
NUL, `strstr` searches a text and `fgets` cuts a stream into lines that fit a
buffer. What a search over such lines finds is part of the stream.
-/
namespace QStar.Lib.CStrings

abbrev Bytes := List UInt8

/-- What tests of membership in lists of texts rest on. -/
instance : LawfulBEq Bytes := inferInstance

/-- The bytes of an ASCII literal. -/
def ascii (s : String) : Bytes := s.toList.map fun c => UInt8.ofNat c.toNat

/-- What holds of all 256 bytes. -/
theorem forall_byte {P : UInt8 → Prop} (h : ∀ n < 256, P (UInt8.ofNat n)) (c : UInt8) : P c := by
  have hbyte := h c.toNat (UInt8.toNat_lt c)
  rwa [UInt8.ofNat_toNat] at hbyte

/-- The bytes of a text are decided one after another, and not all bytes there are. -/
instance (priority := 1100) decidableForallByte {P : UInt8 → Prop} [DecidablePred P] (s : Bytes) :
    Decidable (∀ c ∈ s, P c) :=
  List.decidableBAll P s

/-- The C string at the start of a buffer. -/
def cString (buf : Bytes) : Bytes := buf.takeWhile (· ≠ 0)

/-- `strstr(hay, needle) != NULL` for NUL-free arguments. -/
def strstr (hay needle : Bytes) : Bool := decide (needle <:+: hay)

/-- `strstr(hay, needle) + strlen(needle)` -/
def afterFirst (needle : Bytes) : Bytes → Option Bytes
  | [] => if needle = [] then some [] else none
  | b :: rest =>
    if needle <+: b :: rest then some ((b :: rest).drop needle.length)
    else afterFirst needle rest

/-- `strrchr(s, c) - s` -/
def strrchr (c : UInt8) : Bytes → Option Nat
  | [] => none
  | b :: rest =>
    match strrchr c rest with
    | some k => some (k + 1)
    | none => if b = c then some 0 else none

/-- A text before and after the last occurrence of a byte. -/
def splitLast (c : UInt8) (s : Bytes) : Option (Bytes × Bytes) :=
  (strrchr c s).map fun k => (s.take k, s.drop (k + 1))

/-- `strcmp(a, b) <= 0` -/
def bytesLe : Bytes → Bytes → Bool
  | [], _ => true
  | _ :: _, [] => false
  | a :: as, b :: bs => if a = b then bytesLe as bs else decide (a < b)

/-- One `fgets` call: at most `room` bytes, stopping after a newline. -/
def fgets : Nat → Bytes → Bytes × Bytes
  | 0, rest => ([], rest)
  | _ + 1, [] => ([], [])
  | room + 1, b :: rest =>
    if b = 10 then ([b], rest)
    else
      let (line, after) := fgets room rest
      (b :: line, after)

/-- The buffers that repeated `fgets` calls fill until the end of the stream; the first
argument bounds the number of calls. -/
def fgetsAll (room : Nat) : Nat → Bytes → List Bytes
  | 0, _ => []
  | _ + 1, [] => []
  | fuel + 1, b :: rest =>
    let (line, after) := fgets room (b :: rest)
    line :: fgetsAll room fuel after

theorem bytesLe_total (a b : Bytes) : bytesLe a b = true ∨ bytesLe b a = true := by
  induction a generalizing b with
  | nil => exact .inl rfl
  | cons c a ih =>
    cases b with
    | nil => exact .inr rfl
    | cons d b =>
      by_cases hcd : c = d
      · subst hcd
        simpa [bytesLe] using ih b
      · simp only [bytesLe, if_neg hcd, if_neg (Ne.symm hcd), decide_eq_true_eq]
        exact UInt8.lt_or_lt_of_ne hcd

theorem bytesLe_antisymm {a b : Bytes} (hab : bytesLe a b = true) (hba : bytesLe b a = true) : a = b := by
  induction a generalizing b with
  | nil =>
    cases b with
    | nil => rfl
    | cons d b => cases hba
  | cons c a ih =>
    cases b with
    | nil => cases hab
    | cons d b =>
      by_cases hcd : c = d
      · subst hcd
        simp only [bytesLe, if_true] at hab hba
        rw [ih hab hba]
      · simp only [bytesLe, if_neg hcd, if_neg (Ne.symm hcd), decide_eq_true_eq] at hab hba
        exact absurd hba (UInt8.lt_asymm hab)

theorem bytesLe_trans {a b c : Bytes} (hab : bytesLe a b = true) (hbc : bytesLe b c = true) :
    bytesLe a c = true := by
  induction a generalizing b c with
  | nil => rfl
  | cons x a ih =>
    cases b with
    | nil => cases hab
    | cons y b =>
      cases c with
      | nil => cases hbc
      | cons z c =>
        unfold bytesLe at hab hbc ⊢
        by_cases hxy : x = y
        · subst hxy
          rw [if_pos rfl] at hab
          by_cases hxz : x = z
          · rw [if_pos hxz] at hbc ⊢
            exact ih hab hbc
          · rw [if_neg hxz] at hbc ⊢
            exact hbc
        · rw [if_neg hxy, decide_eq_true_eq] at hab
          by_cases hyz : y = z
          · subst hyz
            rw [if_neg hxy, decide_eq_true_eq]
            exact hab
          · rw [if_neg hyz, decide_eq_true_eq] at hbc
            have hlt := UInt8.lt_trans hab hbc
            rw [if_neg (UInt8.ne_of_lt hlt), decide_eq_true_eq]
            exact hlt

theorem strrchr_eq_none {c : UInt8} {s : Bytes} (h : c ∉ s) : strrchr c s = none := by
  induction s with
  | nil => rfl
  | cons b rest ih =>
    have hb : b ≠ c := fun heq => h (by simp [heq])
    have hrest := ih fun hmem => h (List.mem_cons_of_mem _ hmem)
    simp [strrchr, hrest, hb]

theorem strrchr_append {c : UInt8} (a : Bytes) {b : Bytes} (h : c ∉ b) :
    strrchr c (a ++ c :: b) = some a.length := by
  induction a with
  | nil => simp [strrchr, strrchr_eq_none h]
  | cons x a ih => simp [strrchr, ih]

theorem not_mem_of_strrchr {c : UInt8} {s : Bytes} (h : strrchr c s = none) : c ∉ s := by
  induction s with
  | nil => simp
  | cons b rest ih =>
    rw [strrchr] at h
    cases hrest : strrchr c rest with
    | some k => simp [hrest] at h
    | none =>
      have hb : b ≠ c := by
        rintro rfl
        simp [hrest] at h
      exact fun hmem => (List.mem_cons.mp hmem).elim (fun heq => hb heq.symm) (ih hrest)

theorem strrchr_eq_some {c : UInt8} {s : Bytes} {k : Nat} (h : strrchr c s = some k) :
    s = s.take k ++ c :: s.drop (k + 1) ∧ c ∉ s.drop (k + 1) := by
  induction s generalizing k with
  | nil => cases h
  | cons b rest ih =>
    rw [strrchr] at h
    cases hrest : strrchr c rest with
    | some j =>
      rw [hrest] at h
      obtain rfl := Option.some.inj h
      obtain ⟨heq, hno⟩ := ih hrest
      rw [List.take_succ_cons, List.drop_succ_cons, List.cons_append, ← heq]
      exact ⟨rfl, hno⟩
    | none =>
      rw [hrest] at h
      dsimp only at h
      split at h
      · rename_i hb
        obtain rfl := Option.some.inj h
        exact ⟨by simp [hb], not_mem_of_strrchr hrest⟩
      · cases h

/-- What is cut at the last of a byte was joined by it. -/
theorem splitLast_eq_some {c : UInt8} {s a b : Bytes} :
    splitLast c s = some (a, b) ↔ s = a ++ c :: b ∧ c ∉ b := by
  unfold splitLast
  constructor
  · intro h
    obtain ⟨k, hk, hcut⟩ := Option.map_eq_some_iff.mp h
    obtain ⟨rfl, rfl⟩ := Prod.mk.inj hcut
    exact strrchr_eq_some hk
  · rintro ⟨rfl, hno⟩
    rw [strrchr_append a hno]
    simp

theorem splitLast_append {c : UInt8} (a : Bytes) {b : Bytes} (h : c ∉ b) :
    splitLast c (a ++ c :: b) = some (a, b) := by
  simp [splitLast, strrchr_append a h]

theorem cString_isInfix (buf : Bytes) : cString buf <:+: buf :=
  (List.takeWhile_prefix _).isInfix

theorem cString_eq_self {s : Bytes} (h : 0 ∉ s) : cString s = s := by
  refine List.takeWhile_eq_self_iff.mpr ?_
  intro c hc
  have hne : c ≠ 0 := by
    rintro rfl
    exact h hc
  simpa using hne

/-- A text is longer than the C string at its start just where a NUL ends that. -/
theorem length_cString_lt {s : Bytes} (h : 0 ∈ s) : (cString s).length < s.length := by
  refine lt_of_le_of_ne (List.takeWhile_prefix _).length_le fun hlen => ?_
  have hwhole : cString s = s := (List.takeWhile_prefix _).eq_of_length hlen
  have hzero := List.takeWhile_eq_self_iff.mp hwhole 0 h
  simp at hzero

theorem fgets_append (room : Nat) (bytes : Bytes) :
    (fgets room bytes).1 ++ (fgets room bytes).2 = bytes := by
  induction room generalizing bytes with
  | zero => rfl
  | succ room ih =>
    cases bytes with
    | nil => rfl
    | cons b rest =>
      simp only [fgets]
      split
      · rfl
      · simpa using ih rest

/-- Every buffer `fgets` fills is a contiguous part of the stream. -/
theorem fgetsAll_infix {room fuel : Nat} {bytes line : Bytes}
    (h : line ∈ fgetsAll room fuel bytes) : line <:+: bytes := by
  induction fuel generalizing bytes with
  | zero => cases h
  | succ fuel ih =>
    cases bytes with
    | nil => cases h
    | cons b rest =>
      have happend := fgets_append room (b :: rest)
      simp only [fgetsAll, List.mem_cons] at h
      rcases h with rfl | h
      · exact ⟨[], (fgets room (b :: rest)).2, by simpa using happend⟩
      · have hsuffix : (fgets room (b :: rest)).2 <:+ b :: rest := ⟨_, happend⟩
        exact (ih h).trans hsuffix.isInfix

/-- A line that fits is read whole, its newline with it. -/
theorem fgets_line {room : Nat} {line : Bytes} (hline : 10 ∉ line) (hroom : line.length < room)
    (rest : Bytes) : fgets room (line ++ 10 :: rest) = (line ++ [10], rest) := by
  induction line generalizing room with
  | nil =>
    obtain ⟨room, rfl⟩ := Nat.exists_eq_succ_of_ne_zero (by omega : room ≠ 0)
    simp [fgets]
  | cons b line ih =>
    obtain ⟨room, rfl⟩ := Nat.exists_eq_succ_of_ne_zero (by omega : room ≠ 0)
    obtain ⟨hb, hline⟩ := not_or.mp (fun h => hline (List.mem_cons.mpr h))
    simp only [List.length_cons] at hroom
    have hrest := ih hline (Nat.lt_of_succ_lt_succ hroom)
    simp [fgets, Ne.symm hb, hrest]

theorem fgetsAll_succ {room fuel : Nat} {bytes : Bytes} (h : bytes ≠ []) :
    fgetsAll room (fuel + 1) bytes =
      (fgets room bytes).1 :: fgetsAll room fuel (fgets room bytes).2 := by
  cases bytes with
  | nil => exact absurd rfl h
  | cons b rest => rfl

/-- A file of lines that fit is read line by line. -/
theorem fgetsAll_lines {room fuel : Nat} {lines : List Bytes} (hlines : ∀ l ∈ lines, 10 ∉ l)
    (hroom : ∀ l ∈ lines, l.length < room) (hfuel : lines.length ≤ fuel) :
    fgetsAll room fuel (lines.flatMap fun l => l ++ [10]) = lines.map fun l => l ++ [10] := by
  induction lines generalizing fuel with
  | nil => cases fuel <;> rfl
  | cons l rest ih =>
    obtain ⟨fuel, rfl⟩ := Nat.exists_eq_succ_of_ne_zero (by simp at hfuel; omega : fuel ≠ 0)
    have hone := fgets_line (hlines l (by simp)) (hroom l (by simp))
      (rest.flatMap fun l => l ++ [10])
    have hrest := ih (fun x hx => hlines x (by simp [hx])) (fun x hx => hroom x (by simp [hx]))
      (by simpa using hfuel)
    rw [List.flatMap_cons, List.append_assoc, List.singleton_append, List.map_cons,
      fgetsAll_succ (by simp), hone, hrest]

/-- Enough calls for a file of lines. -/
theorem length_le_lines (lines : List Bytes) :
    lines.length ≤ (lines.flatMap fun l => l ++ [10]).length := by
  induction lines with
  | nil => simp
  | cons l rest ih =>
    simp only [List.length_cons, List.flatMap_cons, List.length_append, List.length_nil]
    omega

/-- A search starts at the first occurrence of the byte the needle starts with. -/
theorem suffix_of_afterFirst {needle text rest : Bytes} (h : afterFirst needle text = some rest) : rest <:+ text := by
  induction text with
  | nil =>
    rw [afterFirst] at h
    split at h
    · cases h
      exact List.suffix_rfl
    · cases h
  | cons b text ih =>
    rw [afterFirst] at h
    split at h
    · cases h
      exact List.drop_suffix _ _
    · exact (ih h).trans (List.suffix_cons b text)

theorem afterFirst_skip {c : UInt8} {needle : Bytes} {t : Bytes} (h : c ∉ t) (rest : Bytes) :
    afterFirst (c :: needle) (t ++ rest) = afterFirst (c :: needle) rest := by
  induction t with
  | nil => rfl
  | cons b t ih =>
    obtain ⟨hb, ht⟩ := not_or.mp (fun hm => h (List.mem_cons.mpr hm))
    have hno : ¬ c :: needle <+: b :: (t ++ rest) := fun hp => hb (List.cons_prefix_cons.mp hp).1
    rw [List.cons_append, afterFirst, if_neg hno, ih ht]

end QStar.Lib.CStrings
