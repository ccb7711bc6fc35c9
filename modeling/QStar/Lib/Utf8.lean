import QStar.Lib.CStrings

/-!
# Texts in UTF-8

Which byte strings are UTF-8, by the table of well-formed sequences, and the bytes of a
code point. An ASCII byte stands between two characters, so what is before it and what is
behind it are each valid where the whole is.
-/
namespace QStar.Lib.Utf8

open QStar.Lib.CStrings

/-- Between two characters, or before a byte of a range with so many behind it. -/
inductive State where
  | start
  | tail (lo hi : UInt8) (more : Nat)
  deriving DecidableEq

def State.next : State → UInt8 → Option State
  | .start, c =>
    if c < 0x80 then some .start
    else if c < 0xC2 then none
    else if c < 0xE0 then some (.tail 0x80 0xBF 0)
    else if c = 0xE0 then some (.tail 0xA0 0xBF 1)
    else if c = 0xED then some (.tail 0x80 0x9F 1)
    else if c < 0xF0 then some (.tail 0x80 0xBF 1)
    else if c = 0xF0 then some (.tail 0x90 0xBF 2)
    else if c < 0xF4 then some (.tail 0x80 0xBF 2)
    else if c = 0xF4 then some (.tail 0x80 0x8F 2)
    else none
  | .tail lo hi more, c =>
    if lo ≤ c ∧ c ≤ hi then
      some (if more = 0 then .start else .tail 0x80 0xBF (more - 1))
    else none

def run : State → Bytes → Option State
  | s, [] => some s
  | s, c :: rest => (s.next c).bind fun s => run s rest

def Valid (text : Bytes) : Prop := run .start text = some .start

instance (text : Bytes) : Decidable (Valid text) :=
  inferInstanceAs (Decidable (run .start text = some .start))

/-- The bytes of a code point. -/
def encode (n : Nat) : Bytes :=
  let low (k : Nat) : UInt8 := UInt8.ofNat (128 + n / 64 ^ k % 64)
  if n < 0x80 then [UInt8.ofNat n]
  else if n < 0x800 then [UInt8.ofNat (192 + n / 64), low 0]
  else if n < 0x10000 then [UInt8.ofNat (224 + n / 4096), low 1, low 0]
  else [UInt8.ofNat (240 + n / 262144), low 2, low 1, low 0]

theorem run_append (s : State) (a b : Bytes) : run s (a ++ b) = (run s a).bind fun t => run t b := by
  induction a generalizing s with
  | nil => rfl
  | cons c a ih =>
    rw [List.cons_append, run, run]
    cases s.next c with
    | none => rfl
    | some t => exact ih t

/-- The ranges of later bytes hold no ASCII. -/
def State.Wide : State → Prop
  | .start => True
  | .tail lo _ _ => 0x80 ≤ lo

theorem wide_next {s t : State} {c : UInt8} (h : s.next c = some t) : t.Wide := by
  cases s with
  | start =>
    rw [State.next] at h
    split_ifs at h <;> cases h <;> first | trivial | (show (0x80 : UInt8) ≤ _; decide)
  | tail lo hi more =>
    rw [State.next] at h
    split_ifs at h <;> cases h
    · trivial
    · show (0x80 : UInt8) ≤ _
      decide

theorem wide_run {s t : State} (hs : s.Wide) {text : Bytes} (h : run s text = some t) : t.Wide := by
  induction text generalizing s with
  | nil =>
    cases h
    exact hs
  | cons c rest ih =>
    obtain ⟨u, hu, h⟩ := Option.bind_eq_some_iff.mp h
    exact ih (wide_next hu) h

/-- An ASCII byte is only read between characters. -/
theorem next_ascii {s : State} (hs : s.Wide) {c : UInt8} (hc : c < 0x80) :
    s.next c = if s = .start then some .start else none := by
  cases s with
  | start => simp [State.next, hc]
  | tail lo hi more =>
    have hno : ¬(lo ≤ c ∧ c ≤ hi) := by
      rintro ⟨hlo, -⟩
      have hwide : (0x80 : UInt8) ≤ lo := hs
      exact absurd (UInt8.le_trans hwide hlo) (UInt8.not_le.mpr hc)
    rw [State.next, if_neg hno, if_neg (by simp)]

theorem valid_append_cons {a b : Bytes} {c : UInt8} (hc : c < 0x80) :
    Valid (a ++ c :: b) ↔ Valid a ∧ Valid b := by
  unfold Valid
  rw [run_append]
  cases ha : run .start a with
  | none => simp
  | some s =>
    rw [Option.bind_some, run, next_ascii (wide_run (s := .start) trivial ha) hc]
    by_cases hs : s = .start
    · simp [hs]
    · simp [hs]

theorem valid_cons {b : Bytes} {c : UInt8} (hc : c < 0x80) : Valid (c :: b) ↔ Valid b := by
  have h := valid_append_cons (a := []) (b := b) hc
  simpa [Valid, run] using h

theorem valid_ascii_append {a b : Bytes} (ha : ∀ c ∈ a, c < 0x80) : Valid (a ++ b) ↔ Valid b := by
  induction a with
  | nil => rfl
  | cons c a ih =>
    rw [List.cons_append, valid_cons (ha c List.mem_cons_self)]
    exact ih fun d hd => ha d (List.mem_cons_of_mem _ hd)

theorem valid_append {a b : Bytes} (ha : Valid a) (hb : Valid b) : Valid (a ++ b) := by
  unfold Valid at ha hb ⊢
  rw [run_append, ha]
  exact hb

theorem valid_of_ascii {text : Bytes} (h : ∀ c ∈ text, c < 0x80) : Valid text := by
  have hvalid := (valid_ascii_append (b := []) h).mpr rfl
  rwa [List.append_nil] at hvalid

/-- Writing ASCII bytes with other ASCII bytes. -/
def WritesAscii (f : UInt8 → Bytes) : Prop :=
  ∀ c, (c < 0x80 → f c ≠ [] ∧ ∀ d ∈ f c, d < 0x80) ∧ (¬c < 0x80 → f c = [c])

theorem run_ascii {s : State} (hs : s.Wide) {t : Bytes} (hne : t ≠ []) (ht : ∀ c ∈ t, c < 0x80) :
    run s t = if s = .start then some .start else none := by
  obtain ⟨c, rest, rfl⟩ := List.exists_cons_of_ne_nil hne
  rw [run, next_ascii hs (ht c List.mem_cons_self)]
  by_cases hstart : s = .start
  · have hrest := (valid_ascii_append (b := []) fun d hd => ht d (List.mem_cons_of_mem _ hd)).mpr rfl
    rw [List.append_nil] at hrest
    simpa [hstart, Valid] using hrest
  · simp [hstart]

theorem run_flatMap {f : UInt8 → Bytes} (hf : WritesAscii f) {s : State} (hs : s.Wide)
    (text : Bytes) : run s (text.flatMap f) = run s text := by
  induction text generalizing s with
  | nil => rfl
  | cons c rest ih =>
    have hbyte : run s (f c) = s.next c := by
      by_cases hc : c < 0x80
      · rw [run_ascii hs ((hf c).1 hc).1 ((hf c).1 hc).2, next_ascii hs hc]
      · rw [(hf c).2 hc, run]
        cases s.next c <;> rfl
    rw [List.flatMap_cons, run_append, hbyte, run]
    cases hnext : s.next c with
    | none => rfl
    | some t => exact ih (wide_next hnext)

theorem valid_flatMap {f : UInt8 → Bytes} (hf : WritesAscii f) {text : Bytes} :
    Valid (text.flatMap f) ↔ Valid text := by
  rw [Valid, run_flatMap hf (s := .start) trivial, Valid]

/-- A later byte of a character. -/
theorem next_tail {lo hi : UInt8} {n : Nat} (hn : n < 256) (hlo : lo.toNat ≤ n) (hhi : n ≤ hi.toNat) (more : Nat) :
    (State.tail lo hi more).next (UInt8.ofNat n) = some (if more = 0 then .start else .tail 0x80 0xBF (more - 1)) := by
  have htoNat : (UInt8.ofNat n).toNat = n := by
    rw [UInt8.toNat_ofNat', Nat.mod_eq_of_lt hn]
  rw [State.next, if_pos]
  exact ⟨UInt8.le_iff_toNat_le.mpr (by omega), UInt8.le_iff_toNat_le.mpr (by omega)⟩

/-- The first bytes of characters, and what follows them. -/
theorem next_lead : ∀ n < 256,
    (n < 0x80 → State.start.next (UInt8.ofNat n) = some .start) ∧
    (0xC2 ≤ n → n < 0xE0 → State.start.next (UInt8.ofNat n) = some (.tail 0x80 0xBF 0)) ∧
    (0xE0 ≤ n → n < 0xF0 → State.start.next (UInt8.ofNat n) =
      some (.tail (if n = 0xE0 then 0xA0 else 0x80) (if n = 0xED then 0x9F else 0xBF) 1)) ∧
    (0xF0 ≤ n → n < 0xF5 → State.start.next (UInt8.ofNat n) =
      some (.tail (if n = 0xF0 then 0x90 else 0x80) (if n = 0xF4 then 0x8F else 0xBF) 2)) := by
  decide +kernel

theorem valid_encode {n : Nat} (hn : n < 0x110000) (hpair : n < 0xD800 ∨ 0xE000 ≤ n) : Valid (encode n) := by
  unfold encode
  dsimp only
  split
  · rename_i h1
    rw [Valid, run, (next_lead n (by omega)).1 h1]
    rfl
  · split
    · rename_i h1 h2
      rw [Valid, run, (next_lead (192 + n / 64) (by omega)).2.1 (by omega) (by omega), Option.bind_some, run,
        Nat.pow_zero, Nat.div_one, next_tail (by omega) (show 0x80 ≤ 128 + n % 64 by omega) (show 128 + n % 64 ≤ 0xBF by omega)]
      rfl
    · split
      · rename_i h1 h2 h3
        rw [Valid, run, (next_lead (224 + n / 4096) (by omega)).2.2.1 (by omega) (by omega), Option.bind_some, run,
          next_tail (by omega) ?_ ?_, Option.bind_some, run, if_neg (by decide), Nat.pow_zero, Nat.div_one,
          next_tail (by omega) (show 0x80 ≤ 128 + n % 64 by omega) (show 128 + n % 64 ≤ 0xBF by omega)]
        · rfl
        · split
          · show 0xA0 ≤ 128 + n / 64 ^ 1 % 64
            omega
          · show 0x80 ≤ 128 + n / 64 ^ 1 % 64
            omega
        · split
          · show 128 + n / 64 ^ 1 % 64 ≤ 0x9F
            omega
          · show 128 + n / 64 ^ 1 % 64 ≤ 0xBF
            omega
      · rename_i h1 h2 h3
        rw [Valid, run, (next_lead (240 + n / 262144) (by omega)).2.2.2 (by omega) (by omega), Option.bind_some, run,
          next_tail (by omega) ?_ ?_, Option.bind_some, run, if_neg (by decide),
          next_tail (by omega) (show 0x80 ≤ 128 + n / 64 ^ 1 % 64 by omega) (show 128 + n / 64 ^ 1 % 64 ≤ 0xBF by omega),
          Option.bind_some, run, if_neg (by decide), Nat.pow_zero, Nat.div_one,
          next_tail (by omega) (show 0x80 ≤ 128 + n % 64 by omega) (show 128 + n % 64 ≤ 0xBF by omega)]
        · rfl
        · split
          · show 0x90 ≤ 128 + n / 64 ^ 2 % 64
            omega
          · show 0x80 ≤ 128 + n / 64 ^ 2 % 64
            omega
        · split
          · show 128 + n / 64 ^ 2 % 64 ≤ 0x8F
            omega
          · show 128 + n / 64 ^ 2 % 64 ≤ 0xBF
            omega

/-- The bytes of a text. -/
def bytesOf (text : String) : Bytes := text.toList.flatMap fun c => encode c.toNat

theorem valid_bytesOf (text : String) : Valid (bytesOf text) := by
  unfold bytesOf
  induction text.toList with
  | nil => rfl
  | cons c rest ih =>
    refine valid_append ?_ ih
    rcases c.valid with h | ⟨hlow, hhigh⟩
    · exact valid_encode (Nat.lt_trans h (by decide)) (.inl h)
    · exact valid_encode hhigh (.inr hlow)

end QStar.Lib.Utf8
