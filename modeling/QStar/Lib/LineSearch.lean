import QStar.Lib.CStrings

/-!
# Searching a stream buffer by buffer

A stream is read into a buffer line by line, long lines in pieces, and `strstr` searches each
buffer up to its first NUL. Such a search sees an occurrence of a text just where one buffer
holds all of it and no NUL comes before it there; both can be told from the bytes before the
occurrence alone.
-/
namespace QStar.Lib.LineSearch

open QStar.Lib.CStrings

/-- How far a position is from the start of its line, from the bytes before it. -/
def column (before : Bytes) : Nat := (before.reverse.takeWhile (· ≠ 10)).length

/-- An occurrence of a text that lies in one buffer, with no NUL before it in the buffer. -/
structure Seen (room : Nat) (before text : Bytes) : Prop where
  line : 10 ∉ text.dropLast
  fits : column before % room + text.length ≤ room
  nul : 0 ∉ before.drop (before.length - column before % room)

/-- What `fgets` leaves in the buffer, and in the stream. -/
structure Filled (room : Nat) (buf after : Bytes) : Prop where
  line : 10 ∉ buf.dropLast
  fits : buf.length ≤ room
  full : buf.getLast? = some 10 ∨ buf.length = room ∨ after = []

/-! ## Columns -/

section Columns

variable {a b : Bytes}

theorem column_eq_length (h : 10 ∉ a) : column a = a.length := by
  have hall : a.reverse.takeWhile (· ≠ 10) = a.reverse := by
    refine List.takeWhile_eq_self_iff.mpr ?_
    intro c hc
    rw [decide_eq_true_eq]
    rintro rfl
    exact h (List.mem_reverse.mp hc)
  rw [column, hall, List.length_reverse]

theorem column_le (a : Bytes) : column a ≤ a.length := by
  have hle := (List.takeWhile_sublist (· ≠ 10) (l := a.reverse)).length_le
  rwa [List.length_reverse] at hle

/-- Within a line the column goes on. -/
theorem column_append_of_notMem (h : 10 ∉ b) : column (a ++ b) = b.length + column a := by
  have hall : ∀ c ∈ b.reverse, decide (c ≠ 10) = true := by
    intro c hc
    rw [decide_eq_true_eq]
    rintro rfl
    exact h (List.mem_reverse.mp hc)
  rw [column, List.reverse_append, List.takeWhile_append_of_pos hall, List.length_append,
    List.length_reverse, column]

/-- Past a newline the column does not depend on what comes before. -/
theorem column_append_of_mem (h : 10 ∈ b) : column (a ++ b) = column b := by
  have hshort : (b.reverse.takeWhile (· ≠ 10)).length ≠ b.reverse.length := by
    intro hlen
    have hwhole := (List.takeWhile_prefix (· ≠ 10) (l := b.reverse)).eq_of_length hlen
    have hin : 10 ∈ b.reverse.takeWhile (· ≠ 10) := by
      rw [hwhole]
      exact List.mem_reverse.mpr h
    exact absurd (List.mem_takeWhile_imp hin) (by decide)
  rw [column, List.reverse_append, List.takeWhile_append, if_neg hshort, column]

theorem column_newline (a : Bytes) : column (a ++ [10]) = 0 := by
  rw [column, List.reverse_append, List.reverse_singleton, List.singleton_append,
    List.takeWhile_cons_of_neg (by decide), List.length_nil]

theorem notMem_of_dropLast (hline : 10 ∉ a.dropLast) (hlast : a.getLast? ≠ some 10) : 10 ∉ a := by
  intro hmem
  have hne := List.ne_nil_of_mem hmem
  rw [← List.dropLast_concat_getLast hne, List.mem_append, List.mem_singleton] at hmem
  rcases hmem with hmem | hmem
  · exact hline hmem
  · exact hlast (by rw [List.getLast?_eq_some_getLast hne, ← hmem])

end Columns

/-! ## Buffers -/

section Buffers

variable {room : Nat} {bytes buf after before text : Bytes}

theorem fgets_filled (room : Nat) (bytes : Bytes) :
    Filled room (fgets room bytes).1 (fgets room bytes).2 := by
  induction room generalizing bytes with
  | zero => exact ⟨List.not_mem_nil, le_refl 0, .inr (.inl rfl)⟩
  | succ room ih =>
    cases bytes with
    | nil => exact ⟨List.not_mem_nil, Nat.zero_le _, .inr (.inr rfl)⟩
    | cons b rest =>
      rw [fgets]
      split
      · rename_i hb
        subst hb
        exact ⟨List.not_mem_nil, Nat.succ_le_succ (Nat.zero_le _), .inl rfl⟩
      · rename_i hb
        have hrest := ih rest
        generalize fgets room rest = filled at hrest
        obtain ⟨line, after⟩ := filled
        obtain ⟨hline, hfits, hfull⟩ := hrest
        refine ⟨?_, Nat.succ_le_succ hfits, ?_⟩
        · cases line with
          | nil => exact List.not_mem_nil
          | cons c cs =>
            intro hmem
            rcases List.mem_cons.mp hmem with h | h
            · exact hb h.symm
            · exact hline h
        · rcases hfull with h | h | h
          · left
            cases line with
            | nil => cases h
            | cons c cs => exact h
          · exact .inr (.inl (congrArg Nat.succ h))
          · exact .inr (.inr h)

theorem fgets_ne_nil (hroom : 0 < room) (hbytes : bytes ≠ []) : (fgets room bytes).1 ≠ [] := by
  obtain ⟨room, rfl⟩ := Nat.exists_eq_succ_of_ne_zero hroom.ne'
  cases bytes with
  | nil => exact absurd rfl hbytes
  | cons b rest =>
    rw [fgets]
    split
    · exact List.cons_ne_nil _ _
    · exact List.cons_ne_nil _ _

/-- A position before the end of the first buffer is in it as deep as its column. -/
theorem column_inside (hfilled : Filled room buf after) (hbefore : before <+: buf)
    (hlen : before.length < buf.length) : 10 ∉ before ∧ column before % room = before.length := by
  have hne : buf ≠ [] := List.ne_nil_of_length_pos (by omega)
  have hdrop : before <+: buf.dropLast := by
    refine List.prefix_of_prefix_length_le hbefore (List.dropLast_prefix buf) ?_
    rw [List.length_dropLast]
    omega
  have hline : 10 ∉ before := fun hmem => hfilled.line (hdrop.subset hmem)
  refine ⟨hline, ?_⟩
  rw [column_eq_length hline]
  exact Nat.mod_eq_of_lt (hlen.trans_le hfilled.fits)

/-- A full buffer before a position does not change how deep it is in its own. -/
theorem column_past (hfilled : Filled room buf after) (hafter : after ≠ []) :
    column (buf ++ before) % room = column before % room := by
  by_cases hmem : 10 ∈ before
  · rw [column_append_of_mem hmem]
  · rw [column_append_of_notMem hmem, column_eq_length hmem]
    by_cases hlast : buf.getLast? = some 10
    · obtain ⟨line, hbuf⟩ := List.getLast?_eq_some_iff.mp hlast
      rw [hbuf, column_newline, Nat.add_zero]
    · have hroom : buf.length = room :=
        (hfilled.full.resolve_left hlast).resolve_right hafter
      rw [column_eq_length (notMem_of_dropLast hfilled.line hlast), hroom, Nat.add_mod_right]

theorem seen_past (hfilled : Filled room buf after) (hafter : after ≠ []) :
    Seen room (buf ++ before) text ↔ Seen room before text := by
  have hcolumn : column (buf ++ before) % room = column before % room := column_past hfilled hafter
  have hle : column before % room ≤ before.length := (Nat.mod_le _ _).trans (column_le before)
  have hdrop : (buf ++ before).drop ((buf ++ before).length - column before % room) =
      before.drop (before.length - column before % room) := by
    rw [List.length_append, Nat.add_sub_assoc hle, List.drop_append, List.drop_eq_nil_of_le (by omega),
      List.nil_append, Nat.add_sub_cancel_left]
  constructor
  · rintro ⟨hline, hfits, hnul⟩
    rw [hcolumn] at hfits hnul
    rw [hdrop] at hnul
    exact ⟨hline, hfits, hnul⟩
  · rintro ⟨hline, hfits, hnul⟩
    refine ⟨hline, ?_, ?_⟩
    · rwa [hcolumn]
    · rwa [hcolumn, hdrop]

/-- The search of one buffer sees the occurrences that begin in it. -/
theorem strstr_buffer_iff (hfilled : Filled room buf after) (htext : text ≠ []) (hzero : 0 ∉ text) :
    strstr (cString buf) text = true ↔
      ∃ before rest, buf ++ after = before ++ text ++ rest ∧ before.length < buf.length ∧
        Seen room before text := by
  have hpos := List.length_pos_of_ne_nil htext
  rw [strstr, decide_eq_true_eq]
  constructor
  · rintro ⟨before, rest, hsplit⟩
    obtain ⟨tail, htail⟩ := List.takeWhile_prefix (· ≠ 0) (l := buf)
    have hbuf : before ++ text ++ (rest ++ tail) = buf := by
      rw [← List.append_assoc, hsplit]
      exact htail
    have hprefix : before <+: buf := ⟨text ++ (rest ++ tail), by rw [← List.append_assoc, hbuf]⟩
    have hlen : before.length + text.length ≤ buf.length := by
      rw [← hbuf, List.length_append, List.length_append]
      omega
    obtain ⟨-, hcolumn⟩ := column_inside hfilled hprefix (by omega)
    refine ⟨before, rest ++ tail ++ after, ?_, by omega, ?_, ?_, ?_⟩
    · rw [← hbuf, List.append_assoc (before ++ text)]
    · intro hmem
      have hstart : before ++ text.dropLast <+: buf :=
        ((List.prefix_append_right_inj before).mpr (List.dropLast_prefix text)).trans ⟨rest ++ tail, hbuf⟩
      have hdrop : before ++ text.dropLast <+: buf.dropLast := by
        refine List.prefix_of_prefix_length_le hstart (List.dropLast_prefix buf) ?_
        rw [List.length_append, List.length_dropLast, List.length_dropLast]
        omega
      exact hfilled.line (hdrop.subset (List.mem_append_right before hmem))
    · rw [hcolumn]
      exact hlen.trans hfilled.fits
    · rw [hcolumn, Nat.sub_self, List.drop_zero]
      intro hmem
      have hin : 0 ∈ cString buf := by
        rw [← hsplit]
        exact List.mem_append_left rest (List.mem_append_left text hmem)
      exact absurd (List.mem_takeWhile_imp hin) (by decide)
  · rintro ⟨before, rest, hsplit, hlen, hseen⟩
    have hprefix : before <+: buf := by
      refine List.prefix_of_prefix_length_le ?_ (List.prefix_append buf after) hlen.le
      rw [hsplit, List.append_assoc]
      exact List.prefix_append _ _
    obtain ⟨hline, hcolumn⟩ := column_inside hfilled hprefix hlen
    have hnul := hseen.nul
    rw [hcolumn, Nat.sub_self, List.drop_zero] at hnul
    -- the buffer ends behind the text: at a newline that is not inside of it, or when it is full
    have hroom : before.length + text.length ≤ buf.length := by
      by_contra hover
      have hshort : buf.length < before.length + text.length := Nat.lt_of_not_le hover
      have hinside : buf <+: before ++ text := by
        refine List.prefix_of_prefix_length_le (List.prefix_append buf after) ?_ ?_
        · rw [hsplit]
          exact List.prefix_append _ _
        · rw [List.length_append]
          omega
      rcases hfilled.full with hlast | hfull | hafter
      · have hdrop : buf <+: before ++ text.dropLast := by
          refine List.prefix_of_prefix_length_le hinside ?_ ?_
          · exact (List.prefix_append_right_inj before).mpr (List.dropLast_prefix text)
          · rw [List.length_append, List.length_dropLast]
            omega
        rcases List.mem_append.mp (hdrop.subset (List.mem_of_getLast? hlast)) with h | h
        · exact hline h
        · exact hseen.line h
      · have hfits := hseen.fits
        rw [hcolumn] at hfits
        omega
      · have hlen := congrArg List.length hsplit
        rw [hafter, List.append_nil, List.length_append, List.length_append] at hlen
        omega
    have hpre : before ++ text <+: buf := by
      refine List.prefix_of_prefix_length_le ?_ (List.prefix_append buf after) ?_
      · rw [hsplit]
        exact List.prefix_append _ _
      · rw [List.length_append]
        exact hroom
    obtain ⟨tail, htail⟩ := hpre
    have hall : ∀ c ∈ before ++ text, decide (c ≠ 0) = true := by
      intro c hc
      rw [decide_eq_true_eq]
      rintro rfl
      rcases List.mem_append.mp hc with h | h
      · exact hnul h
      · exact hzero h
    refine ⟨before, tail.takeWhile (· ≠ 0), ?_⟩
    rw [cString, ← htail, List.takeWhile_append_of_pos hall]

/-- The search over all buffers sees just the occurrences that one buffer holds. -/
theorem any_fgetsAll_iff {fuel : Nat} (hroom : 0 < room) (htext : text ≠ []) (hzero : 0 ∉ text)
    (hfuel : bytes.length ≤ fuel) :
    ((fgetsAll room fuel bytes).any fun buf => strstr (cString buf) text) = true ↔
      ∃ before rest, bytes = before ++ text ++ rest ∧ Seen room before text := by
  induction fuel generalizing bytes with
  | zero =>
    obtain rfl := List.length_eq_zero_iff.mp (Nat.le_zero.mp hfuel)
    refine iff_of_false nofun ?_
    rintro ⟨before, rest, hsplit, -⟩
    simp [htext] at hsplit
  | succ fuel ih =>
    by_cases hbytes : bytes = []
    · subst hbytes
      refine iff_of_false nofun ?_
      rintro ⟨before, rest, hsplit, -⟩
      simp [htext] at hsplit
    · have happend := fgets_append room bytes
      have hfilled := fgets_filled room bytes
      have hne := List.length_pos_of_ne_nil (fgets_ne_nil hroom hbytes)
      rw [fgetsAll_succ hbytes, List.any_cons, Bool.or_eq_true]
      generalize (fgets room bytes).1 = buf at happend hfilled hne ⊢
      generalize (fgets room bytes).2 = after at happend hfilled ⊢
      have hlen : buf.length + after.length = bytes.length := by
        rw [← happend, List.length_append]
      rw [strstr_buffer_iff hfilled htext hzero, ih (by omega), ← happend]
      constructor
      · rintro (⟨before, rest, hsplit, -, hseen⟩ | ⟨before, rest, rfl, hseen⟩)
        · exact ⟨before, rest, hsplit, hseen⟩
        · refine ⟨buf ++ before, rest, ?_, (seen_past hfilled (by simp [htext])).mpr hseen⟩
          simp only [List.append_assoc]
      · rintro ⟨before, rest, hsplit, hseen⟩
        by_cases hin : before.length < buf.length
        · exact .inl ⟨before, rest, hsplit, hin, hseen⟩
        · have hprefix : buf <+: before := by
            refine List.prefix_of_prefix_length_le (List.prefix_append buf after) ?_ (by omega)
            rw [hsplit, List.append_assoc]
            exact List.prefix_append _ _
          obtain ⟨later, rfl⟩ := hprefix
          rw [List.append_assoc, List.append_assoc, List.append_right_inj, ← List.append_assoc]
            at hsplit
          refine .inr ⟨later, rest, hsplit, ?_⟩
          exact (seen_past hfilled (by rw [hsplit]; simp [htext])).mp hseen

end Buffers

end QStar.Lib.LineSearch
