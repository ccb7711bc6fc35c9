import QStar.Lib.CStrings

/-!
# Words of a shell command

Word splitting and quote removal as a POSIX shell does them, for text in which nothing is
expanded; and the quoting of a word: as it is where all its bytes are harmless, otherwise
between single quotes. A quoted list of words is split into just these words.
-/
namespace QStar.Lib.ShellWords

open QStar.Lib.CStrings

/-- Where a reader stands, with the word it is in. -/
inductive State where
  | between
  | plain (w : Bytes)
  | single (w : Bytes)
  | double (w : Bytes)
  /-- Behind a backslash -/
  | escaped (w : Option Bytes)
  | doubleEscaped (w : Bytes)

def isBlank (c : UInt8) : Bool := c = 32 || c = 9

/-- Operators, expansions and patterns. -/
def isActive (c : UInt8) : Bool := decide (c ∈ ascii "|&;<>()$`*?[\n")

/-- Comments and home directories, at the start of a word. -/
def isActiveFirst (c : UInt8) : Bool := c = 35 || c = 126

/-- A byte of a word that no quote is open in. -/
def enter (w : Option Bytes) (c : UInt8) : Option State :=
  if c = 39 then some (.single (w.getD []))
  else if c = 34 then some (.double (w.getD []))
  else if c = 92 then some (.escaped w)
  else if isActive c then none
  else some (.plain (w.getD [] ++ [c]))

/-- Behind a backslash and a newline. -/
def resume : Option Bytes → State
  | none => .between
  | some w => .plain w

/-- One byte, with the words that end before it. -/
def State.next : State → UInt8 → Option (List Bytes × State)
  | .between, c =>
    if isBlank c then some ([], .between)
    else if isActiveFirst c then none
    else (enter none c).map fun s => ([], s)
  | .plain w, c =>
    if isBlank c then some ([w], .between) else (enter (some w) c).map fun s => ([], s)
  | .single w, c => some ([], if c = 39 then .plain w else .single (w ++ [c]))
  | .double w, c =>
    if c = 34 then some ([], .plain w)
    else if c = 92 then some ([], .doubleEscaped w)
    else if c = 36 || c = 96 then none
    else some ([], .double (w ++ [c]))
  | .escaped w, c =>
    if c = 10 then some ([], resume w)
    else some ([], .plain (w.getD [] ++ [c]))
  | .doubleEscaped w, c =>
    if c = 10 then some ([], .double w)
    else if c = 36 || c = 96 || c = 34 || c = 92 then some ([], .double (w ++ [c]))
    else some ([], .double (w ++ [92, c]))

/-- The words that end within a text. -/
def run : State → Bytes → Option (List Bytes × State)
  | s, [] => some ([], s)
  | s, c :: rest => do
    let (ended, s) ← s.next c
    let (more, s) ← run s rest
    return (ended ++ more, s)

/-- The word that ends with the text. -/
def State.close : State → Option (List Bytes)
  | .between => some []
  | .plain w => some [w]
  | _ => none

/-- The words of a command; `none` where something is expanded or a quote stays open. -/
def split (text : Bytes) : Option (List Bytes) := do
  let (ended, s) ← run .between text
  let last ← s.close
  return ended ++ last

def quoteByte (c : UInt8) : Bytes := if c = 39 then ascii "'\\''" else [c]

/-- A word as it is written. -/
def quoteWord (isPlain : UInt8 → Bool) (w : Bytes) : Bytes :=
  if w ≠ [] ∧ w.all isPlain = true then w else 39 :: (w.flatMap quoteByte ++ [39])

def quoteWords (isPlain : UInt8 → Bool) (ws : List Bytes) : Bytes :=
  (ascii " ").intercalate (ws.map (quoteWord isPlain))

/-- A byte that stands for itself anywhere. -/
def isInert (c : UInt8) : Bool :=
  !(isBlank c || isActive c || isActiveFirst c || c = 39 || c = 34 || c = 92)

/-! ## Reading -/

theorem run_append (s : State) (a b : Bytes) : run s (a ++ b) =
    (run s a).bind fun r => (run r.2 b).map fun t => (r.1 ++ t.1, t.2) := by
  induction a generalizing s with
  | nil => simp [run]
  | cons c a ih =>
    rw [List.cons_append, run, run]
    cases hnext : s.next c with
    | none => rfl
    | some r =>
      obtain ⟨ended, t⟩ := r
      simp only [Option.bind_eq_bind, Option.bind_some, ih t]
      cases hrun : run t a with
      | none => rfl
      | some q =>
        simp only [Option.bind_some]
        cases hmore : run q.2 b with
        | none => simp [hmore]
        | some r => simp [hmore]

theorem inert_cases {c : UInt8} (h : isInert c = true) :
    isBlank c = false ∧ isActive c = false ∧ isActiveFirst c = false ∧ c ≠ 39 ∧ c ≠ 34 ∧ c ≠ 92 := by
  simpa [isInert, and_assoc] using h

theorem enter_inert {c : UInt8} (h : isInert c = true) (w : Option Bytes) :
    enter w c = some (.plain (w.getD [] ++ [c])) := by
  obtain ⟨-, hactive, -, hsingle, hdouble, hescape⟩ := inert_cases h
  simp [enter, hactive, hsingle, hdouble, hescape]

theorem run_plain {t : Bytes} (ht : ∀ c ∈ t, isInert c = true) (w : Bytes) :
    run (.plain w) t = some ([], .plain (w ++ t)) := by
  induction t generalizing w with
  | nil => simp [run]
  | cons c t ih =>
    have hc := ht c List.mem_cons_self
    have hnext : (State.plain w).next c = some ([], .plain (w ++ [c])) := by
      simp [State.next, (inert_cases hc).1, enter_inert hc]
    have hrest := ih (fun d hd => ht d (List.mem_cons_of_mem _ hd)) (w ++ [c])
    simp [run, hnext, hrest]

theorem run_single (w t : Bytes) :
    run (.single w) (t.flatMap quoteByte) = some ([], .single (w ++ t)) := by
  induction t generalizing w with
  | nil => simp [run]
  | cons c t ih =>
    have hbyte : run (.single w) (quoteByte c) = some ([], .single (w ++ [c])) := by
      by_cases hc : c = 39
      · subst hc
        rfl
      · simp [quoteByte, run, State.next, hc]
    rw [List.flatMap_cons, run_append, hbyte]
    simp [ih]

section Quoting

variable {isPlain : UInt8 → Bool}

/-- A quoted word is read as one word. -/
theorem run_quoteWord (hplain : ∀ c, isPlain c = true → isInert c = true) (w : Bytes) :
    run .between (quoteWord isPlain w) = some ([], .plain w) := by
  unfold quoteWord
  split
  · rename_i hsimple
    obtain ⟨hne, hall⟩ := hsimple
    obtain ⟨c, t, rfl⟩ := List.exists_cons_of_ne_nil hne
    have hinert : ∀ d ∈ c :: t, isInert d = true :=
      fun d hd => hplain d (List.all_eq_true.mp hall d hd)
    have hc := hinert c List.mem_cons_self
    have hnext : State.between.next c = some ([], .plain [c]) := by
      simp [State.next, (inert_cases hc).1, (inert_cases hc).2.2.1, enter_inert hc]
    have hrest := run_plain (fun d hd => hinert d (List.mem_cons_of_mem _ hd)) [c]
    simp [run, hnext, hrest]
  · have hopen : State.between.next 39 = some ([], .single []) := rfl
    have hclose : run (.single w) [39] = some ([], .plain w) := rfl
    have hinside : run (.single []) (w.flatMap quoteByte ++ [39]) = some ([], .plain w) := by
      rw [run_append, run_single, List.nil_append]
      simp [hclose]
    rw [run, hopen]
    simp [hinside]

/-- A quoted word behind the start of a word. -/
theorem run_quoteWord_plain (hplain : ∀ c, isPlain c = true → isInert c = true) (start w : Bytes) :
    run (.plain start) (quoteWord isPlain w) = some ([], .plain (start ++ w)) := by
  unfold quoteWord
  split
  · rename_i hsimple
    exact run_plain (fun d hd => hplain d (List.all_eq_true.mp hsimple.2 d hd)) start
  · have hopen : (State.plain start).next 39 = some ([], .single start) := rfl
    have hclose : run (.single (start ++ w)) [39] = some ([], .plain (start ++ w)) := rfl
    have hinside : run (.single start) (w.flatMap quoteByte ++ [39]) =
        some ([], .plain (start ++ w)) := by
      rw [run_append, run_single]
      simp [hclose]
    rw [run, hopen]
    simp [hinside]

theorem quoteWords_cons_cons (w v : Bytes) (ws : List Bytes) : quoteWords isPlain (w :: v :: ws) =
    quoteWord isPlain w ++ 32 :: quoteWords isPlain (v :: ws) := by
  simp [quoteWords, List.intercalate, ascii]

theorem quoteWords_cons (w : Bytes) (ws : List Bytes) : quoteWords isPlain (w :: ws) =
    quoteWord isPlain w ++ ws.flatMap fun v => 32 :: quoteWord isPlain v := by
  induction ws generalizing w with
  | nil => simp [quoteWords]
  | cons v ws ih =>
    rw [quoteWords_cons_cons, ih]
    simp

/-- The words of a quoted list are the list. -/
theorem split_quoteWords (hplain : ∀ c, isPlain c = true → isInert c = true) (ws : List Bytes) :
    split (quoteWords isPlain ws) = some ws := by
  have hrun : ∀ w rest, ∃ last s, run .between (quoteWords isPlain (w :: rest)) = some (last, s) ∧
      s.close.map (last ++ ·) = some (w :: rest) := by
    intro w rest
    induction rest generalizing w with
    | nil =>
      refine ⟨[], .plain w, ?_, rfl⟩
      simpa [quoteWords] using run_quoteWord hplain w
    | cons v rest ih =>
      obtain ⟨last, s, hlast, hclose⟩ := ih v
      refine ⟨w :: last, s, ?_, ?_⟩
      · have hblank : (State.plain w).next 32 = some ([w], .between) := by
          simp [State.next, isBlank]
        rw [quoteWords_cons_cons, run_append, run_quoteWord hplain]
        simp [run, hblank, hlast]
      · cases hs : s.close with
        | none => simp [hs] at hclose
        | some end' => simpa [hs] using hclose
  cases ws with
  | nil => rfl
  | cons w rest =>
    obtain ⟨last, s, hlast, hclose⟩ := hrun w rest
    obtain ⟨end', hend, heq⟩ := Option.map_eq_some_iff.mp hclose
    simp [split, hlast, hend, heq]

end Quoting

/-! ## What words are made of -/

theorem notMem_intercalate {c : UInt8} {sep : Bytes} (hsep : c ∉ sep) {texts : List Bytes}
    (h : ∀ t ∈ texts, c ∉ t) : c ∉ sep.intercalate texts := by
  induction texts with
  | nil => simp
  | cons t rest ih =>
    obtain ⟨ht, hrest⟩ := List.forall_mem_cons.mp h
    cases rest with
    | nil => simpa using ht
    | cons u rest =>
      rw [List.intercalate_cons_cons]
      simpa [ht, hsep] using ih hrest

theorem notMem_quoteWord {c : UInt8} (hquote : c ≠ 39) (hescape : c ≠ 92) (isPlain : UInt8 → Bool)
    {w : Bytes} (h : c ∉ w) : c ∉ quoteWord isPlain w := by
  have hinside : c ∉ w.flatMap quoteByte := by
    intro hmem
    obtain ⟨d, hd, hmem⟩ := List.mem_flatMap.mp hmem
    unfold quoteByte at hmem
    split at hmem
    · rw [show ascii "'\\''" = [39, 92, 39, 39] by decide] at hmem
      simp [hquote, hescape] at hmem
    · exact h (List.mem_singleton.mp hmem ▸ hd)
  unfold quoteWord
  split
  · exact h
  · simp [hquote, hinside]

theorem notMem_quoteWords {c : UInt8} (hblank : c ≠ 32) (hquote : c ≠ 39) (hescape : c ≠ 92)
    (isPlain : UInt8 → Bool) {ws : List Bytes} (h : ∀ w ∈ ws, c ∉ w) :
    c ∉ quoteWords isPlain ws := by
  refine notMem_intercalate ?_ ?_
  · simpa [ascii] using hblank
  · intro t ht
    obtain ⟨w, hw, rfl⟩ := List.mem_map.mp ht
    exact notMem_quoteWord hquote hescape isPlain (h w hw)

/-- The word a reader is in does not have the byte. -/
def State.Lacks (c : UInt8) : State → Prop
  | .between => True
  | .plain w | .single w | .double w | .doubleEscaped w => c ∉ w
  | .escaped w => c ∉ w.getD []

theorem lacks_enter {c d : UInt8} (hd : c ≠ d) {w : Option Bytes} (hw : c ∉ w.getD []) {s : State}
    (h : enter w d = some s) : s.Lacks c := by
  unfold enter at h
  split_ifs at h
  all_goals cases h
  · exact hw
  · exact hw
  · exact hw
  · simp [State.Lacks, hw, hd]

theorem lacks_next {c d : UInt8} (hescape : c ≠ 92) (hd : c ≠ d) {s t : State} (hs : s.Lacks c)
    {ended : List Bytes} (h : s.next d = some (ended, t)) : (∀ w ∈ ended, c ∉ w) ∧ t.Lacks c := by
  cases s with
  | between =>
    rw [State.next] at h
    split_ifs at h
    · cases h
      exact ⟨by simp, trivial⟩
    · obtain ⟨u, hu, heq⟩ := Option.map_eq_some_iff.mp h
      cases heq
      exact ⟨by simp, lacks_enter hd (by simp) hu⟩
  | plain w =>
    rw [State.next] at h
    split_ifs at h
    · cases h
      exact ⟨fun v hv => List.mem_singleton.mp hv ▸ hs, trivial⟩
    · obtain ⟨u, hu, heq⟩ := Option.map_eq_some_iff.mp h
      cases heq
      exact ⟨by simp, lacks_enter (w := some w) hd hs hu⟩
  | single w =>
    cases h
    refine ⟨by simp, ?_⟩
    split_ifs
    · exact hs
    · simpa [State.Lacks, hd] using hs
  | double w =>
    rw [State.next] at h
    split_ifs at h
    · cases h
      exact ⟨by simp, hs⟩
    · cases h
      exact ⟨by simp, hs⟩
    · cases h
      exact ⟨by simp, by simpa [State.Lacks, hd] using hs⟩
  | escaped w =>
    rw [State.next] at h
    split_ifs at h
    · cases h
      refine ⟨by simp, ?_⟩
      cases w with
      | none => exact trivial
      | some w => exact hs
    · cases h
      exact ⟨by simp, by simpa [State.Lacks, hd] using hs⟩
  | doubleEscaped w =>
    rw [State.next] at h
    split_ifs at h
    · cases h
      exact ⟨by simp, hs⟩
    · cases h
      exact ⟨by simp, by simpa [State.Lacks, hd] using hs⟩
    · cases h
      exact ⟨by simp, by simpa [State.Lacks, hd, hescape] using hs⟩

theorem lacks_run {c : UInt8} (hescape : c ≠ 92) {text : Bytes} (htext : c ∉ text) {s t : State}
    (hs : s.Lacks c) {ended : List Bytes} (h : run s text = some (ended, t)) :
    (∀ w ∈ ended, c ∉ w) ∧ t.Lacks c := by
  induction text generalizing s ended with
  | nil =>
    cases h
    exact ⟨by simp, hs⟩
  | cons d rest ih =>
    obtain ⟨hd, hrest⟩ := not_or.mp (mt List.mem_cons.mpr htext)
    simp only [run, Option.bind_eq_bind, Option.bind_eq_some_iff, Option.pure_def] at h
    obtain ⟨⟨first, u⟩, hnext, ⟨more, v⟩, hmore, heq⟩ := h
    cases heq
    obtain ⟨hfirst, hu⟩ := lacks_next hescape hd hs hnext
    obtain ⟨hlast, hv⟩ := ih hrest hu hmore
    exact ⟨fun w hw => (List.mem_append.mp hw).elim (hfirst w) (hlast w), hv⟩

/-- A byte that is not in a command is in none of its words, but for backslashes. -/
theorem notMem_of_split {c : UInt8} (hescape : c ≠ 92) {text : Bytes} (htext : c ∉ text)
    {ws : List Bytes} (h : split text = some ws) : ∀ w ∈ ws, c ∉ w := by
  simp only [split, Option.bind_eq_bind, Option.bind_eq_some_iff, Option.pure_def] at h
  obtain ⟨⟨ended, s⟩, hrun, last, hclose, heq⟩ := h
  obtain rfl : ended ++ last = ws := Option.some.inj heq
  obtain ⟨hended, hs⟩ := lacks_run hescape htext (s := .between) trivial hrun
  intro w hw
  rcases List.mem_append.mp hw with hw | hw
  · exact hended w hw
  · cases s with
    | between =>
      cases hclose
      cases hw
    | plain v =>
      cases hclose
      exact List.mem_singleton.mp hw ▸ hs
    | single | double | escaped | doubleEscaped => cases hclose

/-! ## Bytes that end words -/

/-- An operator is read nowhere outside of quotes. -/
theorem next_active {s : State} (h : s.close.isSome = true) {c : UInt8} (hc : isActive c = true) :
    s.next c = none := by
  have hother : isBlank c = false ∧ isActiveFirst c = false ∧ c ≠ 39 ∧ c ≠ 34 ∧ c ≠ 92 := by
    revert hc
    exact forall_byte (P := fun c => isActive c = true → isBlank c = false ∧ isActiveFirst c = false ∧
      c ≠ 39 ∧ c ≠ 34 ∧ c ≠ 92) (by decide +kernel) c
  obtain ⟨hblank, hfirst, hsingle, hdouble, hescape⟩ := hother
  have henter : ∀ w, enter w c = none := by
    intro w
    simp [enter, hsingle, hdouble, hescape, hc]
  cases s with
  | between => simp [State.next, hblank, hfirst, henter]
  | plain w => simp [State.next, hblank, henter]
  | single w => cases h
  | double w => cases h
  | escaped w => cases h
  | doubleEscaped w => cases h

/-! ## What a reader keeps -/

/-- The word a reader is in. -/
def State.content : State → Bytes
  | .between => []
  | .plain w | .single w | .double w | .doubleEscaped w => w
  | .escaped w => w.getD []

/-- A byte that no quoting is made of. -/
def isKept (c : UInt8) : Bool := !(isBlank c || c = 39 || c = 34 || c = 92 || c = 10)

theorem isKept_ne {c d : UInt8} (h : isKept c = true) (hd : isKept d = false) : ¬d = c := by
  rintro rfl
  rw [h] at hd
  cases hd

theorem count_enter {c d : UInt8} (hc : isKept c = true) {w : Option Bytes} {s : State}
    (h : enter w d = some s) : s.content.count c = (w.getD []).count c + [d].count c := by
  unfold enter at h
  split_ifs at h with hsingle hdouble hescape hactive
  · cases h
    have hne := isKept_ne hc (d := d) (by rw [hsingle]; decide)
    simp [State.content, hne]
  · cases h
    have hne := isKept_ne hc (d := d) (by rw [hdouble]; decide)
    simp [State.content, hne]
  · cases h
    have hne := isKept_ne hc (d := d) (by rw [hescape]; decide)
    simp [State.content, hne]
  · cases h
    simp [State.content, List.count_append]

/-- A reader keeps every byte that no quoting is made of. -/
theorem count_next {c d : UInt8} (hc : isKept c = true) {s t : State} {ended : List Bytes}
    (h : s.next d = some (ended, t)) :
    ended.flatten.count c + t.content.count c = s.content.count c + [d].count c := by
  have hblank : isBlank d = true → ¬d = c := by
    intro hd
    refine isKept_ne hc ?_
    simp [isKept, hd]
  cases s with
  | between =>
    rw [State.next] at h
    split_ifs at h with hd hfirst
    · cases h
      simp [State.content, hblank hd]
    · obtain ⟨u, hu, heq⟩ := Option.map_eq_some_iff.mp h
      cases heq
      simpa [State.content] using count_enter hc hu
  | plain w =>
    rw [State.next] at h
    split_ifs at h with hd
    · cases h
      simp [State.content, hblank hd]
    · obtain ⟨u, hu, heq⟩ := Option.map_eq_some_iff.mp h
      cases heq
      simpa [State.content] using count_enter hc hu
  | single w =>
    cases h
    split_ifs with hd
    · have hne := isKept_ne hc (d := d) (by rw [hd]; decide)
      simp [State.content, hne]
    · simp [State.content, List.count_append]
  | double w =>
    rw [State.next] at h
    split_ifs at h with hd hescape
    · cases h
      have hne := isKept_ne hc (d := d) (by rw [hd]; decide)
      simp [State.content, hne]
    · cases h
      have hne := isKept_ne hc (d := d) (by rw [hescape]; decide)
      simp [State.content, hne]
    · cases h
      simp [State.content, List.count_append]
  | escaped w =>
    rw [State.next] at h
    split_ifs at h with hd
    · cases h
      have hne := isKept_ne hc (d := d) (by rw [hd]; decide)
      cases w with
      | none => simp [State.content, resume, hne]
      | some w => simp [State.content, resume, hne]
    · cases h
      simp [State.content, List.count_append]
  | doubleEscaped w =>
    have hescape : ¬(92 : UInt8) = c := isKept_ne hc (by decide)
    rw [State.next] at h
    split_ifs at h with hd
    · cases h
      have hne := isKept_ne hc (d := d) (by rw [hd]; decide)
      simp [State.content, hne]
    · cases h
      simp [State.content, List.count_append]
    · cases h
      simp [State.content, List.count_append, List.count_cons, hescape]

theorem count_run {c : UInt8} (hc : isKept c = true) {text : Bytes} {s t : State}
    {ended : List Bytes} (h : run s text = some (ended, t)) :
    ended.flatten.count c + t.content.count c = s.content.count c + text.count c := by
  induction text generalizing s ended with
  | nil =>
    cases h
    simp
  | cons d rest ih =>
    simp only [run, Option.bind_eq_bind, Option.bind_eq_some_iff, Option.pure_def] at h
    obtain ⟨⟨first, u⟩, hnext, ⟨more, v⟩, hmore, heq⟩ := h
    cases heq
    have hfirst := count_next hc hnext
    have hrest := ih hmore
    have hcons : (d :: rest).count c = [d].count c + rest.count c := by
      rw [← List.count_append]
      rfl
    dsimp only at hfirst hrest ⊢
    rw [List.flatten_append, List.count_append, hcons]
    omega

/-- The words of a text have the bytes of it that no quoting is made of. -/
theorem count_split {c : UInt8} (hc : isKept c = true) {text : Bytes} {ws : List Bytes}
    (h : split text = some ws) : ws.flatten.count c = text.count c := by
  simp only [split, Option.bind_eq_bind, Option.bind_eq_some_iff, Option.pure_def] at h
  obtain ⟨⟨ended, s⟩, hrun, last, hclose, heq⟩ := h
  obtain rfl : ended ++ last = ws := Option.some.inj heq
  have hcount := count_run hc hrun
  have hlast : last.flatten = s.content := by
    cases s with
    | between =>
      cases hclose
      rfl
    | plain w =>
      cases hclose
      simp [State.content]
    | single | double | escaped | doubleEscaped => cases hclose
  rw [List.flatten_append, List.count_append, hlast]
  simpa [State.content] using hcount

end QStar.Lib.ShellWords
