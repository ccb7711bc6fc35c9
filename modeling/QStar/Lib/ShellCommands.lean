import QStar.Lib.ShellWords

/-!
# The commands of one line

A line of a POSIX shell as simple commands joined with `&&`: each with the
assignments in front of it and its words. A word is an assignment or a reserved
word by the text it is written with, in which no part of the name is quoted.
-/
namespace QStar.Lib.ShellCommands

open QStar.Lib.CStrings
open QStar.Lib.ShellWords

/-- A word with the text it was written with. -/
structure Word where
  raw : Bytes
  value : Bytes
  deriving DecidableEq

inductive Token where
  | word (w : Word)
  /-- `&&` -/
  | andIf
  deriving DecidableEq

/-- Where a reader stands: in its words, with the text of the word so far, or behind the first
byte of an operator. -/
inductive Place where
  | words (raw : Bytes) (s : State)
  | operator

/-- The words that end with a text. -/
def wordsOf (raw : Bytes) (ended : List Bytes) : List Token := ended.map fun v => .word ⟨raw, v⟩

/-- The text of the word a byte is read into. -/
def rawNext (raw : Bytes) (c : UInt8) : State → Bytes
  | .between => []
  | _ => raw ++ [c]

/-- One byte of a line. -/
def Place.next : Place → UInt8 → Option (List Token × Place)
  | .words raw s, c =>
    if c = 10 then none
    else if c = 38 ∧ s.close.isSome = true then some (wordsOf raw (s.close.getD []), .operator)
    else (s.next c).map fun r => (wordsOf raw r.1, .words (rawNext raw c r.2) r.2)
  | .operator, c => if c = 38 then some ([.andIf], .words [] .between) else none

def Place.close : Place → Option (List Token)
  | .words raw s => s.close.map (wordsOf raw)
  | .operator => none

/-- The tokens of a line. -/
def readTokens : Place → Bytes → Option (List Token)
  | p, [] => p.close
  | p, c :: rest =>
    match p.next c with
    | none => none
    | some (ended, p) => (readTokens p rest).map (ended ++ ·)

/-- The words between the operators. -/
def splitCommands : List Token → List (List Word)
  | [] => [[]]
  | .andIf :: rest => [] :: splitCommands rest
  | .word w :: rest => (splitCommands rest).modifyHead (w :: ·)

/-- A name of a variable. -/
def isName : Bytes → Bool
  | [] => false
  | c :: rest =>
    let letter := fun (c : UInt8) => (65 ≤ c && c ≤ 90) || (97 ≤ c && c ≤ 122) || c = 95
    letter c && rest.all fun c => letter c || (48 ≤ c && c ≤ 57)

/-- A text that begins with a name and `=`. -/
def assigns (text : Bytes) : Bool :=
  decide (61 ∈ text) && isName (text.takeWhile (· ≠ 61))

def Word.isAssignment (w : Word) : Bool := assigns w.raw

def reservedWords : List Bytes :=
  ["!", "\x7b", "\x7d", "case", "do", "done", "elif", "else", "esac", "fi", "for", "if", "in",
    "then", "until", "while"].map ascii

/-- The assignments and the words of a command; a compound command is none. -/
def simpleCommand : List Word → Option (List Bytes × List Bytes)
  | [] => none
  | w :: rest =>
    if w.raw ∈ reservedWords then none
    else some (((w :: rest).takeWhile Word.isAssignment).map Word.value,
      ((w :: rest).dropWhile Word.isAssignment).map Word.value)

/-- The simple commands of a line. -/
def parse (text : Bytes) : Option (List (List Bytes × List Bytes)) :=
  (readTokens (.words [] .between) text).bind fun tokens => (splitCommands tokens).mapM simpleCommand

/-! ## Written words -/

/-- A text that is read as one word. -/
structure Prints (text value : Bytes) : Prop where
  read : run .between text = some ([], .plain value)
  line : 10 ∉ text
  first : ∀ c, text.head? = some c → isBlank c = false

theorem enter_ne_between {w : Option Bytes} {c : UInt8} {s : State} (h : enter w c = some s) :
    s ≠ .between := by
  unfold enter at h
  split_ifs at h
  all_goals
    cases h
    nofun

theorem next_ne_between {s t : State} {c : UInt8} (hs : s ≠ .between) (hc : c ≠ 10)
    (h : s.next c = some ([], t)) : t ≠ .between := by
  cases s with
  | between => exact absurd rfl hs
  | plain w =>
    rw [State.next] at h
    split_ifs at h
    · cases h
    · obtain ⟨u, hu, heq⟩ := Option.map_eq_some_iff.mp h
      cases heq
      exact enter_ne_between hu
  | single w =>
    cases h
    split_ifs
    all_goals
      intro heq
      cases heq
  | double w =>
    rw [State.next] at h
    split_ifs at h
    all_goals
      cases h
      intro heq
      cases heq
  | escaped w =>
    rw [State.next, if_neg hc] at h
    cases h
    intro heq
    cases heq
  | doubleEscaped w =>
    rw [State.next, if_neg hc] at h
    split_ifs at h
    all_goals
      cases h
      intro heq
      cases heq

theorem rawNext_of_ne {raw : Bytes} {c : UInt8} {s : State} (hs : s ≠ .between) :
    rawNext raw c s = raw ++ [c] := by
  cases s with
  | between => exact absurd rfl hs
  | _ => rfl

/-- One byte of a word. -/
theorem next_words {s t : State} {c : UInt8} (hc : c ≠ 10) (ht : t ≠ .between)
    (h : s.next c = some ([], t)) (raw : Bytes) :
    (Place.words raw s).next c = some ([], .words (raw ++ [c]) t) := by
  have hoperator : ¬(c = 38 ∧ s.close.isSome = true) := by
    rintro ⟨rfl, hclose⟩
    rw [next_active hclose (by decide)] at h
    cases h
  rw [Place.next, if_neg hc, if_neg hoperator, h, Option.map_some, rawNext_of_ne ht]
  rfl

/-- A part of a word, which the reader stays in. -/
theorem readTokens_run {s t : State} (hs : s ≠ .between) {text : Bytes} (hline : 10 ∉ text)
    (h : run s text = some ([], t)) (raw rest : Bytes) :
    readTokens (.words raw s) (text ++ rest) = readTokens (.words (raw ++ text) t) rest := by
  induction text generalizing s raw with
  | nil =>
    cases h
    simp
  | cons c text ih =>
    obtain ⟨hc, hline⟩ := not_or.mp (mt List.mem_cons.mpr hline)
    simp only [run, Option.bind_eq_bind, Option.bind_eq_some_iff, Option.pure_def] at h
    obtain ⟨⟨first, u⟩, hnext, ⟨more, v⟩, hmore, heq⟩ := h
    simp only [Option.some.injEq, Prod.mk.injEq, List.append_eq_nil_iff] at heq
    obtain ⟨⟨rfl, rfl⟩, rfl⟩ := heq
    have hu := next_ne_between hs (Ne.symm hc) hnext
    rw [List.cons_append, readTokens, next_words (Ne.symm hc) hu hnext]
    dsimp only
    rw [ih hu hline hmore]
    simp

theorem readTokens_prints {text value : Bytes} (h : Prints text value) (rest : Bytes) :
    readTokens (.words [] .between) (text ++ rest) = readTokens (.words text (.plain value)) rest := by
  obtain ⟨hread, hline, hfirst⟩ := h
  cases text with
  | nil => cases hread
  | cons c text =>
    obtain ⟨hc, hline⟩ := not_or.mp (mt List.mem_cons.mpr hline)
    simp only [run, Option.bind_eq_bind, Option.bind_eq_some_iff, Option.pure_def] at hread
    obtain ⟨⟨first, u⟩, hnext, ⟨more, v⟩, hmore, heq⟩ := hread
    simp only [Option.some.injEq, Prod.mk.injEq, List.append_eq_nil_iff] at heq
    obtain ⟨⟨rfl, rfl⟩, rfl⟩ := heq
    have hu : u ≠ .between := by
      rw [State.next, hfirst c rfl] at hnext
      simp only [Bool.false_eq_true, if_false] at hnext
      split at hnext
      · cases hnext
      · obtain ⟨w, hw, heq⟩ := Option.map_eq_some_iff.mp hnext
        cases heq
        exact enter_ne_between hw
    rw [List.cons_append, readTokens, next_words (Ne.symm hc) hu hnext]
    dsimp only
    rw [readTokens_run hu hline hmore]
    simp

/-- A blank ends a word. -/
theorem readTokens_blank (raw value rest : Bytes) :
    readTokens (.words raw (.plain value)) (32 :: rest) =
      (readTokens (.words [] .between) rest).map (.word ⟨raw, value⟩ :: ·) := rfl

/-- Words with a blank behind each. -/
theorem readTokens_words {words : List Word} (h : ∀ w ∈ words, Prints w.raw w.value) (rest : Bytes) :
    readTokens (.words [] .between) (words.flatMap (fun w => w.raw ++ [32]) ++ rest) =
      (readTokens (.words [] .between) rest).map (words.map .word ++ ·) := by
  induction words with
  | nil => simp
  | cons w words ih =>
    rw [List.flatMap_cons, List.append_assoc, List.append_assoc, readTokens_prints (h w List.mem_cons_self),
      List.singleton_append, readTokens_blank, ih fun v hv => h v (List.mem_cons_of_mem _ hv),
      Option.map_map]
    rfl

/-- The words at the end of a line. -/
theorem readTokens_lastWords {words : List Word} (h : ∀ w ∈ words, Prints w.raw w.value) :
    readTokens (.words [] .between) ((ascii " ").intercalate (words.map Word.raw)) =
      some (words.map .word) := by
  induction words with
  | nil => rfl
  | cons w words ih =>
    have hw := h w List.mem_cons_self
    cases words with
    | nil =>
      have hread := readTokens_prints hw []
      rw [List.append_nil] at hread
      rw [List.map_cons, List.map_nil, List.intercalate_singleton, hread]
      rfl
    | cons v words =>
      have ih := ih fun u hu => h u (List.mem_cons_of_mem _ hu)
      rw [List.map_cons] at ih ⊢
      rw [List.map_cons, List.intercalate_cons_cons, List.append_assoc, readTokens_prints hw]
      rw [show ascii " " = [32] from rfl] at ih ⊢
      rw [List.singleton_append, readTokens_blank, ih]
      rfl

/-- `&&` between two commands. -/
theorem readTokens_andIf (rest : Bytes) : readTokens (.words [] .between) (ascii "&& " ++ rest) =
    (readTokens (.words [] .between) rest).map (.andIf :: ·) := by
  have hfirst : readTokens (.words [] .between) (38 :: 38 :: 32 :: rest) =
      (readTokens .operator (38 :: 32 :: rest)).map ([] ++ ·) := rfl
  have hsecond : readTokens .operator (38 :: 32 :: rest) =
      (readTokens (.words [] .between) (32 :: rest)).map ([.andIf] ++ ·) := rfl
  have hblank : readTokens (.words [] .between) (32 :: rest) =
      (readTokens (.words [] .between) rest).map ([] ++ ·) := rfl
  have htext : ascii "&& " ++ rest = 38 :: 38 :: 32 :: rest := rfl
  rw [htext, hfirst, hsecond, hblank, Option.map_map, Option.map_map]
  rfl

theorem splitCommands_words (words : List Word) (rest : List Token) :
    splitCommands (words.map .word ++ rest) = (splitCommands rest).modifyHead (words ++ ·) := by
  induction words with
  | nil =>
    rw [List.map_nil, List.nil_append]
    cases splitCommands rest with
    | nil => rfl
    | cons first others => rfl
  | cons w words ih =>
    rw [List.map_cons, List.cons_append, splitCommands, ih, List.modifyHead_modifyHead]
    rfl

/-! ## What a line keeps -/

def Token.value : Token → Bytes
  | .word w => w.value
  | .andIf => []

def Place.content : Place → Bytes
  | .words _ s => s.content
  | .operator => []

theorem value_wordsOf (raw : Bytes) (ended : List Bytes) :
    (wordsOf raw ended).flatMap Token.value = ended.flatten := by
  rw [wordsOf, List.flatMap_map, List.flatMap_def]
  congr 1
  exact List.map_id' ended

theorem content_close {s : State} {ended : List Bytes} (h : s.close = some ended) :
    ended.flatten = s.content := by
  cases s with
  | between =>
    cases h
    rfl
  | plain w =>
    cases h
    simp [State.content]
  | single | double | escaped | doubleEscaped => cases h

theorem count_placeNext {c d : UInt8} (hc : isKept c = true) (hand : c ≠ 38) {p q : Place}
    {tokens : List Token} (h : p.next d = some (tokens, q)) :
    (tokens.flatMap Token.value).count c + q.content.count c = p.content.count c + [d].count c := by
  cases p with
  | operator =>
    rw [Place.next] at h
    split_ifs at h with hd
    cases h
    simp [Place.content, State.content, Token.value, hd, Ne.symm hand]
  | words raw s =>
    rw [Place.next] at h
    split_ifs at h with hnewline hoperator
    · cases h
      obtain ⟨ended, hclose⟩ := Option.isSome_iff_exists.mp hoperator.2
      rw [hclose, Option.getD_some, value_wordsOf, content_close hclose, hoperator.1]
      simp [Place.content, Ne.symm hand]
    · obtain ⟨r, hr, heq⟩ := Option.map_eq_some_iff.mp h
      cases heq
      rw [value_wordsOf]
      exact count_next hc hr

/-- The tokens of a line have the bytes of it that no quoting and no operator is made of. -/
theorem count_readTokens {c : UInt8} (hc : isKept c = true) (hand : c ≠ 38) {p : Place} {text : Bytes}
    {tokens : List Token} (h : readTokens p text = some tokens) :
    (tokens.flatMap Token.value).count c = p.content.count c + text.count c := by
  induction text generalizing p tokens with
  | nil =>
    cases p with
    | operator => cases h
    | words raw s =>
      obtain ⟨ended, hclose, rfl⟩ := Option.map_eq_some_iff.mp h
      rw [value_wordsOf, content_close hclose]
      rfl
  | cons d rest ih =>
    rw [readTokens] at h
    split at h
    · cases h
    rename_i first q hnext
    obtain ⟨more, hmore, rfl⟩ := Option.map_eq_some_iff.mp h
    have hfirst := count_placeNext hc hand hnext
    have hrest := ih hmore
    have hcons : (d :: rest).count c = [d].count c + rest.count c := by
      rw [← List.count_append]
      rfl
    rw [List.flatMap_append, List.count_append, hcons]
    omega

theorem splitCommands_ne_nil (tokens : List Token) : splitCommands tokens ≠ [] := by
  induction tokens with
  | nil => simp [splitCommands]
  | cons token rest ih =>
    cases token with
    | andIf => simp [splitCommands]
    | word w =>
      obtain ⟨first, others, heq⟩ := List.exists_cons_of_ne_nil ih
      simp [splitCommands, heq]

/-- The commands of a line have the words of it. -/
theorem flatMap_splitCommands (tokens : List Token) :
    (splitCommands tokens).flatten.flatMap Word.value = tokens.flatMap Token.value := by
  induction tokens with
  | nil => rfl
  | cons token rest ih =>
    cases token with
    | andIf => simpa [splitCommands, Token.value] using ih
    | word w =>
      obtain ⟨first, others, heq⟩ := List.exists_cons_of_ne_nil (splitCommands_ne_nil rest)
      rw [heq] at ih
      simp only [splitCommands, heq, List.modifyHead_cons, List.flatten_cons, List.flatMap_cons,
        List.cons_append, Token.value] at ih ⊢
      rw [ih]

/-- Which bytes of a written word are in the word: those in front of any quoting. -/
structure Tracks (raw : Bytes) (s : State) : Prop where
  before : ∀ p, p <+: raw → (∀ b ∈ p, isInert b = true) → p <+: s.content
  plain : (∀ b ∈ raw, isInert b = true) → (s = .between ∧ raw = []) ∨ s = .plain raw

theorem tracks_between : Tracks [] .between where
  before _ hp _ := hp
  plain _ := Or.inl ⟨rfl, rfl⟩

theorem eq_plain_of_closed {s : State} {ended : List Bytes} (h : s.close = some ended) {v : Bytes}
    (hv : v ∈ ended) : s = .plain v := by
  cases s with
  | between =>
    cases h
    cases hv
  | plain w =>
    cases h
    rw [List.mem_singleton.mp hv]
  | single | double | escaped | doubleEscaped => cases h

theorem content_enter {w : Option Bytes} {c : UInt8} {s : State} (h : enter w c = some s) :
    w.getD [] <+: s.content := by
  unfold enter at h
  split_ifs at h
  · cases h
    exact List.prefix_rfl
  · cases h
    exact List.prefix_rfl
  · cases h
    exact List.prefix_rfl
  · cases h
    exact List.prefix_append _ _

/-- A word only grows. -/
theorem content_next {s t : State} {c : UInt8} {ended : List Bytes} (h : s.next c = some (ended, t))
    (ht : t ≠ .between) : s.content <+: t.content := by
  cases s with
  | between => exact List.nil_prefix
  | plain w =>
    rw [State.next] at h
    split_ifs at h
    · cases h
      exact absurd rfl ht
    · obtain ⟨u, hu, heq⟩ := Option.map_eq_some_iff.mp h
      cases heq
      exact content_enter hu
  | single w =>
    cases h
    split_ifs
    · exact List.prefix_rfl
    · exact List.prefix_append _ _
  | double w =>
    rw [State.next] at h
    split_ifs at h
    · cases h
      exact List.prefix_rfl
    · cases h
      exact List.prefix_rfl
    · cases h
      exact List.prefix_append _ _
  | escaped w =>
    rw [State.next] at h
    split_ifs at h
    · cases h
      cases w with
      | none => exact List.prefix_rfl
      | some w => exact List.prefix_rfl
    · cases h
      exact List.prefix_append _ _
  | doubleEscaped w =>
    rw [State.next] at h
    split_ifs at h
    · cases h
      exact List.prefix_rfl
    · cases h
      exact List.prefix_append _ _
    · cases h
      exact List.prefix_append _ _

/-- Only a word that is not quoted ends. -/
theorem eq_plain_of_ended {s t : State} {c : UInt8} {ended : List Bytes}
    (h : s.next c = some (ended, t)) {v : Bytes} (hv : v ∈ ended) : s = .plain v := by
  cases s with
  | between =>
    rw [State.next] at h
    split_ifs at h
    · cases h
      cases hv
    · obtain ⟨u, -, heq⟩ := Option.map_eq_some_iff.mp h
      cases heq
      cases hv
  | plain w =>
    rw [State.next] at h
    split_ifs at h
    · cases h
      rw [List.mem_singleton.mp hv]
    · obtain ⟨u, -, heq⟩ := Option.map_eq_some_iff.mp h
      cases heq
      cases hv
  | single w =>
    cases h
    cases hv
  | double w =>
    rw [State.next] at h
    split_ifs at h
    all_goals
      cases h
      cases hv
  | escaped w =>
    rw [State.next] at h
    split_ifs at h
    all_goals
      cases h
      cases hv
  | doubleEscaped w =>
    rw [State.next] at h
    split_ifs at h
    all_goals
      cases h
      cases hv

theorem next_inert {c : UInt8} (hc : isInert c = true) :
    State.between.next c = some ([], .plain [c]) ∧
      ∀ w, (State.plain w).next c = some ([], .plain (w ++ [c])) := by
  obtain ⟨hblank, -, hfirst, -⟩ := inert_cases hc
  constructor
  · simp [State.next, hblank, hfirst, enter_inert hc]
  · intro w
    simp [State.next, hblank, enter_inert hc]

theorem tracks_next {raw : Bytes} {s t : State} {c : UInt8} {ended : List Bytes} (hs : Tracks raw s)
    (h : s.next c = some (ended, t)) : Tracks (rawNext raw c t) t := by
  by_cases ht : t = .between
  · rw [ht]
    exact tracks_between
  rw [rawNext_of_ne ht]
  have hplain : (∀ b ∈ raw ++ [c], isInert b = true) → t = .plain (raw ++ [c]) := by
    intro hinert
    have hc : isInert c = true := hinert c (by simp)
    rcases hs.plain fun b hb => hinert b (by simp [hb]) with ⟨rfl, rfl⟩ | rfl
    · rw [(next_inert hc).1] at h
      cases h
      rfl
    · rw [(next_inert hc).2] at h
      cases h
      rfl
  constructor
  · intro p hp hinert
    rcases List.prefix_concat_iff.mp hp with heq | hp
    · rw [hplain (heq ▸ hinert), heq]
      exact List.prefix_rfl
    · exact (hs.before p hp hinert).trans (content_next h ht)
  · intro hinert
    exact Or.inr (hplain hinert)

/-- What is written in front of any quoting of a word is in the word. -/
def Place.Tracks : Place → Prop
  | .words raw s => ShellCommands.Tracks raw s
  | .operator => True

theorem tracks_placeNext {p q : Place} {c : UInt8} {tokens : List Token} (hp : p.Tracks)
    (h : p.next c = some (tokens, q)) : q.Tracks ∧ ∀ w, .word w ∈ tokens →
      ∀ front, front <+: w.raw → (∀ b ∈ front, isInert b = true) → front <+: w.value := by
  cases p with
  | operator =>
    rw [Place.next] at h
    split_ifs at h
    cases h
    refine ⟨tracks_between, ?_⟩
    intro w hw
    cases List.mem_singleton.mp hw
  | words raw s =>
    have hword : ∀ {ended : List Bytes}, (∀ v ∈ ended, s = .plain v) → ∀ w, .word w ∈ wordsOf raw ended →
        ∀ front, front <+: w.raw → (∀ b ∈ front, isInert b = true) → front <+: w.value := by
      intro ended hended w hw front hfront hinert
      obtain ⟨v, hv, heq⟩ := List.mem_map.mp hw
      cases heq
      have hcontent := hp.before front hfront hinert
      rw [hended v hv] at hcontent
      exact hcontent
    rw [Place.next] at h
    split_ifs at h with hnewline hoperator
    · cases h
      obtain ⟨ended, hclose⟩ := Option.isSome_iff_exists.mp hoperator.2
      refine ⟨trivial, hword fun v hv => ?_⟩
      rw [hclose, Option.getD_some] at hv
      exact eq_plain_of_closed hclose hv
    · obtain ⟨r, hr, heq⟩ := Option.map_eq_some_iff.mp h
      cases heq
      exact ⟨tracks_next hp hr, hword fun v hv => eq_plain_of_ended hr hv⟩

theorem tracks_readTokens {p : Place} {text : Bytes} (hp : p.Tracks) {tokens : List Token}
    (h : readTokens p text = some tokens) : ∀ w, .word w ∈ tokens →
      ∀ front, front <+: w.raw → (∀ b ∈ front, isInert b = true) → front <+: w.value := by
  induction text generalizing p tokens with
  | nil =>
    cases p with
    | operator => cases h
    | words raw s =>
      obtain ⟨ended, hclose, rfl⟩ := Option.map_eq_some_iff.mp h
      intro w hw front hfront hinert
      obtain ⟨v, hv, heq⟩ := List.mem_map.mp hw
      cases heq
      have hcontent := hp.before front hfront hinert
      rw [eq_plain_of_closed hclose hv] at hcontent
      exact hcontent
  | cons c rest ih =>
    rw [readTokens] at h
    split at h
    · cases h
    rename_i first q hnext
    obtain ⟨more, hmore, rfl⟩ := Option.map_eq_some_iff.mp h
    obtain ⟨hq, hfirst⟩ := tracks_placeNext hp hnext
    intro w hw
    rcases List.mem_append.mp hw with hw | hw
    · exact hfirst w hw
    · exact ih hq hmore w hw

/-! ## Commands -/

theorem mem_splitCommands {tokens : List Token} {w : Word} {ws : List Word}
    (h : ws ∈ splitCommands tokens) (hw : w ∈ ws) : .word w ∈ tokens := by
  induction tokens generalizing ws with
  | nil =>
    rw [List.mem_singleton.mp h] at hw
    cases hw
  | cons token rest ih =>
    cases token with
    | andIf =>
      rcases List.mem_cons.mp h with rfl | h
      · cases hw
      · exact List.mem_cons_of_mem _ (ih h hw)
    | word v =>
      obtain ⟨first, others, heq⟩ := List.exists_cons_of_ne_nil (splitCommands_ne_nil rest)
      rw [splitCommands, heq, List.modifyHead_cons] at h
      rcases List.mem_cons.mp h with rfl | h
      · rcases List.mem_cons.mp hw with rfl | hw
        · exact List.mem_cons_self
        · exact List.mem_cons_of_mem _ (ih (heq ▸ List.mem_cons_self) hw)
      · exact List.mem_cons_of_mem _ (ih (heq ▸ List.mem_cons_of_mem _ h) hw)

/-- The commands come from the words between the operators, in their order. -/
theorem mapM_simpleCommand {groups : List (List Word)} {commands : List (List Bytes × List Bytes)}
    (h : groups.mapM simpleCommand = some commands) :
    (∀ command ∈ commands, ∃ ws ∈ groups, simpleCommand ws = some command) ∧
      (commands.flatMap fun command => command.1.flatten ++ command.2.flatten) =
        groups.flatten.flatMap Word.value := by
  induction groups generalizing commands with
  | nil =>
    cases h
    exact ⟨nofun, rfl⟩
  | cons ws groups ih =>
    rw [List.mapM_cons] at h
    obtain ⟨first, hfirst, h⟩ := Option.bind_eq_some_iff.mp h
    obtain ⟨others, hothers, h⟩ := Option.bind_eq_some_iff.mp h
    cases h
    obtain ⟨hmem, hvalue⟩ := ih hothers
    constructor
    · intro command hcommand
      rcases List.mem_cons.mp hcommand with rfl | hcommand
      · exact ⟨ws, List.mem_cons_self, hfirst⟩
      · obtain ⟨vs, hvs, heq⟩ := hmem command hcommand
        exact ⟨vs, List.mem_cons_of_mem _ hvs, heq⟩
    · rw [List.flatMap_cons, hvalue, List.flatten_cons, List.flatMap_append]
      congr 1
      cases ws with
      | nil => cases hfirst
      | cons w ws =>
        rw [simpleCommand] at hfirst
        split at hfirst
        · cases hfirst
        · cases hfirst
          rw [← List.flatten_append, ← List.map_append, List.takeWhile_append_dropWhile,
            List.flatMap_def]

theorem inert_of_isName {name : Bytes} (h : isName name = true) :
    ∀ b ∈ name ++ [61], isInert b = true := by
  have hletter : ∀ c : UInt8, ((65 ≤ c && c ≤ 90) || (97 ≤ c && c ≤ 122) || c = 95 ||
      (48 ≤ c && c ≤ 57)) = true → isInert c = true :=
    fun c => forall_byte (P := fun c => ((65 ≤ c && c ≤ 90) || (97 ≤ c && c ≤ 122) || c = 95 ||
      (48 ≤ c && c ≤ 57)) = true → isInert c = true) (by decide +kernel) c
  cases name with
  | nil => cases h
  | cons c rest =>
    simp only [isName, Bool.and_eq_true] at h
    intro b hb
    rcases List.mem_append.mp hb with hb | hb
    · refine hletter b ?_
      rcases List.mem_cons.mp hb with rfl | hb
      · rw [h.1]
        rfl
      · exact List.all_eq_true.mp h.2 b hb
    · rw [List.mem_singleton.mp hb]
      decide

theorem not_isName_of_mem {name : Bytes} (h : 61 ∈ name) : ¬isName name = true := by
  intro hname
  cases name with
  | nil => cases h
  | cons c rest =>
    simp only [isName, Bool.and_eq_true] at hname
    rcases List.mem_cons.mp h with rfl | h
    · exact absurd hname.1 (by decide)
    · exact absurd (List.all_eq_true.mp hname.2 61 h) (by decide)

/-- A text that assigns has its name and `=` in front. -/
theorem assigns_iff {text : Bytes} :
    assigns text = true ↔ ∃ name rest, isName name = true ∧ text = name ++ 61 :: rest := by
  rw [assigns, Bool.and_eq_true, decide_eq_true_eq]
  constructor
  · rintro ⟨hmem, hname⟩
    refine ⟨_, (text.dropWhile (· ≠ 61)).tail, hname, ?_⟩
    have hdrop : text.dropWhile (· ≠ 61) = 61 :: (text.dropWhile (· ≠ 61)).tail := by
      clear hname
      induction text with
      | nil => cases hmem
      | cons c rest ih =>
        by_cases hc : c = 61
        · simp [hc]
        · have hrest : 61 ∈ rest := by simpa [Ne.symm hc] using hmem
          have hstep : (c :: rest).dropWhile (· ≠ 61) = rest.dropWhile (· ≠ 61) := by simp [hc]
          rw [hstep]
          exact ih hrest
    rw [← hdrop, List.takeWhile_append_dropWhile]
  · rintro ⟨name, rest, hname, rfl⟩
    have hno : ∀ c ∈ name, decide (c ≠ 61) = true := by
      intro c hc
      have hne : c ≠ 61 := by
        rintro rfl
        exact absurd hname (not_isName_of_mem hc)
      simpa using hne
    rw [List.takeWhile_append_of_pos hno]
    simpa using hname

/-- The assignments of a command begin with a name and `=`. -/
theorem assigns_of_parse {text : Bytes} {commands : List (List Bytes × List Bytes)}
    (h : parse text = some commands) {command : List Bytes × List Bytes} (hin : command ∈ commands)
    {item : Bytes} (hitem : item ∈ command.1) : assigns item = true := by
  obtain ⟨tokens, htokens, hmap⟩ := Option.bind_eq_some_iff.mp h
  obtain ⟨ws, hws, hcommand⟩ := (mapM_simpleCommand hmap).1 command hin
  have hword : ∃ w ∈ ws, w.isAssignment = true ∧ w.value = item := by
    cases ws with
    | nil => cases hcommand
    | cons w ws =>
      rw [simpleCommand] at hcommand
      split at hcommand
      · cases hcommand
      · cases hcommand
        obtain ⟨v, hv, rfl⟩ := List.mem_map.mp hitem
        exact ⟨v, List.takeWhile_subset _ hv, List.mem_takeWhile_imp hv, rfl⟩
  obtain ⟨w, hw, hassign, rfl⟩ := hword
  obtain ⟨name, rest, hname, hraw⟩ := assigns_iff.mp hassign
  have hfront : name ++ [61] <+: w.raw := ⟨rest, by simp [hraw]⟩
  obtain ⟨tail, htail⟩ := tracks_readTokens (p := .words [] .between) tracks_between htokens w
    (mem_splitCommands hws hw) _ hfront (inert_of_isName hname)
  exact assigns_iff.mpr ⟨name, tail, hname, by simp [← htail]⟩

/-- The words of the commands have the bytes of the line that no quoting and no operator is made
of. -/
theorem count_parse {c : UInt8} (hc : isKept c = true) (hand : c ≠ 38) {text : Bytes}
    {commands : List (List Bytes × List Bytes)} (h : parse text = some commands) :
    (commands.flatMap fun command => command.1.flatten ++ command.2.flatten).count c = text.count c := by
  obtain ⟨tokens, htokens, hmap⟩ := Option.bind_eq_some_iff.mp h
  rw [(mapM_simpleCommand hmap).2, flatMap_splitCommands, count_readTokens hc hand htokens]
  simp [Place.content, State.content]

end QStar.Lib.ShellCommands
