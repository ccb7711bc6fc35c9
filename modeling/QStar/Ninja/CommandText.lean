import QStar.Lib.NinjaValues
import QStar.Lib.ShellCommands
import QStar.Ninja.WellFormed

/-!
# The commands of the emitted file

What a POSIX shell is given for a statement after Ninja has read its variables: the
directories it makes, the environment and the words of its command, the directory
of its output and the path of its script. The words of a command double their
dollars for Ninja; the directories and the scripts do not, the name of a variable
is not quoted, and a word that needs no quotes may mean something else to the shell
where a command begins.
-/
namespace QStar.Ninja

open QStar.Lib.CStrings
open QStar.Lib.Results
open QStar.Lib.NinjaFiles
open QStar.Lib.NinjaValues (Evaluates Harmless eval evalFrom evaluates_plain evaluates_byte
  evaluates_dollars evaluates_flatMap evalFrom_stop eval_isSome not_mem_of_eval_self)
open QStar.Lib.ShellCommands
open QStar.Lib.ShellWords (isKept)
open QStar.Base
open QStar.BuildGraph

/-- The variables of the header. -/
def headerVariables (g : Graph) (name : Bytes) : Bytes :=
  if name = ascii "ninja_required_version" then ascii "1.3"
  else if name = ascii "builddir" then buildPath g.buildDir (ascii "ninja")
  else []

/-- The commands a shell runs for a value. -/
def shellReads (g : Graph) (value : Bytes) : Option (List (List Bytes × List Bytes)) :=
  (eval (headerVariables g) value).bind parse

/-- A variable below a statement. -/
def Statement.variable (pr : Printing) (g : Graph) (s : Statement) (name : String) : Option Bytes :=
  (s.variables pr g).lookup (ascii name)

/-- The command that makes directories. -/
def makeCommand (directories : List Bytes) : List (List Bytes × List Bytes) :=
  if directories = [] then [] else [([], ascii "mkdir" :: ascii "-p" :: directories)]

/-- The environment and the words of the command of a statement; one that the cache already had
does nothing. -/
def ownCommand (pr : Printing) (s : Statement) (c : EdgeCommand) : List Bytes × List Bytes :=
  if pr.cacheHit s then ([], [ascii ":"]) else (c.env, pr.execArgv c)

/-- The shell is given what the statement is about. -/
def Statement.CommandRead (pr : Printing) (g : Graph) (s : Statement) : Prop :=
  match s.command with
  | .phony => True
  | .process c =>
    (s.variable pr g "command").bind (shellReads g) =
        some (makeCommand s.directories ++ [ownCommand pr s c]) ∧
      ∀ dir, s.outDir = some dir → (s.variable pr g "out_dir").bind (fun value =>
        (eval (headerVariables g) value).bind QStar.Lib.ShellWords.split) = some [dir]
  | .script path _ =>
    (s.variable pr g "command").bind (shellReads g) = some [([], [ascii "sh", path])]

/-- A path without dollars and line breaks. -/
def PlainPath (path : Bytes) : Prop := ∀ c ∈ path, c ≠ 36 ∧ c ≠ 10 ∧ c ≠ 13

/-- The environments and words that a shell is given as they are: a variable has a name, nothing
has a line break, and a first word without need of quotes is no assignment and, without an
environment, no reserved word. -/
structure PlainCommand (env argv : List Bytes) : Prop where
  assigns : ∀ item ∈ env, assigns item = true
  env_unbroken : ∀ item ∈ env, Unbroken item
  argv_unbroken : ∀ word ∈ argv, Unbroken word
  some_word : env ≠ [] ∨ argv ≠ []
  first : ∀ word, argv.head? = some word → word.all isSimple = true →
    QStar.Lib.ShellCommands.assigns word = false ∧ (env = [] → word ∉ reservedWords)

/-! ## Evaluation -/

section Evaluation

variable {vars : Bytes → Bytes}

theorem evaluates_shellArg {path : Bytes} (h : PlainPath path) :
    Evaluates vars (shellArg path) (shellArg path) := by
  refine evaluates_plain fun c hc => ?_
  refine ⟨?_, ?_, ?_⟩
  · rintro rfl
    exact not_mem_shellArg (by decide) (by decide) (fun hmem => (h _ hmem).1 rfl) hc
  · rintro rfl
    exact not_mem_shellArg (by decide) (by decide) (fun hmem => (h _ hmem).2.1 rfl) hc
  · rintro rfl
    exact not_mem_shellArg (by decide) (by decide) (fun hmem => (h _ hmem).2.2 rfl) hc

/-- A word whose dollars are doubled is given to the shell as the word. -/
theorem evaluates_ninjaShellArg {word : Bytes} (h : Unbroken word) :
    Evaluates vars (ninjaShellArg word) (shellArg word) := by
  unfold ninjaShellArg shellArg shellArgMode
  split
  · rename_i hsimple
    refine evaluates_plain fun c hc => ?_
    have hc := List.all_eq_true.mp hsimple.2 c hc
    refine ⟨isSimple_ne_dollar hc, ?_, ?_⟩
    · rintro rfl
      cases hc
    · rintro rfl
      cases hc
  · have hquote : Evaluates vars [39] [39] := evaluates_byte (by decide)
    refine (hquote.append (evaluates_flatMap fun c hc => ?_)).append hquote
    obtain ⟨hnewline, hreturn⟩ := h c hc
    by_cases hsingle : c = 39
    · rw [if_pos hsingle, if_pos hsingle]
      exact evaluates_plain (by decide)
    · rw [if_neg hsingle, if_neg hsingle]
      by_cases hdollar : c = 36
      · rw [if_pos ⟨rfl, hdollar⟩, if_neg (by simp), hdollar]
        exact evaluates_dollars
      · rw [if_neg (by simp [hdollar]), if_neg (by simp)]
        exact evaluates_byte ⟨hdollar, hnewline, hreturn⟩

end Evaluation

/-! ## Printed words -/

/-- A word as a shell is given it. -/
def argWord (word : Bytes) : Word := ⟨shellArg word, word⟩

/-- An environment item as a shell is given it. -/
def envWord (item : Bytes) : Word :=
  ⟨item.takeWhile (· ≠ 61) ++ 61 :: shellArg (item.dropWhile (· ≠ 61)).tail, item⟩

theorem isSimple_blank {c : UInt8} (h : isSimple c = true) : QStar.Lib.ShellWords.isBlank c = false :=
  (QStar.Lib.ShellWords.inert_cases (isInert_of_isSimple c h)).1

theorem prints_argWord {word : Bytes} (h : 10 ∉ word) : Prints (argWord word).raw (argWord word).value where
  read := run_shellArg word
  line := not_mem_shellArg (by decide) (by decide) h
  first c hc := by
    have hraw : (shellArg word).head? = some c := hc
    rcases shellArg_cases word with ⟨-, hsimple, heq⟩ | ⟨-, rest, heq⟩
    · rw [heq] at hraw
      exact isSimple_blank (List.all_eq_true.mp hsimple c (List.mem_of_head? hraw))
    · rw [heq] at hraw
      cases hraw
      rfl

theorem envWord_raw {name : Bytes} (hname : isName name = true) (rest : Bytes) :
    (envWord (name ++ 61 :: rest)).raw = name ++ 61 :: shellArg rest ∧
      ninjaShellEnvAssignment (name ++ 61 :: rest) = name ++ ascii "=" ++ ninjaShellArg rest := by
  have hno : ∀ c ∈ name, decide (c ≠ 61) = true := by
    intro c hc
    have hne : c ≠ 61 := by
      rintro rfl
      exact not_isName_of_mem hc hname
    simpa using hne
  have htake : (name ++ 61 :: rest).takeWhile (fun c => decide (c ≠ 61)) = name := by
    rw [List.takeWhile_append_of_pos hno]
    simp
  have hdrop : (name ++ 61 :: rest).dropWhile (fun c => decide (c ≠ 61)) = 61 :: rest := by
    rw [List.dropWhile_append_of_pos hno]
    simp
  have hhead : (name ++ 61 :: rest).head? ≠ some 61 := by
    cases name with
    | nil => cases hname
    | cons c name =>
      intro heq
      cases heq
      exact not_isName_of_mem List.mem_cons_self hname
  constructor
  · rw [envWord, htake, hdrop]
    rfl
  · rw [ninjaShellEnvAssignment, hdrop, htake]
    dsimp only
    rw [if_neg hhead]

theorem prints_envWord {item : Bytes} (hitem : assigns item = true) (h : 10 ∉ item) :
    Prints (envWord item).raw (envWord item).value := by
  obtain ⟨name, rest, hname, rfl⟩ := assigns_iff.mp hitem
  have hinert := inert_of_isName hname
  have hno : (10 : UInt8) ∉ name := fun hin => h (List.mem_append_left _ hin)
  have hrest : (10 : UInt8) ∉ rest :=
    fun hin => h (List.mem_append_right _ (List.mem_cons_of_mem _ hin))
  rw [(envWord_raw hname rest).1]
  constructor
  · have hstart : QStar.Lib.ShellWords.run .between (name ++ [61]) =
        some ([], .plain (name ++ [61])) := by
      cases name with
      | nil => cases hname
      | cons b name =>
        have hb : QStar.Lib.ShellWords.isInert b = true := hinert b (by simp)
        have htail : QStar.Lib.ShellWords.run (.plain [b]) (name ++ [61]) =
            some ([], .plain ([b] ++ (name ++ [61]))) :=
          QStar.Lib.ShellWords.run_plain (fun c hc => hinert c (List.mem_cons_of_mem _ hc)) [b]
        rw [List.cons_append, QStar.Lib.ShellWords.run, (next_inert hb).1]
        simp [htail]
    rw [show name ++ 61 :: shellArg rest = (name ++ [61]) ++ shellArg rest by simp,
      QStar.Lib.ShellWords.run_append, hstart]
    have hvalue : QStar.Lib.ShellWords.run (.plain (name ++ [61])) (shellArg rest) =
        some ([], .plain (name ++ [61] ++ rest)) := by
      rw [shellArg_eq]
      exact QStar.Lib.ShellWords.run_quoteWord_plain isInert_of_isSimple _ _
    simp [hvalue, envWord]
  · have hvalue := not_mem_shellArg (by decide) (by decide) hrest
    intro hin
    rcases List.mem_append.mp hin with hin | hin
    · exact hno hin
    · rcases List.mem_cons.mp hin with heq | hin
      · cases heq
      · exact hvalue hin
  · intro c hc
    cases name with
    | nil => cases hname
    | cons b name =>
      cases hc
      exact (QStar.Lib.ShellWords.inert_cases (hinert _ (by simp))).1

/-- An environment item whose value has its dollars doubled is given to the shell as the item. -/
theorem evaluates_envItem {vars : Bytes → Bytes} {item : Bytes} (hitem : assigns item = true)
    (h : Unbroken item) : Evaluates vars (ninjaShellEnvAssignment item) (envWord item).raw := by
  obtain ⟨name, rest, hname, rfl⟩ := assigns_iff.mp hitem
  obtain ⟨hraw, htext⟩ := envWord_raw hname rest
  have hfront : Evaluates vars (name ++ [61]) (name ++ [61]) := by
    refine evaluates_plain fun c hc => ?_
    have hinert := inert_of_isName hname c hc
    refine ⟨?_, ?_, ?_⟩
    · rintro rfl
      cases hinert
    · rintro rfl
      cases hinert
    · rintro rfl
      rcases List.mem_append.mp hc with hc | hc
      · exact (h _ (List.mem_append_left _ hc)).2 rfl
      · cases List.mem_singleton.mp hc
  have hrest : Unbroken rest := fun c hc => h c (by simp [hc])
  have hvalue : Evaluates vars (ninjaShellArg rest) (shellArg rest) := evaluates_ninjaShellArg hrest
  have hitem := hfront.append hvalue
  rw [hraw, htext]
  simpa [ascii] using hitem

/-! ## Printed commands -/

theorem reservedWords_spec : ∀ word ∈ reservedWords, assigns word = false ∧ word.head? ≠ some 39 := by
  decide

theorem isAssignment_envWord {item : Bytes} (h : assigns item = true) :
    (envWord item).isAssignment = true ∧ (envWord item).raw ∉ reservedWords := by
  obtain ⟨name, rest, hname, rfl⟩ := assigns_iff.mp h
  have hraw : assigns (envWord (name ++ 61 :: rest)).raw = true := by
    rw [(envWord_raw hname rest).1]
    exact assigns_iff.mpr ⟨name, _, hname, rfl⟩
  refine ⟨hraw, fun hin => ?_⟩
  rw [(reservedWords_spec _ hin).1] at hraw
  cases hraw

/-- A word is an assignment or reserved when it needs no quotes. -/
theorem argWord_iff (word : Bytes) :
    ((argWord word).isAssignment = true ↔ word.all isSimple = true ∧ assigns word = true) ∧
      ((argWord word).raw ∈ reservedWords ↔ word.all isSimple = true ∧ word ∈ reservedWords) := by
  have hempty : assigns [] = false ∧ ([] : Bytes) ∉ reservedWords := by decide
  rcases shellArg_cases word with ⟨-, hsimple, heq⟩ | ⟨hsimple, rest, heq⟩
  · simp only [argWord, Word.isAssignment, heq, hsimple, true_and]
  · have hnot : word.all isSimple = true → word = [] := by
      intro hall
      by_contra hne
      exact hsimple ⟨hne, hall⟩
    have hquote : assigns (39 :: rest) = false := by
      cases h : assigns (39 :: rest) with
      | false => rfl
      | true =>
        obtain ⟨name, tail, hname, htext⟩ := assigns_iff.mp h
        cases name with
        | nil => cases hname
        | cons c name =>
          cases htext
          cases hname
    have hreserved : (39 :: rest) ∉ reservedWords := fun hin => (reservedWords_spec _ hin).2 rfl
    simp only [argWord, Word.isAssignment, heq, hquote, hreserved, Bool.false_eq_true, false_iff]
    constructor
    · rintro ⟨hall, hassigns⟩
      rw [hnot hall, hempty.1] at hassigns
      cases hassigns
    · rintro ⟨hall, hin⟩
      rw [hnot hall] at hin
      exact hempty.2 hin

theorem takeWhile_eq_nil_iff {words : List Word} : words.takeWhile Word.isAssignment = [] ↔
    ∀ w, words.head? = some w → w.isAssignment = false := by
  cases words with
  | nil => simp
  | cons w words => cases h : w.isAssignment <;> simp [h]

/-- The assignments among printed words. -/
theorem printed_assignments {env : List Bytes} (argv : List Bytes) (henv : ∀ item ∈ env, assigns item = true) :
    (((env.map envWord ++ argv.map argWord).takeWhile Word.isAssignment).map Word.value,
      ((env.map envWord ++ argv.map argWord).dropWhile Word.isAssignment).map Word.value) =
        (env, argv) ↔
      ∀ word, argv.head? = some word → ¬(word.all isSimple = true ∧ assigns word = true) := by
  have hall : ∀ w ∈ env.map envWord, w.isAssignment = true := by
    intro w hw
    obtain ⟨item, hitem, rfl⟩ := List.mem_map.mp hw
    exact (isAssignment_envWord (henv item hitem)).1
  have henvValue : (env.map envWord).map Word.value = env := by
    rw [List.map_map]
    exact List.map_id' env
  have hargvValue : (argv.map argWord).map Word.value = argv := by
    rw [List.map_map]
    exact List.map_id' argv
  rw [List.takeWhile_append_of_pos hall, List.dropWhile_append_of_pos hall, List.map_append, henvValue]
  have hhead : (∀ w, (argv.map argWord).head? = some w → w.isAssignment = false) ↔
      ∀ word, argv.head? = some word → ¬(word.all isSimple = true ∧ assigns word = true) := by
    cases argv with
    | nil => simp
    | cons word argv =>
      have hword := (argWord_iff word).1
      simp only [List.map_cons, List.head?_cons, Option.some.injEq, forall_eq', ← hword,
        Bool.not_eq_true]
  rw [← hhead, ← takeWhile_eq_nil_iff]
  constructor
  · intro h
    have hfirst := congrArg Prod.fst h
    dsimp only at hfirst
    exact List.map_eq_nil_iff.mp (List.append_right_eq_self.mp hfirst)
  · intro h
    have hdrop : (argv.map argWord).dropWhile Word.isAssignment = argv.map argWord := by
      have happend := List.takeWhile_append_dropWhile (p := Word.isAssignment) (l := argv.map argWord)
      rwa [h, List.nil_append] at happend
    rw [h, hdrop, hargvValue, List.map_nil, List.append_nil]

/-- What a shell makes of a printed environment and printed words. -/
theorem simpleCommand_printed {env : List Bytes} (argv : List Bytes)
    (henv : ∀ item ∈ env, assigns item = true) :
    simpleCommand (env.map envWord ++ argv.map argWord) = some (env, argv) ↔
      (env ≠ [] ∨ argv ≠ []) ∧ ∀ word, argv.head? = some word → word.all isSimple = true →
        assigns word = false ∧ (env = [] → word ∉ reservedWords) := by
  have hsimple : ∀ w ws, simpleCommand (w :: ws) =
      if w.raw ∈ reservedWords then none
      else some (((w :: ws).takeWhile Word.isAssignment).map Word.value,
        ((w :: ws).dropWhile Word.isAssignment).map Word.value) := fun w ws => rfl
  have hprinted := printed_assignments argv henv
  cases env with
  | nil =>
    cases argv with
    | nil => simp [simpleCommand]
    | cons word argv =>
      have hreserved := (argWord_iff word).2
      rw [List.map_nil, List.nil_append, List.map_cons] at hprinted ⊢
      rw [hsimple]
      by_cases hin : (argWord word).raw ∈ reservedWords
      · rw [if_pos hin]
        have hword := hreserved.mp hin
        refine iff_of_false (Option.some_ne_none _).symm ?_
        rintro ⟨-, hfirst⟩
        exact (hfirst word rfl hword.1).2 rfl hword.2
      · rw [if_neg hin, Option.some.injEq, hprinted]
        have hnot : ¬(word.all isSimple = true ∧ word ∈ reservedWords) := mt hreserved.mpr hin
        simp only [List.head?_cons, Option.some.injEq, forall_eq', not_and, Bool.not_eq_true] at hnot ⊢
        simp only [ne_eq, not_true_eq_false, reduceCtorEq, not_false_eq_true, or_true, forall_const,
          true_and]
        tauto
  | cons item env =>
    have hin := (isAssignment_envWord (henv item List.mem_cons_self)).2
    rw [List.map_cons, List.cons_append] at hprinted ⊢
    rw [hsimple, if_neg hin, Option.some.injEq, hprinted]
    simp

/-- The line of a command, with the directories it makes first. -/
def plainLine (directories env argv : List Bytes) : Bytes :=
  makeDirectories directories ++ env.flatMap (fun item => (envWord item).raw ++ [32]) ++
    (ascii " ").intercalate (argv.map shellArg)

theorem mapM_simpleCommand_one (words : List Word) :
    [words].mapM simpleCommand = (simpleCommand words).map fun command => [command] := by
  rw [List.mapM_cons, List.mapM_nil]
  cases simpleCommand words with
  | none => rfl
  | some command => rfl

/-- The directories that are made first. -/
theorem makeDirectories_words {directories : List Bytes} (h : directories ≠ []) :
    makeDirectories directories = (([ascii "mkdir", ascii "-p"] ++ directories).map argWord).flatMap
      (fun w => w.raw ++ [32]) ++ ascii "&& " := by
  have hrotate : ∀ words : List Bytes, words.flatMap (fun word => ascii " " ++ shellArg word) ++ [32] =
      32 :: words.flatMap (fun word => shellArg word ++ [32]) := by
    intro words
    induction words with
    | nil => rfl
    | cons word words ih =>
      rw [List.flatMap_cons, List.flatMap_cons, List.append_assoc, ih]
      simp [ascii]
  have hand : ascii " && " = [32] ++ ascii "&& " := rfl
  have hmkdir : shellArg (ascii "mkdir") = ascii "mkdir" := by decide
  have hoption : shellArg (ascii "-p") = ascii "-p" := by decide
  rw [makeDirectories, if_neg h, hand, List.append_assoc, ← List.append_assoc _ [32], hrotate,
    List.flatMap_map]
  simp only [List.cons_append, List.nil_append, List.flatMap_cons, argWord, hmkdir, hoption]
  simp [ascii]

theorem parse_plainLine {directories env argv : List Bytes} (hdirs : ∀ dir ∈ directories, 10 ∉ dir)
    (henv : ∀ item ∈ env, assigns item = true ∧ 10 ∉ item) (hargv : ∀ word ∈ argv, 10 ∉ word) :
    parse (plainLine directories env argv) =
      (simpleCommand (env.map envWord ++ argv.map argWord)).map fun command =>
        makeCommand directories ++ [command] := by
  have henvWords : ∀ w ∈ env.map envWord, Prints w.raw w.value := by
    intro w hw
    obtain ⟨item, hitem, rfl⟩ := List.mem_map.mp hw
    exact prints_envWord (henv item hitem).1 (henv item hitem).2
  have hargWords : ∀ {words : List Bytes}, (∀ word ∈ words, 10 ∉ word) →
      ∀ w ∈ words.map argWord, Prints w.raw w.value := by
    intro words hwords w hw
    obtain ⟨word, hword, rfl⟩ := List.mem_map.mp hw
    exact prints_argWord (hwords word hword)
  have hown : readTokens (.words [] .between)
      (env.flatMap (fun item => (envWord item).raw ++ [32]) ++
        (ascii " ").intercalate (argv.map shellArg)) =
      some ((env.map envWord ++ argv.map argWord).map .word) := by
    have hlast := readTokens_lastWords (hargWords hargv)
    have hraws : (argv.map argWord).map Word.raw = argv.map shellArg := by
      rw [List.map_map]
      rfl
    have henvText : env.flatMap (fun item => (envWord item).raw ++ [32]) =
        (env.map envWord).flatMap fun w => w.raw ++ [32] := by rw [List.flatMap_map]
    rw [hraws] at hlast
    rw [henvText, readTokens_words henvWords, hlast, List.map_append]
    rfl
  have hwords : ∀ words : List Word, splitCommands (words.map .word) = [words] := by
    intro words
    have hsplit := splitCommands_words words []
    rw [List.append_nil] at hsplit
    rw [hsplit]
    simp [splitCommands]
  unfold plainLine parse makeCommand
  by_cases hnone : directories = []
  · rw [if_pos hnone, makeDirectories, if_pos hnone, List.nil_append, hown, Option.bind_some, hwords,
      mapM_simpleCommand_one]
    rfl
  · have hdirWords : ∀ word ∈ [ascii "mkdir", ascii "-p"] ++ directories, 10 ∉ word := by
      intro word hword
      rcases List.mem_append.mp hword with hin | hin
      · have hall : ∀ word ∈ [ascii "mkdir", ascii "-p"], 10 ∉ word := by decide
        exact hall word hin
      · exact hdirs word hin
    rw [if_neg hnone, makeDirectories_words hnone, List.append_assoc, List.append_assoc,
      readTokens_words (hargWords hdirWords), readTokens_andIf, hown, Option.map_some,
      Option.map_some, Option.bind_some, splitCommands_words]
    have hmake : simpleCommand (([ascii "mkdir", ascii "-p"] ++ directories).map argWord) =
        some ([], ascii "mkdir" :: ascii "-p" :: directories) := by
      have hprinted := @simpleCommand_printed [] ([ascii "mkdir", ascii "-p"] ++ directories)
        fun _ hitem => absurd hitem List.not_mem_nil
      rw [List.map_nil, List.nil_append] at hprinted
      refine hprinted.mpr ⟨by simp, ?_⟩
      intro word hword _
      cases hword
      decide
    rw [splitCommands, hwords, List.modifyHead_cons, List.append_nil, List.mapM_cons, hmake,
      mapM_simpleCommand_one]
    cases simpleCommand (env.map envWord ++ argv.map argWord) with
    | none => rfl
    | some command => rfl

/-! ## Commands of statements -/

section Read

variable {vars : Bytes → Bytes} {directories env argv : List Bytes}

theorem evaluates_words {words : List Bytes} (h : ∀ word ∈ words, Unbroken word) :
    Evaluates vars (shellArgvNinjaCommand false words)
      ((ascii " ").intercalate (words.map shellArg)) := by
  have hblank : Evaluates vars (ascii " ") (ascii " ") := evaluates_plain (by decide)
  have htext : shellArgvNinjaCommand false words = (ascii " ").intercalate (words.map ninjaShellArg) := by
    simp [shellArgvNinjaCommand]
  rw [htext]
  induction words with
  | nil => exact .nil
  | cons word words ih =>
    have hword : Evaluates vars (ninjaShellArg word) (shellArg word) :=
      evaluates_ninjaShellArg (h word List.mem_cons_self)
    cases words with
    | nil => simpa using hword
    | cons next words =>
      have hrest := ih (fun w hw => h w (List.mem_cons_of_mem _ hw)) (by simp [shellArgvNinjaCommand])
      simp only [List.map_cons, List.intercalate_cons_cons] at hrest ⊢
      exact (hword.append hblank).append hrest

/-- What follows the directories is given to the shell with its dollars as they were. -/
theorem evaluates_own (henv : ∀ item ∈ env, assigns item = true ∧ Unbroken item)
    (hargv : ∀ word ∈ argv, Unbroken word) :
    Evaluates vars (shellEnvPrefix false env ++ shellArgvNinjaCommand false argv)
      (env.flatMap (fun item => (envWord item).raw ++ [32]) ++
        (ascii " ").intercalate (argv.map shellArg)) := by
  refine Evaluates.append ?_ (evaluates_words hargv)
  refine evaluates_flatMap fun item hitem => ?_
  have hblank : Evaluates vars (ascii " ") [32] := evaluates_plain (by decide)
  exact (evaluates_envItem (henv item hitem).1 (henv item hitem).2).append hblank

theorem evaluates_makeDirectories (h : ∀ dir ∈ directories, PlainPath dir) :
    Evaluates vars (makeDirectories directories) (makeDirectories directories) := by
  unfold makeDirectories
  split
  · exact .nil
  · have hopen : Evaluates vars (ascii "mkdir -p") (ascii "mkdir -p") := evaluates_plain (by decide)
    have hand : Evaluates vars (ascii " && ") (ascii " && ") := evaluates_plain (by decide)
    have hblank : Evaluates vars (ascii " ") (ascii " ") := evaluates_plain (by decide)
    refine (hopen.append (evaluates_flatMap fun dir hdir => ?_)).append hand
    exact hblank.append (evaluates_shellArg (h dir hdir))

/-- The line a shell is given when there is nothing in it that is read otherwise. -/
theorem eval_plainLine (hdirs : ∀ dir ∈ directories, PlainPath dir)
    (henv : ∀ item ∈ env, assigns item = true ∧ Unbroken item) (hargv : ∀ word ∈ argv, Unbroken word) :
    eval vars (makeDirectories directories ++
        (shellEnvPrefix false env ++ shellArgvNinjaCommand false argv)) =
      some (plainLine directories env argv) := by
  have hmake : Evaluates vars (makeDirectories directories) (makeDirectories directories) :=
    evaluates_makeDirectories hdirs
  have htext := hmake.append (evaluates_own henv hargv)
  rw [plainLine, List.append_assoc]
  exact htext.eval

theorem count_intercalate {c : UInt8} (hc : c ≠ 32) (words : List Bytes) :
    ((ascii " ").intercalate words).count c = words.flatten.count c := by
  have hblank : (ascii " ").count c = 0 := List.count_eq_zero.mpr (by simp [ascii, hc])
  induction words with
  | nil => rfl
  | cons word words ih =>
    cases words with
    | nil => simp
    | cons next words =>
      rw [List.intercalate_cons_cons, List.count_append, List.count_append, ih, hblank,
        List.flatten_cons (l := word), List.count_append, Nat.add_zero]

theorem count_flatMap_eq {c : UInt8} {f : Bytes → Bytes} {words : List Bytes}
    (h : ∀ word ∈ words, (f word).count c = word.count c) :
    (words.flatMap f).count c = words.flatten.count c := by
  induction words with
  | nil => rfl
  | cons word words ih =>
    rw [List.flatMap_cons, List.flatten_cons, List.count_append, List.count_append,
      h word List.mem_cons_self, ih fun w hw => h w (List.mem_cons_of_mem _ hw)]

theorem isKept_ne_blank {c : UInt8} (h : isKept c = true) : c ≠ 32 := by
  rintro rfl
  cases h

/-- The bytes of the words of a command. -/
theorem count_own {c : UInt8} (hc : isKept c = true) (henv : ∀ item ∈ env, assigns item = true) :
    (env.flatMap (fun item => (envWord item).raw ++ [32]) ++
      (ascii " ").intercalate (argv.map shellArg)).count c =
        env.flatten.count c + argv.flatten.count c := by
  have hblank := isKept_ne_blank hc
  have hitem : ∀ item ∈ env, ((envWord item).raw ++ [32]).count c = item.count c := by
    intro item hin
    obtain ⟨name, rest, hname, rfl⟩ := assigns_iff.mp (henv item hin)
    rw [(envWord_raw hname rest).1]
    simp [List.count_append, List.count_cons, count_shellArg hc, Ne.symm hblank]
  rw [List.count_append, count_flatMap_eq hitem, count_intercalate hblank, ← List.flatMap_def,
    count_flatMap_eq fun word _ => count_shellArg hc word]

theorem mem_shellArg {c : UInt8} (hc : c ≠ 39) {s : Bytes} (h : c ∈ s) : c ∈ shellArg s := by
  rw [shellArg_eq, QStar.Lib.ShellWords.quoteWord]
  split
  · exact h
  · refine List.mem_cons_of_mem _ (List.mem_append_left _ (List.mem_flatMap.mpr ⟨c, h, ?_⟩))
    simp [QStar.Lib.ShellWords.quoteByte, hc]

theorem plainPath_of_shellArg {path : Bytes} (hdollar : 36 ∉ shellArg path)
    (hbreak : Unbroken (shellArg path)) : PlainPath path := by
  intro c hc
  refine ⟨?_, ?_, ?_⟩
  · rintro rfl
    exact hdollar (mem_shellArg (by decide) hc)
  · rintro rfl
    exact (hbreak _ (mem_shellArg (by decide) hc)).1 rfl
  · rintro rfl
    exact (hbreak _ (mem_shellArg (by decide) hc)).2 rfl

theorem harmless_headerVariables (g : Graph) : Harmless (headerVariables g) := by
  intro name
  unfold headerVariables
  split
  · right
    decide
  · split
    · left
      simp [buildPath, ascii]
    · right
      simp

theorem unbroken_of_envReadable {item : Bytes} (hitem : assigns item = true)
    (h : EnvReadable false item) : Unbroken item := by
  obtain ⟨name, rest, hname, rfl⟩ := assigns_iff.mp hitem
  have hhead : (name ++ 61 :: rest).head? ≠ some 61 := by
    cases name with
    | nil => cases hname
    | cons c name =>
      intro heq
      cases heq
      exact not_isName_of_mem List.mem_cons_self hname
  have hquoted : ¬(false = true ∨ 61 ∉ name ++ 61 :: rest ∨ (name ++ 61 :: rest).head? = some 61) := by
    rintro (hfalse | hno | hfirst)
    · cases hfalse
    · exact hno (by simp)
    · exact hhead hfirst
  rw [EnvReadable, if_neg hquoted] at h
  have hname := h.1.unbroken
  intro c hc
  rw [← List.takeWhile_append_dropWhile (p := fun c => decide (c ≠ 61)) (l := name ++ 61 :: rest)] at hc
  rcases List.mem_append.mp hc with hc | hc
  · exact hname c hc
  · exact h.2 c hc

/-- No dollar stands in the directories when the line that is read has as many slashes and dollars
as the words that are meant. -/
theorem no_dollar_of_read (g : Graph) {line : Bytes} (henv : ∀ item ∈ env, assigns item = true ∧ Unbroken item)
    (hargv : ∀ word ∈ argv, Unbroken word)
    (heval : eval (headerVariables g) (makeDirectories directories ++
      (shellEnvPrefix false env ++ shellArgvNinjaCommand false argv)) = some line)
    (hparse : parse line = some (makeCommand directories ++ [(env, argv)])) :
    ∀ dir ∈ directories, 36 ∉ shellArg dir := by
  by_cases hnone : directories = []
  · rw [hnone]
    nofun
  have hstop : Stops 38 := ⟨by decide, by decide, fun _ => by simp [valueStep, nameByte]⟩
  have hblank : Evaluates (headerVariables g) [32] [32] := evaluates_byte (by decide)
  have hown := (hblank.append (evaluates_own henv hargv)).eval
  have hmake : makeCommand directories = [([], ascii "mkdir" :: ascii "-p" :: directories)] := by
    rw [makeCommand, if_neg hnone]
  have htext : makeDirectories directories =
      (ascii "mkdir -p" ++ directories.flatMap (fun dir => ascii " " ++ shellArg dir) ++ ascii " &") ++
        38 :: [32] := by
    rw [makeDirectories, if_neg hnone, List.append_assoc _ (ascii " &")]
    rfl
  generalize hstart : ascii "mkdir -p" ++ directories.flatMap (fun dir => ascii " " ++ shellArg dir) ++
    ascii " &" = start at htext
  rw [htext, List.append_assoc, List.cons_append, eval, evalFrom_stop hstop] at heval
  obtain ⟨value, hvalue, heval⟩ := Option.bind_eq_some_iff.mp heval
  rw [eval] at hown
  rw [hown] at heval
  cases heval
  have hcounts : ∀ c, isKept c = true → c ≠ 38 → c ∉ ascii "mkdir -p && " →
      value.count c = (start ++ [38]).count c := by
    intro c hc hand hother
    have hcount := count_parse hc hand hparse
    have hwords := @count_own env argv c hc fun item hitem => (henv item hitem).1
    have hblank := isKept_ne_blank hc
    have hdirs : (directories.flatMap fun dir => ascii " " ++ shellArg dir).count c =
        directories.flatten.count c := by
      refine count_flatMap_eq fun dir _ => ?_
      have hspace : (ascii " ").count c = 0 := List.count_eq_zero.mpr (by simp [ascii, hblank])
      rw [List.count_append, count_shellArg hc, hspace, Nat.zero_add]
    have hzero : (ascii "mkdir").count c = 0 ∧ (ascii "-p").count c = 0 ∧ (ascii "mkdir -p").count c = 0 ∧
        (ascii " &").count c = 0 := by
      have hno : ∀ part : Bytes, (∀ b ∈ part, b ∈ ascii "mkdir -p && ") → part.count c = 0 :=
        fun part hpart => List.count_eq_zero.mpr fun hin => hother (hpart c hin)
      exact ⟨hno _ (by decide), hno _ (by decide), hno _ (by decide), hno _ (by decide)⟩
    rw [hmake] at hcount
    simp only [List.flatMap_append, List.flatMap_cons, List.flatMap_nil, List.flatten_cons,
      List.flatten_nil, List.nil_append, List.append_nil, List.count_append, hzero.1, hzero.2.1] at hcount
    have hspace : [(32 : UInt8)].count c = 0 := List.count_eq_zero.mpr (by simpa using hblank)
    have hlast : [(38 : UInt8)].count c = 0 := List.count_eq_zero.mpr (by simpa using hand)
    have hstartCount : start.count c = directories.flatten.count c := by
      rw [← hstart, List.count_append, List.count_append, hdirs, hzero.2.2.1, hzero.2.2.2]
      omega
    rw [List.count_append] at hwords
    rw [List.count_append, hstartCount, hlast]
    omega
  have hslash := hcounts 47 (by decide) (by decide) (by decide)
  have hdollar := hcounts 36 (by decide) (by decide) (by decide)
  have hnone := not_mem_of_eval_self (harmless_headerVariables g) hvalue hslash hdollar
  intro dir hdir hmem
  apply hnone
  rw [← hstart]
  simp only [List.mem_append, List.mem_flatMap]
  exact Or.inl (Or.inl (Or.inr ⟨dir, hdir, Or.inr hmem⟩))

/-- A command is read with its directories, its environment and its words exactly when no
directory has a dollar or a line break and the command is plain. -/
theorem shellReads_command_iff (g : Graph) : shellReads g (makeDirectories directories ++
      (shellEnvPrefix false env ++ shellArgvNinjaCommand false argv)) =
        some (makeCommand directories ++ [(env, argv)]) ↔
      (∀ dir ∈ directories, PlainPath dir) ∧ PlainCommand env argv := by
  have hforward : (∀ dir ∈ directories, PlainPath dir) →
      (∀ item ∈ env, assigns item = true ∧ Unbroken item) → (∀ word ∈ argv, Unbroken word) →
      (shellReads g (makeDirectories directories ++
        (shellEnvPrefix false env ++ shellArgvNinjaCommand false argv)) =
          some (makeCommand directories ++ [(env, argv)]) ↔
        simpleCommand (env.map envWord ++ argv.map argWord) = some (env, argv)) := by
    intro hdirs henv hargv
    rw [shellReads, eval_plainLine hdirs henv hargv, Option.bind_some, parse_plainLine
      (fun dir hdir hin => (hdirs dir hdir 10 hin).2.1 rfl)
      (fun item hitem => ⟨(henv item hitem).1, fun hin => ((henv item hitem).2 10 hin).1 rfl⟩)
      (fun word hword hin => (hargv word hword 10 hin).1 rfl)]
    constructor
    · intro h
      obtain ⟨command, hcommand, heq⟩ := Option.map_eq_some_iff.mp h
      have hlast := List.append_cancel_left heq
      rw [hcommand, List.singleton_inj.mp hlast]
    · intro h
      rw [h]
      rfl
  constructor
  · intro h
    obtain ⟨line, heval, hparse⟩ := Option.bind_eq_some_iff.mp h
    have hassigns : ∀ item ∈ env, assigns item = true := fun item hitem =>
      assigns_of_parse hparse (List.mem_append_right _ List.mem_cons_self) hitem
    have hvalue : IsValue (makeDirectories directories ++
        (shellEnvPrefix false env ++ shellArgvNinjaCommand false argv)) := by
      rw [← eval_isSome (headerVariables g), heval]
      rfl
    obtain ⟨hclosedDirs, hdirsIff⟩ := isValue_makeDirectories_iff directories
    obtain ⟨hclosedEnv, henvIff⟩ := isValue_shellEnvPrefix_iff false env
    rw [isValue_append_iff hclosedDirs, isValue_append_iff hclosedEnv, hdirsIff, henvIff,
      isValue_command_iff] at hvalue
    obtain ⟨hdirsValue, henvValue, hargv⟩ := hvalue
    have henv : ∀ item ∈ env, assigns item = true ∧ Unbroken item := fun item hitem =>
      ⟨hassigns item hitem, unbroken_of_envReadable (hassigns item hitem) (henvValue item hitem)⟩
    have hdollar := no_dollar_of_read g henv hargv heval hparse
    have hdirs : ∀ dir ∈ directories, PlainPath dir := fun dir hdir =>
      plainPath_of_shellArg (hdollar dir hdir) (hdirsValue dir hdir).unbroken
    obtain ⟨hsome, hfirst⟩ :=
      (simpleCommand_printed argv hassigns).mp ((hforward hdirs henv hargv).mp h)
    exact ⟨hdirs, hassigns, fun item hitem => (henv item hitem).2, hargv, hsome, hfirst⟩
  · rintro ⟨hdirs, hassigns, hunbroken, hargv, hsome, hfirst⟩
    have henv : ∀ item ∈ env, assigns item = true ∧ Unbroken item :=
      fun item hitem => ⟨hassigns item hitem, hunbroken item hitem⟩
    exact (hforward hdirs henv hargv).mpr ((simpleCommand_printed argv hassigns).mpr ⟨hsome, hfirst⟩)

/-- A path in words that Ninja reads as they were has no dollar. -/
theorem no_dollar_of_counts (g : Graph) {text line : Bytes} (heval : eval (headerVariables g) text = some line)
    (hcounts : ∀ c, isKept c = true → c ≠ 38 → c ∉ ascii "sh" → line.count c = text.count c) : 36 ∉ text :=
  not_mem_of_eval_self (harmless_headerVariables g) heval
    (hcounts 47 (by decide) (by decide) (by decide)) (hcounts 36 (by decide) (by decide) (by decide))

/-- The path of a script is read exactly when it has no dollar and no line break. -/
theorem shellReads_script_iff (g : Graph) (path : Bytes) :
    shellReads g (shellArgv [ascii "sh", path]) = some [([], [ascii "sh", path])] ↔ PlainPath path := by
  have htext : shellArgv [ascii "sh", path] = ascii "sh " ++ shellArg path := by
    have hsh : shellArg (ascii "sh") = ascii "sh" := by decide
    rw [shellArgv, List.map_cons, List.map_cons, List.map_nil, hsh, List.intercalate_cons_cons,
      List.intercalate_singleton]
    rfl
  constructor
  · intro h
    obtain ⟨line, heval, hparse⟩ := Option.bind_eq_some_iff.mp h
    have hvalue : IsValue (shellArgv [ascii "sh", path]) := by
      rw [← eval_isSome (headerVariables g), heval]
      rfl
    have hdollar := no_dollar_of_counts g heval fun c hc hand hother => by
      have hcount := count_parse hc hand hparse
      have hsh : (ascii "sh ").count c = 0 := by
        have hblank := isKept_ne_blank hc
        refine List.count_eq_zero.mpr fun hin => ?_
        rw [show ascii "sh " = ascii "sh" ++ [32] from rfl] at hin
        rcases List.mem_append.mp hin with hin | hin
        · exact hother hin
        · exact hblank (List.mem_singleton.mp hin)
      have hzero := List.count_eq_zero.mpr hother
      rw [htext, List.count_append, hsh, count_shellArg hc, ← hcount]
      simp [hzero]
    rw [htext] at hdollar hvalue
    have hunbroken := hvalue.unbroken
    exact plainPath_of_shellArg (fun hin => hdollar (List.mem_append_right _ hin))
      fun c hc => hunbroken c (List.mem_append_right _ hc)
  · intro h
    have hunbroken : ∀ word ∈ [ascii "sh", path], 10 ∉ word := by
      intro word hword
      rcases List.mem_cons.mp hword with rfl | hword
      · decide
      · rw [List.mem_singleton.mp hword]
        exact fun hin => (h 10 hin).2.1 rfl
    have hsh : Evaluates (headerVariables g) (ascii "sh ") (ascii "sh ") := evaluates_plain (by decide)
    have hpath : Evaluates (headerVariables g) (shellArg path) (shellArg path) := evaluates_shellArg h
    have heval := (hsh.append hpath).eval
    have hline : plainLine [] [] [ascii "sh", path] = ascii "sh " ++ shellArg path := htext
    have hparse := @parse_plainLine [] [] [ascii "sh", path] (fun _ hin => absurd hin List.not_mem_nil)
      (fun _ hin => absurd hin List.not_mem_nil) hunbroken
    have hcommand : simpleCommand ([].map envWord ++ [ascii "sh", path].map argWord) =
        some ([], [ascii "sh", path]) := by
      refine (simpleCommand_printed _ fun _ hin => absurd hin List.not_mem_nil).mpr ⟨by simp, ?_⟩
      intro word hword _
      cases hword
      decide
    rw [hline, hcommand] at hparse
    rw [shellReads, htext, heval, Option.bind_some, hparse]
    rfl

/-- The directory of an output is read exactly when it has no dollar and no line break. -/
theorem outDir_read_iff (g : Graph) (dir : Bytes) :
    (eval (headerVariables g) (shellArg dir)).bind QStar.Lib.ShellWords.split = some [dir] ↔
      PlainPath dir := by
  constructor
  · intro h
    obtain ⟨line, heval, hsplit⟩ := Option.bind_eq_some_iff.mp h
    have hvalue : IsValue (shellArg dir) := by
      rw [← eval_isSome (headerVariables g), heval]
      rfl
    have hdollar := no_dollar_of_counts g heval fun c hc _ _ => by
      have hcount := QStar.Lib.ShellWords.count_split hc hsplit
      rw [count_shellArg hc, ← hcount]
      simp
    exact plainPath_of_shellArg hdollar hvalue.unbroken
  · intro h
    have hdir : Evaluates (headerVariables g) (shellArg dir) (shellArg dir) := evaluates_shellArg h
    have heval := hdir.eval
    rw [heval, Option.bind_some, QStar.Lib.ShellWords.split, run_shellArg]
    rfl

end Read

/-- The statements whose words reach the shell as they are: no directory, no output directory and
no script path has a dollar or a line break, and the command is plain unless the cache had it. -/
def Statement.WordsPlain (pr : Printing) (s : Statement) : Prop :=
  match s.command with
  | .phony => True
  | .process c =>
    (∀ dir ∈ s.directories, PlainPath dir) ∧
      (pr.cacheHit s = false → PlainCommand c.env (pr.execArgv c)) ∧
      ∀ dir, s.outDir = some dir → PlainPath dir
  | .script path _ => PlainPath path

theorem plainCommand_colon : PlainCommand [] [ascii ":"] where
  assigns := nofun
  env_unbroken := nofun
  argv_unbroken := by decide
  some_word := Or.inr (by simp)
  first word hword _ := by
    cases hword
    decide

/-- On a POSIX platform the shell is given the environment, the words and the paths of a statement
exactly when they are plain. -/
theorem command_read_iff (pr : Printing) (g : Graph) (s : Statement) (hposix : isWindows g = false) :
    s.CommandRead pr g ↔ s.WordsPlain pr := by
  unfold Statement.CommandRead Statement.WordsPlain Statement.variable Statement.variables
  cases s.command with
  | phony => exact Iff.rfl
  | process c =>
    have hvalue : makeDirectories s.directories ++ writeEdgeCommand pr (isWindows g) s c =
        makeDirectories s.directories ++ (shellEnvPrefix false (ownCommand pr s c).1 ++
          shellArgvNinjaCommand false (ownCommand pr s c).2) := by
      rw [hposix, writeEdgeCommand, ownCommand]
      cases pr.cacheHit s with
      | true => rfl
      | false => rfl
    have hown : PlainCommand (ownCommand pr s c).1 (ownCommand pr s c).2 ↔
        (pr.cacheHit s = false → PlainCommand c.env (pr.execArgv c)) := by
      rw [ownCommand]
      cases pr.cacheHit s with
      | true => exact iff_of_true plainCommand_colon nofun
      | false => exact ⟨fun h _ => h, fun h => h rfl⟩
    have houtDir : ∀ dir, s.outDir = some dir →
        List.lookup (ascii "out_dir") ((ascii "command",
          makeDirectories s.directories ++ writeEdgeCommand pr (isWindows g) s c) ::
          (s.depfile.toList.map fun depfile => (ascii "depfile", QStar.Lib.NinjaEdges.escape depfile)) ++
          (s.outDir.toList.map fun dir => (ascii "out_dir", shellArg dir)) ++
          [(ascii "description", ninjaVarText (pr.description s)), (ascii "qstar_action_id", s.id)]) =
        some (shellArg dir) := by
      intro dir hdir
      rw [hdir]
      cases s.depfile with
      | none => rfl
      | some depfile => rfl
    dsimp only
    rw [List.cons_append, List.cons_append, List.lookup_cons_self, Option.bind_some, hvalue,
      shellReads_command_iff, hown, and_assoc]
    refine and_congr_right fun _ => and_congr_right fun _ => ?_
    refine forall_congr' fun dir => forall_congr' fun hdir => ?_
    rw [← outDir_read_iff g dir, ← hvalue]
    have hlookup := houtDir dir hdir
    rw [List.cons_append, List.cons_append] at hlookup
    rw [hlookup, Option.bind_some]
  | script path argv =>
    dsimp only
    rw [List.lookup_cons_self, Option.bind_some]
    exact shellReads_script_iff g path

/-- A generated action whose output stands in a directory with a dollar. -/
def dollarAction : Genrule where
  label := ascii "//:copy"
  tool := ascii "scripts/copy"
  toolset := []
  configHeader := false
  inputs := [ascii "in.txt"]
  outputs := [ascii "build/gen/$x/out.txt"]
  outputGroups := []
  outputFormats := []
  args := [ascii "in.txt", ascii "build/gen/$x/out.txt"]
  label_ne := by decide
  outputs_ne := by decide

theorem command_read_iff_dollarAction :
    ∃ s, emitGenruleEdge apiGraph none dollarAction = .ok s ∧
      (s.CommandRead plainPrinting apiGraph ↔ s.WordsPlain plainPrinting) := by
  obtain ⟨s, hs⟩ := exists_eq_ok (x := emitGenruleEdge apiGraph none dollarAction) (by decide)
  exact ⟨s, hs, command_read_iff plainPrinting apiGraph s rfl⟩

/-- The words of the command double their dollars and the word of the directory does not, so that
`mkdir` is given the directory without `$x`. -/
theorem directory_with_dollar_not_read :
    isWindows apiGraph = false ∧ ∃ s, emitGenruleEdge apiGraph none dollarAction = .ok s ∧
      ¬s.CommandRead plainPrinting apiGraph := by
  obtain ⟨s, hs⟩ := exists_eq_ok (x := emitGenruleEdge apiGraph none dollarAction) (by decide)
  refine ⟨rfl, s, hs, ?_⟩
  obtain ⟨argv, hargv, hrest⟩ := bind_eq_ok.mp hs
  obtain ⟨sections, hsections, heq⟩ := bind_eq_ok.mp hrest
  cases heq
  intro hread
  have hplain := ((shellReads_command_iff apiGraph).mp hread.1).1
    (ascii "build/gen/$x") List.mem_cons_self
  exact absurd rfl (hplain 36 (by decide)).1

end QStar.Ninja
