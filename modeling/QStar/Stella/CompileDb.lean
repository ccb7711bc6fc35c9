import QStar.Lib.JsonReader
import QStar.Stella.ReplayLog

/-!
# The compile database

Each compile command is kept as one shell command, joined in a buffer of a computed size, and
all are written as a JSON array. Control characters without an escape of their own are
written as they are, which no JSON text may hold.
-/
namespace QStar.Stella.CompileDb

open QStar.Lib
open QStar.Lib.CStrings
open QStar.Lib.ShellWords
open QStar.Lib.JsonReader
open QStar.Stella.ReplayLog (isSimpleArg isInert_of_isSimpleArg)

/-- What a compile action adds to the database. -/
structure CompileRecord where
  directory : Bytes
  file : Bytes
  output : Bytes
  argv : List Bytes
  deriving DecidableEq

/-- `struct qstar_compile_record` -/
structure StoredRecord where
  directory : Bytes
  file : Bytes
  output : Bytes
  command : Bytes

/-! ## Joining -/

/-- The size of the buffer. -/
def joinSize (argv : List Bytes) : Nat := argv.foldl (fun len arg => len + (arg.length * 4 + 4)) 1

/-- Bytes put behind those that are used; `none` past the end of the buffer. -/
def put (size : Nat) (s t : Bytes) : Option Bytes :=
  if s.length + t.length ≤ size then some (s ++ t) else none

def joinArg (size : Nat) (s arg : Bytes) : Option Bytes :=
  if arg ≠ [] ∧ arg.all isSimpleArg = true then arg.foldlM (fun s c => put size s [c]) s
  else do
    let s ← put size s [39]
    let s ← arg.foldlM (fun s c => put size s (if c = 39 then ascii "'\\''" else [c])) s
    put size s [39]

/-- The loop over the arguments, and the end of the string. -/
def joinArgs (size : Nat) : Nat → Bytes → List Bytes → Option Bytes
  | _, s, [] => put size s [0]
  | i, s, arg :: rest => do
    let s ← if i = 0 then some s else put size s [32]
    let s ← joinArg size s arg
    joinArgs size (i + 1) s rest

/-- `join_argv`: the buffer it fills; `none` where it would write past its end. -/
def joinArgv (argv : List Bytes) : Option Bytes := joinArgs (joinSize argv) 0 [] argv

/-! ## Writing -/

def escapeByte (c : UInt8) : Bytes :=
  if c = 34 ∨ c = 92 then [92, c]
  else if c = 10 then ascii "\\n"
  else if c = 13 then ascii "\\r"
  else if c = 9 then ascii "\\t"
  else [c]

/-- `json_string` -/
def jsonString (s : Bytes) : Bytes := 34 :: (s.flatMap escapeByte ++ [34])

/-- `compile_db_push` -/
def compileDbPush (r : CompileRecord) : Option StoredRecord :=
  (joinArgv r.argv).map fun buf => ⟨r.directory, r.file, r.output, cString buf⟩

def writeRecord (r : StoredRecord) : Bytes :=
  ascii "  \x7b\"directory\":" ++ jsonString r.directory ++ (ascii ",\"file\":" ++ jsonString r.file ++
    (ascii ",\"output\":" ++ jsonString r.output ++ (ascii ",\"command\":" ++ jsonString r.command ++
      ascii "\x7d")))

def writeRecords : List StoredRecord → Bytes
  | [] => []
  | r :: rest => writeRecord r ++ (ascii (if rest.isEmpty then "\n" else ",\n") ++ writeRecords rest)

/-- `compile_db_write` of the records of a build -/
def compileDbWrite (records : List CompileRecord) : Option Bytes := do
  let stored ← records.mapM compileDbPush
  return ascii "[\n" ++ (writeRecords stored ++ ascii "]\n")

/-! ## What a reader of the database makes of it -/

/-- A member with a string. -/
def stringMember (members : List (Bytes × Value)) (name : Bytes) : Option Bytes :=
  match members.lookup name with
  | some (.str s) => some s
  | _ => none

/-- An entry of the database, its command split into words. -/
def decodeRecord : Value → Option CompileRecord
  | .obj members => do
    let directory ← stringMember members (ascii "directory")
    let file ← stringMember members (ascii "file")
    let output ← stringMember members (ascii "output")
    let command ← stringMember members (ascii "command")
    let argv ← split command
    return ⟨directory, file, output, argv⟩
  | _ => none

def decodeDb (text : Bytes) : Option (List CompileRecord) :=
  match parse text with
  | some (.arr items) => items.mapM decodeRecord
  | _ => none

/-- A text that JSON can hold but for quotes and backslashes. -/
def Clean (s : Bytes) : Prop := Utf8.Valid s ∧ ∀ c ∈ s, Fine c

/-! ## The buffer -/

theorem foldlM_put (size : Nat) (f : UInt8 → Bytes) (s t : Bytes)
    (h : s.length + (t.flatMap f).length ≤ size) :
    t.foldlM (fun s c => put size s (f c)) s = some (s ++ t.flatMap f) := by
  induction t generalizing s with
  | nil => simp
  | cons c t ih =>
    rw [List.flatMap_cons, List.length_append] at h
    have hput : put size s (f c) = some (s ++ f c) := if_pos (by omega)
    rw [List.foldlM_cons, hput, Option.bind_eq_bind, Option.bind_some,
      ih _ (by rw [List.length_append]; omega)]
    simp

theorem length_quoteByte (c : UInt8) : (quoteByte c).length ≤ 4 := by
  unfold quoteByte
  split
  · decide
  · exact Nat.succ_le_succ (Nat.zero_le 3)

theorem length_quoteWord (arg : Bytes) :
    (quoteWord isSimpleArg arg).length ≤ arg.length * 4 + 2 := by
  have hinside : (arg.flatMap quoteByte).length ≤ arg.length * 4 := by
    induction arg with
    | nil => simp
    | cons c arg ih =>
      have hbyte := length_quoteByte c
      rw [List.flatMap_cons, List.length_append, List.length_cons]
      omega
  unfold quoteWord
  split
  · omega
  · simp only [List.length_cons, List.length_append, List.length_nil]
    omega

theorem joinArg_eq (size : Nat) (s arg : Bytes)
    (h : s.length + (quoteWord isSimpleArg arg).length ≤ size) :
    joinArg size s arg = some (s ++ quoteWord isSimpleArg arg) := by
  unfold joinArg
  unfold quoteWord at h ⊢
  by_cases hsimple : arg ≠ [] ∧ arg.all isSimpleArg = true
  · rw [if_pos hsimple] at h ⊢
    rw [if_pos hsimple]
    have hfold := foldlM_put size (fun c => [c]) s arg (by simpa using h)
    simpa using hfold
  · rw [if_neg hsimple] at h ⊢
    rw [if_neg hsimple]
    simp only [List.length_cons, List.length_append, List.length_nil] at h
    have hopen : put size s [39] = some (s ++ [39]) := if_pos (by simp; omega)
    have hfold := foldlM_put size quoteByte (s ++ [39]) arg
      (by simp only [List.length_append, List.length_cons, List.length_nil]; omega)
    have hclose : put size (s ++ [39] ++ arg.flatMap quoteByte) [39] =
        some (s ++ [39] ++ arg.flatMap quoteByte ++ [39]) :=
      if_pos (by simp only [List.length_append, List.length_cons, List.length_nil]; omega)
    unfold quoteByte at hfold
    simp only [hopen, Option.bind_eq_bind, Option.bind_some, hfold]
    exact hclose.trans (by simp)

theorem joinSize_eq (argv : List Bytes) (n : Nat) :
    argv.foldl (fun len arg => len + (arg.length * 4 + 4)) n =
      n + (argv.map fun arg => arg.length * 4 + 4).sum := by
  induction argv generalizing n with
  | nil => rfl
  | cons arg argv ih =>
    rw [List.foldl_cons, ih, List.map_cons, List.sum_cons]
    omega

/-- The arguments behind the first, where what they may need still fits. -/
theorem joinArgs_eq {size i : Nat} {s : Bytes} {argv : List Bytes} (hi : i ≠ 0)
    (h : s.length + (argv.map fun arg => arg.length * 4 + 4).sum + 1 ≤ size) :
    joinArgs size i s argv =
      some (s ++ (argv.flatMap fun arg => 32 :: quoteWord isSimpleArg arg) ++ [0]) := by
  induction argv generalizing i s with
  | nil =>
    rw [joinArgs, put, if_pos (by simpa using h)]
    simp
  | cons arg argv ih =>
    rw [List.map_cons, List.sum_cons] at h
    have hlength := length_quoteWord arg
    have hblank : put size s [32] = some (s ++ [32]) :=
      if_pos (by simp only [List.length_cons, List.length_nil]; omega)
    have harg : joinArg size (s ++ [32]) arg = some (s ++ [32] ++ quoteWord isSimpleArg arg) :=
      joinArg_eq _ _ _ (by simp only [List.length_append, List.length_cons, List.length_nil]; omega)
    rw [joinArgs, if_neg hi, hblank]
    simp only [Option.bind_eq_bind, Option.bind_some, harg]
    rw [ih (by omega) (by simp only [List.length_append, List.length_cons, List.length_nil]; omega)]
    simp

/-- The arguments are joined within the buffer. -/
theorem joinArgv_eq (argv : List Bytes) : joinArgv argv = some (quoteWords isSimpleArg argv ++ [0]) := by
  rw [joinArgv, joinSize, joinSize_eq]
  cases argv with
  | nil => rfl
  | cons arg argv =>
    have hlength := length_quoteWord arg
    rw [List.map_cons, List.sum_cons]
    have harg := joinArg_eq
      (1 + (arg.length * 4 + 4 + (argv.map fun arg => arg.length * 4 + 4).sum)) [] arg
      (by simp only [List.length_nil]; omega)
    rw [joinArgs, if_pos rfl]
    simp only [Option.bind_eq_bind, Option.bind_some, harg]
    rw [joinArgs_eq (by omega) (by simp only [List.length_append, List.length_nil]; omega),
      quoteWords_cons]
    simp

/-- The stored command. -/
theorem compileDbPush_eq (r : CompileRecord) : compileDbPush r =
    some ⟨r.directory, r.file, r.output, cString (quoteWords isSimpleArg r.argv ++ [0])⟩ := by
  rw [compileDbPush, joinArgv_eq]
  rfl

/-! ## Which texts JSON can hold -/

theorem clean_nil : Clean [] := ⟨rfl, by simp⟩

theorem clean_append_cons {a b : Bytes} {c : UInt8} (hc : c < 0x80) (hfine : Fine c) :
    Clean (a ++ c :: b) ↔ Clean a ∧ Clean b := by
  unfold Clean
  rw [Utf8.valid_append_cons hc]
  constructor
  · rintro ⟨⟨ha, hb⟩, h⟩
    exact ⟨⟨ha, fun d hd => h d (List.mem_append_left _ hd)⟩,
      hb, fun d hd => h d (List.mem_append_right _ (List.mem_cons_of_mem _ hd))⟩
  · rintro ⟨⟨ha, hafine⟩, hb, hbfine⟩
    refine ⟨⟨ha, hb⟩, fun d hd => ?_⟩
    rcases List.mem_append.mp hd with hd | hd
    · exact hafine d hd
    · rcases List.mem_cons.mp hd with rfl | hd
      · exact hfine
      · exact hbfine d hd

theorem clean_cons {b : Bytes} {c : UInt8} (hc : c < 0x80) (hfine : Fine c) :
    Clean (c :: b) ↔ Clean b := by
  have h := clean_append_cons (a := []) (b := b) hc hfine
  simpa [clean_nil] using h

theorem clean_ascii_append {a b : Bytes} (ha : ∀ c ∈ a, c < 0x80 ∧ Fine c) :
    Clean (a ++ b) ↔ Clean b := by
  induction a with
  | nil => rfl
  | cons c a ih =>
    obtain ⟨hc, hrest⟩ := List.forall_mem_cons.mp ha
    rw [List.cons_append, clean_cons hc.1 hc.2]
    exact ih hrest

/-- Bytes written by other fine bytes, and themselves among them. -/
theorem clean_flatMap {f : UInt8 → Bytes} (hascii : Utf8.WritesAscii f)
    (hfine : ∀ c, (∀ d ∈ f c, Fine d) ↔ Fine c) {s : Bytes} : Clean (s.flatMap f) ↔ Clean s := by
  unfold Clean
  rw [Utf8.valid_flatMap hascii]
  refine and_congr_right fun _ => ⟨fun h c hc => ?_, fun h d hd => ?_⟩
  · exact (hfine c).mp fun d hd => h d (List.mem_flatMap.mpr ⟨c, hc, hd⟩)
  · obtain ⟨c, hc, hd⟩ := List.mem_flatMap.mp hd
    exact (hfine c).mpr (h c hc) d hd

instance (c : UInt8) : Decidable (Fine c) := inferInstanceAs (Decidable (_ → _))

instance (f : UInt8 → Bytes) : Decidable (Utf8.WritesAscii f) :=
  decidable_of_iff (∀ n < 256, (UInt8.ofNat n < 0x80 → f (UInt8.ofNat n) ≠ [] ∧
      ∀ d ∈ f (UInt8.ofNat n), d < 0x80) ∧ (¬UInt8.ofNat n < 0x80 → f (UInt8.ofNat n) = [UInt8.ofNat n]))
    ⟨fun h c => forall_byte (P := fun c => (c < 0x80 → f c ≠ [] ∧ ∀ d ∈ f c, d < 0x80) ∧
      (¬c < 0x80 → f c = [c])) h c, fun h n _ => h (UInt8.ofNat n)⟩

theorem clean_escape {s : Bytes} : Clean (s.flatMap escapeByte) ↔ Clean s :=
  clean_flatMap (by decide +kernel)
    (forall_byte (P := fun c => (∀ d ∈ escapeByte c, Fine d) ↔ Fine c) (by decide +kernel))

theorem clean_quoteBytes {s : Bytes} : Clean (s.flatMap quoteByte) ↔ Clean s :=
  clean_flatMap (by decide +kernel)
    (forall_byte (P := fun c => (∀ d ∈ quoteByte c, Fine d) ↔ Fine c) (by decide +kernel))

/-- A string within a text. -/
theorem clean_jsonString {a s rest : Bytes} (ha : ∀ c ∈ a, c < 0x80 ∧ Fine c) :
    Clean (a ++ jsonString s ++ rest) ↔ Clean s ∧ Clean rest := by
  have hassoc : a ++ jsonString s ++ rest = a ++ 34 :: (s.flatMap escapeByte ++ 34 :: rest) := by
    simp [jsonString]
  rw [hassoc, clean_ascii_append ha, clean_cons (by decide) (by decide),
    clean_append_cons (by decide) (by decide), clean_escape]

theorem clean_writeRecord (r : StoredRecord) (rest : Bytes) : Clean (writeRecord r ++ rest) ↔
    (Clean r.directory ∧ Clean r.file ∧ Clean r.output ∧ Clean r.command) ∧ Clean rest := by
  have h1 : ∀ c ∈ ascii "  \x7b\"directory\":", c < 0x80 ∧ Fine c := by decide
  have h2 : ∀ c ∈ ascii ",\"file\":", c < 0x80 ∧ Fine c := by decide
  have h3 : ∀ c ∈ ascii ",\"output\":", c < 0x80 ∧ Fine c := by decide
  have h4 : ∀ c ∈ ascii ",\"command\":", c < 0x80 ∧ Fine c := by decide
  have h5 : ∀ c ∈ ascii "\x7d", c < 0x80 ∧ Fine c := by decide
  rw [writeRecord, List.append_assoc, List.append_assoc, ← List.append_assoc _ (jsonString _) _,
    clean_jsonString h1, List.append_assoc, List.append_assoc, ← List.append_assoc _ (jsonString _) _,
    clean_jsonString h2, List.append_assoc, List.append_assoc, ← List.append_assoc _ (jsonString _) _,
    clean_jsonString h3, List.append_assoc, List.append_assoc, ← List.append_assoc _ (jsonString _) _,
    clean_jsonString h4, clean_ascii_append h5]
  simp only [and_assoc]

theorem clean_writeRecords {records : List StoredRecord} {rest : Bytes} :
    Clean (writeRecords records ++ rest) ↔
      (∀ r ∈ records, Clean r.directory ∧ Clean r.file ∧ Clean r.output ∧ Clean r.command) ∧
        Clean rest := by
  induction records with
  | nil => simp [writeRecords]
  | cons r records ih =>
    have hend : ∀ c ∈ ascii (if records.isEmpty then "\n" else ",\n"), c < 0x80 ∧ Fine c := by
      cases records with
      | nil => exact (by decide : ∀ c ∈ ascii "\n", c < 0x80 ∧ Fine c)
      | cons => exact (by decide : ∀ c ∈ ascii ",\n", c < 0x80 ∧ Fine c)
    rw [writeRecords, List.append_assoc, clean_writeRecord, List.append_assoc,
      clean_ascii_append hend, ih, List.forall_mem_cons]
    simp only [and_assoc]

/-- A quoted argument is as clean as the argument. -/
theorem clean_quoteWord {arg : Bytes} : Clean (quoteWord isSimpleArg arg) ↔ Clean arg := by
  unfold quoteWord
  split
  · rfl
  · rw [clean_cons (by decide) (by decide), clean_append_cons (by decide) (by decide),
      clean_quoteBytes]
    exact and_iff_left clean_nil

theorem clean_quoteWords {argv : List Bytes} :
    Clean (quoteWords isSimpleArg argv) ↔ ∀ arg ∈ argv, Clean arg := by
  cases argv with
  | nil =>
    simp only [List.not_mem_nil, false_implies, implies_true, iff_true]
    exact clean_nil
  | cons arg argv =>
    induction argv generalizing arg with
    | nil => simp [quoteWords, clean_quoteWord]
    | cons next argv ih =>
      rw [quoteWords_cons_cons, clean_append_cons (by decide) (by decide), clean_quoteWord, ih,
        List.forall_mem_cons (a := arg)]

/-! ## Reading the database -/

theorem readsByte_escape {c : UInt8} (h : Fine c) : ReadsByte escapeByte c := by
  intro rest
  by_cases hplain : escapeByte c = [c]
  · have hbyte : escapeByte c = [c] → Fine c → c ≠ 34 ∧ c ≠ 92 ∧ ¬c < 32 :=
      forall_byte (P := fun c => escapeByte c = [c] → Fine c → c ≠ 34 ∧ c ≠ 92 ∧ ¬c < 32)
        (by decide +kernel) c
    obtain ⟨hquote, hescape, hlow⟩ := hbyte hplain h
    rw [hplain]
    exact readsByte_self hquote hescape hlow rest
  · have hbyte : escapeByte c ≠ [c] →
        ∃ d ∈ [34, 92, 110, 114, 116], escapeByte c = [92, d] ∧ escapeLetter d = some c :=
      forall_byte (P := fun c => escapeByte c ≠ [c] →
        ∃ d ∈ [34, 92, 110, 114, 116], escapeByte c = [92, d] ∧ escapeLetter d = some c)
        (by decide +kernel) c
    obtain ⟨d, hd, hwritten, hletter⟩ := hbyte hplain
    have hnumeric : d ≠ 117 := by
      rintro rfl
      revert hd
      decide
    rw [hwritten]
    cases hrest : JsonReader.readString .plain rest with
    | none => simp [JsonReader.readString, Spot.next, hletter, hnumeric, hrest]
    | some r => simp [JsonReader.readString, Spot.next, hletter, hnumeric, hrest]

/-- A member with a string, and what stands behind it. -/
def memberText (name s rest : Bytes) : Bytes :=
  34 :: (name ++ 34 :: 58 :: 34 :: (s.flatMap escapeByte ++ 34 :: rest))

theorem writeRecord_eq (r : StoredRecord) (rest : Bytes) : writeRecord r ++ rest =
    32 :: 32 :: 123 :: memberText (ascii "directory") r.directory (44 ::
      memberText (ascii "file") r.file (44 :: memberText (ascii "output") r.output (44 ::
        memberText (ascii "command") r.command (125 :: rest)))) := by
  have h1 : ascii "  \x7b\"directory\":" = 32 :: 32 :: 123 :: 34 :: (ascii "directory" ++ [34, 58]) := by
    decide
  have h2 : ascii ",\"file\":" = 44 :: 34 :: (ascii "file" ++ [34, 58]) := by decide
  have h3 : ascii ",\"output\":" = 44 :: 34 :: (ascii "output" ++ [34, 58]) := by decide
  have h4 : ascii ",\"command\":" = 44 :: 34 :: (ascii "command" ++ [34, 58]) := by decide
  have h5 : ascii "\x7d" = [125] := by decide
  simp [writeRecord, memberText, jsonString, h1, h2, h3, h4, h5]

/-- The object that a record is read as. -/
def StoredRecord.value (r : StoredRecord) : Value :=
  .obj [(ascii "directory", .str r.directory), (ascii "file", .str r.file),
    (ascii "output", .str r.output), (ascii "command", .str r.command)]

theorem readMembers_memberText (name : Bytes) (hname : ∀ c ∈ name, c ≠ 34 ∧ c ≠ 92 ∧ ¬c < 32)
    {s : Bytes} (hs : Clean s) (fuel : Nat) (rest : Bytes) :
    readMembers (fuel + 2) (memberText name s (44 :: rest)) =
      (readMembers (fuel + 1) rest).map fun r => ((name, .str s) :: r.1, r.2) := by
  rw [memberText, readMembers_string hname (fun c hc => readsByte_escape (hs.2 c hc)),
    token_cons (by decide)]

theorem readValue_record {r : StoredRecord}
    (h : Clean r.directory ∧ Clean r.file ∧ Clean r.output ∧ Clean r.command) (fuel : Nat)
    (rest : Bytes) : readValue (fuel + 6) (writeRecord r ++ rest) = some (r.value, rest) := by
  obtain ⟨hdirectory, hfile, houtput, hcommand⟩ := h
  have hlast : readMembers (fuel + 2) (memberText (ascii "command") r.command (125 :: rest)) =
      some ([(ascii "command", .str r.command)], rest) := by
    rw [memberText, readMembers_string (by decide)
      (fun c hc => readsByte_escape (hcommand.2 c hc)), token_ne (by decide) (by decide),
      token_cons (by decide)]
    rfl
  have hmembers := readMembers_memberText (ascii "directory") (by decide) hdirectory (fuel + 3)
    (memberText (ascii "file") r.file (44 :: memberText (ascii "output") r.output (44 ::
      memberText (ascii "command") r.command (125 :: rest))))
  rw [readMembers_memberText (ascii "file") (by decide) hfile,
    readMembers_memberText (ascii "output") (by decide) houtput, hlast] at hmembers
  rw [writeRecord_eq, readValue, token_blank (by decide), token_blank (by decide),
    token_ne (by decide) (by decide), token_blank (by decide), token_blank (by decide),
    token_ne (by decide) (by decide), token_blank (by decide), token_blank (by decide),
    token_cons (by decide)]
  have hopen : ∀ t, token 125 (memberText (ascii "directory") r.directory t) = none := fun t => by
    rw [memberText, token_ne (by decide) (by decide)]
  simp only [hopen, hmembers]
  rfl

/-- The records up to the closing bracket. -/
theorem readItems_records {records : List StoredRecord} (hne : records ≠ [])
    (h : ∀ r ∈ records, Clean r.directory ∧ Clean r.file ∧ Clean r.output ∧ Clean r.command)
    (fuel : Nat) : readItems (fuel + 6 + records.length) (writeRecords records ++ ascii "]\n") =
      some (records.map (·.value), [10]) := by
  induction records with
  | nil => exact absurd rfl hne
  | cons r records ih =>
    obtain ⟨hr, hrest⟩ := List.forall_mem_cons.mp h
    rw [List.length_cons, ← Nat.add_assoc, readItems, writeRecords, List.append_assoc,
      show fuel + 6 + records.length = fuel + records.length + 6 by omega, readValue_record hr]
    simp only [Option.bind_eq_bind, Option.bind_some]
    cases records with
    | nil => rfl
    | cons next records =>
      have hitems := ih (by simp) hrest
      rw [show fuel + 6 + (next :: records).length = fuel + (next :: records).length + 6 by omega]
        at hitems
      have hcomma : ∀ t, token 44 (ascii ",\n" ++ t) = some (10 :: t) := fun t => rfl
      have hskip : (ascii (if (next :: records).isEmpty then "\n" else ",\n") ++
          writeRecords (next :: records)) ++ ascii "]\n" =
          ascii ",\n" ++ (writeRecords (next :: records) ++ ascii "]\n") := List.append_assoc _ _ _
      rw [hskip, hcomma]
      simp only [readItems_blank (show JsonReader.isBlank 10 = true by decide), hitems,
        Option.map_some, List.map_cons]

theorem length_writeRecords (records : List StoredRecord) :
    records.length ≤ (writeRecords records).length := by
  induction records with
  | nil => simp
  | cons r records ih =>
    have hend : 0 < (ascii (if records.isEmpty then "\n" else ",\n")).length := by
      cases records with
      | nil => decide
      | cons => exact (by decide : 0 < (ascii ",\n").length)
    rw [writeRecords, List.length_append, List.length_append, List.length_cons]
    omega

/-- The text of the database. -/
def dbText (records : List StoredRecord) : Bytes :=
  ascii "[\n" ++ (writeRecords records ++ ascii "]\n")

theorem clean_dbText {records : List StoredRecord} : Clean (dbText records) ↔
    ∀ r ∈ records, Clean r.directory ∧ Clean r.file ∧ Clean r.output ∧ Clean r.command := by
  have hend : Clean (ascii "]\n") := ⟨by decide, by decide⟩
  rw [dbText, clean_ascii_append (by decide), clean_writeRecords]
  exact and_iff_left hend

theorem parse_dbText {records : List StoredRecord}
    (h : ∀ r ∈ records, Clean r.directory ∧ Clean r.file ∧ Clean r.output ∧ Clean r.command) :
    parse (dbText records) = some (.arr (records.map (·.value))) := by
  have hread : ∀ fuel, 6 + records.length ≤ fuel →
      readValue (fuel + 1) (dbText records) = some (.arr (records.map (·.value)), [10]) := by
    intro fuel hfuel
    have hquote : ∀ t, token 34 (ascii "[\n" ++ t) = none := fun t => rfl
    have hbracket : ∀ t, token 91 (ascii "[\n" ++ t) = some (10 :: t) := fun t => rfl
    rw [dbText, readValue, hquote, hbracket]
    dsimp only
    rw [token_blank (by decide)]
    cases records with
    | nil => rfl
    | cons r records =>
      obtain ⟨k, rfl⟩ := Nat.exists_eq_add_of_le hfuel
      have hitems := readItems_records (by simp) h k
      have hopen : token 93 (writeRecords (r :: records) ++ ascii "]\n") = none := by
        rw [writeRecords, List.append_assoc, writeRecord_eq, token_blank (by decide),
          token_blank (by decide), token_ne (by decide) (by decide)]
      rw [show 6 + (r :: records).length + k = k + 6 + (r :: records).length by omega]
      simp only [hopen, readItems_blank (show JsonReader.isBlank 10 = true by decide), hitems,
        Option.map_some]
  have hlength := length_writeRecords records
  have htext : (dbText records).length = (writeRecords records).length + 4 := by
    simp only [dbText, List.length_append]
    have h1 : (ascii "[\n").length = 2 := by decide
    have h2 : (ascii "]\n").length = 2 := by decide
    omega
  rw [parse, if_pos (clean_dbText.mpr h).1,
    hread (2 * (dbText records).length + 1) (by omega)]
  rfl

theorem decodeRecord_value (r : StoredRecord) : decodeRecord r.value =
    (split r.command).map fun argv => ⟨r.directory, r.file, r.output, argv⟩ := by
  have h1 : (ascii "file" == ascii "directory") = false := by decide
  have h2 : (ascii "output" == ascii "directory") = false := by decide
  have h3 : (ascii "output" == ascii "file") = false := by decide
  have h4 : (ascii "command" == ascii "directory") = false := by decide
  have h5 : (ascii "command" == ascii "file") = false := by decide
  have h6 : (ascii "command" == ascii "output") = false := by decide
  simp only [decodeRecord, StoredRecord.value, stringMember, List.lookup_cons, beq_self_eq_true, h1, h2,
    h3, h4, h5, h6, Option.bind_eq_bind, Option.bind_some]
  cases split r.command <;> rfl

theorem mapM_map_eq_iff {α β : Type} {f : β → Option α} {g : α → β} {xs : List α} :
    (xs.map g).mapM f = some xs ↔ ∀ x ∈ xs, f (g x) = some x := by
  induction xs with
  | nil => simp
  | cons x xs ih =>
    rw [List.map_cons, List.mapM_cons, List.forall_mem_cons, ← ih]
    constructor
    · intro h
      obtain ⟨y, hy, h⟩ := Option.bind_eq_some_iff.mp h
      obtain ⟨ys, hys, h⟩ := Option.bind_eq_some_iff.mp h
      cases h
      exact ⟨hy, hys⟩
    · rintro ⟨hx, hxs⟩
      rw [hx, hxs]
      rfl

theorem cString_end {s : Bytes} (h : 0 ∉ s) : cString (s ++ [0]) = s := by
  have hall : ∀ c ∈ s, decide (c ≠ 0) = true := fun c hc => by
    simpa using fun heq : c = 0 => h (heq ▸ hc)
  rw [cString, List.takeWhile_append_of_pos hall]
  simp

theorem zero_notMem_of_clean {s : Bytes} (h : Clean s) : 0 ∉ s :=
  fun hmem => absurd (h.2 0 hmem) (by decide)

/-- A command splits into arguments just when none of them holds the end of a string. -/
theorem split_command_iff {argv : List Bytes} :
    split (cString (quoteWords isSimpleArg argv ++ [0])) = some argv ↔ ∀ arg ∈ argv, 0 ∉ arg := by
  constructor
  · intro h
    refine notMem_of_split (by decide) ?_ h
    intro hmem
    have hne := List.mem_takeWhile_imp (p := fun c => decide (c ≠ 0)) hmem
    exact of_decide_eq_true hne rfl
  · intro h
    rw [cString_end (notMem_quoteWords (by decide) (by decide) (by decide) isSimpleArg h)]
    exact split_quoteWords (fun _ => isInert_of_isSimpleArg) argv

/-- The database of any records is written within its buffers, and is read back as the records
just when all their strings are UTF-8 without control characters but newlines, carriage returns
and tabs. -/
theorem compile_db_round_trip_iff (records : List CompileRecord) :
    ∃ text, compileDbWrite records = some text ∧
      (decodeDb text = some records ↔ ∀ r ∈ records, Clean r.directory ∧ Clean r.file ∧
        Clean r.output ∧ ∀ arg ∈ r.argv, Clean arg) := by
  let stored (r : CompileRecord) : StoredRecord :=
    ⟨r.directory, r.file, r.output, cString (quoteWords isSimpleArg r.argv ++ [0])⟩
  have hpush : records.mapM compileDbPush = some (records.map stored) := by
    rw [show compileDbPush = fun r => pure (stored r) from funext compileDbPush_eq, List.mapM_pure]
    rfl
  refine ⟨dbText (records.map stored), by rw [compileDbWrite, hpush]; rfl, ?_⟩
  have hcommand : ∀ r : CompileRecord, (∀ arg ∈ r.argv, 0 ∉ arg) →
      (Clean (stored r).command ↔ ∀ arg ∈ r.argv, Clean arg) := by
    intro r hzero
    rw [← clean_quoteWords]
    show Clean (cString (quoteWords isSimpleArg r.argv ++ [0])) ↔ _
    rw [cString_end (notMem_quoteWords (by decide) (by decide) (by decide) isSimpleArg hzero)]
  have hdecode : (records.map stored).map (·.value) = records.map fun r => (stored r).value :=
    List.map_map
  constructor
  · intro h r hr
    unfold decodeDb at h
    split at h
    · rename_i items hparse
      have hclean := clean_dbText.mp (fine_of_parse hparse) (stored r) (List.mem_map_of_mem hr)
      have hitems : items = records.map fun r => (stored r).value := by
        rw [parse_dbText (clean_dbText.mp (fine_of_parse hparse)), hdecode] at hparse
        cases hparse
        rfl
      rw [hitems, mapM_map_eq_iff] at h
      have hsplit := h r hr
      rw [decodeRecord_value] at hsplit
      obtain ⟨argv, hargv, heq⟩ := Option.map_eq_some_iff.mp hsplit
      obtain rfl : argv = r.argv := congrArg CompileRecord.argv heq
      have hzero := split_command_iff.mp hargv
      exact ⟨hclean.1, hclean.2.1, hclean.2.2.1, (hcommand r hzero).mp hclean.2.2.2⟩
    · cases h
  · intro h
    have hzero : ∀ r ∈ records, ∀ arg ∈ r.argv, 0 ∉ arg :=
      fun r hr arg harg => zero_notMem_of_clean ((h r hr).2.2.2 arg harg)
    have hclean : ∀ s ∈ records.map stored,
        Clean s.directory ∧ Clean s.file ∧ Clean s.output ∧ Clean s.command := by
      intro s hs
      obtain ⟨r, hr, rfl⟩ := List.mem_map.mp hs
      obtain ⟨hdirectory, hfile, houtput, hargv⟩ := h r hr
      exact ⟨hdirectory, hfile, houtput, (hcommand r (hzero r hr)).mpr hargv⟩
    rw [decodeDb, parse_dbText hclean, hdecode]
    refine mapM_map_eq_iff.mpr fun r hr => ?_
    have hsplit : split (stored r).command = some r.argv := split_command_iff.mpr (hzero r hr)
    rw [decodeRecord_value, hsplit]
    rfl

/-- A file with a control character in its name: what is written is no JSON text. -/
theorem compile_db_control_character : ∃ text,
    compileDbWrite [⟨ascii "/src/app", ascii "src/a\x01b.c", ascii "build/a.o",
      [ascii "cc", ascii "-c", ascii "src/a\x01b.c"]⟩] = some text ∧ parse text = none := by
  refine ⟨_, rfl, ?_⟩
  decide +kernel

end QStar.Stella.CompileDb
