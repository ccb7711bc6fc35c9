import QStar.Lib.JsonWriting
import QStar.Lib.TextualKeys

/-!
# The messages of the language server

The server does not parse a message. It looks for the first place where the key it
wants stands between quotes, goes on behind the next colon and reads what is there
with an escape decoder that knows three letters. A message is read for what it says
when the first such place is the name of the member itself and the member is
written without `\b`, `\f` and `\u`.
-/
namespace QStar.LanguageServer.Messages

open QStar.Lib
open QStar.Lib.Bindings
open QStar.Lib.CStrings
open QStar.Lib.JsonMembers
open QStar.Lib.JsonReader
open QStar.Lib.JsonWriting
open QStar.Lib.Numerals
open QStar.Lib.TextualKeys (needle)

/-! ## The readers of the server -/

/-- `json_decode_string` from behind the quote. -/
def decodeBody : Bytes → Bytes
  | [] => []
  | 34 :: _ => []
  | [92] => []
  | 92 :: c :: rest =>
    (if c = 110 then 10 else if c = 114 then 13 else if c = 116 then 9 else c) :: decodeBody rest
  | c :: rest => c :: decodeBody rest

/-- `json_decode_string` -/
def jsonDecodeString : Bytes → Option Bytes
  | 34 :: rest => some (decodeBody rest)
  | _ => none

/-- Where the value of a key is looked for. -/
def behindColon (json key : Bytes) : Option Bytes :=
  (afterFirst (needle key) json).bind fun p => (afterFirst [58] p).map fun p => p.dropWhile isSpace

/-- `json_get_string` -/
def jsonGetString (json key : Bytes) : Option Bytes := (behindColon json key).bind jsonDecodeString

/-- `atoi`: the `long` of `strtol` as an `int`. -/
def atoi (text : Bytes) : Int := (strtol text).1.bmod (2 ^ 32)

/-- `json_get_int` -/
def jsonGetInt (json key : Bytes) (fallback : Int) : Int :=
  match behindColon json key with
  | some p => atoi p
  | none => fallback

/-- A quoted id from behind its first quote; `prev` is the byte before. -/
def quotedId (prev : UInt8) : Bytes → Bytes
  | [] => []
  | c :: rest => if c = 34 ∧ prev ≠ 92 then [34] else c :: quotedId c rest

/-- A byte of an id that is not quoted. -/
def isIdByte (c : UInt8) : Bool := c ≠ 44 && c ≠ 125 && !isSpace c

/-- The text of an id at the start of a text. -/
def rawId : Bytes → Bytes
  | 34 :: rest => 34 :: quotedId 34 rest
  | p => p.takeWhile isIdByte

/-- `json_copy_id_raw` -/
def jsonCopyIdRaw (json : Bytes) : Option Bytes := (behindColon json (ascii "id")).map rawId

/-- What the server can look up in a message. -/
inductive Field where
  | method
  | id
  | uri
  | text
  | query
  | line
  | character
  deriving DecidableEq

def Field.key : Field → Bytes
  | .method => ascii "method"
  | .id => ascii "id"
  | .uri => ascii "uri"
  | .text => ascii "text"
  | .query => ascii "query"
  | .line => ascii "line"
  | .character => ascii "character"

/-- How the fields of a message are read: strings, the text of the id, and positions. -/
structure Reader where
  string : Field → Option Bytes
  id : Option Bytes
  int : Field → Int

/-- The reader of the server. -/
def textual (json : Bytes) : Reader where
  string := fun field => jsonGetString json field.key
  id := jsonCopyIdRaw json
  int := fun field => jsonGetInt json field.key 0

/-- The methods `handle_message` tells apart. -/
inductive Kind where
  | initialize_
  | shutdown
  | exit
  | didOpen
  | didChange
  | didSave
  | hover
  | completion
  | definition
  | references
  | documentSymbol
  | workspaceSymbol
  | other
  deriving DecidableEq

def kindOf (method : Bytes) : Kind :=
  if method = ascii "initialize" then .initialize_
  else if method = ascii "shutdown" then .shutdown
  else if method = ascii "exit" then .exit
  else if method = ascii "textDocument/didOpen" then .didOpen
  else if method = ascii "textDocument/didChange" then .didChange
  else if method = ascii "textDocument/didSave" then .didSave
  else if method = ascii "textDocument/hover" then .hover
  else if method = ascii "textDocument/completion" then .completion
  else if method = ascii "textDocument/definition" then .definition
  else if method = ascii "textDocument/references" then .references
  else if method = ascii "textDocument/documentSymbol" then .documentSymbol
  else if method = ascii "workspace/symbol" then .workspaceSymbol
  else .other

/-- What a handler is called with. -/
inductive Request where
  | initialize_ (id : Option Bytes)
  | shutdown (id : Option Bytes)
  | exit
  /-- `publish_for_body` -/
  | publish (uri text : Option Bytes)
  | hover (id uri : Option Bytes) (line character : Int)
  | completion (id : Option Bytes)
  | definition (id uri : Option Bytes) (line character : Int)
  | references (id uri : Option Bytes) (line character : Int)
  | documentSymbol (id uri : Option Bytes)
  | workspaceSymbol (id query : Option Bytes)
  | other (id : Option Bytes)
  deriving DecidableEq

/-- The request of a message that is read by a reader. -/
def request (r : Reader) : Kind → Request
  | .initialize_ => .initialize_ r.id
  | .shutdown => .shutdown r.id
  | .exit => .exit
  | .didOpen | .didChange | .didSave => .publish (r.string .uri) (r.string .text)
  | .hover => .hover r.id (r.string .uri) (r.int .line) (r.int .character)
  | .completion => .completion r.id
  | .definition => .definition r.id (r.string .uri) (r.int .line) (r.int .character)
  | .references => .references r.id (r.string .uri) (r.int .line) (r.int .character)
  | .documentSymbol => .documentSymbol r.id (r.string .uri)
  | .workspaceSymbol => .workspaceSymbol r.id (r.string .query)
  | .other => .other r.id

/-- `handle_message` up to the handlers; the body is a C string. -/
def readRequest (body : Bytes) : Option Request :=
  (jsonGetString (cString body) (ascii "method")).map fun method =>
    request (textual (cString body)) (kindOf method)

/-! ## The documents of the server -/

/-- `uri_to_path` behind the scheme. -/
def percentDecode : Bytes → Bytes
  | 37 :: a :: b :: rest =>
    match digitValue a, digitValue b with
    | some hi, some lo =>
      if hi < 16 ∧ lo < 16 then UInt8.ofNat (hi * 16 + lo) :: percentDecode rest
      else 37 :: percentDecode (a :: b :: rest)
    | _, _ => 37 :: percentDecode (a :: b :: rest)
  | c :: rest => c :: percentDecode rest
  | [] => []

/-- `uri_to_path` -/
def uriToPath (uri : Bytes) : Bytes :=
  cString (percentDecode (if ascii "file://" <+: uri then uri.drop 7 else uri))

structure Doc where
  uri : Bytes
  path : Bytes
  text : Bytes
  deriving DecidableEq

/-- `find_doc` -/
def findDoc (docs : List Doc) (uri : Bytes) : Option Doc := docs.find? fun doc => decide (doc.uri = uri)

/-- The text of the first document with the uri is replaced. -/
def setText (uri text : Bytes) : List Doc → List Doc
  | [] => []
  | doc :: rest => if doc.uri = uri then { doc with text } :: rest else doc :: setText uri text rest

/-- `upsert_doc` -/
def upsertDoc (docs : List Doc) (uri text : Bytes) : List Doc :=
  if (findDoc docs uri).isSome then setText uri text docs else ⟨uri, uriToPath uri, text⟩ :: docs

/-- What a message does to the documents. -/
def handleMessage (docs : List Doc) (body : Bytes) : List Doc :=
  match readRequest body with
  | some (.publish (some uri) (some text)) => upsertDoc docs uri text
  | _ => docs

/-- The text the server has of a document. -/
def stored (docs : List Doc) (uri : Bytes) : Option Bytes := (findDoc docs uri).map (·.text)

/-! ## What a message says -/

/-- The object that has a field, in a message of a kind. -/
def pathOf : Kind → Field → List Step
  | _, .method | _, .id => []
  | _, .uri => [.member (ascii "params"), .member (ascii "textDocument")]
  | .didChange, .text => [.member (ascii "params"), .member (ascii "contentChanges"), .lastItem]
  | .didSave, .text => [.member (ascii "params")]
  | _, .text => [.member (ascii "params"), .member (ascii "textDocument")]
  | _, .query => [.member (ascii "params")]
  | _, .line | _, .character => [.member (ascii "params"), .member (ascii "position")]

/-- The fields of the messages of a kind that a handler uses. -/
def fieldsOf : Kind → List Field
  | .initialize_ | .shutdown | .completion | .other => [.id]
  | .exit => []
  | .didOpen | .didChange | .didSave => [.uri, .text]
  | .hover | .definition | .references => [.id, .uri, .line, .character]
  | .documentSymbol => [.id, .uri]
  | .workspaceSymbol => [.id, .query]

/-- The values the protocol has for a field. -/
def Field.Admits : Field → Value → Prop
  | .id, v => v = .null ∨ (∃ t, v = .num t) ∨ ∃ s, v = .str s
  | .line, v | .character, v =>
    ∃ t n, v = .num t ∧ (∀ c ∈ t, isDigit c = true) ∧ scanDigits 10 none t = some n ∧ n < 2 ^ 31
  | _, v => ∃ s, v = .str s

/-- A message: a JSON text with a method and, in the members that are used, values of the
protocol. -/
structure Message where
  body : Bytes
  value : Value
  method : Bytes
  parsed : parse body = some value
  hasMethod : follow [.member (ascii "method")] value = some (.str method)
  admitted : ∀ field ∈ fieldsOf (kindOf method), ∀ v,
    follow (pathOf (kindOf method) field ++ [.member field.key]) value = some v → field.Admits v

namespace Message

variable (m : Message)

def kind : Kind := kindOf m.method

/-- The value of a field. -/
def own (field : Field) : Option Value := follow (pathOf m.kind field ++ [.member field.key]) m.value

/-- Where the name of a field stands in the message. -/
def place (field : Field) : Option (Nat × Bytes) :=
  nameText (pathOf m.kind field) field.key (2 * m.body.length + 2, m.body)

/-- The text the value of a field is written in. -/
def writtenText (field : Field) : Option Bytes :=
  (m.place field).bind fun found => (token 58 found.2).bind fun value =>
    (readValue found.1 value).map fun r =>
      (value.dropWhile isBlank).take ((value.dropWhile isBlank).length - r.2.length)

/-- The text of a string value of a field from behind its quote. -/
def literal (field : Field) : Option Bytes :=
  (m.place field).bind fun found => (token 58 found.2).bind fun value => token 34 value

/-- The message as its members have it. -/
def members : Reader where
  string := fun field =>
    match m.own field with
    | some (.str s) => some s
    | _ => none
  id := m.writtenText .id
  int := fun field =>
    match m.own field with
    | some (.num t) => ((scanDigits 10 none t).getD 0 : Nat)
    | _ => 0

/-- The request the message makes. -/
def request : Request := Messages.request m.members m.kind

end Message

/-- The texts a client has after a message. -/
def clientTexts (texts : List (Bytes × Bytes)) (m : Message) : List (Bytes × Bytes) :=
  match m.request with
  | .publish (some uri) (some text) => assign uri text texts
  | _ => texts

/-- The string from behind its quote has no escapes but those of a quote, of a backslash, of a
slash, and `\n`, `\r`, `\t`. -/
def simpleEscapes : Bytes → Bool
  | [] => true
  | 34 :: _ => true
  | 92 :: c :: rest => decide (c ∈ [34, 92, 47, 110, 114, 116]) && simpleEscapes rest
  | _ :: rest => simpleEscapes rest

/-- What the server can read of the text of a string from behind its quote: the string of a
field without other escapes, the id if it does not end in a backslash. -/
def Field.Legible : Field → Bytes → Prop
  | .id, inner => ∀ text rest s, readString .plain inner = some (s, rest) → inner = text ++ 34 :: rest →
      text.getLast? ≠ some 92
  | _, inner => simpleEscapes inner = true

/-- The name of the field is the first place where its key stands between quotes, and a string
behind it is legible. -/
structure Message.Legible (m : Message) (field : Field) : Prop where
  first : afterFirst (needle field.key) m.body = (m.place field).map (·.2)
  literal : ∀ inner, m.literal field = some inner → field.Legible inner

/-- Every field that the server uses of the message is legible. -/
def Message.Plain (m : Message) : Prop := m.Legible .method ∧ ∀ field ∈ fieldsOf m.kind, m.Legible field

/-! ## Texts behind a colon -/

theorem isSpace_of_isBlank {c : UInt8} (h : isBlank c = true) : isSpace c = true := by
  simp only [isBlank, Bool.or_eq_true, decide_eq_true_eq] at h
  rcases h with ((rfl | rfl) | rfl) | rfl <;> rfl

theorem dropWhile_isSpace (text : Bytes) :
    text.dropWhile isSpace = (text.dropWhile isBlank).dropWhile isSpace := by
  induction text with
  | nil => rfl
  | cons c rest ih =>
    by_cases hc : isBlank c = true
    · rw [List.dropWhile_cons_of_pos hc, List.dropWhile_cons_of_pos (isSpace_of_isBlank hc), ih]
    · rw [List.dropWhile_cons_of_neg hc]

theorem dropWhile_of_token {c : UInt8} {text rest : Bytes} (h : token c text = some rest) :
    text.dropWhile isBlank = c :: rest := by
  unfold token at h
  split at h
  · cases h
  · rename_i d tail hdrop
    split at h
    · rename_i hd
      cases h
      rw [hdrop, hd]
    · cases h

theorem afterFirst_of_token {c : UInt8} (hc : isBlank c = false) {text rest : Bytes}
    (h : token c text = some rest) : afterFirst [c] text = some rest := by
  have hsplit : text = text.takeWhile isBlank ++ c :: rest := by
    rw [← dropWhile_of_token h, List.takeWhile_append_dropWhile]
  have hskip : c ∉ text.takeWhile isBlank := by
    intro hmem
    have hblank := List.mem_takeWhile_imp hmem
    rw [hc] at hblank
    cases hblank
  rw [hsplit, afterFirst_skip hskip]
  simp [afterFirst]

/-! ## Strings -/

/-- One byte of a string that does not close it. -/
theorem readString_cons {spot : Spot} {c : UInt8} {text s rest : Bytes} (hopen : ¬ (spot = .plain ∧ c = 34))
    (h : readString spot (c :: text) = some (s, rest)) : ∃ out spot' s',
      spot.next c = some (out, spot') ∧ readString spot' text = some (s', rest) ∧ s = out ++ s' := by
  rw [readString, if_neg hopen] at h
  obtain ⟨⟨out, spot'⟩, hnext, h⟩ := Option.bind_eq_some_iff.mp h
  obtain ⟨⟨s', rest'⟩, hread, h⟩ := Option.bind_eq_some_iff.mp h
  cases h
  exact ⟨out, spot', s', hnext, hread, rfl⟩

/-- What the decoder makes of a string with simple escapes is the string. -/
theorem decodeBody_of_simple {inner s rest : Bytes} (h : readString .plain inner = some (s, rest))
    (hsimple : simpleEscapes inner = true) : decodeBody inner = s := by
  induction inner using decodeBody.induct generalizing s with
  | case1 => cases h
  | case2 tail =>
    cases h
    rfl
  | case3 =>
    obtain ⟨out, spot, s', hnext, hread, -⟩ := readString_cons (by decide) h
    cases hread
  | case4 c text ih =>
    obtain ⟨hc, htext⟩ := Bool.and_eq_true_iff.mp hsimple
    obtain ⟨out, spot, s', hnext, hread, rfl⟩ := readString_cons (by decide) h
    cases hnext
    obtain ⟨out, spot, s'', hletter, hread, rfl⟩ := readString_cons (by simp) hread
    have hletters : ∀ c ∈ ([34, 92, 47, 110, 114, 116] : List UInt8), (Spot.escape none).next c =
        some ([if c = 110 then 10 else if c = 114 then 13 else if c = 116 then 9 else c], .plain) := by
      decide
    rw [hletters c (of_decide_eq_true hc)] at hletter
    cases hletter
    rw [decodeBody, ih hread htext]
    rfl
  | case5 c text hquote hlast hescape ih =>
    have h92 : c ≠ 92 := by
      intro heq
      cases text with
      | nil => exact hlast heq rfl
      | cons d text => exact hescape d text heq rfl
    have hsimple' : simpleEscapes text = true := by
      rwa [simpleEscapes] at hsimple
      · exact hquote
      · exact hescape
    obtain ⟨out, spot, s', hnext, hread, rfl⟩ := readString_cons (fun hclose => hquote hclose.2) h
    simp only [Spot.next, if_neg h92] at hnext
    split at hnext
    · cases hnext
    · cases hnext
      rw [decodeBody, ih hread hsimple']
      · rfl
      · exact hquote
      · exact hlast
      · exact hescape

/-- The text of a string, up to and without its closing quote. -/
theorem readString_text {spot : Spot} {inner s rest : Bytes} (h : readString spot inner = some (s, rest)) :
    ∃ text, inner = text ++ 34 :: rest := by
  induction inner generalizing spot s with
  | nil => cases h
  | cons c inner ih =>
    by_cases hclose : spot = .plain ∧ c = 34
    · obtain ⟨rfl, rfl⟩ := hclose
      cases h
      exact ⟨[], rfl⟩
    · obtain ⟨out, spot', s', -, hread, -⟩ := readString_cons hclose h
      obtain ⟨text, rfl⟩ := ih hread
      exact ⟨c :: text, rfl⟩

theorem not_escape_of_endHex {high high' : Option Nat} {n : Nat} {out : Bytes} :
    endHex high n ≠ some (out, .escape high') := by
  intro h
  unfold endHex at h
  split at h
  · split at h
    · cases (Prod.mk.inj (Option.some.inj h)).2
    · cases h
  · split at h
    · cases (Prod.mk.inj (Option.some.inj h)).2
    · split at h
      · cases h
      · cases (Prod.mk.inj (Option.some.inj h)).2

/-- Only a backslash leads behind a backslash. -/
theorem eq_of_next_escape {spot : Spot} {c : UInt8} {out : Bytes} {high : Option Nat}
    (h : spot.next c = some (out, .escape high)) : c = 92 := by
  by_contra hc
  cases spot with
  | plain =>
    simp only [Spot.next, if_neg hc] at h
    split at h <;> cases h
  | escape high' =>
    simp only [Spot.next] at h
    split at h
    · cases h
    · split at h
      · obtain ⟨d, -, heq⟩ := Option.map_eq_some_iff.mp h
        cases heq
      · cases h
  | hex high' count value =>
    simp only [Spot.next] at h
    obtain ⟨d, -, h⟩ := Option.bind_eq_some_iff.mp h
    split at h
    · cases h
    · split at h
      · exact not_escape_of_endHex h
      · cases h
  | low high' => simp [Spot.next, hc] at h

/-- A quote is read only to close the string, or behind a backslash. -/
theorem next_quote {spot : Spot} (hplain : spot ≠ .plain) (hescape : ∀ high, spot ≠ .escape high) :
    spot.next 34 = none := by
  cases spot with
  | plain => exact absurd rfl hplain
  | escape high => exact absurd rfl (hescape high)
  | hex high count value => rfl
  | low high => rfl

/-- A quote that does not close a string stands behind a backslash, so the id is read up to the
quote that closes it if that one does not. -/
theorem quotedId_of_readString {spot : Spot} {prev : UInt8} {text s rest : Bytes}
    (h : readString spot (text ++ 34 :: rest) = some (s, rest)) (hspot : ∀ high, spot = .escape high → prev = 92)
    (hlast : (prev :: text).getLast? ≠ some 92) : quotedId prev (text ++ 34 :: rest) = text ++ [34] := by
  induction text generalizing spot prev s with
  | nil =>
    have hprev : prev ≠ 92 := by
      rintro rfl
      exact hlast rfl
    rw [List.nil_append, quotedId, if_pos ⟨rfl, hprev⟩]
    rfl
  | cons c text ih =>
    have hopen : ¬ (spot = .plain ∧ c = 34) := by
      rintro ⟨rfl, rfl⟩
      have heq : (([], text ++ 34 :: rest) : Bytes × Bytes) = (s, rest) := Option.some.inj h
      have hlength := congrArg (fun r => r.2.length) heq
      simp at hlength
      omega
    obtain ⟨out, spot', s', hnext, hread, -⟩ := readString_cons hopen h
    have hgo : ¬ (c = 34 ∧ prev ≠ 92) := by
      rintro ⟨rfl, hprev⟩
      have hnone : spot.next 34 = none := by
        apply next_quote
        · exact fun heq => hopen ⟨heq, rfl⟩
        · exact fun high heq => hprev (hspot high heq)
      rw [hnone] at hnext
      cases hnext
    have hlast' : (c :: text).getLast? ≠ some 92 := by
      rwa [List.getLast?_cons_cons] at hlast
    have hspot' : ∀ high, spot' = .escape high → c = 92 := by
      rintro high rfl
      exact eq_of_next_escape hnext
    rw [List.cons_append, quotedId, if_neg hgo, ih hread hspot' hlast', List.cons_append]

/-! ## The value of a field in the text -/

/-- What goes on behind a value starts with no byte of an id or of a number. -/
theorem head_of_closed {text : Bytes} (h : Closed text) :
    ∀ c ∈ text.head?, isIdByte c = false ∧ isDigit c = false := by
  intro c hc
  cases text with
  | nil => cases hc
  | cons d rest =>
    obtain rfl : d = c := Option.some.inj hc
    by_cases hblank : isBlank d = true
    · simp only [isBlank, Bool.or_eq_true, decide_eq_true_eq] at hblank
      rcases hblank with ((rfl | rfl) | rfl) | rfl <;> exact ⟨rfl, rfl⟩
    · have hdrop : (d :: rest).dropWhile isBlank = d :: rest := List.dropWhile_cons_of_neg hblank
      rcases h with h | h <;> obtain ⟨tail, htail⟩ := Option.isSome_iff_exists.mp h
      · have heq := (hdrop.symm.trans (dropWhile_of_token htail))
        cases heq
        exact ⟨rfl, rfl⟩
      · have heq := (hdrop.symm.trans (dropWhile_of_token htail))
        cases heq
        exact ⟨rfl, rfl⟩

/-- A word or a number that is closed is read as it is written. -/
theorem rawId_word {t rest : Bytes} (hne : t ≠ []) (ht : ∀ c ∈ t, isIdByte c = true ∧ c ≠ 34)
    (hclosed : Closed rest) : rawId ((t ++ rest).dropWhile isSpace) = t := by
  obtain ⟨c, t, rfl⟩ := List.exists_cons_of_ne_nil hne
  obtain ⟨hc, hquote⟩ := ht c List.mem_cons_self
  have hspace : isSpace c = false := by
    simp only [isIdByte, Bool.and_eq_true, Bool.not_eq_true'] at hc
    exact hc.2
  rw [List.cons_append, List.dropWhile_cons_of_neg (by simp [hspace])]
  have hraw : rawId (c :: (t ++ rest)) = (c :: (t ++ rest)).takeWhile isIdByte := by
    rw [rawId]
    rintro tail ⟨⟩
    exact hquote rfl
  rw [hraw, ← List.cons_append]
  exact (takeWhile_all (fun d hd => (ht d hd).1) fun d hd => (head_of_closed hclosed d hd).1).1

theorem isNumberByte_spec {c : UInt8} (h : isNumberByte c = true) : isIdByte c = true ∧ c ≠ 34 := by
  have hall : ∀ c, isNumberByte c = true → isIdByte c = true ∧ c ≠ 34 :=
    forall_byte (P := fun c => isNumberByte c = true → isIdByte c = true ∧ c ≠ 34)
      (by decide +kernel)
  exact hall c h

/-- `atoi` reads digits up to the first byte that is none. -/
theorem atoi_digits {digits rest : Bytes} {n : Nat} (hdigits : ∀ c ∈ digits, isDigit c = true)
    (hrest : ∀ c ∈ rest.head?, isDigit c = false) (hscan : scanDigits 10 none digits = some n) (hn : n < 2 ^ 31) :
    atoi (digits ++ rest) = n := by
  rw [atoi, strtol_digits hdigits hrest hscan (by omega), Int.bmod_eq_of_le] <;> omega

section Fields

variable {m : Message} {field : Field}

/-- A message has no NUL byte. -/
theorem cString_body (m : Message) : cString m.body = m.body := by
  apply cString_eq_self
  intro hmem
  have hfine := (fine_of_parse m.parsed).2 0 hmem (by decide)
  cases hfine

/-- A field has its name in the message just when the message has the field. -/
theorem place_spec (m : Message) (field : Field) :
    match m.own field with
    | some w => ∃ found value rest, m.place field = some found ∧ MemberAt found.1 found.2 w value rest
    | none => m.place field = none := by
  have hparsed := m.parsed
  unfold parse at hparsed
  split at hparsed
  · obtain ⟨⟨v, rest⟩, hread, hend⟩ := Option.bind_eq_some_iff.mp hparsed
    dsimp only at hend
    split at hend
    · cases hend
      exact nameText_spec hread (pathOf m.kind field) field.key
    · cases hend
  · cases hparsed

theorem behindColon_of_none (h : m.Legible field) (hplace : m.place field = none) :
    behindColon m.body field.key = none := by
  have hfirst := h.first
  rw [hplace] at hfirst
  rw [behindColon, hfirst]
  rfl

theorem behindColon_of_some (h : m.Legible field) {found : Nat × Bytes} (hplace : m.place field = some found)
    {value : Bytes} (hcolon : token 58 found.2 = some value) :
    behindColon m.body field.key = some (value.dropWhile isSpace) := by
  have hfirst := h.first
  rw [hplace, Option.map_some] at hfirst
  rw [behindColon, hfirst, Option.bind_some, afterFirst_of_token (by decide) hcolon, Option.map_some]

theorem literal_of_place {found : Nat × Bytes} (hplace : m.place field = some found) {value inner : Bytes}
    (hcolon : token 58 found.2 = some value) (hquote : token 34 value = some inner) :
    m.literal field = some inner := by
  rw [Message.literal, hplace, Option.bind_some, hcolon, Option.bind_some, hquote]

/-- Behind its blanks the text of a value starts with no space. -/
theorem dropWhile_isSpace_of_token {c : UInt8} (hc : isSpace c = false) {text rest : Bytes}
    (h : token c text = some rest) : text.dropWhile isSpace = c :: rest := by
  rw [dropWhile_isSpace, dropWhile_of_token h, List.dropWhile_cons_of_neg (by simp [hc])]

/-- A string is read as the member has it. -/
theorem jsonGetString_own (hid : field ≠ .id) (hstring : ∀ v, m.own field = some v → ∃ s, v = .str s)
    (h : m.Legible field) : jsonGetString m.body field.key = m.members.string field := by
  have hspec := place_spec m field
  simp only [Message.members]
  cases hown : m.own field with
  | none =>
    rw [hown] at hspec
    rw [jsonGetString, behindColon_of_none h hspec]
    rfl
  | some w =>
    rw [hown] at hspec
    obtain ⟨found, value, rest, hplace, hat⟩ := hspec
    obtain ⟨s, rfl⟩ := hstring w hown
    obtain ⟨inner, hquote, hread⟩ := readValue_str hat.reads
    have hlegible := h.literal inner (literal_of_place hplace hat.colon hquote)
    have hsimple : simpleEscapes inner = true := by
      cases field with
      | id => exact absurd rfl hid
      | _ => exact hlegible
    rw [jsonGetString, behindColon_of_some h hplace hat.colon, dropWhile_isSpace_of_token (by decide) hquote,
      Option.bind_some, jsonDecodeString, decodeBody_of_simple hread hsimple]

/-- The text of an id, which is read as it is written and has the value of the id where it is
UTF-8. -/
theorem rawId_spec {fuel : Nat} {value rest : Bytes} {w : Value} (hread : readValue fuel value = some (w, rest))
    (hclosed : Closed rest) (hadmits : Field.Admits .id w)
    (hlegible : ∀ inner, token 34 value = some inner → Field.Legible .id inner) :
    ∃ t, value.dropWhile isBlank = t ++ rest ∧ rawId (value.dropWhile isSpace) = t ∧
      ((∀ inner, token 34 value = some inner → Utf8.Valid inner) → Reads t w) := by
  rcases hadmits with rfl | ⟨t, rfl⟩ | ⟨s, rfl⟩
  · have htext := readAtom_null (readValue_atomic trivial hread)
    refine ⟨_, htext, ?_, fun _ => reads_null⟩
    rw [dropWhile_isSpace, htext, rawId_word (by decide) (by decide) hclosed]
  · have hatom : readAtom (value.dropWhile isBlank) = some (.num t, rest) := readValue_atomic trivial hread
    obtain ⟨ht, hrest, hne⟩ := readAtom_num hatom
    have htext : value.dropWhile isBlank = t ++ rest := by
      rw [ht, hrest, List.takeWhile_append_dropWhile]
    refine ⟨t, htext, ?_, fun _ => reads_of_readAtom hatom⟩
    rw [dropWhile_isSpace, htext, rawId_word hne ?_ hclosed]
    intro c hc
    rw [ht] at hc
    exact isNumberByte_spec (List.mem_takeWhile_imp hc)
  · obtain ⟨inner, hquote, hstring⟩ := readValue_str hread
    obtain ⟨text, rfl⟩ := readString_text hstring
    have hlast : ((34 : UInt8) :: text).getLast? ≠ some 92 := by
      have htext := hlegible _ hquote text rest s hstring rfl
      cases text with
      | nil => decide
      | cons c text => rwa [List.getLast?_cons_cons]
    have hid := quotedId_of_readString hstring (by nofun) hlast
    refine ⟨34 :: (text ++ [34]), ?_, ?_, ?_⟩
    · rw [dropWhile_of_token hquote]
      simp
    · rw [dropWhile_isSpace_of_token (by decide) hquote, rawId, hid]
    · intro hvalid
      exact reads_string ((Utf8.valid_append_cons (by decide)).mp (hvalid _ hquote)).1 (readString_closed hstring)

/-- The text of the id is read as it is written. -/
theorem jsonCopyIdRaw_own (hadmits : ∀ v, m.own .id = some v → Field.Admits .id v) (h : m.Legible .id) :
    jsonCopyIdRaw m.body = m.members.id := by
  have hspec := place_spec m .id
  simp only [Message.members, Message.writtenText]
  cases hown : m.own .id with
  | none =>
    rw [hown] at hspec
    have hbehind : behindColon m.body (ascii "id") = none := behindColon_of_none h hspec
    rw [jsonCopyIdRaw, hbehind, hspec]
    rfl
  | some w =>
    rw [hown] at hspec
    obtain ⟨found, value, rest, hplace, hat⟩ := hspec
    have hbehind : behindColon m.body (ascii "id") = some (value.dropWhile isSpace) :=
      behindColon_of_some h hplace hat.colon
    obtain ⟨t, htext, hraw, -⟩ := rawId_spec hat.reads hat.closed (hadmits w hown) fun inner hquote =>
      h.literal inner (literal_of_place hplace hat.colon hquote)
    rw [jsonCopyIdRaw, hbehind, hplace]
    simp only [Option.map_some, Option.bind_some, hat.colon, hat.reads, hraw, htext]
    rw [List.length_append, Nat.add_sub_cancel, List.take_left]

/-- What is found behind a colon is the end of the message. -/
theorem suffix_of_behindColon {json key p : Bytes} (h : behindColon json key = some p) : p <:+ json := by
  obtain ⟨q, hkey, h⟩ := Option.bind_eq_some_iff.mp h
  obtain ⟨r, hcolon, rfl⟩ := Option.map_eq_some_iff.mp h
  exact ((List.dropWhile_suffix _).trans (suffix_of_afterFirst hcolon)).trans (suffix_of_afterFirst hkey)

/-- The text behind a quote of a message is UTF-8. -/
theorem valid_of_suffix {inner : Bytes} (h : 34 :: inner <:+ m.body) : Utf8.Valid inner := by
  obtain ⟨before, hbody⟩ := h
  have hvalid := (fine_of_parse m.parsed).1
  rw [← hbody] at hvalid
  exact ((Utf8.valid_append_cons (by decide)).mp hvalid).2

/-- The text of the id has the value that the message has for it. -/
theorem jsonCopyIdRaw_reads (hadmits : ∀ v, m.own .id = some v → Field.Admits .id v) (h : m.Legible .id) :
    match m.own .id with
    | some w => ∃ t, jsonCopyIdRaw m.body = some t ∧ Reads t w
    | none => jsonCopyIdRaw m.body = none := by
  have hspec := place_spec m .id
  cases hown : m.own .id with
  | none =>
    rw [hown] at hspec
    have hbehind : behindColon m.body (ascii "id") = none := behindColon_of_none h hspec
    rw [jsonCopyIdRaw, hbehind]
    rfl
  | some w =>
    rw [hown] at hspec
    obtain ⟨found, value, rest, hplace, hat⟩ := hspec
    have hbehind : behindColon m.body (ascii "id") = some (value.dropWhile isSpace) :=
      behindColon_of_some h hplace hat.colon
    obtain ⟨t, -, hraw, hreads⟩ := rawId_spec hat.reads hat.closed (hadmits w hown) fun inner hquote =>
      h.literal inner (literal_of_place hplace hat.colon hquote)
    refine ⟨t, ?_, hreads ?_⟩
    · rw [jsonCopyIdRaw, hbehind, Option.map_some, hraw]
    · intro inner hquote
      have hsuffix := suffix_of_behindColon hbehind
      rw [dropWhile_isSpace_of_token (by decide) hquote] at hsuffix
      exact valid_of_suffix hsuffix

/-- A decoded string of UTF-8 is UTF-8. -/
theorem run_decodeBody {s : Utf8.State} (hs : s.Wide) {inner : Bytes} (h : Utf8.run s inner = some .start) :
    Utf8.run s (decodeBody inner) = some .start := by
  induction inner using decodeBody.induct generalizing s with
  | case1 => exact h
  | case2 rest =>
    rw [Utf8.run, Utf8.next_ascii hs (by decide)] at h
    split at h
    · rename_i hstart
      rw [hstart]
      rfl
    · cases h
  | case3 =>
    rw [Utf8.run, Utf8.next_ascii hs (by decide)] at h
    split at h
    · rename_i hstart
      rw [hstart]
      rfl
    · cases h
  | case4 c rest ih =>
    rw [Utf8.run, Utf8.next_ascii hs (by decide)] at h
    split at h
    · rename_i hstart
      subst hstart
      rw [Option.bind_some, Utf8.run] at h
      obtain ⟨t, hnext, h⟩ := Option.bind_eq_some_iff.mp h
      have hletter : ∀ c : UInt8, Utf8.State.start.next (if c = 110 then 10 else if c = 114 then 13
          else if c = 116 then 9 else c) = Utf8.State.start.next c :=
        forall_byte (P := fun c => Utf8.State.start.next (if c = 110 then 10 else if c = 114 then 13
          else if c = 116 then 9 else c) = Utf8.State.start.next c) (by decide +kernel)
      rw [decodeBody, Utf8.run, hletter, hnext, Option.bind_some]
      exact ih (Utf8.wide_next hnext) h
    · cases h
  | case5 c rest hquote hlast hescape ih =>
    rw [Utf8.run] at h
    obtain ⟨t, hnext, h⟩ := Option.bind_eq_some_iff.mp h
    rw [decodeBody, Utf8.run, hnext, Option.bind_some]
    · exact ih (Utf8.wide_next hnext) h
    · exact hquote
    · exact hlast
    · exact hescape

/-- A string the server takes from a message is UTF-8. -/
theorem valid_jsonGetString {key s : Bytes} (h : jsonGetString m.body key = some s) : Utf8.Valid s := by
  obtain ⟨p, hbehind, h⟩ := Option.bind_eq_some_iff.mp h
  unfold jsonDecodeString at h
  split at h
  · rename_i inner
    cases h
    exact run_decodeBody (s := .start) trivial (valid_of_suffix (suffix_of_behindColon hbehind))
  · cases h

/-- A position is read as the member has it. -/
theorem jsonGetInt_own (hposition : field = .line ∨ field = .character)
    (hadmits : ∀ v, m.own field = some v → field.Admits v) (h : m.Legible field) :
    jsonGetInt m.body field.key 0 = m.members.int field := by
  have hspec := place_spec m field
  simp only [Message.members]
  cases hown : m.own field with
  | none =>
    rw [hown] at hspec
    rw [jsonGetInt, behindColon_of_none h hspec]
  | some w =>
    rw [hown] at hspec
    obtain ⟨found, value, rest, hplace, hat⟩ := hspec
    obtain ⟨t, n, rfl, hdigits, hscan, hlt⟩ : ∃ t n, w = .num t ∧ (∀ c ∈ t, isDigit c = true) ∧
        scanDigits 10 none t = some n ∧ n < 2 ^ 31 := by
      have hw := hadmits w hown
      rcases hposition with rfl | rfl <;> exact hw
    obtain ⟨ht, hrest, hne⟩ := readAtom_num (readValue_atomic trivial hat.reads)
    have htext : value.dropWhile isBlank = t ++ rest := by
      rw [ht, hrest, List.takeWhile_append_dropWhile]
    obtain ⟨c, t', rfl⟩ := List.exists_cons_of_ne_nil hne
    have hc := hdigits c List.mem_cons_self
    have hspaces : value.dropWhile isSpace = c :: t' ++ rest := by
      rw [dropWhile_isSpace, htext, List.cons_append, List.dropWhile_cons_of_neg (by simp [(isDigit_ne hc).1])]
    rw [jsonGetInt, behindColon_of_some h hplace hat.colon, hspaces]
    simp only [atoi_digits hdigits (fun d hd => (head_of_closed hat.closed d hd).2) hscan hlt, hscan,
      Option.getD_some]

end Fields

/-! ## What the server does with messages -/

/-- Two readers read a field alike. -/
def Field.Agree (r r' : Reader) : Field → Prop
  | .id => r.id = r'.id
  | .line => r.int .line = r'.int .line
  | .character => r.int .character = r'.int .character
  | field => r.string field = r'.string field

/-- A request depends on the fields of its kind only. -/
theorem request_congr {r r' : Reader} {kind : Kind} (h : ∀ field ∈ fieldsOf kind, field.Agree r r') :
    request r kind = request r' kind := by
  cases kind <;> simp only [fieldsOf, List.forall_mem_cons, List.not_mem_nil, false_implies, implies_true,
    and_true, Field.Agree] at h <;> simp [request, h]

/-- The server and the members agree on a field that is legible. -/
theorem agree_of_legible {m : Message} {field : Field} (h : m.Legible field)
    (hadmits : ∀ v, m.own field = some v → field.Admits v) :
    field.Agree (textual m.body) m.members := by
  cases field with
  | id => exact jsonCopyIdRaw_own hadmits h
  | line => exact jsonGetInt_own (.inl rfl) hadmits h
  | character => exact jsonGetInt_own (.inr rfl) hadmits h
  | method => exact jsonGetString_own (by decide) hadmits h
  | uri => exact jsonGetString_own (by decide) hadmits h
  | text => exact jsonGetString_own (by decide) hadmits h
  | query => exact jsonGetString_own (by decide) hadmits h

theorem own_method (m : Message) : m.own .method = some (.str m.method) := by
  have hpath : pathOf m.kind .method = [] := by cases m.kind <;> rfl
  rw [Message.own, hpath]
  exact m.hasMethod

/-- The handler of a message is the one of its method, where that is legible. -/
theorem readRequest_of_method {m : Message} (h : m.Legible .method) :
    readRequest m.body = some (Messages.request (textual m.body) m.kind) := by
  have hmethod : jsonGetString m.body (ascii "method") = some m.method := by
    have hown := own_method m
    have hread := jsonGetString_own (by decide) (fun v hv => ⟨m.method, by rw [hown] at hv; cases hv; rfl⟩) h
    rw [show (ascii "method") = Field.method.key from rfl, hread]
    simp only [Message.members, hown]
  rw [readRequest, cString_body, hmethod, Option.map_some]
  rfl

/-- A plain message is read for the request it makes. -/
theorem readRequest_of_plain {m : Message} (h : m.Plain) : readRequest m.body = some m.request := by
  rw [readRequest_of_method h.1, Message.request]
  congr 1
  apply request_congr
  intro field hfield
  exact agree_of_legible (h.2 field hfield) (m.admitted field hfield)

theorem stored_setText {docs : List Doc} {uri text : Bytes} (hfound : (findDoc docs uri).isSome) (uri' : Bytes) :
    stored (setText uri text docs) uri' = if uri = uri' then some text else stored docs uri' := by
  induction docs with
  | nil => cases hfound
  | cons doc rest ih =>
    by_cases hdoc : doc.uri = uri
    · subst hdoc
      by_cases huri : doc.uri = uri' <;> simp [setText, stored, findDoc, huri]
    · have hrest : (findDoc rest uri).isSome := by
        simpa [findDoc, hdoc] using hfound
      have hnext := ih hrest
      by_cases huri' : doc.uri = uri'
      · have hne : uri ≠ uri' := fun heq => hdoc (huri'.trans heq.symm)
        rw [setText, if_neg hdoc, if_neg hne]
        simp [stored, findDoc, huri']
      · simpa [setText, stored, findDoc, hdoc, huri'] using hnext

/-- Storing a text changes what is stored for its document and for no other. -/
theorem stored_upsertDoc (docs : List Doc) (uri text uri' : Bytes) :
    stored (upsertDoc docs uri text) uri' = if uri = uri' then some text else stored docs uri' := by
  rw [upsertDoc]
  split
  · rename_i hfound
    exact stored_setText hfound uri'
  · by_cases huri : uri = uri' <;> simp [stored, findDoc, huri]

/-- What a plain message does to the documents is what it does to the texts of the client. -/
theorem stored_handleMessage {m : Message} (h : m.Plain) {docs : List Doc} {texts : List (Bytes × Bytes)}
    (hsame : ∀ uri, stored docs uri = texts.lookup uri) (uri : Bytes) :
    stored (handleMessage docs m.body) uri = (clientTexts texts m).lookup uri := by
  rw [handleMessage, readRequest_of_plain h, clientTexts]
  cases m.request with
  | publish uri' text =>
    cases uri' with
    | none => exact hsame uri
    | some uri' =>
      cases text with
      | none => exact hsame uri
      | some text =>
        dsimp only
        rw [stored_upsertDoc, lookup_assign, hsame]
  | _ => exact hsame uri

/-- Of plain messages the server reads the requests they make, and after any sequence of them it
has the texts that the client has. -/
theorem requests_and_texts (messages : List Message) (h : ∀ m ∈ messages, m.Plain) :
    (∀ m ∈ messages, readRequest m.body = some m.request) ∧
      ∀ uri, stored (messages.foldl (fun docs m => handleMessage docs m.body) []) uri
        = (messages.foldl clientTexts []).lookup uri := by
  constructor
  · intro m hm
    exact readRequest_of_plain (h m hm)
  · suffices hrun : ∀ (docs : List Doc) (texts : List (Bytes × Bytes)),
        (∀ uri, stored docs uri = texts.lookup uri) → ∀ uri,
        stored (messages.foldl (fun docs m => handleMessage docs m.body) docs) uri
          = (messages.foldl clientTexts texts).lookup uri from hrun [] [] fun _ => rfl
    induction messages with
    | nil => exact fun docs texts hsame => hsame
    | cons m rest ih =>
      obtain ⟨hm, hrest⟩ := List.forall_mem_cons.mp h
      intro docs texts hsame
      exact ih hrest _ _ (stored_handleMessage hm hsame)

/-! ## Two messages -/

def textOf : Option Value → Option Bytes
  | some (.str s) => some s
  | _ => none

theorem eq_of_textOf {v : Option Value} {s : Bytes} (h : textOf v = some s) : v = some (.str s) := by
  unfold textOf at h
  split at h
  · cases h
    rfl
  · cases h

/-- Whether a value is one the protocol has for the field. -/
def Field.admits : Field → Value → Bool
  | .id, .null | .id, .num _ => true
  | .line, .num t | .character, .num t => t.all isDigit && (scanDigits 10 none t).any fun n => decide (n < 2 ^ 31)
  | .line, _ | .character, _ => false
  | _, .str _ => true
  | _, _ => false

theorem Field.admits_spec {field : Field} {v : Value} (h : field.admits v = true) : field.Admits v := by
  have hposition : ∀ t : Bytes, (t.all isDigit && (scanDigits 10 none t).any fun n => decide (n < 2 ^ 31)) = true →
      ∃ t' n, Value.num t = .num t' ∧ (∀ c ∈ t', isDigit c = true) ∧ scanDigits 10 none t' = some n ∧ n < 2 ^ 31 := by
    intro t ht
    obtain ⟨hdigits, hscan⟩ := Bool.and_eq_true_iff.mp ht
    obtain ⟨n, hn, hlt⟩ := (Option.any_eq_true _ _).mp hscan
    exact ⟨t, n, rfl, List.all_eq_true.mp hdigits, hn, of_decide_eq_true hlt⟩
  cases field <;> cases v <;> first
    | exact hposition _ h
    | exact ⟨_, rfl⟩
    | exact .inl rfl
    | exact .inr (.inl ⟨_, rfl⟩)
    | exact .inr (.inr ⟨_, rfl⟩)
    | cases h

/-- Whether a text is a message with the method. -/
def isMessage (body method : Bytes) : Bool :=
  (parse body).any fun value => textOf (follow [.member (ascii "method")] value) = some method &&
    (fieldsOf (kindOf method)).all fun field =>
      (follow (pathOf (kindOf method) field ++ [.member field.key]) value).all field.admits

theorem isMessage_spec {body method : Bytes} (h : isMessage body method = true) : ∃ value, parse body = some value ∧
    follow [.member (ascii "method")] value = some (.str method) ∧ ∀ field ∈ fieldsOf (kindOf method), ∀ v,
      follow (pathOf (kindOf method) field ++ [.member field.key]) value = some v → field.Admits v := by
  unfold isMessage at h
  cases hparse : parse body with
  | none =>
    rw [hparse] at h
    cases h
  | some value =>
    rw [hparse, Option.any_some] at h
    obtain ⟨hmethod, hfields⟩ := Bool.and_eq_true_iff.mp h
    refine ⟨value, rfl, eq_of_textOf (of_decide_eq_true hmethod), ?_⟩
    intro field hfield v hv
    have hadmits := List.all_eq_true.mp hfields field hfield
    rw [hv] at hadmits
    exact Field.admits_spec hadmits

/-- The message of a text that is one. -/
def messageOf (body method : Bytes) (h : isMessage body method = true) : Message :=
  have hsome : (parse body).isSome = true := by
    obtain ⟨value, hvalue, -⟩ := isMessage_spec h
    rw [hvalue]
    rfl
  have hspec : follow [.member (ascii "method")] ((parse body).get hsome) = some (.str method) ∧
      ∀ field ∈ fieldsOf (kindOf method), ∀ v,
        follow (pathOf (kindOf method) field ++ [.member field.key]) ((parse body).get hsome) = some v →
          field.Admits v := by
    obtain ⟨value, hvalue, hmethod, hfields⟩ := isMessage_spec h
    simp only [hvalue, Option.get_some]
    exact ⟨hmethod, hfields⟩
  { body, method, value := (parse body).get hsome, parsed := (Option.some_get hsome).symm,
    hasMethod := hspec.1, admitted := hspec.2 }

/-- A `didOpen` of a document with a text that is written so. -/
def openBody (written : Bytes) : Bytes :=
  ascii "\x7b\"method\":\"textDocument/didOpen\",\"params\":\x7b\"textDocument\":\x7b\"uri\":\"a\",\"text\":\""
    ++ (written ++ ascii "\"\x7d\x7d\x7d")

/-- The path from the message to a member of its document. -/
def documentPath (name : String) : List Step :=
  [.member (ascii "params"), .member (ascii "textDocument"), .member (ascii name)]

def openMessage (written : Bytes) {value : Value} (hparse : parse (openBody written) = some value)
    (hmethod : textOf (follow [.member (ascii "method")] value) = some (ascii "textDocument/didOpen"))
    (huri : ∃ uri, textOf (follow (documentPath "uri") value) = some uri)
    (htext : ∃ text, textOf (follow (documentPath "text") value) = some text) : Message where
  body := openBody written
  value := value
  method := ascii "textDocument/didOpen"
  parsed := hparse
  hasMethod := eq_of_textOf hmethod
  admitted := by
    have hstring : ∀ path s v, textOf (follow path value) = some s → follow path value = some v → ∃ s, v = .str s := by
      intro path s v htext hv
      rw [eq_of_textOf htext] at hv
      cases hv
      exact ⟨s, rfl⟩
    obtain ⟨uri, huri⟩ := huri
    obtain ⟨text, htext⟩ := htext
    have hkind : kindOf (ascii "textDocument/didOpen") = .didOpen := by decide
    rw [hkind]
    intro field hfield v hv
    simp only [fieldsOf, List.mem_cons, List.not_mem_nil, or_false] at hfield
    rcases hfield with rfl | rfl
    · exact hstring _ uri v huri hv
    · exact hstring _ text v htext hv

/-- The text `A`, written with its number. -/
def escapedMessage : Message :=
  openMessage (ascii "\\u0041") (Option.some_get (show (parse _).isSome = true by decide +kernel)).symm
    (by decide +kernel) ⟨ascii "a", by decide +kernel⟩ ⟨ascii "A", by decide +kernel⟩

/-- The server takes the number for the text. -/
theorem escaped_text_misread :
    stored (handleMessage [] escapedMessage.body) (ascii "a")
      ≠ (clientTexts [] escapedMessage).lookup (ascii "a") := by
  decide +kernel

/-- The text `A` as it is. -/
def plainMessage : Message :=
  openMessage (ascii "A") (Option.some_get (show (parse _).isSome = true by decide +kernel)).symm
    (by decide +kernel) ⟨ascii "a", by decide +kernel⟩ ⟨ascii "A", by decide +kernel⟩

theorem plain_plainMessage : plainMessage.Plain := by
  have hstring : ∀ field ∈ [Field.method, .uri, .text], plainMessage.Legible field := by
    intro field hfield
    have hall : ∀ field ∈ [Field.method, .uri, .text],
        afterFirst (needle field.key) plainMessage.body = (plainMessage.place field).map (·.2) ∧
        (plainMessage.literal field).all simpleEscapes = true := by decide +kernel
    obtain ⟨hfirst, hsimple⟩ := hall field hfield
    refine ⟨hfirst, ?_⟩
    intro inner hinner
    rw [hinner] at hsimple
    simp only [List.mem_cons, List.not_mem_nil, or_false] at hfield
    rcases hfield with rfl | rfl | rfl <;> exact hsimple
  have hkind : plainMessage.kind = .didOpen := by decide
  refine ⟨hstring _ (by simp), ?_⟩
  rw [hkind]
  intro field hfield
  exact hstring field (List.mem_cons_of_mem _ hfield)

theorem requests_and_texts_of_plainMessage :
    (∀ m ∈ [plainMessage], readRequest m.body = some m.request) ∧
      ∀ uri, stored ([plainMessage].foldl (fun docs m => handleMessage docs m.body) []) uri
        = ([plainMessage].foldl clientTexts []).lookup uri :=
  requests_and_texts [plainMessage] fun _ hm => List.mem_singleton.mp hm ▸ plain_plainMessage

end QStar.LanguageServer.Messages
