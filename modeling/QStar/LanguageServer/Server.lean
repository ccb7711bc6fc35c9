import QStar.LanguageServer.Handlers

/-!
# The loop of the language server

Messages come framed by a header that has their length, and the server answers one
after the other until it is told to exit, the input ends or a handler fails. Where
what a message makes the server write fits its buffers and can be written as JSON,
and the id is where the server looks for it, every message with an id gets one
response with that id.
-/
namespace QStar.LanguageServer.Server

open QStar.LanguageServer.Handlers
open QStar.LanguageServer.Messages
open QStar.LanguageServer.Payloads
open QStar.Lib
open QStar.Lib.CStrings
open QStar.Lib.JsonMembers (follow)
open QStar.Lib.JsonReader
open QStar.Lib.JsonWriting
open QStar.Lib.Lines
open QStar.Lib.Numerals
open QStar.Lib.TextualKeys (needle)

/-! ## Reading and sending -/

/-- Whether the header is complete. -/
def endsHeader (header : Bytes) : Bool :=
  decide ([13, 10, 13, 10] <:+ header) || decide ([10, 10] <:+ header)

/-- The loop of `lsp_read_message`: the header and what follows it; no value where the header does
not fit its buffer. -/
def readHeader : Bytes → Bytes → Option (Bytes × Bytes)
  | header, [] => some (header, [])
  | header, c :: rest =>
    if 8192 ≤ header.length + 1 then none
    else if endsHeader (header ++ [c]) then some (header ++ [c], rest)
    else readHeader (header ++ [c]) rest

/-- `parse_content_length` -/
def parseContentLength (header : Bytes) : Int :=
  match afterFirst (ascii "Content-Length:") (cString header) with
  | some p => atoi (p.dropWhile fun c => c = 32 || c = 9)
  | none => -1

/-- `lsp_read_message`, with what follows the message. -/
def lspReadMessage (input : Bytes) : Option (Bytes × Bytes) :=
  if input = [] then none
  else
    (readHeader [] input).bind fun (header, rest) =>
      let length := parseContentLength header
      if length < 0 ∨ rest.length < length.toNat then none
      else some (rest.take length.toNat, rest.drop length.toNat)

/-- `lsp_send` -/
def lspSend (payload : Bytes) : Bytes :=
  ascii "Content-Length: " ++ (printUnsigned 10 payload.length ++ ([13, 10, 13, 10] ++ payload))

/-- The loop of `qstar_lsp_stdio` with the workspace at each message: what is sent and the exit
status. -/
def serve (ws : Nat → Workspace) : Nat → Nat → List Doc → Bytes → Bytes × Nat
  | 0, _, _, _ => ([], 0)
  | fuel + 1, n, docs, input =>
    match lspReadMessage input with
    | none => ([], 0)
    | some (body, rest) =>
      match readRequest body with
      | none => serve ws fuel (n + 1) docs rest
      | some .exit => ([], 0)
      | some req =>
        match answer (ws n) (handleMessage docs body) req with
        | none => ([], 1)
        | some payloads =>
          let served := serve ws fuel (n + 1) (handleMessage docs body) rest
          (payloads.flatMap lspSend ++ served.1, served.2)

/-- `qstar_lsp_stdio`; a message takes at least one byte of the input. -/
def qstarLspStdio (ws : Nat → Workspace) (input : Bytes) : Bytes × Nat := serve ws (input.length + 1) 0 [] input

/-! ## Frames -/

/-- A field of a header: a line without control characters but tabs. -/
def IsField (field : Bytes) : Prop := field ≠ [] ∧ ∀ c ∈ field, c = 9 ∨ 32 ≤ c

/-- A message with the fields of its header, before and behind its length. -/
structure Frame where
  before : List Bytes
  blanks : Bytes
  behind : List Bytes
  message : Message
  isField : ∀ field ∈ before ++ behind, IsField field
  isBlank : ∀ c ∈ blanks, c = 32 ∨ c = 9

namespace Frame

variable (f : Frame)

def lengthText : Bytes := printUnsigned 10 f.message.body.length

def lengthField : Bytes := ascii "Content-Length:" ++ (f.blanks ++ f.lengthText)

def fields : List Bytes := f.before ++ f.lengthField :: f.behind

def header : Bytes := f.fields.flatMap (· ++ [13, 10]) ++ [13, 10]

def text : Bytes := f.header ++ f.message.body

end Frame

/-! ## What is asked of the answers -/

/-- A text in front of a payload that has its length. -/
structure Framed (frame payload digits : Bytes) : Prop where
  text : frame = ascii "Content-Length: " ++ (digits ++ ([13, 10, 13, 10] ++ payload))
  decimal : ∀ c ∈ digits, isDigit c = true
  value : scanDigits 10 none digits = some payload.length

/-- The payloads a message is answered with: each is a JSON text, and they are one response with
the id of the message if it has one. Without an id there is no response, or one to no request. -/
structure Answered (m : Message) (payloads : List Bytes) : Prop where
  parses : ∀ p ∈ payloads, ∃ v, parse p = some v
  once : ∀ id, m.own .id = some id → ∃ p v, payloads = [p] ∧ parse p = some v ∧ IsResponse v id
  silent : m.own .id = none → ∀ p ∈ payloads, ∀ v, parse p = some v →
    follow [.member (ascii "id")] v = none ∨ follow [.member (ascii "id")] v = some .null

/-- The messages up to the one that ends the server. -/
def untilExit (frames : List Frame) : List Frame := frames.takeWhile fun f => decide (f.message.kind ≠ .exit)

/-- Every message up to an exit is answered, by frames that have the lengths of their payloads,
and the server ends well. -/
def AnswersAll (ws : Nat → Workspace) (frames : List Frame) : Prop :=
  ∃ answers : List (List Bytes), qstarLspStdio ws (frames.flatMap Frame.text) = (answers.flatten.flatMap lspSend, 0) ∧
    List.Forall₂ (fun f payloads => Answered f.message payloads) (untilExit frames) answers ∧
    ∀ payload ∈ answers.flatten, ∃ digits, Framed (lspSend payload) payload digits

/-- A message the server can answer: its length is the first one in a header that fits, its method
and its id are read as the message has them and only a request has an id, the id fits the
format of the response, and what it is answered with can be written. -/
structure Answerable (ws : Workspace) (docs : List Doc) (f : Frame) : Prop where
  header : f.header.length < 8192
  length : afterFirst (ascii "Content-Length:") f.header =
    some (f.blanks ++ (f.lengthText ++ (13 :: 10 :: (f.behind.flatMap (· ++ [13, 10]) ++ [13, 10]))))
  short : f.message.body.length < 2 ^ 31
  method : f.message.Legible .method
  id : .id ∈ fieldsOf f.message.kind → f.message.Legible .id
  noId : .id ∉ fieldsOf f.message.kind → f.message.own .id = none
  fits : .id ∈ fieldsOf f.message.kind → Fits f.message.members.id (tailOf f.message.kind)
  writable : Writable ws (handleMessage docs f.message.body) (request (textual f.message.body) f.message.kind)

/-- Every message up to an exit is answerable when it comes. -/
def AllAnswerable (ws : Nat → Workspace) : Nat → List Doc → List Frame → Prop
  | _, _, [] => True
  | n, docs, f :: rest => Answerable (ws n) docs f ∧
      (f.message.kind ≠ .exit → AllAnswerable ws (n + 1) (handleMessage docs f.message.body) rest)

/-! ## Frames are read -/

theorem endsHeader_of_ne {header : Bytes} {c : UInt8} (hc : c ≠ 10) : endsHeader (header ++ [c]) = false := by
  have hlast : ∀ {pattern : Bytes}, pattern.getLast? = some 10 → ¬pattern <:+ header ++ [c] := by
    rintro pattern hpattern ⟨before, hbefore⟩
    have hend := congrArg List.getLast? hbefore
    rw [List.getLast?_append, hpattern, List.getLast?_append] at hend
    exact hc (Option.some.inj hend).symm
  rw [endsHeader, decide_eq_false (hlast rfl), decide_eq_false (hlast rfl), Bool.or_false]

theorem readHeader_append {header text : Bytes} (htext : ∀ c ∈ text, c ≠ 10)
    (hroom : header.length + text.length < 8192) (rest : Bytes) :
    readHeader header (text ++ rest) = readHeader (header ++ text) rest := by
  induction text generalizing header with
  | nil => rw [List.nil_append, List.append_nil]
  | cons c text ih =>
    obtain ⟨hc, htext⟩ := List.forall_mem_cons.mp htext
    rw [List.length_cons] at hroom
    have hnext : readHeader header (c :: (text ++ rest)) = readHeader (header ++ [c]) (text ++ rest) := by
      rw [readHeader, if_neg (by omega), endsHeader_of_ne hc]
      rfl
    rw [List.cons_append, hnext, ih htext (by rw [List.length_append, List.length_singleton]; omega),
      List.append_assoc, List.singleton_append]

theorem ne_newline_of_isField {field : Bytes} (h : IsField field) : ∀ c ∈ field, c ≠ 10 := by
  rintro c hc rfl
  rcases h.2 10 hc with h10 | h10
  · exact absurd h10 (by decide)
  · exact absurd h10 (by decide)

/-- A line that is not empty does not end the header. -/
theorem readHeader_field {header field : Bytes} (hfield : IsField field)
    (hroom : header.length + field.length + 2 < 8192) (rest : Bytes) :
    readHeader header (field ++ (13 :: 10 :: rest)) = readHeader (header ++ (field ++ [13, 10])) rest := by
  have hplain : ∀ c ∈ field ++ [13], c ≠ 10 := by
    intro c hc
    rcases List.mem_append.mp hc with hc | hc
    · exact ne_newline_of_isField hfield c hc
    · rw [List.mem_singleton.mp hc]
      decide
  have hsplit : field ++ (13 :: 10 :: rest) = field ++ [13] ++ 10 :: rest := by simp
  have hopen : endsHeader (header ++ (field ++ [13]) ++ [10]) = false := by
    obtain ⟨before, d, rfl⟩ := (List.eq_nil_or_concat' field).resolve_left hfield.1
    have hd : d ≠ 10 := ne_newline_of_isField hfield d (by simp)
    have hcrlf : ¬[13, 10, 13, 10] <:+ header ++ (before ++ [d] ++ [13]) ++ [10] := by
      rintro ⟨pre, hpre⟩
      have hlist : pre ++ [13] ++ [10, 13, 10] = header ++ before ++ [d, 13, 10] := by
        simpa using hpre
      exact hd (List.cons.inj (List.append_inj' hlist rfl).2).1.symm
    have hlf : ¬[10, 10] <:+ header ++ (before ++ [d] ++ [13]) ++ [10] := by
      rintro ⟨pre, hpre⟩
      have hlist : pre ++ [10, 10] = header ++ before ++ [d] ++ [13, 10] := by
        simpa using hpre
      exact absurd (List.cons.inj (List.append_inj' hlist rfl).2).1 (by decide)
    rw [endsHeader, decide_eq_false hcrlf, decide_eq_false hlf, Bool.or_false]
  rw [hsplit, readHeader_append hplain (by rw [List.length_append, List.length_singleton]; omega), readHeader,
    if_neg (by simp only [List.length_append, List.length_singleton]; omega), hopen]
  simp

theorem readHeader_fields {header : Bytes} {fields : List Bytes} (hfields : ∀ field ∈ fields, IsField field)
    (hroom : (header ++ fields.flatMap (· ++ [13, 10])).length < 8192) (rest : Bytes) :
    readHeader header (fields.flatMap (· ++ [13, 10]) ++ rest) =
      readHeader (header ++ fields.flatMap (· ++ [13, 10])) rest := by
  induction fields generalizing header with
  | nil => simp
  | cons field fields ih =>
    obtain ⟨hfield, hfields⟩ := List.forall_mem_cons.mp hfields
    rw [List.flatMap_cons] at hroom ⊢
    simp only [List.length_append, List.length_cons, List.length_nil] at hroom
    have hsplit : field ++ [13, 10] ++ fields.flatMap (· ++ [13, 10]) ++ rest =
        field ++ (13 :: 10 :: (fields.flatMap (· ++ [13, 10]) ++ rest)) := by simp
    have hroom' : (header ++ (field ++ [13, 10]) ++ fields.flatMap (· ++ [13, 10])).length < 8192 := by
      simp only [List.length_append, List.length_cons, List.length_nil]
      omega
    rw [hsplit, readHeader_field hfield (by omega), ih hfields hroom', List.append_assoc]

/-- A line break behind a line break ends the header. -/
theorem readHeader_end {header : Bytes} (hroom : header.length + 4 < 8192) (rest : Bytes) :
    readHeader (header ++ [13, 10]) (13 :: 10 :: rest) = some (header ++ [13, 10, 13, 10], rest) := by
  have hopen : endsHeader (header ++ [13, 10] ++ [13]) = false := endsHeader_of_ne (by decide)
  have hclose : endsHeader (header ++ [13, 10] ++ [13] ++ [10]) = true := by
    have hsuffix : [13, 10, 13, 10] <:+ header ++ [13, 10] ++ [13] ++ [10] := ⟨header, by simp⟩
    rw [endsHeader, decide_eq_true hsuffix, Bool.true_or]
  rw [readHeader, if_neg (by simp only [List.length_append, List.length_cons, List.length_nil]; omega), hopen,
    if_neg (by simp), readHeader,
    if_neg (by simp only [List.length_append, List.length_cons, List.length_nil]; omega), hclose, if_pos rfl]
  simp

section Frames

variable {f : Frame}

theorem isField_lengthField (f : Frame) : IsField f.lengthField := by
  constructor
  · rw [Frame.lengthField]
    exact List.append_ne_nil_of_left_ne_nil (by decide) _
  · intro c hc
    have hname : ∀ c ∈ ascii "Content-Length:", c = 9 ∨ 32 ≤ c := by decide
    rcases List.mem_append.mp hc with hc | hc
    · exact hname c hc
    · rcases List.mem_append.mp hc with hc | hc
      · rcases f.isBlank c hc with rfl | rfl
        · exact .inr (by decide)
        · exact .inl rfl
      · have hdigit := printUnsigned_isDigit hc
        have hlarge : ∀ c, isDigit c = true → 32 ≤ c :=
          forall_byte (P := fun c => isDigit c = true → 32 ≤ c) (by decide +kernel)
        exact .inr (hlarge c hdigit)

theorem isField_fields (f : Frame) : ∀ field ∈ f.fields, IsField field := by
  intro field hfield
  rcases List.mem_append.mp hfield with hbefore | hrest
  · exact f.isField field (List.mem_append_left _ hbefore)
  · rcases List.mem_cons.mp hrest with rfl | hbehind
    · exact isField_lengthField f
    · exact f.isField field (List.mem_append_right _ hbehind)

/-- The header of a frame is read up to its end. -/
theorem readHeader_frame (hroom : f.header.length < 8192) (rest : Bytes) :
    readHeader [] (f.header ++ rest) = some (f.header, rest) := by
  obtain ⟨before, hbefore⟩ : ∃ before, f.fields.flatMap (· ++ [13, 10]) = before ++ [13, 10] := by
    obtain ⟨fields, last, hlast⟩ := (List.eq_nil_or_concat' f.fields).resolve_left (by simp [Frame.fields])
    refine ⟨fields.flatMap (· ++ [13, 10]) ++ last, ?_⟩
    rw [hlast, List.flatMap_append, List.flatMap_singleton, List.append_assoc]
  rw [Frame.header, hbefore] at hroom ⊢
  simp only [List.length_append, List.length_cons, List.length_nil] at hroom
  have hshort : ([] ++ f.fields.flatMap (· ++ [13, 10])).length < 8192 := by
    rw [hbefore]
    simp only [List.nil_append, List.length_append, List.length_cons, List.length_nil]
    omega
  have hfields := readHeader_fields (isField_fields f) hshort (13 :: 10 :: rest)
  rw [hbefore, List.nil_append, readHeader_end (by omega)] at hfields
  have hsplit : before ++ [13, 10] ++ [13, 10] ++ rest = before ++ [13, 10] ++ 13 :: 10 :: rest := by simp
  rw [hsplit, hfields]
  simp

theorem zero_notMem_header (f : Frame) : 0 ∉ f.header := by
  intro hmem
  rcases List.mem_append.mp hmem with hmem | hmem
  · obtain ⟨field, hfield, hmem⟩ := List.mem_flatMap.mp hmem
    rcases List.mem_append.mp hmem with hmem | hmem
    · rcases (isField_fields f field hfield).2 0 hmem with h | h
      · exact absurd h (by decide)
      · exact absurd h (by decide)
    · exact absurd hmem (by decide)
  · exact absurd hmem (by decide)

/-- The length of a frame is read as the length of its message. -/
theorem parseContentLength_frame {ws : Workspace} {docs : List Doc} (h : Answerable ws docs f) :
    parseContentLength f.header = f.message.body.length := by
  have hspan : ∀ c ∈ f.blanks, (c = 32 || c = 9) = true := by
    intro c hc
    rcases f.isBlank c hc with rfl | rfl <;> rfl
  have hdigits : ∀ c ∈ f.lengthText, isDigit c = true := fun c hc => printUnsigned_isDigit hc
  have hhead : ∀ rest, ∀ c ∈ (f.lengthText ++ rest).head?, (c = 32 || c = 9) = false := by
    intro rest c hc
    obtain ⟨d, tail, hprint⟩ := List.exists_cons_of_ne_nil (printUnsigned_ne_nil 10 f.message.body.length)
    rw [Frame.lengthText, hprint] at hc
    obtain rfl : d = c := Option.some.inj hc
    have hdigit : isDigit d = true := printUnsigned_isDigit (n := f.message.body.length) (by simp [hprint])
    have hother : ∀ c, isDigit c = true → (c = 32 || c = 9) = false :=
      forall_byte (P := fun c => isDigit c = true → (c = 32 || c = 9) = false) (by decide +kernel)
    exact hother d hdigit
  have hrest : ∀ rest : Bytes, ∀ c ∈ (13 :: rest).head?, isDigit c = false := by
    intro rest c hc
    obtain rfl : 13 = c := Option.some.inj hc
    rfl
  rw [parseContentLength, cString_eq_self (zero_notMem_header f), h.length]
  dsimp only
  rw [(takeWhile_all hspan (hhead _)).2, atoi_digits hdigits (hrest _) (printUnsigned_ten _).2.2 h.short]

/-- The server reads the message of a frame. -/
theorem lspReadMessage_frame {ws : Workspace} {docs : List Doc} (h : Answerable ws docs f) (rest : Bytes) :
    lspReadMessage (f.text ++ rest) = some (f.message.body, rest) := by
  have hne : f.text ++ rest ≠ [] := by
    intro hnil
    have hheader := List.append_eq_nil_iff.mp (List.append_eq_nil_iff.mp hnil).1
    exact absurd (List.append_eq_nil_iff.mp hheader.1).2 (by decide)
  rw [lspReadMessage, if_neg hne, Frame.text, List.append_assoc, readHeader_frame h.header, Option.bind_some]
  dsimp only
  rw [parseContentLength_frame h, if_neg (by simp), Int.toNat_natCast, List.take_left, List.drop_left]

end Frames

/-! ## Messages are answered -/

/-- The uris of the documents are UTF-8. -/
def ValidUris (docs : List Doc) : Prop := ∀ doc ∈ docs, Utf8.Valid doc.uri

theorem validUris_setText {docs : List Doc} (h : ValidUris docs) (uri text : Bytes) :
    ValidUris (setText uri text docs) := by
  induction docs with
  | nil => exact h
  | cons doc docs ih =>
    obtain ⟨hdoc, hdocs⟩ := List.forall_mem_cons.mp h
    rw [setText]
    split
    · exact List.forall_mem_cons.mpr ⟨hdoc, hdocs⟩
    · exact List.forall_mem_cons.mpr ⟨hdoc, ih hdocs⟩

theorem validUris_upsertDoc {docs : List Doc} (h : ValidUris docs) {uri : Bytes} (huri : Utf8.Valid uri)
    (text : Bytes) : ValidUris (upsertDoc docs uri text) := by
  rw [upsertDoc]
  split
  · exact validUris_setText h uri text
  · exact List.forall_mem_cons.mpr ⟨huri, h⟩

/-- A message leaves the uris UTF-8, as it is UTF-8 itself. -/
theorem validUris_handleMessage {docs : List Doc} (h : ValidUris docs) (m : Message) :
    ValidUris (handleMessage docs m.body) := by
  unfold handleMessage
  split
  · rename_i uri text hread
    obtain ⟨method, -, hrequest⟩ := Option.map_eq_some_iff.mp hread
    rw [cString_body] at hrequest
    have huri : jsonGetString m.body (ascii "uri") = some uri := by
      cases hkind : kindOf method <;> simp only [hkind, request, reduceCtorEq, Request.publish.injEq] at hrequest <;>
        exact hrequest.1
    exact validUris_upsertDoc h (valid_jsonGetString huri) text
  · exact h

theorem valid_of_docOf {docs : List Doc} (h : ValidUris docs) {uri : Option Bytes} {doc : Doc}
    (hdoc : docOf docs uri = some doc) : Utf8.Valid doc.uri := by
  obtain ⟨u, -, hfind⟩ := Option.bind_eq_some_iff.mp hdoc
  exact h doc (List.mem_of_find?_eq_some hfind)

theorem answered_nil {m : Message} (h : m.own .id = none) : Answered m [] where
  parses := by simp
  once := by
    intro id hid
    rw [h] at hid
    cases hid
  silent := by simp

/-- A response answers a request with its id. -/
theorem answered_response {m : Message} {payload : Bytes} {v w : Value} (hreads : Reads payload v)
    (hresponse : IsResponse v w) (hid : m.own .id = some w ∨ m.own .id = none ∧ w = .null) :
    Answered m [payload] where
  parses := by
    intro p hp
    rw [List.mem_singleton.mp hp]
    exact ⟨v, parse_of_reads hreads⟩
  once := by
    intro id hown
    rcases hid with hid | ⟨hid, -⟩
    · obtain rfl : w = id := Option.some.inj (hid.symm.trans hown)
      exact ⟨payload, v, rfl, parse_of_reads hreads, hresponse⟩
    · rw [hid] at hown
      cases hown
  silent := by
    intro hown p hp v' hv'
    rcases hid with hid | ⟨-, rfl⟩
    · rw [hid] at hown
      cases hown
    · rw [List.mem_singleton.mp hp, parse_of_reads hreads] at hv'
      cases hv'
      exact .inr hresponse.id

theorem answered_notification {m : Message} {payload : Bytes} {members : List (Bytes × Value)}
    (hreads : Reads payload (.obj members)) (hmembers : members.lookup (ascii "id") = none)
    (hid : m.own .id = none) : Answered m [payload] where
  parses := by
    intro p hp
    rw [List.mem_singleton.mp hp]
    exact ⟨_, parse_of_reads hreads⟩
  once := by
    intro id hown
    rw [hid] at hown
    cases hown
  silent := by
    intro _ p hp v hv
    rw [List.mem_singleton.mp hp, parse_of_reads hreads] at hv
    cases hv
    left
    rw [follow, hmembers]
    rfl

/-- An answerable request is answered. -/
theorem answered_request {ws : Workspace} {docs : List Doc} {f : Frame} (h : Answerable ws docs f)
    (hkind : .id ∈ fieldsOf f.message.kind) :
    ∃ payloads, answer ws (handleMessage docs f.message.body) (request (textual f.message.body) f.message.kind) =
      some payloads ∧ Answered f.message payloads := by
  have hadmits := f.message.admitted .id hkind
  have hspec := jsonCopyIdRaw_reads hadmits (h.id hkind)
  have hfits := h.fits hkind
  rw [← jsonCopyIdRaw_own hadmits (h.id hkind)] at hfits
  cases hown : f.message.own .id with
  | some w =>
    rw [hown] at hspec
    obtain ⟨t, hraw, hreads⟩ := hspec
    have hid : (textual f.message.body).id = some t := hraw
    obtain ⟨payload, v, hanswer, hv, hresponse⟩ := answer_request hkind (fun _ => by rw [hid]; rfl)
      (by rw [hid]; exact hreads) (by rw [hid, ← hraw]; exact hfits) h.writable
    exact ⟨_, hanswer, answered_response hv hresponse (.inl hown)⟩
  | none =>
    rw [hown] at hspec
    have hid : (textual f.message.body).id = none := hspec
    by_cases hother : f.message.kind = .other
    · refine ⟨[], ?_, answered_nil hown⟩
      rw [hother, request, answer, hid]
      rfl
    · obtain ⟨payload, v, hanswer, hv, hresponse⟩ := answer_request (w := .null) hkind
        (fun heq => absurd heq hother) (by rw [hid]; exact reads_null) (by rw [hid, ← hspec]; exact hfits) h.writable
      exact ⟨_, hanswer, answered_response hv hresponse (.inr ⟨hown, rfl⟩)⟩

/-- An answerable notification sends nothing or diagnostics. -/
theorem answered_publish {ws : Workspace} {docs : List Doc} (hdocs : ValidUris docs) {m : Message}
    (hid : m.own .id = none) {uri text : Option Bytes} (h : Writable ws docs (.publish uri text)) :
    ∃ payloads, answer ws docs (.publish uri text) = some payloads ∧ Answered m payloads := by
  refine ⟨_, rfl, ?_⟩
  cases hdoc : docOf docs uri with
  | none => exact answered_nil hid
  | some doc =>
    obtain ⟨members, hreads, hmembers⟩ := exists_reads_publishDiagnostics (valid_of_docOf hdocs hdoc) (h doc hdoc)
    exact answered_notification hreads hmembers hid

theorem answered_of_answerable {ws : Workspace} {docs : List Doc} {f : Frame} (hdocs : ValidUris docs)
    (h : Answerable ws docs f) (hexit : f.message.kind ≠ .exit) :
    ∃ payloads, answer ws (handleMessage docs f.message.body) (request (textual f.message.body) f.message.kind) =
      some payloads ∧ Answered f.message payloads := by
  by_cases hkind : .id ∈ fieldsOf f.message.kind
  · exact answered_request h hkind
  · have hid := h.noId hkind
    have hwritable := h.writable
    have huris := validUris_handleMessage hdocs f.message
    cases hcase : f.message.kind with
    | exit => exact absurd hcase hexit
    | didOpen | didChange | didSave =>
      rw [hcase] at hwritable
      exact answered_publish huris hid hwritable
    | _ =>
      rw [hcase] at hkind
      exact absurd (by decide) hkind

/-! ## The run -/

theorem framed_lspSend (payload : Bytes) : Framed (lspSend payload) payload (printUnsigned 10 payload.length) where
  text := rfl
  decimal := fun _ hc => printUnsigned_isDigit hc
  value := (printUnsigned_ten _).2.2

/-- One message of a run that does not end it. -/
theorem serve_frame {ws : Nat → Workspace} {n : Nat} {docs : List Doc} {f : Frame} (h : Answerable (ws n) docs f)
    (hexit : f.message.kind ≠ .exit) {payloads : List Bytes}
    (hanswer : answer (ws n) (handleMessage docs f.message.body) (request (textual f.message.body) f.message.kind) =
      some payloads) (fuel : Nat) (rest : Bytes) :
    serve ws (fuel + 1) n docs (f.text ++ rest) =
      (payloads.flatMap lspSend ++ (serve ws fuel (n + 1) (handleMessage docs f.message.body) rest).1,
        (serve ws fuel (n + 1) (handleMessage docs f.message.body) rest).2) := by
  rw [serve, lspReadMessage_frame h]
  simp only [readRequest_of_method h.method]
  cases hkind : f.message.kind with
  | exit => exact absurd hkind hexit
  | _ =>
    rw [hkind] at hanswer
    simp only [request] at hanswer ⊢
    rw [hanswer]

theorem serve_exit {ws : Nat → Workspace} {n : Nat} {docs : List Doc} {f : Frame} (h : Answerable (ws n) docs f)
    (hexit : f.message.kind = .exit) (fuel : Nat) (rest : Bytes) :
    serve ws (fuel + 1) n docs (f.text ++ rest) = ([], 0) := by
  rw [serve, lspReadMessage_frame h]
  simp only [readRequest_of_method h.method, hexit, request]

theorem length_text_pos (f : Frame) : 0 < f.text.length := by
  rw [Frame.text, Frame.header, List.length_append, List.length_append]
  simp

theorem serve_frames {ws : Nat → Workspace} {frames : List Frame} {fuel n : Nat} {docs : List Doc}
    (hfuel : (frames.flatMap Frame.text).length < fuel) (hdocs : ValidUris docs)
    (h : AllAnswerable ws n docs frames) :
    ∃ answers : List (List Bytes), serve ws fuel n docs (frames.flatMap Frame.text) =
        (answers.flatten.flatMap lspSend, 0) ∧
      List.Forall₂ (fun f payloads => Answered f.message payloads) (untilExit frames) answers := by
  induction frames generalizing fuel n docs with
  | nil =>
    obtain ⟨fuel, rfl⟩ : ∃ k, fuel = k + 1 := ⟨fuel - 1, by omega⟩
    refine ⟨[], ?_, .nil⟩
    rw [serve]
    rfl
  | cons f frames ih =>
    obtain ⟨fuel, rfl⟩ : ∃ k, fuel = k + 1 := ⟨fuel - 1, by omega⟩
    obtain ⟨hf, hframes⟩ := h
    rw [List.flatMap_cons] at hfuel ⊢
    by_cases hexit : f.message.kind = .exit
    · refine ⟨[], serve_exit hf hexit _ _, ?_⟩
      rw [untilExit, List.takeWhile_cons_of_neg (by simp [hexit])]
      exact .nil
    · obtain ⟨payloads, hanswer, hanswered⟩ := answered_of_answerable hdocs hf hexit
      have hpos := length_text_pos f
      rw [List.length_append] at hfuel
      have hrest : (frames.flatMap Frame.text).length < fuel := by omega
      obtain ⟨answers, hserve, hanswers⟩ := ih hrest (validUris_handleMessage hdocs f.message) (hframes hexit)
      refine ⟨payloads :: answers, ?_, ?_⟩
      · rw [serve_frame hf hexit hanswer, hserve, List.flatten_cons, List.flatMap_append]
      · rw [untilExit, List.takeWhile_cons_of_pos (by simp [hexit])]
        exact .cons hanswered hanswers

/-- Where every message is answerable when it comes, every message up to an exit is answered. -/
theorem answersAll_of_answerable (ws : Nat → Workspace) (frames : List Frame) (h : AllAnswerable ws 0 [] frames) :
    AnswersAll ws frames := by
  obtain ⟨answers, hserve, hanswers⟩ := serve_frames (Nat.lt_succ_self _) (by simp [ValidUris]) h
  exact ⟨answers, hserve, hanswers, fun payload _ => ⟨_, framed_lspSend payload⟩⟩

/-! ## Two runs -/

/-- A message with its length and no other field. -/
def framed (m : Message) : Frame where
  before := []
  blanks := [32]
  behind := []
  message := m
  isField := by simp
  isBlank := by simp

/-- Files that are all there, and a graph that is empty. -/
def emptyWorkspace : Workspace := ⟨fun _ => true, fun _ => (false, ⟨[], [], [], [], []⟩)⟩

/-- A root file that imports a module with a slash behind its name. -/
def openedBody : Bytes :=
  ascii "\x7b\"jsonrpc\":\"2.0\"," ++ (ascii "\"method\":\"textDocument/didOpen\"," ++
    (ascii "\"params\":\x7b\"textDocument\":\x7b" ++ (ascii "\"uri\":\"file:///qstar.lua\"," ++
    ascii "\"text\":\"qstar.import_module('x/')\"\x7d\x7d\x7d")))

def openedMessage : Message := messageOf openedBody (ascii "textDocument/didOpen") (by decide +kernel)

/-- The definition of the module is asked for. -/
def definitionBody : Bytes :=
  ascii "\x7b\"jsonrpc\":\"2.0\",\"id\":1," ++ (ascii "\"method\":\"textDocument/definition\"," ++
    (ascii "\"params\":\x7b\"textDocument\":\x7b" ++ (ascii "\"uri\":\"file:///qstar.lua\"\x7d," ++
    ascii "\"position\":\x7b\"line\":0,\"character\":21\x7d\x7d\x7d")))

def definitionMessage : Message := messageOf definitionBody (ascii "textDocument/definition") (by decide +kernel)

/-- The request ends the server without a response. -/
theorem definition_ends_server :
    ¬AnswersAll (fun _ => emptyWorkspace) [framed openedMessage, framed definitionMessage] := by
  rintro ⟨answers, hrun, -⟩
  have hstatus : (qstarLspStdio (fun _ => emptyWorkspace)
      ([framed openedMessage, framed definitionMessage].flatMap Frame.text)).2 = 1 := by
    decide +kernel
  rw [hrun] at hstatus
  cases hstatus

def shutdownBody : Bytes := ascii "\x7b\"jsonrpc\":\"2.0\",\"id\":1,\"method\":\"shutdown\"\x7d"

def shutdownMessage : Message := messageOf shutdownBody (ascii "shutdown") (by decide +kernel)

theorem answerable_shutdown : Answerable emptyWorkspace [] (framed shutdownMessage) where
  header := by decide +kernel
  length := by decide +kernel
  short := by decide +kernel
  method := by
    refine ⟨by decide +kernel, ?_⟩
    have hliteral : (shutdownMessage.literal .method).all simpleEscapes = true := by decide +kernel
    intro inner hinner
    rw [show (framed shutdownMessage).message = shutdownMessage from rfl] at hinner
    rw [hinner] at hliteral
    exact hliteral
  id := by
    intro _
    refine ⟨by decide +kernel, ?_⟩
    have hliteral : shutdownMessage.literal .id = none := by decide +kernel
    intro inner hinner
    rw [show (framed shutdownMessage).message = shutdownMessage from rfl, hliteral] at hinner
    cases hinner
  noId := fun hnone => absurd (by decide +kernel) hnone
  fits := by
    intro _
    have hid : shutdownMessage.members.id = some (ascii "1") := by decide +kernel
    have hkind : shutdownMessage.kind = .shutdown := by decide +kernel
    rw [show (framed shutdownMessage).message = shutdownMessage from rfl, hid, hkind, Fits]
    decide
  writable := by
    have hkind : (framed shutdownMessage).message.kind = .shutdown := by decide +kernel
    rw [hkind]
    trivial

theorem answersAll_of_answerable_shutdown :
    AnswersAll (fun _ => emptyWorkspace) [framed shutdownMessage] :=
  answersAll_of_answerable (fun _ => emptyWorkspace) [framed shutdownMessage] ⟨answerable_shutdown, fun _ => trivial⟩

end QStar.LanguageServer.Server
