import QStar.Daemon.Protocol

/-!
# The daemon's event stream

What a build prints is gathered into lines of bounded length. Each is sent as a
frame, a header line with a kind and a length before the bytes, and a last line
carries the status. The client copies the bytes of every frame and takes a stream
that ends early as a failed build.
-/
namespace QStar.Daemon.EventStream

open QStar.Lib.CStrings
open QStar.Lib.Lines (OneLine writeLine printInt parseInt printInt_oneLine)
open QStar.Lib.Fnv (hexDigit)
open QStar.Lib.Numerals
open QStar.Lib.Wire
open QStar.Daemon.Protocol

/-! ## Sending -/

/-- `bytes_starts_with` -/
def bytesStartsWith (buf : Bytes) (text : String) : Bool := decide (ascii text <+: buf)

/-- `bytes_contains` of a needle that is not empty. -/
def bytesContains (buf : Bytes) (text : String) : Bool := strstr buf (ascii text)

/-- `classify_event_payload` -/
def classifyEventPayload (buf : Bytes) : Bytes :=
  if buf = [] then ascii "output"
  else if buf.head? = some 91 ∧ bytesContains buf "%]" then ascii "progress"
  else if bytesContains buf "warning:" ∨ bytesContains buf "error:" then ascii "diagnostic"
  else if ["action_", "build_action ", "schedule_action ", "cache_action ", "daemon_server ",
      "daemon_watcher ", "plan_cache ", "dirty_state_db ", "deps_db "].any (bytesStartsWith buf) then
    ascii "action"
  else if ["qstar build ", "backend ", "root ", "status ", "run="].any (bytesStartsWith buf) then
    ascii "summary"
  else ascii "output"

/-- The header of a frame, without its newline. -/
def eventHeader (type : Bytes) (len : Nat) : Bytes :=
  ascii "event " ++ type ++ ascii " " ++ printUnsigned 10 len

/-- `write_event_frame` -/
def writeEventFrame (type buf : Bytes) : Option Bytes :=
  if 128 ≤ (eventHeader type buf.length).length then none
  else some (writeLine (eventHeader type buf.length) ++ buf)

/-- `struct qstar_daemon_event_stream` with what went to its descriptor. -/
structure DaemonEventStream where
  line : Bytes
  sent : Bytes

/-- `event_stream_flush_line` -/
def eventStreamFlushLine (stream : DaemonEventStream) : Option DaemonEventStream :=
  if stream.line = [] then some stream
  else
    (writeEventFrame (classifyEventPayload stream.line) stream.line).map fun frame =>
      ⟨[], stream.sent ++ frame⟩

/-- One round of the loop of `event_stream_write_bytes`. -/
def eventStreamWriteByte (stream : DaemonEventStream) (c : UInt8) : Option DaemonEventStream :=
  (if lineBuf ≤ stream.line.length + 1 then eventStreamFlushLine stream else some stream).bind
    fun stream =>
      if c = 10 then eventStreamFlushLine ⟨stream.line ++ [c], stream.sent⟩
      else some ⟨stream.line ++ [c], stream.sent⟩

/-- `event_stream_write_bytes` -/
def eventStreamWriteBytes (stream : DaemonEventStream) (buf : Bytes) : Option DaemonEventStream :=
  buf.foldlM eventStreamWriteByte stream

/-- The line `send_stream_final` writes. -/
def finalLine (status : Int) : Bytes := ascii "final " ++ printInt status

/-- What is sent for chunks of output and a status: `open_event_stream`, a write for each chunk,
`finish_event_stream` and `send_stream_final`. -/
def sendStream (chunks : List Bytes) (status : Int) : Option Bytes := do
  let stream ← chunks.foldlM eventStreamWriteBytes ⟨[], []⟩
  let stream ← eventStreamFlushLine stream
  return stream.sent ++ writeLine (finalLine status)

/-! ## Receiving -/

/-- `sscanf(text, "%d", …)` -/
def scanSigned (text : Bytes) : Option Int :=
  let text := text.dropWhile isSpace
  let negative := text.head? = some 45
  let digits := if text.head? = some 43 ∨ negative then text.drop 1 else text
  (scanDigits 10 none digits).map fun n => if negative then -(n : Int) else n

/-- `sscanf(line, "final %d", &status)` -/
def scanFinal (line : Bytes) : Option Int :=
  if ascii "final" <+: line then scanSigned (line.drop 5) else none

/-- `sscanf(line, "event %63s %lu", type, &len)` -/
def scanEvent (line : Bytes) : Option (Bytes × Nat) :=
  if ascii "event" <+: line then
    let rest := (line.drop 5).dropWhile isSpace
    let type := (rest.takeWhile fun c => !isSpace c).take 63
    if type = [] then none else (scanUnsigned 10 (rest.drop type.length)).map fun len => (type, len)
  else none

/-- The copying of a frame's bytes: what was printed, and what follows the frame if it was
complete. -/
def copyFrame (left : Nat) (s out : Bytes) : Bytes × Option Bytes :=
  if left = 0 then (out, some s)
  else
    let chunk := min left 8192
    if s.length < chunk then (out, none)
    else copyFrame (left - chunk) (s.drop chunk) (out ++ s.take chunk)
  termination_by left

theorem readLineLoop_length {dstlen : Nat} {dst s line rest : Bytes}
    (h : readLineLoop dstlen dst s = some (line, rest)) : rest.length < s.length := by
  induction s generalizing dst with
  | nil => cases h
  | cons c s ih =>
    rw [readLineLoop] at h
    rw [List.length_cons]
    split at h
    · cases h
      exact Nat.lt_succ_self _
    split at h
    · exact Nat.lt_succ_of_lt (ih h)
    split at h
    · cases h
    · exact Nat.lt_succ_of_lt (ih h)

theorem readLine_length {dstlen : Nat} {s line rest : Bytes}
    (h : readLine dstlen s = some (line, rest)) : rest.length < s.length := by
  rw [readLine] at h
  split at h
  · cases h
  · exact readLineLoop_length h

/-- A frame is copied whole, or it is not complete. -/
theorem copyFrame_eq (left : Nat) (s out : Bytes) :
    (left ≤ s.length → copyFrame left s out = (out ++ s.take left, some (s.drop left))) ∧
      (s.length < left → (copyFrame left s out).2 = none) := by
  induction left, s, out using copyFrame.induct with
  | case1 s out =>
    rw [copyFrame, if_pos rfl]
    simp
  | case2 left s out hne chunk hshort =>
    rw [copyFrame, if_neg hne, if_pos hshort]
    refine ⟨fun hle => ?_, fun _ => rfl⟩
    have hmin : chunk ≤ left := Nat.min_le_left left 8192
    omega
  | case3 left s out hne chunk hlong ih =>
    have hmin : chunk ≤ left := Nat.min_le_left left 8192
    have hlen : (s.drop chunk).length = s.length - chunk := List.length_drop
    rw [copyFrame, if_neg hne, if_neg hlong]
    constructor
    · intro hle
      rw [ih.1 (by omega)]
      have htake : s.take chunk ++ (s.drop chunk).take (left - chunk) = s.take left := by
        rw [← List.take_add]
        congr 1
        omega
      have hdrop : (s.drop chunk).drop (left - chunk) = s.drop left := by
        rw [List.drop_drop]
        congr 1
        omega
      rw [hdrop, List.append_assoc, htake]
    · intro hlt
      exact ih.2 (by omega)

theorem copyFrame_length {left : Nat} {s out copied rest : Bytes}
    (h : copyFrame left s out = (copied, some rest)) : rest.length ≤ s.length := by
  by_cases hle : left ≤ s.length
  · rw [(copyFrame_eq left s out).1 hle] at h
    injection h with _ hrest
    injection hrest with hrest
    rw [← hrest, List.length_drop]
    omega
  · have hnone := (copyFrame_eq left s out).2 (by omega)
    rw [h] at hnone
    cases hnone

/-- `read_stream_response`: what was printed to `out` and the status reported. -/
def readStreamResponse (s out : Bytes) : Bytes × Int :=
  match _hline : readLine 256 s with
  | none => (out ++ ascii "qstar: daemon stream interrupted before final status\n", 1)
  | some (line, rest) =>
    match scanFinal line with
    | some status => (out, status)
    | none =>
      match scanEvent line with
      | none => (out ++ ascii "qstar: daemon stream has invalid event frame\n", 1)
      | some (_, len) =>
        if maxEvent < len then (out ++ ascii "qstar: daemon stream has invalid event frame\n", 1)
        else
          match _hcopy : copyFrame len rest out with
          | (copied, none) => (copied ++ ascii "qstar: daemon stream event body truncated\n", 1)
          | (copied, some rest') => readStreamResponse rest' copied
  termination_by s.length
  decreasing_by exact lt_of_le_of_lt (copyFrame_length _hcopy) (readLine_length _hline)

theorem readStreamResponse_interrupted {s : Bytes} (h : readLine 256 s = none) (out : Bytes) :
    (readStreamResponse s out).2 = 1 := by
  rw [readStreamResponse]
  split
  · rfl
  · rename_i hline
    rw [h] at hline
    cases hline

theorem readStreamResponse_final {s line rest : Bytes} {status : Int}
    (h : readLine 256 s = some (line, rest)) (hfinal : scanFinal line = some status) (out : Bytes) :
    readStreamResponse s out = (out, status) := by
  rw [readStreamResponse]
  split
  · rename_i hline
    rw [h] at hline
    cases hline
  · rename_i hline
    rw [h] at hline
    cases hline
    rw [hfinal]

/-- A frame's header leaves the copying of its bytes. -/
theorem readStreamResponse_event {s line rest type : Bytes} {len : Nat}
    (h : readLine 256 s = some (line, rest)) (hfinal : scanFinal line = none)
    (hevent : scanEvent line = some (type, len)) (hlen : len ≤ maxEvent) (out : Bytes) :
    readStreamResponse s out
      = match copyFrame len rest out with
        | (copied, none) => (copied ++ ascii "qstar: daemon stream event body truncated\n", 1)
        | (copied, some rest') => readStreamResponse rest' copied := by
  rw [readStreamResponse]
  split
  · rename_i hline
    rw [h] at hline
    cases hline
  · rename_i hline
    rw [h] at hline
    cases hline
    rw [hfinal, hevent]
    dsimp only
    rw [if_neg (Nat.not_lt.mpr hlen)]
    split
    · rename_i hcopy
      rw [hcopy]
    · rename_i hcopy
      rw [hcopy]

/-! ## Headers -/

/-- What a frame may be announced as. -/
structure Kind (type : Bytes) : Prop where
  nonempty : type ≠ []
  short : type.length ≤ 10
  solid : ∀ c ∈ type, isSpace c = false

theorem kind_classify (buf : Bytes) : Kind (classifyEventPayload buf) := by
  have hall : ∀ type ∈ [ascii "output", ascii "progress", ascii "diagnostic", ascii "action",
      ascii "summary"], type ≠ [] ∧ type.length ≤ 10 ∧ ∀ c ∈ type, isSpace c = false := by decide
  have hmem : classifyEventPayload buf ∈ [ascii "output", ascii "progress", ascii "diagnostic",
      ascii "action", ascii "summary"] := by
    unfold classifyEventPayload
    split
    · simp
    split
    · simp
    split
    · simp
    split
    · simp
    split
    · simp
    · simp
  obtain ⟨hne, hshort, hsolid⟩ := hall _ hmem
  exact ⟨hne, hshort, hsolid⟩

theorem printUnsigned_head (n : Nat) :
    ∃ c rest, printUnsigned 10 n = c :: rest ∧ isDigit c = true := by
  obtain ⟨c, rest, hprint⟩ := List.exists_cons_of_ne_nil (printUnsigned_ne_nil 10 n)
  exact ⟨c, rest, hprint, printUnsigned_isDigit (n := n) (by simp [hprint])⟩

theorem scanDigits_printUnsigned (n : Nat) : scanDigits 10 none (printUnsigned 10 n) = some n :=
  scanDigits_printDigits (by decide) (by decide) (Nat.lt_succ_self n)

theorem scanUnsigned_printUnsigned {n : Nat} (h : n < 2 ^ 64) :
    scanUnsigned 10 (32 :: printUnsigned 10 n) = some n := by
  obtain ⟨c, rest, hprint, hdigit⟩ := printUnsigned_head n
  have hscan := scanDigits_printUnsigned n
  obtain ⟨hspace, hplus, hminus⟩ := isDigit_ne hdigit
  have hblank : isSpace 32 = true := rfl
  have hmin : min n (2 ^ 64 - 1) = n := Nat.min_eq_left (by omega)
  have hbase : ¬ 10 = 16 := by decide
  rw [hprint] at hscan ⊢
  simp only [scanUnsigned, List.dropWhile_cons, hblank, hspace, if_true, Bool.false_eq_true, if_false,
    List.head?_cons, Option.some.injEq, hplus, hminus, or_self, if_neg hbase, hscan, Option.map_some,
    hmin]

theorem scanSigned_printInt (i : Int) : scanSigned (32 :: printInt i) = some i := by
  have hblank : isSpace 32 = true := rfl
  cases i with
  | ofNat n =>
    obtain ⟨c, rest, hprint, hdigit⟩ := printUnsigned_head n
    have hscan := scanDigits_printUnsigned n
    obtain ⟨hspace, hplus, hminus⟩ := isDigit_ne hdigit
    simp only [printInt]
    rw [hprint] at hscan ⊢
    simp [scanSigned, hblank, hspace, hplus, hminus, hscan]
  | negSucc n =>
    have hscan := scanDigits_printUnsigned (n + 1)
    have hminus : isSpace 45 = false := rfl
    have hneg : Int.negSucc n = -((n + 1 : Nat) : Int) := rfl
    simp [printInt, scanSigned, hblank, hminus, hscan, hneg]

theorem eventHeader_eq (type : Bytes) (len : Nat) :
    eventHeader type len = ascii "event" ++ 32 :: (type ++ 32 :: printUnsigned 10 len) := by
  have hsplit : ascii "event " = ascii "event" ++ [32] := rfl
  have hblank : ascii " " = [32] := rfl
  simp [eventHeader, hsplit, hblank]

theorem scanFinal_eventHeader (type : Bytes) (len : Nat) : scanFinal (eventHeader type len) = none := by
  have hnot : ¬ ascii "final" <+: eventHeader type len := by
    rw [eventHeader_eq]
    have hfirst : ascii "final" = 102 :: ascii "inal" := rfl
    have hother : ascii "event" = 101 :: ascii "vent" := rfl
    rw [hfirst, hother, List.cons_append, List.cons_prefix_cons]
    exact fun h => absurd h.1 (by decide)
  rw [scanFinal, if_neg hnot]

theorem scanEvent_eventHeader {type : Bytes} (hkind : Kind type) {len : Nat} (hlen : len < 2 ^ 64) :
    scanEvent (eventHeader type len) = some (type, len) := by
  obtain ⟨c, tail, rfl⟩ := List.exists_cons_of_ne_nil hkind.nonempty
  have hdrop : (eventHeader (c :: tail) len).drop 5
      = 32 :: (c :: tail ++ 32 :: printUnsigned 10 len) := by
    rw [eventHeader_eq]
    rfl
  have hskip : (32 :: (c :: tail ++ 32 :: printUnsigned 10 len)).dropWhile isSpace
      = c :: tail ++ 32 :: printUnsigned 10 len := by
    have hblank : isSpace 32 = true := rfl
    have hsolid := hkind.solid c List.mem_cons_self
    simp [hblank, hsolid]
  have htake : ((c :: tail ++ 32 :: printUnsigned 10 len).takeWhile fun b => !isSpace b) = c :: tail := by
    rw [List.takeWhile_append_of_pos]
    · have hblank : isSpace 32 = true := rfl
      simp [hblank]
    · intro b hb
      rw [hkind.solid b hb]
      rfl
  have hshort : (c :: tail).take 63 = c :: tail :=
    List.take_of_length_le (Nat.le_trans hkind.short (by decide))
  have hprefix : ascii "event" <+: eventHeader (c :: tail) len := by
    rw [eventHeader_eq]
    exact List.prefix_append _ _
  rw [scanEvent, if_pos hprefix, hdrop, hskip]
  dsimp only
  rw [htake, hshort, if_neg (by simp), List.drop_left' rfl, scanUnsigned_printUnsigned hlen]
  rfl

theorem eventHeader_fits {type : Bytes} (hkind : Kind type) {len : Nat} (hlen : len < lineBuf) :
    FitsLine 128 (eventHeader type len) := by
  have hdigits : (printUnsigned 10 len).length ≤ 4 := by
    have hbound : len < 10 ^ (3 + 1) := Nat.lt_trans hlen (by decide)
    exact printDigits_length_le (by decide) (len + 1) 3 len hbound
  have hprinted : ∀ c ∈ printUnsigned 10 len, isSpace c = false :=
    fun c hc => (isDigit_ne (printUnsigned_isDigit hc)).1
  have hsolid : ∀ b, isSpace b = true → b ≠ 32 → b ∉ eventHeader type len := by
    intro b hb hne hmem
    rw [eventHeader, List.mem_append, List.mem_append, List.mem_append] at hmem
    rcases hmem with ((hmem | hmem) | hmem) | hmem
    · have hall : ∀ c ∈ ascii "event ", isSpace c = false ∨ c = 32 := by decide
      rcases hall b hmem with h | h
      · rw [h] at hb
        cases hb
      · exact hne h
    · rw [hkind.solid b hmem] at hb
      cases hb
    · exact hne (List.mem_singleton.mp hmem)
    · rw [hprinted b hmem] at hb
      cases hb
  refine ⟨⟨hsolid 10 rfl (by decide), hsolid 13 rfl (by decide)⟩, ?_⟩
  have hshort := hkind.short
  have hevent : (ascii "event ").length = 6 := rfl
  have hblank : (ascii " ").length = 1 := rfl
  rw [eventHeader, List.length_append, List.length_append, List.length_append, hevent, hblank]
  omega

/-! ## What is sent -/

/-- The bytes of a frame. -/
def frame (payload : Bytes) : Bytes :=
  writeLine (eventHeader (classifyEventPayload payload) payload.length) ++ payload

/-- A payload that fits the line buffer. -/
def IsPayload (payload : Bytes) : Prop := payload ≠ [] ∧ payload.length < lineBuf

/-- What was consumed is in the frames sent and the line kept, which has room for a byte. -/
structure Carries (stream : DaemonEventStream) (consumed : Bytes) : Prop where
  framed : ∃ payloads : List Bytes, stream.sent = payloads.flatMap frame ∧
    payloads.flatten ++ stream.line = consumed ∧ ∀ payload ∈ payloads, IsPayload payload
  room : stream.line.length < lineBuf

theorem writeEventFrame_payload {payload : Bytes} (h : payload.length < lineBuf) :
    writeEventFrame (classifyEventPayload payload) payload = some (frame payload) := by
  have hfits := (eventHeader_fits (kind_classify payload) h).2
  rw [writeEventFrame, if_neg (Nat.not_le.mpr hfits), frame]

/-- Flushing empties the line and loses nothing. -/
theorem Carries.flush {stream : DaemonEventStream} {consumed : Bytes} (h : Carries stream consumed) :
    ∃ next, eventStreamFlushLine stream = some next ∧ Carries next consumed ∧ next.line = [] := by
  rw [eventStreamFlushLine]
  by_cases hline : stream.line = []
  · exact ⟨stream, if_pos hline, h, hline⟩
  · obtain ⟨payloads, hsent, hflat, hall⟩ := h.framed
    rw [if_neg hline, writeEventFrame_payload h.room, Option.map_some]
    refine ⟨_, rfl, ⟨⟨payloads ++ [stream.line], ?_, ?_, ?_⟩, Nat.zero_lt_succ _⟩, rfl⟩
    · simp [hsent]
    · simp [hflat]
    · intro payload hmem
      rcases List.mem_append.mp hmem with hmem | hmem
      · exact hall payload hmem
      · rw [List.mem_singleton.mp hmem]
        exact ⟨hline, h.room⟩

/-- One byte more is consumed. -/
theorem Carries.writeByte {stream : DaemonEventStream} {consumed : Bytes} (h : Carries stream consumed)
    (c : UInt8) : ∃ next, eventStreamWriteByte stream c = some next ∧ Carries next (consumed ++ [c]) := by
  have hroom : ∃ next, (if lineBuf ≤ stream.line.length + 1 then eventStreamFlushLine stream
      else some stream) = some next ∧ Carries next consumed ∧ next.line.length + 1 < lineBuf := by
    by_cases hfull : lineBuf ≤ stream.line.length + 1
    · obtain ⟨next, hflush, hcarries, hempty⟩ := h.flush
      rw [if_pos hfull]
      refine ⟨next, hflush, hcarries, ?_⟩
      rw [hempty]
      decide
    · rw [if_neg hfull]
      exact ⟨stream, rfl, h, Nat.lt_of_not_le hfull⟩
  obtain ⟨next, hnext, hcarries, hshort⟩ := hroom
  obtain ⟨payloads, hsent, hflat, hall⟩ := hcarries.framed
  have hpushed : Carries ⟨next.line ++ [c], next.sent⟩ (consumed ++ [c]) := by
    refine ⟨⟨payloads, hsent, ?_, hall⟩, ?_⟩
    · rw [← List.append_assoc, hflat]
    · rw [List.length_append, List.length_singleton]
      exact hshort
  have hstep : eventStreamWriteByte stream c
      = if c = 10 then eventStreamFlushLine ⟨next.line ++ [c], next.sent⟩
        else some ⟨next.line ++ [c], next.sent⟩ := by
    rw [eventStreamWriteByte, hnext, Option.bind_some]
  rw [hstep]
  by_cases hnewline : c = 10
  · obtain ⟨flushed, hflush, hflushed, -⟩ := hpushed.flush
    rw [if_pos hnewline]
    exact ⟨flushed, hflush, hflushed⟩
  · rw [if_neg hnewline]
    exact ⟨_, rfl, hpushed⟩

theorem Carries.writeBytes {stream : DaemonEventStream} {consumed : Bytes} (h : Carries stream consumed)
    (buf : Bytes) : ∃ next, eventStreamWriteBytes stream buf = some next ∧ Carries next (consumed ++ buf) := by
  induction buf generalizing stream consumed with
  | nil => exact ⟨stream, rfl, by simpa using h⟩
  | cons c buf ih =>
    obtain ⟨next, hnext, hcarries⟩ := h.writeByte c
    obtain ⟨last, hlast, hcarried⟩ := ih hcarries
    refine ⟨last, ?_, by simpa using hcarried⟩
    rw [eventStreamWriteBytes, List.foldlM_cons, hnext]
    exact hlast

theorem Carries.writeChunks {stream : DaemonEventStream} {consumed : Bytes} (h : Carries stream consumed)
    (chunks : List Bytes) :
    ∃ next, chunks.foldlM eventStreamWriteBytes stream = some next ∧
      Carries next (consumed ++ chunks.flatten) := by
  induction chunks generalizing stream consumed with
  | nil => exact ⟨stream, rfl, by simpa using h⟩
  | cons buf chunks ih =>
    obtain ⟨next, hnext, hcarries⟩ := h.writeBytes buf
    obtain ⟨last, hlast, hcarried⟩ := ih hcarries
    refine ⟨last, ?_, by simpa using hcarried⟩
    rw [List.foldlM_cons, hnext]
    exact hlast

/-- Whatever the chunks, frames with their bytes are sent and the line with the status. -/
theorem sendStream_eq (chunks : List Bytes) (status : Int) :
    ∃ payloads : List Bytes, payloads.flatten = chunks.flatten ∧
      (∀ payload ∈ payloads, IsPayload payload) ∧
      sendStream chunks status
        = some (payloads.flatMap frame ++ writeLine (finalLine status)) := by
  have hstart : Carries ⟨[], []⟩ [] := ⟨⟨[], rfl, rfl, fun _ h => by cases h⟩, by decide⟩
  obtain ⟨written, hwritten, hcarries⟩ := hstart.writeChunks chunks
  obtain ⟨flushed, hflush, hflushed, hempty⟩ := hcarries.flush
  obtain ⟨payloads, hsent, hflat, hall⟩ := hflushed.framed
  refine ⟨payloads, ?_, hall, ?_⟩
  · rw [hempty, List.append_nil, List.nil_append] at hflat
    exact hflat
  · rw [sendStream, hwritten, ← hsent]
    show (eventStreamFlushLine written >>= fun stream => some (stream.sent ++ _)) = _
    rw [hflush]
    rfl

/-! ## What is received -/

theorem scanFinal_finalLine (status : Int) : scanFinal (finalLine status) = some status := by
  have hsplit : finalLine status = ascii "final" ++ 32 :: printInt status := rfl
  have hprefix : ascii "final" <+: finalLine status := by
    rw [hsplit]
    exact List.prefix_append _ _
  have hdrop : (finalLine status).drop 5 = 32 :: printInt status := by
    rw [hsplit]
    rfl
  rw [scanFinal, if_pos hprefix, hdrop, scanSigned_printInt]

theorem finalLine_fits {status : Int} (h : IsCInt status) : FitsLine 256 (finalLine status) := by
  have hprint := printInt_oneLine status
  have hlen := printInt_length h
  have hword : 10 ∉ ascii "final " ∧ 13 ∉ ascii "final " := by decide
  refine ⟨⟨fun hmem => ?_, fun hmem => ?_⟩, ?_⟩
  · rcases List.mem_append.mp hmem with hmem | hmem
    · exact hword.1 hmem
    · exact hprint.1 hmem
  · rcases List.mem_append.mp hmem with hmem | hmem
    · exact hword.2 hmem
    · exact hprint.2 hmem
  · have hfinal : (ascii "final ").length = 6 := rfl
    rw [finalLine, List.length_append, hfinal]
    omega

theorem readLineLoop_unended {s : Bytes} (h : 10 ∉ s) (dstlen : Nat) (dst : Bytes) :
    readLineLoop dstlen dst s = none := by
  induction s generalizing dst with
  | nil => rfl
  | cons c s ih =>
    rw [List.mem_cons, not_or] at h
    rw [readLineLoop, if_neg (fun heq => h.1 heq.symm), ih h.2, ih h.2]
    split
    · rfl
    split
    · rfl
    · rfl

/-- Nothing is read from a part of a line. -/
theorem readLine_starves {s p : Bytes} (h : OneLine s) (hp : p <+: writeLine s) (hne : p ≠ writeLine s)
    (dstlen : Nat) : readLine dstlen p = none := by
  have hfree : 10 ∉ p := by
    rcases prefix_append_cases hp hne with ⟨hps, -⟩ | ⟨q, hpeq, hq, hq'⟩
    · exact fun hmem => h.1 (hps.subset hmem)
    · have hlen : q.length < 1 := by
        have hle := hq.length_le
        have hne' : q.length ≠ 1 := fun heq => hq' (hq.eq_of_length heq)
        rw [List.length_singleton] at hle
        omega
      have hnil : q = [] := List.length_eq_zero_iff.mp (by omega)
      rw [hpeq, hnil, List.append_nil]
      exact h.1
  rw [readLine, readLineLoop_unended hfree]
  exact ite_self none

theorem readLine_header {payload : Bytes} (h : IsPayload payload) (rest : Bytes) :
    readLine 256 (writeLine (eventHeader (classifyEventPayload payload) payload.length) ++ rest)
      = some (eventHeader (classifyEventPayload payload) payload.length, rest) := by
  have hfits := eventHeader_fits (kind_classify payload) h.2
  exact reads_readLine ⟨hfits.1, Nat.lt_trans hfits.2 (by decide)⟩ rest

/-- After a header the copying of the payload's bytes follows. -/
theorem readStreamResponse_header {payload : Bytes} (h : IsPayload payload) (rest out : Bytes) :
    readStreamResponse (writeLine (eventHeader (classifyEventPayload payload) payload.length) ++ rest) out
      = match copyFrame payload.length rest out with
        | (copied, none) => (copied ++ ascii "qstar: daemon stream event body truncated\n", 1)
        | (copied, some rest') => readStreamResponse rest' copied := by
  have hsmall : payload.length < 2 ^ 64 := Nat.lt_trans h.2 (by decide)
  have hlen : payload.length ≤ maxEvent := Nat.le_of_lt (Nat.lt_trans h.2 (by decide))
  exact readStreamResponse_event (readLine_header h rest) (scanFinal_eventHeader _ _)
    (scanEvent_eventHeader (kind_classify payload) hsmall) hlen out

theorem readStreamResponse_frame {payload : Bytes} (h : IsPayload payload) (rest out : Bytes) :
    readStreamResponse (frame payload ++ rest) out = readStreamResponse rest (out ++ payload) := by
  have hle : payload.length ≤ (payload ++ rest).length := by
    rw [List.length_append]
    omega
  rw [frame, List.append_assoc, readStreamResponse_header h, (copyFrame_eq _ _ out).1 hle]
  simp

/-- A whole stream is copied and its status reported. -/
theorem readStreamResponse_stream {payloads : List Bytes} (hall : ∀ payload ∈ payloads, IsPayload payload)
    {status : Int} (hstatus : IsCInt status) (out : Bytes) :
    readStreamResponse (payloads.flatMap frame ++ writeLine (finalLine status)) out
      = (out ++ payloads.flatten, status) := by
  induction payloads generalizing out with
  | nil =>
    have hline := reads_readLine (finalLine_fits hstatus) []
    rw [List.append_nil] at hline
    rw [List.flatMap_nil, List.nil_append,
      readStreamResponse_final hline (scanFinal_finalLine status)]
    simp
  | cons payload payloads ih =>
    rw [List.flatMap_cons, List.append_assoc,
      readStreamResponse_frame (hall payload List.mem_cons_self),
      ih fun p hp => hall p (List.mem_cons_of_mem payload hp)]
    simp

/-- A stream that is cut off reports status 1, wherever it is cut. -/
theorem readStreamResponse_cut {payloads : List Bytes} (hall : ∀ payload ∈ payloads, IsPayload payload)
    {status : Int} (hstatus : IsCInt status) {p : Bytes}
    (hp : p <+: payloads.flatMap frame ++ writeLine (finalLine status))
    (hne : p ≠ payloads.flatMap frame ++ writeLine (finalLine status)) (out : Bytes) :
    (readStreamResponse p out).2 = 1 := by
  induction payloads generalizing p out with
  | nil =>
    rw [List.flatMap_nil, List.nil_append] at hp hne
    exact readStreamResponse_interrupted (readLine_starves (finalLine_fits hstatus).1 hp hne 256) out
  | cons payload payloads ih =>
    have hpayload := hall payload List.mem_cons_self
    rw [List.flatMap_cons, List.append_assoc] at hp hne
    rcases prefix_append_cases hp hne with ⟨hcut, hcut'⟩ | ⟨q, rfl, hq, hq'⟩
    · rw [frame] at hcut hcut'
      rcases prefix_append_cases hcut hcut' with ⟨hline, hline'⟩ | ⟨q, rfl, hbody, hbody'⟩
      · have hfits := eventHeader_fits (kind_classify payload) hpayload.2
        exact readStreamResponse_interrupted (readLine_starves hfits.1 hline hline' 256) out
      · have hshort : q.length < payload.length :=
          lt_of_le_of_ne hbody.length_le fun heq => hbody' (hbody.eq_of_length heq)
        have hnone := (copyFrame_eq payload.length q out).2 hshort
        rw [readStreamResponse_header hpayload]
        split
        · rfl
        · rename_i hcopy
          rw [hcopy] at hnone
          cases hnone
    · rw [readStreamResponse_frame hpayload]
      exact ih (fun p hp => hall p (List.mem_cons_of_mem payload hp)) hq hq' _

/-- A request that fits is read as it was sent. A stream of any chunks and a status is copied
byte by byte and reports that status, and a part of it reports 1. -/
theorem daemon_protocol_round_trip (req : BuildRequest) (hreq : Fits req) (chunks : List Bytes)
    (status : Int) (hstatus : IsCInt status) :
    (∀ rest, Protocol.readRequest (sendRequestBody req ++ rest)
        = some (⟨req.cwd, req.file, req.label, req.buildDir, req.platform,
            { req.options with explainCache := 0 }⟩, rest)) ∧
      ∃ stream, sendStream chunks status = some stream ∧
        readStreamResponse stream [] = (chunks.flatten, status) ∧
        ∀ p, p <+: stream → p ≠ stream → (readStreamResponse p []).2 = 1 := by
  obtain ⟨payloads, hflat, hall, hsend⟩ := sendStream_eq chunks status
  refine ⟨Protocol.reads_request hreq, _, hsend, ?_, fun p hp hne => readStreamResponse_cut hall hstatus hp hne []⟩
  rw [readStreamResponse_stream hall hstatus, hflat, List.nil_append]

theorem daemon_protocol_round_trip_sample :
    (∀ rest, Protocol.readRequest (sendRequestBody ⟨ascii "/w", [], ascii "//app", [], ascii "linux",
          ⟨1, 0, -1, 0, 1, 0, 2, 0⟩⟩ ++ rest)
        = some (⟨ascii "/w", [], ascii "//app", [], ascii "linux", ⟨0, 0, -1, 0, 1, 0, 2, 0⟩⟩, rest)) ∧
      ∃ stream, sendStream [ascii "[1/2 50%] cc a.c\nwarn", [0, 10, 13], []] 1 = some stream ∧
        readStreamResponse stream [] = ([ascii "[1/2 50%] cc a.c\nwarn", [0, 10, 13], []].flatten, 1) ∧
        ∀ p, p <+: stream → p ≠ stream → (readStreamResponse p []).2 = 1 :=
  daemon_protocol_round_trip ⟨ascii "/w", [], ascii "//app", [], ascii "linux", ⟨1, 0, -1, 0, 1, 0, 2, 0⟩⟩
    ⟨⟨by decide, by decide⟩, ⟨by decide, by decide⟩, ⟨by decide, by decide⟩, ⟨by decide, by decide⟩,
      ⟨by decide, by decide⟩, ⟨by decide, by decide⟩, ⟨by decide, by decide⟩, ⟨by decide, by decide⟩,
      ⟨by decide, by decide⟩, ⟨by decide, by decide⟩, ⟨by decide, by decide⟩, ⟨by decide, by decide⟩⟩
    [ascii "[1/2 50%] cc a.c\nwarn", [0, 10, 13], []] 1 ⟨by decide, by decide⟩

end QStar.Daemon.EventStream
