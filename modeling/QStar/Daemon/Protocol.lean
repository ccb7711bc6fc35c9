import QStar.Daemon.BuildRequest

/-!
# The daemon's line protocol

A build request is five names and seven numbers, one a line, read into buffers of
fixed size. The answer is a stream: what the build prints is gathered into lines of
bounded length, each sent as a frame with its length in the header, and a last line
carries the status.
-/
namespace QStar.Daemon.Protocol

open QStar.Lib.CStrings
open QStar.Lib.Lines (OneLine writeLine printInt parseInt printInt_oneLine parseInt_printInt oneLine_cons)
open QStar.Lib.Numerals
open QStar.Lib.Wire

/-- `QSTAR_PATH_MAX` -/
def pathMax : Nat := 4096

/-- `QSTAR_DAEMON_LINE_BUF` -/
def lineBuf : Nat := 8192

/-- `QSTAR_DAEMON_MAX_EVENT` -/
def maxEvent : Nat := 16 * 1024 * 1024

/-- A value of the C type `int`. -/
def IsCInt (i : Int) : Prop := -2 ^ 31 ≤ i ∧ i < 2 ^ 31

/-! ## Requests -/

/-- The loop of `read_line` with what it has stored. -/
def readLineLoop (dstlen : Nat) (dst : Bytes) : Bytes → Option (Bytes × Bytes)
  | [] => none
  | c :: rest =>
    if c = 10 then some (dst, rest)
    else if c = 13 then readLineLoop dstlen dst rest
    else if dstlen ≤ dst.length + 1 then none
    else readLineLoop dstlen (dst ++ [c]) rest

/-- `read_line` -/
def readLine (dstlen : Nat) : Reader Bytes := fun s =>
  if dstlen = 0 then none else readLineLoop dstlen [] s

/-- `read_line` and `parse_int_line` -/
def readIntLine : Reader Int := do
  let line ← readLine pathMax
  match parseInt line with
  | none => failure
  | some i => return i

/-- `read_request` -/
def readRequest : Reader BuildRequest := do
  let cwd ← readLine pathMax
  let file ← readLine pathMax
  let label ← readLine pathMax
  let buildDir ← readLine pathMax
  let platform ← readLine 128
  let jobs ← readIntLine
  let scheduleTrace ← readIntLine
  let verbose ← readIntLine
  let quiet ← readIntLine
  let progressMode ← readIntLine
  let actionCacheMode ← readIntLine
  let colorMode ← readIntLine
  return ⟨cwd, file, label, buildDir, platform,
    ⟨0, actionCacheMode, jobs, scheduleTrace, verbose, quiet, progressMode, colorMode⟩⟩

/-- A string without line breaks that fits a buffer with its terminator. -/
def FitsLine (dstlen : Nat) (s : Bytes) : Prop := OneLine s ∧ s.length < dstlen

/-- The strings of a request fit their buffers, and its numbers are `int`s. -/
structure Fits (req : BuildRequest) : Prop where
  cwd : FitsLine pathMax req.cwd
  file : FitsLine pathMax req.file
  label : FitsLine pathMax req.label
  buildDir : FitsLine pathMax req.buildDir
  platform : FitsLine 128 req.platform
  jobs : IsCInt req.options.jobs
  scheduleTrace : IsCInt req.options.scheduleTrace
  verbose : IsCInt req.options.verbose
  quiet : IsCInt req.options.quiet
  progressMode : IsCInt req.options.progressMode
  actionCacheMode : IsCInt req.options.actionCacheMode
  colorMode : IsCInt req.options.colorMode

theorem readLineLoop_line {dstlen : Nat} {s : Bytes} (h : OneLine s) {dst : Bytes}
    (hroom : dst.length + s.length < dstlen) (rest : Bytes) :
    readLineLoop dstlen dst (s ++ 10 :: rest) = some (dst ++ s, rest) := by
  induction s generalizing dst with
  | nil => simp [readLineLoop]
  | cons c s ih =>
    obtain ⟨⟨hnewline, hreturn⟩, htail⟩ := oneLine_cons.mp h
    rw [List.length_cons] at hroom
    have hnext : (dst ++ [c]).length + s.length < dstlen := by
      rw [List.length_append, List.length_singleton]
      omega
    rw [List.cons_append, readLineLoop, if_neg hnewline, if_neg hreturn, if_neg (by omega),
      ih htail hnext, List.append_assoc]
    rfl

theorem reads_readLine {dstlen : Nat} {s : Bytes} (h : FitsLine dstlen s) :
    Reads (readLine dstlen) (writeLine s) s := by
  intro rest
  have hpos : dstlen ≠ 0 := by
    have hlt := h.2
    omega
  have hline : writeLine s ++ rest = s ++ 10 :: rest := by simp [writeLine]
  rw [readLine, if_neg hpos, hline, readLineLoop_line h.1 (by simpa using h.2)]
  rfl

theorem printInt_length {i : Int} (h : IsCInt i) : (printInt i).length ≤ 11 := by
  obtain ⟨hlow, hhigh⟩ := h
  cases i with
  | ofNat n =>
    have hn : n < 10 ^ (9 + 1) := by
      have hcast : (Int.ofNat n) = (n : Int) := rfl
      omega
    have hlen : (printUnsigned 10 n).length ≤ 10 := printDigits_length_le (by decide) (n + 1) 9 n hn
    exact Nat.le_succ_of_le hlen
  | negSucc n =>
    have hn : n + 1 < 10 ^ (9 + 1) := by
      have hcast : Int.negSucc n = -((n : Int) + 1) := rfl
      omega
    have hlen : (printUnsigned 10 (n + 1)).length ≤ 10 :=
      printDigits_length_le (by decide) (n + 1 + 1) 9 (n + 1) hn
    exact Nat.succ_le_succ hlen

theorem printInt_fitsLine {dstlen : Nat} (hroom : 11 < dstlen) {i : Int} (h : IsCInt i) :
    FitsLine dstlen (printInt i) :=
  ⟨printInt_oneLine i, lt_of_le_of_lt (printInt_length h) hroom⟩

theorem reads_readIntLine {i : Int} (h : IsCInt i) : Reads readIntLine (writeLine (printInt i)) i := by
  refine (reads_readLine (printInt_fitsLine (by decide) h)).bind_nil ?_
  rw [parseInt_printInt]
  exact reads_pure i

/-- A request that fits is read as it was sent. -/
theorem reads_request {req : BuildRequest} (h : Fits req) :
    Reads readRequest (sendRequestBody req) req.received := by
  refine (reads_readLine h.cwd).bind ((reads_readLine h.file).bind ((reads_readLine h.label).bind
    ((reads_readLine h.buildDir).bind ((reads_readLine h.platform).bind ?_))))
  exact (reads_readIntLine h.jobs).bind ((reads_readIntLine h.scheduleTrace).bind
    ((reads_readIntLine h.verbose).bind ((reads_readIntLine h.quiet).bind
      ((reads_readIntLine h.progressMode).bind ((reads_readIntLine h.actionCacheMode).bind
        ((reads_readIntLine h.colorMode).bind_nil (reads_pure _)))))))

end QStar.Daemon.Protocol
