import QStar.Base.Files

/-!
# Capturing the output of a child process

A stream log is opened when the child first writes something to that stream, so
a silent stream leaves the log of an earlier execution in place.
-/
namespace QStar.RunTarget.Capture

open QStar.Lib.CStrings
open QStar.Base

/-- The log side of `struct qstar_observed_stream`. -/
structure ObservedStream where
  logPath : Bytes
  opened : Bool
  deriving DecidableEq

/-- `observed_stream_consume`, without the terminal diagnostics. -/
def observedStreamConsume (files : Files) (stream : ObservedStream) (buf : Bytes) :
    Files × ObservedStream :=
  let (files, stream) :=
    if 0 < buf.length ∧ stream.opened = false ∧ stream.logPath ≠ [] then
      (writeFile files stream.logPath [], { stream with opened := true })
    else (files, stream)
  if stream.opened = true ∧ 0 < buf.length then
    (appendFile files stream.logPath buf, stream)
  else (files, stream)

/-- The stream a chunk of output was read from. -/
inductive Channel where
  | stdout
  | stderr
  deriving DecidableEq, Repr

/-- `struct qstar_child_capture` -/
structure ChildCapture where
  out : ObservedStream
  err : ObservedStream
  deriving DecidableEq

/-- `child_capture_open` -/
def childCaptureOpen (stdoutPath stderrPath : Bytes) : ChildCapture :=
  ⟨⟨stdoutPath, false⟩, ⟨stderrPath, false⟩⟩

/-- Draining one chunk from one of the two pipes. -/
def childCaptureDrain (state : Files × ChildCapture) (chunk : Channel × Bytes) :
    Files × ChildCapture :=
  match chunk.1 with
  | .stdout =>
    let (files, out) := observedStreamConsume state.1 state.2.out chunk.2
    (files, { state.2 with out := out })
  | .stderr =>
    let (files, err) := observedStreamConsume state.1 state.2.err chunk.2
    (files, { state.2 with err := err })

/-- The files after all output of the child was drained and the logs were closed. -/
def captureOutput (files : Files) (stdoutPath stderrPath : Bytes)
    (chunks : List (Channel × Bytes)) : Files :=
  (chunks.foldl childCaptureDrain (files, childCaptureOpen stdoutPath stderrPath)).1

/-- Everything the child wrote to one stream. -/
def written (channel : Channel) (chunks : List (Channel × Bytes)) : Bytes :=
  chunks.flatMap fun chunk => if chunk.1 = channel then chunk.2 else []

/-- A stream state agrees with the bytes seen so far: either nothing was seen and the old
file is untouched, or the log is open and holds exactly what was seen. -/
def Holds (old files : Files) (stream : ObservedStream) (seen : Bytes) : Prop :=
  (seen = [] ∧ stream.opened = false ∧ files stream.logPath = old stream.logPath) ∨
    (seen ≠ [] ∧ stream.opened = true ∧ files stream.logPath = some seen)

theorem observedStreamConsume_frame (files : Files) (stream : ObservedStream) (buf : Bytes)
    {path : Bytes} (h : path ≠ stream.logPath) :
    (observedStreamConsume files stream buf).1 path = files path := by
  by_cases hopen : 0 < buf.length ∧ stream.opened = false ∧ stream.logPath ≠ []
  · simp [observedStreamConsume, hopen, appendFile_ne _ _ h, writeFile_ne _ _ h]
  · by_cases happend : stream.opened = true ∧ 0 < buf.length
    · simp [observedStreamConsume, happend, appendFile_ne _ _ h]
    · simp only [observedStreamConsume, if_neg hopen, if_neg happend]

theorem observedStreamConsume_logPath (files : Files) (stream : ObservedStream) (buf : Bytes) :
    (observedStreamConsume files stream buf).2.logPath = stream.logPath := by
  by_cases hopen : 0 < buf.length ∧ stream.opened = false ∧ stream.logPath ≠ []
  · simp [observedStreamConsume, hopen]
  · by_cases happend : stream.opened = true ∧ 0 < buf.length
    · simp [observedStreamConsume, happend]
    · simp only [observedStreamConsume, if_neg hopen, if_neg happend]

/-- One chunk extends the seen bytes by exactly that chunk. -/
theorem holds_consume {old files : Files} {stream : ObservedStream} {seen : Bytes}
    (h : Holds old files stream seen) (hpath : stream.logPath ≠ []) (buf : Bytes) :
    Holds old (observedStreamConsume files stream buf).1
      (observedStreamConsume files stream buf).2 (seen ++ buf) := by
  by_cases hbuf : buf = []
  · subst hbuf
    simpa [observedStreamConsume] using h
  · have hlen : 0 < buf.length := List.length_pos_iff.mpr hbuf
    have hne : seen ++ buf ≠ [] := by simp [hbuf]
    right
    refine ⟨hne, ?_⟩
    rcases h with ⟨rfl, hclosed, -⟩ | ⟨-, hopen, hlog⟩
    · simp [observedStreamConsume, hlen, hclosed, hpath]
    · simp [observedStreamConsume, hlen, hopen, hlog]

theorem holds_frame {old files files' : Files} {stream : ObservedStream} {seen : Bytes}
    (h : Holds old files stream seen)
    (hsame : files' stream.logPath = files stream.logPath) : Holds old files' stream seen := by
  unfold Holds at h ⊢
  rw [hsame]
  exact h

/-- Both streams agree with the bytes drained so far, whatever the interleaving. -/
theorem holds_foldl {old : Files} {stdoutPath stderrPath : Bytes} (hout : stdoutPath ≠ [])
    (herr : stderrPath ≠ []) (hne : stdoutPath ≠ stderrPath)
    (chunks : List (Channel × Bytes)) (state : Files × ChildCapture) (seenOut seenErr : Bytes)
    (hpathOut : state.2.out.logPath = stdoutPath) (hpathErr : state.2.err.logPath = stderrPath)
    (hOut : Holds old state.1 state.2.out seenOut) (hErr : Holds old state.1 state.2.err seenErr) :
    let final := chunks.foldl childCaptureDrain state
    final.2.out.logPath = stdoutPath ∧ final.2.err.logPath = stderrPath ∧
      Holds old final.1 final.2.out (seenOut ++ written .stdout chunks) ∧
      Holds old final.1 final.2.err (seenErr ++ written .stderr chunks) := by
  induction chunks generalizing state seenOut seenErr with
  | nil => exact ⟨hpathOut, hpathErr, by simpa [written] using hOut, by simpa [written] using hErr⟩
  | cons chunk rest ih =>
    obtain ⟨channel, buf⟩ := chunk
    simp only [List.foldl_cons]
    cases channel with
    | stdout =>
      have hstep := holds_consume hOut (by rw [hpathOut]; exact hout) buf
      have hframe : Holds old (observedStreamConsume state.1 state.2.out buf).1 state.2.err
          seenErr := by
        apply holds_frame hErr
        apply observedStreamConsume_frame
        rw [hpathErr, hpathOut]
        exact hne.symm
      obtain ⟨h1, h2, h3, h4⟩ := ih (childCaptureDrain state (.stdout, buf)) (seenOut ++ buf)
        seenErr (by rw [← hpathOut]; exact observedStreamConsume_logPath _ _ _) hpathErr hstep
        hframe
      refine ⟨h1, h2, ?_, ?_⟩
      · simpa [written, List.append_assoc] using h3
      · simpa [written] using h4
    | stderr =>
      have hstep := holds_consume hErr (by rw [hpathErr]; exact herr) buf
      have hframe : Holds old (observedStreamConsume state.1 state.2.err buf).1 state.2.out
          seenOut := by
        apply holds_frame hOut
        apply observedStreamConsume_frame
        rw [hpathErr, hpathOut]
        exact hne
      obtain ⟨h1, h2, h3, h4⟩ := ih (childCaptureDrain state (.stderr, buf)) seenOut
        (seenErr ++ buf) hpathOut (by rw [← hpathErr]; exact observedStreamConsume_logPath _ _ _)
        hframe hstep
      refine ⟨h1, h2, ?_, ?_⟩
      · simpa [written] using h3
      · simpa [written, List.append_assoc] using h4

/-- A log after the run: the old file if the stream stayed silent, else the bytes written. -/
def logAfter (old : Option Bytes) (bytes : Bytes) : Option Bytes :=
  if bytes = [] then old else some bytes

theorem logAfter_of_holds {old files : Files} {stream : ObservedStream} {seen : Bytes}
    (h : Holds old files stream seen) :
    files stream.logPath = logAfter (old stream.logPath) seen := by
  unfold logAfter
  rcases h with ⟨hnil, -, hsame⟩ | ⟨hne, -, hlog⟩
  · rw [if_pos hnil, hsame]
  · rw [if_neg hne, hlog]

theorem captureOutput_logs (files : Files) {stdoutPath stderrPath : Bytes}
    (hout : stdoutPath ≠ []) (herr : stderrPath ≠ []) (hne : stdoutPath ≠ stderrPath)
    (chunks : List (Channel × Bytes)) :
    captureOutput files stdoutPath stderrPath chunks stdoutPath =
        logAfter (files stdoutPath) (written .stdout chunks) ∧
      captureOutput files stdoutPath stderrPath chunks stderrPath =
        logAfter (files stderrPath) (written .stderr chunks) := by
  have hstart : ∀ path, Holds files files ⟨path, false⟩ [] := fun _ => .inl ⟨rfl, rfl, rfl⟩
  obtain ⟨h1, h2, h3, h4⟩ := holds_foldl hout herr hne chunks
    (files, childCaptureOpen stdoutPath stderrPath) [] [] rfl rfl (hstart _) (hstart _)
  have hOut := logAfter_of_holds h3
  have hErr := logAfter_of_holds h4
  rw [h1, List.nil_append] at hOut
  rw [h2, List.nil_append] at hErr
  exact ⟨hOut, hErr⟩

end QStar.RunTarget.Capture
