import QStar.RunTarget.Capture
import QStar.Lib.Runs

/-!
# The verdict of a run step

After a child exited with status zero, the declared text is searched in the
stdout log, the stderr log and an optional file, each reread by name. The
verdict is about the bytes of this execution exactly when no searched log was
left behind by an earlier one.
-/
namespace QStar.RunTarget.Verdict

open QStar.Lib.CStrings
open QStar.Lib.Runs
open QStar.Base
open QStar.RunTarget.Capture

/-- The search loop of `file_contains_text`; lines are read into a buffer of 4096 bytes. -/
def linesContain (content text : Bytes) : Bool :=
  (fgetsAll 4095 content.length content).any fun buf => strstr (cString buf) text

/-- `file_contains_text` -/
def fileContainsText (files : Files) (path text : Bytes) : Bool :=
  if text = [] then true
  else
    match files path with
    | none => false
    | some content => linesContain content text

/-- The place where the expected text was found. -/
inductive Source where
  | unchecked
  | stdout
  | stderr
  | file
  deriving DecidableEq, Repr

/-- What the verdict of a run step depends on: its action id and its expectation. -/
structure RunStep where
  id : Bytes
  expectContains : Bytes
  expectFile : Bytes
  deriving DecidableEq

def stdoutLog (buildDir : Bytes) (run : RunStep) : Bytes :=
  buildLogRel buildDir run.id (ascii ".stdout")

def stderrLog (buildDir : Bytes) (run : RunStep) : Bytes :=
  buildLogRel buildDir run.id (ascii ".stderr")

/-- `run_expect_contains_match`; `none` is the result 0. -/
def runExpectContainsMatch (buildDir : Bytes) (files : Files) (run : RunStep) : Option Source :=
  if run.expectContains = [] then some .unchecked
  else if fileContainsText files (stdoutLog buildDir run) run.expectContains then some .stdout
  else if fileContainsText files (stderrLog buildDir run) run.expectContains then some .stderr
  else if run.expectFile ≠ [] ∧ fileContainsText files run.expectFile run.expectContains then
    some .file
  else none

/-- What one execution brings from outside: the file changes its child makes by name, the
output chunks in the order they are drained, and the exit code. -/
structure Execution where
  effect : Files → Files
  chunks : List (Channel × Bytes)
  exitCode : Nat

/-- The files when the child has ended and its streams were drained. -/
def filesAtExit (buildDir : Bytes) (files : Files) (run : RunStep) (exec : Execution) : Files :=
  captureOutput (exec.effect files) (stdoutLog buildDir run) (stderrLog buildDir run) exec.chunks

/-- The success report: `none` when the exit code or the expectation fails it. -/
def reportedSource (buildDir : Bytes) (files : Files) (run : RunStep) (exec : Execution) :
    Option Source :=
  if exec.exitCode ≠ 0 then none
  else runExpectContainsMatch buildDir (filesAtExit buildDir files run exec) run

/-- The cache stamp of a run target. -/
def runStampPath (buildDir label : Bytes) : Bytes :=
  buildPath buildDir (ascii "out/" ++ mangleLabel label ++ ascii "/run.stamp")

inductive Event where
  /-- A scheduled run_target: `finish_run_target_success` writes the stamp on success. -/
  | runTarget (label : Bytes) (run : RunStep) (exec : Execution)
  /-- `run_project_command_captured` -/
  | command (run : RunStep) (exec : Execution)
  /-- Any other change of the files. -/
  | other (effect : Files → Files)

/-- The run step of an execution event. -/
def Event.execution : Event → Option (RunStep × Execution)
  | .runTarget _ run exec => some (run, exec)
  | .command run exec => some (run, exec)
  | .other _ => none

def applyEvent (buildDir : Bytes) (files : Files) : Event → Files
  | .runTarget label run exec =>
    if (reportedSource buildDir files run exec).isSome then
      writeFile (filesAtExit buildDir files run exec) (runStampPath buildDir label)
        (ascii "qstar run_target stamp\n")
    else filesAtExit buildDir files run exec
  | .command run exec => filesAtExit buildDir files run exec
  | .other effect => effect files

/-- A success reported through a stream is backed by bytes of this execution. -/
def VerdictIsCurrent (buildDir : Bytes) (files : Files) (event : Event) : Prop :=
  ∀ run exec, event.execution = some (run, exec) → run.expectContains ≠ [] →
    (reportedSource buildDir files run exec = some .stdout →
      run.expectContains <:+: written .stdout exec.chunks) ∧
    (reportedSource buildDir files run exec = some .stderr →
      run.expectContains <:+: written .stderr exec.chunks)

/-- A silent stream whose log, as the child found it, already contains the text and is the
first place the search finds it. -/
def StaleLog (buildDir : Bytes) (files : Files) (run : RunStep) (exec : Execution) : Prop :=
  let found := fun log : Option Bytes => log.any fun content => linesContain content run.expectContains
  let oldOut := exec.effect files (stdoutLog buildDir run)
  let oldErr := exec.effect files (stderrLog buildDir run)
  (written .stdout exec.chunks = [] ∧ found oldOut = true) ∨
  (written .stderr exec.chunks = [] ∧ found oldErr = true ∧
    found (logAfter oldOut (written .stdout exec.chunks)) = false)

/-- No searched log of a successful execution is left from before. -/
def NoStaleLog (buildDir : Bytes) (files : Files) (event : Event) : Prop :=
  ∀ run exec, event.execution = some (run, exec) → run.expectContains ≠ [] →
    exec.exitCode = 0 → ¬ StaleLog buildDir files run exec

theorem fileContainsText_eq {files : Files} {path text : Bytes} (htext : text ≠ []) :
    fileContainsText files path text =
      (files path).any fun content => linesContain content text := by
  unfold fileContainsText
  rw [if_neg htext]
  cases files path <;> rfl

/-- A text that the search reports occurs in one piece in the searched bytes. -/
theorem infix_of_linesContain {content text : Bytes} (h : linesContain content text = true) :
    text <:+: content := by
  simp only [linesContain, List.any_eq_true] at h
  obtain ⟨buf, hbuf, hmatch⟩ := h
  have hline := fgetsAll_infix hbuf
  have hinfix : text <:+: cString buf := of_decide_eq_true hmatch
  exact hinfix.trans ((cString_isInfix buf).trans hline)

theorem logs_ne (buildDir : Bytes) (run : RunStep) :
    stdoutLog buildDir run ≠ stderrLog buildDir run :=
  buildLogRel_suffix_ne (by decide)

theorem buildLogRel_ne_nil (buildDir id suffix : Bytes) :
    buildLogRel buildDir id suffix ≠ [] := by
  simp [buildLogRel, buildPath, ascii]

theorem filesAtExit_logs (buildDir : Bytes) (files : Files) (run : RunStep)
    (exec : Execution) :
    filesAtExit buildDir files run exec (stdoutLog buildDir run) =
        logAfter (exec.effect files (stdoutLog buildDir run)) (written .stdout exec.chunks) ∧
      filesAtExit buildDir files run exec (stderrLog buildDir run) =
        logAfter (exec.effect files (stderrLog buildDir run)) (written .stderr exec.chunks) :=
  captureOutput_logs _ (buildLogRel_ne_nil _ _ _) (buildLogRel_ne_nil _ _ _)
    (logs_ne buildDir run) exec.chunks

/-- A log found after the run backs its verdict exactly when it was written in the run. -/
theorem infix_written_iff {old : Option Bytes} {bytes text : Bytes} (htext : text ≠ [])
    (h : (logAfter old bytes).any (fun content => linesContain content text) = true) :
    text <:+: bytes ↔ bytes ≠ [] := by
  constructor
  · intro hinfix
    exact hinfix.ne_nil htext
  · intro hne
    rw [logAfter, if_neg hne] at h
    exact infix_of_linesContain h

/-- The source a successful search reports, in terms of the two logs. -/
theorem reportedSource_stdout {buildDir : Bytes} {files : Files} {run : RunStep}
    {exec : Execution} (htext : run.expectContains ≠ []) :
    reportedSource buildDir files run exec = some .stdout ↔
      exec.exitCode = 0 ∧
        (logAfter (exec.effect files (stdoutLog buildDir run)) (written .stdout exec.chunks)).any
          (fun content => linesContain content run.expectContains) = true := by
  obtain ⟨hout, -⟩ := filesAtExit_logs buildDir files run exec
  unfold reportedSource runExpectContainsMatch
  rw [if_neg htext, fileContainsText_eq htext, hout]
  by_cases hexit : exec.exitCode = 0
  · simp only [hexit, ne_eq, not_true_eq_false, if_false, true_and]
    split
    · simp_all
    · split
      · simp_all
      · split <;> simp_all
  · simp [hexit]

theorem reportedSource_stderr {buildDir : Bytes} {files : Files} {run : RunStep}
    {exec : Execution} (htext : run.expectContains ≠ []) :
    reportedSource buildDir files run exec = some .stderr ↔
      exec.exitCode = 0 ∧
        (logAfter (exec.effect files (stdoutLog buildDir run)) (written .stdout exec.chunks)).any
          (fun content => linesContain content run.expectContains) = false ∧
        (logAfter (exec.effect files (stderrLog buildDir run)) (written .stderr exec.chunks)).any
          (fun content => linesContain content run.expectContains) = true := by
  obtain ⟨hout, herr⟩ := filesAtExit_logs buildDir files run exec
  unfold reportedSource runExpectContainsMatch
  rw [if_neg htext, fileContainsText_eq htext, fileContainsText_eq htext, hout, herr]
  by_cases hexit : exec.exitCode = 0
  · simp only [hexit, ne_eq, not_true_eq_false, if_false, true_and]
    split
    · simp_all
    · split
      · simp_all
      · split <;> simp_all
  · simp [hexit]

theorem verdictIsCurrent_iff (buildDir : Bytes) (files : Files) (event : Event) :
    VerdictIsCurrent buildDir files event ↔ NoStaleLog buildDir files event := by
  unfold VerdictIsCurrent NoStaleLog
  refine forall_congr' fun run => forall_congr' fun exec => forall_congr' fun _ =>
    forall_congr' fun htext => ?_
  rw [reportedSource_stdout htext, reportedSource_stderr htext]
  constructor
  · rintro ⟨hout, herr⟩ hexit hstale
    rcases hstale with ⟨hsilent, hfound⟩ | ⟨hsilent, hfound, hnot⟩
    · have hlog : (logAfter (exec.effect files (stdoutLog buildDir run))
          (written .stdout exec.chunks)).any
          (fun content => linesContain content run.expectContains) = true := by
        rw [logAfter, if_pos hsilent]
        exact hfound
      exact (infix_written_iff htext hlog).mp (hout ⟨hexit, hlog⟩) hsilent
    · have hlog : (logAfter (exec.effect files (stderrLog buildDir run))
          (written .stderr exec.chunks)).any
          (fun content => linesContain content run.expectContains) = true := by
        rw [logAfter, if_pos hsilent]
        exact hfound
      exact (infix_written_iff htext hlog).mp (herr ⟨hexit, hnot, hlog⟩) hsilent
  · intro hfresh
    constructor
    · rintro ⟨hexit, hlog⟩
      refine (infix_written_iff htext hlog).mpr fun hsilent => hfresh hexit (.inl ⟨hsilent, ?_⟩)
      rwa [logAfter, if_pos hsilent] at hlog
    · rintro ⟨hexit, hnot, hlog⟩
      refine (infix_written_iff htext hlog).mpr fun hsilent =>
        hfresh hexit (.inr ⟨hsilent, ?_, hnot⟩)
      rwa [logAfter, if_pos hsilent] at hlog

/-- Over every history, all verdicts are about their own execution if and only if no
successful execution finds its text in a log it left untouched. -/
theorem verdicts_current_iff (buildDir : Bytes) (files : Files) (history : List Event) :
    Along (applyEvent buildDir) (VerdictIsCurrent buildDir) files history ↔
      Along (applyEvent buildDir) (NoStaleLog buildDir) files history :=
  along_congr (verdictIsCurrent_iff buildDir) files history

/-- A command step that expects the text "ok". -/
def expectsOk : RunStep := ⟨ascii "qstar-command:check:run:0", ascii "ok", []⟩

/-- First the child prints "ok", later it prints nothing and is still reported successful. -/
theorem stale_verdict :
    ¬ Along (applyEvent (ascii "build")) (VerdictIsCurrent (ascii "build")) (fun _ => none)
      [.command expectsOk ⟨id, [(.stdout, ascii "ok\n")], 0⟩,
       .command expectsOk ⟨id, [], 0⟩] := by
  rintro ⟨-, hsecond, -⟩
  have hmatch := (hsecond expectsOk ⟨id, [], 0⟩ rfl (by decide)).1 (by decide)
  exact absurd hmatch (by decide)

end QStar.RunTarget.Verdict
