import QStar.Lib.Lines

/-!
# Build requests

What the client sends of a command line and what the server reads: five names and
seven numbers, one a line.
-/
namespace QStar.Daemon

open QStar.Lib.CStrings
open QStar.Lib.Lines
open QStar.Lib.Wire

/-- `struct qstar_build_options` -/
structure BuildOptions where
  explainCache : Int
  actionCacheMode : Int
  jobs : Int
  scheduleTrace : Int
  verbose : Int
  quiet : Int
  progressMode : Int
  colorMode : Int
  deriving DecidableEq

/-- `struct qstar_daemon_request`; absent strings are empty. -/
structure BuildRequest where
  cwd : Bytes
  file : Bytes
  label : Bytes
  buildDir : Bytes
  platform : Bytes
  options : BuildOptions
  deriving DecidableEq

/-- `send_request_body` -/
def sendRequestBody (req : BuildRequest) : Bytes :=
  writeLine req.cwd ++ (writeLine req.file ++ (writeLine req.label ++ (writeLine req.buildDir ++
    (writeLine req.platform ++ (writeLine (printInt req.options.jobs) ++
      (writeLine (printInt req.options.scheduleTrace) ++
        (writeLine (printInt req.options.verbose) ++ (writeLine (printInt req.options.quiet) ++
          (writeLine (printInt req.options.progressMode) ++
            (writeLine (printInt req.options.actionCacheMode) ++
              writeLine (printInt req.options.colorMode)))))))))))

/-- The options of `read_request`, the others left zero. -/
def readOptions : Reader BuildOptions := do
  let jobs ← readInt
  let scheduleTrace ← readInt
  let verbose ← readInt
  let quiet ← readInt
  let progressMode ← readInt
  let actionCacheMode ← readInt
  let colorMode ← readInt
  return ⟨0, actionCacheMode, jobs, scheduleTrace, verbose, quiet, progressMode, colorMode⟩

/-- `read_request` -/
def readRequest : Reader BuildRequest := do
  let cwd ← readLine
  let file ← readLine
  let label ← readLine
  let buildDir ← readLine
  let platform ← readLine
  let options ← readOptions
  return ⟨cwd, file, label, buildDir, platform, options⟩

/-- The names of a request fit on their lines. -/
structure BuildRequest.Plain (req : BuildRequest) : Prop where
  cwd : OneLine req.cwd
  file : OneLine req.file
  label : OneLine req.label
  buildDir : OneLine req.buildDir
  platform : OneLine req.platform

/-- The request as the server has it. -/
def BuildRequest.received (req : BuildRequest) : BuildRequest :=
  { req with options := { req.options with explainCache := 0 } }

theorem reads_request {req : BuildRequest} (h : req.Plain) :
    Reads readRequest (sendRequestBody req) req.received := by
  refine (reads_readLine h.cwd).bind ((reads_readLine h.file).bind ((reads_readLine h.label).bind
    ((reads_readLine h.buildDir).bind ((reads_readLine h.platform).bind (Reads.bind_nil ?_
      (reads_pure _))))))
  exact (reads_readInt _).bind ((reads_readInt _).bind ((reads_readInt _).bind
    ((reads_readInt _).bind ((reads_readInt _).bind ((reads_readInt _).bind
      ((reads_readInt _).bind_nil (reads_pure _)))))))

/-- What is read fits on lines, whatever was sent. -/
theorem readRequest_plain {s rest : Bytes} {req : BuildRequest}
    (h : readRequest s = some (req, rest)) : req.Plain := by
  obtain ⟨cwd, after, hcwd, h⟩ := bind_eq_some h
  obtain ⟨file, after, hfile, h⟩ := bind_eq_some h
  obtain ⟨label, after, hlabel, h⟩ := bind_eq_some h
  obtain ⟨buildDir, after, hbuildDir, h⟩ := bind_eq_some h
  obtain ⟨platform, after, hplatform, h⟩ := bind_eq_some h
  obtain ⟨options, after, -, h⟩ := bind_eq_some h
  cases h
  exact ⟨readLine_oneLine hcwd, readLine_oneLine hfile, readLine_oneLine hlabel,
    readLine_oneLine hbuildDir, readLine_oneLine hplatform⟩

/-- No request that is read asks for explanations of the cache. -/
theorem readRequest_explainCache {s rest : Bytes} {req : BuildRequest}
    (h : readRequest s = some (req, rest)) : req.options.explainCache = 0 := by
  obtain ⟨cwd, after, -, h⟩ := bind_eq_some h
  obtain ⟨file, after, -, h⟩ := bind_eq_some h
  obtain ⟨label, after, -, h⟩ := bind_eq_some h
  obtain ⟨buildDir, after, -, h⟩ := bind_eq_some h
  obtain ⟨platform, after, -, h⟩ := bind_eq_some h
  obtain ⟨options, after, hoptions, h⟩ := bind_eq_some h
  cases h
  obtain ⟨jobs, after, -, h⟩ := bind_eq_some hoptions
  obtain ⟨scheduleTrace, after, -, h⟩ := bind_eq_some h
  obtain ⟨verbose, after, -, h⟩ := bind_eq_some h
  obtain ⟨quiet, after, -, h⟩ := bind_eq_some h
  obtain ⟨progressMode, after, -, h⟩ := bind_eq_some h
  obtain ⟨actionCacheMode, after, -, h⟩ := bind_eq_some h
  obtain ⟨colorMode, after, -, h⟩ := bind_eq_some h
  cases h
  rfl

end QStar.Daemon
