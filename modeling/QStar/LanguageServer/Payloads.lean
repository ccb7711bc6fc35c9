import QStar.Lib.JsonWriting

/-!
# What the language server writes

The payloads are put together from literal text, strings that are escaped, paths that
are not, and numbers. What is formatted goes through a buffer of 4096 bytes and is cut
there, and the text of an id is one of the arguments.
-/
namespace QStar.LanguageServer.Payloads

open QStar.Lib
open QStar.Lib.CStrings
open QStar.Lib.Json (quote)
open QStar.Lib.JsonReader
open QStar.Lib.JsonWriting
open QStar.Lib.Lines
open QStar.Lib.Numerals

/-! ## The writers -/

/-- `lsp_buf_printf` on the formatted text. -/
def lspBufPrintf (text : Bytes) : Bytes := text.take 4095

/-- `lsp_json_string` -/
def lspJsonString (s : Bytes) : Bytes := quote s

def upperHexDigit (n : UInt8) : UInt8 := if n < 10 then 48 + n else 55 + n

/-- A byte of a path in a uri. -/
def uriByte (c : UInt8) : Bytes :=
  if c = 34 ∨ c = 92 ∨ c = 32 ∨ c = 35 then [37, upperHexDigit (c / 16), upperHexDigit (c % 16)] else [c]

/-- `path_to_uri` -/
def pathToUri (path : Bytes) : Bytes := ascii "\"file://" ++ (path.flatMap uriByte ++ ascii "\"")

/-- Lines are counted from zero. -/
def lineNumber (line : Int) : Nat := if 0 < line then (line - 1).toNat else 0

/-- `append_location` -/
def appendLocation (file : Bytes) (line : Int) : Bytes :=
  ascii "\x7b\"uri\":" ++ (pathToUri (if file = [] then ascii "<unknown>" else file) ++
    (ascii ",\"range\":\x7b\"start\":\x7b\"line\":" ++ (printUnsigned 10 (lineNumber line) ++
    (ascii ",\"character\":0\x7d,\"end\":\x7b\"line\":" ++ (printUnsigned 10 (lineNumber line) ++
    ascii ",\"character\":1\x7d\x7d\x7d")))))

/-- A lint diagnostic of the graph. -/
structure Diagnostic where
  code : Bytes
  severity : Bytes
  file : Option Bytes
  message : Bytes
  line : Int

def Diagnostic.level (d : Diagnostic) : Nat :=
  if d.severity = ascii "warning" then 2 else if d.severity = ascii "info" then 3 else 1

/-- The item of a diagnostic in `publish_diagnostics`. -/
def appendDiagnostic (d : Diagnostic) : Bytes :=
  ascii "\x7b\"range\":\x7b\"start\":\x7b\"line\":" ++ (printUnsigned 10 (lineNumber d.line) ++
    (ascii ",\"character\":0\x7d,\"end\":\x7b\"line\":" ++ (printUnsigned 10 (lineNumber d.line) ++
    (ascii ",\"character\":1\x7d\x7d,\"severity\":" ++ (printUnsigned 10 d.level ++
    (ascii ",\"code\":" ++ (lspJsonString d.code ++ (ascii ",\"source\":\"qstar\",\"message\":" ++
    (lspJsonString d.message ++ ascii "\x7d")))))))))

/-- The diagnostic of a file without a root file. -/
def noRootDiagnostic : Bytes :=
  ascii "\x7b\"range\":\x7b\"start\":\x7b\"line\":0,\"character\":0\x7d," ++
    (ascii "\"end\":\x7b\"line\":0,\"character\":1\x7d\x7d," ++ (ascii "\"severity\":1,\"code\":\"QSTAR001\"," ++
    (ascii "\"source\":\"qstar\",\"message\":" ++ ascii "\"root entry must be qstar.lua\"\x7d")))

/-- The payload of `publish_diagnostics`. -/
def diagnosticsPayload (uri : Bytes) (items : List Bytes) : Bytes :=
  ascii "\x7b\"jsonrpc\":\"2.0\",\"method\":\"textDocument/publishDiagnostics\",\"params\":\x7b\"uri\":" ++
    (lspJsonString uri ++ (ascii ",\"diagnostics\":[" ++ (commaSeparated items ++ ascii "]\x7d\x7d")))

/-- `append_document_symbol` -/
def appendDocumentSymbol (name : Bytes) (kind : Nat) (detail : Bytes) (line : Int) : Bytes :=
  ascii "\x7b\"name\":" ++ (lspJsonString name ++ (ascii ",\"detail\":" ++ (lspJsonString detail ++
    (ascii ",\"kind\":" ++ (printUnsigned 10 kind ++
    (ascii ",\"range\":\x7b\"start\":\x7b\"line\":" ++ (printUnsigned 10 (lineNumber line) ++
    (ascii ",\"character\":0\x7d,\"end\":\x7b\"line\":" ++ (printUnsigned 10 (lineNumber line) ++
    (ascii ",\"character\":1\x7d\x7d,\"selectionRange\":\x7b\"start\":\x7b\"line\":" ++
    (printUnsigned 10 (lineNumber line) ++ (ascii ",\"character\":0\x7d,\"end\":\x7b\"line\":" ++
    (printUnsigned 10 (lineNumber line) ++ ascii ",\"character\":1\x7d\x7d\x7d")))))))))))))

/-- `append_workspace_symbol` -/
def appendWorkspaceSymbol (name : Bytes) (kind : Nat) (container file : Bytes) (line : Int) : Bytes :=
  ascii "\x7b\"name\":" ++ (lspJsonString name ++ (ascii ",\"kind\":" ++ (printUnsigned 10 kind ++
    (ascii ",\"containerName\":" ++ (lspJsonString container ++ (ascii ",\"location\":" ++
    (appendLocation file line ++ ascii "\x7d")))))))

/-- `append_completion_item` -/
def appendCompletionItem (label detail : Bytes) : Bytes :=
  ascii "\x7b\"label\":" ++ (lspJsonString label ++ (ascii ",\"kind\":14,\"detail\":" ++
    (lspJsonString detail ++ ascii "\x7d")))

/-- The contents of a hover. -/
def hoverContents (value : Bytes) : Bytes :=
  ascii "\x7b\"contents\":\x7b\"kind\":\"markdown\",\"value\":" ++ (lspJsonString value ++ ascii "\x7d\x7d")

/-- A response up to its result: the id is an argument of the format, and what the handler
has of the result in its format follows it. -/
def responseStart (id : Option Bytes) (tail : Bytes) : Bytes :=
  lspBufPrintf (ascii "\x7b\"jsonrpc\":\"2.0\",\"id\":" ++ (id.getD (ascii "null") ++ tail))

/-! ## What is read of it -/

/-- A string of UTF-8 without control characters. -/
def Clean (s : Bytes) : Prop := Utf8.Valid s ∧ ∀ c ∈ s, ¬c < 32

theorem writesAscii_uriByte : Utf8.WritesAscii uriByte := by
  intro c
  exact forall_byte (P := fun c => (c < 0x80 → uriByte c ≠ [] ∧ ∀ d ∈ uriByte c, d < 0x80) ∧
    (¬c < 0x80 → uriByte c = [c])) (by decide +kernel) c

theorem reads_zero : Reads (ascii "0") (.num (ascii "0")) := reads_unsigned 0

theorem reads_one : Reads (ascii "1") (.num (ascii "1")) := reads_unsigned 1

/-- A path without control characters is written as a string. -/
theorem reads_pathToUri {path : Bytes} (h : Clean path) :
    Reads (pathToUri path) (.str (ascii "file://" ++ path.flatMap uriByte)) := by
  have hbyte : ∀ c, ¬c < 32 → ∀ d ∈ uriByte c, d ≠ 34 ∧ d ≠ 92 ∧ ¬d < 32 :=
    forall_byte (P := fun c => ¬c < 32 → ∀ d ∈ uriByte c, d ≠ 34 ∧ d ≠ 92 ∧ ¬d < 32) (by decide +kernel)
  have hname : ∀ c ∈ ascii "file://" ++ path.flatMap uriByte, c ≠ 34 ∧ c ≠ 92 ∧ ¬c < 32 := by
    intro c hc
    rcases List.mem_append.mp hc with hc | hc
    · exact (show ∀ c ∈ ascii "file://", c ≠ 34 ∧ c ≠ 92 ∧ ¬c < 32 by decide) c hc
    · obtain ⟨d, hd, hc⟩ := List.mem_flatMap.mp hc
      exact hbyte d (h.2 d hd) c hc
  have hvalid : Utf8.Valid (ascii "file://" ++ path.flatMap uriByte) :=
    Utf8.valid_append (by decide) ((Utf8.valid_flatMap writesAscii_uriByte).mpr h.1)
  have hread := reads_string hvalid (readString_name hname)
  simp only [List.append_assoc] at hread
  exact hread

theorem clean_unknown : Clean (ascii "<unknown>") := by
  constructor <;> decide

/-- A range of one line, as all ranges are. -/
theorem exists_reads_range (n : Nat) : ∃ v, Reads (ascii "\x7b\"start\":\x7b\"line\":" ++ (printUnsigned 10 n ++
    (ascii ",\"character\":0\x7d,\"end\":\x7b\"line\":" ++ (printUnsigned 10 n ++
    ascii ",\"character\":1\x7d\x7d")))) v := by
  have hstart := reads_object (readsMembers_cons (ascii "line") (by decide) (reads_unsigned n)
    (readsMembers_last (ascii "character") (by decide) reads_zero))
  have hend := reads_object (readsMembers_cons (ascii "line") (by decide) (reads_unsigned n)
    (readsMembers_last (ascii "character") (by decide) reads_one))
  have hrange := reads_object (readsMembers_cons (ascii "start") (by decide) hstart
    (readsMembers_last (ascii "end") (by decide) hend))
  simp only [List.append_assoc, List.cons_append] at hrange
  exact ⟨_, hrange⟩

theorem exists_reads_location {file : Bytes} (h : Clean file) (line : Int) :
    ∃ v, Reads (appendLocation file line) v := by
  have hfile : Clean (if file = [] then ascii "<unknown>" else file) := by
    split
    · exact clean_unknown
    · exact h
  obtain ⟨v, hrange⟩ := exists_reads_range (lineNumber line)
  have hlocation := reads_object (readsMembers_cons (ascii "uri") (by decide) (reads_pathToUri hfile)
    (readsMembers_last (ascii "range") (by decide) hrange))
  simp only [List.append_assoc] at hlocation
  exact ⟨_, hlocation⟩

theorem exists_reads_diagnostic {d : Diagnostic} (hcode : Utf8.Valid d.code) (hmessage : Utf8.Valid d.message) :
    ∃ v, Reads (appendDiagnostic d) v := by
  obtain ⟨v, hrange⟩ := exists_reads_range (lineNumber d.line)
  have hsource : Reads (quote (ascii "qstar")) (.str (ascii "qstar")) := reads_quote (by decide)
  have hitem := reads_object (readsMembers_cons (ascii "range") (by decide) hrange
    (readsMembers_cons (ascii "severity") (by decide) (reads_unsigned d.level)
    (readsMembers_cons (ascii "code") (by decide) (reads_quote hcode)
    (readsMembers_cons (ascii "source") (by decide) hsource
    (readsMembers_last (ascii "message") (by decide) (reads_quote hmessage))))))
  simp only [List.append_assoc] at hitem
  exact ⟨_, hitem⟩

theorem exists_reads_noRootDiagnostic : ∃ v, Reads noRootDiagnostic v :=
  exists_reads_of_read (by decide +kernel) (by decide +kernel)

theorem exists_reads_diagnostics {uri : Bytes} {items : List Bytes} (huri : Utf8.Valid uri)
    (hitems : ∀ item ∈ items, ∃ v, Reads item v) :
    ∃ members, Reads (diagnosticsPayload uri items) (.obj members) ∧ members.lookup (ascii "id") = none := by
  obtain ⟨v, harray⟩ := exists_reads_array hitems
  have hversion : Reads (quote (ascii "2.0")) (.str (ascii "2.0")) := reads_quote (by decide)
  have hmethod : Reads (quote (ascii "textDocument/publishDiagnostics"))
      (.str (ascii "textDocument/publishDiagnostics")) := reads_quote (by decide)
  have hparams := reads_object (readsMembers_cons (ascii "uri") (by decide) (reads_quote huri)
    (readsMembers_last (ascii "diagnostics") (by decide) harray))
  have hpayload := reads_object (readsMembers_cons (ascii "jsonrpc") (by decide) hversion
    (readsMembers_cons (ascii "method") (by decide) hmethod
    (readsMembers_last (ascii "params") (by decide) hparams)))
  simp only [List.append_assoc, List.cons_append] at hpayload
  exact ⟨_, hpayload, rfl⟩

theorem exists_reads_documentSymbol {name detail : Bytes} (hname : Utf8.Valid name) (hdetail : Utf8.Valid detail)
    (kind : Nat) (line : Int) : ∃ v, Reads (appendDocumentSymbol name kind detail line) v := by
  obtain ⟨v, hrange⟩ := exists_reads_range (lineNumber line)
  have hsymbol := reads_object (readsMembers_cons (ascii "name") (by decide) (reads_quote hname)
    (readsMembers_cons (ascii "detail") (by decide) (reads_quote hdetail)
    (readsMembers_cons (ascii "kind") (by decide) (reads_unsigned kind)
    (readsMembers_cons (ascii "range") (by decide) hrange
    (readsMembers_last (ascii "selectionRange") (by decide) hrange)))))
  simp only [List.append_assoc] at hsymbol
  exact ⟨_, hsymbol⟩

theorem exists_reads_workspaceSymbol {name container file : Bytes} (hname : Utf8.Valid name)
    (hcontainer : Utf8.Valid container) (hfile : Clean file) (kind : Nat) (line : Int) :
    ∃ v, Reads (appendWorkspaceSymbol name kind container file line) v := by
  obtain ⟨v, hlocation⟩ := exists_reads_location hfile line
  have hsymbol := reads_object (readsMembers_cons (ascii "name") (by decide) (reads_quote hname)
    (readsMembers_cons (ascii "kind") (by decide) (reads_unsigned kind)
    (readsMembers_cons (ascii "containerName") (by decide) (reads_quote hcontainer)
    (readsMembers_last (ascii "location") (by decide) hlocation))))
  exact ⟨_, hsymbol⟩

theorem exists_reads_completionItem {label detail : Bytes} (hlabel : Utf8.Valid label)
    (hdetail : Utf8.Valid detail) : ∃ v, Reads (appendCompletionItem label detail) v := by
  have hitem := reads_object (readsMembers_cons (ascii "label") (by decide) (reads_quote hlabel)
    (readsMembers_cons (ascii "kind") (by decide) (reads_unsigned 14)
    (readsMembers_last (ascii "detail") (by decide) (reads_quote hdetail))))
  exact ⟨_, hitem⟩

theorem exists_reads_hoverContents {value : Bytes} (h : Utf8.Valid value) : ∃ v, Reads (hoverContents value) v := by
  have hkind : Reads (quote (ascii "markdown")) (.str (ascii "markdown")) := reads_quote (by decide)
  have hinner := reads_object (readsMembers_cons (ascii "kind") (by decide) hkind
    (readsMembers_last (ascii "value") (by decide) (reads_quote h)))
  have hcontents := reads_object (readsMembers_last (ascii "contents") (by decide) hinner)
  simp only [List.append_assoc, List.cons_append] at hcontents
  exact ⟨_, hcontents⟩

/-- A response: an object with a result and an id. -/
structure IsResponse (v id : Value) : Prop where
  id : JsonMembers.follow [.member (ascii "id")] v = some id
  result : (JsonMembers.follow [.member (ascii "result")] v).isSome
  method : JsonMembers.follow [.member (ascii "method")] v = none

/-- What is formatted fits the buffer. -/
def Fits (id : Option Bytes) (tail : Bytes) : Prop := 22 + (id.getD (ascii "null")).length + tail.length < 4096

/-- The whole response, where the id fits: the tail and what follows are the result, with the
brace that closes the response. -/
theorem exists_reads_response {id : Option Bytes} {w v : Value} (hid : Reads (id.getD (ascii "null")) w)
    {tail result : Bytes} (rest : Bytes) (hfits : Fits id tail) (hresult : Reads result v)
    (htext : tail ++ rest = ascii ",\"result\":" ++ (result ++ [125])) :
    ∃ r, Reads (responseStart id tail ++ rest) r ∧ IsResponse r w := by
  have hversion : Reads (quote (ascii "2.0")) (.str (ascii "2.0")) := reads_quote (by decide)
  have hresponse := reads_object (readsMembers_cons (ascii "jsonrpc") (by decide) hversion
    (readsMembers_cons (ascii "id") (by decide) hid
    (readsMembers_last (ascii "result") (by decide) hresult)))
  have hall : responseStart id tail =
      ascii "\x7b\"jsonrpc\":\"2.0\",\"id\":" ++ (id.getD (ascii "null") ++ tail) := by
    apply List.take_of_length_le
    have hlength : (ascii "\x7b\"jsonrpc\":\"2.0\",\"id\":").length = 22 := by decide
    rw [List.length_append, List.length_append, hlength]
    exact Nat.le_of_lt_succ (by unfold Fits at hfits; omega)
  refine ⟨.obj [(ascii "jsonrpc", .str (ascii "2.0")), (ascii "id", w), (ascii "result", v)], ?_, rfl, rfl, rfl⟩
  rw [hall, List.append_assoc, List.append_assoc, htext]
  exact hresponse

/-! ## The tables -/

structure HoverEntry where
  name : Bytes
  text : Bytes
  validName : Utf8.Valid name
  validText : Utf8.Valid text

def entry (name text : String) : HoverEntry :=
  ⟨Utf8.bytesOf name, Utf8.bytesOf text, Utf8.valid_bytesOf name, Utf8.valid_bytesOf text⟩

/-- `qstar_lsp_symbols` -/
def lspSymbols : List HoverEntry := [
  entry "qstar.project"
    "Declare package-root project metadata, output roots, compile database policy, and opt-in local action cache policy.",
  entry "qstar.option"
    "Declare a typed project build option that can be overridden with global CLI -D name=value.",
  entry "qstar.variant"
    "Declare a read-only user metadata variant; builtin fields are name, values, description, and tags only.",
  entry "qstar.toolset"
    "Declare a tool role bundle with core archive/link roles and provider namespace tool tables.",
  entry "qstar.use_language"
    "Activate a project-local or standard language provider and return its helper table.",
  entry "qstar.language_provider"
    "Declare and validate a provider manifest; valid only inside provider .qsm manifests.",
  entry "qstar.provider_tools"
    "Provider implementation helper that returns a validated provider tool table.",
  entry "qstar.language_options"
    "Provider implementation helper that returns a language option table for the provider namespace.",
  entry "qstar.argv"
    "Provider implementation helper for constructing lowered action argv vectors.",
  entry "qstar.config"
    "Declare a reusable target option bundle for configs = \x7b ... \x7d.",
  entry "qstar.executable"
    "Create an executable target.",
  entry "qstar.staticlib"
    "Create a static library target.",
  entry "qstar.sharedlib"
    "Create a shared library target when the selected platform policy supports it.",
  entry "qstar.objectlib"
    "Create a generic object collection target consumed through objects = \x7b ... \x7d; compile_context is own or consumer.",
  entry "qstar.interface"
    "Declare an artifact-free dependency target with explicit compile_usage and link_usage requirements.",
  entry "qstar.imported"
    "Declare package-local prebuilt artifacts selected by platform without inferred compiler or linker flags.",
  entry "qstar.tool"
    "Declare a package-local executable tool dependency path.",
  entry "qstar.test"
    "Create a test executable target.",
  entry "qstar.test_suite"
    "Classify existing qstar.test, run_target, or nested suite labels with exact user-defined tags.",
  entry "qstar.test_resource"
    "Declare a generic named test scheduler resource with a positive capacity.",
  entry "qstar.custom_target"
    "Create a package-local generated action.",
  entry "qstar.transform"
    "Create a single-input single-output generated artifact transform.",
  entry "qstar.run_target"
    "Declare a named external run action.",
  entry "qstar.group"
    "Declare a deps-only aggregate target with no artifact.",
  entry "qstar.configure_file"
    "Generate a deterministic config header or configured file.",
  entry "qstar.stage"
    "Create a copy-only package staging rule.",
  entry "qstar.stage_file"
    "Map a source artifact or file into a staging destination path.",
  entry "qstar.target_family"
    "Group related target variants for lint policy such as shared source suppression.",
  entry "qstar.command"
    "Declare a root-only project command made of generic QStar steps.",
  entry "qstar.command_spec"
    "Create a pure deeply immutable project command specification, including inside an ordinary QSM.",
  entry "qstar.command_set"
    "Materialize a non-empty list of command specifications from root qstar.lua.",
  entry "qstar.step.build"
    "Project command step that builds a target, generated action, stage, run target, or group.",
  entry "qstar.step.test"
    "Project command step that runs a qstar.test target selection.",
  entry "qstar.step.stage"
    "Project command step that materializes a qstar.stage layout.",
  entry "qstar.step.check"
    "Project command step that runs graph/input validation.",
  entry "qstar.step.lint"
    "Project command step that runs authoring lint.",
  entry "qstar.step.run"
    "Project command step that executes a captured command-local argv-vector action with inputs, env, timeout, expect, action-log, and replay.",
  entry "qstar.step.call"
    "Project command step that invokes another project command.",
  entry "qstar.step.export_stage"
    "Project command step that materializes a stage and copies the layout to a package-relative destination.",
  entry "qstar.param"
    "Reference a project command runtime option inside qstar.cli or step conditions.",
  entry "qstar.param.string"
    "Project command option schema for a string-valued CLI option.",
  entry "qstar.param.path"
    "Project command option schema for a package-relative path option.",
  entry "qstar.param.bool"
    "Project command option schema for a boolean CLI flag.",
  entry "qstar.param.int"
    "Project command option schema for an integer CLI option.",
  entry "qstar.param.enum"
    "Project command option schema constrained to declared choices.",
  entry "qstar.param.list"
    "Project command option schema for a repeated string option.",
  entry "qstar.arg_if"
    "Append one project command argv item when a bool command option is true.",
  entry "qstar.args_if"
    "Append multiple project command argv items when a bool command option is true.",
  entry "qstar.cli"
    "Build an argv-vector command for custom_target or run_target.",
  entry "qstar.status"
    "Build a validated one-line status description for custom actions.",
  entry "qstar.input"
    "Reference a custom_target or run_target input by index inside qstar.cli.",
  entry "qstar.subdir"
    "Load a canonical subdir fragment named <folder>.qst.",
  entry "qstar.import_file"
    "Load a package-relative .qst graph fragment exactly once.",
  entry "qstar.import_module"
    "Load a package-relative module folder only, resolve <folder>/<name>.qsm, and return its table.",
  entry "qstar.files"
    "Return an explicit file list for target fields.",
  entry "qstar.join"
    "Join path segments into a slash-separated package-relative path string.",
  entry "qstar.copy"
    "Deep-copy a Lua authoring table.",
  entry "qstar.append"
    "Return a new list with values or list items appended.",
  entry "qstar.merge"
    "Return a deep-merged plain table with list fields appended.",
  entry "qstar.extend"
    "Deep-merge overlays into a base plain table and return it.",
  entry "qstar.output"
    "Declare a generated output path, or reference an output by index inside qstar.cli.",
  entry "qstar.target_file"
    "Reference another target artifact path inside qstar.cli.",
  entry "qstar.tool_file"
    "Reference the executable path of qstar.tool, imported role=tool, executable, or test target.",
  entry "qstar.stage_dir"
    "Reference a qstar.stage layout root as a run_target input token.",
  entry "qstar.version"
    "QStar authoring/runtime version string.",
  entry "qstar.host.os"
    "Host operating system identifier used by the QStar evaluator.",
  entry "qstar.host.arch"
    "Host architecture identifier used by the QStar evaluator.",
  entry "qstar.project.root"
    "Resolved package/project root path for the current qstar.lua.",
  entry "QSTAR_VERSION"
    "QStar authoring/runtime version string.",
  entry "QSTAR_VERSION_MAJOR"
    "QStar major version integer.",
  entry "QSTAR_VERSION_MINOR"
    "QStar minor version integer.",
  entry "QSTAR_VERSION_PATCH"
    "QStar patch version integer.",
  entry "QSTAR_HOST_OS"
    "Host operating system identifier.",
  entry "QSTAR_HOST_ARCH"
    "Host architecture identifier.",
  entry "QSTAR_PACKAGE_ROOT"
    "Resolved package root path.",
  entry "QSTAR_PROJECT_ROOT"
    "Resolved project root path."]

/-- `qstar_lsp_fields` -/
def lspFields : List HoverEntry := [
  entry "sources"
    "Compile or generated source inputs for this target.",
  entry "objects"
    "Object library labels consumed by an artifact target.",
  entry "compile_context"
    "Objectlib compile mode: own compiles once, consumer compiles under each consuming target context.",
  entry "inputs"
    "run_target or qstar.step.run first-class input list; accepts package files, qstar.target_file, or qstar.stage_dir.",
  entry "configs"
    "Reusable qstar.config labels merged before target-local fields.",
  entry "toolset"
    "Canonical qstar.toolset label selected by a target, config, custom_target, or transform.",
  entry "action_cache"
    "Project local action cache policy: off by default, or local for the opt-in content-addressed compile/generated cache.",
  entry "cacheable"
    "Boolean candidate policy for target/config/generated actions; false always disables local CAS lookup and storage.",
  entry "tools"
    "Tool role map inside qstar.toolset; archive/link are core roles and compiler tools live under provider namespaces.",
  entry "api"
    "Provider manifest API version, currently qstar.lang/1.",
  entry "namespace"
    "Provider namespace activated as lang.<namespace>.",
  entry "implementation"
    "Provider implementation Lua file loaded in the restricted provider sandbox.",
  entry "options"
    "Provider-defined language option schema or helper-exported language option table.",
  entry "scaffold"
    "Optional provider init scaffold metadata validated as declarative data.",
  entry "shapes"
    "Provider scaffold map for app, lib, tool, empty, and workspace project shapes.",
  entry "files"
    "Provider scaffold file declarations with package-relative paths and literal bodies.",
  entry "fragments"
    "Provider scaffold workspace fragment declarations using package-relative .qst paths.",
  entry "type"
    "Project option or provider option type.",
  entry "value"
    "Default value for qstar.option before CLI -D overrides.",
  entry "choices"
    "Allowed values for qstar.option type combo or qstar.param.enum.",
  entry "values"
    "Free-form qstar.variant metadata table, or allowed string values for a provider enum option.",
  entry "tags"
    "Free-form string labels for qstar.variant metadata or qstar.test_suite selection; QStar assigns no platform or environment meaning.",
  entry "tests"
    "Existing qstar.test, run_target, or nested qstar.test_suite labels classified by a test suite.",
  entry "manual"
    "Exclude a test target from unfiltered automatic execution, or a suite from implicit tag discovery; explicit selection remains available.",
  entry "resources"
    "For qstar.test, a user-defined resource-id to positive integer request map.",
  entry "capacity"
    "Positive concurrent capacity of a generic qstar.test_resource declaration.",
  entry "retry"
    "Test retry policy with count and on = \x7b fail, error, timeout \x7d.",
  entry "setup"
    "Optional qstar.cli setup action run while test resources are held.",
  entry "cleanup"
    "Optional qstar.cli cleanup action always attempted before releasing test resources.",
  entry "timeout"
    "Per-attempt timeout in seconds for a test, run target, or command action.",
  entry "skip"
    "Declarative qstar.status reason that records a skipped test without executing it.",
  entry "default"
    "Default metadata for a provider option schema or command runtime option.",
  entry "generated_dir"
    "Project-level package-relative root for qstar.output generated artifacts.",
  entry "deps"
    "Public dependency edges used for build, link, and include propagation.",
  entry "public_deps"
    "Alias for public dependency edges.",
  entry "private_deps"
    "Private dependency edges used for build/link without public include propagation.",
  entry "compile_usage"
    "Dependency usage requirements with explicit options and rebuild inputs applied to consumers.",
  entry "link_usage"
    "Dependency link usage requirements with explicit options and rebuild inputs applied to consumers.",
  entry "artifact_kind"
    "Descriptive imported target kind metadata; it never infers compiler or linker flags.",
  entry "artifacts"
    "Platform-keyed imported artifact lists with id, role, path, and primary metadata.",
  entry "role"
    "Imported artifact role such as link, runtime, tool, or a project-defined descriptive identifier.",
  entry "primary"
    "Selects the default target_file artifact for one imported platform artifact list.",
  entry "public_headers"
    "Language-local exported headers under lang.c or lang.cxx.",
  entry "private_headers"
    "Language-local private headers under lang.c or lang.cxx.",
  entry "lang"
    "Per-language option namespace.",
  entry "c"
    "C language options under lang.c.",
  entry "cxx"
    "C++ language options under lang.cxx.",
  entry "asm"
    "Assembly language options under lang.asm.",
  entry "archive"
    "Archive tool role under qstar.toolset.tools.",
  entry "link"
    "Link tool role under qstar.toolset.tools or target/config link namespace.",
  entry "include_dirs"
    "Language-local include directories under lang.<language>.",
  entry "public_include_dirs"
    "Language include directories propagated to public dependents.",
  entry "private_include_dirs"
    "Language include directories used only by this target.",
  entry "system_include_dirs"
    "Language system include directories under lang.c or lang.cxx.",
  entry "compile_options"
    "Language-specific compiler options.",
  entry "defines"
    "Language-specific preprocessor defines.",
  entry "standard"
    "C++ standard string under lang.cxx.standard.",
  entry "preprocess"
    "Assembly preprocessing switch under lang.asm.preprocess.",
  entry "precompiled_header"
    "Optional package-relative C++ precompiled header under lang.cxx.",
  entry "unity"
    "Opt-in C++ unity compilation table with enabled and batch_size.",
  entry "batch_size"
    "Number of C++ implementation sources per unity translation unit.",
  entry "modules"
    "Opt-in C++ module interface and implementation lowering under lang.cxx.",
  entry "enabled"
    "Boolean switch used by opt-in language strategy tables.",
  entry "command"
    "argv-vector command built with qstar.cli.",
  entry "description"
    "Validated progress/status message built with qstar.status.",
  entry "timeout"
    "run_target or qstar.step.run timeout in seconds.",
  entry "expect"
    "run_target or qstar.step.run expectation table with contains and optional file.",
  entry "contains"
    "Expected text for run_target or qstar.step.run checks under expect.contains.",
  entry "file"
    "Optional package-relative file scanned by run_target or qstar.step.run expect.file.",
  entry "root"
    "Stage root path for qstar.stage, package-relative.",
  entry "files"
    "Stage file mappings built with qstar.stage_file.",
  entry "steps"
    "Ordered qstar.step.* list inside a root qstar.command.",
  entry "is_default"
    "Marks the default root project command; only one command may set it.",
  entry "hidden"
    "Hides a project command from qstar commands while keeping it callable.",
  entry "aliases"
    "Alternative CLI names for a root project command.",
  entry "working_dir"
    "Package-relative default working directory for command run steps.",
  entry "to"
    "Package-relative export_stage destination, optionally supplied by qstar.param(\"path_option\").",
  entry "variants"
    "Target family variant names used only for lint grouping.",
  entry "targets"
    "Explicit target labels that belong to a target_family.",
  entry "allow_shared_sources"
    "Allow duplicate source use inside this target_family lint group.",
  entry "visibility"
    "Package visibility patterns that may depend on this target.",
  entry "artifact_name"
    "Target artifact filename override, for example app-tool.",
  entry "libs"
    "System libraries rendered by the selected link policy.",
  entry "link_options"
    "Raw target linker options appended before object inputs.",
  entry "link_inputs"
    "Extra package-relative files or target_file artifacts tracked as link rebuild inputs without adding argv items.",
  entry "frameworks"
    "macOS framework names under link.frameworks."]

end QStar.LanguageServer.Payloads
