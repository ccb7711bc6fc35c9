import QStar.Authoring.Surroundings
import QStar.LanguageServer.Messages
import QStar.LanguageServer.Payloads

/-!
# The handlers of the language server

A handler reads what it needs of the message, finds the token at a position, loads
the graph of the workspace from disk and writes one payload. The files and the
evaluation of the graph are a parameter. Only the search for what an import loads
can fail, and a handler that fails ends the server.
-/
namespace QStar.LanguageServer.Handlers

open QStar.Authoring (ancestors)
open QStar.Base
open QStar.BuildGraph (artifactBasename dirname)
open QStar.LanguageServer.Messages
open QStar.LanguageServer.Payloads
open QStar.Lib
open QStar.Lib.CStrings
open QStar.Lib.JsonReader
open QStar.Lib.JsonWriting
open QStar.Lib.Lines
open QStar.Lib.Numerals

/-! ## The workspace -/

structure Target where
  label : Bytes
  kind : Bytes
  originFile : Bytes
  originLine : Int
  sources : List Bytes
  deps : List Bytes
  privateDeps : List Bytes

structure Config where
  label : Bytes
  originFile : Bytes
  originLine : Int

structure Genrule where
  label : Bytes
  originFile : Bytes
  originLine : Int
  configHeader : Bool

structure TestSuite where
  label : Bytes
  originFile : Bytes
  originLine : Int
  tests : List Bytes
  manual : Bool

/-- What the server uses of a graph. -/
structure LintGraph where
  targets : List Target
  configs : List Config
  genrules : List Genrule
  testSuites : List TestSuite
  diagnostics : List Diagnostic

/-- The files on disk: which of them can be opened, and `load_lint_graph` of a root file,
whether it failed and the graph as far as it was loaded. -/
structure Workspace where
  fileExists : Bytes → Bool
  loadLintGraph : Bytes → Bool × LintGraph

/-- A path that fits a buffer of `QSTAR_PATH_MAX` bytes. -/
def bounded (path : Bytes) : Option Bytes := if path.length < 4096 then some path else none

/-- `find_root_file` -/
def findRootFile (ws : Workspace) (path : Bytes) : Option Bytes :=
  (bounded (dirname path)).bind fun dir =>
    if artifactBasename path = ascii "qstar.lua" then bounded path
    else (ancestors dir.length dir).findSome? fun dir =>
      (bounded (pathJoin dir (ascii "qstar.lua"))).filter ws.fileExists

/-- The graph of a file, unless it could not be loaded and has nothing that counts. -/
def graphFor (ws : Workspace) (path : Bytes) (counts : LintGraph → Bool) : Option LintGraph :=
  (findRootFile ws path).bind fun root =>
    let loaded := ws.loadLintGraph root
    if loaded.1 && !counts loaded.2 then none else some loaded.2

def LintGraph.hasTargets (g : LintGraph) : Bool := !g.targets.isEmpty

def LintGraph.hasPlaces (g : LintGraph) : Bool :=
  !g.targets.isEmpty || !g.genrules.isEmpty || !g.testSuites.isEmpty

def LintGraph.hasSymbols (g : LintGraph) : Bool :=
  !g.targets.isEmpty || !g.configs.isEmpty || !g.genrules.isEmpty || !g.testSuites.isEmpty

/-! ## Tokens -/

def skipLines : Nat → Bytes → Bytes
  | 0, p => p
  | _ + 1, [] => []
  | n + 1, c :: rest => if c = 10 then skipLines n rest else skipLines (n + 1) rest

/-- `line_at_position` -/
def lineAtPosition (text : Bytes) (line : Int) : Bytes :=
  (skipLines line.toNat text).takeWhile fun c => c ≠ 10 && c ≠ 13

/-- `is_token_char` -/
def isTokenChar (c : UInt8) : Bool := isAlnum c || decide (c ∈ ascii "_-.:/@")

/-- The row in front of the token of `copy_token_at_range`, and the token. -/
def copyTokenAtRange (text : Bytes) (line character : Int) : Bytes × Bytes :=
  let row := lineAtPosition text line
  let before := (row.take character.toNat).reverse
  ((before.dropWhile isTokenChar).reverse,
    (before.takeWhile isTokenChar).reverse ++ (row.drop character.toNat).takeWhile isTokenChar)

/-- `copy_token_at` -/
def copyTokenAt (text : Bytes) (line character : Int) : Bytes := (copyTokenAtRange text line character).2

/-- `lsp_path_has_suffix` -/
def lspPathHasSuffix (path suffix : Bytes) : Bool := decide (suffix <:+ path)

/-! ## The definition of an import -/

inductive ImportCall where
  | importFile
  | importModule
  | useLanguage
  deriving DecidableEq

/-- The call that stands in the row in front of the token. -/
def importCall (row : Bytes) : Option ImportCall :=
  if strstr row (ascii "qstar.import_file") then some .importFile
  else if strstr row (ascii "qstar.import_module") then some .importModule
  else if strstr row (ascii "qstar.use_language") then some .useLanguage
  else none

/-- Whether the token can be what the call loads. -/
def ImportCall.takes : ImportCall → Bytes → Bool
  | .importFile, token => lspPathHasSuffix token (ascii ".qst")
  | _, token => !lspPathHasSuffix token (ascii ".qst") && !lspPathHasSuffix token (ascii ".qsm") &&
      token ≠ ascii "qstar.lua"

/-- The folder a module is looked for in. -/
def ImportCall.folder : ImportCall → Bytes → Bytes
  | .useLanguage, token => if 47 ∈ token then token else ascii "qstar/languages/" ++ token
  | _, token => token

/-- What the call loads, from the root. -/
def ImportCall.file : ImportCall → Bytes → Bytes
  | .importFile, token => token
  | call, token => call.folder token ++ (ascii "/" ++ (artifactBasename (call.folder token) ++ ascii ".qsm"))

/-- Whether a module has a name. -/
def ImportCall.named : ImportCall → Bytes → Bool
  | .importFile, _ => true
  | call, token => artifactBasename (call.folder token) ≠ []

/-- The call at a position that can load the token, and the folder of the root file. -/
def importAt (ws : Workspace) (doc : Doc) (line character : Int) (token : Bytes) : Option (ImportCall × Bytes) :=
  if token = [] ∨ isPackageRelative token = false then none
  else
    (importCall (copyTokenAtRange doc.text line character).1).bind fun call =>
      ((findRootFile ws doc.path).bind fun root => bounded (dirname root)).bind fun dir =>
        if call.takes token then some (call, dir) else none

/-- `resolve_import_definition`: no value where it fails, no file where there is none. -/
def resolveImportDefinition (ws : Workspace) (doc : Doc) (line character : Int) (token : Bytes) :
    Option (Option Bytes) :=
  match importAt ws doc line character token with
  | none => some none
  | some (call, dir) =>
    if call.named token then
      (bounded (call.folder token)).bind fun _ => (bounded (call.file token)).bind fun rel =>
        (bounded (pathJoin dir rel)).map fun dst => if ws.fileExists dst then some dst else none
    else none

/-! ## What the handlers answer -/

/-- `lookup_static_hover` -/
def lookupStaticHover (token : Bytes) : Option Bytes :=
  ((lspSymbols ++ lspFields).find? fun e => decide (e.name = token)).map (·.text)

def targetHover (t : Target) : Bytes :=
  lspBufPrintf (ascii "**" ++ (t.label ++ (ascii "**\n\nkind: `" ++ (t.kind ++ (ascii "`\n\norigin: `" ++
    (t.originFile ++ (ascii ":" ++ (printInt t.originLine ++ (ascii "`\n\nsources: `" ++
    (printUnsigned 10 t.sources.length ++ ascii "`"))))))))))

def testSuiteHover (s : TestSuite) : Bytes :=
  lspBufPrintf (ascii "**" ++ (s.label ++ (ascii "**\n\nkind: `test_suite`\n\norigin: `" ++ (s.originFile ++
    (ascii ":" ++ (printInt s.originLine ++ (ascii "`\n\nmembers: `" ++ (printUnsigned 10 s.tests.length ++
    (ascii "`\n\nmanual: `" ++ ((if s.manual then ascii "true" else ascii "false") ++ ascii "`"))))))))))

/-- The description of the target or the test suite with a label. -/
def LintGraph.describe (g : LintGraph) (token : Bytes) : Option Bytes :=
  ((g.targets.find? fun t => decide (t.label = token)).map targetHover).or
    ((g.testSuites.find? fun s => decide (s.label = token)).map testSuiteHover)

/-- `label_hover` -/
def labelHover (ws : Workspace) (path token : Bytes) : Option Bytes :=
  if ascii "//" <+: token ∧ 58 ∈ token then (graphFor ws path LintGraph.hasTargets).bind (·.describe token)
  else none

/-- Where a target, a generated action or a test suite is declared. -/
def LintGraph.declaration (g : LintGraph) (token : Bytes) : Option (Bytes × Int) :=
  ((g.targets.find? fun t => decide (t.label = token)).map fun t => (t.originFile, t.originLine)).or
    (((g.genrules.find? fun r => decide (r.label = token)).map fun r => (r.originFile, r.originLine)).or
      ((g.testSuites.find? fun s => decide (s.label = token)).map fun s => (s.originFile, s.originLine)))

/-- Where a label is used. -/
def LintGraph.references (g : LintGraph) (token : Bytes) : List (Bytes × Int) :=
  (g.targets.flatMap fun t => ((t.deps ++ t.privateDeps).filter fun d => decide (d = token)).map fun _ =>
    (t.originFile, t.originLine)) ++
  g.testSuites.flatMap fun s => (s.tests.filter fun d => decide (d = token)).map fun _ => (s.originFile, s.originLine)

structure Symbol where
  name : Bytes
  kind : Nat
  detail : Bytes
  file : Bytes
  line : Int

def LintGraph.symbols (g : LintGraph) : List Symbol :=
  g.targets.map (fun t => ⟨t.label, 12, t.kind, t.originFile, t.originLine⟩) ++
  (g.configs.map (fun c => ⟨c.label, 5, ascii "config", c.originFile, c.originLine⟩) ++
  (g.genrules.map (fun r => ⟨r.label, 13, if r.configHeader then ascii "configure_file" else ascii "custom_target",
    r.originFile, r.originLine⟩) ++
  g.testSuites.map (fun s => ⟨s.label, 5, ascii "test_suite", s.originFile, s.originLine⟩)))

/-- Whether `workspace/symbol` has a symbol for the query. -/
def matchesQuery (query : Option Bytes) (name : Bytes) : Bool :=
  match query with
  | some (c :: q) => strstr name (c :: q)
  | _ => true

/-- The document a handler looks up. -/
def docOf (docs : List Doc) (uri : Option Bytes) : Option Doc := uri.bind (findDoc docs)

/-- The place a definition is at; no value where the search fails. -/
def definitionPlace (ws : Workspace) (docs : List Doc) (uri : Option Bytes) (line character : Int) :
    Option (Option (Bytes × Int)) :=
  match docOf docs uri with
  | none => some none
  | some doc =>
    let token := copyTokenAt doc.text line character
    (resolveImportDefinition ws doc line character token).map fun found =>
      match found with
      | some file => some (file, 1)
      | none =>
        if token = [] then none
        else (graphFor ws doc.path LintGraph.hasPlaces).bind (·.declaration token)

def referencePlaces (ws : Workspace) (docs : List Doc) (uri : Option Bytes) (line character : Int) :
    List (Bytes × Int) :=
  match docOf docs uri with
  | none => []
  | some doc =>
    let token := copyTokenAt doc.text line character
    if token = [] then []
    else
      match graphFor ws doc.path LintGraph.hasTargets with
      | none => []
      | some g => g.references token

def documentSymbols (ws : Workspace) (docs : List Doc) (uri : Option Bytes) : List Symbol :=
  match docOf docs uri with
  | none => []
  | some doc =>
    match graphFor ws doc.path LintGraph.hasSymbols with
    | none => []
    | some g => g.symbols.filter fun s => decide (s.file = doc.path)

/-- The first document tells the workspace. -/
def workspaceSymbols (ws : Workspace) (docs : List Doc) (query : Option Bytes) : List Symbol :=
  match docs.head? with
  | none => []
  | some doc =>
    match graphFor ws doc.path LintGraph.hasSymbols with
    | none => []
    | some g => g.symbols.filter fun s => matchesQuery query s.name

def hoverText (ws : Workspace) (docs : List Doc) (uri : Option Bytes) (line character : Int) : Option Bytes :=
  match docOf docs uri with
  | none => none
  | some doc =>
    let token := copyTokenAt doc.text line character
    (lookupStaticHover token).or (labelHover ws doc.path token)

/-! ## The handlers -/

/-- The result of `initialize`. -/
def initializeResult : Bytes :=
  ascii "\x7b\"capabilities\":\x7b\"textDocumentSync\":1," ++ (ascii "\"hoverProvider\":true," ++
    (ascii "\"definitionProvider\":true," ++ (ascii "\"referencesProvider\":true," ++
    (ascii "\"documentSymbolProvider\":true," ++ (ascii "\"workspaceSymbolProvider\":true," ++
    (ascii "\"completionProvider\":\x7b\"triggerCharacters\":" ++
    (ascii "[\"q\",\".\",\"/\",\":\",\"\\\"\"]\x7d\x7d," ++
    (ascii "\"serverInfo\":\x7b\"name\":\"qstar-lsp\"," ++ ascii "\"version\":\"v1\"\x7d\x7d"))))))))

/-- What the handler of a kind of request prints behind the id, in one format with it. -/
def tailOf : Kind → Bytes
  | .initialize_ => ascii ",\"result\":" ++ (initializeResult ++ ascii "\x7d")
  | .hover | .definition => ascii ",\"result\":"
  | .references | .documentSymbol | .workspaceSymbol => ascii ",\"result\":["
  | .completion => ascii ",\"result\":\x7b\"isIncomplete\":false,\"items\":["
  | _ => ascii ",\"result\":null\x7d"

/-- `send_null_result` -/
def sendNullResult (id : Option Bytes) : Bytes := responseStart id (tailOf .other)

/-- `publish_diagnostics` -/
def publishDiagnostics (ws : Workspace) (doc : Doc) : Bytes :=
  diagnosticsPayload doc.uri
    (match findRootFile ws doc.path with
    | some root => ((ws.loadLintGraph root).2.diagnostics.filter fun d => decide (d.file = some doc.path)).map
        appendDiagnostic
    | none => [noRootDiagnostic])

/-- `handle_initialize` -/
def handleInitialize (id : Option Bytes) : Bytes := responseStart id (tailOf .initialize_)

/-- `handle_hover` -/
def handleHover (ws : Workspace) (docs : List Doc) (id uri : Option Bytes) (line character : Int) : Bytes :=
  responseStart id (tailOf .hover) ++
    ((match hoverText ws docs uri line character with
    | some text => hoverContents text
    | none => ascii "null") ++ ascii "\x7d")

/-- `handle_completion` -/
def handleCompletion (id : Option Bytes) : Bytes :=
  responseStart id (tailOf .completion) ++
    (commaSeparated ((lspSymbols ++ lspFields).map fun e => appendCompletionItem e.name e.text) ++ ascii "]\x7d\x7d")

/-- `handle_definition` -/
def handleDefinition (ws : Workspace) (docs : List Doc) (id uri : Option Bytes) (line character : Int) :
    Option Bytes :=
  (definitionPlace ws docs uri line character).map fun place =>
    responseStart id (tailOf .definition) ++
      ((match place with
      | some place => appendLocation place.1 place.2
      | none => ascii "null") ++ ascii "\x7d")

/-- `handle_references` -/
def handleReferences (ws : Workspace) (docs : List Doc) (id uri : Option Bytes) (line character : Int) : Bytes :=
  responseStart id (tailOf .references) ++
    (commaSeparated ((referencePlaces ws docs uri line character).map fun place => appendLocation place.1 place.2) ++
      ascii "]\x7d")

/-- `handle_document_symbols` -/
def handleDocumentSymbols (ws : Workspace) (docs : List Doc) (id uri : Option Bytes) : Bytes :=
  responseStart id (tailOf .documentSymbol) ++
    (commaSeparated ((documentSymbols ws docs uri).map fun s => appendDocumentSymbol s.name s.kind s.detail s.line) ++
      ascii "]\x7d")

/-- `handle_workspace_symbols` -/
def handleWorkspaceSymbols (ws : Workspace) (docs : List Doc) (id query : Option Bytes) : Bytes :=
  responseStart id (tailOf .workspaceSymbol) ++
    (commaSeparated ((workspaceSymbols ws docs query).map fun s =>
      appendWorkspaceSymbol s.name s.kind s.detail s.file s.line) ++ ascii "]\x7d")

/-- The payloads a request is answered with; no value where its handler fails. The documents are
those behind the update of `publish_for_body`. -/
def answer (ws : Workspace) (docs : List Doc) : Request → Option (List Bytes)
  | .initialize_ id => some [handleInitialize id]
  | .shutdown id => some [sendNullResult id]
  | .exit => some []
  | .publish uri _ => some ((docOf docs uri).toList.map (publishDiagnostics ws))
  | .hover id uri line character => some [handleHover ws docs id uri line character]
  | .completion id => some [handleCompletion id]
  | .definition id uri line character => (handleDefinition ws docs id uri line character).map fun p => [p]
  | .references id uri line character => some [handleReferences ws docs id uri line character]
  | .documentSymbol id uri => some [handleDocumentSymbols ws docs id uri]
  | .workspaceSymbol id query => some [handleWorkspaceSymbols ws docs id query]
  | .other id => some (if id.isSome then [sendNullResult id] else [])

/-! ## What can be answered -/

/-- What a symbol writes is UTF-8. -/
def Symbol.Plain (s : Symbol) : Prop := Utf8.Valid s.name ∧ Utf8.Valid s.detail

/-- The file an import names fits the buffers, and its path can be written if it is there. -/
def ImportFits (ws : Workspace) (doc : Doc) (line character : Int) : Prop :=
  let token := copyTokenAt doc.text line character
  ∀ found ∈ importAt ws doc line character token, found.1.named token = true ∧
    (pathJoin found.2 (found.1.file token)).length < 4096 ∧
    (ws.fileExists (pathJoin found.2 (found.1.file token)) = true → Clean (pathJoin found.2 (found.1.file token)))

/-- What the graph has for the answer to a request can be written: strings are UTF-8, paths that
stand in a uri have no control characters, and the path of an import fits. -/
def Writable (ws : Workspace) (docs : List Doc) : Request → Prop
  | .publish uri _ => ∀ doc ∈ docOf docs uri, ∀ root ∈ findRootFile ws doc.path,
      ∀ d ∈ (ws.loadLintGraph root).2.diagnostics, d.file = some doc.path → Utf8.Valid d.code ∧ Utf8.Valid d.message
  | .hover _ uri line character => ∀ doc ∈ docOf docs uri, ∀ g ∈ graphFor ws doc.path LintGraph.hasTargets,
      ∀ text ∈ g.describe (copyTokenAt doc.text line character), Utf8.Valid text
  | .definition _ uri line character => ∀ doc ∈ docOf docs uri, ImportFits ws doc line character ∧
      ∀ g ∈ graphFor ws doc.path LintGraph.hasPlaces,
        ∀ place ∈ g.declaration (copyTokenAt doc.text line character), Clean place.1
  | .references _ uri line character => ∀ doc ∈ docOf docs uri, ∀ g ∈ graphFor ws doc.path LintGraph.hasTargets,
      ∀ place ∈ g.references (copyTokenAt doc.text line character), Clean place.1
  | .documentSymbol _ uri => ∀ doc ∈ docOf docs uri, ∀ g ∈ graphFor ws doc.path LintGraph.hasSymbols,
      ∀ s ∈ g.symbols, s.file = doc.path → s.Plain
  | .workspaceSymbol _ query => ∀ doc ∈ docs.head?, ∀ g ∈ graphFor ws doc.path LintGraph.hasSymbols,
      ∀ s ∈ g.symbols, matchesQuery query s.name = true → s.Plain ∧ Clean s.file
  | _ => True

theorem bounded_eq_some {path : Bytes} (h : path.length < 4096) : bounded path = some path := if_pos h

theorem length_le_pathJoin (dir path : Bytes) : path.length ≤ (pathJoin dir path).length := by
  unfold pathJoin
  split
  · exact le_rfl
  · rw [List.length_append]
    omega

theorem length_folder_le (call : ImportCall) (token : Bytes) :
    (call.folder token).length ≤ (call.file token).length := by
  cases call with
  | importFile => exact le_rfl
  | importModule => simp [ImportCall.file]
  | useLanguage => simp [ImportCall.file]

/-- An import that fits is found or is not there. -/
theorem resolveImportDefinition_of_fits {ws : Workspace} {doc : Doc} {line character : Int}
    (h : ImportFits ws doc line character) :
    ∃ found, resolveImportDefinition ws doc line character (copyTokenAt doc.text line character) = some found ∧
      ∀ file ∈ found, Clean file := by
  unfold resolveImportDefinition
  split
  · exact ⟨none, rfl, nofun⟩
  · rename_i call dir hat
    obtain ⟨hnamed, hlength, hclean⟩ := h (call, dir) hat
    dsimp only at hnamed hlength hclean
    have hfile := Nat.lt_of_le_of_lt (length_le_pathJoin dir _) hlength
    have hfolder := Nat.lt_of_le_of_lt (length_folder_le call _) hfile
    rw [if_pos hnamed, bounded_eq_some hfolder, Option.bind_some, bounded_eq_some hfile, Option.bind_some,
      bounded_eq_some hlength, Option.map_some]
    refine ⟨_, rfl, ?_⟩
    intro file hmem
    split at hmem
    · rename_i hexists
      cases hmem
      exact hclean hexists
    · cases hmem

theorem definitionPlace_of_writable {ws : Workspace} {docs : List Doc} {id uri : Option Bytes} {line character : Int}
    (h : Writable ws docs (.definition id uri line character)) :
    ∃ place, definitionPlace ws docs uri line character = some place ∧ ∀ p ∈ place, Clean p.1 := by
  unfold definitionPlace
  cases hdoc : docOf docs uri with
  | none => exact ⟨none, rfl, nofun⟩
  | some doc =>
    obtain ⟨hfits, hplaces⟩ := h doc hdoc
    obtain ⟨found, hfound, hclean⟩ := resolveImportDefinition_of_fits hfits
    dsimp only
    rw [hfound, Option.map_some]
    refine ⟨_, rfl, ?_⟩
    intro place hplace
    cases found with
    | some file =>
      cases hplace
      exact hclean file rfl
    | none =>
      dsimp only at hplace
      split at hplace
      · cases hplace
      · obtain ⟨g, hg, hplace⟩ := Option.bind_eq_some_iff.mp hplace
        exact hplaces g hg place hplace

theorem lookupStaticHover_valid {token text : Bytes} (h : lookupStaticHover token = some text) : Utf8.Valid text := by
  obtain ⟨e, -, rfl⟩ := Option.map_eq_some_iff.mp h
  exact e.validText

theorem hoverText_of_writable {ws : Workspace} {docs : List Doc} {id uri : Option Bytes} {line character : Int}
    (h : Writable ws docs (.hover id uri line character)) :
    ∀ text ∈ hoverText ws docs uri line character, Utf8.Valid text := by
  intro text htext
  unfold hoverText at htext
  cases hdoc : docOf docs uri with
  | none =>
    rw [hdoc] at htext
    cases htext
  | some doc =>
    rw [hdoc] at htext
    rcases Option.or_eq_some_iff.mp htext with hstatic | ⟨-, hlabel⟩
    · exact lookupStaticHover_valid hstatic
    · unfold labelHover at hlabel
      split at hlabel
      · obtain ⟨g, hg, htext⟩ := Option.bind_eq_some_iff.mp hlabel
        exact h doc hdoc g hg text htext
      · cases hlabel

theorem referencePlaces_of_writable {ws : Workspace} {docs : List Doc} {id uri : Option Bytes} {line character : Int}
    (h : Writable ws docs (.references id uri line character)) :
    ∀ place ∈ referencePlaces ws docs uri line character, Clean place.1 := by
  intro place hplace
  unfold referencePlaces at hplace
  cases hdoc : docOf docs uri with
  | none =>
    rw [hdoc] at hplace
    cases hplace
  | some doc =>
    rw [hdoc] at hplace
    dsimp only at hplace
    split at hplace
    · cases hplace
    · split at hplace
      · cases hplace
      · rename_i g hg
        exact h doc hdoc g hg place hplace

theorem documentSymbols_of_writable {ws : Workspace} {docs : List Doc} {id uri : Option Bytes}
    (h : Writable ws docs (.documentSymbol id uri)) : ∀ s ∈ documentSymbols ws docs uri, s.Plain := by
  intro s hs
  unfold documentSymbols at hs
  cases hdoc : docOf docs uri with
  | none =>
    rw [hdoc] at hs
    cases hs
  | some doc =>
    rw [hdoc] at hs
    dsimp only at hs
    split at hs
    · cases hs
    · rename_i g hg
      obtain ⟨hmem, hfile⟩ := List.mem_filter.mp hs
      exact h doc hdoc g hg s hmem (of_decide_eq_true hfile)

theorem workspaceSymbols_of_writable {ws : Workspace} {docs : List Doc} {id query : Option Bytes}
    (h : Writable ws docs (.workspaceSymbol id query)) :
    ∀ s ∈ workspaceSymbols ws docs query, s.Plain ∧ Clean s.file := by
  intro s hs
  unfold workspaceSymbols at hs
  cases hdoc : docs.head? with
  | none =>
    rw [hdoc] at hs
    cases hs
  | some doc =>
    rw [hdoc] at hs
    dsimp only at hs
    split at hs
    · cases hs
    · rename_i g hg
      obtain ⟨hmem, hquery⟩ := List.mem_filter.mp hs
      exact h doc hdoc g hg s hmem hquery

theorem exists_reads_publishDiagnostics {ws : Workspace} {doc : Doc} (huri : Utf8.Valid doc.uri)
    (h : ∀ root ∈ findRootFile ws doc.path, ∀ d ∈ (ws.loadLintGraph root).2.diagnostics, d.file = some doc.path →
      Utf8.Valid d.code ∧ Utf8.Valid d.message) :
    ∃ members, Reads (publishDiagnostics ws doc) (.obj members) ∧ members.lookup (ascii "id") = none := by
  apply exists_reads_diagnostics huri
  intro item hitem
  split at hitem
  · rename_i root hroot
    obtain ⟨d, hd, rfl⟩ := List.mem_map.mp hitem
    obtain ⟨hmem, hfile⟩ := List.mem_filter.mp hd
    obtain ⟨hcode, hmessage⟩ := h root hroot d hmem (of_decide_eq_true hfile)
    exact exists_reads_diagnostic hcode hmessage
  · rw [List.mem_singleton.mp hitem]
    exact exists_reads_noRootDiagnostic

/-! ## Responses -/

section Responses

variable {id : Option Bytes} {w : Value}

/-- A result whose tail opens an array. -/
theorem exists_reads_list (hid : Reads (id.getD (ascii "null")) w) (hfits : Fits id (ascii ",\"result\":["))
    (texts : List Bytes) (h : ∀ t ∈ texts, ∃ v, Reads t v) :
    ∃ v, Reads (responseStart id (ascii ",\"result\":[") ++ (commaSeparated texts ++ ascii "]\x7d")) v ∧
      IsResponse v w := by
  obtain ⟨v, harray⟩ := exists_reads_array h
  refine exists_reads_response hid _ hfits harray ?_
  simp only [List.append_assoc, List.cons_append]
  rfl

theorem exists_reads_initializeResult : ∃ v, Reads initializeResult v :=
  exists_reads_of_read (by decide +kernel) (by decide +kernel)

theorem exists_reads_handleInitialize (hid : Reads (id.getD (ascii "null")) w)
    (hfits : Fits id (tailOf .initialize_)) : ∃ v, Reads (handleInitialize id) v ∧ IsResponse v w := by
  obtain ⟨result, hresult⟩ := exists_reads_initializeResult
  obtain ⟨v, hv, hresponse⟩ := exists_reads_response hid [] hfits hresult (List.append_nil _)
  rw [List.append_nil] at hv
  exact ⟨v, hv, hresponse⟩

theorem exists_reads_sendNullResult (hid : Reads (id.getD (ascii "null")) w) (hfits : Fits id (tailOf .other)) :
    ∃ v, Reads (sendNullResult id) v ∧ IsResponse v w := by
  obtain ⟨v, hv, hresponse⟩ := exists_reads_response hid [] hfits reads_null (by decide)
  rw [List.append_nil] at hv
  exact ⟨v, hv, hresponse⟩

theorem exists_reads_handleHover {ws : Workspace} {docs : List Doc} {uri : Option Bytes} {line character : Int}
    (hid : Reads (id.getD (ascii "null")) w) (hfits : Fits id (tailOf .hover))
    (h : Writable ws docs (.hover id uri line character)) :
    ∃ v, Reads (handleHover ws docs id uri line character) v ∧ IsResponse v w := by
  have htext := hoverText_of_writable h
  unfold handleHover
  cases hhover : hoverText ws docs uri line character with
  | none => exact exists_reads_response hid _ hfits reads_null rfl
  | some text =>
    obtain ⟨v, hv⟩ := exists_reads_hoverContents (htext text hhover)
    exact exists_reads_response hid _ hfits hv rfl

theorem exists_reads_handleCompletion (hid : Reads (id.getD (ascii "null")) w) (hfits : Fits id (tailOf .completion)) :
    ∃ v, Reads (handleCompletion id) v ∧ IsResponse v w := by
  have hitems : ∀ item ∈ (lspSymbols ++ lspFields).map fun e => appendCompletionItem e.name e.text,
      ∃ v, Reads item v := by
    intro item hitem
    obtain ⟨e, -, rfl⟩ := List.mem_map.mp hitem
    exact exists_reads_completionItem e.validName e.validText
  obtain ⟨v, harray⟩ := exists_reads_array hitems
  have hfalse : Reads (ascii "false") (.bool false) := reads_of_readValue (by decide) rfl
  have hresult := reads_object (readsMembers_cons (ascii "isIncomplete") (by decide) hfalse
    (readsMembers_last (ascii "items") (by decide) harray))
  refine exists_reads_response hid _ hfits hresult ?_
  simp only [List.append_assoc, List.cons_append]
  rfl

theorem exists_reads_handleDefinition {ws : Workspace} {docs : List Doc} {uri : Option Bytes} {line character : Int}
    (hid : Reads (id.getD (ascii "null")) w) (hfits : Fits id (tailOf .definition))
    (h : Writable ws docs (.definition id uri line character)) :
    ∃ payload v, handleDefinition ws docs id uri line character = some payload ∧ Reads payload v ∧ IsResponse v w := by
  obtain ⟨place, hplace, hclean⟩ := definitionPlace_of_writable h
  rw [handleDefinition, hplace, Option.map_some]
  cases place with
  | none =>
    obtain ⟨v, hv, hresponse⟩ := exists_reads_response hid (ascii "null" ++ ascii "\x7d") hfits reads_null rfl
    exact ⟨_, v, rfl, hv, hresponse⟩
  | some place =>
    obtain ⟨l, hl⟩ := exists_reads_location (hclean place rfl) place.2
    obtain ⟨v, hv, hresponse⟩ := exists_reads_response hid
      (appendLocation place.1 place.2 ++ ascii "\x7d") hfits hl rfl
    exact ⟨_, v, rfl, hv, hresponse⟩

/-- A request whose kind has an id is answered with one response, where the id fits and what it
is answered with can be written. -/
theorem answer_request {ws : Workspace} {docs : List Doc} {r : Reader} {kind : Kind} (hkind : .id ∈ fieldsOf kind)
    (hasked : kind = .other → r.id.isSome) (hid : Reads (r.id.getD (ascii "null")) w)
    (hfits : Fits r.id (tailOf kind)) (h : Writable ws docs (request r kind)) :
    ∃ payload v, answer ws docs (request r kind) = some [payload] ∧ Reads payload v ∧ IsResponse v w := by
  cases kind with
  | initialize_ =>
    obtain ⟨v, hv, hresponse⟩ := exists_reads_handleInitialize hid hfits
    exact ⟨_, v, rfl, hv, hresponse⟩
  | shutdown =>
    obtain ⟨v, hv, hresponse⟩ := exists_reads_sendNullResult hid hfits
    exact ⟨_, v, rfl, hv, hresponse⟩
  | exit | didOpen | didChange | didSave => exact absurd hkind (by decide)
  | hover =>
    obtain ⟨v, hv, hresponse⟩ := exists_reads_handleHover hid hfits h
    exact ⟨_, v, rfl, hv, hresponse⟩
  | completion =>
    obtain ⟨v, hv, hresponse⟩ := exists_reads_handleCompletion hid hfits
    exact ⟨_, v, rfl, hv, hresponse⟩
  | definition =>
    obtain ⟨payload, v, hpayload, hv, hresponse⟩ := exists_reads_handleDefinition hid hfits h
    exact ⟨payload, v, by rw [request, answer, hpayload]; rfl, hv, hresponse⟩
  | references =>
    have hitems : ∀ t ∈ (referencePlaces ws docs (r.string .uri) (r.int .line) (r.int .character)).map
        fun place => appendLocation place.1 place.2, ∃ v, Reads t v := by
      intro t ht
      obtain ⟨place, hplace, rfl⟩ := List.mem_map.mp ht
      exact exists_reads_location (referencePlaces_of_writable h place hplace) place.2
    obtain ⟨v, hv, hresponse⟩ := exists_reads_list hid hfits _ hitems
    exact ⟨_, v, rfl, hv, hresponse⟩
  | documentSymbol =>
    have hitems : ∀ t ∈ (documentSymbols ws docs (r.string .uri)).map
        fun s => appendDocumentSymbol s.name s.kind s.detail s.line, ∃ v, Reads t v := by
      intro t ht
      obtain ⟨s, hs, rfl⟩ := List.mem_map.mp ht
      obtain ⟨hname, hdetail⟩ := documentSymbols_of_writable h s hs
      exact exists_reads_documentSymbol hname hdetail s.kind s.line
    obtain ⟨v, hv, hresponse⟩ := exists_reads_list hid hfits _ hitems
    exact ⟨_, v, rfl, hv, hresponse⟩
  | workspaceSymbol =>
    have hitems : ∀ t ∈ (workspaceSymbols ws docs (r.string .query)).map
        fun s => appendWorkspaceSymbol s.name s.kind s.detail s.file s.line, ∃ v, Reads t v := by
      intro t ht
      obtain ⟨s, hs, rfl⟩ := List.mem_map.mp ht
      obtain ⟨⟨hname, hdetail⟩, hfile⟩ := workspaceSymbols_of_writable h s hs
      exact exists_reads_workspaceSymbol hname hdetail hfile s.kind s.line
    obtain ⟨v, hv, hresponse⟩ := exists_reads_list hid hfits _ hitems
    exact ⟨_, v, rfl, hv, hresponse⟩
  | other =>
    obtain ⟨v, hv, hresponse⟩ := exists_reads_sendNullResult hid hfits
    refine ⟨_, v, ?_, hv, hresponse⟩
    rw [request, answer, if_pos (hasked rfl)]

end Responses

end QStar.LanguageServer.Handlers
