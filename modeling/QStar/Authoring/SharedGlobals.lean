import QStar.Lib.MetaTables
import QStar.Lib.Runs

/-!
# What authoring files share

The tables of the Lua runtime before the first file is evaluated, and files at work on what
they can get hold of. Every file has an environment of its own, and behind it the one table of
globals; the environment refuses assignments, but the table behind it is a global itself, and
it is as plain as the `qstar` and the `string` tables are.
-/
namespace QStar.Authoring.SharedGlobals

open QStar.Lib.Bindings (lookup_eq_none)
open QStar.Lib.CStrings
open QStar.Lib.MetaTables
open QStar.Lib.Runs

inductive Function where
  /-- a function of the Lua library or of `qstar`, by its name -/
  | library (name : Bytes)
  /-- `forbidden` -/
  | forbidden (name : Bytes)
  /-- `global_assignment_forbidden` -/
  | globalAssignmentForbidden
  /-- `readonly_table_assignment_forbidden`, `readonly_variant_assignment_forbidden` -/
  | readonlyAssignmentForbidden (table : Bytes)
  /-- `readonly_module_pairs` -/
  | modulePairs (data : Nat)
  /-- `readonly_variant_pairs` -/
  | variantPairs (data : Nat)
  /-- `readonly_module_len`, `readonly_variant_len` -/
  | readonlyLen (data : Nat)
  /-- a function that a file defines -/
  | closure (id : Nat)
  deriving DecidableEq

/-- What the runtime knows of the host and of itself. -/
structure Host where
  version : Bytes
  versionMajor : Int64
  versionMinor : Int64
  versionPatch : Int64
  os : Bytes
  arch : Bytes
  /-- `ctx->root_dir` -/
  root : Bytes

abbrev Entry := Value Function × Value Function

def text (s : String) : Value Function := .string (ascii s)

/-- The functions of a library table. -/
def functions (table : String) (names : List String) : List Entry :=
  names.map fun name => (text name, .function (.library (ascii (table ++ name))))

/-- `set_forbidden_function`, `set_forbidden_table_function` -/
def forbiddenFunctions (table : String) (names : List String) : List Entry :=
  names.map fun name => (text name, .function (.forbidden (ascii (table ++ name))))

def globalsId : Nat := 0
def tableId : Nat := 1
def stringId : Nat := 2
def stringMetatableId : Nat := 3
def ioId : Nat := 4
def osId : Nat := 5
def debugId : Nat := 6
def packageId : Nat := 7
def qstarId : Nat := 8
def hostId : Nat := 9
def projectId : Nat := 12
def stepId : Nat := 14
def paramId : Nat := 15

/-- `register_global_constants` -/
def globalConstants (host : Host) : List Entry := [
  (text "QSTAR_VERSION", .string host.version),
  (text "QSTAR_VERSION_MAJOR", .integer host.versionMajor),
  (text "QSTAR_VERSION_MINOR", .integer host.versionMinor),
  (text "QSTAR_VERSION_PATCH", .integer host.versionPatch),
  (text "QSTAR_HOST_OS", .string host.os),
  (text "QSTAR_HOST_ARCH", .string host.arch),
  (text "QSTAR_PACKAGE_ROOT", .string host.root),
  (text "QSTAR_PROJECT_ROOT", .string host.root)]

/-- The globals after `open_sandbox`, `register_global_constants` and `register_qstar`. -/
def globals (host : Host) : List Entry :=
  functions "" ["assert", "error", "getmetatable", "ipairs", "next", "pairs", "pcall", "print", "warn",
    "rawequal", "rawlen", "select", "tonumber", "tostring", "type", "xpcall"] ++
  [(text "_G", .table globalsId), (text "_VERSION", text "Lua 5.4"),
    (text "table", .table tableId), (text "string", .table stringId)] ++
  forbiddenFunctions "" ["dofile", "loadfile", "load", "require", "collectgarbage", "rawget", "rawset",
    "setmetatable"] ++
  [(text "io", .table ioId), (text "os", .table osId), (text "debug", .table debugId),
    (text "package", .table packageId)] ++
  globalConstants host ++
  [(text "qstar", .table qstarId)]

/-- `set_readonly_host_table`: the read-only table, the table behind it and its metatable, the
first of them with the given number. -/
def hostTables (host : Host) (id : Nat) : List (Table Function) := [
  ⟨[], some (id + 2)⟩,
  ⟨[(text "os", .string host.os), (text "arch", .string host.arch)], none⟩,
  ⟨[(text "__index", .table (id + 1)),
    (text "__newindex", .function (.readonlyAssignmentForbidden (ascii "qstar.host"))),
    (text "__metatable", .boolean false)], none⟩]

/-- The table of `register_qstar`. -/
def qstarMembers (host : Host) : List Entry :=
  [(text "version", .string host.version), (text "host", .table hostId), (text "project", .table projectId)] ++
  functions "qstar." ["option", "variant", "toolset", "config", "target", "executable", "run_target",
    "group", "staticlib", "sharedlib", "objectlib", "interface", "imported", "tool", "test",
    "custom_target", "transform", "configure_file", "stage", "target_family", "test_suite",
    "test_resource", "output", "input", "source", "target_file", "tool_file", "stage_dir", "stage_file",
    "cli", "status", "command", "command_spec", "command_set"] ++
  [(text "step", .table stepId)] ++
  functions "qstar." ["arg_if", "args_if"] ++
  [(text "param", .table paramId)] ++
  functions "qstar." ["files", "join", "copy", "append", "merge", "extend", "import_file",
    "import_module", "use_language", "language_provider", "subdir"]

/-- The tables before the first file is evaluated. -/
def initialTables (host : Host) : List (Table Function) := [
  ⟨globals host, none⟩,
  ⟨functions "table." ["concat", "insert", "pack", "unpack", "remove", "move", "sort"], none⟩,
  ⟨functions "string." ["byte", "char", "dump", "find", "format", "gmatch", "gsub", "len", "lower",
    "match", "rep", "reverse", "sub", "upper", "pack", "packsize", "unpack"], none⟩,
  ⟨functions "" ["__add", "__sub", "__mul", "__mod", "__pow", "__div", "__idiv", "__unm"] ++
    [(text "__index", .table stringId)], none⟩,
  ⟨forbiddenFunctions "io." ["open", "popen"], none⟩,
  ⟨forbiddenFunctions "os." ["execute", "time", "clock", "getenv"], none⟩,
  ⟨forbiddenFunctions "debug." ["getinfo"], none⟩,
  ⟨forbiddenFunctions "package." ["loadlib"], none⟩,
  ⟨qstarMembers host, none⟩] ++
  hostTables host hostId ++ [
  ⟨[(text "root", .string host.root)], some (projectId + 1)⟩,
  ⟨[(text "__call", .function (.library (ascii "qstar.project")))], none⟩,
  ⟨functions "qstar.step." ["build", "test", "stage", "export_stage", "check", "lint", "call", "run"], none⟩,
  ⟨functions "qstar.param." ["string", "path", "bool", "int", "enum", "list"], some (paramId + 1)⟩,
  ⟨[(text "__call", .function (.library (ascii "qstar.param")))], none⟩]

def initialHeap (host : Host) : Heap Function := ⟨initialTables host, some stringMetatableId⟩

/-- `push_authoring_env`: the tables, and the environment among them. -/
def pushAuthoringEnv (h : Heap Function) : Heap Function × Nat :=
  (h.alloc [
    ⟨[], some (h.fresh + 1)⟩,
    ⟨[(text "__index", .table globalsId),
      (text "__newindex", .function .globalAssignmentForbidden)], none⟩], h.fresh)

/-- `copy_global_to_table` -/
def copyGlobalToTable (h : Heap Function) (name : String) : Option Entry :=
  let v := h.rawget globalsId (text name)
  if v = .nil then none else some (text name, v)

/-- The globals that `push_provider_env` copies. -/
def copiedGlobals (h : Heap Function) : List Entry :=
  ["assert", "error", "ipairs", "next", "pairs", "pcall", "select", "tonumber", "tostring", "type", "xpcall",
    "table", "string"].filterMap (copyGlobalToTable h)

/-- `push_provider_env` -/
def pushProviderEnv (host : Host) (h : Heap Function) : Heap Function × Nat :=
  (h.alloc ([
    ⟨copiedGlobals h ++ [(text "_G", .table h.fresh), (text "qstar", .table (h.fresh + 2))], some (h.fresh + 1)⟩,
    ⟨[(text "__newindex", .function .globalAssignmentForbidden), (text "__metatable", .boolean false)],
      none⟩,
    ⟨functions "qstar." ["provider_tools", "language_options", "source", "argv", "join", "copy", "append",
      "merge", "extend"] ++ [(text "host", .table (h.fresh + 3))], none⟩] ++
    hostTables host (h.fresh + 3)), h.fresh)

/-- The tables and the values that files have got hold of. -/
structure State where
  heap : Heap Function
  held : List (Value Function)
  deriving DecidableEq

def initial (host : Host) : State := ⟨initialHeap host, []⟩

/-- A value that a file can name: it has got hold of it, or it writes it down. -/
def State.available (s : State) (v : Value Function) : Bool :=
  match v with
  | .table _ => decide (v ∈ s.held)
  | .function (.closure _) => true
  | .function _ => decide (v ∈ s.held)
  | _ => true

/-- What a file does, itself or through a library function. Functions that return tables make new
ones and fill them by assignments; `table.insert`, `table.remove`, `table.move`, `table.sort`,
`qstar.extend` and `qstar.language_provider` assign to tables they are given, and `argv:add`,
`argv:add_all` and `qstar.extend` store integer keys of them. -/
inductive Op where
  /-- a file is evaluated: `eval_fragment`, `eval_module` -/
  | evaluate
  /-- `eval_provider_implementation` -/
  | evaluateProvider
  | newtable
  | index (t key : Value Function)
  | assign (t key value : Value Function)
  /-- `lua_rawseti` -/
  | rawseti (t : Value Function) (i : Int64) (value : Value Function)
  | getmetatable (v : Value Function)
  /-- `next` at the entry it comes to -/
  | next (t : Value Function) (i : Nat)
  | pairs (t : Value Function)
  /-- `push_readonly_module_export` -/
  | moduleExport (t : Value Function)
  /-- `push_readonly_proxy` -/
  | readonlyProxy (name : Bytes) (t : Value Function)
  deriving DecidableEq

/-- The metatable of a read-only table. -/
def readonlyMetatable (label : Bytes) (data : Nat) (pairs : Function) : List Entry := [
  (text "__index", .table data),
  (text "__qstar_readonly_data", .table data),
  (text "__newindex", .function (.readonlyAssignmentForbidden label)),
  (text "__pairs", .function pairs),
  (text "__len", .function (.readonlyLen data)),
  (text "__metatable", .boolean false)]

def State.hold (s : State) (values : List (Value Function)) : State := { s with held := values ++ s.held }

/-- New tables, the first of which a file gets hold of. -/
def State.make (s : State) (ts : List (Table Function)) : State :=
  ⟨s.heap.alloc ts, .table s.heap.fresh :: s.held⟩

/-- The entry that an operation stores, and the table it stores it in. -/
def stored (s : State) : Op → Option (Nat × Value Function × Value Function)
  | .assign t key value =>
    if s.available t ∧ s.available key ∧ s.available value then
      match s.heap.target maxTagLoop t key with
      | .store id => if storable key then some (id, key, value) else none
      | _ => none
    else none
  | .rawseti t i value =>
    match t with
    | .table id => if s.available t ∧ s.available value then some (id, .integer i, value) else none
    | _ => none
  | _ => none

/-- A read-only table in front of one that a file has got hold of. -/
def readonly (s : State) (t : Value Function) (label : Bytes) (pairs : Nat → Function) : State :=
  match t with
  | .table id =>
    if s.available t then
      s.make [⟨[], some (s.heap.fresh + 1)⟩, ⟨readonlyMetatable label id (pairs id), none⟩]
    else s
  | _ => s

/-- One operation of a file; with a value it has not got hold of it can do none. -/
def step (host : Host) (s : State) : Op → State
  | .evaluate => ⟨(pushAuthoringEnv s.heap).1, .table (pushAuthoringEnv s.heap).2 :: s.held⟩
  | .evaluateProvider => ⟨(pushProviderEnv host s.heap).1, .table (pushProviderEnv host s.heap).2 :: s.held⟩
  | .newtable => s.make [⟨[], none⟩]
  | .index t key =>
    if s.available t ∧ s.available key then
      match s.heap.index maxTagLoop t key with
      | .value v => s.hold [v]
      | _ => s
    else s
  | .assign t key value =>
    match stored s (.assign t key value) with
    | some (id, key, value) => { s with heap := s.heap.rawset id key value }
    | none => s
  | .rawseti t i value =>
    match stored s (.rawseti t i value) with
    | some (id, key, value) => { s with heap := s.heap.rawset id key value }
    | none => s
  | .getmetatable v => if s.available v then s.hold [s.heap.getmetatable v] else s
  | .next t i =>
    match t with
    | .table id =>
      if s.available t then
        match (s.heap.entries id)[i]? with
        | some (key, value) => s.hold [key, value]
        | none => s
      else s
    | _ => s
  | .pairs t =>
    if s.available t then
      match s.heap.metafield t "__pairs" with
      | .function (.modulePairs data) => s.hold [.table data]
      | .function (.variantPairs data) => s.hold ((s.heap.entries data).flatMap fun e => [e.1, e.2])
      | _ => s
    else s
  | .moduleExport t => readonly s t (ascii "module exports") .modulePairs
  | .readonlyProxy name t => readonly s t name .variantPairs

/-- What a global name is in an authoring file that is evaluated now. -/
def resolve (h : Heap Function) (name : Bytes) : Access Function :=
  (pushAuthoringEnv h).1.index maxTagLoop (.table (pushAuthoringEnv h).2) (.string name)

/-- What a global name is in the implementation of a provider that is evaluated now. -/
def resolveInProvider (host : Host) (h : Heap Function) (name : Bytes) : Access Function :=
  (pushProviderEnv host h).1.index maxTagLoop (.table (pushProviderEnv host h).2) (.string name)

/-- Files evaluated now find what they would have found before: every global name, where the
environment of a provider makes `_G` and `qstar` anew, and every member of the two tables. -/
structure Isolated (host : Host) (start h : Heap Function) : Prop where
  globals : ∀ name, resolve h name = resolve start name
  provider : ∀ name, name ≠ ascii "_G" → name ≠ ascii "qstar" →
    resolveInProvider host h name = resolveInProvider host start name
  qstar : ∀ key, h.rawget qstarId key = start.rawget qstarId key
  string : ∀ key, h.rawget stringId key = start.rawget stringId key

/-- The operation stores no entry under a string in the globals and none in the `qstar` and the
`string` table, or it stores what is there. -/
def Harmless (s : State) (op : Op) : Prop :=
  ∀ id key value, stored s op = some (id, key, value) →
    ((id = globalsId ∧ ∃ name, key = .string name) ∨ id = qstarId ∨ id = stringId) →
      s.heap.rawget id key = value

/-- The three tables are there, and the globals have no metatable. -/
structure Founded (h : Heap Function) : Prop where
  existing : qstarId < h.tables.length
  plain : h.metatable (.table globalsId) = none

section Lookup

variable {h : Heap Function} (hf : Founded h)

include hf

theorem Founded.globals_lt : globalsId < h.tables.length :=
  Nat.lt_trans (by decide) hf.existing

theorem Founded.string_lt : stringId < h.tables.length :=
  Nat.lt_trans (by decide) hf.existing

/-- A new file reads the globals through its empty environment. -/
theorem resolve_eq (name : Bytes) : resolve h name = .value (h.rawget globalsId (.string name)) := by
  unfold resolve pushAuthoringEnv
  generalize hts : ([⟨[], some (h.fresh + 1)⟩,
    ⟨[(text "__index", .table globalsId), (text "__newindex", .function .globalAssignmentForbidden)],
      none⟩] : List (Table Function)) = ts
  have hempty : (h.alloc ts).rawget h.fresh (.string name) = .nil := by
    have hnew := Heap.rawget_new h ts 0 (.string name)
    rw [← hts] at hnew ⊢
    exact hnew
  have hmeta : (h.alloc ts).metatable (.table h.fresh) = some (h.fresh + 1) := by
    have hnew := Heap.metatable_new h ts 0
    rw [← hts] at hnew ⊢
    exact hnew
  have hindex : (h.alloc ts).metafield (.table h.fresh) "__index" = .table globalsId := by
    rw [Heap.metafield, hmeta, Option.map_some, Heap.rawget_new, ← hts]
    rfl
  have hplain : (h.alloc ts).metafield (.table globalsId) "__index" = .nil := by
    rw [Heap.metafield, Heap.metatable_alloc h ts hf.globals_lt, hf.plain]
    rfl
  calc (h.alloc ts).index maxTagLoop (.table h.fresh) (.string name)
      = (h.alloc ts).index 1999 (.table globalsId) (.string name) :=
        Heap.index_through hempty hindex 1999
    _ = .value ((h.alloc ts).rawget globalsId (.string name)) := Heap.index_plain hplain 1998 _
    _ = .value (h.rawget globalsId (.string name)) := by rw [Heap.rawget_alloc h ts hf.globals_lt]

end Lookup

/-- A provider reads what was copied into its environment. -/
theorem resolveInProvider_eq {name : Bytes} (hself : name ≠ ascii "_G") (hqstar : name ≠ ascii "qstar")
    (host : Host) (h : Heap Function) : resolveInProvider host h name =
      .value (((copiedGlobals h).lookup (.string name)).getD .nil) := by
  unfold resolveInProvider pushProviderEnv
  generalize hts : (([
    ⟨copiedGlobals h ++ [(text "_G", .table h.fresh), (text "qstar", .table (h.fresh + 2))],
      some (h.fresh + 1)⟩,
    ⟨[(text "__newindex", .function .globalAssignmentForbidden), (text "__metatable", .boolean false)],
      none⟩,
    ⟨functions "qstar." ["provider_tools", "language_options", "source", "argv", "join", "copy", "append",
      "merge", "extend"] ++ [(text "host", .table (h.fresh + 3))], none⟩] ++
    hostTables host (h.fresh + 3)) : List (Table Function)) = ts
  have hmeta : (h.alloc ts).metatable (.table h.fresh) = some (h.fresh + 1) := by
    have hnew := Heap.metatable_new h ts 0
    rw [← hts] at hnew ⊢
    exact hnew
  have hplain : (h.alloc ts).metafield (.table h.fresh) "__index" = .nil := by
    rw [Heap.metafield, hmeta, Option.map_some, Heap.rawget_new, ← hts]
    rfl
  have hread : (h.alloc ts).rawget h.fresh (.string name) =
      ((copiedGlobals h).lookup (.string name)).getD .nil := by
    have hnew := Heap.rawget_new h ts 0 (.string name)
    rw [Nat.add_zero] at hnew
    rw [hnew, ← hts]
    have hother : ([(text "_G", .table h.fresh), (text "qstar", .table (h.fresh + 2))] : List Entry).lookup
        (.string name) = none := by
      rw [lookup_eq_none]
      intro e he heq
      rcases List.mem_cons.mp he with rfl | he
      · exact hself (Value.string.inj heq).symm
      · rw [List.mem_singleton.mp he] at heq
        exact hqstar (Value.string.inj heq).symm
    change ((copiedGlobals h ++ _).lookup _).getD _ = _
    rw [List.lookup_append, hother, Option.or_none]
  rw [← hread]
  exact Heap.index_plain hplain 1999 _

/-- What new files find is what the three tables hold. -/
theorem isolated_iff {host : Host} {start h : Heap Function} (hstart : Founded start) (hf : Founded h) :
    Isolated host start h ↔
      (∀ name, h.rawget globalsId (.string name) = start.rawget globalsId (.string name)) ∧
        (∀ key, h.rawget qstarId key = start.rawget qstarId key) ∧
        ∀ key, h.rawget stringId key = start.rawget stringId key := by
  constructor
  · intro hiso
    refine ⟨fun name => ?_, hiso.qstar, hiso.string⟩
    have hname := hiso.globals name
    rw [resolve_eq hf, resolve_eq hstart] at hname
    exact Access.value.inj hname
  · rintro ⟨hglobals, hqstar, hstring⟩
    refine ⟨fun name => ?_, fun name hself hname => ?_, hqstar, hstring⟩
    · rw [resolve_eq hf, resolve_eq hstart, hglobals]
    · have hcopied : copiedGlobals h = copiedGlobals start := by
        unfold copiedGlobals
        refine congrArg (List.filterMap · _) (funext fun global => ?_)
        rw [copyGlobalToTable, copyGlobalToTable, text, hglobals]
      rw [resolveInProvider_eq hself hname, resolveInProvider_eq hself hname, hcopied]

/-! ## One step -/

/-- An operation stores one entry, or it makes new tables at most. -/
theorem step_heap (host : Host) (s : State) (op : Op) :
    (stored s op = none ∧ ∃ ts, (step host s op).heap = s.heap.alloc ts) ∨
      ∃ id key value, stored s op = some (id, key, value) ∧
        (step host s op).heap = s.heap.rawset id key value := by
  have hsame : s.heap = s.heap.alloc [] := by rw [Heap.alloc, List.append_nil]
  have hreadonly (t : Value Function) (label : Bytes) (pairs : Nat → Function) :
      ∃ ts, (readonly s t label pairs).heap = s.heap.alloc ts := by
    unfold readonly
    split
    · split
      · exact ⟨_, rfl⟩
      · exact ⟨[], hsame⟩
    · exact ⟨[], hsame⟩
  cases op with
  | evaluate => exact .inl ⟨rfl, _, rfl⟩
  | evaluateProvider => exact .inl ⟨rfl, _, rfl⟩
  | newtable => exact .inl ⟨rfl, _, rfl⟩
  | index t key =>
    refine .inl ⟨rfl, [], hsame ▸ ?_⟩
    simp only [step]
    split
    · split <;> rfl
    · rfl
  | assign t key value =>
    cases hstored : stored s (.assign t key value) with
    | none => exact .inl ⟨rfl, [], by rw [step, hstored]; exact hsame⟩
    | some entry => exact .inr ⟨entry.1, entry.2.1, entry.2.2, rfl, by rw [step, hstored]⟩
  | rawseti t i value =>
    cases hstored : stored s (.rawseti t i value) with
    | none => exact .inl ⟨rfl, [], by rw [step, hstored]; exact hsame⟩
    | some entry => exact .inr ⟨entry.1, entry.2.1, entry.2.2, rfl, by rw [step, hstored]⟩
  | getmetatable v =>
    refine .inl ⟨rfl, [], hsame ▸ ?_⟩
    simp only [step]
    split <;> rfl
  | next t i =>
    refine .inl ⟨rfl, [], hsame ▸ ?_⟩
    simp only [step]
    split
    · split
      · split <;> rfl
      · rfl
    · rfl
  | pairs t =>
    refine .inl ⟨rfl, [], hsame ▸ ?_⟩
    simp only [step]
    split
    · split <;> rfl
    · rfl
  | moduleExport t => exact .inl ⟨rfl, hreadonly t _ _⟩
  | readonlyProxy name t => exact .inl ⟨rfl, hreadonly t _ _⟩

theorem founded_step (host : Host) {s : State} (hf : Founded s.heap) (op : Op) :
    Founded (step host s op).heap := by
  rcases step_heap host s op with ⟨-, ts, hheap⟩ | ⟨id, key, value, -, hheap⟩
  · rw [hheap]
    refine ⟨?_, ?_⟩
    · rw [Heap.length_alloc]
      exact Nat.lt_add_right _ hf.existing
    · rw [Heap.metatable_alloc _ _ hf.globals_lt, hf.plain]
  · rw [hheap]
    refine ⟨?_, ?_⟩
    · rw [Heap.length_rawset]
      exact hf.existing
    · rw [Heap.metatable_rawset, hf.plain]

/-- New files find what they would have found before a step just when the step is harmless. -/
theorem isolated_step_iff (host : Host) {s : State} (hf : Founded s.heap) (op : Op) :
    Isolated host s.heap (step host s op).heap ↔ Harmless s op := by
  rw [isolated_iff hf (founded_step host hf op)]
  rcases step_heap host s op with ⟨hnone, ts, hheap⟩ | ⟨id, key, value, hstored, hheap⟩
  · rw [hheap]
    refine iff_of_true ⟨fun name => ?_, fun key => ?_, fun key => ?_⟩ ?_
    · exact Heap.rawget_alloc _ _ hf.globals_lt _
    · exact Heap.rawget_alloc _ _ hf.existing _
    · exact Heap.rawget_alloc _ _ hf.string_lt _
    · intro id key value hstored
      rw [hnone] at hstored
      cases hstored
  · have hharmless : Harmless s op ↔
        (((id = globalsId ∧ ∃ name, key = .string name) ∨ id = qstarId ∨ id = stringId) →
          s.heap.rawget id key = value) := by
      constructor
      · intro h
        exact h id key value hstored
      · intro h id' key' value' hstored'
        rw [hstored] at hstored'
        cases hstored'
        exact h
    rw [hheap, hharmless]
    rcases Nat.lt_or_ge id s.heap.tables.length with hid | hid
    · simp only [Heap.rawget_rawset hid]
      constructor
      · rintro ⟨hglobals, hqstar, hstring⟩ (⟨rfl, name, rfl⟩ | rfl | rfl)
        · simpa using (hglobals name).symm
        · simpa using (hqstar key).symm
        · simpa using (hstring key).symm
      · intro h
        refine ⟨fun name => ?_, fun k => ?_, fun k => ?_⟩
        · split
          · rename_i hsame
            obtain ⟨rfl, rfl⟩ := hsame
            exact (h (.inl ⟨rfl, name, rfl⟩)).symm
          · rfl
        · split
          · rename_i hsame
            obtain ⟨rfl, rfl⟩ := hsame
            exact (h (.inr (.inl rfl))).symm
          · rfl
        · split
          · rename_i hsame
            obtain ⟨rfl, rfl⟩ := hsame
            exact (h (.inr (.inr rfl))).symm
          · rfl
    · rw [Heap.rawset_absent hid]
      refine iff_of_true ⟨fun _ => rfl, fun _ => rfl, fun _ => rfl⟩ ?_
      rintro (⟨rfl, -⟩ | rfl | rfl)
      · exact absurd hf.globals_lt (Nat.not_lt.mpr hid)
      · exact absurd hf.existing (Nat.not_lt.mpr hid)
      · exact absurd hf.string_lt (Nat.not_lt.mpr hid)

/-! ## Runs -/

theorem Isolated.trans {host : Host} {a b c : Heap Function} (hab : Isolated host a b) (hbc : Isolated host b c) :
    Isolated host a c where
  globals name := (hbc.globals name).trans (hab.globals name)
  provider name hself hqstar := (hbc.provider name hself hqstar).trans (hab.provider name hself hqstar)
  qstar key := (hbc.qstar key).trans (hab.qstar key)
  string key := (hbc.string key).trans (hab.string key)

theorem Isolated.symm {host : Host} {a b : Heap Function} (hab : Isolated host a b) : Isolated host b a where
  globals name := (hab.globals name).symm
  provider name hself hqstar := (hab.provider name hself hqstar).symm
  qstar key := (hab.qstar key).symm
  string key := (hab.string key).symm

/-- In every state of a run, new files find what they would have found at the start. -/
def Kept (host : Host) (start : Heap Function) (s : State) (run : List Op) : Prop :=
  Along (step host) (fun s op => Isolated host start (step host s op).heap) s run

theorem kept_iff_harmless {host : Host} {start : Heap Function} {s : State} (hf : Founded s.heap)
    (hnow : Isolated host start s.heap) (run : List Op) :
    Kept host start s run ↔ Along (step host) Harmless s run := by
  induction run generalizing s with
  | nil => exact Iff.rfl
  | cons op rest ih =>
    have hstep := isolated_step_iff host hf op
    constructor
    · rintro ⟨hop, hrest⟩
      exact ⟨hstep.mp (hnow.symm.trans hop), (ih (founded_step host hf op) hop).mp hrest⟩
    · rintro ⟨hop, hrest⟩
      have hnext := hnow.trans (hstep.mpr hop)
      exact ⟨hnext, (ih (founded_step host hf op) hnext).mpr hrest⟩

theorem founded_initial (host : Host) : Founded (initialHeap host) where
  existing := by
    change 8 < 17
    decide
  plain := rfl

/-- Whatever authoring files do, the files evaluated later find every global and every member of
`qstar` and `string` as they were before the first file, all along a run, just when no operation
of the run stores a different entry in one of the three tables. -/
theorem isolated_iff_harmless (host : Host) (run : List Op) :
    Kept host (initialHeap host) (initial host) run ↔ Along (step host) Harmless (initial host) run := by
  apply kept_iff_harmless (founded_initial host)
  exact ⟨fun _ => rfl, fun _ _ _ => rfl, fun _ => rfl, fun _ => rfl⟩

def exampleHost : Host where
  version := ascii "1.0.0"
  versionMajor := 1
  versionMinor := 0
  versionPatch := 0
  os := ascii "linux"
  arch := ascii "x86_64"
  root := ascii "/p"

/-- `_G.print = nil` -/
def printRemoved : List Op := [
  .evaluate,
  .index (.table 17) (text "_G"),
  .assign (.table globalsId) (text "print") .nil]

/-- The assignment that the environment refuses is made on the table of globals itself, and
`print` is gone in every file that follows. -/
theorem print_removed_for_all :
    ¬ ∀ (host : Host) (run : List Op), Kept host (initialHeap host) (initial host) run := by
  intro h
  have hglobals := (h exampleHost printRemoved).2.2.1.globals (ascii "print")
  revert hglobals
  decide +kernel


end QStar.Authoring.SharedGlobals
