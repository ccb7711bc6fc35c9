import QStar.Lib.Lines
import QStar.Lib.LuaTables
import QStar.Lib.Runs

/-!
# The namespaces of imported modules

`qstar.import_module` evaluates a module once, puts a read-only proxy before the
table it returned and hands this one proxy to every importer. What importers do
to the tables they get hold of is a run of operations, in which later imports
may stand anywhere. The run leaves the namespace as the module returned it
exactly when no assignment through the table behind the proxies changes an
entry: `pairs` hands that table out.
-/
namespace QStar.Authoring.ModuleExports

open QStar.Lib.CStrings
open QStar.Lib.Lines
open QStar.Lib.LuaTables
open QStar.Lib.Runs

/-- The tables of the interpreter and the proxies that are cached for the modules. -/
structure Store where
  heap : Heap
  exports : List (Bytes × Nat)

/-- `push_readonly_module_export` -/
def pushReadonlyModuleExport (h : Heap) (table : Nat) (ht : table < h.tables.length) : Heap × Nat :=
  (h.push ⟨table, ascii "module exports", .backing, true⟩ ht, h.tables.length)

/-- `qstar_lua_import_module` from the cache on, for the entry file `rel`. `evaluate` runs the
chunk of the file, which may import and build tables of its own. -/
def importModule (evaluate : Store → Except Bytes (Store × Value)) (rel : Bytes) (s : Store) :
    Except Bytes (Store × Nat) :=
  match s.exports.lookup rel with
  | some cached => .ok (s, cached)
  | none =>
    match evaluate s with
    | .error message => .error message
    | .ok (s', .table table) =>
      if ht : table < s'.heap.tables.length then
        let made := pushReadonlyModuleExport s'.heap table ht
        .ok (⟨made.1, QStar.Lib.Bindings.assign rel made.2 s'.exports⟩, made.2)
      else
        .error (ascii "qstar: module '" ++ rel ++ ascii "' must return a table")
    | .ok _ => .error (ascii "qstar: module '" ++ rel ++ ascii "' must return a table")

/-- What an importer does with a table. -/
inductive Op where
  | index (key : Value)
  | assign (key value : Value)
  | len
  | pairs
  | next (key : Value)
  | getmetatable
  deriving DecidableEq

/-- What an operation answers. -/
inductive Outcome where
  | value (v : Value)
  | count (n : Nat)
  | iterates (it : Heap.Iteration)
  | entry (e : Option (Value × Value))
  | done
  | failed (message : Bytes)
  deriving DecidableEq

/-- `lua_isstring(L, 2) ? lua_tostring(L, 2) : "<non-string>"` as `%s` prints it -/
def keyText : Value → Bytes
  | .string s => cString s
  | .integer i => printInt i.toInt
  | .float text => text
  | _ => ascii "<non-string>"

/-- `readonly_table_assignment_forbidden`, and the interpreter's own refusal. -/
def assignmentForbidden : Heap.AssignError → Bytes
  | .readonly label key => ascii "qstar: " ++ label ++ ascii " is read-only: " ++ keyText key
  | .nilKey => ascii "index is nil"

/-- An operation on a table. -/
def Op.run (h : Heap) (id : Nat) : Op → Heap × Outcome
  | .index key => (h, .value (h.index id key))
  | .assign key value =>
    match h.assign id key value with
    | .ok h' => (h', .done)
    | .error refusal => (h, .failed (assignmentForbidden refusal))
  | .len => (h, .count (h.len id))
  | .pairs => (h, .iterates (h.pairs id))
  | .next key =>
    match h.next id key with
    | some e => (h, .entry e)
    | none => (h, .failed (ascii "invalid key to 'next'"))
  | .getmetatable => (h, .value (h.getmetatable id))

/-- The table an operation gives its caller to go on with. What is stored inside the exports
is not among these. -/
def handedOut (op : Op) (answer : Outcome) : Option Nat :=
  match op, answer with
  | .pairs, .iterates (.table id) => some id
  | .getmetatable, .value (.table id) => some id
  | _, _ => none

/-- Importers at work: the store and the tables they have got hold of. -/
structure State where
  store : Store
  obtained : List Nat

inductive Step where
  /-- the module is imported again -/
  | importAgain
  | perform (id : Nat) (op : Op)
  deriving DecidableEq

section Importers

variable (evaluate : Store → Except Bytes (Store × Value)) (rel : Bytes)

/-- One step of the importers; a table that was not obtained is out of reach. -/
def step (s : State) : Step → State
  | .importAgain =>
    match importModule evaluate rel s.store with
    | .ok (store, id) => ⟨store, id :: s.obtained⟩
    | .error _ => s
  | .perform id op =>
    if id ∈ s.obtained then
      let result := op.run s.store.heap id
      ⟨⟨result.1, s.store.exports⟩, (handedOut op result.2).toList ++ s.obtained⟩
    else s

/-- The mapping that an importer who comes now sees. -/
def seen (s : State) (key : Value) : Option Value :=
  match importModule evaluate rel s.store with
  | .ok (store, id) => some (store.heap.index id key)
  | .error _ => none

end Importers

/-- The step is no assignment to a plain table that was obtained, or it writes what is there. -/
def Harmless (s : State) : Step → Prop
  | .perform id (.assign key value) =>
    id ∈ s.obtained → s.store.heap.proxy id = none → key ≠ .nil → value = s.store.heap.rawget id key
  | _ => True

/-- The module's proxy is cached, and what importers have got hold of leads where it leads. -/
structure Shared (rel : Bytes) (exported : Nat) (s : State) : Prop where
  cached : s.store.exports.lookup rel = some exported
  existing : exported < s.store.heap.tables.length
  leads : ∀ id ∈ s.obtained, s.store.heap.root id = s.store.heap.root exported

section Importers

variable {evaluate : Store → Except Bytes (Store × Value)} {rel : Bytes} {exported : Nat} {s : State}

theorem importModule_cached (h : Shared rel exported s) :
    importModule evaluate rel s.store = .ok (s.store, exported) := by
  rw [importModule, h.cached]

theorem seen_of_shared (h : Shared rel exported s) (key : Value) :
    seen evaluate rel s key = some (s.store.heap.index exported key) := by
  rw [seen, importModule_cached h]

/-- What an operation does to the tables: an assignment that is carried out, or nothing. -/
theorem run_cases (h : Heap) (id : Nat) (op : Op) :
    (op.run h id).1 = h ∨ ∃ key value, op = .assign key value ∧ key ≠ .nil ∧
      ∃ plain : h.proxy id = none, (op.run h id).1 = h.rawset id key value plain := by
  cases op with
  | assign key value =>
    cases hassign : h.assign id key value with
    | error refusal =>
      left
      simp only [Op.run, hassign]
    | ok h' =>
      right
      obtain ⟨hkey, plain, rfl⟩ := Heap.assign_eq_ok hassign
      refine ⟨key, value, rfl, hkey, plain, ?_⟩
      simp only [Op.run, hassign]
  | next key =>
    left
    rw [Op.run]
    cases h.next id key <;> rfl
  | index key => exact .inl rfl
  | len => exact .inl rfl
  | pairs => exact .inl rfl
  | getmetatable => exact .inl rfl

/-- Every table an operation hands out leads where the table it was asked of leads. -/
theorem root_of_handedOut {h : Heap} {id id' : Nat} {op : Op}
    (hout : handedOut op (op.run h id).2 = some id') : h.root id' = h.root id := by
  cases op with
  | pairs =>
    rw [Op.run] at hout
    cases hpairs : h.pairs id with
    | table id'' =>
      simp only [handedOut, hpairs, Option.some.injEq] at hout
      subst hout
      exact Heap.root_of_pairs hpairs
    | closure data => simp [handedOut, hpairs] at hout
  | getmetatable =>
    rw [Op.run, Heap.getmetatable] at hout
    cases hp : h.proxy id <;> simp [handedOut, hp] at hout
  | index key => simp [handedOut] at hout
  | assign key value => simp [handedOut] at hout
  | len => simp [handedOut] at hout
  | next key => simp [handedOut] at hout

theorem root_run (h : Heap) (id : Nat) (op : Op) (id' : Nat) : (op.run h id).1.root id' = h.root id' := by
  obtain hsame | ⟨key, value, -, -, plain, hset⟩ := run_cases h id op
  · rw [hsame]
  · rw [hset, Heap.root_rawset]

theorem length_run (h : Heap) (id : Nat) (op : Op) :
    (op.run h id).1.tables.length = h.tables.length := by
  obtain hsame | ⟨key, value, -, -, plain, hset⟩ := run_cases h id op
  · rw [hsame]
  · rw [hset, Heap.length_rawset]

theorem shared_step (h : Shared rel exported s) (a : Step) :
    Shared rel exported (step evaluate rel s a) := by
  cases a with
  | importAgain =>
    rw [step, importModule_cached h]
    refine ⟨h.cached, h.existing, ?_⟩
    intro id hid
    rcases List.mem_cons.mp hid with rfl | hid
    · rfl
    · exact h.leads id hid
  | perform id op =>
    rw [step]
    split
    · rename_i hid
      refine ⟨h.cached, ?_, ?_⟩
      · dsimp only
        rw [length_run]
        exact h.existing
      · intro id' hid'
        dsimp only
        rw [root_run, root_run]
        rcases List.mem_append.mp hid' with hnew | hold
        · rw [root_of_handedOut (Option.mem_toList.mp hnew)]
          exact h.leads id hid
        · exact h.leads id' hold
    · exact h

theorem run_assign_refused {h : Heap} {id : Nat} {key value : Value}
    (hrefused : ¬ (h.proxy id = none ∧ key ≠ .nil)) : ((Op.assign key value).run h id).1 = h := by
  obtain hsame | ⟨key', value', hop, hkey, plain, -⟩ := run_cases h id (.assign key value)
  · exact hsame
  · cases hop
    exact absurd ⟨plain, hkey⟩ hrefused

/-- One step leaves the namespace as it is just when it is harmless. -/
theorem seen_step_iff (h : Shared rel exported s) (a : Step) :
    (∀ key, seen evaluate rel (step evaluate rel s a) key = seen evaluate rel s key)
      ↔ Harmless s a := by
  have hafter : Shared rel exported (step evaluate rel s a) := shared_step h a
  simp only [seen_of_shared hafter, seen_of_shared h, Option.some.injEq]
  cases a with
  | importAgain => simp [step, importModule_cached h, Harmless]
  | perform id op =>
    by_cases hid : id ∈ s.obtained
    · simp only [step, if_pos hid]
      cases op with
      | assign key value =>
        by_cases hopen : s.store.heap.proxy id = none ∧ key ≠ .nil
        · obtain ⟨plain, hkey⟩ := hopen
          have hroot : s.store.heap.root exported = id := by
            rw [← h.leads id hid, Heap.root_of_plain plain]
          have hlt : id < s.store.heap.tables.length := by
            have hle := s.store.heap.root_le exported
            have hexisting := h.existing
            omega
          have hrun : ((Op.assign key value).run s.store.heap id).1
              = s.store.heap.rawset id key value plain := by
            simp only [Op.run, Heap.assign_of_plain value plain hkey]
          simp only [hrun, Heap.index_rawset key value plain hlt, hroot, true_and, Harmless]
          constructor
          · intro hsame _ _ _
            have hkeyed := hsame key
            rw [if_pos rfl, Heap.index_eq_root, hroot] at hkeyed
            exact hkeyed
          · intro hvalue key'
            split
            · rename_i heq
              rw [← heq, Heap.index_eq_root, hroot]
              exact hvalue hid plain hkey
            · rfl
        · simp only [run_assign_refused hopen, Harmless]
          constructor
          · intro _ _ plain hkey
            exact absurd ⟨plain, hkey⟩ hopen
          · intro _ key'
            trivial
      | next key =>
        obtain hsame | ⟨_, _, hop, -⟩ := run_cases s.store.heap id (.next key)
        · simp [hsame, Harmless]
        · cases hop
      | index key => simp [Op.run, Harmless]
      | len => simp [Op.run, Harmless]
      | pairs => simp [Op.run, Harmless]
      | getmetatable => simp [Op.run, Harmless]
    · simp only [step, if_neg hid]
      cases op <;> simp [Harmless, hid]

end Importers

/-- Importers see the mapping at the start of the run and after every step of it. -/
def Kept (evaluate : Store → Except Bytes (Store × Value)) (rel : Bytes) (mapping : Value → Value)
    (s : State) (run : List Step) : Prop :=
  (∀ key, seen evaluate rel s key = some (mapping key)) ∧
    Along (step evaluate rel)
      (fun s a => ∀ key, seen evaluate rel (step evaluate rel s a) key = some (mapping key)) s run

/-- Importers see the mapping all along just when every step is harmless. -/
theorem kept_iff_harmless {evaluate : Store → Except Bytes (Store × Value)} {rel : Bytes} {exported : Nat}
    {mapping : Value → Value} {s : State} (h : Shared rel exported s)
    (hnow : ∀ key, seen evaluate rel s key = some (mapping key)) (run : List Step) :
    Kept evaluate rel mapping s run ↔ Along (step evaluate rel) Harmless s run := by
  induction run generalizing s with
  | nil => exact ⟨fun _ => trivial, fun _ => ⟨hnow, trivial⟩⟩
  | cons a rest ih =>
    have hstep : (∀ key, seen evaluate rel (step evaluate rel s a) key = seen evaluate rel s key)
      ↔ Harmless s a := seen_step_iff h a
    simp only [hnow] at hstep
    constructor
    · rintro ⟨-, hkept, hrest⟩
      exact ⟨hstep.mp hkept, (ih (shared_step h a) hkept).mp ⟨hkept, hrest⟩⟩
    · rintro ⟨hharmless, hrest⟩
      have hkept := hstep.mpr hharmless
      exact ⟨hnow, hkept, ((ih (shared_step h a) hkept).mpr hrest).2⟩

/-- The state of the first importer of a module: it has the namespace in its hands. -/
def imported (store : Store) (exported : Nat) : State := ⟨store, [exported]⟩

/-- A module that was just imported is cached under its file, and reads as the table it returned. -/
theorem importModule_fresh {evaluate : Store → Except Bytes (Store × Value)} {rel : Bytes}
    {before after : Store} {exported : Nat} (hfresh : before.exports.lookup rel = none)
    (himport : importModule evaluate rel before = .ok (after, exported)) :
    Shared rel exported (imported after exported) ∧ ∃ evaluated table,
      evaluate before = .ok (evaluated, .table table) ∧
        ∀ key, after.heap.index exported key = evaluated.heap.index table key := by
  rw [importModule, hfresh] at himport
  cases hevaluate : evaluate before with
  | error message =>
    simp [hevaluate] at himport
  | ok result =>
    obtain ⟨evaluated, v⟩ := result
    cases v with
    | table table =>
      simp only [hevaluate] at himport
      split at himport
      · rename_i ht
        cases himport
        refine ⟨⟨?_, ?_, ?_⟩, evaluated, table, rfl, ?_⟩
        · exact (QStar.Lib.Bindings.lookup_assign rel rel _ _).trans (if_pos rfl)
        · have hlength := Heap.length_push (h := evaluated.heap)
            ⟨table, ascii "module exports", .backing, true⟩ ht
          show evaluated.heap.tables.length < _
          rw [imported, pushReadonlyModuleExport, hlength]
          omega
        · intro id hid
          rw [List.mem_singleton.mp hid]
        · intro key
          exact Heap.index_push_new _ ht key
      · cases himport
    | nil => simp [hevaluate] at himport
    | boolean b => simp [hevaluate] at himport
    | integer i => simp [hevaluate] at himport
    | float text => simp [hevaluate] at himport
    | string text => simp [hevaluate] at himport
    | other tag => simp [hevaluate] at himport

/-- What importers see of a module is, at every moment of a run, the mapping of the table the
module returned, just when no assignment of the run changes an entry of a plain table. -/
theorem namespace_kept_iff {evaluate : Store → Except Bytes (Store × Value)} {rel : Bytes}
    {before after evaluated : Store} {exported table : Nat} (hfresh : before.exports.lookup rel = none)
    (hmodule : evaluate before = .ok (evaluated, .table table))
    (himport : importModule evaluate rel before = .ok (after, exported)) (run : List Step) :
    Kept evaluate rel (evaluated.heap.index table) (imported after exported) run
      ↔ Along (step evaluate rel) Harmless (imported after exported) run := by
  obtain ⟨hshared, evaluated', table', hmodule', hreads⟩ := importModule_fresh hfresh himport
  rw [hmodule] at hmodule'
  cases hmodule'
  apply kept_iff_harmless hshared
  intro key
  rw [seen_of_shared hshared, ← hreads key]
  rfl

def noTables : Heap := ⟨[], by intro id t p ht; simp at ht⟩

/-- The tables once a module `return {x = 1}` was evaluated, and that evaluation. -/
def oneEntry : Heap where
  tables := [⟨[(.string (ascii "x"), .integer 1)], none⟩]
  founded := by
    intro id t p ht hp
    have hmem := List.mem_of_getElem? ht
    rw [List.mem_singleton.mp hmem] at hp
    cases hp

def evaluateOneEntry (s : Store) : Except Bytes (Store × Value) := .ok (⟨oneEntry, s.exports⟩, .table 0)

/-- The namespace of a module with `x = 1` and the first importer of it. -/
def firstImporter : State :=
  imported ⟨(pushReadonlyModuleExport oneEntry 0 (by decide)).1, [(ascii "m/m.qsm", 1)]⟩ 1

/-- `local _, t = pairs(m); t.x = 2` -/
def throughPairs : List Step :=
  [.perform 1 .pairs, .perform 0 (.assign (.string (ascii "x")) (.integer 2))]

/-- The run changes what the next importer finds. -/
theorem not_kept_through_pairs :
    ¬ Kept evaluateOneEntry (ascii "m/m.qsm") (oneEntry.index 0) firstImporter throughPairs := by
  have hshared : Shared (ascii "m/m.qsm") 1 firstImporter :=
    ⟨by decide, by decide, by intro id hid; rw [List.mem_singleton.mp hid]⟩
  rintro ⟨hnow, hrun⟩
  have hharmless := (kept_iff_harmless hshared hnow throughPairs).mp ⟨hnow, hrun⟩
  have hwritten := hharmless.2.1 (by decide) rfl (by decide)
  revert hwritten
  decide

theorem namespace_kept_iff_through_pairs :
    Kept evaluateOneEntry (ascii "m/m.qsm") (oneEntry.index 0) firstImporter throughPairs
      ↔ Along (step evaluateOneEntry (ascii "m/m.qsm")) Harmless firstImporter throughPairs :=
  @namespace_kept_iff evaluateOneEntry (ascii "m/m.qsm") ⟨noTables, []⟩ firstImporter.store
    ⟨oneEntry, []⟩ 1 0 rfl rfl rfl throughPairs

end QStar.Authoring.ModuleExports
