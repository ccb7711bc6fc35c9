import QStar.Lib.Runs
import QStar.Stella.StateDump

/-!
# The action state over builds

A build loads the state, replaces `state.db` when something other than a status
changed, and after it `actions.json` when a dump is requested; it can stop
between the two. Both files can be lost or changed from outside. What is loaded
is of the last committed write as long as a dump is not read in its place, or is
a full dump of that write.
-/
namespace QStar.Stella

open QStar.Lib.CStrings
open QStar.Lib.Runs

/-- What is at the path of a file. -/
inductive Slot where
  | missing
  | unreadable
  | content (bytes : Bytes)
  deriving DecidableEq

/-- `fopen(path, "rb")` and the bytes that follow -/
def Slot.fopen : Slot → Option Bytes
  | .missing => none
  | .unreadable => none
  | .content bytes => some bytes

@[simp] theorem Slot.fopen_content (bytes : Bytes) : (Slot.content bytes).fopen = some bytes := rfl

/-- `path_exists` -/
def Slot.pathExists (slot : Slot) : Bool := slot ≠ .missing

structure StateFiles where
  db : Slot
  json : Slot
  deriving DecidableEq

/-- `state_load` -/
def stateLoad (files : StateFiles) : List StateEntry :=
  match files.db.fopen.bind stateDbLoad with
  | some entries => entries
  | none =>
    match files.json.fopen with
    | none => []
    | some text => jsonLoad text

/-- `state_find` -/
def stateFind (entries : List StateEntry) (id : Bytes) : Option StateEntry :=
  entries.find? fun e => e.id = id

/-- The comparison in the loop of `state_unchanged_ignoring_status`. -/
def StateEntry.sameMaterial (prev next : StateEntry) : Bool :=
  prev.key = next.key && prev.output = next.output && prev.kind = next.kind &&
  prev.argvKey = next.argvKey && prev.envKey = next.envKey && prev.inputKey = next.inputKey &&
  prev.depfileKey = next.depfileKey && prev.toolPolicyKey = next.toolPolicyKey &&
  prev.outputKey = next.outputKey && prev.externalToolKey = next.externalToolKey

/-- `state_unchanged_ignoring_status` -/
def stateUnchanged (prev next : List StateEntry) : Bool :=
  prev.length = next.length && next.all fun e =>
    match stateFind prev e.id with
    | none => false
    | some p => p.sameMaterial e

/-- A file that `state_write` moves into place. -/
inductive Rename where
  | db (entries : List StateEntry)
  | json (entries : List StateEntry)

/-- `qstar_replace_file` -/
def Rename.apply (files : StateFiles) : Rename → StateFiles
  | .db entries => { files with db := .content (stateDbBytes entries) }
  | .json entries => { files with json := .content (dumpText entries) }

/-- The renames of `state_write`, in order; `dump` is `debug_state_dumps_enabled`. -/
def stateWrite (files : StateFiles) (prev next : List StateEntry) (dump : Bool) : List Rename :=
  let unchanged := stateUnchanged prev next
  if unchanged && files.db.pathExists && (!dump || files.json.pathExists) then []
  else if unchanged && !dump then [.db next]
  else if !dump then [.db next]
  else [.db next, .json next]

/-- The entries of a build, each as a build makes them; their number is a `size_t`. -/
structure Entries where
  entries : List StateEntry
  valid : ∀ e ∈ entries, e.Valid
  sized : entries.length < 2 ^ 64

/-- What happens to the state of a build directory. A build stops after the given number of
renames; both files can also be changed from outside. -/
inductive StateEvent where
  | build (next : Entries) (dump : Bool) (renames : Nat)
  | db (slot : Slot)
  | json (slot : Slot)

/-- The files with the entries of the last write that reached one of them. -/
structure StateHistory where
  files : StateFiles
  committed : Entries

theorem no_entries_lt : ([] : List StateEntry).length < 2 ^ 64 := by decide

/-- A build directory without state. -/
def StateHistory.start : StateHistory :=
  { files := { db := .missing, json := .missing }
    committed := { entries := [], valid := by simp, sized := no_entries_lt } }

/-- What a build moves into place before it stops. -/
def StateHistory.renames (h : StateHistory) (next : List StateEntry) (dump : Bool) (n : Nat) :
    List Rename :=
  (stateWrite h.files (stateLoad h.files) next dump).take n

def StateHistory.step (h : StateHistory) : StateEvent → StateHistory
  | .build next dump n =>
    match h.renames next.entries dump n with
    | [] => h
    | done => { files := done.foldl Rename.apply h.files, committed := next }
  | .db slot => { h with files := { h.files with db := slot } }
  | .json slot => { h with files := { h.files with json := slot } }

/-- The state file holds these entries and is read back. -/
def Holds (db : Slot) (entries : List StateEntry) : Prop :=
  db = .content (stateDbBytes entries) ∧ WithinLimits entries

/-- The dump cannot be opened, or it is of these entries and is read back. -/
def Covers (json : Slot) (entries : List StateEntry) : Prop :=
  json.fopen = none ∨ json = .content (dumpText entries) ∧ PlainDump entries

/-- A build that writes more than can be read back leaves no dump, or its own complete one. A
change from outside leaves the state file of the last write in place, or a state file that is
refused beside such a dump. -/
def StateEvent.Meets (h : StateHistory) : StateEvent → Prop
  | .build next dump n =>
    WithinLimits next.entries ∨
      if dump = true ∧ 2 ≤ n then PlainDump next.entries else h.files.json.fopen = none
  | .db slot =>
    Holds slot h.committed.entries ∨
      slot.fopen.bind stateDbLoad = none ∧ Covers h.files.json h.committed.entries
  | .json slot =>
    Holds h.files.db h.committed.entries ∨ Covers slot h.committed.entries

/-- The state file is of the last write, or it is refused beside a dump that is. -/
def StateHistory.Current (h : StateHistory) : Prop :=
  Holds h.files.db h.committed.entries ∨
    h.files.db.fopen.bind stateDbLoad = none ∧ Covers h.files.json h.committed.entries

theorem load_of_holds {files : StateFiles} {entries : List StateEntry}
    (hvalid : ∀ e ∈ entries, e.Valid) (h : Holds files.db entries) :
    stateLoad files = entries := by
  have hload := (stateDbLoad_bytes_iff hvalid).mpr h.2
  simp [stateLoad, h.1, hload]

theorem load_of_dump {files : StateFiles} {entries : List StateEntry}
    (hvalid : ∀ e ∈ entries, e.Valid) (hdb : files.db.fopen.bind stateDbLoad = none)
    (hjson : files.json = .content (dumpText entries)) (hplain : PlainDump entries) :
    stateLoad files = entries := by
  unfold stateLoad
  rw [hdb, hjson]
  exact jsonLoad_dumpText hvalid hplain

theorem load_of_covers {files : StateFiles} {entries : List StateEntry}
    (hvalid : ∀ e ∈ entries, e.Valid) (hdb : files.db.fopen.bind stateDbLoad = none)
    (h : Covers files.json entries) : stateLoad files = [] ∨ stateLoad files = entries := by
  rcases h with hjson | ⟨hjson, hplain⟩
  · unfold stateLoad
    rw [hdb, hjson]
    exact .inl rfl
  · exact .inr (load_of_dump hvalid hdb hjson hplain)

/-- A build writes nothing, or the state file and with a dump the dump after it. -/
theorem stateWrite_cases (files : StateFiles) (prev next : List StateEntry) (dump : Bool) :
    stateWrite files prev next dump = [] ∨
      stateWrite files prev next dump = [.db next] ∧ dump = false ∨
      stateWrite files prev next dump = [.db next, .json next] ∧ dump = true := by
  unfold stateWrite
  cases dump <;> grind

/-- A build either moves nothing, or the state file first and with a dump the dump after it. -/
theorem renames_cases (h : StateHistory) (next : List StateEntry) (dump : Bool) (n : Nat) :
    h.renames next dump n = [] ∨ h.renames next dump n = [.db next] ∧ ¬ (dump = true ∧ 2 ≤ n) ∨
      h.renames next dump n = [.db next, .json next] ∧ dump = true ∧ 2 ≤ n := by
  unfold StateHistory.renames
  rcases stateWrite_cases h.files (stateLoad h.files) next dump with hw | ⟨hw, hdump⟩ | ⟨hw, hdump⟩
  · exact .inl (by simp [hw])
  · cases n with
    | zero => exact .inl rfl
    | succ n => exact .inr (.inl ⟨by simp [hw], by simp [hdump]⟩)
  · match n with
    | 0 => exact .inl rfl
    | 1 => exact .inr (.inl ⟨by simp [hw], by simp⟩)
    | n + 2 => exact .inr (.inr ⟨by simp [hw], hdump, by omega⟩)

theorem StateEvent.Meets.over {h : StateHistory} {next : Entries} {dump : Bool} {n : Nat}
    (hmeets : (StateEvent.build next dump n).Meets h) (hover : ¬ WithinLimits next.entries) :
    if dump = true ∧ 2 ≤ n then PlainDump next.entries else h.files.json.fopen = none :=
  Or.resolve_left hmeets hover

theorem step_build_db {h : StateHistory} {next : Entries} {dump : Bool} {n : Nat}
    (hr : h.renames next.entries dump n = [.db next.entries]) :
    h.step (.build next dump n) = {
      files := { h.files with db := .content (stateDbBytes next.entries) }
      committed := next } := by
  simp only [StateHistory.step, hr]
  rfl

theorem step_build_dump {h : StateHistory} {next : Entries} {dump : Bool} {n : Nat}
    (hr : h.renames next.entries dump n = [.db next.entries, .json next.entries]) :
    h.step (.build next dump n) = {
      files := {
        db := .content (stateDbBytes next.entries)
        json := .content (dumpText next.entries) }
      committed := next } := by
  simp only [StateHistory.step, hr]
  rfl

/-- A written state file is read back or refused. -/
theorem holds_or_refused (next : Entries) :
    Holds (.content (stateDbBytes next.entries)) next.entries ∨
      ¬ WithinLimits next.entries ∧
        (Slot.content (stateDbBytes next.entries)).fopen.bind stateDbLoad = none := by
  by_cases hw : WithinLimits next.entries
  · exact .inl ⟨rfl, hw⟩
  · refine .inr ⟨hw, ?_⟩
    rw [Slot.fopen_content, Option.bind_some]
    exact stateDbLoad_over_limits next.valid next.sized hw

/-- What one event keeps. -/
theorem current_step {h : StateHistory} {e : StateEvent} (hmeets : e.Meets h)
    (hcurrent : h.Current) : (h.step e).Current := by
  cases e with
  | build next dump n =>
    rcases renames_cases h next.entries dump n with hr | ⟨hr, hpart⟩ | ⟨hr, hfull⟩
    · simp only [StateHistory.step, hr]
      exact hcurrent
    · rw [step_build_db hr]
      rcases holds_or_refused next with hholds | ⟨hover, hrefused⟩
      · exact .inl hholds
      · have hjson := StateEvent.Meets.over hmeets hover
        rw [if_neg hpart] at hjson
        exact .inr ⟨hrefused, .inl hjson⟩
    · rw [step_build_dump hr]
      rcases holds_or_refused next with hholds | ⟨hover, hrefused⟩
      · exact .inl hholds
      · have hplain := StateEvent.Meets.over hmeets hover
        rw [if_pos hfull] at hplain
        exact .inr ⟨hrefused, .inr ⟨rfl, hplain⟩⟩
  | db slot => exact hmeets
  | json slot =>
    rcases hmeets with hholds | hcovers
    · exact .inl hholds
    · rcases hcurrent with hholds | ⟨hrefused, -⟩
      · exact .inl hholds
      · exact .inr ⟨hrefused, hcovers⟩

/-- Along a history whose events meet the condition, what is loaded is nothing or the last
committed write. -/
theorem load_of_reachable {h : StateHistory}
    (hrun : ReachableWhere StateHistory.step (fun h e => e.Meets h) .start h) :
    stateLoad h.files = [] ∨ stateLoad h.files = h.committed.entries := by
  have hstart : StateHistory.start.Current := .inr ⟨rfl, .inl rfl⟩
  have hcurrent : h.Current :=
    hrun.invariant StateHistory.Current hstart fun _ _ hmeets hc => current_step hmeets hc
  rcases hcurrent with hholds | ⟨hrefused, hcovers⟩
  · exact .inr (load_of_holds h.committed.valid hholds)
  · exact load_of_covers h.committed.valid hrefused hcovers

/-- The state of a build comes back from its file within the limits and from no part of the file,
and what is loaded after any history that meets the condition is of the last committed write. -/
theorem state_round_trip (entries : Entries) (h : StateHistory) :
    (stateDbLoad (stateDbBytes entries.entries) = some entries.entries ↔
      WithinLimits entries.entries) ∧
    (∀ file, file <+: stateDbBytes entries.entries → file ≠ stateDbBytes entries.entries →
      stateDbLoad file = none) ∧
    (ReachableWhere StateHistory.step (fun h e => e.Meets h) .start h →
      ∀ e ∈ stateLoad h.files, e ∈ h.committed.entries) := by
  refine ⟨stateDbLoad_bytes_iff entries.valid, ?_, ?_⟩
  · intro file hcut hne
    exact stateDbLoad_truncated entries.valid entries.sized hcut hne
  · intro hrun e he
    rcases load_of_reachable hrun with hload | hload
    · rw [hload] at he
      cases he
    · rwa [hload] at he

/-- An entry of a compile action with the given key. -/
def sampleEntry (key : Bytes) : StateEntry where
  id := ascii "//:a:compile:0"
  key := key
  output := ascii "a.o"
  status := ascii "run"
  kind := ascii "compile"
  argvKey := []
  envKey := []
  inputKey := []
  depfileKey := []
  toolPolicyKey := []
  outputKey := []
  externalToolKey := []

def sampleEntries (key : Bytes) (h : (sampleEntry key).Valid) : Entries where
  entries := [sampleEntry key]
  valid e he := List.mem_singleton.mp he ▸ h
  sized := by simp

theorem sampleEntry_one : (sampleEntry (ascii "1")).Valid :=
  ⟨by decide, by decide, by decide, by decide⟩

theorem sampleEntry_two : (sampleEntry (ascii "2")).Valid :=
  ⟨by decide, by decide, by decide, by decide⟩

/-- A dumped build, a build without a dump, and then the state file is lost. -/
def staleDump : List StateEvent :=
  [.build (sampleEntries (ascii "1") sampleEntry_one) true 2,
   .build (sampleEntries (ascii "2") sampleEntry_two) false 2,
   .db .missing]

/-- The loaded entry is of the dumped build. -/
theorem stale_dump_loaded : ∃ h, Reachable StateHistory.step .start h ∧
    ∃ e ∈ stateLoad h.files, e ∉ h.committed.entries := by
  refine ⟨staleDump.foldl StateHistory.step .start, reachable_foldl _ _ _, sampleEntry (ascii "1"), ?_⟩
  decide +kernel

end QStar.Stella
