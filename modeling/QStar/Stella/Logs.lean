import QStar.Lowering.Lazy
import QStar.Stella.StateFiles

/-!
# The action log over builds

A failed execution leaves a log file at once. A successful one leaves none: its log is made
from the action state when it is asked for, and the state is written at the end of a build
in which nothing failed. No build takes a log file away, so the log of an action that failed
and then succeeded is still that of the failure.
-/
namespace QStar.Stella.Logs

open QStar.Lib.CStrings
open QStar.Lib.Numerals
open QStar.Lib.Runs
open QStar.Base
open QStar.BuildGraph
open QStar.Lowering
open QStar.Lowering.Lazy

/-- How an execution failed; a timeout has the exit code 124. -/
inductive Failure where
  | exit (code : Nat) (nonzero : code ≠ 0)
  | expectMissing
  deriving DecidableEq

/-- The exit text of its log. -/
def Failure.text : Failure → Bytes
  | .exit code _ => printUnsigned 10 code
  | .expectMissing => ascii "expect-missing"

inductive Outcome where
  | success
  | failure (f : Failure)
  deriving DecidableEq

/-- `action_log_is_lazy_success` -/
def isLazySuccess (exitText : Bytes) : Bool := exitText = ascii "0" || exitText = ascii "skip"

/-- The exit text tells how an execution ended. -/
def Outcome.Tells : Outcome → Bytes → Prop
  | .success, exitText => isLazySuccess exitText = true
  | .failure f, exitText => exitText = f.text

/-- `action_log_name` -/
def actionLogName (id : Bytes) : Bytes := mangleLabel id

/-- What builds leave in a build directory for the action log, and how the latest execution of
each action that a build recorded has ended. -/
structure Records where
  files : StateFiles
  /-- The exit texts of the log files, by log name. -/
  logs : Bytes → Option Bytes
  latest : Bytes → Option Outcome

def Records.start : Records where
  files := { db := .missing, json := .missing }
  logs := fun _ => none
  latest := fun _ => none

/-- The exit text `prepare_lazy_action_from_state` takes from an entry. -/
def exitText (e : StateEntry) : Bytes := if e.status = ascii "run" then ascii "0" else e.status

/-- The exit text `qstar_graph_action_log` prints; `none` where it fails. -/
def Records.actionLog (h : Host) (g : Graph) (s : Records) (id : Bytes) : Option Bytes :=
  match s.logs (actionLogName id) with
  | some text => some text
  | none =>
    match stateFind (stateLoad s.files) id with
    | none => none
    | some e =>
      match prepareLazyAction h g id with
      | .error _ => none
      | .ok _ => some (exitText e)

/-- The entries of the actions that a build ran or skipped. -/
structure Pushed where
  entries : List StateEntry
  valid : ∀ e ∈ entries, e.Valid
  status : ∀ e ∈ entries, e.status = ascii "run" ∨ e.status = ascii "skip"

/-- `state_preserve_previous_unvisited` -/
def preserveUnvisited (prev next : List StateEntry) : List StateEntry :=
  prev.foldl (fun next e => if (stateFind next e.id).isSome then next else next ++ [e]) next

/-- A build in which nothing fails pushes its entries and stops after some renames of the state
files. A build in which an action fails only leaves the log of that action. -/
inductive Event where
  | build (pushed : Pushed) (dump : Bool) (renames : Nat)
  | fail (id : Bytes) (f : Failure)

def Records.next (s : Records) (pushed : Pushed) : List StateEntry :=
  preserveUnvisited (stateLoad s.files) pushed.entries

/-- The renames at the end of a build. -/
def Records.writes (s : Records) (pushed : Pushed) (dump : Bool) : List Rename :=
  stateWrite s.files (stateLoad s.files) (s.next pushed) dump

/-- The build stops before it has recorded anything. -/
def Records.stopped (s : Records) (pushed : Pushed) (dump : Bool) (renames : Nat) : Bool :=
  !(s.writes pushed dump).isEmpty && renames = 0

/-- Whether a build ran an action. -/
def Pushed.ran (pushed : Pushed) (id : Bytes) : Bool :=
  pushed.entries.any fun e => e.id = id && e.status = ascii "run"

def Records.record (s : Records) (pushed : Pushed) (dump : Bool) (renames : Nat) : Records where
  files := ((s.writes pushed dump).take renames).foldl Rename.apply s.files
  logs := s.logs
  latest := fun id => if pushed.ran id then some .success else s.latest id

def Records.step (s : Records) : Event → Records
  | .build pushed dump renames =>
    if s.stopped pushed dump renames then s else s.record pushed dump renames
  | .fail id f =>
    { s with
      logs := Function.update s.logs (actionLogName id) (some f.text)
      latest := Function.update s.latest id (some (.failure f)) }

/-- A build records an execution only where no log of an earlier failure is in the way, and
writes what can be read back. A failure takes no log name from another recorded action. -/
def Event.Meets (s : Records) : Event → Prop
  | .build pushed dump renames => s.stopped pushed dump renames = true ∨
      (∀ id, pushed.ran id = true → s.logs (actionLogName id) = none) ∧
      (s.writes pushed dump = [] ∨ WithinLimits (s.next pushed) ∨
        dump = true ∧ 2 ≤ renames ∧ (s.next pushed).length < 2 ^ 64 ∧ PlainDump (s.next pushed))
  | .fail id f => ∀ other, other ≠ id → actionLogName other = actionLogName id →
      ∀ outcome, s.latest other = some outcome → outcome.Tells f.text

/-! ## Entries that are kept -/

theorem stateFind_append (entries : List StateEntry) (e : StateEntry) (id : Bytes) :
    stateFind (entries ++ [e]) id =
      (stateFind entries id).or (if e.id = id then some e else none) := by
  simp [stateFind, List.find?_append, List.find?_singleton]

/-- An action keeps the entry of the last build that visited it. -/
theorem stateFind_preserve (prev next : List StateEntry) (id : Bytes) :
    stateFind (preserveUnvisited prev next) id = (stateFind next id).or (stateFind prev id) := by
  unfold preserveUnvisited
  induction prev generalizing next with
  | nil => simp [stateFind]
  | cons e rest ih =>
    rw [List.foldl_cons, ih]
    have hcons : stateFind (e :: rest) id = if e.id = id then some e else stateFind rest id := by
      by_cases he : e.id = id <;> simp [stateFind, he]
    rw [hcons]
    by_cases he : e.id = id
    · subst he
      cases hfind : stateFind next e.id with
      | none => simp [hfind, stateFind_append]
      | some old => simp [hfind]
    · by_cases hkept : (stateFind next e.id).isSome = true
      · simp [hkept, he]
      · simp [hkept, he, stateFind_append]

theorem mem_preserve {prev next : List StateEntry} {e : StateEntry}
    (h : e ∈ preserveUnvisited prev next) : e ∈ prev ∨ e ∈ next := by
  unfold preserveUnvisited at h
  induction prev generalizing next with
  | nil => exact .inr h
  | cons first rest ih =>
    rw [List.foldl_cons] at h
    rcases ih h with hrest | hnext
    · exact .inl (List.mem_cons_of_mem _ hrest)
    · split at hnext
      · exact .inr hnext
      · rcases List.mem_append.mp hnext with hnext | hfirst
        · exact .inr hnext
        · exact .inl (List.mem_singleton.mp hfirst ▸ List.mem_cons_self)

/-! ## What a build leaves -/

/-- An entry as builds make them. -/
def Made (e : StateEntry) : Prop := e.Valid ∧ (e.status = ascii "run" ∨ e.status = ascii "skip")

/-- The log and the state tell of every recorded action how it ended. -/
structure Records.Faithful (s : Records) : Prop where
  made : ∀ e ∈ stateLoad s.files, Made e
  success : ∀ id, s.latest id = some .success →
    s.logs (actionLogName id) = none ∧ (stateFind (stateLoad s.files) id).isSome = true
  failure : ∀ id f, s.latest id = some (.failure f) → s.logs (actionLogName id) = some f.text

theorem isLazySuccess_exitText {e : StateEntry} (h : Made e) :
    isLazySuccess (exitText e) = true := by
  rcases h.2 with hrun | hskip
  · simp [exitText, hrun, isLazySuccess]
  · rw [exitText, hskip]
    decide

/-- The loaded entries after a build that recorded something. -/
theorem load_record {s : Records} {pushed : Pushed} {dump : Bool} {renames : Nat}
    (hmade : ∀ e ∈ s.next pushed, Made e) (hreached : s.stopped pushed dump renames = false)
    (hwritten : s.writes pushed dump = [] ∨ WithinLimits (s.next pushed) ∨
      dump = true ∧ 2 ≤ renames ∧ (s.next pushed).length < 2 ^ 64 ∧ PlainDump (s.next pushed)) :
    (s.writes pushed dump = [] ∧
        stateLoad (s.record pushed dump renames).files = stateLoad s.files) ∨
      stateLoad (s.record pushed dump renames).files = s.next pushed := by
  have hvalid : ∀ e ∈ s.next pushed, e.Valid := fun e he => (hmade e he).1
  have hcases : s.writes pushed dump = [] ∨
      s.writes pushed dump = [.db (s.next pushed)] ∧ dump = false ∨
      s.writes pushed dump = [.db (s.next pushed), .json (s.next pushed)] ∧ dump = true :=
    stateWrite_cases _ _ _ _
  rcases hcases with hnone | ⟨hw, hdump⟩ | ⟨hw, hdump⟩
  · exact .inl ⟨hnone, by simp [Records.record, hnone]⟩
  · right
    obtain ⟨n, rfl⟩ : ∃ n, renames = n + 1 := Nat.exists_eq_succ_of_ne_zero
      (by simpa [Records.stopped, hw] using hreached)
    have hfiles : (s.record pushed dump (n + 1)).files =
        { s.files with db := .content (stateDbBytes (s.next pushed)) } := by
      simp [Records.record, hw, Rename.apply]
    rcases hwritten with hnone | hlimits | ⟨hplain, -⟩
    · simp [hw] at hnone
    · exact load_of_holds hvalid ⟨by rw [hfiles], hlimits⟩
    · simp [hdump] at hplain
  · right
    obtain ⟨n, rfl⟩ : ∃ n, renames = n + 1 := Nat.exists_eq_succ_of_ne_zero
      (by simpa [Records.stopped, hw] using hreached)
    have hdb : (s.record pushed dump (n + 1)).files.db =
        .content (stateDbBytes (s.next pushed)) := by
      cases n <;> simp [Records.record, hw, Rename.apply]
    rcases hwritten with hnone | hlimits | ⟨-, htwo, hsized, hplain⟩
    · simp [hw] at hnone
    · exact load_of_holds hvalid ⟨hdb, hlimits⟩
    · by_cases hlimits : WithinLimits (s.next pushed)
      · exact load_of_holds hvalid ⟨hdb, hlimits⟩
      · obtain ⟨m, rfl⟩ : ∃ m, n = m + 1 := Nat.exists_eq_succ_of_ne_zero (by omega)
        have hjson : (s.record pushed dump (m + 1 + 1)).files.json =
            .content (dumpText (s.next pushed)) := by
          simp [Records.record, hw, Rename.apply]
        refine load_of_dump hvalid ?_ hjson hplain
        rw [hdb, Slot.fopen_content, Option.bind_some]
        exact stateDbLoad_over_limits hvalid hsized hlimits

/-- Every action a build visited has an entry in what it leaves. -/
theorem find_of_unchanged {prev next : List StateEntry} {e : StateEntry}
    (h : stateUnchanged prev next = true) (he : e ∈ next) :
    (stateFind prev e.id).isSome = true := by
  simp only [stateUnchanged, Bool.and_eq_true, List.all_eq_true] at h
  have hentry := h.2 e he
  cases hfind : stateFind prev e.id with
  | none => simp [hfind] at hentry
  | some p => rfl

theorem unchanged_of_writes {s : Records} {pushed : Pushed} {dump : Bool}
    (h : s.writes pushed dump = []) :
    stateUnchanged (stateLoad s.files) (s.next pushed) = true := by
  simp only [Records.writes, stateWrite] at h
  split at h
  · rename_i hunchanged
    simp only [Bool.and_eq_true] at hunchanged
    exact hunchanged.1.1
  · split at h
    · cases h
    · split at h <;> cases h

/-- A recorded build leaves an entry of each action that had one or was visited. -/
theorem find_record {s : Records} {pushed : Pushed} {dump : Bool} {renames : Nat}
    (hload : (s.writes pushed dump = [] ∧
        stateLoad (s.record pushed dump renames).files = stateLoad s.files) ∨
      stateLoad (s.record pushed dump renames).files = s.next pushed) {id : Bytes}
    (hfound : (stateFind (stateLoad s.files) id).isSome = true ∨ pushed.ran id = true) :
    (stateFind (stateLoad (s.record pushed dump renames).files) id).isSome = true := by
  have hnext : (stateFind (s.next pushed) id).isSome = true := by
    unfold Records.next
    rw [stateFind_preserve, Option.isSome_or]
    rcases hfound with hprev | hran
    · simp [hprev]
    · simp only [Pushed.ran, List.any_eq_true, Bool.and_eq_true, decide_eq_true_eq] at hran
      obtain ⟨e, he, hid, -⟩ := hran
      have hsome : (stateFind pushed.entries id).isSome = true := by
        simp only [stateFind, List.find?_isSome, decide_eq_true_eq]
        exact ⟨e, he, hid⟩
      simp [hsome]
  rcases hload with ⟨hnone, hsame⟩ | hwritten
  · rw [hsame]
    obtain ⟨e, he⟩ := Option.isSome_iff_exists.mp hnext
    have hid : e.id = id := by simpa using List.find?_some he
    exact hid ▸ find_of_unchanged (unchanged_of_writes hnone) (List.mem_of_find?_eq_some he)
  · rw [hwritten]
    exact hnext

/-- What a build keeps. -/
theorem faithful_record {s : Records} {pushed : Pushed} {dump : Bool} {renames : Nat}
    (hfaithful : s.Faithful) (hreached : s.stopped pushed dump renames = false)
    (hlogs : ∀ id, pushed.ran id = true → s.logs (actionLogName id) = none)
    (hwritten : s.writes pushed dump = [] ∨ WithinLimits (s.next pushed) ∨
      dump = true ∧ 2 ≤ renames ∧ (s.next pushed).length < 2 ^ 64 ∧ PlainDump (s.next pushed)) :
    (s.record pushed dump renames).Faithful := by
  have hmade : ∀ e ∈ s.next pushed, Made e := by
    intro e he
    rcases mem_preserve he with hprev | hpushed
    · exact hfaithful.made e hprev
    · exact ⟨pushed.valid e hpushed, pushed.status e hpushed⟩
  have hload := load_record hmade hreached hwritten
  constructor
  case made =>
    rcases hload with ⟨-, hsame⟩ | hnext
    · rw [hsame]
      exact hfaithful.made
    · rw [hnext]
      exact hmade
  case success =>
    intro id hlatest
    simp only [Records.record] at hlatest
    split at hlatest
    · rename_i hran
      exact ⟨hlogs id hran, find_record hload (.inr hran)⟩
    · obtain ⟨hnone, hfound⟩ := hfaithful.success id hlatest
      exact ⟨hnone, find_record hload (.inl hfound)⟩
  case failure =>
    intro id f hlatest
    simp only [Records.record] at hlatest
    split at hlatest
    · cases hlatest
    · exact hfaithful.failure id f hlatest

theorem printUnsigned_zero_inj {code : Nat} (h : printUnsigned 10 code = ascii "0") : code = 0 :=
  printUnsigned_injective (h.trans (by decide : ascii "0" = printUnsigned 10 0))

/-- No failure is logged as a success. -/
theorem isLazySuccess_text (f : Failure) : isLazySuccess f.text = false := by
  cases f with
  | expectMissing => decide
  | exit code nonzero =>
    have hzero : printUnsigned 10 code ≠ ascii "0" := fun h => nonzero (printUnsigned_zero_inj h)
    have hskip : printUnsigned 10 code ≠ ascii "skip" := by
      intro h
      have hdigit : isDigit 115 = true := printUnsigned_isDigit (n := code) (by rw [h]; decide)
      revert hdigit
      decide
    simp [isLazySuccess, Failure.text, hzero, hskip]

/-- What a failure keeps. -/
theorem faithful_fail {s : Records} {id : Bytes} {f : Failure} (hfaithful : s.Faithful)
    (hmeets : (Event.fail id f).Meets s) : (s.step (.fail id f)).Faithful := by
  constructor
  case made => exact hfaithful.made
  case success =>
    intro other hlatest
    by_cases hid : other = id
    · subst hid
      simp [Records.step] at hlatest
    · simp only [Records.step, Function.update_of_ne hid] at hlatest ⊢
      obtain ⟨hnone, hfound⟩ := hfaithful.success other hlatest
      refine ⟨?_, hfound⟩
      by_cases hname : actionLogName other = actionLogName id
      · -- the log would tell that the other action failed
        have htells := hmeets other hid hname _ hlatest
        rw [Outcome.Tells, isLazySuccess_text] at htells
        cases htells
      · rwa [Function.update_of_ne hname]
  case failure =>
    intro other f' hlatest
    by_cases hname : actionLogName other = actionLogName id
    · simp only [Records.step]
      rw [hname, Function.update_self]
      by_cases hid : other = id
      · subst hid
        simp only [Records.step, Function.update_self, Option.some.injEq,
          Outcome.failure.injEq] at hlatest
        rw [hlatest]
      · simp only [Records.step, Function.update_of_ne hid] at hlatest
        rw [hmeets other hid hname _ hlatest]
    · have hid : other ≠ id := fun h => hname (h ▸ rfl)
      simp only [Records.step, Function.update_of_ne hid, Function.update_of_ne hname] at hlatest ⊢
      exact hfaithful.failure other f' hlatest

theorem faithful_step {s : Records} {event : Event} (hmeets : event.Meets s)
    (hfaithful : s.Faithful) : (s.step event).Faithful := by
  cases event with
  | fail id f => exact faithful_fail hfaithful hmeets
  | build pushed dump renames =>
    cases hstopped : s.stopped pushed dump renames with
    | true => simpa [Records.step, hstopped] using hfaithful
    | false =>
      rcases hmeets with hstops | ⟨hlogs, hwritten⟩
      · rw [hstopped] at hstops
        cases hstops
      · simpa [Records.step, hstopped] using faithful_record hfaithful hstopped hlogs hwritten

/-- Along a history whose steps meet the condition, the action log tells how the latest recorded
execution of every action ended, as long as the id of one that succeeded can be resolved. -/
theorem action_log_tells_latest (h : Host) (g : Graph) {s : Records}
    (hrun : ReachableWhere Records.step (fun s event => event.Meets s) .start s) {id : Bytes}
    {outcome : Outcome} (hlatest : s.latest id = some outcome)
    (hresolves : outcome = .success → (prepareLazyAction h g id).toOption.isSome = true) :
    ∃ text, s.actionLog h g id = some text ∧ outcome.Tells text := by
  have hstart : Records.start.Faithful := by
    constructor
    case made => simp [Records.start, stateLoad, Slot.fopen]
    case success => simp [Records.start]
    case failure => simp [Records.start]
  have hfaithful : s.Faithful :=
    hrun.invariant Records.Faithful hstart fun _ _ hmeets hf => faithful_step hmeets hf
  cases outcome with
  | failure f =>
    have hlog := hfaithful.failure id f hlatest
    exact ⟨f.text, by simp [Records.actionLog, hlog], rfl⟩
  | success =>
    obtain ⟨hnone, hfound⟩ := hfaithful.success id hlatest
    obtain ⟨e, he⟩ := Option.isSome_iff_exists.mp hfound
    obtain ⟨a, ha⟩ := QStar.Lib.Results.exists_eq_ok (hresolves rfl)
    refine ⟨exitText e, by simp [Records.actionLog, hnone, he, ha], ?_⟩
    exact isLazySuccess_exitText (hfaithful.made e (List.mem_of_find?_eq_some he))

/-! ## A failure before a success -/

def logTarget : Target where
  label := ascii "//:app"
  name := ascii "app"
  kind := .exe
  sources := [ascii "main.c"]
  label_ne := app_label_ne
  sources_lt := Target.main_source_lt

def logGraph : Graph where
  host := ascii "linux"
  platform := []
  buildDir := ascii "build"
  targets := [logTarget]
  genrules := []
  stages := []
  toolsets := []
  languages := []
  labels_nodup := by decide
  objectlib_objects := by decide
  objects_objectlib := by decide

def logHost : Host := ⟨fun _ => none, fun _ => false⟩

/-- The id of the compile of `main.c`. -/
def mainId : Bytes := ascii "//:app:compile:0"

/-- A build that runs the compile. -/
def mainRun : Pushed where
  entries := [{ sampleEntry (ascii "1") with id := mainId }]
  valid := by
    intro e he
    obtain rfl := List.mem_singleton.mp he
    exact ⟨by decide, by decide, by decide, by decide⟩
  status := by decide

theorem action_log_tells_main :
    ∃ text, (Records.start.step (.build mainRun false 1)).actionLog logHost logGraph mainId =
      some text ∧ Outcome.success.Tells text := by
  have hmeets : (Event.build mainRun false 1).Meets .start := by
    refine .inr ⟨fun _ _ => rfl, .inr (.inl ?_)⟩
    have hnext : Records.start.next mainRun = mainRun.entries := by decide
    rw [hnext]
    exact ⟨by decide, by decide⟩
  exact action_log_tells_latest logHost logGraph (.next _ .refl hmeets)
    (show _ = some Outcome.success by decide) fun _ => by decide

/-- The compile fails, then a build runs it. The action log still tells of the failure. -/
def failThenRun : List Event :=
  [.fail mainId (.exit 1 (by decide)), .build mainRun false 1]

theorem failure_log_survives : ∃ s, Reachable Records.step .start s ∧
    s.latest mainId = some .success ∧
    (prepareLazyAction logHost logGraph mainId).toOption.isSome = true ∧
    ¬∃ text, s.actionLog logHost logGraph mainId = some text ∧ Outcome.success.Tells text := by
  refine ⟨failThenRun.foldl Records.step .start, reachable_foldl _ _ _, by decide,
    by decide, ?_⟩
  have hlog : (failThenRun.foldl Records.step .start).actionLog logHost logGraph mainId =
      some (ascii "1") := by decide
  rintro ⟨text, htext, htells⟩
  rw [hlog, Option.some.injEq] at htext
  subst htext
  revert htells
  simp [Outcome.Tells, isLazySuccess, ascii]

end QStar.Stella.Logs
