import QStar.Stella.Flush

/-!
# Building again without a change

A successful build followed by another one of the same actions on the same
files. The second runs nothing when the files the first digested are still as
it saw them and, for each action it ran with a depfile, the refreshed inputs
come out in the order in which preparing lists them. The order condition is
exact for the two input lists.
-/
namespace QStar.Stella.NullBuild

open QStar.Lib.CStrings
open QStar.Base

section Order

variable {α : Type} [DecidableEq α]

/-- The declared inputs that the old depfile lists are the last ones declared, and among the
inputs the new depfile adds to the others they come first, in the declared order. -/
def InDeclaredOrder (declared old new : List α) : Prop :=
  ∃ before covered, declared = before ++ covered ∧ (∀ rel ∈ before, rel ∉ old) ∧
    (∀ rel ∈ covered, rel ∈ old) ∧ covered <+: without new before

theorem without_appendUnique (declared old : List α) :
    without (appendUnique declared old) old = without declared old := by
  obtain ⟨tail, htail, hmem⟩ := appendUnique_eq_append declared old
  rw [htail, without_append, without_eq_nil_iff.mpr hmem, List.append_nil]

/-- What stays of the declared inputs is an initial part of them when both ways of listing
the inputs agree. -/
theorem without_prefix_of_eq {declared old new : List α}
    (h : appendUnique (without declared old) new = appendUnique declared new) :
    ∃ covered, without declared old ++ covered = declared := by
  obtain ⟨tail, htail, -⟩ := appendUnique_eq_append (without declared old) new
  obtain ⟨tail', htail', -⟩ := appendUnique_eq_append declared new
  have hsame : without declared old ++ tail = declared ++ tail' := by
    rw [← htail, ← htail', h]
  exact List.prefix_of_prefix_length_le (List.prefix_append _ tail)
    (hsame ▸ List.prefix_append declared tail') (without_length_le declared old)

/-- Subtracting the old discoveries and appending the new ones gives the list that preparing
gives exactly when the declared order survives. -/
theorem refreshed_eq_prepared_iff {declared old new : List α} (hnew : new.Nodup) :
    appendUnique (without declared old) new = appendUnique declared new ↔
      InDeclaredOrder declared old new := by
  constructor
  · intro h
    obtain ⟨covered, hcovered⟩ := without_prefix_of_eq h
    have hsplit : without declared old ++ without covered old = without declared old := by
      conv_rhs => rw [← hcovered]
      rw [without_append, without_without]
      congr 1
      exact List.filter_congr fun rel _ => by simp
    have hempty : without covered old = [] := by simpa using hsplit
    refine ⟨without declared old, covered, hcovered.symm, ?_, without_eq_nil_iff.mp hempty, ?_⟩
    · intro rel hrel
      exact (mem_without.mp hrel).2
    · rw [appendUnique_of_nodup hnew, appendUnique_of_nodup hnew] at h
      refine ⟨without new declared, ?_⟩
      have hcancel : without declared old ++ without new (without declared old) =
          without declared old ++ (covered ++ without new declared) := by
        rw [h, ← List.append_assoc, hcovered]
      exact (List.append_cancel_left hcancel).symm
  · intro h
    obtain ⟨before, covered, rfl, hbefore, hcovered, rest, hrest⟩ := h
    have hstatic : without (before ++ covered) old = before := by
      rw [without_append, without_eq_self hbefore, without_eq_nil_iff.mpr hcovered,
        List.append_nil]
    have hnodup : (covered ++ rest).Nodup := by
      rw [hrest]
      exact hnew.filter _
    have hrest' : without new (before ++ covered) = rest := by
      have hdisjoint : ∀ rel ∈ rest, rel ∉ covered := fun rel hrel hmem =>
        (List.nodup_append.mp hnodup).2.2 rel hmem rel hrel rfl
      rw [← without_without, ← hrest, without_append, without_eq_self hdisjoint,
        without_eq_nil_iff.mpr (fun _ h => h), List.nil_append]
    rw [hstatic, appendUnique_of_nodup hnew, appendUnique_of_nodup hnew, hrest', ← hrest,
      List.append_assoc]

end Order

/-- What the first build has to leave for the second one to run nothing. -/
structure Undisturbed (set : Setting) (b : Build) : Prop where
  /-- Files are still as they were digested. -/
  digested : ∀ rel st, b.memo rel = some st → SameStamp set rel st (b.disk rel)
  outputs : ∀ id phase p, b.actions id = some (phase, p) → outputsExist b.disk p.action = true
  /-- Skipped actions keep their depfile and what it lists. -/
  depfiles : ∀ id p, b.actions id = some (.skipped, p) →
    depfileOnDisk b.disk p.action = p.depfileState ∧ ∀ rel ∈ p.depInputs, b.disk rel ≠ none
  separate : ∀ id id' phase phase' p p' depfile, b.actions id = some (phase, p) →
    b.actions id' = some (phase', p') → p.action.depfile = some depfile →
    p'.action.depfile = some depfile → id = id'
  /-- Actions that ran with a depfile list their inputs in the declared order and are
  identified by their first output. -/
  order : ∀ id p, b.actions id = some (.finished, p) → p.action.depfile.isSome = true →
    InDeclaredOrder p.action.staticInputs p.depInputs (b.newInputs p.action) ∧
    p.action.keyOutput = p.action.firstOutput

section SecondBuild

variable {set : Setting} {b flushed : Build}

theorem nodup_listedBy (prevDeps : Deps) (depfile : Option Bytes) (st : Option FileState) :
    (listedBy prevDeps depfile st).Nodup := by
  unfold listedBy
  split
  · exact nodup_appendUnique _ List.nodup_nil
  · exact List.nodup_nil

@[simp] theorem listedBy_no_depfile (prevDeps : Deps) (st : Option FileState) :
    listedBy prevDeps none st = [] := rfl

@[simp] theorem listedBy_missing (prevDeps : Deps) (depfile : Option Bytes) :
    listedBy prevDeps depfile none = [] := by
  cases depfile <;> rfl

theorem save_deps_of_find {depfile : Bytes} {entry : DepEntry}
    (h : flushed.nextDeps.find depfile = some entry) :
    flushed.save.deps.find depfile = some entry := by
  simpa [Build.save, Deps.ne_nil_of_find h] using h

theorem save_keys_of_next {id key : Bytes} (h : flushed.next id = some key) :
    flushed.save.keys id = some key := by
  simp [Build.save, h]

/-- The inputs of an action as the second build lists them. -/
def listedAfter (flushed : Build) (a : Action) : List Bytes :=
  listedBy flushed.save.deps a.depfile (depfileOnDisk flushed.save.disk a)

/-- The dependencies of a skipped action are recorded as it read them. -/
theorem listedAfter_skipped (hinv : Invariant set b) (hflush : Flushed set b b.refresh flushed)
    (hquiet : Undisturbed set b) {id : Bytes} {p : Prepared}
    (hp : b.actions id = some (.skipped, p)) : listedAfter flushed p.action = p.depInputs := by
  obtain ⟨-, hprep⟩ := hinv.prepared id .skipped p hp
  have hdisk : depfileOnDisk flushed.save.disk p.action = p.depfileState := by
    rw [← (hquiet.depfiles id p hp).1]
    simp [Build.save, hflush.disk]
  unfold listedAfter
  rw [hdisk, hprep.depInputs]
  cases hdepfile : p.action.depfile with
  | none => simp
  | some depfile =>
    cases hst : p.depfileState with
    | none => simp
    | some st =>
      refine listedBy_of_find (save_deps_of_find ?_)
      rw [hflush.untouched]
      · obtain ⟨entry, hentry⟩ := hinv.recorded id .skipped p depfile st hp hdepfile hst
        obtain ⟨found, hfound⟩ := Deps.find_of_mem hentry
        obtain ⟨id', phase', p', st', hp', hdepfile', hst', hfound'⟩ :=
          hinv.deps depfile found (Deps.mem_of_find hfound)
        obtain rfl := hquiet.separate id id' _ _ p p' depfile hp hp' hdepfile hdepfile'
        rw [hp] at hp'
        cases hp'
        rw [hst] at hst'
        cases hst'
        rw [hfound, hfound']
      · intro q hq hq'
        obtain ⟨hfinished, -⟩ := hinv.queued q hq
        obtain rfl := hquiet.separate id _ _ _ p q depfile hp hfinished hdepfile hq'
        rw [hp] at hfinished
        cases hfinished

/-- The dependencies of a refreshed action are recorded as the flush read them. -/
theorem listedAfter_refreshed (hflush : Flushed set b b.refresh flushed) {p : Prepared}
    (hp : p ∈ b.refresh) : listedAfter flushed p.action = b.newInputs p.action := by
  unfold listedAfter Build.newInputs
  have hdisk : flushed.save.disk = b.disk := hflush.disk
  rw [hdisk]
  cases hdepfile : p.action.depfile with
  | none => simp
  | some depfile =>
    cases hst : b.disk depfile with
    | none => simp [depfileOnDisk, hdepfile, hst]
    | some st =>
      have hfind := hflush.recorded p hp depfile st hdepfile hst
      simp only [depfileOnDisk, hdepfile, hst, Option.bind_some]
      exact listedBy_of_find (save_deps_of_find hfind)

theorem seen_stamp (hquiet : Undisturbed set b) (rel : Bytes) :
    SameStamp set rel (b.seen rel) (b.disk rel) := by
  unfold Build.seen
  cases hmemo : b.memo rel with
  | none => rfl
  | some st => exact hquiet.digested rel st hmemo

/-- The key stored for a visited action is the one the second build computes for it. -/
theorem stored_key (hinv : Invariant set b) (hsettled : b.Settled)
    (hflush : Flushed set b b.refresh flushed) (hquiet : Undisturbed set b) {id : Bytes}
    {phase : Phase} {p : Prepared} (hp : b.actions id = some (phase, p)) :
    (∀ rel ∈ listedAfter flushed p.action, flushed.save.disk rel ≠ none) ∧
    flushed.save.keys id = some (actionKey set p.action flushed.save.disk
      (appendUnique p.action.staticInputs (listedAfter flushed p.action))
      (listedAfter flushed p.action) p.action.keyOutput) := by
  obtain ⟨rfl, hprep⟩ := hinv.prepared id phase p hp
  have hdisk : flushed.save.disk = b.disk := hflush.disk
  have hunchanged : ∀ inputs deps output,
      actionKey set p.action b.seen inputs deps output =
        actionKey set p.action b.disk inputs deps output := by
    intro inputs deps output
    exact actionKey_congr (fun rel _ => seen_stamp hquiet rel) fun rel _ => seen_stamp hquiet rel
  rcases hsettled _ phase p hp with rfl | rfl
  · have hlisted := listedAfter_skipped hinv hflush hquiet hp
    have hnext := next_of_not_refreshed hinv hflush hp (.inl rfl) (by simp)
    rw [hdisk, hlisted]
    refine ⟨(hquiet.depfiles _ p hp).2, ?_⟩
    rw [save_keys_of_next hnext, hprep.key, hprep.inputs, hunchanged]
  · by_cases hdepfile : p.action.depfile.isSome = true
    · have hqueue := hinv.queue _ p hp hdepfile
      have hlisted := listedAfter_refreshed hflush hqueue
      obtain ⟨horder, houtput⟩ := hquiet.order _ p hp hdepfile
      have hinputs : refreshedInputs p (b.newInputs p.action) =
          appendUnique p.action.staticInputs (b.newInputs p.action) := by
        unfold refreshedInputs copyStaticInputs
        rw [hprep.inputs, without_appendUnique]
        exact (refreshed_eq_prepared_iff (nodup_listedBy _ _ _)).mpr horder
      rw [hdisk, hlisted]
      refine ⟨hflush.exist p hqueue, ?_⟩
      rw [save_keys_of_next (hflush.key p hqueue), Build.refreshedKey, hinputs, hunchanged,
        houtput]
    · have hnone : p.action.depfile = none := by simpa using hdepfile
      have hempty : p.depInputs = [] := by
        rw [hprep.depInputs, hnone, listedBy_no_depfile]
      have hlisted : listedAfter flushed p.action = p.depInputs := by
        rw [hempty, listedAfter, hnone, listedBy_no_depfile]
      have hnext := next_of_not_refreshed hinv hflush hp (.inr rfl) (fun _ => by simp [hnone])
      rw [hdisk, hlisted]
      refine ⟨by simp [hempty], ?_⟩
      rw [save_keys_of_next hnext, hprep.key, hprep.inputs, hunchanged]

/-- Steps of a build of the same actions: preparing them again, and launching. -/
def Revisits (b : Build) : Event → Prop
  | .prepare a => ∃ phase p, b.actions a.id = some (phase, p) ∧ p.action = a
  | .launch _ => True
  | _ => False

/-- The second build sees the saved files, and all it has prepared has the stored key. -/
structure Idle (b flushed c : Build) : Prop where
  disk : c.disk = flushed.save.disk
  prev : c.prev = flushed.save.keys
  prevDeps : c.prevDeps = flushed.save.deps
  fresh : ∀ rel st, c.memo rel = some st → st = c.disk rel
  visited : ∀ id phase p, c.actions id = some (phase, p) →
    p.action.id = id ∧ (phase = .prepared ∨ phase = .skipped) ∧
    (∃ phase' p', b.actions id = some (phase', p') ∧ p'.action = p.action) ∧
    flushed.save.keys id = some p.key

variable {c c' : Build}

theorem Idle.seen (h : Idle b flushed c) : c.seen = c.disk := by
  funext rel
  unfold Build.seen
  cases hmemo : c.memo rel with
  | none => rfl
  | some st => exact h.fresh rel st hmemo

/-- Preparing an action again succeeds and gives the stored key. -/
theorem Idle.prepare_eq (h : Idle b flushed c) (hinv : Invariant set b) (hsettled : b.Settled)
    (hflush : Flushed set b b.refresh flushed) (hquiet : Undisturbed set b) {id : Bytes}
    {phase : Phase} {p : Prepared} (hp : b.actions id = some (phase, p)) :
    ∃ q, q.action = p.action ∧ flushed.save.keys id = some q.key ∧
      c.prepare set p.action =
        some (((c.remember (q.inputs ++ q.depInputs)).recordDeps p.action
          (recordFor c.prevDeps p.action.depfile (depfileOnDisk c.disk p.action))).setAction
            .prepared q) := by
  obtain ⟨hexist, hkey⟩ := stored_key hinv hsettled hflush hquiet hp
  have hlisted : listedAfter flushed p.action =
      listedBy c.prevDeps p.action.depfile (depfileOnDisk c.disk p.action) := by
    rw [h.prevDeps, h.disk, listedAfter]
  have hdiscover : discoverInputs c.disk c.prevDeps p.action.depfile =
      .ok (listedAfter flushed p.action,
        recordFor c.prevDeps p.action.depfile (depfileOnDisk c.disk p.action)) := by
    refine discoverInputs_ok_iff.mpr ⟨hlisted, rfl, ?_⟩
    rw [h.disk]
    exact hexist
  refine ⟨c.prepared set p.action (listedAfter flushed p.action), rfl, ?_, ?_⟩
  · simp only [Build.prepared]
    rw [h.seen, h.disk]
    exact hkey
  · unfold Build.prepare
    rw [hdiscover]
    rfl

/-- Everything prepared is a cache hit. -/
theorem Idle.cacheHit (h : Idle b flushed c) (hflush : Flushed set b b.refresh flushed)
    (hquiet : Undisturbed set b) {id : Bytes} {phase : Phase} {p : Prepared}
    (hp : c.actions id = some (phase, p)) : c.cacheHit p = true := by
  obtain ⟨rfl, -, ⟨phase', p', hp', haction⟩, hkey⟩ := h.visited id phase p hp
  have houtputs := hquiet.outputs _ phase' p' hp'
  have hdisk : c.disk = b.disk := h.disk.trans hflush.disk
  rw [haction, ← hdisk] at houtputs
  simp [Build.cacheHit, h.prev, hkey, houtputs]

theorem Idle.step (h : Idle b flushed c) (hinv : Invariant set b) (hsettled : b.Settled)
    (hflush : Flushed set b b.refresh flushed) (hquiet : Undisturbed set b) {event : Event}
    (hevent : Revisits b event) (hstep : c.step set event = some c') : Idle b flushed c' := by
  cases event with
  | prepare a =>
    obtain ⟨phase, p, hp, rfl⟩ := hevent
    obtain ⟨q, haction, hkey, hprepare⟩ := h.prepare_eq hinv hsettled hflush hquiet hp
    simp only [Build.step] at hstep
    split at hstep
    · rw [hprepare] at hstep
      cases hstep
      constructor
      case disk => simpa using h.disk
      case prev => simpa using h.prev
      case prevDeps => simpa using h.prevDeps
      case fresh =>
        intro rel st hmemo
        simp only [Build.setAction_memo, Build.recordDeps_memo, Build.remember] at hmemo
        split at hmemo
        · cases hmemo
          simp [h.seen]
        · simpa using h.fresh rel st hmemo
      case visited =>
        intro id phase' r hr
        rcases setAction_eq_some hr with ⟨rfl, rfl, rfl⟩ | ⟨-, hr⟩
        · rw [haction]
          exact ⟨rfl, .inl rfl, ⟨phase, p, hp, rfl⟩, hkey⟩
        · exact h.visited id phase' r (by simpa using hr)
    · cases hstep
  | launch id =>
    simp only [Build.step] at hstep
    split at hstep
    · rename_i p hp
      cases hstep
      have hhit := h.cacheHit hflush hquiet hp
      rw [Build.launch, if_pos hhit]
      constructor
      case disk => exact h.disk
      case prev => exact h.prev
      case prevDeps => exact h.prevDeps
      case fresh => exact h.fresh
      case visited =>
        intro id' phase' r hr
        rcases setAction_eq_some hr with ⟨rfl, rfl, rfl⟩ | ⟨-, hr⟩
        · obtain ⟨hid, -, hvisited, hkey⟩ := h.visited id .prepared r hp
          exact ⟨rfl, .inr rfl, hid ▸ hvisited, hid ▸ hkey⟩
        · exact h.visited id' phase' r hr
    · cases hstep
  | write id path content => cases hevent
  | finish id => cases hevent
  | change path content => cases hevent

theorem Idle.run (h : Idle b flushed c) (hinv : Invariant set b) (hsettled : b.Settled)
    (hflush : Flushed set b b.refresh flushed) (hquiet : Undisturbed set b) {events : List Event}
    (hevents : ∀ event ∈ events, Revisits b event) (hrun : c.run set events = some c') :
    Idle b flushed c' := by
  induction events generalizing c with
  | nil =>
    cases hrun
    exact h
  | cons event rest ih =>
    obtain ⟨mid, hmid, hrest⟩ := Option.bind_eq_some_iff.mp hrun
    have hidle := h.step hinv hsettled hflush hquiet (hevents event (by simp)) hmid
    exact ih hidle (fun e he => hevents e (by simp [he])) hrest

theorem idle_start (b flushed : Build) : Idle b flushed (Build.start flushed.save) where
  disk := rfl
  prev := rfl
  prevDeps := rfl
  fresh := by intro rel st h; cases h
  visited := by intro id phase p h; cases h

end SecondBuild

/-- After a successful build that left its files undisturbed, a build of the same actions
computes the stored keys and starts no process, in whatever order it visits them. -/
theorem null_build_runs_nothing {set : Setting} {saved after : Saved} {events again : List Event}
    {b c : Build} (hbuild : buildSucceeds set saved events b after) (hquiet : Undisturbed set b)
    (hagain : ∀ event ∈ again, Revisits b event)
    (hrun : (Build.start after).run set again = some c) :
    (∀ id phase p, c.actions id = some (phase, p) →
      after.keys id = some p.key ∧ phase ≠ .running ∧ c.cacheHit p = true) ∧
    (∀ id phase p, b.actions id = some (phase, p) → c.actions id = none →
      ∃ c', c.step set (.prepare p.action) = some c') := by
  obtain ⟨hrun₁, hsettled, flushed, hflush, rfl⟩ := hbuild
  have hinv := (invariant_start set saved).run hrun₁
  have hflushed := hinv.flushed hflush
  have hidle := (idle_start b flushed).run hinv hsettled hflushed hquiet hagain hrun
  constructor
  · intro id phase p hp
    obtain ⟨-, hphase, -, hkey⟩ := hidle.visited id phase p hp
    refine ⟨hkey, ?_, hidle.cacheHit hflushed hquiet hp⟩
    rcases hphase with rfl | rfl
    · decide
    · decide
  · intro id phase p hp hnew
    obtain ⟨rfl, -⟩ := hinv.prepared id phase p hp
    obtain ⟨q, -, -, hprepare⟩ := hidle.prepare_eq hinv hsettled hflushed hquiet hp
    have hstep : c.step set (.prepare p.action) = c.prepare set p.action := by
      simp [Build.step, hnew]
    exact ⟨_, hstep.trans hprepare⟩

/-! ## Two builds of one compile action -/

def plainSetting : Setting := ⟨ascii "build", fun _ => none⟩

/-- A compile action that declares the given inputs. -/
def compileAction (declared : List Bytes) : Action where
  id := ascii "//:a:compile:0"
  kind := ascii "compile"
  owner := ascii "//:a"
  argv := [ascii "cc", ascii "-c", ascii "a.c", ascii "-o", ascii "build/a.o"]
  env := []
  staticInputs := declared
  outputs := [ascii "build/a.o"]
  keyOutput := ascii "build/a.o"
  depfile := some (ascii "build/a.d")
  toolPolicy := []
  externalTools := []
  expectContains := []
  expectFile := []
  outputs_ne := by decide

def objectFile : FileState := ⟨ascii "object", 2⟩

/-- The source comes first, then its headers in the order of inclusion. -/
def dependencyFile : FileState := ⟨ascii "build/a.o: a.c h1.h h2.h\n", 2⟩

def sourceFiles : Disk :=
  writeFile (writeFile (writeFile (fun _ => none) (ascii "a.c") ⟨ascii "source", 1⟩)
    (ascii "h1.h") ⟨ascii "one", 1⟩) (ascii "h2.h") ⟨ascii "two", 1⟩

/-- A tree that was built before, without its database. -/
def builtBefore : Saved :=
  ⟨writeFile (writeFile sourceFiles (ascii "build/a.o") objectFile) (ascii "build/a.d")
    dependencyFile, fun _ => none, []⟩

/-- The action runs and writes its object and its depfile. -/
def compileEvents (a : Action) : List Event :=
  [.prepare a, .launch a.id, .write a.id (ascii "build/a.o") (some objectFile),
    .write a.id (ascii "build/a.d") (some dependencyFile), .finish a.id]

section OneAction

variable {set : Setting} {saved : Saved} {events : List Event} {b : Build} {a : Action}
  {id : Bytes} {phase : Phase} {p q : Prepared}

/-- A build that prepares one action only visits that action. -/
theorem visited_one (hrun : (Build.start saved).run set events = some b)
    (hone : ∀ a', .prepare a' ∈ events → a' = a) (hq : b.actions id = some (phase, q)) :
    q.action = a ∧ id = a.id := by
  have hinv := invariant_start set saved
  obtain ⟨rfl, -⟩ := (hinv.run hrun).prepared id phase q hq
  rcases hinv.visited_of_run hrun hq with ⟨before, hbefore⟩ | hprepare
  · cases hbefore
  · have haction := hone q.action hprepare
    exact ⟨haction, congrArg Action.id haction⟩

/-- A build of one action is settled once the action is. -/
theorem settled_of_one (hrun : (Build.start saved).run set events = some b)
    (hone : ∀ a', .prepare a' ∈ events → a' = a)
    (hp : b.actions a.id = some (.skipped, p) ∨ b.actions a.id = some (.finished, p)) :
    b.Settled := by
  intro id phase q hq
  obtain ⟨-, rfl⟩ := visited_one hrun hone hq
  rcases hp with hp | hp
  · rw [hp] at hq
    cases hq
    exact .inl rfl
  · rw [hp] at hq
    cases hq
    exact .inr rfl

end OneAction

/-- The first build and the flush, and the phase of the action once a second build launched it. -/
def rebuildPhase (a : Action) : Option Phase := do
  let b ← (Build.start builtBefore).run plainSetting (compileEvents a)
  let flushed ← b.flush plainSetting
  let c ← (Build.start flushed.save).run plainSetting [.prepare a, .launch a.id]
  let (phase, _) ← c.actions a.id
  return phase

theorem rebuildPhase_eq_some {a : Action} {phase : Phase} (h : rebuildPhase a = some phase) :
    ∃ b flushed c p, (Build.start builtBefore).run plainSetting (compileEvents a) = some b ∧
      b.flush plainSetting = some flushed ∧
      (Build.start flushed.save).run plainSetting [.prepare a, .launch a.id] = some c ∧
      c.actions a.id = some (phase, p) := by
  simp only [rebuildPhase, Option.bind_eq_bind, Option.bind_eq_some_iff] at h
  obtain ⟨b, hrun, flushed, hflush, c, hagain, ⟨phase', q⟩, hq, hphase⟩ := h
  cases hphase
  exact ⟨b, flushed, c, q, hrun, hflush, hagain, hq⟩

/-- Preparing and launching once more revisits the action. -/
theorem revisits_again {b : Build} {phase : Phase} {p : Prepared}
    (hp : b.actions p.action.id = some (phase, p)) :
    ∀ event ∈ [Event.prepare p.action, Event.launch p.action.id], Revisits b event := by
  intro event hevent
  simp only [List.mem_cons, List.not_mem_nil, or_false] at hevent
  rcases hevent with rfl | rfl
  · exact ⟨phase, p, hp, rfl⟩
  · trivial

/-- The build of `compileEvents` once the old depfile was read. -/
def compiled (a : Action) (listed : List Bytes) (entry : Option DepEntry) : Build :=
  let start := Build.start builtBefore
  let p := start.prepared plainSetting a listed
  let read := (start.remember (p.inputs ++ listed)).recordDeps a entry
  let wrote := (((read.setAction .prepared p).setAction .running p).setFile (ascii "build/a.o")
    (some objectFile)).setFile (ascii "build/a.d") (some dependencyFile)
  wrote.finish p

theorem run_compileEvents {a : Action} {listed : List Bytes} {entry : Option DepEntry}
    (h : discoverInputs builtBefore.disk [] a.depfile = .ok (listed, entry)) :
    (Build.start builtBefore).run plainSetting (compileEvents a) =
      some (compiled a listed entry) := by
  have hprepare : (Build.start builtBefore).prepare plainSetting a = some
      ((((Build.start builtBefore).remember (((Build.start builtBefore).prepared plainSetting a
        listed).inputs ++ listed)).recordDeps a entry).setAction .prepared
          ((Build.start builtBefore).prepared plainSetting a listed)) := by
    have hdiscover : discoverInputs (Build.start builtBefore).disk
        (Build.start builtBefore).prevDeps a.depfile = .ok (listed, entry) := h
    rw [Build.prepare, hdiscover]
  have hnew : (Build.start builtBefore).actions a.id = none := rfl
  have hprev : ∀ id, (Build.start builtBefore).prev id = none := fun _ => rfl
  have haction : ((Build.start builtBefore).prepared plainSetting a listed).action = a := rfl
  have hself : ∀ (b : Build) (phase : Phase), (b.setAction phase ((Build.start builtBefore).prepared
      plainSetting a listed)).actions a.id =
        some (phase, (Build.start builtBefore).prepared plainSetting a listed) :=
    fun b phase => Build.setAction_self b phase _
  simp [Build.run, compileEvents, Build.step, hnew, hprepare, hself, Build.launch, Build.cacheHit,
    hprev, Build.setFile, compiled]

def plainAction : Action := compileAction [ascii "a.c"]

def plainListed : List Bytes := [ascii "a.c", ascii "h1.h", ascii "h2.h"]

def plainEntry : DepEntry := depEntryFor [] (ascii "build/a.d") dependencyFile

/-- The build of the action that declares its source leaves its files undisturbed. -/
theorem undisturbed_compiled :
    Undisturbed plainSetting (compiled plainAction plainListed (some plainEntry)) := by
  have hdiscover : discoverInputs builtBefore.disk [] plainAction.depfile =
      .ok (plainListed, some plainEntry) := by decide +kernel
  have hrun := run_compileEvents hdiscover
  have hone : ∀ a, .prepare a ∈ compileEvents plainAction → a = plainAction := by
    intro a ha
    simpa [compileEvents] using ha
  have hstamps : ∀ rel ∈ plainListed, SameStamp plainSetting rel (builtBefore.disk rel)
      ((compiled plainAction plainListed (some plainEntry)).disk rel) := by
    unfold SameStamp
    decide
  have hfinished : (compiled plainAction plainListed (some plainEntry)).actions plainAction.id =
      some (.finished, (Build.start builtBefore).prepared plainSetting plainAction plainListed) :=
    rfl
  have hmemo : (compiled plainAction plainListed (some plainEntry)).memo = fun rel =>
      if rel ∈ plainListed ++ plainListed then some (builtBefore.disk rel) else none := rfl
  constructor
  case digested =>
    intro rel st hst
    simp only [hmemo] at hst
    split at hst
    · rename_i hlisted
      cases hst
      exact hstamps rel (by simpa using hlisted)
    · cases hst
  case outputs =>
    intro id phase p hp
    rw [(visited_one hrun hone hp).1]
    decide
  case depfiles =>
    intro id p hp
    obtain ⟨-, rfl⟩ := visited_one hrun hone hp
    rw [hfinished] at hp
    cases hp
  case separate =>
    intro id id' phase phase' p p' depfile hp hp' _ _
    rw [(visited_one hrun hone hp).2, (visited_one hrun hone hp').2]
  case order =>
    intro id p hp _
    obtain ⟨-, rfl⟩ := visited_one hrun hone hp
    rw [hfinished] at hp
    cases hp
    refine ⟨⟨[], plainAction.staticInputs, rfl, by simp, by decide, ?_⟩, rfl⟩
    decide

theorem null_build_runs_nothing_plain :
    ∃ b after c p, buildSucceeds plainSetting builtBefore (compileEvents plainAction) b after ∧
      (Build.start after).run plainSetting [.prepare plainAction, .launch plainAction.id] = some c ∧
      c.actions plainAction.id = some (.skipped, p) ∧ after.keys plainAction.id = some p.key := by
  have hphase : rebuildPhase plainAction = some .skipped := by decide +kernel
  obtain ⟨b, flushed, c, q, hrun, hflush, hagain, hq⟩ := rebuildPhase_eq_some hphase
  have hdiscover : discoverInputs builtBefore.disk [] plainAction.depfile =
      .ok (plainListed, some plainEntry) := by decide +kernel
  have hb : compiled plainAction plainListed (some plainEntry) = b := by
    rw [run_compileEvents hdiscover] at hrun
    exact Option.some.inj hrun
  have hone : ∀ a, .prepare a ∈ compileEvents plainAction → a = plainAction := by
    intro a ha
    simpa [compileEvents] using ha
  have hfinished : ∃ p, b.actions plainAction.id = some (.finished, p) := hb ▸ ⟨_, rfl⟩
  obtain ⟨p, hp⟩ := hfinished
  obtain ⟨haction, -⟩ := visited_one hrun hone hp
  have hbuild : buildSucceeds plainSetting builtBefore (compileEvents plainAction) b
      flushed.save := ⟨hrun, settled_of_one hrun hone (.inr hp), flushed, hflush, rfl⟩
  have hrevisits : ∀ event ∈ [Event.prepare plainAction, Event.launch plainAction.id],
      Revisits b event := by
    rw [← haction]
    exact revisits_again (haction ▸ hp)
  have hnull := null_build_runs_nothing hbuild (hb ▸ undisturbed_compiled) hrevisits hagain
  exact ⟨b, flushed.save, c, q, hbuild, hagain, hq, (hnull.1 _ _ q hq).1⟩

/-- The headers are declared in another order than the one they are included in. -/
def reorderedAction : Action := compileAction [ascii "a.c", ascii "h2.h", ascii "h1.h"]

/-- A build of unchanged files may compile again, even when the processes of the first build
wrote every file as it was before. -/
theorem null_build_may_compile :
    ¬ ∀ (set : Setting) (saved after : Saved) (events again : List Event) (b c : Build),
      buildSucceeds set saved events b after →
      (∀ id path content, .write id path content ∈ events → saved.disk path = content) →
      (∀ event ∈ again, Revisits b event) →
      (Build.start after).run set again = some c → ∀ id p, c.actions id ≠ some (.running, p) := by
  intro h
  have hphase : rebuildPhase reorderedAction = some .running := by decide +kernel
  obtain ⟨b, flushed, c, q, hrun, hflush, hagain, hq⟩ := rebuildPhase_eq_some hphase
  have hdiscover : discoverInputs builtBefore.disk [] reorderedAction.depfile =
      .ok (plainListed, some plainEntry) := by decide +kernel
  have hfinished : ∃ p, b.actions reorderedAction.id = some (.finished, p) := by
    rw [run_compileEvents hdiscover] at hrun
    cases hrun
    exact ⟨_, rfl⟩
  obtain ⟨p, hp⟩ := hfinished
  have hone : ∀ a, .prepare a ∈ compileEvents reorderedAction → a = reorderedAction := by
    intro a ha
    simpa [compileEvents] using ha
  obtain ⟨haction, -⟩ := visited_one hrun hone hp
  have hbuild : buildSucceeds plainSetting builtBefore (compileEvents reorderedAction) b
      flushed.save := ⟨hrun, settled_of_one hrun hone (.inr hp), flushed, hflush, rfl⟩
  have hsame : ∀ id path content, .write id path content ∈ compileEvents reorderedAction →
      builtBefore.disk path = content := by
    intro id path content hwrite
    simp only [compileEvents, List.mem_cons, reduceCtorEq, Event.write.injEq, List.not_mem_nil,
      or_false, false_or] at hwrite
    rcases hwrite with ⟨-, rfl, rfl⟩ | ⟨-, rfl, rfl⟩
    · rfl
    · rfl
  have hrevisits : ∀ event ∈ [Event.prepare reorderedAction, Event.launch reorderedAction.id],
      Revisits b event := by
    rw [← haction]
    exact revisits_again (haction ▸ hp)
  exact h _ _ _ _ _ b c hbuild hsame hrevisits hagain _ q hq

end QStar.Stella.NullBuild
