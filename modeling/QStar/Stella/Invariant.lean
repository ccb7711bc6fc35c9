import QStar.Stella.Build

/-!
# What holds throughout a build

Every visited action keeps the inputs and the key it was prepared with: whatever
its key covers has been digested, and digests are not taken twice. Recorded
dependencies belong to a depfile as some visited action read it.
-/
namespace QStar.Stella

open QStar.Lib.CStrings
open QStar.Base

/-- What preparing has established about an action, as the build sees the files. -/
structure PreparedIn (set : Setting) (b : Build) (p : Prepared) : Prop where
  depInputs : p.depInputs = listedBy b.prevDeps p.action.depfile p.depfileState
  inputs : p.inputs = appendUnique p.action.staticInputs p.depInputs
  digested : ∀ rel ∈ p.inputs ++ p.depInputs, (b.memo rel).isSome = true
  key : p.key = actionKey set p.action b.seen p.inputs p.depInputs p.action.keyOutput
  depfile : p.action.depfile = none → p.depfileState = none

structure Invariant (set : Setting) (b : Build) : Prop where
  prepared : ∀ id phase p, b.actions id = some (phase, p) →
    p.action.id = id ∧ PreparedIn set b p
  keyed : ∀ id phase p, b.actions id = some (phase, p) →
    phase = .skipped ∨ phase = .finished → b.next id = some p.key
  hit : ∀ id p, b.actions id = some (.skipped, p) → b.prev id = some p.key
  queued : ∀ p ∈ b.refresh,
    b.actions p.action.id = some (.finished, p) ∧ p.action.depfile.isSome = true
  queue : ∀ id p, b.actions id = some (.finished, p) → p.action.depfile.isSome = true →
    p ∈ b.refresh
  deps : ∀ depfile entry, (depfile, entry) ∈ b.nextDeps → ∃ id phase p st,
    b.actions id = some (phase, p) ∧ p.action.depfile = some depfile ∧
    p.depfileState = some st ∧ entry = depEntryFor b.prevDeps depfile st
  recorded : ∀ id phase p depfile st, b.actions id = some (phase, p) →
    p.action.depfile = some depfile → p.depfileState = some st →
    ∃ entry, (depfile, entry) ∈ b.nextDeps

/-- A path that was digested is seen as it was then, whatever happens to the file. -/
theorem seen_of_digested {b : Build} {rel : Bytes} (h : (b.memo rel).isSome = true)
    (path : Bytes) (content : Option FileState) :
    (b.setFile path content).seen rel = b.seen rel := by
  obtain ⟨st, hst⟩ := Option.isSome_iff_exists.mp h
  simp [Build.seen, Build.setFile, hst]

@[simp] theorem seen_remember (b : Build) (paths : List Bytes) :
    (b.remember paths).seen = b.seen := by
  funext rel
  unfold Build.seen Build.remember
  by_cases h : rel ∈ paths
  · simp [h, Build.seen]
  · simp [h]

/-- A prepared action stays so while the memo grows and the build sees the same of it. -/
theorem PreparedIn.mono {set : Setting} {b b' : Build} {p : Prepared} (h : PreparedIn set b p)
    (hdeps : b'.prevDeps = b.prevDeps)
    (hmemo : ∀ rel, (b.memo rel).isSome = true → (b'.memo rel).isSome = true)
    (hseen : ∀ rel, (b.memo rel).isSome = true → b'.seen rel = b.seen rel) :
    PreparedIn set b' p where
  depInputs := by rw [hdeps]; exact h.depInputs
  inputs := h.inputs
  digested := fun rel hrel => hmemo rel (h.digested rel hrel)
  key := by
    have hsame : ∀ rel ∈ p.inputs ++ p.depInputs, b.seen rel = b'.seen rel :=
      fun rel hrel => (hseen rel (h.digested rel hrel)).symm
    rw [h.key]
    refine actionKey_congr ?_ ?_
    · intro rel hrel
      rw [SameStamp, hsame rel (List.mem_append_left _ hrel)]
    · intro rel hrel
      rw [SameStamp, hsame rel (List.mem_append_right _ hrel)]
  depfile := h.depfile

theorem invariant_start (set : Setting) (saved : Saved) : Invariant set (Build.start saved) where
  prepared := by intro id phase p h; cases h
  keyed := by intro id phase p h; cases h
  hit := by intro id p h; cases h
  queued := by intro p h; cases h
  queue := by intro id p h; cases h
  deps := by intro depfile entry h; cases h
  recorded := by intro id phase p depfile st h; cases h

section Steps

variable {set : Setting} {b b' : Build}

/-- Changes of files leave everything else as it is. -/
theorem Invariant.setFile_step (h : Invariant set b) (path : Bytes) (content : Option FileState) :
    Invariant set (b.setFile path content) where
  prepared := by
    intro id phase p hp
    obtain ⟨hid, hprep⟩ := h.prepared id phase p hp
    exact ⟨hid, hprep.mono rfl (fun _ hm => hm) (fun _ hm => seen_of_digested hm path content)⟩
  keyed := h.keyed
  hit := h.hit
  queued := h.queued
  queue := h.queue
  deps := h.deps
  recorded := h.recorded

/-- What preparing an action does. -/
theorem prepare_inv {a : Action} (hstep : b.prepare set a = some b') :
    ∃ depInputs, depInputs = listedBy b.prevDeps a.depfile (depfileOnDisk b.disk a) ∧
      (∀ rel ∈ depInputs, b.disk rel ≠ none) ∧
      b' = ((b.remember ((b.prepared set a depInputs).inputs ++ depInputs)).recordDeps a
        (recordFor b.prevDeps a.depfile (depfileOnDisk b.disk a))).setAction .prepared
          (b.prepared set a depInputs) := by
  unfold Build.prepare at hstep
  split at hstep
  · cases hstep
  · rename_i depInputs entry hdiscover
    obtain ⟨hlisted, hentry, hexist⟩ := discoverInputs_ok_iff.mp hdiscover
    refine ⟨depInputs, hlisted, hexist, ?_⟩
    cases hstep
    rw [hentry]
    rfl

theorem remember_isSome {paths : List Bytes} {rel : Bytes}
    (h : rel ∈ paths ∨ (b.memo rel).isSome = true) :
    ((b.remember paths).memo rel).isSome = true := by
  by_cases hmem : rel ∈ paths
  · simp [Build.remember, hmem]
  · simpa [Build.remember, hmem] using h.resolve_left hmem

/-- Preparing a new action keeps the invariant. -/
theorem Invariant.prepare_step (h : Invariant set b) {a : Action} (hnew : b.actions a.id = none)
    (hstep : b.prepare set a = some b') : Invariant set b' := by
  obtain ⟨depInputs, hlisted, -, rfl⟩ := prepare_inv hstep
  have hother : ∀ {id phase} {p : Prepared}, b.actions id = some (phase, p) → id ≠ a.id := by
    intro id phase p hp hid
    rw [hid, hnew] at hp
    cases hp
  have hold : ∀ {id phase} {p : Prepared},
      (((b.remember ((b.prepared set a depInputs).inputs ++ depInputs)).recordDeps a
        (recordFor b.prevDeps a.depfile (depfileOnDisk b.disk a))).setAction .prepared
          (b.prepared set a depInputs)).actions id = some (phase, p) →
      (id = a.id ∧ phase = .prepared ∧ p = b.prepared set a depInputs) ∨
        b.actions id = some (phase, p) := by
    intro id phase p hp
    by_cases hid : id = a.id
    · subst hid
      have hself := Build.setAction_self ((b.remember
        ((b.prepared set a depInputs).inputs ++ depInputs)).recordDeps a
          (recordFor b.prevDeps a.depfile (depfileOnDisk b.disk a))) .prepared
            (b.prepared set a depInputs)
      rw [show (b.prepared set a depInputs).action.id = a.id from rfl, hp] at hself
      cases hself
      exact .inl ⟨rfl, rfl, rfl⟩
    · right
      rw [Build.setAction_ne _ _ _ hid] at hp
      simpa using hp
  constructor
  case prepared =>
    intro id phase p hp
    rcases hold hp with ⟨rfl, -, rfl⟩ | hp
    · refine ⟨rfl, ?_⟩
      constructor
      case depInputs =>
        simp only [Build.setAction_prevDeps, Build.recordDeps_prevDeps, Build.remember_prevDeps]
        exact hlisted
      case inputs => rfl
      case digested =>
        intro rel hrel
        simp only [Build.setAction_memo, Build.recordDeps_memo]
        exact remember_isSome (.inl hrel)
      case key => simp [Build.prepared]
      case depfile =>
        intro hnone
        have hnone' : a.depfile = none := hnone
        simp [Build.prepared, depfileOnDisk, hnone']
    · obtain ⟨hid, hprep⟩ := h.prepared id phase p hp
      refine ⟨hid, hprep.mono (by simp) ?_ (by simp)⟩
      intro rel hrel
      simp only [Build.setAction_memo, Build.recordDeps_memo]
      exact remember_isSome (.inr hrel)
  case keyed =>
    intro id phase p hp hphase
    rcases hold hp with ⟨-, rfl, -⟩ | hp
    · simp at hphase
    · simpa using h.keyed id phase p hp hphase
  case hit =>
    intro id p hp
    rcases hold hp with ⟨-, hphase, -⟩ | hp
    · cases hphase
    · simpa using h.hit id p hp
  case queued =>
    intro p hp
    obtain ⟨hfinished, hdepfile⟩ := h.queued p (by simpa using hp)
    refine ⟨?_, hdepfile⟩
    rw [Build.setAction_ne _ _ _ (hother hfinished)]
    simpa using hfinished
  case queue =>
    intro id p hp hdepfile
    rcases hold hp with ⟨-, hphase, -⟩ | hp
    · cases hphase
    · simpa using h.queue id p hp hdepfile
  case deps =>
    intro depfile entry hentry
    rw [Build.setAction_nextDeps, Build.mem_recordDeps] at hentry
    rcases hentry with hentry | ⟨hdepfile, hentry⟩
    · obtain ⟨id, phase, p, st, hp, hrest⟩ := h.deps depfile entry (by simpa using hentry)
      refine ⟨id, phase, p, st, ?_, by simpa using hrest⟩
      rw [Build.setAction_ne _ _ _ (hother hp)]
      simpa using hp
    · cases hst : depfileOnDisk b.disk a with
      | none => simp [recordFor, hst] at hentry
      | some st =>
        refine ⟨a.id, .prepared, b.prepared set a depInputs, st, ?_, hdepfile, hst, ?_⟩
        · exact Build.setAction_self _ .prepared (b.prepared set a depInputs)
        · simpa [recordFor, hdepfile, hst, eq_comm] using hentry
  case recorded =>
    intro id phase p depfile st hp hdepfile hst
    rcases hold hp with ⟨-, -, rfl⟩ | hp
    · refine ⟨depEntryFor b.prevDeps depfile st, ?_⟩
      rw [Build.setAction_nextDeps, Build.mem_recordDeps]
      right
      have hdepfile' : a.depfile = some depfile := hdepfile
      have hst' : depfileOnDisk b.disk a = some st := hst
      exact ⟨hdepfile', by simp [recordFor, hdepfile', hst']⟩
    · obtain ⟨entry, hentry⟩ := h.recorded id phase p depfile st hp hdepfile hst
      refine ⟨entry, ?_⟩
      rw [Build.setAction_nextDeps, Build.mem_recordDeps]
      exact .inl (by simpa using hentry)

/-- What a phase change of a prepared action keeps. -/
theorem setAction_eq_some {phase phase' : Phase} {p p' : Prepared} {id : Bytes}
    (hp : (b.setAction phase p).actions id = some (phase', p')) :
    (id = p.action.id ∧ phase' = phase ∧ p' = p) ∨
      (id ≠ p.action.id ∧ b.actions id = some (phase', p')) := by
  by_cases hid : id = p.action.id
  · subst hid
    rw [Build.setAction_self] at hp
    cases hp
    exact .inl ⟨rfl, rfl, rfl⟩
  · rw [Build.setAction_ne _ _ _ hid] at hp
    exact .inr ⟨hid, hp⟩

/-- A visited action moves to its next phase: its key is pushed once it is skipped or
finished, and it joins the refresh queue when it is finished and has a depfile. -/
theorem Invariant.advance (h : Invariant set b) {phase₀ phase : Phase} {p : Prepared}
    {next : Bytes → Option Bytes} {refresh : List Prepared}
    (hp : b.actions p.action.id = some (phase₀, p)) (hphase₀ : phase₀ ≠ .finished)
    (hnext : ∀ id, id ≠ p.action.id → next id = b.next id)
    (hself : phase = .skipped ∨ phase = .finished → next p.action.id = some p.key)
    (hhit : phase = .skipped → b.prev p.action.id = some p.key)
    (hrefresh : ∀ q, q ∈ refresh ↔
      q ∈ b.refresh ∨ (q = p ∧ phase = .finished ∧ p.action.depfile.isSome = true)) :
    Invariant set { b.setAction phase p with next := next, refresh := refresh } := by
  obtain ⟨-, hprep⟩ := h.prepared _ phase₀ p hp
  constructor
  case prepared =>
    intro id phase' q hq
    rcases setAction_eq_some hq with ⟨rfl, rfl, rfl⟩ | ⟨-, hq⟩
    · exact ⟨rfl, hprep.mono rfl (fun _ hm => hm) (fun _ _ => rfl)⟩
    · obtain ⟨hid, hprep'⟩ := h.prepared id phase' q hq
      exact ⟨hid, hprep'.mono rfl (fun _ hm => hm) (fun _ _ => rfl)⟩
  case keyed =>
    intro id phase' q hq hdone
    rcases setAction_eq_some hq with ⟨rfl, rfl, rfl⟩ | ⟨hne, hq⟩
    · exact hself hdone
    · exact (hnext id hne).trans (h.keyed id phase' q hq hdone)
  case hit =>
    intro id q hq
    rcases setAction_eq_some hq with ⟨rfl, hphase, rfl⟩ | ⟨-, hq⟩
    · exact hhit hphase.symm
    · exact h.hit id q hq
  case queued =>
    intro q hq
    rcases (hrefresh q).mp hq with hq | ⟨rfl, rfl, hdepfile⟩
    · obtain ⟨hfin, hdepfile⟩ := h.queued q hq
      have hne : q.action.id ≠ p.action.id := by
        intro hid
        rw [hid, hp] at hfin
        cases hfin
        exact hphase₀ rfl
      exact ⟨(Build.setAction_ne b phase p hne).trans hfin, hdepfile⟩
    · exact ⟨Build.setAction_self b .finished q, hdepfile⟩
  case queue =>
    intro id q hq hdepfile
    rcases setAction_eq_some hq with ⟨-, hphase, rfl⟩ | ⟨-, hq⟩
    · exact (hrefresh q).mpr (.inr ⟨rfl, hphase.symm, hdepfile⟩)
    · exact (hrefresh q).mpr (.inl (h.queue id q hq hdepfile))
  case deps =>
    intro depfile entry hentry
    obtain ⟨id, phase', q, st, hq, hrest⟩ := h.deps depfile entry hentry
    by_cases hid : id = p.action.id
    · subst hid
      rw [hp] at hq
      cases hq
      exact ⟨_, phase, p, st, Build.setAction_self _ _ _, hrest⟩
    · exact ⟨id, phase', q, st, (Build.setAction_ne b phase p hid).trans hq, hrest⟩
  case recorded =>
    intro id phase' q depfile st hq hdepfile hst
    rcases setAction_eq_some hq with ⟨rfl, -, rfl⟩ | ⟨-, hq⟩
    · exact h.recorded _ _ q depfile st hp hdepfile hst
    · exact h.recorded id phase' q depfile st hq hdepfile hst

/-- Launching skips on a hit and starts a process otherwise. -/
theorem Invariant.launch_step (h : Invariant set b) {id : Bytes} {p : Prepared}
    (hp : b.actions id = some (.prepared, p)) : Invariant set (b.launch p) := by
  obtain ⟨rfl, -⟩ := h.prepared id .prepared p hp
  unfold Build.launch
  split
  · rename_i hhit
    simp only [Build.cacheHit, Bool.and_eq_true, decide_eq_true_eq] at hhit
    refine h.advance hp (by decide) (fun id hid => Build.pushKey_ne b _ _ hid)
      (fun _ => Build.pushKey_self b _ _) (fun _ => hhit.1) ?_
    simp
  · refine h.advance hp (by decide) (fun _ _ => rfl) ?_ ?_ ?_
    · simp
    · simp
    · simp

theorem Invariant.finish_step (h : Invariant set b) {id : Bytes} {p : Prepared}
    (hp : b.actions id = some (.running, p)) : Invariant set (b.finish p) := by
  obtain ⟨rfl, -⟩ := h.prepared id .running p hp
  unfold Build.finish
  split
  · rename_i hdepfile
    refine h.advance hp (by decide) (fun id hid => Build.pushKey_ne b _ _ hid)
      (fun _ => Build.pushKey_self b _ _) ?_ ?_
    · simp
    · simp [hdepfile]
  · rename_i hdepfile
    refine h.advance hp (by decide) (fun id hid => Build.pushKey_ne b _ _ hid)
      (fun _ => Build.pushKey_self b _ _) ?_ ?_
    · simp
    · simp [hdepfile]

theorem Invariant.step (h : Invariant set b) {event : Event} (hstep : b.step set event = some b') :
    Invariant set b' := by
  cases event with
  | prepare a =>
    simp only [Build.step] at hstep
    split at hstep
    · rename_i hnew
      exact h.prepare_step hnew hstep
    · cases hstep
  | launch id =>
    simp only [Build.step] at hstep
    split at hstep
    · rename_i p hp
      cases hstep
      exact h.launch_step hp
    · cases hstep
  | write id path content =>
    simp only [Build.step] at hstep
    split at hstep
    · cases hstep
      exact h.setFile_step path content
    · cases hstep
  | finish id =>
    simp only [Build.step] at hstep
    split at hstep
    · rename_i p hp
      cases hstep
      exact h.finish_step hp
    · cases hstep
  | change path content =>
    cases hstep
    exact h.setFile_step path content

theorem Invariant.run (h : Invariant set b) {events : List Event}
    (hrun : b.run set events = some b') : Invariant set b' := by
  induction events generalizing b with
  | nil =>
    cases hrun
    exact h
  | cons event rest ih =>
    obtain ⟨mid, hmid, hrest⟩ := Option.bind_eq_some_iff.mp hrun
    exact ih (h.step hmid) hrest

/-- Phase changes visit no new action. -/
theorem setAction_visited {phase phase' visited : Phase} {p q : Prepared} {id : Bytes}
    (hp : b.actions p.action.id = some (phase', p))
    (hid : (b.setAction phase p).actions id = some (visited, q)) :
    ∃ before, b.actions id = some (before, q) := by
  rcases setAction_eq_some hid with ⟨rfl, rfl, rfl⟩ | ⟨-, hq⟩
  · exact ⟨phase', hp⟩
  · exact ⟨visited, hq⟩

/-- An action is visited only by preparing it. -/
theorem Invariant.visited_of_step (h : Invariant set b) {event : Event} {id : Bytes}
    {phase : Phase} {q : Prepared} (hstep : b.step set event = some b')
    (hid : b'.actions id = some (phase, q)) :
    (∃ before, b.actions id = some (before, q)) ∨ event = .prepare q.action := by
  cases event with
  | prepare a =>
    simp only [Build.step] at hstep
    split at hstep
    · obtain ⟨depInputs, -, -, rfl⟩ := prepare_inv hstep
      rcases setAction_eq_some hid with ⟨rfl, rfl, rfl⟩ | ⟨-, hq⟩
      · exact .inr rfl
      · exact .inl ⟨phase, by simpa using hq⟩
    · cases hstep
  | launch other =>
    left
    simp only [Build.step] at hstep
    split at hstep
    · rename_i p hp
      obtain ⟨rfl, -⟩ := h.prepared other .prepared p hp
      cases hstep
      unfold Build.launch at hid
      split at hid
      · exact setAction_visited (b := b.pushKey p.action.id p.key) hp hid
      · exact setAction_visited hp hid
    · cases hstep
  | write other path content =>
    left
    simp only [Build.step] at hstep
    split at hstep
    · cases hstep
      exact ⟨phase, hid⟩
    · cases hstep
  | finish other =>
    left
    simp only [Build.step] at hstep
    split at hstep
    · rename_i p hp
      obtain ⟨rfl, -⟩ := h.prepared other .running p hp
      cases hstep
      unfold Build.finish at hid
      split at hid
      · exact setAction_visited (b := b.pushKey p.action.id p.key) hp hid
      · exact setAction_visited (b := b.pushKey p.action.id p.key) hp hid
    · cases hstep
  | change path content =>
    cases hstep
    exact .inl ⟨phase, hid⟩

theorem Invariant.visited_of_run (h : Invariant set b) {events : List Event} {id : Bytes}
    {phase : Phase} {q : Prepared} (hrun : b.run set events = some b')
    (hid : b'.actions id = some (phase, q)) :
    (∃ before, b.actions id = some (before, q)) ∨ .prepare q.action ∈ events := by
  induction events generalizing b with
  | nil =>
    cases hrun
    exact .inl ⟨phase, hid⟩
  | cons event rest ih =>
    obtain ⟨mid, hmid, hrest⟩ := Option.bind_eq_some_iff.mp hrun
    rcases ih (h.step hmid) hrest with ⟨before, hbefore⟩ | hmem
    · rcases h.visited_of_step hmid hbefore with hb | rfl
      · exact .inl hb
      · exact .inr (by simp)
    · exact .inr (List.mem_cons_of_mem _ hmem)

end Steps

end QStar.Stella
