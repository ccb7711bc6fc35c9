import QStar.Daemon.Server

/-!
# When the graph in memory is fresh

A graph that has been loaded is guarded: by the watcher, if it is active and
complete, where every authoring file is watched and a change has left a notice;
by the fingerprints otherwise, where a file that still looks as captured has the
evaluated text. Loads and refreshes that end guarded, and edits that do not defeat
the guard, give fresh answers.
-/
namespace QStar.Daemon

open QStar.Lib.CStrings
open QStar.Lib.Runs

/-- The watcher is not relied on. -/
def Server.polling (s : Server) : Bool := !s.watcher.active || s.watcher.incomplete

/-- The queue holds a notice that marks the graph. -/
def Server.queueDirty (s : Server) : Bool := s.watcher.queue.any s.watcher.dirties

/-- An authoring file that looks as it did when it was captured has the evaluated text. -/
def Server.Fingerprinted (s : Server) : Prop :=
  ∀ path text, (path, text) ∈ s.files → ∀ c ∈ s.fps, c.path = path →
    ∀ f, s.disk path = some f → f.stat = c.stat → some f.text = text

/-- Every authoring file is watched. -/
def Server.Watched (s : Server) : Prop :=
  ∀ path text, (path, text) ∈ s.files → (s.watcher.scopeOf path).any Scope.authoring = true

/-- No change of an authoring file can go unseen. -/
def Server.Guarded (s : Server) : Prop :=
  (s.polling = true → s.Fingerprinted) ∧
    (s.polling = false → s.Watched ∧ (s.queueDirty = true ∨ s.Fresh))

/-- A load or a refresh ends guarded. Between the poll and the answer no authoring file gets
another text, and where the fingerprints decide none gets another text with the size and the time
that were captured. -/
def Event.Meets (s : Server) : Event → Prop
  | .edit path file _ =>
    (∀ req, s.phase = .polled req → ∀ text, (path, text) ∈ s.files →
      file.map DiskFile.text = text) ∧
    (s.graphLoaded = true → s.polling = true → ∀ text, (path, text) ∈ s.files →
      ∀ c ∈ s.fps, c.path = path → ∀ f, file = some f → f.stat = c.stat → some f.text = text)
  | .watched => ∀ req loads, s.phase = .watching req [] loads → s.Guarded
  | _ => True

/-- Every authoring file is captured. -/
def Server.Captures (s : Server) : Prop :=
  ∀ path text, (path, text) ∈ s.files → ∃ c ∈ s.fps, c.path = path

/-- After a poll the graph is marked, or what has not been marked is not there. -/
def Server.Polled (s : Server) : Prop :=
  s.watcher.graphDirty = true ∨ (s.polling = true ∧ s.Fingerprinted) ∨
    (s.polling = false ∧ s.Watched ∧ s.Fresh)

/-- What each phase can rely on. -/
def Server.Sound (s : Server) : Prop :=
  match s.phase with
  | .idle => s.graphLoaded = true → s.Captures ∧ s.Guarded ∧ s.watcher.graphDirty = false
  | .evaluating _ => s.graphLoaded = false
  | .capturing _ todo => s.graphLoaded = false ∧
      ∀ path text, (path, text) ∈ s.files → path ∈ todo ∨ ∃ c ∈ s.fps, c.path = path
  | .watching _ _ loads =>
    s.graphLoaded = !loads ∧ s.Captures ∧ s.watcher.graphDirty = false
  | .polled _ => s.graphLoaded = true ∧ s.Captures ∧ s.Polled
  | .building _ => s.graphLoaded = true ∧ s.Captures ∧ s.Guarded ∧ s.watcher.graphDirty = false

/-- What the poll makes of a guarded graph. -/
theorem polled_of_guarded {s : Server} (hguarded : s.Guarded) (req : Request) : ({ s with watcher := s.watcher.poll, phase := .polled req } : Server).Polled := by
  cases hactive : s.watcher.active with
  | false =>
    have hpoll : s.watcher.poll = s.watcher := by simp [Watcher.poll, hactive]
    have hpolling : s.polling = true := by simp [Server.polling, hactive]
    refine .inr (.inl ⟨?_, ?_⟩)
    · simp [Server.polling, hpoll, hactive]
    · exact hguarded.1 hpolling
  | true =>
    by_cases hdirty : s.queueDirty = true
    · left
      simpa [Watcher.poll, hactive, Server.queueDirty] using hdirty
    · have hoverflow : s.watcher.queue.contains .overflow = false := by
        rw [Bool.eq_false_iff]
        intro hmem
        apply hdirty
        exact List.any_eq_true.mpr ⟨.overflow, by simpa using hmem, rfl⟩
      cases hincomplete : s.watcher.incomplete with
      | true =>
        refine .inr (.inl ⟨?_, hguarded.1 ?_⟩)
        · simp [Server.polling, Watcher.poll, hactive, hincomplete]
        · simp [Server.polling, hincomplete]
      | false =>
        have hpolling : s.polling = false := by simp [Server.polling, hactive, hincomplete]
        obtain ⟨hwatched, hseen⟩ := hguarded.2 hpolling
        refine .inr (.inr ⟨?_, ?_, ?_⟩)
        · simp only [Server.polling, Watcher.poll, hactive, hincomplete]
          simpa using hoverflow
        · intro path text hfile
          have := hwatched path text hfile
          simpa [Watcher.poll, hactive, Watcher.scopeOf] using this
        · exact hseen.resolve_left hdirty

/-- A notice changes nothing but the queue. -/
theorem notify_eq (w : Watcher) (path : Bytes) (overflow : Bool) :
    ∃ queue, w.notify path overflow = { w with queue } := by
  unfold Watcher.notify
  split
  · exact ⟨_, rfl⟩
  · exact ⟨w.queue, rfl⟩

@[simp] theorem notify_scopeOf (w : Watcher) (path p : Bytes) (overflow : Bool) :
    (w.notify path overflow).scopeOf p = w.scopeOf p := by
  obtain ⟨queue, hq⟩ := notify_eq w path overflow
  rw [hq]
  rfl

@[simp] theorem notify_dirties (w : Watcher) (path : Bytes) (overflow : Bool) :
    (w.notify path overflow).dirties = w.dirties := by
  funext notice
  cases notice with
  | changed p => simp [Watcher.dirties]
  | overflow => rfl

variable {s : Server} {path : Bytes} {file : Option DiskFile} {overflow : Bool}

theorem polling_edit : (s.step (.edit path file overflow)).polling = s.polling := by
  obtain ⟨queue, hq⟩ := notify_eq s.watcher path overflow
  simp only [Server.step, Server.polling, hq]

theorem textAt_edit_ne {p : Bytes} (h : p ≠ path) :
    (s.step (.edit path file overflow)).textAt p = s.textAt p := by
  simp only [Server.step, Server.textAt, Function.update_of_ne h]

theorem textAt_edit_self :
    (s.step (.edit path file overflow)).textAt path = file.map DiskFile.text := by
  simp only [Server.step, Server.textAt, Function.update_self]

theorem fingerprinted_edit (h : s.Fingerprinted) (hloaded : s.graphLoaded = true)
    (hpolling : s.polling = true) (hmeets : (Event.edit path file overflow).Meets s) :
    (s.step (.edit path file overflow)).Fingerprinted := by
  intro p text hfile c hc hpath f hf hstat
  by_cases hp : p = path
  · subst hp
    simp only [Server.step, Function.update_self] at hf
    exact hmeets.2 hloaded hpolling text hfile c hc hpath f hf hstat
  · simp only [Server.step, Function.update_of_ne hp] at hf
    exact h p text hfile c hc hpath f hf hstat

theorem watched_edit (h : s.Watched) : (s.step (.edit path file overflow)).Watched := by
  intro p text hfile
  simp only [Server.step, notify_scopeOf]
  exact h p text hfile

/-- A watched file does not change without a notice. -/
theorem noticed_edit (hwatched : s.Watched) (hactive : s.watcher.active = true)
    (h : s.queueDirty = true ∨ s.Fresh) :
    (s.step (.edit path file overflow)).queueDirty = true ∨
      (s.step (.edit path file overflow)).Fresh := by
  have hqueue : (s.step (.edit path file overflow)).queueDirty =
      (s.watcher.notify path overflow).queue.any s.watcher.dirties := by
    simp only [Server.queueDirty, Server.step, notify_dirties]
  by_cases hfile : ∃ text, (path, text) ∈ s.files
  · left
    obtain ⟨text, hfile⟩ := hfile
    have hauthoring := hwatched path text hfile
    have hsome : (s.watcher.scopeOf path).isSome = true := Option.isSome_of_any hauthoring
    rw [hqueue, Watcher.notify, hactive, hsome]
    simp only [Bool.and_self, if_true, List.any_append, Bool.or_eq_true, List.any_cons,
      List.any_nil, Bool.or_false]
    right
    cases overflow with
    | true => rfl
    | false => exact hauthoring
  · rcases h with hdirty | hfresh
    · left
      rw [hqueue]
      unfold Watcher.notify
      split
      · rw [List.any_append, Bool.or_eq_true]
        exact .inl hdirty
      · exact hdirty
    · right
      intro p text hp
      have hne : p ≠ path := by
        rintro rfl
        exact hfile ⟨text, hp⟩
      rw [textAt_edit_ne hne]
      exact hfresh p text hp

theorem guarded_edit (h : s.Guarded) (hloaded : s.graphLoaded = true)
    (hmeets : (Event.edit path file overflow).Meets s) :
    (s.step (.edit path file overflow)).Guarded := by
  constructor
  · intro hpolling
    rw [polling_edit] at hpolling
    exact fingerprinted_edit (h.1 hpolling) hloaded hpolling hmeets
  · intro hpolling
    rw [polling_edit] at hpolling
    obtain ⟨hwatched, hseen⟩ := h.2 hpolling
    simp only [Server.polling, Bool.or_eq_false_iff, Bool.not_eq_false'] at hpolling
    exact ⟨watched_edit hwatched, noticed_edit hwatched hpolling.1 hseen⟩

theorem polled_edit {req : Request} (h : s.Polled) (hphase : s.phase = .polled req)
    (hloaded : s.graphLoaded = true) (hmeets : (Event.edit path file overflow).Meets s) :
    (s.step (.edit path file overflow)).Polled := by
  rcases h with hdirty | ⟨hpolling, hprints⟩ | ⟨hpolling, hwatched, hfresh⟩
  · left
    obtain ⟨queue, hq⟩ := notify_eq s.watcher path overflow
    simp only [Server.step, hq]
    exact hdirty
  · exact .inr (.inl ⟨polling_edit.trans hpolling,
      fingerprinted_edit hprints hloaded hpolling hmeets⟩)
  · refine .inr (.inr ⟨polling_edit.trans hpolling, watched_edit hwatched, ?_⟩)
    intro p text hp
    by_cases hpath : p = path
    · subst hpath
      rw [textAt_edit_self]
      exact hmeets.1 req hphase text hp
    · rw [textAt_edit_ne hpath]
      exact hfresh p text hp

theorem addExisting_graphDirty (w : Watcher) (disk : Bytes → Option DiskFile) (path : Bytes)
    (scope : Scope) (refused : Bool) :
    (w.addExisting disk path scope refused).graphDirty = w.graphDirty := by
  unfold Watcher.addExisting
  split
  · rfl
  · split
    · rfl
    · split
      · rfl
      · split <;> rfl

/-- Where the next phase is sound: with the graph in memory and guarded. -/
theorem sound_afterEnsure {req : Request} (hphase : s.phase = afterEnsure req)
    (hloaded : s.graphLoaded = true) (hcaptures : s.Captures) (hguarded : s.Guarded)
    (hclean : s.watcher.graphDirty = false) : s.Sound := by
  unfold Server.Sound
  rw [hphase, afterEnsure]
  cases req.query with
  | true => exact fun _ => ⟨hcaptures, hguarded, hclean⟩
  | false => exact ⟨hloaded, hcaptures, hguarded, hclean⟩

/-- A poll that leads to a hit leaves the graph guarded. -/
theorem guarded_of_polled (hpolled : s.Polled) (hclean : s.watcher.graphDirty = false) :
    s.Guarded := by
  rcases hpolled with hdirty | ⟨hpolling, hprints⟩ | ⟨hpolling, hwatched, hfresh⟩
  · rw [hclean] at hdirty
    cases hdirty
  · refine ⟨fun _ => hprints, fun h => ?_⟩
    rw [hpolling] at h
    cases h
  · refine ⟨fun h => ?_, fun _ => ⟨hwatched, .inr hfresh⟩⟩
    rw [hpolling] at h
    cases h

theorem sound_startCapture {req : Request} (h : s.graphLoaded = false) :
    (s.startCapture req).Sound := by
  refine ⟨h, ?_⟩
  intro path text hfile
  exact .inl (List.mem_map.mpr ⟨_, hfile, rfl⟩)

theorem sound_startLoad (s : Server) (req : Request) : (s.startLoad req).Sound := rfl

theorem sound_failLoad (h : s.graphLoaded = false) : s.failLoad.Sound := by
  intro hloaded
  rw [show s.failLoad.graphLoaded = false from h] at hloaded
  cases hloaded

theorem sound_edit (hsound : s.Sound) (hmeets : (Event.edit path file overflow).Meets s) :
    (s.step (.edit path file overflow)).Sound := by
  have hclean : (s.step (.edit path file overflow)).watcher.graphDirty = s.watcher.graphDirty := by
    obtain ⟨queue, hq⟩ := notify_eq s.watcher path overflow
    simp only [Server.step, hq]
  unfold Server.Sound at hsound ⊢
  have hphase : (s.step (.edit path file overflow)).phase = s.phase := rfl
  rw [hphase, hclean]
  cases hp : s.phase with
  | idle =>
    rw [hp] at hsound
    intro hloaded
    obtain ⟨hcaptures, hguarded, hdirty⟩ := hsound hloaded
    exact ⟨hcaptures, guarded_edit hguarded hloaded hmeets, hdirty⟩
  | evaluating req =>
    rw [hp] at hsound
    exact hsound
  | capturing req todo =>
    rw [hp] at hsound
    exact hsound
  | watching req todo loads =>
    rw [hp] at hsound
    exact hsound
  | polled req =>
    rw [hp] at hsound
    exact ⟨hsound.1, hsound.2.1, polled_edit hsound.2.2 hp hsound.1 hmeets⟩
  | building req =>
    rw [hp] at hsound
    exact ⟨hsound.1, hsound.2.1, guarded_edit hsound.2.2.1 hsound.1 hmeets, hsound.2.2.2⟩

theorem sound_request {req : Request} (hsound : s.Sound) : (s.step (.request req)).Sound := by
  simp only [Server.step]
  split
  · exact hsound
  · rename_i hidle
    split
    · exact sound_startLoad s req
    · rename_i hloaded
      split
      · exact hsound
      · generalize (if req.query then sameGraphIdentity s.identity req
          else sameIdentity s.identity req) = same
        cases same with
        | false => exact sound_startLoad s req
        | true =>
          rw [Server.Sound, not_not.mp hidle] at hsound
          have hthere : s.graphLoaded = true := by simpa using hloaded
          obtain ⟨hcaptures, hguarded, -⟩ := hsound hthere
          exact ⟨hthere, hcaptures, polled_of_guarded hguarded req⟩

theorem sound_loadPlan {inputs : List Bytes} (hsound : s.Sound) :
    (s.step (.loadPlan inputs)).Sound := by
  simp only [Server.step]
  split
  · rename_i req plan hphase hplan
    rw [Server.Sound, hphase] at hsound
    split
    · exact sound_startCapture hsound
    · rwa [Server.Sound, hphase]
  · exact hsound

theorem sound_evaluated {ok stores : Bool} {inputs : List Bytes} (hsound : s.Sound) :
    (s.step (.evaluated ok inputs stores)).Sound := by
  simp only [Server.step]
  split
  · rename_i req hphase
    rw [Server.Sound, hphase] at hsound
    split
    · exact sound_failLoad hsound
    · split
      · split
        · exact sound_failLoad hsound
        · exact sound_startCapture hsound
      · exact sound_startCapture hsound
  · exact hsound

theorem sound_capture (hsound : s.Sound) : (s.step .capture).Sound := by
  simp only [Server.step]
  split
  · rename_i req path todo hphase
    rw [Server.Sound, hphase] at hsound
    obtain ⟨hloaded, hcovered⟩ := hsound
    split
    · exact sound_failLoad hloaded
    · rename_i f hf
      refine ⟨hloaded, ?_⟩
      intro p text hfile
      rcases hcovered p text hfile with hmem | ⟨c, hc, hpath⟩
      · rcases List.mem_cons.mp hmem with rfl | hmem
        · exact .inr ⟨_, List.mem_append_right _ (List.mem_singleton_self _), rfl⟩
        · exact .inl hmem
      · exact .inr ⟨c, List.mem_append_left _ hc, hpath⟩
  · exact hsound

theorem sound_watcher {ev : Event} (hsound : s.Sound)
    (hev : (∃ opens, ev = .openWatcher opens) ∨ ∃ refused, ev = .watch refused) :
    (s.step ev).Sound := by
  rcases hev with ⟨opens, rfl⟩ | ⟨refused, rfl⟩
  · simp only [Server.step]
    split
    · rename_i req hphase
      rw [Server.Sound, hphase] at hsound
      obtain ⟨hloaded, hcovered⟩ := hsound
      refine ⟨hloaded, ?_, rfl⟩
      intro p text hfile
      exact (hcovered p text hfile).resolve_left (by simp)
    · exact hsound
  · simp only [Server.step]
    split
    · rename_i req path scope todo loads hphase
      rw [Server.Sound, hphase] at hsound
      exact ⟨hsound.1, hsound.2.1, by rw [addExisting_graphDirty]; exact hsound.2.2⟩
    · exact hsound

theorem sound_watched (hsound : s.Sound) (hmeets : Event.watched.Meets s) :
    (s.step .watched).Sound := by
  simp only [Server.step]
  split
  · rename_i req hphase
    rw [Server.Sound, hphase] at hsound
    exact sound_afterEnsure rfl rfl hsound.2.1 (hmeets req true hphase) hsound.2.2
  · rename_i req hphase
    rw [Server.Sound, hphase] at hsound
    exact fun _ => ⟨hsound.2.1, hmeets req false hphase, hsound.2.2⟩
  · exact hsound

theorem sound_decide (hsound : s.Sound) : (s.step .decide).Sound := by
  simp only [Server.step]
  split
  · rename_i req hphase
    rw [Server.Sound, hphase] at hsound
    obtain ⟨hloaded, hcaptures, hpolled⟩ := hsound
    split
    · rename_i hhits
      have hclean : s.watcher.graphDirty = false := by
        simp only [Server.hits, Bool.and_eq_true, Bool.not_eq_true'] at hhits
        exact hhits.1
      exact sound_afterEnsure rfl hloaded hcaptures (guarded_of_polled hpolled hclean) hclean
    · exact sound_startLoad s req
  · exact hsound

theorem sound_buildDone {ok opens : Bool} (hsound : s.Sound) :
    (s.step (.buildDone ok opens)).Sound := by
  simp only [Server.step]
  split
  · rename_i req hphase
    rw [Server.Sound, hphase] at hsound
    split
    · exact ⟨hsound.1, hsound.2.1, rfl⟩
    · exact fun _ => hsound.2
  · exact hsound

/-- What one step keeps. -/
theorem sound_step {ev : Event} (hmeets : ev.Meets s) (hsound : s.Sound) : (s.step ev).Sound := by
  cases ev with
  | edit path file overflow => exact sound_edit hsound hmeets
  | otherPlan plan => exact hsound
  | request req => exact sound_request hsound
  | loadPlan inputs => exact sound_loadPlan hsound
  | read path =>
    simp only [Server.step]
    split
    · rename_i req hphase
      rw [Server.Sound, hphase] at hsound
      rwa [Server.Sound, hphase]
    · exact hsound
  | evaluated ok inputs stores => exact sound_evaluated hsound
  | capture => exact sound_capture hsound
  | openWatcher opens => exact sound_watcher hsound (.inl ⟨opens, rfl⟩)
  | watch refused => exact sound_watcher hsound (.inr ⟨refused, rfl⟩)
  | watched => exact sound_watched hsound hmeets
  | decide => exact sound_decide hsound
  | buildDone ok opens => exact sound_buildDone hsound

def entryFile : Bytes := ascii "qstar.lua"

def buildRequest : Request := ⟨ascii "/ws", entryFile, [], [], [], false⟩

end QStar.Daemon
