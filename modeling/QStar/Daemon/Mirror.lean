import Mathlib.Data.List.Perm.Subperm
import QStar.Daemon.Resident

/-!
# When the copies in a daemon agree with the disk

What the memory holds is related to what the files give back, and a build of the
daemon under way has loaded what the memory holds. Each event keeps this where
every write is readable and either updates the memory too or writes what it
holds. The relation is equality, or equality of all that decides whether an
action runs.
-/
namespace QStar.Daemon.Resident

open QStar.Lib.CStrings
open QStar.Lib.Runs
open QStar.Stella

variable {R : List StateEntry → List StateEntry → Prop} {D : Deps → Deps → Prop} {s : Shared}

/-- Entries as builds make them. -/
def AllValid (es : List StateEntry) : Prop := ∀ e ∈ es, e.Valid

/-- One entry for each depfile. -/
def Distinct (deps : Deps) : Prop := (deps.map Prod.fst).Nodup

theorem mem_preserveUnvisited {visited prev : List StateEntry} {e : StateEntry}
    (h : e ∈ preserveUnvisited visited prev) : e ∈ visited ∨ e ∈ prev := by
  unfold preserveUnvisited at h
  induction prev generalizing visited with
  | nil => exact .inl h
  | cons p rest ih =>
    rw [List.foldl_cons] at h
    rcases ih h with h | h
    · split at h
      · exact .inl h
      · rcases List.mem_append.mp h with h | h
        · exact .inl h
        · exact .inr (List.mem_cons.mpr (.inl (List.mem_singleton.mp h)))
    · exact .inr (List.mem_cons_of_mem _ h)

theorem stateFind_isSome {es : List StateEntry} {id : Bytes} :
    (stateFind es id).isSome = true ↔ ∃ e ∈ es, e.id = id := by
  simp [stateFind, List.find?_isSome]

/-- Every action that was recorded before still is. -/
theorem preserveUnvisited_keeps {visited prev : List StateEntry} {id : Bytes}
    (h : (stateFind prev id).isSome = true) :
    (stateFind (preserveUnvisited visited prev) id).isSome = true := by
  have hstays : ∀ prev visited : List StateEntry, (stateFind visited id).isSome = true →
      (stateFind (preserveUnvisited visited prev) id).isSome = true := by
    intro prev
    induction prev with
    | nil => exact fun _ h => h
    | cons p rest ih =>
      intro visited hfound
      refine ih _ ?_
      dsimp only
      split
      · exact hfound
      · obtain ⟨e, he, hid⟩ := stateFind_isSome.mp hfound
        exact stateFind_isSome.mpr ⟨e, List.mem_append_left _ he, hid⟩
  induction prev generalizing visited with
  | nil => cases h
  | cons p rest ih =>
    by_cases hrest : (stateFind rest id).isSome = true
    · exact ih hrest
    · obtain ⟨e, he, rfl⟩ := stateFind_isSome.mp h
      rcases List.mem_cons.mp he with rfl | he
      · refine hstays rest _ ?_
        dsimp only
        split
        · assumption
        · exact stateFind_isSome.mpr ⟨e, List.mem_append_right _ List.mem_cons_self, rfl⟩
      · exact absurd (stateFind_isSome.mpr ⟨e, he, rfl⟩) hrest

theorem next_valid {w : Working} (h : AllValid w.prev) (f : Finish) : AllValid (w.next f) := by
  intro e he
  rcases mem_preserveUnvisited he with he | he
  · exact f.visited.valid e he
  · exact h e he

/-- A build renames nothing, the state file, or the state file and a dump. -/
theorem Shared.renames_cases (s : Shared) (w : Working) (f : Finish) : s.renames w f = [] ∨
    s.renames w f = [.db (w.next f)] ∨ s.renames w f = [.db (w.next f), .json (w.next f)] := by
  have hall := stateWrite_cases s.files w.prev (w.next f) f.dump
  unfold Shared.renames
  cases f.stop with
  | saving n =>
    rcases hall with h | ⟨h, -⟩ | ⟨h, -⟩
    · simp [h]
    · cases n <;> simp [h]
    · match n with
      | 0 => simp
      | 1 => simp [h]
      | n + 2 => simp [h]
  | dependencies => grind
  | remembering => grind
  | complete => grind

theorem save_files_same {w : Working} {f : Finish} (h : s.replacesState w f = false) :
    (s.save w f).files = s.files := by
  have hnil : s.renames w f = [] := by simpa [Shared.replacesState] using h
  simp [Shared.save, hnil]

theorem save_holds {w : Working} {f : Finish} (h : s.replacesState w f = true)
    (hlimits : WithinLimits (w.next f)) : Holds (s.save w f).files.db (w.next f) := by
  have hne : s.renames w f ≠ [] := by simpa [Shared.replacesState] using h
  refine ⟨?_, hlimits⟩
  rcases s.renames_cases w f with hcase | hcase | hcase
  · exact absurd hcase hne
  · simp [Shared.save, hcase, Rename.apply]
  · simp [Shared.save, hcase, Rename.apply]

/-- The files can be read back, and everything else is as builds make it. -/
structure Shared.Readable (s : Shared) : Prop where
  files : s.files = ⟨.missing, .missing⟩ ∨ ∃ es, AllValid es ∧ Holds s.files.db es
  deps : ∀ ds, s.deps = some ds → depsReadable ds = true ∧ Distinct ds
  memory : ∀ es, s.memory.state = some es → AllValid es
  memoryDeps : ∀ ds, s.memory.deps = some ds → ds ≠ [] ∧ Distinct ds
  daemon : ∀ w, s.daemon = some w → AllValid w.prev ∧ Distinct w.prevDeps
  direct : ∀ w ∈ s.direct, AllValid w.prev ∧ Distinct w.prevDeps

theorem Shared.Readable.load_valid (h : s.Readable) : AllValid (stateLoad s.files) := by
  rcases h.files with hfiles | ⟨es, hvalid, hholds⟩
  · rw [hfiles]
    intro e he
    cases he
  · rw [load_of_holds hvalid hholds]
    exact hvalid

theorem Shared.Readable.load_distinct (h : s.Readable) : Distinct (depsLoad s.deps) := by
  cases hdeps : s.deps with
  | none => exact List.nodup_nil
  | some ds =>
    obtain ⟨hreadable, hdistinct⟩ := h.deps ds hdeps
    simpa [depsLoad, hreadable] using hdistinct

/-- What the end of a build leaves on disk is readable. -/
theorem Shared.Readable.save (h : s.Readable) {w : Working} {f : Finish} (hvalid : AllValid w.prev)
    (hwrites : s.WritesReadable w f) : (s.save w f).Readable := by
  refine ⟨?_, ?_, h.memory, h.memoryDeps, h.daemon, h.direct⟩
  · cases hreplaces : s.replacesState w f with
    | false =>
      rw [save_files_same hreplaces]
      exact h.files
    | true =>
      exact .inr ⟨_, next_valid hvalid f, save_holds hreplaces (hwrites.1 hreplaces)⟩
  · intro ds hds
    simp only [Shared.save] at hds
    split at hds
    · rename_i hreplaces
      cases hds
      exact ⟨hwrites.2 hreplaces, f.deps.distinct⟩
    · exact h.deps ds hds

theorem load_save {w : Working} {f : Finish} (hvalid : AllValid w.prev)
    (hreplaces : s.replacesState w f = true) (hwrites : s.WritesReadable w f) :
    stateLoad (s.save w f).files = w.next f :=
  load_of_holds (next_valid hvalid f) (save_holds hreplaces (hwrites.1 hreplaces))

theorem depsLoad_save {w : Working} {f : Finish} (hreplaces : s.replacesDeps w f = true)
    (hwrites : s.WritesReadable w f) : depsLoad (s.save w f).deps = f.deps.deps := by
  simp [Shared.save, hreplaces, depsLoad, hwrites.2 hreplaces]

theorem save_deps_same {w : Working} {f : Finish} (h : s.replacesDeps w f = false) :
    (s.save w f).deps = s.deps := by
  simp [Shared.save, h]

/-- The memory is related to the files, and a build of the daemon has loaded what it holds. -/
structure Shared.Mirrors (R : List StateEntry → List StateEntry → Prop) (D : Deps → Deps → Prop)
    (s : Shared) : Prop where
  readable : s.Readable
  state : ∀ es, s.memory.state = some es → R es (stateLoad s.files)
  deps : ∀ ds, s.memory.deps = some ds → D ds (depsLoad s.deps)
  working : ∀ w, s.daemon = some w → s.memory.state = some w.prev ∧
    s.memory.deps = if w.prevDeps = [] then none else some w.prevDeps

theorem Shared.Mirrors.agrees (hR : Equivalence R) (hD : Equivalence D) (h : s.Mirrors R D) :
    s.Agrees R D := by
  constructor
  · unfold Shared.stateWithMemory
    cases hstate : s.memory.state with
    | none => exact hR.refl _
    | some es => exact h.state es hstate
  · unfold Shared.depsWithMemory
    cases hdeps : s.memory.deps with
    | none => exact hD.refl _
    | some ds => exact h.deps ds hdeps

theorem depsWithMemory_nil (h : s.Readable) (hnil : s.depsWithMemory = []) :
    s.memory.deps = none := by
  cases hdeps : s.memory.deps with
  | none => rfl
  | some ds =>
    simp only [Shared.depsWithMemory, hdeps, Option.getD_some] at hnil
    exact absurd hnil (h.memoryDeps ds hdeps).1

/-- A build of the daemon begins. -/
theorem mirrors_begin (hR : Equivalence R) (hD : Equivalence D) (h : s.Mirrors R D) :
    (s.step .daemonBegin).Mirrors R D := by
  obtain ⟨hstate, hdeps⟩ := h.agrees hR hD
  simp only [Shared.step]
  split
  · exact h
  · have hvalid : AllValid s.stateWithMemory := by
      unfold Shared.stateWithMemory
      cases hmemory : s.memory.state with
      | none => exact h.readable.load_valid
      | some es => exact h.readable.memory es hmemory
    have hdistinct : Distinct s.depsWithMemory := by
      unfold Shared.depsWithMemory
      cases hmemory : s.memory.deps with
      | none => exact h.readable.load_distinct
      | some ds => exact (h.readable.memoryDeps ds hmemory).2
    refine ⟨⟨h.readable.files, h.readable.deps, ?_, ?_, ?_, h.readable.direct⟩, ?_, ?_, ?_⟩
    · intro es hes
      cases hes
      exact hvalid
    · intro ds hds
      simp only [Shared.warmed] at hds
      split at hds
      · exact h.readable.memoryDeps ds hds
      · rename_i hne
        cases hds
        exact ⟨hne, hdistinct⟩
    · intro w hw
      cases hw
      exact ⟨hvalid, hdistinct⟩
    · intro es hes
      cases hes
      exact hstate
    · intro ds hds
      simp only [Shared.warmed] at hds
      split at hds
      · exact h.deps ds hds
      · cases hds
        exact hdeps
    · intro w hw
      cases hw
      refine ⟨rfl, ?_⟩
      simp only [Shared.warmed]
      split
      · rename_i hnil
        exact depsWithMemory_nil h.readable hnil
      · rfl

/-- The state of the memory after a build of the daemon. -/
theorem mirrors_end_state (hR : Equivalence R) (h : s.Mirrors R D) {w : Working} {f : Finish}
    (hw : s.daemon = some w) (hmeets : (Event.daemonEnd f).Meets R D s)
    (hsilent : (Event.daemonEnd f).Silent R D s) {es : List StateEntry}
    (hes : (s.memory.update w f).state = some es) : R es (stateLoad (s.save w f).files) := by
  obtain ⟨hwrites, hpart, -⟩ := hmeets w hw
  have hvalid := (h.readable.daemon w hw).1
  have hprev := (h.working w hw).1
  by_cases hsaving : ∃ n, f.stop = .saving n
  · have hmemory : (s.memory.update w f).state = some w.prev := by
      obtain ⟨n, hn⟩ := hsaving
      simpa [Memory.update, hn] using hprev
    rw [hmemory] at hes
    cases hes
    cases hreplaces : s.replacesState w f with
    | false =>
      rw [save_files_same hreplaces]
      exact h.state _ hprev
    | true =>
      rw [load_save hvalid hreplaces hwrites]
      exact hpart hreplaces hsaving
  · have hmemory : (s.memory.update w f).state = some (w.next f) := by
      unfold Memory.update
      split
      · rename_i n hn
        exact absurd ⟨n, hn⟩ hsaving
      · rfl
      · rfl
      · rfl
    rw [hmemory] at hes
    cases hes
    cases hreplaces : s.replacesState w f with
    | false =>
      rw [save_files_same hreplaces]
      exact hR.trans ((hsilent w hw).1 hreplaces fun n hn => hsaving ⟨n, hn⟩) (h.state _ hprev)
    | true =>
      rw [load_save hvalid hreplaces hwrites]
      exact hR.refl _

/-- Dependencies that are not written although there are some are those that were loaded. -/
theorem prevDeps_ne_nil {w : Working} {f : Finish} (hreplaces : s.replacesDeps w f = false)
    (hcomplete : f.stop = .complete) (hne : f.deps.deps ≠ []) : w.prevDeps ≠ [] := by
  simp only [Shared.replacesDeps, hcomplete, depsWrites, depsUnchanged] at hreplaces
  intro hnil
  have hlength : f.deps.deps.length ≠ 0 := by simpa using hne
  simp [hnil, hne, Ne.symm hlength] at hreplaces

/-- The dependencies of the memory after a build of the daemon. -/
theorem mirrors_end_deps (hD : Equivalence D) (h : s.Mirrors R D) {w : Working} {f : Finish}
    (hw : s.daemon = some w) (hmeets : (Event.daemonEnd f).Meets R D s)
    (hsilent : (Event.daemonEnd f).Silent R D s) {ds : Deps}
    (hds : (s.memory.update w f).deps = some ds) : D ds (depsLoad (s.save w f).deps) := by
  obtain ⟨hwrites, -, hpart⟩ := hmeets w hw
  have hprev := (h.working w hw).2
  cases hreplaces : s.replacesDeps w f with
  | false =>
    rw [save_deps_same hreplaces]
    by_cases hupdates : f.stop = .complete ∧ f.deps.deps ≠ []
    · obtain ⟨hcomplete, hne⟩ := hupdates
      simp only [Memory.update, hcomplete, if_neg hne, Option.some.injEq] at hds
      subst hds
      have hloaded := prevDeps_ne_nil hreplaces hcomplete hne
      rw [if_neg hloaded] at hprev
      exact hD.trans ((hsilent w hw).2 hreplaces hcomplete hne) (h.deps _ hprev)
    · apply h.deps
      rw [← hds]
      unfold Memory.update
      split
      · rfl
      · rfl
      · rfl
      · rename_i hcomplete
        have hnil : f.deps.deps = [] := by
          by_contra hne
          exact hupdates ⟨hcomplete, hne⟩
        rw [if_pos hnil]
  | true =>
    rw [depsLoad_save hreplaces hwrites]
    unfold Shared.replacesDeps at hreplaces
    split at hreplaces
    · cases hreplaces
    · cases hreplaces
    · rename_i hstop
      simp only [Memory.update, hstop] at hds
      rw [hds] at hprev
      split at hprev
      · cases hprev
      · rename_i hne
        cases hprev
        exact hpart (by simpa [Shared.replacesDeps, hstop] using hreplaces) hstop hne
    · rename_i hstop
      have hne : f.deps.deps ≠ [] := by
        intro hnil
        simp [depsWrites, hnil] at hreplaces
      simp only [Memory.update, hstop, if_neg hne, Option.some.injEq] at hds
      rw [hds]
      exact hD.refl _

theorem update_valid {m : Memory} {w : Working} (hw : AllValid w.prev) (f : Finish)
    (hm : ∀ es, m.state = some es → AllValid es) :
    ∀ es, (m.update w f).state = some es → AllValid es := by
  intro es hes
  unfold Memory.update at hes
  split at hes
  · exact hm es hes
  all_goals
    cases hes
    exact next_valid hw f

theorem update_distinct {m : Memory} {w : Working} (f : Finish)
    (hm : ∀ ds, m.deps = some ds → ds ≠ [] ∧ Distinct ds) :
    ∀ ds, (m.update w f).deps = some ds → ds ≠ [] ∧ Distinct ds := by
  intro ds hds
  unfold Memory.update at hds
  split at hds
  · exact hm ds hds
  · exact hm ds hds
  · exact hm ds hds
  · dsimp only at hds
    split at hds
    · exact hm ds hds
    · rename_i hne
      cases hds
      exact ⟨hne, f.deps.distinct⟩

/-- What one event keeps. -/
theorem mirrors_step (hR : Equivalence R) (hD : Equivalence D) {ev : Event}
    (hmeets : ev.Meets R D s) (hsilent : ev.Silent R D s) (h : s.Mirrors R D) :
    (s.step ev).Mirrors R D := by
  cases ev with
  | daemonBegin => exact mirrors_begin hR hD h
  | daemonEnd f =>
    simp only [Shared.step]
    split
    · exact h
    · rename_i w hw
      have hvalid := (h.readable.daemon w hw).1
      have hsaved := h.readable.save hvalid (hmeets w hw).1
      refine ⟨⟨hsaved.files, hsaved.deps, update_valid hvalid f h.readable.memory,
        update_distinct f h.readable.memoryDeps, nofun, h.readable.direct⟩, ?_, ?_, nofun⟩
      · intro es hes
        exact mirrors_end_state hR h hw hmeets hsilent hes
      · intro ds hds
        exact mirrors_end_deps hD h hw hmeets hsilent hds
  | directBegin =>
    refine ⟨⟨h.readable.files, h.readable.deps, h.readable.memory, h.readable.memoryDeps,
      h.readable.daemon, ?_⟩, h.state, h.deps, h.working⟩
    intro w hw
    rcases List.mem_append.mp hw with hw | hw
    · exact h.readable.direct w hw
    · rw [List.mem_singleton.mp hw]
      exact ⟨h.readable.load_valid, h.readable.load_distinct⟩
  | directEnd k f =>
    simp only [Shared.step]
    split
    · exact h
    · rename_i w hw
      have hvalid := (h.readable.direct w (List.mem_of_getElem? hw)).1
      obtain ⟨hwrites, hstate, hdeps⟩ := hmeets w hw
      have hsaved := h.readable.save hvalid hwrites
      refine ⟨⟨hsaved.files, hsaved.deps, h.readable.memory, h.readable.memoryDeps,
        h.readable.daemon, fun w' hw' => h.readable.direct w' (List.mem_of_mem_eraseIdx hw')⟩,
        ?_, ?_, h.working⟩
      · intro es hes
        show R es (stateLoad (s.save w f).files)
        cases hreplaces : s.replacesState w f with
        | false =>
          rw [save_files_same hreplaces]
          exact h.state es hes
        | true =>
          rw [load_save hvalid hreplaces hwrites]
          exact hstate hreplaces es hes
      · intro ds hds
        show D ds (depsLoad (s.save w f).deps)
        cases hreplaces : s.replacesDeps w f with
        | false =>
          rw [save_deps_same hreplaces]
          exact h.deps ds hds
        | true =>
          rw [depsLoad_save hreplaces hwrites]
          exact hdeps hreplaces ds hds
  | clean =>
    exact ⟨⟨.inl rfl, nofun, h.readable.memory, h.readable.memoryDeps, h.readable.daemon,
      h.readable.direct⟩, hmeets.1, hmeets.2, h.working⟩
  | cleanTarget => exact h
  | restart =>
    exact ⟨⟨h.readable.files, h.readable.deps, nofun, nofun, nofun, h.readable.direct⟩, nofun,
      nofun, nofun⟩

theorem mirrors_start : Shared.start.Mirrors R D :=
  ⟨⟨.inl rfl, nofun, nofun, nofun, nofun, nofun⟩, nofun, nofun, nofun⟩

theorem alikeState_equivalence : Equivalence AlikeState :=
  ⟨fun _ _ => rfl, fun h id => (h id).symm, fun h h' id => (h id).trans (h' id)⟩

theorem alikeDeps_equivalence : Equivalence AlikeDeps :=
  ⟨fun _ _ => rfl, fun h depfile => (h depfile).symm,
    fun h h' depfile => (h depfile).trans (h' depfile)⟩

theorem recorded_of_sameMaterial {p e : StateEntry} (hid : p.id = e.id)
    (h : p.sameMaterial e = true) : recorded e = recorded p := by
  simp only [StateEntry.sameMaterial, Bool.and_eq_true, decide_eq_true_eq] at h
  obtain ⟨⟨⟨⟨⟨⟨⟨⟨⟨hkey, houtput⟩, hkind⟩, hargv⟩, henv⟩, hinput⟩, hdepfile⟩, hpolicy⟩, hout⟩, hext⟩ := h
  simp [recorded, hid, hkey, houtput, hkind, hargv, henv, hinput, hdepfile, hpolicy, hout, hext]

/-- Entries that `state_unchanged_ignoring_status` takes for unchanged are alike. -/
theorem alike_of_unchanged {prev next : List StateEntry} (h : stateUnchanged prev next = true)
    (hkeeps : ∀ id, (stateFind prev id).isSome = true → (stateFind next id).isSome = true) :
    AlikeState next prev := by
  intro id
  cases hnext : stateFind next id with
  | none =>
    cases hprev : stateFind prev id with
    | none => rfl
    | some p =>
      have hkept := hkeeps id (by rw [hprev]; rfl)
      simp [hnext] at hkept
  | some e =>
    have hmem : e ∈ next := List.mem_of_find?_eq_some hnext
    have hid : e.id = id := by simpa using List.find?_some hnext
    simp only [stateUnchanged, Bool.and_eq_true, List.all_eq_true] at h
    have hsame := h.2 e hmem
    rw [hid] at hsame
    cases hprev : stateFind prev id with
    | none => simp [hprev] at hsame
    | some p =>
      rw [hprev] at hsame
      have hpid : p.id = id := by simpa using List.find?_some hprev
      simp [recorded_of_sameMaterial (hpid.trans hid.symm) hsame]

/-- Dependencies that `deps_unchanged` takes for unchanged are alike. -/
theorem alikeDeps_of_unchanged {prev next : Deps} (hnext : Distinct next)
    (h : depsUnchanged prev next = true) : AlikeDeps next prev := by
  simp only [depsUnchanged, Bool.and_eq_true, decide_eq_true_eq, List.all_eq_true] at h
  obtain ⟨hlength, hall⟩ := h
  intro depfile
  cases hfind : next.find depfile with
  | some entry => exact (hall _ (Deps.mem_of_find hfind)).symm
  | none =>
    have hsub : next.map Prod.fst ⊆ prev.map Prod.fst := by
      intro name hname
      obtain ⟨e, he, rfl⟩ := List.mem_map.mp hname
      exact List.mem_map.mpr ⟨_, Deps.mem_of_find (hall e he), rfl⟩
    have hperm : (next.map Prod.fst).Perm (prev.map Prod.fst) :=
      (List.subperm_of_subset hnext hsub).perm_of_length_le (by simp [hlength])
    cases hprev : prev.find depfile with
    | none => rfl
    | some entry =>
      have hmem : depfile ∈ next.map Prod.fst :=
        hperm.mem_iff.mpr (List.mem_map.mpr ⟨_, Deps.mem_of_find hprev, rfl⟩)
      obtain ⟨⟨name, found⟩, he, rfl⟩ := List.mem_map.mp hmem
      obtain ⟨other, hother⟩ := Deps.find_of_mem he
      rw [hfind] at hother
      cases hother

theorem unchanged_of_not_replaced {w : Working} {f : Finish} (h : s.replacesState w f = false)
    (hstop : ∀ n, f.stop ≠ .saving n) : stateUnchanged w.prev (w.next f) = true := by
  have hnil : stateWrite s.files w.prev (w.next f) f.dump = [] := by
    simp only [Shared.replacesState, Shared.renames, decide_eq_false_iff_not, not_not] at h
    cases hcase : f.stop with
    | saving n => exact absurd hcase (hstop n)
    | dependencies => simpa [hcase] using h
    | remembering => simpa [hcase] using h
    | complete => simpa [hcase] using h
  unfold stateWrite at hnil
  grind

/-- Builds of the daemon leave nothing behind unsaved that decides about an action. -/
theorem silent_alike (ev : Event) (s : Shared) : ev.Silent AlikeState AlikeDeps s := by
  cases ev with
  | daemonEnd f =>
    intro w hw
    constructor
    · intro hreplaces hstop
      exact alike_of_unchanged (unchanged_of_not_replaced hreplaces hstop)
        fun id hid => preserveUnvisited_keeps hid
    · intro hreplaces hcomplete hne
      apply alikeDeps_of_unchanged f.deps.distinct
      simp only [Shared.replacesDeps, hcomplete, depsWrites] at hreplaces
      simp only [ne_eq, hne, not_false_eq_true, decide_true, Bool.true_and, Bool.not_eq_false',
        Bool.and_eq_true] at hreplaces
      exact hreplaces.1
  | daemonBegin => trivial
  | directBegin => trivial
  | directEnd k f => trivial
  | clean => trivial
  | cleanTarget => trivial
  | restart => trivial

theorem AlikeState.isSome {a b : List StateEntry} (h : AlikeState a b) (id : Bytes) :
    (stateFind a id).isSome = (stateFind b id).isSome := by
  simpa using congrArg Option.isSome (h id)

theorem AlikeState.keyHit {a b : List StateEntry} (h : AlikeState a b) (id key : Bytes) :
    keyHit a id key = keyHit b id key := by
  have hany : ∀ es, Resident.keyHit es id key =
      ((stateFind es id).map recorded).any fun e => e.key = key := by
    intro es
    simp only [Resident.keyHit, Option.any_map]
    rfl
  rw [hany, hany, h id]

theorem Shared.Mirrors.sameDecisions (h : s.Mirrors AlikeState AlikeDeps) : s.SameDecisions := by
  obtain ⟨hstate, hdeps⟩ := h.agrees alikeState_equivalence alikeDeps_equivalence
  refine ⟨hstate.keyHit, hdeps, ?_⟩
  intro w hw id hid f
  apply preserveUnvisited_keeps
  rw [← hid]
  exact (h.state _ (h.working w hw).1).isSome id

/-- In a history where direct builds and cleans that change the databases find nothing in the
memory, or what they leave, and builds of the daemon save what they keep, the daemon decides as a
direct build would. Where such builds also keep only what they save, both load the same. -/
theorem resident_state_agrees (s : Shared) :
    (ReachableWhere Shared.step (fun s ev => ev.Meets AlikeState AlikeDeps s) .start s →
      s.SameDecisions) ∧
    (ReachableWhere Shared.step (fun s ev => ev.Meets Eq Eq s ∧ ev.Silent Eq Eq s) .start s →
      s.Agrees Eq Eq) := by
  constructor
  · intro hrun
    have hmirrors : s.Mirrors AlikeState AlikeDeps :=
      hrun.invariant (Shared.Mirrors AlikeState AlikeDeps) mirrors_start fun s ev hmeets h =>
        mirrors_step alikeState_equivalence alikeDeps_equivalence hmeets (silent_alike ev s) h
    exact hmirrors.sameDecisions
  · intro hrun
    have hmirrors : s.Mirrors Eq Eq :=
      hrun.invariant (Shared.Mirrors Eq Eq) mirrors_start fun s ev hmeets h =>
        mirrors_step eq_equivalence eq_equivalence hmeets.1 hmeets.2 h
    exact hmirrors.agrees eq_equivalence eq_equivalence

/-- A build of one action that is saved whole. -/
def wholeBuild (key : Bytes) (h : (sampleEntry key).Valid) : Finish where
  visited := sampleEntries key h
  deps := ⟨[], List.nodup_nil⟩
  dump := false
  stop := .complete

/-- A build of the daemon and after it a direct build with another key. -/
def directAfterDaemon : List Event :=
  [.daemonBegin, .daemonEnd (wholeBuild (ascii "1") sampleEntry_one),
    .directBegin, .directEnd 0 (wholeBuild (ascii "2") sampleEntry_two)]

/-- The next build of the daemon would load the key of its own last build, and would run the action
that a direct build would skip. -/
theorem direct_build_unnoticed : ∃ s, Reachable Shared.step .start s ∧ ¬s.Agrees Eq Eq ∧
    ¬s.SameDecisions := by
  have hhits : ∃ id key, keyHit (directAfterDaemon.foldl Shared.step .start).stateWithMemory id key ≠
      keyHit (stateLoad (directAfterDaemon.foldl Shared.step .start).files) id key :=
    ⟨ascii "//:a:compile:0", ascii "2", by decide +kernel⟩
  obtain ⟨id, key, hne⟩ := hhits
  refine ⟨_, reachable_foldl _ _ directAfterDaemon, ?_, ?_⟩
  · intro hagrees
    exact hne (by rw [hagrees.state])
  · intro hsame
    exact hne (hsame.hits id key)

end QStar.Daemon.Resident
