import QStar.Stella.Invariant

/-!
# The flush at the end of a build

After the last action the depfiles are read again, and the keys of the actions
that have one are computed from the static inputs, the old discoveries removed,
followed by the new ones.
-/
namespace QStar.Stella

open QStar.Lib.CStrings
open QStar.Base

variable {set : Setting} {b c : Build}

/-- What the depfile of an action lists when the build ends. -/
def Build.newInputs (b : Build) (a : Action) : List Bytes :=
  listedBy b.prevDeps a.depfile (depfileOnDisk b.disk a)

/-- The key that replaces the one the action was prepared with. -/
def Build.refreshedKey (set : Setting) (b : Build) (p : Prepared) : Bytes :=
  actionKey set p.action b.seen (refreshedInputs p (b.newInputs p.action))
    (b.newInputs p.action) p.action.firstOutput

theorem refreshOne_inv {p : Prepared} (h : b.refreshOne set p = some c) :
    (∀ rel ∈ b.newInputs p.action, b.disk rel ≠ none) ∧
    c = ((b.remember (refreshedInputs p (b.newInputs p.action) ++ b.newInputs p.action)).recordDeps
      p.action (recordFor b.prevDeps p.action.depfile (depfileOnDisk b.disk p.action))).pushKey
        p.action.id (b.refreshedKey set p) := by
  unfold Build.refreshOne at h
  split at h
  · cases h
  · rename_i depInputs entry hdiscover
    obtain ⟨hlisted, hentry, hexist⟩ := discoverInputs_ok_iff.mp hdiscover
    cases hlisted
    cases hentry
    cases h
    exact ⟨hexist, rfl⟩

theorem find_recordDeps_ne {a : Action} {entry : Option DepEntry} {depfile : Bytes}
    (h : a.depfile ≠ some depfile) :
    (b.recordDeps a entry).nextDeps.find depfile = b.nextDeps.find depfile := by
  unfold Build.recordDeps
  cases ha : a.depfile with
  | none => rfl
  | some d =>
    have hne : depfile ≠ d := by
      rintro rfl
      exact h ha
    exact Deps.find_record_ne entry hne

theorem find_recordDeps_self {a : Action} {entry : DepEntry} {depfile : Bytes}
    (h : a.depfile = some depfile) :
    (b.recordDeps a (some entry)).nextDeps.find depfile = some entry := by
  simp [Build.recordDeps, h]

/-- The state after the given actions were refreshed. -/
structure Flushed (set : Setting) (b : Build) (done : List Prepared) (c : Build) : Prop where
  disk : c.disk = b.disk
  prev : c.prev = b.prev
  prevDeps : c.prevDeps = b.prevDeps
  seen : c.seen = b.seen
  key : ∀ p ∈ done, c.next p.action.id = some (b.refreshedKey set p)
  other : ∀ id, (∀ p ∈ done, p.action.id ≠ id) → c.next id = b.next id
  exist : ∀ p ∈ done, ∀ rel ∈ b.newInputs p.action, b.disk rel ≠ none
  untouched : ∀ depfile, (∀ p ∈ done, p.action.depfile ≠ some depfile) →
    c.nextDeps.find depfile = b.nextDeps.find depfile
  recorded : ∀ p ∈ done, ∀ depfile st, p.action.depfile = some depfile →
    b.disk depfile = some st → c.nextDeps.find depfile = some (depEntryFor b.prevDeps depfile st)

/-- One refresh. -/
theorem flushed_one {p : Prepared} (h : b.refreshOne set p = some c) : Flushed set b [p] c := by
  obtain ⟨hexist, rfl⟩ := refreshOne_inv h
  constructor
  case disk => simp
  case prev => simp
  case prevDeps => simp
  case seen => simp
  case key => simp
  case other =>
    intro id hid
    rw [Build.pushKey_ne _ _ _ (hid p (by simp)).symm]
    simp
  case exist => simpa using hexist
  case untouched =>
    intro depfile hne
    rw [Build.pushKey_nextDeps, find_recordDeps_ne (hne p (by simp))]
    simp
  case recorded =>
    intro q hq depfile st hdepfile hst
    obtain rfl : q = p := by simpa using hq
    rw [Build.pushKey_nextDeps]
    have hrecord : recordFor b.prevDeps q.action.depfile (depfileOnDisk b.disk q.action) =
        some (depEntryFor b.prevDeps depfile st) := by
      simp [recordFor, depfileOnDisk, hdepfile, hst]
    rw [hrecord]
    exact find_recordDeps_self hdepfile

/-- Refreshing one list of actions after another. -/
theorem Flushed.append {mid : Build} {p : Prepared} {done : List Prepared}
    (hone : Flushed set b [p] mid) (hrest : Flushed set mid done c)
    (hsame : ∀ q ∈ done, q.action.id = p.action.id → q = p) : Flushed set b (p :: done) c := by
  have hnew : ∀ a, mid.newInputs a = b.newInputs a := by
    intro a
    simp [Build.newInputs, hone.prevDeps, hone.disk]
  have hkey : ∀ q, mid.refreshedKey set q = b.refreshedKey set q := by
    intro q
    simp [Build.refreshedKey, hnew, hone.seen]
  constructor
  case disk => exact hrest.disk.trans hone.disk
  case prev => exact hrest.prev.trans hone.prev
  case prevDeps => exact hrest.prevDeps.trans hone.prevDeps
  case seen => exact hrest.seen.trans hone.seen
  case key =>
    intro q hq
    by_cases hmem : q ∈ done
    · rw [hrest.key q hmem, hkey]
    · obtain rfl : q = p := (List.mem_cons.mp hq).resolve_right hmem
      have hne : ∀ r ∈ done, r.action.id ≠ q.action.id := by
        intro r hr hid
        exact hmem (hsame r hr hid ▸ hr)
      rw [hrest.other _ hne]
      exact hone.key q (by simp)
  case other =>
    intro id hid
    rw [hrest.other id fun q hq => hid q (by simp [hq])]
    exact hone.other id (by simpa using hid p (by simp))
  case exist =>
    intro q hq
    rcases List.mem_cons.mp hq with rfl | hq
    · exact hone.exist q (by simp)
    · have hq' := hrest.exist q hq
      rw [hnew, hone.disk] at hq'
      exact hq'
  case untouched =>
    intro depfile hne
    rw [hrest.untouched depfile fun q hq => hne q (by simp [hq])]
    exact hone.untouched depfile (by simpa using hne p (by simp))
  case recorded =>
    intro q hq depfile st hdepfile hst
    have hrecord : ∀ r ∈ done, r.action.depfile = some depfile →
        c.nextDeps.find depfile = some (depEntryFor b.prevDeps depfile st) := by
      intro r hr hr'
      have h := hrest.recorded r hr depfile st hr' (hone.disk ▸ hst)
      rw [hone.prevDeps] at h
      exact h
    rcases List.mem_cons.mp hq with rfl | hq
    · by_cases hshared : ∃ r ∈ done, r.action.depfile = some depfile
      · obtain ⟨r, hr, hr'⟩ := hshared
        exact hrecord r hr hr'
      · push Not at hshared
        rw [hrest.untouched depfile hshared]
        exact hone.recorded q (by simp) depfile st hdepfile hst
    · exact hrecord q hq hdepfile

theorem flushed_foldlM {done : List Prepared}
    (hsame : ∀ p ∈ done, ∀ q ∈ done, q.action.id = p.action.id → q = p)
    (h : done.foldlM (Build.refreshOne set) b = some c) : Flushed set b done c := by
  induction done generalizing b with
  | nil =>
    cases h
    constructor <;> simp
  | cons p rest ih =>
    obtain ⟨mid, hmid, hrest⟩ := Option.bind_eq_some_iff.mp h
    refine (flushed_one hmid).append (ih ?_ hrest) ?_
    · intro q hq r hr
      exact hsame q (by simp [hq]) r (by simp [hr])
    · intro q hq
      exact hsame p (by simp) q (by simp [hq])

/-- The flush refreshes the queue and changes nothing else. -/
theorem Invariant.flushed (h : Invariant set b) (hflush : b.flush set = some c) :
    Flushed set b b.refresh c := by
  refine flushed_foldlM ?_ hflush
  intro p hp q hq hid
  have hp' := (h.queued p hp).1
  have hq' := (h.queued q hq).1
  rw [hid, hp'] at hq'
  cases hq'
  rfl

/-- An action that was not refreshed keeps the key it was prepared with. -/
theorem next_of_not_refreshed (hinv : Invariant set b) (hflush : Flushed set b b.refresh c)
    {id : Bytes} {phase : Phase} {p : Prepared} (hp : b.actions id = some (phase, p))
    (hphase : phase = .skipped ∨ phase = .finished)
    (hnot : phase = .finished → p.action.depfile.isSome = false) :
    c.next id = some p.key := by
  rw [hflush.other, hinv.keyed id phase p hp hphase]
  intro q hq hid
  obtain ⟨hfinished, hdepfile⟩ := hinv.queued q hq
  rw [hid, hp] at hfinished
  cases hfinished
  simp [hnot rfl] at hdepfile

end QStar.Stella
