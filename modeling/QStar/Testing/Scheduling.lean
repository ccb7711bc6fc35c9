import QStar.Testing.Accounting
import Mathlib.Data.Nat.Find

/-!
# Safety and progress of the test scheduler

In a validated graph every request fits an idle pool, and the counters of the batch tell what
the runs hold. So the scheduler never gets stuck. It keeps within the capacities as long as no
test of the resources adds a request to a counter beyond the largest machine integer.
-/
namespace QStar.Testing

open QStar.Lib.CStrings
open QStar.Lib.Results
open QStar.Lib.Runs
open QStar.Lib.Tallies
open QStar.Base

variable {g : TestGraph} {targets : List TestTarget} {options : Option TestOptions}

/-- A validated request names a resource and lies within its capacity. -/
theorem validated_request (h : validateTestResources g = .ok ()) {t : TestTarget}
    (ht : t ∈ g.targets) {q : ResourceRequest} (hq : q ∈ t.testResources) :
    ∃ i c, resourceIndex g q.name = some i ∧ g.testResources[i]? = some c ∧
      0 < q.amount.toInt ∧ q.amount.toInt ≤ c.capacity.toInt := by
  obtain ⟨⟨⟩, -, htargets⟩ := bind_eq_ok.mp h
  have htarget := forM_eq_ok htargets t ht
  have hne : t.testResources ≠ [] := List.ne_nil_of_mem hq
  rw [checkTarget, if_neg hne] at htarget
  have hrequests := (guard_eq_ok.mp htarget).2
  have hrequest := forM_eq_ok hrequests q hq
  unfold checkRequest findTestResource at hrequest
  cases hi : resourceIndex g q.name with
  | none => simp [hi] at hrequest
  | some i =>
    cases hc : g.testResources[i]? with
    | none => simp [hi, hc] at hrequest
    | some c =>
      simp only [hi, hc, Option.bind_some] at hrequest
      have hfits := (guard_eq_ok.mp hrequest).1
      rw [not_or, Int32.not_le, Int32.not_lt, Int32.lt_iff_toInt_lt, Int32.le_iff_toInt_le] at hfits
      exact ⟨i, c, rfl, hc, hfits.1, hfits.2⟩

/-- Names with the same index are the same. -/
theorem resourceIndex_inj {a b : Bytes} {i : Nat} (ha : resourceIndex g a = some i)
    (hb : resourceIndex g b = some i) : a = b := by
  obtain ⟨hlt, hname, -⟩ := List.findIdx?_eq_some_iff_getElem.mp ha
  obtain ⟨_, hname', -⟩ := List.findIdx?_eq_some_iff_getElem.mp hb
  rw [decide_eq_true_eq] at hname hname'
  exact hname.symm.trans hname'

/-- A test asks for a resource in one request at most. -/
theorem requestedOn_cases (g : TestGraph) (t : TestTarget) (i : Nat) :
    requestedOn g t i = 0 ∨
      ∃ q ∈ t.testResources, resourceIndex g q.name = some i ∧ requestedOn g t i = q.amount.toInt := by
  have hpair : t.testResources.Pairwise fun a b => requestShare g i a = 0 ∨ requestShare g i b = 0 := by
    have hnames := t.resources_nodup
    rw [List.Nodup, List.pairwise_map] at hnames
    refine hnames.imp ?_
    intro a b hne
    by_contra hboth
    simp only [requestShare, not_or] at hboth
    have ha : resourceIndex g a.name = some i := by
      by_contra hno
      exact hboth.1 (if_neg hno)
    have hb : resourceIndex g b.name = some i := by
      by_contra hno
      exact hboth.2 (if_neg hno)
    exact hne (resourceIndex_inj ha hb)
  rcases tally_eq_single hpair with hzero | ⟨q, hq, hsum⟩
  · exact .inl hzero
  · by_cases hi : resourceIndex g q.name = some i
    · exact .inr ⟨q, hq, hi, hsum.trans (if_pos hi)⟩
    · exact .inl (hsum.trans (if_neg hi))

theorem requestedOn_nonneg (h : validateTestResources g = .ok ()) {t : TestTarget}
    (ht : t ∈ g.targets) (i : Nat) : 0 ≤ requestedOn g t i := by
  rcases requestedOn_cases g t i with hzero | ⟨q, hq, -, hsum⟩
  · exact le_of_eq hzero.symm
  · obtain ⟨_, _, -, -, hpos, -⟩ := validated_request h ht hq
    rw [hsum]
    exact le_of_lt hpos

theorem heldOn_nonneg (h : validateTestResources g = .ok ()) {runs : List Run}
    (hruns : ∀ r ∈ runs, r.target ∈ g.targets) (i : Nat) : 0 ≤ heldOn g runs i := by
  apply tally_nonneg
  intro r hr
  unfold heldBy
  split
  · exact requestedOn_nonneg h (hruns r hr) i
  · exact le_refl 0

/-- Every validated request fits an idle pool. -/
theorem available_idle (h : validateTestResources g = .ok ()) {t : TestTarget} (ht : t ∈ g.targets)
    {used : Nat → Int32} (hidle : ∀ i, used i = 0) : resourcesAvailable g used t = true := by
  rw [resourcesAvailable, List.all_eq_true]
  intro q hq
  obtain ⟨i, c, hi, hc, -, hle⟩ := validated_request h ht hq
  rw [← Int32.le_iff_toInt_le, ← Int32.not_lt] at hle
  simp [hi, hc, hidle i, hle]

/-- The start scan passes over runs that are not pending. -/
theorem scan_over {jobs i : Nat} {s : Batch} (hscan : s.point = .scan i)
    (hfree : s.pool.holders < jobs) (answers : List Answer)
    (hnot : ∀ j, i ≤ j → j < i + answers.length → ∃ r, s.runs[j]? = some r ∧ r.phase ≠ .pending) :
    answers.foldl (Batch.step g jobs) s = { s with point := .scan (i + answers.length) } := by
  induction answers generalizing s i with
  | nil => rw [List.foldl_nil, List.length_nil, Nat.add_zero, ← hscan]
  | cons a rest ih =>
    obtain ⟨r, hr, hphase⟩ := hnot i (le_refl i) (by simp)
    have hstep : s.step g jobs a = { s with point := .scan (i + 1) } := by
      have hno : ¬ (r.phase = .pending ∧ resourcesAvailable g s.pool.used r.target = true) :=
        fun hboth => hphase hboth.1
      simp only [Batch.step, hscan, Batch.scanStep, hr, if_neg (Nat.not_le_of_lt hfree), if_neg hno]
    have hrest := ih (s := { s with point := .scan (i + 1) }) rfl hfree fun j hij hj =>
      hnot j (by omega) (by simp only [List.length_cons]; omega)
    rw [List.foldl_cons, hstep, hrest]
    simp only [List.length_cons, Nat.add_assoc, Nat.add_comm 1]

theorem advanceToCleanup_attempt (starts : Phase → Bool) (r : Run) (completed : Phase) (pool : Pool) :
    (advanceToCleanup g starts r completed pool).1.attempt = r.attempt := by
  unfold advanceToCleanup closeAttempt finishAttempt
  repeat' split
  all_goals rfl

/-- Starting an attempt counts it, whatever becomes of its processes. -/
theorem startAttempt_attempt (starts : Phase → Bool) (r : Run) (pool : Pool) :
    (startAttempt g starts r pool).1.attempt = r.attempt + 1 := by
  unfold startAttempt advanceAfterPhase
  dsimp only
  split
  · rfl
  · split
    · split
      · rfl
      · exact advanceToCleanup_attempt starts _ _ _
    · exact advanceToCleanup_attempt starts _ _ _

theorem jobCount_pos (options : Option TestOptions) : 0 < jobCount options := by
  cases options with
  | none => decide
  | some o =>
    simp only [jobCount]
    split
    · omega
    · exact Nat.one_pos

/-- Whatever the answers are, the start scan that begins here starts the run with an index. -/
def StartsRun (g : TestGraph) (jobs : Nat) (s : Batch) (i : Nat) (r : Run) : Prop :=
  ∀ answers : List Answer, answers.length = i + 2 →
    (answers.foldl (Batch.step g jobs) s).point = .scan (i + 1) ∧
      ∃ r', (answers.foldl (Batch.step g jobs) s).runs[i]? = some r' ∧ r'.attempt = r.attempt + 1

/-- With no process alive the scan starts the first pending run. -/
theorem startsRun_of_idle (h : validateTestResources g = .ok ()) {jobs i : Nat} {s : Batch} {r : Run}
    (hjobs : 0 < jobs) (htop : s.point = .top) (hlt : s.doneCount < s.runs.length)
    (hused : ∀ i, s.pool.used i = 0) (hholders : s.pool.holders = 0) (hr : s.runs[i]? = some r)
    (ht : r.target ∈ g.targets) (hpending : r.phase = .pending)
    (hfirst : ∀ j < i, ∃ q, s.runs[j]? = some q ∧ q.phase ≠ .pending) : StartsRun g jobs s i r := by
  intro answers hlength
  obtain ⟨top, rest, rfl⟩ : ∃ top rest, answers = top :: rest := by
    cases answers with
    | nil => simp at hlength
    | cons top rest => exact ⟨top, rest, rfl⟩
  have hrest : rest = rest.take i ++ rest.drop i := (List.take_append_drop i rest).symm
  obtain ⟨a, ha⟩ : ∃ a, rest.drop i = [a] := by
    apply List.length_eq_one_iff.mp
    simp only [List.length_cons] at hlength
    rw [List.length_drop]
    omega
  have htake : (rest.take i).length = i := by
    simp only [List.length_cons] at hlength
    rw [List.length_take]
    omega
  have hbegin : s.step g jobs top = { s with point := .scan 0 } := by
    simp only [Batch.step, htop, if_pos hlt]
  have hover : (rest.take i).foldl (Batch.step g jobs) { s with point := .scan 0 } =
      { s with point := .scan i } := by
    have hscan := scan_over (g := g) (s := { s with point := .scan 0 }) rfl
      (by rw [hholders]; exact hjobs) (rest.take i) (fun j _ hj => hfirst j (by omega))
    rw [hscan, htake, Nat.zero_add]
  have hstart : Batch.step g jobs { s with point := .scan i } a =
      s.put i (startAttempt g a.starts r s.pool) (.scan (i + 1)) := by
    have hready : r.phase = .pending ∧ resourcesAvailable g s.pool.used r.target = true :=
      ⟨hpending, available_idle h ht hused⟩
    have hfree : ¬ jobs ≤ s.pool.holders := by omega
    simp only [Batch.step, Batch.scanStep, hr, if_neg hfree, if_pos hready]
    rfl
  rw [List.foldl_cons, hbegin, hrest, List.foldl_append, hover, ha, List.foldl_cons, List.foldl_nil, hstart]
  have hi : i < s.runs.length := (List.getElem?_eq_some_iff.mp hr).1
  exact ⟨rfl, _, List.getElem?_set_self hi, startAttempt_attempt a.starts r s.pool⟩

/-- Where some entry has a property, one of them is the first. -/
theorem exists_first {p : Run → Prop} {runs : List Run} (h : ∃ r ∈ runs, p r) :
    ∃ (i : Nat) (r : Run), runs[i]? = some r ∧ p r ∧ ∀ j < i, ∃ q, runs[j]? = some q ∧ ¬ p q := by
  classical
  have hindex : ∃ i : Nat, ∃ r, runs[i]? = some r ∧ p r := by
    obtain ⟨r, hr, hp⟩ := h
    obtain ⟨i, hi⟩ := List.mem_iff_getElem?.mp hr
    exact ⟨i, r, hi, hp⟩
  obtain ⟨r, hr, hp⟩ := Nat.find_spec hindex
  refine ⟨Nat.find hindex, r, hr, hp, fun j hj => ?_⟩
  have hlt : Nat.find hindex < runs.length := (List.getElem?_eq_some_iff.mp hr).1
  have hq : runs[j]? = some runs[j] := List.getElem?_eq_getElem (hj.trans hlt)
  exact ⟨_, hq, fun hpq => Nat.find_min hindex hj ⟨_, hq, hpq⟩⟩

/-- The batch never gets stuck: where it goes round with a run unfinished, either a process is
alive or the start scan starts a pending run. The count of finished runs is exact. -/
theorem batch_progress (h : validateTestResources g = .ok ()) (ht : ∀ t ∈ targets, t ∈ g.targets)
    {s : Batch} (hs : BatchState g targets options s) :
    s.doneCount = s.runs.countP isDone ∧
      (s.point = .top → s.doneCount < s.runs.length →
        (∃ r ∈ s.runs, r.running = true) ∨
          ∃ i r, s.runs[i]? = some r ∧ r.phase = .pending ∧ StartsRun g (jobCount options) s i r) := by
  have hcounted := counted_run hs
  refine ⟨hcounted.doneCount, fun htop hlt => ?_⟩
  by_cases halive : ∃ r ∈ s.runs, r.running = true
  · exact .inl halive
  · right
    have hstopped (r : Run) (hr : r ∈ s.runs) :
        r.resourcesHeld = false ∧ (r.phase = .pending ∨ r.phase = .done) := by
      have hrunning : r.running = false := by
        by_contra hno
        exact halive ⟨r, hr, by simpa using hno⟩
      exact (progress_run hs r hr).stopped_idle hrunning
    have hpool := hcounted.idle fun r hr => (hstopped r hr).1
    have hpending : ∃ r ∈ s.runs, r.phase = .pending := by
      by_contra hno
      have hall : ∀ r ∈ s.runs, isDone r = true := by
        intro r hr
        rcases (hstopped r hr).2 with hp | hd
        · exact absurd ⟨r, hr, hp⟩ hno
        · simpa [isDone] using hd
      rw [hcounted.doneCount, List.countP_eq_length.mpr hall] at hlt
      exact lt_irrefl _ hlt
    obtain ⟨i, r, hi, hp, hfirst⟩ := exists_first hpending
    have htarget := ht _ (targets_run hs r (List.mem_of_getElem? hi))
    exact ⟨i, r, hi, hp, startsRun_of_idle h (jobCount_pos options) htop hlt hpool.1 hpool.2 hi htarget
      hp hfirst⟩

/-- A request goes over the largest machine integer, and no other one holds the test back. -/
def Overflows (g : TestGraph) (used : Nat → Int32) (t : TestTarget) : Prop :=
  (∃ q ∈ t.testResources, ∃ i, resourceIndex g q.name = some i ∧
    2147483647 < (used i).toInt + q.amount.toInt) ∧
  ∀ q ∈ t.testResources, ∀ i c, resourceIndex g q.name = some i → g.testResources[i]? = some c →
    (used i).toInt + q.amount.toInt ≤ c.capacity.toInt ∨ 2147483647 < (used i).toInt + q.amount.toInt

/-- No test of the resources in this step overflows. -/
def Batch.StaysExact (g : TestGraph) (jobs : Nat) (s : Batch) (_ : Answer) : Prop :=
  ∀ i r, s.point = .scan i → s.runs[i]? = some r → r.phase = .pending → s.pool.holders < jobs →
    ¬ Overflows g s.pool.used r.target

/-- The counters are exact and within their bounds, and nothing is held at the end. -/
structure ResourceSafe (g : TestGraph) (jobs : Nat) (s : Batch) : Prop where
  used_exact : ∀ i < g.testResources.length, (s.pool.used i).toInt = heldOn g s.runs i
  within : ∀ i c, g.testResources[i]? = some c → heldOn g s.runs i ≤ c.capacity.toInt
  holders_exact : s.pool.holders = s.runs.countP Run.resourcesHeld
  holders_le : s.pool.holders ≤ jobs
  released : s.point = .finished → (∀ i, s.pool.used i = 0) ∧ s.pool.holders = 0

/-- A test that is let through without an overflow fits. -/
theorem fits_of_available (h : validateTestResources g = .ok ()) {t : TestTarget} (ht : t ∈ g.targets)
    {used : Nat → Int32} (hnonneg : ∀ i < g.testResources.length, 0 ≤ (used i).toInt)
    (havailable : resourcesAvailable g used t = true) (hno : ¬ Overflows g used t)
    {q : ResourceRequest} (hq : q ∈ t.testResources) {i : Nat} {c : TestResource}
    (hi : resourceIndex g q.name = some i) (hc : g.testResources[i]? = some c) :
    (used i).toInt + q.amount.toInt ≤ c.capacity.toInt := by
  have heach : ∀ q ∈ t.testResources, ∀ i c, resourceIndex g q.name = some i →
      g.testResources[i]? = some c → (used i).toInt + q.amount.toInt ≤ c.capacity.toInt ∨
        2147483647 < (used i).toInt + q.amount.toInt := by
    intro q hq i c hi hc
    by_contra hneither
    rw [not_or] at hneither
    obtain ⟨_, _, -, -, hpos, -⟩ := validated_request h ht hq
    have hused := hnonneg i (List.getElem?_eq_some_iff.mp hc).1
    have hexact : (used i + q.amount).toInt = (used i).toInt + q.amount.toInt := by
      rw [Int32.toInt_add]
      exact Int.bmod_eq_of_le (by omega) (by omega)
    have hpassed := List.all_eq_true.mp havailable q hq
    simp only [hi, hc, Option.any_some, Int32.lt_iff_toInt_lt, hexact, Bool.not_eq_true',
      decide_eq_false_iff_not] at hpassed
    exact hneither.1 (not_lt.mp hpassed)
  rcases heach q hq i c hi hc with hfits | hover
  · exact hfits
  · exact absurd ⟨⟨q, hq, i, hi, hover⟩, heach⟩ hno

theorem heldBy_eq_zero_or (g : TestGraph) (i : Nat) (r : Run) :
    heldBy g i r = 0 ∨ heldBy g i r = requestedOn g r.target i := by
  unfold heldBy
  split
  · exact .inr rfl
  · exact .inl rfl

/-- Every step keeps within the capacities, as long as nothing overflows. -/
theorem held_within (h : validateTestResources g = .ok ()) (ht : ∀ t ∈ targets, t ∈ g.targets)
    {s : Batch} (hs : ReachableWhere (Batch.step g (jobCount options))
      (Batch.StaysExact g (jobCount options)) (Batch.start targets options) s) :
    ∀ i c, g.testResources[i]? = some c → heldOn g s.runs i ≤ c.capacity.toInt := by
  induction hs with
  | refl =>
    intro i c hc
    have hcapacity : ¬ c.capacity ≤ 0 := by
      obtain ⟨⟨⟩, hresources, -⟩ := bind_eq_ok.mp h
      have hchecked := forM_eq_ok hresources c (List.mem_of_getElem? hc)
      exact (guard_eq_ok.mp (guard_eq_ok.mp hchecked).2).1
    have hidle : ∀ r ∈ (Batch.start targets options).runs, r.resourcesHeld = false := by
      intro r hr
      by_contra hheld
      have hcount := (counted_start g targets options).holders_pos hr (by simpa using hheld)
      exact lt_irrefl _ hcount
    rw [heldOn_eq_zero hidle]
    rw [Int32.not_le, Int32.lt_iff_toInt_lt] at hcapacity
    exact le_of_lt hcapacity
  | @next s a hs hmeets ih =>
    have hreach : BatchState g targets options s := hs.reachable
    have hprogress := progress_run hreach
    have hcounted := counted_run hreach
    have htarget : ∀ r ∈ s.runs, r.target ∈ g.targets := fun r hr => ht _ (targets_run hreach r hr)
    intro i c hc
    cases step_cases g (jobCount options) s a with
    | move point eq =>
      rw [eq]
      exact ih i c hc
    | start k r at_scan found free pending available eq =>
      have hmem := List.mem_of_getElem? found
      have hidle := (hprogress r hmem).pending_idle pending
      have hbalanced := startAttempt_balanced (g := g) s.pool a.starts hidle.1
      have hbefore : heldBy g i r = 0 := by simp [heldBy, hidle.1]
      have hexact (j : Nat) (d : TestResource) (hd : g.testResources[j]? = some d) :
          (s.pool.used j).toInt = heldOn g s.runs j := by
        have hnonneg := heldOn_nonneg h htarget j
        have hle := ih j d hd
        have hmax := d.capacity.toInt_lt
        rw [hcounted.used j]
        exact Int32.toInt_ofInt_of_le (by omega) (by omega)
      have hnonneg (j : Nat) (hj : j < g.testResources.length) : 0 ≤ (s.pool.used j).toInt := by
        rw [hexact j _ (List.getElem?_eq_getElem hj)]
        exact heldOn_nonneg h htarget j
      have hfits : heldOn g s.runs i + requestedOn g r.target i ≤ c.capacity.toInt := by
        rcases requestedOn_cases g r.target i with hzero | ⟨q, hq, hi, hsum⟩
        · rw [hzero, Int.add_zero]
          exact ih i c hc
        · rw [hsum, ← hexact i c hc]
          exact fits_of_available h (htarget r hmem) hnonneg available
            (hmeets k r at_scan found pending free) hq hi hc
      rw [eq, heldOn_put i found, hbefore]
      rcases heldBy_eq_zero_or g i (startAttempt g a.starts r s.pool).1 with hx | hx
      · have hle := ih i c hc
        omega
      · rw [hbalanced.target] at hx
        omega
    | finish k r outcome _ found running eq =>
      have hmem := List.mem_of_getElem? found
      have hheld := (hprogress r hmem).running_held running
      have hbalanced := finish_balanced (hprogress r hmem) running a.starts outcome
        (hcounted.holders_pos hmem hheld.1)
      have hbefore : heldBy g i r = requestedOn g r.target i := by simp [heldBy, hheld.1]
      have hnonneg := requestedOn_nonneg h (htarget r hmem) i
      have hle := ih i c hc
      rw [eq, heldOn_put i found, hbefore]
      rcases heldBy_eq_zero_or g i
        (advanceAfterPhase g a.starts (completePhase r outcome) r.phase s.pool).1 with hx | hx
      · omega
      · rw [hbalanced.target] at hx
        omega

theorem holding_le_one (r : Run) : holding r ≤ 1 := by
  unfold holding
  split <;> omega

/-- No more attempts hold resources than there are jobs. -/
theorem holders_le_jobs {s : Batch} (hs : BatchState g targets options s) :
    s.pool.holders ≤ jobCount options := by
  induction hs with
  | refl => exact Nat.zero_le _
  | @next s a hs ih =>
    have hprogress := progress_run hs
    cases step_cases g (jobCount options) s a with
    | move point eq =>
      rw [eq]
      exact ih
    | start i r _ found free pending _ eq =>
      have hidle := (hprogress r (List.mem_of_getElem? found)).pending_idle pending
      have hholders := (startAttempt_balanced (g := g) s.pool a.starts hidle.1).holders
      have hone := holding_le_one (startAttempt g a.starts r s.pool).1
      rw [eq]
      show (startAttempt g a.starts r s.pool).2.holders ≤ _
      omega
    | finish i r outcome _ found running eq =>
      have hmem := List.mem_of_getElem? found
      have hheld := (hprogress r hmem).running_held running
      have hholders := (finish_balanced (hprogress r hmem) running a.starts outcome
        ((counted_run hs).holders_pos hmem hheld.1)).holders
      have hone := holding_le_one
        (advanceAfterPhase g a.starts (completePhase r outcome) r.phase s.pool).1
      have hrun : holding r = 1 := by simp [holding, hheld.1]
      rw [eq]
      show (advanceAfterPhase g a.starts (completePhase r outcome) r.phase s.pool).2.holders ≤ _
      omega

/-- The loop is left only when every run is done. -/
theorem finished_all_done {s : Batch} (hs : BatchState g targets options s)
    (hfinished : s.point = .finished) : ∀ r ∈ s.runs, isDone r = true := by
  have hcount : s.runs.length ≤ s.doneCount := by
    induction hs with
    | refl => cases hfinished
    | @next s a hs ih =>
      cases hpoint : s.point with
      | top =>
        by_cases hlt : s.doneCount < s.runs.length
        · simp [Batch.step, hpoint, hlt] at hfinished
        · have hstep : s.step g (jobCount options) a = { s with point := .finished } := by
            simp only [Batch.step, hpoint, if_neg hlt]
          rw [hstep]
          exact Nat.le_of_not_lt hlt
      | finished =>
        have hstep : s.step g (jobCount options) a = s := by simp only [Batch.step, hpoint]
        rw [hstep]
        exact ih hpoint
      | aborted => simp [Batch.step, hpoint] at hfinished
      | scan i =>
        have hstep : (s.scanStep g (jobCount options) i a.starts).point = .finished := by
          rw [← hfinished, Batch.step, hpoint]
        unfold Batch.scanStep at hstep
        repeat' split at hstep
        all_goals cases hstep
      | poll i =>
        have hstep : (s.pollStep g i a).point = .finished := by rw [← hfinished, Batch.step, hpoint]
        unfold Batch.pollStep at hstep
        repeat' split at hstep
        all_goals cases hstep
  rw [(counted_run hs).doneCount] at hcount
  exact List.countP_eq_length.mp (le_antisymm List.countP_le_length hcount)

/-- In a run of the batch in which no test of the resources overflows the counters are exact,
stay within their bounds and come back to zero. -/
theorem resources_safe (h : validateTestResources g = .ok ()) (ht : ∀ t ∈ targets, t ∈ g.targets)
    {s : Batch} (hs : ReachableWhere (Batch.step g (jobCount options))
      (Batch.StaysExact g (jobCount options)) (Batch.start targets options) s) :
    ResourceSafe g (jobCount options) s := by
  have hreach : BatchState g targets options s := hs.reachable
  have hcounted := counted_run hreach
  have hwithin := held_within h ht hs
  have htarget : ∀ r ∈ s.runs, r.target ∈ g.targets := fun r hr => ht _ (targets_run hreach r hr)
  refine ⟨?_, hwithin, hcounted.holders, holders_le_jobs hreach, ?_⟩
  · intro i hi
    have hnonneg := heldOn_nonneg h htarget i
    have hle := hwithin i _ (List.getElem?_eq_getElem hi)
    have hmax := (g.testResources[i]).capacity.toInt_lt
    rw [hcounted.used i]
    exact Int32.toInt_ofInt_of_le (by omega) (by omega)
  · intro hfinished
    apply hcounted.idle
    intro r hr
    have hdone := finished_all_done hreach hfinished r hr
    have hrunning : r.running = false := by
      by_contra hno
      have hheld := (progress_run hreach r hr).running_held (by simpa using hno)
      rw [hdone] at hheld
      cases hheld.2
    exact ((progress_run hreach r hr).stopped_idle hrunning).1

/-- A test that asks for an amount of memory. -/
def memoryTest (label : Bytes) (amount : Int32) : TestTarget where
  label := label
  kind := ascii "test"
  testResources := [{ name := ascii "mem", amount := amount }]
  resources_nodup := by simp
  testSetup := []
  testCleanup := []
  testRetryCount := 0
  testRetryOn := []
  testManual := false
  testSkipReason := []

/-- Two tests that each ask for all there is. -/
def memoryGraph (amount : Int32) : TestGraph where
  buildDir := ascii "build"
  testResources := [{ name := ascii "mem", capacity := amount }]
  names_nodup := by simp
  targets := [memoryTest (ascii "//:a") amount, memoryTest (ascii "//:b") amount]

def twoJobs : Option TestOptions := some { jobs := 2, includeManual := false }

/-- Three steps: the loop is entered and the scan looks at both tests. -/
def scanAnswers : List Answer :=
  List.replicate 3 { starts := fun _ => true, wait := .running }

def memoryBatch (amount : Int32) : Batch :=
  scanAnswers.foldl (Batch.step (memoryGraph amount) (jobCount twoJobs))
    (Batch.start (memoryGraph amount).targets twoJobs)

theorem memoryBatch_state (amount : Int32) :
    BatchState (memoryGraph amount) (memoryGraph amount).targets twoJobs (memoryBatch amount) :=
  reachable_foldl _ _ _

theorem memoryGraph_validated : validateTestResources (memoryGraph 1) = .ok () := by decide

theorem memoryGraph_all_validated : validateTestResources (memoryGraph 2147483647) = .ok () := by
  decide

/-- Whether the amounts the next step may add stay within the machine integers. -/
def Batch.addsWithin (g : TestGraph) (s : Batch) : Bool :=
  match s.point with
  | .scan i => (s.runs[i]?).all fun r => r.target.testResources.all fun q =>
      (resourceIndex g q.name).all fun k => (s.pool.used k).toInt + q.amount.toInt ≤ 2147483647
  | _ => true

theorem staysExact_of_addsWithin {jobs : Nat} {s : Batch} (a : Answer)
    (h : s.addsWithin g = true) : s.StaysExact g jobs a := by
  rintro i r hpoint hr - - ⟨⟨q, hq, k, hk, hover⟩, -⟩
  simp only [Batch.addsWithin, hpoint, hr, Option.all_some, List.all_eq_true] at h
  have hle := h q hq
  simp only [hk, Option.all_some, decide_eq_true_eq] at hle
  omega

theorem memoryBatch_exact : Along (Batch.step (memoryGraph 1) (jobCount twoJobs))
    (Batch.StaysExact (memoryGraph 1) (jobCount twoJobs))
    (Batch.start (memoryGraph 1).targets twoJobs) scanAnswers :=
  ⟨staysExact_of_addsWithin _ (by decide), staysExact_of_addsWithin _ (by decide),
    staysExact_of_addsWithin _ (by decide), trivial⟩

theorem memoryBatch_safe : ResourceSafe (memoryGraph 1) 2 (memoryBatch 1) :=
  resources_safe memoryGraph_validated (fun _ ht => ht)
    (reachableWhere_of_along .refl memoryBatch_exact)

theorem memoryBatch_progress : (memoryBatch 1).doneCount = (memoryBatch 1).runs.countP isDone ∧
    ((memoryBatch 1).point = .top → (memoryBatch 1).doneCount < (memoryBatch 1).runs.length →
      (∃ r ∈ (memoryBatch 1).runs, r.running = true) ∨
        ∃ i r, (memoryBatch 1).runs[i]? = some r ∧ r.phase = .pending ∧
          StartsRun (memoryGraph 1) 2 (memoryBatch 1) i r) :=
  batch_progress memoryGraph_validated (fun _ ht => ht) (memoryBatch_state 1)

/-- Two tests that each ask for the largest capacity there is hold it at the same time. -/
theorem capacity_held_twice :
    validateTestResources (memoryGraph 2147483647) = .ok () ∧
      (memoryBatch 2147483647).pool.used 0 = -2 ∧
      heldOn (memoryGraph 2147483647) (memoryBatch 2147483647).runs 0 = 2 * 2147483647 ∧
      ∃ s, BatchState (memoryGraph 2147483647) (memoryGraph 2147483647).targets twoJobs s ∧
        ¬ ResourceSafe (memoryGraph 2147483647) 2 s := by
  have hheld : heldOn (memoryGraph 2147483647) (memoryBatch 2147483647).runs 0 = 2 * 2147483647 := by
    decide
  refine ⟨memoryGraph_all_validated, by decide, hheld, _, memoryBatch_state _, ?_⟩
  intro hsafe
  have hwithin := hsafe.within 0 _ rfl
  rw [hheld] at hwithin
  exact absurd hwithin (by decide)

end QStar.Testing
