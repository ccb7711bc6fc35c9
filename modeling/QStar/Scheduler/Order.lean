import QStar.Scheduler.Correctness
import QStar.Scheduler.Schedule

/-!
# The order of a build

No run of the scheduler begins a node before all it waits for is done, a run that succeeds
has begun all that the label needs, and a run without failures succeeds unless needed nodes
wait for each other in a circle.
-/
namespace QStar.Scheduler.Order

open QStar.Lib.CStrings
open QStar.Lib.Cycles
open QStar.Lib.Results
open QStar.Lib.Runs
open QStar.BuildGraph
open QStar.Lowering
open QStar.Scheduler.NodeGraph
open QStar.Scheduler.Completion
open QStar.Scheduler.Execute
open QStar.Scheduler.Invariant
open QStar.Scheduler.Safety
open QStar.Scheduler.Progress
open QStar.Scheduler.Correctness
open QStar.Scheduler.Discovery
open QStar.Scheduler.Edges
open QStar.Scheduler.Connecting
open QStar.Scheduler.Creation
open QStar.Scheduler.Schedule

universe u

/-! ## The order in which nodes are begun -/

/-- Every node of a list stands behind its dependencies. -/
def Behind {α : Type u} (g : Sched α) (order : List Nat) : Prop :=
  ∀ before n rest, order = before ++ n :: rest → ∀ d ∈ g.deps n, d ∈ before

section Begun

variable {α : Type u} {g : Sched α} {jobs : Nat} {e : Exec α} {order new : List Nat}

theorem Behind.append (h : Behind g order) (hnew : ∀ n ∈ new, ∀ d ∈ g.deps n, d ∈ order) :
    Behind g (order ++ new) := by
  intro before n rest heq d hd
  rcases List.append_eq_append_iff.mp heq with ⟨between, rfl, rfl⟩ | ⟨after, rfl, hsplit⟩
  · exact List.mem_append_left _ (hnew n (by simp) d hd)
  · cases after with
    | nil =>
      have hmem : n ∈ new := by simp [← (List.nil_append new ▸ hsplit)]
      simpa using hnew n hmem d hd
    | cons m after =>
      obtain ⟨rfl, -⟩ := List.cons.inj hsplit
      exact h before n after rfl d hd

/-- What the dependencies of the nodes are that a step begins. -/
theorem deps_begun (isProcess : α → Bool) (h : LoopInvariant g jobs e)
    (a : Answer) : ∃ new, begun (step isProcess jobs e a) = begun e ++ new ∧
      ∀ n ∈ new, ∀ d ∈ g.deps n, d ∈ begun e := by
  obtain ⟨⟨new, hnew, hready⟩, -⟩ := advances_step isProcess h a
  refine ⟨new, hnew, ?_⟩
  intro n hn d hd
  by_cases hopen : ∃ r, e.control = .returned r
  · obtain ⟨r, hr⟩ := hopen
    simp only [step, hr] at hnew
    rw [List.self_eq_append_right.mp hnew] at hn
    cases hn
  · have hcoherent := coherent_of_open h hopen
    exact (hcoherent.begun_iff d).mpr
      (.inr (state_deps hcoherent.consistent (hready n hn) (by simp) d hd))

/-- A run that succeeds has begun every node. -/
def BegunAll (g : Sched α) (e : Exec α) : Prop :=
  e.control = .returned .success → ∀ n, n < g.nodes.length → n ∈ begun e

theorem begunAll_step (hg : WellFormed g) (isProcess : α → Bool) (h : LoopInvariant g jobs e)
    (hall : BegunAll g e) (a : Answer) : BegunAll g (step isProcess jobs e a) := by
  intro hsuccess n hn
  by_cases hopen : ∃ r, e.control = .returned r
  · obtain ⟨r, hr⟩ := hopen
    simp only [step, hr] at hsuccess ⊢
    exact hall (hsuccess ▸ hr) n hn
  · have hdone := ((returns_success_iff hg isProcess h hopen hsuccess).mp rfl).1
    have hcoherent := coherent_of_open h hopen
    -- only the `while` head returns with success, and it leaves the nodes as they are
    have hloop : e.control = .loop := by
      by_contra hloop
      exact (failsOnly_step isProcess hopen hloop a _ hsuccess).1 rfl
    simp only [step, hloop, loopStep] at hdone ⊢ hsuccess
    split at hsuccess
    · cases hsuccess
    · rename_i hcompleted
      split at hsuccess
      · rename_i hflush
        simp only [if_neg hcompleted, if_pos hflush] at hdone ⊢
        refine (hcoherent.begun_iff n).mpr (.inr (hdone n ?_))
        rwa [hcoherent.consistent.shape.length_eq]
      · cases hsuccess

theorem begun_execute (hg : WellFormed g) (isProcess : α → Bool) (jobs : Int)
    (answers : List Answer) : Behind g (begun (execute isProcess g jobs answers)) ∧
      BegunAll g (execute isProcess g jobs answers) := by
  have hinv := (reachable_foldl (step isProcess (slotCount jobs)) (start g jobs) answers).invariant
    (fun e => LoopInvariant g (slotCount jobs) e ∧ Behind g (begun e) ∧ BegunAll g e) ?_ ?_
  · exact hinv.2
  · refine ⟨inv_execute hg isProcess jobs [], ?_, ?_⟩
    · intro before n rest heq
      cases before <;> cases heq
    · intro hsuccess
      cases hsuccess
  · rintro e a ⟨h, hbehind, hall⟩
    obtain ⟨new, hnew, hdeps⟩ := deps_begun isProcess h a
    refine ⟨inv_step hg isProcess h a, ?_, begunAll_step hg isProcess h hall a⟩
    rw [hnew]
    exact hbehind.append hdeps

end Begun

/-! ## Runs over the schedule of a label -/

/-- How the nodes of a schedule are begun up to a state of a run. -/
structure InOrder (g : Graph) (label : Option Bytes) (s : Sched SchedNode)
    (isProcess : SchedNode → Bool) (jobs : Int) (e : Exec SchedNode) : Prop where
  once : (begun e).Nodup
  behind : ∀ before n rest, begun e = before ++ n :: rest → ∀ a b m, (nodes s)[n]? = some a →
    Waits g a b → (nodes s)[m]? = some b → m ∈ before
  ready : ∀ answer new, begun (step isProcess (slotCount jobs) e answer) = begun e ++ new →
    ∀ n ∈ new, ∀ a b m, (nodes s)[n]? = some a → Waits g a b → (nodes s)[m]? = some b →
      stateOf e.sched m = some .done
  complete : e.control = .returned .success → ∀ a, NeededNode g label a →
    ∃ n ∈ begun e, (nodes s)[n]? = some a

/-- A needed node waits for another one. -/
def WaitsFor (g : Graph) (label : Option Bytes) (b a : SchedNode) : Prop :=
  NeededNode g label a ∧ NeededNode g label b ∧ Waits g a b

section Runs

variable {h : Host} {g : Graph} {label : Option Bytes} {f : Found} {s : Sched SchedNode}

/-- Every run begins the needed nodes once, each behind those it waits for and after they are
done, and has begun them all when it succeeds. -/
theorem execute_inOrder (hstages : StagesApart g) (hf : schedulerDiscover g label = .ok f)
    (hs : schedulerBuildNodes h g f = .ok s) (isProcess : SchedNode → Bool) (jobs : Int)
    (answers : List Answer) :
    InOrder g label s isProcess jobs (execute isProcess s jobs answers) := by
  have hsched := scheduled hstages hf hs
  have hrun := (scheduler_execute_sound ⟨s, hsched.built⟩ isProcess jobs).1 answers
  obtain ⟨hbehind, hall⟩ := begun_execute hsched.built.wellFormed isProcess jobs answers
  refine ⟨hrun.started_once, ?_, ?_, ?_⟩
  · intro before n rest hsplit a b m ha hwaits hb
    exact hbehind before n rest hsplit m ((hsched.deps n m).mpr ⟨a, b, ha, hb, hwaits⟩)
  · intro answer new hnew n hn a b m ha hwaits hb
    exact (hrun.started_ready answer new hnew n hn).2 m
      ((hsched.deps n m).mpr ⟨a, b, ha, hb, hwaits⟩)
  · intro hsuccess a ha
    obtain ⟨n, hn⟩ := List.mem_iff_getElem?.mp ((hsched.needed a).mpr ha)
    have hlt := (List.getElem?_eq_some_iff.mp hn).1
    exact ⟨n, hall hsuccess n (by simpa [nodes] using hlt), hn⟩

theorem execute_inOrder_header : ∃ s, InOrder headerGraph none s (fun _ => true) 2
    (execute (fun _ => true) s 2 [allSucceed]) := by
  obtain ⟨f, s, hf, hs⟩ := header_schedule
  exact ⟨s, execute_inOrder header_stages hf hs (fun _ => true) 2 [allSucceed]⟩

/-- The edges have a cycle when needed nodes wait for each other in a circle. -/
theorem cyclic_edge_iff (hs : Scheduled g label s) :
    Cyclic (Edge s) ↔ Cyclic (WaitsFor g label) := by
  have hmem : ∀ (n : Nat) a, (nodes s)[n]? = some a → NeededNode g label a :=
    fun n a hn => (hs.needed a).mp (List.mem_of_getElem? hn)
  have hedge : ∀ m n, Edge s m n → ∃ b a, (nodes s)[m]? = some b ∧ (nodes s)[n]? = some a ∧
      WaitsFor g label b a := by
    intro m n hmn
    obtain ⟨a, b, ha, hb, hwaits⟩ := (hs.deps n m).mp hmn
    exact ⟨b, a, hb, ha, hmem n a ha, hmem m b hb, hwaits⟩
  constructor
  · rintro ⟨n, hn⟩
    have hpath : ∀ m, Relation.TransGen (Edge s) n m → ∃ b a, (nodes s)[n]? = some b ∧
        (nodes s)[m]? = some a ∧ Relation.TransGen (WaitsFor g label) b a := by
      intro m hm
      induction hm with
      | single h =>
        obtain ⟨b, a, hb, ha, hwaits⟩ := hedge _ _ h
        exact ⟨b, a, hb, ha, .single hwaits⟩
      | tail _ h ih =>
        obtain ⟨b, a, hb, ha, hreach⟩ := ih
        obtain ⟨a', c, ha', hc, hwaits⟩ := hedge _ _ h
        obtain rfl := Option.some.inj (ha.symm.trans ha')
        exact ⟨b, c, hb, hc, hreach.tail hwaits⟩
    obtain ⟨b, a, hb, ha, hreach⟩ := hpath n hn
    obtain rfl := Option.some.inj (hb.symm.trans ha)
    exact ⟨b, hreach⟩
  · rintro ⟨b, hb⟩
    have hindex : ∀ a, NeededNode g label a → ∃ n : Nat, (nodes s)[n]? = some a :=
      fun a ha => List.mem_iff_getElem?.mp ((hs.needed a).mpr ha)
    have hstep : ∀ (m n : Nat) a c, WaitsFor g label a c → (nodes s)[m]? = some a →
        (nodes s)[n]? = some c → Edge s m n :=
      fun m n a c hwaits hm hn => (hs.deps n m).mpr ⟨c, a, hn, hm, hwaits.2.2⟩
    have hstart : ∃ m : Nat, (nodes s)[m]? = some b := by
      obtain ⟨c, hbc, -⟩ := Relation.TransGen.head'_iff.mp hb
      exact hindex b hbc.2.1
    obtain ⟨m, hm⟩ := hstart
    have hpath : ∀ a, Relation.TransGen (WaitsFor g label) b a →
        ∃ n, (nodes s)[n]? = some a ∧ Relation.TransGen (Edge s) m n := by
      intro a ha
      induction ha with
      | single h =>
        obtain ⟨n, hn⟩ := hindex _ h.1
        exact ⟨n, hn, .single (hstep m n _ _ h hm hn)⟩
      | tail _ h ih =>
        obtain ⟨n, hn, hreach⟩ := ih
        obtain ⟨k, hk⟩ := hindex _ h.1
        exact ⟨k, hk, hreach.tail (hstep n k _ _ h hn hk)⟩
    obtain ⟨n, hn, hreach⟩ := hpath b hb
    have hlt := (List.getElem?_eq_some_iff.mp hm).1
    obtain rfl := (List.getElem?_inj hlt hs.once).mp (hm.trans hn.symm)
    exact ⟨m, hreach⟩

/-- A run in which no call fails and every process exits ends: with success if no needed nodes
wait for each other in a circle, else with a stall. -/
theorem build_completes (hstages : StagesApart g) (hf : schedulerDiscover g label = .ok f)
    (hs : schedulerBuildNodes h g f = .ok s) (isProcess : SchedNode → Bool) (jobs : Int)
    (answers : Nat → Answer) (hsucceeds : ∀ m, Succeeds (answers m))
    (hexit : ProcessesExit
      (trajectory (step isProcess (slotCount jobs)) (start s jobs) answers) answers) :
    ∃ m, (Cyclic (WaitsFor g label) → (trajectory (step isProcess (slotCount jobs))
        (start s jobs) answers m).control = .returned (.failed .stalled)) ∧
      (¬Cyclic (WaitsFor g label) → (trajectory (step isProcess (slotCount jobs))
        (start s jobs) answers m).control = .returned .success) := by
  have hsched := scheduled hstages hf hs
  have hruns := (scheduler_execute_sound ⟨s, hsched.built⟩ isProcess jobs).2 answers hsucceeds hexit
  rwa [cyclic_edge_iff hsched] at hruns

theorem build_completes_header : ∃ (s : Sched SchedNode) (m : Nat),
    (Cyclic (WaitsFor headerGraph none) → (trajectory (step (fun _ => true) (slotCount 2))
      (start s 2) (fun _ => allSucceed) m).control = .returned (.failed .stalled)) ∧
    (¬Cyclic (WaitsFor headerGraph none) → (trajectory (step (fun _ => true) (slotCount 2))
      (start s 2) (fun _ => allSucceed) m).control = .returned .success) := by
  obtain ⟨f, s, hf, hs⟩ := header_schedule
  exact ⟨s, build_completes header_stages hf hs (fun _ => true) 2 (fun _ => allSucceed)
    (fun _ => succeeds_allSucceed) fun _ => ⟨0, fun _ _ _ => rfl⟩⟩

end Runs

end QStar.Scheduler.Order
