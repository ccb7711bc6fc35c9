/-!
# Computations that ask

A computation asks its surroundings questions and goes on with what they answer.
Run under two surroundings that answer alike what it asks under the first, it
asks the same and ends the same.
-/
namespace QStar.Lib.Questions

universe u v w

/-- A computation that ends with an `R`; a question `q` is answered with an `A q`. -/
inductive Asks {Q : Type u} (A : Q → Type v) (R : Type w) : Type (max u v w) where
  | done (r : R)
  | ask (q : Q) (next : A q → Asks A R)

variable {Q : Type u} {A : Q → Type v} {R S : Type w}

def Asks.bind : Asks A R → (R → Asks A S) → Asks A S
  | .done r, f => f r
  | .ask q next, f => .ask q fun a => (next a).bind f

instance : Monad (Asks (Q := Q) A) where
  pure := .done
  bind := .bind

/-- One question and nothing else. -/
def question {Q : Type u} {A : Q → Type v} (q : Q) : Asks A (A q) := .ask q .done

/-- The result under surroundings that answer every question. -/
def Asks.run (answer : ∀ q, A q) : Asks A R → R
  | .done r => r
  | .ask q next => (next (answer q)).run answer

/-- The questions that are asked, in order. -/
def Asks.asked (answer : ∀ q, A q) : Asks A R → List Q
  | .done _ => []
  | .ask q next => q :: (next (answer q)).asked answer

variable {f g : ∀ q, A q}

/-- Surroundings that answer alike whatever is asked under the first are not told apart. -/
theorem run_congr {p : Asks A R} (h : ∀ q ∈ p.asked f, g q = f q) : p.run g = p.run f := by
  induction p with
  | done r => rfl
  | ask q next ih =>
    have hq : g q = f q := h q List.mem_cons_self
    rw [Asks.run, Asks.run, hq]
    apply ih
    intro q' hq'
    exact h q' (List.mem_cons_of_mem _ hq')

@[simp] theorem run_bind (p : Asks A R) (k : R → Asks A S) : (p.bind k).run f = (k (p.run f)).run f := by
  induction p with
  | done r => rfl
  | ask q next ih => exact ih (f q)

@[simp] theorem asked_bind (p : Asks A R) (k : R → Asks A S) :
    (p.bind k).asked f = p.asked f ++ (k (p.run f)).asked f := by
  induction p with
  | done r => rfl
  | ask q next ih => exact congrArg (q :: ·) (ih (f q))

@[simp] theorem bind_eq {R S : Type w} (p : Asks A R) (k : R → Asks A S) : (p >>= k) = p.bind k := rfl

@[simp] theorem run_pure {R : Type w} (r : R) : (pure r : Asks A R).run f = r := rfl

@[simp] theorem asked_pure {R : Type w} (r : R) : (pure r : Asks A R).asked f = [] := rfl

@[simp] theorem run_question (q : Q) : (question q : Asks A (A q)).run f = f q := rfl

@[simp] theorem asked_question (q : Q) : (question q : Asks A (A q)).asked f = [q] := rfl

end QStar.Lib.Questions
