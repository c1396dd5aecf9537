import Mathlib.Init

/-!
# Interactions

Programs that ask questions: a tree whose inner nodes are questions, with a branch for every answer.
-/

/-- A program with questions in `Q` and answers in `A`. -/
inductive Interaction (Q A : Type*) (α : Type*) where
  | done (a : α)
  | ask (q : Q) (k : A → Interaction Q A α)

namespace Interaction

variable {Q A α β : Type*}

/-- The result when every question is answered by `answer`. -/
def run (answer : Q → A) : Interaction Q A α → α
  | done a => a
  | ask q k => run answer (k (answer q))

/-- The result goes through a function. -/
def map (f : α → β) : Interaction Q A α → Interaction Q A β
  | done a => done (f a)
  | ask q k => ask q fun a => map f (k a)

/-- Whatever the answers are, only questions that satisfy `P` are asked. -/
def Asks (P : Q → Prop) : Interaction Q A α → Prop
  | done _ => True
  | ask q k => P q ∧ ∀ a, Asks P (k a)

@[simp] theorem run_done (answer : Q → A) (a : α) : (done a : Interaction Q A α).run answer = a := rfl

@[simp] theorem run_ask (answer : Q → A) (q : Q) (k : A → Interaction Q A α) :
    (ask q k).run answer = (k (answer q)).run answer := rfl

@[simp] theorem run_map (answer : Q → A) (f : α → β) (p : Interaction Q A α) :
    (p.map f).run answer = f (p.run answer) := by
  induction p with
  | done a => rfl
  | ask q k ih => exact ih (answer q)

theorem asks_map {P : Q → Prop} {f : α → β} {p : Interaction Q A α} (h : p.Asks P) :
    (p.map f).Asks P := by
  induction p with
  | done a => trivial
  | ask q k ih => exact ⟨h.1, fun a => ih a (h.2 a)⟩

end Interaction
