import Mathlib.Logic.Relation

/-!
# Transition systems

Initial states and a step relation, the states a run can reach, and the two rules the
developments use: an invariant of every reachable state, and a property that a run keeps.
-/

/-- Initial states and steps over a state type. -/
structure TransitionSystem (S : Type*) where
  init : S → Prop
  step : S → S → Prop

namespace TransitionSystem

variable {S : Type*} (M : TransitionSystem S)

/-- Any number of steps. -/
def Run : S → S → Prop := Relation.ReflTransGen M.step

/-- The states some run leads to. -/
def Reachable (s : S) : Prop := ∃ s₀, M.init s₀ ∧ M.Run s₀ s

variable {M} {s s' : S}

theorem Run.refl : M.Run s s := Relation.ReflTransGen.refl

theorem Run.tail {s'' : S} (h : M.Run s s') (hstep : M.step s' s'') : M.Run s s'' :=
  Relation.ReflTransGen.tail h hstep

theorem Run.head {s'' : S} (hstep : M.step s s') (h : M.Run s' s'') : M.Run s s'' :=
  Relation.ReflTransGen.head hstep h

theorem Run.trans {s'' : S} (h : M.Run s s') (h' : M.Run s' s'') : M.Run s s'' :=
  Relation.ReflTransGen.trans h h'

theorem Reachable.of_init (h : M.init s) : M.Reachable s := ⟨s, h, .refl⟩

theorem Reachable.run (h : M.Reachable s) (hrun : M.Run s s') : M.Reachable s' :=
  let ⟨s₀, h₀, hs⟩ := h
  ⟨s₀, h₀, hs.trans hrun⟩

theorem Reachable.step (h : M.Reachable s) (hstep : M.step s s') : M.Reachable s' :=
  h.run (Run.refl.tail hstep)

/-- What one step keeps, a run keeps. -/
theorem Run.keeps {P : S → Prop} (hstep : ∀ s s', M.step s s' → P s → P s')
    (h : M.Run s s') (hs : P s) : P s' := by
  induction h with
  | refl => exact hs
  | tail _ step ih => exact hstep _ _ step ih

/-- The invariant rule: what holds initially and is kept by every step holds in every reachable
state. -/
theorem Reachable.invariant {P : S → Prop} (hinit : ∀ s, M.init s → P s)
    (hstep : ∀ s s', M.step s s' → P s → P s') (h : M.Reachable s) : P s :=
  let ⟨_, h₀, hrun⟩ := h
  hrun.keeps hstep (hinit _ h₀)

/-- Induction over the steps of a run from the initial states. -/
theorem Reachable.induction (P : S → Prop) (hinit : ∀ s, M.init s → P s)
    (hstep : ∀ s s', M.Reachable s → M.step s s' → P s → P s') (h : M.Reachable s) : P s := by
  obtain ⟨s₀, h₀, hrun⟩ := h
  induction hrun with
  | refl => exact hinit s₀ h₀
  | tail hrun step ih => exact hstep _ _ ⟨s₀, h₀, hrun⟩ step ih

/-- A property kept by the steps out of reachable states is kept by a run from one. -/
theorem Run.keeps_of_reachable {P : S → Prop}
    (hstep : ∀ s s', M.Reachable s → M.step s s' → P s → P s')
    (h : M.Run s s') (hreach : M.Reachable s) (hs : P s) : P s' := by
  induction h with
  | refl => exact hs
  | tail hrun step ih => exact hstep _ _ (hreach.run hrun) step ih

end TransitionSystem
