import Mathlib.Data.Nat.Notation
import TinyLsm.Library.TransitionSystem

/-!
# Amortized runs

Runs with the number of their busy steps and the credit that the other steps bring in. A potential
that every busy step lowers, and that only credit raises, bounds the busy steps of every run.
-/

namespace TransitionSystem

variable {S : Type*}

/-- A run with `n` busy steps, whose other steps bring in the credit `c`. -/
inductive CountedRun (M : TransitionSystem S) (busy : S → S → Prop) (credit : S → S → ℕ) (s : S) :
    ℕ → ℕ → S → Prop
  | refl : CountedRun M busy credit s 0 0 s
  | busy {n c : ℕ} {s' s'' : S} (hrun : CountedRun M busy credit s n c s')
      (hstep : M.step s' s'') (hbusy : busy s' s'') : CountedRun M busy credit s (n + 1) c s''
  | other {n c : ℕ} {s' s'' : S} (hrun : CountedRun M busy credit s n c s')
      (hstep : M.step s' s'') (hother : ¬busy s' s'') :
      CountedRun M busy credit s n (c + credit s' s'') s''

variable {M : TransitionSystem S} {busy : S → S → Prop} {credit : S → S → ℕ} {s s' : S} {n c : ℕ}

theorem CountedRun.run (h : M.CountedRun busy credit s n c s') : M.Run s s' := by
  induction h with
  | refl => exact .refl
  | busy _ hstep _ ih => exact ih.tail hstep
  | other _ hstep _ ih => exact ih.tail hstep

/-- Every run can be counted. -/
theorem Run.exists_counted (h : M.Run s s') : ∃ n c, M.CountedRun busy credit s n c s' := by
  induction h with
  | refl => exact ⟨0, 0, .refl⟩
  | @tail s' s'' _ hstep ih =>
    obtain ⟨n, c, hrun⟩ := ih
    by_cases hbusy : busy s' s''
    · exact ⟨_, _, .busy hrun hstep hbusy⟩
    · exact ⟨_, _, .other hrun hstep hbusy⟩

/-- The potential method: busy steps are paid from the potential and the credit. -/
theorem CountedRun.amortized {φ : S → ℕ} {price : ℕ}
    (hbusy : ∀ s s', M.Reachable s → M.step s s' → busy s s' → φ s' < φ s)
    (hother : ∀ s s', M.Reachable s → M.step s s' → ¬busy s s' → φ s' ≤ φ s + price * credit s s')
    (h : M.CountedRun busy credit s n c s') (hs : M.Reachable s) :
    n + φ s' ≤ φ s + price * c := by
  induction h with
  | refl => simp
  | busy hrun hstep hstepBusy ih =>
    have hlt := hbusy _ _ (hs.run hrun.run) hstep hstepBusy
    omega
  | other hrun hstep hstepOther ih =>
    have hle := hother _ _ (hs.run hrun.run) hstep hstepOther
    rw [Nat.mul_add]
    omega

end TransitionSystem
