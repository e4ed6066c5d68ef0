import Mathlib.Order.Nat
import Umbra.Foundation.System

/-!
# Infinite executions and fairness

An execution of a system takes a step at every moment. It is fair to a party if that party is not
passed over forever while it could take a step. `Execution.exists_taken` is the rule by which
fairness turns a step that stays enabled into a step that is taken.
-/

namespace Foundation.System

variable {σ ε : Type*} {M : System σ ε}

structure Execution (M : System σ ε) where
  state : ℕ → σ
  event : ℕ → ε
  step : ∀ n, M.step (state n) (event n) = some (state (n + 1))

namespace Execution

variable (E : Execution M)

/-- Again and again the party of the events `mine` takes a step or cannot. -/
def WeaklyFair (mine : ε → Prop) : Prop :=
  ∀ n, ∃ m ≥ n, mine (E.event m) ∨ ∀ e, mine e → M.step (E.state m) e = none

lemma reaches {ok : σ → ε → Prop} (hok : ∀ n, ok (E.state n) (E.event n)) (n) :
    M.Reaches ok (E.state 0) (E.state n) := by
  induction n with
  | zero => exact .refl
  | succ n ih => exact .tail ih (hok n) (E.step n)

variable {E} {mine : ε → Prop} {P : σ → Prop}

/-- A condition that enables a step of the party, and that only the party ends, lasts until the
party takes a step. -/
lemma exists_taken (hfair : E.WeaklyFair mine)
    (henabled : ∀ m, P (E.state m) → ∃ e, mine e ∧ M.step (E.state m) e ≠ none)
    (hstay : ∀ m, P (E.state m) → ¬ mine (E.event m) → P (E.state (m + 1)))
    {n : ℕ} (hn : P (E.state n)) : ∃ m ≥ n, P (E.state m) ∧ mine (E.event m) := by
  by_contra hnever
  have hP : ∀ m ≥ n, P (E.state m) := by
    intro m hm
    induction m, hm using Nat.le_induction with
    | base => exact hn
    | succ m hm ih => exact hstay m ih fun he => hnever ⟨m, hm, ih, he⟩
  obtain ⟨m, hm, he | hnone⟩ := hfair n
  · exact hnever ⟨m, hm, hP m hm, he⟩
  · obtain ⟨e, he, hsome⟩ := henabled m (hP m hm)
    exact hsome (hnone e he)

end Execution

end Foundation.System
