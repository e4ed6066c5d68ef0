import Mathlib.Algebra.BigOperators.Pi
import Mathlib.Algebra.Order.BigOperators.Group.Finset

/-!
# Totals over processes

What a quantity adds up to over all processes when one of them changes.
-/

namespace Foundation

open Function

variable {ι α : Type*} [Fintype ι] [DecidableEq ι]

variable (f : α → Nat) (g : ι → α) (p : ι)
include f g p

/-- The total of a weight before and after a change at one place. -/
theorem sum_update_add (x : α) : (∑ q, f (update g p x q)) + f (g p) = (∑ q, f (g q)) + f x := by
  have hcomp : ∀ q, f (update g p x q) = update (fun q => f (g q)) p (f x) q :=
    fun q => Function.apply_update (fun _ => f) g p x q
  simp only [hcomp, Finset.sum_update_of_mem (Finset.mem_univ p)]
  rw [← Finset.add_sum_erase Finset.univ (fun q => f (g q)) (Finset.mem_univ p),
    Finset.sdiff_singleton_eq_erase]
  omega

/-- A change that keeps the weight keeps the total. -/
theorem sum_update_eq {x} (h : f x = f (g p)) : ∑ q, f (update g p x q) = ∑ q, f (g q) := by
  have hsum := sum_update_add f g p x
  omega

omit [DecidableEq ι] in
/-- One process has at most the total. -/
theorem le_sum : f (g p) ≤ ∑ q, f (g q) :=
  Finset.single_le_sum (f := fun q => f (g q)) (fun _ _ => Nat.zero_le _) (Finset.mem_univ p)

end Foundation
