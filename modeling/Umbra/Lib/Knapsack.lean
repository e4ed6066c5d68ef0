import Mathlib.Algebra.BigOperators.Group.Finset.Basic
import Mathlib.Algebra.Order.Ring.Rat
import Mathlib.Algebra.Order.BigOperators.Group.Finset

/-!
# The knapsack solver

`DiscreteKnapsack` keeps two tables over the weights and overwrites them in place, item by item
and from the largest weight down. Values are rational: every finite double is, and the sums are
taken to be exact.
-/

namespace Umbra.Knapsack

open Finset Function

structure Tables where
  values : ℕ → ℚ
  sets : ℕ → Finset ℕ

/-- A turn of the inner loop. -/
def turn (i iw : ℕ) (iv : ℚ) (t : Tables) (j : ℕ) : Tables :=
  let ow := j - iw
  if t.values j ≤ t.values ow + iv then
    { values := update t.values j (t.values ow + iv)
      sets := update t.sets j (insert i (if j ≠ ow then t.sets ow else t.sets j)) }
  else t

/-- The inner loop, from `j - 1` down to the weight of the item. -/
def pass (i iw : ℕ) (iv : ℚ) : ℕ → Tables → Tables
  | 0, t => t
  | j + 1, t => if iw ≤ j then pass i iw iv j (turn i iw iv t j) else t

/-- The arguments of `DiscreteKnapsack`. -/
structure Problem where
  maxWeight : ℕ
  numItems : ℕ
  itemWeights : ℕ → ℕ
  itemValues : Option (ℕ → ℚ)

def maxAllocSize : ℕ := 0x3fffffff

namespace Problem

variable (p : Problem)

def value (i : ℕ) : ℚ := p.itemValues.elim 1 (· i)

/-- The tables after a number of items; every set has an unused high bit. -/
def tables : ℕ → Tables
  | 0 => ⟨fun _ => 0, fun _ => {p.numItems}⟩
  | i + 1 => pass i (p.itemWeights i) (p.value i) (p.maxWeight + 1) (tables i)

/-- `palloc` refuses a table that is too large. -/
def discreteKnapsack : Option (Finset ℕ) :=
  if (1 + p.maxWeight) * 8 ≤ maxAllocSize then
    some (((p.tables p.numItems).sets p.maxWeight).erase p.numItems)
  else none

/-- A set of the first `k` items within a weight that no other such set exceeds in value. -/
structure Optimal (k w : ℕ) (s : Finset ℕ) : Prop where
  items : s ⊆ range k
  fits : ∑ i ∈ s, p.itemWeights i ≤ w
  best : ∀ u ⊆ range k, ∑ i ∈ u, p.itemWeights i ≤ w → ∑ i ∈ u, p.value i ≤ ∑ i ∈ s, p.value i

/-- What the tables hold for a weight once the first `k` items are done. -/
structure Entry (k : ℕ) (t : Tables) (w : ℕ) : Prop where
  value : t.values w = ∑ i ∈ (t.sets w).erase p.numItems, p.value i
  optimal : p.Optimal k w ((t.sets w).erase p.numItems)

end Problem

variable {p : Problem} {i j w : ℕ} {s s' u : Finset ℕ} {t : Tables}

lemma subset_range_of_notMem (hs : s ⊆ range (i + 1)) (hi : i ∉ s) : s ⊆ range i := by
  rw [range_add_one] at hs
  exact (subset_insert_iff_of_notMem hi).mp hs

namespace Problem.Optimal

lemma subset_succ (h : p.Optimal i w s) : s ⊆ range (i + 1) :=
  h.items.trans (range_subset_range.mpr (Nat.le_succ i))

/-- An item that is too heavy changes nothing. -/
lemma skip (h : p.Optimal i w s) (hw : w < p.itemWeights i) : p.Optimal (i + 1) w s where
  items := h.subset_succ
  fits := h.fits
  best u hu hfit := by
    have hi : i ∉ u := fun hi =>
      absurd (single_le_sum (fun k _ => Nat.zero_le (p.itemWeights k)) hi) (by omega)
    exact h.best u (subset_range_of_notMem hu hi) hfit

section Item

variable (h : p.Optimal i w s) (h' : p.Optimal i (w - p.itemWeights i) s')

include h'

/-- A set with the item is worth no more than the best set beside the item, and the item. -/
lemma best_with (hu : u ⊆ range (i + 1)) (hi : i ∈ u) (hfit : ∑ k ∈ u, p.itemWeights k ≤ w) :
    ∑ k ∈ u, p.value k ≤ ∑ k ∈ s', p.value k + p.value i := by
  rw [← sum_erase_add u _ hi] at hfit ⊢
  have hsub := subset_range_of_notMem ((erase_subset i u).trans hu) (notMem_erase i u)
  exact add_le_add_left (h'.best _ hsub (by omega)) _

include h

lemma leave (hle : ∑ k ∈ s', p.value k + p.value i ≤ ∑ k ∈ s, p.value k) :
    p.Optimal (i + 1) w s where
  items := h.subset_succ
  fits := h.fits
  best u hu hfit := by
    by_cases hi : i ∈ u
    · exact (h'.best_with hu hi hfit).trans hle
    · exact h.best u (subset_range_of_notMem hu hi) hfit

lemma take (hw : p.itemWeights i ≤ w) (hi : i ∉ s')
    (hle : ∑ k ∈ s, p.value k ≤ ∑ k ∈ s', p.value k + p.value i) :
    p.Optimal (i + 1) w (insert i s') where
  items := insert_subset (self_mem_range_succ i) h'.subset_succ
  fits := by
    have := h'.fits
    rw [sum_insert hi]
    omega
  best u hu hfit := by
    rw [sum_insert hi, add_comm]
    by_cases hiu : i ∈ u
    · exact h'.best_with hu hiu hfit
    · exact (h.best u (subset_range_of_notMem hu hiu) hfit).trans hle

end Item

end Problem.Optimal

/-- A turn does the weight it is at: the two entries it reads are not done yet. -/
lemma Problem.Entry.at_turn (hi : i < p.numItems) (hj : p.itemWeights i ≤ j)
    (h : ∀ w ≤ j, p.Entry i t w) :
    p.Entry (i + 1) (turn i (p.itemWeights i) (p.value i) t j) j := by
  obtain ⟨hv, ho⟩ := h j le_rfl
  obtain ⟨hv', ho'⟩ := h (j - p.itemWeights i) (Nat.sub_le ..)
  have hset : (if j ≠ j - p.itemWeights i then t.sets (j - p.itemWeights i) else t.sets j)
      = t.sets (j - p.itemWeights i) := by
    split_ifs with heq
    · rfl
    · rw [← not_not.mp heq]
  simp only [turn, hset]
  rw [hv, hv']
  split_ifs with hle
  · have hmem : i ∉ (t.sets (j - p.itemWeights i)).erase p.numItems :=
      fun hmem => by simpa using ho'.items hmem
    have herase := erase_insert_of_ne hi.ne (s := t.sets (j - p.itemWeights i))
    refine ⟨?_, ?_⟩
    · simp only [update_self]
      rw [herase, sum_insert hmem, add_comm]
    · simp only [update_self]
      rw [herase]
      exact ho.take ho' hj hmem hle
  · exact ⟨hv, ho.leave ho' (not_le.mp hle).le⟩

lemma Problem.Entry.off_turn {k iw : ℕ} {iv : ℚ} (h : p.Entry k t w) (hne : w ≠ j) :
    p.Entry k (turn i iw iv t j) w := by
  rw [turn]
  split
  · constructor
    · simpa only [update_of_ne hne] using h.value
    · simpa only [update_of_ne hne] using h.optimal
  · exact h

/-- Below `j` the entries are those of the items before, from `j` on the item is done. -/
lemma Problem.Entry.after_pass (hi : i < p.numItems) (hold : ∀ w < j, p.Entry i t w)
    (hnew : ∀ w, j ≤ w → w ≤ p.maxWeight → p.Entry (i + 1) t w) (hw : w ≤ p.maxWeight) :
    p.Entry (i + 1) (pass i (p.itemWeights i) (p.value i) j t) w := by
  induction j generalizing t with
  | zero => exact hnew w (Nat.zero_le w) hw
  | succ j ih =>
    rw [pass]
    split_ifs with hj
    · refine ih (fun w hlt => ?_) fun w hle hw => ?_
      · exact (hold w (hlt.trans (Nat.lt_succ_self j))).off_turn hlt.ne
      · rcases hle.eq_or_lt with rfl | hlt
        · exact .at_turn hi hj fun w hw => hold w (Nat.lt_succ_of_le hw)
        · exact (hnew w hlt hw).off_turn hlt.ne'
    · by_cases hlt : w < j + 1
      · obtain ⟨hv, ho⟩ := hold w hlt
        exact ⟨hv, ho.skip (by omega)⟩
      · exact hnew w (by omega) hw

lemma Problem.entry_tables (hi : i ≤ p.numItems) (hw : w ≤ p.maxWeight) :
    p.Entry i (p.tables i) w := by
  induction i generalizing w with
  | zero =>
    refine ⟨?_, ?_, ?_, fun u hu _ => ?_⟩
    · simp [tables]
    · simp [tables]
    · simp [tables]
    · simp [tables, subset_empty.mp hu]
  | succ i ih =>
    refine .after_pass hi (fun w hlt => ih (Nat.le_of_succ_le hi) (Nat.le_of_lt_succ hlt)) ?_ hw
    intro w hle hw
    omega

/-- The set returned has only items, is within the weight limit and no set of items within the
limit is worth more. -/
theorem discreteKnapsack_optimal (p : Problem) :
    (∃ set, p.discreteKnapsack = some set ∧ set ⊆ range p.numItems ∧
        ∑ i ∈ set, p.itemWeights i ≤ p.maxWeight ∧
        ∀ other ⊆ range p.numItems, ∑ i ∈ other, p.itemWeights i ≤ p.maxWeight →
          ∑ i ∈ other, p.value i ≤ ∑ i ∈ set, p.value i) ∨
      p.discreteKnapsack = none ∧ maxAllocSize < (1 + p.maxWeight) * 8 := by
  by_cases hsize : (1 + p.maxWeight) * 8 ≤ maxAllocSize
  · obtain ⟨-, hitems, hfits, hbest⟩ := p.entry_tables le_rfl le_rfl
    exact .inl ⟨_, if_pos hsize, hitems, hfits, hbest⟩
  · exact .inr ⟨if_neg hsize, not_le.mp hsize⟩

end Umbra.Knapsack
