import Mathlib.Data.List.Basic

/-!
# Properties of the first entries of a log

`ForallBefore P l m` says that `P i a` holds for every entry `a` of the log `l` at a position
`i < m`, and `ExistsBefore P l m` that `P a` holds for one of them. A log only grows at its end, so
what is known below a position inside the log stays known.
-/

namespace Foundation

variable {α : Type*} {P Q : Nat → α → Prop} {l l' : List α} {m m' : Nat} {a : α}

/-- `P` holds of every entry in front of position `m`. -/
def ForallBefore (P : Nat → α → Prop) (l : List α) (m : Nat) : Prop :=
  ∀ i < m, ∀ a, l[i]? = some a → P i a

lemma ForallBefore.imp (h : ForallBefore P l m) (himp : ∀ i < m, ∀ a, P i a → Q i a) :
    ForallBefore Q l m :=
  fun i hi a ha => himp i hi a (h i hi a ha)

lemma ForallBefore.mono (h : ForallBefore P l m) (hle : m' ≤ m) : ForallBefore P l m' :=
  fun i hi a ha => h i (Nat.lt_of_lt_of_le hi hle) a ha

lemma ForallBefore.append (h : ForallBefore P l m) (hle : m ≤ l.length) :
    ForallBefore P (l ++ l') m := by
  intro i hi a ha
  rw [List.getElem?_append_left (Nat.lt_of_lt_of_le hi hle)] at ha
  exact h i hi a ha

lemma ForallBefore.concat (h : ForallBefore P l l.length) (ha : P l.length a) :
    ForallBefore P (l ++ [a]) (l ++ [a]).length := by
  intro i hi b hb
  rw [List.length_append, List.length_singleton] at hi
  rcases Nat.lt_succ_iff_lt_or_eq.mp hi with hlt | rfl
  · rw [List.getElem?_append_left hlt] at hb
    exact h i hlt b hb
  · rw [List.getElem?_concat_length, Option.some.injEq] at hb
    exact hb ▸ ha

lemma ForallBefore.take {j} (h : ForallBefore P l m) : ForallBefore P (l.take j) m := by
  intro i hi a ha
  refine h i hi a ?_
  rw [List.getElem?_take] at ha
  split_ifs at ha
  exact ha

lemma ForallBefore.succ (h : ForallBefore P l m) (hm : ∀ a, l[m]? = some a → P m a) :
    ForallBefore P l (m + 1) := by
  intro i hi a ha
  rcases Nat.lt_succ_iff_lt_or_eq.mp hi with hlt | rfl
  · exact h i hlt a ha
  · exact hm a ha

/-- `P` holds of some entry in front of position `m`. -/
def ExistsBefore (P : α → Prop) (l : List α) (m : Nat) : Prop :=
  ∃ i < m, ∃ a, l[i]? = some a ∧ P a

section ExistsBefore

variable {P : α → Prop}

section

variable (h : ExistsBefore P l m)
include h

lemma ExistsBefore.mono (hle : m ≤ m') : ExistsBefore P l m' := by
  obtain ⟨i, hi, ha⟩ := h
  exact ⟨i, Nat.lt_of_lt_of_le hi hle, ha⟩

lemma ExistsBefore.append : ExistsBefore P (l ++ l') m := by
  obtain ⟨i, hi, a, ha, hP⟩ := h
  obtain ⟨hlt, -⟩ := List.getElem?_eq_some_iff.mp ha
  exact ⟨i, hi, a, by rw [List.getElem?_append_left hlt, ha], hP⟩

lemma ExistsBefore.take : ExistsBefore P (l.take m) m := by
  obtain ⟨i, hi, a, ha, hP⟩ := h
  exact ⟨i, hi, a, by rw [List.getElem?_take, if_pos hi, ha], hP⟩

/-- Every position of the log lies in front of its end. -/
lemma ExistsBefore.of_length_le (hle : l.length ≤ m') : ExistsBefore P l m' := by
  obtain ⟨i, -, a, ha, hP⟩ := h
  obtain ⟨hlt, -⟩ := List.getElem?_eq_some_iff.mp ha
  exact ⟨i, Nat.lt_of_lt_of_le hlt hle, a, ha, hP⟩

end

lemma ExistsBefore.of_mem_take (ha : a ∈ l.take m) (hP : P a) : ExistsBefore P l m := by
  obtain ⟨i, hi⟩ := List.mem_iff_getElem?.mp ha
  rw [List.getElem?_take] at hi
  split_ifs at hi with hlt
  exact ⟨i, hlt, a, hi, hP⟩

end ExistsBefore

end Foundation
