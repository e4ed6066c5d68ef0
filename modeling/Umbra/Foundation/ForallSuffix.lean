import Mathlib.Data.List.Basic

/-!
# Properties of every suffix of a list

`ForallSuffix Q l` says that `Q a t` holds for every suffix `a :: t` of `l`. For a list of actions
executed from the front it states what each action may rely on about the actions still to come, and
executing the first action keeps it.
-/

namespace Foundation

variable {α : Type*} {Q R : α → List α → Prop} {l : List α} {a : α}

/-- `Q` holds of every nonempty suffix, split into its head and its tail. -/
def ForallSuffix (Q : α → List α → Prop) : List α → Prop
  | [] => True
  | a :: l => Q a l ∧ ForallSuffix Q l

@[simp] lemma forallSuffix_nil : ForallSuffix Q [] := trivial

@[simp] lemma forallSuffix_cons :
    ForallSuffix Q (a :: l) ↔ Q a l ∧ ForallSuffix Q l := Iff.rfl

lemma forallSuffix_append {l'} :
    ForallSuffix Q (l ++ l') ↔ ForallSuffix (fun a t => Q a (t ++ l')) l ∧ ForallSuffix Q l' := by
  induction l with
  | nil => simp
  | cons a l ih => simp only [List.cons_append, forallSuffix_cons, ih, and_assoc]

lemma ForallSuffix.imp (h : ForallSuffix Q l)
    (himp : ∀ a ∈ l, ∀ t, t <:+ l → Q a t → R a t) : ForallSuffix R l := by
  induction l with
  | nil => trivial
  | cons a l ih =>
    refine ⟨himp a List.mem_cons_self l (List.suffix_cons a l) h.1, ih h.2 ?_⟩
    intro b hb t ht
    exact himp b (List.mem_cons_of_mem a hb) t (ht.trans (List.suffix_cons a l))

lemma ForallSuffix.exists_of_mem (h : ForallSuffix Q l) (ha : a ∈ l) : ∃ t, Q a t := by
  induction l with
  | nil => cases ha
  | cons b l ih =>
    rcases List.mem_cons.mp ha with rfl | ha
    · exact ⟨l, h.1⟩
    · exact ih h.2 ha

/-- A list whose elements make no demand on what follows them. -/
lemma ForallSuffix.of_forall_mem (h : ∀ a ∈ l, ∀ t, Q a t) : ForallSuffix Q l := by
  induction l with
  | nil => trivial
  | cons a l ih =>
    exact ⟨h a List.mem_cons_self l, ih fun b hb => h b (List.mem_cons_of_mem a hb)⟩

end Foundation
