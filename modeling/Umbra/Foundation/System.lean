import Mathlib.Algebra.GroupWithZero.Nat
import Mathlib.Logic.Function.Basic
import Mathlib.Logic.Relation

/-!
# Guarded transition systems

A `System` is an executable step function: `step s e` is `some s'` when the event `e` is enabled in
`s`. `System.run` replays a list of events and `System.Reaches ok` is reachability through events
that each meet `ok` in the state in which they are taken.
-/

namespace Foundation

variable {σ ε : Type*}

/-- What a guarded step returns, and that its guard holds. -/
lemma guard_eq_some {p : Prop} [Decidable p] {s t : σ} (h : (if p then some s else none) = some t) :
    p ∧ s = t := by
  simpa using h

lemma update_some_cases {α β : Type*} [DecidableEq α] {f : α → Option β} {a a' : α} {x y : β}
    (h : Function.update f a (some x) a' = some y) : a' = a ∧ y = x ∨ a' ≠ a ∧ f a' = some y := by
  rcases eq_or_ne a' a with rfl | hne
  · rw [Function.update_self] at h
    exact .inl ⟨rfl, (Option.some.inj h).symm⟩
  · rw [Function.update_of_ne hne] at h
    exact .inr ⟨hne, h⟩

structure System (σ ε : Type*) where
  step : σ → ε → Option σ

namespace System

variable (M : System σ ε)

/-- Replay a list of events; `none` if some event along the way is not enabled. -/
def run (s : σ) : List ε → Option σ
  | [] => some s
  | e :: es => (M.step s e).bind fun t => run t es

/-- The system that takes only the events which meet `ok`. -/
def restrict (ok : σ → ε → Prop) [∀ s e, Decidable (ok s e)] : System σ ε where
  step s e := if ok s e then M.step s e else none

/-- Reachability through steps that all meet `ok`. -/
inductive Reaches (ok : σ → ε → Prop) (s : σ) : σ → Prop
  | refl : Reaches ok s s
  | tail {t u e} (h : Reaches ok s t) (hok : ok t e) (hstep : M.step t e = some u) : Reaches ok s u

def Reachable (s t : σ) : Prop := M.Reaches (fun _ _ => True) s t

variable {M} {ok ok' : σ → ε → Prop} {s t u : σ} {es : List ε}

/-- A property that holds at the start and is kept by every admitted step holds in every state
reached. -/
theorem Reaches.invariant {I : σ → Prop} (h : M.Reaches ok s t) (hinit : I s)
    (hstep : ∀ {t e u}, I t → ok t e → M.step t e = some u → I u) : I t := by
  induction h with
  | refl => exact hinit
  | tail _ hok hs ih => exact hstep ih hok hs

theorem Reaches.mono (h : M.Reaches ok s t) (hok : ∀ s e, ok s e → ok' s e) :
    M.Reaches ok' s t := by
  induction h with
  | refl => exact .refl
  | tail _ he hs ih => exact .tail ih (hok _ _ he) hs

theorem Reaches.trans (h : M.Reaches ok s t) (h' : M.Reaches ok t u) : M.Reaches ok s u := by
  induction h' with
  | refl => exact h
  | tail _ he hs ih => exact .tail ih he hs

theorem Reaches.of_run [∀ s e, Decidable (ok s e)] (h : (M.restrict ok).run s es = some t) :
    M.Reaches ok s t := by
  induction es generalizing s with
  | nil =>
    cases h
    exact .refl
  | cons e es ih =>
    obtain ⟨u, hu, hrest⟩ := Option.bind_eq_some_iff.mp h
    simp only [restrict, Option.ite_none_right_eq_some] at hu
    exact (Reaches.tail .refl hu.1 hu.2).trans (ih hrest)

/-- The end state of a replay is reachable. -/
theorem Reachable.of_run (h : M.run s es = some t) : M.Reachable s t := by
  have hall : M.restrict (fun _ _ => True) = M := by simp [restrict]
  rw [← hall] at h
  exact Reaches.of_run h

/-- The state after a replay, or the start if the replay gets stuck. -/
def after (M : System σ ε) (s : σ) (es : List ε) : σ := (M.run s es).getD s

theorem Reaches.of_isSome [∀ s e, Decidable (ok s e)]
    (h : ((M.restrict ok).run s es).isSome = true) :
    M.Reaches ok s ((M.restrict ok).after s es) := by
  obtain ⟨u, hu⟩ := Option.isSome_iff_exists.mp h
  rw [after, hu]
  exact .of_run hu

theorem Reachable.of_isSome (h : (M.run s es).isSome = true) : M.Reachable s (M.after s es) := by
  obtain ⟨u, hu⟩ := Option.isSome_iff_exists.mp h
  rw [after, hu]
  exact .of_run hu

end System

end Foundation
