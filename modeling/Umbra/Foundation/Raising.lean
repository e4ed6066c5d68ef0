import Mathlib.Data.List.Basic

/-!
# Programs that may raise

A program leads from a state to the list of its outcomes: it may return, or raise at one of its
error points. `wp p s post exc` says that from `s` every return meets `post` and every error `exc`;
`Returns p s` says that one of the outcomes is a return.
-/

namespace Foundation

open List

inductive Outcome (σ ι α : Type)
  | done (a : α) (s : σ)
  | raised (i : ι) (s : σ)
  deriving DecidableEq

/-- Programs over states `σ` with error points `ι`. -/
def Raising (σ ι α : Type) : Type := σ → List (Outcome σ ι α)

namespace Raising

variable {σ ι κ α β : Type}

protected def bind (p : Raising σ ι α) (f : α → Raising σ ι β) : Raising σ ι β := fun s =>
  (p s).flatMap fun
    | .done a t => f a t
    | .raised i t => [.raised i t]

instance : Monad (Raising σ ι) where
  pure a s := [.done a s]
  bind := Raising.bind

def modify (f : σ → σ) : Raising σ ι Unit := fun s => [.done () (f s)]

def read (f : σ → α) : Raising σ ι α := fun s => [.done (f s) s]

/-- A value that the state does not decide. -/
def pick (as : List α) : Raising σ ι α := fun s => as.map (.done · s)

def raise (i : ι) : Raising σ ι α := fun s => [.raised i s]

/-- A statement that leaves the state as it is and may raise. -/
def mayRaise (i : ι) : Raising σ ι Unit := fun s => [.done () s, .raised i s]

def onError (p : Raising σ ι α) (handler : σ → σ) : Raising σ ι α := fun s =>
  (p s).map fun
    | .done a t => .done a t
    | .raised i t => .raised i (handler t)

/-- A section that an error does not leave. -/
def critical (p : Raising σ ι α) : Raising σ ι α := fun s =>
  (p s).filter fun
    | .done .. => true
    | .raised .. => false

/-- A call: the error points of the callee as those of the caller. -/
def call (f : ι → κ) (p : Raising σ ι α) : Raising σ κ α := fun s =>
  (p s).map fun
    | .done a t => .done a t
    | .raised i t => .raised (f i) t

def forEach (as : List α) (body : α → Raising σ ι Unit) : Raising σ ι Unit :=
  match as with
  | [] => pure ()
  | a :: as => do
    body a
    forEach as body

/-! ### Weakest preconditions -/

def wp (p : Raising σ ι α) (s : σ) (post : α → σ → Prop) (exc : ι → σ → Prop) : Prop :=
  ∀ o ∈ p s, match o with
    | .done a t => post a t
    | .raised i t => exc i t

variable {p : Raising σ ι α} {f : α → Raising σ ι β} {s t : σ} {post : α → σ → Prop}
  {exc : ι → σ → Prop} {post' : α → σ → Prop} {body : α → Raising σ ι Unit} {as : List α}

section

variable (h : wp p s post exc)
include h

lemma wp.done {a} (ho : .done a t ∈ p s) : post a t := h _ ho

lemma wp.raised {i} (ho : .raised i t ∈ p s) : exc i t := h _ ho

lemma wp.mono {exc'} (hpost : ∀ a t, post a t → post' a t) (hexc : ∀ i t, exc i t → exc' i t) :
    wp p s post' exc' := by
  intro o ho
  cases o with
  | done a t => exact hpost a t (h.done ho)
  | raised i t => exact hexc i t (h.raised ho)

lemma wp.imp (hpost : ∀ a t, post a t → post' a t) : wp p s post' exc :=
  h.mono hpost fun _ _ => id

end

/-- What holds of every state holds of every return. -/
lemma wp_trivial (h : ∀ a t, post a t) : wp p s post fun _ _ => True := by
  intro o _
  cases o with
  | done a t => exact h a t
  | raised => trivial

@[simp] lemma wp_pure (a) : wp (pure a : Raising σ ι α) s post exc ↔ post a s := by
  simp [wp, pure]

@[simp] lemma wp_bind {post} :
    wp (p >>= f) s post exc ↔ wp p s (fun a t => wp (f a) t post exc) exc := by
  refine forall_mem_flatMap.trans (forall₂_congr fun o _ => ?_)
  cases o with
  | done => rfl
  | raised => exact forall_mem_singleton

@[simp] lemma wp_modify (g) {post} :
    wp (modify g : Raising σ ι Unit) s post exc ↔ post () (g s) := by
  simp [wp, modify]

@[simp] lemma wp_read (g) : wp (read g : Raising σ ι α) s post exc ↔ post (g s) s := by
  simp [wp, read]

@[simp] lemma wp_pick (as) : wp (pick as : Raising σ ι α) s post exc ↔ ∀ a ∈ as, post a s := by
  simp [wp, pick]

@[simp] lemma wp_raise (i) : wp (raise i : Raising σ ι α) s post exc ↔ exc i s := by
  simp [wp, raise]

@[simp] lemma wp_mayRaise (i) {post} : wp (mayRaise i) s post exc ↔ post () s ∧ exc i s := by
  simp [wp, mayRaise]

@[simp] lemma wp_onError (handler : σ → σ) :
    wp (onError p handler) s post exc ↔ wp p s post fun i t => exc i (handler t) := by
  refine forall_mem_map.trans (forall₂_congr fun o _ => ?_)
  cases o with
  | done | raised => rfl

@[simp] lemma wp_critical : wp (critical p) s post exc ↔ wp p s post fun _ _ => True := by
  refine forall_mem_filter.trans (forall₂_congr fun o _ => ?_)
  cases o with
  | done | raised => simp

@[simp] lemma wp_call (g : ι → κ) {exc} :
    wp (call g p) s post exc ↔ wp p s post fun i t => exc (g i) t := by
  refine forall_mem_map.trans (forall₂_congr fun o _ => ?_)
  cases o with
  | done | raised => rfl

/-- A loop keeps an invariant over the elements that are left. -/
lemma wp_forEach {post} (I : List α → σ → Prop) (hstart : I as s)
    (hbody : ∀ a as t, I (a :: as) t → wp (body a) t (fun _ u => I as u) exc)
    (hend : ∀ t, I [] t → post () t) : wp (forEach as body) s post exc := by
  induction as generalizing s with
  | nil =>
    rw [forEach, wp_pure]
    exact hend s hstart
  | cons a as ih =>
    rw [forEach, wp_bind]
    exact (hbody a as s hstart).imp fun _ t ht => ih ht

/-! ### Programs that can return -/

def Returns (p : Raising σ ι α) (s : σ) : Prop := ∃ a t, .done a t ∈ p s

lemma returns_pure (a) : Returns (pure a : Raising σ ι α) s := ⟨a, s, mem_singleton_self _⟩

lemma returns_modify (g) : Returns (modify g : Raising σ ι Unit) s :=
  ⟨(), g s, mem_singleton_self _⟩

lemma returns_read (g) : Returns (read g : Raising σ ι α) s :=
  ⟨g s, s, mem_singleton_self _⟩

lemma returns_mayRaise (i) : Returns (mayRaise i : Raising σ ι Unit) s :=
  ⟨(), s, mem_cons_self⟩

/-- The first statement can return, and wherever it returns so can the rest. -/
lemma Returns.bind (hp : Returns p s)
    (hf : wp p s (fun a t => Returns (f a) t) fun _ _ => True) : Returns (p >>= f) s := by
  obtain ⟨a, t, ht⟩ := hp
  obtain ⟨b, u, hu⟩ := hf.done ht
  exact ⟨b, u, mem_flatMap.mpr ⟨_, ht, hu⟩⟩

lemma Returns.onError (h : Returns p s) (handler : σ → σ) : Returns (onError p handler) s := by
  obtain ⟨a, t, ht⟩ := h
  exact ⟨a, t, mem_map.mpr ⟨_, ht, rfl⟩⟩

/-- A loop that keeps an invariant under which its body can return. -/
lemma returns_forEach (I : List α → σ → Prop) (hstart : I as s)
    (hbody : ∀ a as t, I (a :: as) t → wp (body a) t (fun _ u => I as u) exc)
    (hreturns : ∀ a as t, I (a :: as) t → Returns (body a) t) : Returns (forEach as body) s := by
  induction as generalizing s with
  | nil => exact returns_pure ()
  | cons a as ih =>
    rw [forEach]
    exact (hreturns a as s hstart).bind
      ((hbody a as s hstart).mono (fun _ _ ht => ih ht) fun _ _ _ => trivial)

end Raising

end Foundation
