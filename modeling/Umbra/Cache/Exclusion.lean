import Umbra.Cache.Moves

/-!
# Locks and flags of the MAP cache

Who is in which critical section, and what the flags of a buffer say meanwhile. The flags only
change in critical sections as long as no count leaves its field (`CountsFit`).
-/

namespace Umbra.Cache

open Foundation Function

variable {n m k : Nat} {ρ : Type}

namespace Pc

def pinned : Pc m ρ → Option (Fin m)
  | .raise _ _ i | .verify _ _ i | .claim _ _ i _ | .examine _ _ i _ | .insert _ _ i
  | .delete _ _ i | .install _ _ i | .returned _ _ i | .size _ i | .extend _ i _ | .mark _ i
  | .retry _ _ i | .unpin i | .startIo i _ (.victim ..) | .io i (.victim ..)
  | .ioLocked i (.victim ..) | .ioWritten i (.victim ..) => some i
  | _ => none

def relying : Pc m ρ → Option (PageTag ρ × Fin m)
  | .returned tag _ i | .size tag i | .extend tag i _ | .mark tag i => some (tag, i)
  | _ => none

def publishing : Pc m ρ → Option (Fin m)
  | .size _ i | .extend _ i _ | .mark _ i => some i
  | _ => none

def replacing : Pc m ρ → Option (Fin m)
  | .insert _ _ i | .delete _ _ i | .install _ _ i => some i
  | _ => none

def inserting : Pc m ρ → Option (PageTag ρ × Fin m)
  | .insert tag _ i | .delete tag _ i => some (tag, i)
  | _ => none

def naming : Pc m ρ → Option (PageTag ρ × Fin m)
  | .delete tag _ i | .install tag _ i => some (tag, i)
  | _ => none

def installing : Pc m ρ → Option (Fin m)
  | .install _ _ i => some i
  | _ => none

def writing : Pc m ρ → Option (Fin m)
  | .io i _ | .ioLocked i _ | .ioWritten i _ => some i
  | _ => none

variable {pc : Pc m ρ} {i : Fin m}

lemma exclusive_of_replacing (h : pc.replacing = some i) : pc.exclusive = some i := by
  cases pc <;> first | exact h | cases h

lemma exclusive_of_publishing (h : pc.publishing = some i) : pc.exclusive = some i := by
  cases pc <;> first | exact h | cases h

/-- The process has no lock, pin or buffer in hand. -/
structure Bare (pc : Pc m ρ) : Prop where
  exclusive : pc.exclusive = none
  pinned : pc.pinned = none
  relying : pc.relying = none
  publishing : pc.publishing = none
  replacing : pc.replacing = none
  inserting : pc.inserting = none
  naming : pc.naming = none
  installing : pc.installing = none
  writing : pc.writing = none

def surveying : Pc m ρ → Bool
  | .idle | .scan .. | .scanMark .. | .targets _ | .startIo _ _ (.checkpoint _) | .superScan ..
  | .superFlush .. | .finished .. => true
  | _ => false

lemma bare_of_surveying (h : pc.surveying = true) : pc.Bare := by
  unfold surveying at h
  split at h <;> first | exact ⟨rfl, rfl, rfl, rfl, rfl, rfl, rfl, rfl, rfl⟩ | cases h

end Pc

namespace State

variable (s : State n m k ρ) (p q : Fin n) (pc : Pc m ρ)

@[simp] lemma pcs_goto_self : (s.goto p pc).pcs p = pc := update_self ..

variable {p q} in
lemma pcs_goto_of_ne (h : q ≠ p) : (s.goto p pc).pcs q = s.pcs q := update_of_ne h ..

variable (i j : Fin m) (w : Word)

@[simp] lemma word_setWord_self : (s.setWord i w).word i = w := update_self ..

variable {i j} in
lemma word_setWord_of_ne (h : j ≠ i) : (s.setWord i w).word j = s.word j :=
  update_of_ne h ..

end State

namespace State

variable {s : State n m k ρ} {pc : Pc m ρ} {p : Fin n}

lemma forall_goto {P : Fin n → Pc m ρ → Prop} (hp : P p pc) (hq : ∀ q, q ≠ p → P q (s.pcs q)) (q) :
    P q ((s.goto p pc).pcs q) := by
  rcases eq_or_ne q p with rfl | hne
  · rw [s.pcs_goto_self]
    exact hp
  · rw [s.pcs_goto_of_ne pc hne]
    exact hq q hne

lemma forall_setWord {i : Fin m} {w : Word} {P : Fin m → Word → Prop} (hi : P i w)
    (hj : ∀ j, j ≠ i → P j (s.word j)) (j) : P j ((s.setWord i w).word j) := by
  rcases eq_or_ne j i with rfl | hne
  · rw [s.word_setWord_self]
    exact hi
  · rw [s.word_setWord_of_ne w hne]
    exact hj j hne

lemma exists_goto {β} (role : Pc m ρ → Option β) {x}
    (hp : role (s.pcs p) = some x → role pc = some x) :
    (∃ q, role (s.pcs q) = some x) → ∃ q, role ((s.goto p pc).pcs q) = some x := by
  rintro ⟨q, hq⟩
  refine ⟨q, forall_goto (P := fun q' pc' => q' = q → role pc' = some x) ?_ ?_ q rfl⟩
  · rintro rfl
    exact hp hq
  · rintro _ _ rfl
    exact hq

end State

lemma State.flushSuper_frame [DecidableEq ρ] (s : State n m k ρ) (rnode : ρ) :
    ∃ supers superWrites, s.flushSuper rnode = { s with supers, superWrites } := by
  unfold State.flushSuper
  split
  · split
    · split <;> exact ⟨_, _, rfl⟩
    · exact ⟨_, _, rfl⟩
  · exact ⟨_, _, rfl⟩

/-- A usage count is lowered only while it is not zero and raised only while it is not 31. -/
def CountsFit (s : State n m k ρ) : Event n m k ρ → Prop
  | .next p =>
    match s.pcs p with
    | .raise _ _ i => (s.word i).usage.val + 1 < 32
    | .decrement _ _ i => 0 < (s.word i).usage.val
    | _ => True
  | _ => True

instance (s : State n m k ρ) (e : Event n m k ρ) : Decidable (CountsFit s e) := by
  unfold CountsFit
  split
  · split <;> infer_instance
  · infer_instance

section CountsFit

variable {s : State n m k ρ} {p : Fin n} {tag : PageTag ρ} {use : Use} {i : Fin m}
  (h : CountsFit s (.next p))
include h

lemma CountsFit.raise (hpc : s.pcs p = .raise tag use i) : (s.word i).usage.val + 1 < 32 := by
  simpa only [CountsFit, hpc] using h

lemma CountsFit.decrement (hpc : s.pcs p = .decrement tag use i) : 0 < (s.word i).usage.val := by
  simpa only [CountsFit, hpc] using h

end CountsFit

/-- What content locks and `MAPBUF_IO_IN_PROGRESS` exclude. -/
structure Guarded (s : State n m k ρ) : Prop where
  lock : ∀ p q i, p ≠ q → (s.pcs p).exclusive = some i →
    (s.pcs q).exclusive ≠ some i ∧ (s.pcs q).shared ≠ some i
  io : ∀ p i, (s.pcs p).writing = some i → (s.word i).ioInProgress = true ∧ (s.word i).dirty = true
  writer : ∀ p q i, (s.pcs p).writing = some i → (s.pcs q).writing = some i → p = q
  needed : ∀ i, (s.word i).checkpointNeeded = true → (s.word i).dirty = true
  clean : ∀ p i, (s.pcs p).replacing = some i → (s.word i).dirty = false
  scanned : ∀ p i, (s.pcs p).shared = some i → (s.word i).dirty = true

lemma guarded_init (file nblocks logical) :
    Guarded (init file nblocks logical : State n m k ρ) where
  lock := nofun
  io := nofun
  writer := nofun
  needed := nofun
  clean := nofun
  scanned := nofun

namespace Guarded

variable {s t : State n m k ρ} {p : Fin n} {i : Fin m}

lemma eq_of_exclusive (h : Guarded s) {q} (hp : (s.pcs p).exclusive = some i)
    (hq : (s.pcs q).exclusive = some i) : p = q := by
  by_contra hne
  exact (h.lock p q i hne hp).1 hq

lemma of_frame (h : Guarded s) (hpcs : t.pcs = s.pcs) (hword : t.word = s.word) : Guarded t := by
  obtain ⟨pcs, word⟩ := t
  cases hpcs
  cases hword
  exact { h with }

lemma goto (h : Guarded s) {pc}
    (hx : ∀ i, pc.exclusive = some i → (s.pcs p).exclusive = some i ∨ s.CanLock p i)
    (hs : ∀ i, pc.shared = some i → ((s.pcs p).shared = some i ∨ s.CanShare p i) ∧ (s.word i).dirty
      = true)
    (hw : ∀ i, pc.writing = some i → (s.pcs p).writing = some i ∨ (∀ q, (s.pcs q).writing ≠ some i)
      ∧ (s.word i).ioInProgress = true ∧ (s.word i).dirty = true)
    (hr : ∀ i, pc.replacing = some i → (s.word i).dirty = false) : Guarded (s.goto p pc) := by
  have hown : ∀ q i, q ≠ p → pc.exclusive = some i →
      (s.pcs q).exclusive ≠ some i ∧ (s.pcs q).shared ≠ some i := by
    intro q i hq hi
    rcases hx i hi with hold | hfree
    · exact h.lock p q i hq.symm hold
    · exact hfree q hq
  have hshare : ∀ q i, q ≠ p → pc.shared = some i → (s.pcs q).exclusive ≠ some i := by
    intro q i hq hi hqi
    rcases (hs i hi).1 with hold | hfree
    · exact (h.lock q p i hq hqi).2 hold
    · exact hfree q hq hqi
  have hnew : ∀ i, pc.writing = some i →
      ((s.word i).ioInProgress = true ∧ (s.word i).dirty = true) ∧
        ∀ q, q ≠ p → (s.pcs q).writing ≠ some i := by
    intro i hi
    rcases hw i hi with hold | ⟨hnone, hflags⟩
    · exact ⟨h.io p i hold, fun q hq hqi => hq (h.writer q p i hqi hold)⟩
    · exact ⟨hflags, fun q _ => hnone q⟩
  refine ⟨?_, ?_, ?_, h.needed, ?_, ?_⟩
  · intro q r i hne hq
    rcases eq_or_ne q p with rfl | hqp
    · rw [s.pcs_goto_self] at hq
      rw [s.pcs_goto_of_ne pc hne.symm]
      exact hown r i hne.symm hq
    · rw [s.pcs_goto_of_ne pc hqp] at hq
      rcases eq_or_ne r p with rfl | hrp
      · rw [s.pcs_goto_self]
        exact ⟨fun hi => (hown q i hqp hi).1 hq, fun hi => hshare q i hqp hi hq⟩
      · rw [s.pcs_goto_of_ne pc hrp]
        exact h.lock q r i hne hq
  · exact fun q i => State.forall_goto (P := fun _ pc => pc.writing = some i → _)
      (fun hi => (hnew i hi).1) (fun q _ => h.io q i) q
  · intro q r i hq hr'
    rcases eq_or_ne q p with rfl | hqp <;> rcases eq_or_ne r q with rfl | hrq
    · rfl
    · rw [s.pcs_goto_self] at hq
      rw [s.pcs_goto_of_ne pc hrq] at hr'
      exact absurd hr' ((hnew i hq).2 r hrq)
    · rfl
    · rw [s.pcs_goto_of_ne pc hqp] at hq
      rcases eq_or_ne r p with rfl | hrp
      · rw [s.pcs_goto_self] at hr'
        exact absurd hq ((hnew i hr').2 q hqp)
      · rw [s.pcs_goto_of_ne pc hrp] at hr'
        exact h.writer q r i hq hr'
  · exact fun q i => State.forall_goto (P := fun _ pc => pc.replacing = some i → _) (hr i)
      (fun q _ => h.clean q i) q
  · exact fun q i => State.forall_goto (P := fun _ pc => pc.shared = some i → _)
      (fun hi => (hs i hi).2) (fun q _ => h.scanned q i) q

end Guarded

/-! ### Moves that change places only -/

section Survey

variable (s : State n m k ρ)

lemma scanBuffer_spec [DecidableEq ρ] (i c) :
    scanBuffer s i c = .scan (i + 1) c ∨
      (s.word i).dirty = true ∧ ∃ c', scanBuffer s i c = .scanMark i c' := by
  unfold scanBuffer
  split
  · split
    next h => exact .inr ⟨h.1, _, rfl⟩
    next => exact .inl rfl
  · exact .inl rfl

lemma surveying_scanSuper (j pages c) :
    (scanSuper s j pages c : Pc m ρ).surveying = true ∧
      (scanSuper s j pages c : Pc m ρ).shared = none := by
  unfold scanSuper
  split
  · split
    · split <;> exact ⟨rfl, rfl⟩
    · exact ⟨rfl, rfl⟩
  · exact ⟨rfl, rfl⟩

lemma surveying_startSupers (c : Scan m ρ) :
    (startSupers c).surveying = true ∧ (startSupers c).shared = none := by
  unfold startSupers
  split <;> exact ⟨rfl, rfl⟩

variable [DecidableEq ρ] {s} {p : Fin n} {e : Event n m k ρ} {pc : Pc m ρ}

lemma Survey.bare (h : Survey s p e pc) : (s.pcs p).Bare ∧ pc.Bare := by
  suffices (s.pcs p).surveying = true ∧ pc.surveying = true from
    ⟨Pc.bare_of_surveying this.1, Pc.bare_of_surveying this.2⟩
  cases h with
  | scan hpc =>
    rw [hpc]
    rcases scanBuffer_spec s _ _ with heq | ⟨-, _, heq⟩ <;> rw [heq] <;> exact ⟨rfl, rfl⟩
  | superScan hpc =>
    rw [hpc]
    exact ⟨rfl, (surveying_scanSuper ..).1⟩
  | supers hpc =>
    rw [hpc]
    exact ⟨rfl, (surveying_startSupers _).1⟩
  | checkpoint _ hpc | scanned hpc | target hpc | targetDone hpc | superScanned hpc | rescan hpc
  | finish hpc | «return» hpc =>
    rw [hpc]
    exact ⟨rfl, rfl⟩

lemma Survey.shared (h : Survey s p e pc) {i} (hi : pc.shared = some i) :
    s.CanShare p i ∧ (s.word i).dirty = true := by
  cases h with
  | scan hpc hlock =>
    rcases scanBuffer_spec s _ _ with heq | ⟨hdirty, _, heq⟩
    · rw [heq] at hi
      cases hi
    · rw [heq] at hi
      cases hi
      exact ⟨hlock, hdirty⟩
  | superScan =>
    rw [(surveying_scanSuper ..).2] at hi
    cases hi
  | supers =>
    rw [(surveying_startSupers _).2] at hi
    cases hi
  | _ => cases hi

end Survey

section Resume

variable (i : Fin m) (c : Caller m ρ)

lemma Caller.resume_spec : (c.resume i).exclusive = none ∧ (c.resume i).shared = none ∧
    (c.resume i).replacing = none ∧ (c.resume i).writing = none ∧
    (c.resume i).publishing = none := by
  cases c <;> exact ⟨rfl, rfl, rfl, rfl, rfl⟩

end Resume

section Quiet

variable {s : State n m k ρ} {p : Fin n} {e : Event n m k ρ} {pc : Pc m ρ} {i : Fin m}

variable (h : Quiet s p e pc)
include h

lemma Quiet.exclusive (hi : pc.exclusive = some i) :
    (s.pcs p).exclusive = some i ∨ s.CanLock p i := by
  cases h with
  | lock hpc hlock =>
    cases hi
    exact .inr hlock
  | ioLock hpc hlock =>
    cases hi
    exact .inr hlock
  | replace hpc | present hpc | unlisted hpc | materialized hpc | behindEnd hpc
  | nothingToWrite hpc =>
    rw [hpc]
    exact .inl hi
  | nothingToFlush =>
    rw [(Caller.resume_spec ..).1] at hi
    cases hi
  | _ => cases hi

lemma Quiet.shared : pc.shared = none := by
  cases h with
  | nothingToFlush => exact (Caller.resume_spec ..).2.1
  | _ => rfl

lemma Quiet.writing (hi : pc.writing = some i) : (s.pcs p).writing = some i := by
  cases h with
  | ioLock hpc | nothingToWrite hpc =>
    rw [hpc]
    exact hi
  | nothingToFlush =>
    rw [(Caller.resume_spec ..).2.2.2.1] at hi
    cases hi
  | _ => cases hi

lemma Quiet.replacing (hi : pc.replacing = some i) :
    (s.pcs p).replacing = some i ∨ (s.word i).dirty = false := by
  cases h with
  | replace hpc _ _ hclean =>
    cases hi
    exact .inr hclean
  | present hpc | unlisted hpc =>
    rw [hpc]
    exact .inl hi
  | nothingToFlush =>
    rw [(Caller.resume_spec ..).2.2.1] at hi
    cases hi
  | _ => cases hi

end Quiet

/-! ### Every step keeps the guards -/

namespace Guarded

variable {s : State n m k ρ} {p : Fin n} {i : Fin m}

variable {w : Word} {pc : Pc m ρ} {e : Event n m k ρ}

section
variable (h : Guarded s)
include h

lemma setWord (hio : ∀ p, (s.pcs p).writing = some i → w.ioInProgress = true ∧ w.dirty = true)
    (hneeded : w.checkpointNeeded = true → w.dirty = true)
    (hclean : ∀ p, (s.pcs p).replacing = some i → w.dirty = false)
    (hscanned : ∀ p, (s.pcs p).shared = some i → w.dirty = true) : Guarded (s.setWord i w) := by
  refine ⟨h.lock, fun p => ?_, h.writer, ?_, fun p => ?_, fun p => ?_⟩
  · exact State.forall_setWord (P := fun j w => (s.pcs p).writing = some j → w.ioInProgress = true ∧
      w.dirty = true) (hio p) fun j _ => h.io p j
  · exact State.forall_setWord (P := fun _ w => w.checkpointNeeded = true → w.dirty = true) hneeded
      fun j _ => h.needed j
  · exact State.forall_setWord (P := fun j w => (s.pcs p).replacing = some j → w.dirty = false)
      (hclean p) fun j _ => h.clean p j
  · exact State.forall_setWord (P := fun j w => (s.pcs p).shared = some j → w.dirty = true)
      (hscanned p) fun j _ => h.scanned p j

lemma setWord_of_flags (hdirty : w.dirty = (s.word i).dirty)
    (hio : w.ioInProgress = (s.word i).ioInProgress)
    (hneeded : w.checkpointNeeded = (s.word i).checkpointNeeded) : Guarded (s.setWord i w) := by
  apply h.setWord
  · intro p hp
    rw [hio, hdirty]
    exact h.io p i hp
  · rw [hneeded, hdirty]
    exact h.needed i
  · intro p hp
    rw [hdirty]
    exact h.clean p i hp
  · intro p hp
    rw [hdirty]
    exact h.scanned p i hp

lemma release (pc) (hx : pc.exclusive = none) (hs : pc.shared = none) (hw : pc.writing = none) :
    Guarded (s.goto p pc) := by
  apply h.goto
  · rw [hx]
    nofun
  · rw [hs]
    nofun
  · rw [hw]
    nofun
  · intro i hi
    rw [Pc.exclusive_of_replacing hi] at hx
    cases hx

lemma stay {old} (hpc : s.pcs p = old) (hx : pc.exclusive = old.exclusive) (hs : pc.shared = none)
    (hw : pc.writing = old.writing) (hr : pc.replacing = old.replacing ∨ pc.replacing = none) :
    Guarded (s.goto p pc) := by
  subst hpc
  apply h.goto
  · intro i hi
    exact .inl (hx.symm.trans hi)
  · rw [hs]
    nofun
  · intro i hi
    exact .inl (hw.symm.trans hi)
  · intro i hi
    rcases hr with hr | hr
    · exact h.clean p i (hr.symm.trans hi)
    · exact absurd (hr.symm.trans hi) nofun

lemma quiet (hq : Quiet s p e pc) : Guarded (s.goto p pc) := by
  apply h.goto
  · exact fun i => hq.exclusive
  · rw [hq.shared]
    nofun
  · exact fun i hi => .inl (hq.writing hi)
  · intro i hi
    rcases hq.replacing hi with hold | hclean
    · exact h.clean p i hold
    · exact hclean

lemma survey [DecidableEq ρ] (hq : Survey s p e pc) : Guarded (s.goto p pc) := by
  obtain ⟨-, hbare⟩ := hq.bare
  apply h.goto
  · rw [hbare.exclusive]
    nofun
  · intro i hi
    exact ⟨.inr (hq.shared hi).1, (hq.shared hi).2⟩
  · rw [hbare.writing]
    nofun
  · rw [hbare.replacing]
    nofun

lemma unlocked (pc) (hp : (s.pcs p).exclusive = some i) (hx : pc.exclusive = none)
    (hs : pc.shared = none) (q) :
    ((s.goto p pc).pcs q).exclusive ≠ some i ∧ ((s.goto p pc).pcs q).shared ≠ some i := by
  rcases eq_or_ne q p with rfl | hne
  · rw [s.pcs_goto_self, hx, hs]
    exact ⟨nofun, nofun⟩
  · rw [s.pcs_goto_of_ne pc hne]
    exact h.lock p q i hne.symm hp

lemma mark {tag} (hpc : s.pcs p = .mark tag i) :
    Guarded ((s.setWord i (s.word i).markDirty).goto p (.unpin i)) := by
  have hfree := h.unlocked (.unpin i) (by rw [hpc]; rfl) rfl rfl
  have hleft : Guarded (s.goto p (.unpin i)) := h.release _ rfl rfl rfl
  refine hleft.setWord ?_ ?_ ?_ ?_
  · intro q hq
    exact ⟨(hleft.io q i hq).1, rfl⟩
  · exact fun _ => rfl
  · intro q hq
    exact absurd (Pc.exclusive_of_replacing hq) (hfree q).1
  · exact fun _ _ => rfl

lemma startIo (c) (hio : (s.word i).ioInProgress = false) (hdirty : (s.word i).dirty = true) :
    Guarded ((s.setWord i (s.word i).startIo).goto p (.io i c)) := by
  have hnone : ∀ q, (s.pcs q).writing ≠ some i := by
    intro q hq
    exact absurd ((h.io q i hq).1.symm.trans hio) nofun
  have hword : Guarded (s.setWord i (s.word i).startIo) := by
    refine h.setWord (fun q hq => absurd hq (hnone q)) (fun _ => hdirty) ?_ fun _ _ => hdirty
    intro q hq
    exact h.clean q i hq
  apply hword.goto
  · nofun
  · nofun
  · rintro _ ⟨⟩
    rw [s.word_setWord_self]
    exact .inr ⟨hnone, rfl, hdirty⟩
  · nofun

lemma terminate {c} (hpc : s.pcs p = .ioWritten i c) :
    Guarded ((s.setWord i (s.word i).terminateIo).goto p (c.resume i)) := by
  obtain ⟨hx, hs, -, hw, -⟩ := Caller.resume_spec i c
  have hfree := h.unlocked (c.resume i) (by rw [hpc]; rfl) hx hs
  have hwriter : ∀ q, ((s.goto p (c.resume i)).pcs q).writing ≠ some i := by
    intro q hq
    rcases eq_or_ne q p with rfl | hne
    · rw [s.pcs_goto_self, hw] at hq
      cases hq
    · rw [s.pcs_goto_of_ne _ hne] at hq
      exact hne (h.writer q p i hq (by rw [hpc]; rfl))
  refine (h.release _ hx hs hw).setWord ?_ nofun ?_ ?_
  · intro q hq
    exact absurd hq (hwriter q)
  · intro q hq
    exact absurd (Pc.exclusive_of_replacing hq) (hfree q).1
  · intro q hq
    exact absurd hq (hfree q).2

lemma scanMark {c} (hpc : s.pcs p = .scanMark i c) (hx : pc.exclusive = none)
    (hs : pc.shared = none) (hw : pc.writing = none) :
    Guarded ((s.setWord i { s.word i with checkpointNeeded := true }).goto p pc) := by
  have hdirty : (s.word i).dirty = true := h.scanned p i (by rw [hpc]; rfl)
  have hword : Guarded (s.setWord i { s.word i with checkpointNeeded := true }) :=
    h.setWord (fun q hq => h.io q i hq) (fun _ => hdirty) (fun q hq => h.clean q i hq)
      fun _ _ => hdirty
  exact hword.release pc hx hs hw

lemma count (hdirty : w.dirty = (s.word i).dirty) (hio : w.ioInProgress = (s.word i).ioInProgress)
    (hneeded : w.checkpointNeeded = (s.word i).checkpointNeeded) (hx : pc.exclusive = none)
    (hs : pc.shared = none) (hw : pc.writing = none) : Guarded ((s.setWord i w).goto p pc) :=
  (h.setWord_of_flags hdirty hio hneeded).release pc hx hs hw

lemma step [DecidableEq ρ] {t} (hfit : CountsFit s e) (hstep : machine.step s e = some t) :
    Guarded t := by
  cases Move.of_step hstep with
  | quiet hq => exact h.quiet hq
  | survey hq => exact h.survey hq
  | passOver => exact h
  | pinFound hpc hlt hnext =>
    rw [Word.add_one hlt]
    rcases hnext with rfl | rfl <;> exact h.count rfl rfl rfl rfl rfl rfl
  | raise hpc =>
    rw [Word.add_usage (hfit.raise hpc)]
    exact h.count rfl rfl rfl rfl rfl rfl
  | decrement hpc =>
    rw [Word.sub_usage (hfit.decrement hpc)]
    exact h.count rfl rfl rfl rfl rfl rfl
  | pinChosen hpc hlt =>
    rw [Word.add_one hlt]
    exact h.count rfl rfl rfl rfl rfl rfl
  | @insert p tag use i hpc =>
    have hgo : Guarded (s.goto p (.delete tag use i)) := h.stay hpc rfl rfl rfl (.inl rfl)
    exact hgo.of_frame rfl rfl
  | @delete p tag old use i hpc =>
    have hgo : Guarded (s.goto p (.install tag use i)) := h.stay hpc rfl rfl rfl (.inl rfl)
    exact hgo.of_frame rfl rfl
  | @install p tag use i page notMaterialized =>
    have hgo : Guarded ((s.setWord i { s.word i with
        usage := (s.word i).usage ||| 1
        notMaterialized := notMaterialized }).goto p (.returned tag use i)) :=
      h.count rfl rfl rfl rfl rfl rfl
    exact hgo.of_frame rfl rfl
  | @publish p tag idx pblk i hpc hlock =>
    have hgo : Guarded (s.goto p (.size tag i)) := by
      apply h.goto
      · rintro _ ⟨⟩
        exact .inr hlock
      · exact fun _ hi => nomatch hi
      · exact fun _ hi => nomatch hi
      · exact fun _ hi => nomatch hi
    exact hgo.of_frame rfl rfl
  | @insideFile p tag i hpc =>
    have hword : Guarded (s.setWord i { s.word i with notMaterialized := false }) :=
      h.setWord_of_flags rfl rfl rfl
    exact hword.stay hpc rfl rfl rfl (.inr rfl)
  | @extend p tag i nblocks hpc =>
    have hword : Guarded (s.setWord i { s.word i with notMaterialized := false }) :=
      h.setWord_of_flags rfl rfl rfl
    have hgo : Guarded ((s.setWord i { s.word i with notMaterialized := false }).goto p
        (.mark tag i)) := hword.stay hpc rfl rfl rfl (.inr rfl)
    exact hgo.of_frame rfl rfl
  | mark hpc => exact h.mark hpc
  | retry hpc hlt | unpin hpc hlt =>
    rw [Word.sub_one hlt]
    exact h.count rfl rfl rfl rfl rfl rfl
  | startIo hpc hio hdirty => exact h.startIo _ hio hdirty
  | @write p tag i c hpc =>
    have hgo : Guarded (s.goto p (.ioWritten i c)) := h.stay hpc rfl rfl rfl (.inr rfl)
    exact hgo.of_frame rfl rfl
  | terminate hpc => exact h.terminate hpc
  | scanMark hpc => exact h.scanMark hpc rfl rfl rfl
  | @flushSuper p pages c rnode rest =>
    obtain ⟨supers, superWrites, heq⟩ := s.flushSuper_frame rnode
    rw [heq]
    have hgo : Guarded (s.goto p (.superFlush pages { c with targets := rest })) :=
      h.release _ rfl rfl rfl
    exact hgo.of_frame rfl rfl
  | _ => exact h.of_frame rfl rfl

end

end Guarded

end Umbra.Cache
