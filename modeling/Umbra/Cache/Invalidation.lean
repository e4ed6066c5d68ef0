import Umbra.Cache.Machine
import Umbra.Foundation.Tally

/-!
# Pins and invalidation

`MapInvalidateBuffer` finds a buffer unpinned, clears its tag and then overwrites the whole state
word. Meanwhile other processes look buffers up, pin them, compare the tag and unpin them.
-/

namespace Umbra.Cache.Invalidation

open Foundation Function

variable {ι ρ : Type} {m : Nat}

/-- The buffer an invalidation is at, the tag it read there and the buffers it has yet to see. -/
structure Job (m : Nat) (ρ : Type) where
  selected : ρ → Bool
  slot : Fin m
  tag : PageTag ρ
  rest : List (Fin m)

inductive Phase
  | delete
  | lockIo
  | lockBuffer
  | test
  | clear
  | reset
  | release
  deriving DecidableEq

inductive Pc (m : Nat) (ρ : Type)
  | idle
  /-- Before `MapPinBuffer` of a buffer found in the hash table, or of one the clock sweep chose. -/
  | found (tag : Option (PageTag ρ)) (i : Fin m) (adjustUsage : Bool)
  | raise (tag : Option (PageTag ρ)) (i : Fin m)
  | verify (tag : PageTag ρ) (i : Fin m)
  | unpin (i : Fin m)
  /-- The loop of `MapInvalidateRelation` over the buffers. -/
  | scan (selected : ρ → Bool) (rest : List (Fin m))
  | invalidate (phase : Phase) (job : Job m ρ)

structure State (ι : Type) (m : Nat) (ρ : Type) where
  word : Fin m → Word
  tag : Fin m → Option (PageTag ρ)
  hash : PageTag ρ → Option (Fin m)
  /-- `MapPrivateRefCount` of each process. -/
  pins : ι → Fin m → Nat
  pc : ι → Pc m ρ
  ioLock : Fin m → Option ι
  lock : Fin m → Option ι

inductive Event (ι : Type) (m : Nat) (ρ : Type)
  | lookup (p : ι) (tag : PageTag ρ) (adjustUsage : Bool)
  | choose (p : ι) (i : Fin m)
  | drop (p : ι) (i : Fin m)
  /-- `MapInvalidateRelation` or `MapInvalidateDatabaseTablespaces`. -/
  | invalidate (p : ι) (selected : ρ → Bool)
  /-- The next step of a process; `pending` tells whether `pending_count` is not zero. -/
  | step (p : ι) (pending : Bool)

def Event.process : Event ι m ρ → ι
  | lookup p .. => p
  | choose p .. => p
  | drop p .. => p
  | invalidate p .. => p
  | step p .. => p

namespace State

variable [DecidableEq ι] (s : State ι m ρ) (p : ι) (i : Fin m)

def goto (pc : Pc m ρ) : State ι m ρ := { s with pc := update s.pc p pc }

def setWord (w : Word) : State ι m ρ := { s with word := update s.word i w }

def setPins (n : Nat) : State ι m ρ :=
  { s with pins := update s.pins p (update (s.pins p) i n) }

def setIoLock (holder : Option ι) : State ι m ρ :=
  { s with ioLock := update s.ioLock i holder }

def setLock (holder : Option ι) : State ι m ρ :=
  { s with lock := update s.lock i holder }

def unlock : State ι m ρ := (s.setLock i none).setIoLock i none

/-- `MapPinBuffer` up to the usage count; a full reference count is an error. -/
def pin (tag : Option (PageTag ρ)) (adjustUsage : Bool) : State ι m ρ :=
  if (s.word i).refcount.val < 511 then
    let t := (s.setWord i ((s.word i).add 1)).setPins p i (s.pins p i + 1)
    if adjustUsage ∧ (t.word i).usage.val < 5 then t.goto p (.raise tag i)
    else t.goto p (pinned tag i)
  else s.goto p .idle
where
  pinned : Option (PageTag ρ) → Fin m → Pc m ρ
    | some tag, i => .verify tag i
    | none, _ => .idle

/-- `MapUnpinBuffer`; a reference count of zero is an error. -/
def unpin : State ι m ρ :=
  if 0 < (s.word i).refcount.val then
    ((s.setWord i ((s.word i).sub 1)).setPins p i (s.pins p i - 1)).goto p .idle
  else s.goto p .idle

variable [DecidableEq ρ]

def invalidate (pending : Bool) (job : Job m ρ) : Phase → Option (State ι m ρ)
  | .delete =>
    let t := s.goto p (.invalidate .lockIo job)
    some (if s.hash job.tag = some job.slot then
      { t with hash := update s.hash job.tag none }
    else t)
  | .lockIo =>
    if s.ioLock job.slot = none then
      some ((s.setIoLock job.slot (some p)).goto p (.invalidate .lockBuffer job))
    else none
  | .lockBuffer =>
    if s.lock job.slot = none then
      some ((s.setLock job.slot (some p)).goto p (.invalidate .test job))
    else none
  | .test =>
    if s.tag job.slot ≠ some job.tag then
      some ((s.unlock job.slot).goto p (.scan job.selected job.rest))
    else if (s.word job.slot).refcount.val ≠ 0 then
      -- an error if this process has the pin, else it waits and tries again
      some ((s.unlock job.slot).goto p
        (if 0 < s.pins p job.slot then .idle else .invalidate .lockIo job))
    else some (s.goto p (.invalidate .clear job))
  | .clear =>
    if pending then some ((s.unlock job.slot).goto p (.invalidate .lockIo job))
    else
      some ({ s.setLock job.slot none with tag := update s.tag job.slot none }.goto p
        (.invalidate .reset job))
  | .reset => some ((s.setWord job.slot .zero).goto p (.invalidate .release job))
  | .release => some ((s.setIoLock job.slot none).goto p (.scan job.selected job.rest))

def advance (pending : Bool) : Option (State ι m ρ) :=
  match s.pc p with
  | .idle => none
  | .found tag i adjustUsage => some (s.pin p i tag adjustUsage)
  | .raise tag i =>
    some ((s.setWord i ((s.word i).add Word.usageCountOne)).goto p (pin.pinned tag i))
  | .verify tag i =>
    -- under the shared lock
    if s.lock i = none then
      some (s.goto p (if s.tag i = some tag then .idle else .unpin i))
    else none
  | .unpin i => some (s.unpin p i)
  | .scan _ [] => some (s.goto p .idle)
  | .scan selected (i :: rest) =>
    if s.lock i = none then
      match s.tag i with
      | none => some (s.goto p (.scan selected rest))
      | some tag =>
        some (s.goto p (if selected tag.1 then .invalidate .delete ⟨selected, i, tag, rest⟩
          else .scan selected rest))
    else none
  | .invalidate phase job => s.invalidate p pending job phase

end State

variable [DecidableEq ι] {pc : Pc m ρ} {e : Event ι m ρ}

def machine (ι : Type) (m : Nat) (ρ : Type) [DecidableEq ι] [DecidableEq ρ] :
    System (State ι m ρ) (Event ι m ρ) where
  step s
    | .lookup p tag adjustUsage =>
      match s.pc p with
      | .idle =>
        some (match s.hash tag with
          | none => s
          | some i => s.goto p (.found (some tag) i adjustUsage))
      | _ => none
    | .choose p i =>
      match s.pc p with
      | .idle => some (s.goto p (.found none i false))
      | _ => none
    | .drop p i =>
      match s.pc p with
      | .idle => if 0 < s.pins p i then some (s.goto p (.unpin i)) else none
      | _ => none
    | .invalidate p selected =>
      match s.pc p with
      | .idle => some (s.goto p (.scan selected (List.finRange m)))
      | _ => none
    | .step p pending => s.advance p pending

/-- A cache with any contents, in which no operation is under way. -/
structure Start [Fintype ι] (s : State ι m ρ) : Prop where
  idle (p : ι) : s.pc p = .idle
  counted (i : Fin m) : (s.word i).refcount.val = ∑ p, s.pins p i
  unlocked (i : Fin m) : s.ioLock i = none ∧ s.lock i = none

/-! ## What a step can do -/

namespace Pc

def holds : Pc m ρ → Option (Fin m)
  | raise _ i => some i
  | verify _ i => some i
  | unpin i => some i
  | _ => none

def inside : Pc m ρ → Option (Fin m)
  | invalidate .clear job => some job.slot
  | invalidate .reset job => some job.slot
  | _ => none

end Pc

structure Follows (s : State ι m ρ) (p : ι) (pc : Pc m ρ) : Prop where
  holds (i : Fin m) : pc.holds = some i → 0 < s.pins p i ∨ (s.pc p).holds = some i
  inside (i : Fin m) : pc.inside = some i → (s.word i).refcount.val = 0

inductive Move (s : State ι m ρ) (p : ι) : State ι m ρ → Prop
  | stay : Move s p s
  | goto {t pc} (hpc : t.pc = update s.pc p pc) (hword : t.word = s.word) (htag : t.tag = s.tag)
      (hpins : t.pins = s.pins) (hfollows : Follows s p pc) : Move s p t
  | pin {t} (tag : Option (PageTag ρ)) (i : Fin m) (adjustUsage : Bool) (pc : Pc m ρ)
      (hfound : s.pc p = .found tag i adjustUsage) (hroom : (s.word i).refcount.val < 511)
      (hnext : (∀ j, pc.holds = some j → j = i) ∧ pc.inside = none)
      (ht : t = ((s.setWord i ((s.word i).add 1)).setPins p i (s.pins p i + 1)).goto p pc) :
      Move s p t
  | raise (i : Fin m) (pc : Pc m ρ) (hraise : (s.pc p).holds = some i)
      (hnext : (∀ j, pc.holds = some j → j = i) ∧ pc.inside = none) :
      Move s p ((s.setWord i ((s.word i).add Word.usageCountOne)).goto p pc)
  | unpin (i : Fin m) (hunpin : (s.pc p).holds = some i) (hpos : 0 < (s.word i).refcount.val) :
      Move s p (((s.setWord i ((s.word i).sub 1)).setPins p i (s.pins p i - 1)).goto p .idle)
  | clear (job : Job m ρ) (hclear : s.pc p = .invalidate .clear job) :
      Move s p ({ s.setLock job.slot none with
        tag := update s.tag job.slot none }.goto p (.invalidate .reset job))
  | reset (job : Job m ρ) (hreset : s.pc p = .invalidate .reset job) :
      Move s p ((s.setWord job.slot .zero).goto p (.invalidate .release job))

section Moves

variable {s t : State ι m ρ} {p : ι} {pending : Bool} {i : Fin m}

lemma Move.free (hpc : t.pc = update s.pc p pc) (hword : t.word = s.word) (htag : t.tag = s.tag)
    (hpins : t.pins = s.pins) (hholds : pc.holds = none) (hinside : pc.inside = none) :
    Move s p t :=
  .goto hpc hword htag hpins ⟨by simp [hholds], by simp [hinside]⟩

lemma pinned_next (tag i) :
    (∀ j, (State.pin.pinned tag i : Pc m ρ).holds = some j → j = i) ∧
      (State.pin.pinned tag i : Pc m ρ).inside = none := by
  cases tag with
  | none => exact ⟨nofun, rfl⟩
  | some => exact ⟨fun j h => (Option.some.inj h).symm, rfl⟩

lemma move_pin {tag adjustUsage} (h : s.pc p = .found tag i adjustUsage) :
    Move s p (s.pin p i tag adjustUsage) := by
  rw [State.pin]
  split_ifs with hroom
  · dsimp only
    split_ifs
    · exact .pin tag i adjustUsage (.raise tag i) h hroom
        ⟨fun j hj => (Option.some.inj hj).symm, rfl⟩ rfl
    · exact .pin tag i adjustUsage _ h hroom (pinned_next tag i) rfl
  · exact .free rfl rfl rfl rfl rfl rfl

lemma move_unpin (h : s.pc p = .unpin i) : Move s p (s.unpin p i) := by
  rw [State.unpin]
  split_ifs with hpos
  · exact .unpin i (by rw [h]; rfl) hpos
  · exact .free rfl rfl rfl rfl rfl rfl

lemma move_invalidate [DecidableEq ρ] {phase job} (hpc : s.pc p = .invalidate phase job)
    (h : s.invalidate p pending job phase = some t) : Move s p t := by
  cases phase with
  | delete =>
    simp only [State.invalidate] at h
    split_ifs at h <;> cases h <;> exact .free rfl rfl rfl rfl rfl rfl
  | lockIo | lockBuffer =>
    obtain ⟨-, rfl⟩ := guard_eq_some h
    exact .free rfl rfl rfl rfl rfl rfl
  | test =>
    simp only [State.invalidate] at h
    split_ifs at h with htag href hmine
    · cases h
      exact .free rfl rfl rfl rfl rfl rfl
    · cases h
      exact .free rfl rfl rfl rfl rfl rfl
    · cases h
      exact .free rfl rfl rfl rfl rfl rfl
    · cases h
      refine .goto rfl rfl rfl rfl ⟨nofun, fun i hi => ?_⟩
      cases hi
      exact not_not.mp href
  | clear =>
    simp only [State.invalidate] at h
    split_ifs at h
    · cases h
      exact .free rfl rfl rfl rfl rfl rfl
    · cases h
      exact .clear job hpc
  | reset =>
    cases h
    exact .reset job hpc
  | release =>
    cases h
    exact .free rfl rfl rfl rfl rfl rfl

lemma move_advance [DecidableEq ρ] (h : s.advance p pending = some t) : Move s p t := by
  cases hpc : s.pc p with
  | idle =>
    simp only [State.advance, hpc] at h
    cases h
  | found =>
    simp only [State.advance, hpc] at h
    cases h
    exact move_pin hpc
  | raise tag i =>
    simp only [State.advance, hpc] at h
    cases h
    exact .raise i _ (by rw [hpc]; rfl) (pinned_next tag i)
  | verify =>
    simp only [State.advance, hpc] at h
    obtain ⟨-, rfl⟩ := guard_eq_some h
    split_ifs
    · exact .free rfl rfl rfl rfl rfl rfl
    · refine .goto rfl rfl rfl rfl ⟨fun j hj => .inr ?_, nofun⟩
      rw [hpc]
      exact hj
  | unpin =>
    simp only [State.advance, hpc] at h
    cases h
    exact move_unpin hpc
  | scan selected rest =>
    cases rest with
    | nil =>
      simp only [State.advance, hpc] at h
      cases h
      exact .free rfl rfl rfl rfl rfl rfl
    | cons i =>
      simp only [State.advance, hpc] at h
      obtain ⟨-, h⟩ := Option.ite_none_right_eq_some.mp h
      cases htag : s.tag i with
      | none =>
        simp only [htag] at h
        cases h
        exact .free rfl rfl rfl rfl rfl rfl
      | some =>
        simp only [htag] at h
        cases h
        split_ifs <;> exact .free rfl rfl rfl rfl rfl rfl
  | invalidate =>
    simp only [State.advance, hpc] at h
    exact move_invalidate hpc h

theorem move_of_step [DecidableEq ρ] (h : (machine ι m ρ).step s e = some t) :
    Move s e.process t := by
  cases e with
  | lookup =>
    simp only [machine] at h
    split at h
    · cases h
      split
      · exact .stay
      · exact .free rfl rfl rfl rfl rfl rfl
    · cases h
  | choose | invalidate =>
    simp only [machine] at h
    split at h
    · cases h
      exact .free rfl rfl rfl rfl rfl rfl
    · cases h
  | drop =>
    simp only [machine] at h
    split at h
    · obtain ⟨hpos, rfl⟩ := guard_eq_some h
      refine .goto rfl rfl rfl rfl ⟨fun j hj => .inl ?_, nofun⟩
      cases hj
      exact hpos
    · cases h
  | step => exact move_advance h

end Moves

/-! ## The pins are counted -/

section Counted

variable [Fintype ι]

/-- No process pins a buffer that an invalidation has found unpinned and not yet reset. -/
def Apart (s : State ι m ρ) (e : Event ι m ρ) : Prop :=
  match s.pc e.process with
  | .found _ i _ => ∀ q, (s.pc q).inside ≠ some i
  | _ => True

instance (s : State ι m ρ) (e : Event ι m ρ) : Decidable (Apart s e) := by
  unfold Apart
  split <;> infer_instance

/-- A buffer is invalidated only while nobody has it pinned. -/
structure Sound (s : State ι m ρ) : Prop where
  counted (i : Fin m) : (s.word i).refcount.val = ∑ p, s.pins p i
  holds (p : ι) (i : Fin m) : (s.pc p).holds = some i → 0 < s.pins p i
  inside (p : ι) (i : Fin m) : (s.pc p).inside = some i → (s.word i).refcount.val = 0

namespace Sound

variable {s t : State ι m ρ} {p : ι}

omit [DecidableEq ι] in
lemma of_start (h : Start s) : Sound s where
  counted := h.counted
  holds p i hholds := by
    rw [h.idle] at hholds
    cases hholds
  inside p i hinside := by
    rw [h.idle] at hinside
    cases hinside

variable {i : Fin m} {w : Word} {n : Nat}

omit [DecidableEq ι] in
lemma refcount_pos (hs : Sound s) (h : 0 < s.pins p i) : 0 < (s.word i).refcount.val := by
  have hle := le_sum (fun x : Fin m → Nat => x i) s.pins p
  rw [hs.counted]
  omega

lemma goto (hs : Sound s) (hpc : t.pc = update s.pc p pc) (hword : t.word = s.word)
    (hpins : t.pins = s.pins) (h : Follows s p pc) : Sound t where
  counted := by
    rw [hword, hpins]
    exact hs.counted
  holds q i hholds := by
    rw [hpins]
    rw [hpc] at hholds
    rcases eq_or_ne q p with rfl | hq
    · rw [update_self] at hholds
      exact (h.holds i hholds).elim id (hs.holds q i)
    · rw [update_of_ne hq] at hholds
      exact hs.holds q i hholds
  inside q i hinside := by
    rw [hword]
    rw [hpc] at hinside
    rcases eq_or_ne q p with rfl | hq
    · rw [update_self] at hinside
      exact h.inside i hinside
    · rw [update_of_ne hq] at hinside
      exact hs.inside q i hinside

section

variable (hs : Sound s) (h : w.refcount.val + s.pins p i = (s.word i).refcount.val + n)
include hs h

lemma counted_update (j) :
    (update s.word i w j).refcount.val = ∑ q, update s.pins p (update (s.pins p) i n) q j := by
  have hsum := sum_update_add (fun x : Fin m → Nat => x j) s.pins p
    (update (s.pins p) i n)
  have hcounted := hs.counted j
  rcases eq_or_ne j i with rfl | hj
  · rw [update_self]
    simp only [update_self] at hsum
    omega
  · rw [update_of_ne hj]
    simp only [update_of_ne hj] at hsum
    omega

lemma setWord (hholds : ∀ j, pc.holds = some j → 0 < update (s.pins p) i n j)
    (hinside : pc.inside = none)
    (hreset : ∀ q, q ≠ p → (s.pc q).inside = some i → w.refcount.val = 0) :
    Sound (((s.setWord i w).setPins p i n).goto p pc) where
  counted := hs.counted_update h
  holds q j hq := by
    show 0 < update s.pins p (update (s.pins p) i n) q j
    replace hq : (update s.pc p pc q).holds = some j := hq
    rcases eq_or_ne q p with rfl | hne
    · rw [update_self] at hq ⊢
      exact hholds j hq
    · rw [update_of_ne hne] at hq ⊢
      exact hs.holds q j hq
  inside q j hq := by
    show (update s.word i w j).refcount.val = 0
    replace hq : (update s.pc p pc q).inside = some j := hq
    rcases eq_or_ne q p with rfl | hne
    · rw [update_self, hinside] at hq
      cases hq
    · rw [update_of_ne hne] at hq
      rcases eq_or_ne j i with rfl | hj
      · rw [update_self]
        exact hreset q hne hq
      · rw [update_of_ne hj]
        exact hs.inside q j hq

end

omit [Fintype ι] in
lemma setPins_self (s : State ι m ρ) (p : ι) (i : Fin m) : s.setPins p i (s.pins p i) = s := by
  rw [State.setPins, update_eq_self, update_eq_self]

lemma step [DecidableEq ρ] (hs : Sound s) (hapart : Apart s e)
    (h : (machine ι m ρ).step s e = some t) : Sound t := by
  cases move_of_step h with
  | stay => exact hs
  | goto hpc hword htag hpins hfollows => exact hs.goto hpc hword hpins hfollows
  | pin tag i adjustUsage pc hfound hroom hnext ht =>
    subst ht
    have hadd := Word.add_one (w := s.word i) (Nat.succ_lt_succ hroom)
    have hfree : ∀ q, (s.pc q).inside ≠ some i := by
      rw [Apart, hfound] at hapart
      exact hapart
    refine hs.setWord ?_ (fun j hj => ?_) hnext.2 fun q _ hq => absurd hq (hfree q)
    · rw [hadd]
      show (s.word i).refcount.val + 1 + s.pins _ i = (s.word i).refcount.val + (s.pins _ i + 1)
      omega
    · rw [hnext.1 j hj, update_self]
      omega
  | raise i pc hraise hnext =>
    have hrefcount := Word.refcount_add_usage (s.word i)
    have hpins := hs.holds _ i hraise
    rw [← setPins_self (s.setWord i _) e.process i]
    refine hs.setWord ?_ (fun j hj => ?_) hnext.2 fun q _ hq => ?_
    · rw [hrefcount]
      rfl
    · rw [hnext.1 j hj, update_self]
      exact hpins
    · rw [hrefcount]
      exact hs.inside q i hq
  | unpin i hunpin hpos =>
    have hsub := Word.sub_one hpos
    have hpins := hs.holds _ i hunpin
    refine hs.setWord ?_ nofun rfl fun q _ hq => ?_
    · rw [hsub]
      show (s.word i).refcount.val - 1 + s.pins _ i = (s.word i).refcount.val + (s.pins _ i - 1)
      omega
    · have hzero := hs.inside q i hq
      omega
  | clear job hclear =>
    have hzero := hs.inside e.process job.slot (by rw [hclear]; rfl)
    have hfollows : Follows s e.process (.invalidate .reset job) := by
      refine ⟨nofun, ?_⟩
      intro i hi
      cases hi
      exact hzero
    exact hs.goto rfl rfl rfl hfollows
  | reset job hreset =>
    have hzero := hs.inside e.process job.slot (by rw [hreset]; rfl)
    rw [← setPins_self (s.setWord job.slot .zero) e.process job.slot]
    refine hs.setWord ?_ nofun rfl fun _ _ _ => rfl
    rw [hzero]
    rfl

lemma tag_eq [DecidableEq ρ] (hs : Sound s) (h : (machine ι m ρ).step s e = some t)
    (hpins : 0 < s.pins p i) : t.tag i = s.tag i := by
  cases move_of_step h with
  | goto hpc hword htag => rw [htag]
  | pin tag j adjustUsage pc hfound hroom hnext ht =>
    subst ht
    rfl
  | clear job hclear =>
    have hzero := hs.inside e.process job.slot (by rw [hclear]; rfl)
    have hpos := hs.refcount_pos hpins
    refine update_of_ne ?_ _ _
    rintro rfl
    omega
  | _ => rfl

end Sound

/-- As long as no process pins a buffer between the test of an invalidation and its reset, reference
counts are the pins, and no step takes the tag of a pinned buffer away. -/
theorem pins_counted_of_reaches [DecidableEq ρ] {s₀ s : State ι m ρ} (hstart : Start s₀)
    (h : (machine ι m ρ).Reaches Apart s₀ s) :
    (∀ i, (s.word i).refcount.val = ∑ p, s.pins p i) ∧
      (∀ p i, s.pc p = .unpin i → 0 < (s.word i).refcount.val) ∧
      ∀ e t, Apart s e → (machine ι m ρ).step s e = some t →
        ∀ p i, 0 < s.pins p i → t.tag i = s.tag i := by
  have hs : Sound s :=
    h.invariant (.of_start hstart) fun hs hapart hstep => hs.step hapart hstep
  refine ⟨hs.counted, fun p i hpc => ?_, fun e t _ hstep p i hpins => hs.tag_eq hstep hpins⟩
  exact hs.refcount_pos (hs.holds p i (by rw [hpc]; rfl))

end Counted

def single : State (Fin 2) 1 Unit where
  word _ := Word.zero
  tag _ := some ((), .main, 0)
  hash tag := if tag = ((), .main, 0) then some 0 else none
  pins _ _ := 0
  pc _ := .idle
  ioLock _ := none
  lock _ := none

lemma start_single : Start single where
  idle _ := rfl
  counted _ := rfl
  unlocked _ := ⟨rfl, rfl⟩

def invalidated (p q : ι) (i : Fin m) : List (Event ι m Unit) :=
  [.lookup p ((), .main, 0) true, .step p false, .step p false, .step p false, .drop p i,
    .step p false, .invalidate q fun _ => true] ++ List.replicate 8 (.step q false)

theorem pins_counted_of_reaches_invalidated :
    ∃ s : State (Fin 2) 1 Unit, Start single ∧ (machine (Fin 2) 1 Unit).Reaches Apart single s ∧
      s.tag 0 = none ∧ (∀ i, (s.word i).refcount.val = ∑ p, s.pins p i) ∧
      (∀ p i, s.pc p = .unpin i → 0 < (s.word i).refcount.val) ∧
      ∀ e t, Apart s e → (machine (Fin 2) 1 Unit).step s e = some t →
        ∀ p i, 0 < s.pins p i → t.tag i = s.tag i := by
  have h : (machine (Fin 2) 1 Unit).Reaches Apart single
      (((machine (Fin 2) 1 Unit).restrict Apart).after single (invalidated 0 1 0)) :=
    .of_isSome (by decide)
  exact ⟨_, start_single, h, by decide, pins_counted_of_reaches start_single h⟩

def overtaken (p q : ι) : List (Event ι m Unit) :=
  [.lookup p ((), .main, 0) false, .invalidate q fun _ => true, .step q false, .step q false,
    .step q false, .step q false, .step q false, .step p false, .step q false, .step q false,
    .step p false]

/-- The buffer has lost its tag, and its reference count is zero with one pin held. -/
theorem overtaken_pin_lost :
    ∃ s : State (Fin 2) 1 Unit, Start single ∧ (machine (Fin 2) 1 Unit).Reachable single s ∧
      (s.word 0).refcount.val = 0 ∧ s.pins 0 0 = 1 ∧ ∑ p, s.pins p 0 = 1 ∧ s.tag 0 = none ∧
      s.pc 0 = .unpin 0 :=
  ⟨(machine (Fin 2) 1 Unit).after single (overtaken 0 1), start_single, .of_isSome (by decide),
    by decide, by decide, by decide, by decide, rfl⟩

end Umbra.Cache.Invalidation
