import Umbra.Cache.Machine
import Umbra.Foundation.Tally

/-!
# One state word and its atomic operations

Every change of a buffer's state word is a loop of an atomic read and a compare-and-exchange.
`MapPinBuffer` tests the usage count once and adds to it in a second loop, and `MapClockGetBuffer`
tests both counts and subtracts in a second loop.
-/

namespace Umbra.Cache.StateWord

open Foundation Function

variable {ι : Type*}

inductive Op
  /-- The first loop of `MapPinBuffer`. -/
  | pin (adjustUsage : Bool)
  /-- The second loop of `MapPinBuffer`. -/
  | raise
  /-- `MapUnpinBuffer`. -/
  | unpin
  /-- The loop of `MapClockGetBuffer`. -/
  | decrement
  /-- `MapBufferUpdateStateBits` with `MAPBUF_USAGECOUNT_ONE`, for a page brought in. -/
  | use
  | markDirty
  | needCheckpoint
  /-- `MapBufferUpdateStateBits` that sets or clears `MAPBUF_NOT_MATERIALIZED`. -/
  | materialize (notMaterialized : Bool)
  | startIo (checkpoint : Bool)
  /-- `MapTerminateBufferIO`. -/
  | terminateIo (clearDirty ioError : Bool)
  deriving DecidableEq

namespace Op

def enters : Op → Word → Bool
  | pin _, w => w.refcount.val < 511
  | unpin, w => w.refcount.val ≠ 0
  | startIo checkpoint, w => w.dirty && (!checkpoint || w.checkpointNeeded)
  | _, _ => true

def apply : Op → Word → Word
  | pin _, w => w.add 1
  | raise, w => w.add Word.usageCountOne
  | unpin, w => w.sub 1
  | decrement, w => w.sub Word.usageCountOne
  | use, w => { w with usage := w.usage ||| Word.usageBit }
  | markDirty, w => w.markDirty
  | needCheckpoint, w => { w with checkpointNeeded := true }
  | materialize b, w => { w with notMaterialized := b }
  | startIo _, w => w.startIo
  | terminateIo true ioError, w => { w.terminateIo with ioError := ioError }
  | terminateIo false ioError, w => { w with ioInProgress := false, ioError := ioError }

def Meant : Op → Word → Word → Prop
  | pin _, w, w' => w' = { w with refcount := w'.refcount } ∧
      w'.refcount.val = w.refcount.val + 1
  | raise, w, w' => w' = { w with usage := w'.usage } ∧ w'.usage.val = w.usage.val + 1
  | unpin, w, w' => w' = { w with refcount := w'.refcount } ∧
      w'.refcount.val + 1 = w.refcount.val
  | decrement, w, w' => w' = { w with usage := w'.usage } ∧ w'.usage.val + 1 = w.usage.val
  | use, w, w' => w' = { w with usage := w'.usage } ∧ w.usage ≤ w'.usage
  | markDirty, w, w' => w' = { w with dirty := true, justDirtied := true }
  | needCheckpoint, w, w' => w' = { w with checkpointNeeded := true }
  | materialize b, w, w' => w' = { w with notMaterialized := b }
  | startIo _, w, w' => w' = { w with ioInProgress := true, ioError := false, justDirtied := false }
  | terminateIo clearDirty ioError, w, w' =>
      w' = { w with
        ioInProgress := false
        ioError := ioError
        checkpointNeeded := !clearDirty && w.checkpointNeeded
        dirty := w.dirty && (!clearDirty || w.justDirtied) }

instance (op : Op) (w w' : Word) : Decidable (op.Meant w w') := by
  unfold Meant
  split <;> infer_instance

end Op

inductive Pc
  | idle
  | loop (op : Op)
  | exchange (op : Op) (old : Word)
  deriving DecidableEq

structure State (ι : Type*) where
  word : Word
  /-- `MapPrivateRefCount`. -/
  pins : ι → Nat
  pc : ι → Pc
  ioLock : Option ι
  inProgress : ι → Bool

def init : State ι where
  word := Word.zero
  pins _ := 0
  pc _ := .idle
  ioLock := none
  inProgress _ := false

inductive Event (ι : Type*)
  | start (p : ι) (op : Op)
  | sweep (p : ι)
  | read (p : ι)
  | exchange (p : ι)
  | fail (p : ι)
  | relock (p : ι)
  | leave (p : ι)

namespace State

variable [DecidableEq ι]

def goto (s : State ι) (p : ι) (pc : Pc) : State ι := { s with pc := update s.pc p pc }

def giveUp (s : State ι) (p : ι) : Op → State ι
  | .startIo _ => { s.goto p .idle with ioLock := none }
  | _ => s.goto p .idle

def consider (s : State ι) (p : ι) (op : Op) (old : Word) : State ι :=
  if op.enters old then s.goto p (.exchange op old) else s.giveUp p op

def done (s : State ι) (p : ι) : Op → State ι
  | .pin adjustUsage =>
    let s := { s with pins := update s.pins p (s.pins p + 1) }
    -- the usage count of the value this process put in place
    if adjustUsage ∧ s.word.usage.val < 5 then s.goto p (.loop .raise) else s.goto p .idle
  | .unpin => { s.goto p .idle with pins := update s.pins p (s.pins p - 1) }
  | .startIo _ => { s.goto p .idle with inProgress := update s.inProgress p true }
  | .terminateIo .. =>
    { s.goto p .idle with
      ioLock := none
      inProgress := update s.inProgress p false }
  | _ => s.goto p .idle

def start (s : State ι) (p : ι) : Op → Option (State ι)
  -- these two loops follow a test and start no call
  | .raise => none
  | .decrement => none
  | .unpin => if s.pins p = 0 then none else some (s.goto p (.loop .unpin))
  | .startIo checkpoint =>
    if s.ioLock = none ∧ s.inProgress p = false then
      some { s.goto p (.loop (.startIo checkpoint)) with ioLock := some p }
    else none
  | .terminateIo clearDirty ioError =>
    if s.ioLock = some p ∧ s.inProgress p then
      some (s.goto p (.loop (.terminateIo clearDirty ioError)))
    else none
  | op => some (s.goto p (.loop op))

def read (s : State ι) (p : ι) (op : Op) : State ι :=
  match op with
  | .startIo checkpoint =>
    -- with an I/O in progress the lock is released and the process waits
    if s.word.ioInProgress then s.giveUp p (.startIo checkpoint)
    else s.consider p (.startIo checkpoint) s.word
  | op => s.consider p op s.word

def retry (s : State ι) (p : ι) : Op → State ι
  | .startIo checkpoint => s.consider p (.startIo checkpoint) s.word
  | op => s.goto p (.loop op)

def exchange (s : State ι) (p : ι) (op : Op) (old : Word) : State ι :=
  if s.word = old then ({ s with word := op.apply old } : State ι).done p op else s.retry p op

end State

variable [DecidableEq ι] {e : Event ι} {u v : Fin 32} {pc : Pc}

def machine (ι : Type*) [DecidableEq ι] : System (State ι) (Event ι) where
  step s
    | .start p op => if s.pc p = .idle then s.start p op else none
    | .sweep p =>
      if s.pc p = .idle then
        if s.word.refcount.val = 0 ∧ s.word.usage.val ≠ 0 then some (s.goto p (.loop .decrement))
        else some s
      else none
    | .read p =>
      match s.pc p with
      | .loop op => some (s.read p op)
      | _ => none
    | .exchange p =>
      match s.pc p with
      | .exchange op old => some (s.exchange p op old)
      | _ => none
    | .fail p =>
      if s.pc p = .idle ∧ s.ioLock = some p then some { s with ioLock := none } else none
    | .relock p =>
      if s.pc p = .idle ∧ s.inProgress p ∧ s.ioLock = none then some { s with ioLock := some p }
      else none
    | .leave p =>
      if s.pc p = .idle ∧ s.inProgress p ∧ s.ioLock = some p ∧ s.word.ioInProgress = false then
        some { s with ioLock := none, inProgress := update s.inProgress p false }
      else none

/-! ## What a step can do -/

namespace Pc

def op : Pc → Option Op
  | idle => none
  | loop op => some op
  | exchange op _ => some op

@[simp] lemma op_idle : idle.op = none := rfl

@[simp] lemma op_loop (op) : (loop op).op = some op := rfl

@[simp] lemma op_exchange (op old) : (exchange op old).op = some op := rfl

def raising (pc : Pc) : Nat := if pc.op = some .raise then 1 else 0

def lowering (pc : Pc) : Nat := if pc.op = some .decrement then 1 else 0

def Entered : Pc → Prop
  | exchange op old => op.enters old
  | _ => True

end Pc

structure Follows (s : State ι) (p : ι) (pc : Pc) : Prop where
  raising : pc.raising = (s.pc p).raising
  lowering : pc.lowering = (s.pc p).lowering
  entered : pc.Entered
  unpin : pc.op = some .unpin → 0 < s.pins p ∨ (s.pc p).op = some .unpin

inductive Move (s : State ι) : Event ι → State ι → Prop
  | stay {e t} (hword : t.word = s.word) (hpins : t.pins = s.pins) (hpc : t.pc = s.pc) : Move s e t
  | goto {e t p pc} (hpc : t.pc = update s.pc p pc) (hword : t.word = s.word)
      (hpins : t.pins = s.pins) (hfollows : Follows s p pc) : Move s e t
  | sweep (p : ι) (hidle : s.pc p = .idle) (href : s.word.refcount.val = 0)
      (husage : s.word.usage.val ≠ 0) : Move s (.sweep p) (s.goto p (.loop .decrement))
  | exchange (p : ι) (op : Op) (hpc : s.pc p = .exchange op s.word) :
      Move s (.exchange p) (({ s with word := op.apply s.word } : State ι).done p op)

section Moves

variable {s t : State ι} {p : ι} {op : Op}

omit [DecidableEq ι] in
lemma follows_start (hidle : s.pc p = .idle) (hraise : op ≠ .raise) (hlower : op ≠ .decrement)
    (hunpin : op = .unpin → 0 < s.pins p) : Follows s p (.loop op) where
  raising := by simp [Pc.raising, hidle, hraise]
  lowering := by simp [Pc.lowering, hidle, hlower]
  entered := trivial
  unpin h := .inl (hunpin (Option.some.inj h))

omit [DecidableEq ι] in
lemma follows_same (hop : pc.op = (s.pc p).op) (h : pc.Entered) : Follows s p pc where
  raising := by rw [Pc.raising, Pc.raising, hop]
  lowering := by rw [Pc.lowering, Pc.lowering, hop]
  entered := h
  unpin hunpin := .inr (hop ▸ hunpin)

section

variable (hop : (s.pc p).op = some op) (hraise : op ≠ .raise) (hlower : op ≠ .decrement)
include hop hraise hlower

omit [DecidableEq ι] in
lemma follows_idle : Follows s p .idle where
  raising := by simp [Pc.raising, hop, hraise]
  lowering := by simp [Pc.lowering, hop, hlower]
  entered := trivial
  unpin h := nomatch h

lemma move_giveUp : Move s e (s.giveUp p op) := by
  have hfollows := follows_idle hop hraise hlower
  cases op with
  | startIo => exact .goto rfl rfl rfl hfollows
  | _ => exact .goto rfl rfl rfl hfollows

end

lemma move_consider {w} (hop : (s.pc p).op = some op) : Move s e (s.consider p op w) := by
  rw [State.consider]
  split_ifs with henters
  · exact .goto rfl rfl rfl (follows_same hop.symm henters)
  · refine move_giveUp hop ?_ ?_
    · rintro rfl
      exact henters rfl
    · rintro rfl
      exact henters rfl

lemma move_start (hidle : s.pc p = .idle) (h : s.start p op = some t) : Move s (.start p op) t := by
  cases op with
  | raise => cases h
  | decrement => cases h
  | unpin =>
    obtain ⟨hpins, h⟩ := Option.ite_none_left_eq_some.mp h
    cases h
    exact .goto rfl rfl rfl (follows_start hidle nofun nofun fun _ => pos_of_ne_zero hpins)
  | startIo | terminateIo =>
    obtain ⟨-, rfl⟩ := guard_eq_some h
    exact .goto rfl rfl rfl (follows_start hidle nofun nofun nofun)
  | _ =>
    cases h
    exact .goto rfl rfl rfl (follows_start hidle nofun nofun nofun)

lemma move_read (hpc : s.pc p = .loop op) : Move s (.read p) (s.read p op) := by
  have hop : (s.pc p).op = some op := by rw [hpc]; rfl
  cases op with
  | startIo =>
    simp only [State.read]
    split_ifs
    · exact move_giveUp hop nofun nofun
    · exact move_consider hop
  | _ => exact move_consider hop

lemma move_exchange {old} (hpc : s.pc p = .exchange op old) :
    Move s (.exchange p) (s.exchange p op old) := by
  have hop : (s.pc p).op = some op := by rw [hpc]; rfl
  rw [State.exchange]
  split_ifs with hword
  · subst hword
    exact .exchange p op hpc
  · cases op with
    | startIo => exact move_consider hop
    | _ => exact .goto rfl rfl rfl (follows_same hop.symm trivial)

theorem move_of_step (h : (machine ι).step s e = some t) : Move s e t := by
  cases e with
  | start =>
    obtain ⟨hidle, h⟩ := Option.ite_none_right_eq_some.mp h
    exact move_start hidle h
  | sweep p =>
    obtain ⟨hidle, h⟩ := Option.ite_none_right_eq_some.mp h
    split_ifs at h with hcounts
    · cases h
      exact .sweep p hidle hcounts.1 hcounts.2
    · cases h
      exact .stay rfl rfl rfl
  | read =>
    simp only [machine] at h
    split at h
    next op hpc =>
      cases h
      exact move_read hpc
    next => cases h
  | exchange =>
    simp only [machine] at h
    split at h
    next op old hpc =>
      cases h
      exact move_exchange hpc
    next => cases h
  | _ =>
    obtain ⟨-, rfl⟩ := guard_eq_some h
    exact .stay rfl rfl rfl

end Moves

/-! ## The counts stay in their fields -/

namespace Op

variable {op : Op} {w w' : Word}

lemma meant_apply (henters : op.enters w) (hraise : op = .raise → w.usage.val + 1 < 32)
    (hlower : op = .decrement → 0 < w.usage.val) : op.Meant w (op.apply w) := by
  cases op with
  | pin =>
    have href : w.refcount.val + 1 < 512 := by
      have := of_decide_eq_true henters
      omega
    simp [Meant, apply, Word.add_one href]
  | raise => simp [Meant, apply, Word.add_usage (hraise rfl)]
  | unpin =>
    have href : 0 < w.refcount.val := pos_of_ne_zero (of_decide_eq_true henters)
    simp only [Meant, apply, Word.sub_one href, true_and]
    omega
  | decrement =>
    have husage := hlower rfl
    simp only [Meant, apply, Word.sub_usage husage, true_and]
    omega
  | use =>
    refine ⟨rfl, ?_⟩
    show w.usage ≤ w.usage ||| 1
    generalize w.usage = u
    revert u
    decide
  | terminateIo clearDirty => cases clearDirty <;> simp [Meant, apply, Word.terminateIo]
  | _ => rfl

def pinsAfter (pins : Nat) : Op → Nat
  | pin _ => pins + 1
  | unpin => pins - 1
  | _ => pins

def next (w : Word) : Op → Pc
  | pin adjustUsage => if adjustUsage ∧ w.usage.val < 5 then .loop .raise else .idle
  | _ => .idle

lemma refcount_of_meant (h : op.Meant w w') : w'.refcount.val = op.pinsAfter w.refcount.val := by
  cases op with
  | pin => exact h.2
  | unpin => exact Nat.eq_sub_of_add_eq h.2
  | raise => rw [h.1]; rfl
  | decrement => rw [h.1]; rfl
  | use => rw [h.1]; rfl
  | _ => rw [show w' = _ from h]; rfl

lemma usage_of_meant (h : op.Meant w w') (hraise : op ≠ .raise)
    (hlower : op ≠ .decrement) (huse : op ≠ .use) : w'.usage = w.usage := by
  cases op with
  | raise => exact absurd rfl hraise
  | decrement => exact absurd rfl hlower
  | use => exact absurd rfl huse
  | pin => rw [h.1]
  | unpin => rw [h.1]
  | _ => rw [show w' = _ from h]

lemma usage_le_of_meant (h : op.Meant w w') (hlower : op ≠ .decrement) :
    w.usage.val ≤ w'.usage.val := by
  cases op with
  | decrement => exact absurd rfl hlower
  | raise =>
    have := h.2
    omega
  | use => exact h.2
  | _ => exact le_of_eq (congrArg _ (usage_of_meant h nofun nofun nofun).symm)

lemma entered_next (op : Op) (w : Word) : (op.next w).Entered := by
  cases op with
  | pin =>
    simp only [next]
    split_ifs <;> trivial
  | _ => trivial

lemma op_next_ne_unpin (op : Op) (w : Word) : (op.next w).op ≠ some .unpin := by
  cases op with
  | pin =>
    simp only [next]
    split_ifs <;> simp
  | _ => nofun

lemma lowering_next (op : Op) (w : Word) : (op.next w).lowering = 0 := by
  cases op with
  | pin =>
    simp only [next]
    split_ifs <;> rfl
  | _ => rfl

lemma raising_next_le (op : Op) (w : Word) : (op.next w).raising ≤ 1 := by
  rw [Pc.raising]
  split_ifs <;> omega

end Op

lemma or_one_mono : u ≤ v → (u ||| 1).val ≤ (v ||| 1).val := by
  revert u v
  decide

lemma or_one_succ : v.val = u.val + 1 → (v ||| 1).val ≤ (u ||| 1).val + 2 := by
  revert u v
  decide

lemma or_one_or (u : Fin 32) : u ||| 1 ||| 1 = u ||| 1 := by
  revert u
  decide

lemma or_one_le : u.val < 5 → (u ||| 1).val ≤ 5 := by
  revert u
  decide

namespace State

variable (s : State ι) (p : ι) (op : Op)

lemma done_word : (s.done p op).word = s.word := by
  cases op with
  | pin =>
    simp only [done]
    split_ifs <;> rfl
  | _ => rfl

lemma done_pins : (s.done p op).pins = update s.pins p (op.pinsAfter (s.pins p)) := by
  cases op with
  | pin =>
    simp only [done]
    split_ifs <;> rfl
  | unpin => rfl
  | _ => exact (update_eq_self p s.pins).symm

lemma done_pc : (s.done p op).pc = update s.pc p (op.next s.word) := by
  cases op with
  | pin =>
    simp only [done, Op.next]
    split_ifs <;> rfl
  | _ => rfl

end State

section Counts

variable [Fintype ι]

def State.raising (s : State ι) : Nat := ∑ p, (s.pc p).raising

def State.lowering (s : State ι) : Nat := ∑ p, (s.pc p).lowering

/-- A sweep tests the usage count only while the count has room for all subtractions under way, and
`MapPinBuffer` while at most twelve additions are. -/
def Paced (s : State ι) : Event ι → Prop
  | .sweep _ => s.word.refcount.val = 0 → s.word.usage.val ≠ 0 → s.lowering < s.word.usage.val
  | .exchange p => s.pc p = .exchange (.pin true) s.word → s.word.usage.val < 5 → s.raising ≤ 12
  | _ => True

instance (s : State ι) (e : Event ι) : Decidable (Paced s e) := by
  unfold Paced
  split <;> infer_instance

/-- The bits of the word count the pins and bound the usage, whatever is on its way. -/
structure Sound (s : State ι) : Prop where
  entered (p : ι) : (s.pc p).Entered
  unpin (p : ι) : (s.pc p).op = some .unpin → 0 < s.pins p
  counted : s.word.refcount.val = ∑ p, s.pins p
  lowering : s.lowering ≤ s.word.usage.val
  -- between two additions the lowest bit of the count may be set once
  raising : (s.word.usage ||| 1).val + 2 * s.raising ≤ 31

namespace Sound

variable {s t : State ι} {p : ι}

omit [DecidableEq ι] in
lemma init : Sound (init : State ι) where
  entered _ := trivial
  unpin _ h := nomatch h
  counted := by simp [StateWord.init, Word.zero]
  lowering := by simp [StateWord.init, State.lowering, Pc.lowering]
  raising := by simp [StateWord.init, State.raising, Pc.raising, Word.zero]

lemma goto (hs : Sound s) (hpc : t.pc = update s.pc p pc) (hword : t.word = s.word)
    (hpins : t.pins = s.pins) (h : Follows s p pc) : Sound t where
  entered q := by
    rw [hpc]
    rcases eq_or_ne q p with rfl | hq
    · rw [update_self]
      exact h.entered
    · rw [update_of_ne hq]
      exact hs.entered q
  unpin q hop := by
    rw [hpins]
    rw [hpc] at hop
    rcases eq_or_ne q p with rfl | hq
    · rw [update_self] at hop
      exact (h.unpin hop).elim id (hs.unpin q)
    · rw [update_of_ne hq] at hop
      exact hs.unpin q hop
  counted := by rw [hword, hpins, hs.counted]
  lowering := by
    rw [hword, State.lowering, hpc, sum_update_eq Pc.lowering s.pc p h.lowering]
    exact hs.lowering
  raising := by
    rw [hword, State.raising, hpc, sum_update_eq Pc.raising s.pc p h.raising]
    exact hs.raising

lemma sweep (hs : Sound s) (hidle : s.pc p = .idle) (h : s.lowering < s.word.usage.val) :
    Sound (s.goto p (.loop .decrement)) where
  entered q := by
    rcases eq_or_ne q p with rfl | hq
    · simp [State.goto, Pc.Entered]
    · simpa [State.goto, update_of_ne hq] using hs.entered q
  unpin q hop := by
    rcases eq_or_ne q p with rfl | hq
    · simp [State.goto] at hop
    · exact hs.unpin q (by simpa [State.goto, update_of_ne hq] using hop)
  counted := hs.counted
  lowering := by
    have hsum := sum_update_add Pc.lowering s.pc p (.loop .decrement)
    show ∑ q, (update s.pc p (.loop .decrement) q).lowering ≤ s.word.usage.val
    have hone : (Pc.loop .decrement).lowering = 1 := rfl
    have hlow : ∑ q, (s.pc q).lowering < s.word.usage.val := h
    omega
  raising := by
    have hkeep : (Pc.loop .decrement).raising = (s.pc p).raising := by
      rw [hidle]
      rfl
    show (s.word.usage ||| 1).val + 2 * ∑ q, (update s.pc p (.loop .decrement) q).raising ≤ 31
    rw [sum_update_eq Pc.raising s.pc p hkeep]
    exact hs.raising

omit [DecidableEq ι] in
lemma usage_lt (hs : Sound s) (h : (s.pc p).op = some .raise) : s.word.usage.val + 1 < 32 := by
  have hle : (s.pc p).raising ≤ s.raising := le_sum Pc.raising s.pc p
  have hone : (s.pc p).raising = 1 := by rw [Pc.raising, h, if_pos rfl]
  have hor : s.word.usage.val ≤ (s.word.usage ||| 1).val := by
    generalize s.word.usage = u
    revert u
    decide
  have hsum := hs.raising
  omega

omit [DecidableEq ι] in
lemma usage_pos (hs : Sound s) (h : (s.pc p).op = some .decrement) : 0 < s.word.usage.val := by
  have hle : (s.pc p).lowering ≤ s.lowering := le_sum Pc.lowering s.pc p
  have hone : (s.pc p).lowering = 1 := by rw [Pc.lowering, h, if_pos rfl]
  have hsum := hs.lowering
  omega

variable {op : Op}

section

variable (hs : Sound s) (hpc : s.pc p = .exchange op s.word)
include hs hpc

omit [DecidableEq ι] in
lemma meant : op.Meant s.word (op.apply s.word) := by
  have hop : (s.pc p).op = some op := by rw [hpc, Pc.op_exchange]
  have henters : op.enters s.word := by
    have := hs.entered p
    rwa [hpc] at this
  refine Op.meant_apply henters ?_ ?_
  · rintro rfl
    exact hs.usage_lt hop
  · rintro rfl
    exact hs.usage_pos hop

lemma counted_exchange :
    (op.apply s.word).refcount.val = ∑ q, update s.pins p (op.pinsAfter (s.pins p)) q := by
  have hsum := sum_update_add id s.pins p (op.pinsAfter (s.pins p))
  have hle := le_sum id s.pins p
  have hcounted := hs.counted
  rw [Op.refcount_of_meant (hs.meant hpc)]
  cases op with
  | unpin =>
    have hpos : 0 < s.pins p := hs.unpin p (by rw [hpc, Pc.op_exchange])
    simp only [id_eq, Op.pinsAfter] at hsum hle ⊢
    omega
  | _ =>
    simp only [id_eq, Op.pinsAfter] at hsum ⊢
    omega

lemma lowering_exchange :
    ∑ q, (update s.pc p (op.next (op.apply s.word)) q).lowering ≤ (op.apply s.word).usage.val := by
  have hsum := sum_update_add Pc.lowering s.pc p (op.next (op.apply s.word))
  have hlow : ∑ q, (s.pc q).lowering ≤ s.word.usage.val := hs.lowering
  have hmeant := hs.meant hpc
  rw [hpc, Op.lowering_next] at hsum
  by_cases hdec : op = .decrement
  · subst hdec
    have hone : (Pc.exchange .decrement s.word).lowering = 1 := rfl
    have husage := hmeant.2
    omega
  · have hge := Op.usage_le_of_meant hmeant hdec
    omega

lemma raising_exchange (hpaced : Paced s (.exchange p)) : ((op.apply s.word).usage ||| 1).val
      + 2 * ∑ q, (update s.pc p (op.next (op.apply s.word)) q).raising ≤ 31 := by
  have hsum := sum_update_add Pc.raising s.pc p (op.next (op.apply s.word))
  have hraise : (s.word.usage ||| 1).val + 2 * ∑ q, (s.pc q).raising ≤ 31 := hs.raising
  have hmeant := hs.meant hpc
  rw [hpc] at hsum
  cases op with
  | raise =>
    have hone : (Pc.exchange .raise s.word).raising = 1 := rfl
    have hzero : (Op.raise.next (Op.raise.apply s.word)).raising = 0 := rfl
    have hor := or_one_succ hmeant.2
    omega
  | decrement =>
    have hzero' : (Op.decrement.next (Op.decrement.apply s.word)).raising = 0 := rfl
    have hor := or_one_mono (le_of_lt (Nat.lt_of_succ_le (le_of_eq hmeant.2)))
    omega
  | use =>
    have hzero' : (Op.use.next (Op.use.apply s.word)).raising = 0 := rfl
    have hor : (Op.use.apply s.word).usage ||| 1 = s.word.usage ||| 1 := or_one_or s.word.usage
    omega
  | pin adjustUsage =>
    have husage := Op.usage_of_meant hmeant nofun nofun nofun
    rw [husage]
    by_cases htest : adjustUsage = true ∧ s.word.usage.val < 5
    · obtain ⟨rfl, hlt⟩ := htest
      -- the one place where the number of additions under way goes up
      have hfew : ∑ q, (s.pc q).raising ≤ 12 := hpaced hpc hlt
      have hor : (s.word.usage ||| 1).val ≤ 5 := or_one_le hlt
      have hle := Op.raising_next_le (.pin true) (Op.apply (.pin true) s.word)
      omega
    · have hidle : ((Op.pin adjustUsage).next ((Op.pin adjustUsage).apply s.word)).raising = 0 := by
        simp only [Op.next, husage, if_neg htest]
        rfl
      omega
  | _ =>
    have husage := Op.usage_of_meant hmeant nofun nofun nofun
    rw [husage]
    -- neither the loop that ends nor what follows is an addition
    change _ + 0 = _ + 0 at hsum
    omega

lemma exchange (hpaced : Paced s (.exchange p)) :
    Sound (({ s with word := op.apply s.word } : State ι).done p op) where
  entered q := by
    rw [State.done_pc]
    rcases eq_or_ne q p with rfl | hq
    · rw [update_self]
      exact Op.entered_next op _
    · rw [update_of_ne hq]
      exact hs.entered q
  unpin q hop := by
    rw [State.done_pc] at hop
    rw [State.done_pins]
    rcases eq_or_ne q p with rfl | hq
    · rw [update_self] at hop
      exact absurd hop (Op.op_next_ne_unpin op _)
    · rw [update_of_ne hq] at hop ⊢
      exact hs.unpin q hop
  counted := by
    rw [State.done_word, State.done_pins]
    exact hs.counted_exchange hpc
  lowering := by
    rw [State.done_word, State.lowering, State.done_pc]
    exact hs.lowering_exchange hpc
  raising := by
    rw [State.done_word, State.raising, State.done_pc]
    exact hs.raising_exchange hpc hpaced

end

lemma step (hs : Sound s) (hpaced : Paced s e) (h : (machine ι).step s e = some t) : Sound t := by
  cases move_of_step h with
  | stay hword hpins hpc =>
    exact ⟨hpc ▸ hs.entered, hpc ▸ hpins ▸ hs.unpin, hword ▸ hpins ▸ hs.counted,
      by rw [State.lowering, hpc, hword]; exact hs.lowering,
      by rw [State.raising, hpc, hword]; exact hs.raising⟩
  | goto hpc hword hpins hfollows => exact hs.goto hpc hword hpins hfollows
  | sweep p hidle href husage => exact hs.sweep hidle (hpaced href husage)
  | exchange p op hpc => exact hs.exchange hpc hpaced

end Sound

/-- A step leaves the word alone or is the exchange of a loop that does what it is meant to. -/
def Kept (s : State ι) (e : Event ι) (t : State ι) : Prop :=
  t.word = s.word ∨ ∃ p op, e = .exchange p ∧ s.pc p = .exchange op s.word ∧ op.Meant s.word t.word

lemma Sound.kept {s t} (hs : Sound s) (h : (machine ι).step s e = some t) : Kept s e t := by
  cases move_of_step h with
  | stay hword => exact .inl hword
  | goto hpc hword => exact .inl hword
  | sweep => exact .inl rfl
  | exchange p op hpc =>
    refine .inr ⟨p, op, rfl, hpc, ?_⟩
    rw [State.done_word]
    exact hs.meant hpc

/-- In every run whose tests of the usage count find room for what is under way, the reference count
is the number of pins and a step changes only the fields its operation is meant to. -/
theorem fields_kept_of_reaches {s : State ι} (h : (machine ι).Reaches Paced init s) :
    s.word.refcount.val = ∑ p, s.pins p ∧
      ∀ e t, Paced s e → (machine ι).step s e = some t → Kept s e t := by
  have hs : Sound s := h.invariant .init fun hs hpaced hstep => hs.step hpaced hstep
  exact ⟨hs.counted, fun e t _ hstep => hs.kept hstep⟩

end Counts

def dirtied (p : ι) : List (Event ι) :=
  [.start p (.pin true), .read p, .exchange p, .read p, .exchange p, .start p .markDirty, .read p,
    .exchange p, .start p .unpin, .read p, .exchange p]

def flushed (p q : ι) : List (Event ι) :=
  dirtied p ++ [.sweep q, .read q, .exchange q, .start q (.startIo false), .read q]

theorem fields_kept_of_reaches_flushed :
    ∃ s : State (Fin 2), (machine (Fin 2)).Reaches Paced init s ∧
      s.word = { Word.zero with dirty := true, justDirtied := true } ∧
      s.word.refcount.val = ∑ p, s.pins p ∧
      ∀ e t, Paced s e → (machine (Fin 2)).step s e = some t → Kept s e t := by
  have h : (machine (Fin 2)).Reaches Paced init (((machine (Fin 2)).restrict Paced).after init
      (flushed 0 1)) := .of_isSome (by decide)
  exact ⟨_, h, by decide, fields_kept_of_reaches h⟩

def sweeps (p q r : ι) : List (Event ι) :=
  dirtied p ++ [.sweep q, .sweep r, .read q, .exchange q, .read r]

/-- The second of two sweeps takes one off a usage count of zero, and the borrow clears the dirty
flag. -/
theorem sweeps_lose_dirty :
    (machine (Fin 3)).Reachable init ((machine (Fin 3)).after init (sweeps 0 1 2)) ∧
      ((machine (Fin 3)).after init (sweeps 0 1 2)).word.dirty = true ∧
      ∃ t, (machine (Fin 3)).step ((machine (Fin 3)).after init (sweeps 0 1 2)) (.exchange 2)
          = some t ∧
        t.word.dirty = false ∧ t.word.usage = 31 ∧
        ¬ Kept ((machine (Fin 3)).after init (sweeps 0 1 2)) (.exchange 2) t := by
  refine ⟨.of_isSome (by decide), by decide, _, rfl, by decide, by decide, ?_⟩
  rintro (hword | ⟨p, op, he, hpc, hmeant⟩)
  · exact absurd hword (by decide)
  · cases he
    have hop : op = .decrement := by
      have hpc' : ((machine (Fin 3)).after init (sweeps 0 1 2)).pc 2
          = .exchange .decrement ((machine (Fin 3)).after init (sweeps 0 1 2)).word := by decide
      exact (Pc.exchange.inj (hpc.symm.trans hpc')).1
    subst hop
    exact absurd hmeant (by decide)

end Umbra.Cache.StateWord
