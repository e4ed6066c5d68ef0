import Mathlib.Data.Nat.Notation
import Umbra.Basic

/-!
# Flushing a shared buffer

A block that is relocated while a checkpoint runs leaves its old physical block with the buffer, and
the checkpoint writes its image there. Only the eviction of a victim asks `FlushBuffer` for the
block of the mapping to be written as well.
-/

namespace Umbra.FlushBuffer

open Function

def ckptBufferPblkEpochMask : ℕ := 0x7FFFFFFF

/-- `CkptBufferPblkCaptureEpoch`: the active bit and the epoch. -/
structure CaptureEpoch where
  active : Bool
  epoch : ℕ
  deriving DecidableEq

namespace CaptureEpoch

/-- `CheckPointBuffersPblkCaptureBegin`. -/
def begin (c : CaptureEpoch) : CaptureEpoch where
  active := true
  epoch := if c.epoch + 1 > ckptBufferPblkEpochMask then 1 else c.epoch + 1

def activeEpoch (c : CaptureEpoch) : ℕ := if c.active then c.epoch else 0

end CaptureEpoch

structure State (π : Type) where
  /-- `BM_DIRTY`. -/
  dirty : Bool
  checkpointNeeded : Bool
  ioInProgress : Bool
  ioError : Bool
  permanent : Bool
  page : π
  /-- `CkptBufferPblks` and `CkptBufferPblkEpochs` at the buffer. -/
  savedPblk : Option ℕ
  savedEpoch : ℕ
  captureEpoch : CaptureEpoch
  mapping : Option ℕ
  disk : ℕ → π
  flushed : ℕ
  locked : Bool

inductive Error
  /-- "checkpoint physical block saved without current Umbra mapping" -/
  | savedWithoutMapping
  | unmapped
  | write
  deriving DecidableEq

section

variable {π : Type}

namespace State

/-- `ClearCheckpointBufferPblk`. -/
def clearCheckpointPblk (s : State π) : State π := { s with savedPblk := none, savedEpoch := 0 }

def saveCheckpointPblk (s : State π) (pblk : ℕ) : State π :=
  if s.captureEpoch.activeEpoch = 0 then s
  else if s.checkpointNeeded = false then s
  else if s.savedEpoch = s.captureEpoch.activeEpoch ∧ s.savedPblk ≠ none then s
  else { s with savedPblk := some pblk, savedEpoch := s.captureEpoch.activeEpoch }

def getSavedCheckpointPblk (s : State π) : Option ℕ :=
  if s.captureEpoch.epoch = 0 then none
  else if s.checkpointNeeded = true ∧ s.savedEpoch = s.captureEpoch.epoch then s.savedPblk
  else none

def terminateBufferIo (s : State π) : State π :=
  { s with
    ioInProgress := false, ioError := false, dirty := false
    checkpointNeeded := false }.clearCheckpointPblk

def terminateCheckpointBufferIo (s : State π) : State π :=
  { s with ioInProgress := false, ioError := false, checkpointNeeded := false }.clearCheckpointPblk

end State

variable (setChecksum : π → π) (lsn : π → ℕ) (fails : ℕ → Bool)

def writePblk (s : State π) (pblk : ℕ) : Except Error (State π) :=
  if fails pblk then .error .write
  else .ok { s with disk := update s.disk pblk s.page }

def smgrwrite (s : State π) : Except Error (State π) :=
  match s.mapping with
  | some pblk => writePblk fails s pblk
  | none => .error .unmapped

def writeOut (s : State π) (checkpointPblk : Option ℕ) (flushActive : Bool) :
    Except Error (State π) :=
  match checkpointPblk with
  | none => (smgrwrite fails s).map State.terminateBufferIo
  | some pblk =>
    if s.mapping = some pblk then
      (smgrwrite fails s).map State.terminateBufferIo
    else do
      let s ← writePblk fails s pblk
      if flushActive then
        (smgrwrite fails s).map State.terminateBufferIo
      else
        return s.terminateCheckpointBufferIo

/-- `FlushBuffer`, with no other write of the buffer in progress. -/
def flushBuffer (s : State π) (flushActive : Bool) : Except Error (State π) :=
  if s.dirty = false then
    .ok s
  else if s.getSavedCheckpointPblk ≠ none ∧ s.mapping = none then
    .error .savedWithoutMapping
  else
    let started := { s with
      ioInProgress := true
      flushed := if s.permanent then max s.flushed (lsn s.page) else s.flushed
      page := setChecksum s.page }
    writeOut fails started s.getSavedCheckpointPblk flushActive

def flushOneBuffer (s : State π) : Except Error (State π) :=
  flushBuffer setChecksum lsn fails s false

def flushUnlockedBuffer (s : State π) : Except Error (State π) := do
  let s ← flushBuffer setChecksum lsn fails { s with locked := true } false
  return { s with locked := false }

/-! ### What a flush leaves -/

def Current (s : State π) : Prop := s.dirty = false ∧ ∃ p, s.mapping = some p ∧ s.disk p = s.page

/-- The buffer is dirty and its saved block is not the block of the mapping any more. -/
def LeftBehind (s : State π) : Prop :=
  s.dirty = true ∧ ∃ p, s.getSavedCheckpointPblk = some p ∧ s.mapping ≠ some p

variable {setChecksum lsn fails} {s t : State π}

lemma writePblk_ok {p} (h : writePblk fails s p = .ok t) :
    t = { s with disk := update s.disk p s.page } := by
  unfold writePblk at h
  split at h
  · cases h
  · exact (Except.ok.inj h).symm

lemma current_of_smgrwrite (h : (smgrwrite fails s).map State.terminateBufferIo = .ok t) :
    Current t := by
  unfold smgrwrite at h
  split at h
  · rename_i p hp
    cases hw : writePblk fails s p with
    | error =>
      rw [hw] at h
      cases h
    | ok =>
      rw [hw, writePblk_ok hw] at h
      cases h
      exact ⟨rfl, p, hp, update_self ..⟩
  · cases h

lemma writeOut_current_iff {saved} (hd : s.dirty = true)
    (h : writeOut fails s saved false = .ok t) :
    Current t ↔ ¬ ∃ p, saved = some p ∧ s.mapping ≠ some p := by
  cases saved with
  | none => exact iff_of_true (current_of_smgrwrite h) (by simp)
  | some p =>
    simp only [writeOut] at h
    split at h
    · rename_i hp
      refine iff_of_true (current_of_smgrwrite h) ?_
      rintro ⟨q, hq, hne⟩
      cases hq
      exact hne hp
    · rename_i hp
      refine iff_of_false ?_ (not_not.mpr ⟨p, rfl, hp⟩)
      rintro ⟨hclean, _⟩
      cases hw : writePblk fails s p with
      | error =>
        rw [hw] at h
        cases h
      | ok =>
        rw [hw, writePblk_ok hw] at h
        cases h
        exact Bool.false_ne_true (hclean.symm.trans hd)

lemma flushBuffer_current_iff (hclean : s.dirty = false → Current s)
    (h : flushBuffer setChecksum lsn fails s false = .ok t) : Current t ↔ ¬ LeftBehind s := by
  unfold flushBuffer at h
  split at h
  · rename_i hd
    cases h
    exact iff_of_true (hclean hd) fun hl => Bool.false_ne_true (hd.symm.trans hl.1)
  rename_i hd
  have hdirty : s.dirty = true := Bool.not_eq_false _ ▸ hd
  split at h
  · cases h
  · refine (writeOut_current_iff (by exact hdirty) h).trans (not_congr ?_)
    rw [LeftBehind, hdirty, and_iff_right rfl]

/-- A flush that returns leaves the page at the block of the mapping and the buffer clean, exactly
if the buffer was clean or had no other saved block. -/
theorem flush_current_iff (setChecksum : π → π) (lsn : π → ℕ) (fails : ℕ → Bool) (s t : State π)
    (hclean : s.dirty = false → Current s) (h : flushOneBuffer setChecksum lsn fails s = .ok t ∨
      flushUnlockedBuffer setChecksum lsn fails s = .ok t) : Current t ↔ ¬ LeftBehind s := by
  rcases h with h | h
  · exact flushBuffer_current_iff hclean h
  · unfold flushUnlockedBuffer at h
    cases hf : flushBuffer setChecksum lsn fails { s with locked := true } false with
    | error =>
      rw [hf] at h
      cases h
    | ok u =>
      rw [hf] at h
      cases h
      have hiff : Current u ↔ ¬ LeftBehind { s with locked := true } :=
        flushBuffer_current_iff (by exact hclean) hf
      exact hiff

def loaded : State ℕ where
  dirty := false
  checkpointNeeded := false
  ioInProgress := false
  ioError := false
  permanent := true
  page := 0
  savedPblk := none
  savedEpoch := 0
  captureEpoch := ⟨false, 0⟩
  mapping := some 0
  disk _ := 0
  flushed := 0
  locked := false

def modified : State ℕ := { loaded with dirty := true, page := 7 }

/-- A checkpoint starts and marks the buffer; then the block is relocated to physical block 1 and
changed again. -/
def relocated : State ℕ :=
  let s := { modified with captureEpoch := loaded.captureEpoch.begin, checkpointNeeded := true }
  { s.saveCheckpointPblk 0 with mapping := some 1, page := 8 }

theorem flush_current_iff_modified :
    ∃ t, flushOneBuffer id id (fun _ => false) modified = .ok t ∧ ¬ LeftBehind modified ∧
      (Current t ↔ ¬ LeftBehind modified) := by
  refine ⟨_, rfl, ?_, flush_current_iff id id (fun _ => false) modified _ nofun (.inl rfl)⟩
  rintro ⟨_, p, hp, _⟩
  cases hp

/-- The flush writes only the old block: the block of the mapping keeps its old contents. -/
theorem flush_leaves_mapped_block : (flushOneBuffer id id (fun _ => false) relocated).toOption.map
      (fun t => (t.dirty, t.mapping, t.disk 0, t.disk 1, t.page)) = some (true, some 1, 8, 0, 8) ∧
    (flushUnlockedBuffer id id (fun _ => false) relocated).toOption.map
      (fun t => (t.dirty, t.mapping, t.disk 0, t.disk 1, t.page)) = some (true, some 1, 8, 0, 8) :=
  ⟨rfl, rfl⟩

end

end Umbra.FlushBuffer
