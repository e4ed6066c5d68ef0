import Umbra.Block.Machine

/-!
# Steps of one block

The inversion of `step`: every enabled step with what it needs.
-/

namespace Umbra.Block

open Foundation

variable {β : Type}

inductive Move (compacting : Bool) (s : State β) : Event β → State β → Prop
  | other : Move compacting s .other { s with wal := s.wal ++ [.other] }
  | flushWal {upto} (hle : s.durable ≤ upto) (hlen : upto ≤ s.wal.length) :
      Move compacting s (.flushWal upto) { s with durable := upto }
  | writeMap : Move compacting s .writeMap s.writeMap
  | begin {b} (delta : β → β) (hb : s.buffer = some b) (hu : s.update = .none)
      (hw : s.writing = .none) :
      Move compacting s (.begin delta)
        { s with update := .begun delta, buffer := some { b with dirty := true } }
  | assemble {b delta} (hb : s.buffer = some b) (hu : s.update = .begun delta) :
      Move compacting s .assemble { s with update := .remapping delta s.mapping }
  | logPlain {b delta} (hb : s.buffer = some b) (hu : s.update = .begun delta)
      (hlt : s.redo < b.page.lsn) : Move compacting s .log (s.logPlain b delta)
  | logRemap {b delta old} (hb : s.buffer = some b) (hu : s.update = .remapping delta old)
      (hc : s.compactor = .idle) (hne : old ≠ s.nextFree) :
      Move compacting s .log (s.logRemap b delta ⟨old, s.nextFree, some (s.nextFree + 1), hne⟩)
  | writeStart {b : SharedBuffer β} (victim : Bool) (hb : s.buffer = some b)
      (hu : s.update = .none) (hw : s.writing = .none) (hd : b.dirty = true) :
      Move compacting s (.writeStart victim) { s with
        writing := s.firstWrite b victim
        durable := max s.durable b.page.lsn }
  | flySaved {pblk victim} (hw : s.writing = .saved pblk victim) :
      Move compacting s .writeFly { s with writing := .savedFlying pblk victim }
  | flyActive (hw : s.writing = .active) (hc : s.compactor = .idle) :
      Move compacting s .writeFly { s with writing := .activeFlying s.mapping }
  | landSavedVictim {b pblk} (hb : s.buffer = some b) (hw : s.writing = .savedFlying pblk true) :
      Move compacting s .writeLand { s.setDisk pblk (some (.page b.page)) with writing := .active }
  | landSaved {b pblk} (hb : s.buffer = some b) (hw : s.writing = .savedFlying pblk false) :
      Move compacting s .writeLand ((s.setDisk pblk (some (.page b.page))).writtenSaved b)
  | landActive {b pblk} (hb : s.buffer = some b) (hw : s.writing = .activeFlying pblk) :
      Move compacting s .writeLand ((s.setDisk pblk (some (.page b.page))).written b)
  | evict {b} (hb : s.buffer = some b) (hu : s.update = .none) (hw : s.writing = .none)
      (hd : b.dirty = false) : Move compacting s .evict { s with buffer := none }
  | load {p} (hb : s.buffer = none) (hdisk : s.disk s.mapping = some (.page p)) :
      Move compacting s .load { s with buffer := some ⟨p, false, false, none⟩ }
  | publish (hp : s.phase = .idle) :
      Move compacting s .publish { s with phase := .published, redo := s.wal.length }
  | flushMap (hp : s.phase = .published) :
      Move compacting s .flushMap { s.writeMap with phase := .mapFlushed }
  | mark (hp : s.phase = .mapFlushed) :
      Move compacting s .mark { s with
        phase := .syncing
        buffer := s.buffer.map fun b =>
          { b with checkpointNeeded := b.dirty || b.checkpointNeeded } }
  | complete (hp : s.phase = .syncing)
      (hall : ∀ b, s.buffer = some b → b.checkpointNeeded = false) :
      Move compacting s .complete
        { s with phase := .idle, completed := s.redo, durable := s.wal.length }
  | claim (old : Nat) (hcompacting : compacting = true) (hc : s.compactor = .idle)
      (hun : s.Unbarred) :
      Move compacting s (.claim old)
        { s with compactor := .claimed old s.nextFree, nextFree := s.nextFree + 1 }
  | copy {old new} (hc : s.compactor = .claimed old new) :
      Move compacting s .copy { s.setDisk new (s.disk old) with compactor := .copied old new }
  | relocate {old new} (hc : s.compactor = .copied old new) (hm : s.mapping = old) :
      Move compacting s .relocate (s.relocate old new)
  | giveUp : Move compacting s .giveUp { s with compactor := .idle }

variable {compacting : Bool} {s t : State β}

lemma Move.of_stepUpdate_begin {delta} (h : stepUpdate s (.begin delta) = some t) :
    Move compacting s (.begin delta) t := by
  simp only [stepUpdate] at h
  split at h
  next b hb hu hw =>
    cases h
    exact .begin delta hb hu hw
  next => cases h

lemma Move.of_stepUpdate_assemble (h : stepUpdate s .assemble = some t) :
    Move compacting s .assemble t := by
  simp only [stepUpdate] at h
  split at h
  next b delta hb hu =>
    obtain ⟨-, rfl⟩ := guard_eq_some h
    exact .assemble hb hu
  next => cases h

lemma Move.of_stepUpdate_log (h : stepUpdate s .log = some t) : Move compacting s .log t := by
  simp only [stepUpdate] at h
  split at h
  next b delta hb hu =>
    obtain ⟨hlt, rfl⟩ := guard_eq_some h
    exact .logPlain hb hu hlt
  next b delta old hb hu =>
    obtain ⟨hc, h⟩ := Option.ite_none_right_eq_some.mp h
    split at h
    next hne =>
      cases h
      exact .logRemap hb hu hc hne
    next => cases h
  next => cases h

lemma Move.of_stepBuffer_writeStart {victim} (h : stepBuffer s (.writeStart victim) = some t) :
    Move compacting s (.writeStart victim) t := by
  simp only [stepBuffer] at h
  split at h
  next b hb hu hw =>
    obtain ⟨hd, rfl⟩ := guard_eq_some h
    exact .writeStart victim hb hu hw hd
  next => cases h

lemma Move.of_stepBuffer_writeFly (h : stepBuffer s .writeFly = some t) :
    Move compacting s .writeFly t := by
  simp only [stepBuffer] at h
  split at h
  next pblk victim hw =>
    cases h
    exact .flySaved hw
  next hw =>
    obtain ⟨hc, rfl⟩ := guard_eq_some h
    exact .flyActive hw hc
  next => cases h

lemma Move.of_stepBuffer_writeLand (h : stepBuffer s .writeLand = some t) :
    Move compacting s .writeLand t := by
  simp only [stepBuffer] at h
  split at h
  next b pblk victim hb hw =>
    cases victim with
    | true =>
      cases h
      exact .landSavedVictim hb hw
    | false =>
      cases h
      exact .landSaved hb hw
  next b pblk hb hw =>
    cases h
    exact .landActive hb hw
  next => cases h

lemma Move.of_stepBuffer_evict (h : stepBuffer s .evict = some t) : Move compacting s .evict t := by
  simp only [stepBuffer] at h
  split at h
  next b hb hu hw =>
    obtain ⟨hd, h⟩ := Option.ite_none_left_eq_some.mp h
    cases h
    exact .evict hb hu hw (Bool.eq_false_iff.mpr hd)
  next => cases h

lemma Move.of_stepBuffer_load (h : stepBuffer s .load = some t) : Move compacting s .load t := by
  simp only [stepBuffer] at h
  split at h
  next p hb hdisk =>
    cases h
    exact .load hb hdisk
  next => cases h

lemma Move.of_stepCheckpoint_complete (h : stepCheckpoint s .complete = some t) :
    Move compacting s .complete t := by
  obtain ⟨⟨hp, hall⟩, rfl⟩ := guard_eq_some h
  refine .complete hp fun b hb => ?_
  rw [hb] at hall
  simpa using hall

lemma Move.of_step {e} (h : step compacting s e = some t) : Move compacting s e t := by
  cases e with
  | other =>
    cases h
    exact .other
  | flushWal =>
    obtain ⟨⟨hle, hlen⟩, rfl⟩ := guard_eq_some h
    exact .flushWal hle hlen
  | writeMap =>
    cases h
    exact .writeMap
  | begin => exact .of_stepUpdate_begin h
  | assemble => exact .of_stepUpdate_assemble h
  | log => exact .of_stepUpdate_log h
  | writeStart => exact .of_stepBuffer_writeStart h
  | writeFly => exact .of_stepBuffer_writeFly h
  | writeLand => exact .of_stepBuffer_writeLand h
  | evict => exact .of_stepBuffer_evict h
  | load => exact .of_stepBuffer_load h
  | publish =>
    obtain ⟨hp, rfl⟩ := guard_eq_some h
    exact .publish hp
  | flushMap =>
    obtain ⟨hp, rfl⟩ := guard_eq_some h
    exact .flushMap hp
  | mark =>
    obtain ⟨hp, rfl⟩ := guard_eq_some h
    exact .mark hp
  | complete => exact .of_stepCheckpoint_complete h
  | claim old =>
    obtain ⟨hcompacting, h⟩ := Option.ite_none_right_eq_some.mp h
    obtain ⟨⟨hc, hun⟩, rfl⟩ := guard_eq_some h
    exact .claim old hcompacting hc hun
  | copy =>
    simp only [step, stepCompactor] at h
    split at h
    next old new hc =>
      obtain ⟨-, rfl⟩ := guard_eq_some h
      exact .copy hc
    next => cases h
  | relocate =>
    simp only [step, stepCompactor] at h
    split at h
    next old new hc =>
      obtain ⟨hm, rfl⟩ := guard_eq_some h
      exact .relocate hc hm
    next => cases h
  | giveUp =>
    cases h
    exact .giveUp

end Umbra.Block
