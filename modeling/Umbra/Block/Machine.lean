import Umbra.Block.History
import Umbra.Foundation.System

/-!
# One block between updates, write-backs, checkpoints and the compactor

A logged update locks the buffer, marks it dirty and inserts its record; the first one after a redo
pointer gives the page a new physical block. A checkpoint publishes its redo pointer, flushes the
MAP, marks the dirty buffers and waits until they are written. A buffer that is remapped while
marked remembers its old block, and the checkpoint writes the page there. The compactor copies the
block and logs the new place. The record of a remap and its commit to the MAP are one step.
-/

namespace Umbra.Block

open Foundation

variable {β : Type}

structure SharedBuffer (β : Type) where
  page : Page β
  dirty : Bool
  checkpointNeeded : Bool
  /-- `CkptBufferPblks`. -/
  saved : Option Nat

inductive Update (β : Type)
  | none
  | begun (delta : β → β)
  /-- `MapGetNewPbkno` has looked up the old block. -/
  | remapping (delta : β → β) (oldPblkno : Nat)

/-- Where a `FlushBuffer` stands; while a write is flying, a crash may tear the block. -/
inductive Writing
  | none
  /-- Write to the saved block first, and to the block of the mapping too if the buffer is a
  victim. -/
  | saved (pblk : Nat) (victim : Bool)
  | savedFlying (pblk : Nat) (victim : Bool)
  /-- `smgrwrite`. -/
  | active
  | activeFlying (pblk : Nat)
  deriving DecidableEq, Repr

inductive Phase
  | idle
  | published
  | mapFlushed
  | syncing
  deriving DecidableEq, Repr

inductive Compactor
  | idle
  | claimed (oldPblkno newPblkno : Nat)
  | copied (oldPblkno newPblkno : Nat)
  deriving DecidableEq, Repr

/-- The server with one block. `redo` is the published redo pointer, `completed` that of the last
completed checkpoint, `mapDisk` the mapping in the MAP file. -/
structure State (β : Type) where
  wal : List (Record β)
  durable : Nat
  /-- `RedoRecPtr`. -/
  redo : Nat
  completed : Nat
  phase : Phase
  update : Update β
  writing : Writing
  compactor : Compactor
  buffer : Option (SharedBuffer β)
  disk : Nat → Option (Content β)
  mapping : Nat
  mapLsn : Nat
  mapDisk : Nat
  nextFree : Nat

/-- The steps of a backend, a writer, the checkpointer and the compactor. -/
inductive Event (β : Type)
  | other
  | flushWal (upto : Nat)
  | begin (delta : β → β)
  /-- `XLogRecordAssembleUmbra` decides for a remap. -/
  | assemble
  | log
  | writeStart (victim : Bool)
  | writeFly
  | writeLand
  | evict
  | load
  | writeMap
  | publish
  | flushMap
  | mark
  | complete
  /-- `MapTryReserveFreshPblkno` of the compactor for a block it has seen mapped. -/
  | claim (oldPblkno : Nat)
  | copy
  | relocate
  | giveUp

namespace State

def flying (s : State β) : Option Nat :=
  match s.writing with
  | .savedFlying pblk _ | .activeFlying pblk => some pblk
  | _ => none

/-- Nobody has the write barrier of the block. A write to the saved block takes none. -/
def Unbarred (s : State β) : Prop := ∀ pblk, s.writing ≠ .activeFlying pblk

instance (s : State β) : Decidable s.Unbarred :=
  match h : s.writing with
  | .activeFlying pblk => .isFalse fun hu => hu pblk h
  | .none | .saved .. | .savedFlying .. | .active =>
    .isTrue fun _ heq => nomatch h.symm.trans heq

def setDisk (s : State β) (pblk : Nat) (c : Option (Content β)) : State β :=
  { s with disk := Function.update s.disk pblk c }

/-- `MapFlushWritePage`: the log is flushed up to the position of the MAP page first. -/
def writeMap (s : State β) : State β :=
  { s with mapDisk := s.mapping, durable := max s.durable s.mapLsn }

/-- `BufferSaveCheckpointPblk`. -/
def savedAfterRemap (s : State β) (b : SharedBuffer β) (oldPblkno : Nat) : Option Nat :=
  if s.phase = .syncing ∧ b.checkpointNeeded = true ∧ b.saved = none then some oldPblkno
  else b.saved

def logPlain (s : State β) (b : SharedBuffer β) (delta : β → β) : State β :=
  { s with
    wal := s.wal ++ [.plain delta]
    update := .none
    buffer := some { b with page := ⟨s.wal.length + 1, delta b.page.body⟩ } }

def logRemap (s : State β) (b : SharedBuffer β) (delta : β → β) (r : Remap) : State β :=
  { s with
    wal := s.wal ++ [.remap r delta]
    update := .none
    buffer := some { b with
      page := ⟨s.wal.length + 1, delta b.page.body⟩
      saved := s.savedAfterRemap b r.oldPblkno }
    mapping := r.newPblkno
    mapLsn := s.wal.length + 1
    nextFree := r.newPblkno + 1 }

def relocate (s : State β) (oldPblkno newPblkno : Nat) : State β :=
  { s with
    wal := s.wal ++ [.mapSet oldPblkno newPblkno]
    compactor := .idle
    mapping := newPblkno
    mapLsn := s.wal.length + 1 }

def written (s : State β) (b : SharedBuffer β) : State β :=
  { s with
    writing := .none
    buffer := some { b with dirty := false, checkpointNeeded := false, saved := none } }

def writtenSaved (s : State β) (b : SharedBuffer β) : State β :=
  { s with writing := .none, buffer := some { b with checkpointNeeded := false, saved := none } }

def firstWrite (s : State β) (b : SharedBuffer β) (victim : Bool) : Writing :=
  match b.saved with
  | some pblk =>
    if b.checkpointNeeded = true ∧ pblk ≠ s.mapping then .saved pblk victim else .active
  | none => .active

end State

def stepUpdate (s : State β) : Event β → Option (State β)
  | .begin delta =>
    match s.buffer, s.update, s.writing with
    | some b, .none, .none =>
      some { s with update := .begun delta, buffer := some { b with dirty := true } }
    | _, _, _ => none
  | .assemble =>
    match s.buffer, s.update with
    | some b, .begun delta =>
      if b.page.lsn ≤ s.redo then some { s with update := .remapping delta s.mapping } else none
    | _, _ => none
  | .log =>
    match s.buffer, s.update with
    | some b, .begun delta =>
      -- `XLogInsertRecord` compares with the redo pointer again
      if s.redo < b.page.lsn then some (s.logPlain b delta) else none
    | some b, .remapping delta old =>
      if s.compactor = .idle then
        if h : old ≠ s.nextFree then
          some (s.logRemap b delta ⟨old, s.nextFree, some (s.nextFree + 1), h⟩)
        else none
      else none
    | _, _ => none
  | _ => none

def stepBuffer (s : State β) : Event β → Option (State β)
  | .writeStart victim =>
    match s.buffer, s.update, s.writing with
    | some b, .none, .none =>
      if b.dirty then
        some { s with
          writing := s.firstWrite b victim
          durable := max s.durable b.page.lsn }
      else none
    | _, _, _ => none
  | .writeFly =>
    match s.writing with
    | .saved pblk victim => some { s with writing := .savedFlying pblk victim }
    | .active =>
      -- `um_claim_write_barrier`
      if s.compactor = .idle then some { s with writing := .activeFlying s.mapping } else none
    | _ => none
  | .writeLand =>
    match s.buffer, s.writing with
    | some b, .savedFlying pblk victim =>
      if victim then some { s.setDisk pblk (some (.page b.page)) with writing := .active }
      else some ((s.setDisk pblk (some (.page b.page))).writtenSaved b)
    | some b, .activeFlying pblk => some ((s.setDisk pblk (some (.page b.page))).written b)
    | _, _ => none
  | .evict =>
    match s.buffer, s.update, s.writing with
    | some b, .none, .none => if b.dirty then none else some { s with buffer := none }
    | _, _, _ => none
  | .load =>
    match s.buffer, s.disk s.mapping with
    | none, some (.page p) =>
      some { s with buffer := some ⟨p, false, false, none⟩ }
    | _, _ => none
  | _ => none

def stepCheckpoint (s : State β) : Event β → Option (State β)
  | .publish =>
    if s.phase = .idle then some { s with phase := .published, redo := s.wal.length } else none
  | .flushMap => if s.phase = .published then
      some { s.writeMap with phase := .mapFlushed } else none
  | .mark =>
    if s.phase = .mapFlushed then
      some { s with
        phase := .syncing
        buffer := s.buffer.map fun b =>
          { b with checkpointNeeded := b.dirty || b.checkpointNeeded } }
    else none
  | .complete =>
    if s.phase = .syncing ∧ s.buffer.all (!·.checkpointNeeded) = true then
      -- the checkpoint record is flushed
      some { s with phase := .idle, completed := s.redo, durable := s.wal.length }
    else none
  | _ => none

def stepCompactor (s : State β) : Event β → Option (State β)
  | .claim old =>
    if s.compactor = .idle ∧ s.Unbarred then
      some { s with compactor := .claimed old s.nextFree, nextFree := s.nextFree + 1 }
    else none
  | .copy =>
    match s.compactor with
    | .claimed old new =>
      -- `umfile_ctx_block_exists`
      if (s.disk old).isSome then
        some { s.setDisk new (s.disk old) with compactor := .copied old new }
      else none
    | _ => none
  | .relocate =>
    match s.compactor with
    | .copied old new => if s.mapping = old then some (s.relocate old new) else none
    | _ => none
  | .giveUp => some { s with compactor := .idle }
  | _ => none

def step (compacting : Bool) (s : State β) : Event β → Option (State β)
  | .other => some { s with wal := s.wal ++ [.other] }
  | .flushWal upto =>
    if s.durable ≤ upto ∧ upto ≤ s.wal.length then some { s with durable := upto } else none
  | .writeMap => some s.writeMap
  | .begin delta => stepUpdate s (.begin delta)
  | .assemble => stepUpdate s .assemble
  | .log => stepUpdate s .log
  | .writeStart victim => stepBuffer s (.writeStart victim)
  | .writeFly => stepBuffer s .writeFly
  | .writeLand => stepBuffer s .writeLand
  | .evict => stepBuffer s .evict
  | .load => stepBuffer s .load
  | .publish => stepCheckpoint s .publish
  | .flushMap => stepCheckpoint s .flushMap
  | .mark => stepCheckpoint s .mark
  | .complete => stepCheckpoint s .complete
  | .claim old => if compacting then stepCompactor s (.claim old) else none
  | .copy => stepCompactor s .copy
  | .relocate => stepCompactor s .relocate
  | .giveUp => stepCompactor s .giveUp

def machine (compacting : Bool) : System (State β) (Event β) where
  step := step compacting

def init (body : β) (pblk spare : Nat) (other : Nat → Option (Content β)) : State β where
  wal := []
  durable := 0
  redo := 0
  completed := 0
  phase := .idle
  update := .none
  writing := .none
  compactor := .idle
  buffer := none
  disk := Function.update other pblk (some (.page ⟨0, body⟩))
  mapping := pblk
  mapLsn := 0
  mapDisk := pblk
  nextFree := pblk + 1 + spare

end Umbra.Block
