import Umbra.Foundation.Raising

/-!
# Writing in runs

`umwritev` gathers blocks whose physical blocks follow each other into runs, each written by one
vectored write. Before a block is looked up its write barrier is claimed. Physical writes may fail
after any number of their blocks.
-/

namespace Umbra.RunBatching

open Foundation Foundation.Raising Function

def pgIovMax : ℕ := 128

/-- `RELSEG_SIZE`, the blocks of a segment file. -/
def relsegSize : ℕ := 131072

structure PhysicalCall where
  start : ℕ
  count : ℕ
  deriving DecidableEq

/-- The call stays within a segment file and within the vector that is passed to the kernel. -/
def PhysicalCall.Legal (c : PhysicalCall) : Prop :=
  c.count ≤ pgIovMax ∧ c.start % relsegSize + c.count ≤ relsegSize

inductive Point
  | claim
  | lookup
  | unmapped
  | crossesSegment
  | physicalWrite
  | superblock
  deriving DecidableEq

variable {β : Type}

/-- The disk, the shared barriers by their blocks, and the local variables of `umwritev`. -/
structure Frame (β : Type) where
  disk : ℕ → β
  claims : ℕ → ℕ
  releases : ℕ → ℕ
  calls : List PhysicalCall
  /-- `pending_barrier`: the block whose barrier it is, if it is valid. -/
  pendingBarrier : Option ℕ
  runStartPblk : ℕ
  runStartIdx : ℕ
  runBarriers : List (Option ℕ)
  materializedNblocks : ℕ
  maxExtendedPblk : Option ℕ
  physicalNblocks : ℕ

namespace Frame

def init (disk : ℕ → β) (physicalNblocks : ℕ) : Frame β where
  disk
  claims _ := 0
  releases _ := 0
  calls := []
  pendingBarrier := none
  runStartPblk := 0
  runStartIdx := 0
  runBarriers := []
  materializedNblocks := physicalNblocks
  maxExtendedPblk := none
  physicalNblocks

variable (s : Frame β)

def runBlocks : ℕ := s.runBarriers.length

/-- `MapInflightReleaseBarrier`: nothing happens to a barrier that is not valid. -/
def releaseBarrier : Option ℕ → Frame β
  | some lblk => { s with releases := update s.releases lblk (s.releases lblk + 1) }
  | none => s

/-- `um_release_write_barriers`. -/
def releaseBarriers (barriers : List (Option ℕ)) : Frame β :=
  barriers.foldl releaseBarrier s

def handler : Frame β :=
  (s.releaseBarrier s.pendingBarrier).releaseBarriers s.runBarriers

end Frame

def writeRun (disk : ℕ → β) (pblk : ℕ) : List β → ℕ → β
  | [] => disk
  | b :: bs => writeRun (update disk pblk b) (pblk + 1) bs

/-- `FileWriteV`: it may fail when some of the blocks have been written. -/
def fileWritev (pblk : ℕ) (buffers : List β) : Raising (Frame β) Point Unit := fun s =>
  let s := { s with calls := ⟨pblk, buffers.length⟩ :: s.calls }
  .done () { s with disk := writeRun s.disk pblk buffers } ::
    (List.range buffers.length).map fun k =>
      .raised .physicalWrite { s with disk := writeRun s.disk pblk (buffers.take k) }

def umfileWritev (pblk : ℕ) (buffers : List β) : Raising (Frame β) Point Unit := do
  let nblocksThisSegment := min (min buffers.length (relsegSize - pblk % relsegSize)) pgIovMax
  if nblocksThisSegment ≠ buffers.length then raise .crossesSegment
  else do
    mayRaise .physicalWrite
    fileWritev pblk buffers

def umfileExtend (pblk : ℕ) (buffer : β) : Raising (Frame β) Point Unit := do
  mayRaise .physicalWrite
  fileWritev pblk [buffer]

/-- `um_claim_write_barrier`: it waits for a foreign remap, and gives up after some time. -/
def claimWriteBarrier (lblk : ℕ) : Raising (Frame β) Point Unit := do
  mayRaise .claim
  modify fun s =>
    { s with claims := update s.claims lblk (s.claims lblk + 1), pendingBarrier := some lblk }

def resolveForWrite (map : ℕ → Option ℕ) (lblk : ℕ) : Raising (Frame β) Point ℕ := do
  mayRaise .lookup
  match map lblk with
  | some pblk => pure pblk
  | none => raise .unmapped

def flushWriteBarrierRun (buffers : List β) : Raising (Frame β) Point Unit := do
  let s ← read id
  if s.runBlocks = 0 then pure ()
  else do
    umfileWritev s.runStartPblk ((buffers.drop s.runStartIdx).take s.runBlocks)
    modify fun s => { s.releaseBarriers s.runBarriers with runBarriers := [] }

def Frame.CanExtendRun (s : Frame β) (pblk : ℕ) : Prop :=
  0 < s.runBlocks ∧ pblk = s.runStartPblk + s.runBlocks ∧ s.runBlocks < pgIovMax
    ∧ s.runStartPblk % relsegSize + s.runBlocks < relsegSize

instance (s : Frame β) (pblk : ℕ) : Decidable (s.CanExtendRun pblk) :=
  inferInstanceAs (Decidable (_ ∧ _))

def Frame.startRun (pblk i : ℕ) (s : Frame β) : Frame β :=
  { s with runStartPblk := pblk, runStartIdx := i }

def Frame.addToRun (s : Frame β) : Frame β :=
  { s with runBarriers := s.runBarriers ++ [s.pendingBarrier], pendingBarrier := none }

def joinRun (buffers : List β) (pblk i : ℕ) : Raising (Frame β) Point Unit := do
  let s ← read id
  if s.runBlocks = 0 then modify (Frame.startRun pblk i)
  else if ¬ s.CanExtendRun pblk then do
    flushWriteBarrierRun buffers
    modify (Frame.startRun pblk i)
  else pure ()
  modify Frame.addToRun

def extendBlock (buffers : List β) (pblk : ℕ) (buffer : β) : Raising (Frame β) Point Unit := do
  flushWriteBarrierRun buffers
  umfileExtend pblk buffer
  modify fun s => { s.releaseBarrier s.pendingBarrier with pendingBarrier := none }
  modify fun s =>
    { s with
      maxExtendedPblk := some (max (s.maxExtendedPblk.getD pblk) pblk)
      materializedNblocks := max s.materializedNblocks (pblk + 1) }

def writeBlock (map : ℕ → Option ℕ) (blocknum : ℕ) (buffers : List β) (buffer : β) (i : ℕ) :
    Raising (Frame β) Point Unit := do
  modify fun s => { s with pendingBarrier := none }
  claimWriteBarrier (blocknum + i)
  let pblk ← resolveForWrite map (blocknum + i)
  let s ← read id
  if pblk < s.materializedNblocks then joinRun buffers pblk i
  else extendBlock buffers pblk buffer

def umwritev (map : ℕ → Option ℕ) (blocknum : ℕ) (buffers : List β) :
    Raising (Frame β) Point Unit := do
  onError (do
      forEach buffers.zipIdx fun b => writeBlock map blocknum buffers b.1 b.2
      flushWriteBarrierRun buffers)
    Frame.handler
  -- the counters, outside of the handler
  mayRaise .superblock
  modify fun s =>
    match s.maxExtendedPblk with
    | some pblk => { s with physicalNblocks := max s.physicalNblocks (pblk + 1) }
    | none => s
  mayRaise .superblock

def writeBlockwise (map : ℕ → Option ℕ) (blocknum : ℕ) (disk : ℕ → β) : List β → ℕ → β
  | [] => disk
  | b :: bs =>
    match map blocknum with
    | some pblk => writeBlockwise map (blocknum + 1) (update disk pblk b) bs
    | none => writeBlockwise map (blocknum + 1) disk bs

end Umbra.RunBatching
