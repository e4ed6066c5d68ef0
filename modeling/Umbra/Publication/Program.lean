import Umbra.Publication.Record

/-!
# Publication programs

What a backend does after it has reserved its physical blocks is a fixed sequence of shared-memory
actions. `Instr` is one such action, atomic under the lock the source takes for it; other backends
run between any two of them.
-/

namespace Umbra

/-- The LSN argument of a counter update: the record just inserted, or `InvalidXLogRecPtr`, for
which the current write pointer is stored. -/
inductive Stamp
  | record
  | invalid
  deriving DecidableEq, Repr

/-- The actions of a publication path, each under its own lock. -/
inductive Instr
  | delayStart
  | delayEnd
  | insert (r : Record)
  | setMapping (key : BlockKey) (pblk : Nat)
  | bumpLogical (fork : ForkNumber) (n : Nat) (stamp : Stamp)
  | bumpNextFree (fork : ForkNumber) (n : Nat)
  | bumpCapacity (fork : ForkNumber) (n : Nat) (stamp : Stamp)
  | bumpCapacityMax (fork : ForkNumber)
  | release (key : BlockKey)
  | birth (key : BlockKey) (extend : Bool)
  | umtruncate (fork : ForkNumber) (n : Nat)
  | clearEntry (key : BlockKey) (lsn : Nat)
  | setLogical (fork : ForkNumber) (n lsn : Nat)
  deriving DecidableEq, Repr

/-- `um_publish_mapped_birth` once `MapGetNewPbkno` has reserved `pblk` for an unmapped block. In
bootstrap and initialisation, which are left out, the birth is published without a record. -/
def umPublishMappedBirth (key : BlockKey) (pblk : Nat) : List Instr :=
  [.delayStart, .insert (.mapSet key none pblk), .setMapping key pblk,
    .bumpNextFree key.1 (pblk + 1), .delayEnd, .release key]

/-- `umextend` after the reservation of a block that was not mapped: the logical end of the fork
is raised after the birth has been published. -/
def umextendBirth (key : BlockKey) (pblk : Nat) : List Instr :=
  umPublishMappedBirth key pblk ++
    [.bumpLogical key.1 (key.2 + 1) .invalid, .bumpCapacity key.1 (pblk + 1) .invalid]

/-- `umextend`: the mapping is looked up, and the block born if there is none. -/
def umextend (key : BlockKey) : List Instr := [.birth key true]

def umzeroextend (fork : ForkNumber) (first count : Nat) : List Instr :=
  (List.range count).map (fun i => .birth (fork, first + i) false) ++
    [.bumpCapacityMax fork, .bumpLogical fork (first + count) .invalid]

def setMappings (fork : ForkNumber) : Nat → List Nat → List Instr
  | _, [] => []
  | lblk, pblk :: pblks => .setMapping (fork, lblk) pblk :: setMappings fork (lblk + 1) pblks

def releases (fork : ForkNumber) : Nat → List Nat → List Instr
  | _, [] => []
  | lblk, _ :: pblks => .release (fork, lblk) :: releases fork (lblk + 1) pblks

/-- One chunk of `um_try_pure_firstborn_range_remap_zeroextend`, with
`UmApplyReservedRangeRemap` inside the delay section. -/
def firstbornRangeRemap (fork : ForkNumber) (first : Nat) (pblks : List Nat) : List Instr :=
  .delayStart :: .insert (.rangeRemap fork first pblks) ::
    .bumpCapacity fork (maxPblk pblks + 1) .invalid ::
    (setMappings fork first pblks ++
      .bumpNextFree fork (maxPblk pblks + 1) :: .bumpCapacity fork (maxPblk pblks + 1) .record ::
      (releases fork first pblks ++ [.bumpLogical fork (first + pblks.length) .record, .delayEnd]))

def commitBlockRemap (blk : BlockRemap) : List Instr :=
  .setMapping blk.key blk.new ::
    (if blk.old = none then [.bumpLogical blk.key.1 blk.logicalNblocks .record] else []) ++
    [.bumpNextFree blk.key.1 blk.nextFree, .release blk.key]

def xlogInsertRemaps (blks : List BlockRemap) : List Instr :=
  .delayStart :: .insert (.blockRemaps blks) :: (blks.flatMap commitBlockRemap ++ [.delayEnd])

/-- `MapCompactorRelocateEntry` once the copy has been written. The two counter bumps are one
critical section of the source. -/
def mapCompactorRelocateEntry (key : BlockKey) (old new : Nat) : List Instr :=
  [.delayStart, .insert (.mapSet key (some old) new), .setMapping key new,
    .bumpNextFree key.1 (new + 1), .bumpCapacity key.1 (new + 1) .record, .delayEnd, .release key]

/-- `umtruncate` once it has read `map_lsn` and `MapTruncate` the end of the fork. -/
def umtruncateTail (fork : ForkNumber) (oldNblocks nblocks mapLsn : Nat) : List Instr :=
  (List.range' nblocks (oldNblocks - nblocks)).map (fun lblk => .clearEntry (fork, lblk) mapLsn) ++
    [.setLogical fork nblocks mapLsn]

def relationTruncate (fork : ForkNumber) (nblocks : Nat) : List Instr :=
  [.delayStart, .insert (.smgrTruncate fork nblocks), .umtruncate fork nblocks, .delayEnd]

end Umbra
