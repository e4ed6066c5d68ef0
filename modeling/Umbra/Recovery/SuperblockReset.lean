import Umbra.Map.SuperblockCrc
import Umbra.Publication.Record

/-!
# A corrupt superblock in recovery

Replay of the log for one relation whose superblock sector fails its checks. A read of the
superblock reports that, and so does an update without an LSN; an update with the LSN of a record
starts the superblock over. Two fields of the state only serve the statements: the blocks truncated
away since they were mapped, and whether the damaged superblock had the skip-WAL-pending flag.
-/

namespace Umbra.SuperblockReset

open Foundation SuperblockCrc

/-! ### Records -/

/-- A block reference with a remap header. `lastLblk` and `lastPblk` are the counts of the header
less one; `XLogFillBlockRemapFrontierUmbra` has made them cover the block. -/
structure RemapRef where
  key : BlockKey
  old : Option Nat
  new : Nat
  kind : BlockRemapKind
  lastLblk : Nat
  lastPblk : Nat
  key_le : key.2 ≤ lastLblk
  new_le : new ≤ lastPblk
  /-- What `PageIsNew` says of the old page, if it gets to be read. -/
  isNew : Bool

/-- What redo does for a relation. A record with several block references, and a truncation of
several forks, are several of these. -/
inductive WalRecord
  /-- `materialized`: the old block lies within the data file. -/
  | mapSet (key : BlockKey) (old : Option Nat) (new : Nat) (materialized : Bool)
  | rangeRemap (fork : ForkNumber) (first : Nat) (pblks : List Nat)
  | remap (ref : RemapRef)
  | read (key : BlockKey) (zeroed isNew : Bool)
  | truncate (fork : ForkNumber) (nblocks : Nat)
  | create (fork : ForkNumber)
  | denseMap (last : ForkNumber → Option Nat)

def WalRecord.cuts : WalRecord → BlockKey → Bool
  | .truncate fork nblocks, k => k.1 = fork ∧ nblocks ≤ k.2
  | .create .main, _ => false
  | .create fork, k => k.1 = fork
  | _, _ => false

/-! ### State -/

structure State where
  map : BlockKey → Option Nat
  diskMap : BlockKey → Option Nat
  entry : Option Entry
  disk : Sector
  wal : List WalRecord
  pos : Nat
  invalid : List BlockKey
  reachedConsistency : Bool
  truncated : BlockKey → Bool
  pending : Bool

namespace State

def start (map : BlockKey → Option Nat) (disk : Sector) (pending : Bool) (wal : List WalRecord) :
    State :=
  ⟨map, map, none, disk, wal, 0, [], false, fun _ => false, pending⟩

def setMapping (s : State) (k : BlockKey) (pblk : Nat) : State :=
  { s with
    map := Function.update s.map k (some pblk)
    truncated := Function.update s.truncated k false }

/-- `log_invalid_page`, with `ignore_invalid_pages` off. -/
def logInvalidPage (s : State) (k : BlockKey) : Option State :=
  if s.reachedConsistency then none else some { s with invalid := k :: s.invalid }

variable (crc32c : Contents → UInt32)

def entryOf (s : State) : Entry :=
  s.entry.getD (Entry.fresh.install (s.disk.load crc32c) s.disk)

def hasSuper (s : State) : Bool :=
  !(s.entryOf crc32c).corrupt && (s.entryOf crc32c).super.hasValidIdentity

def super (s : State) : MapSuperblock := (s.entryOf crc32c).super.contents.super

def update (s : State) (lsn : Nat) (u : SuperblockCrc.Update) : Option State :=
  ((s.entryOf crc32c).update crc32c true lsn s.pos u).map fun e => { s with entry := some e }

/-- `smgrnblocks`; `none` is "missing or invalid MAP superblock". -/
def nblocks (s : State) (fork : ForkNumber) : Option Nat :=
  if s.hasSuper crc32c then some ((s.super crc32c).logical fork) else none

/-- `um_publish_mapped_birth`: only the FSM and VM forks get blocks in recovery. -/
def publishMappedBirth (s : State) (fork : ForkNumber) (lblk : Nat) : Option State :=
  if fork = .main then none
  else
    (s.setMapping (fork, lblk) ((s.super crc32c).nextFree fork)).update crc32c s.pos
      (.bumpNextFree fork ((s.super crc32c).nextFree fork))

def zeroextendBlocks (s : State) (fork : ForkNumber) : Nat → Nat → Option State
  | _, 0 => some s
  | lblk, count + 1 =>
    if (s.map (fork, lblk)).isSome then zeroextendBlocks s fork (lblk + 1) count
    else
      (s.publishMappedBirth crc32c fork lblk).bind fun s =>
        zeroextendBlocks s fork (lblk + 1) count

def maxPblkOf (s : State) (fork : ForkNumber) (first count : Nat) : Nat :=
  maxPblk ((List.range' first count).map fun lblk => (s.map (fork, lblk)).getD 0)

/-- `umzeroextend`, which passes no LSN for the last two updates. -/
def zeroextend (s : State) (fork : ForkNumber) (first count : Nat) : Option State :=
  (s.zeroextendBlocks crc32c fork first count).bind fun s =>
    (s.update crc32c invalidXLogRecPtr (.bumpCapacity fork (s.maxPblkOf fork first count))).bind
      fun s => s.update crc32c invalidXLogRecPtr (.bumpLogical fork (first + count - 1))

def readBufferExtended (s : State) (k : BlockKey) (zeroed isNew : Bool) : Option (State × Bool) :=
  (s.nblocks crc32c k.1).bind fun n =>
    if k.2 < n then
      if !zeroed && isNew then (s.logInvalidPage k).map (·, false) else some (s, true)
    else if zeroed then (s.zeroextend crc32c k.1 n (k.2 + 1 - n)).map (·, true)
    else (s.logInvalidPage k).map (·, false)

/-! ### Redo -/

/-- `XLOG_UMBRA_MAP_SET`. -/
def redoMapSet (s : State) (lsn : Nat) (key : BlockKey) (old : Option Nat) (new : Nat)
    (materialized : Bool) : Option State :=
  ((s.setMapping key new).update crc32c lsn (.bumpNextFree key.1 new)).bind fun s =>
    match old with
    | none =>
      (s.update crc32c lsn (.bumpLogical key.1 key.2)).bind fun s =>
        s.update crc32c lsn (.bumpCapacity key.1 new)
    | some _ => if materialized then s.update crc32c lsn (.bumpCapacity key.1 new) else some s

def setRange (s : State) (fork : ForkNumber) : Nat → List Nat → State
  | _, [] => s
  | lblk, pblk :: pblks => setRange (s.setMapping (fork, lblk) pblk) fork (lblk + 1) pblks

/-- `UmApplyReservedRangeRemap`. -/
def redoRangeRemap (s : State) (lsn : Nat) (fork : ForkNumber) (first : Nat) (pblks : List Nat) :
    Option State :=
  if pblks = [] then none
  else
    (s.update crc32c lsn (.ensurePhysical fork (maxPblk pblks + 1))).bind fun s =>
      ((s.setRange fork first pblks).update crc32c lsn (.bumpNextFree fork (maxPblk pblks))).bind
        fun s => (s.update crc32c lsn (.bumpCapacity fork (maxPblk pblks))).bind fun s =>
          s.update crc32c lsn (.bumpLogical fork (first + pblks.length - 1))

def redoRemapInit (s : State) (lsn : Nat) (ref : RemapRef) : Option State :=
  ((s.setMapping ref.key ref.new).update crc32c lsn (.bumpNextFree ref.key.1 ref.lastPblk)).bind
    fun s =>
      (if ref.old.isNone then s.update crc32c lsn (.bumpLogical ref.key.1 ref.lastLblk)
        else some s).bind fun s =>
          (s.readBufferExtended crc32c ref.key true false).map (·.1)

def redoRemapDelta (s : State) (lsn : Nat) (ref : RemapRef) (old : Nat) : Option State :=
  ((s.setMapping ref.key old).readBufferExtended crc32c ref.key false ref.isNew).bind fun r =>
    if r.2 then
      (r.1.setMapping ref.key ref.new).update crc32c lsn (.bumpNextFree ref.key.1 ref.lastPblk)
    else some r.1

def redoRemap (s : State) (lsn : Nat) (ref : RemapRef) : Option State :=
  match ref.kind, ref.old with
  -- "remap-without-image record has invalid old pblk"
  | .delta, none => none
  | .delta, some old => s.redoRemapDelta crc32c lsn ref old
  | _, _ => s.redoRemapInit crc32c lsn ref

def markTruncated (s : State) (fork : ForkNumber) (nblocks : Nat) : State :=
  { s with
    truncated := fun k => s.truncated k || decide (k.1 = fork ∧ nblocks ≤ k.2)
    invalid := s.invalid.filter fun k => ¬ (fork = .main ∧ k.1 = .main ∧ nblocks ≤ k.2) }

/-- `umtruncate`: `MapTruncate` clears up to the length that the superblock has. -/
def truncateTo (s : State) (lsn : Nat) (fork : ForkNumber) (nblocks : Nat) : Option State :=
  ({ s with
      map := fun k =>
        if k.1 = fork ∧ nblocks ≤ k.2 ∧ k.2 < (s.super crc32c).logical fork then none
        else s.map k }).update crc32c lsn (.setLogical fork nblocks)

/-- A fork of `XLOG_SMGR_TRUNCATE`: the length of the main fork is read first, and the others are
left alone unless the superblock has them. -/
def redoTruncate (s : State) (lsn : Nat) (fork : ForkNumber) (nblocks : Nat) : Option State :=
  if fork = .main then
    if s.hasSuper crc32c then
      (s.truncateTo crc32c lsn fork nblocks).map (·.markTruncated fork nblocks)
    else none
  else if s.hasSuper crc32c ∧ ((s.super crc32c).counts fork).logicalNblocks.isSome then
    (s.truncateTo crc32c lsn fork nblocks).map (·.markTruncated fork nblocks)
  else some (s.markTruncated fork nblocks)

def redoCreate (s : State) (lsn : Nat) (fork : ForkNumber) : Option State :=
  if fork = .main then some s
  else (s.update crc32c lsn (.setLogical fork 0)).map (·.markTruncated fork 0)

def invalidate (s : State) : State := { s with map := s.diskMap, entry := none }

def setDense (s : State) (fork : ForkNumber) (last : Nat) : State :=
  { s with
    map := fun k => if k.1 = fork ∧ k.2 ≤ last then some k.2 else s.map k
    truncated := fun k => s.truncated k && !decide (k.1 = fork ∧ k.2 ≤ last) }

def redoDenseFork (s : State) (lsn : Nat) (last : ForkNumber → Option Nat) (fork : ForkNumber) :
    Option State :=
  match last fork with
  | none => some s
  | some n =>
    ((s.setDense fork n).update crc32c lsn (.bumpNextFree fork n)).bind fun s =>
      (s.update crc32c lsn (.bumpCapacity fork n)).bind fun s =>
        s.update crc32c lsn (.setLogical fork (n + 1))

/-- `XLOG_UMBRA_SKIP_WAL_DENSE_MAP`. -/
def redoDenseMap (s : State) (lsn : Nat) (last : ForkNumber → Option Nat) : Option State :=
  (s.invalidate.redoDenseFork crc32c lsn last .main).bind fun s =>
    (s.redoDenseFork crc32c lsn last .fsm).bind fun s => s.redoDenseFork crc32c lsn last .vm

def redo (s : State) (lsn : Nat) : WalRecord → Option State
  | .mapSet key old new materialized => s.redoMapSet crc32c lsn key old new materialized
  | .rangeRemap fork first pblks => s.redoRangeRemap crc32c lsn fork first pblks
  | .remap ref => s.redoRemap crc32c lsn ref
  | .read key zeroed isNew => (s.readBufferExtended crc32c key zeroed isNew).map (·.1)
  | .truncate fork nblocks => s.redoTruncate crc32c lsn fork nblocks
  | .create fork => s.redoCreate crc32c lsn fork
  | .denseMap last => s.redoDenseMap crc32c lsn last

end State

/-! ### Runs -/

inductive Event
  | redo
  | flush
  | writeBack (written : BlockKey → Bool)
  | reachConsistency

def machine (crc32c : Contents → UInt32) : System State Event where
  step s
    | .redo =>
      match s.wal with
      | [] => none
      | r :: rs => { s with wal := rs, pos := s.pos + 1 }.redo crc32c (s.pos + 1) r
    | .flush =>
      s.entry.bind fun e =>
        if e.dirty ∧ e.super.hasValidIdentity then
          some { s with
            entry := some { e with super := e.flushed crc32c, dirty := false }
            disk := e.flushed crc32c }
        else none
    | .writeBack written =>
      some { s with diskMap := fun k => if written k then s.map k else s.diskMap k }
    | .reachConsistency =>
      if s.invalid = [] then some { s with reachedConsistency := true } else none

end Umbra.SuperblockReset
