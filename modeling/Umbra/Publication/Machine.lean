import Umbra.Foundation.System
import Umbra.Publication.Program
import Mathlib.Data.List.FinRange

/-!
# The publication machine

Any number of backends reserve physical blocks and run publication programs on one relation, while
MAP pages and the superblock are flushed, checkpoints are taken, and the server crashes and
recovers. Every lock-protected action of the source is one step.
-/

namespace Umbra

open Foundation Function

/-- An in-flight claim: its owner, the reserved physical block, and the mapping that
`MapGetNewPbkno` had looked up before. -/
structure Claim (n : Nat) where
  owner : Fin n
  pblk : Nat
  old : Option Nat
  deriving DecidableEq, Repr

/-- `mapLsn` is the end of the record the current operation inserted last and `firstLsn` of the
first one (0 before that), `maxPblk` the largest block `umzeroextend` has seen, `lookedUp` the
result of the last MAP lookup. -/
structure Backend where
  delayChkptStart : Bool
  firstLsn : Nat
  mapLsn : Nat
  maxPblk : Option Nat
  lookedUp : Option (BlockKey × Option Nat)
  prog : List Instr
  deriving DecidableEq, Repr

def Backend.idle : Backend := ⟨false, 0, 0, none, none, []⟩

/-- The steps of `CreateCheckPoint`. `waiting` holds the backends seen with `DELAY_CHKPT_START`;
`flushing` the MAP pages that were dirty when `MapCheckpoint` began and have not been written. -/
inductive CkptPhase (n : Nat)
  | idle
  | published (redo : Nat)
  | waiting (redo : Nat) (delaying : List (Fin n))
  | flushing (redo : Nat) (pages : List MapPageId)
  | flushed (redo : Nat)
  deriving DecidableEq, Repr

/-- The state of the machine. `handedOut` records every reservation of the allocator that has not
been lost in a crash. -/
structure State (n : Nat) where
  wal : List Record
  writePtr : Nat
  flushPtr : Nat
  mapMeta : MapMeta
  claims : BlockKey → Option (Claim n)
  backends : Fin n → Backend
  diskMap : BlockKey → Option Nat
  diskSuper : MapSuperblock
  ckpt : CkptPhase n
  redoPtr : Nat
  recovery : Option Nat
  handedOut : List (BlockKey × Nat)

inductive Event (n : Nat)
  | lookup (b : Fin n) (k : BlockKey)
  | reserve (b : Fin n) (k : BlockKey)
  | abort (b : Fin n) (k : BlockKey)
  | startBlockRemaps (b : Fin n) (blocks : List (BlockKey × BlockRemapKind))
  | startRange (b : Fin n) (fork : ForkNumber) (first count : Nat)
  | startExtend (b : Fin n) (k : BlockKey)
  | startZeroExtend (b : Fin n) (fork : ForkNumber) (first count : Nat)
  | startRelocate (b : Fin n) (k : BlockKey)
  | startTruncate (b : Fin n) (fork : ForkNumber) (nblocks : Nat)
  | run (b : Fin n)
  | insertOther
  | preallocate (fork : ForkNumber) (nblocks : Nat)
  | walWrite (lsn : Nat)
  | walFlush (lsn : Nat)
  | flushPage (page : MapPageId)
  | flushSuper
  | ckptRedo
  | ckptCollect
  | ckptWait
  | ckptSuper
  | ckptDone
  | crash
  | redo (materialized : Bool)
  | localBirth (k : BlockKey)
  | endRecovery
  deriving DecidableEq, Repr

namespace State

variable {n : Nat}

def init (n : Nat) : State n where
  wal := []
  writePtr := 0
  flushPtr := 0
  mapMeta := ⟨fun _ => none, fun _ => 0, [], .load .init⟩
  claims := fun _ => none
  backends := fun _ => .idle
  diskMap := fun _ => none
  diskSuper := .init
  ckpt := .idle
  redoPtr := 0
  recovery := none
  handedOut := []

/-- A server at rest over the metadata `m`, which is on disk as it is in memory. -/
def startFrom (n : Nat) (m : MapMeta) : State n :=
  { init n with mapMeta := m, diskMap := m.map, diskSuper := m.entry.super }

def setBackend (s : State n) (b : Fin n) (be : Backend) : State n :=
  { s with backends := update s.backends b be }

def setProg (s : State n) (b : Fin n) (prog : List Instr) : State n :=
  s.setBackend b { s.backends b with prog := prog }

def start (s : State n) (b : Fin n) (prog : List Instr) : State n :=
  s.setBackend b { s.backends b with firstLsn := 0, maxPblk := none, prog := prog }

def setMeta (s : State n) (m : MapMeta) : State n := { s with mapMeta := m }

/-- `XLogFlush`: everything up to `lsn` is durable. -/
def xlogFlush (s : State n) (lsn : Nat) : State n :=
  { s with writePtr := max s.writePtr lsn, flushPtr := max s.flushPtr lsn }

def stampLsn (s : State n) (b : Fin n) : Stamp → Nat
  | .record => (s.backends b).mapLsn
  | .invalid => s.writePtr

/-- `MapTryReserveFreshPblknoInternal`: claim an unclaimed block and hand out the physical block at
the reservation frontier. -/
def reserveFresh (s : State n) (b : Fin n) (k : BlockKey) : Option (State n) :=
  if s.claims k = none then
    (s.mapMeta.entry.reserveFresh k.1).map fun (pblk, entry) =>
      { s with
        mapMeta := { s.mapMeta with entry := entry }
        claims := update s.claims k (some ⟨b, pblk,
          ((s.backends b).lookedUp.bind fun (k', old) => if k' = k then old else none)⟩)
        handedOut := (k, pblk) :: s.handedOut }
  else none

def ownedPblk (s : State n) (b : Fin n) (k : BlockKey) : Option Nat :=
  (s.claims k).bind fun c => if c.owner = b then some c.pblk else none

/-- `um_publish_mapped_birth`, or nothing for a block that is mapped already. The reservation of
an earlier claim of the same backend is reused. -/
def execBirth (s : State n) (b : Fin n) (rest : List Instr) (k : BlockKey) (extend : Bool) :
    Option (State n) :=
  match s.mapMeta.map k with
  | some pblk =>
    some (s.setBackend b { s.backends b with
        maxPblk := some (max pblk ((s.backends b).maxPblk.getD 0))
        prog := if extend then .bumpCapacity k.1 (pblk + 1) .invalid :: rest else rest })
  | none =>
    (if (s.ownedPblk b k).isSome then some s else s.reserveFresh b k).bind fun s =>
      (s.ownedPblk b k).map fun pblk =>
        s.setBackend b { s.backends b with
            maxPblk := some (max pblk ((s.backends b).maxPblk.getD 0))
            prog := if extend then umextendBirth k pblk ++ rest
              else umPublishMappedBirth k pblk ++ rest }

def exec (s : State n) (b : Fin n) (rest : List Instr) : Instr → Option (State n)
  | .delayStart =>
    some (s.setBackend b { s.backends b with delayChkptStart := true, prog := rest })
  | .delayEnd =>
    some (s.setBackend b { s.backends b with delayChkptStart := false, prog := rest })
  | .insert r =>
    some ({ s with wal := s.wal ++ [r] }.setBackend b { s.backends b with
        firstLsn := if (s.backends b).firstLsn = 0 then s.wal.length + 1
          else (s.backends b).firstLsn
        mapLsn := s.wal.length + 1
        prog := rest })
  | .setMapping k pblk =>
    some ((s.setMeta (s.mapMeta.setEntry k (some pblk) (s.backends b).mapLsn)).setProg b rest)
  | .bumpLogical fork m st =>
    some ((s.setMeta (s.mapMeta.bumpLogical fork m (s.stampLsn b st))).setProg b rest)
  | .bumpNextFree fork m =>
    some ((s.setMeta (s.mapMeta.bumpNextFree fork m (s.backends b).mapLsn false)).setProg b rest)
  | .bumpCapacity fork m st =>
    some ((s.setMeta (s.mapMeta.bumpCapacity fork m (s.stampLsn b st))).setProg b rest)
  | .bumpCapacityMax fork =>
    some (match (s.backends b).maxPblk with
      | some p => (s.setMeta (s.mapMeta.bumpCapacity fork (p + 1) s.writePtr)).setProg b rest
      | none => s.setProg b rest)
  | .release k =>
    some ({ s with claims := update s.claims k none }.setProg b rest)
  | .birth k extend => s.execBirth b rest k extend
  | .umtruncate fork m =>
    some (s.setProg b
      (umtruncateTail fork (s.mapMeta.entry.super.logical fork) m s.writePtr ++ rest))
  | .clearEntry k lsn => some ((s.setMeta (s.mapMeta.setEntry k none lsn)).setProg b rest)
  | .setLogical fork m lsn => some ((s.setMeta (s.mapMeta.setLogical fork m lsn)).setProg b rest)

def assembleBlock (s : State n) (c : Claim n) (k : BlockKey) (kind : BlockRemapKind) :
    BlockRemap where
  key := k
  old := c.old
  new := c.pblk
  kind := kind
  logicalNblocks := max (s.mapMeta.entry.super.logical k.1) (k.2 + 1)
  nextFree := max (s.mapMeta.entry.super.nextFree k.1) (c.pblk + 1)

/-- `XLogRecordAssembleUmbra` for blocks the backend has claimed; a block without an old mapping
is born with an image or initialised by redo. -/
def assemble (s : State n) (b : Fin n) : List (BlockKey × BlockRemapKind) → Option (List BlockRemap)
  | [] => some []
  | (k, kind) :: rest =>
    (s.claims k).bind fun c =>
      if c.owner = b ∧ (kind = .delta → c.old.isSome) then
        (assemble s b rest).map (s.assembleBlock c k kind :: ·)
      else none

def ownedRange (s : State n) (b : Fin n) (fork : ForkNumber) : Nat → Nat → Option (List Nat)
  | _, 0 => some []
  | first, count + 1 =>
    (s.ownedPblk b (fork, first)).bind fun pblk =>
      (ownedRange s b fork (first + 1) count).map (pblk :: ·)

/-- The durable log, the MAP pages and the superblock on disk are left; recovery starts at the redo
pointer of the last completed checkpoint. -/
def crash (s : State n) : State n :=
  { s with
    wal := s.wal.take s.flushPtr
    writePtr := s.flushPtr
    mapMeta := ⟨s.diskMap, fun _ => 0, [], .load s.diskSuper⟩
    claims := fun _ => none
    backends := fun _ => .idle
    ckpt := .idle
    recovery := some s.redoPtr
    handedOut := s.handedOut.filter fun (k, pblk) =>
      s.diskMap k = some pblk ∨ (s.wal.take s.flushPtr).any fun r => r.newPblk k = some pblk }

/-- A local birth during recovery: `um_publish_mapped_birth` for an auxiliary fork. -/
def localBirth (s : State n) (pos : Nat) (k : BlockKey) : Option (State n) :=
  (s.mapMeta.entry.reserveFresh k.1).map fun (pblk, entry) =>
    { s with
      mapMeta := { s.mapMeta with entry := entry }.publishLocally k pblk pos
      handedOut := (k, pblk) :: s.handedOut }

/-- `MapFlushWritePage`: outside recovery the log is flushed up to the page LSN first. -/
def flushPage (s : State n) (page : MapPageId) : State n :=
  { if s.recovery = none then s.xlogFlush (s.mapMeta.pageLsn page) else s with
    mapMeta := { s.mapMeta with dirtyPages := s.mapMeta.dirtyPages.filter (· ≠ page) }
    diskMap := fun k => if mapPageOf k = page then s.mapMeta.map k else s.diskMap k
    ckpt := match s.ckpt with
      | .flushing redo pages => .flushing redo (pages.filter (· ≠ page))
      | c => c }

/-- `MapFlushWriteSuperblockEntry`. -/
def flushSuper (s : State n) : State n :=
  { if s.recovery = none then s.xlogFlush s.mapMeta.entry.pageLsn else s with
    diskSuper := s.mapMeta.entry.super }

def canStart (s : State n) (b : Fin n) : Bool :=
  s.recovery = none ∧ (s.backends b).prog = []

end State

open State in
def publication (n : Nat) : System (State n) (Event n) where
  step s
  | .lookup b k =>
    if s.canStart b then
      some (s.setBackend b { s.backends b with lookedUp := some (k, s.mapMeta.map k) })
    else none
  | .reserve b k => if s.canStart b then s.reserveFresh b k else none
  | .abort b k =>
    if s.canStart b ∧ (s.ownedPblk b k).isSome then
      some { s with claims := update s.claims k none }
    else none
  | .startBlockRemaps b blocks =>
    if s.canStart b ∧ (blocks.map Prod.fst).Nodup then
      (s.assemble b blocks).map fun blks => s.start b (xlogInsertRemaps blks)
    else none
  | .startRange b fork first count =>
    if s.canStart b ∧ 0 < count then
      (s.ownedRange b fork first count).map fun pblks =>
        s.start b (firstbornRangeRemap fork first pblks)
    else none
  | .startExtend b k =>
    if s.canStart b ∧ k.2 ≤ s.mapMeta.entry.super.logical k.1 then
      some (s.start b (umextend k))
    else none
  | .startZeroExtend b fork first count =>
    if s.canStart b ∧ 0 < count then
      some (s.start b (umzeroextend fork first count))
    else none
  | .startRelocate b k =>
    if s.canStart b then
      (s.ownedPblk b k).bind fun new => (s.mapMeta.map k).map fun old =>
        s.start b (mapCompactorRelocateEntry k old new)
    else none
  | .startTruncate b fork nblocks =>
    if s.canStart b then some (s.start b (relationTruncate fork nblocks)) else none
  | .run b =>
    match (s.backends b).prog with
    | [] => none
    | i :: rest => s.exec b rest i
  | .insertOther => if s.recovery = none then
      some { s with wal := s.wal ++ [Record.other] } else none
  | .preallocate fork nblocks =>
    if s.recovery = none then
      some (s.setMeta (s.mapMeta.bumpCapacity fork nblocks s.writePtr))
    else none
  | .walWrite lsn => some { s with writePtr := max s.writePtr (min lsn s.wal.length) }
  | .walFlush lsn => some (s.xlogFlush (min lsn s.wal.length))
  | .flushPage page => if page ∈ s.mapMeta.dirtyPages then some (s.flushPage page) else none
  | .flushSuper => some s.flushSuper
  | .ckptRedo =>
    -- the redo pointer is the start of the checkpoint's own record
    if s.ckpt = .idle ∧ s.recovery = none then
      some { s with ckpt := .published s.wal.length, wal := s.wal ++ [Record.other] }
    else none
  | .ckptCollect =>
    match s.ckpt with
    | .published redo =>
      some { s with
        ckpt := .waiting redo ((List.finRange n).filter fun b => (s.backends b).delayChkptStart) }
    | _ => none
  | .ckptWait =>
    match s.ckpt with
    | .waiting redo delaying =>
      if delaying.all fun b => !(s.backends b).delayChkptStart then
        some { s with ckpt := .flushing redo s.mapMeta.dirtyPages }
      else none
    | _ => none
  | .ckptSuper =>
    match s.ckpt with
    | .flushing redo [] => some { s.flushSuper with ckpt := .flushed redo }
    | _ => none
  | .ckptDone =>
    match s.ckpt with
    | .flushed redo =>
      some ({ s with ckpt := .idle, redoPtr := redo, wal := s.wal ++ [Record.other] }.xlogFlush
        (s.wal.length + 1))
    | _ => none
  | .crash => some s.crash
  | .redo materialized =>
    s.recovery.bind fun pos =>
      (s.wal[pos]?).bind fun r =>
        (redoRecord s.mapMeta (pos + 1) materialized r).map fun m =>
          { s with mapMeta := m, recovery := some (pos + 1) }
  | .localBirth k =>
    s.recovery.bind fun pos =>
      if k.1 ≠ .main ∧ s.mapMeta.map k = none then s.localBirth pos k else none
  | .endRecovery =>
    if s.recovery = some s.wal.length then some { s with recovery := none } else none

end Umbra
