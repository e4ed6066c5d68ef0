import Umbra.Reclaim.Compactor

/-!
# The reclaim machine

The publication machine with the compactor, which walks the MAP of one fork page by page, and the
checkpointer's queue of segments to unlink. Each lock-protected read or write of the source is one
step, so everything else runs between any two of them.
-/

namespace Umbra

namespace Reclaim

open Foundation

variable {n : Nat}

inductive Resume
  | segment (segno : Nat)
  | entry (lblkno : Nat)
  deriving DecidableEq, Repr

/-- The first five phases are the reads at the head of `MapCompactorAnalyzeFork`; `sizing`,
`counting`, `checking` and `enqueuing` are `MapSegmentHasLiveReferences` and
`MapReclaimEnqueueSegment`; `relocating` and `publishing` are `MapCompactorRelocateEntry` before and
after its check of the old mapping. -/
inductive Phase
  | idle
  | readNextFree (movesDone nLblknos : Nat)
  | readBoundary (movesDone nLblknos nextFreePblk : Nat)
  | readMapPages (movesDone nLblknos nextFreePblk reclaimBoundaryPblk : Nat)
  | scanning (pass : Pass) (pageIdx : Nat)
  | segments (pass : Pass) (segno : Nat)
  | moving (pass : Pass) (lblkno : Nat)
  | relocating (pass : Pass) (lblkno pblkno : Nat)
  | publishing (pass : Pass) (lblkno pblkno : Nat)
  | sizing (pass : Pass) (resume : Resume) (segno : Nat)
  | counting (pass : Pass) (resume : Resume) (segno nLblknos : Nat)
  | checking (pass : Pass) (resume : Resume) (segno nLblknos nMapPages pageIdx : Nat)
  | enqueuing (pass : Pass) (resume : Resume) (segno : Nat)
  | advancing (pass : Pass)
  deriving DecidableEq, Repr

/-- `SyncPreCheckpoint` comes before the redo pointer is taken, `SyncPostCheckpoint` after the
checkpoint has completed. -/
inductive SyncPhase
  | idle
  | started
  | post
  deriving DecidableEq, Repr

/-- `mapNblocks` is the size of the MAP fork, `requests` the queue of forwarded requests,
`pendingUnlinks` the list of the checkpointer with the cycle counter of each entry. `enqueued` and
`unlinked` only record. -/
structure State (n : Nat) where
  pub : Umbra.State n
  mapNblocks : Nat
  phase : Phase
  requests : List Nat
  pendingUnlinks : List (Nat × UInt16)
  checkpointCycleCtr : UInt16
  sync : SyncPhase
  enqueued : List Nat
  unlinked : List Nat

/-- The steps of the machine; `locked` is the outcome of a conditional lock, `found` whether the
file of a segment is there. `abandon`: the checkpoint is skipped because the system is idle, or an
error ends it. -/
inductive Event (n : Nat)
  | pub (e : Umbra.Event n)
  | begin (movesDone : Nat)
  | read
  | scanPage (locked : Bool)
  | segment (found : Bool)
  | visit (locked : Bool)
  | giveUp
  | moved
  | checkPage
  | enqueue
  | advance
  | absorb
  | syncPre
  | syncPost
  | abandon
  deriving DecidableEq, Repr

namespace State

def start (n : Nat) (base : MapMeta) (mapNblocks : Nat) : State n where
  pub := Umbra.State.startFrom n base
  mapNblocks := mapNblocks
  phase := .idle
  requests := []
  pendingUnlinks := []
  checkpointCycleCtr := 0
  sync := .idle
  enqueued := []
  unlinked := []

def relocates (cfg : Config n) (s : State n) (k : BlockKey) : Bool :=
  match s.phase with
  | .relocating _ lblkno _ => k = (cfg.fork, lblkno)
  | _ => false

/-- The server runs and nothing is truncated, the redo pointer is taken after `SyncPreCheckpoint`,
and the backend of the compactor does only what `MapCompactorRelocateEntry` does. -/
def admits (cfg : Config n) (s : State n) : Umbra.Event n → Bool
  | .crash | .redo _ | .localBirth _ | .endRecovery | .startTruncate _ _ _ => false
  | .ckptRedo => s.sync = .started
  | .reserve b k | .abort b k => b ≠ cfg.compactor ∨ s.relocates cfg k
  | .startRelocate b k =>
    match s.phase with
    | .relocating _ lblkno pblkno =>
      b = cfg.compactor ∧ k = (cfg.fork, lblkno) ∧ s.pub.mapMeta.map k = some pblkno
    | _ => false
  | .lookup b _ | .startBlockRemaps b _ | .startRange b _ _ _ | .startExtend b _
  | .startZeroExtend b _ _ _ => b ≠ cfg.compactor
  | _ => true

/-- `MapEnsureBufferMaterialized`: the MAP fork grows when an entry of a new page is written. -/
def mapNblocksAfter (s : State n) : Umbra.Event n → Nat
  | .run b =>
    match (s.pub.backends b).prog with
    | .setMapping k _ :: _ =>
      max s.mapNblocks (mapForkPagePosition k.1 (k.2 / mapEntriesPerPage) + 1)
    | _ => s.mapNblocks
  | _ => s.mapNblocks

def phaseAfter (s : State n) : Umbra.Event n → Phase
  | .startRelocate _ _ =>
    match s.phase with
    | .relocating pass lblkno pblkno => .publishing pass lblkno pblkno
    | phase => phase
  | _ => s.phase

def syncAfter (s : State n) : Umbra.Event n → SyncPhase
  | .ckptDone => .post
  | _ => s.sync

def absorb (s : State n) : State n :=
  { s with
    requests := []
    pendingUnlinks := s.pendingUnlinks ++ s.requests.map fun segno =>
      (segno, s.checkpointCycleCtr) }

def resume (pass : Pass) : Resume → Phase
  | .segment segno => .segments pass (segno + 1)
  | .entry lblkno => .moving pass lblkno

end State

def reclaim (cfg : Config n) : System (State n) (Event n) where
  step s
  | .pub e =>
    if s.admits cfg e then
      ((publication n).step s.pub e).map fun pub =>
        { s with
          pub := pub
          mapNblocks := s.mapNblocksAfter e
          phase := s.phaseAfter e
          sync := s.syncAfter e }
    else none
  | .begin movesDone =>
    if s.phase = .idle ∧ cfg.extentBlocks ≠ 0 ∧ s.pub.mapMeta.entry.super.logical cfg.fork ≠ 0 then
      some { s with phase := .readNextFree movesDone (s.pub.mapMeta.entry.super.logical cfg.fork) }
    else none
  | .read =>
    match s.phase with
    | .readNextFree movesDone nLblknos =>
      if s.pub.mapMeta.entry.super.nextFree cfg.fork = 0 then some { s with phase := .idle }
      else some { s with
        phase := .readBoundary movesDone nLblknos (s.pub.mapMeta.entry.super.nextFree cfg.fork) }
    | .readBoundary movesDone nLblknos nextFreePblk =>
      some { s with
        phase := .readMapPages movesDone nLblknos nextFreePblk
          (min (s.pub.mapMeta.entry.reclaimBoundary cfg.fork) nextFreePblk) }
    | .readMapPages movesDone nLblknos nextFreePblk boundary =>
      if s.mapNblocks = 0 then some { s with phase := .idle }
      else some { s with
        phase := .scanning ⟨movesDone, nLblknos, nextFreePblk, boundary, s.mapNblocks, [], []⟩ 0 }
    | .sizing pass resume segno =>
      -- without a block there is no reference
      if s.pub.mapMeta.entry.super.logical cfg.fork = 0 then
        some { s with phase := .enqueuing pass resume segno }
      else some { s with
        phase := .counting pass resume segno (s.pub.mapMeta.entry.super.logical cfg.fork) }
    | .counting pass resume segno nLblknos =>
      if s.mapNblocks = 0 then some { s with phase := .enqueuing pass resume segno }
      else some { s with phase := .checking pass resume segno nLblknos s.mapNblocks 0 }
    | _ => none
  | .scanPage locked =>
    match s.phase with
    | .scanning pass pageIdx =>
      if Pass.walked cfg.fork pass.nLblknos pass.nMapPages pageIdx then
        some { s with phase := .segments pass 0 }
      else if locked then
        some { s with
          phase := .scanning { pass with
              seen := pass.seen ++ readPage s.pub.mapMeta cfg.fork pass.nLblknos pageIdx }
            (pageIdx + 1) }
      else some { s with phase := .scanning pass (pageIdx + 1) }
    | _ => none
  | .segment found =>
    match s.phase with
    | .segments pass segno =>
      if pass.reclaimSegLimit cfg ≤ segno then
        if pass.hasSparse cfg ∧ 0 < cfg.maxMoves then some { s with phase := .moving pass 0 }
        else some { s with phase := .advancing pass }
      else if pass.segmentLive cfg segno then some { s with phase := .segments pass (segno + 1) }
      else if found ∧ segno ∉ s.unlinked then
        some { s with phase := .sizing pass (.segment segno) segno }
      else some { s with phase := .segments pass (segno + 1) }
    | _ => none
  | .visit locked =>
    match s.phase with
    | .moving pass lblkno =>
      if pass.moveEnds cfg lblkno then some { s with phase := .advancing pass }
      else
        match s.pub.mapMeta.map (cfg.fork, lblkno) with
        | some pblkno =>
          if locked ∧ pass.candidate cfg pblkno then
            some { s with phase := .relocating pass lblkno pblkno }
          else some { s with phase := .moving pass (lblkno + 1) }
        | none => some { s with phase := .moving pass (lblkno + 1) }
    | _ => none
  | .giveUp =>
    match s.phase with
    | .relocating pass lblkno _ =>
      if s.pub.ownedPblk cfg.compactor (cfg.fork, lblkno) = none then
        some { s with phase := .moving pass (lblkno + 1) }
      else none
    | _ => none
  | .moved =>
    match s.phase with
    | .publishing pass lblkno pblkno =>
      if (s.pub.backends cfg.compactor).prog = [] then
        -- the last block of the extent is gone
        if pass.liveBlocks cfg (pblkno / cfg.extentBlocks) = 1 then
          some { s with
            phase := .sizing
              { pass with movedExtents := pblkno / cfg.extentBlocks :: pass.movedExtents }
              (.entry (lblkno + 1))
              (pblkno / cfg.extentBlocks * cfg.extentBlocks / cfg.relsegSize) }
        else some { s with
          phase := .moving
            { pass with movedExtents := pblkno / cfg.extentBlocks :: pass.movedExtents }
            (lblkno + 1) }
      else none
    | _ => none
  | .checkPage =>
    match s.phase with
    | .checking pass resume segno nLblknos nMapPages pageIdx =>
      if Pass.walked cfg.fork nLblknos nMapPages pageIdx then
        some { s with phase := .enqueuing pass resume segno }
      else if (readPage s.pub.mapMeta cfg.fork nLblknos pageIdx).any
          fun pblkno => pblkno / cfg.relsegSize = segno then
        some { s with phase := State.resume pass resume }
      else some { s with phase := .checking pass resume segno nLblknos nMapPages (pageIdx + 1) }
    | _ => none
  | .enqueue =>
    match s.phase with
    | .enqueuing pass resume segno =>
      if mapSegmentFullyBelowReclaimBoundary cfg (s.pub.mapMeta.entry.reclaimBoundary cfg.fork)
          segno then
        some { s with
          phase := State.resume pass resume
          requests := s.requests ++ [segno]
          enqueued := segno :: s.enqueued }
      else some { s with phase := State.resume pass resume }
    | _ => none
  | .advance =>
    match s.phase with
    | .advancing pass =>
      some { s with
        phase := .idle
        pub := s.pub.setMeta { s.pub.mapMeta with
          entry := s.pub.mapMeta.entry.advanceReclaimBoundary cfg.fork
            (mapCompactorAdvanceBoundaryFromSet pass.reclaimBoundaryPblk pass.nextFreePblk
              pass.boundaryCommitted) } }
    | _ => none
  | .absorb => some s.absorb
  | .syncPre =>
    if s.sync = .idle then
      some { s.absorb with checkpointCycleCtr := s.checkpointCycleCtr + 1, sync := .started }
    else none
  | .syncPost =>
    if s.sync = .post then
      match s.pendingUnlinks with
      | [] => some { s with sync := .idle }
      | (segno, cycleCtr) :: rest =>
        if cycleCtr = s.checkpointCycleCtr then some { s with sync := .idle }
        else some { s with
          -- `log_umbra_reclaim_unlink`, then the file goes
          pub := { s.pub with wal := s.pub.wal ++ [Record.other] }
          pendingUnlinks := rest
          unlinked := segno :: s.unlinked }
    else none
  | .abandon =>
    if s.sync ≠ .idle then some { s with pub := { s.pub with ckpt := .idle }, sync := .idle }
    else none

end Reclaim

end Umbra
