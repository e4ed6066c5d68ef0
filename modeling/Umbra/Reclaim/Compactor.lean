import Umbra.Map.Address
import Umbra.Publication.Machine

/-!
# The compactor's analysis of a fork

`MapCompactorAnalyzeFork` walks the MAP pages of a fork to learn which extents and segments hold
live blocks, asks for the removal of segments without any, moves the blocks of sparse extents, and
advances the reclaim boundary. This module has what it computes from what it has read.
-/

namespace Umbra

namespace Reclaim

/-- The fork, `RELSEG_SIZE`, `map_compactor_extent_blocks`, `map_compactor_low_live_percent`,
`max_moves`, and the backend that is the compactor. -/
structure Config (n : Nat) where
  fork : ForkNumber
  relsegSize : Nat
  extentBlocks : Nat
  lowLivePercent : Nat
  maxMoves : Nat
  compactor : Fin n

/-- What a pass has read: `*moves_done` on entry, the counters, the size of the MAP fork, the valid
entries walked, and the extents of the blocks moved so far. -/
structure Pass where
  movesDone : Nat
  nLblknos : Nat
  nextFreePblk : Nat
  reclaimBoundaryPblk : Nat
  nMapPages : Nat
  seen : List Nat
  movedExtents : List Nat
  deriving DecidableEq, Repr

/-! ### MAP pages -/

def pageCount (nLblknos : Nat) : Nat := (nLblknos + mapEntriesPerPage - 1) / mapEntriesPerPage

def limitIdx (nLblknos pageIdx : Nat) : Nat :=
  if pageIdx = pageCount nLblknos - 1 ∧ nLblknos % mapEntriesPerPage ≠ 0 then
    nLblknos % mapEntriesPerPage
  else mapEntriesPerPage

def pageLblknos (nLblknos pageIdx : Nat) : List Nat :=
  (List.range (limitIdx nLblknos pageIdx)).map (pageIdx * mapEntriesPerPage + ·)

def readPage (m : MapMeta) (fork : ForkNumber) (nLblknos pageIdx : Nat) : List Nat :=
  (pageLblknos nLblknos pageIdx).filterMap fun lblkno => m.map (fork, lblkno)

lemma limitIdx_eq {nLblknos pageIdx} (hpage : pageIdx < pageCount nLblknos) :
    limitIdx nLblknos pageIdx = min mapEntriesPerPage (nLblknos - pageIdx * mapEntriesPerPage) := by
  have hE : mapEntriesPerPage = 2048 := rfl
  rw [pageCount, hE] at hpage
  rw [limitIdx]
  split_ifs with h
  · obtain ⟨hlast, hrem⟩ := h
    rw [pageCount, hE] at hlast
    rw [hE] at hrem ⊢
    omega
  · rw [pageCount, hE] at h
    rw [hE]
    omega

lemma mem_pageLblknos_iff {nLblknos pageIdx lblkno} (hpage : pageIdx < pageCount nLblknos) :
    lblkno ∈ pageLblknos nLblknos pageIdx
      ↔ lblkno < nLblknos ∧ lblkno / mapEntriesPerPage = pageIdx := by
  have hE : mapEntriesPerPage = 2048 := rfl
  rw [pageLblknos, List.mem_map]
  constructor
  · rintro ⟨i, hi, rfl⟩
    have hlt := List.mem_range.mp hi
    rw [limitIdx_eq hpage, hE] at hlt
    rw [hE]
    omega
  · rintro ⟨hlt, hdiv⟩
    refine ⟨lblkno % mapEntriesPerPage, List.mem_range.mpr ?_, ?_⟩
    · rw [limitIdx_eq hpage]
      rw [hE] at hdiv ⊢
      omega
    · rw [hE] at hdiv ⊢
      omega

lemma le_of_pageCount_le {nLblknos lblkno} (h : pageCount nLblknos ≤ lblkno / mapEntriesPerPage) :
    nLblknos ≤ lblkno := by
  have hE : mapEntriesPerPage = 2048 := rfl
  rw [pageCount, hE] at h
  omega

/-! ### Segments and extents -/

variable {n : Nat}

def mapSegmentFullyBelowReclaimBoundary (cfg : Config n) (boundary segno : Nat) : Bool :=
  (segno + 1) * cfg.relsegSize ≤ boundary

def mapExtentFullyBelowReclaimBoundary (cfg : Config n) (boundary extentNo : Nat) : Bool :=
  cfg.extentBlocks ≠ 0 ∧ (extentNo + 1) * cfg.extentBlocks ≤ boundary

/-- `MapCompactorAdvanceBoundaryFromSet`, with the number of rounds left as its fuel. -/
def advanceFrom (committed : List Nat) : Nat → Nat → Nat
  | 0, boundary => boundary
  | rounds + 1, boundary =>
    if boundary ∈ committed then advanceFrom committed rounds (boundary + 1) else boundary

/-- `MapCompactorAdvanceBoundaryFromSet`: the boundary moves over published blocks only. -/
def mapCompactorAdvanceBoundaryFromSet (boundary nextFree : Nat) (committed : List Nat) : Nat :=
  advanceFrom committed (nextFree - boundary) boundary

lemma mem_of_lt_advanceFrom {committed rounds boundary p} (hle : boundary ≤ p)
    (hlt : p < advanceFrom committed rounds boundary) : p ∈ committed := by
  induction rounds generalizing boundary with
  | zero =>
    rw [advanceFrom] at hlt
    omega
  | succ rounds ih =>
    rw [advanceFrom] at hlt
    split_ifs at hlt with hmem
    · rcases eq_or_lt_of_le hle with rfl | hle
      · exact hmem
      · exact ih hle hlt
    · omega

namespace Pass

variable (cfg : Config n) (p : Pass)

def boundaryCommitted : List Nat :=
  p.seen.filter fun pblk => p.reclaimBoundaryPblk ≤ pblk ∧ pblk < p.nextFreePblk

def below : List Nat := p.seen.filter fun pblk => pblk < p.reclaimBoundaryPblk

def reclaimSegLimit : Nat := p.reclaimBoundaryPblk / cfg.relsegSize

def segmentLive (segno : Nat) : Bool := p.below.any fun pblk => pblk / cfg.relsegSize = segno

def maxExtentNo : Option Nat := (p.below.map (· / cfg.extentBlocks)).max?

def hasExtent (extentNo : Nat) : Bool := p.below.any fun pblk => pblk / cfg.extentBlocks = extentNo

/-- `live_blocks` of an extent: counted up to the extent size, then down for each block moved. -/
def liveBlocks (extentNo : Nat) : Nat :=
  min cfg.extentBlocks (p.below.countP fun pblk => pblk / cfg.extentBlocks = extentNo)
    - p.movedExtents.count extentNo

def liveThreshold (cfg : Config n) : Nat := min 100 (max 1 cfg.lowLivePercent)

def sparse (extentNo : Nat) : Bool :=
  p.maxExtentNo cfg ≠ some extentNo ∧
    mapExtentFullyBelowReclaimBoundary cfg p.reclaimBoundaryPblk extentNo ∧
    p.liveBlocks cfg extentNo * 100 / max 1 cfg.extentBlocks ≤ liveThreshold cfg

/-- `sparse_count > 0`. -/
def hasSparse : Bool := p.below.any fun pblk => p.sparse cfg (pblk / cfg.extentBlocks)

def candidate (pblkno : Nat) : Bool :=
  p.hasExtent cfg (pblkno / cfg.extentBlocks) ∧ p.sparse cfg (pblkno / cfg.extentBlocks)

def walked (fork : ForkNumber) (nLblknos nMapPages pageIdx : Nat) : Bool :=
  pageCount nLblknos ≤ pageIdx ∨ nMapPages ≤ mapForkPagePosition fork pageIdx

def moveEnds (lblkno : Nat) : Bool :=
  p.nLblknos ≤ lblkno ∨
    (lblkno % mapEntriesPerPage = 0 ∧ cfg.maxMoves ≤ p.movesDone + p.movedExtents.length) ∨
    p.nMapPages ≤ mapForkPagePosition cfg.fork (lblkno / mapEntriesPerPage)

end Pass

end Reclaim

end Umbra
