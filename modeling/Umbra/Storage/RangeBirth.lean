import Mathlib.Algebra.Notation.Defs
import Umbra.Foundation.Raising

/-!
# Births of a range of blocks

`umzeroextend` first tries to give a whole range of unmapped blocks their physical blocks at once:
it reserves them one by one, and then logs and applies them in chunks, each by one record. The
per-block path logs a MAP_SET record for each block.
-/

namespace Umbra.RangeBirth

open Foundation Foundation.Raising Function

def uint16Max : ℕ := 65535

def relsegSize : ℕ := 131072

variable {π : Type} [Zero π]

/-! ### Segment files -/

/-- The segment files of a fork. What lies behind the end of a file reads as zeros once the file has
grown over it. -/
structure Files (π : Type) [Zero π] where
  length : ℕ → ℕ
  content : ℕ → π
  content_of_ge : ∀ p, length (p / relsegSize) ≤ p % relsegSize → content p = 0

namespace Files

def Exists (f : Files π) (p : ℕ) : Prop := p % relsegSize < f.length (p / relsegSize)

instance (f : Files π) (p : ℕ) : Decidable (f.Exists p) := inferInstanceAs (Decidable (_ < _))

def writeZero (f : Files π) (p : ℕ) : Files π where
  length := update f.length (p / relsegSize) (max (f.length (p / relsegSize)) (p % relsegSize + 1))
  content := update f.content p 0
  content_of_ge q hq := by
    by_cases hqp : q = p
    · rw [hqp, update_self]
    · rw [update_of_ne hqp]
      refine f.content_of_ge q ?_
      by_cases hseg : q / relsegSize = p / relsegSize
      · rw [hseg, update_self] at hq
        rw [hseg]
        exact Nat.le_trans (Nat.le_max_left ..) hq
      · rwa [update_of_ne hseg] at hq

def zeroextend (f : Files π) (p : ℕ) : ℕ → Files π
  | 0 => f
  | n + 1 => (f.writeZero p).zeroextend (p + 1) n

def materializeZeroRuns (f : Files π) : ℕ → ℕ → List ℕ → Files π
  | runStart, runBlocks, [] => if runBlocks = 0 then f else f.zeroextend runStart runBlocks
  | runStart, runBlocks, p :: ps =>
    if runBlocks = 0 then f.materializeZeroRuns p 1 ps
    else if p = runStart + runBlocks then f.materializeZeroRuns runStart (runBlocks + 1) ps
    else (f.zeroextend runStart runBlocks).materializeZeroRuns p 1 ps

/-- The loop of `MapSBlockEnsurePhysicalNblocks`: the blocks that do not exist yet. -/
def zeroMissing (f : Files π) (blk : ℕ) : ℕ → Files π
  | 0 => f
  | n + 1 => (if f.Exists blk then f else f.writeZero blk).zeroMissing (blk + 1) n

def IsZero (f : Files π) (p : ℕ) : Prop := f.Exists p ∧ f.content p = 0

end Files

/-! ### Records -/

inductive Record
  | mapSet (lblk newPblk : ℕ)
  | rangeRemap (entries : List (ℕ × ℕ))
  | rangeRemapCompact (firstLblk firstPblk count : ℕ)
  deriving DecidableEq

structure State (π : Type) [Zero π] where
  map : ℕ → Option ℕ
  files : Files π
  logicalNblocks : ℕ
  nextFree : ℕ
  physicalNblocks : ℕ
  reservedNextFree : ℕ
  claims : ℕ → Option ℕ
  wal : List Record

namespace State

variable (s : State π)

def ensurePhysicalNblocks (n : ℕ) : State π :=
  if n ≤ s.physicalNblocks then s
  else { s with
    files := s.files.zeroMissing s.physicalNblocks (n - s.physicalNblocks)
    physicalNblocks := n }

def setMapping (lblk pblk : ℕ) : State π :=
  { s with map := update s.map lblk (some pblk) }

/-- `MapSBlockBumpNextFreePhysBlock`, `MapSBlockBumpPhysicalNblocks` and
`MapSBlockBumpLogicalNblocks`. -/
def bumpNextFree (n : ℕ) : State π :=
  { s with
    nextFree := max s.nextFree n
    reservedNextFree := max s.reservedNextFree n }

def bumpPhysicalNblocks (n : ℕ) : State π := { s with physicalNblocks := max s.physicalNblocks n }

def bumpLogicalNblocks (n : ℕ) : State π := { s with logicalNblocks := max s.logicalNblocks n }

def release (lblk n : ℕ) : State π :=
  { s with claims := fun l => if lblk ≤ l ∧ l < lblk + n then none else s.claims l }

def setMappings : State π → ℕ → List ℕ → State π
  | s, _, [] => s
  | s, first, p :: ps => setMappings (s.setMapping first p) (first + 1) ps

def finishRange (first : ℕ) (pblks : List ℕ) (maxPblk : ℕ) : State π :=
  (((s.bumpNextFree (maxPblk + 1)).bumpPhysicalNblocks (maxPblk + 1)).release first
    pblks.length).bumpLogicalNblocks (first + pblks.length)

end State

def maxPblkno (pblks : List ℕ) : ℕ := pblks.foldl max 0

def State.applyReservedRangeRemap (s : State π) (first : ℕ) (pblks : List ℕ) : State π :=
  ((s.ensurePhysicalNblocks (maxPblkno pblks + 1)).setMappings first pblks).finishRange first pblks
    (maxPblkno pblks)

def State.redo (s : State π) : Record → State π
  | .mapSet lblk newPblk =>
    let s := (s.setMapping lblk newPblk).bumpNextFree (newPblk + 1)
    let s := { s with files := s.files.writeZero newPblk }
    (s.bumpLogicalNblocks (lblk + 1)).bumpPhysicalNblocks (newPblk + 1)
  | .rangeRemap entries =>
    s.applyReservedRangeRemap ((entries.head?.map Prod.fst).getD 0) (entries.map Prod.snd)
  | .rangeRemapCompact firstLblk firstPblk count =>
    s.applyReservedRangeRemap firstLblk ((List.range count).map (firstPblk + ·))

/-! ### The range path -/

/-- What the call does not decide: how far others have moved the reservation frontier before each
reservation, and for which blocks a reservation is refused. -/
structure Environment where
  inRecovery : Bool
  walInsertEnabled : Bool
  skip : ℕ → ℕ
  refused : ℕ → Bool

inductive Site
  | lookup (lblk : ℕ)
  | reserve (i : ℕ)
  | preallocate (i : ℕ)
  | materialize
  | apply
  deriving DecidableEq

def checkUnowned (lblk : ℕ) : ℕ → Raising (State π) Site Bool
  | 0 => pure true
  | n + 1 => do
    mayRaise (.lookup lblk)
    let s ← read id
    if (s.map lblk).isSome || (s.claims lblk).isSome then pure false
    else checkUnowned (lblk + 1) n

/-- `MapTryReserveFreshPblknoInternal`: the frontier moves and the block is claimed. -/
def State.reserve (s : State π) (lblk skipped : ℕ) : State π :=
  { s with
    reservedNextFree := s.reservedNextFree + skipped + 1
    claims := update s.claims lblk (some (s.reservedNextFree + skipped)) }

def reserveAll (env : Environment) (blocknum : ℕ) : ℕ → ℕ → Raising (State π) Site (Option (List ℕ))
  | _, 0 => pure (some [])
  | i, n + 1 => do
    mayRaise (.reserve i)
    if env.refused i then do
      modify fun s => s.release blocknum i
      pure none
    else do
      let s ← read id
      modify fun s => s.reserve (blocknum + i) (env.skip i)
      mayRaise (.preallocate i)
      let rest ← reserveAll env blocknum (i + 1) n
      pure (rest.map ((s.reservedNextFree + env.skip i) :: ·))

def chunksFrom : ℕ → ℕ → List ℕ → List (ℕ × List ℕ)
  | _, _, [] => []
  | 0, _, _ :: _ => []
  | fuel + 1, first, p :: ps =>
    (first, (p :: ps).take uint16Max) ::
      chunksFrom fuel (first + uint16Max) ((p :: ps).drop uint16Max)

def RunIsContiguous (pblks : List ℕ) : Prop :=
  pblks = (List.range pblks.length).map (pblks.headD 0 + ·)

instance (pblks : List ℕ) : Decidable (RunIsContiguous pblks) :=
  inferInstanceAs (Decidable (_ = _))

def chunkRecord (chunk : ℕ × List ℕ) : Record :=
  if RunIsContiguous chunk.2 then .rangeRemapCompact chunk.1 (chunk.2.headD 0) chunk.2.length
  else .rangeRemap ((List.range' chunk.1 chunk.2.length).zip chunk.2)

def setMappings (first : ℕ) : List ℕ → Raising (State π) Site Unit
  | [] => pure ()
  | p :: ps => do
    mayRaise .apply
    modify fun s => s.setMapping first p
    setMappings (first + 1) ps

def applyChunk (chunk : ℕ × List ℕ) : Raising (State π) Site Unit := do
  mayRaise .materialize
  modify fun s => { s with files := s.files.materializeZeroRuns 0 0 chunk.2 }
  mayRaise .materialize
  modify fun s => s.ensurePhysicalNblocks (maxPblkno chunk.2 + 1)
  setMappings chunk.1 chunk.2
  mayRaise .apply
  modify fun s => s.finishRange chunk.1 chunk.2 (maxPblkno chunk.2)

def logAndApplyChunk (env : Environment) (chunk : ℕ × List ℕ) : Raising (State π) Site Unit :=
  if env.walInsertEnabled then
    critical do
      modify fun s => { s with wal := s.wal ++ [chunkRecord chunk] }
      applyChunk chunk
  else applyChunk chunk

/-- `um_try_pure_firstborn_range_remap_zeroextend`. -/
def rangeZeroextend (env : Environment) (blocknum nblocks : ℕ) : Raising (State π) Site Bool := do
  if env.inRecovery || decide (nblocks < 2) then pure false
  else do
    let unowned ← checkUnowned blocknum nblocks
    if unowned then do
      let reserved ← reserveAll env blocknum 0 nblocks
      match reserved with
      | none => pure false
      | some pblks => do
        onError (forEach (chunksFrom pblks.length blocknum pblks) (logAndApplyChunk env))
          fun s => s.release blocknum nblocks
        pure true
    else pure false

def handedOut (env : Environment) : ℕ → ℕ → ℕ → List ℕ
  | _, _, 0 => []
  | reservedNextFree, i, n + 1 =>
    (reservedNextFree + env.skip i) :: handedOut env (reservedNextFree + env.skip i + 1) (i + 1) n

def mapSets (first : ℕ) : List ℕ → List Record
  | [] => []
  | p :: ps => .mapSet first p :: mapSets (first + 1) ps

end Umbra.RangeBirth
