import Umbra.Basic
import Umbra.Foundation.System

/-!
# What redo skips

Replay notes a missing page in the invalid-page table, or the relation in the missing-metadata
table. Drops and truncations forget notes. What is left at the consistency point is a `PANIC`, and
so is a new note of an invalid page after it.
-/

namespace Umbra.Recovery

open Foundation Function

inductive RedoFork
  | mapped (fork : ForkNumber)
  | init
  deriving DecidableEq

structure PageKey where
  locator : RelFileLocator
  fork : RedoFork
  block : Nat
  deriving DecidableEq

inductive Change
  | block (key : PageKey)
  | super (locator : RelFileLocator)
  deriving DecidableEq

inductive Panic
  /-- "WAL contains references to invalid pages". -/
  | invalidPages
  /-- "remap-without-image record has invalid old pblk". -/
  | invalidOldPblk
  /-- "missing WAL mapping during recovery". -/
  | missingMapping
  deriving DecidableEq

/-! ### The tables -/

structure Notes where
  invalidPages : List (PageKey × Bool)
  missingMetadata : List RelFileLocator
  reachedConsistency : Bool
  panic : Option Panic
  finished : Bool
  outstanding : List Change

namespace Notes

def start : Notes := ⟨[], [], false, none, false, []⟩

/-- `log_invalid_page`, with `ignore_invalid_pages` off. -/
def logInvalidPage (n : Notes) (key : PageKey) (present : Bool) : Notes :=
  if n.reachedConsistency then { n with panic := some .invalidPages }
  else if n.invalidPages.any (·.1 = key) then n
  else { n with invalidPages := (key, present) :: n.invalidPages }

/-- `XLogLogMissingRelationMetadata`. -/
def logMissingMetadata (n : Notes) (locator : RelFileLocator) : Notes :=
  if locator ∈ n.missingMetadata then n
  else { n with missingMetadata := locator :: n.missingMetadata }

def forgetInvalidPages (n : Notes) (locator : RelFileLocator) (fork : RedoFork) (min : Nat) :
    Notes :=
  { n with
    invalidPages := n.invalidPages.filter fun e =>
      ¬ (e.1.locator = locator ∧ e.1.fork = fork ∧ min ≤ e.1.block) }

def forgetInvalidPagesDb (n : Notes) (db : UInt32) : Notes :=
  { n with invalidPages := n.invalidPages.filter fun e => e.1.locator.dbOid ≠ db }

def forgetMissingMetadata (n : Notes) (locator : RelFileLocator) : Notes :=
  { n with missingMetadata := n.missingMetadata.filter (· ≠ locator) }

def forgetMissingMetadataDb (n : Notes) (db : UInt32) : Notes :=
  { n with missingMetadata := n.missingMetadata.filter (·.dbOid ≠ db) }

def dropRelation (n : Notes) (locator : RelFileLocator) (fork : RedoFork) : Notes :=
  (n.forgetInvalidPages locator fork 0).forgetMissingMetadata locator

def dropDatabase (n : Notes) (db : UInt32) : Notes :=
  (n.forgetInvalidPagesDb db).forgetMissingMetadataDb db

def truncateRelation (n : Notes) (locator : RelFileLocator) (fork : RedoFork) (nblocks : Nat) :
    Notes :=
  n.forgetInvalidPages locator fork nblocks

def checkInvalidPages (n : Notes) : Notes :=
  if n.invalidPages = [] ∧ n.missingMetadata = [] then n
  else { n with panic := some .invalidPages }

def skip (n : Notes) (change : Change) : Notes :=
  { n with outstanding := change :: n.outstanding }

def cover (n : Notes) (covers : Change → Bool) : Notes :=
  { n with outstanding := n.outstanding.filter (!covers ·) }

end Notes

/-! ### Storage -/

structure Storage where
  metadata : RelFileLocator → Bool
  skipWalPending : RelFileLocator → Bool
  mapped : PageKey → Bool
  nblocks : RelFileLocator → RedoFork → Nat

structure State where
  storage : Storage
  notes : Notes

namespace Storage

def createMetadata (s : Storage) (locator : RelFileLocator) : Storage where
  metadata := update s.metadata locator true
  skipWalPending := update s.skipWalPending locator false
  mapped key := if key.locator = locator then false else s.mapped key
  nblocks l fork := if l = locator ∧ fork ≠ .init then 0 else s.nblocks l fork

def ensureMetadata (s : Storage) (locator : RelFileLocator) (fork : RedoFork) : Storage :=
  if fork = .init ∨ s.metadata locator then s else s.createMetadata locator

/-- Blocks of the fork are translated: `UMBRA_MAP_POLICY_REQUIRE_MAP`. -/
def usesMap (s : Storage) (locator : RelFileLocator) (fork : RedoFork) : Bool :=
  fork ≠ .init && !(s.metadata locator && s.skipWalPending locator)

def setMapping (s : Storage) (key : PageKey) : Storage :=
  if s.usesMap key.locator key.fork then { s with mapped := update s.mapped key true }
  else s

def setNblocks (s : Storage) (locator : RelFileLocator) (fork : RedoFork) (n : Nat) : Storage :=
  { s with
    nblocks := fun l f => if l = locator ∧ f = fork then n else s.nblocks l f }

/-- From the end of a main fork up to the block there is one without a mapping, and recovery does
not give birth to it. -/
def unborn (s : Storage) (key : PageKey) : Bool :=
  s.usesMap key.locator key.fork && key.fork = .mapped .main &&
    (List.range (key.block + 1)).any fun b =>
      s.nblocks key.locator key.fork ≤ b && !s.mapped { key with block := b }

/-- `umzeroextend` up to the block, with births of its own in the auxiliary forks. -/
def extendTo (s : Storage) (key : PageKey) : Storage :=
  { s.setNblocks key.locator key.fork (key.block + 1) with
    mapped := fun k => s.mapped k || (s.usesMap key.locator key.fork && k.locator = key.locator &&
      k.fork = key.fork && s.nblocks key.locator key.fork ≤ k.block && k.block ≤ key.block) }

def truncate (s : Storage) (locator : RelFileLocator) (fork : RedoFork) (n : Nat) : Storage :=
  { s.setNblocks locator fork n with
    mapped := fun k => s.mapped k && !(k.locator = locator && k.fork = fork && n ≤ k.block) }

def remove (s : Storage) (p : RelFileLocator → Bool) : Storage where
  metadata l := s.metadata l && !p l
  skipWalPending := s.skipWalPending
  mapped k := s.mapped k && !p k.locator
  nblocks l fork := if p l then 0 else s.nblocks l fork

end Storage

/-! ### Redo of a block reference -/

inductive ReadBufferMode
  | normal
  | zeroAndLock
  | zeroOnError
  deriving DecidableEq

/-- The remap header of a block reference. No block number is `InvalidBlockNumber`. -/
structure RemapHeader where
  oldPblkno : Option Nat
  logicalNblocks : Option Nat
  nextFreePblkno : Option Nat

structure BlockRef where
  key : PageKey
  /-- How the redo routine reads the page; zeroed if and only if the block is `WILL_INIT`. -/
  mode : ReadBufferMode
  image : Bool
  remap : Option RemapHeader
  /-- What `PageIsNew` says of the page, if it gets to be read. -/
  isNew : Bool

namespace State

def note (s : State) (f : Notes → Notes) : State := { s with notes := f s.notes }

def store (s : State) (f : Storage → Storage) : State := { s with storage := f s.storage }

/-- `MapSuperPrepareEntryForUpdate`. The file is not looked at if the superblock is cached. -/
def prepareSuper (s : State) (locator : RelFileLocator) (cached : Bool) : State × Bool :=
  if cached || s.storage.metadata locator then (s, true)
  else (s.note fun n => (n.logMissingMetadata locator).skip (.super locator), false)

def updateLogicalNblocks (s : State) (locator : RelFileLocator) (fork : RedoFork) (n : Nat)
    (bumpOnly cached : Bool) : State :=
  if fork = .init then s
  else
    match s.prepareSuper locator cached with
    | (s, true) =>
      s.store fun t =>
        t.setNblocks locator fork (if bumpOnly then max (t.nblocks locator fork) n else n)
    | (s, false) => s

def bumpNextFreePhysBlock (s : State) (locator : RelFileLocator) (fork : RedoFork) : State :=
  if fork = .init then s else (s.prepareSuper locator false).1

def readBufferExtended (s : State) (key : PageKey) (mode : ReadBufferMode) (isNew : Bool) :
    State × Bool :=
  if key.block < s.storage.nblocks key.locator key.fork then
    if mode = .normal ∧ isNew then (s.note (·.logInvalidPage key true), false) else (s, true)
  else if mode = .normal then (s.note (·.logInvalidPage key false), false)
  else if s.storage.unborn key then
    (s.note fun n => { n with panic := some .missingMapping }, true)
  else (s.store (·.extendTo key), true)

def ensureMappedBlock (s : State) (key : PageKey) : State × Bool :=
  if key.fork = .init then (s, true)
  else if s.storage.metadata key.locator = false then
    (s.note (·.logMissingMetadata key.locator), false)
  else if s.storage.usesMap key.locator key.fork && !s.storage.mapped key then
    -- below the end the block reads as zeros
    if key.block < s.storage.nblocks key.locator key.fork then (s, true)
    else (s.note (·.logInvalidPage key false), false)
  else (s, true)

/-- A remap with an image, or of a page that redo initialises. -/
def redoRemapInit (s : State) (key : PageKey) (m : RemapHeader) : State × Bool :=
  let s := (s.store (·.setMapping key)).bumpNextFreePhysBlock key.locator key.fork
  let s :=
    if m.oldPblkno = none then
      s.updateLogicalNblocks key.locator key.fork (m.logicalNblocks.getD (key.block + 1)) true false
    else s
  match s.ensureMappedBlock key with
  | (s, true) => s.readBufferExtended key .zeroAndLock false
  | (s, false) => (s, false)

/-- A remap without an image: the page is read from the old block. -/
def redoRemapDelta (s : State) (r : BlockRef) (m : RemapHeader) : State × Bool :=
  match (s.store (·.setMapping r.key)).ensureMappedBlock r.key with
  | (s, true) =>
    match s.readBufferExtended r.key r.mode r.isNew with
    | (s, true) =>
      (if m.nextFreePblkno = none then s
        else s.bumpNextFreePhysBlock r.key.locator r.key.fork, true)
    | (s, false) => (s, false)
  | (s, false) => (s, false)

/-- `XLogReadBufferForRedoExtendedUmbra`: anything but `BLK_NOTFOUND`? -/
def readBufferForRedo (s : State) (r : BlockRef) : State × Bool :=
  let s := s.store (·.ensureMetadata r.key.locator r.key.fork)
  match r.remap with
  | none =>
    if r.image then s.readBufferExtended r.key .zeroAndLock false
    else s.readBufferExtended r.key r.mode r.isNew
  | some m =>
    if r.image ∨ r.mode = .zeroAndLock then s.redoRemapInit r.key m
    else if m.oldPblkno = none then
      (s.note fun n => { n with panic := some .invalidOldPblk }, true)
    else s.redoRemapDelta r m

def redoBlock (s : State) (r : BlockRef) : State :=
  match s.readBufferForRedo r with
  | (s, true) => s
  | (s, false) => s.note (·.skip (.block r.key))

end State

/-! ### Recovery -/

inductive Event
  | block (r : BlockRef)
  | mapSet (locator : RelFileLocator) (fork : ForkNumber) (lblkno : Nat)
      (oldPblkno : Option Nat) (nblocks : Nat)
  | rangeRemap (locator : RelFileLocator) (fork : ForkNumber) (first count : Nat)
  | skipWalDenseMap (locator : RelFileLocator) (entries : List (ForkNumber × Nat))
  | superUpdate (locator : RelFileLocator) (fork : ForkNumber) (nblocks : Nat)
      (bumpOnly cached : Bool)
  | smgrCreate (locator : RelFileLocator) (fork : RedoFork)
  /-- `XLOG_SMGR_TRUNCATE`, with the new lengths of the forks that it truncates. -/
  | smgrTruncate (locator : RelFileLocator) (main fsm vm : Option Nat)
  | dropRelation (locator : RelFileLocator)
  /-- `XLOG_DBASE_DROP`. -/
  | dropDatabase (db : UInt32) (tablespaces : List UInt32)
  | checkConsistency
  | finish

def rangeKeys (locator : RelFileLocator) (fork : ForkNumber) (first count : Nat) : List PageKey :=
  (List.range count).map fun i => ⟨locator, .mapped fork, first + i⟩

def Event.covers : Event → Change → Bool
  | .dropRelation locator, .block key => key.locator = locator
  | .dropRelation locator, .super l => l = locator
  | .dropDatabase db _, .block key => key.locator.dbOid = db
  | .dropDatabase db _, .super l => l.dbOid = db
  | .smgrTruncate locator main fsm vm, .block key =>
    key.locator = locator && match key.fork with
      | .mapped .main => main.any (· ≤ key.block)
      | .mapped .fsm => fsm.any (· ≤ key.block)
      | .mapped .vm => vm.any (· ≤ key.block)
      | .init => false
  | _, _ => false

namespace State

def redoTruncate (s : State) (locator : RelFileLocator) (main fsm vm : Option Nat) : State :=
  let s := s.store (·.ensureMetadata locator (.mapped .main))
  let s :=
    match main with
    | some n => s.note (·.truncateRelation locator (.mapped .main) n)
    | none => s
  [(ForkNumber.main, main), (.fsm, fsm), (.vm, vm)].foldl (fun s (fork, n) =>
    match n with
    | some n =>
      (s.store (·.truncate locator (.mapped fork) n)).updateLogicalNblocks locator (.mapped fork)
        n false false
    | none => s) s

/-- The blocks that a record of the Umbra resource manager maps, and its updates of the superblock.
-/
def redoMapped (s : State) (locator : RelFileLocator) (keys : List PageKey)
    (updates : List (RedoFork × Nat × Bool)) : State :=
  if s.storage.metadata locator then
    updates.foldl (fun s (fork, n, bumpOnly) =>
      s.updateLogicalNblocks locator fork n bumpOnly false)
      (s.store fun t => { t with mapped := fun k => t.mapped k || k ∈ keys })
  else
    -- nothing is noted
    (keys.map Change.block ++ [Change.super locator]).foldl
      (fun s change => s.note (·.skip change)) s

def redoMapSet (s : State) (key : PageKey) (oldPblkno : Option Nat) (nblocks : Nat) : State :=
  match oldPblkno with
  | none => s.redoMapped key.locator [key] [(key.fork, key.block + 1, true)]
  | some old =>
    -- without the old block the copy is left out, but the mapping is switched
    if s.storage.metadata key.locator ∧ nblocks ≤ old then
      (s.redoMapped key.locator [key] []).note (·.skip (.block key))
    else s.redoMapped key.locator [key] []

def redo (s : State) : Event → State
  | .block r => s.redoBlock r
  | .mapSet locator fork lblkno oldPblkno nblocks =>
    s.redoMapSet ⟨locator, .mapped fork, lblkno⟩ oldPblkno nblocks
  | .rangeRemap locator fork first count =>
    s.redoMapped locator (rangeKeys locator fork first count) [(.mapped fork, first + count, true)]
  | .skipWalDenseMap locator entries =>
    s.redoMapped locator (entries.flatMap fun (fork, n) => rangeKeys locator fork 0 n)
      (entries.map fun (fork, n) => (.mapped fork, n, false))
  | .superUpdate locator fork nblocks bumpOnly cached =>
    s.updateLogicalNblocks locator (.mapped fork) nblocks bumpOnly cached
  | .smgrCreate locator fork =>
    let s := s.store (·.ensureMetadata locator fork)
    if fork = .mapped .fsm ∨ fork = .mapped .vm then
      s.updateLogicalNblocks locator fork 0 false false
    else s
  | .smgrTruncate locator main fsm vm => s.redoTruncate locator main fsm vm
  | .dropRelation locator =>
    let forks : List RedoFork := [.mapped .main, .mapped .fsm, .mapped .vm, .init]
    (s.note fun n => forks.foldl (fun n fork => n.dropRelation locator fork) n).store
      (·.remove (· = locator))
  | .dropDatabase db tablespaces =>
    (s.note (·.dropDatabase db)).store (·.remove fun l => l.dbOid = db && l.spcOid ∈ tablespaces)
  | .checkConsistency =>
    s.note fun n =>
      let n := n.checkInvalidPages
      { n with reachedConsistency := n.panic = none }
  | .finish => s.note fun n => { n with finished := true }

end State

/-- Recovery with a minimum recovery point, or crash recovery without one, which never gets to
`XLogCheckInvalidPages`. -/
def recovery (minRecoveryPoint : Bool) : System State Event where
  step s e :=
    if s.notes.panic = none ∧ s.notes.finished = false then
      match e with
      | .checkConsistency =>
        if minRecoveryPoint ∧ s.notes.reachedConsistency = false then some (s.redo e) else none
      | .finish =>
        -- recovery to a minimum recovery point does not end before it
        if minRecoveryPoint → s.notes.reachedConsistency then some (s.redo e) else none
      | e => some ((s.note (·.cover e.covers)).redo e)
    else none

end Umbra.Recovery
