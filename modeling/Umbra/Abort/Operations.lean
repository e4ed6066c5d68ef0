import Umbra.Basic
import Umbra.Foundation.Raising

/-!
# What a backend owns of the MAP

The storage operations of a backend, as far as they take and give back in-flight claims, pins of MAP
buffers and the I/O-in-progress flag, with every point at which they can raise `ERROR`. A loop that
tries again ends each turn with what it began with, and is left out.
-/

namespace Umbra.Abort

open Foundation Foundation.Raising

abbrev Block := RelFileLocator × BlockKey

structure Owned where
  /-- The in-flight claims of remaps, each with a pin of its MAP page. -/
  claims : List Block
  /-- The in-flight claims of a write, each with a pin. -/
  barriers : Nat
  pins : Nat
  /-- `InProgressMapBuf`. -/
  io : Bool
  /-- The blocks of the WAL record under construction that have a remap. -/
  registered : List Block
  deriving DecidableEq

namespace Owned

def idle : Owned := ⟨[], 0, 0, false, []⟩

/-- `MapInflightLookupOwnedPblk`. -/
def owns (s : Owned) (b : Block) : Bool := b ∈ s.claims

/-- `MapPinBuffer`. -/
def pin (s : Owned) : Owned := { s with pins := s.pins + 1 }

/-- `MapUnpinBuffer`. -/
def unpin (s : Owned) : Owned := { s with pins := s.pins - 1 }

/-- `MapStartBufferIO` that gets the buffer. -/
def startIo (s : Owned) : Owned := { s with io := true }

/-- `MapTerminateBufferIO`. -/
def terminateIo (s : Owned) : Owned := { s with io := false }

def claim (s : Owned) (b : Block) : Owned := { s.unpin with claims := b :: s.claims }

def release (s : Owned) (b : Block) : Owned := { s with claims := s.claims.filter (· ≠ b) }

def releaseAll (s : Owned) (bs : List Block) : Owned :=
  { s with claims := s.claims.filter (· ∉ bs) }

def claimBarrier (s : Owned) : Owned := { s.unpin with barriers := s.barriers + 1 }

/-- `um_release_write_barriers`, but for the last `n`. -/
def releaseBarriers (s : Owned) (n : Nat) : Owned := { s with barriers := n }

def isRegistered (s : Owned) (b : Block) : Bool := b ∈ s.registered

def register (s : Owned) (b : Block) : Owned := { s with registered := b :: s.registered }

/-- `XLogResetInsertion` with `XLogAbortBlockRemapsUmbra`. `XLogCommitBlockRemapsUmbra` gives back
the same claims, with the record in the log. -/
def resetInsertion (s : Owned) : Owned := { s.releaseAll s.registered with registered := [] }

/-- `AbortTransaction`, without the LWLocks. `MapBackendExitCleanup` is not called before the
backend exits. -/
def abort (s : Owned) : Owned := s.resetInsertion

end Owned

/-! ### Reading MAP pages -/

inductive FlushSite
  | superblock
  | write
  deriving DecidableEq

inductive FlushPath
  | invalid
  | superblock
  | regular

def mapFlushBuffer : Raising Owned FlushSite Unit := do
  let started ← pick [true, false]
  if started then
    modify .startIo
    match ← pick [FlushPath.invalid, .superblock, .regular] with
    | .invalid => modify .terminateIo
    | .superblock =>
      modify .terminateIo
      raise .superblock
    | .regular =>
      mayRaise .write
      modify .terminateIo

inductive ReadSite
  | early
  | victim (site : FlushSite)
  | load
  deriving DecidableEq

def mapReadBuffer : Raising Owned ReadSite Unit := do
  mayRaise .early
  modify .pin
  let hit ← pick [true, false]
  if !hit then
    let dirty ← pick [true, false]
    if dirty then
      call .victim mapFlushBuffer
    mayRaise .load

/-- `MapTryLookup`: is there a mapping? -/
def mapTryLookup : Raising Owned ReadSite Bool := do
  mapReadBuffer
  modify .unpin
  pick [true, false]

def mapSetMapping : Raising Owned ReadSite Unit := do
  mapReadBuffer
  modify .unpin

/-! ### Reserving blocks -/

inductive ReserveSite
  | early
  /-- `MapInflightTryClaim`. -/
  | read (site : ReadSite)
  | guarded
  deriving DecidableEq

def mapTryReserveFresh (b : Block) : Raising Owned ReserveSite Bool := do
  mayRaise .early
  if ← read (·.owns b) then
    return false
  else
    call .read mapReadBuffer
    let claimed ← pick [true, false]
    if claimed then
      modify (·.claim b)
      let reserved ← onError (do
        mayRaise .guarded
        pick [true, false]) (·.release b)
      if reserved then
        return true
      else
        modify (·.release b)
        return false
    else
      modify .unpin
      return false

def mapReserveNext (b : Block) : Raising Owned ReserveSite Bool := do
  if ← read (·.owns b) then
    return true
  else
    mapTryReserveFresh b

inductive FreshSite
  | reserve (site : ReserveSite)
  | preallocate
  deriving DecidableEq

def mapReserveFresh (b : Block) : Raising Owned FreshSite Bool := do
  if ← call .reserve (mapReserveNext b) then
    mayRaise .preallocate
    return true
  else
    return false

inductive NewSite
  | lookup (site : ReadSite)
  | reserve (site : ReserveSite)
  /-- Another backend has the claim, and does not give it back in time. -/
  | wait
  | preallocate
  deriving DecidableEq

def mapGetNew (b : Block) : Raising Owned NewSite Unit := do
  let _ ← call .lookup mapTryLookup
  if ← call .reserve (mapReserveNext b) then
    mayRaise .preallocate
  else
    raise .wait

/-! ### Extending -/

inductive BirthSite
  | reserve (site : NewSite)
  /-- Without WAL, the mapping and the superblock are not updated in a critical section. -/
  | setMapping (site : ReadSite)
  | superblock
  deriving DecidableEq

/-- `um_publish_mapped_birth`: does the WAL record of the page own the birth, so that the claim is
kept? -/
def umPublishMappedBirth (b : Block) (allowWalOwned : Bool) : Raising Owned BirthSite Bool := do
  call .reserve (mapGetNew b)
  let walEnabled ← pick [true, false]
  let available ← pick [true, false]
  if allowWalOwned && walEnabled && available then
    return true
  else
    let publish : Raising Owned BirthSite Unit := do
      call .setMapping mapSetMapping
      mayRaise .superblock
    if walEnabled then
      critical publish
    else
      publish
    modify (·.release b)
    return false

inductive RangeSite
  | lookup (site : ReadSite)
  | reserve (reserved : List Block) (b : Block) (site : FreshSite)
  | guarded
  deriving DecidableEq

def umRangeIsFresh : List Block → Raising Owned RangeSite Bool
  | [] => return true
  | b :: bs => do
    let mapped ← call .lookup mapTryLookup
    let owned ← read (·.owns b)
    if mapped || owned then
      return false
    else
      umRangeIsFresh bs

def umReserveRange (reserved : List Block) : List Block → Raising Owned RangeSite Bool
  | [] => return true
  | b :: bs => do
    if ← call (.reserve reserved b) (mapReserveFresh b) then
      umReserveRange (b :: reserved) bs
    else
      modify (·.releaseAll reserved)
      return false

/-- `um_try_pure_firstborn_range_remap_zeroextend`: has the range been extended? -/
def umTryRangeRemapZeroextend (bs : List Block) : Raising Owned RangeSite Bool := do
  if bs.length < 2 then
    return false
  else if ← umRangeIsFresh bs then
    if ← umReserveRange [] bs then
      let walEnabled ← pick [true, false]
      -- with WAL every chunk is logged and applied in a critical section
      onError (if walEnabled then critical (mayRaise .guarded) else mayRaise .guarded)
        (·.releaseAll bs)
      modify (·.releaseAll bs)
      return true
    else
      return false
  else
    return false

inductive ZeroextendSite
  | range (site : RangeSite)
  | lookup (published : List Block) (site : ReadSite)
  | birth (published : List Block) (b : Block) (site : BirthSite)
  | file (published : List Block)
  deriving DecidableEq

def umzeroextendBlocks (published : List Block) :
    List Block → Raising Owned ZeroextendSite (List Block)
  | [] => do
    mayRaise (.file published)
    return published
  | b :: bs => do
    if ← call (.lookup published) mapTryLookup then
      mayRaise (.file published)
      umzeroextendBlocks published bs
    else
      let _ ← call (.birth published b) (umPublishMappedBirth b false)
      mayRaise (.file (b :: published))
      umzeroextendBlocks (b :: published) bs

/-- `umzeroextend`, with the blocks that it has published one by one. -/
def umzeroextend (bs : List Block) : Raising Owned ZeroextendSite (List Block) := do
  if ← call .range (umTryRangeRemapZeroextend bs) then
    return []
  else
    umzeroextendBlocks [] bs

inductive ExtendSite
  | early
  | gap (site : ZeroextendSite)
  | lookup (published : List Block) (site : ReadSite)
  | birth (published : List Block) (site : BirthSite)
  /-- The write of the page and the updates of the superblock, with a birth that WAL owns. -/
  | walOwned (published : List Block)
  | file (published : List Block)
  deriving DecidableEq

def umextend (b : Block) (gap : List Block) : Raising Owned ExtendSite Unit := do
  mayRaise .early
  let published ← call .gap (umzeroextend gap)
  if ← call (.lookup published) mapTryLookup then
    mayRaise (.file published)
  else if ← call (.birth published) (umPublishMappedBirth b true) then
    mayRaise (.walOwned published)
  else
    mayRaise (.file (b :: published))

/-! ### Writing -/

inductive WriteSite
  | early
  /-- "cannot claim write barrier while owning in-flight remap". -/
  | ownClaim
  | barrier (site : ReadSite)
  | timeout
  | resolve (site : ReadSite)
  | file
  | superblock
  deriving DecidableEq

inductive WritePath
  | join
  | restart
  | extend

def umwriteBlock (b : Block) : Raising Owned WriteSite Unit := do
  if ← read (·.owns b) then
    raise .ownClaim
  else
    call .barrier mapReadBuffer
    if ← pick [true, false] then
      modify .claimBarrier
      let _ ← call .resolve mapTryLookup
      mayRaise .file
      match ← pick [WritePath.join, .restart, .extend] with
      | .join => return ()
      | .restart => modify (·.releaseBarriers 1)
      | .extend => modify (·.releaseBarriers 0)
    else
      modify .unpin
      raise .timeout

def umwritev (bs : List Block) : Raising Owned WriteSite Unit := do
  mayRaise .early
  onError (do
    forEach bs umwriteBlock
    mayRaise .file
    modify (·.releaseBarriers 0)) (·.releaseBarriers 0)
  mayRaise .superblock

/-! ### WAL records -/

/-- What `XLogRecordAssembleUmbra` does about a registered block. -/
inductive Plan
  | none
  /-- `REGBUF_LOGICAL_BIRTH`. -/
  | birth
  | remap

inductive AssembleSite
  | lookup (site : ReadSite)
  | birth (site : FreshSite)
  /-- "failed to reserve fresh physical block". -/
  | refused
  | remap (site : NewSite)
  /-- `XLogFillBlockRemapFrontierUmbra`, or a later part of the record. -/
  | record (hasRemap : Bool)
  deriving DecidableEq

/-- `XLogRecordAssembleUmbra` at a block. A block that has a remap from an earlier attempt keeps
it. -/
def assembleBlock (b : Block) (plan : Plan) : Raising Owned AssembleSite Unit := do
  if ← read (·.isRegistered b) then
    mayRaise (.record true)
  else
    match plan with
    | .none => mayRaise (.record false)
    | .birth =>
      if ← call .lookup mapTryLookup then
        mayRaise (.record false)
      else if ← call .birth (mapReserveFresh b) then
        modify (·.register b)
        mayRaise (.record true)
      else
        raise .refused
    | .remap =>
      call .remap (mapGetNew b)
      modify (·.register b)
      mayRaise (.record true)

inductive InsertSite
  | assemble (registered : List Block) (b : Block) (site : AssembleSite)
  | insert
  deriving DecidableEq

/-- `XLogInsert` with the blocks of each attempt to assemble the record. -/
def xlogInsert (attempts : List (List (Block × Plan))) : Raising Owned InsertSite Unit := do
  onError (do
    forEach attempts.flatten fun (b, plan) => do
      let registered ← read (·.registered)
      call (.assemble registered b) (assembleBlock b plan)
    -- with remaps the insertion and their publication are a critical section
    if ← read (fun s => s.registered.isEmpty) then
      mayRaise .insert) .resetInsertion
  modify .resetInsertion

/-! ### Transactions -/

inductive TruncateSite
  | early (pages : Nat)
  | read (pages : Nat) (site : ReadSite)
  deriving DecidableEq

def mapPreloadTruncatePages (done : Nat) : Nat → Raising Owned TruncateSite Unit
  | 0 => return ()
  | pages + 1 => do
    mayRaise (.early done)
    call (.read done) mapReadBuffer
    mapPreloadTruncatePages (done + 1) pages

inductive Op
  | lookup
  | extend (b : Block) (gap : List Block)
  | zeroextend (bs : List Block)
  | write (bs : List Block)
  | insert (attempts : List (List (Block × Plan)))
  /-- `smgrpretruncate` and, in a critical section, `smgrtruncate`. -/
  | truncate (pages : Nat)
  | other

inductive Site
  | lookup (site : ReadSite)
  | extend (b : Block) (site : ExtendSite)
  | zeroextend (site : ZeroextendSite)
  | write (site : WriteSite)
  | insert (site : InsertSite)
  | truncate (site : TruncateSite)
  | other
  deriving DecidableEq

def Op.run : Op → Raising Owned Site Unit
  | .lookup => do
    let _ ← call .lookup mapTryLookup
  | .extend b gap => call (.extend b) (umextend b gap)
  | .zeroextend bs => do
    let _ ← call .zeroextend (umzeroextend bs)
  | .write bs => call .write (umwritev bs)
  | .insert attempts => call .insert (xlogInsert attempts)
  | .truncate pages => do
    call .truncate (mapPreloadTruncatePages 0 pages)
    modify fun s => { s with pins := s.pins - pages }
  | .other => mayRaise .other

def transaction (ops : List Op) : Raising Owned Site Unit := forEach ops Op.run

end Umbra.Abort
