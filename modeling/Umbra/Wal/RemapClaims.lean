import Umbra.Foundation.Raising
import Umbra.Wal.Assemble
import Mathlib.Data.List.Nodup

/-!
# The remap claims of a WAL record

`XLogInsert` may assemble a record several times. The first assembly that gives a block a remap
claims the block; `XLogCommitBlockRemapsUmbra` publishes the remaps of an inserted record, and
`XLogAbortBlockRemapsUmbra` gives back what has not been published. Other backends are seen only
through the arbitrary answers of an attempt.
-/

namespace Umbra.Wal

open Foundation Foundation.Raising

abbrev Block := RelFileLocator × Fin 8 × UInt32

namespace RegisteredBuffer

def key (buf : RegisteredBuffer) : Block := (buf.rlocator, buf.forkno, buf.block)

def withRemap (buf : RegisteredBuffer) (remap : Option (UInt32 × UInt32)) : RegisteredBuffer :=
  { buf with remap := remap }

end RegisteredBuffer

def AssembledBlock.key (blk : AssembledBlock) : Block := (blk.rlocator, blk.forkno, blk.block)

def BlockRemapHeader.pair (h : BlockRemapHeader) : UInt32 × UInt32 := (h.oldPblkno, h.newPblkno)

/-! ### What an insertion owns of a block -/

inductive ClaimEvent
  /-- The insertion makes the claim, or takes over one that the extension of the fork has made;
  `entry` is the MAP entry that has been looked up before. -/
  | claim (entry : UInt32)
  | release
  | commit (old new : UInt32)
  deriving DecidableEq

/-- The remap fields of a registered buffer, and the claim of its block. -/
structure BlockClaim where
  /-- `MapInflightLookupOwnedPblk`. -/
  owned : Option UInt32
  remap : Option (UInt32 × UInt32)
  remapInRecord : Bool
  remapCommitted : Bool
  history : List ClaimEvent

namespace BlockClaim

def registered (owned : Option UInt32) : BlockClaim := ⟨owned, none, false, false, []⟩

def leaveRecord (c : BlockClaim) : BlockClaim := { c with remapInRecord := false }

def claim (entry new : UInt32) (c : BlockClaim) : BlockClaim :=
  { c with owned := some new, history := .claim entry :: c.history }

/-- `MapInflightRelease`: nothing happens without a claim. -/
def release (c : BlockClaim) : BlockClaim :=
  if c.owned.isSome then { c with owned := none, history := .release :: c.history } else c

def setRemap (old new : UInt32) (c : BlockClaim) : BlockClaim :=
  { c with remap := some (old, new), remapCommitted := false }

def commit (c : BlockClaim) : BlockClaim :=
  match c.remap with
  | none => c
  | some (old, new) =>
    if c.remapInRecord then
      { c with owned := none, remapCommitted := true, history := .commit old new :: c.history }
    else c

def abort (c : BlockClaim) : BlockClaim :=
  if c.remap.isSome && !c.remapCommitted then c.release.leaveRecord else c

def reset (c : BlockClaim) : BlockClaim :=
  { c.abort with remap := none, remapInRecord := false, remapCommitted := false }

end BlockClaim

structure InsertState where
  blocks : Block → BlockClaim
  assembled : List (List AssembledBlock)
  record : Option (List AssembledBlock)

namespace InsertState

def start (owned : Block → Option UInt32) : InsertState :=
    ⟨fun b => .registered (owned b), [], none⟩

def modifyBlock (b : Block) (f : BlockClaim → BlockClaim) (s : InsertState) : InsertState :=
  { s with blocks := Function.update s.blocks b (f (s.blocks b)) }

def modifyBlocks (bs : List Block) (f : BlockClaim → BlockClaim) (s : InsertState) : InsertState :=
  bs.foldl (fun s b => s.modifyBlock b f) s

def assemble (blks : List AssembledBlock) (s : InsertState) : InsertState :=
  { s.modifyBlocks ((blks.filter (·.remap.isSome)).map (·.key))
      fun c => { c with remapInRecord := true } with
    assembled := blks :: s.assembled }

def insertRecord (blks : List AssembledBlock) (s : InsertState) : InsertState :=
  { s with record := some blks }

end InsertState

/-! ### Reserving a physical block -/

inductive InsertSite
  | notBegun
  | access (b : Block)
  | lookup (b : Block)
  | reserve (b : Block)
  /-- With the claim, in the `PG_TRY` block of the reservation. -/
  | guarded (b : Block)
  | preallocate (b : Block)
  /-- Another backend has the claim and does not give it back in time, or the reservation fails. -/
  | wait (b : Block)
  | frontier (b : Block)
  | record
  | tooMuchData
  | oversizedRecord
  | insertRecord
  deriving DecidableEq

def InsertSite.isPreallocate : InsertSite → Bool
  | preallocate _ => true
  | _ => false

abbrev Insertion := Raising InsertState InsertSite

def crash {α : Type} : Insertion α := pick []

/-- `MapReserveNextPblkno` behind a lookup that has read `entry`, with the number that the reserved
frontier has. -/
def mapReserveNextPblkno (b : Block) (entry fresh : UInt32) : Insertion (Option UInt32) := do
  match ← read fun s => (s.blocks b).owned with
  | some new =>
    modify (·.modifyBlock b (·.claim entry new))
    return some new
  | none =>
    mayRaise (.reserve b)
    if ← pick [true, false] then
      modify (·.modifyBlock b (·.claim entry fresh))
      let reserved ← onError (do
        mayRaise (.guarded b)
        pick [true, false]) (·.modifyBlock b .release)
      if reserved then
        return some fresh
      else
        modify (·.modifyBlock b .release)
        return none
    else
      return none

def umMapReserveFreshPbkno (b : Block) (fresh : UInt32) : Insertion UInt32 := do
  match ← mapReserveNextPblkno b (.ofNat invalidBlockNumber) fresh with
  | some new =>
    mayRaise (.preallocate b)
    return new
  | none => raise (.wait b)

/-- `MapGetNewPbkno`: the old and the new block. Each turn of its loop finds an entry in MAP and the
reserved frontier; another turn follows if another backend has had the claim. -/
def mapGetNewPbkno (b : Block) : List (UInt32 × UInt32) → Insertion (UInt32 × UInt32)
  | [] => raise (.wait b)
  | (entry, fresh) :: turns => do
    mayRaise (.lookup b)
    match ← mapReserveNextPblkno b entry fresh with
    | some new =>
      mayRaise (.preallocate b)
      return (entry, new)
    | none =>
      mayRaise (.wait b)
      mapGetNewPbkno b turns

/-! ### Assembling -/

/-- What an attempt is told about a block. `getNewPbkno` of the answers is not used: the loop of
`MapGetNewPbkno` has its own turns. -/
structure BlockAnswers extends StorageAnswers where
  newTurns : List (UInt32 × UInt32)

structure Attempt where
  redoRecPtr : Nat
  doPageWrites : Bool
  answers : Block → BlockAnswers

/-- The registered buffers with their ids. `XLogRegisterBuffer` asserts that no block is registered
twice, and resets the remap fields. -/
structure Registration where
  buffers : List (UInt8 × RegisteredBuffer)
  nodup : (buffers.map fun x => x.2.key).Nodup

def Registration.blocks (reg : Registration) : List Block := reg.buffers.map fun x => x.2.key

def InsertContext.atAttempt (ctx : InsertContext) (att : Attempt) : InsertContext :=
  { ctx with redoRecPtr := att.redoRecPtr, doPageWrites := att.doPageWrites }

def prepareBirth (ans : BlockAnswers) (buf : RegisteredBuffer) : Insertion Unit := do
  let remap ← read fun s => (s.blocks buf.key).remap
  if remap.isNone && hasFlag buf.flags regbufLogicalBirth && ans.walOwnedFirstbornAvailable then
    mayRaise (.lookup buf.key)
    if ans.tryLookupPblkno.isNone then
      let new ← umMapReserveFreshPbkno buf.key ans.reserveFreshPbkno
      modify (·.modifyBlock buf.key (·.setRemap (.ofNat invalidBlockNumber) new))

def prepareNew (needsRemap : Bool) (ans : BlockAnswers) (buf : RegisteredBuffer) :
    Insertion Unit := do
  let remap ← read fun s => (s.blocks buf.key).remap
  if remap.isNone && needsRemap then
    let (old, new) ← mapGetNewPbkno buf.key ans.newTurns
    modify (·.modifyBlock buf.key (·.setRemap old new))
    if new = old then
      crash

/-- One turn of the first loop of `XLogRecordAssembleUmbra`, as far as it has effects. -/
def prepareBlock (ctx : InsertContext) (att : Attempt) (buf : RegisteredBuffer) :
    Insertion Unit := do
  modify (·.modifyBlock buf.key .leaveRecord)
  mayRaise (.access buf.key)
  prepareBirth (att.answers buf.key) buf
  prepareNew (needsBackupOrRemap (ctx.atAttempt att) buf (att.answers buf.key).toStorageAnswers).2
    (att.answers buf.key) buf
  mayRaise (.frontier buf.key)

def assembledBlock (ctx : InsertContext) (att : Attempt) (s : InsertState)
    (x : UInt8 × RegisteredBuffer) : Except AssembleError AssembledBlock :=
  let buf := x.2.withRemap (s.blocks x.2.key).remap
  (planBlock (ctx.atAttempt att) buf (att.answers x.2.key).toStorageAnswers).map
    (assembleBlock (ctx.atAttempt att) x.1 buf)

def recordAssemble (ctx : InsertContext) (reg : Registration) (mainData : List UInt8)
    (att : Attempt) : Insertion (List AssembledBlock) := do
  forEach reg.buffers fun x => prepareBlock ctx att x.2
  mayRaise .record
  match ← read fun s => reg.buffers.mapM (assembledBlock ctx att s) with
  | .error _ => crash
  | .ok blks =>
    if 2 ^ 32 ≤ mainData.length then
      raise .tooMuchData
    else if xlogRecordMaxSize < totalLen (ctx.atAttempt att) blks mainData then
      raise .oversizedRecord
    else
      modify (·.assemble blks)
      return blks

/-! ### Inserting -/

/-- `XLogInsertRecord` up to the point where the record is in the log or turns out to be stale; with
`curinsert_has_block_remap` an error in it is a `PANIC`. -/
def tryInsertRecord (blks : List AssembledBlock) : Insertion Unit :=
  if blks.any (·.remap.isSome) then pure () else mayRaise .insertRecord

structure InsertCall where
  ctx : InsertContext
  reg : Registration
  mainData : List UInt8
  begun : Bool
  bootstrap : Bool
  retries : List Attempt
  last : Attempt

namespace InsertCall

def attempt (call : InsertCall) (att : Attempt) : Insertion (List AssembledBlock) := do
  let blks ← recordAssemble call.ctx call.reg call.mainData att
  tryInsertRecord blks
  return blks

def resetInsertion (call : InsertCall) (s : InsertState) : InsertState :=
  s.modifyBlocks call.reg.blocks .reset

/-- In bootstrap mode only the records of `RM_XLOG_ID` go to the log; the others get a phony
pointer. -/
def isPhony (call : InsertCall) : Bool := call.bootstrap && call.ctx.rmid != rmXlogId

def xlogInsert (call : InsertCall) : Insertion Unit := do
  if !call.begun then
    raise .notBegun
  else if call.isPhony then
    modify call.resetInsertion
  else
    onError (do
      forEach call.retries fun att => do
        let _ ← call.attempt att
      let blks ← call.attempt call.last
      modify (·.insertRecord blks)
      -- `XLogCommitBlockRemapsUmbra`, in the critical section
      modify (·.modifyBlocks call.reg.blocks .commit)) call.resetInsertion
    modify call.resetInsertion

end InsertCall

end Umbra.Wal
