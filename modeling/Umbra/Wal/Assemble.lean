import Umbra.Wal.Decode

/-!
# Assembling a WAL record

`XLogRecordAssembleUmbra`: a first loop decides for each registered buffer what the record carries,
a second loop writes the headers and chains the payload. What the storage manager answers, and the
compressor, are parameters.
-/

namespace Umbra.Wal

open Foundation

/-! ### Registered buffers -/

def regbufForceImage : UInt8 := 0x01
def regbufNoImage : UInt8 := 0x02
def regbufWillInit : UInt8 := 0x06
def regbufStandard : UInt8 := 0x08
def regbufKeepData : UInt8 := 0x10
def regbufLogicalBirth : UInt8 := 0x40

def xlrCheckConsistency : UInt8 := 0x02
def rmXlogId : UInt8 := 0
def xlogFpiForHint : UInt8 := 0xA0
def sizeOfPageHeaderData : Nat := 24
def xlogRecordMaxSize : Nat := 1020 * 1024 * 1024

structure Page where
  bytes : List UInt8
  length_eq : bytes.length = blcksz.toNat

namespace Page

def zero : Page := ⟨List.replicate 8192 0, List.length_replicate⟩

/-- `PageGetLSN`: the high half is stored first. -/
def lsn (page : Page) : Nat :=
  headerField page.bytes 0 4 * 2 ^ 32 + headerField page.bytes 4 4

def pdLower (page : Page) : Nat := headerField page.bytes 12 2

def pdUpper (page : Page) : Nat := headerField page.bytes 14 2

end Page

/-- `MAIN_FORKNUM`. -/
abbrev mainForknum : Fin 8 := 0

/-- `registered_buffer`. The data chain is one byte string, of at most `UINT16_MAX` bytes; `remap`
holds the old and the new physical block if an earlier attempt has prepared a remap. -/
structure RegisteredBuffer where
  flags : UInt8
  rlocator : RelFileLocator
  forkno : Fin 8
  block : UInt32
  page : Page
  rdata : List UInt8
  rdata_le : rdata.length < 2 ^ 16
  remap : Option (UInt32 × UInt32)

/-- What the storage manager answers for a registered buffer: `UmWalOwnedRemapAvailable`,
`UmWalOwnedFirstbornAvailable`, `UmMapTryLookupPblkno`, `UmMapReserveFreshPbkno`,
`UmMapGetNewPbkno` (new and old block), and the two superblock counters. -/
structure StorageAnswers where
  walOwnedRemapAvailable : Bool
  walOwnedFirstbornAvailable : Bool
  tryLookupPblkno : Option UInt32
  reserveFreshPbkno : UInt32
  getNewPbkno : UInt32 × UInt32
  logicalNblocks : Option UInt32
  nextFreePhysBlock : Option UInt32

inductive WalCompression
  | pglz
  | lz4
  | zstd
  deriving DecidableEq, Repr

def WalCompression.bit : WalCompression → UInt8
  | pglz => 0x04
  | lz4 => 0x08
  | zstd => 0x10

structure InsertContext where
  rmid : UInt8
  info : UInt8
  /-- `XLogInsert` lets only the bits of the resource manager and two flags through. -/
  info_ok : hasFlag info xlrUmbraRemapFormatMask = false
  redoRecPtr : Nat
  doPageWrites : Bool
  walConsistencyChecking : Bool
  compression : Option (WalCompression × (List UInt8 → Option (List UInt8)))
  origin : Option UInt16
  toplevelXid : Option UInt32
  xid : UInt32
  crc : List UInt8 → UInt32

inductive AssembleError
  | unchangedPblk
  | tooMuchData
  | oversizedRecord
  deriving DecidableEq, Repr

namespace InsertContext

def fullInfo (ctx : InsertContext) : UInt8 :=
  if ctx.walConsistencyChecking then ctx.info ||| xlrCheckConsistency else ctx.info

def checksConsistency (ctx : InsertContext) : Bool := hasFlag ctx.fullInfo xlrCheckConsistency

def isHint (ctx : InsertContext) : Bool := ctx.rmid == rmXlogId && ctx.fullInfo == xlogFpiForHint

end InsertContext

/-! ### The first loop -/

structure BlockPlan where
  needsBackup : Bool
  needsData : Bool
  includeImage : Bool
  remap : Option BlockRemapHeader

def needsBackupOrRemap (ctx : InsertContext) (regbuf : RegisteredBuffer) (ans : StorageAnswers) :
    Bool × Bool :=
  if hasFlag regbuf.flags regbufForceImage then (true, false)
  else if hasFlag regbuf.flags regbufNoImage then (false, false)
  else if !ctx.doPageWrites then (false, false)
  else if !ans.walOwnedRemapAvailable || ctx.isHint then
    (regbuf.page.lsn ≤ ctx.redoRecPtr, false)
  else (false, regbuf.page.lsn ≤ ctx.redoRecPtr)

/-- The remap of a buffer that publishes a logical birth: unless a mapping is there already, it
takes the block that the birth has reserved. -/
def birthRemap (regbuf : RegisteredBuffer) (ans : StorageAnswers) : Option (UInt32 × UInt32) :=
  match regbuf.remap with
  | some remap => some remap
  | none =>
    if hasFlag regbuf.flags regbufLogicalBirth && ans.walOwnedFirstbornAvailable &&
        ans.tryLookupPblkno.isNone then
      some (.ofNat invalidBlockNumber, ans.reserveFreshPbkno)
    else none

def chooseRemap (regbuf : RegisteredBuffer) (ans : StorageAnswers) (needsRemap : Bool) :
    Except AssembleError (Option (UInt32 × UInt32)) :=
  match birthRemap regbuf ans with
  | some remap => .ok (some remap)
  | none =>
    if needsRemap then
      if ans.getNewPbkno.1 = ans.getNewPbkno.2 then .error .unchangedPblk
      else .ok (some (ans.getNewPbkno.2, ans.getNewPbkno.1))
    else .ok none

def fillBlockRemapFrontier (regbuf : RegisteredBuffer) (ans : StorageAnswers)
    (remap : UInt32 × UInt32) : BlockRemapHeader where
  oldPblkno := remap.1
  newPblkno := remap.2
  logicalNblocks :=
    match ans.logicalNblocks with
    | some n => max n (regbuf.block + 1)
    | none => regbuf.block + 1
  nextFreePblkno :=
    match ans.nextFreePhysBlock with
    | some n => max n (remap.2 + 1)
    | none => remap.2 + 1

def planBlock (ctx : InsertContext) (regbuf : RegisteredBuffer) (ans : StorageAnswers) :
    Except AssembleError BlockPlan :=
  (chooseRemap regbuf ans (needsBackupOrRemap ctx regbuf ans).2).map fun remap =>
    { needsBackup := (needsBackupOrRemap ctx regbuf ans).1
      needsData :=
        if regbuf.rdata.length = 0 then false
        else if hasFlag regbuf.flags regbufKeepData then true
        else !(needsBackupOrRemap ctx regbuf ans).1 || remap.isSome
      includeImage :=
        if remap.isSome && !hasFlag regbuf.flags regbufForceImage && !ctx.checksConsistency then
          false
        else (needsBackupOrRemap ctx regbuf ans).1 || ctx.checksConsistency
      remap := remap.map (fillBlockRemapFrontier regbuf ans) }

/-! ### The second loop -/

def pageHole (regbuf : RegisteredBuffer) : UInt16 × UInt16 :=
  if hasFlag regbuf.flags regbufStandard && sizeOfPageHeaderData ≤ regbuf.page.pdLower &&
      regbuf.page.pdLower < regbuf.page.pdUpper && regbuf.page.pdUpper ≤ blcksz.toNat then
    (.ofNat regbuf.page.pdLower, .ofNat (regbuf.page.pdUpper - regbuf.page.pdLower))
  else (0, 0)

def withoutHole (page : Page) (hole : UInt16 × UInt16) : List UInt8 :=
  page.bytes.take hole.1.toNat ++ page.bytes.drop (hole.1.toNat + hole.2.toNat)

/-- `XLogCompressBackupBlock`: the compressed page, if enough is saved. A hole costs two more bytes
of header. -/
def xlogCompressBackupBlock (compress : List UInt8 → Option (List UInt8)) (page : Page)
    (hole : UInt16 × UInt16) : Option (List UInt8) :=
  (compress (withoutHole page hole)).filter fun dest =>
    dest.length + (if hole.2 = 0 then 0 else 2) < blcksz.toNat - hole.2.toNat

structure AssembledImage where
  header : BlockImageHeader
  compressed : Bool
  bytes : List UInt8

def bimgInfo (hasHole apply : Bool) (method : Option WalCompression) : UInt8 :=
  (if hasHole then bkpimageHasHole else 0) ||| (if apply then bkpimageApply else 0) |||
    (method.map WalCompression.bit).getD 0

def compressedImage (regbuf : RegisteredBuffer) (needsBackup : Bool) (method : WalCompression)
    (dest : List UInt8) : AssembledImage where
  header :=
    { bimgLen := .ofNat dest.length
      holeOffset := (pageHole regbuf).1
      bimgInfo := bimgInfo ((pageHole regbuf).2 != 0) needsBackup (some method)
      holeLength := (pageHole regbuf).2 }
  compressed := true
  bytes := dest

def plainImage (regbuf : RegisteredBuffer) (needsBackup : Bool) : AssembledImage where
  header :=
    { bimgLen := blcksz - (pageHole regbuf).2
      holeOffset := (pageHole regbuf).1
      bimgInfo := bimgInfo ((pageHole regbuf).2 != 0) needsBackup none
      holeLength := (pageHole regbuf).2 }
  compressed := false
  bytes := withoutHole regbuf.page (pageHole regbuf)

def assembleImage (ctx : InsertContext) (regbuf : RegisteredBuffer) (needsBackup : Bool) :
    AssembledImage :=
  match ctx.compression with
  | none => plainImage regbuf needsBackup
  | some (method, compress) =>
    match xlogCompressBackupBlock compress regbuf.page (pageHole regbuf) with
    | some dest => compressedImage regbuf needsBackup method dest
    | none => plainImage regbuf needsBackup

structure AssembledBlock where
  blockId : UInt8
  forkno : Fin 8
  willInit : Bool
  remap : Option BlockRemapHeader
  image : Option AssembledImage
  data : Option (List UInt8)
  rlocator : RelFileLocator
  block : UInt32

def assembleBlock (ctx : InsertContext) (blockId : UInt8) (regbuf : RegisteredBuffer)
    (plan : BlockPlan) : AssembledBlock where
  blockId := blockId
  forkno := regbuf.forkno
  willInit := regbuf.flags &&& regbufWillInit == regbufWillInit
  remap := plan.remap
  image := if plan.includeImage then some (assembleImage ctx regbuf plan.needsBackup) else none
  data := if plan.needsData then some regbuf.rdata else none
  rlocator := regbuf.rlocator
  block := regbuf.block

def forkFlags (forkno : Fin 8) (willInit hasRemap hasImage hasData sameRel : Bool) : UInt8 :=
  UInt8.ofNat forkno ||| (if willInit then bkpblockWillInit else 0) |||
    (if hasRemap then bkpblockHasRemap else 0) ||| (if hasImage then bkpblockHasImage else 0) |||
    (if hasData then bkpblockHasData else 0) ||| (if sameRel then bkpblockSameRel else 0)

namespace AssembledBlock

def flags (blk : AssembledBlock) (prev : Option RelFileLocator) : UInt8 :=
  forkFlags blk.forkno blk.willInit blk.remap.isSome blk.image.isSome blk.data.isSome
    (prev == some blk.rlocator)

def dataLength (blk : AssembledBlock) : Nat := (blk.data.map List.length).getD 0

def payloadBytes (blk : AssembledBlock) : List UInt8 :=
  (blk.image.map AssembledImage.bytes).getD [] ++ blk.data.getD []

end AssembledBlock

def encodeRemap (remap : BlockRemapHeader) : List UInt8 :=
  toLE 4 remap.oldPblkno.toNat ++ (toLE 4 remap.newPblkno.toNat ++
    (toLE 4 remap.logicalNblocks.toNat ++ toLE 4 remap.nextFreePblkno.toNat))

def encodeImage (img : AssembledImage) : List UInt8 :=
  toLE 2 img.header.bimgLen.toNat ++ (toLE 2 img.header.holeOffset.toNat ++
    (toLE 1 img.header.bimgInfo.toNat ++
      if img.header.holeLength ≠ 0 ∧ img.compressed then toLE 2 img.header.holeLength.toNat
      else []))

def encodeRlocator (rlocator : RelFileLocator) : List UInt8 :=
  toLE 4 rlocator.spcOid.toNat ++ (toLE 4 rlocator.dbOid.toNat ++ toLE 4 rlocator.relNumber.toNat)

def encodeBlock (prev : Option RelFileLocator) (blk : AssembledBlock) : List UInt8 :=
  toLE 1 (blk.flags prev).toNat ++ (toLE 2 blk.dataLength ++
    ((blk.remap.map encodeRemap).getD [] ++ ((blk.image.map encodeImage).getD [] ++
      ((if prev = some blk.rlocator then [] else encodeRlocator blk.rlocator) ++
        toLE 4 blk.block.toNat))))

def encodeBlocks : Option RelFileLocator → List AssembledBlock → List UInt8
  | _, [] => []
  | prev, blk :: blks =>
    toLE 1 blk.blockId.toNat ++ encodeBlock prev blk ++ encodeBlocks (some blk.rlocator) blks

def encodeMainHeader (mainLen : Nat) : List UInt8 :=
  if mainLen = 0 then []
  else if 255 < mainLen then xlrBlockIdDataLong :: toLE 4 mainLen
  else xlrBlockIdDataShort :: toLE 1 mainLen

def encodeTrailer (ctx : InsertContext) (mainLen : Nat) : List UInt8 :=
  (ctx.origin.map fun origin => xlrBlockIdOrigin :: toLE 2 origin.toNat).getD [] ++
    ((ctx.toplevelXid.map fun xid => xlrBlockIdToplevelXid :: toLE 4 xid.toNat).getD [] ++
      encodeMainHeader mainLen)

def encodeHeader (hdr : XLogRecord) : List UInt8 :=
  toLE 4 hdr.totLen.toNat ++ (toLE 4 hdr.xid.toNat ++ (toLE 8 hdr.prev.toNat ++
    (toLE 1 hdr.info.toNat ++ (toLE 1 hdr.rmid.toNat ++ (toLE 2 0 ++ toLE 4 hdr.crc.toNat)))))

/-- A registered buffer with the answers it gets; `none` is a slot that is not in use. -/
abbrev BufferSlot := Option (RegisteredBuffer × StorageAnswers)

/-- The registered buffers of an insertion; `XLogEnsureRecordSpace` bounds the block ids. -/
structure RegisteredBuffers where
  slots : List BufferSlot
  length_le : slots.length ≤ xlrMaxBlockId.toNat + 1

def assembleBlocks (ctx : InsertContext) :
    Nat → List BufferSlot → Except AssembleError (List AssembledBlock)
  | _, [] => .ok []
  | blockId, none :: slots => assembleBlocks ctx (blockId + 1) slots
  | blockId, some (regbuf, ans) :: slots => do
    let plan ← planBlock ctx regbuf ans
    let blks ← assembleBlocks ctx (blockId + 1) slots
    pure (assembleBlock ctx (.ofNat blockId) regbuf plan :: blks)

def encodeHeaders (ctx : InsertContext) (blks : List AssembledBlock) (mainData : List UInt8) :
    List UInt8 :=
  encodeBlocks none blks ++ encodeTrailer ctx mainData.length

def encodePayload (blks : List AssembledBlock) (mainData : List UInt8) : List UInt8 :=
  (blks.map AssembledBlock.payloadBytes).flatten ++ mainData

def totalLen (ctx : InsertContext) (blks : List AssembledBlock) (mainData : List UInt8) : Nat :=
  sizeOfXLogRecord + (encodeHeaders ctx blks mainData).length +
    (encodePayload blks mainData).length

def xlogRecordAssembleUmbra (ctx : InsertContext) (buffers : RegisteredBuffers)
    (mainData : List UInt8) : Except AssembleError (List UInt8) := do
  let blks ← assembleBlocks ctx 0 buffers.slots
  if 2 ^ 32 ≤ mainData.length then throw .tooMuchData
  else if xlogRecordMaxSize < totalLen ctx blks mainData then throw .oversizedRecord
  else
    pure (encodeHeader
        { totLen := .ofNat (totalLen ctx blks mainData)
          xid := ctx.xid
          prev := 0
          info := ctx.fullInfo
          rmid := ctx.rmid
          crc := ctx.crc (encodeHeaders ctx blks mainData ++ encodePayload blks mainData) } ++
      (encodeHeaders ctx blks mainData ++ encodePayload blks mainData))

def headerScratchSize : Nat :=
  sizeOfXLogRecord + (4 + 16 + 5 + 2 + 12 + 4) * (xlrMaxBlockId.toNat + 1) + 5 + 3 + 5

end Umbra.Wal
