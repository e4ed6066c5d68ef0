import Umbra.Basic
import Umbra.Foundation.Reader

/-!
# The WAL record decoder

`DecodeXLogRecord` with the remap headers of the storage manager. The fixed header is read from the
first 24 bytes, and the remaining fields follow without padding. The fields of the C structures keep
their widths, so the accumulated payload length `datatotal` wraps as in the source.
-/

namespace Umbra.Wal

open Foundation Reader

/-! ### The record format -/

def sizeOfXLogRecord : Nat := 24
def xlrMaxBlockId : UInt8 := 32
def xlrBlockIdDataShort : UInt8 := 255
def xlrBlockIdDataLong : UInt8 := 254
def xlrBlockIdOrigin : UInt8 := 253
def xlrBlockIdToplevelXid : UInt8 := 252

def bkpblockForkMask : UInt8 := 0x07
def bkpblockHasRemap : UInt8 := 0x08
def bkpblockHasImage : UInt8 := 0x10
def bkpblockHasData : UInt8 := 0x20
def bkpblockWillInit : UInt8 := 0x40
def bkpblockSameRel : UInt8 := 0x80

def bkpimageHasHole : UInt8 := 0x01
def bkpimageApply : UInt8 := 0x02
def bkpimageCompressMask : UInt8 := 0x1C

def xlrUmbraRemapFormatMask : UInt8 := 0x0C
def blcksz : UInt16 := 8192

structure XLogRecord where
  totLen : UInt32
  xid : UInt32
  prev : UInt64
  info : UInt8
  rmid : UInt8
  crc : UInt32
  deriving DecidableEq, Repr

structure BlockRemapHeader where
  oldPblkno : UInt32
  newPblkno : UInt32
  logicalNblocks : UInt32
  nextFreePblkno : UInt32
  deriving DecidableEq, Repr

structure BlockImageHeader where
  bimgLen : UInt16
  holeOffset : UInt16
  bimgInfo : UInt8
  holeLength : UInt16
  deriving DecidableEq, Repr

/-- `DecodedBkpBlock` without the copied contents. The optional headers are there if the flag is
set. -/
structure DecodedBkpBlock where
  blockId : UInt8
  flags : UInt8
  dataLen : UInt16
  remap : Option BlockRemapHeader
  image : Option BlockImageHeader
  rlocator : RelFileLocator
  blkno : UInt32
  deriving DecidableEq, Repr

def hasFlag (flags flag : UInt8) : Bool := flags &&& flag != 0

namespace DecodedBkpBlock

def forknum (blk : DecodedBkpBlock) : UInt8 := blk.flags &&& bkpblockForkMask

def bimgLen (blk : DecodedBkpBlock) : Nat := (blk.image.map fun img => img.bimgLen.toNat).getD 0

def payload (blk : DecodedBkpBlock) : Nat := blk.bimgLen + blk.dataLen.toNat

end DecodedBkpBlock

/-! ### Errors -/

/-- The ways in which a record is rejected, with the values of the message. -/
inductive DecodeError
  | outOfOrderBlockId (blockId : UInt8)
  | hasDataSet
  | hasDataNotSet (dataLen : UInt16)
  | unsupportedRemapFormat (bits : UInt8)
  | hasHoleSet (holeOffset holeLength bimgLen : UInt16)
  | hasHoleNotSet (holeOffset holeLength : UInt16)
  | compressedSet (bimgLen : UInt16)
  | neitherSet (dataLen : UInt16)
  | sameRelSet
  | invalidBlockId (blockId : UInt8)
  | invalidLength
  deriving DecidableEq, Repr

/-! ### The header fields -/

abbrev Decoder := Reader DecodeError

/-- `COPY_HEADER_FIELD`, for the widths that occur. -/
def copyUInt8 : Decoder UInt8 := UInt8.ofNat <$> field .invalidLength 1

@[inherit_doc copyUInt8]
def copyUInt16 : Decoder UInt16 := UInt16.ofNat <$> field .invalidLength 2

@[inherit_doc copyUInt8]
def copyUInt32 : Decoder UInt32 := UInt32.ofNat <$> field .invalidLength 4

def decodeRemap (info flags : UInt8) : Decoder (Option BlockRemapHeader) :=
  if hasFlag flags bkpblockHasRemap then do
    check (hasFlag info xlrUmbraRemapFormatMask)
      (.unsupportedRemapFormat (info &&& xlrUmbraRemapFormatMask))
    let oldPblkno ← copyUInt32
    let newPblkno ← copyUInt32
    let logicalNblocks ← copyUInt32
    let nextFreePblkno ← copyUInt32
    pure (some ⟨oldPblkno, newPblkno, logicalNblocks, nextFreePblkno⟩)
  else pure none

/-- The length of the hole: stored for a compressed image with a hole, otherwise what is missing. -/
def decodeHoleLength (bimgLen : UInt16) (bimgInfo : UInt8) : Decoder UInt16 :=
  if hasFlag bimgInfo bkpimageCompressMask then
    if hasFlag bimgInfo bkpimageHasHole then copyUInt16 else pure 0
  else pure (blcksz - bimgLen)

/-- The cross-checks of an image header. The last message prints the data length. -/
def checkImage (dataLen : UInt16) (img : BlockImageHeader) : Decoder Unit := do
  check (hasFlag img.bimgInfo bkpimageHasHole &&
      (img.holeOffset == 0 || img.holeLength == 0 || img.bimgLen == blcksz))
    (.hasHoleSet img.holeOffset img.holeLength img.bimgLen)
  check (!hasFlag img.bimgInfo bkpimageHasHole && (img.holeOffset != 0 || img.holeLength != 0))
    (.hasHoleNotSet img.holeOffset img.holeLength)
  check (hasFlag img.bimgInfo bkpimageCompressMask && img.bimgLen == blcksz)
    (.compressedSet img.bimgLen)
  check (!hasFlag img.bimgInfo bkpimageHasHole && !hasFlag img.bimgInfo bkpimageCompressMask &&
      img.bimgLen != blcksz)
    (.neitherSet dataLen)

def decodeImage (flags : UInt8) (dataLen : UInt16) : Decoder (Option BlockImageHeader) :=
  if hasFlag flags bkpblockHasImage then do
    let bimgLen ← copyUInt16
    let holeOffset ← copyUInt16
    let bimgInfo ← copyUInt8
    let holeLength ← decodeHoleLength bimgLen bimgInfo
    checkImage dataLen ⟨bimgLen, holeOffset, bimgInfo, holeLength⟩
    pure (some ⟨bimgLen, holeOffset, bimgInfo, holeLength⟩)
  else pure none

def decodeRlocator (flags : UInt8) (prev : Option RelFileLocator) : Decoder RelFileLocator :=
  if hasFlag flags bkpblockSameRel then
    match prev with
    | none => throw .sameRelSet
    | some rlocator => pure rlocator
  else do
    let spcOid ← copyUInt32
    let dbOid ← copyUInt32
    let relNumber ← copyUInt32
    pure ⟨spcOid, dbOid, relNumber⟩

def decodeBlock (info : UInt8) (maxBlockId : Option UInt8) (prev : Option RelFileLocator)
    (blockId : UInt8) : Decoder DecodedBkpBlock := do
  check (maxBlockId.any fun m => blockId ≤ m) (.outOfOrderBlockId blockId)
  let flags ← copyUInt8
  let dataLen ← copyUInt16
  check (hasFlag flags bkpblockHasData && dataLen == 0) .hasDataSet
  check (!hasFlag flags bkpblockHasData && dataLen != 0) (.hasDataNotSet dataLen)
  let remap ← decodeRemap info flags
  let image ← decodeImage flags dataLen
  let rlocator ← decodeRlocator flags prev
  let blkno ← copyUInt32
  pure ⟨blockId, flags, dataLen, remap, image, rlocator, blkno⟩

/-! ### The header loop -/

structure Headers where
  datatotal : UInt32
  rlocator : Option RelFileLocator
  blocks : List DecodedBkpBlock
  recordOrigin : UInt16
  toplevelXid : UInt32
  mainDataLen : UInt32
  deriving DecidableEq, Repr

namespace Headers

def start : Headers := ⟨0, none, [], 0, 0, 0⟩

def maxBlockId (s : Headers) : Option UInt8 := s.blocks.getLast?.map DecodedBkpBlock.blockId

def mainData (s : Headers) (len : UInt32) : Headers :=
  { s with mainDataLen := len, datatotal := s.datatotal + len }

def block (s : Headers) (blk : DecodedBkpBlock) : Headers :=
  { s with
    datatotal := s.datatotal + blk.dataLen.toUInt32 +
      (blk.image.map fun img => img.bimgLen.toUInt32).getD 0
    rlocator := some blk.rlocator
    blocks := s.blocks ++ [blk] }

/-- The bytes that the headers declare behind them, as an unbounded number. -/
def declared (s : Headers) : Nat :=
  (s.blocks.map DecodedBkpBlock.payload).sum + s.mainDataLen.toNat

end Headers

/-- One turn of the loop. It returns whether the loop goes on; the main data header ends it. -/
def decodeFragment (info : UInt8) (s : Headers) : Decoder (Bool × Headers) := do
  let blockId ← copyUInt8
  if blockId = xlrBlockIdDataShort then do
    let len ← copyUInt8
    pure (false, s.mainData len.toUInt32)
  else if blockId = xlrBlockIdDataLong then do
    let len ← copyUInt32
    pure (false, s.mainData len)
  else if blockId = xlrBlockIdOrigin then do
    let origin ← copyUInt16
    pure (true, { s with recordOrigin := origin })
  else if blockId = xlrBlockIdToplevelXid then do
    let xid ← copyUInt32
    pure (true, { s with toplevelXid := xid })
  else if blockId ≤ xlrMaxBlockId then do
    let blk ← decodeBlock info s.maxBlockId s.rlocator blockId
    pure (true, s.block blk)
  else throw (.invalidBlockId blockId)

/-- The loop `while (remaining > datatotal)` over the rest `ptr` of the record, with a bound on its
turns; `none` if the bound is too small. -/
def decodeFragments (info : UInt8) :
    Nat → Headers → List UInt8 → Option (Except DecodeError (Headers × List UInt8))
  | 0, _, _ => none
  | fuel + 1, s, ptr =>
    if s.datatotal.toNat < ptr.length then
      match decodeFragment info s ptr with
      | .error e => some (.error e)
      | .ok ((true, s), ptr) => decodeFragments info fuel s ptr
      | .ok ((false, s), ptr) => some (.ok (s, ptr))
    else some (.ok (s, ptr))

/-! ### Copying the payload -/

def maxalign (n : Nat) : Nat := (n + 7) / 8 * 8

/-- The offset in the record, the offset in the output, and the copies so far (offset and length).
-/
structure CopyLoop where
  ptr : Nat
  out : Nat
  copies : List (Nat × Nat)

def CopyLoop.copy (s : CopyLoop) (len : Nat) : CopyLoop :=
  ⟨s.ptr + len, s.out + len, s.copies ++ [(s.ptr, len)]⟩

def CopyLoop.align (s : CopyLoop) : CopyLoop := { s with out := maxalign s.out }

def CopyLoop.image (s : CopyLoop) (blk : DecodedBkpBlock) : CopyLoop :=
  if blk.image.isSome then s.copy blk.bimgLen else s

def CopyLoop.data (s : CopyLoop) (blk : DecodedBkpBlock) : CopyLoop :=
  if hasFlag blk.flags bkpblockHasData then s.align.copy blk.dataLen.toNat else s

def CopyLoop.block (s : CopyLoop) (blk : DecodedBkpBlock) : CopyLoop := (s.image blk).data blk

def CopyLoop.main (s : CopyLoop) (len : Nat) : CopyLoop :=
  if 0 < len then s.align.copy len else s

def slice (record : List UInt8) (offset len : Nat) : List UInt8 := (record.drop offset).take len

structure BlockContents where
  block : DecodedBkpBlock
  image : Option (List UInt8)
  data : Option (List UInt8)
  deriving DecidableEq, Repr

def blockContents (record : List UInt8) (ptr : Nat) (blk : DecodedBkpBlock) : BlockContents where
  block := blk
  image := blk.image.map fun _ => slice record ptr blk.bimgLen
  data :=
    if hasFlag blk.flags bkpblockHasData then
      some (slice record (ptr + blk.bimgLen) blk.dataLen.toNat)
    else none

def copyBlocks (record : List UInt8) : CopyLoop → List DecodedBkpBlock → List BlockContents
  | _, [] => []
  | s, blk :: blks => blockContents record s.ptr blk :: copyBlocks record (s.block blk) blks

/-! ### The decoder -/

structure Layout where
  offsetofBlocks : Nat
  sizeofBlock : Nat

structure DecodedXLogRecord where
  header : XLogRecord
  recordOrigin : UInt16
  toplevelXid : UInt32
  blocks : List BlockContents
  mainData : List UInt8
  copies : List (Nat × Nat)
  size : Nat

def headerField (record : List UInt8) (offset len : Nat) : Nat := leNat (slice record offset len)

def decodeHeader (record : List UInt8) : XLogRecord where
  totLen := .ofNat (headerField record 0 4)
  xid := .ofNat (headerField record 4 4)
  prev := .ofNat (headerField record 8 8)
  info := .ofNat (headerField record 16 1)
  rmid := .ofNat (headerField record 17 1)
  crc := .ofNat (headerField record 20 4)

def Headers.numBlocks (s : Headers) : Nat := (s.maxBlockId.map fun id => id.toNat + 1).getD 0

def CopyLoop.start (layout : Layout) (ptr : Nat) (s : Headers) : CopyLoop :=
  ⟨ptr, layout.offsetofBlocks + layout.sizeofBlock * s.numBlocks, []⟩

def copyAll (layout : Layout) (ptr : Nat) (s : Headers) : CopyLoop :=
  (s.blocks.foldl CopyLoop.block (.start layout ptr s)).main s.mainDataLen.toNat

def decodePayload (layout : Layout) (record : List UInt8) (ptr : Nat) (s : Headers) :
    DecodedXLogRecord where
  header := decodeHeader record
  recordOrigin := s.recordOrigin
  toplevelXid := s.toplevelXid
  blocks := copyBlocks record (.start layout ptr s) s.blocks
  mainData := slice record (s.blocks.foldl CopyLoop.block (.start layout ptr s)).ptr
    s.mainDataLen.toNat
  copies := (copyAll layout ptr s).copies
  size := maxalign (copyAll layout ptr s).out

def decodeHeaders (record : List UInt8) : Option (Except DecodeError (Headers × List UInt8)) :=
  (decodeFragments (decodeHeader record).info (record.length + 1) .start
    (record.drop sizeOfXLogRecord)).map fun r => r.bind fun (s, ptr) =>
      if ptr.length = s.datatotal.toNat then .ok (s, ptr) else .error .invalidLength

def decodeXLogRecord (layout : Layout) (record : List UInt8) :
    Option (Except DecodeError DecodedXLogRecord) :=
  (decodeHeaders record).map fun r => r.map fun (s, ptr) =>
    decodePayload layout record (record.length - ptr.length) s

def decodeXLogRecordRequiredSpace (layout : Layout) (totLen : Nat) : Nat :=
  layout.offsetofBlocks + layout.sizeofBlock * (xlrMaxBlockId.toNat + 1) + totLen + 7 +
    7 * (xlrMaxBlockId.toNat + 1) + 7

end Umbra.Wal
