import Umbra.Wal.Assemble
import Umbra.Wal.DecoderSafety

/-!
# The decoder reads what the assembler writes

Each part of the assembled headers is read back by the matching part of the decoder, field by
field; the header loop then collects the block references one after the other, and the copying
loop finds their payload in the order in which it was chained.
-/

namespace Umbra.Wal

open Foundation Reader AssembledBlock List Nat

/-! ### Fields -/

lemma parses_copyUInt8 (v) : Parses copyUInt8 (toLE 1 v.toNat) v := by
  have := (Parses.field (e := DecodeError.invalidLength) (n := 1) v.toNat_lt).map (g := UInt8.ofNat)
  rwa [UInt8.ofNat_toNat] at this

lemma parses_singleton (v) : Parses copyUInt8 [v] v := by
  have := parses_copyUInt8 v
  rwa [toLE, toLE, UInt8.ofNat_toNat] at this

variable {n : Nat} {flags info : UInt8} {blk : AssembledBlock} {regbuf : RegisteredBuffer}

lemma parses_copyUInt16_ofNat (h : n < 2 ^ 16) : Parses copyUInt16 (toLE 2 n) (.ofNat n) :=
  (Parses.field (e := DecodeError.invalidLength) (n := 2) h).map

lemma parses_copyUInt16 (v) : Parses copyUInt16 (toLE 2 v.toNat) v := by
  have := parses_copyUInt16_ofNat v.toNat_lt
  rwa [UInt16.ofNat_toNat] at this

lemma parses_copyUInt32_ofNat (h : n < 2 ^ 32) : Parses copyUInt32 (toLE 4 n) (.ofNat n) :=
  (Parses.field (e := DecodeError.invalidLength) (n := 4) h).map

lemma parses_copyUInt32 (v) : Parses copyUInt32 (toLE 4 v.toNat) v := by
  have := parses_copyUInt32_ofNat v.toNat_lt
  rwa [UInt32.ofNat_toNat] at this

/-! ### Flags -/

lemma forkFlags_spec : ∀ (forkno : Fin 8) (willInit hasRemap hasImage hasData sameRel : Bool),
    let flags := forkFlags forkno willInit hasRemap hasImage hasData sameRel
    hasFlag flags bkpblockWillInit = willInit ∧ hasFlag flags bkpblockHasRemap = hasRemap ∧
      hasFlag flags bkpblockHasImage = hasImage ∧ hasFlag flags bkpblockHasData = hasData ∧
      hasFlag flags bkpblockSameRel = sameRel ∧
      flags &&& bkpblockForkMask = UInt8.ofNat forkno := by
  decide

lemma bimgInfo_spec (hasHole apply : Bool) (method) :
    hasFlag (bimgInfo hasHole apply method) bkpimageHasHole = hasHole ∧
      hasFlag (bimgInfo hasHole apply method) bkpimageApply = apply ∧
      hasFlag (bimgInfo hasHole apply method) bkpimageCompressMask = method.isSome := by
  cases method with
  | none => cases hasHole <;> cases apply <;> decide
  | some method => cases hasHole <;> cases apply <;> cases method <;> decide

/-! ### Images -/

structure ImageOk (img : AssembledImage) : Prop where
  length : img.bytes.length = img.header.bimgLen.toNat
  compressed : hasFlag img.header.bimgInfo bkpimageCompressMask = img.compressed
  hole : hasFlag img.header.bimgInfo bkpimageHasHole = (img.header.holeLength != 0)
  offset : img.header.holeOffset = 0 ↔ img.header.holeLength = 0
  full : img.header.bimgLen = blcksz → img.header.holeLength = 0 ∧ img.compressed = false
  plain : img.compressed = false → img.header.holeLength = blcksz - img.header.bimgLen

lemma pageHole_spec (regbuf) :
    ((pageHole regbuf).1 = 0 ↔ (pageHole regbuf).2 = 0) ∧
      (pageHole regbuf).1.toNat + (pageHole regbuf).2.toNat ≤ blcksz.toNat := by
  rw [pageHole]
  split_ifs with h
  · simp only [Bool.and_eq_true, decide_eq_true_eq] at h
    have hb : blcksz.toNat = 8192 := rfl
    have hh : sizeOfPageHeaderData = 24 := rfl
    have hlower : regbuf.page.pdLower % 2 ^ 16 = regbuf.page.pdLower :=
      mod_eq_of_lt (by omega)
    have hlen : (regbuf.page.pdUpper - regbuf.page.pdLower) % 2 ^ 16 =
        regbuf.page.pdUpper - regbuf.page.pdLower := mod_eq_of_lt (by omega)
    simp only [← UInt16.toNat_inj, UInt16.toNat_ofNat', hlower, hlen, UInt16.toNat_zero]
    omega
  · exact ⟨Iff.rfl, zero_le _⟩

lemma length_withoutHole (page) {hole} (h : hole.1.toNat + hole.2.toNat ≤ blcksz.toNat) :
    (withoutHole page hole).length = blcksz.toNat - hole.2.toNat := by
  rw [withoutHole, length_append, length_take, length_drop, page.length_eq]
  omega

lemma toNat_blcksz_sub {v} (h : v.toNat ≤ blcksz.toNat) :
    (blcksz - v).toNat = blcksz.toNat - v.toNat :=
  UInt16.toNat_sub_of_le _ _ (UInt16.le_iff_toNat_le.mpr h)

lemma imageOk_plainImage (regbuf needsBackup) : ImageOk (plainImage regbuf needsBackup) := by
  obtain ⟨hoffset, hbound⟩ := pageHole_spec regbuf
  obtain ⟨hhole, -, hmask⟩ := bimgInfo_spec ((pageHole regbuf).2 != 0) needsBackup none
  have hle : (pageHole regbuf).2.toNat ≤ blcksz.toNat := le_trans (le_add_left _ _) hbound
  have hsub := toNat_blcksz_sub hle
  refine ⟨?_, hmask, hhole, hoffset, ?_, fun _ => ?_⟩
  · rw [plainImage, length_withoutHole _ hbound, hsub]
  · intro hfull
    have hzero : (pageHole regbuf).2.toNat = 0 := by
      have := hsub.symm.trans (congrArg UInt16.toNat hfull)
      omega
    exact ⟨UInt16.toNat_inj.mp hzero, rfl⟩
  · have hback := toNat_blcksz_sub (v := blcksz - (pageHole regbuf).2) (by rw [hsub]; omega)
    rw [hsub, Nat.sub_sub_self hle] at hback
    exact UInt16.toNat_inj.mp hback.symm

lemma imageOk_compressedImage {compress dest}
    (h : xlogCompressBackupBlock compress regbuf.page (pageHole regbuf) = some dest)
    (needsBackup method) : ImageOk (compressedImage regbuf needsBackup method dest) := by
  obtain ⟨hoffset, -⟩ := pageHole_spec regbuf
  obtain ⟨hhole, -, hmask⟩ := bimgInfo_spec ((pageHole regbuf).2 != 0) needsBackup (some method)
  have hlt : dest.length < blcksz.toNat := by
    obtain ⟨-, hsaved⟩ := Option.filter_eq_some_iff.mp h
    rw [decide_eq_true_eq] at hsaved
    omega
  have hmod : (UInt16.ofNat dest.length).toNat = dest.length := by
    exact mod_eq_of_lt (hlt.trans (by decide))
  refine ⟨hmod.symm, hmask, hhole, hoffset, fun hfull => ?_, nofun⟩
  have := hmod.symm.trans (congrArg UInt16.toNat hfull)
  omega

lemma imageOk_assembleImage (ctx regbuf needsBackup) :
    ImageOk (assembleImage ctx regbuf needsBackup) := by
  rw [assembleImage]
  split
  · exact imageOk_plainImage regbuf needsBackup
  · split
    · rename_i hcompress
      exact imageOk_compressedImage hcompress needsBackup _
    · exact imageOk_plainImage regbuf needsBackup

lemma ImageOk.parses_checkImage {img} (h : ImageOk img) (dataLen) :
    Parses (checkImage dataLen img.header) [] () := by
  have hfull : img.header.bimgLen = blcksz → img.header.holeLength = 0 := fun hf => (h.full hf).1
  rw [checkImage, h.hole, h.compressed]
  refine (Parses.check ?_).bind_nil ((Parses.check ?_).bind_nil
    ((Parses.check ?_).bind_nil (.check ?_)))
  · by_cases hz : img.header.holeLength = 0
    · simp [hz]
    · simp [hz, mt h.offset.mp hz, mt hfull hz]
  · by_cases hz : img.header.holeLength = 0
    · simp [hz, h.offset.mpr hz]
    · simp [hz]
  · by_cases hf : img.header.bimgLen = blcksz
    · simp [hf, (h.full hf).2]
    · simp [hf]
  · cases hc : img.compressed with
    | true => simp
    | false =>
      -- without a hole nothing is missing
      by_cases hz : img.header.holeLength = 0
      · have hlen : blcksz - img.header.bimgLen = 0 := (h.plain hc).symm.trans hz
        have hfull : img.header.bimgLen = blcksz := by
          rw [← UInt16.sub_add_cancel blcksz img.header.bimgLen, hlen, UInt16.zero_add]
        simp [hz, hfull]
      · simp [hz]

lemma parses_decodeImage {image : Option AssembledImage}
    (hflag : hasFlag flags bkpblockHasImage = image.isSome) (h : ∀ img ∈ image, ImageOk img)
    (dataLen) : Parses (decodeImage flags dataLen) ((image.map encodeImage).getD [])
      (image.map AssembledImage.header) := by
  cases image with
  | none =>
    rw [decodeImage, hflag]
    exact .pure none
  | some img =>
    have hok := h img rfl
    rw [decodeImage, hflag]
    have hhole : Parses (decodeHoleLength img.header.bimgLen img.header.bimgInfo)
        (if img.header.holeLength ≠ 0 ∧ img.compressed then toLE 2 img.header.holeLength.toNat
          else []) img.header.holeLength := by
      rw [decodeHoleLength, hok.compressed, hok.hole]
      cases hc : img.compressed with
      | false =>
        have := hok.plain hc
        simpa [← this] using Parses.pure img.header.holeLength
      | true =>
        by_cases hz : img.header.holeLength = 0
        · simpa [hz] using Parses.pure (0 : UInt16)
        · simpa [hz] using parses_copyUInt16 img.header.holeLength
    refine (parses_copyUInt16 _).bind ((parses_copyUInt16 _).bind ((parses_copyUInt8 _).bind ?_))
    exact hhole.bind_last ((hok.parses_checkImage dataLen).bind_nil (.pure _))

/-! ### Block references -/

lemma parses_decodeRemap {remap} (hinfo : hasFlag info xlrUmbraRemapFormatMask = false)
    (hflag : hasFlag flags bkpblockHasRemap = remap.isSome) :
    Parses (decodeRemap info flags) ((remap.map encodeRemap).getD []) remap := by
  cases remap with
  | none =>
    rw [decodeRemap, hflag]
    exact .pure none
  | some remap =>
    rw [decodeRemap, hflag]
    refine (Parses.check hinfo).bind_nil ?_
    refine (parses_copyUInt32 _).bind ((parses_copyUInt32 _).bind ((parses_copyUInt32 _).bind ?_))
    exact (parses_copyUInt32 _).bind_last (.pure (some remap))

lemma parses_decodeRlocator {prev rlocator}
    (hflag : hasFlag flags bkpblockSameRel = (prev == some rlocator)) :
    Parses (decodeRlocator flags prev)
      (if prev = some rlocator then [] else encodeRlocator rlocator) rlocator := by
  rw [decodeRlocator.eq_def, hflag]
  by_cases hprev : prev = some rlocator
  · rw [hprev]
    simpa using Parses.pure rlocator
  · simp only [beq_eq_false_iff_ne.mpr hprev, hprev, Bool.false_eq_true, if_false]
    refine (parses_copyUInt32 _).bind ((parses_copyUInt32 _).bind ?_)
    exact (parses_copyUInt32 _).bind_last (.pure rlocator)

structure BlockOk (blk : AssembledBlock) : Prop where
  blockId : blk.blockId ≤ xlrMaxBlockId
  image : ∀ img ∈ blk.image, ImageOk img
  data : ∀ data ∈ blk.data, data ≠ [] ∧ data.length < 2 ^ 16

def AssembledBlock.decoded (blk : AssembledBlock) (prev : Option RelFileLocator) :
    DecodedBkpBlock where
  blockId := blk.blockId
  flags := blk.flags prev
  dataLen := .ofNat blk.dataLength
  remap := blk.remap
  image := blk.image.map AssembledImage.header
  rlocator := blk.rlocator
  blkno := blk.block

lemma BlockOk.dataLength_lt (h : BlockOk blk) : blk.dataLength < 2 ^ 16 := by
  rw [dataLength]
  cases hd : blk.data with
  | none => exact Nat.two_pow_pos 16
  | some data => exact (h.data data hd).2

lemma BlockOk.dataLength_eq_zero (h : BlockOk blk) :
    (UInt16.ofNat blk.dataLength = 0) ↔ blk.data.isSome = false := by
  rw [← UInt16.toNat_inj, UInt16.toNat_ofNat', UInt16.toNat_zero,
    mod_eq_of_lt h.dataLength_lt, dataLength]
  cases hd : blk.data with
  | none => simp
  | some data => simp [(h.data data hd).1]

lemma parses_decodeBlock (hinfo : hasFlag info xlrUmbraRemapFormatMask = false) {maxBlockId}
    (h : BlockOk blk) (horder : ∀ m ∈ maxBlockId, m < blk.blockId) (prev) :
    Parses (decodeBlock info maxBlockId prev blk.blockId) (encodeBlock prev blk)
      (blk.decoded prev) := by
  obtain ⟨-, hremap, himage, hdata, hsame, -⟩ := forkFlags_spec blk.forkno blk.willInit
    blk.remap.isSome blk.image.isSome blk.data.isSome (prev == some blk.rlocator)
  have hid : (maxBlockId.any fun m => blk.blockId ≤ m) = false := by
    cases maxBlockId with
    | none => rfl
    | some m => simpa using horder m rfl
  refine (Parses.check hid).bind_nil ((parses_copyUInt8 _).bind
    ((parses_copyUInt16_ofNat h.dataLength_lt).bind ?_))
  refine (Parses.check ?_).bind_nil ((Parses.check ?_).bind_nil ?_)
  · rw [flags, hdata]
    cases hd : blk.data.isSome with
    | false => rfl
    | true => simp [h.dataLength_eq_zero, hd]
  · rw [flags, hdata]
    cases hd : blk.data.isSome with
    | false => simp [h.dataLength_eq_zero.mpr hd]
    | true => rfl
  · refine (parses_decodeRemap hinfo hremap).bind ?_
    refine (parses_decodeImage himage h.image _).bind ?_
    exact (parses_decodeRlocator hsame).bind ((parses_copyUInt32 _).bind_last (.pure _))

/-! ### The header loop -/

def Decodes (info : UInt8) (s : Headers) (ptr : List UInt8)
    (r : Except DecodeError (Headers × List UInt8)) : Prop :=
  ∃ fuel, decodeFragments info fuel s ptr = some r

lemma decodeFragments_mono {s ptr r m} (h : decodeFragments info n s ptr = some r) (hle : n ≤ m) :
    decodeFragments info m s ptr = some r := by
  induction n generalizing s ptr m with
  | zero => cases h
  | succ n ih =>
    obtain ⟨k, rfl⟩ := Nat.exists_eq_add_of_le' (Nat.one_le_of_lt hle)
    rw [decodeFragments] at h ⊢
    split at h <;> rename_i hlt
    · rw [if_pos hlt]
      split at h
      · exact h
      · exact ih h (le_of_succ_le_succ hle)
      · exact h
    · rw [if_neg hlt]
      exact h

namespace Decodes

variable {info : UInt8} {s t : Headers} {bs ptr : List UInt8}
  {r : Except DecodeError (Headers × List UInt8)}

lemma eq (h : Decodes info s ptr r) {fuel} (hlt : ptr.length < fuel) :
    decodeFragments info fuel s ptr = some r := by
  obtain ⟨n, hn⟩ := h
  obtain ⟨r', hr'⟩ := Option.ne_none_iff_exists'.mp (decodeFragments_ne_none info (s := s) hlt)
  have hmax := decodeFragments_mono hn (le_max_left n fuel)
  rw [decodeFragments_mono hr' (le_max_right n fuel)] at hmax
  rw [hr', hmax]

lemma step (hp : Parses (decodeFragment info s) bs (true, t))
    (hlt : s.datatotal.toNat < (bs ++ ptr).length) (h : Decodes info t ptr r) :
    Decodes info s (bs ++ ptr) r := by
  obtain ⟨n, hn⟩ := h
  refine ⟨n + 1, ?_⟩
  rw [decodeFragments, if_pos hlt, hp ptr]
  exact hn

lemma last (hp : Parses (decodeFragment info s) bs (false, t))
    (hlt : s.datatotal.toNat < (bs ++ ptr).length) :
    Decodes info s (bs ++ ptr) (.ok (t, ptr)) := by
  refine ⟨1, ?_⟩
  rw [decodeFragments, if_pos hlt, hp ptr]

lemma done (h : s.datatotal.toNat = ptr.length) : Decodes info s ptr (.ok (s, ptr)) :=
  ⟨1, if_neg (not_lt.mpr (le_of_eq h.symm))⟩

end Decodes

/-! ### Fragments -/

section Fragments

variable {info : UInt8} (s : Headers)

lemma parses_decodeFragment_block (hinfo : hasFlag info xlrUmbraRemapFormatMask = false)
    (h : BlockOk blk) (horder : ∀ m ∈ s.maxBlockId, m < blk.blockId) :
    Parses (decodeFragment info s) (toLE 1 blk.blockId.toNat ++ encodeBlock s.rlocator blk)
      (true, s.block (blk.decoded s.rlocator)) := by
  have hne : ∀ id : UInt8, ¬ id ≤ xlrMaxBlockId → blk.blockId ≠ id := by
    rintro id hid rfl
    exact hid h.blockId
  refine (parses_copyUInt8 _).bind ?_
  rw [if_neg (hne _ (by decide)), if_neg (hne _ (by decide)), if_neg (hne _ (by decide)),
    if_neg (hne _ (by decide)), if_pos h.blockId]
  exact (parses_decodeBlock hinfo h horder s.rlocator).bind_last (.pure _)

lemma parses_decodeFragment_origin (origin) :
    Parses (decodeFragment info s) (xlrBlockIdOrigin :: toLE 2 origin.toNat)
      (true, { s with recordOrigin := origin }) := by
  refine (parses_singleton xlrBlockIdOrigin).bind ?_
  exact (parses_copyUInt16 origin).bind_last (.pure _)

lemma parses_decodeFragment_toplevelXid (xid) :
    Parses (decodeFragment info s) (xlrBlockIdToplevelXid :: toLE 4 xid.toNat)
      (true, { s with toplevelXid := xid }) := by
  refine (parses_singleton xlrBlockIdToplevelXid).bind ?_
  exact (parses_copyUInt32 xid).bind_last (.pure _)

lemma parses_decodeFragment_long (h : n < 2 ^ 32) :
    Parses (decodeFragment info s) (xlrBlockIdDataLong :: toLE 4 n)
      (false, s.mainData (.ofNat n)) := by
  refine (parses_singleton xlrBlockIdDataLong).bind ?_
  exact (parses_copyUInt32_ofNat h).bind_last (.pure _)

lemma parses_decodeFragment_short (h : n ≤ 255) :
    Parses (decodeFragment info s) (xlrBlockIdDataShort :: toLE 1 n)
      (false, s.mainData (.ofNat n)) := by
  have hlen : (UInt8.ofNat n).toNat = n := by
    exact mod_eq_of_lt (lt_succ_of_le h)
  have hlen' : (UInt8.ofNat n).toUInt32 = UInt32.ofNat n := by
    apply UInt32.toNat_inj.mp
    rw [UInt8.toNat_toUInt32, hlen, UInt32.toNat_ofNat']
    exact (mod_eq_of_lt (lt_of_le_of_lt h (by decide))).symm
  have hparse := parses_copyUInt8 (.ofNat n)
  rw [hlen] at hparse
  refine (parses_singleton xlrBlockIdDataShort).bind ?_
  rw [← hlen']
  exact hparse.bind_last (.pure _)

end Fragments

/-! ### Block references in sequence -/

def collectBlocks : Headers → List AssembledBlock → Headers
  | s, [] => s
  | s, blk :: blks => collectBlocks (s.block (blk.decoded s.rlocator)) blks

def decodedBlocks : Option RelFileLocator → List AssembledBlock → List DecodedBkpBlock
  | _, [] => []
  | prev, blk :: blks => blk.decoded prev :: decodedBlocks (some blk.rlocator) blks

def payloadLength (blks : List AssembledBlock) : Nat :=
  (blks.map payloadBytes).flatten.length

lemma payloadLength_cons (blk blks) :
    payloadLength (blk :: blks) = blk.payloadBytes.length + payloadLength blks := by
  simp [payloadLength]

section Payload

variable {blk : AssembledBlock} (h : BlockOk blk) (prev : Option RelFileLocator)
include h

lemma BlockOk.bimgLen_decoded :
    (blk.decoded prev).bimgLen = ((blk.image.map AssembledImage.bytes).getD []).length := by
  rw [DecodedBkpBlock.bimgLen, decoded]
  cases himg : blk.image with
  | none => rfl
  | some img => exact (h.image img himg).length.symm

lemma BlockOk.toNat_dataLen : (blk.decoded prev).dataLen.toNat = (blk.data.getD []).length := by
  rw [decoded, UInt16.toNat_ofNat', mod_eq_of_lt h.dataLength_lt,
    dataLength]
  cases blk.data <;> rfl

lemma BlockOk.payload_decoded : (blk.decoded prev).payload = blk.payloadBytes.length := by
  rw [DecodedBkpBlock.payload, h.bimgLen_decoded, h.toNat_dataLen, payloadBytes,
    length_append]

end Payload

section Collect

variable {info : UInt8} {s : Headers} {blks : List AssembledBlock} {ptr : List UInt8}

lemma blocks_collectBlocks :
    (collectBlocks s blks).blocks = s.blocks ++ decodedBlocks s.rlocator blks := by
  induction blks generalizing s with
  | nil => exact (append_nil _).symm
  | cons blk blks ih =>
    rw [collectBlocks, ih]
    simp [Headers.block, decodedBlocks, decoded]

variable (s blks) in
lemma collectBlocks_rest : (collectBlocks s blks).recordOrigin = s.recordOrigin ∧
      (collectBlocks s blks).toplevelXid = s.toplevelXid ∧
      (collectBlocks s blks).mainDataLen = s.mainDataLen := by
  induction blks generalizing s with
  | nil => exact ⟨rfl, rfl, rfl⟩
  | cons blk blks ih => exact ih _

lemma datatotal_block (h : BlockOk blk)
    (hlt : s.datatotal.toNat + blk.payloadBytes.length < 2 ^ 32) :
    (s.block (blk.decoded s.rlocator)).datatotal.toNat =
      s.datatotal.toNat + blk.payloadBytes.length := by
  rw [toNat_datatotal_block, h.payload_decoded, mod_eq_of_lt hlt]

lemma datatotal_collectBlocks (hok : ∀ blk ∈ blks, BlockOk blk)
    (hlt : s.datatotal.toNat + payloadLength blks < 2 ^ 32) :
    (collectBlocks s blks).datatotal.toNat = s.datatotal.toNat + payloadLength blks := by
  induction blks generalizing s with
  | nil => rfl
  | cons blk blks ih =>
    obtain ⟨hblk, hok⟩ := forall_mem_cons.mp hok
    rw [payloadLength_cons] at hlt ⊢
    have hstep := datatotal_block (s := s) hblk (by omega)
    rw [collectBlocks, ih hok (by rw [hstep]; omega), hstep]
    omega

lemma datatotal_collectBlocks_start (hok : ∀ blk ∈ blks, BlockOk blk)
    (hlt : payloadLength blks < 2 ^ 32) :
    (collectBlocks .start blks).datatotal.toNat = payloadLength blks := by
  have htotal := datatotal_collectBlocks (s := .start) hok
  rw [show Headers.start.datatotal.toNat = 0 from rfl, zero_add] at htotal
  exact htotal hlt

lemma decodes_blocks (hinfo : hasFlag info xlrUmbraRemapFormatMask = false) {r}
    (hok : ∀ blk ∈ blks, BlockOk blk) (hids : blks.Pairwise fun a b => a.blockId < b.blockId)
    (hmax : ∀ m ∈ s.maxBlockId, ∀ blk ∈ blks, m < blk.blockId)
    (hle : s.datatotal.toNat + payloadLength blks ≤ ptr.length) (hlt : ptr.length < 2 ^ 32)
    (h : Decodes info (collectBlocks s blks) ptr r) :
    Decodes info s (encodeBlocks s.rlocator blks ++ ptr) r := by
  induction blks generalizing s with
  | nil => exact h
  | cons blk blks ih =>
    obtain ⟨hfirst, hids⟩ := pairwise_cons.mp hids
    obtain ⟨hblk, hok⟩ := forall_mem_cons.mp hok
    rw [payloadLength_cons] at hle
    have hstep := datatotal_block (s := s) hblk (by omega)
    rw [encodeBlocks, append_assoc]
    refine .step (parses_decodeFragment_block s hinfo hblk fun m hm =>
      hmax m hm blk mem_cons_self) ?_ ?_
    · simp only [length_append, length_toLE]
      omega
    · have hmax' : ∀ m ∈ (s.block (blk.decoded s.rlocator)).maxBlockId, ∀ blk' ∈ blks,
          m < blk'.blockId := by
        intro m hm blk' hmem
        have : m = blk.blockId := by
          simpa [Headers.maxBlockId, Headers.block, decoded] using hm.symm
        rw [this]
        exact hfirst blk' hmem
      exact ih hok hids hmax' (by rw [hstep]; omega) h

end Collect

def finishHeaders (ctx : InsertContext) (mainLen : Nat) (s : Headers) : Headers :=
  { s with
    recordOrigin := ctx.origin.getD s.recordOrigin
    toplevelXid := ctx.toplevelXid.getD s.toplevelXid
    mainDataLen := .ofNat mainLen
    datatotal := s.datatotal + .ofNat mainLen }

section Trailer

variable {info : UInt8} {s : Headers} {payload : List UInt8} {mainLen : Nat}

lemma lt_length_fragment {rest} (h : n ≤ rest.length) (id : UInt8) (bs : List UInt8) :
    n < ((id :: bs) ++ rest).length := by
  rw [length_append, length_cons]
  omega

variable (hmain : s.mainDataLen = 0) (htotal : s.datatotal.toNat + mainLen = payload.length)
  (hlt : mainLen < 2 ^ 32)
include hmain htotal hlt

lemma decodes_mainData :
    Decodes info s (encodeMainHeader mainLen ++ payload)
      (.ok (s.mainData (.ofNat mainLen), payload)) := by
  have hle : s.datatotal.toNat ≤ payload.length := by omega
  rw [encodeMainHeader]
  split_ifs with hzero hlong
  · have hsame : s.mainData (.ofNat mainLen) = s := by
      rw [hzero, Headers.mainData]
      cases s
      simp_all
    rw [hsame, nil_append]
    exact .done (by rw [← htotal, hzero, add_zero])
  · exact .last (parses_decodeFragment_long s hlt) (lt_length_fragment hle _ _)
  · exact .last (parses_decodeFragment_short s (le_of_not_gt hlong))
      (lt_length_fragment hle _ _)

lemma decodes_toplevelXid (xid : Option UInt32) :
    Decodes info s ((xid.map fun xid => xlrBlockIdToplevelXid :: toLE 4 xid.toNat).getD [] ++
        (encodeMainHeader mainLen ++ payload))
      (.ok (Headers.mainData { s with toplevelXid := xid.getD s.toplevelXid } (.ofNat mainLen),
        payload)) := by
  cases xid with
  | none => exact decodes_mainData hmain htotal hlt
  | some xid =>
    refine .step (parses_decodeFragment_toplevelXid s xid) ?_
      (decodes_mainData (s := { s with toplevelXid := xid }) hmain htotal hlt)
    apply lt_length_fragment
    rw [length_append]
    omega

lemma decodes_trailer (ctx) :
    Decodes info s (encodeTrailer ctx mainLen ++ payload)
      (.ok (finishHeaders ctx mainLen s, payload)) := by
  rw [encodeTrailer, finishHeaders, append_assoc, append_assoc]
  cases ctx.origin with
  | none => exact decodes_toplevelXid hmain htotal hlt ctx.toplevelXid
  | some origin =>
    refine .step (parses_decodeFragment_origin s origin) ?_
      (decodes_toplevelXid (s := { s with recordOrigin := origin }) hmain htotal hlt
        ctx.toplevelXid)
    apply lt_length_fragment
    rw [length_append, length_append]
    omega

end Trailer

lemma length_encodePayload {blks mainData} :
    (encodePayload blks mainData).length = payloadLength blks + mainData.length := by
  rw [encodePayload, length_append, payloadLength]

lemma decodes_headers (hinfo : hasFlag info xlrUmbraRemapFormatMask = false) (ctx) {blks} (mainData)
    (hok : ∀ blk ∈ blks, BlockOk blk) (hids : blks.Pairwise fun a b => a.blockId < b.blockId)
    (hlt : (encodeTrailer ctx mainData.length ++ encodePayload blks mainData).length < 2 ^ 32) :
    Decodes info .start (encodeHeaders ctx blks mainData ++ encodePayload blks mainData)
      (.ok (finishHeaders ctx mainData.length (collectBlocks .start blks),
        encodePayload blks mainData)) := by
  rw [length_append, length_encodePayload] at hlt
  have htotal := datatotal_collectBlocks_start hok (by omega)
  rw [encodeHeaders, append_assoc]
  refine decodes_blocks (s := .start) hinfo hok hids nofun ?_ ?_ ?_
  · rw [length_append, length_encodePayload]
    show 0 + _ ≤ _
    omega
  · rw [length_append, length_encodePayload]
    exact hlt
  · exact decodes_trailer (collectBlocks_rest _ _).2.2 (by rw [htotal, length_encodePayload])
      (by omega) ctx

/-! ### The payload -/

lemma slice_append (pre bs post) : slice (pre ++ (bs ++ post)) pre.length bs.length = bs := by
  rw [slice, drop_left, take_left]

def AssembledBlock.contents (blk : AssembledBlock) (prev : Option RelFileLocator) :
    BlockContents where
  block := blk.decoded prev
  image := blk.image.map AssembledImage.bytes
  data := blk.data

def decodedContents : Option RelFileLocator → List AssembledBlock → List BlockContents
  | _, [] => []
  | prev, blk :: blks => blk.contents prev :: decodedContents (some blk.rlocator) blks

lemma AssembledBlock.hasFlag_data (blk : AssembledBlock) (prev : Option RelFileLocator) :
    hasFlag (blk.decoded prev).flags bkpblockHasData = blk.data.isSome :=
  (forkFlags_spec _ _ _ _ _ _).2.2.2.1

section Payload

variable {blk : AssembledBlock} (h : BlockOk blk) (prev : Option RelFileLocator)
include h

lemma BlockOk.dataLen_eq_zero (hflag : hasFlag (blk.decoded prev).flags bkpblockHasData = false) :
    (blk.decoded prev).dataLen = 0 := by
  rw [blk.hasFlag_data] at hflag
  exact h.dataLength_eq_zero.mpr hflag

lemma BlockOk.blockContents_decoded (pre post) :
    blockContents (pre ++ (blk.payloadBytes ++ post)) pre.length (blk.decoded prev) =
      blk.contents prev := by
  have himage : slice (pre ++ (blk.payloadBytes ++ post)) pre.length (blk.decoded prev).bimgLen =
      (blk.image.map AssembledImage.bytes).getD [] := by
    rw [h.bimgLen_decoded, payloadBytes, append_assoc, slice_append]
  have hdata : slice (pre ++ (blk.payloadBytes ++ post))
      (pre.length + (blk.decoded prev).bimgLen) (blk.decoded prev).dataLen.toNat =
      blk.data.getD [] := by
    rw [h.bimgLen_decoded, h.toNat_dataLen, payloadBytes, append_assoc,
      ← append_assoc pre, ← length_append, slice_append]
  rw [blockContents, himage, hdata, blk.hasFlag_data, contents]
  congr 1
  · cases himg : blk.image with
    | none => simp [decoded, himg]
    | some => simp [decoded, himg]
  · cases blk.data with
    | none => rfl
    | some => rfl

end Payload

variable {blks : List AssembledBlock}

lemma copyBlocks_decodedBlocks {record pre post} (hok : ∀ blk ∈ blks, BlockOk blk)
    (prev : Option RelFileLocator) (s : CopyLoop) (hs : s.ptr = pre.length)
    (hrecord : record = pre ++ ((blks.map payloadBytes).flatten ++ post)) :
    copyBlocks record s (decodedBlocks prev blks) = decodedContents prev blks ∧
      ((decodedBlocks prev blks).foldl CopyLoop.block s).ptr = pre.length + payloadLength blks := by
  induction blks generalizing prev s pre with
  | nil => exact ⟨rfl, hs⟩
  | cons blk blks ih =>
    obtain ⟨hblk, hok⟩ := forall_mem_cons.mp hok
    have hptr : (s.block (blk.decoded prev)).ptr = (pre ++ blk.payloadBytes).length := by
      rw [(Covers.block s (hblk.dataLen_eq_zero prev)).ptr, hs, hblk.payload_decoded,
        length_append]
    have hrecord' : record = (pre ++ blk.payloadBytes) ++
        ((blks.map payloadBytes).flatten ++ post) := by
      rw [hrecord, map_cons, flatten_cons]
      simp only [append_assoc]
    obtain ⟨hcopy, hend⟩ :=
      ih hok (some blk.rlocator) (s.block (blk.decoded prev)) hptr hrecord'
    constructor
    · rw [decodedBlocks, copyBlocks, hcopy, decodedContents, hs, hrecord', append_assoc,
        hblk.blockContents_decoded]
    · rw [decodedBlocks, foldl_cons, hend, length_append, payloadLength_cons,
        add_assoc]

/-! ### The two loops of the assembler -/

def inUse : Nat → List BufferSlot → List (Nat × RegisteredBuffer × StorageAnswers)
  | _, [] => []
  | blockId, none :: slots => inUse (blockId + 1) slots
  | blockId, some (regbuf, ans) :: slots => (blockId, regbuf, ans) :: inUse (blockId + 1) slots

/-- The decoded block is the registered one. -/
structure Matches (ctx : InsertContext) (blockId : Nat) (regbuf : RegisteredBuffer)
    (plan : BlockPlan) (c : BlockContents) : Prop where
  blockId : c.block.blockId = .ofNat blockId
  rlocator : c.block.rlocator = regbuf.rlocator
  forknum : c.block.forknum = .ofNat regbuf.forkno
  blkno : c.block.blkno = regbuf.block
  willInit : hasFlag c.block.flags bkpblockWillInit =
    (regbuf.flags &&& regbufWillInit == regbufWillInit)
  remap : c.block.remap = plan.remap
  imageHeader : c.block.image =
    if plan.includeImage then some (assembleImage ctx regbuf plan.needsBackup).header else none
  image : c.image =
    if plan.includeImage then some (assembleImage ctx regbuf plan.needsBackup).bytes else none
  data : c.data = if plan.needsData then some regbuf.rdata else none

lemma matches_assembleBlock (ctx blockId regbuf plan prev) :
    Matches ctx blockId regbuf plan
      ((assembleBlock ctx (.ofNat blockId) regbuf plan).contents prev) where
  blockId := rfl
  rlocator := rfl
  forknum := (forkFlags_spec _ _ _ _ _ _).2.2.2.2.2
  blkno := rfl
  willInit := (forkFlags_spec _ _ _ _ _ _).1
  remap := rfl
  imageHeader := by cases h : plan.includeImage <;> simp [contents,
    decoded, assembleBlock, h]
  image := by cases h : plan.includeImage <;> simp [contents, assembleBlock, h]
  data := rfl

variable {ctx : InsertContext} {ans : StorageAnswers} {plan : BlockPlan} {blockId : Nat}

lemma planBlock_needsData (h : planBlock ctx regbuf ans = .ok plan)
    (hdata : plan.needsData = true) :
    regbuf.rdata ≠ [] := by
  rintro hnil
  rw [planBlock] at h
  cases hr : chooseRemap regbuf ans (needsBackupOrRemap ctx regbuf ans).2 with
  | error =>
    rw [hr] at h
    cases h
  | ok =>
    rw [hr] at h
    cases h
    simp [hnil] at hdata

lemma blockOk_assembleBlock (hid : blockId ≤ xlrMaxBlockId.toNat)
    (h : planBlock ctx regbuf ans = .ok plan) :
    BlockOk (assembleBlock ctx (.ofNat blockId) regbuf plan) where
  blockId := by
    have hlt : blockId < 2 ^ 8 := lt_of_le_of_lt hid (by decide)
    show (UInt8.ofNat blockId).toNat ≤ _
    rwa [UInt8.toNat_ofNat', mod_eq_of_lt hlt]
  image := by
    intro img himg
    have himg' : (if plan.includeImage then
        some (assembleImage ctx regbuf plan.needsBackup) else none) = some img := himg
    split_ifs at himg'
    cases himg'
    exact imageOk_assembleImage ctx regbuf plan.needsBackup
  data := by
    intro data hmem
    have hmem' : (if plan.needsData then some regbuf.rdata else none) = some data := hmem
    split_ifs at hmem' with hneeds
    cases hmem'
    exact ⟨planBlock_needsData h hneeds, regbuf.rdata_le⟩

lemma assembleBlocks_spec {slots} (hid : blockId + slots.length ≤ xlrMaxBlockId.toNat + 1)
    (h : assembleBlocks ctx blockId slots = .ok blks) (prev) :
    (∀ blk ∈ blks, BlockOk blk ∧ blockId ≤ blk.blockId.toNat) ∧
      (blks.Pairwise fun a b => a.blockId < b.blockId) ∧ blks.length ≤ slots.length ∧
      List.Forall₂ (fun b c => ∃ plan, planBlock ctx b.2.1 b.2.2 = .ok plan ∧
        Matches ctx b.1 b.2.1 plan c) (inUse blockId slots) (decodedContents prev blks) := by
  induction slots generalizing blockId blks prev with
  | nil =>
    cases h
    exact ⟨by simp, .nil, le_rfl, .nil⟩
  | cons slot slots ih =>
    rw [length_cons] at hid
    match slot with
    | none =>
      obtain ⟨hok, hids, hlen, hmatch⟩ := ih (by omega) h prev
      refine ⟨fun blk hmem => ⟨(hok blk hmem).1, ?_⟩, hids, le_succ_of_le hlen, hmatch⟩
      exact le_of_succ_le (hok blk hmem).2
    | some (regbuf, ans) =>
      rw [assembleBlocks] at h
      cases hplan : planBlock ctx regbuf ans with
      | error =>
        rw [hplan] at h
        cases h
      | ok plan =>
        cases hrest : assembleBlocks ctx (blockId + 1) slots with
        | error =>
          rw [hplan, hrest] at h
          cases h
        | ok =>
          rw [hplan, hrest] at h
          cases h
          obtain ⟨hok, hids, hlen, hmatch⟩ := ih (by omega) hrest (some regbuf.rlocator)
          have htoNat : (UInt8.ofNat blockId).toNat = blockId := by
            rw [UInt8.toNat_ofNat']
            have : xlrMaxBlockId.toNat = 32 := rfl
            omega
          refine ⟨?_, ?_, succ_le_succ hlen, ?_⟩
          · intro blk hmem
            rcases mem_cons.mp hmem with rfl | hmem
            · exact ⟨blockOk_assembleBlock (by omega) hplan, le_of_eq htoNat.symm⟩
            · exact ⟨(hok blk hmem).1, le_of_succ_le (hok blk hmem).2⟩
          · refine pairwise_cons.mpr ⟨fun blk hmem => ?_, hids⟩
            exact lt_of_le_of_lt (le_of_eq htoNat) (hok blk hmem).2
          · exact .cons ⟨plan, hplan, matches_assembleBlock ctx blockId regbuf plan prev⟩ hmatch

/-! ### Sizes -/

lemma length_encodeBlock_le (prev blk) : (encodeBlock prev blk).length ≤ 42 := by
  have hremap : ((blk.remap.map encodeRemap).getD []).length ≤ 16 := by
    cases blk.remap with
    | none => exact zero_le _
    | some => simp [encodeRemap]
  have himage : ((blk.image.map encodeImage).getD []).length ≤ 7 := by
    cases blk.image with
    | none => exact zero_le _
    | some =>
      simp only [Option.map_some, Option.getD_some, encodeImage, length_append, length_toLE]
      split_ifs
      · simp
      · simp
  have hrel : (if prev = some blk.rlocator then [] else encodeRlocator blk.rlocator).length
    ≤ 12 := by
    split_ifs
    · exact zero_le _
    · simp [encodeRlocator]
  simp only [encodeBlock, length_append, length_toLE]
  omega

lemma length_encodeBlocks_le (prev blks) : (encodeBlocks prev blks).length ≤ 43 * blks.length := by
  induction blks generalizing prev with
  | nil => exact zero_le _
  | cons blk blks ih =>
    have hblk := length_encodeBlock_le prev blk
    have hrest := ih (some blk.rlocator)
    simp only [encodeBlocks, length_append, length_toLE, length_cons]
    omega

lemma length_encodeTrailer_le (ctx mainLen) : (encodeTrailer ctx mainLen).length ≤ 13 := by
  have horigin : ((ctx.origin.map fun origin =>
      xlrBlockIdOrigin :: toLE 2 origin.toNat).getD []).length ≤ 3 := by
    cases ctx.origin <;> simp
  have hxid : ((ctx.toplevelXid.map fun xid =>
      xlrBlockIdToplevelXid :: toLE 4 xid.toNat).getD []).length ≤ 5 := by
    cases ctx.toplevelXid <;> simp
  have hmain : (encodeMainHeader mainLen).length ≤ 5 := by
    rw [encodeMainHeader]
    split_ifs <;> simp
  rw [encodeTrailer, length_append, length_append]
  omega

lemma length_encodeHeaders_le (ctx) (h : blks.length ≤ xlrMaxBlockId.toNat + 1) (mainData) :
    sizeOfXLogRecord + (encodeHeaders ctx blks mainData).length ≤ headerScratchSize := by
  have hblocks := length_encodeBlocks_le none blks
  have htrailer := length_encodeTrailer_le ctx mainData.length
  rw [encodeHeaders, length_append, headerScratchSize]
  omega

/-! ### The fixed header -/

lemma headerField_head {bs v} (hv : v < 256 ^ n) : headerField (toLE n v ++ bs) 0 n = v := by
  have := slice_append [] (toLE n v) bs
  rw [length_toLE, nil_append, length_nil] at this
  rw [headerField, this, leNat_toLE hv]

lemma decodeHeader_encodeHeader (hdr rest) : decodeHeader (encodeHeader hdr ++ rest) = hdr := by
  have htot : headerField (encodeHeader hdr ++ rest) 0 4 = hdr.totLen.toNat := by
    exact headerField_head hdr.totLen.toNat_lt
  have hxid : headerField (encodeHeader hdr ++ rest) (4 + 0) 4 = hdr.xid.toNat := by
    exact headerField_head hdr.xid.toNat_lt
  have hprev : headerField (encodeHeader hdr ++ rest) (4 + (4 + 0)) 8 = hdr.prev.toNat := by
    exact headerField_head hdr.prev.toNat_lt
  have hinfo : headerField (encodeHeader hdr ++ rest) (4 + (4 + (8 + 0))) 1 = hdr.info.toNat := by
    exact headerField_head hdr.info.toNat_lt
  have hrmid : headerField (encodeHeader hdr ++ rest) (4 + (4 + (8 + (1 + 0)))) 1 =
      hdr.rmid.toNat := by
    exact headerField_head hdr.rmid.toNat_lt
  have hcrc : headerField (encodeHeader hdr ++ rest) (4 + (4 + (8 + (1 + (1 + (2 + 0)))))) 4 =
      hdr.crc.toNat := by
    exact headerField_head hdr.crc.toNat_lt
  rw [decodeHeader]
  simp only [htot, hxid, hprev, hinfo, hrmid, hcrc, UInt32.ofNat_toNat, UInt64.ofNat_toNat,
    UInt8.ofNat_toNat]

lemma length_encodeHeader (hdr) : (encodeHeader hdr).length = sizeOfXLogRecord := by
  simp [encodeHeader, sizeOfXLogRecord]

/-! ### Round trip -/

lemma InsertContext.fullInfo_ok (ctx : InsertContext) :
    hasFlag ctx.fullInfo xlrUmbraRemapFormatMask = false := by
  rw [InsertContext.fullInfo]
  split_ifs
  · have hor : (ctx.info ||| xlrCheckConsistency) &&& xlrUmbraRemapFormatMask =
        ctx.info &&& xlrUmbraRemapFormatMask := by
      show (ctx.info ||| 2) &&& 12 = ctx.info &&& 12
      apply UInt8.toNat_inj.mp
      simp only [UInt8.toNat_and, UInt8.toNat_or, UInt8.reduceToNat]
      rw [Nat.and_comm, Nat.and_or_distrib_left, Nat.and_comm]
      simp
    rw [hasFlag, hor]
    exact ctx.info_ok
  · exact ctx.info_ok

def assembledBytes (ctx : InsertContext) (hdr : XLogRecord) (blks : List AssembledBlock)
    (mainData : List UInt8) : List UInt8 :=
  encodeHeader hdr ++ (encodeHeaders ctx blks mainData ++ encodePayload blks mainData)

lemma xlogRecordAssembleUmbra_eq_ok {buffers mainData bytes}
    (h : xlogRecordAssembleUmbra ctx buffers mainData = .ok bytes) :
    ∃ blks hdr, assembleBlocks ctx 0 buffers.slots = .ok blks ∧ hdr.info = ctx.fullInfo ∧
      totalLen ctx blks mainData ≤ xlogRecordMaxSize ∧
      hdr.totLen = .ofNat (totalLen ctx blks mainData) ∧ hdr.xid = ctx.xid ∧ hdr.rmid = ctx.rmid ∧
      bytes = assembledBytes ctx hdr blks mainData := by
  rw [xlogRecordAssembleUmbra] at h
  cases hblks : assembleBlocks ctx 0 buffers.slots with
  | error =>
    rw [hblks] at h
    cases h
  | ok blks =>
    rw [hblks] at h
    change (if _ then _ else _) = _ at h
    split_ifs at h with hmain hsize
    · cases h
      exact ⟨blks, _, rfl, rfl, le_of_not_gt hsize, rfl, rfl, rfl, rfl⟩

section Assembled

variable {ctx : InsertContext} {blks : List AssembledBlock} {mainData : List UInt8}
  {hdr : XLogRecord}

lemma length_assembledBytes :
    (assembledBytes ctx hdr blks mainData).length = totalLen ctx blks mainData := by
  rw [assembledBytes, length_append, length_encodeHeader, length_append, totalLen,
    add_assoc]

variable (hok : ∀ blk ∈ blks, BlockOk blk)
include hok

lemma datatotal_finishHeaders
    (hlt : (encodePayload blks mainData).length < 2 ^ 32) :
    (finishHeaders ctx mainData.length (collectBlocks .start blks)).datatotal.toNat =
      (encodePayload blks mainData).length := by
  rw [length_encodePayload] at hlt ⊢
  have htotal := datatotal_collectBlocks_start hok (by omega)
  rw [finishHeaders, UInt32.toNat_add, htotal, UInt32.toNat_ofNat', add_mod_mod,
    mod_eq_of_lt hlt]

lemma decodeHeaders_assembledBytes (hinfo : hdr.info = ctx.fullInfo)
    (hids : blks.Pairwise fun a b => a.blockId < b.blockId)
    (hlt : totalLen ctx blks mainData < 2 ^ 32) :
    decodeHeaders (assembledBytes ctx hdr blks mainData) =
      some (.ok (finishHeaders ctx mainData.length (collectBlocks .start blks),
        encodePayload blks mainData)) := by
  have hheader : decodeHeader (assembledBytes ctx hdr blks mainData) = hdr :=
    decodeHeader_encodeHeader hdr _
  have hdrop : (assembledBytes ctx hdr blks mainData).drop sizeOfXLogRecord =
      encodeHeaders ctx blks mainData ++ encodePayload blks mainData :=
    drop_left' (length_encodeHeader hdr)
  have hlen : (encodeHeaders ctx blks mainData ++ encodePayload blks mainData).length ≤
      totalLen ctx blks mainData := by
    rw [length_append, totalLen]
    omega
  rw [length_append, encodeHeaders, length_append] at hlen
  have hdecodes := decodes_headers ctx.fullInfo_ok ctx mainData hok hids (by
    rw [length_append]
    omega)
  have hfuel : (encodeHeaders ctx blks mainData ++ encodePayload blks mainData).length <
      (assembledBytes ctx hdr blks mainData).length + 1 := by
    rw [length_assembledBytes, length_append, encodeHeaders, length_append]
    omega
  rw [decodeHeaders, hheader, hinfo, hdrop, hdecodes.eq hfuel, Option.map_some]
  show some (if _ then _ else _) = _
  rw [if_pos (datatotal_finishHeaders hok (by omega)).symm]

variable (ctx hdr) in
lemma decodePayload_assembledBytes (layout) (hmain : mainData.length < 2 ^ 32) :
    let d := decodePayload layout (assembledBytes ctx hdr blks mainData)
      (sizeOfXLogRecord + (encodeHeaders ctx blks mainData).length)
      (finishHeaders ctx mainData.length (collectBlocks .start blks))
    d.header = hdr ∧ d.recordOrigin = ctx.origin.getD 0 ∧ d.toplevelXid = ctx.toplevelXid.getD 0 ∧
      d.mainData = mainData ∧ d.blocks = decodedContents none blks := by
  have hblocks : (finishHeaders ctx mainData.length (collectBlocks .start blks)).blocks =
      decodedBlocks none blks := blocks_collectBlocks
  obtain ⟨horigin, hxid, -⟩ := collectBlocks_rest .start blks
  have hpre : (encodeHeader hdr ++ encodeHeaders ctx blks mainData).length =
      sizeOfXLogRecord + (encodeHeaders ctx blks mainData).length := by
    rw [length_append, length_encodeHeader]
  have hrecord : assembledBytes ctx hdr blks mainData =
      (encodeHeader hdr ++ encodeHeaders ctx blks mainData) ++
        ((blks.map payloadBytes).flatten ++ mainData) := by
    rw [assembledBytes, encodePayload, append_assoc]
  obtain ⟨hcopy, hptr⟩ := copyBlocks_decodedBlocks hok none
    (.start layout (sizeOfXLogRecord + (encodeHeaders ctx blks mainData).length)
      (finishHeaders ctx mainData.length (collectBlocks .start blks))) hpre.symm hrecord
  refine ⟨decodeHeader_encodeHeader hdr _, ?_, ?_, ?_, ?_⟩
  · show ctx.origin.getD _ = _
    rw [horigin]
    rfl
  · show ctx.toplevelXid.getD _ = _
    rw [hxid]
    rfl
  · have hlen : (UInt32.ofNat mainData.length).toNat = mainData.length := by
      rw [UInt32.toNat_ofNat', mod_eq_of_lt hmain]
    show slice _ _ (UInt32.ofNat mainData.length).toNat = _
    rw [hblocks, hptr, hlen, hrecord, payloadLength, ← length_append, ← append_assoc]
    have := slice_append ((encodeHeader hdr ++ encodeHeaders ctx blks mainData) ++
      (blks.map payloadBytes).flatten) mainData []
    rwa [append_nil] at this
  · show copyBlocks _ _ _ = _
    rw [hblocks, hcopy]

end Assembled

/-- Decoding an assembled record returns what was registered, with the remaps, images and data, the
origin, the top-level transaction id and the main data; and the headers fit into the scratch space.
-/
theorem wal_record_round_trip (layout : Layout) {ctx : InsertContext}
    {buffers : RegisteredBuffers} {mainData bytes : List UInt8}
    (h : xlogRecordAssembleUmbra ctx buffers mainData = .ok bytes) :
    (∃ d, decodeXLogRecord layout bytes = some (.ok d) ∧
      d.header.totLen.toNat = bytes.length ∧ d.header.xid = ctx.xid ∧
      d.header.info = ctx.fullInfo ∧ d.header.rmid = ctx.rmid ∧
      d.recordOrigin = ctx.origin.getD 0 ∧ d.toplevelXid = ctx.toplevelXid.getD 0 ∧
      d.mainData = mainData ∧
      List.Forall₂ (fun b c => ∃ plan, planBlock ctx b.2.1 b.2.2 = .ok plan ∧
        Matches ctx b.1 b.2.1 plan c) (inUse 0 buffers.slots) d.blocks) ∧
    ∃ blks, assembleBlocks ctx 0 buffers.slots = .ok blks ∧
      sizeOfXLogRecord + (encodeHeaders ctx blks mainData).length ≤ headerScratchSize := by
  obtain ⟨blks, hdr, hblks, hinfo, hsize, htot, hxid, hrmid, rfl⟩ := xlogRecordAssembleUmbra_eq_ok h
  obtain ⟨hok, hids, hcount, hmatch⟩ := assembleBlocks_spec
    (by rw [zero_add]; exact buffers.length_le) hblks none
  refine ⟨?_, blks, hblks, length_encodeHeaders_le ctx (hcount.trans buffers.length_le) mainData⟩
  have hlt : totalLen ctx blks mainData < 2 ^ 32 := lt_of_le_of_lt hsize (by decide)
  have hmain : mainData.length < 2 ^ 32 := by
    rw [totalLen, length_encodePayload] at hlt
    omega
  have hoks : ∀ blk ∈ blks, BlockOk blk := fun blk hmem => (hok blk hmem).1
  have hheaders := decodeHeaders_assembledBytes hoks hinfo hids hlt
  obtain ⟨hheader, horigin, htop, hdata, hcontents⟩ :=
    decodePayload_assembledBytes ctx hdr hoks layout hmain
  have hptr : (assembledBytes ctx hdr blks mainData).length - (encodePayload blks mainData).length =
      sizeOfXLogRecord + (encodeHeaders ctx blks mainData).length := by
    rw [length_assembledBytes, totalLen, Nat.add_sub_cancel]
  refine ⟨_, ?_, ?_, ?_, ?_, ?_, horigin, htop, hdata, ?_⟩
  · rw [decodeXLogRecord, hheaders, Option.map_some]
    show some (Except.ok (decodePayload layout _ _ _)) = _
    rw [hptr]
  · rw [hheader, htot, UInt32.toNat_ofNat', mod_eq_of_lt hlt]
    exact length_assembledBytes.symm
  · rw [hheader, hxid]
  · rw [hheader, hinfo]
  · rw [hheader, hrmid]
  · rw [hcontents]
    exact hmatch

def plainContext : InsertContext where
  rmid := 10
  info := 0x20
  info_ok := by decide
  redoRecPtr := 100
  doPageWrites := true
  walConsistencyChecking := false
  compression := none
  origin := some 7
  toplevelXid := none
  xid := 740
  crc := fun _ => 0

/-- One buffer in slot 1 that the record initialises, with a prepared remap and two bytes of
data. -/
def remappedBuffer : RegisteredBuffers where
  slots := [none, some
    ({ flags := regbufWillInit
       rlocator := ⟨1663, 5, 16384⟩
       forkno := mainForknum
       block := 3
       page := .zero
       rdata := [1, 2]
       rdata_le := by decide
       remap := some (4, 9) },
     { walOwnedRemapAvailable := true
       walOwnedFirstbornAvailable := true
       tryLookupPblkno := none
       reserveFreshPbkno := 9
       getNewPbkno := (9, 4)
       logicalNblocks := some 4
       nextFreePhysBlock := some 9 })]
  length_le := by decide

theorem wal_record_round_trip_remapped :
    ∃ bytes d c, xlogRecordAssembleUmbra plainContext remappedBuffer [5] = .ok bytes ∧
      decodeXLogRecord ⟨96, 104⟩ bytes = some (.ok d) ∧ d.mainData = [5] ∧ d.blocks = [c] ∧
      c.block.remap = some ⟨4, 9, 4, 10⟩ ∧ c.data = some [1, 2] := by
  have h : xlogRecordAssembleUmbra plainContext remappedBuffer [5] =
      .ok ((xlogRecordAssembleUmbra plainContext remappedBuffer [5]).toOption.getD []) := rfl
  obtain ⟨⟨d, hd, -, -, -, -, -, -, hmain, hblocks⟩, -⟩ := wal_record_round_trip ⟨96, 104⟩ h
  obtain ⟨c, _, ⟨plan, hplan, hmatch⟩, hnil, hcons⟩ := List.forall₂_cons_left_iff.mp hblocks
  cases List.forall₂_nil_left_iff.mp hnil
  cases hplan
  exact ⟨_, d, c, h, hd, hmain, hcons, hmatch.remap, hmatch.data⟩

end Umbra.Wal
