import Umbra.Wal.Decode
import Mathlib.Algebra.Order.BigOperators.Group.List

/-!
# What the decoder accepts

The headers of an accepted record were checked against the accumulated length `datatotal`, which has
32 bits. Block references cannot wrap it, their lengths have 16 bits and there are at most 33 of
them; a main data length can.
-/

namespace Umbra.Wal

open Foundation Reader DecodedBkpBlock Headers List Option Nat

variable {rest ptr : List UInt8} {info : UInt8} {blk : DecodedBkpBlock} {bs : List UInt8}
  {fuel : Nat}

/-- A record as the reader hands it over: at least a header, and as long as the header says. -/
structure RawRecord where
  bytes : List UInt8
  header_le : sizeOfXLogRecord ≤ bytes.length
  totLen : (decodeHeader bytes).totLen.toNat = bytes.length

/-! ### One fragment -/

lemma consumes_copyUInt8 : Consumes copyUInt8 := (Consumes.field _ _).map
lemma consumes_copyUInt16 : Consumes copyUInt16 := (Consumes.field _ _).map
lemma consumes_copyUInt32 : Consumes copyUInt32 := (Consumes.field _ _).map

lemma consumes_decodeRemap (info flags) : Consumes (decodeRemap info flags) := by
  refine .ite (.bind (.check _ _) fun _ => ?_) (.pure _)
  refine .bind consumes_copyUInt32 fun _ => .bind consumes_copyUInt32 fun _ => ?_
  exact .bind consumes_copyUInt32 fun _ => .bind consumes_copyUInt32 fun _ => .pure _

lemma consumes_decodeHoleLength (bimgLen bimgInfo) : Consumes (decodeHoleLength bimgLen bimgInfo) :=
  .ite (.ite consumes_copyUInt16 (.pure _)) (.pure _)

lemma consumes_checkImage (dataLen img) : Consumes (checkImage dataLen img) :=
  .bind (.check _ _) fun _ => .bind (.check _ _) fun _ => .bind (.check _ _) fun _ => .check _ _

lemma consumes_decodeImage (flags dataLen) : Consumes (decodeImage flags dataLen) := by
  refine .ite (.bind consumes_copyUInt16 fun _ => .bind consumes_copyUInt16 fun _ => ?_) (.pure _)
  refine .bind consumes_copyUInt8 fun _ => .bind (consumes_decodeHoleLength _ _) fun _ => ?_
  exact .bind (consumes_checkImage _ _) fun _ => .pure _

lemma consumes_decodeRlocator (flags prev) : Consumes (decodeRlocator flags prev) := by
  refine .ite ?_ (.bind consumes_copyUInt32 fun _ => ?_)
  · cases prev with
    | none => exact .throw _
    | some => exact .pure _
  · exact .bind consumes_copyUInt32 fun _ => .bind consumes_copyUInt32 fun _ => .pure _

lemma decodeBlock_eq_ok {blockId maxBlockId prev}
    (h : decodeBlock info maxBlockId prev blockId bs = .ok (blk, rest)) :
    blk.blockId = blockId ∧ (∀ m ∈ maxBlockId, m < blockId) ∧
      (hasFlag blk.flags bkpblockHasData = false → blk.dataLen = 0) ∧ rest <:+ bs := by
  rw [decodeBlock] at h
  obtain ⟨_, bs₁, h₁, k₁⟩ := bind_eq_ok h
  obtain ⟨flags, bs₂, h₂, k₂⟩ := bind_eq_ok k₁
  obtain ⟨dataLen, bs₃, h₃, k₃⟩ := bind_eq_ok k₂
  obtain ⟨_, bs₄, h₄, k₄⟩ := bind_eq_ok k₃
  obtain ⟨_, bs₅, h₅, k₅⟩ := bind_eq_ok k₄
  obtain ⟨remap, bs₆, h₆, k₆⟩ := bind_eq_ok k₅
  obtain ⟨image, bs₇, h₇, k₇⟩ := bind_eq_ok k₆
  obtain ⟨rlocator, bs₈, h₈, k₈⟩ := bind_eq_ok k₇
  obtain ⟨blkno, bs₉, h₉, k₉⟩ := bind_eq_ok k₈
  obtain ⟨horder, rfl⟩ := check_eq_ok h₁
  obtain ⟨-, rfl⟩ := check_eq_ok h₄
  obtain ⟨hdata, rfl⟩ := check_eq_ok h₅
  obtain ⟨rfl, rfl⟩ := pure_eq_ok k₉
  refine ⟨rfl, ?_, ?_, ?_⟩
  · rintro m rfl
    simpa using horder
  · intro hflag
    simpa [hflag] using hdata
  · have himage := (consumes_decodeImage _ _ _ _ _ h₇).trans (consumes_decodeRemap _ _ _ _ _ h₆)
    have hflags := (consumes_copyUInt16 _ _ _ h₃).trans (consumes_copyUInt8 _ _ _ h₂)
    have hblkno := (consumes_copyUInt32 _ _ _ h₉).trans (consumes_decodeRlocator _ _ _ _ _ h₈)
    exact (hblkno.trans himage).trans hflags

inductive Fragment (s : Headers) : Bool × Headers → Prop
  | mainData (len : UInt32) : Fragment s (false, s.mainData len)
  | origin (origin : UInt16) : Fragment s (true, { s with recordOrigin := origin })
  | toplevelXid (xid : UInt32) : Fragment s (true, { s with toplevelXid := xid })
  | block {blk : DecodedBkpBlock} (hid : blk.blockId ≤ xlrMaxBlockId)
      (horder : ∀ m ∈ s.maxBlockId, m < blk.blockId)
      (hdata : hasFlag blk.flags bkpblockHasData = false → blk.dataLen = 0) :
      Fragment s (true, s.block blk)

lemma copyUInt8_length {v} (h : copyUInt8 bs = .ok (v, rest)) : rest.length < bs.length := by
  obtain ⟨n, hfield, -⟩ := map_eq_ok h
  have := field_length hfield
  exact lt_of_lt_of_eq (lt_succ_self _) this

lemma Fragment.of_decodeFragment {s r} (h : decodeFragment info s ptr = .ok (r, rest)) :
    Fragment s r ∧ rest <:+ ptr ∧ rest.length < ptr.length := by
  rw [decodeFragment] at h
  obtain ⟨blockId, mid, hid, h⟩ := bind_eq_ok h
  have hlt := copyUInt8_length hid
  suffices Fragment s r ∧ rest <:+ mid by
    exact ⟨this.1, this.2.trans (consumes_copyUInt8 _ _ _ hid), lt_of_le_of_lt this.2.length_le hlt⟩
  split_ifs at h with hshort hlong horigin hxid hblock
  · obtain ⟨len, bs, hlen, h⟩ := bind_eq_ok h
    obtain ⟨rfl, rfl⟩ := pure_eq_ok h
    exact ⟨.mainData _, consumes_copyUInt8 _ _ _ hlen⟩
  · obtain ⟨len, bs, hlen, h⟩ := bind_eq_ok h
    obtain ⟨rfl, rfl⟩ := pure_eq_ok h
    exact ⟨.mainData _, consumes_copyUInt32 _ _ _ hlen⟩
  · obtain ⟨origin, bs, hlen, h⟩ := bind_eq_ok h
    obtain ⟨rfl, rfl⟩ := pure_eq_ok h
    exact ⟨.origin _, consumes_copyUInt16 _ _ _ hlen⟩
  · obtain ⟨xid, bs, hlen, h⟩ := bind_eq_ok h
    obtain ⟨rfl, rfl⟩ := pure_eq_ok h
    exact ⟨.toplevelXid _, consumes_copyUInt32 _ _ _ hlen⟩
  · obtain ⟨blk, bs, hblk, h⟩ := bind_eq_ok h
    obtain ⟨rfl, rfl⟩ := pure_eq_ok h
    obtain ⟨rfl, horder, hdata, hsuf⟩ := decodeBlock_eq_ok hblk
    exact ⟨.block hblock horder hdata, hsuf⟩
  · cases h

/-! ### The loop -/

/-- The accumulated length is the declared one up to wrapping, and only flagged data is counted. -/
structure Sound (s : Headers) : Prop where
  datatotal : s.datatotal.toNat = s.declared % 2 ^ 32
  count : s.blocks.length ≤ s.numBlocks
  bound : s.numBlocks ≤ xlrMaxBlockId.toNat + 1
  data : ∀ blk ∈ s.blocks, hasFlag blk.flags bkpblockHasData = false → blk.dataLen = 0

lemma sound_start : Sound .start where
  datatotal := rfl
  count := le_rfl
  bound := zero_le _
  data := by simp [start]

lemma declared_block (s : Headers) (blk : DecodedBkpBlock) :
    (s.block blk).declared = s.declared + blk.payload := by
  simp only [declared, block, map_append, map_cons, map_nil, List.sum_append, sum_singleton]
  omega

lemma numBlocks_block (s : Headers) (blk : DecodedBkpBlock) :
    (s.block blk).numBlocks = blk.blockId.toNat + 1 := by
  simp [numBlocks, maxBlockId, block]

lemma toNat_datatotal_block (s : Headers) (blk : DecodedBkpBlock) :
    (s.block blk).datatotal.toNat = (s.datatotal.toNat + blk.payload) % 2 ^ 32 := by
  rw [payload, bimgLen]
  cases himg : blk.image with
  | none => simp [block, himg]
  | some =>
    simp only [block, himg, map_some, getD_some, UInt32.toNat_add, UInt16.toNat_toUInt32]
    omega

lemma numBlocks_le {s : Headers} {id : UInt8} (h : ∀ m ∈ s.maxBlockId, m < id) :
    s.numBlocks ≤ id.toNat := by
  rw [numBlocks]
  cases hm : s.maxBlockId with
  | none => exact zero_le _
  | some m => exact UInt8.lt_iff_toNat_lt.mp (h m hm)

lemma Sound.fragment {s t cont} (hs : Sound s) (hmain : s.mainDataLen = 0)
    (h : Fragment s (cont, t)) : Sound t ∧ (cont = true → t.mainDataLen = 0) := by
  cases h with
  | mainData len =>
    refine ⟨⟨?_, hs.count, hs.bound, hs.data⟩, nofun⟩
    have hdeclared : (s.mainData len).declared = s.declared + len.toNat := by
      simp [declared, mainData, hmain]
    rw [hdeclared, mainData, UInt32.toNat_add, hs.datatotal, mod_add_mod]
  | origin => exact ⟨{ hs with }, fun _ => hmain⟩
  | toplevelXid => exact ⟨{ hs with }, fun _ => hmain⟩
  | @block blk hid horder hdata =>
    refine ⟨⟨?_, ?_, ?_, ?_⟩, fun _ => hmain⟩
    · rw [toNat_datatotal_block, hs.datatotal, declared_block, mod_add_mod]
    · rw [numBlocks_block, block, length_append]
      exact succ_le_succ (hs.count.trans (numBlocks_le horder))
    · rw [numBlocks_block]
      exact succ_le_succ (UInt8.le_iff_toNat_le.mp hid)
    · exact forall_mem_append.mpr ⟨hs.data, forall_mem_singleton.mpr hdata⟩

lemma decodeFragments_ne_none (info) {s} (h : ptr.length < fuel) :
    decodeFragments info fuel s ptr ≠ none := by
  induction fuel generalizing s ptr with
  | zero => exact absurd h (not_lt_zero _)
  | succ fuel ih =>
    rw [decodeFragments]
    split
    · split
      · exact nofun
      · rename_i hfrag
        have hlt := (Fragment.of_decodeFragment hfrag).2.2
        exact ih (lt_of_lt_of_le hlt (le_of_lt_succ h))
      · exact nofun
    · exact nofun

lemma Sound.decodeFragments {s t} (hs : Sound s) (hmain : s.mainDataLen = 0)
    (h : decodeFragments info fuel s ptr = some (.ok (t, rest))) : Sound t ∧ rest <:+ ptr := by
  induction fuel generalizing s ptr with
  | zero => cases h
  | succ fuel ih =>
    rw [Wal.decodeFragments] at h
    split at h
    · split at h
      · cases h
      · rename_i u mid hfrag
        obtain ⟨hfragment, hsuf, -⟩ := Fragment.of_decodeFragment hfrag
        obtain ⟨hu, humain⟩ := hs.fragment hmain hfragment
        obtain ⟨ht, hrest⟩ := ih hu (humain rfl) h
        exact ⟨ht, hrest.trans hsuf⟩
      · rename_i u mid hfrag
        obtain ⟨hfragment, hsuf, -⟩ := Fragment.of_decodeFragment hfrag
        cases h
        exact ⟨(hs.fragment hmain hfragment).1, hsuf⟩
    · cases h
      exact ⟨hs, suffix_refl _⟩

/-! ### The copies -/

/-- The copies from `s` to `t` cover `len` bytes of the record from where `s` stands, and use as
much of the output plus at most `pad` bytes of padding. -/
structure Covers (s t : CopyLoop) (len pad : Nat) : Prop where
  ptr : t.ptr = s.ptr + len
  out : t.out ≤ s.out + len + pad
  copies : ∀ c ∈ t.copies, c ∈ s.copies ∨ s.ptr ≤ c.1 ∧ c.1 + c.2 ≤ s.ptr + len

namespace Covers

variable {s t u : CopyLoop} {len len' pad pad' : Nat}

lemma refl (s) : Covers s s 0 0 :=
  ⟨rfl, le_rfl, fun _ hc => .inl hc⟩

lemma trans (h : Covers s t len pad) (h' : Covers t u len' pad') :
    Covers s u (len + len') (pad + pad') where
  ptr := by rw [h'.ptr, h.ptr, add_assoc]
  out := by
    have := h.out
    have := h'.out
    omega
  copies := by
    intro c hc
    have hptr := h.ptr
    rcases h'.copies c hc with hc | ⟨hle, hend⟩
    · refine (h.copies c hc).imp id fun ⟨hle, hend⟩ => ⟨hle, ?_⟩
      omega
    · right
      constructor <;> omega

lemma copy (s len) : Covers s (s.copy len) len 0 where
  ptr := rfl
  out := le_rfl
  copies := by
    intro c hc
    refine (mem_append.mp hc).imp id fun hc => ?_
    rw [mem_singleton.mp hc]
    exact ⟨le_rfl, le_rfl⟩

lemma align (s) : Covers s s.align 0 7 where
  ptr := rfl
  out := by
    show maxalign s.out ≤ s.out + 0 + 7
    rw [maxalign]
    omega
  copies := fun _ hc => .inl hc

lemma mono (h : Covers s t len pad) (hpad : pad ≤ pad') : Covers s t len pad' :=
  ⟨h.ptr, h.out.trans (Nat.add_le_add_left hpad _), h.copies⟩

lemma aligned (s len) : Covers s (s.align.copy len) len 7 := by
  have := (align s).trans (copy s.align len)
  rwa [zero_add] at this

lemma image (s blk) : Covers s (s.image blk) blk.bimgLen 0 := by
  rw [CopyLoop.image]
  split_ifs with himg
  · exact copy s _
  · rw [not_isSome_iff_eq_none] at himg
    rw [bimgLen, himg]
    exact refl s

lemma data (s) (h : hasFlag blk.flags bkpblockHasData = false → blk.dataLen = 0) :
    Covers s (s.data blk) blk.dataLen.toNat 7 := by
  rw [CopyLoop.data]
  split_ifs with hflag
  · exact aligned s _
  · rw [h (Bool.not_eq_true _ ▸ hflag)]
    exact (refl s).mono (zero_le 7)

lemma block (s) (h : hasFlag blk.flags bkpblockHasData = false → blk.dataLen = 0) :
    Covers s (s.block blk) blk.payload 7 := by
  have := (image s blk).trans (data (s.image blk) h)
  rwa [zero_add] at this

lemma blocks (s) {blks : List DecodedBkpBlock}
    (h : ∀ blk ∈ blks, hasFlag blk.flags bkpblockHasData = false → blk.dataLen = 0) :
    Covers s (blks.foldl CopyLoop.block s) (blks.map payload).sum (7 * blks.length) := by
  induction blks generalizing s with
  | nil => exact refl s
  | cons blk blks ih =>
    have hrest := ih (s.block blk) fun blk' hmem => h blk' (mem_cons_of_mem _ hmem)
    have := (block s (h blk mem_cons_self)).trans hrest
    rw [map_cons, sum_cons, length_cons, mul_succ, add_comm _ 7]
    exact this

lemma main (s len) : Covers s (s.main len) len 7 := by
  rw [CopyLoop.main]
  split_ifs with hlen
  · exact aligned s len
  · rw [Nat.eq_zero_of_not_pos hlen]
    exact (refl s).mono (zero_le 7)

end Covers

variable {s : Headers} {record : List UInt8}

lemma Sound.covers (hs : Sound s) (layout ptr) :
    Covers (.start layout ptr s) (copyAll layout ptr s) s.declared (7 * s.blocks.length + 7) :=
  (Covers.blocks _ hs.data).trans (Covers.main _ _)

/-! ### Accepted records -/

lemma payload_le (blk : DecodedBkpBlock) : blk.payload ≤ 131070 := by
  have hdata : blk.dataLen.toNat < 65536 := blk.dataLen.toNat_lt
  rw [payload, bimgLen]
  cases blk.image with
  | none => simp only [map_none, getD_none]; omega
  | some img =>
    have himg : img.bimgLen.toNat < 65536 := img.bimgLen.toNat_lt
    simp only [map_some, getD_some]
    omega

lemma Sound.sum_payload_lt (hs : Sound s) : (s.blocks.map payload).sum < 2 ^ 32 := by
  have hcount : s.blocks.length ≤ 33 := hs.count.trans hs.bound
  have hsum := sum_le_card_nsmul (s.blocks.map payload) 131070 (by
    intro n hn
    obtain ⟨blk, -, rfl⟩ := mem_map.mp hn
    exact payload_le blk)
  rw [length_map, nsmul_eq_mul, cast_id] at hsum
  omega

/-- The check behind the loop establishes the declared length unless the main data alone exceeds
what is left. -/
lemma Sound.declared_eq_iff (hs : Sound s) {rest} (h : rest = s.datatotal.toNat) :
    s.declared = rest ↔ s.mainDataLen.toNat ≤ rest := by
  have hmod := hs.datatotal
  have hsum := hs.sum_payload_lt
  rw [← h] at hmod
  rw [declared] at hmod ⊢
  constructor
  · intro heq
    omega
  · intro hle
    omega

lemma decodeHeaders_eq_ok (h : decodeHeaders record = some (.ok (s, rest))) :
    Sound s ∧ rest <:+ record ∧ rest.length = s.datatotal.toNat := by
  obtain ⟨r, hr, h⟩ := map_eq_some_iff.mp h
  cases r with
  | error => cases h
  | ok p =>
    obtain ⟨t, ptr⟩ := p
    change (if ptr.length = t.datatotal.toNat then Except.ok (t, ptr) else _) = _ at h
    split_ifs at h with hlen
    cases h
    obtain ⟨hs, hsuf⟩ := sound_start.decodeFragments rfl hr
    exact ⟨hs, hsuf.trans (drop_suffix _ _), hlen⟩

lemma decodeXLogRecord_eq_ok {layout d} (h : decodeXLogRecord layout record = some (.ok d)) :
    ∃ s rest, decodeHeaders record = some (.ok (s, rest)) ∧
      d = decodePayload layout record (record.length - rest.length) s := by
  obtain ⟨r, hr, h⟩ := map_eq_some_iff.mp h
  cases r with
  | error => cases h
  | ok p =>
    cases h
    exact ⟨p.1, p.2, hr, rfl⟩

/-- `DecodeXLogRecord` terminates, and if it succeeds, the declared lengths sum to the bytes behind
the headers and every copy stays inside the record and its output, exactly if the main data length
is not larger than the number of those bytes. -/
theorem decode_safe_iff (layout : Layout) (record : RawRecord) :
    decodeXLogRecord layout record.bytes ≠ none ∧
      ∀ d, decodeXLogRecord layout record.bytes = some (.ok d) →
        ∃ s rest, decodeHeaders record.bytes = some (.ok (s, rest)) ∧
          d = decodePayload layout record.bytes (record.bytes.length - rest.length) s ∧
          ((s.declared = rest.length ∧ (∀ c ∈ d.copies, c.1 + c.2 ≤ record.bytes.length) ∧
              d.size ≤ decodeXLogRecordRequiredSpace layout record.bytes.length) ↔
            s.mainDataLen.toNat ≤ rest.length) := by
  constructor
  · rw [decodeXLogRecord, decodeHeaders, Ne, map_eq_none_iff, map_eq_none_iff]
    apply decodeFragments_ne_none
    rw [length_drop]
    omega
  · intro d hd
    obtain ⟨s, rest, hheaders, rfl⟩ := decodeXLogRecord_eq_ok hd
    obtain ⟨hs, hsuf, hlen⟩ := decodeHeaders_eq_ok hheaders
    refine ⟨s, rest, hheaders, rfl, ?_⟩
    rw [← hs.declared_eq_iff hlen]
    refine ⟨fun h => h.1, fun hdeclared => ⟨hdeclared, ?_, ?_⟩⟩
    · intro c hc
      have hcover := hs.covers layout (record.bytes.length - rest.length)
      rcases hcover.copies c hc with hnil | ⟨-, hle⟩
      · cases hnil
      · refine hle.trans (le_of_eq ?_)
        rw [hdeclared]
        exact Nat.sub_add_cancel hsuf.length_le
    · have hout := (hs.covers layout (record.bytes.length - rest.length)).out
      have hcount : s.blocks.length ≤ xlrMaxBlockId.toNat + 1 := hs.count.trans hs.bound
      have hblocks : layout.sizeofBlock * s.numBlocks ≤
          layout.sizeofBlock * (xlrMaxBlockId.toNat + 1) := mul_le_mul_left _ hs.bound
      have hrest := hsuf.length_le
      simp only [CopyLoop.start] at hout
      simp only [decodePayload, decodeXLogRecordRequiredSpace, maxalign]
      omega

/-- A block reference with four bytes of data and a main data length of `2 ^ 32 - 4`, and nothing
behind the headers. -/
def overlongRecord : RawRecord where
  bytes := toLE 4 49 ++ List.replicate 20 0 ++
    ([0, 0x20, 4, 0] ++ toLE 4 1663 ++ toLE 4 5 ++ toLE 4 16384 ++ toLE 4 0) ++
    (254 :: toLE 4 0xFFFFFFFC)
  header_le := by decide
  totLen := by decide

/-- The decoder accepts it and copies four bytes and then `2 ^ 32 - 4` bytes from behind its
end. -/
theorem decoder_accepts_overlong_record :
    ∃ s d, decodeHeaders overlongRecord.bytes = some (.ok (s, [])) ∧ s.declared = 2 ^ 32 ∧
      decodeXLogRecord ⟨96, 104⟩ overlongRecord.bytes = some (.ok d) ∧
      d.copies = [(49, 4), (53, 0xFFFFFFFC)] := by
  let s : Headers := ⟨0, some ⟨1663, 5, 16384⟩,
    [⟨0, 0x20, 4, none, none, ⟨1663, 5, 16384⟩, 0⟩], 0, 0, 0xFFFFFFFC⟩
  have h : decodeHeaders overlongRecord.bytes = some (.ok (s, [])) := by decide
  refine ⟨s, decodePayload ⟨96, 104⟩ overlongRecord.bytes 49 s, h, by decide, ?_, by decide⟩
  rw [decodeXLogRecord, h]
  rfl

end Umbra.Wal
