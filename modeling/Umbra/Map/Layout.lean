import Umbra.Map.Address
import Mathlib.Algebra.Group.Nat.Defs

/-!
# The layout of the metadata fork in machine words

`MapForkPageIndexToMapBlkno`, `MapLblknoToMapBlkno` and `MapDecodeMapBlkno` as the source computes
them, with casts between 32 and 64 bits. They compute what their counterparts over the natural
numbers do.
-/

namespace Umbra.Layout

open Option List

variable {fork : ForkNumber} {mapBlkno idx : UInt32}

def invalidBlockNumber : UInt32 := 0xFFFFFFFF

def blkno64 (fork : ForkNumber) (forkPageIdx : UInt32) : UInt64 :=
  match fork with
  | .fsm => .ofNat mapBlockFirstGroup + forkPageIdx.toUInt64 * .ofNat mapGroupTotalPages
  | .vm =>
    .ofNat mapBlockFirstGroup + forkPageIdx.toUInt64 * .ofNat mapGroupTotalPages
      + .ofNat mapGroupFsmPages
  | .main =>
    .ofNat mapBlockFirstGroup
      + forkPageIdx.toUInt64 / .ofNat mapGroupMainPages * .ofNat mapGroupTotalPages
      + .ofNat mapGroupFsmPages + .ofNat mapGroupVmPages
      + forkPageIdx.toUInt64 % .ofNat mapGroupMainPages

def mapForkPageIndexToMapBlkno (fork : ForkNumber) (forkPageIdx : UInt32) : Option UInt32 :=
  if blkno64 fork forkPageIdx > .ofNat maxBlockNumber then none
  else some (blkno64 fork forkPageIdx).toUInt32

def entry64 (page lblkno : UInt32) : UInt64 :=
  page.toUInt64 * .ofNat mapEntriesPerPage + (lblkno % .ofNat mapEntriesPerPage).toUInt64

def mapLblknoToMapBlkno (fork : ForkNumber) (lblkno : UInt32) : Option UInt32 :=
  (mapForkPageIndexToMapBlkno fork (lblkno / .ofNat mapEntriesPerPage)).bind fun page =>
    if entry64 page lblkno > .ofNat maxBlockNumber then none
    else some (entry64 page lblkno).toUInt32

/-- The MAP block of an entry and its index there, as every caller splits the linear index. -/
def mapEntryAddress (fork : ForkNumber) (lblkno : UInt32) : Option (UInt32 × UInt32) :=
  (mapLblknoToMapBlkno fork lblkno).map fun entryNo =>
    (entryNo / .ofNat mapEntriesPerPage, entryNo % .ofNat mapEntriesPerPage)

def mapDecodeMapBlkno (mapBlkno : UInt32) : Option (ForkNumber × UInt32) :=
  if mapBlkno < .ofNat mapBlockFirstGroup then none
  else
    let offset := (mapBlkno - .ofNat mapBlockFirstGroup).toUInt64
    let groupNo := offset / .ofNat mapGroupTotalPages
    let inGroup := offset % .ofNat mapGroupTotalPages
    if inGroup < .ofNat mapGroupFsmPages then some (.fsm, groupNo.toUInt32)
    else if inGroup - .ofNat mapGroupFsmPages < .ofNat mapGroupVmPages then
      some (.vm, groupNo.toUInt32)
    else if inGroup - .ofNat mapGroupFsmPages - .ofNat mapGroupVmPages
        < .ofNat mapGroupMainPages then
      some (.main, (groupNo * .ofNat mapGroupMainPages
        + (inGroup - .ofNat mapGroupFsmPages - .ofNat mapGroupVmPages)).toUInt32)
    else none

/-- The exact values of the subexpressions of `blkno64`, in the order of their evaluation. -/
def blknoTerms (fork : ForkNumber) (idx : Nat) : List Nat :=
  match fork with
  | .fsm => [idx, idx * mapGroupTotalPages, mapBlockFirstGroup + idx * mapGroupTotalPages]
  | .vm =>
    [idx, idx * mapGroupTotalPages, mapBlockFirstGroup + idx * mapGroupTotalPages,
      mapBlockFirstGroup + idx * mapGroupTotalPages + mapGroupFsmPages]
  | .main =>
    let group := idx / mapGroupMainPages
    [idx, group, group * mapGroupTotalPages, mapBlockFirstGroup + group * mapGroupTotalPages,
      mapBlockFirstGroup + group * mapGroupTotalPages + mapGroupFsmPages,
      mapBlockFirstGroup + group * mapGroupTotalPages + mapGroupFsmPages + mapGroupVmPages,
      idx % mapGroupMainPages,
      mapBlockFirstGroup + group * mapGroupTotalPages + mapGroupFsmPages + mapGroupVmPages
        + idx % mapGroupMainPages]

/-- The exact values of all subexpressions `MapLblknoToMapBlkno` evaluates. -/
def entryTerms (fork : ForkNumber) (lblkno : Nat) : List Nat :=
  let page := mapForkPagePosition fork (lblkno / mapEntriesPerPage)
  blknoTerms fork (lblkno / mapEntriesPerPage) ++
    [page, page * mapEntriesPerPage, lblkno % mapEntriesPerPage,
      page * mapEntriesPerPage + lblkno % mapEntriesPerPage]

/-! ## The words compute the numbers -/

lemma toNat_blkno64 (fork idx) : (blkno64 fork idx).toNat = mapForkPagePosition fork idx.toNat := by
  have hidx : idx.toNat < 2 ^ 32 := idx.toNat_lt
  cases fork with
  | fsm =>
    simp only [blkno64, mapForkPagePosition, UInt64.toNat_add, UInt64.toNat_mul,
      UInt32.toNat_toUInt64]
    show (1 + idx.toNat * 8194 % 2 ^ 64) % 2 ^ 64 = 1 + idx.toNat * 8194
    omega
  | vm =>
    simp only [blkno64, mapForkPagePosition, UInt64.toNat_add, UInt64.toNat_mul,
      UInt32.toNat_toUInt64]
    show ((1 + idx.toNat * 8194 % 2 ^ 64) % 2 ^ 64 + 1) % 2 ^ 64 = 1 + idx.toNat * 8194 + 1
    omega
  | main =>
    simp only [blkno64, mapForkPagePosition, UInt64.toNat_add, UInt64.toNat_mul, UInt64.toNat_div,
      UInt64.toNat_mod, UInt32.toNat_toUInt64]
    show ((((1 + idx.toNat / 8192 * 8194 % 2 ^ 64) % 2 ^ 64 + 1) % 2 ^ 64 + 1) % 2 ^ 64
      + idx.toNat % 8192) % 2 ^ 64 = 1 + idx.toNat / 8192 * 8194 + 1 + 1 + idx.toNat % 8192
    omega

lemma mapForkPageIndexToMapBlkno_toNat (fork idx) :
    (mapForkPageIndexToMapBlkno fork idx).map UInt32.toNat
      = Umbra.mapForkPageIndexToMapBlkno fork idx.toNat := by
  have hgt : blkno64 fork idx > .ofNat maxBlockNumber ↔
      mapForkPagePosition fork idx.toNat > maxBlockNumber := by
    rw [gt_iff_lt, UInt64.lt_iff_toNat_lt, toNat_blkno64]
    rfl
  by_cases h : mapForkPagePosition fork idx.toNat > maxBlockNumber
  · rw [mapForkPageIndexToMapBlkno, Umbra.mapForkPageIndexToMapBlkno, if_pos h,
      if_pos (hgt.mpr h), map_none]
  · have hle : mapForkPagePosition fork idx.toNat ≤ 0xFFFFFFFE := Nat.not_lt.mp h
    rw [mapForkPageIndexToMapBlkno, Umbra.mapForkPageIndexToMapBlkno, if_neg h,
      if_neg (mt hgt.mp h), map_some, UInt64.toNat_toUInt32, toNat_blkno64,
      Nat.mod_eq_of_lt (by omega)]

lemma toNat_entry64 (page lblkno) : (entry64 page lblkno).toNat
      = page.toNat * mapEntriesPerPage + lblkno.toNat % mapEntriesPerPage := by
  have hpage : page.toNat < 2 ^ 32 := page.toNat_lt
  simp only [entry64, UInt64.toNat_add, UInt64.toNat_mul, UInt32.toNat_toUInt64, UInt32.toNat_mod]
  show (page.toNat * 2048 % 2 ^ 64 + lblkno.toNat % 2048) % 2 ^ 64
    = page.toNat * 2048 + lblkno.toNat % 2048
  omega

lemma mapLblknoToMapBlkno_toNat (fork lblkno) :
    (mapLblknoToMapBlkno fork lblkno).map UInt32.toNat
      = Umbra.mapLblknoToMapBlkno fork lblkno.toNat := by
  have hpage := mapForkPageIndexToMapBlkno_toNat fork (lblkno / .ofNat mapEntriesPerPage)
  rw [UInt32.toNat_div] at hpage
  rw [mapLblknoToMapBlkno, Umbra.mapLblknoToMapBlkno]
  change _ = (Umbra.mapForkPageIndexToMapBlkno fork
    (lblkno.toNat / (UInt32.ofNat mapEntriesPerPage).toNat)).bind _
  rw [← hpage]
  cases mapForkPageIndexToMapBlkno fork (lblkno / .ofNat mapEntriesPerPage) with
  | none => rfl
  | some page =>
    simp only [bind_some, map_some]
    have hgt : entry64 page lblkno > .ofNat maxBlockNumber ↔
        page.toNat * mapEntriesPerPage + lblkno.toNat % mapEntriesPerPage > maxBlockNumber := by
      rw [gt_iff_lt, UInt64.lt_iff_toNat_lt, toNat_entry64]
      rfl
    by_cases h : page.toNat * mapEntriesPerPage + lblkno.toNat % mapEntriesPerPage > maxBlockNumber
    · rw [if_pos h, if_pos (hgt.mpr h), map_none]
    · have hle : page.toNat * mapEntriesPerPage + lblkno.toNat % mapEntriesPerPage
          ≤ 0xFFFFFFFE := Nat.not_lt.mp h
      rw [if_neg h, if_neg (mt hgt.mp h), map_some, UInt64.toNat_toUInt32, toNat_entry64,
        Nat.mod_eq_of_lt (by omega)]

lemma toNat_offset (h : ¬ mapBlkno < .ofNat mapBlockFirstGroup) :
    (mapBlkno - .ofNat mapBlockFirstGroup).toUInt64.toNat =
      mapBlkno.toNat - mapBlockFirstGroup := by
  rw [UInt32.toNat_toUInt64, UInt32.toNat_sub_of_le _ _ (UInt32.not_lt.mp h)]
  rfl

section Offset

variable {offset : UInt64}

lemma toNat_groupNo (h : offset.toNat < 2 ^ 32) :
    (offset / .ofNat mapGroupTotalPages).toUInt32.toNat = offset.toNat / mapGroupTotalPages := by
  rw [UInt64.toNat_toUInt32, UInt64.toNat_div]
  show offset.toNat / 8194 % 2 ^ 32 = offset.toNat / 8194
  omega

lemma inGroup_lt_fsm_iff : offset % .ofNat mapGroupTotalPages < .ofNat mapGroupFsmPages ↔
      offset.toNat % mapGroupTotalPages < mapGroupFsmPages := by
  rw [UInt64.lt_iff_toNat_lt, UInt64.toNat_mod]
  rfl

section
variable (h : ¬ offset % .ofNat mapGroupTotalPages < .ofNat mapGroupFsmPages)
include h

lemma toNat_inGroup_sub_fsm : (offset % .ofNat mapGroupTotalPages - .ofNat mapGroupFsmPages).toNat
      = offset.toNat % mapGroupTotalPages - mapGroupFsmPages := by
  rw [UInt64.toNat_sub_of_le _ _ (UInt64.not_lt.mp h), UInt64.toNat_mod]
  rfl

lemma inGroup_lt_vm_iff :
    offset % .ofNat mapGroupTotalPages - .ofNat mapGroupFsmPages < .ofNat mapGroupVmPages ↔
      offset.toNat % mapGroupTotalPages - mapGroupFsmPages < mapGroupVmPages := by
  rw [UInt64.lt_iff_toNat_lt, toNat_inGroup_sub_fsm h]
  rfl

variable
  (h' : ¬ offset % .ofNat mapGroupTotalPages - .ofNat mapGroupFsmPages < .ofNat mapGroupVmPages)
include h'

lemma toNat_inGroup_sub_vm :
    (offset % .ofNat mapGroupTotalPages - .ofNat mapGroupFsmPages - .ofNat mapGroupVmPages).toNat
      = offset.toNat % mapGroupTotalPages - mapGroupFsmPages - mapGroupVmPages := by
  rw [UInt64.toNat_sub_of_le _ _ (UInt64.not_lt.mp h'), toNat_inGroup_sub_fsm h]
  rfl

lemma inGroup_lt_main_iff :
    offset % .ofNat mapGroupTotalPages - .ofNat mapGroupFsmPages - .ofNat mapGroupVmPages
        < .ofNat mapGroupMainPages ↔
      offset.toNat % mapGroupTotalPages - mapGroupFsmPages - mapGroupVmPages
        < mapGroupMainPages := by
  rw [UInt64.lt_iff_toNat_lt, toNat_inGroup_sub_vm h h']
  rfl

lemma toNat_mainPageIdx (hoff : offset.toNat < 2 ^ 32) :
    (offset / .ofNat mapGroupTotalPages * .ofNat mapGroupMainPages
        + (offset % .ofNat mapGroupTotalPages - .ofNat mapGroupFsmPages
          - .ofNat mapGroupVmPages)).toUInt32.toNat
      = offset.toNat / mapGroupTotalPages * mapGroupMainPages
        + (offset.toNat % mapGroupTotalPages - mapGroupFsmPages - mapGroupVmPages) := by
  rw [UInt64.toNat_toUInt32, UInt64.toNat_add, UInt64.toNat_mul, UInt64.toNat_div,
    toNat_inGroup_sub_vm h h']
  show (offset.toNat / 8194 * 8192 % 2 ^ 64 + (offset.toNat % 8194 - 1 - 1)) % 2 ^ 64 % 2 ^ 32
    = offset.toNat / 8194 * 8192 + (offset.toNat % 8194 - 1 - 1)
  omega

end

end Offset

lemma mapDecodeMapBlkno_toNat (mapBlkno) :
    (mapDecodeMapBlkno mapBlkno).map (Prod.map id UInt32.toNat)
      = Umbra.mapDecodeMapBlkno mapBlkno.toNat := by
  have hone : mapBlkno < .ofNat mapBlockFirstGroup ↔ mapBlkno.toNat < mapBlockFirstGroup :=
    UInt32.lt_iff_toNat_lt
  by_cases hlt : mapBlkno < .ofNat mapBlockFirstGroup
  · rw [mapDecodeMapBlkno, Umbra.mapDecodeMapBlkno, if_pos hlt, if_pos (hone.mp hlt), map_none]
  rw [mapDecodeMapBlkno, Umbra.mapDecodeMapBlkno, if_neg hlt, if_neg (mt hone.mpr hlt),
    ← toNat_offset hlt]
  have hoff : (mapBlkno - .ofNat mapBlockFirstGroup).toUInt64.toNat < 2 ^ 32 := by
    rw [UInt32.toNat_toUInt64]
    exact UInt32.toNat_lt _
  generalize (mapBlkno - .ofNat mapBlockFirstGroup).toUInt64 = offset at hoff ⊢
  dsimp only
  -- one case for each place a page can have in its group
  by_cases h1 : offset % .ofNat mapGroupTotalPages < .ofNat mapGroupFsmPages
  · rw [if_pos h1, if_pos (inGroup_lt_fsm_iff.mp h1), map_some, Prod.map, id_eq, toNat_groupNo hoff]
  rw [if_neg h1, if_neg (mt inGroup_lt_fsm_iff.mpr h1)]
  by_cases h2 : offset % .ofNat mapGroupTotalPages - .ofNat mapGroupFsmPages
      < .ofNat mapGroupVmPages
  · rw [if_pos h2, if_pos ((inGroup_lt_vm_iff h1).mp h2), map_some, Prod.map, id_eq,
      toNat_groupNo hoff]
  rw [if_neg h2, if_neg (mt (inGroup_lt_vm_iff h1).mpr h2)]
  by_cases h3 : offset % .ofNat mapGroupTotalPages - .ofNat mapGroupFsmPages
      - .ofNat mapGroupVmPages < .ofNat mapGroupMainPages
  · rw [if_pos h3, if_pos ((inGroup_lt_main_iff h1 h2).mp h3), map_some, Prod.map, id_eq,
      toNat_mainPageIdx h1 h2 hoff]
  · rw [if_neg h3, if_neg (mt (inGroup_lt_main_iff h1 h2).mpr h3), map_none]

/-! ## No value wraps -/

lemma le_of_mem_blknoTerms {idx v} (h : v ∈ blknoTerms fork idx) :
    v ≤ mapForkPagePosition fork idx := by
  cases fork with
  | fsm =>
    replace h : v ∈ [idx, idx * 8194, 1 + idx * 8194] := h
    show v ≤ 1 + idx * 8194
    simp only [mem_cons, not_mem_nil, or_false] at h
    omega
  | vm =>
    replace h : v ∈ [idx, idx * 8194, 1 + idx * 8194, 1 + idx * 8194 + 1] := h
    show v ≤ 1 + idx * 8194 + 1
    simp only [mem_cons, not_mem_nil, or_false] at h
    omega
  | main =>
    replace h : v ∈ [idx, idx / 8192, idx / 8192 * 8194, 1 + idx / 8192 * 8194,
      1 + idx / 8192 * 8194 + 1, 1 + idx / 8192 * 8194 + 1 + 1, idx % 8192,
      1 + idx / 8192 * 8194 + 1 + 1 + idx % 8192] := h
    show v ≤ 1 + idx / 8192 * 8194 + 1 + 1 + idx % 8192
    simp only [mem_cons, not_mem_nil, or_false] at h
    omega

lemma le_of_mem_entryTerms {lblkno v} (h : v ∈ entryTerms fork lblkno) :
    v ≤ mapForkPagePosition fork (lblkno / mapEntriesPerPage) * mapEntriesPerPage
      + lblkno % mapEntriesPerPage := by
  have hpage : mapForkPagePosition fork (lblkno / mapEntriesPerPage)
      ≤ mapForkPagePosition fork (lblkno / mapEntriesPerPage) * mapEntriesPerPage :=
    Nat.le_mul_of_pos_right _ (by decide)
  rcases mem_append.mp h with hv | hv
  · have hle := le_of_mem_blknoTerms hv
    omega
  · simp only [mem_cons, not_mem_nil, or_false] at hv
    omega

/-! ## The layout is a bijection -/

lemma mapEntryAddress_eq_some {lblkno page} (h : mapEntryAddress fork lblkno = some (page, idx)) :
    page.toNat = mapForkPagePosition fork (lblkno.toNat / mapEntriesPerPage) ∧
      idx.toNat = lblkno.toNat % mapEntriesPerPage ∧
      page.toNat * mapEntriesPerPage + idx.toNat < 2 ^ 32 := by
  obtain ⟨entryNo, hentry, heq⟩ := map_eq_some_iff.mp h
  have hpage : page.toNat = entryNo.toNat / mapEntriesPerPage := by
    rw [← (Prod.mk.inj heq).1, UInt32.toNat_div]
    rfl
  have hidx : idx.toNat = entryNo.toNat % mapEntriesPerPage := by
    rw [← (Prod.mk.inj heq).2, UInt32.toNat_mod]
    rfl
  have hdec : mapInflightDecode fork lblkno.toNat = some (page.toNat, idx.toNat) := by
    rw [mapInflightDecode, ← mapLblknoToMapBlkno_toNat, hentry, hpage, hidx]
    rfl
  obtain ⟨hpos, hmod⟩ := mapInflightDecode_eq_some hdec
  refine ⟨hpos, hmod, ?_⟩
  rw [hpage, hidx, Nat.div_add_mod']
  exact entryNo.toNat_lt

lemma mapForkPagePosition_of_mapDecodeMapBlkno {mapBlkno idx}
    (h : Umbra.mapDecodeMapBlkno mapBlkno = some (fork, idx)) :
    mapForkPagePosition fork idx = mapBlkno := by
  rw [Umbra.mapDecodeMapBlkno] at h
  obtain ⟨hge, h⟩ := ite_none_left_eq_some.mp h
  replace hge : 1 ≤ mapBlkno := Nat.not_lt.mp hge
  split_ifs at h with h1 h2 h3
  · replace h1 : (mapBlkno - 1) % 8194 < 1 := h1
    cases h
    show 1 + (mapBlkno - 1) / 8194 * 8194 = mapBlkno
    omega
  · replace h1 : ¬ (mapBlkno - 1) % 8194 < 1 := h1
    replace h2 : (mapBlkno - 1) % 8194 - 1 < 1 := h2
    cases h
    show 1 + (mapBlkno - 1) / 8194 * 8194 + 1 = mapBlkno
    omega
  · replace h1 : ¬ (mapBlkno - 1) % 8194 < 1 := h1
    replace h2 : ¬ (mapBlkno - 1) % 8194 - 1 < 1 := h2
    cases h
    show 1 + ((mapBlkno - 1) / 8194 * 8192 + ((mapBlkno - 1) % 8194 - 1 - 1)) / 8192 * 8194 + 1 + 1
      + ((mapBlkno - 1) / 8194 * 8192 + ((mapBlkno - 1) % 8194 - 1 - 1)) % 8192 = mapBlkno
    omega

lemma mapDecodeMapBlkno_of_toNat
    (h : Umbra.mapDecodeMapBlkno mapBlkno.toNat = some (fork, idx.toNat)) :
    mapDecodeMapBlkno mapBlkno = some (fork, idx) := by
  rw [← mapDecodeMapBlkno_toNat] at h
  obtain ⟨⟨fork', idx'⟩, hdec, heq⟩ := map_eq_some_iff.mp h
  obtain ⟨hfork, hidx⟩ := Prod.mk.inj heq
  rw [hdec]
  exact congrArg some (Prod.ext hfork (UInt32.toNat_inj.mp hidx))

lemma mapForkPageIndexToMapBlkno_of_mapDecodeMapBlkno
    (h : mapDecodeMapBlkno mapBlkno = some (fork, idx)) :
    mapForkPageIndexToMapBlkno fork idx
      = if mapBlkno = invalidBlockNumber then none else some mapBlkno := by
  have hpos : mapForkPagePosition fork idx.toNat = mapBlkno.toNat := by
    refine mapForkPagePosition_of_mapDecodeMapBlkno ?_
    rw [← mapDecodeMapBlkno_toNat, h]
    rfl
  have hlt : mapBlkno.toNat < 2 ^ 32 := mapBlkno.toNat_lt
  have henc := mapForkPageIndexToMapBlkno_toNat fork idx
  rw [Umbra.mapForkPageIndexToMapBlkno, hpos] at henc
  split_ifs with hinv
  · subst hinv
    rw [if_pos (by decide)] at henc
    exact map_eq_none_iff.mp henc
  · have hne : mapBlkno.toNat ≠ 0xFFFFFFFF := fun he => hinv (UInt32.toNat_inj.mp he)
    have hle : ¬ mapBlkno.toNat > maxBlockNumber := by
      show ¬ mapBlkno.toNat > 0xFFFFFFFE
      omega
    rw [if_neg hle] at henc
    obtain ⟨b, hb, hbeq⟩ := map_eq_some_iff.mp henc
    rw [hb, UInt32.toNat_inj.mp hbeq]

/-- Every accepted block has an entry of its own behind the superblock, reached without leaving 32
bits, and MAP blocks and fork pages decode and encode to each other. -/
theorem mapEntryAddress_bijective : (∀ (fork : ForkNumber) (lblkno page idx : UInt32),
      mapEntryAddress fork lblkno = some (page, idx) →
        1 ≤ page ∧ (∀ v ∈ entryTerms fork lblkno.toNat, v < 2 ^ 32) ∧
          mapDecodeMapBlkno page = some (fork, lblkno / .ofNat mapEntriesPerPage)) ∧
      (∀ (fork fork' : ForkNumber) (lblkno lblkno' : UInt32), (mapEntryAddress fork lblkno).isSome →
          mapEntryAddress fork lblkno = mapEntryAddress fork' lblkno' →
            fork = fork' ∧ lblkno = lblkno') ∧
      ∀ (mapBlkno : UInt32), 1 ≤ mapBlkno →
        ∀ (fork : ForkNumber) (idx : UInt32), mapDecodeMapBlkno mapBlkno = some (fork, idx) →
          mapForkPageIndexToMapBlkno fork idx
            = if mapBlkno = invalidBlockNumber then none else some mapBlkno := by
  refine ⟨fun fork lblkno page idx h => ?_, fun fork fork' lblkno lblkno' hsome heq => ?_,
    fun mapBlkno _ fork idx h => mapForkPageIndexToMapBlkno_of_mapDecodeMapBlkno h⟩
  · obtain ⟨hpage, hidx, hlt⟩ := mapEntryAddress_eq_some h
    refine ⟨?_, fun v hv => ?_, mapDecodeMapBlkno_of_toNat ?_⟩
    · rw [UInt32.le_iff_toNat_le, hpage]
      exact (mapForkPagePosition_spec fork _).1
    · rw [hpage, hidx] at hlt
      exact Nat.lt_of_le_of_lt (le_of_mem_entryTerms hv) hlt
    · rw [hpage, mapDecodeMapBlkno_mapForkPagePosition, UInt32.toNat_div]
      rfl
  · obtain ⟨⟨page, idx⟩, h⟩ := isSome_iff_exists.mp hsome
    obtain ⟨hpage, hidx, -⟩ := mapEntryAddress_eq_some h
    obtain ⟨hpage', hidx', -⟩ := mapEntryAddress_eq_some (heq.symm.trans h)
    have hdec := mapDecodeMapBlkno_mapForkPagePosition fork (lblkno.toNat / mapEntriesPerPage)
    rw [← hpage, hpage', mapDecodeMapBlkno_mapForkPagePosition] at hdec
    obtain ⟨hfork, hdiv⟩ := Prod.mk.inj (Option.some.inj hdec)
    refine ⟨hfork.symm, UInt32.toNat_inj.mp ?_⟩
    rw [← Nat.div_add_mod lblkno.toNat mapEntriesPerPage,
      ← Nat.div_add_mod lblkno'.toNat mapEntriesPerPage, hdiv, ← hidx, ← hidx']

theorem mapEntryAddress_secondGroup : mapEntryAddress .main 16777216 = some (8197, 0) ∧
      mapDecodeMapBlkno 8197 = some (.main, 8192) :=
  ⟨by decide, (mapEntryAddress_bijective.1 .main 16777216 8197 0 (by decide)).2.2⟩

end Umbra.Layout
