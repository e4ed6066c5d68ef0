import Umbra.Map.Address
import Mathlib.Data.Int.Cast.Lemmas
import Mathlib.Data.List.Basic
import Mathlib.Order.MinMax

/-!
# Addressing the free space map through the MAP

The free space map of a heap is a tree of depth three stored in depth-first page order. A group of
the metadata fork has MAP entries of one FSM page for 8192 MAIN pages, which is less than half of
what the tree of that many heap blocks takes.
-/

namespace Umbra

/-! ### Machine integers -/

def toInt32 (z : Int) : Int := Int.bmod z (2 ^ 32)

def toUInt32 (z : Int) : Nat := (z % 2 ^ 32).toNat

def toSizeT (z : Int) : Int := z % 2 ^ 64

variable {n heapblk level : Nat} {addr : FsmAddress}

lemma toInt32_natCast (h : n < 2 ^ 31) : toInt32 n = n := by
  rw [toInt32, Int.bmod_def]
  omega

lemma toUInt32_natCast (h : n < 2 ^ 32) : toUInt32 n = n := by
  rw [toUInt32]
  omega

lemma toSizeT_natCast (h : n < 2 ^ 64) : toSizeT n = n := by
  rw [toSizeT]
  omega

/-! ### The tree -/

/-- `SlotsPerFSMPage` for pages of 8192 bytes: the leaf nodes that fit behind the page header, the
`fp_next_slot` field and the 4095 upper nodes. -/
def slotsPerFsmPage : Nat := 8192 - 24 - 4 - (8192 / 2 - 1)

def fsmTreeDepth : Nat := if slotsPerFsmPage ≥ 1626 then 3 else 4

@[ext]
structure FsmAddress where
  level : Nat
  logpageno : Int

def fsmGetLocation (heapblk : Nat) : FsmAddress where
  level := 0
  logpageno := toInt32 (heapblk / slotsPerFsmPage : Nat)

def fsmGetParent (child : FsmAddress) : FsmAddress where
  level := child.level + 1
  logpageno := toInt32 (toSizeT child.logpageno / slotsPerFsmPage)

/-- The first loop of `fsm_logical_to_physical`: the first leaf below a page. -/
def fsmFirstLeaf : Nat → Int → Int
  | 0, leafno => leafno
  | l + 1, leafno => fsmFirstLeaf l (toInt32 (toSizeT (toSizeT leafno * slotsPerFsmPage)))

/-- The second loop of `fsm_logical_to_physical`: the pages up to a leaf, level by level. -/
def fsmCountPages : Nat → Int → Nat → Nat
  | 0, _, pages => pages
  | l + 1, leafno, pages =>
    fsmCountPages l (toInt32 (toSizeT leafno / slotsPerFsmPage)) (toUInt32 (pages + (leafno + 1)))

def fsmLogicalToPhysical (addr : FsmAddress) : Nat :=
  toUInt32 (toUInt32 (fsmCountPages fsmTreeDepth (fsmFirstLeaf addr.level addr.logpageno) 0
    - addr.level) - 1)

/-- The FSM pages on the way from the leaf slot of a heap block to the root. -/
def fsmPath (heapblk : Nat) : List FsmAddress :=
  List.iterate fsmGetParent (fsmGetLocation heapblk) fsmTreeDepth

def fsmPageNumber (level leafPage : Nat) : Nat :=
  leafPage + leafPage / slotsPerFsmPage + leafPage / slotsPerFsmPage / slotsPerFsmPage + 2 - level

/-! ### No wrap -/

lemma fsmFirstLeaf_natCast (h : n * slotsPerFsmPage ^ level < 2 ^ 31) :
    fsmFirstLeaf level n = (n * slotsPerFsmPage ^ level : Nat) := by
  induction level generalizing n with
  | zero => simp [fsmFirstLeaf]
  | succ l ih =>
    have hstep : n * slotsPerFsmPage * slotsPerFsmPage ^ l < 2 ^ 31 := by
      rwa [mul_assoc, ← Nat.pow_succ']
    have hsmall : n * slotsPerFsmPage < 2 ^ 31 :=
      lt_of_le_of_lt (Nat.le_mul_of_pos_right _ (Nat.pow_pos (by decide))) hstep
    have hn : n < 2 ^ 31 := lt_of_le_of_lt (Nat.le_mul_of_pos_right n (by decide)) hsmall
    rw [fsmFirstLeaf, toSizeT_natCast (hn.trans (by decide)), ← Nat.cast_mul,
      toSizeT_natCast (hsmall.trans (by decide)), toInt32_natCast hsmall, ih hstep, mul_assoc,
      ← Nat.pow_succ']

lemma fsmCountPages_natCast {leafno pages : Nat} (hleaf : leafno < 2 ^ 29) (hpages : pages < 2 ^ 31)
    (l) :
    fsmCountPages (l + 1) leafno pages
      = fsmCountPages l (leafno / slotsPerFsmPage : Nat) (pages + (leafno + 1)) := by
  have hdiv : leafno / slotsPerFsmPage < 2 ^ 31 :=
    lt_of_le_of_lt (Nat.div_le_self _ _) (hleaf.trans (by decide))
  have hsum : (pages : Int) + ((leafno : Int) + 1) = ((pages + (leafno + 1) : Nat) : Int) := by
    push_cast
    rfl
  rw [fsmCountPages, toSizeT_natCast (hleaf.trans (by decide)), ← Int.natCast_ediv,
    toInt32_natCast hdiv, hsum, toUInt32_natCast (by omega)]

lemma fsmLogicalToPhysical_eq (haddr : addr.logpageno = n)
    (hlevel : addr.level ≤ 2) (h : n * slotsPerFsmPage ^ addr.level < 2 ^ 28) :
    fsmLogicalToPhysical addr = fsmPageNumber addr.level (n * slotsPerFsmPage ^ addr.level) := by
  have hleaf := fsmFirstLeaf_natCast (h.trans (by decide : 2 ^ 28 < 2 ^ 31))
  rw [fsmLogicalToPhysical, haddr, hleaf, show fsmTreeDepth = 3 from rfl, fsmPageNumber]
  generalize n * slotsPerFsmPage ^ addr.level = leaf at h ⊢
  have hdiv : leaf / slotsPerFsmPage ≤ leaf := Nat.div_le_self _ _
  have hdiv' : leaf / slotsPerFsmPage / slotsPerFsmPage ≤ leaf :=
    (Nat.div_le_self _ _).trans hdiv
  rw [fsmCountPages_natCast (by omega) (by omega), fsmCountPages_natCast (by omega) (by omega),
    fsmCountPages_natCast (by omega) (by omega), fsmCountPages, toUInt32, toUInt32]
  generalize leaf / slotsPerFsmPage = upper at hdiv hdiv' ⊢
  generalize upper / slotsPerFsmPage = root at hdiv' ⊢
  omega

/-! ### Which blocks the MAP accepts -/

lemma mapLblknoToMapBlkno_isSome (fork lblkno) :
    (mapLblknoToMapBlkno fork lblkno).isSome ↔
      mapForkPagePosition fork (lblkno / mapEntriesPerPage) * mapEntriesPerPage
        + lblkno % mapEntriesPerPage ≤ maxBlockNumber := by
  rw [mapLblknoToMapBlkno, mapForkPageIndexToMapBlkno]
  have hE : mapEntriesPerPage = 2048 := rfl
  generalize mapForkPagePosition fork (lblkno / mapEntriesPerPage) = pos
  rw [hE]
  constructor
  · intro h
    split_ifs at h with hpos
    · cases h
    · rw [Option.bind_some] at h
      split_ifs at h with hentry
      · cases h
      · omega
  · intro h
    rw [if_neg (by omega), Option.bind_some, if_neg (by omega)]
    rfl

lemma lt_of_mapLblknoToMapBlkno_main
    (h : (mapLblknoToMapBlkno .main heapblk).isSome) : heapblk < 2 ^ 32 := by
  rw [mapLblknoToMapBlkno_isSome] at h
  have hpos : heapblk / mapEntriesPerPage
      ≤ mapForkPagePosition .main (heapblk / mapEntriesPerPage) := by
    show _ ≤ 1 + heapblk / mapEntriesPerPage / 8192 * 8194 + 1 + 1
      + heapblk / mapEntriesPerPage % 8192
    omega
  have hmax : maxBlockNumber = 0xFFFFFFFE := rfl
  have hE : mapEntriesPerPage = 2048 := rfl
  rw [hE] at h hpos
  rw [hmax] at h
  omega

lemma mapLblknoToMapBlkno_fsm_isSome (blk) :
    (mapLblknoToMapBlkno .fsm blk).isSome ↔ blk < 524288 := by
  rw [mapLblknoToMapBlkno_isSome]
  show (1 + blk / 2048 * 8194) * 2048 + blk % 2048 ≤ 0xFFFFFFFE ↔ _
  omega

/-! ### The path of a heap block -/

def fsmAddressableLeaves : Nat := 524158

lemma logpageno_fsmGetParent (haddr : addr.logpageno = n) (hn : n < 2 ^ 31) :
    (fsmGetParent addr).logpageno = (n / slotsPerFsmPage : Nat) := by
  rw [fsmGetParent, haddr, toSizeT_natCast (hn.trans (by decide)), ← Int.natCast_ediv,
    toInt32_natCast (lt_of_le_of_lt (Nat.div_le_self _ _) hn)]

lemma mem_fsmPath (h : heapblk < 2 ^ 32) (hmem : addr ∈ fsmPath heapblk) : addr.level ≤ 2 ∧
      addr.logpageno = (heapblk / slotsPerFsmPage / slotsPerFsmPage ^ addr.level : Nat) := by
  have hS : slotsPerFsmPage = 4069 := rfl
  have hleaf : heapblk / slotsPerFsmPage < 2 ^ 31 := by
    rw [hS]
    omega
  have hpath : fsmPath heapblk = [fsmGetLocation heapblk, fsmGetParent (fsmGetLocation heapblk),
    fsmGetParent (fsmGetParent (fsmGetLocation heapblk))] := rfl
  have hloc : (fsmGetLocation heapblk).logpageno = (heapblk / slotsPerFsmPage : Nat) := by
    rw [fsmGetLocation, toInt32_natCast hleaf]
  have hpar := logpageno_fsmGetParent hloc hleaf
  have hroot := logpageno_fsmGetParent hpar (lt_of_le_of_lt (Nat.div_le_self _ _) hleaf)
  rw [hpath] at hmem
  simp only [List.mem_cons, List.not_mem_nil, or_false] at hmem
  rcases hmem with rfl | rfl | rfl
  · refine ⟨Nat.zero_le 2, ?_⟩
    rw [hloc, show (fsmGetLocation heapblk).level = 0 from rfl, Nat.pow_zero, Nat.div_one]
  · refine ⟨Nat.le_succ 1, ?_⟩
    rw [hpar, show (fsmGetParent (fsmGetLocation heapblk)).level = 1 from rfl, Nat.pow_one]
  · refine ⟨le_refl 2, ?_⟩
    rw [hroot, show (fsmGetParent (fsmGetParent (fsmGetLocation heapblk))).level = 2 from rfl,
      Nat.pow_two, ← Nat.div_div_eq_div_mul]

lemma fsmPath_exact (h : heapblk < 2 ^ 32) (hmem : addr ∈ fsmPath heapblk) :
    fsmLogicalToPhysical addr
      = fsmPageNumber addr.level (heapblk / slotsPerFsmPage / slotsPerFsmPage ^ addr.level
          * slotsPerFsmPage ^ addr.level) := by
  obtain ⟨hlevel, hlog⟩ := mem_fsmPath h hmem
  apply fsmLogicalToPhysical_eq hlog hlevel
  have hS : slotsPerFsmPage = 4069 := rfl
  have hleaf : heapblk / slotsPerFsmPage < 2 ^ 28 := by
    rw [hS]
    omega
  exact lt_of_le_of_lt (Nat.div_mul_le_self _ _) hleaf

lemma fsmPageNumber_mono {leaf leaf'} (h : leaf ≤ leaf') :
    fsmPageNumber level leaf ≤ fsmPageNumber 0 leaf' := by
  have hdiv : leaf / slotsPerFsmPage ≤ leaf' / slotsPerFsmPage := Nat.div_le_div_right h
  have hdiv' : leaf / slotsPerFsmPage / slotsPerFsmPage
      ≤ leaf' / slotsPerFsmPage / slotsPerFsmPage := Nat.div_le_div_right hdiv
  rw [fsmPageNumber, fsmPageNumber]
  omega

lemma fsmPageNumber_leaf_lt {leaf} (h : leaf < 2 ^ 28) :
    fsmPageNumber 0 leaf < 524288 ↔ leaf < fsmAddressableLeaves := by
  rw [fsmPageNumber, show slotsPerFsmPage = 4069 from rfl,
    show fsmAddressableLeaves = 524158 from rfl]
  omega

/-- The pages of a heap block are accepted by the MAP exactly for the first 524158 leaf pages. -/
theorem fsm_addressable_iff {heapblk : Nat} (h : (mapLblknoToMapBlkno .main heapblk).isSome) :
    (∀ addr ∈ fsmPath heapblk, (mapLblknoToMapBlkno .fsm (fsmLogicalToPhysical addr)).isSome ∧
          fsmLogicalToPhysical addr
            = fsmPageNumber addr.level (heapblk / slotsPerFsmPage / slotsPerFsmPage ^ addr.level
                * slotsPerFsmPage ^ addr.level)) ↔
      heapblk < fsmAddressableLeaves * slotsPerFsmPage := by
  have hlt := lt_of_mapLblknoToMapBlkno_main h
  have hleaf : heapblk / slotsPerFsmPage < 2 ^ 28 := by
    rw [show slotsPerFsmPage = 4069 from rfl]
    omega
  rw [← Nat.div_lt_iff_lt_mul (by decide), ← fsmPageNumber_leaf_lt hleaf]
  constructor
  · intro hall
    have hmem : fsmGetLocation heapblk ∈ fsmPath heapblk := List.mem_cons_self
    obtain ⟨hsome, hexact⟩ := hall _ hmem
    rw [mapLblknoToMapBlkno_fsm_isSome, hexact] at hsome
    simpa [fsmGetLocation] using hsome
  · intro hbound addr hmem
    have hexact := fsmPath_exact hlt hmem
    refine ⟨?_, hexact⟩
    rw [mapLblknoToMapBlkno_fsm_isSome, hexact]
    exact lt_of_le_of_lt (fsmPageNumber_mono (Nat.div_mul_le_self _ _)) hbound

theorem fsm_addressable_later_leaf : (mapLblknoToMapBlkno .main 20345017).isSome ∧
      20345017 / slotsPerFsmPage = 5000 ∧ ∀ addr ∈ fsmPath 20345017,
        (mapLblknoToMapBlkno .fsm (fsmLogicalToPhysical addr)).isSome ∧
          fsmLogicalToPhysical addr = fsmPageNumber addr.level
            (5000 / slotsPerFsmPage ^ addr.level * slotsPerFsmPage ^ addr.level) := by
  have hmain : (mapLblknoToMapBlkno .main 20345017).isSome := by decide
  exact ⟨hmain, by decide, (fsm_addressable_iff hmain).mpr (by decide)⟩

/-- The first heap block of leaf page 524158 has a MAP entry, its leaf page has none. -/
theorem fsm_leaf_not_addressable : (mapLblknoToMapBlkno .main 2132798902).isSome ∧
      fsmGetLocation 2132798902 ∈ fsmPath 2132798902 ∧
      mapLblknoToMapBlkno .fsm (fsmLogicalToPhysical (fsmGetLocation 2132798902)) = none := by
  refine ⟨by decide, List.mem_cons_self, by decide⟩

end Umbra
