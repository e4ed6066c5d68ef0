import Umbra.Map.FreeSpace
import Mathlib.Algebra.Order.Group.Nat
import Mathlib.Data.Set.Function
import Mathlib.Order.Interval.Set.Basic
import Mathlib.Tactic.IntervalCases

/-!
# The order of the pages of the free space map

`fsm_logical_to_physical` numbers the pages of the tree depth first. The key of a page is the first
leaf below it: pages are ordered by it, and on one leaf from the top down.
-/

namespace Umbra

/-! ### Slots and children -/

/-- The slot that `fsm_get_location` stores. -/
def fsmLocationSlot (heapblk : Nat) : Nat := heapblk % slotsPerFsmPage % 2 ^ 16

/-- The slot that `fsm_get_parent` stores. -/
def fsmParentSlot (child : FsmAddress) : Nat :=
  (toSizeT child.logpageno % slotsPerFsmPage).toNat % 2 ^ 16

def fsmGetHeapBlk (addr : FsmAddress) (slot : Nat) : Nat :=
  toUInt32 (toSizeT (toSizeT (toUInt32 addr.logpageno * slotsPerFsmPage) + slot))

def fsmGetChild (parent : FsmAddress) (slot : Nat) : FsmAddress where
  level := parent.level - 1
  logpageno := toInt32 (toSizeT (toSizeT (toSizeT parent.logpageno * slotsPerFsmPage) + slot))

/-- The addresses of the ancestors of some heap block. -/
def fsmAddresses : Set FsmAddress := {addr | ∃ heapblk < 2 ^ 32 - 1, addr ∈ fsmPath heapblk}

/-- The addresses on the paths of the heap blocks below a page. -/
def fsmSubtree (top : FsmAddress) : Set FsmAddress :=
  {addr | addr.level ≤ top.level ∧
    ∃ heapblk < 2 ^ 32 - 1, addr ∈ fsmPath heapblk ∧ top ∈ fsmPath heapblk}

/-! ### Overflow -/

/-- A result that is not negative and that its type holds. -/
def fsmChecked (hi z : Int) : Option Int := if 0 ≤ z ∧ z < hi then some z else none

def fsmFirstLeafChecked : Nat → Int → Option Int
  | 0, leafno => some leafno
  | l + 1, leafno =>
    (fsmChecked (2 ^ 31) (leafno * slotsPerFsmPage)).bind (fsmFirstLeafChecked l)

def fsmCountPagesChecked : Nat → Int → Int → Option Int
  | 0, _, pages => some pages
  | l + 1, leafno, pages =>
    (fsmChecked (2 ^ 31) (leafno + 1)).bind fun next =>
      (fsmChecked (2 ^ 32) (pages + next)).bind
        (fsmCountPagesChecked l (leafno / slotsPerFsmPage))

/-- `fsm_logical_to_physical` with unbounded integers, none where a result leaves its type. -/
def fsmLogicalToPhysicalChecked (addr : FsmAddress) : Option Int :=
  (fsmFirstLeafChecked addr.level addr.logpageno).bind fun leafno =>
    (fsmCountPagesChecked fsmTreeDepth leafno 0).bind fun pages =>
      (fsmChecked (2 ^ 32) (pages - addr.level)).bind fun pages => fsmChecked (2 ^ 32) (pages - 1)

lemma fsmChecked_eq {hi z : Int} (h0 : 0 ≤ z) (h : z < hi) : fsmChecked hi z = some z :=
  if_pos ⟨h0, h⟩

variable {n heapblk heapblk' level level' leaf leaf' : Nat} {a b addr : FsmAddress}

lemma fsmFirstLeafChecked_natCast (h : n * slotsPerFsmPage ^ level < 2 ^ 31) :
    fsmFirstLeafChecked level n = some ((n * slotsPerFsmPage ^ level : Nat) : Int) := by
  induction level generalizing n with
  | zero => simp [fsmFirstLeafChecked]
  | succ l ih =>
    rw [Nat.pow_succ', ← mul_assoc] at h ⊢
    have hle : n * slotsPerFsmPage ≤ n * slotsPerFsmPage * slotsPerFsmPage ^ l :=
      Nat.le_mul_of_pos_right _ (Nat.pow_pos (by decide))
    rw [fsmFirstLeafChecked, ← Nat.cast_mul, fsmChecked_eq (by omega) (by omega), Option.bind_some,
      ih h]

lemma fsmCountPagesChecked_natCast {pages : Nat} (hleaf : leaf < 2 ^ 28) (hpages : pages < 2 ^ 31)
    (l : Nat) : fsmCountPagesChecked (l + 1) leaf pages
      = fsmCountPagesChecked l (leaf / slotsPerFsmPage : Nat) (pages + (leaf + 1) : Nat) := by
  rw [fsmCountPagesChecked, fsmChecked_eq (by omega) (by omega), Option.bind_some,
    fsmChecked_eq (by omega) (by omega), Option.bind_some]
  push_cast
  rfl

lemma fsmLogicalToPhysicalChecked_eq (haddr : addr.logpageno = n) (hlevel : addr.level ≤ 2)
    (h : n * slotsPerFsmPage ^ addr.level < 2 ^ 28) :
    fsmLogicalToPhysicalChecked addr
      = some (fsmPageNumber addr.level (n * slotsPerFsmPage ^ addr.level) : Int) := by
  rw [fsmLogicalToPhysicalChecked, haddr, fsmFirstLeafChecked_natCast (by omega), Option.bind_some,
    show fsmTreeDepth = 3 from rfl, fsmPageNumber]
  generalize n * slotsPerFsmPage ^ addr.level = leaf at h ⊢
  have hdiv : leaf / slotsPerFsmPage ≤ leaf := Nat.div_le_self _ _
  have hdiv' : leaf / slotsPerFsmPage / slotsPerFsmPage ≤ leaf :=
    (Nat.div_le_self _ _).trans hdiv
  rw [← Nat.cast_zero, fsmCountPagesChecked_natCast (by omega) (by omega),
    fsmCountPagesChecked_natCast (by omega) (by omega),
    fsmCountPagesChecked_natCast (by omega) (by omega), fsmCountPagesChecked, Option.bind_some]
  generalize leaf / slotsPerFsmPage = upper at hdiv hdiv' ⊢
  generalize upper / slotsPerFsmPage = root at hdiv' ⊢
  rw [fsmChecked_eq (by omega) (by omega), Option.bind_some,
    fsmChecked_eq (by omega) (by omega)]
  congr 1
  omega

/-! ### The order of page numbers -/

lemma fsmPageNumber_lt (hlevel : level' ≤ 2) (hlt : leaf < leaf')
    (hdvd : slotsPerFsmPage ^ level' ∣ leaf') :
    fsmPageNumber level leaf < fsmPageNumber level' leaf' := by
  obtain ⟨c, rfl⟩ := hdvd
  rw [fsmPageNumber, fsmPageNumber]
  rw [show slotsPerFsmPage = 4069 from rfl] at *
  interval_cases level' <;> omega

lemma firstLeaf_anti (hl : level ≤ level') (n : Nat) :
    n / slotsPerFsmPage ^ level' * slotsPerFsmPage ^ level'
      ≤ n / slotsPerFsmPage ^ level * slotsPerFsmPage ^ level := by
  obtain ⟨c, hc⟩ := pow_dvd_pow slotsPerFsmPage hl
  have hmul : n / slotsPerFsmPage ^ level' * slotsPerFsmPage ^ level'
      = n / slotsPerFsmPage ^ level' * c * slotsPerFsmPage ^ level := by
    rw [hc, mul_assoc, mul_comm c]
  rw [hmul]
  refine Nat.mul_le_mul_right _ ((Nat.le_div_iff_mul_le (Nat.pow_pos (by decide))).mpr ?_)
  rw [← hmul]
  exact Nat.div_mul_le_self _ _

/-- The first leaf below the page of a level on the path of a heap block. -/
def fsmFirst (heapblk level : Nat) : Nat :=
  heapblk / slotsPerFsmPage / slotsPerFsmPage ^ level * slotsPerFsmPage ^ level

section Order

variable (h : heapblk < 2 ^ 32) (h' : heapblk' < 2 ^ 32) (ha : a ∈ fsmPath heapblk)
  (hb : b ∈ fsmPath heapblk')

include h h' ha hb

lemma fsmLogicalToPhysical_lt (hlt : fsmFirst heapblk a.level < fsmFirst heapblk' b.level) :
    fsmLogicalToPhysical a < fsmLogicalToPhysical b := by
  rw [fsmPath_exact h ha, fsmPath_exact h' hb]
  exact fsmPageNumber_lt (mem_fsmPath h' hb).1 hlt (Nat.dvd_mul_left ..)

lemma fsmLogicalToPhysical_lt_of_level
    (heq : fsmFirst heapblk a.level = fsmFirst heapblk' b.level) (hlt : b.level < a.level) :
    fsmLogicalToPhysical a < fsmLogicalToPhysical b := by
  have hle := (mem_fsmPath h ha).1
  rw [fsmPath_exact h ha, fsmPath_exact h' hb, ← fsmFirst, ← fsmFirst, heq, fsmPageNumber,
    fsmPageNumber]
  exact Nat.sub_lt_sub_left (hlt.trans_le (hle.trans (Nat.le_add_left ..))) hlt

lemma fsmLogicalToPhysical_inj (heq : fsmLogicalToPhysical a = fsmLogicalToPhysical b) :
    a = b := by
  have hfirst : fsmFirst heapblk a.level = fsmFirst heapblk' b.level := by
    by_contra hne
    rcases Nat.lt_or_gt_of_ne hne with hlt | hlt
    · exact (fsmLogicalToPhysical_lt h h' ha hb hlt).ne heq
    · exact (fsmLogicalToPhysical_lt h' h hb ha hlt).ne' heq
  have hlevel : a.level = b.level := by
    by_contra hne
    rcases Nat.lt_or_gt_of_ne hne with hlt | hlt
    · exact (fsmLogicalToPhysical_lt_of_level h' h hb ha hfirst.symm hlt).ne' heq
    · exact (fsmLogicalToPhysical_lt_of_level h h' ha hb hfirst hlt).ne heq
  have hlog := (mem_fsmPath h ha).2
  have hlog' := (mem_fsmPath h' hb).2
  rw [hlevel] at hfirst hlog
  rw [Nat.eq_of_mul_eq_mul_right (Nat.pow_pos (by decide)) hfirst, ← hlog'] at hlog
  exact FsmAddress.ext hlevel hlog

end Order

lemma fsmGetParent_mem (ha : a ∈ fsmPath heapblk) (hlevel : a.level < 2) :
    fsmGetParent a ∈ fsmPath heapblk := by
  have hpath : fsmPath heapblk = [fsmGetLocation heapblk, fsmGetParent (fsmGetLocation heapblk),
    fsmGetParent (fsmGetParent (fsmGetLocation heapblk))] := rfl
  rw [hpath] at ha ⊢
  simp only [List.mem_cons, List.not_mem_nil, or_false] at ha ⊢
  rcases ha with rfl | rfl | rfl
  · exact .inr (.inl rfl)
  · exact .inr (.inr rfl)
  · exact absurd hlevel (lt_irrefl 2)

lemma fsmGetParent_lt (h : heapblk < 2 ^ 32) (ha : a ∈ fsmPath heapblk) (hlevel : a.level < 2) :
    fsmLogicalToPhysical (fsmGetParent a) < fsmLogicalToPhysical a := by
  have hpar := fsmGetParent_mem ha hlevel
  have hlt : a.level < (fsmGetParent a).level := Nat.lt_succ_self _
  rcases (firstLeaf_anti hlt.le (heapblk / slotsPerFsmPage)).lt_or_eq with hfirst | hfirst
  · exact fsmLogicalToPhysical_lt h h hpar ha hfirst
  · exact fsmLogicalToPhysical_lt_of_level h h hpar ha hfirst hlt

/-- The next slot has the next page of the level. -/
lemma fsmGetChild_succ {parent : FsmAddress} {slot : Nat} (hn : n < 2 ^ 31 - 1)
    (h : (fsmGetChild parent slot).logpageno = n) :
    (fsmGetChild parent (slot + 1)).logpageno = n + 1 := by
  rw [fsmGetChild] at h ⊢
  generalize toSizeT (toSizeT parent.logpageno * slotsPerFsmPage) = base at h ⊢
  simp only [toInt32, toSizeT, Int.bmod_def] at h ⊢
  omega

lemma fsmGetChild_fsmGetParent (haddr : addr.logpageno = n) (hn : n < 2 ^ 28) :
    fsmGetChild (fsmGetParent addr) (fsmParentSlot addr) = addr := by
  have hparent := logpageno_fsmGetParent haddr (hn.trans (by decide))
  have hslot : fsmParentSlot addr = n % slotsPerFsmPage := by
    have hlt : n % slotsPerFsmPage < slotsPerFsmPage := Nat.mod_lt n (by decide)
    rw [fsmParentSlot, haddr, toSizeT_natCast (hn.trans (by decide)), ← Int.natCast_emod,
      Int.toNat_natCast, Nat.mod_eq_of_lt (hlt.trans (by decide))]
  have hle : n / slotsPerFsmPage ≤ n := Nat.div_le_self ..
  have hsum : n / slotsPerFsmPage * slotsPerFsmPage + n % slotsPerFsmPage = n :=
    Nat.div_add_mod' n slotsPerFsmPage
  have hlog : (fsmGetChild (fsmGetParent addr) (fsmParentSlot addr)).logpageno = n := by
    rw [fsmGetChild, hparent, hslot, toSizeT_natCast (by omega), ← Nat.cast_mul,
      toSizeT_natCast (by omega), ← Nat.cast_add, hsum, toSizeT_natCast (by omega),
      toInt32_natCast (by omega)]
  exact FsmAddress.ext rfl (hlog.trans haddr.symm)

lemma fsmGetHeapBlk_fsmGetLocation (h : heapblk < 2 ^ 32) :
    fsmGetHeapBlk (fsmGetLocation heapblk) (fsmLocationSlot heapblk) = heapblk := by
  have hslot : fsmLocationSlot heapblk = heapblk % slotsPerFsmPage := by
    have hlt : heapblk % slotsPerFsmPage < slotsPerFsmPage := Nat.mod_lt heapblk (by decide)
    exact Nat.mod_eq_of_lt (hlt.trans (by decide))
  have hleaf : heapblk / slotsPerFsmPage < 2 ^ 31 := by
    rw [show slotsPerFsmPage = 4069 from rfl]
    omega
  have hsum : heapblk / slotsPerFsmPage * slotsPerFsmPage + heapblk % slotsPerFsmPage = heapblk :=
    Nat.div_add_mod' heapblk slotsPerFsmPage
  rw [fsmGetHeapBlk, hslot, fsmGetLocation, toInt32_natCast hleaf, toUInt32_natCast (by omega),
    ← Nat.cast_mul, toSizeT_natCast (by omega), ← Nat.cast_add, hsum, toSizeT_natCast (by omega),
    toUInt32_natCast h]

lemma fsmSubtree_lt {parent : FsmAddress} {slot : Nat}
    (ha : a ∈ fsmSubtree (fsmGetChild parent slot))
    (hb : b ∈ fsmSubtree (fsmGetChild parent (slot + 1))) :
    fsmLogicalToPhysical a < fsmLogicalToPhysical b := by
  obtain ⟨hla, blk, hblk, ha, htop⟩ := ha
  obtain ⟨hlb, blk', hblk', hb, htop'⟩ := hb
  have hlt : blk < 2 ^ 32 := by omega
  have hlt' : blk' < 2 ^ 32 := by omega
  refine fsmLogicalToPhysical_lt hlt hlt' ha hb ?_
  have hlog := (mem_fsmPath hlt htop).2
  have hlog' := (mem_fsmPath hlt' htop').2
  have hnext : blk' / slotsPerFsmPage / slotsPerFsmPage ^ (fsmGetChild parent slot).level
      = blk / slotsPerFsmPage / slotsPerFsmPage ^ (fsmGetChild parent slot).level + 1 := by
    have hsmall : blk / slotsPerFsmPage / slotsPerFsmPage ^ (fsmGetChild parent slot).level
        < 2 ^ 31 - 1 := by
      refine lt_of_le_of_lt (Nat.div_le_self _ _) ?_
      rw [show slotsPerFsmPage = 4069 from rfl]
      omega
    rw [fsmGetChild_succ hsmall hlog] at hlog'
    exact_mod_cast hlog'.symm
  calc fsmFirst blk a.level ≤ blk / slotsPerFsmPage := Nat.div_mul_le_self _ _
    _ < fsmFirst blk' (fsmGetChild parent slot).level := by
      rw [fsmFirst, hnext, Nat.add_mul, Nat.one_mul]
      exact Nat.lt_div_mul_add (Nat.pow_pos (by decide))
    _ ≤ fsmFirst blk' b.level := firstLeaf_anti hlb _

lemma exists_fsmPage (hp : n ≤ fsmPageNumber 0 leaf) :
    ∃ level ≤ 2, ∃ leaf' ≤ leaf, slotsPerFsmPage ^ level ∣ leaf' ∧
      fsmPageNumber level leaf' = n := by
  induction leaf with
  | zero =>
    refine ⟨2 - n, Nat.sub_le .., 0, le_rfl, Nat.dvd_zero _, ?_⟩
    simp only [fsmPageNumber, Nat.zero_div] at hp ⊢
    omega
  | succ leaf ih =>
    rcases le_or_gt n (fsmPageNumber 0 leaf) with hle | hlt
    · obtain ⟨level, hlevel, leaf', hleaf, hpage⟩ := ih hle
      exact ⟨level, hlevel, leaf', hleaf.trans (Nat.le_succ leaf), hpage⟩
    · -- the pages that the next leaf brings with it
      have hS : slotsPerFsmPage = 4069 := rfl
      obtain ⟨level, hlevel⟩ : ∃ level, n + level = fsmPageNumber 0 (leaf + 1) :=
        Nat.le.dest hp
      simp only [fsmPageNumber, hS] at hlt hlevel hp ⊢
      have hle : level ≤ 2 := by omega
      refine ⟨level, hle, leaf + 1, le_rfl, ?_, ?_⟩
      · interval_cases level <;> omega
      · omega

lemma exists_mem_fsmPath (heapblk : Nat) (hlevel : level ≤ 2) :
    ∃ addr ∈ fsmPath heapblk, addr.level = level := by
  interval_cases level
  · exact ⟨_, .head _, rfl⟩
  · exact ⟨_, .tail _ (.head _), rfl⟩
  · exact ⟨_, .tail _ (.tail _ (.head _)), rfl⟩

/-- The pages of the heap blocks up to one are numbered from 0 without gaps. -/
lemma fsmLogicalToPhysical_image (h : heapblk < 2 ^ 32) :
    fsmLogicalToPhysical '' {addr | ∃ blk ≤ heapblk, addr ∈ fsmPath blk}
      = Set.Iic (fsmLogicalToPhysical (fsmGetLocation heapblk)) := by
  have hlast : fsmLogicalToPhysical (fsmGetLocation heapblk)
      = fsmPageNumber 0 (heapblk / slotsPerFsmPage) := by
    simpa [fsmGetLocation] using fsmPath_exact h (.head _)
  ext pageno
  rw [hlast]
  constructor
  · rintro ⟨addr, ⟨blk, hle, hmem⟩, rfl⟩
    rw [fsmPath_exact (hle.trans_lt h) hmem]
    exact fsmPageNumber_mono ((Nat.div_mul_le_self _ _).trans (Nat.div_le_div_right hle))
  · intro hp
    obtain ⟨level, hlevel, leaf, hleaf, hdvd, rfl⟩ := exists_fsmPage hp
    have hblk : leaf * slotsPerFsmPage ≤ heapblk :=
      (Nat.le_div_iff_mul_le (by decide)).mp hleaf
    obtain ⟨addr, hmem, rfl⟩ := exists_mem_fsmPath (leaf * slotsPerFsmPage) hlevel
    refine ⟨addr, ⟨_, hblk, hmem⟩, ?_⟩
    rw [fsmPath_exact (hblk.trans_lt h) hmem, Nat.mul_div_cancel _ (by decide),
      Nat.div_mul_cancel hdvd]

/-- A depth-first walk over the tree of free space pages meets the blocks in order, and each address
has its own. -/
theorem fsm_depth_first :
    Set.InjOn fsmLogicalToPhysical fsmAddresses ∧
      (∀ child ∈ fsmAddresses, child.level < 2 →
        fsmLogicalToPhysical (fsmGetParent child) < fsmLogicalToPhysical child) ∧
      (∀ parent slot, ∀ a ∈ fsmSubtree (fsmGetChild parent slot),
        ∀ b ∈ fsmSubtree (fsmGetChild parent (slot + 1)),
          fsmLogicalToPhysical a < fsmLogicalToPhysical b) ∧
      ∀ heapblk < 2 ^ 32 - 1,
        fsmLogicalToPhysical '' {addr | ∃ blk ≤ heapblk, addr ∈ fsmPath blk}
          = Set.Iic (fsmLogicalToPhysical (fsmGetLocation heapblk)) ∧
        (∀ addr ∈ fsmPath heapblk,
          addr.logpageno = (heapblk / slotsPerFsmPage / slotsPerFsmPage ^ addr.level : Nat) ∧
          fsmLogicalToPhysicalChecked addr = some (fsmLogicalToPhysical addr : Int) ∧
          (addr.level < 2 → fsmGetChild (fsmGetParent addr) (fsmParentSlot addr) = addr)) ∧
        fsmGetHeapBlk (fsmGetLocation heapblk) (fsmLocationSlot heapblk) = heapblk := by
  refine ⟨?_, ?_, ?_, fun heapblk hblk => ?_⟩
  · rintro a ⟨blk, hblk, ha⟩ b ⟨blk', hblk', hb⟩
    exact fsmLogicalToPhysical_inj (by omega) (by omega) ha hb
  · rintro child ⟨blk, hblk, hmem⟩
    exact fsmGetParent_lt (by omega) hmem
  · intro parent slot a ha b hb
    exact fsmSubtree_lt ha hb
  · have h : heapblk < 2 ^ 32 := by omega
    refine ⟨fsmLogicalToPhysical_image h, fun addr hmem => ?_, ?_⟩
    · obtain ⟨hlevel, hlog⟩ := mem_fsmPath h hmem
      have hleaf : heapblk / slotsPerFsmPage < 2 ^ 28 := by
        rw [show slotsPerFsmPage = 4069 from rfl]
        omega
      rw [fsmPath_exact h hmem]
      refine ⟨hlog, fsmLogicalToPhysicalChecked_eq hlog hlevel ?_, fun _ => ?_⟩
      · exact (Nat.div_mul_le_self _ _).trans_lt hleaf
      · exact fsmGetChild_fsmGetParent hlog ((Nat.div_le_self _ _).trans_lt hleaf)
    · exact fsmGetHeapBlk_fsmGetLocation h

end Umbra
