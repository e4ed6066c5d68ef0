import Mathlib.Algebra.Group.Int.Defs
import Mathlib.Algebra.Group.Nat.Defs
import Mathlib.Order.Lattice

/-!
# The arithmetic of the MAP buffer area

The number of MAP buffers, the size of their pages in shared memory and the offset of a page are
computed in C's `int`, with the wrapping arithmetic the server is compiled with.
-/

namespace Umbra.SharedMemory

def blcksz : Int32 := 8192

def mapRefreshBufferSlots (nBuffers : Int32) : Int32 :=
  let computedSlots := nBuffers >>> 7
  if computedSlots < 4096 then 4096 else computedSlots

/-- The size of `Map Page Data` that `MapShmemRequest` asks for and `MapShmemInit` clears. -/
def pageDataSize (mapBuffers : Int32) : Int32 := mapBuffers * blcksz

/-- The offset of `MapGetPage` into `MapPageData`. -/
def mapGetPage (slotId : Int32) : Int32 := slotId * blcksz

/-- The values `NBuffers` can be configured to. -/
def Admitted (nBuffers : Int32) : Prop := 16 ≤ nBuffers.toInt ∧ nBuffers.toInt < 2 ^ 30

instance (nBuffers : Int32) : Decidable (Admitted nBuffers) := inferInstanceAs (Decidable (_ ∧ _))

/-- A slot of an area with `mapBuffers` slots. -/
def Slot (mapBuffers slotId : Int32) : Prop := 0 ≤ slotId.toInt ∧ slotId.toInt < mapBuffers.toInt

/-- The values are those of unbounded arithmetic, and the pages are disjoint parts of the region. -/
structure Exact (nBuffers : Int32) : Prop where
  buffers : (mapRefreshBufferSlots nBuffers).toInt = max (nBuffers.toInt / 128) 4096
  size : (pageDataSize (mapRefreshBufferSlots nBuffers)).toInt =
    (mapRefreshBufferSlots nBuffers).toInt * 8192
  offset : ∀ slot, Slot (mapRefreshBufferSlots nBuffers) slot →
    (mapGetPage slot).toInt = slot.toInt * 8192
  inside : ∀ slot, Slot (mapRefreshBufferSlots nBuffers) slot → 0 ≤ (mapGetPage slot).toInt ∧
    (mapGetPage slot).toInt + 8192 ≤ (pageDataSize (mapRefreshBufferSlots nBuffers)).toInt
  disjoint : ∀ slot slot', Slot (mapRefreshBufferSlots nBuffers) slot →
    Slot (mapRefreshBufferSlots nBuffers) slot' → slot ≠ slot' →
    (mapGetPage slot).toInt + 8192 ≤ (mapGetPage slot').toInt ∨
      (mapGetPage slot').toInt + 8192 ≤ (mapGetPage slot).toInt

lemma toInt_shiftRight_seven (n : Int32) : (n >>> 7).toInt = n.toInt / 128 := by
  have h : (n >>> 7).toBitVec = n.toBitVec.sshiftRight 7 := rfl
  rw [← Int32.toInt_toBitVec, h, BitVec.toInt_sshiftRight, Int.shiftRight_eq_div_pow]
  rfl

lemma toInt_mapRefreshBufferSlots (n : Int32) :
    (mapRefreshBufferSlots n).toInt = max (n.toInt / 128) 4096 := by
  have hlt : n >>> 7 < 4096 ↔ n.toInt / 128 < 4096 := by
    rw [Int32.lt_iff_toInt_lt, toInt_shiftRight_seven]
    rfl
  simp only [mapRefreshBufferSlots]
  split_ifs with h
  · exact (max_eq_right (hlt.mp h).le).symm
  · exact (toInt_shiftRight_seven n).trans (max_eq_left (not_lt.mp (hlt.not.mp h))).symm

lemma toInt_mul_blcksz (n : Int32) : (n * blcksz).toInt = (n.toInt * 8192).bmod (2 ^ 32) :=
  Int32.toInt_mul n blcksz

/-- A multiple of the block size is computed exactly as long as it stays below `2 ^ 31`. -/
lemma toInt_mul_blcksz_of_lt {n} (h0 : 0 ≤ n.toInt) (hn : n.toInt < 2 ^ 18) :
    (n * blcksz).toInt = n.toInt * 8192 := by
  rw [toInt_mul_blcksz]
  exact Int.bmod_eq_of_le (by omega) (by omega)

/-- The area is computed exactly unless `shared_buffers` reaches `2 ^ 25` buffers, which is 256 GB
of pages. -/
theorem exact_iff_lt (nBuffers : Int32) : Exact nBuffers ↔ nBuffers.toInt < 2 ^ 25 := by
  have hbuffers := toInt_mapRefreshBufferSlots nBuffers
  constructor
  · -- an `int` cannot hold the size of `2 ^ 18` pages
    intro hexact
    have hsize := hexact.size
    have hlt := (pageDataSize (mapRefreshBufferSlots nBuffers)).toInt_lt
    omega
  · intro hlt
    have hslots : (mapRefreshBufferSlots nBuffers).toInt < 2 ^ 18 := by omega
    have hoffset : ∀ slot, Slot (mapRefreshBufferSlots nBuffers) slot →
        (mapGetPage slot).toInt = slot.toInt * 8192 := fun slot hslot =>
      toInt_mul_blcksz_of_lt hslot.1 (hslot.2.trans hslots)
    have hsize : (pageDataSize (mapRefreshBufferSlots nBuffers)).toInt =
        (mapRefreshBufferSlots nBuffers).toInt * 8192 :=
      toInt_mul_blcksz_of_lt (by omega) hslots
    refine ⟨hbuffers, hsize, hoffset, fun slot hslot => ?_, fun slot slot' hslot hslot' hne => ?_⟩
    · rw [hoffset slot hslot, hsize]
      have := hslot.1
      have := hslot.2
      omega
    · rw [hoffset slot hslot, hoffset slot' hslot']
      have := mt Int32.toInt_inj.mp hne
      omega

/-- With `2 ^ 26` buffers the requested size wraps to zero, and slot `2 ^ 18` gets an offset before
the region. -/
theorem size_wraps : Admitted (2 ^ 26) ∧ pageDataSize (mapRefreshBufferSlots (2 ^ 26)) = 0 ∧
    (mapGetPage (2 ^ 18)).toInt = -2 ^ 31 ∧ ¬ Exact (2 ^ 26) :=
  ⟨by decide, by decide, by decide, fun h => absurd h.size (by decide)⟩

end Umbra.SharedMemory
