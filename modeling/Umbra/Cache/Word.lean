import Mathlib.Algebra.GroupWithZero.Nat
import Mathlib.Data.Fin.Basic

/-!
# The state word of a MAP buffer

One atomic 32-bit word holds the reference count, the usage count and the flags of a MAP buffer. The
counts are changed by adding and subtracting on the whole word, so a count that leaves its field
carries into the flags next to it.
-/

namespace Umbra.Cache

/-- The fields of the word, from the low bits to the high ones. -/
structure Word where
  /-- `MAPBUF_VALID_MASK`. -/
  refcount : Fin 512
  /-- `MAPBUF_USAGE_COUNT_MASK`. -/
  usage : Fin 32
  dirty : Bool
  ioInProgress : Bool
  ioError : Bool
  justDirtied : Bool
  notMaterialized : Bool
  checkpointNeeded : Bool
  upper : Fin 4096
  deriving DecidableEq, Repr

namespace Word

def usageCountOne : Nat := 0x200

/-- `MAPBUF_USAGECOUNT_ONE`, as a bit of its field. -/
abbrev usageBit : Fin 32 := 1

def zero : Word := ⟨0, 0, false, false, false, false, false, false, 0⟩

def encode (w : Word) : Nat :=
  w.refcount + 0x200 * w.usage + 0x4000 * w.dirty.toNat + 0x8000 * w.ioInProgress.toNat
    + 0x10000 * w.ioError.toNat + 0x20000 * w.justDirtied.toNat
    + 0x40000 * w.notMaterialized.toNat + 0x80000 * w.checkpointNeeded.toNat
    + 0x100000 * w.upper

def decode (k : Nat) : Word where
  refcount := Fin.ofNat 512 k
  usage := Fin.ofNat 32 (k / 0x200)
  dirty := k / 0x4000 % 2 = 1
  ioInProgress := k / 0x8000 % 2 = 1
  ioError := k / 0x10000 % 2 = 1
  justDirtied := k / 0x20000 % 2 = 1
  notMaterialized := k / 0x40000 % 2 = 1
  checkpointNeeded := k / 0x80000 % 2 = 1
  upper := Fin.ofNat 4096 (k / 0x100000)

def add (w : Word) (k : Nat) : Word := decode ((w.encode + k) % 2 ^ 32)

def sub (w : Word) (k : Nat) : Word := decode ((w.encode + 2 ^ 32 - k) % 2 ^ 32)

lemma encode_digits (w : Word) : w.encode % 512 = w.refcount ∧ w.encode / 0x200 % 32 = w.usage ∧
      w.encode / 0x4000 % 2 = w.dirty.toNat ∧ w.encode / 0x8000 % 2 = w.ioInProgress.toNat ∧
      w.encode / 0x10000 % 2 = w.ioError.toNat ∧ w.encode / 0x20000 % 2 = w.justDirtied.toNat ∧
      w.encode / 0x40000 % 2 = w.notMaterialized.toNat ∧
      w.encode / 0x80000 % 2 = w.checkpointNeeded.toNat ∧
      w.encode / 0x100000 % 4096 = w.upper ∧ w.encode < 2 ^ 32 := by
  have hr := w.refcount.isLt
  have hu := w.usage.isLt
  have hd := w.dirty.toNat_le
  have hi := w.ioInProgress.toNat_le
  have he := w.ioError.toNat_le
  have hj := w.justDirtied.toNat_le
  have hm := w.notMaterialized.toNat_le
  have hc := w.checkpointNeeded.toNat_le
  have ht := w.upper.isLt
  unfold encode
  refine ⟨?_, ?_, ?_, ?_, ?_, ?_, ?_, ?_, ?_, ?_⟩ <;> omega

lemma decide_toNat (b) : decide (b.toNat = 1) = b := by
  cases b <;> rfl

lemma decode_encode (w) : decode w.encode = w := by
  obtain ⟨hr, hu, hd, hi, he, hj, hm, hc, ht, -⟩ := w.encode_digits
  simp only [decode, hd, hi, he, hj, hm, hc, decide_toNat]
  congr 1
  · exact Fin.ext hr
  · exact Fin.ext hu
  · exact Fin.ext ht

lemma add_eq {w w' : Word} {k : Nat} (h : w'.encode = w.encode + k) : w.add k = w' := by
  obtain ⟨-, -, -, -, -, -, -, -, -, hlt⟩ := w'.encode_digits
  rw [add, ← h, Nat.mod_eq_of_lt hlt, decode_encode]

lemma sub_eq {w w' : Word} {k : Nat} (h : w'.encode + k = w.encode) : w.sub k = w' := by
  obtain ⟨-, -, -, -, -, -, -, -, -, hlt⟩ := w'.encode_digits
  have hmod : (w.encode + 2 ^ 32 - k) % 2 ^ 32 = w'.encode := by omega
  rw [sub, hmod, decode_encode]

variable {w : Word}

lemma add_one (h : w.refcount.val + 1 < 512) :
    w.add 1 = { w with refcount := ⟨w.refcount + 1, h⟩ } := by
  apply add_eq
  simp only [encode]
  omega

lemma sub_one (h : 0 < w.refcount.val) :
    w.sub 1 = { w with refcount := ⟨w.refcount - 1, by omega⟩ } := by
  apply sub_eq
  simp only [encode]
  omega

lemma add_usage (h : w.usage.val + 1 < 32) :
    w.add usageCountOne = { w with usage := ⟨w.usage + 1, h⟩ } := by
  apply add_eq
  simp only [encode, usageCountOne]
  omega

lemma sub_usage (h : 0 < w.usage.val) :
    w.sub usageCountOne = { w with usage := ⟨w.usage - 1, by omega⟩ } := by
  apply sub_eq
  simp only [encode, usageCountOne]
  omega

lemma refcount_add_usage (w : Word) : (w.add usageCountOne).refcount = w.refcount := by
  obtain ⟨hr, -⟩ := w.encode_digits
  have hmod : (w.encode + usageCountOne) % 2 ^ 32 % 512 = w.refcount := by
    rw [usageCountOne]
    omega
  exact Fin.ext hmod

/-- Taking one off a usage count of zero clears the dirty flag. -/
example : ({ zero with dirty := true, checkpointNeeded := true } : Word).sub usageCountOne
    = { zero with usage := 31, checkpointNeeded := true } := by
  decide

end Word

end Umbra.Cache
