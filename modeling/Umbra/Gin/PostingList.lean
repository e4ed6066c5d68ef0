import Mathlib.Algebra.GroupWithZero.Nat
import Mathlib.Data.List.Basic
import Mathlib.Order.Nat

/-!
# Compressed posting lists

A segment holds its first item as it is and every other one as the distance from the item before
it, in bytes of seven bits each. Dropping an item replaces two distances by their sum, which takes
no more bytes than the two together.
-/

namespace Umbra.GinPostingList

open List Nat

structure ItemPointer where
  blockNumber : ℕ
  offsetNumber : ℕ
  deriving DecidableEq, Repr

namespace ItemPointer

/-- A 32-bit block number, and an offset that fits `MaxHeapTuplesPerPageBits`. -/
def Valid (iptr : ItemPointer) : Prop :=
  iptr.blockNumber < 2 ^ 32 ∧ 1 ≤ iptr.offsetNumber ∧ iptr.offsetNumber < 2 ^ 11

instance (iptr : ItemPointer) : Decidable iptr.Valid := inferInstanceAs (Decidable (_ ∧ _ ∧ _))

/-- `ginCompareItemPointers`. -/
def Before (a b : ItemPointer) : Prop :=
  a.blockNumber < b.blockNumber ∨ a.blockNumber = b.blockNumber ∧ a.offsetNumber < b.offsetNumber

instance (a b : ItemPointer) : Decidable (a.Before b) := inferInstanceAs (Decidable (_ ∨ _))

end ItemPointer

def ItemPointer.toUint64 (iptr : ItemPointer) : ℕ := iptr.blockNumber <<< 11 ||| iptr.offsetNumber

def uint64ToItemptr (val : ℕ) : ItemPointer := ⟨val >>> 11 % 2 ^ 32, val &&& (1 <<< 11 - 1)⟩

def encodeVarbyte (val : ℕ) : List ℕ :=
  if val ≤ 0x7F then [val] else (0x80 ||| (val &&& 0x7F)) :: encodeVarbyte (val >>> 7)
termination_by val
decreasing_by
  rw [Nat.shiftRight_eq_div_pow]
  omega

/-- `decode_varbyte` from the byte shifted by `shift` on: the value, and how many bytes precede the
last. -/
def decodeVarbyte (shift : ℕ) : List ℕ → Option (ℕ × ℕ)
  | [] => none
  | c :: ptr =>
    -- the seventh byte should not have a continuation bit, and is not asked for it
    if shift = 42 then some (c <<< 42, 0)
    else if c &&& 0x80 = 0 then some ((c &&& 0x7F) <<< shift, 0)
    else (decodeVarbyte (shift + 7) ptr).map fun (val, n) => ((c &&& 0x7F) <<< shift ||| val, n + 1)

def shortalign (n : ℕ) : ℕ := n + n % 2

def shortalignDown (n : ℕ) : ℕ := n - n % 2

/-- `GinPostingList`: `bytes` are the first `nbytes` bytes behind the header. -/
structure Segment where
  first : ItemPointer
  bytes : List ℕ
  deriving DecidableEq, Repr

def uint16Bytes (n : ℕ) : List ℕ := [n % 256, n / 256 % 256]

def Segment.sizeOf (plist : Segment) : ℕ := 8 + shortalign plist.bytes.length

def Segment.toBytes (plist : Segment) : List ℕ :=
  uint16Bytes (plist.first.blockNumber >>> 16) ++
    uint16Bytes (plist.first.blockNumber &&& 0xFFFF) ++
    uint16Bytes plist.first.offsetNumber ++ uint16Bytes plist.bytes.length ++ plist.bytes ++
    List.replicate (plist.bytes.length % 2) 0

/-- The loop of `ginCompressPostingList` with `room` bytes left: the bytes that it writes, and the
number of items. -/
def compressLoop (room prev : ℕ) : List ItemPointer → List ℕ × ℕ
  | [] => ([], 0)
  | iptr :: ipd =>
    let val := iptr.toUint64
    let buf := encodeVarbyte (val - prev)
    if room < 7 ∧ room < buf.length then ([], 0)
    else
      let (bytes, n) := compressLoop (room - buf.length) val ipd
      (buf ++ bytes, n + 1)

def maxbytes (maxsize : ℕ) : ℕ := shortalignDown maxsize - 8

/-- `ginCompressPostingList` on an array that starts with `first`: the segment and `nwritten`. -/
def compress (first : ItemPointer) (ipd : List ItemPointer) (maxsize : ℕ) :
    Segment × ℕ :=
  let (bytes, n) := compressLoop (maxbytes maxsize) first.toUint64 ipd
  (⟨first, bytes⟩, n + 1)

/-- There is room for a byte, as the function asserts, and `nbytes` has 16 bits. -/
def Admitted (maxsize : ℕ) : Prop := 0 < maxbytes maxsize ∧ maxbytes maxsize < 2 ^ 16

/-- The segments of successive calls, the `i`-th with the maximum size `maxsize i`. -/
def compressAll (maxsize : ℕ → ℕ) (i : ℕ) : List ItemPointer → List ℕ
  | [] => []
  | first :: ipd =>
    let (plist, n) := compress first ipd (maxsize i)
    plist.toBytes ++ compressAll maxsize (i + 1) (ipd.drop (n - 1))
termination_by ipd => ipd.length
decreasing_by simp only [List.length_drop, List.length_cons]; omega

/-- The inner loop of `ginPostingListDecodeAllSegments`, `left` bytes in front of `endptr`. -/
def decodeItems (val left : ℕ) (ptr : List ℕ) : Option (List ItemPointer) :=
  if left = 0 then some []
  else do
    let (delta, n) ← decodeVarbyte 0 ptr
    let val := (val + delta) % 2 ^ 64
    let items ← decodeItems val (left - (n + 1)) (ptr.drop (n + 1))
    some (uint64ToItemptr val :: items)
termination_by left

/-- `ginPostingListDecodeAllSegments`. There is no result if it reads behind the segments. -/
def decodeAllSegments : List ℕ → Option (List ItemPointer)
  | [] => some []
  | hi :: hi' :: lo :: lo' :: posid :: posid' :: nbytes :: nbytes' :: ptr => do
    let first := ⟨(hi + 256 * hi') <<< 16 ||| (lo + 256 * lo'), posid + 256 * posid'⟩
    let items ← decodeItems first.toUint64 (nbytes + 256 * nbytes') ptr
    let rest ← decodeAllSegments (ptr.drop (shortalign (nbytes + 256 * nbytes')))
    some (first :: items ++ rest)
  | _ => none
termination_by mem => mem.length
decreasing_by simp only [List.length_drop, List.length_cons]; omega

/-! ### Item pointers as integers -/

section Items

variable {iptr : ItemPointer} (h : iptr.Valid)
include h

lemma toUint64_eq : iptr.toUint64 = iptr.blockNumber * 2 ^ 11 + iptr.offsetNumber := by
  rw [ItemPointer.toUint64, ← Nat.shiftLeft_add_eq_or_of_lt h.2.2, Nat.shiftLeft_eq]

lemma toUint64_lt : iptr.toUint64 < 2 ^ 43 := by
  obtain ⟨hblock, -, hoffset⟩ := id h
  rw [toUint64_eq h]
  omega

lemma uint64ToItemptr_toUint64 : uint64ToItemptr iptr.toUint64 = iptr := by
  obtain ⟨hblock, -, hoffset⟩ := id h
  have hand : ∀ n, n &&& (1 <<< 11 - 1) = n % 2 ^ 11 := fun n => n.and_two_pow_sub_one_eq_mod 11
  rw [uint64ToItemptr, toUint64_eq h, hand, Nat.shiftRight_eq_div_pow]
  grind [ItemPointer]

lemma Before.lt {iptr'} (h' : iptr'.Valid) (hlt : iptr.Before iptr') :
    iptr.toUint64 < iptr'.toUint64 := by
  have hoffset := h.2.2
  rw [toUint64_eq h, toUint64_eq h']
  rcases hlt with hlt | ⟨heq, hlt⟩ <;> omega

end Items

/-! ### Bytes of seven bits -/

variable {val : ℕ}

lemma encodeVarbyte_of_le (h : val ≤ 0x7F) : encodeVarbyte val = [val] := by
  rw [encodeVarbyte, if_pos h]

lemma encodeVarbyte_of_gt (h : ¬ val ≤ 0x7F) :
    encodeVarbyte val = (0x80 ||| (val &&& 0x7F)) :: encodeVarbyte (val >>> 7) := by
  rw [encodeVarbyte, if_neg h]

lemma length_encodeVarbyte_pos (val) : 0 < (encodeVarbyte val).length := by
  rw [encodeVarbyte]
  split <;> simp

lemma length_encodeVarbyte_le_iff {k} :
    (encodeVarbyte val).length ≤ k + 1 ↔ val < 128 ^ (k + 1) := by
  induction val using encodeVarbyte.induct generalizing k with
  | case1 val h =>
    have hpow : 128 ^ 1 ≤ 128 ^ (k + 1) := Nat.pow_le_pow_right (by decide) (by omega)
    simp only [encodeVarbyte_of_le h, length_singleton]
    omega
  | case2 val h ih =>
    rw [encodeVarbyte_of_gt h, length_cons, Nat.add_le_add_iff_right]
    cases k with
    | zero =>
      have hpos := length_encodeVarbyte_pos (val >>> 7)
      omega
    | succ k =>
      rw [ih, Nat.shiftRight_eq_div_pow, div_lt_iff_lt_mul (by decide), ← pow_succ]

lemma length_encodeVarbyte_add_le (a b) :
    (encodeVarbyte (a + b)).length ≤ (encodeVarbyte a).length + (encodeVarbyte b).length := by
  wlog hab : a ≤ b generalizing a b
  · rw [add_comm a b, add_comm (encodeVarbyte a).length]
    exact this b a (le_of_not_ge hab)
  obtain ⟨k, hk⟩ := exists_eq_succ_of_ne_zero (ne_of_gt (length_encodeVarbyte_pos b))
  have hb : b < 128 ^ (k + 1) := length_encodeVarbyte_le_iff.mp (le_of_eq hk)
  have hsum : a + b < 128 ^ (k + 1 + 1) := by
    rw [pow_succ]
    omega
  have hle := length_encodeVarbyte_le_iff.mpr hsum
  have hpos := length_encodeVarbyte_pos a
  omega

lemma decodeVarbyte_encodeVarbyte {j : ℕ} (hj : j ≤ 6) (hval : val < 2 ^ (7 * (7 - j))) (post) :
    decodeVarbyte (7 * j) (encodeVarbyte val ++ post) =
      some (val <<< (7 * j), (encodeVarbyte val).length - 1) := by
  have hbits : ∀ r < 128, (0x80 ||| r) &&& 0x80 ≠ 0 ∧ (0x80 ||| r) &&& 0x7F = r ∧
      r &&& 0x80 = 0 ∧ r &&& 0x7F = r := by decide
  induction val using encodeVarbyte.induct generalizing j with
  | case1 val h =>
    obtain ⟨-, -, hlast, hlow⟩ := hbits val (by omega)
    by_cases hj' : 7 * j = 42
    · simp [encodeVarbyte_of_le h, decodeVarbyte, hj']
    · simp [encodeVarbyte_of_le h, decodeVarbyte, hj', hlast, hlow]
  | case2 val h ih =>
    have hlt : j < 6 := by
      refine lt_of_le_of_ne hj ?_
      rintro rfl
      omega
    have hmod : val &&& 0x7F = val % 2 ^ 7 := val.and_two_pow_sub_one_eq_mod 7
    obtain ⟨hmore, hlow, -⟩ := hbits (val &&& 0x7F) (by omega)
    have hrest : val >>> 7 < 2 ^ (7 * (7 - (j + 1))) := by
      rw [Nat.shiftRight_eq_div_pow, div_lt_iff_lt_mul (by decide), ← pow_add]
      exact (show 7 * (7 - j) = 7 * (7 - (j + 1)) + 7 by omega) ▸ hval
    have hval' : (val &&& 0x7F) ||| (val >>> 7) <<< 7 = val := by
      rw [hmod, Nat.or_comm, ← Nat.shiftLeft_add_eq_or_of_lt (by omega), Nat.shiftLeft_eq,
        Nat.shiftRight_eq_div_pow]
      omega
    rw [encodeVarbyte_of_gt h, cons_append, decodeVarbyte, if_neg (by omega), if_neg hmore,
      show 7 * j + 7 = 7 * (j + 1) by omega, ih hlt hrest, hlow]
    simp only [Option.map_some, Option.some.injEq, Prod.mk.injEq, length_cons]
    constructor
    · rw [show 7 * (j + 1) = 7 + 7 * j by omega, shiftLeft_add, ← shiftLeft_or_distrib,
        hval']
    · have hpos := length_encodeVarbyte_pos (val >>> 7)
      omega

/-! ### Segments -/

def Follows (prev : ℕ) (ipd : List ItemPointer) : Prop :=
  (∀ iptr ∈ ipd, iptr.Valid) ∧ (prev :: ipd.map (·.toUint64)).Pairwise (· < ·)

variable {prev room : ℕ} {first iptr : ItemPointer} {ipd sub : List ItemPointer}

lemma Follows.cons_iff : Follows prev (iptr :: ipd) ↔
    iptr.Valid ∧ prev < iptr.toUint64 ∧ Follows iptr.toUint64 ipd := by
  simp only [Follows, forall_mem_cons, map_cons, pairwise_cons]
  grind

lemma Follows.of_pairwise (hvalid : ∀ iptr ∈ first :: ipd, iptr.Valid)
    (hsorted : (first :: ipd).Pairwise ItemPointer.Before) : Follows first.toUint64 ipd := by
  refine ⟨fun iptr hmem => hvalid iptr (.tail _ hmem), ?_⟩
  rw [← map_cons, pairwise_map]
  exact hsorted.imp_of_mem fun ha hb hlt => Before.lt (hvalid _ ha) (hvalid _ hb) hlt

def packedSize (prev : ℕ) : List ItemPointer → ℕ
  | [] => 0
  | iptr :: ipd =>
    (encodeVarbyte (iptr.toUint64 - prev)).length + packedSize iptr.toUint64 ipd

lemma packedSize_le_add {mid} (hprev : prev ≤ mid) (h : Follows mid ipd) :
    packedSize prev ipd ≤ (encodeVarbyte (mid - prev)).length + packedSize mid ipd := by
  cases ipd with
  | nil => simp [packedSize]
  | cons iptr ipd =>
    have hlt := (Follows.cons_iff.mp h).2.1
    have hadd := length_encodeVarbyte_add_le (mid - prev) (iptr.toUint64 - mid)
    rw [show mid - prev + (iptr.toUint64 - mid) = iptr.toUint64 - prev by omega] at hadd
    simp only [packedSize]
    omega

lemma Follows.sublist (h : Follows prev ipd) (hsub : sub.Sublist ipd) : Follows prev sub :=
  ⟨fun iptr hmem => h.1 iptr (hsub.subset hmem), h.2.sublist ((hsub.map _).cons_cons _)⟩

lemma packedSize_sublist (h : Follows prev ipd) (hsub : sub.Sublist ipd) :
    packedSize prev sub ≤ packedSize prev ipd := by
  induction hsub generalizing prev with
  | slnil => exact le_rfl
  | cons iptr hsub ih =>
    obtain ⟨-, hlt, hrest⟩ := Follows.cons_iff.mp h
    have hle := packedSize_le_add hlt.le (hrest.sublist hsub)
    have hih := ih hrest
    simp only [packedSize]
    omega
  | cons_cons iptr hsub ih => exact Nat.add_le_add_left (ih (Follows.cons_iff.mp h).2.2) _

/-- What the loop writes fits, decodes to the items in front of the first one that it leaves, and
would not fit together with that one. -/
lemma compressLoop_spec (h : Follows prev ipd) {bytes n}
    (hloop : compressLoop room prev ipd = (bytes, n)) :
    n ≤ ipd.length ∧ bytes.length ≤ room ∧ bytes.length = packedSize prev (ipd.take n) ∧
      (∀ post, decodeItems prev bytes.length (bytes ++ post) = some (ipd.take n)) ∧
      (n < ipd.length → room < packedSize prev (ipd.take (n + 1))) := by
  induction ipd generalizing prev room bytes n with
  | nil =>
    cases hloop
    exact ⟨le_rfl, zero_le _, rfl, fun _ => by simp [decodeItems], by simp⟩
  | cons iptr ipd ih =>
    obtain ⟨hvalid, hlt, hrest⟩ := Follows.cons_iff.mp h
    have hval := toUint64_lt hvalid
    have hseven : (encodeVarbyte (iptr.toUint64 - prev)).length ≤ 7 :=
      length_encodeVarbyte_le_iff.mpr (by omega)
    rw [compressLoop] at hloop
    split at hloop
    · rename_i hfull
      cases hloop
      refine ⟨zero_le _, zero_le _, rfl, fun _ => by simp [decodeItems], fun _ => ?_⟩
      simpa [packedSize] using hfull.2
    · rename_i hfits
      cases hloop
      obtain ⟨hn, hle, hsize, hdecode, hmore⟩ := ih hrest rfl
      have hpos := length_encodeVarbyte_pos (iptr.toUint64 - prev)
      refine ⟨by simpa using hn, ?_, ?_, fun post => ?_, fun hlt => ?_⟩
      · rw [length_append]
        omega
      · rw [length_append, hsize]
        rfl
      · have hvarbyte := decodeVarbyte_encodeVarbyte (zero_le 6)
          (show iptr.toUint64 - prev < 2 ^ 49 by omega)
          ((compressLoop (room - (encodeVarbyte (iptr.toUint64 - prev)).length)
            iptr.toUint64 ipd).1 ++ post)
        rw [decodeItems, if_neg (by rw [length_append]; omega), append_assoc, hvarbyte]
        have hsum : (prev + (iptr.toUint64 - prev) <<< (7 * 0)) % 2 ^ 64
            = iptr.toUint64 := by
          rw [mul_zero, shiftLeft_zero]
          omega
        simp only [Option.bind_eq_bind, Option.bind_some, hsum, length_append]
        rw [show (encodeVarbyte (iptr.toUint64 - prev)).length - 1 + 1
          = (encodeVarbyte (iptr.toUint64 - prev)).length by omega, drop_left,
          Nat.add_sub_cancel_left, hdecode]
        simp [uint64ToItemptr_toUint64 hvalid]
      · have hlt' := hmore (by simpa using hlt)
        simp only [take_succ_cons, packedSize]
        omega

variable {bytes : List ℕ} {maxsize n : ℕ}

lemma decodeAllSegments_append (hvalid : first.Valid) (h : Follows first.toUint64 ipd)
    (hsize : Admitted maxsize)
    (hloop : compressLoop (maxbytes maxsize) first.toUint64 ipd = (bytes, n)) (post) :
    decodeAllSegments (Segment.toBytes ⟨first, bytes⟩ ++ post) =
      (decodeAllSegments post).map fun rest => first :: ipd.take n ++ rest := by
  obtain ⟨-, hle, -, hdecode, -⟩ := compressLoop_spec h hloop
  obtain ⟨blockNumber, offsetNumber⟩ := first
  obtain ⟨hblock : blockNumber < _, -, hoffset : offsetNumber < _⟩ := hvalid
  have hword : ∀ n < 2 ^ 16, n % 256 + 256 * (n / 256 % 256) = n := by omega
  have hlow : blockNumber &&& 0xFFFF = blockNumber % 2 ^ 16 :=
    blockNumber.and_two_pow_sub_one_eq_mod 16
  have hhigh : blockNumber >>> 16 = blockNumber / 2 ^ 16 := Nat.shiftRight_eq_div_pow ..
  have hnumber : (blockNumber >>> 16) <<< 16 ||| (blockNumber &&& 0xFFFF) = blockNumber := by
    rw [hlow, ← Nat.shiftLeft_add_eq_or_of_lt (by omega), Nat.shiftLeft_eq, hhigh]
    omega
  have hdrop : (bytes ++ (List.replicate (bytes.length % 2) 0 ++ post)).drop
      (shortalign bytes.length) = post := by
    rw [← append_assoc]
    exact drop_left' (by simp [shortalign])
  simp only [Segment.toBytes, uint16Bytes, cons_append, nil_append, append_assoc]
  rw [decodeAllSegments, hword _ (by omega), hword _ (by omega), hword _ (by omega),
    hword _ (hle.trans_lt hsize.2), hnumber, hdrop]
  simp only [hdecode]
  cases decodeAllSegments post <;> simp

lemma decodeAllSegments_compressAll {maxsize} (hsize : ∀ i, Admitted (maxsize i)) (i)
    (hvalid : ∀ iptr ∈ ipd, iptr.Valid) (hsorted : ipd.Pairwise ItemPointer.Before) :
    decodeAllSegments (compressAll maxsize i ipd) = some ipd := by
  induction i, ipd using compressAll.induct maxsize with
  | case1 => simp [compressAll, decodeAllSegments]
  | case2 i first ipd plist n hcall ih =>
    cases hcall
    have hrest := ih (fun iptr hmem => hvalid iptr (.tail _ (mem_of_mem_drop hmem)))
      (hsorted.of_cons.sublist (drop_sublist ..))
    rw [compressAll]
    refine (decodeAllSegments_append (hvalid _ mem_cons_self) (.of_pairwise hvalid hsorted)
      (hsize i) rfl _).trans ?_
    rw [hrest]
    simp

lemma compressLoop_of_packedSize_le {prev' bytes'} (h : Follows prev ipd) (h' : Follows prev' sub)
    (hloop : compressLoop room prev ipd = (bytes, ipd.length))
    (hloop' : compressLoop room prev' sub = (bytes', n))
    (hle : packedSize prev' sub ≤ packedSize prev ipd) :
    n = sub.length ∧ bytes'.length ≤ bytes.length := by
  obtain ⟨-, hroom, hsize, -⟩ := compressLoop_spec h hloop
  obtain ⟨hn, -, hsize', -, hmore⟩ := compressLoop_spec h' hloop'
  have htake := fun k => packedSize_sublist h' (sub.take_sublist k)
  have hall : n = sub.length := by
    by_contra hne
    have hlt := hmore (lt_of_le_of_ne hn hne)
    have hnext := htake (n + 1)
    rw [take_length] at hsize
    omega
  rw [take_length] at hsize
  exact ⟨hall, hsize' ▸ hsize ▸ (htake n).trans hle⟩

/-- Every call encodes a prefix within its maximum size and stops only in front of an item that does
not fit; the segments of successive calls decode to the array; and vacuuming items away never takes
more space. -/
theorem posting_list_compression (hvalid : ∀ iptr ∈ first :: ipd, iptr.Valid)
    (hsorted : (first :: ipd).Pairwise ItemPointer.Before) :
    (∀ maxsize, Admitted maxsize → ∀ plist n, compress first ipd maxsize = (plist, n) →
      0 < n ∧ n ≤ (first :: ipd).length ∧ plist.sizeOf ≤ maxsize ∧
      decodeAllSegments plist.toBytes = some ((first :: ipd).take n) ∧
      (n < (first :: ipd).length → maxbytes maxsize < packedSize first.toUint64 (ipd.take n))) ∧
    (∀ maxsize : ℕ → ℕ, (∀ i, Admitted (maxsize i)) →
      decodeAllSegments (compressAll maxsize 0 (first :: ipd)) = some (first :: ipd)) ∧
    ∀ maxsize first' sub, (first' :: sub).Sublist (first :: ipd) →
      (compress first ipd maxsize).2 = (first :: ipd).length →
        (compress first' sub maxsize).2 = (first' :: sub).length ∧
        (compress first' sub maxsize).1.sizeOf ≤ (compress first ipd maxsize).1.sizeOf := by
  have h := Follows.of_pairwise hvalid hsorted
  refine ⟨?_, fun _ hsize => decodeAllSegments_compressAll hsize 0 hvalid hsorted, ?_⟩
  · rintro maxsize hsize _ _ ⟨⟩
    obtain ⟨hn, hle, -, -, hmore⟩ := compressLoop_spec h (Prod.eta _).symm
    refine ⟨succ_pos _, succ_le_succ hn, ?_, ?_, fun hlt => hmore (lt_of_succ_lt_succ hlt)⟩
    · have hpos := hsize.1
      simp only [Segment.sizeOf, shortalign, maxbytes, shortalignDown] at hpos hle ⊢
      omega
    · have hdecode := decodeAllSegments_append (hvalid _ mem_cons_self) h hsize rfl []
      simpa [decodeAllSegments] using hdecode
  · intro maxsize first' sub hsub hfits
    have h' := Follows.of_pairwise (fun iptr hmem => hvalid iptr (hsub.subset hmem))
      (hsorted.sublist hsub)
    have hle : packedSize first'.toUint64 sub ≤ packedSize first.toUint64 ipd := by
      rcases sublist_cons_iff.mp hsub with hsub | ⟨r, heq, hsub⟩
      · exact (le_add_left ..).trans (packedSize_sublist h hsub)
      · cases heq
        exact packedSize_sublist h hsub
    have hloop : compressLoop (maxbytes maxsize) first.toUint64 ipd = (_, ipd.length) :=
      Prod.ext rfl (Nat.succ.inj hfits)
    obtain ⟨hn, hbytes⟩ := compressLoop_of_packedSize_le h h' hloop (Prod.eta _).symm hle
    have halign : ∀ m k, m ≤ k → shortalign m ≤ shortalign k := by
      simp only [shortalign]
      omega
    exact ⟨congrArg Nat.succ hn, Nat.add_le_add_left (halign _ _ hbytes) 8⟩

theorem posting_list_compression_three :
    decodeAllSegments (compressAll (fun _ => 12) 0 [⟨7, 1⟩, ⟨7, 90⟩, ⟨9, 3⟩]) =
      some [⟨7, 1⟩, ⟨7, 90⟩, ⟨9, 3⟩] :=
  (posting_list_compression (by decide) (by decide)).2.1 _ fun _ => ⟨by decide, by decide⟩

end Umbra.GinPostingList
