import Mathlib.Algebra.GroupWithZero.Nat
import Mathlib.Data.List.Basic
import Mathlib.Order.Monotone.Basic
import Mathlib.Order.Nat

/-!
# Reserving and filling space in WAL

`ReserveXLogInsertLocation` counts only the usable bytes of WAL. `CopyXLogRecordToWAL` walks over
the pages, whose headers have 40 bytes at the start of a segment and 24 bytes elsewhere, and must
end where the reservation does. A WAL page has 8192 bytes.
-/

namespace Umbra.WalSpace

open List Nat

variable {β : Type*} (segSize : ℕ)

def segmentOffset (ptr : ℕ) : ℕ := ptr &&& (segSize - 1)

def usableBytesInSegment : ℕ := segSize / 8192 * 8168 - 16

def bytePosToRecPtr (bytepos : ℕ) : ℕ :=
  let fullsegs := bytepos / usableBytesInSegment segSize
  let bytesleft := bytepos % usableBytesInSegment segSize
  fullsegs * segSize +
    if bytesleft < 8152 then bytesleft + 40
    else 8192 + ((bytesleft - 8152) / 8168 * 8192 + (bytesleft - 8152) % 8168 + 24)

def bytePosToEndRecPtr (bytepos : ℕ) : ℕ :=
  let fullsegs := bytepos / usableBytesInSegment segSize
  let bytesleft := bytepos % usableBytesInSegment segSize
  fullsegs * segSize +
    if bytesleft < 8152 then if bytesleft = 0 then 0 else bytesleft + 40
    else if (bytesleft - 8152) % 8168 = 0 then
      8192 + ((bytesleft - 8152) / 8168 * 8192 + (bytesleft - 8152) % 8168)
    else 8192 + ((bytesleft - 8152) / 8168 * 8192 + (bytesleft - 8152) % 8168 + 24)

def recPtrToBytePos (ptr : ℕ) : ℕ :=
  let fullsegs := ptr / segSize
  let fullpages := segmentOffset segSize ptr / 8192
  let offset := ptr % 8192
  if fullpages = 0 then
    fullsegs * usableBytesInSegment segSize + if 0 < offset then offset - 40 else 0
  else
    fullsegs * usableBytesInSegment segSize + 8152 + (fullpages - 1) * 8168 +
      if 0 < offset then offset - 24 else 0

def insertFreespace (endptr : ℕ) : ℕ := if endptr % 8192 = 0 then 0 else 8192 - endptr % 8192

def maxalign (n : ℕ) : ℕ := (n + 7) / 8 * 8

def skipHeader (currPos : ℕ) : ℕ :=
  if segmentOffset segSize currPos = 0 then currPos + 40 else currPos + 24

def place (currPos : ℕ) (data : List β) : List (ℕ × β) := data.mapIdx fun i x => (currPos + i, x)

/-- The loop of `CopyXLogRecordToWAL` on one piece of data: the position, the free space and what
has been placed. -/
def copyPiece : (fuel currPos freespace : ℕ) → List β → Option (ℕ × ℕ × List (ℕ × β))
  | 0, _, _, _ => none
  | fuel + 1, currPos, freespace, data =>
    if freespace < data.length then do
      let next := skipHeader segSize (currPos + freespace)
      let (last, free, placed) ← copyPiece fuel next (insertFreespace next) (data.drop freespace)
      some (last, free, place currPos (data.take freespace) ++ placed)
    else some (currPos + data.length, freespace - data.length, place currPos data)

def copyPieces (fuel : ℕ) : (currPos freespace : ℕ) → List (List β) →
    Option (ℕ × ℕ × List (ℕ × β))
  | currPos, freespace, [] => some (currPos, freespace, [])
  | currPos, freespace, data :: rdata => do
    let (next, free, placed) ← copyPiece segSize fuel currPos freespace data
    let (last, free, placed') ← copyPieces fuel next free rdata
    some (last, free, placed ++ placed')

def fillSegment (endPos currPos : ℕ) : ℕ :=
  if currPos < endPos then fillSegment endPos (currPos + 8192) else currPos
termination_by endPos - currPos
decreasing_by omega

/-- `CopyXLogRecordToWAL`, up to the comparison of the position with `endPos`. -/
def copyXLogRecordToWAL (fuel : ℕ) (isLogSwitch : Bool) (rdata : List (List β))
    (startPos endPos : ℕ) : Option (ℕ × List (ℕ × β)) := do
  let (currPos, freespace, placed) ←
    copyPieces segSize fuel startPos (insertFreespace startPos) rdata
  if isLogSwitch ∧ segmentOffset segSize currPos ≠ 0 then
    some (fillSegment endPos (currPos + freespace), placed)
  else some (maxalign currPos, placed)

structure Insert where
  currBytePos : ℕ
  prevBytePos : ℕ

structure Location where
  startPos : ℕ
  endPos : ℕ
  prevPtr : ℕ

def reserveXLogInsertLocation (insert : Insert) (size : ℕ) : Location × Insert :=
  let endbytepos := insert.currBytePos + maxalign size
  (⟨bytePosToRecPtr segSize insert.currBytePos, bytePosToEndRecPtr segSize endbytepos,
    bytePosToRecPtr segSize insert.prevBytePos⟩, ⟨endbytepos, insert.currBytePos⟩)

/-- `ReserveXLogSwitch`; there is nothing to reserve at the start of a segment. -/
def reserveXLogSwitch (insert : Insert) : Option (Location × Insert) :=
  let ptr := bytePosToEndRecPtr segSize insert.currBytePos
  if segmentOffset segSize ptr = 0 then none
  else
    let endbytepos := insert.currBytePos + maxalign 24
    let startPos := bytePosToRecPtr segSize insert.currBytePos
    let endPos := bytePosToEndRecPtr segSize endbytepos
    let prevPtr := bytePosToRecPtr segSize insert.prevBytePos
    let segleft := segSize - segmentOffset segSize endPos
    if segleft ≠ segSize then
      some (⟨startPos, endPos + segleft, prevPtr⟩,
        ⟨recPtrToBytePos segSize (endPos + segleft), insert.currBytePos⟩)
    else some (⟨startPos, endPos, prevPtr⟩, ⟨endbytepos, insert.currBytePos⟩)

def Here (segSize b pos : ℕ) : Prop :=
  pos = bytePosToRecPtr segSize b ∨ pos = bytePosToEndRecPtr segSize b

def placedAt (segSize b : ℕ) (data : List β) : List (ℕ × β) :=
  data.mapIdx fun i x => (bytePosToRecPtr segSize (b + i), x)

def after (segSize b pos : ℕ) (data : List β) : ℕ :=
  if data = [] then pos else bytePosToEndRecPtr segSize (b + data.length)

/-! ### Positions -/

variable {segSize} {n q p o : ℕ}

lemma usableBytesInSegment_eq (hn : segSize = (n + 1) * 8192) :
    usableBytesInSegment segSize = n * 8168 + 8152 := by
  rw [usableBytesInSegment, hn, Nat.mul_div_cancel _ (by decide)]
  omega

lemma le_of_mul_add_le {u q' x x'} (h : q * u + x ≤ q' * u + x') (hx : x' < u) : q ≤ q' := by
  refine Nat.le_of_lt_succ (Nat.lt_of_mul_lt_mul_right (a := u) ?_)
  rw [Nat.succ_mul]
  omega

lemma position_mod (hn : segSize = (n + 1) * 8192) (hp : p ≤ n) (ho : o < 8192) :
    (q * segSize + (p * 8192 + o)) / segSize = q ∧
      (q * segSize + (p * 8192 + o)) % segSize = p * 8192 + o ∧
      (q * segSize + (p * 8192 + o)) % 8192 = o := by
  have hlt : p * 8192 + o < segSize := by omega
  refine ⟨?_, ?_, ?_⟩
  · rw [mul_comm q, mul_add_div (by omega), div_eq_of_lt hlt, add_zero]
  · rw [mul_add_mod', mod_eq_of_lt hlt]
  · rw [hn, ← mul_assoc]
    omega

lemma placedAt_append (b : ℕ) (data data' : List β) : placedAt segSize b (data ++ data') =
    placedAt segSize b data ++ placedAt segSize (b + data.length) data' := by
  simp [placedAt, mapIdx_append, Nat.add_comm, Nat.add_left_comm]

section Positions

variable {k : ℕ} (hw : segSize = 2 ^ k * 8192)
include hw

lemma segmentOffset_eq (ptr) : segmentOffset segSize ptr = ptr % segSize := by
  have hpow : segSize = 2 ^ (k + 13) := by rw [hw, Nat.pow_add]
  rw [hpow]
  exact and_two_pow_sub_one_eq_mod ..

/-- A byte position by its segment `q`, its page `p` and its place `m` on the page. The first page's
header takes 16 bytes more. -/
lemma bytePos_cases (b : ℕ) : ∃ n q p m, segSize = (n + 1) * 8192 ∧
    b + 16 = q * (n * 8168 + 8152) + (p * 8168 + m) ∧ p ≤ n ∧ m < 8168 ∧ (p = 0 → 16 ≤ m) ∧
    bytePosToRecPtr segSize b = q * segSize + (p * 8192 + (m + 24)) ∧
    bytePosToEndRecPtr segSize b =
      q * segSize + (p * 8192 + if m = 0 ∨ p = 0 ∧ m = 16 then 0 else m + 24) := by
  obtain ⟨n, hn⟩ := Nat.exists_eq_succ_of_ne_zero (Nat.two_pow_pos k).ne'
  have hn : segSize = (n + 1) * 8192 := by rw [hw, hn]
  have hb := Nat.div_add_mod' b (n * 8168 + 8152)
  have hr := Nat.mod_lt b (show n * 8168 + 8152 > 0 by omega)
  rw [bytePosToRecPtr, bytePosToEndRecPtr, usableBytesInSegment_eq hn]
  generalize b / (n * 8168 + 8152) = q at hb ⊢
  generalize b % (n * 8168 + 8152) = r at hb hr ⊢
  refine ⟨n, q, (r + 16) / 8168, (r + 16) % 8168, hn, by omega, by omega,
    Nat.mod_lt _ (by decide), by omega, ?_, ?_⟩
  · split_ifs <;> omega
  · split_ifs <;> omega

lemma recPtrToBytePos_eq (hn : segSize = (n + 1) * 8192) (hp : p ≤ n) (ho : o < 8192) :
    recPtrToBytePos segSize (q * segSize + (p * 8192 + o)) =
      q * (n * 8168 + 8152) + if p = 0 then o - 40 else p * 8168 - 16 + (o - 24) := by
  obtain ⟨hdiv, hmod, hpage⟩ := position_mod (q := q) hn hp ho
  rw [recPtrToBytePos, segmentOffset_eq hw, hdiv, hmod, hpage, usableBytesInSegment_eq hn,
    show (p * 8192 + o) / 8192 = p by omega]
  split_ifs <;> omega

lemma recPtrToBytePos_recPtr (b) :
    recPtrToBytePos segSize (bytePosToRecPtr segSize b) = b ∧
      recPtrToBytePos segSize (bytePosToEndRecPtr segSize b) = b := by
  obtain ⟨n, q, p, m, hn, hb, hp, hm, hfirst, hrec, hend⟩ := bytePos_cases hw b
  rw [hrec, hend, recPtrToBytePos_eq hw hn hp (by omega),
    recPtrToBytePos_eq hw hn hp (by split_ifs <;> omega)]
  constructor
  · split_ifs <;> omega
  · split_ifs <;> omega

lemma recPtr_succ (b) : bytePosToEndRecPtr segSize (b + 1) = bytePosToRecPtr segSize b + 1 := by
  obtain ⟨n, q, p, m, hn, hb, hp, hm, hfirst, hrec, -⟩ := bytePos_cases hw b
  obtain ⟨n', q', p', m', hn', hb', hp', hm', hfirst', -, hend⟩ := bytePos_cases hw (b + 1)
  obtain rfl : n = n' := by omega
  have hq : q ≤ q' := le_of_mul_add_le
    (show q * (n * 8168 + 8152) + (p * 8168 + m - 16) ≤
      q' * (n * 8168 + 8152) + (p' * 8168 + m' - 16) by omega) (by omega)
  have hq' : q' ≤ q + 1 := le_of_mul_add_le
    (show q' * (n * 8168 + 8152) + 0 ≤ (q + 1) * (n * 8168 + 8152) + 0 by
      rw [Nat.succ_mul]; omega) (by omega)
  rw [hrec, hend]
  rcases lt_or_eq_of_le hq with hlt | rfl
  · obtain rfl : q' = q + 1 := by omega
    rw [Nat.succ_mul] at hb' ⊢
    split_ifs <;> omega
  · split_ifs <;> omega

lemma endRecPtr_le (b) : bytePosToEndRecPtr segSize b ≤ bytePosToRecPtr segSize b := by
  obtain ⟨n, q, p, m, -, -, -, -, -, hrec, hend⟩ := bytePos_cases hw b
  rw [hrec, hend]
  split_ifs <;> omega

lemma strictMono_recPtr :
    StrictMono (bytePosToRecPtr segSize) ∧ StrictMono (bytePosToEndRecPtr segSize) := by
  have hle := endRecPtr_le hw
  have hsucc := recPtr_succ hw
  constructor
  · exact strictMono_nat_of_lt_succ fun b => by have := hle (b + 1); grind
  · exact strictMono_nat_of_lt_succ fun b => by have := hle b; grind

lemma recPtr_eq (b) : bytePosToRecPtr segSize b =
    if bytePosToEndRecPtr segSize b % 8192 = 0 then
      skipHeader segSize (bytePosToEndRecPtr segSize b)
    else bytePosToEndRecPtr segSize b := by
  obtain ⟨n, q, p, m, hn, -, hp, hm, hfirst, hrec, hend⟩ := bytePos_cases hw b
  have ho : (if m = 0 ∨ p = 0 ∧ m = 16 then 0 else m + 24) < 8192 := by split_ifs <;> omega
  obtain ⟨-, hmod, hpage⟩ := position_mod (q := q) hn hp ho
  rw [skipHeader, segmentOffset_eq hw, hrec, hend, hmod, hpage]
  by_cases hc : m = 0 ∨ p = 0 ∧ m = 16
  · simp only [hc, if_true]
    split_ifs <;> omega
  · simp [hc]

lemma recPtr_outside (b) : 24 ≤ bytePosToRecPtr segSize b % 8192 ∧
    (bytePosToRecPtr segSize b % segSize < 8192 → 40 ≤ bytePosToRecPtr segSize b % 8192) := by
  obtain ⟨n, q, p, m, hn, -, hp, hm, hfirst, hrec, -⟩ := bytePos_cases hw b
  obtain ⟨-, hmod, hpage⟩ := position_mod (q := q) (o := m + 24) hn hp (by omega)
  rw [hrec, hmod, hpage]
  omega

lemma endRecPtr_mod_eight (b) : bytePosToEndRecPtr segSize b % 8 = b % 8 := by
  obtain ⟨n, q, p, m, hn, hb, hp, hm, hfirst, -, hend⟩ := bytePos_cases hw b
  have hseg : q * segSize % 8 = 0 := by rw [hn, ← mul_assoc]; omega
  have hused : q * (n * 8168 + 8152) % 8 = 0 := by
    rw [show n * 8168 + 8152 = (n * 1021 + 1019) * 8 by omega, ← mul_assoc]
    omega
  rw [hend]
  split_ifs <;> omega

/-! ### Copying -/

variable {b pos : ℕ} (hpos : Here segSize b pos) {data : List β} {fuel : ℕ}
include hpos

lemma Here.recPtr_add {i} (hi : i < insertFreespace pos) :
    pos + i = bytePosToRecPtr segSize (b + i) := by
  induction i with
  | zero =>
    rcases hpos with rfl | rfl
    · rfl
    · rw [add_zero, add_zero, recPtr_eq hw, if_neg]
      intro h0
      simp [insertFreespace, h0] at hi
  | succ i ih =>
    have hend := recPtr_succ hw (b + i)
    rw [← ih (by omega)] at hend
    rw [← add_assoc b, recPtr_eq hw, hend, if_neg]
    · rfl
    · simp only [insertFreespace] at hi
      split_ifs at hi <;> omega

lemma Here.endRecPtr_add (h0 : 0 < n) (hn : n ≤ insertFreespace pos) :
    pos + n = bytePosToEndRecPtr segSize (b + n) := by
  obtain ⟨i, rfl⟩ := Nat.exists_eq_succ_of_ne_zero h0.ne'
  rw [add_succ, hpos.recPtr_add hw hn, add_succ, succ_eq_add_one, recPtr_succ hw]

lemma Here.skipHeader_eq : skipHeader segSize (pos + insertFreespace pos) =
    bytePosToRecPtr segSize (b + insertFreespace pos) := by
  have hend : pos + insertFreespace pos = bytePosToEndRecPtr segSize (b + insertFreespace pos) := by
    rcases Nat.eq_zero_or_pos (insertFreespace pos) with h0 | h0
    · have hout := (recPtr_outside hw b).1
      rcases hpos with rfl | rfl
      · simp only [insertFreespace] at h0
        split_ifs at h0 <;> omega
      · rw [h0]
        rfl
    · exact hpos.endRecPtr_add hw h0 le_rfl
  have hpage : (pos + insertFreespace pos) % 8192 = 0 := by
    simp only [insertFreespace]
    split_ifs <;> omega
  rw [recPtr_eq hw, ← hend, if_pos hpage]

lemma Here.place_eq (hlen : data.length ≤ insertFreespace pos) :
    place pos data = placedAt segSize b data := by
  refine ext_getElem (by simp [place, placedAt]) fun i hi _ => ?_
  have hi : i < data.length := by simpa [place] using hi
  simp [place, placedAt, hpos.recPtr_add hw (hi.trans_le hlen)]

omit hw in
lemma Here.after (data : List β) : Here segSize (b + data.length) (after segSize b pos data) := by
  rw [WalSpace.after]
  split_ifs with hdata
  · simpa [hdata] using hpos
  · exact .inr rfl

lemma copyPiece_spec (hfuel : data.length + (if insertFreespace pos = 0 then 2 else 1) ≤ fuel) :
    copyPiece segSize fuel pos (insertFreespace pos) data =
      some (after segSize b pos data, insertFreespace (after segSize b pos data),
        placedAt segSize b data) := by
  induction fuel generalizing b pos data with
  | zero => split_ifs at hfuel <;> omega
  | succ fuel ih =>
    rw [copyPiece]
    split_ifs with hmore
    · have hout := (recPtr_outside hw (b + insertFreespace pos)).1
      have hnext := @ih _ (bytePosToRecPtr segSize (b + insertFreespace pos)) (.inl rfl)
        (data.drop (insertFreespace pos)) (by
          rw [length_drop, if_neg (by rw [insertFreespace]; split_ifs <;> omega)]
          split_ifs at hfuel <;> omega)
      simp only [hpos.skipHeader_eq hw, hnext, hpos.place_eq hw (length_take_le ..)]
      have hdrop : data.drop (insertFreespace pos) ≠ [] := by simpa using hmore
      have hdata : data ≠ [] := by rintro rfl; simp at hmore
      have hsplit := @placedAt_append _ segSize b
        (data.take (insertFreespace pos)) (data.drop (insertFreespace pos))
      rw [take_append_drop, length_take_of_le hmore.le] at hsplit
      simp [after, hdrop, hdata, hsplit, add_assoc, Nat.add_sub_cancel' hmore.le]
    · have hend : pos + data.length = after segSize b pos data := by
        rw [after]
        split_ifs with hdata
        · simp [hdata]
        · exact hpos.endRecPtr_add hw (length_pos_iff.mpr hdata) (le_of_not_gt hmore)
      have hfree : insertFreespace pos - data.length = insertFreespace (pos + data.length) := by
        simp only [insertFreespace] at hmore ⊢
        split_ifs at hmore ⊢ <;> omega
      rw [hpos.place_eq hw (le_of_not_gt hmore), hfree, hend]

lemma copyPieces_spec {rdata : List (List β)} (hfuel : rdata.flatten.length + 2 ≤ fuel) :
    copyPieces segSize fuel pos (insertFreespace pos) rdata =
      some (after segSize b pos rdata.flatten, insertFreespace (after segSize b pos rdata.flatten),
        placedAt segSize b rdata.flatten) := by
  induction rdata generalizing b pos with
  | nil => simp [copyPieces, after, placedAt]
  | cons data rdata ih =>
    rw [flatten_cons, length_append] at hfuel
    have hpiece := copyPiece_spec hw hpos
      (show data.length + (if insertFreespace pos = 0 then 2 else 1) ≤ fuel by split_ifs <;> omega)
    have hafter : after segSize (b + data.length) (after segSize b pos data) rdata.flatten =
        after segSize b pos (data ++ rdata.flatten) := by
      by_cases hrest : rdata.flatten = []
      · simp only [hrest, after, append_nil, if_true]
      · simp only [after, hrest, append_eq_nil_iff, and_false, if_false, length_append, add_assoc]
    rw [copyPieces, hpiece, flatten_cons, ← hafter, placedAt_append]
    simp only [ih (hpos.after data) (by omega), Option.bind_eq_bind, Option.bind_some]

end Positions

lemma fillSegment_eq {endPos} (m) : ∀ {currPos}, endPos = currPos + m * 8192 →
    fillSegment endPos currPos = endPos := by
  induction m with
  | zero =>
    rintro currPos rfl
    rw [fillSegment]
    simp
  | succ m ih =>
    intro currPos h
    rw [fillSegment, if_pos (by omega)]
    exact ih (by omega)

lemma fillSegment_freespace {k} (hw : segSize = 2 ^ k * 8192) (e) :
    fillSegment (e + (segSize - segmentOffset segSize e)) (e + insertFreespace e) =
      e + (segSize - segmentOffset segSize e) := by
  rw [segmentOffset_eq hw]
  have hpow := Nat.two_pow_pos k
  have hlt := Nat.mod_lt e (show segSize > 0 by omega)
  have hpage : e % segSize % 8192 = e % 8192 := by rw [hw, mod_mul_left_mod]
  refine fillSegment_eq ((segSize - e % segSize - insertFreespace e) / 8192) ?_
  unfold insertFreespace
  split_ifs <;> omega

lemma maxalign_endRecPtr {k} (hw : segSize = 2 ^ k * 8192) {b} (hb : b % 8 = 0) (n) :
    maxalign (bytePosToEndRecPtr segSize (b + n)) =
      bytePosToEndRecPtr segSize (b + maxalign n) := by
  have hmod := endRecPtr_mod_eight hw (b + n)
  rcases Nat.eq_zero_or_pos (maxalign n - n) with h0 | h0
  · have hn : maxalign n = n := by unfold maxalign at h0 ⊢; omega
    rw [hn]
    unfold maxalign at hn ⊢
    omega
  · have hadd := Here.endRecPtr_add hw (b := b + n) (.inr rfl) h0 (by
      unfold maxalign insertFreespace at *
      split_ifs <;> omega)
    rw [show b + maxalign n = b + n + (maxalign n - n) by omega, ← hadd]
    unfold maxalign at *
    omega

/-- The conversions are exact, and what is copied fills what was reserved. -/
theorem reservation_exact {k : ℕ} (hw : segSize = 2 ^ k * 8192) :
    StrictMono (bytePosToRecPtr segSize) ∧ StrictMono (bytePosToEndRecPtr segSize) ∧
    (∀ b, recPtrToBytePos segSize (bytePosToRecPtr segSize b) = b ∧
      recPtrToBytePos segSize (bytePosToEndRecPtr segSize b) = b) ∧
    (∀ b, 24 ≤ bytePosToRecPtr segSize b % 8192 ∧
      (bytePosToRecPtr segSize b % segSize < 8192 → 40 ≤ bytePosToRecPtr segSize b % 8192)) ∧
    ∀ (insert : Insert) (rdata : List (List β)), insert.currBytePos % 8 = 0 →
      (24 < rdata.flatten.length → ∀ fuel, rdata.flatten.length + 2 ≤ fuel →
        let location := (reserveXLogInsertLocation segSize insert rdata.flatten.length).1
        copyXLogRecordToWAL segSize fuel false rdata location.startPos location.endPos =
          some (location.endPos, placedAt segSize insert.currBytePos rdata.flatten)) ∧
      (rdata.flatten.length = 24 → ∀ fuel, 26 ≤ fuel → ∀ location insert',
        reserveXLogSwitch segSize insert = some (location, insert') →
        copyXLogRecordToWAL segSize fuel true rdata location.startPos location.endPos =
          some (location.endPos, placedAt segSize insert.currBytePos rdata.flatten)) := by
  refine ⟨(strictMono_recPtr hw).1, (strictMono_recPtr hw).2,
    recPtrToBytePos_recPtr hw, recPtr_outside hw, fun insert rdata haligned => ⟨?_, ?_⟩⟩
  · intro hlen fuel hfuel
    have hdata : rdata.flatten ≠ [] := by rintro h; simp [h] at hlen
    simp only [reserveXLogInsertLocation, copyXLogRecordToWAL, Option.bind_eq_bind,
      copyPieces_spec hw (.inl rfl) hfuel, Option.bind_some, Bool.false_eq_true, false_and,
      if_false, after, hdata, maxalign_endRecPtr hw haligned]
  · intro hlen fuel hfuel location insert' hreserve
    have hdata : rdata.flatten ≠ [] := by rintro h; simp [h] at hlen
    have hcopy := copyPieces_spec hw (b := insert.currBytePos) (.inl rfl)
      (show rdata.flatten.length + 2 ≤ fuel by omega)
    simp only [after, hdata, if_false, hlen] at hcopy
    simp only [reserveXLogSwitch, show maxalign 24 = 24 from rfl] at hreserve
    have hoff := segmentOffset_eq hw (bytePosToEndRecPtr segSize (insert.currBytePos + 24))
    have hpow := Nat.two_pow_pos k
    split_ifs at hreserve with hstart hleft
    all_goals
      cases hreserve
      simp only [copyXLogRecordToWAL, hcopy, Option.bind_eq_bind, Option.bind_some, true_and]
    · rw [if_pos (by omega), fillSegment_freespace hw]
    · have hlt := Nat.mod_lt (bytePosToEndRecPtr segSize (insert.currBytePos + 24))
        (show segSize > 0 by omega)
      rw [if_neg (by omega), maxalign_endRecPtr hw haligned, show maxalign 24 = 24 from rfl]

theorem reservation_exact_switch :
    copyXLogRecordToWAL 16777216 26 true [List.replicate 24 ()] 48 16777216 =
      some (16777216, placedAt 16777216 8 (List.replicate 24 ())) :=
  ((reservation_exact (k := 11) rfl).2.2.2.2 ⟨8, 0⟩ _ rfl).2 rfl 26 le_rfl ⟨48, 16777216, 40⟩
    ⟨16728048, 8⟩ rfl

end Umbra.WalSpace
