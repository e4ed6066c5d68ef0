import Mathlib.Algebra.GroupWithZero.Nat
import Mathlib.Data.List.Basic

/-!
# Memory accesses of `pglz_decompress`

Any bytes may be given as compressed data. The function checks a match tag only after it has read
it. `none` stands for an access outside of the source or of the destination, or to a byte of the
destination that has not been written.
-/

namespace Umbra.Pglz

/-- `dest` has the bytes in front of `dp`. -/
structure State where
  sp : ℕ
  ctrl : UInt8
  ctrlc : ℕ
  dest : List UInt8

variable (source : List UInt8) (rawsize : ℤ)

/-- `memcpy(dp, dp - off, n)`: the bytes from `dp - off` on have to be in front of `dp`. -/
def copy (off n : ℕ) (dest : List UInt8) : Option (List UInt8) :=
  if off ≤ dest.length ∧ n ≤ off ∧ dest.length + n ≤ rawsize then
    some (dest ++ (dest.drop (dest.length - off)).take n)
  else none

/-- The offset is doubled after each part of a match. -/
def copyMatch (off len : ℕ) (hoff : 0 < off) (dest : List UInt8) : Option (List UInt8) :=
  if off < len then (copy rawsize off off dest).bind
    (copyMatch (off + off) (len - off) (Nat.add_pos_left hoff off))
  else copy rawsize off len dest
termination_by len
decreasing_by omega

/-- The condition of both loops. -/
def More (s : State) : Prop := s.sp < source.length ∧ s.dest.length < rawsize

instance (s : State) : Decidable (More source rawsize s) := inferInstanceAs (Decidable (_ ∧ _))

/-- A match tag: the length, the offset and the position behind it. -/
def readTag (sp : ℕ) : Option (ℕ × ℕ × ℕ) := do
  let b ← source[sp]?
  let b' ← source[sp + 1]?
  let len := (b &&& 0x0f).toNat + 3
  let off := (b &&& 0xf0).toNat <<< 4 ||| b'.toNat
  if len = 18 then do
    let more ← source[sp + 2]?
    some (len + more.toNat, off, sp + 3)
  else some (len, off, sp + 2)

/-- One turn: a control byte, a match tag or a literal byte. The inner `none` returns -1. -/
def turn (s : State) : Option (Option State) :=
  if s.ctrlc = 8 then
    source[s.sp]?.map fun ctrl => some { s with sp := s.sp + 1, ctrl, ctrlc := 0 }
  else if s.ctrl &&& 1 = 1 then
    (readTag source s.sp).bind fun (len, off, sp) =>
      if h : source.length < sp ∨ off = 0 ∨ s.dest.length < off then some none
      else (copyMatch rawsize off (min len (rawsize - s.dest.length).toNat)
        (Nat.pos_of_ne_zero fun h0 => h (.inr (.inl h0))) s.dest).map fun dest =>
          some ⟨sp, s.ctrl >>> 1, s.ctrlc + 1, dest⟩
  else if s.dest.length < rawsize then
    source[s.sp]?.map fun b => some ⟨s.sp + 1, s.ctrl >>> 1, s.ctrlc + 1, s.dest ++ [b]⟩
  else none

variable {source rawsize}

lemma lt_of_readTag {sp len off sp'} (h : readTag source sp = some (len, off, sp')) : sp < sp' := by
  grind [readTag]

lemma sp_lt_of_turn {s t} (h : turn source rawsize s = some (some t)) : s.sp < t.sp := by
  rw [turn] at h
  split_ifs at h
  · grind
  · obtain ⟨⟨len, off, sp⟩, htag, ht⟩ := Option.bind_eq_some_iff.mp h
    have hlt := lt_of_readTag htag
    dsimp only at ht
    split_ifs at ht
    · cases ht
    · obtain ⟨dest, -, heq⟩ := Option.map_eq_some_iff.mp ht
      cases heq
      exact hlt
  · grind

variable (source rawsize)

def loop (s : State) : Option (Option State) :=
  if _h : More source rawsize s then
    match _ht : turn source rawsize s with
    | some (some t) => loop t
    | some none => some none
    | none => none
  else some (some s)
termination_by source.length - s.sp
decreasing_by exact Nat.sub_lt_sub_left _h.1 (sp_lt_of_turn _ht)

/-- `pglz_decompress`. -/
def pglzDecompress (checkComplete : Bool) : Option ℤ := do
  match ← loop source rawsize ⟨0, 0, 8, []⟩ with
  | none => some (-1)
  | some s =>
    if checkComplete ∧ (s.dest.length ≠ rawsize ∨ s.sp ≠ source.length) then some (-1)
    else some s.dest.length

/-- The bytes of a tag with this first byte. -/
def tagSize (b : UInt8) : ℕ := if b &&& 0x0f = 0x0f then 3 else 2

/-- Decoding comes to a match tag that the end of the source cuts. -/
inductive Cut : State → Prop
  | here {s b} (hdp : s.dest.length < rawsize) (hitem : s.ctrlc ≠ 8)
    (hbit : s.ctrl &&& 1 = 1) (hb : source[s.sp]? = some b)
    (hcut : source.length < s.sp + tagSize b) : Cut s
  | later {s t} (hmore : More source rawsize s)
    (ht : turn source rawsize s = some (some t)) (hcut : Cut t) : Cut s

variable {source rawsize} {s : State}

lemma copyMatch_ne_none {off len : ℕ} {hoff : 0 < off} {dest : List UInt8} (hle : off ≤ dest.length)
    (hfits : dest.length + len ≤ rawsize) : copyMatch rawsize off len hoff dest ≠ none := by
  fun_induction copyMatch rawsize off len hoff dest with
  | case1 off len hoff dest hlt ih =>
    rw [copy, if_pos ⟨hle, Nat.le_refl off, by omega⟩]
    apply ih <;> simp <;> omega
  | case2 off len hoff dest hge =>
    rw [copy, if_pos ⟨hle, by omega, hfits⟩]
    exact Option.some_ne_none _

lemma readTag_eq_none_iff {sp b} (h : source[sp]? = some b) :
    readTag source sp = none ↔ source.length < sp + tagSize b := by
  have hlen : (b &&& 0x0f).toNat + 3 = 18 ↔ b &&& 0x0f = 0x0f := by
    rw [← UInt8.toNat_inj]
    exact Nat.add_right_cancel_iff
  grind [readTag, tagSize]

lemma turn_eq_none_iff (h : More source rawsize s) :
    turn source rawsize s = none ↔
      s.ctrlc ≠ 8 ∧ s.ctrl &&& 1 = 1 ∧ readTag source s.sp = none := by
  obtain ⟨hsp, hdp⟩ := h
  rw [turn]
  split_ifs with hctrl hbit
  · simp [hsp, hctrl]
  · cases htag : readTag source s.sp with
    | none => simp [hctrl, hbit]
    | some tag =>
      obtain ⟨len, off, sp⟩ := tag
      rw [Option.bind_some]
      dsimp only
      split_ifs with hbad
      · simp
      · rw [Option.map_eq_none_iff]
        exact iff_of_false (copyMatch_ne_none (by omega) (by omega)) (by simp)
  · simp [hsp, hbit]

lemma cut_iff (h : More source rawsize s) :
    Cut source rawsize s ↔
      turn source rawsize s = none ∨
        ∃ t, turn source rawsize s = some (some t) ∧ Cut source rawsize t := by
  have hget := List.getElem?_eq_getElem h.1
  rw [turn_eq_none_iff h, readTag_eq_none_iff hget]
  constructor
  · rintro (⟨-, hitem, hbit, hb, hcut⟩ | ⟨-, ht, hcut⟩)
    · cases hget.symm.trans hb
      exact .inl ⟨hitem, hbit, hcut⟩
    · exact .inr ⟨_, ht, hcut⟩
  · rintro (⟨hitem, hbit, hcut⟩ | ⟨t, ht, hcut⟩)
    · exact .here h.2 hitem hbit hget hcut
    · exact .later h ht hcut

lemma loop_isSome_iff (s) : (loop source rawsize s).isSome ↔ ¬ Cut source rawsize s := by
  fun_induction loop source rawsize s with
  | case1 s hmore t ht ih => simp [cut_iff hmore, ht, ih]
  | case2 s hmore ht => simp [cut_iff hmore, ht]
  | case3 s hmore ht => simp [cut_iff hmore, ht]
  | case4 s hmore =>
    refine iff_of_true rfl ?_
    rintro (⟨hdp, -, -, hb, -⟩ | ⟨h, -, -⟩)
    · exact hmore ⟨(getElem?_eq_some_iff.mp hb).1, hdp⟩
    · exact hmore h

/-- `pglz_decompress` stays inside of the two buffers, and copies only bytes that it has written,
exactly if it does not come to a match tag that the end of the source cuts. -/
theorem decompress_accesses_iff (source : List UInt8) (rawsize : ℤ) (checkComplete : Bool) :
    (pglzDecompress source rawsize checkComplete).isSome ↔
      ¬ Cut source rawsize ⟨0, 0, 8, []⟩ := by
  rw [← loop_isSome_iff, pglzDecompress]
  cases loop source rawsize ⟨0, 0, 8, []⟩ with
  | none => simp
  | some s => grind

/-- A control byte and the first byte of a long tag, with nothing behind them. -/
theorem decompress_reads_behind_source : pglzDecompress [1, 15] 100 true = none := by
  have hcut : Cut [1, 15] 100 ⟨0, 0, 8, []⟩ :=
    .later (by decide) rfl (.here (by decide) (by decide) (by decide) rfl (by decide))
  rw [pglzDecompress, Option.not_isSome_iff_eq_none.mp ((loop_isSome_iff _).not_left.mpr hcut)]
  rfl

end Umbra.Pglz
