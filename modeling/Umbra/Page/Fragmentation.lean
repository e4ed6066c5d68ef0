import Mathlib.Algebra.GroupWithZero.Nat
import Mathlib.Order.Interval.Finset.Nat

/-!
# Compaction of heap pages

`PageRepairFragmentation` and `compactify_tuples`. `none` stands for an access outside of the page,
of the scratch block or of the array of item descriptors. The line pointers are in front of
`pd_lower`: a copy that touches them is taken as an access outside as well, and there is none.
-/

namespace Umbra.Fragmentation

open List Option

def blcksz : ℕ := 8192

def sizeOfPageHeaderData : ℕ := 24

def maxHeapTuplesPerPage : ℕ := 291

def maxAlign (n : ℕ) : ℕ := (n + 7) / 8 * 8

inductive Flags
  | unused
  | normal
  | redirect
  | dead
deriving DecidableEq

structure ItemId where
  flags : Flags
  off : ℕ
  len : ℕ

/-- Line pointers are by number, bytes by their offset. -/
structure Page where
  lower : ℕ
  upper : ℕ
  special : ℕ
  hasFreeLines : Bool
  linp : ℕ → ItemId
  byte : ℕ → UInt8

/-- `itemIdCompactData`. -/
structure Compact where
  offsetindex : ℕ
  itemoff : ℕ
  alignedlen : ℕ

inductive Corrupted
  | pagePointers (lower upper special : ℕ)
  | linePointer (itemoff : ℕ)
  | itemLengths (total available : ℕ)

/-- `PageGetMaxOffsetNumber`. -/
def Page.nline (p : Page) : ℕ := (p.lower - sizeOfPageHeaderData) / 4

def Compact.tail (item : Compact) : ℕ := item.itemoff + item.alignedlen

def Compact.number (item : Compact) : ℕ := item.offsetindex + 1

/-! ### The code -/

/-- What `dest` is after bytes `head` to `tail` of `src` have been copied to `dst`. -/
def copied (dest src : ℕ → UInt8) (dst head tail : ℕ) : ℕ → UInt8 := fun x =>
  if dst ≤ x ∧ x < dst + (tail - head) then src (x - dst + head) else dest x

def memcpy (lower : ℕ) (dest src : ℕ → UInt8) (dst head tail : ℕ) : Option (ℕ → UInt8) :=
  if lower ≤ dst ∧ lower ≤ head ∧ head ≤ tail ∧ tail ≤ blcksz ∧ dst + (tail - head) ≤ blcksz then
    some (copied dest src dst head tail)
  else none

/-- The variables of the loop that moves the items. -/
structure Moving where
  upper : ℕ
  copyHead : ℕ
  copyTail : ℕ
  linp : ℕ → ItemId
  byte : ℕ → UInt8

section Move

variable (lower : ℕ) (scratch : Option (ℕ → UInt8))

/-- Presorted items are copied inside of the page, others from the scratch block. -/
def Moving.flush (s : Moving) : Option (ℕ → UInt8) :=
  memcpy lower s.byte (scratch.getD s.byte) s.upper s.copyHead s.copyTail

def Moving.take (s : Moving) (item : Compact) : Moving where
  upper := s.upper - item.alignedlen
  copyHead := item.itemoff
  copyTail := s.copyTail
  linp := Function.update s.linp item.number
    { s.linp item.number with off := s.upper - item.alignedlen }
  byte := s.byte

def moveItem (s : Moving) (item : Compact) : Option Moving :=
  if s.copyHead = item.tail then some (s.take item)
  else (s.flush lower scratch).map fun byte =>
    { s with byte, copyTail := item.tail }.take item

def moveItems (s : Moving) : List Compact → Option Moving
  | [] => (s.flush lower scratch).map fun byte => { s with byte }
  | item :: items => (moveItem lower scratch s item).bind fun s => moveItems s items

end Move

/-- `upper`, `itemidptr` and the items from `i` on. -/
structure Cursor where
  upper : ℕ
  itemidptr : Compact
  items : List Compact

/-- The items at the end of the page that are in their place are left alone. -/
def skip (upper : ℕ) (itemidptr : Compact) : List Compact → Cursor
  | [] => ⟨upper, itemidptr, []⟩
  | item :: items =>
    if upper = item.tail then skip (upper - item.alignedlen) item items
    else ⟨upper, item, item :: items⟩

def Page.moving (p : Page) (t : Cursor) : Moving :=
  ⟨t.upper, t.itemidptr.tail, t.itemidptr.tail, p.linp, p.byte⟩

def Page.move (p : Page) (scratch : Option (ℕ → UInt8)) (t : Cursor) : Option Page :=
  (moveItems p.lower scratch (p.moving t) t.items).map fun s =>
    { p with upper := s.upper, linp := s.linp, byte := s.byte }

def copyToScratch (p : Page) (scratch : ℕ → UInt8) : List Compact → Option (ℕ → UInt8)
  | [] => some scratch
  | item :: items =>
    (memcpy p.lower scratch p.byte item.itemoff item.itemoff item.tail).bind fun scratch =>
      copyToScratch p scratch items

/-- `compactify_tuples`, with what the scratch block happens to have. -/
def compactifyTuples (junk : ℕ → UInt8) (first : Compact) (rest : List Compact) (p : Page)
    (presorted : Bool) : Option Page :=
  let t := skip p.special first (first :: rest)
  if presorted then p.move none t
  else if (first :: rest).length < p.nline / 4 then
    (copyToScratch p junk (first :: rest)).bind fun scratch =>
      p.move (some scratch) ⟨p.special, first, first :: rest⟩
  else
    (memcpy p.lower junk p.byte p.upper p.upper t.upper).bind fun scratch => p.move (some scratch) t

structure Scan where
  itemidbase : List Compact
  lastOffset : ℕ
  presorted : Bool
  totallen : ℕ
  nunused : ℕ
  finalusedlp : ℕ
  linp : ℕ → ItemId

def scan (p : Page) (s : Scan) : List ℕ → Option (Except Corrupted Scan)
  | [] => some (.ok s)
  | i :: l =>
    let lp := p.linp i
    if lp.flags = .unused then
      scan p { s with nunused := s.nunused + 1, linp := Function.update s.linp i ⟨.unused, 0, 0⟩ } l
    else if lp.len = 0 then scan p { s with finalusedlp := i } l
    else if maxHeapTuplesPerPage ≤ s.itemidbase.length then none
    else if lp.off < p.upper ∨ p.special ≤ lp.off then some (.error (.linePointer lp.off))
    else
      scan p { s with
        itemidbase := s.itemidbase ++ [⟨i - 1, lp.off, maxAlign lp.len⟩]
        lastOffset := if lp.off < s.lastOffset then lp.off else s.lastOffset
        presorted := s.presorted && lp.off < s.lastOffset
        totallen := s.totallen + maxAlign lp.len
        finalusedlp := i } l

def Page.Sane (p : Page) : Prop :=
  sizeOfPageHeaderData ≤ p.lower ∧ p.lower ≤ p.upper ∧ p.upper ≤ p.special ∧
    p.special ≤ blcksz ∧ p.special = maxAlign p.special

instance (p : Page) : Decidable p.Sane := inferInstanceAs (Decidable (_ ∧ _))

def Page.start (p : Page) : Scan := ⟨[], p.special, true, 0, 0, 0, p.linp⟩

/-- The line pointers behind the last one in use are cut off. -/
def truncateLinp (s : Scan) (p : Page) : Page :=
  { p with
    lower := p.lower - 4 * (p.nline - s.finalusedlp)
    hasFreeLines := 0 < s.nunused - (p.nline - s.finalusedlp) }

def pageRepairFragmentation (junk : ℕ → UInt8) (p : Page) : Option (Except Corrupted Page) :=
  if p.Sane then
    match scan p p.start (List.range' 1 p.nline) with
    | none => none
    | some (.error e) => some (.error e)
    | some (.ok s) =>
      match s.itemidbase with
      | [] => some (.ok (truncateLinp s { p with upper := p.special, linp := s.linp }))
      | first :: rest =>
        if p.special - p.lower < s.totallen then
          some (.error (.itemLengths s.totallen (p.special - p.lower)))
        else (compactifyTuples junk first rest { p with linp := s.linp } s.presorted).map
          fun q => .ok (truncateLinp s q)
  else some (.error (.pagePointers p.lower p.upper p.special))

/-! ### Items -/

/-- The descriptor of a line pointer that has storage. -/
def Page.compact? (p : Page) (i : ℕ) : Option Compact :=
  if (p.linp i).flags ≠ .unused ∧ (p.linp i).len ≠ 0 then
    some ⟨i - 1, (p.linp i).off, maxAlign (p.linp i).len⟩
  else none

def Page.items (p : Page) : List Compact := (List.range' 1 p.nline).filterMap p.compact?

def Page.InRange (p : Page) (item : Compact) : Prop :=
  p.upper ≤ item.itemoff ∧ item.itemoff < p.special

def total (items : List Compact) : ℕ := (items.map Compact.alignedlen).sum

/-! ### Accesses -/

variable {lower : ℕ} {scratch : Option (ℕ → UInt8)} {s r : Moving} {items : List Compact}
  {low upper : ℕ}

lemma total_cons (item items) :
    total (item :: items) = item.alignedlen + total items := sum_cons

lemma tail_le_of_memcpy {dest src dest' dst head tail}
    (h : memcpy lower dest src dst head tail = some dest') : tail ≤ blcksz := by
  grind [memcpy]

/-- A run that ends behind the page is found out when it is copied. -/
lemma tail_le_of_moveItems (hle : s.copyHead ≤ s.copyTail)
    (h : moveItems lower scratch s items = some r) :
    s.copyTail ≤ blcksz ∧ ∀ item ∈ items, item.tail ≤ blcksz := by
  induction items generalizing s with
  | nil =>
    obtain ⟨byte, hcopy, -⟩ := map_eq_some_iff.mp h
    exact ⟨tail_le_of_memcpy hcopy, by simp⟩
  | cons item items ih =>
    obtain ⟨s', hstep, hrest⟩ := bind_eq_some_iff.mp h
    have hoff : item.itemoff ≤ item.tail := Nat.le_add_right ..
    rw [moveItem] at hstep
    split_ifs at hstep with hgap
    · cases hstep
      obtain ⟨htail, hall⟩ := ih (hoff.trans (hgap ▸ hle)) hrest
      exact ⟨htail, forall_mem_cons.mpr ⟨hgap ▸ hle.trans htail, hall⟩⟩
    · obtain ⟨byte, hcopy, rfl⟩ := map_eq_some_iff.mp hstep
      exact ⟨tail_le_of_memcpy hcopy, forall_mem_cons.mpr (ih hoff hrest)⟩

structure InPage (lower : ℕ) (s : Moving) (items : List Compact) : Prop where
  upper_le : lower + total items ≤ s.upper
  le_copyHead : lower ≤ s.copyHead
  head_le_tail : s.copyHead ≤ s.copyTail
  tail_le : s.copyTail ≤ blcksz
  run_le : s.upper + (s.copyTail - s.copyHead) ≤ blcksz
  items_le : ∀ item ∈ items, lower ≤ item.itemoff ∧ item.tail ≤ blcksz

lemma InPage.flush (h : InPage lower s items) :
    s.flush lower scratch =
      some (copied s.byte (scratch.getD s.byte) s.upper s.copyHead s.copyTail) :=
  if_pos ⟨by have := h.upper_le; omega, h.le_copyHead, h.head_le_tail, h.tail_le, h.run_le⟩

lemma InPage.moveItem {item} (h : InPage lower s (item :: items)) :
    ∃ s', moveItem lower scratch s item = some s' ∧ InPage lower s' items := by
  obtain ⟨⟨hoff, hend⟩, hitems⟩ := forall_mem_cons.mp h.items_le
  have htotal := total_cons item items
  have htail : item.tail = item.itemoff + item.alignedlen := rfl
  rw [Fragmentation.moveItem, h.flush]
  obtain ⟨hupper, -, hle, hlast, hrun, -⟩ := h
  split_ifs with hgap
  · refine ⟨_, rfl, ?_, hoff, ?_, hlast, ?_, hitems⟩ <;> simp only [Moving.take] <;> omega
  · refine ⟨_, rfl, ?_, hoff, ?_, hend, ?_, hitems⟩ <;> simp only [Moving.take] <;> omega

lemma InPage.moveItems (h : InPage lower s items) : (moveItems lower scratch s items).isSome := by
  induction items generalizing s with
  | nil => simp [Fragmentation.moveItems, h.flush]
  | cons item items ih =>
    obtain ⟨s', hstep, h'⟩ := h.moveItem
    rw [Fragmentation.moveItems, hstep]
    exact ih h'

structure Skipped (low upper : ℕ) (ptr : Compact) (items : List Compact) (t : Cursor) : Prop where
  le_upper : t.upper ≤ upper
  low_le : low ≤ t.upper
  total_eq : total items + t.upper = upper + total t.items
  mem : t.itemidptr ∈ ptr :: items
  suffix : t.items <:+ items
  tail_le : ∀ item ∈ items, item ∈ t.items ∨ item.tail ≤ upper

lemma skipped_refl {ptr first} (hlow : low ≤ upper) (hptr : ptr ∈ first :: items) :
    Skipped low upper first items ⟨upper, ptr, items⟩ :=
  ⟨le_refl _, hlow, add_comm .., hptr, suffix_rfl, fun _ => .inl⟩

lemma skipped_skip {ptr} (hlow : low ≤ upper) (hitems : ∀ item ∈ items, low ≤ item.itemoff) :
    Skipped low upper ptr items (skip upper ptr items) := by
  induction items generalizing upper ptr with
  | nil => exact skipped_refl hlow mem_cons_self
  | cons item items ih =>
    have hsum := total_cons item items
    constructor <;> grind [skip, Compact.tail, Skipped]

variable {p : Page} {junk : ℕ → UInt8} {t : Cursor} {first : Compact}

section Skipped

variable (h : Skipped p.upper p.special first items t) (hsane : p.Sane) (hmem : first ∈ items)
  (hrange : ∀ item ∈ items, p.InRange item) (htotal : total items ≤ p.special - p.lower)

include h hsane hmem hrange htotal

lemma Skipped.inPage (hall : ∀ item ∈ items, item.tail ≤ blcksz) :
    InPage p.lower (p.moving t) t.items := by
  obtain ⟨-, hlower, hupper, hspecial, -⟩ := hsane
  obtain ⟨hle, hlow, hsum, hptr, hsub, -⟩ := h
  have hptr : t.itemidptr ∈ items := (mem_cons.mp hptr).elim (· ▸ hmem) id
  have hoff : ∀ item ∈ items, p.lower ≤ item.itemoff := fun item hitem =>
    hlower.trans (hrange item hitem).1
  refine ⟨?_, (hoff _ hptr).trans (Nat.le_add_right ..), le_refl _, hall _ hptr, ?_,
    fun item hitem => ⟨hoff _ (hsub.mem hitem), hall _ (hsub.mem hitem)⟩⟩
  all_goals simp only [Page.moving]; omega

lemma Skipped.move_isSome_iff : (p.move scratch t).isSome ↔ ∀ item ∈ items, item.tail ≤ blcksz := by
  rw [Page.move, isSome_map]
  constructor
  · intro hsome item hitem
    obtain ⟨r, hr⟩ := isSome_iff_exists.mp hsome
    obtain hrest | hle := h.tail_le item hitem
    · exact (tail_le_of_moveItems (le_refl _) hr).2 item hrest
    · exact hle.trans hsane.2.2.2.1
  · exact fun hall => (h.inPage hsane hmem hrange htotal hall).moveItems

end Skipped

lemma copyToScratch_ne_none {scratch} (hoff : ∀ item ∈ items, p.lower ≤ item.itemoff)
    (hall : ∀ item ∈ items, item.tail ≤ blcksz) : copyToScratch p scratch items ≠ none := by
  induction items generalizing scratch with
  | nil => exact some_ne_none _
  | cons item items ih => grind [copyToScratch, memcpy, Compact.tail]

lemma compactifyTuples_isSome_iff {rest presorted} (hsane : p.Sane)
    (hrange : ∀ item ∈ first :: rest, p.InRange item)
    (htotal : total (first :: rest) ≤ p.special - p.lower) :
    (compactifyTuples junk first rest p presorted).isSome ↔
      ∀ item ∈ first :: rest, item.tail ≤ blcksz := by
  have hmem : first ∈ first :: rest := mem_cons_self
  have hskip : Skipped p.upper p.special first (first :: rest) _ :=
    skipped_skip hsane.2.2.1 fun item hitem => (hrange item hitem).1
  rw [compactifyTuples]
  split_ifs
  · exact hskip.move_isSome_iff hsane hmem hrange htotal
  · cases hscratch : copyToScratch p junk (first :: rest) with
    | none =>
      refine iff_of_false Bool.false_ne_true fun hall => ?_
      exact copyToScratch_ne_none (fun item hitem => hsane.2.1.trans (hrange item hitem).1) hall
        hscratch
    | some scratch =>
      exact (skipped_refl hsane.2.2.1 (by simp)).move_isSome_iff hsane hmem hrange htotal
  · have hlow := hskip.low_le
    have hle := hskip.le_upper
    have hlower := hsane.2.1
    have hspecial := hsane.2.2.2.1
    rw [memcpy, if_pos ⟨hlower, hlower, hlow, by omega, by omega⟩]
    exact hskip.move_isSome_iff hsane hmem hrange htotal

section Scan

variable {l : List ℕ} {s t : Scan} {i : ℕ}

lemma compact?_eq_none (h : (p.linp i).flags = .unused ∨ (p.linp i).len = 0) :
    p.compact? i = none := by
  grind [Page.compact?]

lemma compact?_eq_some (hused : (p.linp i).flags ≠ .unused) (hlen : (p.linp i).len ≠ 0) :
    p.compact? i = some ⟨i - 1, (p.linp i).off, maxAlign (p.linp i).len⟩ :=
  if_pos ⟨hused, hlen⟩

lemma scan_eq_none_iff (hs : s.itemidbase.length ≤ maxHeapTuplesPerPage) :
    scan p s l = none ↔
      maxHeapTuplesPerPage < s.itemidbase.length + (l.filterMap p.compact?).length ∧
        ∀ item ∈ (l.filterMap p.compact?).take (maxHeapTuplesPerPage - s.itemidbase.length),
          p.InRange item := by
  fun_induction scan p s l with
  | case1 s => simpa using hs
  | case2 s i l lp hunused ih =>
    rw [ih hs, filterMap_cons_none (compact?_eq_none (.inl hunused))]
  | case3 s i l lp hused hlen ih =>
    rw [ih hs, filterMap_cons_none (compact?_eq_none (.inr hlen))]
  | case4 s i l lp hused hlen hfull =>
    rw [filterMap_cons_some (compact?_eq_some hused hlen), Nat.sub_eq_zero_of_le hfull]
    simp
    omega
  | case5 s i l lp hused hlen hfull hoff =>
    obtain ⟨n, hn⟩ := Nat.exists_eq_add_of_lt (lt_of_not_ge hfull)
    rw [filterMap_cons_some (compact?_eq_some hused hlen), hn, add_assoc,
      Nat.add_sub_cancel_left, take_succ_cons, forall_mem_cons]
    exact iff_of_false (some_ne_none _) (by grind [Page.InRange])
  | case6 s i l lp hused hlen hfull hoff ih =>
    obtain ⟨n, hn⟩ := Nat.exists_eq_add_of_lt (lt_of_not_ge hfull)
    rw [ih (by grind), filterMap_cons_some (compact?_eq_some hused hlen), hn,
      length_append, length_singleton, length_cons, add_assoc,
      Nat.add_sub_cancel_left, take_succ_cons, forall_mem_cons]
    grind [Page.InRange]

lemma exists_not_inRange_of_scan {e} (h : scan p s l = some (.error e)) :
    ∃ item ∈ l.filterMap p.compact?, ¬ p.InRange item := by
  fun_induction scan p s l with
  | case1 s => cases h
  | case2 s i l lp hunused ih =>
    rw [filterMap_cons_none (compact?_eq_none (.inl hunused))]
    exact ih h
  | case3 s i l lp hused hlen ih =>
    rw [filterMap_cons_none (compact?_eq_none (.inr hlen))]
    exact ih h
  | case4 s i l lp hused hlen hfull => cases h
  | case5 s i l lp hused hlen hfull hoff =>
    rw [filterMap_cons_some (compact?_eq_some hused hlen)]
    exact ⟨_, mem_cons_self, by grind [Page.InRange]⟩
  | case6 s i l lp hused hlen hfull hoff ih =>
    rw [filterMap_cons_some (compact?_eq_some hused hlen)]
    obtain ⟨item, hitem, hbad⟩ := ih h
    exact ⟨item, mem_cons_of_mem _ hitem, hbad⟩

structure Scanned (p : Page) (s : Scan) (l : List ℕ) (t : Scan) : Prop where
  inRange : ∀ item ∈ l.filterMap p.compact?, p.InRange item
  items : t.itemidbase = s.itemidbase ++ l.filterMap p.compact?
  total : t.totallen = s.totallen + total (l.filterMap p.compact?)
  presorted : t.presorted → s.presorted ∧
    (l.filterMap p.compact?).Pairwise (fun a b => b.itemoff < a.itemoff) ∧
      ∀ item ∈ l.filterMap p.compact?, item.itemoff < s.lastOffset
  final_used : t.finalusedlp = s.finalusedlp ∨
    t.finalusedlp ∈ l ∧ (p.linp t.finalusedlp).flags ≠ .unused
  le_final : ∀ i ∈ l, (p.linp i).flags ≠ .unused → i ≤ t.finalusedlp
  linp : ∀ i, t.linp i =
    if i ∈ l ∧ (p.linp i).flags = .unused then ⟨.unused, 0, 0⟩ else s.linp i

lemma scanned_scan (hl : l.Pairwise (· < ·)) (h : scan p s l = some (.ok t)) : Scanned p s l t := by
  fun_induction scan p s l with
  | case1 s => cases h; constructor <;> simp [Fragmentation.total]
  | case2 s i l lp hunused ih =>
    obtain ⟨hi, hl⟩ := pairwise_cons.mp hl
    obtain ⟨h1, h2, h3, h4, h5, h6, h7⟩ := ih hl h
    constructor <;> try rw [filterMap_cons_none (compact?_eq_none (.inl hunused))]
    all_goals grind
  | case3 s i l lp hused hlen ih =>
    obtain ⟨hi, hl⟩ := pairwise_cons.mp hl
    obtain ⟨h1, h2, h3, h4, h5, h6, h7⟩ := ih hl h
    constructor <;> try rw [filterMap_cons_none (compact?_eq_none (.inr hlen))]
    all_goals grind
  | case4 s i l lp hused hlen hfull => cases h
  | case5 s i l lp hused hlen hfull hoff => cases h
  | case6 s i l lp hused hlen hfull hoff ih =>
    obtain ⟨hi, hl⟩ := pairwise_cons.mp hl
    obtain ⟨h1, h2, h3, h4, h5, h6, h7⟩ := ih hl h
    constructor <;> try rw [filterMap_cons_some (compact?_eq_some hused hlen)]
    all_goals grind [Page.InRange, total_cons]

end Scan

lemma scan_start_eq_none_iff : scan p p.start (List.range' 1 p.nline) = none ↔
    maxHeapTuplesPerPage < p.items.length ∧
      ∀ item ∈ p.items.take maxHeapTuplesPerPage, p.InRange item := by
  rw [scan_eq_none_iff (Nat.zero_le _)]
  exact Iff.and (by rw [Page.start, length_nil, Nat.zero_add]; rfl) Iff.rfl

/-- `PageRepairFragmentation` stays inside of the page, the scratch block and the array exactly if
it does not come to the 292nd item, and no item that it moves ends behind the page. -/
theorem repairFragmentation_accesses_iff (junk : ℕ → UInt8) (p : Page) :
    (pageRepairFragmentation junk p).isSome ↔ (p.Sane → (maxHeapTuplesPerPage < p.items.length →
        ∃ item ∈ p.items.take maxHeapTuplesPerPage, ¬ p.InRange item) ∧
      ((∀ item ∈ p.items, p.InRange item) → total p.items ≤ p.special - p.lower →
        ∀ item ∈ p.items, item.tail ≤ blcksz)) := by
  have hnone : scan p p.start (List.range' 1 p.nline) ≠ none ↔
      (maxHeapTuplesPerPage < p.items.length →
        ∃ item ∈ p.items.take maxHeapTuplesPerPage, ¬ p.InRange item) := by
    rw [Ne, scan_start_eq_none_iff]
    push Not
    rfl
  rw [pageRepairFragmentation, ← hnone]
  split_ifs with hsane
  · split
    · next hscan => simp [hscan, hsane]
    · next e hscan =>
      obtain ⟨item, hitem, hbad⟩ := exists_not_inRange_of_scan hscan
      exact iff_of_true rfl fun _ => ⟨by simp [hscan], fun hall => absurd (hall item hitem) hbad⟩
    · next t hscan =>
      have ht := scanned_scan pairwise_lt_range' hscan
      have hitems : t.itemidbase = p.items := ht.items
      have htotal : t.totallen = total p.items := ht.total.trans (Nat.zero_add _)
      have hrange : ∀ item ∈ p.items, p.InRange item := ht.inRange
      simp only [hscan, hitems, htotal, hsane, true_imp_iff]
      split
      · next heq => simp [heq]
      · next first rest heq =>
        rw [heq] at hrange ⊢
        split_ifs with hlarge
        · simp; omega
        · have hfits := le_of_not_gt hlarge
          rw [isSome_map,
            compactifyTuples_isSome_iff (p := { p with linp := t.linp }) hsane hrange hfits]
          exact ⟨fun h => ⟨some_ne_none _, fun _ _ => h⟩, fun h => h.2 hrange hfits⟩
  · exact iff_of_true rfl fun h => absurd h hsane

lemma repairFragmentation_eq_none (hsane : p.Sane)
    (h : scan p p.start (List.range' 1 p.nline) = none) :
    pageRepairFragmentation junk p = none := by
  rw [pageRepairFragmentation, if_pos hsane, h]

/-- The only item is in the last 8 bytes of the page and is said to have 104; 292 items. -/
theorem repairFragmentation_leaves_page :
    pageRepairFragmentation (fun _ => 0)
      ⟨28, 8184, 8192, false, fun _ => ⟨.normal, 8184, 104⟩, fun _ => 0⟩ = none ∧
    pageRepairFragmentation (fun _ => 0)
      ⟨1192, 1192, 8192, false, fun i => ⟨.normal, 8192 - 8 * i, 8⟩, fun _ => 0⟩ = none := by
  refine ⟨rfl, repairFragmentation_eq_none (by decide) (scan_start_eq_none_iff.mpr ?_)⟩
  have hitems : Page.items
      ⟨1192, 1192, 8192, false, fun i => ⟨.normal, 8192 - 8 * i, 8⟩, fun _ => 0⟩ =
        (List.range' 1 292).map fun i => ⟨i - 1, 8192 - 8 * i, maxAlign 8⟩ :=
    filterMap_eq_map_iff_forall_eq_some.mpr fun _ _ =>
      compact?_eq_some Flags.noConfusion (Nat.succ_ne_zero 7)
  rw [hitems, length_map, length_range']
  refine ⟨by decide, fun item hitem => ?_⟩
  obtain ⟨i, hi, rfl⟩ := mem_map.mp (mem_of_mem_take hitem)
  rw [mem_range'_1] at hi
  constructor <;> dsimp only <;> omega

end Umbra.Fragmentation
