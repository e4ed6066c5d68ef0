import Umbra.Page.Fragmentation

/-!
# Items after a compaction

On a valid page, with any of the line pointers set unused, `PageRepairFragmentation` keeps every
item that is left: its number, its length and its bytes. The items then fill the page from
`pd_upper` to `pd_special`.
-/

namespace Umbra.Fragmentation

open List Option

variable {lower : ℕ} {scratch : Option (ℕ → UInt8)} {s r : Moving} {items : List Compact}
  {p : Page} {junk : ℕ → UInt8} {t : Cursor} {first : Compact}

/-- The items are one below the other from `upper` down to `bottom`, with their bytes. -/
def Laid (bottom : ℕ) (linp : ℕ → ItemId) (byte byte₀ : ℕ → UInt8) : ℕ → List Compact → Prop
  | upper, [] => upper = bottom
  | upper, item :: items =>
    (linp item.number).off + item.alignedlen = upper ∧
      (∀ y < item.alignedlen, byte ((linp item.number).off + y) = byte₀ (item.itemoff + y)) ∧
      Laid bottom linp byte byte₀ (linp item.number).off items

/-- The items that are not moved yet are to be read where they were. -/
def Readable (byte₀ : ℕ → UInt8) (s : Moving) (items : List Compact) :
    Option (ℕ → UInt8) → Prop
  | some scratch => ∀ item ∈ items, ∀ y < item.alignedlen,
      scratch (item.itemoff + y) = byte₀ (item.itemoff + y)
  | none => items.Pairwise (fun a b => b.tail ≤ a.itemoff) ∧ (∀ item ∈ items, item.tail ≤ s.upper) ∧
      ∀ x < s.upper, s.byte x = byte₀ x

variable {byte₀ : ℕ → UInt8} {s' : Moving} {item : Compact}

/-- The page if the pending run would be copied now. -/
def Moving.flushed (scratch : Option (ℕ → UInt8)) (s : Moving) : ℕ → UInt8 :=
  copied s.byte (scratch.getD s.byte) s.upper s.copyHead s.copyTail

section

variable (h : moveItem lower scratch s item = some s')
include h

lemma moveItem_cases :
    s.copyHead = item.tail ∧ s' = s.take item ∨
      s' = { s with byte := s.flushed scratch, copyTail := item.tail }.take item := by
  rw [moveItem] at h
  split_ifs at h with hgap
  · exact .inl ⟨hgap, (Option.some.inj h).symm⟩
  · obtain ⟨byte, hcopy, rfl⟩ := map_eq_some_iff.mp h
    rw [Moving.flush, memcpy] at hcopy
    split_ifs at hcopy
    cases hcopy
    exact .inr rfl

lemma upper_moveItem : s'.upper = s.upper - item.alignedlen := by
  obtain ⟨-, rfl⟩ | rfl := moveItem_cases h <;> rfl

lemma linp_moveItem :
    s'.linp = Function.update s.linp item.number
      { s.linp item.number with off := s'.upper } := by
  obtain ⟨-, rfl⟩ | rfl := moveItem_cases h <;> rfl

end

lemma flushed_moveItem (h : InPage lower s (item :: items))
    (hstep : moveItem lower scratch s item = some s') (x) :
    s'.flushed scratch x =
      if s'.upper ≤ x ∧ x < s.upper then scratch.getD s'.byte (x - s'.upper + item.itemoff)
      else s.flushed scratch x := by
  obtain ⟨hupper, -, hle, -⟩ := h
  have htotal := total_cons item items
  have htail : item.tail = item.itemoff + item.alignedlen := rfl
  obtain ⟨hgap, rfl⟩ | rfl := moveItem_cases hstep
  · simp only [Moving.flushed, copied, Moving.take]
    grind
  · simp only [Moving.flushed, copied, Moving.take]
    grind

lemma Readable.moveItem (h : Readable byte₀ s (item :: items) scratch)
    (hstep : moveItem lower scratch s item = some s') : Readable byte₀ s' items scratch ∧
      ∀ y < item.alignedlen,
        scratch.getD s'.byte (item.itemoff + y) = byte₀ (item.itemoff + y) := by
  cases scratch with
  | some scratch => exact (forall_mem_cons.mp h).symm
  | none =>
    obtain ⟨hdesc, htails, hbyte⟩ := h
    obtain ⟨hitem, hdesc⟩ := pairwise_cons.mp hdesc
    obtain ⟨htail, htails⟩ := forall_mem_cons.mp htails
    have htail' : item.tail = item.itemoff + item.alignedlen := rfl
    -- A run is written from `s.upper` on: what is below still has to be moved.
    have hkeep : ∀ x < s.upper, s'.byte x = byte₀ x := by
      obtain ⟨-, rfl⟩ | rfl := moveItem_cases hstep
      · exact hbyte
      · intro x hx
        exact (if_neg fun h => Nat.not_le_of_lt hx h.1).trans (hbyte x hx)
    have hupper := upper_moveItem hstep
    refine ⟨⟨hdesc, fun b hb => ?_, fun x hx => hkeep x (by omega)⟩, fun y hy =>
      hkeep _ (by omega)⟩
    have := hitem b hb
    omega

/-- Line pointer numbers of items. -/
def numbers (items : List Compact) : List ℕ := items.map Compact.number

lemma moveItems_laid (h : InPage lower s items) (hread : Readable byte₀ s items scratch)
    (hnodup : (numbers items).Nodup) (hrun : moveItems lower scratch s items = some r) :
    -- The pending run counts as written, which lets the runs be merged.
    (∀ x, s.upper ≤ x → r.byte x = s.flushed scratch x) ∧
      Laid r.upper r.linp r.byte byte₀ s.upper items ∧
      (∀ i ∉ numbers items, r.linp i = s.linp i) ∧
      ∀ i, (r.linp i).flags = (s.linp i).flags ∧ (r.linp i).len = (s.linp i).len := by
  induction items generalizing s with
  | nil =>
    rw [moveItems, h.flush] at hrun
    cases hrun
    exact ⟨fun _ _ => rfl, rfl, fun _ _ => rfl, fun _ => ⟨rfl, rfl⟩⟩
  | cons item items ih =>
    obtain ⟨s', hstep, hrest⟩ := bind_eq_some_iff.mp hrun
    obtain ⟨hread', hitem⟩ := hread.moveItem hstep
    have hflushed := flushed_moveItem h hstep
    have hupper := upper_moveItem hstep
    have hset := linp_moveItem hstep
    have htotal := total_cons item items
    have hlow := h.upper_le
    obtain ⟨s'', hs'', h'⟩ := h.moveItem
    cases hstep.symm.trans hs''
    obtain ⟨hnumber, hnodup⟩ := nodup_cons.mp hnodup
    obtain ⟨hbyte, hlaid, hlinp, hsame⟩ := ih h' hread' hnodup hrest
    have hoff : (r.linp item.number).off = s'.upper := by
      rw [hlinp _ hnumber, hset, Function.update_self]
    refine ⟨fun x hx => ?_, ⟨?_, fun y hy => ?_, ?_⟩, fun i hi => ?_, fun i => ?_⟩
    · rw [hbyte x (by omega), hflushed, if_neg (by omega)]
    · omega
    · rw [hoff, hbyte _ (by omega), hflushed, if_pos (by omega), Nat.add_sub_cancel_left,
        add_comm y, hitem y hy]
    · exact hoff ▸ hlaid
    · obtain ⟨hne, hi⟩ := not_or.mp fun h => hi (mem_cons.mpr h)
      rw [hlinp i hi, hset, Function.update_of_ne hne]
    · rw [(hsame i).1, (hsame i).2, hset, Function.update_apply]
      split_ifs with heq <;> simp [heq]

lemma skip_laid {bottom upper : ℕ} {ptr : Compact} {linp linp₀ : ℕ → ItemId} {byte : ℕ → UInt8}
    (hnodup : (numbers items).Nodup) (hoff : ∀ item ∈ items, (linp₀ item.number).off = item.itemoff)
    (hlaid : Laid bottom linp byte byte₀ (skip upper ptr items).upper (skip upper ptr items).items)
    (hbyte : ∀ x, (skip upper ptr items).upper ≤ x → byte x = byte₀ x)
    (hlinp : ∀ i ∉ numbers (skip upper ptr items).items, linp i = linp₀ i) :
    Laid bottom linp byte byte₀ upper items := by
  induction items generalizing upper ptr with
  | nil => exact hlaid
  | cons item items ih =>
    rw [skip] at hlaid hbyte hlinp
    split_ifs at hlaid hbyte hlinp with heq
    · obtain ⟨hnumber, hnodup⟩ := nodup_cons.mp hnodup
      obtain ⟨hitem, hoff⟩ := forall_mem_cons.mp hoff
      have htail : item.tail = item.itemoff + item.alignedlen := rfl
      have hskip : Skipped 0 (upper - item.alignedlen) item items _ :=
        skipped_skip (Nat.zero_le _) fun _ _ => Nat.zero_le _
      have hold : (linp item.number).off = item.itemoff := by
        rw [hlinp _ fun h => hnumber ((hskip.suffix.map _).mem h), hitem]
      have hrest := ih hnodup hoff hlaid hbyte hlinp
      refine ⟨by omega, fun y _ => ?_, ?_⟩
      · rw [hold]
        exact hbyte _ (hskip.le_upper.trans (by omega))
      · rw [hold]
        rwa [heq, htail, Nat.add_sub_cancel] at hrest
    · exact hlaid

lemma tail_le_skip {upper ptr} (hpos : ∀ item ∈ items, 0 < item.alignedlen)
    (htails : ∀ item ∈ items, item.tail ≤ upper)
    (hapart : items.Pairwise fun a b => a.tail ≤ b.itemoff ∨ b.tail ≤ a.itemoff) :
    ∀ item ∈ (skip upper ptr items).items, item.tail ≤ (skip upper ptr items).upper := by
  induction items generalizing upper ptr with
  | nil => exact htails
  | cons item items ih =>
    rw [skip]
    split_ifs with heq
    · obtain ⟨-, hpos⟩ := forall_mem_cons.mp hpos
      obtain ⟨-, htails⟩ := forall_mem_cons.mp htails
      obtain ⟨hitem, hapart⟩ := pairwise_cons.mp hapart
      refine ih hpos (fun b hb => ?_) hapart
      have h1 := hpos b hb
      have h2 := htails b hb
      have h3 := hitem b hb
      simp only [Compact.tail] at *
      omega
    · exact htails

lemma copyToScratch_eq {scratch scratch'} (h : copyToScratch p scratch items = some scratch') (x) :
    scratch' x = p.byte x ∨
      scratch' x = scratch x ∧ ∀ item ∈ items, ¬ (item.itemoff ≤ x ∧ x < item.tail) := by
  induction items generalizing scratch with
  | nil => cases h; exact .inr ⟨rfl, by simp⟩
  | cons item items ih =>
    obtain ⟨next, hcopy, hrest⟩ := bind_eq_some_iff.mp h
    rw [memcpy] at hcopy
    split_ifs at hcopy with hin
    cases hcopy
    have := ih hrest
    grind [copied]

/-- Items that lie apart have no more bytes than the space they lie in. -/
lemma total_le {a b} (hin : ∀ item ∈ items, a ≤ item.itemoff ∧ item.tail ≤ b)
    (hapart : items.Pairwise fun x y => x.tail ≤ y.itemoff ∨ y.tail ≤ x.itemoff) :
    total items ≤ b - a := by
  -- The set is that of all bytes of the items.
  have hcard : ∃ s ⊆ Finset.Ico a b, s.card = total items ∧
      ∀ x ∈ s, ∃ item ∈ items, item.itemoff ≤ x ∧ x < item.tail := by
    induction items with
    | nil => exact ⟨∅, Finset.empty_subset _, rfl, by simp⟩
    | cons item items ih =>
      obtain ⟨⟨hlow, hhigh⟩, hin⟩ := forall_mem_cons.mp hin
      obtain ⟨hitem, hapart⟩ := pairwise_cons.mp hapart
      obtain ⟨s, hsub, hcard, hs⟩ := ih hin hapart
      have hdisj : Disjoint (Finset.Ico item.itemoff item.tail) s := by
        rw [Finset.disjoint_left]
        intro x hx hxs
        obtain ⟨b, hb, hbx⟩ := hs x hxs
        have := hitem b hb
        rw [Finset.mem_Ico] at hx
        omega
      refine ⟨Finset.Ico item.itemoff item.tail ∪ s, ?_, ?_, ?_⟩
      · exact Finset.union_subset (Finset.Ico_subset_Ico hlow hhigh) hsub
      · rw [Finset.card_union_of_disjoint hdisj, Nat.card_Ico, hcard, total_cons, Compact.tail,
          Nat.add_sub_cancel_left]
      · grind
  obtain ⟨s, hsub, hcard, -⟩ := hcard
  rw [← hcard, ← Nat.card_Ico]
  exact Finset.card_le_card hsub

lemma of_mem_items (h : item ∈ p.items) :
    (p.linp item.number).flags ≠ .unused ∧ (p.linp item.number).len ≠ 0 ∧
      (p.linp item.number).off = item.itemoff ∧ 0 < item.alignedlen := by
  obtain ⟨i, hi, hitem⟩ := mem_filterMap.mp h
  rw [mem_range'_1] at hi
  rw [Page.compact?] at hitem
  split_ifs at hitem with hstored
  cases hitem
  have hlen := hstored.2
  rw [Compact.number, Nat.sub_add_cancel hi.1]
  exact ⟨hstored.1, hlen, rfl, by simp only [maxAlign]; omega⟩

lemma nodup_numbers_items : (numbers p.items).Nodup := by
  rw [numbers, List.Nodup, pairwise_map, Page.items, pairwise_filterMap]
  refine List.Pairwise.imp_of_mem (fun hi hj hlt a ha b hb => ?_) pairwise_lt_range'
  rw [mem_range'_1] at hi hj
  grind [Page.compact?, Compact.number]

/-- The line pointers are within bounds, and the items lie apart. -/
structure Page.Valid (p : Page) : Prop where
  sane : p.Sane
  few : p.items.length ≤ maxHeapTuplesPerPage
  inside : ∀ item ∈ p.items, p.upper ≤ item.itemoff ∧ item.tail ≤ p.special
  apart : p.items.Pairwise fun a b => a.tail ≤ b.itemoff ∨ b.tail ≤ a.itemoff

structure Placed (p q : Page) : Prop where
  lower : q.lower = p.lower
  special : q.special = p.special
  laid : Laid q.upper q.linp q.byte p.byte p.special p.items
  linp : ∀ i ∉ numbers p.items, q.linp i = p.linp i
  same : ∀ i, (q.linp i).flags = (p.linp i).flags ∧ (q.linp i).len = (p.linp i).len

section Valid

variable (h : p.Valid)

include h

lemma Page.Valid.inRange : ∀ item ∈ p.items, p.InRange item := fun item hitem =>
  ⟨(h.inside item hitem).1, (Nat.lt_add_of_pos_right (of_mem_items hitem).2.2.2).trans_le
    (h.inside item hitem).2⟩

lemma Page.Valid.tail_le : ∀ item ∈ p.items, item.tail ≤ blcksz := fun item hitem =>
  (h.inside item hitem).2.trans h.sane.2.2.2.1

lemma Page.Valid.total_le : total p.items ≤ p.special - p.lower := by
  have hle := Fragmentation.total_le h.inside h.apart
  have := h.sane.2.1
  omega

lemma Page.Valid.move {q} (hmem : first ∈ p.items) (ht : Skipped p.upper p.special first p.items t)
    (hskip : ∀ bottom linp byte, Laid bottom linp byte p.byte t.upper t.items → (∀ x, t.upper ≤ x →
      byte x = p.byte x) → (∀ i ∉ numbers t.items, linp i = p.linp i) → Laid bottom linp byte p.byte
      p.special p.items) (hq : p.move scratch t = some q)
    (hread : Readable p.byte (p.moving t) t.items scratch) : Placed p q := by
  have hsub := ht.suffix.map Compact.number
  obtain ⟨r, hr, rfl⟩ := map_eq_some_iff.mp hq
  obtain ⟨hbyte, hlaid, hlinp, hsame⟩ := moveItems_laid
    (ht.inPage h.sane hmem h.inRange h.total_le h.tail_le) hread
    (nodup_numbers_items.sublist hsub.sublist) hr
  refine ⟨rfl, rfl, hskip _ _ _ hlaid (fun x hx => ?_) hlinp, fun i hi => ?_, hsame⟩
  · exact (hbyte x hx).trans (if_neg (by simp only [Page.moving]; omega))
  · exact hlinp i fun hmem => hi (hsub.mem hmem)

lemma Page.Valid.compactifyTuples {rest : List Compact} {presorted : Bool}
    (heq : p.items = first :: rest)
    (hpre : presorted → p.items.Pairwise fun a b => b.itemoff < a.itemoff) :
    ∃ q, compactifyTuples junk first rest p presorted = some q ∧ Placed p q := by
  have hmem : first ∈ p.items := heq ▸ mem_cons_self
  have hskip : Skipped p.upper p.special first p.items (skip p.special first p.items) :=
    skipped_skip h.sane.2.2.1 fun item hitem => (h.inside item hitem).1
  have hlast : ∀ item ∈ (skip p.special first p.items).items, item.tail ≤ _ :=
    tail_le_skip (fun item hitem => (of_mem_items hitem).2.2.2)
      (fun item hitem => (h.inside item hitem).2) h.apart
  have hlaid (bottom linp byte) :=
    @skip_laid p.items p.byte bottom p.special first linp p.linp byte nodup_numbers_items
      fun item hitem => (of_mem_items hitem).2.2.1
  obtain ⟨q, hq⟩ := isSome_iff_exists.mp <|
    (compactifyTuples_isSome_iff h.sane (heq ▸ h.inRange) (heq ▸ h.total_le)).mpr (heq ▸ h.tail_le)
  refine ⟨q, hq, ?_⟩
  rw [Fragmentation.compactifyTuples, ← heq] at hq
  split_ifs at hq with hsorted
  -- In the page itself: items that are apart and sorted by offset are in descending order.
  · have hdesc : p.items.Pairwise fun a b => b.tail ≤ a.itemoff :=
      h.apart.imp₂ (fun a b hab hlt => hab.resolve_left fun hle =>
        Nat.not_le_of_lt hlt ((Nat.le_add_right ..).trans hle)) (hpre hsorted)
    exact h.move hmem hskip hlaid hq
      ⟨hdesc.sublist hskip.suffix.sublist, hlast, fun _ _ => rfl⟩
  -- Item by item: nothing is skipped, and the scratch block has every item.
  · obtain ⟨scratch, hscratch, hq⟩ := bind_eq_some_iff.mp hq
    refine h.move hmem (skipped_refl h.sane.2.2.1 (by simp)) (fun _ _ _ hlaid _ _ => hlaid) hq
      fun item hitem y hy => ?_
    refine (copyToScratch_eq hscratch _).resolve_right fun hno => hno.2 item hitem ?_
    exact ⟨Nat.le_add_right .., Nat.add_lt_add_left hy _⟩
  -- In bulk: the items that are not skipped lie in the part that is copied.
  · obtain ⟨scratch, hscratch, hq⟩ := bind_eq_some_iff.mp hq
    rw [memcpy] at hscratch
    split_ifs at hscratch
    cases hscratch
    refine h.move hmem hskip hlaid hq fun item hitem y hy => ?_
    have hle := hlast item hitem
    have hlow := (h.inside item (hskip.suffix.mem hitem)).1
    simp only [Compact.tail] at hle
    grind [copied]

end Valid

def Page.setUnused (p : Page) (unused : ℕ → Bool) : Page :=
  { p with linp := fun i => if unused i then ⟨.unused, 0, 0⟩ else p.linp i }

lemma items_setUnused (p : Page) (unused : ℕ → Bool) :
    (p.setUnused unused).items.Sublist p.items := by
  change List.Sublist ((List.range' 1 p.nline).filterMap _) ((List.range' 1 p.nline).filterMap _)
  induction List.range' 1 p.nline with
  | nil => exact .slnil
  | cons i l ih =>
    have hi : (p.setUnused unused).compact? i = none ∨
        (p.setUnused unused).compact? i = p.compact? i := by
      grind [Page.compact?, Page.setUnused]
    grind

/-- What is left of `p`: the line pointers up to the last one in use, under their numbers, and the
items one below the other, with all their bytes. -/
structure Compacted (p q : Page) : Prop where
  special : q.special = p.special
  nline : q.nline ≤ p.nline ∧ (q.nline = 0 ∨ (p.linp q.nline).flags ≠ .unused)
  used : ∀ i, 1 ≤ i → i ≤ p.nline → (p.linp i).flags ≠ .unused → i ≤ q.nline ∧
    (q.linp i).flags = (p.linp i).flags ∧ (q.linp i).len = (p.linp i).len ∧
    ((p.linp i).len = 0 → q.linp i = p.linp i)
  unused : ∀ i, 1 ≤ i → i ≤ p.nline → (p.linp i).flags = .unused → (q.linp i).flags = .unused
  laid : Laid q.upper q.linp q.byte p.byte p.special p.items

section Scanned

variable {t : Scan} (ht : Scanned p p.start (List.range' 1 p.nline) t)

include ht

lemma Scanned.linp_eq {i} (hused : (p.linp i).flags ≠ .unused) : t.linp i = p.linp i :=
  (ht.linp i).trans (if_neg fun h => hused h.2)

lemma Scanned.items_eq : Page.items { p with linp := t.linp } = p.items := by
  refine filterMap_congr fun i hi => ?_
  by_cases hused : (p.linp i).flags = .unused
  · rw [compact?_eq_none (.inl hused)]
    exact compact?_eq_none (.inl (congrArg ItemId.flags ((ht.linp i).trans (if_pos ⟨hi, hused⟩))))
  · simp only [Page.compact?, ht.linp_eq hused]

end Scanned

lemma Page.Valid.placed (h : p.Valid) : ∃ t q,
    pageRepairFragmentation junk p = some (.ok (truncateLinp t q)) ∧
      Scanned p p.start (List.range' 1 p.nline) t ∧ Placed { p with linp := t.linp } q := by
  rw [pageRepairFragmentation, if_pos h.sane]
  split
  · next hscan => exact absurd (scan_start_eq_none_iff.mp hscan).1 (Nat.not_lt_of_le h.few)
  · next e hscan =>
    obtain ⟨item, hitem, hbad⟩ := exists_not_inRange_of_scan hscan
    exact absurd (h.inRange item hitem) hbad
  · next t hscan =>
    have ht := scanned_scan pairwise_lt_range' hscan
    have hitems : t.itemidbase = p.items := ht.items
    have htotal : t.totallen = total p.items := ht.total.trans (zero_add _)
    have hsame := ht.items_eq
    have hvalid : Page.Valid { p with linp := t.linp } :=
      ⟨h.sane, hsame ▸ h.few, hsame ▸ h.inside, hsame ▸ h.apart⟩
    split
    · next heq =>
      refine ⟨t, _, rfl, ht, rfl, rfl, ?_, fun _ _ => rfl, fun _ => ⟨rfl, rfl⟩⟩
      rw [hsame, ← hitems, heq]
      rfl
    · next first rest heq =>
      obtain ⟨q, hq, hplaced⟩ := hvalid.compactifyTuples (hsame.trans (hitems.symm.trans heq))
        fun hpre => hsame ▸ (ht.presorted hpre).2.1
      rw [if_neg (Nat.not_lt_of_le (htotal ▸ h.total_le)), hq]
      exact ⟨t, q, rfl, ht, hplaced⟩

lemma Page.Valid.repair (h : p.Valid) :
    ∃ q, pageRepairFragmentation junk p = some (.ok q) ∧ Compacted p q := by
  obtain ⟨t, q, hq, ht, hplaced⟩ := h.placed
  have hfinal := ht.final_used
  have hnline : (truncateLinp t q).nline = t.finalusedlp := by
    have := h.sane.1
    simp only [truncateLinp, Page.nline, hplaced.lower, mem_range'_1, Page.start] at *
    omega
  refine ⟨_, hq, hplaced.special, hnline ▸ ⟨?_, hfinal.imp id And.right⟩, fun i h1 hi hused => ?_,
    fun i h1 hi hunused => ?_, ht.items_eq ▸ hplaced.laid⟩
  · grind [Page.start]
  · have hsame : _ = (t.linp i).flags ∧ _ = (t.linp i).len := hplaced.same i
    rw [ht.linp_eq hused] at hsame
    refine ⟨hnline ▸ ht.le_final i (mem_range'_1.mpr (by omega)) hused, hsame.1, hsame.2,
      fun hlen => (hplaced.linp i fun hin => ?_).trans (ht.linp_eq hused)⟩
    obtain ⟨item, hitem, rfl⟩ := mem_map.mp hin
    exact (of_mem_items (ht.items_eq ▸ hitem)).2.1 hlen
  · exact (hplaced.same i).1.trans (congrArg ItemId.flags ((ht.linp i).trans
      (if_pos ⟨mem_range'_1.mpr (by omega), hunused⟩)))

/-- Compaction keeps every item of a valid page, whatever line pointers have been set unused. -/
theorem repairFragmentation_keeps_items (junk : ℕ → UInt8) (p : Page) (h : p.Valid)
    (unused : ℕ → Bool) : ∃ q, pageRepairFragmentation junk (p.setUnused unused) = some (.ok q) ∧
      Compacted (p.setUnused unused) q := by
  have hsub := items_setUnused p unused
  exact Page.Valid.repair ⟨h.sane, hsub.length_le.trans h.few,
    fun item hitem => h.inside item (hsub.mem hitem), h.apart.sublist hsub⟩

/-- Two items in the wrong order. -/
theorem repairFragmentation_keeps_two_items :
    ∃ q, pageRepairFragmentation (fun _ => 0) (Page.setUnused ⟨32, 8160, 8192, false,
      fun i => ⟨.normal, 8144 + 16 * i, 12⟩, fun _ => 1⟩ fun _ => false) = some (.ok q) ∧
      Compacted (Page.setUnused ⟨32, 8160, 8192, false,
        fun i => ⟨.normal, 8144 + 16 * i, 12⟩, fun _ => 1⟩ fun _ => false) q :=
  repairFragmentation_keeps_items _ _ ⟨by decide, by decide, by decide, by decide⟩ _

end Umbra.Fragmentation
