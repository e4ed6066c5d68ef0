import Umbra.Block.Redo
import Mathlib.Order.Nat

/-!
# The log of one block

The records of a logical block and what they make of its page and its mapping. Positions count
records: the record at index `i` ends at position `i + 1`, which becomes the position of the page.
-/

namespace Umbra.Block

variable {β : Type}

inductive Record (β : Type)
  | other
  | plain (delta : β → β)
  | remap (r : Remap) (delta : β → β)
  /-- `XLOG_UMBRA_MAP_SET` of the compactor. -/
  | mapSet (oldPblkno newPblkno : Nat)

namespace Record

def onPage (lsn : Nat) : Record β → Page β → Page β
  | .plain delta, p | .remap _ delta, p => ⟨lsn, delta p.body⟩
  | .other, p | .mapSet .., p => p

def onMapping : Record β → Nat → Nat
  | .remap r _, _ => r.newPblkno
  | .mapSet _ new, _ => new
  | .other, pblk | .plain _, pblk => pblk

def isMapping : Record β → Bool
  | .remap .. | .mapSet .. => true
  | .other | .plain _ => false

def MovesFrom (pblk : Nat) : Record β → Prop
  | .remap r _ => r.oldPblkno = pblk
  | .mapSet old _ => old = pblk
  | .other | .plain _ => True

def MovesAbove (bound : Nat) : Record β → Prop
  | .remap r _ => bound < r.newPblkno
  | .mapSet _ new => bound < new
  | .other | .plain _ => True

end Record

variable (base : Page β) (pblk : Nat) (wal : List (Record β))

def pageAt : Nat → Page β
  | 0 => base
  | i + 1 =>
    match wal[i]? with
    | some r => r.onPage (i + 1) (pageAt i)
    | none => pageAt i

def mapAt : Nat → Nat
  | 0 => pblk
  | i + 1 =>
    match wal[i]? with
    | some r => r.onMapping (mapAt i)
    | none => mapAt i

def Remapped (i j : Nat) : Prop := ∃ l r, i ≤ l ∧ l < j ∧ wal[l]? = some r ∧ r.isMapping = true

/-- Since a position the page is changed by a remap first. -/
def Disciplined (i : Nat) : Prop :=
  ∀ l delta, i ≤ l → wal[l]? = some (.plain delta) → i < (pageAt base wal l).lsn

/-- Every remap starts where the map is at that point, and moves up. -/
def Chained : Prop :=
  ∀ l (r : Record β), wal[l]? = some r →
    r.MovesFrom (mapAt pblk wal l) ∧ r.MovesAbove (mapAt pblk wal l)

variable {base pblk wal} {i j : Nat} {r : Record β}

lemma pageAt_succ (h : wal[i]? = some r) :
    pageAt base wal (i + 1) = r.onPage (i + 1) (pageAt base wal i) := by
  rw [pageAt, h]

lemma mapAt_succ (h : wal[i]? = some r) :
    mapAt pblk wal (i + 1) = r.onMapping (mapAt pblk wal i) := by
  rw [mapAt, h]

lemma pageAt_append (more) (h : i ≤ wal.length) :
    pageAt base (wal ++ more) i = pageAt base wal i := by
  induction i with
  | zero => rfl
  | succ i ih => rw [pageAt, pageAt, List.getElem?_append_left h, ih (Nat.le_of_succ_le h)]

lemma mapAt_append (more) (h : i ≤ wal.length) : mapAt pblk (wal ++ more) i = mapAt pblk wal i := by
  induction i with
  | zero => rfl
  | succ i ih => rw [mapAt, mapAt, List.getElem?_append_left h, ih (Nat.le_of_succ_le h)]

lemma getElem?_concat : (wal ++ [r])[wal.length]? = some r := by
  rw [List.getElem?_append_right le_rfl, Nat.sub_self]
  rfl

lemma pageAt_concat : pageAt base (wal ++ [r]) (wal.length + 1) =
    r.onPage (wal.length + 1) (pageAt base wal wal.length) := by
  rw [pageAt_succ getElem?_concat, pageAt_append _ (le_rfl)]

lemma pageAt_length_concat : pageAt base (wal ++ [r]) (wal ++ [r]).length =
    r.onPage (wal.length + 1) (pageAt base wal wal.length) := by
  rw [List.length_append, List.length_singleton, pageAt_concat]

lemma mapAt_concat : mapAt pblk (wal ++ [r]) (wal.length + 1) =
    r.onMapping (mapAt pblk wal wal.length) := by
  rw [mapAt_succ getElem?_concat, mapAt_append _ (le_rfl)]

lemma lsn_pageAt_le (hbase : base.lsn = 0) : (pageAt base wal i).lsn ≤ i := by
  induction i with
  | zero => exact hbase.le
  | succ i ih =>
    rw [pageAt]
    split
    next r hr =>
      cases r with
      | plain | remap => exact le_rfl
      | other | mapSet => exact ih.trans (Nat.le_succ _)
    next => exact ih.trans (Nat.le_succ _)

namespace Remapped

lemma mono {i' j'} (h : Remapped wal i j) (hi : i' ≤ i) (hj : j ≤ j') : Remapped wal i' j' := by
  obtain ⟨l, r, hil, hlj, hr, hmap⟩ := h
  exact ⟨l, r, hi.trans hil, lt_of_lt_of_le hlj hj, hr, hmap⟩

lemma append (h : Remapped wal i j) (more) : Remapped (wal ++ more) i j := by
  obtain ⟨l, r, hil, hlj, hr, hmap⟩ := h
  refine ⟨l, r, hil, hlj, ?_, hmap⟩
  rw [List.getElem?_append_left (getElem?_eq_some_iff.mp hr).1]
  exact hr

lemma of_append {more} (h : Remapped (wal ++ more) i j) (hj : j ≤ wal.length) :
    Remapped wal i j := by
  obtain ⟨l, r, hil, hlj, hr, hmap⟩ := h
  refine ⟨l, r, hil, hlj, ?_, hmap⟩
  rw [List.getElem?_append_left (lt_of_lt_of_le hlj hj)] at hr
  exact hr

lemma concat (hi : i ≤ wal.length) (hmap : r.isMapping = true) :
    Remapped (wal ++ [r]) i (wal.length + 1) :=
  ⟨wal.length, r, hi, Nat.lt_succ_self _, getElem?_concat, hmap⟩

lemma of_concat (h : Remapped (wal ++ [r]) i (wal.length + 1)) (hmap : r.isMapping = false) :
    Remapped wal i wal.length := by
  obtain ⟨l, r', hil, hlj, hr', hmap'⟩ := h
  rcases lt_or_eq_of_le (Nat.le_of_lt_succ hlj) with hlt | rfl
  · exact of_append ⟨l, r', hil, hlt, hr', hmap'⟩ le_rfl
  · cases getElem?_concat.symm.trans hr'
    exact absurd (hmap.symm.trans hmap') nofun

end Remapped

lemma mapAt_eq_of_not_remapped (hij : i ≤ j) (h : ¬ Remapped wal i j) :
    mapAt pblk wal j = mapAt pblk wal i := by
  induction j, hij using Nat.le_induction with
  | base => rfl
  | succ j hij ih =>
    rw [mapAt, ih fun hr => h (hr.mono le_rfl (Nat.le_succ _))]
    split
    next r hr =>
      cases r with
      | other | plain => rfl
      | remap | mapSet =>
        exact absurd ⟨j, _, hij, Nat.lt_succ_self _, hr, rfl⟩ h
    next => rfl

lemma pageAt_eq_of_not_remapped (hbase : base.lsn = 0) (hdisc : Disciplined base wal i)
    (hij : i ≤ j) (h : ¬ Remapped wal i j) : pageAt base wal j = pageAt base wal i := by
  induction j, hij using Nat.le_induction with
  | base => rfl
  | succ j hij ih =>
    have ih := ih fun hr => h (hr.mono le_rfl (Nat.le_succ _))
    rw [pageAt, ih]
    split
    next r hr =>
      cases r with
      | other => rfl
      | plain delta =>
        have hlt := hdisc j delta hij hr
        rw [ih] at hlt
        exact absurd (lsn_pageAt_le hbase) (not_le.mpr hlt)
      | remap | mapSet =>
        exact absurd ⟨j, _, hij, Nat.lt_succ_self _, hr, rfl⟩ h
    next => rfl

namespace Disciplined

lemma length : Disciplined base wal wal.length := by
  intro l delta hl h
  exact absurd (getElem?_eq_some_iff.mp h).1 (not_lt.mpr hl)

lemma concat (h : Disciplined base wal i)
    (hr : ∀ delta, r = .plain delta → i < (pageAt base wal wal.length).lsn) :
    Disciplined base (wal ++ [r]) i := by
  intro l delta hil hl
  rcases lt_or_ge l wal.length with hlt | hge
  · rw [List.getElem?_append_left hlt] at hl
    rw [pageAt_append _ hlt.le]
    exact h l delta hil hl
  · have hl' := (getElem?_eq_some_iff.mp hl).1
    rw [List.length_append, List.length_singleton] at hl'
    cases le_antisymm hge (Nat.le_of_lt_succ hl')
    rw [pageAt_append _ (le_rfl)]
    exact hr delta (Option.some.inj (getElem?_concat.symm.trans hl))

lemma remapped (h : Disciplined base wal i) (hbase : base.lsn = 0) {delta} (hij : i ≤ j)
    (hr : wal[j]? = some (.plain delta)) : Remapped wal i j := by
  by_contra hnot
  have hlt := h j delta hij hr
  rw [pageAt_eq_of_not_remapped hbase h hij hnot] at hlt
  exact absurd (lsn_pageAt_le hbase) (not_le.mpr hlt)

end Disciplined

namespace Chained

lemma nil : Chained pblk ([] : List (Record β)) := by
  intro l r h
  cases h

variable (h : Chained pblk wal)
include h

lemma concat (hfrom : r.MovesFrom (mapAt pblk wal wal.length))
    (habove : r.MovesAbove (mapAt pblk wal wal.length)) : Chained pblk (wal ++ [r]) := by
  intro l r' hl
  rcases lt_or_ge l wal.length with hlt | hge
  · rw [List.getElem?_append_left hlt] at hl
    rw [mapAt_append _ hlt.le]
    exact h l r' hl
  · have hl' := (getElem?_eq_some_iff.mp hl).1
    rw [List.length_append, List.length_singleton] at hl'
    cases le_antisymm hge (Nat.le_of_lt_succ hl')
    cases getElem?_concat.symm.trans hl
    rw [mapAt_append _ (le_rfl)]
    exact ⟨hfrom, habove⟩

lemma mapAt_le_succ (i) : mapAt pblk wal i ≤ mapAt pblk wal (i + 1) := by
  rw [mapAt]
  split
  next r hr =>
    cases r with
    | other | plain => exact le_rfl
    | remap | mapSet => exact (h i _ hr).2.le
  next => exact le_rfl

lemma mapAt_mono (hij : i ≤ j) : mapAt pblk wal i ≤ mapAt pblk wal j := by
  induction j, hij using Nat.le_induction with
  | base => exact le_rfl
  | succ j _ ih => exact ih.trans (h.mapAt_le_succ j)

lemma mapAt_lt (hr : Remapped wal i j) : mapAt pblk wal i < mapAt pblk wal j := by
  obtain ⟨l, r, hil, hlj, hr, hmap⟩ := hr
  have hlt : mapAt pblk wal l < mapAt pblk wal (l + 1) := by
    rw [mapAt_succ hr]
    cases r with
    | other | plain => cases hmap
    | remap | mapSet => exact (h l _ hr).2
  exact lt_of_le_of_lt (h.mapAt_mono hil) (lt_of_lt_of_le hlt (h.mapAt_mono hlj))

end Chained

end Umbra.Block
