import Umbra.Map.Inflight

/-!
# Pending bits and claims

At every moment the set bits of the MAP buffers and the claims held, recorded or not, correspond
one to one (`Exclusive`). `Move` is the inversion of the machine's steps, and each of them keeps
the correspondence.
-/

namespace Umbra.Inflight

open Foundation Function MapBufferDesc List

variable {n m : Nat}
variable {i : Fin m} {tag : MapTag} {idx : Nat} {x : Hold m} {k : BlockId} {buf : MapBufferDesc}
  {be : Backend m} {e : Event n m}

/-! ### Addresses -/

lemma BlockId.address_lt (h : k.address = some (tag, idx)) : idx < mapEntriesPerPage := by
  obtain ⟨a, ha, heq⟩ := Option.map_eq_some_iff.mp h
  cases heq
  exact mapInflightDecode_lt ha

lemma BlockId.address_injective {k' a} (h : k.address = some a) (h' : k'.address = some a) :
    k = k' := by
  obtain ⟨a₁, h₁, rfl⟩ := Option.map_eq_some_iff.mp h
  obtain ⟨a₂, h₂, heq⟩ := Option.map_eq_some_iff.mp h'
  obtain ⟨rnode, fork, lblkno⟩ := k
  obtain ⟨rnode', fork', lblkno'⟩ := k'
  obtain ⟨⟨rfl, rfl, hblk⟩, hidx⟩ :
      (rnode' = rnode ∧ fork' = fork ∧ a₂.1 = a₁.1) ∧ a₂.2 = a₁.2 := by
    simpa using heq
  have ha : a₂ = a₁ := Prod.ext hblk hidx
  have hlblkno : lblkno = lblkno' := mapInflightDecode_injective h₁ (ha ▸ h₂)
  rw [hlblkno]

/-! ### Claims held -/

def Call.held : Call m → List (Hold m)
  | .claimed i k _ => [⟨k, i⟩]
  | .releasing i k => [⟨k, i⟩]
  | _ => []

def Backend.held (be : Backend m) : List (Hold m) :=
  be.call.held ++ (be.locals.map fun e => ⟨e.key, e.slotId⟩) ++ be.barriers

def State.held (s : State n m) : Option (Fin n) → List (Hold m)
  | some b => (s.backends b).held
  | none => s.orphans

open State

def State.Marked (s : State n m) (h : Hold m) : Prop :=
  ∃ tag idx, h.key.address = some (tag, idx) ∧ (s.buffers h.slotId).tag = some tag ∧
    (s.buffers h.slotId).pendingBits idx = true

def MapBufferDesc.pendingSet (buf : MapBufferDesc) : Finset Nat :=
  (Finset.range mapEntriesPerPage).filter fun idx => buf.pendingBits idx = true

/-- A block has one claim at most, and the pending bits are those of the claims. -/
structure Exclusive (s : State n m) : Prop where
  nodup : ∀ o, ((s.held o).map Hold.key).Nodup
  disjoint : ∀ o o', ∀ h ∈ s.held o, ∀ h' ∈ s.held o', h.key = h'.key → o = o'
  marked : ∀ o, ∀ h ∈ s.held o, s.Marked h
  held : ∀ i idx, (s.buffers i).pendingBits idx = true →
    ∃ o, ∃ h ∈ s.held o, h.slotId = i ∧ ∃ tag, h.key.address = some (tag, idx)
  tags : ∀ i j tag, (s.buffers i).tag = some tag → (s.buffers j).tag = some tag → i = j
  count : ∀ i, (s.buffers i).pendingCount = (s.buffers i).pendingSet.card

namespace State

variable (s : State n m) (b : Fin n)

@[simp] lemma backends_setBackend_self (be) :
    (s.setBackend b be).backends b = be := update_self ..

lemma backends_setBackend_of_ne {b b'} (hb : b' ≠ b) (be) :
    (s.setBackend b be).backends b' = s.backends b' := update_of_ne hb ..

lemma held_setBackend (be o) :
    (s.setBackend b be).held o = if o = some b then be.held else s.held o := by
  cases o with
  | none => simp [held, setBackend]
  | some b' =>
    by_cases hb : b' = b
    · subst hb
      simp [held, setBackend]
    · simp [held, setBackend, hb]

@[simp] lemma buffers_setCall (c) : (s.setCall b c).buffers = s.buffers := rfl

@[simp] lemma buffers_setBuffer_self (i buf) :
    (s.setBuffer i buf).buffers i = buf := update_self ..

lemma buffers_setBuffer_of_ne {j} (hj : j ≠ i) (buf) :
    (s.setBuffer i buf).buffers j = s.buffers j := update_of_ne hj ..

lemma forall_setBuffer {P : Fin m → MapBufferDesc → Prop} (hself : P i buf)
    (hne : ∀ j ≠ i, P j (s.buffers j)) (j) : P j ((s.setBuffer i buf).buffers j) := by
  rcases eq_or_ne j i with rfl | hj
  · rwa [buffers_setBuffer_self]
  · rw [s.buffers_setBuffer_of_ne hj]
    exact hne j hj

lemma apply_setBuffer {β} (f : MapBufferDesc → β) (h : f buf = f (s.buffers i)) (j : Fin m) :
    f ((s.setBuffer i buf).buffers j) = f (s.buffers j) :=
  s.forall_setBuffer (P := fun j b => f b = f (s.buffers j)) h (fun _ _ => rfl) j

lemma held_setBuffer (i buf o) : (s.setBuffer i buf).held o = s.held o := by
  cases o <;> rfl

end State

namespace Exclusive

variable {s t : State n m}

section
variable (h : Exclusive s) {w : Option (Fin n)} {b : Fin n}
include h

lemma congr (hheld : ∀ o, (t.held o).Perm (s.held o))
    (htag : ∀ i, (t.buffers i).tag = (s.buffers i).tag)
    (hbits : ∀ i, (t.buffers i).pendingBits = (s.buffers i).pendingBits)
    (hcount : ∀ i, (t.buffers i).pendingCount = (s.buffers i).pendingCount) : Exclusive t where
  nodup o := ((hheld o).map Hold.key).nodup_iff.mpr (h.nodup o)
  disjoint o o' x hx x' hx' :=
    h.disjoint o o' x ((hheld o).mem_iff.mp hx) x' ((hheld o').mem_iff.mp hx')
  marked o x hx := by
    obtain ⟨tag, idx, ha, ht, hb⟩ := h.marked o x ((hheld o).mem_iff.mp hx)
    exact ⟨tag, idx, ha, (htag _).trans ht, by rw [hbits, hb]⟩
  held i idx hb := by
    rw [hbits] at hb
    obtain ⟨o, x, hx, hi, ha⟩ := h.held i idx hb
    exact ⟨o, x, (hheld o).mem_iff.mpr hx, hi, ha⟩
  tags i j tag hi hj := h.tags i j tag ((htag i).symm.trans hi) ((htag j).symm.trans hj)
  count i := by
    rw [hcount, h.count, pendingSet, pendingSet, hbits]

lemma setBackend (hperm : be.held.Perm (s.backends b).held) : Exclusive (s.setBackend b be) := by
  refine h.congr (fun o => ?_) (fun _ => rfl) (fun _ => rfl) (fun _ => rfl)
  rw [held_setBackend]
  split_ifs with ho
  · rw [ho]
    exact hperm
  · exact List.Perm.refl _

lemma setCall {c} (hc : c.held = (s.backends b).call.held) : Exclusive (s.setCall b c) := by
  refine h.setBackend ?_
  rw [Backend.held, Backend.held, hc]

lemma setBuffer (htag : buf.tag = (s.buffers i).tag)
    (hbits : buf.pendingBits = (s.buffers i).pendingBits)
    (hcount : buf.pendingCount = (s.buffers i).pendingCount) : Exclusive (s.setBuffer i buf) := by
  refine h.congr (fun o => ?_) (s.apply_setBuffer (·.tag) htag)
    (s.apply_setBuffer (·.pendingBits) hbits) (s.apply_setBuffer (·.pendingCount) hcount)
  rw [held_setBuffer]

lemma eq_of_address {o o' x'} (hx : x ∈ s.held o) (hx' : x' ∈ s.held o') (hkey : x.key = x'.key) :
    o = o' ∧ x = x' := by
  obtain rfl := h.disjoint o o' x hx x' hx' hkey
  exact ⟨rfl, inj_on_of_nodup_map (h.nodup o) hx hx' hkey⟩

lemma mem_pendingSet : idx ∈ (s.buffers i).pendingSet ↔ (s.buffers i).pendingBits idx = true := by
  rw [pendingSet, Finset.mem_filter, Finset.mem_range, and_iff_right_iff_imp]
  intro hb
  obtain ⟨o, x, -, -, tag, ha⟩ := h.held i idx hb
  exact BlockId.address_lt ha

lemma slotId_ne (hcount : (s.buffers i).pendingCount = 0) {o} (hx : x ∈ s.held o) :
    x.slotId ≠ i := by
  rintro rfl
  obtain ⟨tag, idx, -, -, hb⟩ := h.marked o x hx
  have hmem := h.mem_pendingSet.mpr hb
  rw [h.count, Finset.card_eq_zero] at hcount
  rw [hcount] at hmem
  cases hmem

lemma claim (ha : x.key.address = some (tag, idx)) (hx : (s.buffers x.slotId).tag = some tag)
    (hclear : (s.buffers x.slotId).pendingBits idx = false)
    (hheld : ∀ o, (t.held o).Perm (if o = w then x :: s.held o else s.held o))
    (htag : ∀ i, (t.buffers i).tag = (s.buffers i).tag)
    (hbits : ∀ i j, (t.buffers i).pendingBits j = true ↔ (i = x.slotId ∧ j = idx) ∨ (s.buffers
      i).pendingBits j = true)
    (hcount : ∀ i, (t.buffers i).pendingCount = if i = x.slotId then (s.buffers i).pendingCount + 1
      else (s.buffers i).pendingCount) : Exclusive t := by
  have hmem : ∀ o y, y ∈ t.held o ↔ (o = w ∧ y = x) ∨ y ∈ s.held o := by
    intro o y
    rw [(hheld o).mem_iff]
    split_ifs with ho <;> simp [ho]
  -- nobody holds the block yet: the bit of that claim would be this one
  have hfree : ∀ o, ∀ y ∈ s.held o, y.key ≠ x.key := by
    intro o y hy hkey
    obtain ⟨tag', idx', ha', htag', hb'⟩ := h.marked o y hy
    rw [hkey, ha] at ha'
    cases ha'
    rw [h.tags _ _ tag htag' hx, hclear] at hb'
    cases hb'
  constructor
  case nodup =>
    intro o
    rw [((hheld o).map Hold.key).nodup_iff]
    split_ifs with ho
    · rw [map_cons, nodup_cons]
      refine ⟨fun hin => ?_, h.nodup o⟩
      obtain ⟨y, hy, hkey⟩ := mem_map.mp hin
      exact hfree o y hy hkey
    · exact h.nodup o
  case disjoint =>
    intro o o' y hy y' hy' hkey
    rw [hmem] at hy hy'
    rcases hy with ⟨rfl, rfl⟩ | hy <;> rcases hy' with ⟨rfl, rfl⟩ | hy'
    · rfl
    · exact absurd hkey.symm (hfree o' y' hy')
    · exact absurd hkey (hfree o y hy)
    · exact h.disjoint o o' y hy y' hy' hkey
  case marked =>
    intro o y hy
    rcases (hmem o y).mp hy with ⟨-, rfl⟩ | hy
    · exact ⟨tag, idx, ha, (htag _).trans hx, (hbits _ _).mpr (.inl ⟨rfl, rfl⟩)⟩
    · obtain ⟨tag', idx', ha', htag', hb'⟩ := h.marked o y hy
      exact ⟨tag', idx', ha', (htag _).trans htag', (hbits _ _).mpr (.inr hb')⟩
  case held =>
    intro i j hb
    rcases (hbits i j).mp hb with ⟨rfl, rfl⟩ | hb
    · exact ⟨w, x, (hmem _ _).mpr (.inl ⟨rfl, rfl⟩), rfl, tag, ha⟩
    · obtain ⟨o, y, hy, hrest⟩ := h.held i j hb
      exact ⟨o, y, (hmem _ _).mpr (.inr hy), hrest⟩
  case tags =>
    intro i j tag' hi hj
    exact h.tags i j tag' ((htag i).symm.trans hi) ((htag j).symm.trans hj)
  case count =>
    intro i
    rw [hcount]
    split_ifs with hi
    · have hnot : idx ∉ (s.buffers i).pendingSet := by
        rw [h.mem_pendingSet, hi, hclear]
        exact Bool.false_ne_true
      have hset : (t.buffers i).pendingSet = insert idx (s.buffers i).pendingSet := by
        ext j
        have hlt := BlockId.address_lt ha
        simp only [pendingSet, Finset.mem_filter, Finset.mem_insert,
          Finset.mem_range, hbits, hi, true_and]
        constructor
        · rintro ⟨hj, rfl | hb⟩
          · exact .inl rfl
          · exact .inr ⟨hj, hb⟩
        · rintro (rfl | ⟨hj, hb⟩)
          · exact ⟨hlt, .inl rfl⟩
          · exact ⟨hj, .inr hb⟩
      rw [hset, Finset.card_insert_of_notMem hnot, h.count]
    · have hset : (t.buffers i).pendingSet = (s.buffers i).pendingSet := by
        ext j
        simp only [pendingSet, Finset.mem_filter, hbits, hi, false_and, false_or]
      rw [hset, h.count]

lemma clear (ha : x.key.address = some (tag, idx)) (hx : x ∈ s.held w)
    (hheld : ∀ o, (s.held o).Perm (if o = w then x :: t.held o else t.held o))
    (htag : ∀ i, (t.buffers i).tag = (s.buffers i).tag)
    (hbits : ∀ i j, (t.buffers i).pendingBits j = true ↔ ¬ (i = x.slotId ∧ j = idx) ∧ (s.buffers
      i).pendingBits j = true)
    (hcount : ∀ i, (t.buffers i).pendingCount = if i = x.slotId then (s.buffers i).pendingCount - 1
      else (s.buffers i).pendingCount) : Exclusive t := by
  obtain ⟨tag', idx', ha', hxtag, hxbit⟩ := h.marked w x hx
  obtain ⟨rfl, rfl⟩ := Prod.mk.inj (Option.some.inj (ha'.symm.trans ha))
  have hmem : ∀ o y, y ∈ s.held o ↔ (o = w ∧ y = x) ∨ y ∈ t.held o := by
    intro o y
    rw [(hheld o).mem_iff]
    split_ifs with ho <;> simp [ho]
  -- the claims that stay are on other blocks
  have hother : ∀ o, ∀ y ∈ t.held o, y.key ≠ x.key := by
    intro o y hy hkey
    obtain ⟨rfl, rfl⟩ := h.eq_of_address ((hmem o y).mpr (.inr hy)) hx hkey
    have hnd := h.nodup o
    rw [((hheld o).map Hold.key).nodup_iff, if_pos rfl, map_cons, nodup_cons] at hnd
    exact hnd.1 (mem_map_of_mem hy)
  constructor
  case nodup =>
    intro o
    have hnd := h.nodup o
    rw [((hheld o).map Hold.key).nodup_iff] at hnd
    split_ifs at hnd
    · rw [map_cons, nodup_cons] at hnd
      exact hnd.2
    · exact hnd
  case disjoint =>
    intro o o' y hy y' hy'
    exact h.disjoint o o' y ((hmem _ _).mpr (.inr hy)) y' ((hmem _ _).mpr (.inr hy'))
  case marked =>
    intro o y hy
    obtain ⟨tag, idx, hya, hytag, hyb⟩ := h.marked o y ((hmem _ _).mpr (.inr hy))
    refine ⟨tag, idx, hya, (htag _).trans hytag, (hbits _ _).mpr ⟨?_, hyb⟩⟩
    rintro ⟨hslot, rfl⟩
    rw [hslot, hxtag] at hytag
    cases hytag
    exact hother o y hy (BlockId.address_injective hya ha)
  case held =>
    intro i j hb
    obtain ⟨hne, hb⟩ := (hbits i j).mp hb
    obtain ⟨o, y, hy, rfl, tag, hya⟩ := h.held i j hb
    rcases (hmem o y).mp hy with ⟨-, rfl⟩ | hy
    · rw [ha] at hya
      cases hya
      exact absurd ⟨rfl, rfl⟩ hne
    · exact ⟨o, y, hy, rfl, tag, hya⟩
  case tags =>
    intro i j tag' hi hj
    exact h.tags i j tag' ((htag i).symm.trans hi) ((htag j).symm.trans hj)
  case count =>
    intro i
    rw [hcount]
    split_ifs with hi
    · have hin : idx' ∈ (s.buffers i).pendingSet := by
        rw [h.mem_pendingSet, hi]
        exact hxbit
      have hset : (t.buffers i).pendingSet = (s.buffers i).pendingSet.erase idx' := by
        ext j
        simp only [pendingSet, Finset.mem_filter, Finset.mem_erase, Finset.mem_range,
          hbits, hi, true_and]
        exact and_left_comm
      rw [hset, Finset.card_erase_of_mem hin, h.count]
    · have hset : (t.buffers i).pendingSet = (s.buffers i).pendingSet := by
        ext j
        simp only [pendingSet, Finset.mem_filter, hbits, hi, false_and, not_false_eq_true, true_and]
      rw [hset, h.count]

lemma replace {page} (hcount : (s.buffers i).pendingCount = 0)
    (hnew : ∀ j, (s.buffers j).tag ≠ some tag) : Exclusive (s.setBuffer i (.load tag page)) := by
  have hself := s.buffers_setBuffer_self i (.load tag page)
  have hne : ∀ j, j ≠ i → (s.setBuffer i (.load tag page)).buffers j = s.buffers j :=
    fun j hj => s.buffers_setBuffer_of_ne hj _
  constructor
  case nodup =>
    intro o
    exact h.nodup o
  case disjoint =>
    intro o o'
    exact h.disjoint o o'
  case marked =>
    intro o x hx
    rw [State.Marked, hne _ (h.slotId_ne hcount hx)]
    exact h.marked o x hx
  case held =>
    intro j idx hb
    by_cases hj : j = i
    · rw [hj, hself] at hb
      cases hb
    · rw [hne j hj] at hb
      obtain ⟨o, x, hx, hrest⟩ := h.held j idx hb
      exact ⟨o, x, (held_setBuffer ..).symm ▸ hx, hrest⟩
  case tags =>
    intro j j' tag' htag htag'
    by_cases hj : j = i <;> by_cases hj' : j' = i
    · rw [hj, hj']
    · rw [hj, hself] at htag
      cases htag
      exact absurd (hne j' hj' ▸ htag') (hnew j')
    · rw [hj', hself] at htag'
      cases htag'
      exact absurd (hne j hj ▸ htag) (hnew j)
    · rw [hne j hj] at htag
      rw [hne j' hj'] at htag'
      exact h.tags j j' tag' htag htag'
  case count =>
    intro j
    by_cases hj : j = i
    · rw [hj, hself, pendingSet]
      simp [load]
    · rw [hne j hj, h.count]

/-- The claims of `b` go to nobody. -/
lemma exit (hnone : t.held none = s.held (some b) ++ s.held none) (hself : t.held (some b) = [])
    (hother : ∀ b' ≠ b, t.held (some b') = s.held (some b')) (hbuffers : t.buffers = s.buffers) :
    Exclusive t := by
  have hmem : ∀ o, ∀ x ∈ t.held o,
      o ≠ some b ∧ (x ∈ s.held o ∨ o = none ∧ x ∈ s.held (some b)) := by
    intro o x hx
    cases o with
    | none =>
      rw [hnone] at hx
      exact ⟨nofun, (mem_append.mp hx).symm.imp_right fun hx => ⟨rfl, hx⟩⟩
    | some b' =>
      by_cases hne : b' = b
      · rw [hne, hself] at hx
        cases hx
      · exact ⟨fun heq => hne (Option.some.inj heq), .inl (hother b' hne ▸ hx)⟩
  have hback : ∀ o, ∀ x ∈ s.held o, ∃ o', x ∈ t.held o' := by
    intro o x hx
    cases o with
    | none => exact ⟨none, hnone ▸ mem_append_right _ hx⟩
    | some b' =>
      by_cases hne : b' = b
      · exact ⟨none, hnone ▸ mem_append_left _ (hne ▸ hx)⟩
      · exact ⟨some b', (hother b' hne).symm ▸ hx⟩
  constructor
  case nodup =>
    intro o
    cases o with
    | none =>
      rw [hnone, map_append, nodup_append]
      refine ⟨h.nodup (some b), h.nodup none, ?_⟩
      rintro k hk k' hk' rfl
      obtain ⟨x, hx, rfl⟩ := mem_map.mp hk
      obtain ⟨y, hy, hkey⟩ := mem_map.mp hk'
      cases h.disjoint (some b) none x hx y hy hkey.symm
    | some b' =>
      by_cases hne : b' = b
      · rw [hne, hself]
        exact nodup_nil
      · rw [hother b' hne]
        exact h.nodup (some b')
  case disjoint =>
    intro o o' x hx y hy hkey
    obtain ⟨ho, hxs⟩ := hmem o x hx
    obtain ⟨ho', hys⟩ := hmem o' y hy
    rcases hxs with hxs | ⟨rfl, hxs⟩ <;> rcases hys with hys | ⟨rfl, hys⟩
    · exact h.disjoint o o' x hxs y hys hkey
    · exact absurd (h.disjoint _ _ x hxs y hys hkey) ho
    · exact absurd (h.disjoint _ _ x hxs y hys hkey).symm ho'
    · rfl
  case marked =>
    intro o x hx
    rw [State.Marked, hbuffers]
    rcases (hmem o x hx).2 with hx | ⟨-, hx⟩
    · exact h.marked o x hx
    · exact h.marked _ x hx
  case held =>
    intro i idx hbit
    obtain ⟨o, x, hx, hrest⟩ := h.held i idx (hbuffers ▸ hbit)
    obtain ⟨o', hx'⟩ := hback o x hx
    exact ⟨o', x, hx', hrest⟩
  case tags => exact hbuffers ▸ h.tags
  case count => exact hbuffers ▸ h.count

end

end Exclusive

/-! ### Inversion of the steps -/

inductive Move (s : State n m) : Event n m → State n m → Prop
  | pin {b i} (hlive : (s.backends b).live = true) (hcall : (s.backends b).call = .none) :
      Move s (.pin b i) (s.setCall b (.pinned i))
  | unpin {b} (hcall : (s.backends b).call.held = []) : Move s (.unpin b) (s.setCall b .none)
  | verify {b : Fin n} {i : Fin m} {tag : MapTag} (hcall : (s.backends b).call = .pinned i)
      (htag : (s.buffers i).tag = some tag) : Move s (.verify b tag) (s.setCall b (.reading i tag))
  | replace {b i tag} (hcall : (s.backends b).call = .pinned i) (href : s.refcount i = 1)
      (hdirty : (s.buffers i).dirty = false) (hcount : (s.buffers i).pendingCount = 0)
      (hnew : ∀ j, (s.buffers j).tag ≠ some tag) :
      Move s (.replace b tag) ((s.setBuffer i (.load tag (s.disk tag))).setCall b (.reading i tag))
  | flush {i : Fin m} {tag : MapTag} (htag : (s.buffers i).tag = some tag) :
      Move s (.flush i) { s.setBuffer i { s.buffers i with dirty := false } with
        disk := update s.disk tag (s.buffers i).pblknos }
  | claim {b k barrier i tag idx} (hcall : (s.backends b).call = .reading i tag)
      (ha : k.address = some (tag, idx)) (htag : (s.buffers i).tag = some tag)
      (hclear : (s.buffers i).pendingBits idx = false) :
      Move s (.tryClaim b k barrier)
        ((s.setBuffer i ((s.buffers i).setPending idx)).setCall b (.claimed i k barrier))
  | claimFailed {b k barrier i tag} (hcall : (s.backends b).call = .reading i tag) :
      Move s (.tryClaim b k barrier) (s.setCall b .none)
  | rememberLocal {b i k} (hcall : (s.backends b).call = .claimed i k false) :
      Move s (.remember b) (s.setBackend b { s.backends b with call := .none, locals := (s.backends
        b).locals ++ [⟨k, none, i⟩] })
  | rememberBarrier {b i k} (hcall : (s.backends b).call = .claimed i k true) :
      Move s (.remember b) (s.setBackend b { s.backends b with call := .none, barriers := ⟨k, i⟩ ::
        (s.backends b).barriers })
  | finish {b : Fin n} {k : BlockId} {pblkno : Nat} :
      Move s (.finish b k pblkno) (s.setBackend b { s.backends b with
        locals := (s.backends b).locals.map fun e =>
          if e.key = k then { e with pblkno := some pblkno } else e })
  | setMapping {b k i tag idx pblkno e} (hcall : (s.backends b).call = .reading i tag)
      (ha : k.address = some (tag, idx)) (he : e ∈ (s.backends b).locals) (hkey : e.key = k) :
      Move s (.setMapping b k)
        ((s.setBuffer i ((s.buffers i).setMapping idx pblkno)).setCall b .none)
  | release {b : Fin n} {k : BlockId} {e : LocalEntry m} (hcall : (s.backends b).call = .none)
      (he : e ∈ (s.backends b).locals) (hkey : e.key = k) :
      Move s (.release b k) (s.setBackend b { s.backends b with
        call := .releasing e.slotId k, locals := (s.backends b).locals.erase e })
  | releaseBarrier {b : Fin n} {k : BlockId} {h : Hold m} (hcall : (s.backends b).call = .none)
      (hh : h ∈ (s.backends b).barriers) (hkey : h.key = k) :
      Move s (.releaseBarrier b k) (s.setBackend b { s.backends b with
        call := .releasing h.slotId k, barriers := (s.backends b).barriers.erase h })
  | clear {b i k tag idx} (hcall : (s.backends b).call = .releasing i k)
      (ha : k.address = some (tag, idx)) :
      Move s (.clear b) ((s.setBuffer i ((s.buffers i).clearPending idx)).setCall b (.pinned i))
  | exit {b} (hlive : (s.backends b).live = true) (hcall : (s.backends b).call = .none)
      (hlocals : (s.backends b).locals = []) :
      Move s (.exit b) { s.setBackend b ⟨false, .none, [], []⟩ with orphans := (s.backends
        b).barriers ++ s.orphans }

lemma Backend.localFind_eq_some {e} (h : be.localFind k = some e) : e ∈ be.locals ∧ e.key = k :=
  ⟨mem_of_find?_eq_some h, by simpa using find?_some h⟩

theorem Move.of_step {s t} (h : (inflight n m).step s e = some t) : Move s e t := by
  cases e with
  | pin =>
    obtain ⟨⟨hlive, hcall⟩, rfl⟩ := guard_eq_some h
    exact .pin hlive hcall
  | unpin =>
    simp only [inflight] at h
    split at h
    · rename_i hcall
      cases h
      exact .unpin (by rw [hcall]; rfl)
    · rename_i hcall
      cases h
      exact .unpin (by rw [hcall]; rfl)
    · cases h
  | verify =>
    simp only [inflight] at h
    split at h
    · rename_i i hcall
      obtain ⟨htag, rfl⟩ := guard_eq_some h
      exact .verify hcall htag
    · cases h
  | replace =>
    simp only [inflight] at h
    split at h
    · rename_i i hcall
      obtain ⟨⟨href, hdirty, hcount, hnew⟩, rfl⟩ := guard_eq_some h
      exact .replace hcall href hdirty hcount hnew
    · cases h
  | flush =>
    simp only [inflight] at h
    split at h
    · rename_i tag htag
      obtain ⟨-, rfl⟩ := guard_eq_some h
      exact .flush htag
    · cases h
  | tryClaim =>
    simp only [inflight] at h
    split at h
    · rename_i i tag tag' idx hcall ha
      obtain ⟨⟨rfl, -⟩, rfl⟩ := guard_eq_some h
      rw [State.tryClaim]
      split_ifs with hc
      · exact .claim hcall ha hc.1 hc.2
      · exact .claimFailed hcall
    · cases h
  | remember =>
    simp only [inflight] at h
    split at h
    · rename_i hcall
      cases h
      exact .rememberLocal hcall
    · rename_i hcall
      cases h
      exact .rememberBarrier hcall
    · cases h
  | finish =>
    obtain ⟨-, rfl⟩ := guard_eq_some h
    exact .finish
  | setMapping =>
    simp only [inflight] at h
    split at h
    · rename_i i tag tag' idx pblkno hcall ha hp
      obtain ⟨rfl, heq⟩ := Option.ite_none_right_eq_some.mp h
      obtain ⟨e, he, -⟩ := Option.bind_eq_some_iff.mp hp
      obtain ⟨hmem, hkey⟩ := Backend.localFind_eq_some he
      cases heq
      exact .setMapping hcall ha hmem hkey
    · cases h
  | release =>
    obtain ⟨hcall, h⟩ := Option.ite_none_right_eq_some.mp h
    obtain ⟨e, he, rfl⟩ := Option.map_eq_some_iff.mp h
    obtain ⟨hmem, hkey⟩ := Backend.localFind_eq_some he
    exact .release hcall hmem hkey
  | releaseBarrier =>
    obtain ⟨hcall, h⟩ := Option.ite_none_right_eq_some.mp h
    obtain ⟨x, hx, rfl⟩ := Option.map_eq_some_iff.mp h
    exact .releaseBarrier hcall (mem_of_find?_eq_some hx) (by simpa using find?_some hx)
  | clear =>
    simp only [inflight] at h
    split at h
    · rename_i i k hcall
      obtain ⟨⟨tag, idx⟩, ha, rfl⟩ := Option.map_eq_some_iff.mp h
      exact .clear hcall ha
    · cases h
  | exit =>
    obtain ⟨⟨hlive, hcall, hlocals⟩, rfl⟩ := guard_eq_some h
    exact .exit hlive hcall hlocals

/-! ### Bits and claims along a run -/

theorem Exclusive.init (disk : MapTag → Nat → Option Nat) : Exclusive (State.init n m disk) := by
  have hheld : ∀ o, (State.init n m disk).held o = [] := by
    intro o
    cases o <;> rfl
  constructor
  case nodup => simp [hheld]
  case disjoint => simp [hheld]
  case marked => simp [hheld]
  case held =>
    intro i idx hb
    cases hb
  case tags =>
    intro i j tag hi
    cases hi
  case count =>
    intro i
    simp [State.init, pendingSet]

theorem Exclusive.step {s t} (h : Exclusive s) (hm : Move s e t) : Exclusive t := by
  cases hm with
  | pin hlive hcall | unpin hcall | verify hcall | claimFailed hcall =>
    exact h.setCall (by rw [hcall]; rfl)
  | @replace b i tag hcall href hdirty hcount hnew =>
    have h' : Exclusive (s.setBuffer i (.load tag (s.disk tag))) := h.replace hcount hnew
    refine h'.setCall ?_
    change _ = (s.backends b).call.held
    rw [hcall]
    rfl
  | @flush i =>
    have h' : Exclusive (s.setBuffer i { s.buffers i with dirty := false }) :=
      h.setBuffer rfl rfl rfl
    refine h'.congr (fun o => ?_) (fun j => rfl) (fun j => rfl) fun j => rfl
    cases o <;> exact List.Perm.refl _
  | @claim b k barrier i tag idx hcall ha htag hclear =>
    refine h.claim (w := some b) (x := ⟨k, i⟩) ha htag hclear (fun o => ?_) (fun j => ?_)
      (fun j idx' => ?_) fun j => ?_
    · rw [State.setCall, held_setBackend, held_setBuffer]
      split_ifs with ho
      · rw [ho]
        change List.Perm _ (_ :: (s.backends b).held)
        rw [Backend.held, Backend.held, hcall]
        exact List.Perm.refl _
      · exact List.Perm.refl _
    all_goals
      rw [buffers_setCall]
      by_cases hj : j = i
    · simp [hj, setPending]
    · rw [buffers_setBuffer_of_ne _ hj]
    · simp only [hj, buffers_setBuffer_self, setPending, update_apply, true_and]
      split_ifs with hidx <;> simp [hidx]
    · simp [buffers_setBuffer_of_ne _ hj, hj]
    · simp [hj, setPending]
    · simp [buffers_setBuffer_of_ne _ hj, hj]
  | @rememberLocal b i k hcall =>
    refine h.setBackend ?_
    simp only [Backend.held, hcall, Call.held, map_append, map_cons, map_nil, nil_append]
    exact (perm_append_comm).append_right _
  | @rememberBarrier b i k hcall =>
    refine h.setBackend ?_
    simp only [Backend.held, hcall, Call.held]
    exact perm_middle
  | finish =>
    refine h.setBackend (List.Perm.of_eq ?_)
    simp only [Backend.held, map_map]
    congr 2
    refine map_congr_left fun e _ => ?_
    simp only [Function.comp_apply]
    split_ifs <;> rfl
  | @setMapping b k i tag idx pblkno e hcall =>
    have h' : Exclusive (s.setBuffer i ((s.buffers i).setMapping idx pblkno)) :=
      h.setBuffer rfl rfl rfl
    refine h'.setCall ?_
    change _ = (s.backends b).call.held
    rw [hcall]
    rfl
  | @release b k e hcall he hkey =>
    refine h.setBackend ?_
    simp only [Backend.held, hcall, Call.held, ← hkey]
    have hperm := (perm_cons_erase he).map fun e : LocalEntry m => Hold.mk e.key e.slotId
    exact hperm.symm.append_right _
  | @releaseBarrier b k x hcall hx hkey =>
    refine h.setBackend ?_
    simp only [Backend.held, hcall, Call.held, ← hkey]
    exact perm_middle.symm.trans ((perm_cons_erase hx).symm.append_left _)
  | @clear b i k tag idx hcall ha =>
    have hx : ⟨k, i⟩ ∈ s.held (some b) := by
      rw [State.held, Backend.held, hcall]
      exact mem_cons_self
    have hbit : (s.buffers i).pendingBits idx = true := by
      obtain ⟨tag', idx', ha', -, hb⟩ := h.marked _ _ hx
      rw [ha] at ha'
      cases ha'
      exact hb
    refine h.clear (w := some b) (x := ⟨k, i⟩) ha hx (fun o => ?_) (fun j => ?_)
      (fun j idx' => ?_) fun j => ?_
    · rw [State.setCall, held_setBackend, held_setBuffer]
      split_ifs with ho
      · rw [ho]
        change List.Perm (s.backends b).held _
        rw [Backend.held, Backend.held, hcall]
        exact List.Perm.refl _
      · exact List.Perm.refl _
    all_goals
      rw [buffers_setCall]
      by_cases hj : j = i
    · simp [hj, clearPending, hbit]
    · rw [buffers_setBuffer_of_ne _ hj]
    · simp only [hj, buffers_setBuffer_self, clearPending, hbit, if_true, update_apply, true_and]
      split_ifs with hidx <;> simp [hidx]
    · simp [buffers_setBuffer_of_ne _ hj, hj]
    · simp [hj, clearPending, hbit]
    · simp [buffers_setBuffer_of_ne _ hj, hj]
  | @exit b hlive hcall hlocals =>
    refine h.exit (b := b) ?_ ?_ (fun b' hne => ?_) rfl
    · simp [State.held, Backend.held, Call.held, hcall, hlocals]
    · simp [State.held, State.setBackend, Backend.held, Call.held]
    · simp [State.held, State.setBackend, hne]

end Umbra.Inflight
