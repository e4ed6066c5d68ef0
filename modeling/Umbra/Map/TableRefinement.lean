import Mathlib.Combinatorics.Pigeonhole
import Umbra.Map.SuperTable

/-!
# The superblock table refines a finite set

After every sequence of calls each relation ensured and not deleted since has one entry and one
index slot. A relation is refused when the buckets of its partition are used up, however many
entries are free.
-/

namespace Umbra.SuperTable

open Foundation Function Finset

variable {c : Config} {t : Table} {r : RelFileLocator}

/-! ### Lookups -/

lemma isEntryOf_iff {i} :
    isEntryOf t r i = true ↔ (t.entries i).inUse = true ∧ (t.entries i).rnode = r := by
  simp [isEntryOf]

lemma lookupSlot_found {i b} (h : lookupSlot c t r = .found i b) :
    t.index (c.partition r) b = .used i ∧ (t.entries i).inUse = true ∧ (t.entries i).rnode = r := by
  obtain ⟨hs, hi⟩ := probe_found h
  exact ⟨hs, isEntryOf_iff.mp hi⟩

/-- The relations `live` own their entries, and the other entries are on the list `free`. -/
structure Owned (c : Config) (t : Table) (live : Finset RelFileLocator) (free : List ℕ) : Prop where
  threads : Threads (fun i => (t.entries i).nextFree) t.freeHead free
  nodup : free.Nodup
  mem_free : ∀ i, i ∈ free ↔ i < c.capacity ∧ (t.entries i).inUse = false
  lt_capacity : ∀ i, (t.entries i).inUse = true → i < c.capacity
  mem_live : ∀ r, r ∈ live ↔ ∃ i, (t.entries i).inUse = true ∧ (t.entries i).rnode = r
  entry_unique : ∀ i j, (t.entries i).inUse = true → (t.entries j).inUse = true →
    (t.entries i).rnode = (t.entries j).rnode → i = j

/-- The index leads to the entries in use, each from one slot. -/
structure Indexed (c : Config) (t : Table) : Prop where
  exists_slot : ∀ i, (t.entries i).inUse = true →
    ∃ b, t.index (c.partition (t.entries i).rnode) b = .used i
  slot_unique : ∀ p b b' i, t.index p b = .used i → t.index p b' = .used i → b = b'
  of_used : ∀ p b i, t.index p b = .used i →
    (t.entries i).inUse = true ∧ c.partition (t.entries i).rnode = p
  placed : ∀ p, Placed (nextBucket c.indexCapacity) c.indexCapacity (t.index p)
    fun i => c.startBucket (t.entries i).rnode

structure Holds (c : Config) (t : Table) (live : Finset RelFileLocator) (free : List ℕ) : Prop
    extends Owned c t live free, Indexed c t

namespace Holds

variable {live : Finset RelFileLocator} {free : List ℕ}

lemma init (c) : Holds c (init c) ∅ (List.range c.capacity) where
  threads := by
    have h := @Threads.range (fun i => ((SuperTable.init c).entries i).nextFree) 0 c.capacity
      (Nat.zero_le _) ?_
    · rw [if_neg c.capacity_pos.ne, Nat.sub_zero, ← List.range_eq_range'] at h
      exact h
    · intro i _ hi
      have heq : i = c.capacity - 1 ↔ i + 1 = c.capacity := by omega
      simp only [SuperTable.init, heq]
  nodup := List.nodup_range
  mem_free i := by simp [SuperTable.init]
  lt_capacity i h := nomatch h
  mem_live r := by simp [SuperTable.init]
  entry_unique i j h := nomatch h
  exists_slot i h := nomatch h
  slot_unique p b b' i h := nomatch h
  of_used p b i h := nomatch h
  placed p b i h := nomatch h

section
variable (h : Holds c t live free)
include h

lemma slot_lt {p b i} (hs : t.index p b = .used i) : b < c.indexCapacity := by
  obtain ⟨j, _, rfl, _⟩ := h.placed p b i hs
  exact c.iterate_lt (c.startBucket_lt _) j

lemma exists_lookupSlot_found (hr : r ∈ live) : ∃ i b, lookupSlot c t r = .found i b := by
  obtain ⟨i, hi, rfl⟩ := (h.mem_live r).mp hr
  obtain ⟨b, hs⟩ := h.exists_slot i hi
  exact (h.placed _).exists_probe_found hs (isEntryOf_iff.mpr ⟨hi, rfl⟩)

lemma not_mem_of_absent {x} (hl : lookupSlot c t r = .absent x) : r ∉ live := by
  intro hr
  obtain ⟨i, b, hf⟩ := h.exists_lookupSlot_found hr
  cases hl.symm.trans hf

lemma mem_of_found {i b} (hl : lookupSlot c t r = .found i b) : r ∈ live :=
  (h.mem_live r).mpr ⟨i, (lookupSlot_found hl).2⟩

lemma findEntry_isSome_iff (r) : (findEntry c t r).isSome = true ↔ r ∈ live := by
  unfold findEntry
  split
  · rename_i i b hl
    exact iff_of_true rfl (h.mem_of_found hl)
  · rename_i x hl
    exact iff_of_false nofun (h.not_mem_of_absent hl)

end

lemma findEntry_spec {i} (h : findEntry c t r = some i) :
    (t.entries i).inUse = true ∧ (t.entries i).rnode = r := by
  unfold findEntry at h
  split at h
  · rename_i i' b hl
    cases h
    exact (lookupSlot_found hl).2
  · cases h

end Holds

/-! ### Steps -/

lemma update_slot (index : ℕ → ℕ → Slot ℕ) (p b : ℕ) (s : Slot ℕ) (q b' : ℕ) :
    update index p (update (index p) b s) q b' = if q = p ∧ b' = b then s else index q b' := by
  by_cases hq : q = p
  · rw [hq, update_self, update_apply]
    simp
  · rw [update_of_ne hq, if_neg fun hqb => hq hqb.1]

section Update

variable (t) (p b i : ℕ) {q : ℕ}

lemma occupy_index_self : (t.occupy p b i r).index p = update (t.index p) b (.used i) :=
  update_self ..

lemma occupy_index_of_ne (hq : q ≠ p) : (t.occupy p b i r).index q = t.index q :=
  update_of_ne hq ..

lemma vacate_index_self : (t.vacate p b i).index p = update (t.index p) b .deleted :=
  update_self ..

lemma vacate_index_of_ne (hq : q ≠ p) : (t.vacate p b i).index q = t.index q :=
  update_of_ne hq ..

lemma occupy_index (q b') :
    (t.occupy p b i r).index q b' = if q = p ∧ b' = b then .used i else t.index q b' :=
  update_slot ..

lemma vacate_index (q b') :
    (t.vacate p b i).index q b' = if q = p ∧ b' = b then .deleted else t.index q b' :=
  update_slot ..

variable {i} {k : ℕ}

@[simp] lemma occupy_entries_self :
    (t.occupy p b i r).entries i = { inUse := true, rnode := r, nextFree := .off } :=
  update_self ..

lemma occupy_entries_of_ne (hk : k ≠ i) : (t.occupy p b i r).entries k = t.entries k :=
  update_of_ne hk ..

@[simp] lemma vacate_entries_self :
    (t.vacate p b i).entries i = { t.entries i with inUse := false, nextFree := t.freeHead } :=
  update_self ..

lemma vacate_entries_of_ne (hk : k ≠ i) : (t.vacate p b i).entries k = t.entries k :=
  update_of_ne hk ..

variable {t p b}

lemma ne_of_vacate (hk : ((t.vacate p b i).entries k).inUse = true) : k ≠ i := by
  rintro rfl
  simp at hk

end Update

section Steps

variable {live : Finset RelFileLocator} {free : List ℕ} {p b i : ℕ}

lemma Owned.occupy (h : Owned c t live (i :: free)) (hr : r ∉ live) :
    Owned c (t.occupy p b i r) (insert r live) free := by
  obtain ⟨hlt, hi⟩ := (h.mem_free i).mp List.mem_cons_self
  obtain ⟨hmem, hnodup⟩ := List.nodup_cons.mp h.nodup
  have hother : ∀ k, (t.entries k).inUse = true → (t.entries k).rnode ≠ r := by
    rintro k hk rfl
    exact hr ((h.mem_live _).mpr ⟨k, hk, rfl⟩)
  refine ⟨h.threads.2.congr fun k hk => ?_, hnodup, fun k => ?_, fun k hk => ?_, fun q => ?_,
    fun k l hk hl heq => ?_⟩
  · have hki : k ≠ i := fun hki => hmem (hki ▸ hk)
    rw [occupy_entries_of_ne _ _ _ hki]
  · by_cases hki : k = i
    · subst hki
      simp [hmem]
    · rw [occupy_entries_of_ne _ _ _ hki, ← h.mem_free, List.mem_cons, or_iff_right hki]
  · by_cases hki : k = i
    · rwa [hki]
    · rw [occupy_entries_of_ne _ _ _ hki] at hk
      exact h.lt_capacity k hk
  · rw [mem_insert, h.mem_live]
    constructor
    · rintro (rfl | ⟨k, hk, hq⟩)
      · exact ⟨i, by simp⟩
      · have hki : k ≠ i := by
          rintro rfl
          cases hi.symm.trans hk
        exact ⟨k, by rw [occupy_entries_of_ne _ _ _ hki]; exact ⟨hk, hq⟩⟩
    · rintro ⟨k, hk, hq⟩
      by_cases hki : k = i
      · subst hki
        rw [occupy_entries_self] at hq
        exact .inl hq.symm
      · rw [occupy_entries_of_ne _ _ _ hki] at hk hq
        exact .inr ⟨k, hk, hq⟩
  · by_cases hki : k = i <;> by_cases hli : l = i
    · rw [hki, hli]
    · subst hki
      rw [occupy_entries_of_ne _ _ _ hli] at hl heq
      rw [occupy_entries_self] at heq
      exact absurd heq.symm (hother l hl)
    · subst hli
      rw [occupy_entries_of_ne _ _ _ hki] at hk heq
      rw [occupy_entries_self] at heq
      exact absurd heq (hother k hk)
    · rw [occupy_entries_of_ne _ _ _ hki] at hk heq
      rw [occupy_entries_of_ne _ _ _ hli] at hl heq
      exact h.entry_unique k l hk hl heq

lemma Owned.vacate (h : Owned c t live free) (hi : (t.entries i).inUse = true) :
    Owned c (t.vacate p b i) (live.erase (t.entries i).rnode) (i :: free) := by
  have hmem : i ∉ free := by
    intro hmem
    cases hi.symm.trans ((h.mem_free i).mp hmem).2
  refine ⟨⟨rfl, ?_⟩, List.nodup_cons.mpr ⟨hmem, h.nodup⟩, fun k => ?_, fun k hk => ?_,
    fun q => ?_, fun k l hk hl heq => ?_⟩
  · simp only [vacate_entries_self]
    refine h.threads.congr fun k hk => ?_
    have hki : k ≠ i := fun hki => hmem (hki ▸ hk)
    rw [vacate_entries_of_ne _ _ _ hki]
  · by_cases hki : k = i
    · subst hki
      simp [h.lt_capacity k hi]
    · rw [vacate_entries_of_ne _ _ _ hki, ← h.mem_free, List.mem_cons, or_iff_right hki]
  · rw [vacate_entries_of_ne _ _ _ (ne_of_vacate hk)] at hk
    exact h.lt_capacity k hk
  · rw [mem_erase, h.mem_live]
    constructor
    · rintro ⟨hq, k, hk, rfl⟩
      have hki : k ≠ i := fun hki => hq (by rw [hki])
      exact ⟨k, by rw [vacate_entries_of_ne _ _ _ hki]; exact ⟨hk, rfl⟩⟩
    · rintro ⟨k, hk, hq⟩
      have hki := ne_of_vacate hk
      rw [vacate_entries_of_ne _ _ _ hki] at hk hq
      refine ⟨fun hqi => hki ?_, k, hk, hq⟩
      exact h.entry_unique k i hk hi (hq.trans hqi)
  · have hki := ne_of_vacate hk
    have hli := ne_of_vacate hl
    rw [vacate_entries_of_ne _ _ _ hki] at hk heq
    rw [vacate_entries_of_ne _ _ _ hli] at hl heq
    exact h.entry_unique k l hk hl heq

lemma Indexed.occupy (h : Indexed c t) (hi : (t.entries i).inUse = false)
    (hl : lookupSlot c t r = .absent (some b)) : Indexed c (t.occupy (c.partition r) b i r) := by
  obtain ⟨j, hj, hb, hunused, hway⟩ := (probe_absent_some hl).resolve_left nofun
  have hne : ∀ q b' k, t.index q b' = .used k → k ≠ i := by
    rintro q b' k hs rfl
    cases hi.symm.trans (h.of_used q b' k hs).1
  refine ⟨fun k hk => ?_, fun q b₁ b₂ k h₁ h₂ => ?_, fun q b' k hs => ?_, fun q => ?_⟩
  · by_cases hki : k = i
    · subst hki
      refine ⟨b, ?_⟩
      rw [occupy_index, occupy_entries_self, if_pos ⟨rfl, rfl⟩]
    · rw [occupy_entries_of_ne _ _ _ hki] at hk ⊢
      obtain ⟨b', hs⟩ := h.exists_slot k hk
      refine ⟨b', ?_⟩
      rw [occupy_index, if_neg, hs]
      rintro ⟨hp, rfl⟩
      rw [← hp, hs] at hunused
      cases hunused
  · rw [occupy_index] at h₁ h₂
    split at h₁ <;> split at h₂
    · rename_i hb₁ hb₂
      rw [hb₁.2, hb₂.2]
    · cases h₁
      exact absurd rfl (hne q b₂ _ h₂)
    · cases h₂
      exact absurd rfl (hne q b₁ _ h₁)
    · exact h.slot_unique q b₁ b₂ k h₁ h₂
  · rw [occupy_index] at hs
    split at hs
    · rename_i hqb
      cases hs
      rw [occupy_entries_self]
      exact ⟨rfl, hqb.1.symm⟩
    · rw [occupy_entries_of_ne _ _ _ (hne q b' k hs)]
      exact h.of_used q b' k hs
  · have hold : ∀ b' k, t.index q b' = .used k →
        ((t.occupy (c.partition r) b i r).entries k).rnode = (t.entries k).rnode := by
      intro b' k hs
      rw [occupy_entries_of_ne _ _ _ (hne q b' k hs)]
    have hplaced := (h.placed q).congr fun b' k hs => congrArg c.startBucket (hold b' k hs)
    by_cases hq : q = c.partition r
    · subst hq
      rw [occupy_index_self]
      refine hplaced.update nofun ?_
      rintro k ⟨⟩
      rw [occupy_entries_self]
      exact ⟨j, hj, hb, hway⟩
    · rw [occupy_index_of_ne _ _ _ _ hq]
      exact hplaced

lemma Indexed.vacate (h : Indexed c t) (hs : t.index p b = .used i) :
    Indexed c (t.vacate p b i) := by
  have hold : ∀ {q b' k}, ¬ (q = p ∧ b' = b) → t.index q b' = .used k → k ≠ i := by
    rintro q b' k hqb hk rfl
    have hq : q = p := (h.of_used q b' k hk).2.symm.trans (h.of_used p b k hs).2
    subst hq
    exact hqb ⟨rfl, h.slot_unique q b' b k hk hs⟩
  refine ⟨fun k hk => ?_, fun q b₁ b₂ k h₁ h₂ => ?_, fun q b' k hk => ?_, fun q => ?_⟩
  · have hki := ne_of_vacate hk
    rw [vacate_entries_of_ne _ _ _ hki] at hk ⊢
    obtain ⟨b', hb'⟩ := h.exists_slot k hk
    refine ⟨b', ?_⟩
    rw [vacate_index, if_neg, hb']
    rintro ⟨hp, rfl⟩
    rw [hp, hs] at hb'
    cases hb'
    exact hki rfl
  · rw [vacate_index] at h₁ h₂
    split at h₁ <;> split at h₂
    · cases h₁
    · cases h₁
    · cases h₂
    · exact h.slot_unique q b₁ b₂ k h₁ h₂
  · rw [vacate_index] at hk
    split at hk
    · cases hk
    · rename_i hqb
      rw [vacate_entries_of_ne _ _ _ (hold hqb hk)]
      exact h.of_used q b' k hk
  · have hrnode : ∀ k, ((t.vacate p b i).entries k).rnode = (t.entries k).rnode := by
      intro k
      by_cases hki : k = i
      · rw [hki, vacate_entries_self]
      · rw [vacate_entries_of_ne _ _ _ hki]
    have hplaced := (h.placed q).congr fun b' k _ => congrArg c.startBucket (hrnode k)
    by_cases hq : q = p
    · subst hq
      rw [vacate_index_self]
      exact hplaced.update nofun nofun
    · rw [vacate_index_of_ne _ _ _ _ hq]
      exact hplaced

lemma Owned.eq_cons (h : Owned c t live free) (hhead : t.freeHead = .node i) :
    ∃ free', free = i :: free' := by
  have hthreads := h.threads
  cases free with
  | nil => cases hhead.symm.trans hthreads
  | cons j free' =>
    cases hhead.symm.trans hthreads.1
    exact ⟨free', rfl⟩

lemma Holds.perform (h : Holds c t live free) (call) :
    ∃ free', Holds c (perform c t call).2 (answered live (call, (perform c t call).1)) free' := by
  cases call with
  | ensure r =>
    cases hl : lookupSlot c t r with
    | found =>
      have hins : insert r live = live := insert_eq_self.mpr (h.mem_of_found hl)
      simp only [SuperTable.perform, ensureEntry, hl, answered, hins]
      exact ⟨free, h⟩
    | absent x =>
      cases x with
      | none =>
        simp only [SuperTable.perform, ensureEntry, hl, answered]
        exact ⟨free, h⟩
      | some =>
        cases hhead : t.freeHead with
        | node i =>
          obtain ⟨free', rfl⟩ := h.eq_cons hhead
          have hi := ((h.mem_free i).mp List.mem_cons_self).2
          simp only [SuperTable.perform, ensureEntry, hl, hhead, answered]
          exact ⟨free', h.toOwned.occupy (h.not_mem_of_absent hl), h.toIndexed.occupy hi hl⟩
        | last | off =>
          simp only [SuperTable.perform, ensureEntry, hl, hhead, answered]
          exact ⟨free, h⟩
  | find r =>
    simp only [SuperTable.perform]
    cases findEntry c t r <;> exact ⟨free, h⟩
  | delete r =>
    cases hl : lookupSlot c t r with
    | found i =>
      obtain ⟨hs, hi, rfl⟩ := lookupSlot_found hl
      simp only [SuperTable.perform, deleteEntry, hl, answered]
      exact ⟨i :: free, h.toOwned.vacate hi, h.toIndexed.vacate hs⟩
    | absent =>
      have herase : live.erase r = live := erase_eq_of_notMem (h.not_mem_of_absent hl)
      simp only [SuperTable.perform, deleteEntry, hl, answered, herase]
      exact ⟨free, h⟩

lemma Holds.performAll (h : Holds c t live free) (calls) :
    ∃ free', Holds c (performAll c t calls).2 (liveAfter live (performAll c t calls).1) free' := by
  induction calls generalizing t live free with
  | nil => exact ⟨free, h⟩
  | cons call calls ih =>
    obtain ⟨free', h'⟩ := h.perform call
    exact ih h'

end Steps

/-! ### Counting -/

namespace Holds

variable {live : Finset RelFileLocator} {free : List ℕ}

section
variable (h : Holds c t live free)
include h

lemma card_live :
    live.card = ((range c.capacity).filter fun i => (t.entries i).inUse = true).card := by
  symm
  refine card_bij (fun i _ => (t.entries i).rnode) (fun i hi => ?_) (fun i hi j hj => ?_)
    fun r hr => ?_
  · exact (h.mem_live _).mpr ⟨i, (mem_filter.mp hi).2, rfl⟩
  · exact h.entry_unique i j (mem_filter.mp hi).2 (mem_filter.mp hj).2
  · obtain ⟨i, hi, rfl⟩ := (h.mem_live r).mp hr
    have hlt := mem_range.mpr (h.lt_capacity i hi)
    exact ⟨i, mem_filter.mpr ⟨hlt, hi⟩, rfl⟩

lemma card_live_le : live.card ≤ c.capacity := by
  rw [h.card_live]
  exact (card_filter_le _ _).trans (le_of_eq (card_range _))

lemma card_live_eq_iff : live.card = c.capacity ↔ free = [] := by
  rw [h.card_live, List.eq_nil_iff_forall_not_mem]
  constructor
  · intro hcard i hi
    obtain ⟨hlt, hunused⟩ := (h.mem_free i).mp hi
    have hall : (range c.capacity).filter (fun i => (t.entries i).inUse = true) =
        range c.capacity :=
      eq_of_subset_of_card_le (filter_subset _ _) (le_of_eq ((card_range _).trans hcard.symm))
    have hi' := mem_range.mpr hlt
    rw [← hall] at hi'
    cases hunused.symm.trans (mem_filter.mp hi').2
  · intro hfree
    rw [filter_true_of_mem, card_range]
    intro i hi
    by_contra hunused
    exact hfree i ((h.mem_free i).mpr ⟨mem_range.mp hi, Bool.eq_false_of_not_eq_true hunused⟩)

lemma card_partition (p) : (live.filter fun r => c.partition r = p).card =
      ((range c.indexCapacity).filter fun b => (t.index p b).isUsed = true).card := by
  have hkey : ∀ r ∈ live.filter (fun r => c.partition r = p),
      ∃ b i, t.index p b = .used i ∧ (t.entries i).rnode = r := by
    intro r hr
    obtain ⟨hlive, rfl⟩ := mem_filter.mp hr
    obtain ⟨i, hi, rfl⟩ := (h.mem_live r).mp hlive
    obtain ⟨b, hb⟩ := h.exists_slot i hi
    exact ⟨b, i, hb, rfl⟩
  choose! bucket entry hslot hrnode using hkey
  refine card_bij (fun r _ => bucket r) (fun r hr => ?_) (fun r hr r' hr' heq => ?_) fun b hb => ?_
  · refine mem_filter.mpr ⟨mem_range.mpr (h.slot_lt (hslot r hr)), ?_⟩
    exact Slot.isUsed_iff.mpr ⟨_, hslot r hr⟩
  · have hentry := hslot r hr
    rw [heq, hslot r' hr'] at hentry
    rw [← hrnode r hr, ← hrnode r' hr', Slot.used.inj hentry]
  · obtain ⟨i, hi⟩ := Slot.isUsed_iff.mp (mem_filter.mp hb).2
    obtain ⟨huse, hp⟩ := h.of_used p b i hi
    have hmem : (t.entries i).rnode ∈ live.filter fun r => c.partition r = p :=
      mem_filter.mpr ⟨(h.mem_live _).mpr ⟨i, huse, rfl⟩, hp⟩
    refine ⟨_, hmem, ?_⟩
    have hi' := hslot _ hmem
    have heq := h.entry_unique _ _ (h.of_used p _ _ hi').1 huse (hrnode _ hmem)
    rw [heq] at hi'
    exact h.slot_unique p _ _ i hi' hi

lemma card_partition_le (p) : (live.filter fun r => c.partition r = p).card ≤ c.indexCapacity := by
  rw [h.card_partition]
  exact (card_filter_le _ _).trans (le_of_eq (card_range _))

lemma card_partition_lt {b} (hl : lookupSlot c t r = .absent (some b)) :
    (live.filter fun q => c.partition q = c.partition r).card < c.indexCapacity := by
  obtain ⟨j, _, hb, hunused, _⟩ := (probe_absent_some hl).resolve_left nofun
  have hmem : b ∈ range c.indexCapacity := by
    rw [hb]
    exact mem_range.mpr (c.iterate_lt (c.startBucket_lt r) j)
  rw [h.card_partition]
  refine (card_lt_card (filter_ssubset.mpr ⟨b, hmem, ?_⟩)).trans_eq (card_range _)
  rw [hunused]
  exact nofun

lemma card_partition_eq (hl : lookupSlot c t r = .absent none) :
    (live.filter fun q => c.partition q = c.partition r).card = c.indexCapacity := by
  rw [h.card_partition, filter_true_of_mem, card_range]
  intro b hb
  obtain ⟨j, hj, rfl⟩ := c.exists_iterate_eq (c.startBucket_lt r) (mem_range.mp hb)
  exact (probe_absent_none hl).2 j hj

lemma ensureEntry_error_iff : (∃ e, ensureEntry c t r = .error e) ↔
      r ∉ live ∧ ((live.filter fun q => c.partition q = c.partition r).card = c.indexCapacity ∨
        live.card = c.capacity) := by
  cases hl : lookupSlot c t r with
  | found => simp [ensureEntry, hl, h.mem_of_found hl]
  | absent x =>
    have hr := h.not_mem_of_absent hl
    cases x with
    | none => simp [ensureEntry, hl, hr, h.card_partition_eq hl]
    | some =>
      have hlt := h.card_partition_lt hl
      rw [h.card_live_eq_iff]
      cases hhead : t.freeHead with
      | node =>
        obtain ⟨free', rfl⟩ := h.eq_cons hhead
        simp [ensureEntry, hl, hhead, hlt.ne]
      | last =>
        have hnil : free = [] := h.threads.unique (show Threads _ _ [] from hhead)
        simp [ensureEntry, hl, hhead, hr, hnil]
      | off =>
        have hthreads := h.threads
        rw [hhead] at hthreads
        cases free with
        | nil => cases hthreads
        | cons => cases hthreads.1

end

end Holds

/-! ### The refinement -/

/-- The table is the set `live`: lookup finds its members, each in one entry and one slot. -/
structure Refines (c : Config) (t : Table) (live : Finset RelFileLocator) : Prop where
  findEntry_isSome_iff : ∀ r, (findEntry c t r).isSome = true ↔ r ∈ live
  findEntry_entry : ∀ r i, findEntry c t r = some i →
    (t.entries i).inUse = true ∧ (t.entries i).rnode = r
  one_entry : ∀ r ∈ live, ∃! i, i < c.capacity ∧ (t.entries i).inUse = true ∧
    (t.entries i).rnode = r
  one_slot : ∀ r ∈ live, ∃! s : ℕ × ℕ, ∃ i, t.index s.1 s.2 = .used i ∧ (t.entries i).rnode = r
  used_live : ∀ p b i, t.index p b = .used i →
    b < c.indexCapacity ∧ (t.entries i).inUse = true ∧ (t.entries i).rnode ∈ live
  /-- The entries on the free list are the ones that are not in use, each there once. -/
  free_disjoint : ∃ free, Threads (fun i => (t.entries i).nextFree) t.freeHead free ∧
    free.Nodup ∧ ∀ i, i ∈ free ↔ i < c.capacity ∧ (t.entries i).inUse = false

lemma Holds.refines {live free} (h : Holds c t live free) : Refines c t live where
  findEntry_isSome_iff := h.findEntry_isSome_iff
  findEntry_entry _ _ := Holds.findEntry_spec
  one_entry r hr := by
    obtain ⟨i, hi, rfl⟩ := (h.mem_live r).mp hr
    refine ⟨i, ⟨h.lt_capacity i hi, hi, rfl⟩, ?_⟩
    rintro j ⟨_, hj, heq⟩
    exact h.entry_unique j i hj hi heq
  one_slot r hr := by
    obtain ⟨i, hi, rfl⟩ := (h.mem_live r).mp hr
    obtain ⟨b, hb⟩ := h.exists_slot i hi
    refine ⟨(_, b), ⟨i, hb, rfl⟩, ?_⟩
    rintro ⟨p, b'⟩ ⟨j, hj, heq⟩
    obtain ⟨huse, rfl⟩ := h.of_used p b' j hj
    cases h.entry_unique j i huse hi heq
    exact congrArg (Prod.mk _) (h.slot_unique _ b' b i hj hb)
  used_live p b i hs := by
    obtain ⟨hi, _⟩ := h.of_used p b i hs
    exact ⟨h.slot_lt hs, hi, (h.mem_live _).mpr ⟨i, hi, rfl⟩⟩
  free_disjoint := ⟨free, h.threads, h.nodup, h.mem_free⟩

/-- After any calls the table is a picture of the relations ensured and not deleted since. A further
one is refused exactly if all entries are in use, or all buckets of its partition. -/
theorem table_refines (c : Config) (calls : List Call) : let log := (performAll c (init c) calls).1
    let t := (performAll c (init c) calls).2
    let live := liveAfter ∅ log
    Refines c t live ∧ (∀ t r, (lookedAt c t r).Nodup ∧ (lookedAt c t r).length ≤ c.indexCapacity) ∧
      live.card ≤ c.capacity ∧
      ∀ r, (∃ e, ensureEntry c t r = .error e) ↔
        r ∉ live ∧ ((live.filter fun q => c.partition q = c.partition r).card = c.indexCapacity ∨
          live.card = c.capacity) := by
  intro log t live
  obtain ⟨free, h⟩ := (Holds.init c).performAll calls
  exact ⟨h.refines, fun t r => ⟨lookedAt_nodup c t r, length_lookedAt_le c t r⟩, h.card_live_le,
    fun r => h.ensureEntry_error_iff⟩

/-! ### Uneven partitions -/

lemma indexCapacityForPartition_min : indexCapacityForPartition mapSuperblockMinEntries = 1024 := by
  simp [indexCapacityForPartition, mapSuperblockMinEntries, mapSuperNPartitions, growIndex]

lemma exists_refused {live free} (h : Holds c t live free) (p : ℕ) (rs : List RelFileLocator)
    (hroom : live.card + rs.length < c.capacity)
    (hmany : c.indexCapacity < ((live ∪ rs.toFinset).filter fun q => c.partition q = p).card) :
    ∃ calls r, (∃ e, ensureEntry c (performAll c t calls).2 r = .error e) ∧
      (liveAfter live (performAll c t calls).1).card < c.capacity := by
  induction rs generalizing t live free with
  | nil =>
    rw [List.toFinset_nil, union_empty] at hmany
    exact absurd (h.card_partition_le _) (not_le.mpr hmany)
  | cons q rs ih =>
    cases hq : ensureEntry c t q with
    | error e =>
      refine ⟨[], q, ⟨e, hq⟩, ?_⟩
      exact lt_of_le_of_lt (Nat.le_add_right _ _) hroom
    | ok x =>
      obtain ⟨i, t'⟩ := x
      have hperform : perform c t (.ensure q) = (.entry i, t') := by simp only [perform, hq]
      obtain ⟨free', h'⟩ := h.perform (.ensure q)
      rw [hperform] at h'
      change Holds c t' (insert q live) free' at h'
      have hcard := card_insert_le q live
      rw [List.length_cons] at hroom
      rw [List.toFinset_cons, union_insert, ← insert_union] at hmany
      obtain ⟨calls, r, hrefused⟩ := ih h' (by omega) hmany
      refine ⟨.ensure q :: calls, r, ?_⟩
      simp only [performAll, hperform]
      exact hrefused

def relationOf (n : ℕ) : RelFileLocator := ⟨1663, 5, UInt32.ofNat n⟩

lemma relationOf_injOn : Set.InjOn relationOf (range (128 * 1024 + 1)) := by
  intro m hm n hn heq
  simp only [coe_range, Set.mem_Iio] at hm hn
  have hmod := congrArg (fun r => r.relNumber.toNat) heq
  simp only [relationOf, UInt32.toNat_ofNat'] at hmod
  omega

lemma exists_refused_min (hashCode : RelFileLocator → UInt32) :
    let c : Config := ⟨hashCode, mapSuperblockMinEntries⟩
    ∃ calls r, (∃ e, ensureEntry c (performAll c (init c) calls).2 r = .error e) ∧
      (liveAfter ∅ (performAll c (init c) calls).1).card < c.capacity := by
  intro c
  have hcap : c.indexCapacity = 1024 := indexCapacityForPartition_min
  have hmaps : ∀ n ∈ range (128 * 1024 + 1), c.partition (relationOf n) ∈ range 128 :=
    fun n _ => mem_range.mpr (lt_of_le_of_lt Nat.and_le_right (by decide))
  obtain ⟨p, _, hp⟩ := exists_lt_card_fiber_of_mul_lt_card_of_maps_to hmaps
    (n := 1024) (by rw [card_range, card_range]; decide)
  obtain ⟨ns, hns, hcard⟩ := exists_subset_card_eq hp
  have hinj : Set.InjOn relationOf ns :=
    relationOf_injOn.mono fun n hn => (mem_filter.mp (hns hn)).1
  have hrs : (ns.image relationOf).card = 1025 := (card_image_of_injOn hinj).trans hcard
  refine exists_refused (Holds.init c) p (ns.image relationOf).toList ?_ ?_
  · rw [card_empty, length_toList, hrs]
    exact (by decide : 0 + 1025 < max mapSuperblockMinEntries mapSuperblockMinEntries)
  · rw [empty_union, toList_toFinset, filter_true_of_mem, hrs, hcap]
    · decide
    · intro r hr
      obtain ⟨n, hn, rfl⟩ := mem_image.mp hr
      exact (mem_filter.mp (hns hn)).2

theorem partition_full_before_table :
    let c : Config := ⟨RelFileLocator.relNumber, mapSuperblockMinEntries⟩
    ∃ calls r, (∃ e, ensureEntry c (performAll c (init c) calls).2 r = .error e) ∧
      (liveAfter ∅ (performAll c (init c) calls).1).card < c.capacity :=
  exists_refused_min _

end Umbra.SuperTable
