import Umbra.Map.PendingBits
import Mathlib.Algebra.Order.BigOperators.Group.Finset

/-!
# Exclusion by in-flight claims

A buffer with a set bit is never reused, and no mapping changes under a write barrier: a mapping is
published by the owner of a local entry, and bits and claims correspond one to one.
-/

namespace Umbra.Inflight

open Foundation List

variable {n m : Nat} {be : Backend m} {c : Call m} {buf : MapBufferDesc}

/-! ### Pages -/

/-- A page that has been read stays in its buffer while it is pinned, and a clean page is the page
on disk. -/
structure Coherent (s : State n m) : Prop where
  reading : ∀ b i tag, (s.backends b).call = .reading i tag → (s.buffers i).tag = some tag
  clean : ∀ i tag, (s.buffers i).tag = some tag → (s.buffers i).dirty = false →
    (s.buffers i).pblknos = s.disk tag

lemma Backend.one_le_pins {i} (h : be.call.pin = some i) : 1 ≤ be.pins i := by
  rw [Backend.pins, if_pos h]
  omega

lemma State.two_le_refcount {s : State n m} {b b' : Fin n} {i : Fin m} (hne : b ≠ b')
    (hb : (s.backends b).call.pin = some i) (hb' : (s.backends b').call.pin = some i) :
    2 ≤ s.refcount i := by
  calc 2 ≤ (s.backends b).pins i + (s.backends b').pins i :=
        add_le_add (Backend.one_le_pins hb) (Backend.one_le_pins hb')
    _ = ∑ c ∈ {b, b'}, (s.backends c).pins i := by rw [Finset.sum_pair hne]
    _ ≤ s.refcount i := Finset.sum_le_sum_of_subset (Finset.subset_univ _)

open State

namespace Coherent

variable {s t : State n m} {i : Fin m} {b : Fin n}

variable (h : Coherent s)
include h

lemma congr
    (hreading : ∀ b i tag, (t.backends b).call = .reading i tag → (s.backends b).call = .reading i
      tag) (htag : ∀ i, (t.buffers i).tag = (s.buffers i).tag)
    (hdirty : ∀ i, (t.buffers i).dirty = (s.buffers i).dirty)
    (hpblknos : ∀ i, (t.buffers i).pblknos = (s.buffers i).pblknos) (hdisk : t.disk = s.disk) :
    Coherent t where
  reading b i tag hcall := (htag i).trans (h.reading b i tag (hreading b i tag hcall))
  clean i tag hi hd := by
    rw [hpblknos, hdisk]
    exact h.clean i tag ((htag i).symm.trans hi) ((hdirty i).symm.trans hd)

lemma setBackend (hbe : ∀ i tag, be.call = .reading i tag → (s.buffers i).tag = some tag) :
    Coherent (s.setBackend b be) where
  reading b' i tag hcall := by
    by_cases hb : b' = b
    · subst hb
      rw [backends_setBackend_self] at hcall
      exact hbe i tag hcall
    · rw [backends_setBackend_of_ne _ hb] at hcall
      exact h.reading b' i tag hcall
  clean := h.clean

lemma setCall (hc : ∀ i tag, c = .reading i tag → (s.buffers i).tag = some tag) :
    Coherent (s.setCall b c) :=
  h.setBackend hc

lemma setBuffer (htag : buf.tag = (s.buffers i).tag) (hdirty : buf.dirty = (s.buffers i).dirty)
    (hpblknos : buf.pblknos = (s.buffers i).pblknos) : Coherent (s.setBuffer i buf) := by
  exact h.congr (fun b j tag hcall => hcall) (s.apply_setBuffer (·.tag) htag)
    (s.apply_setBuffer (·.dirty) hdirty) (s.apply_setBuffer (·.pblknos) hpblknos) rfl

lemma clean_setBuffer
    (hself : ∀ tag, buf.tag = some tag → buf.dirty = false → buf.pblknos = s.disk tag) (j tag) :
    ((s.setBuffer i buf).buffers j).tag = some tag →
      ((s.setBuffer i buf).buffers j).dirty = false →
        ((s.setBuffer i buf).buffers j).pblknos = s.disk tag :=
  s.forall_setBuffer (P := fun _ b => b.tag = some tag → b.dirty = false → b.pblknos = s.disk tag)
    (hself tag) (fun j _ => h.clean j tag) j

end Coherent

theorem Coherent.init (disk : MapTag → Nat → Option Nat) : Coherent (State.init n m disk) where
  reading := nofun
  clean := nofun

lemma MapBufferDesc.clearPending_spec (buf : MapBufferDesc) (idx : Nat) :
    (buf.clearPending idx).tag = buf.tag ∧ (buf.clearPending idx).dirty = buf.dirty ∧
      (buf.clearPending idx).pblknos = buf.pblknos := by
  unfold clearPending
  split_ifs <;> exact ⟨rfl, rfl, rfl⟩

theorem Coherent.step {s t : State n m} {e : Event n m} (h : Coherent s) (hx : Exclusive s)
    (hm : Move s e t) : Coherent t := by
  cases hm with
  | verify hcall htag =>
    refine h.setCall fun j tag heq => ?_
    cases heq
    exact htag
  | @replace b i tag hcall =>
    have hpin : (s.backends b).call.pin = some i := by
      rw [hcall]
      rfl
    refine ⟨fun b' j tag' hread => ?_, h.clean_setBuffer ?_⟩
    · by_cases hb : b' = b
      · subst hb
        rw [State.setCall, backends_setBackend_self] at hread
        cases hread
        rw [buffers_setCall, buffers_setBuffer_self]
        rfl
      · rw [State.setCall, backends_setBackend_of_ne _ hb] at hread
        -- a page that another backend reads is in another buffer
        have hj : j ≠ i := by
          rintro rfl
          have hpin' : (s.backends b').call.pin = some j := by
            rw [show (s.backends b').call = _ from hread]
            rfl
          have htwo := two_le_refcount hb hpin' hpin
          omega
        rw [buffers_setCall, buffers_setBuffer_of_ne _ hj]
        exact h.reading b' j tag' hread
    · rintro tag' ⟨⟩ -
      rfl
  | @flush i tag htag =>
    refine ⟨fun b j tag' hread => ?_, fun j tag' htag' hd => ?_⟩
    · exact (s.apply_setBuffer (·.tag) (by rfl) j).trans (h.reading b j tag' hread)
    · by_cases hji : j = i
      · subst hji
        change ((s.setBuffer j _).buffers j).pblknos = Function.update s.disk tag _ tag'
        rw [buffers_setBuffer_self] at htag' ⊢
        have heq : tag' = tag := Option.some.inj (htag'.symm.trans htag)
        rw [heq, Function.update_self]
      · change ((s.setBuffer i _).buffers j).pblknos = Function.update s.disk tag _ tag'
        rw [buffers_setBuffer_of_ne _ hji] at htag' hd ⊢
        have hne : tag' ≠ tag := by
          rintro rfl
          exact hji (hx.tags j i _ htag' htag)
        rw [Function.update_of_ne hne]
        exact h.clean j tag' htag' hd
  | @claim b k barrier i tag idx =>
    have h' : Coherent (s.setBuffer i ((s.buffers i).setPending idx)) := h.setBuffer rfl rfl rfl
    exact h'.setCall (by simp)
  | rememberLocal | rememberBarrier | release | releaseBarrier =>
    exact h.setBackend (by simp)
  | finish => exact h.setBackend (h.reading _)
  | setMapping =>
    refine Coherent.setCall ⟨fun b' j tag' hread => ?_, h.clean_setBuffer ?_⟩ (by simp)
    · exact (s.apply_setBuffer (·.tag) (by rfl) j).trans (h.reading b' j tag' hread)
    · rintro tag' - ⟨⟩
  | @clear b i k tag idx =>
    obtain ⟨htag, hdirty, hpblknos⟩ := (s.buffers i).clearPending_spec idx
    exact (h.setBuffer htag hdirty hpblknos).setCall (by simp)
  | @exit b =>
    have h' : Coherent (s.setBackend b ⟨false, .none, [], []⟩) :=
      h.setBackend (by simp)
    exact ⟨h'.reading, h'.clean⟩
  | _ => exact h.setCall (by simp)

/-! ### Mappings -/

section Mapping

variable {s t : State n m} {k : BlockId} {tag : MapTag} {idx : Nat}

variable {i : Fin m}

lemma Exclusive.mapping_of_tag (h : Exclusive s) (ha : k.address = some (tag, idx))
    (hi : (s.buffers i).tag = some tag) : s.mapping k = (s.buffers i).pblknos idx := by
  have hcached : s.cached tag = some i := by
    obtain ⟨j, hj⟩ : ∃ j, s.cached tag = some j := by
      rw [← Option.isSome_iff_exists, State.cached, find?_isSome]
      exact ⟨i, mem_finRange i, decide_eq_true hi⟩
    have hjtag : (s.buffers j).tag = some tag := by simpa using find?_some hj
    rw [hj, h.tags i j tag hi hjtag]
  simp [State.mapping, ha, hcached]

lemma State.mapping_of_uncached (ha : k.address = some (tag, idx))
    (h : ∀ i, (s.buffers i).tag ≠ some tag) : s.mapping k = s.disk tag idx := by
  have hcached : s.cached tag = none := by
    rw [State.cached, find?_eq_none]
    intro i _
    simpa using h i
  simp [State.mapping, ha, hcached]

lemma State.mapping_congr (htag : ∀ i, (t.buffers i).tag = (s.buffers i).tag)
    (hpblknos : ∀ i, (t.buffers i).pblknos = (s.buffers i).pblknos) (hdisk : t.disk = s.disk) :
    t.mapping k = s.mapping k := by
  simp only [State.mapping, State.cached, htag, hpblknos, hdisk]

lemma State.mapping_setBuffer (htag : buf.tag = (s.buffers i).tag)
    (hpblknos : buf.pblknos = (s.buffers i).pblknos) :
    (s.setBuffer i buf).mapping k = s.mapping k := by
  exact mapping_congr (s.apply_setBuffer (·.tag) htag)
    (s.apply_setBuffer (·.pblknos) hpblknos) rfl

variable (h : Exclusive s)
include h

/-- A buffer that has another page before and after does not matter for an entry. -/
lemma Exclusive.mapping_setBuffer (h' : Exclusive (s.setBuffer i buf))
    (ha : k.address = some (tag, idx)) (hold : (s.buffers i).tag ≠ some tag)
    (hnew : buf.tag ≠ some tag) : (s.setBuffer i buf).mapping k = s.mapping k := by
  by_cases hcached : ∃ j, (s.buffers j).tag = some tag
  · obtain ⟨j, hj⟩ := hcached
    have hji : j ≠ i := by
      rintro rfl
      exact hold hj
    rw [h.mapping_of_tag ha hj, h'.mapping_of_tag ha (i := j)
      (by rw [buffers_setBuffer_of_ne _ hji, hj]), buffers_setBuffer_of_ne _ hji]
  · push Not at hcached
    rw [mapping_of_uncached ha hcached]
    exact mapping_of_uncached ha (s.forall_setBuffer (P := fun _ b => b.tag ≠ some tag)
      hnew fun j _ => hcached j)

lemma Exclusive.mapping_replace (hc : Coherent s) (hdirty : (s.buffers i).dirty = false)
    (hcount : (s.buffers i).pendingCount = 0) (hnew : ∀ j, (s.buffers j).tag ≠ some tag) :
    (s.setBuffer i (.load tag (s.disk tag))).mapping k = s.mapping k := by
  have h' : Exclusive (s.setBuffer i (.load tag (s.disk tag))) := h.replace hcount hnew
  cases ha : k.address with
  | none => simp [State.mapping, ha]
  | some a =>
    obtain ⟨tag', idx⟩ := a
    by_cases htag : tag' = tag
    · subst htag
      rw [mapping_of_uncached ha hnew,
        h'.mapping_of_tag (i := i) ha (by rw [buffers_setBuffer_self]; rfl),
        buffers_setBuffer_self]
      rfl
    · have hload : (MapBufferDesc.load tag (s.disk tag)).tag ≠ some tag' :=
        fun heq => htag (Option.some.inj heq).symm
      by_cases hi : (s.buffers i).tag = some tag'
      · rw [h.mapping_of_tag ha hi, hc.clean i tag' hi hdirty]
        exact mapping_of_uncached ha (s.forall_setBuffer (P := fun _ b => b.tag ≠ some tag')
          hload fun j hne hj => hne (h.tags j i tag' hj hi))
      · exact h.mapping_setBuffer h' ha hi hload

lemma Exclusive.mapping_flush (htag : (s.buffers i).tag = some tag) :
    State.mapping { s with disk := Function.update s.disk tag (s.buffers i).pblknos } k
      = s.mapping k := by
  cases ha : k.address with
  | none => simp [State.mapping, ha]
  | some a =>
    obtain ⟨tag', idx⟩ := a
    have h' : Exclusive { s with disk := Function.update s.disk tag (s.buffers i).pblknos } := by
      refine h.congr (fun o => ?_) (fun _ => rfl) (fun _ => rfl) fun _ => rfl
      cases o <;> exact List.Perm.refl _
    by_cases hcached : ∃ j, (s.buffers j).tag = some tag'
    · obtain ⟨j, hj⟩ := hcached
      rw [h.mapping_of_tag ha hj, h'.mapping_of_tag ha (i := j) hj]
    · push Not at hcached
      have hne : tag' ≠ tag := by
        rintro rfl
        exact hcached i htag
      rw [mapping_of_uncached ha hcached]
      refine Eq.trans (mapping_of_uncached (s := { s with
        disk := Function.update s.disk tag (s.buffers i).pblknos }) ha hcached) ?_
      exact congrFun (Function.update_of_ne hne ..) idx

lemma Exclusive.mapping_setMapping {k₀ pblkno} (ha₀ : k₀.address = some (tag, idx))
    (hi : (s.buffers i).tag = some tag) (hk : k ≠ k₀) :
    (s.setBuffer i ((s.buffers i).setMapping idx pblkno)).mapping k = s.mapping k := by
  have h' : Exclusive (s.setBuffer i ((s.buffers i).setMapping idx pblkno)) :=
    h.setBuffer rfl rfl rfl
  cases ha : k.address with
  | none => simp [State.mapping, ha]
  | some a =>
    obtain ⟨tag', idx'⟩ := a
    by_cases hi' : (s.buffers i).tag = some tag'
    · rw [h.mapping_of_tag ha hi', h'.mapping_of_tag ha (i := i)
        (by rw [buffers_setBuffer_self]; exact hi'), buffers_setBuffer_self]
      have hne : idx' ≠ idx := by
        rintro rfl
        rw [hi] at hi'
        cases hi'
        exact hk (BlockId.address_injective ha ha₀)
      exact Function.update_of_ne hne ..
    · exact h.mapping_setBuffer h' ha hi' hi'

lemma Exclusive.mapping_step (hc : Coherent s) {e} (hm : Move s e t) :
    t.mapping k = s.mapping k ∨ ∃ b, s.HasLocal b k := by
  cases hm with
  | replace hcall href hdirty hcount hnew => exact .inl (h.mapping_replace hc hdirty hcount hnew)
  | @flush i tag htag =>
    refine .inl ?_
    have h' : Exclusive (s.setBuffer i { s.buffers i with dirty := false }) :=
      h.setBuffer rfl rfl rfl
    have hmap : (s.setBuffer i { s.buffers i with dirty := false }).mapping k = s.mapping k :=
      s.mapping_setBuffer rfl rfl
    have htag' : ((s.setBuffer i { s.buffers i with dirty := false }).buffers i).tag =
      some tag := by
      rw [buffers_setBuffer_self]
      exact htag
    rw [← hmap]
    refine Eq.trans ?_ (h'.mapping_flush htag')
    rw [buffers_setBuffer_self]
    rfl
  | @claim b k' barrier i tag idx =>
    have hmap : (s.setBuffer i ((s.buffers i).setPending idx)).mapping k = s.mapping k :=
      s.mapping_setBuffer rfl rfl
    exact .inl hmap
  | @setMapping b k₀ i tag idx pblkno e hcall ha he hkey =>
    by_cases hk : k = k₀
    · exact .inr ⟨b, e, he, hkey.trans hk.symm⟩
    · exact .inl (h.mapping_setMapping ha (hc.reading b i tag hcall) hk)
  | @clear b i k' tag idx =>
    obtain ⟨htag, -, hpblknos⟩ := (s.buffers i).clearPending_spec idx
    exact .inl (s.mapping_setBuffer htag hpblknos)
  | _ => exact .inl rfl

end Mapping

/-! ### The result -/

namespace State

variable {s : State n m} {b : Fin n} {k : BlockId}

lemma mem_held_of_hasLocal (h : s.HasLocal b k) : ∃ x ∈ s.held (some b), x.key = k := by
  obtain ⟨e, he, hk⟩ := h
  refine ⟨⟨e.key, e.slotId⟩, ?_, hk⟩
  exact mem_append_left _ (mem_append_right _ (mem_map_of_mem he))

lemma mem_held_of_hasBarrier (h : s.HasBarrier b k) : ∃ x ∈ s.held (some b), x.key = k := by
  obtain ⟨x, hx, hk⟩ := h
  exact ⟨x, mem_append_right _ hx, hk⟩

lemma mem_held_of_inCall (h : s.InCall b k) : ∃ x ∈ s.held (some b), x.key = k := by
  obtain ⟨i, hcall⟩ := h
  refine ⟨⟨k, i⟩, ?_, rfl⟩
  rcases hcall with hcall | ⟨barrier, hcall⟩
  all_goals
    rw [held, Backend.held, hcall]
    exact mem_cons_self

lemma held_some_iff :
    (∃ x ∈ s.held (some b), x.key = k) ↔ s.HasLocal b k ∨ s.HasBarrier b k ∨ s.InCall b k := by
  constructor
  · rintro ⟨x, hx, rfl⟩
    rcases mem_append.mp hx with hx | hx
    · rcases mem_append.mp hx with hx | hx
      · refine .inr (.inr ⟨x.slotId, ?_⟩)
        cases hcall : (s.backends b).call with
        | claimed i k barrier =>
          rw [hcall] at hx
          rw [mem_singleton.mp hx]
          exact .inr ⟨barrier, rfl⟩
        | releasing =>
          rw [hcall] at hx
          rw [mem_singleton.mp hx]
          exact .inl rfl
        | _ =>
          rw [hcall] at hx
          cases hx
      · obtain ⟨e, he, rfl⟩ := mem_map.mp hx
        exact .inl ⟨e, he, rfl⟩
    · exact .inr (.inl ⟨x, hx, rfl⟩)
  · rintro (h | h | h)
    · exact mem_held_of_hasLocal h
    · exact mem_held_of_hasBarrier h
    · exact mem_held_of_inCall h

end State

/-- A backend that has exited has nothing in hand. -/
def GoneIdle (s : State n m) : Prop :=
  ∀ b, (s.backends b).live = false → (s.backends b).held = [] ∧ (s.backends b).call = .none

namespace GoneIdle

variable {s t : State n m} {b : Fin n}

variable (h : GoneIdle s)
include h

lemma live_of_call (hcall : (s.backends b).call ≠ .none) : (s.backends b).live = true := by
  by_contra hne
  exact hcall (h b (Bool.eq_false_iff.mpr hne)).2

lemma live_of_mem {x} (hx : x ∈ (s.backends b).held) : (s.backends b).live = true := by
  by_contra hne
  rw [(h b (Bool.eq_false_iff.mpr hne)).1] at hx
  cases hx

lemma setBackend (hbe : be.live = true ∨ be.held = [] ∧ be.call = .none) :
    GoneIdle (s.setBackend b be) := by
  intro b' hlive
  by_cases hb : b' = b
  · subst hb
    rw [backends_setBackend_self] at hlive ⊢
    rcases hbe with hbe | hbe
    · rw [hbe] at hlive
      cases hlive
    · exact hbe
  · rw [backends_setBackend_of_ne _ hb] at hlive ⊢
    exact h b' hlive

lemma setCall (hlive : (s.backends b).live = true) : GoneIdle (s.setCall b c) :=
  h.setBackend (.inl hlive)

end GoneIdle

theorem GoneIdle.init (disk : MapTag → Nat → Option Nat) : GoneIdle (State.init n m disk) :=
  nofun

variable {s t : State n m} {e : Event n m}

theorem GoneIdle.step (h : GoneIdle s) (hm : Move s e t) : GoneIdle t := by
  have hcall : ∀ {b : Fin n} {c : Call m}, (s.backends b).call = c → c ≠ .none →
      (s.backends b).live = true :=
    fun hc hne => h.live_of_call (hc ▸ hne)
  cases hm with
  | pin hlive => exact h.setCall hlive
  | @unpin b =>
    refine h.setBackend ?_
    by_cases hlive : (s.backends b).live = true
    · exact .inl hlive
    · obtain ⟨hnil, hc⟩ := h b (Bool.eq_false_iff.mpr hlive)
      refine .inr ⟨?_, rfl⟩
      rw [Backend.held, hc] at hnil
      exact hnil
  | verify hc => exact h.setCall (hcall hc (by simp))
  | replace hc | claim hc | setMapping hc | clear hc =>
    exact GoneIdle.setCall h (hcall hc (by simp))
  | flush => exact h
  | claimFailed hc => exact h.setCall (hcall hc (by simp))
  | rememberLocal hc | rememberBarrier hc => exact h.setBackend (.inl (hcall hc (by simp)))
  | @finish b =>
    refine h.setBackend ?_
    by_cases hlive : (s.backends b).live = true
    · exact .inl hlive
    · obtain ⟨hnil, hc⟩ := h b (Bool.eq_false_iff.mpr hlive)
      refine .inr ⟨?_, hc⟩
      simp only [Backend.held, append_eq_nil_iff, map_eq_nil_iff] at hnil ⊢
      exact hnil
  | @release b k e hc he =>
    refine h.setBackend (.inl (h.live_of_mem (x := ⟨e.key, e.slotId⟩) ?_))
    exact mem_append_left _ (mem_append_right _ (mem_map_of_mem he))
  | releaseBarrier hc hh =>
    exact h.setBackend (.inl (h.live_of_mem (mem_append_right _ hh)))
  | @exit b =>
    have h' : GoneIdle (s.setBackend b ⟨false, .none, [], []⟩) := h.setBackend (.inr ⟨rfl, rfl⟩)
    exact h'

structure InflightInvariant (s : State n m) : Prop where
  exclusive : Exclusive s
  coherent : Coherent s
  goneIdle : GoneIdle s

theorem InflightInvariant.init (disk : MapTag → Nat → Option Nat) :
    InflightInvariant (State.init n m disk) :=
  ⟨.init disk, .init disk, .init disk⟩

theorem InflightInvariant.step (h : InflightInvariant s)
    (hs : (inflight n m).step s e = some t) : InflightInvariant t := by
  have hm := Move.of_step hs
  exact ⟨h.exclusive.step hm, h.coherent.step h.exclusive hm, h.goneIdle.step hm⟩

lemma Exclusive.tag_step (h : Exclusive s) (hm : Move s e t) {i idx}
    (hb : (s.buffers i).pendingBits idx = true) : (t.buffers i).tag = (s.buffers i).tag := by
  have hset : ∀ {j : Fin m} {buf : MapBufferDesc}, buf.tag = (s.buffers j).tag →
      ((s.setBuffer j buf).buffers i).tag = (s.buffers i).tag := by
    intro j buf hbuf
    by_cases hi : i = j
    · subst hi
      rw [buffers_setBuffer_self, hbuf]
    · rw [buffers_setBuffer_of_ne _ hi]
  cases hm with
  | @replace b j tag hcall href hdirty hcount =>
    have hi : i ≠ j := by
      rintro rfl
      obtain ⟨o, x, hx, hslot, -⟩ := h.held i idx hb
      exact h.slotId_ne hcount hx hslot
    rw [buffers_setCall, buffers_setBuffer_of_ne _ hi]
  | flush | claim | setMapping => exact hset rfl
  | clear => exact hset (MapBufferDesc.clearPending_spec _ _).1
  | _ => rfl

lemma Exclusive.not_hasLocal (h : Exclusive s) {b k} (hb : s.HasBarrier b k) (b') :
    ¬ s.HasLocal b' k := by
  intro hlocal
  obtain ⟨y, hy, hyk⟩ := mem_held_of_hasLocal hlocal
  obtain ⟨x, hx, hxk⟩ := hb
  have hbb' : some b' = some b :=
    h.disjoint _ _ y hy x (mem_append_right _ hx) (hyk.trans hxk.symm)
  cases hbb'
  obtain ⟨e, he, hek⟩ := hlocal
  have hnd := h.nodup (some b)
  change ((((s.backends b).call.held ++ (s.backends b).locals.map fun e => Hold.mk e.key e.slotId)
    ++ (s.backends b).barriers).map Hold.key).Nodup at hnd
  rw [map_append, nodup_append] at hnd
  refine hnd.2.2 k ?_ k (mem_map.mpr ⟨x, hx, hxk⟩) rfl
  refine mem_map.mpr ⟨⟨e.key, e.slotId⟩, ?_, hek⟩
  exact mem_append_right _ (mem_map_of_mem he)

/-- A block has at most one owner; a set bit has a live owner unless a backend has left a write
barrier behind; a buffer with a set bit keeps its page; and no step changes the mapping of a block
under a write barrier. -/
theorem claims_exclusive {disk : MapTag → Nat → Option Nat} {s : State n m}
    (hs : (inflight n m).Reachable (State.init n m disk) s) :
    (∀ k b b', s.HasLocal b k ∨ s.HasBarrier b k ∨ s.InCall b k →
      s.HasLocal b' k ∨ s.HasBarrier b' k ∨ s.InCall b' k → b = b') ∧
    (∀ i, (s.buffers i).pendingCount = (s.buffers i).pendingSet.card) ∧
    (s.orphans = [] → ∀ k, s.BitIsSet k ↔ ∃ b, (s.backends b).live = true ∧
      (s.HasLocal b k ∨ s.HasBarrier b k ∨ s.InCall b k)) ∧
    (∀ e t, (inflight n m).step s e = some t → ∀ i idx, (s.buffers i).pendingBits idx = true →
      (t.buffers i).tag = (s.buffers i).tag) ∧
    ∀ e t, (inflight n m).step s e = some t → ∀ b k, s.HasBarrier b k →
      t.mapping k = s.mapping k := by
  have hinv : InflightInvariant s :=
    hs.invariant (.init disk) fun h _ hstep => h.step hstep
  obtain ⟨hx, hc, hg⟩ := hinv
  refine ⟨fun k b b' hb hb' => ?_, hx.count, fun horphans k => ⟨?_, ?_⟩, fun e t hstep i idx hb =>
    hx.tag_step (Move.of_step hstep) hb, fun e t hstep b k hb => ?_⟩
  · obtain ⟨x, hxb, hk⟩ := held_some_iff.mpr hb
    obtain ⟨x', hxb', hk'⟩ := held_some_iff.mpr hb'
    exact Option.some.inj (hx.disjoint _ _ x hxb x' hxb' (hk.trans hk'.symm))
  · rintro ⟨i, tag, idx, ha, htag, hbit⟩
    obtain ⟨o, x, hxo, rfl, tag', ha'⟩ := hx.held i idx hbit
    obtain ⟨tag'', idx', ha'', htag', -⟩ := hx.marked o x hxo
    have hkey : x.key = k := by
      have heq : tag'' = tag' ∧ idx' = idx := by
        rw [ha'] at ha''
        cases ha''
        exact ⟨rfl, rfl⟩
      have htags : tag' = tag := by
        rw [heq.1, htag] at htag'
        exact (Option.some.inj htag').symm
      exact BlockId.address_injective (htags ▸ ha') ha
    cases o with
    | none =>
      change x ∈ s.orphans at hxo
      rw [horphans] at hxo
      cases hxo
    | some b => exact ⟨b, hg.live_of_mem hxo, held_some_iff.mp ⟨x, hxo, hkey⟩⟩
  · rintro ⟨b, -, hb⟩
    obtain ⟨x, hxb, rfl⟩ := held_some_iff.mpr hb
    obtain ⟨tag, idx, ha, htag, hbit⟩ := hx.marked _ x hxb
    exact ⟨x.slotId, tag, idx, ha, htag, hbit⟩
  · rcases hx.mapping_step hc (Move.of_step hstep) with heq | ⟨b', hlocal⟩
    · exact heq
    · exact absurd hlocal (hx.not_hasLocal hb b')

def claimBesideBarrier (b c : Fin n) (i : Fin m) : List (Event n m) :=
  [.pin b i, .replace b ⟨7, .main, 3⟩, .tryClaim b ⟨7, .main, 0⟩ false, .remember b,
    .finish b ⟨7, .main, 0⟩ 5, .pin c i, .verify c ⟨7, .main, 3⟩, .tryClaim c ⟨7, .main, 1⟩ true,
    .remember c]

theorem claims_exclusive_beside_barrier :
    ∃ s : State 2 1, (inflight 2 1).Reachable (State.init 2 1 fun _ _ => none) s ∧
      (s.buffers 0).pendingCount = 2 ∧ (s.buffers 0).pendingSet.card = 2 ∧
      (∀ b, s.HasBarrier b ⟨7, .main, 1⟩ → b = 1) ∧
      ∀ e t, (inflight 2 1).step s e = some t → (t.buffers 0).tag = some ⟨7, .main, 3⟩ ∧
        t.mapping ⟨7, .main, 1⟩ = s.mapping ⟨7, .main, 1⟩ := by
  have hs : (inflight 2 1).Reachable (State.init 2 1 fun _ _ => none)
      ((inflight 2 1).after (State.init 2 1 fun _ _ => none) (claimBesideBarrier 0 1 0)) :=
    .of_isSome (by decide)
  have hbarrier : ((inflight 2 1).after (State.init 2 1 fun _ _ => none)
      (claimBesideBarrier 0 1 0)).HasBarrier 1 ⟨7, .main, 1⟩ := ⟨⟨⟨7, .main, 1⟩, 0⟩, by decide, rfl⟩
  obtain ⟨howner, hcount, -, htag, hmap⟩ := claims_exclusive hs
  refine ⟨_, hs, by decide, (hcount 0).symm.trans (by decide), fun b hb => ?_, fun e t hstep => ?_⟩
  · exact howner _ b 1 (.inr (.inl hb)) (.inr (.inl hbarrier))
  · exact ⟨(htag e t hstep 0 0 (by decide)).trans (by decide), hmap e t hstep 1 _ hbarrier⟩

/-- A write barrier sets the bit of its block, and no backend has a local entry for it. -/
theorem barrier_without_local_entry :
    ∃ s : State 1 1, (inflight 1 1).Reachable (State.init 1 1 fun _ _ => none) s ∧
      s.BitIsSet ⟨7, .main, 0⟩ ∧ ¬ ∃ b, (s.backends b).live = true ∧
        s.HasLocal b ⟨7, .main, 0⟩ := by
  refine ⟨(inflight 1 1).after (State.init 1 1 fun _ _ => none) [.pin 0 0,
    .replace 0 ⟨7, .main, 3⟩, .tryClaim 0 ⟨7, .main, 0⟩ true, .remember 0], .of_isSome (by decide),
    ⟨0, ⟨7, .main, 3⟩, 0, by decide, by decide, by decide⟩, ?_⟩
  have hlocals : ∀ b, (((inflight 1 1).after (State.init 1 1 fun _ _ => none) [.pin 0 0,
      .replace 0 ⟨7, .main, 3⟩, .tryClaim 0 ⟨7, .main, 0⟩ true, .remember 0]).backends b).locals
        = [] := by decide
  rintro ⟨b, -, e, he, -⟩
  rw [hlocals] at he
  cases he

end Umbra.Inflight
