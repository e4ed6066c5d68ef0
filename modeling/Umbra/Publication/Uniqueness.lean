import Umbra.Publication.Provenance

/-!
# Physical blocks are handed out once

A crash resets the reservation frontier to the committed frontier on disk and replay raises it
again; what must not be handed out again is named by a durable record or a MAP page on disk. It
remains that a MAP page on disk names no block whose record was lost, and that nothing is allocated
before replay has caught up.
-/

namespace Umbra

open Foundation Function List

variable {n : Nat} {k : BlockKey} {r : Record} {e : Event n}

/-! ### The reservation frontier -/

structure FrontierLe (m m' : MapMeta) : Prop where
  reserved : ∀ fork, m.entry.reservedNextFree fork ≤ m'.entry.reservedNextFree fork
  within : ∀ fork, m.entry.super.nextFree fork ≤ m.entry.reservedNextFree fork →
    m'.entry.super.nextFree fork ≤ m'.entry.reservedNextFree fork

namespace FrontierLe

variable {m m' m'' : MapMeta} {fork : ForkNumber} {v lsn : Nat}

lemma refl (m) : FrontierLe m m := ⟨fun _ => le_rfl, fun _ => id⟩

lemma trans (h : FrontierLe m m') (h' : FrontierLe m' m'') : FrontierLe m m'' :=
  ⟨fun f => (h.reserved f).trans (h'.reserved f), fun f hf => h'.within f (h.within f hf)⟩

lemma of_entry (h : m'.entry = m.entry) : FrontierLe m m' := by
  refine ⟨fun f => ?_, fun f hf => ?_⟩
  · rw [h]
  · rwa [h]

lemma setEntry (m k pblk lsn) :
    FrontierLe m (m.setEntry k pblk lsn) := of_entry rfl

lemma bumpLogical (m) : FrontierLe m (m.bumpLogical fork v lsn) := by
  refine ⟨fun f => ?_, fun f hf => ?_⟩
  · simp [MapMeta.bumpLogical]
  · simpa [MapMeta.bumpLogical] using hf

lemma setLogical (m) : FrontierLe m (m.setLogical fork v lsn) := by
  refine ⟨fun f => ?_, fun f hf => ?_⟩
  · simp [MapMeta.setLogical]
  · simpa [MapMeta.setLogical] using hf

lemma bumpCapacity (m) : FrontierLe m (m.bumpCapacity fork v lsn) := by
  refine ⟨fun f => ?_, fun f hf => ?_⟩
  · simp [MapMeta.bumpCapacity]
  · simpa [MapMeta.bumpCapacity] using hf

lemma bumpNextFree (m) {r} : FrontierLe m (m.bumpNextFree fork v lsn r) :=
  ⟨fun f => m.entry.reservedNextFree_le_bumpNextFree fork f v lsn r,
    fun f hf => m.entry.nextFree_le_reserved_bumpNextFree fork f v lsn r hf⟩

lemma of_evolves {trunc} (h : Evolves trunc m m') : FrontierLe m m' := by
  induction h with
  | refl => exact refl _
  | setEntry _ k pblk lsn ih => exact ih.trans (setEntry ..)
  | bumpLogical _ fork v lsn ih => exact ih.trans (bumpLogical _)
  | bumpNextFree _ fork v lsn r ih => exact ih.trans (bumpNextFree _)
  | bumpCapacity _ fork v lsn ih => exact ih.trans (bumpCapacity _)
  | setLogical _ _ fork v lsn ih => exact ih.trans (setLogical _)

end FrontierLe

/-! ### The invariant -/

def State.handedOutOn (s : State n) (fork : ForkNumber) : List Nat :=
  (s.handedOut.filter fun h => h.1.1 = fork).map Prod.snd

/-- Nothing refers to a block that was not handed out, and none is handed out twice. -/
structure Unique (fork : ForkNumber) (s : State n) : Prop where
  nodup : (s.handedOutOn fork).Nodup
  claims : ∀ k c, s.claims k = some c → (k, c.pblk) ∈ s.handedOut
  wal : ∀ r ∈ s.wal, ∀ k pblk, r.newPblk k = some pblk → (k, pblk) ∈ s.handedOut
  map : ∀ k pblk, s.mapMeta.map k = some pblk → (k, pblk) ∈ s.handedOut
  disk : ∀ k pblk, s.diskMap k = some pblk → (k, pblk) ∈ s.handedOut
  below : ∀ k pblk, (k, pblk) ∈ s.handedOut → k.1 = fork →
    pblk < s.mapMeta.entry.reservedNextFree fork ∨ ∃ pos, s.recovery = some pos ∧
        ∃ i ≥ pos, ∃ r, s.wal[i]? = some r ∧ pblk < r.bump .nextFree fork
  within : s.mapMeta.entry.super.nextFree fork ≤ s.mapMeta.entry.reservedNextFree fork

namespace Unique

variable {fork : ForkNumber} {s t : State n}

lemma mem_handedOutOn {p} (h : p ∈ s.handedOutOn fork) :
    ∃ k, k.1 = fork ∧ (k, p) ∈ s.handedOut := by
  obtain ⟨⟨k, q⟩, hmem, rfl⟩ := mem_map.mp h
  obtain ⟨hmem, hk⟩ := mem_filter.mp hmem
  exact ⟨k, of_decide_eq_true hk, hmem⟩

variable (h : Unique fork s)
include h

lemma lt_reserved (hrec : s.recovery = none) {pblk} (hmem : (k, pblk) ∈ s.handedOut)
    (hk : k.1 = fork) : pblk < s.mapMeta.entry.reservedNextFree fork := by
  rcases h.below k pblk hmem hk with hlt | ⟨pos, hpos, -⟩
  · exact hlt
  · rw [hrec] at hpos
    cases hpos

lemma congr (hout : t.handedOut = s.handedOut)
    (hclaims : ∀ k c, t.claims k = some c → s.claims k = some c) (hwal : t.wal = s.wal)
    (hmap : ∀ k pblk, t.mapMeta.map k = some pblk → (k, pblk) ∈ s.handedOut)
    (hdisk : ∀ k pblk, t.diskMap k = some pblk → (k, pblk) ∈ s.handedOut)
    (hrec : t.recovery = s.recovery) (hle : FrontierLe s.mapMeta t.mapMeta) : Unique fork t where
  nodup := by
    rw [State.handedOutOn, hout]
    exact h.nodup
  claims k c hc := by
    rw [hout]
    exact h.claims k c (hclaims k c hc)
  wal := by
    rw [hout, hwal]
    exact h.wal
  map k pblk hk := by
    rw [hout]
    exact hmap k pblk hk
  disk k pblk hk := by
    rw [hout]
    exact hdisk k pblk hk
  below k pblk hmem hk := by
    rw [hout] at hmem
    rw [hrec, hwal]
    exact (h.below k pblk hmem hk).imp (fun hlt => hlt.trans_le (hle.reserved fork)) id
  within := hle.within fork h.within

lemma append (hout : t.handedOut = s.handedOut) (hclaims : t.claims = s.claims)
    (hwal : t.wal = s.wal ++ [r]) (hr : ∀ k pblk, r.newPblk k = some pblk → (k, pblk) ∈ s.handedOut)
    (hmeta : t.mapMeta = s.mapMeta) (hdisk : t.diskMap = s.diskMap) (hrec : s.recovery = none) :
    Unique fork t where
  nodup := by
    rw [State.handedOutOn, hout]
    exact h.nodup
  claims := by
    rw [hout, hclaims]
    exact h.claims
  wal r' hr' := by
    rw [hwal] at hr'
    rw [hout]
    rcases mem_append.mp hr' with hr' | hr'
    · exact h.wal r' hr'
    · rw [mem_singleton.mp hr']
      exact hr
  map := by
    rw [hout, hmeta]
    exact h.map
  disk := by
    rw [hout, hdisk]
    exact h.disk
  below k pblk hmem hk := by
    rw [hout] at hmem
    rw [hmeta]
    exact .inl (h.lt_reserved hrec hmem hk)
  within := by
    rw [hmeta]
    exact h.within

lemma reserveAt (hrec : s.recovery = none) (b k) : Unique fork (s.reserveAt b k) where
  nodup := by
    by_cases hk : k.1 = fork
    · have hcons : (s.reserveAt b k).handedOutOn fork
          = s.mapMeta.entry.reservedNextFree k.1 :: s.handedOutOn fork := by
        simp [State.handedOutOn, State.reserveAt, hk]
      rw [hcons, nodup_cons]
      refine ⟨fun hmem => ?_, h.nodup⟩
      obtain ⟨k', hk', hmem'⟩ := mem_handedOutOn hmem
      have hlt := h.lt_reserved hrec hmem' hk'
      rw [hk] at hlt
      omega
    · have hsame : (s.reserveAt b k).handedOutOn fork = s.handedOutOn fork := by
        simp [State.handedOutOn, State.reserveAt, hk]
      rw [hsame]
      exact h.nodup
  claims k' c hc := by
    by_cases hk : k' = k
    · subst hk
      rw [State.claims_reserveAt_self] at hc
      cases hc
      exact mem_cons_self
    · rw [State.claims_reserveAt_of_ne hk] at hc
      exact mem_cons_of_mem _ (h.claims k' c hc)
  wal r hr k' pblk hk := mem_cons_of_mem _ (h.wal r hr k' pblk hk)
  map k' pblk hk := mem_cons_of_mem _ (h.map k' pblk hk)
  disk k' pblk hk := mem_cons_of_mem _ (h.disk k' pblk hk)
  below k' pblk hmem hk' := by
    refine .inl ?_
    rcases mem_cons.mp hmem with heq | hmem
    · cases heq
      change _ < update s.mapMeta.entry.reservedNextFree k.1 _ fork
      rw [← hk', update_self]
      exact Nat.lt_succ_self _
    · exact (h.lt_reserved hrec hmem hk').trans_le (s.reserved_le_reserveAt b k fork)
  within := h.within.trans (s.reserved_le_reserveAt b k fork)

end Unique

theorem Unique.init (n : Nat) (fork : ForkNumber) : Unique fork (State.init n) where
  nodup := nodup_nil
  claims := nofun
  wal := nofun
  map := nofun
  disk := nofun
  below := nofun
  within := le_rfl

namespace Unique

variable {fork : ForkNumber} {s t : State n}

variable (h : Unique fork s)
include h

lemma flushSuper : Unique fork s.flushSuper := by
  refine h.congr (State.handedOut_flushSuper s) ?_ (State.wal_flushSuper s) ?_ ?_
    (State.recovery_flushSuper s) (.of_entry (by rw [State.mapMeta_flushSuper]))
  · simp
  · rw [State.mapMeta_flushSuper]
    exact h.map
  · rw [State.diskMap_flushSuper]
    exact h.disk

lemma crash (hd : Disciplined s) (hcov : Covered .nextFree fork s)
    (hsrc : Sourced (fun g => g = fork) s) : Unique fork s.crash := by
  have hkeep : ∀ k pblk, (k, pblk) ∈ s.handedOut → (s.diskMap k = some pblk ∨
      ∃ r ∈ s.wal.take s.flushPtr, r.newPblk k = some pblk) → (k, pblk) ∈ s.crash.handedOut := by
    intro k pblk hmem hname
    refine mem_filter.mpr ⟨hmem, decide_eq_true ?_⟩
    rcases hname with hname | ⟨r, hr, hk⟩
    · exact .inl hname
    · exact .inr (any_eq_true.mpr ⟨r, hr, decide_eq_true hk⟩)
  refine ⟨?_, nofun, ?_, ?_, ?_, ?_, le_rfl⟩
  · have hsub : (s.crash.handedOutOn fork).Sublist (s.handedOutOn fork) :=
      (filter_sublist.filter _).map _
    exact h.nodup.sublist hsub
  · intro r hr k pblk hk
    exact hkeep k pblk (h.wal r (mem_of_mem_take hr) k pblk hk) (.inr ⟨r, hr, hk⟩)
  · exact fun k pblk hk => hkeep k pblk (h.disk k pblk hk) (.inl hk)
  · exact fun k pblk hk => hkeep k pblk (h.disk k pblk hk) (.inl hk)
  · intro k pblk hmem hk
    obtain ⟨-, hname⟩ := mem_filter.mp hmem
    -- in either case a durable record names the block
    have hrec : ExistsBefore (fun r => r.newPblk k = some pblk) s.wal s.flushPtr := by
      rcases of_decide_eq_true hname with hdisk | hany
      · exact hsrc.disk k pblk (decide_eq_true hk) hdisk
      · obtain ⟨r, hr, hp⟩ := any_eq_true.mp hany
        exact .of_mem_take hr (of_decide_eq_true hp)
    obtain ⟨i, hi, r, hr, hp⟩ := hrec
    have hlt := (hd.wellFormed r (mem_of_getElem? hr)).lt_bump_nextFree hp
    rw [hk] at hlt
    rcases lt_or_ge i s.redoPtr with hredo | hredo
    · exact .inl (hlt.trans_le (hcov.durable i hredo r hr))
    · refine .inr ⟨s.redoPtr, rfl, i, hredo, r, ?_, hlt⟩
      change (s.wal.take s.flushPtr)[i]? = some r
      rw [getElem?_take, if_pos hi, hr]

lemma redo {pos lsn materialized m} (hrec : s.recovery = some pos) (hr : s.wal[pos]? = some r)
    (hm : redoRecord s.mapMeta lsn materialized r = some m) :
    Unique fork { s with mapMeta := m, recovery := some (pos + 1) } where
  __ := h
  map k pblk hk := by
    rcases Sourced.map_redoRecord hm hk with hk | hk
    · exact h.wal r (mem_of_getElem? hr) k pblk hk
    · exact h.map k pblk hk
  below k pblk hmem hk := by
    have hle := FrontierLe.of_evolves (redoRecord_evolves hm)
    rcases h.below k pblk hmem hk with hlt | ⟨pos', hpos', i, hi, r', hr', hlt⟩
    · exact .inl (hlt.trans_le (hle.reserved fork))
    · rw [hrec] at hpos'
      cases hpos'
      rcases eq_or_lt_of_le hi with rfl | hi
      · rw [hr] at hr'
        cases hr'
        have hcount : r.bump .nextFree fork ≤ m.entry.super.count .nextFree fork := by
          rw [redoRecord_count hm (.inl rfl)]
          exact le_max_right _ _
        exact .inl (hlt.trans_le (hcount.trans (hle.within fork h.within)))
      · exact .inr ⟨pos + 1, rfl, i, hi, r', hr', hlt⟩
  within := (FrontierLe.of_evolves (redoRecord_evolves hm)).within fork h.within

lemma localBirth {pos} (hk : k.1 ≠ fork) (ht : s.localBirth pos k = some t) : Unique fork t := by
  obtain ⟨⟨p, entry⟩, hres, rfl⟩ := Option.map_eq_some_iff.mp ht
  have hentry : FrontierLe s.mapMeta { s.mapMeta with entry := entry } := by
    unfold MapSuperEntry.reserveFresh at hres
    split_ifs at hres
    cases hres
    have hge : s.mapMeta.entry.reservedNextFree ≤ update s.mapMeta.entry.reservedNextFree k.1
        (s.mapMeta.entry.reservedNextFree k.1 + 1) := le_update_self_iff.mpr (Nat.le_succ _)
    exact ⟨hge, fun f hf => hf.trans (hge f)⟩
  have hle :
      FrontierLe s.mapMeta ({ s.mapMeta with entry := entry }.publishLocally k p pos) :=
    hentry.trans ((FrontierLe.setEntry ..).trans ((FrontierLe.bumpNextFree _).trans
      ((FrontierLe.bumpCapacity _).trans (.bumpLogical _))))
  refine ⟨?_, ?_, ?_, ?_, ?_, ?_, hle.within fork h.within⟩
  · have hsame : ((k, p) :: s.handedOut).filter (fun h => h.1.1 = fork)
        = s.handedOut.filter fun h => h.1.1 = fork := by
      simp [hk]
    change ((((k, p) :: s.handedOut).filter fun h => h.1.1 = fork).map Prod.snd).Nodup
    rw [hsame]
    exact h.nodup
  · exact fun k' c hc => mem_cons_of_mem _ (h.claims k' c hc)
  · exact fun r hr k' q hq => mem_cons_of_mem _ (h.wal r hr k' q hq)
  · intro k' q hq
    rw [MapMeta.map_publishLocally, update_apply] at hq
    split_ifs at hq with hk'
    · cases hq
      exact hk' ▸ mem_cons_self
    · exact mem_cons_of_mem _ (h.map k' q hq)
  · exact fun k' q hq => mem_cons_of_mem _ (h.disk k' q hq)
  · intro k' q hmem hk'
    rcases mem_cons.mp hmem with heq | hmem
    · cases heq
      exact absurd hk' hk
    · exact (h.below k' q hmem hk').imp (fun hlt => hlt.trans_le (hle.reserved fork)) id

end Unique

theorem Unique.step {fork s t} (h : Unique fork s) (hd : Disciplined s) (hpos : Positioned s)
    (hcov : Covered .nextFree fork s) (hsrc : Sourced (fun g => g = fork) s)
    (hok : pageLsnOk (fun g => g = fork) s e = true) (hm : Move s e t) : Unique fork t := by
  have hother : ∀ k pblk, Record.other.newPblk k = some pblk → (k, pblk) ∈ s.handedOut :=
    nofun
  have hsame : FrontierLe s.mapMeta s.mapMeta := .refl _
  cases hm with
  | reserve hrec => exact h.reserveAt hrec _ _
  | abort | release =>
    exact h.congr rfl (fun _ _ => claims_of_update_none) rfl h.map h.disk rfl hsame
  | insert hprog =>
    refine h.append rfl rfl rfl (fun k pblk hk => ?_) rfl rfl (hd.recovery_eq_none hprog)
    obtain ⟨c, hc, -, rfl⟩ := (hd.prog_cons hprog).owned.1 k pblk hk
    exact h.claims k c hc
  | @update b i rest m hprog hu =>
    refine h.congr rfl (fun _ _ => id) rfl (fun k pblk hk => ?_) h.disk rfl (.of_evolves hu.evolves)
    have hown := (hd.prog_cons hprog).owned.1
    cases hu with
    | setMapping =>
      obtain ⟨c, hc, -, hp⟩ := hown
      change update s.mapMeta.map _ _ k = some pblk at hk
      rw [update_apply] at hk
      split_ifs at hk with heq
      · cases hk
        rw [heq, ← hp]
        exact h.claims _ c hc
      · exact h.map k pblk hk
    | clearEntry =>
      change update s.mapMeta.map _ _ k = some pblk at hk
      rw [update_apply] at hk
      split_ifs at hk
      exact h.map k pblk hk
    | _ => exact h.map k pblk hk
  | @birthFresh b k extend rest hprog =>
    have h' := h.reserveAt (hd.recovery_eq_none hprog) b k
    exact h'.congr rfl (fun _ _ => id) rfl h'.map h'.disk rfl (.refl _)
  | insertOther hrec | ckptRedo _ hrec => exact h.append rfl rfl rfl hother rfl rfl hrec
  | preallocate => exact h.congr rfl (fun _ _ => id) rfl h.map h.disk rfl (.bumpCapacity _)
  | @flushPage page =>
    refine h.congr (by simp) (by simp) (by simp) h.map (fun k pblk hk => ?_) (by simp)
      (.of_entry rfl)
    change (if mapPageOf k = page then s.mapMeta.map k else s.diskMap k) = some pblk at hk
    split_ifs at hk
    · exact h.map k pblk hk
    · exact h.disk k pblk hk
  | flushSuper => exact h.flushSuper
  | ckptSuper =>
    have h' := h.flushSuper
    exact h'.congr rfl (fun _ _ => id) rfl h'.map h'.disk rfl (.refl _)
  | ckptDone hckpt =>
    exact h.append rfl rfl rfl hother rfl rfl (hpos.running (by simp [hckpt]))
  | crash => exact h.crash hd hcov hsrc
  | redo hrec hr hm => exact h.redo hrec hr hm
  | @localBirth k pos t hrec haux hmap ht =>
    refine h.localBirth (fun hk => ?_) ht
    simp [pageLsnOk, hk] at hok
  | endRecovery hrec =>
    refine { h with below := fun k pblk hmem hk => .inl ?_ }
    rcases h.below k pblk hmem hk with hlt | ⟨pos, hpos, i, hi, r, hr, -⟩
    · exact hlt
    · rw [hrec] at hpos
      cases hpos
      obtain ⟨hlt, -⟩ := List.getElem?_eq_some_iff.mp hr
      omega
  | _ => exact h.congr rfl (fun _ _ => id) rfl h.map h.disk rfl hsame

/-! ### The result -/

/-- MAP page LSNs are not replaced by smaller ones, and nothing is allocated on the fork while the
server recovers. -/
def uniqueOk (fork : ForkNumber) (s : State n) (e : Event n) : Prop :=
  pageLsnOk (fun g => g = fork) s e = true

instance (fork : ForkNumber) (s : State n) (e : Event n) : Decidable (uniqueOk fork s e) :=
  inferInstanceAs (Decidable (_ = _))

/-- No block of the fork is handed out twice, together with what replay needs to keep it so. -/
structure UniqueInvariant (fork : ForkNumber) (s : State n) : Prop where
  disciplined : Disciplined s
  positioned : Positioned s
  backed : AllBacked s
  sourced : Sourced (fun g => g = fork) s
  covered : Covered .nextFree fork s
  unique : Unique fork s

theorem UniqueInvariant.init (n : Nat) (fork : ForkNumber) : UniqueInvariant fork (State.init n) :=
  ⟨.init n, .init n, .init n, .init n _, .init n _ _, .init n fork⟩

theorem UniqueInvariant.step {fork s t} (h : UniqueInvariant fork s) (hok : uniqueOk fork s e)
    (hs : (publication n).step s e = some t) : UniqueInvariant fork t := by
  have hm := Move.of_step hs
  exact ⟨h.disciplined.step hm, h.positioned.step hm, h.backed.step h.disciplined hm,
    h.sourced.step h.disciplined h.backed hok hm,
    h.covered.step h.disciplined h.positioned (.inl rfl) hm,
    h.unique.step h.disciplined h.positioned h.covered h.sourced hok hm⟩

end Umbra
