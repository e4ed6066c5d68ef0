import Umbra.Publication.Provenance

/-!
# A standby that replays the log

A standby applies each record as a whole; the primary applies its effects action by action. `InStep`
relates the two: what differs is on its way in the program of some backend. Claims keep two backends
from publishing the same block, and counters only ever take a maximum. A standby also gives birth to
blocks of the auxiliary forks that the primary never had; `Ahead` keeps them apart from the rest.
-/

namespace Umbra

open Foundation Function State

variable {n : Nat}
variable {b : Fin n} {m' : MapMeta} {rest : List Instr} {e : Event n} {materialized : Nat → Bool}
  {be : Backend} {k : BlockKey} {extend : Bool}

/-! ### Replay of a log -/

def replay (materialized : Nat → Bool) (m : MapMeta) (pos : Nat) : List Record → Option MapMeta
  | [] => some m
  | r :: rs =>
    (redoRecord m (pos + 1) (materialized pos) r).bind fun m => replay materialized m (pos + 1) rs

variable {m : MapMeta} {r : Record} {pos : Nat}

lemma replay_append {rs rs'} (h : replay materialized m pos rs = some m') :
    replay materialized m pos (rs ++ rs') = replay materialized m' (pos + rs.length) rs' := by
  induction rs generalizing m pos with
  | nil =>
    cases h
    rfl
  | cons r rs ih =>
    obtain ⟨m₁, h₁, h₂⟩ := Option.bind_eq_some_iff.mp h
    rw [List.cons_append, replay, h₁, Option.bind_some, ih h₂, List.length_cons]
    congr 1
    omega

/-- A page that a record changes is below the logical end, and so is every block it maps, once
replayed. -/
structure Record.Grounded (m : MapMeta) (r : Record) : Prop where
  named : ∀ k pblk, r.newPblk k = some pblk →
    k.2 < max (m.entry.super.count .logical k.1) (r.bump .logical k.1)
  delta : ∀ blks, r = .blockRemaps blks → ∀ blk ∈ blks, blk.kind = .delta →
    blk.old.isSome ∧ blk.key.2 < m.entry.super.count .logical blk.key.1

lemma Record.Grounded.mono (h : r.Grounded m)
    (hle : ∀ c fork, m.entry.super.count c fork ≤ m'.entry.super.count c fork) : r.Grounded m' where
  named k pblk hk := (h.named k pblk hk).trans_le (max_le_max_right _ (hle .logical k.1))
  delta blks hr blk hblk hkind := by
    obtain ⟨hold, hlt⟩ := h.delta blks hr blk hblk hkind
    exact ⟨hold, hlt.trans_le (hle _ _)⟩

lemma Record.Grounded.of_named (hr : ∀ blks, r ≠ .blockRemaps blks)
    (h : ∀ k pblk, r.newPblk k = some pblk →
      k.2 < max (m.entry.super.count .logical k.1) (r.bump .logical k.1)) : r.Grounded m :=
  ⟨h, fun blks heq => absurd heq (hr blks)⟩

lemma exists_redoBlockRemap {lsn blk}
    (h : blk.kind = .delta → blk.old.isSome ∧ blk.key.2 < m.entry.super.count .logical blk.key.1) :
    ∃ m', redoBlockRemap m lsn blk = some m' := by
  unfold redoBlockRemap
  split
  · rename_i hkind hold
    have hsome := (h hkind).1
    rw [hold] at hsome
    cases hsome
  · rename_i old hkind hold
    exact ⟨_, if_pos (h hkind).2⟩
  · exact ⟨_, rfl⟩
  · exact ⟨_, rfl⟩

lemma exists_redoBlockRemaps {lsn blks}
    (h : ∀ blk ∈ blks, blk.kind = .delta → blk.old.isSome ∧ blk.key.2 < m.entry.super.count .logical
      blk.key.1) : ∃ m', redoBlockRemaps m lsn blks = some m' := by
  induction blks generalizing m with
  | nil => exact ⟨m, rfl⟩
  | cons blk blks ih =>
    obtain ⟨m₁, h₁⟩ : ∃ m', redoBlockRemap m lsn blk = some m' :=
      exists_redoBlockRemap (h blk List.mem_cons_self)
    obtain ⟨m₂, h₂⟩ := ih (m := m₁) fun b hb hkind => by
      obtain ⟨hold, hlt⟩ := h b (List.mem_cons_of_mem _ hb) hkind
      refine ⟨hold, hlt.trans_le ?_⟩
      rw [(redoBlockRemap_spec h₁).2]
      exact le_max_left _ _
    exact ⟨m₂, by rw [redoBlockRemaps, h₁, Option.bind_some, h₂]⟩

lemma Record.Grounded.exists_redoRecord (h : r.Grounded m) (lsn materialized) :
    ∃ m', redoRecord m lsn materialized r = some m' := by
  cases r with
  | blockRemaps blks => exact exists_redoBlockRemaps (h.delta blks rfl)
  | _ => exact ⟨_, rfl⟩

/-! ### The counters as they are stored -/

def MapSuperblock.rawCount (super : MapSuperblock) : Counter → ForkNumber → Option Nat
  | .logical, fork => (super.counts fork).logicalNblocks
  | .nextFree, fork => (super.counts fork).nextFreePhysBlock

lemma MapSuperblock.count_eq (super : MapSuperblock) (c : Counter) (fork : ForkNumber) :
    super.count c fork = mapNormalizeForkBlockCount fork (super.rawCount c fork) := by
  cases c <;> rfl

lemma bumpCount_self (fork raw) : bumpCount fork raw (mapNormalizeForkBlockCount fork raw) = raw :=
  if_neg (lt_irrefl _)

lemma bumpCount_bumpCount (fork raw a b) :
    bumpCount fork (bumpCount fork raw a) b = bumpCount fork raw (max a b) := by
  by_cases ha : mapNormalizeForkBlockCount fork raw < a
  · have hmax : mapNormalizeForkBlockCount fork raw < max a b := lt_max_of_lt_left ha
    simp only [bumpCount, ha, hmax, if_true, mapNormalizeForkBlockCount_some]
    split_ifs with hb
    · rw [max_eq_right hb.le]
    · rw [max_eq_left (le_of_not_gt hb)]
  · simp only [bumpCount, ha, if_false]
    split_ifs with hb hmax hmax
    · rw [max_eq_right]
      omega
    · exact absurd (lt_max_of_lt_right hb) hmax
    · exact absurd (lt_max_iff.mp hmax) (not_or.mpr ⟨ha, hb⟩)
    · rfl

def MapSuperblock.RaisedFrom (base super : MapSuperblock) : Prop :=
  ∀ c fork, super.rawCount c fork = bumpCount fork (base.rawCount c fork) (super.count c fork)

namespace MapSuperblock.RaisedFrom

variable {base super super' : MapSuperblock}

lemma refl (base : MapSuperblock) : base.RaisedFrom base := by
  intro c fork
  rw [count_eq, bumpCount_self]

lemma bump (h : base.RaisedFrom super) {v : Counter → ForkNumber → Nat}
    (hraw : ∀ c fork, super'.rawCount c fork = bumpCount fork (super.rawCount c fork) (v c fork)) :
    base.RaisedFrom super' := by
  intro c fork
  have hcount : super'.count c fork = max (super.count c fork) (v c fork) := by
    rw [count_eq, hraw, mapNormalizeForkBlockCount_bumpCount, ← count_eq]
  rw [hcount, ← bumpCount_bumpCount, ← h c fork, hraw]

lemma eq (h : base.RaisedFrom super) (h' : base.RaisedFrom super') {c fork}
    (hcount : super.count c fork = super'.count c fork) :
    super.rawCount c fork = super'.rawCount c fork := by
  rw [h c fork, h' c fork, hcount]

end MapSuperblock.RaisedFrom

section RawCount

variable (m : MapMeta) (fork fork' : ForkNumber) (v lsn : Nat) (r : Bool) (c : Counter)

lemma rawCount_bumpLogical : (m.bumpLogical fork v lsn).entry.super.rawCount c fork'
      = bumpCount fork' (m.entry.super.rawCount c fork')
          (if c = .logical ∧ fork = fork' then v else 0) := by
  by_cases h : fork' = fork
  · subst h
    cases c <;> simp [MapSuperblock.rawCount, MapMeta.bumpLogical, bumpCount_zero,
      MapSuperEntry.counts_bumpLogicalNblocks]
  · cases c <;> simp [MapSuperblock.rawCount, MapMeta.bumpLogical, bumpCount_zero,
      MapSuperEntry.counts_bumpLogicalNblocks, h, Ne.symm h]

lemma rawCount_bumpNextFree : (m.bumpNextFree fork v lsn r).entry.super.rawCount c fork'
      = bumpCount fork' (m.entry.super.rawCount c fork')
          (if c = .nextFree ∧ fork = fork' then v else 0) := by
  by_cases h : fork' = fork
  · subst h
    cases c <;> simp [MapSuperblock.rawCount, MapMeta.bumpNextFree, bumpCount_zero,
      MapSuperEntry.counts_bumpNextFree]
  · cases c <;> simp [MapSuperblock.rawCount, MapMeta.bumpNextFree, bumpCount_zero,
      MapSuperEntry.counts_bumpNextFree, h, Ne.symm h]

lemma rawCount_bumpCapacity :
    (m.bumpCapacity fork v lsn).entry.super.rawCount c fork' = m.entry.super.rawCount c fork' := by
  by_cases h : fork' = fork
  · subst h
    cases c <;> simp [MapSuperblock.rawCount, MapMeta.bumpCapacity,
      MapSuperEntry.counts_bumpCapacity]
  · cases c <;> simp [MapSuperblock.rawCount, MapMeta.bumpCapacity,
      MapSuperEntry.counts_bumpCapacity, h]

end RawCount

lemma Evolves.raisedFrom {base : MapSuperblock} (h : Evolves false m m')
    (hm : base.RaisedFrom m.entry.super) : base.RaisedFrom m'.entry.super := by
  induction h with
  | refl => exact hm
  | setEntry _ k pblk lsn ih => exact ih
  | bumpLogical _ fork v lsn ih => exact ih.bump fun c f => rawCount_bumpLogical _ fork f v lsn c
  | bumpNextFree _ fork v lsn r ih =>
    exact ih.bump fun c f => rawCount_bumpNextFree _ fork f v lsn r c
  | bumpCapacity _ fork v lsn ih =>
    refine ih.bump (v := fun _ _ => 0) fun c f => ?_
    rw [rawCount_bumpCapacity, bumpCount_zero]
  | setLogical _ htrunc => cases htrunc

/-! ### Standby and primary -/

/-- A standby `m` that has replayed the log of the primary `s`. -/
structure InStep (m : MapMeta) (s : State n) : Prop where
  count_le : ∀ c fork, s.count c fork ≤ m.entry.super.count c fork
  count_owed : ∀ c fork, m.entry.super.count c fork ≤ s.count c fork ∨
    ∃ b, ∃ j ∈ (s.backends b).prog, m.entry.super.count c fork ≤ j.bump c fork
  map_owed : ∀ k, s.mapMeta.map k = m.map k ∨
    ∃ b pblk, .setMapping k pblk ∈ armed (s.backends b).prog
  underway : ∀ b, ∀ j ∈ armed (s.backends b).prog,
    (∀ c fork, j.bump c fork ≤ m.entry.super.count c fork) ∧
      ∀ k pblk, j = .setMapping k pblk → m.map k = some pblk
  map_below : ∀ k pblk, m.map k = some pblk → k.2 < m.entry.super.count .logical k.1
  shared_below : ∀ k pblk, s.mapMeta.map k = some pblk → k.2 < m.entry.super.count .logical k.1
  lookedUp_below : ∀ b k pblk, (s.backends b).lookedUp = some (k, some pblk) →
    k.2 < m.entry.super.count .logical k.1
  claims_below : ∀ k c, s.claims k = some c → c.old ≠ none → k.2 < m.entry.super.count .logical k.1
  grounded : ∀ b r, .insert r ∈ (s.backends b).prog → r.Grounded m

/-- The standby is past the action. -/
abbrev Instr.Past (m : MapMeta) (j : Instr) : Prop :=
  (∀ c fork, j.bump c fork ≤ m.entry.super.count c fork) ∧
    ∀ k pblk, j = .setMapping k pblk → m.map k = some pblk

namespace InStep

variable {m : MapMeta} {s t : State n}

section
variable (h : InStep m s) {i : Instr}
include h

lemma congr (hmap : t.mapMeta.map = s.mapMeta.map)
    (hcount : ∀ c fork, t.count c fork = s.count c fork) (hclaims : t.claims = s.claims)
    (hbackends : t.backends = s.backends) : InStep m t where
  count_le c fork := hcount c fork ▸ h.count_le c fork
  count_owed c fork := by
    rw [hcount, hbackends]
    exact h.count_owed c fork
  map_owed := by
    rw [hmap, hbackends]
    exact h.map_owed
  underway := by
    rw [hbackends]
    exact h.underway
  map_below := h.map_below
  shared_below := by
    rw [hmap]
    exact h.shared_below
  lookedUp_below := by
    rw [hbackends]
    exact h.lookedUp_below
  claims_below := by
    rw [hclaims]
    exact h.claims_below
  grounded := by
    rw [hbackends]
    exact h.grounded

lemma setMeta (hge : ∀ c fork, s.count c fork ≤ m'.entry.super.count c fork)
    (hle : ∀ c fork, m'.entry.super.count c fork ≤ m.entry.super.count c fork)
    (hmap : ∀ k, m'.map k = s.mapMeta.map k ∨ m'.map k = m.map k) : InStep m (s.setMeta m') where
  __ := h
  count_le := hle
  count_owed c fork := (h.count_owed c fork).imp (fun hc => hc.trans (hge c fork)) id
  map_owed k := by
    rcases hmap k with heq | heq
    · rcases h.map_owed k with hk | hk
      · exact .inl (heq.trans hk)
      · exact .inr hk
    · exact .inl heq
  shared_below k pblk hk := by
    rcases hmap k with heq | heq
    · exact h.shared_below k pblk (heq ▸ hk)
    · exact h.map_below k pblk (heq ▸ hk)

lemma setBackend
    (hcount : ∀ j ∈ (s.backends b).prog, j ∈ be.prog ∨ ∀ c fork, j.bump c fork ≤ s.count c fork)
    (hmap : ∀ k pblk, .setMapping k pblk ∈ armed (s.backends b).prog → .setMapping k pblk ∈ armed
      be.prog ∨ s.mapMeta.map k = m.map k) (harmed : ∀ j ∈ armed be.prog, j.Past m)
    (hlooked : ∀ k pblk, be.lookedUp = some (k, some pblk) → k.2 < m.entry.super.count .logical k.1)
    (hgrounded : ∀ r, .insert r ∈ be.prog → r.Grounded m) : InStep m (s.setBackend b be) := by
  have hback : ∀ b', (s.setBackend b be).backends b' = if b' = b then be else s.backends b' :=
    fun b' => update_apply ..
  have hself : (s.setBackend b be).backends b = be := update_self ..
  have hother : ∀ b', b' ≠ b → (s.setBackend b be).backends b' = s.backends b' :=
    fun b' hne => update_of_ne hne ..
  refine ⟨h.count_le, fun c fork => ?_, fun k => ?_, fun b' => ?_, h.map_below, h.shared_below,
    fun b' => ?_, h.claims_below, fun b' => ?_⟩
  · rcases h.count_owed c fork with hc | ⟨b', j, hj, hle⟩
    · exact .inl hc
    · by_cases hb : b' = b
      · subst hb
        rcases hcount j hj with hj' | hj'
        · exact .inr ⟨b', j, hself.symm ▸ hj', hle⟩
        · exact .inl (hle.trans (hj' c fork))
      · exact .inr ⟨b', j, (hother b' hb).symm ▸ hj, hle⟩
  · rcases h.map_owed k with hk | ⟨b', pblk, hj⟩
    · exact .inl hk
    · by_cases hb : b' = b
      · subst hb
        rcases hmap k pblk hj with hj' | hk
        · exact .inr ⟨b', pblk, hself.symm ▸ hj'⟩
        · exact .inl hk
      · exact .inr ⟨b', pblk, (hother b' hb).symm ▸ hj⟩
  · rw [hback]
    split_ifs
    · exact harmed
    · exact h.underway b'
  · rw [hback]
    split_ifs
    · exact hlooked
    · exact h.lookedUp_below b'
  · rw [hback]
    split_ifs
    · exact hgrounded
    · exact h.grounded b'

lemma pop (hprog : (s.backends b).prog = i :: be.prog) (hi : i.isBarrier = false)
    (hcount : ∀ c fork, i.bump c fork ≤ s.count c fork)
    (hmap : ∀ k pblk, i = .setMapping k pblk → s.mapMeta.map k = m.map k)
    (hlooked : be.lookedUp = (s.backends b).lookedUp) : InStep m (s.setBackend b be) := by
  have harm : armed (s.backends b).prog = i :: armed be.prog := by
    rw [hprog, armed_cons, hi]
    rfl
  refine h.setBackend ?_ ?_ ?_ ?_ ?_
  · intro j hj
    rw [hprog] at hj
    rcases List.mem_cons.mp hj with rfl | hj
    · exact .inr hcount
    · exact .inl hj
  · intro k pblk hj
    rw [harm] at hj
    rcases List.mem_cons.mp hj with heq | hj
    · exact .inr (hmap k pblk heq.symm)
    · exact .inl hj
  · exact fun j hj => h.underway b j (harm ▸ List.mem_cons_of_mem i hj)
  · exact fun k pblk hk => h.lookedUp_below b k pblk (hlooked ▸ hk)
  · exact fun r hr => h.grounded b r (hprog ▸ List.mem_cons_of_mem i hr)

lemma next (hprog : (s.backends b).prog = i :: rest) (hi : i.isBarrier = true)
    (hrest : ∀ j ∈ rest, j ∈ be.prog) (harmed : ∀ j ∈ armed be.prog, j.Past m)
    (hlooked : be.lookedUp = (s.backends b).lookedUp)
    (hgrounded : ∀ r, .insert r ∈ be.prog → .insert r ∈ rest ∨ r.Grounded m) :
    InStep m (s.setBackend b be) := by
  refine h.setBackend ?_ ?_ harmed ?_ ?_
  · intro j hj
    rw [hprog] at hj
    rcases List.mem_cons.mp hj with rfl | hj
    · refine .inr fun c fork => ?_
      cases j <;> first | exact Nat.zero_le _ | cases hi
    · exact .inl (hrest j hj)
  · intro k' pblk hj
    rw [hprog, armed_cons, if_pos hi] at hj
    cases hj
  · exact fun k pblk hk => h.lookedUp_below b k pblk (hlooked ▸ hk)
  · intro r hr
    rcases hgrounded r hr with hr | hr
    · exact h.grounded b r (hprog ▸ List.mem_cons_of_mem _ hr)
    · exact hr

lemma reserveAt (b k) : InStep m (s.reserveAt b k) where
  __ := h
  claims_below k' c hc hold := by
    by_cases hk : k' = k
    · subst hk
      rw [claims_reserveAt_self] at hc
      cases hc
      obtain ⟨pblk, hp⟩ := Option.ne_none_iff_exists'.mp hold
      obtain ⟨⟨k₁, old⟩, hl, hold'⟩ := Option.bind_eq_some_iff.mp hp
      obtain ⟨rfl, rfl⟩ := Option.ite_none_right_eq_some.mp hold'
      exact h.lookedUp_below b k₁ pblk hl
    · rw [claims_reserveAt_of_ne hk] at hc
      exact h.claims_below k' c hc hold

lemma dropClaim (k) : InStep m (s.dropClaim k) where
  __ := h
  claims_below k' c hc := h.claims_below k' c (claims_of_update_none hc)

lemma insert (hd : Disciplined s) (hprog : (s.backends b).prog = .insert r :: rest)
    (htrunc : ∀ fork nblocks, r ≠ .smgrTruncate fork nblocks) {lsn materialized}
    (hm' : redoRecord m lsn materialized r = some m') : InStep m' (s.insertRecord b r rest) := by
  obtain ⟨hmap, hcount⟩ := redoRecord_spec hm' htrunc
  have hp := hd.prog_cons hprog
  obtain ⟨-, hcovMap, hcovCount⟩ := hp.covers.1
  obtain ⟨hsoundMap, hsoundCount⟩ := hp.sound.1
  have hground := h.grounded b r (hprog ▸ List.mem_cons_self)
  have hle : ∀ c fork, m.entry.super.count c fork ≤ m'.entry.super.count c fork := by
    intro c fork
    rw [hcount]
    exact le_max_left _ _
  have harm : armed (s.backends b).prog = [] := by
    rw [hprog, armed_cons]
    rfl
  have hself := s.prog_insertRecord_self b r rest
  have hother : ∀ b', b' ≠ b → (s.insertRecord b r rest).backends b' = s.backends b' :=
    fun b' hne => update_of_ne hne ..
  refine ⟨fun c fork => (h.count_le c fork).trans (hle c fork), fun c fork => ?_, fun k => ?_,
    fun b' j hj => ?_, fun k pblk hk => ?_, fun k pblk hk => (h.shared_below k pblk hk).trans_le
      (hle _ _), fun b' k pblk hk => ?_, fun k c hc hold => (h.claims_below k c hc hold).trans_le
      (hle _ _), fun b' r' hr' => ?_⟩
  · -- the counter: either the record does not raise it, or the program goes on to raise it
    rw [hcount]
    rcases le_total (r.bump c fork) (m.entry.super.count c fork) with hmax | hmax
    · rw [max_eq_left hmax]
      rcases h.count_owed c fork with hc | ⟨b', j, hj, hjle⟩
      · exact .inl hc
      · by_cases hb : b' = b
        · subst hb
          rw [hprog] at hj
          rcases List.mem_cons.mp hj with rfl | hj
          · exact .inl (hjle.trans (Nat.zero_le _))
          · exact .inr ⟨b', j, hself.symm ▸ hj, hjle⟩
        · exact .inr ⟨b', j, (hother b' hb).symm ▸ hj, hjle⟩
    · rw [max_eq_right hmax]
      rcases hcovCount c fork with h0 | ⟨j, hj, hjle⟩ | ⟨rfl, j, hj, hjle⟩
      · exact .inl (h0 ▸ Nat.zero_le _)
      · exact .inr ⟨b, j, hself.symm ▸ mem_of_mem_covered hj, hjle⟩
      · exact .inr ⟨b, j, hself.symm ▸ hj, hjle.trans (j.lateBump_le_bump fork)⟩
  · cases hk : r.newPblk k with
    | some pblk =>
      exact .inr ⟨b, pblk, hself.symm ▸ mem_armed_of_mem_covered (hcovMap k pblk hk)⟩
    | none =>
      rw [hmap, hk, Option.none_or]
      rcases h.map_owed k with heq | ⟨b', pblk, hj⟩
      · exact .inl heq
      · by_cases hb : b' = b
        · rw [hb, harm] at hj
          cases hj
        · exact .inr ⟨b', pblk, (hother b' hb).symm ▸ hj⟩
  · by_cases hb : b' = b
    · subst hb
      rw [hself] at hj
      refine ⟨fun c fork => ?_, fun k pblk heq => ?_⟩
      · rw [hcount]
        exact ((hsoundCount j hj).bump c fork).trans (le_max_right _ _)
      · rw [hmap, hsoundMap k pblk (heq ▸ hj), Option.some_or]
    · rw [hother b' hb] at hj
      obtain ⟨hjc, hjm⟩ := h.underway b' j hj
      refine ⟨fun c fork => (hjc c fork).trans (hle c fork), fun k pblk heq => ?_⟩
      -- the other backend holds the claim of `k`, so the record does not name it
      obtain ⟨l, c, hc, hcb, -⟩ : ∃ l, OwnedBy s.claims b' (.setMapping k pblk) l :=
        (hd.progs b').owned.exists_of_mem (heq ▸ mem_of_mem_armed hj)
      have hnone : r.newPblk k = none := by
        by_contra hne
        obtain ⟨q, hq⟩ := Option.ne_none_iff_exists'.mp hne
        obtain ⟨c', hc', hcb', -⟩ := hp.owned.1 k q hq
        rw [hc] at hc'
        cases hc'
        exact hb (hcb.symm.trans hcb')
      rw [hmap, hnone, Option.none_or]
      exact hjm k pblk heq
  · rw [hmap, Option.or_eq_some_iff] at hk
    rcases hk with hk | ⟨-, hk⟩
    · rw [hcount]
      exact hground.named k pblk hk
    · exact (h.map_below k pblk hk).trans_le (hle _ _)
  · rw [lookedUp_insertRecord] at hk
    exact (h.lookedUp_below b' k pblk hk).trans_le (hle _ _)
  · refine (h.grounded b' r' ?_).mono hle
    by_cases hb : b' = b
    · subst hb
      rw [hself] at hr'
      exact hprog ▸ List.mem_cons_of_mem _ hr'
    · rwa [hother b' hb] at hr'

lemma grounded_of_begin {prog} (hbegin : Begin s e b prog) (hr : .insert r ∈ prog) :
    r.Grounded m := by
  rcases hbegin.record hr with ⟨_, blks, hasm, rfl⟩ | ⟨_, _, _, rfl⟩ | ⟨_, _, _, hold, rfl⟩ |
    ⟨_, _, rfl⟩
  · obtain ⟨-, hall⟩ := assemble_spec hasm
    refine ⟨fun k pblk hk => ?_, fun blks' heq blk hblk hkind => ?_⟩
    · obtain ⟨blk, hmem, rfl, -⟩ := Record.exists_of_newPblkOf hk
      obtain ⟨c, hc, -, heq, -⟩ := hall blk hmem
      have hold : blk.old = c.old := by
        rw [heq]
        rfl
      have hlog : blk.key.2 < blk.logicalNblocks := by
        rw [heq]
        exact lt_of_lt_of_le (Nat.lt_succ_self _) (le_max_right _ _)
      by_cases hnone : c.old = none
      · -- a birth carries a logical end above its block
        have hbump : blk.logicalNblocks ≤ (Record.blockRemaps blks).bump .logical blk.key.1 := by
          have hle := Record.bump_le_blockRemaps hmem .logical blk.key.1
          simpa [BlockRemap.bump, hold, hnone] using hle
        exact lt_max_of_lt_right (hlog.trans_le hbump)
      · exact lt_max_of_lt_left (h.claims_below blk.key c hc hnone)
    · cases heq
      obtain ⟨c, hc, -, heq, hsome⟩ := hall blk hblk
      have hold := hsome hkind
      refine ⟨?_, h.claims_below blk.key c hc (Option.isSome_iff_ne_none.mp hold)⟩
      rw [heq]
      exact hold
  · refine .of_named (by simp) fun k pblk hk => lt_max_of_lt_right ?_
    obtain ⟨⟨rfl, hge⟩, hget⟩ := Option.ite_none_right_eq_some.mp hk
    obtain ⟨hlt, -⟩ := getElem?_eq_some_iff.mp hget
    simp only [Record.bump, if_true]
    omega
  · refine .of_named (by simp) fun k' pblk hk => lt_max_of_lt_left ?_
    obtain ⟨rfl, -⟩ := Option.ite_none_right_eq_some.mp hk
    exact h.shared_below _ _ hold
  · exact .of_named (by simp) fun _ _ hk => by cases hk

end

lemma grounded_birth (k pblk) : (Record.mapSet k none pblk).Grounded m := by
  refine .of_named (by simp) fun k' p hk => lt_max_of_lt_right ?_
  obtain ⟨rfl, -⟩ := Option.ite_none_right_eq_some.mp hk
  simp [Record.bump]

lemma expandBirth (h : InStep m s) (hprog : (s.backends b).prog = .birth k extend :: rest) (pblk) :
    InStep m (s.expandBirth b rest k extend pblk) := by
  refine h.next hprog rfl ?_ ?_ rfl ?_
  · intro j hj
    split_ifs <;> exact List.mem_append_right _ hj
  · simp [armed_birth_eq_nil]
  · intro r hr
    have hr' : r = .mapSet k none pblk ∨ .insert r ∈ rest := by
      split_ifs at hr
      · simpa [umextendBirth, umPublishMappedBirth] using hr
      · simpa [umPublishMappedBirth] using hr
    rcases hr' with rfl | hr'
    · exact .inr (grounded_birth k pblk)
    · exact .inl hr'

lemma skipBirth (h : InStep m s) (hd : Disciplined s) {pblk}
    (hprog : (s.backends b).prog = .birth k extend :: rest) (hmap : s.mapMeta.map k = some pblk) :
    InStep m (s.skipBirth b rest k extend pblk) := by
  obtain ⟨hno, hlate⟩ := (hd.prog_cons hprog).sound.1
  have hrest : ∀ j ∈ armed rest, j.Past m := by
    intro j hj
    refine ⟨fun c fork => ?_, fun k' p heq => absurd (heq ▸ hj) (hno k' p)⟩
    cases c with
    | nextFree =>
      rw [(hlate j hj).nextFree]
      exact Nat.zero_le _
    | logical =>
      rw [(hlate j hj).logical]
      refine ((hlate j hj).late fork).trans ?_
      split_ifs with hf
      · rw [hf]
        exact h.shared_below k pblk hmap
      · exact Nat.zero_le _
  refine h.next hprog rfl ?_ ?_ rfl fun r hr => .inl ?_
  · intro j hj
    split_ifs
    · exact List.mem_cons_of_mem _ hj
    · exact hj
  · intro j hj
    cases extend with
    | false => exact hrest j hj
    | true =>
      have hj' : j ∈ .bumpCapacity k.1 (pblk + 1) .invalid :: armed rest := by
        simpa [Instr.isBarrier] using hj
      rcases List.mem_cons.mp hj' with rfl | hj'
      · exact ⟨fun c fork => by cases c <;> exact Nat.zero_le _, fun _ _ heq => by cases heq⟩
      · exact hrest j hj'
  · split_ifs at hr
    · simpa using hr
    · exact hr

end InStep

/-! ### Runs -/

/-- The steps the result is about: the server neither crashes nor truncates the relation. -/
def standbyOk (_ : State n) (e : Event n) : Prop := e ≠ .crash ∧ e.isTruncate = false

instance (s : State n) (e : Event n) : Decidable (standbyOk s e) :=
  inferInstanceAs (Decidable (_ ∧ _))

/-- Only blocks inside the logical range are mapped. -/
def MapMeta.Consistent (m : MapMeta) : Prop :=
  ∀ k pblk, m.map k = some pblk → k.2 < m.entry.super.logical k.1

variable {m : MapMeta} {s t : State n}

theorem InStep.start (hm : m.Consistent) : InStep m (startFrom n m) where
  count_le c fork := le_rfl
  count_owed c fork := .inl le_rfl
  map_owed k := .inl rfl
  underway := nofun
  map_below := hm
  shared_below := hm
  lookedUp_below := nofun
  claims_below := nofun
  grounded b r hr := by cases hr

/-- The standby replays what a step has added to the log. -/
def Follows (materialized : Nat → Bool) (m : MapMeta) (s t : State n) : Prop :=
  ∃ rs m', t.wal = s.wal ++ rs ∧ replay materialized m s.wal.length rs = some m' ∧ InStep m' t

/-- Every step of the primary is followed by the standby. -/
theorem InStep.step (h : InStep m s)
    (hd : Disciplined s) (htr : TruncateFree s) (hrun : s.recovery = none) (hcrash : e ≠ .crash)
    (hm : Move s e t) (materialized : Nat → Bool) : Follows materialized m s t := by
  -- most steps add nothing to the log, or a record without metadata
  have hquiet (hw : t.wal = s.wal) (ht : InStep m t) : Follows materialized m s t :=
    ⟨[], m, by rw [hw, List.append_nil], rfl, ht⟩
  have hother (hw : t.wal = s.wal ++ [.other]) (ht : InStep m t) : Follows materialized m s t :=
    ⟨[.other], m, hw, rfl, ht⟩
  cases hm with
  | @lookup b k =>
    refine hquiet rfl (h.setBackend (fun j hj => .inl hj) (fun k pblk hj => .inl hj) (h.underway b)
      (fun k' pblk hk => ?_) (h.grounded b))
    obtain ⟨rfl, hmap⟩ := Prod.mk.inj (Option.some.inj hk)
    exact h.shared_below _ pblk hmap
  | reserve => exact hquiet rfl (h.reserveAt _ _)
  | abort => exact hquiet rfl (h.dropClaim _)
  | @start _ b prog hrec hidle hbegin =>
    refine hquiet rfl (h.setBackend ?_ ?_ ?_ (h.lookedUp_below b) fun r hr =>
      h.grounded_of_begin hbegin hr)
    · intro j hj
      rw [hidle] at hj
      cases hj
    · intro k pblk hj
      rw [hidle] at hj
      cases hj
    · simp [hbegin.armed_eq_nil]
  | @delayStart b rest hprog =>
    have hsound : armed rest = [] := (hd.prog_cons hprog).sound.1
    exact hquiet rfl (h.next hprog rfl (fun _ => id) (by simp [hsound]) rfl fun _ => .inl)
  | delayEnd hprog =>
    exact hquiet rfl (h.pop hprog rfl (fun c fork => Nat.zero_le _) nofun rfl)
  | @insert b r rest hprog =>
    have hr : ∀ fork nblocks, r ≠ .smgrTruncate fork nblocks := by
      rintro fork nblocks rfl
      cases (htr.of_cons hprog).1
    have hground := h.grounded b r (hprog ▸ List.mem_cons_self)
    obtain ⟨m', hm'⟩ := hground.exists_redoRecord (s.wal.length + 1) (materialized s.wal.length)
    refine ⟨[r], m', rfl, ?_, h.insert hd hprog hr hm'⟩
    rw [replay, hm', Option.bind_some, replay]
  | @update b i rest m' hprog hu =>
    have hbar : i.isBarrier = false := Instr.isBarrier_of_isPlain hu.isPlain
    have hi : i ∈ armed (s.backends b).prog := by
      rw [hprog, armed_cons, hbar]
      exact List.mem_cons_self
    obtain ⟨hbump, hset⟩ := h.underway b i hi
    have hcount : ∀ c fork, m'.entry.super.count c fork = max (s.count c fork) (i.bump c fork) :=
      fun c fork => hu.count (.inr (htr.of_cons hprog).1)
    have h' : InStep m (s.setMeta m') := by
      refine h.setMeta (fun c fork => ?_) (fun c fork => ?_) fun k => ?_
      · rw [hcount]
        exact le_max_left _ _
      · rw [hcount]
        exact Nat.max_le.mpr ⟨h.count_le c fork, hbump c fork⟩
      · cases hu with
        | @setMapping k' pblk =>
          by_cases hk : k = k'
          · subst hk
            refine .inr ?_
            rw [MapMeta.map_setEntry, update_self, hset k pblk rfl]
          · refine .inl ?_
            rw [MapMeta.map_setEntry, update_of_ne hk]
        | clearEntry => cases (htr.of_cons hprog).1
        | _ => exact .inl rfl
    refine hquiet rfl (h'.pop hprog hbar (fun c fork => ?_) (fun k pblk heq => ?_) rfl)
    · change _ ≤ m'.entry.super.count c fork
      rw [hcount]
      exact le_max_right _ _
    · subst heq
      cases hu
      change (s.mapMeta.setEntry k (some pblk) _).map k = m.map k
      rw [MapMeta.map_setEntry, update_self, hset k pblk rfl]
  | @release b k rest hprog =>
    have h' := h.dropClaim k
    exact hquiet rfl (h'.pop hprog rfl (fun c fork => Nat.zero_le _) nofun rfl)
  | birthMapped hprog hmap => exact hquiet rfl (h.skipBirth hd hprog hmap)
  | birthOwned hprog => exact hquiet rfl (h.expandBirth hprog _)
  | birthFresh hprog => exact hquiet rfl ((h.reserveAt _ _).expandBirth hprog _)
  | umtruncate hprog => cases (htr.of_cons hprog).1
  | preallocate =>
    exact hquiet rfl (h.congr rfl (fun _ _ => MapMeta.count_bumpCapacity ..) rfl rfl)
  | walWrite | walFlush | ckptCollect | ckptWait =>
    exact hquiet rfl (h.congr rfl (fun _ _ => rfl) rfl rfl)
  | flushPage =>
    exact hquiet (wal_flushPage ..) (h.congr rfl (fun _ _ => rfl) (by simp) (by simp))
  | flushSuper =>
    refine hquiet (wal_flushSuper ..) (h.congr (by simp) (fun _ _ => ?_) (by simp) (by simp))
    rw [count, count, mapMeta_flushSuper]
  | ckptSuper =>
    refine hquiet (wal_flushSuper ..) (h.congr (by simp) (fun _ _ => ?_) (by simp) (by simp))
    simp [count]
  | crash => exact absurd rfl hcrash
  | redo hrec | localBirth hrec | endRecovery hrec => rw [hrun] at hrec; cases hrec
  | _ => exact hother rfl (h.congr rfl (fun _ _ => rfl) rfl rfl)

/-- Replay of the whole log on the base gives the metadata the primary works with. -/
structure StandbyInvariant (materialized : Nat → Bool) (base : MapMeta) (s : State n) : Prop where
  running : s.recovery = none
  disciplined : Disciplined s
  truncateFree : TruncateFree s
  raised : base.entry.super.RaisedFrom s.mapMeta.entry.super
  follows : ∃ m, replay materialized base 0 s.wal = some m ∧ InStep m s

theorem StandbyInvariant.start (materialized : Nat → Bool) {base} (hbase : base.Consistent) :
    StandbyInvariant materialized base (startFrom n base) where
  running := rfl
  disciplined := ⟨fun _ => ⟨rfl, trivial, trivial, trivial⟩, fun h => absurd rfl h,
    fun r hr => by cases hr⟩
  truncateFree := ⟨nofun, fun r hr => by cases hr⟩
  raised := .refl _
  follows := ⟨base, rfl, .start hbase⟩

lemma Move.raisedFrom {base : MapSuperblock} (hm : Move s e t)
    (htr : TruncateFree s) (hrun : s.recovery = none) (hcrash : e ≠ .crash)
    (h : base.RaisedFrom s.mapMeta.entry.super) : base.RaisedFrom t.mapMeta.entry.super := by
  cases hm with
  | update hprog hu =>
    have hev := hu.evolves
    rw [(htr.of_cons hprog).1] at hev
    exact hev.raisedFrom h
  | preallocate =>
    have hev : Evolves false s.mapMeta s.mapMeta := .refl _
    exact (hev.bumpCapacity _ _ _).raisedFrom h
  | flushSuper =>
    rw [mapMeta_flushSuper]
    exact h
  | ckptSuper =>
    rw [mapMeta_flushSuper]
    exact h
  | crash => exact absurd rfl hcrash
  | redo hrec | localBirth hrec => rw [hrun] at hrec; cases hrec
  | _ => exact h

theorem StandbyInvariant.step {base} (h : StandbyInvariant materialized base s)
    (hok : standbyOk s e) (hs : (publication n).step s e = some t) :
    StandbyInvariant materialized base t := by
  have hm := Move.of_step hs
  obtain ⟨hcrash, htrunc⟩ := hok
  obtain ⟨m, hreplay, hstep⟩ := h.follows
  obtain ⟨rs, m', hwal, hrs, hstep'⟩ :=
    hstep.step h.disciplined h.truncateFree h.running hcrash hm materialized
  refine ⟨hm.recovery_eq_none h.running hcrash, h.disciplined.step hm,
    h.truncateFree.step htrunc hm, hm.raisedFrom h.truncateFree h.running hcrash h.raised,
    m', ?_, hstep'⟩
  rw [hwal, replay_append hreplay, zero_add, hrs]

lemma redoRecord_raisedFrom {base : MapSuperblock} {lsn materialized}
    (h : redoRecord m lsn materialized r = some m')
    (hr : ∀ fork nblocks, r ≠ .smgrTruncate fork nblocks)
    (hm : base.RaisedFrom m.entry.super) : base.RaisedFrom m'.entry.super := by
  have htrunc : r.isTruncate = false := by
    cases heq : r with
    | smgrTruncate fork nblocks => exact absurd heq (hr fork nblocks)
    | _ => rfl
  exact (htrunc ▸ redoRecord_evolves h).raisedFrom hm

lemma InStep.agree (h : InStep m s) (hrest : ∀ b, (s.backends b).prog = []) :
    m.map = s.mapMeta.map ∧ ∀ c fork, m.entry.super.count c fork = s.count c fork := by
  refine ⟨funext fun k => ?_, fun c fork => le_antisymm ?_ (h.count_le c fork)⟩
  · rcases h.map_owed k with heq | ⟨b, pblk, hj⟩
    · exact heq.symm
    · rw [hrest] at hj
      cases hj
  · rcases h.count_owed c fork with hle | ⟨b, j, hj, -⟩
    · exact hle
    · rw [hrest] at hj
      cases hj

/-! ### Blocks that redo gives birth to -/

/-- The blocks of auxiliary forks that the redo routine of one record asks for, before and after it
has the page of the record itself: a heap record pins its visibility map page first and records the
free space last. -/
structure LocalBirths where
  before : List {k : BlockKey // k.1 ≠ .main}
  after : List {k : BlockKey // k.1 ≠ .main}

/-- Why a standby stops. -/
inductive Stop
  | invalidPage
  | outOfBlocks (fork : ForkNumber)
  deriving DecidableEq, Repr

def MapMeta.localBirth (m : MapMeta) (pos : Nat) (k : {k : BlockKey // k.1 ≠ .main}) :
    Except Stop MapMeta :=
  match m.map k, m.entry.reserveFresh k.1.1 with
  | some _, _ => .ok m
  | none, none => .error (.outOfBlocks k.1.1)
  | none, some (pblk, entry) => .ok ({ m with entry := entry }.publishLocally k pblk pos)

def standbyRecord (materialized : Bool) (births : LocalBirths) (m : MapMeta) (pos : Nat)
    (r : Record) : Except Stop MapMeta := do
  let m ← births.before.foldlM (·.localBirth pos ·) m
  let m ← (redoRecord m (pos + 1) materialized r).elim (.error .invalidPage) .ok
  births.after.foldlM (·.localBirth pos ·) m

/-- Replay with the births that redo makes; `births` says which blocks each record needs. -/
def standbyReplay (materialized : Nat → Bool) (births : Nat → LocalBirths) (m : MapMeta)
    (pos : Nat) : List Record → Except Stop MapMeta
  | [] => .ok m
  | r :: rs => do
    let m ← standbyRecord (materialized pos) (births pos) m pos r
    standbyReplay materialized births m (pos + 1) rs

/-- No block of the fork is born in redo. -/
def Spares (births : Nat → LocalBirths) (fork : ForkNumber) : Prop :=
  ∀ pos, ∀ k ∈ (births pos).before ++ (births pos).after, k.1.1 ≠ fork

/-- The metadata `m'` of a replay with births of blocks outside `spared`, next to the metadata `m`
of the same replay without them. -/
structure Ahead (spared : ForkNumber → Prop) (base m m' : MapMeta) : Prop where
  map : ∀ k, spared k.1 → m'.map k = m.map k
  count : ∀ c fork, spared fork → m'.entry.super.count c fork = m.entry.super.count c fork
  le : ∀ c fork, m.entry.super.count c fork ≤ m'.entry.super.count c fork
  raised : base.entry.super.RaisedFrom m'.entry.super

/-- A replay with births finds no block number for one of them, or comes out ahead of `m`. -/
def StopsOrAhead (spared : ForkNumber → Prop) (base m : MapMeta) (x : Except Stop MapMeta) :
    Prop :=
  (∃ fork, ¬ spared fork ∧ x = .error (.outOfBlocks fork)) ∨
    ∃ m', x = .ok m' ∧ Ahead spared base m m'

section Ahead

variable {spared : ForkNumber → Prop} {base m₁ : MapMeta}

lemma StopsOrAhead.bind {x} {f : MapMeta → Except Stop MapMeta} (hx : StopsOrAhead spared base m x)
    (hf : ∀ m', Ahead spared base m m' → StopsOrAhead spared base m₁ (f m')) :
    StopsOrAhead spared base m₁ (x >>= f) := by
  rcases hx with ⟨fork, hfork, rfl⟩ | ⟨m', rfl, hm'⟩
  · exact .inl ⟨fork, hfork, rfl⟩
  · exact hf m' hm'

lemma Ahead.localBirth (h : Ahead spared base m m') (pos) {k : {k : BlockKey // k.1 ≠ .main}}
    (hk : ¬ spared k.1.1) : StopsOrAhead spared base m (m'.localBirth pos k) := by
  unfold MapMeta.localBirth
  split
  · exact .inr ⟨m', rfl, h⟩
  · exact .inl ⟨_, hk, rfl⟩
  · rename_i pblk entry _ hfresh
    have hsuper : entry.super = m'.entry.super := by
      unfold MapSuperEntry.reserveFresh at hfresh
      split_ifs at hfresh
      cases hfresh
      rfl
    have hev : Evolves false { m' with entry := entry }
        ({ m' with entry := entry }.publishLocally k pblk pos) :=
      MapMeta.publishLocally_evolves ..
    refine .inr ⟨_, rfl, ⟨fun k' hk' => ?_, fun c fork hfork => ?_, fun c fork => ?_,
      hev.raisedFrom (hsuper ▸ h.raised)⟩⟩
    · rw [MapMeta.map_publishLocally, update_of_ne, h.map k' hk']
      rintro rfl
      exact hk hk'
    · have hne : k.1.1 ≠ fork := fun heq => hk (heq ▸ hfork)
      rw [MapMeta.count_publishLocally, hsuper, h.count c fork hfork]
      cases c <;> simp [Record.bump, hne]
    · rw [MapMeta.count_publishLocally, hsuper]
      exact (h.le c fork).trans (le_max_left _ _)

lemma Ahead.localBirths (h : Ahead spared base m m') (pos)
    {births : List {k : BlockKey // k.1 ≠ .main}} (hb : ∀ k ∈ births, ¬ spared k.1.1) :
    StopsOrAhead spared base m (births.foldlM (·.localBirth pos ·) m') := by
  induction births generalizing m' with
  | nil => exact .inr ⟨m', rfl, h⟩
  | cons k births ih =>
    rw [List.foldlM_cons]
    exact (h.localBirth pos (hb k List.mem_cons_self)).bind fun m'' h'' =>
      ih h'' fun k' hk' => hb k' (List.mem_cons_of_mem _ hk')

/-- A delta finds its page below the logical end, which only moved up. -/
lemma redoBlockRemaps_isSome_of_le {lsn blks} (hm : (redoBlockRemaps m lsn blks).isSome)
    (hle : ∀ c fork, m.entry.super.count c fork ≤ m'.entry.super.count c fork) :
    (redoBlockRemaps m' lsn blks).isSome := by
  induction blks generalizing m m' with
  | nil => rfl
  | cons blk blks ih =>
    obtain ⟨m₂, hm₂⟩ := Option.isSome_iff_exists.mp hm
    obtain ⟨m₁, h₁, h₂⟩ := Option.bind_eq_some_iff.mp hm₂
    obtain ⟨m₁', h₁'⟩ : ∃ m₁', redoBlockRemap m' lsn blk = some m₁' := by
      refine exists_redoBlockRemap fun hkind => ?_
      cases hold : blk.old with
      | none => simp [redoBlockRemap, hkind, hold] at h₁
      | some old =>
        simp only [redoBlockRemap, hkind, hold, Option.ite_none_right_eq_some] at h₁
        exact ⟨rfl, h₁.1.trans_le (hle .logical _)⟩
    rw [redoBlockRemaps, h₁', Option.bind_some]
    refine ih (Option.isSome_of_eq_some h₂) fun c fork => ?_
    rw [(redoBlockRemap_spec h₁).2, (redoBlockRemap_spec h₁').2]
    exact max_le_max_right _ (hle c fork)

lemma Ahead.redoRecord (h : Ahead spared base m m') {lsn materialized}
    (hr : ∀ fork nblocks, r ≠ .smgrTruncate fork nblocks)
    (h₁ : redoRecord m lsn materialized r = some m₁) :
    ∃ m₁', Umbra.redoRecord m' lsn materialized r = some m₁' ∧ Ahead spared base m₁ m₁' := by
  obtain ⟨m₁', h₁'⟩ : ∃ m₁', Umbra.redoRecord m' lsn materialized r = some m₁' := by
    cases r with
    | blockRemaps blks =>
      exact Option.isSome_iff_exists.mp
        (redoBlockRemaps_isSome_of_le (Option.isSome_of_eq_some h₁) h.le)
    | _ => exact ⟨_, rfl⟩
  obtain ⟨hmap, hcount⟩ := redoRecord_spec h₁ hr
  obtain ⟨hmap', hcount'⟩ := redoRecord_spec h₁' hr
  refine ⟨m₁', h₁', fun k hk => ?_, fun c fork hfork => ?_, fun c fork => ?_, ?_⟩
  · rw [hmap', hmap, h.map k hk]
  · rw [hcount', hcount, h.count c fork hfork]
  · rw [hcount', hcount]
    exact max_le_max_right _ (h.le c fork)
  · exact redoRecord_raisedFrom h₁' hr h.raised

lemma Ahead.standbyRecord (h : Ahead spared base m m') {births pos materialized}
    (hb : ∀ k ∈ births.before ++ births.after, ¬ spared k.1.1)
    (hr : ∀ fork nblocks, r ≠ .smgrTruncate fork nblocks)
    (h₁ : Umbra.redoRecord m (pos + 1) materialized r = some m₁) :
    StopsOrAhead spared base m₁ (standbyRecord materialized births m' pos r) := by
  obtain ⟨hbefore, hafter⟩ := List.forall_mem_append.mp hb
  refine (h.localBirths pos hbefore).bind fun m'' h'' => ?_
  obtain ⟨m₁', h₁', hahead⟩ := h''.redoRecord hr h₁
  rw [h₁']
  exact hahead.localBirths pos hafter

lemma Ahead.standbyReplay (h : Ahead spared base m m') (births) {rs}
    (hb : ∀ pos, ∀ k ∈ (births pos).before ++ (births pos).after, ¬ spared k.1.1)
    (hrs : ∀ r ∈ rs, ∀ fork nblocks, r ≠ .smgrTruncate fork nblocks)
    (h₁ : replay materialized m pos rs = some m₁) :
    StopsOrAhead spared base m₁ (standbyReplay materialized births m' pos rs) := by
  induction rs generalizing m m' pos with
  | nil =>
    cases h₁
    exact .inr ⟨m', rfl, h⟩
  | cons r rs ih =>
    obtain ⟨m₂, h₂, h₃⟩ := Option.bind_eq_some_iff.mp h₁
    exact (h.standbyRecord (hb pos) (hrs r List.mem_cons_self) h₂).bind fun m'' h'' =>
      ih h'' (fun r' hr' => hrs r' (List.mem_cons_of_mem _ hr')) h₃

end Ahead

/-- Once no publication is outstanding, a standby that replays the log record by record from the
same start has the mapping and the counters of the primary in every fork in which redo gives birth
to no block of its own. The replay does not stop, unless such a birth finds no block number left. -/
theorem standby_agrees (materialized : Nat → Bool) (births : Nat → LocalBirths) {base : MapMeta}
    (hbase : base.Consistent) {s : State n}
    (hs : (publication n).Reaches standbyOk (startFrom n base) s)
    (hrest : ∀ b, (s.backends b).prog = []) :
    (∃ fork, ¬ Spares births fork ∧
      standbyReplay materialized births base 0 s.wal = .error (.outOfBlocks fork)) ∨
    ∃ m, standbyReplay materialized births base 0 s.wal = .ok m ∧
      ∀ fork, Spares births fork → (∀ lblk, m.map (fork, lblk) = s.mapMeta.map (fork, lblk)) ∧
        (m.entry.super.counts fork).logicalNblocks
          = (s.mapMeta.entry.super.counts fork).logicalNblocks ∧
        (m.entry.super.counts fork).nextFreePhysBlock
          = (s.mapMeta.entry.super.counts fork).nextFreePhysBlock := by
  have hinv : StandbyInvariant materialized base s :=
    hs.invariant (.start materialized hbase) fun h hok hstep => h.step hok hstep
  obtain ⟨m, hreplay, hstep⟩ := hinv.follows
  obtain ⟨hmap, hcount⟩ := hstep.agree hrest
  have hstart : Ahead (Spares births) base base base :=
    ⟨fun _ _ => rfl, fun _ _ _ => rfl, fun _ _ => le_rfl, .refl _⟩
  refine (hstart.standbyReplay births (fun pos k hk hspared => hspared pos k hk rfl)
    hinv.truncateFree.wal hreplay).imp id ?_
  rintro ⟨m', hm', hahead⟩
  refine ⟨m', hm', fun fork hfork => ⟨fun lblk => ?_, ?_, ?_⟩⟩
  · rw [hahead.map (fork, lblk) hfork, hmap]
  · exact hahead.raised.eq hinv.raised (c := .logical)
      ((hahead.count _ fork hfork).trans (hcount ..))
  · exact hahead.raised.eq hinv.raised (c := .nextFree)
      ((hahead.count _ fork hfork).trans (hcount ..))

def publishAcross (b c d : Fin n) : List (Event n) :=
  [.reserve b (.main, 0), .reserve c (.main, 1), .startBlockRemaps b [((.main, 0), .image)],
    .run b, .run b, .startBlockRemaps c [((.main, 1), .image)]] ++ List.replicate 7 (.run c) ++
    List.replicate 5 (.run b) ++ [.reserve d (.main, 0), .startRelocate d (.main, 0)] ++
    List.replicate 7 (.run d)

/-- Redo of the first record stores the free space of its page, and the free space map has no page
for it yet. -/
def freeSpaceBirths : Nat → LocalBirths
  | 0 => ⟨[], [⟨(.fsm, 0), by decide⟩, ⟨(.fsm, 1), by decide⟩, ⟨(.fsm, 2), by decide⟩]⟩
  | _ => ⟨[], []⟩

def publishedAcross : State 3 :=
  ((publication 3).restrict standbyOk).after (startFrom 3 (init 3).mapMeta) (publishAcross 0 1 2)

theorem standby_agrees_across :
    ∃ m, standbyReplay (fun _ => true) freeSpaceBirths (init 3).mapMeta 0 publishedAcross.wal =
        .ok m ∧
      m.map (.main, 0) = some 2 ∧ (m.entry.super.counts .main).nextFreePhysBlock = some 3 := by
  have hs : (publication 3).Reaches standbyOk (startFrom 3 (init 3).mapMeta) publishedAcross :=
    .of_isSome (by decide)
  rcases standby_agrees (fun _ => true) freeSpaceBirths (fun k pblk hk => by cases hk) hs
    (by decide) with ⟨fork, -, hstop⟩ | ⟨m, hreplay, hagree⟩
  · cases hstop
  · obtain ⟨hmap, -, hnext⟩ := hagree .main fun _ k _ => k.2
    exact ⟨m, hreplay, (hmap 0).trans (by decide), hnext.trans (by decide)⟩

/-- The primary has no free space map; redo of the same records leaves the standby with one of three
blocks. -/
theorem standby_gains_free_space_map :
    (publication 3).Reaches standbyOk (startFrom 3 (init 3).mapMeta) publishedAcross ∧
    (∀ b, (publishedAcross.backends b).prog = []) ∧
    (publishedAcross.mapMeta.entry.super.counts .fsm).logicalNblocks = none ∧
    ∃ m, standbyReplay (fun _ => true) freeSpaceBirths (init 3).mapMeta 0 publishedAcross.wal =
        .ok m ∧
      (m.entry.super.counts .fsm).logicalNblocks = some 3 ∧ m.map (.fsm, 2) = some 2 :=
  ⟨.of_isSome (by decide), by decide, by decide, _, rfl, rfl, rfl⟩

end Umbra
