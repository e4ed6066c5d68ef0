import Umbra.Publication.Record

/-!
# What replay does to the metadata

Away from truncation, replaying a record installs the physical blocks the record names and raises
each counter to the record's value if it is below. So replaying a log leaves at each logical block
the physical block named last, and at each counter the largest value named.
-/

namespace Umbra

namespace MapMeta

variable (m : MapMeta) (k : BlockKey) (fork fork' : ForkNumber) (n lsn : Nat) (r : Bool)
  (pblk : Option Nat)

@[simp] lemma map_setEntry : (m.setEntry k pblk lsn).map = Function.update m.map k pblk := rfl
@[simp] lemma entry_setEntry : (m.setEntry k pblk lsn).entry = m.entry := rfl
@[simp] lemma map_bumpLogical : (m.bumpLogical fork n lsn).map = m.map := rfl
@[simp] lemma map_bumpNextFree : (m.bumpNextFree fork n lsn r).map = m.map := rfl
@[simp] lemma map_bumpCapacity : (m.bumpCapacity fork n lsn).map = m.map := rfl

lemma map_publishLocally (p pos) :
    (m.publishLocally k p pos).map = Function.update m.map k (some p) := rfl

@[simp] lemma entry_setRange (pblks first) : (m.setRange fork lsn first pblks).entry = m.entry := by
  induction pblks generalizing m first with
  | nil => rfl
  | cons p pblks ih => exact ih _ _

@[simp] lemma entry_clearRange (count first) :
    (m.clearRange fork lsn first count).entry = m.entry := by
  induction count generalizing m first with
  | zero => rfl
  | succ count ih => exact ih _ _

lemma map_setRange (pblks first) : (m.setRange fork lsn first pblks).map k
      = ((Record.rangeRemap fork first pblks).newPblk k).or (m.map k) := by
  induction pblks generalizing m first with
  | nil => simp [setRange, Record.newPblk]
  | cons p pblks ih =>
    rw [setRange, ih]
    simp only [Record.newPblk, map_setEntry]
    obtain ⟨kf, kl⟩ := k
    by_cases hf : fork = kf
    · subst hf
      rcases lt_trichotomy first kl with h | h | h
      · have hsub : kl - first = (kl - (first + 1)) + 1 := by omega
        have hne : (fork, kl) ≠ (fork, first) := by simp; omega
        simp [h.le, show first + 1 ≤ kl from h, hsub, Function.update_of_ne hne]
      · subst h
        simp [show ¬ first + 1 ≤ first by omega]
      · have hne : (fork, kl) ≠ (fork, first) := by simp; omega
        simp [show ¬ first ≤ kl by omega, show ¬ first + 1 ≤ kl by omega, Function.update_of_ne hne]
    · have hne : (kf, kl) ≠ (fork, first) := by simp [Ne.symm hf]
      simp [hf, Function.update_of_ne hne]

lemma map_clearRange_of_some {count first p}
    (h : (m.clearRange fork lsn first count).map k = some p) : m.map k = some p := by
  induction count generalizing m first with
  | zero => exact h
  | succ count ih =>
    have h' := ih _ h
    rw [map_setEntry, Function.update_apply] at h'
    split_ifs at h'
    exact h'

/-! ### Counters -/

@[simp] lemma count_bumpLogical (c) : (m.bumpLogical fork n lsn).entry.super.count c fork'
      = max (m.entry.super.count c fork') (if c = .logical ∧ fork = fork' then n else 0) := by
  cases c with
  | logical =>
    simp only [MapSuperblock.count, bumpLogical, MapSuperEntry.logical_bumpLogicalNblocks]
    by_cases h : fork' = fork
    · subst h; simp
    · simp [h, Ne.symm h]
  | nextFree => simp [MapSuperblock.count, bumpLogical]

@[simp] lemma count_bumpNextFree (c) :
    (m.bumpNextFree fork n lsn r).entry.super.count c fork'
      = max (m.entry.super.count c fork') (if c = .nextFree ∧ fork = fork' then n else 0) := by
  cases c with
  | logical => simp [MapSuperblock.count, bumpNextFree]
  | nextFree =>
    simp only [MapSuperblock.count, bumpNextFree, MapSuperEntry.nextFree_bumpNextFree]
    by_cases h : fork' = fork
    · subst h; simp
    · simp [h, Ne.symm h]

@[simp] lemma count_bumpCapacity (c) :
    (m.bumpCapacity fork n lsn).entry.super.count c fork' = m.entry.super.count c fork' := by
  cases c <;> simp [MapSuperblock.count, bumpCapacity]

lemma count_publishLocally (k pblk pos c) : (m.publishLocally k pblk pos).entry.super.count c fork'
      = max (m.entry.super.count c fork') ((Record.mapSet k none pblk).bump c fork') := by
  cases c <;> simp [publishLocally, Record.bump]

@[simp] lemma nextFree_setLogical : (m.setLogical fork n lsn).entry.super.count .nextFree fork'
      = m.entry.super.count .nextFree fork' := by
  simp [MapSuperblock.count, setLogical]

end MapMeta

/-! ### Replay of one record -/

lemma redoPublish_map (m lsn blk) :
    (redoPublish m lsn blk).map = Function.update m.map blk.key (some blk.new) := rfl

variable {m m' : MapMeta} {lsn : Nat} {blk : BlockRemap} {blks : List BlockRemap}
  {materialized : Bool}

lemma redoBlockRemap_spec (h : redoBlockRemap m lsn blk = some m') :
    m'.map = Function.update m.map blk.key (some blk.new) ∧
      ∀ c fork, m'.entry.super.count c fork = max (m.entry.super.count c fork)
    (blk.bump c fork) := by
  unfold redoBlockRemap at h
  split at h
  · cases h
  · rename_i old hkind hold
    split_ifs at h with hlt
    cases h
    refine ⟨?_, fun c fork => ?_⟩
    · simp [redoPublish_map]
    · cases c <;> simp [redoPublish, BlockRemap.bump, hold]
  · rename_i old hold hkind
    cases h
    exact ⟨rfl, fun c fork => by cases c <;> simp [redoPublish, BlockRemap.bump, hold]⟩
  · rename_i hold hkind
    cases h
    exact ⟨rfl, fun c fork => by cases c <;> simp [redoPublish, BlockRemap.bump, hold]⟩

lemma redoBlockRemaps_spec (h : redoBlockRemaps m lsn blks = some m') :
    (∀ k, m'.map k = (Record.newPblkOf k blks).or (m.map k)) ∧ ∀ c fork, m'.entry.super.count c fork
        = max (m.entry.super.count c fork) ((Record.blockRemaps blks).bump c fork) := by
  induction blks generalizing m with
  | nil =>
    cases h
    exact ⟨fun k => rfl, fun c fork => by simp [Record.bump]⟩
  | cons blk blks ih =>
    obtain ⟨m₁, h₁, h₂⟩ := Option.bind_eq_some_iff.mp h
    obtain ⟨hmap₁, hcount₁⟩ := redoBlockRemap_spec h₁
    obtain ⟨hmap₂, hcount₂⟩ := ih h₂
    refine ⟨fun k => ?_, fun c fork => ?_⟩
    · rw [hmap₂, hmap₁, Function.update_apply, Record.newPblkOf, Option.or_assoc]
      by_cases hk : k = blk.key
      · simp [hk]
      · simp [hk, Ne.symm hk]
    · rw [hcount₂, hcount₁]
      simp only [Record.bump, List.map_cons, List.foldr_cons]
      omega

theorem redoRecord_spec {r} (h : redoRecord m lsn materialized r = some m')
    (hr : ∀ fork nblocks, r ≠ .smgrTruncate fork nblocks) :
    (∀ k, m'.map k = (r.newPblk k).or (m.map k)) ∧ ∀ c fork, m'.entry.super.count c fork
        = max (m.entry.super.count c fork) (r.bump c fork) := by
  cases r with
  | mapSet key old new =>
    cases h
    refine ⟨fun k => ?_, fun c fork => ?_⟩
    · have hmap : (redoMapSet m lsn materialized key new old).map
          = Function.update m.map key (some new) := by
        cases old with
        | none => rfl
        | some => cases materialized <;> rfl
      rw [hmap, Function.update_apply, Record.newPblk]
      by_cases hk : k = key
      · simp [hk]
      · simp [hk, Ne.symm hk]
    · cases old with
      | none => cases c <;> simp [redoMapSet, Record.bump]
      | some => cases materialized <;> cases c <;> simp [redoMapSet, Record.bump]
  | rangeRemap fork' first pblks =>
    cases h
    refine ⟨fun k => ?_, fun c fork => ?_⟩
    · exact MapMeta.map_setRange _ k fork' lsn pblks first
    · cases c <;> simp [umApplyReservedRangeRemap, Record.bump]
  | blockRemaps => exact redoBlockRemaps_spec h
  | smgrTruncate fork nblocks => exact absurd rfl (hr fork nblocks)
  | other =>
    cases h
    exact ⟨fun k => rfl, fun c fork => by simp [Record.bump]⟩

/-! ### The operations behind a change -/

/-- `m'` results from `m` by the operations of the foreground and of replay; `trunc` says whether
the logical end may be set back. -/
inductive Evolves (trunc : Bool) : MapMeta → MapMeta → Prop
  | refl (m : MapMeta) : Evolves trunc m m
  | setEntry {m m' : MapMeta} (h : Evolves trunc m m') (k : BlockKey) (pblk : Option Nat)
      (lsn : Nat) : Evolves trunc m (m'.setEntry k pblk lsn)
  | bumpLogical {m m' : MapMeta} (h : Evolves trunc m m') (fork : ForkNumber) (v lsn : Nat) :
      Evolves trunc m (m'.bumpLogical fork v lsn)
  | bumpNextFree {m m' : MapMeta} (h : Evolves trunc m m') (fork : ForkNumber) (v lsn : Nat)
      (inRecovery : Bool) : Evolves trunc m (m'.bumpNextFree fork v lsn inRecovery)
  | bumpCapacity {m m' : MapMeta} (h : Evolves trunc m m') (fork : ForkNumber) (v lsn : Nat) :
      Evolves trunc m (m'.bumpCapacity fork v lsn)
  | setLogical {m m' : MapMeta} (h : Evolves trunc m m') (htrunc : trunc = true)
      (fork : ForkNumber) (v lsn : Nat) : Evolves trunc m (m'.setLogical fork v lsn)

namespace Evolves

variable {trunc : Bool} {m m' : MapMeta} {lsn : Nat} {m'' : MapMeta}

variable (h : Evolves trunc m m')
include h

lemma setRange (fork first pblks) : Evolves trunc m (m'.setRange fork lsn first pblks) := by
  induction pblks generalizing m' first with
  | nil => exact h
  | cons p pblks ih => exact ih (h.setEntry _ _ _) _

lemma clearRange (fork first count) : Evolves trunc m (m'.clearRange fork lsn first count) := by
  induction count generalizing m' first with
  | zero => exact h
  | succ count ih => exact ih (h.setEntry _ _ _) _

lemma redoBlockRemap (hr : redoBlockRemap m' lsn blk = some m'') : Evolves trunc m m'' := by
  unfold Umbra.redoBlockRemap at hr
  split at hr
  · cases hr
  · split_ifs at hr
    cases hr
    exact ((h.setEntry _ _ _).setEntry _ _ _).bumpNextFree _ _ _ _
  · cases hr
    exact (h.setEntry _ _ _).bumpNextFree _ _ _ _
  · cases hr
    exact ((h.setEntry _ _ _).bumpNextFree _ _ _ _).bumpLogical _ _ _

lemma redoBlockRemaps (hr : redoBlockRemaps m' lsn blks = some m'') : Evolves trunc m m'' := by
  induction blks generalizing m' with
  | nil =>
    cases hr
    exact h
  | cons blk blks ih =>
    obtain ⟨m₁, h₁, h₂⟩ := Option.bind_eq_some_iff.mp hr
    exact ih (h.redoBlockRemap h₁) h₂

end Evolves

lemma MapMeta.publishLocally_evolves (m : MapMeta) (k : BlockKey) (pblk pos : Nat) :
    Evolves false m (m.publishLocally k pblk pos) :=
  ((((Evolves.refl m).setEntry _ _ _).bumpNextFree _ _ _ _).bumpCapacity _ _ _).bumpLogical _ _ _

def Record.isTruncate : Record → Bool
  | .smgrTruncate _ _ => true
  | _ => false

lemma redoRecord_evolves {r} (h : redoRecord m lsn materialized r = some m') :
    Evolves r.isTruncate m m' := by
  have hm : Evolves r.isTruncate m m := .refl m
  cases r with
  | mapSet key old =>
    cases h
    rcases old with _ | o
    · exact (((hm.setEntry _ _ _).bumpNextFree _ _ _ _).bumpLogical _ _ _).bumpCapacity _ _ _
    · cases materialized
      · exact (hm.setEntry _ _ _).bumpNextFree _ _ _ _
      · exact ((hm.setEntry _ _ _).bumpNextFree _ _ _ _).bumpCapacity _ _ _
  | rangeRemap =>
    cases h
    exact ((((hm.bumpCapacity _ _ _).setRange _ _ _).bumpNextFree _ _ _ _).bumpCapacity
      _ _ _).bumpLogical _ _ _
  | blockRemaps => exact hm.redoBlockRemaps h
  | smgrTruncate =>
    cases h
    exact (hm.clearRange _ _ _).setLogical rfl _ _ _
  | other =>
    cases h
    exact hm

end Umbra
