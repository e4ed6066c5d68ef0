import Umbra.Publication.Accounts

/-!
# Counters and the records that raise them

The counters of the superblock are accounts: a record asks for the value it carries. The one gap is
a logical end that an extension path raises after its delay section.
-/

namespace Umbra

open Foundation Function List

variable {n : Nat}
variable {i : Instr} {m : MapMeta} {r : Record} {rest : List Instr} {e : Event n}

/-! ### Counters under the operations of the machine -/

def State.count (s : State n) (c : Counter) (fork : ForkNumber) : Nat :=
  s.mapMeta.entry.super.count c fork

open State

section Counters

variable {s t : State n} {c : Counter} {fork : ForkNumber} {b : Fin n}

lemma Update.count (h : Update s b i m) (hc : c = .nextFree ∨ i.truncates = false) :
    m.entry.super.count c fork = max (s.count c fork) (i.bump c fork) := by
  cases h with
  | bumpLogical =>
    cases c <;> simp [State.count, Instr.bump]
  | bumpNextFree =>
    cases c <;> simp [State.count, Instr.bump]
  | bumpCapacity | bumpCapacityMax =>
    rw [MapMeta.count_bumpCapacity]
    cases c <;> exact (Nat.max_zero _).symm
  | setLogical =>
    rcases hc with rfl | hi
    · rw [MapMeta.nextFree_setLogical]
      exact (Nat.max_zero _).symm
    · cases hi
  | _ => cases c <;> exact (Nat.max_zero _).symm

lemma Update.evolves (h : Update s b i m) : Evolves i.truncates s.mapMeta m := by
  have hm : Evolves i.truncates s.mapMeta s.mapMeta := .refl _
  cases h with
  | setMapping => exact hm.setEntry _ _ _
  | bumpLogical => exact hm.bumpLogical _ _ _
  | bumpNextFree => exact hm.bumpNextFree _ _ _ _
  | bumpCapacity | bumpCapacityMax => exact hm.bumpCapacity _ _ _
  | bumpCapacityNone => exact hm
  | clearEntry => exact hm.setEntry _ _ _
  | setLogical => exact hm.setLogical rfl _ _ _

lemma redoRecord_count {m' lsn materialized} (h : redoRecord m lsn materialized r = some m')
    (hc : c = .nextFree ∨ ∀ fork nblocks, r ≠ .smgrTruncate fork nblocks) :
    m'.entry.super.count c fork = max (m.entry.super.count c fork) (r.bump c fork) := by
  by_cases hr : ∀ fork nblocks, r ≠ .smgrTruncate fork nblocks
  · exact (redoRecord_spec h hr).2 c fork
  · rcases hc with rfl | hr'
    · push Not at hr
      obtain ⟨f, nblocks, rfl⟩ := hr
      cases h
      simp [redoTruncate, Record.bump]
    · exact absurd hr' hr

lemma State.localBirth_count {pos k} (h : s.localBirth pos k = some t) :
    s.count c fork ≤ t.count c fork := by
  obtain ⟨⟨pblk, entry⟩, hres, rfl⟩ := Option.map_eq_some_iff.mp h
  have hentry : entry.super = s.mapMeta.entry.super := by
    unfold MapSuperEntry.reserveFresh at hres
    split_ifs at hres
    cases hres
    rfl
  simp only [State.count, MapMeta.count_publishLocally, hentry]
  exact le_max_left _ _

end Counters

/-! ### The account of a counter -/

def Instr.isLate : Instr → Bool
  | .bumpLogical _ _ .invalid => true
  | _ => false

/-- When a checkpoint writes the superblock, no extension that logged a birth in front of the
redo pointer has yet to raise the logical end. -/
def lateOk (s : State n) (e : Event n) : Bool :=
  match e, s.ckpt with
  | .ckptSuper, .flushing redo [] =>
    ∀ b, (s.backends b).firstLsn ≠ 0 → (s.backends b).firstLsn ≤ redo →
      ∀ i ∈ (s.backends b).prog, i.isLate = false
  | _, _ => true

lemma Instr.lateBump_of_isLate (h : i.isLate = false) (fork) : i.lateBump fork = 0 := by
  cases i with
  | bumpLogical f m st => cases st <;> [rfl; cases h]
  | _ => rfl

lemma Instr.bump_of_updates (h : i.updates = false) (c fork) : i.bump c fork = 0 := by
  cases i <;> first | (cases h; done) | (cases c <;> rfl)

def counterAccount (c : Counter) (fork : ForkNumber) : Account where
  done m r := r.bump c fork ≤ m.entry.super.count c fork
  asks r j := r.bump c fork ≤ j.bump c fork
  late r j := c = .logical ∧ r.bump c fork ≤ j.lateBump fork
  page := none
  late_page _ _ _ := rfl
  idle r j hj h m := by
    have hzero := j.bump_of_updates hj c fork
    rcases h with h | ⟨rfl, h⟩
    · omega
    · have := j.lateBump_le_bump fork
      omega
  other m := by cases c <;> exact Nat.zero_le _
  covers r rest h := by
    rcases h.2.2 c fork with hzero | h | ⟨hlog, j, hj, hle⟩
    · exact .inl fun m => by omega
    · exact .inr (.inl h)
    · exact .inr (.inr ⟨j, hj, hlog, hle⟩)

/-- Every record finds its counter raised: in memory or by a program on its way, and on disk in
front of the redo pointer. -/
structure Covered (c : Counter) (fork : ForkNumber) (s : State n) : Prop
    extends (counterAccount c fork).Balanced s where
  disk_le : s.diskSuper.count c fork ≤ s.count c fork

theorem Covered.init (n : Nat) (c : Counter) (fork : ForkNumber) :
    Covered c fork (State.init n) := ⟨.init n _, le_rfl⟩

section Step

variable {s t : State n} {c : Counter} {fork : ForkNumber}

lemma Update.bump_le (h : Update s b i m) : i.bump c fork ≤ m.entry.super.count c fork := by
  cases hi : i.truncates with
  | false => exact le_of_le_of_eq (le_max_right _ _) (h.count (.inr hi)).symm
  | true =>
    refine le_of_eq_of_le ?_ (Nat.zero_le _)
    cases i <;> first | (cases hi; done) | (cases c <;> rfl)

lemma Move.count_le (hm : Move s e t) (hcrash : e ≠ .crash) (hc : c = .nextFree ∨ TruncateFree s) :
    s.count c fork ≤ t.count c fork := by
  have hle : s.count c fork ≤ s.count c fork := le_rfl
  cases hm with
  | update hprog hu =>
    refine le_of_le_of_eq (le_max_left _ _) (hu.count (hc.imp id fun h => ?_)).symm
    exact (h.of_cons hprog).1
  | preallocate => exact (MapMeta.count_bumpCapacity ..).ge
  | flushSuper | ckptSuper =>
    change _ ≤ s.flushSuper.mapMeta.entry.super.count c fork
    rw [mapMeta_flushSuper]
    exact hle
  | crash => exact absurd rfl hcrash
  | redo hrec hr hred =>
    refine le_of_le_of_eq (le_max_left _ _) (redoRecord_count hred ?_).symm
    exact hc.imp id fun h => h.wal _ (mem_of_getElem? hr)
  | localBirth hrec haux hmap ht => exact localBirth_count ht
  | _ => exact hle

lemma Move.diskSuper_cases (hm : Move s e t) (hcrash : e ≠ .crash) : t.diskSuper = s.diskSuper ∨
    t.diskSuper = s.mapMeta.entry.super ∧ t.mapMeta = s.mapMeta := by
  cases hm with
  | flushPage => exact .inl (s.diskSuper_flushPage _)
  | flushSuper | ckptSuper => exact .inr ⟨rfl, mapMeta_flushSuper s⟩
  | crash => exact absurd rfl hcrash
  | localBirth hrec haux hmap ht =>
    obtain ⟨p, -, rfl⟩ := Option.map_eq_some_iff.mp ht
    exact .inl rfl
  | _ => exact .inl rfl

lemma le_count_of_lateOk (hok : c = .nextFree ∨ lateOk s .ckptSuper = true) {redo}
    (hckpt : s.ckpt = .flushing redo []) {i} (hi : i < redo)
    (h : (counterAccount c fork).Owed s i r) : r.bump c fork ≤ s.count c fork := by
  obtain ⟨b, hne, hfirst, j, hj, hlog, hle⟩ := h
  rcases hok with hnext | hok
  · rw [hnext] at hlog
    cases hlog
  · simp only [lateOk, hckpt, decide_eq_true_eq] at hok
    have hlate := hok b hne (by omega) j hj
    rw [Instr.lateBump_of_isLate hlate] at hle
    omega

namespace Covered

lemma kept (h : Covered c fork s) (hm : Move s e t) (hcrash : e ≠ .crash)
    (hc : c = .nextFree ∨ TruncateFree s) : (counterAccount c fork).Kept s t := by
  refine .of_move (fun r hr => hr.trans (hm.count_le hcrash hc)) (fun r hr => hr.trans ?_) hm hcrash
    fun {_ i _} hu r hr => ?_
  · change s.diskSuper.count c fork ≤ t.diskSuper.count c fork
    rcases hm.diskSuper_cases hcrash with heq | ⟨heq, -⟩
    · rw [heq]
    · rw [heq]
      exact h.disk_le
  · refine le_trans ?_ hu.bump_le
    rcases hr with hr | ⟨rfl, hr⟩
    · exact hr
    · exact hr.trans (i.lateBump_le_bump fork)

/-- Every step keeps the records accounted for, as long as no checkpoint overtakes a late update
of the logical end. -/
theorem step (h : Covered c fork s) (hd : Disciplined s) (hpos : Positioned s)
    (hc : c = .nextFree ∨ TruncateFree s ∧ lateOk s e = true) (hm : Move s e t) :
    Covered c fork t := by
  have hcount : c = .nextFree ∨ TruncateFree s := hc.imp id And.left
  refine ⟨h.toBalanced.step hd hpos hm (fun hcrash => h.kept hm hcrash hcount) nofun nofun ?_ ?_ ?_,
    ?_⟩
  · rintro redo rfl hckpt i hi r howed
    exact le_count_of_lateOk (hc.imp id And.right) hckpt hi howed
  · rintro - rfl r hr
    cases hm with
    | ckptSuper => exact hr
    | start hrec hidle hbegin => cases hbegin
  · rintro pos r ⟨materialized, rfl⟩ hrec hr
    cases hm with
    | redo hrec' hr' hred =>
      cases hrec.symm.trans hrec'
      cases hr.symm.trans hr'
      refine le_of_le_of_eq (le_max_right _ _) (redoRecord_count hred ?_).symm
      exact hcount.imp id fun h => h.wal _ (mem_of_getElem? hr)
    | start hrec hidle hbegin => cases hbegin
  · by_cases hcrash : e = .crash
    · subst hcrash
      cases hm with
      | crash => exact le_rfl
      | start hrec hidle hbegin => cases hbegin
    · rcases hm.diskSuper_cases hcrash with heq | ⟨heq, hmeta⟩
      · rw [heq]
        exact h.disk_le.trans (hm.count_le hcrash hcount)
      · rw [heq, State.count, hmeta]

end Covered

end Step

end Umbra
