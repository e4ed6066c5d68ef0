import Umbra.Publication.Provenance

/-!
# WAL before metadata

`MapFlushWritePage` and `MapFlushWriteSuperblockEntry` flush the log up to the LSN of what they
write. That LSN is the one stored last, not the largest, and preallocation has no record at all.
-/

namespace Umbra

open Foundation MapMeta

variable {n : Nat} {e : Event n}

/-! ### The values of a superblock -/

inductive SuperField
  | count (c : Counter)
  | capacity
  deriving DecidableEq, Repr

def MapSuperblock.field (super : MapSuperblock) : SuperField → ForkNumber → Nat
  | .count c => super.count c
  | .capacity => super.capacity

/-- What a record carries for each of them: a record that names a physical block accounts for a
data file that reaches it. -/
def Record.carries (r : Record) : SuperField → ForkNumber → Nat
  | .count c => r.bump c
  | .capacity => r.bump .nextFree

/-- One field goes up, and the superblock takes the position with it. -/
structure Raised (entry entry' : MapSuperEntry) (x : SuperField) (fork : ForkNumber) (v lsn : Nat) :
    Prop where
  lt : entry.super.field x fork < v
  pageLsn : entry'.pageLsn = lsn
  self : entry'.super.field x fork = v
  other : ∀ y g, (y, g) ≠ (x, fork) → entry'.super.field y g = entry.super.field y g

def ForkCounts.field (c : ForkCounts) : SuperField → Option Nat
  | .count .logical => c.logicalNblocks
  | .count .nextFree => c.nextFreePhysBlock
  | .capacity => c.physCapacity

lemma MapSuperblock.field_eq (super : MapSuperblock) (x : SuperField) (fork : ForkNumber) :
    super.field x fork = mapNormalizeForkBlockCount fork ((super.counts fork).field x) := by
  rcases x with (_ | _) | _ <;> rfl

section Raised

variable (entry : MapSuperEntry) {fork : ForkNumber} {v lsn : Nat}

lemma Raised.of_store {c x} (hlt : entry.super.field x fork < v) (hx : c.field x = some v)
    (hy : ∀ y ≠ x, c.field y = (entry.super.counts fork).field y) :
    Raised entry (entry.store fork c lsn) x fork v lsn := by
  have hself : (entry.store fork c lsn).super.counts fork = c := Function.update_self ..
  refine ⟨hlt, rfl, ?_, fun y g hne => ?_⟩
  · rw [MapSuperblock.field_eq, hself, hx, mapNormalizeForkBlockCount_some]
  · rw [MapSuperblock.field_eq, MapSuperblock.field_eq]
    by_cases hg : g = fork
    · subst hg
      rw [hself, hy y fun h => hne (by rw [h])]
    · have hcounts : (entry.store fork c lsn).super.counts g = entry.super.counts g :=
        Function.update_of_ne hg ..
      rw [hcounts]

lemma MapSuperEntry.bumpLogicalNblocks_raised : entry.bumpLogicalNblocks fork v lsn = entry ∨
      Raised entry (entry.bumpLogicalNblocks fork v lsn) (.count .logical) fork v lsn := by
  unfold MapSuperEntry.bumpLogicalNblocks
  by_cases hlt : entry.super.logical fork < v
  · rw [if_pos hlt]
    refine .inr (.of_store entry hlt rfl fun y hy => ?_)
    rcases y with (_ | _) | _
    · exact absurd rfl hy
    · rfl
    · rfl
  · rw [if_neg hlt]
    exact .inl rfl

lemma MapSuperEntry.bumpNextFree_raised : entry.bumpNextFree fork v lsn false = entry ∨
      Raised entry (entry.bumpNextFree fork v lsn false) (.count .nextFree) fork v lsn := by
  unfold MapSuperEntry.bumpNextFree
  by_cases hlt : entry.super.nextFree fork < v
  · rw [if_pos hlt]
    have h : Raised entry (entry.store fork
        { entry.super.counts fork with nextFreePhysBlock := some v } lsn) (.count .nextFree)
        fork v lsn := by
      refine .of_store entry hlt rfl fun y hy => ?_
      rcases y with (_ | _) | _
      · rfl
      · exact absurd rfl hy
      · rfl
    exact .inr { h with }
  · rw [if_neg hlt]
    exact .inl rfl

lemma MapSuperEntry.bumpCapacity_raised : entry.bumpCapacity fork v lsn = entry ∨
      Raised entry (entry.bumpCapacity fork v lsn) .capacity fork v lsn := by
  unfold MapSuperEntry.bumpCapacity
  by_cases hlt : entry.super.capacity fork < v
  · rw [if_pos hlt]
    refine .inr (.of_store entry hlt rfl fun y hy => ?_)
    rcases y with (_ | _) | _
    · rfl
    · rfl
    · exact absurd rfl hy
  · rw [if_neg hlt]
    exact .inl rfl

end Raised

/-! ### The condition on stores -/

def State.superStore (s : State n) (b : Fin n) :
    Instr → Option (SuperField × ForkNumber × Nat × Stamp)
  | .bumpLogical fork m st => some (.count .logical, fork, m, st)
  | .bumpNextFree fork m => some (.count .nextFree, fork, m, .record)
  | .bumpCapacity fork m st => some (.capacity, fork, m, st)
  | .bumpCapacityMax fork =>
    (s.backends b).maxPblk.map fun p => (.capacity, fork, p + 1, .invalid)
  | _ => none

/-- The capacity of the forks in `pre`, which may be preallocated. -/
def SuperField.exempt (pre : ForkNumber → Bool) : SuperField → ForkNumber → Bool
  | .count _, _ => false
  | .capacity, fork => pre fork

/-- Storing `v` under `lsn` hides no larger LSN, and a value stored under the write pointer is
carried by a record in front of it. The second demand is not made of an exempt capacity. -/
def State.raiseOk (pre : ForkNumber → Bool) (s : State n) (x : SuperField) (fork : ForkNumber)
    (v lsn : Nat) (st : Stamp) : Bool :=
  s.mapMeta.entry.super.field x fork < v → s.mapMeta.entry.pageLsn ≤ max s.flushPtr lsn ∧
      (st = .invalid → x.exempt pre fork = false →
        (s.wal.take (max s.flushPtr s.writePtr)).any fun r => v ≤ r.carries x fork)

def superLsnOk (pre : ForkNumber → Bool) (s : State n) (e : Event n) : Bool :=
  match e with
  | .run b =>
    match (s.backends b).prog with
    | [] => true
    | i :: _ => (s.superStore b i).all fun (x, fork, v, st) =>
      s.raiseOk pre x fork v (s.stampLsn b st) st
  | .preallocate fork nblocks => s.raiseOk pre .capacity fork nblocks s.writePtr .invalid
  | _ => true

/-- A record in front of `m` carries the value. -/
def Carried (wal : List Record) (x : SuperField) (fork : ForkNumber) (v m : Nat) : Prop :=
  v = 0 ∨ ExistsBefore (fun r => v ≤ r.carries x fork) wal m

section Carried

variable {wal wal' : List Record} {x : SuperField} {fork : ForkNumber} {v v' m m' : Nat}

lemma Carried.transport (h : Carried wal x fork v m)
    (himp : ∀ P, ExistsBefore P wal m → ExistsBefore P wal' m') : Carried wal' x fork v m' :=
  Or.imp id (himp _) h

lemma Carried.of_le (h : Carried wal x fork v m) (hle : v' ≤ v) : Carried wal x fork v' m := by
  rcases h with rfl | ⟨i, hi, r, hr, hv⟩
  · exact .inl (Nat.le_zero.mp hle)
  · exact .inr ⟨i, hi, r, hr, hle.trans hv⟩

end Carried

/-- Every value of the superblock that is not exempt is carried by a record in front of the LSN the
superblock is stamped with, and on disk by a flushed one. -/
structure SuperSourced (pre : ForkNumber → Bool) (s : State n) : Prop where
  shared : ∀ x fork, x.exempt pre fork = false → Carried s.wal x fork
    (s.mapMeta.entry.super.field x fork) (max s.flushPtr s.mapMeta.entry.pageLsn)
  disk : ∀ x fork, x.exempt pre fork = false →
    Carried s.wal x fork (s.diskSuper.field x fork) s.flushPtr

/-! ### Updates and replay -/

section Fields

variable {s t : State n} {b : Fin n} {i : Instr} {lsn : Nat}

lemma Update.superblock {m} (h : Update s b i m) (hi : i.truncates = false) :
    m.entry = s.mapMeta.entry ∨
      ∃ x fork v st, s.superStore b i = some (x, fork, v, st) ∧
        Raised s.mapMeta.entry m.entry x fork v (s.stampLsn b st) := by
  cases h with
  | bumpLogical =>
    exact s.mapMeta.entry.bumpLogicalNblocks_raised.imp id fun h => ⟨_, _, _, _, rfl, h⟩
  | bumpNextFree =>
    exact s.mapMeta.entry.bumpNextFree_raised.imp id fun h => ⟨_, _, _, _, rfl, h⟩
  | bumpCapacity =>
    exact s.mapMeta.entry.bumpCapacity_raised.imp id fun h => ⟨_, _, _, _, rfl, h⟩
  | @bumpCapacityMax fork p hp =>
    refine s.mapMeta.entry.bumpCapacity_raised.imp id fun h =>
      ⟨.capacity, fork, p + 1, .invalid, ?_, h⟩
    rw [State.superStore, hp]
    rfl
  | setLogical => cases hi
  | _ => exact .inl rfl

lemma Backed.carries {wal} (hb : Backed wal lsn i) {x fork v}
    (hstore : s.superStore b i = some (x, fork, v, .record)) (hv : 0 < v) :
    ∃ r, RecordAt wal lsn r ∧ v ≤ r.carries x fork := by
  cases i with
  | bumpLogical =>
    cases hstore
    have hbump : (Instr.bumpLogical fork v .record).bump .logical fork = v := if_pos rfl
    rcases hb.counter rfl .logical fork with h | ⟨r, hr, hle⟩
    · omega
    · exact ⟨r, hr, hbump ▸ hle⟩
  | bumpNextFree =>
    cases hstore
    have hbump : (Instr.bumpNextFree fork v).bump .nextFree fork = v := if_pos rfl
    rcases hb.counter rfl .nextFree fork with h | ⟨r, hr, hle⟩
    · omega
    · exact ⟨r, hr, hbump ▸ hle⟩
  | bumpCapacity =>
    cases hstore
    have hbump : (Instr.bumpCapacity fork v .record).capacityBump fork = v := if_pos rfl
    rcases hb.capacity fork with h | ⟨r, hr, hle⟩
    · omega
    · exact ⟨r, hr, hbump ▸ hle⟩
  | bumpCapacityMax =>
    rw [State.superStore, Option.map_eq_some_iff] at hstore
    obtain ⟨p, -, heq⟩ := hstore
    cases heq
  | _ => cases hstore

lemma capacity_redoBlockRemaps {blks m m'} (h : redoBlockRemaps m lsn blks = some m') (fork) :
    m'.entry.super.capacity fork = m.entry.super.capacity fork := by
  induction blks generalizing m with
  | nil =>
    cases h
    rfl
  | cons blk blks ih =>
    obtain ⟨m₁, h₁, h₂⟩ := Option.bind_eq_some_iff.mp h
    rw [ih h₂]
    unfold redoBlockRemap at h₁
    split at h₁
    · cases h₁
    · split_ifs at h₁
      cases h₁
      simp [redoPublish, bumpNextFree]
    · cases h₁
      simp [redoPublish, bumpNextFree]
    · cases h₁
      simp [redoPublish, bumpNextFree, bumpLogical]

lemma field_redoRecord_le {m m' materialized r} (h : redoRecord m lsn materialized r = some m')
    (hr : ∀ fork nblocks, r ≠ .smgrTruncate fork nblocks) (x fork) :
    m'.entry.super.field x fork ≤ max (m.entry.super.field x fork) (r.carries x fork) := by
  cases x with
  | count c => exact le_of_eq ((redoRecord_spec h hr).2 c fork)
  | capacity =>
    change m'.entry.super.capacity fork ≤ max (m.entry.super.capacity fork) (r.bump .nextFree fork)
    cases r with
    | mapSet key old =>
      cases h
      by_cases hf : fork = key.1
      · subst hf
        rcases old with _ | o
        · simp [redoMapSet, bumpNextFree, bumpLogical, bumpCapacity, Record.bump]
        · cases materialized <;> simp [redoMapSet, bumpNextFree, bumpCapacity, Record.bump]
      · rcases old with _ | o
        · simp [redoMapSet, bumpNextFree, bumpLogical, bumpCapacity, hf]
        · cases materialized <;> simp [redoMapSet, bumpNextFree, bumpCapacity, hf]
    | rangeRemap f =>
      cases h
      by_cases hf : fork = f
      · subst hf
        simp [umApplyReservedRangeRemap, bumpNextFree, bumpLogical, bumpCapacity, Record.bump]
      · simp [umApplyReservedRangeRemap, bumpNextFree, bumpLogical, bumpCapacity, hf]
    | blockRemaps => exact (capacity_redoBlockRemaps h fork).le.trans (le_max_left _ _)
    | smgrTruncate f nblocks => exact absurd rfl (hr f nblocks)
    | other =>
      cases h
      exact le_max_left _ _

end Fields

/-! ### The invariant -/

namespace SuperSourced

variable {pre : ForkNumber → Bool} {s t : State n} (h : SuperSourced pre s)
include h

lemma grow {l} (hwal : t.wal = s.wal ++ l) (hflush : s.flushPtr ≤ t.flushPtr)
    (hsuper : t.mapMeta.entry.super = s.mapMeta.entry.super)
    (hlsn : t.mapMeta.entry.pageLsn = s.mapMeta.entry.pageLsn) (hdisk : t.diskSuper = s.diskSuper) :
    SuperSourced pre t where
  shared x fork hx := by
    rw [hwal, hsuper, hlsn]
    exact (h.shared x fork hx).transport fun _ he => (he.mono (by omega)).append
  disk x fork hx := by
    rw [hwal, hdisk]
    exact (h.disk x fork hx).transport fun _ he => (he.mono hflush).append

lemma congr (hwal : t.wal = s.wal) (hflush : t.flushPtr = s.flushPtr)
    (hsuper : t.mapMeta.entry.super = s.mapMeta.entry.super)
    (hlsn : t.mapMeta.entry.pageLsn = s.mapMeta.entry.pageLsn) (hdisk : t.diskSuper = s.diskSuper) :
    SuperSourced pre t :=
  h.grow (l := []) (by rw [hwal, List.append_nil]) hflush.ge hsuper hlsn hdisk

lemma raise {entry x fork v lsn} (hr : Raised s.mapMeta.entry entry x fork v lsn)
    (hok : s.mapMeta.entry.pageLsn ≤ max s.flushPtr lsn)
    (hnew : x.exempt pre fork = false →
      ExistsBefore (fun r => v ≤ r.carries x fork) s.wal (max s.flushPtr lsn)) :
    ∀ y g, y.exempt pre g = false →
      Carried s.wal y g (entry.super.field y g) (max s.flushPtr entry.pageLsn) := by
  intro y g hy
  rw [hr.pageLsn]
  by_cases hyg : (y, g) = (x, fork)
  · cases hyg
    rw [hr.self]
    exact .inr (hnew hy)
  · rw [hr.other y g hyg]
    exact (h.shared y g hy).transport fun _ he => he.mono (by omega)

lemma flushSuper (hrec : s.recovery ≠ none → s.wal.length ≤ s.flushPtr) :
    SuperSourced pre s.flushSuper := by
  refine ⟨fun x fork hx => ?_, fun x fork hx => ?_⟩
  · rw [State.wal_flushSuper, State.mapMeta_flushSuper]
    exact (h.shared x fork hx).transport fun _ he =>
      he.mono (max_le_max_right _ s.flushPtr_le_flushSuper)
  · rw [State.wal_flushSuper]
    refine (h.shared x fork hx).transport fun _ he => ?_
    by_cases hnone : s.recovery = none
    · refine he.mono (le_of_eq ?_)
      simp [State.flushSuper, hnone, State.xlogFlush]
    · exact he.of_length_le ((hrec hnone).trans s.flushPtr_le_flushSuper)

end SuperSourced

theorem SuperSourced.init (n : Nat) (pre) : SuperSourced pre (State.init n) := by
  have hzero : ∀ x fork, MapSuperblock.init.field x fork = 0 := by
    intro x fork
    rcases x with (_ | _) | _ <;> cases fork <;> rfl
  exact ⟨fun x fork _ => .inl (hzero x fork), fun x fork _ => .inl (hzero x fork)⟩

lemma State.raiseOk_spec {pre} {s : State n} {x : SuperField} {fork : ForkNumber} {v lsn : Nat}
    {st : Stamp} (h : s.raiseOk pre x fork v lsn st = true)
    (hlt : s.mapMeta.entry.super.field x fork < v) :
    s.mapMeta.entry.pageLsn ≤ max s.flushPtr lsn ∧
      (st = .invalid → x.exempt pre fork = false →
        ExistsBefore (fun r => v ≤ r.carries x fork) s.wal (max s.flushPtr s.writePtr)) := by
  obtain ⟨hlsn, hwritten⟩ := of_decide_eq_true h hlt
  refine ⟨hlsn, fun hst hx => ?_⟩
  obtain ⟨r, hr, hv⟩ := List.any_eq_true.mp (hwritten hst hx)
  exact .of_mem_take hr (of_decide_eq_true hv)

theorem SuperSourced.step {pre s t} (h : SuperSourced pre s) (hb : AllBacked s)
    (htr : TruncateFree s) (hrec : s.recovery ≠ none → s.wal.length ≤ s.flushPtr)
    (hok : superLsnOk pre s e = true) (hlocal : ∀ k, e ≠ .localBirth k) (hm : Move s e t) :
    SuperSourced pre t := by
  cases hm with
  | insert | insertOther | ckptRedo => exact h.grow rfl le_rfl rfl rfl rfl
  | @update b i rest m hprog hu =>
    have hi := (htr.of_cons hprog).1
    refine ⟨?_, h.disk⟩
    rcases hu.superblock hi with heq | ⟨x, fork, v, st, hstore, hr⟩
    · intro y g hy
      change Carried s.wal y g (m.entry.super.field y g) (max s.flushPtr m.entry.pageLsn)
      rw [heq]
      exact h.shared y g hy
    · have hraise : s.raiseOk pre x fork v (s.stampLsn b st) st = true := by
        simpa [superLsnOk, hprog, hstore] using hok
      obtain ⟨hlsn, hwritten⟩ := State.raiseOk_spec hraise hr.lt
      refine h.raise hr hlsn ?_
      cases st with
      | invalid => exact hwritten rfl
      | record =>
        intro _
        have hmem : i ∈ armed (s.backends b).prog := by
          rw [hprog, armed_cons, Instr.isBarrier_of_isPlain hu.isPlain]
          exact List.mem_cons_self
        obtain ⟨r, hat, hv⟩ := (hb b i hmem).carries hstore (Nat.zero_lt_of_lt hr.lt)
        exact hat.existsBefore hv (le_max_right _ _)
  | @preallocate fork nblocks =>
    refine ⟨?_, h.disk⟩
    have hraised : s.mapMeta.entry.bumpCapacity fork nblocks s.writePtr = s.mapMeta.entry ∨
      Raised _ _ _ _ _ _ :=
      s.mapMeta.entry.bumpCapacity_raised
    rcases hraised with heq | hr
    · intro y g hy
      change Carried s.wal y g
        ((s.mapMeta.entry.bumpCapacity fork nblocks s.writePtr).super.field y g)
        (max s.flushPtr (s.mapMeta.entry.bumpCapacity fork nblocks s.writePtr).pageLsn)
      rw [heq]
      exact h.shared y g hy
    · obtain ⟨hlsn, hwritten⟩ := State.raiseOk_spec hok hr.lt
      exact h.raise hr hlsn (hwritten rfl)
  | walFlush => exact h.grow (List.append_nil _).symm (le_max_left _ _) rfl rfl rfl
  | @flushPage page =>
    refine h.grow (l := []) (by simp) (s.flushPtr_le_flushPage page) rfl rfl (by simp)
  | flushSuper => exact h.flushSuper hrec
  | ckptSuper => exact (h.flushSuper hrec).congr rfl rfl rfl rfl rfl
  | ckptDone => exact h.grow rfl (le_max_left _ _) rfl rfl rfl
  | crash =>
    refine ⟨fun x fork hx => ?_, fun x fork hx => ?_⟩
    · exact (h.disk x fork hx).transport fun _ he => he.take.mono (le_max_left _ _)
    · exact (h.disk x fork hx).transport fun _ he => he.take
  | @redo materialized pos r m hpos hr hred =>
    have hlen := hrec (by rw [hpos]; exact Option.some_ne_none _)
    refine ⟨fun x fork hx => ?_, h.disk⟩
    have hle := field_redoRecord_le hred (htr.wal r (List.mem_of_getElem? hr)) x fork
    rcases le_max_iff.mp hle with hle | hle
    · refine Carried.of_le ?_ hle
      exact (h.shared x fork hx).transport fun _ he =>
        he.of_length_le (hlen.trans (le_max_left _ _))
    · have he : ExistsBefore (fun r => m.entry.super.field x fork ≤ r.carries x fork) s.wal
          (pos + 1) := ⟨pos, Nat.lt_succ_self pos, r, hr, hle⟩
      exact .inr (he.of_length_le (hlen.trans (le_max_left _ _)))
  | localBirth => exact absurd rfl (hlocal _)
  | _ => exact h.congr rfl rfl rfl rfl rfl

/-! ### What is on disk has its record flushed -/

def walOrderOk (pre : ForkNumber → Bool) (s : State n) (e : Event n) : Prop :=
  e.isTruncate = false ∧ pageLsnOk (fun _ => true) s e = true ∧ superLsnOk pre s e = true

instance (pre) (s : State n) (e : Event n) : Decidable (walOrderOk pre s e) :=
  inferInstanceAs (Decidable (_ ∧ _ ∧ _))

/-- What holds along every run that keeps to `walOrderOk`: the programs and their records agree, and
what the pages and the superblock hold, in memory and on disk, has its record. -/
structure WalOrderInvariant (pre : ForkNumber → Bool) (s : State n) : Prop where
  disciplined : Disciplined s
  backed : AllBacked s
  truncateFree : TruncateFree s
  entries : Sourced (fun _ => true) s
  values : SuperSourced pre s

theorem WalOrderInvariant.init (n : Nat) (pre) : WalOrderInvariant pre (State.init n) :=
  ⟨.init n, .init n, .init n, .init n _, .init n pre⟩

theorem WalOrderInvariant.step {pre s t} (h : WalOrderInvariant pre s) (hok : walOrderOk pre s e)
    (hs : (publication n).step s e = some t) : WalOrderInvariant pre t := by
  have hm := Move.of_step hs
  obtain ⟨htrunc, hpage, hsuper⟩ := hok
  have hlocal : ∀ k, e ≠ .localBirth k := by
    rintro k rfl
    cases hpage
  exact ⟨h.disciplined.step hm, h.backed.step h.disciplined hm, h.truncateFree.step htrunc hm,
    h.entries.step h.disciplined h.backed hpage hm,
    h.values.step h.backed h.truncateFree h.entries.recovering hsuper hlocal hm⟩

/-- In every run in which no store hides a larger LSN and every value stored under the write pointer
has been logged, all metadata on disk was produced by flushed records. Only the capacity of the
forks that are preallocated is not. -/
theorem metadata_on_disk_is_logged {pre : ForkNumber → Bool} {s : State n}
    (hs : (publication n).Reaches (walOrderOk pre) (State.init n) s) :
    (∀ k pblk, s.diskMap k = some pblk →
      ∃ i < s.flushPtr, ∃ r, s.wal[i]? = some r ∧ r.newPblk k = some pblk) ∧
    ∀ x fork, (x = .capacity → pre fork = false) → s.diskSuper.field x fork = 0 ∨
      ∃ i < s.flushPtr, ∃ r, s.wal[i]? = some r ∧ s.diskSuper.field x fork ≤ r.carries x fork := by
  have hinv : WalOrderInvariant pre s :=
    hs.invariant (.init n pre) fun h hok hstep => h.step hok hstep
  refine ⟨fun k pblk hk => ?_, fun x fork hx => ?_⟩
  · exact hinv.entries.disk k pblk rfl hk
  · refine hinv.values.disk x fork ?_
    cases x with
    | count => rfl
    | capacity => exact hx rfl

def publishInOrder (b c : Fin n) : List (Event n) :=
  [.reserve b (.main, 0), .reserve c (.main, 1), .startBlockRemaps b [((.main, 0), .image)],
    .run b, .run b, .startBlockRemaps c [((.main, 1), .image)], .run c, .run c,
    .run b, .run b, .run b, .run c, .run c, .run c, .flushPage (.main, 0), .flushSuper]

def publishPreallocated : State 2 :=
  ((publication 2).restrict (walOrderOk (· == .main))).after (.init 2)
    (.preallocate .main 8 :: publishInOrder 0 1)

theorem metadata_on_disk_is_logged_in_order : publishPreallocated.diskMap (.main, 1) = some 1 ∧
    publishPreallocated.diskSuper.field (.count .logical) .main = 2 ∧
    publishPreallocated.diskSuper.field .capacity .main = 8 ∧
    (∃ i < publishPreallocated.flushPtr, ∃ r, publishPreallocated.wal[i]? = some r ∧
      r.newPblk (.main, 1) = some 1) ∧
    ∃ i < publishPreallocated.flushPtr, ∃ r, publishPreallocated.wal[i]? = some r ∧
      2 ≤ r.carries (.count .logical) .main := by
  have hs : (publication 2).Reaches (walOrderOk (· == .main)) (.init 2) publishPreallocated :=
    .of_isSome (by decide)
  obtain ⟨hentries, hvalues⟩ := metadata_on_disk_is_logged hs
  refine ⟨by decide, by decide, by decide, hentries _ _ (by decide), ?_⟩
  exact (hvalues (.count .logical) .main nofun).resolve_left (by decide)

def publishOutOfOrder (b c : Fin n) : List (Event n) :=
  [.reserve b (.main, 0), .reserve c (.main, 1), .startBlockRemaps b [((.main, 0), .image)],
    .run b, .run b, .walFlush 1, .startBlockRemaps c [((.main, 1), .image)], .run c, .run c,
    .run c, .run b, .flushPage (.main, 0)]

/-- Preallocation puts a capacity on disk that no record carries; and a page goes to disk under the
smaller of two LSNs. -/
theorem metadata_on_disk_without_record :
    (∃ s : State 1, (publication 1).Reachable (State.init 1) s ∧
      s.diskSuper.field .capacity .main = 8 ∧ s.wal = []) ∧
    ∃ s : State 2, (publication 2).Reachable (State.init 2) s ∧ s.diskMap (.main, 1) = some 1 ∧
      ¬ ∃ i < s.flushPtr, ∃ r, s.wal[i]? = some r ∧ r.newPblk (.main, 1) = some 1 := by
  refine ⟨⟨(publication 1).after (State.init 1) [.preallocate .main 8, .flushSuper],
    .of_isSome (by decide), by decide, by decide⟩,
    ⟨(publication 2).after (State.init 2) (publishOutOfOrder 0 1), .of_isSome (by decide),
      by decide, ?_⟩⟩
  have hflush : ((publication 2).after (State.init 2) (publishOutOfOrder 0 1)).flushPtr = 1 := by
    decide
  have hfirst : ∀ r,
      ((publication 2).after (State.init 2) (publishOutOfOrder 0 1)).wal[0]? = some r →
      r.newPblk (.main, 1) = none := by
    intro r hr
    cases hr
    decide
  rintro ⟨i, hi, r, hr, hk⟩
  rw [hflush, Nat.lt_one_iff] at hi
  subst hi
  rw [hfirst r hr] at hk
  cases hk

section

variable {s : State n} (h : (publication n).Reachable (.init n) s)
include h

lemma logged_of_reachable : Disciplined s ∧ AllBacked s := by
  refine h.invariant (I := fun s => Disciplined s ∧ AllBacked s) ⟨.init n, .init n⟩ ?_
  rintro t e u ⟨hd, hb⟩ - hstep
  have hm := Move.of_step hstep
  exact ⟨hd.step hm, hb.step hd hm⟩

/-- A mapping is installed after a record that names it, under the LSN of that record. -/
theorem mapping_logged_first {b k pblk} {rest : List Instr}
    (hprog : (s.backends b).prog = .setMapping k pblk :: rest) :
    ∃ r, RecordAt s.wal (s.backends b).mapLsn r ∧ r.newPblk k = some pblk :=
  ((logged_of_reachable h).2 b _ (by simp [hprog, Instr.isBarrier])).mapping k pblk rfl

end

theorem mapping_logged_first_remap :
    ∃ r, RecordAt ((publication 2).after (.init 2) ((publishInOrder 0 1).take 8)).wal 1 r ∧
      r.newPblk (.main, 0) = some 0 :=
  mapping_logged_first (b := 0) (.of_isSome (by decide)) rfl

end Umbra
