import Umbra.Publication.Machine

/-!
# Inversion of the machine's steps

`Move s e t` lists what a step of the machine can do, with the guard of every step as a hypothesis
and the resulting state spelled out. Operations that begin by handing a program to a backend share
one constructor (`Begin`), and so do the actions that change nothing but the metadata (`Update`).
-/

namespace Umbra

open Foundation Function State Option

variable {n : Nat} {e : Event n} {t : State n}

namespace State

def reserveAt (s : State n) (b : Fin n) (k : BlockKey) : State n :=
  { s with
    mapMeta := { s.mapMeta with
      entry := { s.mapMeta.entry with
        reservedNextFree := update s.mapMeta.entry.reservedNextFree k.1
          (s.mapMeta.entry.reservedNextFree k.1 + 1) } }
    claims := update s.claims k (some ⟨b, s.mapMeta.entry.reservedNextFree k.1,
      ((s.backends b).lookedUp.bind fun (k', old) => if k' = k then old else none)⟩)
    handedOut := (k, s.mapMeta.entry.reservedNextFree k.1) :: s.handedOut }

def dropClaim (s : State n) (k : BlockKey) : State n :=
  { s with claims := update s.claims k none }

def expandBirth (s : State n) (b : Fin n) (rest : List Instr) (k : BlockKey) (extend : Bool)
    (pblk : Nat) : State n :=
  s.setBackend b { s.backends b with
      maxPblk := some (max pblk ((s.backends b).maxPblk.getD 0))
      prog := if extend then umextendBirth k pblk ++ rest else umPublishMappedBirth k pblk ++ rest }

def skipBirth (s : State n) (b : Fin n) (rest : List Instr) (k : BlockKey) (extend : Bool)
    (pblk : Nat) : State n :=
  s.setBackend b { s.backends b with
      maxPblk := some (max pblk ((s.backends b).maxPblk.getD 0))
      prog := if extend then .bumpCapacity k.1 (pblk + 1) .invalid :: rest else rest }

def insertRecord (s : State n) (b : Fin n) (r : Record) (rest : List Instr) : State n :=
  { s with wal := s.wal ++ [r] }.setBackend b { s.backends b with
      firstLsn := if (s.backends b).firstLsn = 0 then s.wal.length + 1 else (s.backends b).firstLsn
      mapLsn := s.wal.length + 1
      prog := rest }

lemma prog_insertRecord_self (s : State n) (b : Fin n) (r : Record) (rest : List Instr) :
    ((s.insertRecord b r rest).backends b).prog = rest := by
  simp [insertRecord, setBackend]

lemma lookedUp_insertRecord (s : State n) (b b' : Fin n) (r : Record) (rest : List Instr) :
    ((s.insertRecord b r rest).backends b').lookedUp = (s.backends b').lookedUp := by
  by_cases hb : b' = b
  · subst hb
    simp [insertRecord, setBackend]
  · simp [insertRecord, setBackend, update_of_ne hb]

lemma claims_reserveAt_self (s : State n) (b : Fin n) (k : BlockKey) :
    (s.reserveAt b k).claims k = some ⟨b, s.mapMeta.entry.reservedNextFree k.1,
      ((s.backends b).lookedUp.bind fun (k', old) => if k' = k then old else none)⟩ :=
  update_self ..

variable {s : State n} {b : Fin n} {k : BlockKey}

lemma claims_reserveAt_of_ne {k'} (h : k' ≠ k) : (s.reserveAt b k).claims k' = s.claims k' :=
  update_of_ne h ..

lemma reserveFresh_eq_some (h : s.reserveFresh b k = some t) :
    s.claims k = none ∧ t = s.reserveAt b k := by
  unfold reserveFresh MapSuperEntry.reserveFresh at h
  split_ifs at h with hc hmax
  · cases h
  · cases h
    exact ⟨hc, rfl⟩

lemma ownedPblk_eq_some {pblk} :
    s.ownedPblk b k = some pblk ↔ ∃ c, s.claims k = some c ∧ c.owner = b ∧ c.pblk = pblk := by
  simp only [ownedPblk, bind_eq_some_iff, ite_none_right_eq_some, Option.some.injEq]

end State

/-! ### What a write of a MAP page or of the superblock leaves alone -/

namespace State

variable (s : State n) (page : MapPageId)

@[simp] lemma wal_flushPage : (s.flushPage page).wal = s.wal := by
  unfold flushPage xlogFlush; split_ifs <;> rfl
@[simp] lemma claims_flushPage : (s.flushPage page).claims = s.claims := by
  unfold flushPage xlogFlush; split_ifs <;> rfl
@[simp] lemma backends_flushPage : (s.flushPage page).backends = s.backends := by
  unfold flushPage xlogFlush; split_ifs <;> rfl
@[simp] lemma recovery_flushPage : (s.flushPage page).recovery = s.recovery := by
  unfold flushPage xlogFlush; split_ifs <;> rfl
@[simp] lemma redoPtr_flushPage : (s.flushPage page).redoPtr = s.redoPtr := by
  unfold flushPage xlogFlush; split_ifs <;> rfl
@[simp] lemma diskSuper_flushPage : (s.flushPage page).diskSuper = s.diskSuper := by
  unfold flushPage xlogFlush; split_ifs <;> rfl
@[simp] lemma handedOut_flushPage : (s.flushPage page).handedOut = s.handedOut := by
  unfold flushPage xlogFlush; split_ifs <;> rfl

lemma flushPtr_le_flushPage : s.flushPtr ≤ (s.flushPage page).flushPtr := by
  unfold flushPage xlogFlush
  split_ifs
  · exact le_max_left _ _
  · exact le_rfl

@[simp] lemma wal_flushSuper : s.flushSuper.wal = s.wal := by
  unfold flushSuper xlogFlush; split_ifs <;> rfl
@[simp] lemma mapMeta_flushSuper : s.flushSuper.mapMeta = s.mapMeta := by
  unfold flushSuper xlogFlush; split_ifs <;> rfl
@[simp] lemma claims_flushSuper : s.flushSuper.claims = s.claims := by
  unfold flushSuper xlogFlush; split_ifs <;> rfl
@[simp] lemma backends_flushSuper : s.flushSuper.backends = s.backends := by
  unfold flushSuper xlogFlush; split_ifs <;> rfl
@[simp] lemma recovery_flushSuper : s.flushSuper.recovery = s.recovery := by
  unfold flushSuper xlogFlush; split_ifs <;> rfl
@[simp] lemma redoPtr_flushSuper : s.flushSuper.redoPtr = s.redoPtr := by
  unfold flushSuper xlogFlush; split_ifs <;> rfl
@[simp] lemma ckpt_flushSuper : s.flushSuper.ckpt = s.ckpt := by
  unfold flushSuper xlogFlush; split_ifs <;> rfl
@[simp] lemma diskMap_flushSuper : s.flushSuper.diskMap = s.diskMap := by
  unfold flushSuper xlogFlush; split_ifs <;> rfl
@[simp] lemma handedOut_flushSuper : s.flushSuper.handedOut = s.handedOut := by
  unfold flushSuper xlogFlush; split_ifs <;> rfl

lemma flushPtr_le_flushSuper : s.flushPtr ≤ s.flushSuper.flushPtr := by
  unfold flushSuper xlogFlush
  split_ifs
  · exact le_max_left _ _
  · exact le_rfl

lemma reserved_le_reserveAt (s : State n) (b : Fin n) (k : BlockKey) (fork : ForkNumber) :
    s.mapMeta.entry.reservedNextFree fork
      ≤ (s.reserveAt b k).mapMeta.entry.reservedNextFree fork :=
  le_update_self_iff.mpr (Nat.le_succ _) fork

end State

lemma claims_of_update_none {s : State n} {k k' : BlockKey} {c : Claim n}
    (h : update s.claims k none k' = some c) : s.claims k' = some c := by
  rw [update_apply] at h
  split_ifs at h
  exact h

inductive Begin (s : State n) : Event n → Fin n → List Instr → Prop
  | blockRemaps {b blocks blks} (hnd : (blocks.map Prod.fst).Nodup)
      (h : s.assemble b blocks = some blks) :
      Begin s (.startBlockRemaps b blocks) b (xlogInsertRemaps blks)
  | range {b fork first count pblks} (hpos : 0 < count)
      (h : s.ownedRange b fork first count = some pblks) :
      Begin s (.startRange b fork first count) b (firstbornRangeRemap fork first pblks)
  | extend {b k} (h : k.2 ≤ s.mapMeta.entry.super.logical k.1) :
      Begin s (.startExtend b k) b (umextend k)
  | zeroExtend {b fork first count} (hpos : 0 < count) :
      Begin s (.startZeroExtend b fork first count) b (umzeroextend fork first count)
  | relocate {b k old new} (hnew : s.ownedPblk b k = some new) (hold : s.mapMeta.map k = some old) :
      Begin s (.startRelocate b k) b (mapCompactorRelocateEntry k old new)
  | truncate {b fork nblocks} :
      Begin s (.startTruncate b fork nblocks) b (relationTruncate fork nblocks)

/-- The metadata after one action of a program. -/
inductive Update (s : State n) (b : Fin n) : Instr → MapMeta → Prop
  | setMapping {k pblk} :
      Update s b (.setMapping k pblk) (s.mapMeta.setEntry k (some pblk) (s.backends b).mapLsn)
  | bumpLogical {fork m st} :
      Update s b (.bumpLogical fork m st) (s.mapMeta.bumpLogical fork m (s.stampLsn b st))
  | bumpNextFree {fork m} :
      Update s b (.bumpNextFree fork m) (s.mapMeta.bumpNextFree fork m (s.backends b).mapLsn false)
  | bumpCapacity {fork m st} :
      Update s b (.bumpCapacity fork m st) (s.mapMeta.bumpCapacity fork m (s.stampLsn b st))
  | bumpCapacityMax {fork p} (h : (s.backends b).maxPblk = some p) :
      Update s b (.bumpCapacityMax fork) (s.mapMeta.bumpCapacity fork (p + 1) s.writePtr)
  | bumpCapacityNone {fork} (h : (s.backends b).maxPblk = none) :
      Update s b (.bumpCapacityMax fork) s.mapMeta
  | clearEntry {k lsn} : Update s b (.clearEntry k lsn) (s.mapMeta.setEntry k none lsn)
  | setLogical {fork m lsn} :
      Update s b (.setLogical fork m lsn) (s.mapMeta.setLogical fork m lsn)

/-- The steps of the machine, one constructor for each branch of `State.step`. -/
inductive Move (s : State n) : Event n → State n → Prop
  | lookup {b k} (hrec : s.recovery = none) (hidle : (s.backends b).prog = []) :
      Move s (.lookup b k)
        (s.setBackend b { s.backends b with lookedUp := some (k, s.mapMeta.map k) })
  | reserve {b k} (hrec : s.recovery = none) (hidle : (s.backends b).prog = [])
      (hfree : s.claims k = none) : Move s (.reserve b k) (s.reserveAt b k)
  | abort {b k c} (hrec : s.recovery = none) (hidle : (s.backends b).prog = [])
      (hc : s.claims k = some c) (hb : c.owner = b) : Move s (.abort b k) (s.dropClaim k)
  | start {e b prog} (hrec : s.recovery = none) (hidle : (s.backends b).prog = [])
      (h : Begin s e b prog) : Move s e (s.start b prog)
  | delayStart {b rest} (hprog : (s.backends b).prog = .delayStart :: rest) :
      Move s (.run b) (s.setBackend b { s.backends b with delayChkptStart := true, prog := rest })
  | delayEnd {b rest} (hprog : (s.backends b).prog = .delayEnd :: rest) :
      Move s (.run b) (s.setBackend b { s.backends b with delayChkptStart := false, prog := rest })
  | insert {b r rest} (hprog : (s.backends b).prog = .insert r :: rest) :
      Move s (.run b) (s.insertRecord b r rest)
  | update {b i rest m} (hprog : (s.backends b).prog = i :: rest) (h : Update s b i m) :
      Move s (.run b) ((s.setMeta m).setProg b rest)
  | release {b k rest} (hprog : (s.backends b).prog = .release k :: rest) :
      Move s (.run b) ((s.dropClaim k).setProg b rest)
  | birthMapped {b k extend rest pblk} (hprog : (s.backends b).prog = .birth k extend :: rest)
      (hmap : s.mapMeta.map k = some pblk) : Move s (.run b) (s.skipBirth b rest k extend pblk)
  | birthOwned {b k extend rest pblk} (hprog : (s.backends b).prog = .birth k extend :: rest)
      (hmap : s.mapMeta.map k = none) (hown : s.ownedPblk b k = some pblk) :
      Move s (.run b) (s.expandBirth b rest k extend pblk)
  | birthFresh {b k extend rest} (hprog : (s.backends b).prog = .birth k extend :: rest)
      (hmap : s.mapMeta.map k = none) (hfree : s.claims k = none) :
      Move s (.run b) ((s.reserveAt b k).expandBirth b rest k extend
        (s.mapMeta.entry.reservedNextFree k.1))
  | umtruncate {b fork m rest} (hprog : (s.backends b).prog = .umtruncate fork m :: rest) :
      Move s (.run b) (s.setProg b
        (umtruncateTail fork (s.mapMeta.entry.super.logical fork) m s.writePtr ++ rest))
  | insertOther (hrec : s.recovery = none) :
      Move s .insertOther { s with wal := s.wal ++ [Record.other] }
  | preallocate {fork nblocks} (hrec : s.recovery = none) :
      Move s (.preallocate fork nblocks)
        (s.setMeta (s.mapMeta.bumpCapacity fork nblocks s.writePtr))
  | walWrite {lsn} :
      Move s (.walWrite lsn) { s with writePtr := max s.writePtr (min lsn s.wal.length) }
  | walFlush {lsn} : Move s (.walFlush lsn) (s.xlogFlush (min lsn s.wal.length))
  | flushPage {page} (hdirty : page ∈ s.mapMeta.dirtyPages) :
      Move s (.flushPage page) (s.flushPage page)
  | flushSuper : Move s .flushSuper s.flushSuper
  | ckptRedo (hckpt : s.ckpt = .idle) (hrec : s.recovery = none) :
      Move s .ckptRedo { s with ckpt := .published s.wal.length, wal := s.wal ++ [Record.other] }
  | ckptCollect {redo} (hckpt : s.ckpt = .published redo) :
      Move s .ckptCollect { s with ckpt := .waiting redo ((List.finRange n).filter fun b =>
        (s.backends b).delayChkptStart) }
  | ckptWait {redo delaying} (hckpt : s.ckpt = .waiting redo delaying)
      (hdone : ∀ b ∈ delaying, (s.backends b).delayChkptStart = false) :
      Move s .ckptWait { s with ckpt := .flushing redo s.mapMeta.dirtyPages }
  | ckptSuper {redo} (hckpt : s.ckpt = .flushing redo []) :
      Move s .ckptSuper { s.flushSuper with ckpt := .flushed redo }
  | ckptDone {redo} (hckpt : s.ckpt = .flushed redo) :
      Move s .ckptDone ({ s with ckpt := .idle, redoPtr := redo, wal := s.wal ++ [Record.other]
        }.xlogFlush (s.wal.length + 1))
  | crash : Move s .crash s.crash
  | redo {materialized pos r m} (hrec : s.recovery = some pos) (hr : s.wal[pos]? = some r)
      (hm : redoRecord s.mapMeta (pos + 1) materialized r = some m) :
      Move s (.redo materialized) { s with mapMeta := m, recovery := some (pos + 1) }
  | localBirth {k pos t} (hrec : s.recovery = some pos) (haux : k.1 ≠ .main)
      (hmap : s.mapMeta.map k = none) (ht : s.localBirth pos k = some t) : Move s (.localBirth k) t
  | endRecovery (hrec : s.recovery = some s.wal.length) :
      Move s .endRecovery { s with recovery := none }

namespace State

lemma canStart_iff {s : State n} {b : Fin n} :
    s.canStart b = true ↔ s.recovery = none ∧ (s.backends b).prog = [] := by
  simp [canStart]

end State

lemma Move.of_exec {s b i rest} (hprog : (s.backends b).prog = i :: rest)
    (h : s.exec b rest i = some t) : Move s (.run b) t := by
  cases i with
  | delayStart => cases h; exact .delayStart hprog
  | delayEnd => cases h; exact .delayEnd hprog
  | insert => cases h; exact .insert hprog
  | setMapping => cases h; exact .update hprog .setMapping
  | bumpLogical => cases h; exact .update hprog .bumpLogical
  | bumpNextFree => cases h; exact .update hprog .bumpNextFree
  | bumpCapacity => cases h; exact .update hprog .bumpCapacity
  | bumpCapacityMax =>
    rw [exec] at h
    split at h
    · rename_i p hp
      cases h
      exact .update hprog (.bumpCapacityMax hp)
    · rename_i hp
      cases h
      exact .update hprog (.bumpCapacityNone hp)
  | release => cases h; exact .release hprog
  | birth =>
    rw [exec, execBirth] at h
    split at h
    · rename_i pblk hmap
      cases h
      exact .birthMapped hprog hmap
    · rename_i hmap
      obtain ⟨s', hs', ht⟩ := bind_eq_some_iff.mp h
      obtain ⟨pblk, hown, rfl⟩ := map_eq_some_iff.mp ht
      split_ifs at hs' with hsome
      · cases hs'
        exact .birthOwned hprog hmap hown
      · obtain ⟨hfree, rfl⟩ := reserveFresh_eq_some hs'
        obtain ⟨c, hc, -, rfl⟩ := ownedPblk_eq_some.mp hown
        rw [claims_reserveAt_self, Option.some.injEq] at hc
        subst hc
        exact .birthFresh hprog hmap hfree
  | umtruncate => cases h; exact .umtruncate hprog
  | clearEntry => cases h; exact .update hprog .clearEntry
  | setLogical => cases h; exact .update hprog .setLogical

theorem Move.of_step {s} (h : (publication n).step s e = some t) : Move s e t := by
  cases e with
  | lookup =>
    obtain ⟨hst, h⟩ := ite_none_right_eq_some.mp h
    obtain ⟨hrec, hidle⟩ := canStart_iff.mp hst
    cases h
    exact .lookup hrec hidle
  | reserve =>
    obtain ⟨hst, h⟩ := ite_none_right_eq_some.mp h
    obtain ⟨hrec, hidle⟩ := canStart_iff.mp hst
    obtain ⟨hfree, rfl⟩ := reserveFresh_eq_some h
    exact .reserve hrec hidle hfree
  | abort =>
    obtain ⟨⟨hst, hown⟩, h⟩ := ite_none_right_eq_some.mp h
    obtain ⟨hrec, hidle⟩ := canStart_iff.mp hst
    obtain ⟨p, hp⟩ := isSome_iff_exists.mp hown
    obtain ⟨c, hc, hb, -⟩ := ownedPblk_eq_some.mp hp
    cases h
    exact .abort hrec hidle hc hb
  | startBlockRemaps =>
    obtain ⟨⟨hst, hnd⟩, h⟩ := ite_none_right_eq_some.mp h
    obtain ⟨hrec, hidle⟩ := canStart_iff.mp hst
    obtain ⟨blks, hblks, rfl⟩ := map_eq_some_iff.mp h
    exact .start hrec hidle (.blockRemaps hnd hblks)
  | startRange =>
    obtain ⟨⟨hst, hpos⟩, h⟩ := ite_none_right_eq_some.mp h
    obtain ⟨hrec, hidle⟩ := canStart_iff.mp hst
    obtain ⟨pblks, hpblks, rfl⟩ := map_eq_some_iff.mp h
    exact .start hrec hidle (.range hpos hpblks)
  | startExtend =>
    obtain ⟨⟨hst, hle⟩, h⟩ := ite_none_right_eq_some.mp h
    obtain ⟨hrec, hidle⟩ := canStart_iff.mp hst
    cases h
    exact .start hrec hidle (.extend hle)
  | startZeroExtend =>
    obtain ⟨⟨hst, hpos⟩, h⟩ := ite_none_right_eq_some.mp h
    obtain ⟨hrec, hidle⟩ := canStart_iff.mp hst
    cases h
    exact .start hrec hidle (.zeroExtend hpos)
  | startRelocate =>
    obtain ⟨hst, h⟩ := ite_none_right_eq_some.mp h
    obtain ⟨hrec, hidle⟩ := canStart_iff.mp hst
    obtain ⟨new, hnew, h⟩ := bind_eq_some_iff.mp h
    obtain ⟨old, hold, rfl⟩ := map_eq_some_iff.mp h
    exact .start hrec hidle (.relocate hnew hold)
  | startTruncate =>
    obtain ⟨hst, h⟩ := ite_none_right_eq_some.mp h
    obtain ⟨hrec, hidle⟩ := canStart_iff.mp hst
    cases h
    exact .start hrec hidle .truncate
  | run =>
    simp only [publication] at h
    split at h
    · cases h
    · rename_i i rest hprog
      exact Move.of_exec hprog h
  | insertOther =>
    obtain ⟨hrec, rfl⟩ := guard_eq_some h
    exact .insertOther hrec
  | preallocate =>
    obtain ⟨hrec, rfl⟩ := guard_eq_some h
    exact .preallocate hrec
  | walWrite => cases h; exact .walWrite
  | walFlush => cases h; exact .walFlush
  | flushPage =>
    obtain ⟨hdirty, rfl⟩ := guard_eq_some h
    exact .flushPage hdirty
  | flushSuper => cases h; exact .flushSuper
  | ckptRedo =>
    obtain ⟨⟨hckpt, hrec⟩, rfl⟩ := guard_eq_some h
    exact .ckptRedo hckpt hrec
  | ckptCollect =>
    simp only [publication] at h
    split at h
    · rename_i redo hckpt
      cases h
      exact .ckptCollect hckpt
    · cases h
  | ckptWait =>
    simp only [publication] at h
    split at h
    · rename_i redo delaying hckpt
      obtain ⟨hdone, rfl⟩ := guard_eq_some h
      exact .ckptWait hckpt (by simpa using hdone)
    · cases h
  | ckptSuper =>
    simp only [publication] at h
    split at h
    · rename_i redo hckpt
      cases h
      exact .ckptSuper hckpt
    · cases h
  | ckptDone =>
    simp only [publication] at h
    split at h
    · rename_i redo hckpt
      cases h
      exact .ckptDone hckpt
    · cases h
  | crash => cases h; exact .crash
  | redo =>
    obtain ⟨pos, hrec, h⟩ := bind_eq_some_iff.mp h
    obtain ⟨r, hr, h⟩ := bind_eq_some_iff.mp h
    obtain ⟨m, hm, rfl⟩ := map_eq_some_iff.mp h
    exact .redo hrec hr hm
  | localBirth =>
    obtain ⟨pos, hrec, h⟩ := bind_eq_some_iff.mp h
    obtain ⟨⟨haux, hmap⟩, h⟩ := ite_none_right_eq_some.mp h
    exact .localBirth hrec haux hmap h
  | endRecovery =>
    obtain ⟨hrec, rfl⟩ := guard_eq_some h
    exact .endRecovery hrec

lemma Move.recovery_eq_none {s} (hm : Move s e t) (hrun : s.recovery = none) (hcrash : e ≠ .crash) :
    t.recovery = none := by
  cases hm with
  | flushPage => rw [recovery_flushPage, hrun]
  | flushSuper => rw [recovery_flushSuper, hrun]
  | ckptSuper => exact (recovery_flushSuper s).trans hrun
  | crash => exact absurd rfl hcrash
  | redo hrec | localBirth hrec => rw [hrun] at hrec; cases hrec
  | endRecovery => rfl
  | _ => exact hrun

end Umbra
