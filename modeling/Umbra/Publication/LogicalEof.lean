import Umbra.Publication.MapPages

/-!
# Durability of the logical end of a fork

`um_publish_mapped_birth` leaves its delay section before `umextend` and `umzeroextend` raise the
logical end, so a checkpoint can publish its redo pointer behind the birth record and write the
superblock in front of the update. It can also write a logical end in front of the MAP page that the
end covers, and then no recovery gets past the page.
-/

namespace Umbra

open Foundation

variable {n : Nat} {e : Event n} {s t : State n}

/-- The record maps a block that had no entry. -/
def Record.Births (r : Record) (k : BlockKey) : Prop :=
  match r with
  | .mapSet key old _ => key = k ∧ old = none
  | .rangeRemap fork first pblks => fork = k.1 ∧ first ≤ k.2 ∧ k.2 < first + pblks.length
  | .blockRemaps blks => ∃ blk ∈ blks, blk.key = k ∧ blk.old = none
  | .smgrTruncate _ _ => False
  | .other => False

lemma Record.WellFormed.lt_bump_logical {r : Record} (hr : r.WellFormed) {k : BlockKey}
    (h : r.Births k) : k.2 < r.bump .logical k.1 := by
  cases r with
  | mapSet =>
    obtain ⟨rfl, rfl⟩ := h
    simp [bump]
  | rangeRemap =>
    obtain ⟨rfl, -, hlt⟩ := h
    simpa [bump] using hlt
  | blockRemaps =>
    obtain ⟨blk, hmem, rfl, hold⟩ := h
    have hle := bump_le_blockRemaps hmem .logical blk.key.1
    have hfr := (hr.2 blk hmem).1
    simp only [BlockRemap.bump, hold, and_self, if_true] at hle
    omega
  | smgrTruncate => cases h
  | other => cases h

/-- No truncation, no checkpoint that overtakes an extension, no superblock that overtakes its MAP
pages, and births in order. -/
def eofOk (s : State n) (e : Event n) : Prop :=
  (e.isTruncate = false ∧ lateOk s e = true) ∧ superOk s e = true ∧ birthsOk s e = true

instance (s : State n) (e : Event n) : Decidable (eofOk s e) :=
  inferInstanceAs (Decidable (_ ∧ _))

def Event.isRecovery : Event n → Bool
  | .redo _ => true
  | .localBirth _ => true
  | .flushPage _ => true
  | .flushSuper => true
  | _ => false

/-- What recovery does: it replays, writes back, and gives birth to auxiliary blocks in order. -/
def recoveryOk (s : State n) (e : Event n) : Prop := e.isRecovery = true ∧ birthsOk s e = true

instance (s : State n) (e : Event n) : Decidable (recoveryOk s e) :=
  inferInstanceAs (Decidable (_ ∧ _))

lemma not_isTruncate_of_isRecovery (h : e.isRecovery = true) :
    e.isTruncate = false ∧ lateOk s e = true ∧ e ≠ .crash := by
  cases e <;> first | (cases h; done) | exact ⟨rfl, rfl, nofun⟩

/-- The logical end is behind every birth that replay starts from. -/
structure EofInvariant (s : State n) : Prop where
  disciplined : Disciplined s
  positioned : Positioned s
  truncateFree : TruncateFree s
  covered : ∀ fork, Covered .logical fork s
  replayable : Replayable s

theorem EofInvariant.init (n : Nat) : EofInvariant (State.init n) :=
  ⟨.init n, .init n, .init n, fun fork => .init n .logical fork, .init n⟩

theorem EofInvariant.step (h : EofInvariant s) (hok : e.isTruncate = false ∧ lateOk s e = true)
    (hbirths : birthsOk s e = true) (hdisk : e = .crash → Dense s.diskMap s.diskSuper.logical)
    (hs : (publication n).step s e = some t) : EofInvariant t := by
  have hm := Move.of_step hs
  refine ⟨h.disciplined.step hm, h.positioned.step hm, h.truncateFree.step hok.1 hm, fun fork => ?_,
    h.replayable.step h.disciplined h.positioned h.truncateFree hbirths hdisk hm⟩
  exact (h.covered fork).step h.disciplined h.positioned (.inr ⟨h.truncateFree, hok.2⟩) hm

/-- With the logical ends on disk behind the MAP pages on disk. -/
lemma EofInvariant.of_reaches {s : State n} (hs : (publication n).Reaches eofOk (State.init n) s) :
    EofInvariant s ∧ Dense s.diskMap s.diskSuper.logical := by
  refine hs.invariant (I := fun s => EofInvariant s ∧ Dense s.diskMap s.diskSuper.logical)
    ⟨.init n, nofun⟩ ?_
  rintro s e t ⟨h, hdisk⟩ ⟨hok, hsuper, hbirths⟩ hstep
  exact ⟨h.step hok hbirths (fun _ => hdisk) hstep,
    h.replayable.disk_step hdisk hsuper (Move.of_step hstep)⟩

lemma wal_of_isRecovery (he : e.isRecovery = true) (hm : Move s e t) : t.wal = s.wal := by
  cases hm with
  | start hrec hidle hbegin => cases hbegin <;> cases he
  | flushPage => exact State.wal_flushPage ..
  | flushSuper => exact State.wal_flushSuper ..
  | localBirth hrec haux hmap ht =>
    obtain ⟨p, -, rfl⟩ := Option.map_eq_some_iff.mp ht
    rfl
  | redo => rfl
  | _ => cases he

lemma recovery_of_isRecovery (he : e.isRecovery = true) (hm : Move s e t)
    (h : s.recovery ≠ none) : t.recovery ≠ none := by
  cases hm with
  | start hrec hidle hbegin => cases hbegin <;> cases he
  | flushPage => rwa [State.recovery_flushPage]
  | flushSuper => rwa [State.recovery_flushSuper]
  | localBirth hrec haux hmap ht =>
    obtain ⟨p, -, rfl⟩ := Option.map_eq_some_iff.mp ht
    exact h
  | redo => nofun
  | _ => cases he

lemma exists_recovered {pos} (hrec : s.recovery = some pos) (hle : pos ≤ s.wal.length)
    (hwal : ∀ r ∈ s.wal, ∀ blks, r ≠ .blockRemaps blks) :
    ∃ t, (publication n).Reaches recoveryOk s t ∧ t.recovery = some t.wal.length := by
  induction hk : s.wal.length - pos generalizing s pos with
  | zero =>
    have heq : pos = s.wal.length := by omega
    exact ⟨s, .refl, heq ▸ hrec⟩
  | succ k ih =>
    have hlt : pos < s.wal.length := by omega
    have hget : s.wal[pos]? = some s.wal[pos] := List.getElem?_eq_getElem hlt
    have hne := hwal s.wal[pos] (List.getElem_mem hlt)
    obtain ⟨m, hm⟩ : ∃ m, redoRecord s.mapMeta (pos + 1) true s.wal[pos] = some m := by
      cases hr : s.wal[pos] with
      | blockRemaps blks => exact absurd hr (hne blks)
      | _ => exact ⟨_, rfl⟩
    have hstep : (publication n).step s (.redo true)
        = some { s with mapMeta := m, recovery := some (pos + 1) } := by
      simp only [publication, hrec, hget, hm, Option.bind_some, Option.map_some]
    obtain ⟨t, ht, hdone⟩ := ih (s := { s with mapMeta := m, recovery := some (pos + 1) })
      rfl hlt hwal (by change s.wal.length - (pos + 1) = k; omega)
    have hone : (publication n).Reaches recoveryOk s
        { s with mapMeta := m, recovery := some (pos + 1) } :=
          .tail (e := .redo true) .refl ⟨rfl, rfl⟩ hstep
    exact ⟨t, hone.trans ht, hdone⟩

/-- In every run whose checkpoints overtake neither an extension nor a MAP page, and whose births
are in order, a crash recovers: no MAP page that is read is all zeros, and every block with a
durable birth record ends up below the logical end of its fork. -/
theorem recovered_eof_above_births {s : State n}
    (hs : (publication n).Reaches eofOk (State.init n) s) :
    ((∀ r ∈ s.wal.take s.flushPtr, ∀ blks, r ≠ .blockRemaps blks) →
      ∃ t, (publication n).Reaches recoveryOk s.crash t ∧ t.recovery = some t.wal.length) ∧
    ∀ t, (publication n).Reaches recoveryOk s.crash t →
      (∀ inFile, (∀ k, t.mapMeta.Reads inFile k) ∧ ∀ pos r, t.recovery = some pos →
        t.wal[pos]? = some r → redoReads inFile t.mapMeta (pos + 1) r) ∧
      (t.recovery = some t.wal.length →
        ∀ r ∈ s.wal.take s.flushPtr, ∀ k, r.Births k →
          k.2 < t.mapMeta.entry.super.logical k.1) := by
  obtain ⟨hinv, hdisk⟩ := EofInvariant.of_reaches hs
  have hcrash : EofInvariant s.crash := hinv.step (e := .crash) ⟨rfl, rfl⟩ rfl (fun _ => hdisk) rfl
  refine ⟨fun hwal => ?_, fun t ht => ?_⟩
  · exact exists_recovered (s := s.crash) rfl hcrash.positioned.redo_le hwal
  · obtain ⟨hi, hw, hrec⟩ : EofInvariant t ∧ t.wal = s.wal.take s.flushPtr ∧ t.recovery ≠ none := by
      refine ht.invariant (I := fun t => EofInvariant t ∧ t.wal = s.wal.take s.flushPtr ∧
        t.recovery ≠ none) ⟨hcrash, rfl, nofun⟩ ?_
      rintro t e u ⟨hi, hw, hrec⟩ ⟨hrecovery, hbirths⟩ hstep
      obtain ⟨htr, hlate, hne⟩ := not_isTruncate_of_isRecovery (s := t) hrecovery
      have hm := Move.of_step hstep
      exact ⟨hi.step ⟨htr, hlate⟩ hbirths (fun h => absurd h hne) hstep,
        (wal_of_isRecovery hrecovery hm).trans hw, recovery_of_isRecovery hrecovery hm hrec⟩
    refine ⟨fun inFile => ⟨(hi.replayable.dense hrec).reads inFile, fun pos r hpos hr => ?_⟩,
      fun hdone r hr k hk => ?_⟩
    · exact hi.replayable.redoReads hpos hr inFile
    · have hmem : r ∈ t.wal := hw ▸ hr
      obtain ⟨i, hlt, hget⟩ := List.getElem_of_mem hmem
      have hcov := (hi.covered k.1).recovering _ hdone i hlt r
        (by rw [List.getElem?_eq_getElem hlt, hget])
      exact lt_of_lt_of_le ((hi.disciplined.wellFormed r hmem).lt_bump_logical hk) hcov

def extendThenCheckpoint (b : Fin n) : List (Event n) :=
  .startExtend b (.fsm, 0) :: List.replicate 9 (.run b) ++
    [.ckptRedo, .ckptCollect, .ckptWait, .flushPage (.fsm, 0), .ckptSuper, .ckptDone]

theorem recovered_eof_above_births_fsm :
    ∃ s t : State 1, Record.mapSet (.fsm, 0) none 0 ∈ s.wal.take s.flushPtr ∧
      (publication 1).Reaches recoveryOk s.crash t ∧
      t.recovery = some t.wal.length ∧ 0 < t.mapMeta.entry.super.logical .fsm := by
  have hs : (publication 1).Reaches eofOk (State.init 1)
      (((publication 1).restrict eofOk).after (State.init 1) (extendThenCheckpoint 0)) :=
    .of_isSome (by decide)
  have ht : (publication 1).Reaches recoveryOk
      (((publication 1).restrict eofOk).after (State.init 1) (extendThenCheckpoint 0)).crash
      (((publication 1).restrict recoveryOk).after
        (((publication 1).restrict eofOk).after (State.init 1) (extendThenCheckpoint 0)).crash
        [.redo true, .redo true]) := .of_isSome (by decide)
  refine ⟨_, _, ?_, ht, ?_, ?_⟩
  · decide
  · decide
  · exact ((recovered_eof_above_births hs).2 _ ht).2 (by decide) (.mapSet (.fsm, 0) none 0)
      (by decide) (.fsm, 0) ⟨rfl, rfl⟩

/-- The same steps with the checkpoint in front of the last actions of `umextend`. -/
def checkpointInsideExtend (b : Fin n) : List (Event n) :=
  .startExtend b (.fsm, 0) :: List.replicate 6 (.run b) ++
    [.ckptRedo, .ckptCollect, .ckptWait, .flushPage (.fsm, 0), .ckptSuper, .ckptDone]

/-- The extension between the flush of the MAP pages and that of the superblock. -/
def extendInsideCheckpoint (b : Fin n) : List (Event n) :=
  [.ckptRedo, .ckptCollect, .ckptWait, .startExtend b (.fsm, 0)] ++ List.replicate 9 (.run b) ++
    [.ckptSuper, .ckptDone]

/-- The checkpoint writes the superblock before `umextend` raises the logical end: the fork is
empty. Or `umextend` gives birth to the first block of a MAP page after the checkpoint has flushed
the MAP pages and before it writes the superblock: replay of the birth reads a page of zeros. -/
theorem checkpoint_splits_umextend :
    (∃ s t : State 1, (publication 1).Reachable (State.init 1) s ∧
      (publication 1).Reaches recoveryOk s.crash t ∧
      t.recovery = some t.wal.length ∧
      ∃ r ∈ s.wal.take s.flushPtr, r.Births (.fsm, 0) ∧
        ¬ 0 < t.mapMeta.entry.super.logical .fsm) ∧
    ∃ s t : State 1,
      (publication 1).Reaches (fun s e => e.isTruncate = false ∧ lateOk s e = true ∧
        birthsOk s e = true) (State.init 1) s ∧
      (publication 1).Reaches recoveryOk s.crash t ∧ t.recovery = some 1 ∧
      ∃ r ∈ t.wal[1]?, r.Births (.fsm, 0) ∧ ¬ redoReads (fun _ => true) t.mapMeta 2 r := by
  refine ⟨⟨(publication 1).after (State.init 1) (checkpointInsideExtend 0),
    ((publication 1).restrict recoveryOk).after ((publication 1).after (State.init 1)
      (checkpointInsideExtend 0)).crash [.redo true, .redo true],
    .of_isSome (by decide), .of_isSome (by decide), ?_, .mapSet (.fsm, 0) none 0, ?_, ⟨rfl, rfl⟩,
      ?_⟩, ?_⟩
  · decide
  · decide
  · decide
  · refine ⟨((publication 1).restrict fun s e => e.isTruncate = false ∧ lateOk s e = true ∧
        birthsOk s e = true).after (State.init 1) (extendInsideCheckpoint 0),
      ((publication 1).restrict recoveryOk).after
        (((publication 1).restrict fun s e => e.isTruncate = false ∧ lateOk s e = true ∧
          birthsOk s e = true).after (State.init 1) (extendInsideCheckpoint 0)).crash [.redo true],
      .of_isSome (by decide), .of_isSome (by decide), by decide, .mapSet (.fsm, 0) none 0,
      by decide, ⟨rfl, rfl⟩, fun hreads => hreads ⟨rfl, by decide, fun k _ => rfl⟩⟩

end Umbra
