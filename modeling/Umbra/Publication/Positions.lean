import Umbra.Publication.Discipline

/-!
# Positions in the log, and runs without truncation

Two invariants that later arguments share: redo pointers lie inside the durable log, and a run that
never begins a truncation never executes, logs or replays one.
-/

namespace Umbra

open Function List

variable {n : Nat} {be : Backend} {b : Fin n} {e : Event n} {i : Instr} {rest : List Instr}

/-! ### Positions in the log -/

def CkptPhase.redo? : CkptPhase n → Option Nat
  | .idle => none
  | .published redo => some redo
  | .waiting redo _ => some redo
  | .flushing redo _ => some redo
  | .flushed redo => some redo

/-- Positions in the log are in order. -/
structure Positioned (s : State n) : Prop where
  ckpt_le : ∀ redo, s.ckpt.redo? = some redo → redo ≤ s.wal.length
  redo_le : s.redoPtr ≤ s.wal.length
  redo_le_flush : s.redoPtr ≤ s.flushPtr
  first_le : ∀ b, (s.backends b).firstLsn ≤ s.wal.length
  idle : s.recovery ≠ none → s.ckpt = .idle

namespace Positioned

variable {s t : State n}

variable (h : Positioned s)
include h

lemma mono (hwal : s.wal.length ≤ t.wal.length)
    (hckpt : ∀ redo, t.ckpt.redo? = some redo → s.ckpt.redo? = some redo)
    (hredo : t.redoPtr = s.redoPtr) (hflush : s.flushPtr ≤ t.flushPtr)
    (hfirst : ∀ b, (t.backends b).firstLsn ≤ (s.backends b).firstLsn)
    (hidle : t.recovery ≠ none → s.ckpt = .idle → t.ckpt = .idle)
    (hrec : t.recovery ≠ none → s.recovery ≠ none) : Positioned t where
  ckpt_le redo hr := (h.ckpt_le redo (hckpt redo hr)).trans hwal
  redo_le := hredo ▸ h.redo_le.trans hwal
  redo_le_flush := hredo ▸ h.redo_le_flush.trans hflush
  first_le b := (hfirst b).trans ((h.first_le b).trans hwal)
  idle hr := hidle hr (h.idle (hrec hr))

lemma setBackend (hbe : be.firstLsn ≤ s.wal.length) : Positioned (s.setBackend b be) where
  __ := h
  first_le := (forall_update_iff s.backends fun _ be => be.firstLsn ≤ s.wal.length).mpr
    ⟨hbe, fun b' _ => h.first_le b'⟩

lemma flushSuper : Positioned s.flushSuper := by
  refine h.mono ?_ ?_ ?_ s.flushPtr_le_flushSuper ?_ ?_ ?_ <;> simp

lemma running (hckpt : s.ckpt ≠ .idle) : s.recovery = none := by
  by_contra hne
  exact hckpt (h.idle hne)

end Positioned

theorem Positioned.init (n : Nat) : Positioned (State.init n) where
  ckpt_le := nofun
  redo_le := le_rfl
  redo_le_flush := le_rfl
  first_le _ := le_rfl
  idle h := absurd rfl h

theorem Positioned.step {s t} (h : Positioned s) (hm : Move s e t) : Positioned t := by
  cases hm with
  | reserve | abort | preallocate | walWrite =>
    exact { h with }
  | start => exact h.setBackend (Nat.zero_le _)
  | @insert b r =>
    have h' : Positioned { s with wal := s.wal ++ [r] } :=
      h.mono (by simp) (fun _ => id) rfl le_rfl (fun _ => le_rfl) (fun _ => id) id
    refine h'.setBackend ?_
    have hle := h.first_le b
    change (if (s.backends b).firstLsn = 0 then _ else _) ≤ (s.wal ++ [r]).length
    rw [length_append, length_singleton]
    split_ifs <;> omega
  | update | release | birthFresh =>
    refine Positioned.setBackend ?_ (h.first_le _)
    exact { h with }
  | insertOther =>
    exact h.mono (by simp) (fun _ => id) rfl le_rfl (fun _ => le_rfl) (fun _ => id) id
  | walFlush =>
    exact h.mono le_rfl (fun _ => id) rfl (le_max_left _ _) (fun _ => le_rfl) (fun _ => id) id
  | @flushPage page =>
    have hckpt : (s.flushPage page).ckpt.redo? = s.ckpt.redo? := by
      unfold State.flushPage
      cases s.ckpt <;> rfl
    refine h.mono ?_ (fun redo hr => hckpt ▸ hr) ?_ (s.flushPtr_le_flushPage page) ?_ ?_ ?_
    · simp
    · simp
    · simp
    · intro _ hidle
      unfold State.flushPage
      rw [hidle]
    · simp
  | flushSuper => exact h.flushSuper
  | ckptRedo hckpt hrec =>
    refine ⟨fun redo hr => ?_, ?_, h.redo_le_flush, fun b => ?_, fun hr => absurd hrec hr⟩
    · cases hr
      simp
    · simpa using Nat.le_succ_of_le h.redo_le
    · simpa using Nat.le_succ_of_le (h.first_le b)
  | ckptCollect hckpt | ckptWait hckpt =>
    refine h.mono le_rfl (fun redo hr => ?_) rfl le_rfl (fun _ => le_rfl) (fun _ hidle => ?_) id
    · rw [hckpt]
      exact hr
    · rw [hckpt] at hidle
      cases hidle
  | ckptSuper hckpt =>
    refine h.flushSuper.mono le_rfl (fun redo hr => ?_) rfl le_rfl
      (fun _ => le_rfl) (fun _ hidle => ?_) id
    · rw [State.ckpt_flushSuper, hckpt]
      exact hr
    · rw [State.ckpt_flushSuper, hckpt] at hidle
      cases hidle
  | @ckptDone redo hckpt =>
    have hle := h.ckpt_le redo (by rw [hckpt]; rfl)
    refine ⟨nofun, ?_, ?_, fun b => ?_, fun _ => rfl⟩
    · change redo ≤ (s.wal ++ [Record.other]).length
      rw [length_append, length_singleton]
      omega
    · change redo ≤ max s.flushPtr (s.wal.length + 1)
      omega
    · have := h.first_le b
      change (s.backends b).firstLsn ≤ (s.wal ++ [Record.other]).length
      rw [length_append, length_singleton]
      omega
  | crash =>
    refine ⟨nofun, ?_, h.redo_le_flush, fun b => Nat.zero_le _, fun _ => rfl⟩
    change s.redoPtr ≤ (s.wal.take s.flushPtr).length
    rw [length_take]
    exact Nat.le_min.mpr ⟨h.redo_le_flush, h.redo_le⟩
  | redo hrec =>
    exact h.mono le_rfl (fun _ => id) rfl le_rfl (fun _ => le_rfl)
      (fun _ => id) (fun _ => by rw [hrec]; exact Option.some_ne_none _)
  | localBirth hrec haux hmap ht =>
    obtain ⟨p, -, rfl⟩ := Option.map_eq_some_iff.mp ht
    exact { h with }
  | endRecovery =>
    exact h.mono le_rfl (fun _ => id) rfl le_rfl (fun _ => le_rfl)
      (fun _ => id) (fun hne => absurd rfl hne)
  | _ => exact h.setBackend (h.first_le _)

/-! ### Runs without truncation -/

def Event.isTruncate : Event n → Bool
  | .startTruncate _ _ _ => true
  | _ => false

def Instr.truncates : Instr → Bool
  | .insert (.smgrTruncate _ _) => true
  | .umtruncate _ _ => true
  | .clearEntry _ _ => true
  | .setLogical _ _ _ => true
  | _ => false

/-- No truncation has been logged or begun. -/
structure TruncateFree (s : State n) : Prop where
  progs : ∀ b, ∀ i ∈ (s.backends b).prog, i.truncates = false
  wal : ∀ r ∈ s.wal, ∀ fork nblocks, r ≠ .smgrTruncate fork nblocks

lemma truncates_of_mem_commit {blk} (h : i ∈ commitBlockRemap blk) : i.truncates = false := by
  rcases mem_commit h with rfl | ⟨rfl, -⟩ | rfl | rfl <;> rfl

lemma Begin.truncates {s prog} (h : Begin s e b prog) (he : e.isTruncate = false) :
    ∀ i ∈ prog, i.truncates = false := by
  intro i hi
  cases h with
  | blockRemaps =>
    simp only [xlogInsertRemaps, mem_cons, mem_append, not_mem_nil, or_false] at hi
    rcases hi with rfl | rfl | hi | rfl
    · rfl
    · rfl
    · obtain ⟨blk, -, hi⟩ := mem_flatMap.mp hi
      exact truncates_of_mem_commit hi
    · rfl
  | range =>
    simp only [firstbornRangeRemap, mem_cons, mem_append, not_mem_nil, or_false] at hi
    rcases hi with rfl | rfl | rfl | hi | rfl | rfl | hi | rfl | rfl <;> try rfl
    · obtain ⟨k, p, rfl, -⟩ := mem_setMappings.mp hi
      rfl
    · obtain ⟨lblk, -, rfl⟩ := mem_releases hi
      rfl
  | extend =>
    rw [mem_singleton.mp hi]
    rfl
  | zeroExtend =>
    simp only [umzeroextend, mem_append, mem_map, mem_cons, not_mem_nil, or_false] at hi
    rcases hi with ⟨j, -, rfl⟩ | rfl | rfl <;> rfl
  | relocate =>
    simp only [mapCompactorRelocateEntry, mem_cons, not_mem_nil, or_false] at hi
    rcases hi with rfl | rfl | rfl | rfl | rfl | rfl | rfl <;> rfl
  | truncate => cases he

lemma truncates_of_mem_birth {k : BlockKey} {extend : Bool} {pblk : Nat}
    (h : ∀ i ∈ rest, i.truncates = false) :
    ∀ i ∈ (if extend then umextendBirth k pblk ++ rest else umPublishMappedBirth k pblk ++ rest),
      i.truncates = false := by
  intro i hi
  split_ifs at hi
  · simp only [umextendBirth, umPublishMappedBirth, mem_append, mem_cons,
      not_mem_nil, or_false] at hi
    rcases hi with ((rfl | rfl | rfl | rfl | rfl | rfl) | rfl | rfl) | hi <;> try rfl
    exact h i hi
  · simp only [umPublishMappedBirth, mem_append, mem_cons, not_mem_nil, or_false] at hi
    rcases hi with (rfl | rfl | rfl | rfl | rfl | rfl) | hi <;> try rfl
    exact h i hi

namespace TruncateFree

variable {s t : State n}

lemma setBackend (h : TruncateFree s) (hbe : ∀ i ∈ be.prog, i.truncates = false) :
    TruncateFree (s.setBackend b be) where
  progs := (forall_update_iff s.backends fun _ be => ∀ i ∈ be.prog, i.truncates = false).mpr
    ⟨hbe, fun b' _ => h.progs b'⟩
  wal := h.wal

lemma of_cons (h : TruncateFree s) (hprog : (s.backends b).prog = i :: rest) :
    i.truncates = false ∧ ∀ j ∈ rest, j.truncates = false := by
  have hb := h.progs b
  rw [hprog] at hb
  exact forall_mem_cons.mp hb

lemma concat (h : TruncateFree s) {r} (hr : ∀ fork nblocks, r ≠ .smgrTruncate fork nblocks) :
    ∀ r' ∈ s.wal ++ [r], ∀ fork nblocks, r' ≠ .smgrTruncate fork nblocks :=
  forall_mem_append.mpr ⟨h.wal, forall_mem_singleton.mpr hr⟩

end TruncateFree

theorem TruncateFree.init (n : Nat) : TruncateFree (State.init n) where
  progs := nofun
  wal := nofun

theorem TruncateFree.step {s t} (h : TruncateFree s) (he : e.isTruncate = false) (hm : Move s e t) :
    TruncateFree t := by
  have hother : ∀ fork nblocks, Record.other ≠ .smgrTruncate fork nblocks := by simp
  cases hm with
  | lookup => exact h.setBackend (h.progs _)
  | start hrec hidle hbegin => exact h.setBackend (hbegin.truncates he)
  | delayStart hprog | delayEnd hprog => exact h.setBackend (h.of_cons hprog).2
  | @insert b r rest hprog =>
    have hr : ∀ fork nblocks, r ≠ .smgrTruncate fork nblocks := by
      rintro fork nblocks rfl
      have hi := (h.of_cons hprog).1
      cases hi
    have h' : TruncateFree { s with wal := s.wal ++ [r] } := ⟨h.progs, h.concat hr⟩
    exact h'.setBackend (h.of_cons hprog).2
  | update hprog | release hprog =>
    refine TruncateFree.setBackend ?_ (h.of_cons hprog).2
    exact ⟨h.progs, h.wal⟩
  | @birthMapped b k extend rest pblk hprog =>
    refine h.setBackend fun i hi => ?_
    simp only at hi
    split_ifs at hi
    · rcases mem_cons.mp hi with rfl | hi
      · rfl
      · exact (h.of_cons hprog).2 i hi
    · exact (h.of_cons hprog).2 i hi
  | birthOwned hprog | birthFresh hprog =>
    refine TruncateFree.setBackend ?_ (truncates_of_mem_birth (h.of_cons hprog).2)
    exact ⟨h.progs, h.wal⟩
  | umtruncate hprog => cases (h.of_cons hprog).1
  | insertOther | ckptRedo | ckptDone => exact ⟨h.progs, h.concat hother⟩
  | flushPage | flushSuper | ckptSuper =>
    refine ⟨?_, ?_⟩
    · simpa using h.progs
    · simpa using h.wal
  | crash =>
    exact ⟨nofun, fun r hr => h.wal r (mem_of_mem_take hr)⟩
  | localBirth hrec haux hmap ht =>
    obtain ⟨p, -, rfl⟩ := Option.map_eq_some_iff.mp ht
    exact ⟨h.progs, h.wal⟩
  | _ => exact ⟨h.progs, h.wal⟩

end Umbra
