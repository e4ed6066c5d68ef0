import Umbra.Publication.Coverage

/-!
# Where metadata comes from

Behind every mapping that a program is about to install, and every counter value it is about to
store, stands the record the program inserted last (`Backed`). An entry of a MAP page then comes
from a record that is flushed or that the page's LSN covers, if `pageLsnOk` holds.
-/

namespace Umbra

open Foundation Function List

variable {n : Nat} {lsn : Nat} {wal wal' : List Record} {r : Record} {i : Instr} {b : Fin n}
  {e : Event n} {rest : List Instr}

/-! ### The record behind an action -/

def RecordAt (wal : List Record) (lsn : Nat) (r : Record) : Prop :=
  ∃ i, lsn = i + 1 ∧ wal[i]? = some r

lemma RecordAt.append (h : RecordAt wal lsn r) : RecordAt (wal ++ wal') lsn r := by
  obtain ⟨i, hi, hr⟩ := h
  obtain ⟨hlt, -⟩ := List.getElem?_eq_some_iff.mp hr
  exact ⟨i, hi, by rw [List.getElem?_append_left hlt, hr]⟩

lemma recordAt_concat (wal r) : RecordAt (wal ++ [r]) (wal.length + 1) r :=
  ⟨wal.length, rfl, getElem?_concat_length⟩

/-- What the action publishes is named by the record that ends at `lsn`; updates stamped with the
write pointer make no such promise. -/
structure Backed (wal : List Record) (lsn : Nat) (i : Instr) : Prop where
  mapping : ∀ k pblk, i = .setMapping k pblk → ∃ r, RecordAt wal lsn r ∧ r.newPblk k = some pblk
  counter : i.isLate = false → ∀ c fork, i.bump c fork = 0 ∨
    ∃ r, RecordAt wal lsn r ∧ i.bump c fork ≤ r.bump c fork
  capacity : ∀ fork, i.capacityBump fork = 0 ∨
    ∃ r, RecordAt wal lsn r ∧ i.capacityBump fork ≤ r.bump .nextFree fork

lemma Backed.append (h : Backed wal lsn i) : Backed (wal ++ wal') lsn i where
  mapping k pblk hi := by
    obtain ⟨r, hr, hk⟩ := h.mapping k pblk hi
    exact ⟨r, hr.append, hk⟩
  counter hi c fork := by
    rcases h.counter hi c fork with h0 | ⟨r, hr, hle⟩
    · exact .inl h0
    · exact .inr ⟨r, hr.append, hle⟩
  capacity fork := by
    rcases h.capacity fork with h0 | ⟨r, hr, hle⟩
    · exact .inl h0
    · exact .inr ⟨r, hr.append, hle⟩

lemma Backed.of_bump_eq_zero (hmap : ∀ k pblk, i ≠ .setMapping k pblk)
    (hbump : ∀ c fork, i.bump c fork = 0) (hcap : ∀ fork, i.capacityBump fork = 0) :
    Backed wal lsn i :=
  ⟨fun k pblk heq => absurd heq (hmap k pblk), fun _ c fork => .inl (hbump c fork),
    fun fork => .inl (hcap fork)⟩

def AllBacked (s : State n) : Prop :=
  ∀ b, ∀ i ∈ armed (s.backends b).prog, Backed s.wal (s.backends b).mapLsn i

lemma Begin.armed_eq_nil {s prog} (h : Begin s e b prog) : armed prog = [] := by
  cases h with
  | @zeroExtend _ fork first count hpos =>
    obtain ⟨m, rfl⟩ := Nat.exists_eq_succ_of_ne_zero (ne_of_gt hpos)
    rw [umzeroextend, range_succ_eq_map]
    simp [Instr.isBarrier]
  | _ => simp [xlogInsertRemaps, firstbornRangeRemap, umextend, mapCompactorRelocateEntry,
      relationTruncate, Instr.isBarrier]

lemma armed_birth_eq_nil (k : BlockKey) (extend : Bool) (rest : List Instr) (pblk : Nat) :
    armed (if extend then umextendBirth k pblk ++ rest else umPublishMappedBirth k pblk ++ rest)
      = [] := by
  split_ifs <;> simp [umextendBirth, umPublishMappedBirth, Instr.isBarrier]

namespace AllBacked

variable {s t : State n}

lemma setBackend (h : AllBacked s) {be} (hbe : ∀ i ∈ armed be.prog, Backed s.wal be.mapLsn i) :
    AllBacked (s.setBackend b be) :=
  (forall_update_iff s.backends fun _ be => ∀ i ∈ armed be.prog, Backed s.wal be.mapLsn i).mpr
    ⟨hbe, fun b' _ => h b'⟩

lemma tail (h : AllBacked s) (hprog : (s.backends b).prog = i :: rest) (hi : i.isBarrier = false) :
    ∀ j ∈ armed rest, Backed s.wal (s.backends b).mapLsn j := by
  intro j hj
  refine h b j ?_
  rw [hprog, armed_cons, hi]
  exact mem_cons_of_mem i hj

lemma concat (h : AllBacked s) (r) :
    ∀ b, ∀ i ∈ armed (s.backends b).prog, Backed (s.wal ++ [r]) (s.backends b).mapLsn i :=
  fun b i hi => (h b i hi).append

end AllBacked

theorem AllBacked.init (n : Nat) : AllBacked (State.init n) := nofun

theorem AllBacked.step {s t} (h : AllBacked s) (hd : Disciplined s) (hm : Move s e t) :
    AllBacked t := by
  cases hm with
  | lookup => exact h.setBackend (h _)
  | start hrec hidle hbegin =>
    refine h.setBackend ?_
    simp [hbegin.armed_eq_nil]
  | delayStart hprog =>
    have hsound : armed _ = [] := (hd.prog_cons hprog).sound.1
    refine h.setBackend ?_
    simp [hsound]
  | delayEnd hprog => exact h.setBackend (h.tail hprog rfl)
  | @insert b r rest hprog =>
    -- what the rest of the program publishes is named by the record just inserted
    obtain ⟨hmap, hbump⟩ := (hd.prog_cons hprog).sound.1
    have h' : AllBacked { s with wal := s.wal ++ [r] } := h.concat r
    refine h'.setBackend fun i hi =>
      ⟨fun k pblk heq => ?_, fun _ c fork => ?_, fun fork => ?_⟩
    · exact ⟨r, recordAt_concat s.wal r, hmap k pblk (heq ▸ hi)⟩
    · exact .inr ⟨r, recordAt_concat s.wal r, (hbump i hi).bump c fork⟩
    · exact .inr ⟨r, recordAt_concat s.wal r, (hbump i hi).capacity fork⟩
  | update hprog hu =>
    exact AllBacked.setBackend (s := s.setMeta _) h
      (h.tail hprog (Instr.isBarrier_of_isPlain hu.isPlain))
  | release hprog => exact AllBacked.setBackend (s := s.dropClaim _) h (h.tail hprog rfl)
  | @birthMapped b k extend rest pblk hprog =>
    obtain ⟨hno, hlate⟩ := (hd.prog_cons hprog).sound.1
    have hrest : ∀ i ∈ armed rest, Backed s.wal (s.backends b).mapLsn i := by
      intro i hi
      obtain ⟨hnext, hlog, -, hcap⟩ := hlate i hi
      refine ⟨fun k pblk heq => absurd (heq ▸ hi) (hno k pblk), fun hl c fork => .inl ?_,
        fun fork => .inl (hcap fork)⟩
      cases c with
      | logical => rw [hlog fork, Instr.lateBump_of_isLate hl]
      | nextFree => exact hnext fork
    refine h.setBackend ?_
    cases extend with
    | false => exact hrest
    | true =>
      intro i hi
      have hi' : i ∈ .bumpCapacity k.1 (pblk + 1) .invalid :: armed rest := by
        simpa [Instr.isBarrier] using hi
      rcases mem_cons.mp hi' with rfl | hi'
      · exact .of_bump_eq_zero (by simp) (fun c _ => by cases c <;> rfl) fun _ => rfl
      · exact hrest i hi'
  | birthOwned | birthFresh =>
    refine AllBacked.setBackend ?_ ?_
    · exact h
    · simp [armed_birth_eq_nil]
  | @umtruncate b fork m rest hprog =>
    refine h.setBackend fun i hi => ?_
    change i ∈ armed (_ ++ rest) at hi
    rw [armed_append rest fun _ hj =>
      Instr.isBarrier_of_isPlain (isPlain_of_mem_umtruncateTail hj)] at hi
    rcases mem_append.mp hi with hi | hi
    · obtain ⟨k, rfl⟩ | rfl := mem_umtruncateTail hi
      · exact .of_bump_eq_zero (by simp) (fun c _ => by cases c <;> rfl) fun _ => rfl
      · exact .of_bump_eq_zero (by simp) (fun c _ => by cases c <;> rfl) fun _ => rfl
    · exact h.tail hprog rfl i hi
  | insertOther | ckptRedo | ckptDone => exact h.concat _
  | flushPage | flushSuper | ckptSuper => simpa [AllBacked] using h
  | crash => exact fun _ _ hi => by cases hi
  | localBirth hrec haux hmap ht =>
    obtain ⟨p, -, rfl⟩ := Option.map_eq_some_iff.mp ht
    exact h
  | _ => exact h

/-! ### The record behind a MAP entry -/

lemma RecordAt.existsBefore {P m} (h : RecordAt wal lsn r) (hP : P r) (hle : lsn ≤ m) :
    ExistsBefore P wal m := by
  obtain ⟨i, rfl, hr⟩ := h
  exact ⟨i, hle, r, hr, hP⟩

def State.pageStore (s : State n) (b : Fin n) : Instr → Option (MapPageId × Nat)
  | .setMapping k _ => some (mapPageOf k, (s.backends b).mapLsn)
  | .clearEntry k lsn => some (mapPageOf k, lsn)
  | _ => none

/-- On MAP pages of the forks `F`, the step replaces no LSN by a smaller one while the records in
between are not flushed, and it makes no mapping without a record. -/
def pageLsnOk (F : ForkNumber → Bool) (s : State n) (e : Event n) : Bool :=
  match e with
  | .run b =>
    match (s.backends b).prog with
    | [] => true
    | i :: _ => (s.pageStore b i).all fun (page, lsn) =>
      !F page.1 || s.mapMeta.pageLsn page ≤ max s.flushPtr lsn
  | .localBirth k => !F k.1
  | _ => true

lemma pageLsn_le_of_pageLsnOk {F s} (hok : pageLsnOk F s (.run b) = true)
    (hprog : (s.backends b).prog = i :: rest) {page} (hstore : s.pageStore b i = some (page, lsn))
    (hF : F page.1 = true) : s.mapMeta.pageLsn page ≤ max s.flushPtr lsn := by
  simpa [pageLsnOk, hprog, hstore, hF] using hok

/-- A mapping comes from a record that is flushed or that its page's LSN covers. -/
structure Sourced (F : ForkNumber → Bool) (s : State n) : Prop where
  map : ∀ k pblk, F k.1 = true → s.mapMeta.map k = some pblk →
    ExistsBefore (fun r => r.newPblk k = some pblk) s.wal
      (max s.flushPtr (s.mapMeta.pageLsn (mapPageOf k)))
  disk : ∀ k pblk, F k.1 = true → s.diskMap k = some pblk →
    ExistsBefore (fun r => r.newPblk k = some pblk) s.wal s.flushPtr
  recovering : s.recovery ≠ none → s.wal.length ≤ s.flushPtr

namespace Sourced

variable {F : ForkNumber → Bool} {s t : State n} {k : BlockKey}

section

variable (h : Sourced F s)
include h

lemma grow {l} (hwal : t.wal = s.wal ++ l) (hflush : s.flushPtr ≤ t.flushPtr)
    (hmap : t.mapMeta.map = s.mapMeta.map) (hlsn : t.mapMeta.pageLsn = s.mapMeta.pageLsn)
    (hdisk : t.diskMap = s.diskMap) (hrec : t.recovery ≠ none → t.wal.length ≤ t.flushPtr) :
    Sourced F t where
  map k pblk hF hk := by
    rw [hwal, hlsn]
    rw [hmap] at hk
    exact ((h.map k pblk hF hk).mono (by omega)).append
  disk k pblk hF hk := by
    rw [hwal]
    rw [hdisk] at hk
    exact ((h.disk k pblk hF hk).mono hflush).append
  recovering := hrec

lemma congr (hwal : t.wal = s.wal) (hflush : t.flushPtr = s.flushPtr)
    (hmap : t.mapMeta.map = s.mapMeta.map) (hlsn : t.mapMeta.pageLsn = s.mapMeta.pageLsn)
    (hdisk : t.diskMap = s.diskMap) (hrec : t.recovery ≠ none → s.recovery ≠ none) :
    Sourced F t := by
  refine h.grow (l := []) ?_ hflush.ge hmap hlsn hdisk fun hr => ?_
  · rw [hwal, append_nil]
  · rw [hwal, hflush]
    exact h.recovering (hrec hr)

lemma setEntry {pblk} (hmap : t.mapMeta.map = update s.mapMeta.map k pblk)
    (hlsn : t.mapMeta.pageLsn = update s.mapMeta.pageLsn (mapPageOf k) lsn) (hwal : t.wal = s.wal)
    (hflush : t.flushPtr = s.flushPtr) (hdisk : t.diskMap = s.diskMap)
    (hrec : t.recovery = s.recovery)
    (hok : F k.1 = true → s.mapMeta.pageLsn (mapPageOf k) ≤ max s.flushPtr lsn)
    (hnew : F k.1 = true → ∀ p, pblk = some p → ExistsBefore (fun r => r.newPblk k = some p) s.wal
      (max s.flushPtr lsn)) : Sourced F t where
  map k' p hF hk' := by
    rw [hwal, hflush, hlsn]
    rw [hmap] at hk'
    by_cases hk : k' = k
    · subst hk
      rw [update_self] at hk' ⊢
      exact hnew hF p hk'
    · rw [update_of_ne hk] at hk'
      have hold := h.map k' p hF hk'
      by_cases hpage : mapPageOf k' = mapPageOf k
      · have hfork : k'.1 = k.1 := (Prod.ext_iff.mp hpage).1
        have hle := hok (hfork ▸ hF)
        rw [hpage, update_self]
        rw [hpage] at hold
        exact hold.mono (by omega)
      · rw [update_of_ne hpage]
        exact hold
  disk k' p hF hk' := by
    rw [hwal, hflush]
    exact h.disk k' p hF (hdisk ▸ hk')
  recovering hr := by
    rw [hwal, hflush]
    exact h.recovering (hrec ▸ hr)

lemma flushPage (page) : Sourced F (s.flushPage page) := by
  have hflush := s.flushPtr_le_flushPage page
  have hdisk : ∀ k pblk, F k.1 = true → (s.flushPage page).diskMap k = some pblk →
      ExistsBefore (fun r => r.newPblk k = some pblk) s.wal (s.flushPage page).flushPtr := by
    intro k pblk hF hk
    change (if mapPageOf k = page then s.mapMeta.map k else s.diskMap k) = some pblk at hk
    split_ifs at hk with hpage
    · subst hpage
      have hold := h.map k pblk hF hk
      by_cases hrec : s.recovery = none
      · refine hold.mono (le_of_eq ?_)
        simp [State.flushPage, hrec, State.xlogFlush]
      · exact hold.of_length_le ((h.recovering hrec).trans hflush)
    · exact (h.disk k pblk hF hk).mono hflush
  refine ⟨fun k pblk hF hk => ?_, fun k pblk hF hk => ?_, fun hr => ?_⟩
  · rw [State.wal_flushPage]
    exact (h.map k pblk hF hk).mono (max_le_max_right _ hflush)
  · rw [State.wal_flushPage]
    exact hdisk k pblk hF hk
  · rw [State.recovery_flushPage] at hr
    rw [State.wal_flushPage]
    exact (h.recovering hr).trans hflush

lemma flushSuper : Sourced F s.flushSuper := by
  refine h.grow (l := []) (by simp) s.flushPtr_le_flushSuper (by simp) (by simp) (by simp) ?_
  intro hr
  rw [State.recovery_flushSuper] at hr
  rw [State.wal_flushSuper]
  exact (h.recovering hr).trans s.flushPtr_le_flushSuper

end

lemma map_redoRecord {m m' materialized} (h : redoRecord m lsn materialized r = some m') {pblk}
    (hk : m'.map k = some pblk) : r.newPblk k = some pblk ∨ m.map k = some pblk := by
  by_cases hr : ∀ fork nblocks, r ≠ .smgrTruncate fork nblocks
  · rw [(redoRecord_spec h hr).1 k, Option.or_eq_some_iff] at hk
    exact hk.imp id And.right
  · push Not at hr
    obtain ⟨fork, nblocks, rfl⟩ := hr
    cases h
    exact .inr (MapMeta.map_clearRange_of_some _ _ _ _ hk)

end Sourced

theorem Sourced.init (n : Nat) (F : ForkNumber → Bool) : Sourced F (State.init n) where
  map := nofun
  disk := nofun
  recovering h := absurd rfl h

theorem Sourced.step {F s t} (h : Sourced F s) (hd : Disciplined s) (hb : AllBacked s)
    (hok : pageLsnOk F s e = true) (hm : Move s e t) : Sourced F t := by
  have hrun : ∀ {b i rest}, (s.backends b).prog = i :: rest → s.recovery = none :=
    fun hprog => hd.recovery_eq_none hprog
  cases hm with
  | insert hprog =>
    exact h.grow rfl le_rfl rfl rfl rfl fun hr => absurd (hrun hprog) hr
  | @update b i rest m hprog hu =>
    cases hu with
    | @setMapping k pblk =>
      have hstore : s.pageStore b (.setMapping k pblk) = some (mapPageOf k, _) := rfl
      refine h.setEntry rfl rfl rfl rfl rfl rfl
        (fun hF => pageLsn_le_of_pageLsnOk hok hprog hstore hF) fun _ p hp => ?_
      cases hp
      have hmem : Instr.setMapping k pblk ∈ armed (s.backends b).prog := by
        simp [hprog, Instr.isBarrier]
      obtain ⟨r, hr, hk⟩ := (hb b _ hmem).mapping k pblk rfl
      exact hr.existsBefore hk (le_max_right _ _)
    | @clearEntry k lsn =>
      have hstore : s.pageStore b (.clearEntry k lsn) = some (mapPageOf k, _) := rfl
      exact h.setEntry rfl rfl rfl rfl rfl rfl
        (fun hF => pageLsn_le_of_pageLsnOk hok hprog hstore hF) (by simp)
    | _ => exact h.congr rfl rfl rfl rfl rfl id
  | insertOther hrec | ckptRedo hckpt hrec =>
    exact h.grow rfl le_rfl rfl rfl rfl fun hr => absurd hrec hr
  | walFlush =>
    refine h.grow (l := []) (append_nil _).symm (le_max_left _ _) rfl rfl rfl fun hr => ?_
    exact (h.recovering hr).trans (le_max_left _ _)
  | flushPage => exact h.flushPage _
  | flushSuper => exact h.flushSuper
  | ckptSuper => exact h.flushSuper.congr rfl rfl rfl rfl rfl id
  | ckptDone =>
    refine h.grow rfl (le_max_left _ _) rfl rfl rfl fun hr => ?_
    change (s.wal ++ [Record.other]).length ≤ max s.flushPtr (s.wal.length + 1)
    rw [length_append, length_singleton]
    exact le_max_right _ _
  | crash =>
    refine ⟨fun k pblk hF hk => ?_, fun k pblk hF hk => ?_, fun _ => ?_⟩
    · exact (h.disk k pblk hF hk).take.mono (le_max_left _ _)
    · exact (h.disk k pblk hF hk).take
    · exact (length_take_le ..)
  | @redo materialized pos r m hrec hr hred =>
    have hlen := h.recovering (by rw [hrec]; exact Option.some_ne_none _)
    refine ⟨fun k pblk hF hk => ?_, h.disk, fun _ => hlen⟩
    rcases Sourced.map_redoRecord hred hk with hk | hk
    · exact ExistsBefore.of_length_le ⟨pos, Nat.lt_succ_self pos, r, hr, hk⟩
        (hlen.trans (le_max_left _ _))
    · exact (h.map k pblk hF hk).of_length_le (hlen.trans (le_max_left _ _))
  | @localBirth k pos t hrec haux hmap ht =>
    have hlen := h.recovering (by rw [hrec]; exact Option.some_ne_none _)
    have hF : F k.1 = false := by simpa [pageLsnOk] using hok
    obtain ⟨⟨p, entry⟩, -, rfl⟩ := Option.map_eq_some_iff.mp ht
    refine ⟨fun k' pblk hF' hk' => ?_, h.disk, fun _ => hlen⟩
    have hne : k' ≠ k := by
      rintro rfl
      rw [hF] at hF'
      cases hF'
    have hk : s.mapMeta.map k' = some pblk := by
      rwa [MapMeta.map_publishLocally, update_of_ne hne] at hk'
    exact (h.map k' pblk hF' hk).of_length_le (hlen.trans (le_max_left _ _))
  | endRecovery => exact h.congr rfl rfl rfl rfl rfl fun hr => absurd rfl hr
  | _ => exact h.congr rfl rfl rfl rfl rfl id

end Umbra
