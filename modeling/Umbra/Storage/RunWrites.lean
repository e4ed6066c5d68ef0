import Umbra.Storage.RunBatching

/-!
# What a batched write leaves

`Holding` says which barriers the call holds between two statements; the error handler settles them
wherever an error is raised. `Written` says which blocks are on disk and what the run is made of.
-/

namespace Umbra.RunBatching

open Foundation Foundation.Raising Function Umbra.RunBatching.Frame List Nat

variable {β : Type} {bs : List β}

/-! ### The barriers -/

section Barriers

variable (s : Frame β)

lemma Frame.releaseBarrier_eq (b) :
    s.releaseBarrier b = { s with releases := (s.releaseBarrier b).releases } := by
  cases b with
  | none => rfl
  | some => rfl

lemma Frame.releaseBarrier_releases (b l) :
    (s.releaseBarrier b).releases l = s.releases l + [b].count (some l) := by
  cases b with
  | none => rfl
  | some lblk =>
    by_cases hl : l = lblk
    · subst hl
      simp [releaseBarrier]
    · simp [releaseBarrier, hl, Ne.symm hl]

lemma Frame.releaseBarriers_eq (bs) :
    s.releaseBarriers bs = { s with releases := (s.releaseBarriers bs).releases } := by
  induction bs generalizing s with
  | nil => rfl
  | cons b bs ih =>
    rw [releaseBarriers, foldl_cons]
    refine (ih (s.releaseBarrier b)).trans ?_
    rw [releaseBarrier_eq]
    rfl

lemma Frame.releaseBarriers_releases (bs l) :
    (s.releaseBarriers bs).releases l = s.releases l + bs.count (some l) := by
  induction bs generalizing s with
  | nil => rfl
  | cons b bs ih =>
    refine (ih (s.releaseBarrier b)).trans ?_
    rw [releaseBarrier_releases, Nat.add_assoc, ← count_append, singleton_append]

end Barriers

/-- The run holds the barriers it claimed; those before it are given back. -/
structure Holding (blocknum i n : ℕ) (s : Frame β) : Prop where
  runBlocks_le : s.runBlocks ≤ i
  run : s.runBarriers = (List.range' (blocknum + (i - s.runBlocks)) s.runBlocks).map some
  pending : n = i ∧ s.pendingBarrier = none ∨ n = i + 1 ∧ s.pendingBarrier = some (blocknum + i)
  claims : ∀ l, s.claims l = if blocknum ≤ l ∧ l < blocknum + n then 1 else 0
  releases : ∀ l, s.releases l = if blocknum ≤ l ∧ l < blocknum + (i - s.runBlocks) then 1 else 0
  calls : ∀ c ∈ s.calls, c.Legal

/-- Every barrier that was claimed was released, once, and every physical call was legal. -/
def Settled (s : Frame β) : Prop :=
  (∀ l, s.claims l ≤ 1 ∧ s.releases l = s.claims l) ∧ ∀ c ∈ s.calls, c.Legal

lemma count_map_some_range' (a k l) :
    ((List.range' a k).map some).count (some l) = if a ≤ l ∧ l < a + k then 1 else 0 := by
  induction k generalizing a with
  | zero => exact (if_neg (by omega)).symm
  | succ k ih =>
    rw [range'_succ, map_cons, count_cons, ih]
    simp only [beq_iff_eq, Option.some.injEq]
    split <;> split <;> split <;> omega

section Holding

variable {blocknum i n : ℕ} {s : Frame β}

variable (h : Holding blocknum i n s)
include h

lemma Holding.settled : Settled s.handler := by
  have hle := h.runBlocks_le
  have hclaims : s.handler.claims = s.claims := by
    rw [handler, releaseBarriers_eq, releaseBarrier_eq]
  have hcalls : s.handler.calls = s.calls := by
    rw [handler, releaseBarriers_eq, releaseBarrier_eq]
  refine ⟨fun l => ?_, hcalls ▸ h.calls⟩
  have hreleases : s.handler.releases l
      = s.releases l + [s.pendingBarrier].count (some l) + s.runBarriers.count (some l) := by
    rw [handler, releaseBarriers_releases, releaseBarrier_releases]
  rw [hclaims, hreleases, h.claims, h.releases, h.run, count_map_some_range']
  obtain ⟨rfl, hp⟩ | ⟨rfl, hp⟩ := h.pending
  · rw [hp, show [(none : Option ℕ)].count (some l) = 0 from rfl]
    refine ⟨by split <;> omega, ?_⟩
    split <;> split <;> split <;> omega
  · have hone : [some (blocknum + i)].count (some l) = if blocknum + i = l then 1 else 0 := by
      simp [count_singleton]
    rw [hp, hone]
    refine ⟨by split <;> omega, ?_⟩
    split <;> split <;> split <;> split <;> omega

lemma Holding.fail {c} (hc : c.Legal) (disk : ℕ → β) :
    Holding blocknum i n { s with calls := c :: s.calls, disk } :=
  { h with calls := forall_mem_cons.mpr ⟨hc, h.calls⟩ }

lemma Holding.release :
    Holding blocknum i n { s.releaseBarriers s.runBarriers with runBarriers := [] } := by
  have heq := s.releaseBarriers_eq s.runBarriers
  refine ⟨zero_le _, rfl, ?_, ?_, fun l => ?_, ?_⟩
  · rw [heq]
    exact h.pending
  · rw [heq]
    exact h.claims
  · have hle := h.runBlocks_le
    show (s.releaseBarriers s.runBarriers).releases l
      = if blocknum ≤ l ∧ l < blocknum + (i - 0) then 1 else 0
    rw [releaseBarriers_releases, h.releases, h.run, count_map_some_range']
    split <;> split <;> split <;> omega
  · rw [heq]
    exact h.calls

end Holding

/-! ### The disk -/

section Disk

variable {map : ℕ → Option ℕ}

lemma writeBlockwise_append (blocknum : ℕ) (disk : ℕ → β) (bs bs' : List β) :
    writeBlockwise map blocknum disk (bs ++ bs')
      = writeBlockwise map (blocknum + bs.length) (writeBlockwise map blocknum disk bs) bs' := by
  induction bs generalizing blocknum disk with
  | nil => rfl
  | cons b bs ih =>
    rw [length_cons, ← Nat.add_assoc, Nat.add_right_comm]
    cases hm : map blocknum with
    | some | none => simp only [cons_append, writeBlockwise, hm, ih]

lemma writeBlockwise_of_contiguous {blocknum pblk} (disk)
    (h : ∀ k < bs.length, map (blocknum + k) = some (pblk + k)) :
    writeBlockwise map blocknum disk bs = writeRun disk pblk bs := by
  induction bs generalizing blocknum pblk disk with
  | nil => rfl
  | cons b bs ih =>
    have hhead : map blocknum = some pblk := h 0 (succ_pos _)
    simp only [writeBlockwise, hhead, writeRun]
    refine ih _ fun k hk => ?_
    have hk' := h (k + 1) (Nat.succ_lt_succ hk)
    rwa [← Nat.add_assoc, Nat.add_right_comm, ← Nat.add_assoc, Nat.add_right_comm pblk] at hk'

end Disk

/-- Up to the run, the disk is that of a write block by block. -/
structure Written (map : ℕ → Option ℕ) (blocknum : ℕ) (buffers : List β) (disk : ℕ → β) (i : ℕ)
    (s : Frame β) : Prop where
  startIdx : 0 < s.runBlocks → s.runStartIdx = i - s.runBlocks
  mapped : ∀ k < s.runBlocks, map (blocknum + (i - s.runBlocks) + k) = some (s.runStartPblk + k)
  legal : 0 < s.runBlocks → PhysicalCall.Legal ⟨s.runStartPblk, s.runBlocks⟩
  disk : s.disk = writeBlockwise map blocknum disk (buffers.take (i - s.runBlocks))

section Steps

variable {map : ℕ → Option ℕ} {blocknum i n : ℕ} {buffers : List β} {disk₀ : ℕ → β} {s : Frame β}
  {exc : Point → Frame β → Prop}

variable {pblk : ℕ} {t : Frame β} {rest : List (β × ℕ)} {b : β × ℕ}

lemma wp_fileWritev {post}
    (hdone : post ()
      { s with calls := ⟨pblk, bs.length⟩ :: s.calls, disk := writeRun s.disk pblk bs })
    (hfail : ∀ disk, exc .physicalWrite { s with calls := ⟨pblk, bs.length⟩ :: s.calls, disk }) :
    wp (fileWritev pblk bs) s post exc := by
  intro o ho
  rcases mem_cons.mp ho with rfl | ho
  · exact hdone
  · obtain ⟨k, -, rfl⟩ := mem_map.mp ho
    exact hfail _

lemma umfileWritev_of_legal (h : PhysicalCall.Legal ⟨pblk, bs.length⟩) :
    umfileWritev pblk bs
      = (do mayRaise .physicalWrite; fileWritev pblk bs : Raising (Frame β) Point Unit) := by
  have hmin : min (min bs.length (relsegSize - pblk % relsegSize)) pgIovMax = bs.length := by
    obtain ⟨hcount, hseg⟩ := h
    simp only at hcount hseg
    omega
  rw [umfileWritev, if_neg (not_not_intro hmin)]

section

variable (hw : Written map blocknum buffers disk₀ i s) (hle : s.runBlocks ≤ i)
  (hi : i ≤ buffers.length) (hpos : 0 < s.runBlocks)
include hw hle hi hpos

lemma Written.flush
    (hdisk : t.disk = writeRun s.disk s.runStartPblk ((buffers.drop s.runStartIdx).take
      s.runBlocks)) (hrun : t.runBarriers = []) : Written map blocknum buffers disk₀ i t := by
  have hzero : t.runBlocks = 0 := by rw [runBlocks, hrun, length_nil]
  have hlength : (buffers.take (i - s.runBlocks)).length = i - s.runBlocks := by
    rw [length_take]
    omega
  have htake : buffers.take i = buffers.take (i - s.runBlocks)
      ++ (buffers.drop (i - s.runBlocks)).take s.runBlocks := by
    rw [← take_add, Nat.sub_add_cancel hle]
  refine ⟨fun h => ?_, fun k hk => ?_, fun h => ?_, ?_⟩
  · exact absurd h (hzero ▸ Nat.lt_irrefl 0)
  · exact absurd hk (hzero ▸ Nat.not_lt_zero k)
  · exact absurd h (hzero ▸ Nat.lt_irrefl 0)
  · rw [hzero, Nat.sub_zero, htake, writeBlockwise_append, hlength, ← hw.disk, hdisk,
      hw.startIdx hpos]
    refine (writeBlockwise_of_contiguous s.disk fun k hk => hw.mapped k ?_).symm
    exact Nat.lt_of_lt_of_le hk (length_take_le ..)

lemma Written.legal_vector : PhysicalCall.Legal
      ⟨s.runStartPblk, ((buffers.drop s.runStartIdx).take s.runBlocks).length⟩ := by
  have hlength : ((buffers.drop s.runStartIdx).take s.runBlocks).length = s.runBlocks := by
    rw [length_take, length_drop, hw.startIdx hpos]
    omega
  exact hlength.symm ▸ hw.legal hpos

end

lemma wp_flushWriteBarrierRun (hold : Holding blocknum i n s)
    (hw : Written map blocknum buffers disk₀ i s) (hi : i ≤ buffers.length) :
    wp (flushWriteBarrierRun buffers) s
      (fun _ t => Holding blocknum i n t ∧ Written map blocknum buffers disk₀ i t ∧ t.runBlocks = 0)
      (fun _ t => Settled t.handler) := by
  simp only [flushWriteBarrierRun, wp_bind, wp_read, id]
  split
  case isTrue hzero =>
    rw [wp_pure]
    exact ⟨hold, hw, hzero⟩
  case isFalse hne =>
    have hpos : 0 < s.runBlocks := Nat.pos_of_ne_zero hne
    have hlegal := hw.legal_vector hold.runBlocks_le hi hpos
    rw [umfileWritev_of_legal hlegal, wp_bind, wp_bind, wp_mayRaise]
    refine ⟨wp_fileWritev ?_ fun disk => (hold.fail hlegal disk).settled, hold.settled⟩
    rw [wp_modify]
    refine ⟨(hold.fail hlegal _).release, hw.flush hold.runBlocks_le hi hpos ?_ rfl, rfl⟩
    rw [releaseBarriers_eq]

def Good (map : ℕ → Option ℕ) (blocknum : ℕ) (buffers : List β) (disk₀ : ℕ → β) (i : ℕ)
    (s : Frame β) : Prop :=
  Holding blocknum i i s ∧ Written map blocknum buffers disk₀ i s

lemma Holding.pendingBarrier_eq (h : Holding blocknum i (i + 1) s) :
    s.pendingBarrier = some (blocknum + i) := by
  obtain ⟨hn, -⟩ | ⟨-, hp⟩ := h.pending
  · exact absurd hn (succ_ne_self i)
  · exact hp

lemma Frame.runBlocks_addToRun (s : Frame β) : s.addToRun.runBlocks = s.runBlocks + 1 := by
  simp [runBlocks, addToRun]

lemma Holding.addToRun (h : Holding blocknum i (i + 1) s) :
    Holding blocknum (i + 1) (i + 1) s.addToRun := by
  have hle := h.runBlocks_le
  have hfirst : i + 1 - (s.runBlocks + 1) = i - s.runBlocks := Nat.add_sub_add_right i 1 _
  refine ⟨?_, ?_, .inl ⟨rfl, rfl⟩, h.claims, fun l => ?_, h.calls⟩
  · rw [runBlocks_addToRun]
    exact succ_le_succ hle
  · rw [runBlocks_addToRun, hfirst, range'_concat, map_append, ← h.run]
    show s.runBarriers ++ [s.pendingBarrier] = _
    rw [h.pendingBarrier_eq, show blocknum + i = blocknum + (i - s.runBlocks) + 1 * s.runBlocks by
      omega]
    rfl
  · rw [runBlocks_addToRun, hfirst]
    exact h.releases l

lemma Written.startRun (h : Written map blocknum buffers disk₀ i s) (hzero : s.runBlocks = 0)
    (hmap : map (blocknum + i) = some pblk) :
    Written map blocknum buffers disk₀ (i + 1) (s.startRun pblk i).addToRun := by
  have hone : (s.startRun pblk i).addToRun.runBlocks = 1 := by
    rw [runBlocks_addToRun]
    exact congrArg (· + 1) hzero
  refine ⟨fun _ => ?_, fun k hk => ?_, fun _ => ⟨?_, ?_⟩, ?_⟩
  · rw [hone]
    rfl
  · rw [hone] at hk ⊢
    obtain rfl : k = 0 := lt_one_iff.mp hk
    exact hmap
  · rw [hone]
    exact (by decide : 1 ≤ pgIovMax)
  · rw [hone]
    exact mod_lt _ (by decide)
  · rw [hone]
    have hdisk := h.disk
    rwa [hzero] at hdisk

lemma Written.extendRun (h : Written map blocknum buffers disk₀ i s) (hle : s.runBlocks ≤ i)
    (hmap : map (blocknum + i) = some pblk) (hcan : s.CanExtendRun pblk) :
    Written map blocknum buffers disk₀ (i + 1) s.addToRun := by
  obtain ⟨hpos, rfl, hcount, hseg⟩ := hcan
  have hfirst : i + 1 - (s.runBlocks + 1) = i - s.runBlocks := Nat.add_sub_add_right i 1 _
  refine ⟨fun _ => ?_, fun k hk => ?_, fun _ => ⟨?_, ?_⟩, ?_⟩
  · rw [runBlocks_addToRun, hfirst]
    exact h.startIdx hpos
  · rw [runBlocks_addToRun] at hk ⊢
    rw [hfirst]
    rcases Nat.lt_succ_iff_lt_or_eq.mp hk with hk | rfl
    · exact h.mapped k hk
    · rwa [Nat.add_assoc, Nat.sub_add_cancel hle]
  · rw [runBlocks_addToRun]
    exact hcount
  · rw [runBlocks_addToRun]
    exact hseg
  · rw [runBlocks_addToRun, hfirst]
    exact h.disk

lemma wp_joinRun (hold : Holding blocknum i (i + 1) s) (hw : Written map blocknum buffers disk₀ i s)
    (hi : i ≤ buffers.length) (hmap : map (blocknum + i) = some pblk) :
    wp (joinRun buffers pblk i) s (fun _ t => Good map blocknum buffers disk₀ (i + 1) t)
      (fun _ t => Settled t.handler) := by
  have hstart : ∀ t : Frame β, Holding blocknum i (i + 1) t →
      Written map blocknum buffers disk₀ i t → t.runBlocks = 0 →
      Good map blocknum buffers disk₀ (i + 1) (t.startRun pblk i).addToRun :=
    fun t ht htw hzero => ⟨Holding.addToRun { ht with }, htw.startRun hzero hmap⟩
  simp only [joinRun, wp_bind, wp_read, id]
  split
  case isTrue hzero =>
    rw [wp_bind, wp_modify, wp_modify]
    exact hstart s hold hw hzero
  case isFalse hne =>
    split
    case isTrue hfull =>
      rw [wp_bind]
      refine (wp_flushWriteBarrierRun hold hw hi).imp ?_
      rintro - t ⟨ht, htw, hzero⟩
      rw [wp_bind, wp_modify, wp_modify]
      exact hstart t ht htw hzero
    case isFalse hcan =>
      rw [wp_modify]
      exact ⟨hold.addToRun, hw.extendRun hold.runBlocks_le hmap (not_not.mp hcan)⟩

lemma Holding.releasePending (h : Holding blocknum i (i + 1) s) (hzero : s.runBlocks = 0) :
    Holding blocknum (i + 1) (i + 1)
      { s.releaseBarrier s.pendingBarrier with pendingBarrier := none } := by
  have hrun : s.runBarriers = [] := length_eq_zero_iff.mp hzero
  rw [releaseBarrier_eq]
  refine ⟨?_, ?_, .inl ⟨rfl, rfl⟩, h.claims, fun l => ?_, h.calls⟩
  · show s.runBlocks ≤ i + 1
    rw [hzero]
    exact zero_le _
  · show s.runBarriers = List.map some (List.range' _ s.runBlocks)
    rw [hzero, hrun]
    rfl
  · show (s.releaseBarrier s.pendingBarrier).releases l
      = if blocknum ≤ l ∧ l < blocknum + (i + 1 - s.runBlocks) then 1 else 0
    have hone : [some (blocknum + i)].count (some l) = if blocknum + i = l then 1 else 0 := by
      simp [count_singleton]
    rw [releaseBarrier_releases, h.pendingBarrier_eq, h.releases, hzero, hone]
    split <;> split <;> split <;> omega

lemma Written.extendBlock (h : Written map blocknum buffers disk₀ i s) (hzero : s.runBlocks = 0)
    (hi : i < buffers.length) (hmap : map (blocknum + i) = some pblk)
    (hdisk : t.disk = update s.disk pblk buffers[i]) (hrun : t.runBlocks = 0) :
    Written map blocknum buffers disk₀ (i + 1) t := by
  have hlength : (buffers.take i).length = i := length_take_of_le (Nat.le_of_lt hi)
  refine ⟨fun hpos => ?_, fun k hk => ?_, fun hpos => ?_, ?_⟩
  · exact absurd hpos (hrun ▸ Nat.lt_irrefl 0)
  · exact absurd hk (hrun ▸ Nat.not_lt_zero k)
  · exact absurd hpos (hrun ▸ Nat.lt_irrefl 0)
  · have hbefore := h.disk
    rw [hzero, Nat.sub_zero] at hbefore
    rw [hdisk, hrun, Nat.sub_zero, take_succ_eq_append_getElem hi, writeBlockwise_append,
      hlength, ← hbefore]
    simp only [writeBlockwise, hmap]

lemma wp_extendBlock (hold : Holding blocknum i (i + 1) s)
    (hw : Written map blocknum buffers disk₀ i s) (hi : i < buffers.length)
    (hmap : map (blocknum + i) = some pblk) :
    wp (extendBlock buffers pblk buffers[i]) s
      (fun _ t => Good map blocknum buffers disk₀ (i + 1) t) (fun _ t => Settled t.handler) := by
  have hlegal : PhysicalCall.Legal ⟨pblk, 1⟩ :=
    ⟨(by decide : 1 ≤ pgIovMax), mod_lt _ (by decide)⟩
  rw [extendBlock, wp_bind]
  refine (wp_flushWriteBarrierRun hold hw (Nat.le_of_lt hi)).imp ?_
  rintro - t ⟨ht, htw, hzero⟩
  rw [wp_bind, umfileExtend, wp_bind, wp_mayRaise]
  refine ⟨wp_fileWritev ?_ fun disk => (ht.fail hlegal disk).settled, ht.settled⟩
  rw [wp_bind, wp_modify, wp_modify]
  have hfail := (ht.fail hlegal (writeRun t.disk pblk [buffers[i]])).releasePending hzero
  refine ⟨{ hfail with }, htw.extendBlock hzero hi hmap ?_ ?_⟩
  · rw [releaseBarrier_eq]
    rfl
  · rw [releaseBarrier_eq]
    exact hzero

lemma Holding.claim (h : Holding blocknum i i s) : Holding blocknum i (i + 1) { s with
        claims := update s.claims (blocknum + i) (s.claims (blocknum + i) + 1)
        pendingBarrier := some (blocknum + i) } := by
  refine { h with pending := .inr ⟨rfl, rfl⟩, claims := fun l => ?_ }
  by_cases hl : l = blocknum + i
  · subst hl
    simp only [update_self, h.claims]
    rw [if_neg (by omega), if_pos (by omega)]
  · simp only [update_of_ne hl, h.claims]
    refine if_congr ?_ rfl rfl
    omega

lemma wp_writeBlock (h : Good map blocknum buffers disk₀ i s) (hi : i < buffers.length) :
    wp (writeBlock map blocknum buffers buffers[i] i) s
      (fun _ t => Good map blocknum buffers disk₀ (i + 1) t) (fun _ t => Settled t.handler) := by
  obtain ⟨hold, hw⟩ := h
  have hreset : Holding blocknum i i { s with pendingBarrier := none } :=
    { hold with pending := .inl ⟨rfl, rfl⟩ }
  have hclaim := hreset.claim
  rw [writeBlock, wp_bind, wp_modify, wp_bind, claimWriteBarrier, wp_bind, wp_mayRaise]
  refine ⟨?_, hreset.settled⟩
  rw [wp_modify, wp_bind, resolveForWrite, wp_bind, wp_mayRaise]
  refine ⟨?_, hclaim.settled⟩
  cases hm : map (blocknum + i) with
  | none =>
    rw [wp_raise]
    exact hclaim.settled
  | some =>
    rw [wp_pure, wp_bind, wp_read]
    split
    · exact wp_joinRun hclaim { hw with } (Nat.le_of_lt hi) hm
    · exact wp_extendBlock hclaim { hw with } hi hm

def Loop (map : ℕ → Option ℕ) (blocknum : ℕ) (buffers : List β) (disk₀ : ℕ → β)
    (rest : List (β × ℕ)) (s : Frame β) : Prop :=
  ∃ i ≤ buffers.length, rest = (buffers.drop i).zipIdx i ∧ Good map blocknum buffers disk₀ i s

lemma Loop.cons (h : Loop map blocknum buffers disk₀ (b :: rest) s) :
    ∃ (i : ℕ) (hi : i < buffers.length), b = (buffers[i], i)
      ∧ rest = (buffers.drop (i + 1)).zipIdx (i + 1) ∧ Good map blocknum buffers disk₀ i s := by
  obtain ⟨i, hle, heq, hgood⟩ := h
  have hi : i < buffers.length := by
    refine Nat.lt_of_le_of_ne hle ?_
    rintro rfl
    rw [drop_length] at heq
    cases heq
  rw [drop_eq_getElem_cons hi, zipIdx_cons] at heq
  cases heq
  exact ⟨i, hi, rfl, rfl, hgood⟩

lemma wp_body (h : Loop map blocknum buffers disk₀ (b :: rest) s) :
    wp (writeBlock map blocknum buffers b.1 b.2) s
      (fun _ t => Loop map blocknum buffers disk₀ rest t) (fun _ t => Settled t.handler) := by
  obtain ⟨i, hi, rfl, rfl, hgood⟩ := h.cons
  exact (wp_writeBlock hgood hi).imp fun _ t ht => ⟨i + 1, hi, rfl, ht⟩

lemma Loop.start (disk physicalNblocks) :
    Loop map blocknum buffers disk buffers.zipIdx (init disk physicalNblocks) := by
  refine ⟨0, zero_le _, by rw [drop_zero], ⟨zero_le _, rfl, .inl ⟨rfl, rfl⟩, ?_, ?_,
    forall_mem_nil _⟩, ⟨nofun, nofun, nofun, rfl⟩⟩
  · exact fun l => (if_neg (by omega)).symm
  · exact fun l => (if_neg (by omega)).symm

lemma Loop.end (h : Loop map blocknum buffers disk₀ [] s) :
    Good map blocknum buffers disk₀ buffers.length s := by
  obtain ⟨i, hle, heq, hgood⟩ := h
  have hnil : buffers.drop i = [] := zipIdx_eq_nil_iff.mp heq.symm
  obtain rfl : i = buffers.length := Nat.le_antisymm hle (drop_eq_nil_iff.mp hnil)
  exact hgood

lemma Holding.settled_of_empty (h : Holding blocknum i i s) (hzero : s.runBlocks = 0) :
    Settled s := by
  refine ⟨fun l => ?_, h.calls⟩
  rw [h.claims, h.releases, hzero, Nat.sub_zero]
  refine ⟨?_, rfl⟩
  split
  · exact Nat.le_refl 1
  · exact zero_le 1

lemma wp_umwritev (map : ℕ → Option ℕ) (blocknum : ℕ) (buffers : List β) (disk : ℕ → β)
    (physicalNblocks : ℕ) :
    wp (umwritev map blocknum buffers) (init disk physicalNblocks)
      (fun _ t => t.disk = writeBlockwise map blocknum disk buffers ∧ Settled t
        ∧ ∀ i < buffers.length, t.claims (blocknum + i) = 1)
      (fun _ t => Settled t) := by
  rw [umwritev, wp_bind, wp_onError, wp_bind]
  refine wp_forEach _ (Loop.start disk physicalNblocks) (fun _ _ _ h => wp_body h) fun t ht => ?_
  obtain ⟨hold, hw⟩ := ht.end
  refine (wp_flushWriteBarrierRun hold hw (Nat.le_refl _)).imp ?_
  rintro - u ⟨hu, huw, hzero⟩
  have hsettled : Settled u := hu.settled_of_empty hzero
  have hdisk : u.disk = writeBlockwise map blocknum disk buffers := by
    rw [huw.disk, hzero, Nat.sub_zero, take_length]
  have hclaims : ∀ i < buffers.length, u.claims (blocknum + i) = 1 := by
    intro i hi
    rw [hu.claims, if_pos ⟨Nat.le_add_right .., Nat.add_lt_add_left hi _⟩]
  rw [wp_bind, wp_mayRaise]
  refine ⟨?_, hsettled⟩
  rw [wp_bind, wp_modify, wp_mayRaise]
  split
  · exact ⟨⟨hdisk, hsettled, hclaims⟩, hsettled⟩
  · exact ⟨⟨hdisk, hsettled, hclaims⟩, hsettled⟩

/-! ### Writes that return -/

lemma returns_fileWritev (pblk bs) : Returns (fileWritev pblk bs) s :=
  ⟨(), _, mem_cons_self⟩

section Returns

variable (hold : Holding blocknum i n s) (hw : Written map blocknum buffers disk₀ i s)
  (hi : i ≤ buffers.length)
include hold hw hi

lemma returns_flushWriteBarrierRun : Returns (flushWriteBarrierRun buffers) s := by
  refine (returns_read id).bind ?_
  rw [wp_read]
  split
  case isTrue => exact returns_pure ()
  case isFalse hne =>
    have hlegal := hw.legal_vector hold.runBlocks_le hi (Nat.pos_of_ne_zero hne)
    rw [id, umfileWritev_of_legal hlegal]
    refine Returns.bind ?_ (wp_trivial fun _ _ => returns_modify _)
    exact (returns_mayRaise _).bind (wp_trivial fun _ _ => returns_fileWritev ..)

lemma returns_joinRun (pblk) : Returns (joinRun buffers pblk i) s := by
  refine (returns_read id).bind ?_
  rw [wp_read]
  split
  case isTrue => exact (returns_modify _).bind (wp_trivial fun _ _ => returns_modify _)
  case isFalse =>
    split
    case isTrue =>
      refine (returns_flushWriteBarrierRun hold hw hi).bind (wp_trivial fun _ _ => ?_)
      exact (returns_modify _).bind (wp_trivial fun _ _ => returns_modify _)
    case isFalse => exact returns_modify _

lemma returns_extendBlock (pblk buffer) : Returns (extendBlock buffers pblk buffer) s := by
  refine (returns_flushWriteBarrierRun hold hw hi).bind (wp_trivial fun _ _ => ?_)
  refine Returns.bind ?_ (wp_trivial fun _ _ => ?_)
  · exact (returns_mayRaise _).bind (wp_trivial fun _ _ => returns_fileWritev ..)
  · exact (returns_modify _).bind (wp_trivial fun _ _ => returns_modify _)

end Returns

lemma returns_writeBlock (h : Good map blocknum buffers disk₀ i s) (hi : i < buffers.length)
    (hmap : map (blocknum + i) ≠ none) :
    Returns (writeBlock map blocknum buffers buffers[i] i) s := by
  obtain ⟨hold, hw⟩ := h
  obtain ⟨pblk, hpblk⟩ := Option.ne_none_iff_exists'.mp hmap
  have hclaim := Holding.claim (s := { s with pendingBarrier := none })
    { hold with pending := .inl ⟨rfl, rfl⟩ }
  have hw' : Written map blocknum buffers disk₀ i
      { s with
        claims := update s.claims (blocknum + i) (s.claims (blocknum + i) + 1)
        pendingBarrier := some (blocknum + i) } :=
    { hw with }
  refine (returns_modify _).bind ?_
  rw [wp_modify, claimWriteBarrier]
  refine Returns.bind ((returns_mayRaise _).bind (wp_trivial fun _ _ => returns_modify _)) ?_
  rw [wp_bind, wp_mayRaise, wp_modify, resolveForWrite, hpblk]
  refine ⟨Returns.bind ((returns_mayRaise _).bind (wp_trivial fun _ _ => returns_pure _)) ?_,
    trivial⟩
  rw [wp_bind, wp_mayRaise, wp_pure]
  refine ⟨(returns_read id).bind ?_, trivial⟩
  rw [wp_read]
  split
  · exact returns_joinRun hclaim hw' (Nat.le_of_lt hi) pblk
  · exact returns_extendBlock hclaim hw' (Nat.le_of_lt hi) pblk _

lemma returns_umwritev (disk physicalNblocks)
    (hmap : ∀ i < buffers.length, map (blocknum + i) ≠ none) :
    Returns (umwritev map blocknum buffers) (init disk physicalNblocks) := by
  have hstart : Loop map blocknum buffers disk buffers.zipIdx (init disk physicalNblocks) :=
    Loop.start disk physicalNblocks
  refine Returns.bind (Returns.onError (Returns.bind ?_ ?_) _) (wp_trivial fun _ _ => ?_)
  · refine returns_forEach (Loop map blocknum buffers disk) hstart (fun _ _ _ h => wp_body h) ?_
    intro b rest t ht
    obtain ⟨i, hi, rfl, -, hgood⟩ := ht.cons
    exact returns_writeBlock hgood hi (hmap i hi)
  · refine wp_forEach (Loop map blocknum buffers disk) hstart
      (fun _ _ _ h => (wp_body h).mono (fun _ _ ht => ht) fun _ _ _ => trivial) fun t ht => ?_
    exact returns_flushWriteBarrierRun ht.end.1 ht.end.2 (Nat.le_refl _)
  · refine (returns_mayRaise _).bind (wp_trivial fun _ _ => ?_)
    exact (returns_modify _).bind (wp_trivial fun _ _ => returns_mayRaise _)

end Steps

end Umbra.RunBatching
