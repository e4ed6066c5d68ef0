import Mathlib.Data.Finset.Card

/-!
# Dropping a relation

A fork is stored in segment files. `umunlink` deletes the segments of a fork from segment 0 upwards
until the first one that does not exist, partly at once and partly through unlink requests that the
next checkpoint processes. Reclaim leaves forks with gaps, and the segments behind a gap stay.
-/

namespace Umbra

open Function List

inductive FileFork
  | main
  | fsm
  | vm
  | init
  | metadata
  deriving DecidableEq, Repr

structure UnlinkMode where
  isRedo : Bool
  isTemp : Bool
  isBinaryUpgrade : Bool
  deriving DecidableEq, Repr

structure DropState where
  files : FileFork → Finset Nat
  unlinks : List (FileFork × Nat)

namespace DropState

def register (st : DropState) (fork : FileFork) (segno : Nat) : DropState :=
  { st with unlinks := st.unlinks ++ [(fork, segno)] }

def setFiles (st : DropState) (fork : FileFork) (segs : Finset Nat) : DropState :=
  { st with files := update st.files fork segs }

end DropState

/-- The loop `for (segno = 1;; segno++)` of `umfile_unlink`: unlink segment after segment until one
is missing. -/
def removeSegmentsFrom (segs : Finset Nat) (segno : Nat) : Finset Nat :=
  if segno ∈ segs then removeSegmentsFrom (segs.erase segno) (segno + 1) else segs
termination_by segs.card
decreasing_by exact Finset.card_erase_lt_of_mem ‹_›

/-- The loop of `umfile_register_dense_existing_segs_for_unlink`: the segments it registers. -/
def denseExistingSegs (segs : Finset Nat) (segno : Nat) : List Nat :=
  if segno ∈ segs then segno :: denseExistingSegs segs (segno + 1) else []
termination_by (segs.filter (segno ≤ ·)).card
decreasing_by
  apply Finset.card_lt_card
  rw [Finset.ssubset_iff]
  refine ⟨segno, by simp, ?_⟩
  intro n hn
  simp only [Finset.mem_insert, Finset.mem_filter] at hn ⊢
  rcases hn with rfl | ⟨hmem, hle⟩
  · exact ⟨‹_›, le_rfl⟩
  · exact ⟨hmem, by omega⟩

def umfileRegisterDenseExistingSegsForUnlink (st : DropState) (fork : FileFork) : DropState :=
  (denseExistingSegs (st.files fork) 0).foldl (fun st segno => st.register fork segno) st

/-- `umfile_unlink`. The segments behind the first are looked at only if segment 0 exists. -/
def umfileUnlink (mode : UnlinkMode) (st : DropState) (fork : FileFork) : DropState :=
  if !mode.isRedo && !mode.isTemp && fork = .metadata then
    umfileRegisterDenseExistingSegsForUnlink st fork
  else if mode.isRedo || mode.isBinaryUpgrade || fork ≠ .main || mode.isTemp then
    -- segment 0 goes at once
    if 0 ∈ st.files fork then
      st.setFiles fork (removeSegmentsFrom ((st.files fork).erase 0) 1)
    else st
  else
    -- segment 0 of MAIN stays as a tombstone until the next checkpoint
    if 0 ∈ st.files fork then
      (st.register fork 0).setFiles fork (removeSegmentsFrom (st.files fork) 1)
    else st.register fork 0

/-- `umunlink` of a whole relation: MAIN, the metadata fork, then the other forks. -/
def umunlink (mode : UnlinkMode) (st : DropState) : DropState :=
  [FileFork.main, .metadata, .fsm, .vm, .init].foldl (umfileUnlink mode) st

/-- The checkpointer unlinks what was registered; a missing file is no error. -/
def processUnlinks (st : DropState) : FileFork → Finset Nat :=
  st.unlinks.foldl (fun files req => update files req.1 ((files req.1).erase req.2)) st.files

/-! ### The two loops -/

def RunsTo (segs : Finset Nat) (k n : Nat) : Prop := ∀ m, k ≤ m → m ≤ n → m ∈ segs

lemma mem_removeSegmentsFrom (segs k n) :
    n ∈ removeSegmentsFrom segs k ↔ n ∈ segs ∧ (n < k ∨ ¬ RunsTo segs k n) := by
  induction segs, k using removeSegmentsFrom.induct with
  | case1 segs k hk ih =>
    rw [removeSegmentsFrom, if_pos hk, ih, Finset.mem_erase]
    constructor
    · rintro ⟨⟨hne, hmem⟩, h⟩
      refine ⟨hmem, ?_⟩
      rcases h with h | h
      · exact .inl (by omega)
      · refine .inr fun hrun => h fun m hm hmn => ?_
        exact Finset.mem_erase.mpr ⟨by omega, hrun m (by omega) hmn⟩
    · rintro ⟨hmem, h⟩
      have hne : n ≠ k := by
        rintro rfl
        rcases h with h | h
        · omega
        · exact h fun m hm hmn => by rwa [le_antisymm hmn hm]
      refine ⟨⟨hne, hmem⟩, ?_⟩
      rcases h with h | h
      · exact .inl (by omega)
      · refine .inr fun hrun => h fun m hm hmn => ?_
        rcases eq_or_lt_of_le hm with rfl | hlt
        · exact hk
        · exact (Finset.mem_erase.mp (hrun m hlt hmn)).2
  | case2 segs k hk =>
    rw [removeSegmentsFrom, if_neg hk]
    refine ⟨fun hmem => ⟨hmem, ?_⟩, And.left⟩
    by_contra hcon
    push Not at hcon
    exact hk (hcon.2 k le_rfl hcon.1)

lemma mem_denseExistingSegs (segs k n) :
    n ∈ denseExistingSegs segs k ↔ k ≤ n ∧ RunsTo segs k n := by
  induction k using denseExistingSegs.induct segs with
  | case1 k hk ih =>
    rw [denseExistingSegs, if_pos hk, mem_cons, ih]
    constructor
    · rintro (rfl | ⟨hle, hrun⟩)
      · exact ⟨le_rfl, fun m hm hmn => by rwa [le_antisymm hmn hm]⟩
      · refine ⟨by omega, fun m hm hmn => ?_⟩
        rcases eq_or_lt_of_le hm with rfl | hlt
        · exact hk
        · exact hrun m hlt hmn
    · rintro ⟨hle, hrun⟩
      rcases eq_or_lt_of_le hle with rfl | hlt
      · exact .inl rfl
      · exact .inr ⟨hlt, fun m hm hmn => hrun m (by omega) hmn⟩
  | case2 k hk =>
    rw [denseExistingSegs, if_neg hk]
    simp only [not_mem_nil, false_iff]
    rintro ⟨hle, hrun⟩
    exact hk (hrun k le_rfl hle)

/-! ### What is left of one fork -/

namespace DropState

def Left (st : DropState) (fork : FileFork) (n : Nat) : Prop :=
  n ∈ st.files fork ∧ (fork, n) ∉ st.unlinks

variable (st : DropState) (fork : FileFork)
include st fork

@[simp] lemma files_register (segno) :
    (st.register fork segno).files = st.files := rfl

@[simp] lemma files_setFiles_self (segs) :
    (st.setFiles fork segs).files fork = segs := update_self ..

@[simp] lemma unlinks_setFiles (segs) :
    (st.setFiles fork segs).unlinks = st.unlinks := rfl

lemma mem_unlinks_register (segno req) :
    req ∈ (st.register fork segno).unlinks ↔ req ∈ st.unlinks ∨ req = (fork, segno) := by
  simp [register]

end DropState

lemma registerAll_spec (fork : FileFork) (segnos : List Nat) (st : DropState) :
    (segnos.foldl (fun st segno => st.register fork segno) st).files = st.files ∧
      ∀ req, req ∈ (segnos.foldl (fun st segno => st.register fork segno) st).unlinks ↔
        req ∈ st.unlinks ∨ req.1 = fork ∧ req.2 ∈ segnos := by
  induction segnos generalizing st with
  | nil => exact ⟨rfl, fun req => by simp⟩
  | cons segno segnos ih =>
    obtain ⟨hfiles, hreqs⟩ := ih (st.register fork segno)
    refine ⟨hfiles, fun req => ?_⟩
    rw [foldl_cons, hreqs, DropState.mem_unlinks_register, mem_cons, Prod.ext_iff]
    tauto

variable {fork : FileFork} {segs : Finset Nat} {n : Nat} {forks : List FileFork}

lemma umfileUnlink_of_ne (mode st) {fork'} (h : fork' ≠ fork) :
    (umfileUnlink mode st fork).files fork' = st.files fork' ∧
      ∀ n, (fork', n) ∈ (umfileUnlink mode st fork).unlinks ↔ (fork', n) ∈ st.unlinks := by
  have hreg : ∀ n segno, (fork', n) ∈ (st.register fork segno).unlinks ↔
      (fork', n) ∈ st.unlinks := by
    intro n segno
    simp [DropState.mem_unlinks_register, h]
  unfold umfileUnlink
  split_ifs
  · obtain ⟨hfiles, hreqs⟩ := registerAll_spec fork (denseExistingSegs (st.files fork) 0) st
    refine ⟨congrFun hfiles fork', fun n => ?_⟩
    rw [umfileRegisterDenseExistingSegsForUnlink, hreqs]
    simp [h]
  · exact ⟨update_of_ne h .., fun n => Iff.rfl⟩
  · exact ⟨rfl, fun n => Iff.rfl⟩
  · exact ⟨update_of_ne h .., fun n => hreg n 0⟩
  · exact ⟨rfl, fun n => hreg n 0⟩

def BehindGap (segs : Finset Nat) (n : Nat) : Prop := n ∈ segs ∧ ∃ m < n, m ∉ segs

lemma behindGap_iff : BehindGap segs n ↔ n ∈ segs ∧ ¬ RunsTo segs 0 n := by
  refine and_congr_right fun hn => ⟨?_, ?_⟩
  · rintro ⟨m, hmn, hm⟩ hrun
    exact hm (hrun m (Nat.zero_le _) hmn.le)
  · intro hrun
    simp only [RunsTo, not_forall] at hrun
    obtain ⟨m, -, hmn, hm⟩ := hrun
    refine ⟨m, lt_of_le_of_ne hmn ?_, hm⟩
    rintro rfl
    exact hm hn

lemma runsTo_zero (h0 : 0 ∈ segs) : RunsTo segs 0 n ↔ RunsTo segs 1 n := by
  refine ⟨fun hrun m _ => hrun m (Nat.zero_le _), fun hrun m _ hmn => ?_⟩
  rcases Nat.eq_zero_or_pos m with rfl | hpos
  · exact h0
  · exact hrun m hpos hmn

lemma runsTo_one_of_pos (h0 : 0 ∈ segs) :
    n ≠ 0 ∧ (n < 1 ∨ ¬ RunsTo segs 1 n) ↔ ¬ RunsTo segs 0 n := by
  rw [runsTo_zero h0]
  constructor
  · rintro ⟨hne, h | h⟩
    · omega
    · exact h
  · intro h
    refine ⟨?_, .inr h⟩
    rintro rfl
    exact h fun m hm hm0 => by omega

lemma not_runsTo_zero (h0 : 0 ∉ segs) (n) : ¬ RunsTo segs 0 n :=
  fun hrun => h0 (hrun 0 le_rfl (Nat.zero_le _))

lemma umfileUnlink_left (mode st fork) (hreq : ∀ n, (fork, n) ∉ st.unlinks) (n) :
    (umfileUnlink mode st fork).Left fork n ↔ BehindGap (st.files fork) n := by
  rw [behindGap_iff]
  unfold umfileUnlink
  split_ifs with hmeta himm h0 h0
  · obtain ⟨hfiles, hreqs⟩ := registerAll_spec fork (denseExistingSegs (st.files fork) 0) st
    rw [DropState.Left, umfileRegisterDenseExistingSegsForUnlink, hfiles, hreqs,
      mem_denseExistingSegs]
    simp [hreq n]
  · have hrun : RunsTo ((st.files fork).erase 0) 1 n ↔ RunsTo (st.files fork) 1 n := by
      refine forall_congr' fun m => forall_congr' fun hm => forall_congr' fun _ => ?_
      rw [Finset.mem_erase, and_iff_right (by omega : m ≠ 0)]
    rw [DropState.Left, DropState.files_setFiles_self, DropState.unlinks_setFiles,
      mem_removeSegmentsFrom, Finset.mem_erase, hrun, ← runsTo_one_of_pos h0]
    have := hreq n
    tauto
  · have := hreq n
    have := not_runsTo_zero h0 n
    exact and_congr_right fun _ => by tauto
  · rw [DropState.Left, DropState.files_setFiles_self, DropState.unlinks_setFiles,
      mem_removeSegmentsFrom, DropState.mem_unlinks_register, ← runsTo_one_of_pos h0]
    have := hreq n
    simp only [Prod.mk.injEq, true_and]
    tauto
  · have := hreq n
    have := not_runsTo_zero h0 n
    rw [DropState.Left, DropState.files_register, DropState.mem_unlinks_register]
    refine and_congr_right fun hmem => ?_
    have hne : n ≠ 0 := by
      rintro rfl
      exact h0 hmem
    simp only [Prod.mk.injEq, true_and]
    tauto

/-! ### The whole relation -/

lemma foldl_umfileUnlink_of_notMem (mode) (h : fork ∉ forks) (st n) :
    (forks.foldl (umfileUnlink mode) st).Left fork n ↔ st.Left fork n := by
  induction forks generalizing st with
  | nil => rfl
  | cons f forks ih =>
    rw [mem_cons, not_or] at h
    obtain ⟨hfiles, hreqs⟩ := umfileUnlink_of_ne mode st h.1
    rw [foldl_cons, ih h.2, DropState.Left, hfiles, hreqs, DropState.Left]

lemma foldl_umfileUnlink_left (mode) (hnd : forks.Nodup) (hmem : fork ∈ forks) (st)
    (hreq : ∀ n, (fork, n) ∉ st.unlinks) (n) :
    (forks.foldl (umfileUnlink mode) st).Left fork n ↔ BehindGap (st.files fork) n := by
  induction forks generalizing st with
  | nil => cases hmem
  | cons f forks ih =>
    rw [nodup_cons] at hnd
    rw [foldl_cons]
    by_cases hf : fork = f
    · subst hf
      rw [foldl_umfileUnlink_of_notMem mode hnd.1, umfileUnlink_left mode st fork hreq]
    · obtain ⟨hfiles, hreqs⟩ := umfileUnlink_of_ne mode st hf
      rw [ih hnd.2 ((mem_cons.mp hmem).resolve_left hf) _ fun n => ?_, hfiles]
      rw [hreqs]
      exact hreq n

lemma mem_processUnlinks (reqs : List (FileFork × Nat)) (files : FileFork → Finset Nat)
    (fork : FileFork) (n : Nat) :
    n ∈ reqs.foldl (fun files req => update files req.1 ((files req.1).erase req.2))
        files fork ↔ n ∈ files fork ∧ (fork, n) ∉ reqs := by
  induction reqs generalizing files with
  | nil => simp
  | cons req reqs ih =>
    rw [foldl_cons, ih, mem_cons, update_apply]
    split_ifs with hf
    · subst hf
      rw [Finset.mem_erase, Prod.ext_iff]
      tauto
    · have hne : (fork, n) ≠ req := fun h => hf (congrArg Prod.fst h)
      tauto

theorem mem_processUnlinks_umunlink (mode : UnlinkMode) (files : FileFork → Finset Nat)
    (fork : FileFork) (n : Nat) :
    n ∈ processUnlinks (umunlink mode ⟨files, []⟩) fork ↔ BehindGap (files fork) n := by
  have hmem : fork ∈ [FileFork.main, .metadata, .fsm, .vm, .init] := by cases fork <;> decide
  rw [processUnlinks, mem_processUnlinks]
  exact foldl_umfileUnlink_left mode (by decide) hmem ⟨files, []⟩ (fun n => not_mem_nil) n

/-- The segments of a fork are numbered without a gap from 0. -/
def Gapless (segs : Finset Nat) : Prop := ∀ n ∈ segs, ∀ m < n, m ∈ segs

/-- Dropping a relation removes all its segment files exactly if no fork has a gap. -/
theorem umunlink_removes_all_iff (mode : UnlinkMode) (files : FileFork → Finset Nat) :
    (∀ fork ∈ [FileFork.main, .fsm, .vm, .metadata],
        processUnlinks (umunlink mode ⟨files, []⟩) fork = ∅) ↔
      ∀ fork ∈ [FileFork.main, .fsm, .vm, .metadata], Gapless (files fork) := by
  refine forall_congr' fun fork => forall_congr' fun _ => ?_
  rw [Finset.eq_empty_iff_forall_notMem]
  refine forall_congr' fun n => ?_
  rw [mem_processUnlinks_umunlink, BehindGap]
  push Not
  rfl

/-- Segment 0 of MAIN was reclaimed, segment 1 is in use: the drop leaves segment 1 behind. -/
theorem umunlink_leaves_segment :
    1 ∈ processUnlinks (umunlink ⟨false, false, false⟩
      ⟨fun fork => if fork = .main then {1} else if fork = .metadata then {0} else ∅, []⟩)
      .main := by
  rw [mem_processUnlinks_umunlink]
  exact ⟨by decide, 0, by decide, by decide⟩

end Umbra
