import Umbra.Recovery.Redo
import Mathlib.Data.List.Basic

/-!
# No change is skipped silently

The two tables hold the changes that have been skipped and not been covered, but for what is skipped
by the records of the Umbra resource manager, by updates of the superblock after the consistency
point, and by truncations of the auxiliary forks. Crash recovery does not look at them. A page that
redo zeroes is never skipped; beyond the end of a main fork it needs its mapping.
-/

namespace Umbra.Recovery

open Foundation List

def RedoFork.Auxiliary (fork : RedoFork) : Prop := fork = .mapped .fsm ∨ fork = .mapped .vm

instance (fork : RedoFork) : Decidable fork.Auxiliary := inferInstanceAs (Decidable (_ ∨ _))

/-- The page is read in a mode that does not look at it first. -/
def BlockRef.zeroes (r : BlockRef) : Bool := r.image || r.mode ≠ .normal

/-- The record gives birth to its block and moves the end of the fork behind it. -/
def BlockRef.bears (r : BlockRef) : Bool :=
  r.remap.any fun m => m.oldPblkno = none && r.key.block < m.logicalNblocks.getD (r.key.block + 1)

/-- From the end of a main fork up to the block every block has its mapping, the block itself
perhaps only from the record. -/
def Storage.Backs (t : Storage) (r : BlockRef) : Prop :=
  t.usesMap r.key.locator r.key.fork = true → r.key.fork = .mapped .main →
    ∀ b < r.key.block + 1, t.nblocks r.key.locator r.key.fork ≤ b →
      t.mapped { r.key with block := b } = true ∨ r.remap.isSome ∧ b = r.key.block

instance (t : Storage) (r : BlockRef) : Decidable (t.Backs r) := by
  unfold Storage.Backs
  infer_instance

/-- Records of the Umbra resource manager find the metadata and the old block, as does a superblock
update after the consistency point, no page of an auxiliary fork is missing, a page that is zeroed
beyond the end of a main fork has its mapping, and crash recovery ends with empty tables. -/
def Kept (minRecoveryPoint : Bool) (s : State) : Event → Prop
  | .block r => (r.mode = .normal → ¬ r.key.fork.Auxiliary) ∧ (r.zeroes = true → r.bears = false →
      (s.storage.ensureMetadata r.key.locator r.key.fork).Backs r)
  | .mapSet locator _ _ oldPblkno nblocks =>
    s.storage.metadata locator = true ∧ oldPblkno.all (· < nblocks) = true
  | .rangeRemap locator .. | .skipWalDenseMap locator _ => s.storage.metadata locator = true
  | .superUpdate locator _ _ _ cached =>
    s.notes.reachedConsistency = true → (cached || s.storage.metadata locator) = true
  | .finish =>
    minRecoveryPoint = false → s.notes.invalidPages = [] ∧ s.notes.missingMetadata = []
  | .smgrCreate .. | .smgrTruncate .. | .dropRelation _ | .dropDatabase .. | .checkConsistency =>
    True

instance (minRecoveryPoint : Bool) (s : State) (e : Event) :
    Decidable (Kept minRecoveryPoint s e) := by
  unfold Kept
  split <;> infer_instance

/-! ### What redo does to the notes -/

variable {cached : Bool} {r : BlockRef}

namespace State

variable {s : State} {locator : RelFileLocator} {key : PageKey} {n : Notes}

@[simp] lemma storage_store (s : State) (f : Storage → Storage) :
    (s.store f).storage = f s.storage := rfl

lemma prepareSuper_of_metadata (h : (cached || s.storage.metadata locator) = true) :
    s.prepareSuper locator cached = (s, true) := if_pos h

lemma updateLogicalNblocks_of_metadata {fork}
    (h : fork = .init ∨ (cached || s.storage.metadata locator) = true) (n bumpOnly) :
    ∃ nblocks, s.updateLogicalNblocks locator fork n bumpOnly cached =
      { s with storage := { s.storage with nblocks } } ∧
      (bumpOnly = true → s.storage.nblocks locator fork ≤ nblocks locator fork ∧
        (fork ≠ .init → n ≤ nblocks locator fork)) := by
  by_cases hinit : fork = .init
  · exact ⟨s.storage.nblocks, if_pos hinit, fun _ => ⟨Nat.le_refl _, absurd hinit⟩⟩
  · have hprepare := prepareSuper_of_metadata (h.resolve_left hinit)
    refine ⟨_, by rw [updateLogicalNblocks, if_neg hinit, hprepare]; rfl, ?_⟩
    rintro rfl
    exact ⟨by simp [Nat.le_max_left], by simp [Nat.le_max_right]⟩

lemma exists_updateLogicalNblocks (h : s.storage.metadata locator = true) (fork n bumpOnly) :
    ∃ nblocks, s.updateLogicalNblocks locator fork n bumpOnly false =
      { s with storage := { s.storage with nblocks } } := by
  obtain ⟨nblocks, heq, -⟩ := updateLogicalNblocks_of_metadata
    (show fork = .init ∨ (false || s.storage.metadata locator) = true from .inr h) n bumpOnly
  exact ⟨nblocks, heq⟩

inductive Outcome (n : Notes) (r : BlockRef) : State × Bool → Prop
  | found {s : State} (h : s.notes = n) : Outcome n r (s, true)
  | malformed {s : State} (h : s.notes = { n with panic := some .invalidOldPblk }) :
      Outcome n r (s, true)
  | missing {s present} (hmode : r.mode = .normal) (h : s.notes = n.logInvalidPage r.key present) :
      Outcome n r (s, false)

lemma Outcome.of_found {result} (hfound : result.2 = true) (h : result.1.notes = n) :
    Outcome n r result := by
  obtain ⟨s, found⟩ := result
  cases hfound
  exact .found h

lemma unborn_eq_false {t : Storage}
    (h : t.usesMap key.locator key.fork = true → key.fork = .mapped .main →
      ∀ b < key.block + 1, t.nblocks key.locator key.fork ≤ b →
        t.mapped { key with block := b } = true) : t.unborn key = false := by
  refine Bool.eq_false_iff.mpr fun hunborn => ?_
  simp only [Storage.unborn, Bool.and_eq_true, decide_eq_true_eq, any_eq_true, mem_range,
    Bool.not_eq_true'] at hunborn
  obtain ⟨⟨huses, hmain⟩, b, hb, hge, hnot⟩ := hunborn
  exact absurd ((h huses hmain b hb hge).symm.trans hnot) nofun

def Born (s : State) (key : PageKey) : Prop :=
  s.storage.nblocks key.locator key.fork ≤ key.block → s.storage.unborn key = false

lemma readBufferExtended_zeroAndLock (h : s.Born key) :
    (s.readBufferExtended key .zeroAndLock false).2 = true ∧
      (s.readBufferExtended key .zeroAndLock false).1.notes = s.notes := by
  simp only [readBufferExtended, reduceCtorEq, false_and, if_false]
  split
  · exact ⟨rfl, rfl⟩
  next hge =>
    rw [h (Nat.not_lt.mp hge)]
    exact ⟨rfl, rfl⟩

lemma outcome_readBufferExtended (r) (h : s.notes = n) (hborn : r.mode ≠ .normal → s.Born r.key) :
    Outcome n r (s.readBufferExtended r.key r.mode r.isNew) := by
  subst h
  simp only [readBufferExtended]
  split
  · split
    next h => exact .missing h.1 rfl
    next => exact .found rfl
  next hge =>
    split
    next h => exact .missing h rfl
    next hmode =>
      rw [hborn hmode (Nat.not_lt.mp hge)]
      exact .found rfl

lemma metadata_readBufferExtended (s : State) (key : PageKey) (mode : ReadBufferMode)
    (isNew : Bool) :
    (s.readBufferExtended key mode isNew).1.storage.metadata = s.storage.metadata := by
  simp only [readBufferExtended]
  split
  · split <;> rfl
  · split
    · rfl
    · split <;> rfl

def Ensured (s : State) (key : PageKey) : Prop :=
  key.fork = .init ∨ s.storage.metadata key.locator = true

lemma ensured_ensureMetadata (s : State) (key : PageKey) :
    (s.store (·.ensureMetadata key.locator key.fork)).Ensured key := by
  by_cases h : key.fork = .init ∨ s.storage.metadata key.locator = true
  · rw [Ensured, storage_store, Storage.ensureMetadata, if_pos h]
    exact h
  · rw [Ensured, storage_store, Storage.ensureMetadata, if_neg h]
    exact .inr (Function.update_self ..)

lemma ensureMappedBlock_of_ensured (h : s.Ensured key)
    (hmapped : s.storage.usesMap key.locator key.fork = true → s.storage.mapped key = true) :
    s.ensureMappedBlock key = (s, true) := by
  rcases h with hinit | hmeta
  · rw [ensureMappedBlock, if_pos hinit]
  · simp only [ensureMappedBlock, hmeta, Bool.true_eq_false, if_false]
    cases huses : s.storage.usesMap key.locator key.fork with
    | false => simp
    | true => simp [hmapped huses]

lemma ensured_setMapping (h : s.Ensured key) : (s.store (·.setMapping key)).Ensured key := by
  simp only [Ensured, storage_store, Storage.setMapping]
  split <;> exact h

lemma mapped_setMapping (t : Storage) (key : PageKey)
    (h : (t.setMapping key).usesMap key.locator key.fork = true) :
    (t.setMapping key).mapped key = true := by
  cases huses : t.usesMap key.locator key.fork with
  | false =>
    rw [Storage.setMapping, huses] at h
    exact absurd (huses.symm.trans h) Bool.false_ne_true
  | true =>
    rw [Storage.setMapping, huses, if_pos rfl]
    exact Function.update_self ..

lemma bumpNextFreePhysBlock_of_ensured (h : s.Ensured key) :
    s.bumpNextFreePhysBlock key.locator key.fork = s := by
  by_cases hinit : key.fork = .init
  · exact if_pos hinit
  · have hprepare : s.prepareSuper key.locator false = (s, true) :=
      prepareSuper_of_metadata (h.resolve_left hinit)
    rw [bumpNextFreePhysBlock, if_neg hinit, hprepare]

lemma setMapping_eq (t : Storage) (key : PageKey) :
    t.setMapping key = { t with mapped := (t.setMapping key).mapped } := by
  unfold Storage.setMapping
  split <;> rfl

lemma mapped_setMapping_of_mapped {t : Storage} {k : PageKey} (h : t.mapped k = true)
    (key : PageKey) : (t.setMapping key).mapped k = true := by
  unfold Storage.setMapping
  split
  · by_cases hk : k = key
    · exact hk ▸ Function.update_self ..
    · exact (Function.update_of_ne hk ..).trans h
  · exact h

/-- The mapping that the record brings and a later end make up for what `Backs` leaves open. -/
lemma born_setMapping (nblocks : RelFileLocator → RedoFork → Nat)
    (hbears : r.bears = true → r.key.fork ≠ .init → r.key.block < nblocks r.key.locator r.key.fork)
    (hle : s.storage.nblocks r.key.locator r.key.fork ≤ nblocks r.key.locator r.key.fork)
    (hbacks : r.bears = false → s.storage.Backs r) :
    Born { s with storage := { s.storage.setMapping r.key with nblocks } } r.key := by
  intro hge
  refine unborn_eq_false fun huses hmain b hb hnb => ?_
  have huses' : s.storage.usesMap r.key.locator r.key.fork = true := by
    rwa [setMapping_eq] at huses
  cases hr : r.bears with
  | true => exact absurd (hbears hr (by simp [hmain])) (Nat.not_lt.mpr hge)
  | false =>
    rcases hbacks hr huses' hmain b hb (Nat.le_trans hle hnb) with hmapped | ⟨-, rfl⟩
    · exact mapped_setMapping_of_mapped hmapped r.key
    · exact mapped_setMapping s.storage r.key (by rwa [setMapping_eq])

lemma redoRemapInit_found (h : s.Ensured r.key) {m} (hm : r.remap = some m)
    (hbacks : r.bears = false → s.storage.Backs r) :
    (s.redoRemapInit r.key m).2 = true ∧ (s.redoRemapInit r.key m).1.notes = s.notes := by
  have hensured := ensured_setMapping h
  have hend : (s.storage.setMapping r.key).nblocks = s.storage.nblocks := by rw [setMapping_eq]
  obtain ⟨nblocks, hnblocks, hborn⟩ : ∃ nblocks,
      (if m.oldPblkno = none then
        (s.store (·.setMapping r.key)).updateLogicalNblocks r.key.locator r.key.fork
          (m.logicalNblocks.getD (r.key.block + 1)) true false
      else s.store (·.setMapping r.key)) =
      { s.store (·.setMapping r.key) with
        storage := { (s.store (·.setMapping r.key)).storage with nblocks } } ∧
      Born { s with storage := { s.storage.setMapping r.key with nblocks } } r.key := by
    split
    next hold =>
      obtain ⟨nblocks, heq, hmax⟩ := updateLogicalNblocks_of_metadata
        (show _ ∨ (false || _) = true from hensured) (m.logicalNblocks.getD (r.key.block + 1)) true
      obtain ⟨hle, hnew⟩ := hmax rfl
      rw [storage_store, hend] at hle
      refine ⟨nblocks, heq, born_setMapping _ (fun hbears hinit => ?_) hle hbacks⟩
      simp only [BlockRef.bears, hm, Option.any_some, Bool.and_eq_true, decide_eq_true_eq] at hbears
      exact Nat.lt_of_lt_of_le hbears.2 (hnew hinit)
    next hold =>
      refine ⟨(s.storage.setMapping r.key).nblocks, rfl, born_setMapping _ (fun hbears => ?_)
        (Nat.le_of_eq (by rw [hend])) hbacks⟩
      simp [BlockRef.bears, hm, hold] at hbears
  have hmapped := @ensureMappedBlock_of_ensured { s.store (·.setMapping r.key) with
    storage := { (s.store (·.setMapping r.key)).storage with nblocks } } r.key
    hensured (mapped_setMapping s.storage r.key)
  simp only [redoRemapInit, bumpNextFreePhysBlock_of_ensured hensured, hnblocks, hmapped]
  exact readBufferExtended_zeroAndLock hborn

lemma outcome_redoRemapDelta (h : s.Ensured r.key) {m} (hm : r.remap = some m)
    (hold : m.oldPblkno ≠ none) (hbacks : r.mode ≠ .normal → r.bears = false → s.storage.Backs r) :
    Outcome s.notes r (s.redoRemapDelta r m) := by
  have hensured := ensured_setMapping h
  have hmapped := ensureMappedBlock_of_ensured hensured (mapped_setMapping s.storage r.key)
  simp only [redoRemapDelta, hmapped]
  have hmeta := metadata_readBufferExtended (s.store (·.setMapping r.key)) r.key r.mode r.isNew
  have houtcome : Outcome s.notes r
      ((s.store (·.setMapping r.key)).readBufferExtended r.key r.mode r.isNew) := by
    refine outcome_readBufferExtended r rfl fun hmode => ?_
    refine born_setMapping (s.storage.setMapping r.key).nblocks (fun hbears => ?_)
      (Nat.le_of_eq (by rw [setMapping_eq])) (hbacks hmode)
    simp [BlockRef.bears, hm, hold] at hbears
  generalize (s.store (·.setMapping r.key)).readBufferExtended r.key r.mode r.isNew = result
    at hmeta houtcome
  obtain ⟨t, found⟩ := result
  cases found with
  | false => exact houtcome
  | true =>
    have ht : t.Ensured r.key := hensured.imp_right fun h => (congrFun hmeta _).trans h
    simp only [bumpNextFreePhysBlock_of_ensured ht, ite_self]
    exact houtcome

lemma born_of_backs (hremap : r.remap = none) (hbacks : r.bears = false → s.storage.Backs r) :
    s.Born r.key := by
  refine fun _ => unborn_eq_false fun huses hmain b hb hnb => ?_
  rcases hbacks (by rw [BlockRef.bears, hremap]; rfl) huses hmain b hb hnb with h | ⟨h, -⟩
  · exact h
  · simp [hremap] at h

lemma outcome_readBufferForRedo (s : State) {r : BlockRef}
    (hbacks : r.zeroes = true → r.bears = false →
      (s.storage.ensureMetadata r.key.locator r.key.fork).Backs r) :
    Outcome s.notes r (s.readBufferForRedo r) := by
  have hensured := ensured_ensureMetadata s r.key
  have hmodes : r.mode ≠ .normal → r.zeroes = true := fun h => by simp [BlockRef.zeroes, h]
  simp only [readBufferForRedo]
  split
  next hremap =>
    split
    next himage =>
      obtain ⟨hfound, h⟩ := readBufferExtended_zeroAndLock
        (s := s.store (·.ensureMetadata r.key.locator r.key.fork))
        (born_of_backs hremap (hbacks (by simp [BlockRef.zeroes, himage])))
      exact .of_found hfound h
    next =>
      exact outcome_readBufferExtended r rfl fun hmode =>
        born_of_backs hremap (hbacks (hmodes hmode))
  next m hm =>
    split
    next hzero =>
      obtain ⟨hfound, h⟩ := redoRemapInit_found hensured hm
        (hbacks (by rcases hzero with h | h <;> simp [BlockRef.zeroes, h]))
      exact .of_found hfound h
    next =>
      split
      next => exact .malformed rfl
      next hold =>
        exact outcome_redoRemapDelta hensured hm hold fun hmode => hbacks (hmodes hmode)

lemma notes_redoMapped (h : s.storage.metadata locator = true) (keys updates) :
    (s.redoMapped locator keys updates).notes = s.notes := by
  rw [redoMapped, if_pos h]
  generalize hstart : s.store (fun t => { t with mapped := fun k => t.mapped k || k ∈ keys }) = t
  have ht : t.storage.metadata locator = true ∧ t.notes = s.notes := by
    subst hstart
    exact ⟨h, rfl⟩
  clear hstart
  induction updates generalizing t with
  | nil => exact ht.2
  | cons update updates ih =>
    obtain ⟨fork, size, bumpOnly⟩ := update
    obtain ⟨nblocks, hnblocks⟩ := exists_updateLogicalNblocks ht.1 fork size bumpOnly
    simp only [foldl_cons, hnblocks]
    exact ih _ ht

lemma notes_foldl_truncate (forks : List (ForkNumber × Option Nat)) {t : State}
    (h : t.storage.metadata locator = true) :
    (forks.foldl (fun s (fork, n) =>
      match n with
      | some n =>
        (s.store (·.truncate locator (.mapped fork) n)).updateLogicalNblocks locator
          (.mapped fork) n false false
      | none => s) t).notes = t.notes := by
  induction forks generalizing t with
  | nil => rfl
  | cons entry forks ih =>
    obtain ⟨fork, n⟩ := entry
    cases n with
    | none => exact ih h
    | some n =>
      obtain ⟨nblocks, hnblocks⟩ := exists_updateLogicalNblocks
        (s := t.store (·.truncate locator (.mapped fork) n)) h (.mapped fork) n false
      simp only [foldl_cons, hnblocks]
      exact ih h

lemma notes_redoTruncate (s : State) (locator : RelFileLocator) (main fsm vm : Option Nat) :
    (s.redoTruncate locator main fsm vm).notes =
      main.elim s.notes (s.notes.truncateRelation locator (.mapped .main)) := by
  have hmeta : (s.store (·.ensureMetadata locator (.mapped .main))).storage.metadata locator =
      true :=
    (ensured_ensureMetadata s ⟨locator, .mapped .main, 0⟩).resolve_left nofun
  cases main with
  | none => exact notes_foldl_truncate _ hmeta
  | some => exact notes_foldl_truncate _ hmeta

end State

/-! ### The notes and what is outstanding -/

namespace Notes

def Noted (n : Notes) : Change → Prop
  | .block key => ∃ present, (key, present) ∈ n.invalidPages
  | .super locator => locator ∈ n.missingMetadata

/-- The table has the changes outstanding, and recovery ends with none. -/
structure Tracked (n : Notes) : Prop where
  sound : ∀ c, n.Noted c → c ∈ n.outstanding
  complete : n.panic = none → ∀ c ∈ n.outstanding, n.Noted c
  mainOnly : ∀ e ∈ n.invalidPages, ¬ e.1.fork.Auxiliary
  panicked : n.panic = some .invalidPages → n.outstanding ≠ []
  settled : n.panic = none → (n.reachedConsistency || n.finished) = true → n.outstanding = []
  mapped : n.panic ≠ some .missingMapping

lemma Tracked.start : Tracked .start where
  sound c h := by cases c <;> simp [Noted, Notes.start] at h
  complete := nofun
  mainOnly := nofun
  panicked := nofun
  settled _ _ := rfl
  mapped := nofun

variable {n : Notes} {present : Bool} {key : PageKey}

lemma noted_logInvalidPage (h : n.reachedConsistency = false) (c) :
    ((n.logInvalidPage key present).skip (.block key)).Noted c ↔ c = .block key ∨ n.Noted c := by
  simp only [skip, logInvalidPage, h, Bool.false_eq_true, if_false]
  split
  next hknown =>
    obtain ⟨e, he, hkey⟩ := any_eq_true.mp hknown
    refine ⟨.inr, ?_⟩
    rintro (rfl | hc)
    · exact ⟨e.2, of_decide_eq_true hkey ▸ he⟩
    · exact hc
  next =>
    cases c with
    | super => simp [Noted]
    | block =>
      simp only [Noted, mem_cons, Prod.mk.injEq, exists_or, Change.block.injEq]
      simp

lemma noted_logMissingMetadata (locator c) :
    ((n.logMissingMetadata locator).skip (.super locator)).Noted c ↔
      c = .super locator ∨ n.Noted c := by
  simp only [skip, logMissingMetadata]
  split
  next hknown =>
    refine ⟨.inr, ?_⟩
    rintro (rfl | hc)
    · exact hknown
    · exact hc
  next =>
    cases c with
    | block => simp [Noted]
    | super => simp [Noted]

namespace Tracked

variable (h : n.Tracked) {n' : Notes} {locator : RelFileLocator}
include h

lemma note (c₀) (hnoted : ∀ c, n'.Noted c ↔ c = c₀ ∨ n.Noted c)
    (houtstanding : n'.outstanding = c₀ :: n.outstanding) (hpanic : n'.panic = n.panic)
    (hopen : (n'.reachedConsistency || n'.finished) = false)
    (hmain : ∀ e ∈ n'.invalidPages, ¬ e.1.fork.Auxiliary) : n'.Tracked := by
  refine ⟨fun c hc => ?_, fun hnone c hc => ?_, hmain, fun _ => ?_, fun _ hsettled => ?_,
    hpanic ▸ h.mapped⟩
  · rw [houtstanding]
    exact mem_cons.mpr (((hnoted c).mp hc).imp_right (h.sound c))
  · rw [houtstanding] at hc
    exact (hnoted c).mpr ((mem_cons.mp hc).imp_right (h.complete (hpanic.symm.trans hnone) c))
  · rw [houtstanding]
    exact cons_ne_nil _ _
  · rw [hopen] at hsettled
    cases hsettled

lemma logInvalidPage (hfinished : n.finished = false) (hmain : ¬ key.fork.Auxiliary) :
    ((n.logInvalidPage key present).skip (.block key)).Tracked := by
  cases hreached : n.reachedConsistency with
  | true =>
    rw [Notes.logInvalidPage, if_pos hreached]
    refine ⟨fun c hc => mem_cons_of_mem _ (h.sound c hc), nofun, h.mainOnly, ?_, nofun, nofun⟩
    exact fun _ => cons_ne_nil _ _
  | false =>
    obtain ⟨hreached', hfinished', hpanic'⟩ :
        (n.logInvalidPage key present).reachedConsistency = false ∧
          (n.logInvalidPage key present).finished = false ∧
          (n.logInvalidPage key present).panic = n.panic := by
      simp only [Notes.logInvalidPage, hreached, Bool.false_eq_true, if_false]
      split
      · exact ⟨hreached, hfinished, rfl⟩
      · exact ⟨rfl, hfinished, rfl⟩
    refine h.note (.block key) (noted_logInvalidPage hreached) ?_ hpanic' ?_ ?_
    · simp only [Notes.skip, Notes.logInvalidPage, hreached, Bool.false_eq_true, if_false]
      split <;> rfl
    · exact Bool.or_eq_false_iff.mpr ⟨hreached', hfinished'⟩
    · simp only [Notes.skip, Notes.logInvalidPage, hreached, Bool.false_eq_true, if_false]
      split
      · exact h.mainOnly
      · exact forall_mem_cons.mpr ⟨hmain, h.mainOnly⟩

lemma logMissingMetadata (hreached : n.reachedConsistency = false)
    (hfinished : n.finished = false) :
    ((n.logMissingMetadata locator).skip (.super locator)).Tracked := by
  refine h.note (.super locator) (noted_logMissingMetadata locator) ?_ ?_ ?_ ?_ <;>
    simp only [Notes.skip, Notes.logMissingMetadata] <;> split
  · rfl
  · rfl
  · rfl
  · rfl
  · exact Bool.or_eq_false_iff.mpr ⟨hreached, hfinished⟩
  · exact Bool.or_eq_false_iff.mpr ⟨hreached, hfinished⟩
  · exact h.mainOnly
  · exact h.mainOnly

lemma cover (covers : Change → Bool) (hnoted : ∀ c, n'.Noted c ↔ n.Noted c ∧ covers c = false)
    (houtstanding : n'.outstanding = n.outstanding.filter (!covers ·)) (hpanic : n'.panic = none)
    (hpanic' : n.panic = none) (hreached : n'.reachedConsistency = n.reachedConsistency)
    (hfinished : n'.finished = n.finished) (hmain : ∀ e ∈ n'.invalidPages, e ∈ n.invalidPages) :
    n'.Tracked := by
  refine ⟨fun c hc => ?_, fun _ c hc => ?_, fun e he => h.mainOnly e (hmain e he), ?_, ?_,
    by rw [hpanic]; exact nofun⟩
  · obtain ⟨hc, hcovers⟩ := (hnoted c).mp hc
    rw [houtstanding]
    exact mem_filter.mpr ⟨h.sound c hc, by rw [hcovers]; rfl⟩
  · rw [houtstanding] at hc
    obtain ⟨hc, hcovers⟩ := mem_filter.mp hc
    exact (hnoted c).mpr ⟨h.complete hpanic' c hc, Bool.not_eq_true' _ ▸ hcovers⟩
  · rw [hpanic]
    exact nofun
  · intro _ hsettled
    rw [hreached, hfinished] at hsettled
    rw [houtstanding, h.settled hpanic' hsettled, filter_nil]

lemma outstanding_eq_nil (hpanic : n.panic = none) (hpages : n.invalidPages = [])
    (hmissing : n.missingMetadata = []) : n.outstanding = [] := by
  refine eq_nil_iff_forall_not_mem.mpr fun c hc => ?_
  have hnoted := h.complete hpanic c hc
  cases c with
  | block => simp [Noted, hpages] at hnoted
  | super => simp [Noted, hmissing] at hnoted

lemma checkInvalidPages (hpanic : n.panic = none) :
    Tracked { n.checkInvalidPages with
      reachedConsistency := n.checkInvalidPages.panic = none } := by
  rw [Notes.checkInvalidPages]
  split
  next hempty =>
    have hnone : n.outstanding = [] := h.outstanding_eq_nil hpanic hempty.1 hempty.2
    exact { h with settled := fun _ _ => hnone }
  next hnonempty =>
    refine ⟨h.sound, nofun, h.mainOnly, fun _ hnone => hnonempty ?_, nofun, nofun⟩
    constructor
    · refine eq_nil_iff_forall_not_mem.mpr fun e he => ?_
      have hmem := h.sound (.block e.1) ⟨e.2, he⟩
      rw [hnone] at hmem
      cases hmem
    · refine eq_nil_iff_forall_not_mem.mpr fun l hl => ?_
      have hmem := h.sound (.super l) hl
      rw [hnone] at hmem
      cases hmem

lemma covers_smgrTruncate {main fsm vm} (hmem : (key, present) ∈ n.invalidPages) :
    (Event.smgrTruncate locator main fsm vm).covers (.block key) = false ↔
      ¬ (key.locator = locator ∧ key.fork = .mapped .main ∧ main.any (· ≤ key.block) = true) := by
  have hnot := h.mainOnly _ hmem
  rcases hfork : key.fork with (_ | _ | _) | _
  · simp [Event.covers, hfork]
  · exact absurd (.inl hfork) hnot
  · exact absurd (.inr hfork) hnot
  · simp [Event.covers, hfork]

variable (hpanic : n.panic = none)
include hpanic

lemma finish (hempty : n.reachedConsistency = true ∨ n.invalidPages = [] ∧ n.missingMetadata = []) :
    Tracked { n with finished := true } := by
  refine { h with settled := fun _ _ => ?_ }
  rcases hempty with hreached | hempty
  · exact h.settled hpanic (Bool.or_eq_true_iff.mpr (.inl hreached))
  · exact h.outstanding_eq_nil hpanic hempty.1 hempty.2

lemma truncate (locator : RelFileLocator) (main fsm vm : Option Nat) :
    (main.elim (n.cover (Event.smgrTruncate locator main fsm vm).covers)
      ((n.cover (Event.smgrTruncate locator main fsm vm).covers).truncateRelation locator
        (.mapped .main))).Tracked := by
  cases main with
  | none =>
    refine h.cover (Event.smgrTruncate locator none fsm vm).covers ?_ rfl hpanic
      hpanic rfl rfl fun _ he => he
    rintro (key | l)
    · refine ⟨fun ⟨present, hmem⟩ => ⟨⟨present, hmem⟩, ?_⟩, And.left⟩
      exact (h.covers_smgrTruncate hmem).mpr (by simp)
    · exact ⟨fun hl => ⟨hl, rfl⟩, And.left⟩
  | some m =>
    refine h.cover (Event.smgrTruncate locator (some m) fsm vm).covers ?_ rfl hpanic
      hpanic rfl rfl fun _ he => (mem_filter.mp he).1
    rintro (key | l)
    · constructor
      · rintro ⟨present, hmem⟩
        obtain ⟨hmem, hkept⟩ := mem_filter.mp hmem
        refine ⟨⟨present, hmem⟩, (h.covers_smgrTruncate hmem).mpr ?_⟩
        rintro ⟨hlocator, hfork, hblock⟩
        exact of_decide_eq_true hkept ⟨hlocator, hfork, of_decide_eq_true hblock⟩
      · rintro ⟨⟨present, hmem⟩, hcovers⟩
        have hkept := (h.covers_smgrTruncate hmem).mp hcovers
        refine ⟨present, mem_filter.mpr ⟨hmem, decide_eq_true ?_⟩⟩
        rintro ⟨hlocator, hfork, hblock⟩
        exact hkept ⟨hlocator, hfork, decide_eq_true hblock⟩
    · exact ⟨fun hl => ⟨hl, rfl⟩, And.left⟩

lemma dropRelation (locator) :
    ([RedoFork.mapped .main, .mapped .fsm, .mapped .vm, .init].foldl
      (fun n fork => n.dropRelation locator fork)
      (n.cover (Event.dropRelation locator).covers)).Tracked := by
  refine h.cover (Event.dropRelation locator).covers ?_ rfl hpanic hpanic rfl rfl ?_
  · rintro (⟨l, fork, block⟩ | l)
    · rcases fork with (_ | _ | _) | _ <;>
        simp [Noted, Event.covers, Notes.dropRelation, Notes.forgetInvalidPages,
          Notes.forgetMissingMetadata, Notes.cover]
    · simp [Noted, Event.covers, Notes.dropRelation, Notes.forgetInvalidPages,
        Notes.forgetMissingMetadata, Notes.cover]
  · intro e he
    simp only [foldl_cons, foldl_nil, Notes.dropRelation, Notes.forgetInvalidPages,
      Notes.forgetMissingMetadata, Notes.cover, mem_filter] at he
    exact he.1.1.1.1

lemma dropDatabase (db tablespaces) :
    ((n.cover (Event.dropDatabase db tablespaces).covers).dropDatabase db).Tracked := by
  refine h.cover (Event.dropDatabase db tablespaces).covers ?_ rfl hpanic hpanic rfl
    rfl ?_
  · rintro (key | l) <;> simp [Noted, Event.covers, Notes.dropDatabase, Notes.forgetInvalidPagesDb,
      Notes.forgetMissingMetadataDb, Notes.cover]
  · exact fun e he => (mem_filter.mp he).1

end Tracked

lemma cover_of_none {covers} (h : ∀ c, covers c = false) : n.cover covers = n := by
  have hfilter : n.outstanding.filter (!covers ·) = n.outstanding :=
    filter_eq_self.mpr fun c _ => by rw [h c]; rfl
  rw [cover, hfilter]

end Notes

/-! ### Runs -/

open Notes

section Runs

variable {minRecoveryPoint : Bool} {s t : State} {e : Event}

lemma note_cover_of_none (s : State) (h : ∀ c, e.covers c = false) :
    s.note (·.cover e.covers) = s := by
  rw [State.note, Notes.cover_of_none h]

variable (h : s.notes.Tracked)
include h

lemma Notes.Tracked.redoBlock (hfinished : s.notes.finished = false)
    (hok : r.mode = .normal → ¬ r.key.fork.Auxiliary)
    (hbacks : r.zeroes = true → r.bears = false →
      (s.storage.ensureMetadata r.key.locator r.key.fork).Backs r) :
    (s.redoBlock r).notes.Tracked := by
  have houtcome := State.outcome_readBufferForRedo s hbacks
  rw [State.redoBlock]
  generalize s.readBufferForRedo r = result at houtcome
  cases houtcome with
  | found heq => exact heq ▸ h
  | @malformed t heq =>
    rw [heq]
    exact ⟨h.sound, nofun, h.mainOnly, nofun, nofun, nofun⟩
  | @missing t present hmode heq =>
    change (t.notes.skip _).Tracked
    rw [heq]
    exact h.logInvalidPage hfinished (hok hmode)

lemma Notes.Tracked.updateLogicalNblocks (hfinished : s.notes.finished = false) {locator}
    (hok : s.notes.reachedConsistency = true → (cached || s.storage.metadata locator) = true)
    (fork size bumpOnly) :
    (s.updateLogicalNblocks locator fork size bumpOnly cached).notes.Tracked := by
  by_cases hmeta : fork = .init ∨ (cached || s.storage.metadata locator) = true
  · obtain ⟨nblocks, heq, -⟩ := State.updateLogicalNblocks_of_metadata hmeta size bumpOnly
    rw [heq]
    exact h
  · obtain ⟨hinit, hmeta⟩ := not_or.mp hmeta
    have hreached : s.notes.reachedConsistency = false :=
      Bool.eq_false_iff.mpr fun hreached => hmeta (hok hreached)
    simp only [State.updateLogicalNblocks, if_neg hinit, State.prepareSuper, if_neg hmeta]
    exact h.logMissingMetadata hreached hfinished

lemma Notes.Tracked.redo (hpanic : s.notes.panic = none) (hfinished : s.notes.finished = false)
    (hok : Kept minRecoveryPoint s e) (hnot : e ≠ .checkConsistency ∧ e ≠ .finish) :
    ((s.note (·.cover e.covers)).redo e).notes.Tracked := by
  cases e with
  | block =>
    rw [note_cover_of_none s (by rintro ⟨⟩ <;> rfl)]
    exact h.redoBlock hfinished hok.1 hok.2
  | mapSet locator fork lblkno oldPblkno nblocks =>
    rw [note_cover_of_none s (by rintro ⟨⟩ <;> rfl), State.redo]
    obtain ⟨hmeta, hold⟩ := hok
    cases oldPblkno with
    | none =>
      rw [State.redoMapSet, State.notes_redoMapped hmeta]
      exact h
    | some old =>
      have hfound : ¬ (s.storage.metadata locator = true ∧ nblocks ≤ old) :=
        fun hmissing => absurd (of_decide_eq_true hold) (Nat.not_lt.mpr hmissing.2)
      rw [State.redoMapSet, if_neg hfound, State.notes_redoMapped hmeta]
      exact h
  | rangeRemap | skipWalDenseMap =>
    rw [note_cover_of_none s (by rintro ⟨⟩ <;> rfl), State.redo, State.notes_redoMapped hok]
    exact h
  | superUpdate =>
    rw [note_cover_of_none s (by rintro ⟨⟩ <;> rfl)]
    exact h.updateLogicalNblocks hfinished hok _ _ _
  | smgrCreate locator fork =>
    rw [note_cover_of_none s (by rintro ⟨⟩ <;> rfl)]
    simp only [State.redo]
    split
    next hfork =>
      have hmeta : (s.store (·.ensureMetadata locator fork)).storage.metadata locator = true := by
        refine (State.ensured_ensureMetadata s ⟨locator, fork, 0⟩).resolve_left ?_
        rintro rfl
        simp at hfork
      have hstored : (s.store (·.ensureMetadata locator fork)).notes.Tracked := h
      refine hstored.updateLogicalNblocks hfinished (fun _ => ?_) fork 0 false
      exact hmeta
    next => exact h
  | smgrTruncate locator main fsm vm =>
    rw [State.redo, State.notes_redoTruncate]
    exact h.truncate hpanic locator main fsm vm
  | dropRelation locator => exact h.dropRelation hpanic locator
  | dropDatabase db tablespaces => exact h.dropDatabase hpanic db tablespaces
  | checkConsistency => exact absurd rfl hnot.1
  | finish => exact absurd rfl hnot.2

lemma Notes.Tracked.step (hok : Kept minRecoveryPoint s e)
    (hstep : (recovery minRecoveryPoint).step s e = some t) : t.notes.Tracked := by
  obtain ⟨⟨hpanic, hfinished⟩, hstep⟩ := Option.ite_none_right_eq_some.mp hstep
  split at hstep
  · obtain ⟨-, rfl⟩ := guard_eq_some hstep
    exact h.checkInvalidPages hpanic
  · obtain ⟨hreached, rfl⟩ := guard_eq_some hstep
    refine h.finish hpanic ?_
    cases minRecoveryPoint with
    | true => exact .inl (hreached rfl)
    | false => exact .inr (hok rfl)
  next hcheck hfinish =>
    cases hstep
    exact h.redo hpanic hfinished hok ⟨hcheck, hfinish⟩

end Runs

def rel : RelFileLocator := ⟨1663, 5, 16384⟩

def change (block : Nat) : BlockRef := ⟨⟨rel, .mapped .main, block⟩, .normal, false, none, false⟩

def image (block : Nat) : BlockRef := ⟨⟨rel, .mapped .main, block⟩, .normal, true, none, false⟩

/-- A mapped relation of three blocks: its truncation to three is on disk before its record is
replayed. -/
def truncated : Storage where
  metadata l := l = rel
  skipWalPending _ := false
  mapped k := k.locator = rel ∧ k.fork = .mapped .main ∧ k.block < 3
  nblocks l fork := if l = rel ∧ fork = .mapped .main then 3 else 0

end Umbra.Recovery
