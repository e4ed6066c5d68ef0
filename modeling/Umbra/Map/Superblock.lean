import Umbra.Basic
import Mathlib.Order.MinMax

/-!
# The MAP superblock

Three block counters for each mapped fork, kept in one sector on disk, and the shared-memory entry
that adds the runtime reservation frontier and reclaim boundary. Except for truncation, counters
only move through the `bump` operations, and a bump that does not raise its counter leaves the
entry, its LSN included, untouched.
-/

namespace Umbra

open Function

/-- The counters of one fork. `none` is the sentinel of an FSM or VM fork that does not exist. -/
structure ForkCounts where
  logicalNblocks : Option Nat
  nextFreePhysBlock : Option Nat
  physCapacity : Option Nat
  deriving DecidableEq, Repr

structure MapSuperblock where
  counts : ForkNumber → ForkCounts
  lastUpdatedLsn : Nat

open MapSuperblock

structure MapSuperEntry where
  super : MapSuperblock
  pageLsn : Nat
  reservedNextFree : ForkNumber → Nat
  reclaimBoundary : ForkNumber → Nat

/-- `MapNormalizeForkBlockCount`: an absent FSM or VM fork counts as empty. -/
def mapNormalizeForkBlockCount : ForkNumber → Option Nat → Nat
  | _, some n => n
  | .main, none => invalidBlockNumber
  | .fsm, none => 0
  | .vm, none => 0

def bumpCount (fork : ForkNumber) (raw : Option Nat) (n : Nat) : Option Nat :=
  if mapNormalizeForkBlockCount fork raw < n then some n else raw

@[simp] lemma mapNormalizeForkBlockCount_some (fork n) :
    mapNormalizeForkBlockCount fork (some n) = n := by cases fork <;> rfl

lemma bumpCount_zero (fork raw) : bumpCount fork raw 0 = raw :=
  if_neg (Nat.not_lt_zero _)

@[simp] lemma mapNormalizeForkBlockCount_bumpCount (fork raw n) :
    mapNormalizeForkBlockCount fork (bumpCount fork raw n)
      = max (mapNormalizeForkBlockCount fork raw) n := by
  unfold bumpCount
  split_ifs with h
  · simp [max_eq_right h.le]
  · rw [max_eq_left (le_of_not_gt h)]

namespace MapSuperblock

/-- `MapSuperblockInit`: the MAIN counters start at zero, the FSM and VM forks do not exist. -/
def init : MapSuperblock where
  counts
    | .main => ⟨some 0, some 0, some 0⟩
    | .fsm => ⟨none, none, none⟩
    | .vm => ⟨none, none, none⟩
  lastUpdatedLsn := invalidXLogRecPtr

def logical (super : MapSuperblock) (fork : ForkNumber) : Nat :=
  mapNormalizeForkBlockCount fork (super.counts fork).logicalNblocks

def nextFree (super : MapSuperblock) (fork : ForkNumber) : Nat :=
  mapNormalizeForkBlockCount fork (super.counts fork).nextFreePhysBlock

def capacity (super : MapSuperblock) (fork : ForkNumber) : Nat :=
  mapNormalizeForkBlockCount fork (super.counts fork).physCapacity

def setCounts (super : MapSuperblock) (fork : ForkNumber) (c : ForkCounts) (lsn : Nat) :
    MapSuperblock where
  counts := update super.counts fork c
  lastUpdatedLsn := lsn

end MapSuperblock

namespace MapSuperEntry

/-- The entry loaded from disk: the reservation frontier restarts at the committed one
(`MapSuperResetReservedNextFrees`), and so does the reclaim boundary. -/
def load (super : MapSuperblock) : MapSuperEntry where
  super := super
  pageLsn := super.lastUpdatedLsn
  reservedNextFree := super.nextFree
  reclaimBoundary := super.nextFree

def store (entry : MapSuperEntry) (fork : ForkNumber) (c : ForkCounts) (lsn : Nat) :
    MapSuperEntry :=
  { entry with super := entry.super.setCounts fork c lsn, pageLsn := lsn }

def bumpLogicalNblocks (entry : MapSuperEntry) (fork : ForkNumber) (nblocks : Nat)
    (lsn : Nat) : MapSuperEntry :=
  if entry.super.logical fork < nblocks then
    entry.store fork { entry.super.counts fork with logicalNblocks := some nblocks } lsn
  else entry

def setLogicalNblocks (entry : MapSuperEntry) (fork : ForkNumber) (nblocks : Nat)
    (lsn : Nat) : MapSuperEntry :=
  entry.store fork { entry.super.counts fork with logicalNblocks := some nblocks } lsn

def maybeBumpReservedNextFree (entry : MapSuperEntry) (fork : ForkNumber) (n : Nat) :
    MapSuperEntry :=
  { entry with
    reservedNextFree :=
      update entry.reservedNextFree fork (max (entry.reservedNextFree fork) n) }

def setReclaimBoundary (entry : MapSuperEntry) (fork : ForkNumber) (boundary : Nat) :
    MapSuperEntry :=
  { entry with reclaimBoundary := update entry.reclaimBoundary fork boundary }

/-- The `bump_next_free` half of `MapSBlockBumpPhysicalState`: the reservation frontier follows,
and in recovery the reclaim boundary does too. -/
def bumpNextFree (entry : MapSuperEntry) (fork : ForkNumber) (nblocks : Nat)
    (lsn : Nat) (inRecovery : Bool) : MapSuperEntry :=
  if entry.super.nextFree fork < nblocks then
    if inRecovery then
      ((entry.store fork { entry.super.counts fork with nextFreePhysBlock := some nblocks }
        lsn).maybeBumpReservedNextFree fork nblocks).setReclaimBoundary fork nblocks
    else
      (entry.store fork { entry.super.counts fork with nextFreePhysBlock := some nblocks }
        lsn).maybeBumpReservedNextFree fork nblocks
  else entry

/-- The `bump_capacity` half of `MapSBlockBumpPhysicalState`, and the capacity updates of
`MapSBlockEnsurePhysicalNblocks` and `MapMaybePreallocateFork`. -/
def bumpCapacity (entry : MapSuperEntry) (fork : ForkNumber) (nblocks : Nat)
    (lsn : Nat) : MapSuperEntry :=
  if entry.super.capacity fork < nblocks then
    entry.store fork { entry.super.counts fork with physCapacity := some nblocks } lsn
  else entry

/-- The superblock half of `MapTryReserveFreshPblknoInternal`: hand out the block at the
reservation frontier; out of block numbers is an error. -/
def reserveFresh (entry : MapSuperEntry) (fork : ForkNumber) : Option (Nat × MapSuperEntry) :=
  if entry.reservedNextFree fork = invalidBlockNumber - 1 then none
  else some (entry.reservedNextFree fork, { entry with
      reservedNextFree :=
        update entry.reservedNextFree fork (entry.reservedNextFree fork + 1) })

/-- `MapSBlockAdvanceReclaimBoundary`: the boundary only grows and stays within the committed
frontier. -/
def advanceReclaimBoundary (entry : MapSuperEntry) (fork : ForkNumber) (boundary : Nat) :
    MapSuperEntry :=
  if entry.reclaimBoundary fork < min boundary (entry.super.nextFree fork) then
    entry.setReclaimBoundary fork (min boundary (entry.super.nextFree fork))
  else entry

/-! ### What each operation does to the counters -/

variable (entry : MapSuperEntry) (fork fork' : ForkNumber) (n : Nat) (lsn : Nat)
  (r : Bool)

lemma counts_bumpLogicalNblocks : (entry.bumpLogicalNblocks fork n lsn).super.counts
      = update entry.super.counts fork { entry.super.counts fork with
            logicalNblocks := bumpCount fork (entry.super.counts fork).logicalNblocks n } := by
  unfold bumpLogicalNblocks bumpCount logical
  split_ifs
  · rfl
  · exact (update_eq_self _ _).symm

lemma counts_bumpNextFree : (entry.bumpNextFree fork n lsn r).super.counts
      = update entry.super.counts fork { entry.super.counts fork with
            nextFreePhysBlock :=
              bumpCount fork (entry.super.counts fork).nextFreePhysBlock n } := by
  unfold bumpNextFree bumpCount nextFree
  split_ifs
  · rfl
  · rfl
  · exact (update_eq_self _ _).symm

lemma counts_bumpCapacity : (entry.bumpCapacity fork n lsn).super.counts
      = update entry.super.counts fork { entry.super.counts fork with
            physCapacity := bumpCount fork (entry.super.counts fork).physCapacity n } := by
  unfold bumpCapacity bumpCount capacity
  split_ifs
  · rfl
  · exact (update_eq_self _ _).symm

@[simp] lemma logical_bumpLogicalNblocks : (entry.bumpLogicalNblocks fork n lsn).super.logical fork'
      = if fork' = fork then max (entry.super.logical fork) n else entry.super.logical fork' := by
  unfold logical
  rw [counts_bumpLogicalNblocks]
  split_ifs with h
  · subst h; simp
  · simp [update_of_ne h]

@[simp] lemma nextFree_bumpLogicalNblocks :
    (entry.bumpLogicalNblocks fork n lsn).super.nextFree fork' = entry.super.nextFree fork' := by
  unfold nextFree
  rw [counts_bumpLogicalNblocks, update_apply]
  split_ifs with h
  · rw [h]
  · rfl

@[simp] lemma nextFree_bumpNextFree : (entry.bumpNextFree fork n lsn r).super.nextFree fork'
      = if fork' = fork then max (entry.super.nextFree fork) n else entry.super.nextFree fork' := by
  unfold nextFree
  rw [counts_bumpNextFree]
  split_ifs with h
  · subst h; simp
  · simp [update_of_ne h]

@[simp] lemma logical_bumpNextFree :
    (entry.bumpNextFree fork n lsn r).super.logical fork' = entry.super.logical fork' := by
  unfold logical
  rw [counts_bumpNextFree, update_apply]
  split_ifs with h
  · rw [h]
  · rfl

@[simp] lemma logical_bumpCapacity :
    (entry.bumpCapacity fork n lsn).super.logical fork' = entry.super.logical fork' := by
  unfold logical
  rw [counts_bumpCapacity, update_apply]
  split_ifs with h
  · rw [h]
  · rfl

@[simp] lemma nextFree_bumpCapacity :
    (entry.bumpCapacity fork n lsn).super.nextFree fork' = entry.super.nextFree fork' := by
  unfold nextFree
  rw [counts_bumpCapacity, update_apply]
  split_ifs with h
  · rw [h]
  · rfl

@[simp] lemma capacity_bumpLogicalNblocks :
    (entry.bumpLogicalNblocks fork n lsn).super.capacity fork' = entry.super.capacity fork' := by
  unfold capacity
  rw [counts_bumpLogicalNblocks, update_apply]
  split_ifs with h
  · rw [h]
  · rfl

@[simp] lemma capacity_bumpNextFree :
    (entry.bumpNextFree fork n lsn r).super.capacity fork' = entry.super.capacity fork' := by
  unfold capacity
  rw [counts_bumpNextFree, update_apply]
  split_ifs with h
  · rw [h]
  · rfl

@[simp] lemma capacity_bumpCapacity : (entry.bumpCapacity fork n lsn).super.capacity fork'
      = if fork' = fork then max (entry.super.capacity fork) n else entry.super.capacity fork' := by
  unfold capacity
  rw [counts_bumpCapacity]
  split_ifs with h
  · subst h; simp
  · simp [update_of_ne h]

@[simp] lemma nextFree_setLogicalNblocks :
    (entry.setLogicalNblocks fork n lsn).super.nextFree fork' = entry.super.nextFree fork' := by
  unfold nextFree setLogicalNblocks store setCounts
  simp only [update_apply]
  split_ifs with h
  · rw [h]
  · rfl

@[simp] lemma reservedNextFree_bumpLogicalNblocks :
    (entry.bumpLogicalNblocks fork n lsn).reservedNextFree = entry.reservedNextFree := by
  unfold bumpLogicalNblocks store
  split_ifs <;> rfl

@[simp] lemma reservedNextFree_bumpCapacity :
    (entry.bumpCapacity fork n lsn).reservedNextFree = entry.reservedNextFree := by
  unfold bumpCapacity store
  split_ifs <;> rfl

@[simp] lemma reservedNextFree_setLogicalNblocks :
    (entry.setLogicalNblocks fork n lsn).reservedNextFree = entry.reservedNextFree := rfl

lemma reservedNextFree_bumpNextFree : (entry.bumpNextFree fork n lsn r).reservedNextFree fork'
      = if fork' = fork ∧ entry.super.nextFree fork < n then
          max (entry.reservedNextFree fork) n
        else entry.reservedNextFree fork' := by
  unfold bumpNextFree
  split_ifs <;> simp_all [maybeBumpReservedNextFree, setReclaimBoundary, store]

lemma reservedNextFree_le_bumpNextFree :
    entry.reservedNextFree fork' ≤ (entry.bumpNextFree fork n lsn r).reservedNextFree fork' := by
  rw [reservedNextFree_bumpNextFree]
  split_ifs with h
  · rw [h.1]; exact le_max_left _ _
  · exact le_rfl

lemma nextFree_le_reserved_bumpNextFree
    (h : entry.super.nextFree fork' ≤ entry.reservedNextFree fork') :
    (entry.bumpNextFree fork n lsn r).super.nextFree fork'
      ≤ (entry.bumpNextFree fork n lsn r).reservedNextFree fork' := by
  rw [reservedNextFree_bumpNextFree, nextFree_bumpNextFree]
  by_cases hf : fork' = fork
  · subst hf
    by_cases hn : entry.super.nextFree fork' < n
    · simp only [hn, and_self, if_true]
      omega
    · simp only [hn, and_false, if_false, if_true]
      omega
  · simpa [hf] using h

@[simp] lemma reclaimBoundary_setReclaimBoundary :
    (entry.setReclaimBoundary fork n).reclaimBoundary fork = n :=
  update_self ..

lemma advanceReclaimBoundary_spec : (entry.advanceReclaimBoundary fork n).super = entry.super ∧
      (entry.advanceReclaimBoundary fork n).reservedNextFree = entry.reservedNextFree ∧
      entry.reclaimBoundary fork ≤ (entry.advanceReclaimBoundary fork n).reclaimBoundary fork ∧
      ∀ p ≥ entry.reclaimBoundary fork,
        p < (entry.advanceReclaimBoundary fork n).reclaimBoundary fork → p < n := by
  rw [advanceReclaimBoundary]
  split_ifs with h
  · refine ⟨rfl, rfl, ?_, fun p _ hp => ?_⟩
    · rw [reclaimBoundary_setReclaimBoundary]
      exact h.le
    · rw [reclaimBoundary_setReclaimBoundary] at hp
      exact hp.trans_le (min_le_left _ _)
  · exact ⟨rfl, rfl, le_rfl, fun p hge hp => absurd hp (not_lt.mpr hge)⟩

end MapSuperEntry

end Umbra
