import Mathlib.Data.Finset.Card
import Mathlib.Data.Nat.ModEq
import Mathlib.Data.Nat.Bitwise
import Umbra.Basic
import Umbra.Foundation.OpenAddressing

/-!
# The table of superblock entries

An index of 128 partitions, each an open addressing table of its own, leads from a relation to its
shared entry; unused entries are threaded on one free list. A sequence of calls is compared with the
set of relations that were ensured and not deleted since.
-/

namespace Umbra.SuperTable

open Foundation Function

def mapSuperblockMinEntries : ℕ := 50000

def mapSuperNPartitions : ℕ := 128

def mapSuperNPartitionBits : UInt32 := 7

/-- The loop of `MapSuperIndexCapacityForPartition`, with `index_capacity` at `1 << k`. -/
def growIndex (target k : ℕ) : ℕ :=
  if 2 ^ k < target then growIndex target (k + 1) else 2 ^ k
termination_by target - k
decreasing_by
  have : k < 2 ^ k := Nat.lt_two_pow_self
  omega

def indexCapacityForPartition (capacity : ℕ) : ℕ :=
  growIndex ((capacity * 2 + mapSuperNPartitions - 1) / mapSuperNPartitions) 0

def nextBucket (cap bucket : ℕ) : ℕ := (bucket + 1) &&& (cap - 1)

/-- What the table is set up with: `MapSuperHashCode` and the setting `map_superblocks`. -/
structure Config where
  hashCode : RelFileLocator → UInt32
  mapSuperblocks : ℕ

namespace Config

variable (c : Config)

def capacity : ℕ := max c.mapSuperblocks mapSuperblockMinEntries

def indexCapacity : ℕ := indexCapacityForPartition c.capacity

def partition (r : RelFileLocator) : ℕ := (c.hashCode r).toNat &&& (mapSuperNPartitions - 1)

def startBucket (r : RelFileLocator) : ℕ :=
  (c.hashCode r >>> mapSuperNPartitionBits).toNat &&& (c.indexCapacity - 1)

end Config

structure Entry where
  inUse : Bool
  rnode : RelFileLocator
  nextFree : Link

structure Table where
  index : ℕ → ℕ → Slot ℕ
  entries : ℕ → Entry
  freeHead : Link

inductive EnsureError
  /-- "map superblock index table is full" -/
  | indexFull
  /-- "map superblock slot table is full" -/
  | slotFull
  deriving DecidableEq

namespace Table

def occupy (t : Table) (p b i : ℕ) (r : RelFileLocator) : Table where
  index := update t.index p (update (t.index p) b (.used i))
  entries := update t.entries i { inUse := true, rnode := r, nextFree := .off }
  freeHead := (t.entries i).nextFree

def vacate (t : Table) (p b i : ℕ) : Table where
  index := update t.index p (update (t.index p) b .deleted)
  entries := update t.entries i
    { t.entries i with inUse := false, nextFree := t.freeHead }
  freeHead := .node i

end Table

section Operations

variable (c : Config) (t : Table) (r : RelFileLocator)

def isEntryOf (i : ℕ) : Bool := (t.entries i).inUse && (t.entries i).rnode = r

def lookupSlot : Probe ℕ :=
  probe (t.index (c.partition r)) (isEntryOf t r) (nextBucket c.indexCapacity) c.indexCapacity
    (c.startBucket r) none

def lookedAt : List ℕ :=
  probed (t.index (c.partition r)) (isEntryOf t r) (nextBucket c.indexCapacity) c.indexCapacity
    (c.startBucket r)

def findEntry : Option ℕ :=
  match lookupSlot c t r with
  | .found i _ => some i
  | .absent _ => none

/-- `MapSuperEnsureEntryLocked`: the entry and the table after it. -/
def ensureEntry : Except EnsureError (ℕ × Table) :=
  match lookupSlot c t r with
  | .found i _ => .ok (i, t)
  | .absent none => .error .indexFull
  | .absent (some b) =>
    match t.freeHead with
    | .node i => .ok (i, t.occupy (c.partition r) b i r)
    -- the head of the list never is the mark of an entry outside it
    | .last | .off => .error .slotFull

def deleteEntry : Table :=
  match lookupSlot c t r with
  | .found i b => t.vacate (c.partition r) b i
  | .absent _ => t

/-- `MapSuperTableShmemInit`; the locator of an entry is zeroed. -/
def init : Table where
  index _ _ := .empty
  entries i :=
    { inUse := false
      rnode := ⟨0, 0, 0⟩
      nextFree := if i = c.capacity - 1 then .last else .node (i + 1) }
  freeHead := .node 0

end Operations

/-! ### Sequences of calls -/

inductive Call
  | ensure (r : RelFileLocator)
  | find (r : RelFileLocator)
  | delete (r : RelFileLocator)
  deriving DecidableEq

inductive Answer
  | entry (i : ℕ)
  | notFound
  | error (e : EnsureError)
  | deleted
  deriving DecidableEq

def perform (c : Config) (t : Table) : Call → Answer × Table
  | .ensure r =>
    match ensureEntry c t r with
    | .ok (i, t') => (.entry i, t')
    | .error e => (.error e, t)
  | .find r =>
    match findEntry c t r with
    | some i => (.entry i, t)
    | none => (.notFound, t)
  | .delete r => (.deleted, deleteEntry c t r)

def performAll (c : Config) (t : Table) : List Call → List (Call × Answer) × Table
  | [] => ([], t)
  | call :: calls =>
    let next := perform c t call
    let rest := performAll c next.2 calls
    ((call, next.1) :: rest.1, rest.2)

/-- What an answered call does to the set of relations that have an entry. -/
def answered (live : Finset RelFileLocator) : Call × Answer → Finset RelFileLocator
  | (.ensure r, .entry _) => insert r live
  | (.delete r, _) => live.erase r
  | _ => live

def liveAfter (live : Finset RelFileLocator) (log : List (Call × Answer)) :
    Finset RelFileLocator :=
  log.foldl answered live

/-! ### Buckets -/

lemma exists_growIndex_eq (target k) : ∃ n, growIndex target k = 2 ^ n := by
  fun_induction growIndex target k with
  | case1 k _ ih => exact ih
  | case2 k => exact ⟨k, rfl⟩

lemma nextBucket_two_pow (n b) : nextBucket (2 ^ n) b = (b + 1) % 2 ^ n :=
  Nat.and_two_pow_sub_one_eq_mod (b + 1) n

namespace Config

variable (c : Config) {b : ℕ}

lemma exists_indexCapacity_eq : ∃ n, c.indexCapacity = 2 ^ n := exists_growIndex_eq _ 0

lemma indexCapacity_pos : 0 < c.indexCapacity := by
  obtain ⟨n, hn⟩ := c.exists_indexCapacity_eq
  rw [hn]
  exact Nat.two_pow_pos n

lemma capacity_pos : 0 < c.capacity :=
  lt_of_lt_of_le (by decide) (le_max_right c.mapSuperblocks mapSuperblockMinEntries)

lemma startBucket_lt (r) : c.startBucket r < c.indexCapacity := by
  refine lt_of_le_of_lt Nat.and_le_right ?_
  have := c.indexCapacity_pos
  omega

variable (hb : b < c.indexCapacity)
include hb

lemma nextBucket_iterate (j) : (nextBucket c.indexCapacity)^[j] b = (b + j) % c.indexCapacity := by
  obtain ⟨n, hn⟩ := c.exists_indexCapacity_eq
  rw [hn] at hb ⊢
  induction j with
  | zero => exact (Nat.mod_eq_of_lt hb).symm
  | succ j ih => rw [Function.iterate_succ_apply', ih, nextBucket_two_pow, Nat.mod_add_mod]; rfl

lemma iterate_lt (j) : (nextBucket c.indexCapacity)^[j] b < c.indexCapacity := by
  rw [c.nextBucket_iterate hb]
  exact Nat.mod_lt _ c.indexCapacity_pos

lemma exists_iterate_eq {b'} (hb' : b' < c.indexCapacity) :
    ∃ j < c.indexCapacity, (nextBucket c.indexCapacity)^[j] b = b' := by
  refine ⟨(b' + (c.indexCapacity - b)) % c.indexCapacity, Nat.mod_lt _ c.indexCapacity_pos, ?_⟩
  have hsum : b + (b' + (c.indexCapacity - b)) = b' + c.indexCapacity := by omega
  rw [c.nextBucket_iterate hb, Nat.add_mod_mod, hsum, Nat.add_mod_right, Nat.mod_eq_of_lt hb']

end Config

lemma lookedAt_nodup (c t r) : (lookedAt c t r).Nodup := by
  refine (probed_walk ..).sublist.nodup (List.Nodup.map_on ?_ List.nodup_range)
  intro j hj k hk heq
  rw [List.mem_range] at hj hk
  rw [c.nextBucket_iterate (c.startBucket_lt r), c.nextBucket_iterate (c.startBucket_lt r)] at heq
  exact Nat.ModEq.eq_of_lt_of_lt (Nat.ModEq.add_left_cancel' _ heq) hj hk

lemma length_lookedAt_le (c t r) : (lookedAt c t r).length ≤ c.indexCapacity := by
  refine (probed_walk ..).length_le.trans (le_of_eq ?_)
  rw [List.length_map, List.length_range]

end Umbra.SuperTable
