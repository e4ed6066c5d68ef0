import Umbra.Map.Superblock

/-!
# MAP metadata and the records that change it

`MapMeta` is the metadata of one relation in shared memory. The foreground and redo change it
through the same few operations; `redoRecord` is the replay of one WAL record as far as the metadata
goes (`umbra_redo`, and the remap half of `XLogReadBufferForRedoExtendedUmbra`).
-/

namespace Umbra

open List

/-- How a block reference of a WAL record brings the page contents: a full image, a page that
redo initialises from zeros (`BKPBLOCK_WILL_INIT`), or a change to the page that is there. -/
inductive BlockRemapKind
  | image
  | init
  | delta
  deriving DecidableEq, Repr

/-- The remap header of a block reference, with the frontier payload of
`XLogFillBlockRemapFrontierUmbra`. -/
structure BlockRemap where
  key : BlockKey
  old : Option Nat
  new : Nat
  kind : BlockRemapKind
  logicalNblocks : Nat
  nextFree : Nat
  deriving DecidableEq, Repr

/-- The WAL records that concern the metadata of a relation. `rangeRemap` covers `RANGE_REMAP`
and its compact form, which replay through the same function. -/
inductive Record
  | mapSet (key : BlockKey) (old : Option Nat) (new : Nat)
  | rangeRemap (fork : ForkNumber) (first : Nat) (pblks : List Nat)
  | blockRemaps (blocks : List BlockRemap)
  | smgrTruncate (fork : ForkNumber) (nblocks : Nat)
  | other
  deriving DecidableEq, Repr

inductive Counter
  | logical
  | nextFree
  deriving DecidableEq, Repr

def MapSuperblock.count (super : MapSuperblock) : Counter → ForkNumber → Nat
  | .logical => super.logical
  | .nextFree => super.nextFree

def maxPblk (pblks : List Nat) : Nat := pblks.foldr max 0

namespace BlockRemap

def bump (blk : BlockRemap) : Counter → ForkNumber → Nat
  | .logical, fork => if blk.key.1 = fork ∧ blk.old = none then blk.logicalNblocks else 0
  | .nextFree, fork => if blk.key.1 = fork then blk.nextFree else 0

end BlockRemap

namespace Record

def newPblkOf (k : BlockKey) : List BlockRemap → Option Nat
  | [] => none
  | blk :: blks => (newPblkOf k blks).or (if blk.key = k then some blk.new else none)

def newPblk (r : Record) (k : BlockKey) : Option Nat :=
  match r with
  | .mapSet key _ new => if key = k then some new else none
  | .rangeRemap fork first pblks =>
    if fork = k.1 ∧ first ≤ k.2 then pblks[k.2 - first]? else none
  | .blockRemaps blks => newPblkOf k blks
  | .smgrTruncate _ _ => none
  | .other => none

def bump (r : Record) (c : Counter) (fork : ForkNumber) : Nat :=
  match r, c with
  | .mapSet key none _, .logical => if key.1 = fork then key.2 + 1 else 0
  | .mapSet _ (some _) _, .logical => 0
  | .mapSet key _ new, .nextFree => if key.1 = fork then new + 1 else 0
  | .rangeRemap fork' first pblks, .logical => if fork' = fork then first + pblks.length else 0
  | .rangeRemap fork' _ pblks, .nextFree => if fork' = fork then maxPblk pblks + 1 else 0
  | .blockRemaps blks, c => (blks.map fun blk => blk.bump c fork).foldr max 0
  | .smgrTruncate _ _, _ => 0
  | .other, _ => 0

variable {blks : List BlockRemap} {blk : BlockRemap}

lemma bump_le_blockRemaps (h : blk ∈ blks) (c fork) :
    blk.bump c fork ≤ (blockRemaps blks).bump c fork := by
  induction blks with
  | nil => cases h
  | cons blk' blks ih =>
    simp only [bump, map_cons, foldr_cons] at ih ⊢
    rcases mem_cons.mp h with rfl | h
    · exact le_max_left _ _
    · exact (ih h).trans (le_max_right _ _)

lemma blockRemaps_bump_attained (blks c fork) :
    (blockRemaps blks).bump c fork = 0 ∨
      ∃ blk ∈ blks, (blockRemaps blks).bump c fork = blk.bump c fork := by
  induction blks with
  | nil => exact .inl rfl
  | cons blk blks ih =>
    simp only [bump, map_cons, foldr_cons] at ih ⊢
    rcases le_total (blk.bump c fork) ((blks.map fun b => b.bump c fork).foldr max 0) with hle | hle
    · rw [max_eq_right hle]
      rcases ih with h | ⟨b, hb, h⟩
      · exact .inl h
      · exact .inr ⟨b, mem_cons_of_mem _ hb, h⟩
    · rw [max_eq_left hle]
      exact .inr ⟨blk, mem_cons_self, rfl⟩

lemma exists_of_newPblkOf {k pblk} (h : newPblkOf k blks = some pblk) :
    ∃ blk ∈ blks, blk.key = k ∧ blk.new = pblk := by
  induction blks with
  | nil => cases h
  | cons blk blks ih =>
    rw [newPblkOf, Option.or_eq_some_iff] at h
    rcases h with h | ⟨-, h⟩
    · obtain ⟨b, hb, hk⟩ := ih h
      exact ⟨b, mem_cons_of_mem _ hb, hk⟩
    · split_ifs at h with hk
      cases h
      exact ⟨blk, mem_cons_self, hk, rfl⟩

lemma isSome_newPblkOf (h : blk ∈ blks) : (newPblkOf blk.key blks).isSome := by
  induction blks with
  | nil => cases h
  | cons b blks ih =>
    rw [newPblkOf, Option.isSome_or]
    rcases mem_cons.mp h with rfl | hmem
    · simp
    · simp [ih hmem]

lemma newPblkOf_of_mem (hnd : (blks.map BlockRemap.key).Nodup) (h : blk ∈ blks) :
    newPblkOf blk.key blks = some blk.new := by
  induction blks with
  | nil => cases h
  | cons b blks ih =>
    rw [map_cons, nodup_cons] at hnd
    rw [newPblkOf]
    rcases mem_cons.mp h with rfl | hmem
    · have hnone : newPblkOf blk.key blks = none := by
        by_contra hne
        obtain ⟨p, hp⟩ := Option.ne_none_iff_exists'.mp hne
        obtain ⟨b', hb', hk, -⟩ := exists_of_newPblkOf hp
        exact hnd.1 (hk ▸ mem_map_of_mem hb')
      simp [hnone]
    · simp [ih hnd.2 hmem]

lemma le_maxPblk {pblks p} (h : p ∈ pblks) : p ≤ maxPblk pblks := by
  induction pblks with
  | nil => cases h
  | cons q pblks ih =>
    rcases mem_cons.mp h with rfl | h
    · exact le_max_left _ _
    · exact (ih h).trans (le_max_right _ _)

end Record

/-- MAP pages and superblock entry of a relation in shared memory. -/
structure MapMeta where
  map : BlockKey → Option Nat
  pageLsn : MapPageId → Nat
  dirtyPages : List MapPageId
  entry : MapSuperEntry

namespace MapMeta

/-- `MapMarkBufferDirty`: the page LSN becomes `lsn`, whatever it was before. -/
def markBufferDirty (m : MapMeta) (page : MapPageId) (lsn : Nat) : MapMeta :=
  { m with
    pageLsn := Function.update m.pageLsn page lsn
    dirtyPages := page :: m.dirtyPages }

/-- `MapSetMapping`; with `none`, the clearing of one entry by `MapTruncate`. -/
def setEntry (m : MapMeta) (k : BlockKey) (pblk : Option Nat) (lsn : Nat) : MapMeta :=
  { m with map := Function.update m.map k pblk }.markBufferDirty (mapPageOf k) lsn

def bumpLogical (m : MapMeta) (fork : ForkNumber) (n lsn : Nat) : MapMeta :=
  { m with entry := m.entry.bumpLogicalNblocks fork n lsn }

def setLogical (m : MapMeta) (fork : ForkNumber) (n lsn : Nat) : MapMeta :=
  { m with entry := m.entry.setLogicalNblocks fork n lsn }

def bumpNextFree (m : MapMeta) (fork : ForkNumber) (n lsn : Nat) (inRecovery : Bool) : MapMeta :=
  { m with entry := m.entry.bumpNextFree fork n lsn inRecovery }

/-- `MapSBlockBumpPhysicalNblocks`. -/
def bumpCapacity (m : MapMeta) (fork : ForkNumber) (n lsn : Nat) : MapMeta :=
  { m with entry := m.entry.bumpCapacity fork n lsn }

def setRange (m : MapMeta) (fork : ForkNumber) (lsn : Nat) : Nat → List Nat → MapMeta
  | _, [] => m
  | lblk, pblk :: pblks =>
    setRange (m.setEntry (fork, lblk) (some pblk) lsn) fork lsn (lblk + 1) pblks

def clearRange (m : MapMeta) (fork : ForkNumber) (lsn : Nat) : Nat → Nat → MapMeta
  | _, 0 => m
  | lblk, count + 1 => clearRange (m.setEntry (fork, lblk) none lsn) fork lsn (lblk + 1) count

end MapMeta

def umApplyReservedRangeRemap (m : MapMeta) (fork : ForkNumber) (first : Nat) (pblks : List Nat)
    (lsn : Nat) : MapMeta :=
  ((((m.bumpCapacity fork (maxPblk pblks + 1) lsn).setRange fork lsn first pblks).bumpNextFree
    fork (maxPblk pblks + 1) lsn true).bumpCapacity fork (maxPblk pblks + 1) lsn).bumpLogical
      fork (first + pblks.length) lsn

def redoPublish (m : MapMeta) (lsn : Nat) (blk : BlockRemap) : MapMeta :=
  (m.setEntry blk.key (some blk.new) lsn).bumpNextFree blk.key.1 blk.nextFree lsn true

/-- The metadata side of redoing one remapped block reference. A delta goes through the old
mapping to its baseline page first, which must lie below the logical end of the fork; a reference
to an invalid page, or a delta without an old block, stops recovery. -/
def redoBlockRemap (m : MapMeta) (lsn : Nat) (blk : BlockRemap) : Option MapMeta :=
  match blk.kind, blk.old with
  | .delta, none => none
  | .delta, some old =>
    if blk.key.2 < m.entry.super.logical blk.key.1 then
      some (redoPublish (m.setEntry blk.key (some old) lsn) lsn blk)
    else none
  | _, some _ => some (redoPublish m lsn blk)
  | _, none => some ((redoPublish m lsn blk).bumpLogical blk.key.1 blk.logicalNblocks lsn)

/-- `XLOG_UMBRA_MAP_SET` redo; `materialized` says whether the old physical block of a relocation
lies within the data file, so that its contents were copied. -/
def redoMapSet (m : MapMeta) (lsn : Nat) (materialized : Bool) (key : BlockKey) (new : Nat) :
    Option Nat → MapMeta
  | none =>
    (((m.setEntry key (some new) lsn).bumpNextFree key.1 (new + 1) lsn true).bumpLogical
      key.1 (key.2 + 1) lsn).bumpCapacity key.1 (new + 1) lsn
  | some _ =>
    if materialized then
      ((m.setEntry key (some new) lsn).bumpNextFree key.1 (new + 1) lsn true).bumpCapacity
        key.1 (new + 1) lsn
    else (m.setEntry key (some new) lsn).bumpNextFree key.1 (new + 1) lsn true

def redoTruncate (m : MapMeta) (lsn : Nat) (fork : ForkNumber) (nblocks : Nat) : MapMeta :=
  (m.clearRange fork lsn nblocks (m.entry.super.logical fork - nblocks)).setLogical fork nblocks lsn

def redoBlockRemaps (m : MapMeta) (lsn : Nat) : List BlockRemap → Option MapMeta
  | [] => some m
  | blk :: blks => (redoBlockRemap m lsn blk).bind fun m => redoBlockRemaps m lsn blks

/-- What `umzeroextend` does in recovery with a fresh block of an auxiliary fork: it is published
without a record, under the replay position. -/
def MapMeta.publishLocally (m : MapMeta) (k : BlockKey) (pblk pos : Nat) : MapMeta :=
  (((m.setEntry k (some pblk) pos).bumpNextFree k.1 (pblk + 1) pos true).bumpCapacity
    k.1 (pblk + 1) pos).bumpLogical k.1 (k.2 + 1) pos

/-- Replay of one record that ends at `lsn`; `none` stops recovery. -/
def redoRecord (m : MapMeta) (lsn : Nat) (materialized : Bool) : Record → Option MapMeta
  | .mapSet key old new => some (redoMapSet m lsn materialized key new old)
  | .rangeRemap fork first pblks => some (umApplyReservedRangeRemap m fork first pblks lsn)
  | .blockRemaps blks => redoBlockRemaps m lsn blks
  | .smgrTruncate fork nblocks => some (redoTruncate m lsn fork nblocks)
  | .other => some m

end Umbra
