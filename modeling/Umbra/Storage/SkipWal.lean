import Umbra.Foundation.System
import Umbra.Publication.Replay

/-!
# Publication of a relation written under skip-WAL

`UmRebuildMapAndSuperblockForSkipWAL` maps every block of a relation that was written without WAL to
itself and logs one `SKIP_WAL_DENSE_MAP` record, from which `umbra_redo` builds the same metadata.
-/

namespace Umbra.SkipWal

open Foundation Function MapSuperblock MapSuperEntry List Option

structure RelationFiles where
  nblocks : ForkNumber → Option Nat
  valid : ∀ fork n, nblocks fork = some n → n < invalidBlockNumber

/-- The copy in shared memory and the superblock in the metadata file, if that exists. No MAP page
is written before the relation is published. -/
structure RelationMetadata where
  cached : Option MapMeta
  disk : Option MapSuperblock

def mappedForks : List ForkNumber := [.main, .fsm, .vm]

def mapSuperForkExists (super : MapSuperblock) : ForkNumber → Bool
  | .main => true
  | .fsm => (super.counts .fsm).logicalNblocks.isSome
  | .vm => (super.counts .vm).logicalNblocks.isSome

namespace RelationMetadata

def load (super : MapSuperblock) : MapMeta := ⟨fun _ => none, fun _ => 0, [], .load super⟩

def current (s : RelationMetadata) : Option MapMeta := s.cached.or (s.disk.map load)

def update (s : RelationMetadata) (f : MapMeta → MapMeta) : RelationMetadata :=
  { s with cached := s.current.map f }

/-- `ummapcreate`: a new metadata file gets an initial superblock, which is written at once. -/
def ummapcreate (s : RelationMetadata) (lsn : Nat) : RelationMetadata :=
  match s.disk with
  | some _ => s
  | none =>
    ⟨some (load { init with lastUpdatedLsn := lsn }), some { init with lastUpdatedLsn := lsn }⟩

/-- The metadata part of `umcreate`: a new FSM or VM fork exists and is empty. -/
def umcreate (s : RelationMetadata) (fork : ForkNumber) (lsn : Nat) : RelationMetadata :=
  match fork with
  | .main => s
  | .fsm => s.update fun m => m.setLogical .fsm 0 lsn
  | .vm => s.update fun m => m.setLogical .vm 0 lsn

def umredocreatefork (s : RelationMetadata) (fork : ForkNumber) (lsn : Nat) : RelationMetadata :=
  match fork with
  | .main => s.ummapcreate lsn
  | .fsm => (s.ummapcreate lsn).update fun m => m.setLogical .fsm 0 lsn
  | .vm => (s.ummapcreate lsn).update fun m => m.setLogical .vm 0 lsn

def mapInvalidateRelation (s : RelationMetadata) : RelationMetadata := { s with cached := none }

def flush (s : RelationMetadata) : RelationMetadata :=
  { s with disk := (s.cached.map fun m => m.entry.super).or s.disk }

end RelationMetadata

/-! ### The two loops -/

/-- One turn of the second loop of `UmRebuildMapAndSuperblockForSkipWAL`. The log position of an
empty fork is invalid. -/
def publishFork (lsn : Nat) (m : MapMeta) (entry : ForkNumber × Nat) : MapMeta :=
  if 0 < entry.2 then
    (((m.setRange entry.1 lsn 0 (List.range entry.2)).bumpNextFree entry.1 entry.2 lsn
      false).bumpCapacity entry.1 entry.2 lsn).setLogical entry.1 entry.2 lsn
  else m.setLogical entry.1 entry.2 invalidXLogRecPtr

def redoFork (lsn : Nat) (m : MapMeta) (entry : ForkNumber × Nat) : MapMeta :=
  (((m.setRange entry.1 lsn 0 (List.range entry.2)).bumpNextFree entry.1 entry.2 lsn
    true).bumpCapacity entry.1 entry.2 lsn).setLogical entry.1 entry.2 lsn

def applyEntries (files : RelationFiles) : List (ForkNumber × Nat) :=
  mappedForks.filterMap fun fork => (files.nblocks fork).map (fork, ·)

/-- The entries that it logs: empty forks need no anchor. -/
def walEntries (files : RelationFiles) : List (ForkNumber × Nat) :=
  (applyEntries files).filter fun entry => 0 < entry.2

/-- `UmRebuildMapAndSuperblockForSkipWAL` with the record it logs, which ends at `lsn`. -/
def umRebuildMapAndSuperblockForSkipWAL (s : RelationMetadata) (files : RelationFiles)
    (walInsertEnabled : Bool) (lsn : Nat) :
    RelationMetadata × Option (List (ForkNumber × Nat)) :=
  if walEntries files ≠ [] ∧ walInsertEnabled then
    (s.mapInvalidateRelation.update fun m => (applyEntries files).foldl (publishFork lsn) m,
      some (walEntries files))
  else
    (s.mapInvalidateRelation.update fun m =>
      (applyEntries files).foldl (publishFork invalidXLogRecPtr) m, none)

/-- `XLOG_UMBRA_SKIP_WAL_DENSE_MAP` redo; an invalid block count is a PANIC, and without a metadata
file there is nothing to do. -/
def redoSkipWalDenseMap (s : RelationMetadata) (entries : List (ForkNumber × Nat)) (lsn : Nat) :
    Option RelationMetadata :=
  if s.disk = none then some s
  else if ∀ entry ∈ entries, entry.2 < invalidBlockNumber then
    some (s.mapInvalidateRelation.update fun m => entries.foldl (redoFork lsn) m)
  else none

/-! ### Creation -/

/-- The pending mark and creation of forks, their replay, and a flush of the superblock at any time.
-/
inductive CreationStep
  | markSkipWalPending (lsn : Nat)
  | create (fork : ForkNumber) (lsn : Nat)
  | redoCreate (fork : ForkNumber) (created : Bool) (lsn : Nat)
  | flush

def CreationStep.fork : CreationStep → Option ForkNumber
  | .create fork _ => some fork
  | .redoCreate fork _ _ => some fork
  | _ => none

def applyCreation (s : RelationMetadata) : CreationStep → RelationMetadata
  | .markSkipWalPending lsn => s.ummapcreate lsn
  | .create fork lsn => s.umcreate fork lsn
  | .redoCreate fork created lsn =>
    if created then (s.umcreate fork lsn).umredocreatefork fork lsn
    else s.umredocreatefork fork lsn
  | .flush => s.flush

def creation (files : RelationFiles) : System RelationMetadata CreationStep where
  step s e :=
    if ∀ fork ∈ e.fork, files.nblocks fork ≠ none then some (applyCreation s e) else none

def RelationMetadata.absent : RelationMetadata := ⟨none, none⟩

structure FreshCounts (files : RelationFiles) (fork : ForkNumber) (c : ForkCounts) : Prop where
  nextFree : c.nextFreePhysBlock = (init.counts fork).nextFreePhysBlock
  capacity : c.physCapacity = (init.counts fork).physCapacity
  logical : c.logicalNblocks = (init.counts fork).logicalNblocks ∨
    c.logicalNblocks = some 0 ∧ files.nblocks fork ≠ none

def FreshSuper (files : RelationFiles) (super : MapSuperblock) : Prop :=
  ∀ fork, FreshCounts files fork (super.counts fork)

structure Fresh (files : RelationFiles) (s : RelationMetadata) : Prop where
  cached : ∀ m ∈ s.cached, FreshSuper files m.entry.super
  disk : ∀ super ∈ s.disk, FreshSuper files super

section Creation

variable {files : RelationFiles} {s : RelationMetadata} {fork : ForkNumber}

lemma freshSuper_init (lsn) : FreshSuper files { init with lastUpdatedLsn := lsn } :=
  fun _ => ⟨rfl, rfl, .inl rfl⟩

lemma FreshSuper.setLogical {m : MapMeta} (h : FreshSuper files m.entry.super)
    (hfork : files.nblocks fork ≠ none) (lsn) :
    FreshSuper files (m.setLogical fork 0 lsn).entry.super := by
  intro fork'
  by_cases hf : fork' = fork
  · subst hf
    have hc : (m.setLogical fork' 0 lsn).entry.super.counts fork' =
        { m.entry.super.counts fork' with logicalNblocks := some 0 } := update_self ..
    rw [hc]
    exact ⟨(h fork').nextFree, (h fork').capacity, .inr ⟨rfl, hfork⟩⟩
  · have hc : (m.setLogical fork 0 lsn).entry.super.counts fork' = m.entry.super.counts fork' :=
      update_of_ne hf ..
    rw [hc]
    exact h fork'

namespace Fresh

lemma absent : Fresh files .absent := ⟨by simp [RelationMetadata.absent],
  by simp [RelationMetadata.absent]⟩

section
variable (h : Fresh files s)
include h

lemma current : ∀ m ∈ s.current, FreshSuper files m.entry.super := by
  intro m hm
  rcases or_eq_some_iff.mp hm with hm | ⟨-, hm⟩
  · exact h.cached m hm
  · obtain ⟨super, hsuper, rfl⟩ := map_eq_some_iff.mp hm
    exact h.disk super hsuper

lemma ummapcreate (lsn) : Fresh files (s.ummapcreate lsn) := by
  rw [RelationMetadata.ummapcreate]
  split
  · exact h
  · constructor
    · rintro m ⟨rfl⟩
      exact freshSuper_init lsn
    · rintro super ⟨rfl⟩
      exact freshSuper_init lsn

section

variable (hfork : files.nblocks fork ≠ none) (lsn : Nat)
include hfork lsn

lemma setLogical : Fresh files (s.update fun m => m.setLogical fork 0 lsn) := by
  refine ⟨?_, h.disk⟩
  intro m hm
  obtain ⟨m', hm', rfl⟩ := map_eq_some_iff.mp hm
  exact (h.current m' hm').setLogical hfork lsn

lemma umcreate : Fresh files (s.umcreate fork lsn) := by
  cases fork with
  | main => exact h
  | fsm | vm => exact h.setLogical hfork lsn

lemma umredocreatefork : Fresh files (s.umredocreatefork fork lsn) := by
  cases fork with
  | main => exact h.ummapcreate lsn
  | fsm | vm => exact (h.ummapcreate lsn).setLogical hfork lsn

end

lemma flush : Fresh files s.flush := by
  refine ⟨h.cached, ?_⟩
  intro super hsuper
  rcases or_eq_some_iff.mp hsuper with hsuper | ⟨-, hsuper⟩
  · obtain ⟨m, hm, rfl⟩ := map_eq_some_iff.mp hsuper
    exact h.cached m hm
  · exact h.disk super hsuper

end

lemma of_reachable (h : (creation files).Reachable .absent s) : Fresh files s := by
  refine h.invariant (I := Fresh files) .absent ?_
  intro t e u ht _ hstep
  obtain ⟨hforks, rfl⟩ := guard_eq_some hstep
  cases e with
  | markSkipWalPending lsn => exact ht.ummapcreate lsn
  | create fork lsn => exact ht.umcreate (hforks fork rfl) lsn
  | redoCreate fork created lsn =>
    cases created with
    | false => exact ht.umredocreatefork (hforks fork rfl) lsn
    | true => exact (ht.umcreate (hforks fork rfl) lsn).umredocreatefork (hforks fork rfl) lsn
  | flush => exact ht.flush

end Fresh

end Creation

/-! ### What the loops compute -/

def denseCounts (fork : ForkNumber) (n : Nat) (c : ForkCounts) : ForkCounts :=
  ⟨some n, bumpCount fork c.nextFreePhysBlock n, bumpCount fork c.physCapacity n⟩

structure Dense (f : MapMeta → ForkNumber × Nat → MapMeta) : Prop where
  counts : ∀ m entry, (f m entry).entry.super.counts = update m.entry.super.counts entry.1
      (denseCounts entry.1 entry.2 (m.entry.super.counts entry.1))
  map : ∀ m entry k, (f m entry).map k = if k.1 = entry.1 ∧ k.2 < entry.2 then some k.2 else m.map k

lemma map_setRange_range (m : MapMeta) (fork : ForkNumber) (lsn n : Nat) (k : BlockKey) :
    (m.setRange fork lsn 0 (List.range n)).map k =
      if k.1 = fork ∧ k.2 < n then some k.2 else m.map k := by
  rw [MapMeta.map_setRange, Record.newPblk]
  by_cases hf : fork = k.1
  · by_cases hn : k.2 < n
    · simp [hf, hn]
    · simp [hf, hn]
  · simp [hf, Ne.symm hf]

lemma dense_redoFork (lsn) : Dense (redoFork lsn) where
  counts m entry := by
    simp only [redoFork, MapMeta.setLogical, MapMeta.bumpCapacity, MapMeta.bumpNextFree,
      MapMeta.entry_setRange, setLogicalNblocks, store,
      setCounts, counts_bumpCapacity,
      counts_bumpNextFree, update_idem, update_self]
    rfl
  map m entry k := map_setRange_range m entry.1 lsn entry.2 k

lemma dense_publishFork (lsn) : Dense (publishFork lsn) where
  counts m entry := by
    rw [publishFork]
    split_ifs with hn
    · simp only [MapMeta.setLogical, MapMeta.bumpCapacity, MapMeta.bumpNextFree,
        MapMeta.entry_setRange, setLogicalNblocks, store,
        setCounts, counts_bumpCapacity,
        counts_bumpNextFree, update_idem, update_self]
      rfl
    · -- an empty fork only gets its logical size, and a bump to zero changes nothing
      rw [denseCounts, Nat.eq_zero_of_not_pos hn, bumpCount_zero, bumpCount_zero]
      rfl
  map m entry k := by
    rw [publishFork]
    split_ifs with hn hk hk
    · exact (map_setRange_range m entry.1 lsn entry.2 k).trans (if_pos hk)
    · exact (map_setRange_range m entry.1 lsn entry.2 k).trans (if_neg hk)
    · exact absurd (Nat.zero_lt_of_lt hk.2) hn
    · rfl

variable {f : MapMeta → ForkNumber × Nat → MapMeta}

lemma Dense.foldl (hf : Dense f) {entries : List (ForkNumber × Nat)}
    (hnd : (entries.map Prod.fst).Nodup) (m) :
    (∀ fork, (entries.foldl f m).entry.super.counts fork = match entries.lookup fork with
      | some n => denseCounts fork n (m.entry.super.counts fork)
      | none => m.entry.super.counts fork) ∧
    ∀ k : BlockKey, (entries.foldl f m).map k = match entries.lookup k.1 with
      | some n => if k.2 < n then some k.2 else m.map k
      | none => m.map k := by
  induction entries generalizing m with
  | nil => exact ⟨fun _ => rfl, fun _ => rfl⟩
  | cons entry entries ih =>
    obtain ⟨hnot, hnd⟩ := nodup_cons.mp hnd
    obtain ⟨hcounts, hmap⟩ := ih hnd (f m entry)
    have hnone : entries.lookup entry.1 = none := by
      rw [lookup_eq_none_iff]
      intro p hp
      rw [bne_iff_ne]
      exact fun heq => hnot (heq ▸ mem_map_of_mem hp)
    constructor
    · intro fork
      rw [foldl_cons, hcounts, lookup_cons]
      by_cases hfork : fork = entry.1
      · subst hfork
        simp [hnone, hf.counts]
      · simp [beq_false_of_ne hfork, hf.counts, update_of_ne hfork]
    · intro k
      rw [foldl_cons, hmap, lookup_cons]
      by_cases hfork : k.1 = entry.1
      · simp [hfork, hnone, hf.map]
      · simp [beq_false_of_ne hfork, hfork, hf.map]

lemma lookup_collect (size : ForkNumber → Option Nat) (forks : List ForkNumber)
    (fork : ForkNumber) :
    (forks.filterMap fun fork => (size fork).map (fork, ·)).lookup fork =
      if fork ∈ forks then size fork else none := by
  induction forks with
  | nil => rfl
  | cons fork' forks ih =>
    by_cases hfork : fork = fork'
    · subst hfork
      cases hsize : size fork with
      | none => simp [hsize, ih]
      | some => simp [hsize]
    · cases hsize : size fork' with
      | none => simp [hsize, ih, hfork]
      | some => simp [hsize, ih, hfork, lookup_cons, beq_false_of_ne hfork]

lemma collect_sublist (size : ForkNumber → Option Nat) (forks : List ForkNumber) :
    List.Sublist ((forks.filterMap fun fork => (size fork).map (fork, ·)).map Prod.fst) forks := by
  induction forks with
  | nil => exact .slnil
  | cons fork forks ih =>
    cases hsize : size fork with
    | none => simpa [hsize] using ih.cons fork
    | some => simpa [hsize] using ih

section Entries

variable (files : RelationFiles)

lemma applyEntries_nodup : ((applyEntries files).map Prod.fst).Nodup :=
  List.Nodup.sublist (collect_sublist files.nblocks mappedForks) (by decide)

lemma walEntries_nodup : ((walEntries files).map Prod.fst).Nodup :=
  (applyEntries_nodup files).sublist ((filter_sublist).map _)

lemma mem_mappedForks (fork) : fork ∈ mappedForks := by cases fork <;> decide

lemma lookup_applyEntries (fork) : (applyEntries files).lookup fork = files.nblocks fork := by
  rw [applyEntries, lookup_collect, if_pos (mem_mappedForks fork)]

lemma walEntries_eq : walEntries files = mappedForks.filterMap fun fork =>
    ((files.nblocks fork).filter fun n => 0 < n).map (fork, ·) := by
  rw [walEntries, applyEntries, filter_filterMap]
  congr
  funext fork
  cases files.nblocks fork with
  | none => rfl
  | some n => by_cases hn : 0 < n <;> simp [filter_some, hn]

lemma lookup_walEntries (fork) :
    (walEntries files).lookup fork = (files.nblocks fork).filter fun n => 0 < n := by
  rw [walEntries_eq, lookup_collect (fun fork => (files.nblocks fork).filter fun n => 0 < n),
    if_pos (mem_mappedForks fork)]

lemma walEntries_valid : ∀ entry ∈ walEntries files, entry.2 < invalidBlockNumber := by
  intro entry hmem
  obtain ⟨fork, -, hfork⟩ := mem_filterMap.mp (mem_filter.mp hmem).1
  obtain ⟨n, hn, rfl⟩ := map_eq_some_iff.mp hfork
  exact files.valid fork n hn

end Entries

/-! ### Publication and replay -/

structure Published (size : ForkNumber → Option Nat) (super : MapSuperblock) (m : MapMeta) :
    Prop where
  counts : ∀ fork, m.entry.super.counts fork = match size fork with
    | some n => denseCounts fork n (super.counts fork)
    | none => super.counts fork
  map : ∀ k : BlockKey, m.map k = match size k.1 with
    | some n => if k.2 < n then some k.2 else none
    | none => none

lemma published_foldl (hf : Dense f) {entries : List (ForkNumber × Nat)}
    (hnd : (entries.map Prod.fst).Nodup) (super) :
    Published (fun fork => entries.lookup fork) super
      (entries.foldl f (RelationMetadata.load super)) :=
  ⟨(hf.foldl hnd _).1, (hf.foldl hnd _).2⟩

section Agreement

variable {files : RelationFiles} {s s' : RelationMetadata} {lsn : Nat} {enabled : Bool}
  {entries : List (ForkNumber × Nat)} {super super' : MapSuperblock} {m m' : MapMeta}

lemma published_rebuild (hdisk : s.disk = some super)
    (h : umRebuildMapAndSuperblockForSkipWAL s files enabled lsn = (s', some entries)) :
    entries = walEntries files ∧ ∃ m, s'.current = some m ∧ Published files.nblocks super m := by
  rw [umRebuildMapAndSuperblockForSkipWAL] at h
  split_ifs at h with hc
  · cases h
    refine ⟨rfl, (applyEntries files).foldl (publishFork lsn) (RelationMetadata.load super), ?_, ?_⟩
    · simp [RelationMetadata.update, RelationMetadata.current,
        RelationMetadata.mapInvalidateRelation, hdisk]
    · have := published_foldl (dense_publishFork lsn) (applyEntries_nodup files) super
      rwa [funext (lookup_applyEntries files)] at this
  · cases h

variable (files lsn) in
lemma published_redo (hdisk : s.disk = some super) :
    ∃ s' m, redoSkipWalDenseMap s (walEntries files) lsn = some s' ∧ s'.current = some m ∧
      Published (fun fork => (files.nblocks fork).filter fun n => 0 < n) super m := by
  refine ⟨s.mapInvalidateRelation.update fun m => (walEntries files).foldl (redoFork lsn) m,
    (walEntries files).foldl (redoFork lsn) (RelationMetadata.load super), ?_, ?_, ?_⟩
  · rw [redoSkipWalDenseMap, hdisk, if_neg (some_ne_none _), if_pos (walEntries_valid files)]
  · simp [RelationMetadata.update, RelationMetadata.current,
      RelationMetadata.mapInvalidateRelation, hdisk]
  · have := published_foldl (dense_redoFork lsn) (walEntries_nodup files) super
    rwa [funext (lookup_walEntries files)] at this

lemma normalize_init_logical (fork) :
    mapNormalizeForkBlockCount fork (init.counts fork).logicalNblocks = 0 := by
  cases fork <;> rfl

lemma FreshCounts.normalize_logical {fork c} (h : FreshCounts files fork c) :
    mapNormalizeForkBlockCount fork c.logicalNblocks = 0 := by
  rcases h.logical with hl | ⟨hl, -⟩
  · rw [hl, normalize_init_logical]
  · rw [hl, mapNormalizeForkBlockCount_some]

lemma mapSuperForkExists_eq (super) {fork} (hfork : fork ≠ .main) :
    mapSuperForkExists super fork = (super.counts fork).logicalNblocks.isSome := by
  cases fork with
  | main => exact absurd rfl hfork
  | fsm | vm => rfl

section Both

variable (h : Published files.nblocks super m)
  (h' : Published (fun fork => (files.nblocks fork).filter fun n => 0 < n) super' m')
include h h'

lemma Published.map_eq : m.map = m'.map := by
  funext k
  rw [h.map, h'.map]
  cases hn : files.nblocks k.1 with
  | none => rfl
  | some n =>
    cases n with
    | zero | succ => rfl

variable (hfresh : FreshSuper files super) (hfresh' : FreshSuper files super') (fork : ForkNumber)
include hfresh hfresh'

lemma Published.counters_eq : m.entry.super.logical fork = m'.entry.super.logical fork ∧
      m.entry.super.nextFree fork = m'.entry.super.nextFree fork ∧
      m.entry.super.capacity fork = m'.entry.super.capacity fork := by
  have hnext : (super.counts fork).nextFreePhysBlock = (super'.counts fork).nextFreePhysBlock :=
    (hfresh fork).nextFree.trans (hfresh' fork).nextFree.symm
  have hcap : (super.counts fork).physCapacity = (super'.counts fork).physCapacity :=
    (hfresh fork).capacity.trans (hfresh' fork).capacity.symm
  simp only [logical, nextFree, capacity]
  rw [h.counts, h'.counts]
  cases hn : files.nblocks fork with
  | none =>
    refine ⟨?_, congrArg _ hnext, congrArg _ hcap⟩
    exact (hfresh fork).normalize_logical.trans (hfresh' fork).normalize_logical.symm
  | some n =>
    cases n with
    | zero =>
      simp only [denseCounts, bumpCount_zero, filter_some, lt_irrefl, decide_false,
        Bool.false_eq_true, if_false]
      refine ⟨?_, congrArg _ hnext, congrArg _ hcap⟩
      rw [mapNormalizeForkBlockCount_some, (hfresh' fork).normalize_logical]
    | succ =>
      simp only [denseCounts, filter_some, Nat.succ_pos, decide_true, if_true, hnext, hcap,
        and_self]

lemma Published.exists_eq_iff :
    mapSuperForkExists m.entry.super fork = mapSuperForkExists m'.entry.super fork ↔
      fork = .main ∨ files.nblocks fork ≠ some 0 ∨ mapSuperForkExists super' fork = true := by
  by_cases hmain : fork = .main
  · subst hmain
    simp [mapSuperForkExists]
  simp only [mapSuperForkExists_eq _ hmain, hmain, false_or]
  rw [h.counts, h'.counts]
  have hinit : (init.counts fork).logicalNblocks = none := by
    cases fork with
    | main => exact absurd rfl hmain
    | fsm | vm => rfl
  cases hn : files.nblocks fork with
  | none =>
    have hnone {sup : MapSuperblock} (hf : FreshSuper files sup) :
        (sup.counts fork).logicalNblocks = none :=
      ((hf fork).logical.resolve_right fun hr => hr.2 hn).trans hinit
    simp [hnone hfresh, hnone hfresh']
  | some n =>
    cases n with
    | zero | succ => simp [denseCounts, filter_some]

end Both

/-- Publication and replay of its record agree on the mapping and the counters of all forks, and on
their existence unless an FSM or VM fork is empty. -/
theorem skipWal_publication_replayed {primary primary' standby : RelationMetadata}
    (hp : (creation files).Reachable .absent primary) (hpdisk : primary.disk = some super)
    (hs : (creation files).Reachable .absent standby) (hsdisk : standby.disk = some super')
    (h : umRebuildMapAndSuperblockForSkipWAL primary files enabled lsn = (primary', some entries)) :
    ∃ standby' m m', redoSkipWalDenseMap standby entries lsn = some standby' ∧
      primary'.current = some m ∧ standby'.current = some m' ∧ m.map = m'.map ∧
      ∀ fork, m.entry.super.logical fork = m'.entry.super.logical fork ∧
        m.entry.super.nextFree fork = m'.entry.super.nextFree fork ∧
        m.entry.super.capacity fork = m'.entry.super.capacity fork ∧
        (mapSuperForkExists m.entry.super fork = mapSuperForkExists m'.entry.super fork ↔
          fork = .main ∨ files.nblocks fork ≠ some 0 ∨ mapSuperForkExists super' fork = true) := by
  have hfresh : FreshSuper files super := (Fresh.of_reachable hp).disk super hpdisk
  have hfresh' : FreshSuper files super' := (Fresh.of_reachable hs).disk super' hsdisk
  obtain ⟨rfl, m, hm, hpub⟩ := published_rebuild hpdisk h
  obtain ⟨standby', m', hredo, hm', hpub'⟩ := published_redo files lsn hsdisk
  refine ⟨standby', m, m', hredo, hm, hm', hpub.map_eq hpub', fun fork => ?_⟩
  obtain ⟨hlogical, hnext, hcap⟩ := hpub.counters_eq hpub' hfresh hfresh' fork
  exact ⟨hlogical, hnext, hcap, hpub.exists_eq_iff hpub' hfresh hfresh' fork⟩

end Agreement

/-- A table of one block with an FSM fork that exists and is empty. -/
def emptyFsm : RelationFiles where
  nblocks
    | .main => some 1
    | .fsm => some 0
    | .vm => none
  valid := by
    intro fork n h
    cases fork <;> cases h <;> decide

/-- Its metadata on the primary before publication, and in recovery after both creation records. -/
def emptyFsmCreated : RelationMetadata :=
  (creation emptyFsm).after .absent [.markSkipWalPending 3, .create .main 4, .create .fsm 5]

@[inherit_doc emptyFsmCreated]
def emptyFsmReplayed : RelationMetadata :=
  (creation emptyFsm).after .absent [.redoCreate .main true 3, .redoCreate .fsm true 4]

/-- The FSM fork exists on the primary and not after replay. -/
theorem empty_fsm_not_replayed : (creation emptyFsm).Reachable .absent emptyFsmCreated ∧
      (creation emptyFsm).Reachable .absent emptyFsmReplayed ∧
      (umRebuildMapAndSuperblockForSkipWAL emptyFsmCreated emptyFsm true 9).2 = some [(.main, 1)] ∧
      ((umRebuildMapAndSuperblockForSkipWAL emptyFsmCreated emptyFsm true 9).1.current.map fun m =>
        mapSuperForkExists m.entry.super .fsm) = some true ∧
      ((redoSkipWalDenseMap emptyFsmReplayed [(.main, 1)] 9).bind fun s => s.current.map fun m =>
        mapSuperForkExists m.entry.super .fsm) = some false :=
  ⟨.of_isSome (by decide), .of_isSome (by decide), by decide, by decide, by decide⟩

theorem skipWal_publication_replayed_emptyFsm :
    (creation emptyFsm).Reachable .absent emptyFsmCreated ∧
      ∃ standby' m m', redoSkipWalDenseMap emptyFsmReplayed [(.main, 1)] 9 = some standby' ∧
        (umRebuildMapAndSuperblockForSkipWAL emptyFsmCreated emptyFsm true 9).1.current = some m ∧
        standby'.current = some m' ∧ m.map = m'.map := by
  have hp : (creation emptyFsm).Reachable .absent emptyFsmCreated := .of_isSome (by decide)
  have hs : (creation emptyFsm).Reachable .absent emptyFsmReplayed := .of_isSome (by decide)
  have h : umRebuildMapAndSuperblockForSkipWAL emptyFsmCreated emptyFsm true 9 =
      ((umRebuildMapAndSuperblockForSkipWAL emptyFsmCreated emptyFsm true 9).1,
        some [(.main, 1)]) := rfl
  obtain ⟨standby', m, m', hredo, hm, hm', hmap, -⟩ :=
    skipWal_publication_replayed hp rfl hs rfl h
  exact ⟨hp, standby', m, m', hredo, hm, hm', hmap⟩

end Umbra.SkipWal
