import Umbra.Timeline.History
import Mathlib.Data.List.Sort

/-!
# Incremental backup of a mapped fork

WAL summaries list logical blocks. `GetFileBackupMethod` takes their numbers for positions in the
segment files, which are laid out by physical block.
-/

namespace Umbra.Timeline

open Foundation Function List
open Block Content

variable {β : Type} {e : BlockRefTableEntry}

/-! ### WAL summaries -/

/-- An entry of a block reference table. No limit block is `InvalidBlockNumber`. -/
structure BlockRefTableEntry where
  limitBlock : Option Nat
  blocks : List Nat

def setLimitBlock (entry : Option BlockRefTableEntry) (n : Nat) : BlockRefTableEntry :=
  match entry with
  | none => ⟨some n, []⟩
  | some e =>
    if e.limitBlock.any (· ≤ n) then e else ⟨some n, e.blocks.filter (· < n)⟩

def markBlockModified (entry : Option BlockRefTableEntry) (b : Nat) : BlockRefTableEntry :=
  match entry with
  | none => ⟨none, [b]⟩
  | some e => { e with blocks := if b ∈ e.blocks then e.blocks else b :: e.blocks }

/-- `SummarizeWAL` at a record: `SummarizeSmgrRecord`, then its block references. -/
def summarizeRecord (entry : Option BlockRefTableEntry) (r : Record β) :
    Option BlockRefTableEntry :=
  let entry :=
    match r with
    | .truncate n => some (setLimitBlock entry n)
    | _ => entry
  r.blockRefs.foldl (fun entry b => some (markBlockModified entry b)) entry

def summarize (wal : List (Record β)) : Option BlockRefTableEntry :=
  wal.foldl summarizeRecord none

/-! ### Files -/

inductive FileBackupMethod
  | fully
  /-- With `relative_block_numbers` and `truncation_block_length`. -/
  | incrementally (blocks : List Nat) (truncationBlockLength : Nat)

def blcksz : Nat := 8192

/-- `GetFileBackupMethod` of a segment file of `size` bytes. `inManifest` says whether the prior
backup has the file, `dbCreated` whether the summaries have an entry for the database. -/
def getFileBackupMethod (relsegSize : Nat) (fork : ForkNumber) (inManifest dbCreated : Bool)
    (entry : Option BlockRefTableEntry) (segno size : Nat) : FileBackupMethod :=
  if size % blcksz ≠ 0 ∨ relsegSize < size / blcksz then .fully
  else if fork = .fsm then .fully
  else if inManifest = false then .fully
  else if dbCreated then .fully
  else
    match entry with
    | none => if size = 0 then .fully else .incrementally [] (size / blcksz)
    | some e =>
      if e.limitBlock.any (· ≤ segno * relsegSize) then .fully
      else
        let startBlkno := segno * relsegSize
        let blocks := e.blocks.filter fun b => startBlkno ≤ b ∧ b < startBlkno + size / blcksz
        -- nearly everything would have to be sent: `nblocks * BLCKSZ > size * 0.9`
        if 9 * size < 10 * (blocks.length * blcksz) then .fully
        else
          .incrementally ((blocks.insertionSort (· ≤ ·)).map (· - startBlkno))
            (match e.limitBlock with
            | none => size / blcksz
            | some limit => min relsegSize (max (size / blcksz) (limit - startBlkno)))

namespace Fork

variable (relsegSize : Nat)

def HasSegment (f : Fork β) (segno : Nat) : Prop :=
  (segno = 0 ∨ segno * relsegSize < f.nblocks) ∧ segno ∉ f.gone

instance (f : Fork β) (segno : Nat) : Decidable (f.HasSegment relsegSize segno) :=
  inferInstanceAs (Decidable (_ ∧ _))

def segmentBlocks (f : Fork β) (segno : Nat) : Nat :=
  min relsegSize (f.nblocks - segno * relsegSize)

end Fork

section Backup

variable (relsegSize : Nat) (fork : ForkNumber) (dbCreated : Bool) (base : Fork β) (s : Server β)

def backupMethod (segno : Nat) : FileBackupMethod :=
  getFileBackupMethod relsegSize fork (decide (base.HasSegment relsegSize segno)) dbCreated
    (summarize s.wal) segno (s.fork.segmentBlocks relsegSize segno * blcksz)

/-- `reconstruct_from_incremental_file` takes a block from the incremental file, else from the prior
backup, else fills it with zeros. -/
def combined (p : Nat) : Content β :=
  match backupMethod relsegSize fork dbCreated base s (p / relsegSize) with
  | .fully => s.fork.page p
  | .incrementally blocks truncationBlockLength =>
    if p % relsegSize ∈ blocks then s.fork.page p
    else if p % relsegSize < truncationBlockLength ∧ p < base.nblocks then base.page p
    else .zero

def Covered (p : Nat) : Prop :=
  match backupMethod relsegSize fork dbCreated base s (p / relsegSize) with
  | .fully => True
  | .incrementally blocks _ => p % relsegSize ∈ blocks ∨ s.fork.page p = base.page p

end Backup

/-- A changed page gets to the physical block with its own number by a record that refers to it, or
to a segment file that the prior backup does not have. -/
def WithinReach (relsegSize : Nat) (base : Fork β) (s : Server β) : Event β → Prop
  | .log (.update l _) =>
    (s.fork.mapping l).all (fun p => p = l ∨ ¬ base.HasSegment relsegSize (p / relsegSize)) = true
  | .log (.birth l p _) | .log (.remap l _ p _) | .log (.remapImage l p _) =>
    p = l ∨ ¬ base.HasSegment relsegSize (p / relsegSize)
  | .log (.mapSet _ _ p) => ¬ base.HasSegment relsegSize (p / relsegSize)
  | .log (.firstMap ..) | .log (.range ..) | .log (.truncate _) | .log (.reclaimUnlink _)
  | .writeOld .. => True

instance (relsegSize : Nat) (base : Fork β) (s : Server β) (e : Event β) :
    Decidable (WithinReach relsegSize base s e) := by
  unfold WithinReach
  split <;> infer_instance

/-! ### Marks -/

def Marked (wal : List (Record β)) (l : Nat) : Prop := ∃ e, summarize wal = some e ∧ l ∈ e.blocks

lemma summarize_concat (wal : List (Record β)) (r : Record β) :
    summarize (wal ++ [r]) = summarizeRecord (summarize wal) r :=
  foldl_concat ..

lemma mem_markBlockModified (entry b) : b ∈ (markBlockModified entry b).blocks := by
  cases entry with
  | none => exact mem_singleton_self b
  | some =>
    simp only [markBlockModified]
    split
    next hb => exact hb
    next => exact mem_cons_self

lemma mem_markBlockModified_of_mem {l} (h : l ∈ e.blocks) (b) :
    l ∈ (markBlockModified (some e) b).blocks := by
  simp only [markBlockModified]
  split
  next => exact h
  next => exact mem_cons_of_mem b h

lemma mem_setLimitBlock {l n} (h : l ∈ e.blocks) (hlt : l < n) :
    l ∈ (setLimitBlock (some e) n).blocks := by
  simp only [setLimitBlock]
  split
  next => exact h
  next => exact mem_filter.mpr ⟨h, decide_eq_true hlt⟩

namespace Marked

variable {wal : List (Record β)} {l : Nat} {r : Record β}

lemma of_ref (h : l ∈ r.blockRefs) : Marked (wal ++ [r]) l := by
  refine ⟨markBlockModified (summarize wal) l, ?_, mem_markBlockModified ..⟩
  rw [summarize_concat]
  cases r with
  | update | birth | remap | remapImage =>
    cases mem_singleton.mp h
    rfl
  | mapSet | firstMap | range | truncate | reclaimUnlink => cases h

lemma concat (h : Marked wal l) (hlt : ∀ n, r = .truncate n → l < n) : Marked (wal ++ [r]) l := by
  obtain ⟨e, he, hl⟩ := h
  rw [Marked, summarize_concat, he]
  cases r with
  | update | birth | remap | remapImage => exact ⟨_, rfl, mem_markBlockModified_of_mem hl _⟩
  | mapSet | firstMap | range | reclaimUnlink => exact ⟨e, rfl, hl⟩
  | truncate n => exact ⟨_, rfl, mem_setLimitBlock hl (hlt n rfl)⟩

end Marked

/-! ### Runs -/

/-- Every page that has changed is marked at its place, or in a file that is sent fully. -/
def Tracked (relsegSize : Nat) (base : Fork β) (s : Server β) : Prop :=
  ∀ l p, s.fork.mapping l = some p → ¬ base.HasSegment relsegSize (p / relsegSize) ∨
    s.fork.page p = base.page p ∨ (p = l ∧ Marked s.wal l)

section Runs

variable {relsegSize : Nat} {base : Fork β} {s t : Server β}

lemma WithinReach.placed {r} (h : WithinReach relsegSize base s (.log r)) {lsn l p c}
    (hr : r.placed lsn s.fork = some (l, p, c)) :
    ¬ base.HasSegment relsegSize (p / relsegSize) ∨ c = .zero ∨ (p = l ∧ l ∈ r.blockRefs) := by
  cases r with
  | birth | remap | remapImage =>
    cases hr
    rcases h with heq | hno
    · exact .inr (.inr ⟨heq, mem_singleton_self _⟩)
    · exact .inl hno
  | mapSet =>
    cases hr
    exact .inl h
  | firstMap | range =>
    cases hr
    exact .inr (.inl rfl)
  | update | truncate | reclaimUnlink => cases hr

lemma Tracked.step (h : Tracked relsegSize base s) (hg : Grown relsegSize base s)
    (hbase : base.Base relsegSize) {e} (hok : WithinReach relsegSize base s e)
    (hstep : (server relsegSize).step s e = some t) : Tracked relsegSize base t := by
  cases Move.of_step hg.sound hstep with
  | @update l p page delta hl =>
    have hpresent := (hg.sound.mapped l p hl).2.2.2
    have hok : (s.fork.mapping l).all (fun p => p = l ∨
      ¬ base.HasSegment relsegSize (p / relsegSize)) = true := hok
    rw [hl] at hok
    intro l' q hq
    rw [Fork.write_of_present hpresent]
    rcases eq_or_ne l' l with rfl | hne
    · cases hl.symm.trans hq
      rcases of_decide_eq_true hok with heq | hno
      · exact .inr (.inr ⟨heq, .of_ref (mem_singleton_self _)⟩)
      · exact .inl hno
    · have hqp := hg.sound.ne_of_mapped hq hl hne
      refine (h l' q hq).imp_right (Or.imp ?_ (And.imp_right (·.concat nofun)))
      exact (update_of_ne hqp ..).trans
  | @put r l p c hr henabled hp =>
    have hnot : ∀ n, r ≠ .truncate n := by
      rintro n rfl
      cases hr
    rw [Fork.put_of_present (hg.sound.present p hp)]
    intro l' q hq
    rcases update_some_cases hq with ⟨rfl, rfl⟩ | ⟨hne, hq⟩
    · refine (hok.placed hr).imp_right (Or.imp ?_ (And.imp_right Marked.of_ref))
      rintro rfl
      exact (update_self ..).trans (hbase.sound.fresh q (hg.nextFree.trans hp)).symm
    · have hqp := hg.sound.ne_of_fresh hq hp
      refine (h l' q hq).imp_right (Or.imp ?_ (And.imp_right (·.concat fun n hn => ?_)))
      · exact (update_of_ne hqp ..).trans
      · exact absurd hn (hnot n)
  | truncate =>
    intro l p hl
    obtain ⟨hlt, hl⟩ := Option.ite_none_right_eq_some.mp hl
    refine (h l p hl).imp_right (Or.imp_right (And.imp_right (·.concat ?_)))
    rintro _ ⟨⟩
    exact hlt
  | unlink =>
    intro l p hl
    exact (h l p hl).imp_right (Or.imp_right (And.imp_right (·.concat nofun)))
  | @writeOld l p q hl hp hpresent =>
    intro l' p' hp'
    rw [Fork.write_of_present hpresent]
    have hne : p' ≠ p := by
      rintro rfl
      exact (hg.left l p' hp).2 l' hp'
    refine (h l' p' hp').imp_right (Or.imp_left ?_)
    exact (update_of_ne hne ..).trans

lemma Tracked.of_reaches (hbase : base.Base relsegSize) (hpos : 0 < relsegSize)
    (h : (server relsegSize).Reaches (WithinReach relsegSize base) (.start base) s) :
    Grown relsegSize base s ∧ Tracked relsegSize base s := by
  refine h.invariant (I := fun s => Grown relsegSize base s ∧ Tracked relsegSize base s) ?_ ?_
  · exact ⟨.start hbase, fun _ _ _ => .inr (.inl rfl)⟩
  · rintro s e t ⟨hg, htracked⟩ hok hstep
    exact ⟨hg.step hbase hpos hstep, htracked.step hg hbase hok hstep⟩

end Runs

/-! ### The combined backup -/

lemma getFileBackupMethod_incrementally
    {relsegSize fork inManifest dbCreated entry segno n trunc blocks} (hn : n ≤ relsegSize)
    (h : getFileBackupMethod relsegSize fork inManifest dbCreated entry segno (n * blcksz) =
      .incrementally blocks trunc) :
    inManifest = true ∧ n ≤ trunc ∧ ∀ e, entry = some e → ∀ l ∈ e.blocks,
      segno * relsegSize ≤ l → l < segno * relsegSize + n → l - segno * relsegSize ∈ blocks := by
  have hsize : n * blcksz / blcksz = n := Nat.mul_div_cancel n (by decide)
  simp only [getFileBackupMethod, hsize] at h
  split at h
  · cases h
  split at h
  · cases h
  split at h
  · cases h
  next hin =>
    split at h
    · cases h
    refine ⟨Bool.not_eq_false _ |>.mp hin, ?_⟩
    split at h
    · split at h
      · cases h
      · cases h
        exact ⟨le_rfl, nofun⟩
    next e =>
      split at h
      · cases h
      split at h
      · cases h
      · cases h
        constructor
        · split
          · exact le_rfl
          · exact Nat.le_min.mpr ⟨hn, le_max_left ..⟩
        · rintro _ ⟨⟩ l hl hge hlt
          refine mem_map.mpr ⟨l, (mem_insertionSort _).mpr ?_, rfl⟩
          exact mem_filter.mpr ⟨hl, decide_eq_true ⟨hge, hlt⟩⟩

section Combined

variable {relsegSize : Nat} {fork : ForkNumber} {dbCreated : Bool} {base : Fork β} {s : Server β}
  {l p : Nat}

lemma mod_lt_segmentBlocks {f : Fork β} (hpos : 0 < relsegSize) (h : p < f.nblocks) :
    p % relsegSize < f.segmentBlocks relsegSize (p / relsegSize) := by
  have hp : p % relsegSize + p / relsegSize * relsegSize = p := Nat.mod_add_div' ..
  have hlt : p % relsegSize < relsegSize := Nat.mod_lt _ hpos
  rw [Fork.segmentBlocks]
  omega

lemma Tracked.covered (h : Tracked relsegSize base s) (hg : Grown relsegSize base s)
    (hpos : 0 < relsegSize) (hl : s.fork.mapping l = some p) :
    Covered relsegSize fork dbCreated base s p := by
  have hmod := mod_lt_segmentBlocks hpos (hg.sound.mapped l p hl).2.2.1
  have hp : p % relsegSize + p / relsegSize * relsegSize = p := Nat.mod_add_div' ..
  unfold Covered
  split
  next => trivial
  next blocks trunc hmethod =>
    obtain ⟨hin, -, hblocks⟩ :=
      getFileBackupMethod_incrementally (min_le_left ..) hmethod
    rcases h l p hl with hno | hsame | ⟨rfl, e, he, hmem⟩
    · exact absurd (of_decide_eq_true hin) hno
    · exact .inr hsame
    · have hoff : p - p / relsegSize * relsegSize = p % relsegSize :=
        Nat.sub_eq_of_eq_add hp.symm
      rw [← hoff]
      refine .inl (hblocks e he p hmem (Nat.div_mul_le_self ..) ?_)
      calc p = p / relsegSize * relsegSize + p % relsegSize := (Nat.div_add_mod' ..).symm
        _ < _ := Nat.add_lt_add_left hmod _

end Combined

def twoBlocks : Fork Nat where
  mapping l := if l < 2 then some l else none
  eof := 2
  nextFree := 2
  nblocks := 3
  gone := []
  page p := if p < 2 then .page ⟨0, 0⟩ else .zero

end Umbra.Timeline
