import Umbra.Basic

/-!
# Redo of one block

What `XLogReadBufferForRedoExtended` and the resource manager do with a record of one block. A remap
without image takes the page from the old physical block, writes it back there and switches the
mapping; whether it gets to the new block is left to the dirty flag.
-/

namespace Umbra.Block

open Function

variable {β : Type}

structure Page (β : Type) where
  lsn : Nat
  body : β
  deriving DecidableEq

inductive Content (β : Type)
  | zero
  | page (p : Page β)
  deriving DecidableEq

structure Buffer (β : Type) where
  content : Content β
  dirty : Bool
  deriving DecidableEq

/-- What redo reads and writes of the block. -/
structure Store (β : Type) where
  mapping : Nat
  nextFree : Nat
  /-- `none` behind the end of the file. -/
  disk : Nat → Option (Content β)
  buffer : Option (Buffer β)

namespace Store

variable (s : Store β)

def fetch : Option (Store β) :=
  match s.buffer with
  | some _ => some s
  | none => (s.disk s.mapping).map fun c => { s with buffer := some ⟨c, false⟩ }

/-- `FlushOneBuffer`: a dirty buffer goes to the block of the mapping. -/
def flush : Store β :=
  match s.buffer with
  | some ⟨c, true⟩ =>
    { s with disk := update s.disk s.mapping (some c), buffer := some ⟨c, false⟩ }
  | _ => s

def evict : Store β := { s.flush with buffer := none }

/-- `MarkBufferDirty`. -/
def markDirty : Store β := { s with buffer := s.buffer.map fun b => { b with dirty := true } }

def read : Option (Content β) :=
  match s.buffer with
  | some b => some b.content
  | none => s.disk s.mapping

end Store

inductive RedoAction
  | needsRedo
  | done
  | notFound
  deriving DecidableEq, Repr

def redoAction (lsn : Nat) (p : Page β) : RedoAction := if lsn ≤ p.lsn then .done else .needsRedo

/-- The remap header of a record: `old_pblkno`, `new_pblkno` and `next_free_pblkno`. The new block
is freshly reserved. -/
structure Remap where
  oldPblkno : Nat
  newPblkno : Nat
  nextFreePblkno : Option Nat
  ne : oldPblkno ≠ newPblkno

/-- `XLogReadBufferForRedoExtended` of a plain record; `none` is an error. -/
def readForRedo (s : Store β) (lsn : Nat) : Option (Store β × RedoAction) :=
  s.fetch.map fun t =>
    match t.buffer with
    | some ⟨.page p, _⟩ => (t, redoAction lsn p)
    | _ => (t, .notFound)

/-- `XLogReadBufferForRedoExtended` of a remap without image. -/
def readRemapForRedo (s : Store β) (lsn : Nat) (r : Remap) : Option (Store β × RedoAction) :=
  ({ s with mapping := r.oldPblkno } : Store β).fetch.map fun t =>
    match t.buffer with
    | some ⟨.page p, _⟩ =>
      ({ t.markDirty.flush with
          mapping := r.newPblkno
          nextFree := (r.nextFreePblkno.map (max t.nextFree)).getD t.nextFree },
        redoAction lsn p)
    -- the mapping stays with the old block
    | _ => (t, .notFound)

def applyRedo (lsn : Nat) (delta : β → β) (s : Store β) : RedoAction → Store β
  | .needsRedo =>
    match s.buffer with
    | some ⟨.page p, _⟩ => { s with buffer := some ⟨.page ⟨lsn, delta p.body⟩, true⟩ }
    | _ => s
  | .done | .notFound => s

def redoPlain (s : Store β) (lsn : Nat) (delta : β → β) : Option (Store β) :=
  (readForRedo s lsn).map fun r => applyRedo lsn delta r.1 r.2

def redoRemap (s : Store β) (lsn : Nat) (r : Remap) (delta : β → β) : Option (Store β) :=
  (readRemapForRedo s lsn r).map fun x => applyRedo lsn delta x.1 x.2

namespace Store

variable {s : Store β} {p : Page β}

def baseline (s : Store β) (r : Remap) : Option (Content β) :=
  ({ s with mapping := r.oldPblkno } : Store β).read

variable {c : Content β}

lemma fetch_of_read (h : s.read = some c) :
    ∃ d, s.fetch = some { s with buffer := some ⟨c, d⟩ } := by
  obtain ⟨mapping, nextFree, disk, _ | b⟩ := s
  · refine ⟨false, ?_⟩
    exact congrArg (Option.map _) h
  · cases h
    exact ⟨b.dirty, rfl⟩

lemma fetch_eq_none (h : s.read = none) : s.fetch = none := by
  obtain ⟨mapping, nextFree, disk, _ | b⟩ := s
  · exact congrArg (Option.map _) h
  · cases h

lemma flush_of_dirty (h : s.buffer = some ⟨c, true⟩) : s.flush = { s with
      disk := update s.disk s.mapping (some c)
      buffer := some ⟨c, false⟩ } := by
  simp only [flush, h]

lemma flush_of_clean (h : ∀ c, s.buffer ≠ some ⟨c, true⟩) : s.flush = s := by
  unfold flush
  split
  next c hc => exact absurd hc (h c)
  next => rfl

lemma read_evict_of_dirty (h : s.buffer = some ⟨c, true⟩) : s.evict.read = some c := by
  rw [evict, flush_of_dirty h]
  exact update_self ..

lemma read_evict_of_clean (h : s.buffer = some ⟨c, false⟩) : s.evict.read = s.disk s.mapping := by
  rw [evict, flush_of_clean (by rw [h]; nofun)]
  rfl

end Store

section Remap

variable {s : Store β} {lsn : Nat} {r : Remap} {p : Page β}

lemma redoRemap_of_lt (hbase : s.baseline r = some (.page p)) (hlt : p.lsn < lsn) (delta) :
    ∃ t, redoRemap s lsn r delta = some t ∧ t.mapping = r.newPblkno ∧
      t.buffer = some ⟨.page ⟨lsn, delta p.body⟩, true⟩ := by
  obtain ⟨d, hfetch⟩ := Store.fetch_of_read hbase
  refine ⟨_, by rw [redoRemap, readRemapForRedo, hfetch]; rfl, ?_⟩
  simp only [redoAction, if_neg (Nat.not_le.mpr hlt)]
  exact ⟨rfl, rfl⟩

lemma redoRemap_of_le (hbase : s.baseline r = some (.page p)) (hle : lsn ≤ p.lsn) (delta) :
    ∃ t, redoRemap s lsn r delta = some t ∧ t.mapping = r.newPblkno ∧
      t.buffer = some ⟨.page p, false⟩ ∧ t.disk r.newPblkno = s.disk r.newPblkno := by
  obtain ⟨d, hfetch⟩ := Store.fetch_of_read hbase
  refine ⟨_, by rw [redoRemap, readRemapForRedo, hfetch]; rfl, ?_⟩
  simp only [redoAction, if_pos hle]
  exact ⟨rfl, rfl, update_of_ne r.ne.symm ..⟩

lemma redoRemap_of_zero (hbase : s.baseline r = some .zero) (lsn delta) :
    ∃ t, redoRemap s lsn r delta = some t ∧ ∃ d, t.buffer = some ⟨.zero, d⟩ := by
  obtain ⟨d, hfetch⟩ := Store.fetch_of_read hbase
  exact ⟨_, by rw [redoRemap, readRemapForRedo, hfetch]; rfl, d, rfl⟩

lemma redoRemap_eq_none (hbase : s.baseline r = none) (lsn delta) :
    redoRemap s lsn r delta = none := by
  rw [redoRemap, readRemapForRedo, Store.fetch_eq_none hbase]
  rfl

end Remap

def Covers (lsn : Nat) (c : Option (Content β)) : Prop := ∃ p, c = some (.page p) ∧ lsn ≤ p.lsn

/-- The logical block has the effect of the record, in its buffer or after an eviction. -/
def Published (s : Store β) (lsn : Nat) (r : Remap) (delta : β → β) : Prop :=
  ∃ t, redoRemap s lsn r delta = some t ∧ Covers lsn t.read ∧ Covers lsn t.evict.read

/-- Redo of a remap without image publishes its effect exactly if it finds a page older than the
record, or one as new while the new block has such a page already. -/
theorem redo_publishes_iff (s : Store β) (lsn : Nat) (r : Remap) (delta : β → β) :
    Published s lsn r delta ↔ ∃ p, s.baseline r = some (.page p) ∧
      (p.lsn < lsn ∨ Covers lsn (s.disk r.newPblkno)) := by
  cases hbase : s.baseline r with
  | none =>
    refine ⟨fun ⟨t, ht, _⟩ => ?_, fun ⟨p, hp, _⟩ => by cases hp⟩
    rw [redoRemap_eq_none hbase lsn delta] at ht
    cases ht
  | some c =>
    cases c with
    | zero =>
      obtain ⟨t, ht, d, hbuffer⟩ := redoRemap_of_zero hbase lsn delta
      have hread : t.read = some .zero := by rw [Store.read, hbuffer]
      refine ⟨fun ⟨t', ht', hcovers, _⟩ => ?_, fun ⟨p, hp, _⟩ => by cases hp⟩
      cases ht.symm.trans ht'
      obtain ⟨p, hp, -⟩ := hcovers
      cases hread.symm.trans hp
    | page p =>
      rcases Nat.lt_or_ge p.lsn lsn with hlt | hle
      · obtain ⟨t, ht, -, hbuffer⟩ := redoRemap_of_lt hbase hlt delta
        have hcovers : Covers lsn (some (.page ⟨lsn, delta p.body⟩)) := ⟨_, rfl, Nat.le_refl _⟩
        refine ⟨fun _ => ⟨p, rfl, .inl hlt⟩, fun _ => ⟨t, ht, ?_, ?_⟩⟩
        · rw [Store.read, hbuffer]
          exact hcovers
        · rw [Store.read_evict_of_dirty hbuffer]
          exact hcovers
      · obtain ⟨t, ht, hmapping, hbuffer, hdisk⟩ := redoRemap_of_le hbase hle delta
        have hevict : t.evict.read = s.disk r.newPblkno := by
          rw [Store.read_evict_of_clean hbuffer, hmapping, hdisk]
        refine ⟨fun ⟨t', ht', _, hcovers⟩ => ⟨p, rfl, .inr ?_⟩, fun ⟨p', hp', hor⟩ => ?_⟩
        · cases ht.symm.trans ht'
          exact hevict ▸ hcovers
        · cases hp'
          refine ⟨t, ht, ?_, ?_⟩
          · rw [Store.read, hbuffer]
            exact ⟨p, rfl, hle⟩
          · rw [hevict]
            exact hor.resolve_left (Nat.not_lt.mpr hle)

/-- The checkpoint has written the page with the effect of record 5 to the old block 0; block 1,
its new place, is still zero. -/
def checkpointedOld : Store Nat where
  mapping := 1
  nextFree := 2
  disk pblk := if pblk = 0 then some (.page ⟨5, 7⟩) else some .zero
  buffer := none

/-- Redo finds nothing to do, and after an eviction the block is read as zeros. -/
theorem remapped_page_lost :
    let r : Remap := { oldPblkno := 0, newPblkno := 1, nextFreePblkno := some 2, ne := by decide }
    ∃ t, redoRemap checkpointedOld 5 r (· + 1) = some t ∧ t.mapping = 1 ∧
      t.read = some (.page ⟨5, 7⟩) ∧ t.evict.read = some .zero :=
  ⟨_, rfl, rfl, rfl, rfl⟩

end Umbra.Block
