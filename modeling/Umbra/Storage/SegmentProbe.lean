import Mathlib.Logic.Function.Basic
import Umbra.Foundation.System

/-!
# Probing for a block of a sparse fork

A backend keeps the segment files it has opened in a vector indexed by segment number, which may
have closed holes. `umfile_ctx_block_exists` asks that vector, and then the disk, for a block. Files
are named by numbers, as by inodes.
-/

namespace Umbra.SegmentProbe

open Foundation Function

structure State where
  path : Nat → Option Nat
  nblocks : Nat → Nat
  nextFile : Nat
  segFds : List (Option Nat)

namespace State

def init : State := ⟨fun _ => none, fun _ => 0, 0, []⟩

/-- `umfile_fdvec_resize` to at least `nseg` entries, the new ones reset. -/
def resize (segs : List (Option Nat)) (nseg : Nat) : List (Option Nat) :=
  segs ++ List.replicate (nseg - segs.length) none

/-- `umfile_openseg` without `O_CREAT`: the descriptor and the context with the segment open. -/
def openseg (s : State) (segno : Nat) : Option (Nat × State) :=
  (s.path segno).map fun fd =>
    (fd, { s with segFds := (resize s.segFds (segno + 1)).set segno (some fd) })

def create (s : State) (segno : Nat) : State :=
  if s.path segno = none then
    { s with
      path := update s.path segno (some s.nextFile)
      nblocks := update s.nblocks s.nextFile 0
      nextFile := s.nextFile + 1 }
  else s

/-- The descriptor in the entry of `segno`, if there is an entry and it is open. -/
def entry (s : State) (segno : Nat) : Option Nat := (s.segFds[segno]?).join

/-- `umfile_getseg` for a sparse fork; `create` is `O_CREAT`. -/
def getseg (s : State) (segno : Nat) (create : Bool) : Option (Nat × State) :=
  match s.entry segno with
  | some fd => some (fd, s)
  | none => (if create then s.create segno else s).openseg segno

def blockExists (relsegSize : Nat) (s : State) (blkno : Nat) : Bool × State :=
  let segno := blkno / relsegSize
  if segno < s.segFds.length then
    match s.entry segno with
    | none => (false, s)
    | some fd => (blkno % relsegSize < s.nblocks fd, s)
  else
    match s.openseg segno with
    | none => (false, s)
    | some (fd, t) => (blkno % relsegSize < t.nblocks fd, t)

def Present (relsegSize : Nat) (s : State) (blkno : Nat) : Prop :=
  ∃ fd, s.path (blkno / relsegSize) = some fd ∧ blkno % relsegSize < s.nblocks fd

end State

inductive Event where
  | getseg (segno : Nat) (create : Bool)
  | probe (blkno : Nat)
  /-- `umfile_ctx_close_fork`, and whatever else drops the entries from `nseg` on. -/
  | close (nseg : Nat)
  /-- The stale entry that `umfile_fork_has_open_segment_on_disk` resets. -/
  | reset (segno : Nat)
  /-- Another process creates a segment, unlinks one, or changes the length of a file. -/
  | create (segno : Nat)
  | unlink (segno : Nat)
  | setLength (fd nblocks : Nat)

def history (relsegSize : Nat) : System State Event where
  step s
    | .getseg segno create => (s.getseg segno create).map Prod.snd
    | .probe blkno => some (s.blockExists relsegSize blkno).2
    | .close nseg => some { s with segFds := s.segFds.take nseg }
    | .reset segno =>
      if s.path segno = none then some { s with segFds := s.segFds.set segno none } else none
    | .create segno => some (s.create segno)
    | .unlink segno => some { s with path := update s.path segno none }
    | .setLength fd nblocks => some { s with nblocks := update s.nblocks fd nblocks }

/-- The segment is no closed hole while the block is on disk, and a stale descriptor makes no
difference. -/
structure Visible (relsegSize : Nat) (s : State) (blkno : Nat) : Prop where
  hole : blkno / relsegSize < s.segFds.length → s.entry (blkno / relsegSize) = none →
    ¬ s.Present relsegSize blkno
  stale : ∀ fd, s.entry (blkno / relsegSize) = some fd → s.path (blkno / relsegSize) ≠ some fd →
    (blkno % relsegSize < s.nblocks fd ↔ s.Present relsegSize blkno)

variable {relsegSize blkno : Nat} {s : State}

lemma entry_eq_none_of_le {segno} (h : s.segFds.length ≤ segno) : s.entry segno = none := by
  rw [State.entry, List.getElem?_eq_none h]
  rfl

lemma present_of_path {fd} (h : s.path (blkno / relsegSize) = some fd) :
    s.Present relsegSize blkno ↔ blkno % relsegSize < s.nblocks fd := by
  simp [State.Present, h]

lemma blockExists_of_le (h : s.segFds.length ≤ blkno / relsegSize) :
    (s.blockExists relsegSize blkno).1 = true ↔ s.Present relsegSize blkno := by
  rw [State.blockExists, if_neg (Nat.not_lt.mpr h), State.openseg]
  cases hpath : s.path (blkno / relsegSize) with
  | none => simp [State.Present, hpath]
  | some => simp [present_of_path hpath]

/-- The probe is exact on the blocks it can see, and on no others. -/
theorem blockExists_exact_iff (relsegSize : Nat) (s : State) (blkno : Nat) :
    ((s.blockExists relsegSize blkno).1 = true ↔ s.Present relsegSize blkno) ↔
      Visible relsegSize s blkno := by
  rcases Nat.lt_or_ge (blkno / relsegSize) s.segFds.length with hlt | hge
  · rw [State.blockExists, if_pos hlt]
    cases hentry : s.entry (blkno / relsegSize) with
    | none =>
      constructor
      · intro h
        exact ⟨fun _ _ hpresent => Bool.false_ne_true (h.mpr hpresent),
          fun fd hfd => by simp [hentry] at hfd⟩
      · intro h
        exact iff_of_false Bool.false_ne_true (h.hole hlt hentry)
    | some fd =>
      simp only [decide_eq_true_eq]
      constructor
      · intro h
        refine ⟨fun _ hnone => by simp [hentry] at hnone, fun fd' hfd' _ => ?_⟩
        cases hentry.symm.trans hfd'
        exact h
      · intro h
        by_cases hpath : s.path (blkno / relsegSize) = some fd
        · exact (present_of_path hpath).symm
        · exact h.stale fd hentry hpath
  · refine iff_of_true (blockExists_of_le hge)
      ⟨fun h => absurd h (Nat.not_lt.mpr hge), fun fd hfd => ?_⟩
    rw [entry_eq_none_of_le hge] at hfd
    cases hfd

/-- Two segments exist and the backend has opened the higher one only: the probe denies the block
of the lower one. -/
theorem blockExists_misses_hole : ∃ s, (history 4).Reachable State.init s ∧
    s.Present 4 0 ∧ (s.blockExists 4 0).1 = false :=
  ⟨(history 4).after State.init
      [.create 0, .create 1, .setLength 0 4, .setLength 1 1, .getseg 1 false],
    .of_isSome rfl, ⟨0, rfl, by decide⟩, rfl⟩

end Umbra.SegmentProbe
