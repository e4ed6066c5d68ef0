import Mathlib.Data.List.Nodup
import Mathlib.Order.Nat

/-!
# Combining a chain of backups

`reconstruct_from_incremental_file` goes through the chain once, from the newest backup to the
oldest, and takes every block from the first file that has it; the one length that bounds the search
is the truncation length of the newest file.
-/

namespace Umbra.Reconstruction

open Function List Option

variable {β : Type*}

/-- A full file: its whole blocks, and whether a part of a block follows them. -/
structure File (β : Type*) where
  blocks : List β
  hasPartial : Bool
  deriving DecidableEq

/-- An incremental file: its `relative_block_numbers`, each with the block stored for it. -/
structure Incremental (β : Type*) where
  blocks : List (Nat × β)
  truncationBlockLength : Nat
  nodup : (blocks.map Prod.fst).Nodup

inductive Source (β : Type*)
  | full (f : File β)
  | incremental (s : Incremental β)

def Incremental.blockLength (s : Incremental β) : Nat :=
  s.blocks.foldl (fun n b => if n ≤ b.1 then b.1 + 1 else n) s.truncationBlockLength

def Incremental.find (s : Incremental β) (b : Nat) : Option β := s.blocks.lookup b

/-- `write_reconstructed_file`: a block without a source is zero. -/
def writeReconstructedFile (zero : β) (blockLength : Nat) (sourcemap : Nat → Option β) : File β :=
  ⟨(List.range blockLength).map fun b => (sourcemap b).getD zero, false⟩

structure Scan (β : Type*) where
  sourcemap : Nat → Option β
  fullCopyPossible : Bool

open Scan

namespace Scan

def put (m : Scan β) (b : Nat × β) : Scan β := ⟨update m.sourcemap b.1 (some b.2), false⟩

def latest (s : Incremental β) : Scan β := s.blocks.foldl put ⟨fun _ => none, true⟩

def older (length : Nat) (m : Scan β) (blocks : List (Nat × β)) : Scan β :=
  blocks.foldl (fun m b => if b.1 < length ∧ m.sourcemap b.1 = none then m.put b else m) m

def fill (length : Nat) (m : Scan β) (old : Nat → Option β) (b : Nat) : Option β :=
  (m.sourcemap b).or (if b < length then old b else none)

def finish (zero : β) (latest : Incremental β) (m : Scan β) (f : File β) : File β :=
  if m.fullCopyPossible ∧ f.blocks.length = latest.truncationBlockLength ∧ ¬ f.hasPartial then f
  else writeReconstructedFile zero latest.blockLength
    (m.fill latest.truncationBlockLength (f.blocks[·]?))

/-- The walk from the newest prior backup to the oldest; without a full file it fails. -/
def run (zero : β) (latest : Incremental β) : Scan β → List (Source β) → Option (File β)
  | _, [] => none
  | m, .full f :: _ => some (m.finish zero latest f)
  | m, .incremental s :: prior =>
    run zero latest (m.older latest.truncationBlockLength s.blocks) prior

end Scan

/-- `reconstruct_from_incremental_file`; the prior backups are listed from the newest. -/
def reconstruct (zero : β) (latest : Incremental β) (prior : List (Source β)) : Option (File β) :=
  run zero latest (.latest latest) prior

/-- Each incremental file against the full file that the older ones, behind it in the list, have
given. -/
def combine (zero : β) (f : File β) : List (Incremental β) → Option (File β)
  | [] => some f
  | s :: older => (combine zero f older).bind fun g => reconstruct zero s [.full g]

/-! ### What the walk finds -/

def newest (f : File β) : List (Incremental β) → Nat → Option β
  | [], b => f.blocks[b]?
  | s :: older, b => (s.find b).or (newest f older b)

def output (zero : β) (s : Incremental β) (old : Nat → Option β) : File β :=
  writeReconstructedFile zero s.blockLength ((latest s).fill s.truncationBlockLength old)

variable {zero : β} {f : File β} {s : Incremental β} {m : Scan β} {b : Nat}
variable {l : List (Nat × β)} {prior rest newer : List (Incremental β)} {old : Nat → Option β}

lemma sourcemap_foldl_put (h : (l.map Prod.fst).Nodup) :
    (l.foldl put m).sourcemap b = (l.lookup b).or (m.sourcemap b) := by
  induction l generalizing m with
  | nil => rfl
  | cons p l ih =>
    obtain ⟨hp, hl⟩ := nodup_cons.mp h
    rw [foldl_cons, ih hl, lookup_cons]
    by_cases hb : b = p.1
    · subst hb
      have hnone : l.lookup p.1 = none := by
        refine lookup_eq_none_iff.mpr fun q hq => bne_iff_ne.mpr fun heq => hp ?_
        rw [heq]
        exact mem_map_of_mem hq
      simp [hnone, put]
    · simp [put, update_of_ne hb, beq_false_of_ne hb]

lemma sourcemap_older (length) : (m.older length l).sourcemap b =
    (m.sourcemap b).or (if b < length then l.lookup b else none) := by
  induction l generalizing m with
  | nil => simp [older]
  | cons p l ih =>
    rw [older, foldl_cons, ← older, ih, lookup_cons]
    by_cases hb : b = p.1
    · subst hb
      cases hm : m.sourcemap p.1 with
      | some => simp [hm]
      | none => by_cases hlt : p.1 < length <;> simp [hm, hlt, put]
    · split_ifs <;> simp [put, update_of_ne hb, beq_false_of_ne hb]

lemma older_eq_or (length) :
    m.older length l = m ∨ (m.older length l).fullCopyPossible = false := by
  induction l generalizing m with
  | nil => exact .inl rfl
  | cons p l ih =>
    rw [older, foldl_cons, ← older]
    split_ifs with hp
    · refine .inr ?_
      rcases ih (m := m.put p) with h | h
      · rw [h]
        rfl
      · exact h
    · exact ih

def Pristine (s : Incremental β) (m : Scan β) : Prop :=
  m.fullCopyPossible = true → s.blocks = [] ∧ m.sourcemap = fun _ => none

lemma pristine_latest : Pristine s (.latest s) := by
  intro h
  rcases eq_nil_or_concat s.blocks with hnil | ⟨l, p, hl⟩
  · exact ⟨hnil, by rw [latest, hnil]; rfl⟩
  · rw [latest, hl, concat_eq_append, foldl_append] at h
    cases h

lemma Pristine.older (h : Pristine s m) (length) : Pristine s (m.older length l) := by
  rcases older_eq_or length (m := m) (l := l) with heq | hfalse
  · rwa [heq]
  · intro htrue
    rw [hfalse] at htrue
    cases htrue

lemma finish_eq (h : Pristine s m) : m.finish zero s f =
    writeReconstructedFile zero s.blockLength (m.fill s.truncationBlockLength (f.blocks[·]?)) := by
  rw [finish]
  split_ifs with hcopy
  · obtain ⟨hpossible, hlength, hpartial⟩ := hcopy
    obtain ⟨hnil, hmap⟩ := h hpossible
    obtain ⟨blocks, part⟩ := f
    have hlen : s.blockLength = blocks.length := by
      rw [Incremental.blockLength, hnil, hlength]
      rfl
    rw [Bool.not_eq_true] at hpartial
    subst hpartial
    refine congrArg (File.mk · false) (ext_getElem (by simp [hlen]) fun i hi _ => ?_)
    simp [fill, hmap, ← hlength, hi]
  · rfl

lemma run_eq (h : Pristine s m) : run zero s m (prior.map .incremental ++ [.full f]) =
    some (writeReconstructedFile zero s.blockLength
      (m.fill s.truncationBlockLength (newest f prior))) := by
  induction prior generalizing m with
  | nil => exact congrArg some (finish_eq h)
  | cons i prior ih =>
    refine (ih (h.older _)).trans (congrArg (some <| writeReconstructedFile _ _ ·) ?_)
    funext b
    simp only [fill, sourcemap_older, newest, Incremental.find]
    split_ifs <;> simp [Option.or_assoc]

lemma reconstruct_eq (prior) :
    reconstruct zero s (prior.map .incremental ++ [.full f]) =
      some (output zero s (newest f prior)) :=
  run_eq pristine_latest

lemma fill_latest : (latest s).fill s.truncationBlockLength old b =
    (s.find b).or (if b < s.truncationBlockLength then old b else none) := by
  rw [fill, latest, sourcemap_foldl_put s.nodup, or_none, Incremental.find]

/-! ### The chain combined step by step -/

def combined (zero : β) (f : File β) : List (Incremental β) → File β
  | [] => f
  | s :: older => output zero s fun b => (combined zero f older).blocks[b]?

lemma combine_eq : combine zero f prior = some (combined zero f prior) := by
  induction prior with
  | nil => rfl
  | cons s older ih =>
    rw [combine, ih, bind_some]
    exact reconstruct_eq []

lemma lt_foldl_of_mem {n} : n ≤ l.foldl (fun n b => if n ≤ b.1 then b.1 + 1 else n) n ∧
      ∀ p ∈ l, p.1 < l.foldl (fun n b => if n ≤ b.1 then b.1 + 1 else n) n := by
  induction l generalizing n with
  | nil => simp
  | cons p l ih =>
    obtain ⟨hle, hlt⟩ := ih (n := if n ≤ p.1 then p.1 + 1 else n)
    refine ⟨?_, forall_mem_cons.mpr ⟨?_, hlt⟩⟩ <;> simp only [foldl_cons] <;>
      split_ifs at * <;> omega

lemma getD_output : ((output zero s old).blocks[b]?).getD zero =
      ((s.find b).or (if b < s.truncationBlockLength then old b else none)).getD zero := by
  rw [← fill_latest]
  by_cases hb : b < s.blockLength
  · simp [output, writeReconstructedFile, hb]
  · have hfind : s.find b = none := lookup_eq_none_iff.mpr fun p hp =>
      bne_iff_ne.mpr fun heq => hb (heq ▸ lt_foldl_of_mem.2 p hp)
    have hlt : ¬ b < s.truncationBlockLength := fun h => hb (h.trans_le lt_foldl_of_mem.1)
    simp [output, writeReconstructedFile, fill_latest, hb, hfind, hlt]

/-- A block that a file in the middle of the chain cuts off, that neither it nor a newer file
lists, and that the newest length takes in again, is zero in the files before, or in none. -/
def NoneResurfaces (zero : β) (f : File β) (s : Incremental β) (prior : List (Incremental β)) :
    Prop :=
  ∀ newer cut older, prior = newer ++ cut :: older → ∀ b, cut.truncationBlockLength ≤ b →
    b < s.truncationBlockLength → s.find b = none → (∀ i ∈ newer, i.find b = none) →
    cut.find b = none → (newest f older b).getD zero = zero

lemma newest_append (h : ∀ i ∈ newer, i.find b = none) :
    newest f (newer ++ rest) b = newest f rest b := by
  induction newer with
  | nil => rfl
  | cons i newer ih =>
    obtain ⟨hi, hnewer⟩ := forall_mem_cons.mp h
    rw [cons_append, newest, hi, none_or, ih hnewer]

lemma combined_append (h : ∀ i ∈ newer, i.find b = none)
    (hzero : ((combined zero f rest).blocks[b]?).getD zero = zero) :
    ((combined zero f (newer ++ rest)).blocks[b]?).getD zero = zero := by
  induction newer with
  | nil => exact hzero
  | cons i newer ih =>
    obtain ⟨hi, hnewer⟩ := forall_mem_cons.mp h
    rw [cons_append, combined, getD_output, hi, none_or]
    split_ifs
    · exact ih hnewer
    · rfl

lemma newest_eq_combined
    (h : ∀ newer cut older, prior = newer ++ cut :: older → cut.truncationBlockLength ≤ b →
      (∀ i ∈ newer, i.find b = none) → cut.find b = none → (newest f older b).getD zero = zero) :
    (newest f prior b).getD zero = ((combined zero f prior).blocks[b]?).getD zero := by
  induction prior with
  | nil => rfl
  | cons s prior ih =>
    rw [combined, getD_output, newest]
    cases hs : s.find b with
    | some => rfl
    | none =>
      rw [none_or, none_or]
      split_ifs with hlt
      · exact ih fun newer cut older hprior hcut hnewer =>
          h (s :: newer) cut older (by rw [hprior]; rfl) hcut
            (forall_mem_cons.mpr ⟨hs, hnewer⟩)
      · exact h [] s prior rfl (not_lt.mp hlt) (forall_mem_nil _) hs

lemma output_inj {old'} :
    output zero s old = output zero s old' ↔ ∀ b < s.truncationBlockLength, s.find b = none →
      (old b).getD zero = (old' b).getD zero := by
  simp only [output, writeReconstructedFile, File.mk.injEq, and_true, map_inj_left,
    mem_range, fill_latest]
  refine forall_congr' fun b => ⟨fun h hb hs => ?_, fun h _ => ?_⟩
  · simpa [hs, hb] using h (hb.trans_le lt_foldl_of_mem.1)
  · cases hs : s.find b with
    | some => rfl
    | none =>
      rw [none_or, none_or]
      split_ifs with hb
      · exact h hb hs
      · rfl

/-- One walk over the chain gives the file that the chain gives step by step exactly if no block
resurfaces. -/
theorem reconstruct_eq_combine_iff (zero : β) (f : File β) (s : Incremental β)
    (prior : List (Incremental β)) :
    reconstruct zero s (prior.map .incremental ++ [.full f]) = combine zero f (s :: prior) ↔
      NoneResurfaces zero f s prior := by
  rw [reconstruct_eq, combine_eq, some_inj, combined, output_inj]
  constructor
  · rintro h newer cut older rfl b hcut hb hs hnewer hfind
    have hzero : ((combined zero f (cut :: older)).blocks[b]?).getD zero = zero := by
      rw [combined, getD_output, hfind, if_neg hcut.not_gt]
      rfl
    have heq := h b hb hs
    rwa [combined_append hnewer hzero, newest_append hnewer, newest, hfind, none_or] at heq
  · intro h b hb hs
    exact newest_eq_combined fun newer cut older hprior hcut =>
      h newer cut older hprior b hcut hb hs

/-- The relation is truncated to one block and extended again by a block nothing was logged for. -/
theorem reconstruct_resurfaces :
    reconstruct 0 ⟨[], 2, .nil⟩ [.incremental ⟨[], 1, .nil⟩, .full ⟨[7, 8], false⟩] =
        some ⟨[7, 8], false⟩ ∧
      combine 0 ⟨[7, 8], false⟩ [⟨[], 2, .nil⟩, ⟨[], 1, .nil⟩] = some ⟨[7, 0], false⟩ := by
  decide

end Umbra.Reconstruction
