import Mathlib.Order.MinMax
import Umbra.Storage.RangeBirth

/-!
# Redo of range births

The records of a range applied chunk by chunk amount to one application of the whole range. The
per-block path writes zeros, the range only adds blocks that are missing behind the recorded number
of physical blocks; `Ready` says when that leaves a zero page.
-/

namespace Umbra.RangeBirth

open Function List

variable {π : Type} [Zero π] {m : ℕ → Option ℕ} {first : ℕ}

/-! ### Files -/

namespace Files

variable {f : Files π} {p q : ℕ}

lemma exists_writeZero : (f.writeZero q).Exists p
    ↔ f.Exists p ∨ p / relsegSize = q / relsegSize ∧ p ≤ q := by
  simp only [Exists, writeZero]
  by_cases hseg : p / relsegSize = q / relsegSize
  · have hmod : p % relsegSize < q % relsegSize + 1 ↔ p ≤ q := by
      simp only [relsegSize] at *
      omega
    rw [hseg, update_self, lt_max_iff, hmod]
    exact or_congr_right (and_iff_right rfl).symm
  · rw [update_of_ne hseg]
    exact ⟨.inl, fun h => h.resolve_right fun hc => hseg hc.1⟩

lemma content_of_not_exists (h : ¬ f.Exists p) : f.content p = 0 :=
  f.content_of_ge p (not_lt.mp h)

lemma content_writeZero_of_not_exists (h : ¬ f.Exists q) :
    (f.writeZero q).content p = f.content p := by
  by_cases hp : p = q
  · subst hp
    rw [content_of_not_exists h]
    exact update_self ..
  · exact update_of_ne hp ..

lemma Exists.of_le (h : f.Exists q) (hseg : p / relsegSize = q / relsegSize) (hle : p ≤ q) :
    f.Exists p := by
  rw [Exists] at *
  rw [hseg]
  simp only [relsegSize] at *
  omega

lemma content_zeroMissing (blk n) : (f.zeroMissing blk n).content p = f.content p := by
  induction n generalizing f blk with
  | zero => rfl
  | succ n ih =>
    rw [zeroMissing, ih]
    split
    case isTrue => rfl
    case isFalse hne => exact content_writeZero_of_not_exists hne

lemma exists_zeroMissing (blk n) : (f.zeroMissing blk n).Exists p
    ↔ f.Exists p ∨ ∃ q, blk ≤ q ∧ q < blk + n ∧ p ≤ q ∧ p / relsegSize = q / relsegSize := by
  induction n generalizing f blk with
  | zero =>
    refine ⟨.inl, fun h => h.resolve_right ?_⟩
    rintro ⟨q, hlow, hhigh, -⟩
    omega
  | succ n ih =>
    have hstep : (if f.Exists blk then f else f.writeZero blk).Exists p
        ↔ f.Exists p ∨ p / relsegSize = blk / relsegSize ∧ p ≤ blk := by
      split
      case isTrue hblk => exact ⟨.inl, fun h => h.elim id fun hc => hblk.of_le hc.1 hc.2⟩
      case isFalse => exact exists_writeZero
    rw [zeroMissing, ih, hstep, or_assoc]
    refine or_congr_right ⟨?_, ?_⟩
    · rintro (⟨hseg, hle⟩ | ⟨q, hlow, hhigh, hle, hseg⟩)
      · exact ⟨blk, le_rfl, by omega, hle, hseg⟩
      · exact ⟨q, by omega, by omega, hle, hseg⟩
    · rintro ⟨q, hlow, hhigh, hle, hseg⟩
      rcases eq_or_lt_of_le hlow with rfl | hlt
      · exact .inl ⟨hseg, hle⟩
      · exact .inr ⟨q, hlt, by omega, hle, hseg⟩

lemma zeroMissing_add (blk m n) :
    f.zeroMissing blk (m + n) = (f.zeroMissing blk m).zeroMissing (blk + m) n := by
  induction m generalizing f blk with
  | zero => rw [Nat.zero_add]; rfl
  | succ m ih =>
    rw [Nat.add_right_comm m 1 n, zeroMissing, ih, zeroMissing, Nat.add_assoc, Nat.add_comm 1 m]

/-! Zero pages stay zero pages. -/

lemma isZero_writeZero_self (f : Files π) (p : ℕ) : (f.writeZero p).IsZero p :=
  ⟨exists_writeZero.mpr (.inr ⟨rfl, Nat.le_refl p⟩), update_self ..⟩

lemma IsZero.writeZero (h : f.IsZero p) (q) : (f.writeZero q).IsZero p := by
  by_cases hp : p = q
  · subst hp
    exact isZero_writeZero_self f p
  · exact ⟨exists_writeZero.mpr (.inl h.1), (update_of_ne hp ..).trans h.2⟩

lemma IsZero.zeroextend (h : f.IsZero p) (q n) : (f.zeroextend q n).IsZero p := by
  induction n generalizing f q with
  | zero => exact h
  | succ n ih => exact ih (h.writeZero q) (q + 1)

lemma isZero_zeroextend {n} (hle : q ≤ p) (hlt : p < q + n) : (f.zeroextend q n).IsZero p := by
  induction n generalizing f q with
  | zero => omega
  | succ n ih =>
    rcases eq_or_lt_of_le hle with rfl | hlt'
    · exact (isZero_writeZero_self f q).zeroextend (q + 1) n
    · exact ih hlt' (by omega)

lemma IsZero.zeroMissing (h : f.IsZero p) (blk n) : (f.zeroMissing blk n).IsZero p :=
  ⟨(exists_zeroMissing blk n).mpr (.inl h.1), (content_zeroMissing blk n).trans h.2⟩

lemma IsZero.materializeZeroRuns (h : f.IsZero p) (runStart runBlocks ps) :
    (f.materializeZeroRuns runStart runBlocks ps).IsZero p := by
  induction ps generalizing f runStart runBlocks with
  | nil =>
    rw [Files.materializeZeroRuns]
    split
    · exact h
    · exact h.zeroextend runStart runBlocks
  | cons q ps ih =>
    rw [Files.materializeZeroRuns]
    split
    · exact ih h q 1
    · split
      · exact ih h runStart (runBlocks + 1)
      · exact ih (h.zeroextend runStart runBlocks) q 1

lemma isZero_materializeZeroRuns {runStart runBlocks ps}
    (hp : p ∈ ps ∨ runStart ≤ p ∧ p < runStart + runBlocks) :
    (f.materializeZeroRuns runStart runBlocks ps).IsZero p := by
  induction ps generalizing f runStart runBlocks with
  | nil =>
    have hrun := hp.resolve_left not_mem_nil
    rw [materializeZeroRuns, if_neg (by omega)]
    exact isZero_zeroextend hrun.1 hrun.2
  | cons q ps ih =>
    rw [mem_cons, or_assoc] at hp
    rw [materializeZeroRuns]
    split
    case isTrue hempty =>
      refine ih ?_
      rcases hp with rfl | hmem | hrun
      · exact .inr ⟨Nat.le_refl p, Nat.lt_succ_self p⟩
      · exact .inl hmem
      · omega
    case isFalse =>
      split
      case isTrue hnext =>
        refine ih ?_
        rcases hp with rfl | hmem | hrun
        · exact .inr (by omega)
        · exact .inl hmem
        · exact .inr (by omega)
      case isFalse =>
        rcases hp with rfl | hmem | hrun
        · exact ih (.inr ⟨Nat.le_refl p, Nat.lt_succ_self p⟩)
        · exact ih (.inl hmem)
        · exact (isZero_zeroextend hrun.1 hrun.2).materializeZeroRuns q 1 ps

end Files

/-! ### Applying a range -/

def mapRange (m : ℕ → Option ℕ) : ℕ → List ℕ → ℕ → Option ℕ
  | _, [] => m
  | first, p :: ps => mapRange (update m first (some p)) (first + 1) ps

lemma mapRange_append (m first xs ys) :
    mapRange m first (xs ++ ys) = mapRange (mapRange m first xs) (first + xs.length) ys := by
  induction xs generalizing m first with
  | nil => rfl
  | cons p xs ih =>
    rw [cons_append, mapRange, ih, mapRange, length_cons, Nat.add_assoc, Nat.add_comm 1]

lemma mapRange_of_lt {l ps} (h : l < first) : mapRange m first ps l = m l := by
  induction ps generalizing m first with
  | nil => rfl
  | cons p ps ih => rw [mapRange, ih (Nat.lt_succ_of_lt h), update_of_ne (ne_of_lt h)]

lemma mapRange_get {i ps} (h : i < ps.length) : mapRange m first ps (first + i) = some ps[i] := by
  induction ps generalizing m first i with
  | nil => cases h
  | cons p ps ih =>
    rw [mapRange]
    cases i with
    | zero =>
      have hlt : first + 0 < first + 1 := Nat.lt_succ_self first
      rw [mapRange_of_lt hlt]
      exact update_self ..
    | succ i =>
      have hi := @ih (update m first (some p)) (first + 1) i (Nat.lt_of_succ_lt_succ h)
      rwa [Nat.add_assoc, Nat.add_comm 1 i] at hi

lemma maxPblkno_cons (p ps) : maxPblkno (p :: ps) = max p (maxPblkno ps) := by
  have hfold : ∀ (qs : List ℕ) (a : ℕ), qs.foldl max a = max a (qs.foldl max 0) := by
    intro qs
    induction qs with
    | nil => exact fun a => (Nat.max_zero a).symm
    | cons q qs ih =>
      intro a
      rw [foldl_cons, foldl_cons, ih, ih (max 0 q), Nat.zero_max, Nat.max_assoc]
  rw [maxPblkno, foldl_cons, hfold, Nat.zero_max]
  rfl

lemma maxPblkno_append (xs ys) : maxPblkno (xs ++ ys) = max (maxPblkno xs) (maxPblkno ys) := by
  induction xs with
  | nil => exact (Nat.zero_max _).symm
  | cons p xs ih => rw [cons_append, maxPblkno_cons, ih, maxPblkno_cons, Nat.max_assoc]

namespace State

variable (s : State π)

lemma ensurePhysicalNblocks_eq (n) : s.ensurePhysicalNblocks n = { s with
      files := s.files.zeroMissing s.physicalNblocks (n - s.physicalNblocks)
      physicalNblocks := max s.physicalNblocks n } := by
  rw [ensurePhysicalNblocks]
  split
  case isTrue hle => rw [Nat.sub_eq_zero_of_le hle, max_eq_left hle]; rfl
  case isFalse hlt => rw [max_eq_right (Nat.le_of_not_le hlt)]

lemma setMappings_eq (first ps) :
    s.setMappings first ps = { s with map := mapRange s.map first ps } := by
  induction ps generalizing s first with
  | nil => rfl
  | cons p ps ih => rw [setMappings, ih]; rfl

lemma applyReservedRangeRemap_eq (first ps) : s.applyReservedRangeRemap first ps =
      { s with
        map := mapRange s.map first ps
        files := s.files.zeroMissing s.physicalNblocks (maxPblkno ps + 1 - s.physicalNblocks)
        logicalNblocks := max s.logicalNblocks (first + ps.length)
        nextFree := max s.nextFree (maxPblkno ps + 1)
        physicalNblocks := max s.physicalNblocks (maxPblkno ps + 1)
        reservedNextFree := max s.reservedNextFree (maxPblkno ps + 1)
        claims := fun l => if first ≤ l ∧ l < first + ps.length then none else s.claims l } := by
  rw [applyReservedRangeRemap, setMappings_eq, ensurePhysicalNblocks_eq]
  simp only [finishRange, bumpNextFree, bumpPhysicalNblocks, release, bumpLogicalNblocks,
    Nat.max_assoc, Nat.max_self]

lemma applyReservedRangeRemap_append (first xs ys) :
    (s.applyReservedRangeRemap first xs).applyReservedRangeRemap (first + xs.length) ys
      = s.applyReservedRangeRemap first (xs ++ ys) := by
  simp only [applyReservedRangeRemap_eq, mapRange_append, maxPblkno_append, length_append,
    State.mk.injEq, true_and, and_true]
  refine ⟨?_, ?_, ?_, ?_, ?_, ?_⟩
  · generalize maxPblkno xs = m, maxPblkno ys = n, s.physicalNblocks = phys
    have hsplit : max m n + 1 - phys = (m + 1 - phys) + (n + 1 - max phys (m + 1)) := by omega
    have hstart : max phys (m + 1) = phys + (m + 1 - phys) := by omega
    rw [hsplit, Files.zeroMissing_add, ← hstart]
  · omega
  · omega
  · omega
  · omega
  · funext l
    split
    · rw [if_pos (by omega)]
    · refine if_congr ?_ rfl rfl
      omega

end State

variable {fuel : ℕ} {ps : List ℕ}

lemma chunksFrom_bound : ∀ c ∈ chunksFrom fuel first ps, c.2 ≠ [] ∧ c.2.length ≤ uint16Max := by
  induction fuel generalizing first ps with
  | zero =>
    cases ps with
    | nil => exact forall_mem_nil _
    | cons => exact forall_mem_nil _
  | succ fuel ih =>
    cases ps with
    | nil => exact forall_mem_nil _
    | cons =>
      rw [chunksFrom]
      refine forall_mem_cons.mpr ⟨⟨?_, length_take_le ..⟩, ih⟩
      simp [uint16Max]

lemma foldl_chunksFrom (s : State π) (first : ℕ) (hfuel : ps.length ≤ fuel) (hps : ps ≠ []) :
    (chunksFrom fuel first ps).foldl (fun s c => s.applyReservedRangeRemap c.1 c.2) s
      = s.applyReservedRangeRemap first ps := by
  induction fuel generalizing s first ps with
  | zero => exact absurd (length_eq_zero_iff.mp (Nat.le_zero.mp hfuel)) hps
  | succ fuel ih =>
    obtain ⟨p, qs, rfl⟩ := exists_cons_of_ne_nil hps
    rw [chunksFrom, foldl_cons]
    rcases lt_or_ge uint16Max (p :: qs).length with hlong | hshort
    · have hlength : ((p :: qs).take uint16Max).length = uint16Max :=
        length_take_of_le (le_of_lt hlong)
      have hrest : (p :: qs).drop uint16Max ≠ [] :=
        fun h => not_le.mpr hlong (drop_eq_nil_iff.mp h)
      have hdrop : ((p :: qs).drop uint16Max).length ≤ fuel := by
        rw [length_drop]
        simp only [uint16Max]
        omega
      have happend := s.applyReservedRangeRemap_append first ((p :: qs).take uint16Max)
        ((p :: qs).drop uint16Max)
      rw [hlength, take_append_drop] at happend
      rw [ih _ _ hdrop hrest]
      exact happend
    · rw [drop_eq_nil_iff.mpr hshort, take_of_length_le hshort]
      cases fuel with
      | zero => rfl
      | succ => rfl

lemma redo_chunkRecord (s : State π) {chunk} (h : chunk.2 ≠ []) :
    s.redo (chunkRecord chunk) = s.applyReservedRangeRemap chunk.1 chunk.2 := by
  rw [chunkRecord]
  split
  case isTrue hrun =>
    show s.applyReservedRangeRemap chunk.1 ((List.range chunk.2.length).map (chunk.2.headD 0 + ·))
      = _
    rw [← hrun]
  case isFalse =>
    obtain ⟨first, ps⟩ := chunk
    obtain ⟨p, qs, rfl⟩ := exists_cons_of_ne_nil h
    rw [State.redo, map_snd_zip (by simp)]
    rfl

lemma foldl_redo_chunkRecords (s : State π) (first : ℕ) (hfuel : ps.length ≤ fuel) (hps : ps ≠ []) :
    ((chunksFrom fuel first ps).map chunkRecord).foldl State.redo s
      = s.applyReservedRangeRemap first ps := by
  rw [foldl_map, ← foldl_chunksFrom s first hfuel hps]
  refine foldl_ext _ _ _ fun t c hc => ?_
  exact redo_chunkRecord t (chunksFrom_bound c hc).1

/-! ### The per-block path -/

lemma foldl_redo_mapSets (s : State π) (first : ℕ) (hps : ps ≠ []) :
    let t := (mapSets first ps).foldl State.redo s
    t.map = mapRange s.map first ps ∧ t.logicalNblocks = max s.logicalNblocks (first + ps.length)
      ∧ t.nextFree = max s.nextFree (maxPblkno ps + 1)
      ∧ t.physicalNblocks = max s.physicalNblocks (maxPblkno ps + 1) := by
  induction ps generalizing s first with
  | nil => exact absurd rfl hps
  | cons p ps ih =>
    rw [mapSets, foldl_cons, maxPblkno_cons]
    cases ps with
    | nil => exact ⟨rfl, rfl, by simp [State.redo, maxPblkno]; rfl, by simp [maxPblkno]; rfl⟩
    | cons =>
      obtain ⟨hmap, hlogical, hnext, hphys⟩ := ih (s.redo (.mapSet first p)) (first + 1) (by simp)
      refine ⟨hmap, ?_, ?_, ?_⟩
      · rw [hlogical]
        show max (max s.logicalNblocks (first + 1)) _ = _
        simp only [length_cons]
        omega
      · rw [hnext]
        show max (max s.nextFree (p + 1)) _ = _
        omega
      · rw [hphys]
        show max (max s.physicalNblocks (p + 1)) _ = _
        omega

/-! ### Zero pages -/

/-- Redo of the range leaves a zero page at `p`: the page is zeros or missing, and if it is missing
then the blocks from the recorded number on up to the last one of the range reach it in its file. -/
def Ready (d : State π) (ps : List ℕ) (p : ℕ) : Prop :=
  d.files.content p = 0 ∧ (d.files.Exists p ∨
    ∃ q, d.physicalNblocks ≤ q ∧ q ≤ maxPblkno ps ∧ p ≤ q ∧ p / relsegSize = q / relsegSize)

lemma isZero_applyReservedRangeRemap (d : State π) (first : ℕ) (ps : List ℕ) (p : ℕ) :
    (d.applyReservedRangeRemap first ps).files.IsZero p ↔ Ready d ps p := by
  rw [State.applyReservedRangeRemap_eq, Files.IsZero, Files.exists_zeroMissing,
    Files.content_zeroMissing, and_comm, Ready]
  refine and_congr_right fun _ => or_congr_right (exists_congr fun q => ?_)
  omega

end Umbra.RangeBirth
