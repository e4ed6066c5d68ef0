import Umbra.Basic
import Mathlib.Data.Finset.Insert
import Mathlib.Data.Finset.Filter

/-!
# Entries of the block reference table

`BlockRefTableEntry` keeps the modified blocks of a relation fork in chunks of 65536 blocks. A
chunk is an array of offsets until it has 4095 of them and a bitmap from then on; a lower limit
block empties the chunks behind it, which makes a bitmap an array again.
-/

namespace Umbra.BlockRefEntry

open Function List

abbrev blocksPerChunk : Nat := 65536

/-- `MAX_ENTRIES_PER_CHUNK`, the number of 16-bit words that a bitmap takes. -/
abbrev maxEntriesPerChunk : Nat := 4096

abbrev Words := Nat → BitVec 16

def Words.bit (words : Words) (offset : Nat) : Bool :=
  (words (offset / 16)).getLsbD (offset % 16)

def Words.set (words : Words) (offset : Nat) : Words :=
  update words (offset / 16) (words (offset / 16) ||| .twoPow 16 (offset % 16))

def Words.unset (words : Words) (offset : Nat) : Words :=
  update words (offset / 16) (words (offset / 16) &&& ~~~.twoPow 16 (offset % 16))

/-- A chunk; `chunk_usage` is the number of offsets, or `maxEntriesPerChunk` for a bitmap. -/
inductive Chunk
  | array (size : Nat) (offsets : List Nat)
  | bitmap (words : Words)

/-- The part of `BlockRefTableEntryMarkBlockModified` that comes after the chunk is found. -/
def Chunk.mark (offset : Nat) : Chunk → Chunk
  | .array size offsets =>
    if size = 0 then .array 16 [offset]
    else if offset ∈ offsets then .array size offsets
    else if offsets.length = maxEntriesPerChunk - 1 then
      .bitmap ((offsets.foldl Words.set fun _ => 0#16).set offset)
    else .array (if offsets.length = size then size * 2 else size) (offsets ++ [offset])
  | .bitmap words => .bitmap (words.set offset)

def Chunk.empty : Chunk → Chunk
  | .array size _ => .array size []
  | .bitmap _ => .array maxEntriesPerChunk []

def Chunk.cut (limit : Nat) : Chunk → Chunk
  | .array size offsets => .array size (offsets.filter (· < limit))
  | .bitmap words =>
    .bitmap ((List.range' limit (blocksPerChunk - limit)).foldl Words.unset words)

structure Entry where
  limitBlock : Nat
  chunks : List Chunk

def create : Entry := ⟨invalidBlockNumber, []⟩

/-- `while (max_chunks < chunkno + 1) max_chunks *= 2`. -/
def enlarge (needed maxChunks : Nat) : Nat :=
  if 0 < maxChunks ∧ maxChunks < needed then enlarge needed (maxChunks * 2) else maxChunks
termination_by needed - maxChunks

def Entry.room (e : Entry) (chunkno : Nat) : List Chunk :=
  if chunkno < e.chunks.length then e.chunks
  else
    e.chunks ++ List.replicate
      (enlarge (chunkno + 1) (max 16 e.chunks.length) - e.chunks.length) (.array 0 [])

def Entry.markBlockModified (e : Entry) (blknum : Nat) : Entry :=
  { e with
    chunks := (e.room (blknum / blocksPerChunk)).modify (blknum / blocksPerChunk)
      (.mark (blknum % blocksPerChunk)) }

def Entry.setLimitBlock (e : Entry) (limit : Nat) : Entry :=
  if e.limitBlock ≤ limit then e
  else
    ⟨limit, e.chunks.mapIdx fun chunkno c =>
      if limit / blocksPerChunk < chunkno then c.empty
      else if chunkno = limit / blocksPerChunk then c.cut (limit % blocksPerChunk)
      else c⟩

def Chunk.scan (base start stop : Nat) : Chunk → List Nat
  | .array _ offsets => (offsets.filter fun i => start ≤ i ∧ i < stop).map (base + ·)
  | .bitmap words => ((List.range' start (stop - start)).filter words.bit).map (base + ·)

def Chunk.ReadsInside (start stop : Nat) : Chunk → Prop
  | .array size offsets => offsets.length ≤ size
  | .bitmap _ => ∀ i ∈ List.range' start (stop - start), i / 16 < maxEntriesPerChunk

instance (start stop : Nat) : (c : Chunk) → Decidable (c.ReadsInside start stop)
  | .array .. => inferInstanceAs (Decidable (_ ≤ _))
  | .bitmap _ => inferInstanceAs (Decidable (∀ i ∈ List.range' .., _))

def Entry.chunk (e : Entry) (chunkno : Nat) : Chunk := e.chunks.getD chunkno (.array 0 [])

section
variable (e : Entry) (start stop chunkno : Nat)

def Entry.stopChunk : Nat :=
  min (stop / blocksPerChunk + if stop % blocksPerChunk ≠ 0 then 1 else 0) e.chunks.length

def startOffset : Nat :=
  if chunkno = start / blocksPerChunk then start % blocksPerChunk else 0

def Entry.stopOffset : Nat :=
  if chunkno = e.stopChunk stop - 1 then stop - chunkno * blocksPerChunk else blocksPerChunk

def Entry.turns : List Nat :=
  List.range' (start / blocksPerChunk) (e.stopChunk stop - start / blocksPerChunk)

/-- `BlockRefTableEntryGetBlocks` with an output array that does not fill up; `none` if it reads
memory that is not the chunk's. -/
def Entry.getBlocks : Option (List Nat) :=
  if ∀ k ∈ e.turns start stop,
    (e.chunk k).ReadsInside (startOffset start k) (e.stopOffset stop k) then
    some ((e.turns start stop).flatMap fun k =>
      (e.chunk k).scan (k * blocksPerChunk) (startOffset start k) (e.stopOffset stop k))
  else none

/-- The range ends behind the last chunk, which is a bitmap: its scan is not clamped. -/
def Entry.Overruns : Prop :=
  start < e.chunks.length * blocksPerChunk ∧ e.chunks.length * blocksPerChunk < stop ∧
    ∃ words, e.chunk (e.chunks.length - 1) = .bitmap words

end

inductive Call
  | markBlockModified (blknum : Nat)
  | setLimitBlock (limit : Nat)

def Entry.apply (e : Entry) : Call → Entry
  | .markBlockModified blknum => e.markBlockModified blknum
  | .setLimitBlock limit => e.setLimitBlock limit

/-- The lowest limit, and the blocks that were marked and not discarded by a lower limit since. -/
structure Abstract where
  limit : Nat
  marked : Finset Nat

def Abstract.apply (a : Abstract) : Call → Abstract
  | .markBlockModified blknum => { a with marked := insert blknum a.marked }
  | .setLimitBlock limit =>
    ⟨min a.limit limit, if limit < a.limit then {b ∈ a.marked | b < limit} else a.marked⟩

variable {e : Entry} {c : Chunk} {words : Words} {offset i k : Nat} {limit : Nat} {a : Abstract}

namespace Words

lemma bit_update (w) : Words.bit (update words (offset / 16) w) i =
    if i / 16 = offset / 16 then w.getLsbD (i % 16) else words.bit i := by
  by_cases h : i / 16 = offset / 16 <;> simp [Words.bit, h]

lemma eq_iff_mod_eq (h : i / 16 = offset / 16) : i % 16 = offset % 16 ↔ i = offset := by omega

lemma bit_set : (words.set offset).bit i = (words.bit i || decide (i = offset)) := by
  rw [Words.set, bit_update]
  split_ifs with h
  · simp [Words.bit, h, eq_iff_mod_eq h, Nat.mod_lt]
  · simp [mt (congrArg (· / 16)) h]

lemma bit_unset : (words.unset offset).bit i = (words.bit i && decide (i ≠ offset)) := by
  rw [Words.unset, bit_update]
  split_ifs with h
  · simp [Words.bit, h, eq_iff_mod_eq h, Nat.mod_lt]
  · simp [mt (congrArg (· / 16)) h]

lemma bit_foldl_set (offsets : List Nat) :
    (offsets.foldl Words.set words).bit i = (words.bit i || decide (i ∈ offsets)) := by
  induction offsets generalizing words with
  | nil => simp
  | cons o offsets ih => simp [ih, bit_set, Bool.or_assoc]

lemma bit_foldl_unset (offsets : List Nat) :
    (offsets.foldl Words.unset words).bit i = (words.bit i && decide (i ∉ offsets)) := by
  induction offsets generalizing words with
  | nil => simp
  | cons o offsets ih => simp [ih, bit_unset, Bool.and_assoc]

end Words

namespace Chunk

def Has (i : Nat) : Chunk → Prop
  | .array _ offsets => i ∈ offsets
  | .bitmap words => words.bit i = true

def Wf : Chunk → Prop
  | .array size offsets => offsets.Nodup ∧ offsets.length ≤ size ∧
      offsets.length < maxEntriesPerChunk ∧ ∀ i ∈ offsets, i < blocksPerChunk
  | .bitmap _ => True

lemma has_mark (hc : c.Wf) : (c.mark offset).Has i ↔ i = offset ∨ c.Has i := by
  cases c with
  | array size offsets =>
    simp only [mark]
    split_ifs with hsize hmem
    · have : offsets = [] := by simpa [hsize] using hc.2.1
      simp [Has, this]
    · simpa [Has] using fun h : i = offset => h ▸ hmem
    · have hzero : Words.bit (fun _ => 0#16) i = false := by simp [Words.bit]
      simp [Has, Words.bit_set, Words.bit_foldl_set, hzero, or_comm]
    all_goals simp [Has, or_comm]
  | bitmap => simp [Has, mark, Words.bit_set, or_comm]

lemma wf_mark (hc : c.Wf) (hoffset : offset < blocksPerChunk) : (c.mark offset).Wf := by
  cases c with
  | array =>
    simp only [mark]
    obtain ⟨hnodup, hfit, hfew, hlt⟩ := hc
    split_ifs with hsize hmem hfull hgrow
    · exact ⟨nodup_singleton _, by simp,
        Nat.one_lt_two_pow (n := 12) nofun, by simpa using hoffset⟩
    · exact ⟨hnodup, hfit, hfew, hlt⟩
    · trivial
    all_goals
      refine ⟨by simp [nodup_append, hnodup]; grind, ?_, ?_, by grind⟩ <;> simp <;> omega
  | bitmap => trivial

lemma not_has_empty : ¬c.empty.Has i := by cases c <;> simp [empty, Has]

lemma wf_empty : c.empty.Wf := by cases c <;> simp [empty, Wf]

lemma has_cut (hi : i < blocksPerChunk) : (c.cut limit).Has i ↔ c.Has i ∧ i < limit := by
  cases c with
  | array => simp [cut, Has]
  | bitmap =>
    have hin : i ∉ List.range' limit (blocksPerChunk - limit) ↔ i < limit := by
      simp only [mem_range'_1]
      omega
    simp only [cut, Has, Words.bit_foldl_unset, Bool.and_eq_true, decide_eq_true_eq, hin]

lemma wf_cut (hc : c.Wf) : (c.cut limit).Wf := by
  cases c with
  | array size offsets =>
    obtain ⟨hnodup, hfit, hfew, hlt⟩ := hc
    have hle := length_filter_le (fun o => decide (o < limit)) offsets
    exact ⟨hnodup.filter _, hle.trans hfit, hle.trans_lt hfew,
      fun i hi => hlt i (mem_of_mem_filter hi)⟩
  | bitmap => trivial

lemma mem_scan {base start stop b} :
    b ∈ c.scan base start stop ↔ ∃ i, (start ≤ i ∧ i < stop) ∧ c.Has i ∧ b = base + i := by
  cases c <;> simp [scan, Has] <;> grind

lemma lt_of_has {start stop} (hc : c.Wf) (hread : c.ReadsInside start stop)
    (hi : start ≤ i ∧ i < stop) (h : c.Has i) : i < blocksPerChunk := by
  cases c with
  | array => exact hc.2.2.2 i h
  | bitmap =>
    have := hread i (mem_range'_1.mpr (by omega))
    simp only [blocksPerChunk, maxEntriesPerChunk] at *
    omega

lemma nodup_scan {base start stop} (hc : c.Wf) : (c.scan base start stop).Nodup := by
  cases c with
  | array => exact (hc.1.filter _).map fun _ _ => Nat.add_left_cancel
  | bitmap => exact ((nodup_range' ..).filter _).map fun _ _ => Nat.add_left_cancel

end Chunk

lemma le_enlarge (needed n) (h : 0 < n) : needed ≤ enlarge needed n := by
  fun_induction enlarge needed n with
  | case1 n _ ih => exact ih (by omega)
  | case2 => omega

namespace Entry

lemma lt_length_room : k < (e.room k).length := by
  have := le_enlarge (k + 1) (max 16 e.chunks.length) (by omega)
  simp only [room]
  split_ifs with h
  · exact h
  · simp
    omega

lemma getD_room : (e.room k).getD i (.array 0 []) = e.chunk i := by
  simp only [room, chunk]
  split_ifs with h
  · rfl
  · grind

lemma chunk_markBlockModified {b} : (e.markBlockModified b).chunk k =
      if k = b / blocksPerChunk then (e.chunk k).mark (b % blocksPerChunk) else e.chunk k := by
  have hlt := e.lt_length_room (k := b / blocksPerChunk)
  simp only [← e.getD_room (k := b / blocksPerChunk)]
  simp only [markBlockModified, chunk]
  grind

lemma chunk_setLimitBlock : (e.setLimitBlock limit).chunk k =
      if e.limitBlock ≤ limit then e.chunk k
      else if limit / blocksPerChunk < k then (e.chunk k).empty
      else if k = limit / blocksPerChunk then (e.chunk k).cut (limit % blocksPerChunk)
      else e.chunk k := by
  simp only [setLimitBlock, chunk]
  grind [Chunk.empty, Chunk.cut]

/-- The chunks of an entry hold exactly the marked blocks. -/
structure Refines (e : Entry) (a : Abstract) : Prop where
  limit : e.limitBlock = a.limit
  wf : ∀ k, (e.chunk k).Wf
  has : ∀ b, (e.chunk (b / blocksPerChunk)).Has (b % blocksPerChunk) ↔ b ∈ a.marked

lemma Refines.apply (h : e.Refines a) (call) : (e.apply call).Refines (a.apply call) := by
  cases call with
  | markBlockModified b =>
    refine ⟨h.limit, fun k => ?_, fun b' => ?_⟩ <;> simp only [Entry.apply, chunk_markBlockModified]
    · split_ifs
      · exact Chunk.wf_mark (h.wf k) (Nat.mod_lt _ (by decide))
      · exact h.wf k
    · have hblock : b' = b ↔
          b' / blocksPerChunk = b / blocksPerChunk ∧ b' % blocksPerChunk = b % blocksPerChunk := by
        simp only [blocksPerChunk]
        omega
      simp only [Abstract.apply, Finset.mem_insert, hblock, ← h.has]
      split_ifs with hk
      · simp [hk, Chunk.has_mark (h.wf _)]
      · simp [hk]
  | setLimitBlock limit =>
    have hlimit := h.limit
    refine ⟨?_, fun k => ?_, fun b => ?_⟩
    · simp only [Entry.apply, setLimitBlock, Abstract.apply]
      grind
    · simp only [Entry.apply, chunk_setLimitBlock]
      split_ifs <;> simp [h.wf, Chunk.wf_empty, Chunk.wf_cut]
    · have hlt : b % blocksPerChunk < blocksPerChunk := Nat.mod_lt _ (by decide)
      have hblock : b < limit ↔ b / blocksPerChunk < limit / blocksPerChunk ∨
          b / blocksPerChunk = limit / blocksPerChunk ∧
            b % blocksPerChunk < limit % blocksPerChunk := by
        simp only [blocksPerChunk]
        omega
      simp only [Entry.apply, chunk_setLimitBlock, Abstract.apply]
      have := h.has b
      split_ifs <;> grind [Chunk.has_cut, Chunk.not_has_empty]

lemma Refines.foldl (calls : List Call) :
    (calls.foldl Entry.apply create).Refines
      (calls.foldl Abstract.apply ⟨invalidBlockNumber, ∅⟩) := by
  induction calls using List.reverseRecOn with
  | nil => constructor <;> simp [create, chunk, Chunk.Wf, Chunk.Has, maxEntriesPerChunk]
  | append_singleton calls call ih => simpa using ih.apply call

section
variable {start stop : Nat}

lemma mem_turns {b} (hk : b / blocksPerChunk < e.chunks.length) :
    (b / blocksPerChunk ∈ e.turns start stop ∧
      startOffset start (b / blocksPerChunk) ≤ b % blocksPerChunk ∧
      b % blocksPerChunk < e.stopOffset stop (b / blocksPerChunk)) ↔ start ≤ b ∧ b < stop := by
  simp only [turns, mem_range'_1, startOffset, stopOffset, stopChunk, blocksPerChunk] at *
  split_ifs <;> omega

variable (hwf : ∀ k, (e.chunk k).Wf)
include hwf

lemma readsInside_iff :
    (∀ k ∈ e.turns start stop,
      (e.chunk k).ReadsInside (startOffset start k) (e.stopOffset stop k)) ↔
      ¬e.Overruns start stop := by
  constructor
  · rintro h ⟨hstart, hstop, words, hwords⟩
    have hlast : e.chunks.length - 1 ∈ e.turns start stop := by
      simp only [turns, mem_range'_1, stopChunk, blocksPerChunk] at *
      split_ifs <;> omega
    have hread := h _ hlast
    rw [hwords] at hread
    have := hread blocksPerChunk (by
      simp only [mem_range'_1, startOffset, stopOffset, stopChunk, blocksPerChunk] at *
      split_ifs <;> omega)
    exact absurd this (by decide)
  · intro h k hk
    cases hc : e.chunk k with
    | array =>
      have := hwf k
      rw [hc] at this
      exact this.2.1
    | bitmap words =>
      intro i hi
      by_contra hlt
      apply h
      simp only [turns, mem_range'_1, startOffset, stopOffset, stopChunk, blocksPerChunk,
        maxEntriesPerChunk] at hk hi hlt
      have hlast : k = e.chunks.length - 1 := by split_ifs at * <;> omega
      refine ⟨?_, ?_, words, hlast ▸ hc⟩ <;> (simp only [blocksPerChunk]; split_ifs at * <;> omega)

lemma mem_scan_iff {b} (hk : k ∈ e.turns start stop)
    (hread : (e.chunk k).ReadsInside (startOffset start k) (e.stopOffset stop k)) :
    b ∈ (e.chunk k).scan (k * blocksPerChunk) (startOffset start k) (e.stopOffset stop k) ↔
      k = b / blocksPerChunk ∧ (start ≤ b ∧ b < stop) ∧ (e.chunk k).Has (b % blocksPerChunk) := by
  have hlength : k < e.chunks.length := by
    simp only [turns, mem_range'_1, stopChunk] at hk
    omega
  have hturn := fun b => @mem_turns e start stop b
  rw [Chunk.mem_scan]
  constructor
  · rintro ⟨i, hi, hhas, rfl⟩
    have hlt := Chunk.lt_of_has (hwf k) hread hi hhas
    have hdiv : (k * blocksPerChunk + i) / blocksPerChunk = k := by
      rw [Nat.mul_comm, Nat.mul_add_div (by decide), Nat.div_eq_of_lt hlt, Nat.add_zero]
    have hmod : (k * blocksPerChunk + i) % blocksPerChunk = i := by
      rw [Nat.mul_comm, Nat.mul_add_mod, Nat.mod_eq_of_lt hlt]
    have := hturn (k * blocksPerChunk + i)
    rw [hdiv, hmod] at this
    exact ⟨hdiv.symm, (this hlength).mp ⟨hk, hi⟩, by rwa [hmod]⟩
  · rintro ⟨rfl, hb, hhas⟩
    exact ⟨b % blocksPerChunk, ((hturn b hlength).mpr hb).2, hhas, (Nat.div_add_mod' b _).symm⟩

lemma getBlocks_spec (h : ¬e.Overruns start stop) :
    ∃ bs, e.getBlocks start stop = some bs ∧ bs.Nodup ∧ ∀ b, b ∈ bs ↔
      (start ≤ b ∧ b < stop) ∧ (e.chunk (b / blocksPerChunk)).Has (b % blocksPerChunk) := by
  have hread := (e.readsInside_iff hwf).mpr h
  have hscan := fun k hk b => e.mem_scan_iff (b := b) hwf hk (hread k hk)
  refine ⟨_, if_pos hread, ?_, fun b => ?_⟩
  · refine nodup_flatMap.mpr ⟨fun k _ => Chunk.nodup_scan (hwf k), ?_⟩
    refine (nodup_range' ..).pairwise_of_forall_ne fun k hk l hl hne b hb hb' => hne ?_
    rw [((hscan k hk b).mp hb).1, ((hscan l hl b).mp hb').1]
  · rw [mem_flatMap]
    constructor
    · rintro ⟨k, hk, hb⟩
      obtain ⟨rfl, hb⟩ := (hscan k hk b).mp hb
      exact hb
    · rintro ⟨hb, hhas⟩
      have hlength : b / blocksPerChunk < e.chunks.length := by
        by_contra hlength
        simp [chunk, not_lt.mp hlength, Chunk.Has] at hhas
      have hk := ((e.mem_turns hlength).mpr hb).1
      exact ⟨_, hk, (hscan _ hk b).mpr ⟨rfl, hb, hhas⟩⟩

end

end Entry

/-- The limit block is the lowest limit, and the blocks of a range are the marked ones unless the
range overruns a bitmap at the end of the entry. -/
theorem getBlocks_exact_iff (calls : List Call) (start stop : Nat) :
    let e := calls.foldl Entry.apply create
    let a := calls.foldl Abstract.apply ⟨invalidBlockNumber, ∅⟩
    e.limitBlock = a.limit ∧ ((∃ bs, e.getBlocks start stop = some bs ∧ bs.Nodup ∧
        ∀ b, b ∈ bs ↔ (start ≤ b ∧ b < stop) ∧ b ∈ a.marked) ↔ ¬e.Overruns start stop) := by
  intro e a
  have h : e.Refines a := .foldl calls
  refine ⟨h.limit, ?_, fun hover => ?_⟩
  · rintro ⟨bs, hbs, -⟩ hover
    rw [Entry.getBlocks, if_neg (mt (e.readsInside_iff h.wf).mp (not_not.mpr hover))] at hbs
    cases hbs
  · simpa only [h.has] using e.getBlocks_spec h.wf hover

def marks (offsets : List Nat) : List Call :=
  offsets.map fun i => .markBlockModified (15 * blocksPerChunk + i)

lemma mem_marked_marks (offsets a) :
    15 * blocksPerChunk + i ∈ ((marks offsets).foldl Abstract.apply a).marked ↔
      i ∈ offsets ∨ 15 * blocksPerChunk + i ∈ a.marked := by
  simp only [marks]
  induction offsets generalizing a with
  | nil => simp
  | cons j offsets ih =>
    simp only [map_cons, foldl_cons, ih, Abstract.apply, Finset.mem_insert, mem_cons,
      Nat.add_left_cancel_iff]
    tauto

lemma length_chunks_marks (offsets) (h : e.chunks.length = 16)
    (hlt : ∀ i ∈ offsets, i < blocksPerChunk) :
    ((marks offsets).foldl Entry.apply e).chunks.length = 16 := by
  induction offsets generalizing e with
  | nil => exact h
  | cons i offsets ih =>
    apply ih _ fun j hj => hlt j (mem_cons_of_mem _ hj)
    have : (15 * blocksPerChunk + i) / blocksPerChunk = 15 := by
      rw [Nat.mul_comm, Nat.mul_add_div (by decide), Nat.div_eq_of_lt (hlt i mem_cons_self)]
    simp [Entry.apply, Entry.markBlockModified, Entry.room, this, h]

lemma Entry.Refines.overruns (h : e.Refines a) (hlength : e.chunks.length = 16)
    (hmarked : ∀ i < maxEntriesPerChunk, 15 * blocksPerChunk + i ∈ a.marked) :
    e.Overruns 0 (16 * blocksPerChunk + 1) := by
  refine ⟨by rw [hlength]; decide, by rw [hlength]; decide, ?_⟩
  rw [hlength]
  cases hc : e.chunk (16 - 1) with
  | bitmap words => exact ⟨words, rfl⟩
  | array size offsets =>
    have hwf := h.wf 15
    rw [hc] at hwf
    have hsub : List.range maxEntriesPerChunk ⊆ offsets := by
      intro i hi
      have hi := mem_range.mp hi
      have hhas := (h.has _).mpr (hmarked i hi)
      rwa [Nat.mul_comm, Nat.mul_add_div (by decide), Nat.mul_add_mod,
        Nat.mod_eq_of_lt (hi.trans (by decide)), Nat.div_eq_of_lt (hi.trans (by decide)),
        hc] at hhas
    have hle := (nodup_range.subperm hsub).length_le
    rw [length_range] at hle
    exact absurd hwf.2.2.1 hle.not_gt

lemma getBlocks_marks (offsets) (hlt : ∀ i ∈ offsets, i < blocksPerChunk)
    (hall : ∀ i < maxEntriesPerChunk, i ∈ offsets) :
    ((marks (0 :: offsets)).foldl Entry.apply create).getBlocks 0 (16 * blocksPerChunk + 1) =
      none := by
  have h := Entry.Refines.foldl (marks (0 :: offsets))
  refine if_neg (mt (Entry.readsInside_iff h.wf).mp (not_not.mpr (h.overruns ?_ ?_)))
  · apply length_chunks_marks _ _ hlt
    simp [Entry.apply, Entry.markBlockModified, Entry.room, create, enlarge]
  · exact fun i hi => (mem_marked_marks ..).mpr (.inl (mem_cons_of_mem _ (hall i hi)))

theorem getBlocks_overruns :
    ((marks (0 :: List.range maxEntriesPerChunk)).foldl Entry.apply create).getBlocks 0
      (16 * blocksPerChunk + 1) = none :=
  getBlocks_marks _ (fun _ hi => (mem_range.mp hi).trans (by decide))
    fun _ => mem_range.mpr

end Umbra.BlockRefEntry
