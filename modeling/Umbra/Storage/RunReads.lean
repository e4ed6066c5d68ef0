import Umbra.Storage.RunWrites

/-!
# Reading and flushing in runs

`umreadv` reads runs of blocks whose physical blocks follow each other in one segment file, and
zeros for unmapped blocks in front of the logical end; `umwriteback` asks the kernel to flush such
runs. Both are compared with the same calls for one block at a time; `none` is an error.
-/

namespace Umbra.RunBatching

open Foundation Foundation.Raising List Nat

variable {β : Type}

/-- The files of a fork. Segment files may be missing or short. -/
structure Files (β : Type) where
  content : ℕ → β
  segmentBlocks : ℕ → Option ℕ
  broken : ℕ → Bool

structure Fork (β : Type) where
  map : ℕ → Option ℕ
  /-- `none` is `InvalidBlockNumber`, the counter of a fork that does not exist. -/
  logicalNblocks : Option ℕ
  inRecovery : Bool
  auxiliary : Bool
  zeroDamagedPages : Bool
  /-- `MapInflightLookupOwnedPblk`. -/
  owned : ℕ → Option ℕ
  zero : β
  ensure : Files β → ℕ → Option (Files β)

/-! ### Reads -/

section Read

variable (fork : Fork β)

/-- `umfile_getseg`: a missing segment file is an error but in recovery, which creates it. -/
def segmentLength (files : Files β) (pblk : ℕ) : Option ℕ :=
  match files.segmentBlocks (pblk / relsegSize) with
  | some len => some len
  | none => if fork.inRecovery then some 0 else none

def blockRead (files : Files β) (len pblk : ℕ) : Option β :=
  if pblk % relsegSize < len then if files.broken pblk then none else some (files.content pblk)
  else if fork.zeroDamagedPages || fork.inRecovery then some fork.zero
  else none

def umfileReadv (files : Files β) (pblk nblocks : ℕ) : Option (List β) :=
  (segmentLength fork files pblk).bind fun len =>
    if min (min nblocks (relsegSize - pblk % relsegSize)) pgIovMax ≠ nblocks then none
    else (List.range' pblk nblocks).mapM (blockRead fork files len)

def extendRun (map : ℕ → Option ℕ) (startPblk : ℕ) : ℕ → ℕ → ℕ → ℕ
  | runBlocks, _, 0 => runBlocks
  | runBlocks, lblk, remaining + 1 =>
    match map lblk with
    | none => runBlocks
    | some pblk =>
      if pblk ≠ startPblk + runBlocks then runBlocks
      else if relsegSize ≤ startPblk % relsegSize + runBlocks then runBlocks
      else extendRun map startPblk (runBlocks + 1) (lblk + 1) remaining

/-- `um_resolve_lblk_for_read`: whether an unmapped block reads as zeros. -/
def unmappedReadsZero (lblk : ℕ) : Bool :=
  match fork.logicalNblocks with
  | some n => (fork.inRecovery && fork.auxiliary) || decide (lblk < n)
  | none => false

def umreadvLoop : ℕ → ℕ → ℕ → Files β → Option (List β × Files β)
  | _, _, 0, files => some ([], files)
  | 0, _, _ + 1, _ => none
  | fuel + 1, lblk, remaining + 1, files =>
    match fork.map lblk with
    | none =>
      if unmappedReadsZero fork lblk then
        (umreadvLoop fuel (lblk + 1) remaining files).map fun r => (fork.zero :: r.1, r.2)
      else none
    | some pblk =>
      if fork.inRecovery && fork.auxiliary then
        (fork.ensure files pblk).bind fun files =>
          (umfileReadv fork files pblk 1).bind fun bs =>
            (umreadvLoop fuel (lblk + 1) remaining files).map fun r => (bs ++ r.1, r.2)
      else
        let runBlocks := extendRun fork.map pblk 1 (lblk + 1) remaining
        (umfileReadv fork files pblk runBlocks).bind fun bs =>
          (umreadvLoop fuel (lblk + runBlocks) (remaining + 1 - runBlocks) files).map fun r =>
            (bs ++ r.1, r.2)

def umreadv (files : Files β) (lblk nblocks : ℕ) : Option (List β × Files β) :=
  umreadvLoop fork nblocks lblk nblocks files

def readBlockwise (files : Files β) (lblk : ℕ) : ℕ → Option (List β × Files β)
  | 0 => some ([], files)
  | nblocks + 1 =>
    (umreadv fork files lblk 1).bind fun b =>
      (readBlockwise b.2 (lblk + 1) nblocks).map fun r => (b.1 ++ r.1, r.2)

end Read

/-! ### Writeback -/

section Writeback

variable (fork : Fork β)

/-- `um_resolve_lblk_for_access` in writeback mode: a physical block, or a block to skip. -/
def resolveForWriteback (lblk : ℕ) : Option (Option ℕ) :=
  match fork.map lblk, fork.logicalNblocks with
  | some pblk, _ => some (some pblk)
  | none, some n =>
    if lblk < n then some (fork.owned lblk)
    else if fork.inRecovery && !fork.auxiliary then none
    else some none
  | none, none => none

/-- `umfile_writeback`; every round flushes a block at least. -/
def umfileWriteback (files : Files β) : ℕ → ℕ → ℕ → Option (List PhysicalCall)
  | _, _, 0 => some []
  | 0, _, _ + 1 => none
  | fuel + 1, pblk, nblocks + 1 =>
    (segmentLength fork files pblk).bind fun _ =>
      let nflush := min (nblocks + 1) (relsegSize - pblk % relsegSize)
      (umfileWriteback files fuel (pblk + nflush) (nblocks + 1 - nflush)).map (⟨pblk, nflush⟩ :: ·)

def flushRun (files : Files β) (startPblk runBlocks : ℕ) : Option (List PhysicalCall) :=
  if runBlocks = 0 then some [] else umfileWriteback fork files runBlocks startPblk runBlocks

def umwritebackLoop (files : Files β) : ℕ → ℕ → ℕ → ℕ → Option (List PhysicalCall)
  | startPblk, runBlocks, _, 0 => flushRun fork files startPblk runBlocks
  | startPblk, runBlocks, lblk, remaining + 1 =>
    (resolveForWriteback fork lblk).bind fun
      | none =>
        (flushRun fork files startPblk runBlocks).bind fun calls =>
          (umwritebackLoop files 0 0 (lblk + 1) remaining).map (calls ++ ·)
      | some pblk =>
        if runBlocks = 0 then umwritebackLoop files pblk 1 (lblk + 1) remaining
        else if pblk = startPblk + runBlocks then
          umwritebackLoop files startPblk (runBlocks + 1) (lblk + 1) remaining
        else
          (flushRun fork files startPblk runBlocks).bind fun calls =>
            (umwritebackLoop files pblk 1 (lblk + 1) remaining).map (calls ++ ·)

/-- `umwriteback` of a mapped fork: its calls of `FileWriteback`. -/
def umwriteback (files : Files β) (lblk nblocks : ℕ) : Option (List PhysicalCall) :=
  umwritebackLoop fork files 0 0 lblk nblocks

def writebackBlockwise (files : Files β) (lblk : ℕ) : ℕ → Option (List PhysicalCall)
  | 0 => some []
  | nblocks + 1 =>
    (umwriteback fork files lblk 1).bind fun calls =>
      (writebackBlockwise files (lblk + 1) nblocks).map (calls ++ ·)

def covered (calls : List PhysicalCall) : List ℕ :=
  calls.flatMap fun c => List.range' c.start c.count

end Writeback

/-! ### Runs of reads -/

section Read

variable {fork : Fork β} {files : Files β}

lemma extendRun_spec {map start run} (lblk remaining : ℕ)
    (hseg : start % relsegSize + run ≤ relsegSize) :
    run ≤ extendRun map start run lblk remaining
      ∧ extendRun map start run lblk remaining ≤ run + remaining
      ∧ start % relsegSize + extendRun map start run lblk remaining ≤ relsegSize
      ∧ ∀ j, run + j < extendRun map start run lblk remaining →
        map (lblk + j) = some (start + run + j) := by
  induction remaining generalizing run lblk with
  | zero => exact ⟨Nat.le_refl _, Nat.le_refl _, hseg, fun j hj => absurd hj (by simp [extendRun])⟩
  | succ remaining ih =>
    have hstop : run ≤ run ∧ run ≤ run + (remaining + 1) ∧ start % relsegSize + run ≤ relsegSize
        ∧ ∀ j, run + j < run → map (lblk + j) = some (start + run + j) :=
      ⟨Nat.le_refl _, Nat.le_add_right .., hseg, fun j hj => by omega⟩
    rw [extendRun]
    split
    · exact hstop
    · rename_i pblk hmap
      split
      · exact hstop
      · split
        · exact hstop
        · rename_i hnext hroom
          obtain ⟨hle, hbound, hlast, hmapped⟩ := @ih (run + 1) (lblk + 1) (by omega)
          refine ⟨by omega, by omega, hlast, fun j hj => ?_⟩
          cases j with
          | zero =>
            rw [Nat.add_zero, Nat.add_zero, hmap, not_not.mp hnext]
          | succ j =>
            have hj' := hmapped j (by omega)
            rw [show lblk + (j + 1) = lblk + 1 + j by omega, hj']
            congr 1
            omega

def readSingle (fork : Fork β) (files : Files β) (pblk : ℕ) : Option β :=
  (segmentLength fork files pblk).bind fun len => blockRead fork files len pblk

lemma segmentLength_add {pblk j} (h : pblk % relsegSize + j < relsegSize) :
    segmentLength fork files (pblk + j) = segmentLength fork files pblk := by
  have hdiv : (pblk + j) / relsegSize = pblk / relsegSize := by
    simp only [relsegSize] at *
    omega
  rw [segmentLength, hdiv, segmentLength]

lemma mapM_range'_congr {f g : ℕ → Option β} {a k : ℕ} (h : ∀ j < k, f (a + j) = g (a + j)) :
    (List.range' a k).mapM f = (List.range' a k).mapM g := by
  induction k generalizing a with
  | zero => rfl
  | succ k ih =>
    have hhead : f a = g a := h 0 (Nat.succ_pos k)
    have hrest : ∀ j < k, f (a + 1 + j) = g (a + 1 + j) := by
      intro j hj
      rw [Nat.add_assoc, Nat.add_comm 1 j]
      exact h (j + 1) (Nat.succ_lt_succ hj)
    rw [range'_succ, mapM_cons, mapM_cons, hhead, ih hrest]

lemma umfileReadv_eq {pblk k} (hpos : 0 < k) (hk : k ≤ pgIovMax)
    (hseg : pblk % relsegSize + k ≤ relsegSize) :
    umfileReadv fork files pblk k = (List.range' pblk k).mapM (readSingle fork files) := by
  have hmin : min (min k (relsegSize - pblk % relsegSize)) pgIovMax = k := by omega
  rw [umfileReadv]
  cases hlen : segmentLength fork files pblk with
  | none =>
    obtain ⟨k, rfl⟩ := Nat.exists_eq_succ_of_ne_zero (Nat.ne_of_gt hpos)
    rw [Nat.succ_eq_add_one, range'_succ, mapM_cons, readSingle, hlen]
    rfl
  | some =>
    rw [Option.bind_some, if_neg (not_not_intro hmin)]
    refine mapM_range'_congr fun j hj => ?_
    rw [readSingle, segmentLength_add (by omega), hlen, Option.bind_some]

lemma umfileReadv_of_lt {pblk k} (hk : pgIovMax < k) : umfileReadv fork files pblk k = none := by
  have hmin : min (min k (relsegSize - pblk % relsegSize)) pgIovMax ≠ k := by omega
  rw [umfileReadv]
  cases segmentLength fork files pblk with
  | none => rfl
  | some => rw [Option.bind_some, if_pos hmin]

lemma legal_of_umfileReadv {pblk k bs} (h : umfileReadv fork files pblk k = some bs) :
    PhysicalCall.Legal ⟨pblk, k⟩ := by
  obtain ⟨len, -, hread⟩ := Option.bind_eq_some_iff.mp h
  have hmin := (Option.ite_none_left_eq_some.mp hread).1
  have hmod : pblk % relsegSize < relsegSize := mod_lt _ (by decide)
  refine ⟨?_, ?_⟩
  · show k ≤ pgIovMax
    omega
  · show pblk % relsegSize + k ≤ relsegSize
    omega

variable {lblk : ℕ} {nblocks : ℕ}

lemma umreadv_one {pblk} (hmap : fork.map lblk = some pblk)
    (haux : (fork.inRecovery && fork.auxiliary) = false) :
    umreadv fork files lblk 1 = (readSingle fork files pblk).map fun b => ([b], files) := by
  have hseg : pblk % relsegSize + 1 ≤ relsegSize := mod_lt _ (by decide)
  simp only [umreadv, umreadvLoop, hmap, haux, extendRun, Bool.false_eq_true, if_false,
    umfileReadv_eq Nat.one_pos (by decide) hseg, range'_one, mapM_cons, mapM_nil]
  cases readSingle fork files pblk with
  | none => rfl
  | some => rfl

lemma readBlockwise_run {pblk k} (m) (hmap : ∀ j < k, fork.map (lblk + j) = some (pblk + j))
    (haux : (fork.inRecovery && fork.auxiliary) = false) : readBlockwise fork files lblk (k + m)
      = ((List.range' pblk k).mapM (readSingle fork files)).bind fun bs =>
          (readBlockwise fork files (lblk + k) m).map fun r => (bs ++ r.1, r.2) := by
  induction k generalizing lblk pblk with
  | zero =>
    rw [Nat.zero_add, Nat.add_zero]
    show _ = Option.map id _
    rw [Option.map_id]
    rfl
  | succ k ih =>
    have hrest : ∀ j < k, fork.map (lblk + 1 + j) = some (pblk + 1 + j) := by
      intro j hj
      have hj' := hmap (j + 1) (by omega)
      rwa [show lblk + 1 + j = lblk + (j + 1) by omega, show pblk + 1 + j = pblk + (j + 1) by omega]
    have hhead : fork.map lblk = some pblk := hmap 0 (Nat.succ_pos k)
    rw [Nat.add_right_comm k 1 m, readBlockwise, umreadv_one hhead haux, range'_succ, mapM_cons]
    cases readSingle fork files pblk with
    | none => rfl
    | some =>
      simp only [Option.map_some, Option.bind_some, ih hrest, Nat.add_assoc, Nat.add_comm 1 k]
      cases (List.range' (pblk + 1) k).mapM (readSingle fork files) with
      | none => rfl
      | some =>
        cases readBlockwise fork files (lblk + (k + 1)) m with
        | none => rfl
        | some => rfl

def Agrees (nblocks : ℕ) (batched blockwise : Option (List β × Files β)) : Prop :=
  batched = blockwise ∨ batched = none ∧ pgIovMax < nblocks

lemma Agrees.round {n m batched blockwise} (h : Agrees m batched blockwise) (hle : m ≤ n)
    (bs : List β) :
    Agrees n (batched.map fun r => (bs ++ r.1, r.2)) (blockwise.map fun r => (bs ++ r.1, r.2)) := by
  rcases h with rfl | ⟨rfl, hlt⟩
  · exact .inl rfl
  · exact .inr ⟨rfl, Nat.lt_of_lt_of_le hlt hle⟩

lemma umreadvLoop_agrees {fuel remaining} (hfuel : remaining ≤ fuel) (files) :
    Agrees remaining (umreadvLoop fork fuel lblk remaining files)
      (readBlockwise fork files lblk remaining) := by
  induction fuel generalizing lblk remaining files with
  | zero =>
    obtain rfl : remaining = 0 := le_zero.mp hfuel
    exact .inl rfl
  | succ fuel ih =>
    cases remaining with
    | zero => exact .inl rfl
    | succ remaining =>
      have hle : remaining ≤ fuel := le_of_succ_le_succ hfuel
      cases hmap : fork.map lblk with
      | none =>
        simp only [umreadvLoop, readBlockwise, umreadv, hmap]
        split
        · exact (ih hle files).round (le_succ _) [fork.zero]
        · exact .inl rfl
      | some pblk =>
        cases haux : fork.inRecovery && fork.auxiliary with
        | true =>
          -- in recovery the auxiliary forks are read block by block
          simp only [umreadvLoop, readBlockwise, umreadv, hmap, haux, if_true]
          cases fork.ensure files pblk with
          | none => exact .inl rfl
          | some files =>
            simp only [Option.bind_some]
            cases umfileReadv fork files pblk 1 with
            | none => exact .inl rfl
            | some bs =>
              simp only [Option.bind_some, Option.map_some, append_nil]
              exact (ih hle files).round (le_succ _) bs
        | false =>
          have hspec := @extendRun_spec fork.map pblk 1 (lblk + 1) remaining
            (mod_lt pblk (by decide))
          simp only [umreadvLoop, hmap, haux, Bool.false_eq_true, if_false]
          generalize extendRun fork.map pblk 1 (lblk + 1) remaining = k at hspec ⊢
          obtain ⟨hpos, hbound, hseg, hmapped⟩ := hspec
          rcases Nat.lt_or_ge pgIovMax k with hlong | hshort
          · rw [umfileReadv_of_lt hlong]
            exact .inr ⟨rfl, by omega⟩
          · have hrun : ∀ j < k, fork.map (lblk + j) = some (pblk + j) := by
              intro j hj
              cases j with
              | zero => exact hmap
              | succ j =>
                have hj' := hmapped j (by omega)
                rwa [Nat.add_assoc, Nat.add_assoc, Nat.add_comm 1 j] at hj'
            have hsplit := @readBlockwise_run _ fork files lblk pblk k (remaining + 1 - k) hrun haux
            rw [add_sub_of_le (by omega : k ≤ remaining + 1)] at hsplit
            rw [hsplit, umfileReadv_eq hpos hshort hseg]
            cases (List.range' pblk k).mapM (readSingle fork files) with
            | none => exact .inl rfl
            | some bs => exact (ih (by omega) files).round (sub_le ..) bs

lemma umreadv_eq_readBlockwise (hn : nblocks ≤ pgIovMax) :
    umreadv fork files lblk nblocks = readBlockwise fork files lblk nblocks :=
  (umreadvLoop_agrees (Nat.le_refl _) files).resolve_right fun h => Nat.not_lt.mpr hn h.2

lemma umreadv_some {r} (h : umreadv fork files lblk nblocks = some r) :
    readBlockwise fork files lblk nblocks = some r := by
  rcases umreadvLoop_agrees (Nat.le_refl nblocks) files with heq | ⟨hnone, -⟩
  · exact heq ▸ h
  · cases hnone.symm.trans h

end Read

/-! ### Runs of writebacks -/

section Writeback

variable {fork : Fork β} {files : Files β}

/-- The calls cover the blocks one after the other, each within a segment file; both are missing if
the call raises. -/
def Covers (calls : Option (List PhysicalCall)) (blocks : Option (List ℕ)) : Prop :=
  calls.map covered = blocks
    ∧ ∀ cs, calls = some cs → ∀ c ∈ cs, c.start % relsegSize + c.count ≤ relsegSize

lemma Covers.nil : Covers (some []) (some []) := ⟨rfl, by
  rintro _ ⟨rfl⟩
  exact forall_mem_nil _⟩

lemma Covers.none : Covers none none := ⟨rfl, nofun⟩

lemma Covers.bind {calls calls' blocks blocks'} (h : Covers calls blocks)
    (h' : Covers calls' blocks') :
    Covers (calls.bind fun cs => calls'.map (cs ++ ·))
      (blocks.bind fun bs => blocks'.map (bs ++ ·)) := by
  obtain ⟨rfl, hlegal⟩ := h
  obtain ⟨rfl, hlegal'⟩ := h'
  cases calls with
  | none => exact .none
  | some cs =>
    cases calls' with
    | none => exact .none
    | some cs' =>
      refine ⟨?_, ?_⟩
      · simp [covered]
      · rintro _ ⟨rfl⟩
        exact forall_mem_append.mpr ⟨hlegal cs rfl, hlegal' cs' rfl⟩

def reach (fork : Fork β) (files : Files β) (pblk : ℕ) : Option ℕ :=
  (segmentLength fork files pblk).map fun _ => pblk

lemma mapM_append_eq (f : ℕ → Option ℕ) (l l' : List ℕ) :
    (l ++ l').mapM f = (l.mapM f).bind fun bs => (l'.mapM f).map (bs ++ ·) := by
  rw [mapM_append]
  cases l.mapM f with
  | none => rfl
  | some =>
    cases l'.mapM f with
    | none => rfl
    | some => rfl

lemma mapM_reach {pblk k len} (hlen : segmentLength fork files pblk = some len)
    (hseg : pblk % relsegSize + k ≤ relsegSize) :
    (List.range' pblk k).mapM (reach fork files) = some (List.range' pblk k) := by
  have hcongr : (List.range' pblk k).mapM (reach fork files)
      = (List.range' pblk k).mapM (some : ℕ → Option ℕ) := by
    refine mapM_range'_congr fun j hj => ?_
    rw [reach, segmentLength_add (by omega), hlen]
    rfl
  rw [hcongr, show (some : ℕ → Option ℕ) = fun p => pure (id p) from rfl, mapM_pure, map_id]
  rfl

lemma umfileWriteback_covers {fuel pblk nblocks} (hfuel : nblocks ≤ fuel) :
    Covers (umfileWriteback fork files fuel pblk nblocks)
      ((List.range' pblk nblocks).mapM (reach fork files)) := by
  induction fuel generalizing pblk nblocks with
  | zero =>
    obtain rfl : nblocks = 0 := le_zero.mp hfuel
    exact .nil
  | succ fuel ih =>
    cases nblocks with
    | zero => exact .nil
    | succ nblocks =>
      rw [umfileWriteback]
      cases hlen : segmentLength fork files pblk with
      | none =>
        rw [range'_succ, mapM_cons, reach, hlen]
        exact .none
      | some =>
        have hmod : pblk % relsegSize < relsegSize := mod_lt _ (by decide)
        generalize hflush : min (nblocks + 1) (relsegSize - pblk % relsegSize) = nflush
        have hle : nflush ≤ nblocks + 1 := by omega
        have hseg : pblk % relsegSize + nflush ≤ relsegSize := by omega
        have hfirst : Covers (some [⟨pblk, nflush⟩])
            ((List.range' pblk nflush).mapM (reach fork files)) := by
          rw [mapM_reach hlen hseg]
          refine ⟨by simp [covered], ?_⟩
          rintro _ ⟨rfl⟩
          exact forall_mem_singleton.mpr hseg
        have hsplit : List.range' pblk (nblocks + 1)
            = List.range' pblk nflush ++ List.range' (pblk + nflush) (nblocks + 1 - nflush) := by
          rw [range'_append_1, add_sub_of_le hle]
        rw [hsplit, mapM_append_eq]
        exact hfirst.bind (@ih (pblk + nflush) (nblocks + 1 - nflush) (by omega))

lemma flushRun_covers (startPblk runBlocks) : Covers (flushRun fork files startPblk runBlocks)
      ((List.range' startPblk runBlocks).mapM (reach fork files)) := by
  rw [flushRun]
  split
  case isTrue hzero =>
    rw [hzero]
    exact .nil
  case isFalse => exact umfileWriteback_covers (Nat.le_refl _)

def flushedBlock (fork : Fork β) (files : Files β) (lblk : ℕ) : Option (List ℕ) :=
  (resolveForWriteback fork lblk).bind fun
    | none => some []
    | some pblk => [pblk].mapM (reach fork files)

def flushedBlocks (fork : Fork β) (files : Files β) (lblk : ℕ) : ℕ → Option (List ℕ)
  | 0 => some []
  | nblocks + 1 =>
    (flushedBlock fork files lblk).bind fun bs =>
      (flushedBlocks fork files (lblk + 1) nblocks).map (bs ++ ·)

abbrev joined {α : Type} (a b : Option (List α)) : Option (List α) :=
  a.bind fun as => b.map (as ++ ·)

section Joined

variable {α : Type} (a b c : Option (List α))

lemma joined_nil_left : joined (some []) b = b := by
  cases b with
  | none => rfl
  | some => rfl

lemma joined_nil_right : joined a (some []) = a := by
  cases a with
  | none => rfl
  | some => simp [joined]

lemma joined_none : joined a none = none := by
  cases a with
  | none => rfl
  | some => rfl

lemma joined_assoc : joined (joined a b) c = joined a (joined b c) := by
  cases a with
  | none => rfl
  | some =>
    cases b with
    | none => rfl
    | some =>
      cases c with
      | none => rfl
      | some => simp [joined]

end Joined

lemma umwritebackLoop_covers (startPblk runBlocks lblk remaining) :
    Covers (umwritebackLoop fork files startPblk runBlocks lblk remaining)
      (joined ((List.range' startPblk runBlocks).mapM (reach fork files))
        (flushedBlocks fork files lblk remaining)) := by
  induction remaining generalizing startPblk runBlocks lblk with
  | zero =>
    rw [flushedBlocks, joined_nil_right]
    exact flushRun_covers startPblk runBlocks
  | succ remaining ih =>
    -- a run that begins with a block, and an empty one
    have hone : ∀ pblk, Covers (umwritebackLoop fork files pblk 1 (lblk + 1) remaining)
        (joined ([pblk].mapM (reach fork files))
          (flushedBlocks fork files (lblk + 1) remaining)) := fun pblk => ih pblk 1 (lblk + 1)
    have hempty : Covers (umwritebackLoop fork files 0 0 (lblk + 1) remaining)
        (flushedBlocks fork files (lblk + 1) remaining) := by
      have h := ih 0 0 (lblk + 1)
      rwa [range'_zero, mapM_nil, show (pure [] : Option (List ℕ)) = some [] from rfl,
        joined_nil_left] at h
    rw [umwritebackLoop, flushedBlocks, flushedBlock]
    cases resolveForWriteback fork lblk with
    | none =>
      rw [Option.bind_none, Option.bind_none, Option.bind_none, joined_none]
      exact .none
    | some resolved =>
      cases resolved with
      | none =>
        show Covers _ (joined _ (joined (some []) _))
        rw [joined_nil_left]
        exact (flushRun_covers startPblk runBlocks).bind hempty
      | some pblk =>
        show Covers (if runBlocks = 0 then _ else _) (joined _ (joined ([pblk].mapM _) _))
        split
        case isTrue hzero =>
          rw [hzero, range'_zero, mapM_nil,
            show (pure [] : Option (List ℕ)) = some [] from rfl, joined_nil_left]
          exact hone pblk
        case isFalse =>
          split
          case isTrue hnext =>
            have hrun := ih startPblk (runBlocks + 1) (lblk + 1)
            rwa [range'_concat, Nat.one_mul, ← hnext, mapM_append_eq, joined_assoc] at hrun
          case isFalse => exact (flushRun_covers startPblk runBlocks).bind (hone pblk)

lemma umwriteback_covers (lblk nblocks) :
    Covers (umwriteback fork files lblk nblocks) (flushedBlocks fork files lblk nblocks) := by
  have h := @umwritebackLoop_covers _ fork files 0 0 lblk nblocks
  rwa [range'_zero, mapM_nil, show (pure [] : Option (List ℕ)) = some [] from rfl,
    joined_nil_left] at h

lemma writebackBlockwise_covers (lblk nblocks) :
    Covers (writebackBlockwise fork files lblk nblocks)
      (flushedBlocks fork files lblk nblocks) := by
  induction nblocks generalizing lblk with
  | zero => exact .nil
  | succ nblocks ih =>
    have hone := @umwriteback_covers _ fork files lblk 1
    change Covers _ (joined (flushedBlock fork files lblk) (some [])) at hone
    rw [joined_nil_right] at hone
    exact hone.bind (ih (lblk + 1))

end Writeback

/-! ### Batched and single-block calls -/

/-- A batched write that returns leaves the disk of single-block writes, each barrier claimed and
released once; one that fails holds no barrier. A read of at most `PG_IOV_MAX` blocks is a loop of
single-block reads, and a longer one is if it returns. A writeback flushes the blocks of
single-block writebacks. Every vectored call is legal. -/
theorem batched_eq_blockwise (fork : Fork β) (files : Files β) (disk : ℕ → β)
    (blocknum physicalNblocks : ℕ) (buffers : List β) (nblocks : ℕ) :
    (wp (umwritev fork.map blocknum buffers) (Frame.init disk physicalNblocks)
      (fun _ t => t.disk = writeBlockwise fork.map blocknum disk buffers ∧ Settled t
        ∧ ∀ i < buffers.length, t.claims (blocknum + i) = 1)
      (fun _ t => Settled t))
    ∧ ((∀ i < buffers.length, fork.map (blocknum + i) ≠ none) →
      Returns (umwritev fork.map blocknum buffers) (Frame.init disk physicalNblocks))
    ∧ (nblocks ≤ pgIovMax →
      umreadv fork files blocknum nblocks = readBlockwise fork files blocknum nblocks)
    ∧ (∀ r, umreadv fork files blocknum nblocks = some r →
      readBlockwise fork files blocknum nblocks = some r)
    ∧ (∀ pblk k bs, umfileReadv fork files pblk k = some bs → PhysicalCall.Legal ⟨pblk, k⟩)
    ∧ (umwriteback fork files blocknum nblocks).map covered
      = (writebackBlockwise fork files blocknum nblocks).map covered
    ∧ ∀ calls, umwriteback fork files blocknum nblocks = some calls →
      ∀ c ∈ calls, c.start % relsegSize + c.count ≤ relsegSize := by
  have hwriteback := @umwriteback_covers _ fork files blocknum nblocks
  have hsingle := @writebackBlockwise_covers _ fork files blocknum nblocks
  exact ⟨wp_umwritev fork.map blocknum buffers disk physicalNblocks,
    returns_umwritev disk physicalNblocks, umreadv_eq_readBlockwise, fun _ => umreadv_some,
    fun _ _ _ => legal_of_umfileReadv,
    hwriteback.1.trans hsingle.1.symm, hwriteback.2⟩

/-- Three blocks, mapped to 5, 6 and 3. -/
def scatteredFork : Fork ℕ where
  map lblk := [5, 6, 3][lblk]?
  logicalNblocks := some 3
  inRecovery := false
  auxiliary := false
  zeroDamagedPages := false
  owned _ := none
  zero := 0
  ensure files _ := some files

def numberedFiles : Files ℕ where
  content := id
  segmentBlocks segno := if segno = 0 then some 8 else none
  broken _ := false

theorem batched_eq_blockwise_scattered :
    (∃ t, .done () t ∈ umwritev scatteredFork.map 0 [70, 71, 72] (Frame.init id 8)
      ∧ t.disk 5 = 70 ∧ t.disk 6 = 71 ∧ t.disk 3 = 72 ∧ t.claims 2 = 1 ∧ t.releases 2 = 1)
    ∧ umreadv scatteredFork numberedFiles 0 3 = readBlockwise scatteredFork numberedFiles 0 3
    ∧ (umreadv scatteredFork numberedFiles 0 3).map Prod.fst = some [5, 6, 3] := by
  obtain ⟨hwrite, hreturns, hread, -⟩ :=
    batched_eq_blockwise scatteredFork numberedFiles id 0 8 [70, 71, 72] 3
  obtain ⟨⟨⟩, t, ht⟩ := hreturns (by decide)
  obtain ⟨hdisk, hsettled, hclaims⟩ := hwrite.done ht
  have hclaim : t.claims 2 = 1 := hclaims 2 (by decide)
  refine ⟨⟨t, ht, ?_, ?_, ?_, hclaim, (hsettled.1 2).2.trans hclaim⟩, hread (by decide), by rfl⟩
  all_goals
    rw [hdisk]
    rfl

def plainFork : Fork Unit where
  map := some
  logicalNblocks := some relsegSize
  inRecovery := false
  auxiliary := false
  zeroDamagedPages := false
  owned _ := none
  zero := ()
  ensure files _ := some files

def plainFiles : Files Unit where
  content _ := ()
  segmentBlocks segno := if segno = 0 then some relsegSize else none
  broken _ := false

/-- One block more than `PG_IOV_MAX`, mapped side by side: the read is refused, single-block reads
return; the writeback is one call. -/
theorem iov_max_not_kept : (umreadv plainFork plainFiles 0 (pgIovMax + 1) = none
      ∧ (readBlockwise plainFork plainFiles 0 (pgIovMax + 1)).isSome)
    ∧ ∃ c, umwriteback plainFork plainFiles 0 (pgIovMax + 1) = some [c] ∧ ¬ c.Legal := by
  refine ⟨⟨?_, by decide +kernel⟩, ⟨0, pgIovMax + 1⟩, by decide +kernel, fun hlegal => ?_⟩
  · rfl
  · exact absurd hlegal.1 (Nat.not_succ_le_self pgIovMax)

end Umbra.RunBatching
