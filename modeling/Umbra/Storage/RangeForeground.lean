import Umbra.Storage.RangeRedo
import Mathlib.Algebra.GroupWithZero.Nat

/-!
# The range path in the foreground

Every outcome of `um_try_pure_firstborn_range_remap_zeroextend`: it declines and leaves no claim, it
returns with the whole range mapped to zero pages and logged, or it raises. A raise in the
reservation loop leaves the claims that were made, since the error handler is installed behind the
loop.
-/

namespace Umbra.RangeBirth

open Foundation Foundation.Raising Function Umbra.RangeBirth.State List

variable {π : Type} [Zero π]

/-! ### Lookups and reservations -/

lemma wp_checkUnowned (s : State π) (lblk n : ℕ) :
    wp (checkUnowned lblk n) s
      (fun unowned t => t = s ∧ (unowned = true → ∀ l, lblk ≤ l → l < lblk + n → s.claims l = none))
      (fun site t => (∃ l, site = .lookup l) ∧ t = s) := by
  induction n generalizing lblk with
  | zero =>
    rw [checkUnowned, wp_pure]
    exact ⟨rfl, fun _ l hlow hhigh => by omega⟩
  | succ n ih =>
    rw [checkUnowned, wp_bind, wp_mayRaise, wp_bind, wp_read]
    refine ⟨?_, ⟨lblk, rfl⟩, rfl⟩
    split
    case isTrue =>
      rw [wp_pure]
      exact ⟨rfl, nofun⟩
    case isFalse howned =>
      refine (ih (lblk + 1)).imp ?_
      rintro unowned t ⟨ht, hrest⟩
      refine ⟨ht, fun hu l hlow hhigh => ?_⟩
      rcases eq_or_lt_of_le hlow with rfl | hlt
      · simp only [id, Bool.or_eq_true, not_or] at howned
        exact Option.not_isSome_iff_eq_none.mp howned.2
      · exact hrest hu l hlt (by omega)

def reservedState (env : Environment) (blocknum : ℕ) (s : State π) : ℕ → State π
  | 0 => s
  | i + 1 => (reservedState env blocknum s i).reserve (blocknum + i) (env.skip i)

section Reserve

variable {env : Environment} {blocknum : ℕ} {s : State π}

lemma reservedState_eq (i) : reservedState env blocknum s i = { s with
      reservedNextFree := (reservedState env blocknum s i).reservedNextFree
      claims := (reservedState env blocknum s i).claims } := by
  induction i with
  | zero => rfl
  | succ i ih =>
    rw [reservedState, reserve]
    rw [ih]

lemma claims_reservedState_of_not_mem {i l} (h : ¬ (blocknum ≤ l ∧ l < blocknum + i)) :
    (reservedState env blocknum s i).claims l = s.claims l := by
  induction i with
  | zero => rfl
  | succ i ih =>
    have hne : l ≠ blocknum + i := by omega
    exact (update_of_ne hne ..).trans (ih (by omega))

lemma claims_reservedState_isSome {i j} (h : j < i) :
    ((reservedState env blocknum s i).claims (blocknum + j)).isSome := by
  induction i with
  | zero => cases h
  | succ i ih =>
    rw [reservedState, reserve]
    by_cases hj : j = i
    · subst hj
      simp only [update_self, Option.isSome_some]
    · simp only [update_of_ne (show blocknum + j ≠ blocknum + i by omega)]
      exact ih (by omega)

lemma release_reservedState {i} (hfree : ∀ l, blocknum ≤ l → l < blocknum + i → s.claims l = none) :
    ((reservedState env blocknum s i).release blocknum i).claims = s.claims := by
  funext l
  simp only [release]
  split
  case isTrue hmem => exact (hfree l hmem.1 hmem.2).symm
  case isFalse hmem => exact claims_reservedState_of_not_mem hmem

lemma wp_reserveAll (i n) :
    wp (reserveAll env blocknum i n) (reservedState env blocknum s i)
      (fun reserved t =>
        (reserved = none ∧ ∃ j ≤ i + n, t = (reservedState env blocknum s j).release blocknum j) ∨
        reserved = some (handedOut env (reservedState env blocknum s i).reservedNextFree i n)
          ∧ t = reservedState env blocknum s (i + n))
      (fun site t =>
        (∃ j < i + n, site = .reserve j ∧ t = reservedState env blocknum s j) ∨
        ∃ j < i + n, site = .preallocate j ∧ t = reservedState env blocknum s (j + 1)) := by
  induction n generalizing i with
  | zero =>
    rw [reserveAll, wp_pure]
    exact .inr ⟨rfl, rfl⟩
  | succ n ih =>
    rw [reserveAll, wp_bind, wp_mayRaise]
    refine ⟨?_, .inl ⟨i, by omega, rfl, rfl⟩⟩
    split
    case isTrue =>
      rw [wp_bind, wp_modify, wp_pure]
      exact .inl ⟨rfl, i, by omega, rfl⟩
    case isFalse =>
      rw [wp_bind, wp_read, wp_bind, wp_modify, wp_bind, wp_mayRaise]
      refine ⟨?_, .inr ⟨i, by omega, rfl, rfl⟩⟩
      rw [wp_bind]
      refine (ih (i + 1)).mono ?_ ?_
      · rintro reserved t (⟨rfl, j, hj, rfl⟩ | ⟨rfl, rfl⟩)
        · rw [wp_pure]
          exact .inl ⟨rfl, j, by omega, rfl⟩
        · rw [wp_pure]
          refine .inr ⟨rfl, ?_⟩
          rw [Nat.add_right_comm i 1 n, Nat.add_assoc]
      · rintro site t (⟨j, hj, rfl, rfl⟩ | ⟨j, hj, rfl, rfl⟩)
        · exact .inl ⟨j, by omega, rfl, rfl⟩
        · exact .inr ⟨j, by omega, rfl, rfl⟩

end Reserve

lemma length_handedOut (env next i n) : (handedOut env next i n).length = n := by
  induction n generalizing next i with
  | zero => rfl
  | succ n ih => rw [handedOut, length_cons, ih]

lemma le_of_mem_handedOut {env next i n p} (h : p ∈ handedOut env next i n) : next ≤ p := by
  induction n generalizing next i with
  | zero => cases h
  | succ n ih =>
    rcases mem_cons.mp h with rfl | h
    · exact Nat.le_add_right ..
    · have hle := ih h
      omega

lemma nodup_handedOut (env next i n) : (handedOut env next i n).Nodup := by
  induction n generalizing next i with
  | zero => exact nodup_nil
  | succ n ih =>
    refine nodup_cons.mpr ⟨fun hmem => ?_, ih _ _⟩
    exact Nat.not_succ_le_self _ (le_of_mem_handedOut hmem)

/-! ### Chunks -/

section Chunks

variable {env : Environment} {c : ℕ × List ℕ} {p : ℕ} {cs : List (ℕ × List ℕ)}

def Site.InChunk (site : Site) : Prop := site = .materialize ∨ site = .apply

def chunkState (env : Environment) (s : State π) (chunk : ℕ × List ℕ) : State π :=
  applyReservedRangeRemap
    { s with
      wal := if env.walInsertEnabled then s.wal ++ [chunkRecord chunk] else s.wal
      files := s.files.materializeZeroRuns 0 0 chunk.2 } chunk.1 chunk.2

lemma wp_setMappings (s : State π) (first : ℕ) (ps : List ℕ) :
    wp (setMappings first ps) s (fun _ t => t = s.setMappings first ps)
      (fun site t => site.InChunk ∧ t.claims = s.claims) := by
  induction ps generalizing s first with
  | nil =>
    rw [setMappings, wp_pure]
    rfl
  | cons p ps ih =>
    rw [setMappings, wp_bind, wp_mayRaise, wp_bind, wp_modify]
    exact ⟨ih (s.setMapping first p) (first + 1), .inr rfl, rfl⟩

lemma claims_ensurePhysicalNblocks (s : State π) (n : ℕ) :
    (s.ensurePhysicalNblocks n).claims = s.claims := by
  rw [ensurePhysicalNblocks_eq]

lemma wp_applyChunk (s : State π) (chunk : ℕ × List ℕ) :
    wp (applyChunk chunk) s
      (fun _ t => t = applyReservedRangeRemap
        { s with files := s.files.materializeZeroRuns 0 0 chunk.2 } chunk.1 chunk.2)
      (fun site t => site.InChunk ∧ t.claims = s.claims) := by
  rw [applyChunk, wp_bind, wp_mayRaise, wp_bind, wp_modify, wp_bind, wp_mayRaise, wp_bind,
    wp_modify, wp_bind]
  refine ⟨⟨?_, .inl rfl, rfl⟩, .inl rfl, rfl⟩
  refine (wp_setMappings _ chunk.1 chunk.2).mono ?_ fun site t ht => ?_
  · rintro - t rfl
    rw [wp_bind, wp_mayRaise, wp_modify]
    refine ⟨rfl, .inr rfl, ?_⟩
    rw [setMappings_eq]
    exact claims_ensurePhysicalNblocks _ _
  · refine ⟨ht.1, ?_⟩
    rw [ht.2, claims_ensurePhysicalNblocks]

lemma wp_logAndApplyChunk (s : State π) (chunk : ℕ × List ℕ) :
    wp (logAndApplyChunk env chunk) s (fun _ t => t = chunkState env s chunk)
      (fun site t => env.walInsertEnabled = false ∧ site.InChunk ∧ t.claims = s.claims) := by
  rw [logAndApplyChunk]
  cases hwal : env.walInsertEnabled with
  | true =>
    simp only [if_true, wp_critical, wp_bind, wp_modify]
    refine (wp_applyChunk _ chunk).mono ?_ fun _ _ _ => trivial
    rintro - t rfl
    simp only [chunkState, hwal, if_true]
  | false =>
    simp only [Bool.false_eq_true, if_false]
    refine (wp_applyChunk s chunk).mono ?_ fun _ _ h => ⟨trivial, h⟩
    rintro - t rfl
    simp only [chunkState, hwal, Bool.false_eq_true, if_false]

lemma chunksFrom_range {fuel first ps} :
    ∀ c ∈ chunksFrom fuel first ps, first ≤ c.1 ∧ c.1 + c.2.length ≤ first + ps.length := by
  induction fuel generalizing first ps with
  | zero =>
    cases ps with
    | nil => exact forall_mem_nil _
    | cons => exact forall_mem_nil _
  | succ fuel ih =>
    cases ps with
    | nil => exact forall_mem_nil _
    | cons p ps =>
      refine forall_mem_cons.mpr ⟨⟨le_rfl, ?_⟩, fun c hc => ?_⟩
      · exact Nat.add_le_add_left (length_take_le' ..) _
      · have hrange := ih c hc
        have hdrop : ((p :: ps).drop uint16Max).length ≠ 0 := by
          intro hzero
          rw [length_eq_zero_iff.mp hzero] at hc
          cases fuel <;> cases hc
        rw [length_drop] at hrange hdrop
        omega

lemma exists_chunk {fuel first p ps} (hfuel : ps.length ≤ fuel) (hp : p ∈ ps) :
    ∃ c ∈ chunksFrom fuel first ps, p ∈ c.2 := by
  induction fuel generalizing first ps with
  | zero =>
    rw [length_eq_zero_iff.mp (Nat.le_zero.mp hfuel)] at hp
    cases hp
  | succ fuel ih =>
    obtain ⟨q, qs, rfl⟩ := exists_cons_of_ne_nil (ne_nil_of_mem hp)
    rw [← take_append_drop uint16Max (q :: qs), mem_append] at hp
    rcases hp with hp | hp
    · exact ⟨_, mem_cons_self, hp⟩
    · have hdrop : ((q :: qs).drop uint16Max).length ≤ fuel := by
        rw [length_drop]
        simp only [uint16Max]
        omega
      obtain ⟨c, hc, hpc⟩ := ih hdrop hp
      exact ⟨c, mem_cons_of_mem _ hc, hpc⟩

def SameMap (s t : State π) : Prop :=
  s.map = t.map ∧ s.logicalNblocks = t.logicalNblocks ∧ s.nextFree = t.nextFree
    ∧ s.physicalNblocks = t.physicalNblocks ∧ s.claims = t.claims

lemma SameMap.chunkState {s t : State π} (h : SameMap s t) (c) :
    SameMap (chunkState env s c) (t.applyReservedRangeRemap c.1 c.2) := by
  obtain ⟨hmap, hlogical, hnext, hphys, hclaims⟩ := h
  rw [RangeBirth.chunkState, applyReservedRangeRemap_eq, applyReservedRangeRemap_eq]
  simp only [SameMap, hmap, hlogical, hnext, hphys, hclaims, and_self]

lemma SameMap.foldl {s t : State π} (h : SameMap s t) (cs : List (ℕ × List ℕ)) :
    SameMap (cs.foldl (RangeBirth.chunkState env) s)
      (cs.foldl (fun t c => t.applyReservedRangeRemap c.1 c.2) t) := by
  induction cs generalizing s t with
  | nil => exact h
  | cons c cs ih => exact ih (h.chunkState c)

lemma isZero_chunkState_of_mem (s : State π) (h : p ∈ c.2) :
    (chunkState env s c).files.IsZero p := by
  rw [chunkState, applyReservedRangeRemap_eq]
  exact (Files.isZero_materializeZeroRuns (.inl h)).zeroMissing _ _

lemma isZero_foldl_of_isZero {s : State π} (h : s.files.IsZero p) (cs : List (ℕ × List ℕ)) :
    (cs.foldl (chunkState env) s).files.IsZero p := by
  induction cs generalizing s with
  | nil => exact h
  | cons c cs ih =>
    refine ih ?_
    rw [chunkState, applyReservedRangeRemap_eq]
    exact (h.materializeZeroRuns 0 0 c.2).zeroMissing _ _

variable (s : State π)
include s

lemma isZero_foldl (hc : c ∈ cs) (hp : p ∈ c.2) : (cs.foldl (chunkState env) s).files.IsZero p := by
  induction cs generalizing s with
  | nil => cases hc
  | cons c' cs ih =>
    rcases mem_cons.mp hc with rfl | hc
    · exact isZero_foldl_of_isZero (isZero_chunkState_of_mem s hp) cs
    · exact ih (chunkState env s c') hc

lemma wal_foldl (cs : List (ℕ × List ℕ)) : (cs.foldl (chunkState env) s).wal
      = s.wal ++ if env.walInsertEnabled then cs.map chunkRecord else [] := by
  induction cs generalizing s with
  | nil => cases env.walInsertEnabled <;> simp
  | cons c cs ih =>
    rw [foldl_cons, ih]
    have hwal : (chunkState env s c).wal
        = if env.walInsertEnabled then s.wal ++ [chunkRecord c] else s.wal := by
      rw [chunkState, applyReservedRangeRemap_eq]
    rw [hwal]
    cases env.walInsertEnabled <;> simp

lemma claims_foldl_of_not_mem {l} (h : ∀ c ∈ cs, ¬ (c.1 ≤ l ∧ l < c.1 + c.2.length)) :
    (cs.foldl (chunkState env) s).claims l = s.claims l := by
  induction cs generalizing s with
  | nil => rfl
  | cons c cs ih =>
    have hc := forall_mem_cons.mp h
    rw [foldl_cons, ih _ hc.2, chunkState, applyReservedRangeRemap_eq]
    exact if_neg hc.1

lemma wp_forEach_chunks (chunks) :
    wp (forEach chunks (logAndApplyChunk env)) s
      (fun _ t => t = chunks.foldl (chunkState env) s)
      (fun site t => env.walInsertEnabled = false ∧ site.InChunk ∧
        ∃ done, done ⊆ chunks ∧ t.claims = (done.foldl (chunkState env) s).claims) := by
  refine wp_forEach (fun rest t => ∃ done, chunks = done ++ rest
    ∧ t = done.foldl (chunkState env) s) ⟨[], rfl, rfl⟩ ?_ ?_
  · rintro c rest t ⟨done, hsplit, rfl⟩
    refine (wp_logAndApplyChunk _ c).mono ?_ ?_
    · rintro - u rfl
      refine ⟨done ++ [c], ?_, ?_⟩
      · rw [hsplit, append_assoc, singleton_append]
      · rw [foldl_append, foldl_cons, foldl_nil]
    · rintro site u ⟨hwal, hsite, hclaims⟩
      exact ⟨hwal, hsite, done, hsplit ▸ subset_append_left .., hclaims⟩
  · rintro t ⟨done, hsplit, rfl⟩
    rw [hsplit, append_nil]

end Chunks

/-! ### All outcomes -/

section Outcomes

variable (env : Environment) (blocknum nblocks : ℕ) (s : State π)

abbrev reservedPblks : List ℕ := handedOut env s.reservedNextFree 0 nblocks

def appliedState : State π :=
  (chunksFrom nblocks blocknum (reservedPblks env nblocks s)).foldl (chunkState env)
    (reservedState env blocknum s nblocks)

def Unclaimed : Prop := ∀ l, blocknum ≤ l → l < blocknum + nblocks → s.claims l = none

lemma wp_rangeZeroextend :
    wp (rangeZeroextend env blocknum nblocks) s
      (fun taken t => (taken = false ∧ t.claims = s.claims ∧ t.map = s.map ∧ t.wal = s.wal) ∨
        taken = true ∧ 2 ≤ nblocks ∧ Unclaimed blocknum nblocks s
          ∧ t = appliedState env blocknum nblocks s)
      (fun site t => (∃ l, site = .lookup l) ∧ t = s ∨ Unclaimed blocknum nblocks s ∧
          ((∃ j < nblocks, site = .reserve j ∧ t = reservedState env blocknum s j) ∨
          (∃ j < nblocks, site = .preallocate j ∧ t = reservedState env blocknum s (j + 1)) ∨
          env.walInsertEnabled = false ∧ site.InChunk ∧ t.claims = s.claims)) := by
  rw [rangeZeroextend]
  split
  case isTrue =>
    rw [wp_pure]
    exact .inl ⟨rfl, rfl, rfl, rfl⟩
  case isFalse hgo =>
    have htwo : 2 ≤ nblocks := by
      simp only [Bool.or_eq_true, decide_eq_true_eq, not_or, not_lt] at hgo
      exact hgo.2
    rw [wp_bind]
    refine (wp_checkUnowned s blocknum nblocks).mono ?_ fun site t h => .inl h
    rintro unowned t ⟨rfl, hfree⟩
    split
    case isFalse =>
      rw [wp_pure]
      exact .inl ⟨rfl, rfl, rfl, rfl⟩
    case isTrue hunowned =>
      have hunclaimed : Unclaimed blocknum nblocks t := hfree hunowned
      have hreserve := @wp_reserveAll _ _ env blocknum t 0 nblocks
      rw [zero_add] at hreserve
      rw [wp_bind]
      refine hreserve.mono ?_ ?_
      · rintro reserved u (⟨rfl, j, hj, rfl⟩ | ⟨rfl, rfl⟩)
        · rw [wp_pure]
          refine .inl ⟨rfl, release_reservedState fun l hlow hhigh =>
            hunclaimed l hlow (by omega), ?_, ?_⟩
          · rw [reservedState_eq]
            rfl
          · rw [reservedState_eq]
            rfl
        · rw [wp_bind, wp_onError]
          refine (wp_forEach_chunks _ _).mono ?_ ?_
          · rintro - v rfl
            rw [wp_pure, length_handedOut]
            exact .inr ⟨rfl, htwo, hunclaimed, rfl⟩
          · rintro site v ⟨hwal, hsite, done, hsub, hclaims⟩
            refine .inr ⟨hunclaimed, .inr (.inr ⟨hwal, hsite, funext fun l => ?_⟩)⟩
            simp only [release]
            split
            case isTrue hmem => exact (hunclaimed l hmem.1 hmem.2).symm
            case isFalse hmem =>
              rw [hclaims, claims_foldl_of_not_mem, claims_reservedState_of_not_mem hmem]
              intro c hc hcl
              have hrange := chunksFrom_range c (hsub hc)
              rw [length_handedOut] at hrange
              omega
      · rintro site u (⟨j, hj, rfl, rfl⟩ | ⟨j, hj, rfl, rfl⟩)
        · exact .inr ⟨hunclaimed, .inl ⟨j, hj, rfl, rfl⟩⟩
        · exact .inr ⟨hunclaimed, .inr (.inl ⟨j, hj, rfl, rfl⟩)⟩

end Outcomes

/-! ### The result -/

def Record.count : Record → ℕ
  | .mapSet .. => 1
  | .rangeRemap entries => entries.length
  | .rangeRemapCompact _ _ count => count

lemma count_chunkRecord (chunk) : (chunkRecord chunk).count = chunk.2.length := by
  rw [chunkRecord]
  split
  · rfl
  · simp [Record.count]

/-- Replayed in the state `d`, the records install the pairs with zero pages, and the mapping and
the counters of the per-block path. -/
structure RedoAgrees (d : State π) (records : List Record) (blocknum : ℕ) (ps : List ℕ) : Prop where
  pairs : ∀ (i : ℕ) (hi : i < ps.length),
    (records.foldl redo d).map (blocknum + i) = some ps[i]
  zero : ∀ p ∈ ps, (records.foldl redo d).files.IsZero p
  map : (records.foldl redo d).map = ((mapSets blocknum ps).foldl redo d).map
  logicalNblocks : (records.foldl redo d).logicalNblocks
    = ((mapSets blocknum ps).foldl redo d).logicalNblocks
  nextFree : (records.foldl redo d).nextFree
    = ((mapSets blocknum ps).foldl redo d).nextFree
  physicalNblocks : (records.foldl redo d).physicalNblocks
    = ((mapSets blocknum ps).foldl redo d).physicalNblocks

/-- The state `t` has the whole range, as the per-block path would, and its records are faithful. -/
structure Published (env : Environment) (s d : State π) (blocknum nblocks : ℕ) (t : State π) :
    Prop where
  nodup : (reservedPblks env nblocks s).Nodup
  claims : t.claims = s.claims
  map : t.map = ((mapSets blocknum (reservedPblks env nblocks s)).foldl redo s).map
  logicalNblocks : t.logicalNblocks
    = ((mapSets blocknum (reservedPblks env nblocks s)).foldl redo s).logicalNblocks
  nextFree : t.nextFree
    = ((mapSets blocknum (reservedPblks env nblocks s)).foldl redo s).nextFree
  physicalNblocks : t.physicalNblocks
    = ((mapSets blocknum (reservedPblks env nblocks s)).foldl redo s).physicalNblocks
  zero : ∀ p ∈ reservedPblks env nblocks s, t.files.IsZero p
  logged : env.walInsertEnabled = true → ∃ records, t.wal = s.wal ++ records
    ∧ (∀ r ∈ records, r.count ≤ uint16Max)
    ∧ RedoAgrees d records blocknum (reservedPblks env nblocks s)

/-- What an outcome of the range path has to leave, with its records replayed in `d`. -/
def Faithful (env : Environment) (s d : State π) (blocknum nblocks : ℕ) :
    Outcome (State π) Site Bool → Prop
  | .done true t => Published env s d blocknum nblocks t
  | .done false t => t.claims = s.claims ∧ t.map = s.map ∧ t.wal = s.wal
  | .raised _ t => t.claims = s.claims
      ∧ (env.walInsertEnabled = true → t.map = s.map ∧ t.wal = s.wal)

/-- The error is not one of the reservation loop with a claim made, and redo finds every block
ready. -/
def Sound (env : Environment) (s d : State π) (nblocks : ℕ) : Outcome (State π) Site Bool → Prop
  | .done true _ => env.walInsertEnabled = true →
      ∀ p ∈ reservedPblks env nblocks s, Ready d (reservedPblks env nblocks s) p
  | .done false _ => True
  | .raised (.reserve i) _ => i = 0
  | .raised (.preallocate _) _ => False
  | .raised (.lookup _) _ => True
  | .raised .materialize _ => True
  | .raised .apply _ => True

section Result

variable {env : Environment} {blocknum nblocks : ℕ} {s d : State π}

lemma redoAgrees_iff {ps} (hps : ps ≠ []) :
    RedoAgrees d ((chunksFrom ps.length blocknum ps).map chunkRecord) blocknum ps
      ↔ ∀ p ∈ ps, Ready d ps p := by
  have hredo := foldl_redo_chunkRecords d blocknum (le_refl ps.length) hps
  obtain ⟨hmap, hlogical, hnext, hphys⟩ := foldl_redo_mapSets d blocknum hps
  constructor
  · intro h p hp
    have hzero := h.zero p hp
    rwa [hredo, isZero_applyReservedRangeRemap] at hzero
  · intro h
    constructor
    · intro i hi
      rw [hredo, applyReservedRangeRemap_eq]
      exact mapRange_get hi
    · intro p hp
      rw [hredo, isZero_applyReservedRangeRemap]
      exact h p hp
    · rw [hredo, hmap, applyReservedRangeRemap_eq]
    · rw [hredo, hlogical, applyReservedRangeRemap_eq]
    · rw [hredo, hnext, applyReservedRangeRemap_eq]
    · rw [hredo, hphys, applyReservedRangeRemap_eq]

lemma reservedPblks_ne_nil (htwo : 2 ≤ nblocks) : reservedPblks env nblocks s ≠ [] := by
  intro hnil
  have hlength : (reservedPblks env nblocks s).length = nblocks := length_handedOut ..
  rw [hnil, length_nil] at hlength
  omega

lemma sameMap_appliedState (htwo : 2 ≤ nblocks) :
    SameMap (appliedState env blocknum nblocks s)
      ((reservedState env blocknum s nblocks).applyReservedRangeRemap blocknum
        (reservedPblks env nblocks s)) := by
  have hlength : (reservedPblks env nblocks s).length = nblocks := length_handedOut ..
  have hps : reservedPblks env nblocks s ≠ [] := reservedPblks_ne_nil htwo
  rw [← foldl_chunksFrom _ blocknum (le_of_eq hlength) hps]
  exact SameMap.foldl ⟨rfl, rfl, rfl, rfl, rfl⟩ _

lemma published_appliedState_iff (htwo : 2 ≤ nblocks) (hfree : Unclaimed blocknum nblocks s) :
    Published env s d blocknum nblocks (appliedState env blocknum nblocks s)
      ↔ (env.walInsertEnabled = true →
        ∀ p ∈ reservedPblks env nblocks s, Ready d (reservedPblks env nblocks s) p) := by
  have hlength : (reservedPblks env nblocks s).length = nblocks := length_handedOut ..
  have hps : reservedPblks env nblocks s ≠ [] := reservedPblks_ne_nil htwo
  have hwal : (appliedState env blocknum nblocks s).wal = s.wal ++ if env.walInsertEnabled then
      (chunksFrom nblocks blocknum (reservedPblks env nblocks s)).map chunkRecord else [] := by
    rw [appliedState, wal_foldl, reservedState_eq]
  have hredo := @redoAgrees_iff _ _ blocknum d _ hps
  rw [hlength] at hredo
  constructor
  · rintro ⟨-, -, -, -, -, -, -, hlogged⟩ henabled
    obtain ⟨records, hrecords, -, hagrees⟩ := hlogged henabled
    rw [hwal, if_pos henabled, append_cancel_left_eq] at hrecords
    exact hredo.mp (hrecords ▸ hagrees)
  · intro hready
    obtain ⟨hmap, hlogical, hnext, hphys, hclaims⟩ :=
      @sameMap_appliedState _ _ env blocknum nblocks s htwo
    obtain ⟨hmap', hlogical', hnext', hphys'⟩ := foldl_redo_mapSets s blocknum hps
    rw [applyReservedRangeRemap_eq, reservedState_eq] at hmap hlogical hnext hphys
    refine ⟨nodup_handedOut .., ?_, hmap.trans hmap'.symm, hlogical.trans hlogical'.symm,
      hnext.trans hnext'.symm, hphys.trans hphys'.symm, fun p hp => ?_, fun henabled => ?_⟩
    · rw [hclaims, applyReservedRangeRemap_eq, hlength]
      exact release_reservedState hfree
    · obtain ⟨c, hc, hpc⟩ := @exists_chunk nblocks blocknum p _ (le_of_eq hlength) hp
      exact isZero_foldl _ hc hpc
    · refine ⟨_, hwal, ?_, ?_⟩
      · rw [if_pos henabled]
        intro r hr
        obtain ⟨c, hc, rfl⟩ := mem_map.mp hr
        rw [count_chunkRecord]
        exact (chunksFrom_bound c hc).2
      · rw [if_pos henabled]
        exact hredo.mpr (hready henabled)

lemma claims_reservedState_ne {j} (hj : j < nblocks) (hfree : Unclaimed blocknum nblocks s) :
    (reservedState env blocknum s (j + 1)).claims ≠ s.claims := by
  intro heq
  have hsome := @claims_reservedState_isSome _ _ env blocknum s (j + 1) 0 (Nat.succ_pos j)
  rw [heq, hfree (blocknum + 0) le_rfl (by omega)] at hsome
  cases hsome

/-- The range path is faithful exactly if the outcome is not an error of the reservation loop behind
a first claim, and redo finds each block of a logged range zeroed or missing within its reach. -/
theorem range_birth_faithful_iff {o : Outcome (State π) Site Bool}
    (ho : o ∈ rangeZeroextend env blocknum nblocks s) :
    Faithful env s d blocknum nblocks o ↔ Sound env s d nblocks o := by
  have hwp := wp_rangeZeroextend env blocknum nblocks s
  cases o with
  | done =>
    obtain ⟨rfl, hsame⟩ | ⟨rfl, htwo, hfree, rfl⟩ := hwp.done ho
    · exact iff_of_true hsame trivial
    · exact published_appliedState_iff htwo hfree
  | raised site t =>
    obtain ⟨⟨l, rfl⟩, rfl⟩ | ⟨hfree,
      ⟨j, hj, rfl, rfl⟩ | ⟨j, hj, rfl, rfl⟩ | ⟨hwal, hsite, hclaims⟩⟩ :=
      hwp.raised ho
    · exact iff_of_true ⟨rfl, fun _ => ⟨rfl, rfl⟩⟩ trivial
    · cases j with
      | zero => exact iff_of_true ⟨rfl, fun _ => ⟨rfl, rfl⟩⟩ rfl
      | succ j =>
        refine iff_of_false (fun h => ?_) (Nat.succ_ne_zero j)
        exact claims_reservedState_ne (Nat.lt_of_succ_lt hj) hfree h.1
    · exact iff_of_false (fun h => claims_reservedState_ne hj hfree h.1) not_false
    · have hfaithful : Faithful env s d blocknum nblocks (.raised site t) :=
        ⟨hclaims, fun henabled => by cases hwal.symm.trans henabled⟩
      obtain rfl | rfl := hsite
      · exact iff_of_true hfaithful trivial
      · exact iff_of_true hfaithful trivial

end Result

/-! ### A stale page, and a lost claim -/

def emptyFork : State ℕ where
  map _ := none
  files := ⟨fun _ => 0, fun _ => 0, fun _ _ => rfl⟩
  logicalNblocks := 0
  nextFree := 0
  physicalNblocks := 0
  reservedNextFree := 0
  claims _ := none
  wal := []

/-- A block was reserved and written, and the server crashed before the record of the birth. -/
def stalePage : State ℕ :=
  { emptyFork with
    files :=
      { length := fun segno => if segno = 0 then 1 else 0
        content := fun p => if p = 0 then 7 else 0
        content_of_ge := fun p hp => by
          refine if_neg ?_
          rintro rfl
          cases hp } }

def quietEnvironment : Environment where
  inRecovery := false
  walInsertEnabled := true
  skip _ := 0
  refused _ := false

theorem range_birth_faithful_iff_emptyFork :
    ∃ t, .done true t ∈ rangeZeroextend quietEnvironment 0 2 emptyFork
      ∧ Faithful quietEnvironment emptyFork emptyFork 0 2 (.done true t) := by
  have hmem : ∃ t, .done true t ∈ rangeZeroextend quietEnvironment 0 2 emptyFork :=
    ⟨_, mem_of_head? rfl⟩
  obtain ⟨t, ht⟩ := hmem
  refine ⟨t, ht, (range_birth_faithful_iff ht).mpr fun _ p hp => ?_⟩
  have hp : p ∈ [0, 1] := hp
  refine ⟨rfl, .inr ⟨1, Nat.zero_le 1, by decide, ?_⟩⟩
  revert p
  decide

/-- Redo maps the stale page; and an error in the second reservation leaves the claim of the first.
-/
theorem range_birth_unfaithful : (∃ t, .done true t ∈ rangeZeroextend quietEnvironment 0 2 emptyFork
      ∧ ¬ Faithful quietEnvironment emptyFork stalePage 0 2 (.done true t)) ∧
    ∃ t, .raised (.reserve 1) t ∈ rangeZeroextend quietEnvironment 0 2 emptyFork
      ∧ ¬ Faithful quietEnvironment emptyFork emptyFork 0 2 (.raised (.reserve 1) t) := by
  have hfree : Unclaimed 0 2 emptyFork := fun _ _ _ => rfl
  constructor
  · have hmem : ∃ t, .done true t ∈ rangeZeroextend quietEnvironment 0 2 emptyFork :=
      ⟨_, mem_of_head? rfl⟩
    obtain ⟨t, ht⟩ := hmem
    refine ⟨t, ht, fun hfaithful => ?_⟩
    obtain ⟨hf, -⟩ | ⟨-, htwo, -, ht⟩ :=
      (wp_rangeZeroextend quietEnvironment 0 2 emptyFork).done ht
    · cases hf
    · rw [Faithful, ht] at hfaithful
      have hready := (published_appliedState_iff htwo hfree).mp hfaithful rfl 0 mem_cons_self
      exact absurd hready.1 (by decide)
  · refine ⟨reservedState quietEnvironment 0 emptyFork 1, mem_of_getElem? (i := 2) rfl, ?_⟩
    exact fun hfaithful => claims_reservedState_ne Nat.two_pos hfree hfaithful.1

end Umbra.RangeBirth
