import Mathlib.Tactic.Tauto
import Umbra.Map.TruncateMoves

/-!
# What truncation clears

`Cleared` relates the states before and after the loops of a truncation: reads return the same but
for the entries of the tail. `Forgotten` says that no copy of a block's entry holds a pblk of a
given list; a truncation establishes it for the tail, and every move keeps it.
-/

namespace Umbra.Truncate

open Foundation Relation Function List

/-! ### The entries of the tail -/

variable {i : ℕ}

lemma mem_tailPages {n old} :
    i ∈ tailPages n old
      ↔ n < old ∧ n / mapEntriesPerPage ≤ i ∧ i ≤ (old - 1) / mapEntriesPerPage := by
  rw [tailPages]
  split
  case isTrue h => exact iff_of_false not_mem_nil fun hi => not_lt.mpr h hi.1
  case isFalse h =>
    rw [mem_range'_1]
    have hle : n / mapEntriesPerPage ≤ (old - 1) / mapEntriesPerPage :=
      Nat.div_le_div_right (Nat.le_sub_one_of_lt (not_le.mp h))
    omega

lemma div_mem_tailPages {n old l} (hn : n ≤ l) (hl : l < old) :
    l / mapEntriesPerPage ∈ tailPages n old :=
  mem_tailPages.mpr ⟨lt_of_le_of_lt hn hl, Nat.div_le_div_right hn,
    Nat.div_le_div_right (Nat.le_sub_one_of_lt hl)⟩

lemma exists_of_mem_tailPages {n old} (h : i ∈ tailPages n old) :
    ∃ l, n ≤ l ∧ l < old ∧ l / mapEntriesPerPage = i := by
  obtain ⟨hlt, hlow, hhigh⟩ := mem_tailPages.mp h
  refine ⟨max n (i * mapEntriesPerPage), le_max_left .., ?_, ?_⟩
  all_goals
    simp only [mapEntriesPerPage] at *
    omega

lemma clearTail_apply {n old} (h : i ∈ tailPages n old) (page j) :
    clearTail n old i page j
      = if n ≤ i * mapEntriesPerPage + j ∧ i * mapEntriesPerPage + j < old then none
        else page j := by
  obtain ⟨hlt, hlow, hhigh⟩ := mem_tailPages.mp h
  have hj := j.isLt
  rw [clearTail]
  refine if_congr (and_congr ?_ ?_) rfl rfl
  · by_cases hi : i = n / mapEntriesPerPage
    · rw [if_pos hi]
      simp only [mapEntriesPerPage] at *
      omega
    · rw [if_neg hi]
      simp only [mapEntriesPerPage] at *
      omega
  · by_cases hi : i = (old - 1) / mapEntriesPerPage
    · rw [if_pos hi]
      simp only [mapEntriesPerPage] at *
      omega
    · rw [if_neg hi]
      simp only [mapEntriesPerPage] at *
      omega

/-! ### The loops -/

def State.Dirty (s : State) (pg : MapPageId) : Prop := ∃ b, s.cache pg = some b ∧ b.dirty

open State

lemma State.Dirty.install {s : State} {q : MapPageId} (h : s.Dirty q) (pg) :
    (s.install pg (s.buffer pg)).Dirty q := by
  obtain ⟨b, hb, hdirty⟩ := h
  by_cases hq : q = pg
  · subst hq
    exact ⟨b, by rw [install_cache_self, buffer_of_cache hb], hdirty⟩
  · exact ⟨b, (install_cache_of_ne hq _).trans hb, hdirty⟩

lemma State.dirty_markBufferDirty (s : State) (pg : MapPageId) (page : Page) :
    (s.markBufferDirty pg page).Dirty pg := ⟨_, markBufferDirty_cache_self _, rfl⟩

lemma State.Dirty.markBufferDirty {s : State} {q : MapPageId} (h : s.Dirty q) (pg page) :
    (s.markBufferDirty pg page).Dirty q := by
  by_cases hq : q = pg
  · subst hq
    exact s.dirty_markBufferDirty q page
  · obtain ⟨b, hb, hdirty⟩ := h
    exact ⟨b, (markBufferDirty_cache_of_ne hq _).trans hb, hdirty⟩

section MarkDirty

variable {s : State} {pg q : MapPageId}

lemma State.onFile_markBufferDirty_iff (hfile : s.OnFile pg) (page) :
    (s.markBufferDirty pg page).OnFile q ↔ s.OnFile q := by
  rw [State.OnFile, nblocks_markBufferDirty_of_onFile hfile, State.OnFile]

lemma State.buffer_markBufferDirty_of_ne (hfile : s.OnFile pg) (hq : q ≠ pg) (page) :
    (s.markBufferDirty pg page).buffer q = s.buffer q := by
  simp only [State.buffer, markBufferDirty_cache_of_ne hq, onFile_markBufferDirty_iff hfile]
  rfl

lemma State.reports_markBufferDirty (hfile : s.OnFile pg) (hread : ¬ s.Reports pg) (page) :
    (s.markBufferDirty pg page).Reports q ↔ s.Reports q := by
  by_cases hq : q = pg
  · subst hq
    exact iff_of_false (not_reports_of_cache (markBufferDirty_cache_self _)) hread
  · simp only [State.Reports, markBufferDirty_cache_of_ne hq, onFile_markBufferDirty_iff hfile]
    rfl

end MarkDirty

/-- The pages `done` of the fork were cleared from block `n` on, and nothing else changed. -/
structure Cleared (fork : ForkNumber) (n old : ℕ) (done : List ℕ) (s t : State) : Prop where
  page : ∀ q j, (t.buffer q).page j
    = if q.1 = fork ∧ q.2 ∈ done ∧ n ≤ q.2 * mapEntriesPerPage + j
        ∧ q.2 * mapEntriesPerPage + j < old
      then none else (s.buffer q).page j
  reports : ∀ q, t.Reports q ↔ s.Reports q
  dirty : ∀ i ∈ done, t.Dirty (fork, i)
  stay : ∀ q, s.Dirty q → t.Dirty q
  nblocks : t.nblocks = s.nblocks
  logicalNblocks : t.logicalNblocks = s.logicalNblocks
  published : t.published = s.published

namespace Cleared

variable {fork : ForkNumber} {n old : ℕ} {done done' : List ℕ} {s t u : State}

lemma refl (s) : Cleared fork n old [] s s where
  page _ _ := (if_neg fun h => not_mem_nil h.2.1).symm
  reports _ := Iff.rfl
  dirty := forall_mem_nil _
  stay _ h := h
  nblocks := rfl
  logicalNblocks := rfl
  published := rfl

lemma read {pg} (h : ¬ s.Reports pg) : Cleared fork n old [] s (s.install pg (s.buffer pg)) where
  page q j := by
    rw [buffer_install, if_neg fun h => not_mem_nil h.2.1]
  reports q := reports_install h
  dirty := forall_mem_nil _
  stay _ h := h.install pg
  nblocks := rfl
  logicalNblocks := rfl
  published := rfl

lemma clear (hi : i ∈ tailPages n old) (hfile : s.OnFile (fork, i))
    (hread : ¬ s.Reports (fork, i)) :
    Cleared fork n old [i] s
      (s.markBufferDirty (fork, i) (clearTail n old i (s.buffer (fork, i)).page)) where
  page q j := by
    by_cases hq : q = (fork, i)
    · subst hq
      rw [buffer_of_cache (markBufferDirty_cache_self _)]
      refine (clearTail_apply hi _ j).trans (if_congr ?_ rfl rfl)
      simp
    · rw [buffer_markBufferDirty_of_ne hfile hq, if_neg]
      rintro ⟨hf, hmem, -⟩
      exact hq (Prod.ext hf (mem_singleton.mp hmem))
  reports _ := reports_markBufferDirty hfile hread _
  dirty := by
    rw [forall_mem_singleton]
    exact s.dirty_markBufferDirty _ _
  stay _ h := h.markBufferDirty ..
  nblocks := nblocks_markBufferDirty_of_onFile hfile _
  logicalNblocks := rfl
  published := rfl

lemma trans (h : Cleared fork n old done s t) (h' : Cleared fork n old done' t u) :
    Cleared fork n old (done ++ done') s u where
  page q j := by
    rw [h'.page, h.page]
    by_cases hnew : q.1 = fork ∧ q.2 ∈ done' ∧ n ≤ q.2 * mapEntriesPerPage + j
        ∧ q.2 * mapEntriesPerPage + j < old
    · rw [if_pos hnew, if_pos ⟨hnew.1, mem_append_right _ hnew.2.1, hnew.2.2⟩]
    · rw [if_neg hnew]
      refine if_congr ?_ rfl rfl
      rw [mem_append]
      tauto
  reports q := (h'.reports q).trans (h.reports q)
  dirty i hi := by
    rcases mem_append.mp hi with hi | hi
    · exact h'.stay _ (h.dirty i hi)
    · exact h'.dirty i hi
  stay q hq := h'.stay q (h.stay q hq)
  nblocks := h'.nblocks.trans h.nblocks
  logicalNblocks := h'.logicalNblocks.trans h.logicalNblocks
  published := h'.published.trans h.published

lemma forTailPages {body part is} (hfile : ∀ i ∈ is, s.OnFile (fork, i))
    (hbody : ∀ i ∈ is, ∀ t : State, t.OnFile (fork, i) → ¬ t.Reports (fork, i) → ∃ u, body i t = .ok
      u ∧ Cleared fork n old (part i) t u) (hread : ∀ i ∈ is, ¬ s.Reports (fork, i)) :
    ∃ t, forTailPages fork body is s = .ok t ∧ Cleared fork n old (is.flatMap part) s t := by
  induction is generalizing s with
  | nil => exact ⟨s, rfl, refl s⟩
  | cons i is ih =>
    have hfile' := forall_mem_cons.mp hfile
    have hread' := forall_mem_cons.mp hread
    have hbody' := forall_mem_cons.mp hbody
    obtain ⟨t, ht, hone⟩ := hbody'.1 s hfile'.1 hread'.1
    obtain ⟨u, hu, hrest⟩ := @ih t
      (fun i hi => show position (fork, i) < t.nblocks by rw [hone.nblocks]; exact hfile'.2 i hi)
      hbody'.2 (fun i hi h => hread'.2 i hi ((hone.reports _).mp h))
    refine ⟨u, ?_, hone.trans hrest⟩
    rw [Truncate.forTailPages, if_neg (not_not_intro hfile'.1), ht]
    exact hu

end Cleared

section Calls

variable {s : State} {fork : ForkNumber} {n : ℕ}

lemma Inv.onFile_of_mem_tailPages (h : Inv s) (hi : i ∈ tailPages n (s.logicalNblocks fork)) :
    s.OnFile (fork, i) := by
  obtain ⟨l, -, hl, rfl⟩ := exists_of_mem_tailPages hi
  exact @Inv.onFile_of_range _ h (fork, _) (lt_of_le_of_lt (Nat.div_mul_le_self ..) hl)

lemma Cleared.truncatePage {old} (hi : i ∈ tailPages n old) (hfile : s.OnFile (fork, i))
    (hread : ¬ s.Reports (fork, i)) :
    ∃ t, s.truncatePage fork n old i = .ok t ∧ Cleared fork n old [i] s t := by
  rw [State.truncatePage, mapReadBuffer_of_not_reports hread]
  refine ⟨_, rfl, (Cleared.read hread).trans (Cleared.clear hi hfile ?_)⟩
  exact not_reports_of_cache (install_cache_self _)

lemma forTailPages_mapReadBuffer_error {is} (hfile : ∀ i ∈ is, s.OnFile (fork, i)) (hi : i ∈ is)
    (hreport : s.Reports (fork, i)) :
    ∃ t, forTailPages fork (fun i s => s.mapReadBuffer (fork, i)) is s = .error t := by
  induction is generalizing s with
  | nil => cases hi
  | cons j is ih =>
    have hfile' := forall_mem_cons.mp hfile
    rw [forTailPages, if_neg (not_not_intro hfile'.1)]
    by_cases hj : s.Reports (fork, j)
    · exact ⟨_, by rw [State.mapReadBuffer, if_pos hj]; rfl⟩
    · -- the report is of a later page, and reading this one leaves it
      rw [mapReadBuffer_of_not_reports hj]
      have hone : Cleared fork 0 0 [] s _ := Cleared.read hj
      have hi' : i ∈ is := (mem_cons.mp hi).resolve_left fun heq => hj (heq ▸ hreport)
      refine ih (fun i hi => ?_) hi' ((hone.reports _).mpr hreport)
      show position (fork, i) < State.nblocks _
      rw [hone.nblocks]
      exact hfile'.2 i hi

lemma umtruncate_error (h : Inv s) (hi : i ∈ tailPages n (s.logicalNblocks fork))
    (hreport : s.Reports (fork, i)) : ∃ t, s.umtruncate fork n = .error t := by
  obtain ⟨t, ht⟩ := forTailPages_mapReadBuffer_error (fun i hi => h.onFile_of_mem_tailPages hi) hi
    hreport
  rw [State.umtruncate, State.mapPreloadTruncatePages, ht]
  exact ⟨t, rfl⟩

variable (h : Inv s) (hread : ∀ i ∈ tailPages n (s.logicalNblocks fork), ¬ s.Reports (fork, i))
include h hread

lemma Cleared.mapPreloadTruncatePages : ∃ t, s.mapPreloadTruncatePages fork n = .ok t
      ∧ Cleared fork n (s.logicalNblocks fork) [] s t := by
  have hnil : (tailPages n (s.logicalNblocks fork)).flatMap (fun _ => ([] : List ℕ)) = [] :=
    flatMap_eq_nil_iff.mpr fun _ _ => rfl
  rw [← hnil]
  refine Cleared.forTailPages (fun i hi => h.onFile_of_mem_tailPages hi) ?_ hread
  intro i _ t _ hreport
  exact ⟨_, mapReadBuffer_of_not_reports hreport, .read hreport⟩

lemma Cleared.mapTruncate : ∃ t, s.mapTruncate fork n = .ok t
      ∧ Cleared fork n (s.logicalNblocks fork) (tailPages n (s.logicalNblocks fork)) s t := by
  have hloop := Cleared.forTailPages (fun i hi => h.onFile_of_mem_tailPages hi)
    (fun i hi t => Cleared.truncatePage hi) hread
  rwa [flatMap_singleton'] at hloop

lemma Cleared.umtruncate : ∃ t, s.umtruncate fork n = .ok (t.setLogicalNblocks fork n)
      ∧ Cleared fork n (s.logicalNblocks fork) (tailPages n (s.logicalNblocks fork)) s t := by
  obtain ⟨t, ht, hpreload⟩ := Cleared.mapPreloadTruncatePages h hread
  have hinv : Inv t := by
    have hmoves := Moves.preload s fork n
    rw [ht] at hmoves
    exact h.moves hmoves.1
  obtain ⟨u, hu, hclear⟩ := Cleared.mapTruncate (n := n) hinv (by
    rw [hpreload.logicalNblocks]
    exact fun i hi hr => hread i hi ((hpreload.reports _).mp hr))
  rw [hpreload.logicalNblocks] at hclear
  refine ⟨u, ?_, hpreload.trans hclear⟩
  rw [State.umtruncate, ht]
  show (t.mapTruncate fork n >>= _) = _
  rw [hu]
  rfl

end Calls

/-! ### What was mapped stays forgotten -/

/-- No copy of the block's entry, cached or on disk behind a clean or missing copy, holds a pblk of
the list, and the list is history. -/
structure Forgotten (old : List ℕ) (fork : ForkNumber) (lblkno : ℕ) (s : State) : Prop where
  cached : ∀ {b p}, s.cache (mapPageOf (fork, lblkno)) = some b →
    b.page (entryIdx lblkno) = some p → p ∉ old
  stored : s.Dirty (mapPageOf (fork, lblkno)) ∨
    ∀ p, s.file (position (mapPageOf (fork, lblkno))) (entryIdx lblkno) = some p → p ∉ old
  published : old ⊆ s.published fork

namespace Forgotten

variable {old : List ℕ} {fork : ForkNumber} {lblkno : ℕ} {s t : State}

section
variable (h : Forgotten old fork lblkno s) {pg : MapPageId}
include h

lemma buffer {p} (hp : (s.buffer (mapPageOf (fork, lblkno))).page (entryIdx lblkno) = some p) :
    p ∉ old := by
  cases hc : s.cache (mapPageOf (fork, lblkno)) with
  | some =>
    rw [buffer_of_cache hc] at hp
    exact h.cached hc hp
  | none =>
    simp only [State.buffer, hc] at hp
    split at hp
    · rcases h.stored with ⟨b, hb, -⟩ | hfile
      · cases hc.symm.trans hb
      · exact hfile p hp
    · cases hp

lemma install (pg) : Forgotten old fork lblkno (s.install pg (s.buffer pg)) where
  cached {b p} hc hp := by
    rcases update_some_cases hc with ⟨rfl, rfl⟩ | ⟨-, hc⟩
    · exact h.buffer hp
    · exact h.cached hc hp
  stored := h.stored.imp_left fun hd => hd.install pg
  published := h.published

lemma markBufferDirty {page}
    (hpage : pg = mapPageOf (fork, lblkno) → ∀ p, page (entryIdx lblkno) = some p → p ∉ old) :
    Forgotten old fork lblkno (s.markBufferDirty pg page) where
  cached {b p} hc hp := by
    rcases update_some_cases hc with ⟨rfl, rfl⟩ | ⟨-, hc⟩
    · exact hpage rfl p hp
    · exact h.cached hc hp
  stored := h.stored.imp_left fun hd => hd.markBufferDirty pg page
  published := h.published

lemma flush {b} (hcache : s.cache pg = some b) :
    Forgotten old fork lblkno { s with
      file := update s.file (position pg) b.page
      cache := update s.cache pg (some { b with dirty := false }) } := by
  by_cases hq : mapPageOf (fork, lblkno) = pg
  · subst hq
    refine ⟨fun {b' p} hc hp => ?_, .inr fun p hp => ?_, h.published⟩
    · simp only [update_self, Option.some.injEq] at hc
      subst hc
      exact h.cached hcache hp
    · simp only [update_self] at hp
      exact h.cached hcache hp
  · have hpos : position (mapPageOf (fork, lblkno)) ≠ position pg :=
      fun heq => hq (position_injective heq)
    refine ⟨fun {b' p} hc hp => ?_, ?_, h.published⟩
    · simp only [update_of_ne hq] at hc
      exact h.cached hc hp
    · simp only [State.Dirty, update_of_ne hq, update_of_ne hpos]
      exact h.stored

lemma evict {b} (hcache : s.cache pg = some b) (hclean : b.dirty = false) :
    Forgotten old fork lblkno { s with cache := update s.cache pg none } := by
  by_cases hq : mapPageOf (fork, lblkno) = pg
  · subst hq
    refine ⟨fun {b' p} hc _ => ?_, .inr ?_, h.published⟩
    · simp only [update_self, reduceCtorEq] at hc
    · refine h.stored.resolve_left ?_
      rintro ⟨b', hb', hdirty⟩
      cases hcache.symm.trans hb'
      cases hclean.symm.trans hdirty
  · refine ⟨fun {b' p} hc hp => ?_, ?_, h.published⟩
    · simp only [update_of_ne hq] at hc
      exact h.cached hc hp
    · simp only [State.Dirty, update_of_ne hq]
      exact h.stored

end

lemma published_subset (s : State) (fork fork' : ForkNumber) (p : ℕ) :
    s.published fork ⊆ update s.published fork' (p :: s.published fork') fork := by
  by_cases hf : fork = fork'
  · subst hf
    rw [update_self]
    exact subset_cons_self p _
  · rw [update_of_ne hf]
    exact List.Subset.refl _

theorem move (h : Forgotten old fork lblkno s) (hinv : Inv s) (hmove : Move s t) :
    Forgotten old fork lblkno t := by
  cases hmove with
  | read pg => exact h.install pg
  | clear pg page hsub =>
    refine h.markBufferDirty ?_
    rintro rfl p hp
    exact h.buffer (hsub _ p hp)
  | publish fork' lblkno' pblkno hclaimed =>
    have hdirty : Forgotten old fork lblkno (s.markBufferDirty (mapPageOf (fork', lblkno'))
        (update (s.buffer (mapPageOf (fork', lblkno'))).page (entryIdx lblkno')
          (some pblkno))) := by
      refine h.markBufferDirty fun hpg p hp => ?_
      by_cases hidx : entryIdx lblkno = entryIdx lblkno'
      · -- the new entry holds a claimed pblk, which is not history
        rw [hidx, update_self] at hp
        cases hp
        have hfork : fork' = fork := congrArg Prod.fst hpg
        subst hfork
        exact fun hold => (hinv.ledger fork').not_published _ hclaimed (h.published hold)
      · rw [update_of_ne hidx, hpg] at hp
        exact h.buffer hp
    exact ⟨hdirty.cached, hdirty.stored,
      List.Subset.trans h.published (published_subset s fork fork' pblkno)⟩
  | flush pg b hcache => exact h.flush hcache
  | evict pg b hcache hclean => exact h.evict hcache hclean
  | _ => exact { h with }

lemma of_reachable (h : Forgotten old fork lblkno s) (hinv : Inv s)
    (ht : system.Reachable s t) : Forgotten old fork lblkno t := by
  refine (System.Reaches.invariant (I := fun t => Inv t ∧ Forgotten old fork lblkno t) ht
    ⟨hinv, h⟩ ?_).2
  intro t e u ⟨hinv, h⟩ _ hstep
  have hmoves := moves_of_step hinv hstep
  clear hstep
  induction hmoves with
  | refl => exact ⟨hinv, h⟩
  | tail _ hmove ih => exact ⟨ih.1.move hmove, ih.2.move ih.1 hmove⟩

end Forgotten

/-! ### The result -/

lemma State.lookup_ne_of_forgotten {s old fork lblkno p} (h : Forgotten old fork lblkno s)
    (hp : p ∈ old) : s.lookup fork lblkno ≠ some (some p) := by
  rw [State.lookup]
  split
  · exact nofun
  · exact fun heq => h.buffer (Option.some.inj heq) hp

section Result

variable {s t : State} {fork : ForkNumber} {n : ℕ}

variable {old : ℕ} {g : ForkNumber} {done : List ℕ}

lemma Cleared.entry (h : Cleared fork n old done s t) (g l) :
    (t.buffer (mapPageOf (g, l))).page (entryIdx l)
      = if g = fork ∧ l / mapEntriesPerPage ∈ done ∧ n ≤ l ∧ l < old then none
        else (s.buffer (mapPageOf (g, l))).page (entryIdx l) := by
  rw [h.page]
  refine if_congr ?_ rfl rfl
  simp only [mapPageOf, entryIdx, Nat.div_add_mod']

lemma State.lookup_setLogicalNblocks {l} (hn : n ≤ s.logicalNblocks fork) (hl : g = fork → l < n) :
    (s.setLogicalNblocks fork n).lookup g l = s.lookup g l := by
  have hrange : (s.setLogicalNblocks fork n).WithinLogicalRange (mapPageOf (g, l))
      ↔ s.WithinLogicalRange (mapPageOf (g, l)) := by
    simp only [State.WithinLogicalRange, State.setLogicalNblocks, mapPageOf]
    by_cases hg : g = fork
    · subst hg
      have hpage : l / mapEntriesPerPage * mapEntriesPerPage < n :=
        lt_of_le_of_lt (Nat.div_mul_le_self ..) (hl rfl)
      rw [update_self]
      exact iff_of_true hpage (lt_of_lt_of_le hpage hn)
    · rw [update_of_ne hg]
  have hreports : (s.setLogicalNblocks fork n).Reports (mapPageOf (g, l))
      ↔ s.Reports (mapPageOf (g, l)) := by
    rw [State.Reports, hrange]
    rfl
  have hbuffer : (s.setLogicalNblocks fork n).buffer (mapPageOf (g, l))
      = s.buffer (mapPageOf (g, l)) := by
    simp only [State.buffer, hrange]
    rfl
  simp only [State.lookup, hreports, hbuffer]

lemma Cleared.exists_cached {l} (h : Cleared fork n old (tailPages n old) s t) (hn : n ≤ l)
    (hl : l < old) :
    ∃ b, t.cache (mapPageOf (fork, l)) = some b ∧ b.dirty ∧ b.page (entryIdx l) = none := by
  have hmem := div_mem_tailPages hn hl
  obtain ⟨b, hb, hdirty⟩ := h.dirty _ hmem
  have hentry := h.entry fork l
  rw [if_pos ⟨rfl, hmem, hn, hl⟩, @buffer_of_cache t (mapPageOf (fork, l)) b hb] at hentry
  exact ⟨b, hb, hdirty, hentry⟩

lemma State.lookup_of_cache {b l} (h : s.cache (mapPageOf (fork, l)) = some b) :
    s.lookup fork l = some (b.page (entryIdx l)) := by
  rw [State.lookup, if_neg (not_reports_of_cache h), buffer_of_cache h]

lemma Cleared.lookup_eq (h : Cleared fork n old done s t) {l} (hl : g = fork → l < n) :
    t.lookup g l = s.lookup g l := by
  have hentry := h.entry g l
  rw [if_neg fun hc => not_le.mpr (hl hc.1) hc.2.2.1] at hentry
  simp only [State.lookup, h.reports, hentry]

/-- Truncation to `n` blocks raises an error and a lookup of the tail does so too, or it unmaps
exactly the tail, and no later lookup of the tail returns a pblk from before the truncation. -/
theorem truncate_clears_tail (hs : system.Reachable start s) (hn : n ≤ s.logicalNblocks fork) :
    ((∃ t, s.umtruncate fork n = .error t) ∧
      ∃ l, n ≤ l ∧ l < s.logicalNblocks fork ∧ s.lookup fork l = none) ∨
    ∃ t, s.umtruncate fork n = .ok t ∧ t.logicalNblocks fork = n
      ∧ (∀ l, n ≤ l → l < s.logicalNblocks fork → t.lookup fork l = some none)
      ∧ (∀ l < n, t.lookup fork l = s.lookup fork l)
      ∧ (∀ g ≠ fork, ∀ l, t.lookup g l = s.lookup g l)
      ∧ ∀ u, system.Reachable t u → ∀ l, n ≤ l → l < s.logicalNblocks fork →
          ∀ p ∈ s.published fork, u.lookup fork l ≠ some (some p) := by
  have hinv := Inv.start.of_reachable hs
  by_cases hread : ∀ i ∈ tailPages n (s.logicalNblocks fork), ¬ s.Reports (fork, i)
  · obtain ⟨t, ht, hclear⟩ := Cleared.umtruncate hinv hread
    have hsize : n ≤ t.logicalNblocks fork := hclear.logicalNblocks ▸ hn
    have hreach : system.Reachable s (t.setLogicalNblocks fork n) := by
      refine .tail .refl trivial (e := .truncate fork n) ?_
      show step s (.truncate fork n) = _
      rw [step, if_pos hn, ht]
      rfl
    refine .inr ⟨_, ht, update_self .., ?_, ?_, ?_, ?_⟩
    · intro l hnl hl
      obtain ⟨b, hb, -, hentry⟩ := hclear.exists_cached hnl hl
      rw [@lookup_of_cache (t.setLogicalNblocks fork n) fork b l hb, hentry]
    · intro l hl
      rw [lookup_setLogicalNblocks hsize fun _ => hl, hclear.lookup_eq fun _ => hl]
    · intro g hg l
      rw [lookup_setLogicalNblocks hsize fun h => absurd h hg,
        hclear.lookup_eq fun h => absurd h hg]
    · intro u hu l hnl hl p hp
      obtain ⟨b, hb, hdirty, hentry⟩ := hclear.exists_cached hnl hl
      have hforgotten : Forgotten (s.published fork) fork l (t.setLogicalNblocks fork n) :=
        { cached := fun {b' p} hc hp => by
            cases hb.symm.trans hc
            cases hentry.symm.trans hp
          stored := .inl ⟨b, hb, hdirty⟩
          published := fun p hp => by
            show p ∈ t.published fork
            rw [hclear.published]
            exact hp }
      exact lookup_ne_of_forgotten
        (hforgotten.of_reachable (hinv.of_reachable hreach) hu) hp
  · simp only [not_forall, not_not] at hread
    obtain ⟨i, hi, hreport⟩ := hread
    have herror := umtruncate_error hinv hi hreport
    obtain ⟨l, hnl, hl, rfl⟩ := exists_of_mem_tailPages hi
    exact .inl ⟨herror, l, hnl, hl, if_pos hreport⟩

end Result

def twoBlocks : State :=
  system.after start [.reserve .main, .setMapping .main 0 0, .bumpLogicalNblocks .main 0,
    .reserve .main, .setMapping .main 1 1, .bumpLogicalNblocks .main 1]

/-- Block 1 is cut off and comes back with another physical block. -/
theorem truncate_clears_tail_twoBlocks :
    twoBlocks.lookup .main 0 = some (some 0) ∧ twoBlocks.lookup .main 1 = some (some 1) ∧
      ∃ t, twoBlocks.umtruncate .main 1 = .ok t ∧ t.lookup .main 0 = some (some 0) ∧
        t.lookup .main 1 = some none ∧
        let u := system.after t
          [.reserve .main, .setMapping .main 1 2, .bumpLogicalNblocks .main 1]
        u.lookup .main 1 = some (some 2) ∧ u.lookup .main 1 ≠ some (some 1) := by
  have hkept : twoBlocks.lookup .main 0 = some (some 0) := by rfl
  have htail : twoBlocks.lookup .main 1 = some (some 1) := by rfl
  have htruncate : twoBlocks.umtruncate .main 1 = .ok (leave (twoBlocks.umtruncate .main 1)) := by
    rfl
  refine ⟨hkept, htail, ?_⟩
  obtain ⟨⟨t, ht⟩, -⟩ | ⟨t, ht, -, hclear, hbelow, -, hlater⟩ :=
    @truncate_clears_tail twoBlocks .main 1 (.of_isSome (by decide)) (by decide)
  · cases htruncate.symm.trans ht
  · refine ⟨t, ht, (hbelow 0 (by decide)).trans hkept, hclear 1 (by decide) (by decide), ?_⟩
    cases htruncate.symm.trans ht
    exact ⟨by rfl, hlater _ (.of_isSome (by rfl)) 1 (by decide) (by decide) 1 (by decide)⟩

end Umbra.Truncate
