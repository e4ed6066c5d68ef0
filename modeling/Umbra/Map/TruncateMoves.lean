import Mathlib.Order.MinMax
import Umbra.Map.Truncate

/-!
# The moves of a truncation run

Every event is a sequence of a few elementary moves. `Inv` collects what every move keeps: a cached
page with a mapped entry and every page of the logical range are in the file, so neither loop of a
truncation stops early, and a claimed pblk was never in the MAP.
-/

namespace Umbra.Truncate

open Foundation Relation Function List

/-! ### Reading a page in -/

namespace State

variable {s : State} {pg q : MapPageId} {b : Buffer}

lemma buffer_of_cache (h : s.cache pg = some b) : s.buffer pg = b := by
  rw [buffer, h]

lemma not_reports_of_cache (h : s.cache pg = some b) : ¬ s.Reports pg := by
  rintro ⟨hnone, _⟩
  cases h.symm.trans hnone

@[simp] lemma install_cache_self (b) : (s.install pg b).cache pg = some b :=
  update_self ..

lemma install_cache_of_ne (h : q ≠ pg) (b) : (s.install pg b).cache q = s.cache q :=
  update_of_ne h ..

@[simp] lemma buffer_install (s : State) (pg q : MapPageId) :
    (s.install pg (s.buffer pg)).buffer q = s.buffer q := by
  by_cases h : q = pg
  · subst h
    exact buffer_of_cache (install_cache_self _)
  · rw [buffer, install_cache_of_ne h]
    rfl

lemma reports_install (h : ¬ s.Reports pg) :
    (s.install pg (s.buffer pg)).Reports q ↔ s.Reports q := by
  by_cases hq : q = pg
  · subst hq
    exact iff_of_false (not_reports_of_cache (install_cache_self _)) h
  · rw [Reports, install_cache_of_ne hq]
    rfl

lemma mapReadBuffer_of_not_reports (h : ¬ s.Reports pg) :
    s.mapReadBuffer pg = .ok (s.install pg (s.buffer pg)) := if_neg h

lemma leave_mapReadBuffer (s : State) (pg : MapPageId) :
    leave (s.mapReadBuffer pg) = s.install pg (s.buffer pg) := by
  rw [mapReadBuffer]
  split
  · rfl
  · rfl

@[simp] lemma markBufferDirty_cache_self (page) :
    (s.markBufferDirty pg page).cache pg = some ⟨page, true, true⟩ := update_self ..

lemma markBufferDirty_cache_of_ne (h : q ≠ pg) (page) :
    (s.markBufferDirty pg page).cache q = s.cache q := update_of_ne h ..

lemma nblocks_le_markBufferDirty (s : State) (pg : MapPageId) (page : Page) :
    s.nblocks ≤ (s.markBufferDirty pg page).nblocks := by
  simp only [markBufferDirty]
  split
  · exact le_rfl
  · exact le_max_left ..

lemma nblocks_markBufferDirty_of_onFile (h : s.OnFile pg) (page) :
    (s.markBufferDirty pg page).nblocks = s.nblocks := by
  simp only [markBufferDirty]
  split
  · rfl
  · exact max_eq_left h

end State

/-! ### Elementary moves -/

open State

inductive Move (s : State) : State → Prop
  | read (pg : MapPageId) : Move s (s.install pg (s.buffer pg))
  | clear (pg : MapPageId) (page : Page)
      (hsub : ∀ j p, page j = some p → (s.buffer pg).page j = some p) :
      Move s (s.markBufferDirty pg page)
  | publish (fork : ForkNumber) (lblkno pblkno : ℕ) (hclaimed : pblkno ∈ s.claimed fork) :
      Move s
        { s.markBufferDirty (mapPageOf (fork, lblkno))
            (update (s.buffer (mapPageOf (fork, lblkno))).page (entryIdx lblkno) (some pblkno)) with
          claimed := update s.claimed fork ((s.claimed fork).filter (· ≠ pblkno))
          published := update s.published fork (pblkno :: s.published fork) }
  | flush (pg : MapPageId) (b : Buffer) (hcache : s.cache pg = some b) :
      Move s
        { s with
          file := update s.file (position pg) b.page
          cache := update s.cache pg (some { b with dirty := false }) }
  | evict (pg : MapPageId) (b : Buffer) (hcache : s.cache pg = some b) (hclean : b.dirty = false) :
      Move s { s with cache := update s.cache pg none }
  | reserve (fork : ForkNumber) :
      Move s
        { s with
          nextFree := update s.nextFree fork (s.nextFree fork + 1)
          claimed := update s.claimed fork (s.nextFree fork :: s.claimed fork) }
  | release (fork : ForkNumber) (pblkno : ℕ) :
      Move s
        { s with claimed := update s.claimed fork ((s.claimed fork).filter (· ≠ pblkno)) }
  | resize (fork : ForkNumber) (n : ℕ)
      (hfile : ∀ i, i * mapEntriesPerPage < n → s.OnFile (fork, i)) :
      Move s (s.setLogicalNblocks fork n)

/-- The claimed and the published blocks are below the frontier, and apart. -/
structure Ledger (nextFree : ℕ) (claimed published : List ℕ) : Prop where
  lt_of_claimed : ∀ p ∈ claimed, p < nextFree
  lt_of_published : ∀ p ∈ published, p < nextFree
  not_published : ∀ p ∈ claimed, p ∉ published

namespace Ledger

variable {nextFree p : ℕ} {claimed published : List ℕ}

variable (h : Ledger nextFree claimed published)
include h

lemma reserve : Ledger (nextFree + 1) (nextFree :: claimed) published where
  lt_of_claimed := forall_mem_cons.mpr
    ⟨Nat.lt_succ_self _, fun p hp => Nat.lt_succ_of_lt (h.lt_of_claimed p hp)⟩
  lt_of_published p hp := Nat.lt_succ_of_lt (h.lt_of_published p hp)
  not_published := forall_mem_cons.mpr
    ⟨fun hp => lt_irrefl _ (h.lt_of_published _ hp), h.not_published⟩

lemma release (p) : Ledger nextFree (claimed.filter (· ≠ p)) published where
  lt_of_claimed q hq := h.lt_of_claimed q (mem_filter.mp hq).1
  lt_of_published := h.lt_of_published
  not_published q hq := h.not_published q (mem_filter.mp hq).1

lemma publish (hp : p ∈ claimed) : Ledger nextFree (claimed.filter (· ≠ p)) (p :: published) where
  lt_of_claimed := (h.release p).lt_of_claimed
  lt_of_published := forall_mem_cons.mpr ⟨h.lt_of_claimed p hp, h.lt_of_published⟩
  not_published q hq := by
    have hne : q ≠ p := of_decide_eq_true (mem_filter.mp hq).2
    exact not_mem_cons_of_ne_of_not_mem hne ((h.release p).not_published q hq)

end Ledger

/-- What is mapped is on file, and no block is handed out twice. -/
structure Inv (s : State) : Prop where
  materialized_of_mapped : ∀ {pg b j p}, s.cache pg = some b → b.page j = some p → b.materialized
  onFile_of_materialized : ∀ {pg b}, s.cache pg = some b → b.materialized → s.OnFile pg
  onFile_of_range : ∀ {pg}, s.WithinLogicalRange pg → s.OnFile pg
  ledger : ∀ fork, Ledger (s.nextFree fork) (s.claimed fork) (s.published fork)

variable {j : Fin mapEntriesPerPage} {n : ℕ}

namespace Inv

variable {s : State} {pg : MapPageId}

lemma start : Inv start where
  materialized_of_mapped := nofun
  onFile_of_materialized := nofun
  onFile_of_range h := absurd h (Nat.not_lt_zero _)
  ledger _ :=
    { lt_of_claimed := forall_mem_nil _
      lt_of_published := forall_mem_nil _
      not_published := forall_mem_nil _ }

section
variable (h : Inv s)
include h

lemma buffer_materialized {p} (hp : (s.buffer pg).page j = some p) :
    (s.buffer pg).materialized := by
  cases hc : s.cache pg with
  | some =>
    rw [buffer_of_cache hc] at hp ⊢
    exact h.materialized_of_mapped hc hp
  | none =>
    simp only [State.buffer, hc] at hp ⊢
    split at hp
    case isTrue hread => rw [if_pos hread]
    case isFalse => cases hp

lemma buffer_onFile (hm : (s.buffer pg).materialized) : s.OnFile pg := by
  cases hc : s.cache pg with
  | some =>
    rw [buffer_of_cache hc] at hm
    exact h.onFile_of_materialized hc hm
  | none =>
    simp only [State.buffer, hc] at hm
    split at hm
    case isTrue hread => exact hread.1
    case isFalse => exact of_decide_eq_true hm

lemma onFile_markBufferDirty (pg page) : (s.markBufferDirty pg page).OnFile pg := by
  rw [State.OnFile, State.markBufferDirty]
  split
  case isTrue hm => exact h.buffer_onFile hm
  case isFalse => exact lt_of_lt_of_le (Nat.lt_succ_self _) (le_max_right ..)

lemma install (pg) : Inv (s.install pg (s.buffer pg)) where
  materialized_of_mapped {q b j p} hc hp := by
    rcases update_some_cases hc with ⟨rfl, rfl⟩ | ⟨-, hc⟩
    · exact h.buffer_materialized hp
    · exact h.materialized_of_mapped hc hp
  onFile_of_materialized {q b} hc hm := by
    rcases update_some_cases hc with ⟨rfl, rfl⟩ | ⟨-, hc⟩
    · exact h.buffer_onFile hm
    · exact h.onFile_of_materialized hc hm
  onFile_of_range := h.onFile_of_range
  ledger := h.ledger

lemma markBufferDirty (pg page) : Inv (s.markBufferDirty pg page) where
  materialized_of_mapped {q b j p} hc hp := by
    rcases update_some_cases hc with ⟨rfl, rfl⟩ | ⟨-, hc⟩
    · rfl
    · exact h.materialized_of_mapped hc hp
  onFile_of_materialized {q b} hc hm := by
    rcases update_some_cases hc with ⟨rfl, rfl⟩ | ⟨-, hc⟩
    · exact h.onFile_markBufferDirty q page
    · exact lt_of_lt_of_le (h.onFile_of_materialized hc hm) (s.nblocks_le_markBufferDirty pg page)
  onFile_of_range hq :=
    lt_of_lt_of_le (h.onFile_of_range hq) (s.nblocks_le_markBufferDirty pg page)
  ledger := h.ledger

lemma cache {file cache}
    (hcache : ∀ {pg b}, cache pg = some b → ∃ b', s.cache pg = some b' ∧ b'.page = b.page ∧
      b'.materialized = b.materialized) : Inv { s with file, cache } where
  materialized_of_mapped hc hp := by
    obtain ⟨b', hb', hpage, hm⟩ := hcache hc
    rw [← hm]
    exact h.materialized_of_mapped hb' (hpage ▸ hp)
  onFile_of_materialized hc hm := by
    obtain ⟨b', hb', -, hm'⟩ := hcache hc
    exact h.onFile_of_materialized hb' (hm' ▸ hm)
  onFile_of_range := h.onFile_of_range
  ledger := h.ledger

lemma exchange (fork) {next claimed published} (hledger : Ledger next claimed published) :
    Inv { s with
      nextFree := update s.nextFree fork next
      claimed := update s.claimed fork claimed
      published := update s.published fork published } where
  __ := h
  ledger fork' := by
    by_cases hf : fork' = fork
    · subst hf
      simp only [update_self]
      exact hledger
    · simp only [update_of_ne hf]
      exact h.ledger fork'

lemma setLogicalNblocks {fork} (hfile : ∀ i, i * mapEntriesPerPage < n → s.OnFile (fork, i)) :
    Inv (s.setLogicalNblocks fork n) where
  __ := h
  onFile_of_range {q} hq := by
    obtain ⟨fork', i⟩ := q
    simp only [State.WithinLogicalRange, State.setLogicalNblocks] at hq
    by_cases hf : fork' = fork
    · subst hf
      rw [update_self] at hq
      exact hfile i hq
    · rw [update_of_ne hf] at hq
      exact @onFile_of_range _ h (fork', i) hq

theorem move {t} (hmove : Move s t) : Inv t := by
  cases hmove with
  | read pg => exact h.install pg
  | clear pg page => exact h.markBufferDirty pg page
  | publish fork lblkno pblkno hclaimed =>
    have hdirty := h.markBufferDirty (mapPageOf (fork, lblkno)) (update
      (s.buffer (mapPageOf (fork, lblkno))).page (entryIdx lblkno) (some pblkno))
    have hledger := hdirty.exchange fork ((hdirty.ledger fork).publish hclaimed)
    rwa [update_eq_self] at hledger
  | flush pg b hcache =>
    refine h.cache fun {q b'} hc => ?_
    rcases update_some_cases hc with ⟨rfl, rfl⟩ | ⟨-, hc⟩
    · exact ⟨b, hcache, rfl, rfl⟩
    · exact ⟨b', hc, rfl, rfl⟩
  | evict pg =>
    refine h.cache fun {q b'} hc => ?_
    by_cases hq : q = pg
    · subst hq
      rw [update_self] at hc
      cases hc
    · rw [update_of_ne hq] at hc
      exact ⟨b', hc, rfl, rfl⟩
  | reserve fork =>
    have hledger := h.exchange fork (h.ledger fork).reserve
    rwa [update_eq_self] at hledger
  | release fork pblkno =>
    have hledger := h.exchange fork ((h.ledger fork).release pblkno)
    rwa [update_eq_self, update_eq_self] at hledger
  | resize fork n hfile => exact h.setLogicalNblocks hfile

end

end Inv

/-! ### Every event is a sequence of moves -/

def Moves (s t : State) : Prop := ReflTransGen Move s t ∧ t.logicalNblocks = s.logicalNblocks

namespace Moves

variable {s t u : State}

lemma refl (s) : Moves s s := ⟨.refl, rfl⟩

lemma tail (h : Moves s t) (hmove : Move t u) (hsize : u.logicalNblocks = t.logicalNblocks) :
    Moves s u := ⟨h.1.tail hmove, hsize.trans h.2⟩

lemma read (h : Moves s t) (pg) : Moves s (leave (t.mapReadBuffer pg)) := by
  rw [leave_mapReadBuffer]
  exact h.tail (.read pg) rfl

end Moves

lemma clearTail_sub {old i page p} (h : clearTail n old i page j = some p) : page j = some p := by
  simp only [clearTail, Option.ite_none_left_eq_some] at h
  exact h.2

section Loop

variable {s : State} {fork : ForkNumber} {body : ℕ → State → Except State State}

lemma leave_bind (x f) :
    leave (x >>= f) = leave x ∨ ∃ t, x = .ok t ∧ leave (x >>= f) = leave (f t) := by
  cases x with
  | ok t => exact .inr ⟨t, rfl, rfl⟩
  | error => exact .inl rfl

lemma leave_forTailPages {P : State → Prop} (hbody : ∀ i s, P s → P (leave (body i s))) (is)
    (hs : P s) : P (leave (forTailPages fork body is s)) := by
  induction is generalizing s with
  | nil => exact hs
  | cons i is ih =>
    rw [forTailPages]
    split
    · exact hs
    · have hround := hbody i s hs
      obtain hraised | ⟨t, ht, heq⟩ := leave_bind (body i s) (forTailPages fork body is)
      · rw [hraised]
        exact hround
      · rw [heq]
        rw [ht] at hround
        exact ih hround

end Loop

variable {s t : State}

lemma Moves.truncatePage (h : Moves s t) (fork n old i) :
    Moves s (leave (t.truncatePage fork n old i)) := by
  have hread := h.read (fork, i)
  rw [State.truncatePage]
  obtain hraised | ⟨u, hu, heq⟩ := leave_bind (t.mapReadBuffer (fork, i)) fun s =>
    pure (s.markBufferDirty (fork, i) (clearTail n old i (s.buffer (fork, i)).page))
  · rw [hraised]
    exact hread
  · rw [heq]
    rw [hu] at hread
    exact hread.tail (.clear _ _ fun j p => clearTail_sub) rfl

lemma Moves.mapSetMapping (fork lblkno pblkno) (hclaimed : pblkno ∈ s.claimed fork) :
      Moves s (leave (s.mapSetMapping fork lblkno pblkno)) := by
  rw [State.mapSetMapping, State.mapReadBuffer]
  split
  · exact (refl s).tail (.read _) rfl
  · exact ((refl s).tail (.read _) rfl).tail (.publish fork lblkno pblkno hclaimed) rfl

lemma Moves.preload (s fork n) : Moves s (leave (s.mapPreloadTruncatePages fork n)) :=
  leave_forTailPages (fun i _ h => h.read (fork, i)) _ (refl s)

lemma Moves.loops (s fork n) :
    Moves s (leave (s.mapPreloadTruncatePages fork n >>= fun s => s.mapTruncate fork n)) := by
  have hpreload := Moves.preload s fork n
  obtain hraised | ⟨t, ht, heq⟩ := leave_bind (s.mapPreloadTruncatePages fork n)
    fun s => s.mapTruncate fork n
  · rw [hraised]
    exact hpreload
  · rw [heq]
    rw [ht] at hpreload
    exact leave_forTailPages (fun i _ h => h.truncatePage fork n _ i) _ hpreload

variable (h : Inv s)
include h

lemma Inv.resize_of_le {fork} (hn : n ≤ s.logicalNblocks fork) :
    Move s (s.setLogicalNblocks fork n) :=
  .resize fork n fun _ hi => h.onFile_of_range (lt_of_lt_of_le hi hn)

lemma Inv.moves (hmoves : ReflTransGen Move s t) : Inv t := by
  induction hmoves with
  | refl => exact h
  | tail _ hmove ih => exact ih.move hmove

lemma Inv.bump {fork lblkno} (hfile : s.OnFile (mapPageOf (fork, lblkno))) :
    Move s (s.setLogicalNblocks fork (max (s.logicalNblocks fork) (lblkno + 1))) := by
  refine .resize fork _ fun i hi => ?_
  rcases lt_max_iff.mp hi with hold | hnew
  · exact h.onFile_of_range hold
  · have hle : i ≤ lblkno / mapEntriesPerPage :=
      (Nat.le_div_iff_mul_le (by decide)).mpr (Nat.le_of_lt_succ hnew)
    exact lt_of_le_of_lt (mapForkPagePosition_mono fork hle) hfile

theorem moves_of_step {e} (hstep : system.step s e = some t) : ReflTransGen Move s t := by
  cases e with
  | read pg =>
    cases hstep
    exact ((Moves.refl s).read pg).1
  | flush pg =>
    simp only [system, step] at hstep
    split at hstep
    case h_1 b hb =>
      obtain ⟨-, rfl⟩ := guard_eq_some hstep
      exact .single (.flush pg b hb)
    case h_2 => cases hstep
  | evict pg =>
    simp only [system, step] at hstep
    split at hstep
    case h_1 b hb =>
      obtain ⟨hclean, rfl⟩ := Option.ite_none_left_eq_some.mp hstep |>.imp_right Option.some.inj
      exact .single (.evict pg b hb (Bool.not_eq_true _ ▸ hclean))
    case h_2 => cases hstep
  | reserve fork =>
    cases hstep
    exact .single (.reserve fork)
  | release fork pblkno =>
    cases hstep
    exact .single (.release fork pblkno)
  | setMapping fork lblkno pblkno =>
    obtain ⟨hclaimed, rfl⟩ := guard_eq_some hstep
    exact (Moves.mapSetMapping fork lblkno pblkno hclaimed).1
  | bumpLogicalNblocks =>
    obtain ⟨hfile, rfl⟩ := guard_eq_some hstep
    exact .single (h.bump hfile)
  | truncate fork n =>
    obtain ⟨hn, rfl⟩ := guard_eq_some hstep
    obtain ⟨hmoves, hsize⟩ := Moves.loops s fork n
    rw [State.umtruncate, ← bind_assoc]
    obtain hraised | ⟨u, hu, heq⟩ := leave_bind
      (s.mapPreloadTruncatePages fork n >>= fun s => s.mapTruncate fork n)
      fun s => pure (s.setLogicalNblocks fork n)
    · rw [hraised]
      exact hmoves
    · rw [heq]
      rw [hu] at hmoves hsize
      refine hmoves.tail ((h.moves hmoves).resize_of_le ?_)
      exact hn.trans_eq (congrFun hsize fork).symm

lemma Inv.of_reachable (ht : system.Reachable s t) : Inv t :=
  System.Reaches.invariant ht h fun hs _ hstep => hs.moves (moves_of_step hs hstep)

end Umbra.Truncate
