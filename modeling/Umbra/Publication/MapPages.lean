import Umbra.Publication.Coverage

/-!
# MAP pages under replay

A MAP page gets into the MAP file as zeros, when the file is extended for it or for a page behind
it, and is written with its entries later. `MapReadBuffer` raises an error for a page that is all
zeros in front of the logical end of its fork. Replay finds none, if the superblock follows the MAP
pages it covers to disk and the blocks of a fork are born in order.
-/

namespace Umbra

open Foundation Function List

variable {n : Nat}

/-! ### Reads of MAP pages -/

/-- No entry of the page is set, on disk or in memory. Without truncation a page is written only
after one of its entries has been set, so in the MAP file such a page is zeros. -/
def MapMeta.Blank (m : MapMeta) (page : MapPageId) : Prop :=
  ∀ k, mapPageOf k = page → m.map k = none

/-- `MapReadBuffer` does not raise "MAP page is all-zeros"; `inFile` says which pages the MAP file
reaches. -/
def MapMeta.Reads (inFile : MapPageId → Bool) (m : MapMeta) (k : BlockKey) : Prop :=
  ¬ (inFile (mapPageOf k) = true ∧
    (mapPageOf k).2 * mapEntriesPerPage < m.entry.super.logical k.1 ∧ m.Blank (mapPageOf k))

def redoBlockRemapsReads (inFile : MapPageId → Bool) (lsn : Nat) : MapMeta → List BlockRemap → Prop
  | _, [] => True
  | m, blk :: blks => m.Reads inFile blk.key ∧
      ∀ m', redoBlockRemap m lsn blk = some m' → redoBlockRemapsReads inFile lsn m' blks

/-- Replay of a record gets the MAP pages it reads. -/
def redoReads (inFile : MapPageId → Bool) (m : MapMeta) (lsn : Nat) : Record → Prop
  | .mapSet key _ _ => m.Reads inFile key
  | .rangeRemap fork first pblks => ∀ i < pblks.length, m.Reads inFile (fork, first + i)
  | .blockRemaps blks => redoBlockRemapsReads inFile lsn m blks
  | .smgrTruncate fork nblocks =>
    ∀ lblk, nblocks ≤ lblk → lblk < m.entry.super.logical fork → m.Reads inFile (fork, lblk)
  | .other => True

/-! ### The first block of a MAP page -/

/-- Every MAP page in front of a logical end has the entry of its first block. -/
def Dense (map : BlockKey → Option Nat) (logical : ForkNumber → Nat) : Prop :=
  ∀ fork, ∀ lblk < logical fork, lblk % mapEntriesPerPage = 0 → (map (fork, lblk)).isSome

instance (map : BlockKey → Option Nat) (logical : ForkNumber → Nat) :
    Decidable (Dense map logical) :=
  decidable_of_iff (∀ fork ∈ [ForkNumber.main, .fsm, .vm], ∀ lblk < logical fork,
      lblk % mapEntriesPerPage = 0 → (map (fork, lblk)).isSome)
    ⟨fun h fork => h fork (by cases fork <;> simp), fun h fork _ => h fork⟩

def Named (wal : List Record) (k : BlockKey) : Prop := ∃ r ∈ wal, (r.newPblk k).isSome

instance (wal : List Record) (k : BlockKey) : Decidable (Named wal k) :=
  inferInstanceAs (Decidable (∃ r ∈ wal, _))

/-- The log names the first block of every MAP page in front of the logical end that the record
raises its fork to; one block reference of a record does not count for another. -/
def Record.InOrder (wal : List Record) (r : Record) : Prop :=
  match r with
  | .blockRemaps blks => ∀ blk ∈ blks, ∀ lblk < blk.bump .logical blk.key.1,
      lblk % mapEntriesPerPage = 0 → (blk.key.1, lblk) = blk.key ∨ Named wal (blk.key.1, lblk)
  | .mapSet key _ _ => ∀ lblk < r.bump .logical key.1, lblk % mapEntriesPerPage = 0 →
      (key.1, lblk) = key ∨ Named wal (key.1, lblk)
  | .rangeRemap fork first _ => ∀ lblk < first, lblk % mapEntriesPerPage = 0 →
      Named wal (fork, lblk)
  | .smgrTruncate _ _ | .other => True

instance (wal : List Record) : (r : Record) → Decidable (r.InOrder wal)
  | .blockRemaps _ => inferInstanceAs (Decidable (∀ blk ∈ _, _))
  | .mapSet .. => inferInstanceAs (Decidable (∀ lblk < _, _))
  | .rangeRemap .. => inferInstanceAs (Decidable (∀ lblk < _, _))
  | .smgrTruncate .. | .other => .isTrue trivial

section

variable {m m' : MapMeta} {r : Record} {wal : List Record} {lsn : Nat} {inFile : MapPageId → Bool}

lemma Dense.reads (h : Dense m.map m.entry.super.logical) (inFile : MapPageId → Bool)
    (k : BlockKey) : m.Reads inFile k := by
  rintro ⟨-, hlt, hblank⟩
  have hfirst : mapPageOf (k.1, (mapPageOf k).2 * mapEntriesPerPage) = mapPageOf k := by
    simp [mapPageOf, mapEntriesPerPage]
  have hsome := h k.1 _ hlt (Nat.mul_mod_left ..)
  rw [hblank _ hfirst] at hsome
  cases hsome

/-- A record in order keeps the pages dense that it raises the logical end over. -/
lemma Record.InOrder.named (h : r.InOrder wal) {fork lblk} (hlt : lblk < r.bump .logical fork)
    (hfirst : lblk % mapEntriesPerPage = 0) :
    (r.newPblk (fork, lblk)).isSome ∨ Named wal (fork, lblk) := by
  cases r with
  | mapSet key old new =>
    have hfork : key.1 = fork := by
      cases old with
      | none => by_contra hne; simp [bump, hne] at hlt
      | some => cases hlt
    subst hfork
    refine (h lblk hlt hfirst).imp_left fun heq => ?_
    simp [newPblk, heq]
  | rangeRemap fork' first pblks =>
    by_cases hfork : fork' = fork
    · subst hfork
      simp only [bump, if_true] at hlt
      rcases Nat.lt_or_ge lblk first with hlow | hge
      · exact .inr (h lblk hlow hfirst)
      · refine .inl ?_
        have hlen : lblk - first < pblks.length := by omega
        simp [newPblk, hge, hlen]
    · simp [bump, hfork] at hlt
  | blockRemaps blks =>
    rcases blockRemaps_bump_attained blks .logical fork with h0 | ⟨blk, hmem, heq⟩
    · rw [h0] at hlt
      cases hlt
    · rw [heq] at hlt
      have hfork : blk.key.1 = fork := by
        by_contra hne
        simp [BlockRemap.bump, hne] at hlt
      subst hfork
      refine (h blk hmem lblk hlt hfirst).imp_left fun hkey => ?_
      rw [hkey]
      exact isSome_newPblkOf hmem
  | smgrTruncate => cases hlt
  | other => cases hlt

section Redo

variable (h : Dense m.map m.entry.super.logical) (hnamed : ∀ k, Named wal k → (m.map k).isSome)
include h hnamed

lemma Dense.redoBlockRemap {blk blks} (hord : (Record.blockRemaps blks).InOrder wal)
    (hmem : blk ∈ blks) (hm : redoBlockRemap m lsn blk = some m') :
    Dense m'.map m'.entry.super.logical ∧ ∀ k, Named wal k → (m'.map k).isSome := by
  obtain ⟨hmap, hcount⟩ := redoBlockRemap_spec hm
  have hkept : ∀ k, (m.map k).isSome → (m'.map k).isSome := by
    intro k hk
    rw [hmap, update_apply]
    split_ifs <;> [rfl; exact hk]
  refine ⟨fun fork lblk hlt hfirst => ?_, fun k hk => hkept k (hnamed k hk)⟩
  rw [show m'.entry.super.logical fork = _ from hcount .logical fork] at hlt
  rcases lt_max_iff.mp hlt with hlt | hlt
  · exact hkept _ (h fork lblk hlt hfirst)
  · have hfork : blk.key.1 = fork := by
      by_contra hne
      simp [BlockRemap.bump, hne] at hlt
    subst hfork
    rcases hord blk hmem lblk hlt hfirst with heq | hn
    · rw [hmap, heq, update_self]
      rfl
    · exact hkept _ (hnamed _ hn)

lemma Dense.redoReads (hord : r.InOrder wal) : redoReads inFile m lsn r := by
  cases r with
  | mapSet key => exact h.reads inFile key
  | rangeRemap fork first => exact fun i _ => h.reads inFile (fork, first + i)
  | smgrTruncate fork => exact fun lblk _ _ => h.reads inFile (fork, lblk)
  | other => trivial
  | blockRemaps blks =>
    -- each block reference finds the pages dense that the one before has left
    suffices ∀ blks' ⊆ blks, redoBlockRemapsReads inFile lsn m blks' from this blks fun _ => id
    intro blks' hsub
    induction blks' generalizing m with
    | nil => trivial
    | cons blk blks' ih =>
      refine ⟨h.reads inFile blk.key, fun m' hm => ?_⟩
      obtain ⟨h', hnamed'⟩ := h.redoBlockRemap hnamed hord (hsub mem_cons_self) hm
      exact ih h' hnamed' fun _ hb => hsub (mem_cons_of_mem blk hb)

lemma Dense.redoRecord (hord : r.InOrder wal) (hr : ∀ fork nblocks, r ≠ .smgrTruncate fork nblocks)
    {materialized} (hm : redoRecord m lsn materialized r = some m') :
    Dense m'.map m'.entry.super.logical := by
  obtain ⟨hmap, hcount⟩ := redoRecord_spec hm hr
  intro fork lblk hlt hfirst
  rw [show m'.entry.super.logical fork = _ from hcount .logical fork] at hlt
  rw [hmap, Option.isSome_or, Bool.or_eq_true]
  rcases lt_max_iff.mp hlt with hlt | hlt
  · exact .inr (h fork lblk hlt hfirst)
  · exact (hord.named hlt hfirst).imp_right (hnamed _)

end Redo

end

/-! ### Entries on their way to disk -/

section Entries

variable {k : BlockKey} {s t : State n} {e : Event n} {b : Fin n} {be : Backend} {i : Instr}
  {rest : List Instr} {m m' : MapMeta} {r : Record}

lemma Evolves.dirty {trunc} (h : Evolves trunc m m') :
    (∀ page ∈ m.dirtyPages, page ∈ m'.dirtyPages) ∧
      ∀ k, m'.map k = m.map k ∨ mapPageOf k ∈ m'.dirtyPages := by
  induction h with
  | refl => exact ⟨fun _ => id, fun _ => .inl rfl⟩
  | setEntry _ k' _ _ ih =>
    refine ⟨fun page hp => mem_cons_of_mem _ (ih.1 page hp), fun k => ?_⟩
    rcases eq_or_ne k k' with rfl | hne
    · exact .inr mem_cons_self
    · refine (ih.2 k).imp (fun heq => ?_) (mem_cons_of_mem _)
      rw [MapMeta.map_setEntry, update_of_ne hne, heq]
  | bumpLogical _ _ _ _ ih | bumpNextFree _ _ _ _ _ ih | bumpCapacity _ _ _ _ ih
    | setLogical _ _ _ _ _ ih => exact ih

lemma Update.isSome_map (h : Update s b i m) (hi : i.truncates = false)
    (hk : (s.mapMeta.map k).isSome) : (m.map k).isSome := by
  cases h with
  | setMapping =>
    rw [MapMeta.map_setEntry, update_apply]
    split_ifs <;> [rfl; exact hk]
  | clearEntry | setLogical => cases hi
  | _ => exact hk

def entryAccount (k : BlockKey) : Account where
  done m r := (r.newPblk k).isSome → (m.map k).isSome
  asks _ j := ∃ pblk, j = .setMapping k pblk
  late _ _ := False
  page := some (mapPageOf k)
  late_page := nofun
  idle r j hj h := by
    rcases h with ⟨pblk, rfl⟩ | h
    · cases hj
    · exact h.elim
  other m h := by cases h
  covers r rest h := by
    cases hr : r.newPblk k with
    | none => exact .inl fun m h => by cases h
    | some pblk => exact .inr (.inl ⟨_, h.2.1 k pblk hr, pblk, rfl⟩)

/-- Every record finds its entry set, and on disk in front of the redo pointer. An entry that is not
on disk is on a dirty page. -/
structure Stored (k : BlockKey) (s : State n) : Prop extends (entryAccount k).Balanced s where
  dirty : (s.mapMeta.map k).isSome →
    (s.diskMap k).isSome ∨ mapPageOf k ∈ s.mapMeta.dirtyPages
  kept : (s.diskMap k).isSome → (s.mapMeta.map k).isSome

theorem Stored.init (n : Nat) (k : BlockKey) : Stored k (State.init n) := ⟨.init n _, nofun, nofun⟩

lemma Move.isSome_map (hm : Move s e t) (hcrash : e ≠ .crash) (htr : TruncateFree s)
    (hk : (s.mapMeta.map k).isSome) : (t.mapMeta.map k).isSome := by
  cases hm with
  | update hprog hu => exact hu.isSome_map (htr.of_cons hprog).1 hk
  | flushSuper | ckptSuper => exact (State.mapMeta_flushSuper s).symm ▸ hk
  | crash => exact absurd rfl hcrash
  | redo hrec hr hred =>
    rw [(redoRecord_spec hred (htr.wal _ (mem_of_getElem? hr))).1, Option.isSome_or, hk,
      Bool.or_true]
  | localBirth hrec haux hmap ht =>
    obtain ⟨p, -, rfl⟩ := Option.map_eq_some_iff.mp ht
    change (MapMeta.map (MapMeta.publishLocally _ _ _ _) k).isSome
    rw [MapMeta.map_publishLocally, update_apply]
    split_ifs <;> [rfl; exact hk]
  | _ => exact hk

lemma Move.diskMap_cases (hm : Move s e t) (hcrash : e ≠ .crash) :
    t.diskMap = s.diskMap ∨ ∃ page, e = .flushPage page ∧ t = s.flushPage page := by
  cases hm with
  | @flushPage page => exact .inr ⟨page, rfl, rfl⟩
  | flushSuper => exact .inl s.diskMap_flushSuper
  | ckptSuper => exact .inl s.diskMap_flushSuper
  | crash => exact absurd rfl hcrash
  | localBirth hrec haux hmap ht =>
    obtain ⟨p, -, rfl⟩ := Option.map_eq_some_iff.mp ht
    exact .inl rfl
  | _ => exact .inl rfl

namespace Stored

lemma dirty_of_evolves (h : Stored k s) {trunc entry}
    (hm : Evolves trunc { s.mapMeta with entry := entry } m) (hsome : (m.map k).isSome) :
    (s.diskMap k).isSome ∨ mapPageOf k ∈ m.dirtyPages := by
  obtain ⟨hpages, hmap⟩ := hm.dirty
  rcases hmap k with heq | hdirty
  · rw [heq] at hsome
    exact (h.dirty hsome).imp_right (hpages _)
  · exact .inr hdirty

lemma isSome_flushPage (h : Stored k s) (page : MapPageId) (hdisk : (s.diskMap k).isSome) :
    ((s.flushPage page).diskMap k).isSome := by
  change (if mapPageOf k = page then s.mapMeta.map k else s.diskMap k).isSome
  split_ifs
  · exact h.kept hdisk
  · exact hdisk

lemma dirty_flushPage (h : Stored k s) (page : MapPageId) (hmap : (s.mapMeta.map k).isSome) :
    ((s.flushPage page).diskMap k).isSome ∨
      mapPageOf k ∈ (s.flushPage page).mapMeta.dirtyPages := by
  by_cases hp : mapPageOf k = page
  · left
    change (if mapPageOf k = page then s.mapMeta.map k else s.diskMap k).isSome
    rwa [if_pos hp]
  · refine (h.dirty hmap).imp (h.isSome_flushPage page) fun hmem => ?_
    exact mem_filter.mpr ⟨hmem, by simpa using hp⟩

section

variable (h : Stored k s) (hm : Move s e t) (hcrash : e ≠ .crash)
include h hm hcrash

lemma isSome_diskMap (hdisk : (s.diskMap k).isSome) : (t.diskMap k).isSome := by
  rcases hm.diskMap_cases hcrash with heq | ⟨page, -, rfl⟩
  · rwa [heq]
  · exact h.isSome_flushPage page hdisk

lemma dirty_move (hmap : (t.mapMeta.map k).isSome) :
    (t.diskMap k).isSome ∨ mapPageOf k ∈ t.mapMeta.dirtyPages := by
  cases hm with
  | update hprog hu => exact h.dirty_of_evolves hu.evolves hmap
  | @flushPage page => exact h.dirty_flushPage page hmap
  | flushSuper | ckptSuper =>
    change (s.flushSuper.mapMeta.map k).isSome at hmap
    change (s.flushSuper.diskMap k).isSome ∨ mapPageOf k ∈ s.flushSuper.mapMeta.dirtyPages
    rw [State.mapMeta_flushSuper] at hmap ⊢
    rw [State.diskMap_flushSuper]
    exact h.dirty hmap
  | crash => exact absurd rfl hcrash
  | redo hrec hr hred => exact h.dirty_of_evolves (redoRecord_evolves hred) hmap
  | localBirth hrec haux hnone ht =>
    obtain ⟨p, -, rfl⟩ := Option.map_eq_some_iff.mp ht
    exact h.dirty_of_evolves (MapMeta.publishLocally_evolves ..) hmap
  | _ => exact h.dirty hmap

lemma kept_move (htr : TruncateFree s) (hdisk : (t.diskMap k).isSome) :
    (t.mapMeta.map k).isSome := by
  rcases hm.diskMap_cases hcrash with heq | ⟨page, -, rfl⟩
  · rw [heq] at hdisk
    exact hm.isSome_map hcrash htr (h.kept hdisk)
  · change (if mapPageOf k = page then s.mapMeta.map k else s.diskMap k).isSome at hdisk
    split_ifs at hdisk
    · exact hdisk
    · exact h.kept hdisk

end

end Stored

theorem Stored.step (h : Stored k s) (hd : Disciplined s) (hpos : Positioned s)
    (htr : TruncateFree s) (hm : Move s e t) : Stored k t := by
  have hbalanced : (entryAccount k).Balanced t := by
    refine h.toBalanced.step hd hpos hm (fun hcrash => ?_) ?_ ?_ ?_ nofun ?_
    · refine .of_move (fun r hr hnew => hm.isSome_map hcrash htr (hr hnew))
        (fun r hr hnew => h.isSome_diskMap hm hcrash (hr hnew)) hm hcrash fun hu r hr _ => ?_
      obtain ⟨pblk, rfl⟩ := hr.resolve_right id
      cases hu with
      | setMapping =>
        rw [MapMeta.map_setEntry, update_self]
        rfl
    · rintro page rfl hp r hr hnew
      cases hp
      cases hm with
      | flushPage =>
        change (if mapPageOf k = mapPageOf k then s.mapMeta.map k else s.diskMap k).isSome
        rw [if_pos rfl]
        exact hr hnew
      | start hrec hidle hbegin => cases hbegin
    · rintro page hp r hr
      cases hp
      by_cases hnew : (r.newPblk k).isSome
      · exact (h.dirty (hr hnew)).imp_left fun hd _ => hd
      · exact .inl fun h => absurd h hnew
    · rintro redo - - i - r ⟨b, -, -, j, -, hl⟩
      exact hl.elim
    · rintro pos r ⟨materialized, rfl⟩ hrec hr hnew
      cases hm with
      | redo hrec' hr' hred =>
        cases hrec.symm.trans hrec'
        cases hr.symm.trans hr'
        rw [(redoRecord_spec hred (htr.wal _ (mem_of_getElem? hr))).1, Option.isSome_or, hnew]
        rfl
      | start hrec hidle hbegin => cases hbegin
  by_cases hcrash : e = .crash
  · subst hcrash
    cases hm with
    | crash => exact ⟨hbalanced, fun hmap => .inl hmap, id⟩
    | start hrec hidle hbegin => cases hbegin
  · exact ⟨hbalanced, h.dirty_move hm hcrash, h.kept_move hm hcrash htr⟩

/-! ### Replay reads no page of zeros -/

/-- The superblock is written when the MAP pages it covers have been. -/
def superOk (s : State n) (e : Event n) : Bool :=
  match e with
  | .flushSuper | .ckptSuper => Dense s.diskMap s.mapMeta.entry.super.logical
  | _ => true

/-- A birth is logged in order, and one without a record is at or below the logical end. -/
def birthsOk (s : State n) (e : Event n) : Bool :=
  match e with
  | .run b =>
    match (s.backends b).prog with
    | .insert r :: _ => r.InOrder s.wal
    | _ => true
  | .localBirth k => k.2 ≤ s.mapMeta.entry.super.logical k.1
  | _ => true

/-- Replay finds the first entry of each MAP page inside the logical range, so the page is there. -/
structure Replayable (s : State n) : Prop where
  stored : ∀ k, Stored k s
  ordered : ForallBefore (fun i r => r.InOrder (s.wal.take i)) s.wal s.wal.length
  dense : s.recovery ≠ none → Dense s.mapMeta.map s.mapMeta.entry.super.logical

lemma inOrder_concat {wal : List Record}
    (h : ForallBefore (fun i r => r.InOrder (wal.take i)) wal wal.length) (hr : r.InOrder wal) :
    ForallBefore (fun i r' => r'.InOrder ((wal ++ [r]).take i)) (wal ++ [r])
      (wal ++ [r]).length := by
  refine ForallBefore.concat (h.imp fun i hi r' hr' => ?_) ?_
  · rwa [take_append_of_le_length hi.le]
  · rwa [take_append_of_le_length le_rfl, take_length]

lemma Dense.localBirth {pos} (h : Dense s.mapMeta.map s.mapMeta.entry.super.logical)
    (hk : k.2 ≤ s.mapMeta.entry.super.logical k.1) (ht : s.localBirth pos k = some t) :
    Dense t.mapMeta.map t.mapMeta.entry.super.logical := by
  obtain ⟨⟨pblk, entry⟩, hres, rfl⟩ := Option.map_eq_some_iff.mp ht
  have hentry : entry.super = s.mapMeta.entry.super := by
    unfold MapSuperEntry.reserveFresh at hres
    split_ifs at hres
    cases hres
    rfl
  intro fork lblk hlt hfirst
  change lblk < MapSuperblock.count _ .logical fork at hlt
  simp only [MapMeta.count_publishLocally, hentry] at hlt
  change (MapMeta.map (MapMeta.publishLocally _ _ _ _) (fork, lblk)).isSome
  rw [MapMeta.map_publishLocally, update_apply]
  split_ifs with hkey
  · rfl
  · refine h fork lblk ((lt_max_iff.mp hlt).elim id fun hlt => ?_) hfirst
    simp only [Record.bump] at hlt
    split_ifs at hlt with hfork
    · subst hfork
      have hne : lblk ≠ k.2 := fun heq => hkey (Prod.ext rfl heq)
      omega
    · cases hlt

namespace Replayable

theorem init (n : Nat) : Replayable (State.init n) where
  stored k := .init n k
  ordered i hi := absurd hi (Nat.not_lt_zero i)
  dense h := absurd rfl h

lemma named (h : Replayable s) {pos} (hrec : s.recovery = some pos)
    (hn : Named (s.wal.take pos) k) : (s.mapMeta.map k).isSome := by
  obtain ⟨r, hr, hsome⟩ := hn
  obtain ⟨i, hi⟩ := mem_iff_getElem?.mp hr
  rw [getElem?_take] at hi
  split_ifs at hi with hlt
  exact (h.stored k).recovering pos hrec i hlt r hi hsome

lemma redoReads (h : Replayable s) {pos} (hrec : s.recovery = some pos)
    (hr : s.wal[pos]? = some r) (inFile : MapPageId → Bool) :
    redoReads inFile s.mapMeta (pos + 1) r := by
  obtain ⟨hlt, -⟩ := List.getElem?_eq_some_iff.mp hr
  exact (h.dense (by rw [hrec]; nofun)).redoReads (fun _ => h.named hrec) (h.ordered pos hlt r hr)

lemma ordered_step (h : Replayable s) (hok : birthsOk s e = true) (hm : Move s e t) :
    ForallBefore (fun i r => r.InOrder (t.wal.take i)) t.wal t.wal.length := by
  cases hm with
  | insert hprog =>
    refine inOrder_concat h.ordered ?_
    simpa [birthsOk, hprog] using hok
  | insertOther | ckptRedo | ckptDone => exact inOrder_concat h.ordered trivial
  | flushPage =>
    rw [State.wal_flushPage]
    exact h.ordered
  | flushSuper | ckptSuper =>
    rw [show _ = s.wal from State.wal_flushSuper s]
    exact h.ordered
  | crash =>
    refine (h.ordered.take.mono (length_take_le' ..)).imp fun i hi r hr => ?_
    rwa [State.crash, take_take, min_eq_left (hi.le.trans (length_take_le ..))]
  | localBirth hrec haux hmap ht =>
    obtain ⟨p, -, rfl⟩ := Option.map_eq_some_iff.mp ht
    exact h.ordered
  | _ => exact h.ordered

lemma dense_step (h : Replayable s) (hd : Disciplined s) (htr : TruncateFree s)
    (hok : birthsOk s e = true) (hdisk : e = .crash → Dense s.diskMap s.diskSuper.logical)
    (hm : Move s e t) (ht : t.recovery ≠ none) :
    Dense t.mapMeta.map t.mapMeta.entry.super.logical := by
  by_cases hcrash : e = .crash
  · subst hcrash
    cases hm with
    | crash => exact hdisk rfl
    | start hrec hidle hbegin => cases hbegin
  have hrec : s.recovery ≠ none := fun hrec => ht (hm.recovery_eq_none hrec hcrash)
  have hdense := h.dense hrec
  cases hm with
  | reserve hrec' | preallocate hrec' => exact absurd hrec' hrec
  | update hprog | birthFresh hprog => exact absurd (hd.recovery_eq_none hprog) hrec
  | flushSuper | ckptSuper =>
    rw [show _ = s.mapMeta from State.mapMeta_flushSuper s]
    exact hdense
  | redo hpos hr hred =>
    obtain ⟨hlt, -⟩ := List.getElem?_eq_some_iff.mp hr
    exact hdense.redoRecord (fun _ => h.named hpos) (h.ordered _ hlt _ hr)
      (htr.wal _ (mem_of_getElem? hr)) hred
  | localBirth hpos haux hmap hbirth =>
    exact hdense.localBirth (by simpa [birthsOk] using hok) hbirth
  | crash => exact absurd rfl hcrash
  | _ => exact hdense

/-- Replay of what a crash leaves starts from dense pages if the pages on disk are dense. -/
theorem step (h : Replayable s) (hd : Disciplined s) (hpos : Positioned s) (htr : TruncateFree s)
    (hok : birthsOk s e = true) (hdisk : e = .crash → Dense s.diskMap s.diskSuper.logical)
    (hm : Move s e t) : Replayable t :=
  ⟨fun k => (h.stored k).step hd hpos htr hm, h.ordered_step hok hm,
    h.dense_step hd htr hok hdisk hm⟩

lemma disk_step (h : Replayable s) (hdisk : Dense s.diskMap s.diskSuper.logical)
    (hok : superOk s e = true) (hm : Move s e t) : Dense t.diskMap t.diskSuper.logical := by
  cases hm with
  | @flushPage page =>
    rw [State.diskSuper_flushPage]
    intro fork lblk hlt hfirst
    exact (h.stored _).isSome_flushPage page (hdisk fork lblk hlt hfirst)
  | flushSuper | ckptSuper =>
    rw [show _ = s.diskMap from State.diskMap_flushSuper s]
    exact of_decide_eq_true hok
  | localBirth hrec haux hmap ht =>
    obtain ⟨p, -, rfl⟩ := Option.map_eq_some_iff.mp ht
    exact hdisk
  | _ => exact hdisk

end Replayable

end Entries

end Umbra
