import Umbra.Block.Moves

/-!
# The mapping and the buffer of one block

The mapping is the one the records lead to, the page in the buffer is the one the records make, and
a block without a dirty buffer has that page on disk. The last needs that a write-back goes to the
block of the mapping.
-/

namespace Umbra.Block

open Foundation Function List

variable {β : Type} {r : Record β} {delta : β → β}

def LookupFresh (s : State β) : Event β → Prop
  | .log =>
    match s.update with
    | .remapping _ old => old = s.mapping
    | _ => True
  | _ => True

def SavedUnused (s : State β) : Event β → Prop
  | .writeStart _ =>
    ∀ b ∈ s.buffer, b.checkpointNeeded = true → ∀ pblk ∈ b.saved, pblk = s.mapping
  | _ => True

instance (s : State β) (e : Event β) : Decidable (LookupFresh s e) := by
  unfold LookupFresh
  split
  · split <;> infer_instance
  · infer_instance

instance (s : State β) (e : Event β) : Decidable (SavedUnused s e) := by
  unfold SavedUnused
  split <;> infer_instance

lemma LookupFresh.eq_mapping {s} (h : LookupFresh s .log) {old}
    (hu : s.update = .remapping delta old) : old = s.mapping := by
  simp only [LookupFresh, hu] at h
  exact h

def Compactor.Reserved (pblk : Nat) : Compactor → Prop
  | .claimed _ new | .copied _ new => pblk = new
  | .idle => False

/-! ### The mapping -/

/-- The mapping is the one the log leads to, and reservations lie behind it. -/
structure Charted (pblk : Nat) (s : State β) : Prop where
  chained : Chained pblk s.wal
  mapping : s.mapping = mapAt pblk s.wal s.wal.length
  below : s.mapping < s.nextFree
  mapLsn_le : s.mapLsn ≤ s.wal.length
  moved : ∀ i < s.mapLsn, Remapped s.wal i s.mapLsn
  settled : ¬ Remapped s.wal s.mapLsn s.wal.length
  reserved : ∀ new, s.compactor.Reserved new → s.mapping < new ∧ new < s.nextFree

namespace Charted

variable {pblk : Nat} {s t : State β}

lemma init (body : β) (pblk spare : Nat) (other : Nat → Option (Content β)) :
    Charted pblk (init body pblk spare other) where
  chained := .nil
  mapping := rfl
  below := lt_of_lt_of_le (Nat.lt_succ_self _) (Nat.le_add_right ..)
  mapLsn_le := le_rfl
  moved _ hi := absurd hi (Nat.not_lt_zero _)
  settled := fun ⟨_, _, _, hlt, _⟩ => Nat.not_lt_zero _ hlt
  reserved _ := False.elim

section

variable (h : Charted pblk s)
include h

lemma of_same (hwal : t.wal = s.wal) (hmapping : t.mapping = s.mapping) (hlsn : t.mapLsn = s.mapLsn)
    (hnext : t.nextFree = s.nextFree)
    (hcompactor : ∀ new, t.compactor.Reserved new → s.compactor.Reserved new) : Charted pblk t where
  chained := hwal ▸ h.chained
  mapping := by
    rw [hmapping, hwal]
    exact h.mapping
  below := by
    rw [hmapping, hnext]
    exact h.below
  mapLsn_le := by
    rw [hlsn, hwal]
    exact h.mapLsn_le
  moved := by
    rw [hlsn, hwal]
    exact h.moved
  settled := by
    rw [hlsn, hwal]
    exact h.settled
  reserved new hnew := by
    rw [hmapping, hnext]
    exact h.reserved new (hcompactor new hnew)

lemma claim (old) : Charted pblk
    { s with compactor := .claimed old s.nextFree, nextFree := s.nextFree + 1 } where
  __ := h
  below := h.below.trans (Nat.lt_succ_self _)
  reserved new hnew := by
    cases hnew
    exact ⟨h.below, Nat.lt_succ_self _⟩

lemma record (hr : r.isMapping = false) (hwal : t.wal = s.wal ++ [r])
    (hmapping : t.mapping = s.mapping) (hlsn : t.mapLsn = s.mapLsn)
    (hnext : t.nextFree = s.nextFree) (hcompactor : t.compactor = s.compactor) :
    Charted pblk t where
  chained := by
    rw [hwal]
    cases r with
    | other | plain => exact h.chained.concat trivial trivial
    | remap | mapSet => cases hr
  mapping := by
    rw [hmapping, hwal, length_append, length_singleton, mapAt_concat, ← h.mapping]
    cases r with
    | other | plain => rfl
    | remap | mapSet => cases hr
  below := by
    rw [hmapping, hnext]
    exact h.below
  mapLsn_le := by
    rw [hlsn, hwal, length_append]
    exact h.mapLsn_le.trans (Nat.le_add_right ..)
  moved i hi := by
    rw [hlsn] at hi ⊢
    rw [hwal]
    exact (h.moved i hi).append _
  settled := by
    rw [hlsn, hwal, length_append, length_singleton]
    exact fun hnot => h.settled (hnot.of_concat hr)
  reserved := by
    rw [hmapping, hnext, hcompactor]
    exact h.reserved

lemma move (hwal : t.wal = s.wal ++ [r]) (hr : r.isMapping = true) (hfrom : r.MovesFrom s.mapping)
    (habove : r.MovesAbove s.mapping) (hmapping : t.mapping = r.onMapping s.mapping)
    (hlsn : t.mapLsn = s.wal.length + 1) (hbelow : t.mapping < t.nextFree)
    (hcompactor : t.compactor = .idle) : Charted pblk t where
  chained := by
    rw [h.mapping] at hfrom habove
    rw [hwal]
    exact h.chained.concat hfrom habove
  mapping := by
    rw [hmapping, hwal, length_append, length_singleton, mapAt_concat, ← h.mapping]
  below := hbelow
  mapLsn_le := by
    rw [hlsn, hwal, length_append, length_singleton]
  moved i hi := by
    rw [hlsn] at hi ⊢
    rw [hwal]
    exact .concat (Nat.le_of_lt_succ hi) hr
  settled := by
    rintro ⟨l, r, hle, hlt, -⟩
    rw [hlsn] at hle
    rw [hwal, length_append, length_singleton] at hlt
    exact not_lt.mpr hle hlt
  reserved new hnew := by
    rw [hcompactor] at hnew
    exact hnew.elim

end

variable {compacting : Bool} {e : Event β} {i : Nat}

variable (h : Charted pblk s)
include h

lemma step (hfresh : LookupFresh s e) (hstep : (machine compacting).step s e = some t) :
    Charted pblk t := by
  cases Move.of_step hstep with
  | other | logPlain => exact h.record rfl rfl rfl rfl rfl rfl
  | logRemap hb hu hc =>
    exact h.move rfl rfl (hfresh.eq_mapping hu) h.below rfl rfl (Nat.lt_succ_self _) hc
  | relocate hc hm =>
    have hnew := h.reserved _ (by rw [hc]; exact rfl)
    exact h.move rfl rfl hm.symm hnew.1 rfl rfl hnew.2 rfl
  | claim old => exact h.claim old
  | copy hc =>
    refine h.of_same rfl rfl rfl rfl fun new hnew => ?_
    rw [hc]
    exact hnew
  | giveUp => exact h.of_same rfl rfl rfl rfl fun _ => False.elim
  | flushWal | writeMap | begin | assemble | writeStart | flySaved | flyActive | landSavedVictim
  | landSaved | landActive | evict | load | publish | flushMap | mark | complete =>
    exact h.of_same rfl rfl rfl rfl fun _ => id

lemma mapAt_ne_mapping (hr : Remapped s.wal i s.wal.length) : mapAt pblk s.wal i ≠ s.mapping := by
  rw [h.mapping]
  exact (h.chained.mapAt_lt hr).ne

lemma mapAt_eq_mapping (hi : i ≤ s.wal.length) (hr : ¬ Remapped s.wal i s.wal.length) :
    mapAt pblk s.wal i = s.mapping := by
  rw [h.mapping, mapAt_eq_of_not_remapped hi hr]

lemma mapAt_ne_reserved {new} (hi : i ≤ s.wal.length) (hnew : s.compactor.Reserved new) :
    mapAt pblk s.wal i ≠ new := by
  have hle := h.chained.mapAt_mono hi
  rw [← h.mapping] at hle
  exact (lt_of_le_of_lt hle (h.reserved new hnew).1).ne

end Charted

/-! ### The buffer -/

/-- The mapped block has the page that the whole log gives. -/
def State.Stored (base : Page β) (s : State β) : Prop :=
  s.disk s.mapping = some (.page (pageAt base s.wal s.wal.length))

/-- The buffer has the latest page, and so has the disk unless the buffer is dirty. -/
structure Cached (base : Page β) (s : State β) : Prop where
  page : ∀ b, s.buffer = some b → b.page = pageAt base s.wal s.wal.length
  stored : (∀ b, s.buffer = some b → b.dirty = false) → s.Stored base
  busy : s.update ≠ .none → s.writing = .none ∧ ∃ b, s.buffer = some b ∧ b.dirty = true
  writer : s.writing ≠ .none → ∃ b, s.buffer = some b ∧ b.dirty = true
  direct : s.writing = .none ∨ s.writing = .active ∨
    s.writing = .activeFlying s.mapping ∧ s.compactor = .idle
  copied : ∀ old new, s.compactor = .copied old new → s.disk new = s.disk old

namespace Cached

variable {base : Page β} {pblk : Nat} {s t : State β}

lemma init (body : β) (pblk spare : Nat) (other : Nat → Option (Content β)) :
    Cached ⟨0, body⟩ (init body pblk spare other) where
  page := nofun
  stored _ := update_self ..
  busy hu := absurd rfl hu
  writer hw := absurd rfl hw
  direct := .inl rfl
  copied := nofun

section
variable (h : Cached base s)
include h

lemma flying_of_busy (hu : s.update ≠ .none) : s.flying = none := by
  rw [State.flying, (h.busy hu).1]

lemma flying_of_clean (hb : ∀ b, s.buffer = some b → b.dirty = false) : s.flying = none := by
  have hw : s.writing = .none := by
    by_contra hw
    obtain ⟨b, hb', hd⟩ := h.writer hw
    exact absurd ((hb b hb').symm.trans hd) nofun
  rw [State.flying, hw]

lemma flying_of_compactor (hc : s.compactor ≠ .idle) : s.flying = none := by
  rcases h.direct with hw | hw | ⟨-, hidle⟩
  · rw [State.flying, hw]
  · rw [State.flying, hw]
  · exact absurd hidle hc

lemma direct_of_compactor (hc : s.compactor ≠ .idle) : s.writing = .none ∨ s.writing = .active := by
  rcases h.direct with hw | hw | ⟨-, hidle⟩
  · exact .inl hw
  · exact .inr hw
  · exact absurd hidle hc

lemma record (hr : ∀ lsn p, r.onPage lsn p = p) : Cached base { s with wal := s.wal ++ [r] } := by
  have hpage : pageAt base (s.wal ++ [r]) (s.wal ++ [r]).length =
      pageAt base s.wal s.wal.length := by
    rw [pageAt_length_concat, hr]
  refine { h with page := fun b hb => (h.page b hb).trans hpage.symm, stored := fun hb => ?_ }
  rw [State.Stored, hpage]
  exact h.stored hb

end

variable {b : SharedBuffer β}

section
variable (h : Cached base s) {old new : Nat}
include h

section

variable (hb : s.buffer = some b)
include hb

lemma begin (delta) (hw : s.writing = .none) : Cached base
      { s with update := .begun delta, buffer := some { b with dirty := true } }where
  page b' hb' := by
    cases hb'
    exact h.page b hb
  stored hclean := absurd (hclean _ rfl) nofun
  busy _ := ⟨hw, _, rfl, rfl⟩
  writer _ := ⟨_, rfl, rfl⟩
  direct := .inl hw
  copied := h.copied

lemma log (hu : s.update ≠ .none) (hr : ∀ lsn p, r.onPage lsn p = ⟨lsn, delta p.body⟩)
    {saved mapping mapLsn nextFree} : Cached base { s with
        wal := s.wal ++ [r]
        update := .none
        buffer := some { b with page := ⟨s.wal.length + 1, delta b.page.body⟩, saved := saved }
        mapping
        mapLsn
        nextFree } := by
  obtain ⟨hw, b', hb', hd⟩ := h.busy hu
  cases hb.symm.trans hb'
  refine ⟨fun b'' hb'' => ?_, fun hclean => ?_, fun hu => absurd rfl hu, fun hw' => absurd hw hw',
    .inl hw, h.copied⟩
  · cases hb''
    rw [pageAt_length_concat, hr, h.page b hb]
  · exact absurd ((hclean _ rfl).symm.trans hd) nofun

lemma writeStart (hd : b.dirty = true) (hu : s.update = .none) (victim)
    (hunused : SavedUnused s (.writeStart victim)) (durable) :
    Cached base { s with writing := s.firstWrite b victim, durable } := by
  have hfirst : s.firstWrite b victim = .active := by
    unfold State.firstWrite
    split
    next pblk hsaved =>
      refine if_neg fun ⟨hneeded, hne⟩ => hne ?_
      exact hunused b hb hneeded pblk hsaved
    next => rfl
  rw [hfirst]
  exact ⟨h.page, h.stored, fun hu' => absurd hu hu', fun _ => ⟨b, hb, hd⟩, .inr (.inl rfl),
    h.copied⟩

lemma land {target} (hw : s.writing = .activeFlying target) :
    Cached base ((s.setDisk target (some (.page b.page))).written b) := by
  have htarget : target = s.mapping ∧ s.compactor = .idle := by
    rcases h.direct with hw' | hw' | ⟨hw', hc⟩
    · cases hw.symm.trans hw'
    · cases hw.symm.trans hw'
    · cases hw.symm.trans hw'
      exact ⟨rfl, hc⟩
  obtain ⟨rfl, hc⟩ := htarget
  refine ⟨fun b' hb' => ?_, fun _ => ?_, fun hu => ?_, fun hw' => absurd rfl hw', .inl rfl,
    fun old new hc' => ?_⟩
  · cases hb'
    exact h.page b hb
  · have hdisk : update s.disk s.mapping (some (.page b.page)) s.mapping =
        some (.page b.page) := update_self ..
    exact hdisk.trans (congrArg (fun p => some (Content.page p)) (h.page b hb))
  · cases hw.symm.trans (h.busy hu).1
  · cases hc.symm.trans hc'

end

lemma load {p} (hb : s.buffer = none) (hdisk : s.disk s.mapping = some (.page p)) :
    Cached base { s with buffer := some ⟨p, false, false, none⟩ } := by
  have hstored := h.stored (by rw [hb]; nofun)
  refine ⟨fun b hb' => ?_, fun _ => hstored, fun hu => ?_, fun hw => ?_, h.direct, h.copied⟩
  · cases hb'
    cases hdisk.symm.trans hstored
    rfl
  · obtain ⟨-, b, hb', -⟩ := h.busy hu
    cases hb.symm.trans hb'
  · obtain ⟨b, hb', -⟩ := h.writer hw
    cases hb.symm.trans hb'

lemma of_buffer {buffer phase}
    (hof : ∀ b', buffer = some b' → ∃ b, s.buffer = some b ∧ b'.page = b.page ∧ b'.dirty = b.dirty)
    (hto : ∀ b, s.buffer = some b → ∃ b', buffer = some b' ∧ b'.dirty = b.dirty) :
    Cached base { s with phase, buffer } := by
  have hdirty : ∀ b, s.buffer = some b → b.dirty = true →
      ∃ b', buffer = some b' ∧ b'.dirty = true := by
    intro b hb hd
    obtain ⟨b', hb', hd'⟩ := hto b hb
    exact ⟨b', hb', hd'.trans hd⟩
  refine ⟨fun b' hb' => ?_, fun hclean => h.stored fun b hb => ?_, fun hu => ?_, fun hw => ?_,
    h.direct, h.copied⟩
  · obtain ⟨b, hb, hpage, -⟩ := hof b' hb'
    exact hpage.trans (h.page b hb)
  · obtain ⟨b', hb', hd⟩ := hto b hb
    exact hd.symm.trans (hclean b' hb')
  · obtain ⟨hw, b, hb, hd⟩ := h.busy hu
    exact ⟨hw, hdirty b hb hd⟩
  · obtain ⟨b, hb, hd⟩ := h.writer hw
    exact hdirty b hb hd

lemma copy (hc : s.compactor = .claimed old new) (hne : s.mapping ≠ new) :
    Cached base { s.setDisk new (s.disk old) with compactor := .copied old new } := by
  refine ⟨h.page, fun hclean => ?_, h.busy, h.writer, ?_, fun old' new' hc' => ?_⟩
  · exact (update_of_ne hne ..).trans (h.stored hclean)
  · exact (h.direct_of_compactor (by rw [hc]; nofun)).imp_right .inl
  · cases hc'
    refine (update_self ..).trans ?_
    rcases eq_or_ne old new with rfl | hne
    · exact (update_self old (s.disk old) s.disk).symm
    · exact (update_of_ne hne (s.disk old) s.disk).symm

lemma relocate (hc : s.compactor = .copied old new) (hm : s.mapping = old) :
    Cached base (s.relocate old new) := by
  have hpage : pageAt base (s.wal ++ [.mapSet old new]) (s.wal ++ [Record.mapSet old new]).length =
      pageAt base s.wal s.wal.length := pageAt_length_concat
  refine ⟨fun b hb => (h.page b hb).trans hpage.symm, fun hclean => ?_, h.busy, h.writer, ?_,
    fun old' new' hc' => by cases hc'⟩
  · have hstored : s.disk s.mapping = _ := h.stored hclean
    rw [hm, ← h.copied old new hc, ← hpage] at hstored
    exact hstored
  · exact (h.direct_of_compactor (by rw [hc]; nofun)).imp_right .inl

end

variable {compacting : Bool} {e : Event β}

lemma step (h : Cached base s) (hchart : Charted pblk s) (hunused : SavedUnused s e)
    (hstep : (machine compacting).step s e = some t) : Cached base t := by
  cases Move.of_step hstep with
  | other => exact h.record fun _ _ => rfl
  | begin delta hb hu hw => exact h.begin hb delta hw
  | assemble hb hu =>
    exact { h with busy := fun _ => h.busy (by rw [hu]; nofun) }
  | logPlain hb hu | logRemap hb hu => exact h.log hb (by rw [hu]; nofun) fun _ _ => rfl
  | writeStart victim hb hu hw hd => exact h.writeStart hb hd hu victim hunused _
  | flySaved hw | landSavedVictim hb hw | landSaved hb hw =>
    rcases h.direct with hw' | hw' | ⟨hw', -⟩ <;> cases hw.symm.trans hw'
  | flyActive hw hc =>
    refine ⟨h.page, h.stored, fun hu => ?_, fun _ => h.writer (by rw [hw]; nofun),
      .inr (.inr ⟨rfl, hc⟩), h.copied⟩
    cases hw.symm.trans (h.busy hu).1
  | landActive hb hw => exact h.land hb hw
  | evict hb hu hw hd =>
    refine ⟨nofun, fun _ => h.stored fun b' hb' => ?_, fun hu' => absurd hu hu',
      fun hw' => absurd hw hw', .inl hw, h.copied⟩
    cases hb.symm.trans hb'
    exact hd
  | load hb hdisk => exact h.load hb hdisk
  | mark =>
    refine h.of_buffer (fun b' hb' => ?_) fun b hb => ?_
    · obtain ⟨b, hb, rfl⟩ := Option.map_eq_some_iff.mp hb'
      exact ⟨b, hb, rfl, rfl⟩
    · exact ⟨_, Option.map_eq_some_iff.mpr ⟨b, hb, rfl⟩, rfl⟩
  | claim old hcompacting hc hun =>
    refine ⟨h.page, h.stored, h.busy, h.writer, ?_, fun old' new hc' => by cases hc'⟩
    rcases h.direct with hw | hw | ⟨hw, -⟩
    · exact .inl hw
    · exact .inr (.inl hw)
    · exact absurd hw (hun _)
  | copy hc =>
    refine h.copy hc ?_
    exact (hchart.reserved _ (by rw [hc]; exact rfl)).1.ne
  | relocate hc hm => exact h.relocate hc hm
  | giveUp =>
    exact ⟨h.page, h.stored, h.busy, h.writer,
      h.direct.imp_right (.imp_right (.imp_right fun _ => rfl)), fun old new hc => by cases hc⟩
  | flushWal | writeMap | publish | flushMap | complete =>
    exact { h with }

end Cached

end Umbra.Block
