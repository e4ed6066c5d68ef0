import Umbra.Recovery.SuperblockReset

/-!
# When a superblock that starts over is large enough

The counters behind an update are those before it, or zero if the superblock starts over, raised by
what the update names. So a record keeps every mapped block below the counters if they were below
before, or if the record itself raises the counters that far.
-/

namespace Umbra.SuperblockReset

open Foundation SuperblockCrc Function Option

variable {fork : ForkNumber} {lsn blkno n : Nat}

/-! ### Counters -/

structure Counts where
  logical : ForkNumber → Nat
  next : ForkNumber → Nat

open Counts

namespace Counts

def zero : Counts := ⟨fun _ => 0, fun _ => 0⟩

def ofSuper (super : MapSuperblock) : Counts := ⟨super.logical, super.nextFree⟩

structure Le (c d : Counts) : Prop where
  logical : ∀ fork, c.logical fork ≤ d.logical fork
  next : ∀ fork, c.next fork ≤ d.next fork

lemma Le.refl (c) : Le c c := ⟨fun _ => le_rfl, fun _ => le_rfl⟩

lemma Le.trans {c d e} (h : Le c d) (h' : Le d e) : Le c e :=
  ⟨fun fork => (h.logical fork).trans (h'.logical fork),
    fun fork => (h.next fork).trans (h'.next fork)⟩

def sup (c d : Counts) : Counts where
  logical fork := max (c.logical fork) (d.logical fork)
  next fork := max (c.next fork) (d.next fork)

lemma le_sup_left (c d) : Le c (c.sup d) :=
  ⟨fun _ => le_max_left _ _, fun _ => le_max_left _ _⟩

lemma le_sup_right (c d : Counts) : Le d (c.sup d) :=
  ⟨fun _ => Nat.le_max_right _ _, fun _ => Nat.le_max_right _ _⟩

lemma sup_le {c d e} (h : Le c e) (h' : Le d e) : Le (c.sup d) e :=
  ⟨fun fork => Nat.max_le.mpr ⟨h.logical fork, h'.logical fork⟩,
    fun fork => Nat.max_le.mpr ⟨h.next fork, h'.next fork⟩⟩

def single (fork : ForkNumber) (n : Nat) : ForkNumber → Nat :=
  fun fork' => if fork' = fork then n else 0

lemma single_le {f : ForkNumber → Nat} (h : n ≤ f fork) (fork') :
    single fork n fork' ≤ f fork' := by
  rw [single]
  split
  · rename_i heq
    rw [heq]
    exact h
  · exact Nat.zero_le _

def act (c : Counts) : SuperblockCrc.Update → Counts
  | .bumpLogical fork blkno =>
    { c with logical := update c.logical fork (max (c.logical fork) (blkno + 1)) }
  | .setLogical fork nblocks => { c with logical := update c.logical fork nblocks }
  | .bumpNextFree fork blkno =>
    { c with next := update c.next fork (max (c.next fork) (blkno + 1)) }
  | .bumpPhysicalState fork blkno =>
    { c with next := update c.next fork (max (c.next fork) (blkno + 1)) }
  | .bumpCapacity .. => c
  | .setSkipWalPending _ => c
  | .ensurePhysical .. => c

lemma le_update_max (f : ForkNumber → Nat) (fork : ForkNumber) (n : Nat) (fork' : ForkNumber) :
    f fork' ≤ update f fork (max (f fork) n) fork' := by
  by_cases h : fork' = fork
  · subst h
    rw [update_self]
    exact le_max_left _ _
  · rw [update_of_ne h]

lemma le_act_bumpLogical (c fork blkno) : Le c (c.act (.bumpLogical fork blkno)) :=
  ⟨le_update_max c.logical fork (blkno + 1), fun _ => le_rfl⟩

lemma le_act_bumpNextFree (c fork blkno) : Le c (c.act (.bumpNextFree fork blkno)) :=
  ⟨fun _ => le_rfl, le_update_max c.next fork (blkno + 1)⟩

lemma lt_act_bumpLogical (c : Counts) (fork : ForkNumber) (blkno : Nat) :
    blkno < (c.act (.bumpLogical fork blkno)).logical fork := by
  simp only [act, update_self]
  exact Nat.le_max_right _ _

lemma lt_act_bumpNextFree (c : Counts) (fork : ForkNumber) (blkno : Nat) :
    blkno < (c.act (.bumpNextFree fork blkno)).next fork := by
  simp only [act, update_self]
  exact Nat.le_max_right _ _

lemma ofSuper_init : ofSuper .init = zero := by
  refine congrArg₂ mk (funext fun fork => ?_) (funext fun fork => ?_)
  · cases fork <;> rfl
  · cases fork <;> rfl

lemma ofSuper_setCounts (super : MapSuperblock) (fork : ForkNumber) (c : ForkCounts) (lsn : Nat) :
    ofSuper (super.setCounts fork c lsn) =
      ⟨update super.logical fork (mapNormalizeForkBlockCount fork c.logicalNblocks),
        update super.nextFree fork (mapNormalizeForkBlockCount fork c.nextFreePhysBlock)⟩ := by
  refine congrArg₂ mk (funext fun fork' => ?_) (funext fun fork' => ?_)
  · by_cases h : fork' = fork
    · subst h
      simp only [MapSuperblock.logical, MapSuperblock.setCounts, update_self]
    · simp only [MapSuperblock.logical, MapSuperblock.setCounts, update_of_ne h]
  · by_cases h : fork' = fork
    · subst h
      simp only [MapSuperblock.nextFree, MapSuperblock.setCounts, update_self]
    · simp only [MapSuperblock.nextFree, MapSuperblock.setCounts, update_of_ne h]

end Counts

/-! ### Entries -/

def countsOf (e : Entry) : Counts :=
  if e.corrupt then .zero else .ofSuper e.super.contents.super

variable {crc32c : Contents → UInt32} {e e' : Entry}

structure Sound (crc32c : Contents → UInt32) (e : Entry) : Prop where
  valid : e.valid = true
  trusted : e.Trusted crc32c
  identity : e.corrupt = false → e.super.hasValidIdentity = true

lemma Sound.prepare {e₁} (h : Sound crc32c e) (hprepare : e.prepare crc32c true lsn = some e₁) :
    e₁.valid = true ∧ e₁.corrupt = false ∧ e₁.super.hasValidIdentity = true ∧
      ofSuper e₁.super.contents.super = countsOf e := by
  rw [Entry.prepare] at hprepare
  by_cases hcorrupt : e.corrupt = true
  · rw [if_pos (.inl hcorrupt)] at hprepare
    split at hprepare
    · cases hprepare
    · cases hprepare
      refine ⟨rfl, rfl, rfl, ?_⟩
      rw [countsOf, if_pos hcorrupt]
      exact ofSuper_init
  · have hfalse : e.corrupt = false := Bool.eq_false_of_not_eq_true hcorrupt
    have hid := h.identity hfalse
    have hbad : ¬ (e.corrupt ∨ ¬ e.super.hasValidIdentity ∨
        (¬ e.dirty ∧ ¬ e.super.checkCrc crc32c)) := by
      rintro (hc | hi | ⟨hdirty, hcrc⟩)
      · exact hcorrupt hc
      · exact hi hid
      · exact hcrc (h.trusted h.valid hfalse (Bool.eq_false_of_not_eq_true hdirty))
    rw [if_neg hbad] at hprepare
    cases hprepare
    refine ⟨h.valid, hfalse, hid, ?_⟩
    rw [countsOf, if_neg hcorrupt]

/-- The entry takes the update and is otherwise as trusted as before. -/
structure Acts (e e' : Entry) (u : SuperblockCrc.Update) : Prop where
  valid : e'.valid = e.valid
  corrupt : e'.corrupt = e.corrupt
  identity : e'.super.hasValidIdentity = e.super.hasValidIdentity
  counts : ofSuper e'.super.contents.super = (ofSuper e.super.contents.super).act u

variable {u : SuperblockCrc.Update} {pblk : Nat} {nblocks : Nat} {now : Nat}

lemma acts_store {c}
    (h : (ofSuper e.super.contents.super).act u = ⟨update e.super.contents.super.logical fork
      (mapNormalizeForkBlockCount fork c.logicalNblocks), update e.super.contents.super.nextFree
      fork (mapNormalizeForkBlockCount fork c.nextFreePhysBlock)⟩) :
    Acts e (e.store fork c lsn) u :=
  ⟨rfl, rfl, rfl, (ofSuper_setCounts ..).trans h.symm⟩

lemma acts_self (h : (ofSuper e.super.contents.super).act u =
    .ofSuper e.super.contents.super) : Acts e e u := ⟨rfl, rfl, rfl, h.symm⟩

lemma acts_updateLogicalNblocks {bumpOnly}
    (h : ∀ c : Counts, c.act u = ⟨update c.logical fork (if bumpOnly then max (c.logical fork)
      nblocks else nblocks), c.next⟩) (lsn) :
    Acts e (e.updateLogicalNblocks fork nblocks lsn bumpOnly) u := by
  rw [Entry.updateLogicalNblocks]
  split
  · rename_i hcond
    apply acts_store
    rw [h, mapNormalizeForkBlockCount_some]
    refine congrArg₂ mk ?_ (update_eq_self fork _).symm
    congr 1
    cases bumpOnly with
    | false => rfl
    | true => exact max_eq_right (hcond.resolve_left (by decide)).le
  · rename_i hcond
    rw [not_or] at hcond
    cases bumpOnly with
    | false => exact absurd rfl hcond.1
    | true =>
      apply acts_self
      have hmax : max (e.super.contents.super.logical fork) nblocks =
          e.super.contents.super.logical fork := max_eq_left (le_of_not_gt hcond.2)
      rw [h, if_pos rfl, ofSuper, hmax, update_eq_self]

lemma acts_bumpPhysicalState {next capacity}
    (h : ∀ c : Counts, c.act u = ⟨c.logical, update c.next fork (if next then max (c.next fork)
      nblocks else c.next fork)⟩) (lsn) :
    Acts e (e.bumpPhysicalState fork nblocks lsn next capacity) u := by
  rw [Entry.bumpPhysicalState]
  by_cases hnext : next = true ∧ e.super.contents.super.nextFree fork < nblocks
  · rw [if_pos (.inl hnext)]
    apply acts_store
    rw [h, if_pos hnext, if_pos hnext.1, mapNormalizeForkBlockCount_some, ofSuper]
    refine congrArg₂ mk (update_eq_self fork _).symm ?_
    rw [max_eq_right hnext.2.le]
  · have hsame : (ofSuper e.super.contents.super).act u =
        .ofSuper e.super.contents.super := by
      have hmax : (if next then max (e.super.contents.super.nextFree fork) nblocks
          else e.super.contents.super.nextFree fork) = e.super.contents.super.nextFree fork := by
        split
        · rename_i htrue
          exact max_eq_left (le_of_not_gt fun hlt => hnext ⟨htrue, hlt⟩)
        · rfl
      rw [h, ofSuper, hmax, update_eq_self]
    split
    · apply acts_store
      rw [hsame]
      exact congrArg₂ mk (update_eq_self fork _).symm (update_eq_self fork _).symm
    · exact acts_self hsame

lemma acts_setPendingFlag (e pending lsn) :
    Acts e (e.setPendingFlag pending lsn) (.setSkipWalPending pending) := by
  rw [Entry.setPendingFlag]
  split
  · exact ⟨rfl, rfl, rfl, rfl⟩
  · exact ⟨rfl, rfl, rfl, rfl⟩

lemma update_eq_some (h : e.update crc32c true lsn now u = some e') :
    ∃ e₁ lsn', e.prepare crc32c true lsn' = some e₁ ∧ Acts e₁ e' u := by
  have hsame : ∀ (c : Counts) (fork : ForkNumber),
      c = ⟨c.logical, update c.next fork (c.next fork)⟩ :=
    fun c fork => congrArg (mk _) (update_eq_self fork _).symm
  cases u with
  | bumpLogical | setLogical =>
    obtain ⟨e₁, hprepare, rfl⟩ := map_eq_some_iff.mp h
    exact ⟨e₁, lsn, hprepare, acts_updateLogicalNblocks (fun _ => rfl) _⟩
  | bumpNextFree | bumpPhysicalState =>
    obtain ⟨e₁, hprepare, rfl⟩ := map_eq_some_iff.mp h
    exact ⟨e₁, lsn, hprepare, acts_bumpPhysicalState (fun _ => rfl) _⟩
  | bumpCapacity fork =>
    obtain ⟨e₁, hprepare, rfl⟩ := map_eq_some_iff.mp h
    refine ⟨e₁, lsn, hprepare, acts_bumpPhysicalState ?_ _⟩
    exact (hsame · fork)
  | setSkipWalPending =>
    obtain ⟨e₁, hprepare, rfl⟩ := map_eq_some_iff.mp h
    exact ⟨e₁, _, hprepare, acts_setPendingFlag ..⟩
  | ensurePhysical fork =>
    obtain ⟨e₁, hprepare, rfl⟩ := map_eq_some_iff.mp h
    refine ⟨e₁, _, hprepare, acts_bumpPhysicalState ?_ _⟩
    exact (hsame · fork)

lemma Sound.update (hs : Sound crc32c e) (h : e.update crc32c true lsn now u = some e') :
    Sound crc32c e' ∧ e'.corrupt = false ∧ countsOf e' = (countsOf e).act u := by
  obtain ⟨e₁, lsn', hprepare, hacts⟩ := update_eq_some h
  obtain ⟨hvalid₁, hcorrupt₁, hid₁, hcounts₁⟩ := hs.prepare hprepare
  refine ⟨⟨hacts.valid.trans hvalid₁, Entry.trusted_update hs.trusted h,
    fun _ => hacts.identity.trans hid₁⟩, hacts.corrupt.trans hcorrupt₁, ?_⟩
  rw [countsOf, hacts.corrupt, hcorrupt₁, if_neg Bool.false_ne_true, hacts.counts, hcounts₁]

lemma sound_install (x) : Sound crc32c (Entry.fresh.install (x.load crc32c) x) := by
  cases hload : x.load crc32c with
  | ok =>
    have hcheck : x.hasValidIdentity = true ∧ x.checkCrc crc32c = true := by
      rw [Sector.load] at hload
      split at hload
      · assumption
      · cases hload
    exact ⟨rfl, fun _ _ _ => hcheck.2, fun _ => hcheck.1⟩
  | corrupt => exact ⟨rfl, fun _ h => (by cases h), by rintro ⟨⟩⟩

/-! ### States -/

namespace State

variable {s t u : State} {up : SuperblockCrc.Update}

lemma map_setMapping_self {k} : (s.setMapping k pblk).map k = some pblk := update_self ..

lemma map_setMapping_of_ne {k k'} (h : k ≠ k') :
    (s.setMapping k' pblk).map k = s.map k := update_of_ne h ..

lemma truncated_setMapping_of_ne {k k'} (h : k ≠ k') :
    (s.setMapping k' pblk).truncated k = s.truncated k := update_of_ne h ..

def counts (crc32c : Contents → UInt32) (s : State) : Counts := countsOf (s.entryOf crc32c)

def trusted (crc32c : Contents → UInt32) (s : State) : Bool := !(s.entryOf crc32c).corrupt

lemma counts_of_trusted (h : s.trusted crc32c = true) :
    s.counts crc32c = .ofSuper (s.super crc32c) := by
  rw [trusted, Bool.not_eq_true'] at h
  rw [counts, countsOf, h]
  rfl

structure Grown (crc32c : Contents → UInt32) (s t : State) : Prop where
  sound : Sound crc32c (t.entryOf crc32c)
  trusted : t.trusted crc32c = true
  counts : Counts.Le (s.counts crc32c) (t.counts crc32c)
  wal : t.wal = s.wal
  pending : t.pending = s.pending

lemma Grown.trans (h : Grown crc32c s t) (h' : Grown crc32c t u) : Grown crc32c s u :=
  ⟨h'.sound, h'.trusted, h.counts.trans h'.counts, h'.wal.trans h.wal, h'.pending.trans h.pending⟩

structure Updated (crc32c : Contents → UInt32) (s : State) (u : SuperblockCrc.Update) (t : State) :
    Prop where
  sound : Sound crc32c (t.entryOf crc32c)
  trusted : t.trusted crc32c = true
  counts : t.counts crc32c = (s.counts crc32c).act u
  frame : ∃ e, t = { s with entry := some e }

lemma Updated.grown (h : Updated crc32c s up t)
    (hle : Counts.Le (s.counts crc32c) ((s.counts crc32c).act up)) : Grown crc32c s t := by
  obtain ⟨e, rfl⟩ := h.frame
  exact ⟨h.sound, h.trusted, h.counts ▸ hle, rfl, rfl⟩

section Sound

variable (hs : Sound crc32c (s.entryOf crc32c))
include hs

lemma updated (h : s.update crc32c lsn up = some t) : Updated crc32c s up t := by
  obtain ⟨e, he, rfl⟩ := map_eq_some_iff.mp h
  obtain ⟨hsound, hcorrupt, hcounts⟩ := hs.update he
  exact ⟨hsound, by rw [State.trusted]; exact congrArg not hcorrupt, hcounts, e, rfl⟩

lemma grown_bumpLogical (h : s.update crc32c lsn (.bumpLogical fork blkno) = some t) :
    Grown crc32c s t ∧ blkno < (t.counts crc32c).logical fork := by
  have hupdated := updated hs h
  refine ⟨hupdated.grown (le_act_bumpLogical ..), ?_⟩
  rw [hupdated.counts]
  exact lt_act_bumpLogical ..

lemma grown_bumpNextFree (h : s.update crc32c lsn (.bumpNextFree fork blkno) = some t) :
    Grown crc32c s t ∧ blkno < (t.counts crc32c).next fork := by
  have hupdated := updated hs h
  refine ⟨hupdated.grown (le_act_bumpNextFree ..), ?_⟩
  rw [hupdated.counts]
  exact lt_act_bumpNextFree ..

lemma grown_bumpCapacity (h : s.update crc32c lsn (.bumpCapacity fork blkno) = some t) :
    Grown crc32c s t :=
  (updated hs h).grown (.refl _)

end Sound

end State

/-! ### Blocks below the counters -/

def Fine (gone : BlockKey → Prop) (c : Counts) (s : State) (k : BlockKey) : Prop :=
  ∀ pblk, s.map k = some pblk → pblk < c.next k.1 ∧
    (s.truncated k = false → k ∉ s.invalid → ¬ gone k → k.2 < c.logical k.1)

variable {s t : State} {gone : BlockKey → Prop} {c d : Counts} {k key : BlockKey} {pblk : Nat}
  {isNew found : Bool}

lemma Fine.mono (h : Fine gone c s k) (hle : c.Le d) : Fine gone d s k := by
  intro pblk hmap
  obtain ⟨hnext, hlogical⟩ := h pblk hmap
  exact ⟨hnext.trans_le (hle.next _), fun htruncated hnote hgone =>
    (hlogical htruncated hnote hgone).trans_le (hle.logical _)⟩

lemma Fine.of_frame (h : Fine gone c s k) (hframe : ∃ e, t = { s with entry := some e }) :
    Fine gone c t k := by
  obtain ⟨e, rfl⟩ := hframe
  exact h

lemma Fine.setMapping (h : k ≠ key → Fine gone c s k) (hnext : pblk < c.next key.1)
    (hlogical : k = key → key ∉ s.invalid → ¬ gone key → key.2 < c.logical key.1) :
    Fine gone c (s.setMapping key pblk) k := by
  intro p hmap
  by_cases hk : k = key
  · subst hk
    rw [State.map_setMapping_self] at hmap
    cases hmap
    exact ⟨hnext, fun _ => hlogical rfl⟩
  · rw [State.map_setMapping_of_ne hk] at hmap
    rw [State.truncated_setMapping_of_ne hk]
    exact h hk p hmap

lemma Fine.note (h : k ≠ key → Fine gone c s k)
    (hkey : k = key → ∀ pblk, s.map key = some pblk → pblk < c.next key.1) :
    Fine gone c { s with invalid := key :: s.invalid } k := by
  intro pblk hmap
  by_cases hk : k = key
  · subst hk
    exact ⟨hkey rfl pblk hmap, fun _ hnote => absurd List.mem_cons_self hnote⟩
  · obtain ⟨hnext, hlogical⟩ := h hk pblk hmap
    exact ⟨hnext, fun htruncated hnote =>
      hlogical htruncated fun hmem => hnote (List.mem_cons_of_mem _ hmem)⟩

namespace State

/-! ### Reading a block -/

lemma nblocks_eq_some (h : s.nblocks crc32c fork = some n) :
    s.trusted crc32c = true ∧ n = (s.counts crc32c).logical fork := by
  rw [nblocks] at h
  split at h
  · rename_i hsuper
    cases h
    have htrusted : s.trusted crc32c = true := (Bool.and_eq_true_iff.mp hsuper).1
    rw [counts_of_trusted htrusted]
    exact ⟨htrusted, rfl⟩
  · cases h

lemma grown_setMapping_bumpNextFree (hs : Sound crc32c (s.entryOf crc32c))
    (h : (s.setMapping key pblk).update crc32c lsn (.bumpNextFree fork blkno) = some t) :
    Grown crc32c s t ∧ blkno < (t.counts crc32c).next fork ∧
      ∀ {gone : BlockKey → Prop} {c : Counts} {k : BlockKey}, (k ≠ key → Fine gone c s k) →
        pblk < c.next key.1 → (k = key → key ∉ s.invalid → ¬ gone key → key.2 < c.logical key.1) →
        Fine gone c t k := by
  have hs' : Sound crc32c ((s.setMapping key pblk).entryOf crc32c) := hs
  obtain ⟨hgrown, hlt⟩ := grown_bumpNextFree hs' h
  refine ⟨{ hgrown with }, hlt, ?_⟩
  intro gone c k hfine hnext hlogical
  exact (Fine.setMapping hfine hnext hlogical).of_frame (updated hs' h).frame

def extending (crc32c : Contents → UInt32) (logical : ForkNumber → Nat) (s : State) : Counts :=
  ⟨logical, (s.counts crc32c).next⟩

lemma grown_zeroextendBlocks (logical) {count} :
    ∀ {first : Nat} {s : State}, Sound crc32c (s.entryOf crc32c) → s.trusted crc32c = true →
      first + count ≤ logical fork → s.zeroextendBlocks crc32c fork first count = some t →
      Grown crc32c s t ∧ ∀ gone k, Fine gone (s.extending crc32c logical) s k →
        Fine gone (t.extending crc32c logical) t k := by
  induction count with
  | zero =>
    intro first s hs htrusted _ h
    cases h
    exact ⟨⟨hs, htrusted, .refl _, rfl, rfl⟩, fun _ _ hk => hk⟩
  | succ count ih =>
    intro first s hs htrusted hlogical h
    rw [zeroextendBlocks] at h
    split at h
    · exact ih hs htrusted (by omega) h
    · obtain ⟨u, hu, h⟩ := bind_eq_some_iff.mp h
      rw [publishMappedBirth] at hu
      split at hu
      · cases hu
      · obtain ⟨hgrown, hnext, hmapped⟩ := grown_setMapping_bumpNextFree hs hu
        obtain ⟨hgrown', hfine⟩ := ih hgrown.sound hgrown.trusted (by omega) h
        refine ⟨hgrown.trans hgrown', fun gone k hk => hfine gone k ?_⟩
        have hle : Counts.Le (s.extending crc32c logical) (u.extending crc32c logical) :=
          ⟨fun _ => le_rfl, hgrown.counts.next⟩
        have hlt : first < logical fork := by omega
        exact hmapped (fun _ => hk.mono hle) hnext fun _ _ _ => hlt

def extended (crc32c : Contents → UInt32) (s : State) (k : BlockKey) : Counts :=
  (s.counts crc32c).sup ⟨single k.1 (k.2 + 1), fun _ => 0⟩

lemma grown_zeroextend {lblk} (hs : Sound crc32c (s.entryOf crc32c))
    (htrusted : s.trusted crc32c = true) (hle : (s.counts crc32c).logical fork ≤ lblk)
    (h : s.zeroextend crc32c fork ((s.counts crc32c).logical fork) (lblk + 1 - (s.counts
      crc32c).logical fork) = some t) :
    Grown crc32c s t ∧ lblk < (t.counts crc32c).logical fork ∧
      ∀ gone k, Fine gone (s.extended crc32c (fork, lblk)) s k →
        Fine gone (t.counts crc32c) t k := by
  obtain ⟨u, hu, h⟩ := bind_eq_some_iff.mp h
  obtain ⟨v, hv, h⟩ := bind_eq_some_iff.mp h
  have hlast : (s.counts crc32c).logical fork + (lblk + 1 - (s.counts crc32c).logical fork) - 1 =
      lblk := by omega
  rw [hlast] at h
  have hbound : (s.counts crc32c).logical fork + (lblk + 1 - (s.counts crc32c).logical fork) ≤
      (s.extended crc32c (fork, lblk)).logical fork := by
    show _ ≤ max ((s.counts crc32c).logical fork) (single fork (lblk + 1) fork)
    rw [single, if_pos rfl]
    omega
  obtain ⟨hgrown, hfine⟩ := grown_zeroextendBlocks _ hs htrusted hbound hu
  have hgrown' := grown_bumpCapacity hgrown.sound hv
  obtain ⟨hgrown'', hlt⟩ := grown_bumpLogical hgrown'.sound h
  have hall := (hgrown.trans hgrown').trans hgrown''
  refine ⟨hall, hlt, fun gone k hk => ?_⟩
  have hstart : Fine gone (s.extending crc32c (s.extended crc32c (fork, lblk)).logical) s k :=
    hk.mono ⟨fun _ => le_rfl, fun fork' => Nat.max_le.mpr ⟨le_rfl, Nat.zero_le _⟩⟩
  have hend := ((hfine gone k hstart).of_frame (updated hgrown.sound hv).frame).of_frame
    (updated hgrown'.sound h).frame
  refine hend.mono ⟨fun fork' => ?_, (hgrown'.trans hgrown'').counts.next⟩
  exact Nat.max_le.mpr ⟨hall.counts.logical fork', single_le hlt fork'⟩

lemma readBufferExtended_zeroed (hs : Sound crc32c (s.entryOf crc32c))
    (h : s.readBufferExtended crc32c key true isNew = some (t, found)) :
    s.trusted crc32c = true ∧ Grown crc32c s t ∧ key.2 < (t.counts crc32c).logical key.1 ∧
      ∀ gone k, Fine gone (s.extended crc32c key) s k → Fine gone (t.counts crc32c) t k := by
  obtain ⟨n, hn, h⟩ := bind_eq_some_iff.mp h
  obtain ⟨htrusted, rfl⟩ := nblocks_eq_some hn
  split at h
  · rename_i hlt
    cases h
    refine ⟨htrusted, ⟨hs, htrusted, .refl _, rfl, rfl⟩, hlt, fun _ _ hk => hk.mono ?_⟩
    exact sup_le (.refl _) ⟨single_le hlt, fun _ => Nat.zero_le _⟩
  · rename_i hle
    obtain ⟨u, hu, heq⟩ := map_eq_some_iff.mp h
    cases heq
    exact ⟨htrusted, grown_zeroextend hs htrusted (le_of_not_gt hle) hu⟩

lemma readBufferExtended_normal
    (h : s.readBufferExtended crc32c key false isNew = some (t, found)) :
    s.trusted crc32c = true ∧ ((found = true ∧ t = s ∧ key.2 < (s.counts crc32c).logical key.1) ∨
        (found = false ∧ t = { s with invalid := key :: s.invalid })) := by
  have hnote : ∀ {r}, (s.logInvalidPage key).map (·, false) = some r →
      r = ({ s with invalid := key :: s.invalid }, false) := by
    intro r hr
    obtain ⟨u, hu, rfl⟩ := map_eq_some_iff.mp hr
    rw [logInvalidPage] at hu
    split at hu
    · cases hu
    · cases hu
      rfl
  obtain ⟨n, hn, h⟩ := bind_eq_some_iff.mp h
  obtain ⟨htrusted, rfl⟩ := nblocks_eq_some hn
  refine ⟨htrusted, ?_⟩
  split at h
  · rename_i hlt
    split at h
    · cases hnote h
      exact .inr ⟨rfl, rfl⟩
    · cases h
      exact .inl ⟨rfl, rfl, hlt⟩
  · cases hnote h
    exact .inr ⟨rfl, rfl⟩

end State

end Umbra.SuperblockReset
