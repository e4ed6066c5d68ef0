import Umbra.Wal.RemapClaims

/-!
# Remap claims are settled once

While a record is assembled, every block either has no remap, and every claim of it has been given
back, or it has the remap that all later attempts use, and one claim that is still open. The one way
out that does not close it is an error in `MapMaybePreallocateFork`.
-/

namespace Umbra.Wal

open Foundation Foundation.Raising Function InsertState List Option

/-! ### Histories of a claim -/

inductive Released : List ClaimEvent → Prop
  | nil : Released []
  | release (entry : UInt32) {es} (h : Released es) : Released (.release :: .claim entry :: es)

/-- The last claim has committed a remap from the MAP entry that had been looked up before it. -/
def CommittedLast (old new : UInt32) (es : List ClaimEvent) : Prop :=
  ∃ released, es = .commit old new :: .claim old :: released ∧ Released released

variable {old new : UInt32}

namespace BlockClaim

/-- The claims so far are given back, but for one that an uncommitted remap has. -/
structure Held (c : BlockClaim) : Prop where
  uncommitted : c.remapCommitted = false
  released : c.remap = none → Released c.history ∧ (c.history ≠ [] → c.owned = none)
  claimed : ∀ old new, c.remap = some (old, new) →
    c.owned = some new ∧ ∃ es, c.history = .claim old :: es ∧ Released es

lemma held_registered (owned) : (registered owned).Held where
  uncommitted := rfl
  released _ := ⟨.nil, fun h => absurd rfl h⟩
  claimed := nofun

variable {c : BlockClaim}

lemma Held.leaveRecord (h : c.Held) : c.leaveRecord.Held := { h with }

lemma Held.claim_release (h : c.Held) (hremap : c.remap = none) (entry new) :
    (c.claim entry new).release.Held where
  uncommitted := h.uncommitted
  released _ := ⟨.release entry (h.released hremap).1, fun _ => rfl⟩
  claimed _ _ hsome := by
    have hsome : c.remap = some _ := hsome
    rw [hremap] at hsome
    cases hsome

lemma Held.claim_setRemap (h : c.Held) (hremap : c.remap = none) (old new) :
    ((c.claim old new).setRemap old new).Held where
  uncommitted := rfl
  released := nofun
  claimed _ _ hsome := by
    cases hsome
    exact ⟨rfl, c.history, rfl, (h.released hremap).1⟩

lemma Held.reset (h : c.Held) :
    Released c.reset.history ∧ (c.reset.history ≠ [] → c.reset.owned = none) := by
  cases hremap : c.remap with
  | none =>
    have habort : c.abort = c := by simp [abort, hremap]
    show Released c.abort.history ∧ (c.abort.history ≠ [] → c.abort.owned = none)
    rw [habort]
    exact h.released hremap
  | some pair =>
    obtain ⟨howned, es, hhistory, hes⟩ := h.claimed pair.1 pair.2 hremap
    have habort : c.abort =
        { c with owned := none, history := .release :: c.history, remapInRecord := false } := by
      simp only [abort, hremap, h.uncommitted, release, howned]
      rfl
    show Released c.abort.history ∧ (c.abort.history ≠ [] → c.abort.owned = none)
    rw [habort, hhistory]
    exact ⟨.release pair.1 hes, fun _ => rfl⟩

lemma commit_of_remap_none (hremap : c.remap = none) : c.commit = c := by
  simp [commit, hremap]

lemma Held.commit_reset (h : c.Held) (hremap : c.remap = some (old, new))
    (hrecord : c.remapInRecord = true) :
    CommittedLast old new c.commit.reset.history ∧ c.commit.reset.owned = none := by
  obtain ⟨-, es, hhistory, hes⟩ := h.claimed old new hremap
  have hcommit : c.commit = { c with
      owned := none, remapCommitted := true, history := .commit old new :: c.history } := by
    simp [commit, hremap, hrecord]
  have habort : c.commit.abort = c.commit := by simp [abort, hcommit]
  show CommittedLast old new c.commit.abort.history ∧ c.commit.abort.owned = none
  rw [habort, hcommit]
  exact ⟨⟨es, congrArg _ hhistory, hes⟩, rfl⟩

end BlockClaim

/-! ### One block of the state -/

namespace InsertState

variable {s : InsertState} {b b' : Block} {f g : BlockClaim → BlockClaim}

@[simp] lemma modifyBlock_blocks_self : (s.modifyBlock b f).blocks b = f (s.blocks b) :=
  update_self ..

lemma modifyBlock_blocks_of_ne (h : b' ≠ b) : (s.modifyBlock b f).blocks b' = s.blocks b' :=
  update_of_ne h ..

lemma modifyBlock_modifyBlock :
    (s.modifyBlock b f).modifyBlock b g = s.modifyBlock b fun c => g (f c) := by
  simp only [modifyBlock, update_self, update_idem]

variable {bs : List Block}

@[simp] lemma modifyBlocks_assembled : (s.modifyBlocks bs f).assembled = s.assembled := by
  induction bs generalizing s with
  | nil => rfl
  | cons b bs ih => exact ih

@[simp] lemma modifyBlocks_record : (s.modifyBlocks bs f).record = s.record := by
  induction bs generalizing s with
  | nil => rfl
  | cons b bs ih => exact ih

lemma modifyBlocks_blocks_of_not_mem (h : b ∉ bs) :
    (s.modifyBlocks bs f).blocks b = s.blocks b := by
  induction bs generalizing s with
  | nil => rfl
  | cons b' bs ih =>
    rw [mem_cons, not_or] at h
    obtain ⟨hne, hmem⟩ := h
    exact (ih hmem).trans (modifyBlock_blocks_of_ne hne)

lemma modifyBlocks_blocks_invariant {P : BlockClaim → Prop} (hf : ∀ c, P c → P (f c))
    (h : P (s.blocks b)) : P ((s.modifyBlocks bs f).blocks b) := by
  induction bs generalizing s with
  | nil => exact h
  | cons b' bs ih =>
    apply ih
    by_cases hb : b = b'
    · subst hb
      rw [modifyBlock_blocks_self]
      exact hf _ h
    · rwa [modifyBlock_blocks_of_ne hb]

lemma modifyBlocks_blocks_of_mem (hnodup : bs.Nodup) (h : b ∈ bs) :
    (s.modifyBlocks bs f).blocks b = f (s.blocks b) := by
  induction bs generalizing s with
  | nil => cases h
  | cons b' bs ih =>
    obtain ⟨hfirst, hnodup⟩ := nodup_cons.mp hnodup
    rcases mem_cons.mp h with rfl | h
    · exact (modifyBlocks_blocks_of_not_mem hfirst).trans modifyBlock_blocks_self
    · have hne : b ≠ b' := fun heq => hfirst (heq ▸ h)
      exact (ih hnodup h).trans (congrArg f (modifyBlock_blocks_of_ne hne))

end InsertState

/-! ### The invariant -/

/-- A later record refers to a remapped block with the remap that an earlier one has. -/
def Reuses (later earlier : List AssembledBlock) : Prop :=
  ∀ blk' ∈ earlier, ∀ h', blk'.remap = some h' → ∀ blk ∈ later, blk.key = blk'.key →
    ∃ h, blk.remap = some h ∧ h.pair = h'.pair

/-- Each attempt has referred to the registered blocks and reused the claims. -/
structure Assembling (reg : Registration) (s : InsertState) : Prop where
  held : ∀ b, (s.blocks b).Held
  registered : ∀ b, (s.blocks b).remap ≠ none → b ∈ reg.blocks
  references : ∀ blks ∈ s.assembled, blks.map (·.key) = reg.blocks
  remaps : ∀ blks ∈ s.assembled, ∀ blk ∈ blks, ∀ h, blk.remap = some h →
    (s.blocks blk.key).remap = some h.pair
  reuses : s.assembled.Pairwise Reuses
  record : s.record = none

lemma Registration.nodup_blocks (reg : Registration) : reg.blocks.Nodup := reg.nodup

variable {reg : Registration} {s t u : InsertState} {b : Block}

lemma Assembling.start (owned) : Assembling reg (.start owned) where
  held b := BlockClaim.held_registered (owned b)
  registered _ h := absurd rfl h
  references := forall_mem_nil _
  remaps := forall_mem_nil _
  reuses := .nil
  record := rfl

structure WorkedOn (reg : Registration) (b : Block) (s t : InsertState) : Prop where
  assembling : Assembling reg t
  sticky : ∀ pair, (s.blocks b).remap = some pair → (t.blocks b).remap = some pair
  frame : ∀ b', b' ≠ b → (t.blocks b').remap = (s.blocks b').remap

namespace WorkedOn

lemma refl (h : Assembling reg s) : WorkedOn reg b s s := ⟨h, fun _ h => h, fun _ _ => rfl⟩

lemma trans (h : WorkedOn reg b s t) (h' : WorkedOn reg b t u) : WorkedOn reg b s u where
  assembling := h'.assembling
  sticky pair hpair := h'.sticky pair (h.sticky pair hpair)
  frame b' hb' := (h'.frame b' hb').trans (h.frame b' hb')

variable (h : Assembling reg s)
include h

lemma modifyBlock {f} (hheld : (f (s.blocks b)).Held)
    (hremap : ∀ pair, (s.blocks b).remap = some pair → (f (s.blocks b)).remap = some pair)
    (hreg : (f (s.blocks b)).remap ≠ none → b ∈ reg.blocks) :
    WorkedOn reg b s (s.modifyBlock b f) where
  assembling := {
    h with
    held := (Function.forall_update_iff s.blocks fun _ c => c.Held).mpr
      ⟨hheld, fun b' _ => h.held b'⟩
    registered := (Function.forall_update_iff s.blocks fun b c =>
      c.remap ≠ none → b ∈ reg.blocks).mpr ⟨hreg, fun b' _ => h.registered b'⟩
    remaps := by
      intro blks hblks blk hblk hdr hhdr
      have hold := h.remaps blks hblks blk hblk hdr hhdr
      by_cases hb : blk.key = b
      · subst hb
        rw [modifyBlock_blocks_self]
        exact hremap _ hold
      · rwa [modifyBlock_blocks_of_ne hb] }
  sticky pair hpair := by
    rw [modifyBlock_blocks_self]
    exact hremap pair hpair
  frame b' hb' := by rw [modifyBlock_blocks_of_ne hb']

lemma claim_release (hremap : (s.blocks b).remap = none) (entry new) :
    WorkedOn reg b s (s.modifyBlock b fun c =>
      (c.claim entry new).release) :=
  modifyBlock h ((h.held b).claim_release hremap entry new) (fun _ hpair => hpair)
    fun hne => absurd hremap hne

lemma claim_setRemap (hremap : (s.blocks b).remap = none) (hreg : b ∈ reg.blocks) (old new) :
    WorkedOn reg b s (s.modifyBlock b fun c => (c.claim old new).setRemap old new) :=
  modifyBlock h ((h.held b).claim_setRemap hremap old new)
    (fun _ hpair => by rw [hremap] at hpair; cases hpair) fun _ => hreg

end WorkedOn

/-! ### Reserving a physical block -/

lemma wp_mapReserveNextPblkno (h : Assembling reg s) (hremap : (s.blocks b).remap = none)
    (entry fresh) :
    wp (mapReserveNextPblkno b entry fresh) s
      (fun r t => match r with
        | some new => t = s.modifyBlock b (·.claim entry new)
        | none => WorkedOn reg b s t ∧ (t.blocks b).remap = none)
      fun _ t => Assembling reg t := by
  have hgone := WorkedOn.claim_release h hremap entry fresh
  have hnone : ((s.modifyBlock b fun c =>
    (c.claim entry fresh).release).blocks b).remap = none := by
    rw [modifyBlock_blocks_self]
    exact hremap
  rw [mapReserveNextPblkno, wp_bind, wp_read]
  cases (s.blocks b).owned with
  | some => simp only [wp_bind, wp_modify, wp_pure]
  | none =>
    simp only [wp_bind, wp_mayRaise, wp_pick, forall_mem_cons, not_mem_nil, false_implies,
      implies_true, and_true, if_true, Bool.false_eq_true, if_false, wp_modify, wp_onError, wp_pure,
      modifyBlock_modifyBlock]
    exact ⟨⟨⟨⟨trivial, hgone, hnone⟩, hgone.assembling⟩, .refl h, hremap⟩, h⟩

/-- An error, but for one in `MapMaybePreallocateFork`, finds every claim with its remap. -/
def Kept (reg : Registration) (site : InsertSite) (t : InsertState) : Prop :=
  site.isPreallocate = false → Assembling reg t

lemma Assembling.kept (h : Assembling reg s) (site) : Kept reg site s := fun _ => h

lemma kept_preallocate : Kept reg (.preallocate b) s := nofun

lemma wp_umMapReserveFreshPbkno (h : Assembling reg s) (hremap : (s.blocks b).remap = none)
    (fresh : UInt32) :
    wp (umMapReserveFreshPbkno b fresh) s
      (fun new t => t = s.modifyBlock b (·.claim (.ofNat invalidBlockNumber) new)) (Kept reg) := by
  rw [umMapReserveFreshPbkno, wp_bind]
  refine (wp_mapReserveNextPblkno h hremap _ fresh).mono ?_ fun i t ht => ht.kept i
  intro r t ht
  cases r with
  | some =>
    simp only [wp_bind, wp_mayRaise, wp_pure]
    exact ⟨ht, kept_preallocate⟩
  | none =>
    simp only [wp_raise]
    exact ht.1.assembling.kept _

lemma wp_mapGetNewPbkno (turns) (h : Assembling reg s) (hremap : (s.blocks b).remap = none) :
    wp (mapGetNewPbkno b turns) s
      (fun r t => ∃ u, WorkedOn reg b s u ∧ (u.blocks b).remap = none ∧
        t = u.modifyBlock b (·.claim r.1 r.2)) (Kept reg) := by
  induction turns generalizing s with
  | nil =>
    rw [mapGetNewPbkno, wp_raise]
    exact h.kept _
  | cons turn turns ih =>
    rw [mapGetNewPbkno, wp_bind, wp_mayRaise, wp_bind]
    refine ⟨(wp_mapReserveNextPblkno h hremap turn.1 turn.2).mono ?_ fun i t ht => ht.kept i,
      h.kept _⟩
    intro r t ht
    cases r with
    | some =>
      simp only [wp_bind, wp_mayRaise, wp_pure]
      exact ⟨⟨s, .refl h, hremap, ht⟩, kept_preallocate⟩
    | none =>
      simp only [wp_bind, wp_mayRaise]
      refine ⟨(ih ht.1.assembling ht.2).imp ?_, ht.1.assembling.kept _⟩
      rintro r v ⟨u, hu, hunone, rfl⟩
      exact ⟨u, ht.1.trans hu, hunone, rfl⟩

/-! ### Preparing the remaps -/

variable {buf : RegisteredBuffer} {ctx : InsertContext} {att : Attempt}

def BlockAnswers.givesBirth (ans : BlockAnswers) (buf : RegisteredBuffer) : Bool :=
  hasFlag buf.flags regbufLogicalBirth && ans.walOwnedFirstbornAvailable &&
    ans.tryLookupPblkno.isNone

lemma wp_prepareBirth (h : Assembling reg s) (hreg : buf.key ∈ reg.blocks) (ans) :
    wp (prepareBirth ans buf) s
      (fun _ t => WorkedOn reg buf.key s t ∧
        ((t.blocks buf.key).remap = none → ans.givesBirth buf = false)) (Kept reg) := by
  rw [prepareBirth, wp_bind, wp_read]
  by_cases hcond : ((s.blocks buf.key).remap.isNone && hasFlag buf.flags regbufLogicalBirth &&
      ans.walOwnedFirstbornAvailable) = true
  · rw [if_pos hcond, wp_bind, wp_mayRaise]
    refine ⟨?_, h.kept _⟩
    simp only [Bool.and_eq_true, isNone_iff_eq_none] at hcond
    by_cases hlookup : ans.tryLookupPblkno.isNone = true
    · rw [if_pos hlookup, wp_bind]
      refine (wp_umMapReserveFreshPbkno h hcond.1.1 _).imp ?_
      rintro new t rfl
      rw [wp_modify, modifyBlock_modifyBlock]
      refine ⟨WorkedOn.claim_setRemap h hcond.1.1 hreg _ new, ?_⟩
      rw [modifyBlock_blocks_self]
      intro hnone
      cases hnone
    · rw [if_neg hlookup, wp_pure]
      refine ⟨.refl h, fun _ => ?_⟩
      simp [BlockAnswers.givesBirth, hlookup]
  · rw [if_neg hcond, wp_pure]
    refine ⟨.refl h, fun hnone => ?_⟩
    rw [hnone] at hcond
    simp only [isNone_none, Bool.true_and] at hcond
    simp [BlockAnswers.givesBirth, hcond]

lemma wp_prepareNew (h : Assembling reg s) (hreg : buf.key ∈ reg.blocks) (needsRemap ans) :
    wp (prepareNew needsRemap ans buf) s
      (fun _ t => WorkedOn reg buf.key s t ∧
        ((t.blocks buf.key).remap = none → needsRemap = false)) (Kept reg) := by
  rw [prepareNew, wp_bind, wp_read]
  by_cases hcond : ((s.blocks buf.key).remap.isNone && needsRemap) = true
  · rw [if_pos hcond, wp_bind]
    simp only [Bool.and_eq_true, isNone_iff_eq_none] at hcond
    refine (wp_mapGetNewPbkno ans.newTurns h hcond.1).imp ?_
    rintro ⟨old, new⟩ t ⟨u, hu, hunone, rfl⟩
    have hwork := hu.trans (WorkedOn.claim_setRemap hu.assembling hunone hreg old new)
    simp only [wp_bind, wp_modify, modifyBlock_modifyBlock]
    split
    · exact forall_mem_nil _
    · rw [wp_pure]
      refine ⟨hwork, ?_⟩
      rw [modifyBlock_blocks_self]
      intro hnone
      cases hnone
  · rw [if_neg hcond, wp_pure]
    refine ⟨.refl h, fun hnone => ?_⟩
    rw [hnone] at hcond
    simpa using hcond

def Chosen (ctx : InsertContext) (att : Attempt) (s : InsertState) (buf : RegisteredBuffer) :
    Prop :=
  chooseRemap (buf.withRemap (s.blocks buf.key).remap) (att.answers buf.key).toStorageAnswers
      (needsBackupOrRemap (ctx.atAttempt att) buf (att.answers buf.key).toStorageAnswers).2 =
    .ok (s.blocks buf.key).remap

lemma chooseRemap_withRemap {ans : BlockAnswers} {remap : Option (UInt32 × UInt32)}
    {needsRemap : Bool} (hbirth : remap = none → ans.givesBirth buf = false)
    (hneeds : remap = none → needsRemap = false) :
    chooseRemap (buf.withRemap remap) ans.toStorageAnswers needsRemap = .ok remap := by
  cases remap with
  | some => rfl
  | none =>
    have hnone : birthRemap (buf.withRemap none) ans.toStorageAnswers = none := by
      show (if ans.givesBirth buf = true then _ else none) = none
      rw [hbirth rfl]
      rfl
    rw [chooseRemap, hnone, hneeds rfl]
    rfl

lemma wp_prepareBlock (ctx att) (h : Assembling reg s) (hreg : buf.key ∈ reg.blocks) :
    wp (prepareBlock ctx att buf) s
      (fun _ t => WorkedOn reg buf.key s t ∧ Chosen ctx att t buf) (Kept reg) := by
  have hleave : WorkedOn reg buf.key s (s.modifyBlock buf.key .leaveRecord) :=
    .modifyBlock h (h.held _).leaveRecord (fun _ hpair => hpair) (h.registered _)
  rw [prepareBlock, wp_bind, wp_modify, wp_bind, wp_mayRaise, wp_bind]
  refine ⟨(wp_prepareBirth hleave.assembling hreg _).imp ?_, hleave.assembling.kept _⟩
  rintro - t ⟨ht, hbirth⟩
  rw [wp_bind]
  refine (wp_prepareNew ht.assembling hreg _ _).imp ?_
  rintro - u ⟨hu, hneeds⟩
  rw [wp_mayRaise]
  refine ⟨⟨hleave.trans (ht.trans hu), chooseRemap_withRemap ?_ hneeds⟩, hu.assembling.kept _⟩
  intro hnone
  apply hbirth
  -- a remap of the birth would still be there
  by_contra hsome
  obtain ⟨pair, hpair⟩ := ne_none_iff_exists'.mp hsome
  rw [hu.sticky pair hpair] at hnone
  cases hnone

lemma Chosen.frame (h : Chosen ctx att s buf) (hwork : WorkedOn reg b s t) (hne : buf.key ≠ b) :
    Chosen ctx att t buf := by
  rw [Chosen, hwork.frame _ hne]
  exact h

lemma wp_prepareBlocks (ctx att) (h : Assembling reg s) :
    wp (forEach reg.buffers fun x => prepareBlock ctx att x.2) s
      (fun _ t => Assembling reg t ∧ ∀ x ∈ reg.buffers, Chosen ctx att t x.2) (Kept reg) := by
  refine wp_forEach (fun rest t => Assembling reg t ∧ ∃ done, reg.buffers = done ++ rest ∧
    ∀ x ∈ done, Chosen ctx att t x.2) ⟨h, [], rfl, forall_mem_nil _⟩ ?_ ?_
  · rintro x rest t ⟨ht, done, hsplit, hdone⟩
    have hx : x ∈ reg.buffers := by
      rw [hsplit]
      exact mem_append_right _ mem_cons_self
    refine (wp_prepareBlock ctx att ht (mem_map_of_mem hx)).imp ?_
    rintro - u ⟨hu, hchosen⟩
    refine ⟨hu.assembling, done ++ [x], by rw [hsplit, append_assoc]; rfl, ?_⟩
    refine forall_mem_append.mpr ⟨fun y hy => ?_, forall_mem_singleton.mpr hchosen⟩
    refine (hdone y hy).frame hu ?_
    -- no block is registered twice
    have hnodup := reg.nodup
    rw [hsplit, map_append, map_cons] at hnodup
    exact (nodup_append.mp hnodup).2.2 _ (mem_map_of_mem hy) _ mem_cons_self
  · rintro t ⟨ht, done, hsplit, hdone⟩
    rw [append_nil] at hsplit
    exact ⟨ht, hsplit ▸ hdone⟩

/-! ### Assembling -/

def Refers (s : InsertState) (x : UInt8 × RegisteredBuffer) (blk : AssembledBlock) : Prop :=
  blk.key = x.2.key ∧ blk.remap.map (·.pair) = (s.blocks blk.key).remap

lemma Chosen.assembledBlock {x} (h : Chosen ctx att s x.2) :
    ∃ blk, assembledBlock ctx att s x = .ok blk ∧ Refers s x blk := by
  have hchoose : chooseRemap (x.2.withRemap (s.blocks x.2.key).remap)
      (att.answers x.2.key).toStorageAnswers
      (needsBackupOrRemap (ctx.atAttempt att) (x.2.withRemap (s.blocks x.2.key).remap)
        (att.answers x.2.key).toStorageAnswers).2 = .ok (s.blocks x.2.key).remap := h
  rw [Wal.assembledBlock, planBlock, hchoose]
  refine ⟨_, rfl, rfl, ?_⟩
  show ((s.blocks x.2.key).remap.map _).map _ = (s.blocks x.2.key).remap
  rw [Option.map_map]
  exact congrFun Option.map_id _

private lemma mapM_eq_ok {α β ε : Type} {f : α → Except ε β} {R : α → β → Prop} {l : List α}
    (h : ∀ x ∈ l, ∃ y, f x = .ok y ∧ R x y) :
    ∃ ys, l.mapM f = .ok ys ∧ List.Forall₂ R l ys := by
  induction l with
  | nil => exact ⟨[], rfl, .nil⟩
  | cons x l ih =>
    obtain ⟨⟨y, hy, hR⟩, hl⟩ := forall_mem_cons.mp h
    obtain ⟨ys, hys, hRs⟩ := ih hl
    refine ⟨y :: ys, ?_, .cons hR hRs⟩
    rw [mapM_cons, hy, hys]
    rfl

structure Assembled (reg : Registration) (blks : List AssembledBlock) (t : InsertState) : Prop where
  assembling : Assembling reg t
  mem : blks ∈ t.assembled
  inRecord : ∀ b, (t.blocks b).remap ≠ none → (t.blocks b).remapInRecord = true
  carries : ∀ blk ∈ blks, blk.remap.map (·.pair) = (t.blocks blk.key).remap

variable {blks : List AssembledBlock}

lemma remap_eq_some_iff_pair {blk : AssembledBlock} {pair : UInt32 × UInt32} :
    blk.remap.map (·.pair) = some pair ↔ ∃ h, blk.remap = some h ∧ h.pair = pair :=
  map_eq_some_iff

lemma InsertState.assemble_remap : ((s.assemble blks).blocks b).remap = (s.blocks b).remap :=
  modifyBlocks_blocks_invariant (P := fun c => c.remap = (s.blocks b).remap) (fun _ h => h) rfl

section

variable (h : Assembling reg s) (hkeys : blks.map (·.key) = reg.blocks)
  (hcarries : ∀ blk ∈ blks, blk.remap.map (·.pair) = (s.blocks blk.key).remap)
include h hkeys hcarries

lemma Assembling.assemble : Assembling reg (s.assemble blks) where
  held b := modifyBlocks_blocks_invariant
    (fun _ h => { h with }) (h.held b)
  registered b := by
    rw [assemble_remap]
    exact h.registered b
  references := forall_mem_cons.mpr ⟨hkeys, h.references⟩
  remaps := by
    rintro blks' hblks' blk hblk hdr hhdr
    rw [assemble_remap]
    rcases mem_cons.mp hblks' with rfl | hblks'
    · rw [← hcarries blk hblk, hhdr]
      rfl
    · exact h.remaps blks' hblks' blk hblk hdr hhdr
  reuses := by
    refine .cons ?_ h.reuses
    intro earlier hearlier blk' hblk' h' hh' blk hblk hkey
    apply remap_eq_some_iff_pair.mp
    rw [hcarries blk hblk, hkey]
    exact h.remaps earlier hearlier blk' hblk' h' hh'
  record := by
    show (s.modifyBlocks _ _).record = none
    rw [modifyBlocks_record]
    exact h.record

lemma Assembling.assembled : Assembled reg blks (s.assemble blks) where
  assembling := h.assemble hkeys hcarries
  mem := mem_cons_self
  inRecord b hb := by
    rw [assemble_remap] at hb
    have hmem : b ∈ blks.map (·.key) := hkeys ▸ h.registered b hb
    obtain ⟨blk, hblk, rfl⟩ := mem_map.mp hmem
    have hsome : blk.remap.isSome = true := by
      rw [← hcarries blk hblk, ne_eq, map_eq_none_iff] at hb
      exact isSome_iff_ne_none.mpr hb
    have hnodup : ((blks.filter (·.remap.isSome)).map (·.key)).Nodup :=
      (filter_sublist.map _).nodup (hkeys ▸ reg.nodup)
    have hin : blk.key ∈ (blks.filter (·.remap.isSome)).map (·.key) :=
      mem_map_of_mem (mem_filter.mpr ⟨hblk, hsome⟩)
    show ((s.modifyBlocks _ _).blocks _).remapInRecord = true
    rw [modifyBlocks_blocks_of_mem hnodup hin]
  carries blk hblk := by
    rw [assemble_remap]
    exact hcarries blk hblk

end

lemma forall₂_refers {xs} (h : List.Forall₂ (Refers s) xs blks) :
    blks.map (·.key) = (xs.map fun x => x.2.key) ∧
      ∀ blk ∈ blks, blk.remap.map (·.pair) = (s.blocks blk.key).remap := by
  induction h with
  | nil => exact ⟨rfl, forall_mem_nil _⟩
  | cons hx _ ih =>
    exact ⟨congrArg₂ List.cons hx.1 ih.1, forall_mem_cons.mpr ⟨hx.2, ih.2⟩⟩

lemma wp_recordAssemble (ctx mainData att) (h : Assembling reg s) :
    wp (recordAssemble ctx reg mainData att) s (fun blks t => Assembled reg blks t) (Kept reg) := by
  rw [recordAssemble, wp_bind]
  refine (wp_prepareBlocks ctx att h).imp ?_
  rintro - t ⟨ht, hchosen⟩
  rw [wp_bind, wp_mayRaise, wp_bind, wp_read]
  refine ⟨?_, ht.kept _⟩
  obtain ⟨blks, hblks, hrefers⟩ := mapM_eq_ok fun x hx => (hchosen x hx).assembledBlock
  obtain ⟨hkeys, hcarries⟩ := forall₂_refers hrefers
  rw [hblks]
  show wp (if _ then _ else _) _ _ _
  split
  · rw [wp_raise]
    exact ht.kept _
  · split
    · rw [wp_raise]
      exact ht.kept _
    · rw [wp_bind, wp_modify, wp_pure]
      exact ht.assembled hkeys hcarries

/-! ### Inserting -/

structure InsertState.Settled (reg : Registration) (t : InsertState) : Prop where
  /-- Every claim has been given back, or the last one has been committed with the remap of the
  record. -/
  once : ∀ b, Released (t.blocks b).history ∨ ∃ blks ∈ t.record, ∃ blk ∈ blks, ∃ h,
    blk.key = b ∧ blk.remap = some h ∧
      CommittedLast h.oldPblkno h.newPblkno (t.blocks b).history
  free : ∀ b, (t.blocks b).history ≠ [] → (t.blocks b).owned = none
  /-- Every remap of the inserted record has been committed, from the MAP entry that was looked up
  before the claim. -/
  published : ∀ blks ∈ t.record, ∀ blk ∈ blks, ∀ h, blk.remap = some h →
    CommittedLast h.oldPblkno h.newPblkno (t.blocks blk.key).history
  /-- Every attempt refers to the registered blocks, with the remaps of the attempts before. -/
  references : ∀ blks ∈ t.assembled, blks.map (·.key) = reg.blocks
  reuses : t.assembled.Pairwise Reuses
  inserted : ∀ blks ∈ t.record, blks ∈ t.assembled

lemma InsertState.Settled.start (owned) : (start owned).Settled reg where
  once _ := .inl .nil
  free _ h := absurd rfl h
  published := nofun
  references := forall_mem_nil _
  reuses := .nil
  inserted := nofun

lemma Assembling.settled_reset (h : Assembling reg s) :
    (s.modifyBlocks reg.blocks .reset).Settled reg ∧
      (s.modifyBlocks reg.blocks .reset).record = none := by
  have hrecord : (s.modifyBlocks reg.blocks .reset).record = none := by
    rw [modifyBlocks_record, h.record]
  have hblock : ∀ b, Released ((s.modifyBlocks reg.blocks .reset).blocks b).history ∧
      (((s.modifyBlocks reg.blocks .reset).blocks b).history ≠ [] →
        ((s.modifyBlocks reg.blocks .reset).blocks b).owned = none) := by
    intro b
    by_cases hb : b ∈ reg.blocks
    · rw [modifyBlocks_blocks_of_mem reg.nodup_blocks hb]
      exact (h.held b).reset
    · rw [modifyBlocks_blocks_of_not_mem hb]
      exact (h.held b).released (not_not.mp fun hne => hb (h.registered b hne))
  refine ⟨⟨fun b => .inl (hblock b).1, fun b => (hblock b).2, ?_, ?_, ?_, ?_⟩, hrecord⟩
  · rw [hrecord]
    exact nofun
  · rw [modifyBlocks_assembled]
    exact h.references
  · rw [modifyBlocks_assembled]
    exact h.reuses
  · rw [hrecord]
    exact nofun

def InsertState.finish (reg : Registration) (blks : List AssembledBlock) (s : InsertState) :
    InsertState :=
  ((s.insertRecord blks).modifyBlocks reg.blocks .commit).modifyBlocks reg.blocks .reset

lemma InsertState.finish_record : (s.finish reg blks).record = some blks := by
  rw [finish, modifyBlocks_record, modifyBlocks_record]
  rfl

lemma InsertState.finish_assembled : (s.finish reg blks).assembled = s.assembled := by
  rw [finish, modifyBlocks_assembled, modifyBlocks_assembled]
  rfl

lemma InsertState.finish_blocks_of_mem (h : b ∈ reg.blocks) :
    (s.finish reg blks).blocks b = (s.blocks b).commit.reset := by
  rw [finish, modifyBlocks_blocks_of_mem reg.nodup_blocks h,
    modifyBlocks_blocks_of_mem reg.nodup_blocks h]
  rfl

lemma InsertState.finish_blocks_of_not_mem (h : b ∉ reg.blocks) :
    (s.finish reg blks).blocks b = s.blocks b := by
  rw [finish, modifyBlocks_blocks_of_not_mem h, modifyBlocks_blocks_of_not_mem h]
  rfl

lemma Assembled.finish_of_remap_none (h : Assembled reg blks s)
    (hremap : (s.blocks b).remap = none) :
    Released ((s.finish reg blks).blocks b).history ∧
      (((s.finish reg blks).blocks b).history ≠ [] →
        ((s.finish reg blks).blocks b).owned = none) := by
  by_cases hb : b ∈ reg.blocks
  · rw [finish_blocks_of_mem hb, BlockClaim.commit_of_remap_none hremap]
    exact (h.assembling.held b).reset
  · rw [finish_blocks_of_not_mem hb]
    exact (h.assembling.held b).released hremap

lemma Assembled.finish_of_remap_some (h : Assembled reg blks s)
    (hremap : (s.blocks b).remap = some (old, new)) :
    CommittedLast old new ((s.finish reg blks).blocks b).history ∧
      ((s.finish reg blks).blocks b).owned = none := by
  have hne : (s.blocks b).remap ≠ none := by rw [hremap]; exact nofun
  rw [finish_blocks_of_mem (h.assembling.registered b hne)]
  exact (h.assembling.held b).commit_reset hremap (h.inRecord b hne)

lemma Assembled.settled_finish (h : Assembled reg blks s) : (s.finish reg blks).Settled reg where
  once b := by
    cases hremap : (s.blocks b).remap with
    | none => exact .inl (h.finish_of_remap_none hremap).1
    | some =>
      have hb : b ∈ blks.map (·.key) := by
        rw [h.assembling.references blks h.mem]
        exact h.assembling.registered b (by rw [hremap]; exact nofun)
      obtain ⟨blk, hblk, rfl⟩ := mem_map.mp hb
      obtain ⟨hdr, hhdr, rfl⟩ := remap_eq_some_iff_pair.mp ((h.carries blk hblk).trans hremap)
      exact .inr ⟨blks, finish_record, blk, hblk, hdr, rfl, hhdr, (h.finish_of_remap_some hremap).1⟩
  free b hne := by
    cases hremap : (s.blocks b).remap with
    | none => exact (h.finish_of_remap_none hremap).2 hne
    | some => exact (h.finish_of_remap_some hremap).2
  published blks' hblks' blk hblk hdr hhdr := by
    rw [finish_record] at hblks'
    cases hblks'
    have hremap : (s.blocks blk.key).remap = some hdr.pair := by
      rw [← h.carries blk hblk, hhdr]
      rfl
    exact (h.finish_of_remap_some hremap).1
  references := by
    rw [finish_assembled]
    exact h.assembling.references
  reuses := by
    rw [finish_assembled]
    exact h.assembling.reuses
  inserted blks' hblks' := by
    rw [finish_record] at hblks'
    cases hblks'
    rw [finish_assembled]
    exact h.mem

lemma wp_attempt (call : InsertCall) (att : Attempt) (h : Assembling call.reg s) :
    wp (call.attempt att) s (fun blks t => Assembled call.reg blks t) (Kept call.reg) := by
  rw [InsertCall.attempt, wp_bind]
  refine (wp_recordAssemble call.ctx call.mainData att h).imp ?_
  intro blks t ht
  rw [wp_bind, tryInsertRecord]
  split
  · rw [wp_pure, wp_pure]
    exact ht
  · rw [wp_mayRaise, wp_pure]
    exact ⟨ht, ht.assembling.kept _⟩

lemma wp_guardedInsert (call : InsertCall) (h : Assembling call.reg s) :
    wp (do
        forEach call.retries fun att => do
          let _ ← call.attempt att
        let blks ← call.attempt call.last
        modify (·.insertRecord blks)
        modify (·.modifyBlocks call.reg.blocks .commit)) s
      (fun _ t => (call.resetInsertion t).Settled call.reg ∧ t.record.isSome = true)
      (Kept call.reg) := by
  rw [wp_bind]
  refine wp_forEach (fun _ t => Assembling call.reg t) h ?_ ?_
  · intro att atts t ht
    rw [wp_bind]
    refine (wp_attempt call att ht).imp ?_
    intro blks u hu
    rw [wp_pure]
    exact hu.assembling
  · intro t ht
    rw [wp_bind]
    refine (wp_attempt call call.last ht).imp ?_
    intro blks u hu
    rw [wp_bind, wp_modify, wp_modify, modifyBlocks_record]
    exact ⟨hu.settled_finish, rfl⟩

lemma wp_xlogInsert (call : InsertCall) (owned : Block → Option UInt32) :
    wp call.xlogInsert (.start owned)
      (fun _ t => t.Settled call.reg ∧ t.record.isSome = !call.isPhony)
      (fun site t => site.isPreallocate = false → t.Settled call.reg ∧ t.record = none) := by
  have hstart : Assembling call.reg (.start owned) := .start owned
  rw [InsertCall.xlogInsert]
  split
  · rw [wp_raise]
    exact fun _ => ⟨.start owned, rfl⟩
  · by_cases hphony : call.isPhony = true
    · rw [if_pos hphony, wp_modify, hphony]
      have hreset := hstart.settled_reset
      exact ⟨hreset.1, congrArg Option.isSome hreset.2⟩
    · rw [if_neg hphony, wp_bind, wp_onError, Bool.eq_false_of_not_eq_true hphony]
      refine (wp_guardedInsert call hstart).mono ?_ fun _ _ hkept hsite =>
        (hkept hsite).settled_reset
      rintro - t ⟨hsettled, hrecord⟩
      rw [wp_modify, InsertCall.resetInsertion, modifyBlocks_record, hrecord]
      exact ⟨hsettled, rfl⟩

/-- Wherever an error is raised other than in `MapMaybePreallocateFork`, every claim of an insertion
is committed once with the remap that the record carries, or given back, and a retry carries the
remaps of the attempts before it. -/
theorem remap_claims_settled (call : InsertCall) (owned : Block → Option UInt32) :
    (∀ t, .done () t ∈ call.xlogInsert (.start owned) →
      t.Settled call.reg ∧ t.record.isSome = !call.isPhony) ∧
    ∀ site t, .raised site t ∈ call.xlogInsert (.start owned) → site.isPreallocate = false →
      t.Settled call.reg ∧ t.record = none :=
  ⟨fun _ ht => (wp_xlogInsert call owned).done ht,
    fun _ _ ht => (wp_xlogInsert call owned).raised ht⟩

def birthCall : InsertCall where
  ctx :=
    { rmid := 10
      info := 0x80
      info_ok := by decide
      redoRecPtr := 100
      doPageWrites := true
      walConsistencyChecking := false
      compression := none
      origin := none
      toplevelXid := none
      xid := 740
      crc := fun _ => 0 }
  reg :=
    { buffers := [(0,
        { flags := regbufWillInit ||| regbufLogicalBirth
          rlocator := ⟨1663, 5, 16384⟩
          forkno := mainForknum
          block := 3
          page := .zero
          rdata := [3]
          rdata_le := by decide
          remap := none })]
      nodup := List.nodup_singleton _ }
  mainData := [5]
  begun := true
  bootstrap := false
  retries := [⟨100, true, fun _ => birthAnswers⟩]
  last := ⟨120, false, fun _ => birthAnswers⟩
where
  birthAnswers : BlockAnswers :=
    { walOwnedRemapAvailable := true
      walOwnedFirstbornAvailable := true
      tryLookupPblkno := none
      reserveFreshPbkno := 9
      getNewPbkno := (9, 4)
      logicalNblocks := some 3
      nextFreePhysBlock := some 9
      newTurns := [] }

def birthOwned : Block → Option UInt32 := fun _ => some 8

theorem remap_claims_settled_birth :
    ∃ t, .done () t ∈ birthCall.xlogInsert (.start birthOwned) ∧ t.Settled birthCall.reg ∧
      t.record.isSome = true := by
  obtain ⟨t, ht⟩ : ∃ t, .done () t ∈ birthCall.xlogInsert (.start birthOwned) :=
    ⟨_, mem_of_head? rfl⟩
  exact ⟨t, ht, (remap_claims_settled birthCall birthOwned).1 t ht⟩

-- the exception is needed: behind an error in `MapMaybePreallocateFork` the claim stays open
example : ∃ site t, .raised site t ∈ birthCall.xlogInsert (.start birthOwned) ∧
    (t.blocks (⟨1663, 5, 16384⟩, 0, 3)).owned = some 8 ∧
      (t.blocks (⟨1663, 5, 16384⟩, 0, 3)).history = [.claim (.ofNat invalidBlockNumber)] :=
  ⟨_, _, List.mem_of_getElem? (i := 6) rfl, rfl, rfl⟩

/-- The record of a birth has a remap header without an image and without an old block. -/
theorem birth_header_without_image :
    ∃ t, .done () t ∈ birthCall.xlogInsert (.start birthOwned) ∧ ∃ blks ∈ t.record, ∃ blk ∈ blks,
      blk.image.isNone = true ∧
        blk.remap.map (·.oldPblkno) = some (.ofNat invalidBlockNumber) :=
  ⟨_, mem_of_head? rfl, _, rfl, _, mem_cons_self, rfl, rfl⟩

end Umbra.Wal
