import Umbra.Publication.Baseline
import Umbra.Reclaim.Moves

/-!
# Reclaimed segments are dead

A segment is removed only if it lies below the reclaim boundary, and the boundary moves only over
blocks whose publication the compactor has seen. So references into the segment can only go away
while the compactor walks the MAP, and a walk that finds none has found none for good.
-/

namespace Umbra

namespace Reclaim

open Foundation

variable {n p : Nat} {cfg : Config n} {segno : Nat} {pass : Pass} {phase : Phase} {k : BlockKey}
  {e : Umbra.Event n}

/-! ### Segments without references -/

/-- None of the blocks in `S` is mapped into the segment. -/
def Clear (cfg : Config n) (pub : Umbra.State n) (segno : Nat) (S : Nat → Prop) : Prop :=
  mapSegmentFullyBelowReclaimBoundary cfg (pub.mapMeta.entry.reclaimBoundary cfg.fork) segno →
    ∀ lblkno p, S lblkno → pub.mapMeta.map (cfg.fork, lblkno) = some p → p / cfg.relsegSize ≠ segno

lemma lt_boundary {boundary} (hpos : 0 < cfg.relsegSize)
    (h : mapSegmentFullyBelowReclaimBoundary cfg boundary segno = true)
    (hp : p / cfg.relsegSize = segno) : p < boundary := by
  have hle : (segno + 1) * cfg.relsegSize ≤ boundary := of_decide_eq_true h
  rw [← hp] at hle
  exact (Nat.lt_mul_of_div_lt (Nat.lt_succ_self _) hpos).trans_le hle

def SettledBelow (cfg : Config n) (pub : Umbra.State n) : Prop :=
  ∀ p < pub.mapMeta.entry.reclaimBoundary cfg.fork, Settled cfg.fork pub p

section Effect

variable {pub pub' : Umbra.State n}

lemma boundary_eq_of_effect (he : Effect pub pub') :
    pub'.mapMeta.entry.reclaimBoundary = pub.mapMeta.entry.reclaimBoundary := by
  cases he with
  | quiet hmap hclaims hentry => exact hentry.boundary
  | reserve hfree hmeta => rw [hmeta]; rfl
  | drop hmeta => rw [hmeta]
  | publish hc hmap hclaims hentry => rw [hentry]

lemma SettledBelow.effect (h : SettledBelow cfg pub) (he : Effect pub pub') :
    SettledBelow cfg pub' := by
  intro p hp
  rw [boundary_eq_of_effect he] at hp
  exact (h p hp).effect he

lemma Clear.effect {S} (h : Clear cfg pub segno S) (hpos : 0 < cfg.relsegSize)
    (hs : SettledBelow cfg pub) (he : Effect pub pub') : Clear cfg pub' segno S := by
  intro hbelow lblkno p hS hp hseg
  rw [boundary_eq_of_effect he] at hbelow
  have hset := hs p (lt_boundary hpos hbelow hseg)
  exact h hbelow lblkno p hS (hset.map_of_effect he rfl hp) hseg

end Effect

/-! ### The compactor's pass -/

/-- What a pass has read of the counters still bounds them, and what it has seen is settled. -/
structure PassOk (cfg : Config n) (pub : Umbra.State n) (pass : Pass) : Prop where
  nLblknos_le : pass.nLblknos ≤ pub.mapMeta.entry.super.logical cfg.fork
  boundary_le : pass.reclaimBoundaryPblk ≤ pub.mapMeta.entry.reclaimBoundary cfg.fork
  seen : ∀ p ∈ pass.seen, Settled cfg.fork pub p

lemma PassOk.effect {pub pub'} (h : PassOk cfg pub pass) (he : Effect pub pub') :
    PassOk cfg pub' pass where
  nLblknos_le := h.nLblknos_le.trans (Settled.logical_le_of_effect he)
  boundary_le := by
    rw [boundary_eq_of_effect he]
    exact h.boundary_le
  seen p hp := (h.seen p hp).effect he

lemma PassOk.same {pub pass'} (h : PassOk cfg pub pass) (hsame : pass.Same pass') :
    PassOk cfg pub pass' where
  nLblknos_le := hsame.nLblknos ▸ h.nLblknos_le
  boundary_le := hsame.boundary ▸ h.boundary_le
  seen := hsame.seen ▸ h.seen

def Phase.Cleared (cfg : Config n) (pub : Umbra.State n) : Phase → Prop
  | .counting _ _ segno nLblknos => Clear cfg pub segno fun lblkno => nLblknos ≤ lblkno
  | .checking _ _ segno nLblknos nMapPages pageIdx =>
    Clear cfg pub segno fun lblkno => nLblknos ≤ lblkno ∨
      nMapPages ≤ mapForkPagePosition cfg.fork (lblkno / mapEntriesPerPage) ∨
      lblkno / mapEntriesPerPage < pageIdx
  | .enqueuing _ _ segno => Clear cfg pub segno fun _ => True
  | _ => True

lemma Phase.cleared_of_isOpen {pub} (h : phase.isOpen = true) : phase.Cleared cfg pub := by
  cases phase <;> trivial

lemma Phase.Cleared.effect {pub pub'} (h : phase.Cleared cfg pub) (hpos : 0 < cfg.relsegSize)
    (hs : SettledBelow cfg pub) (he : Effect pub pub') : phase.Cleared cfg pub' := by
  cases phase with
  | counting | checking | enqueuing => exact Clear.effect h hpos hs he
  | _ => trivial

/-- Blocks below the reclaim boundary are never reserved again, and a segment that was asked for
stays empty. -/
structure Safe (cfg : Config n) (s : State n) : Prop where
  running : s.pub.recovery = none
  disciplined : Disciplined s.pub
  truncateFree : TruncateFree s.pub
  apart : Apart cfg.fork s.pub
  settled : SettledBelow cfg s.pub
  materialized : ∀ k p, s.pub.mapMeta.map k = some p →
    mapForkPagePosition k.1 (k.2 / mapEntriesPerPage) < s.mapNblocks
  pass : ∀ pass, s.phase.pass? = some pass → PassOk cfg s.pub pass
  cleared : s.phase.Cleared cfg s.pub
  below : ∀ segno ∈ s.enqueued, mapSegmentFullyBelowReclaimBoundary cfg
    (s.pub.mapMeta.entry.reclaimBoundary cfg.fork) segno = true
  dead : ∀ segno ∈ s.enqueued, Clear cfg s.pub segno fun _ => True

section

variable {s t : State n}

namespace Safe

section
variable (h : Safe cfg s)
include h

lemma notMem_segment (hseg : segno ∈ s.enqueued) (hk : k.1 = cfg.fork)
    (hp : s.pub.mapMeta.map k = some p) : p / cfg.relsegSize ≠ segno := by
  obtain ⟨fork, lblkno⟩ := k
  cases hk
  exact h.dead segno hseg (h.below segno hseg) lblkno p trivial hp

lemma claim_notMem_segment (hpos : 0 < cfg.relsegSize) (hseg : segno ∈ s.enqueued) {c}
    (hk : k.1 = cfg.fork) (hc : s.pub.claims k = some c) : c.pblk / cfg.relsegSize ≠ segno := by
  intro heq
  have hset := h.settled c.pblk (lt_boundary hpos (h.below segno hseg) heq)
  exact h.notMem_segment hseg hk (hset.claim k c hk hc rfl) heq

lemma setPhase (hpass : ∀ pass, phase.pass? = some pass → PassOk cfg s.pub pass)
    (hclear : phase.Cleared cfg s.pub) : Safe cfg { s with phase := phase } :=
  { h with pass := hpass, cleared := hclear }

lemma setQueue (hpub : t.pub = s.pub) (hsize : t.mapNblocks = s.mapNblocks)
    (hphase : t.phase = s.phase) (henq : t.enqueued = s.enqueued) : Safe cfg t := by
  refine ⟨?_, ?_, ?_, ?_, ?_, ?_, ?_, ?_, ?_, ?_⟩
  · rw [hpub]; exact h.running
  · rw [hpub]; exact h.disciplined
  · rw [hpub]; exact h.truncateFree
  · rw [hpub]; exact h.apart
  · rw [hpub]; exact h.settled
  · rw [hpub, hsize]; exact h.materialized
  · rw [hpub, hphase]; exact h.pass
  · rw [hpub, hphase]; exact h.cleared
  · rw [hpub, henq]; exact h.below
  · rw [hpub, henq]; exact h.dead

lemma turn (hpos : 0 < cfg.relsegSize) (ht : Turn cfg s phase) :
    Safe cfg { s with phase := phase } := by
  have hpass : ∀ {pass}, s.phase.pass? = some pass → PassOk cfg s.pub pass := h.pass _
  have hcleared := h.cleared
  cases ht with
  | idle => exact h.setPhase nofun trivial
  | begin =>
    refine h.setPhase (fun pass hp => ?_) trivial
    cases hp
    exact ⟨le_rfl, Nat.zero_le _, fun p hp => by cases hp⟩
  | readBoundary hphase =>
    rw [hphase] at hpass
    refine h.setPhase (fun pass hp => ?_) trivial
    cases hp
    exact ⟨(hpass rfl).nLblknos_le, min_le_left _ _, fun p hp => by cases hp⟩
  | @scan pass pageIdx hphase hin =>
    rw [hphase] at hpass
    have hok := hpass rfl
    refine h.setPhase (fun pass' hp => ?_) trivial
    cases hp
    refine ⟨hok.nLblknos_le, hok.boundary_le, fun p hp => ?_⟩
    rcases List.mem_append.mp hp with hp | hp
    · exact hok.seen p hp
    · -- what is read below the end of the fork is published
      obtain ⟨lblkno, hmem, hmap⟩ := List.mem_filterMap.mp hp
      have hlt := ((mem_pageLblknos_iff hin).mp hmem).1
      exact Settled.of_map h.apart rfl hmap (hlt.trans_le hok.nLblknos_le)
  | carry hp hp' hsame hopen =>
    refine h.setPhase (fun pass' hp'' => ?_) (Phase.cleared_of_isOpen hopen)
    rw [hp'] at hp''
    cases hp''
    exact (hpass hp).same hsame
  | noBlocks hphase hzero =>
    rw [hphase] at hpass
    refine h.setPhase (fun pass' hp => hpass hp) fun hbelow lblkno p _ hp hseg => ?_
    have hlt := (h.settled p (lt_boundary hpos hbelow hseg)).below _ rfl hp
    rw [hzero] at hlt
    exact Nat.not_lt_zero _ hlt
  | sized hphase =>
    rw [hphase] at hpass
    refine h.setPhase (fun pass' hp => hpass hp) fun hbelow lblkno p hge hp hseg => ?_
    have hlt := (h.settled p (lt_boundary hpos hbelow hseg)).below _ rfl hp
    exact not_lt.mpr hge hlt
  | noPages hphase hzero =>
    rw [hphase] at hpass
    refine h.setPhase (fun pass' hp => hpass hp) fun _ lblkno p _ hp => ?_
    have hlt := h.materialized _ p hp
    rw [hzero] at hlt
    exact absurd hlt (Nat.not_lt_zero _)
  | counted hphase =>
    rw [hphase] at hpass hcleared
    refine h.setPhase (fun pass' hp => hpass hp) fun hbelow lblkno p hS hp => ?_
    rcases hS with hge | hpage | hlt
    · exact hcleared hbelow lblkno p hge hp
    · exact absurd (h.materialized _ p hp) (not_lt.mpr hpage)
    · exact absurd hlt (Nat.not_lt_zero _)
  | @checked pass resume segno nLblknos nMapPages pageIdx hphase hend =>
    rw [hphase] at hpass hcleared
    refine h.setPhase (fun pass' hp => hpass hp) fun hbelow lblkno p _ hp => ?_
    refine hcleared hbelow lblkno p ?_ hp
    simp only [Pass.walked, decide_eq_true_eq] at hend
    rcases lt_or_ge (lblkno / mapEntriesPerPage) pageIdx with hlt | hge
    · exact .inr (.inr hlt)
    · rcases hend with hend | hend
      · exact .inl (le_of_pageCount_le (hend.trans hge))
      · exact .inr (.inl (hend.trans (mapForkPagePosition_mono cfg.fork hge)))
  | @checkPage pass resume segno nLblknos nMapPages pageIdx hphase hin hnone =>
    rw [hphase] at hpass hcleared
    refine h.setPhase (fun pass' hp => hpass hp) fun hbelow lblkno p hS hp => ?_
    rcases lt_or_ge lblkno nLblknos with hlt | hge
    · rcases hS with hge | hpage | hidx
      · exact absurd hlt (not_lt.mpr hge)
      · exact hcleared hbelow lblkno p (.inr (.inl hpage)) hp
      · rcases eq_or_lt_of_le (Nat.le_of_lt_succ hidx) with heq | hidx
        · exact hnone p (List.mem_filterMap.mpr
            ⟨lblkno, (mem_pageLblknos_iff hin).mpr ⟨hlt, heq⟩, hp⟩)
        · exact hcleared hbelow lblkno p (.inr (.inr hidx)) hp
    · exact hcleared hbelow lblkno p (.inl hge) hp

lemma setEffect (hpos : 0 < cfg.relsegSize) {pub} (he : Effect s.pub pub)
    (hrun : pub.recovery = none) (hd : Disciplined pub) (htrunc : TruncateFree pub) {size}
    (hsize : ∀ k p, pub.mapMeta.map k = some p → mapForkPagePosition k.1 (k.2 / mapEntriesPerPage) <
      size) : Safe cfg { s with pub := pub, mapNblocks := size } := by
  refine ⟨hrun, hd, htrunc, h.apart.effect he, h.settled.effect he, hsize,
    fun pass hp => (h.pass pass hp).effect he, h.cleared.effect hpos h.settled he,
    fun segno hseg => ?_, fun segno hseg => ?_⟩
  · rw [boundary_eq_of_effect he]
    exact h.below segno hseg
  · exact (h.dead segno hseg).effect hpos h.settled he

lemma setPub (hpos : 0 < cfg.relsegSize) {pub} (hm : Umbra.Move s.pub e pub) (hcrash : e ≠ .crash)
    (htrunc : e.isTruncate = false) {size}
    (hsize : ∀ k p, pub.mapMeta.map k = some p → mapForkPagePosition k.1 (k.2 / mapEntriesPerPage) <
      size) : Safe cfg { s with pub := pub, mapNblocks := size } :=
  h.setEffect hpos (hm.effect h.disciplined h.truncateFree h.running hcrash)
    (hm.recovery_eq_none h.running hcrash) (h.disciplined.step hm) (h.truncateFree.step htrunc hm)
    hsize

lemma abandon (hpos : 0 < cfg.relsegSize) :
    Safe cfg { s with pub := { s.pub with ckpt := .idle }, sync := .idle } := by
  have he : Effect s.pub { s.pub with ckpt := .idle } := .same rfl rfl
  have hpub := h.setEffect hpos he h.running { h.disciplined with } { h.truncateFree with }
    h.materialized
  exact hpub.setQueue rfl rfl rfl rfl

lemma enqueue {resume} (hphase : s.phase = .enqueuing pass resume segno)
    (hbelow : mapSegmentFullyBelowReclaimBoundary cfg (s.pub.mapMeta.entry.reclaimBoundary cfg.fork)
      segno = true) {requests} :
    Safe cfg { s with
      phase := State.resume pass resume
      requests := requests
      enqueued := segno :: s.enqueued } := by
  have hpass := h.pass
  have hcleared := h.cleared
  rw [hphase] at hpass hcleared
  refine { h with
    pass := fun pass' hp => ?_
    cleared := Phase.cleared_of_isOpen (Phase.isOpen_resume pass resume)
    below := fun segno' hseg => ?_
    dead := fun segno' hseg => ?_ }
  · rw [Phase.pass?_resume] at hp
    exact hpass pass' hp
  · rcases List.mem_cons.mp hseg with rfl | hseg
    · exact hbelow
    · exact h.below segno' hseg
  · rcases List.mem_cons.mp hseg with rfl | hseg
    · exact hcleared
    · exact h.dead segno' hseg

lemma advance (hphase : s.phase = .advancing pass) {target}
    (htarget : target = mapCompactorAdvanceBoundaryFromSet pass.reclaimBoundaryPblk
      pass.nextFreePblk pass.boundaryCommitted) :
    Safe cfg { s with
      phase := .idle
      pub := s.pub.setMeta { s.pub.mapMeta with
        entry := s.pub.mapMeta.entry.advanceReclaimBoundary cfg.fork target } } := by
  have hok := h.pass pass (by rw [hphase]; rfl)
  obtain ⟨hsuper, hres, hle, hnew⟩ :=
    s.pub.mapMeta.entry.advanceReclaimBoundary_spec cfg.fork target
  have hset : ∀ p, Settled cfg.fork s.pub p → Settled cfg.fork (s.pub.setMeta { s.pub.mapMeta with
      entry := s.pub.mapMeta.entry.advanceReclaimBoundary cfg.fork target }) p := by
    intro p hp
    refine ⟨?_, hp.claim, ?_⟩
    · exact hres.symm ▸ hp.handedOut
    · exact hsuper.symm ▸ hp.below
  refine ⟨h.running, ?_, ⟨h.truncateFree.progs, h.truncateFree.wal⟩, ?_, fun p hp => hset p ?_,
    h.materialized, nofun, trivial, fun segno hseg => ?_,
    fun segno hseg _ lblkno p _ hp => ?_⟩
  · exact h.disciplined.congr rfl rfl id fun r hr => .inl hr
  · refine h.apart.mono rfl (fun _ _ => id) ?_ ?_
    · exact le_of_eq (congrFun hres cfg.fork).symm
    · have hwithin := h.apart.within
      rw [← hsuper, ← hres] at hwithin
      exact hwithin
  · rcases lt_or_ge p (s.pub.mapMeta.entry.reclaimBoundary cfg.fork) with hlt | hge
    · exact h.settled p hlt
    · have hmem := mem_of_lt_advanceFrom (hok.boundary_le.trans hge)
        (htarget ▸ hnew p hge hp)
      exact hok.seen p (List.mem_filter.mp hmem).1
  · have hbelow : (segno + 1) * cfg.relsegSize ≤ _ := of_decide_eq_true (h.below segno hseg)
    exact decide_eq_true (hbelow.trans hle)
  · exact h.dead segno hseg (h.below segno hseg) lblkno p trivial hp

end

end Safe

end

/-! ### Every step keeps the invariant -/

section

variable {s t : State n} {pub : Umbra.State n}

lemma State.admits_running (h : s.admits cfg e = true) : e ≠ .crash ∧ e.isTruncate = false := by
  cases e with
  | crash => cases h
  | startTruncate => cases h
  | _ => exact ⟨by simp, rfl⟩

lemma State.pass?_phaseAfter (e) : (s.phaseAfter e).pass? = s.phase.pass? := by
  cases e with
  | startRelocate =>
    rw [State.phaseAfter]
    split
    · rename_i hphase
      rw [hphase]
      rfl
    · rfl
  | _ => rfl

lemma State.cleared_phaseAfter (h : s.phase.Cleared cfg pub) (e) :
    (s.phaseAfter e).Cleared cfg pub := by
  cases e with
  | startRelocate =>
    rw [State.phaseAfter]
    split
    · trivial
    · exact h
  | _ => exact h

lemma State.le_mapNblocksAfter (e) : s.mapNblocks ≤ s.mapNblocksAfter e := by
  cases e with
  | run =>
    rw [State.mapNblocksAfter]
    split
    · exact le_max_left _ _
    · exact le_rfl
  | _ => exact le_rfl

lemma Safe.materialized_pub (h : Safe cfg s) (hm : Umbra.Move s.pub e pub) (hcrash : e ≠ .crash)
    (hp : pub.mapMeta.map k = some p) :
    mapForkPagePosition k.1 (k.2 / mapEntriesPerPage) < s.mapNblocksAfter e := by
  have hold : s.pub.mapMeta.map k = some p →
      mapForkPagePosition k.1 (k.2 / mapEntriesPerPage) < s.mapNblocksAfter e :=
    fun hp => (h.materialized k p hp).trans_le (s.le_mapNblocksAfter e)
  cases hm with
  | @update b i rest m hprog hu =>
    cases hu with
    | @setMapping k' pblk =>
      change Function.update s.pub.mapMeta.map k' (some pblk) k = some p at hp
      rw [Function.update_apply] at hp
      split_ifs at hp with hk
      · subst hk
        rw [State.mapNblocksAfter, hprog]
        exact lt_of_lt_of_le (Nat.lt_succ_self _) (le_max_right _ _)
      · exact hold hp
    | clearEntry => cases (h.truncateFree.of_cons hprog).1
    | _ => exact hold hp
  | flushSuper =>
    rw [State.mapMeta_flushSuper] at hp
    exact hold hp
  | ckptSuper =>
    change s.pub.flushSuper.mapMeta.map k = some p at hp
    rw [State.mapMeta_flushSuper] at hp
    exact hold hp
  | crash => exact absurd rfl hcrash
  | redo hrec | localBirth hrec => rw [h.running] at hrec; cases hrec
  | _ => exact hold hp

theorem Safe.step {e} (h : Safe cfg s) (hpos : 0 < cfg.relsegSize) (hm : Move cfg s e t) :
    Safe cfg t := by
  cases hm with
  | @pub e pub hadm hm =>
    obtain ⟨hcrash, htrunc⟩ := State.admits_running hadm
    have hpub := h.setPub hpos hm hcrash htrunc fun k p hp => h.materialized_pub hm hcrash hp
    have hphase : Safe cfg { s with
        pub := pub, mapNblocks := s.mapNblocksAfter e, phase := s.phaseAfter e } := by
      refine hpub.setPhase (fun pass hp => hpub.pass pass ?_) (s.cleared_phaseAfter hpub.cleared e)
      rw [← s.pass?_phaseAfter e]
      exact hp
    exact hphase.setQueue rfl rfl rfl rfl
  | turn ht => exact h.turn hpos ht
  | enqueue hphase hbelow => exact h.enqueue hphase hbelow
  | advance hphase => exact h.advance hphase rfl
  | unlink =>
    have hpub := h.setPub hpos (.insertOther h.running) (by simp) rfl h.materialized
    exact hpub.setQueue rfl rfl rfl rfl
  | abandon => exact h.abandon hpos
  | _ => exact h.setQueue rfl rfl rfl rfl

end

/-! ### Where a run begins -/

/-- A fork as it is loaded: mapped blocks are distinct and below the counters. -/
structure Loaded (fork : ForkNumber) (m : MapMeta) (mapNblocks : Nat) : Prop where
  inj : ∀ k k' p, k.1 = fork → k'.1 = fork → m.map k = some p → m.map k' = some p → k = k'
  lt : ∀ k p, k.1 = fork → m.map k = some p → p < m.entry.super.nextFree fork
  below : ∀ k p, k.1 = fork → m.map k = some p → k.2 < m.entry.super.logical fork
  within : m.entry.super.nextFree fork ≤ m.entry.reservedNextFree fork
  boundary : m.entry.reclaimBoundary fork ≤ m.entry.super.nextFree fork
  materialized : ∀ k p, m.map k = some p →
    mapForkPagePosition k.1 (k.2 / mapEntriesPerPage) < mapNblocks

theorem Safe.start {base mapNblocks} (h : Loaded cfg.fork base mapNblocks) :
    Safe cfg (State.start n base mapNblocks) where
  running := rfl
  disciplined := ⟨fun _ => ⟨rfl, trivial, trivial, trivial⟩, fun hne => absurd rfl hne,
    fun r hr => by cases hr⟩
  truncateFree := ⟨nofun, fun r hr => by cases hr⟩
  apart := by
    refine ⟨fun k p hk hp => (h.lt k p hk hp).trans_le h.within, fun k c _ hc => ?_, h.inj,
      fun k k' c c' _ _ hc => ?_, fun k k' c _ _ hc => ?_, h.within⟩ <;> cases hc
  settled p hp :=
    ⟨hp.trans_le (h.boundary.trans h.within), nofun, fun k hk hmap => h.below k p hk hmap⟩
  materialized := h.materialized
  pass := nofun
  cleared := trivial
  below := nofun
  dead := nofun

end Reclaim

end Umbra
