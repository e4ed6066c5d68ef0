import Umbra.Reclaim.Safety

/-!
# When a reclaimed segment is unlinked

A request made before `SyncPreCheckpoint` is carried out after that checkpoint has completed, so the
redo pointer then lies behind everything logged before the request. Records logged after it name no
block of the segment as their old one, unless a relocation has overtaken the lookup they rest on.
-/

namespace Umbra

namespace Reclaim

open Foundation List

variable {n : Nat} {cfg : Config n} {e : Umbra.Event n} {pub pub' : Umbra.State n}

/-! ### Records that name a segment -/

/-- Every record that names an old block in the segment lies in front of `pos`. -/
def OldBefore (cfg : Config n) (wal : List Record) (segno pos : Nat) : Prop :=
  ∀ i r k p, wal[i]? = some r → r.NamesOld k p → k.1 = cfg.fork → p / cfg.relsegSize = segno →
    i < pos

namespace OldBefore

variable {wal : List Record} {segno pos : Nat}

lemma length (cfg : Config n) (wal : List Record) (segno : Nat) :
    OldBefore cfg wal segno wal.length :=
  fun _ _ _ _ hr _ _ _ => (List.getElem?_eq_some_iff.mp hr).1

lemma append (h : OldBefore cfg wal segno pos) {r}
    (hr : ∀ k p, r.NamesOld k p → k.1 = cfg.fork → p / cfg.relsegSize ≠ segno) :
    OldBefore cfg (wal ++ [r]) segno pos := by
  intro i r' k p hi hold hk hp
  rcases lt_or_ge i wal.length with hlt | hge
  · rw [getElem?_append_left hlt] at hi
    exact h i r' k p hi hold hk hp
  · rw [getElem?_append_right hge] at hi
    have hmem := mem_singleton.mp (mem_of_getElem? hi)
    subst hmem
    exact absurd hp (hr k p hold hk)

lemma other (h : OldBefore cfg wal segno pos) : OldBefore cfg (wal ++ [.other]) segno pos :=
  h.append fun _ _ hold => hold.elim

lemma move (hm : Umbra.Move pub e pub') (hcrash : e ≠ .crash) (hb : Baseline pub)
    (hdead : ∀ k p, k.1 = cfg.fork → pub.mapMeta.map k = some p → p / cfg.relsegSize ≠ segno)
    (h : OldBefore cfg pub.wal segno pos) : OldBefore cfg pub'.wal segno pos := by
  cases hm with
  | @insert b r rest hprog =>
    refine h.append fun k p hold hk => hdead k p hk (hb.inserts b r ?_ k p hold)
    rw [hprog]
    exact mem_cons_self
  | insertOther | ckptRedo | ckptDone => exact h.other
  | flushPage => rwa [State.wal_flushPage]
  | flushSuper => rwa [State.wal_flushSuper]
  | ckptSuper =>
    change OldBefore cfg pub.flushSuper.wal segno pos
    rwa [State.wal_flushSuper]
  | crash => exact absurd rfl hcrash
  | localBirth hrec haux hmap ht =>
    obtain ⟨p, -, rfl⟩ := Option.map_eq_some_iff.mp ht
    exact h
  | _ => exact h

end OldBefore

lemma redo_cases (hm : Umbra.Move pub e pub') (hcrash : e ≠ .crash) :
    (e ≠ .ckptDone ∧ pub'.ckpt.redo? = pub.ckpt.redo? ∧ pub'.redoPtr = pub.redoPtr) ∨
      (e = .ckptRedo ∧ pub'.wal = pub.wal ++ [.other] ∧
        pub'.ckpt.redo? = some pub.wal.length ∧ pub'.redoPtr = pub.redoPtr) ∨
      (e = .ckptDone ∧ ∃ redo, pub.ckpt.redo? = some redo ∧ pub'.ckpt.redo? = none ∧
        pub'.redoPtr = redo) := by
  cases hm with
  | start hrec hidle hbegin =>
    refine .inl ⟨?_, rfl, rfl⟩
    cases hbegin <;> simp
  | flushPage =>
    refine .inl ⟨by simp, ?_, State.redoPtr_flushPage ..⟩
    unfold State.flushPage
    cases pub.ckpt <;> rfl
  | flushSuper => exact .inl ⟨by simp, by rw [State.ckpt_flushSuper], State.redoPtr_flushSuper _⟩
  | ckptRedo => exact .inr (.inl ⟨rfl, rfl, rfl, rfl⟩)
  | ckptCollect hckpt | ckptWait hckpt => exact .inl ⟨by simp, by rw [hckpt]; rfl, rfl⟩
  | ckptSuper hckpt => exact .inl ⟨by simp, by rw [hckpt]; rfl, State.redoPtr_flushSuper _⟩
  | @ckptDone redo hckpt => exact .inr (.inr ⟨rfl, redo, by rw [hckpt]; rfl, rfl, rfl⟩)
  | crash => exact absurd rfl hcrash
  | localBirth hrec haux hmap ht =>
    obtain ⟨p, -, rfl⟩ := Option.map_eq_some_iff.mp ht
    exact .inl ⟨by simp, rfl, rfl⟩
  | _ => exact .inl ⟨by simp, rfl, rfl⟩

/-! ### The invariant -/

/-- The segment is unlinked, or the next checkpoint does it. -/
def State.Due (s : State n) (segno : Nat) : Prop :=
  segno ∈ s.unlinked ∨ ∃ c, (segno, c) ∈ s.pendingUnlinks ∧ c ≠ s.checkpointCycleCtr

/-- Records that name an old block of a segment that is due lie in front of the redo pointer. -/
structure Ordered (cfg : Config n) (s : State n) : Prop where
  baseline : Baseline s.pub
  requests : ∀ segno ∈ s.requests, segno ∈ s.enqueued
  pending : ∀ segno c, (segno, c) ∈ s.pendingUnlinks → segno ∈ s.enqueued
  unlinked_sub : ∀ segno ∈ s.unlinked, segno ∈ s.enqueued
  quiet : s.sync ≠ .started → s.pub.ckpt.redo? = none
  published : ∀ redo, s.pub.ckpt.redo? = some redo → ∀ segno, s.Due segno →
    OldBefore cfg s.pub.wal segno redo
  post : s.sync = .post → ∀ segno, s.Due segno → OldBefore cfg s.pub.wal segno s.pub.redoPtr
  unlinked : ∀ segno ∈ s.unlinked, OldBefore cfg s.pub.wal segno s.pub.redoPtr

def lookupsCurrent (s : State n) : Event n → Bool
  | .pub e => lookupCurrent s.pub e
  | _ => true

namespace Ordered

variable {s t : State n}

section
variable (h : Ordered cfg s) {c : UInt16} {segno : Nat}
include h

lemma due_mem (hd : s.Due segno) : segno ∈ s.enqueued := by
  rcases hd with hmem | ⟨c, hmem, -⟩
  · exact h.unlinked_sub segno hmem
  · exact h.pending segno c hmem

lemma congr (hbase : Baseline t.pub) (hwal : t.pub.wal = s.pub.wal)
    (hckpt : t.pub.ckpt = s.pub.ckpt) (hredo : t.pub.redoPtr = s.pub.redoPtr)
    (hreq : t.requests = s.requests) (hpend : t.pendingUnlinks = s.pendingUnlinks)
    (hctr : t.checkpointCycleCtr = s.checkpointCycleCtr) (hsync : t.sync = s.sync)
    (henq : ∀ segno ∈ s.enqueued, segno ∈ t.enqueued) (hunl : t.unlinked = s.unlinked) :
    Ordered cfg t := by
  have hdue : ∀ segno, t.Due segno → s.Due segno := by
    intro segno hd
    rwa [State.Due, hunl, hpend, hctr] at hd
  refine ⟨hbase, fun segno hs => henq segno (h.requests segno (hreq ▸ hs)),
    fun segno c hs => henq segno (h.pending segno c (hpend ▸ hs)),
    fun segno hs => henq segno (h.unlinked_sub segno (hunl ▸ hs)), ?_, ?_, ?_, ?_⟩
  · rw [hsync, hckpt]
    exact h.quiet
  · intro redo hr segno hd
    rw [hckpt] at hr
    rw [hwal]
    exact h.published redo hr segno (hdue segno hd)
  · intro hp segno hd
    rw [hsync] at hp
    rw [hwal, hredo]
    exact h.post hp segno (hdue segno hd)
  · rw [hwal, hredo, hunl]
    exact h.unlinked

lemma setPub (hsafe : Safe cfg s) (hadm : s.admits cfg e = true) (hm : Umbra.Move s.pub e pub)
    (hok : lookupCurrent s.pub e = true) :
    Ordered cfg { s with
      pub := pub
      mapNblocks := s.mapNblocksAfter e
      phase := s.phaseAfter e
      sync := s.syncAfter e } := by
  obtain ⟨hcrash, htrunc⟩ := State.admits_running hadm
  have hbase := h.baseline.step hsafe.disciplined hsafe.truncateFree hsafe.running hcrash hok hm
  have hkeep : ∀ segno pos, s.Due segno → OldBefore cfg s.pub.wal segno pos →
      OldBefore cfg pub.wal segno pos := fun segno pos hd =>
    OldBefore.move hm hcrash h.baseline fun k p => hsafe.notMem_segment (h.due_mem hd)
  rcases redo_cases hm hcrash with ⟨hne, hckpt, hredo⟩ | ⟨rfl, hwal, hckpt, hredo⟩ |
    ⟨rfl, redo, hold, hckpt, hredo⟩
  · have hsync : s.syncAfter e = s.sync := by
      cases e <;> first | rfl | exact absurd rfl hne
    refine ⟨hbase, h.requests, h.pending, h.unlinked_sub, fun hs => ?_, fun redo hr segno hd => ?_,
      fun hp segno hd => ?_, fun segno hs => ?_⟩
    · exact hckpt.trans (h.quiet (hsync ▸ hs))
    · exact hkeep segno redo hd (h.published redo (hckpt ▸ hr) segno hd)
    · rw [hredo]
      exact hkeep segno _ hd (h.post (hsync ▸ hp) segno hd)
    · rw [hredo]
      exact hkeep segno _ (.inl hs) (h.unlinked segno hs)
  · -- the redo pointer is published behind everything logged so far
    have hstarted : s.sync = .started := of_decide_eq_true hadm
    refine ⟨hbase, h.requests, h.pending, h.unlinked_sub, fun hs => absurd hstarted hs,
      fun redo hr segno hd => ?_, fun hp => ?_, fun segno hs => ?_⟩
    · rw [hckpt] at hr
      cases hr
      rw [hwal]
      exact (OldBefore.length cfg s.pub.wal segno).other
    · cases hstarted.symm.trans hp
    · rw [hredo]
      exact hkeep segno _ (.inl hs) (h.unlinked segno hs)
  · refine ⟨hbase, h.requests, h.pending, h.unlinked_sub, fun _ => hckpt, fun redo' hr => ?_,
      fun _ segno hd => ?_, fun segno hs => ?_⟩
    · rw [hckpt] at hr
      cases hr
    · rw [hredo]
      exact hkeep segno redo hd (h.published redo hold segno hd)
    · rw [hredo]
      exact hkeep segno redo (.inl hs) (h.published redo hold segno (.inl hs))

lemma mem_absorb (hmem : (segno, c) ∈ s.absorb.pendingUnlinks) :
    segno ∈ s.enqueued ∧ (c ≠ s.checkpointCycleCtr → (segno, c) ∈ s.pendingUnlinks) := by
  rcases mem_append.mp hmem with hmem | hmem
  · exact ⟨h.pending segno c hmem, fun _ => hmem⟩
  · obtain ⟨segno', hreq, heq⟩ := mem_map.mp hmem
    cases heq
    exact ⟨h.requests segno hreq, fun hne => absurd rfl hne⟩

lemma absorb : Ordered cfg s.absorb := by
  have hdue : ∀ segno, s.absorb.Due segno → s.Due segno := by
    rintro segno (hmem | ⟨c, hmem, hne⟩)
    · exact .inl hmem
    · exact .inr ⟨c, (h.mem_absorb hmem).2 hne, hne⟩
  exact ⟨h.baseline, nofun, fun segno c hs => (h.mem_absorb hs).1,
    h.unlinked_sub, h.quiet, fun redo hr segno hd => h.published redo hr segno (hdue segno hd),
    fun hp segno hd => h.post hp segno (hdue segno hd), h.unlinked⟩

lemma syncPre (hsync : s.sync = .idle) : Ordered cfg { s.absorb with
      checkpointCycleCtr := s.checkpointCycleCtr + 1, sync := .started } := by
  have hnone : s.pub.ckpt.redo? = none := h.quiet (by rw [hsync]; simp)
  refine ⟨h.baseline, nofun, fun segno c hs => (h.mem_absorb hs).1,
    h.unlinked_sub, fun hne => absurd rfl hne, fun redo hr => ?_, nofun, h.unlinked⟩
  change s.pub.ckpt.redo? = some redo at hr
  rw [hnone] at hr
  cases hr

lemma unlink {rest} (hbase : Baseline { s.pub with wal := s.pub.wal ++ [Record.other] })
    (hsync : s.sync = .post) (hpend : s.pendingUnlinks = (segno, c) :: rest)
    (hne : c ≠ s.checkpointCycleCtr) :
    Ordered cfg { s with
      pub := { s.pub with wal := s.pub.wal ++ [Record.other] }
      pendingUnlinks := rest
      unlinked := segno :: s.unlinked } := by
  have hnone : s.pub.ckpt.redo? = none := h.quiet (by rw [hsync]; simp)
  have hhead : (segno, c) ∈ s.pendingUnlinks := hpend ▸ mem_cons_self
  have htail : ∀ x ∈ rest, x ∈ s.pendingUnlinks := fun x hx => hpend ▸ mem_cons_of_mem _ hx
  have hfirst : s.Due segno := .inr ⟨c, hhead, hne⟩
  refine ⟨hbase, h.requests, fun segno' c' hs => h.pending segno' c' (htail _ hs), ?_, fun _ =>
    hnone,
    fun redo hr => ?_, fun _ segno' hd => ?_, fun segno' hs => ?_⟩
  · intro segno' hs
    rcases mem_cons.mp hs with rfl | hs
    · exact h.due_mem hfirst
    · exact h.unlinked_sub segno' hs
  · change s.pub.ckpt.redo? = some redo at hr
    rw [hnone] at hr
    cases hr
  · refine (h.post hsync segno' ?_).other
    rcases hd with hmem | ⟨c', hmem, hc'⟩
    · rcases mem_cons.mp hmem with rfl | hmem
      · exact hfirst
      · exact .inl hmem
    · exact .inr ⟨c', htail _ hmem, hc'⟩
  · rcases mem_cons.mp hs with rfl | hs
    · exact (h.post hsync segno' hfirst).other
    · exact (h.unlinked segno' hs).other

end

end Ordered

theorem Ordered.start (base : MapMeta) (mapNblocks : Nat) :
    Ordered cfg (State.start n base mapNblocks) where
  baseline := .start base
  requests := nofun
  pending := nofun
  unlinked_sub := nofun
  quiet _ := rfl
  published := nofun
  post := nofun
  unlinked := nofun

theorem Ordered.step {s t e} (h : Ordered cfg s) (hsafe : Safe cfg s)
    (hok : lookupsCurrent s e = true) (hm : Move cfg s e t) : Ordered cfg t := by
  cases hm with
  | pub hadm hm => exact h.setPub hsafe hadm hm hok
  | turn => exact h.congr h.baseline rfl rfl rfl rfl rfl rfl rfl (fun _ => id) rfl
  | @enqueue pass resume segno =>
    have h' : Ordered cfg { s with
        phase := State.resume pass resume, enqueued := segno :: s.enqueued } :=
      h.congr h.baseline rfl rfl rfl rfl rfl rfl rfl (fun _ => mem_cons_of_mem _) rfl
    refine { h' with requests := forall_mem_append.mpr ⟨h'.requests, ?_⟩ }
    exact forall_mem_singleton.mpr mem_cons_self
  | advance =>
    refine h.congr ?_ rfl rfl rfl rfl rfl rfl rfl (fun _ => id) rfl
    exact h.baseline.congr rfl (fun _ _ => id) rfl
  | absorb => exact h.absorb
  | syncPre hsync => exact h.syncPre hsync
  | syncEnd hsync =>
    have hnone : s.pub.ckpt.redo? = none := h.quiet (by rw [hsync]; simp)
    exact { h with quiet := fun _ => hnone, post := nofun }
  | unlink hsync hpending hcycle =>
    exact h.unlink (h.baseline.congr rfl (fun _ _ => id) rfl) hsync hpending hcycle
  | abandon =>
    have hbase : Baseline { s.pub with ckpt := .idle } := h.baseline.congr rfl (fun _ _ => id) rfl
    exact { h with baseline := hbase, quiet := fun _ => rfl, published := nofun, post := nofun }

/-! ### The result -/

theorem Safe.of_reachable (hpos : 0 < cfg.relsegSize) {base mapNblocks}
    (hbase : Loaded cfg.fork base mapNblocks) {s}
    (hs : (reclaim cfg).Reachable (State.start n base mapNblocks) s) : Safe cfg s :=
  hs.invariant (.start hbase) fun h _ hstep => h.step hpos (.of_step hstep)

/-- No MAP entry and no claim refers to a segment that has been enqueued. If each lookup is still
current when its block gets claimed, a segment is unlinked only when every record whose old block
lies in it is in front of the redo pointer. -/
theorem reclaim_safe (cfg : Config n) (hpos : 0 < cfg.relsegSize) {base : MapMeta}
    {mapNblocks : Nat} (hbase : Loaded cfg.fork base mapNblocks) {s : State n}
    (hs : (reclaim cfg).Reachable (State.start n base mapNblocks) s) :
    (∀ segno ∈ s.enqueued, (∀ lblkno p, lblkno < s.pub.mapMeta.entry.super.logical cfg.fork →
        s.pub.mapMeta.map (cfg.fork, lblkno) = some p → p / cfg.relsegSize ≠ segno) ∧
      ∀ lblkno c, s.pub.claims (cfg.fork, lblkno) = some c → c.pblk / cfg.relsegSize ≠ segno) ∧
    ((reclaim cfg).Reaches (fun s e => lookupsCurrent s e = true)
        (State.start n base mapNblocks) s →
      ∀ segno ∈ s.unlinked, segno ∈ s.enqueued ∧ ∀ i r lblkno p, s.pub.wal[i]? = some r →
        r.NamesOld (cfg.fork, lblkno) p → p / cfg.relsegSize = segno → i < s.pub.redoPtr) := by
  have hsafe := Safe.of_reachable hpos hbase hs
  refine ⟨fun segno hseg => ⟨fun lblkno p _ hp => ?_, fun lblkno c hc => ?_⟩,
    fun hcur segno hseg => ?_⟩
  · exact hsafe.notMem_segment hseg rfl hp
  · exact hsafe.claim_notMem_segment hpos hseg rfl hc
  · have hinv : Safe cfg s ∧ Ordered cfg s := by
      refine hcur.invariant (I := fun s => Safe cfg s ∧ Ordered cfg s) ?_ ?_
      · exact ⟨.start hbase, .start base mapNblocks⟩
      · rintro t e u ⟨hsafe, hord⟩ hok hstep
        exact ⟨hsafe.step hpos (.of_step hstep), hord.step hsafe hok (.of_step hstep)⟩
    refine ⟨hinv.2.unlinked_sub segno hseg, fun i r lblkno p hi hold hp => ?_⟩
    exact hinv.2.unlinked segno hseg i r _ p hi hold rfl hp

/-! ### A run, and one with a stale lookup -/

def sampleConfig (compactor : Fin n) : Config n := ⟨.main, 131072, 2048, 30, 100, compactor⟩

def twoSegments : MapMeta where
  map k := if k = (.main, 0) then some 5 else if k = (.main, 1) then some 200000 else none
  pageLsn _ := 0
  dirtyPages := []
  entry := .load ⟨fun fork => match fork with
    | .main => ⟨some 2, some 262144, some 262144⟩
    | .fsm => ⟨none, none, none⟩
    | .vm => ⟨none, none, none⟩, 0⟩

lemma loaded_twoSegments : Loaded .main twoSegments 4 := by
  have hcases : ∀ k p, twoSegments.map k = some p →
      (k = (.main, 0) ∧ p = 5) ∨ (k = (.main, 1) ∧ p = 200000) := by
    intro k p hp
    simp only [twoSegments] at hp
    split_ifs at hp with h0 h1
    · cases hp
      exact .inl ⟨h0, rfl⟩
    · cases hp
      exact .inr ⟨h1, rfl⟩
  refine ⟨?_, ?_, ?_, by decide, by decide, ?_⟩
  · intro k k' p _ _ hp hp'
    rcases hcases k p hp with ⟨rfl, rfl⟩ | ⟨rfl, rfl⟩ <;>
      rcases hcases k' _ hp' with ⟨rfl, h⟩ | ⟨rfl, h⟩
    · rfl
    · cases h
    · cases h
    · rfl
  · intro k p _ hp
    rcases hcases k p hp with ⟨rfl, rfl⟩ | ⟨rfl, rfl⟩ <;> decide
  · intro k p _ hp
    rcases hcases k p hp with ⟨rfl, rfl⟩ | ⟨rfl, rfl⟩ <;> decide
  · intro k p hp
    rcases hcases k p hp with ⟨rfl, rfl⟩ | ⟨rfl, rfl⟩ <;> decide

def walkMap : List (Event n) :=
  [.begin 0, .read, .read, .read, .scanPage true, .scanPage true, .segment true, .segment true,
    .segment true]

def emptySegment (b : Fin n) : List (Event n) :=
  [.visit true, .pub (.reserve b (.main, 0)), .pub (.startRelocate b (.main, 0))] ++
    List.replicate 7 (.pub (.run b)) ++ [.moved, .read, .read, .checkPage, .checkPage, .enqueue]

def remapBlock (b : Fin n) : List (Event n) :=
  [.pub (.reserve b (.main, 0)), .pub (.startBlockRemaps b [((.main, 0), .delta)])] ++
    List.replicate 6 (.pub (.run b))

def finishCheckpoint : List (Event n) :=
  [.pub .ckptCollect, .pub .ckptWait, .pub (.flushPage (.main, 0)), .pub .ckptSuper,
    .pub .ckptDone, .syncPost]

def reclaimRun (b compactor : Fin n) : List (Event n) :=
  walkMap ++ emptySegment compactor ++ [.syncPre, .pub .ckptRedo, .pub (.lookup b (.main, 0))] ++
    remapBlock b ++ finishCheckpoint

theorem reclaim_safe_run : ∃ s : State 2, s.enqueued = [0] ∧ s.unlinked = [0] ∧
      s.pub.wal[0]? = some (.mapSet (.main, 0) (some 5) 262144) ∧ 0 < s.pub.redoPtr ∧
      s.pub.mapMeta.map (.main, 0) = some 262145 := by
  have hs : (reclaim (sampleConfig 1)).Reaches (fun s e => lookupsCurrent s e = true)
      (State.start 2 twoSegments 4)
      (((reclaim (sampleConfig 1)).restrict fun s e => lookupsCurrent s e = true).after
        (State.start 2 twoSegments 4) (reclaimRun 0 1)) := .of_isSome (by decide)
  obtain ⟨-, hunlinked⟩ := reclaim_safe (sampleConfig 1) (by decide) loaded_twoSegments
    (hs.mono fun _ _ _ => trivial)
  have hredo := (hunlinked hs 0 (by decide)).2 0 (.mapSet (.main, 0) (some 5) 262144) 0 5
    (by decide) ⟨rfl, rfl⟩ (by decide)
  exact ⟨_, by decide, by decide, by decide, hredo, by decide⟩

def reclaimRunStale (b compactor : Fin n) : List (Event n) :=
  walkMap ++ [.pub (.lookup b (.main, 0))] ++ emptySegment compactor ++
    [.syncPre, .pub .ckptRedo] ++ remapBlock b ++ finishCheckpoint

/-- The segment is unlinked although a record behind the redo pointer names an old block in it. -/
theorem unlinked_under_stale_lookup : Loaded .main twoSegments 4 ∧
    ∃ s : State 2, (reclaim (sampleConfig 1)).Reachable (State.start 2 twoSegments 4) s ∧
      0 ∈ s.unlinked ∧ s.pub.redoPtr = 1 ∧ ∃ r, s.pub.wal[2]? = some r ∧
        r.NamesOld (.main, 0) 5 ∧ 5 / (sampleConfig (1 : Fin 2)).relsegSize = 0 := by
  refine ⟨loaded_twoSegments, (reclaim (sampleConfig 1)).after (State.start 2 twoSegments 4)
    (reclaimRunStale 0 1), .of_isSome (by decide), by decide, by decide,
    .blockRemaps [⟨(.main, 0), some 5, 262145, .delta, 2, 262146⟩], by decide, ?_, by decide⟩
  exact ⟨_, mem_singleton_self _, rfl, rfl⟩

end Reclaim

end Umbra
