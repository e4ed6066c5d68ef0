import Umbra.Cache.Naming

/-!
# Coherence of the MAP cache

A buffer holds the published entries of its page, and the page on disk has them too unless the
buffer is dirty. This needs that no count leaves its field and that pages on disk are neither
ignored when they are loaded nor overwritten with zeros (`DiskKept`).
-/

namespace Umbra.Cache

open Foundation Function

variable {n m k : Nat} {ρ : Type}

/-- No page on disk is lost: a page outside the logical range is loaded only if it is zero on disk,
and the file is extended only over zeros. -/
def DiskKept (s : State n m k ρ) : Event n m k ρ → Prop
  | .next p =>
    match s.pcs p with
    | .install tag _ _ =>
      tag.position < s.nblocks tag.1 → s.withinLogicalRange tag = false →
        (s.diskPage tag).isZero = true
    | .extend tag _ nblocks =>
      ∀ b ≤ tag.position, nblocks ≤ b → (s.disk tag.1 b).isZero = true
    | _ => True
  | _ => True

instance (s : State n m k ρ) (e : Event n m k ρ) : Decidable (DiskKept s e) := by
  unfold DiskKept
  induction e using Event.casesOn
  case next p =>
    dsimp only
    induction s.pcs p using Pc.casesOn <;> infer_instance
  all_goals infer_instance

lemma DiskPage.eq_zero_of_isZero {page : DiskPage} (h : page.isZero = true) : page = .zero := by
  cases page
  · rfl
  · cases h

lemma PageTag.eq_of_position {tag tag' : PageTag ρ} (hrnode : tag.1 = tag'.1)
    (h : tag.position = tag'.position) : tag = tag' := by
  have hdecode := congrArg mapDecodeMapBlkno h
  simp only [PageTag.position, mapDecodeMapBlkno_mapForkPagePosition, Option.some.injEq] at hdecode
  exact Prod.ext hrnode hdecode

lemma le_update_max [DecidableEq ρ] (nblocks : ρ → Nat) (rnode₀ : ρ) (b : Nat) (rnode : ρ) :
    nblocks rnode ≤ update nblocks rnode₀ (max (nblocks rnode₀) b) rnode := by
  rcases eq_or_ne rnode rnode₀ with rfl | hne
  · rw [update_self]
    exact le_max_left ..
  · rw [update_of_ne hne]

/-- Disk and cache agree with what is published, but for the pages that are dirty. -/
structure Stored (s : State n m k ρ) : Prop where
  length : ∀ rnode b, s.nblocks rnode ≤ b → s.disk rnode b = .zero
  cached : ∀ tag i, s.Holds tag i → s.page i = s.published tag
  stored : ∀ tag, (s.diskPage tag).mapping = s.published tag ∨
    ∃ i, s.Holds tag i ∧ ((s.word i).dirty = true ∨ ∃ p, (s.pcs p).publishing = some i)
  written : ∀ p i c tag, s.pcs p = .ioWritten i c → s.Holds tag i →
    (s.diskPage tag).mapping = s.published tag

lemma stored_init (file nblocks logical) : Stored (init file nblocks logical : State n m k ρ) where
  length _ _ hb := if_neg (not_lt.mpr hb)
  cached := nofun
  stored _ := .inl rfl
  written := nofun

namespace Stored

variable {s t : State n m k ρ} {p : Fin n} {tag : PageTag ρ} {i : Fin m}

variable {old pc : Pc m ρ} {w : Word}

section

variable (h : Stored s)
include h

lemma goto (hpc : s.pcs p = old)
    (hpub : ∀ i, old.publishing = some i → pc.publishing = some i ∨ (s.word i).dirty = true)
    (hwritten : ∀ i c tag, pc = .ioWritten i c → s.Holds tag i → (s.diskPage tag).mapping =
      s.published tag) : Stored (s.goto p pc) := by
  subst hpc
  refine ⟨h.length, h.cached, fun tag => ?_, fun q i c tag => ?_⟩
  · rcases h.stored tag with hdisk | ⟨i, hi, hdirty | hsome⟩
    · exact .inl hdisk
    · exact .inr ⟨i, hi, .inl hdirty⟩
    · refine .inr ⟨i, hi, ?_⟩
      by_cases hdirty : (s.word i).dirty = true
      · exact .inl hdirty
      · refine .inr (State.exists_goto Pc.publishing (fun hp => ?_) hsome)
        exact (hpub i hp).resolve_right hdirty
  · refine State.forall_goto (P := fun _ pc => pc = .ioWritten i c → s.Holds tag i →
      (s.diskPage tag).mapping = s.published tag) ?_ (fun q _ => h.written q i c tag) q
    exact hwritten i c tag

lemma setWord
    (hdirty : (s.word i).dirty = true → w.dirty = true ∨ ∀ tag, s.Holds tag i → (s.diskPage
      tag).mapping = s.published tag) : Stored (s.setWord i w) := by
  refine { h with stored := fun tag => ?_ }
  rcases h.stored tag with hdisk | ⟨j, hj, hd | hsome⟩
  · exact .inl hdisk
  · rcases eq_or_ne j i with rfl | hne
    · rcases hdirty hd with hw | hdisk
      · exact .inr ⟨j, hj, .inl (congrArg Word.dirty (s.word_setWord_self j w) |>.trans hw)⟩
      · exact .inl (hdisk tag hj)
    · refine .inr ⟨j, hj, .inl ?_⟩
      exact (congrArg Word.dirty (s.word_setWord_of_ne w hne)).trans hd
  · exact .inr ⟨j, hj, .inr hsome⟩

lemma setWord_of_dirty (hdirty : w.dirty = (s.word i).dirty) : Stored (s.setWord i w) :=
  h.setWord fun hd => .inl (hdirty.trans hd)

lemma leave (hpc : s.pcs p = old) (hold : old.publishing = none) (hnew : pc.writing = none) :
    Stored (s.goto p pc) := by
  refine h.goto hpc ?_ ?_
  · rw [hold]
    nofun
  · rintro i c tag rfl
    cases hnew

lemma count (hpc : s.pcs p = old) (hdirty : w.dirty = (s.word i).dirty)
    (hold : old.publishing = none) (hnew : pc.writing = none) :
    Stored ((s.setWord i w).goto p pc) :=
  (h.setWord_of_dirty hdirty).leave hpc hold hnew

lemma of_holds {hash}
    (hholds : ∀ tag i, s.tag i = some tag → (hash tag = some i ↔ s.hash tag = some i)) :
    Stored { s with hash := hash } := by
  have hiff : ∀ tag i, State.Holds { s with hash := hash } tag i ↔ s.Holds tag i :=
    fun tag i => and_congr_right (hholds tag i)
  refine ⟨h.length, ?_, ?_, ?_⟩
  · exact fun tag i hi => h.cached tag i ((hiff tag i).mp hi)
  · refine fun tag => (h.stored tag).imp_right fun ⟨i, hi, hd⟩ => ⟨i, (hiff tag i).mpr hi, hd⟩
  · exact fun p i c tag hp hi => h.written p i c tag hp ((hiff tag i).mp hi)

end

variable [DecidableEq ρ] {use : Use} {page : Nat → Option Nat} {e : Event n m k ρ}

variable (h : Stored s)
include h

lemma insert (hn : Named s) (hpc : s.pcs p = .insert tag use i) (hhash : s.hash tag = none) :
    Stored (s.setHash tag (some i)) := by
  refine h.of_holds fun tag' j htag' => ?_
  rcases eq_or_ne tag' tag with rfl | hne
  · rw [update_self, hhash]
    refine ⟨?_, nofun⟩
    rintro ⟨⟩
    exact absurd htag' (hn.fresh p tag' i (by rw [hpc]; rfl))
  · rw [update_of_ne hne]

lemma delete (hg : Guarded s) {old} (hpc : s.pcs p = .delete tag use i) (hold : s.Holds old i) :
    Stored (s.setHash old none) := by
  have hback : ∀ tag' j, (s.setHash old none).Holds tag' j → tag' ≠ old ∧ s.Holds tag' j := by
    rintro tag' j ⟨htag', hhash'⟩
    have hne : tag' ≠ old := by
      rintro rfl
      cases (update_self ..).symm.trans hhash'
    exact ⟨hne, htag', (update_of_ne hne ..).symm.trans hhash'⟩
  have hdisk : (s.diskPage old).mapping = s.published old := by
    refine (h.stored old).resolve_right ?_
    rintro ⟨j, hj, hd⟩
    cases hold.2.symm.trans hj.2
    rcases hd with hd | ⟨q, hq⟩
    · exact absurd ((hg.clean p i (by rw [hpc]; rfl)).symm.trans hd) nofun
    · have hqp : q = p :=
        hg.eq_of_exclusive (Pc.exclusive_of_publishing hq) (by rw [hpc]; rfl)
      rw [hqp, hpc] at hq
      cases hq
  refine ⟨h.length, ?_, ?_, ?_⟩
  · exact fun tag' j hj => h.cached tag' j (hback tag' j hj).2
  · intro tag'
    rcases eq_or_ne tag' old with rfl | hne
    · exact .inl hdisk
    · refine (h.stored tag').imp_right fun ⟨j, hj, hd⟩ => ⟨j, ⟨hj.1, ?_⟩, hd⟩
      exact (update_of_ne hne ..).trans hj.2
  · exact fun q j c tag' hq hj => h.written q j c tag' hq (hback tag' j hj).2

omit [DecidableEq ρ] in
lemma readPage {notMaterialized} (hread : s.readPage tag = some (page, notMaterialized))
    (hdisk : (s.diskPage tag).mapping = s.published tag)
    (hkept : tag.position < s.nblocks tag.1 → s.withinLogicalRange tag = false → (s.diskPage
      tag).isZero = true) : page = s.published tag := by
  unfold State.readPage at hread
  split at hread
  · split at hread
    · cases hread
    next e he =>
      cases hread
      rw [← hdisk, he]
      rfl
  next hout =>
    cases hread
    have hzero : s.diskPage tag = .zero := by
      by_cases hlt : tag.position < s.nblocks tag.1
      · refine DiskPage.eq_zero_of_isZero (hkept hlt ?_)
        exact Bool.eq_false_iff.mpr fun hin => hout ⟨hlt, hin⟩
      · exact h.length _ _ (not_lt.mp hlt)
    rw [← hdisk, hzero]
    rfl

omit [DecidableEq ρ] in
lemma stored_of_install (hn : Named s) (hpc : s.pcs p = .install tag use i) :
    (s.diskPage tag).mapping = s.published tag := by
  refine (h.stored tag).resolve_right ?_
  rintro ⟨j, hj, -⟩
  cases (hn.named p tag i (by rw [hpc]; rfl)).symm.trans hj.2
  exact hn.unlisted p i (by rw [hpc]; rfl) tag hj.1 hj.2

omit [DecidableEq ρ] in
lemma install (hn : Named s) (hpc : s.pcs p = .install tag use i) (hpage : page = s.published tag)
    (notMaterialized) : Stored (s.install tag i page notMaterialized) := by
  have hunlisted := hn.unlisted p i (by rw [hpc]; rfl)
  have hnot : ∀ tag', ¬ s.Holds tag' i := fun tag' hi => hunlisted tag' hi.1 hi.2
  have hother : ∀ j, j ≠ i → (s.install tag i page notMaterialized).tag j = s.tag j ∧
      (s.install tag i page notMaterialized).page j = s.page j ∧
      (s.install tag i page notMaterialized).word j = s.word j :=
    fun j hj => ⟨update_of_ne hj .., update_of_ne hj .., update_of_ne hj ..⟩
  refine ⟨h.length, ?_, ?_, ?_⟩
  · rintro tag' j ⟨htag', hhash'⟩
    rcases eq_or_ne j i with rfl | hne
    · cases (update_self ..).symm.trans htag'
      exact (update_self ..).trans hpage
    · rw [(hother j hne).1] at htag'
      exact (hother j hne).2.1.trans (h.cached tag' j ⟨htag', hhash'⟩)
  · intro tag'
    refine (h.stored tag').imp_right ?_
    rintro ⟨j, hj, hd⟩
    have hne : j ≠ i := by
      rintro rfl
      exact hnot tag' hj
    refine ⟨j, ⟨(hother j hne).1.trans hj.1, hj.2⟩, hd.imp_left fun hd => ?_⟩
    rw [(hother j hne).2.2]
    exact hd
  · rintro q j c tag' hq ⟨htag', hhash'⟩
    rcases eq_or_ne j i with rfl | hne
    · cases (update_self ..).symm.trans htag'
      exact h.stored_of_install hn hpc
    · rw [(hother j hne).1] at htag'
      exact h.written q j c tag' hq ⟨htag', hhash'⟩

lemma publish (hholds : s.Holds tag i) (idx pblk) (hpub : ∃ p, (s.pcs p).publishing = some i)
    (hfree : ∀ q c, s.pcs q ≠ .ioWritten i c) : Stored (s.publish tag i idx pblk) := by
  have hne : ∀ tag' j, s.Holds tag' j → tag' ≠ tag → j ≠ i := by
    rintro tag' j hj hne rfl
    exact hne (Option.some.inj (hj.1.symm.trans hholds.1))
  refine ⟨h.length, ?_, ?_, ?_⟩
  · intro tag' j hj
    rcases eq_or_ne tag' tag with rfl | hne'
    · cases hholds.2.symm.trans hj.2
      simp only [State.publish, update_self, h.cached tag' i hholds]
    · refine (update_of_ne (hne tag' j hj hne') ..).trans ?_
      exact (h.cached tag' j hj).trans (update_of_ne hne' ..).symm
  · intro tag'
    rcases eq_or_ne tag' tag with rfl | hne'
    · exact .inr ⟨i, hholds, .inr hpub⟩
    · refine (h.stored tag').imp_left fun hdisk => ?_
      exact hdisk.trans (update_of_ne hne' ..).symm
  · intro q j c tag' hq hj
    rcases eq_or_ne tag' tag with rfl | hne'
    · cases hholds.2.symm.trans hj.2
      exact absurd hq (hfree q c)
    · exact (h.written q j c tag' hq hj).trans (update_of_ne hne' ..).symm

lemma zeroExtend {nblocks}
    (hkept : ∀ b ≤ tag.position, nblocks ≤ b → (s.disk tag.1 b).isZero = true) :
    Stored (s.zeroExtend tag nblocks) := by
  have hdisk : (s.zeroExtend tag nblocks).disk = s.disk := by
    refine (update_eq_self_iff ..).mpr (funext fun b => ?_)
    split
    next hb => exact (DiskPage.eq_zero_of_isZero (hkept b hb.2 hb.1)).symm
    next => rfl
  have hpage : ∀ tag', (s.zeroExtend tag nblocks).diskPage tag' = s.diskPage tag' :=
    fun tag' => congrFun (congrFun hdisk _) _
  refine ⟨?_, h.cached, ?_, ?_⟩
  · intro rnode b hb
    rw [hdisk]
    exact h.length rnode b (le_trans (le_update_max ..) hb)
  · intro tag'
    rw [hpage]
    exact h.stored tag'
  · intro q j c tag' hq hj
    rw [hpage]
    exact h.written q j c tag' hq hj

lemma writePage (hholds : s.Holds tag i) : Stored (s.writePage tag i) ∧
      ((s.writePage tag i).diskPage tag).mapping = s.published tag := by
  have hself : (s.writePage tag i).diskPage tag = .entries (s.page i) := by
    simp [State.diskPage, State.writePage]
  have hmapping : ((s.writePage tag i).diskPage tag).mapping = s.published tag := by
    rw [hself]
    exact h.cached tag i hholds
  have hother : ∀ rnode b, (rnode = tag.1 → b ≠ tag.position) →
      (s.writePage tag i).disk rnode b = s.disk rnode b := by
    intro rnode b hne
    rcases eq_or_ne rnode tag.1 with rfl | hrnode
    · simp [State.writePage, hne rfl]
    · simp [State.writePage, hrnode]
  have hpage : ∀ tag', tag' ≠ tag → (s.writePage tag i).diskPage tag' = s.diskPage tag' :=
    fun tag' hne => hother _ _ fun hrnode hpos => hne (PageTag.eq_of_position hrnode hpos)
  refine ⟨⟨?_, h.cached, ?_, ?_⟩, hmapping⟩
  · intro rnode b hb
    have hpos : rnode = tag.1 → b ≠ tag.position := by
      rintro rfl rfl
      simp only [State.writePage, update_self, max_le_iff] at hb
      exact Nat.not_succ_le_self _ hb.2
    rw [hother _ _ hpos]
    exact h.length rnode b (le_trans (le_update_max ..) hb)
  · intro tag'
    rcases eq_or_ne tag' tag with rfl | hne
    · exact .inl hmapping
    · rw [hpage tag' hne]
      exact h.stored tag'
  · intro q j c tag' hq hj
    rcases eq_or_ne tag' tag with rfl | hne
    · exact hmapping
    · rw [hpage tag' hne]
      exact h.written q j c tag' hq hj

omit [DecidableEq ρ] in
lemma quiet (hq : Quiet s p e pc) : Stored (s.goto p pc) := by
  refine h.goto rfl (fun i hi => .inl ?_) fun i c tag heq hi => ?_
  · cases hq with
    | materialized hpc | behindEnd hpc =>
      rw [hpc] at hi
      exact hi
    | call _ _ hpc | flush _ hpc | hit hpc | miss hpc | verified hpc | mismatched hpc | used hpc
    | unused hpc | lock hpc | already hpc | busy hpc | dirtyVictim hpc | replace hpc | taken hpc
    | present hpc | giveUp hpc | unlisted hpc | lookup hpc | nothingToFlush hpc | ioLock hpc
    | nothingToWrite hpc =>
      rw [hpc] at hi
      cases hi
  · cases hq with
    | nothingToWrite hpc htag =>
      cases heq
      exact absurd (htag.symm.trans hi.1) nofun
    | @nothingToFlush i needed c => cases c <;> cases heq
    | _ => cases heq

lemma step (hg : Guarded s) (hn : Named s) (hfit : CountsFit s e) (hkept : DiskKept s e)
    (hstep : machine.step s e = some t) : Stored t := by
  cases Move.of_step hstep with
  | quiet hq => exact h.quiet hq
  | survey hq => exact h.leave rfl hq.bare.1.publishing hq.bare.2.writing
  | passOver => exact h
  | pinFound hpc hlt hnext =>
    rw [Word.add_one hlt]
    rcases hnext with rfl | rfl <;> exact h.count hpc rfl rfl rfl
  | raise hpc =>
    rw [Word.add_usage (hfit.raise hpc)]
    exact h.count hpc rfl rfl rfl
  | decrement hpc =>
    rw [Word.sub_usage (hfit.decrement hpc)]
    exact h.count hpc rfl rfl rfl
  | pinChosen hpc hlt =>
    rw [Word.add_one hlt]
    exact h.count hpc rfl rfl rfl
  | insert hpc hhash => exact (h.insert hn hpc hhash).leave hpc rfl rfl
  | delete hpc htag hhash => exact (h.delete hg hpc ⟨htag, hhash⟩).leave hpc rfl rfl
  | @install p tag use i page notMaterialized hpc hread =>
    have hkept : tag.position < s.nblocks tag.1 → s.withinLogicalRange tag = false →
        (s.diskPage tag).isZero = true := by simpa only [DiskKept, hpc] using hkept
    have hpage := h.readPage hread (h.stored_of_install hn hpc) hkept
    exact (h.install hn hpc hpage notMaterialized).leave hpc rfl rfl
  | @publish p tag idx pblk i hpc hlock =>
    have hgo : Stored (s.goto p (.size tag i)) := h.leave hpc rfl rfl
    refine hgo.publish (hn.holds p tag i (by rw [hpc]; rfl)) idx pblk ?_ fun q c hq => ?_
    · exact ⟨p, by rw [s.pcs_goto_self]; rfl⟩
    · rcases eq_or_ne q p with rfl | hne
      · rw [s.pcs_goto_self] at hq
        cases hq
      · rw [s.pcs_goto_of_ne _ hne] at hq
        exact (hlock q hne).1 (by rw [hq]; rfl)
  | @insideFile p tag i hpc =>
    have hword : Stored (s.setWord i { s.word i with notMaterialized := false }) :=
      h.setWord_of_dirty rfl
    exact hword.goto hpc (fun _ hi => .inl hi) (by simp)
  | @extend p tag i nblocks hpc =>
    have hkept : ∀ b ≤ tag.position, nblocks ≤ b → (s.disk tag.1 b).isZero = true := by
      simpa only [DiskKept, hpc] using hkept
    have hword : Stored ((s.zeroExtend tag nblocks).setWord i
        { s.word i with notMaterialized := false }) :=
      (h.zeroExtend hkept).setWord_of_dirty rfl
    exact hword.goto hpc (fun _ hi => .inl hi) (by simp)
  | @mark p tag i hpc =>
    have hword : Stored (s.setWord i (s.word i).markDirty) := h.setWord fun _ => .inl rfl
    refine hword.goto hpc ?_ (by simp)
    rintro _ ⟨⟩
    rw [s.word_setWord_self]
    exact .inr rfl
  | retry hpc hlt | unpin hpc hlt =>
    rw [Word.sub_one hlt]
    exact h.count hpc rfl rfl rfl
  | @startIo p i needed c hpc =>
    have hword : Stored (s.setWord i (s.word i).startIo) := h.setWord_of_dirty rfl
    exact hword.goto hpc (by rintro _ ⟨⟩) (by simp)
  | @write p tag i c hpc htag =>
    have hholds : s.Holds tag i := by
      refine hn.holds_of_tag htag fun q hq => ?_
      have hqp : q = p := hg.eq_of_exclusive
        (Pc.exclusive_of_replacing (Pc.replacing_of_installing hq)) (by rw [hpc]; rfl)
      rw [hqp, hpc] at hq
      cases hq
    obtain ⟨hwrite, hdisk⟩ := h.writePage hholds
    refine hwrite.goto hpc (by rintro _ ⟨⟩) ?_
    rintro _ _ tag' ⟨⟩ hi
    cases htag.symm.trans hi.1
    exact hdisk
  | @terminate p i c hpc =>
    have hword : Stored (s.setWord i (s.word i).terminateIo) :=
      h.setWord fun _ => .inr fun tag hi => h.written p i c tag hpc hi
    exact hword.leave hpc rfl (Caller.resume_spec i c).2.2.2.1
  | scanMark hpc => exact h.count hpc rfl rfl rfl
  | @flushSuper p pages c rnode rest hpc =>
    obtain ⟨supers, superWrites, heq⟩ := s.flushSuper_frame rnode
    have hgo : Stored (s.goto p (.superFlush pages { c with targets := rest })) :=
      h.leave hpc rfl rfl
    rw [heq]
    exact { hgo with }
  | _ => exact { h with }

end Stored

/-! ### Coherence -/

def State.Unlocked (s : State n m k ρ) (i : Fin m) : Prop := ∀ p, (s.pcs p).exclusive ≠ some i

instance (s : State n m k ρ) (i : Fin m) : Decidable (s.Unlocked i) :=
  inferInstanceAs (Decidable (∀ _, _))

/-- Outside of critical sections the hash table, the tags and the pages agree with what was
published. -/
structure Coherent (s : State n m k ρ) : Prop where
  tag_of_hash : ∀ tag i, s.Unlocked i → s.hash tag = some i → s.tag i = some tag
  hash_of_tag : ∀ tag i, s.Unlocked i → s.tag i = some tag → s.hash tag = some i
  eq_of_tag : ∀ tag i j, s.Unlocked i → s.Unlocked j → s.tag i = some tag →
    s.tag j = some tag → i = j
  clean : ∀ tag i, s.Unlocked i → s.tag i = some tag → (s.word i).dirty = false →
    s.page i = (s.diskPage tag).mapping
  /-- What `MapReadBuffer` returns is the published page. -/
  returned : ∀ p tag use i, s.pcs p = .returned tag use i →
    s.tag i = some tag ∧ s.page i = s.published tag

section Coherent

variable {s : State n m k ρ} {tag : PageTag ρ} {i : Fin m}

lemma State.Unlocked.not_replacing (h : s.Unlocked i) (p) : (s.pcs p).replacing ≠ some i :=
  fun hp => h p (Pc.exclusive_of_replacing hp)

lemma Named.holds_of_unlocked (h : Named s) (hi : s.Unlocked i)
    (heither : s.tag i = some tag ∨ s.hash tag = some i) : s.Holds tag i := by
  rcases heither with htag | hhash
  · exact h.holds_of_tag htag fun q hq => hi.not_replacing q (Pc.replacing_of_installing hq)
  · refine ⟨(h.listed tag i hhash).resolve_right ?_, hhash⟩
    rintro ⟨q, hq⟩
    exact hi.not_replacing q (Pc.replacing_of_naming hq)

lemma Stored.page_eq_disk (h : Stored s) (hi : s.Unlocked i) (hholds : s.Holds tag i)
    (hclean : (s.word i).dirty = false) : s.page i = (s.diskPage tag).mapping := by
  rcases h.stored tag with hdisk | ⟨j, hj, hd⟩
  · exact (h.cached tag i hholds).trans hdisk.symm
  · cases hholds.2.symm.trans hj.2
    rcases hd with hdirty | ⟨p, hp⟩
    · exact absurd (hclean.symm.trans hdirty) nofun
    · exact absurd (Pc.exclusive_of_publishing hp) (hi p)

lemma coherent (hn : Named s) (h : Stored s) : Coherent s where
  tag_of_hash tag i hi hhash := (hn.holds_of_unlocked hi (.inr hhash)).1
  hash_of_tag tag i hi htag := (hn.holds_of_unlocked hi (.inl htag)).2
  eq_of_tag tag i j hi hj hitag hjtag := by
    have hihash := (hn.holds_of_unlocked hi (.inl hitag)).2
    have hjhash := (hn.holds_of_unlocked hj (.inl hjtag)).2
    exact Option.some.inj (hihash.symm.trans hjhash)
  clean tag i hi htag hclean :=
    h.page_eq_disk hi (hn.holds_of_unlocked hi (.inl htag)) hclean
  returned p tag use i hpc := by
    have hholds := hn.holds p tag i (by rw [hpc]; rfl)
    exact ⟨hholds.1, h.cached tag i hholds⟩

end Coherent

/-- The cache is coherent in every state of every run in which no count leaves its field and no
page on disk is lost. -/
theorem coherent_of_reaches [DecidableEq ρ] {file : ρ → Nat → DiskPage} {nblocks : ρ → Nat}
    {logical : ρ → ForkNumber → Nat} {s : State n m k ρ}
    (h : machine.Reaches (fun s e => CountsFit s e ∧ DiskKept s e) (init file nblocks logical) s) :
    Coherent s := by
  have hinv : Guarded s ∧ Pinned s ∧ Named s ∧ Stored s := by
    refine h.invariant (I := fun s => Guarded s ∧ Pinned s ∧ Named s ∧ Stored s) ?_ ?_
    · exact ⟨guarded_init .., pinned_init _ _ _, named_init .., stored_init ..⟩
    · rintro s e t ⟨hg, hp, hn, hs⟩ ⟨hfit, hkept⟩ hstep
      exact ⟨hg.step hfit hstep, hp.step hfit hstep, hn.step hg hp hstep,
        hs.step hg hn hfit hkept hstep⟩
  exact coherent hinv.2.2.1 hinv.2.2.2

def firstPage : PageTag Unit := ((), (.main, 0))

def secondPage : PageTag Unit := ((), (.main, 1))

def oneBuffer : State 4 1 k Unit := init (fun _ _ => .zero) (fun _ => 1) fun _ _ => 0

def publishFirst (p : Fin n) (i : Fin m) : List (Event n m k Unit) :=
  [.call p firstPage (.publish 0 7), .next p, .sweepAt p i] ++ List.replicate 11 (.next p)

def evictFirst (p : Fin n) (i : Fin m) : List (Event n m k Unit) :=
  [.call p secondPage (.lookup 0), .next p, .sweepAt p i, .next p, .sweepAt p i]
    ++ List.replicate 14 (.next p)

def lookupFirst (p : Fin n) (i : Fin m) : List (Event n m k Unit) :=
  [.call p firstPage (.lookup 0), .next p, .sweepAt p i, .next p, .sweepAt p i]
    ++ List.replicate 6 (.next p)

theorem coherent_of_reaches_evicted :
    let M := machine.restrict fun s e => CountsFit s e ∧ DiskKept s e
    let s := M.after (oneBuffer (k := 0))
      (publishFirst 0 0 ++ [.bumpLogical () .main 1] ++ evictFirst 1 0 ++ lookupFirst 0 0)
    s.pcs 0 = .returned firstPage (.lookup 0) 0 ∧ s.page 0 = s.published firstPage ∧
      s.published firstPage 0 = some 7 :=
  ⟨by rfl, ((coherent_of_reaches (System.Reaches.of_isSome (by decide))).returned 0 firstPage
    (.lookup 0) 0 (by rfl)).2, by rfl⟩

def lowerTwice (p q : Fin n) (i : Fin m) : List (Event n m k Unit) :=
  [.call p secondPage (.lookup 0), .next p, .call q secondPage (.lookup 0), .next q,
   .sweepAt p i, .sweepAt q i, .next p, .next q]

/-- The second subtraction borrows from the flag: the published page is clean and not on disk. -/
theorem lowered_twice_incoherent :
    (machine.run (oneBuffer (k := 0)) (publishFirst 0 0 ++ lowerTwice 1 2 0)).isSome ∧
      let s := machine.after (oneBuffer (k := 0)) (publishFirst 0 0 ++ lowerTwice 1 2 0)
      s.Unlocked 0 ∧ s.tag 0 = some firstPage ∧ (s.word 0).notMaterialized = false ∧
        (s.word 0).dirty = false ∧ (s.word 0).ioInProgress = false ∧ s.page 0 0 = some 7 ∧
        (s.diskPage firstPage).mapping 0 = none :=
  ⟨by decide, by decide, by rfl, by decide, by decide, by decide, by rfl, by rfl⟩

end Umbra.Cache
