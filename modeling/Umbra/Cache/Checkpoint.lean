import Umbra.Cache.Coherence

/-!
# Completeness of `MapCheckpoint`

The scan records the dirty buffers and marks them with `MAPBUF_CHECKPOINT_NEEDED`; the flush loop
skips those that have lost the mark. A mark is lost only when a write of the buffer ends.
Superblocks are recorded by relation, and the scan is repeated when it has run out of room.
-/

namespace Umbra.Cache

open Foundation Function List Nat

variable {n m k : Nat} {ρ : Type}
variable {pc old : Pc m ρ} {e : Event n m k ρ} {j : Fin k} {w : Word}

/-- A write of the page since the scan took the change along. -/
def Owed.Paid {β : Type} (o : Owed β) (writes : List (β × Nat)) : Prop :=
  ∃ w ∈ writes.drop o.since, w.1 = o.key ∧ o.stamp ≤ w.2

namespace Owed.Paid

variable {β : Type} {o : Owed β} {writes : List (β × Nat)}

lemma append (h : o.Paid writes) (more) : o.Paid (writes ++ more) := by
  obtain ⟨w, hw, hkey, hstamp⟩ := h
  refine ⟨w, ?_, hkey, hstamp⟩
  rw [drop_append]
  exact mem_append_left _ hw

lemma of_write (hsince : o.since ≤ writes.length) {stamp} (hstamp : o.stamp ≤ stamp) :
    o.Paid (writes ++ [(o.key, stamp)]) := by
  refine ⟨(o.key, stamp), ?_, rfl, hstamp⟩
  rw [drop_append_of_le_length hsince]
  exact mem_append_right _ (mem_singleton_self _)

end Owed.Paid

/-! ### Pages -/

namespace Pc

def owed : Pc m ρ → List (Owed (PageTag ρ))
  | .scan _ c | .scanMark _ c | .targets c | .startIo _ _ (.checkpoint c)
  | .io _ (.checkpoint c) | .ioLocked _ (.checkpoint c) | .ioWritten _ (.checkpoint c) => c.owed
  | .superScan _ pages _ | .superFlush pages _ | .finished pages _ => pages
  | _ => []

def pending : Pc m ρ → List (Fin m)
  | .scan _ c | .targets c => c.targets
  | .scanMark i c | .startIo i _ (.checkpoint c) | .io i (.checkpoint c)
  | .ioLocked i (.checkpoint c) | .ioWritten i (.checkpoint c) => i :: c.targets
  | _ => []

end Pc

/-- The buffer still has the change to write, and nobody is about to clear its dirty bit. -/
structure State.Waiting (s : State n m k ρ) (o : Owed (PageTag ρ)) (i : Fin m) : Prop where
  tag : s.tag i = some o.key
  dirty : (s.word i).dirty = true
  stamp : o.stamp ≤ s.stamp i
  unwritten : ∀ p c, s.pcs p ≠ .ioWritten i c

def State.Debt (s : State n m k ρ) (pc : Pc m ρ) (o : Owed (PageTag ρ)) : Prop :=
  o.Paid s.writes ∨ ∃ i ∈ pc.pending, s.Waiting o i ∧
    ((s.word i).checkpointNeeded = true ∨ pc.shared = some i)

lemma State.Waiting.goto {s : State n m k ρ} {o : Owed (PageTag ρ)} {i : Fin m} {p : Fin n}
    (h : s.Waiting o i) (hpc : ∀ c, pc ≠ .ioWritten i c) : (s.goto p pc).Waiting o i where
  __ := h
  unwritten q c := State.forall_goto (P := fun _ pc => pc ≠ .ioWritten i c) (hpc c)
    (fun q _ => h.unwritten q c) q

/-- Every page that a checkpoint has seen dirty is written, or waits among its targets. -/
structure Recorded (s : State n m k ρ) : Prop where
  stamp : ∀ i, s.stamp i ≤ s.clock
  since : ∀ p, ∀ o ∈ (s.pcs p).owed, o.since ≤ s.writes.length
  debt : ∀ p, ∀ o ∈ (s.pcs p).owed, s.Debt (s.pcs p) o

lemma recorded_init (file nblocks logical) :
    Recorded (init file nblocks logical : State n m k ρ) where
  stamp _ := le_rfl
  since := nofun
  debt := nofun

namespace Recorded

variable {s t : State n m k ρ} {p : Fin n} {i : Fin m}

section
variable (h : Recorded s)
include h

lemma of_waiting (hpcs : t.pcs = s.pcs) (hstamp : ∀ i, t.stamp i ≤ t.clock)
    (hwrites : t.writes = s.writes) (hkeep : ∀ o i, s.Waiting o i → t.Waiting o i ∧
      ((s.word i).checkpointNeeded = true → (t.word i).checkpointNeeded = true)) :
    Recorded t := by
  refine ⟨hstamp, ?_, fun p o ho => ?_⟩
  · rw [hpcs, hwrites]
    exact h.since
  · rw [hpcs] at ho ⊢
    rcases h.debt p o ho with hpaid | ⟨i, hi, hwait, hmark⟩
    · exact .inl (hwrites ▸ hpaid)
    · obtain ⟨hwait', hmark'⟩ := hkeep o i hwait
      exact .inr ⟨i, hi, hwait', hmark.imp_left hmark'⟩

lemma of_frame (hpcs : t.pcs = s.pcs) (htag : t.tag = s.tag)
    (hword : t.word = s.word) (hstamp : t.stamp = s.stamp) (hclock : s.clock ≤ t.clock)
    (hwrites : t.writes = s.writes) : Recorded t := by
  obtain ⟨pcs, word, tag, page, hash, disk, nblocks, logical, supers, published, clock, stamp⟩ := t
  cases hpcs
  cases htag
  cases hword
  cases hstamp
  exact h.of_waiting rfl (fun i => (h.stamp i).trans hclock) hwrites fun o i hi => ⟨{ hi with }, id⟩

lemma setWord (hflags : ∀ o, s.Waiting o i → w.dirty = true ∧
      ((s.word i).checkpointNeeded = true → w.checkpointNeeded = true)) :
    Recorded (s.setWord i w) := by
  refine h.of_waiting rfl h.stamp rfl fun o j hj => ?_
  have hflags' : ((s.setWord i w).word j).dirty = true ∧ ((s.word j).checkpointNeeded = true →
      ((s.setWord i w).word j).checkpointNeeded = true) :=
    State.forall_setWord (P := fun j w => s.Waiting o j → w.dirty = true ∧
      ((s.word j).checkpointNeeded = true → w.checkpointNeeded = true))
      (hflags o) (fun j _ hj => ⟨hj.dirty, id⟩) j hj
  exact ⟨{ hj with dirty := hflags'.1 }, hflags'.2⟩

lemma setWord_of_flags (hdirty : w.dirty = (s.word i).dirty)
    (hneeded : w.checkpointNeeded = (s.word i).checkpointNeeded) : Recorded (s.setWord i w) :=
  h.setWord fun _ hi => ⟨hdirty.trans hi.dirty, hneeded.trans⟩

lemma goto (hsince : ∀ o ∈ pc.owed, o.since ≤ s.writes.length) (hdebt : ∀ o ∈ pc.owed, s.Debt pc o)
    (hwritten : ∀ i c, pc = .ioWritten i c → ∀ o, ¬ s.Waiting o i) : Recorded (s.goto p pc) := by
  have hdebt' : ∀ pc' o, s.Debt pc' o → (s.goto p pc).Debt pc' o :=
    fun pc' o ho => ho.imp_right fun ⟨i, hi, hwait, hmark⟩ =>
      ⟨i, hi, hwait.goto fun c heq => hwritten i c heq o hwait, hmark⟩
  refine ⟨h.stamp, fun q => ?_, fun q => ?_⟩
  · exact State.forall_goto (P := fun _ pc => ∀ o ∈ pc.owed, o.since ≤ s.writes.length) hsince
      (fun q _ => h.since q) q
  · refine State.forall_goto (P := fun _ pc' => ∀ o ∈ pc'.owed, (s.goto p pc).Debt pc' o) ?_ ?_ q
    · exact fun o ho => hdebt' pc o (hdebt o ho)
    · exact fun q _ o ho => hdebt' _ o (h.debt q o ho)

lemma debt_of (hpc : s.pcs p = old) {o} (ho : o ∈ old.owed) : s.Debt old o := by
  subst hpc
  exact h.debt p o ho

lemma moveOn (hpc : s.pcs p = old) (howed : ∀ o ∈ pc.owed, o ∈ old.owed)
    (hpending : ∀ o i, i ∈ old.pending → s.Waiting o i →
      (s.word i).checkpointNeeded = true → i ∈ pc.pending) (hshared : old.shared = none)
    (hwritten : ∀ i c, pc = .ioWritten i c → ∀ o, ¬ s.Waiting o i) : Recorded (s.goto p pc) := by
  subst hpc
  refine h.goto (fun o ho => h.since p o (howed o ho)) (fun o ho => ?_) hwritten
  refine (h.debt p o (howed o ho)).imp_right fun ⟨i, hi, hwait, hmark⟩ => ?_
  have hneeded : (s.word i).checkpointNeeded = true :=
    hmark.resolve_right fun hsh => absurd (hshared.symm.trans hsh) nofun
  exact ⟨i, hpending o i hi hwait hneeded, hwait, .inl hneeded⟩

lemma keep (hpc : s.pcs p = old) (howed : pc.owed = old.owed) (hpending : pc.pending = old.pending)
    (hshared : old.shared = none) (hwritten : ∀ i c, pc = .ioWritten i c → ∀ o, ¬ s.Waiting o i) :
    Recorded (s.goto p pc) :=
  h.moveOn hpc (fun _ ho => howed ▸ ho) (fun _ _ hi _ _ => hpending ▸ hi) hshared hwritten

lemma pass (howed : pc.owed = []) (hwriting : pc.writing = none) : Recorded (s.goto p pc) := by
  refine h.goto ?_ ?_ ?_
  · rw [howed]
    nofun
  · rw [howed]
    nofun
  · rintro i c rfl
    cases hwriting

lemma count (hdirty : w.dirty = (s.word i).dirty)
    (hneeded : w.checkpointNeeded = (s.word i).checkpointNeeded) (howed : pc.owed = [])
    (hwriting : pc.writing = none) : Recorded ((s.setWord i w).goto p pc) :=
  (h.setWord_of_flags hdirty hneeded).pass howed hwriting

lemma resume (hpc : s.pcs p = old) (c : Caller m ρ)
    (howed : ∀ c', c = .checkpoint c' → old.owed = c'.owed ∧ old.pending = i :: c'.targets)
    (hshared : old.shared = none)
    (hdone : ∀ o, s.Waiting o i → (s.word i).checkpointNeeded = true → False) :
    Recorded (s.goto p (c.resume i)) := by
  cases c with
  | victim => exact h.pass rfl rfl
  | background => exact h.pass rfl rfl
  | checkpoint c =>
    obtain ⟨howed, hpending⟩ := howed c rfl
    refine h.moveOn hpc (fun o ho => howed ▸ ho) (fun o j hj hwait hneeded => ?_) hshared nofun
    rw [hpending] at hj
    rcases mem_cons.mp hj with rfl | hj
    · exact (hdone o hwait hneeded).elim
    · exact hj

lemma install (hclean : (s.word i).dirty = false) (tag page notMaterialized) :
    Recorded (s.install tag i page notMaterialized) := by
  refine h.of_waiting rfl (fun j => ?_) rfl fun o j hj => ?_
  · rcases eq_or_ne j i with rfl | hne
    · rw [show (s.install tag j page notMaterialized).stamp j = 0 from update_self ..]
      exact zero_le _
    · rw [show (s.install tag i page notMaterialized).stamp j = _ from update_of_ne hne ..]
      exact h.stamp j
  · have hne : j ≠ i := by
      rintro rfl
      exact absurd (hclean.symm.trans hj.dirty) nofun
    have hword : (s.install tag i page notMaterialized).word j = s.word j :=
      update_of_ne hne ..
    refine ⟨⟨(update_of_ne hne ..).trans hj.tag, ?_, ?_, hj.unwritten⟩, ?_⟩
    · rw [hword]
      exact hj.dirty
    · exact hj.stamp.trans_eq (update_of_ne hne ..).symm
    · rw [hword]
      exact id

end

lemma publish [DecidableEq ρ] (h : Recorded s) (tag i idx pblk) :
    Recorded (s.publish tag i idx pblk) := by
  have hstamp : ∀ j, s.stamp j ≤ (s.publish tag i idx pblk).stamp j ∧
      (s.publish tag i idx pblk).stamp j ≤ s.clock + 1 := by
    intro j
    have hle := (h.stamp j).trans (le_succ _)
    rcases eq_or_ne j i with rfl | hne
    · rw [show (s.publish tag j idx pblk).stamp j = _ from update_self ..]
      exact ⟨hle, le_rfl⟩
    · rw [show (s.publish tag i idx pblk).stamp j = _ from update_of_ne hne ..]
      exact ⟨le_rfl, hle⟩
  refine h.of_waiting rfl (fun j => (hstamp j).2) rfl fun o j hj => ⟨?_, id⟩
  exact { hj with stamp := hj.stamp.trans (hstamp j).1 }

lemma quiet (h : Recorded s) (hq : Quiet s p e pc) : Recorded (s.goto p pc) := by
  cases hq with
  | @nothingToFlush i needed c hpc hnot =>
    refine h.resume hpc c ?_ rfl fun o hwait hneeded => hnot ⟨hwait.dirty, fun _ => hneeded⟩
    rintro c' rfl
    exact ⟨rfl, rfl⟩
  | @ioLock i c hpc =>
    refine h.keep hpc ?_ ?_ rfl nofun <;> cases c <;> rfl
  | @nothingToWrite i c hpc htag =>
    have hnot : ∀ o, ¬ s.Waiting o i := fun o hi => absurd (htag.symm.trans hi.tag) nofun
    refine h.keep hpc ?_ ?_ rfl ?_
    · cases c <;> rfl
    · cases c <;> rfl
    · rintro _ _ ⟨⟩
      exact hnot
  | _ => exact h.pass rfl rfl

variable [DecidableEq ρ] {c : Scan m ρ}

variable (h : Recorded s)
include h

lemma scan (hpc : s.pcs p = .scan i c) (hlock : s.CanShare p i) :
    Recorded (s.goto p (scanBuffer s i c)) := by
  unfold scanBuffer
  split
  next tag htag =>
    split
    next hdirty =>
      have hwait : s.Waiting ⟨tag, s.stamp i, s.writes.length⟩ i := by
        refine ⟨htag, hdirty.1, le_rfl, fun q c' hq => ?_⟩
        rcases eq_or_ne q p with rfl | hne
        · cases hpc.symm.trans hq
        · exact hlock q hne (by rw [hq]; rfl)
      refine h.goto (forall_mem_cons.mpr ⟨le_rfl, fun o ho => ?_⟩)
        (forall_mem_cons.mpr ⟨.inr ⟨i, mem_cons_self, hwait, .inr rfl⟩, fun o ho => ?_⟩) nofun
      · exact h.since p o (by rw [hpc]; exact ho)
      · refine (h.debt_of hpc ho).imp_right fun ⟨j, hj, hwait, hmark⟩ => ?_
        exact ⟨j, mem_cons_of_mem _ hj, hwait, .inl (hmark.resolve_right nofun)⟩
    next => exact h.keep hpc rfl rfl rfl nofun
  next => exact h.keep hpc rfl rfl rfl nofun

lemma survey (hq : Survey s p e pc) : Recorded (s.goto p pc) := by
  cases hq with
  | checkpoint => exact h.pass rfl rfl
  | scan hpc hlock => exact h.scan hpc hlock
  | scanned hpc => exact h.keep hpc rfl rfl rfl nofun
  | @target i c hpc =>
    refine h.moveOn hpc (fun _ ho => ho) (fun o j hj _ _ => ?_) rfl nofun
    rcases eq_or_ne j i with rfl | hne
    · exact mem_cons_self
    · exact mem_cons_of_mem _ ((mem_erase_of_ne hne).mpr hj)
  | @targetDone i c hpc hi hnot =>
    refine h.moveOn hpc (fun _ ho => ho) (fun o j hj hwait hneeded => ?_) rfl nofun
    have hne : j ≠ i := by
      rintro rfl
      exact hnot ⟨hwait.dirty, hneeded⟩
    exact (mem_erase_of_ne hne).mpr hj
  | @supers c hpc hnil =>
    have hout : (startSupers c).owed = c.owed ∧ ∀ i c', startSupers c ≠ .ioWritten i c' := by
      unfold startSupers
      split <;> exact ⟨rfl, nofun⟩
    refine h.moveOn hpc (fun o ho => ?_) (fun o i hi _ _ => ?_) rfl
      fun i c' heq => absurd heq (hout.2 i c')
    · rw [hout.1] at ho
      exact ho
    · rw [show Pc.pending (.targets c) = [] from hnil] at hi
      cases hi
  | @superScan j pages c hpc =>
    have hout : (scanSuper s j pages c : Pc m ρ).owed = pages ∧
        ∀ i c', (scanSuper s j pages c : Pc m ρ) ≠ .ioWritten i c' := by
      unfold scanSuper
      split
      · split
        · split <;> exact ⟨rfl, nofun⟩
        · exact ⟨rfl, nofun⟩
      · exact ⟨rfl, nofun⟩
    exact h.moveOn hpc (fun o ho => hout.1 ▸ ho) nofun rfl fun i c' heq => absurd heq (hout.2 i c')
  | superScanned hpc | rescan hpc | finish hpc =>
    exact h.moveOn hpc (fun _ ho => ho) nofun rfl nofun
  | «return» hpc => exact h.pass rfl rfl

omit [DecidableEq ρ] in
lemma scanMark (hpc : s.pcs p = .scanMark i c) :
    Recorded ((s.setWord i { s.word i with checkpointNeeded := true }).goto p
      (.scan (i + 1) { c with targets := i :: c.targets })) := by
  have hword : Recorded (s.setWord i { s.word i with checkpointNeeded := true }) :=
    h.setWord fun o hi => ⟨hi.dirty, fun _ => rfl⟩
  refine hword.goto (fun o ho => h.since p o (by rw [hpc]; exact ho)) (fun o ho => ?_) nofun
  refine (hword.debt_of hpc ho).imp_right fun ⟨j, hj, hwait, hmark⟩ => ⟨j, hj, hwait, .inl ?_⟩
  rcases hmark with hneeded | hshared
  · exact hneeded
  · cases hshared
    rw [s.word_setWord_self]

lemma write {tag c} (hpc : s.pcs p = .ioLocked i c) (htag : s.tag i = some tag) :
    Recorded ((s.writePage tag i).goto p (.ioWritten i c)) := by
  have hsame : (Pc.ioWritten i c).owed = (s.pcs p).owed ∧
      (Pc.ioWritten i c).pending = (s.pcs p).pending ∧
      (Pc.ioWritten i c).shared = (s.pcs p).shared := by
    rw [hpc]
    cases c <;> exact ⟨rfl, rfl, rfl⟩
  have hpaid : ∀ o, s.Waiting o i → o.since ≤ s.writes.length →
      o.Paid (s.writePage tag i).writes := by
    intro o hi hsince
    cases htag.symm.trans hi.tag
    exact .of_write hsince hi.stamp
  have hkeep : ∀ o j, j ≠ i → s.Waiting o j →
      ((s.writePage tag i).goto p (.ioWritten i c)).Waiting o j := by
    intro o j hne hj
    refine State.Waiting.goto { hj with } ?_
    rintro c' ⟨⟩
    exact hne rfl
  have hdebt : ∀ q o, o ∈ (s.pcs q).owed →
      ((s.writePage tag i).goto p (.ioWritten i c)).Debt (s.pcs q) o := by
    intro q o ho
    rcases h.debt q o ho with hold | ⟨j, hj, hwait, hmark⟩
    · exact .inl (hold.append _)
    · rcases eq_or_ne j i with rfl | hne
      · exact .inl (hpaid o hwait (h.since q o ho))
      · exact .inr ⟨j, hj, hkeep o j hne hwait, hmark⟩
  refine ⟨h.stamp, fun q => ?_, fun q => ?_⟩
  · have hsince : ∀ q, ∀ o ∈ (s.pcs q).owed, o.since ≤ (s.writePage tag i).writes.length := by
      intro q o ho
      refine (h.since q o ho).trans ?_
      rw [State.writePage, length_append]
      exact Nat.le_add_right ..
    refine State.forall_goto (P := fun _ pc => ∀ o ∈ pc.owed, o.since ≤ _) ?_
      (fun q _ => hsince q) q
    rw [hsame.1]
    exact hsince p
  · refine State.forall_goto (P := fun _ pc => ∀ o ∈ pc.owed, State.Debt _ pc o) ?_
      (fun q _ => hdebt q) q
    intro o ho
    rw [hsame.1] at ho
    have hown := hdebt p o ho
    rw [State.Debt, ← hsame.2.1, ← hsame.2.2] at hown
    exact hown

lemma step (hg : Guarded s) (hfit : CountsFit s e) (hstep : machine.step s e = some t) :
    Recorded t := by
  cases Move.of_step hstep with
  | quiet hq => exact h.quiet hq
  | survey hq => exact h.survey hq
  | passOver => exact h
  | pinFound hpc hlt hnext =>
    rw [Word.add_one hlt]
    rcases hnext with rfl | rfl <;> exact h.count rfl rfl rfl rfl
  | raise hpc =>
    rw [Word.add_usage (hfit.raise hpc)]
    exact h.count rfl rfl rfl rfl
  | decrement hpc =>
    rw [Word.sub_usage (hfit.decrement hpc)]
    exact h.count rfl rfl rfl rfl
  | pinChosen hpc hlt =>
    rw [Word.add_one hlt]
    exact h.count rfl rfl rfl rfl
  | @insert p tag use i =>
    have hdata : Recorded (s.setHash tag (some i)) :=
      h.of_frame rfl rfl rfl rfl le_rfl rfl
    exact hdata.pass rfl rfl
  | @delete p tag old =>
    have hdata : Recorded (s.setHash old none) :=
      h.of_frame rfl rfl rfl rfl le_rfl rfl
    exact hdata.pass rfl rfl
  | @install p tag use i page notMaterialized hpc =>
    have hclean : (s.word i).dirty = false := hg.clean p i (by rw [hpc]; rfl)
    exact (h.install hclean tag page notMaterialized).pass rfl rfl
  | @publish p tag idx pblk i => exact (h.publish tag i idx pblk).pass rfl rfl
  | insideFile => exact h.count rfl rfl rfl rfl
  | @extend p tag i nblocks =>
    have hdata : Recorded (s.zeroExtend tag nblocks) :=
      h.of_frame rfl rfl rfl rfl le_rfl rfl
    exact hdata.count rfl rfl rfl rfl
  | @mark p tag i =>
    have hword : Recorded (s.setWord i (s.word i).markDirty) := h.setWord fun _ _ => ⟨rfl, id⟩
    exact hword.pass rfl rfl
  | retry hpc hlt | unpin hpc hlt =>
    rw [Word.sub_one hlt]
    exact h.count rfl rfl rfl rfl
  | @startIo p i needed c hpc =>
    have hword : Recorded (s.setWord i (s.word i).startIo) := h.setWord_of_flags rfl rfl
    refine hword.keep hpc ?_ ?_ rfl (by simp) <;> cases c <;> rfl
  | write hpc htag => exact h.write hpc htag
  | @terminate p i c hpc =>
    have hnot : ∀ o, ¬ s.Waiting o i := fun o hi => hi.unwritten p c hpc
    have hword : Recorded (s.setWord i (s.word i).terminateIo) :=
      h.setWord fun o hi => absurd hi (hnot o)
    refine hword.resume hpc c ?_ rfl fun o hi _ => hi.unwritten p c hpc
    rintro c' rfl
    exact ⟨rfl, rfl⟩
  | scanMark hpc => exact h.scanMark hpc
  | @flushSuper p pages c rnode rest hpc =>
    obtain ⟨supers, superWrites, heq⟩ := s.flushSuper_frame rnode
    have hgo : Recorded (s.goto p (.superFlush pages { c with targets := rest })) :=
      h.moveOn hpc (fun _ ho => ho) (by rintro _ _ ⟨⟩) rfl (by simp)
    rw [heq]
    exact hgo.of_frame rfl rfl rfl rfl le_rfl rfl
  | bumpLogical | superEnsure => exact h.of_frame rfl rfl rfl rfl le_rfl rfl
  | superUpdate => exact h.of_frame rfl rfl rfl rfl (le_succ _) rfl

end Recorded

/-! ### Superblocks -/

namespace Pc

def superOwed : Pc m ρ → List (Owed ρ)
  | .superScan _ _ c | .superFlush _ c => c.owed
  | .finished _ supers => supers
  | _ => []

def Due (rnode : ρ) (j : Nat) : Pc m ρ → Prop
  | .superScan j' _ c => rnode ∈ c.targets ∨ j' ≤ j
  | .superFlush _ c => rnode ∈ c.targets ∨ c.rescan = true
  | _ => False

end Pc

def State.SuperWaiting (s : State n m k ρ) (o : Owed ρ) (j : Fin k) : Prop :=
  ∃ e, s.supers j = some e ∧ e.rnode = o.key ∧ e.dirty = true ∧ o.stamp ≤ e.stamp

def State.SuperDebt (s : State n m k ρ) (pc : Pc m ρ) (o : Owed ρ) : Prop :=
  o.Paid s.superWrites ∨ ∃ j : Fin k, s.SuperWaiting o j ∧ pc.Due o.key j

/-- The same for the superblocks. -/
structure SuperRecorded (s : State n m k ρ) : Prop where
  stamp : ∀ j e, s.supers j = some e → e.stamp ≤ s.clock
  unique : ∀ i j e e', s.supers i = some e → s.supers j = some e' → e.rnode = e'.rnode → i = j
  since : ∀ p, ∀ o ∈ (s.pcs p).superOwed, o.since ≤ s.superWrites.length
  debt : ∀ p, ∀ o ∈ (s.pcs p).superOwed, s.SuperDebt (s.pcs p) o

lemma superRecorded_init (file nblocks logical) :
    SuperRecorded (init file nblocks logical : State n m k ρ) where
  stamp := nofun
  unique := nofun
  since := nofun
  debt := nofun

namespace SuperRecorded

variable {s t : State n m k ρ} {p : Fin n}

section
variable (h : SuperRecorded s)
include h

lemma of_frame (hpcs : t.pcs = s.pcs) (hsupers : t.supers = s.supers)
    (hclock : s.clock ≤ t.clock) (hwrites : t.superWrites = s.superWrites) : SuperRecorded t where
  stamp := by
    rw [hsupers]
    exact fun j e he => (h.stamp j e he).trans hclock
  unique := by
    rw [hsupers]
    exact h.unique
  since := by
    rw [hpcs, hwrites]
    exact h.since
  debt p o ho := by
    rw [hpcs] at ho ⊢
    refine (h.debt p o ho).imp (fun hpaid => ?_) fun ⟨j, hj, hdue⟩ => ⟨j, ?_, hdue⟩
    · rw [hwrites]
      exact hpaid
    · rw [State.SuperWaiting, hsupers]
      exact hj

lemma goto (hsince : ∀ o ∈ pc.superOwed, o.since ≤ s.superWrites.length)
    (hdebt : ∀ o ∈ pc.superOwed, s.SuperDebt pc o) : SuperRecorded (s.goto p pc) := by
  refine ⟨h.stamp, h.unique, fun q => ?_, fun q => ?_⟩
  · exact State.forall_goto (P := fun _ pc => ∀ o ∈ pc.superOwed, o.since ≤ s.superWrites.length)
      hsince (fun q _ => h.since q) q
  · exact State.forall_goto (P := fun _ pc' => ∀ o ∈ pc'.superOwed, s.SuperDebt pc' o) hdebt
      (fun q _ => h.debt q) q

lemma debt_of (hpc : s.pcs p = old) {o} (ho : o ∈ old.superOwed) :
    o.since ≤ s.superWrites.length ∧ s.SuperDebt old o := by
  subst hpc
  exact ⟨h.since p o ho, h.debt p o ho⟩

lemma moveOn (hpc : s.pcs p = old) (howed : ∀ o ∈ pc.superOwed, o ∈ old.superOwed)
    (hdue : ∀ (o : Owed ρ) (j : Fin k), s.SuperWaiting o j → old.Due o.key j → pc.Due o.key j) :
    SuperRecorded (s.goto p pc) := by
  refine h.goto (fun o ho => (h.debt_of hpc (howed o ho)).1) fun o ho => ?_
  refine (h.debt_of hpc (howed o ho)).2.imp_right fun ⟨j, hj, hold⟩ => ?_
  exact ⟨j, hj, hdue o j hj hold⟩

lemma pass (howed : pc.superOwed = []) : SuperRecorded (s.goto p pc) := by
  refine h.goto ?_ ?_
  · rw [howed]
    nofun
  · rw [howed]
    nofun

lemma elsewhere (hpcs : t.pcs = (s.goto p pc).pcs)
    (hsupers : t.supers = s.supers) (hclock : s.clock ≤ t.clock)
    (hwrites : t.superWrites = s.superWrites) (howed : pc.superOwed = []) : SuperRecorded t :=
  (h.pass howed).of_frame hpcs hsupers hclock hwrites

lemma setSuper {e} (hpcs : t.pcs = s.pcs) (hsupers : t.supers = update s.supers j (some e))
    (hclock : s.clock ≤ t.clock) (hstamp : e.stamp ≤ t.clock)
    (hnew : ∀ i e', i ≠ j → s.supers i = some e' → e'.rnode ≠ e.rnode) {more}
    (hwrites : t.superWrites = s.superWrites ++ more)
    (hwait : ∀ o, o.since ≤ s.superWrites.length → s.SuperWaiting o j → t.SuperWaiting o j ∨ o.Paid
      t.superWrites) : SuperRecorded t := by
  have hself : t.supers j = some e := by rw [hsupers, update_self]
  have hother : ∀ i, i ≠ j → t.supers i = s.supers i := by
    intro i hi
    rw [hsupers, update_of_ne hi]
  refine ⟨fun i e' he' => ?_, fun i i' e₁ e₂ h₁ h₂ heq => ?_, fun p o ho => ?_, fun p o ho => ?_⟩
  · rcases eq_or_ne i j with rfl | hi
    · cases hself.symm.trans he'
      exact hstamp
    · exact (h.stamp i e' ((hother i hi).symm.trans he')).trans hclock
  · rcases eq_or_ne i j with rfl | hi <;> rcases eq_or_ne i' i with rfl | hi'
    · rfl
    · cases hself.symm.trans h₁
      exact absurd heq.symm (hnew i' e₂ hi' ((hother i' hi').symm.trans h₂))
    · rfl
    · rw [hother i hi] at h₁
      rcases eq_or_ne i' j with rfl | hj
      · cases hself.symm.trans h₂
        exact absurd heq (hnew i e₁ hi h₁)
      · exact h.unique i i' e₁ e₂ h₁ ((hother i' hj).symm.trans h₂) heq
  · rw [hpcs] at ho
    rw [hwrites, length_append]
    exact (h.since p o ho).trans (Nat.le_add_right ..)
  · rw [hpcs] at ho ⊢
    rcases h.debt p o ho with hpaid | ⟨i, hi, hdue⟩
    · rw [State.SuperDebt, hwrites]
      exact .inl (hpaid.append more)
    · rcases eq_or_ne i j with rfl | hne
      · rcases hwait o (h.since p o ho) hi with hi | hpaid
        · exact .inr ⟨i, hi, hdue⟩
        · exact .inl hpaid
      · refine .inr ⟨i, ?_, hdue⟩
        rw [State.SuperWaiting, hother i hne]
        exact hi

lemma superUpdate {e} (he : s.supers j = some e) :
    SuperRecorded { s.setSuper j { e with dirty := true, stamp := s.clock + 1 } with
      clock := s.clock + 1 } := by
  refine h.setSuper rfl rfl (le_succ _) le_rfl ?_ (append_nil _).symm ?_
  · intro i e' hi he' heq
    exact hi (h.unique i j e' e he' he heq)
  · rintro o - ⟨e', he', hkey, -, hstamp⟩
    cases he.symm.trans he'
    exact .inl ⟨_, update_self .., hkey, rfl, hstamp.trans ((h.stamp j e he).trans (le_succ _))⟩

end

variable [DecidableEq ρ] {rnode : ρ}

lemma findSuper_eq_none (hnone : s.findSuper rnode = none) {e} (he : s.supers j = some e) :
    e.rnode ≠ rnode := by
  have hall := find?_eq_none.mp hnone j (mem_finRange j)
  rw [he] at hall
  simpa using hall

lemma findSuper_eq_some (hsome : s.findSuper rnode = some j) :
    ∃ e, s.supers j = some e ∧ e.rnode = rnode := by
  have hany := find?_some hsome
  rw [Option.any_eq_true] at hany
  obtain ⟨e, he, heq⟩ := hany
  exact ⟨e, he, of_decide_eq_true heq⟩

variable (h : SuperRecorded s)
include h

lemma superEnsure (hj : s.supers j = none) (hnone : s.findSuper rnode = none) :
    SuperRecorded (s.setSuper j { rnode, dirty := false, stamp := 0 }) := by
  refine h.setSuper rfl rfl le_rfl (zero_le _) ?_ (append_nil _).symm ?_
  · exact fun i e' _ he' => findSuper_eq_none hnone he'
  · rintro o - ⟨e', he', -⟩
    exact absurd (hj.symm.trans he') nofun

lemma flushSuper (rnode) : SuperRecorded (s.flushSuper rnode) ∧
      ∀ o j, (s.flushSuper rnode).SuperWaiting o j → o.key ≠ rnode := by
  unfold State.flushSuper
  split
  next j hfind =>
    obtain ⟨e, he, hrnode⟩ := findSuper_eq_some hfind
    simp only [he]
    split
    next hdirty =>
      refine ⟨h.setSuper rfl rfl le_rfl (h.stamp j e he) ?_ rfl ?_, ?_⟩
      · intro i e' hi he' heq
        exact hi (h.unique i j e' e he' he heq)
      · rintro o hsince ⟨e', he', hkey, -, hstamp⟩
        cases he.symm.trans he'
        have hpaid : o.Paid (s.superWrites ++ [(o.key, e.stamp)]) := .of_write hsince hstamp
        rw [← hkey, hrnode] at hpaid
        exact .inr hpaid
      · rintro o i ⟨e', he', hkey, hdirty', -⟩ heq
        rcases update_some_cases he' with ⟨rfl, rfl⟩ | ⟨hi, he'⟩
        · cases hdirty'
        · exact hi (h.unique i j e' e he' he (hkey.trans (heq.trans hrnode.symm)))
    next hclean =>
      refine ⟨h, ?_⟩
      rintro o i ⟨e', he', hkey, hdirty', -⟩ heq
      cases h.unique i j e' e he' he (hkey.trans (heq.trans hrnode.symm))
      cases he.symm.trans he'
      exact hclean hdirty'
  next hnone =>
    refine ⟨h, ?_⟩
    rintro o i ⟨e', he', hkey, -⟩ heq
    exact findSuper_eq_none hnone he' (hkey.trans heq)

omit [DecidableEq ρ] in
lemma scan {pages c} (hpc : s.pcs p = .superScan j pages c) :
    SuperRecorded (s.goto p (scanSuper s j pages c)) := by
  have hskip (hnot : ∀ o, ¬ s.SuperWaiting o j) :
      SuperRecorded (s.goto p (.superScan (j + 1) pages c)) := by
    refine h.moveOn hpc (fun _ ho => ho) fun o i hi hdue => ?_
    refine hdue.imp_right fun hle => lt_of_le_of_ne hle fun heq => ?_
    cases Fin.ext heq
    exact hnot o hi
  unfold scanSuper
  split
  next e he =>
    split
    next hdirty =>
      have hwait : s.SuperWaiting ⟨e.rnode, e.stamp, s.superWrites.length⟩ j :=
        ⟨e, he, rfl, hdirty, le_rfl⟩
      have hsince : ∀ o ∈ ⟨e.rnode, e.stamp, s.superWrites.length⟩ :: c.owed,
          o.since ≤ s.superWrites.length :=
        forall_mem_cons.mpr ⟨le_rfl, fun o ho => (h.debt_of hpc ho).1⟩
      split
      · refine h.goto hsince (forall_mem_cons.mpr ⟨.inr ⟨j, hwait, .inr rfl⟩, fun o ho => ?_⟩)
        exact (h.debt_of hpc ho).2.imp_right fun ⟨i, hi, _⟩ => ⟨i, hi, .inr rfl⟩
      · have hmem : e.rnode ∈ c.targets ++ [e.rnode] := mem_append_right _ (mem_singleton_self _)
        refine h.goto hsince (forall_mem_cons.mpr ⟨.inr ⟨j, hwait, .inl hmem⟩, fun o ho => ?_⟩)
        refine (h.debt_of hpc ho).2.imp_right fun ⟨i, hi, hdue⟩ => ⟨i, hi, ?_⟩
        rcases hdue with hmem | hle
        · exact .inl (mem_append_left _ hmem)
        · rcases eq_or_lt_of_le hle with heq | hlt
          · obtain ⟨e', he', hkey, -⟩ := hi
            cases Fin.ext heq
            cases he.symm.trans he'
            exact .inl (hkey ▸ hmem)
          · exact .inr hlt
    next hclean =>
      refine hskip ?_
      rintro o ⟨e', he', -, hdirty, -⟩
      cases he.symm.trans he'
      exact hclean hdirty
  next hnone =>
    refine hskip ?_
    rintro o ⟨e', he', -⟩
    exact absurd (hnone.symm.trans he') nofun

lemma survey (hq : Survey s p e pc) : SuperRecorded (s.goto p pc) := by
  cases hq with
  | scan =>
    rcases scanBuffer_spec s _ _ with heq | ⟨-, c', heq⟩ <;> rw [heq] <;> exact h.pass rfl
  | supers =>
    refine h.pass ?_
    unfold startSupers
    split <;> rfl
  | superScan hpc => exact h.scan hpc
  | superScanned hpc hj =>
    refine h.moveOn hpc (fun _ ho => ho) fun o i hi hdue => .inl ?_
    exact hdue.resolve_right fun hle => absurd i.isLt (not_lt.mpr (hj.trans hle))
  | rescan hpc =>
    exact h.moveOn hpc (fun _ ho => ho) fun o i hi _ => .inr (zero_le _)
  | @finish pages c hpc hnil hre =>
    refine h.moveOn hpc (fun _ ho => ho) fun o i hi hdue => ?_
    rcases hdue with hmem | hagain
    · rw [hnil] at hmem
      cases hmem
    · exact absurd (hre.symm.trans hagain) nofun
  | _ => exact h.pass rfl

omit [DecidableEq ρ] in
lemma quiet (hq : Quiet s p e pc) : SuperRecorded (s.goto p pc) := by
  cases hq with
  | @nothingToFlush i needed c => cases c <;> exact h.pass rfl
  | _ => exact h.pass rfl

lemma step (hstep : machine.step s e = some t) : SuperRecorded t := by
  cases Move.of_step hstep with
  | quiet hq => exact h.quiet hq
  | survey hq => exact h.survey hq
  | passOver => exact h
  | pinFound hpc hlt hnext =>
    rcases hnext with rfl | rfl <;> exact h.elsewhere rfl rfl le_rfl rfl rfl
  | publish => exact h.elsewhere rfl rfl (le_succ _) rfl rfl
  | @terminate p i c =>
    exact h.elsewhere rfl rfl le_rfl rfl (by cases c <;> rfl)
  | @flushSuper p pages c rnode rest hpc htargets =>
    obtain ⟨hflush, hgone⟩ := h.flushSuper rnode
    have hpc' : (s.flushSuper rnode).pcs p = .superFlush pages c := by
      obtain ⟨supers, superWrites, heq⟩ := s.flushSuper_frame rnode
      rw [heq]
      exact hpc
    refine hflush.moveOn hpc' (fun _ ho => ho) fun o j hj hdue => ?_
    refine hdue.imp_left fun hmem => ?_
    rw [htargets] at hmem
    exact (mem_cons.mp hmem).resolve_left (hgone o j hj)
  | bumpLogical => exact h.of_frame rfl rfl le_rfl rfl
  | superEnsure j rnode hj hnone => exact h.superEnsure hj hnone
  | superUpdate j e he => exact h.superUpdate he
  | _ => exact h.elsewhere rfl rfl le_rfl rfl rfl

end SuperRecorded

/-! ### Completeness -/

/-- When `MapCheckpoint` returns, everything that was dirty when its scan came to it has been
written since, in every run in which no count leaves its field. -/
theorem checkpoint_complete [DecidableEq ρ] {file : ρ → Nat → DiskPage} {nblocks : ρ → Nat}
    {logical : ρ → ForkNumber → Nat} {s : State n m k ρ}
    (h : machine.Reaches CountsFit (init file nblocks logical) s) {p : Fin n}
    {pages : List (Owed (PageTag ρ))} {supers : List (Owed ρ)}
    (hpc : s.pcs p = .finished pages supers) :
    (∀ o ∈ pages, o.Paid s.writes) ∧ ∀ o ∈ supers, o.Paid s.superWrites := by
  have hinv : Guarded s ∧ Recorded s ∧ SuperRecorded s := by
    refine h.invariant (I := fun s => Guarded s ∧ Recorded s ∧ SuperRecorded s) ?_ ?_
    · exact ⟨guarded_init .., recorded_init .., superRecorded_init ..⟩
    · rintro s e t ⟨hg, hr, hsr⟩ hfit hstep
      exact ⟨hg.step hfit hstep, hr.step hg hfit hstep, hsr.step hstep⟩
  refine ⟨fun o ho => ?_, fun o ho => ?_⟩
  · exact (hinv.2.1.debt_of hpc ho).resolve_right fun ⟨_, hi, _⟩ => absurd hi not_mem_nil
  · exact (hinv.2.2.debt_of hpc ho).2.resolve_right fun ⟨_, _, hdue⟩ => hdue

def scanFirst (p : Fin n) : List (Event n m k Unit) := [.checkpoint p none, .next p, .next p]

def flushFirst (p : Fin n) (i : Fin m) : List (Event n m k Unit) := [.next p, .target p i, .next p]

theorem checkpoint_complete_evicted : let M := machine.restrict CountsFit
    let s := M.after (oneBuffer (k := 1)) ([.superEnsure 0 ()] ++ publishFirst 0 0 ++
      [.superUpdate 0] ++ scanFirst 3 ++ evictFirst 1 0 ++ flushFirst 3 0 ++
        List.replicate 4 (.next 3))
    s.pcs 3 = .finished [⟨firstPage, 1, 0⟩] [⟨(), 2, 0⟩] ∧ s.tag 0 = some secondPage ∧
      (∀ o ∈ [(⟨firstPage, 1, 0⟩ : Owed (PageTag Unit))], o.Paid s.writes) ∧
      ∀ o ∈ [(⟨(), 2, 0⟩ : Owed Unit)], o.Paid s.superWrites :=
  ⟨by rfl, by rfl, checkpoint_complete (System.Reaches.of_isSome (by decide)) (p := 3) (by rfl)⟩

/-- Two sweeps lower the usage count of 1: the buffer loses `MAPBUF_DIRTY` and is never written. -/
theorem lowered_twice_incomplete :
    let events := publishFirst 0 0 ++ scanFirst 3 ++ lowerTwice 1 2 0 ++ flushFirst 3 0 ++
      List.replicate 2 (.next 3)
    (machine.run (oneBuffer (k := 0)) events).isSome ∧
      let s := machine.after (oneBuffer (k := 0)) events
      s.pcs 3 = .finished [⟨firstPage, 1, 0⟩] [] ∧ s.writes = [] :=
  ⟨by decide, by rfl, by rfl⟩

end Umbra.Cache
