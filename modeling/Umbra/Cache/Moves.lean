import Umbra.Cache.Machine

/-!
# Steps of the MAP cache

The inversion of `step`: the moves that only change where a process is, those of a checkpoint
between buffers (`Survey`) and the others (`Quiet`), and the moves that change shared data.
-/

namespace Umbra.Cache

open Foundation Option

variable {n m k : Nat} {ρ : Type} [DecidableEq ρ]
variable {s t : State n m k ρ} {p : Fin n} {i : Fin m}

/-- The steps that move only the process's own program counter. -/
inductive Quiet (s : State n m k ρ) (p : Fin n) : Event n m k ρ → Pc m ρ → Prop
  | call (tag : PageTag ρ) (use : Use) (hpc : s.pcs p = .idle) :
      Quiet s p (.call p tag use) (.probe tag use)
  | flush (i : Fin m) (hpc : s.pcs p = .idle) :
      Quiet s p (.flush p i) (.startIo i false .background)
  | hit {tag use i} (hpc : s.pcs p = .probe tag use) (hhash : s.hash tag = some i) :
      Quiet s p (.next p) (.found tag use i)
  | miss {tag use} (hpc : s.pcs p = .probe tag use) : Quiet s p (.next p) (.sweep tag use)
  | verified {tag use i} (hpc : s.pcs p = .verify tag use i) (hlock : s.CanShare p i)
      (htag : s.tag i = some tag) : Quiet s p (.next p) (.returned tag use i)
  | mismatched {tag use i} (hpc : s.pcs p = .verify tag use i) :
      Quiet s p (.next p) (.retry tag use i)
  | used {tag use i} (hpc : s.pcs p = .sweep tag use) :
      Quiet s p (.sweepAt p i) (.decrement tag use i)
  | unused {tag use i} (hpc : s.pcs p = .sweep tag use) :
      Quiet s p (.sweepAt p i) (.chosen tag use i)
  | lock {tag use i flushed} (hpc : s.pcs p = .claim tag use i flushed) (hlock : s.CanLock p i) :
      Quiet s p (.next p) (.examine tag use i flushed)
  | already {tag use i flushed} (hpc : s.pcs p = .examine tag use i flushed)
      (htag : s.tag i = some tag) : Quiet s p (.next p) (.returned tag use i)
  | busy {tag use i flushed} (hpc : s.pcs p = .examine tag use i flushed) :
      Quiet s p (.next p) (.retry tag use i)
  | dirtyVictim {tag use i flushed} (hpc : s.pcs p = .examine tag use i flushed) :
      Quiet s p (.next p) (.startIo i false (.victim tag use))
  | replace {tag use i flushed} (hpc : s.pcs p = .examine tag use i flushed)
      (htag : s.tag i ≠ some tag) (hpins : (s.word i).refcount.val = 1)
      (hclean : (s.word i).dirty = false) : Quiet s p (.next p) (.insert tag use i)
  | taken {tag use i} (hpc : s.pcs p = .insert tag use i) : Quiet s p (.next p) (.retry tag use i)
  | present {tag use i} (hpc : s.pcs p = .insert tag use i) (hhash : s.hash tag = some i) :
      Quiet s p (.next p) (.delete tag use i)
  | giveUp {tag use i} (hpc : s.pcs p = .insert tag use i) :
      Quiet s p (.giveUp p) (.retry tag use i)
  | unlisted {tag use i} (hpc : s.pcs p = .delete tag use i)
      (hold : ∀ old, s.tag i = some old → s.hash old ≠ some i) :
      Quiet s p (.next p) (.install tag use i)
  | lookup {tag idx i} (hpc : s.pcs p = .returned tag (.lookup idx) i) (hlock : s.CanShare p i) :
      Quiet s p (.next p) (.unpin i)
  | materialized {tag i} (hpc : s.pcs p = .size tag i) : Quiet s p (.next p) (.mark tag i)
  | behindEnd {tag i} (hpc : s.pcs p = .size tag i) :
      Quiet s p (.next p) (.extend tag i (s.nblocks tag.1))
  | nothingToFlush {i needed c} (hpc : s.pcs p = .startIo i needed c)
      (hnot : ¬ ((s.word i).dirty = true ∧ (needed = true → (s.word i).checkpointNeeded = true))) :
      Quiet s p (.next p) (c.resume i)
  | ioLock {i c} (hpc : s.pcs p = .io i c) (hlock : s.CanLock p i) :
      Quiet s p (.next p) (.ioLocked i c)
  | nothingToWrite {i c} (hpc : s.pcs p = .ioLocked i c) (htag : s.tag i = none) :
      Quiet s p (.next p) (.ioWritten i c)

/-- The steps of a checkpoint's scans. -/
inductive Survey (s : State n m k ρ) (p : Fin n) : Event n m k ρ → Pc m ρ → Prop
  | checkpoint (only : Option ρ) (hpc : s.pcs p = .idle) :
      Survey s p (.checkpoint p only) (.scan 0 { only, targets := [], owed := [] })
  | scan {i : Fin m} {c : Scan m ρ} (hpc : s.pcs p = .scan i c) (hlock : s.CanShare p i) :
      Survey s p (.next p) (scanBuffer s i c)
  | scanned {j c} (hpc : s.pcs p = .scan j c) : Survey s p (.next p) (.targets c)
  | target {i c} (hpc : s.pcs p = .targets c) (hi : i ∈ c.targets) :
      Survey s p (.target p i)
        (.startIo i true (.checkpoint { c with targets := c.targets.erase i }))
  | targetDone {i c} (hpc : s.pcs p = .targets c) (hi : i ∈ c.targets)
      (hnot : ¬ ((s.word i).dirty = true ∧ (s.word i).checkpointNeeded = true)) :
      Survey s p (.target p i) (.targets { c with targets := c.targets.erase i })
  | supers {c} (hpc : s.pcs p = .targets c) (hnil : c.targets = []) :
      Survey s p (.next p) (startSupers c)
  | superScan {j : Fin k} {pages : List (Owed (PageTag ρ))} {c : SuperScan ρ}
      (hpc : s.pcs p = .superScan j pages c) : Survey s p (.next p) (scanSuper s j pages c)
  | superScanned {j pages c} (hpc : s.pcs p = .superScan j pages c) (hj : k ≤ j) :
      Survey s p (.next p) (.superFlush pages c)
  | rescan {pages c} (hpc : s.pcs p = .superFlush pages c) (hnil : c.targets = [])
      (hre : c.rescan = true) :
      Survey s p (.next p) (.superScan 0 pages { c with cap := 2 * c.cap, rescan := false })
  | finish {pages c} (hpc : s.pcs p = .superFlush pages c) (hnil : c.targets = [])
      (hre : c.rescan = false) : Survey s p (.next p) (.finished pages c.owed)
  | return {pages supers} (hpc : s.pcs p = .finished pages supers) : Survey s p (.next p) .idle

inductive Move (s : State n m k ρ) : Event n m k ρ → State n m k ρ → Prop
  | quiet {p e pc} (h : Quiet s p e pc) : Move s e (s.goto p pc)
  | survey {p e pc} (h : Survey s p e pc) : Move s e (s.goto p pc)
  | passOver (p : Fin n) (i : Fin m) : Move s (.sweepAt p i) s
  | pinFound {p tag use i pc} (hpc : s.pcs p = .found tag use i)
      (hlt : (s.word i).refcount.val + 1 < 512)
      (hnext : pc = .raise tag use i ∨ pc = .verify tag use i) :
      Move s (.next p) ((s.setWord i ((s.word i).add 1)).goto p pc)
  | raise {p tag use i} (hpc : s.pcs p = .raise tag use i) :
      Move s (.next p)
        ((s.setWord i ((s.word i).add Word.usageCountOne)).goto p (.verify tag use i))
  | decrement {p tag use i} (hpc : s.pcs p = .decrement tag use i) :
      Move s (.next p) ((s.setWord i ((s.word i).sub Word.usageCountOne)).goto p (.sweep tag use))
  | pinChosen {p tag use i} (hpc : s.pcs p = .chosen tag use i)
      (hlt : (s.word i).refcount.val + 1 < 512) :
      Move s (.next p) ((s.setWord i ((s.word i).add 1)).goto p (.claim tag use i false))
  | insert {p tag use i} (hpc : s.pcs p = .insert tag use i) (hhash : s.hash tag = none) :
      Move s (.next p) ((s.setHash tag (some i)).goto p (.delete tag use i))
  | delete {p tag old use i} (hpc : s.pcs p = .delete tag use i) (htag : s.tag i = some old)
      (hhash : s.hash old = some i) :
      Move s (.next p) ((s.setHash old none).goto p (.install tag use i))
  | install {p tag use i page notMaterialized} (hpc : s.pcs p = .install tag use i)
      (hread : s.readPage tag = some (page, notMaterialized)) :
      Move s (.next p) ((s.install tag i page notMaterialized).goto p (.returned tag use i))
  | publish {p tag idx pblk i} (hpc : s.pcs p = .returned tag (.publish idx pblk) i)
      (hlock : s.CanLock p i) : Move s (.next p) ((s.publish tag i idx pblk).goto p (.size tag i))
  | insideFile {p tag i} (hpc : s.pcs p = .size tag i) :
      Move s (.next p)
        ((s.setWord i { s.word i with notMaterialized := false }).goto p (.mark tag i))
  | extend {p tag i nblocks} (hpc : s.pcs p = .extend tag i nblocks) :
      Move s (.next p) (((s.zeroExtend tag nblocks).setWord i { s.word i with notMaterialized :=
        false }).goto p (.mark tag i))
  | mark {p tag i} (hpc : s.pcs p = .mark tag i) :
      Move s (.next p) ((s.setWord i (s.word i).markDirty).goto p (.unpin i))
  | retry {p tag use i} (hpc : s.pcs p = .retry tag use i) (hlt : 0 < (s.word i).refcount.val) :
      Move s (.next p) ((s.setWord i ((s.word i).sub 1)).goto p (.probe tag use))
  | unpin {p : Fin n} {i : Fin m} (hpc : s.pcs p = .unpin i)
      (hlt : 0 < (s.word i).refcount.val) :
      Move s (.next p) ((s.setWord i ((s.word i).sub 1)).goto p .idle)
  | startIo {p i needed c} (hpc : s.pcs p = .startIo i needed c)
      (hio : (s.word i).ioInProgress = false) (hdirty : (s.word i).dirty = true) :
      Move s (.next p) ((s.setWord i (s.word i).startIo).goto p (.io i c))
  | write {p tag i c} (hpc : s.pcs p = .ioLocked i c) (htag : s.tag i = some tag) :
      Move s (.next p) ((s.writePage tag i).goto p (.ioWritten i c))
  | terminate {p i c} (hpc : s.pcs p = .ioWritten i c) :
      Move s (.next p) ((s.setWord i (s.word i).terminateIo).goto p (c.resume i))
  | scanMark {p i c} (hpc : s.pcs p = .scanMark i c) :
      Move s (.next p) ((s.setWord i { s.word i with checkpointNeeded := true }).goto p (.scan (i +
        1) { c with targets := i :: c.targets }))
  | flushSuper {p pages c rnode rest} (hpc : s.pcs p = .superFlush pages c)
      (htargets : c.targets = rnode :: rest) :
      Move s (.next p) ((s.flushSuper rnode).goto p (.superFlush pages { c with targets := rest }))
  | bumpLogical (rnode : ρ) (fork : ForkNumber) (nblocks : Nat) :
      Move s (.bumpLogical rnode fork nblocks) (s.bumpLogical rnode fork nblocks)
  | superEnsure (j : Fin k) (rnode : ρ) (hj : s.supers j = none)
      (hnone : s.findSuper rnode = none) :
      Move s (.superEnsure j rnode) (s.setSuper j { rnode, dirty := false, stamp := 0 })
  | superUpdate (j : Fin k) (e : SuperEntry ρ) (he : s.supers j = some e) :
      Move s (.superUpdate j)
        { s.setSuper j { e with dirty := true, stamp := s.clock + 1 } with clock := s.clock + 1 }

omit [DecidableEq ρ] in
lemma map_pin_eq_some {f : State n m k ρ → Pc m ρ}
    (h : ((pin s i).map fun t => t.goto p (f t)) = some t) : (s.word i).refcount.val + 1 < 512 ∧
      t = (s.setWord i ((s.word i).add 1)).goto p (f (s.setWord i ((s.word i).add 1))) := by
  obtain ⟨u, hu, rfl⟩ := map_eq_some_iff.mp h
  obtain ⟨hlt, rfl⟩ := guard_eq_some hu
  exact ⟨hlt, rfl⟩

omit [DecidableEq ρ] in
lemma map_unpin_eq_some {pc} (h : ((unpin s i).map fun t => t.goto p pc) = some t) :
    0 < (s.word i).refcount.val ∧ t = (s.setWord i ((s.word i).sub 1)).goto p pc := by
  obtain ⟨u, hu, rfl⟩ := map_eq_some_iff.mp h
  obtain ⟨hlt, rfl⟩ := guard_eq_some hu
  exact ⟨hlt, rfl⟩

lemma Quiet.of_examine {tag use flushed} (hpc : s.pcs p = .examine tag use i flushed) :
    Quiet s p (.next p) (examine s tag use i flushed) := by
  unfold examine
  split_ifs with htag hpins hdirty hflushed
  · exact .already hpc htag
  · exact .busy hpc
  · exact .busy hpc
  · exact .dirtyVictim hpc
  · exact .replace hpc htag (not_not.mp hpins) (Bool.eq_false_iff.mpr hdirty)

lemma Move.of_next (h : next s p = some t) : Move s (.next p) t := by
  unfold next at h
  split at h
  case h_1 => cases h
  case h_2 tag use hpc =>
    split at h
    · cases h
      exact .quiet (.hit hpc ‹_›)
    · cases h
      exact .quiet (.miss hpc)
  case h_3 tag use i hpc =>
    obtain ⟨hlt, rfl⟩ := map_pin_eq_some h
    refine .pinFound hpc hlt ?_
    split
    · exact .inl rfl
    · exact .inr rfl
  case h_4 tag use i hpc =>
    cases h
    exact .raise hpc
  case h_5 tag use i hpc =>
    obtain ⟨hlock, rfl⟩ := guard_eq_some h
    split
    · exact .quiet (.verified hpc hlock ‹_›)
    · exact .quiet (.mismatched hpc)
  case h_6 => cases h
  case h_7 tag use i hpc =>
    cases h
    exact .decrement hpc
  case h_8 tag use i hpc =>
    obtain ⟨hlt, rfl⟩ := map_pin_eq_some h
    exact .pinChosen hpc hlt
  case h_9 tag use i flushed hpc =>
    obtain ⟨hlock, rfl⟩ := guard_eq_some h
    exact .quiet (.lock hpc hlock)
  case h_10 tag use i flushed hpc =>
    cases h
    exact .quiet (.of_examine hpc)
  case h_11 tag use i hpc =>
    split at h
    next j hhash =>
      cases h
      split
      next hj =>
        cases hj
        exact .quiet (.present hpc hhash)
      next => exact .quiet (.taken hpc)
    next hhash =>
      cases h
      exact .insert hpc hhash
  case h_12 tag use i hpc =>
    split at h
    next old htag =>
      split at h
      next hhash =>
        cases h
        exact .delete hpc htag hhash
      next hhash =>
        cases h
        refine .quiet (.unlisted hpc fun old' hold' => ?_)
        cases htag.symm.trans hold'
        exact hhash
    next htag =>
      cases h
      exact .quiet (.unlisted hpc fun old' hold' => absurd (htag.symm.trans hold') nofun)
  case h_13 tag use i hpc =>
    obtain ⟨⟨page, notMaterialized⟩, hread, rfl⟩ := map_eq_some_iff.mp h
    exact .install hpc hread
  case h_14 tag use i hpc =>
    split at h
    · obtain ⟨hlock, rfl⟩ := guard_eq_some h
      exact .quiet (.lookup hpc hlock)
    · obtain ⟨hlock, rfl⟩ := guard_eq_some h
      exact .publish hpc hlock
  case h_15 tag i hpc =>
    split at h
    · obtain ⟨-, h⟩ := ite_none_left_eq_some.mp h
      split at h
      · cases h
        exact .quiet (.behindEnd hpc)
      · cases h
        exact .insideFile hpc
    · cases h
      exact .quiet (.materialized hpc)
  case h_16 tag i nblocks hpc =>
    cases h
    exact .extend hpc
  case h_17 tag i hpc =>
    cases h
    exact .mark hpc
  case h_18 tag use i hpc =>
    obtain ⟨hlt, rfl⟩ := map_unpin_eq_some h
    exact .retry hpc hlt
  case h_19 i hpc =>
    obtain ⟨hlt, rfl⟩ := map_unpin_eq_some h
    exact .unpin hpc hlt
  case h_20 i needed c hpc =>
    obtain ⟨hio, h⟩ := ite_none_left_eq_some.mp h
    split at h
    next hdirty =>
      cases h
      exact .startIo hpc (Bool.eq_false_iff.mpr hio) hdirty.1
    next hnot =>
      cases h
      exact .quiet (.nothingToFlush hpc hnot)
  case h_21 i c hpc =>
    obtain ⟨hlock, rfl⟩ := guard_eq_some h
    exact .quiet (.ioLock hpc hlock)
  case h_22 i c hpc =>
    split at h
    · cases h
      exact .write hpc ‹_›
    · cases h
      exact .quiet (.nothingToWrite hpc ‹_›)
  case h_23 i c hpc =>
    cases h
    exact .terminate hpc
  case h_24 j c hpc =>
    split at h
    · obtain ⟨hlock, rfl⟩ := guard_eq_some h
      exact .survey (.scan hpc hlock)
    · cases h
      exact .survey (.scanned hpc)
  case h_25 i c hpc =>
    cases h
    exact .scanMark hpc
  case h_26 c hpc =>
    obtain ⟨hnil, rfl⟩ := guard_eq_some h
    exact .survey (.supers hpc hnil)
  case h_27 j pages c hpc =>
    split at h
    · cases h
      exact .survey (.superScan hpc)
    · cases h
      exact .survey (.superScanned hpc (le_of_not_gt ‹_›))
  case h_28 pages c hpc =>
    split at h
    next htargets =>
      cases h
      exact .flushSuper hpc htargets
    next hnil =>
      cases h
      split
      next hre => exact .survey (.rescan hpc hnil hre)
      next hre => exact .survey (.finish hpc hnil (Bool.eq_false_iff.mpr hre))
  case h_29 pages supers hpc =>
    cases h
    exact .survey (.return hpc)

lemma Move.of_step {e} (h : machine.step s e = some t) : Move s e t := by
  cases e with
  | next => exact .of_next h
  | call p tag use =>
    simp only [machine, step] at h
    split at h
    next hpc =>
      cases h
      exact .quiet (.call tag use hpc)
    next => cases h
  | flush p i =>
    simp only [machine, step] at h
    split at h
    next hpc =>
      cases h
      exact .quiet (.flush i hpc)
    next => cases h
  | checkpoint p only =>
    simp only [machine, step] at h
    split at h
    next hpc =>
      cases h
      exact .survey (.checkpoint only hpc)
    next => cases h
  | sweepAt p i =>
    simp only [machine, step] at h
    split at h
    next hpc =>
      split_ifs at h
      · cases h
        exact .passOver p i
      · cases h
        exact .quiet (.used hpc)
      · cases h
        exact .quiet (.unused hpc)
    next => cases h
  | giveUp =>
    simp only [machine, step] at h
    split at h
    next hpc =>
      cases h
      exact .quiet (.giveUp hpc)
    next => cases h
  | target =>
    simp only [machine, step] at h
    split at h
    next hpc =>
      obtain ⟨hi, h⟩ := ite_none_right_eq_some.mp h
      split at h
      next =>
        cases h
        exact .survey (.target hpc hi)
      next hnot =>
        cases h
        exact .survey (.targetDone hpc hi hnot)
    next => cases h
  | bumpLogical rnode fork nblocks =>
    cases h
    exact .bumpLogical rnode fork nblocks
  | superEnsure j rnode =>
    obtain ⟨⟨hj, hnone⟩, rfl⟩ := guard_eq_some h
    exact .superEnsure j rnode (isNone_iff_eq_none.mp hj) hnone
  | superUpdate j =>
    simp only [machine, step] at h
    split at h
    next e he =>
      cases h
      exact .superUpdate j e he
    next => cases h

end Umbra.Cache
