import Umbra.Block.Recovery
import Umbra.Block.Baseline

/-!
# Crash safety of one block

Redo from the redo pointer of the last completed checkpoint gives the page after the last record,
if each remap finds its page on the old block and the write-backs go to the block of the mapping;
with the compactor, if a relocation finds the page there too and redo of one overlaps no write-back.
-/

namespace Umbra.Block

open Foundation Function

variable {β : Type}

/-! ### Redo -/

section

variable (base : Page β) (pblk : Nat) (wal : List (Record β)) (start mapDisk : Nat)

/-- No remap has been redone, and the page is where the log had it at the start. -/
structure Untouched (t : Recovery β) : Prop where
  unmoved : ¬ Remapped wal start t.pos
  buffer : t.store.buffer = none
  mapping : t.store.mapping = mapDisk
  disk : t.store.disk (mapAt pblk wal start) = some (.page (pageAt base wal start))

/-- The page is what the log up to the position makes it. -/
structure Restored (t : Recovery β) : Prop where
  mapping : t.store.mapping = mapAt pblk wal t.pos
  read : t.store.read = some (.page (pageAt base wal t.pos))
  clean : (∀ c, t.store.buffer ≠ some ⟨c, true⟩) → t.store.disk t.store.mapping = t.store.read

/-- A relocation of the record at hand has copied the page, if no newer one waits in the buffer. -/
structure Copied (t : Recovery β) (new : Nat) : Prop where
  record : ∃ old, wal[t.pos]? = some (.mapSet old new)
  buffer : ∀ b, t.store.buffer = some b → b.content = .page (pageAt base wal t.pos)
  copy : (∀ c, t.store.buffer ≠ some ⟨c, true⟩) →
    t.store.disk new = some (.page (pageAt base wal t.pos))

end

variable {base : Page β} {pblk : Nat} {wal : List (Record β)} {start mapDisk : Nat}
  {t : Recovery β} {r : Record β}

namespace Restored

lemma of_dirty (hmapping : t.store.mapping = mapAt pblk wal t.pos)
    (hbuffer : t.store.buffer = some ⟨.page (pageAt base wal t.pos), true⟩) :
    Restored base pblk wal t where
  mapping := hmapping
  read := by rw [Store.read, hbuffer]
  clean hclean := absurd hbuffer (hclean _)

/-- The page arrives on the block of the mapping. -/
lemma land (h : Restored base pblk wal t) {c d} (hbuffer : t.store.buffer = some ⟨c, d⟩) :
    Restored base pblk wal { t with
      store := { t.store with
        disk := update t.store.disk t.store.mapping (some c)
        buffer := some ⟨c, false⟩ }
      writing := none } where
  mapping := h.mapping
  read := by simpa only [Store.read, hbuffer] using h.read
  clean _ := update_self ..

lemma evict (h : Restored base pblk wal t) {c} (hbuffer : t.store.buffer = some ⟨c, false⟩) :
    Restored base pblk wal { t with store := { t.store with buffer := none } } where
  mapping := h.mapping
  read := (h.clean (by rw [hbuffer]; nofun)).trans h.read
  clean _ := rfl

end Restored

lemma redoPlain_of_lt {s lsn p} (hread : s.read = some (.page p)) (hlt : p.lsn < lsn)
    (delta : β → β) :
    redoPlain s lsn delta = some { s with buffer := some ⟨.page ⟨lsn, delta p.body⟩, true⟩ } := by
  obtain ⟨d, hfetch⟩ := Store.fetch_of_read hread
  rw [redoPlain, readForRedo, hfetch]
  simp only [Option.map_some, redoAction, if_neg (not_le.mpr hlt)]
  rfl

lemma copyBlock_disk {s : Store β} {old : Nat} {c : Content β} (hdisk : s.disk old = some c)
    (new : Nat) : (copyBlock s old new).disk new = some c := by
  simp only [copyBlock, hdisk]
  exact update_self ..

lemma not_remapped_succ {i j} (h : ¬ Remapped wal i j) (hr : wal[j]? = some r)
    (hmap : r.isMapping = false) : ¬ Remapped wal i (j + 1) := by
  rintro ⟨l, r', hil, hlj, hr', hmap'⟩
  rcases lt_or_eq_of_le (Nat.le_of_lt_succ hlj) with hlt | rfl
  · exact h ⟨l, r', hil, hlt, hr', hmap'⟩
  · cases hr.symm.trans hr'
    exact absurd (hmap.symm.trans hmap') nofun

/-- No write-back starts, lands or is in progress while a relocation is redone. -/
def WritesOutside (t : Recovery β) : RecoveryEvent → Prop
  | .writeStart | .writeLand => t.switching = none
  | .switch => t.writing = none
  | .next | .evict => True

namespace Copied

variable {new : Nat} (h : Copied base wal t new)
include h

lemma evict {c} (hbuffer : t.store.buffer = some ⟨c, false⟩) :
    Copied base wal { t with store := { t.store with buffer := none } } new :=
  ⟨h.record, nofun, fun _ => h.copy (by rw [hbuffer]; nofun)⟩

lemma switch : Restored base pblk wal
    { t with store := switchMapping t.store new, pos := t.pos + 1, switching := none } := by
  obtain ⟨old, hr⟩ := h.record
  have hread : (switchMapping t.store new).read = some (.page (pageAt base wal t.pos)) := by
    cases hbuffer : t.store.buffer with
    | none =>
      simp only [Store.read, switchMapping, hbuffer]
      exact h.copy (by simp [hbuffer])
    | some b =>
      simp only [Store.read, switchMapping, hbuffer]
      exact congrArg some (h.buffer b hbuffer)
  refine ⟨(mapAt_succ hr).symm, ?_, fun hclean => (h.copy hclean).trans hread.symm⟩
  rw [pageAt_succ hr]
  exact hread

end Copied

section Next

variable (hbase : base.lsn = 0) (hchained : Chained pblk wal) (hr : wal[t.pos]? = some r)
include hbase hchained hr

lemma Restored.next (h : Restored base pblk wal t) (ht : t.switching = none) :
    ∃ u, redoRecord t r = some u ∧ (u.switching = none ∧ u.pos = t.pos + 1 ∧
      Restored base pblk wal u ∨
        ∃ new, u.switching = some new ∧ u.pos = t.pos ∧ Copied base wal u new) := by
  have hmap : mapAt pblk wal (t.pos + 1) = _ := mapAt_succ hr
  have hpage : pageAt base wal (t.pos + 1) = _ := pageAt_succ hr
  have hlt : (pageAt base wal t.pos).lsn < t.pos + 1 := Nat.lt_succ_of_le (lsn_pageAt_le hbase)
  have hfrom := (hchained t.pos r hr).1
  cases r with
  | other => exact ⟨_, rfl, .inl ⟨ht, rfl, h.mapping.trans hmap.symm, hpage ▸ h.read, h.clean⟩⟩
  | plain delta =>
    refine ⟨_, congrArg (Option.map _) (redoPlain_of_lt h.read hlt delta),
      .inl ⟨ht, rfl, .of_dirty (h.mapping.trans hmap.symm) ?_⟩⟩
    rw [hpage]
    rfl
  | remap r delta =>
    have hold : r.oldPblkno = t.store.mapping := hfrom.trans h.mapping.symm
    have hbaseline : t.store.baseline r = some (.page (pageAt base wal t.pos)) := by
      rw [Store.baseline, hold]
      exact h.read
    obtain ⟨s, hs, hmapping, hbuffer⟩ := redoRemap_of_lt hbaseline hlt delta
    refine ⟨_, congrArg (Option.map _) hs,
      .inl ⟨ht, rfl, .of_dirty (hmapping.trans hmap.symm) ?_⟩⟩
    rw [hpage]
    exact hbuffer
  | mapSet old new =>
    have hold : old = t.store.mapping := hfrom.trans h.mapping.symm
    refine ⟨_, rfl, .inr ⟨new, rfl, rfl, ⟨old, hr⟩, fun b hb => ?_, fun hclean => ?_⟩⟩
    · have hread := h.read
      rw [Store.read, show t.store.buffer = some b from hb] at hread
      exact Option.some.inj hread
    · refine copyBlock_disk ?_ new
      rw [hold, h.clean hclean]
      exact h.read

lemma Untouched.next (h : Untouched base pblk wal start mapDisk t) (ht : t.switching = none)
    (hdisc : Disciplined base wal start) (hstart : start ≤ t.pos) :
    ∃ u, redoRecord t r = some u ∧ (u.switching = none ∧ u.pos = t.pos + 1 ∧
      (Untouched base pblk wal start mapDisk u ∨ Restored base pblk wal u) ∨
        ∃ new, u.switching = some new ∧ u.pos = t.pos ∧ Copied base wal u new) := by
  have hmap : mapAt pblk wal (t.pos + 1) = _ := mapAt_succ hr
  have hpage : pageAt base wal (t.pos + 1) = _ := pageAt_succ hr
  have hlt : (pageAt base wal t.pos).lsn < t.pos + 1 := Nat.lt_succ_of_le (lsn_pageAt_le hbase)
  have hfrom := (hchained t.pos r hr).1
  have hdisk : t.store.disk (mapAt pblk wal t.pos) = some (.page (pageAt base wal t.pos)) := by
    rw [mapAt_eq_of_not_remapped hstart h.unmoved,
      pageAt_eq_of_not_remapped hbase hdisc hstart h.unmoved]
    exact h.disk
  cases r with
  | other =>
    exact ⟨_, rfl, .inl ⟨ht, rfl, .inl { h with unmoved := not_remapped_succ h.unmoved hr rfl }⟩⟩
  | plain => exact absurd (hdisc.remapped hbase hstart hr) h.unmoved
  | remap r delta =>
    have hold : r.oldPblkno = mapAt pblk wal t.pos := hfrom
    have hbaseline : t.store.baseline r = some (.page (pageAt base wal t.pos)) := by
      rw [Store.baseline, Store.read, h.buffer, hold]
      exact hdisk
    obtain ⟨s, hs, hmapping, hbuffer⟩ := redoRemap_of_lt hbaseline hlt delta
    refine ⟨_, congrArg (Option.map _) hs,
      .inl ⟨ht, rfl, .inr (.of_dirty (hmapping.trans hmap.symm) ?_)⟩⟩
    rw [hpage]
    exact hbuffer
  | mapSet old new =>
    have hold : old = mapAt pblk wal t.pos := hfrom
    refine ⟨_, rfl, .inr ⟨new, rfl, rfl, ⟨old, hr⟩, fun b hb => ?_, fun _ => ?_⟩⟩
    · cases h.buffer.symm.trans hb
    · exact copyBlock_disk (hold ▸ hdisk) new

end Next

lemma redoRecord_writing {u} (h : redoRecord t r = some u) : u.writing = t.writing := by
  cases r with
  | other | mapSet => cases h; rfl
  | plain | remap =>
    obtain ⟨_, -, rfl⟩ := Option.map_eq_some_iff.mp h
    rfl

lemma redoRecord_unlocked {u} (h : redoRecord t r = some u) (hlocks : r.locks = false) :
    u.store.mapping = t.store.mapping ∧ u.store.buffer = t.store.buffer := by
  cases r with
  | other | mapSet => cases h; exact ⟨rfl, rfl⟩
  | plain | remap => cases hlocks

/-- The invariant of a recovery that starts at `start`. -/
structure Replaying (base : Page β) (pblk : Nat) (wal : List (Record β)) (start mapDisk upto : Nat)
    (t : Recovery β) : Prop where
  start_le : start ≤ t.pos
  le_upto : t.pos ≤ upto
  writing : ∀ p, t.writing = some p →
    p = t.store.mapping ∧ ∃ c, t.store.buffer = some ⟨c, true⟩
  state : t.switching = none ∧
      (Untouched base pblk wal start mapDisk t ∨ Restored base pblk wal t) ∨
    ∃ new, t.switching = some new ∧ t.pos < upto ∧ Copied base wal t new

/-- The step that the startup process takes next, or waits for. -/
def Recovery.proceed (t : Recovery β) : RecoveryEvent :=
  if t.writing ≠ none then .writeLand else if t.switching = none then .next else .switch

namespace Replaying

variable {upto : Nat} {u : Recovery β}

lemma redo (h : Replaying base pblk wal start mapDisk upto t) (hbase : base.lsn = 0)
    (hchained : Chained pblk wal) (hdisc : Disciplined base wal start) (ht : t.switching = none)
    (hr : wal[t.pos]? = some r) :
    ∃ u, redoRecord t r = some u ∧ (u.switching = none ∧ u.pos = t.pos + 1 ∧
      (Untouched base pblk wal start mapDisk u ∨ Restored base pblk wal u) ∨
        ∃ new, u.switching = some new ∧ u.pos = t.pos ∧ Copied base wal u new) := by
  rcases h.state with ⟨-, huntouched | hrestored⟩ | ⟨new, hnew, -⟩
  · exact huntouched.next hbase hchained hr ht hdisc h.start_le
  · obtain ⟨u, hu, hstate⟩ := hrestored.next hbase hchained hr ht
    exact ⟨u, hu, hstate.imp_left fun ⟨hnone, hpos, hrestored⟩ => ⟨hnone, hpos, .inr hrestored⟩⟩
  · cases ht.symm.trans hnew

lemma next (h : Replaying base pblk wal start mapDisk upto t) (hbase : base.lsn = 0)
    (hchained : Chained pblk wal) (hdisc : Disciplined base wal start)
    (hstep : (recovery wal upto).step t .next = some u) :
    Replaying base pblk wal start mapDisk upto u := by
  obtain ⟨r, hr, hu⟩ := Option.bind_eq_some_iff.mp hstep
  obtain ⟨⟨ht, hlt, hlocks⟩, hu⟩ := Option.ite_none_right_eq_some.mp hu
  obtain ⟨u', hu', hstate⟩ := h.redo hbase hchained hdisc ht hr
  cases hu.symm.trans hu'
  have hwriting : ∀ p, u.writing = some p →
      p = u.store.mapping ∧ ∃ c, u.store.buffer = some ⟨c, true⟩ := by
    intro p hp
    rw [redoRecord_writing hu] at hp
    obtain ⟨hmapping, hbuffer⟩ := redoRecord_unlocked hu
      (Bool.eq_false_iff.mpr fun hl => by cases (hlocks hl).symm.trans hp)
    rw [hmapping, hbuffer]
    exact h.writing p hp
  rcases hstate with ⟨hnone, hpos, hstate⟩ | ⟨new, hnew, hpos, hcopied⟩
  · exact ⟨hpos ▸ h.start_le.trans (Nat.le_succ _), hpos ▸ hlt, hwriting, .inl ⟨hnone, hstate⟩⟩
  · exact ⟨hpos ▸ h.start_le, hpos ▸ h.le_upto, hwriting, .inr ⟨new, hnew, hpos ▸ hlt, hcopied⟩⟩

lemma writeStart (h : Replaying base pblk wal start mapDisk upto t)
    (hstep : (recovery wal upto).step t .writeStart = some u) :
    Replaying base pblk wal start mapDisk upto u := by
  dsimp only [recovery] at hstep
  split at hstep
  next c hbuffer hw =>
    cases hstep
    refine ⟨h.start_le, h.le_upto, ?_, ?_⟩
    · rintro p ⟨⟩
      exact ⟨rfl, c, hbuffer⟩
    · rcases h.state with ⟨ht, huntouched | hrestored⟩ | ⟨new, hnew, hlt, hcopied⟩
      · exact .inl ⟨ht, .inl { huntouched with }⟩
      · exact .inl ⟨ht, .inr { hrestored with }⟩
      · exact .inr ⟨new, hnew, hlt, { hcopied with }⟩
  next => cases hstep

lemma writeLand (h : Replaying base pblk wal start mapDisk upto t) (ht : t.switching = none)
    (hstep : (recovery wal upto).step t .writeLand = some u) :
    Replaying base pblk wal start mapDisk upto u := by
  dsimp only [recovery] at hstep
  split at hstep
  next b p hbuffer hw =>
    cases hstep
    obtain ⟨rfl, -⟩ := h.writing p hw
    refine ⟨h.start_le, h.le_upto, nofun, .inl ⟨ht, .inr ?_⟩⟩
    rcases h.state with ⟨-, huntouched | hrestored⟩ | ⟨new, hnew, -⟩
    · cases hbuffer.symm.trans huntouched.buffer
    · exact hrestored.land hbuffer
    · cases ht.symm.trans hnew
  next => cases hstep

lemma evict (h : Replaying base pblk wal start mapDisk upto t)
    (hstep : (recovery wal upto).step t .evict = some u) :
    Replaying base pblk wal start mapDisk upto u := by
  dsimp only [recovery] at hstep
  split at hstep
  next c hbuffer hw =>
    cases hstep
    refine ⟨h.start_le, h.le_upto, fun p hp => absurd (hw.symm.trans hp) nofun, ?_⟩
    rcases h.state with ⟨ht, huntouched | hrestored⟩ | ⟨new, hnew, hlt, hcopied⟩
    · cases hbuffer.symm.trans huntouched.buffer
    · exact .inl ⟨ht, .inr (hrestored.evict hbuffer)⟩
    · exact .inr ⟨new, hnew, hlt, hcopied.evict hbuffer⟩
  next => cases hstep

lemma switch (h : Replaying base pblk wal start mapDisk upto t) (hw : t.writing = none)
    (hstep : (recovery wal upto).step t .switch = some u) :
    Replaying base pblk wal start mapDisk upto u := by
  obtain ⟨new, hnew, rfl⟩ := Option.map_eq_some_iff.mp hstep
  rcases h.state with ⟨hnone, -⟩ | ⟨new', hnew', hlt, hcopied⟩
  · cases hnone.symm.trans hnew
  · cases hnew.symm.trans hnew'
    exact ⟨h.start_le.trans (Nat.le_succ _), hlt, fun p hp => absurd (hw.symm.trans hp) nofun,
      .inl ⟨rfl, .inr hcopied.switch⟩⟩

/-- Where the log has no relocation, none is under redo. -/
lemma not_switching (h : Replaying base pblk wal start mapDisk upto t)
    (hwal : ∀ old new, Record.mapSet old new ∉ wal) : t.switching = none := by
  rcases h.state with ⟨hnone, -⟩ | ⟨new, -, -, hcopied⟩
  · exact hnone
  · obtain ⟨old, hr⟩ := hcopied.record
    exact absurd (List.mem_of_getElem? hr) (hwal old new)

lemma step (h : Replaying base pblk wal start mapDisk upto t) (hbase : base.lsn = 0)
    (hchained : Chained pblk wal) (hdisc : Disciplined base wal start) {e}
    (hok : WritesOutside t e ∨ ∀ old new, Record.mapSet old new ∉ wal)
    (hstep : (recovery wal upto).step t e = some u) :
    Replaying base pblk wal start mapDisk upto u := by
  cases e with
  | next => exact h.next hbase hchained hdisc hstep
  | switch =>
    refine h.switch (hok.elim id fun hwal => ?_) hstep
    obtain ⟨new, hnew, -⟩ := Option.map_eq_some_iff.mp hstep
    cases (h.not_switching hwal).symm.trans hnew
  | writeStart => exact h.writeStart hstep
  | writeLand => exact h.writeLand (hok.elim id h.not_switching) hstep
  | evict => exact h.evict hstep

lemma proceeds (h : Replaying base pblk wal start mapDisk upto t) (hbase : base.lsn = 0)
    (hchained : Chained pblk wal) (hdisc : Disciplined base wal start) (hlen : upto ≤ wal.length)
    (hlt : t.pos < upto) : ((recovery wal upto).step t t.proceed).isSome := by
  cases hw : t.writing with
  | some p =>
    obtain ⟨-, c, hbuffer⟩ := h.writing p hw
    simp [Recovery.proceed, recovery, hw, hbuffer]
  | none =>
    cases ht : t.switching with
    | some new => simp [Recovery.proceed, recovery, hw, ht]
    | none =>
      have hr : wal[t.pos]? = some wal[t.pos] := List.getElem?_eq_getElem (lt_of_lt_of_le hlt hlen)
      obtain ⟨u, hu, -⟩ := h.redo hbase hchained hdisc ht hr
      simp [Recovery.proceed, recovery, hw, ht, hr, hlt, hu]

end Replaying

/-- Whatever a crash leaves, redo of the durable log, or of more, does not fail and ends with the
page of the log, if the write-backs during recovery meet `ok`. -/
def State.RecoversIf (ok : Recovery β → RecoveryEvent → Prop) (base : Page β) (s : State β) :
    Prop :=
  ∀ upto torn nextFree t, s.durable ≤ upto → upto ≤ s.wal.length →
    (recovery s.wal upto).Reaches ok (s.crash torn nextFree) t →
    (t.pos < upto → ((recovery s.wal upto).step t t.proceed).isSome) ∧
      (t.pos = upto → t.store.read = some (.page (pageAt base s.wal upto)))

def State.Recovers (base : Page β) (s : State β) : Prop := s.RecoversIf (fun _ _ => True) base

/-! ### Runs -/

/-- The invariant of the running server. -/
structure Sound (base : Page β) (pblk : Nat) (s : State β) : Prop where
  charted : Charted pblk s
  cached : Cached base s
  paced : Paced base pblk s
  based : Based base pblk s

namespace Sound

variable {s : State β}

lemma init (body : β) (pblk spare : Nat) (other : Nat → Option (Content β)) :
    Sound ⟨0, body⟩ pblk (init body pblk spare other) :=
  ⟨.init .., .init .., .init .., .init ..⟩

variable (h : Sound base pblk s)
include h

lemma step (hbase : base.lsn = 0) {compacting e t} (hremaps : RemapsStored s e)
    (hunused : SavedUnused s e) (hrelocates : RelocatesStored s e) (hfresh : LookupFresh s e)
    (hstep : (machine compacting).step s e = some t) : Sound base pblk t where
  charted := h.charted.step hfresh hstep
  cached := h.cached.step h.charted hunused hstep
  paced := h.paced.step hbase h.charted h.cached hstep
  based := h.based.step hbase h.charted h.cached h.paced hfresh hremaps hrelocates hstep

lemma crash (torn nextFree) {upto} (hdurable : s.durable ≤ upto) :
    Replaying base pblk s.wal s.completed s.mapDisk upto (s.crash torn nextFree) := by
  have hdisk : (s.crash torn nextFree).store.disk (mapAt pblk s.wal s.completed) =
      s.disk (mapAt pblk s.wal s.completed) := by
    cases hflying : s.flying with
    | none => simp only [State.crash, hflying]
    | some =>
      simp only [State.crash, hflying]
      refine update_of_ne (fun heq => h.based.kept.2 ?_) ..
      rw [hflying, heq]
  refine ⟨le_rfl, h.paced.completed_le_durable.trans hdurable, nofun,
    .inl ⟨rfl, .inl ⟨?_, rfl, rfl, ?_⟩⟩⟩
  · rintro ⟨l, r, hle, hlt, -⟩
    exact absurd hle (not_le.mpr hlt)
  · exact hdisk.trans h.based.kept.1

lemma recovers (hbase : base.lsn = 0) {ok : Recovery β → RecoveryEvent → Prop}
    (hok : ∀ t e, ok t e → WritesOutside t e ∨ ∀ old new, Record.mapSet old new ∉ s.wal) :
    s.RecoversIf ok base := by
  intro upto torn nextFree t hdurable hlen ht
  have hchained := h.charted.chained
  have hdisc := h.paced.completed_disciplined
  have hreplaying : Replaying base pblk s.wal s.completed s.mapDisk upto t :=
    ht.invariant (h.crash torn nextFree hdurable) fun hu hoku hstep =>
      hu.step hbase hchained hdisc (hok _ _ hoku) hstep
  refine ⟨hreplaying.proceeds hbase hchained hdisc hlen, ?_⟩
  rintro rfl
  rcases hreplaying.state with ⟨-, huntouched | hrestored⟩ | ⟨-, -, hlt, -⟩
  · -- no record of the block: the MAP on disk is that of the redo pointer
    have hmapping : t.store.mapping = mapAt pblk s.wal s.completed := by
      refine huntouched.mapping.trans (h.paced.map.resolve_right fun hr => ?_)
      exact huntouched.unmoved (hr.mono le_rfl hdurable)
    rw [Store.read, huntouched.buffer, hmapping, pageAt_eq_of_not_remapped hbase hdisc
      hreplaying.start_le huntouched.unmoved]
    exact huntouched.disk
  · exact hrestored.read
  · exact absurd hlt (lt_irrefl _)

end Sound

/-- No relocation has been logged or begun, and no lookup is stale. -/
structure Alone (s : State β) : Prop where
  wal : ∀ old new, Record.mapSet old new ∉ s.wal
  compactor : s.compactor = .idle
  lookup : ∀ delta old, s.update = .remapping delta old → old = s.mapping

namespace Alone

variable {s t : State β} {e : Event β}

lemma lookupFresh (h : Alone s) : LookupFresh s e := by
  cases e with
  | log =>
    cases hu : s.update with
    | remapping delta old =>
      simp only [LookupFresh, hu]
      exact h.lookup delta old hu
    | none | begun => simp only [LookupFresh, hu]
  | _ => trivial

lemma relocatesStored (h : Alone s) : RelocatesStored s e := by
  cases e with
  | relocate => simp only [RelocatesStored, h.compactor]
  | _ => trivial

lemma step (h : Alone s) (hstep : (machine false).step s e = some t) : Alone t := by
  cases Move.of_step hstep with
  | assemble =>
    refine ⟨h.wal, h.compactor, fun delta old hu' => ?_⟩
    cases hu'
    rfl
  | claim old hcompacting => cases hcompacting
  | copy hc | relocate hc => cases h.compactor.symm.trans hc
  | begin => exact ⟨h.wal, h.compactor, fun _ _ hu => by cases hu⟩
  | logPlain | logRemap =>
    exact ⟨fun old new => by simpa [State.logPlain, State.logRemap] using h.wal old new,
      h.compactor, fun _ _ hu => by cases hu⟩
  | other => exact ⟨fun old new => by simpa using h.wal old new, h.compactor, h.lookup⟩
  | flushWal | writeMap | writeStart | flySaved | flyActive | landSavedVictim | landSaved
  | landActive | evict | load | publish | flushMap | mark | complete =>
    exact ⟨h.wal, h.compactor, h.lookup⟩
  | giveUp => exact ⟨h.wal, rfl, h.lookup⟩

end Alone

/-- Crash safety of a remap without image, if every remap finds its page on the old block and
every write-back goes to the block of the mapping. -/
theorem recovers_of_reaches {body : β} {pblk spare : Nat} {other : Nat → Option (Content β)}
    {s : State β} (h : (machine false).Reaches (fun s e => RemapsStored s e ∧ SavedUnused s e)
      (init body pblk spare other) s) : s.Recovers ⟨0, body⟩ := by
  have hinv : Sound ⟨0, body⟩ pblk s ∧ Alone s := by
    refine h.invariant (I := fun s => Sound ⟨0, body⟩ pblk s ∧ Alone s) ?_ ?_
    · exact ⟨.init .., nofun, rfl, nofun⟩
    · intro t e u ⟨hsound, halone⟩ ⟨hremaps, hunused⟩ hstep
      exact ⟨hsound.step rfl hremaps hunused halone.relocatesStored halone.lookupFresh hstep,
        halone.step hstep⟩
  exact hinv.1.recovers rfl fun _ _ _ => .inr hinv.2.wal

def emptyPage : State (List Nat) := init [] 0 0 fun _ => some .zero

def updateFirst (n : Nat) : List (Event (List Nat)) := [.begin (· ++ [n]), .assemble, .log]

def writeBack : List (Event (List Nat)) := [.writeStart false, .writeFly, .writeLand]

theorem recovers_of_reaches_updated :
    let M := (machine false).restrict fun s e => RemapsStored s e ∧ SavedUnused s e
    let s := M.after emptyPage ([.load] ++ updateFirst 1 ++ writeBack ++ [.publish] ++
      updateFirst 2 ++ [.flushMap, .mark] ++ writeBack ++ [.complete])
    s.completed = 1 ∧ pageAt ⟨0, []⟩ s.wal 2 = ⟨2, [1, 2]⟩ ∧ s.Recovers ⟨0, []⟩ :=
  ⟨by rfl, by rfl, recovers_of_reaches (System.Reaches.of_isSome (by decide))⟩

/-- The checkpoint does not write the old block of a dirty page, and redo finds zeros there. -/
theorem remapped_dirty_page_lost :
    let es := [.load] ++ updateFirst 1 ++ [.publish] ++ updateFirst 2 ++ [.flushMap, .mark] ++
      writeBack ++ [.complete]
    ((machine false).run emptyPage es).isSome ∧
      let s := (machine false).after emptyPage es
      s.durable = 2 ∧ pageAt ⟨0, []⟩ s.wal 2 = ⟨2, [1, 2]⟩ ∧
        ∃ t, (recovery s.wal 2).run (s.crash none 0) [.next] = some t ∧ t.pos = 2 ∧
          t.store.read = some .zero :=
  ⟨by decide, by rfl, by rfl, _, rfl, by rfl, by rfl⟩

/-- With the compactor too, if every relocation of a page that is not newer than the redo pointer
finds it on the old block, no update logs an old block that the compactor has left, and no
write-back of recovery overlaps redo of a relocation. -/
theorem recovers_of_reaches_compacting {body : β} {pblk spare : Nat}
    {other : Nat → Option (Content β)} {s : State β} (h : (machine true).Reaches
      (fun s e => RemapsStored s e ∧ SavedUnused s e ∧ RelocatesStored s e ∧ LookupFresh s e)
      (init body pblk spare other) s) : s.RecoversIf WritesOutside ⟨0, body⟩ := by
  have hsound : Sound ⟨0, body⟩ pblk s := by
    refine h.invariant (I := Sound ⟨0, body⟩ pblk) (.init ..) ?_
    intro t e u hsound ⟨hremaps, hunused, hrelocates, hfresh⟩ hstep
    exact hsound.step rfl hremaps hunused hrelocates hfresh hstep
  exact hsound.recovers rfl fun _ _ => .inl

theorem recovers_of_reaches_relocated :
    let M := (machine true).restrict fun s e =>
      RemapsStored s e ∧ SavedUnused s e ∧ RelocatesStored s e ∧ LookupFresh s e
    let s := M.after emptyPage ([.load] ++ updateFirst 1 ++ writeBack ++
      [.publish, .claim 1, .copy, .relocate, .flushMap, .mark, .complete] ++ updateFirst 2)
    s.completed = 1 ∧ s.mapping = 3 ∧ pageAt ⟨0, []⟩ s.wal 3 = ⟨3, [1, 2]⟩ ∧
      s.RecoversIf WritesOutside ⟨0, []⟩ :=
  ⟨by rfl, by rfl, by rfl,
    recovers_of_reaches_compacting (System.Reaches.of_isSome (by decide))⟩

/-- The checkpoint writes the page to its new block, and redo of the relocation copies the old block
over it. And a write-back between the copy and the switch of redo puts the page on the block that is
left. -/
theorem relocated_update_lost :
    let es := [.load] ++ updateFirst 1 ++ writeBack ++
      [.begin (· ++ [2]), .log, .publish, .claim 1, .copy, .relocate, .flushMap, .mark] ++
      writeBack ++ [.complete]
    let M := (machine true).restrict fun s e =>
      RemapsStored s e ∧ SavedUnused s e ∧ RelocatesStored s e ∧ LookupFresh s e
    let early := M.after emptyPage ([.load] ++ updateFirst 1 ++ [.claim 1, .copy, .relocate])
    (((machine true).run emptyPage es).isSome ∧
      let s := (machine true).after emptyPage es
      s.completed = 2 ∧ s.durable = 3 ∧ pageAt ⟨0, []⟩ s.wal 3 = ⟨2, [1, 2]⟩ ∧
        ∃ t, (recovery s.wal 3).run (s.crash none 0) [.next, .switch] = some t ∧ t.pos = 3 ∧
          t.store.read = some (.page ⟨1, [1]⟩)) ∧
      pageAt ⟨0, []⟩ early.wal 2 = ⟨1, [1]⟩ ∧
        ∃ t, (recovery early.wal 2).run (early.crash none 0)
            [.next, .next, .writeStart, .writeLand, .switch, .evict] = some t ∧ t.pos = 2 ∧
          t.store.read = some .zero :=
  ⟨⟨by decide, by rfl, by rfl, by rfl, _, rfl, by rfl, by rfl⟩, by rfl, _, rfl, by rfl, by rfl⟩

end Umbra.Block
