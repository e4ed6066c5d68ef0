import Umbra.Block.Mapping

/-!
# The page that redo starts from

Redo of a remap goes back to the old physical block. So the page as of the redo pointer has to be on
disk where the mapping led at that time, and nothing may be written there any more.
-/

namespace Umbra.Block

open Foundation Function List

variable {β : Type} {delta : β → β} {old new : Nat}

def RemapsStored (s : State β) : Event β → Prop
  | .log =>
    match s.update with
    | .remapping _ old => ∀ b ∈ s.buffer, s.disk old = some (.page b.page)
    | _ => True
  | _ => True

def RelocatesStored (s : State β) : Event β → Prop
  | .relocate =>
    match s.compactor with
    | .copied old _ => ∀ b ∈ s.buffer, b.page.lsn ≤ s.redo → s.disk old = some (.page b.page)
    | _ => True
  | _ => True

instance [DecidableEq β] (s : State β) (e : Event β) : Decidable (RemapsStored s e) := by
  unfold RemapsStored
  induction e using Event.casesOn
  case log => induction s.update using Update.casesOn <;> infer_instance
  all_goals infer_instance

instance [DecidableEq β] (s : State β) (e : Event β) : Decidable (RelocatesStored s e) := by
  unfold RelocatesStored
  induction e using Event.casesOn
  case relocate => induction s.compactor using Compactor.casesOn <;> infer_instance
  all_goals infer_instance

lemma RemapsStored.disk {s} (h : RemapsStored s .log) {b} (hu : s.update = .remapping delta old)
    (hb : s.buffer = some b) : s.disk old = some (.page b.page) := by
  simp only [RemapsStored, hu] at h
  exact h b hb

lemma RelocatesStored.disk {s : State β} (h : RelocatesStored s .relocate) {b : SharedBuffer β}
    (hc : s.compactor = .copied old new) (hb : s.buffer = some b) (hle : b.page.lsn ≤ s.redo) :
    s.disk old = some (.page b.page) := by
  simp only [RelocatesStored, hc] at h
  exact h b hb hle

/-! ### Redo pointers -/

def MapKept (pblk : Nat) (s : State β) (i : Nat) : Prop :=
  s.mapDisk = mapAt pblk s.wal i ∨ Remapped s.wal i s.durable

/-- Redo pointers and the durable log are in order, and the MAP file has the mapping they need. -/
structure Paced (base : Page β) (pblk : Nat) (s : State β) : Prop where
  completed_le : s.completed ≤ s.redo
  redo_le : s.redo ≤ s.wal.length
  completed_le_durable : s.completed ≤ s.durable
  durable_le : s.durable ≤ s.wal.length
  redo_disciplined : Disciplined base s.wal s.redo
  completed_disciplined : Disciplined base s.wal s.completed
  map : MapKept pblk s s.completed
  nextMap : s.phase = .mapFlushed ∨ s.phase = .syncing → MapKept pblk s s.redo

section

variable {base : Page β} {pblk : Nat} {s t : State β} {i : Nat} {r : Record β}

lemma MapKept.writeMap (h : Charted pblk s) (hi : i ≤ s.wal.length) :
    MapKept pblk s.writeMap i := by
  rcases lt_or_ge i s.mapLsn with hlt | hge
  · exact .inr ((h.moved i hlt).mono le_rfl (le_max_right ..))
  · refine .inl (h.mapAt_eq_mapping hi fun hr => h.settled ?_).symm
    exact hr.mono hge le_rfl

lemma MapKept.mono (h : MapKept pblk s i) (hi : i ≤ s.wal.length)
    (hwal : ∃ more, t.wal = s.wal ++ more) (hdisk : t.mapDisk = s.mapDisk)
    (hdurable : s.durable ≤ t.durable) : MapKept pblk t i := by
  obtain ⟨more, hwal⟩ := hwal
  rcases h with h | h
  · left
    rw [hdisk, hwal, mapAt_append _ hi]
    exact h
  · right
    rw [hwal]
    exact (h.append more).mono le_rfl hdurable

namespace Paced

lemma init (body : β) (pblk spare : Nat) (other : Nat → Option (Content β)) :
    Paced ⟨0, body⟩ pblk (init body pblk spare other) where
  completed_le := le_rfl
  redo_le := le_rfl
  completed_le_durable := le_rfl
  durable_le := le_rfl
  redo_disciplined := .length
  completed_disciplined := .length
  map := .inl rfl
  nextMap hp := by rcases hp with hp | hp <;> cases hp

section

variable (h : Paced base pblk s)
include h

lemma completed_le_length : s.completed ≤ s.wal.length :=
  h.completed_le.trans h.redo_le

lemma flush {durable : Nat} (hge : s.durable ≤ durable) (hle : durable ≤ s.wal.length) (writing) :
    Paced base pblk { s with durable, writing } where
  __ := h
  completed_le_durable := h.completed_le_durable.trans hge
  durable_le := hle
  map := h.map.mono h.completed_le_length ⟨[], (append_nil _).symm⟩ rfl hge
  nextMap hp := (h.nextMap hp).mono h.redo_le ⟨[], (append_nil _).symm⟩ rfl hge

lemma writeMap (hchart : Charted pblk s) (phase) : Paced base pblk { s.writeMap with phase } where
  __ := h
  completed_le_durable := h.completed_le_durable.trans (le_max_left ..)
  durable_le := Nat.max_le.mpr ⟨h.durable_le, hchart.mapLsn_le⟩
  map := MapKept.writeMap hchart h.completed_le_length
  nextMap _ := MapKept.writeMap hchart h.redo_le

lemma record (hwal : t.wal = s.wal ++ [r])
    (hr : ∀ delta, r = .plain delta → s.redo < (pageAt base s.wal s.wal.length).lsn)
    (hdurable : t.durable = s.durable) (hredo : t.redo = s.redo)
    (hcompleted : t.completed = s.completed) (hphase : t.phase = s.phase)
    (hdisk : t.mapDisk = s.mapDisk) : Paced base pblk t where
  completed_le := by
    rw [hcompleted, hredo]
    exact h.completed_le
  redo_le := by
    rw [hredo, hwal, length_append]
    exact h.redo_le.trans (Nat.le_add_right ..)
  completed_le_durable := by
    rw [hcompleted, hdurable]
    exact h.completed_le_durable
  durable_le := by
    rw [hdurable, hwal, length_append]
    exact h.durable_le.trans (Nat.le_add_right ..)
  redo_disciplined := by
    rw [hwal, hredo]
    exact h.redo_disciplined.concat hr
  completed_disciplined := by
    rw [hwal, hcompleted]
    refine h.completed_disciplined.concat fun delta heq => ?_
    exact lt_of_le_of_lt h.completed_le (hr delta heq)
  map := by
    rw [hcompleted]
    exact h.map.mono h.completed_le_length ⟨_, hwal⟩ hdisk hdurable.ge
  nextMap hp := by
    rw [hphase] at hp
    rw [hredo]
    exact (h.nextMap hp).mono h.redo_le ⟨_, hwal⟩ hdisk hdurable.ge

end

variable {compacting : Bool} {e : Event β}

lemma step (h : Paced base pblk s) (hbase : base.lsn = 0) (hchart : Charted pblk s)
    (hcached : Cached base s) (hstep : (machine compacting).step s e = some t) :
    Paced base pblk t := by
  cases Move.of_step hstep with
  | logPlain hb hu hlt =>
    refine h.record rfl (fun _ _ => ?_) rfl rfl rfl rfl rfl
    rw [← hcached.page _ hb]
    exact hlt
  | flushWal hle hlen => exact h.flush hle hlen s.writing
  | writeStart victim hb =>
    have hlsn : (pageAt base s.wal s.wal.length).lsn ≤ s.wal.length := lsn_pageAt_le hbase
    rw [← hcached.page _ hb] at hlsn
    exact h.flush (le_max_left ..) (Nat.max_le.mpr ⟨h.durable_le, hlsn⟩) _
  | writeMap => exact h.writeMap hchart s.phase
  | flushMap => exact h.writeMap hchart .mapFlushed
  | publish =>
    exact ⟨h.completed_le_length, le_rfl, h.completed_le_durable, h.durable_le, .length,
      h.completed_disciplined, h.map, fun hp' => by rcases hp' with hp' | hp' <;> cases hp'⟩
  | mark hp =>
    exact { h with nextMap := fun _ => h.nextMap (.inl hp) }
  | complete hp =>
    refine ⟨le_rfl, h.redo_le, h.redo_le, le_rfl, h.redo_disciplined,
      h.redo_disciplined, ?_, fun hp' => by rcases hp' with hp' | hp' <;> cases hp'⟩
    exact (h.nextMap (.inr hp)).mono h.redo_le ⟨[], (append_nil _).symm⟩ rfl h.durable_le
  | begin | assemble | flySaved | flyActive | landSavedVictim | landSaved | landActive | evict
  | load
  | claim | copy | giveUp =>
    exact { h with }
  | _ => exact h.record rfl nofun rfl rfl rfl rfl rfl

end Paced

/-! ### The baseline -/

def Kept (base : Page β) (pblk : Nat) (s : State β) (i : Nat) : Prop :=
  s.disk (mapAt pblk s.wal i) = some (.page (pageAt base s.wal i)) ∧
    s.flying ≠ some (mapAt pblk s.wal i)

/-- The disk holds the page a recovery from the redo pointer starts with. -/
structure Based (base : Page β) (pblk : Nat) (s : State β) : Prop where
  kept : Kept base pblk s s.completed
  calm : ¬ Remapped s.wal s.completed s.wal.length →
    ∀ b, s.buffer = some b → b.dirty = true → s.update ≠ .none
  nextKept : s.phase ≠ .idle → Remapped s.wal s.redo s.wal.length → Kept base pblk s s.redo
  marked : s.phase = .syncing → ¬ Remapped s.wal s.redo s.wal.length →
    ∀ b, s.buffer = some b → b.checkpointNeeded = true ∨
      s.Stored base ∧ (b.dirty = true → s.update ≠ .none)

lemma Kept.frame (h : Kept base pblk s i) (hi : i ≤ s.wal.length)
    (hwal : ∃ more, t.wal = s.wal ++ more)
    (hdisk : t.disk (mapAt pblk s.wal i) = s.disk (mapAt pblk s.wal i))
    (hflying : t.flying = none ∨ t.flying = s.flying) : Kept base pblk t i := by
  obtain ⟨more, hwal⟩ := hwal
  rw [Kept, hwal, mapAt_append _ hi, pageAt_append _ hi, hdisk]
  refine ⟨h.1, ?_⟩
  rcases hflying with hf | hf
  · rw [hf]
    nofun
  · rw [hf]
    exact h.2

lemma Kept.of_stored (hbase : base.lsn = 0) (hchart : Charted pblk s)
    (hdisc : Disciplined base s.wal i) (hi : i ≤ s.wal.length)
    (hr : ¬ Remapped s.wal i s.wal.length) (hstored : s.Stored base) (hflying : s.flying = none) :
    Kept base pblk s i := by
  rw [Kept, hchart.mapAt_eq_mapping hi hr, ← pageAt_eq_of_not_remapped hbase hdisc hi hr, hflying]
  exact ⟨hstored, nofun⟩

namespace Based

lemma init (body : β) (pblk spare : Nat) (other : Nat → Option (Content β)) :
    Based ⟨0, body⟩ pblk (init body pblk spare other) where
  kept := ⟨update_self .., nofun⟩
  calm := nofun
  nextKept hp := absurd rfl hp
  marked := nofun

lemma frame (h : Based base pblk s) (hpaced : Paced base pblk s) (hwal : t.wal = s.wal)
    (hcompleted : t.completed = s.completed) (hredo : t.redo = s.redo) (hphase : t.phase = s.phase)
    (hbuffer : t.buffer = s.buffer) (hupdate : t.update = s.update)
    (hmapping : t.mapping = s.mapping)
    (hdisk : ∀ i ≤ s.wal.length, t.disk (mapAt pblk s.wal i) = s.disk (mapAt pblk s.wal i))
    (hstored : t.disk s.mapping = s.disk s.mapping)
    (hflying : t.flying = none ∨ t.flying = s.flying) : Based base pblk t where
  kept := by
    rw [hcompleted]
    exact h.kept.frame hpaced.completed_le_length ⟨[], by rw [hwal, append_nil]⟩
      (hdisk _ hpaced.completed_le_length) hflying
  calm := by
    rw [hwal, hcompleted, hbuffer, hupdate]
    exact h.calm
  nextKept := by
    rw [hwal, hredo, hphase]
    intro hp hr
    exact (h.nextKept hp hr).frame hpaced.redo_le ⟨[], by rw [hwal, append_nil]⟩
      (hdisk _ hpaced.redo_le) hflying
  marked := by
    rw [hwal, hredo, hphase, hbuffer, hupdate, State.Stored, hmapping, hstored, hwal]
    exact h.marked

lemma other (h : Based base pblk s) (hpaced : Paced base pblk s) :
    Based base pblk { s with wal := s.wal ++ [.other] } := by
  have hnot : ∀ i, ¬ Remapped (s.wal ++ [.other]) i (s.wal ++ [Record.other]).length →
      ¬ Remapped s.wal i s.wal.length := by
    intro i hr hr'
    refine hr ((hr'.append _).mono le_rfl ?_)
    rw [length_append]
    exact Nat.le_add_right ..
  have hpage : pageAt base (s.wal ++ [.other]) (s.wal ++ [Record.other]).length =
      pageAt base s.wal s.wal.length := pageAt_length_concat
  refine ⟨h.kept.frame hpaced.completed_le_length ⟨_, rfl⟩ rfl (.inr rfl),
    fun hr => h.calm (hnot _ hr), fun hp hr => ?_, fun hp hr => ?_⟩
  · rw [length_append, length_singleton] at hr
    exact (h.nextKept hp (hr.of_concat rfl)).frame hpaced.redo_le ⟨_, rfl⟩ rfl (.inr rfl)
  · have hmarked := h.marked hp (hnot _ hr)
    rw [State.Stored, ← hpage] at hmarked
    exact hmarked

variable {b : SharedBuffer β}

section
variable (h : Based base pblk s)
include h

lemma logPlain (hbase : base.lsn = 0) (hpaced : Paced base pblk s) (hcached : Cached base s)
    (hb : s.buffer = some b) (hlt : s.redo < b.page.lsn) (delta) :
    Based base pblk (s.logPlain b delta) := by
  have hredo : Remapped s.wal s.redo s.wal.length := by
    by_contra hr
    rw [hcached.page b hb,
      pageAt_eq_of_not_remapped hbase hpaced.redo_disciplined hpaced.redo_le hr] at hlt
    exact absurd (lsn_pageAt_le hbase) (not_le.mpr hlt)
  have hgrown : ∀ i ≤ s.redo,
      Remapped (s.wal ++ [.plain delta]) i (s.wal ++ [Record.plain delta]).length := by
    intro i hi
    refine (hredo.append _).mono hi ?_
    rw [length_append]
    exact Nat.le_add_right ..
  refine ⟨h.kept.frame hpaced.completed_le_length ⟨_, rfl⟩ rfl (.inr rfl),
    fun hr => absurd (hgrown _ hpaced.completed_le) hr, fun hp _ => ?_,
    fun _ hr => absurd (hgrown _ le_rfl) hr⟩
  exact (h.nextKept hp hredo).frame hpaced.redo_le ⟨_, rfl⟩ rfl (.inr rfl)

lemma move (hpaced : Paced base pblk s) (hwal : t.wal = s.wal ++ [r]) (hr : r.isMapping = true)
    (hcompleted : t.completed = s.completed) (hredo : t.redo = s.redo) (hphase : t.phase = s.phase)
    (hdisk : t.disk = s.disk) (hflying : t.flying = s.flying)
    (hfirst : ¬ Remapped s.wal s.redo s.wal.length → Kept base pblk s s.redo) :
    Based base pblk t := by
  have hgrown : ∀ i ≤ s.wal.length, Remapped t.wal i t.wal.length := by
    intro i hi
    rw [hwal, length_append, length_singleton]
    exact .concat hi hr
  refine ⟨?_, fun hnot => ?_, fun hp _ => ?_, fun _ hnot => ?_⟩
  · rw [hcompleted]
    exact h.kept.frame hpaced.completed_le_length ⟨_, hwal⟩ (by rw [hdisk]) (.inr hflying)
  · rw [hcompleted] at hnot
    exact absurd (hgrown _ hpaced.completed_le_length) hnot
  · rw [hphase] at hp
    rw [hredo]
    have hkept : Kept base pblk s s.redo := by
      by_cases hbefore : Remapped s.wal s.redo s.wal.length
      · exact h.nextKept hp hbefore
      · exact hfirst hbefore
    exact hkept.frame hpaced.redo_le ⟨_, hwal⟩ (by rw [hdisk]) (.inr hflying)
  · rw [hredo] at hnot
    exact absurd (hgrown _ hpaced.redo_le) hnot

lemma begin (hb : s.buffer = some b) (delta) : Based base pblk
      { s with update := .begun delta, buffer := some { b with dirty := true } }where
  kept := h.kept
  calm _ _ _ _ := nofun
  nextKept := h.nextKept
  marked hp hr b' hb' := by
    cases hb'
    exact (h.marked hp hr b hb).imp_right fun hstored => ⟨hstored.1, fun _ => nofun⟩

lemma fly (hchart : Charted pblk s) (hcached : Cached base s) (hw : s.writing = .active) :
    Based base pblk { s with writing := .activeFlying s.mapping } := by
  have hcompleted : Remapped s.wal s.completed s.wal.length := by
    by_contra hr
    obtain ⟨b, hb, hd⟩ := hcached.writer (by rw [hw]; nofun)
    have hbusy := hcached.busy (h.calm hr b hb hd)
    cases hw.symm.trans hbusy.1
  have hne : ∀ i, Remapped s.wal i s.wal.length → some s.mapping ≠ some (mapAt pblk s.wal i) :=
    fun i hr heq => hchart.mapAt_ne_mapping hr (Option.some.inj heq).symm
  exact ⟨⟨h.kept.1, hne _ hcompleted⟩, h.calm,
    fun hp hr => ⟨(h.nextKept hp hr).1, hne _ hr⟩, h.marked⟩

lemma land (hcached : Cached base s) {target} (hb : s.buffer = some b)
    (hw : s.writing = .activeFlying target) :
    Based base pblk ((s.setDisk target (some (.page b.page))).written b) := by
  have hkept : ∀ i, Kept base pblk s i →
      Kept base pblk ((s.setDisk target (some (.page b.page))).written b) i := by
    intro i hi
    have hne : mapAt pblk s.wal i ≠ target := by
      rintro rfl
      refine hi.2 ?_
      rw [State.flying, hw]
    exact ⟨(update_of_ne hne ..).trans hi.1, by rintro ⟨⟩⟩
  refine ⟨hkept _ h.kept, fun _ b' hb' hd => ?_, fun hp hr => hkept _ (h.nextKept hp hr),
    fun _ _ b' hb' => .inr ⟨(hcached.land hb hw).stored fun b'' hb'' => ?_, fun hd => ?_⟩⟩
  · cases hb'
    cases hd
  · cases hb''
    rfl
  · cases hb'
    cases hd

lemma mark (hcached : Cached base s) (hp : s.phase = .mapFlushed) : Based base pblk { s with
      phase := .syncing
      buffer := s.buffer.map fun b =>
        { b with checkpointNeeded := b.dirty || b.checkpointNeeded } } := by
  refine ⟨h.kept, fun hr b' hb' hd => ?_, fun _ hr => h.nextKept (by rw [hp]; nofun) hr,
    fun _ _ b' hb' => ?_⟩
  · obtain ⟨b, hb, rfl⟩ := Option.map_eq_some_iff.mp hb'
    exact h.calm hr b hb hd
  · obtain ⟨b, hb, rfl⟩ := Option.map_eq_some_iff.mp hb'
    cases hd : b.dirty with
    | true => exact .inl rfl
    | false =>
      refine .inr ⟨hcached.stored fun b'' hb'' => ?_, nofun⟩
      cases hb.symm.trans hb''
      exact hd

lemma load (hcached : Cached base s) (hb : s.buffer = none) (p) :
    Based base pblk { s with buffer := some ⟨p, false, false, none⟩ } := by
  refine ⟨h.kept, fun _ b' hb' hd => ?_, h.nextKept, fun _ _ b' hb' => .inr ⟨?_, fun hd => ?_⟩⟩
  · cases hb'
    cases hd
  · exact hcached.stored (by rw [hb]; nofun)
  · cases hb'
    cases hd

variable (hbase : base.lsn = 0) (hchart : Charted pblk s) (hcached : Cached base s)
  (hpaced : Paced base pblk s)
include hbase hchart hcached hpaced

lemma complete (hp : s.phase = .syncing)
    (hall : ∀ b, s.buffer = some b → b.checkpointNeeded = false) (durable) :
    Based base pblk { s with phase := .idle, completed := s.redo, durable } := by
  have hwritten : ¬ Remapped s.wal s.redo s.wal.length → ∀ b, s.buffer = some b →
      s.Stored base ∧ (b.dirty = true → s.update ≠ .none) := by
    intro hr b hb
    refine (h.marked hp hr b hb).resolve_left fun hneeded => ?_
    exact absurd ((hall b hb).symm.trans hneeded) nofun
  have hkept : Kept base pblk s s.redo := by
    by_cases hr : Remapped s.wal s.redo s.wal.length
    · exact h.nextKept (by rw [hp]; nofun) hr
    · by_cases hclean : ∀ b, s.buffer = some b → b.dirty = false
      · exact .of_stored hbase hchart hpaced.redo_disciplined hpaced.redo_le hr
          (hcached.stored hclean) (hcached.flying_of_clean hclean)
      · -- the buffer is dirty, but by an update that has not been logged
        push Not at hclean
        obtain ⟨b, hb, hd⟩ := hclean
        have hb' := hwritten hr b hb
        exact .of_stored hbase hchart hpaced.redo_disciplined hpaced.redo_le hr hb'.1
          (hcached.flying_of_busy (hb'.2 (Bool.ne_false_iff.mp hd)))
  exact ⟨hkept, fun hr b hb => (hwritten hr b hb).2, fun hp => absurd rfl hp, nofun⟩

lemma logRemap (hfresh : LookupFresh s .log) (hremaps : RemapsStored s .log)
    (hb : s.buffer = some b) (hu : s.update = .remapping delta old) (hne : old ≠ s.nextFree) :
    Based base pblk (s.logRemap b delta ⟨old, s.nextFree, some (s.nextFree + 1), hne⟩) := by
  refine h.move hpaced rfl rfl rfl rfl rfl rfl rfl fun hr => ?_
  refine .of_stored hbase hchart hpaced.redo_disciplined hpaced.redo_le hr ?_
    (hcached.flying_of_busy (by rw [hu]; nofun))
  rw [State.Stored, ← hcached.page b hb, ← hfresh.eq_mapping hu]
  exact hremaps.disk hu hb

lemma relocate (hstored : RelocatesStored s .relocate) (hc : s.compactor = .copied old new)
    (hm : s.mapping = old) : Based base pblk (s.relocate old new) := by
  refine h.move hpaced rfl rfl rfl rfl rfl rfl rfl fun hr => ?_
  refine .of_stored hbase hchart hpaced.redo_disciplined hpaced.redo_le hr ?_
    (hcached.flying_of_compactor (by rw [hc]; nofun))
  cases hbuffer : s.buffer with
  | none => exact hcached.stored (by rw [hbuffer]; nofun)
  | some b =>
    have hle : b.page.lsn ≤ s.redo := by
      rw [hcached.page b hbuffer,
        pageAt_eq_of_not_remapped hbase hpaced.redo_disciplined hpaced.redo_le hr]
      exact lsn_pageAt_le hbase
    rw [State.Stored, ← hcached.page b hbuffer, hm]
    exact hstored.disk hc hbuffer hle

end

variable {compacting : Bool} {e : Event β}

lemma step (h : Based base pblk s) (hbase : base.lsn = 0) (hchart : Charted pblk s)
    (hcached : Cached base s) (hpaced : Paced base pblk s) (hfresh : LookupFresh s e)
    (hremaps : RemapsStored s e) (hrelocates : RelocatesStored s e)
    (hstep : (machine compacting).step s e = some t) : Based base pblk t := by
  cases Move.of_step hstep with
  | other => exact h.other hpaced
  | begin delta hb => exact h.begin hb delta
  | assemble =>
    exact ⟨h.kept, fun _ _ _ _ => (by simp), h.nextKept, fun hp hr b' hb' =>
      (h.marked hp hr b' hb').imp_right fun hstored => ⟨hstored.1, fun _ => (by simp)⟩⟩
  | logPlain hb hu hlt => exact h.logPlain hbase hpaced hcached hb hlt _
  | logRemap hb hu hc hne =>
    exact h.logRemap hbase hchart hcached hpaced hfresh hremaps hb hu hne
  | relocate hc hm => exact h.relocate hbase hchart hcached hpaced hrelocates hc hm
  | writeStart victim =>
    have hflying : ∀ b : SharedBuffer β, State.flying { s with
        writing := s.firstWrite b victim
        durable := max s.durable b.page.lsn } = none := by
      intro b
      simp only [State.flying, State.firstWrite]
      split <;> grind
    exact h.frame hpaced rfl rfl rfl rfl rfl rfl rfl (fun _ _ => rfl) rfl (.inl (hflying _))
  | flySaved hw | landSavedVictim hb hw | landSaved hb hw =>
    rcases hcached.direct with hw' | hw' | ⟨hw', -⟩ <;> cases hw.symm.trans hw'
  | flyActive hw => exact h.fly hchart hcached hw
  | landActive hb hw => exact h.land hcached hb hw
  | evict => exact ⟨h.kept, (by simp), h.nextKept, (by simp)⟩
  | load hb => exact h.load hcached hb _
  | publish =>
    refine ⟨h.kept, h.calm, fun _ hr => ?_, (by simp)⟩
    obtain ⟨l, r, hle, hlt, -⟩ := hr
    exact absurd hle (not_le.mpr hlt)
  | flushMap hp =>
    exact ⟨h.kept, h.calm, fun _ hr => h.nextKept (by rw [hp]; simp) hr, (by simp)⟩
  | mark hp => exact h.mark hcached hp
  | complete hp hall => exact h.complete hbase hchart hcached hpaced hp hall _
  | @copy old new hc =>
    have hreserved : s.compactor.Reserved new := by
      rw [hc]
      exact rfl
    refine h.frame hpaced rfl rfl rfl rfl rfl rfl rfl (fun i hi => ?_) ?_ (.inr rfl)
    · exact update_of_ne (hchart.mapAt_ne_reserved hi hreserved) ..
    · exact update_of_ne (hchart.reserved _ hreserved).1.ne ..
  | flushWal | writeMap | claim | giveUp => exact { h with }

end Based

end

end Umbra.Block
