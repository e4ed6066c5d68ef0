import Umbra.Recovery.SuperblockCover

/-!
# Replay that keeps mapped blocks below the counters

Every record, from a state in which the mapped blocks are below the counters, or will be once the
record has raised them. The condition on a run asks for the latter wherever redo starts a superblock
over, and for relocations to name mapped blocks.
-/

namespace Umbra.SuperblockReset

open Foundation SuperblockCrc Function Counts WalRecord Option

variable {crc32c : Contents → UInt32} {s t : State} {k key : BlockKey} {c : Counts}
  {gone : BlockKey → Prop}
variable {fork : ForkNumber} {nblocks : Nat} {ref : RemapRef} {pblks : List Nat}
  {last : ForkNumber → Option Nat}

/-! ### The condition -/

def WalRecord.raises : WalRecord → Counts
  | .mapSet key old new _ =>
    ⟨if old.isNone then single key.1 (key.2 + 1) else fun _ => 0, single key.1 (new + 1)⟩
  | .remap ref =>
    ⟨single ref.key.1 (if ref.old.isNone then ref.lastLblk + 1 else ref.key.2 + 1),
      single ref.key.1 (ref.lastPblk + 1)⟩
  | .denseMap last =>
    ⟨fun fork => (last fork).elim 0 (· + 1), fun fork => (last fork).elim 0 (· + 1)⟩
  | _ => .zero

def CutLater (rs : List WalRecord) (k : BlockKey) : Prop := ∃ r ∈ rs, r.cuts k = true

/-- No skip-WAL state is pending, and the record raises the counters above every block that the log
does not truncate. -/
def Enough (s : State) (map : BlockKey → Option Nat) (rs : List WalRecord) (r : WalRecord) : Prop :=
  s.pending = false ∧ ∀ k pblk, map k = some pblk → pblk < r.raises.next k.1 ∧
    (s.truncated k = false → ¬ CutLater (r :: rs) k → k.2 < r.raises.logical k.1)

/-- The condition on a record, in front of the records `rs`. -/
def SafeRecord (crc32c : Contents → UInt32) (s : State) (rs : List WalRecord) : WalRecord → Prop
  -- a relocation names a mapped block, or one that is going to be truncated
  | .mapSet key old new materialized =>
    (s.trusted crc32c = false → Enough s s.map rs (.mapSet key old new materialized)) ∧
      (old.isSome = true → ((s.map key).isSome = true ∧ s.truncated key = false) ∨ CutLater rs key)
  -- the old block of a change is one that has been handed out
  | .remap ref =>
    (s.trusted crc32c = false → ref.kind ≠ .delta → Enough s s.map rs (.remap ref)) ∧
      (ref.kind = .delta → ∀ old ∈ ref.old, old < (s.super crc32c).nextFree ref.key.1)
  | .create fork => s.trusted crc32c = false → fork ≠ .main → Enough s s.map rs (.create fork)
  -- the superblock and the MAP pages are read again
  | .denseMap last => Enough s s.diskMap rs (.denseMap last)
  -- these report a corrupt superblock
  | _ => True

def Safe (crc32c : Contents → UInt32) (s : State) : Event → Prop
  | .redo => ∀ r rs, s.wal = r :: rs → SafeRecord crc32c s rs r
  | _ => True

/-! ### Records -/

/-- A trusted entry counts every mapped block that no later truncation cuts. -/
structure Kept (crc32c : Contents → UInt32) (rs : List WalRecord) (s : State) : Prop where
  sound : Sound crc32c (s.entryOf crc32c)
  pending : s.trusted crc32c = true → s.pending = false
  fine : s.trusted crc32c = true → ∀ k, Fine (CutLater rs) (s.counts crc32c) s k

variable {r : WalRecord} {rs : List WalRecord} {lsn first : Nat} {e : Entry}

lemma not_cutLater_cons (hcut : r.cuts k = false) (h : ¬ CutLater rs k) :
    ¬ CutLater (r :: rs) k := by
  rintro ⟨r', hmem, hcuts⟩
  rcases List.mem_cons.mp hmem with rfl | hmem
  · rw [hcut] at hcuts
    cases hcuts
  · exact h ⟨r', hmem, hcuts⟩

lemma Fine.behind (h : Fine (CutLater (r :: rs)) c s k) (hcut : r.cuts k = false) :
    Fine (CutLater rs) c s k := by
  intro pblk hmap
  obtain ⟨hnext, hlogical⟩ := h pblk hmap
  exact ⟨hnext, fun htruncated hnote hlater =>
    hlogical htruncated hnote (not_cutLater_cons hcut hlater)⟩

lemma Kept.raised (h : Kept crc32c (r :: rs) s)
    (hsafe : s.trusted crc32c = false → Enough s s.map rs r) :
    s.pending = false ∧ ∀ k, Fine (CutLater (r :: rs)) ((s.counts crc32c).sup r.raises) s k := by
  cases htrusted : s.trusted crc32c with
  | true =>
    exact ⟨h.pending htrusted, fun k => (h.fine htrusted k).mono (le_sup_left ..)⟩
  | false =>
    obtain ⟨hpending, henough⟩ := hsafe htrusted
    refine ⟨hpending, fun k => Fine.mono (fun pblk hmap => ?_) (le_sup_right ..)⟩
    obtain ⟨hnext, hlogical⟩ := henough k pblk hmap
    exact ⟨hnext, fun htruncated _ => hlogical htruncated⟩

lemma Kept.of_grown (r) (hgrown : State.Grown crc32c s t) (hpending : s.pending = false)
    (hcuts : ∀ k, r.cuts k = false) (hfine : ∀ k, Fine (CutLater (r :: rs)) (t.counts crc32c) t k) :
    t.wal = s.wal ∧ Kept crc32c rs t :=
  ⟨hgrown.wal, hgrown.sound, fun _ => hgrown.pending.trans hpending,
    fun _ k => (hfine k).behind (hcuts k)⟩

lemma Kept.redoMapSet {old new materialized}
    (h : Kept crc32c (.mapSet key old new materialized :: rs) s)
    (hsafe : SafeRecord crc32c s rs (.mapSet key old new materialized))
    (hredo : s.redoMapSet crc32c lsn key old new materialized = some t) :
    t.wal = s.wal ∧ Kept crc32c rs t := by
  obtain ⟨hpending, hfine⟩ := h.raised hsafe.1
  obtain ⟨u, hu, hredo⟩ := bind_eq_some_iff.mp hredo
  obtain ⟨hgrown, hnext, hmapped⟩ := State.grown_setMapping_bumpNextFree h.sound hu
  cases old with
  | none =>
    obtain ⟨v, hv, hredo⟩ := bind_eq_some_iff.mp hredo
    obtain ⟨hgrown', hlogical⟩ := State.grown_bumpLogical hgrown.sound hv
    have hgrown'' := State.grown_bumpCapacity hgrown'.sound hredo
    have hall := (hgrown.trans hgrown').trans hgrown''
    have hlogical := hlogical.trans_le (hgrown''.counts.logical _)
    have hnext := hnext.trans_le ((hgrown'.trans hgrown'').counts.next _)
    have hle : Counts.Le ((s.counts crc32c).sup (mapSet key none new materialized).raises)
        (t.counts crc32c) :=
      sup_le hall.counts ⟨single_le hlogical, single_le hnext⟩
    refine Kept.of_grown (.mapSet key none new materialized) hall hpending (fun _ => rfl) ?_
    intro k
    have hk := hmapped (fun _ => (hfine k).mono hle) hnext fun _ _ _ => hlogical
    exact (hk.of_frame (State.updated hgrown.sound hv).frame).of_frame
      (State.updated hgrown'.sound hredo).frame
  | some old =>
    -- whether or not the capacity is raised
    obtain ⟨hgrown', hframe⟩ : State.Grown crc32c u t ∧
        ∀ gone c k, Fine gone c u k → Fine gone c t k := by
      cases materialized with
      | true =>
        exact ⟨State.grown_bumpCapacity hgrown.sound hredo,
          fun _ _ _ hk => hk.of_frame (State.updated hgrown.sound hredo).frame⟩
      | false =>
        cases hredo
        exact ⟨⟨hgrown.sound, hgrown.trusted, .refl _, rfl, rfl⟩, fun _ _ _ hk => hk⟩
    have hall := hgrown.trans hgrown'
    have hnext := hnext.trans_le (hgrown'.counts.next _)
    have hle : Counts.Le
        ((s.counts crc32c).sup (mapSet key (some old) new materialized).raises)
        (t.counts crc32c) :=
      sup_le hall.counts ⟨fun _ => Nat.zero_le _, single_le hnext⟩
    refine Kept.of_grown (.mapSet key (some old) new materialized) hall hpending (fun _ => rfl) ?_
    intro k
    apply hframe
    refine hmapped (fun _ => (hfine k).mono hle) hnext ?_
    rintro rfl hnote hlater
    rcases hsafe.2 rfl with ⟨hsome, htruncated⟩ | ⟨r, hr, hcut⟩
    · obtain ⟨pblk, hpblk⟩ := isSome_iff_exists.mp hsome
      exact ((hfine k).mono hle pblk hpblk).2 htruncated hnote hlater
    · exact absurd ⟨r, List.mem_cons_of_mem _ hr, hcut⟩ hlater

section

variable (h : Kept crc32c (.remap ref :: rs) s)
include h

lemma Kept.redoRemapInit (hsafe : s.trusted crc32c = false → Enough s s.map rs (.remap ref))
    (hredo : s.redoRemapInit crc32c lsn ref = some t) : t.wal = s.wal ∧ Kept crc32c rs t := by
  obtain ⟨hpending, hfine⟩ := h.raised hsafe
  obtain ⟨u, hu, hredo⟩ := bind_eq_some_iff.mp hredo
  obtain ⟨v, hv, hredo⟩ := bind_eq_some_iff.mp hredo
  obtain ⟨⟨t, found⟩, hread, rfl⟩ := map_eq_some_iff.mp hredo
  obtain ⟨hgrown, hnext, hmapped⟩ := State.grown_setMapping_bumpNextFree h.sound hu
  obtain ⟨hgrown', hlogical, hframe⟩ : State.Grown crc32c u v ∧
      (ref.old.isNone = true → ref.lastLblk < (v.counts crc32c).logical ref.key.1) ∧
      ∀ gone c k, Fine gone c u k → Fine gone c v k := by
    split at hv
    · obtain ⟨hgrown', hlt⟩ := State.grown_bumpLogical hgrown.sound hv
      exact ⟨hgrown', fun _ => hlt,
        fun _ _ _ hk => hk.of_frame (State.updated hgrown.sound hv).frame⟩
    · rename_i hold
      cases hv
      exact ⟨⟨hgrown.sound, hgrown.trusted, .refl _, rfl, rfl⟩, fun hnone => absurd hnone hold,
        fun _ _ _ hk => hk⟩
  obtain ⟨-, hgrown'', -, hread⟩ := State.readBufferExtended_zeroed hgrown'.sound hread
  have hall := hgrown.trans hgrown'
  have hlift := le_sup_left (v.counts crc32c)
    ⟨single ref.key.1 (ref.key.2 + 1), fun _ => 0⟩
  have hnext : ref.lastPblk < (v.extended crc32c ref.key).next ref.key.1 :=
    hnext.trans_le ((hgrown'.counts.next _).trans (hlift.next _))
  have hkey : ref.key.2 < (v.extended crc32c ref.key).logical ref.key.1 := by
    show _ < max _ (single ref.key.1 (ref.key.2 + 1) ref.key.1)
    rw [single, if_pos rfl]
    exact Nat.le_max_right _ _
  have hle : Counts.Le ((s.counts crc32c).sup (remap ref).raises)
      (v.extended crc32c ref.key) := by
    refine sup_le (hall.counts.trans hlift) ⟨single_le ?_, single_le hnext⟩
    split
    · rename_i hnone
      exact (hlogical hnone).trans_le (hlift.logical _)
    · exact hkey
  refine Kept.of_grown (.remap ref) (hall.trans hgrown'') hpending (fun _ => rfl) fun k => ?_
  refine hread _ k (hframe _ _ _ ?_)
  exact hmapped (fun _ => (hfine k).mono hle) (lt_of_le_of_lt ref.new_le hnext) fun _ _ _ => hkey

lemma Kept.redoRemapDelta {old} (hsafe : old < (s.super crc32c).nextFree ref.key.1)
    (hredo : s.redoRemapDelta crc32c lsn ref old = some t) : t.wal = s.wal ∧ Kept crc32c rs t := by
  obtain ⟨⟨u, found⟩, hread, hredo⟩ := bind_eq_some_iff.mp hredo
  obtain ⟨htrusted, hread⟩ := State.readBufferExtended_normal hread
  have htrusted : s.trusted crc32c = true := htrusted
  have hold : old < (s.counts crc32c).next ref.key.1 := by
    rw [State.counts_of_trusted htrusted]
    exact hsafe
  have hother : ∀ k, k ≠ ref.key →
      Fine (CutLater (.remap ref :: rs)) (s.counts crc32c) (s.setMapping ref.key old) k :=
    fun k hk => .setMapping (fun _ => h.fine htrusted k) hold fun heq => absurd heq hk
  rcases hread with ⟨rfl, rfl, hlt⟩ | ⟨rfl, rfl⟩
  · have hs : Sound crc32c ((s.setMapping ref.key old).entryOf crc32c) := h.sound
    obtain ⟨hgrown, hnext, hmapped⟩ := State.grown_setMapping_bumpNextFree hs hredo
    have hall : State.Grown crc32c s t :=
      { hgrown with }
    refine Kept.of_grown (.remap ref) hall (h.pending htrusted) (fun _ => rfl) fun k => ?_
    exact hmapped (fun hk => (hother k hk).mono hgrown.counts) (lt_of_le_of_lt ref.new_le hnext)
      fun _ _ _ => hlt.trans_le (hgrown.counts.logical _)
  · cases hredo
    refine ⟨rfl, h.sound, fun _ => h.pending htrusted, fun _ k => ?_⟩
    refine Fine.behind (r := .remap ref) ?_ rfl
    refine Fine.note (hother k) fun _ pblk hmap => ?_
    rw [State.map_setMapping_self] at hmap
    cases hmap
    exact hold

lemma Kept.redoRemap (hsafe : SafeRecord crc32c s rs (.remap ref))
    (hredo : s.redoRemap crc32c lsn ref = some t) : t.wal = s.wal ∧ Kept crc32c rs t := by
  obtain ⟨hinit, hdelta⟩ := hsafe
  rw [State.redoRemap] at hredo
  cases hkind : ref.kind with
  | image | init =>
    rw [hkind] at hredo
    exact h.redoRemapInit (fun htrusted => hinit htrusted (by rw [hkind]; decide)) hredo
  | delta =>
    rw [hkind] at hredo
    cases hold : ref.old with
    | none =>
      rw [hold] at hredo
      cases hredo
    | some old =>
      rw [hold] at hredo
      exact h.redoRemapDelta (hdelta hkind old hold) hredo

end

lemma Kept.redoRead {zeroed isNew} (h : Kept crc32c (.read key zeroed isNew :: rs) s) {found}
    (hredo : s.readBufferExtended crc32c key zeroed isNew = some (t, found)) :
    t.wal = s.wal ∧ Kept crc32c rs t := by
  cases zeroed with
  | true =>
    obtain ⟨htrusted, hgrown, -, hread⟩ := State.readBufferExtended_zeroed h.sound hredo
    refine Kept.of_grown (.read key true isNew) hgrown (h.pending htrusted) (fun _ => rfl) ?_
    intro k
    apply hread
    exact (h.fine htrusted k).mono (le_sup_left ..)
  | false =>
    obtain ⟨htrusted, ⟨-, rfl, -⟩ | ⟨-, rfl⟩⟩ := State.readBufferExtended_normal hredo
    · exact ⟨rfl, h.sound, h.pending, fun htrusted k => (h.fine htrusted k).behind rfl⟩
    · refine ⟨rfl, h.sound, h.pending, fun htrusted k => ?_⟩
      refine Fine.behind (r := .read key false isNew) ?_ rfl
      exact Fine.note (fun _ => h.fine htrusted k) fun _ pblk hmap =>
        (h.fine htrusted key pblk hmap).1

/-! ### Ranges -/

namespace State

lemma setRange_frame (fork pblks) : ∀ (s : State) (first : Nat),
    ∃ map truncated,
      s.setRange fork first pblks = { s with map := map, truncated := truncated } := by
  induction pblks with
  | nil => exact fun s _ => ⟨s.map, s.truncated, rfl⟩
  | cons pblk pblks ih => exact fun s first => ih (s.setMapping (fork, first) pblk) (first + 1)

lemma fine_setRange :
    ∀ {s : State} {first : Nat}, Fine gone c s k → first + pblks.length ≤ c.logical fork →
      (∀ pblk ∈ pblks, pblk < c.next fork) → Fine gone c (s.setRange fork first pblks) k := by
  induction pblks with
  | nil => exact fun hk _ _ => hk
  | cons pblk pblks ih =>
    intro s first hk hlogical hnext
    rw [List.length_cons] at hlogical
    have hlt : first < c.logical fork := by omega
    exact ih (Fine.setMapping (fun _ => hk) (hnext pblk List.mem_cons_self) fun _ _ _ => hlt)
      (by omega) fun p hp => hnext p (List.mem_cons_of_mem _ hp)

lemma grown_setRange_bumpNextFree {blkno} (hs : Sound crc32c (s.entryOf crc32c))
    (h : (s.setRange fork first pblks).update crc32c lsn (.bumpNextFree fork blkno) = some t) :
    Grown crc32c s t ∧ blkno < (t.counts crc32c).next fork ∧
      ∀ gone c k, Fine gone c (s.setRange fork first pblks) k → Fine gone c t k := by
  obtain ⟨map, truncated, heq⟩ := setRange_frame fork pblks s first
  rw [heq] at h ⊢
  have hs' : Sound crc32c
      (State.entryOf crc32c { s with map := map, truncated := truncated }) := hs
  obtain ⟨hgrown, hlt⟩ := grown_bumpNextFree hs' h
  exact ⟨{ hgrown with }, hlt, fun _ _ _ hk => hk.of_frame (updated hs' h).frame⟩

lemma trusted_of_ensurePhysical (h : s.update crc32c lsn (.ensurePhysical fork nblocks) = some t) :
    s.trusted crc32c = true := by
  obtain ⟨e, he, -⟩ := map_eq_some_iff.mp h
  obtain ⟨e₁, hprepare, -⟩ := map_eq_some_iff.mp he
  rw [trusted, Bool.not_eq_true']
  by_contra hcorrupt
  rw [Entry.prepare, if_pos (.inl (Bool.eq_true_of_not_eq_false hcorrupt)), if_pos (.inr rfl)]
    at hprepare
  cases hprepare

end State

open SuperblockReset.State

lemma Kept.redoRangeRemap (h : Kept crc32c (.rangeRemap fork first pblks :: rs) s)
    (hredo : s.redoRangeRemap crc32c lsn fork first pblks = some t) :
    t.wal = s.wal ∧ Kept crc32c rs t := by
  rw [State.redoRangeRemap] at hredo
  split at hredo
  · cases hredo
  · obtain ⟨u, hu, hredo⟩ := bind_eq_some_iff.mp hredo
    obtain ⟨v, hv, hredo⟩ := bind_eq_some_iff.mp hredo
    obtain ⟨w, hw, hredo⟩ := bind_eq_some_iff.mp hredo
    have htrusted := trusted_of_ensurePhysical hu
    have hupdated := State.updated h.sound hu
    have hgrown := hupdated.grown (.refl _)
    obtain ⟨hgrown', hnext, hframe⟩ := grown_setRange_bumpNextFree hgrown.sound hv
    have hgrown'' := grown_bumpCapacity hgrown'.sound hw
    obtain ⟨hgrown₃, hlogical⟩ := grown_bumpLogical hgrown''.sound hredo
    have hall := ((hgrown.trans hgrown').trans hgrown'').trans hgrown₃
    have hpblks : ∀ pblk ∈ pblks, pblk < (t.counts crc32c).next fork := fun pblk hp =>
      (lt_of_le_of_lt (Record.le_maxPblk hp) hnext).trans_le
        ((hgrown''.trans hgrown₃).counts.next fork)
    refine Kept.of_grown (.rangeRemap fork first pblks) hall (h.pending htrusted) (fun _ => rfl) ?_
    intro k
    have hk := ((h.fine htrusted k).mono hall.counts).of_frame hupdated.frame
    have hrange := fine_setRange hk (by omega : first + pblks.length ≤ _) hpblks
    exact ((hframe _ _ k hrange).of_frame (State.updated hgrown'.sound hw).frame).of_frame
      (State.updated hgrown''.sound hredo).frame

/-! ### Truncation -/

lemma State.not_mem_of_markTruncated (hcut : decide (k.1 = fork ∧ nblocks ≤ k.2) = false)
    (h : k ∉ (s.markTruncated fork nblocks).invalid) : k ∉ s.invalid := by
  intro hmem
  refine h (List.mem_filter.mpr ⟨hmem, decide_eq_true fun hmain => ?_⟩)
  exact of_decide_eq_false hcut ⟨hmain.2.1.trans hmain.1.symm, hmain.2.2⟩

lemma Kept.setLogical (hcuts : ∀ k, r.cuts k = decide (k.1 = fork ∧ nblocks ≤ k.2))
    (hs : Sound crc32c (s.entryOf crc32c)) (hpending : s.pending = false)
    (hfine : ∀ k, Fine (CutLater (r :: rs)) (s.counts crc32c) s k)
    (h : s.update crc32c lsn (.setLogical fork nblocks) = some t) :
    (t.markTruncated fork nblocks).wal = s.wal ∧ Kept crc32c rs (t.markTruncated fork nblocks) := by
  have hupdated := State.updated hs h
  have hcounts : (t.markTruncated fork nblocks).counts crc32c =
      (s.counts crc32c).act (.setLogical fork nblocks) := hupdated.counts
  obtain ⟨e, rfl⟩ := hupdated.frame
  refine ⟨rfl, hupdated.sound, fun _ => hpending, fun _ k => ?_⟩
  rw [hcounts]
  intro pblk hmap
  obtain ⟨hnext, hlogical⟩ := hfine k pblk hmap
  refine ⟨hnext, fun htruncated hnote hlater => ?_⟩
  obtain ⟨htruncated, hcut⟩ := Bool.or_eq_false_iff.mp htruncated
  have hlt := hlogical htruncated (not_mem_of_markTruncated hcut hnote)
    (not_cutLater_cons ((hcuts k).trans hcut) hlater)
  show k.2 < update (s.counts crc32c).logical fork nblocks k.1
  by_cases hfork : k.1 = fork
  · rw [hfork, update_self]
    exact lt_of_not_ge fun hle => of_decide_eq_false hcut ⟨hfork, hle⟩
  · rw [update_of_ne hfork]
    exact hlt

lemma Kept.truncateTo (h : Kept crc32c (.truncate fork nblocks :: rs) s)
    (htrusted : s.trusted crc32c = true) (hredo : s.truncateTo crc32c lsn fork nblocks = some t) :
    (t.markTruncated fork nblocks).wal = s.wal ∧ Kept crc32c rs (t.markTruncated fork nblocks) := by
  have hcleared : ∀ map : BlockKey → Option Nat,
      (∀ k pblk, map k = some pblk → s.map k = some pblk) →
      State.update crc32c { s with map := map } lsn (.setLogical fork nblocks) = some t →
      (t.markTruncated fork nblocks).wal = s.wal ∧
        Kept crc32c rs (t.markTruncated fork nblocks) := by
    intro map hmap hu
    exact Kept.setLogical (s := { s with map := map }) (r := .truncate fork nblocks) (fun _ => rfl)
      h.sound (h.pending htrusted)
      (fun k pblk hpblk => h.fine htrusted k pblk (hmap k pblk hpblk)) hu
  refine hcleared _ (fun k pblk hmap => ?_) hredo
  split at hmap
  · cases hmap
  · exact hmap

lemma Kept.redoTruncate (h : Kept crc32c (.truncate fork nblocks :: rs) s)
    (hredo : s.redoTruncate crc32c lsn fork nblocks = some t) :
    t.wal = s.wal ∧ Kept crc32c rs t := by
  have hcase : s.hasSuper crc32c = true →
      (s.truncateTo crc32c lsn fork nblocks).map (·.markTruncated fork nblocks) = some t →
      t.wal = s.wal ∧ Kept crc32c rs t := by
    intro hsuper hredo
    obtain ⟨u, hu, rfl⟩ := map_eq_some_iff.mp hredo
    exact h.truncateTo (Bool.and_eq_true_iff.mp hsuper).1 hu
  rw [State.redoTruncate] at hredo
  split at hredo
  · split at hredo
    · rename_i hsuper
      exact hcase hsuper hredo
    · cases hredo
  · split at hredo
    · rename_i hsuper
      exact hcase hsuper.1 hredo
    · cases hredo
      refine ⟨rfl, h.sound, h.pending, fun htrusted k pblk hmap => ?_⟩
      obtain ⟨hnext, hlogical⟩ := h.fine htrusted k pblk hmap
      refine ⟨hnext, fun htruncated hnote hlater => ?_⟩
      obtain ⟨htruncated, hcut⟩ := Bool.or_eq_false_iff.mp htruncated
      exact hlogical htruncated (not_mem_of_markTruncated hcut hnote)
        (not_cutLater_cons hcut hlater)

lemma Kept.redoCreate (h : Kept crc32c (.create fork :: rs) s)
    (hsafe : SafeRecord crc32c s rs (.create fork))
    (hredo : s.redoCreate crc32c lsn fork = some t) : t.wal = s.wal ∧ Kept crc32c rs t := by
  rw [State.redoCreate] at hredo
  split at hredo
  · rename_i hmain
    cases hredo
    subst hmain
    exact ⟨rfl, h.sound, h.pending, fun htrusted k => (h.fine htrusted k).behind rfl⟩
  · rename_i hmain
    obtain ⟨u, hu, rfl⟩ := map_eq_some_iff.mp hredo
    obtain ⟨hpending, hfine⟩ := h.raised fun htrusted => hsafe htrusted hmain
    have hcuts : ∀ k, (create fork).cuts k = decide (k.1 = fork ∧ 0 ≤ k.2) := by
      intro k
      cases fork with
      | main => exact absurd rfl hmain
      | fsm | vm => exact decide_eq_decide.mpr ⟨fun h => ⟨h, Nat.zero_le _⟩, And.left⟩
    -- the record raises no counter
    exact Kept.setLogical hcuts h.sound hpending (fun k => (hfine k).mono
      (sup_le (.refl _) ⟨fun _ => Nat.zero_le _, fun _ => Nat.zero_le _⟩)) hu

/-! ### Dense maps -/

def Covered (crc32c : Contents → UInt32) (last : ForkNumber → Option Nat) (s : State)
    (fork : ForkNumber) : Prop :=
  (last fork).elim 0 (· + 1) ≤ (s.counts crc32c).logical fork ∧
    (last fork).elim 0 (· + 1) ≤ (s.counts crc32c).next fork

lemma Fine.setDense {n} (hlast : last fork = some n) (h : Fine gone (denseMap last).raises s k) :
    Fine gone (denseMap last).raises (s.setDense fork n) k := by
  intro pblk hmap
  by_cases hk : k.1 = fork ∧ k.2 ≤ n
  · have hpblk : some k.2 = some pblk := (if_pos hk).symm.trans hmap
    cases hpblk
    have hlt : k.2 < (last k.1).elim 0 (· + 1) := by
      rw [hk.1, hlast]
      exact Nat.lt_succ_of_le hk.2
    exact ⟨hlt, fun _ _ _ => hlt⟩
  · have htruncated : (s.setDense fork n).truncated k = s.truncated k := by
      simp only [State.setDense, decide_eq_false hk, Bool.not_false, Bool.and_true]
    rw [htruncated]
    exact h pblk ((if_neg hk).symm.trans hmap)

lemma State.redoDenseFork_spec (hs : Sound crc32c (s.entryOf crc32c))
    (h : s.redoDenseFork crc32c lsn last fork = some t) :
    Sound crc32c (t.entryOf crc32c) ∧ t.wal = s.wal ∧ t.pending = s.pending ∧
      (∀ gone k, Fine gone (denseMap last).raises s k →
        Fine gone (denseMap last).raises t k) ∧ Covered crc32c last t fork ∧
      ∀ fork', fork' ≠ fork → Covered crc32c last s fork' → Covered crc32c last t fork' := by
  rw [State.redoDenseFork] at h
  cases hlast : last fork with
  | none =>
    rw [hlast] at h
    cases h
    refine ⟨hs, rfl, rfl, fun _ _ hk => hk, ?_, fun _ _ hcovered => hcovered⟩
    rw [Covered, hlast]
    exact ⟨Nat.zero_le _, Nat.zero_le _⟩
  | some n =>
    rw [hlast] at h
    obtain ⟨u, hu, h⟩ := bind_eq_some_iff.mp h
    obtain ⟨v, hv, h⟩ := bind_eq_some_iff.mp h
    have hu := State.updated (s := s.setDense fork n) hs hu
    have hv := State.updated hu.sound hv
    have ht := State.updated hv.sound h
    have hcounts : t.counts crc32c =
        ((s.counts crc32c).act (.bumpNextFree fork n)).act (.setLogical fork (n + 1)) := by
      rw [ht.counts, hv.counts, hu.counts]
      rfl
    obtain ⟨e, rfl⟩ := hu.frame
    obtain ⟨e', rfl⟩ := hv.frame
    obtain ⟨e'', rfl⟩ := ht.frame
    refine ⟨ht.sound, rfl, rfl, fun _ _ hk => hk.setDense hlast, ?_, fun fork' hne hcovered => ?_⟩
    · rw [Covered, hcounts, hlast]
      simp only [act, update_self, elim_some]
      exact ⟨le_rfl, Nat.le_max_right _ _⟩
    · rw [Covered, hcounts]
      simp only [act, update_of_ne hne]
      exact hcovered

lemma Kept.redoDenseMap (hsafe : SafeRecord crc32c s rs (.denseMap last))
    (hredo : s.redoDenseMap crc32c lsn last = some t) : t.wal = s.wal ∧ Kept crc32c rs t := by
  obtain ⟨hpending, henough⟩ := hsafe
  obtain ⟨u, hu, hredo⟩ := bind_eq_some_iff.mp hredo
  obtain ⟨v, hv, hredo⟩ := bind_eq_some_iff.mp hredo
  obtain ⟨hu, hwalu, hpendingu, hfineu, hmain, -⟩ :=
    redoDenseFork_spec (s := s.invalidate) (sound_install s.disk) hu
  obtain ⟨hv, hwalv, hpendingv, hfinev, hfsm, hkeepv⟩ := redoDenseFork_spec hu hv
  obtain ⟨ht, hwalt, hpendingt, hfinet, hvm, hkeept⟩ := redoDenseFork_spec hv hredo
  have hcovered : ∀ fork, Covered crc32c last t fork := by
    intro fork
    cases fork with
    | main => exact hkeept .main (by decide) (hkeepv .main (by decide) hmain)
    | fsm => exact hkeept .fsm (by decide) hfsm
    | vm => exact hvm
  refine ⟨hwalt.trans (hwalv.trans hwalu), ht, fun _ => ?_, fun _ k => ?_⟩
  · exact hpendingt.trans (hpendingv.trans (hpendingu.trans hpending))
  · have hstart : Fine (CutLater (.denseMap last :: rs)) (denseMap last).raises
        s.invalidate k := by
      intro pblk hmap
      obtain ⟨hnext, hlogical⟩ := henough k pblk hmap
      exact ⟨hnext, fun htruncated _ => hlogical htruncated⟩
    exact ((hfinet _ k (hfinev _ k (hfineu _ k hstart))).mono
      ⟨fun fork => (hcovered fork).1, fun fork => (hcovered fork).2⟩).behind rfl

lemma Kept.redo (h : Kept crc32c (r :: rs) s) (hsafe : SafeRecord crc32c s rs r)
    (hredo : s.redo crc32c lsn r = some t) : t.wal = s.wal ∧ Kept crc32c rs t := by
  cases r with
  | mapSet => exact h.redoMapSet hsafe hredo
  | rangeRemap => exact h.redoRangeRemap hredo
  | remap => exact h.redoRemap hsafe hredo
  | read =>
    obtain ⟨⟨u, found⟩, hread, rfl⟩ := map_eq_some_iff.mp hredo
    exact h.redoRead hread
  | truncate => exact h.redoTruncate hredo
  | create => exact h.redoCreate hsafe hredo
  | denseMap => exact Kept.redoDenseMap hsafe hredo

/-! ### Runs -/

lemma Sound.flushed (h : Sound crc32c e) :
    Sound crc32c { e with super := e.flushed crc32c, dirty := false } :=
  ⟨h.valid, fun _ _ _ => Sector.checkCrc_refreshCrc _, h.identity⟩

lemma Kept.flush (h : Kept crc32c rs s) (he : s.entry = some e) (disk) :
    Kept crc32c rs { s with
      entry := some { e with super := e.flushed crc32c, dirty := false }, disk := disk } := by
  have hentry : s.entryOf crc32c = e := by rw [State.entryOf, he, getD_some]
  obtain ⟨hsound, hpending, hfine⟩ := h
  rw [State.trusted, hentry] at hpending hfine
  rw [State.counts, hentry] at hfine
  rw [hentry] at hsound
  exact ⟨hsound.flushed, hpending, hfine⟩

lemma Kept.step {ev} (h : Kept crc32c s.wal s) (hok : Safe crc32c s ev)
    (hstep : (machine crc32c).step s ev = some t) : Kept crc32c t.wal t := by
  cases ev with
  | redo =>
    cases hwal : s.wal with
    | nil =>
      simp only [machine, hwal] at hstep
      cases hstep
    | cons r rs =>
      simp only [machine, hwal] at hstep
      rw [hwal] at h
      obtain ⟨hrest, hkept⟩ := Kept.redo (s := { s with wal := rs, pos := s.pos + 1 })
        { h with } (hok r rs hwal) hstep
      rw [hrest]
      exact hkept
  | flush =>
    obtain ⟨e, he, hstep⟩ := bind_eq_some_iff.mp hstep
    split at hstep
    · cases hstep
      exact h.flush he _
    · cases hstep
  | writeBack =>
    cases hstep
    exact { h with }
  | reachConsistency =>
    simp only [machine] at hstep
    split at hstep
    · cases hstep
      exact { h with }
    · cases hstep

lemma Kept.start {map disk pending wal} (hload : disk.load crc32c = .corrupt) :
    Kept crc32c wal (.start map disk pending wal) := by
  have htrusted : (State.start map disk pending wal).trusted crc32c = false := by
    rw [State.trusted, State.entryOf, State.start, getD_none, hload]
    rfl
  refine ⟨sound_install disk, fun h => ?_, fun h => ?_⟩
  · rw [htrusted] at h
    cases h
  · rw [htrusted] at h
    cases h

def State.Ended (s : State) : Prop := s.wal = [] ∧ s.invalid = []

/-- The superblock covers what the MAP pages hold, and a pending skip-WAL state is not lost. -/
structure State.Intact (crc32c : Contents → UInt32) (s : State) : Prop where
  logical : ∀ k pblk, s.map k = some pblk → s.truncated k = false →
    k.2 < (s.super crc32c).logical k.1
  nextFree : ∀ k pblk, s.map k = some pblk → pblk < (s.super crc32c).nextFree k.1
  pending : s.pending = true → (s.entryOf crc32c).super.contents.skipWalPending = true

/-- If a record that starts a corrupt superblock over raises the counters enough, replay that ends
without a report leaves a superblock that covers the MAP pages. -/
theorem intact_at_end {map : BlockKey → Option Nat} {disk : Sector} {pending : Bool}
    {wal : List WalRecord} (hload : disk.load crc32c = .corrupt)
    (h : (machine crc32c).Reaches (Safe crc32c) (.start map disk pending wal) s) (hend : s.Ended)
    (hupdated : s.trusted crc32c = true) : s.Intact crc32c := by
  have hkept : Kept crc32c s.wal s :=
    h.invariant (I := fun s => Kept crc32c s.wal s) (Kept.start hload) Kept.step
  have hcounts := counts_of_trusted hupdated
  have hfine := hkept.fine hupdated
  rw [hcounts] at hfine
  refine ⟨fun k pblk hmap htruncated => ?_, fun k pblk hmap => (hfine k pblk hmap).1, fun hset =>
    ?_⟩
  · refine (hfine k pblk hmap).2 htruncated ?_ ?_
    · rw [hend.2]
      exact List.not_mem_nil
    · rw [hend.1]
      rintro ⟨r, hr, -⟩
      cases hr
  · rw [hkept.pending hupdated] at hset
    cases hset

def damaged (pending : Bool) : Sector :=
  ⟨{ Sector.init.contents with skipWalPending := pending }, 1⟩

def rebirth : State :=
  .start (fun k => if k = (.main, 0) then some 0 else none) (damaged false) false
    [.mapSet (.main, 0) none 0 true, .mapSet (.main, 1) none 1 true]

theorem intact_at_end_rebirth : (damaged false).load (fun _ => 0) = .corrupt ∧
      ∃ s, (machine fun _ => 0).Reaches (Safe fun _ => 0) rebirth s ∧ s.Ended ∧
        s.map (.main, 1) = some 1 ∧ s.Intact fun _ => 0 := by
  have hsafe : Safe (fun _ => 0) rebirth .redo := by
    rintro r rs hwal
    cases hwal
    refine ⟨fun _ => ⟨rfl, fun k pblk hmap => ?_⟩, fun hold => (nomatch hold)⟩
    change (if k = (.main, 0) then some 0 else none) = some pblk at hmap
    split at hmap
    · rename_i hk
      cases hmap
      subst hk
      exact ⟨by decide, fun _ _ => by decide⟩
    · cases hmap
  have hsafe' : Safe (fun _ => 0) ((machine fun _ => 0).after rebirth [.redo]) .redo := by
    intro r rs hwal
    cases hwal
    refine ⟨fun htrusted => ?_, fun hold => (nomatch hold)⟩
    cases htrusted
  have hreach : (machine fun _ => 0).Reaches (Safe fun _ => 0) rebirth
      ((machine fun _ => 0).after rebirth [.redo, .redo]) :=
    (System.Reaches.tail .refl hsafe rfl).tail hsafe' rfl
  exact ⟨rfl, _, hreach, ⟨rfl, rfl⟩, rfl, intact_at_end rfl hreach ⟨rfl, rfl⟩ rfl⟩

def relocation : State :=
  .start (fun k => if k = (.main, 0) ∨ k = (.fsm, 0) then some 0 else none) (damaged true) true
    [.mapSet (.main, 0) (some 0) 1 true]

theorem relocation_loses_superblock : (damaged true).load (fun _ => 0) = .corrupt ∧
      ∃ s, (machine fun _ => 0).Reachable relocation s ∧ s.Ended ∧ s.trusted (fun _ => 0) = true ∧
        s.map (.main, 0) = some 1 ∧ s.truncated (.main, 0) = false ∧
        (s.super fun _ => 0).logical .main = 0 ∧
        s.map (.fsm, 0) = some 0 ∧ (s.super fun _ => 0).nextFree .fsm = 0 ∧
        s.pending = true ∧ (s.entryOf fun _ => 0).super.contents.skipWalPending = false := by
  refine ⟨rfl, (machine fun _ => 0).after relocation [.redo], .of_isSome rfl, ⟨rfl, rfl⟩, rfl, rfl,
    rfl, rfl, rfl, rfl, rfl, rfl⟩

end Umbra.SuperblockReset
