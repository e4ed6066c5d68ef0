import Umbra.Foundation.ForallBefore
import Umbra.Publication.Positions
import Umbra.Publication.Replay

/-!
# What a checkpoint accounts for

A checkpoint may forget the records in front of its redo pointer once the disk has what they ask
for. An `Account` is one such thing: the entry of a block, or a counter of the superblock.
`Account.Balanced` states how far every record is seen to, through the phases of a checkpoint and
through recovery.
-/

namespace Umbra

open Foundation Function List

variable {n : Nat}

/-- The actions that `Update` has. -/
def Instr.updates : Instr → Bool
  | .setMapping .. | .bumpLogical .. | .bumpNextFree .. | .bumpCapacity .. | .bumpCapacityMax _
  | .clearEntry .. | .setLogical .. => true
  | _ => false

/-- `done m r`: the metadata has what the record asks for. `asks r j`: the action provides it, and
`late r j`: it does so behind its delay section. `page` is the MAP page with it, if it is not in the
superblock. -/
structure Account where
  done : MapMeta → Record → Prop
  asks : Record → Instr → Prop
  late : Record → Instr → Prop
  page : Option MapPageId
  late_page : ∀ r j, late r j → page = none
  idle : ∀ r j, j.updates = false → asks r j ∨ late r j → ∀ m, done m r
  other : ∀ m, done m .other
  covers : ∀ r rest, Covers (.insert r) rest → (∀ m, done m r) ∨
    (∃ j ∈ covered rest, asks r j) ∨ ∃ j ∈ rest, late r j

namespace Account

variable (A : Account)

/-- The backend is inside a delay section in which it goes on to provide it. -/
def Pending (s : State n) (r : Record) (b : Fin n) : Prop :=
  (s.backends b).delayChkptStart = true ∧ ∃ j ∈ covered (s.backends b).prog, A.asks r j

def Owed (s : State n) (i : Nat) (r : Record) : Prop :=
  ∃ b, (s.backends b).firstLsn ≠ 0 ∧ (s.backends b).firstLsn ≤ i + 1 ∧
    ∃ j ∈ (s.backends b).prog, A.late r j

/-- The record is seen to, or will be by one of the backends `D` or by a late action. -/
def Met (s : State n) (D : Fin n → Prop) (i : Nat) (r : Record) : Prop :=
  A.done s.mapMeta r ∨ (∃ b, D b ∧ A.Pending s r b) ∨ A.Owed s i r

def OnDisk (s : State n) (r : Record) : Prop := A.done s.crash.mapMeta r

/-- The record is seen to, in memory and on the pages that are flushed, but for a late action. -/
def Flushing (s : State n) (pages : List MapPageId) (i : Nat) (r : Record) : Prop :=
  (A.done s.mapMeta r ∧ ∀ page ∈ A.page, A.OnDisk s r ∨ page ∈ pages) ∨ A.Owed s i r

/-- How far the records are seen to: all of them in the running system, and on disk those in front
of the redo pointer. -/
structure Balanced (s : State n) : Prop where
  running : s.recovery = none → ForallBefore (A.Met s fun _ => True) s.wal s.wal.length
  recovering : ∀ pos, s.recovery = some pos → ForallBefore (fun _ => A.done s.mapMeta) s.wal pos
  waiting : ∀ redo delaying, s.ckpt = .waiting redo delaying →
    ForallBefore (A.Met s (· ∈ delaying)) s.wal redo
  flushing : ∀ redo pages, s.ckpt = .flushing redo pages →
    ForallBefore (A.Flushing s pages) s.wal redo
  flushed : ∀ redo, s.ckpt = .flushed redo → ForallBefore (fun _ => A.OnDisk s) s.wal redo
  durable : ForallBefore (fun _ => A.OnDisk s) s.wal s.redoPtr

/-- What is provided stays, and what is pending stays or is provided. -/
structure Kept (s t : State n) : Prop where
  done : ∀ r, A.done s.mapMeta r → A.done t.mapMeta r
  pending : ∀ r b, A.Pending s r b → A.Pending t r b ∨ A.done t.mapMeta r
  owed : ∀ i r, A.Owed s i r → A.Owed t i r ∨ A.done t.mapMeta r
  onDisk : ∀ r, A.OnDisk s r → A.OnDisk t r

variable {A} {s t : State n} {e : Event n} {b : Fin n} {be : Backend} {i : Instr}
  {rest : List Instr} {r : Record}

/-! ### A step keeps an account -/

namespace Kept

variable (hdone : ∀ r, A.done s.mapMeta r → A.done t.mapMeta r)
  (hdisk : ∀ r, A.OnDisk s r → A.OnDisk t r)
include hdone hdisk

lemma of_backends (hb : t.backends = s.backends) : A.Kept s t where
  done := hdone
  pending r b h := .inl (by rwa [Pending, hb])
  owed i r h := .inl (by rwa [Owed, hb])
  onDisk := hdisk

lemma of_backend (hb : t.backends = update s.backends b be)
    (hcov : ∀ j ∈ covered (s.backends b).prog, be.delayChkptStart = (s.backends b).delayChkptStart ∧
      j ∈ covered be.prog ∨ ∀ r, A.asks r j → A.done t.mapMeta r)
    (hlate : ∀ j ∈ (s.backends b).prog, ((s.backends b).firstLsn ≠ 0 → be.firstLsn =
      (s.backends b).firstLsn) ∧ j ∈ be.prog ∨ ∀ r, A.late r j → A.done t.mapMeta r) :
    A.Kept s t where
  done := hdone
  pending := by
    rintro r b' ⟨hdelay, j, hj, hasks⟩
    rw [Pending, hb]
    by_cases hne : b' = b
    · subst hne
      rw [update_self]
      exact (hcov j hj).imp (fun ⟨hd, hmem⟩ => ⟨hd.trans hdelay, j, hmem, hasks⟩) fun h =>
        h r hasks
    · rw [update_of_ne hne]
      exact .inl ⟨hdelay, j, hj, hasks⟩
  owed := by
    rintro i r ⟨b', hne0, hfirst, j, hj, hl⟩
    by_cases hne : b' = b
    · subst hne
      refine (hlate j hj).imp (fun ⟨hf, hmem⟩ => ⟨b', ?_⟩) fun h => h r hl
      rw [hb, update_self, hf hne0]
      exact ⟨hne0, hfirst, j, hmem, hl⟩
    · refine .inl ⟨b', ?_⟩
      rw [hb, update_of_ne hne]
      exact ⟨hne0, hfirst, j, hj, hl⟩
  onDisk := hdisk

lemma exec (hprog : (s.backends b).prog = i :: rest) (hb : t.backends = update s.backends b be)
    (hi : ∀ r, A.asks r i ∨ A.late r i → A.done t.mapMeta r)
    (hplain : i.isPlain = true → be.delayChkptStart = (s.backends b).delayChkptStart ∧
      ∀ j ∈ covered rest, j ∈ covered be.prog) (hrest : ∀ j ∈ rest, j ∈ be.prog)
    (hfirst : (s.backends b).firstLsn ≠ 0 → be.firstLsn = (s.backends b).firstLsn) :
    A.Kept s t := by
  refine .of_backend hdone hdisk hb ?_ ?_
  · intro j hj
    rw [hprog, covered_cons] at hj
    split_ifs at hj with hp
    · rcases mem_cons.mp hj with rfl | hj
      · exact .inr fun r h => hi r (.inl h)
      · exact .inl ⟨(hplain hp).1, (hplain hp).2 j hj⟩
    · cases hj
  · intro j hj
    rw [hprog] at hj
    rcases mem_cons.mp hj with rfl | hj
    · exact .inr fun r h => hi r (.inr h)
    · exact .inl ⟨hfirst, hrest j hj⟩

/-- An account is kept if metadata and disk are, and an action provides what it is there for. -/
lemma of_move (hm : Move s e t) (hcrash : e ≠ .crash)
    (hupdate : ∀ {b i m}, Update s b i m → ∀ r, A.asks r i ∨ A.late r i → A.done m r) :
    A.Kept s t := by
  have hnot : ∀ i : Instr, i.updates = false → ∀ r, A.asks r i ∨ A.late r i → A.done t.mapMeta r :=
    fun i hi r h => A.idle r i hi h _
  cases hm with
  | lookup =>
    refine .of_backend hdone hdisk rfl ?_ ?_
    · exact fun j hj => .inl ⟨rfl, hj⟩
    · exact fun j hj => .inl ⟨fun _ => rfl, hj⟩
  | start hrec hidle =>
    refine .of_backend hdone hdisk rfl ?_ ?_ <;>
    · intro j hj
      rw [hidle] at hj
      cases hj
  | delayStart hprog | delayEnd hprog =>
    exact .exec hdone hdisk hprog rfl (hnot _ rfl) nofun (fun j => id) fun _ => rfl
  | insert hprog =>
    exact .exec hdone hdisk hprog rfl (hnot _ rfl) nofun (fun j => id) fun h => if_neg h
  | update hprog hu =>
    exact .exec hdone hdisk hprog rfl (hupdate hu) (fun _ => ⟨rfl, fun j => id⟩) (fun j => id)
      fun _ => rfl
  | release hprog =>
    exact .exec hdone hdisk hprog rfl (hnot _ rfl) (fun _ => ⟨rfl, fun j => id⟩) (fun j => id)
      fun _ => rfl
  | birthMapped hprog =>
    refine .exec hdone hdisk hprog rfl (hnot _ rfl) nofun (fun j hj => ?_) fun _ => rfl
    split_ifs
    · exact mem_cons_of_mem _ hj
    · exact hj
  | birthOwned hprog | birthFresh hprog =>
    refine .exec hdone hdisk hprog rfl (hnot _ rfl) nofun (fun j hj => ?_) fun _ => rfl
    split_ifs <;> exact mem_append_right _ hj
  | umtruncate hprog =>
    refine .exec hdone hdisk hprog rfl (hnot _ rfl) (fun _ => ⟨rfl, fun j hj => ?_⟩)
      (fun j hj => mem_append_right _ hj) fun _ => rfl
    rw [covered_append _ fun _ => isPlain_of_mem_umtruncateTail]
    exact mem_append_right _ hj
  | flushPage => exact .of_backends hdone hdisk (s.backends_flushPage _)
  | flushSuper | ckptSuper => exact .of_backends hdone hdisk s.backends_flushSuper
  | crash => exact absurd rfl hcrash
  | localBirth hrec haux hmap ht =>
    obtain ⟨p, -, rfl⟩ := Option.map_eq_some_iff.mp ht
    exact .of_backends hdone hdisk rfl
  | _ => exact .of_backends hdone hdisk rfl

end Kept

lemma Owed.page_eq_none {i} (h : A.Owed s i r) : A.page = none := by
  obtain ⟨b, -, -, j, -, hl⟩ := h
  exact A.late_page r j hl

lemma Met.kept {D i} (h : A.Met s D i r) (hk : A.Kept s t) : A.Met t D i r := by
  rcases h with h | ⟨b, hb, h⟩ | h
  · exact .inl (hk.done r h)
  · exact (hk.pending r b h).elim (fun h => .inr (.inl ⟨b, hb, h⟩)) .inl
  · exact (hk.owed i r h).elim (fun h => .inr (.inr h)) .inl

lemma Flushing.kept {pages i} (h : A.Flushing s pages i r) (hk : A.Kept s t) :
    A.Flushing t pages i r := by
  rcases h with ⟨hdone, hpages⟩ | howed
  · exact .inl ⟨hk.done r hdone, fun page hp => (hpages page hp).imp_left (hk.onDisk r)⟩
  · refine (hk.owed i r howed).symm.imp_left fun hdone => ⟨hdone, ?_⟩
    simp [howed.page_eq_none]

lemma Flushing.flushPage {page pages i} (h : A.Flushing s pages i r) (hk : A.Kept s t)
    (hpage : page ∈ A.page → A.done s.mapMeta r → A.OnDisk t r) :
    A.Flushing t (pages.filter (· ≠ page)) i r := by
  rcases h with ⟨hdone, hpages⟩ | howed
  · refine .inl ⟨hk.done r hdone, fun p hp => ?_⟩
    by_cases heq : p = page
    · exact .inl (hpage (heq ▸ hp) hdone)
    · exact (hpages p hp).imp (hk.onDisk r) fun hmem => mem_filter.mpr ⟨hmem, by simpa using heq⟩
  · exact Flushing.kept (.inr howed) hk

/-- A backend that inserts a record goes on to provide what the record asks for. -/
lemma met_insert (hd : Disciplined s) (hpos : Positioned s)
    (hprog : (s.backends b).prog = .insert r :: rest) :
    A.Met (s.insertRecord b r rest) (fun _ => True) s.wal.length r := by
  have hp := hd.prog_cons hprog
  have hback : (s.insertRecord b r rest).backends b = { s.backends b with
      firstLsn := if (s.backends b).firstLsn = 0 then s.wal.length + 1
        else (s.backends b).firstLsn
      mapLsn := s.wal.length + 1
      prog := rest } := update_self ..
  rcases A.covers r rest hp.covers.1 with hdone | ⟨j, hj, hasks⟩ | ⟨j, hj, hl⟩
  · exact .inl (hdone _)
  · refine .inr (.inl ⟨b, trivial, ?_, j, ?_, hasks⟩)
    · rw [hback]
      exact hp.delay.1
    · rw [hback]
      exact hj
  · have hfirst := hpos.first_le b
    refine .inr (.inr ⟨b, ?_, ?_, j, ?_, hl⟩)
    · rw [hback]
      simp only
      split_ifs <;> omega
    · rw [hback]
      simp only
      split_ifs <;> omega
    · rw [hback]
      exact hj

/-! ### The invariant -/

namespace Balanced

theorem init (n : Nat) (A : Account) : A.Balanced (State.init n) where
  running _ i hi := absurd hi (Nat.not_lt_zero i)
  recovering := nofun
  waiting := nofun
  flushing := nofun
  flushed := nofun
  durable i hi := absurd hi (Nat.not_lt_zero i)

lemma crash (h : A.Balanced s) : A.Balanced s.crash where
  running := nofun
  recovering := by
    rintro pos hr
    cases hr
    exact h.durable.take
  waiting := nofun
  flushing := nofun
  flushed := nofun
  durable := h.durable.take

section

variable (h : A.Balanced s) (hpos : Positioned s) (hk : A.Kept s t)
include h hpos hk

lemma frame {l} (hwal : t.wal = s.wal ++ l)
    (hwait : ∀ redo delaying, t.ckpt = .waiting redo delaying → s.ckpt = .waiting redo delaying)
    (hflush : ∀ redo pages, t.ckpt = .flushing redo pages → ForallBefore (A.Flushing t pages) s.wal
      redo ∧ redo ≤ s.wal.length)
    (hflushed : ∀ redo, t.ckpt = .flushed redo → s.ckpt = .flushed redo)
    (hredo : t.redoPtr = s.redoPtr)
    (hrun : t.recovery = none → ForallBefore (A.Met t fun _ => True) t.wal t.wal.length)
    (hrec : ∀ pos, t.recovery = some pos → ForallBefore (fun _ => A.done t.mapMeta) t.wal pos) :
    A.Balanced t where
  running := hrun
  recovering := hrec
  waiting redo delaying hp := by
    have hs := hwait redo delaying hp
    rw [hwal]
    exact ((h.waiting redo delaying hs).imp fun _ _ _ hi => hi.kept hk).append
      (hpos.ckpt_le redo (hs ▸ rfl))
  flushing redo pages hp := by
    rw [hwal]
    exact (hflush redo pages hp).1.append (hflush redo pages hp).2
  flushed redo hp := by
    have hs := hflushed redo hp
    rw [hwal]
    exact ((h.flushed redo hs).imp fun _ _ r => hk.onDisk r).append (hpos.ckpt_le redo (hs ▸ rfl))
  durable := by
    rw [hwal, hredo]
    exact (h.durable.imp fun _ _ r => hk.onDisk r).append hpos.redo_le

lemma flushing_kept {redo pages} (hs : s.ckpt = .flushing redo pages) :
    ForallBefore (A.Flushing t pages) s.wal redo ∧ redo ≤ s.wal.length :=
  ⟨(h.flushing redo pages hs).imp fun _ _ _ hi => hi.kept hk, hpos.ckpt_le redo (hs ▸ rfl)⟩

/-- The log and what recovery has read of it stay as they are. -/
lemma same (hwal : t.wal = s.wal) (hckpt : t.ckpt = s.ckpt) (hredo : t.redoPtr = s.redoPtr)
    (hrec : t.recovery = s.recovery) : A.Balanced t := by
  refine h.frame hpos hk (by rw [hwal, append_nil]) (hckpt ▸ fun _ _ => id)
    (hckpt ▸ fun _ _ => h.flushing_kept hpos hk) (hckpt ▸ fun _ => id) hredo ?_ ?_
  · rw [hrec, hwal]
    exact fun hr => (h.running hr).imp fun _ _ _ hi => hi.kept hk
  · rw [hrec, hwal]
    exact fun pos hr => (h.recovering pos hr).imp fun _ _ r => hk.done r

omit hpos in
lemma running_concat (hrec : s.recovery = none)
    (hr : A.Met t (fun _ => True) s.wal.length r) :
    ForallBefore (A.Met t fun _ => True) (s.wal ++ [r]) (s.wal ++ [r]).length :=
  ((h.running hrec).imp fun _ _ _ hi => hi.kept hk).concat hr

lemma append (hwal : t.wal = s.wal ++ [r]) (hckpt : t.ckpt = s.ckpt) (hredo : t.redoPtr = s.redoPtr)
    (hnone : s.recovery = none) (hrec : t.recovery = none)
    (hr : A.Met t (fun _ => True) s.wal.length r) : A.Balanced t := by
  refine h.frame hpos hk hwal (hckpt ▸ fun _ _ => id)
    (hckpt ▸ fun _ _ => h.flushing_kept hpos hk) (hckpt ▸ fun _ => id) hredo (fun _ => ?_)
    fun pos hp => ?_
  · rw [hwal]
    exact h.running_concat hk hnone hr
  · rw [hrec] at hp
    cases hp

end

/-- Every step keeps the records seen to, if a page that is flushed takes what is on it to disk, if
what is not on disk is on a dirty page, and if no checkpoint overtakes a late action. -/
theorem step (h : A.Balanced s) (hd : Disciplined s) (hpos : Positioned s) (hm : Move s e t)
    (hkept : e ≠ .crash → A.Kept s t)
    (hpage : ∀ page, e = .flushPage page → page ∈ A.page → ∀ r, A.done s.mapMeta r → A.OnDisk t r)
    (hdirty : ∀ page ∈ A.page, ∀ r, A.done s.mapMeta r →
      A.OnDisk s r ∨ page ∈ s.mapMeta.dirtyPages)
    (hlate : ∀ redo, e = .ckptSuper → s.ckpt = .flushing redo [] → ∀ i < redo, ∀ r,
      A.Owed s i r → A.done s.mapMeta r)
    (hsuper : A.page = none → e = .ckptSuper → ∀ r, A.done s.mapMeta r → A.OnDisk t r)
    (hredo : ∀ pos r, (∃ materialized, e = .redo materialized) → s.recovery = some pos →
      s.wal[pos]? = some r → A.done t.mapMeta r) : A.Balanced t := by
  by_cases hcrash : e = .crash
  · subst hcrash
    cases hm with
    | crash => exact h.crash
    | start hrec hidle hbegin => cases hbegin
  have hk := hkept hcrash
  have hother : A.Met t (fun _ => True) s.wal.length .other := .inl (A.other _)
  cases hm with
  | insert hprog =>
    exact h.append hpos hk rfl rfl rfl (hd.recovery_eq_none hprog) (hd.recovery_eq_none hprog)
      (met_insert hd hpos hprog)
  | insertOther hrec => exact h.append hpos hk rfl rfl rfl hrec hrec hother
  | @flushPage page =>
    refine h.frame hpos hk (by rw [State.wal_flushPage, append_nil]) ?_ ?_ ?_
      (s.redoPtr_flushPage page) ?_ ?_
    · unfold State.flushPage
      cases s.ckpt <;> simp
    · intro redo pages hp
      unfold State.flushPage at hp
      cases hs : s.ckpt with
      | flushing redo' pages' =>
        rw [hs] at hp
        cases hp
        refine ⟨(h.flushing _ _ hs).imp fun i _ r hf => ?_, hpos.ckpt_le _ (hs ▸ rfl)⟩
        exact hf.flushPage hk fun hp => hpage page rfl hp r
      | _ => rw [hs] at hp; cases hp
    · unfold State.flushPage
      cases s.ckpt <;> simp
    · rw [State.recovery_flushPage, State.wal_flushPage]
      exact fun hr => (h.running hr).imp fun _ _ _ hi => hi.kept hk
    · rw [State.recovery_flushPage, State.wal_flushPage]
      exact fun pos hr => (h.recovering pos hr).imp fun _ _ r => hk.done r
  | flushSuper =>
    exact h.same hpos hk s.wal_flushSuper s.ckpt_flushSuper s.redoPtr_flushSuper
      s.recovery_flushSuper
  | ckptRedo hckpt hrec =>
    refine ⟨fun _ => h.running_concat hk hrec hother, fun pos hr => ?_, nofun, nofun, nofun,
      (h.durable.imp fun _ _ r => hk.onDisk r).append hpos.redo_le⟩
    rw [hrec] at hr
    cases hr
  | @ckptCollect redo hckpt =>
    refine ⟨h.running, h.recovering, ?_, nofun, nofun, h.durable⟩
    -- everyone inside a delay section is waited for
    intro redo' delaying hr
    cases hr
    have hrun := h.running (hpos.running (by simp [hckpt]))
    refine (hrun.mono (hpos.ckpt_le redo (by rw [hckpt]; rfl))).imp fun i _ r hi => ?_
    exact hi.imp_right (Or.imp_left fun ⟨b, _, hb⟩ =>
      ⟨b, mem_filter.mpr ⟨mem_finRange b, hb.1⟩, hb⟩)
  | @ckptWait redo delaying hckpt hdone =>
    refine ⟨h.running, h.recovering, nofun, ?_, nofun, h.durable⟩
    -- nobody waited for is still inside its delay section
    intro redo' pages hr
    cases hr
    refine (h.waiting redo delaying hckpt).imp fun i _ r hi => ?_
    rcases hi with hi | ⟨b, hb, hdelay, -⟩ | hi
    · exact .inl ⟨hi, fun page hp => hdirty page hp r hi⟩
    · rw [hdone b hb] at hdelay
      cases hdelay
    · exact .inr hi
  | @ckptSuper redo hckpt =>
    have h' : A.Balanced s.flushSuper := h.same hpos ⟨hk.done, hk.pending, hk.owed, hk.onDisk⟩
      s.wal_flushSuper s.ckpt_flushSuper s.redoPtr_flushSuper s.recovery_flushSuper
    refine { h' with waiting := nofun, flushing := nofun, flushed := fun redo' hr => ?_ }
    cases hr
    rw [show _ = s.wal from s.wal_flushSuper]
    refine (h.flushing redo [] hckpt).imp fun i hi r hf => ?_
    rcases hf with ⟨hdone, hpages⟩ | howed
    · cases hp : A.page with
      | none => exact hsuper hp rfl r hdone
      | some page => exact hk.onDisk r ((hpages page hp).resolve_right not_mem_nil)
    · exact hsuper howed.page_eq_none rfl r (hlate redo rfl hckpt i hi r howed)
  | @ckptDone redo hckpt =>
    have hrec : s.recovery = none := hpos.running (by simp [hckpt])
    refine ⟨fun _ => h.running_concat hk hrec hother, fun pos hr => ?_, nofun, nofun, nofun,
      (h.flushed redo hckpt).append (hpos.ckpt_le redo (by rw [hckpt]; rfl))⟩
    rw [show _ = none from hrec] at hr
    cases hr
  | crash => exact absurd rfl hcrash
  | @redo materialized pos r m hrec hr hred =>
    refine h.frame hpos hk (append_nil _).symm (fun _ _ => id)
      (fun _ _ => h.flushing_kept hpos hk) (fun _ => id) rfl nofun fun pos' hp => ?_
    cases hp
    refine ((h.recovering pos hrec).imp fun _ _ r => hk.done r).succ fun r' hr' => ?_
    exact hredo pos r' ⟨materialized, rfl⟩ hrec hr'
  | localBirth hrec haux hmap ht =>
    obtain ⟨p, -, rfl⟩ := Option.map_eq_some_iff.mp ht
    exact h.same hpos hk rfl rfl rfl rfl
  | endRecovery hrec =>
    refine { h with running := fun _ => ?_, recovering := nofun }
    exact (h.recovering _ hrec).imp fun _ _ _ => .inl
  | _ => exact h.same hpos hk rfl rfl rfl rfl

end Balanced

end Account

end Umbra
