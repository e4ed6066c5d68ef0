import Umbra.Foundation.System
import Umbra.Map.Superblock

/-!
# The checksum of the superblock

The shared entry of a relation keeps a copy of the superblock sector whose checksum is refreshed
when the copy is written, not when it is changed; flags say whether the copy can be trusted. The
disk is arbitrary to begin with, and can be damaged at any time.
-/

namespace Umbra.SuperblockCrc

open Foundation Function Option

variable {x : Sector} {inRecovery : Bool} {mapLsn : Nat} {fork : ForkNumber}

def mapSuperblockMagic : Nat := 0x554D4252

def mapSuperblockVersion : Nat := 1

def blcksz : Nat := 8192

structure Contents where
  magic : Nat
  version : Nat
  blcksz : Nat
  /-- `MAP_SUPERBLOCK_FLAG_SKIP_WAL_PENDING` is the one flag there is. -/
  skipWalPending : Bool
  /-- The counters and `last_updated_lsn`. -/
  super : MapSuperblock

structure Sector where
  contents : Contents
  crc : UInt32

inductive ReadStatus
  | ok
  | corrupt
  deriving DecidableEq

namespace Sector

/-- `MapSuperblockInit`. -/
def init : Sector where
  contents := ⟨mapSuperblockMagic, mapSuperblockVersion, SuperblockCrc.blcksz, false, .init⟩
  crc := 0

def hasValidIdentity (x : Sector) : Bool :=
  x.contents.magic = mapSuperblockMagic ∧ x.contents.version = mapSuperblockVersion ∧
    x.contents.blcksz = SuperblockCrc.blcksz

def setLastUpdatedLsn (x : Sector) (lsn : Nat) : Sector :=
  { x with contents := { x.contents with super :=
    { x.contents.super with lastUpdatedLsn := lsn } } }

def store (x : Sector) (fork : ForkNumber) (c : ForkCounts) (lsn : Nat) : Sector :=
  { x with contents := { x.contents with super := x.contents.super.setCounts fork c lsn } }

variable (crc32c : Contents → UInt32)

def refreshCrc (x : Sector) : Sector := { x with crc := crc32c x.contents }

def checkCrc (x : Sector) : Bool := crc32c x.contents = x.crc

def load (x : Sector) : ReadStatus :=
  if x.hasValidIdentity ∧ x.checkCrc crc32c then .ok else .corrupt

end Sector

structure Entry where
  super : Sector
  pageLsn : Nat
  /-- `MAPSUPER_FLAG_VALID`. -/
  valid : Bool
  /-- `MAPSUPER_FLAG_DIRTY`. -/
  dirty : Bool
  corrupt : Bool

/-- The changes that go through `MapSuperPrepareEntryForUpdate`. A bump is to one more than the
number of a block. -/
inductive Update
  | bumpLogical (fork : ForkNumber) (blkno : Nat)
  | setLogical (fork : ForkNumber) (nblocks : Nat)
  | bumpNextFree (fork : ForkNumber) (blkno : Nat)
  /-- `MapSBlockBumpPhysicalNblocks`. -/
  | bumpCapacity (fork : ForkNumber) (blkno : Nat)
  | bumpPhysicalState (fork : ForkNumber) (blkno : Nat)
  | setSkipWalPending (pending : Bool)
  | ensurePhysical (fork : ForkNumber) (nblocks : Nat)

namespace Entry

def fresh : Entry where
  super := ⟨⟨0, 0, 0, false, ⟨fun _ => ⟨some 0, some 0, some 0⟩, 0⟩⟩, 0⟩
  pageLsn := invalidXLogRecPtr
  valid := false
  dirty := false
  corrupt := false

def install (e : Entry) (status : ReadStatus) (x : Sector) : Entry :=
  if e.valid then e
  else
    match status with
    | .ok => ⟨x, x.contents.super.lastUpdatedLsn, true, false, false⟩
    | .corrupt => ⟨.init, invalidXLogRecPtr, true, false, true⟩

def create (lsn : Nat) : Entry := ⟨Sector.init.setLastUpdatedLsn lsn, lsn, true, true, false⟩

def store (e : Entry) (fork : ForkNumber) (c : ForkCounts) (lsn : Nat) : Entry :=
  { e with super := e.super.store fork c lsn, pageLsn := lsn, dirty := true }

def counts (e : Entry) (fork : ForkNumber) : ForkCounts := e.super.contents.super.counts fork

def updateLogicalNblocks (e : Entry) (fork : ForkNumber) (nblocks lsn : Nat) (bumpOnly : Bool) :
    Entry :=
  if !bumpOnly ∨ e.super.contents.super.logical fork < nblocks then
    e.store fork { e.counts fork with logicalNblocks := some nblocks } lsn
  else e

def bumpPhysicalState (e : Entry) (fork : ForkNumber) (nblocks lsn : Nat)
    (bumpNextFree bumpCapacity : Bool) : Entry :=
  let next := bumpNextFree ∧ e.super.contents.super.nextFree fork < nblocks
  let capacity := bumpCapacity ∧ e.super.contents.super.capacity fork < nblocks
  if next ∨ capacity then
    e.store fork { e.counts fork with
      nextFreePhysBlock := if next then some nblocks else (e.counts fork).nextFreePhysBlock
      physCapacity := if capacity then some nblocks else (e.counts fork).physCapacity } lsn
  else e

def setPendingFlag (e : Entry) (pending : Bool) (lsn : Nat) : Entry :=
  if pending = e.super.contents.skipWalPending then e
  else
    { e with
      super := Sector.setLastUpdatedLsn
        { e.super with contents := { e.super.contents with skipWalPending := pending } } lsn
      pageLsn := lsn
      dirty := true }

variable (crc32c : Contents → UInt32)

/-- `MapSuperPrepareEntryForUpdate` on an entry of the table; `none` is its error. -/
def prepare (e : Entry) (inRecovery : Bool) (mapLsn : Nat) : Option Entry :=
  if e.corrupt ∨ ¬ e.super.hasValidIdentity ∨ (¬ e.dirty ∧ ¬ e.super.checkCrc crc32c) then
    if ¬ inRecovery ∨ mapLsn = invalidXLogRecPtr then none
    else some { e with super := .init, valid := true, dirty := false, corrupt := false }
  else some e

def update (e : Entry) (inRecovery : Bool) (mapLsn now : Nat) : Update → Option Entry
  | .bumpLogical fork blkno =>
    (e.prepare crc32c inRecovery mapLsn).map
      (·.updateLogicalNblocks fork (blkno + 1) (lsnOr mapLsn now) true)
  | .setLogical fork nblocks =>
    (e.prepare crc32c inRecovery mapLsn).map
      (·.updateLogicalNblocks fork nblocks (lsnOr mapLsn now) false)
  | .bumpNextFree fork blkno =>
    (e.prepare crc32c inRecovery mapLsn).map
      (·.bumpPhysicalState fork (blkno + 1) (lsnOr mapLsn now) true false)
  | .bumpCapacity fork blkno =>
    (e.prepare crc32c inRecovery mapLsn).map
      (·.bumpPhysicalState fork (blkno + 1) (lsnOr mapLsn now) false true)
  | .bumpPhysicalState fork blkno =>
    (e.prepare crc32c inRecovery mapLsn).map
      (·.bumpPhysicalState fork (blkno + 1) (lsnOr mapLsn now) true true)
  -- the callers of these two pass no LSN
  | .setSkipWalPending pending =>
    (e.prepare crc32c inRecovery invalidXLogRecPtr).map (·.setPendingFlag pending now)
  | .ensurePhysical fork nblocks =>
    (e.prepare crc32c inRecovery invalidXLogRecPtr).map
      (·.bumpPhysicalState fork nblocks now false true)
where
  lsnOr (mapLsn now : Nat) : Nat := if mapLsn = invalidXLogRecPtr then now else mapLsn

/-- The update at the end of `MapMaybePreallocateFork`, which does not look at the checksum. -/
def preallocate (e : Entry) (fork : ForkNumber) (nblocks now : Nat) : Entry :=
  if e.valid ∧ e.super.contents.super.capacity fork < nblocks then
    e.store fork { e.counts fork with physCapacity := some nblocks } now
  else e

def flushed (e : Entry) : Sector := (e.super.setLastUpdatedLsn e.pageLsn).refreshCrc crc32c

end Entry

inductive Local
  | idle
  | loaded (status : ReadStatus) (x : Sector)
  | creating (x : Sector)

structure State (ι : Type*) where
  entry : Option Entry
  disk : Option Sector
  locals : ι → Local
  written : List Sector

def init {ι : Type*} (disk : Option Sector) : State ι := ⟨none, disk, fun _ => .idle, []⟩

inductive Event (ι : Type*)
  | load (p : ι)
  | install (p : ι)
  | create (p : ι) (lsn : Nat)
  | writeCreated (p : ι)
  | update (inRecovery : Bool) (mapLsn now : Nat) (u : Update)
  | preallocate (fork : ForkNumber) (nblocks now : Nat)
  | flush
  | failFlush
  /-- `MapSuperDeleteEntry`. -/
  | invalidate
  | unlink
  | damage (x : Sector)
  | restart

namespace State

variable {ι : Type*} [DecidableEq ι]

def setLocal (s : State ι) (p : ι) (l : Local) : State ι :=
  { s with locals := update s.locals p l }

def write (s : State ι) (x : Sector) : State ι :=
  { s with disk := some x, written := x :: s.written }

end State

def machine (ι : Type*) [DecidableEq ι] (crc32c : Contents → UInt32) :
    System (State ι) (Event ι) where
  step s
    | .load p =>
      match s.locals p, s.entry, s.disk with
      | .idle, none, some x => some (s.setLocal p (.loaded (x.load crc32c) x))
      | .idle, some e, some x =>
        if e.valid then none else some (s.setLocal p (.loaded (x.load crc32c) x))
      | _, _, _ => none
    | .install p =>
      match s.locals p with
      | .loaded status x =>
        some { s.setLocal p .idle with entry := some ((s.entry.getD .fresh).install status x) }
      | _ => none
    | .create p lsn =>
      match s.locals p with
      | .idle =>
        some { s.setLocal p (.creating (Entry.create lsn).super) with entry := some (.create lsn) }
      | _ => none
    | .writeCreated p =>
      match s.locals p with
      | .creating x => some ((s.setLocal p .idle).write (x.refreshCrc crc32c))
      | _ => none
    | .update inRecovery mapLsn now u =>
      s.entry.bind fun e => (e.update crc32c inRecovery mapLsn now u).map fun e' =>
        { s with entry := some e' }
    | .preallocate fork nblocks now =>
      s.entry.map fun e => { s with entry := some (e.preallocate fork nblocks now) }
    | .flush =>
      s.entry.bind fun e =>
        if e.dirty ∧ e.super.hasValidIdentity then
          some { s.write (e.flushed crc32c) with
            entry := some { e with super := e.flushed crc32c, dirty := false } }
        else none
    | .failFlush =>
      s.entry.bind fun e =>
        if e.dirty ∧ e.super.hasValidIdentity then
          some { s with entry := some { e with super := e.flushed crc32c } }
        else none
    | .invalidate => some { s with entry := none }
    | .unlink => some { s with disk := none }
    | .damage x => some { s with disk := some x }
    | .restart => some { s with entry := none, locals := fun _ => .idle }

/-! ## Which copies can be trusted -/

section Trusted

variable {crc32c : Contents → UInt32}

/-- A copy that is neither dirty nor known to be corrupt has the checksum of its contents. -/
def Entry.Trusted (crc32c : Contents → UInt32) (e : Entry) : Prop :=
  e.valid = true → e.corrupt = false → e.dirty = false → e.super.checkCrc crc32c = true

def Local.Trusted (crc32c : Contents → UInt32) : Local → Prop
  | .idle => True
  | .loaded status x => status = .ok → x.checkCrc crc32c = true
  | .creating x => x.hasValidIdentity = true

lemma Sector.checkCrc_refreshCrc (x : Sector) : (x.refreshCrc crc32c).checkCrc crc32c = true :=
  decide_eq_true rfl

lemma Sector.load_refreshCrc (h : x.hasValidIdentity = true) :
    (x.refreshCrc crc32c).load crc32c = .ok :=
  if_pos ⟨h, checkCrc_refreshCrc x⟩

lemma Sector.checkCrc_of_load (h : x.load crc32c = .ok) : x.checkCrc crc32c = true := by
  rw [load] at h
  split_ifs at h with hx
  exact hx.2

namespace Entry

variable {e e' : Entry} {nblocks : Nat} {next capacity : Bool}

lemma trusted_of_dirty (h : e.dirty = true) : e.Trusted crc32c := by
  intro _ _ hclean
  rw [h] at hclean
  cases hclean

lemma trusted_install (he : e.Trusted crc32c) {status}
    (hx : status = .ok → x.checkCrc crc32c = true) : (e.install status x).Trusted crc32c := by
  by_cases hvalid : e.valid
  · simp only [install, hvalid, if_true]
    exact he
  · simp only [install, hvalid]
    cases status with
    | ok => exact fun _ _ _ => hx rfl
    | corrupt => exact fun _ hcorrupt _ => nomatch hcorrupt

lemma prepare_eq_some (h : e.prepare crc32c inRecovery mapLsn = some e') :
    e' = e ∨ (mapLsn ≠ invalidXLogRecPtr ∧ e'.super = .init) := by
  rw [prepare] at h
  split_ifs at h with hbad hno
  · cases h
    exact .inr ⟨fun hlsn => hno (.inr hlsn), rfl⟩
  · cases h
    exact .inl rfl

lemma trusted_of_prepare (he : e.Trusted crc32c) (h : e.prepare crc32c inRecovery mapLsn = some e')
    {f : Entry → Entry} (hkeep : (f e').dirty = true ∨ f e' = e')
    (hinit : mapLsn ≠ invalidXLogRecPtr → e'.super = .init → (f e').dirty = true) :
    (f e').Trusted crc32c := by
  rcases prepare_eq_some h with rfl | ⟨hlsn, hsuper⟩
  · rcases hkeep with hdirty | hsame
    · exact trusted_of_dirty hdirty
    · rw [hsame]
      exact he
  · exact trusted_of_dirty (hinit hlsn hsuper)

lemma updateLogicalNblocks_keep (e : Entry) (fork : ForkNumber) (nblocks lsn : Nat)
    (bumpOnly : Bool) : (e.updateLogicalNblocks fork nblocks lsn bumpOnly).dirty = true ∨
      e.updateLogicalNblocks fork nblocks lsn bumpOnly = e := by
  rw [updateLogicalNblocks]
  split_ifs
  · exact .inl rfl
  · exact .inr rfl

lemma updateLogicalNblocks_dirty (lsn : Nat) (bumpOnly : Bool)
    (h : e.super.contents.super.logical fork < nblocks) :
    (e.updateLogicalNblocks fork nblocks lsn bumpOnly).dirty = true := by
  rw [updateLogicalNblocks, if_pos (.inr h)]
  rfl

lemma bumpPhysicalState_keep (e : Entry) (fork : ForkNumber) (nblocks lsn : Nat)
    (next capacity : Bool) : (e.bumpPhysicalState fork nblocks lsn next capacity).dirty = true ∨
      e.bumpPhysicalState fork nblocks lsn next capacity = e := by
  rw [bumpPhysicalState]
  split
  · exact .inl rfl
  · exact .inr rfl

lemma bumpPhysicalState_dirty (lsn : Nat) (hnext : e.super.contents.super.nextFree fork < nblocks)
    (hcapacity : e.super.contents.super.capacity fork < nblocks)
    (h : next = true ∨ capacity = true) :
    (e.bumpPhysicalState fork nblocks lsn next capacity).dirty = true := by
  have hsome : (next = true ∧ e.super.contents.super.nextFree fork < nblocks) ∨
      (capacity = true ∧ e.super.contents.super.capacity fork < nblocks) :=
    h.imp (⟨·, hnext⟩) (⟨·, hcapacity⟩)
  rw [bumpPhysicalState, if_pos hsome]
  rfl

lemma setPendingFlag_keep (e : Entry) (pending : Bool) (lsn : Nat) :
    (e.setPendingFlag pending lsn).dirty = true ∨ e.setPendingFlag pending lsn = e := by
  rw [setPendingFlag]
  split_ifs
  · exact .inr rfl
  · exact .inl rfl

lemma counts_lt_of_init (h : e.super = .init) (fork blkno) :
    e.super.contents.super.logical fork < blkno + 1 ∧
      e.super.contents.super.nextFree fork < blkno + 1 ∧
      e.super.contents.super.capacity fork < blkno + 1 := by
  rw [h]
  cases fork <;> exact ⟨Nat.succ_pos _, Nat.succ_pos _, Nat.succ_pos _⟩

lemma trusted_bumpPhysicalState {lsn blkno} (he : e.Trusted crc32c)
    (h : e.prepare crc32c inRecovery mapLsn = some e') (hbump : next = true ∨ capacity = true) :
    (e'.bumpPhysicalState fork (blkno + 1) lsn next capacity).Trusted crc32c := by
  refine trusted_of_prepare he h (f := (·.bumpPhysicalState fork (blkno + 1) lsn next capacity))
    (bumpPhysicalState_keep ..) fun _ hsuper => ?_
  obtain ⟨-, hnext, hcapacity⟩ := counts_lt_of_init hsuper fork blkno
  exact bumpPhysicalState_dirty lsn hnext hcapacity hbump

lemma trusted_update {now u} (he : e.Trusted crc32c)
    (h : e.update crc32c inRecovery mapLsn now u = some e') : e'.Trusted crc32c := by
  cases u with
  | bumpLogical fork blkno =>
    obtain ⟨e₁, hprepare, rfl⟩ := map_eq_some_iff.mp h
    refine trusted_of_prepare he hprepare
      (f := (·.updateLogicalNblocks fork (blkno + 1) (update.lsnOr mapLsn now) true))
      (updateLogicalNblocks_keep ..) fun _ hsuper => ?_
    exact updateLogicalNblocks_dirty _ _ (counts_lt_of_init hsuper fork blkno).1
  | setLogical =>
    obtain ⟨e₁, hprepare, rfl⟩ := map_eq_some_iff.mp h
    exact trusted_of_dirty rfl
  | bumpNextFree | bumpPhysicalState =>
    obtain ⟨e₁, hprepare, rfl⟩ := map_eq_some_iff.mp h
    exact trusted_bumpPhysicalState he hprepare (.inl rfl)
  | bumpCapacity =>
    obtain ⟨e₁, hprepare, rfl⟩ := map_eq_some_iff.mp h
    exact trusted_bumpPhysicalState he hprepare (.inr rfl)
  | setSkipWalPending pending =>
    obtain ⟨e₁, hprepare, rfl⟩ := map_eq_some_iff.mp h
    exact trusted_of_prepare he hprepare (f := (·.setPendingFlag pending now))
      (setPendingFlag_keep ..) fun hlsn => absurd rfl hlsn
  | ensurePhysical fork nblocks =>
    obtain ⟨e₁, hprepare, rfl⟩ := map_eq_some_iff.mp h
    exact trusted_of_prepare he hprepare (f := (·.bumpPhysicalState fork nblocks now false true))
      (bumpPhysicalState_keep ..) fun hlsn => absurd rfl hlsn

lemma trusted_preallocate (he : e.Trusted crc32c) (fork nblocks now) :
    (e.preallocate fork nblocks now).Trusted crc32c := by
  rw [preallocate]
  split_ifs
  · exact trusted_of_dirty rfl
  · exact he

lemma trusted_fresh : fresh.Trusted crc32c := nofun

end Entry

/-! ## Every run -/

variable {ι : Type*} [DecidableEq ι]

/-- Whatever is trusted or written has the checksum of its contents. -/
structure Sound (crc32c : Contents → UInt32) (s : State ι) : Prop where
  entry (e : Entry) : s.entry = some e → e.Trusted crc32c
  locals (p : ι) : (s.locals p).Trusted crc32c
  written (x : Sector) : x ∈ s.written → x.load crc32c = .ok

namespace Sound

variable {s t : State ι} {p : ι}

omit [DecidableEq ι] in
lemma init (disk) : Sound crc32c (init disk : State ι) where
  entry _ h := nomatch h
  locals _ := trivial
  written _ h := nomatch h

variable (hs : Sound crc32c s)
include hs

lemma setLocal {l} (hl : l.Trusted crc32c) : Sound crc32c (s.setLocal p l) where
  entry := hs.entry
  locals q := by
    show (update s.locals p l q).Trusted crc32c
    rcases eq_or_ne q p with rfl | hq
    · rw [update_self]
      exact hl
    · rw [update_of_ne hq]
      exact hs.locals q
  written := hs.written

omit [DecidableEq ι] in
lemma setEntry {e} (he : e.Trusted crc32c) : Sound crc32c { s with entry := some e } where
  entry e' h := by
    cases h
    exact he
  locals := hs.locals
  written := hs.written

omit [DecidableEq ι] in
lemma write (hx : x.load crc32c = .ok) : Sound crc32c (s.write x) where
  entry := hs.entry
  locals := hs.locals
  written y hy := by
    rcases List.mem_cons.mp hy with rfl | hy
    · exact hx
    · exact hs.written y hy

lemma step {ev} (h : (machine ι crc32c).step s ev = some t) : Sound crc32c t := by
  cases ev with
  | load =>
    simp only [machine] at h
    split at h
    · cases h
      exact hs.setLocal fun hok => Sector.checkCrc_of_load hok
    · obtain ⟨-, h⟩ := ite_none_left_eq_some.mp h
      cases h
      exact hs.setLocal fun hok => Sector.checkCrc_of_load hok
    · cases h
  | install p =>
    simp only [machine] at h
    split at h
    next status x hlocal =>
      cases h
      have hx : status = .ok → x.checkCrc crc32c = true := by
        have := hs.locals p
        rwa [hlocal] at this
      have hold : (s.entry.getD .fresh).Trusted crc32c := by
        cases hentry : s.entry with
        | none => exact Entry.trusted_fresh
        | some e => exact hs.entry e hentry
      exact (hs.setLocal (p := p) (l := .idle) trivial).setEntry (Entry.trusted_install hold hx)
    next => cases h
  | create p lsn =>
    simp only [machine] at h
    split at h
    · cases h
      exact (hs.setLocal (p := p) (l := .creating (Entry.create lsn).super) rfl).setEntry
        (Entry.trusted_of_dirty rfl)
    · cases h
  | writeCreated p =>
    simp only [machine] at h
    split at h
    next x hlocal =>
      cases h
      have hx : x.hasValidIdentity = true := by
        have := hs.locals p
        rwa [hlocal] at this
      exact (hs.setLocal (p := p) (l := .idle) trivial).write (Sector.load_refreshCrc hx)
    next => cases h
  | update =>
    obtain ⟨e, hentry, h⟩ := bind_eq_some_iff.mp h
    obtain ⟨e', hupdate, rfl⟩ := map_eq_some_iff.mp h
    exact hs.setEntry (Entry.trusted_update (hs.entry e hentry) hupdate)
  | preallocate fork nblocks now =>
    obtain ⟨e, hentry, rfl⟩ := map_eq_some_iff.mp h
    exact hs.setEntry (Entry.trusted_preallocate (hs.entry e hentry) fork nblocks now)
  | flush =>
    obtain ⟨e, hentry, h⟩ := bind_eq_some_iff.mp h
    obtain ⟨⟨-, hidentity⟩, rfl⟩ := guard_eq_some h
    have hclean : Entry.Trusted crc32c { e with super := e.flushed crc32c, dirty := false } :=
      fun _ _ _ => Sector.checkCrc_refreshCrc _
    have hload : (e.flushed crc32c).load crc32c = .ok :=
      Sector.load_refreshCrc (x := e.super.setLastUpdatedLsn e.pageLsn) hidentity
    exact (hs.write hload).setEntry hclean
  | failFlush =>
    obtain ⟨e, hentry, h⟩ := bind_eq_some_iff.mp h
    obtain ⟨⟨hdirty, -⟩, rfl⟩ := guard_eq_some h
    exact hs.setEntry (Entry.trusted_of_dirty hdirty)
  | invalidate =>
    cases h
    exact ⟨nofun, hs.locals, hs.written⟩
  | unlink =>
    cases h
    exact { hs with }
  | damage =>
    cases h
    exact { hs with }
  | restart =>
    cases h
    exact ⟨nofun, fun _ => trivial, hs.written⟩

end Sound

/-- An entry that is valid, not corrupt and not dirty has the checksum of its contents, and every
sector that was written is accepted when it is read back. -/
theorem crc_of_reachable {disk : Option Sector} {s : State ι}
    (h : (machine ι crc32c).Reachable (SuperblockCrc.init disk) s) :
    (∀ e, s.entry = some e → e.valid = true → e.corrupt = false → e.dirty = false →
      e.super.checkCrc crc32c = true) ∧
      ∀ x ∈ s.written, x.load crc32c = .ok := by
  have hs : Sound crc32c s := h.invariant (.init disk) fun hs _ hstep => hs.step hstep
  exact ⟨hs.entry, hs.written⟩

end Trusted

def sampleCrc (c : Contents) : UInt32 :=
  .ofNat (c.super.lastUpdatedLsn * 100 + c.super.logical .main)

def rebuilt (p : ι) : List (Event ι) :=
  [.load p, .install p, .update true 7 7 (.bumpLogical .main 3), .flush, .invalidate, .load p,
    .install p]

theorem crc_of_reachable_rebuilt :
    ∃ s : State (Fin 1), (machine (Fin 1) sampleCrc).Reachable
      (init (some ⟨Sector.init.contents, 5⟩)) s ∧
      (s.entry.map fun e => (e.valid, e.corrupt, e.dirty)) = some (true, false, false) ∧
      s.written.length = 1 ∧
      (∀ e, s.entry = some e → e.valid = true → e.corrupt = false → e.dirty = false →
        e.super.checkCrc sampleCrc = true) ∧
      ∀ x ∈ s.written, x.load sampleCrc = .ok := by
  have h : (machine (Fin 1) sampleCrc).Reachable (init (some ⟨Sector.init.contents, 5⟩))
      ((machine (Fin 1) sampleCrc).after (init (some ⟨Sector.init.contents, 5⟩)) (rebuilt 0)) :=
    .of_isSome (by decide)
  exact ⟨_, h, by decide, by decide, crc_of_reachable h⟩

end Umbra.SuperblockCrc
