import Umbra.Foundation.System
import Umbra.Map.Address

/-!
# Copying a relation

`RelationCopyStorage` copies a relation block by block into a destination that has a MAP of its own.
Then `umcopyrelationmetadata` writes the metadata file of the source over that of the destination,
behind the back of the MAP cache.
-/

namespace Umbra.RelationCopy

open Foundation Function Option

inductive RawPage
  | zero
  | entries (e : Nat → Option Nat)

def RawPage.entry : RawPage → Nat → Option Nat
  | .zero, _ => none
  | .entries e, i => e i

/-- How far the flush of a cached page is. From `written` on the flush holds the buffer lock. -/
inductive FlushStage
  | none
  | started
  | written
  deriving DecidableEq, Repr

structure CachedPage where
  entries : Nat → Option Nat
  dirty : Bool
  justDirtied : Bool
  io : FlushStage

/-- The source: the caller holds it locked, so its mapping and its pages stay as they are. -/
structure Source (α : Type) where
  nblocks : ForkNumber → Nat
  mapping : BlockKey → Nat
  data : ForkNumber → Nat → α

namespace Source

variable {α : Type} (src : Source α)

def page (k : BlockKey) : α := src.data k.1 (src.mapping k)

def blocks : List BlockKey :=
  [ForkNumber.main, .fsm, .vm].flatMap fun fork => (List.range (src.nblocks fork)).map (fork, ·)

def mapPage (b : Nat) : RawPage :=
  match mapDecodeMapBlkno b with
  | some (fork, idx) => .entries fun i =>
      if idx * mapEntriesPerPage + i < src.nblocks fork then
        some (src.mapping (fork, idx * mapEntriesPerPage + i))
      else none
  | none => .zero

end Source

inductive Pc
  | publish (todo : List BlockKey)
  | bump (k : BlockKey) (todo : List BlockKey)
  | write (k : BlockKey) (todo : List BlockKey)
  | readRaw (blkno srcNblocks : Nat)
  | writeRaw (blkno srcNblocks : Nat) (pagebuf : RawPage)
  | done

structure State (α : Type) where
  pc : Pc
  cache : Nat → Option CachedPage
  disk : Nat → RawPage
  mapNblocks : Nat
  logical : ForkNumber → Nat
  nextFree : ForkNumber → Nat
  data : ForkNumber → Nat → Option α
  srcDisk : Nat → RawPage
  srcMapNblocks : Nat
  /-- The mapping as it was published; the code does not read it. -/
  own : BlockKey → Option Nat

inductive Event
  | publish
  /-- `MapSBlockBumpLogicalNblocks`. -/
  | bump
  | write
  | startMetadata
  | readRaw
  | writeRaw
  | read (k : BlockKey)
  /-- `MapStartBufferIO`. -/
  | flushStart (b : Nat)
  | flushWrite (b : Nat)
  /-- `MapTerminateBufferIO`. -/
  | flushEnd (b : Nat)
  | evict (b : Nat)
  | flushSource (b : Nat)

variable {α : Type} {e : Event} {page : RawPage} {pc : Pc}

namespace State

def withinLogicalRange (s : State α) (b : Nat) : Bool :=
  match mapDecodeMapBlkno b with
  | some (fork, idx) => idx * mapEntriesPerPage < s.logical fork
  | none => false

/-- What `MapReadBuffer` loads for a page that is not cached; `none` is its error for a page of
zeros inside the logical range. -/
def load (s : State α) (b : Nat) : Option (Nat → Option Nat) :=
  if b < s.mapNblocks ∧ s.withinLogicalRange b then
    match s.disk b with
    | .zero => none
    | .entries e => some e
  else some fun _ => none

def entries (s : State α) (b : Nat) : Option (Nat → Option Nat) :=
  match s.cache b with
  | some c => some c.entries
  | none => s.load b

def setCached (s : State α) (b : Nat) (c : Option CachedPage) : State α :=
  { s with cache := update s.cache b c }

/-- `MapReadBuffer`: the page is in the cache afterwards. -/
def readBuffer (s : State α) (b : Nat) : Option (State α) :=
  match s.cache b with
  | some _ => some s
  | none => (s.load b).map fun e =>
      s.setCached b (some { entries := e, dirty := false, justDirtied := false, io := .none })

def lookup (s : State α) (k : BlockKey) : Option Nat := do
  let (b, i) ← mapInflightDecode k.1 k.2
  let e ← s.entries b
  e i

def read (s : State α) (k : BlockKey) : Option α := (s.lookup k).bind (s.data k.1)

/-- The body of `MapSetMapping` on a page that is in the cache and whose lock is free. -/
def setMapping (s : State α) (b i pblk : Nat) : Option (State α) :=
  match s.cache b with
  | some c =>
    if c.io = .written then none
    else
      some (s.setCached b (some { c with
        entries := update c.entries i (some pblk)
        dirty := true
        justDirtied := true }))
  | none => none

def writeDisk (s : State α) (b : Nat) (page : RawPage) : State α :=
  { s with disk := update s.disk b page, mapNblocks := max s.mapNblocks (b + 1) }

end State

def step (src : Source α) (s : State α) : Event → Option (State α)
  | .publish =>
    match s.pc with
    | .publish (k :: todo) => do
      let (b, i) ← mapInflightDecode k.1 k.2
      let t ← s.readBuffer b
      let u ← t.setMapping b i (s.nextFree k.1)
      some { u with
        pc := .bump k todo
        nextFree := update s.nextFree k.1 (s.nextFree k.1 + 1)
        own := update s.own k (some (s.nextFree k.1)) }
    | _ => none
  | .bump =>
    match s.pc with
    | .bump k todo => some { s with
        pc := .write k todo
        logical := update s.logical k.1 (max (s.logical k.1) (k.2 + 1)) }
    | _ => none
  | .write =>
    match s.pc with
    | .write k todo => do
      let (b, _) ← mapInflightDecode k.1 k.2
      let t ← s.readBuffer b
      let pblk ← s.lookup k
      some { t with
        pc := .publish todo
        data := update s.data k.1 (update (s.data k.1) pblk (some (src.page k))) }
    | _ => none
  | .startMetadata =>
    match s.pc with
    | .publish [] => some { s with pc := .readRaw 0 s.srcMapNblocks }
    | _ => none
  | .readRaw =>
    match s.pc with
    | .readRaw blkno srcNblocks =>
      if blkno < srcNblocks then
        some { s with pc := .writeRaw blkno srcNblocks (s.srcDisk blkno) }
      else some { s with pc := .done }
    | _ => none
  | .writeRaw =>
    match s.pc with
    | .writeRaw blkno srcNblocks pagebuf =>
      some { s.writeDisk blkno pagebuf with pc := .readRaw (blkno + 1) srcNblocks }
    | _ => none
  | .read k =>
    match s.pc with
    | .done => (mapInflightDecode k.1 k.2).bind fun a => s.readBuffer a.1
    | _ => none
  | .flushStart b =>
    match s.cache b with
    | some c =>
      if c.dirty = true ∧ c.io = .none then
        some (s.setCached b (some { c with justDirtied := false, io := .started }))
      else none
    | none => none
  | .flushWrite b =>
    match s.cache b with
    | some c =>
      if c.io = .started then
        some ((s.writeDisk b (.entries c.entries)).setCached b (some { c with io := .written }))
      else none
    | none => none
  | .flushEnd b =>
    match s.cache b with
    | some c =>
      if c.io = .written then
        some (s.setCached b (some { c with dirty := c.justDirtied, io := .none }))
      else none
    | none => none
  | .evict b =>
    match s.cache b with
    | some c => if c.dirty = false ∧ c.io = .none then some (s.setCached b none) else none
    | none => none
  | .flushSource b =>
    some { s with
      srcDisk := update s.srcDisk b (src.mapPage b)
      srcMapNblocks := max s.srcMapNblocks (b + 1) }

def machine (src : Source α) : System (State α) Event where
  step := step src

/-- A fresh destination whose metadata file holds only the superblock; the metadata file of the
source holds anything. -/
def init (src : Source α) (srcDisk : Nat → RawPage) (srcMapNblocks : Nat) : State α where
  pc := .publish src.blocks
  cache _ := none
  disk _ := .zero
  mapNblocks := 1
  logical _ := 0
  nextFree _ := 0
  data _ _ := none
  srcDisk := srcDisk
  srcMapNblocks := srcMapNblocks
  own _ := none

/-! ### Steps -/

def Resident (s : State α) (b : Nat) (c : CachedPage) : Prop :=
  s.cache b = some c ∨
    s.cache b = none ∧ c.dirty = false ∧ c.io = .none ∧ s.load b = some c.entries

lemma State.readBuffer_eq_some {s t : State α} {b : Nat} (h : s.readBuffer b = some t) :
    ∃ c, Resident s b c ∧ t = s.setCached b (some c) := by
  unfold State.readBuffer at h
  split at h
  next c hc =>
    cases h
    refine ⟨c, .inl hc, ?_⟩
    rw [State.setCached, ← hc, update_eq_self]
  next hc =>
    obtain ⟨e, he, rfl⟩ := map_eq_some_iff.mp h
    exact ⟨_, .inr ⟨hc, rfl, rfl, he⟩, rfl⟩

lemma State.setMapping_eq_some {s u : State α} {b i pblk : Nat} {c : CachedPage}
    (h : (s.setCached b (some c)).setMapping b i pblk = some u) :
    c.io ≠ .written ∧ u = s.setCached b (some { c with
      entries := update c.entries i (some pblk), dirty := true, justDirtied := true }) := by
  simp only [State.setMapping, State.setCached, update_self,
    ite_none_left_eq_some, update_idem] at h
  refine ⟨h.1, ?_⟩
  cases h.2
  rfl

inductive Move (src : Source α) (s : State α) : Event → State α → Prop
  | publish (k : BlockKey) (todo : List BlockKey) (b i : Nat) (c : CachedPage)
      (hpc : s.pc = .publish (k :: todo)) (haddr : mapInflightDecode k.1 k.2 = some (b, i))
      (hc : Resident s b c) (hio : c.io ≠ .written) :
      Move src s .publish { s.setCached b (some { c with
          entries := update c.entries i (some (s.nextFree k.1))
          dirty := true
          justDirtied := true }) with
        pc := .bump k todo
        nextFree := update s.nextFree k.1 (s.nextFree k.1 + 1)
        own := update s.own k (some (s.nextFree k.1)) }
  | bump (k : BlockKey) (todo : List BlockKey) (hpc : s.pc = .bump k todo) :
      Move src s .bump { s with
        pc := .write k todo
        logical := update s.logical k.1 (max (s.logical k.1) (k.2 + 1)) }
  | write (k : BlockKey) (todo : List BlockKey) (b : Nat) (c : CachedPage) (pblk : Nat)
      (hpc : s.pc = .write k todo) (hc : Resident s b c) (hlookup : s.lookup k = some pblk) :
      Move src s .write { s.setCached b (some c) with
        pc := .publish todo
        data := update s.data k.1 (update (s.data k.1) pblk (some (src.page k))) }
  | startMetadata (hpc : s.pc = .publish []) :
      Move src s .startMetadata { s with pc := .readRaw 0 s.srcMapNblocks }
  | readRaw (blkno srcNblocks : Nat) (hpc : s.pc = .readRaw blkno srcNblocks) :
      Move src s .readRaw { s with pc := .writeRaw blkno srcNblocks (s.srcDisk blkno) }
  | endRaw (blkno srcNblocks : Nat) (hpc : s.pc = .readRaw blkno srcNblocks) :
      Move src s .readRaw { s with pc := .done }
  | writeRaw (blkno srcNblocks : Nat) (pagebuf : RawPage)
      (hpc : s.pc = .writeRaw blkno srcNblocks pagebuf) :
      Move src s .writeRaw
        { s.writeDisk blkno pagebuf with pc := .readRaw (blkno + 1) srcNblocks }
  | read (k : BlockKey) (b : Nat) (c : CachedPage) (hpc : s.pc = .done) (hc : Resident s b c) :
      Move src s (.read k) (s.setCached b (some c))
  | flushStart (b : Nat) (c : CachedPage) (hc : s.cache b = some c) (hdirty : c.dirty = true)
      (hio : c.io = .none) :
      Move src s (.flushStart b)
        (s.setCached b (some { c with justDirtied := false, io := .started }))
  | flushWrite (b : Nat) (c : CachedPage) (hc : s.cache b = some c) (hio : c.io = .started) :
      Move src s (.flushWrite b)
        ((s.writeDisk b (.entries c.entries)).setCached b (some { c with io := .written }))
  | flushEnd (b : Nat) (c : CachedPage) (hc : s.cache b = some c) (hio : c.io = .written) :
      Move src s (.flushEnd b)
        (s.setCached b (some { c with dirty := c.justDirtied, io := .none }))
  | evict (b : Nat) (c : CachedPage) (hc : s.cache b = some c) (hdirty : c.dirty = false) :
      Move src s (.evict b) (s.setCached b none)
  | flushSource (b : Nat) :
      Move src s (.flushSource b) { s with
        srcDisk := update s.srcDisk b (src.mapPage b)
        srcMapNblocks := max s.srcMapNblocks (b + 1) }

lemma Move.of_step {src : Source α} {s t : State α} (h : (machine src).step s e = some t) :
    Move src s e t := by
  cases e <;> simp only [machine, step] at h
  case publish =>
    split at h
    next k todo hpc =>
      obtain ⟨⟨b, i⟩, haddr, h⟩ := bind_eq_some_iff.mp h
      obtain ⟨t₁, ht₁, h⟩ := bind_eq_some_iff.mp h
      obtain ⟨t₂, ht₂, h⟩ := bind_eq_some_iff.mp h
      obtain ⟨c, hc, rfl⟩ := State.readBuffer_eq_some ht₁
      obtain ⟨hio, rfl⟩ := State.setMapping_eq_some ht₂
      cases h
      exact .publish k todo b i c hpc haddr hc hio
    next => cases h
  case write =>
    split at h
    next k todo hpc =>
      obtain ⟨⟨b, i⟩, -, h⟩ := bind_eq_some_iff.mp h
      obtain ⟨t₁, ht₁, h⟩ := bind_eq_some_iff.mp h
      obtain ⟨pblk, hlookup, h⟩ := bind_eq_some_iff.mp h
      obtain ⟨c, hc, rfl⟩ := State.readBuffer_eq_some ht₁
      cases h
      exact .write k todo b c pblk hpc hc hlookup
    next => cases h
  case readRaw =>
    split at h
    next blkno srcNblocks hpc =>
      split at h
      next =>
        cases h
        exact .readRaw blkno srcNblocks hpc
      next =>
        cases h
        exact .endRaw blkno srcNblocks hpc
    next => cases h
  case read k =>
    split at h
    next hpc =>
      obtain ⟨⟨b, i⟩, -, h⟩ := bind_eq_some_iff.mp h
      obtain ⟨c, hc, rfl⟩ := State.readBuffer_eq_some h
      exact .read k b c hpc hc
    next => cases h
  case flushSource b =>
    cases h
    exact .flushSource b
  case bump =>
    split at h
    next k todo hpc =>
      cases h
      exact .bump k todo hpc
    next => cases h
  case startMetadata =>
    split at h
    next hpc =>
      cases h
      exact .startMetadata hpc
    next => cases h
  case writeRaw =>
    split at h
    next blkno srcNblocks pagebuf hpc =>
      cases h
      exact .writeRaw blkno srcNblocks pagebuf hpc
    next => cases h
  -- the events on a cached page: the page, then the guard
  all_goals
    split at h
    next c hc =>
      obtain ⟨hguard, rfl⟩ := guard_eq_some h
      first
        | exact .flushStart _ c hc hguard.1 hguard.2
        | exact .flushWrite _ c hc hguard
        | exact .flushEnd _ c hc hguard
        | exact .evict _ c hc hguard.1
    next => cases h

/-! ### One entry on its page -/

def CachedPage.Synced (c : CachedPage) : Prop :=
  c.dirty = false ∨ c.io = .written ∧ c.justDirtied = false

/-- The cached MAP page has the entry, and so has the disk once that page is written. -/
structure EntryOk (s : State α) (b i pblk : Nat) : Prop where
  cached : ∀ c, s.cache b = some c → c.entries i = some pblk
  onDisk : (∀ c, s.cache b = some c → c.Synced) →
    b < s.mapNblocks ∧ (s.disk b).entry i = some pblk

section EntryOk

variable {s : State α} {b b' i pblk : Nat}

lemma EntryOk.of_frame {t : State α} (h : EntryOk s b i pblk) (hcache : t.cache = s.cache)
    (hdisk : t.disk = s.disk) (hmap : t.mapNblocks = s.mapNblocks) : EntryOk t b i pblk := by
  refine ⟨?_, ?_⟩
  · rw [hcache]
    exact h.cached
  · rw [hcache, hdisk, hmap]
    exact h.onDisk

lemma EntryOk.setCached_of_ne (h : EntryOk s b i pblk) (hne : b ≠ b') (c) :
    EntryOk (s.setCached b' c) b i pblk := by
  have hcache : (s.setCached b' c).cache b = s.cache b := update_of_ne hne ..
  refine ⟨fun c' hc' => h.cached c' (hcache ▸ hc'), fun hs => h.onDisk fun c' hc' => ?_⟩
  exact hs c' (hcache ▸ hc')

variable {c : CachedPage} {k : BlockKey}

lemma EntryOk.of_setCached (hentry : c.entries i = some pblk)
    (hdisk : c.Synced → b < s.mapNblocks ∧ (s.disk b).entry i = some pblk) :
    EntryOk (s.setCached b (some c)) b i pblk := by
  have hcache : (s.setCached b (some c)).cache b = some c := update_self ..
  refine ⟨fun c' hc' => ?_, fun hs => hdisk (hs c hcache)⟩
  cases hcache.symm.trans hc'
  exact hentry

lemma EntryOk.setCached (h : EntryOk s b i pblk) (hc : b = b' → c.entries i = some pblk ∧
      (c.Synced → b < s.mapNblocks ∧ (s.disk b).entry i = some pblk)) :
    EntryOk (s.setCached b' (some c)) b i pblk := by
  rcases eq_or_ne b b' with rfl | hne
  · exact .of_setCached (hc rfl).1 (hc rfl).2
  · exact h.setCached_of_ne hne _

lemma EntryOk.evict (h : EntryOk s b i pblk) (hc : s.cache b' = some c)
    (hdirty : c.dirty = false) : EntryOk (s.setCached b' none) b i pblk := by
  rcases eq_or_ne b b' with rfl | hne
  · have hcache : (s.setCached b none).cache b = none := update_self ..
    refine ⟨fun c' hc' => ?_, fun _ => h.onDisk fun c' hc' => ?_⟩
    · rw [hcache] at hc'
      cases hc'
    · cases hc.symm.trans hc'
      exact .inl hdirty
  · exact h.setCached_of_ne hne _

lemma EntryOk.writeDisk (h : EntryOk s b i pblk)
    (hpage : b = b' → (∃ c, s.cache b = some c ∧ ¬ c.Synced) ∨ page.entry i = some pblk) :
    EntryOk (s.writeDisk b' page) b i pblk := by
  refine ⟨h.cached, fun hs => ?_⟩
  rcases eq_or_ne b b' with rfl | hne
  · rcases hpage rfl with ⟨c, hc, hnot⟩ | hentry
    · exact absurd (hs c hc) hnot
    · refine ⟨Nat.lt_of_lt_of_le b.lt_succ_self (Nat.le_max_right ..), ?_⟩
      rw [show (s.writeDisk b page).disk b = page from update_self ..]
      exact hentry
  · obtain ⟨hlt, hentry⟩ := h.onDisk hs
    refine ⟨Nat.lt_of_lt_of_le hlt (Nat.le_max_left ..), ?_⟩
    rw [show (s.writeDisk b' page).disk b = s.disk b from update_of_ne hne ..]
    exact hentry

lemma State.withinLogicalRange_of_lt (haddr : mapInflightDecode k.1 k.2 = some (b, i))
    (hlt : k.2 < s.logical k.1) : s.withinLogicalRange b = true := by
  rw [(mapInflightDecode_eq_some haddr).1, State.withinLogicalRange,
    mapDecodeMapBlkno_mapForkPagePosition]
  exact decide_eq_true (Nat.lt_of_le_of_lt (Nat.div_mul_le_self ..) hlt)

variable (h : EntryOk s b i pblk) (haddr : mapInflightDecode k.1 k.2 = some (b, i))
  (hlt : k.2 < s.logical k.1)
include h haddr hlt

lemma EntryOk.resident (hc : Resident s b c) : c.entries i = some pblk ∧
      (c.Synced → b < s.mapNblocks ∧ (s.disk b).entry i = some pblk) := by
  rcases hc with hc | ⟨hnone, -, -, hload⟩
  · refine ⟨h.cached c hc, fun hs => h.onDisk fun c' hc' => ?_⟩
    cases hc.symm.trans hc'
    exact hs
  · have hdisk := h.onDisk fun c' hc' => absurd (hnone.symm.trans hc') nofun
    refine ⟨?_, fun _ => hdisk⟩
    rw [State.load, if_pos ⟨hdisk.1, State.withinLogicalRange_of_lt haddr hlt⟩] at hload
    cases hd : s.disk b with
    | zero =>
      rw [hd] at hload
      cases hload
    | entries =>
      rw [hd] at hload hdisk
      cases hload
      exact hdisk.2

lemma EntryOk.lookup : s.lookup k = some pblk := by
  have hentries : (s.entries b).bind (· i) = some pblk := by
    unfold State.entries
    cases hc : s.cache b with
    | some c => exact h.cached c hc
    | none =>
      have hdisk := h.onDisk fun c' hc' => absurd (hc.symm.trans hc') nofun
      rw [State.load, if_pos ⟨hdisk.1, State.withinLogicalRange_of_lt haddr hlt⟩]
      revert hdisk
      cases s.disk b with
      | zero => exact fun hdisk => absurd hdisk.2 nofun
      | entries => exact fun hdisk => hdisk.2
  rw [State.lookup, haddr]
  exact hentries

end EntryOk

lemma address_injective {k k' : BlockKey} {a : Nat × Nat} (h : mapInflightDecode k.1 k.2 = some a)
    (h' : mapInflightDecode k'.1 k'.2 = some a) : k = k' := by
  have hfork : k.1 = k'.1 := by
    have hdec := mapDecodeMapBlkno_mapForkPagePosition k.1 (k.2 / mapEntriesPerPage)
    rw [← (mapInflightDecode_eq_some h).1, (mapInflightDecode_eq_some h').1,
      mapDecodeMapBlkno_mapForkPagePosition] at hdec
    exact (congrArg Prod.fst (Option.some.inj hdec)).symm
  rw [hfork] at h
  exact Prod.ext hfork (mapInflightDecode_injective h h')

/-! ### The invariant -/

def Pc.unpublished : Pc → List BlockKey
  | .publish todo | .bump _ todo | .write _ todo => todo
  | _ => []

def Pc.unwritten : Pc → List BlockKey
  | .publish todo => todo
  | .bump k todo | .write k todo => k :: todo
  | _ => []

def Pc.current : Pc → Option BlockKey
  | .bump k _ | .write k _ => some k
  | _ => none

def State.coveredNblocks (s : State α) (fork : ForkNumber) : Nat :=
  match s.pc with
  | .bump k _ => if k.1 = fork then max (s.logical fork) (k.2 + 1) else s.logical fork
  | _ => s.logical fork

def Pc.pastBlocks : Pc → Bool
  | .publish [] | .readRaw .. | .writeRaw .. | .done => true
  | _ => false

lemma Pc.nil_of_pastBlocks (h : pc.pastBlocks = true) :
    pc.unpublished = [] ∧ pc.unwritten = [] ∧ pc.current = none := by
  unfold Pc.pastBlocks at h
  split at h <;> first | exact ⟨rfl, rfl, rfl⟩ | cases h

lemma Pc.ne_bump_of_pastBlocks (h : pc.pastBlocks = true) (k todo) : pc ≠ .bump k todo := by
  rintro rfl
  cases h

lemma State.coveredNblocks_of_pastBlocks {s : State α} (h : s.pc.pastBlocks = true) (fork) :
    s.coveredNblocks fork = s.logical fork := by
  unfold State.coveredNblocks
  split
  next k todo hpc => exact absurd hpc (Pc.ne_bump_of_pastBlocks h k todo)
  next => rfl

structure Allotted (own : BlockKey → Option Nat) (nextFree : ForkNumber → Nat) : Prop where
  fresh : ∀ k pblk, own k = some pblk → pblk < nextFree k.1
  injective : ∀ k k' pblk, own k = some pblk → own k' = some pblk → k.1 = k'.1 → k = k'

/-- Each block of the source is on its way or mapped, alone, to a page with its contents. -/
structure Kept (src : Source α) (s : State α) : Prop where
  published : ∀ k ∈ src.blocks, s.own k = none → k ∈ s.pc.unpublished
  current : ∀ k, s.pc.current = some k → ∃ pblk, s.own k = some pblk
  todo : ∀ k ∈ s.pc.unwritten, k ∈ src.blocks
  mem : ∀ k pblk, s.own k = some pblk → k ∈ src.blocks
  allotted : Allotted s.own s.nextFree
  covered : ∀ k pblk, s.own k = some pblk → k.2 < s.coveredNblocks k.1
  entry : ∀ k pblk, s.own k = some pblk →
    ∃ b i, mapInflightDecode k.1 k.2 = some (b, i) ∧ EntryOk s b i pblk
  written : ∀ k pblk, s.own k = some pblk → k ∉ s.pc.unwritten →
    s.data k.1 pblk = some (src.page k)

lemma kept_init (src : Source α) (srcDisk : Nat → RawPage) (srcMapNblocks : Nat) :
    Kept src (init src srcDisk srcMapNblocks) where
  published _ hk _ := hk
  current := nofun
  todo _ hk := hk
  mem := nofun
  allotted := ⟨nofun, nofun⟩
  covered := nofun
  entry := nofun
  written := nofun

lemma Kept.of_entries {src : Source α} {s t : State α} (h : Kept src s)
    (hpub : t.pc.unpublished = s.pc.unpublished) (hwr : t.pc.unwritten = s.pc.unwritten)
    (hcur : t.pc.current = s.pc.current) (hcov : t.coveredNblocks = s.coveredNblocks)
    (hown : t.own = s.own) (hfree : t.nextFree = s.nextFree) (hdata : t.data = s.data)
    (hentry : ∀ k b i pblk, s.own k = some pblk → mapInflightDecode k.1 k.2 = some (b, i) →
      EntryOk s b i pblk → EntryOk t b i pblk) : Kept src t where
  published := by
    rw [hpub, hown]
    exact h.published
  current := by
    rw [hcur, hown]
    exact h.current
  todo := by
    rw [hwr]
    exact h.todo
  mem := by
    rw [hown]
    exact h.mem
  allotted := by
    rw [hown, hfree]
    exact h.allotted
  covered := by
    rw [hown, hcov]
    exact h.covered
  entry := by
    rw [hown]
    intro k pblk hk
    obtain ⟨b, i, haddr, hok⟩ := h.entry k pblk hk
    exact ⟨b, i, haddr, hentry k b i pblk hk haddr hok⟩
  written := by
    rw [hown, hwr, hdata]
    exact h.written

variable {src : Source α} {s t : State α} {b pblk : Nat} {c : CachedPage} {k : BlockKey}
  {todo : List BlockKey}

section

variable (h : Kept src s)
include h

lemma Kept.setCached
    (hc : ∀ k i pblk, s.own k = some pblk → mapInflightDecode k.1 k.2 = some (b, i) → EntryOk s b i
      pblk → c.entries i = some pblk ∧ (c.Synced → b < s.mapNblocks ∧ (s.disk b).entry i = some
      pblk)) : Kept src (s.setCached b (some c)) := by
  refine h.of_entries rfl rfl rfl rfl rfl rfl rfl ?_
  intro k b' i pblk hk haddr hok
  refine hok.setCached ?_
  rintro rfl
  exact hc k i pblk hk haddr hok

lemma Kept.lt_logical (hk : s.own k = some pblk) (hpc : ∀ k' todo, s.pc ≠ .bump k' todo) :
    k.2 < s.logical k.1 := by
  have hlt := h.covered k pblk hk
  unfold State.coveredNblocks at hlt
  split at hlt
  next k' todo heq => exact absurd heq (hpc k' todo)
  next => exact hlt

lemma Kept.lookup (hk : s.own k = some pblk) (hpc : ∀ k' todo, s.pc ≠ .bump k' todo) :
    s.lookup k = some pblk := by
  obtain ⟨b, i, haddr, hok⟩ := h.entry k pblk hk
  exact hok.lookup haddr (h.lt_logical hk hpc)

lemma Kept.readBuffer (hc : Resident s b c) (hpc : ∀ k' todo, s.pc ≠ .bump k' todo) :
    Kept src (s.setCached b (some c)) :=
  h.setCached fun _ _ _ hk haddr hok => hok.resident haddr (h.lt_logical hk hpc) hc

lemma Kept.setPc (hold : s.pc.pastBlocks = true) (hnew : pc.pastBlocks = true) :
    Kept src { s with pc := pc } := by
  obtain ⟨hpub, hwr, hcur⟩ := Pc.nil_of_pastBlocks hold
  obtain ⟨hpub', hwr', hcur'⟩ := Pc.nil_of_pastBlocks hnew
  refine h.of_entries (hpub'.trans hpub.symm) (hwr'.trans hwr.symm) (hcur'.trans hcur.symm) ?_
    rfl rfl rfl fun _ _ _ _ _ _ hok => hok.of_frame rfl rfl rfl
  funext fork
  rw [State.coveredNblocks_of_pastBlocks hold, State.coveredNblocks_of_pastBlocks hnew]

end

lemma Allotted.publish {own nextFree} (h : Allotted own nextFree) (k) :
    Allotted (update own k (some (nextFree k.1)))
      (update nextFree k.1 (nextFree k.1 + 1)) where
  fresh k' pblk hk' := by
    rcases update_some_cases hk' with ⟨rfl, rfl⟩ | ⟨-, hk'⟩
    · rw [update_self]
      exact Nat.lt_succ_self _
    · have hlt := h.fresh k' pblk hk'
      rcases eq_or_ne k'.1 k.1 with hfork | hfork
      · rw [hfork] at hlt ⊢
        rw [update_self]
        exact Nat.lt_succ_of_lt hlt
      · rwa [update_of_ne hfork]
  injective k₁ k₂ pblk h₁ h₂ hfork := by
    rcases update_some_cases h₁ with ⟨rfl, rfl⟩ | ⟨-, hold₁⟩ <;>
      rcases update_some_cases h₂ with ⟨rfl, heq⟩ | ⟨-, hold₂⟩
    · rfl
    · exact absurd (h.fresh k₂ _ hold₂) (by rw [hfork]; exact Nat.lt_irrefl _)
    · rw [heq] at hold₁
      exact absurd (h.fresh k₁ _ hold₁) (by rw [hfork]; exact Nat.lt_irrefl _)
    · exact h.injective k₁ k₂ pblk hold₁ hold₂ hfork

lemma Kept.publish (h : Kept src s) {i} (hpc : s.pc = .publish (k :: todo))
    (haddr : mapInflightDecode k.1 k.2 = some (b, i)) (hc : Resident s b c) :
    Kept src { s.setCached b (some { c with
        entries := update c.entries i (some (s.nextFree k.1))
        dirty := true
        justDirtied := true }) with
      pc := .bump k todo
      nextFree := update s.nextFree k.1 (s.nextFree k.1 + 1)
      own := update s.own k (some (s.nextFree k.1)) } := by
  have hnobump : ∀ k' todo, s.pc ≠ .bump k' todo := by
    rw [hpc]
    nofun
  have htodo : ∀ k' ∈ k :: todo, k' ∈ src.blocks := by
    have := h.todo
    rwa [hpc] at this
  -- the page is dirty and not written yet, so nothing is asked of the disk
  have hunsynced : ∀ e : Nat → Option Nat,
      ¬ ({ c with entries := e, dirty := true, justDirtied := true } : CachedPage).Synced := by
    rintro e (h | ⟨-, h⟩)
    · cases h
    · cases h
  exact {
    published := by
      intro k' hk' hnone
      rcases eq_or_ne k' k with rfl | hne
      · exact absurd ((update_self k' _ s.own).symm.trans hnone) nofun
      · have hin := h.published k' hk' ((update_of_ne hne _ s.own).symm.trans hnone)
        rw [hpc] at hin
        exact (List.mem_cons.mp hin).resolve_left hne
    current := by
      rintro _ ⟨⟩
      exact ⟨_, update_self ..⟩
    todo := htodo
    mem := by
      intro k' pblk hk'
      rcases update_some_cases hk' with ⟨rfl, -⟩ | ⟨-, hk'⟩
      · exact htodo k' (List.mem_cons_self ..)
      · exact h.mem k' pblk hk'
    allotted := h.allotted.publish k
    covered := by
      intro k' pblk hk'
      show k'.2 < if k.1 = k'.1 then max (s.logical k'.1) (k.2 + 1) else s.logical k'.1
      rcases update_some_cases hk' with ⟨rfl, -⟩ | ⟨-, hk'⟩
      · rw [if_pos rfl]
        exact Nat.lt_of_lt_of_le (Nat.lt_succ_self _) (Nat.le_max_right ..)
      · have hlt := h.lt_logical hk' hnobump
        split
        · exact Nat.lt_of_lt_of_le hlt (Nat.le_max_left ..)
        · exact hlt
    entry := by
      intro k' pblk hk'
      rcases update_some_cases hk' with ⟨rfl, rfl⟩ | ⟨hne, hold⟩
      · refine ⟨b, i, haddr, EntryOk.of_frame (EntryOk.of_setCached ?_ ?_) rfl rfl rfl⟩
        · exact update_self ..
        · exact fun hsync => absurd hsync (hunsynced _)
      · obtain ⟨b', i', haddr', hok⟩ := h.entry k' pblk hold
        refine ⟨b', i', haddr', EntryOk.of_frame (hok.setCached ?_) rfl rfl rfl⟩
        rintro rfl
        have hi : i' ≠ i := by
          rintro rfl
          exact hne (address_injective haddr' haddr)
        have hentry := (hok.resident haddr' (h.lt_logical hold hnobump) hc).1
        exact ⟨(update_of_ne hi ..).trans hentry, fun hsync => absurd hsync (hunsynced _)⟩
    written := by
      intro k' pblk hk' hnot
      rcases update_some_cases hk' with ⟨rfl, -⟩ | ⟨-, hk'⟩
      · exact absurd (List.mem_cons_self ..) hnot
      · refine h.written k' pblk hk' ?_
        rw [hpc]
        exact hnot }

lemma Kept.bump (h : Kept src s) (hpc : s.pc = .bump k todo) :
    Kept src { s with
      pc := .write k todo
      logical := update s.logical k.1 (max (s.logical k.1) (k.2 + 1)) } := by
  refine h.of_entries (by rw [hpc]; rfl) (by rw [hpc]; rfl) (by rw [hpc]; rfl) ?_ rfl rfl rfl
    fun _ _ _ _ _ _ hok => hok.of_frame rfl rfl rfl
  funext fork
  rw [State.coveredNblocks.eq_def s, hpc]
  show update s.logical k.1 (max (s.logical k.1) (k.2 + 1)) fork = _
  rcases eq_or_ne fork k.1 with rfl | hne
  · rw [update_self]
    exact (if_pos rfl).symm
  · rw [update_of_ne hne]
    exact (if_neg hne.symm).symm

lemma Kept.write (h : Kept src s) (hpc : s.pc = .write k todo)
    (hown : s.own k = some pblk) : Kept src { s with
      pc := .publish todo
      data := update s.data k.1
        (update (s.data k.1) pblk (some (src.page k))) }where
  published k' hk' hnone := by
    have hin := h.published k' hk' hnone
    rwa [hpc] at hin
  current := nofun
  todo k' hk' := by
    apply h.todo
    rw [hpc]
    exact List.mem_cons_of_mem _ hk'
  mem := h.mem
  allotted := h.allotted
  covered k' pblk' hk' := h.lt_logical hk' (by rw [hpc]; nofun)
  entry k' pblk' hk' := by
    obtain ⟨b, i, haddr, hok⟩ := h.entry k' pblk' hk'
    exact ⟨b, i, haddr, hok.of_frame rfl rfl rfl⟩
  written k' pblk' hk' hnot := by
    show update s.data k.1 _ k'.1 pblk' = _
    rcases eq_or_ne k' k with rfl | hne
    · cases hown.symm.trans hk'
      rw [update_self, update_self]
    · have hold : s.data k'.1 pblk' = some (src.page k') := by
        refine h.written k' pblk' hk' ?_
        rw [hpc]
        exact List.not_mem_cons_of_ne_of_not_mem hne hnot
      rcases eq_or_ne k'.1 k.1 with hfork | hfork
      · have hp : pblk' ≠ pblk := by
          rintro rfl
          exact hne (h.allotted.injective k' k pblk' hk' hown hfork)
        rw [hfork, update_self, update_of_ne hp, ← hfork]
        exact hold
      · rwa [update_of_ne hfork]

/-! ### Reading the copy -/

/-- The cached page is dirty and has not been written by a flush under way, or the raw page has the
blocks of the copy. -/
def RawWriteHarmless (src : Source α) (s : State α) : Event → Prop
  | .writeRaw =>
    match s.pc with
    | .writeRaw b _ page =>
      (s.cache b).any (fun c => c.dirty && c.io ≠ .written) ∨
        ∀ k ∈ src.blocks, (mapInflightDecode k.1 k.2).all fun a =>
          a.1 ≠ b || page.entry a.2 = s.lookup k
    | _ => True
  | _ => True

instance (src : Source α) (s : State α) (e : Event) : Decidable (RawWriteHarmless src s e) := by
  unfold RawWriteHarmless
  split
  · split <;> infer_instance
  · infer_instance

lemma Kept.writeRaw (h : Kept src s) {srcNblocks} (hpc : s.pc = .writeRaw b srcNblocks page)
    (hok : RawWriteHarmless src s .writeRaw) :
    Kept src { s.writeDisk b page with pc := .readRaw (b + 1) srcNblocks } := by
  have hpast : s.pc.pastBlocks = true := by
    rw [hpc]
    rfl
  suffices Kept src (s.writeDisk b page) from this.setPc hpast rfl
  refine h.of_entries rfl rfl rfl rfl rfl rfl rfl ?_
  intro k b' i pblk hk haddr hentry
  refine hentry.writeDisk ?_
  rintro rfl
  simp only [RawWriteHarmless, hpc] at hok
  rcases hok with hdirty | hsame
  · left
    cases hc : s.cache b' with
    | none =>
      rw [hc] at hdirty
      cases hdirty
    | some c =>
      rw [hc, any_some, Bool.and_eq_true, decide_eq_true_eq] at hdirty
      refine ⟨c, rfl, ?_⟩
      rintro (hclean | ⟨hwritten, -⟩)
      · exact absurd (hdirty.1.symm.trans hclean) nofun
      · exact hdirty.2 hwritten
  · right
    have hraw := hsame k (h.mem k pblk hk)
    rw [haddr, all_some] at hraw
    have hlookup : s.lookup k = some pblk := h.lookup hk (Pc.ne_bump_of_pastBlocks hpast)
    simpa [hlookup] using hraw

lemma Kept.flushWrite (h : Kept src s) (hc : s.cache b = some c) :
    Kept src
    ((s.writeDisk b (.entries c.entries)).setCached b (some { c with io := .written })) := by
  have hdisk : Kept src (s.writeDisk b (.entries c.entries)) := by
    refine h.of_entries rfl rfl rfl rfl rfl rfl rfl ?_
    intro k b' i pblk hk haddr hok
    refine hok.writeDisk ?_
    rintro rfl
    exact .inr (hok.cached c hc)
  refine hdisk.setCached ?_
  intro k i pblk hk haddr hok
  refine ⟨hok.cached c hc, fun _ => ⟨Nat.lt_of_lt_of_le b.lt_succ_self (Nat.le_max_right ..), ?_⟩⟩
  rw [show (s.writeDisk b (.entries c.entries)).disk b = .entries c.entries from update_self ..]
  exact hok.cached c hc

lemma Kept.step (h : Kept src s) (hok : RawWriteHarmless src s e)
    (hstep : (machine src).step s e = some t) : Kept src t := by
  cases Move.of_step hstep with
  | publish k todo b i c hpc haddr hc => exact h.publish hpc haddr hc
  | bump k todo hpc => exact h.bump hpc
  | write k todo b c pblk hpc hc hlookup =>
    have hnobump : ∀ k' todo, s.pc ≠ .bump k' todo := by
      rw [hpc]
      nofun
    obtain ⟨pblk', hown⟩ := h.current k (by rw [hpc]; rfl)
    cases (h.lookup hown hnobump).symm.trans hlookup
    exact (h.readBuffer hc hnobump).write (s := s.setCached b (some c)) hpc hown
  | startMetadata hpc | readRaw blkno srcNblocks hpc | endRaw blkno srcNblocks hpc =>
    exact h.setPc (by rw [hpc]; rfl) rfl
  | writeRaw blkno srcNblocks pagebuf hpc => exact h.writeRaw hpc hok
  | read k b c hpc hc => exact h.readBuffer hc (by rw [hpc]; nofun)
  | flushStart b c hc hdirty =>
    refine h.setCached fun k i pblk _ _ hentry => ⟨hentry.cached c hc, ?_⟩
    rintro (hclean | ⟨hwritten, -⟩)
    · exact absurd (hdirty.symm.trans hclean) nofun
    · cases hwritten
  | flushWrite b c hc => exact h.flushWrite hc
  | flushEnd b c hc hio =>
    refine h.setCached fun k i pblk _ _ hentry => ⟨hentry.cached c hc, ?_⟩
    rintro (hclean | ⟨hwritten, -⟩)
    · refine hentry.onDisk fun c' hc' => ?_
      cases hc.symm.trans hc'
      exact .inr ⟨hio, hclean⟩
    · cases hwritten
  | evict b c hc hdirty =>
    exact h.of_entries rfl rfl rfl rfl rfl rfl rfl fun _ _ _ _ _ _ hentry => hentry.evict hc hdirty
  | flushSource =>
    exact h.of_entries rfl rfl rfl rfl rfl rfl rfl
      fun _ _ _ _ _ _ hentry => hentry.of_frame rfl rfl rfl

/-- After the copy every read of a block of the destination returns the page of the source, in
every run whose raw writes lose nothing. -/
theorem read_returns_source_page {src : Source α} {srcDisk : Nat → RawPage} {srcMapNblocks : Nat}
    {s : State α}
    (h : (machine src).Reaches (RawWriteHarmless src) (init src srcDisk srcMapNblocks) s)
    (hdone : s.pc = .done) : ∀ k ∈ src.blocks, s.read k = some (src.page k) := by
  have hkept : Kept src s := h.invariant (kept_init src srcDisk srcMapNblocks) Kept.step
  intro k hk
  cases hown : s.own k with
  | none =>
    have hin := hkept.published k hk hown
    rw [hdone] at hin
    cases hin
  | some pblk =>
    have hlookup : s.lookup k = some pblk := hkept.lookup hown (by rw [hdone]; nofun)
    rw [State.read, hlookup]
    exact hkept.written k pblk hown (by rw [hdone]; nofun)

def crossedSource : Source Nat where
  nblocks fork := if fork = .main then 2 else 0
  mapping k := 1 - k.2
  data _ pblk := pblk

def copyBlocks : List Event :=
  [.publish, .bump, .write, .publish, .bump, .write]

def flushMainPage : List Event :=
  [.flushStart 3, .flushWrite 3, .flushEnd 3]

def copyMetadata : List Event :=
  [.startMetadata, .readRaw, .writeRaw, .readRaw, .writeRaw, .readRaw, .writeRaw, .readRaw,
   .writeRaw, .readRaw]

theorem read_returns_source_page_dirty :
    let M := (machine crossedSource).restrict (RawWriteHarmless crossedSource)
    let s := M.after (init crossedSource crossedSource.mapPage 4)
      (copyBlocks ++ copyMetadata ++ flushMainPage ++ [.evict 3])
    s.pc = .done ∧ ∀ k ∈ crossedSource.blocks, s.read k = some (crossedSource.page k) :=
  ⟨by rfl, read_returns_source_page (System.Reaches.of_isSome (by decide)) (by rfl)⟩

/-- The flushed MAP page is overwritten and leaves the cache: both blocks are read from the wrong
place. -/
theorem copy_reads_crossed :
    let events := copyBlocks ++ flushMainPage ++ copyMetadata ++ [.evict 3, .read (.main, 0)]
    ((machine crossedSource).run (init crossedSource crossedSource.mapPage 4) events).isSome ∧
      let s := (machine crossedSource).after (init crossedSource crossedSource.mapPage 4) events
      s.pc = .done ∧
        (s.read (.main, 0), s.read (.main, 1)) =
          (some (crossedSource.page (.main, 1)), some (crossedSource.page (.main, 0))) ∧
        crossedSource.page (.main, 0) ≠ crossedSource.page (.main, 1) :=
  ⟨by decide, by rfl, by decide, by decide⟩

end Umbra.RelationCopy
