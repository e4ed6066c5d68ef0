import Umbra.Cache.Word
import Umbra.Foundation.System
import Umbra.Map.Address

/-!
# The MAP cache

A hash table leads from the tag of a MAP page to its buffer; `MapReadBuffer` finds the buffer or
replaces the page of a victim of the clock sweep, publications change a page under the exclusive
buffer lock and mark it dirty, and flushes write it out. Each step of a process is one atomic
operation or one critical section.
-/

namespace Umbra.Cache

open Foundation Function

abbrev PageTag (ρ : Type) := ρ × MapPageId

def PageTag.position {ρ : Type} (tag : PageTag ρ) : Nat := mapForkPagePosition tag.2.1 tag.2.2

/-- A block of a metadata file. Blocks behind the end of the file count as zero. -/
inductive DiskPage
  | zero
  | entries (e : Nat → Option Nat)

def DiskPage.mapping : DiskPage → Nat → Option Nat
  | .zero, _ => none
  | .entries e, idx => e idx

def DiskPage.isZero : DiskPage → Bool
  | .zero => true
  | .entries _ => false

inductive Use
  | lookup (idx : Nat)
  | publish (idx pblk : Nat)
  deriving DecidableEq, Repr

/-- What was dirty when the scan of a checkpoint reached it: how new it was, and how many writes
there had been. -/
structure Owed (β : Type) where
  key : β
  stamp : Nat
  since : Nat

/-- A checkpoint of all relations or of one: the buffers recorded and not yet flushed. -/
structure Scan (m : Nat) (ρ : Type) where
  only : Option ρ
  targets : List (Fin m)
  owed : List (Owed (PageTag ρ))

structure SuperScan (ρ : Type) where
  cap : Nat
  targets : List ρ
  rescan : Bool
  owed : List (Owed ρ)

inductive Caller (m : Nat) (ρ : Type)
  | victim (tag : PageTag ρ) (use : Use)
  | background
  | checkpoint (c : Scan m ρ)

inductive Pc (m : Nat) (ρ : Type)
  | idle
  | probe (tag : PageTag ρ) (use : Use)
  | found (tag : PageTag ρ) (use : Use) (i : Fin m)
  | raise (tag : PageTag ρ) (use : Use) (i : Fin m)
  | verify (tag : PageTag ρ) (use : Use) (i : Fin m)
  /-- `MapClockGetBuffer`. -/
  | sweep (tag : PageTag ρ) (use : Use)
  | decrement (tag : PageTag ρ) (use : Use) (i : Fin m)
  | chosen (tag : PageTag ρ) (use : Use) (i : Fin m)
  | claim (tag : PageTag ρ) (use : Use) (i : Fin m) (flushed : Bool)
  | examine (tag : PageTag ρ) (use : Use) (i : Fin m) (flushed : Bool)
  | insert (tag : PageTag ρ) (use : Use) (i : Fin m)
  | delete (tag : PageTag ρ) (use : Use) (i : Fin m)
  | install (tag : PageTag ρ) (use : Use) (i : Fin m)
  | returned (tag : PageTag ρ) (use : Use) (i : Fin m)
  | size (tag : PageTag ρ) (i : Fin m)
  | extend (tag : PageTag ρ) (i : Fin m) (nblocks : Nat)
  | mark (tag : PageTag ρ) (i : Fin m)
  | retry (tag : PageTag ρ) (use : Use) (i : Fin m)
  | unpin (i : Fin m)
  /-- `MapStartBufferIO`, with `MAPBUF_CHECKPOINT_NEEDED` required or not. -/
  | startIo (i : Fin m) (needed : Bool) (k : Caller m ρ)
  | io (i : Fin m) (k : Caller m ρ)
  /-- `MapFlushWritePage`. -/
  | ioLocked (i : Fin m) (k : Caller m ρ)
  /-- `MapTerminateBufferIO`. -/
  | ioWritten (i : Fin m) (k : Caller m ρ)
  | scan (j : Nat) (c : Scan m ρ)
  | scanMark (i : Fin m) (c : Scan m ρ)
  | targets (c : Scan m ρ)
  | superScan (j : Nat) (pages : List (Owed (PageTag ρ))) (c : SuperScan ρ)
  | superFlush (pages : List (Owed (PageTag ρ))) (c : SuperScan ρ)
  | finished (pages : List (Owed (PageTag ρ))) (supers : List (Owed ρ))

def Caller.resume {m : Nat} {ρ : Type} (i : Fin m) : Caller m ρ → Pc m ρ
  | .victim tag use => .claim tag use i true
  | .background => .idle
  | .checkpoint c => .targets c

def Pc.exclusive {m : Nat} {ρ : Type} : Pc m ρ → Option (Fin m)
  | .examine _ _ i _ | .insert _ _ i | .delete _ _ i | .install _ _ i
  | .size _ i | .extend _ i _ | .mark _ i | .ioLocked i _ | .ioWritten i _ => some i
  | _ => none

def Pc.shared {m : Nat} {ρ : Type} : Pc m ρ → Option (Fin m)
  | .scanMark i _ => some i
  | _ => none

structure SuperEntry (ρ : Type) where
  rnode : ρ
  dirty : Bool
  stamp : Nat

structure State (n m k : Nat) (ρ : Type) where
  pcs : Fin n → Pc m ρ
  word : Fin m → Word
  tag : Fin m → Option (PageTag ρ)
  page : Fin m → Nat → Option Nat
  hash : PageTag ρ → Option (Fin m)
  disk : ρ → Nat → DiskPage
  nblocks : ρ → Nat
  logical : ρ → ForkNumber → Nat
  supers : Fin k → Option (SuperEntry ρ)
  /-- The mapping as it was published. This field and those below record what has happened; the
  code does not read them. -/
  published : PageTag ρ → Nat → Option Nat
  clock : Nat
  stamp : Fin m → Nat
  writes : List (PageTag ρ × Nat)
  superWrites : List (ρ × Nat)

inductive Event (n m k : Nat) (ρ : Type)
  | call (p : Fin n) (tag : PageTag ρ) (use : Use)
  | flush (p : Fin n) (i : Fin m)
  /-- A process starts `MapCheckpoint`, or `MapCheckpointRelation` of one relation. -/
  | checkpoint (p : Fin n) (only : Option ρ)
  | next (p : Fin n)
  | sweepAt (p : Fin n) (i : Fin m)
  | giveUp (p : Fin n)
  | target (p : Fin n) (i : Fin m)
  | bumpLogical (rnode : ρ) (fork : ForkNumber) (nblocks : Nat)
  | superEnsure (j : Fin k) (rnode : ρ)
  | superUpdate (j : Fin k)
  deriving DecidableEq

variable {n m k : Nat} {ρ : Type}

namespace State

def goto (s : State n m k ρ) (p : Fin n) (pc : Pc m ρ) : State n m k ρ :=
  { s with pcs := update s.pcs p pc }

def setWord (s : State n m k ρ) (i : Fin m) (w : Word) : State n m k ρ :=
  { s with word := update s.word i w }

def setSuper (s : State n m k ρ) (j : Fin k) (e : SuperEntry ρ) : State n m k ρ :=
  { s with supers := update s.supers j (some e) }

def CanShare (s : State n m k ρ) (p : Fin n) (i : Fin m) : Prop :=
  ∀ q, q ≠ p → (s.pcs q).exclusive ≠ some i

def CanLock (s : State n m k ρ) (p : Fin n) (i : Fin m) : Prop :=
  ∀ q, q ≠ p → (s.pcs q).exclusive ≠ some i ∧ (s.pcs q).shared ≠ some i

instance (s : State n m k ρ) (p : Fin n) (i : Fin m) : Decidable (s.CanShare p i) :=
  inferInstanceAs (Decidable (∀ _, _))

instance (s : State n m k ρ) (p : Fin n) (i : Fin m) : Decidable (s.CanLock p i) :=
  inferInstanceAs (Decidable (∀ _, _))

def diskPage (s : State n m k ρ) (tag : PageTag ρ) : DiskPage := s.disk tag.1 tag.position

def withinLogicalRange (s : State n m k ρ) (tag : PageTag ρ) : Bool :=
  tag.2.2 * mapEntriesPerPage < s.logical tag.1 tag.2.1

variable [DecidableEq ρ]

def setHash (s : State n m k ρ) (tag : PageTag ρ) (i : Option (Fin m)) : State n m k ρ :=
  { s with hash := update s.hash tag i }

def install (s : State n m k ρ) (tag : PageTag ρ) (i : Fin m) (page : Nat → Option Nat)
    (notMaterialized : Bool) : State n m k ρ :=
  { s with
    tag := update s.tag i (some tag)
    page := update s.page i page
    stamp := update s.stamp i 0
    word := update s.word i { s.word i with
      usage := (s.word i).usage ||| Word.usageBit
      notMaterialized := notMaterialized } }

def publish (s : State n m k ρ) (tag : PageTag ρ) (i : Fin m) (idx pblk : Nat) : State n m k ρ :=
  { s with
    page := update s.page i (update (s.page i) idx (some pblk))
    published := update s.published tag
      (update (s.published tag) idx (some pblk))
    clock := s.clock + 1
    stamp := update s.stamp i (s.clock + 1) }

/-- `umfile_zeroextend` from block `nblocks` up to the block of the page. -/
def zeroExtend (s : State n m k ρ) (tag : PageTag ρ) (nblocks : Nat) : State n m k ρ :=
  { s with
    disk := update s.disk tag.1 fun b =>
      if nblocks ≤ b ∧ b ≤ tag.position then .zero else s.disk tag.1 b
    nblocks := update s.nblocks tag.1 (max (s.nblocks tag.1) (tag.position + 1)) }

def writePage (s : State n m k ρ) (tag : PageTag ρ) (i : Fin m) : State n m k ρ :=
  { s with
    disk := update s.disk tag.1
      (update (s.disk tag.1) tag.position (.entries (s.page i)))
    nblocks := update s.nblocks tag.1 (max (s.nblocks tag.1) (tag.position + 1))
    writes := s.writes ++ [(tag, s.stamp i)] }

/-- The page read for a tag and whether it is missing on disk; `none` is the error for a page of
zeros inside the logical range. -/
def readPage (s : State n m k ρ) (tag : PageTag ρ) : Option ((Nat → Option Nat) × Bool) :=
  if tag.position < s.nblocks tag.1 ∧ s.withinLogicalRange tag then
    match s.diskPage tag with
    | .zero => none
    | .entries e => some (e, false)
  else some (fun _ => none, s.nblocks tag.1 ≤ tag.position)

def bumpLogical (s : State n m k ρ) (rnode : ρ) (fork : ForkNumber) (nblocks : Nat) :
    State n m k ρ :=
  { s with
    logical := update s.logical rnode
      (update (s.logical rnode) fork (max (s.logical rnode fork) nblocks)) }

/-- `MapSuperFindEntryLocked`. -/
def findSuper (s : State n m k ρ) (rnode : ρ) : Option (Fin k) :=
  (List.finRange k).find? fun j => (s.supers j).any (·.rnode = rnode)

def flushSuper (s : State n m k ρ) (rnode : ρ) : State n m k ρ :=
  match s.findSuper rnode with
  | some j =>
    match s.supers j with
    | some e =>
      if e.dirty then
        { s.setSuper j { e with dirty := false } with
          superWrites := s.superWrites ++ [(rnode, e.stamp)] }
      else s
    | none => s
  | none => s

end State

namespace Word

/-- `MapStartBufferIO`. -/
def startIo (w : Word) : Word :=
  { w with ioInProgress := true, ioError := false, justDirtied := false }

def terminateIo (w : Word) : Word :=
  { w with
    ioInProgress := false
    ioError := false
    checkpointNeeded := false
    dirty := w.dirty && w.justDirtied }

def markDirty (w : Word) : Word := { w with dirty := true, justDirtied := true }

end Word

section Step

variable [DecidableEq ρ]

def pin (s : State n m k ρ) (i : Fin m) : Option (State n m k ρ) :=
  if (s.word i).refcount.val + 1 < 512 then some (s.setWord i ((s.word i).add 1)) else none

/-- `MapUnpinBuffer`. -/
def unpin (s : State n m k ρ) (i : Fin m) : Option (State n m k ρ) :=
  if 0 < (s.word i).refcount.val then some (s.setWord i ((s.word i).sub 1)) else none

def examine (s : State n m k ρ) (tag : PageTag ρ) (use : Use) (i : Fin m) (flushed : Bool) :
    Pc m ρ :=
  if s.tag i = some tag then .returned tag use i
  else if (s.word i).refcount.val ≠ 1 then .retry tag use i
  else if (s.word i).dirty then
    if flushed then .retry tag use i else .startIo i false (.victim tag use)
  else .insert tag use i

def scanBuffer (s : State n m k ρ) (i : Fin m) (c : Scan m ρ) : Pc m ρ :=
  match s.tag i with
  | some tag =>
    if (s.word i).dirty = true ∧ c.only.all (· = tag.1) = true then
      .scanMark i { c with owed := ⟨tag, s.stamp i, s.writes.length⟩ :: c.owed }
    else .scan (i + 1) c
  | none => .scan (i + 1) c

def scanSuper (s : State n m k ρ) (j : Fin k) (pages : List (Owed (PageTag ρ)))
    (c : SuperScan ρ) : Pc m ρ :=
  match s.supers j with
  | some e =>
    if e.dirty then
      if c.cap ≤ c.targets.length then
        -- no room: flush what there is and come back
        .superFlush pages { c with
          rescan := true
          owed := ⟨e.rnode, e.stamp, s.superWrites.length⟩ :: c.owed }
      else
        .superScan (j + 1) pages { c with
          targets := c.targets ++ [e.rnode]
          owed := ⟨e.rnode, e.stamp, s.superWrites.length⟩ :: c.owed }
    else .superScan (j + 1) pages c
  | none => .superScan (j + 1) pages c

def startSupers (c : Scan m ρ) : Pc m ρ :=
  match c.only with
  | none => .superScan 0 c.owed { cap := 256, targets := [], rescan := false, owed := [] }
  | some rnode =>
    .superFlush c.owed { cap := 256, targets := [rnode], rescan := false, owed := [] }

def next (s : State n m k ρ) (p : Fin n) : Option (State n m k ρ) :=
  match s.pcs p with
  | .idle => none
  | .probe tag use =>
    match s.hash tag with
    | some i => some (s.goto p (.found tag use i))
    | none => some (s.goto p (.sweep tag use))
  | .found tag use i =>
    (pin s i).map fun t =>
      t.goto p (if (t.word i).usage.val < 5 then .raise tag use i else .verify tag use i)
  | .raise tag use i =>
    -- the count was looked at before; the addition does not look again
    some ((s.setWord i ((s.word i).add Word.usageCountOne)).goto p (.verify tag use i))
  | .verify tag use i =>
    if s.CanShare p i then
      some (s.goto p (if s.tag i = some tag then .returned tag use i else .retry tag use i))
    else none
  | .sweep .. => none
  | .decrement tag use i =>
    -- neither does the subtraction
    some ((s.setWord i ((s.word i).sub Word.usageCountOne)).goto p (.sweep tag use))
  | .chosen tag use i => (pin s i).map fun t => t.goto p (.claim tag use i false)
  | .claim tag use i flushed =>
    if s.CanLock p i then some (s.goto p (.examine tag use i flushed)) else none
  | .examine tag use i flushed => some (s.goto p (examine s tag use i flushed))
  | .insert tag use i =>
    match s.hash tag with
    | some j => some (s.goto p (if j = i then .delete tag use i else .retry tag use i))
    | none => some ((s.setHash tag (some i)).goto p (.delete tag use i))
  | .delete tag use i =>
    match s.tag i with
    | some old =>
      if s.hash old = some i then some ((s.setHash old none).goto p (.install tag use i))
      else some (s.goto p (.install tag use i))
    | none => some (s.goto p (.install tag use i))
  | .install tag use i =>
    (s.readPage tag).map fun r => (s.install tag i r.1 r.2).goto p (.returned tag use i)
  | .returned tag use i =>
    match use with
    | .lookup _ => if s.CanShare p i then some (s.goto p (.unpin i)) else none
    | .publish idx pblk =>
      if s.CanLock p i then some ((s.publish tag i idx pblk).goto p (.size tag i)) else none
  | .size tag i =>
    if (s.word i).notMaterialized = true then
      if s.nblocks tag.1 = 0 then none
      else if s.nblocks tag.1 ≤ tag.position then
        some (s.goto p (.extend tag i (s.nblocks tag.1)))
      else
        some ((s.setWord i { s.word i with notMaterialized := false }).goto p (.mark tag i))
    else some (s.goto p (.mark tag i))
  | .extend tag i nblocks =>
    some (((s.zeroExtend tag nblocks).setWord i
      { s.word i with notMaterialized := false }).goto p (.mark tag i))
  | .mark _ i => some ((s.setWord i (s.word i).markDirty).goto p (.unpin i))
  | .retry tag use i => (unpin s i).map fun t => t.goto p (.probe tag use)
  | .unpin i => (unpin s i).map fun t => t.goto p .idle
  | .startIo i needed k =>
    if (s.word i).ioInProgress = true then none
    else if (s.word i).dirty = true ∧ (needed = true → (s.word i).checkpointNeeded = true) then
      some ((s.setWord i (s.word i).startIo).goto p (.io i k))
    else some (s.goto p (k.resume i))
  | .io i k => if s.CanLock p i then some (s.goto p (.ioLocked i k)) else none
  | .ioLocked i k =>
    match s.tag i with
    | some tag => some ((s.writePage tag i).goto p (.ioWritten i k))
    | none => some (s.goto p (.ioWritten i k))
  | .ioWritten i k => some ((s.setWord i (s.word i).terminateIo).goto p (k.resume i))
  | .scan j c =>
    if h : j < m then
      if s.CanShare p ⟨j, h⟩ then some (s.goto p (scanBuffer s ⟨j, h⟩ c)) else none
    else some (s.goto p (.targets c))
  | .scanMark i c =>
    some ((s.setWord i { s.word i with checkpointNeeded := true }).goto p
      (.scan (i + 1) { c with targets := i :: c.targets }))
  | .targets c => if c.targets = [] then some (s.goto p (startSupers c)) else none
  | .superScan j pages c =>
    if h : j < k then some (s.goto p (scanSuper s ⟨j, h⟩ pages c))
    else some (s.goto p (.superFlush pages c))
  | .superFlush pages c =>
    match c.targets with
    | rnode :: rest =>
        some ((s.flushSuper rnode).goto p (.superFlush pages { c with targets := rest }))
    | [] =>
      some (s.goto p (if c.rescan then
        .superScan 0 pages { c with cap := 2 * c.cap, rescan := false }
      else .finished pages c.owed))
  | .finished .. => some (s.goto p .idle)

def step (s : State n m k ρ) : Event n m k ρ → Option (State n m k ρ)
  | .call p tag use =>
    match s.pcs p with
    | .idle => some (s.goto p (.probe tag use))
    | _ => none
  | .flush p i =>
    match s.pcs p with
    | .idle => some (s.goto p (.startIo i false .background))
    | _ => none
  | .checkpoint p only =>
    match s.pcs p with
    | .idle => some (s.goto p (.scan 0 { only, targets := [], owed := [] }))
    | _ => none
  | .next p => next s p
  | .sweepAt p i =>
    match s.pcs p with
    | .sweep tag use =>
      if (s.word i).refcount.val ≠ 0 then some s
      else if (s.word i).usage.val ≠ 0 then some (s.goto p (.decrement tag use i))
      else some (s.goto p (.chosen tag use i))
    | _ => none
  | .giveUp p =>
    match s.pcs p with
    | .insert tag use i => some (s.goto p (.retry tag use i))
    | _ => none
  | .target p i =>
    match s.pcs p with
    | .targets c =>
      if i ∈ c.targets then
        if (s.word i).dirty = true ∧ (s.word i).checkpointNeeded = true then
          some (s.goto p (.startIo i true (.checkpoint { c with targets := c.targets.erase i })))
        else some (s.goto p (.targets { c with targets := c.targets.erase i }))
      else none
    | _ => none
  | .bumpLogical rnode fork nblocks =>
    some (s.bumpLogical rnode fork nblocks)
  | .superEnsure j rnode =>
    if (s.supers j).isNone ∧ s.findSuper rnode = none then
      some (s.setSuper j { rnode, dirty := false, stamp := 0 })
    else none
  | .superUpdate j =>
    match s.supers j with
    | some e =>
      some { s.setSuper j { e with dirty := true, stamp := s.clock + 1 } with clock := s.clock + 1 }
    | none => none

def machine : System (State n m k ρ) (Event n m k ρ) where
  step := step

end Step

/-- An empty cache over the metadata files of a database. What is on disk counts as published. -/
def init (file : ρ → Nat → DiskPage) (nblocks : ρ → Nat) (logical : ρ → ForkNumber → Nat) :
    State n m k ρ :=
  let disk rnode b := if b < nblocks rnode then file rnode b else .zero
  { pcs := fun _ => .idle
    word := fun _ => .zero
    tag := fun _ => none
    page := fun _ _ => none
    hash := fun _ => none
    disk := disk
    nblocks := nblocks
    logical := logical
    supers := fun _ => none
    published := fun tag => (disk tag.1 tag.position).mapping
    clock := 0
    stamp := fun _ => 0
    writes := []
    superWrites := [] }

end Umbra.Cache
