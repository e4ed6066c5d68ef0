import Umbra.Foundation.System
import Umbra.Map.Address

/-!
# Truncation of a mapped fork

A fork is truncated by `umpretruncate`, which reads the pages of the tail in, and `umtruncate`,
which clears their entries and records the new size. Both loops stop at the end of the metadata
fork. `published` is a history: every pblk that an entry of the fork has ever held.
-/

namespace Umbra.Truncate

open Foundation Function

/-- The entries of a MAP page; `none` is `InvalidBlockNumber`, all bits set. -/
abbrev Page := Fin mapEntriesPerPage → Option ℕ

def Page.unmapped : Page := fun _ => none

/-- `pg_memory_is_all_zeros`: every entry reads as pblk 0. -/
def Page.AllZeros (page : Page) : Prop := ∀ j, page j = some 0

instance (page : Page) : Decidable page.AllZeros := inferInstanceAs (Decidable (∀ _, _))

/-- A cached page; `materialized` is the absence of `MAPBUF_NOT_MATERIALIZED`. -/
structure Buffer where
  page : Page
  dirty : Bool
  materialized : Bool

structure State where
  /-- The pages of the metadata fork: zeros where a page has been added and not written. -/
  file : ℕ → Page
  nblocks : ℕ
  cache : MapPageId → Option Buffer
  logicalNblocks : ForkNumber → ℕ
  nextFree : ForkNumber → ℕ
  claimed : ForkNumber → List ℕ
  published : ForkNumber → List ℕ

def start : State where
  file _ _ := some 0
  nblocks := 1
  cache _ := none
  logicalNblocks _ := 0
  nextFree _ := 0
  claimed _ := []
  published _ := []

def position (pg : MapPageId) : ℕ := mapForkPagePosition pg.1 pg.2

lemma position_injective : Function.Injective position := by
  intro pg pg' h
  have hdecode := congrArg mapDecodeMapBlkno h
  simp only [position, mapDecodeMapBlkno_mapForkPagePosition, Option.some.injEq] at hdecode
  exact hdecode

def entryIdx (lblkno : ℕ) : Fin mapEntriesPerPage :=
  ⟨lblkno % mapEntriesPerPage, Nat.mod_lt _ (by decide)⟩

namespace State

variable (s : State)

def OnFile (pg : MapPageId) : Prop := position pg < s.nblocks

def WithinLogicalRange (pg : MapPageId) : Prop := pg.2 * mapEntriesPerPage < s.logicalNblocks pg.1

instance (pg : MapPageId) : Decidable (s.OnFile pg) := inferInstanceAs (Decidable (_ < _))

instance (pg : MapPageId) : Decidable (s.WithinLogicalRange pg) :=
  inferInstanceAs (Decidable (_ < _))

/-- The buffer that `MapReadBuffer` leaves in the cache: a page outside the file or outside the
logical range is not read, its entries are unmapped. -/
def buffer (pg : MapPageId) : Buffer :=
  match s.cache pg with
  | some b => b
  | none =>
    if s.OnFile pg ∧ s.WithinLogicalRange pg then ⟨s.file (position pg), false, true⟩
    else ⟨.unmapped, false, decide (s.OnFile pg)⟩

/-- `MapReadBuffer` reads a page of zeros where the logical range needs one, and reports it. -/
def Reports (pg : MapPageId) : Prop :=
  s.cache pg = none ∧ s.OnFile pg ∧ s.WithinLogicalRange pg ∧ (s.file (position pg)).AllZeros

instance (pg : MapPageId) : Decidable (s.Reports pg) :=
  decidable_of_iff ((s.cache pg).isNone ∧ s.OnFile pg ∧ s.WithinLogicalRange pg
    ∧ (s.file (position pg)).AllZeros) (by rw [Option.isNone_iff_eq_none, Reports])

def install (pg : MapPageId) (b : Buffer) : State :=
  { s with cache := update s.cache pg (some b) }

/-- `MapReadBuffer`. An error leaves the page of zeros in the cache. -/
def mapReadBuffer (pg : MapPageId) : Except State State :=
  if s.Reports pg then .error (s.install pg (s.buffer pg)) else .ok (s.install pg (s.buffer pg))

/-- What a lookup of a block returns; the outer `none` is the report of a page of zeros. -/
def lookup (fork : ForkNumber) (lblkno : ℕ) : Option (Option ℕ) :=
  if s.Reports (mapPageOf (fork, lblkno)) then none
  else some ((s.buffer (mapPageOf (fork, lblkno))).page (entryIdx lblkno))

/-- A changed page goes through `MapMarkBufferDirty`: the metadata fork is extended with zeros up
to a page that it does not have. -/
def markBufferDirty (pg : MapPageId) (page : Page) : State :=
  { s with
    cache := update s.cache pg (some ⟨page, true, true⟩)
    nblocks := if (s.buffer pg).materialized then s.nblocks else max s.nblocks (position pg + 1) }

def mapSetMapping (fork : ForkNumber) (lblkno pblkno : ℕ) : Except State State := do
  let s ← s.mapReadBuffer (mapPageOf (fork, lblkno))
  let page := (s.buffer (mapPageOf (fork, lblkno))).page
  let s := s.markBufferDirty (mapPageOf (fork, lblkno))
    (update page (entryIdx lblkno) (some pblkno))
  return { s with
    claimed := update s.claimed fork ((s.claimed fork).filter (· ≠ pblkno))
    published := update s.published fork (pblkno :: s.published fork) }

end State

/-! ### The loops over the tail -/

/-- `MapTruncateEntryRange`: the pages that have an entry of a block in `[n, old)`. -/
def tailPages (n old : ℕ) : List ℕ :=
  if old ≤ n then []
  else List.range' (n / mapEntriesPerPage)
    ((old - 1) / mapEntriesPerPage + 1 - n / mapEntriesPerPage)

def clearTail (n old pageIdx : ℕ) (page : Page) : Page := fun j =>
  let beginIdx := if pageIdx = n / mapEntriesPerPage then n % mapEntriesPerPage else 0
  let lastIdx := if pageIdx = (old - 1) / mapEntriesPerPage then (old - 1) % mapEntriesPerPage
    else mapEntriesPerPage - 1
  if beginIdx ≤ j ∧ j ≤ lastIdx then none else page j

def forTailPages (fork : ForkNumber) (body : ℕ → State → Except State State) :
    List ℕ → State → Except State State
  | [], s => .ok s
  | i :: is, s =>
    if ¬ s.OnFile (fork, i) then .ok s
    else do
      let s ← body i s
      forTailPages fork body is s

namespace State

variable (s : State) (fork : ForkNumber) (n : ℕ)

def mapPreloadTruncatePages : Except State State :=
  forTailPages fork (fun i s => s.mapReadBuffer (fork, i)) (tailPages n (s.logicalNblocks fork)) s

def truncatePage (old i : ℕ) : Except State State := do
  let s ← s.mapReadBuffer (fork, i)
  return s.markBufferDirty (fork, i) (clearTail n old i (s.buffer (fork, i)).page)

def mapTruncate : Except State State :=
  forTailPages fork (fun i s' => s'.truncatePage fork n (s.logicalNblocks fork) i)
    (tailPages n (s.logicalNblocks fork)) s

def setLogicalNblocks : State :=
  { s with logicalNblocks := update s.logicalNblocks fork n }

def umtruncate : Except State State := do
  let s ← s.mapPreloadTruncatePages fork n
  let s ← s.mapTruncate fork n
  return s.setLogicalNblocks fork n

end State

/-! ### Runs -/

inductive Event
  | read (pg : MapPageId)
  | flush (pg : MapPageId)
  | evict (pg : MapPageId)
  | reserve (fork : ForkNumber)
  | release (fork : ForkNumber) (pblkno : ℕ)
  | setMapping (fork : ForkNumber) (lblkno pblkno : ℕ)
  | bumpLogicalNblocks (fork : ForkNumber) (lblkno : ℕ)
  | truncate (fork : ForkNumber) (n : ℕ)

def leave : Except State State → State
  | .ok s => s
  | .error s => s

def step (s : State) : Event → Option State
  | .read pg => some (leave (s.mapReadBuffer pg))
  | .flush pg =>
    match s.cache pg with
    | some b =>
      if b.dirty then
        some { s with
          file := update s.file (position pg) b.page
          cache := update s.cache pg (some { b with dirty := false }) }
      else none
    | none => none
  | .evict pg =>
    match s.cache pg with
    | some b => if b.dirty then none else some { s with cache := update s.cache pg none }
    | none => none
  | .reserve fork =>
    some { s with
      nextFree := update s.nextFree fork (s.nextFree fork + 1)
      claimed := update s.claimed fork (s.nextFree fork :: s.claimed fork) }
  | .release fork pblkno =>
    some { s with
      claimed := update s.claimed fork ((s.claimed fork).filter (· ≠ pblkno)) }
  | .setMapping fork lblkno pblkno =>
    if pblkno ∈ s.claimed fork then some (leave (s.mapSetMapping fork lblkno pblkno)) else none
  | .bumpLogicalNblocks fork lblkno =>
    -- the block's entry was set before, which materialized its page
    if s.OnFile (mapPageOf (fork, lblkno)) then
      some (s.setLogicalNblocks fork (max (s.logicalNblocks fork) (lblkno + 1)))
    else none
  | .truncate fork n =>
    if n ≤ s.logicalNblocks fork then some (leave (s.umtruncate fork n)) else none

def system : System State Event where
  step := step

end Umbra.Truncate
