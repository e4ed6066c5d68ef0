import Mathlib.Order.Nat
import Umbra.Basic
import Umbra.Foundation.System

/-!
# Materialization of physical blocks

`MapSBlockEnsurePhysicalNblocks` makes the blocks of a mapped fork exist in its segment files up to
a target. One backend extends at a time, under a flag in the shared superblock entry; the others
raise the shared target and wait. What a backend does under the lock of the entry is one step, each
look at a block and each write of one is a step, and file accesses may fail.
-/

namespace Umbra.Materialize

open Foundation Function

/-! ### Segment files -/

def relsegSize : ℕ := 131072

/-- The segment files of a fork, each with its number of blocks. -/
abbrev Files := ℕ → Option ℕ

namespace Files

def present (f : Files) (blk : ℕ) : Bool :=
  match f (blk / relsegSize) with
  | some n => blk % relsegSize < n
  | none => false

/-- `FileZero` on one block: a file that ends before the block grows up to it. -/
def zero (f : Files) (blk : ℕ) : Files :=
  update f (blk / relsegSize) (some (max ((f (blk / relsegSize)).getD 0) (blk % relsegSize + 1)))

end Files

/-- The segments a backend has open: `num_open_segs` and which of the entries are open. -/
structure Context where
  numOpenSegs : ℕ
  isOpen : ℕ → Bool

namespace Context

/-- `umfile_openseg` on a fork with sparse segments: the entries in between stay closed. -/
def openseg (c : Context) (seg : ℕ) : Context where
  numOpenSegs := max c.numOpenSegs (seg + 1)
  isOpen i := i = seg || (i < c.numOpenSegs && c.isOpen i)

/-- `umfile_getseg` with `UM_EXTENSION_CREATE`. -/
def getseg (c : Context) (seg : ℕ) : Context :=
  if seg < c.numOpenSegs ∧ c.isOpen seg = true then c else c.openseg seg

end Context

/-- `umfile_ctx_block_exists`. A closed entry below `num_open_segs` counts as a missing segment. -/
def blockExists (f : Files) (c : Context) (blk : ℕ) : Bool × Context :=
  let seg := blk / relsegSize
  if seg < c.numOpenSegs then
    (c.isOpen seg && f.present blk, c)
  else
    match f seg with
    | none => (false, c)
    | some _ => (f.present blk, c.openseg seg)

/-! ### The shared entry -/

inductive Sector
  | missing
  | corrupt
  | ok (capacity : ℕ)
  deriving DecidableEq

/-- The shared entry, as far as one fork is concerned. A capacity is as
`MapNormalizeForkBlockCount` gives it. -/
structure Entry where
  capacity : ℕ
  /-- `MAPSUPER_FLAG_CORRUPT`, or an identity or checksum that does not hold. -/
  corrupt : Bool
  /-- `MAPSUPER_RUNTIME_EXTENDING_*`. -/
  extending : Bool
  /-- `extending_target_*`. -/
  target : ℕ
  deriving DecidableEq

def Sector.load : Sector → Option Entry
  | .missing => none
  | .corrupt => some ⟨0, true, false, invalidBlockNumber⟩
  | .ok capacity => some ⟨capacity, false, false, invalidBlockNumber⟩

/-! ### Backends -/

inductive Pc
  | idle
  | load (nblocks : ℕ)
  | retry (nblocks : ℕ)
  | sleep (nblocks : ℕ)
  | scan (nblocks desired blk : ℕ)
  | zero (nblocks desired blk : ℕ)
  | handler (nblocks : ℕ)
  /-- In `PG_CATCH`, waiting for a lock that it holds itself. -/
  | stuck (nblocks : ℕ)
  | returned (nblocks : ℕ) (result : Bool)
  /-- An error has left the function. -/
  | raised (nblocks : ℕ)
  deriving DecidableEq

/-- An error handler: one of a caller, or the `PG_CATCH` of the function in one of its frames. -/
inductive Handler
  | caller
  | own (frame : ℕ)
  deriving DecidableEq

structure State where
  sector : Sector
  entry : Option Entry
  /-- The backend that an error left with the lock of the entry. -/
  lock : Option ℕ
  files : Files
  ctx : ℕ → Context
  pc : ℕ → Pc
  /-- `PG_exception_stack` and what each of its frames saved: the active handlers, innermost
  first. -/
  handlers : ℕ → List Handler
  atEntry : ℕ → List Handler
  frames : ℕ

namespace State

def goto (s : State) (b : ℕ) (p : Pc) : State := { s with pc := update s.pc b p }

def setEntry (s : State) (e : Entry) : State := { s with entry := some e }

def setLock (s : State) (b : ℕ) : State := { s with lock := some b }

/-- `PG_TRY`. -/
def push (s : State) (b : ℕ) : State :=
  { s with
    handlers := update s.handlers b (.own s.frames :: s.handlers b)
    frames := s.frames + 1 }

def throw (s : State) (b : ℕ) : State :=
  { s with handlers := update s.handlers b (s.handlers b).tail }

def releaseAll (s : State) (b : ℕ) : State :=
  { s with lock := if s.lock = some b then none else s.lock }

def view (s : State) : Option Entry := s.entry.or s.sector.load

def recorded (s : State) : ℕ :=
  match s.view with
  | some e => e.capacity
  | none => 0

def extending (s : State) : Bool :=
  match s.view with
  | some e => e.extending
  | none => false

def corrupt (s : State) : Bool :=
  match s.view with
  | some e => e.corrupt
  | none => false

variable (s : State) (b : ℕ) (p : Pc) (e : Entry)

@[simp] lemma goto_pc_self : (s.goto b p).pc b = p := update_self ..

end State

inductive Event
  | call (b nblocks : ℕ)
  | load (b : ℕ) (error : Bool)
  | enter (b : ℕ) (error : Bool)
  | wake (b : ℕ) (interrupt : Bool)
  | probe (b : ℕ) (error : Bool)
  | extend (b : ℕ) (error : Bool)
  | settle (b : ℕ) (error : Bool)
  | handle (b : ℕ)
  | leave (b : ℕ)
  /-- The error that left the function arrives in the `PG_CATCH` of a call that has returned. -/
  | catchDead (b : ℕ)
  /-- `PG_TRY` of a caller, between two calls. -/
  | protect (b : ℕ)
  /-- `PG_END_TRY` of a caller, which restores the stack it saved. -/
  | restore (b depth : ℕ)
  deriving DecidableEq

def Event.backend : Event → ℕ
  | .call b _ | .load b _ | .enter b _ | .wake b _ | .probe b _ | .extend b _ | .settle b _
  | .handle b | .leave b | .catchDead b | .protect b | .restore b _ => b

/-- The outcome of `MapSuperPrepareEntryForUpdate` without a log position. -/
inductive Prepared
  | missing
  /-- `MapSBlockReportCorrupt`, under the lock of the entry. -/
  | corrupt (e : Entry)
  | ready (e : Entry)

def prepare (s : State) : Prepared :=
  match s.view with
  | none => .missing
  | some e => if e.corrupt then .corrupt e else .ready e

/-- The statements from `retry` to the end of the critical section. An `error` is one of reading
the sector. -/
def enter (inRecovery : Bool) (s : State) (b n : ℕ) (error : Bool) : State :=
  if error ∧ s.entry = none then
    s.goto b (.raised n)
  else
    match prepare s with
    | .missing => if inRecovery then s.goto b (.returned n false) else s.goto b (.raised n)
    | .corrupt e => ((s.setEntry e).setLock b).goto b (.raised n)
    | .ready e =>
      if n ≤ e.capacity then
        (s.setEntry e).goto b (.returned n true)
      else if e.extending then
        (s.setEntry { e with target := if e.target < n then n else e.target }).goto b (.sleep n)
      else
        ((s.setEntry { e with extending := true, target := n }).push b).goto b
          (.scan n n e.capacity)

/-- The end of an extension round, up to the release of the lock or the exit. -/
def settle (s : State) (b n desired : ℕ) (error : Bool) : State :=
  if error ∧ s.entry = none then
    (s.throw b).goto b (.handler n)
  else
    match prepare s with
    | .missing => (s.throw b).goto b (.handler n)
    | .corrupt e => (((s.setEntry e).setLock b).throw b).goto b (.stuck n)
    | .ready e =>
      let current := if e.capacity < desired then desired else e.capacity
      let desired := max desired e.target
      if desired ≤ current then
        -- `return true` leaves the protected region without `PG_END_TRY`
        (s.setEntry { e with
          capacity := current, extending := false, target := invalidBlockNumber }).goto b
          (.returned n true)
      else
        (s.setEntry { e with capacity := current, target := desired }).goto b
          (.scan n desired current)

def handle (s : State) (b n : ℕ) : State :=
  match s.entry with
  | some e =>
    (s.setEntry { e with extending := false, target := invalidBlockNumber }).goto b (.raised n)
  | none => s.goto b (.raised n)

/-- `PG_CATCH` in a frame that is no more: it clears the flag, whoever has set it, and throws the
error on. A backend that the error left with the lock of the entry waits for itself. -/
def catchDead (s : State) (b n : ℕ) : State :=
  if s.lock = some b then (s.throw b).goto b (.stuck n) else handle (s.throw b) b n

def step (inRecovery : Bool) (s : State) : Event → Option State
  | .call b n =>
    match s.pc b with
    | .idle =>
      let s := { s with atEntry := update s.atEntry b (s.handlers b) }
      if n = 0 then some (s.goto b (.returned n true)) else some (s.goto b (.load n))
    | _ => none
  | .load b error =>
    match s.pc b with
    | .load n =>
      if error then
        some (s.goto b (.raised n))
      else
        match s.sector.load, s.entry with
        | none, _ => some (s.goto b (.returned n false))
        | some _, some _ => if s.lock = none then some (s.goto b (.retry n)) else none
        | some e, none => some ((s.setEntry e).goto b (.retry n))
    | _ => none
  | .enter b error =>
    match s.pc b with
    | .retry n => if s.lock = none then some (enter inRecovery s b n error) else none
    | _ => none
  | .wake b interrupt =>
    match s.pc b with
    | .sleep n => if interrupt then some (s.goto b (.raised n)) else some (s.goto b (.retry n))
    | _ => none
  | .probe b error =>
    match s.pc b with
    | .scan n desired blk =>
      if blk < desired then
        if error then
          some ((s.throw b).goto b (.handler n))
        else
          let found := blockExists s.files (s.ctx b) blk
          let s := { s with ctx := update s.ctx b found.2 }
          if found.1 then some (s.goto b (.scan n desired (blk + 1)))
          else some (s.goto b (.zero n desired blk))
      else none
    | _ => none
  | .extend b error =>
    match s.pc b with
    | .zero n desired blk =>
      if error then
        some ((s.throw b).goto b (.handler n))
      else
        some ({ s with
          files := s.files.zero blk
          ctx := update s.ctx b ((s.ctx b).getseg (blk / relsegSize)) }.goto b
          (.scan n desired (blk + 1)))
    | _ => none
  | .settle b error =>
    match s.pc b with
    | .scan n desired blk =>
      if blk < desired ∨ s.lock ≠ none then none else some (settle s b n desired error)
    | _ => none
  | .handle b =>
    match s.pc b with
    | .handler n => if s.lock = none then some (handle s b n) else none
    | _ => none
  | .leave b =>
    match s.pc b with
    | .returned _ _ => some (s.goto b .idle)
    | .raised _ =>
      -- to the handler of a caller, or to the top
      match s.handlers b with
      | .own _ :: _ => none
      | _ => some (((s.releaseAll b).throw b).goto b .idle)
    | _ => none
  | .catchDead b =>
    match s.pc b, s.handlers b with
    | .raised n, .own _ :: _ =>
      if s.lock = none ∨ s.lock = some b then some (catchDead s b n) else none
    | _, _ => none
  | .protect b =>
    match s.pc b with
    | .idle => some { s with handlers := update s.handlers b (.caller :: s.handlers b) }
    | _ => none
  | .restore b depth =>
    match s.pc b with
    | .idle => some { s with handlers := update s.handlers b ((s.handlers b).drop depth) }
    | _ => none

def backends (inRecovery : Bool) : System State Event where
  step := step inRecovery

/-! ### What a step can do -/

inductive Move (inRecovery : Bool) (s : State) : Event → State → Prop
  | callZero {b} (hpc : s.pc b = .idle) :
      Move inRecovery s (.call b 0)
        ({ s with atEntry := update s.atEntry b (s.handlers b) }.goto b (.returned 0 true))
  | call {b n} (hpc : s.pc b = .idle) :
      Move inRecovery s (.call b n)
        ({ s with atEntry := update s.atEntry b (s.handlers b) }.goto b (.load n))
  | loadError {b n} (hpc : s.pc b = .load n) :
      Move inRecovery s (.load b true) (s.goto b (.raised n))
  | loadMissing {b n} (hpc : s.pc b = .load n) :
      Move inRecovery s (.load b false) (s.goto b (.returned n false))
  | loadCached {b n} (hpc : s.pc b = .load n) (hloaded : s.entry ≠ none) :
      Move inRecovery s (.load b false) (s.goto b (.retry n))
  | loadNew {b n e} (hpc : s.pc b = .load n) (hview : s.view = some e) :
      Move inRecovery s (.load b false) ((s.setEntry e).goto b (.retry n))
  | enter {b n error} (hpc : s.pc b = .retry n) (hlock : s.lock = none) :
      Move inRecovery s (.enter b error) (enter inRecovery s b n error)
  | interrupt {b n} (hpc : s.pc b = .sleep n) :
      Move inRecovery s (.wake b true) (s.goto b (.raised n))
  | wake {b n} (hpc : s.pc b = .sleep n) : Move inRecovery s (.wake b false) (s.goto b (.retry n))
  | probeError {b n desired blk} (hpc : s.pc b = .scan n desired blk) :
      Move inRecovery s (.probe b true) ((s.throw b).goto b (.handler n))
  | found {b n desired blk} (hpc : s.pc b = .scan n desired blk) (hblk : blk < desired)
      (hfound : (blockExists s.files (s.ctx b) blk).1 = true) :
      Move inRecovery s (.probe b false) ({ s with ctx := update s.ctx b (blockExists s.files (s.ctx
        b) blk).2 }.goto b (.scan n desired (blk + 1)))
  | absent {b n desired blk} (hpc : s.pc b = .scan n desired blk) (hblk : blk < desired) :
      Move inRecovery s (.probe b false) ({ s with ctx := update s.ctx b (blockExists s.files (s.ctx
        b) blk).2 }.goto b (.zero n desired blk))
  | extendError {b n desired blk} (hpc : s.pc b = .zero n desired blk) :
      Move inRecovery s (.extend b true) ((s.throw b).goto b (.handler n))
  | extend {b n desired blk : ℕ} (hpc : s.pc b = .zero n desired blk) :
      Move inRecovery s (.extend b false) ({ s with
          files := s.files.zero blk
          ctx := update s.ctx b ((s.ctx b).getseg (blk / relsegSize)) }.goto b
          (.scan n desired (blk + 1)))
  | settle {b n desired blk error} (hpc : s.pc b = .scan n desired blk) (hblk : ¬ blk < desired) :
      Move inRecovery s (.settle b error) (settle s b n desired error)
  | handle {b n} (hpc : s.pc b = .handler n) : Move inRecovery s (.handle b) (handle s b n)
  | leaveReturned {b n result} (hpc : s.pc b = .returned n result) :
      Move inRecovery s (.leave b) (s.goto b .idle)
  | leaveRaised {b n} (hpc : s.pc b = .raised n) :
      Move inRecovery s (.leave b) (((s.releaseAll b).throw b).goto b .idle)
  | catchDead {b n} (hpc : s.pc b = .raised n) :
      Move inRecovery s (.catchDead b) (catchDead s b n)
  | protect {b} (hpc : s.pc b = .idle) : Move inRecovery s (.protect b)
      { s with handlers := update s.handlers b (.caller :: s.handlers b) }
  | restore {b depth} (hpc : s.pc b = .idle) : Move inRecovery s (.restore b depth)
      { s with handlers := update s.handlers b ((s.handlers b).drop depth) }

variable {inRecovery : Bool}

lemma Move.of_step {s t e} (h : (backends inRecovery).step s e = some t) :
    Move inRecovery s e t := by
  change step inRecovery s e = some t at h
  cases e with
  | call =>
    simp only [step] at h
    split at h
    · rename_i hpc
      split at h <;> cases h
      · rename_i hn
        subst hn
        exact .callZero hpc
      · exact .call hpc
    · cases h
  | load =>
    simp only [step] at h
    split at h
    · rename_i n hpc
      split at h
      · rename_i herror
        subst herror
        cases h
        exact .loadError hpc
      rename_i herror
      cases Bool.not_eq_true _ ▸ herror
      split at h
      · cases h
        exact .loadMissing hpc
      · rename_i hentry
        split at h <;> cases h
        exact .loadCached hpc (by rw [hentry]; exact nofun)
      · rename_i e hload hentry
        cases h
        exact .loadNew hpc (by rw [State.view, hentry, hload]; rfl)
    · cases h
  | enter =>
    simp only [step] at h
    split at h
    · rename_i n hpc
      split at h <;> cases h
      exact .enter hpc ‹_›
    · cases h
  | wake b interrupt =>
    simp only [step] at h
    split at h
    · rename_i n hpc
      cases interrupt <;> cases h
      · exact .wake hpc
      · exact .interrupt hpc
    · cases h
  | probe b error =>
    simp only [step] at h
    split at h
    · rename_i n desired blk hpc
      split at h
      · rename_i hblk
        cases error with
        | true =>
          cases h
          exact .probeError hpc
        | false =>
          simp only [Bool.false_eq_true, if_false] at h
          split at h <;> cases h
          · exact .found hpc hblk ‹_›
          · exact .absent hpc hblk
      · cases h
    · cases h
  | extend b error =>
    simp only [step] at h
    split at h
    · rename_i n desired blk hpc
      cases error <;> cases h
      · exact .extend hpc
      · exact .extendError hpc
    · cases h
  | settle =>
    simp only [step] at h
    split at h
    · rename_i n desired blk hpc
      split at h <;> cases h
      rename_i hblk
      exact .settle hpc (not_or.mp hblk).1
    · cases h
  | handle =>
    simp only [step] at h
    split at h
    · rename_i n hpc
      split at h <;> cases h
      exact .handle hpc
    · cases h
  | leave =>
    simp only [step] at h
    split at h
    · cases h
      exact .leaveReturned ‹_›
    · split at h <;> cases h
      exact .leaveRaised ‹_›
    · cases h
  | catchDead =>
    simp only [step] at h
    split at h
    · split at h <;> cases h
      exact .catchDead ‹_›
    · cases h
  | protect =>
    simp only [step] at h
    split at h <;> cases h
    exact .protect ‹_›
  | restore =>
    simp only [step] at h
    split at h <;> cases h
    exact .restore ‹_›

def Event.stands : Event → Pc → Bool
  | .call .., .idle | .load .., .load _ | .enter .., .retry _ | .wake .., .sleep _
  | .probe .., .scan .. | .extend .., .zero .. | .settle .., .scan .. | .handle _, .handler _
  | .leave _, .returned .. | .leave _, .raised _ | .catchDead _, .raised _ | .protect _, .idle
  | .restore .., .idle => true
  | _, _ => false

lemma Move.stands {s t e} (h : Move inRecovery s e t) : e.stands (s.pc e.backend) = true := by
  cases h <;> simp only [Event.backend, Event.stands, *]

end Umbra.Materialize
