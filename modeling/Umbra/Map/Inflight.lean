import Umbra.Foundation.System
import Umbra.Map.Address
import Mathlib.Algebra.BigOperators.Fin

/-!
# In-flight claims

The shared side of an in-flight claim is one pending bit for each entry of a cached MAP page; the
owner side is an entry of a backend-local list (`mapinflight.c`), or a write barrier on the stack of
`umwritev`. A claim and a release are split into the steps other backends can see.
-/

namespace Umbra.Inflight

open Foundation Function

structure BlockId where
  rnode : Nat
  fork : ForkNumber
  lblkno : Nat
  deriving DecidableEq, Repr

structure MapTag where
  rnode : Nat
  fork : ForkNumber
  mapBlkno : Nat
  deriving DecidableEq, Repr

def BlockId.address (k : BlockId) : Option (MapTag × Nat) :=
  (mapInflightDecode k.fork k.lblkno).map fun a => (⟨k.rnode, k.fork, a.1⟩, a.2)

/-- A slot of the MAP buffer cache; the pin count is `State.refcount`. -/
structure MapBufferDesc where
  tag : Option MapTag
  pendingBits : Nat → Bool
  pendingCount : Nat
  dirty : Bool
  pblknos : Nat → Option Nat

structure Hold (m : Nat) where
  key : BlockId
  slotId : Fin m
  deriving DecidableEq, Repr

/-- `MapInflightLocalEntry`; `pblkno` is set by `MapInflightFinishClaim`. -/
structure LocalEntry (m : Nat) where
  key : BlockId
  pblkno : Option Nat
  slotId : Fin m
  deriving DecidableEq, Repr

/-- How far a backend is in a call on a MAP buffer: it has pinned one, it knows its page, it has set
a bit but not recorded the claim (a write barrier if `barrier`), or it has forgotten a claim but not
cleared the bit. -/
inductive Call (m : Nat)
  | none
  | pinned (slotId : Fin m)
  | reading (slotId : Fin m) (tag : MapTag)
  | claimed (slotId : Fin m) (key : BlockId) (barrier : Bool)
  | releasing (slotId : Fin m) (key : BlockId)
  deriving DecidableEq, Repr

structure Backend (m : Nat) where
  live : Bool
  call : Call m
  locals : List (LocalEntry m)
  barriers : List (Hold m)
  deriving DecidableEq, Repr

/-- The shared cache of `m` buffers and `n` backends. `orphans` are write barriers whose backend is
gone. -/
structure State (n m : Nat) where
  buffers : Fin m → MapBufferDesc
  backends : Fin n → Backend m
  disk : MapTag → Nat → Option Nat
  orphans : List (Hold m)

variable {n m : Nat}

def Call.pin : Call m → Option (Fin m)
  | .none => Option.none
  | .pinned i => some i
  | .reading i _ => some i
  | .claimed i _ _ => some i
  | .releasing i _ => some i

/-- The private pin count of a buffer (`MapPrivateRefCount`): every recorded claim keeps a pin. -/
def Backend.pins (be : Backend m) (i : Fin m) : Nat :=
  (if be.call.pin = some i then 1 else 0) + be.locals.countP (·.slotId = i)
    + be.barriers.countP (·.slotId = i)

namespace State

def refcount (s : State n m) (i : Fin m) : Nat := ∑ b, (s.backends b).pins i

def setBackend (s : State n m) (b : Fin n) (be : Backend m) : State n m :=
  { s with backends := update s.backends b be }

def setCall (s : State n m) (b : Fin n) (c : Call m) : State n m :=
  s.setBackend b { s.backends b with call := c }

def setBuffer (s : State n m) (i : Fin m) (buf : MapBufferDesc) : State n m :=
  { s with buffers := update s.buffers i buf }

def init (n m : Nat) (disk : MapTag → Nat → Option Nat) : State n m where
  buffers := fun _ => ⟨none, fun _ => false, 0, false, fun _ => none⟩
  backends := fun _ => ⟨true, .none, [], []⟩
  disk := disk
  orphans := []

end State

def Backend.localFind (be : Backend m) (k : BlockId) : Option (LocalEntry m) :=
  be.locals.find? (·.key = k)

namespace MapBufferDesc

def load (tag : MapTag) (page : Nat → Option Nat) : MapBufferDesc :=
  ⟨some tag, fun _ => false, 0, false, page⟩

def setPending (buf : MapBufferDesc) (idx : Nat) : MapBufferDesc :=
  { buf with
    pendingBits := update buf.pendingBits idx true
    pendingCount := buf.pendingCount + 1 }

/-- `MapInflightBufferRelease`. -/
def clearPending (buf : MapBufferDesc) (idx : Nat) : MapBufferDesc :=
  if buf.pendingBits idx then
    { buf with
      pendingBits := update buf.pendingBits idx false
      pendingCount := buf.pendingCount - 1 }
  else buf

def setMapping (buf : MapBufferDesc) (idx pblkno : Nat) : MapBufferDesc :=
  { buf with pblknos := update buf.pblknos idx (some pblkno), dirty := true }

end MapBufferDesc

inductive Event (n m : Nat)
  | pin (b : Fin n) (i : Fin m)
  | unpin (b : Fin n)
  | verify (b : Fin n) (tag : MapTag)
  | replace (b : Fin n) (tag : MapTag)
  | flush (i : Fin m)
  | tryClaim (b : Fin n) (k : BlockId) (barrier : Bool)
  | remember (b : Fin n)
  | finish (b : Fin n) (k : BlockId) (pblkno : Nat)
  | setMapping (b : Fin n) (k : BlockId)
  | release (b : Fin n) (k : BlockId)
  | releaseBarrier (b : Fin n) (k : BlockId)
  | clear (b : Fin n)
  | exit (b : Fin n)
  deriving DecidableEq, Repr

namespace State

/-- `MapInflightTryClaim` and `MapInflightTryClaimBarrier` on the buffer that `MapReadBuffer` has
returned; a claim that fails gives the pin back. -/
def tryClaim (s : State n m) (b : Fin n) (k : BlockId) (barrier : Bool) (i : Fin m) (tag : MapTag)
    (idx : Nat) : State n m :=
  if (s.buffers i).tag = some tag ∧ (s.buffers i).pendingBits idx = false then
    (s.setBuffer i ((s.buffers i).setPending idx)).setCall b (.claimed i k barrier)
  else s.setCall b .none

end State

def inflight (n m : Nat) : System (State n m) (Event n m) where
  step s
  | .pin b i =>
    -- a slot found in the cache table, or the victim of the clock sweep
    if (s.backends b).live ∧ (s.backends b).call = .none then
      some (s.setCall b (.pinned i)) else none
  | .unpin b =>
    match (s.backends b).call with
    | .pinned _ => some (s.setCall b .none)
    | .reading _ _ => some (s.setCall b .none)
    | _ => none
  | .verify b tag =>
    match (s.backends b).call with
    | .pinned i =>
      if (s.buffers i).tag = some tag then some (s.setCall b (.reading i tag)) else none
    | _ => none
  | .replace b tag =>
    match (s.backends b).call with
    | .pinned i =>
      if s.refcount i = 1 ∧ (s.buffers i).dirty = false ∧ (s.buffers i).pendingCount = 0 ∧
          ∀ j, (s.buffers j).tag ≠ some tag then
        some ((s.setBuffer i (.load tag (s.disk tag))).setCall b (.reading i tag))
      else none
    | _ => none
  | .flush i =>
    match (s.buffers i).tag with
    | some tag =>
      if (s.buffers i).dirty then
        some { s.setBuffer i { s.buffers i with dirty := false } with
          disk := update s.disk tag (s.buffers i).pblknos }
      else none
    | none => none
  | .tryClaim b k barrier =>
    match (s.backends b).call, k.address with
    | .reading i tag, some (tag', idx) =>
      if tag' = tag ∧ (s.backends b).localFind k = none then
        some (s.tryClaim b k barrier i tag idx)
      else none
    | _, _ => none
  | .remember b =>
    match (s.backends b).call with
    | .claimed i k false =>
      some (s.setBackend b { s.backends b with
        call := .none, locals := (s.backends b).locals ++ [⟨k, none, i⟩] })
    | .claimed i k true =>
      some (s.setBackend b { s.backends b with
        call := .none, barriers := ⟨k, i⟩ :: (s.backends b).barriers })
    | _ => none
  | .finish b k pblkno =>
    if ((s.backends b).localFind k).isSome then
      some (s.setBackend b { s.backends b with
        locals := (s.backends b).locals.map fun e =>
          if e.key = k then { e with pblkno := some pblkno } else e })
    else none
  | .setMapping b k =>
    -- the mapping is published by the owner of a finished claim
    match (s.backends b).call, k.address, ((s.backends b).localFind k).bind (·.pblkno) with
    | .reading i tag, some (tag', idx), some pblkno =>
      if tag' = tag then
        some ((s.setBuffer i ((s.buffers i).setMapping idx pblkno)).setCall b .none)
      else none
    | _, _, _ => none
  | .release b k =>
    if (s.backends b).call = .none then
      ((s.backends b).localFind k).map fun e =>
        s.setBackend b { s.backends b with
          call := .releasing e.slotId k, locals := (s.backends b).locals.erase e }
    else none
  | .releaseBarrier b k =>
    if (s.backends b).call = .none then
      ((s.backends b).barriers.find? (·.key = k)).map fun h =>
        s.setBackend b { s.backends b with
          call := .releasing h.slotId k, barriers := (s.backends b).barriers.erase h }
    else none
  | .clear b =>
    match (s.backends b).call with
    | .releasing i k =>
      k.address.map fun a =>
        (s.setBuffer i ((s.buffers i).clearPending a.2)).setCall b (.pinned i)
    | _ => none
  | .exit b =>
    -- `MapBackendExitCleanup` once `MapInflightCleanupOwned` has released every local entry: the
    -- pins that are left are dropped
    if (s.backends b).live ∧ (s.backends b).call = .none ∧ (s.backends b).locals = [] then
      some { s.setBackend b ⟨false, .none, [], []⟩ with
        orphans := (s.backends b).barriers ++ s.orphans }
    else none

/-! ### What the machine is asked about -/

namespace State

def BitIsSet (s : State n m) (k : BlockId) : Prop :=
  ∃ i tag idx, k.address = some (tag, idx) ∧ (s.buffers i).tag = some tag ∧
    (s.buffers i).pendingBits idx = true

def HasLocal (s : State n m) (b : Fin n) (k : BlockId) : Prop :=
  ∃ e ∈ (s.backends b).locals, e.key = k

def HasBarrier (s : State n m) (b : Fin n) (k : BlockId) : Prop :=
  ∃ h ∈ (s.backends b).barriers, h.key = k

def InCall (s : State n m) (b : Fin n) (k : BlockId) : Prop :=
  ∃ i, (s.backends b).call = .releasing i k ∨ ∃ barrier, (s.backends b).call = .claimed i k barrier

def cached (s : State n m) (tag : MapTag) : Option (Fin m) :=
  (List.finRange m).find? fun i => (s.buffers i).tag = some tag

def mapping (s : State n m) (k : BlockId) : Option Nat :=
  k.address.bind fun a =>
    match s.cached a.1 with
    | some i => (s.buffers i).pblknos a.2
    | none => s.disk a.1 a.2

end State

end Umbra.Inflight
