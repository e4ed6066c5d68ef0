import Umbra.Block.Machine

/-!
# Crash and recovery of one block

A crash loses the buffer and the MAP pages in memory and leaves a block that was being written with
any contents. Redo starts at the redo pointer of the last completed checkpoint with the mapping
that is on disk. The buffer may be written back and evicted at any time, also between the two steps
in which a relocation is redone, for which the block is neither locked nor claimed.
-/

namespace Umbra.Block

open Foundation

variable {β : Type}

/-- Redo of `XLOG_UMBRA_MAP_SET` copies the block, unless it is behind the end of the file. -/
def copyBlock (s : Store β) (oldPblkno newPblkno : Nat) : Store β :=
  { s with
    disk :=
      match s.disk oldPblkno with
      | some c => Function.update s.disk newPblkno (some c)
      | none => s.disk }

/-- Then it switches the mapping. -/
def switchMapping (s : Store β) (newPblkno : Nat) : Store β :=
  { s with mapping := newPblkno, nextFree := max s.nextFree (newPblkno + 1) }

structure Recovery (β : Type) where
  store : Store β
  pos : Nat
  /-- The new block of a relocation that is copied and not yet switched to. -/
  switching : Option Nat
  /-- The block that a write-back in progress goes to. -/
  writing : Option Nat

/-- Redo of an update takes the content lock of the buffer and waits for a write-back. -/
def Record.locks : Record β → Bool
  | .plain _ | .remap .. => true
  | .other | .mapSet .. => false

def redoRecord (t : Recovery β) : Record β → Option (Recovery β)
  | .other => some { t with pos := t.pos + 1 }
  | .plain delta =>
    (redoPlain t.store (t.pos + 1) delta).map fun s => { t with store := s, pos := t.pos + 1 }
  | .remap r delta =>
    (redoRemap t.store (t.pos + 1) r delta).map fun s => { t with store := s, pos := t.pos + 1 }
  | .mapSet old new => some { t with store := copyBlock t.store old new, switching := some new }

inductive RecoveryEvent
  | next
  | switch
  | writeStart
  | writeLand
  | evict
  deriving DecidableEq, Repr

def recovery (wal : List (Record β)) (upto : Nat) : System (Recovery β) RecoveryEvent where
  step t
    | .next =>
      wal[t.pos]?.bind fun r =>
        if t.switching = none ∧ t.pos < upto ∧ (r.locks = true → t.writing = none) then
          redoRecord t r
        else none
    | .switch =>
      t.switching.map fun new =>
        { t with store := switchMapping t.store new, pos := t.pos + 1, switching := none }
    | .writeStart =>
      match t.store.buffer, t.writing with
      | some ⟨_, true⟩, none => some { t with writing := some t.store.mapping }
      | _, _ => none
    | .writeLand =>
      match t.store.buffer, t.writing with
      | some b, some pblk =>
        some { t with
          store := { t.store with
            disk := Function.update t.store.disk pblk (some b.content)
            buffer := some ⟨b.content, false⟩ }
          writing := none }
      | _, _ => none
    | .evict =>
      match t.store.buffer, t.writing with
      | some ⟨_, false⟩, none => some { t with store := { t.store with buffer := none } }
      | _, _ => none

/-- What a crash leaves: a block that was being written holds anything. -/
def State.crash (s : State β) (torn : Option (Content β)) (nextFree : Nat) : Recovery β where
  store :=
    { mapping := s.mapDisk
      nextFree
      disk :=
        match s.flying with
        | some pblk => Function.update s.disk pblk torn
        | none => s.disk
      buffer := none }
  pos := s.completed
  switching := none
  writing := none

end Umbra.Block
