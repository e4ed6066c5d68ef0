import Mathlib.Logic.Function.Basic

/-!
# Block numbers, forks and log positions

Logical block numbers (`lblk`), physical block numbers (`pblk`) and log positions (`lsn`) are
natural numbers; the on-disk sentinel `InvalidBlockNumber` is `none`. A log position counts the
records in front of it: the record at index `i` ends at position `i + 1`.
-/

namespace Umbra

def invalidBlockNumber : Nat := 0xFFFFFFFF

def invalidXLogRecPtr : Nat := 0

/-- The forks whose blocks are translated through the MAP. -/
inductive ForkNumber
  | main
  | fsm
  | vm
  deriving DecidableEq, Repr

structure RelFileLocator where
  spcOid : UInt32
  dbOid : UInt32
  relNumber : UInt32
  deriving DecidableEq, Repr

abbrev BlockKey := ForkNumber × Nat

def mapEntriesPerPage : Nat := 2048

/-- A MAP page: the fork it translates and its index among the MAP pages of that fork. -/
abbrev MapPageId := ForkNumber × Nat

def mapPageOf (k : BlockKey) : MapPageId := (k.1, k.2 / mapEntriesPerPage)

end Umbra
