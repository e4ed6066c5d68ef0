import Umbra.Basic
import Mathlib.Tactic.SplitIfs

/-!
# Where a MAP entry lives

The metadata fork is laid out in groups of one FSM page, one VM page and 8192 MAIN pages behind the
superblock. A logical block is addressed by the page of its fork that holds its entry and the index
of the entry on that page; the address determines the block.
-/

namespace Umbra

def maxBlockNumber : Nat := 0xFFFFFFFE

/-- `MAP_BLOCK_FIRST_GROUP`: block 0 of the metadata fork is the superblock. -/
def mapBlockFirstGroup : Nat := 1

def mapGroupFsmPages : Nat := 1

def mapGroupVmPages : Nat := 1

def mapGroupMainPages : Nat := 8192

def mapGroupTotalPages : Nat := mapGroupFsmPages + mapGroupVmPages + mapGroupMainPages

def mapForkPagePosition (fork : ForkNumber) (forkPageIdx : Nat) : Nat :=
  match fork with
  | .fsm => mapBlockFirstGroup + forkPageIdx * mapGroupTotalPages
  | .vm => mapBlockFirstGroup + forkPageIdx * mapGroupTotalPages + mapGroupFsmPages
  | .main =>
    mapBlockFirstGroup + forkPageIdx / mapGroupMainPages * mapGroupTotalPages + mapGroupFsmPages
      + mapGroupVmPages + forkPageIdx % mapGroupMainPages

def mapForkPageIndexToMapBlkno (fork : ForkNumber) (forkPageIdx : Nat) : Option Nat :=
  if mapForkPagePosition fork forkPageIdx > maxBlockNumber then none
  else some (mapForkPagePosition fork forkPageIdx)

def mapLblknoToMapBlkno (fork : ForkNumber) (lblkno : Nat) : Option Nat :=
  (mapForkPageIndexToMapBlkno fork (lblkno / mapEntriesPerPage)).bind fun page =>
    if page * mapEntriesPerPage + lblkno % mapEntriesPerPage > maxBlockNumber then none
    else some (page * mapEntriesPerPage + lblkno % mapEntriesPerPage)

def mapInflightDecode (fork : ForkNumber) (lblkno : Nat) : Option (Nat × Nat) :=
  (mapLblknoToMapBlkno fork lblkno).map fun entryNo =>
    (entryNo / mapEntriesPerPage, entryNo % mapEntriesPerPage)

def mapDecodeMapBlkno (mapBlkno : Nat) : Option (ForkNumber × Nat) :=
  if mapBlkno < mapBlockFirstGroup then none
  else
    if (mapBlkno - mapBlockFirstGroup) % mapGroupTotalPages < mapGroupFsmPages then
      some (.fsm, (mapBlkno - mapBlockFirstGroup) / mapGroupTotalPages)
    else if (mapBlkno - mapBlockFirstGroup) % mapGroupTotalPages - mapGroupFsmPages
        < mapGroupVmPages then
      some (.vm, (mapBlkno - mapBlockFirstGroup) / mapGroupTotalPages)
    else if (mapBlkno - mapBlockFirstGroup) % mapGroupTotalPages - mapGroupFsmPages
        - mapGroupVmPages < mapGroupMainPages then
      some (.main, (mapBlkno - mapBlockFirstGroup) / mapGroupTotalPages * mapGroupMainPages
        + ((mapBlkno - mapBlockFirstGroup) % mapGroupTotalPages - mapGroupFsmPages
          - mapGroupVmPages))
    else none

lemma mapForkPagePosition_spec (fork idx) :
    mapBlockFirstGroup ≤ mapForkPagePosition fork idx ∧
      (mapForkPagePosition fork idx - mapBlockFirstGroup) / mapGroupTotalPages
        = (if fork = .main then idx / mapGroupMainPages else idx) ∧
      (mapForkPagePosition fork idx - mapBlockFirstGroup) % mapGroupTotalPages = match fork with
          | .fsm => 0
          | .vm => 1
          | .main => 2 + idx % mapGroupMainPages := by
  cases fork with
  | fsm =>
    show 1 ≤ 1 + idx * 8194 ∧ (1 + idx * 8194 - 1) / 8194 = idx ∧ (1 + idx * 8194 - 1) % 8194 = 0
    omega
  | vm =>
    show 1 ≤ 1 + idx * 8194 + 1 ∧ (1 + idx * 8194 + 1 - 1) / 8194 = idx ∧
      (1 + idx * 8194 + 1 - 1) % 8194 = 1
    omega
  | main =>
    show 1 ≤ 1 + idx / 8192 * 8194 + 1 + 1 + idx % 8192 ∧
      (1 + idx / 8192 * 8194 + 1 + 1 + idx % 8192 - 1) / 8194 = idx / 8192 ∧
      (1 + idx / 8192 * 8194 + 1 + 1 + idx % 8192 - 1) % 8194 = 2 + idx % 8192
    omega

theorem mapDecodeMapBlkno_mapForkPagePosition (fork : ForkNumber) (idx : Nat) :
    mapDecodeMapBlkno (mapForkPagePosition fork idx) = some (fork, idx) := by
  obtain ⟨hge, hdiv, hmod⟩ := mapForkPagePosition_spec fork idx
  rw [mapDecodeMapBlkno, hdiv, hmod, if_neg (Nat.not_lt.mpr hge)]
  cases fork with
  | fsm => rfl
  | vm => rfl
  | main =>
    have hlt : idx % mapGroupMainPages < mapGroupMainPages := Nat.mod_lt _ (by decide)
    have hsub : 2 + idx % mapGroupMainPages - mapGroupFsmPages - mapGroupVmPages
        = idx % mapGroupMainPages := by
      show 2 + idx % mapGroupMainPages - 1 - 1 = _
      omega
    have hfsm : ¬ 2 + idx % mapGroupMainPages < mapGroupFsmPages := by
      show ¬ 2 + idx % mapGroupMainPages < 1
      omega
    have hvm : ¬ 2 + idx % mapGroupMainPages - mapGroupFsmPages < mapGroupVmPages := by
      show ¬ 2 + idx % mapGroupMainPages - 1 < 1
      omega
    simp only [if_true, hfsm, hvm, hsub, hlt, if_false, Nat.div_add_mod']

variable {idx lblkno : Nat} {fork : ForkNumber} {page : Nat}

lemma mapForkPagePosition_mono (fork) {idx'} (h : idx ≤ idx') :
    mapForkPagePosition fork idx ≤ mapForkPagePosition fork idx' := by
  cases fork with
  | fsm =>
    show 1 + idx * 8194 ≤ 1 + idx' * 8194
    omega
  | vm =>
    show 1 + idx * 8194 + 1 ≤ 1 + idx' * 8194 + 1
    omega
  | main =>
    show 1 + idx / 8192 * 8194 + 1 + 1 + idx % 8192 ≤ 1 + idx' / 8192 * 8194 + 1 + 1 + idx' % 8192
    omega

lemma mapInflightDecode_eq_some (h : mapInflightDecode fork lblkno = some (page, idx)) :
    page = mapForkPagePosition fork (lblkno / mapEntriesPerPage) ∧
      idx = lblkno % mapEntriesPerPage := by
  obtain ⟨entryNo, hentry, heq⟩ := Option.map_eq_some_iff.mp h
  obtain ⟨p, hp, hentry⟩ := Option.bind_eq_some_iff.mp hentry
  obtain ⟨-, hp⟩ := Option.ite_none_left_eq_some.mp hp
  obtain ⟨-, hentry⟩ := Option.ite_none_left_eq_some.mp hentry
  cases hp
  cases hentry
  simp only [mapEntriesPerPage, Prod.mk.injEq] at heq ⊢
  omega

lemma mapInflightDecode_lt (h : mapInflightDecode fork lblkno = some (page, idx)) :
    idx < mapEntriesPerPage := by
  rw [(mapInflightDecode_eq_some h).2]
  exact Nat.mod_lt _ (by decide)

theorem mapInflightDecode_injective {lblkno' a} (h : mapInflightDecode fork lblkno = some a)
    (h' : mapInflightDecode fork lblkno' = some a) : lblkno = lblkno' := by
  obtain ⟨hpage, hidx⟩ := mapInflightDecode_eq_some h
  obtain ⟨hpage', hidx'⟩ := mapInflightDecode_eq_some h'
  have hdiv : lblkno / mapEntriesPerPage = lblkno' / mapEntriesPerPage := by
    have hdec := mapDecodeMapBlkno_mapForkPagePosition fork (lblkno / mapEntriesPerPage)
    rw [← hpage, hpage', mapDecodeMapBlkno_mapForkPagePosition] at hdec
    simpa using hdec.symm
  rw [← Nat.div_add_mod lblkno mapEntriesPerPage, ← Nat.div_add_mod lblkno' mapEntriesPerPage,
    hdiv, ← hidx, ← hidx']

end Umbra
