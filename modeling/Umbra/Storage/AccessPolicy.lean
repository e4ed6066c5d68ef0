import Mathlib.Data.Fintype.Basic
import Umbra.Foundation.System

/-!
# Access policies after skip-WAL

Every process caches the access policy of a relation in its own handle. A relation created without
WAL is written directly until its creator has built the dense MAP at commit and cleared the pending
flag; a handle that another process opened before keeps the old policy.
-/

namespace Umbra.Policy

open Foundation Function

/-- `UmbraMapPolicy`; a handle that is not open has `UMBRA_MAP_POLICY_UNKNOWN`, which is `none`. -/
inductive MapPolicy
  | bypassMap
  | skipWalPendingMap
  | requireMap
  deriving DecidableEq, Repr

def umStateUsesMap (policy : MapPolicy) : Bool := policy = .requireMap

def umOpenMapState (metadataExists skipWalPending : Bool) : MapPolicy :=
  if !metadataExists then .bypassMap
  else if skipWalPending then .skipWalPendingMap
  else .requireMap

inductive Call
  | idle
  /-- `umwritev` before the physical write: the logical blocks with the blocks they go to. A
  mapped write holds a barrier on each of them. -/
  | writing (mapped : Bool) (run : List (Nat × Nat))
  | remapping (lblk pblk : Nat)
  deriving DecidableEq, Repr

structure Process where
  policy : Option MapPolicy
  /-- Whether the pending flag was cleared when the handle got its policy. -/
  openedCleared : Bool
  call : Call

structure State (n : Nat) where
  procs : Fin n → Process
  metadataExists : Bool
  skipWalPending : Bool
  diskPending : Bool
  nblocks : Nat
  mapping : Nat → Option Nat
  nextFree : Nat
  /-- The pending bits of the in-flight table, each with the process that set it. -/
  inflight : Nat → Option (Fin n)
  rebuilt : Bool
  cleared : Bool

inductive Event (n : Nat)
  /-- `umopen`. -/
  | open (p : Fin n)
  | destroy (p : Fin n)
  /-- `ummapcreate`, called by `umcreaterelationmetadata` and `ummarkskipwalpending`. -/
  | createMetadata
  | markSkipWalPending
  | extend
  | flushSuperblock
  | rebuild
  | clearSkipWalPending
  | writeDirect (p : Fin n) (blocknum nblocks : Nat)
  /-- `umwritev` under a policy that does: claim the barrier of the next block and look it up. -/
  | claimWrite (p : Fin n) (lblk : Nat)
  | flushWrite (p : Fin n)
  | claimRemap (p : Fin n) (lblk : Nat)
  | publishRemap (p : Fin n)
  deriving DecidableEq, Repr

variable {n : Nat} {s t : State n} {e : Event n} {creator : Fin n}

namespace State

def setPolicy (s : State n) (p : Fin n) (policy : Option MapPolicy) : State n :=
  { s with procs := update s.procs p { s.procs p with policy, openedCleared := s.cleared } }

def setCall (s : State n) (p : Fin n) (call : Call) : State n :=
  { s with procs := update s.procs p { s.procs p with call } }

def claim (s : State n) (p : Fin n) (lblk : Nat) : State n :=
  { s with inflight := update s.inflight lblk (some p) }

def release (s : State n) (lblks : List Nat) : State n :=
  { s with inflight := fun l => if l ∈ lblks then none else s.inflight l }

/-- Block `l` at place `l`. The superblock entry is read again from disk, because the cached
metadata is invalidated first. -/
def rebuildDense (s : State n) : State n :=
  { s with
    mapping := fun l => if l < s.nblocks then some l else none
    nextFree := max s.nextFree s.nblocks
    skipWalPending := s.diskPending
    rebuilt := true }

def run (s : State n) (p : Fin n) : List (Nat × Nat) :=
  match (s.procs p).call with
  | .writing _ run => run
  | _ => []

end State

def mappedRun : Call → Option (List (Nat × Nat))
  | .idle => some []
  | .writing true run => some run
  | _ => none

def step (creator : Fin n) (s : State n) : Event n → Option (State n)
  | .open p =>
    if (s.procs p).policy = none then
      some (s.setPolicy p (some (umOpenMapState s.metadataExists s.skipWalPending)))
    else some s
  | .destroy p =>
    if (s.procs p).call = .idle then some (s.setPolicy p none) else none
  | .createMetadata =>
    if (s.procs creator).call = .idle ∧ s.rebuilt = false then
      some { s with metadataExists := true }
    else none
  | .markSkipWalPending =>
    if (s.procs creator).call = .idle ∧ s.metadataExists = true ∧ s.rebuilt = false then
      some ({ s with skipWalPending := true }.setPolicy creator (some .skipWalPendingMap))
    else none
  | .extend =>
    -- the creator writes under its own direct policy up to the rebuild at commit
    if (s.procs creator).call = .idle ∧ (s.procs creator).policy.any (!umStateUsesMap ·) ∧
        s.rebuilt = false then
      some { s with nblocks := s.nblocks + 1 }
    else none
  | .flushSuperblock => some { s with diskPending := s.skipWalPending }
  | .rebuild =>
    if (s.procs creator).call = .idle ∧ s.metadataExists = true ∧ s.cleared = false then
      some s.rebuildDense
    else none
  | .clearSkipWalPending =>
    if (s.procs creator).call = .idle ∧ s.rebuilt = true then
      some ({ s with skipWalPending := false, diskPending := false, cleared := true }.setPolicy
        creator (some .requireMap))
    else none
  | .writeDirect p blocknum nblocks =>
    if (s.procs p).call = .idle ∧ (s.procs p).policy.any (!umStateUsesMap ·) ∧
        blocknum + nblocks ≤ s.nblocks then
      some (s.setCall p (.writing false ((List.range' blocknum nblocks).map fun l => (l, l))))
    else none
  | .claimWrite p lblk =>
    if (s.procs p).policy.any umStateUsesMap ∧ s.inflight lblk = none then do
      let run ← mappedRun (s.procs p).call
      -- an unmapped block is reported as an error and nothing is written
      let pblk ← s.mapping lblk
      some ((s.claim p lblk).setCall p (.writing true (run ++ [(lblk, pblk)])))
    else none
  | .flushWrite p =>
    match (s.procs p).call with
    | .writing true run => some ((s.release (run.map Prod.fst)).setCall p .idle)
    | .writing false _ => some (s.setCall p .idle)
    | _ => none
  | .claimRemap p lblk =>
    -- a later transaction sees the relation only after its creator has committed
    if (s.procs p).call = .idle ∧ (s.procs p).policy.any umStateUsesMap ∧ s.cleared = true ∧
        s.inflight lblk = none ∧ lblk < s.nblocks then
      some (({ s with nextFree := s.nextFree + 1 }.claim p lblk).setCall p
        (.remapping lblk s.nextFree))
    else none
  | .publishRemap p =>
    match (s.procs p).call with
    | .remapping lblk pblk =>
      some (({ s with mapping := update s.mapping lblk (some pblk) }.release
        [lblk]).setCall p .idle)
    | _ => none

def machine (creator : Fin n) : System (State n) (Event n) where
  step := step creator

/-- `uminitnewrelation` of a permanent relation has set the policy of the creator's handle; its
metadata fork is not there yet. -/
def init (creator : Fin n) : State n where
  procs p :=
    { policy := if p = creator then some .requireMap else none, openedCleared := false,
      call := .idle }
  metadataExists := false
  skipWalPending := false
  diskPending := false
  nblocks := 0
  mapping _ := none
  nextFree := 0
  inflight _ := none
  rebuilt := false
  cleared := false

/-! ### Steps -/

inductive Move (creator : Fin n) (s : State n) : Event n → State n → Prop
  | open (p : Fin n) (h : (s.procs p).policy = none) : Move creator s (.open p)
      (s.setPolicy p (some (umOpenMapState s.metadataExists s.skipWalPending)))
  | opened (p : Fin n) : Move creator s (.open p) s
  | destroy (p : Fin n) (h : (s.procs p).call = .idle) :
      Move creator s (.destroy p) (s.setPolicy p none)
  | createMetadata : Move creator s .createMetadata { s with metadataExists := true }
  | markSkipWalPending (h : s.rebuilt = false) : Move creator s .markSkipWalPending
      ({ s with skipWalPending := true }.setPolicy creator (some .skipWalPendingMap))
  | extend (h : s.rebuilt = false) : Move creator s .extend { s with nblocks := s.nblocks + 1 }
  | flushSuperblock : Move creator s .flushSuperblock { s with diskPending := s.skipWalPending }
  | rebuild (hmeta : s.metadataExists = true) (h : s.cleared = false) :
      Move creator s .rebuild s.rebuildDense
  | clearSkipWalPending (h : s.rebuilt = true) : Move creator s .clearSkipWalPending
      ({ s with skipWalPending := false, diskPending := false, cleared := true }.setPolicy
        creator (some .requireMap))
  | writeDirect (p : Fin n) (blocknum nblocks : Nat)
      (hpolicy : (s.procs p).policy.any (!umStateUsesMap ·))
      (hlen : blocknum + nblocks ≤ s.nblocks) :
      Move creator s (.writeDirect p blocknum nblocks)
        (s.setCall p (.writing false ((List.range' blocknum nblocks).map fun l => (l, l))))
  | claimWrite (p : Fin n) (lblk pblk : Nat) (run : List (Nat × Nat))
      (hfree : s.inflight lblk = none) (hrun : mappedRun (s.procs p).call = some run)
      (hmap : s.mapping lblk = some pblk) :
      Move creator s (.claimWrite p lblk)
        ((s.claim p lblk).setCall p (.writing true (run ++ [(lblk, pblk)])))
  | flushMapped (p : Fin n) (run : List (Nat × Nat)) (h : (s.procs p).call = .writing true run) :
      Move creator s (.flushWrite p) ((s.release (run.map Prod.fst)).setCall p .idle)
  | flushDirect (p : Fin n) (run : List (Nat × Nat)) (h : (s.procs p).call = .writing false run) :
      Move creator s (.flushWrite p) (s.setCall p .idle)
  | claimRemap (p : Fin n) (lblk : Nat) (hidle : (s.procs p).call = .idle)
      (hcleared : s.cleared = true) (hfree : s.inflight lblk = none) :
      Move creator s (.claimRemap p lblk)
        (({ s with nextFree := s.nextFree + 1 }.claim p lblk).setCall p
          (.remapping lblk s.nextFree))
  | publishRemap (p : Fin n) (lblk pblk : Nat) (h : (s.procs p).call = .remapping lblk pblk) :
      Move creator s (.publishRemap p)
        (({ s with mapping := update s.mapping lblk (some pblk) }.release [lblk]).setCall p .idle)

lemma Move.of_step (h : (machine creator).step s e = some t) : Move creator s e t := by
  cases e <;> simp only [machine, step] at h
  case «open» p =>
    split at h
    next hnone =>
      cases h
      exact .open p hnone
    next =>
      cases h
      exact .opened p
  case claimWrite p lblk =>
    obtain ⟨⟨-, hfree⟩, h⟩ := Option.ite_none_right_eq_some.mp h
    obtain ⟨run, hrun, h⟩ := Option.bind_eq_some_iff.mp h
    obtain ⟨pblk, hmap, h⟩ := Option.bind_eq_some_iff.mp h
    cases h
    exact .claimWrite p lblk pblk run hfree hrun hmap
  case flushWrite p =>
    split at h
    next run hcall =>
      cases h
      exact .flushMapped p run hcall
    next run hcall =>
      cases h
      exact .flushDirect p run hcall
    next => cases h
  case publishRemap p =>
    split at h
    next lblk pblk hcall =>
      cases h
      exact .publishRemap p lblk pblk hcall
    next => cases h
  case flushSuperblock =>
    cases h
    exact .flushSuperblock
  all_goals
    obtain ⟨hguard, rfl⟩ := guard_eq_some h
  case destroy p => exact .destroy p hguard
  case createMetadata => exact .createMetadata
  case markSkipWalPending => exact .markSkipWalPending hguard.2.2
  case extend => exact .extend hguard.2.2
  case rebuild => exact .rebuild hguard.2.1 hguard.2.2
  case clearSkipWalPending => exact .clearSkipWalPending hguard.2
  case writeDirect p blocknum nblocks =>
    exact .writeDirect p blocknum nblocks hguard.2.1 hguard.2.2
  case claimRemap p lblk => exact .claimRemap p lblk hguard.1 hguard.2.2.1 hguard.2.2.2.1

namespace State

variable (s : State n) (p q : Fin n)

@[simp] lemma call_setPolicy (policy) :
    ((s.setPolicy p policy).procs q).call = (s.procs q).call := by
  rcases eq_or_ne q p with rfl | h
  · simp [setPolicy]
  · simp [setPolicy, h]

lemma call_setCall_self (call) : ((s.setCall p call).procs p).call = call := by
  simp [setCall]

variable {p q} in
lemma call_setCall_of_ne (call) (h : q ≠ p) :
    ((s.setCall p call).procs q).call = (s.procs q).call := by
  simp [setCall, h]

variable {s p q}

lemma inflight_claim_of_held {lblk l : Nat} (hfree : s.inflight lblk = none)
    (hl : s.inflight l = some q) : (s.claim p lblk).inflight l = some q := by
  have hne : l ≠ lblk := by
    rintro rfl
    rw [hfree] at hl
    cases hl
  exact (update_of_ne hne ..).trans hl

lemma inflight_release_of_held {lblks l} (howner : ∀ l ∈ lblks, s.inflight l = some p) (hne : q ≠ p)
    (hl : s.inflight l = some q) : l ∉ lblks ∧ (s.release lblks).inflight l = some q := by
  have hnot : l ∉ lblks := by
    intro hmem
    rw [howner l hmem] at hl
    exact hne (Option.some.inj hl).symm
  exact ⟨hnot, (if_neg hnot).trans hl⟩

end State

/-! ### The invariant -/

def CallOk (s : State n) (p : Fin n) : Call → Prop
  | .idle => True
  | .writing false run => ∀ x ∈ run, x.2 = x.1 ∧ x.1 < s.nblocks ∧
      (s.cleared = true → s.mapping x.1 = some x.1)
  | .writing true run => ∀ x ∈ run, s.mapping x.1 = some x.2 ∧ s.inflight x.1 = some p
  | .remapping lblk _ => s.cleared = true ∧ s.inflight lblk = some p

/-- Until it is cleared, the mapping is none at all or the dense one. -/
structure Agrees (s : State n) : Prop where
  unbuilt : s.rebuilt = false → ∀ l, s.mapping l = none
  rebuilt_of_cleared : s.cleared = true → s.rebuilt = true
  dense : s.rebuilt = true → s.cleared = false →
    ∀ l, s.mapping l = if l < s.nblocks then some l else none
  call : ∀ p, CallOk s p (s.procs p).call

def directRun : Call → List (Nat × Nat)
  | .writing false run => run
  | _ => []

/-- A process that starts a write without MAP after the flag is cleared opened its handle after it,
and a block moves only while no such write of it is under way. -/
def FreshHandles (s : State n) : Event n → Prop
  | .writeDirect p _ _ => s.cleared = true → (s.procs p).openedCleared = true
  | .publishRemap p =>
    match (s.procs p).call with
    | .remapping lblk _ => ∀ q, ∀ x ∈ directRun (s.procs q).call, x.1 ≠ lblk
    | _ => True
  | _ => True

instance (s : State n) (e : Event n) : Decidable (FreshHandles s e) := by
  unfold FreshHandles
  split
  · infer_instance
  · split <;> infer_instance
  · infer_instance

/-- What a handle opened after the clearing finds. -/
structure Handles (s : State n) : Prop where
  metadata : s.rebuilt = true → s.metadataExists = true
  settled : s.cleared = true → s.rebuilt = true ∧ s.skipWalPending = false
  mapped : ∀ p, (s.procs p).openedCleared = true → ∀ policy ∈ (s.procs p).policy,
    policy = .requireMap

namespace Handles

lemma init (creator : Fin n) : Handles (init creator) where
  metadata := nofun
  settled := nofun
  mapped _ := nofun

lemma setPolicy (h : Handles s) (p : Fin n) {policy : Option MapPolicy}
    (hpolicy : s.cleared = true → ∀ pol ∈ policy, pol = .requireMap) :
    Handles (s.setPolicy p policy) where
  metadata := h.metadata
  settled := h.settled
  mapped q := by
    rcases eq_or_ne q p with rfl | hne
    · simpa [State.setPolicy] using hpolicy
    · simpa [State.setPolicy, hne] using h.mapped q

lemma setCall (h : Handles s) (p : Fin n) (call) : Handles (s.setCall p call) where
  metadata := h.metadata
  settled := h.settled
  mapped q := by
    rcases eq_or_ne q p with rfl | hne
    · simpa [State.setCall] using h.mapped q
    · simpa [State.setCall, hne] using h.mapped q

lemma step (h : Handles s) (hstep : (machine creator).step s e = some t) : Handles t := by
  cases Move.of_step hstep with
  | «open» p =>
    refine h.setPolicy p fun hc pol hpol => ?_
    obtain ⟨hrebuilt, hpending⟩ := h.settled hc
    cases hpol
    simp [umOpenMapState, h.metadata hrebuilt, hpending]
  | opened => exact h
  | destroy p => exact h.setPolicy p fun _ => nofun
  | createMetadata => exact ⟨fun _ => rfl, h.settled, h.mapped⟩
  | markSkipWalPending hr =>
    -- the flag is set before the rebuild, so before the clearing
    have hc : s.cleared = true → False := fun hc => absurd (h.settled hc).1 (by simp [hr])
    have hs : Handles { s with skipWalPending := true } :=
      ⟨h.metadata, fun hc' => (hc hc').elim, h.mapped⟩
    exact hs.setPolicy creator fun hc' => (hc hc').elim
  | extend | flushSuperblock => exact ⟨h.metadata, h.settled, h.mapped⟩
  | rebuild hmeta hc =>
    exact ⟨fun _ => hmeta, fun hc' => absurd (hc'.symm.trans hc) nofun, h.mapped⟩
  | clearSkipWalPending hr =>
    have hs : Handles { s with skipWalPending := false, diskPending := false, cleared := true } :=
      ⟨h.metadata, fun _ => ⟨hr, rfl⟩, h.mapped⟩
    refine hs.setPolicy creator fun _ pol hpol => ?_
    cases hpol
    rfl
  | writeDirect p | flushDirect p => exact h.setCall p _
  | claimWrite p | flushMapped p | claimRemap p | publishRemap p =>
    refine setCall ?_ p _
    exact ⟨h.metadata, h.settled, h.mapped⟩

end Handles

lemma agrees_init (creator : Fin n) : Agrees (init creator) where
  unbuilt _ _ := rfl
  rebuilt_of_cleared h := h
  dense h := nomatch h
  call _ := trivial

lemma Agrees.of_frame (h : Agrees s)
    (hcall : ∀ p, (t.procs p).call = (s.procs p).call) (hmap : t.mapping = s.mapping)
    (hinflight : t.inflight = s.inflight) (hn : t.nblocks = s.nblocks)
    (hrebuilt : t.rebuilt = s.rebuilt) (hcleared : t.cleared = s.cleared) : Agrees t where
  unbuilt := by
    rw [hrebuilt, hmap]
    exact h.unbuilt
  rebuilt_of_cleared := by
    rw [hrebuilt, hcleared]
    exact h.rebuilt_of_cleared
  dense := by
    rw [hrebuilt, hcleared, hn, hmap]
    exact h.dense
  call p := by
    have hp := h.call p
    rw [hcall]
    unfold CallOk at hp ⊢
    rwa [hmap, hinflight, hn, hcleared]

variable {p : Fin n} {call : Call}

lemma Agrees.setCall (h : Agrees s) (hprocs : t.procs = s.procs)
    (hunbuilt : t.rebuilt = false → ∀ l, t.mapping l = none)
    (hrebuilt : t.cleared = true → t.rebuilt = true)
    (hdense : t.rebuilt = true → t.cleared = false →
      ∀ l, t.mapping l = if l < t.nblocks then some l else none) (hself : CallOk t p call)
    (hothers : ∀ q ≠ p, CallOk s q (s.procs q).call → CallOk t q (s.procs q).call) :
    Agrees (t.setCall p call) where
  unbuilt := hunbuilt
  rebuilt_of_cleared := hrebuilt
  dense := hdense
  call q := by
    rcases eq_or_ne q p with rfl | hne
    · rw [t.call_setCall_self]
      exact hself
    · rw [t.call_setCall_of_ne call hne, hprocs]
      exact hothers q hne (h.call q)

lemma CallOk.mono (h : CallOk s p call)
    (hmap : ∀ x ∈ directRun call, s.mapping x.1 = some x.1 → t.mapping x.1 = some x.1)
    (hheld : ∀ l, s.inflight l = some p → t.inflight l = some p ∧
      ∀ pblk, s.mapping l = some pblk → t.mapping l = some pblk)
    (hn : s.nblocks ≤ t.nblocks) (hcleared : t.cleared = s.cleared) : CallOk t p call := by
  match call with
  | .idle => exact trivial
  | .writing false run =>
    intro x hx
    obtain ⟨heq, hlt, hplace⟩ := h x hx
    exact ⟨heq, hlt.trans_le hn, fun hc => hmap x hx (hplace (hcleared ▸ hc))⟩
  | .writing true run =>
    intro x hx
    obtain ⟨hx1, hx2⟩ := h x hx
    obtain ⟨hi, hm⟩ := hheld _ hx2
    exact ⟨hm _ hx1, hi⟩
  | .remapping lblk pblk => exact ⟨hcleared.trans h.1, (hheld lblk h.2).1⟩

lemma Agrees.mapped_of_dense (h : Agrees s) (hc : s.cleared = false) {l pblk}
    (hm : s.mapping l = some pblk) : l < s.nblocks ∧ pblk = l := by
  cases hr : s.rebuilt with
  | false =>
    rw [h.unbuilt hr l] at hm
    cases hm
  | true =>
    rw [h.dense hr hc l] at hm
    split at hm
    next hlt =>
      cases hm
      exact ⟨hlt, rfl⟩
    next => cases hm

lemma Agrees.rebuildDense (h : Agrees s) (hc : s.cleared = false) : Agrees s.rebuildDense := by
  have hkeep : ∀ l pblk, s.mapping l = some pblk → s.rebuildDense.mapping l = some pblk := by
    intro l pblk hl
    obtain ⟨hlt, rfl⟩ := h.mapped_of_dense hc hl
    exact if_pos hlt
  exact {
    unbuilt := nofun
    rebuilt_of_cleared := fun _ => rfl
    dense := fun _ _ _ => rfl
    call := fun p => (h.call p).mono (fun _ _ => hkeep _ _) (fun l hl => ⟨hl, hkeep l⟩) le_rfl rfl }

lemma Agrees.extend (h : Agrees s) (hr : s.rebuilt = false) :
    Agrees { s with nblocks := s.nblocks + 1 } where
  unbuilt := h.unbuilt
  rebuilt_of_cleared := h.rebuilt_of_cleared
  dense hr' := by
    rw [hr] at hr'
    cases hr'
  call p := (h.call p).mono (fun _ _ => id) (fun _ hl => ⟨hl, fun _ => id⟩) (Nat.le_succ _) rfl

lemma Agrees.clear (h : Agrees s) (hr : s.rebuilt = true) :
    Agrees { s with skipWalPending := false, diskPending := false, cleared := true } where
  unbuilt := h.unbuilt
  rebuilt_of_cleared _ := hr
  dense _ := nofun
  call p := by
    have hp := h.call p
    match hcall : (s.procs p).call with
    | .idle => exact trivial
    | .writing false run =>
      rw [hcall] at hp
      intro x hx
      obtain ⟨heq, hlt, hplace⟩ := hp x hx
      refine ⟨heq, hlt, fun _ => ?_⟩
      cases hc : s.cleared with
      | false => exact (h.dense hr hc x.1).trans (if_pos hlt)
      | true => exact hplace hc
    | .writing true run =>
      rw [hcall] at hp
      exact hp
    | .remapping lblk pblk =>
      rw [hcall] at hp
      exact ⟨rfl, hp.2⟩

lemma CallOk.mappedRun {run} (h : CallOk s p call) (hrun : mappedRun call = some run) :
    ∀ x ∈ run, s.mapping x.1 = some x.2 ∧ s.inflight x.1 = some p := by
  match call, hrun with
  | .idle, rfl => nofun
  | .writing true _, rfl => exact h

lemma Agrees.step (h : Agrees s) (hh : Handles s) (hok : FreshHandles s e)
    (hstep : (machine creator).step s e = some t) : Agrees t := by
  cases Move.of_step hstep with
  | «open» p =>
    exact h.of_frame (fun q => s.call_setPolicy p q _) rfl rfl rfl rfl rfl
  | opened => exact h
  | destroy p => exact h.of_frame (fun q => s.call_setPolicy p q _) rfl rfl rfl rfl rfl
  | createMetadata | flushSuperblock => exact h.of_frame (fun _ => rfl) rfl rfl rfl rfl rfl
  | markSkipWalPending =>
    exact h.of_frame (fun q => State.call_setPolicy _ creator q _) rfl rfl rfl rfl rfl
  | extend hr => exact h.extend hr
  | rebuild _ hc => exact h.rebuildDense hc
  | clearSkipWalPending hr =>
    exact (h.clear hr).of_frame (fun q => State.call_setPolicy _ creator q _) rfl rfl rfl rfl rfl
  | writeDirect p blocknum nblocks hpolicy hlen =>
    refine h.setCall rfl h.unbuilt h.rebuilt_of_cleared h.dense ?_ fun _ _ => id
    intro x hx
    obtain ⟨l, hl, rfl⟩ := List.mem_map.mp hx
    obtain ⟨-, hlt⟩ := List.mem_range'_1.mp hl
    refine ⟨rfl, hlt.trans_le hlen, fun hc => ?_⟩
    -- a handle opened after the clearing requires the MAP, so it does not write directly
    cases hpol : (s.procs p).policy with
    | none => simp [hpol] at hpolicy
    | some pol => simp [hpol, hh.mapped p (hok hc) pol hpol, umStateUsesMap] at hpolicy
  | claimWrite p lblk pblk run hfree hrun hmap =>
    refine h.setCall rfl h.unbuilt h.rebuilt_of_cleared h.dense ?_ ?_
    · refine List.forall_mem_append.mpr ⟨fun x hx => ?_, List.forall_mem_singleton.mpr ?_⟩
      · obtain ⟨hm, hi⟩ := (h.call p).mappedRun hrun x hx
        exact ⟨hm, State.inflight_claim_of_held hfree hi⟩
      · exact ⟨hmap, update_self ..⟩
    · intro q hq hcall
      exact hcall.mono (fun _ _ => id)
        (fun l hl => ⟨State.inflight_claim_of_held hfree hl, fun _ => id⟩) le_rfl rfl
  | flushMapped p run hcall =>
    have hown : ∀ l ∈ run.map Prod.fst, s.inflight l = some p := by
      have hp := h.call p
      rw [hcall] at hp
      intro l hl
      obtain ⟨x, hx, rfl⟩ := List.mem_map.mp hl
      exact (hp x hx).2
    refine h.setCall rfl h.unbuilt h.rebuilt_of_cleared h.dense trivial ?_
    intro q hq hcallq
    exact hcallq.mono (fun _ _ => id)
      (fun l hl => ⟨(State.inflight_release_of_held hown hq hl).2, fun _ => id⟩) le_rfl rfl
  | flushDirect =>
    exact h.setCall rfl h.unbuilt h.rebuilt_of_cleared h.dense trivial fun _ _ => id
  | claimRemap p lblk hidle hcleared hfree =>
    refine h.setCall rfl h.unbuilt h.rebuilt_of_cleared h.dense
      ⟨hcleared, update_self ..⟩ ?_
    intro q hq hcall
    exact hcall.mono (fun _ _ => id)
      (fun l hl => ⟨State.inflight_claim_of_held hfree hl, fun _ => id⟩) le_rfl rfl
  | publishRemap p lblk pblk hcall =>
    have hp := h.call p
    rw [hcall] at hp
    obtain ⟨hcleared, hheld⟩ := hp
    have hrebuilt := h.rebuilt_of_cleared hcleared
    have hdirect : ∀ q, ∀ x ∈ directRun (s.procs q).call, x.1 ≠ lblk := by
      simpa only [FreshHandles, hcall] using hok
    have hown : ∀ l ∈ [lblk], s.inflight l = some p := by
      intro l hl
      rw [List.mem_singleton.mp hl]
      exact hheld
    refine h.setCall rfl (fun hr => ?_) (fun _ => hrebuilt) (fun _ hc => ?_) trivial ?_
    · exact absurd (hrebuilt.symm.trans hr) nofun
    · exact absurd (hcleared.symm.trans hc) nofun
    · intro q hq hcallq
      refine hcallq.mono (fun x hx hm => (update_of_ne (hdirect q x hx) ..).trans hm)
        (fun l hl => ?_) le_rfl rfl
      -- the other process is at a block whose pending bit it holds, so not at the one that moves
      obtain ⟨hnot, hrel⟩ := State.inflight_release_of_held hown hq hl
      refine ⟨hrel, fun _ hm => ?_⟩
      exact (update_of_ne (fun heq => hnot (List.mem_singleton.mpr heq)) ..).trans hm

/-! ### Where write-backs go -/

/-- In a run in which every process that writes without MAP after the flag is cleared opened its
handle after it, every write goes to the block that the current mapping assigns. -/
theorem write_follows_mapping {creator : Fin n} {s : State n}
    (h : (machine creator).Reaches FreshHandles (init creator) s) (hcleared : s.cleared = true)
    (p : Fin n) : ∀ x ∈ s.run p, s.mapping x.1 = some x.2 := by
  obtain ⟨-, hinv⟩ : Handles s ∧ Agrees s :=
    h.invariant (I := fun s => Handles s ∧ Agrees s) ⟨.init creator, agrees_init creator⟩
      fun hI hok hstep => ⟨hI.1.step hstep, hI.2.step hI.1 hok hstep⟩
  have hcall := hinv.call p
  intro x hx
  unfold State.run at hx
  split at hx
  next mapped run hw =>
    rw [hw] at hcall
    cases mapped with
    | false =>
      obtain ⟨heq, -, hplace⟩ := hcall x hx
      rw [heq]
      exact hplace hcleared
    | true => exact (hcall x hx).1
  next => cases hx

/-- Process `q` starts a write of block 1 before the flag is cleared; processes `p` and `r` write
back through the MAP after it, `r` with a handle of its own. -/
def writesAcross (p q r : Fin n) : List (Event n) :=
  [.createMetadata, .markSkipWalPending, .extend, .extend, .open q, .rebuild, .writeDirect q 1 1,
   .clearSkipWalPending, .open r, .claimRemap p 0, .publishRemap p, .claimWrite p 0,
   .claimWrite r 1]

theorem write_follows_mapping_writesAcross :
    let s := ((machine 0).restrict FreshHandles).after (init (0 : Fin 3)) (writesAcross 0 1 2)
    s.cleared = true ∧ s.run 1 = [(1, 1)] ∧ s.run 0 = [(0, 2)] ∧ s.run 2 = [(1, 1)] ∧
      ∀ p, ∀ x ∈ s.run p, s.mapping x.1 = some x.2 :=
  ⟨by decide, by decide, by decide, by decide, fun p =>
    write_follows_mapping (System.Reaches.of_isSome (by decide)) (by decide) p⟩

/-- Process `q` keeps the policy of the pending flag; the update after the commit moves block 0. -/
def staleWriteBack (p q : Fin n) : List (Event n) :=
  [.createMetadata, .markSkipWalPending, .extend, .open q, .rebuild, .clearSkipWalPending,
   .claimRemap p 0, .publishRemap p, .writeDirect q 0 1]

/-- Its write-back of block 0 goes to block 0 of the file, where the mapping no longer has it. -/
theorem stale_policy_write :
    ((machine 0).run (init (0 : Fin 2)) (staleWriteBack 0 1)).isSome = true ∧
      let s := (machine 0).after (init (0 : Fin 2)) (staleWriteBack 0 1)
      s.cleared = true ∧ s.run 1 = [(0, 0)] ∧ s.mapping 0 = some 1 := by
  decide

end Umbra.Policy
