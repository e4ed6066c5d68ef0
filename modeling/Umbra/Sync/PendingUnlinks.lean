import Umbra.Foundation.System
import Umbra.Basic
import Mathlib.Data.List.Pairwise
import Mathlib.Data.List.Perm.Basic

/-!
# The pending unlink list of the checkpointer

`SyncPostCheckpoint` walks the list of pending unlink requests by position and absorbs further
requests after every ten unlinks. A filter request absorbed there deletes cells of the list that is
being walked. The state logs which requests were unlinked and which were removed by a filter.
-/

namespace Umbra.Sync

open Foundation List

def unlinksPerAbsorb : Nat := 10

inductive UnlinkRequestType
  | unlink
  | reclaim
  deriving DecidableEq, Repr

/-- `PendingUnlinkEntry`, with the number of the request. `cycle_ctr` holds the low 16 bits of
`cycle`. -/
structure PendingUnlinkEntry (τ : Type*) where
  id : Nat
  tag : τ
  requestType : UnlinkRequestType
  cycle : Nat
  canceled : Bool
  deriving DecidableEq

/-- `CycleCtr` is a `uint16`. -/
def cycleCtr (cycle : Nat) : Nat := cycle % 2 ^ 16

/-- The loop variables of `SyncPostCheckpoint`; `absorbing` while it is in `AbsorbSyncRequests`. -/
structure PostLoop where
  idx : Nat
  absorbCounter : Nat
  absorbing : Bool
  deriving DecidableEq, Repr

/-- The state of `sync.c` as far as unlink requests go. `dangling` records that the list was freed
under the loop. -/
structure State (τ : Type*) where
  pendingUnlinks : List (PendingUnlinkEntry τ)
  cycle : Nat
  loop : Option PostLoop
  dangling : Bool
  nextId : Nat
  unlinked : List Nat
  filtered : List Nat

/-- The two kinds of absorbed requests, `SyncPreCheckpoint`, the call of `SyncPostCheckpoint`, one
turn of its loop, and the return of `AbsorbSyncRequests` inside it. -/
inductive Event (τ : Type*)
  | register (tag : τ) (requestType : UnlinkRequestType)
  | filter (ftag : τ)
  | preCheckpoint
  | postCheckpoint
  | iterate
  | absorbed

variable {τ : Type*} (filetagmatches : τ → τ → Bool)

def cancels (ftag : τ) (entry : PendingUnlinkEntry τ) : Bool :=
  entry.requestType = .reclaim && filetagmatches ftag entry.tag

namespace State

def Absorbs (s : State τ) : Prop := ∀ l, s.loop = some l → l.absorbing = true

instance (s : State τ) : Decidable s.Absorbs :=
  match h : s.loop with
  | none => isTrue fun l hl => by rw [h] at hl; cases hl
  | some l =>
    if ha : l.absorbing = true then isTrue fun l' hl => by rw [h] at hl; cases hl; exact ha
    else isFalse fun hs => ha (hs l h)

def register (s : State τ) (tag : τ) (requestType : UnlinkRequestType) : State τ :=
  { s with
    pendingUnlinks := s.pendingUnlinks ++ [⟨s.nextId, tag, requestType, s.cycle, false⟩]
    nextId := s.nextId + 1 }

/-- The filter branch of `RememberSyncRequest`. Deleting the last cell frees the list. -/
def filter (s : State τ) (ftag : τ) : State τ :=
  { s with
    pendingUnlinks := s.pendingUnlinks.filter fun entry => !cancels filetagmatches ftag entry
    filtered := s.filtered ++ (s.pendingUnlinks.filter fun entry =>
      cancels filetagmatches ftag entry && !entry.canceled).map PendingUnlinkEntry.id
    dangling := s.dangling || s.loop.isSome && !s.pendingUnlinks.isEmpty
      && (s.pendingUnlinks.filter fun entry => !cancels filetagmatches ftag entry).isEmpty }

def unlinkCurrent (s : State τ) (l : PostLoop) (entry : PendingUnlinkEntry τ) : State τ :=
  { s with
    pendingUnlinks := s.pendingUnlinks.set l.idx { entry with canceled := true }
    unlinked := s.unlinked ++ [entry.id]
    loop := some
      (if l.absorbCounter ≤ 1 then ⟨l.idx, l.absorbCounter, true⟩
        else ⟨l.idx + 1, l.absorbCounter - 1, false⟩) }

/-- One turn of the loop of `SyncPostCheckpoint`, the code behind the loop included. -/
def iterate (s : State τ) (l : PostLoop) : State τ :=
  match s.pendingUnlinks[l.idx]? with
  | none => { s with pendingUnlinks := [], loop := none }
  | some entry =>
    if entry.canceled then { s with loop := some { l with idx := l.idx + 1 } }
    else if cycleCtr entry.cycle = cycleCtr s.cycle then
      { s with pendingUnlinks := s.pendingUnlinks.drop l.idx, loop := none }
    else s.unlinkCurrent l entry

end State

/-- Walking a list that was freed has no defined outcome. -/
def step (s : State τ) : Event τ → Option (State τ)
  | .register tag requestType => if s.Absorbs then some (s.register tag requestType) else none
  | .filter ftag => if s.Absorbs then some (s.filter filetagmatches ftag) else none
  | .preCheckpoint => if s.loop = none then some { s with cycle := s.cycle + 1 } else none
  | .postCheckpoint =>
    if s.loop = none then some { s with loop := some ⟨0, unlinksPerAbsorb, false⟩ } else none
  | .iterate =>
    match s.loop with
    | some l => if l.absorbing || s.dangling then none else some (s.iterate l)
    | none => none
  | .absorbed =>
    match s.loop with
    | some l =>
      if l.absorbing then some { s with loop := some ⟨l.idx + 1, unlinksPerAbsorb, false⟩ }
      else none
    | none => none

def sync : System (State τ) (Event τ) := ⟨step filetagmatches⟩

def State.init : State τ := ⟨[], 0, none, false, 0, [], []⟩

/-! ### What a step can do -/

inductive Move (s : State τ) : Event τ → State τ → Prop
  | register (h : s.Absorbs) (tag : τ) (requestType : UnlinkRequestType) :
      Move s (.register tag requestType) (s.register tag requestType)
  | filter (h : s.Absorbs) (ftag : τ) : Move s (.filter ftag) (s.filter filetagmatches ftag)
  | preCheckpoint (h : s.loop = none) : Move s .preCheckpoint { s with cycle := s.cycle + 1 }
  | postCheckpoint (h : s.loop = none) :
      Move s .postCheckpoint { s with loop := some ⟨0, unlinksPerAbsorb, false⟩ }
  | iterate {l} (h : s.loop = some l) (habs : l.absorbing = false) : Move s .iterate (s.iterate l)
  | absorbed {l} (h : s.loop = some l) (habs : l.absorbing = true) :
      Move s .absorbed { s with loop := some ⟨l.idx + 1, unlinksPerAbsorb, false⟩ }

variable {filetagmatches} {s t : State τ} {e : Event τ} {l : PostLoop}
  {entry : PendingUnlinkEntry τ}

lemma Move.of_step (h : (sync filetagmatches).step s e = some t) : Move filetagmatches s e t := by
  cases e with
  | register tag requestType =>
    obtain ⟨hc, rfl⟩ := guard_eq_some h
    exact .register hc tag requestType
  | filter ftag =>
    obtain ⟨hc, rfl⟩ := guard_eq_some h
    exact .filter hc ftag
  | preCheckpoint =>
    obtain ⟨hc, rfl⟩ := guard_eq_some h
    exact .preCheckpoint hc
  | postCheckpoint =>
    obtain ⟨hc, rfl⟩ := guard_eq_some h
    exact .postCheckpoint hc
  | iterate =>
    simp only [sync, step] at h
    split at h
    · rename_i l hl
      obtain ⟨hc, h⟩ := Option.ite_none_left_eq_some.mp h
      cases h
      simp only [Bool.or_eq_true, not_or, Bool.not_eq_true] at hc
      exact .iterate hl hc.1
    · cases h
  | absorbed =>
    simp only [sync, step] at h
    split at h
    · rename_i l hl
      obtain ⟨hc, rfl⟩ := guard_eq_some h
      exact .absorbed hl hc
    · cases h

/-! ### The invariant -/

def State.position (s : State τ) : Nat :=
  match s.loop with
  | none => 0
  | some l => if l.absorbing then l.idx + 1 else l.idx

/-- Every request is unlinked, filtered or still in the list, and is there once. -/
structure Accounted (s : State τ) (done rest : List (PendingUnlinkEntry τ)) : Prop where
  split : s.pendingUnlinks = done ++ rest
  length : done.length = s.position
  processed : ∀ entry ∈ done, entry.canceled = true
  live : ∀ entry ∈ rest, entry.canceled = false
  places : (s.unlinked ++ s.filtered ++ rest.map PendingUnlinkEntry.id).Perm (List.range s.nextId)
  sorted : (done ++ rest).Pairwise fun a b => a.cycle ≤ b.cycle
  recent : ∀ entry ∈ done ++ rest, entry.cycle ≤ s.cycle ∧ s.cycle < entry.cycle + 2 ^ 16
  intact : s.dangling = false

/-- A filter absorbed by the loop matches none of the requests the loop is through with, and the
16-bit cycle counter does not come round while a request is pending. -/
def FilterBehind (filetagmatches : τ → τ → Bool) (s : State τ) : Event τ → Prop
  | .filter ftag =>
    ∀ entry ∈ s.pendingUnlinks.take s.position, cancels filetagmatches ftag entry = false
  | .preCheckpoint => ∀ entry ∈ s.pendingUnlinks, s.cycle + 1 < entry.cycle + 2 ^ 16
  | _ => True

instance (s : State τ) : ∀ e, Decidable (FilterBehind filetagmatches s e)
  | .register _ _ => isTrue trivial
  | .filter _ => inferInstanceAs (Decidable (∀ entry ∈ _, _))
  | .preCheckpoint => inferInstanceAs (Decidable (∀ entry ∈ _, _))
  | .postCheckpoint => isTrue trivial
  | .iterate => isTrue trivial
  | .absorbed => isTrue trivial

namespace Accounted

variable {done rest : List (PendingUnlinkEntry τ)}

lemma init : Accounted (State.init : State τ) [] [] where
  split := rfl
  length := rfl
  processed := by simp
  live := by simp
  places := by simp [State.init]
  sorted := by simp
  recent := by simp
  intact := rfl

section
variable (h : Accounted s done rest)
include h

lemma take_eq : s.pendingUnlinks.take s.position = done := by
  rw [h.split, ← h.length, take_left]

lemma register (tag requestType) :
    Accounted (s.register tag requestType) done
      (rest ++ [⟨s.nextId, tag, requestType, s.cycle, false⟩]) where
  __ := h
  split := by rw [State.register, h.split, append_assoc]
  live := forall_mem_append.mpr ⟨h.live, forall_mem_singleton.mpr rfl⟩
  places := by
    show (_ : List Nat).Perm (List.range (s.nextId + 1))
    rw [map_append, ← append_assoc, range_succ]
    exact h.places.append_right _
  sorted := by
    rw [← append_assoc, pairwise_append]
    refine ⟨h.sorted, pairwise_singleton _ _, fun a ha b hb => ?_⟩
    rw [mem_singleton.mp hb]
    exact (h.recent a ha).1
  recent := by
    rw [← append_assoc]
    refine forall_mem_append.mpr ⟨h.recent, forall_mem_singleton.mpr ?_⟩
    exact ⟨Nat.le_refl _, Nat.lt_add_of_pos_right (by decide)⟩

variable {ftag : τ} (hbehind : ∀ entry ∈ done, cancels filetagmatches ftag entry = false)

include hbehind in
lemma filtered_eq :
    (s.pendingUnlinks.filter fun entry => cancels filetagmatches ftag entry && !entry.canceled) =
      rest.filter fun entry => cancels filetagmatches ftag entry := by
  rw [h.split, filter_append, filter_eq_nil_iff.mpr, nil_append]
  · apply filter_congr
    intro entry hmem
    rw [h.live entry hmem, Bool.not_false, Bool.and_true]
  · intro entry hmem
    rw [hbehind entry hmem]
    simp

include hbehind in
lemma filter (habs : s.Absorbs) :
    Accounted (s.filter filetagmatches ftag) done
      (rest.filter fun entry => !cancels filetagmatches ftag entry) := by
  have hkept : done.filter (fun entry => !cancels filetagmatches ftag entry) = done := by
    rw [filter_eq_self]
    intro entry hmem
    rw [hbehind entry hmem]
    rfl
  have hsub : List.Sublist
      (done ++ rest.filter fun entry => !cancels filetagmatches ftag entry) (done ++ rest) :=
    (filter_sublist).append_left done
  exact {
    split := by rw [State.filter, h.split, filter_append, hkept]
    length := h.length
    processed := h.processed
    live := fun entry hmem => h.live entry (mem_of_mem_filter hmem)
    places := by
      show (s.unlinked ++ (s.filtered ++ _) ++ _).Perm (List.range s.nextId)
      rw [h.filtered_eq hbehind]
      have hparts := (filter_append_perm
        (fun entry => cancels filetagmatches ftag entry) rest).map PendingUnlinkEntry.id
      rw [map_append] at hparts
      rw [← append_assoc, append_assoc]
      exact (hparts.append_left _).trans h.places
    sorted := h.sorted.sublist hsub
    recent := fun entry hmem => h.recent entry (hsub.subset hmem)
    intact := by
      show (s.dangling || s.loop.isSome && _ && _) = false
      rw [h.intact, Bool.false_or, h.split, filter_append, hkept]
      rcases hl : s.loop with _ | l
      · rfl
      · have hne : done ≠ [] := ne_nil_of_length_pos (by
          rw [h.length, State.position, hl]
          simp only [habs l hl, if_true]
          exact Nat.succ_pos _)
        simp [hne] }

lemma preCheckpoint (hrange : ∀ entry ∈ s.pendingUnlinks, s.cycle + 1 < entry.cycle + 2 ^ 16) :
    Accounted { s with cycle := s.cycle + 1 } done rest where
  __ := h
  recent := fun entry hmem =>
    ⟨Nat.le_succ_of_le (h.recent entry hmem).1, hrange entry (h.split ▸ hmem)⟩

lemma setLoop {loop} (hpos : done.length = State.position { s with loop := loop }) :
    Accounted { s with loop := loop } done rest where
  __ := h
  length := hpos

lemma stopped : Accounted { s with pendingUnlinks := rest, loop := none } [] rest where
  __ := h
  split := rfl
  length := rfl
  processed := by simp
  sorted := (pairwise_append.mp h.sorted).2.1
  recent := fun entry hmem => h.recent entry (mem_append_right _ hmem)

end

lemma idx_eq (h : Accounted s done rest) (hl : s.loop = some l)
    (habs : l.absorbing = false) : l.idx = done.length := by
  rw [h.length, State.position, hl]
  simp [habs]

lemma unlinkCurrent (h : Accounted s done (entry :: rest)) (hl : s.loop = some l)
    (habs : l.absorbing = false) :
    Accounted (s.unlinkCurrent l entry) (done ++ [{ entry with canceled := true }]) rest := by
  have hidx := h.idx_eq hl habs
  have hcycles : (done ++ entry :: rest).map PendingUnlinkEntry.cycle =
      (done ++ [{ entry with canceled := true }] ++ rest).map PendingUnlinkEntry.cycle := by simp
  exact {
    split := by
      rw [State.unlinkCurrent, h.split, hidx, set_append_right _ _ (Nat.le_refl _),
        Nat.sub_self, set_cons_zero, append_assoc]
      rfl
    length := by
      rw [length_append, ← hidx, State.unlinkCurrent, State.position]
      by_cases hc : l.absorbCounter ≤ 1
      · simp [hc]
      · simp [hc]
    processed := forall_mem_append.mpr ⟨h.processed, forall_mem_singleton.mpr rfl⟩
    live := fun x hx => h.live x (mem_cons_of_mem _ hx)
    places := by
      refine List.Perm.trans ?_ h.places
      show (s.unlinked ++ [entry.id] ++ s.filtered ++ _).Perm _
      simp only [append_assoc, singleton_append]
      refine List.Perm.append_left _ ?_
      exact perm_middle.symm
    sorted := by
      have hsorted := (pairwise_map (R := (· ≤ ·))).mpr h.sorted
      rw [hcycles] at hsorted
      exact pairwise_map.mp hsorted
    recent := by
      have hrecent := (forall_mem_map (P := fun c => c ≤ s.cycle ∧ s.cycle < c + 2 ^ 16)).mpr
        h.recent
      rw [hcycles] at hrecent
      exact forall_mem_map.mp hrecent
    intact := h.intact }

lemma cycleCtr_eq_iff (h : Accounted s done rest) (hmem : entry ∈ rest) :
    cycleCtr entry.cycle = cycleCtr s.cycle ↔ entry.cycle = s.cycle := by
  obtain ⟨hle, hlt⟩ := h.recent entry (mem_append_right _ hmem)
  constructor
  · intro heq
    simp only [cycleCtr] at heq
    omega
  · intro heq
    rw [heq]

lemma iterate_cases (h : Accounted s done rest) (hl : s.loop = some l)
    (habs : l.absorbing = false) :
    ((∀ entry ∈ rest, entry.cycle = s.cycle) ∧
        s.iterate l = { s with pendingUnlinks := rest, loop := none }) ∨
      ∃ entry rest', rest = entry :: rest' ∧ entry.cycle < s.cycle ∧
        s.iterate l = s.unlinkCurrent l entry := by
  have hidx := h.idx_eq hl habs
  cases rest with
  | nil =>
    have hnone : s.pendingUnlinks[l.idx]? = none := by simp [h.split, hidx]
    left
    exact ⟨by simp, by simp only [State.iterate, hnone]⟩
  | cons entry rest' =>
    have hsome : s.pendingUnlinks[l.idx]? = some entry := by simp [h.split, hidx]
    have hmem : entry ∈ entry :: rest' := mem_cons_self
    by_cases hcycle : entry.cycle = s.cycle
    · left
      refine ⟨fun x hx => ?_, ?_⟩
      · have hle : entry.cycle ≤ x.cycle := by
          rcases mem_cons.mp hx with rfl | hx
          · exact Nat.le_refl _
          · exact (pairwise_cons.mp (pairwise_append.mp h.sorted).2.1).1 x hx
        exact Nat.le_antisymm (h.recent x (mem_append_right _ hx)).1 (hcycle ▸ hle)
      · simp only [State.iterate, hsome, h.live entry hmem, Bool.false_eq_true, if_false,
          (h.cycleCtr_eq_iff hmem).mpr hcycle, if_true]
        rw [h.split, hidx, drop_left]
    · right
      refine ⟨entry, rest', rfl, ?_, ?_⟩
      · exact Nat.lt_of_le_of_ne (h.recent entry (mem_append_right _ hmem)).1 hcycle
      · simp only [State.iterate, hsome, h.live entry hmem, Bool.false_eq_true, if_false,
          mt (h.cycleCtr_eq_iff hmem).mp hcycle]

end Accounted

/-! ### What every step does to the requests -/

def State.live (s : State τ) : List (PendingUnlinkEntry τ) :=
  s.pendingUnlinks.filter fun entry => !entry.canceled

def State.earlier (s : State τ) : Nat := s.live.countP fun entry => entry.cycle < s.cycle

/-- Only requests of an earlier cycle are unlinked, only matching reclaim requests are removed. When
the loop ends, only requests of the current cycle are left; a turn that does not end it uses up one
of the earlier ones. -/
structure StepExact (filetagmatches : τ → τ → Bool) (s : State τ) (e : Event τ) (t : State τ) :
    Prop where
  unlinked : ∃ us : List (PendingUnlinkEntry τ), t.unlinked = s.unlinked ++ us.map (·.id) ∧
    ∀ entry ∈ us, entry ∈ s.live ∧ entry.cycle < s.cycle ∧ e = .iterate
  filtered : ∃ fs : List (PendingUnlinkEntry τ), t.filtered = s.filtered ++ fs.map (·.id) ∧
    ∀ entry ∈ fs, entry ∈ s.live ∧
      ∃ ftag, e = .filter ftag ∧ cancels filetagmatches ftag entry = true
  kept : ∀ entry ∈ s.live, entry ∈ t.live ∨ entry.id ∈ t.unlinked ∨ entry.id ∈ t.filtered
  returned : s.loop.isSome → t.loop = none → ∀ entry ∈ t.pendingUnlinks, entry.cycle = t.cycle
  bounded : s.loop.isSome → t.loop.isSome → t.earlier ≤ s.earlier
  advance : e = .iterate → t.loop.isSome → t.earlier < s.earlier

section Steps

variable {done rest : List (PendingUnlinkEntry τ)}

section
variable (h : Accounted s done rest)
include h

lemma Accounted.live_eq : s.live = rest := by
  rw [State.live, h.split, filter_append, filter_eq_nil_iff.mpr, nil_append, filter_eq_self]
  · intro entry hmem
    rw [h.live entry hmem, Bool.not_false]
  · intro entry hmem
    simp [h.processed entry hmem]

lemma Accounted.earlier_eq : s.earlier = rest.countP fun entry => entry.cycle < s.cycle := by
  rw [State.earlier, h.live_eq]

lemma stepExact_register (tag requestType) :
    StepExact filetagmatches s (.register tag requestType) (s.register tag requestType) := by
  have ht := h.register tag requestType
  exact {
    unlinked := ⟨[], (append_nil _).symm, by simp⟩
    filtered := ⟨[], (append_nil _).symm, by simp⟩
    kept := by
      intro entry hmem
      rw [h.live_eq] at hmem
      rw [ht.live_eq]
      exact .inl (mem_append_left _ hmem)
    returned := by
      intro hs hnone
      rw [show s.loop = none from hnone] at hs
      cases hs
    bounded := by
      intro _ _
      -- the new request is of the current cycle
      rw [h.earlier_eq, ht.earlier_eq, countP_append, countP_singleton]
      simp only [State.register, Nat.lt_irrefl, decide_false, Bool.false_eq_true, if_false,
        Nat.add_zero]
      exact Nat.le_refl _
    advance := by simp }

lemma stepExact_filter (habs : s.Absorbs) {ftag}
    (hbehind : ∀ entry ∈ done, cancels filetagmatches ftag entry = false) :
    StepExact filetagmatches s (.filter ftag) (s.filter filetagmatches ftag) := by
  have ht := h.filter hbehind habs
  have hgone := h.filtered_eq hbehind
  exact {
    unlinked := ⟨[], (append_nil _).symm, by simp⟩
    filtered := by
      refine ⟨rest.filter fun entry => cancels filetagmatches ftag entry, ?_, ?_⟩
      · rw [State.filter, hgone]
      · intro entry hmem
        rw [h.live_eq]
        obtain ⟨hmem, hc⟩ := mem_filter.mp hmem
        exact ⟨hmem, ftag, rfl, hc⟩
    kept := by
      intro entry hmem
      rw [h.live_eq] at hmem
      rw [ht.live_eq]
      cases hc : cancels filetagmatches ftag entry with
      | false => exact .inl (mem_filter.mpr ⟨hmem, by rw [hc]; rfl⟩)
      | true =>
        right; right
        rw [State.filter, hgone]
        exact mem_append_right _ (mem_map_of_mem (mem_filter.mpr ⟨hmem, hc⟩))
    returned := by
      intro hs hnone
      rw [show s.loop = none from hnone] at hs
      cases hs
    bounded := by
      intro _ _
      rw [h.earlier_eq, ht.earlier_eq]
      exact (filter_sublist).countP_le
    advance := by simp }

end

lemma stepExact_of_same (hpending : t.pendingUnlinks = s.pendingUnlinks)
    (hunlinked : t.unlinked = s.unlinked) (hfiltered : t.filtered = s.filtered)
    (hcycle : s.loop.isSome → t.cycle = s.cycle ∧ t.loop.isSome) (he : e ≠ .iterate) :
    StepExact filetagmatches s e t where
  unlinked := ⟨[], by simp [hunlinked], by simp⟩
  filtered := ⟨[], by simp [hfiltered], by simp⟩
  kept := fun entry hmem => .inl (by rwa [State.live, hpending])
  returned := by
    intro hs hnone
    have := (hcycle hs).2
    rw [hnone] at this
    cases this
  bounded := by
    intro hs _
    refine Nat.le_of_eq ?_
    rw [State.earlier, State.earlier, State.live, State.live, hpending, (hcycle hs).1]
  advance := fun h => absurd h he

lemma stepExact_stopped (h : Accounted s done rest) (hcur : ∀ entry ∈ rest, entry.cycle = s.cycle) :
    StepExact filetagmatches s .iterate { s with pendingUnlinks := rest, loop := none } where
  unlinked := ⟨[], (append_nil _).symm, by simp⟩
  filtered := ⟨[], (append_nil _).symm, by simp⟩
  kept := by
    intro entry hmem
    rw [h.live_eq] at hmem
    rw [h.stopped.live_eq]
    exact .inl hmem
  returned := fun _ _ => hcur
  bounded := nofun
  advance := nofun

lemma stepExact_unlinkCurrent (h : Accounted s done (entry :: rest)) (hl : s.loop = some l)
    (habs : l.absorbing = false) (hcycle : entry.cycle < s.cycle) :
    StepExact filetagmatches s .iterate (s.unlinkCurrent l entry) := by
  have ht := h.unlinkCurrent hl habs
  have hless : (s.unlinkCurrent l entry).earlier < s.earlier := by
    rw [h.earlier_eq, ht.earlier_eq, countP_cons_of_pos (by simpa using hcycle)]
    exact Nat.lt_succ_self _
  exact {
    unlinked := by
      refine ⟨[entry], rfl, ?_⟩
      intro x hx
      rw [mem_singleton.mp hx, h.live_eq]
      exact ⟨mem_cons_self, hcycle, rfl⟩
    filtered := ⟨[], (append_nil _).symm, by simp⟩
    kept := by
      intro x hx
      rw [h.live_eq] at hx
      rw [ht.live_eq]
      rcases mem_cons.mp hx with rfl | hx
      · exact .inr (.inl (mem_append_right _ mem_cons_self))
      · exact .inl hx
    returned := by
      intro _ hnone
      cases hnone
    bounded := fun _ _ => Nat.le_of_lt hless
    advance := fun _ _ => hless }

lemma Accounted.move (h : Accounted s done rest) (hok : FilterBehind filetagmatches s e)
    (hmove : Move filetagmatches s e t) :
    (∃ done' rest', Accounted t done' rest') ∧ StepExact filetagmatches s e t := by
  cases hmove with
  | register _ tag requestType =>
    exact ⟨⟨_, _, h.register tag requestType⟩, stepExact_register h tag requestType⟩
  | filter habs ftag =>
    have hbehind : ∀ entry ∈ done, cancels filetagmatches ftag entry = false := by
      rw [← h.take_eq]
      exact hok
    exact ⟨⟨_, _, h.filter hbehind habs⟩, stepExact_filter h habs hbehind⟩
  | preCheckpoint hl =>
    refine ⟨⟨_, _, h.preCheckpoint hok⟩, stepExact_of_same rfl rfl rfl ?_ nofun⟩
    simp [hl]
  | postCheckpoint hl =>
    have hlen : done.length = 0 := by rw [h.length, State.position, hl]
    refine ⟨⟨done, rest, h.setLoop hlen⟩, stepExact_of_same rfl rfl rfl ?_ nofun⟩
    simp [hl]
  | @iterate l hl habs =>
    rcases h.iterate_cases hl habs with ⟨hcur, heq⟩ | ⟨entry, rest', rfl, hcycle, heq⟩
    · rw [heq]
      exact ⟨⟨_, _, h.stopped⟩, stepExact_stopped h hcur⟩
    · rw [heq]
      exact ⟨⟨_, _, h.unlinkCurrent hl habs⟩, stepExact_unlinkCurrent h hl habs hcycle⟩
  | @absorbed l hl habs =>
    have hlen : done.length = l.idx + 1 := by
      rw [h.length, State.position, hl]
      simp [habs]
    refine ⟨⟨done, rest, h.setLoop hlen⟩, stepExact_of_same rfl rfl rfl ?_ nofun⟩
    exact fun _ => ⟨rfl, rfl⟩

end Steps

lemma Move.cycle_le (h : Move filetagmatches s e t) : s.cycle ≤ t.cycle := by
  cases h with
  | register | filter | postCheckpoint | absorbed => exact Nat.le_refl _
  | preCheckpoint => exact Nat.le_succ _
  | iterate =>
    simp only [State.iterate]
    split
    · exact Nat.le_refl _
    · split_ifs <;> exact Nat.le_refl _

/-! ### Runs -/

lemma Accounted.of_reaches (hs : (sync filetagmatches).Reaches (FilterBehind filetagmatches) s t)
    (h : ∃ done rest, Accounted s done rest) : ∃ done rest, Accounted t done rest := by
  refine hs.invariant (I := fun u => ∃ done rest, Accounted u done rest) h ?_
  rintro u e v ⟨done, rest, hu⟩ hok hstep
  exact (hu.move hok (.of_step hstep)).1

lemma Accounted.step_isSome {done rest} (h : Accounted s done rest) (hl : s.loop = some l) :
    ((sync filetagmatches).step s (if l.absorbing then .absorbed else .iterate)).isSome = true := by
  by_cases habs : l.absorbing = true
  · simp [sync, step, hl, habs]
  · simp [sync, step, hl, habs, h.intact]

lemma gone_of_reaches (h : ∃ done rest, Accounted s done rest) (hloop : s.loop.isSome)
    (hmem : entry ∈ s.live) (hcycle : entry.cycle < s.cycle)
    (hs : (sync filetagmatches).Reaches (FilterBehind filetagmatches) s t) (ht : t.loop = none) :
    entry.id ∈ t.unlinked ∨ entry.id ∈ t.filtered := by
  let Kept (u : State τ) : Prop := entry ∈ u.live ∧ entry.cycle < u.cycle ∧ u.loop.isSome
  have hinv : (∃ done rest, Accounted t done rest) ∧
      (Kept t ∨ entry.id ∈ t.unlinked ∨ entry.id ∈ t.filtered) := by
    refine hs.invariant (I := fun u => (∃ done rest, Accounted u done rest) ∧
      (Kept u ∨ entry.id ∈ u.unlinked ∨ entry.id ∈ u.filtered))
      ⟨h, .inl ⟨hmem, hcycle, hloop⟩⟩ ?_
    rintro u e v ⟨⟨done, rest, hu⟩, hplace⟩ hok hstep
    obtain ⟨hv, hexact⟩ := hu.move hok (.of_step hstep)
    refine ⟨hv, ?_⟩
    obtain ⟨us, hus, -⟩ := hexact.unlinked
    obtain ⟨fs, hfs, -⟩ := hexact.filtered
    rcases hplace with ⟨hlive, hlt, hsome⟩ | hmem | hmem
    · rcases hexact.kept entry hlive with hlive' | hgone
      · have hlt' := Nat.lt_of_lt_of_le hlt (Move.of_step hstep).cycle_le
        rcases hl : v.loop with _ | l
        -- the loop has ended, so the request would have to be of the current cycle
        · have := hexact.returned hsome hl entry (mem_of_mem_filter hlive')
          exact absurd this (Nat.ne_of_lt hlt')
        · exact .inl ⟨hlive', hlt', by rw [hl]; rfl⟩
      · exact .inr hgone
    · exact .inr (.inl (hus ▸ mem_append_left _ hmem))
    · exact .inr (.inr (hfs ▸ mem_append_left _ hmem))
  rcases hinv.2 with ⟨-, -, hsome⟩ | hgone
  · rw [ht] at hsome
    cases hsome
  · exact hgone

/-- If no filter absorbed by the loop matches a request the loop is through with, every request is
pending, unlinked once, or removed by a filter, steps do what `StepExact` says, the loop goes on
until it returns, and then no request of an earlier cycle is left. -/
theorem delayed_unlink_exact
    (hs : (sync filetagmatches).Reaches (FilterBehind filetagmatches) State.init s) :
    (s.unlinked ++ s.filtered ++ s.live.map (·.id)).Perm (List.range s.nextId) ∧
      (s.loop = none → s.live = s.pendingUnlinks) ∧
      (∀ l, s.loop = some l → ((sync filetagmatches).step s
        (if l.absorbing then .absorbed else .iterate)).isSome = true) ∧
      (∀ e t, FilterBehind filetagmatches s e → (sync filetagmatches).step s e = some t →
        StepExact filetagmatches s e t) ∧
      ∀ u t, (sync filetagmatches).step s .postCheckpoint = some u →
        (sync filetagmatches).Reaches (FilterBehind filetagmatches) u t → t.loop = none →
        ∀ entry ∈ s.pendingUnlinks, entry.cycle < s.cycle →
          entry.id ∈ t.unlinked ∨ entry.id ∈ t.filtered := by
  obtain ⟨done, rest, h⟩ := Accounted.of_reaches hs ⟨_, _, .init⟩
  have hall : s.loop = none → s.live = s.pendingUnlinks := by
    intro hnone
    have hdone : done = [] := eq_nil_of_length_eq_zero (by
      rw [h.length, State.position, hnone])
    rw [h.live_eq, h.split, hdone, nil_append]
  refine ⟨by rw [h.live_eq]; exact h.places, hall, fun l hl => h.step_isSome hl, ?_, ?_⟩
  · intro e t hok hstep
    exact (h.move hok (.of_step hstep)).2
  · intro u t hstep hrun ht entry hmem hcycle
    have hok : FilterBehind filetagmatches s .postCheckpoint := trivial
    have hu := (h.move hok (.of_step hstep)).1
    cases Move.of_step hstep with
    | postCheckpoint hnone =>
      have hlive : entry ∈ s.live := by
        rw [hall hnone]
        exact hmem
      exact gone_of_reaches hu rfl hlive hcycle hrun ht

/-! ### The file tags of the storage managers -/

/-- The handlers that register unlink requests and have a match function. -/
inductive SyncRequestHandler
  | md
  | umbra
  deriving DecidableEq, Repr

/-- `FileTag`; the wildcard of `forknum` is `InvalidForkNumber`. -/
structure FileTag where
  handler : SyncRequestHandler
  forknum : Int
  rlocator : RelFileLocator
  segno : Nat
  deriving DecidableEq, Repr

def invalidForkNumber : Int := -1

def mdfiletagmatches (ftag candidate : FileTag) : Bool :=
  ftag.rlocator.dbOid = candidate.rlocator.dbOid

def umfiletagmatches (ftag candidate : FileTag) : Bool :=
  -- database scope
  if ftag.forknum = invalidForkNumber ∧ ftag.segno = invalidBlockNumber ∧
      ftag.rlocator.spcOid = 0 ∧ ftag.rlocator.relNumber = 0 then
    ftag.rlocator.dbOid = candidate.rlocator.dbOid
  -- relation scope
  else if ftag.forknum = invalidForkNumber ∧ ftag.segno = invalidBlockNumber then
    ftag.rlocator = candidate.rlocator
  -- fork scope
  else if ftag.segno = invalidBlockNumber then
    ftag.rlocator = candidate.rlocator ∧ ftag.forknum = candidate.forknum
  else
    ftag.rlocator = candidate.rlocator ∧ ftag.forknum = candidate.forknum ∧
      ftag.segno = candidate.segno

/-- The test of the filter branch: the handlers agree and their match function accepts. -/
def syncFiletagmatches (ftag candidate : FileTag) : Bool :=
  candidate.handler = ftag.handler &&
    match ftag.handler with
    | .md => mdfiletagmatches ftag candidate
    | .umbra => umfiletagmatches ftag candidate

def mapReclaimInitFileTag (rnode : RelFileLocator) (forknum : Int) (segno : Nat) : FileTag :=
  ⟨.umbra, forknum, rnode, segno⟩

def mapReclaimRelationFilter (rnode : RelFileLocator) : FileTag :=
  mapReclaimInitFileTag rnode invalidForkNumber invalidBlockNumber

/-- The filter of a drop removes ten reclaim requests under the loop, which runs off the list. -/
def filterUnderLoop : List (Event FileTag) :=
  (List.range 10).map (fun segno =>
      .register (mapReclaimInitFileTag ⟨1663, 5, 16384⟩ 0 segno) .reclaim)
    ++ [.register ⟨.umbra, 0, ⟨1663, 5, 16400⟩, 0⟩ .unlink, .preCheckpoint, .postCheckpoint]
    ++ List.replicate 10 .iterate
    ++ [.filter (mapReclaimRelationFilter ⟨1663, 5, 16384⟩), .absorbed, .iterate]

/-- Request 10 is neither pending nor unlinked nor removed when `SyncPostCheckpoint` has returned.
-/
theorem unlink_request_dropped : (sync syncFiletagmatches).Reachable State.init
        ((sync syncFiletagmatches).after State.init filterUnderLoop) ∧
      ((sync syncFiletagmatches).after State.init filterUnderLoop).loop = none ∧
      10 < ((sync syncFiletagmatches).after State.init filterUnderLoop).nextId ∧
      10 ∉ ((sync syncFiletagmatches).after State.init filterUnderLoop).unlinked ∧
      10 ∉ ((sync syncFiletagmatches).after State.init filterUnderLoop).filtered ∧
      10 ∉ ((sync syncFiletagmatches).after State.init filterUnderLoop).pendingUnlinks.map (·.id) :=
  ⟨.of_isSome (by decide), by decide, by decide, by decide, by decide, by decide⟩

/-- Eleven unlink requests and a reclaim request of another relation, all of an earlier cycle. -/
def earlierRequests : List (Event FileTag) :=
  (List.range 11).map (fun segno => .register ⟨.umbra, 0, ⟨1663, 5, 16400⟩, segno⟩ .unlink)
    ++ [.register (mapReclaimInitFileTag ⟨1663, 5, 16384⟩ 0 0) .reclaim, .preCheckpoint]

/-- The loop absorbs the filter of the reclaim request before it comes to it. -/
def filterAheadOfLoop : List (Event FileTag) :=
  List.replicate 10 .iterate
    ++ [.filter (mapReclaimRelationFilter ⟨1663, 5, 16384⟩), .absorbed, .iterate, .iterate]

theorem delayed_unlink_exact_filtered :
    let M := (sync syncFiletagmatches).restrict (FilterBehind syncFiletagmatches)
    let s := M.after State.init earlierRequests
    let u := M.after s [.postCheckpoint]
    let t := M.after u filterAheadOfLoop
    (sync syncFiletagmatches).Reaches (FilterBehind syncFiletagmatches) State.init s
      ∧ (sync syncFiletagmatches).step s .postCheckpoint = some u
      ∧ (sync syncFiletagmatches).Reaches (FilterBehind syncFiletagmatches) u t
      ∧ t.loop = none ∧ t.unlinked = List.range 11 ∧ t.filtered = [11]
      ∧ ∀ entry ∈ s.pendingUnlinks, entry.cycle < s.cycle →
        entry.id ∈ t.unlinked ∨ entry.id ∈ t.filtered := by
  intro M s u t
  have hs : (sync syncFiletagmatches).Reaches (FilterBehind syncFiletagmatches) State.init s :=
    .of_isSome (by decide)
  have hstep : (sync syncFiletagmatches).step s .postCheckpoint = some u := by rfl
  have hrun : (sync syncFiletagmatches).Reaches (FilterBehind syncFiletagmatches) u t :=
    .of_isSome (by decide)
  have hreturned : t.loop = none := by decide
  exact ⟨hs, hstep, hrun, hreturned, by decide, by decide,
    (delayed_unlink_exact hs).2.2.2.2 u t hstep hrun hreturned⟩

end Umbra.Sync
