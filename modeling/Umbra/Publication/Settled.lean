import Umbra.Publication.Coverage

/-!
# What a running server does to the mapping

While the server runs and nothing is truncated, a step does one of four things to the mapping and
the claims: nothing, a reservation, the end of a claim, or the publication of a claimed block. A
block whose publication has been seen is *settled*: no claim can bring it into the mapping any more.
-/

namespace Umbra

open Foundation Function

variable {n : Nat} {c : Claim n}

/-! ### The superblock entry moves forward -/

/-- No counter goes back, and the frontier stays above what is published. -/
structure MapSuperEntry.Forward (entry entry' : MapSuperEntry) : Prop where
  reserved : ∀ fork, entry.reservedNextFree fork ≤ entry'.reservedNextFree fork
  logical : ∀ fork, entry.super.logical fork ≤ entry'.super.logical fork
  nextFree : ∀ fork, entry.super.nextFree fork ≤ entry'.super.nextFree fork
  within : ∀ fork, entry.super.nextFree fork ≤ entry.reservedNextFree fork →
    entry'.super.nextFree fork ≤ entry'.reservedNextFree fork
  boundary : entry'.reclaimBoundary = entry.reclaimBoundary

namespace MapSuperEntry.Forward

lemma refl (entry : MapSuperEntry) : entry.Forward entry :=
  ⟨fun _ => le_rfl, fun _ => le_rfl, fun _ => le_rfl, fun _ => id, rfl⟩

variable (entry : MapSuperEntry) (fork : ForkNumber) (v lsn : Nat)

lemma bumpLogicalNblocks : entry.Forward (entry.bumpLogicalNblocks fork v lsn) where
  reserved f := by simp
  logical f := by
    rw [logical_bumpLogicalNblocks]
    split_ifs with hf
    · rw [hf]
      exact le_max_left _ _
    · exact le_rfl
  nextFree f := by simp
  within f h := by simpa using h
  boundary := by
    unfold MapSuperEntry.bumpLogicalNblocks store
    split_ifs <;> rfl

lemma bumpNextFree : entry.Forward (entry.bumpNextFree fork v lsn false) where
  reserved f := entry.reservedNextFree_le_bumpNextFree fork f v lsn false
  logical f := by simp
  nextFree f := by
    rw [nextFree_bumpNextFree]
    split_ifs with hf
    · rw [hf]
      exact le_max_left _ _
    · exact le_rfl
  within f h := entry.nextFree_le_reserved_bumpNextFree fork f v lsn false h
  boundary := by
    simp only [MapSuperEntry.bumpNextFree, Bool.false_eq_true, if_false]
    split_ifs <;> rfl

lemma bumpCapacity : entry.Forward (entry.bumpCapacity fork v lsn) where
  reserved f := by simp
  logical f := by simp
  nextFree f := by simp
  within f h := by simpa using h
  boundary := by
    unfold MapSuperEntry.bumpCapacity store
    split_ifs <;> rfl

end MapSuperEntry.Forward

/-! ### The four effects -/

/-- All that a step can do to the map, the claims and the counters. -/
inductive Effect (s t : State n) : Prop
  | quiet (hmap : t.mapMeta.map = s.mapMeta.map) (hclaims : t.claims = s.claims)
      (hentry : s.mapMeta.entry.Forward t.mapMeta.entry)
  | reserve {b k} (hfree : s.claims k = none) (hmeta : t.mapMeta = (s.reserveAt b k).mapMeta)
      (hclaims : t.claims = (s.reserveAt b k).claims)
  | drop {k} (hmeta : t.mapMeta = s.mapMeta) (hclaims : t.claims = update s.claims k none)
  | publish {k c} (hc : s.claims k = some c)
      (hmap : t.mapMeta.map = update s.mapMeta.map k (some c.pblk)) (hclaims : t.claims = s.claims)
      (hentry : t.mapMeta.entry = s.mapMeta.entry)

lemma Effect.same {s t : State n} (hmeta : t.mapMeta = s.mapMeta) (hclaims : t.claims = s.claims) :
    Effect s t :=
  .quiet (by rw [hmeta]) hclaims (by rw [hmeta]; exact .refl _)

theorem Move.effect {s t : State n} {e : Event n} (hm : Move s e t) (hd : Disciplined s)
    (htr : TruncateFree s) (hrun : s.recovery = none) (hcrash : e ≠ .crash) : Effect s t := by
  cases hm with
  | reserve hrec hidle hfree => exact .reserve hfree rfl rfl
  | abort | release => exact .drop rfl rfl
  | @update b i rest m hprog hu =>
    cases hu with
    | setMapping =>
      obtain ⟨c, hc, -, rfl⟩ := (hd.prog_cons hprog).owned.1
      exact .publish hc rfl rfl rfl
    | bumpLogical => exact .quiet rfl rfl (.bumpLogicalNblocks ..)
    | bumpNextFree => exact .quiet rfl rfl (.bumpNextFree ..)
    | bumpCapacity | bumpCapacityMax => exact .quiet rfl rfl (.bumpCapacity ..)
    | bumpCapacityNone => exact .same rfl rfl
    | clearEntry | setLogical => cases (htr.of_cons hprog).1
  | birthFresh hprog hmap hfree => exact .reserve hfree rfl rfl
  | preallocate => exact .quiet rfl rfl (.bumpCapacity ..)
  | flushPage => exact .quiet rfl (State.claims_flushPage ..) (.refl _)
  | flushSuper | ckptSuper => exact .same (State.mapMeta_flushSuper s) (State.claims_flushSuper s)
  | crash => exact absurd rfl hcrash
  | redo hrec | localBirth hrec => rw [hrun] at hrec; cases hrec
  | _ => exact .same rfl rfl

namespace State

variable (s : State n) (b : Fin n) (k : BlockKey) (fork : ForkNumber)

lemma reserved_reserveAt : (s.reserveAt b k).mapMeta.entry.reservedNextFree fork
      = if fork = k.1 then s.mapMeta.entry.reservedNextFree fork + 1
        else s.mapMeta.entry.reservedNextFree fork := by
  change update s.mapMeta.entry.reservedNextFree k.1 _ fork = _
  rw [update_apply]
  split_ifs with hf
  · rw [hf]
  · rfl

end State

lemma claims_reserveAt_cases {s : State n} {b : Fin n} {k k' : BlockKey}
    (h : (s.reserveAt b k).claims k' = some c) :
    (k' = k ∧ c.pblk = s.mapMeta.entry.reservedNextFree k.1) ∨ s.claims k' = some c := by
  by_cases hk : k' = k
  · subst hk
    rw [State.claims_reserveAt_self] at h
    cases h
    exact .inl ⟨rfl, rfl⟩
  · rw [State.claims_reserveAt_of_ne hk] at h
    exact .inr h

/-! ### Physical blocks stay apart -/

/-- No physical block of the fork is mapped or claimed twice, and all of them lie below the
reservation frontier. -/
structure Apart (fork : ForkNumber) (s : State n) : Prop where
  map_lt : ∀ k p, k.1 = fork → s.mapMeta.map k = some p → p < s.mapMeta.entry.reservedNextFree fork
  claim_lt : ∀ k c, k.1 = fork → s.claims k = some c →
    c.pblk < s.mapMeta.entry.reservedNextFree fork
  map_inj : ∀ k k' p, k.1 = fork → k'.1 = fork → s.mapMeta.map k = some p →
    s.mapMeta.map k' = some p → k = k'
  claim_inj : ∀ k k' c c', k.1 = fork → k'.1 = fork → s.claims k = some c →
    s.claims k' = some c' → c.pblk = c'.pblk → k = k'
  claim_map : ∀ k k' c, k.1 = fork → k'.1 = fork → s.claims k = some c →
    s.mapMeta.map k' = some c.pblk → k' = k
  within : s.mapMeta.entry.super.nextFree fork ≤ s.mapMeta.entry.reservedNextFree fork

namespace Apart

variable {fork : ForkNumber} {s t : State n}

variable (h : Apart fork s)
include h

lemma mono (hmap : t.mapMeta.map = s.mapMeta.map)
    (hclaims : ∀ k c, t.claims k = some c → s.claims k = some c)
    (hres : s.mapMeta.entry.reservedNextFree fork ≤ t.mapMeta.entry.reservedNextFree fork)
    (hwithin : t.mapMeta.entry.super.nextFree fork ≤ t.mapMeta.entry.reservedNextFree fork) :
    Apart fork t where
  map_lt k p hk hp := (h.map_lt k p hk (hmap ▸ hp)).trans_le hres
  claim_lt k c hk hc := (h.claim_lt k c hk (hclaims k c hc)).trans_le hres
  map_inj k k' p hk hk' hp hp' := h.map_inj k k' p hk hk' (hmap ▸ hp) (hmap ▸ hp')
  claim_inj k k' c c' hk hk' hc hc' :=
    h.claim_inj k k' c c' hk hk' (hclaims k c hc) (hclaims k' c' hc')
  claim_map k k' c hk hk' hc hp := h.claim_map k k' c hk hk' (hclaims k c hc) (hmap ▸ hp)
  within := hwithin

lemma reserveAt (b k) : Apart fork (s.reserveAt b k) := by
  have hres := s.reserved_le_reserveAt b k fork
  -- the block handed out lies at the frontier, all others below it
  have hnew : ∀ k₁ c, k₁.1 = fork → (s.reserveAt b k).claims k₁ = some c →
      (k₁ = k ∧ c.pblk = s.mapMeta.entry.reservedNextFree fork) ∨
        (s.claims k₁ = some c ∧ c.pblk < s.mapMeta.entry.reservedNextFree fork) := by
    intro k₁ c hk₁ hc
    rcases claims_reserveAt_cases hc with ⟨rfl, hp⟩ | hc
    · exact .inl ⟨rfl, hk₁ ▸ hp⟩
    · exact .inr ⟨hc, h.claim_lt k₁ c hk₁ hc⟩
  refine ⟨fun k₁ p hk₁ hp => (h.map_lt k₁ p hk₁ hp).trans_le hres, ?_, h.map_inj, ?_, ?_,
    h.within.trans hres⟩
  · intro k₁ c hk₁ hc
    rcases hnew k₁ c hk₁ hc with ⟨rfl, hp⟩ | ⟨-, hlt⟩
    · rw [State.reserved_reserveAt, if_pos hk₁.symm, hp]
      exact Nat.lt_succ_self _
    · exact hlt.trans_le hres
  · intro k₁ k₂ c c' hk₁ hk₂ hc hc' hp
    rcases hnew k₁ c hk₁ hc with ⟨rfl, h₁⟩ | ⟨hc, h₁⟩ <;>
      rcases hnew k₂ c' hk₂ hc' with ⟨rfl, h₂⟩ | ⟨hc', h₂⟩
    · rfl
    · omega
    · omega
    · exact h.claim_inj k₁ k₂ c c' hk₁ hk₂ hc hc' hp
  · intro k₁ k₂ c hk₁ hk₂ hc hp
    rcases hnew k₁ c hk₁ hc with ⟨rfl, h₁⟩ | ⟨hc, -⟩
    · have hlt := h.map_lt k₂ c.pblk hk₂ hp
      omega
    · exact h.claim_map k₁ k₂ c hk₁ hk₂ hc hp

lemma publish {k} (hc : s.claims k = some c)
    (hmap : t.mapMeta.map = update s.mapMeta.map k (some c.pblk)) (hclaims : t.claims = s.claims)
    (hentry : t.mapMeta.entry = s.mapMeta.entry) : Apart fork t := by
  have hcases : ∀ k' p, t.mapMeta.map k' = some p →
      (k' = k ∧ p = c.pblk) ∨ s.mapMeta.map k' = some p := by
    intro k' p hp
    rw [hmap, update_apply] at hp
    split_ifs at hp with hk
    · cases hp
      exact .inl ⟨hk, rfl⟩
    · exact .inr hp
  refine ⟨?_, ?_, ?_, ?_, ?_, ?_⟩
  · intro k' p hk' hp
    rw [hentry]
    rcases hcases k' p hp with ⟨rfl, rfl⟩ | hp
    · exact h.claim_lt k' c hk' hc
    · exact h.map_lt k' p hk' hp
  · rw [hclaims, hentry]
    exact h.claim_lt
  · intro k₁ k₂ p hk₁ hk₂ hp₁ hp₂
    rcases hcases k₁ p hp₁ with ⟨rfl, rfl⟩ | hp₁ <;> rcases hcases k₂ _ hp₂ with ⟨rfl, hp⟩ | hp₂
    · rfl
    · exact (h.claim_map k₁ k₂ c hk₁ hk₂ hc hp₂).symm
    · subst hp
      exact h.claim_map k₂ k₁ c hk₂ hk₁ hc hp₁
    · exact h.map_inj k₁ k₂ p hk₁ hk₂ hp₁ hp₂
  · rw [hclaims]
    exact h.claim_inj
  · intro k₁ k₂ c' hk₁ hk₂ hc' hp
    rw [hclaims] at hc'
    rcases hcases k₂ _ hp with ⟨rfl, hp⟩ | hp
    · exact h.claim_inj k₂ k₁ c c' hk₂ hk₁ hc hc' hp.symm
    · exact h.claim_map k₁ k₂ c' hk₁ hk₂ hc' hp
  · rw [hentry]
    exact h.within

theorem effect (he : Effect s t) : Apart fork t := by
  cases he with
  | quiet hmap hclaims hentry =>
    exact h.mono hmap (fun k c hc => hclaims ▸ hc) (hentry.reserved fork)
      (hentry.within fork h.within)
  | @reserve b k hfree hmeta hclaims =>
    have hle : (s.reserveAt b k).mapMeta.entry.reservedNextFree fork
        ≤ t.mapMeta.entry.reservedNextFree fork := by rw [hmeta]
    refine (h.reserveAt b k).mono (by rw [hmeta]) (fun k c hc => hclaims ▸ hc) hle ?_
    rw [hmeta]
    exact (h.reserveAt b k).within
  | drop hmeta hclaims =>
    refine h.mono (by rw [hmeta]) (fun k c hc => claims_of_update_none (hclaims ▸ hc)) ?_ ?_
    · rw [hmeta]
    · rw [hmeta]
      exact h.within
  | publish hc hmap hclaims hentry => exact h.publish hc hmap hclaims hentry

end Apart

/-! ### Settled blocks -/

/-- It has been handed out, a claim that still holds it has installed it, and a logical block that
is mapped to it lies below the end of the fork. -/
structure Settled (fork : ForkNumber) (s : State n) (p : Nat) : Prop where
  handedOut : p < s.mapMeta.entry.reservedNextFree fork
  claim : ∀ k c, k.1 = fork → s.claims k = some c → c.pblk = p → s.mapMeta.map k = some p
  below : ∀ k, k.1 = fork → s.mapMeta.map k = some p → k.2 < s.mapMeta.entry.super.logical fork

namespace Settled

variable {fork : ForkNumber} {s t : State n} {p : Nat} {k : BlockKey}

theorem map_of_effect (h : Settled fork s p) (he : Effect s t) (hk : k.1 = fork)
    (hp : t.mapMeta.map k = some p) : s.mapMeta.map k = some p := by
  cases he with
  | quiet hmap => rwa [hmap] at hp
  | reserve _ hmeta | drop hmeta => rwa [hmeta] at hp
  | @publish k' c hc hmap =>
    rw [hmap, update_apply] at hp
    split_ifs at hp with hkk
    · subst hkk
      exact h.claim k c hk hc (Option.some.inj hp)
    · exact hp

lemma logical_le_of_effect (he : Effect s t) :
    s.mapMeta.entry.super.logical fork ≤ t.mapMeta.entry.super.logical fork := by
  cases he with
  | quiet hmap hclaims hentry => exact hentry.logical fork
  | reserve hfree hmeta =>
    rw [hmeta]
    exact le_rfl
  | drop hmeta => rw [hmeta]
  | publish hc hmap hclaims hentry => rw [hentry]

theorem effect (h : Settled fork s p) (he : Effect s t) : Settled fork t p := by
  have hbelow : ∀ k, k.1 = fork → t.mapMeta.map k = some p →
      k.2 < t.mapMeta.entry.super.logical fork := fun k hk hp =>
    (h.below k hk (h.map_of_effect he hk hp)).trans_le (logical_le_of_effect he)
  cases he with
  | quiet hmap hclaims hentry =>
    refine ⟨h.handedOut.trans_le (hentry.reserved fork), fun k c hk hc hp => ?_, hbelow⟩
    rw [hmap]
    exact h.claim k c hk (hclaims ▸ hc) hp
  | @reserve b k hfree hmeta hclaims =>
    have hres := s.reserved_le_reserveAt b k fork
    refine ⟨?_, fun k' c hk' hc hp => ?_, hbelow⟩
    · rw [hmeta]
      exact h.handedOut.trans_le hres
    · rw [hclaims] at hc
      rw [hmeta]
      rcases claims_reserveAt_cases hc with ⟨rfl, hnew⟩ | hc
      · have hlt := h.handedOut
        rw [hk'] at hnew
        omega
      · exact h.claim k' c hk' hc hp
  | drop hmeta hclaims =>
    refine ⟨?_, fun k c hk hc hp => ?_, hbelow⟩
    · rw [hmeta]
      exact h.handedOut
    · rw [hmeta]
      exact h.claim k c hk (claims_of_update_none (hclaims ▸ hc)) hp
  | @publish k c hc hmap hclaims hentry =>
    refine ⟨?_, fun k' c' hk' hc' hp => ?_, hbelow⟩
    · rw [hentry]
      exact h.handedOut
    · rw [hclaims] at hc'
      rw [hmap, update_apply]
      split_ifs with hkk
      · subst hkk
        rw [hc] at hc'
        cases hc'
        rw [hp]
      · exact h.claim k' c' hk' hc' hp

theorem of_map (ha : Apart fork s) (hk : k.1 = fork) (hp : s.mapMeta.map k = some p)
    (hlt : k.2 < s.mapMeta.entry.super.logical fork) : Settled fork s p where
  handedOut := ha.map_lt k p hk hp
  claim k' c hk' hc hcp := by
    have heq : k = k' := ha.claim_map k' k c hk' hk hc (hcp.symm ▸ hp)
    exact heq ▸ hp
  below k' hk' hp' := by
    have heq : k' = k := ha.map_inj k' k p hk' hk hp' hp
    exact heq ▸ hlt

end Settled

end Umbra
