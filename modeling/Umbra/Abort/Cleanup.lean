import Umbra.Abort.Operations

/-!
# What an error leaves behind

For every error point of every storage operation, what the backend owns there beyond what it owned
before the operation, after the handlers of the operation have run. `AbortTransaction` gives back
the claims of the WAL record under construction and nothing else.
-/

namespace Umbra.Abort

open Foundation Foundation.Raising List

structure Rest where
  claims : List Block := []
  pins : Nat := 0
  io : Bool := false
  released : List Block := []

/-- From `s`, an operation leaves `t`. -/
structure Leaves (s : Owned) (r : Rest) (t : Owned) : Prop where
  claims : ∀ b, b ∈ t.claims ↔ b ∈ r.claims ∨ (b ∈ s.claims ∧ b ∉ r.released)
  pins : t.pins = s.pins + r.pins
  io : t.io = (s.io || r.io)
  barriers : t.barriers = s.barriers
  registered : t.registered = s.registered

open Leaves

namespace Leaves

variable {s t u : Owned} {r r' : Rest}

lemma refl (s) : Leaves s {} s where
  claims := by simp
  pins := rfl
  io := (Bool.or_false _).symm
  barriers := rfl
  registered := rfl

lemma trans (h : Leaves s r u) (h' : Leaves u r' t) {r''}
    (hclaims : ∀ b, (b ∈ r''.claims ∨ (b ∈ s.claims ∧ b ∉ r''.released)) ↔ (b ∈ r'.claims ∨ ((b ∈
      r.claims ∨ (b ∈ s.claims ∧ b ∉ r.released)) ∧ b ∉ r'.released)))
    (hpins : r''.pins = r.pins + r'.pins) (hio : r''.io = (r.io || r'.io)) : Leaves s r'' t where
  claims b := by rw [h'.claims, h.claims, hclaims]
  pins := by rw [h'.pins, h.pins, hpins, Nat.add_assoc]
  io := by rw [h'.io, h.io, hio, Bool.or_assoc]
  barriers := h'.barriers.trans h.barriers
  registered := h'.registered.trans h.registered

lemma of_none (h : Leaves s {} u) (h' : Leaves u r t) : Leaves s r t :=
  h.trans h' (by simp) (by simp) (by simp)

lemma then_none (h : Leaves s r u) (h' : Leaves u {} t) : Leaves s r t :=
  h.trans h' (by simp) (by simp) (by simp)

end Leaves

/-! ### Reading MAP pages -/

def FlushSite.io : FlushSite → Bool
  | .superblock => false
  | .write => true

def ReadSite.rest : ReadSite → Rest
  | .early => {}
  | .victim site => { pins := 1, io := site.io }
  | .load => { pins := 1 }

section Read

variable {s t u : Owned}

@[simp] lemma ReadSite.rest_claims (site : ReadSite) : site.rest.claims = [] := by
  cases site <;> rfl

@[simp] lemma ReadSite.rest_released (site : ReadSite) : site.rest.released = [] := by
  cases site <;> rfl

lemma Leaves.startIo (s) : Leaves s { io := true } s.startIo where
  claims := by simp [Owned.startIo]
  pins := rfl
  io := (Bool.or_true _).symm
  barriers := rfl
  registered := rfl

lemma Leaves.pin (s) : Leaves s { pins := 1 } s.pin where
  claims := by simp [Owned.pin]
  pins := rfl
  io := (Bool.or_false _).symm
  barriers := rfl
  registered := rfl

lemma Leaves.unpin (h : Leaves s { pins := 1 } t) : Leaves s {} t.unpin where
  __ := h
  pins := by rw [Owned.unpin, h.pins, Nat.add_sub_cancel, Nat.add_zero]

variable (h : s.io = false)
include h

lemma mapFlushBuffer_wp :
    wp mapFlushBuffer s (fun _ t => Leaves s {} t) fun site t => Leaves s { io := site.io } t := by
  have hterminate : s.startIo.terminateIo = s := by
    rw [Owned.startIo, Owned.terminateIo, ← h]
  simp [mapFlushBuffer, FlushSite.io, hterminate, refl, startIo]

lemma mapReadBuffer_wp :
    wp mapReadBuffer s (fun _ t => Leaves s { pins := 1 } t)
      fun site t => Leaves s site.rest t := by
  have hvictim : wp mapFlushBuffer s.pin (fun _ t => Leaves s { pins := 1 } t)
      fun site t => Leaves s (ReadSite.victim site).rest t := by
    refine (mapFlushBuffer_wp (s := s.pin) h).mono (fun _ t ht => (pin s).then_none ht) ?_
    intro site t ht
    exact (pin s).trans ht (by simp) rfl (Bool.false_or _).symm
  have hload : ∀ t, Leaves s { pins := 1 } t → Leaves s ReadSite.load.rest t := fun _ ht => ht
  simp only [mapReadBuffer, wp_bind, wp_mayRaise, wp_modify, wp_pick]
  refine ⟨fun hit _ => ?_, .refl s⟩
  cases hit with
  | true => simpa using pin s
  | false =>
    simp only [Bool.not_false, if_true, wp_bind, wp_pick]
    intro dirty _
    cases dirty with
    | true => simpa using hvictim.imp fun _ t ht => ⟨ht, hload t ht⟩
    | false => simpa using ⟨pin s, hload _ (pin s)⟩

lemma mapSetMapping_wp :
    wp mapSetMapping s (fun _ t => Leaves s {} t) fun site t => Leaves s site.rest t := by
  rw [mapSetMapping, wp_bind]
  refine (mapReadBuffer_wp h).imp ?_
  intro _ t ht
  rw [wp_modify]
  exact ht.unpin

lemma mapTryLookup_wp :
    wp mapTryLookup s (fun _ t => Leaves s {} t) fun site t => Leaves s site.rest t := by
  simp only [mapTryLookup, wp_bind, wp_modify, wp_pick]
  refine (mapReadBuffer_wp h).imp ?_
  intro _ t ht _ _
  exact ht.unpin

end Read

/-! ### Reserving blocks -/

def ReserveSite.rest : ReserveSite → Rest
  | .early => {}
  | .read site => site.rest
  | .guarded => {}

def FreshSite.rest (b : Block) : FreshSite → Rest
  | .reserve site => site.rest
  | .preallocate => { claims := [b] }

def NewSite.rest (b : Block) : NewSite → Rest
  | .lookup site => site.rest
  | .reserve site => site.rest
  | .wait => {}
  | .preallocate => { claims := [b] }

variable {bs : List Block}

section Reserve

variable {s t u : Owned} {b : Block} {c : Block}

@[simp] lemma ReserveSite.rest_claims (site : ReserveSite) : site.rest.claims = [] := by
  cases site <;> simp [rest]

@[simp] lemma ReserveSite.rest_released (site : ReserveSite) : site.rest.released = [] := by
  cases site <;> simp [rest]

@[simp] lemma FreshSite.rest_released (site : FreshSite) : (site.rest b).released = [] := by
  cases site <;> simp [rest]

lemma FreshSite.eq_of_mem_rest {site : FreshSite} (h : c ∈ (site.rest b).claims) : c = b := by
  cases site with
  | reserve => simp [rest] at h
  | preallocate => exact mem_singleton.mp h

@[simp] lemma NewSite.rest_released (site : NewSite) : (site.rest b).released = [] := by
  cases site <;> simp [rest]

lemma NewSite.eq_of_mem_rest {site : NewSite} (h : c ∈ (site.rest b).claims) : c = b := by
  cases site with
  | preallocate => exact mem_singleton.mp h
  | _ => simp [rest] at h

lemma Leaves.io_eq_false {r} (h : Leaves s r t) (hs : s.io = false) (hr : r.io = false) :
    t.io = false := by
  rw [h.io, hs, hr, Bool.or_false]

lemma Leaves.owned (hb : s.owns b = true) : Leaves s { claims := [b] } s where
  claims c := by
    have hb : b ∈ s.claims := of_decide_eq_true hb
    constructor
    · exact fun hc => .inr ⟨hc, not_mem_nil⟩
    · rintro (hc | ⟨hc, -⟩)
      · exact mem_singleton.mp hc ▸ hb
      · exact hc
  pins := rfl
  io := (Bool.or_false _).symm
  barriers := rfl
  registered := rfl

lemma Leaves.claim (h : Leaves s { pins := 1 } t) : Leaves s { claims := [b] } (t.claim b) where
  __ := h
  claims c := by simp [Owned.claim, h.claims]
  pins := h.unpin.pins

lemma Leaves.release (h : Leaves s { claims := [b] } t) :
    Leaves s { released := [b] } (t.release b) where
  __ := h
  claims c := by
    simp only [Owned.release, mem_filter, h.claims, mem_singleton, not_mem_nil,
      not_false_eq_true, and_true, false_or, decide_eq_true_eq]
    constructor
    · rintro ⟨hc | hc, hne⟩
      · exact absurd hc hne
      · exact ⟨hc, hne⟩
    · exact fun ⟨hc, hne⟩ => ⟨.inr hc, hne⟩

lemma Leaves.of_released (h : Leaves s { released := bs } t) (hbs : ∀ c ∈ bs, c ∉ s.claims) :
    Leaves s {} t where
  __ := h
  claims c := by
    rw [h.claims]
    simp only [not_mem_nil, false_or, not_false_eq_true, and_true]
    exact ⟨fun hc => hc.1, fun hc => ⟨hc, fun hmem => hbs c hmem hc⟩⟩

def reserved (b : Block) (ok : Bool) : Rest := if ok then { claims := [b] } else {}

variable (h : s.io = false)
include h

lemma mapTryReserveFresh_wp :
    wp (mapTryReserveFresh b) s (fun ok t => Leaves s (reserved b ok) t)
      fun site t => Leaves s site.rest t := by
  simp only [mapTryReserveFresh, wp_bind, wp_mayRaise, wp_read]
  refine ⟨?_, .refl s⟩
  cases hb : s.owns b with
  | true => simpa [reserved] using refl s
  | false =>
    have hnotin : b ∉ s.claims := of_decide_eq_false hb
    simp only [Bool.false_eq_true, if_false, wp_bind, wp_call]
    refine (mapReadBuffer_wp h).imp fun _ t ht => ?_
    have hrelease : Leaves s {} ((t.claim b).release b) := by
      refine ht.claim.release.of_released ?_
      intro c hc
      exact mem_singleton.mp hc ▸ hnotin
    rw [wp_pick]
    intro claimed _
    cases claimed with
    | true => simpa [reserved, ReserveSite.rest] using ⟨⟨hrelease, ht.claim⟩, hrelease⟩
    | false => simpa [reserved] using ht.unpin

lemma mapReserveNext_wp :
    wp (mapReserveNext b) s (fun ok t => Leaves s (reserved b ok) t)
      fun site t => Leaves s site.rest t := by
  rw [mapReserveNext, wp_bind, wp_read]
  cases hb : s.owns b with
  | true => simpa [reserved] using owned hb
  | false => simpa using mapTryReserveFresh_wp h

lemma mapReserveFresh_wp :
    wp (mapReserveFresh b) s (fun ok t => Leaves s (reserved b ok) t)
      fun site t => Leaves s (site.rest b) t := by
  rw [mapReserveFresh, wp_bind, wp_call]
  refine (mapReserveNext_wp h).imp fun ok t ht => ?_
  cases ok with
  | true => simpa using ⟨ht, ht⟩
  | false => simpa using ht

lemma mapGetNew_wp :
    wp (mapGetNew b) s (fun _ t => Leaves s { claims := [b] } t)
      fun site t => Leaves s (site.rest b) t := by
  simp only [mapGetNew, wp_bind, wp_call]
  refine (mapTryLookup_wp h).imp fun _ t ht => ?_
  refine (mapReserveNext_wp (ht.io_eq_false h rfl)).mono (fun ok u hu => ?_) ?_
  · cases ok with
    | true => simpa using ⟨ht.of_none hu, ht.of_none hu⟩
    | false => simpa [reserved, NewSite.rest] using ht.of_none hu
  · exact fun _ _ hu => ht.of_none hu

end Reserve

/-! ### Extending -/

def BirthSite.rest (b : Block) : BirthSite → Rest
  | .reserve site => site.rest b
  | .setMapping site => { site.rest with claims := [b] }
  | .superblock => { claims := [b] }

def RangeSite.rest : RangeSite → Rest
  | .lookup site => site.rest
  | .reserve reserved b site => { site.rest b with claims := (site.rest b).claims ++ reserved }
  | .guarded => {}

def ZeroextendSite.rest : ZeroextendSite → Rest
  | .range site => site.rest
  | .lookup published site => { site.rest with released := published }
  | .birth published b site => { site.rest b with released := published }
  | .file published => { released := published }

def ExtendSite.rest (b : Block) : ExtendSite → Rest
  | .early => {}
  | .gap site => site.rest
  | .lookup published site => { site.rest with released := published }
  | .birth published site => { site.rest b with released := published }
  | .walOwned published => { claims := [b], released := published }
  | .file published => { released := published }

section Extend

variable {s t u : Owned} {b : Block}

@[simp] lemma BirthSite.rest_released (site : BirthSite) : (site.rest b).released = [] := by
  cases site <;> simp [rest]

def born (b : Block) (walOwned : Bool) : Rest :=
  if walOwned then { claims := [b] } else { released := [b] }

lemma Leaves.releaseAll {cs} (h : Leaves s { claims := cs } t) (hcs : ∀ c ∈ cs, c ∉ s.claims)
    (hbs : ∀ c, c ∈ bs ↔ c ∈ cs) : Leaves s {} (t.releaseAll bs) where
  __ := h
  claims c := by
    simp only [Owned.releaseAll, mem_filter, h.claims, hbs, not_mem_nil,
      not_false_eq_true, and_true, false_or, decide_eq_true_eq]
    constructor
    · rintro ⟨hc | hc, hne⟩
      · exact absurd hc hne
      · exact hc
    · exact fun hc => ⟨.inr hc, fun hmem => hcs c hmem hc⟩

variable (h : s.io = false)
include h

lemma umPublishMappedBirth_wp (allowWalOwned) :
    wp (umPublishMappedBirth b allowWalOwned) s
      (fun walOwned t => Leaves s (born b walOwned) t ∧ (walOwned = true → allowWalOwned = true))
      fun site t => Leaves s (site.rest b) t := by
  simp only [umPublishMappedBirth, wp_bind, wp_call]
  refine (mapGetNew_wp h).imp fun _ t ht => ?_
  have hset : wp mapSetMapping t (fun _ u => Leaves s { claims := [b] } u)
      fun site u => Leaves s (BirthSite.rest b (.setMapping site)) u := by
    refine (mapSetMapping_wp (ht.io_eq_false h rfl)).mono (fun _ u hu => ht.then_none hu) ?_
    intro site u hu
    exact ht.trans hu (by simp [BirthSite.rest]) (Nat.zero_add _).symm (Bool.false_or _).symm
  simp only [wp_pick]
  intro walEnabled _ available _
  split_ifs with hwal hcritical
  · simp only [Bool.and_eq_true] at hwal
    simpa [born] using ⟨ht, hwal.1.1⟩
  · simp only [wp_bind, wp_critical, wp_call, wp_mayRaise, wp_modify, wp_pure]
    refine hset.mono (fun _ u hu => ⟨⟨hu.release, (by simp)⟩, trivial⟩) fun _ _ _ => trivial
  · simp only [wp_bind, wp_call, wp_mayRaise, wp_modify, wp_pure]
    exact hset.imp fun _ u hu => ⟨⟨hu.release, (by simp)⟩, hu⟩

lemma umRangeIsFresh_wp (bs) (hu : Leaves s {} u) :
    wp (umRangeIsFresh bs) u
      (fun fresh t => Leaves s {} t ∧ (fresh = true → ∀ c ∈ bs, c ∉ s.claims))
      fun site t => Leaves s site.rest t := by
  induction bs generalizing u with
  | nil => simpa [umRangeIsFresh] using hu
  | cons b bs ih =>
    simp only [umRangeIsFresh, wp_bind, wp_call, wp_read]
    refine (mapTryLookup_wp (hu.io_eq_false h rfl)).mono (fun mapped t ht => ?_) ?_
    · have ht := hu.of_none ht
      split_ifs with hknown
      · simpa using ht
      · refine (ih ht).imp ?_
        rintro fresh u ⟨hu, hbs⟩
        refine ⟨hu, fun hfresh => forall_mem_cons.mpr ⟨fun hb => ?_, hbs hfresh⟩⟩
        have hb : b ∈ t.claims := (ht.claims b).mpr (.inr ⟨hb, not_mem_nil⟩)
        exact hknown (by simp [Owned.owns, hb])
    · exact fun site t ht => hu.of_none ht

lemma umReserveRange_wp (bs) {reserved} (hfresh : ∀ c ∈ reserved, c ∉ s.claims)
    (hbs : ∀ c ∈ bs, c ∉ s.claims) (hu : Leaves s { claims := reserved } u) :
    wp (umReserveRange reserved bs) u
      (fun ok t => Leaves s { claims := if ok then bs.reverse ++ reserved else [] } t)
      fun site t => Leaves s site.rest t := by
  induction bs generalizing u reserved with
  | nil => simpa [umReserveRange] using hu
  | cons b bs ih =>
    obtain ⟨hb, hbs⟩ := forall_mem_cons.mp hbs
    simp only [umReserveRange, wp_bind, wp_call]
    refine (mapReserveFresh_wp (hu.io_eq_false h rfl)).mono (fun ok t ht => ?_) ?_
    · cases ok with
      | true =>
        have ht : Leaves s { claims := b :: reserved } t :=
          hu.trans ht (by simp [Abort.reserved, or_assoc]) rfl rfl
        simpa using ih (forall_mem_cons.mpr ⟨hb, hfresh⟩) hbs ht
      | false =>
        have ht : Leaves s { claims := reserved } t := hu.then_none ht
        simpa using ht.releaseAll hfresh fun _ => Iff.rfl
    · intro site t ht
      refine hu.trans ht ?_ (Nat.zero_add _).symm (Bool.false_or _).symm
      simp [RangeSite.rest, or_assoc]

lemma umTryRangeRemapZeroextend_wp (bs) :
    wp (umTryRangeRemapZeroextend bs) s (fun _ t => Leaves s {} t)
      fun site t => Leaves s site.rest t := by
  rw [umTryRangeRemapZeroextend]
  split_ifs
  · simpa using refl s
  rw [wp_bind]
  refine (umRangeIsFresh_wp h bs (.refl s)).imp ?_
  rintro fresh t ⟨ht, hfresh⟩
  cases fresh with
  | false => simpa using ht
  | true =>
    have hfresh := hfresh rfl
    simp only [if_true, wp_bind]
    refine (umReserveRange_wp h bs (forall_mem_nil _) hfresh ht).imp ?_
    intro ok u hu
    cases ok with
    | false => simpa using hu
    | true =>
      have hrelease : Leaves s {} (u.releaseAll bs) := by
        refine releaseAll hu ?_ ?_
        · simpa using fun c hc => hfresh c hc
        · simp
      simp only [if_true, wp_bind, wp_pick, wp_onError]
      intro walEnabled _
      cases walEnabled with
      | true => simpa using hrelease
      | false => simpa [RangeSite.rest] using hrelease

lemma umzeroextendBlocks_wp (bs) {published} (hu : Leaves s { released := published } u) :
    wp (umzeroextendBlocks published bs) u (fun published t => Leaves s { released := published } t)
      fun site t => Leaves s site.rest t := by
  have hfile : ∀ {published t}, Leaves s { released := published } t →
      Leaves s (ZeroextendSite.file published).rest t := fun ht => ht
  induction bs generalizing u published with
  | nil => simpa [umzeroextendBlocks] using ⟨hu, hfile hu⟩
  | cons b bs ih =>
    have hio := hu.io_eq_false h rfl
    simp only [umzeroextendBlocks, wp_bind, wp_call]
    refine (mapTryLookup_wp hio).mono (fun mapped t ht => ?_) ?_
    · have ht := hu.then_none ht
      cases mapped with
      | true => simpa using ⟨ih ht, hfile ht⟩
      | false =>
        simp only [Bool.false_eq_true, if_false, wp_bind, wp_call, wp_mayRaise]
        refine (umPublishMappedBirth_wp (ht.io_eq_false h rfl) false).mono ?_ ?_
        · rintro walOwned v ⟨hv, hallowed⟩
          obtain rfl : walOwned = false := by simpa using hallowed
          have hv : Leaves s { released := b :: published } v := by
            refine ht.trans hv ?_ rfl rfl
            simp [born, and_assoc, and_comm]
          exact ⟨ih hv, hfile hv⟩
        · intro site v hv
          refine ht.trans hv ?_ (Nat.zero_add _).symm (Bool.false_or _).symm
          simp [ZeroextendSite.rest]
    · intro site t ht
      refine hu.trans ht ?_ (Nat.zero_add _).symm (Bool.false_or _).symm
      simp [ZeroextendSite.rest]

lemma umzeroextend_wp (bs) :
    wp (umzeroextend bs) s (fun published t => Leaves s { released := published } t)
      fun site t => Leaves s site.rest t := by
  rw [umzeroextend, wp_bind, wp_call]
  refine (umTryRangeRemapZeroextend_wp h bs).imp fun extended t ht => ?_
  cases extended with
  | true => simpa using ht
  | false => simpa using umzeroextendBlocks_wp h bs ht

lemma umextend_wp (gap) :
    wp (umextend b gap) s (fun _ t => ∃ r : Rest, r.pins = 0 ∧ r.io = false ∧ Leaves s r t)
      fun site t => Leaves s (site.rest b) t := by
  simp only [umextend, wp_bind, wp_mayRaise, wp_call]
  refine ⟨(umzeroextend_wp h gap).imp fun published t ht => ?_, .refl s⟩
  refine (mapTryLookup_wp (ht.io_eq_false h rfl)).mono (fun mapped u hu => ?_) ?_
  · have hu := ht.then_none hu
    cases mapped with
    | true => simpa [ExtendSite.rest] using ⟨⟨_, rfl, rfl, hu⟩, hu⟩
    | false =>
      simp only [Bool.false_eq_true, if_false, wp_bind, wp_call]
      refine (umPublishMappedBirth_wp (hu.io_eq_false h rfl) true).mono ?_ ?_
      · rintro walOwned v ⟨hv, -⟩
        cases walOwned with
        | true =>
          have hv : Leaves s { claims := [b], released := published } v :=
            hu.trans hv (by simp [born]) rfl rfl
          simpa [ExtendSite.rest] using ⟨⟨_, rfl, rfl, hv⟩, hv⟩
        | false =>
          have hv : Leaves s { released := b :: published } v := by
            refine hu.trans hv ?_ rfl rfl
            simp [born, and_assoc, and_comm]
          simpa [ExtendSite.rest] using ⟨⟨_, rfl, rfl, hv⟩, hv⟩
      · intro site v hv
        refine hu.trans hv ?_ (Nat.zero_add _).symm (Bool.false_or _).symm
        simp [ExtendSite.rest]
  · intro site u hu
    refine ht.trans hu ?_ (Nat.zero_add _).symm (Bool.false_or _).symm
    simp [ExtendSite.rest]

end Extend

/-! ### Writing -/

def WriteSite.rest : WriteSite → Rest
  | .barrier site | .resolve site => site.rest
  | .early | .ownClaim | .timeout | .file | .superblock => {}

section Write

variable {s t : Owned} {r : Rest}

lemma Leaves.releaseBarriers {n} (h : Leaves (s.releaseBarriers n) r t) (m) :
    Leaves (s.releaseBarriers m) r (t.releaseBarriers m) where
  __ := h
  barriers := rfl

lemma Leaves.claimBarrier (h : Leaves s { pins := 1 } t) :
    Leaves (s.releaseBarriers (s.barriers + 1)) {} t.claimBarrier where
  __ := h
  pins := h.unpin.pins
  barriers := congrArg (· + 1) h.barriers

lemma umwriteBlock_wp (h : s.io = false) (b) :
    wp (umwriteBlock b) s (fun _ t => ∃ n, Leaves (s.releaseBarriers n) {} t)
      fun site t => ∃ n, Leaves (s.releaseBarriers n) site.rest t := by
  rw [umwriteBlock, wp_bind, wp_read]
  cases s.owns b with
  | true => simpa using ⟨s.barriers, .refl s⟩
  | false =>
    simp only [Bool.false_eq_true, if_false, wp_bind, wp_call]
    refine (mapReadBuffer_wp h).mono (fun _ t ht => ?_) fun site t ht => ⟨s.barriers, ht⟩
    rw [wp_pick]
    intro claimed _
    cases claimed with
    | false => simpa using ⟨s.barriers, ht.unpin⟩
    | true =>
      have hclaim := ht.claimBarrier
      simp only [if_true, wp_bind, wp_modify, wp_call, wp_mayRaise, wp_pick]
      refine (mapTryLookup_wp (hclaim.io_eq_false h rfl)).mono (fun _ u hu => ?_) ?_
      · have hu := hclaim.of_none hu
        refine ⟨fun path _ => ?_, _, hu⟩
        cases path with
        | join => simpa using ⟨_, hu⟩
        | restart => simpa using ⟨1, hu.releaseBarriers 1⟩
        | extend => simpa using ⟨0, hu.releaseBarriers 0⟩
      · exact fun site u hu => ⟨_, hclaim.of_none hu⟩

lemma umwritev_wp (h : s.io = false) (hbarriers : s.barriers = 0) (bs) :
    wp (umwritev bs) s (fun _ t => Leaves s {} t) fun site t => Leaves s site.rest t := by
  have hzero : s.releaseBarriers 0 = s := by rw [Owned.releaseBarriers, ← hbarriers]
  have hend : ∀ {r t n}, Leaves (s.releaseBarriers n) r t → Leaves s r (t.releaseBarriers 0) := by
    intro r t n ht
    simpa only [hzero] using ht.releaseBarriers 0
  simp only [umwritev, wp_bind, wp_mayRaise, wp_onError]
  refine ⟨wp_forEach (fun _ t => ∃ n, Leaves (s.releaseBarriers n) {} t) ?_ ?_ ?_, .refl s⟩
  · exact ⟨s.barriers, .refl s⟩
  · rintro b _ t ⟨n, ht⟩
    refine (umwriteBlock_wp (ht.io_eq_false h rfl) b).mono ?_ ?_
    · rintro _ u ⟨m, hu⟩
      exact ⟨m, (ht.releaseBarriers m).of_none hu⟩
    · rintro site u ⟨m, hu⟩
      exact hend ((ht.releaseBarriers m).of_none hu)
  · rintro t ⟨n, ht⟩
    rw [wp_modify]
    exact ⟨⟨hend ht, hend ht⟩, hend ht⟩

end Write

/-! ### WAL records -/

def AssembleSite.rest (b : Block) : AssembleSite → Rest
  | .lookup site => site.rest
  | .birth site => site.rest b
  | .remap site => site.rest b
  | .refused | .record _ => {}

def InsertSite.rest : InsertSite → Rest
  | .assemble registered b (.record true) => { released := b :: registered }
  | .assemble registered b site => { site.rest b with released := registered }
  | .insert => {}

section Insert

variable {s t u : Owned} {b : Block}

structure Assembling (s u : Owned) : Prop where
  claims : ∀ c, c ∈ u.claims ↔ c ∈ u.registered ∨ c ∈ s.claims
  pins : u.pins = s.pins
  io : u.io = s.io
  barriers : u.barriers = s.barriers

namespace Assembling

lemma start (hregistered : s.registered = []) : Assembling s s where
  claims c := by simp [hregistered]
  pins := rfl
  io := rfl
  barriers := rfl

lemma none (h : Assembling s u) (ht : Leaves u {} t) : Assembling s t where
  claims c := by
    rw [ht.claims, ht.registered, h.claims]
    simp
  pins := ht.pins.trans h.pins
  io := by rw [ht.io, Bool.or_false, h.io]
  barriers := ht.barriers.trans h.barriers

lemma register (h : Assembling s u) (ht : Leaves u { claims := [b] } t) :
    Assembling s (t.register b) where
  claims c := by
    simp only [Owned.register, ht.claims, ht.registered, h.claims, mem_cons,
      not_mem_nil, not_false_eq_true, and_true, or_false, or_assoc]
  pins := ht.pins.trans h.pins
  io := by
    rw [Owned.register, ht.io, Bool.or_false, h.io]
  barriers := ht.barriers.trans h.barriers

lemma reset (h : Assembling s u) (hregistered : s.registered = []) {r} (ht : Leaves u r t)
    (hreleased : r.released = []) (hclaims : ∀ c ∈ r.claims, c ∉ bs)
    (hbs : ∀ c, c ∈ u.registered ↔ c ∈ bs) :
    Leaves s { r with released := bs } t.resetInsertion where
  claims c := by
    simp only [Owned.resetInsertion, Owned.releaseAll, mem_filter, ht.registered, ht.claims,
      h.claims, hbs, hreleased, not_mem_nil, not_false_eq_true, and_true, decide_eq_true_eq]
    constructor
    · rintro ⟨hc | hc | hc, hne⟩
      · exact .inl hc
      · exact absurd hc hne
      · exact .inr ⟨hc, hne⟩
    · rintro (hc | ⟨hc, hne⟩)
      · exact ⟨.inl hc, hclaims c hc⟩
      · exact ⟨.inr (.inr hc), hne⟩
  pins := by rw [Owned.resetInsertion, Owned.releaseAll, ht.pins, h.pins]
  io := by rw [Owned.resetInsertion, Owned.releaseAll, ht.io, h.io]
  barriers := ht.barriers.trans h.barriers
  registered := hregistered.symm

lemma reset_registered (h : Assembling s t) (hregistered : s.registered = [])
    (hbs : ∀ c, c ∈ t.registered ↔ c ∈ bs) : Leaves s { released := bs } t.resetInsertion :=
  h.reset hregistered (.refl t) rfl (forall_mem_nil _) hbs

end Assembling

lemma assembleBlock_wp (h : s.io = false) (hregistered : s.registered = []) (hu : Assembling s u)
    (plan) :
    wp (assembleBlock b plan) u (fun _ t => Assembling s t)
      fun site t => Leaves s (InsertSite.assemble u.registered b site).rest t.resetInsertion := by
  have hio : u.io = false := hu.io.trans h
  rw [assembleBlock.eq_def, wp_bind, wp_read]
  cases hb : u.isRegistered b with
  | true =>
    have hb : b ∈ u.registered := of_decide_eq_true hb
    simp only [if_true, wp_mayRaise]
    refine ⟨hu, hu.reset_registered hregistered fun c => ?_⟩
    exact ⟨fun hc => mem_cons_of_mem b hc, fun hc => (mem_cons.mp hc).elim (· ▸ hb) id⟩
  | false =>
    have hb : b ∉ u.registered := of_decide_eq_false hb
    -- an error without a remap of the block
    have hplain : ∀ {t}, Leaves u {} t → Leaves s { released := u.registered } t.resetInsertion :=
      fun ht => hu.reset hregistered ht rfl (forall_mem_nil _) fun _ => Iff.rfl
    -- an error with one
    have hrecord : ∀ {t}, Leaves u { claims := [b] } t →
        Leaves s { released := b :: u.registered } (t.register b).resetInsertion := by
      intro t ht
      refine (hu.register ht).reset_registered hregistered fun c => ?_
      rw [Owned.register, ht.registered]
    simp only [Bool.false_eq_true, if_false]
    cases plan with
    | none =>
      rw [wp_mayRaise]
      exact ⟨hu, hplain (.refl u)⟩
    | birth =>
      simp only [wp_bind, wp_call]
      refine (mapTryLookup_wp hio).mono (fun mapped t ht => ?_) ?_
      · cases mapped with
        | true => simpa using ⟨hu.none ht, hplain ht⟩
        | false =>
          simp only [Bool.false_eq_true, if_false, wp_bind, wp_call]
          refine (mapReserveFresh_wp (ht.io_eq_false hio rfl)).mono (fun ok v hv => ?_) ?_
          · have hv := ht.of_none hv
            cases ok with
            | true => simpa using ⟨hu.register hv, hrecord hv⟩
            | false => simpa [InsertSite.rest, AssembleSite.rest] using hplain hv
          · intro site v hv
            refine hu.reset hregistered (ht.of_none hv) (FreshSite.rest_released site) ?_ ?_
            · exact fun c hc => FreshSite.eq_of_mem_rest hc ▸ hb
            · exact fun _ => Iff.rfl
      · intro site t ht
        refine hu.reset hregistered ht site.rest_released ?_ fun _ => Iff.rfl
        simp [AssembleSite.rest]
    | remap =>
      simp only [wp_bind, wp_call, wp_modify, wp_mayRaise]
      refine (mapGetNew_wp hio).mono (fun _ t ht => ⟨hu.register ht, hrecord ht⟩) ?_
      intro site t ht
      refine hu.reset hregistered ht (NewSite.rest_released site) ?_ fun _ => Iff.rfl
      exact fun c hc => NewSite.eq_of_mem_rest hc ▸ hb

lemma xlogInsert_wp (h : s.io = false) (hregistered : s.registered = []) (attempts) :
    wp (xlogInsert attempts) s (fun _ t => ∃ bs, Leaves s { released := bs } t)
      fun site t => Leaves s site.rest t := by
  have hend : ∀ {t}, Assembling s t → ∃ bs, Leaves s { released := bs } t.resetInsertion :=
    fun ht => ⟨_, ht.reset_registered hregistered fun _ => Iff.rfl⟩
  simp only [xlogInsert, wp_bind, wp_onError, wp_modify]
  refine wp_forEach (fun _ t => Assembling s t) (.start hregistered) ?_ ?_
  · rintro ⟨b, plan⟩ _ t ht
    simp only [wp_bind, wp_read, wp_call]
    exact assembleBlock_wp h hregistered ht plan
  · intro t ht
    rw [wp_read]
    cases hempty : t.registered.isEmpty with
    | false => simpa using hend ht
    | true =>
      rw [List.isEmpty_iff] at hempty
      have hinsert : Leaves s InsertSite.insert.rest t.resetInsertion :=
        ht.reset_registered hregistered (by simp [hempty])
      simpa using ⟨hend ht, hinsert⟩

end Insert

/-! ### Transactions -/

def TruncateSite.rest : TruncateSite → Rest
  | .early pages => { pins := pages }
  | .read pages site => { site.rest with pins := pages + site.rest.pins }

def Site.rest : Site → Rest
  | .lookup site => site.rest
  | .extend b site => site.rest b
  | .zeroextend site => site.rest
  | .write site => site.rest
  | .insert site => site.rest
  | .truncate site => site.rest
  | .other => {}

namespace Owned

/-- A backend between two operations: it may have claims of unlogged first-born blocks. -/
structure Quiet (s : Owned) : Prop where
  barriers : s.barriers = 0
  pins : s.pins = 0
  io : s.io = false
  registered : s.registered = []

/-- Nothing is left in the backend's hands. -/
def Clean (s : Owned) : Prop := s.claims = [] ∧ s.barriers = 0 ∧ s.pins = 0 ∧ s.io = false

instance (s : Owned) : Decidable s.Clean := inferInstanceAs (Decidable (_ ∧ _))

lemma abort_eq_self : {s : Owned} → s.registered = [] → s.abort = s
  | ⟨_, _, _, _, _⟩, rfl => by simp [abort, resetInsertion, releaseAll]

end Owned

section Transaction

variable {s t u : Owned} {r : Rest}

lemma Leaves.quiet (h : Leaves s r t) (hs : s.Quiet) (hpins : r.pins = 0) (hio : r.io = false) :
    t.Quiet where
  barriers := h.barriers.trans hs.barriers
  pins := by rw [h.pins, hs.pins, hpins]
  io := h.io_eq_false hs.io hio
  registered := h.registered.trans hs.registered

lemma mapPreloadTruncatePages_wp (h : s.io = false) (pages) {done}
    (hu : Leaves s { pins := done } u) :
    wp (mapPreloadTruncatePages done pages) u (fun _ t => Leaves s { pins := done + pages } t)
      fun site t => Leaves s site.rest t := by
  induction pages generalizing u done with
  | zero => simpa [mapPreloadTruncatePages] using hu
  | succ pages ih =>
    simp only [mapPreloadTruncatePages, wp_bind, wp_mayRaise, wp_call]
    refine ⟨(mapReadBuffer_wp (hu.io_eq_false h rfl)).mono (fun _ t ht => ?_) ?_, hu⟩
    · have ht : Leaves s { pins := done + 1 } t := hu.trans ht (by simp) rfl rfl
      rw [← Nat.add_assoc, Nat.add_right_comm]
      exact ih ht
    · intro site t ht
      exact hu.trans ht (by simp [TruncateSite.rest]) rfl (Bool.false_or _).symm

lemma Op.run_wp (hs : s.Quiet) (op : Op) :
    wp op.run s (fun _ t => t.Quiet) fun site t => Leaves s site.rest t := by
  cases op with
  | lookup =>
    simp only [Op.run, wp_bind, wp_call, wp_pure]
    exact (mapTryLookup_wp hs.io).imp fun _ t ht => ht.quiet hs rfl rfl
  | extend b gap =>
    rw [Op.run, wp_call]
    refine (umextend_wp hs.io gap).imp ?_
    rintro _ t ⟨r, hpins, hio, ht⟩
    exact ht.quiet hs hpins hio
  | zeroextend bs =>
    simp only [Op.run, wp_bind, wp_call, wp_pure]
    exact (umzeroextend_wp hs.io bs).imp fun _ t ht => ht.quiet hs rfl rfl
  | write bs =>
    rw [Op.run, wp_call]
    exact (umwritev_wp hs.io hs.barriers bs).imp fun _ t ht => ht.quiet hs rfl rfl
  | insert attempts =>
    rw [Op.run, wp_call]
    refine (xlogInsert_wp hs.io hs.registered attempts).imp ?_
    rintro _ t ⟨bs, ht⟩
    exact ht.quiet hs rfl rfl
  | truncate pages =>
    simp only [Op.run, wp_bind, wp_call, wp_modify]
    refine (mapPreloadTruncatePages_wp hs.io pages (.refl s)).imp fun _ t ht => ?_
    exact {
      barriers := ht.barriers.trans hs.barriers
      pins := by simp [ht.pins, hs.pins]
      io := ht.io_eq_false hs.io rfl
      registered := ht.registered.trans hs.registered }
  | other =>
    rw [Op.run, wp_mayRaise]
    exact ⟨hs, .refl s⟩

lemma transaction_wp (ops) : wp (transaction ops) .idle (fun _ t => t.Quiet) fun _ _ => True :=
  wp_forEach (fun _ t => t.Quiet) ⟨rfl, rfl, rfl, rfl⟩
    (fun op _ _ ht => (Op.run_wp ht op).mono (fun _ _ h => h) fun _ _ _ => trivial) fun _ h => h

lemma Leaves.clean_abort_iff (h : Leaves s r t) (hs : s.Quiet) :
    t.abort.Clean ↔
      r.claims = [] ∧ r.pins = 0 ∧ r.io = false ∧ ∀ b ∈ s.claims, b ∈ r.released := by
  have habort : t.abort = t := Owned.abort_eq_self (h.registered.trans hs.registered)
  have hclaims : t.claims = [] ↔ r.claims = [] ∧ ∀ b ∈ s.claims, b ∈ r.released := by
    simp only [eq_nil_iff_forall_not_mem, h.claims, not_or, not_and, not_not]
    exact forall_and
  rw [habort, Owned.Clean, hclaims, h.barriers, hs.barriers, h.pins, hs.pins, h.io, hs.io]
  simp only [true_and, Nat.zero_add, Bool.false_or, and_assoc]
  exact ⟨fun ⟨hr, hreleased, hpins, hio⟩ => ⟨hr, hpins, hio, hreleased⟩,
    fun ⟨hr, hpins, hio, hreleased⟩ => ⟨hr, hreleased, hpins, hio⟩⟩

/-- Abort leaves nothing behind exactly if the error point leaves no claim, pin or flag, and every
first-born block with a claim has been published or registered. -/
theorem clean_after_abort_iff (ops : List Op) (op : Op) (site : Site)
    (hs : .done () s ∈ transaction ops .idle) (ht : .raised site t ∈ op.run s) :
    t.abort.Clean ↔ site.rest.claims = [] ∧ site.rest.pins = 0 ∧ site.rest.io = false ∧
      ∀ b ∈ s.claims, b ∈ site.rest.released := by
  have hquiet : s.Quiet := (transaction_wp ops).done hs
  exact ((Op.run_wp hquiet op).raised ht).clean_abort_iff hquiet

theorem clean_after_abort_registered :
    let b : Block := (⟨0, 0, 0⟩, (.main, 0))
    let c : Block := (⟨0, 0, 0⟩, (.main, 1))
    let s : Owned := ⟨[b], 0, 0, false, []⟩
    .done () s ∈ transaction [.extend b []] .idle ∧
      .raised (.insert (.assemble [b] c (.record false))) .idle ∈
        (Op.insert [[(b, .birth), (c, .none)]]).run s ∧
      Owned.idle.abort.Clean :=
  ⟨by decide, by decide,
    (clean_after_abort_iff [.extend (⟨0, 0, 0⟩, (.main, 0)) []]
      (.insert [[((⟨0, 0, 0⟩, (.main, 0)), .birth), ((⟨0, 0, 0⟩, (.main, 1)), .none)]])
      (.insert (.assemble [(⟨0, 0, 0⟩, (.main, 0))] (⟨0, 0, 0⟩, (.main, 1)) (.record false)))
      (s := ⟨[(⟨0, 0, 0⟩, (.main, 0))], 0, 0, false, []⟩) (by decide) (by decide)).mpr (by decide)⟩

/-- A failed read leaves a pin, a failed write an I/O in progress, an error behind `umextend` a
claim. -/
theorem abort_leaves_shared_state :
    let b : Block := (⟨0, 0, 0⟩, (.main, 0))
    (∃ t, .raised (.lookup .load) t ∈ Op.lookup.run .idle ∧ t.abort.pins = 1) ∧
      (∃ t, .raised (.lookup (.victim .write)) t ∈ Op.lookup.run .idle ∧ t.abort.io = true) ∧
      ∃ s t, .done () s ∈ transaction [.extend b []] .idle ∧
        .raised .other t ∈ Op.other.run s ∧ t.abort.claims = [b] := by
  refine ⟨⟨⟨[], 0, 1, false, []⟩, by decide, rfl⟩, ⟨⟨[], 0, 1, true, []⟩, by decide, rfl⟩, ?_⟩
  exact ⟨⟨[(⟨0, 0, 0⟩, (.main, 0))], 0, 0, false, []⟩, ⟨[(⟨0, 0, 0⟩, (.main, 0))], 0, 0, false, []⟩,
    by decide, by decide, rfl⟩

end Transaction

end Umbra.Abort
