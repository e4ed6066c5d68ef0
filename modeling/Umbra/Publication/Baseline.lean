import Umbra.Publication.Settled

/-!
# The old block a record names

`MapGetNewPbkno` looks the mapping up before it claims the block, so the old physical block that a
remap record names may be stale by the time of the claim. If every lookup is still current when its
block gets claimed, the claim keeps it current up to the insertion of the record.
-/

namespace Umbra

open Foundation Function List

variable {n : Nat}
variable {rest : List Instr} {pblk first : Nat} {r : Record} {fork : ForkNumber} {pblks : List Nat}
  {e : Event n} {be : Backend} {prog : List Instr}

namespace Record

/-- The record names the block as the place its key is moved from. -/
def NamesOld (r : Record) (k : BlockKey) (pblk : Nat) : Prop :=
  match r with
  | .mapSet key old _ => key = k ∧ old = some pblk
  | .blockRemaps blks => ∃ blk ∈ blks, blk.key = k ∧ blk.old = some pblk
  | _ => False

lemma NamesOld.mentions {k} (h : r.NamesOld k pblk) : (Instr.insert r).Mentions k := by
  cases r with
  | mapSet key old new =>
    obtain ⟨rfl, -⟩ := h
    exact ⟨new, if_pos rfl⟩
  | blockRemaps =>
    obtain ⟨blk, hmem, rfl, -⟩ := h
    exact Option.isSome_iff_exists.mp (isSome_newPblkOf hmem)
  | _ => exact h.elim

end Record

/-! ### The order of a publication -/

def Tidy : Instr → List Instr → Prop
  | .setMapping k _, is => .release k ∈ is ∧ ∀ r, .insert r ∈ is → ¬ (Instr.insert r).Mentions k
  | _, _ => True

lemma tidy_commits (blks : List BlockRemap) :
    ForallSuffix Tidy (blks.flatMap commitBlockRemap ++ [.delayEnd]) := by
  induction blks with
  | nil => exact ⟨trivial, trivial⟩
  | cons blk blks ih =>
    have hno : ∀ r, .insert r ∉ blks.flatMap commitBlockRemap :=
      insert_notMem_of_isPlain fun i hi => isPlain_of_mem_commits hi
    rw [flatMap_cons, append_assoc, commitBlockRemap]
    split_ifs
    · refine ⟨⟨by simp, fun r hr => ?_⟩, trivial, trivial, trivial, ih⟩
      simp [hno r] at hr
    · refine ⟨⟨by simp, fun r hr => ?_⟩, trivial, trivial, ih⟩
      simp [hno r] at hr

lemma release_mem_releases {k} (h : .setMapping k pblk ∈ setMappings fork first pblks) :
    .release k ∈ releases fork first pblks := by
  induction pblks generalizing first with
  | nil => cases h
  | cons p pblks ih =>
    rcases mem_cons.mp h with heq | h
    · obtain ⟨rfl, -⟩ := Instr.setMapping.inj heq
      exact mem_cons_self
    · exact mem_cons_of_mem _ (ih h)

lemma tidy_firstbornRangeRemap (fork first pblks) :
    ForallSuffix Tidy (firstbornRangeRemap fork first pblks) := by
  have htail : ForallSuffix Tidy (releases fork first pblks ++
      [.bumpLogical fork (first + pblks.length) .record, .delayEnd]) := by
    refine forallSuffix_append.mpr ⟨.of_forall_mem fun i hi _ => ?_, trivial, trivial, trivial⟩
    obtain ⟨lblk, -, rfl⟩ := mem_releases hi
    trivial
  have hany : ForallSuffix (fun _ _ => True) (setMappings fork first pblks) :=
    .of_forall_mem fun _ _ _ => trivial
  refine ⟨trivial, trivial, trivial, forallSuffix_append.mpr ⟨?_, trivial, trivial, htail⟩⟩
  refine hany.imp fun i hi t ht _ => ?_
  obtain ⟨k, p, rfl, -⟩ := mem_setMappings.mp hi
  refine ⟨by simp [release_mem_releases hi], fun r hr => ?_⟩
  have hset : .insert r ∉ t := fun hmem => insert_notMem_setMappings (ht.subset hmem)
  simp [hset, insert_notMem_releases] at hr

lemma Begin.tidy {s b} (h : Begin s e b prog) : ForallSuffix Tidy prog := by
  cases h with
  | blockRemaps => exact ⟨trivial, trivial, tidy_commits _⟩
  | range => exact tidy_firstbornRangeRemap _ _ _
  | extend => exact ⟨trivial, trivial⟩
  | zeroExtend =>
    refine forallSuffix_append.mpr ⟨.of_forall_mem fun i hi _ => ?_, trivial, trivial, trivial⟩
    obtain ⟨l, -, rfl⟩ := mem_map.mp hi
    trivial
  | relocate =>
    exact ⟨trivial, trivial, ⟨by simp, by simp⟩, trivial, trivial, trivial, trivial, trivial⟩
  | truncate => exact ⟨trivial, trivial, trivial, trivial, trivial⟩

lemma tidy_birth {k} (extend : Bool) (hrest : ForallSuffix Tidy rest)
    (hno : ∀ j ∈ rest, ∀ k, ¬ j.Mentions k) :
    ForallSuffix Tidy (if extend then umextendBirth k pblk ++ rest
      else umPublishMappedBirth k pblk ++ rest) := by
  split_ifs
  · refine ⟨trivial, trivial, ⟨by simp, fun r hr => ?_⟩, trivial, trivial, trivial, trivial,
      trivial, hrest⟩
    simp at hr
    exact hno _ hr k
  · refine ⟨trivial, trivial, ⟨by simp, fun r hr => ?_⟩, trivial, trivial, trivial, hrest⟩
    simp at hr
    exact hno _ hr k

/-! ### The invariant -/

/-- What a lookup saw is still the mapping when its block gets claimed. -/
def lookupCurrent (s : State n) : Event n → Bool
  | .reserve b k =>
    match (s.backends b).lookedUp with
    | some (k', some pblk) => k' ≠ k ∨ s.mapMeta.map k = some pblk
    | _ => true
  | _ => true

/-- The old block of a claim, and of a record about to be inserted, is the mapping of the block,
until the owner publishes. -/
structure Baseline (s : State n) : Prop where
  tidy : ∀ b, ForallSuffix Tidy (s.backends b).prog
  claims : ∀ k c, s.claims k = some c →
    .release k ∈ (s.backends c.owner).prog ∨ ∀ p, c.old = some p → s.mapMeta.map k = some p
  inserts : ∀ b r, .insert r ∈ (s.backends b).prog → ∀ k p, r.NamesOld k p →
    s.mapMeta.map k = some p

namespace Baseline

variable {s t : State n}

lemma congr (h : Baseline s) (hmap : t.mapMeta.map = s.mapMeta.map)
    (hclaims : ∀ k c, t.claims k = some c → s.claims k = some c)
    (hb : t.backends = s.backends) : Baseline t where
  tidy b := by
    rw [hb]
    exact h.tidy b
  claims k c hc := by
    rw [hb, hmap]
    exact h.claims k c (hclaims k c hc)
  inserts b r := by
    rw [hb, hmap]
    exact h.inserts b r

variable {b : Fin n} {k : BlockKey}

section
variable (h : Baseline s) {i : Instr} {extend : Bool}
include h

lemma setBackend (htidy : ForallSuffix Tidy be.prog)
    (hrel : ∀ k c, s.claims k = some c → .release k ∈ (s.backends b).prog → .release k ∈ be.prog)
    (hins : ∀ r, .insert r ∈ be.prog → .insert r ∈ (s.backends b).prog ∨
      ∀ k p, r.NamesOld k p → s.mapMeta.map k = some p) : Baseline (s.setBackend b be) where
  tidy := (forall_update_iff s.backends fun _ be => ForallSuffix Tidy be.prog).mpr
    ⟨htidy, fun b' _ => h.tidy b'⟩
  claims k c hc := by
    change Instr.release k ∈ (update s.backends b be c.owner).prog ∨ _
    by_cases hb : c.owner = b
    · rw [hb, update_self]
      exact (h.claims k c hc).imp (fun hmem => hrel k c hc (hb ▸ hmem)) id
    · rw [update_of_ne hb]
      exact h.claims k c hc
  inserts := (forall_update_iff s.backends fun _ be => ∀ r, .insert r ∈ be.prog →
    ∀ k p, r.NamesOld k p → s.mapMeta.map k = some p).mpr
      ⟨fun r hr => (hins r hr).elim (h.inserts b r) id, fun b' _ => h.inserts b'⟩

lemma pop (hprog : (s.backends b).prog = i :: rest) (hi : ∀ k, i ≠ .release k)
    (hbe : be.prog = rest) : Baseline (s.setBackend b be) := by
  have htidy := h.tidy b
  rw [hprog] at htidy
  refine h.setBackend (hbe ▸ htidy.2) (fun k _ _ hk => ?_) (fun r hr => .inl ?_)
  · rw [hprog] at hk
    rcases mem_cons.mp hk with heq | hk
    · exact absurd heq.symm (hi k)
    · rw [hbe]
      exact hk
  · rw [hprog]
    rw [hbe] at hr
    exact mem_cons_of_mem _ hr

lemma setMeta {m} (hmap : m.map = s.mapMeta.map) (hprog : (s.backends b).prog = i :: rest)
    (hi : ∀ k, i ≠ .release k) : Baseline ((s.setMeta m).setProg b rest) := by
  have h' : Baseline (s.setMeta m) := h.congr hmap (fun _ _ => id) rfl
  exact h'.pop hprog hi rfl

lemma of_begin (hbegin : Begin s e b prog) (hidle : (s.backends b).prog = [])
    (hr : .insert r ∈ prog) : ∀ k p, r.NamesOld k p → s.mapMeta.map k = some p := by
  -- its claims have current old blocks, since it is not about to give one up
  have hcur : ∀ k c p, s.claims k = some c → c.owner = b → c.old = some p →
      s.mapMeta.map k = some p := by
    intro k c p hc hcb hp
    rcases h.claims k c hc with hmem | hcur
    · rw [hcb, hidle] at hmem
      cases hmem
    · exact hcur p hp
  intro k p hold
  rcases hbegin.record hr with ⟨_, _, hasm, rfl⟩ | ⟨_, _, _, rfl⟩ | ⟨_, _, _, hmap, rfl⟩ |
    ⟨_, _, rfl⟩
  · obtain ⟨blk, hmem, rfl, hp⟩ := hold
    obtain ⟨c, hc, hcb, heq, -⟩ := (State.assemble_spec hasm).2 blk hmem
    rw [heq] at hp
    exact hcur blk.key c p hc hcb hp
  · exact hold.elim
  · obtain ⟨rfl, hp⟩ := hold
    rw [hmap, hp]
  · exact hold.elim

lemma reserveAt (hold : ∀ p, (s.backends b).lookedUp = some (k, some p) →
    s.mapMeta.map k = some p) :
    Baseline (s.reserveAt b k) where
  tidy := h.tidy
  claims k' c hc := by
    by_cases hk : k' = k
    · subst hk
      rw [State.claims_reserveAt_self] at hc
      cases hc
      refine .inr fun p hp => hold p ?_
      obtain ⟨⟨k₁, old⟩, hl, hp⟩ := Option.bind_eq_some_iff.mp hp
      obtain ⟨rfl, hsome⟩ := Option.ite_none_right_eq_some.mp hp
      rw [hl, hsome]
    · rw [State.claims_reserveAt_of_ne hk] at hc
      exact h.claims k' c hc
  inserts := h.inserts

lemma setMapping (hd : Disciplined s) {lsn}
    (hprog : (s.backends b).prog = .setMapping k pblk :: rest) :
    Baseline ((s.setMeta (s.mapMeta.setEntry k (some pblk) lsn)).setProg b rest) := by
  obtain ⟨c, hc, hcb, -⟩ := (hd.prog_cons hprog).owned.1
  have htidy := h.tidy b
  rw [hprog] at htidy
  obtain ⟨⟨hrel, hins⟩, htail⟩ := htidy
  have hpop : Baseline (s.setBackend b { s.backends b with prog := rest }) :=
    h.pop hprog (by simp) rfl
  have hother : ∀ k', k' ≠ k → (s.mapMeta.setEntry k (some pblk) lsn).map k' = s.mapMeta.map k' :=
    fun k' hk => update_of_ne hk _ _
  refine ⟨hpop.tidy, fun k' c' hc' => ?_, fun b' r hr k' p hold => ?_⟩
  · by_cases hk : k' = k
    · subst hk
      rw [show s.claims k' = some c' from hc', Option.some.injEq] at hc
      subst hc
      left
      change Instr.release k' ∈ (update s.backends b _ c'.owner).prog
      rw [hcb, update_self]
      exact hrel
    · change _ ∨ ∀ p, c'.old = some p → (s.mapMeta.setEntry k (some pblk) lsn).map k' = some p
      rw [hother k' hk]
      exact hpop.claims k' c' hc'
  · change (s.mapMeta.setEntry k (some pblk) lsn).map k' = some p
    have hk : k' ≠ k := by
      rintro rfl
      change Instr.insert r ∈ (update s.backends b _ b').prog at hr
      by_cases hb : b' = b
      · rw [hb, update_self] at hr
        exact hins r hr hold.mentions
      · -- another backend about to name the block would hold its claim
        rw [update_of_ne hb] at hr
        obtain ⟨t, hown⟩ := (hd.progs b').owned.exists_of_mem hr
        obtain ⟨q, hq⟩ := hold.mentions
        obtain ⟨c', hc', hcb', -⟩ := hown k' q hq
        rw [hc] at hc'
        cases hc'
        exact hb (hcb'.symm.trans hcb)
    rw [hother k' hk]
    exact hpop.inserts b' r hr k' p hold

lemma release (hprog : (s.backends b).prog = .release k :: rest) :
    Baseline ((s.dropClaim k).setProg b rest) := by
  have htidy := h.tidy b
  rw [hprog] at htidy
  have h' : Baseline (s.dropClaim k) := h.congr rfl (fun _ _ => claims_of_update_none) rfl
  refine h'.setBackend htidy.2 (fun k' c hc hmem => ?_) (fun r hr => .inl ?_)
  · have hk : k' ≠ k := by
      rintro rfl
      cases (update_self ..).symm.trans hc
    have hrel : Instr.release k' ∈ .release k :: rest := hprog ▸ hmem
    simpa [hk] using hrel
  · exact hprog ▸ mem_cons_of_mem _ hr

lemma skipBirth (hprog : (s.backends b).prog = .birth k extend :: rest) :
    Baseline (s.skipBirth b rest k extend pblk) := by
  have htidy := h.tidy b
  rw [hprog] at htidy
  cases extend with
  | false => exact h.pop hprog (by simp) rfl
  | true =>
    refine h.setBackend ⟨trivial, htidy.2⟩ (fun k' _ _ hk' => ?_) (fun r hr => .inl ?_)
    · rw [hprog] at hk'
      simpa using hk'
    · rw [hprog]
      simpa using hr

lemma birth (hprog : (s.backends b).prog = .birth k extend :: rest)
    (hno : ∀ j ∈ rest, ∀ k, ¬ j.Mentions k)
    (hbe : be.prog = if extend then umextendBirth k pblk ++ rest else umPublishMappedBirth k pblk ++
      rest) (hmap : t.mapMeta.map = s.mapMeta.map) (hb : t.backends = update s.backends b be)
    (hclaims : ∀ k' c, t.claims k' = some c → k' = k ∧ c.owner = b ∨ s.claims k' = some c) :
    Baseline t := by
  have htidy := h.tidy b
  rw [hprog] at htidy
  have hself : Instr.release k ∈ be.prog := by
    rw [hbe]
    split_ifs <;> simp [umextendBirth, umPublishMappedBirth]
  -- without the new claim this is a change of program
  have hset : Baseline (s.setBackend b be) := by
    refine h.setBackend (hbe ▸ tidy_birth extend htidy.2 hno) (fun k' _ _ hk' => ?_) (fun r hr =>
      .inr ?_)
    · rw [hprog] at hk'
      have hrest : Instr.release k' ∈ rest := by simpa using hk'
      exact absurd rfl (hno _ hrest k')
    · intro k' p hold
      rw [hbe] at hr
      have hnot : Instr.insert r ∉ rest := fun hmem => hno _ hmem k' hold.mentions
      split_ifs at hr <;> simp [umextendBirth, umPublishMappedBirth, hnot] at hr <;>
        (subst hr; cases hold.2)
  refine ⟨fun b' => ?_, fun k' c hc => ?_, fun b' r => ?_⟩
  · rw [hb]
    exact hset.tidy b'
  · rw [hb, hmap]
    rcases hclaims k' c hc with ⟨rfl, rfl⟩ | hc
    · rw [update_self]
      exact .inl hself
    · exact hset.claims k' c hc
  · rw [hb, hmap]
    exact hset.inserts b' r

end

end Baseline

theorem Baseline.start (m : MapMeta) : Baseline (State.startFrom n m) where
  tidy b := trivial
  claims := nofun
  inserts b r hr := by cases hr

theorem Baseline.step {s t} (h : Baseline s) (hd : Disciplined s) (htr : TruncateFree s)
    (hrun : s.recovery = none) (hcrash : e ≠ .crash) (hok : lookupCurrent s e = true)
    (hm : Move s e t) : Baseline t := by
  cases hm with
  | @lookup b => exact h.setBackend (h.tidy b) (fun _ _ _ => id) fun _ => .inl
  | reserve =>
    refine h.reserveAt fun p hp => ?_
    simpa [lookupCurrent, hp] using hok
  | abort => exact h.congr rfl (fun _ _ => claims_of_update_none) rfl
  | @start e b prog hrec hidle hbegin =>
    refine h.setBackend hbegin.tidy (fun k _ _ hk => ?_) fun r hr =>
      .inr (h.of_begin hbegin hidle hr)
    rw [hidle] at hk
    cases hk
  | delayStart hprog | delayEnd hprog => exact h.pop hprog (by simp) rfl
  | @insert b r rest hprog =>
    have h' : Baseline { s with wal := s.wal ++ [r] } := h.congr rfl (fun _ _ => id) rfl
    exact h'.pop hprog (by simp) rfl
  | @update b i rest m hprog hu =>
    cases hu with
    | setMapping => exact h.setMapping hd hprog
    | clearEntry | setLogical => cases (htr.of_cons hprog).1
    | bumpLogical => exact h.setMeta (MapMeta.map_bumpLogical ..) hprog (by simp)
    | bumpNextFree => exact h.setMeta (MapMeta.map_bumpNextFree ..) hprog (by simp)
    | bumpCapacity | bumpCapacityMax =>
      exact h.setMeta (MapMeta.map_bumpCapacity ..) hprog (by simp)
    | bumpCapacityNone => exact h.setMeta rfl hprog (by simp)
  | @release b k rest hprog => exact h.release hprog
  | @birthMapped b k extend rest pblk hprog => exact h.skipBirth hprog
  | birthOwned hprog =>
    exact h.birth hprog (hd.prog_cons hprog).owned.1 rfl rfl rfl fun _ _ => .inr
  | @birthFresh b k extend rest hprog =>
    refine h.birth hprog (hd.prog_cons hprog).owned.1 rfl rfl rfl fun k' c hc => ?_
    by_cases hk : k' = k
    · subst hk
      have hc' := (State.claims_reserveAt_self s b k').symm.trans hc
      cases hc'
      exact .inl ⟨rfl, rfl⟩
    · exact .inr ((State.claims_reserveAt_of_ne hk).symm.trans hc)
  | umtruncate hprog => cases (htr.of_cons hprog).1
  | flushPage => exact h.congr rfl (by simp) (by simp)
  | flushSuper | ckptSuper => exact h.congr (by simp) (by simp) (by simp)
  | crash => exact absurd rfl hcrash
  | redo hrec | localBirth hrec => rw [hrun] at hrec; cases hrec
  | _ => exact h.congr rfl (fun _ _ => id) rfl

end Umbra
