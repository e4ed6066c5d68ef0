import Umbra.Publication.Promises

/-!
# The machine keeps the promises

`Disciplined` says that every backend is in the middle of a program that keeps its promises. The
programs that operations begin with do, and executing the first action of one leaves one that does.
-/

namespace Umbra

open Foundation Function State List

variable {n : Nat}

/-! ### Programs of the operations -/

variable {s : State n} {b : Fin n} {k : BlockKey} {blks : List BlockRemap}
  {blocks : List (BlockKey × BlockRemapKind)} {e : Event n} {prog : List Instr} {pblk : Nat}

lemma State.assemble_spec (h : s.assemble b blocks = some blks) :
    blks.map BlockRemap.key = blocks.map Prod.fst ∧
      ∀ blk ∈ blks, ∃ c, s.claims blk.key = some c ∧ c.owner = b ∧
        blk = s.assembleBlock c blk.key blk.kind ∧ (blk.kind = .delta → c.old.isSome) := by
  induction blocks generalizing blks with
  | nil =>
    cases h
    exact ⟨rfl, by simp⟩
  | cons p blocks ih =>
    obtain ⟨k, kind⟩ := p
    obtain ⟨c, hc, h⟩ := Option.bind_eq_some_iff.mp h
    obtain ⟨⟨hb, hkind⟩, h⟩ := Option.ite_none_right_eq_some.mp h
    obtain ⟨blks', h', rfl⟩ := Option.map_eq_some_iff.mp h
    obtain ⟨hkeys, hall⟩ := ih h'
    refine ⟨by rw [map_cons, map_cons, hkeys]; rfl, fun blk hblk => ?_⟩
    rcases mem_cons.mp hblk with rfl | hblk
    · exact ⟨c, hc, hb, rfl, hkind⟩
    · exact hall blk hblk

lemma State.assemble_wellFormed (hnd : (blocks.map Prod.fst).Nodup)
    (h : s.assemble b blocks = some blks) : (Record.blockRemaps blks).WellFormed := by
  obtain ⟨hkeys, hall⟩ := assemble_spec h
  refine ⟨hkeys ▸ hnd, fun blk hblk => ?_⟩
  obtain ⟨c, -, -, heq, -⟩ := hall blk hblk
  rw [heq]
  exact ⟨le_max_right _ _, le_max_right _ _⟩

lemma Begin.progOk (h : Begin s e b prog) : ProgOk s.claims b false prog := by
  cases h with
  | blockRemaps hnd h =>
    refine progOk_xlogInsertRemaps (assemble_wellFormed hnd h) fun blk hblk => ?_
    obtain ⟨c, hc, hb, heq, -⟩ := (assemble_spec h).2 blk hblk
    refine ⟨c, hc, hb, ?_⟩
    rw [heq]
    rfl
  | range hpos h => exact progOk_firstbornRangeRemap (ownedRange_spec h)
  | extend => exact progOk_umextend
  | zeroExtend => exact progOk_umzeroextend
  | relocate hnew => exact progOk_relocate (ownedPblk_eq_some.mp hnew)
  | truncate => exact progOk_truncate

section
variable {fork : ForkNumber} {first : Nat} {pblks : List Nat} {r : Record}

lemma insert_notMem_of_isPlain {l : List Instr} (h : ∀ i ∈ l, i.isPlain = true) (r) :
    .insert r ∉ l := by
  intro hmem
  cases h _ hmem

lemma insert_notMem_setMappings : .insert r ∉ setMappings fork first pblks := by
  intro hmem
  obtain ⟨k, p, heq, -⟩ := mem_setMappings.mp hmem
  cases heq

lemma insert_notMem_releases : .insert r ∉ releases fork first pblks := by
  intro hmem
  obtain ⟨lblk, -, heq⟩ := mem_releases hmem
  cases heq

/-- The record a program inserts. -/
lemma Begin.record (h : Begin s e b prog) (hr : .insert r ∈ prog) :
    (∃ blocks blks, s.assemble b blocks = some blks ∧ r = .blockRemaps blks) ∨
      (∃ fork first pblks, r = .rangeRemap fork first pblks) ∨
      (∃ k old new, s.mapMeta.map k = some old ∧ r = .mapSet k (some old) new) ∨
      ∃ fork nblocks, r = .smgrTruncate fork nblocks := by
  cases h with
  | @blockRemaps _ blocks blks _ h =>
    have hno := insert_notMem_of_isPlain (fun i hi => @isPlain_of_mem_commits blks i hi) r
    exact .inl ⟨blocks, blks, h, by simpa [xlogInsertRemaps, hno] using hr⟩
  | @range _ fork first _ pblks =>
    refine .inr (.inl ⟨fork, first, pblks, ?_⟩)
    simpa [firstbornRangeRemap, insert_notMem_setMappings, insert_notMem_releases] using hr
  | extend => simp [umextend] at hr
  | zeroExtend => simp [umzeroextend] at hr
  | @relocate _ k old new _ hold =>
    refine .inr (.inr (.inl ⟨k, old, new, hold, ?_⟩))
    simpa [mapCompactorRelocateEntry] using hr
  | @truncate _ fork nblocks =>
    refine .inr (.inr (.inr ⟨fork, nblocks, ?_⟩))
    simpa [relationTruncate] using hr

end

lemma Update.isPlain {i m} (h : Update s b i m) : i.isPlain = true := by
  cases h <;> rfl

/-! ### One step of a program -/

section ProgOk

variable {claims claims' : BlockKey → Option (Claim n)} {b : Fin n} {d : Bool} {i : Instr}
  {rest : List Instr} {extend : Bool}

lemma ProgOk.tail_of_delay {d'} (h : ProgOk claims b d (i :: rest)) (hd : DelayOk d' rest) :
    ProgOk claims b d' rest :=
  ⟨hd, h.covers.2, h.sound.2, h.owned.2⟩

lemma ProgOk.tail (h : ProgOk claims b d (i :: rest)) (hi : i.isPlain = true) :
    ProgOk claims b d rest :=
  h.tail_of_delay (h.delay.tail hi)

lemma ProgOk.mono (h : ProgOk claims b d rest)
    (hown : ∀ k pblk, Owns claims b k pblk → Owns claims' b k pblk) : ProgOk claims' b d rest := by
  refine { h with owned := h.owned.imp fun i _ l _ hi => ?_ }
  cases i with
  | insert => exact fun k pblk hk => hown _ _ (hi k pblk hk)
  | setMapping => exact hown _ _ hi
  | release =>
    obtain ⟨⟨pblk, hp⟩, hno⟩ := hi
    exact ⟨⟨pblk, hown _ _ hp⟩, hno⟩
  | birth => exact hi
  | _ => trivial

lemma ProgOk.tail_release (h : ProgOk claims b d (.release k :: rest)) :
    ProgOk (update claims k none) b d rest := by
  obtain ⟨⟨-, hno⟩, hrest⟩ := h.owned
  have hown : ∀ k' pblk, k' ≠ k → Owns claims b k' pblk →
      Owns (update claims k none) b k' pblk := by
    rintro k' pblk hne ⟨c, hc, hcb, hcp⟩
    exact ⟨c, by rw [update_of_ne hne, hc], hcb, hcp⟩
  refine ⟨h.delay, h.covers.2, h.sound.2, hrest.imp fun i hi l _ hil => ?_⟩
  cases i with
  | insert =>
    intro k' pblk hk
    refine hown k' pblk ?_ (hil k' pblk hk)
    rintro rfl
    exact hno _ hi ⟨pblk, hk⟩
  | setMapping k' pblk => exact hown k' pblk (hno _ hi) hil
  | release k' =>
    obtain ⟨⟨pblk, hp⟩, hno'⟩ := hil
    exact ⟨⟨pblk, hown k' pblk (hno _ hi) hp⟩, hno'⟩
  | birth => exact hil
  | _ => trivial

lemma ProgOk.skipBirth (pblk) (h : ProgOk claims b d (.birth k extend :: rest)) :
    ProgOk claims b d (if extend then .bumpCapacity k.1 (pblk + 1) .invalid :: rest else rest) := by
  obtain ⟨rfl, hdelay⟩ := h.delay
  have htail := h.tail_of_delay hdelay
  split_ifs
  · exact ⟨htail.delay, ⟨trivial, htail.covers⟩, ⟨trivial, htail.sound⟩, ⟨trivial, htail.owned⟩⟩
  · exact htail

lemma ProgOk.birth (h : ProgOk claims b d (.birth k extend :: rest)) (hown : Owns claims b k pblk) :
    ProgOk claims b d (if extend then umextendBirth k pblk ++ rest
      else umPublishMappedBirth k pblk ++ rest) := by
  cases extend with
  | false => exact h.expandBirth hown
  | true => exact h.birth_of_extend.expandBirth hown

lemma ProgOk.umtruncateTail (h : ProgOk claims b d rest) (fork oldNblocks nblocks mapLsn) :
    ProgOk claims b d (umtruncateTail fork oldNblocks nblocks mapLsn ++ rest) := by
  rw [Umbra.umtruncateTail, append_assoc]
  induction List.range' nblocks (oldNblocks - nblocks) with
  | nil => exact ⟨h.delay, ⟨trivial, h.covers⟩, ⟨trivial, h.sound⟩, ⟨trivial, h.owned⟩⟩
  | cons l lblks ih =>
    exact ⟨ih.delay, ⟨trivial, ih.covers⟩, ⟨trivial, ih.sound⟩, ⟨trivial, ih.owned⟩⟩

end ProgOk

/-! ### The invariant -/

/-- Programs publish what their records name, with blocks they own, inside delay sections. -/
structure Disciplined (s : State n) : Prop where
  progs : ∀ b, ProgOk s.claims b (s.backends b).delayChkptStart (s.backends b).prog
  quiet : s.recovery ≠ none → ∀ b, (s.backends b).prog = []
  wellFormed : ∀ r ∈ s.wal, r.WellFormed

namespace Disciplined

variable {s t : State n}

section
variable (h : Disciplined s) {rest : List Instr} {i : Instr}
include h

lemma congr (hc : t.claims = s.claims) (hb : t.backends = s.backends)
    (hr : t.recovery ≠ none → s.recovery ≠ none) (hw : ∀ r ∈ t.wal, r ∈ s.wal ∨ r.WellFormed) :
    Disciplined t where
  progs := by
    rw [hc, hb]
    exact h.progs
  quiet hne := hb ▸ h.quiet (hr hne)
  wellFormed r hr := (hw r hr).elim (h.wellFormed r) id

lemma recovery_eq_none (hprog : (s.backends b).prog = i :: rest) : s.recovery = none := by
  by_contra hne
  have hnil := h.quiet hne b
  rw [hprog] at hnil
  cases hnil

lemma prog_cons (hprog : (s.backends b).prog = i :: rest) :
    ProgOk s.claims b (s.backends b).delayChkptStart (i :: rest) :=
  hprog ▸ h.progs b

lemma setBackend {be} (hrec : s.recovery = none)
    (hbe : ProgOk s.claims b be.delayChkptStart be.prog) : Disciplined (s.setBackend b be) where
  progs := (forall_update_iff s.backends fun b be => ProgOk s.claims b be.delayChkptStart
    be.prog).mpr ⟨hbe, fun b' _ => h.progs b'⟩
  quiet hne := absurd hrec hne
  wellFormed := h.wellFormed

lemma reserveAt (hfree : s.claims k = none) : Disciplined (s.reserveAt b k) where
  progs b' := (h.progs b').mono fun k' pblk ⟨c, hc, hcb, hcp⟩ => by
    have hne : k' ≠ k := by
      rintro rfl
      rw [hfree] at hc
      cases hc
    exact ⟨c, by rw [claims_reserveAt_of_ne hne, hc], hcb, hcp⟩
  quiet := h.quiet
  wellFormed := h.wellFormed

lemma flushSuper : Disciplined s.flushSuper := by
  refine h.congr (claims_flushSuper s) (backends_flushSuper s) ?_ ?_
  · simp
  · simp only [wal_flushSuper]
    exact fun r hr => .inl hr

end

lemma owns_dropClaim {c} (hc : s.claims k = some c) {b'} (hb : b' ≠ c.owner) {k'}
    (ho : Owns s.claims b' k' pblk) : Owns (s.dropClaim k).claims b' k' pblk := by
  obtain ⟨c', hc', hcb', hcp'⟩ := ho
  have hne : k' ≠ k := by
    rintro rfl
    rw [hc] at hc'
    cases hc'
    exact hb hcb'.symm
  exact ⟨c', (update_of_ne hne ..).trans hc', hcb', hcp'⟩

end Disciplined

theorem Disciplined.init (n : Nat) : Disciplined (init n) where
  progs _ := ⟨rfl, trivial, trivial, trivial⟩
  quiet h := absurd rfl h
  wellFormed := nofun

theorem Disciplined.step {t} (h : Disciplined s) (hm : Move s e t) : Disciplined t := by
  cases hm with
  | lookup hrec => exact h.setBackend hrec (h.progs _)
  | reserve hrec hidle hfree => exact h.reserveAt hfree
  | @abort b k c hrec hidle hc hb =>
    refine ⟨fun b' => ?_, h.quiet, h.wellFormed⟩
    by_cases hne : b' = b
    · subst hne
      have hprog := h.progs b'
      rw [hidle] at hprog
      change ProgOk (s.dropClaim k).claims b' (s.backends b').delayChkptStart (s.backends b').prog
      rw [hidle]
      exact ⟨hprog.delay, trivial, trivial, trivial⟩
    · exact (h.progs b').mono fun k' pblk => owns_dropClaim hc (hb ▸ hne)
  | @start _ b prog hrec hidle hbegin =>
    have hd : (s.backends b).delayChkptStart = false := by
      have := (h.progs b).delay
      rwa [hidle] at this
    refine h.setBackend hrec ?_
    change ProgOk s.claims b (s.backends b).delayChkptStart prog
    rw [hd]
    exact hbegin.progOk
  | delayStart hprog | delayEnd hprog =>
    exact h.setBackend (h.recovery_eq_none hprog)
      ((h.prog_cons hprog).tail_of_delay (h.prog_cons hprog).delay)
  | @insert b r rest hprog =>
    have hp := h.prog_cons hprog
    have h' : Disciplined { s with wal := s.wal ++ [r] } := by
      refine h.congr rfl rfl id fun r' hr' => ?_
      rcases mem_append.mp hr' with hr' | hr'
      · exact .inl hr'
      · rw [mem_singleton.mp hr']
        exact .inr hp.covers.1.1
    exact h'.setBackend (h.recovery_eq_none hprog) (hp.tail_of_delay hp.delay.2)
  | @update b i rest m hprog hu =>
    have h' : Disciplined (s.setMeta m) := h.congr rfl rfl id fun r hr => .inl hr
    exact h'.setBackend (h.recovery_eq_none hprog) ((h.prog_cons hprog).tail hu.isPlain)
  | @release b k rest hprog =>
    have hp := h.prog_cons hprog
    obtain ⟨pblk, c, hc, hb, -⟩ := hp.owned.1.1
    refine ⟨(forall_update_iff s.backends fun b' be => ProgOk (s.dropClaim k).claims b'
      be.delayChkptStart be.prog).mpr ⟨hp.tail_release, fun b' hne => ?_⟩,
      fun hne => absurd (h.recovery_eq_none hprog) hne, h.wellFormed⟩
    exact (h.progs b').mono fun k' pblk => owns_dropClaim hc (hb ▸ hne)
  | birthMapped hprog =>
    exact h.setBackend (h.recovery_eq_none hprog) ((h.prog_cons hprog).skipBirth _)
  | birthOwned hprog hmap hown =>
    exact h.setBackend (h.recovery_eq_none hprog)
      ((h.prog_cons hprog).birth (ownedPblk_eq_some.mp hown))
  | @birthFresh b k extend rest hprog hmap hfree =>
    have h' := h.reserveAt (b := b) hfree
    exact h'.setBackend (h.recovery_eq_none hprog)
      ((h'.prog_cons hprog).birth ⟨_, claims_reserveAt_self s b k, rfl, rfl⟩)
  | umtruncate hprog =>
    exact h.setBackend (h.recovery_eq_none hprog)
      (((h.prog_cons hprog).tail rfl).umtruncateTail ..)
  | preallocate | walWrite | walFlush | ckptCollect | ckptWait =>
    exact h.congr rfl rfl id fun r hr => .inl hr
  | flushPage =>
    refine h.congr (claims_flushPage ..) (backends_flushPage ..) ?_ ?_
    · simp
    · simp only [wal_flushPage]
      exact fun r hr => .inl hr
  | flushSuper => exact h.flushSuper
  | ckptSuper => exact h.flushSuper.congr rfl rfl id fun r hr => .inl hr
  | crash =>
    refine ⟨fun b => ⟨rfl, trivial, trivial, trivial⟩, fun _ b => rfl, fun r hr => ?_⟩
    exact h.wellFormed r (mem_of_mem_take hr)
  | redo hrec hr =>
    exact h.congr rfl rfl (fun _ => by rw [hrec]; exact Option.some_ne_none _) fun r hr => .inl hr
  | localBirth hrec haux hmap ht =>
    obtain ⟨p, -, rfl⟩ := Option.map_eq_some_iff.mp ht
    exact h.congr rfl rfl id fun r hr => .inl hr
  | endRecovery => exact h.congr rfl rfl (fun hne => absurd rfl hne) fun r hr => .inl hr
  | _ =>
    refine h.congr rfl rfl id fun r hr => ?_
    rcases mem_append.mp hr with hr | hr
    · exact .inl hr
    · rw [mem_singleton.mp hr]
      exact .inr trivial

end Umbra
