import Umbra.Foundation.ForallSuffix
import Umbra.Publication.Moves

/-!
# What the publication programs promise

Every program that inserts a record goes on to install the mappings and the counter values the
record names, holds the claims of the blocks it names until then, and stays inside the delay
section, except that the per-block extension paths raise the logical end after it.
-/

namespace Umbra

open Foundation Instr List Nat

variable {n : Nat}
variable {l : List Instr} {fork : ForkNumber} {first pblk : Nat} {blk : BlockRemap}
  {pblks : List Nat} {j : Instr} {blks : List BlockRemap} {prog : List Instr}

namespace Instr

def bump (i : Instr) (c : Counter) (fork : ForkNumber) : Nat :=
  match i, c with
  | .bumpLogical f m _, .logical => if f = fork then m else 0
  | .bumpNextFree f m, .nextFree => if f = fork then m else 0
  | _, _ => 0

def lateBump (i : Instr) (fork : ForkNumber) : Nat :=
  match i with
  | .bumpLogical f m .invalid => if f = fork then m else 0
  | _ => 0

def capacityBump (i : Instr) (fork : ForkNumber) : Nat :=
  match i with
  | .bumpCapacity f m .record => if f = fork then m else 0
  | _ => 0

def isBarrier : Instr → Bool
  | .delayStart | .insert _ | .birth _ _ => true
  | _ => false

def isPlain : Instr → Bool
  | .delayStart | .delayEnd | .insert _ | .birth _ _ => false
  | _ => true

def Mentions (k : BlockKey) : Instr → Prop
  | .insert r => ∃ pblk, r.newPblk k = some pblk
  | .setMapping k' _ => k' = k
  | .release k' => k' = k
  | _ => False

lemma isBarrier_of_isPlain {i : Instr} (h : i.isPlain = true) : i.isBarrier = false := by
  cases i <;> first | rfl | cases h

lemma lateBump_le_bump (i : Instr) (fork : ForkNumber) :
    i.lateBump fork ≤ i.bump .logical fork := by
  cases i with
  | bumpLogical f m st => cases st <;> simp [lateBump, bump]
  | _ => exact le_rfl

end Instr

def armed (prog : List Instr) : List Instr := prog.takeWhile fun i => !i.isBarrier

def covered (prog : List Instr) : List Instr := prog.takeWhile isPlain

@[simp] lemma armed_nil : armed [] = [] := rfl

@[simp] lemma armed_cons (i l) : armed (i :: l) = if i.isBarrier then [] else i :: armed l := by
  rw [armed, takeWhile_cons]
  cases i.isBarrier <;> rfl

@[simp] lemma covered_cons (i l) : covered (i :: l) = if i.isPlain then i :: covered l else [] := by
  rw [covered, takeWhile_cons]
  rfl

lemma armed_append (l') (h : ∀ i ∈ l, i.isBarrier = false) : armed (l ++ l') = l ++ armed l' :=
  takeWhile_append_of_pos fun i hi => by simp [h i hi]

lemma armed_eq_self (h : ∀ i ∈ l, i.isBarrier = false) : armed l = l := by
  have happ := armed_append [] h
  rwa [append_nil, armed_nil, append_nil] at happ

lemma mem_of_mem_armed {i} (h : i ∈ armed prog) : i ∈ prog :=
  (takeWhile_sublist _).subset h

lemma covered_append (l') (h : ∀ i ∈ l, i.isPlain = true) : covered (l ++ l') = l ++ covered l' :=
  takeWhile_append_of_pos h

lemma mem_of_mem_covered {i} (h : i ∈ covered prog) : i ∈ prog :=
  (takeWhile_sublist _).subset h

lemma mem_armed_of_mem_covered {i} (h : i ∈ covered prog) : i ∈ armed prog := by
  induction prog with
  | nil => cases h
  | cons j prog ih =>
    rw [covered_cons] at h
    split_ifs at h with hj
    · rw [armed_cons, isBarrier_of_isPlain hj]
      rcases mem_cons.mp h with rfl | h
      · exact mem_cons_self
      · exact mem_cons_of_mem j (ih h)
    · cases h

def Record.WellFormed : Record → Prop
  | .blockRemaps blks =>
    (blks.map BlockRemap.key).Nodup ∧
      ∀ blk ∈ blks, blk.key.2 + 1 ≤ blk.logicalNblocks ∧ blk.new + 1 ≤ blk.nextFree
  | _ => True

variable {r : Record} {k : BlockKey}

lemma Record.WellFormed.lt_bump_nextFree (hr : r.WellFormed)
    (h : r.newPblk k = some pblk) : pblk < r.bump .nextFree k.1 := by
  cases r with
  | mapSet key old =>
    obtain ⟨rfl, rfl⟩ := guard_eq_some h
    cases old <;> simp [bump]
  | rangeRemap =>
    obtain ⟨⟨rfl, -⟩, hget⟩ := Option.ite_none_right_eq_some.mp h
    have hle := le_maxPblk (mem_of_getElem? hget)
    simp only [bump, if_true]
    omega
  | blockRemaps =>
    obtain ⟨blk, hmem, rfl, rfl⟩ := exists_of_newPblkOf h
    have hle := bump_le_blockRemaps hmem .nextFree blk.key.1
    have hfr := (hr.2 blk hmem).2
    simp only [BlockRemap.bump, if_true] at hle
    omega
  | smgrTruncate => cases h
  | other => cases h

/-- What an action demands of the actions after it so that its record gets published. -/
def Covers : Instr → List Instr → Prop
  | .insert r, is =>
    r.WellFormed ∧ (∀ k pblk, r.newPblk k = some pblk → .setMapping k pblk ∈ covered is) ∧
      ∀ c fork, r.bump c fork = 0 ∨ (∃ j ∈ covered is, r.bump c fork ≤ j.bump c fork) ∨
        (c = .logical ∧ ∃ j ∈ is, r.bump c fork ≤ j.lateBump fork)
  | .birth k false, is => ∃ j ∈ is, k.2 + 1 ≤ j.lateBump k.1
  | _, _ => True

/-- The action raises nothing beyond what the record carries. -/
structure Instr.Within (r : Record) (j : Instr) : Prop where
  bump : ∀ c fork, j.bump c fork ≤ r.bump c fork
  capacity : ∀ fork, j.capacityBump fork ≤ r.bump .nextFree fork

/-- The action raises at most the logical end, behind its delay section and up to the block. -/
structure Instr.LateFor (k : BlockKey) (j : Instr) : Prop where
  nextFree : ∀ fork, j.bump .nextFree fork = 0
  logical : ∀ fork, j.bump .logical fork = j.lateBump fork
  late : ∀ fork, j.lateBump fork ≤ if fork = k.1 then k.2 + 1 else 0
  capacity : ∀ fork, j.capacityBump fork = 0

lemma Instr.Within.of_eq_zero (hb : ∀ c fork, j.bump c fork = 0)
    (hc : ∀ fork, j.capacityBump fork = 0) : j.Within r :=
  ⟨fun c fork => hb c fork ▸ zero_le _, fun fork => hc fork ▸ zero_le _⟩

lemma Instr.Within.delayEnd : delayEnd.Within r :=
  .of_eq_zero (fun c _ => by cases c <;> rfl) fun _ => rfl

lemma Instr.Within.setMapping : (setMapping k pblk).Within r :=
  .of_eq_zero (fun c _ => by cases c <;> rfl) fun _ => rfl

lemma Instr.Within.release : (release k).Within r :=
  .of_eq_zero (fun c _ => by cases c <;> rfl) fun _ => rfl

def Sound : Instr → List Instr → Prop
  | .delayStart, is => armed is = []
  | .insert r, is =>
    (∀ k pblk, .setMapping k pblk ∈ armed is → r.newPblk k = some pblk) ∧ ∀ j ∈ armed is, j.Within r
  | .birth k _, is =>
    (∀ k' pblk, .setMapping k' pblk ∉ armed is) ∧ ∀ j ∈ armed is, j.LateFor k
  | _, _ => True

def Owns (claims : BlockKey → Option (Claim n)) (b : Fin n) (k : BlockKey) (pblk : Nat) : Prop :=
  ∃ c, claims k = some c ∧ c.owner = b ∧ c.pblk = pblk

def OwnedBy (claims : BlockKey → Option (Claim n)) (b : Fin n) : Instr → List Instr → Prop
  | .insert r, _ => ∀ k pblk, r.newPblk k = some pblk → Owns claims b k pblk
  | .setMapping k pblk, _ => Owns claims b k pblk
  | .release k, is => (∃ pblk, Owns claims b k pblk) ∧ ∀ j ∈ is, ¬ j.Mentions k
  | .birth _ _, is => ∀ j ∈ is, ∀ k, ¬ j.Mentions k
  | _, _ => True

def DelayOk : Bool → List Instr → Prop
  | d, [] => d = false
  | _, .delayStart :: is => DelayOk true is
  | _, .delayEnd :: is => DelayOk false is
  | d, .insert _ :: is => d = true ∧ DelayOk d is
  | d, .birth _ _ :: is => d = false ∧ DelayOk d is
  | d, _ :: is => DelayOk d is

/-- What the rest of a program keeps to, wherever its backend has got to. -/
structure ProgOk (claims : BlockKey → Option (Claim n)) (b : Fin n) (d : Bool)
    (prog : List Instr) : Prop where
  delay : DelayOk d prog
  covers : ForallSuffix Covers prog
  sound : ForallSuffix Sound prog
  owned : ForallSuffix (OwnedBy claims b) prog

/-! ### Programs without insertions -/

variable {i : Instr}

lemma Covers.of_not_barrier (h : i.isBarrier = false) : Covers i l := by
  cases i <;> trivial

lemma Sound.of_not_barrier (h : i.isBarrier = false) : Sound i l := by
  cases i <;> trivial

lemma DelayOk.append (h : ∀ i ∈ l, i.isPlain = true) (d l') :
    DelayOk d (l ++ l') ↔ DelayOk d l' := by
  induction l with
  | nil => rfl
  | cons i l ih =>
    have hi : i.isPlain = true := h i mem_cons_self
    have hl := ih fun j hj => h j (mem_cons_of_mem i hj)
    cases i <;> first | exact hl | cases hi

variable {d : Bool} {claims : BlockKey → Option (Claim n)} {b : Fin n} {count : Nat}

lemma DelayOk.tail (hi : i.isPlain = true) (h : DelayOk d (i :: l)) : DelayOk d l := by
  cases i <;> first | exact h | cases hi

lemma ProgOk.publish {body} (hbody : ∀ i ∈ body, i.isBarrier = false) (hdelay : DelayOk true body)
    (hcov : Covers (.insert r) body) (hsound : Sound (.insert r) body)
    (hins : OwnedBy claims b (.insert r) body) (hown : ForallSuffix (OwnedBy claims b) body) :
    ProgOk claims b d (.delayStart :: .insert r :: body) where
  delay := ⟨rfl, hdelay⟩
  covers := ⟨trivial, hcov, .of_forall_mem fun i hi _ => .of_not_barrier (hbody i hi)⟩
  sound := ⟨by simp [Sound, isBarrier], hsound,
    .of_forall_mem fun i hi _ => .of_not_barrier (hbody i hi)⟩
  owned := ⟨trivial, hins, hown⟩

/-- A record whose publication is all inside the delay section. -/
lemma ProgOk.publish_plain (hplain : ∀ i ∈ l, i.isPlain = true)
    (hwf : r.WellFormed) (hset : ∀ k pblk, .setMapping k pblk ∈ l ↔ r.newPblk k = some pblk)
    (hbump : ∀ c fork, r.bump c fork = 0 ∨ ∃ j ∈ l, r.bump c fork ≤ j.bump c fork)
    (hwithin : ∀ j ∈ l, j.Within r)
    (hins : ∀ k pblk, r.newPblk k = some pblk → Owns claims b k pblk)
    (hown : ForallSuffix (OwnedBy claims b) (l ++ [.delayEnd])) :
    ProgOk claims b d (.delayStart :: .insert r :: (l ++ [.delayEnd])) := by
  have hbar : ∀ i ∈ l ++ [delayEnd], i.isBarrier = false := by
    intro i hi
    rcases mem_append.mp hi with hi | hi
    · exact isBarrier_of_isPlain (hplain i hi)
    · rw [mem_singleton.mp hi]
      rfl
  have harmed : ∀ {i}, i ∈ armed (l ++ [.delayEnd]) ↔ i ∈ l ∨ i = .delayEnd := by
    rw [armed_eq_self hbar]
    simp
  have hcovered : covered (l ++ [.delayEnd]) = l := by
    rw [covered_append _ hplain]
    exact append_nil _
  refine .publish hbar ((DelayOk.append hplain true [.delayEnd]).mpr rfl)
    ⟨hwf, fun k pblk h => ?_, fun c fork => ?_⟩ ⟨fun k pblk h => ?_, fun j hj => ?_⟩ hins hown
  · rw [hcovered]
    exact (hset k pblk).mpr h
  · rw [hcovered]
    exact (hbump c fork).imp_right .inl
  · exact (hset k pblk).mp ((harmed.mp h).resolve_right (by simp))
  · rcases harmed.mp hj with hj | rfl
    · exact hwithin j hj
    · exact .delayEnd

/-! ### `XLogInsert` with remapped block references -/

lemma mem_commit (h : i ∈ commitBlockRemap blk) : i = .setMapping blk.key blk.new ∨
    (i = .bumpLogical blk.key.1 blk.logicalNblocks .record ∧ blk.old = none) ∨
      i = .bumpNextFree blk.key.1 blk.nextFree ∨ i = .release blk.key := by
  unfold commitBlockRemap at h
  split_ifs at h with hold <;> simpa [hold] using h

lemma isPlain_of_mem_commit (h : i ∈ commitBlockRemap blk) : i.isPlain = true := by
  rcases mem_commit h with rfl | ⟨rfl, -⟩ | rfl | rfl <;> rfl

lemma isPlain_of_mem_commits (h : i ∈ blks.flatMap commitBlockRemap) : i.isPlain = true := by
  obtain ⟨blk, -, hi⟩ := mem_flatMap.mp h
  exact isPlain_of_mem_commit hi

lemma setMapping_mem_commit :
    .setMapping k pblk ∈ commitBlockRemap blk ↔ k = blk.key ∧ pblk = blk.new := by
  unfold commitBlockRemap
  split_ifs <;> simp

lemma exists_mem_commit_bump (blk c fork) :
    blk.bump c fork = 0 ∨ ∃ j ∈ commitBlockRemap blk, blk.bump c fork ≤ j.bump c fork := by
  cases c with
  | logical =>
    by_cases hb : blk.key.1 = fork ∧ blk.old = none
    · refine .inr ⟨.bumpLogical blk.key.1 blk.logicalNblocks .record, ?_, ?_⟩
      · simp [commitBlockRemap, hb.2]
      · simp [BlockRemap.bump, bump, hb]
    · exact .inl (if_neg hb)
  | nextFree =>
    refine .inr ⟨.bumpNextFree blk.key.1 blk.nextFree, ?_, ?_⟩
    · simp [commitBlockRemap]
    · exact le_rfl

lemma within_of_mem_commit (h : j ∈ commitBlockRemap blk) (hmem : blk ∈ blks) :
    j.Within (.blockRemaps blks) := by
  have hle := Record.bump_le_blockRemaps hmem
  rcases mem_commit h with rfl | ⟨rfl, hold⟩ | rfl | rfl
  · exact .setMapping
  · refine ⟨fun c fork => .trans ?_ (hle c fork), fun _ => zero_le _⟩
    cases c <;> simp [bump, BlockRemap.bump, hold]
  · refine ⟨fun c fork => .trans ?_ (hle c fork), fun _ => zero_le _⟩
    cases c <;> simp [bump, BlockRemap.bump]
  · exact .release

lemma mentions_commit (h : j ∈ commitBlockRemap blk) (hk : j.Mentions k) : blk.key = k := by
  rcases mem_commit h with rfl | ⟨rfl, -⟩ | rfl | rfl <;> first | exact hk | cases hk

lemma owned_commits (hnd : (blks.map BlockRemap.key).Nodup)
    (hown : ∀ blk ∈ blks, Owns claims b blk.key blk.new) :
    ForallSuffix (OwnedBy claims b) (blks.flatMap commitBlockRemap ++ [.delayEnd]) := by
  induction blks with
  | nil => exact ⟨trivial, trivial⟩
  | cons blk blks ih =>
    rw [map_cons, nodup_cons] at hnd
    have hblk := hown blk mem_cons_self
    have htail := ih hnd.2 fun b' hb' => hown b' (mem_cons_of_mem _ hb')
    have hrest : ∀ j ∈ blks.flatMap commitBlockRemap ++ [.delayEnd], ¬ j.Mentions blk.key := by
      intro j hj hk
      rcases mem_append.mp hj with hj | hj
      · obtain ⟨b', hb', hj⟩ := mem_flatMap.mp hj
        exact hnd.1 (mentions_commit hj hk ▸ mem_map_of_mem hb')
      · rw [mem_singleton] at hj
        subst hj
        exact hk
    rw [flatMap_cons, append_assoc, commitBlockRemap]
    split_ifs
    · exact ⟨hblk, trivial, trivial, ⟨⟨_, hblk⟩, hrest⟩, htail⟩
    · exact ⟨hblk, trivial, ⟨⟨_, hblk⟩, hrest⟩, htail⟩

lemma progOk_xlogInsertRemaps (hwf : (Record.blockRemaps blks).WellFormed)
    (hown : ∀ blk ∈ blks, Owns claims b blk.key blk.new) :
    ProgOk claims b d (xlogInsertRemaps blks) := by
  refine .publish_plain (fun i hi => isPlain_of_mem_commits hi) hwf (fun k pblk => ⟨?_, ?_⟩) ?_ ?_
    ?_ (owned_commits hwf.1 hown)
  · intro h
    obtain ⟨blk, hmem, h⟩ := mem_flatMap.mp h
    obtain ⟨rfl, rfl⟩ := setMapping_mem_commit.mp h
    exact Record.newPblkOf_of_mem hwf.1 hmem
  · intro h
    obtain ⟨blk, hmem, rfl, rfl⟩ := Record.exists_of_newPblkOf h
    exact mem_flatMap.mpr ⟨blk, hmem, setMapping_mem_commit.mpr ⟨rfl, rfl⟩⟩
  · intro c fork
    rcases Record.blockRemaps_bump_attained blks c fork with h | ⟨blk, hmem, h⟩
    · exact .inl h
    · rcases exists_mem_commit_bump blk c fork with h0 | ⟨j, hj, hle⟩
      · exact .inl (h.trans h0)
      · exact .inr ⟨j, mem_flatMap.mpr ⟨blk, hmem, hj⟩, h ▸ hle⟩
  · intro j hj
    obtain ⟨blk, hmem, hj⟩ := mem_flatMap.mp hj
    exact within_of_mem_commit hj hmem
  · intro k pblk h
    obtain ⟨blk, hmem, rfl, rfl⟩ := Record.exists_of_newPblkOf h
    exact hown blk hmem

/-! ### The range path of `umzeroextend` -/

lemma mem_setMappings : i ∈ setMappings fork first pblks ↔ ∃ k pblk, i = .setMapping k pblk ∧
        (Record.rangeRemap fork first pblks).newPblk k = some pblk := by
  induction pblks generalizing first with
  | nil => simp [setMappings, Record.newPblk]
  | cons p pblks ih =>
    rw [setMappings, mem_cons, ih]
    constructor
    · rintro (rfl | ⟨⟨kf, kl⟩, q, rfl, hq⟩)
      · exact ⟨(fork, first), p, rfl, by simp [Record.newPblk]⟩
      · refine ⟨(kf, kl), q, rfl, ?_⟩
        obtain ⟨⟨rfl, hle⟩, hget⟩ := Option.ite_none_right_eq_some.mp hq
        have hsub : kl - first = (kl - (first + 1)) + 1 := by
          omega
        have hle' : first ≤ kl := by
          omega
        simp only [Record.newPblk, hle', and_self, if_true, hsub, getElem?_cons_succ]
        exact hget
    · rintro ⟨⟨kf, kl⟩, q, rfl, hq⟩
      obtain ⟨⟨rfl, hle⟩, hget⟩ := Option.ite_none_right_eq_some.mp hq
      rcases eq_or_lt_of_le hle with rfl | hlt
      · simp only [Nat.sub_self, getElem?_cons_zero, Option.some.injEq] at hget
        exact .inl (by rw [hget])
      · have hsub : kl - first = (kl - (first + 1)) + 1 := by omega
        rw [hsub, getElem?_cons_succ] at hget
        refine .inr ⟨(fork, kl), q, rfl, ?_⟩
        simp only [Record.newPblk]
        rw [if_pos ⟨trivial, hlt⟩]
        exact hget

lemma mem_releases (h : i ∈ releases fork first pblks) : ∃ lblk, first ≤ lblk ∧ i = .release
    (fork, lblk) := by
  induction pblks generalizing first with
  | nil => cases h
  | cons p pblks ih =>
    rcases mem_cons.mp h with rfl | h
    · exact ⟨first, le_rfl, rfl⟩
    · obtain ⟨lblk, hle, rfl⟩ := ih h
      exact ⟨lblk, by omega, rfl⟩

lemma State.ownedRange_spec {s : State n} (h : s.ownedRange b fork first count = some pblks) :
    ∀ k pblk, (Record.rangeRemap fork first pblks).newPblk k = some pblk →
      Owns s.claims b k pblk := by
  induction count generalizing first pblks with
  | zero =>
    cases h
    intro k pblk hk
    simp [Record.newPblk] at hk
  | succ count ih =>
    obtain ⟨p, hp, h⟩ := Option.bind_eq_some_iff.mp h
    obtain ⟨pblks', h', rfl⟩ := Option.map_eq_some_iff.mp h
    intro k pblk hk
    have hmem : setMapping k pblk ∈ setMappings fork first (p :: pblks') :=
      mem_setMappings.mpr ⟨k, pblk, rfl, hk⟩
    rcases mem_cons.mp hmem with heq | hmem
    · obtain ⟨rfl, rfl⟩ := setMapping.inj heq
      exact State.ownedPblk_eq_some.mp hp
    · obtain ⟨k', q, heq, hq⟩ := mem_setMappings.mp hmem
      obtain ⟨rfl, rfl⟩ := setMapping.inj heq
      exact ih h' _ _ hq

lemma owned_releases (hl : ∀ j ∈ l, ∀ k, ¬ j.Mentions k)
    (hown : ∀ k pblk, (Record.rangeRemap fork first pblks).newPblk k = some pblk →
      Owns claims b k pblk) (hrest : ForallSuffix (OwnedBy claims b) l) :
    ForallSuffix (OwnedBy claims b) (releases fork first pblks ++ l) := by
  induction pblks generalizing first with
  | nil => exact hrest
  | cons p pblks ih =>
    refine ⟨⟨⟨p, hown (fork, first) p (by simp [Record.newPblk])⟩, ?_⟩, ih ?_⟩
    · intro j hj hk
      rcases mem_append.mp hj with hj | hj
      · obtain ⟨lblk, hle, rfl⟩ := mem_releases hj
        obtain ⟨-, heq⟩ := Prod.mk.inj hk
        omega
      · exact hl j hj _ hk
    · intro k pblk hk
      have hmem : setMapping k pblk ∈ setMappings fork first (p :: pblks) :=
        mem_cons_of_mem _ (mem_setMappings.mpr ⟨k, pblk, rfl, hk⟩)
      obtain ⟨k', q, heq, hq⟩ := mem_setMappings.mp hmem
      obtain ⟨rfl, rfl⟩ := setMapping.inj heq
      exact hown _ _ hq

lemma progOk_firstbornRangeRemap
    (hown : ∀ k pblk, (Record.rangeRemap fork first pblks).newPblk k = some pblk →
      Owns claims b k pblk) : ProgOk claims b d (firstbornRangeRemap fork first pblks) := by
  set body : List Instr := .bumpCapacity fork (maxPblk pblks + 1) .invalid ::
    (setMappings fork first pblks ++
      .bumpNextFree fork (maxPblk pblks + 1) :: .bumpCapacity fork (maxPblk pblks + 1) .record ::
      (releases fork first pblks ++ [.bumpLogical fork (first + pblks.length) .record])) with hb
  have hprog : firstbornRangeRemap fork first pblks
      = .delayStart :: .insert (.rangeRemap fork first pblks) :: (body ++ [.delayEnd]) := by
    simp [firstbornRangeRemap, hb]
  -- every action of the body is one of six kinds
  have hmem : ∀ i ∈ body, (∃ st, i = .bumpCapacity fork (maxPblk pblks + 1) st) ∨
      (∃ k p, i = .setMapping k p ∧ (Record.rangeRemap fork first pblks).newPblk k = some p) ∨
      i = .bumpNextFree fork (maxPblk pblks + 1) ∨ (∃ lblk, i = .release (fork, lblk)) ∨
      i = .bumpLogical fork (first + pblks.length) .record := by
    intro i hi
    simp only [hb, mem_cons, mem_append, not_mem_nil, or_false] at hi
    rcases hi with rfl | hi | rfl | rfl | hi | rfl
    · exact .inl ⟨_, rfl⟩
    · exact .inr (.inl (mem_setMappings.mp hi))
    · exact .inr (.inr (.inl rfl))
    · exact .inl ⟨_, rfl⟩
    · obtain ⟨lblk, -, rfl⟩ := mem_releases hi
      exact .inr (.inr (.inr (.inl ⟨lblk, rfl⟩)))
    · exact .inr (.inr (.inr (.inr rfl)))
  rw [hprog]
  refine .publish_plain ?_ trivial (fun k pblk => ⟨fun h => ?_, fun h => ?_⟩)
    (fun c _ => .inr ?_) ?_ hown ?_
  · intro i hi
    rcases hmem i hi with ⟨st, rfl⟩ | ⟨k, p, rfl, -⟩ | rfl | ⟨lblk, rfl⟩ | rfl <;> rfl
  · rcases hmem _ h with ⟨st, heq⟩ | ⟨k', p, heq, hp⟩ | heq | ⟨lblk, heq⟩ | heq <;> cases heq
    exact hp
  · have hset : setMapping k pblk ∈ setMappings fork first pblks :=
      mem_setMappings.mpr ⟨k, pblk, rfl, h⟩
    simp [hb, hset]
  · cases c with
    | logical =>
      exact ⟨.bumpLogical fork (first + pblks.length) .record, by simp [hb], le_rfl⟩
    | nextFree =>
      exact ⟨.bumpNextFree fork (maxPblk pblks + 1), by simp [hb], le_rfl⟩
  · intro j hj
    rcases hmem j hj with ⟨st, rfl⟩ | ⟨k, p, rfl, -⟩ | rfl | ⟨lblk, rfl⟩ | rfl
    · refine ⟨fun c fork' => by cases c <;> exact zero_le _, fun fork' => ?_⟩
      cases st <;> simp [capacityBump, Record.bump]
    · exact .setMapping
    · exact ⟨fun c fork' => by cases c <;> simp [bump, Record.bump], fun _ => zero_le _⟩
    · exact .release
    · exact ⟨fun c fork' => by cases c <;> simp [bump, Record.bump], fun _ => zero_le _⟩
  · have hend : ForallSuffix (OwnedBy claims b)
        [.bumpLogical fork (first + pblks.length) .record, .delayEnd] := ⟨trivial, trivial, trivial⟩
    have hno : ∀ j ∈ [bumpLogical fork (first + pblks.length) .record, .delayEnd],
        ∀ k, ¬ j.Mentions k := by
      simp [Instr.Mentions]
    have hrel := owned_releases hno hown hend
    have hset : ∀ t, ForallSuffix (fun i l => OwnedBy claims b i (l ++ t))
        (setMappings fork first pblks) := by
      intro t
      refine .of_forall_mem fun i hi l => ?_
      obtain ⟨k, p, rfl, hp⟩ := mem_setMappings.mp hi
      exact hown k p hp
    have hbody : body ++ [.delayEnd] = .bumpCapacity fork (maxPblk pblks + 1) .invalid ::
        (setMappings fork first pblks ++ .bumpNextFree fork (maxPblk pblks + 1) ::
          .bumpCapacity fork (maxPblk pblks + 1) .record :: (releases fork first pblks ++
            [.bumpLogical fork (first + pblks.length) .record, .delayEnd])) := by
      simp [hb]
    rw [hbody]
    exact ⟨trivial, forallSuffix_append.mpr ⟨hset _, trivial, trivial, hrel⟩⟩

/-! ### Relocation, truncation and births -/

lemma progOk_relocate {old new} (hown : Owns claims b k new) :
    ProgOk claims b d (mapCompactorRelocateEntry k old new) := by
  refine ProgOk.publish ?_ rfl ⟨trivial, ?_, ?_⟩ ⟨?_, ?_⟩ ?_ ?_
  · simp [isBarrier]
  · intro k' pblk h
    obtain ⟨rfl, rfl⟩ := guard_eq_some h
    simp [isPlain]
  · intro c fork
    cases c with
    | logical => exact .inl rfl
    | nextFree =>
      refine .inr (.inl ⟨.bumpNextFree k.1 (new + 1), ?_, le_rfl⟩)
      simp [isPlain]
  · intro k' pblk h
    simp at h
    simp [Record.newPblk, h]
  · intro j hj
    simp only [armed_cons, armed_nil, isBarrier, Bool.false_eq_true, if_false, mem_cons,
      not_mem_nil, or_false] at hj
    rcases hj with rfl | rfl | rfl | rfl | rfl
    · exact .setMapping
    · exact ⟨fun c fork => by cases c <;> simp [bump, Record.bump], fun _ => zero_le _⟩
    · exact ⟨fun c fork => by cases c <;> exact zero_le _, fun fork => le_rfl⟩
    · exact .delayEnd
    · exact .release
  · intro k' pblk h
    obtain ⟨rfl, rfl⟩ := guard_eq_some h
    exact hown
  · refine ⟨hown, trivial, trivial, trivial, ⟨⟨new, hown⟩, ?_⟩, trivial⟩
    simp

lemma mem_umtruncateTail {oldNblocks nblocks lsn}
    (h : i ∈ umtruncateTail fork oldNblocks nblocks lsn) :
    (∃ k, i = .clearEntry k lsn) ∨ i = .setLogical fork nblocks lsn := by
  rcases mem_append.mp h with h | h
  · obtain ⟨lblk, -, rfl⟩ := mem_map.mp h
    exact .inl ⟨_, rfl⟩
  · exact .inr (mem_singleton.mp h)

lemma isPlain_of_mem_umtruncateTail {oldNblocks nblocks lsn}
    (h : i ∈ umtruncateTail fork oldNblocks nblocks lsn) : i.isPlain = true := by
  obtain ⟨k, rfl⟩ | rfl := mem_umtruncateTail h <;> rfl

lemma progOk_truncate {nblocks} : ProgOk claims b d (relationTruncate fork nblocks) := by
  refine ProgOk.publish_plain (r := .smgrTruncate fork nblocks)
    (l := [.umtruncate fork nblocks]) (by simp [isPlain]) trivial
    (by simp [Record.newPblk]) (fun _ _ => .inl rfl) ?_ nofun ⟨trivial, trivial, trivial⟩
  intro j hj
  rw [mem_singleton.mp hj]
  exact .of_eq_zero (fun c _ => by cases c <;> rfl) fun _ => rfl

lemma progOk_umextend : ProgOk claims b false (umextend k) where
  delay := ⟨rfl, rfl⟩
  covers := ⟨trivial, trivial⟩
  sound := ⟨⟨by simp, by simp⟩, trivial⟩
  owned := ⟨by simp [OwnedBy], trivial⟩

lemma progOk_births {last} (lblks : List Nat) (hlt : ∀ l ∈ lblks, l < last)
    (hlast : ∀ l, lblks.getLast? = some l → last = l + 1) :
    ProgOk claims b false (lblks.map (fun l => .birth (fork, l) false) ++
      [.bumpCapacityMax fork, .bumpLogical fork last .invalid]) := by
  induction lblks with
  | nil => exact ⟨rfl, ⟨trivial, trivial, trivial⟩, ⟨trivial, trivial, trivial⟩,
      ⟨trivial, trivial, trivial⟩⟩
  | cons l lblks ih =>
    have hl := hlt l mem_cons_self
    have htail := ih (fun l' h => hlt l' (mem_cons_of_mem _ h)) fun l' h => hlast l' <| by
      rw [getLast?_cons, h]
      rfl
    refine ⟨⟨rfl, htail.delay⟩, ⟨?_, htail.covers⟩, ⟨?_, htail.sound⟩, ⟨?_, htail.owned⟩⟩
    · refine ⟨.bumpLogical fork last .invalid, by simp, ?_⟩
      simpa [lateBump] using succ_le_of_lt hl
    · -- only the last birth has updates armed behind it
      cases lblks with
      | nil =>
        have hlast' := hlast l rfl
        refine ⟨fun k p h => ?_, fun j hj => ?_⟩
        · simp at h
        · change j ∈ armed [.bumpCapacityMax fork, .bumpLogical fork last .invalid] at hj
          simp only [armed_cons, armed_nil, isBarrier,
            Bool.false_eq_true, if_false, mem_cons, not_mem_nil, or_false] at hj
          rcases hj with rfl | rfl
          · exact ⟨fun _ => rfl, fun _ => rfl, fun _ => zero_le _, fun _ => rfl⟩
          · refine ⟨fun _ => rfl, fun _ => rfl, fun fork' => ?_, fun _ => rfl⟩
            by_cases hf : fork = fork'
            · simp [lateBump, hf, hlast']
            · simp [lateBump, hf]
      | cons => exact ⟨by simp [isBarrier], by simp [isBarrier]⟩
    · intro j hj k hk
      rcases mem_append.mp hj with hj | hj
      · obtain ⟨l', -, rfl⟩ := mem_map.mp hj
        exact hk
      · simp only [mem_cons, not_mem_nil, or_false] at hj
        rcases hj with rfl | rfl <;> exact hk

lemma progOk_umzeroextend : ProgOk claims b false (umzeroextend fork first count) := by
  have hmap : (List.range count).map (fun i => birth (fork, first + i) false)
      = ((List.range count).map (first + ·)).map fun l => birth (fork, l) false := by
    rw [map_map]
    rfl
  rw [umzeroextend, hmap]
  refine progOk_births _ ?_ ?_
  · intro l hl
    obtain ⟨i, hi, rfl⟩ := mem_map.mp hl
    have := mem_range.mp hi
    omega
  · intro l hl
    cases count with
    | zero => cases hl
    | succ =>
      rw [range_succ, map_append, map_singleton, getLast?_concat] at hl
      cases hl
      omega

variable {rest : List Instr}

lemma Instr.LateFor.within (h : j.LateFor k) : j.Within (.mapSet k none pblk) where
  bump
    | .logical, fork => by
      rw [h.logical]
      refine (h.late fork).trans ?_
      simp only [Record.bump, eq_comm (a := fork)]
      exact le_rfl
    | .nextFree, fork => h.nextFree fork ▸ Nat.zero_le _
  capacity fork := h.capacity fork ▸ zero_le _

/-- The birth of `umextend` raises the logical end itself. -/
lemma ProgOk.birth_of_extend (h : ProgOk claims b d (.birth k true :: rest)) :
    ProgOk claims b d (.birth k false :: .bumpLogical k.1 (k.2 + 1) .invalid ::
      .bumpCapacity k.1 (pblk + 1) .invalid :: rest) := by
  refine ⟨h.delay, ⟨⟨_, mem_cons_self, ?_⟩, trivial, trivial, h.covers.2⟩,
    ⟨⟨by simpa [isBarrier] using h.sound.1.1, ?_⟩, trivial, trivial, h.sound.2⟩,
    ⟨by simpa [OwnedBy, Mentions] using h.owned.1, trivial, trivial, h.owned.2⟩⟩
  · simp [lateBump]
  · simp only [armed_cons, isBarrier, Bool.false_eq_true, if_false, forall_mem_cons]
    refine ⟨⟨fun _ => rfl, fun _ => rfl, fun fork => ?_, fun _ => rfl⟩, ?_, h.sound.1.2⟩
    · simp only [lateBump, eq_comm (a := fork)]
      exact le_rfl
    · exact ⟨fun _ => rfl, fun _ => rfl, fun _ => zero_le _, fun _ => rfl⟩

lemma ProgOk.expandBirth (h : ProgOk claims b d (.birth k false :: rest))
    (hown : Owns claims b k pblk) : ProgOk claims b d (umPublishMappedBirth k pblk ++ rest) := by
  obtain ⟨rfl, hdelay⟩ := h.delay
  have harmed : ∀ {i}, i ∈ armed ([.setMapping k pblk, .bumpNextFree k.1 (pblk + 1), .delayEnd,
      .release k] ++ rest) ↔ i = .setMapping k pblk ∨ i = .bumpNextFree k.1 (pblk + 1) ∨
        i = .delayEnd ∨ i = .release k ∨ i ∈ armed rest := by
    simp [isBarrier]
  refine ⟨⟨rfl, hdelay⟩,
    ⟨trivial, ⟨trivial, ?_, ?_⟩, trivial, trivial, trivial, trivial, h.covers.2⟩,
    ⟨by simp [Sound, isBarrier], ⟨?_, ?_⟩, trivial, trivial, trivial, trivial, h.sound.2⟩,
    ⟨trivial, ?_, hown, trivial, trivial, ⟨⟨pblk, hown⟩, fun j hj => h.owned.1 j hj k⟩, h.owned.2⟩⟩
  · intro k' p hp
    obtain ⟨rfl, rfl⟩ := guard_eq_some hp
    simp [isPlain]
  · intro c fork
    cases c with
    | logical =>
      by_cases hf : k.1 = fork
      · subst hf
        obtain ⟨j, hj, hle⟩ := h.covers.1
        refine .inr (.inr ⟨rfl, j, ?_, ?_⟩)
        · exact mem_append_right [.setMapping k pblk, .bumpNextFree k.1 (pblk + 1), .delayEnd,
            .release k] hj
        · simpa [Record.bump] using hle
      · exact .inl (if_neg hf)
    | nextFree =>
      refine .inr (.inl ⟨.bumpNextFree k.1 (pblk + 1), ?_, le_rfl⟩)
      simp [isPlain]
  · intro k' p hp
    have hmem := harmed.mp hp
    simp only [setMapping.injEq, reduceCtorEq, false_or] at hmem
    rcases hmem with ⟨rfl, rfl⟩ | hp
    · simp [Record.newPblk]
    · exact absurd hp (h.sound.1.1 k' p)
  · intro j hj
    rcases harmed.mp hj with rfl | rfl | rfl | rfl | hj
    · exact .setMapping
    · exact ⟨fun c fork => by cases c <;> simp [bump, Record.bump], fun _ => zero_le _⟩
    · exact .delayEnd
    · exact .release
    · exact (h.sound.1.2 j hj).within
  · intro k' p hp
    obtain ⟨rfl, rfl⟩ := guard_eq_some hp
    exact hown

end Umbra
