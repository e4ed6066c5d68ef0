import Umbra.Map.MaterializeSafety

/-!
# Materialization beside writers

One backend materializes blocks while others reserve, publish, zero and write them. The materializer
looks whether a block exists and zeroes it if not, in two steps, and a writer records the new
capacity only after its page is written.
-/

namespace Umbra.MaterializeRace

open Foundation Materialize Function

inductive Stage
  | free
  | reserved (b : ℕ)
  /-- Published for a new logical block whose page the backend is still creating; nobody else
  reaches the logical block before that. -/
  | birth (b : ℕ)
  | filled (b : ℕ)
  | live
  deriving DecidableEq

inductive Pc
  | idle
  | scan (desired blk : ℕ)
  | zero (desired blk : ℕ)
  deriving DecidableEq

def Pc.aim : Pc → Option ℕ
  | .zero _ blk => some blk
  | _ => none

structure State where
  files : Files
  ctx : Context
  page : ℕ → Bool
  stage : ℕ → Stage
  nextFree : ℕ
  capacity : ℕ
  pc : Pc

namespace State

def putPage (s : State) (p : ℕ) : State :=
  { s with files := s.files.zero p, page := update s.page p true }

def putZeros (s : State) (p : ℕ) : State :=
  { s with files := s.files.zero p, page := update s.page p false }

def setStage (s : State) (p : ℕ) (g : Stage) : State :=
  { s with stage := update s.stage p g }

end State

def Stage.fill : Stage → Stage
  | .reserved b => .filled b
  | _ => .live

def Stage.ownedBy (b : ℕ) : Stage → Bool
  | .reserved b' | .birth b' => b = b'
  | _ => false

inductive Event
  | reserve (b : ℕ)
  | publishBirth (b p : ℕ)
  | publish (b p : ℕ)
  | zeroExtend (b p : ℕ)
  | extend (b p : ℕ)
  | write (b p : ℕ)
  | bump (p : ℕ)
  | openseg (seg : ℕ)
  | close
  | start (target : ℕ)
  | probe (error : Bool)
  | zero (error : Bool)
  | settle (target : ℕ)
  deriving DecidableEq

def step (s : State) : Event → Option State
  | .reserve b => some { s.setStage s.nextFree (.reserved b) with nextFree := s.nextFree + 1 }
  | .publishBirth b p => if s.stage p = .reserved b then some (s.setStage p (.birth b)) else none
  | .publish b p =>
    if s.stage p = .reserved b ∨ s.stage p = .filled b then some (s.setStage p .live) else none
  | .zeroExtend b p =>
    if (s.stage p).ownedBy b then some ((s.putZeros p).setStage p (s.stage p).fill) else none
  | .extend b p =>
    if (s.stage p).ownedBy b then some ((s.putPage p).setStage p (s.stage p).fill) else none
  | .write _ p => if s.stage p = .live then some (s.putPage p) else none
  | .bump p =>
    if s.files.present p then some { s with capacity := max s.capacity (p + 1) } else none
  | .openseg seg =>
    if s.files seg = none then none else some { s with ctx := s.ctx.getseg seg }
  | .close => some { s with ctx := ⟨0, fun _ => false⟩ }
  | .start target =>
    match s.pc with
    | .idle => if s.capacity < target then some { s with pc := .scan target s.capacity } else some s
    | _ => none
  | .probe error =>
    match s.pc with
    | .scan desired blk =>
      if blk < desired then
        if error then
          some { s with pc := .idle }
        else
          let found := blockExists s.files s.ctx blk
          some { s with
            ctx := found.2
            pc := if found.1 then .scan desired (blk + 1) else .zero desired blk }
      else none
    | _ => none
  | .zero error =>
    match s.pc with
    | .zero desired blk =>
      if error then
        some { s with pc := .idle }
      else
        some { s.putZeros blk with
          ctx := s.ctx.getseg (blk / relsegSize)
          pc := .scan desired (blk + 1) }
    | _ => none
  | .settle target =>
    match s.pc with
    | .scan desired blk =>
      if blk < desired then none
      else
        let current := max s.capacity desired
        let desired := max desired target
        some { s with
          capacity := current
          pc := if desired ≤ current then .idle else .scan desired current }
    | _ => none

def writers : System State Event where
  step := step

/-- No page is written to a block that the materializer is about to zero, and the materializer knows
the segment of a block that exists when it looks for the block. -/
def Ordered (s : State) : Event → Prop
  | .extend _ p | .write _ p => s.pc.aim ≠ some p
  | .probe _ =>
    match s.pc with
    | .scan _ blk =>
      s.files.present blk = true → blk / relsegSize < s.ctx.numOpenSegs →
        s.ctx.isOpen (blk / relsegSize) = true
    | _ => True
  | _ => True

instance (s : State) (e : Event) : Decidable (Ordered s e) := by
  unfold Ordered
  split
  · infer_instance
  · infer_instance
  · split <;> infer_instance
  · infer_instance

/-! ### Pages are kept -/

/-- A page that is written is on disk, and no such page is about to be zeroed. -/
structure Inv (s : State) : Prop where
  present : ∀ p, s.page p = true → s.files.present p = true
  published : ∀ p, s.page p = true → s.stage p = .live ∨ ∃ b, s.stage p = .filled b
  fresh : ∀ p, s.nextFree ≤ p → s.stage p = .free
  aimed : ∀ desired blk, s.pc = .zero desired blk → s.page blk = false

variable {s t : State} {b p : ℕ}

lemma Stage.fill_eq (g : Stage) : g.fill = .live ∨ ∃ b, g.fill = .filled b := by
  cases g with
  | reserved b => exact .inr ⟨b, rfl⟩
  | free | birth | filled | live => exact .inl rfl

namespace Inv

lemma setStage (h : Inv s) {g} (hnext : p < s.nextFree)
    (hg : s.page p = true → g = .live ∨ ∃ b, g = .filled b) : Inv (s.setStage p g) where
  present := h.present
  published q hq := by
    change update s.stage p g q = _ ∨ ∃ b, update s.stage p g q = _
    rw [update_apply]
    split
    · rename_i hqp
      exact hg (hqp ▸ hq)
    · exact h.published q hq
  fresh q hq := (update_of_ne (ne_of_gt (lt_of_lt_of_le hnext hq)) ..).trans (h.fresh q hq)
  aimed := h.aimed

lemma lt_nextFree (h : Inv s) (hp : s.stage p ≠ .free) : p < s.nextFree := by
  by_contra hle
  exact hp (h.fresh p (le_of_not_gt hle))

lemma page_eq_false (h : Inv s) (hp : (s.stage p).ownedBy b = true) : s.page p = false := by
  by_contra hpage
  rcases h.published p (Bool.not_eq_false _ ▸ hpage) with hs | ⟨b', hs⟩ <;> rw [hs] at hp <;>
    cases hp

lemma stage_ne_free (hp : (s.stage p).ownedBy b = true) : s.stage p ≠ .free := by
  intro hs
  rw [hs] at hp
  cases hp

lemma putZeros (h : Inv s) (hp : s.page p = false) :
    Inv (s.putZeros p) ∧ (s.putZeros p).page = s.page := by
  have hpage : update s.page p false = s.page := by
    rw [← hp]
    exact update_eq_self p s.page
  refine ⟨⟨fun q hq => ?_, fun q hq => ?_, h.fresh, fun d blk hpc => ?_⟩, hpage⟩
  · exact Files.present_zero (h.present q (hpage ▸ hq))
  · exact h.published q (hpage ▸ hq)
  · exact (congrFun hpage blk).trans (h.aimed d blk hpc)

lemma putPage (h : Inv s) (hpc : s.pc.aim ≠ some p)
    (hp : s.stage p = .live ∨ ∃ b, s.stage p = .filled b) : Inv (s.putPage p) := by
  refine ⟨fun q hq => ?_, fun q hq => ?_, h.fresh, fun d blk hd => ?_⟩
  · by_cases hqp : q = p
    · rw [hqp]
      exact Files.present_zero_self
    · exact Files.present_zero (h.present q ((update_of_ne hqp ..).symm.trans hq))
  · by_cases hqp : q = p
    · rw [hqp]
      exact hp
    · exact h.published q ((update_of_ne hqp ..).symm.trans hq)
  · have hne : blk ≠ p := by
      rintro rfl
      exact hpc (congrArg Pc.aim hd)
    exact (update_of_ne hne ..).trans (h.aimed d blk hd)

end Inv

lemma blockExists_of_present {f c blk} (h : f.present blk = true)
    (hknown : blk / relsegSize < c.numOpenSegs → c.isOpen (blk / relsegSize) = true) :
    (blockExists f c blk).1 = true := by
  obtain ⟨n, hn, _⟩ := Files.present_iff.mp h
  simp only [blockExists, hn]
  split
  · rename_i hlt
    rw [hknown hlt, h]
    rfl
  · exact h

lemma page_putPage {q} (hq : s.page q = true) : (s.putPage p).page q = true := by
  by_cases hqp : q = p
  · rw [hqp]
    exact update_self ..
  · exact (update_of_ne hqp ..).trans hq

lemma Inv.step (h : Inv s) {e} (hok : Ordered s e) (hstep : writers.step s e = some t) :
    Inv t ∧ ∀ p, s.page p = true → t.page p = true := by
  change MaterializeRace.step s e = some t at hstep
  cases e with
  | reserve b =>
    cases hstep
    refine ⟨⟨h.present, fun q hq => ?_, fun q hq => ?_, h.aimed⟩, fun _ hp => hp⟩
    · have hne : q ≠ s.nextFree := by
        rintro rfl
        rcases h.published _ hq with hs | ⟨b', hs⟩ <;> cases hs.symm.trans (h.fresh _ le_rfl)
      have hstage : (s.setStage s.nextFree (.reserved b)).stage q = s.stage q :=
        update_of_ne hne ..
      rw [hstage]
      exact h.published q hq
    · exact (update_of_ne (ne_of_gt hq) ..).trans (h.fresh q (Nat.le_of_succ_le hq))
  | publishBirth b p =>
    obtain ⟨hs, rfl⟩ := guard_eq_some hstep
    have hown : (s.stage p).ownedBy b = true := by simp [hs, Stage.ownedBy]
    refine ⟨h.setStage (h.lt_nextFree (stage_ne_free hown)) fun hp => ?_, fun _ hp => hp⟩
    cases (h.page_eq_false hown).symm.trans hp
  | publish b p =>
    obtain ⟨hs, rfl⟩ := guard_eq_some hstep
    have hne : s.stage p ≠ .free := by rcases hs with hs | hs <;> rw [hs] <;> exact nofun
    exact ⟨h.setStage (h.lt_nextFree hne) fun _ => .inl rfl, fun _ hp => hp⟩
  | zeroExtend =>
    obtain ⟨hown, rfl⟩ := guard_eq_some hstep
    obtain ⟨h', hpage⟩ := h.putZeros (h.page_eq_false hown)
    refine ⟨h'.setStage (h.lt_nextFree (stage_ne_free hown)) fun _ => Stage.fill_eq _, ?_⟩
    exact fun q hq => (congrFun hpage q).trans hq
  | extend b p =>
    obtain ⟨hown, rfl⟩ := guard_eq_some hstep
    have h' : Inv (s.setStage p (s.stage p).fill) :=
      h.setStage (h.lt_nextFree (stage_ne_free hown)) fun _ => Stage.fill_eq _
    refine ⟨h'.putPage hok ?_, fun q hq => page_putPage hq⟩
    have hstage : (s.setStage p (s.stage p).fill).stage p = (s.stage p).fill :=
      update_self ..
    rw [hstage]
    exact Stage.fill_eq _
  | write =>
    obtain ⟨hs, rfl⟩ := guard_eq_some hstep
    exact ⟨h.putPage hok (.inl hs), fun q hq => page_putPage hq⟩
  | bump =>
    obtain ⟨_, rfl⟩ := guard_eq_some hstep
    exact ⟨{ h with }, fun _ hp => hp⟩
  | openseg =>
    simp only [MaterializeRace.step, Option.ite_none_left_eq_some, Option.some.injEq] at hstep
    obtain ⟨_, rfl⟩ := hstep
    exact ⟨{ h with }, fun _ hp => hp⟩
  | close =>
    cases hstep
    exact ⟨{ h with }, fun _ hp => hp⟩
  | start =>
    simp only [MaterializeRace.step] at hstep
    split at hstep
    · split at hstep <;> cases hstep
      · exact ⟨{ h with aimed := nofun }, fun _ hp => hp⟩
      · exact ⟨h, fun _ hp => hp⟩
    · cases hstep
  | probe =>
    simp only [MaterializeRace.step] at hstep
    split at hstep
    · rename_i desired blk hpc
      split at hstep
      · split at hstep <;> cases hstep
        · exact ⟨{ h with aimed := nofun }, fun _ hp => hp⟩
        · refine ⟨{ h with aimed := fun d k hk => ?_ }, fun _ hp => hp⟩
          dsimp only at hk
          split at hk
          · cases hk
          · rename_i hmissing
            cases hk
            by_contra hpage
            have hthere := h.present blk (Bool.not_eq_false _ ▸ hpage)
            have hknown : blk / relsegSize < s.ctx.numOpenSegs →
                s.ctx.isOpen (blk / relsegSize) = true := by
              simp only [Ordered, hpc] at hok
              exact hok hthere
            exact hmissing (blockExists_of_present hthere hknown)
      · cases hstep
    · cases hstep
  | zero =>
    simp only [MaterializeRace.step] at hstep
    split at hstep
    · rename_i desired blk hpc
      obtain ⟨h', hpage⟩ := h.putZeros (h.aimed desired blk hpc)
      split at hstep <;> cases hstep
      · exact ⟨{ h with aimed := nofun }, fun _ hp => hp⟩
      · exact ⟨{ h' with aimed := nofun }, fun q hq => (congrFun hpage q).trans hq⟩
    · cases hstep
  | settle =>
    simp only [MaterializeRace.step] at hstep
    split at hstep
    · split at hstep
      · cases hstep
      · cases hstep
        refine ⟨{ h with aimed := fun d k hk => ?_ }, fun _ hp => hp⟩
        dsimp only at hk
        split at hk <;> cases hk
    · cases hstep

/-- The materializer is idle, and the blocks that hold a page are there and in use. -/
structure Start (s : State) : Prop where
  idle : s.pc = .idle
  present : ∀ p, s.page p = true → s.files.present p = true
  published : ∀ p, s.page p = true → s.stage p = .live
  fresh : ∀ p, s.nextFree ≤ p → s.stage p = .free

lemma Inv.of_reaches {s₀} (h₀ : Start s₀) (h : writers.Reaches Ordered s₀ s) : Inv s := by
  refine System.Reaches.invariant h ⟨h₀.present, fun p hp => .inl (h₀.published p hp), h₀.fresh, ?_⟩
    fun hinv hok hstep => (hinv.step hok hstep).1
  rw [h₀.idle]
  exact nofun

/-- A page stays as long as nobody writes it between the look of the materializer and its zeros, and
the materializer knows the segments of the existing blocks it looks for. -/
theorem pages_kept {s₀ : State} (h₀ : Start s₀) (hs : writers.Reaches Ordered s₀ s)
    (ht : writers.Reaches Ordered s t) (p : ℕ) (hp : s.page p = true) : t.page p = true := by
  induction ht with
  | refl => exact hp
  | tail ht hok hstep ih => exact ((Inv.of_reaches h₀ (hs.trans ht)).step hok hstep).2 p ih

def emptyFork : State where
  files _ := none
  ctx := ⟨0, fun _ => false⟩
  page _ := false
  stage _ := .free
  nextFree := 0
  capacity := 0
  pc := .idle

lemma emptyFork_start : Start emptyFork :=
  ⟨rfl, nofun, nofun, fun _ _ => rfl⟩

def pageFirst : List Event :=
  [.reserve 1, .publish 1 0, .write 1 0]

def thenMaterialize : List Event :=
  [.start 2, .probe false, .probe false, .zero false, .settle 2]

theorem pages_kept_emptyFork : let M := writers.restrict Ordered
    let s := M.after emptyFork pageFirst
    (M.run emptyFork pageFirst).isSome = true ∧ (M.run s thenMaterialize).isSome = true ∧
      s.page 0 = true ∧ (M.after s thenMaterialize).page 0 = true := by
  have hs : ((writers.restrict Ordered).run emptyFork pageFirst).isSome = true := by decide
  have ht : ((writers.restrict Ordered).run ((writers.restrict Ordered).after emptyFork pageFirst)
      thenMaterialize).isSome = true := by decide
  have hp : ((writers.restrict Ordered).after emptyFork pageFirst).page 0 = true := by decide
  exact ⟨hs, ht, hp, pages_kept emptyFork_start (.of_isSome hs) (.of_isSome ht) 0 hp⟩

/-- A page that is written between the look and the zeros is lost, and so is a page of a segment
that the materializer has passed over. -/
theorem page_overwritten_by_zeros :
    (writers.run emptyFork [.start 1, .probe false, .reserve 1, .publish 1 0, .write 1 0]).map
      (fun s => (s.page 0, s.stage 0)) = some (true, .live) ∧
    (writers.run emptyFork [.start 1, .probe false, .reserve 1, .publish 1 0, .write 1 0,
      .zero false]).map (fun s => (s.page 0, s.stage 0)) = some (false, .live) ∧
    let later : State := { emptyFork with
      files := update (fun _ => none) 1 (some 1)
      stage := fun p => if p < relsegSize + 1 then .live else .free
      nextFree := relsegSize + 1 }
    (writers.run later [.openseg 1, .write 1 0]).map (fun s => s.page 0) = some true ∧
    (writers.run later [.openseg 1, .write 1 0, .start 1, .probe false, .zero false]).map
      (fun s => s.page 0) = some false := by
  refine ⟨?_, ?_, ?_, ?_⟩ <;> decide

end Umbra.MaterializeRace
