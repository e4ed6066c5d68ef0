import Umbra.Foundation.System
import Umbra.Foundation.Tally

/-!
# Phases of a dynamic barrier

The operations of `barrier.c` on a barrier without a static party. A section under the spinlock is
one step, and so is a broadcast, which takes all processes off the list of the condition variable.
-/

namespace Umbra.BarrierPhases

open Foundation Function Nat

structure Barrier where
  participants : ℕ
  arrived : ℕ
  phase : ℕ
  elected : ℕ

def nextPhase (phase : ℕ) : ℕ := (phase + 1) % 2 ^ 32

namespace Barrier

variable (b : Barrier)

def attach : Barrier × ℕ := ({ b with participants := b.participants + 1 }, b.phase)

/-- The first section of `BarrierArriveAndWait`, with `release`. -/
def arrive : Barrier × Bool :=
  if b.arrived + 1 = b.participants then
    ({ b with arrived := 0, phase := nextPhase b.phase, elected := nextPhase b.phase }, true)
  else ({ b with arrived := b.arrived + 1 }, false)

/-- The section in the loop of `BarrierArriveAndWait`, with `release` and `elected`. -/
def check (startPhase : ℕ) : Barrier × Bool × Bool :=
  if b.phase = nextPhase startPhase then
    if b.elected = nextPhase startPhase then (b, true, false)
    else ({ b with elected := b.phase }, true, true)
  else (b, false, false)

def detachImpl (arrive : Bool) : Barrier × Bool × Bool :=
  let left := b.participants - 1
  if (arrive ∨ 0 < left) ∧ b.arrived = left then
    ({ b with participants := left, arrived := 0, phase := nextPhase b.phase }, true, left = 0)
  else ({ b with participants := left }, false, left = 0)

def arriveAndDetachExceptLast : Barrier × Bool :=
  if 1 < b.participants then ({ b with participants := b.participants - 1 }, false)
  else ({ b with phase := nextPhase b.phase }, true)

end Barrier

inductive Stage
  | prepare
  | check
  | asleep

/-- A participant, with the number of advances before its last arrival or before it was last able
to arrive. -/
inductive Pc
  | detached
  | attached (seen : ℕ)
  | waiting (start : ℕ) (stage : Stage)
  | broadcast (seen : Option ℕ)

@[simp] def Pc.next : Pc → Option ℕ
  | .detached => none
  | .attached seen => some seen
  | .waiting start _ => some (start + 1)
  | .broadcast seen => seen

@[simp] def Pc.attends : Pc → ℕ
  | .detached | .broadcast none => 0
  | _ => 1

@[simp] def Pc.arrivedIn (phase : ℕ) : Pc → ℕ
  | .waiting start _ => if start = phase then 1 else 0
  | _ => 0

structure State (ι : Type*) where
  barrier : Barrier
  pcs : ι → Pc
  listed : ι → Bool
  advances : ℕ
  /-- The phases of the calls of `BarrierArriveAndWait` that return, with their results. -/
  answers : List (ℕ × Bool)
  lasts : List (ℕ × Bool)
  others : List ℕ
  /-- `BarrierArriveAndDetachExceptLast` was called while a participant waited for its phase. -/
  mixed : Bool

inductive Op
  | attach
  | arrive
  | prepare
  | check
  | wake
  | broadcast
  | detach (arrive : Bool)
  | exceptLast

variable {ι : Type*} [DecidableEq ι] {listed : ι → Bool}

namespace State

variable (s : State ι)

def arrive (p : ι) : State ι :=
  let others := s.advances :: s.others
  match s.barrier.arrive with
  | (b, true) => { s with
      barrier := b
      pcs := update s.pcs p (.broadcast (some (s.advances + 1)))
      advances := s.advances + 1
      answers := (s.advances, true) :: s.answers
      others := others }
  | (b, false) => { s with
      barrier := b
      pcs := update s.pcs p (.waiting s.advances .prepare)
      others := others }

def check (p : ι) (start : ℕ) : State ι :=
  match s.barrier.check (start % 2 ^ 32) with
  | (b, true, elected) => { s with
      barrier := b
      pcs := update s.pcs p (.attached s.advances)
      listed := update s.listed p false
      answers := (start, elected) :: s.answers }
  | (_, false, _) => { s with pcs := update s.pcs p (.waiting start .asleep) }

def detach (p : ι) (arrive : Bool) : State ι :=
  let others := s.advances :: s.others
  match s.barrier.detachImpl arrive with
  | (b, true, _) => { s with
      barrier := b
      pcs := update s.pcs p (.broadcast none)
      advances := s.advances + 1
      others := others }
  | (b, false, _) => { s with barrier := b, pcs := update s.pcs p .detached, others := others }

def exceptLast (p : ι) : State ι :=
  let mixed := s.mixed || 0 < s.barrier.arrived
  match s.barrier.arriveAndDetachExceptLast with
  | (b, true) => { s with
      barrier := b
      pcs := update s.pcs p (.attached (s.advances + 1))
      advances := s.advances + 1
      lasts := (s.advances, true) :: s.lasts
      mixed := mixed }
  | (b, false) => { s with
      barrier := b
      pcs := update s.pcs p .detached
      lasts := (s.advances, false) :: s.lasts
      mixed := mixed }

def step : ι × Op → Option (State ι)
  | (p, op) => match op, s.pcs p with
    | .attach, .detached => some { s with
        barrier := s.barrier.attach.1
        pcs := update s.pcs p (.attached s.advances) }
    | .arrive, .attached _ => some (s.arrive p)
    | .prepare, .waiting start .prepare => some { s with
        pcs := update s.pcs p (.waiting start .check)
        listed := update s.listed p true }
    | .check, .waiting start .check => some (s.check p start)
    | .wake, .waiting start .asleep =>
      if s.listed p then none
      else some { s with
        pcs := update s.pcs p (.waiting start .check)
        listed := update s.listed p true }
    | .broadcast, .broadcast seen => some { s with
        pcs := update s.pcs p (seen.elim .detached .attached)
        listed := fun _ => false }
    | .detach arrive, .attached _ => some (s.detach p arrive)
    | .exceptLast, .attached _ => some (s.exceptLast p)
    | _, _ => none

end State

def machine (ι : Type*) [DecidableEq ι] : System (State ι) (ι × Op) := ⟨State.step⟩

/-- A barrier that `BarrierInit` has set up. -/
def init : State ι where
  barrier := ⟨0, 0, 0, 0⟩
  pcs _ := .detached
  listed _ := false
  advances := 0
  answers := []
  lasts := []
  others := []
  mixed := false

@[simp] def Pc.Fits (n : ℕ) : Pc → Prop
  | .waiting start _ => n = start ∨ n = start + 1
  | pc => ∀ seen ∈ pc.next, seen = n

/-- The counters are those of the processes attached and arrived. -/
structure Counts [Fintype ι] (b : Barrier) (pcs : ι → Pc) (n : ℕ) : Prop where
  participants : b.participants = ∑ q, (pcs q).attends
  arrived : b.arrived = ∑ q, (pcs q).arrivedIn n
  phase : b.phase = n % 2 ^ 32
  fits : ∀ q, (pcs q).Fits n

lemma Pc.arrivedIn_le (pc : Pc) (n : ℕ) : pc.arrivedIn n ≤ pc.attends := by
  rcases pc with _ | _ | _ | (_ | _) <;> simp
  split <;> simp

lemma Pc.fits_succ {pc : Pc} {n : ℕ} (h : pc.arrivedIn n = pc.attends) :
    pc.Fits (n + 1) ∧ pc.arrivedIn (n + 1) = 0 := by
  rcases pc with _ | _ | _ | (_ | _) <;> simp at h ⊢
  omega

namespace Counts

variable [Fintype ι] {b b' : Barrier} {pcs : ι → Pc} {n seen : ℕ} {p : ι}

variable (h : Counts b pcs n)
include h

lemma set (pc) (hfits : pc.Fits n)
    (hparticipants : b'.participants + (pcs p).attends = b.participants + pc.attends)
    (harrived : b'.arrived + (pcs p).arrivedIn n = b.arrived + pc.arrivedIn n)
    (hphase : b'.phase = b.phase) : Counts b' (update pcs p pc) n where
  participants := by
    have hsum := sum_update_add Pc.attends pcs p pc
    have := h.participants
    omega
  arrived := by
    have hsum := sum_update_add (Pc.arrivedIn n) pcs p pc
    have := h.arrived
    omega
  phase := hphase.trans h.phase
  fits q := by
    rcases eq_or_ne q p with rfl | hq
    · simpa using hfits
    · simpa [hq] using h.fits q

variable (hpc : pcs p = .attached seen)
include hpc

lemma detach :
    0 < b.participants ∧
      Counts { b with participants := b.participants - 1 } (update pcs p .detached) n := by
  have hpos := le_sum Pc.attends pcs p
  rw [hpc, ← h.participants] at hpos
  exact ⟨hpos, h.set _ (by simp) (by simpa [hpc] using Nat.sub_add_cancel hpos) (by simp [hpc]) rfl⟩

lemma arrived_lt : b.arrived < b.participants := by
  obtain ⟨hpos, hd⟩ := h.detach hpc
  have hle := Finset.sum_le_sum fun q (_ : q ∈ Finset.univ) =>
    (update pcs p .detached q).arrivedIn_le n
  simp only [← hd.arrived, ← hd.participants] at hle
  omega

lemma advance (hall : b.participants = b.arrived + 1) (pc) (hfits : pc.Fits (n + 1))
    (hwait : ∀ m, pc.arrivedIn m = 0) (hparticipants : b'.participants = b.arrived + pc.attends)
    (harrived : b'.arrived = 0) (hphase : b'.phase = nextPhase b.phase) :
    Counts b' (update pcs p pc) (n + 1) := by
  have hd := (h.detach hpc).2
  have heq : ∀ q, (update pcs p .detached q).arrivedIn n = (update pcs p .detached q).attends := by
    refine fun q => (Finset.sum_eq_sum_iff_of_le fun q _ => Pc.arrivedIn_le _ n).mp ?_ q
      (Finset.mem_univ q)
    rw [← hd.arrived, ← hd.participants]
    exact (Nat.sub_eq_of_eq_add hall).symm
  have hnext : ∀ q, (update pcs p pc q).Fits (n + 1) ∧
      (update pcs p pc q).arrivedIn (n + 1) = 0 := by
    intro q
    rcases eq_or_ne q p with rfl | hq
    · rw [update_self]
      exact ⟨hfits, hwait _⟩
    · exact Pc.fits_succ (by simpa [hq] using heq q)
  refine ⟨?_, ?_, by simp [hphase, h.phase, nextPhase], fun q => (hnext q).1⟩
  · have hsum := sum_update_add Pc.attends pcs p pc
    rw [hpc, ← h.participants] at hsum
    change _ + 1 = _ at hsum
    omega
  · rw [harrived, Finset.sum_eq_zero fun q _ => (hnext q).2]

end Counts

/-- The results of `BarrierArriveAndWait`: once a call of a phase returns, one returns true. -/
structure Elected (elected n : ℕ) (answers : List (ℕ × Bool)) : Prop where
  le : elected ≤ n
  one : ∀ {k b}, (k, b) ∈ answers → answers.count (k, true) = 1
  fresh : ∀ {k b}, (k, b) ∈ answers → n = k + 1 → elected = n
  voted : ∀ {k}, elected = k + 1 → answers.count (k, true) = 1

namespace Elected

variable {e n k : ℕ} {answers : List (ℕ × Bool)}

lemma advance (h : Elected e n answers) (hlt : ∀ {k b}, (k, b) ∈ answers → k < n) :
    Elected e (n + 1) answers where
  le := h.le.trans (le_succ n)
  one := h.one
  fresh hk hn := absurd (hlt hk) (by omega)
  voted := h.voted

lemma elect (h : Elected e n answers) (hnew : ∀ b, (k, b) ∉ answers) :
    Elected (k + 1) (k + 1) ((k, true) :: answers) := by
  constructor <;> grind [h.one]

lemma again (h : Elected (k + 1) n answers) : Elected (k + 1) n ((k, false) :: answers) := by
  constructor <;> grind [h.le, h.one, h.fresh, h.voted]

end Elected

/-- One caller of `BarrierArriveAndDetachExceptLast` at most is the last of a phase. -/
structure Last (participants n : ℕ) (lasts : List (ℕ × Bool)) (others : List ℕ) : Prop where
  le : ∀ {k b}, (k, b) ∈ lasts → k ≤ n
  lt : ∀ {k}, (k, true) ∈ lasts → k < n
  one : ∀ k, lasts.count (k, true) ≤ 1
  ended : ∀ {k}, k < n → k ∉ others → (k, true) ∈ lasts
  goes_on : ∀ {b}, (n, b) ∈ lasts → n ∉ others → 0 < participants

namespace Last

variable {c c' n : ℕ} {lasts : List (ℕ × Bool)} {others : List ℕ}

lemma other (h : Last c n lasts others) (released : Bool) :
    Last c' (n + released.toNat) lasts (n :: others) := by
  obtain ⟨hle, hlt, hone, hended, -⟩ := h
  cases released <;> constructor <;> grind

lemma call (h : Last c n lasts others) (last) (hc : 0 < c') :
    Last c' (n + last.toNat) ((n, last) :: lasts) others := by
  obtain ⟨hle, hlt, hone, hended, -⟩ := h
  cases last <;> constructor <;> grind

end Last

def Woken (pcs : ι → Pc) (listed : ι → Bool) (n : ℕ) : Prop :=
  ∀ p k, pcs p = .waiting k .asleep → listed p = true → n = k + 1 →
    ∃ q seen, pcs q = .broadcast seen

lemma Woken.set {pcs listed' n} (h : Woken pcs listed n) (p pc)
    (hp : ∀ seen, pcs p ≠ .broadcast seen) (hpc : ∀ k, pc = .waiting k .asleep → n ≠ k + 1)
    (hlisted : ∀ q, q ≠ p → listed' q = listed q) : Woken (update pcs p pc) listed' n := by
  intro q k hq hl hn
  rcases eq_or_ne q p with rfl | hne
  · exact absurd hn (hpc k (by simpa using hq))
  · obtain ⟨r, seen, hr⟩ := h q k (by simpa [hne] using hq) ((hlisted q hne).symm.trans hl) hn
    refine ⟨r, seen, ?_⟩
    rwa [update_of_ne (by rintro rfl; exact hp seen hr)]

structure Inv [Fintype ι] (s : State ι) : Prop where
  counts : Counts s.barrier s.pcs s.advances
  woken : Woken s.pcs s.listed s.advances
  answered : ∀ {k b}, (k, b) ∈ s.answers → k < s.advances
  elected : s.advances < 2 ^ 32 → Elected s.barrier.elected s.advances s.answers
  last : Last s.barrier.participants s.advances s.lasts s.others
  moving : s.mixed = false → 0 < s.barrier.arrived → s.barrier.arrived < s.barrier.participants

namespace Inv

variable [Fintype ι] {s t : State ι} {p : ι} {seen start : ℕ} {stage : Stage}

section

variable (h : Inv s)
include h

omit [DecidableEq ι] in
lemma of_waiting (hpc : s.pcs p = .waiting start stage) :
    s.advances = start ∨ s.advances = start + 1 := by
  simpa [hpc] using h.counts.fits p

omit [DecidableEq ι] in
lemma advances_le {n} (hn : (s.pcs p).next = some n) : s.advances ≤ n := by
  have hfits := h.counts.fits p
  cases hpc : s.pcs p <;> simp_all
  omega

lemma attach (hpc : s.pcs p = .detached) :
    Inv { s with barrier := s.barrier.attach.1, pcs := update s.pcs p (.attached s.advances) } where
  counts := h.counts.set _ (by simp) (by simp [hpc, Barrier.attach])
    (by simp [hpc, Barrier.attach]) rfl
  woken := h.woken.set p _ (by simp [hpc]) (by simp) fun _ _ => rfl
  last := ⟨h.last.le, h.last.lt, h.last.one, h.last.ended, fun _ _ => succ_pos _⟩
  moving hm h0 := (h.moving hm h0).trans (lt_succ_self _)
  __ := h

lemma arrive (hpc : s.pcs p = .attached seen) : Inv (s.arrive p) := by
  have hlt := h.counts.arrived_lt hpc
  simp only [State.arrive, Barrier.arrive]
  split_ifs with hall
  · refine ⟨h.counts.advance hpc hall.symm _ ?_ ?_ ?_ rfl rfl, ?_, ?_, ?_, h.last.other true, ?_⟩
    · simp
    · simp
    · simp [hall]
    · exact fun _ _ _ _ _ => ⟨p, _, update_self ..⟩
    · intro k b hk
      have := @h.answered k b
      grind
    · intro hn
      have hnext : nextPhase s.barrier.phase = s.advances + 1 := by
        grind [nextPhase, h.counts.phase]
      simpa only [hnext] using
        (h.elected (lt_of_succ_lt hn)).elect fun b hb => (h.answered hb).false
    · exact fun _ h0 => absurd h0 (lt_irrefl 0)
  · refine ⟨h.counts.set _ ?_ ?_ ?_ rfl, h.woken.set p _ ?_ ?_ fun _ _ => rfl, h.answered,
      h.elected,
      h.last.other false, ?_⟩
    · simp
    · simp [hpc]
    · simp [hpc]
    · simp [hpc]
    · simp
    · exact fun _ _ => lt_of_le_of_ne hlt hall

lemma turn {stage'} (hpc : s.pcs p = .waiting start stage)
    (hstage : stage' = .asleep → s.advances ≠ start + 1)
    (hlisted : ∀ q, q ≠ p → listed q = s.listed q) :
    Inv { s with pcs := update s.pcs p (.waiting start stage'), listed := listed } where
  counts := h.counts.set _ (by simpa [hpc] using h.counts.fits p) (by simp [hpc]) (by simp [hpc])
    rfl
  woken := h.woken.set p _ (by simp [hpc]) (by grind) hlisted
  __ := h

lemma answer (hpc : s.pcs p = .waiting start .check) (hn : s.advances = start + 1) {e b}
    (he : s.advances < 2 ^ 32 → Elected e s.advances ((start, b) :: s.answers)) :
    Inv { s with
      barrier := { s.barrier with elected := e }
      pcs := update s.pcs p (.attached s.advances)
      listed := update s.listed p false
      answers := (start, b) :: s.answers } where
  counts := h.counts.set _ (by simp) (by simp [hpc]) (by simp [hpc, hn]) rfl
  woken := h.woken.set p _ (by simp [hpc]) (by simp) fun q hq => update_of_ne hq ..
  answered {k b} hk := by
    have := @h.answered k b
    grind
  elected := he
  __ := h

lemma check (hpc : s.pcs p = .waiting start .check) : Inv (s.check p start) := by
  have hfits := h.of_waiting hpc
  have hphase := h.counts.phase
  have hrelease : s.barrier.phase = nextPhase (start % 2 ^ 32) ↔ s.advances = start + 1 := by
    grind [nextPhase]
  simp only [State.check, Barrier.check, hrelease]
  split_ifs with hn helected
  · refine h.answer hpc hn fun hlt => ?_
    have heq : s.barrier.elected = start + 1 := by grind [nextPhase]
    have hagain := h.elected hlt
    rw [heq] at hagain ⊢
    exact hagain.again
  · refine h.answer hpc hn fun hlt => ?_
    have hne : s.barrier.elected ≠ start + 1 := by grind [nextPhase]
    have heq : s.barrier.phase = start + 1 := by grind
    rw [heq, hn]
    exact (h.elected hlt).elect fun b hb => hne (((h.elected hlt).fresh hb hn).trans hn)
  · exact h.turn hpc (fun _ => hn) fun _ _ => rfl

lemma broadcast {seen} (hpc : s.pcs p = .broadcast seen) :
    Inv { s with
      pcs := update s.pcs p (seen.elim .detached .attached)
      listed := fun _ => false } where
  counts := by
    have hfits := h.counts.fits p
    cases seen <;> exact h.counts.set _ (by simp_all) (by simp [hpc]) (by simp [hpc]) rfl
  woken := fun _ _ _ hl => absurd hl (by simp)
  __ := h

section

variable (hpc : s.pcs p = .attached seen)
include hpc

lemma leave {lasts others mixed} (hlast : Last (s.barrier.participants - 1) s.advances lasts others)
    (hmoving : mixed = false → 0 < s.barrier.arrived → s.barrier.arrived < s.barrier.participants -
      1) :
    Inv { s with
      barrier := { s.barrier with participants := s.barrier.participants - 1 }
      pcs := update s.pcs p .detached
      lasts := lasts, others := others, mixed := mixed } where
  counts := (h.counts.detach hpc).2
  woken := h.woken.set p _ (by simp [hpc]) (by simp) fun _ _ => rfl
  last := hlast
  moving := hmoving
  __ := h

lemma detach (arrive) : Inv (s.detach p arrive) := by
  have hlt := h.counts.arrived_lt hpc
  simp only [State.detach, Barrier.detachImpl]
  split_ifs with hrelease
  · refine ⟨h.counts.advance hpc (by omega) _ ?_ ?_ ?_ rfl rfl, ?_, ?_, ?_, h.last.other true, ?_⟩
    · simp
    · simp
    · simp [hrelease.2]
    · exact fun _ _ _ _ _ => ⟨p, _, update_self ..⟩
    · exact fun hk => (h.answered hk).trans (lt_succ_self _)
    · exact fun hn => (h.elected (lt_of_succ_lt hn)).advance h.answered
    · exact fun _ h0 => absurd h0 (lt_irrefl 0)
  · refine h.leave hpc (h.last.other false) fun hm _ => ?_
    omega

lemma exceptLast : Inv (s.exceptLast p) := by
  have hlt := h.counts.arrived_lt hpc
  simp only [State.exceptLast, Barrier.arriveAndDetachExceptLast]
  split_ifs with hmany
  · exact h.leave hpc (h.last.call false (by omega)) fun hm => by simp_all
  · have h0 : s.barrier.arrived = 0 := by omega
    refine ⟨h.counts.advance hpc (by omega) _ ?_ ?_ ?_ h0 rfl, ?_, ?_, ?_,
      h.last.call true (zero_lt_of_lt hlt), ?_⟩
    · simp
    · simp
    · simp
      omega
    · -- nobody waits for a phase that is left in this way, so that nobody has to be woken
      intro q k hq _ hk
      have hle := le_sum (Pc.arrivedIn s.advances) s.pcs q
      rw [← h.counts.arrived, h0] at hle
      grind [Pc.arrivedIn]
    · exact fun hk => (h.answered hk).trans (lt_succ_self _)
    · exact fun hn => (h.elected (lt_of_succ_lt hn)).advance h.answered
    · exact fun _ hpos => absurd h0 hpos.ne'

end

lemma step {e} (hstep : s.step e = some t) : Inv t := by
  simp only [State.step] at hstep
  split at hstep
  · cases hstep; exact h.attach ‹_›
  · cases hstep; exact h.arrive ‹_›
  · cases hstep; exact h.turn ‹_› (by simp) fun q hq => update_of_ne hq ..
  · cases hstep; exact h.check ‹_›
  · split_ifs at hstep
    cases hstep
    exact h.turn ‹_› (by simp) fun q hq => update_of_ne hq ..
  · cases hstep; exact h.broadcast ‹_›
  · cases hstep; exact h.detach ‹_› _
  · cases hstep; exact h.exceptLast ‹_›
  · cases hstep

end

lemma of_reachable (h : (machine ι).Reachable init s) : Inv s := by
  refine System.Reaches.invariant h ?_ fun h _ hstep => h.step hstep
  refine ⟨⟨?_, ?_, rfl, ?_⟩, ?_, ?_, fun _ => ?_, ?_, ?_⟩
  case refine_6 | refine_7 => constructor <;> simp [init]
  all_goals simp [init, Woken]

omit [DecidableEq ι] in
lemma advances_eq (h : Inv s) (hm : s.mixed = false) {k} (hpc : s.pcs p = .waiting k stage)
    (hall : ∀ q n, (s.pcs q).next = some n → k < n) : s.advances = k + 1 := by
  refine (h.of_waiting hpc).resolve_left fun hk => ?_
  have heq : ∀ q, (s.pcs q).attends = (s.pcs q).arrivedIn k := by
    intro q
    have hq := hall q
    have hfits := h.counts.fits q
    rcases hpc : s.pcs q with _ | seen | ⟨j, stage⟩ | (_ | seen) <;>
      simp [hpc] at hq hfits ⊢ <;> omega
  have hone : (s.pcs p).arrivedIn k = 1 := by simp [hpc]
  have hpos := le_sum (Pc.arrivedIn k) s.pcs p
  have hmoving := h.moving hm
  rw [h.counts.arrived, h.counts.participants, hk, Finset.sum_congr rfl fun q _ => heq q] at hmoving
  omega

end Inv

/-- Nobody returns before all who attended the phase have arrived or detached, phases advance by one
between arrivals, one call of a phase is elected, one is last if all leave in that way, and nobody
waits when nobody is missing. -/
theorem barrier_phases [Fintype ι] {s : State ι} (h : (machine ι).Reachable init s) :
    (∀ k b, (k, b) ∈ s.answers → ∀ q n, (s.pcs q).next = some n → k < n) ∧
    (∀ q seen, s.pcs q = .attached seen → s.advances = seen) ∧
    (∀ q k stage, s.pcs q = .waiting k stage → s.advances = k ∨ s.advances = k + 1) ∧
    (s.advances < 2 ^ 32 → ∀ k, s.answers.count (k, true) ≤ 1 ∧
      ((∃ b, (k, b) ∈ s.answers) → s.answers.count (k, true) = 1)) ∧
    (∀ k, s.lasts.count (k, true) ≤ 1 ∧ (k ∉ s.others →
      (k < s.advances → s.lasts.count (k, true) = 1) ∧
      (k = s.advances → (∃ b, (k, b) ∈ s.lasts) → 0 < s.barrier.participants))) ∧
    (s.mixed = false → ∀ p k stage, s.pcs p = .waiting k stage →
      (∀ q n, (s.pcs q).next = some n → k < n) → s.advances = k + 1 ∧
        (stage = .asleep → s.listed p = true → ∃ q seen, s.pcs q = .broadcast seen)) := by
  have h := Inv.of_reachable h
  refine ⟨fun k b hk q n hn => (h.answered hk).trans_le (h.advances_le hn), fun q seen hq => ?_,
    fun q k stage hq => h.of_waiting hq, fun hlt k => ⟨?_, fun ⟨b, hb⟩ => (h.elected hlt).one hb⟩,
    fun k => ⟨h.last.one k, fun hk => ⟨fun hlt => ?_, ?_⟩⟩, fun hm p k stage hpc hall => ?_⟩
  · have hfits := h.counts.fits q
    simp_all
  · by_contra hcount
    have hmem := List.count_pos_iff.mp (zero_lt_of_lt (not_le.mp hcount))
    exact hcount ((h.elected hlt).one hmem).le
  · exact le_antisymm (h.last.one k) (List.count_pos_iff.mpr (h.last.ended hlt hk))
  · rintro rfl ⟨b, hb⟩
    exact h.last.goes_on hb hk
  · have heq := h.advances_eq hm hpc hall
    exact ⟨heq, fun hstage hl => h.woken p k (hstage ▸ hpc) hl heq⟩

def electedByDetach (p q : ι) : List (ι × Op) :=
  [(p, .attach), (q, .attach), (p, .arrive), (p, .prepare), (p, .check), (q, .detach false),
    (q, .broadcast), (p, .wake), (p, .check)]

theorem barrier_phases_elected :
    ((machine (Fin 2)).after init (electedByDetach 0 1)).answers.count (0, true) = 1 :=
  ((barrier_phases (.of_isSome rfl)).2.2.2.1 (by decide) 0).2 ⟨true, by decide⟩

/-- The barrier counts the attached processes and those that wait in its phase. -/
theorem barrier_counts [Fintype ι] {s : State ι} (h : (machine ι).Reachable init s) :
    s.barrier.participants = ∑ q, (s.pcs q).attends ∧
      s.barrier.arrived = ∑ q, (s.pcs q).arrivedIn s.advances ∧
      s.barrier.phase = s.advances % 2 ^ 32 :=
  have hcounts := (Inv.of_reachable h).counts
  ⟨hcounts.participants, hcounts.arrived, hcounts.phase⟩

theorem barrier_counts_detached :
    ((machine (Fin 2)).after init (electedByDetach 0 1)).barrier.phase = 1 :=
  (barrier_counts (.of_isSome rfl)).2.2

def detachAfterExceptLast (p q : ι) : List (ι × Op) :=
  [(p, .attach), (q, .attach), (p, .exceptLast), (q, .detach true)]

theorem nobody_told_last :
    ∃ s : State (Fin 2), (machine (Fin 2)).Reachable init s ∧ 0 < s.advances ∧
      (0, false) ∈ s.lasts ∧ (0, true) ∉ s.lasts :=
  ⟨(machine _).after init (detachAfterExceptLast 0 1), .of_isSome rfl, by decide, by decide,
    by decide⟩

end Umbra.BarrierPhases
