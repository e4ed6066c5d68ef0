import Umbra.Basic
import Umbra.Foundation.System
import Mathlib.Tactic.SplitIfs

/-!
# Preallocation of a fork

`MapMaybePreallocateFork` decides under the lock of the superblock entry, sets the in-progress flag
of the fork, lets the file grow without the lock, and then takes the lock again to record the
capacity and to clear the flag.
-/

namespace Umbra.Preallocate

open Foundation Function

/-- The settings of the fork, as `MapForkPreallocSettings` returns them. -/
structure Settings where
  softLow : Nat
  hardLow : Nat
  batch : Nat

structure Entry where
  valid : Bool
  corrupt : Bool
  next : Nat
  capacity : Nat
  preallocating : Bool

inductive Decision
  | skip
  | tooFar
  | start (target : Nat)

def Entry.decide (c : Settings) (e : Entry) (background : Bool) : Decision :=
  let remaining := e.capacity - e.next
  if e.next < c.softLow ∨ c.softLow < remaining then .skip
  else if background = false ∧ c.hardLow < remaining then .skip
  else if e.preallocating then .skip
  else
    let target := max (e.capacity + c.batch) (e.next + c.batch)
    if invalidBlockNumber - 1 < target then .tooFar
    else if target ≤ e.capacity then .skip
    else .start target

inductive Pc
  | idle
  | reserved
  | file (target : Nat) (background : Bool)
  | settle (target : Nat) (background ok : Bool)
  | unwind (background : Bool)
  | failed (background : Bool)
  deriving DecidableEq

def Pc.active : Pc → Bool
  | .file .. | .settle .. | .unwind _ => true
  | _ => false

def Pc.calling (background : Bool) : Pc := if background then .idle else .reserved

inductive Outcome
  | backed
  | unsupported
  | error

structure State (ι : Type) where
  entry : Option Entry
  pcs : ι → Pc
  reported : List Nat

inductive Event (ι : Type)
  | reserve (p : ι)
  | ensure (p : ι) (background : Bool)
  | attempt (p : ι) (background : Bool)
  | file (p : ι) (outcome : Outcome)
  | settle (p : ι)
  | unwind (p : ι)
  | drop
  | load (valid : Bool) (next capacity : Nat)
  | damage
  | raise (capacity : Nat)

variable {ι : Type} [DecidableEq ι] {c : Settings} {s t : State ι} {p q : ι} {e : Entry}
  {background : Bool} {target : Nat} {f : Entry → Entry} {ev : Event ι}

def State.goto (s : State ι) (p : ι) (pc : Pc) : State ι := { s with pcs := update s.pcs p pc }

def State.modify (s : State ι) (f : Entry → Entry) : State ι := { s with entry := s.entry.map f }

def State.attempt (c : Settings) (s : State ι) (p : ι) (background : Bool) : State ι :=
  match s.entry with
  | none => s.goto p .idle
  | some e =>
    if e.valid = false then s.goto p .idle
    else if e.corrupt then s.goto p (.failed background)
    else
      match e.decide c background with
      | .skip => s.goto p .idle
      | .tooFar => s.goto p (.failed background)
      | .start target =>
        { s with entry := some { e with preallocating := true } }.goto p (.file target background)

def Entry.settle (e : Entry) (target : Nat) (ok : Bool) : Entry :=
  { e with
    capacity := if ok ∧ e.valid ∧ e.capacity < target then target else e.capacity
    preallocating := false }

def machine (c : Settings) : System (State ι) (Event ι) where
  step s
    | .reserve p =>
      match s.entry with
      | some e =>
        if s.pcs p = .idle ∧ e.valid ∧ e.corrupt = false ∧ e.next < invalidBlockNumber - 1 then
          some ({ s with entry := some { e with next := e.next + 1 } }.goto p .reserved)
        else none
      | none => none
    | .ensure p background =>
      if s.pcs p = Pc.calling background then some (s.goto p (.failed background)) else none
    | .attempt p background =>
      if s.pcs p = Pc.calling background then some (s.attempt c p background) else none
    | .file p outcome =>
      match s.pcs p, outcome with
      | .file target background, .backed =>
        some ({ s with reported := target :: s.reported }.goto p (.settle target background true))
      | .file target background, .unsupported => some (s.goto p (.settle target background false))
      | .file _ background, .error => some (s.goto p (.unwind background))
      | _, _ => none
    | .settle p =>
      match s.pcs p with
      | .settle target _ ok =>
        some ((s.modify (·.settle target ok)).goto p .idle)
      | _ => none
    | .unwind p =>
      match s.pcs p with
      | .unwind background =>
        some ((s.modify (·.settle 0 false)).goto p (.failed background))
      | _ => none
    | .drop => some { s with entry := none }
    | .load valid next capacity =>
      if s.entry.isNone then some { s with entry := some ⟨valid, false, next, capacity, false⟩ }
      else none
    | .damage => some (s.modify ({ · with corrupt := true }))
    | .raise capacity =>
      some (s.modify fun e => { e with capacity := max e.capacity capacity })

def start : State ι := ⟨none, fun _ => .idle, []⟩

/-- The entry is not loaded anew under a caller that has the flag of the old one, and a foreground
caller meets no corrupt superblock, end of the block numbers or file system error. -/
def Undisturbed (c : Settings) (s : State ι) : Event ι → Prop
  | .load .. => ∀ p, (s.pcs p).active = false
  | .ensure _ background => background = true
  | .attempt _ false => ∀ e, s.entry = some e → e.valid = true →
      e.corrupt = false ∧ max e.capacity e.next + c.batch < invalidBlockNumber
  | .file p .error => ∀ target, s.pcs p ≠ .file target false
  | _ => True

/-- At most one caller preallocates, the flag is set while one does and only then, and no
foreground caller fails. -/
structure Advisory (s : State ι) : Prop where
  exclusive : ∀ p q, (s.pcs p).active = true → (s.pcs q).active = true → p = q
  flag : ∀ e, s.entry = some e → (e.preallocating = true ↔ ∃ p, (s.pcs p).active = true)
  foreground : ∀ p, s.pcs p ≠ .failed false ∧ s.pcs p ≠ .unwind false
  reported : ∀ p target background, s.pcs p = .settle target background true → target ∈ s.reported

lemma Entry.preallocating_of_decide (h : e.decide c background = .start target) :
    e.preallocating = false := by
  simp only [Entry.decide] at h
  split_ifs at h with _ _ hflag
  simpa using hflag

lemma Entry.decide_ne_tooFar (h : max e.capacity e.next + c.batch < invalidBlockNumber) :
    e.decide c background ≠ .tooFar := by
  simp only [Entry.decide]
  split_ifs <;> simp
  omega

namespace Advisory

variable {pc : Pc}

variable (h : Advisory s)
include h

lemma goto (hactive : pc.active = (s.pcs p).active)
    (hforeground : pc ≠ .failed false ∧ pc ≠ .unwind false)
    (hreported : ∀ target background, pc = .settle target background true → target ∈ s.reported) :
    Advisory (s.goto p pc) := by
  have hsame : ∀ q, ((s.goto p pc).pcs q).active = (s.pcs q).active := fun q => by
    by_cases hq : q = p <;> simp [State.goto, hq, hactive]
  constructor
  · simpa only [hsame] using h.exclusive
  · intro e he
    simpa only [hsame] using h.flag e he
  · intro q
    by_cases hq : q = p <;> simp [State.goto, hq, hforeground, h.foreground]
  · intro q target background
    by_cases hq : q = p
    · simpa [State.goto, hq] using hreported target background
    · simpa [State.goto, hq] using h.reported q target background

omit [DecidableEq ι] in
lemma withEntry {entry}
    (hentry : ∀ e', entry = some e' → ∃ e, s.entry = some e ∧ e'.preallocating = e.preallocating) :
    Advisory { s with entry := entry } where
  exclusive := h.exclusive
  flag e' he' := by
    obtain ⟨e, he, hsame⟩ := hentry e' he'
    rw [hsame]
    exact h.flag e he
  foreground := h.foreground
  reported := h.reported

omit [DecidableEq ι] in
lemma modify (hf : ∀ e, (f e).preallocating = e.preallocating) : Advisory (s.modify f) := by
  apply h.withEntry
  intro e' he'
  obtain ⟨e, he, rfl⟩ := Option.map_eq_some_iff.mp he'
  exact ⟨e, he, hf e⟩

lemma begin (he : s.entry = some e) (hclear : e.preallocating = false) :
    Advisory ({ s with entry := some { e with preallocating := true } }.goto p
      (.file target background)) := by
  have hnobody : ∀ q, (s.pcs q).active = false := by simpa [hclear] using h.flag e he
  constructor
  · intro q r hq hr
    have honly : ∀ q, (update s.pcs p (.file target background) q).active = true → q = p := by
      intro q hq
      by_contra hne
      simp [hne, hnobody] at hq
    exact (honly q hq).trans (honly r hr).symm
  · intro e' he'
    cases he'
    exact iff_of_true rfl ⟨p, by simp [State.goto, Pc.active]⟩
  · intro q
    by_cases hq : q = p <;> simp [State.goto, hq, h.foreground]
  · intro q t b
    by_cases hq : q = p
    · simp [State.goto, hq]
    · simpa [State.goto, hq] using h.reported q t b

lemma finish (hp : (s.pcs p).active = true) (hf : ∀ e, (f e).preallocating = false)
    (hpc : pc.active = false) (hfailed : pc ≠ .failed false) :
    Advisory ((s.modify f).goto p pc) := by
  have hnobody : ∀ q, (update s.pcs p pc q).active = false := by
    intro q
    by_cases hq : q = p
    · simp [hq, hpc]
    · simpa [hq] using fun hactive => hq (h.exclusive q p hactive hp)
  constructor
  · simp [State.goto, State.modify, hnobody]
  · simp [State.goto, State.modify, hnobody, hf]
  · intro q
    by_cases hq : q = p
    · simpa [State.goto, hq, hfailed] using fun hu : pc = _ => by simp [hu, Pc.active] at hpc
    · simp [State.goto, State.modify, hq, h.foreground]
  · intro q target background hq
    have hactive := hnobody q
    rw [show update s.pcs p pc q = _ from hq] at hactive
    cases hactive

lemma attempt (hok : Undisturbed c s (.attempt p background)) (hp : s.pcs p = .calling background) :
    Advisory (s.attempt c p background) := by
  have hidle : (s.pcs p).active = false := by cases background <;> simp [hp, Pc.calling, Pc.active]
  have hquiet : Advisory (s.goto p .idle) := h.goto hidle.symm (by simp) (by simp)
  have hfail : background = true → Advisory (s.goto p (.failed background)) := by
    rintro rfl
    exact h.goto hidle.symm (by simp) (by simp)
  simp only [State.attempt]
  split
  · exact hquiet
  next e he =>
    split_ifs with hvalid hcorrupt
    · exact hquiet
    · apply hfail
      cases background
      · simp [(hok e he (by simpa using hvalid)).1] at hcorrupt
      · rfl
    · split
      · exact hquiet
      next hfar =>
        apply hfail
        cases background
        · exact absurd hfar (Entry.decide_ne_tooFar (hok e he (by simpa using hvalid)).2)
        · rfl
      next hstart => exact h.begin he (Entry.preallocating_of_decide hstart)

end Advisory

lemma Advisory.step (h : Advisory s) (hok : Undisturbed c s ev)
    (hstep : (machine c).step s ev = some t) : Advisory t := by
  cases ev with
  | reserve =>
    simp only [machine] at hstep
    split at hstep
    next e he =>
      obtain ⟨⟨hp, -⟩, rfl⟩ := guard_eq_some hstep
      apply (h.withEntry fun e' he' => ⟨e, he, by cases he'; rfl⟩).goto <;> simp [hp, Pc.active]
    · cases hstep
  | ensure =>
    obtain ⟨hp, rfl⟩ := guard_eq_some hstep
    cases hok
    apply h.goto <;> simp [hp, Pc.calling, Pc.active]
  | attempt =>
    obtain ⟨hp, rfl⟩ := guard_eq_some hstep
    exact h.attempt hok hp
  | file =>
    simp only [machine] at hstep
    split at hstep <;> cases hstep
    next target _ hp =>
      have hmore : Advisory { s with reported := target :: s.reported } :=
        { h with reported q t b hq := List.mem_cons_of_mem _ (h.reported q t b hq) }
      apply hmore.goto <;> simp [hp, Pc.active]
    next hp => apply h.goto <;> simp [hp, Pc.active]
    next target background hp =>
      cases background
      · exact absurd hp (hok target)
      · apply h.goto <;> simp [hp, Pc.active]
  | settle =>
    simp only [machine] at hstep
    split at hstep <;> cases hstep
    next hp => apply h.finish <;> simp [hp, Pc.active, Entry.settle]
  | unwind p =>
    simp only [machine] at hstep
    split at hstep <;> cases hstep
    next background hp =>
      have hbackground : background = true := by
        cases background
        · exact absurd hp (h.foreground p).2
        · rfl
      apply h.finish <;> simp [hp, Pc.active, Entry.settle, hbackground]
  | drop =>
    cases hstep
    exact h.withEntry nofun
  | load =>
    obtain ⟨-, rfl⟩ := guard_eq_some hstep
    refine { h with flag e he := ?_ }
    cases he
    have hnobody : ∀ p, (s.pcs p).active = false := hok
    simp [hnobody]
  | damage | raise =>
    cases hstep
    exact h.modify fun _ => rfl

def Event.isCall : Event ι → Bool
  | .drop | .load .. | .damage | .raise _ => false
  | _ => true

/-- The recorded capacity is only raised, and only to a size that was reported as backed. -/
def Backed (s t : State ι) : Prop :=
  ∀ e e', s.entry = some e → t.entry = some e' →
    e.capacity ≤ e'.capacity ∧ (e'.capacity ≠ e.capacity → e'.capacity ∈ s.reported)

lemma Advisory.backed (h : Advisory s) (hcall : ev.isCall = true)
    (hstep : (machine c).step s ev = some t) : Backed s t := by
  intro e e' he he'
  cases ev with
  | reserve | ensure | file =>
    simp only [machine, he] at hstep
    grind [State.goto]
  | attempt =>
    obtain ⟨-, rfl⟩ := guard_eq_some hstep
    simp only [State.attempt, he] at he'
    grind [State.goto]
  | settle p =>
    simp only [machine] at hstep
    split at hstep <;> cases hstep
    next target background ok hp =>
      have := h.reported p target background
      simp only [State.goto, State.modify, he, Option.map_some, Option.some.injEq] at he'
      grind [Entry.settle]
  | unwind =>
    simp only [machine] at hstep
    split at hstep <;> cases hstep
    simp only [State.goto, State.modify, he, Option.map_some, Option.some.injEq] at he'
    simp [← he', Entry.settle]
  | drop | load | damage | raise => simp [Event.isCall] at hcall

/-- In every run of undisturbed steps preallocation is advisory, and callers raise the capacity
only to sizes that have been reported as backed. -/
theorem preallocation_advisory (h : (machine c).Reaches (Undisturbed c) start s) :
    Advisory s ∧ ∀ ev t, ev.isCall = true → (machine c).step s ev = some t → Backed s t := by
  have hs : Advisory s := by
    apply h.invariant
    · constructor <;> simp [start, Pc.active]
    · exact Advisory.step
  exact ⟨hs, fun _ _ => hs.backed⟩

def mainFork : Settings := ⟨512, 128, 1024⟩

theorem preallocation_advisory_started : Advisory ((machine mainFork).after start
      [.load true 600 600, .reserve (), .attempt () false]) :=
  (preallocation_advisory (c := mainFork) (.tail (.tail (.tail .refl (e := .load true 600 600)
    (fun _ => rfl) rfl) (e := .reserve ()) trivial rfl) (e := .attempt () false)
    (fun e he _ => by cases he; decide) rfl)).1

/-- Close to the last block number a reservation that has got a block below the limit fails; and
when the entry is loaded anew under a caller, a second one starts. -/
theorem preallocate_fails :
    (∃ s : State Unit, (machine mainFork).Reachable start s ∧ s.pcs () = .failed false) ∧
      ∃ s : State Bool, (machine mainFork).Reachable start s ∧
        (s.pcs true).active = true ∧ (s.pcs false).active = true :=
  ⟨⟨(machine mainFork).after start
      [.load true 4294967000 4294967100, .reserve (), .attempt () false], .of_isSome rfl, rfl⟩,
    ⟨(machine mainFork).after start [.load true 600 600, .attempt true true, .drop,
      .load true 600 600, .attempt false true], .of_isSome rfl, rfl, rfl⟩⟩

end Umbra.Preallocate
