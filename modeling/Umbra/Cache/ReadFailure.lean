import Umbra.Cache.Coherence

/-!
# Failed reads of the MAP cache

`MapReadBuffer` gives a buffer its new tag, which the table already has, and only then reads the
page. If the read fails nothing takes the tag back, and the next lookup of the page takes the bytes
left in the buffer for its entries.
-/

namespace Umbra.Cache

open Foundation

variable {n m k : Nat} {ρ : Type}

inductive Failure
  /-- `FileRead` fails and leaves the buffer as it was. -/
  | readError
  /-- `FileRead` delivers so many whole entries of the page; the one after them may be torn. -/
  | shortRead (count : Nat) (torn : Option Nat)
  | allZeros
  deriving DecidableEq

/-- The entries that the bytes of a page spell. Zero is a block number, not a missing entry. -/
def DiskPage.bytes : DiskPage → Nat → Option Nat
  | .zero => fun _ => some 0
  | .entries e => e

namespace State

/-- The bytes of the buffer after a failed read, and its `MAPBUF_NOT_MATERIALIZED`, which is cleared
between the read and the check for zeros. -/
def leftover (s : State n m k ρ) (tag : PageTag ρ) (i : Fin m) :
    Failure → Option ((Nat → Option Nat) × Bool)
  | .readError => some (s.page i, (s.word i).notMaterialized)
  | .shortRead count torn =>
    if count < mapEntriesPerPage then
      some (fun idx =>
        if idx < count then (s.diskPage tag).bytes idx
        else if idx = count then torn
        else s.page i idx, (s.word i).notMaterialized)
    else none
  | .allZeros => if (s.diskPage tag).isZero then some ((s.diskPage tag).bytes, false) else none

/-- The read of a process fails. `LWLockReleaseAll` releases the lock of the buffer; the pin stays
until the process exits. -/
def fail (s : State n m k ρ) (p : Fin n) (f : Failure) : Option (State n m k ρ) :=
  match s.pcs p with
  | .install tag _ i =>
    if tag.position < s.nblocks tag.1 ∧ s.withinLogicalRange tag then
      (s.leftover tag i f).map fun r => (s.install tag i r.1 r.2).goto p (.unpin i)
    else none
  | _ => none

end State

inductive FailingEvent (n m k : Nat) (ρ : Type)
  | ordinary (e : Event n m k ρ)
  | fail (p : Fin n) (f : Failure)

def failingMachine [DecidableEq ρ] : System (State n m k ρ) (FailingEvent n m k ρ) where
  step s
    | .ordinary e => machine.step s e
    | .fail p f => s.fail p f

/-- The bytes that a failure would leave in the buffer are the published entries of the page. -/
def Harmless (s : State n m k ρ) (tag : PageTag ρ) (i : Fin m) : Failure → Prop
  | .readError => s.page i = s.published tag
  | .shortRead count torn =>
    (0 < count → (s.diskPage tag).isZero = false) ∧ torn = s.published tag count ∧
      ∀ idx, count < idx → s.page i idx = s.published tag idx
  | .allZeros => False

def Untroubled (s : State n m k ρ) : FailingEvent n m k ρ → Prop
  | .ordinary e => CountsFit s e ∧ DiskKept s e
  | .fail p f => ∀ tag use i, s.pcs p = .install tag use i → Harmless s tag i f

variable {s t : State n m k ρ} {p : Fin n} {tag : PageTag ρ} {use : Use} {i : Fin m} {f : Failure}

lemma DiskPage.bytes_of_not_isZero {page : DiskPage} (h : page.isZero = false) :
    page.bytes = page.mapping := by
  cases page
  · cases h
  · rfl

lemma Harmless.leftover (h : Harmless s tag i f) {r}
    (hdisk : (s.diskPage tag).mapping = s.published tag) (hr : s.leftover tag i f = some r) :
    r.1 = s.published tag := by
  cases f with
  | readError =>
    cases hr
    exact h
  | shortRead count =>
    obtain ⟨hzero, htorn, hrest⟩ := h
    obtain ⟨-, rfl⟩ := guard_eq_some hr
    funext idx
    rcases lt_trichotomy idx count with hlt | rfl | hgt
    · have hbytes := DiskPage.bytes_of_not_isZero (hzero (Nat.zero_lt_of_lt hlt))
      simp only [if_pos hlt, hbytes, hdisk]
    · simp only [if_neg (lt_irrefl idx), if_true, htorn]
    · simp only [if_neg hgt.asymm, if_neg hgt.ne', hrest idx hgt]
  | allZeros => exact h.elim

lemma State.fail_cases (h : s.fail p f = some t) :
    ∃ tag use i r, s.pcs p = .install tag use i ∧ s.leftover tag i f = some r ∧
      t = (s.install tag i r.1 r.2).goto p (.unpin i) := by
  unfold State.fail at h
  split at h
  next tag use i hpc =>
    obtain ⟨-, h⟩ := Option.ite_none_right_eq_some.mp h
    obtain ⟨r, hr, rfl⟩ := Option.map_eq_some_iff.mp h
    exact ⟨tag, use, i, r, hpc, hr, rfl⟩
  next => cases h

lemma State.fail_readError (hpc : s.pcs p = .install tag use i)
    (hread : tag.position < s.nblocks tag.1 ∧ s.withinLogicalRange tag) :
    s.fail p .readError =
      some ((s.install tag i (s.page i) (s.word i).notMaterialized).goto p (.unpin i)) := by
  simp only [State.fail, hpc, if_pos hread, State.leftover, Option.map_some]

lemma State.goto_goto (s : State n m k ρ) (old pc : Pc m ρ) :
    (s.goto p old).goto p pc = s.goto p pc :=
  congrArg (fun pcs => State.mk pcs s.word s.tag s.page s.hash s.disk s.nblocks s.logical s.supers
    s.published s.clock s.stamp s.writes s.superWrites) (Function.update_idem ..)

structure Consistent (s : State n m k ρ) : Prop where
  guarded : Guarded s
  pinned : Pinned s
  named : Named s
  stored : Stored s

namespace Consistent

lemma fail (h : Consistent s) (hf : ∀ tag use i, s.pcs p = .install tag use i → Harmless s tag i f)
    (hfail : s.fail p f = some t) : Consistent t := by
  obtain ⟨tag, use, i, r, hpc, hr, rfl⟩ := State.fail_cases hfail
  have hpage : r.1 = s.published tag :=
    (hf tag use i hpc).leftover (h.stored.stored_of_install h.named hpc) hr
  refine ⟨?_, ?_, ?_, ?_⟩
  · exact (h.guarded.count (i := i) (w := { s.word i with
        usage := (s.word i).usage ||| 1
        notMaterialized := r.2 }) rfl rfl rfl rfl rfl rfl).of_frame rfl rfl
  · have hword : Pinned ((s.setWord i { s.word i with
        usage := (s.word i).usage ||| 1
        notMaterialized := r.2 }).goto p (.unpin i)) := h.pinned.setWord hpc rfl rfl
    exact hword
  · have hreturned := h.named.install h.guarded hpc r.1 r.2
    rw [← State.goto_goto _ (.returned tag use i)]
    exact hreturned.stay rfl rfl rfl (State.pcs_goto_self ..) rfl rfl (.inr rfl)
  · exact (h.stored.install h.named hpc hpage r.2).leave hpc rfl rfl

lemma step [DecidableEq ρ] {e} (h : Consistent s) (hok : Untroubled s e)
    (hstep : failingMachine.step s e = some t) : Consistent t := by
  cases e with
  | ordinary =>
    obtain ⟨hfit, hkept⟩ := hok
    exact ⟨h.guarded.step hfit hstep, h.pinned.step hfit hstep,
      h.named.step h.guarded h.pinned hstep,
      h.stored.step h.guarded h.named hfit hkept hstep⟩
  | fail => exact h.fail hok hstep

end Consistent

/-- With failing reads the cache is coherent in every run in which no count leaves its field, no
page on disk is lost, and every failure leaves the published entries behind. -/
theorem coherent_of_reaches_failing [DecidableEq ρ] {file : ρ → Nat → DiskPage} {nblocks : ρ → Nat}
    {logical : ρ → ForkNumber → Nat}
    (h : failingMachine.Reaches Untroubled (init file nblocks logical) s) : Coherent s := by
  have hcons : Consistent s := by
    refine h.invariant (I := Consistent) ?_ fun hs hok hstep => hs.step hok hstep
    exact ⟨guarded_init .., pinned_init _ _ _, named_init .., stored_init ..⟩
  exact coherent hcons.named hcons.stored

lemma reaches_failing [DecidableEq ρ]
    (h : machine.Reaches (fun s e => CountsFit s e ∧ DiskKept s e) s t) :
    failingMachine.Reaches Untroubled s t := by
  induction h with
  | refl => exact .refl
  | tail _ hok hstep ih => exact .tail (e := .ordinary _) ih hok hstep

def onePage (e : Nat → Nat → Option Nat) : State 4 1 0 Unit :=
  init (fun _ b => .entries (e b)) (fun _ => 5) fun _ _ => 4000

def readFirst (p : Fin n) (i : Fin m) : List (Event n m k Unit) :=
  [.call p firstPage (.lookup 0), .next p, .sweepAt p i] ++ List.replicate 8 (.next p)

def replaceFirst (p : Fin n) (i : Fin m) : List (Event n m k Unit) :=
  [.call p secondPage (.lookup 0), .next p, .sweepAt p i, .next p, .sweepAt p i]
    ++ List.replicate 5 (.next p)

def lookupSecond (p : Fin n) : List (Event n m k Unit) :=
  .call p secondPage (.lookup 0) :: List.replicate 4 (.next p)

def unmapped (p q : Fin 4) (i : Fin 1) : State 4 1 0 Unit :=
  (machine.restrict fun s e => CountsFit s e ∧ DiskKept s e).after (onePage fun _ _ => none)
    (readFirst p i ++ replaceFirst q i)

def unmappedFailed (p q : Fin 4) (i : Fin 1) : State 4 1 0 Unit :=
  let s := unmapped p q i
  (s.install secondPage i (s.page i) (s.word i).notMaterialized).goto q (.unpin i)

lemma reaches_unmappedFailed :
    failingMachine.Reaches Untroubled (onePage fun _ _ => none) (unmappedFailed 0 1 0) := by
  have hpc : (unmapped 0 1 0).pcs 1 = .install secondPage (.lookup 0) 0 := by rfl
  have hreaches : failingMachine.Reaches Untroubled (onePage fun _ _ => none) (unmapped 0 1 0) :=
    reaches_failing (System.Reaches.of_isSome (by decide))
  refine hreaches.tail (e := .fail 1 .readError) (fun tag use i hpc' => ?_) ?_
  · cases hpc.symm.trans hpc'
    rfl
  · exact State.fail_readError hpc (by decide)

theorem coherent_of_reaches_failing_unmapped :
    let M := machine.restrict fun s e => CountsFit s e ∧ DiskKept s e
    let s := M.after (unmappedFailed 0 1 0) (lookupSecond 2)
    s.pcs 2 = .returned secondPage (.lookup 0) 0 ∧ s.page 0 = s.published secondPage :=
  ⟨by rfl, ((coherent_of_reaches_failing (reaches_unmappedFailed.trans (reaches_failing
    (System.Reaches.of_isSome (by decide))))).returned 2 secondPage (.lookup 0) 0 (by rfl)).2⟩

/-- After a read error the second page has the entries of the first. -/
theorem failed_read_returns_old_page :
    let es := (readFirst 0 0 ++ replaceFirst 1 0).map .ordinary ++ [.fail 1 .readError] ++
      (lookupSecond 2).map .ordinary
    (failingMachine.run (onePage fun b _ => some b) es).isSome ∧
      let s := failingMachine.after (onePage fun b _ => some b) es
      s.pcs 2 = .returned secondPage (.lookup 0) 0 ∧ s.page 0 0 = some 3 ∧
        s.published secondPage 0 = some 4 ∧ (s.diskPage secondPage).mapping 0 = some 4 :=
  ⟨by decide, by rfl, by rfl, by rfl, by rfl⟩

end Umbra.Cache
