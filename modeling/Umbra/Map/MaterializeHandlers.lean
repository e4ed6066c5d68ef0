import Umbra.Map.MaterializeSafety

/-!
# The error handlers of materialization

`MapSBlockEnsurePhysicalNblocks` sets up an error handler around its extension loop, and the exit of
a successful extension is a `return` inside the loop, which leaves the handler of a dead frame
active. The report of a corrupt entry is raised under the lock of the entry.
-/

namespace Umbra.Materialize

open Foundation

variable {inRecovery : Bool} {s t : State} {b n : ℕ} {p : Pc} {desired blk : ℕ} {error : Bool}

def NestedAt (s : State) (b : ℕ) : Pc → Prop
  | .load _ | .handler _ => s.handlers b = s.atEntry b
  | .retry _ | .sleep _ => s.handlers b = s.atEntry b ∧ s.entry ≠ none
  | .scan .. | .zero .. => ∃ frame, s.handlers b = frame :: s.atEntry b
  | .idle | .stuck _ | .returned .. | .raised _ => True

structure Nested (s : State) : Prop where
  handlers : ∀ b, NestedAt s b (s.pc b)
  locked : ∀ b, s.lock = some b → ∃ n, s.pc b = .raised n ∨ s.pc b = .stuck n

section
variable (h : Nested s)
include h

lemma Nested.update (hpc : t.pc = Function.update s.pc b p)
    (hhandlers : ∀ b' ≠ b, t.handlers b' = s.handlers b')
    (hentry : ∀ b' ≠ b, t.atEntry b' = s.atEntry b') (hloaded : s.entry ≠ none → t.entry ≠ none)
    (hnested : NestedAt t b p)
    (hlock : ∀ b', t.lock = some b' → (b' ≠ b ∧ s.lock = some b') ∨ b' = b ∧ ∃ n, p = .raised n ∨ p
      = .stuck n) : Nested t where
  handlers b' := by
    rw [hpc, Function.update_apply]
    split
    · rename_i hb
      exact hb ▸ hnested
    · rename_i hb
      have hold := h.handlers b'
      revert hold
      cases s.pc b' with
      | load | handler =>
        intro hold
        exact (hhandlers b' hb).trans (Eq.trans hold (hentry b' hb).symm)
      | retry | sleep =>
        intro hold
        exact ⟨(hhandlers b' hb).trans (hold.1.trans (hentry b' hb).symm), hloaded hold.2⟩
      | scan | zero =>
        rintro ⟨frame, hold⟩
        exact ⟨frame, by rw [hhandlers b' hb, hold, hentry b' hb]⟩
      | idle | stuck | returned | raised => exact fun _ => trivial
  locked b' hb' := by
    rw [hpc]
    rcases hlock b' hb' with ⟨hne, hs⟩ | ⟨rfl, hn⟩
    · rw [Function.update_of_ne hne]
      exact h.locked b' hs
    · rw [Function.update_self]
      exact hn

lemma Nested.at (hpc : s.pc b = p) : NestedAt s b p := hpc ▸ h.handlers b

lemma Nested.lock_ne (hpc : s.pc b = p) (hp : ∀ n, p ≠ .raised n ∧ p ≠ .stuck n) :
    s.lock ≠ some b := by
  intro hb
  obtain ⟨n, hn | hn⟩ := h.locked b hb
  · exact (hp n).1 (hpc.symm.trans hn)
  · exact (hp n).2 (hpc.symm.trans hn)

lemma Nested.keep (hfree : s.lock ≠ some b) (hpc : t.pc = Function.update s.pc b p)
    (hhandlers : ∀ b' ≠ b, t.handlers b' = s.handlers b')
    (hentry : ∀ b' ≠ b, t.atEntry b' = s.atEntry b') (hloaded : s.entry ≠ none → t.entry ≠ none)
    (hnested : NestedAt t b p) (hlock : t.lock = s.lock) : Nested t := by
  refine h.update hpc hhandlers hentry hloaded hnested fun b' hb' => .inl ⟨?_, hlock ▸ hb'⟩
  rintro rfl
  exact hfree (hlock ▸ hb')

lemma Nested.goto (hfree : s.lock ≠ some b) (hnested : NestedAt s b p) : Nested (s.goto b p) :=
  h.keep hfree rfl (fun _ _ => rfl) (fun _ _ => rfl) id (by cases p <;> exact hnested) rfl

lemma Nested.throw (hfree : s.lock ≠ some b) {frame : Handler}
    (hframe : s.handlers b = frame :: s.atEntry b) : Nested ((s.throw b).goto b (.handler n)) := by
  refine h.keep hfree rfl (fun b' hb' => Function.update_of_ne hb' ..) (fun _ _ => rfl) id ?_ rfl
  exact (Function.update_self ..).trans (by rw [hframe]; rfl)

lemma Nested.enter (error) (hpc : s.pc b = .retry n) : Nested (enter inRecovery s b n error) := by
  have hfree := h.lock_ne hpc (by simp)
  obtain ⟨hstack, hloaded⟩ := h.at hpc
  unfold Materialize.enter
  split
  · exact h.goto hfree trivial
  split
  · split <;> exact h.goto hfree trivial
  · refine h.update rfl (fun _ _ => rfl) (fun _ _ => rfl) (fun _ => nofun) trivial fun b' hb' => ?_
    exact .inr ⟨(Option.some.inj hb').symm, n, .inl rfl⟩
  · split
    · exact h.keep hfree rfl (fun _ _ => rfl) (fun _ _ => rfl) (fun _ => nofun) trivial rfl
    split
    · exact h.keep hfree rfl (fun _ _ => rfl) (fun _ _ => rfl) (fun _ => nofun) ⟨hstack, nofun⟩ rfl
    · refine h.keep hfree rfl (fun b' hb' => Function.update_of_ne hb' ..) (fun _ _ => rfl)
        (fun _ => nofun) ⟨.own s.frames, ?_⟩ rfl
      exact (Function.update_self ..).trans (congrArg _ hstack)

lemma Nested.settle (error) (hpc : s.pc b = .scan n desired blk) :
    Nested (settle s b n desired error) := by
  have hfree := h.lock_ne hpc (by simp)
  obtain ⟨frame, hframe⟩ := h.at hpc
  unfold Materialize.settle
  split
  · exact h.throw hfree hframe
  split
  · exact h.throw hfree hframe
  · exact h.update rfl (fun b' hb' => Function.update_of_ne hb' ..) (fun _ _ => rfl)
      (fun _ => nofun) trivial fun b' hb' => .inr ⟨(Option.some.inj hb').symm, n, .inr rfl⟩
  · rename_i e _
    generalize (if e.capacity < desired then desired else e.capacity) = current
    simp only
    split
    · exact h.keep hfree rfl (fun _ _ => rfl) (fun _ _ => rfl) (fun _ => nofun) trivial rfl
    · exact h.keep hfree rfl (fun _ _ => rfl) (fun _ _ => rfl) (fun _ => nofun) ⟨frame, hframe⟩ rfl

lemma Nested.handle (hpc : s.pc b = .handler n) : Nested (handle s b n) := by
  have hfree := h.lock_ne hpc (by simp)
  unfold Materialize.handle
  split
  · exact h.keep hfree rfl (fun _ _ => rfl) (fun _ _ => rfl) (fun _ => nofun) trivial rfl
  · exact h.goto hfree trivial

lemma Nested.catchDead (b n) : Nested (catchDead s b n) := by
  have hothers : ∀ b' ≠ b, (s.throw b).handlers b' = s.handlers b' :=
    fun b' hb' => Function.update_of_ne hb' ..
  unfold Materialize.catchDead
  split
  · rename_i hlock
    refine h.update rfl hothers (fun _ _ => rfl) id trivial fun b' hb' => .inr ⟨?_, n, .inr rfl⟩
    exact Option.some.inj (hb'.symm.trans hlock)
  · rename_i hfree
    unfold Materialize.handle
    split
    · exact h.keep hfree rfl hothers (fun _ _ => rfl) (fun _ => nofun) trivial rfl
    · exact h.keep hfree rfl hothers (fun _ _ => rfl) id trivial rfl

lemma Nested.move {e} (hmove : Move inRecovery s e t) : Nested t := by
  cases hmove with
  | @callZero b hpc =>
    exact h.keep (h.lock_ne hpc (by simp)) rfl (fun _ _ => rfl)
      (fun b' hb' => Function.update_of_ne hb' ..) id trivial rfl
  | @call b n hpc =>
    refine h.keep (h.lock_ne hpc (by simp)) rfl (fun _ _ => rfl)
      (fun b' hb' => Function.update_of_ne hb' ..) id ?_ rfl
    change s.handlers b = Function.update s.atEntry b (s.handlers b) b
    rw [Function.update_self]
  | loadError hpc | loadMissing hpc | interrupt hpc | leaveReturned hpc =>
    exact h.goto (h.lock_ne hpc (by simp)) trivial
  | loadCached hpc hloaded => exact h.goto (h.lock_ne hpc (by simp)) ⟨h.at hpc, hloaded⟩
  | loadNew hpc =>
    exact h.keep (h.lock_ne hpc (by simp)) rfl (fun _ _ => rfl) (fun _ _ => rfl) (fun _ => nofun)
      ⟨h.at hpc, nofun⟩ rfl
  | enter hpc => exact h.enter _ hpc
  | @wake b n hpc => exact h.goto (h.lock_ne hpc (by simp)) (h.at (p := .sleep n) hpc)
  | probeError hpc | extendError hpc =>
    obtain ⟨frame, hframe⟩ := h.at hpc
    exact h.throw (h.lock_ne hpc (by simp)) hframe
  | found hpc | absent hpc | extend hpc =>
    exact h.keep (h.lock_ne hpc (by simp)) rfl (fun _ _ => rfl) (fun _ _ => rfl) id (h.at hpc) rfl
  | settle hpc => exact h.settle _ hpc
  | handle hpc => exact h.handle hpc
  | @leaveRaised b =>
    refine h.update rfl (fun b' hb' => Function.update_of_ne hb' ..) (fun _ _ => rfl) id trivial
      fun b' hb' => .inl ?_
    change (if s.lock = some b then none else s.lock) = some b' at hb'
    split at hb'
    · cases hb'
    · rename_i hne
      refine ⟨?_, hb'⟩
      rintro rfl
      exact hne hb'
  | catchDead => exact h.catchDead _ _
  | protect hpc | restore hpc =>
    exact h.keep (p := .idle) (h.lock_ne hpc (by simp)) (by rw [← hpc, Function.update_eq_self])
      (fun b' hb' => Function.update_of_ne hb' ..) (fun _ _ => rfl) id trivial rfl

end

/-! ### Exits -/

def Pc.exited : Pc → Bool
  | .returned .. | .raised _ => true
  | _ => false

lemma exited_goto (h : ((s.goto b p).pc b).exited = true) : p.exited = true := by
  rwa [State.goto_pc_self] at h

def Disciplined (s : State) (b : ℕ) : Prop := s.handlers b = s.atEntry b ∧ s.lock ≠ some b

def Overruns (s : State) (b : ℕ) : Prop :=
  match s.pc b with
  | .scan .. => True
  | .retry _ => s.corrupt = true
  | _ => False

lemma enter_disciplined_iff (h : Nested s) (hpc : s.pc b = .retry n)
    (hexit : ((enter inRecovery s b n error).pc b).exited = true) :
    Disciplined (enter inRecovery s b n error) b ↔ ¬ s.corrupt = true := by
  have hfree := h.lock_ne hpc (by simp)
  obtain ⟨hstack, hloaded⟩ := h.at hpc
  revert hexit
  unfold enter
  split
  · rename_i herror
    exact absurd herror.2 hloaded
  split
  · rename_i hmissing
    have hcorrupt : ¬ s.corrupt = true := by rw [State.corrupt, view_of_missing hmissing]; simp
    split <;> exact fun _ => iff_of_true ⟨hstack, hfree⟩ hcorrupt
  · rename_i e hp
    obtain ⟨hview, hcorrupt⟩ := view_of_corrupt hp
    intro _
    refine iff_of_false (fun hd => hd.2 rfl) ?_
    rw [corrupt_of_view hview, hcorrupt]
    simp
  · rename_i e hp
    obtain ⟨hview, hcorrupt⟩ := view_of_ready hp
    have htrusted : ¬ s.corrupt = true := by rw [corrupt_of_view hview, hcorrupt]; simp
    split
    · exact fun _ => iff_of_true ⟨hstack, hfree⟩ htrusted
    split
    · intro hexit
      cases exited_goto hexit
    · intro hexit
      cases exited_goto hexit

lemma settle_not_disciplined (h : Nested s) (hpc : s.pc b = .scan n desired blk)
    (hexit : ((settle s b n desired error).pc b).exited = true) :
    ¬ Disciplined (settle s b n desired error) b := by
  obtain ⟨frame, hframe⟩ := h.at hpc
  have hown : ∀ t : State, t.handlers = s.handlers → t.atEntry = s.atEntry → ¬ Disciplined t b := by
    rintro t ht ht' ⟨hd, _⟩
    rw [ht, ht', hframe] at hd
    exact List.cons_ne_self _ _ hd
  revert hexit
  unfold settle
  split
  · intro hexit
    cases exited_goto hexit
  split
  · intro hexit
    cases exited_goto hexit
  · intro hexit
    cases exited_goto hexit
  · rename_i e _
    generalize (if e.capacity < desired then desired else e.capacity) = current
    simp only
    split
    · exact fun _ => hown _ rfl rfl
    · intro hexit
      cases exited_goto hexit

lemma Nested.of_reachable {s₀} (hidle : ∀ b, s₀.pc b = .idle) (hlock : s₀.lock = none)
    (h : (backends inRecovery).Reachable s₀ s) : Nested s := by
  refine System.Reaches.invariant h ⟨fun b => ?_, fun b hb => ?_⟩
    fun hnested _ hstep => hnested.move (.of_step hstep)
  · rw [hidle b]
    trivial
  · cases hlock.symm.trans hb

/-- A step that ends a call leaves the handlers and locks it came with exactly if it neither ends
the call from the extension loop nor reports a corrupt entry. -/
theorem disciplined_exit_iff {s₀ : State} {e : Event} (hidle : ∀ b, s₀.pc b = .idle)
    (hlock : s₀.lock = none) (hs : (backends inRecovery).Reachable s₀ s)
    (hstep : (backends inRecovery).step s e = some t)
    (hbefore : (s.pc e.backend).exited = false) (hafter : (t.pc e.backend).exited = true) :
    Disciplined t e.backend ↔ ¬ Overruns s e.backend := by
  have h := Nested.of_reachable hidle hlock hs
  have hmove := Move.of_step hstep
  cases hmove with
  | @callZero b hpc =>
    have hfree := h.lock_ne hpc (by simp)
    refine iff_of_true ⟨?_, hfree⟩ (by simp only [Overruns, Event.backend, hpc]; exact id)
    change s.handlers b = Function.update s.atEntry b (s.handlers b) b
    rw [Function.update_self]
  | loadError hpc | loadMissing hpc =>
    exact iff_of_true ⟨h.at hpc, h.lock_ne hpc (by simp)⟩
      (by simp only [Overruns, Event.backend, hpc]; exact id)
  | enter hpc =>
    refine (enter_disciplined_iff h hpc hafter).trans ?_
    simp only [Overruns, Event.backend, hpc]
  | interrupt hpc =>
    exact iff_of_true ⟨(h.at hpc).1, h.lock_ne hpc (by simp)⟩
      (by simp only [Overruns, Event.backend, hpc]; exact id)
  | settle hpc =>
    refine iff_of_false (settle_not_disciplined h hpc hafter) ?_
    simp only [Overruns, Event.backend, hpc, not_true_eq_false, not_false_eq_true]
  | handle hpc =>
    have hfree := h.lock_ne hpc (by simp)
    refine iff_of_true ?_ (by simp only [Overruns, Event.backend, hpc]; exact id)
    unfold Materialize.handle
    split <;> exact ⟨h.at hpc, hfree⟩
  | leaveReturned hpc | leaveRaised hpc | catchDead hpc =>
    rw [Event.backend, hpc] at hbefore
    cases hbefore
  | protect | restore => cases hbefore.symm.trans hafter
  | _ =>
    cases exited_goto hafter

def failedExtension : List Event :=
  [.call 0 1, .load 0 false, .enter 0 false, .probe 0 false, .extend 0 true]

theorem disciplined_exit_iff_failed : let s := (backends false).after untouched failedExtension
    (s.pc 0).exited = false ∧ (backends false).step s (.handle 0) = some (handle s 0 1) ∧
      (Disciplined (handle s 0 1) 0 ↔ ¬ Overruns s 0) := by
  have hsome : ((backends false).run untouched failedExtension).isSome = true := rfl
  refine ⟨rfl, rfl, ?_⟩
  exact @disciplined_exit_iff false _ _ untouched (.handle 0) (fun _ => rfl) rfl (.of_isSome hsome)
    rfl rfl rfl

def damaged : State := { untouched with sector := .corrupt }

/-- A call that extends returns with its handler active; one on a damaged superblock keeps the lock.
-/
theorem handler_left_active :
    ((backends false).run untouched [.call 0 1, .load 0 false, .enter 0 false, .probe 0 false,
        .extend 0 false, .settle 0 false]).map
      (fun t => (t.pc 0, t.handlers 0, t.atEntry 0)) = some (.returned 1 true, [.own 0], []) ∧
    ((backends false).run damaged [.call 0 1, .load 0 false, .enter 0 false]).map
      (fun t => (t.pc 0, t.lock)) = some (.raised 1, some 0) :=
  ⟨rfl, rfl⟩

end Umbra.Materialize
