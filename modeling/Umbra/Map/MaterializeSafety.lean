import Umbra.Foundation.Execution
import Umbra.Map.Materialize

/-!
# Safety and progress of materialization

The extending flag is set exactly while one backend is in the protected region, as long as no error
gets to the handler of a call that has returned; the capacity on record only grows and every block
below it exists. After an error the handler clears the flag, and in a fair execution it gets to do
so.
-/

namespace Umbra.Materialize

open Foundation

/-! ### Files -/

namespace Files

variable {f : Files} {blk k : ℕ}

lemma present_iff : f.present k = true ↔ ∃ n, f (k / relsegSize) = some n ∧ k % relsegSize < n := by
  unfold present
  cases f (k / relsegSize) <;> simp

lemma present_zero_self : (f.zero blk).present blk = true := by
  refine present_iff.mpr ⟨_, Function.update_self .., ?_⟩
  exact Nat.lt_of_succ_le (le_max_right ..)

lemma present_zero (h : f.present k = true) : (f.zero blk).present k = true := by
  obtain ⟨n, hn, hk⟩ := present_iff.mp h
  by_cases hseg : k / relsegSize = blk / relsegSize
  · rw [present_iff, hseg, zero, Function.update_self, ← hseg, hn]
    exact ⟨_, rfl, lt_of_lt_of_le hk (le_max_left ..)⟩
  · exact present_iff.mpr ⟨n, (Function.update_of_ne hseg ..).trans hn, hk⟩

end Files

lemma present_of_blockExists {f c blk} (h : (blockExists f c blk).1 = true) :
    f.present blk = true := by
  simp only [blockExists] at h
  split at h
  · exact (Bool.and_eq_true_iff.mp h).2
  · split at h
    · cases h
    · exact h

/-! ### The invariant -/

def Pc.inRegion : Pc → Bool
  | .scan .. | .zero .. | .handler _ | .stuck _ => true
  | _ => false

namespace State

def Fits (s : State) : Pc → Prop
  | .scan n desired blk => n ≤ desired ∧ blk ≤ desired ∧ ∀ k < blk, s.files.present k = true
  | .zero n desired blk => n ≤ desired ∧ blk < desired ∧ ∀ k < blk, s.files.present k = true
  | .sleep _ => s.corrupt = false
  | .stuck _ => False
  | .returned n true => n ≤ s.recorded
  | _ => True

lemma Fits.mono {s t : State} {p : Pc} (h : s.Fits p)
    (hfiles : ∀ k, s.files.present k = true → t.files.present k = true)
    (hrec : s.recorded ≤ t.recorded) (hcorrupt : t.corrupt = s.corrupt) : t.Fits p := by
  cases p with
  | sleep => exact hcorrupt.trans h
  | scan | zero => exact ⟨h.1, h.2.1, fun k hk => hfiles k (h.2.2 k hk)⟩
  | stuck => exact h
  | returned n result =>
    cases result with
    | false => trivial
    | true => exact le_trans h hrec
  | idle | load | retry | handler | raised => trivial

end State

/-- Every recorded segment is on disk, and one process extends at a time. -/
structure Inv (s : State) : Prop where
  present : ∀ k < s.recorded, s.files.present k = true
  fits : ∀ b, s.Fits (s.pc b)
  extending_iff : s.extending = true ↔ ∃ b, (s.pc b).inRegion = true
  unique : ∀ b b', (s.pc b).inRegion = true → (s.pc b').inRegion = true → b = b'
  trusted : s.extending = true → s.corrupt = false
  locked : s.lock ≠ none → s.corrupt = true

namespace Inv

variable {s t : State} {b : ℕ} {p : Pc}

lemma update (h : Inv s) (hpc : t.pc = Function.update s.pc b p)
    (hfiles : ∀ k, s.files.present k = true → t.files.present k = true)
    (hrec : s.recorded ≤ t.recorded) (hpresent : ∀ k < t.recorded, t.files.present k = true)
    (hcorrupt : t.corrupt = s.corrupt) (hfit : t.Fits p)
    (hext : t.extending = true ↔ p.inRegion = true ∨ ∃ b' ≠ b, (s.pc b').inRegion = true)
    (hone : p.inRegion = true → ∀ b' ≠ b, (s.pc b').inRegion = false)
    (htrusted : t.extending = true → t.corrupt = false)
    (hlocked : t.lock ≠ none → t.corrupt = true) : Inv t where
  present := hpresent
  fits b' := by
    rw [hpc, Function.update_apply]
    split
    · exact hfit
    · exact (h.fits b').mono hfiles hrec hcorrupt
  extending_iff := by
    rw [hext, hpc]
    constructor
    · rintro (hp | ⟨b', hb', hr⟩)
      · exact ⟨b, by rwa [Function.update_self]⟩
      · exact ⟨b', by rwa [Function.update_of_ne hb']⟩
    · rintro ⟨b', hr⟩
      rw [Function.update_apply] at hr
      split at hr
      · exact .inl hr
      · rename_i hb'
        exact .inr ⟨b', hb', hr⟩
  unique b₁ b₂ h₁ h₂ := by
    rw [hpc, Function.update_apply] at h₁ h₂
    split at h₁ <;> split at h₂
    · rename_i e₁ e₂
      rw [e₁, e₂]
    · rename_i e₁ e₂
      cases (hone h₁ b₂ e₂).symm.trans h₂
    · rename_i e₁ e₂
      cases (hone h₂ b₁ e₁).symm.trans h₁
    · exact h.unique b₁ b₂ h₁ h₂
  trusted := htrusted
  locked := hlocked

lemma others (h : Inv s) (hb : (s.pc b).inRegion = true) {b'} (hb' : b' ≠ b) :
    (s.pc b').inRegion = false := by
  by_contra hr
  exact hb' (h.unique b' b (Bool.not_eq_false _ ▸ hr) hb)

lemma stay (h : Inv s) (hpc : t.pc = Function.update s.pc b p)
    (hregion : p.inRegion = (s.pc b).inRegion)
    (hfiles : ∀ k, s.files.present k = true → t.files.present k = true)
    (hrec : t.recorded = s.recorded) (hext : t.extending = s.extending)
    (hcorrupt : t.corrupt = s.corrupt)
    (hlock : t.lock ≠ none → s.lock ≠ none ∨ s.corrupt = true) (hfit : t.Fits p) : Inv t := by
  refine h.update hpc hfiles (le_of_eq hrec.symm) ?_ hcorrupt hfit ?_ ?_ ?_ ?_
  · rw [hrec]
    exact fun k hk => hfiles k (h.present k hk)
  · rw [hext, h.extending_iff, hregion]
    constructor
    · rintro ⟨b', hb'⟩
      by_cases hbb : b' = b
      · exact .inl (hbb ▸ hb')
      · exact .inr ⟨b', hbb, hb'⟩
    · rintro (hb | ⟨b', _, hb'⟩)
      · exact ⟨b, hb⟩
      · exact ⟨b', hb'⟩
  · intro hp b' hb'
    exact h.others (hregion ▸ hp) hb'
  · rw [hext, hcorrupt]
    exact h.trusted
  · rw [hcorrupt]
    exact fun hne => (hlock hne).elim h.locked id

lemma exit (h : Inv s) (hpc : t.pc = Function.update s.pc b p) (hregion : (s.pc b).inRegion = true)
    (hp : p.inRegion = false) (hfiles : t.files = s.files) (hrec : s.recorded ≤ t.recorded)
    (hpresent : ∀ k < t.recorded, s.files.present k = true) (hext : t.extending = false)
    (hcorrupt : t.corrupt = s.corrupt) (hlock : t.lock = s.lock) (hfit : t.Fits p) : Inv t := by
  refine h.update hpc (fun k hk => hfiles ▸ hk) hrec (fun k hk => hfiles ▸ hpresent k hk) hcorrupt
    hfit ?_ ?_ ?_ ?_
  · rw [hext, hp]
    refine iff_of_false nofun ?_
    rintro (⟨⟨⟩⟩ | ⟨b', hb', hr⟩)
    cases (h.others hregion hb').symm.trans hr
  · rw [hp]
    exact nofun
  · rw [hext]
    exact nofun
  · rw [hlock, hcorrupt]
    exact h.locked

end Inv

/-! ### Steps -/

section Prepare

variable {s : State} {e : Entry}

lemma view_of_missing (h : prepare s = .missing) : s.view = none := by
  unfold prepare at h
  split at h
  · assumption
  · split at h <;> cases h

lemma view_of_corrupt (h : prepare s = .corrupt e) : s.view = some e ∧ e.corrupt = true := by
  unfold prepare at h
  split at h
  · cases h
  · split at h
    · cases h
      exact ⟨‹_›, ‹_›⟩
    · cases h

lemma view_of_ready (h : prepare s = .ready e) : s.view = some e ∧ e.corrupt = false := by
  unfold prepare at h
  split at h
  · cases h
  · split at h
    · cases h
    · rename_i hcorrupt
      cases h
      exact ⟨‹_›, Bool.not_eq_true _ ▸ hcorrupt⟩

lemma recorded_of_view (h : s.view = some e) : s.recorded = e.capacity := by
  rw [State.recorded, h]

lemma extending_of_view (h : s.view = some e) : s.extending = e.extending := by
  rw [State.extending, h]

lemma corrupt_of_view (h : s.view = some e) : s.corrupt = e.corrupt := by
  rw [State.corrupt, h]

lemma extending_eq_false (h : s.entry = none) : s.extending = false := by
  rw [State.extending, State.view, h, Option.none_or]
  cases s.sector <;> rfl

end Prepare

namespace Inv

variable {s t : State} {b n : ℕ} {p : Pc}

variable (h : Inv s)
include h

lemma fitsAt (hpc : s.pc b = p) : s.Fits p := hpc ▸ h.fits b

lemma goto (hregion : p.inRegion = (s.pc b).inRegion) (hfit : s.Fits p) : Inv (s.goto b p) :=
  h.stay rfl hregion (fun _ hk => hk) rfl rfl rfl .inl hfit

lemma enter (inRecovery error) (hpc : s.pc b = .retry n) : Inv (enter inRecovery s b n error) := by
  have hout : (s.pc b).inRegion = false := by rw [hpc]; rfl
  unfold Materialize.enter
  split
  · exact h.goto hout.symm trivial
  split
  · split <;> exact h.goto hout.symm trivial
  · rename_i e hp
    obtain ⟨hview, hcorrupt⟩ := view_of_corrupt hp
    refine h.stay rfl hout.symm (fun _ hk => hk) (recorded_of_view hview).symm
      (extending_of_view hview).symm (corrupt_of_view hview).symm (fun _ => .inr ?_) trivial
    rw [corrupt_of_view hview, hcorrupt]
  · rename_i e hp
    obtain ⟨hview, hcorrupt⟩ := view_of_ready hp
    have hrec := recorded_of_view hview
    have hext := extending_of_view hview
    split
    · rename_i hle
      exact h.stay rfl hout.symm (fun _ hk => hk) hrec.symm hext.symm
        (corrupt_of_view hview).symm .inl hle
    split
    · exact h.stay rfl hout.symm (fun _ hk => hk) hrec.symm hext.symm
        (corrupt_of_view hview).symm .inl hcorrupt
    · rename_i hlt hclear
      have hnobody : ∀ b', (s.pc b').inRegion = false := by
        intro b'
        by_contra hr
        have hset := h.extending_iff.mpr ⟨b', Bool.not_eq_false _ ▸ hr⟩
        exact hclear (hext.symm.trans hset)
      refine h.update rfl (fun _ hk => hk) (le_of_eq hrec) ?_ (corrupt_of_view hview).symm
        ?_ ?_ ?_ ?_ ?_
      · exact fun k hk => h.present k (hrec ▸ hk)
      · exact ⟨le_refl n, Nat.le_of_not_le hlt, fun k hk => h.present k (hrec ▸ hk)⟩
      · exact iff_of_true rfl (.inl rfl)
      · exact fun _ b' _ => hnobody b'
      · exact fun _ => hcorrupt
      · exact fun hne => (corrupt_of_view hview).symm.trans (h.locked hne)

lemma settle {desired blk} (error) (hpc : s.pc b = .scan n desired blk) (hblk : ¬ blk < desired) :
    Inv (settle s b n desired error) := by
  have hin : (s.pc b).inRegion = true := by rw [hpc]; rfl
  obtain ⟨hn, hle, hbefore⟩ := h.fitsAt hpc
  have hset := h.extending_iff.mpr ⟨b, hin⟩
  have hthrow : Inv ((s.throw b).goto b (.handler n)) :=
    h.stay rfl hin.symm (fun _ hk => hk) rfl rfl rfl .inl trivial
  unfold Materialize.settle
  split
  · exact hthrow
  split
  · exact hthrow
  · rename_i e hp
    obtain ⟨hview, hcorrupt⟩ := view_of_corrupt hp
    have htrusted := h.trusted hset
    rw [corrupt_of_view hview, hcorrupt] at htrusted
    cases htrusted
  · rename_i e hp
    obtain ⟨hview, hcorrupt⟩ := view_of_ready hp
    have hrec := recorded_of_view hview
    have hext := extending_of_view hview
    have hbelow : ∀ k < max desired e.capacity, s.files.present k = true := by
      intro k hk
      by_cases hlt : k < desired
      · exact hbefore k (lt_of_lt_of_le hlt (le_of_not_gt hblk))
      · exact h.present k (by omega)
    have hcurrent : (if e.capacity < desired then desired else e.capacity) =
        max desired e.capacity := by
      split <;> omega
    simp only [hcurrent]
    split
    · refine h.exit rfl hin rfl rfl ?_ hbelow rfl (corrupt_of_view hview).symm rfl ?_
      · exact hrec ▸ le_max_right ..
      · exact hn.trans (le_max_left ..)
    · rename_i hmore
      refine h.update rfl (fun _ hk => hk) ?_ hbelow (corrupt_of_view hview).symm ?_ ?_ ?_ ?_ ?_
      · exact hrec ▸ le_max_right ..
      · exact ⟨hn.trans (le_max_left ..), Nat.le_of_not_le hmore, hbelow⟩
      · exact iff_of_true (hext.symm.trans hset) (.inl rfl)
      · exact fun _ b' hb' => h.others hin hb'
      · exact fun _ => hcorrupt
      · exact fun hne => (corrupt_of_view hview).symm.trans (h.locked hne)

lemma handle (hpc : s.pc b = .handler n) : Inv (handle s b n) := by
  have hin : (s.pc b).inRegion = true := by rw [hpc]; rfl
  have hset := h.extending_iff.mpr ⟨b, hin⟩
  unfold Materialize.handle
  split
  · rename_i e he
    have hview : s.view = some e := by rw [State.view, he]; rfl
    have hrec := recorded_of_view hview
    refine h.exit rfl hin rfl rfl (le_of_eq hrec) ?_ rfl (corrupt_of_view hview).symm rfl trivial
    exact fun k hk => h.present k (hrec ▸ hk)
  · rename_i he
    cases (extending_eq_false he).symm.trans hset

lemma move {inRecovery e} (hmove : Move inRecovery s e t) (hlive : ∀ b, e ≠ .catchDead b) :
    Inv t := by
  cases hmove with
  | callZero hpc =>
    exact h.stay rfl (by rw [hpc]; rfl) (fun _ hk => hk) rfl rfl rfl .inl (Nat.zero_le _)
  | call hpc => exact h.stay rfl (by rw [hpc]; rfl) (fun _ hk => hk) rfl rfl rfl .inl trivial
  | loadError hpc | loadMissing hpc | loadCached hpc _ | interrupt hpc | wake hpc
  | leaveReturned hpc => exact h.goto (by rw [hpc]; rfl) trivial
  | loadNew hpc hview =>
    exact h.stay rfl (by rw [hpc]; rfl) (fun _ hk => hk) (recorded_of_view hview).symm
      (extending_of_view hview).symm (corrupt_of_view hview).symm .inl trivial
  | enter hpc => exact h.enter _ _ hpc
  | probeError hpc | extendError hpc =>
    exact h.stay rfl (by rw [hpc]; rfl) (fun _ hk => hk) rfl rfl rfl .inl trivial
  | found hpc hblk hfound =>
    obtain ⟨hn, _, hbefore⟩ := h.fitsAt hpc
    refine h.stay rfl (by rw [hpc]; rfl) (fun _ hk => hk) rfl rfl rfl .inl
      ⟨hn, hblk, fun k hk => ?_⟩
    rcases Nat.lt_succ_iff_lt_or_eq.mp hk with hk | rfl
    · exact hbefore k hk
    · exact present_of_blockExists hfound
  | absent hpc hblk =>
    obtain ⟨hn, _, hbefore⟩ := h.fitsAt hpc
    exact h.stay rfl (by rw [hpc]; rfl) (fun _ hk => hk) rfl rfl rfl .inl ⟨hn, hblk, hbefore⟩
  | extend hpc =>
    obtain ⟨hn, hblk, hbefore⟩ := h.fitsAt hpc
    refine h.stay rfl (by rw [hpc]; rfl) (fun k hk => Files.present_zero hk) rfl rfl rfl .inl
      ⟨hn, hblk, fun k hk => ?_⟩
    rcases Nat.lt_succ_iff_lt_or_eq.mp hk with hk | rfl
    · exact Files.present_zero (hbefore k hk)
    · exact Files.present_zero_self
  | settle hpc hblk => exact h.settle _ hpc hblk
  | handle hpc => exact h.handle hpc
  | leaveRaised hpc =>
    refine h.stay rfl (by rw [hpc]; rfl) (fun _ hk => hk) rfl rfl rfl (fun hne => .inl ?_) trivial
    intro hnone
    exact hne (by simp [State.goto, State.throw, State.releaseAll, hnone])
  | catchDead => exact absurd rfl (hlive _)
  | protect | restore =>
    exact ⟨h.present, fun b => (h.fits b).mono (fun _ => id) le_rfl rfl, h.extending_iff, h.unique,
      h.trusted, h.locked⟩

end Inv

/-! ### What no step does -/

section Frame

variable {inRecovery : Bool} {s t : State} {e : Event}

lemma enter_spec (inRecovery error s b n) :
    (∃ p, (enter inRecovery s b n error).pc = Function.update s.pc b p) ∧
      (enter inRecovery s b n error).recorded = s.recorded ∧
      (enter inRecovery s b n error).corrupt = s.corrupt := by
  unfold enter
  split
  · exact ⟨⟨_, rfl⟩, rfl, rfl⟩
  split
  · split <;> exact ⟨⟨_, rfl⟩, rfl, rfl⟩
  · obtain ⟨hview, _⟩ := view_of_corrupt ‹_›
    exact ⟨⟨_, rfl⟩, (recorded_of_view hview).symm, (corrupt_of_view hview).symm⟩
  · obtain ⟨hview, _⟩ := view_of_ready ‹_›
    split
    · exact ⟨⟨_, rfl⟩, (recorded_of_view hview).symm, (corrupt_of_view hview).symm⟩
    split <;> exact ⟨⟨_, rfl⟩, (recorded_of_view hview).symm, (corrupt_of_view hview).symm⟩

lemma settle_spec (s b n desired error) :
    (∃ p, (settle s b n desired error).pc = Function.update s.pc b p) ∧
      s.recorded ≤ (settle s b n desired error).recorded ∧
      (settle s b n desired error).corrupt = s.corrupt := by
  unfold settle
  split
  · exact ⟨⟨_, rfl⟩, le_rfl, rfl⟩
  split
  · exact ⟨⟨_, rfl⟩, le_rfl, rfl⟩
  · obtain ⟨hview, _⟩ := view_of_corrupt ‹_›
    exact ⟨⟨_, rfl⟩, le_of_eq (recorded_of_view hview), (corrupt_of_view hview).symm⟩
  · rename_i e hready
    obtain ⟨hview, _⟩ := view_of_ready hready
    have hle : s.recorded ≤ if e.capacity < desired then desired else e.capacity := by
      rw [recorded_of_view hview]
      split <;> omega
    generalize (if e.capacity < desired then desired else e.capacity) = current at hle ⊢
    simp only
    split <;> exact ⟨⟨_, rfl⟩, hle, (corrupt_of_view hview).symm⟩

lemma handle_spec (s b n) : (handle s b n).pc = Function.update s.pc b (.raised n) ∧
      (handle s b n).recorded = s.recorded ∧ (handle s b n).corrupt = s.corrupt ∧
      (handle s b n).extending = false := by
  unfold handle
  split
  · rename_i e he
    have hview : s.view = some e := by rw [State.view, he]; rfl
    exact ⟨rfl, (recorded_of_view hview).symm, (corrupt_of_view hview).symm, rfl⟩
  · exact ⟨rfl, rfl, rfl, extending_eq_false ‹_›⟩

lemma catchDead_spec (s b n) : (∃ p, (catchDead s b n).pc = Function.update s.pc b p) ∧
      (catchDead s b n).recorded = s.recorded ∧ (catchDead s b n).corrupt = s.corrupt := by
  unfold catchDead
  split
  · exact ⟨⟨_, rfl⟩, rfl, rfl⟩
  · obtain ⟨hpc, hrec, hcorrupt, -⟩ := handle_spec (s.throw b) b n
    exact ⟨⟨_, hpc⟩, hrec, hcorrupt⟩

section
variable (h : Move inRecovery s e t) {b : ℕ}
include h

lemma Move.exists_pc_eq : ∃ p, t.pc = Function.update s.pc e.backend p := by
  cases h with
  | enter => exact (enter_spec ..).1
  | settle => exact (settle_spec ..).1
  | handle => exact ⟨_, (handle_spec ..).1⟩
  | catchDead => exact (catchDead_spec ..).1
  | protect | restore => exact ⟨_, (Function.update_eq_self _ _).symm⟩
  | _ => exact ⟨_, rfl⟩

lemma Move.pc_eq_of_ne (hb : e.backend ≠ b) : t.pc b = s.pc b := by
  obtain ⟨p, hp⟩ := h.exists_pc_eq
  rw [hp, Function.update_of_ne hb.symm]

lemma Move.recorded_le : s.recorded ≤ t.recorded := by
  cases h with
  | loadNew hpc hview => exact le_of_eq (recorded_of_view hview)
  | enter => exact le_of_eq (enter_spec ..).2.1.symm
  | settle => exact (settle_spec ..).2.1
  | handle => exact le_of_eq (handle_spec ..).2.1.symm
  | catchDead => exact le_of_eq (catchDead_spec ..).2.1.symm
  | _ => exact le_rfl

lemma Move.corrupt_eq : t.corrupt = s.corrupt := by
  cases h with
  | loadNew hpc hview => exact (corrupt_of_view hview).symm
  | enter => exact (enter_spec ..).2.2
  | settle => exact (settle_spec ..).2.2
  | handle => exact (handle_spec ..).2.2.1
  | catchDead => exact (catchDead_spec ..).2.2
  | _ => rfl

variable {n : ℕ} (hb : e.backend = b)
include hb

lemma Move.at_handler (hpc : s.pc b = .handler n) : t = Materialize.handle s b n := by
  subst hb
  have hstands := h.stands
  rw [hpc] at hstands
  cases h with
  | handle hpc' =>
    cases hpc.symm.trans hpc'
    rfl
  | _ => cases hstands

lemma Move.at_sleep (hpc : s.pc b = .sleep n) :
    t = s.goto b (.raised n) ∨ t = s.goto b (.retry n) := by
  subst hb
  have hstands := h.stands
  rw [hpc] at hstands
  cases h with
  | interrupt hpc' =>
    cases hpc.symm.trans hpc'
    exact .inl rfl
  | wake hpc' =>
    cases hpc.symm.trans hpc'
    exact .inr rfl
  | _ => cases hstands

lemma Move.at_retry (hpc : s.pc b = .retry n) : ∃ error, e = .enter b error := by
  subst hb
  have hstands := h.stands
  rw [hpc] at hstands
  cases h with
  | enter => exact ⟨_, rfl⟩
  | _ => cases hstands

end

end Frame

/-! ### The protocol -/

structure Start (s : State) : Prop where
  idle : ∀ b, s.pc b = .idle
  unlocked : s.lock = none
  not_extending : s.extending = false
  present : ∀ k < s.recorded, s.files.present k = true

lemma Start.inv {s} (h : Start s) : Inv s where
  present := h.present
  fits b := by
    rw [h.idle]
    trivial
  extending_iff := by
    refine iff_of_false (by rw [h.not_extending]; exact nofun) ?_
    rintro ⟨b, hb⟩
    rw [h.idle] at hb
    cases hb
  unique b b' hb := by
    rw [h.idle] at hb
    cases hb
  trusted hset := by
    rw [h.not_extending] at hset
    cases hset
  locked hne := absurd h.unlocked hne

/-- No error arrives in the handler that a call has left active. -/
def LiveHandlers (_ : State) (e : Event) : Prop := e ≠ .catchDead e.backend

instance (s : State) (e : Event) : Decidable (LiveHandlers s e) :=
  inferInstanceAs (Decidable (e ≠ _))

lemma LiveHandlers.ne {s : State} {e : Event} (h : LiveHandlers s e) (b : ℕ) :
    e ≠ .catchDead b := by
  rintro rfl
  exact h rfl

lemma Inv.of_reaches {inRecovery : Bool} {s₀ s : State} (h₀ : Start s₀)
    (h : (backends inRecovery).Reaches LiveHandlers s₀ s) : Inv s :=
  h.invariant h₀.inv fun hinv hok hstep => hinv.move (.of_step hstep) hok.ne

section Fair

variable {inRecovery : Bool} {E : (backends inRecovery).Execution}

lemma exists_step_at (hinv : ∀ n, Inv (E.state n)) {b} (hfair : E.WeaklyFair (·.backend = b)) {p}
    (e) (he : e.backend = b)
    (henabled : ∀ s : State, Inv s → s.pc b = p → s.corrupt = false → (backends inRecovery).step s e
      ≠ none) {n} (hpc : (E.state n).pc b = p) (hcorrupt : (E.state n).corrupt = false) :
    ∃ m ≥ n, (E.state m).pc b = p ∧ (E.state m).corrupt = false ∧ (E.event m).backend = b := by
  have hlasts := System.Execution.exists_taken hfair
    (P := fun s => s.pc b = p ∧ s.corrupt = false) ?_ ?_ ⟨hpc, hcorrupt⟩
  · obtain ⟨m, hm, hP, hb⟩ := hlasts
    exact ⟨m, hm, hP.1, hP.2, hb⟩
  · rintro m ⟨hp, hc⟩
    exact ⟨e, he, henabled _ (hinv m) hp hc⟩
  · rintro m ⟨hp, hc⟩ hb
    have hmove := Move.of_step (E.step m)
    exact ⟨(hmove.pc_eq_of_ne hb).trans hp, hmove.corrupt_eq.trans hc⟩

lemma lock_eq_none {s} (h : Inv s) (hcorrupt : s.corrupt = false) : s.lock = none := by
  by_contra hne
  cases hcorrupt.symm.trans (h.locked hne)

variable {b n k : ℕ} (hinv : ∀ n, Inv (E.state n)) (hfair : E.WeaklyFair (·.backend = b))
include hinv hfair

lemma exists_cleared (hpc : (E.state n).pc b = .handler k) :
    ∃ m ≥ n, (E.state m).extending = false ∧ (E.state m).pc b = .raised k := by
  have htrusted : (E.state n).corrupt = false :=
    (hinv n).trusted ((hinv n).extending_iff.mpr ⟨b, by rw [hpc]; rfl⟩)
  obtain ⟨m, hm, hpc, _, hb⟩ := exists_step_at hinv hfair (.handle b) rfl (fun s hs hpc hc => by
    simp [backends, step, hpc, lock_eq_none hs hc]) hpc htrusted
  obtain ⟨hpc', _, _, hext⟩ := handle_spec (E.state m) b k
  rw [← (Move.of_step (E.step m)).at_handler hb hpc] at hpc' hext
  exact ⟨m + 1, Nat.le_succ_of_le hm, hext, by rw [hpc', Function.update_self]⟩

lemma exists_retried (hpc : (E.state n).pc b = .sleep k) :
    ∃ m ≥ n, (E.state m).pc b = .raised k ∨
      (E.state m).pc b = .retry k ∧ ∃ error, E.event m = .enter b error := by
  have htrusted : (E.state n).corrupt = false := by
    have hfits := (hinv n).fits b
    rwa [hpc] at hfits
  obtain ⟨m, hm, hpc, htrusted, hb⟩ := exists_step_at hinv hfair (.wake b false) rfl
    (fun s _ hpc _ => by simp [backends, step, hpc]) hpc htrusted
  have hmove := Move.of_step (E.step m)
  rcases hmove.at_sleep hb hpc with ht | ht
  · exact ⟨m + 1, Nat.le_succ_of_le hm, .inl (by rw [ht, State.goto_pc_self])⟩
  · have hretry : (E.state (m + 1)).pc b = .retry k := by rw [ht, State.goto_pc_self]
    obtain ⟨m', hm', hpc', _, hb'⟩ := exists_step_at hinv hfair (.enter b false) rfl
      (fun s hs hpc hc => by simp [backends, step, hpc, lock_eq_none hs hc]) hretry
      (hmove.corrupt_eq.trans htrusted)
    exact ⟨m', (Nat.le_succ_of_le hm).trans hm',
      .inr ⟨hpc', (Move.of_step (E.step m')).at_retry hb' hpc'⟩⟩

end Fair

/-- At most one backend is in the region that the flag protects, and the flag is set exactly then;
every block on record is there; no step lowers the capacity; and in a fair execution nobody waits
forever. All this as long as no error arrives in the handler of a call that has returned. -/
theorem materialization_protocol (inRecovery : Bool) {s₀ : State} (h₀ : Start s₀) :
    (∀ s, (backends inRecovery).Reaches LiveHandlers s₀ s →
      (∀ b b', (s.pc b).inRegion = true → (s.pc b').inRegion = true → b = b') ∧
      (s.extending = true ↔ ∃ b, (s.pc b).inRegion = true) ∧
      (∀ b n, s.pc b = .returned n true →
        n ≤ s.recorded ∧ ∀ k < s.recorded, s.files.present k = true) ∧
      ∀ e t, (backends inRecovery).step s e = some t → s.recorded ≤ t.recorded) ∧
    ∀ E : (backends inRecovery).Execution, E.state 0 = s₀ →
      (∀ n, LiveHandlers (E.state n) (E.event n)) → (∀ b, E.WeaklyFair (·.backend = b)) →
      (∀ n b k, (E.state n).pc b = .handler k →
        ∃ m ≥ n, (E.state m).extending = false ∧ (E.state m).pc b = .raised k) ∧
      ∀ n b k, (E.state n).pc b = .sleep k → ∃ m ≥ n, (E.state m).pc b = .raised k ∨
          (E.state m).pc b = .retry k ∧ ∃ error, E.event m = .enter b error := by
  refine ⟨fun s hs => ?_, fun E hE hlive hfair => ?_⟩
  · have h := Inv.of_reaches h₀ hs
    refine ⟨h.unique, h.extending_iff, fun b n hpc => ⟨?_, h.present⟩, fun e t ht => ?_⟩
    · have hfits := h.fits b
      rwa [hpc] at hfits
    · exact (Move.of_step ht).recorded_le
  · have hinv : ∀ n, Inv (E.state n) := fun n => Inv.of_reaches h₀ (hE ▸ E.reaches hlive n)
    exact ⟨fun n b k hpc => exists_cleared hinv (hfair b) hpc,
      fun n b k hpc => exists_retried hinv (hfair b) hpc⟩

def untouched : State where
  sector := .ok 0
  entry := none
  lock := none
  files _ := none
  ctx _ := ⟨0, fun _ => false⟩
  pc _ := .idle
  handlers _ := []
  atEntry _ := []
  frames := 0

lemma untouched_start : Start untouched :=
  ⟨fun _ => rfl, rfl, rfl, fun k hk => absurd hk (Nat.not_lt_zero k)⟩

def twoCalls : List Event :=
  [.call 0 1, .load 0 false, .enter 0 false, .call 1 2, .load 1 false, .enter 1 false,
    .probe 0 false, .extend 0 false, .settle 0 false, .probe 0 false, .extend 0 false,
    .settle 0 false]

theorem materialization_protocol_untouched :
    let s := ((backends false).restrict LiveHandlers).after untouched twoCalls
    Start untouched ∧
      (((backends false).restrict LiveHandlers).run untouched twoCalls).isSome = true ∧
      s.pc 0 = .returned 1 true ∧ s.pc 1 = .sleep 2 ∧ s.recorded = 2 ∧
      1 ≤ s.recorded ∧ ∀ k < s.recorded, s.files.present k = true := by
  have hsome : (((backends false).restrict LiveHandlers).run untouched twoCalls).isSome = true :=
    rfl
  refine ⟨untouched_start, hsome, rfl, rfl, rfl, ?_⟩
  exact ((materialization_protocol false untouched_start).1 _ (.of_isSome hsome)).2.2.1 0 1 rfl

/-- Backend 0 has extended and waits in a second call while backend 1 extends; it is interrupted. -/
def interruptedWaiter : List Event :=
  [.call 0 1, .load 0 false, .enter 0 false, .probe 0 false, .extend 0 false, .settle 0 false,
    .leave 0, .call 1 2, .load 1 false, .enter 1 false, .call 0 2, .load 0 false, .enter 0 false,
    .wake 0 true, .catchDead 0, .call 2 2, .load 2 false, .enter 2 false]

/-- Its error arrives in the handler of the first call, which clears the flag of backend 1; then
backend 2 extends as well. -/
theorem two_backends_extend :
    ((backends false).run untouched interruptedWaiter).map (fun t => (t.pc 0, t.pc 1, t.pc 2)) =
      some (.raised 2, .scan 2 2 1, .scan 2 2 1) :=
  rfl

end Umbra.Materialize
