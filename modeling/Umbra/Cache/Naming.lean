import Umbra.Cache.Exclusion
import Mathlib.Data.Fintype.Card

/-!
# Tags, the hash table and pins

The hash table and the tags of the buffers are inverse to each other save for the buffer that a
process is replacing at the time. A buffer that `MapReadBuffer` has returned keeps its page: it is
pinned, and a page is only replaced while its buffer has a single pin (`Pinned`, `Named`).
-/

namespace Umbra.Cache

open Foundation Function State

variable {n m k : Nat} {ρ : Type}

namespace Pc

variable {pc : Pc m ρ} {tag : PageTag ρ} {i : Fin m}

lemma pinned_of_relying (h : pc.relying = some (tag, i)) : pc.pinned = some i := by
  cases pc <;> cases h <;> rfl

lemma replacing_of_inserting (h : pc.inserting = some (tag, i)) : pc.replacing = some i := by
  cases pc <;> cases h <;> rfl

lemma replacing_of_naming (h : pc.naming = some (tag, i)) : pc.replacing = some i := by
  cases pc <;> cases h <;> rfl

lemma naming_of_installing (h : pc.installing = some i) : ∃ tag, pc.naming = some (tag, i) := by
  cases pc <;> cases h
  exact ⟨_, rfl⟩

lemma replacing_of_installing (h : pc.installing = some i) : pc.replacing = some i := by
  obtain ⟨tag, htag⟩ := naming_of_installing h
  exact replacing_of_naming htag

end Pc

namespace State

def pinners (s : State n m k ρ) (i : Fin m) : Finset (Fin n) :=
  {p | (s.pcs p).pinned = some i}

variable {s : State n m k ρ} {p : Fin n}

lemma mem_pinners {i} : p ∈ s.pinners i ↔ (s.pcs p).pinned = some i := by
  simp [pinners]

lemma pinners_goto {pc j} (hpin : pc.pinned = some j ↔ (s.pcs p).pinned = some j) :
    (s.goto p pc).pinners j = s.pinners j := by
  ext q
  rw [mem_pinners, mem_pinners]
  exact forall_goto (P := fun q pc => pc.pinned = some j ↔ (s.pcs q).pinned = some j) hpin
    (fun _ _ => Iff.rfl) q

end State

def Pinned (s : State n m k ρ) : Prop := ∀ i, (s.pinners i).card = (s.word i).refcount.val

lemma pinned_init (file nblocks logical) : Pinned (init file nblocks logical : State n m k ρ) := by
  intro i
  refine Finset.card_eq_zero.mpr ?_
  ext p
  simp [mem_pinners, init, Pc.pinned]

namespace Pinned

variable {s t : State n m k ρ} {p : Fin n} {i : Fin m}

variable {old pc : Pc m ρ} {w : Word}

variable (h : Pinned s)
include h

lemma of_frame (hpcs : t.pcs = (s.goto p pc).pcs) (hpc : s.pcs p = old)
    (hpin : pc.pinned = old.pinned) (hword : ∀ j, (t.word j).refcount = (s.word j).refcount) :
    Pinned t := by
  subst hpc
  intro j
  have hpinners : t.pinners j = (s.goto p pc).pinners j := by
    rw [pinners, pinners, hpcs]
  rw [hpinners, pinners_goto (by rw [hpin]), hword]
  exact h j

lemma goto (hpc : s.pcs p = old) (hpin : pc.pinned = old.pinned) : Pinned (s.goto p pc) :=
  h.of_frame rfl hpc hpin fun _ => rfl

lemma setWord (hpc : s.pcs p = old) (hpin : pc.pinned = old.pinned)
    (hw : w.refcount = (s.word i).refcount) : Pinned ((s.setWord i w).goto p pc) := by
  exact h.of_frame rfl hpc hpin (forall_setWord
    (P := fun j w => w.refcount = (s.word j).refcount) hw fun _ _ => rfl)

lemma repin (hother : ∀ j ≠ i, pc.pinned = some j ↔ (s.pcs p).pinned = some j)
    (hself : ((s.goto p pc).pinners i).card = w.refcount.val) :
    Pinned ((s.setWord i w).goto p pc) := by
  intro j
  rcases eq_or_ne j i with rfl | hne
  · exact hself.trans (congrArg (fun w => w.refcount.val) (s.word_setWord_self j w).symm)
  · have hpinners : (s.goto p pc).pinners j = s.pinners j := pinners_goto (hother j hne)
    refine (congrArg Finset.card hpinners).trans ((h j).trans ?_)
    exact congrArg (fun w => w.refcount.val) (s.word_setWord_of_ne _ hne).symm

lemma pin (hlt : (s.word i).refcount.val + 1 < 512) (hold : (s.pcs p).pinned = none)
    (hnew : pc.pinned = some i) : Pinned ((s.setWord i ((s.word i).add 1)).goto p pc) := by
  have hnot : p ∉ s.pinners i := by
    rw [mem_pinners, hold]
    nofun
  have hpinners : (s.goto p pc).pinners i = insert p (s.pinners i) := by
    ext q
    rw [mem_pinners, Finset.mem_insert, mem_pinners]
    refine forall_goto
      (P := fun q pc => pc.pinned = some i ↔ q = p ∨ (s.pcs q).pinned = some i) ?_ ?_ q
    · simp [hnew]
    · intro q hq
      simp [hq]
  refine h.repin (fun j hne => by simp [hnew, hold, hne.symm]) ?_
  rw [hpinners, Word.add_one hlt, Finset.card_insert_of_notMem hnot, h i]

lemma unpin (hlt : 0 < (s.word i).refcount.val) (hold : (s.pcs p).pinned = some i)
    (hnew : pc.pinned = none) : Pinned ((s.setWord i ((s.word i).sub 1)).goto p pc) := by
  have hpinners : (s.goto p pc).pinners i = (s.pinners i).erase p := by
    ext q
    rw [mem_pinners, Finset.mem_erase, mem_pinners]
    refine forall_goto
      (P := fun q pc => pc.pinned = some i ↔ q ≠ p ∧ (s.pcs q).pinned = some i) ?_ ?_ q
    · simp [hnew]
    · intro q hq
      simp [hq]
  refine h.repin (fun j hne => by simp [hnew, hold, hne.symm]) ?_
  rw [hpinners, Word.sub_one hlt, Finset.card_erase_of_mem (mem_pinners.mpr hold), h i]

lemma eq_of_refcount {q} (hp : (s.pcs p).pinned = some i) (hq : (s.pcs q).pinned = some i)
    (hone : (s.word i).refcount.val = 1) : p = q := by
  have hcard : (s.pinners i).card ≤ 1 := (h i).trans hone |>.le
  exact Finset.card_le_one.mp hcard p (mem_pinners.mpr hp) q (mem_pinners.mpr hq)

end Pinned

section Places

variable {s : State n m k ρ} {p : Fin n} {e : Event n m k ρ} {pc : Pc m ρ} {tag : PageTag ρ}
  {i : Fin m}

lemma Quiet.pinned (h : Quiet s p e pc) : pc.pinned = (s.pcs p).pinned := by
  cases h with
  | @nothingToFlush i needed c hpc =>
    rw [hpc]
    cases c <;> rfl
  | call _ _ hpc | flush _ hpc | hit hpc | miss hpc | verified hpc | mismatched hpc | used hpc
  | unused hpc | lock hpc | already hpc | busy hpc | dirtyVictim hpc | replace hpc | taken hpc
  | present hpc | giveUp hpc | unlisted hpc | lookup hpc | materialized hpc | behindEnd hpc =>
    rw [hpc]
    rfl
  | @ioLock i c hpc | @nothingToWrite i c hpc =>
    rw [hpc]
    cases c <;> rfl

end Places

namespace Pinned

variable [DecidableEq ρ] {s t : State n m k ρ} {e : Event n m k ρ}

lemma step (h : Pinned s) (hfit : CountsFit s e) (hstep : machine.step s e = some t) :
    Pinned t := by
  cases Move.of_step hstep with
  | quiet hq => exact h.goto rfl hq.pinned
  | survey hq => exact h.goto rfl (hq.bare.2.pinned.trans hq.bare.1.pinned.symm)
  | pinFound hpc hlt hnext =>
    rcases hnext with rfl | rfl <;> exact h.pin hlt (by rw [hpc]; rfl) rfl
  | raise hpc =>
    rw [Word.add_usage (hfit.raise hpc)]
    exact h.setWord hpc rfl rfl
  | decrement hpc =>
    rw [Word.sub_usage (hfit.decrement hpc)]
    exact h.setWord hpc rfl rfl
  | pinChosen hpc hlt => exact h.pin hlt (by rw [hpc]; rfl) rfl
  | insert hpc | delete hpc | publish hpc => exact h.of_frame rfl hpc rfl fun _ => rfl
  | @install p tag use i page notMaterialized hpc =>
    have hword : Pinned ((s.setWord i { s.word i with
        usage := (s.word i).usage ||| 1
        notMaterialized := notMaterialized }).goto p (.returned tag use i)) :=
      h.setWord hpc rfl rfl
    exact hword
  | insideFile hpc | mark hpc | scanMark hpc => exact h.setWord hpc rfl rfl
  | @extend p tag i nblocks hpc =>
    have hword : Pinned ((s.setWord i { s.word i with notMaterialized := false }).goto p
        (.mark tag i)) := h.setWord hpc rfl rfl
    exact hword
  | retry hpc hlt => exact h.unpin hlt (by rw [hpc]; rfl) rfl
  | unpin hpc hlt => exact h.unpin hlt (by rw [hpc]; rfl) rfl
  | @startIo p i needed c hpc => exact h.setWord hpc (by cases c <;> rfl) rfl
  | @write p tag i c hpc => exact h.of_frame rfl hpc (by cases c <;> rfl) fun _ => rfl
  | @terminate p i c hpc => exact h.setWord hpc (by cases c <;> rfl) rfl
  | @flushSuper p pages c rnode rest hpc =>
    obtain ⟨supers, superWrites, heq⟩ := s.flushSuper_frame rnode
    rw [heq]
    exact h.of_frame rfl hpc rfl fun _ => rfl
  | _ => exact h

end Pinned

def State.Holds (s : State n m k ρ) (tag : PageTag ρ) (i : Fin m) : Prop :=
  s.tag i = some tag ∧ s.hash tag = some i

/-- Hash table entries and tags agree, but for a replacement that is under way. -/
structure Named (s : State n m k ρ) : Prop where
  unshared : ∀ p q tag i, p ≠ q → (s.pcs p).replacing = some i → (s.pcs q).relying ≠ some (tag, i)
  holds : ∀ p tag i, (s.pcs p).relying = some (tag, i) → s.Holds tag i
  fresh : ∀ p tag i, (s.pcs p).inserting = some (tag, i) → s.tag i ≠ some tag
  named : ∀ p tag i, (s.pcs p).naming = some (tag, i) → s.hash tag = some i
  unlisted : ∀ p i, (s.pcs p).installing = some i → ∀ old, s.tag i = some old → s.hash old ≠ some i
  listed : ∀ tag i, s.hash tag = some i → s.tag i = some tag ∨ ∃ p, (s.pcs p).naming = some (tag, i)
  registered : ∀ tag i, s.tag i = some tag →
    s.hash tag = some i ∨ ∃ p, (s.pcs p).installing = some i

lemma named_init (file nblocks logical) : Named (init file nblocks logical : State n m k ρ) where
  unshared := nofun
  holds := nofun
  fresh := nofun
  named := nofun
  unlisted := nofun
  listed := nofun
  registered := nofun

namespace Named

variable {s t : State n m k ρ} {p : Fin n} {tag : PageTag ρ} {i : Fin m}

lemma of_frame (h : Named s) (hpcs : t.pcs = s.pcs) (htag : t.tag = s.tag)
    (hhash : t.hash = s.hash) : Named t := by
  obtain ⟨pcs, word, tag, page, hash⟩ := t
  cases hpcs
  cases htag
  cases hhash
  exact { h with }

variable {pc old : Pc m ρ} {e : Event n m k ρ}

section
variable (h : Named s)
include h

lemma unshared_goto
    (hreplace : ∀ i, pc.replacing = some i → (s.pcs p).replacing = some i ∨ ∀ q tag, q ≠ p → (s.pcs
      q).relying ≠ some (tag, i))
    (hrely : ∀ tag i, pc.relying = some (tag, i) → (s.pcs p).relying = some (tag, i) ∨ s.CanShare p
      i) (q r tag i) (hne : q ≠ r) (hq : ((s.goto p pc).pcs q).replacing = some i) :
    ((s.goto p pc).pcs r).relying ≠ some (tag, i) := by
  intro hr
  rcases eq_or_ne q p with rfl | hqp
  · rw [s.pcs_goto_self] at hq
    rw [s.pcs_goto_of_ne pc hne.symm] at hr
    rcases hreplace i hq with hold | hfree
    · exact h.unshared q r tag i hne hold hr
    · exact hfree r tag hne.symm hr
  · rw [s.pcs_goto_of_ne pc hqp] at hq
    rcases eq_or_ne r p with rfl | hrp
    · rw [s.pcs_goto_self] at hr
      rcases hrely tag i hr with hold | hfree
      · exact h.unshared q r tag i hne hq hold
      · exact hfree q hqp (Pc.exclusive_of_replacing hq)
    · rw [s.pcs_goto_of_ne pc hrp] at hr
      exact h.unshared q r tag i hne hq hr

lemma goto (hreplace : ∀ i, pc.replacing = some i → (s.pcs p).replacing = some i ∨
      ∀ q tag, q ≠ p → (s.pcs q).relying ≠ some (tag, i))
    (hrely : ∀ tag i, pc.relying = some (tag, i) → (s.pcs p).relying = some (tag, i) ∨
      s.Holds tag i ∧ s.CanShare p i)
    (hfresh : ∀ tag i, pc.inserting = some (tag, i) → s.tag i ≠ some tag)
    (hname : ∀ tag i, pc.naming = some (tag, i) → s.hash tag = some i)
    (hunlisted : ∀ i, pc.installing = some i → ∀ old, s.tag i = some old → s.hash old ≠ some i)
    (hnaming : ∀ x, (s.pcs p).naming = some x → pc.naming = some x)
    (hinstalling : ∀ i, (s.pcs p).installing = some i → pc.installing = some i) :
    Named (s.goto p pc) := by
  refine ⟨h.unshared_goto hreplace fun tag i hi => (hrely tag i hi).imp_right And.right,
    ?_, ?_, ?_, ?_, ?_, ?_⟩
  · intro q tag i
    refine forall_goto (P := fun _ pc => pc.relying = some (tag, i) → s.Holds tag i) ?_
      (fun q _ => h.holds q tag i) q
    intro hrelying
    rcases hrely tag i hrelying with hold | ⟨hholds, -⟩
    · exact h.holds p tag i hold
    · exact hholds
  · intro q tag i
    exact forall_goto (P := fun _ pc => pc.inserting = some (tag, i) → s.tag i ≠ some tag)
      (hfresh tag i) (fun q _ => h.fresh q tag i) q
  · intro q tag i
    exact forall_goto (P := fun _ pc => pc.naming = some (tag, i) → s.hash tag = some i)
      (hname tag i) (fun q _ => h.named q tag i) q
  · intro q i
    exact forall_goto (P := fun _ pc => pc.installing = some i →
      ∀ old, s.tag i = some old → s.hash old ≠ some i) (hunlisted i) (fun q _ => h.unlisted q i) q
  · intro tag i hhash
    exact (h.listed tag i hhash).imp_right (exists_goto Pc.naming (hnaming _))
  · intro tag i htag
    exact (h.registered tag i htag).imp_right (exists_goto Pc.installing (hinstalling _))

lemma outside (hpc : s.pcs p = old) (hold : old.naming = none) (hnew : pc.replacing = none)
    (hrely : ∀ tag i, pc.relying = some (tag, i) → old.relying = some (tag, i) ∨
      s.Holds tag i ∧ s.CanShare p i) : Named (s.goto p pc) := by
  subst hpc
  apply h.goto
  · intro i hi
    exact absurd (hnew.symm.trans hi) nofun
  · exact hrely
  · intro tag i hi
    exact absurd (hnew.symm.trans (Pc.replacing_of_inserting hi)) nofun
  · intro tag i hi
    exact absurd (hnew.symm.trans (Pc.replacing_of_naming hi)) nofun
  · intro i hi
    exact absurd (hnew.symm.trans (Pc.replacing_of_installing hi)) nofun
  · intro x hx
    exact absurd (hold.symm.trans hx) nofun
  · intro i hi
    obtain ⟨tag, htag⟩ := Pc.naming_of_installing hi
    exact absurd (hold.symm.trans htag) nofun

lemma stay (hpcs : t.pcs = (s.goto p pc).pcs) (htag : t.tag = s.tag) (hhash : t.hash = s.hash)
    (hpc : s.pcs p = old) (hold : old.naming = none) (hnew : pc.replacing = none)
    (hrely : pc.relying = old.relying ∨ pc.relying = none) : Named t := by
  refine (h.outside hpc hold hnew fun tag i hi => ?_).of_frame hpcs htag hhash
  rcases hrely with hrely | hrely
  · exact .inl (hrely.symm.trans hi)
  · exact absurd (hrely.symm.trans hi) nofun

lemma holds_of_tag (htag : s.tag i = some tag)
    (hfree : ∀ q, (s.pcs q).installing ≠ some i) : s.Holds tag i := by
  refine ⟨htag, (h.registered tag i htag).resolve_right ?_⟩
  rintro ⟨q, hq⟩
  exact hfree q hq

lemma rely (hpc : s.pcs p = old) (hold : old.naming = none)
    (hfree : s.CanShare p i) (htag : s.tag i = some tag) (hrely : pc.relying = some (tag, i))
    (hnew : pc.replacing = none) : Named (s.goto p pc) := by
  have hholds : s.Holds tag i := by
    refine h.holds_of_tag htag fun q hq => ?_
    rcases eq_or_ne q p with rfl | hne
    · obtain ⟨tag', htag'⟩ := Pc.naming_of_installing hq
      rw [hpc, hold] at htag'
      cases htag'
    · exact hfree q hne (Pc.exclusive_of_replacing (Pc.replacing_of_installing hq))
  refine h.outside hpc hold hnew fun tag' i' hi => ?_
  cases hrely.symm.trans hi
  exact .inr ⟨hholds, hfree⟩

lemma replace (hp : Pinned s) {flushed} (hpc : s.pcs p = .examine tag use i flushed)
    (htag : s.tag i ≠ some tag) (hpins : (s.word i).refcount.val = 1) :
    Named (s.goto p (.insert tag use i)) := by
  apply h.goto
  · rintro _ ⟨⟩
    refine .inr fun q tag' hne hq => hne ?_
    exact hp.eq_of_refcount (Pc.pinned_of_relying hq) (by rw [hpc]; rfl) hpins
  · nofun
  · rintro _ _ ⟨⟩
    exact htag
  · nofun
  · nofun
  · rw [hpc]
    nofun
  · rw [hpc]
    nofun

lemma quiet (hg : Guarded s) (hp : Pinned s) (hq : Quiet s p e pc) : Named (s.goto p pc) := by
  cases hq with
  | verified hpc hlock htag => exact h.rely hpc rfl hlock htag rfl rfl
  | already hpc htag =>
    refine h.rely hpc rfl (fun q hne hq => hne ?_) htag rfl rfl
    exact hg.eq_of_exclusive hq (by rw [hpc]; rfl)
  | replace hpc htag hpins => exact h.replace hp hpc htag hpins
  | @present tag use i hpc hhash =>
    apply h.goto
    · rintro _ ⟨⟩
      rw [hpc]
      exact .inl rfl
    · nofun
    · rintro _ _ ⟨⟩
      exact h.fresh p tag i (by rw [hpc]; rfl)
    · rintro _ _ ⟨⟩
      exact hhash
    · nofun
    · rw [hpc]
      nofun
    · rw [hpc]
      nofun
  | @unlisted tag use i hpc hold =>
    apply h.goto
    · rintro _ ⟨⟩
      rw [hpc]
      exact .inl rfl
    · nofun
    · nofun
    · rintro _ _ ⟨⟩
      exact h.named p tag i (by rw [hpc]; rfl)
    · rintro _ ⟨⟩
      exact hold
    · rw [hpc]
      exact fun _ hx => hx
    · rw [hpc]
      nofun
  | @nothingToFlush i needed c hpc =>
    exact h.stay rfl rfl rfl hpc rfl (by cases c <;> rfl) (.inr (by cases c <;> rfl))
  | call _ _ hpc | flush _ hpc | hit hpc | miss hpc | mismatched hpc | used hpc | unused hpc
  | lock hpc | busy hpc | dirtyVictim hpc | taken hpc | giveUp hpc | lookup hpc | ioLock hpc
  | nothingToWrite hpc => exact h.stay rfl rfl rfl hpc rfl rfl (.inr rfl)
  | materialized hpc | behindEnd hpc => exact h.stay rfl rfl rfl hpc rfl rfl (.inl rfl)

end

variable [DecidableEq ρ] {use : Use}

variable (h : Named s) (hg : Guarded s)
include h hg

lemma insert (hpc : s.pcs p = .insert tag use i) (hhash : s.hash tag = none) :
    Named ((s.setHash tag (some i)).goto p (.delete tag use i)) := by
  have hx : (s.pcs p).exclusive = some i := by rw [hpc]; rfl
  have hother : ∀ tag' j, s.hash tag' = some j →
      (s.setHash tag (some i)).hash tag' = some j := by
    rintro tag' j htag'
    have hne : tag' ≠ tag := by
      rintro rfl
      exact absurd (hhash.symm.trans htag') nofun
    exact (update_of_ne hne ..).trans htag'
  refine ⟨h.unshared_goto ?_ nofun, ?_, ?_, ?_, ?_, ?_, ?_⟩
  · rintro _ ⟨⟩
    rw [hpc]
    exact .inl rfl
  · intro q tag' j
    refine forall_goto (P := fun _ pc => pc.relying = some (tag', j) → _) nofun ?_ q
    intro q _ hq
    exact ⟨(h.holds q tag' j hq).1, hother tag' j (h.holds q tag' j hq).2⟩
  · intro q tag' j
    refine forall_goto (P := fun _ pc => pc.inserting = some (tag', j) → s.tag j ≠ some tag')
      ?_ (fun q _ => h.fresh q tag' j) q
    rintro ⟨⟩
    exact h.fresh p tag i (by rw [hpc]; rfl)
  · intro q tag' j
    refine forall_goto (P := fun _ pc => pc.naming = some (tag', j) → _) ?_ ?_ q
    · rintro ⟨⟩
      exact update_self ..
    · intro q _ hq
      exact hother tag' j (h.named q tag' j hq)
  · intro q j
    refine forall_goto (P := fun _ pc => pc.installing = some j → _) nofun ?_ q
    intro q hne hq old hold
    have hlock : (s.pcs q).exclusive = some j :=
      Pc.exclusive_of_replacing (Pc.replacing_of_installing hq)
    rcases eq_or_ne old tag with rfl | hold'
    · rintro hj
      cases (update_self ..).symm.trans hj
      exact hne (hg.eq_of_exclusive hlock hx)
    · intro hj
      exact h.unlisted q j hq old hold ((update_of_ne hold' ..).symm.trans hj)
  · intro tag' j hj
    rcases update_some_cases hj with ⟨rfl, rfl⟩ | ⟨-, hold⟩
    · exact .inr ⟨p, by rw [pcs_goto_self]; rfl⟩
    · refine (h.listed tag' j hold).imp_right
        (exists_goto (s := s.setHash tag (some i)) Pc.naming ?_)
      intro hp
      exact absurd ((congrArg Pc.naming hpc).symm.trans hp) nofun
  · intro tag' j hj
    refine (h.registered tag' j hj).imp (hother tag' j)
      (exists_goto (s := s.setHash tag (some i)) Pc.installing ?_)
    intro hp
    exact absurd ((congrArg Pc.installing hpc).symm.trans hp) nofun

lemma delete {old} (hpc : s.pcs p = .delete tag use i) (htag : s.tag i = some old)
    (hhash : s.hash old = some i) : Named ((s.setHash old none).goto p (.install tag use i)) := by
  have hx : (s.pcs p).exclusive = some i := by rw [hpc]; rfl
  have hne : tag ≠ old := by
    rintro rfl
    exact h.fresh p tag i (by rw [hpc]; rfl) htag
  have hother : ∀ tag' j, tag' ≠ old → s.hash tag' = some j →
      (s.setHash old none).hash tag' = some j := by
    intro tag' j hne' htag'
    exact (update_of_ne hne' ..).trans htag'
  have hback : ∀ tag' j, (s.setHash old none).hash tag' = some j →
      s.hash tag' = some j := by
    intro tag' j hj
    rcases eq_or_ne tag' old with rfl | hne'
    · cases (update_self ..).symm.trans hj
    · exact (update_of_ne hne' ..).symm.trans hj
  refine ⟨h.unshared_goto ?_ nofun, ?_, ?_, ?_, ?_, ?_, ?_⟩
  · rintro _ ⟨⟩
    rw [hpc]
    exact .inl rfl
  · intro q tag' j
    refine forall_goto (P := fun _ pc => pc.relying = some (tag', j) → _) nofun ?_ q
    intro q hqp hq
    obtain ⟨htag', hhash'⟩ := h.holds q tag' j hq
    refine ⟨htag', hother tag' j ?_ hhash'⟩
    rintro rfl
    cases hhash.symm.trans hhash'
    exact h.unshared p q tag' i hqp.symm (by rw [hpc]; rfl) hq
  · intro q tag' j
    exact forall_goto (P := fun _ pc => pc.inserting = some (tag', j) → _) nofun
      (fun q _ => h.fresh q tag' j) q
  · intro q tag' j
    refine forall_goto (P := fun _ pc => pc.naming = some (tag', j) → _) ?_ ?_ q
    · rintro ⟨⟩
      exact hother tag i hne (h.named p tag i (by rw [hpc]; rfl))
    · intro q hqp hq
      refine hother tag' j ?_ (h.named q tag' j hq)
      rintro rfl
      cases hhash.symm.trans (h.named q tag' j hq)
      exact hqp (hg.eq_of_exclusive (Pc.exclusive_of_replacing (Pc.replacing_of_naming hq)) hx)
  · intro q j
    refine forall_goto (P := fun _ pc => pc.installing = some j → _) ?_ ?_ q
    · rintro ⟨⟩ old' hold' hj
      cases htag.symm.trans hold'
      cases (update_self ..).symm.trans hj
    · intro q _ hq old' hold' hj
      exact h.unlisted q j hq old' hold' (hback old' j hj)
  · intro tag' j hj
    refine (h.listed tag' j (hback tag' j hj)).imp_right
      (exists_goto (s := s.setHash old none) Pc.naming ?_)
    intro hp
    exact (congrArg Pc.naming hpc).symm.trans hp
  · intro tag' j hj
    rcases h.registered tag' j hj with hhash' | hsome
    · rcases eq_or_ne tag' old with rfl | hne'
      · cases hhash.symm.trans hhash'
        exact .inr ⟨p, by rw [pcs_goto_self]; rfl⟩
      · exact .inl (hother tag' j hne' hhash')
    · refine .inr (exists_goto (s := s.setHash old none) Pc.installing ?_ hsome)
      intro hp
      exact absurd ((congrArg Pc.installing hpc).symm.trans hp) nofun

omit [DecidableEq ρ] in
lemma install (hpc : s.pcs p = .install tag use i) (page notMaterialized) :
    Named ((s.install tag i page notMaterialized).goto p (.returned tag use i)) := by
  have hx : (s.pcs p).exclusive = some i := by rw [hpc]; rfl
  have hhash : s.hash tag = some i := h.named p tag i (by rw [hpc]; rfl)
  have hself : (s.install tag i page notMaterialized).tag i = some tag := update_self ..
  have hother : ∀ j, j ≠ i → (s.install tag i page notMaterialized).tag j = s.tag j :=
    fun j hj => update_of_ne hj ..
  have halone : ∀ q j, q ≠ p → (s.pcs q).replacing = some j → j ≠ i := by
    rintro q _ hqp hq rfl
    exact hqp (hg.eq_of_exclusive (Pc.exclusive_of_replacing hq) hx)
  refine ⟨h.unshared_goto nofun ?_, ?_, ?_, ?_, ?_, ?_, ?_⟩
  · rintro _ _ ⟨⟩
    exact .inr fun q hqp hq => hqp (hg.eq_of_exclusive hq hx)
  · intro q tag' j
    refine forall_goto (P := fun _ pc => pc.relying = some (tag', j) → _) ?_ ?_ q
    · rintro ⟨⟩
      exact ⟨hself, hhash⟩
    · intro q hqp hq
      refine ⟨(hother j ?_).trans (h.holds q tag' j hq).1, (h.holds q tag' j hq).2⟩
      rintro rfl
      exact h.unshared p q tag' j hqp.symm (by rw [hpc]; rfl) hq
  · intro q tag' j
    refine forall_goto (P := fun _ pc => pc.inserting = some (tag', j) → _) nofun ?_ q
    intro q hqp hq
    show (s.install tag i page notMaterialized).tag j ≠ some tag'
    rw [hother j (halone q j hqp (Pc.replacing_of_inserting hq))]
    exact h.fresh q tag' j hq
  · intro q tag' j
    exact forall_goto (P := fun _ pc => pc.naming = some (tag', j) → _) nofun
      (fun q _ => h.named q tag' j) q
  · intro q j
    refine forall_goto (P := fun _ pc => pc.installing = some j → _) nofun ?_ q
    intro q hqp hq old hold
    refine h.unlisted q j hq old ((hother j ?_).symm.trans hold)
    exact halone q j hqp (Pc.replacing_of_installing hq)
  · intro tag' j hj
    rcases h.listed tag' j hj with htag' | ⟨q, hq⟩
    · refine .inl ((hother j ?_).trans htag')
      rintro rfl
      exact h.unlisted p j (by rw [hpc]; rfl) tag' htag' hj
    · rcases eq_or_ne q p with rfl | hqp
      · rw [hpc] at hq
        cases hq
        exact .inl hself
      · exact .inr ⟨q, by rw [pcs_goto_of_ne _ _ hqp]; exact hq⟩
  · intro tag' j hj
    rcases eq_or_ne j i with rfl | hji
    · cases hself.symm.trans hj
      exact .inl hhash
    · rcases h.registered tag' j ((hother j hji).symm.trans hj) with hhash' | ⟨q, hq⟩
      · exact .inl hhash'
      · refine .inr ⟨q, ?_⟩
        have hqp : q ≠ p := by
          rintro rfl
          rw [hpc] at hq
          cases hq
          exact hji rfl
        rw [pcs_goto_of_ne _ _ hqp]
        exact hq

lemma step (hp : Pinned s) (hstep : machine.step s e = some t) : Named t := by
  cases Move.of_step hstep with
  | quiet hq => exact h.quiet hg hp hq
  | survey hq =>
    exact h.stay rfl rfl rfl rfl hq.bare.1.naming hq.bare.2.replacing (.inr hq.bare.2.relying)
  | passOver => exact h
  | @pinFound p tag use i pc hpc hlt hnext =>
    rcases hnext with rfl | rfl <;> exact h.stay rfl rfl rfl hpc rfl rfl (.inr rfl)
  | raise hpc | decrement hpc | pinChosen hpc | retry hpc | unpin hpc | mark hpc | startIo hpc
  | write hpc | scanMark hpc =>
    exact h.stay rfl rfl rfl hpc rfl rfl (.inr rfl)
  | insert hpc hhash => exact h.insert hg hpc hhash
  | delete hpc htag hhash => exact h.delete hg hpc htag hhash
  | install hpc => exact h.install hg hpc _ _
  | publish hpc | insideFile hpc | extend hpc =>
    exact h.stay rfl rfl rfl hpc rfl rfl (.inl rfl)
  | @terminate p i c hpc =>
    exact h.stay rfl rfl rfl hpc rfl (Caller.resume_spec i c).2.2.1 (.inr (by cases c <;> rfl))
  | @flushSuper p pages c rnode rest hpc =>
    obtain ⟨supers, superWrites, heq⟩ := s.flushSuper_frame rnode
    rw [heq]
    exact h.stay rfl rfl rfl hpc rfl rfl (.inr rfl)
  | _ => exact h.of_frame rfl rfl rfl

end Named

end Umbra.Cache
