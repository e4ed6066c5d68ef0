import Umbra.Block.Redo
import Umbra.Foundation.System
import Mathlib.Data.List.Basic
import Mathlib.Order.Nat

/-!
# Histories of a mapped fork

A page that is not newer than the redo pointer is never changed in place: its first change goes to a
physical block that has not been used. Buffers count as written, save that a checkpoint may write a
page that has moved to the block it has left.
-/

namespace Umbra.Timeline

open Foundation Function
open Block Content

variable {β : Type}

/-- One fork with its physical file. -/
structure Fork (β : Type) where
  mapping : Nat → Option Nat
  /-- `logical_nblocks`. -/
  eof : Nat
  nextFree : Nat
  /-- The length of the file in blocks, with the segments that are gone. -/
  nblocks : Nat
  gone : List Nat
  page : Nat → Content β

/-- A record, as far as it concerns the fork. The records of a range have one block each. -/
inductive Record (β : Type)
  | update (l : Nat) (delta : β → β)
  | birth (l p : Nat) (body : β)
  | remap (l old new : Nat) (delta : β → β)
  | remapImage (l new : Nat) (body : β)
  | mapSet (l old new : Nat)
  /-- `XLOG_UMBRA_MAP_SET` without an old block: a page of zeros. -/
  | firstMap (l p : Nat)
  | range (l p : Nat)
  | truncate (n : Nat)
  | reclaimUnlink (segno : Nat)

def contentLsn : Content β → Nat
  | .zero => 0
  | .page p => p.lsn

/-- `PageIsNew`. -/
def isNew : Content β → Bool
  | .zero => true
  | .page _ => false

def changed (lsn : Nat) (delta : β → β) : Content β → Content β
  | .zero => .zero
  | .page p => .page ⟨lsn, delta p.body⟩

namespace Fork

section

variable (relsegSize : Nat)

def Exists (f : Fork β) (p : Nat) : Prop := p < f.nblocks ∧ p / relsegSize ∉ f.gone

instance (f : Fork β) (p : Nat) : Decidable (f.Exists relsegSize p) :=
  inferInstanceAs (Decidable (_ ∧ _))

/-- Write a block. The file grows over zeros, and a segment file that was gone is created again. -/
def write (f : Fork β) (p : Nat) (c : Content β) : Fork β :=
  { f with
    nblocks := max f.nblocks (p + 1)
    gone := f.gone.filter (· ≠ p / relsegSize)
    page := fun q =>
      if q = p then c
      else if q / relsegSize = p / relsegSize ∧ p / relsegSize ∈ f.gone then .zero
      else f.page q }

end

def place (f : Fork β) (l p : Nat) : Fork β :=
  { f with mapping := update f.mapping l (some p), nextFree := max f.nextFree (p + 1) }

/-- `MapSBlockBumpLogicalNblocks`. -/
def bumpEof (f : Fork β) (l : Nat) : Fork β := { f with eof := max f.eof (l + 1) }

def ensure (f : Fork β) (p : Nat) : Fork β := { f with nblocks := max f.nblocks (p + 1) }

/-- `umtruncate`: the physical blocks stay. -/
def truncate (f : Fork β) (n : Nat) : Fork β :=
  { f with mapping := fun l => if l < n then f.mapping l else none, eof := n }

def unlink (f : Fork β) (segno : Nat) : Fork β := { f with gone := segno :: f.gone }

end Fork

namespace Record

variable (relsegSize : Nat)

def Enabled (f : Fork β) : Record β → Prop
  | .update l _ => (f.mapping l).any (fun p => 0 < contentLsn (f.page p)) = true
  | .birth l p _ | .firstMap l p | .range l p => f.mapping l = none ∧ f.nextFree ≤ p
  | .remap l old new _ =>
    f.mapping l = some old ∧ isNew (f.page old) = false ∧ f.nextFree ≤ new
  | .remapImage l new _ => (f.mapping l).isSome = true ∧ f.nextFree ≤ new
  | .mapSet l old new => f.mapping l = some old ∧ f.nextFree ≤ new
  | .truncate n => n ≤ f.eof
  | .reclaimUnlink segno =>
    (segno + 1) * relsegSize ≤ f.nextFree ∧
      ∀ l < f.eof, (f.mapping l).all (· / relsegSize ≠ segno) = true

instance (f : Fork β) (r : Record β) : Decidable (r.Enabled relsegSize f) := by
  unfold Enabled
  split <;> infer_instance

def effect (lsn : Nat) (f : Fork β) : Record β → Fork β
  | .update l delta =>
    match f.mapping l with
    | some p => f.write relsegSize p (changed lsn delta (f.page p))
    | none => f
  | .birth l p body => ((f.write relsegSize p (.page ⟨lsn, body⟩)).place l p).bumpEof l
  | .remap l old new delta =>
    (f.write relsegSize new (changed lsn delta (f.page old))).place l new
  | .remapImage l new body => (f.write relsegSize new (.page ⟨lsn, body⟩)).place l new
  | .mapSet l old new => (f.write relsegSize new (f.page old)).place l new
  | .firstMap l p => ((f.write relsegSize p .zero).place l p).bumpEof l
  | .range l p => ((f.ensure p).place l p).bumpEof l
  | .truncate n => f.truncate n
  | .reclaimUnlink segno => f.unlink segno

def leaves (f : Fork β) : Record β → List (Nat × Nat)
  | .birth l .. | .firstMap l _ | .range l _ | .remap l .. | .remapImage l .. | .mapSet l .. =>
    ((f.mapping l).map (l, ·)).toList
  | .update .. | .truncate _ | .reclaimUnlink _ => []

def blockRefs : Record β → List Nat
  | .update l _ | .birth l .. | .remap l .. | .remapImage l .. => [l]
  | .mapSet .. | .firstMap .. | .range .. | .truncate _ | .reclaimUnlink _ => []

end Record

/-- `left` has the places that blocks have left and a checkpoint may still write to. -/
structure Server (β : Type) where
  fork : Fork β
  wal : List (Record β)
  left : List (Nat × Nat)

inductive Event (β : Type)
  | log (r : Record β)
  /-- `UmCheckpointWritePblk`. -/
  | writeOld (l p : Nat)

def server (relsegSize : Nat) : System (Server β) (Event β) where
  step s
    | .log r =>
      if r.Enabled relsegSize s.fork then
        some {
          fork := r.effect relsegSize (s.wal.length + 1) s.fork
          wal := s.wal ++ [r]
          left := r.leaves s.fork ++ s.left }
      else none
    | .writeOld l p =>
      match s.fork.mapping l with
      | some q =>
        if s.left.contains (l, p) ∧ p / relsegSize ∉ s.fork.gone then
          some { s with fork := s.fork.write relsegSize p (s.fork.page q) }
        else none
      | none => none

def Server.start (base : Fork β) : Server β := ⟨base, [], []⟩

/-! ### What a step does -/

def Fork.put (relsegSize : Nat) (f : Fork β) (l p : Nat) (c : Content β) : Fork β :=
  ((f.write relsegSize p c).place l p).bumpEof l

def Record.placed (lsn : Nat) (f : Fork β) : Record β → Option (Nat × Nat × Content β)
  | .birth l p body | .remapImage l p body => some (l, p, .page ⟨lsn, body⟩)
  | .remap l old new delta => some (l, new, changed lsn delta (f.page old))
  | .mapSet l old new => some (l, new, f.page old)
  | .firstMap l p | .range l p => some (l, p, .zero)
  | .update .. | .truncate _ | .reclaimUnlink _ => none

/-- Mapped blocks exist, each for one key, and nothing is stored beyond the frontier. -/
structure Fork.Sound (relsegSize : Nat) (f : Fork β) : Prop where
  mapped : ∀ l p, f.mapping l = some p → l < f.eof ∧ p < f.nextFree ∧ f.Exists relsegSize p
  injective : ∀ l l' p, f.mapping l = some p → f.mapping l' = some p → l = l'
  fresh : ∀ p, f.nextFree ≤ p → f.page p = .zero
  present : ∀ p, f.nextFree ≤ p → p / relsegSize ∉ f.gone
  beyond : ∀ p, f.nblocks ≤ p → f.page p = .zero

namespace Fork

variable {relsegSize : Nat} {f : Fork β} {l p : Nat} {c : Content β}

lemma write_of_present (h : p / relsegSize ∉ f.gone) (c) :
    f.write relsegSize p c =
      { f with nblocks := max f.nblocks (p + 1), page := update f.page p c } := by
  have hgone : f.gone.filter (· ≠ p / relsegSize) = f.gone := by
    refine List.filter_eq_self.mpr fun g hg => decide_eq_true ?_
    rintro rfl
    exact h hg
  simp only [write, hgone, h, and_false, if_false, mk.injEq, true_and]
  funext q
  rw [update_apply]

lemma put_of_present (h : p / relsegSize ∉ f.gone) (l c) :
    f.put relsegSize l p c =
      { mapping := update f.mapping l (some p)
        eof := max f.eof (l + 1)
        nextFree := max f.nextFree (p + 1)
        nblocks := max f.nblocks (p + 1)
        gone := f.gone
        page := update f.page p c } := by
  rw [put, write_of_present h]
  rfl

lemma bumpEof_of_lt (h : l < f.eof) : f.bumpEof l = f := by
  rw [bumpEof, max_eq_left h]

namespace Sound

variable (h : f.Sound relsegSize)
include h

lemma ne_of_mapped {l' q} (hl : f.mapping l = some p) (hl' : f.mapping l' = some q) (hne : l ≠ l') :
    p ≠ q := by
  rintro rfl
  exact hne (h.injective l l' p hl hl')

lemma ne_of_fresh {q} (hl : f.mapping l = some p) (hq : f.nextFree ≤ q) : p ≠ q :=
  ne_of_lt (lt_of_lt_of_le (h.mapped l p hl).2.1 hq)

lemma put (hp : f.nextFree ≤ p) (l c) : (f.put relsegSize l p c).Sound relsegSize := by
  rw [put_of_present (h.present p hp)]
  refine ⟨?_, ?_, ?_, ?_, ?_⟩
  · intro l' q hq
    rcases update_some_cases hq with ⟨rfl, rfl⟩ | ⟨-, hq⟩
    · refine ⟨Nat.le_max_right .., Nat.le_max_right .., Nat.le_max_right .., ?_⟩
      exact h.present q hp
    · obtain ⟨hl', hq', hlt, hgone⟩ := h.mapped l' q hq
      exact ⟨lt_of_lt_of_le hl' (le_max_left ..), lt_of_lt_of_le hq' (le_max_left ..),
        lt_of_lt_of_le hlt (le_max_left ..), hgone⟩
  · intro l₁ l₂ q h₁ h₂
    rcases update_some_cases h₁ with ⟨rfl, rfl⟩ | ⟨-, h₁'⟩ <;>
      rcases update_some_cases h₂ with ⟨rfl, heq⟩ | ⟨-, h₂'⟩
    · rfl
    · exact absurd rfl (h.ne_of_fresh h₂' hp)
    · exact absurd heq (h.ne_of_fresh h₁' hp)
    · exact h.injective l₁ l₂ q h₁' h₂'
  · intro q hq
    obtain ⟨hq, hlt⟩ := Nat.max_le.mp hq
    exact (update_of_ne (ne_of_gt hlt) ..).trans (h.fresh q hq)
  · exact fun q hq => h.present q (Nat.max_le.mp hq).1
  · intro q hq
    obtain ⟨hq, hlt⟩ := Nat.max_le.mp hq
    exact (update_of_ne (ne_of_gt hlt) ..).trans (h.beyond q hq)

lemma write (hp : p < f.nextFree) (hpresent : p / relsegSize ∉ f.gone) (c) :
    (f.write relsegSize p c).Sound relsegSize := by
  rw [write_of_present hpresent]
  refine ⟨?_, h.injective, ?_, h.present, ?_⟩
  · intro l q hq
    obtain ⟨hl, hq', hlt, hgone⟩ := h.mapped l q hq
    exact ⟨hl, hq', lt_of_lt_of_le hlt (le_max_left ..), hgone⟩
  · intro q hq
    exact (update_of_ne (ne_of_gt (lt_of_lt_of_le hp hq)) ..).trans (h.fresh q hq)
  · intro q hq
    obtain ⟨hq, hlt⟩ := Nat.max_le.mp hq
    exact (update_of_ne (ne_of_gt hlt) ..).trans (h.beyond q hq)

lemma truncate {n} : (f.truncate n).Sound relsegSize := by
  have hcases : ∀ l p, (f.truncate n).mapping l = some p → l < n ∧ f.mapping l = some p :=
    fun l p hl => Option.ite_none_right_eq_some.mp hl
  refine ⟨fun l p hl => ?_, fun l l' p hl hl' => ?_, h.fresh, h.present, h.beyond⟩
  · exact ⟨(hcases l p hl).1, (h.mapped l p (hcases l p hl).2).2⟩
  · exact h.injective l l' p (hcases l p hl).2 (hcases l' p hl').2

lemma unlink {segno} (hbelow : (segno + 1) * relsegSize ≤ f.nextFree)
    (hfree : ∀ l p, f.mapping l = some p → p / relsegSize ≠ segno) (hpos : 0 < relsegSize) :
    (f.unlink segno).Sound relsegSize := by
  refine ⟨fun l p hl => ?_, h.injective, h.fresh, fun p hp => ?_, h.beyond⟩
  · obtain ⟨hl', hp, hlt, hgone⟩ := h.mapped l p hl
    exact ⟨hl', hp, hlt, List.not_mem_cons_of_ne_of_not_mem (hfree l p hl) hgone⟩
  · refine List.not_mem_cons_of_ne_of_not_mem (ne_of_gt ?_) (h.present p hp)
    exact (Nat.le_div_iff_mul_le hpos).mpr (hbelow.trans hp)

end Sound

end Fork

inductive Move (relsegSize : Nat) (s : Server β) : Event β → Server β → Prop
  | update {l p page} (delta : β → β) (hl : s.fork.mapping l = some p)
      (hpage : s.fork.page p = .page page) (hlsn : 0 < page.lsn) :
      Move relsegSize s (.log (.update l delta)) ⟨s.fork.write relsegSize p (.page ⟨s.wal.length +
        1, delta page.body⟩), s.wal ++ [.update l delta], s.left⟩
  | put {r l p c} (hr : r.placed (s.wal.length + 1) s.fork = some (l, p, c))
      (henabled : r.Enabled relsegSize s.fork) (hp : s.fork.nextFree ≤ p) :
      Move relsegSize s (.log r) ⟨s.fork.put relsegSize l p c, s.wal ++ [r], ((s.fork.mapping l).map
        (l, ·)).toList ++ s.left⟩
  | truncate {n} (hn : n ≤ s.fork.eof) :
      Move relsegSize s (.log (.truncate n)) ⟨s.fork.truncate n, s.wal ++ [.truncate n], s.left⟩
  | unlink {segno} (hbelow : (segno + 1) * relsegSize ≤ s.fork.nextFree)
      (hfree : ∀ l p, s.fork.mapping l = some p → p / relsegSize ≠ segno) :
      Move relsegSize s (.log (.reclaimUnlink segno))
        ⟨s.fork.unlink segno, s.wal ++ [.reclaimUnlink segno], s.left⟩
  | writeOld {l p q} (hl : s.fork.mapping l = some q) (hp : (l, p) ∈ s.left)
      (hpresent : p / relsegSize ∉ s.fork.gone) :
      Move relsegSize s (.writeOld l p) { s with fork := s.fork.write relsegSize p (s.fork.page q) }

lemma Move.of_step {relsegSize : Nat} {s t : Server β} {e : Event β}
    (hsound : s.fork.Sound relsegSize) (h : (server relsegSize).step s e = some t) :
    Move relsegSize s e t := by
  cases e with
  | writeOld =>
    simp only [server] at h
    split at h
    next q hl =>
      obtain ⟨⟨hp, hpresent⟩, rfl⟩ := guard_eq_some h
      exact .writeOld hl (List.contains_iff_mem.mp hp) hpresent
    next => cases h
  | log r =>
    obtain ⟨henabled, rfl⟩ := guard_eq_some h
    -- a block that has a place is below the end, so that the bump changes nothing
    have hbump : ∀ l p c, (s.fork.mapping l).isSome = true →
        (s.fork.write relsegSize p c).place l p = s.fork.put relsegSize l p c := by
      intro l p c hl
      obtain ⟨q, hq⟩ := Option.isSome_iff_exists.mp hl
      refine (Fork.bumpEof_of_lt ?_).symm
      exact (hsound.mapped l q hq).1
    cases r with
    | update l delta =>
      obtain ⟨p, hl, hlsn⟩ := (Option.any_eq_true ..).mp henabled
      have hlsn := of_decide_eq_true hlsn
      cases hpage : s.fork.page p with
      | zero =>
        rw [hpage] at hlsn
        exact absurd hlsn (lt_irrefl 0)
      | page =>
        rw [hpage] at hlsn
        simp only [Record.effect, hl, hpage]
        exact .update delta hl hpage hlsn
    | birth | firstMap => exact .put rfl henabled henabled.2
    | range l p =>
      have hpage := hsound.fresh p henabled.2
      have hwrite : s.fork.write relsegSize p .zero = s.fork.ensure p := by
        rw [Fork.write_of_present (hsound.present p henabled.2), Fork.ensure,
          update_eq_self_iff.mpr hpage.symm]
      simp only [Record.effect, ← hwrite]
      exact .put rfl henabled henabled.2
    | remap l old new =>
      simp only [Record.effect, hbump l new _ (by rw [henabled.1]; rfl)]
      exact .put rfl henabled henabled.2.2
    | remapImage l new =>
      simp only [Record.effect, hbump l new _ henabled.1]
      exact .put rfl henabled henabled.2
    | mapSet l old new =>
      simp only [Record.effect, hbump l new _ (by rw [henabled.1]; rfl)]
      exact .put rfl henabled henabled.2
    | truncate => exact .truncate henabled
    | reclaimUnlink =>
      refine .unlink henabled.1 fun l p hl => ?_
      have hall := henabled.2 l (hsound.mapped l p hl).1
      rw [hl] at hall
      exact of_decide_eq_true hall

/-! ### Since the redo pointer -/

/-- The fork at the start of the prior backup, whose pages count as old. -/
structure Fork.Base (relsegSize : Nat) (base : Fork β) : Prop where
  sound : base.Sound relsegSize
  dated : ∀ p, contentLsn (base.page p) = 0

/-- What every history keeps of the fork it started from. -/
structure Grown (relsegSize : Nat) (base : Fork β) (s : Server β) : Prop where
  sound : s.fork.Sound relsegSize
  nextFree : base.nextFree ≤ s.fork.nextFree
  nblocks : base.nblocks ≤ s.fork.nblocks
  left : ∀ l p, (l, p) ∈ s.left → p < s.fork.nextFree ∧ ∀ l', s.fork.mapping l' ≠ some p
  old : ∀ l p, s.fork.mapping l = some p → p < base.nextFree → s.fork.page p = base.page p
  dated : ∀ p, contentLsn (s.fork.page p) ≤ s.wal.length

lemma Grown.start {relsegSize : Nat} {base : Fork β} (h : base.Base relsegSize) :
    Grown relsegSize base (.start base) where
  sound := h.sound
  nextFree := le_rfl
  nblocks := le_rfl
  left := nofun
  old _ _ _ _ := rfl
  dated p := le_of_eq (h.dated p)

lemma contentLsn_changed_le (lsn : Nat) (delta : β → β) (c : Content β) :
    contentLsn (changed lsn delta c) ≤ lsn := by
  cases c
  · exact Nat.zero_le _
  · exact le_rfl

namespace Grown

variable {relsegSize : Nat} {base : Fork β} {s t : Server β} {l p : Nat}

section
variable (h : Grown relsegSize base s) {r : Record β} {c : Content β}
include h

lemma nextFree_le (hbase : base.Base relsegSize) (hl : s.fork.mapping l = some p)
    (hlsn : 0 < contentLsn (s.fork.page p)) : base.nextFree ≤ p := by
  by_contra hlt
  rw [h.old l p hl (not_le.mp hlt), hbase.dated] at hlsn
  exact absurd hlsn (lt_irrefl 0)

lemma dated_placed (hr : r.placed (s.wal.length + 1) s.fork = some (l, p, c)) :
    contentLsn c ≤ s.wal.length + 1 := by
  cases r with
  | birth | remapImage =>
    cases hr
    exact le_rfl
  | remap =>
    cases hr
    exact contentLsn_changed_le ..
  | mapSet l old =>
    cases hr
    exact (h.dated old).trans (Nat.le_succ _)
  | firstMap | range =>
    cases hr
    exact Nat.zero_le _
  | update | truncate | reclaimUnlink => cases hr

lemma dated_update (hc : contentLsn c ≤ s.wal.length + 1) (p q) :
    contentLsn (update s.fork.page p c q) ≤ (s.wal ++ [r]).length := by
  rw [List.length_append, List.length_singleton]
  rcases eq_or_ne q p with rfl | hne
  · rw [update_self]
    exact hc
  · rw [update_of_ne hne]
    exact (h.dated q).trans (Nat.le_succ _)

lemma step (hbase : base.Base relsegSize) (hpos : 0 < relsegSize) {e}
    (hstep : (server relsegSize).step s e = some t) : Grown relsegSize base t := by
  cases Move.of_step h.sound hstep with
  | @update l p page delta hl hpage hlsn =>
    obtain ⟨-, hlt, -, hpresent⟩ := h.sound.mapped l p hl
    have hge : base.nextFree ≤ p := h.nextFree_le hbase hl (by rw [hpage]; exact hlsn)
    refine ⟨h.sound.write hlt hpresent _, h.nextFree, ?_, h.left, ?_, ?_⟩
    · exact h.nblocks.trans (le_max_left ..)
    · intro l' q hq hqlt
      rw [Fork.write_of_present hpresent]
      have hne : q ≠ p := ne_of_lt (lt_of_lt_of_le hqlt hge)
      exact (update_of_ne hne ..).trans (h.old l' q hq hqlt)
    · rw [Fork.write_of_present hpresent]
      exact h.dated_update le_rfl p
  | @put r l p c hr henabled hp =>
    have hge : base.nextFree ≤ p := h.nextFree.trans hp
    have hsound := h.sound.put hp l c
    rw [Fork.put_of_present (h.sound.present p hp)] at hsound ⊢
    refine ⟨hsound, h.nextFree.trans (le_max_left ..), h.nblocks.trans (le_max_left ..),
      ?_, ?_, h.dated_update (h.dated_placed hr) p⟩
    · intro l' q hq
      have hlt : q < s.fork.nextFree ∧ ∀ l'', l'' ≠ l → s.fork.mapping l'' ≠ some q := by
        rcases List.mem_append.mp hq with hq | hq
        · obtain ⟨old, hold, heq⟩ := Option.map_eq_some_iff.mp (Option.mem_toList.mp hq)
          cases heq
          refine ⟨(h.sound.mapped _ _ hold).2.1, fun l'' hne hl'' => ?_⟩
          exact hne (h.sound.injective l'' _ _ hl'' hold)
        · exact ⟨(h.left l' q hq).1, fun l'' _ => (h.left l' q hq).2 l''⟩
      refine ⟨lt_of_lt_of_le hlt.1 (le_max_left ..), fun l'' hl'' => ?_⟩
      rcases update_some_cases hl'' with ⟨rfl, rfl⟩ | ⟨hne, hl''⟩
      · exact absurd hp (not_le.mpr hlt.1)
      · exact hlt.2 l'' hne hl''
    · intro l' q hq hqlt
      have hne : q ≠ p := ne_of_lt (lt_of_lt_of_le hqlt hge)
      rcases update_some_cases hq with ⟨-, heq⟩ | ⟨-, hq⟩
      · exact absurd heq hne
      · exact (update_of_ne hne ..).trans (h.old l' q hq hqlt)
  | @truncate n =>
    have hcut : ∀ l p, (s.fork.truncate n).mapping l = some p → s.fork.mapping l = some p :=
      fun l p hl => (Option.ite_none_right_eq_some.mp hl).2
    refine ⟨h.sound.truncate, h.nextFree, h.nblocks, ?_, ?_, ?_⟩
    · exact fun l p hp => ⟨(h.left l p hp).1, fun l' hl' => (h.left l p hp).2 l' (hcut l' p hl')⟩
    · exact fun l p hl => h.old l p (hcut l p hl)
    · intro p
      rw [List.length_append]
      exact (h.dated p).trans (Nat.le_add_right ..)
  | unlink hbelow hfree =>
    refine { h with sound := h.sound.unlink hbelow hfree hpos, dated := fun p => ?_ }
    rw [List.length_append]
    exact (h.dated p).trans (Nat.le_add_right ..)
  | @writeOld l p q hl hp hpresent =>
    obtain ⟨hlt, hfree⟩ := h.left l p hp
    refine ⟨h.sound.write hlt hpresent _, h.nextFree, h.nblocks.trans (le_max_left ..),
      h.left, ?_, ?_⟩
    · intro l' p' hp' hlt'
      rw [Fork.write_of_present hpresent]
      have hne : p' ≠ p := by
        rintro rfl
        exact hfree l' hp'
      exact (update_of_ne hne ..).trans (h.old l' p' hp' hlt')
    · intro p'
      rw [Fork.write_of_present hpresent]
      change contentLsn (update s.fork.page p (s.fork.page q) p') ≤ s.wal.length
      rcases eq_or_ne p' p with rfl | hne
      · rw [update_self]
        exact h.dated q
      · rw [update_of_ne hne]
        exact h.dated p'

end

end Grown

end Umbra.Timeline
