import Mathlib.Data.List.Nodup
import Mathlib.Data.List.Range

/-!
# Open addressing with tombstones

A probe walks the buckets of a table from a start bucket along `next` until it meets the entry it
looks for or an empty bucket; a deleted bucket is passed, and the first one is remembered as the
place of an insertion. The entries are taken from a free list that is threaded through their array.
-/

namespace Foundation

inductive Slot (ι : Type)
  | empty
  | deleted
  | used (i : ι)
  deriving DecidableEq

/-- What a probe ends with: the entry and its bucket, or the bucket for an insertion. -/
inductive Probe (ι : Type)
  | found (i : ι) (bucket : ℕ)
  | absent (insert : Option ℕ)
  deriving DecidableEq

namespace Slot

variable {ι : Type}

def isUsed : Slot ι → Bool
  | .used _ => true
  | _ => false

lemma isUsed_iff {s : Slot ι} : s.isUsed = true ↔ ∃ i, s = .used i := by
  cases s <;> simp [isUsed]

end Slot

section Probing

variable {ι : Type} (slots : ℕ → Slot ι) (hit : ι → Bool) (next : ℕ → ℕ)

/-- The probe loop with `n` iterations left, at `bucket`. -/
def probe : (n bucket : ℕ) → (firstDeleted : Option ℕ) → Probe ι
  | 0, _, firstDeleted => .absent firstDeleted
  | n + 1, bucket, firstDeleted =>
    match slots bucket with
    | .empty => .absent (some (firstDeleted.getD bucket))
    | .deleted => probe n (next bucket) (firstDeleted.or (some bucket))
    | .used i => if hit i then .found i bucket else probe n (next bucket) firstDeleted

def probed : (n bucket : ℕ) → List ℕ
  | 0, _ => []
  | n + 1, bucket =>
    bucket :: match slots bucket with
      | .empty => []
      | .deleted => probed n (next bucket)
      | .used i => if hit i then [] else probed n (next bucket)

variable {slots hit next} {n bucket b : ℕ} {d x : Option ℕ} {i : ι}

lemma probe_found (h : probe slots hit next n bucket d = .found i b) :
    slots b = .used i ∧ hit i = true := by
  induction n generalizing bucket d with
  | zero => cases h
  | succ n ih =>
    rw [probe] at h
    split at h
    · cases h
    · exact ih h
    · rename_i k hk
      split at h
      · rename_i hhit
        cases h
        exact ⟨hk, hhit⟩
      · exact ih h

lemma exists_empty_of_probe_absent (h : probe slots hit next n bucket d = .absent x) {j}
    (hj : j < n) (hs : slots (next^[j] bucket) = .used i) (hi : hit i = true) :
    ∃ k < j, slots (next^[k] bucket) = .empty := by
  induction n generalizing bucket d j with
  | zero => exact absurd hj (Nat.not_lt_zero j)
  | succ n ih =>
    rw [probe] at h
    cases j with
    | zero =>
      rw [Function.iterate_zero, id] at hs
      simp [hs, hi] at h
    | succ j =>
      have hlater : ∀ d, probe slots hit next n (next bucket) d = .absent x →
          ∃ k < j + 1, slots (next^[k] bucket) = .empty := by
        intro d hd
        obtain ⟨k, hk, hempty⟩ := ih hd (Nat.lt_of_succ_lt_succ hj) hs
        exact ⟨k + 1, Nat.succ_lt_succ hk, hempty⟩
      split at h
      · rename_i hempty
        exact ⟨0, Nat.succ_pos j, hempty⟩
      · exact hlater _ h
      · split at h
        · cases h
        · exact hlater _ h

lemma probe_absent_some (h : probe slots hit next n bucket d = .absent (some b)) :
    d = some b ∨ ∃ j < n, b = next^[j] bucket ∧ (slots b).isUsed = false ∧
      ∀ k < j, slots (next^[k] bucket) ≠ .empty := by
  induction n generalizing bucket d with
  | zero =>
    cases h
    exact .inl rfl
  | succ n ih =>
    rw [probe] at h
    have hlater : ∀ d', slots bucket ≠ .empty →
        probe slots hit next n (next bucket) d' = .absent (some b) →
        d' = some b ∨ ∃ j < n + 1, b = next^[j] bucket ∧ (slots b).isUsed = false ∧
          ∀ k < j, slots (next^[k] bucket) ≠ .empty := by
      intro d' hne hd
      refine (ih hd).imp_right ?_
      rintro ⟨j, hj, hb, hfree, hway⟩
      refine ⟨j + 1, Nat.succ_lt_succ hj, hb, hfree, fun k hk => ?_⟩
      cases k with
      | zero => exact hne
      | succ k => exact hway k (Nat.lt_of_succ_lt_succ hk)
    have hhere : (slots bucket).isUsed = false → bucket = b →
        ∃ j < n + 1, b = next^[j] bucket ∧ (slots b).isUsed = false ∧
          ∀ k < j, slots (next^[k] bucket) ≠ .empty := by
      rintro hfree rfl
      exact ⟨0, Nat.succ_pos n, rfl, hfree, fun k hk => absurd hk (Nat.not_lt_zero k)⟩
    split at h
    · rename_i hempty
      cases d with
      | none =>
        cases h
        exact .inr (hhere (by rw [hempty]; rfl) rfl)
      | some =>
        cases h
        exact .inl rfl
    · rename_i hdeleted
      have hne : slots bucket ≠ .empty := by rw [hdeleted]; exact nofun
      rcases hlater _ hne h with hd | hd
      · cases d with
        | none => exact .inr (hhere (by rw [hdeleted]; rfl) (Option.some.inj hd))
        | some => exact .inl hd
      · exact .inr hd
    · rename_i k hk
      split at h
      · cases h
      · exact hlater d (by rw [hk]; exact nofun) h

lemma probe_absent_none (h : probe slots hit next n bucket d = .absent none) :
    d = none ∧ ∀ j < n, (slots (next^[j] bucket)).isUsed = true := by
  induction n generalizing bucket d with
  | zero =>
    cases h
    exact ⟨rfl, fun j hj => absurd hj (Nat.not_lt_zero j)⟩
  | succ n ih =>
    rw [probe] at h
    split at h
    · cases h
    · have hd := (ih h).1
      cases d <;> cases hd
    · rename_i k hk
      split at h
      · cases h
      · refine ⟨(ih h).1, fun j hj => ?_⟩
        cases j with
        | zero => rw [Function.iterate_zero, id, hk]; rfl
        | succ j => exact (ih h).2 j (Nat.lt_of_succ_lt_succ hj)

variable (slots hit next) in
/-- The loop looks at the buckets of its walk in order. -/
lemma probed_walk (n bucket) :
    probed slots hit next n bucket <+: (List.range n).map (next^[·] bucket) := by
  induction n generalizing bucket with
  | zero => exact List.prefix_rfl
  | succ n ih =>
    have hwalk : (List.range (n + 1)).map (next^[·] bucket) =
        bucket :: (List.range n).map (next^[·] (next bucket)) := by
      rw [List.range_succ_eq_map, List.map_cons, List.map_map]
      rfl
    rw [hwalk, probed, List.prefix_cons_inj]
    split
    · exact ⟨_, rfl⟩
    · exact ih (next bucket)
    · split
      · exact ⟨_, rfl⟩
      · exact ih (next bucket)

end Probing

/-! ### Placed entries -/

section Placed

variable {ι : Type} {next : ℕ → ℕ} {cap b : ℕ} {slots : ℕ → Slot ι} {start : ι → ℕ}

/-- Every entry lies on the walk from its start bucket, behind buckets that are not empty. -/
def Placed (next : ℕ → ℕ) (cap : ℕ) (slots : ℕ → Slot ι) (start : ι → ℕ) : Prop :=
  ∀ b i, slots b = .used i →
    ∃ j < cap, b = next^[j] (start i) ∧ ∀ k < j, slots (next^[k] (start i)) ≠ .empty

variable (h : Placed next cap slots start)
include h

lemma Placed.exists_probe_found {hit i} (hs : slots b = .used i) (hi : hit i = true) :
    ∃ i' b', probe slots hit next cap (start i) none = .found i' b' := by
  obtain ⟨j, hj, rfl, hway⟩ := h b i hs
  cases hp : probe slots hit next cap (start i) none with
  | found i' b' => exact ⟨i', b', rfl⟩
  | absent =>
    obtain ⟨k, hk, hempty⟩ := exists_empty_of_probe_absent hp hj hs hi
    exact absurd hempty (hway k hk)

lemma Placed.congr {start'} (hstart : ∀ b i, slots b = .used i → start' i = start i) :
    Placed next cap slots start' := by
  intro b i hs
  rw [hstart b i hs]
  exact h b i hs

/-- A bucket that is filled, or emptied to a tombstone, blocks no walk. -/
lemma Placed.update {s} (hne : s ≠ .empty)
    (hnew : ∀ i, s = .used i → ∃ j < cap, b = next^[j] (start i) ∧ ∀ k < j, slots (next^[k] (start
      i)) ≠ .empty) : Placed next cap (Function.update slots b s) start := by
  have hway : ∀ c, slots c ≠ .empty → Function.update slots b s c ≠ .empty :=
    (Function.forall_update_iff slots fun c t => slots c ≠ .empty → t ≠ .empty).mpr
      ⟨fun _ => hne, fun _ _ => id⟩
  intro c i hc
  by_cases hcb : c = b
  · rw [hcb, Function.update_self] at hc
    obtain ⟨j, hj, hb, hb'⟩ := hnew i hc
    exact ⟨j, hj, hcb.trans hb, fun k hk => hway _ (hb' k hk)⟩
  · rw [Function.update_of_ne hcb] at hc
    obtain ⟨j, hj, hb, hb'⟩ := h c i hc
    exact ⟨j, hj, hb, fun k hk => hway _ (hb' k hk)⟩

end Placed

/-! ### A threaded free list -/

/-- A link of the list: the next node, the end, or the mark of a node that is not in the list. -/
inductive Link
  | node (i : ℕ)
  | last
  | off
  deriving DecidableEq

/-- The list that starts at `head` and follows `next`. -/
def Threads (next : ℕ → Link) : Link → List ℕ → Prop
  | head, [] => head = .last
  | head, i :: l => head = .node i ∧ Threads next (next i) l

namespace Threads

variable {next next' : ℕ → Link} {head : Link} {l : List ℕ}

lemma congr (h : Threads next head l) (heq : ∀ i ∈ l, next' i = next i) : Threads next' head l := by
  induction l generalizing head with
  | nil => exact h
  | cons i l ih =>
    obtain ⟨hi, hl⟩ := List.forall_mem_cons.mp heq
    refine ⟨h.1, ?_⟩
    rw [hi]
    exact ih h.2 hl

lemma unique {l'} (h : Threads next head l) (h' : Threads next head l') : l = l' := by
  induction l generalizing head l' with
  | nil =>
    cases l' with
    | nil => rfl
    | cons => cases h.symm.trans h'.1
  | cons i l ih =>
    cases l' with
    | nil => cases h.1.symm.trans h'
    | cons =>
      cases h.1.symm.trans h'.1
      rw [ih h.2 h'.2]

lemma range {m n} (hmn : m ≤ n)
    (hnext : ∀ i, m ≤ i → i < n → next i = if i + 1 = n then .last else .node (i + 1)) :
    Threads next (if m = n then .last else .node m) (List.range' m (n - m)) := by
  obtain ⟨k, rfl⟩ := Nat.exists_eq_add_of_le hmn
  rw [Nat.add_sub_cancel_left]
  induction k generalizing m with
  | zero => exact if_pos rfl
  | succ k ih =>
    refine ⟨if_neg (by omega), ?_⟩
    have hk : m + (k + 1) = m + 1 + k := by omega
    rw [hnext m (le_refl m) (by omega), hk]
    exact ih (by omega) fun i hm hi => by rw [hnext i (by omega) (by omega), hk]

end Threads

end Foundation
