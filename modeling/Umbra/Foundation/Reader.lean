import Mathlib.Tactic.Ring

/-!
# Reading fields from byte strings

A `Reader` consumes bytes from the front of a byte string and may fail. `Parses r bs a` says that
`r` reads exactly the bytes `bs` and returns `a`, whatever follows them; it composes along the
structure of the reader. `Consumes r` says that a successful read leaves the rest of what it was
given.
-/

namespace Foundation

/-- Readers of a byte string, with errors of type `ε`. -/
abbrev Reader (ε : Type) := StateT (List UInt8) (Except ε)

def leNat : List UInt8 → Nat
  | [] => 0
  | b :: bs => b.toNat + 256 * leNat bs

/-- The `n` low bytes of a number, in little-endian order. -/
def toLE : Nat → Nat → List UInt8
  | 0, _ => []
  | n + 1, v => UInt8.ofNat v :: toLE n (v / 256)

@[simp] lemma length_toLE (n v) : (toLE n v).length = n := by
  induction n generalizing v with
  | zero => rfl
  | succ n ih => rw [toLE, List.length_cons, ih]

lemma leNat_toLE {n v} (h : v < 256 ^ n) : leNat (toLE n v) = v := by
  induction n generalizing v with
  | zero =>
    rw [Nat.pow_zero, Nat.lt_one_iff] at h
    rw [h]
    rfl
  | succ n ih =>
    have hdiv : v / 256 < 256 ^ n := Nat.div_lt_of_lt_mul (by rwa [Nat.pow_succ'] at h)
    rw [toLE, leNat, ih hdiv, UInt8.toNat_ofNat']
    exact Nat.mod_add_div v 256

namespace Reader

variable {ε α β : Type} {r : Reader ε α} {f : α → Reader ε β} {bs bs' rest : List UInt8} {a : α}
  {b : β} {e : ε} {n : Nat}

/-- Read an `n`-byte number, or fail with `e` if the bytes run out. -/
def field (e : ε) (n : Nat) : Reader ε Nat := fun bs =>
  if bs.length < n then .error e else .ok (leNat (bs.take n), bs.drop n)

/-- Fail with `e` if the condition holds. -/
def check (c : Bool) (e : ε) : Reader ε Unit := if c then throw e else pure ()

/-- The reader reads exactly `bs` and returns `a`, whatever follows. -/
def Parses (r : Reader ε α) (bs : List UInt8) (a : α) : Prop :=
  ∀ rest, r (bs ++ rest) = .ok (a, rest)

/-- What a successful read leaves is a suffix of what it was given. -/
def Consumes (r : Reader ε α) : Prop := ∀ bs a rest, r bs = .ok (a, rest) → rest <:+ bs

/-! ### Exact reads -/

lemma Parses.pure (a) : Parses (pure a : Reader ε α) [] a := fun _ => rfl

lemma Parses.bind (h : Parses r bs a) (hf : Parses (f a) bs' b) :
    Parses (r >>= f) (bs ++ bs') b := by
  intro rest
  show (r (bs ++ bs' ++ rest)).bind _ = _
  rw [List.append_assoc, h]
  exact hf rest

/-- A step that reads nothing. -/
lemma Parses.bind_nil (h : Parses r [] a) (hf : Parses (f a) bs b) : Parses (r >>= f) bs b :=
  h.bind hf

/-- A last step that reads nothing. -/
lemma Parses.bind_last (h : Parses r bs a) (hf : Parses (f a) [] b) : Parses (r >>= f) bs b := by
  rw [← List.append_nil bs]
  exact h.bind hf

variable {v : Nat} {g : α → β} {c : Bool}

lemma Parses.field (h : v < 256 ^ n) : Parses (field e n) (toLE n v) v := by
  intro rest
  have hlen := length_toLE n v
  rw [Reader.field, if_neg (by simp), List.take_left' hlen, List.drop_left' hlen, leNat_toLE h]

lemma Parses.map (h : Parses r bs a) : Parses (g <$> r) bs (g a) :=
  fun rest => h.bind_last (f := fun a => Pure.pure (g a)) (.pure (g a)) rest

lemma Parses.check (h : c = false) : Parses (check c e) [] () := by
  rw [Reader.check, h]
  exact .pure ()

/-! ### Consumption -/

lemma pure_eq_ok {a'} (h : (pure a : Reader ε α) bs = .ok (a', rest)) : a' = a ∧ rest = bs := by
  cases h
  exact ⟨rfl, rfl⟩

lemma Consumes.pure (a) : Consumes (pure a : Reader ε α) := by
  intro bs a' rest h
  cases h
  exact List.suffix_refl _

lemma Consumes.throw (e) : Consumes (throw e : Reader ε α) := by
  intro bs a' rest h
  cases h

lemma bind_eq_ok (h : (r >>= f) bs = .ok (b, rest)) :
    ∃ a mid, r bs = .ok (a, mid) ∧ f a mid = .ok (b, rest) := by
  change (r bs).bind _ = _ at h
  cases hr : r bs with
  | error =>
    rw [hr] at h
    cases h
  | ok p =>
    rw [hr] at h
    exact ⟨p.1, p.2, rfl, h⟩

lemma map_eq_ok (h : (g <$> r) bs = .ok (b, rest)) : ∃ a, r bs = .ok (a, rest) ∧ b = g a := by
  obtain ⟨a, mid, hr, hpure⟩ := bind_eq_ok (f := fun a => pure (g a)) h
  obtain ⟨rfl, rfl⟩ := pure_eq_ok hpure
  exact ⟨a, hr, rfl⟩

lemma Consumes.bind (h : Consumes r) (hf : ∀ a, Consumes (f a)) : Consumes (r >>= f) := by
  intro bs b rest hb
  obtain ⟨a, mid, hr, hfa⟩ := bind_eq_ok hb
  exact (hf a mid b rest hfa).trans (h bs a mid hr)

lemma Consumes.ite {c} [Decidable c] {r'} (h : Consumes r) (h' : Consumes r') :
    Consumes (if c then r else r') := by
  split
  · exact h
  · exact h'

lemma field_eq_ok (h : field e n bs = .ok (v, rest)) :
    n ≤ bs.length ∧ v = leNat (bs.take n) ∧ rest = bs.drop n := by
  rw [field] at h
  split_ifs at h with hlt
  · cases h
    exact ⟨le_of_not_gt hlt, rfl, rfl⟩

lemma Consumes.field (e : ε) (n : Nat) : Consumes (field e n) := by
  intro bs v rest h
  rw [(field_eq_ok h).2.2]
  exact List.drop_suffix n bs

lemma Consumes.check (c : Bool) (e : ε) : Consumes (check c e) :=
  .ite (.throw e) (.pure ())

lemma check_eq_ok {u} (h : check c e bs = .ok (u, rest)) : c = false ∧ rest = bs := by
  cases c with
  | true => cases h
  | false =>
    cases h
    exact ⟨rfl, rfl⟩

lemma Consumes.map (h : Consumes r) : Consumes (g <$> r) :=
  h.bind fun a => .pure (g a)

lemma field_length (h : field e n bs = .ok (v, rest)) : rest.length + n = bs.length := by
  obtain ⟨hle, -, rfl⟩ := field_eq_ok h
  rw [List.length_drop, Nat.sub_add_cancel hle]

end Reader

end Foundation
