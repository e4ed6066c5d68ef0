import Mathlib.Algebra.GroupWithZero.Nat
import Mathlib.Data.Nat.ModEq
import Mathlib.Order.Interval.Set.Infinite
import Mathlib.Order.Interval.Finset.Nat

/-!
# The permutation of pgbench

`permute` works on the numbers below `size` in six rounds. Each scrambles the numbers below a power
of two, then those from the other end, and adds an offset.
-/

namespace Umbra.Permute

/-! ### The random numbers -/

structure PrngState where
  s0 : UInt64
  s1 : UInt64

def rotl (x bits : UInt64) : UInt64 := x <<< bits ||| x >>> (64 - bits)

def xoroshiro128ss (s : PrngState) : UInt64 × PrngState :=
  let sx := s.s1 ^^^ s.s0
  (rotl (s.s0 * 5) 7 * 9, ⟨rotl s.s0 24 ^^^ sx ^^^ sx <<< 16, rotl sx 37⟩)

/-- The value for a state that has been advanced. -/
def splitmix64 (state : UInt64) : UInt64 :=
  let val := (state ^^^ state >>> 30) * 0xBF58476D1CE4E5B9
  let val := (val ^^^ val >>> 27) * 0x94D049BB133111EB
  val ^^^ val >>> 31

def pgPrngSeed (seed : UInt64) : PrngState :=
  let seed := seed + 0x9E3779B97f4A7C15
  let s : PrngState := ⟨splitmix64 seed, splitmix64 (seed + 0x9E3779B97f4A7C15)⟩
  if s.s0 = 0 ∧ s.s1 = 0 then ⟨0x5851F42D4C957F2D, 0x14057B7EF767814F⟩ else s

/-- A sum, difference or shift that leaves 64 bits, or a loop that has not ended yet. -/
inductive Stop
  | overflow
  | outOfFuel
  deriving DecidableEq, Repr

/-- The loop of `pg_prng_uint64_range`: numbers above `range` are drawn again. -/
def drawUpTo (range : ℕ) (rshift : UInt64) : ℕ → PrngState → Except Stop (ℕ × PrngState)
  | 0, _ => .error .outOfFuel
  | fuel + 1, s =>
    let (x, s) := xoroshiro128ss s
    let val := (x >>> rshift).toNat
    if range < val then drawUpTo range rshift fuel s else .ok (val, s)

def pgPrngUint64Range (fuel : ℕ) (s : PrngState) (rmin rmax : ℕ) : Except Stop (ℕ × PrngState) :=
  if rmin < rmax then do
    let range := rmax - rmin
    let (val, s) ← drawUpTo range (.ofNat (63 - range.log2)) fuel s
    return (rmin + val, s)
  else .ok (rmin, s)

/-! ### The function -/

def word (x : ℕ) : Except Stop ℕ := if x < 2 ^ 64 then .ok x else .error .overflow

def minus (x y : ℕ) : Except Stop ℕ := if y ≤ x then .ok (x - y) else .error .overflow

/-- The numbers up to the mask. The product is one of 64 bits. -/
def scramble (masklen m r v : ℕ) : Except Stop ℕ := do
  let mask := 2 ^ masklen - 1
  let v := (v * m % 2 ^ 64 ^^^ r) &&& mask
  return ((← word (v <<< 1)) &&& mask) ||| v >>> (masklen - 1)

def lower (masklen m r v : ℕ) : Except Stop ℕ :=
  if v ≤ 2 ^ masklen - 1 then scramble masklen m r v else .ok v

def upper (size masklen m r v : ℕ) : Except Stop ℕ := do
  let t ← minus (← minus size 1) v
  if t ≤ 2 ^ masklen - 1 then minus (← minus size 1) (← scramble masklen m r t) else .ok v

/-- A random number under the mask and the state after it. -/
def draw (masklen : ℕ) (s : PrngState) : ℕ × PrngState :=
  ((xoroshiro128ss s).1.toNat &&& (2 ^ masklen - 1), (xoroshiro128ss s).2)

variable (fuel size : ℕ)

def round (v : ℕ) (s : PrngState) : Except Stop (ℕ × PrngState) := do
  let masklen := size.log2
  let (m, s) := draw masklen s
  let (r, s) := draw masklen s
  let v ← lower masklen (m ||| 1) r v
  let (m, s) := draw masklen s
  let (r, s) := draw masklen s
  let v ← upper size masklen (m ||| 1) r v
  let (r, s) ← pgPrngUint64Range fuel s 0 (size - 1)
  return ((← word (v + r)) % size, s)

def rounds : ℕ → ℕ → PrngState → Except Stop ℕ
  | 0, v, _ => .ok v
  | i + 1, v, s => do
    let (v, s) ← round fuel size v s
    rounds i v s

def permute (val : ℕ) (seed : UInt64) : Except Stop ℕ :=
  if size < 2 then .ok 0 else rounds fuel size 6 (val % size) (pgPrngSeed seed)

/-! ### Steps that lose nothing -/

/-- The step is defined and one-to-one on the numbers below `n` and stays there. -/
structure Permutes (n : ℕ) (f : ℕ → Except Stop ℕ) : Prop where
  exists_lt : ∀ v < n, ∃ w < n, f v = .ok w
  inj : ∀ v < n, ∀ v' < n, f v = f v' → v = v'

variable {fuel size} {n k m r : ℕ} {f g : ℕ → Except Stop ℕ}

lemma ok_bind {α β : Type} (a : α) (f : α → Except Stop β) : Except.ok a >>= f = f a := rfl

namespace Permutes

lemma of_map {h : ℕ → ℕ} (hf : ∀ v < n, f v = .ok (h v)) (hlt : ∀ v < n, h v < n)
    (hinj : ∀ v < n, ∀ v' < n, h v = h v' → v = v') : Permutes n f where
  exists_lt v hv := ⟨h v, hlt v hv, hf v hv⟩
  inj v hv v' hv' heq := by
    rw [hf v hv, hf v' hv'] at heq
    exact hinj v hv v' hv' (Except.ok.inj heq)

lemma bind (hf : Permutes n f) (hg : Permutes n g) : Permutes n fun v => f v >>= g where
  exists_lt v hv := by
    obtain ⟨w, hw, hfw⟩ := hf.exists_lt v hv
    rw [hfw]
    exact hg.exists_lt w hw
  inj v hv v' hv' heq := by
    obtain ⟨w, hw, hfw⟩ := hf.exists_lt v hv
    obtain ⟨w', hw', hfw'⟩ := hf.exists_lt v' hv'
    refine hf.inj v hv v' hv' ?_
    rw [hfw, hfw'] at heq ⊢
    exact congrArg Except.ok (hg.inj w hw w' hw' heq)

lemma congr (hf : Permutes n f) (heq : ∀ v < n, g v = f v) : Permutes n g where
  exists_lt v hv := heq v hv ▸ hf.exists_lt v hv
  inj v hv v' hv' h := hf.inj v hv v' hv' (heq v hv ▸ heq v' hv' ▸ h)

end Permutes

lemma word_eq {x : ℕ} (h : x < 2 ^ 64) : word x = .ok x := if_pos h

lemma minus_eq {x y : ℕ} (h : y ≤ x) : minus x y = .ok (x - y) := if_pos h

section Scramble

variable (hk : k < 62) (hr : r < 2 ^ (k + 1))
include hr

lemma xor_lt (v) : v % 2 ^ (k + 1) ^^^ r < 2 ^ k * 2 := by
  rw [← pow_succ]
  exact Nat.xor_lt_two_pow (Nat.mod_lt _ (Nat.two_pow_pos _)) hr

include hk

lemma scramble_eq (v) : scramble (k + 1) m r v =
    .ok (2 * ((v * m % 2 ^ (k + 1) ^^^ r) % 2 ^ k) + (v * m % 2 ^ (k + 1) ^^^ r) / 2 ^ k) := by
  have hlow : (v * m % 2 ^ 64 ^^^ r) &&& (2 ^ (k + 1) - 1) = v * m % 2 ^ (k + 1) ^^^ r := by
    rw [Nat.and_two_pow_sub_one_eq_mod, Nat.xor_mod_two_pow, Nat.mod_eq_of_lt hr,
      Nat.mod_mod_of_dvd _ (Nat.pow_dvd_pow 2 (by omega))]
  have hlt := xor_lt hr (v * m)
  simp only [scramble, hlow]
  generalize v * m % 2 ^ (k + 1) ^^^ r = w at *
  have hpow : 2 ^ k ≤ 2 ^ 61 := Nat.pow_le_pow_right (by decide) (by omega)
  have htop : w / 2 ^ k < 2 ^ 1 := Nat.div_lt_of_lt_mul hlt
  rw [Nat.shiftLeft_eq, pow_one, word_eq (by omega), ok_bind,
    Nat.and_two_pow_sub_one_eq_mod, pow_succ, Nat.mul_mod_mul_right, Nat.shiftRight_eq_div_pow,
    Nat.add_sub_cancel, mul_comm _ 2]
  exact congrArg Except.ok (Nat.two_pow_add_eq_or_of_lt htop _).symm

lemma scramble_lt (v) : ∃ w < 2 ^ (k + 1), scramble (k + 1) m r v = .ok w := by
  refine ⟨_, ?_, scramble_eq hk hr v⟩
  have htop := Nat.div_lt_of_lt_mul (xor_lt hr (v * m))
  have hlow := Nat.mod_lt (v * m % 2 ^ (k + 1) ^^^ r) (Nat.two_pow_pos k)
  have hpow : 2 ^ (k + 1) = 2 ^ k * 2 := pow_succ 2 k
  omega

lemma permutes_scramble (hm : m % 2 = 1) : Permutes (2 ^ (k + 1)) (scramble (k + 1) m r) := by
  refine ⟨fun v _ => scramble_lt hk hr v, fun v hv v' hv' heq => ?_⟩
  rw [scramble_eq hk hr, scramble_eq hk hr, Except.ok.injEq] at heq
  have htop := Nat.div_lt_of_lt_mul (xor_lt hr (v * m))
  have htop' := Nat.div_lt_of_lt_mul (xor_lt hr (v' * m))
  -- Lowest bit and the others, so the word before the rotation.
  have hxor : v * m % 2 ^ (k + 1) ^^^ r = v' * m % 2 ^ (k + 1) ^^^ r := by
    generalize v * m % 2 ^ (k + 1) ^^^ r = w at *
    generalize v' * m % 2 ^ (k + 1) ^^^ r = w' at *
    obtain ⟨hdiv, hmod⟩ : w / 2 ^ k = w' / 2 ^ k ∧ w % 2 ^ k = w' % 2 ^ k := by
      generalize w / 2 ^ k = d at *
      generalize w' / 2 ^ k = d' at *
      omega
    rw [← Nat.div_add_mod w (2 ^ k), hdiv, hmod, Nat.div_add_mod]
  have hmul := congrArg (· ^^^ r) hxor
  simp only [Nat.xor_assoc, Nat.xor_self, Nat.xor_zero] at hmul
  have hcop : Nat.Coprime 2 m := by
    rw [Nat.Coprime, Nat.gcd_rec, hm]
    rfl
  have hmod : v ≡ v' [MOD 2 ^ (k + 1)] := Nat.ModEq.cancel_right_of_coprime (hcop.pow_left _) hmul
  exact hmod.eq_of_lt_of_lt hv hv'

variable (hsize : 2 ^ (k + 1) ≤ size) (hm : m % 2 = 1)
include hsize hm

lemma permutes_lower : Permutes size (lower (k + 1) m r) := by
  have hs := permutes_scramble hk hr hm
  choose! w hlt heq using hs.exists_lt
  have hmask v : v ≤ 2 ^ (k + 1) - 1 ↔ v < 2 ^ (k + 1) :=
    Nat.le_sub_one_iff_lt (Nat.two_pow_pos _)
  refine .of_map (h := fun v => if v < 2 ^ (k + 1) then w v else v) (fun v _ => ?_)
    (fun v hv => ?_) fun v _ v' _ hvv => ?_
  · simp only [lower, hmask]
    split_ifs with hv
    · exact heq v hv
    · rfl
  · split_ifs with hlow
    · exact (hlt v hlow).trans_le hsize
    · exact hv
  · split_ifs at hvv with hv hv' hv'
    · exact hs.inj v hv v' hv' (by rw [heq v hv, heq v' hv', hvv])
    · exact absurd (hvv ▸ hlt v hv) hv'
    · exact absurd (hvv ▸ hlt v' hv') hv
    · exact hvv

lemma permutes_upper : Permutes size (upper size (k + 1) m r) := by
  have hreflect : Permutes size (minus (size - 1)) :=
    .of_map (fun v hv => minus_eq (Nat.le_sub_one_of_lt hv)) (fun v hv => by omega)
      fun v hv v' hv' heq => by omega
  refine ((hreflect.bind (permutes_lower hk hr hsize hm)).bind hreflect).congr fun v hv => ?_
  have hone : minus size 1 = .ok (size - 1) := minus_eq (Nat.one_le_of_lt hv)
  have hv' := minus_eq (Nat.le_sub_one_of_lt hv)
  have hback : minus (size - 1) (size - 1 - v) = .ok v := by
    rw [minus_eq (Nat.sub_le _ _), Nat.sub_sub_self (Nat.le_sub_one_of_lt hv)]
  simp only [upper, lower, hone, hv', ok_bind]
  split_ifs
  · rfl
  · exact hback.symm

end Scramble

lemma draw_lt (k s) : (draw k s).1 < 2 ^ k := by
  rw [draw, Nat.and_two_pow_sub_one_eq_mod]
  exact Nat.mod_lt _ (Nat.two_pow_pos k)

/-- More fuel changes nothing once the loop ends. -/
lemma drawUpTo_cases (fuel range rshift s) : drawUpTo range rshift fuel s = .error .outOfFuel ∨
    ∃ val s', val ≤ range ∧ ∀ fuel' ≥ fuel, drawUpTo range rshift fuel' s = .ok (val, s') := by
  induction fuel generalizing s with
  | zero => exact .inl rfl
  | succ fuel ih =>
    by_cases hlt : range < ((xoroshiro128ss s).1 >>> rshift).toNat
    · have hstep (fuel) : drawUpTo range rshift (fuel + 1) s =
          drawUpTo range rshift fuel (xoroshiro128ss s).2 := if_pos hlt
      refine (ih (xoroshiro128ss s).2).imp (hstep fuel).trans ?_
      rintro ⟨val, s', hval, hall⟩
      refine ⟨val, s', hval, fun fuel' hge => ?_⟩
      obtain ⟨fuel'', rfl⟩ := Nat.exists_eq_add_one.mpr (Nat.zero_lt_of_lt hge)
      rw [hstep, hall fuel'' (Nat.le_of_succ_le_succ hge)]
    · refine .inr ⟨_, (xoroshiro128ss s).2, Nat.not_lt.mp hlt, fun fuel' hge => ?_⟩
      obtain ⟨fuel'', rfl⟩ := Nat.exists_eq_add_one.mpr (Nat.zero_lt_of_lt hge)
      exact if_neg hlt

lemma pgPrngUint64Range_cases (fuel s rmax) : pgPrngUint64Range fuel s 0 rmax = .error .outOfFuel ∨
    ∃ val s', val ≤ rmax ∧ ∀ fuel' ≥ fuel, pgPrngUint64Range fuel' s 0 rmax = .ok (val, s') := by
  by_cases hpos : 0 < rmax
  · simp only [pgPrngUint64Range, if_pos hpos, Nat.sub_zero, Nat.zero_add]
    refine (drawUpTo_cases fuel rmax (.ofNat (63 - rmax.log2)) s).imp (fun h => ?_) ?_
    · rw [h]
      rfl
    · rintro ⟨val, s', hval, hall⟩
      refine ⟨val, s', hval, fun fuel' hge => ?_⟩
      rw [hall fuel' hge]
      rfl
  · exact .inr ⟨0, s, Nat.zero_le _, fun _ _ => if_neg hpos⟩

variable (hsize : 2 ≤ size) (hlt : size < 2 ^ 63)
include hlt

lemma permutes_offset {offset : ℕ} (hoffset : offset < size) :
    Permutes size fun v => word (v + offset) >>= fun w => .ok (w % size) := by
  refine .of_map (fun v hv => by rw [word_eq (by omega), ok_bind])
    (fun v hv => Nat.mod_lt _ (by omega)) fun v hv v' hv' heq => ?_
  have hmod : v ≡ v' [MOD size] := Nat.ModEq.add_right_cancel' offset heq
  exact hmod.eq_of_lt_of_lt hv hv'

include hsize

lemma exists_log2 : ∃ k < 62, size.log2 = k + 1 ∧ 2 ^ (k + 1) ≤ size := by
  obtain ⟨k, hk⟩ : ∃ k, size.log2 = k + 1 :=
    Nat.exists_eq_add_one.mpr ((Nat.le_log2 (by omega)).mpr hsize)
  have hlog := (Nat.log2_lt (by omega)).mpr hlt
  exact ⟨k, by omega, hk, hk ▸ Nat.log2_self_le (by omega)⟩

/-- The offset does not depend on the value. -/
lemma permutes_round (s) : (∀ v < size, round fuel size v s = .error .outOfFuel) ∨
    ∃ f s', Permutes size f ∧
      ∀ fuel' ≥ fuel, ∀ v, round fuel' size v s = f v >>= fun w => .ok (w, s') := by
  obtain ⟨k, hk, hlog, hle⟩ := exists_log2 hsize hlt
  have hodd (m : ℕ) : (m ||| 1) % 2 = 1 := by
    rw [Nat.or_mod_two_eq_one]
    exact .inr rfl
  let s₁ := (draw (k + 1) s).2
  let s₂ := (draw (k + 1) s₁).2
  let s₃ := (draw (k + 1) s₂).2
  let s₄ := (draw (k + 1) s₃).2
  have hhalves := (permutes_lower hk (draw_lt _ s₁) hle (hodd (draw (k + 1) s).1)).bind
    (permutes_upper hk (draw_lt _ s₃) hle (hodd (draw (k + 1) s₂).1))
  have hround (fuel v) : round fuel size v s =
      (lower (k + 1) ((draw (k + 1) s).1 ||| 1) (draw (k + 1) s₁).1 v >>=
        upper size (k + 1) ((draw (k + 1) s₂).1 ||| 1) (draw (k + 1) s₃).1) >>= fun v =>
          pgPrngUint64Range fuel s₄ 0 (size - 1) >>= fun (r, s) =>
            word (v + r) >>= fun w => .ok (w % size, s) := by
    rw [round, hlog, bind_assoc]
    rfl
  rcases pgPrngUint64Range_cases fuel s₄ (size - 1) with hend | ⟨r, s', hr, hall⟩
  · refine .inl fun v hv => ?_
    obtain ⟨w, -, hw⟩ := hhalves.exists_lt v hv
    rw [hround, hw, ok_bind, hend]
    rfl
  · have hoffset : r < size := by omega
    refine .inr ⟨_, s', hhalves.bind (permutes_offset hlt hoffset), fun fuel' hge v => ?_⟩
    rw [hround, hall fuel' hge]
    simp only [ok_bind, bind_assoc]

lemma permutes_rounds (fuel i s) : (∀ v < size, rounds fuel size i v s = .error .outOfFuel) ∨
    ∃ f, Permutes size f ∧ ∀ fuel' ≥ fuel, ∀ v < size, rounds fuel' size i v s = f v := by
  induction i generalizing s with
  | zero => exact .inr ⟨.ok, .of_map (fun _ _ => rfl) (fun _ => id) fun _ _ _ _ => id,
      fun _ _ _ _ => rfl⟩
  | succ i ih =>
    rcases permutes_round hsize hlt s with hend | ⟨f, s', hf, hround⟩
    · refine .inl fun v hv => ?_
      rw [rounds, hend v hv]
      rfl
    have hstep {fuel'} (hge : fuel' ≥ fuel) {v w} (hw : f v = .ok w) :
        rounds fuel' size (i + 1) v s = rounds fuel' size i w s' := by
      rw [rounds, hround fuel' hge, hw]
      rfl
    rcases ih s' with hend | ⟨g, hg, hrounds⟩
    · refine .inl fun v hv => ?_
      obtain ⟨w, hw, hfw⟩ := hf.exists_lt v hv
      rw [hstep le_rfl hfw, hend w hw]
    · refine .inr ⟨_, hf.bind hg, fun fuel' hge v hv => ?_⟩
      obtain ⟨w, hw, hfw⟩ := hf.exists_lt v hv
      rw [hstep hge hfw, hrounds fuel' hge w hw, hfw]
      rfl

omit hsize hlt

/-- For every `int64` size from 1 on and every seed, once the draws of the offsets end for one
value: they end for all, with no overflow but of the products, and the scrambled numbers stay under
the mask. -/
theorem permute_bijOn {fuel size : ℕ} (hsize : 1 ≤ size) (hlt : size < 2 ^ 63) {seed : UInt64}
    {val₀ : ℕ} (hend : permute fuel size val₀ seed ≠ .error .outOfFuel) :
    (∃ f : ℕ → ℕ, (∀ fuel' ≥ fuel, ∀ val < size, permute fuel' size val seed = .ok (f val)) ∧
      Set.BijOn f (Set.Iio size) (Set.Iio size)) ∧
    (2 ≤ size → ∀ m r v, r < 2 ^ size.log2 →
      ∃ w < 2 ^ size.log2, scramble size.log2 m r v = .ok w) := by
  obtain ⟨g, hperm, hall⟩ : ∃ g, Permutes size g ∧
      ∀ fuel' ≥ fuel, ∀ v < size, permute fuel' size v seed = g v := by
    by_cases h : size < 2
    · cases Nat.le_antisymm (Nat.le_of_lt_succ h) hsize
      exact ⟨fun _ => .ok 0, .of_map (fun _ _ => rfl) (fun _ _ => Nat.one_pos)
        fun v hv v' hv' _ => by omega, fun _ _ _ _ => rfl⟩
    · have hval (fuel val) : permute fuel size val seed =
          rounds fuel size 6 (val % size) (pgPrngSeed seed) := if_neg h
      rcases permutes_rounds (not_lt.mp h) hlt fuel 6 (pgPrngSeed seed) with hstop | hrun
      · exact absurd (hstop _ (Nat.mod_lt _ hsize)) (hval fuel val₀ ▸ hend)
      · obtain ⟨g, hg, hrounds⟩ := hrun
        refine ⟨g, hg, fun fuel' hge v hv => ?_⟩
        rw [hval, Nat.mod_eq_of_lt hv, hrounds fuel' hge v hv]
  constructor
  · choose! f hf hfv using hperm.exists_lt
    refine ⟨f, fun fuel' hge v hv => (hall fuel' hge v hv).trans (hfv v hv),
      (Set.Finite.injOn_iff_bijOn_of_mapsTo (Set.finite_Iio size) hf).mp ?_⟩
    intro v hv v' hv' heq
    refine hperm.inj v hv v' hv' ?_
    rw [hfv v hv, hfv v' hv', heq]
  · intro htwo m r v hr
    obtain ⟨k, hk, hlog, -⟩ := exists_log2 htwo hlt
    rw [hlog] at hr ⊢
    exact scramble_lt hk hr v

/-- The first product for `size = 2 ^ 62`, `val = 2 ^ 62 - 1` and `seed = 0`. -/
theorem product_overflows : (2 ^ 62).log2 = 62 ∧
    2 ^ 64 ≤ (2 ^ 62 - 1) % 2 ^ 62 * ((draw 62 (pgPrngSeed 0)).1 ||| 1) := by
  decide

/-- One of the six offsets takes a second draw. -/
theorem permute_bijOn_hundred :
    permute 1 100 42 7 = .error .outOfFuel ∧ permute 2 100 42 7 = .ok 45 ∧
    ∃ f : ℕ → ℕ, (∀ fuel ≥ 2, ∀ val < 100, permute fuel 100 val 7 = .ok (f val)) ∧
      Set.BijOn f (Set.Iio 100) (Set.Iio 100) :=
  ⟨by decide, by decide,
    (permute_bijOn (by decide) (by decide) (show permute _ _ 42 _ ≠ _ by decide)).1⟩

end Umbra.Permute
