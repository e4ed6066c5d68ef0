import Mathlib.Algebra.GroupWithZero.Nat
import Mathlib.Tactic.IntervalCases

/-!
# Julian day numbers

`date2j` and `j2date` of `datetime.c` on the dates of the Gregorian calendar from 4714-11-01 BC to
5874898-06-03, the last day with a number that is an `int`.
-/

namespace Umbra.Julian

/-- Years up to 0 are BC. -/
structure Date where
  year : ℤ
  month : ℤ
  day : ℤ
  deriving DecidableEq

/-- A result of type `int`; `none` is an overflow. -/
def int (x : ℤ) : Option ℤ := if -2 ^ 31 ≤ x ∧ x < 2 ^ 31 then some x else none

def date2j (t : Date) : Option ℤ := do
  let month ← int (t.month + if t.month > 2 then 1 else 13)
  let year ← int (t.year + if t.month > 2 then 4800 else 4799)
  let century ← int (year.tdiv 100)
  let julian ← int ((← int (year * 365)) - 32167)
  let julian ← int (julian + (← int ((← int (year.tdiv 4 - century)) + century.tdiv 4)))
  int (julian + (← int ((← int (7834 * month)).tdiv 256 + t.day)))

/-- `unsigned` says what becomes of a result of that type. The conversion of `jd` and the first
addition are always modulo `2 ^ 32`. -/
def j2date (unsigned : ℤ → Option ℤ) (jd : ℤ) : Option Date := do
  let julian ← unsigned ((jd + 32044) % 2 ^ 32)
  let quad ← unsigned (julian / 146097)
  let extra ← unsigned (julian - (← unsigned (quad * 146097)))
  let extra ← unsigned ((← unsigned (extra * 4)) + 3)
  let julian ← unsigned (julian +
    (← unsigned ((← unsigned (60 + (← unsigned (quad * 3)))) + extra / 146097)))
  let quad ← unsigned (julian / 1461)
  let julian ← unsigned (julian - (← unsigned (quad * 1461)))
  let y ← int ((← unsigned (julian * 4)) / 1461)
  let julian ← unsigned (julian + if y ≠ 0 then 305 else 306)
  let julian ← unsigned (julian % (if y ≠ 0 then 365 else 366) + 123)
  let y ← int (← unsigned (y + (← unsigned (quad * 4))))
  let year ← int (y - 4800)
  let quad ← unsigned ((← unsigned (julian * 2141)) / 65536)
  let day ← int (← unsigned (julian - (← unsigned (7834 * quad)) / 256))
  let month ← int ((← unsigned (quad + 10)) % 12 + 1)
  return { year, month, day }

def wrapping (x : ℤ) : Option ℤ := some (x % 2 ^ 32)

def exact (x : ℤ) : Option ℤ := if 0 ≤ x ∧ x < 2 ^ 32 then some x else none

/-! ### The calendar -/

def isleap (y : ℤ) : Bool := y.tmod 4 = 0 ∧ (y.tmod 100 ≠ 0 ∨ y.tmod 400 = 0)

def dayTab : Bool → List ℤ
  | false => [31, 28, 31, 30, 31, 30, 31, 31, 30, 31, 30, 31, 0]
  | true => [31, 29, 31, 30, 31, 30, 31, 31, 30, 31, 30, 31, 0]

namespace Date

variable {t : Date}

def monthLength (t : Date) : ℤ := (dayTab (isleap t.year)).getD (t.month - 1).toNat 0

def next (t : Date) : Date :=
  if t.day < t.monthLength then { t with day := t.day + 1 }
  else if t.month < 12 then { t with month := t.month + 1, day := 1 }
  else { year := t.year + 1, month := 1, day := 1 }

structure Valid (t : Date) : Prop where
  month : 1 ≤ t.month ∧ t.month ≤ 12
  day : 1 ≤ t.day ∧ t.day ≤ t.monthLength

structure Supported (t : Date) : Prop extends t.Valid where
  first : -4713 < t.year ∨ t.year = -4713 ∧ 11 ≤ t.month
  last : t.year < 5874898 ∨
    t.year = 5874898 ∧ (t.month < 6 ∨ t.month = 6 ∧ t.day ≤ 3)

/-- The year that begins with March, counted from 4801 BC. -/
def marchYear (t : Date) : ℤ := t.year + if t.month > 2 then 4800 else 4799

def marchMonth (t : Date) : ℤ := t.month + if t.month > 2 then 1 else 13

/-- The day of that year, from 0 on. -/
def marchDay (t : Date) : ℤ := 7834 * t.marchMonth / 256 + t.day - 123

end Date

def daysBefore (year : ℤ) : ℤ := 365 * year + year / 4 - year / 100 + year / 400

def Date.number (t : Date) : ℤ := daysBefore t.marchYear + t.marchDay - 32044

variable {t : Date}

lemma isleap_iff (y) : isleap y = true ↔ y % 4 = 0 ∧ (y % 100 ≠ 0 ∨ y % 400 = 0) := by
  simp only [isleap, decide_eq_true_eq, ne_eq, ← Int.dvd_iff_tmod_eq_zero, Int.dvd_iff_emod_eq_zero]

namespace Date

lemma daysBefore_succ (y) : daysBefore (y + 1) = daysBefore y +
    if isleap (y + 1) then 366 else 365 := by
  have h4 : (y + 1) / 4 = y / 4 + if (y + 1) % 4 = 0 then 1 else 0 := by split_ifs <;> omega
  have h100 : (y + 1) / 100 = y / 100 + if (y + 1) % 100 = 0 then 1 else 0 := by
    split_ifs <;> omega
  have h400 : (y + 1) / 400 = y / 400 + if (y + 1) % 400 = 0 then 1 else 0 := by
    split_ifs <;> omega
  simp only [daysBefore, isleap_iff, h4, h100, h400]
  split_ifs <;> omega

lemma daysBefore_feb (y) : daysBefore (y + 4800) = daysBefore (y + 4799) +
    if isleap y then 366 else 365 := by
  have hleap : isleap (y + 4799 + 1) = true ↔ isleap y = true := by
    rw [isleap_iff, isleap_iff]
    omega
  rw [← if_congr hleap rfl rfl, ← daysBefore_succ, add_assoc]
  rfl

lemma monthLength_cases (h : 1 ≤ t.month ∧ t.month ≤ 12) :
    t.month = 2 ∧ t.monthLength = daysBefore (t.year + 4800) - daysBefore (t.year + 4799) - 337 ∨
      t.month ≠ 2 ∧
        t.monthLength = 7834 * (t.marchMonth + 1) / 256 - 7834 * t.marchMonth / 256 := by
  obtain ⟨y, m, d⟩ := t
  obtain ⟨hfirst, hlast⟩ := h
  simp only [monthLength, marchMonth, daysBefore_feb, add_sub_cancel_left] at *
  cases isleap y <;> interval_cases m <;> simp [dayTab]

lemma one_le_monthLength (h : 1 ≤ t.month ∧ t.month ≤ 12) : 1 ≤ t.monthLength := by
  rcases monthLength_cases h with ⟨-, heq⟩ | ⟨-, heq⟩
  · rw [heq, daysBefore_feb]
    split_ifs <;> omega
  · omega

lemma next_cases (h : t.Valid) :
    t.day < t.monthLength ∧ t.next = { t with day := t.day + 1 } ∨ t.day = t.monthLength ∧
      (t.month < 12 ∧ t.next = { t with month := t.month + 1, day := 1 } ∨
        t.month = 12 ∧ t.next = ⟨t.year + 1, 1, 1⟩) := by
  unfold next
  split_ifs with hday hmonth
  · exact .inl ⟨hday, rfl⟩
  · exact .inr ⟨le_antisymm h.day.2 (not_lt.mp hday), .inl ⟨hmonth, rfl⟩⟩
  · exact .inr ⟨le_antisymm h.day.2 (not_lt.mp hday),
      .inr ⟨le_antisymm h.month.2 (not_lt.mp hmonth), rfl⟩⟩

lemma Valid.next (h : t.Valid) : t.next.Valid := by
  rcases next_cases h with ⟨hlt, heq⟩ | ⟨-, ⟨hlt, heq⟩ | ⟨-, heq⟩⟩ <;> rw [heq]
  · exact ⟨h.month, h.day.1.trans (Int.le_add_one le_rfl), hlt⟩
  · have hmonth : 1 ≤ t.month + 1 ∧ t.month + 1 ≤ 12 :=
      ⟨h.month.1.trans (Int.le_add_one le_rfl), hlt⟩
    exact ⟨hmonth, le_rfl, one_le_monthLength hmonth⟩
  · have hmonth : (1 : ℤ) ≤ 1 ∧ (1 : ℤ) ≤ 12 := by decide
    exact ⟨hmonth, le_rfl, one_le_monthLength hmonth⟩

lemma number_next (h : t.Valid) : t.next.number = t.number + 1 := by
  have hlength := monthLength_cases h.month
  rcases next_cases h with ⟨-, heq⟩ | ⟨hday, ⟨-, heq⟩ | ⟨hmonth, heq⟩⟩ <;> rw [heq] <;>
    simp only [number, marchYear, marchDay, marchMonth] at *
  · omega
  · rcases hlength with ⟨hmonth, hlength⟩ | ⟨hmonth, hlength⟩
    · simp only [hmonth] at *
      norm_num at *
      omega
    · split_ifs at * <;> omega
  · simp only [hmonth] at *
    norm_num at *
    rw [show t.year + 1 + 4799 = t.year + 4800 by omega]
    omega

namespace Supported

variable (h : t.Supported)
include h

lemma marchDay_spec : 0 ≤ t.marchDay ∧ t.marchDay ≤ 365 ∧
    (t.marchDay + 123) * 2141 / 65536 = t.marchMonth ∧ (t.marchDay < 306 ↔ 2 < t.month) ∧
    (t.marchDay = 365 → t.marchYear = t.year + 4799 ∧ isleap t.year) := by
  have hday := h.day
  have hlength := monthLength_cases h.month
  rw [daysBefore_feb, add_sub_cancel_left] at hlength
  obtain ⟨hfirst, hlast⟩ := h.month
  simp only [marchDay, marchMonth, marchYear] at *
  generalize t.month = m at *
  generalize isleap t.year = leap at *
  cases leap <;> interval_cases m <;> norm_num at * <;> omega

lemma marchYear_bounds : (88 ≤ t.marchYear ∨ t.marchYear = 87 ∧ 245 ≤ t.marchDay) ∧
    (t.marchYear < 5879698 ∨ t.marchYear = 5879698 ∧ t.marchDay ≤ 94) := by
  have hday := h.day
  have hlength := monthLength_cases h.month
  have hfirst := h.first
  have hlast := h.last
  obtain ⟨hmonth, hmonth'⟩ := h.month
  simp only [marchYear, marchDay, marchMonth] at *
  generalize t.month = m at *
  interval_cases m <;> norm_num at * <;> omega

lemma next (hlt : t.number < 2147483647) : t.next.Supported := by
  have hfirst := h.first
  have hlast := h.last
  have hlength := monthLength_cases h.month
  have hne : ¬ (t.year = 5874898 ∧ t.month = 6 ∧ t.day = 3) := by
    obtain ⟨y, m, d⟩ := t
    rintro ⟨rfl, rfl, rfl⟩
    exact absurd hlt (by decide)
  have hnext := next_cases h.toValid
  have hjune : t.month = 6 → t.monthLength = 30 := by
    intro hmonth
    rw [marchMonth, hmonth] at hlength
    omega
  clear hlength hlt
  refine ⟨h.toValid.next, ?_, ?_⟩
  all_goals
    rcases hnext with ⟨hlt, heq⟩ | ⟨hday, ⟨hlt, heq⟩ | ⟨hmonth, heq⟩⟩ <;> rw [heq] <;>
      dsimp only <;> omega

end Supported

end Date

/-! ### The two functions -/

lemma bind_eq {β : Type} {g : ℤ → Option ℤ} {x v : ℤ} {f : ℤ → Option β} {r : Option β}
    (hg : g v = some v) (hx : x = v) (h : f v = r) : g x >>= f = r := by
  rw [hx, hg]
  exact h

lemma int_eq {v} (h : -2 ^ 31 ≤ v ∧ v < 2 ^ 31) : int v = some v := if_pos h

lemma marchDay_add (t : Date) : t.marchDay + 123 = 7834 * t.marchMonth / 256 + t.day := by
  unfold Date.marchDay
  omega

lemma date2j_eq (h : t.Supported) : date2j t = some t.number := by
  have hyear := h.marchYear_bounds
  have hadd := marchDay_add t
  obtain ⟨hday, hday', hmonth, -⟩ := h.marchDay_spec
  simp only [Date.number, daysBefore] at *
  have htdiv {x : ℤ} (hx : 0 ≤ x) (k : ℤ) : x.tdiv k = x / k := Int.tdiv_eq_ediv_of_nonneg hx
  refine bind_eq (v := t.marchMonth) (int_eq (by omega)) rfl ?_
  refine bind_eq (v := t.marchYear) (int_eq (by omega)) rfl ?_
  generalize t.marchYear = y at *
  refine bind_eq (v := y / 100) (int_eq (by omega)) (htdiv (by omega) 100) ?_
  refine bind_eq (int_eq (by omega)) rfl ?_
  refine bind_eq (int_eq (by omega)) rfl ?_
  rw [htdiv (by omega), htdiv (by omega)]
  refine bind_eq (int_eq (by omega)) rfl ?_
  refine bind_eq (v := y / 4 - y / 100 + y / 400) (int_eq (by omega)) (by omega) ?_
  refine bind_eq (int_eq (by omega)) rfl ?_
  refine bind_eq (int_eq (by omega)) rfl ?_
  rw [htdiv (by omega), ← hadd]
  refine bind_eq (int_eq (by omega)) rfl ?_
  exact (if_pos (by omega)).trans (congrArg some (by omega))

section

variable {u : ℤ → Option ℤ} (hu : ∀ {x}, 0 ≤ x ∧ x < 2 ^ 32 → u x = some x)
include hu

lemma j2date_number (h : t.Supported) : j2date u t.number = some t := by
  have hyear := h.marchYear_bounds
  obtain ⟨hn, hn', -, hjan, hlast⟩ := h.marchDay_spec
  -- The year in its 400 years, its century and its four years.
  obtain ⟨q, c, a, b, hq, hc, ha, hb, hY⟩ : ∃ q c a b : ℤ, (0 ≤ q ∧ q < 20000) ∧
      (0 ≤ c ∧ c < 4) ∧ (0 ≤ a ∧ a < 25) ∧ (0 ≤ b ∧ b < 4) ∧
      t.marchYear = 400 * q + 100 * c + 4 * a + b :=
    ⟨t.marchYear / 400, t.marchYear % 400 / 100, t.marchYear % 100 / 4, t.marchYear % 4, by omega⟩
  have hdays : daysBefore t.marchYear = 146097 * q + 36524 * c + 1461 * a + 365 * b := by
    unfold daysBefore
    omega
  have hleap : t.marchDay = 365 → b = 3 ∧ (a = 24 → c = 3) := by
    intro hday
    obtain ⟨hyear, hleap⟩ := hlast hday
    rw [isleap_iff] at hleap
    omega
  rw [Date.number, hdays]
  clear hlast hdays hyear
  refine bind_eq (v := 146097 * q + (36524 * c + 1461 * a + 365 * b + t.marchDay))
    (hu (by omega)) (by omega) ?_
  refine bind_eq (v := q) (hu (by omega)) (by omega) ?_
  refine bind_eq (hu (by omega)) rfl ?_
  refine bind_eq (v := 36524 * c + 1461 * a + 365 * b + t.marchDay) (hu (by omega))
    (by omega) ?_
  iterate 4 refine bind_eq (hu (by omega)) rfl ?_
  refine bind_eq (v := 60 + q * 3 + c) (hu (by omega)) (by omega) ?_
  -- From here on years begin with January, the first of four years has 366 days.
  obtain ⟨Q, B, k, hB, hk, hcycle⟩ : ∃ Q B k, t.year + 4800 = 4 * Q + B ∧
      (B = 0 ∧ 0 ≤ k ∧ k < 366 ∧ (k + 306) % 366 = t.marchDay ∨
        0 < B ∧ B < 4 ∧ 1 ≤ k ∧ k < 366 ∧ (365 * B + k + 305) % 365 = t.marchDay) ∧
      146097 * q + (36524 * c + 1461 * a + 365 * b + t.marchDay) + (60 + q * 3 + c) =
        1461 * Q + (365 * B + k) := by
    by_cases hmonth : 2 < t.month
    · have hyear : t.marchYear = t.year + 4800 := congrArg (t.year + ·) (if_pos hmonth)
      exact ⟨100 * q + 25 * c + a, b, t.marchDay + 60, by omega, by omega, by omega⟩
    · have hyear : t.marchYear = t.year + 4799 := congrArg (t.year + ·) (if_neg hmonth)
      by_cases h3 : b = 3
      · exact ⟨100 * q + 25 * c + a + 1, 0, t.marchDay - 306, by omega, by omega, by omega⟩
      · exact ⟨100 * q + 25 * c + a, b + 1, t.marchDay - 305, by omega, by omega, by omega⟩
  clear hjan hleap
  refine bind_eq (hu (by omega)) hcycle ?_
  refine bind_eq (v := Q) (hu (by omega)) (by omega) ?_
  refine bind_eq (hu (by omega)) rfl ?_
  refine bind_eq (v := 365 * B + k) (hu (by omega)) (by omega) ?_
  refine bind_eq (hu (by omega)) rfl ?_
  refine bind_eq (v := B) (int_eq (by omega)) (by omega) ?_
  refine bind_eq (hu (by split_ifs <;> omega)) rfl ?_
  refine bind_eq (v := t.marchDay + 123) (hu (by omega)) (by split_ifs <;> omega) ?_
  refine bind_eq (hu (by omega)) rfl ?_
  refine bind_eq (v := t.year + 4800) (hu (by omega)) (by omega) ?_
  refine bind_eq (int_eq (by omega)) rfl ?_
  refine bind_eq (v := t.year) (int_eq (by omega)) (by omega) ?_
  obtain ⟨-, -, hmarch, -, -⟩ := h.marchDay_spec
  have hadd := marchDay_add t
  have hmonth := h.month
  refine bind_eq (hu (by omega)) rfl ?_
  refine bind_eq (hu (by omega)) hmarch ?_
  refine bind_eq (hu (by omega)) rfl ?_
  refine bind_eq (v := t.day) (hu (by omega)) (by omega) ?_
  refine bind_eq (int_eq (by omega)) rfl ?_
  refine bind_eq (hu (by omega)) rfl ?_
  refine bind_eq (v := t.month) (int_eq (by omega)) ?_ rfl
  unfold Date.marchMonth
  split_ifs <;> omega

end

/-- The numbers of the supported dates go up by one from day to day, from `-23` to the last `int`,
and `j2date` takes each back to its date; no `int` overflows, and past the first addition no
`unsigned` computation wraps around. -/
theorem date2j_j2date :
    (∀ t : Date, t.Supported → ∃ j, date2j t = some j ∧ j2date wrapping j = some t ∧
      j2date exact j = some t ∧ (t.next.Supported → date2j t.next = some (j + 1))) ∧
    ∀ j, -23 ≤ j → j ≤ 2147483647 → ∃ t : Date, t.Supported ∧ date2j t = some j := by
  constructor
  · intro t h
    refine ⟨t.number, date2j_eq h, ?_, ?_, fun hnext => ?_⟩
    · exact j2date_number (fun hx => congrArg some (Int.emod_eq_of_lt hx.1 hx.2)) h
    · exact j2date_number (fun hx => if_pos hx) h
    · rw [date2j_eq hnext, Date.number_next h.toValid]
  · intro j hj
    induction j, hj using Int.leInduction with
    | base => exact fun _ => ⟨⟨-4713, 11, 1⟩, ⟨⟨by decide, by decide⟩, by decide, by decide⟩, rfl⟩
    | succ j _ ih =>
      intro hle
      obtain ⟨t, h, hj⟩ := ih (by omega)
      cases hj.symm.trans (date2j_eq h)
      have hnext : t.next.Supported := h.next (by omega)
      exact ⟨t.next, hnext, by rw [date2j_eq hnext, Date.number_next h.toValid]⟩

end Umbra.Julian
