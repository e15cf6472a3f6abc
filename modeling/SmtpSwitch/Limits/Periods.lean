import Mathlib.Data.Rat.Floor
import Mathlib.Data.String.Basic
import SmtpSwitch.Calendar
import SmtpSwitch.RateLimiter

/-!
# The period keys

A month key is made from a number of months (`monthIndex`, `monthLabel`), and is compared as
that number is, since its digits have a fixed width (`padded_lt_iff`). A reset day is where the
number goes up (`monthIndex_le_iff`), so the keys are the same on both sides of a stretch of
time that holds no reset, and go up over one that does (`month_keys_partition`). -/

namespace SmtpSwitch

/-! ### Digits of a fixed width -/

/-- The last `width` digits of `n`. -/
def fixedDigits : ℕ → ℕ → List Char
  | 0, _ => []
  | width + 1, n => fixedDigits width (n / 10) ++ [Nat.digitChar (n % 10)]

@[simp] theorem fixedDigits_length (width n : ℕ) : (fixedDigits width n).length = width := by
  induction width generalizing n with
  | zero => rfl
  | succ width ih => simp [fixedDigits, ih]

theorem fixedDigits_zero (width : ℕ) : fixedDigits width 0 = List.replicate width '0' := by
  induction width with
  | zero => rfl
  | succ width ih => rw [fixedDigits, Nat.zero_div, ih, List.replicate_succ']; rfl

/-- A number that has no more digits is padded to `width` of them. -/
theorem padded_toList {width n : ℕ} (h : n < 10 ^ (width + 1)) :
    (padded (width + 1) n).toList = fixedDigits (width + 1) n := by
  rw [padded, String.toList_ofList]
  induction width generalizing n with
  | zero =>
    rw [Nat.toDigits_of_lt_base (by simpa using h), fixedDigits, fixedDigits,
      Nat.mod_eq_of_lt (by simpa using h)]
    rfl
  | succ width ih =>
    rw [Nat.toDigits_eq_if (by decide)]
    split
    · rename_i one
      rw [fixedDigits, Nat.div_eq_of_lt one, fixedDigits_zero, Nat.mod_eq_of_lt one]
      rfl
    · rename_i more
      have fits : n / 10 < 10 ^ (width + 1) := Nat.div_lt_of_lt_mul (by rwa [← Nat.pow_succ'])
      rw [fixedDigits, ← ih fits, List.append_assoc]
      simp

/-- Words of one length, each followed by another: one that differs decides. -/
theorem append_lt_append {xs ys us vs : List Char} (same : xs.length = ys.length) (h : xs < ys) :
    xs ++ us < ys ++ vs := by
  induction xs generalizing ys with
  | nil =>
    obtain rfl : ys = [] := List.length_eq_zero_iff.mp same.symm
    exact absurd h (List.not_lt_nil _)
  | cons x xs ih =>
    cases ys with
    | nil => cases same
    | cons y ys =>
      rw [List.cons_append, List.cons_append, List.cons_lt_cons_iff]
      rcases List.cons_lt_cons_iff.mp h with first | ⟨rfl, later⟩
      · exact .inl first
      · exact .inr ⟨rfl, ih (Nat.succ.inj same) later⟩

theorem digitChar_lt {m n : ℕ} (h : m < n) (hn : n < 10) : Nat.digitChar m < Nat.digitChar n := by
  have order : (Nat.digitChar m).toNat < (Nat.digitChar n).toNat := by
    rw [Nat.toNat_digitChar_of_lt_ten hn, Nat.toNat_digitChar_of_lt_ten (h.trans hn)]
    exact Nat.add_lt_add_left h 48
  exact order

/-- A smaller number has the smaller digits. -/
theorem fixedDigits_lt {width m n : ℕ} (h : m < n) (hn : n < 10 ^ width) :
    fixedDigits width m < fixedDigits width n := by
  induction width generalizing m n with
  | zero =>
    rw [pow_zero] at hn
    omega
  | succ width ih =>
    have fits : n / 10 < 10 ^ width := Nat.div_lt_of_lt_mul (by rwa [← Nat.pow_succ'])
    rcases (Nat.div_le_div_right h.le : m / 10 ≤ n / 10).lt_or_eq with front | front
    · exact append_lt_append (by simp) (ih front fits)
    · -- only the last digits differ
      rw [fixedDigits, fixedDigits, front]
      apply List.append_left_lt
      rw [List.cons_lt_cons_iff]
      exact .inl (digitChar_lt (by omega) (Nat.mod_lt n (by decide)))

/-- Digits of a fixed width tell numbers apart. -/
theorem fixedDigits_inj {width m n : ℕ} (hm : m < 10 ^ width) (hn : n < 10 ^ width)
    (h : fixedDigits width m = fixedDigits width n) : m = n := by
  rcases lt_trichotomy m n with less | rfl | more
  · exact absurd (h ▸ fixedDigits_lt less hn) (List.lt_irrefl _)
  · rfl
  · exact absurd (h ▸ fixedDigits_lt more hm) (List.lt_irrefl _)

/-! ### The month key -/

/-- The number of the billing month a date is in: the calendar month, or the one before it until
the reset day. -/
def Date.monthIndex (r : ℕ) (d : Date) : ℕ := 12 * d.year + d.month - (if r ≤ d.day then 1 else 2)

/-- `YYYY-MM` of a billing month. -/
def monthLabel (q : ℕ) : String := padded 4 (q / 12) ++ "-" ++ padded 2 (q % 12 + 1)

theorem monthPeriodKey_eq {now : Time} {r : ℕ} (h : (dateOf now).Exists) :
    monthPeriodKey now r = monthLabel ((dateOf now).monthIndex r) := by
  obtain ⟨year, month, month_le, -, -⟩ := h
  simp only [monthPeriodKey, monthLabel, Date.monthIndex]
  split
  · rw [show (12 * (dateOf now).year + (dateOf now).month - 1) / 12 = (dateOf now).year by omega,
      show (12 * (dateOf now).year + (dateOf now).month - 1) % 12 + 1 = (dateOf now).month by omega]
  · split
    · rw [show (12 * (dateOf now).year + (dateOf now).month - 2) / 12 = (dateOf now).year by omega,
        show (12 * (dateOf now).year + (dateOf now).month - 2) % 12 + 1 = (dateOf now).month -
          1 by omega]
    · rw [show (12 * (dateOf now).year + (dateOf now).month - 2) / 12 =
        (dateOf now).year - 1 by omega,
        show (12 * (dateOf now).year + (dateOf now).month - 2) % 12 + 1 = 12 by omega]

theorem monthLabel_lt {q q' : ℕ} (h : q < q') (hq : q' < 12 * 10 ^ 4) :
    monthLabel q < monthLabel q' := by
  have label : ∀ {q}, q < 12 * 10 ^ 4 →
      (monthLabel q).toList = fixedDigits 4 (q / 12) ++ ('-' :: fixedDigits 2 (q % 12 + 1)) := by
    intro q hq
    rw [monthLabel, String.toList_append, String.toList_append,
      padded_toList (Nat.div_lt_of_lt_mul hq), padded_toList (by omega)]
    simp
  rw [String.lt_iff_toList_lt, label hq, label (h.trans hq)]
  rcases (Nat.div_le_div_right h.le : q / 12 ≤ q' / 12).lt_or_eq with year | year
  · exact append_lt_append (by simp) (fixedDigits_lt year (Nat.div_lt_of_lt_mul hq))
  · rw [year]
    apply List.append_left_lt
    rw [List.cons_lt_cons_iff]
    exact .inr ⟨rfl, fixedDigits_lt (by omega) (by omega)⟩

/-- The date a billing month starts on. -/
def monthStart (r q : ℕ) : Date := ⟨q / 12, q % 12 + 1, r⟩

theorem monthStart_exists {r q : ℕ} (pos : 1 ≤ r) (le : r ≤ 28) (hq : 12 ≤ q) :
    (monthStart r q).Exists := by
  refine ⟨?_, Nat.le_add_left _ _, Nat.mod_lt q (by decide), pos, le.trans (le_daysInMonth _ _)⟩
  exact (Nat.one_le_div_iff (by decide)).mpr hq

/-- A date is in a billing month or past it from the day the month starts on. -/
theorem le_monthIndex_iff {r q : ℕ} (pos : 1 ≤ r) (le : r ≤ 28) (hq : 12 ≤ q) {d : Date}
    (h : d.Exists) :
    q ≤ d.monthIndex r ↔ (monthStart r q).ordinal ≤ d.ordinal := by
  rw [← not_lt, ← not_lt, not_iff_not, ordinal_lt_iff h (monthStart_exists pos le hq)]
  obtain ⟨year, month, month_le, -, -⟩ := h
  simp only [Date.monthIndex, Date.before, monthStart]
  split <;> omega

/-- A reset day is the start of the billing month it is in. -/
theorem monthStart_of_reset {r : ℕ} {d : Date} (h : d.Exists) (reset : d.day = r) :
    12 ≤ d.monthIndex r ∧ monthStart r (d.monthIndex r) = d := by
  obtain ⟨year, month, month_le, -, -⟩ := h
  obtain ⟨y, m, k⟩ := d
  obtain rfl : k = r := reset
  simp only [Date.monthIndex, monthStart, le_refl, if_true, Date.mk.injEq,
    and_true] at year month month_le ⊢
  omega

section Days

variable {r a b : ℕ} (pos : 1 ≤ r) (le : r ≤ 28)
include pos le

/-- **The billing month goes up over a reset day**, and over nothing else. -/
theorem monthIndex_lt_iff :
    (dateOfDays a).monthIndex r < (dateOfDays b).monthIndex r ↔ ∃ n, a < n ∧ n ≤ b ∧
    (dateOfDays n).day = r := by
  obtain ⟨ha, day_a⟩ := dateOfDays_exists a
  obtain ⟨hb, day_b⟩ := dateOfDays_exists b
  constructor
  · intro up
    have hq : 12 ≤ (dateOfDays b).monthIndex r := by
      have := ha.year
      have := ha.month
      have : 11 ≤ (dateOfDays a).monthIndex r := by
        rw [Date.monthIndex]
        split <;> omega
      omega
    refine ⟨(monthStart r ((dateOfDays b).monthIndex r)).ordinal, ?_, ?_, ?_⟩
    · rw [← not_le, ← day_a, ← le_monthIndex_iff pos le hq ha, not_le]
      exact up
    · have := (le_monthIndex_iff pos le hq hb).mp le_rfl
      rwa [day_b] at this
    · rw [dateOfDays_ordinal (monthStart_exists pos le hq)]
      rfl
  · rintro ⟨n, after, upto, reset⟩
    obtain ⟨hn, day_n⟩ := dateOfDays_exists n
    obtain ⟨hq, start⟩ := monthStart_of_reset hn reset
    have not_a : ¬ (dateOfDays n).monthIndex r ≤ (dateOfDays a).monthIndex r := by
      rw [le_monthIndex_iff pos le hq ha, start, day_n, day_a]
      exact not_le.mpr after
    have to_b : (dateOfDays n).monthIndex r ≤ (dateOfDays b).monthIndex r := by
      rw [le_monthIndex_iff pos le hq hb, start, day_n, day_b]
      exact upto
    exact (not_le.mp not_a).trans_le to_b

/-- It never goes down. -/
theorem monthIndex_mono (hab : a ≤ b) :
    (dateOfDays a).monthIndex r ≤ (dateOfDays b).monthIndex r := by
  by_contra down
  obtain ⟨n, after, upto, -⟩ := (monthIndex_lt_iff pos le).mp (not_le.mp down)
  omega

end Days

/-! ### Resets -/

/-- Midnight at the start of a day numbered `r`. -/
def Resets (r : ℕ) (x : Time) : Prop := ∃ n : ℕ, x = n * 86400 ∧ (dateOfDays n).day = r

/-- The day of a point in time. -/
def dayOf (t : Time) : ℕ := ⌊t / 86400⌋₊

theorem dateOf_eq (t : Time) : dateOf t = dateOfDays (dayOf t) := by
  rw [dateOf, dayOf, ← Int.floor_toNat]
  rfl

theorem exists_reset_iff {r : ℕ} {s t : Time} (hs : 0 ≤ s) (hst : s ≤ t) :
    (∃ x, s < x ∧ x ≤ t ∧ Resets r x) ↔ ∃ n, dayOf s < n ∧ n ≤ dayOf t ∧
    (dateOfDays n).day = r := by
  have after : ∀ n : ℕ, s < n * 86400 ↔ dayOf s < n := fun n => by
    rw [dayOf, Nat.floor_lt (by positivity), div_lt_iff₀ (by norm_num)]
  have upto : ∀ n : ℕ, (n : ℚ) * 86400 ≤ t ↔ n ≤ dayOf t := fun n => by
    have ht : 0 ≤ t := hs.trans hst
    rw [dayOf, Nat.le_floor_iff (by positivity), le_div_iff₀ (by norm_num)]
  constructor
  · rintro ⟨_, hsx, hxt, n, rfl, reset⟩
    exact ⟨n, (after n).mp hsx, (upto n).mp hxt, reset⟩
  · rintro ⟨n, hsn, hnt, reset⟩
    exact ⟨_, (after n).mpr hsn, (upto n).mpr hnt, n, rfl, reset⟩

/-! ### Keys of points in time -/

section Keys

variable {r : ℕ} (pos : 1 ≤ r) (le : r ≤ 28) {s t : Time}

/-- Before the year 10000 a month key has four digits for the year. -/
theorem monthIndex_lt (ht : t < daysBeforeYear 10000 * 86400) (nonneg : 0 ≤ t) :
    (dateOf t).Exists ∧ (dateOf t).year < 10 ^ 4 ∧ (dateOf t).monthIndex r < 12 * 10 ^ 4 := by
  obtain ⟨h, day⟩ := dateOfDays_exists (dayOf t)
  rw [← dateOf_eq] at h day
  have early : dayOf t < daysBeforeYear 10000 := by
    rw [dayOf, Nat.floor_lt (by positivity), div_lt_iff₀ (by norm_num)]
    exact ht
  have year : (dateOf t).year < 10 ^ 4 := by
    by_contra late
    have later : daysBeforeYear 10000 ≤ daysBeforeYear (dateOf t).year :=
      daysBeforeYear_mono (by decide) (not_lt.mp late)
    have begun : daysBeforeYear (dateOf t).year ≤ (dateOf t).ordinal := by
      rw [Date.ordinal]
      omega
    omega
  refine ⟨h, year, ?_⟩
  have := h.month_le
  rw [Date.monthIndex]
  split <;> omega

include pos le in
/-- The keys go up over a reset, and stay where they are otherwise. -/
theorem monthPeriodKey_cases (hs : 0 ≤ s) (hst : s ≤ t) (ht : t < daysBeforeYear 10000 * 86400) :
    (∃ x, s < x ∧ x ≤ t ∧ Resets r x) ∧ monthPeriodKey s r < monthPeriodKey t r ∨
      (¬ ∃ x, s < x ∧ x ≤ t ∧ Resets r x) ∧ monthPeriodKey s r = monthPeriodKey t r := by
  obtain ⟨exists_s, -, -⟩ := monthIndex_lt (r := r) (hst.trans_lt ht) hs
  obtain ⟨exists_t, -, bound⟩ := monthIndex_lt (r := r) ht (hs.trans hst)
  have days : dayOf s ≤ dayOf t := Nat.floor_mono (div_le_div_of_nonneg_right hst (by norm_num))
  rw [exists_reset_iff hs hst, ← monthIndex_lt_iff pos le, ← dateOf_eq, ← dateOf_eq,
    monthPeriodKey_eq exists_s, monthPeriodKey_eq exists_t]
  have mono : (dateOf s).monthIndex r ≤ (dateOf t).monthIndex r := by
    rw [dateOf_eq, dateOf_eq]
    exact monthIndex_mono pos le days
  rcases mono.lt_or_eq with up | same
  · exact .inl ⟨up, monthLabel_lt up bound⟩
  · exact .inr ⟨same.not_lt, congrArg monthLabel same⟩

/-- A day has one key, and so one date. -/
theorem dateOf_of_dayPeriodKey (hs : 0 ≤ s) (hs' : s < daysBeforeYear 10000 * 86400) (ht : 0 ≤ t)
    (ht' : t < daysBeforeYear 10000 * 86400) (h : dayPeriodKey s = dayPeriodKey t) :
    dateOf s = dateOf t := by
  obtain ⟨exists_s, year_s, -⟩ := monthIndex_lt (r := 1) hs' hs
  obtain ⟨exists_t, year_t, -⟩ := monthIndex_lt (r := 1) ht' ht
  have small : ∀ {d : Date}, d.Exists → d.month < 10 ^ 2 ∧ d.day < 10 ^ 2 := by
    intro d hd
    have := hd.month_le
    have := hd.day_le
    have : daysInMonth d.year d.month ≤ 31 := by
      unfold daysInMonth
      split
      · split <;> decide
      · split <;> decide
    omega
  have key : ∀ {x : Time}, (dateOf x).Exists → (dateOf x).year < 10 ^ 4 → (dayPeriodKey x).toList =
      fixedDigits 4 (dateOf x).year ++ (['-'] ++ (fixedDigits 2 (dateOf x).month ++
        (['-'] ++ fixedDigits 2 (dateOf x).day))) := by
    intro x hx year
    simp only [dayPeriodKey, String.toList_append, padded_toList year, padded_toList (small hx).1,
      padded_toList (small hx).2, List.append_assoc]
    rfl
  have same := congrArg String.toList h
  rw [key exists_s year_s, key exists_t year_t] at same
  obtain ⟨year, same⟩ := List.append_inj same (by simp)
  obtain ⟨-, same⟩ := List.append_inj same rfl
  obtain ⟨month, same⟩ := List.append_inj same (by simp)
  obtain ⟨-, day⟩ := List.append_inj same rfl
  rw [Date.mk.injEq]
  exact ⟨fixedDigits_inj year_s year_t year,
    fixedDigits_inj (small exists_s).1 (small exists_t).1 month,
    fixedDigits_inj (small exists_s).2 (small exists_t).2 day⟩

end Keys

/-! ### The counter a reservation is charged to -/

open Coop Coop.Prog

/-- A reservation that `try_reserve` granted, the clock saying `now`. -/
def GrantedAt (cfg : Settings) (p : String) (now : Time) (res : Reservation) : Prop :=
  ∃ evs : Events, (RateLimiter.tryReserve cfg p).Path evs (.ok (some res)) ∧ ∀ t,
    ⟨.utcnow, t⟩ ∈ evs → t = now

/-- A reservation carries the key of the month it was granted in, if there is a limit. -/
theorem GrantedAt.monthKey {cfg : Settings} {p : String} {c : ProviderConfig} {now : Time}
    {res : Reservation} (hp : cfg.provider p = some c) (h : GrantedAt cfg p now res) :
    res.monthKey = c.limits.perMonth.map fun _ => monthPeriodKey now c.limits.monthResetDay := by
  obtain ⟨evs, path, clock⟩ := h
  simp only [RateLimiter.tryReserve, hp] at path
  obtain ⟨_, inside, rfl, locked⟩ := path
  obtain ⟨body, _, rfl, held⟩ := path_finally_op.mp locked
  obtain ⟨_, full, rest, rfl, -, looked⟩ := path_bind_ok held
  split at looked
  · cases looked.2
  obtain ⟨t, rest, rfl, told⟩ := looked
  obtain rfl : t = now := clock t (by simp)
  simp only [Prog.ret_bind] at told
  obtain ⟨_, row, rest, rfl, reserved, answer⟩ := path_bind_ok told
  have keys := (RateLimiter.tame_reserveRow _ _ _).path reserved
  split at answer
  · cases answer.2
  · obtain ⟨_, _, rfl, _, _, rfl, rfl, same⟩ := answer
    cases same
    exact congrArg Prod.snd (keys _ rfl)

/-- **The month keys partition time at the billing boundary.** For a reset day that the settings
allow and two points in time, in order: they have one month key exactly when no reset comes after
the first, up to the second; otherwise the first key is the smaller one; and one day key means one
month key. So two reservations of a provider with a monthly limit are charged to one counter
exactly when no reset comes between them. -/
theorem month_keys_partition {r : ℕ} (pos : 1 ≤ r) (le : r ≤ 28) {s t : Time} (hs : 0 ≤ s)
    (hst : s ≤ t) (ht : t < daysBeforeYear 10000 * 86400) :
    (monthPeriodKey s r = monthPeriodKey t r ↔ ¬ ∃ x, s < x ∧ x ≤ t ∧ Resets r x) ∧
    ((∃ x, s < x ∧ x ≤ t ∧ Resets r x) → monthPeriodKey s r < monthPeriodKey t r) ∧
    (dayPeriodKey s = dayPeriodKey t → monthPeriodKey s r = monthPeriodKey t r) ∧
    ∀ {cfg : Settings} {p : String} {c : ProviderConfig} {first second : Reservation},
      cfg.provider p = some c →
      c.limits.perMonth.isSome → c.limits.monthResetDay = r → GrantedAt cfg p s first →
        GrantedAt cfg p t second →
      (first.monthKey = second.monthKey ↔ ¬ ∃ x, s < x ∧ x ≤ t ∧ Resets r x) := by
  have same_iff : monthPeriodKey s r = monthPeriodKey t r ↔ ¬ ∃ x, s < x ∧ x ≤ t ∧ Resets r x := by
    rcases monthPeriodKey_cases pos le hs hst ht with ⟨reset, up⟩ | ⟨none, same⟩
    · exact iff_of_false up.ne (not_not.mpr reset)
    · exact iff_of_true same none
  refine ⟨same_iff, fun reset => ?_, fun day => ?_, fun hp limited reset granted granted' => ?_⟩
  · rcases monthPeriodKey_cases pos le hs hst ht with ⟨-, up⟩ | ⟨none, -⟩
    · exact up
    · exact absurd reset none
  · have date : dateOf s = dateOf t :=
      dateOf_of_dayPeriodKey hs (hst.trans_lt ht) (hs.trans hst) ht day
    simp only [monthPeriodKey, date]
  · rw [granted.monthKey hp, granted'.monthKey hp, reset, ← same_iff]
    obtain ⟨limit, hlimit⟩ := Option.isSome_iff_exists.mp limited
    simp [hlimit]

namespace Example

/-- From the evening of 25 December to the morning of 5 January, and over the turn of the year. -/
theorem month_keys_partition_newYear :
    monthPeriodKey 63902300400 1 < monthPeriodKey 63903186000 1 := by
  have reset : Resets 1 (739616 * 86400) := ⟨739616, by norm_num, by decide +kernel⟩
  exact (month_keys_partition (by decide) (by decide) (by norm_num) (by norm_num)
    (by norm_num [daysBeforeYear])).2.1
    ⟨_, by norm_num, by norm_num, reset⟩

end Example

end SmtpSwitch
