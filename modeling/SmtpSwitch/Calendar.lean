import SmtpSwitch.Util

/-!
# The calendar

`dateOfDays` is the proleptic Gregorian calendar: it gives every day a date that exists
(`Date.Exists`), and the day is the date's ordinal (`ordinal_dateOfDays`). Dates follow each
other as their years, months and days do, across months of every length and leap years
(`ordinal_lt_iff`). -/

namespace SmtpSwitch

/-- The days of a year. -/
def daysInYear (y : ℕ) : ℕ := if isLeap y then 366 else 365

theorem daysBeforeYear_succ {y : ℕ} (h : 1 ≤ y) :
    daysBeforeYear (y + 1) = daysBeforeYear y + daysInYear y := by
  obtain ⟨k, rfl⟩ := Nat.exists_eq_add_of_le' h
  have fewer : k / 100 ≤ k / 4 := Nat.div_le_div_left (by decide) (by decide)
  have four_of_hundred : 100 ∣ k + 1 → 4 ∣ k + 1 := (Nat.dvd_trans (by decide) ·)
  have hundred_of_400 : 400 ∣ k + 1 → 100 ∣ k + 1 := (Nat.dvd_trans (by decide) ·)
  simp only [daysBeforeYear, daysInYear, isLeap, Nat.add_sub_cancel, Nat.succ_div,
    ← Nat.dvd_iff_mod_eq_zero, Bool.and_eq_true, Bool.or_eq_true, decide_eq_true_eq, ne_eq]
  generalize k / 4 = fours at fewer ⊢
  generalize k / 100 = hundreds at fewer ⊢
  by_cases four : 4 ∣ k + 1
  · by_cases hundred : 100 ∣ k + 1
    · by_cases h400 : 400 ∣ k + 1
      · simp only [four, hundred, h400, if_true, not_true, false_or, and_self]
        omega
      · simp only [four, hundred, h400, if_true, if_false, not_true, or_self, and_false]
        omega
    · have h400 : ¬ 400 ∣ k + 1 := fun h => hundred (hundred_of_400 h)
      simp only [four, hundred, h400, if_true, if_false, not_false_iff, true_or, and_self]
      omega
  · have hundred : ¬ 100 ∣ k + 1 := fun h => four (four_of_hundred h)
    have h400 : ¬ 400 ∣ k + 1 := fun h => hundred (hundred_of_400 h)
    simp only [four, hundred, h400, if_false, false_and]
    omega

theorem daysBeforeMonth_succ {y m : ℕ} (h : 1 ≤ m) :
    daysBeforeMonth y (m + 1) = daysBeforeMonth y m + daysInMonth y m := by
  obtain ⟨k, rfl⟩ := Nat.exists_eq_add_of_le' h
  simp [daysBeforeMonth, List.range_succ]

/-- Twelve months are a year. -/
theorem daysBeforeMonth_thirteen (y : ℕ) : daysBeforeMonth y 13 = daysInYear y := by
  simp only [daysBeforeMonth, daysInYear, daysInMonth]
  cases isLeap y <;> rfl

theorem daysBeforeYear_mono {y y' : ℕ} (h : 1 ≤ y) (le : y ≤ y') :
    daysBeforeYear y ≤ daysBeforeYear y' := by
  induction le with
  | refl => exact le_rfl
  | step le ih => exact ih.trans ((daysBeforeYear_succ (h.trans le)).ge.trans' (Nat.le_add_right _ _))

theorem daysBeforeMonth_mono {y m m' : ℕ} (h : 1 ≤ m) (le : m ≤ m') :
    daysBeforeMonth y m ≤ daysBeforeMonth y m' := by
  induction le with
  | refl => exact le_rfl
  | step le ih => exact ih.trans ((daysBeforeMonth_succ (h.trans le)).ge.trans' (Nat.le_add_right _ _))

/-- No month has fewer than 28 days. -/
theorem le_daysInMonth (y m : ℕ) : 28 ≤ daysInMonth y m := by
  unfold daysInMonth
  split
  · split <;> omega
  · split <;> omega

/-- A year is at least 365 days. -/
theorem le_daysBeforeYear (y : ℕ) : y * 365 ≤ daysBeforeYear (y + 1) := by
  simp only [daysBeforeYear]
  omega

/-! ### Dates that exist -/

/-- A date of the calendar. -/
structure Date.Exists (d : Date) : Prop where
  year : 1 ≤ d.year
  month : 1 ≤ d.month
  month_le : d.month ≤ 12
  day : 1 ≤ d.day
  day_le : d.day ≤ daysInMonth d.year d.month

/-- The days from `0001-01-01` to a date. -/
def Date.ordinal (d : Date) : ℕ :=
  daysBeforeYear d.year + daysBeforeMonth d.year d.month + (d.day - 1)

/-- The greatest index whose value is not past `n`: the value is not past it, and the next one is.
-/
theorem findGreatest_between {f : ℕ → ℕ} {n bound : ℕ} (first : f 1 ≤ n) (one : 1 ≤ bound) {g : ℕ}
    (hg : g = Nat.findGreatest (fun i => f i ≤ n) bound) :
    1 ≤ g ∧ g ≤ bound ∧ f g ≤ n ∧ (g < bound → n < f (g + 1)) := by
  subst hg
  have most : 1 ≤ Nat.findGreatest (fun i => f i ≤ n) bound := Nat.le_findGreatest one first
  refine ⟨most, Nat.findGreatest_le _, Nat.findGreatest_spec (P := fun i => f i ≤ n) one first,
    fun inside => ?_⟩
  exact not_le.mp (Nat.findGreatest_is_greatest (P := fun i => f i ≤ n) (Nat.lt_succ_self _) inside)

/-- The last year that has begun by day `n`, its last month that has begun by then, and the day of
that month. -/
theorem exists_of_greatest {n y m : ℕ}
    (hy : y = Nat.findGreatest (fun y => daysBeforeYear y ≤ n) (n / 365 + 1))
    (hm : m = Nat.findGreatest (fun m => daysBeforeMonth y m ≤ n - daysBeforeYear y) 12) :
    Date.Exists ⟨y, m, n - daysBeforeYear y - daysBeforeMonth y m + 1⟩ ∧
      Date.ordinal ⟨y, m, n - daysBeforeYear y - daysBeforeMonth y m + 1⟩ = n := by
  obtain ⟨year, -, begun, ended⟩ := findGreatest_between (Nat.zero_le _) (Nat.le_add_left _ _) hy
  obtain ⟨month, month_le, monthBegun, monthOver⟩ :=
    findGreatest_between (Nat.zero_le _) (by decide) hm
  have notOver : n < daysBeforeYear (y + 1) := by
    rcases Nat.lt_or_ge y (n / 365 + 1) with inside | outside
    · exact ended inside
    · have := le_daysBeforeYear y
      omega
  have rest : n - daysBeforeYear y < daysBeforeMonth y 13 := by
    rw [daysBeforeYear_succ year] at notOver
    rw [daysBeforeMonth_thirteen]
    omega
  have monthNotOver : n - daysBeforeYear y < daysBeforeMonth y (m + 1) := by
    rcases month_le.lt_or_eq with inside | rfl
    · exact monthOver inside
    · exact rest
  rw [daysBeforeMonth_succ month] at monthNotOver
  refine ⟨⟨year, month, month_le, Nat.le_add_left _ _, ?_⟩, ?_⟩
  · show n - daysBeforeYear y - daysBeforeMonth y m + 1 ≤ daysInMonth y m
    omega
  · show daysBeforeYear y + daysBeforeMonth y m +
      (n - daysBeforeYear y - daysBeforeMonth y m + 1 - 1) = n
    omega

/-- **Every day has a date**, and it is the day of that date. -/
theorem dateOfDays_exists (n : ℕ) : (dateOfDays n).Exists ∧ (dateOfDays n).ordinal = n := by
  unfold dateOfDays
  exact exists_of_greatest rfl rfl

/-! ### The order of dates -/

/-- The date comes before: in an earlier year, an earlier month of the year, or on an earlier day
of the month. -/
def Date.before (d d' : Date) : Prop :=
  d.year < d'.year ∨ d.year = d'.year ∧ (d.month < d'.month ∨ d.month = d'.month ∧ d.day < d'.day)

theorem Date.before_total {d d' : Date} (h : ¬ d.before d') : d = d' ∨ d'.before d := by
  obtain ⟨y, m, k⟩ := d
  obtain ⟨y', m', k'⟩ := d'
  simp only [before, Date.mk.injEq] at h ⊢
  omega

/-- A date is in its month, and its month in its year. -/
theorem Date.Exists.ordinal_lt {d : Date} (h : d.Exists) :
    d.ordinal < daysBeforeYear d.year + daysBeforeMonth d.year (d.month + 1) ∧
      d.ordinal < daysBeforeYear (d.year + 1) := by
  have inMonth : d.ordinal < daysBeforeYear d.year + daysBeforeMonth d.year (d.month + 1) := by
    rw [daysBeforeMonth_succ h.month, Date.ordinal]
    have := h.day
    have := h.day_le
    omega
  have inYear : daysBeforeMonth d.year (d.month + 1) ≤ daysBeforeMonth d.year 13 :=
    daysBeforeMonth_mono (Nat.le_add_left _ _) (Nat.succ_le_succ h.month_le)
  rw [daysBeforeMonth_thirteen] at inYear
  rw [daysBeforeYear_succ h.year]
  exact ⟨inMonth, by omega⟩

theorem Date.Exists.ordinal_lt_of_before {d d' : Date} (h : d.Exists) (hb : d.before d') :
    d.ordinal < d'.ordinal := by
  obtain ⟨inMonth, inYear⟩ := h.ordinal_lt
  rcases hb with year | ⟨year, month | ⟨month, day⟩⟩
  · have later : daysBeforeYear (d.year + 1) ≤ daysBeforeYear d'.year :=
      daysBeforeYear_mono (Nat.le_add_left _ _) year
    have : daysBeforeYear d'.year ≤ d'.ordinal := by
      rw [Date.ordinal]
      omega
    omega
  · have later : daysBeforeMonth d.year (d.month + 1) ≤ daysBeforeMonth d.year d'.month :=
      daysBeforeMonth_mono (Nat.le_add_left _ _) month
    have : daysBeforeYear d.year + daysBeforeMonth d.year d'.month ≤ d'.ordinal := by
      rw [Date.ordinal, year]
      omega
    omega
  · have := h.day
    rw [Date.ordinal, Date.ordinal, year, month]
    omega

/-- **Dates follow each other as their days do.** -/
theorem ordinal_lt_iff {d d' : Date} (h : d.Exists) (h' : d'.Exists) :
    d.ordinal < d'.ordinal ↔ d.before d' := by
  refine ⟨fun lt => ?_, h.ordinal_lt_of_before⟩
  by_contra hb
  rcases Date.before_total hb with rfl | hb
  · exact lt_irrefl _ lt
  · exact lt_asymm lt (h'.ordinal_lt_of_before hb)

/-- A date that exists is the date of its day. -/
theorem dateOfDays_ordinal {d : Date} (h : d.Exists) : dateOfDays d.ordinal = d := by
  obtain ⟨h', same⟩ := dateOfDays_exists d.ordinal
  by_contra hne
  rcases em ((dateOfDays d.ordinal).before d) with hb | hb
  · exact absurd ((ordinal_lt_iff h' h).mpr hb) same.not_lt
  · exact absurd ((ordinal_lt_iff h h').mpr ((Date.before_total hb).resolve_left hne)) same.not_gt

end SmtpSwitch
