import Mathlib.Algebra.Order.Ring.Rat
import Mathlib.Algebra.Ring.Nat
import Mathlib.Data.Nat.Find

/-!
# Time, period keys and backoff

Timestamps are naive UTC throughout (`utcnow`), so a point in time is a number:
the seconds since `0001-01-01 00:00`, exact. The proleptic Gregorian calendar
turns its days into dates, and the two period keys of the quota counters are
strings made from a date. `backoffDelay` is the retry delay, in exact
arithmetic, with the draw of `random.random()` as an argument.
-/

namespace SmtpSwitch

/-- A point in time, or a length of time, in seconds. -/
abbrev Time := ℚ

/-! ### The calendar -/

/-- A year of 366 days. -/
def isLeap (y : ℕ) : Bool := y % 4 = 0 && (y % 100 ≠ 0 || y % 400 = 0)

/-- The days of month `m` of year `y`. -/
def daysInMonth (y m : ℕ) : ℕ :=
  if m = 2 then (if isLeap y then 29 else 28) else if m ∈ [4, 6, 9, 11] then 30 else 31

/-- The days from `0001-01-01` to the start of year `y`. -/
def daysBeforeYear (y : ℕ) : ℕ := (y - 1) * 365 + (y - 1) / 4 - (y - 1) / 100 + (y - 1) / 400

/-- The days from the start of year `y` to the start of its month `m`. -/
def daysBeforeMonth (y m : ℕ) : ℕ := ((List.range (m - 1)).map fun k => daysInMonth y (k + 1)).sum

/-- A date. -/
structure Date where
  /-- The year. -/
  year : ℕ
  /-- The month, from 1. -/
  month : ℕ
  /-- The day of the month, from 1. -/
  day : ℕ
  deriving DecidableEq

/-- The date of the day that begins `n` days after `0001-01-01`. -/
def dateOfDays (n : ℕ) : Date :=
  let year := Nat.findGreatest (fun y => daysBeforeYear y ≤ n) (n / 365 + 1)
  let rest := n - daysBeforeYear year
  let month := Nat.findGreatest (fun m => daysBeforeMonth year m ≤ rest) 12
  ⟨year, month, rest - daysBeforeMonth year month + 1⟩

/-- The date at a point in time. -/
def dateOf (t : Time) : Date := dateOfDays (t / 86400).floor.toNat

/-! ### Period keys -/

/-- `n` in decimal, at least `width` digits (`f"{n:04d}"`, `f"{n:02d}"`). -/
def padded (width n : ℕ) : String :=
  let digits := Nat.toDigits 10 n
  String.ofList (List.replicate (width - digits.length) '0' ++ digits)

/-- `YYYY-MM` of the monthly quota window containing `now`. -/
def monthPeriodKey (now : Time) (resetDay : ℕ) : String :=
  let d := dateOf now
  if d.day ≥ resetDay then padded 4 d.year ++ "-" ++ padded 2 d.month
  else
    let year := if d.month > 1 then d.year else d.year - 1
    let month := if d.month > 1 then d.month - 1 else 12
    padded 4 year ++ "-" ++ padded 2 month

/-- `YYYY-MM-DD`. -/
def dayPeriodKey (now : Time) : String :=
  let d := dateOf now
  padded 4 d.year ++ "-" ++ padded 2 d.month ++ "-" ++ padded 2 d.day

example : dayPeriodKey 63923749200 = "2026-08-31" := by decide +kernel

example : monthPeriodKey 63903186000 15 = "2025-12" := by decide +kernel

/-! ### Strings -/

/-- The characters `str.strip` removes. -/
def isSpace (c : Char) : Bool :=
  let n := c.toNat
  9 ≤ n && n ≤ 13 || 28 ≤ n && n ≤ 32 || 0x2000 ≤ n && n ≤ 0x200a ||
    n ∈ [0x85, 0xa0, 0x1680, 0x2028, 0x2029, 0x202f, 0x205f, 0x3000]

/-- `s.strip()`. -/
def strip (s : String) : String :=
  String.ofList ((s.toList.dropWhile isSpace).reverse.dropWhile isSpace).reverse

/-- `s[:n]`. -/
def truncate (n : ℕ) (s : String) : String := String.ofList (s.toList.take n)

/-- `s or None`. -/
def orNone (s : String) : Option String := if s = "" then none else some s

/-! ### Backoff -/

/-- `backoff_delay`: exponential, capped at `maxSeconds`, then spread around the capped value by
`draw`, the number `random.random()` gives. -/
def backoffDelay (attempt : ℕ) (baseSeconds maxSeconds jitterRatio draw : ℚ) : ℚ :=
  let raw := baseSeconds * 2 ^ (attempt - 1)
  let capped := min raw maxSeconds
  if jitterRatio ≤ 0 then capped
  else
    let spread := capped * jitterRatio
    max 0 (capped - spread + draw * 2 * spread)

end SmtpSwitch
