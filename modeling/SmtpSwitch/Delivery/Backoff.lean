import Mathlib.Tactic.Linarith
import Mathlib.Tactic.Ring
import SmtpSwitch.Delivery.Table

/-!
# The backoff

What `_handle_no_success` may do to a message after a failed attempt: give it up, or put it back
for later. A message that is put back is due before its deadline, whatever the draw. The delay
is spread around the capped value, after the cap, so it keeps to `max_delay_seconds` exactly
when the jitter does not lead past it (`Spreads`, `backoff_bounded`). -/

namespace SmtpSwitch

open Coop Coop.Prog

/-! ### The delay -/

/-- The factor by which the jitter stretches the capped delay. -/
def stretch (jitter draw : ℚ) : ℚ := 1 + jitter * (2 * draw - 1)

/-- The jitter keeps the delay of this attempt to the cap. -/
def Spreads (base cap jitter draw : ℚ) (attempt : ℕ) : Prop :=
  jitter = 0 ∨ draw ≤ 1 / 2 ∨ base * 2 ^ (attempt - 1) * stretch jitter draw ≤ cap

section Delay

variable {base cap jitter draw : ℚ} {attempt : ℕ}

theorem one_lt_stretch_iff (pos : 0 < jitter) : 1 < stretch jitter draw ↔ 1 / 2 < draw := by
  have factor : 0 < jitter * (2 * draw - 1) ↔ 0 < 2 * draw - 1 := mul_pos_iff_of_pos_left pos
  rw [stretch, lt_add_iff_pos_right, factor]
  constructor <;> intro h <;> linarith

/-- The delay is the capped delay, stretched. -/
theorem backoffDelay_eq (pos : 0 < jitter) : backoffDelay attempt base cap jitter draw =
    max 0 (min (base * 2 ^ (attempt - 1)) cap * stretch jitter draw) := by
  simp only [backoffDelay, if_neg (not_le.mpr pos), stretch]
  congr 1
  ring

/-- Without jitter it is the capped delay. -/
theorem backoffDelay_zero : backoffDelay attempt base cap 0 draw = min
    (base * 2 ^ (attempt - 1)) cap := by
  simp [backoffDelay]

/-- **The delay keeps to the cap** when the jitter does. -/
theorem backoffDelay_le_iff (hbase : 0 ≤ base) (hcap : 0 < cap) (nonneg : 0 ≤ jitter) :
    backoffDelay attempt base cap jitter draw ≤ cap ↔ Spreads base cap jitter draw attempt := by
  rcases nonneg.eq_or_lt with rfl | pos
  · simp [backoffDelay_zero, Spreads]
  rw [backoffDelay_eq pos, Spreads, max_le_iff, and_iff_right hcap.le, or_iff_right pos.ne']
  have hraw : 0 ≤ base * 2 ^ (attempt - 1) := mul_nonneg hbase (by positivity)
  generalize base * 2 ^ (attempt - 1) = raw at hraw ⊢
  rcases le_or_gt draw (1 / 2) with half | half
  · -- the delay only shrinks
    have shrinks : stretch jitter draw ≤ 1 := by
      rw [← not_lt, one_lt_stretch_iff pos, not_lt]
      exact half
    have capped : 0 ≤ min raw cap := le_min hraw hcap.le
    exact iff_of_true ((mul_le_of_le_one_right capped shrinks).trans (min_le_right _ _)) (.inl half)
  · have grows : 1 < stretch jitter draw := (one_lt_stretch_iff pos).mpr half
    rw [or_iff_right (not_le.mpr half)]
    rcases le_total raw cap with below | above
    · rw [min_eq_left below]
    · -- at the cap it leads past it
      rw [min_eq_right above]
      have past : cap < cap * stretch jitter draw := lt_mul_of_one_lt_right hcap grows
      have further : cap * stretch jitter draw ≤ raw * stretch jitter draw :=
        mul_le_mul_of_nonneg_right above (by linarith)
      exact iff_of_false (not_le.mpr past) (not_le.mpr (past.trans_le further))

/-- Without jitter a later attempt waits at least as long. -/
theorem backoffDelay_mono (hbase : 0 ≤ base) {earlier later : ℕ} (h : earlier ≤ later) (draw' : ℚ) :
    backoffDelay earlier base cap 0 draw ≤ backoffDelay later base cap 0 draw' := by
  rw [backoffDelay_zero, backoffDelay_zero]
  have doubled : (2 : ℚ) ^ (earlier - 1) ≤ 2 ^ (later - 1) :=
    pow_le_pow_right₀ (by norm_num) (Nat.sub_le_sub_right h 1)
  exact min_le_min_right cap (mul_le_mul_of_nonneg_left doubled hbase)

end Delay

/-! ### The decision -/

variable (cfg : Settings) (messageId : ℕ) (snapshot : MsgSnapshot)

/-- What `_handle_no_success` writes after a failed attempt, `now` being what its clock says and
`draw` its draw. -/
inductive Decides (now draw : ℚ) : Stmt → Prop where
  | gaveUp {reason : DeadletterReason} {detail : Option String} :
      Decides now draw (deadletterStmt messageId reason detail)
  | putBack {lastError : Option String} : now + nextDelay cfg snapshot draw <
      deadline cfg snapshot →
      Decides now draw (rescheduleStmt messageId now (nextDelay cfg snapshot draw) lastError true)

section Decision

variable {cfg messageId snapshot} {evs : Events} {r : Except Exc Unit}

theorem statusWrites_execute {site : Site} {s s' : Stmt} (h : (execute site [s]).Path evs r)
    (written : s' ∈ statusWrites evs) : s' = s := by
  obtain ⟨a, rest, rfl, h⟩ := h
  cases a with
  | error e =>
    obtain ⟨rfl, -⟩ := h
    cases written
  | ok _ =>
    obtain ⟨a, rest, rfl, h⟩ := h
    cases a with
    | error e =>
      obtain ⟨rfl, -⟩ := h
      cases written
    | ok n =>
      obtain ⟨rfl, -⟩ := h
      simp only [statusWrites, List.append_nil, List.mem_filter, List.mem_singleton] at written
      exact written.1

/-- One clock value and one draw: the write is the one decided on. -/
theorem handleNoSuccess_decides {cycle : Cycle} {now draw : ℚ} {s : Stmt}
    (made : cycle.madeAttempt = true)
    (h : (handleNoSuccess cfg messageId snapshot cycle).Path evs r)
    (clock : ∀ t, ⟨.utcnow, t⟩ ∈ evs → t = now) (drawn : ∀ x, ⟨.random, x⟩ ∈ evs → x = draw)
    (written : s ∈ statusWrites evs) : Decides cfg messageId snapshot now draw s := by
  unfold handleNoSuccess at h
  simp only [made, Bool.not_true, Bool.false_eq_true, if_false] at h
  obtain ⟨rows, evs, rfl, h⟩ := h
  simp only [Prog.bind_eq, Prog.pure_eq, Prog.ret_bind] at h
  split at h
  · rw [statusWrites_execute h written]
    exact .gaveUp
  split at h
  · rw [statusWrites_execute h written]
    exact .gaveUp
  obtain ⟨x, evs, rfl, h⟩ := h
  obtain ⟨t, evs, rfl, h⟩ := h
  obtain rfl : x = draw := drawn x (by simp)
  obtain rfl : t = now := clock t (by simp)
  simp only [Prog.ret_bind] at h
  split at h
  · rw [statusWrites_execute h written]
    exact .gaveUp
  · rename_i early
    obtain ⟨later, evs, rfl, h⟩ := h
    obtain rfl : later = t := clock later (by simp)
    rw [statusWrites_execute h written]
    exact .putBack (not_le.mp early)

/-- What is put back is put back for a time: the delay of the next attempt later, and before the
deadline. -/
theorem Decides.next {now draw : ℚ} {wh : MessageWhere} {v : MessageValues}
    (h : Decides cfg messageId snapshot now draw (.updateMessages wh v))
    (queued : v.status = .queued) :
    v.nextAttemptAt = some (now + nextDelay cfg snapshot draw) ∧
      now + nextDelay cfg snapshot draw < deadline cfg snapshot := by
  generalize hs : Stmt.updateMessages wh v = s at h
  cases h with
  | gaveUp =>
    cases hs
    cases queued
  | putBack early =>
    cases hs
    exact ⟨rfl, early⟩

end Decision

/-- A run of `_handle_no_success`, after a failed attempt, that puts the message back with these
values. All its looks at the clock say `now`, and `draw` is what it draws. -/
def PutsBack (now draw : ℚ) (v : MessageValues) : Prop :=
  ∃ (messageId : ℕ) (cycle : Cycle) (evs : Events) (r : Except Exc Unit) (wh : MessageWhere),
    cycle.madeAttempt = true ∧ (handleNoSuccess cfg messageId snapshot cycle).Path evs r ∧
    (∀ t, ⟨.utcnow, t⟩ ∈ evs → t = now) ∧ (∀ x, ⟨.random, x⟩ ∈ evs → x = draw) ∧
    .updateMessages wh v ∈ statusWrites evs ∧ v.status = .queued

variable {cfg snapshot} in
theorem PutsBack.next {now draw : ℚ} {v : MessageValues} (h : PutsBack cfg snapshot now draw v) :
    v.nextAttemptAt = some (now + nextDelay cfg snapshot draw) ∧
      now + nextDelay cfg snapshot draw < deadline cfg snapshot := by
  obtain ⟨messageId, cycle, evs, r, wh, made, path, clock, drawn, written, queued⟩ := h
  exact (handleNoSuccess_decides made path clock drawn written).next queued

variable {cfg snapshot} in
/-- **The backoff keeps to its bounds** when the jitter keeps to the cap. A message that is put
back after a failed attempt is due at most `max_delay_seconds` later, and before its deadline,
exactly when the draw spreads its delay no further. It is due before the deadline in any case.
Without jitter no delay is shorter than that of a message with fewer attempts. -/
theorem backoff_bounded {now draw : ℚ} {v : MessageValues} (h : PutsBack cfg snapshot now draw v) :
    ((∃ next, v.nextAttemptAt = some next ∧ next ≤ now + (cfg.dispatch.retry.maxDelaySeconds : ℕ) ∧
        next < snapshot.receivedAt + (cfg.dispatch.retry.maxAgeHours : ℕ) * 3600) ↔
      Spreads (cfg.dispatch.retry.baseDelaySeconds : ℕ) (cfg.dispatch.retry.maxDelaySeconds : ℕ)
        cfg.dispatch.retry.jitterRatio draw (snapshot.attempts + 1)) ∧
    (∃ next, v.nextAttemptAt = some next ∧
        next < snapshot.receivedAt + (cfg.dispatch.retry.maxAgeHours : ℕ) * 3600) ∧
    (cfg.dispatch.retry.jitterRatio = 0 →
      ∀ {snapshot' : MsgSnapshot} {now' draw' : ℚ} {v' : MessageValues},
      PutsBack cfg snapshot' now' draw' v' → snapshot.attempts ≤ snapshot'.attempts →
        ∃ next next', v.nextAttemptAt = some next ∧ v'.nextAttemptAt = some next' ∧
          next - now ≤ next' - now') := by
  obtain ⟨next, early⟩ := h.next
  have base : (0 : ℚ) ≤ (cfg.dispatch.retry.baseDelaySeconds : ℕ) := Nat.cast_nonneg _
  have cap : (0 : ℚ) < (cfg.dispatch.retry.maxDelaySeconds : ℕ) := by
    exact_mod_cast cfg.dispatch.retry.maxDelaySeconds.pos
  refine ⟨?_, ⟨_, next, early⟩, ?_⟩
  · rw [← backoffDelay_le_iff base cap cfg.dispatch.retry.jitter_nonneg]
    constructor
    · rintro ⟨next', hnext, bounded, -⟩
      obtain rfl : now + nextDelay cfg snapshot draw = next' :=
        Option.some.inj (next.symm.trans hnext)
      exact le_of_add_le_add_left bounded
    · intro bounded
      exact ⟨_, next, add_le_add_right bounded now, early⟩
  · intro none snapshot' now' draw' v' h' fewer
    refine ⟨_, _, next, h'.next.1, ?_⟩
    rw [add_sub_cancel_left, add_sub_cancel_left, nextDelay, nextDelay, none]
    exact backoffDelay_mono base (Nat.add_le_add_right fewer 1) draw'

namespace Example

/-- Nine charged attempts, received just now. -/
def nineTimes : MsgSnapshot := ⟨1, 0, "from@example", ["to@example"], "spool/1", 9, some 0⟩

/-- The only provider was tried, and told to try again later. -/
def triedOnce : Cycle := { tried := ["a"], madeAttempt := true, sawTransient := true, lastError := some "busy" }

/-- The operations of a cycle's end that puts the message back. -/
def putBackLater (now draw : ℚ) : Events :=
  [⟨.overrides, fun _ => none⟩, ⟨.random, draw⟩, ⟨.utcnow, now⟩, ⟨.utcnow, now⟩,
    ⟨.flush .reschedule, .ok ()⟩,
    ⟨.commit .reschedule [rescheduleStmt 1 now (nextDelay relayed nineTimes draw) (some "busy")
      true], .ok 1⟩]

/-- The values it writes. -/
def putBackValues (now draw : ℚ) : MessageValues :=
  { status := .queued, nextAttemptAt := some (now + nextDelay relayed nineTimes draw),
    lastError := some (orNone (truncate 2000 "busy")), claimedAt := some none, attempts := .bump }

/-- It is put back, with that delay, when that is before its deadline. -/
theorem putsBack_later {draw : ℚ} (early : nextDelay relayed nineTimes draw < 172800) :
    PutsBack relayed nineTimes 0 draw (putBackValues 0 draw) := by
  have path : (handleNoSuccess relayed 1 nineTimes triedOnce).Path (putBackLater 0 draw) (.ok ()) := by
    refine ⟨_, _, rfl, ?_⟩
    simp only [Prog.bind_eq, Prog.pure_eq, Prog.ret_bind]
    rw [if_neg (by simp [triedOnce]), if_neg (by decide)]
    refine ⟨_, _, rfl, _, _, rfl, ?_⟩
    simp only [Prog.ret_bind]
    rw [if_neg (not_le.mpr ?_)]
    · exact ⟨_, _, rfl, _, _, rfl, _, _, rfl, rfl, rfl⟩
    · rw [zero_add]
      exact early.trans_le (by decide +kernel)
  refine ⟨1, triedOnce, putBackLater 0 draw, .ok (), { ids := some [1] }, rfl, path,
    ?_, ?_, ?_, rfl⟩
  · simp [putBackLater]
  · simp [putBackLater]
  · simp [putBackLater, putBackValues, rescheduleStmt, statusWrites, Stmt.writesStatus]

/-- A draw of one half does not stretch the delay. -/
theorem backoff_bounded_half :
    ∃ next, (putBackValues 0 (1 / 2)).nextAttemptAt = some next ∧ next ≤ 0 + ((3600 : ℕ) : ℚ) ∧
      next < 0 + ((48 : ℕ) : ℚ) * 3600 :=
  (backoff_bounded (putsBack_later (by decide +kernel))).1.mpr (.inr (.inl le_rfl))

/-- At the cap, a draw above one half leads past it. -/
theorem backoff_past_cap : PutsBack relayed nineTimes 0 (3 / 4) (putBackValues 0 (3 / 4)) ∧
    ¬ ∃ next, (putBackValues 0 (3 / 4)).nextAttemptAt = some next ∧
      next ≤ 0 + (relayed.dispatch.retry.maxDelaySeconds : ℕ) := by
  have past : (relayed.dispatch.retry.maxDelaySeconds : ℕ) < nextDelay relayed nineTimes
      (3 / 4) := by decide +kernel
  refine ⟨putsBack_later (by decide +kernel), ?_⟩
  rintro ⟨next, hnext, bounded⟩
  obtain rfl : 0 + nextDelay relayed nineTimes (3 / 4) = next := Option.some.inj hnext
  exact absurd (le_of_add_le_add_left bounded) (not_le.mpr past)

end Example

end SmtpSwitch
