import SmtpSwitch.Act

/-!
# The circuit breaker

`dispatch/health.py`. The state of a provider is kept in memory and written
through to its `provider_state` row after every change, under the provider's
breaker lock. `status` depends on the clock: an open breaker becomes half-open
when the cooldown has passed, without anything being written.
-/

namespace SmtpSwitch

/-- The breaker's state of `p`. -/
def World.state (w : World) (p : String) : ProviderState := (w.states p).getD {}

theorem World.state_update (w : World) (p q : String) (st : ProviderState) :
    World.state { w with states := Function.update w.states q (some st) } p =
      if p = q then st else w.state p := by
  by_cases h : p = q
  · subst h; simp [World.state]
  · simp [World.state, h]

/-- The state after a probe was claimed. -/
def claimed (st : ProviderState) : ProviderState :=
  { st with halfOpenProbes := st.halfOpenProbes + 1 }

namespace CircuitBreaker

open Coop Coop.Prog

/-- `status`. -/
inductive Status where
  | closed
  | open
  | halfOpen
  deriving DecidableEq, Repr

variable (cfg : CircuitBreakerConfig)

/-- `status` of a state at a time. -/
def status (st : ProviderState) (now : Time) : Status :=
  if st.healthy then .closed
  else
    match st.openedAt with
    | none => .open
    | some t => if (cfg.cooldownSeconds : ℕ) ≤ now - t then .halfOpen else .open

section Status

variable {cfg} {st : ProviderState} {now : Time}

theorem status_closed_iff : status cfg st now = .closed ↔ st.healthy = true := by
  unfold status
  cases st.healthy with
  | true => simp
  | false =>
    cases st.openedAt with
    | none => simp
    | some t => by_cases cooled : (cfg.cooldownSeconds : ℕ) ≤ now - t <;> simp [cooled]

theorem status_halfOpen_iff : status cfg st now = .halfOpen ↔
    st.healthy = false ∧ ∃ t, st.openedAt = some t ∧ (cfg.cooldownSeconds : ℕ) ≤ now - t := by
  unfold status
  cases st.healthy with
  | true => simp
  | false => cases st.openedAt <;> simp

/-- A half-open breaker stays half-open as time goes by. -/
theorem status_halfOpen_mono {now' : Time} (h : now ≤ now') (hs : status cfg st now = .halfOpen) :
    status cfg st now' = .halfOpen := by
  obtain ⟨unhealthy, t, ht, cooled⟩ := status_halfOpen_iff.mp hs
  exact status_halfOpen_iff.mpr ⟨unhealthy, t, ht, cooled.trans (sub_le_sub_right h t)⟩

end Status

/-- `is_available` of a state at a time. -/
def available (st : ProviderState) (now : Time) : Bool :=
  match status cfg st now with
  | .closed => true
  | .open => false
  | .halfOpen => decide (st.halfOpenProbes < cfg.halfOpenMaxProbes)

/-- `is_available`. -/
def isAvailable (provider : String) : Act Bool := do
  let (st, now) ← perform (.stateNow provider)
  return available cfg st now

/-- `_persist`, called from `by_`. -/
def persist (by_ : BreakerOp) (provider : String) : Act Unit := do
  let _ ← query (.persist by_) (.providerState provider)
  let st ← perform (.state provider)
  let _ ← commit (.persist by_) [.putProviderState provider st]

/-- `load`. -/
def load : Act Unit := do
  let rows ← query .load .providerStates
  perform (.loadStates rows)
  let _ ← commit .load []

/-- `begin_probe`. -/
def beginProbe (provider : String) : Act Bool :=
  withLock (.breaker provider) do
    let (st, now) ← perform (.stateNow provider)
    match status cfg st now with
    | .closed => return true
    | .open => return false
    | .halfOpen =>
      if cfg.halfOpenMaxProbes ≤ st.halfOpenProbes then return false
      else
        perform (.setState provider { st with halfOpenProbes := st.halfOpenProbes + 1 })
        persist .beginProbe provider
        return true

/-- The state after a success. -/
def succeeded (st : ProviderState) (now : Time) : ProviderState :=
  { st with healthy := true, consecutiveFailures := 0, openedAt := none, halfOpenProbes := 0,
            lastSuccessAt := some now }

/-- `record_success`. -/
def recordSuccess (provider : String) : Act Unit := do
  perform (.call (.recordSuccess provider))
  withLock (.breaker provider) do
    let (st, now) ← perform (.stateNow provider)
    perform (.setState provider (succeeded st now))
    persist .recordSuccess provider

/-- The state after a failure at `now`: a failed probe opens the breaker again and restarts the
cooldown, the `failure_threshold`-th failure in a row opens it. -/
def failed (st : ProviderState) (now : Time) : ProviderState :=
  let st := { st with consecutiveFailures := st.consecutiveFailures + 1, lastFailureAt := some now }
  if status cfg st now = .halfOpen then
    { st with healthy := false, openedAt := some now, halfOpenProbes := 0 }
  else if st.healthy ∧ cfg.failureThreshold ≤ st.consecutiveFailures then
    { st with healthy := false, openedAt := some now, halfOpenProbes := 0 }
  else st

/-- `record_failure`. -/
def recordFailure (provider : String) : Act Unit := do
  perform (.call (.recordFailure provider))
  withLock (.breaker provider) do
    let (st, now) ← perform (.stateNow provider)
    perform (.setState provider (failed cfg st now))
    persist .recordFailure provider

/-! ### What the breaker raises

Every function of the breaker raises only because a statement has failed. -/

section Tame

theorem tame_isAvailable (p : String) :
    (isAvailable cfg p).Tame Op.fails Op.ofBreaker fun _ => True :=
  (tame_perform trivial fun _ => rfl).bind fun _ _ => trivial

theorem tame_persist (by_ : BreakerOp) (p : String) :
    (persist by_ p).Tame Op.fails (Op.ofPersist by_) fun _ => True :=
  (tame_query (by rfl)).bind fun _ _ => (tame_perform trivial fun _ => rfl).bind fun _ _ =>
    (tame_commit (by simp [Op.ofPersist, Stmt.table])).bind fun _ _ => trivial

theorem tame_load : load.Tame Op.fails Op.ofBreaker fun _ => True :=
  (tame_query trivial).bind fun _ _ => (tame_perform trivial fun _ => rfl).bind fun _ _ =>
    (tame_commit (by simp [Op.ofBreaker])).bind fun _ _ => trivial

theorem tame_beginProbe (p : String) :
    (beginProbe cfg p).Tame Op.fails Op.ofBreaker fun _ => True := by
  refine tame_withLock trivial trivial ((tame_perform trivial fun _ => rfl).bind fun x _ => ?_)
  obtain ⟨st, now⟩ := x
  simp only
  split
  · trivial
  · trivial
  · split
    · trivial
    · exact (tame_perform trivial fun _ => rfl).bind fun _ _ =>
        ((tame_persist _ _).widen fun _ => Op.ofPersist.ofBreaker).bind fun _ _ => trivial

theorem tame_recordSuccess (p : String) :
    (recordSuccess p).Tame Op.fails Op.ofBreaker fun _ => True :=
  (tame_perform trivial fun _ => rfl).bind fun _ _ => tame_withLock trivial trivial <|
    (tame_perform trivial fun _ => rfl).bind fun _ _ =>
      (tame_perform trivial fun _ => rfl).bind fun _ _ =>
        (tame_persist _ _).widen fun _ => Op.ofPersist.ofBreaker

theorem tame_recordFailure (p : String) :
    (recordFailure cfg p).Tame Op.fails Op.ofBreaker fun _ => True :=
  (tame_perform trivial fun _ => rfl).bind fun _ _ => tame_withLock trivial trivial <|
    (tame_perform trivial fun _ => rfl).bind fun _ _ =>
      (tame_perform trivial fun _ => rfl).bind fun _ _ =>
        (tame_persist _ _).widen fun _ => Op.ofPersist.ofBreaker

end Tame

end CircuitBreaker

end SmtpSwitch
