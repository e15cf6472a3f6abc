import SmtpSwitch.Coop.Alone
import SmtpSwitch.Health

/-!
# The breaker's state as a summary of its history

Calls of the breaker one after the other, on any providers and at any times. What
the state of a provider should be is a function of the calls on it
(`failures`, `openedAt`), and the state after every sequence of calls is that
(`Summary`), in memory and in the `provider_state` rows alike, so that a breaker
loaded from the rows is in the same state.
-/

namespace SmtpSwitch.CircuitBreaker

open Coop Coop.Prog

/-- A call of the breaker. -/
structure Event where
  op : BreakerOp
  provider : String
  time : Time

variable (cfg : Settings)

/-- The call's code. -/
def Event.code (e : Event) : Act Unit :=
  match e.op with
  | .beginProbe => do let _ ← beginProbe cfg.circuitBreaker e.provider
  | .recordSuccess => recordSuccess e.provider
  | .recordFailure => recordFailure cfg.circuitBreaker e.provider

/-- An operation when nothing fails. -/
def unfailing (o : Op) (w : World) : Option (o.Ans × World) := exec cfg 0 o .ok w

/-- The world after a call that returns. -/
def Event.run (e : Event) (w : World) : Option World :=
  match (e.code cfg).alone (unfailing cfg) { w with clock := e.time } with
  | some (.ok _, w') => some w'
  | _ => none

/-- The world after a history of calls, the newest first. -/
def replay : List Event → World → Option World
  | [], w => some w
  | e :: history, w => (replay history w).bind (e.run cfg)

/-! ### The summary of a history -/

/-- The failures of a provider since its last success. -/
def failures (p : String) : List Event → ℕ
  | [] => 0
  | e :: history =>
    if e.provider = p then
      match e.op with
      | .recordSuccess => 0
      | .recordFailure => failures p history + 1
      | .beginProbe => failures p history
    else failures p history

/-- The time of the latest failure since the last success that was the `failure_threshold`-th, or
came when the cooldown since the one before it was over. -/
def openedAt (p : String) : List Event → Option Time
  | [] => none
  | e :: history =>
    if e.provider = p then
      match e.op with
      | .recordSuccess => none
      | .recordFailure =>
        if failures p history + 1 = (cfg.circuitBreaker.failureThreshold : ℕ) ∨
            ∃ t ∈ openedAt p history, (cfg.circuitBreaker.cooldownSeconds : ℕ) ≤ e.time - t then
          some e.time
        else openedAt p history
      | .beginProbe => openedAt p history
    else openedAt p history

/-- A state sums up the history of its provider. -/
structure Summary (p : String) (history : List Event) (st : ProviderState) : Prop where
  failures : st.consecutiveFailures = failures p history
  healthy : st.healthy = true ↔
    CircuitBreaker.failures p history < (cfg.circuitBreaker.failureThreshold : ℕ)
  openedAt : st.openedAt = openedAt cfg p history
  opened : st.openedAt = none ↔ st.healthy = true
  probes : st.halfOpenProbes ≤ (cfg.circuitBreaker.halfOpenMaxProbes : ℕ)
  none_claimed : st.healthy = true → st.halfOpenProbes = 0

variable {cfg}

/-- A fresh state. -/
theorem Summary.nil (p : String) : Summary cfg p [] {} :=
  ⟨rfl, ⟨fun _ => cfg.circuitBreaker.failureThreshold.pos, fun _ => rfl⟩,
    rfl, by simp, Nat.zero_le _, fun _ => rfl⟩

/-- A call on another provider. -/
theorem Summary.other {p : String} {e : Event} {history : List Event} {st : ProviderState}
    (h : Summary cfg p history st) (he : e.provider ≠ p) : Summary cfg p (e :: history) st := by
  have same : CircuitBreaker.failures p (e :: history) = CircuitBreaker.failures p history :=
    if_neg he
  refine ⟨h.failures.trans same.symm, ?_, h.openedAt.trans (if_neg he).symm, h.opened, h.probes,
    h.none_claimed⟩
  rw [same]
  exact h.healthy

variable {p : String} {history : List Event} {st : ProviderState} {t : Time}

theorem Summary.success :
    Summary cfg p (⟨.recordSuccess, p, t⟩ :: history) (succeeded st t) := by
  have none_since : CircuitBreaker.failures p (⟨.recordSuccess, p, t⟩ :: history) = 0 := if_pos rfl
  refine ⟨none_since.symm, ?_, (if_pos rfl).symm, ?_, Nat.zero_le _, fun _ => rfl⟩
  · rw [none_since]
    exact ⟨fun _ => cfg.circuitBreaker.failureThreshold.pos, fun _ => rfl⟩
  · exact ⟨fun _ => rfl, fun _ => rfl⟩

/-- Whether a breaker is half-open at a time, told by its history. -/
theorem Summary.halfOpen_iff (h : Summary cfg p history st) :
    status cfg.circuitBreaker st t = .halfOpen ↔
      ∃ t' ∈ CircuitBreaker.openedAt cfg p history,
        (cfg.circuitBreaker.cooldownSeconds : ℕ) ≤ t - t' := by
  rw [← h.openedAt, status_halfOpen_iff]
  constructor
  · rintro ⟨-, cooled⟩
    exact cooled
  · rintro ⟨t', ho, le⟩
    refine ⟨?_, t', ho, le⟩
    by_contra healthy
    rw [h.opened.mpr (by simpa using healthy)] at ho
    cases ho

theorem Summary.probe (h : Summary cfg p history st)
    (halfOpen : status cfg.circuitBreaker st t = .halfOpen)
    (room : st.halfOpenProbes < (cfg.circuitBreaker.halfOpenMaxProbes : ℕ)) :
    Summary cfg p (⟨.beginProbe, p, t⟩ :: history)
      { st with halfOpenProbes := st.halfOpenProbes + 1 } := by
  have same : CircuitBreaker.failures p (⟨.beginProbe, p, t⟩ :: history) =
    CircuitBreaker.failures p history := if_pos rfl
  have unhealthy : ¬ st.healthy = true := by simp [(status_halfOpen_iff.mp halfOpen).1]
  refine ⟨h.failures.trans same.symm, ?_, h.openedAt.trans (if_pos rfl).symm, h.opened, room,
    fun hs => absurd hs unhealthy⟩
  rw [same]
  exact h.healthy

/-- A probe that is not claimed changes nothing. -/
theorem Summary.noProbe (h : Summary cfg p history st) :
    Summary cfg p (⟨.beginProbe, p, t⟩ :: history) st := by
  have same : CircuitBreaker.failures p (⟨.beginProbe, p, t⟩ :: history) =
    CircuitBreaker.failures p history := if_pos rfl
  refine ⟨h.failures.trans same.symm, ?_, h.openedAt.trans (if_pos rfl).symm, h.opened, h.probes,
    h.none_claimed⟩
  rw [same]
  exact h.healthy

/-- A failure that opens the breaker, or keeps it open from then on. -/
theorem Summary.opens (h : Summary cfg p history st)
    (latest : CircuitBreaker.failures p history + 1 = (cfg.circuitBreaker.failureThreshold : ℕ) ∨
      ∃ t' ∈ CircuitBreaker.openedAt cfg p history,
        (cfg.circuitBreaker.cooldownSeconds : ℕ) ≤ t - t')
    (enough : (cfg.circuitBreaker.failureThreshold : ℕ) ≤ CircuitBreaker.failures p history + 1) :
    Summary cfg p (⟨.recordFailure, p, t⟩ :: history)
      { st with consecutiveFailures := st.consecutiveFailures + 1, lastFailureAt := some t, healthy := false,
                openedAt := some t, halfOpenProbes := 0 } := by
  have one_more : CircuitBreaker.failures p (⟨.recordFailure, p, t⟩ :: history) =
    CircuitBreaker.failures p history + 1 := if_pos rfl
  have opened : CircuitBreaker.openedAt cfg p (⟨.recordFailure, p, t⟩ :: history) = some t :=
    (if_pos rfl).trans (if_pos latest)
  refine ⟨?_, ?_, opened.symm, by simp, Nat.zero_le _, fun _ => rfl⟩
  · rw [one_more, ← h.failures]
  · rw [one_more]
    exact iff_of_false (by simp) (not_lt.mpr enough)

theorem Summary.failure (h : Summary cfg p history st) :
    Summary cfg p (⟨.recordFailure, p, t⟩ :: history) (failed cfg.circuitBreaker st t) := by
  have one_more : CircuitBreaker.failures p (⟨.recordFailure, p, t⟩ :: history) =
    CircuitBreaker.failures p history + 1 := if_pos rfl
  have opened : CircuitBreaker.openedAt cfg p (⟨.recordFailure, p, t⟩ :: history) =
      if CircuitBreaker.failures p history + 1 = (cfg.circuitBreaker.failureThreshold : ℕ) ∨
          ∃ t' ∈ CircuitBreaker.openedAt cfg p history,
            (cfg.circuitBreaker.cooldownSeconds : ℕ) ≤ t - t' then some t
      else CircuitBreaker.openedAt cfg p history := if_pos rfl
  have halfOpen := h.halfOpen_iff (t := t)
  have healthy := h.healthy
  have same : status cfg.circuitBreaker
      { st with consecutiveFailures := st.consecutiveFailures + 1, lastFailureAt := some t } t =
    status cfg.circuitBreaker st t := rfl
  unfold failed
  simp only [same]
  by_cases hs : status cfg.circuitBreaker st t = .halfOpen
  · rw [if_pos hs]
    have unhealthy : ¬ st.healthy = true := by simp [(status_halfOpen_iff.mp hs).1]
    refine h.opens (.inr (halfOpen.mp hs)) ?_
    by_contra below
    exact unhealthy (healthy.mpr (by omega))
  · rw [if_neg hs]
    by_cases reached : st.healthy = true ∧
        (cfg.circuitBreaker.failureThreshold : ℕ) ≤ st.consecutiveFailures + 1
    · rw [if_pos reached]
      have below := healthy.mp reached.1
      have le := reached.2
      rw [h.failures] at le
      exact h.opens (.inl (by omega)) le
    · rw [if_neg reached]
      have later : ¬ (CircuitBreaker.failures p history + 1 =
            (cfg.circuitBreaker.failureThreshold : ℕ) ∨
          ∃ t' ∈ CircuitBreaker.openedAt cfg p history,
            (cfg.circuitBreaker.cooldownSeconds : ℕ) ≤ t - t') := by
        rintro (heq | cooled)
        · exact reached ⟨healthy.mpr (by omega), by rw [h.failures]; omega⟩
        · exact hs (halfOpen.mpr cooled)
      refine ⟨?_, ?_, ?_, h.opened, h.probes, h.none_claimed⟩
      · rw [one_more, ← h.failures]
      · rw [one_more]
        constructor
        · intro hh
          by_contra ge
          exact reached ⟨hh, by rw [h.failures]; omega⟩
        · intro hlt
          exact healthy.mpr (by omega)
      · rw [opened, if_neg later]
        exact h.openedAt

/-! ### The calls, run alone -/

/-- The world after a state was set and persisted. -/
def stored (w : World) (p : String) (st : ProviderState) : World :=
  { w with states := Function.update w.states p (some st)
           db := { w.db with providerState := Function.update w.db.providerState p (some st) } }

variable {w : World}

/-- The lock taken and given back. -/
theorem locks_back {l : Lock} {i : ℕ} (hl : w.locks l = none) :
    Function.update (Function.update w.locks l (some i)) l none = w.locks := by
  rw [Function.update_idem, ← hl, Function.update_eq_self]

variable (cfg) in
/-- A change of the state under its lock, persisted. -/
theorem alone_change (by_ : BreakerOp) (hl : w.locks (.breaker p) = none)
    (f : ProviderState → Time → ProviderState) :
    (withLock (.breaker p) do
      let (st, now) ← perform (.stateNow p)
      perform (.setState p (f st now))
      persist by_ p).alone (unfailing cfg) w =
    some (.ok (), stored w p (f (w.state p) w.clock)) := by
  have back := locks_back (i := 0) hl
  simp [withLock, perform, persist, query, SmtpSwitch.commit, finally_, attempt, alone,
    unfailing, exec, hl,
    Prog.ofExcept, Query.eval, Db.execAll, Stmt.exec, stored, World.state, back]

/-- The state after `begin_probe`, if it claims a probe. -/
def probed (cfg : Settings) (st : ProviderState) (now : Time) : Option ProviderState :=
  if status cfg.circuitBreaker st now = .halfOpen ∧
      st.halfOpenProbes < (cfg.circuitBreaker.halfOpenMaxProbes : ℕ) then
    some { st with halfOpenProbes := st.halfOpenProbes + 1 }
  else none

variable (cfg) in
/-- `begin_probe` once it has the lock. -/
theorem alone_beginProbe_locked (p : String) (hl : w.locks (.breaker p) = none) :
    (beginProbe cfg.circuitBreaker p).alone (unfailing cfg) w =
      (finally_ (match status cfg.circuitBreaker (w.state p) w.clock with
        | .closed => .ret true
        | .open => .ret false
        | .halfOpen =>
          if cfg.circuitBreaker.halfOpenMaxProbes ≤ (w.state p).halfOpenProbes then .ret false
          else do
            perform (.setState p { w.state p with halfOpenProbes := (w.state p).halfOpenProbes +
              1 })
            persist .beginProbe p
            return true) (perform (.unlock (.breaker p)))).alone (unfailing cfg)
        { w with locks := Function.update w.locks (.breaker p) (some 0) } := by
  unfold beginProbe withLock
  simp only [perform, op_bind, alone, unfailing, exec, if_pos hl]
  rfl

variable (cfg) in
/-- `begin_probe` grants what `is_available` promises, and claims a probe if the breaker is
half-open. -/
theorem alone_beginProbe (p : String) (hl : w.locks (.breaker p) = none) :
    (beginProbe cfg.circuitBreaker p).alone (unfailing cfg) w =
      some (.ok (available cfg.circuitBreaker (w.state p) w.clock),
        match probed cfg (w.state p) w.clock with
        | some st => stored w p st
        | none => w) := by
  have back := locks_back (i := 0) hl
  have unlocked : ∀ ok : Bool, (finally_ (Prog.ret ok : Act Bool)
      (perform (.unlock (.breaker p)))).alone (unfailing cfg)
        { w with locks := Function.update w.locks (.breaker p) (some 0) } = some (.ok ok, w) := by
    intro ok
    simp [finally_, attempt, perform, alone, unfailing, exec, Prog.ofExcept, back]
  rw [alone_beginProbe_locked cfg p hl]
  unfold probed available
  cases hs : status cfg.circuitBreaker (w.state p) w.clock with
  | closed => exact unlocked true
  | «open» => exact unlocked false
  | halfOpen =>
    by_cases full : (cfg.circuitBreaker.halfOpenMaxProbes : ℕ) ≤ (w.state p).halfOpenProbes
    · simp only [if_pos full, Nat.not_lt.mpr full, and_false, if_false, decide_false]
      exact unlocked false
    · simp only [if_neg full, Nat.lt_of_not_le full, and_self, if_true, decide_true]
      simp [perform, persist, query, SmtpSwitch.commit, finally_, attempt, alone, unfailing, exec,
        Prog.ofExcept, Query.eval, Db.execAll, Stmt.exec, stored, back]

/-- What one call does to its provider's state. -/
def Event.apply (cfg : Settings) (e : Event) (st : ProviderState) : Option ProviderState :=
  match e.op with
  | .beginProbe => probed cfg st e.time
  | .recordSuccess => some (succeeded st e.time)
  | .recordFailure => some (failed cfg.circuitBreaker st e.time)

variable (cfg) in
/-- A call runs to its end, and changes its provider's state, in memory and in the database. -/
theorem Event.run_eq (e : Event) (hl : w.locks (.breaker e.provider) = none) :
    e.run cfg w = some (match e.apply cfg (w.state e.provider) with
      | some st => stored { w with clock := e.time } e.provider st
      | none => { w with clock := e.time }) := by
  obtain ⟨op, p, t⟩ := e
  unfold Event.run
  cases op with
  | beginProbe =>
    have h := alone_beginProbe cfg p (w := { w with clock := t }) hl
    have whole : (Event.code cfg ⟨.beginProbe, p, t⟩).alone (unfailing cfg) { w with clock := t } =
        some (.ok (), match probed cfg (w.state p) t with
          | some st => stored { w with clock := t } p st
          | none => { w with clock := t }) := by
      show ((beginProbe cfg.circuitBreaker p).bind fun _ => Prog.ret ()).alone (unfailing cfg) _ = _
      rw [alone_bind, h]
      rfl
    rw [whole]
    rfl
  | recordSuccess =>
    have h := alone_change cfg (w := { w with clock := t }) .recordSuccess hl succeeded
    have whole : (Event.code cfg ⟨.recordSuccess, p, t⟩).alone (unfailing cfg)
        { w with clock := t } =
      some (.ok (), stored { w with clock := t } p (succeeded (w.state p) t)) := h
    rw [whole]
    rfl
  | recordFailure =>
    have h := alone_change cfg (w := { w with clock := t }) .recordFailure hl
      (failed cfg.circuitBreaker)
    have whole : (Event.code cfg ⟨.recordFailure, p, t⟩).alone (unfailing cfg)
        { w with clock := t } =
      some (.ok (), stored { w with clock := t } p (failed cfg.circuitBreaker (w.state p) t)) := h
    rw [whole]
    rfl

/-! ### Histories -/

/-- Memory and database agree, and sum up the history of every provider. -/
structure Agrees (cfg : Settings) (history : List Event) (w : World) : Prop where
  locks : ∀ p, w.locks (.breaker p) = none
  summary : ∀ p, Summary cfg p history (w.state p)
  rows : w.db.providerState = w.states

/-- The state of a provider after a call on it. -/
theorem Summary.apply {e : Event} (h : Summary cfg e.provider history st) :
    Summary cfg e.provider (e :: history) ((e.apply cfg st).getD st) := by
  obtain ⟨op, p, t⟩ := e
  cases op with
  | recordSuccess => exact .success
  | recordFailure => exact h.failure
  | beginProbe =>
    show Summary cfg p _ ((probed cfg st t).getD st)
    unfold probed
    by_cases room : status cfg.circuitBreaker st t = .halfOpen ∧
        st.halfOpenProbes < (cfg.circuitBreaker.halfOpenMaxProbes : ℕ)
    · rw [if_pos room]
      exact h.probe room.1 room.2
    · rw [if_neg room]
      exact h.noProbe

/-- One more call: it returns, and it changes the state of its own provider only. -/
theorem Agrees.run (h : Agrees cfg history w) (e : Event) :
    ∃ w', e.run cfg w = some w' ∧ Agrees cfg (e :: history) w' ∧
      ∀ q, q ≠ e.provider → w'.state q = w.state q := by
  have run := e.run_eq cfg (h.locks e.provider)
  have mine := (h.summary e.provider).apply (e := e)
  cases ha : e.apply cfg (w.state e.provider) with
  | none =>
    rw [ha] at run mine
    refine ⟨_, run, ⟨h.locks, fun p => ?_, h.rows⟩, fun _ _ => rfl⟩
    by_cases hp : e.provider = p
    · subst hp
      exact mine
    · exact (h.summary p).other hp
  | some st =>
    rw [ha] at run mine
    have state : ∀ q, (stored { w with clock := e.time } e.provider st).state q =
        if q = e.provider then st else w.state q := fun q => World.state_update w q e.provider st
    refine ⟨_, run, ⟨h.locks, fun p => ?_, ?_⟩, fun q hq => ?_⟩
    · rw [state]
      by_cases hp : p = e.provider
      · subst hp
        rw [if_pos rfl]
        exact mine
      · rw [if_neg hp]
        exact (h.summary p).other (Ne.symm hp)
    · show Function.update w.db.providerState e.provider (some st) =
        Function.update w.states e.provider (some st)
      rw [h.rows]
    · rw [state, if_neg hq]

/-- A fresh breaker: nothing in memory, and no rows. -/
structure Fresh (w : World) : Prop where
  locks : ∀ p, w.locks (.breaker p) = none
  states : w.states = fun _ => none
  rows : w.db.providerState = fun _ => none

theorem Fresh.agrees (h : Fresh w) : Agrees cfg [] w := by
  refine ⟨h.locks, fun p => ?_, by rw [h.rows, h.states]⟩
  rw [World.state, h.states]
  exact .nil p

variable (cfg) in
/-- Every history of calls runs to its end. -/
theorem exists_replay (h : Fresh w) : ∀ history : List Event,
    ∃ w', replay cfg history w = some w' ∧ Agrees cfg history w'
  | [] => ⟨w, rfl, h.agrees⟩
  | e :: history => by
    obtain ⟨w₁, h₁, agrees⟩ := exists_replay h history
    obtain ⟨w₂, h₂, agrees', -⟩ := agrees.run e
    refine ⟨w₂, ?_, agrees'⟩
    rw [replay, h₁]
    exact h₂

/-- `load`, in a new process. -/
theorem alone_load (w : World) : load.alone (unfailing cfg) w.reboot =
    some (.ok (), { w.reboot with states := w.db.providerState }) := by
  simp [load, perform, query, SmtpSwitch.commit, alone, unfailing, exec, Prog.ofExcept, Query.eval,
    Db.execAll, World.reboot]

variable (cfg) in
/-- **The breaker's state is the summary of its history.** After every history of calls on a fresh
breaker every provider's state sums up the calls on that provider; one more call changes no other
provider's state; and a new process that loads the rows finds every breaker with the same status at
every time. -/
theorem state_summarizes_history (h : Fresh w) (history : List Event) :
    ∃ w', replay cfg history w = some w' ∧
      (∀ p, Summary cfg p history (w'.state p)) ∧
      (∀ (e : Event) w'', e.run cfg w' = some w'' → ∀ q, q ≠ e.provider →
        w''.state q = w'.state q) ∧
      ∃ loaded, load.alone (unfailing cfg) w'.reboot = some (.ok (), loaded) ∧
        ∀ p t, status cfg.circuitBreaker (loaded.state p) t =
          status cfg.circuitBreaker (w'.state p) t := by
  obtain ⟨w', hw', agrees⟩ := exists_replay cfg h history
  refine ⟨w', hw', agrees.summary, ?_, _, alone_load w', ?_⟩
  · intro e w'' he
    obtain ⟨v, hv, -, others⟩ := agrees.run e
    rw [he] at hv
    cases hv
    exact others
  · intro p t
    have same : World.state { w'.reboot with states := w'.db.providerState } p = w'.state p := by
      simp only [World.state, agrees.rows]
    rw [same]

namespace Example

/-- A fresh process. -/
def fresh : World := { clock := 0 }

/-- Five failures in a row, a probe after the cooldown, and a success. -/
theorem state_summarizes_recovery :
    ∃ w', replay {} [⟨.recordSuccess, "a", 200⟩, ⟨.beginProbe, "a", 150⟩, ⟨.recordFailure, "a", 5⟩,
        ⟨.recordFailure, "a", 4⟩, ⟨.recordFailure, "b", 4⟩, ⟨.recordFailure, "a", 3⟩,
        ⟨.recordFailure, "a", 2⟩, ⟨.recordFailure, "a", 1⟩] fresh = some w' ∧
      Summary {} "a" [⟨.recordSuccess, "a", 200⟩, ⟨.beginProbe, "a", 150⟩, ⟨.recordFailure, "a", 5⟩,
        ⟨.recordFailure, "a", 4⟩, ⟨.recordFailure, "b", 4⟩, ⟨.recordFailure, "a", 3⟩,
        ⟨.recordFailure, "a", 2⟩, ⟨.recordFailure, "a", 1⟩] (w'.state "a") := by
  obtain ⟨w', hw', summary, -⟩ := state_summarizes_history {} (w := fresh)
    ⟨fun _ => rfl, rfl, rfl⟩ _
  exact ⟨w', hw', summary "a"⟩

end Example

end SmtpSwitch.CircuitBreaker
