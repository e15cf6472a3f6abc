import SmtpSwitch.Ingress
import SmtpSwitch.Worker

/-!
# The running system

The jobs a process runs as tasks, and the machine that runs them. `system cfg jobs`
admits the jobs `jobs` selects: a statement about the whole dispatcher lets
everything run, a statement about the limiter's own calls lets only those run.
The process starts with `start`, alone; the producer is one task, task `0`.
-/

namespace SmtpSwitch

open Coop Coop.Prog

variable (cfg : Settings)

/-- `delete_message` of the message API. -/
def deleteMessage (messageId : ℕ) : Act Unit := do
  match ← query .deleteMessage (.message messageId) with
  | none => .raise (.httpException 404)
  | some msg =>
    flush .deleteMessage
    let _ ← commit .deleteMessage [.deleteMessage messageId]
    perform (.spoolDelete msg.spoolPath)

/-- The columns the ORM assigns: those whose value has changed. -/
def changed {α : Type} [DecidableEq α] (old new : α) : Option α :=
  if new = old then none else some new

/-- The attributes `requeue` sets, as far as they differ from the row it has loaded. -/
def requeueValues (msg : Message) (now : Time) : MessageValues :=
  { status := .queued
    attempts := if msg.attempts = 0 then .keep else .set 0
    nextAttemptAt := changed msg.nextAttemptAt now
    lastError := changed msg.lastError none
    claimedAt := changed msg.claimedAt none }

/-- `requeue` of the message API. -/
def requeue (messageId : ℕ) : Act Unit := do
  match ← query .requeue (.message messageId) with
  | none => .raise (.httpException 404)
  | some msg =>
    if !msg.status.terminal then .raise (.httpException 409)
    else
      let now ← perform .utcnow
      flush .requeue
      let _ ← commit .requeue [.updateMessage messageId (requeueValues msg now)]
      perform .notify

theorem uses_requeue (messageId : ℕ) : (requeue messageId).Uses Op.ofOthers := by
  refine (uses_query (by rfl)).bind fun row => ?_
  cases row with
  | none => trivial
  | some msg =>
    simp only
    split
    · trivial
    · exact (uses_perform (by trivial)).bind fun _ => (uses_flush (by rfl)).bind fun _ =>
        (uses_commit (by simp [Op.ofOthers, Stmt.table, Site.plain])).bind fun _ =>
          uses_perform (by trivial)

theorem uses_deleteMessage (messageId : ℕ) : (deleteMessage messageId).Uses Op.ofOthers := by
  refine (uses_query (by rfl)).bind fun row => ?_
  cases row with
  | none => trivial
  | some msg => exact (uses_flush (by rfl)).bind fun _ =>
      (uses_commit (by simp [Op.ofOthers, Stmt.table, Site.plain])).bind fun _ =>
        uses_perform (by trivial)

/-- What a task may be running. -/
inductive Job where
  /-- The start of the process. -/
  | start
  | producer
  | consumer
  /-- The ingress server has received a message. -/
  | handleData (session : Session) (envelope : Envelope)
  /-- An API call. -/
  | deleteMessage (messageId : ℕ)
  | requeue (messageId : ℕ)
  /-- The housekeeping's `prune`. -/
  | prune
  /-- The housekeeping's `_retention_sweep`. -/
  | retentionSweep
  /-- Calls of the limiter from anywhere. -/
  | tryReserve (provider : String)
  | commit (r : Reservation)
  | release (r : Reservation)
  /-- Calls of the breaker from anywhere. -/
  | beginProbe (provider : String)
  | recordSuccess (provider : String)
  | recordFailure (provider : String)

/-- The code of a job. -/
def Job.code : Job → Act Unit
  | .start => SmtpSwitch.start
  | .producer => SmtpSwitch.producer cfg
  | .consumer => SmtpSwitch.consumer cfg
  | .handleData session envelope => do let _ ← SmtpSwitch.handleData cfg.ingress session envelope
  | .deleteMessage id => SmtpSwitch.deleteMessage id
  | .requeue id => SmtpSwitch.requeue id
  | .prune => RateLimiter.prune cfg
  | .retentionSweep => SmtpSwitch.retentionSweep cfg
  | .tryReserve p => do let _ ← RateLimiter.tryReserve cfg p
  | .commit r => RateLimiter.commitReservation r
  | .release r => RateLimiter.release .process r
  | .beginProbe p => do let _ ← CircuitBreaker.beginProbe cfg.circuitBreaker p
  | .recordSuccess p => CircuitBreaker.recordSuccess p
  | .recordFailure p => CircuitBreaker.recordFailure cfg.circuitBreaker p

/-- The jobs of the process itself: none of the calls of the limiter or the breaker from outside,
and neither an operator's requeue nor the retention sweep. -/
def Job.ofProcess : Job → Bool
  | .start | .producer | .consumer | .handleData _ _ | .deleteMessage _ | .prune => true
  | _ => false

/-- Whether task `i` may be started with a job now: `start` before anything else, everything else
after it, the producer only as task `0`, and the retention sweep only as task `1`. -/
def Job.admitted (jobs : Job → Bool) (i : ℕ) (j : Job) (w : World) : Bool :=
  jobs j &&
    match j with
    | .start => i = 0 && !w.up
    | .producer => i = 0 && w.up
    | .retentionSweep => i = 1 && w.up
    | _ => i ≠ 0 && w.up

/-- The machine. Outside events are the passing of time. -/
def system (jobs : Job → Bool) : Machine Op Op.Ans Exc World Choice Job ℚ where
  exec := exec cfg
  prog := Job.code cfg
  admits := Job.admitted jobs
  env d w := { w with clock := w.clock + max d 0 }
  reboot := World.reboot

/-- The shared state and the trace. -/
abbrev Moment := Config Op Op.Ans World Job ℚ

/-! ### Jobs that keep to a protocol

A protocol that follows the calls of the limiter and the breaker one by one is kept by every job as
soon as it is kept by these calls. -/

/-- The calls of the limiter and the breaker are whole in `P`, and everything else is of no concern
to an idle task. -/
structure CallsWhole {Φ : Type} (P : Protocol Op Op.Ans Job Φ) : Prop where
  others : ∀ o, o.ofOthers → ∀ a, P.good P.idle o a ∧ P.next P.idle o a = P.idle
  recordAttempt : ∀ messageId attemptNo provider startedAt result,
    (recordAttempt messageId attemptNo provider startedAt result).Whole P
  relay : ∀ c mailFrom rcptTos raw errand, (relay c mailFrom rcptTos raw errand).Whole P
  requeueNow : ∀ messageId, (requeueNow messageId).Whole P
  tryReserve : ∀ p, (RateLimiter.tryReserve cfg p).Whole P
  commit : ∀ r, (RateLimiter.commitReservation r).Whole P
  release : ∀ by_ r, (RateLimiter.release by_ r).Whole P
  prune : (RateLimiter.prune cfg).Whole P
  load : CircuitBreaker.load.Whole P
  isAvailable : ∀ p, (CircuitBreaker.isAvailable cfg.circuitBreaker p).Whole P
  beginProbe : ∀ p, (CircuitBreaker.beginProbe cfg.circuitBreaker p).Whole P
  recordSuccess : ∀ p, (CircuitBreaker.recordSuccess p).Whole P
  recordFailure : ∀ p, (CircuitBreaker.recordFailure cfg.circuitBreaker p).Whole P

namespace CallsWhole

variable {cfg} {Φ : Type} {P : Protocol Op Op.Ans Job Φ} (h : CallsWhole cfg P)

include h

theorem uses {α : Type} {t : Act α} (ht : t.Uses Op.ofOthers) : t.Whole P :=
  (ht.mono h.others).whole

theorem selectFrom (exclude : List String) : ∀ ps, (selectFrom cfg exclude ps).Whole P
  | [] => rfl
  | p :: rest => by
    have ih := selectFrom exclude rest
    unfold SmtpSwitch.selectFrom
    split
    · exact ih
    refine (h.isAvailable _).bind fun up => ?_
    split
    · refine (h.tryReserve _).bind fun r => ?_
      cases r with
      | none => exact ih
      | some r =>
        refine (h.beginProbe _).bind fun ok => ?_
        split
        · exact rfl
        · exact (h.release _ _).bind fun _ => ih
    · exact ih

theorem settle (decision : RouteDecision) (k : Classification) :
    (settle cfg decision k).Whole P := by
  cases k with
  | connectError => exact (h.release _ _).bind fun _ => h.recordFailure _
  | transient => exact (h.commit _).bind fun _ => h.recordFailure _
  | sent => exact (h.commit _).bind fun _ => h.recordSuccess _
  | permanent => exact (h.commit _).bind fun _ => h.recordSuccess _

theorem failover (messageId : ℕ) (snapshot : MsgSnapshot) (raw : Bytes) : ∀ n cycle,
    (failover cfg messageId snapshot raw n cycle).Whole P
  | 0, cycle => h.uses (tame_handleNoSuccess cfg _ _ _).uses
  | n + 1, cycle => by
    unfold SmtpSwitch.failover
    refine ((h.uses (uses_perform (by trivial))).bind fun _ =>
      h.selectFrom _ _).bind fun decision => ?_
    split
    · exact h.uses (tame_handleNoSuccess cfg _ _ _).uses
    refine (h.uses (uses_perform (by trivial))).bind fun _ => ?_
    refine Whole.bind (Whole.bind ?_ fun p => h.relay p _ _ _ _) fun result => ?_
    · unfold registryGet
      split <;> exact rfl
    refine (h.recordAttempt _ _ _ _ _).bind fun _ => ?_
    split
    · exact (h.commit _).bind fun _ => (h.recordSuccess _).bind fun _ =>
        h.uses (tame_markSent _ _ _).uses
    · exact (h.settle _ _).bind fun _ => failover messageId snapshot raw n _

theorem process (messageId : ℕ) : (process cfg messageId).Whole P := by
  refine (h.uses (uses_query (by rfl))).bind fun row =>
    (h.uses (uses_commit (by simp [Op.ofOthers, Site.plain]))).bind fun _ => ?_
  cases row with
  | none => exact rfl
  | some msg =>
    simp only
    split
    · exact rfl
    refine (h.uses (uses_perform (by trivial))).bind fun now =>
      (h.uses (uses_perform (by trivial))).bind fun raw => ?_
    split
    · exact h.uses (tame_deadletter _ _ _).uses
    · exact rfl
    · split
      · exact h.uses (tame_deadletter _ _ _).uses
      · exact h.failover _ _ _ _ _

theorem consumer : (consumer cfg).Whole P :=
  (h.uses (uses_perform (by trivial))).bind fun _ => (h.process _).handle fun e =>
    (h.requeueNow _).bind fun _ => follows_swallow e fun _ => rfl

theorem start : start.Whole P :=
  (h.uses tame_refreshOverrides.uses).bind fun _ => h.load.bind fun _ =>
    (h.uses tame_recoverOrphans.uses).bind fun _ => h.uses (uses_perform (by trivial))

/-- Every job is whole in `P`. -/
theorem code (j : Job) : (j.code cfg).Whole P := by
  cases j with
  | start => exact h.start
  | producer => exact h.uses (uses_producer cfg)
  | consumer => exact h.consumer
  | handleData session envelope =>
    exact (h.uses (uses_handleData _ _ _)).bind fun _ => rfl
  | deleteMessage id => exact h.uses (uses_deleteMessage id)
  | requeue id => exact h.uses (uses_requeue id)
  | prune => exact h.prune
  | retentionSweep => exact h.uses (tame_retentionSweep cfg).uses
  | tryReserve p => exact (h.tryReserve p).bind fun _ => rfl
  | commit r => exact h.commit r
  | release r => exact h.release _ r
  | beginProbe p => exact (h.beginProbe p).bind fun _ => rfl
  | recordSuccess p => exact h.recordSuccess p
  | recordFailure p => exact h.recordFailure p

theorem keeps (jobs : Job → Bool) (henter : ∀ j, P.enter j = P.idle) :
    (system cfg jobs).Keeps P := by
  intro i j w _
  rw [henter j]
  exact h.code j

end CallsWhole

end SmtpSwitch
