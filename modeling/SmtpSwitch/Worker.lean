import SmtpSwitch.Router
import SmtpSwitch.Sender

/-!
# The dispatcher

`dispatch/worker.py`. The producer claims due messages and queues their ids; a
consumer takes an id, reads the row, tries providers one after the other and
writes the cycle's outcome. `producer` and `consumer` are one turn of the
loops of the source; a turn that ends makes room for the next.

A shutdown reaches a task as a `CancelledError` at an await. It is one of the
exceptions an operation may answer with; the handlers let it through as the
source does.
-/

namespace SmtpSwitch

open Coop Coop.Prog

variable (cfg : Settings)

/-- `await db.execute(...)` of a writing statement, and the commit of its session. -/
def execute (site : Site) (ss : List Stmt) : Act Unit := do
  flush site
  let _ ← commit site ss

/-- `_MsgSnapshot`. -/
structure MsgSnapshot where
  id : ℕ
  receivedAt : Time
  fromAddr : String
  rcptTo : List String
  spoolPath : String
  attempts : ℕ
  claimedAt : Option Time

/-- `_MsgSnapshot.from_row`. -/
def MsgSnapshot.fromRow (m : Message) : MsgSnapshot :=
  ⟨m.id, m.receivedAt, m.fromAddr, m.rcptTo, m.spoolPath, m.attempts, m.claimedAt⟩

/-- The reasons a message is given up for. -/
inductive DeadletterReason where
  | spoolMissing
  | expired
  | rejected
  | maxAttempts
  deriving DecidableEq, Repr

/-- The reason as written. -/
def DeadletterReason.text : DeadletterReason → String
  | .spoolMissing => "spool_missing"
  | .expired => "expired"
  | .rejected => "rejected"
  | .maxAttempts => "max_attempts"

/-! ### Database writes -/

/-- `_record_attempt`. -/
def recordAttempt (messageId attemptNo : ℕ) (provider : String) (startedAt : Time)
    (result : RelayResult) : Act Unit := do
  let now ← perform .utcnow
  let _ ← commit .recordAttempt [.insertAttempt
    ⟨messageId, attemptNo, provider, startedAt, now, result.classification, result.smtpCode,
      result.detail⟩]

/-- `_mark_sent`; the claim time it is given is not used. -/
def markSent (messageId : ℕ) (provider : String) (_claimedAt : Option Time) : Act Unit := do
  let now ← perform .utcnow
  execute .markSent [.updateMessages { ids := some [messageId] }
    { status := .sent, providerUsed := some (some provider), sentAt := some (some now),
      lastError := some none }]

/-- `_reschedule`. -/
def reschedule (messageId : ℕ) (delaySeconds : ℚ) (lastError : Option String)
    (bumpAttempts : Bool) : Act Unit := do
  let now ← perform .utcnow
  execute .reschedule [.updateMessages { ids := some [messageId] }
    { status := .queued, nextAttemptAt := some (now + delaySeconds),
      lastError := some (orNone (truncate 2000 (lastError.getD ""))), claimedAt := some none,
      attempts := if bumpAttempts then .bump else .keep }]

/-- `_deadletter`. -/
def deadletter (messageId : ℕ) (reason : DeadletterReason) (detail : Option String) : Act Unit :=
  execute .deadletter [.updateMessages { ids := some [messageId] }
    { status := .deadletter,
      lastError := some (some (truncate 2000 (strip ("[" ++ reason.text ++ "] " ++
        detail.getD "")))),
      claimedAt := some none }]

/-- `_requeue_now`. -/
def requeueNow (messageId : ℕ) : Act Unit :=
  (execute .requeueNow [.updateMessages { ids := some [messageId], status := some .sending }
    { status := .queued }]).handle swallow

section Tame

variable {S : Op → Prop}

theorem tame_execute {site : Site} {ss : List Stmt} (hf : S (.flush site))
    (hc : S (.commit site ss)) :
    (execute site ss).Tame Op.fails S fun _ => True :=
  (tame_flush hf).bind fun _ _ => (tame_commit hc).bind fun _ _ => trivial

theorem tame_recordAttempt (messageId attemptNo : ℕ) (provider : String) (startedAt : Time)
    (result : RelayResult) :
    (recordAttempt messageId attemptNo provider startedAt result).Tame Op.fails Op.ofRecord
      fun _ => True :=
  (tame_perform trivial fun _ => rfl).bind fun _ _ =>
    (tame_commit (by simp [Op.ofRecord, Stmt.table])).bind fun _ _ => trivial

theorem tame_markSent (messageId : ℕ) (provider : String) (claimedAt : Option Time) :
    (markSent messageId provider claimedAt).Tame Op.fails Op.ofOthers fun _ => True :=
  (tame_perform trivial fun _ => rfl).bind fun _ _ =>
    tame_execute (by rfl) (by simp [Op.ofOthers, Stmt.table, Site.plain])

theorem tame_reschedule (messageId : ℕ) (delay : ℚ) (lastError : Option String) (bump : Bool) :
    (reschedule messageId delay lastError bump).Tame Op.fails Op.ofOthers fun _ => True :=
  (tame_perform trivial fun _ => rfl).bind fun _ _ =>
    tame_execute (by rfl) (by simp [Op.ofOthers, Stmt.table, Site.plain])

theorem tame_deadletter (messageId : ℕ) (reason : DeadletterReason) (detail : Option String) :
    (deadletter messageId reason detail).Tame Op.fails Op.ofOthers fun _ => True :=
  tame_execute (by rfl) (by simp [Op.ofOthers, Stmt.table, Site.plain])

end Tame

/-! ### The cycle -/

/-- The local variables of the failover loop. -/
structure Cycle where
  tried : List String := []
  madeAttempt : Bool := false
  sawTransient : Bool := false
  sawConnect : Bool := false
  sawPermanent : Bool := false
  lastError : Option String := none
  lastCode : Option ℤ := none

/-- `_handle_no_success`. -/
def handleNoSuccess (messageId : ℕ) (snapshot : MsgSnapshot) (cycle : Cycle) : Act Unit := do
  let retry := cfg.dispatch.retry
  if !cycle.madeAttempt then
    reschedule messageId (cfg.dispatch.noCapacityBackoffSeconds : ℕ)
      (some "no provider capacity") false
  else
    let candidates ← candidateNames cfg
    let exhausted := candidates.all (· ∈ cycle.tried)
    let onlyPermanent := cycle.sawPermanent && !cycle.sawTransient && !cycle.sawConnect
    if onlyPermanent && exhausted then
      deadletter messageId .rejected cycle.lastError
    else
      let nextAttempts := snapshot.attempts + 1
      if retry.maxAttempts ≤ nextAttempts then
        deadletter messageId .maxAttempts cycle.lastError
      else
        let draw ← perform .random
        let delay := backoffDelay nextAttempts (retry.baseDelaySeconds : ℕ)
          (retry.maxDelaySeconds : ℕ) retry.jitterRatio draw
        let deadline := snapshot.receivedAt + (retry.maxAgeHours : ℕ) * 3600
        let now ← perform .utcnow
        if deadline ≤ now + delay then
          deadletter messageId .expired cycle.lastError
        else
          reschedule messageId delay cycle.lastError true

/-- The flags after a relay that was not a success. -/
def Cycle.saw (c : Cycle) : Classification → Cycle
  | .connectError => { c with sawConnect := true }
  | .transient => { c with sawTransient := true }
  | _ => { c with sawPermanent := true }

/-- The settlement of a relay that was not a success. -/
def settle (decision : RouteDecision) : Classification → Act Unit
  | .connectError => do
    RateLimiter.release .process decision.reservation
    CircuitBreaker.recordFailure cfg.circuitBreaker decision.provider
  | .transient => do
    RateLimiter.commitReservation decision.reservation
    CircuitBreaker.recordFailure cfg.circuitBreaker decision.provider
  | _ => do
    RateLimiter.commitReservation decision.reservation
    -- the provider is healthy; the message was rejected
    CircuitBreaker.recordSuccess decision.provider

/-- `self.registry.get(provider)`, used as `relay` uses it. -/
def registryGet (provider : String) : Act ProviderConfig :=
  match cfg.provider provider with
  | some p => .ret p
  | none => .raise .attributeError

/-- The failover loop of `_process`, `n` turns left, and what follows it. -/
def failover (messageId : ℕ) (snapshot : MsgSnapshot) (raw : Bytes) : ℕ → Cycle → Act Unit
  | 0, cycle => handleNoSuccess cfg messageId snapshot cycle
  | n + 1, cycle => do
    match ← select cfg cycle.tried with
    | none => handleNoSuccess cfg messageId snapshot cycle
    | some decision =>
      let provider := decision.provider
      let tried := cycle.tried ++ [provider]
      let attemptNo := snapshot.attempts + tried.length
      let attemptStarted ← perform .utcnow
      let result ← (registryGet cfg provider).bind fun p =>
        relay p snapshot.fromAddr snapshot.rcptTo raw ⟨messageId, decision.reservation⟩
      recordAttempt messageId attemptNo provider attemptStarted result
      if result.ok then
        RateLimiter.commitReservation decision.reservation
        CircuitBreaker.recordSuccess provider
        markSent messageId provider snapshot.claimedAt
      else
        settle cfg decision result.classification
        failover messageId snapshot raw n
          ({ cycle with tried := tried, madeAttempt := true, lastError := some result.detail,
                        lastCode := result.smtpCode }.saw result.classification)

/-- `_process` once the row has been read. -/
def processSnapshot (messageId : ℕ) (snapshot : MsgSnapshot) : Act Unit := do
  let now ← perform .utcnow
  let expired := (cfg.dispatch.retry.maxAgeHours : ℕ) * 3600 < now - snapshot.receivedAt
  match ← perform (.spoolRead snapshot.spoolPath) with
  | .error .fileNotFoundError => deadletter messageId .spoolMissing none
  | .error e => .raise e
  | .ok raw =>
    if expired then deadletter messageId .expired (some "message exceeded max age")
    else failover cfg messageId snapshot raw cfg.dispatch.failoverPerTick {}

/-- `_process`. -/
def process (messageId : ℕ) : Act Unit := do
  let row ← query .process (.message messageId)
  let _ ← commit .process []
  match row with
  | none => return
  | some msg =>
    if msg.status.terminal then return
    else processSnapshot cfg messageId (.fromRow msg)

/-- A turn of `_consumer`. -/
def consumer : Act Unit := do
  let messageId ← perform .queueGet
  (process cfg messageId).handle fun e => do
    requeueNow messageId
    swallow e

/-! ### The producer -/

/-- `_claim_batch`. -/
def claimBatch (limit : ℕ) : Act (List ℕ) := do
  let now ← perform .utcnow
  let ids ← query .claimBatch (.dueMessages now limit)
  if ids = [] then
    let _ ← commit .claimBatch []
    return []
  else
    execute .claimBatch [.updateMessages { ids := some ids }
      { status := .sending, claimedAt := some (some now) }]
    return ids

/-- `for mid in claimed: await self._queue.put(mid)`. -/
def putAll : List ℕ → Act Unit
  | [] => .ret ()
  | mid :: rest => do
    perform (.queuePut mid)
    putAll rest

/-- The body of `_producer`'s `try`. -/
def claimAndQueue : Act Unit := do
  let claimed ← claimBatch cfg.dispatch.claimBatchSize
  putAll claimed
  if claimed = [] then
    perform .waitWakeup
    perform .clearWakeup
  else return

/-- A turn of `_producer`. -/
def producer : Act Unit :=
  (claimAndQueue cfg).handle swallow

/-- `_recover_orphans`. -/
def recoverOrphans : Act Unit :=
  execute .recoverOrphans [.updateMessages { status := some .sending }
    { status := .queued, claimedAt := some none }]

/-! ### Housekeeping -/

/-- `self.spool.delete` of every row. -/
def spoolDeleteAll : List (ℕ × String) → Act Unit
  | [] => .ret ()
  | (_, spath) :: rest => do
    perform (.spoolDelete spath)
    spoolDeleteAll rest

/-- `plans`: the statuses with a retention time, and what is older than it. -/
def retentionPlans (now : Time) : List (MessageStatus × Time) :=
  let d := cfg.dispatch
  (if d.sentRetentionHours = 0 then []
    else [(.sent, now - d.sentRetentionHours * 3600)]) ++
  (if d.deadletterRetentionHours = 0 then []
    else [(.deadletter, now - d.deadletterRetentionHours * 3600)])

/-- The loop of `_retention_sweep`, a session for each plan. -/
def sweepPlans : List (MessageStatus × Time) → Act Unit
  | [] => .ret ()
  | (status, cutoff) :: rest => do
    let rows ← query .retentionSweep (.expiredMessages status cutoff 500)
    if rows = [] then
      let _ ← commit .retentionSweep []
      sweepPlans rest
    else
      let ids := rows.map Prod.fst
      flush .retentionSweep
      flush .retentionSweep
      let _ ← commit .retentionSweep [.deleteAttempts ids, .deleteMessages ids]
      spoolDeleteAll rows
      sweepPlans rest

/-- `_retention_sweep`. -/
def retentionSweep : Act Unit := do
  let now ← perform .utcnow
  sweepPlans (retentionPlans cfg now)

/-! ### The start -/

/-- `refresh_overrides`. -/
def refreshOverrides : Act Unit := do
  let rows ← query .refreshOverrides .providerOverrides
  perform (.setOverrides rows)
  let _ ← commit .refreshOverrides []

/-- The start of the process, up to the creation of the tasks. -/
def start : Act Unit := do
  refreshOverrides
  CircuitBreaker.load
  recoverOrphans
  perform .started

/-! ### What the dispatcher's parts do -/

section Tame

theorem tame_handleNoSuccess (messageId : ℕ) (snapshot : MsgSnapshot) (cycle : Cycle) :
    (handleNoSuccess cfg messageId snapshot cycle).Tame Op.fails Op.ofOthers fun _ => True := by
  unfold handleNoSuccess
  simp only
  split
  · exact tame_reschedule _ _ _ _
  refine (tame_candidateNames _).bind fun _ _ => ?_
  split
  · exact tame_deadletter _ _ _
  split
  · exact tame_deadletter _ _ _
  refine (tame_perform trivial fun _ => rfl).bind fun _ _ =>
    (tame_perform trivial fun _ => rfl).bind fun _ _ => ?_
  split
  · exact tame_deadletter _ _ _
  · exact tame_reschedule _ _ _ _

variable {cfg} in
theorem tame_settle (d : RouteDecision) (k : Classification) :
    (settle cfg d k).Tame Op.fails Op.ofRouter fun _ => True := by
  have commit : (RateLimiter.commitReservation d.reservation).Tame Op.fails Op.ofRouter
      fun _ => True :=
    (RateLimiter.tame_commitReservation _).widen fun _ h => .inl h.ofLimiter
  have failure : (CircuitBreaker.recordFailure cfg.circuitBreaker d.provider).Tame Op.fails
      Op.ofRouter fun _ => True :=
    (CircuitBreaker.tame_recordFailure _ _).widen fun _ h => .inr (.inl h)
  have success : (CircuitBreaker.recordSuccess d.provider).Tame Op.fails Op.ofRouter
      fun _ => True :=
    (CircuitBreaker.tame_recordSuccess _).widen fun _ h => .inr (.inl h)
  cases k with
  | connectError =>
    exact ((RateLimiter.tame_release _ _).widen fun _ => .inl).bind fun _ _ => failure
  | transient => exact commit.bind fun _ _ => failure
  | sent => exact commit.bind fun _ _ => success
  | permanent => exact commit.bind fun _ _ => success

theorem tame_claimBatch (limit : ℕ) :
    (claimBatch limit).Tame Op.fails Op.ofOthers fun _ => True := by
  refine (tame_perform trivial fun _ => rfl).bind fun _ _ =>
    (tame_query (by rfl)).bind fun _ _ => ?_
  split
  · exact (tame_commit (by simp [Op.ofOthers, Site.plain])).bind fun _ _ => trivial
  · exact (tame_execute (by rfl) (by simp [Op.ofOthers, Stmt.table, Site.plain])).bind fun _ _ =>
      trivial

theorem tame_putAll : ∀ ids, (putAll ids).Tame Op.fails Op.ofOthers fun _ => True
  | [] => trivial
  | _ :: rest => (tame_perform trivial fun _ => rfl).bind fun _ _ => tame_putAll rest

theorem tame_claimAndQueue : (claimAndQueue cfg).Tame Op.fails Op.ofOthers fun _ => True := by
  refine (tame_claimBatch _).bind fun _ _ => (tame_putAll _).bind fun _ _ => ?_
  split
  · exact (tame_perform trivial fun _ => rfl).bind fun _ _ => tame_perform trivial fun _ => rfl
  · trivial

theorem uses_producer : (producer cfg).Uses Op.ofOthers :=
  (tame_claimAndQueue cfg).uses.handle uses_swallow

theorem tame_spoolDeleteAll : ∀ rows, (spoolDeleteAll rows).Tame Op.fails Op.ofOthers fun _ => True
  | [] => trivial
  | _ :: rest => (tame_perform trivial fun _ => rfl).bind fun _ _ => tame_spoolDeleteAll rest

theorem tame_sweepPlans : ∀ plans, (sweepPlans plans).Tame Op.fails Op.ofOthers fun _ => True
  | [] => trivial
  | _ :: rest => by
    refine (tame_query (by rfl)).bind fun rows _ => ?_
    split
    · exact (tame_commit (by simp [Op.ofOthers, Site.plain])).bind fun _ _ => tame_sweepPlans rest
    · exact (tame_flush (by rfl)).bind fun _ _ => (tame_flush (by rfl)).bind fun _ _ =>
        (tame_commit (by simp [Op.ofOthers, Stmt.table, Site.plain])).bind fun _ _ =>
          (tame_spoolDeleteAll rows).bind fun _ _ => tame_sweepPlans rest

theorem tame_retentionSweep : (retentionSweep cfg).Tame Op.fails Op.ofOthers fun _ => True :=
  (tame_perform trivial fun _ => rfl).bind fun _ _ => tame_sweepPlans _

theorem tame_recoverOrphans : recoverOrphans.Tame Op.fails Op.ofOthers fun _ => True :=
  tame_execute (by rfl) (by simp [Op.ofOthers, Stmt.table, Site.plain])

theorem tame_refreshOverrides : refreshOverrides.Tame Op.fails Op.ofOthers fun _ => True :=
  (tame_query (by rfl)).bind fun _ _ => (tame_perform trivial fun _ => rfl).bind fun _ _ =>
    (tame_commit (by simp [Op.ofOthers, Site.plain])).bind fun _ _ => trivial

end Tame

end SmtpSwitch
