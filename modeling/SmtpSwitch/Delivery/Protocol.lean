import SmtpSwitch.System

/-!
# Who does what with which message

`Duty` says what a task is doing with the messages: the producer selects due ids,
claims them and queues them; a consumer takes an id, reads the row, relays it and
writes the cycle's outcome, or, after an exception, puts it back; `handle_DATA`
spools a message and inserts its row; the API deletes one; the start of the process
puts back what was being sent. The protocol `delivery` allows each statement on `messages` in one
duty only (`Updates`), and the relay only for the message whose turn it is.
-/

namespace SmtpSwitch

open Coop Coop.Prog

/-- A turn of a consumer: what `_process` has read and done. -/
structure Turn where
  /-- The row, as read. -/
  row : Message
  /-- The spooled bytes, when they have been read. -/
  raw : Option Bytes := none
  /-- The relays made. -/
  sends : ℕ := 0
  /-- The last relay was classified as sent. -/
  sent : Bool := false
  /-- The attempts recorded. -/
  recorded : ℕ := 0

/-- What a task is doing. -/
inductive Duty where
  | idle
  /-- The start of the process. -/
  | starting
  /-- The start of the process, the orphans put back. -/
  | recovered
  /-- The producer, before it selects. -/
  | producing
  /-- The producer has selected these ids. -/
  | due (ids : List ℕ)
  /-- The producer has claimed these ids, and has still to queue them. -/
  | batch (ids : List ℕ)
  /-- A consumer has taken an id. -/
  | got (id : ℕ)
  /-- A consumer has looked for the row. -/
  | read (id : ℕ) (row : Option Message)
  /-- A consumer is at work on a message; the last time it was told, and the last number drawn. -/
  | turn (id : ℕ) (t : Turn) (told : Option Time) (drawn : Option ℚ)
  /-- An exception has left `_process` after so many relays. -/
  | failed (id sends : ℕ) (sent : Bool)
  /-- `handle_DATA` has spooled a message. -/
  | spooled (content : Bytes) (path : String)
  /-- `handle_DATA` could not store the message it has spooled here. -/
  | unstored (path : String)
  /-- `delete_message` of the API. -/
  | deleting
  /-- `delete_message` has deleted the row. -/
  | deleted

/-! ### The next duty -/

/-- A relay returned a result classified as sent. -/
def sentBy (out : SendOutcome) : Bool :=
  match resultOf out with
  | .ok r => r.ok
  | .error _ => false

/-- The next duty of a consumer at work. -/
def Duty.nextTurn (id : ℕ) (t : Turn) (told : Option Time) (drawn : Option ℚ) :
    (o : Op) → o.Ans → Duty
  | .utcnow, now => .turn id t (some now) drawn
  | .random, q => .turn id t told (some q)
  | .spoolRead _, .ok raw => .turn id { t with raw := some raw } told drawn
  -- a missing file is a reason to give the message up, no exception
  | .spoolRead _, .error .fileNotFoundError => .turn id t told drawn
  | .send .., out =>
    match resultOf out with
    | .ok _ => .turn id { t with sends := t.sends + 1, sent := sentBy out } told drawn
    | .error _ => .failed id (t.sends + 1) false
  | .commit _ [.updateMessages _ _], .ok _ => .idle
  | .commit _ [.insertAttempt _], .ok _ => .turn id { t with recorded := t.recorded + 1 } told drawn
  | o, a => if o.fails a then .failed id t.sends t.sent else .turn id t told drawn

/-- The duty after the row was read and the session closed. -/
def Duty.ofRow (id : ℕ) : Option Message → Duty
  | none => .idle
  | some row => if row.status.terminal then .idle else .turn id { row := row } none none

/-- The next duty. -/
def Duty.next : Duty → (o : Op) → o.Ans → Duty
  | .idle, .queueGet, id => .got id
  | .idle, .spoolWrite content, path => .spooled content path
  | .starting, .commit _ [.updateMessages _ _], .ok _ => .recovered
  | .starting, o, a => if o.fails a then .idle else .starting
  | .recovered, .started, _ => .idle
  | .producing, .select _ (.dueMessages _ _), .ok ids => .due ids
  | .producing, .select _ _, .error _ => .idle
  | .due ids, .commit _ [.updateMessages _ _], .ok _ => .batch ids
  | .due _, .flush _, .error _ | .due _, .commit _ _, _ => .idle
  | .batch ids, .queuePut _, _ => if ids.tail = [] then .idle else .batch ids.tail
  | .got id, .select _ (.message _), .ok row => .read id row
  | .got id, .select _ _, .error _ => .failed id 0 false
  | .read id row, .commit _ _, .ok _ => .ofRow id row
  | .read id _, .commit _ _, .error _ => .failed id 0 false
  | .turn id t told drawn, o, a => nextTurn id t told drawn o a
  | .failed .., .flush .requeueNow, .error _ | .failed ..,
      .commit _ [.updateMessages _ _], _ => .idle
  -- a cancellation leaves `handle_DATA`, anything else is followed by the removal of the file
  | .spooled _ _, .flush _, .error .cancelledError
  | .spooled _ _, .commit _ _, .error .cancelledError => .idle
  | .spooled _ path, .flush _, .error _ | .spooled _ path, .commit _ _, .error _ => .unstored path
  | .spooled _ _, .commit _ _, .ok _ => .idle
  | .unstored _, .spoolDelete _, _ => .idle
  | .deleting, .select _ (.message _), .ok (some _) => .deleting
  | .deleting, .select _ _, _ | .deleting, .flush _, .error _ | .deleting, .commit _ _,
      .error _ => .idle
  | .deleting, .commit _ _, .ok _ => .deleted
  | .deleted, .spoolDelete _, _ => .idle
  | φ, _, _ => φ

/-! ### What is in order -/

variable (cfg : Settings)

/-- The `UPDATE`s of `messages`, each with the duty it belongs to. -/
inductive Updates : Duty → MessageWhere → MessageValues → Prop where
  /-- `_claim_batch`. -/
  | claim {ids : List ℕ} {now : Time} : ids ≠ [] → Updates (.due ids) { ids := some ids }
      { status := .sending, claimedAt := some (some now) }
  /-- `_mark_sent`, after a relay classified as sent. -/
  | markSent {id : ℕ} {t : Turn} {told : Option Time} {drawn : Option ℚ} {p : String} {now : Time} :
      t.sent = true → Updates (.turn id t told drawn) { ids := some [id] }
        { status := .sent, providerUsed := some (some p), sentAt := some (some now),
          lastError := some none }
  /-- `_reschedule` of a cycle that has relayed: the attempt is charged, and the next one waits
  for a backoff delay. -/
  | retry {id : ℕ} {t : Turn} {now : Time} {draw : ℚ} {error : Option String} : t.sent = false →
      0 < t.sends → t.row.attempts + 1 < cfg.dispatch.retry.maxAttempts →
        Updates (.turn id t (some now) (some draw)) { ids := some [id] }
          { status := .queued
            nextAttemptAt := some (now + backoffDelay (t.row.attempts + 1)
              (cfg.dispatch.retry.baseDelaySeconds : ℕ) (cfg.dispatch.retry.maxDelaySeconds : ℕ)
              cfg.dispatch.retry.jitterRatio draw)
            lastError := some error, claimedAt := some none, attempts := .bump }
  /-- `_reschedule` of a cycle that has not. -/
  | postpone {id : ℕ} {t : Turn} {told : Option Time} {drawn : Option ℚ} {next : Time}
      {error : Option String} : t.sends = 0 →
        Updates (.turn id t told drawn) { ids := some [id] }
          { status := .queued, nextAttemptAt := some next, lastError := some error,
            claimedAt := some none }
  /-- `_deadletter`. -/
  | deadletter {id : ℕ} {t : Turn} {told : Option Time} {drawn : Option ℚ}
      {reason : DeadletterReason} {detail : Option String} : t.sent = false →
        (reason = .maxAttempts → cfg.dispatch.retry.maxAttempts ≤ t.row.attempts + 1) →
          Updates (.turn id t told drawn) { ids := some [id] }
            { status := .deadletter
              lastError := some (some (truncate 2000 (strip ("[" ++ reason.text ++ "] " ++
                detail.getD ""))))
              claimedAt := some none }
  /-- `_requeue_now`. -/
  | requeue {id sends : ℕ} {sent : Bool} :
      Updates (.failed id sends sent) { ids := some [id], status := some .sending }
        { status := .queued }
  /-- `_recover_orphans`. -/
  | recover : Updates .starting { status := some .sending }
      { status := .queued, claimedAt := some none }

/-- A row as it is inserted: nothing has happened to the message yet. -/
structure Message.Unmarked (row : Message) : Prop where
  lastError : row.lastError = none
  providerUsed : row.providerUsed = none
  sentAt : row.sentAt = none
  claimedAt : row.claimedAt = none

/-- The sessions that may be committed. -/
def Duty.writes (φ : Duty) : List Stmt → Prop
  | [.insertMessage row] => (∃ content, φ = .spooled content row.spoolPath) ∧
      row.status = .queued ∧ row.attempts = 0 ∧ row.Unmarked
  | [.updateMessages w v] => Updates cfg φ w v
  | [.deleteMessage _] => φ = .deleting
  | [.insertAttempt row] => ∃ t told drawn, φ = .turn row.messageId t told drawn ∧
      t.sends = t.recorded + 1 ∧ row.attemptNo = t.row.attempts + t.sends
  | ss => ∀ s ∈ ss, s.table ≠ .messages

/-- The operations in order. -/
def Duty.good (φ : Duty) : (o : Op) → o.Ans → Prop
  | .queueGet, _ | .spoolWrite _, _ => φ = .idle
  | .queuePut id, _ => ∃ ids, φ = .batch (id :: ids)
  | .select _ (.dueMessages _ _), _ => φ = .producing
  | .select _ (.message id), _ => φ = .got id ∨ φ = .deleting
  | .spoolDelete path, _ => φ = .unstored path ∨ φ = .deleted
  | .spoolRead path, _ => ∃ id t told drawn, φ = .turn id t told drawn ∧ path = t.row.spoolPath
  | .started, _ => φ = .recovered
  | .send _ _ sender rcpts raw errand, _ => ∃ t told drawn,
      φ = .turn errand.message t told drawn ∧ sender = t.row.fromAddr ∧ rcpts = t.row.rcptTo ∧
        t.raw = some raw ∧ t.sent = false ∧ t.sends < cfg.dispatch.failoverPerTick ∧
          t.recorded = t.sends
  | .commit _ ss, _ => φ.writes cfg ss
  | _, _ => True

/-- The duty a job starts with. -/
def Job.duty : Job → Duty
  | .start => .starting
  | .producer => .producing
  | .deleteMessage _ => .deleting
  | _ => .idle

/-- The protocol of the deliveries. -/
def delivery : Protocol Op Op.Ans Job Duty where
  idle := .idle
  enter := Job.duty
  next := Duty.next
  good := Duty.good cfg

end SmtpSwitch
