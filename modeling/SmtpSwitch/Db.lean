import Mathlib.Data.List.Sort
import SmtpSwitch.Util

/-!
# The database

The tables of `db/models.py` that the dispatcher, the ingress server and the
message API use, and the SQL they issue, as data: a `Query` is a `SELECT`, a
`Stmt` is an `INSERT`, `UPDATE` or `DELETE`. A session collects its statements
and they take effect together when it commits (`Db.execAll`), or not at all.

SQLite allows one writer at a time, from a session's first writing statement to
its commit, so no other session's statements come in between: executing them all
at the commit is exact, and so is choosing the new row ids there. A new row of a
table with `INTEGER PRIMARY KEY` and no `AUTOINCREMENT` gets one more than the
largest id in the table (`nextId`), so the id of a deleted last row is used again.
Foreign keys are on: an attempt cannot be recorded for a message that is gone.
-/

namespace SmtpSwitch

/-- `MessageStatus`. -/
inductive MessageStatus where
  | queued
  | sending
  | sent
  | deadletter
  deriving DecidableEq, Repr

/-- `_TERMINAL`. -/
def MessageStatus.terminal : MessageStatus → Bool
  | .sent | .deadletter => true
  | .queued | .sending => false

/-- A row of `messages`. -/
structure Message where
  id : ℕ
  receivedAt : Time
  submittingAccount : Option String
  fromAddr : String
  rcptTo : List String
  subject : Option String
  messageIdHeader : Option String
  size : ℕ
  spoolPath : String
  status : MessageStatus := .queued
  attempts : ℕ := 0
  nextAttemptAt : Time
  lastError : Option String := none
  providerUsed : Option String := none
  sentAt : Option Time := none
  claimedAt : Option Time := none
  deriving DecidableEq

/-- The outcome classifications of a relay (`SENT`, `TRANSIENT`, `PERMANENT`, `CONNECT_ERROR`). -/
inductive Classification where
  | sent
  /-- Retry later, or try another provider. -/
  | transient
  /-- The message itself was rejected. -/
  | permanent
  /-- Never reached the provider: release the reservation. -/
  | connectError
  deriving DecidableEq, Repr

/-- A row of `delivery_attempts`. -/
structure DeliveryAttempt where
  messageId : ℕ
  attemptNo : ℕ
  provider : String
  startedAt : Time
  finishedAt : Time
  result : Classification
  smtpCode : Option ℤ
  error : String
  deriving DecidableEq

/-- A row of `send_log`. -/
structure SendLogEntry where
  id : ℕ
  provider : String
  sentAt : Time
  deriving DecidableEq

/-- `ProviderQuota.scope`. -/
inductive Scope where
  | day
  | month
  deriving DecidableEq, Repr

/-- The primary key of `provider_quota`. -/
structure QuotaKey where
  provider : String
  periodKey : String
  scope : Scope
  deriving DecidableEq

/-- A row of `provider_state`; the breaker's in-memory `_State` has the same fields. -/
structure ProviderState where
  healthy : Bool := true
  consecutiveFailures : ℕ := 0
  openedAt : Option Time := none
  halfOpenProbes : ℕ := 0
  lastFailureAt : Option Time := none
  lastSuccessAt : Option Time := none
  deriving DecidableEq

/-- The tables. -/
structure Db where
  messages : List Message := []
  attempts : List DeliveryAttempt := []
  sendLog : List SendLogEntry := []
  /-- `provider_quota`: the count of a row, if there is one. -/
  quota : QuotaKey → Option ℕ := fun _ => none
  providerState : String → Option ProviderState := fun _ => none
  /-- `provider_overrides`: the `enabled` of a row, if there is one and it is not null. -/
  providerOverride : String → Option Bool := fun _ => none

/-- The id of the next row of a table with these ids. -/
def nextId (ids : List ℕ) : ℕ := ids.foldr max 0 + 1

theorem lt_nextId {ids : List ℕ} {n : ℕ} (h : n ∈ ids) : n < nextId ids := by
  have : n ≤ ids.foldr max 0 := by
    induction ids with
    | nil => simp at h
    | cons m ids ih =>
      rcases List.mem_cons.mp h with rfl | h
      · exact le_max_left _ _
      · exact (ih h).trans (le_max_right _ _)
  exact Nat.lt_succ_of_le this

/-! ### Queries -/

/-- A `SELECT`. -/
inductive Query where
  /-- The number of `send_log` rows of `provider` not older than `since`. -/
  | countSendLog (provider : String) (since : Time)
  /-- The count of a `provider_quota` row. -/
  | quota (key : QuotaKey)
  /-- A `messages` row by its primary key. -/
  | message (id : ℕ)
  /-- The ids of the queued messages that are due, oldest first. -/
  | dueMessages (now : Time) (limit : ℕ)
  /-- The ids and spool paths of messages with this status received before `cutoff`. The `SELECT`
  names no order; here it is the table's. -/
  | expiredMessages (status : MessageStatus) (cutoff : Time) (limit : ℕ)
  /-- A `provider_state` row. -/
  | providerState (provider : String)
  /-- All `provider_state` rows. -/
  | providerStates
  /-- All `provider_overrides` rows. -/
  | providerOverrides

/-- What a query returns. -/
@[reducible] def Query.Ans : Query → Type
  | .countSendLog _ _ => ℕ
  | .quota _ => Option ℕ
  | .message _ => Option Message
  | .dueMessages _ _ => List ℕ
  | .expiredMessages _ _ _ => List (ℕ × String)
  | .providerState _ => Option ProviderState
  | .providerStates => String → Option ProviderState
  | .providerOverrides => String → Option Bool

/-- The `send_log` rows of `p` not older than `since`. -/
def countSince (log : List SendLogEntry) (p : String) (since : Time) : ℕ :=
  log.countP fun e => e.provider = p ∧ since ≤ e.sentAt

/-- `ORDER BY next_attempt_at, id`. -/
def Message.before (a b : Message) : Prop :=
  a.nextAttemptAt < b.nextAttemptAt ∨ a.nextAttemptAt = b.nextAttemptAt ∧ a.id ≤ b.id

instance : DecidableRel Message.before := fun a b => by unfold Message.before; infer_instance

/-- The ids the producer's `SELECT` returns. -/
def selectDue (messages : List Message) (now : Time) (limit : ℕ) : List ℕ :=
  (((messages.filter fun m => m.status = .queued ∧ m.nextAttemptAt ≤ now).insertionSort
    Message.before).take limit).map Message.id

/-- The ids the producer selects are ids of queued messages, each once. -/
theorem mem_selectDue {messages : List Message} {now : Time} {limit id : ℕ}
    (h : id ∈ selectDue messages now limit) : ∃ m ∈ messages, m.id = id ∧ m.status = .queued := by
  simp only [selectDue, List.mem_map] at h
  obtain ⟨m, hm, rfl⟩ := h
  have hm := List.mem_of_mem_take hm
  rw [List.mem_insertionSort, List.mem_filter] at hm
  exact ⟨m, hm.1, rfl, (of_decide_eq_true hm.2).1⟩

theorem nodup_selectDue {messages : List Message} {now : Time} {limit : ℕ}
    (h : (messages.map Message.id).Nodup) : (selectDue messages now limit).Nodup := by
  have filtered := h.sublist ((List.filter_sublist
    (p := fun m => decide (m.status = .queued ∧ m.nextAttemptAt ≤ now))).map Message.id)
  have sorted := ((List.perm_insertionSort Message.before _).map Message.id).nodup_iff.mpr filtered
  exact sorted.sublist ((List.take_sublist _ _).map Message.id)

/-- The rows the retention sweep's `SELECT` returns. -/
def selectExpired (messages : List Message) (status : MessageStatus) (cutoff : Time) (limit : ℕ) :
    List (ℕ × String) :=
  ((messages.filter fun m => m.status = status ∧ m.receivedAt < cutoff).take limit).map
    fun m => (m.id, m.spoolPath)

/-- A query's result. -/
def Query.eval (db : Db) : (q : Query) → q.Ans
  | .countSendLog p since => countSince db.sendLog p since
  | .quota key => db.quota key
  | .message id => db.messages.find? fun m => m.id = id
  | .dueMessages now limit => selectDue db.messages now limit
  | .expiredMessages status cutoff limit => selectExpired db.messages status cutoff limit
  | .providerState p => db.providerState p
  | .providerStates => db.providerState
  | .providerOverrides => db.providerOverride

/-! ### Statements -/

/-- The `WHERE` of an `UPDATE messages`: on the ids, on the status, or both. -/
structure MessageWhere where
  ids : Option (List ℕ) := none
  status : Option MessageStatus := none
  deriving DecidableEq

/-- The rows a `WHERE` selects. -/
def MessageWhere.holds (w : MessageWhere) (m : Message) : Bool :=
  (w.ids.all fun ids => m.id ∈ ids) && (w.status.all fun st => m.status = st)

/-- What an `UPDATE` does to `attempts`. -/
inductive AttemptsValue where
  | keep
  | bump
  | set (n : ℕ)
  deriving DecidableEq

/-- The `SET` of an `UPDATE messages`; a column left `none` is not assigned. -/
structure MessageValues where
  status : MessageStatus
  attempts : AttemptsValue := .keep
  nextAttemptAt : Option Time := none
  lastError : Option (Option String) := none
  providerUsed : Option (Option String) := none
  sentAt : Option (Option Time) := none
  claimedAt : Option (Option Time) := none
  deriving DecidableEq

/-- A row after the assignment. -/
def MessageValues.apply (v : MessageValues) (m : Message) : Message :=
  { m with
    status := v.status
    attempts := match v.attempts with
      | .keep => m.attempts
      | .bump => m.attempts + 1
      | .set n => n
    nextAttemptAt := v.nextAttemptAt.getD m.nextAttemptAt
    lastError := v.lastError.getD m.lastError
    providerUsed := v.providerUsed.getD m.providerUsed
    sentAt := v.sentAt.getD m.sentAt
    claimedAt := v.claimedAt.getD m.claimedAt }

/-- An `INSERT`, `UPDATE` or `DELETE`. -/
inductive Stmt where
  /-- `INSERT INTO messages`; the id is the database's choice. -/
  | insertMessage (row : Message)
  | updateMessages (w : MessageWhere) (v : MessageValues)
  /-- The ORM's `UPDATE messages ... WHERE id`; it is an error when there is no such row. -/
  | updateMessage (id : ℕ) (v : MessageValues)
  /-- Deletes the message and, by cascade, its attempts. -/
  | deleteMessage (id : ℕ)
  | insertAttempt (row : DeliveryAttempt)
  /-- Deletes the attempts of these messages. -/
  | deleteAttempts (messageIds : List ℕ)
  /-- Deletes these messages and, by cascade, their attempts. -/
  | deleteMessages (ids : List ℕ)
  | insertSendLog (provider : String) (sentAt : Time)
  | deleteSendLog (id : ℕ)
  | deleteSendLogBefore (cutoff : Time)
  /-- Sets the count of a `provider_quota` row, new or loaded. -/
  | putQuota (key : QuotaKey) (count : ℕ)
  /-- Writes a `provider_state` row, new or loaded. -/
  | putProviderState (provider : String) (row : ProviderState)
  deriving DecidableEq

/-- What a statement writes to: the messages with their attempts, `send_log` with the quota
counters, the breaker's rows. -/
inductive Table where
  | messages
  | limits
  | breaker
  deriving DecidableEq

/-- The tables of a statement. -/
def Stmt.table : Stmt → Table
  | .insertMessage _ | .updateMessages _ _ | .updateMessage _ _ | .deleteMessage _ | .insertAttempt _
  | .deleteAttempts _ | .deleteMessages _ => .messages
  | .insertSendLog _ _ | .deleteSendLog _ | .deleteSendLogBefore _ | .putQuota _ _ => .limits
  | .putProviderState _ _ => .breaker

/-- The counter a statement writes. -/
def Stmt.quotaKey : Stmt → Option QuotaKey
  | .putQuota key _ => some key
  | _ => none

/-- The counters a session writes. -/
def quotaKeys (ss : List Stmt) : List QuotaKey := ss.filterMap Stmt.quotaKey

/-- The table after an `UPDATE messages`. -/
def applyUpdate (w : MessageWhere) (v : MessageValues) (messages : List Message) :
    List Message :=
  messages.map fun m => if w.holds m then v.apply m else m

/-- The effect of a statement; `none` when it breaks a foreign key, or finds no row where the ORM
expects one. -/
def Stmt.exec (db : Db) : Stmt → Option Db
  | .insertMessage row =>
    some { db with messages := db.messages ++
      [{ row with id := nextId (db.messages.map Message.id) }] }
  | .updateMessages w v => some { db with messages := applyUpdate w v db.messages }
  | .updateMessage id v =>
    if db.messages.any fun m => m.id = id then
      some { db with messages := applyUpdate { ids := some [id] } v db.messages }
    else none
  | .deleteMessage id =>
    some { db with
      messages := db.messages.filter fun m => m.id ≠ id
      attempts := db.attempts.filter fun a => a.messageId ≠ id }
  | .insertAttempt row =>
    if db.messages.any fun m => m.id = row.messageId then
      some { db with attempts := db.attempts ++ [row] }
    else none
  | .deleteAttempts ids =>
    some { db with attempts := db.attempts.filter fun a => a.messageId ∉ ids }
  | .deleteMessages ids =>
    some { db with
      messages := db.messages.filter fun m => m.id ∉ ids
      attempts := db.attempts.filter fun a => a.messageId ∉ ids }
  | .insertSendLog p t =>
    some { db with sendLog := db.sendLog ++ [⟨nextId (db.sendLog.map SendLogEntry.id), p, t⟩] }
  | .deleteSendLog id => some { db with sendLog := db.sendLog.filter fun e => e.id ≠ id }
  | .deleteSendLogBefore cutoff =>
    some { db with sendLog := db.sendLog.filter fun e => ¬ e.sentAt < cutoff }
  | .putQuota key count => some { db with quota := Function.update db.quota key (some count) }
  | .putProviderState p row =>
    some { db with providerState := Function.update db.providerState p (some row) }

/-- The id of the row a statement inserts, where the code asks for it. -/
def Stmt.newId (db : Db) : Stmt → Option ℕ
  | .insertMessage _ => some (nextId (db.messages.map Message.id))
  | .insertSendLog _ _ => some (nextId (db.sendLog.map SendLogEntry.id))
  | _ => none

/-- A session's statements, in order; `none` when one of them fails. -/
def Db.execAll (db : Db) : List Stmt → Option Db
  | [] => some db
  | s :: ss => (s.exec db).bind fun db' => db'.execAll ss

theorem Db.execAll_append (db : Db) (ss ts : List Stmt) :
    db.execAll (ss ++ ts) = (db.execAll ss).bind fun db' => db'.execAll ts := by
  induction ss generalizing db with
  | nil => rfl
  | cons s ss ih => simp only [List.cons_append, Db.execAll, ih, Option.bind_assoc]

/-- `db'` is `db` but for one group of tables. -/
structure Db.Frame (t : Table) (db db' : Db) : Prop where
  messages : t ≠ .messages → db'.messages = db.messages ∧ db'.attempts = db.attempts
  limits : t ≠ .limits → db'.sendLog = db.sendLog ∧ db'.quota = db.quota
  breaker : t ≠ .breaker → db'.providerState = db.providerState

theorem Stmt.exec_frame {s : Stmt} {db db' : Db} (h : s.exec db = some db') :
    Db.Frame s.table db db' := by
  cases s <;> simp only [Stmt.exec] at h
  case insertAttempt row =>
    split at h
    · cases h; constructor <;> simp [Stmt.table]
    · cases h
  case updateMessage id v =>
    split at h
    · cases h; constructor <;> simp [Stmt.table]
    · cases h
  all_goals cases h; constructor <;> simp [Stmt.table]

/-- Statements on other tables leave the messages and their attempts alone. -/
theorem Db.execAll_beside : ∀ {ss : List Stmt} {db db' : Db}, (∀ s ∈ ss, s.table ≠ .messages) →
    db.execAll ss = some db' → db'.messages = db.messages ∧ db'.attempts = db.attempts
  | [], _, _, _, h => by cases h; exact ⟨rfl, rfl⟩
  | s :: ss, db, db', table, h => by
    simp only [Db.execAll, Option.bind_eq_some_iff] at h
    obtain ⟨db₁, h₁, h₂⟩ := h
    obtain ⟨messages, attempts⟩ :=
      execAll_beside (fun s' hs' => table s' (List.mem_cons_of_mem _ hs')) h₂
    have first := (Stmt.exec_frame h₁).messages (table s List.mem_cons_self)
    exact ⟨messages.trans first.1, attempts.trans first.2⟩

/-- The id of the row a session inserted first, `0` if none. -/
def Db.insertedId (db : Db) (ss : List Stmt) : ℕ := (ss.findSome? fun s => s.newId db).getD 0

end SmtpSwitch
