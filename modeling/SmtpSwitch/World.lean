import SmtpSwitch.Config
import SmtpSwitch.Coop.Protocol
import SmtpSwitch.Db

/-!
# The process and its surroundings

`World` is everything the tasks of the process share: the database, the spool
directory, the clock, and the in-memory state (locks, slots in use, breaker
states, operator overrides, the work queue) that a crash wipes out. It also has
what is not the process's at all: the messages the providers have accepted.

`Op` lists the operations the code awaits or performs on that state, and
`exec` says what each does. The code itself is written over them, function by
function, in the modules that follow, as coroutines (`Act`). Where the code
holds no lock any other task may run between two operations.

What the surroundings decide is a `Choice`: whether a database statement fails,
what `aiosmtplib.send` ends in and whether the provider kept the message, the name
`uuid4` makes up, the draw of `random.random()`.
-/

namespace SmtpSwitch

open Coop

/-- The contents of a file. -/
abbrev Bytes := List UInt8

/-- The exceptions the code tells apart. -/
inductive Exc where
  | keyError
  | attributeError
  | fileNotFoundError
  /-- `sqlalchemy.exc.IntegrityError`, and `StaleDataError`: the statements do not fit the tables.
  -/
  | integrityError
  /-- Any other database error (`database is locked`). -/
  | operationalError
  | cancelledError
  | httpException (status : ℕ)
  | other
  deriving DecidableEq, Repr

/-- `Reservation`. -/
structure Reservation where
  provider : String
  sendLogId : ℕ
  dayKey : Option String
  monthKey : Option String
  resetDay : ℕ
  deriving DecidableEq

/-- On whose behalf a message is handed to a provider: the id of its row and the reservation
granted for it. Not sent; it lets a run be read. -/
structure Errand where
  message : ℕ
  reservation : Reservation
  deriving DecidableEq

/-! ### `aiosmtplib.send` -/

/-- A reply to a single recipient. -/
structure Refusal where
  recipient : String
  code : ℤ
  message : String
  /-- Its `str()`. -/
  text : String := ""
  deriving DecidableEq

/-- The exceptions of `aiosmtplib.errors`, each with its `str()`. -/
inductive SmtpError where
  /-- `SMTPConnectError`. -/
  | connect (text : String)
  /-- `SMTPConnectTimeoutError`: an `SMTPConnectError` and an `SMTPTimeoutError`. -/
  | connectTimeout (text : String)
  /-- `SMTPConnectResponseError`: an `SMTPConnectError` and an `SMTPResponseException`. -/
  | connectResponse (code : ℤ) (text : String)
  /-- `SMTPServerDisconnected`: the connection was lost. -/
  | serverDisconnected (text : String)
  /-- `SMTPTimeoutError`, and `SMTPReadTimeoutError`. -/
  | timeout (text : String)
  /-- `SMTPAuthenticationError`: an `SMTPResponseException`. -/
  | authentication (code : ℤ) (text : String)
  /-- `SMTPRecipientsRefused`: every recipient was refused. -/
  | recipientsRefused (recipients : List Refusal)
  /-- Any other `SMTPResponseException`. -/
  | response (code : ℤ) (text : String)
  /-- Any other `SMTPException`. -/
  | other (text : String)
  deriving DecidableEq

/-- How `aiosmtplib.send` ends. -/
inductive SendOutcome where
  /-- It returns the refused recipients and the reply to the message. -/
  | returned (errors : List Refusal) (response : String)
  /-- It raises an `SMTPException`. -/
  | raised (e : SmtpError)
  /-- It raises anything else. -/
  | raisedOther (e : Exc)
  deriving DecidableEq

/-- The keyword arguments of `aiosmtplib.send`. -/
structure SendKwargs where
  hostname : String
  port : ℕ
  timeout : ℕ
  validateCerts : Bool
  useTls : Option Bool
  startTls : Option Bool
  username : Option String
  password : Option String
  deriving DecidableEq

/-- What `BytesHeaderParser` gives for a header: `None`, a `str`, or, for raw non-ASCII bytes, a
`Header` object. -/
inductive HeaderValue where
  | absent
  | str (s : String)
  | header
  deriving DecidableEq

/-! ### The shared state -/

/-- The locks: one per provider in the limiter, one per provider in the breaker. -/
inductive Lock where
  | limiter (provider : String)
  | breaker (provider : String)
  deriving DecidableEq

/-- Everything the tasks share, and the providers' side. -/
structure World where
  db : Db := {}
  /-- The spool directory. -/
  files : String → Option Bytes := fun _ => none
  clock : Time
  /-- The holders of the locks. -/
  locks : Lock → Option ℕ := fun _ => none
  /-- `RateLimiter._inflight`. -/
  inflight : String → ℕ := fun _ => 0
  /-- `CircuitBreaker._states`. -/
  states : String → Option ProviderState := fun _ => none
  /-- `ProviderRegistry._overrides`. -/
  overrides : String → Option Bool := fun _ => none
  /-- `Dispatcher._queue`. -/
  queue : List ℕ := []
  /-- `Dispatcher._wakeup`. -/
  wakeup : Bool := false
  /-- `Dispatcher.start` has got past `_recover_orphans`. -/
  up : Bool := false
  /-- The file names made up so far. -/
  names : List String := []
  /-- What the providers have accepted, newest first. -/
  accepted : List (String × Errand) := []

/-- What a crash leaves: the database, the files, the clock and the providers. -/
def World.reboot (w : World) : World :=
  { db := w.db, files := w.files, clock := w.clock, names := w.names, accepted := w.accepted }

/-! ### Operations -/

/-- Who called a function that is called from several places. -/
inductive Caller where
  | select
  | process
  deriving DecidableEq

/-- The breaker's operations. -/
inductive BreakerOp where
  | beginProbe
  | recordSuccess
  | recordFailure
  deriving DecidableEq

/-- The function whose database session it is. -/
inductive Site where
  | check
  | tryReserve
  | release (by_ : Caller)
  | prune
  | load
  | refreshOverrides
  | persist (by_ : BreakerOp)
  | recoverOrphans
  | claimBatch
  | process
  | recordAttempt
  | markSent
  | reschedule
  | deadletter
  | requeueNow
  | handleData
  | deleteMessage
  | requeue
  | retentionSweep
  deriving DecidableEq

/-- Calls worth noting in the trace. -/
inductive Call where
  /-- `try_reserve` has granted a reservation. -/
  | granted (r : Reservation)
  | commit (r : Reservation)
  | release (r : Reservation)
  | recordSuccess (provider : String)
  | recordFailure (provider : String)
  deriving DecidableEq

/-- An operation. -/
inductive Op where
  /-- Waits for a lock and takes it. -/
  | acquire (l : Lock)
  | unlock (l : Lock)
  | utcnow
  /-- `random.random()`. -/
  | random
  | inflight (provider : String)
  | incInflight (provider : String)
  /-- `max(0, inflight - 1)`. -/
  | decInflight (provider : String)
  /-- `_st(provider)`. -/
  | state (provider : String)
  /-- `_st(provider)` and `utcnow()` with no await in between (`status`). -/
  | stateNow (provider : String)
  | setState (provider : String) (st : ProviderState)
  /-- Replaces `_states` by what `load` read. -/
  | loadStates (rows : String → Option ProviderState)
  | overrides
  | setOverrides (rows : String → Option Bool)
  | select (site : Site) (q : Query)
  /-- `session.flush()`: the statements are sent, and take effect with the commit. -/
  | flush (site : Site)
  /-- `session.commit()`. -/
  | commit (site : Site) (ss : List Stmt)
  /-- Waits for `Queue.get`. -/
  | queueGet
  /-- Waits for room, then `Queue.put`. -/
  | queuePut (messageId : ℕ)
  /-- `wait_for(self._wakeup.wait(), timeout=poll)`. -/
  | waitWakeup
  | clearWakeup
  /-- `notify_new_message`. -/
  | notify
  | send (provider : String) (kwargs : SendKwargs) (sender : String) (recipients : List String)
      (message : Bytes) (errand : Errand)
  | spoolWrite (content : Bytes)
  | spoolRead (path : String)
  | spoolDelete (path : String)
  /-- A header of a message, parsed. -/
  | header (content : Bytes) (name : String)
  /-- `start` has recovered the orphans. -/
  | started
  | call (c : Call)

/-- The type of the answers to an operation. -/
@[reducible] def Op.Ans : Op → Type
  | .acquire _ | .unlock _ | .incInflight _ | .decInflight _ | .setState _ _ | .loadStates _
  | .setOverrides _ | .queuePut _ | .waitWakeup | .clearWakeup | .notify | .spoolDelete _
  | .started | .call _ => Unit
  | .utcnow => Time
  | .random => ℚ
  | .inflight _ => ℕ
  | .state _ => ProviderState
  | .stateNow _ => ProviderState × Time
  | .overrides => String → Option Bool
  | .select _ q => Except Exc q.Ans
  | .flush _ => Except Exc Unit
  | .commit _ _ => Except Exc ℕ
  | .queueGet => ℕ
  | .send .. => SendOutcome
  | .spoolWrite _ => String
  | .spoolRead _ => Except Exc Bytes
  | .header _ _ => HeaderValue

/-- The answer is an exception. -/
def Op.fails : (o : Op) → o.Ans → Bool
  | .select _ _, .error _ | .flush _, .error _ | .commit _ _, .error _
  | .spoolRead _, .error _ => true
  | .send .., .raisedOther _ => true
  | _, _ => false

/-- What the surroundings decide. -/
inductive Choice where
  /-- Nothing goes wrong. -/
  | ok
  /-- The operation raises. -/
  | fail (e : Exc)
  /-- The wait times out. -/
  | timeout
  /-- `random.random()` draws `q`. -/
  | draw (q : ℚ)
  /-- `uuid4` makes up this file name. -/
  | name (path : String)
  /-- `aiosmtplib.send` ends so, and the provider has, or has not, accepted the message. -/
  | smtp (out : SendOutcome) (accepted : Bool)
  /-- The header parser gives this. -/
  | parsed (v : HeaderValue)

variable (cfg : Settings)

/-- What an operation of task `i` does. -/
def exec (i : ℕ) : (o : Op) → Choice → World → Option (o.Ans × World)
  | .acquire l, .ok, w =>
    if w.locks l = none then some ((), { w with locks := Function.update w.locks l (some i) })
      else none
  | .unlock l, .ok, w => some ((), { w with locks := Function.update w.locks l none })
  | .utcnow, .ok, w => some (w.clock, w)
  | .random, .draw q, w => if 0 ≤ q ∧ q < 1 then some (q, w) else none
  | .inflight p, .ok, w => some (w.inflight p, w)
  | .incInflight p, .ok, w =>
    some ((), { w with inflight := Function.update w.inflight p (w.inflight p + 1) })
  | .decInflight p, .ok, w =>
    some ((), { w with inflight := Function.update w.inflight p (w.inflight p - 1) })
  | .state p, .ok, w => some ((w.states p).getD {}, w)
  | .stateNow p, .ok, w => some (((w.states p).getD {}, w.clock), w)
  | .setState p st, .ok, w => some ((), { w with states := Function.update w.states p (some st) })
  | .loadStates rows, .ok, w => some ((), { w with states := fun p => (rows p).or (w.states p) })
  | .overrides, .ok, w => some (w.overrides, w)
  | .setOverrides rows, .ok, w => some ((), { w with overrides := rows })
  | .select _ q, .ok, w => some (.ok (q.eval w.db), w)
  | .select _ _, .fail e, w => some (.error e, w)
  | .flush _, .ok, w => some (.ok (), w)
  | .flush _, .fail e, w => some (.error e, w)
  | .commit _ ss, .ok, w =>
    match w.db.execAll ss with
    | some db => some (.ok (w.db.insertedId ss), { w with db := db })
    | none => some (.error .integrityError, w)
  | .commit _ _, .fail e, w => some (.error e, w)
  | .queueGet, .ok, w =>
    match w.queue with
    | m :: ms => some (m, { w with queue := ms })
    | [] => none
  | .queuePut m, .ok, w =>
    if w.queue.length < cfg.dispatch.claimBatchSize * 2 then some ((),
      { w with queue := w.queue ++ [m] })
    else none
  | .waitWakeup, .ok, w => if w.wakeup then some ((), w) else none
  | .waitWakeup, .timeout, w => some ((), w)
  | .clearWakeup, .ok, w => some ((), { w with wakeup := false })
  | .notify, .ok, w => some ((), { w with wakeup := true })
  | .send p _ _ _ _ errand, .smtp out accepted, w =>
    some (out, { w with accepted := if accepted then (p, errand) :: w.accepted else w.accepted })
  | .spoolWrite content, .name path, w =>
    if path ∈ w.names then none
    else some (path, { w with files := Function.update w.files path (some content)
                              names := path :: w.names })
  | .spoolRead path, .ok, w =>
    match w.files path with
    | some content => some (.ok content, w)
    | none => some (.error .fileNotFoundError, w)
  | .spoolRead _, .fail e, w => some (.error e, w)
  | .spoolDelete path, .ok, w => some ((), { w with files := Function.update w.files path none })
  | .header _ _, .parsed v, w => some (v, w)
  | .started, .ok, w => some ((), { w with up := true })
  | .call _, .ok, w => some ((), w)
  | _, _, _ => none

/-! ### What an operation leaves alone -/

/-- The parts of the shared state that operations change. -/
inductive Part where
  | db
  /-- The files, and the names made up for them. -/
  | files
  | locks
  | inflight
  | states
  | overrides
  | queue
  | wakeup
  | up
  | accepted
  deriving DecidableEq

/-- The part an operation may change. -/
def Op.part : Op → Option Part
  | .commit _ _ => some .db
  | .spoolWrite _ | .spoolDelete _ => some .files
  | .acquire _ | .unlock _ => some .locks
  | .incInflight _ | .decInflight _ => some .inflight
  | .setState _ _ | .loadStates _ => some .states
  | .setOverrides _ => some .overrides
  | .queueGet | .queuePut _ => some .queue
  | .clearWakeup | .notify => some .wakeup
  | .started => some .up
  | .send .. => some .accepted
  | _ => none

/-- `w'` is `w` but for one part. -/
structure World.Frame (part : Option Part) (w w' : World) : Prop where
  clock : w'.clock = w.clock
  db : part ≠ some .db → w'.db = w.db
  files : part ≠ some .files → w'.files = w.files ∧ w'.names = w.names
  locks : part ≠ some .locks → w'.locks = w.locks
  inflight : part ≠ some .inflight → w'.inflight = w.inflight
  states : part ≠ some .states → w'.states = w.states
  overrides : part ≠ some .overrides → w'.overrides = w.overrides
  queue : part ≠ some .queue → w'.queue = w.queue
  wakeup : part ≠ some .wakeup → w'.wakeup = w.wakeup
  up : part ≠ some .up → w'.up = w.up
  accepted : part ≠ some .accepted → w'.accepted = w.accepted

theorem World.Frame.refl (part : Option Part) (w : World) : World.Frame part w w := by
  constructor <;> simp

/-- An operation changes its own part only. -/
theorem exec_frame {i : ℕ} {o : Op} {c : Choice} {w w' : World} {a : o.Ans}
    (h : exec cfg i o c w = some (a, w')) : World.Frame o.part w w' := by
  cases o <;> cases c <;> delta exec at h <;> simp only [reduceCtorEq] at h
  all_goals first
    | (cases h; constructor <;> simp [Op.part])
    | (split at h <;> first
        | (cases h; constructor <;> simp [Op.part])
        | cases h)

/-! ### What an operation does

One lemma for each operation that later proofs look into. -/

section Inversion

variable {cfg : Settings} {i : ℕ} {c : Choice} {w w' : World}

theorem exec_acquire {l : Lock} {a : Unit} (h : exec cfg i (.acquire l) c w = some (a, w')) :
    w.locks l = none ∧ w' = { w with locks := Function.update w.locks l (some i) } := by
  cases c <;> delta exec at h <;> simp only [reduceCtorEq] at h
  split at h
  · cases h; exact ⟨‹_›, rfl⟩
  · cases h

theorem exec_unlock {l : Lock} {a : Unit} (h : exec cfg i (.unlock l) c w = some (a, w')) :
    w' = { w with locks := Function.update w.locks l none } := by
  cases c <;> delta exec at h <;> simp only [reduceCtorEq] at h
  cases h; rfl

theorem exec_utcnow {a : Time} (h : exec cfg i .utcnow c w = some (a, w')) :
    a = w.clock ∧ w' = w := by
  cases c <;> delta exec at h <;> simp only [reduceCtorEq] at h
  cases h; exact ⟨rfl, rfl⟩

theorem exec_random {a : ℚ} (h : exec cfg i .random c w = some (a, w')) :
    (0 ≤ a ∧ a < 1) ∧ w' = w := by
  cases c <;> delta exec at h <;> simp only [reduceCtorEq] at h
  split at h
  · cases h; exact ⟨‹_›, rfl⟩
  · cases h

theorem exec_inflight {p : String} {a : ℕ} (h : exec cfg i (.inflight p) c w = some (a, w')) :
    a = w.inflight p ∧ w' = w := by
  cases c <;> delta exec at h <;> simp only [reduceCtorEq] at h
  cases h; exact ⟨rfl, rfl⟩

theorem exec_incInflight {p : String} {a : Unit}
    (h : exec cfg i (.incInflight p) c w = some (a, w')) :
    w' = { w with inflight := Function.update w.inflight p (w.inflight p + 1) } := by
  cases c <;> delta exec at h <;> simp only [reduceCtorEq] at h
  cases h; rfl

theorem exec_decInflight {p : String} {a : Unit}
    (h : exec cfg i (.decInflight p) c w = some (a, w')) :
    w' = { w with inflight := Function.update w.inflight p (w.inflight p - 1) } := by
  cases c <;> delta exec at h <;> simp only [reduceCtorEq] at h
  cases h; rfl

theorem exec_state {p : String} {a : ProviderState} (h : exec cfg i (.state p) c w = some (a, w')) :
    a = (w.states p).getD {} ∧ w' = w := by
  cases c <;> delta exec at h <;> simp only [reduceCtorEq] at h
  cases h; exact ⟨rfl, rfl⟩

theorem exec_stateNow {p : String} {a : ProviderState × Time}
    (h : exec cfg i (.stateNow p) c w = some (a, w')) :
    a = ((w.states p).getD {}, w.clock) ∧ w' = w := by
  cases c <;> delta exec at h <;> simp only [reduceCtorEq] at h
  cases h; exact ⟨rfl, rfl⟩

theorem exec_setState {p : String} {st : ProviderState} {a : Unit}
    (h : exec cfg i (.setState p st) c w = some (a, w')) :
    w' = { w with states := Function.update w.states p (some st) } := by
  cases c <;> delta exec at h <;> simp only [reduceCtorEq] at h
  cases h; rfl

theorem exec_loadStates {rows : String → Option ProviderState} {a : Unit}
    (h : exec cfg i (.loadStates rows) c w = some (a, w')) :
    w' = { w with states := fun p => (rows p).or (w.states p) } := by
  cases c <;> delta exec at h <;> simp only [reduceCtorEq] at h
  cases h; rfl

theorem exec_select {site : Site} {q : Query} {a : Except Exc q.Ans}
    (h : exec cfg i (.select site q) c w = some (a, w')) :
    (a = .ok (q.eval w.db) ∨ ∃ e, a = .error e) ∧ w' = w := by
  cases c <;> delta exec at h <;> simp only [reduceCtorEq] at h
  · cases h; exact ⟨.inl rfl, rfl⟩
  · cases h; exact ⟨.inr ⟨_, rfl⟩, rfl⟩

theorem exec_queueGet {id : ℕ} (h : exec cfg i .queueGet c w = some (id, w')) :
    ∃ rest, w.queue = id :: rest ∧ w' = { w with queue := rest } := by
  cases c <;> delta exec at h <;> simp only [reduceCtorEq] at h
  split at h
  · cases h; exact ⟨_, ‹_›, rfl⟩
  · cases h

theorem exec_queuePut {id : ℕ} {a : Unit} (h : exec cfg i (.queuePut id) c w = some (a, w')) :
    w' = { w with queue := w.queue ++ [id] } := by
  cases c <;> delta exec at h <;> simp only [reduceCtorEq] at h
  split at h
  · cases h; rfl
  · cases h

theorem exec_started {a : Unit} (h : exec cfg i .started c w = some (a, w')) :
    w' = { w with up := true } := by
  cases c <;> delta exec at h <;> simp only [reduceCtorEq] at h
  cases h; rfl

theorem exec_spoolWrite {content : Bytes} {path : String}
    (h : exec cfg i (.spoolWrite content) c w = some (path, w')) :
    path ∉ w.names ∧ w' = { w with files := Function.update w.files path (some content)
                                   names := path :: w.names } := by
  cases c <;> delta exec at h <;> simp only [reduceCtorEq] at h
  split at h
  · cases h
  · cases h; exact ⟨‹_›, rfl⟩

theorem exec_spoolRead {path : String} {a : Except Exc Bytes}
    (h : exec cfg i (.spoolRead path) c w = some (a, w')) :
    (∀ content, a = .ok content → w.files path = some content) ∧ w' = w := by
  cases c <;> delta exec at h <;> simp only [reduceCtorEq] at h
  · split at h
    · cases h
      refine ⟨fun content hc => ?_, rfl⟩
      cases hc
      assumption
    · cases h; exact ⟨fun _ hc => (by cases hc), rfl⟩
  · cases h; exact ⟨fun _ hc => (by cases hc), rfl⟩

theorem exec_spoolDelete {path : String} {a : Unit}
    (h : exec cfg i (.spoolDelete path) c w = some (a, w')) :
    w' = { w with files := Function.update w.files path none } := by
  cases c <;> delta exec at h <;> simp only [reduceCtorEq] at h
  cases h; rfl

/-- A relayed message is accepted or not, as the surroundings choose. -/
theorem exec_send {p : String} {kw : SendKwargs} {sender : String} {rcpts : List String}
    {msg : Bytes} {errand : Errand} {a : SendOutcome}
    (h : exec cfg i (.send p kw sender rcpts msg errand) c w = some (a, w')) :
    ∃ accepted, c = .smtp a accepted ∧
      w' = { w with accepted := if accepted then (p, errand) :: w.accepted else w.accepted } := by
  cases c <;> delta exec at h <;> simp only [reduceCtorEq] at h
  cases h
  exact ⟨_, rfl, rfl⟩

/-- A commit takes effect as a whole or fails and has none. -/
theorem exec_commit {site : Site} {ss : List Stmt} {a : Except Exc ℕ}
    (h : exec cfg i (.commit site ss) c w = some (a, w')) :
    (∃ db, w.db.execAll ss = some db ∧ a = .ok (w.db.insertedId ss) ∧ w' = { w with db := db }) ∨
      (∃ e, a = .error e) ∧ w' = w := by
  cases c <;> delta exec at h <;> simp only [reduceCtorEq] at h
  · split at h
    · cases h; exact .inl ⟨_, ‹_›, rfl, rfl⟩
    · cases h; exact .inr ⟨⟨_, rfl⟩, rfl⟩
  · cases h; exact .inr ⟨⟨_, rfl⟩, rfl⟩

end Inversion

end SmtpSwitch
