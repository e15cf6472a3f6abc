import Mathlib.Data.List.Nodup
import SmtpSwitch.Coop.Alone
import SmtpSwitch.Delivery.Cycle

/-!
# The outcome table

What one cycle does with a message, as its conversations with the providers decide it: whoever
`select` chooses is relayed to (`Loop`), each conversation is settled by what has come of it
(`settledBy`), and after the last one there is one write, the one the table names for their results
(`Concludes`). A complete cycle that nothing fails in is a run of the table
(`cycle_refines_table`).
-/

namespace SmtpSwitch

open Coop Coop.Prog

/-! ### The table -/

/-- How a relay is settled: the reservation, and then the breaker. -/
def settledBy (r : Reservation) (provider : String) : Classification → List Call
  | .sent | .permanent => [.commit r, .recordSuccess provider]
  | .transient => [.commit r, .recordFailure provider]
  | .connectError => [.release r, .recordFailure provider]

/-- A conversation with a provider: what it was about, what came of it, and the calls made then. -/
structure Conversation where
  provider : String
  errand : Errand
  result : RelayResult
  calls : List Call

/-- It is settled as the table says. -/
structure Conversation.Settled (c : Conversation) : Prop where
  calls : c.calls = settledBy c.errand.reservation c.provider c.result.classification
  own : c.errand.reservation.provider = c.provider

/-- The providers relayed to, with the classes of what came of it. -/
def classes (cs : List Conversation) : List (String × Classification) :=
  cs.map fun c => (c.provider, c.result.classification)

/-- The `UPDATE` of `_mark_sent`. -/
def sentStmt (messageId : ℕ) (provider : String) (now : Time) : Stmt :=
  .updateMessages { ids := some [messageId] }
    { status := .sent, providerUsed := some (some provider), sentAt := some (some now),
      lastError := some none }

/-- The `UPDATE` of `_reschedule`. -/
def rescheduleStmt (messageId : ℕ) (now : Time) (delay : ℚ) (lastError : Option String)
    (bump : Bool) : Stmt :=
  .updateMessages { ids := some [messageId] }
    { status := .queued, nextAttemptAt := some (now + delay),
      lastError := some (orNone (truncate 2000 (lastError.getD ""))), claimedAt := some none,
      attempts := if bump then .bump else .keep }

variable (cfg : Settings)

/-- The delay of the next attempt. -/
def nextDelay (snapshot : MsgSnapshot) (draw : ℚ) : ℚ :=
  backoffDelay (snapshot.attempts + 1) (cfg.dispatch.retry.baseDelaySeconds : ℕ)
    (cfg.dispatch.retry.maxDelaySeconds : ℕ) cfg.dispatch.retry.jitterRatio draw

/-- The time after which a message is given up. -/
def deadline (snapshot : MsgSnapshot) : ℚ :=
  snapshot.receivedAt + (cfg.dispatch.retry.maxAgeHours : ℕ) * 3600

/-- All were rejections, and every provider in `enabled` was tried. -/
def Rejected (results : List (String × Classification)) (enabled : List ProviderConfig) : Prop :=
  (∀ r ∈ results, r.2 = .permanent) ∧ ∀ p ∈ enabled, p.name ∈ results.map Prod.fst

/-- The write after these results, in a cycle with these operations, `enabled` being the providers
enabled at the end. -/
inductive Concludes (messageId : ℕ) (snapshot : MsgSnapshot) (evs : Events)
    (enabled : List ProviderConfig) (results : List (String × Classification)) : Stmt → Prop where
  | sent {p : String} {now : Time} : (p, .sent) ∈ results → ⟨.utcnow, now⟩ ∈ evs →
      Concludes messageId snapshot evs enabled results (sentStmt messageId p now)
  | held {now : Time} : results = [] → ⟨.utcnow, now⟩ ∈ evs →
      Concludes messageId snapshot evs enabled results
        (rescheduleStmt messageId now (cfg.dispatch.noCapacityBackoffSeconds :
          ℕ) (some "no provider capacity") false)
  | rejected {detail : Option String} : (∀ r ∈ results, r.2 ≠ .sent) → results ≠ [] →
      Rejected results enabled →
      Concludes messageId snapshot evs enabled results (deadletterStmt messageId .rejected detail)
  | maxAttempts {detail : Option String} : (∀ r ∈ results, r.2 ≠ .sent) → results ≠ [] →
      ¬ Rejected results enabled →
      cfg.dispatch.retry.maxAttempts ≤ snapshot.attempts + 1 →
      Concludes messageId snapshot evs enabled results
        (deadletterStmt messageId .maxAttempts detail)
  | expired {detail : Option String} {draw : ℚ} {now : Time} : (∀ r ∈ results, r.2 ≠ .sent) →
      results ≠ [] →
      ¬ Rejected results enabled → ¬ cfg.dispatch.retry.maxAttempts ≤ snapshot.attempts + 1 →
      ⟨.random, draw⟩ ∈ evs → ⟨.utcnow, now⟩ ∈ evs → deadline cfg snapshot ≤ now +
        nextDelay cfg snapshot draw →
      Concludes messageId snapshot evs enabled results (deadletterStmt messageId .expired detail)
  | retried {detail : Option String} {draw : ℚ} {now later : Time} : (∀ r ∈ results, r.2 ≠ .sent) →
      results ≠ [] →
      ¬ Rejected results enabled → ¬ cfg.dispatch.retry.maxAttempts ≤ snapshot.attempts + 1 →
      ⟨.random, draw⟩ ∈ evs → ⟨.utcnow, now⟩ ∈ evs → ¬ deadline cfg snapshot ≤ now +
        nextDelay cfg snapshot draw →
      ⟨.utcnow, later⟩ ∈ evs →
      Concludes messageId snapshot evs enabled results
        (rescheduleStmt messageId later (nextDelay cfg snapshot draw) detail true)

/-! ### A cycle as the table sees it -/

/-- The calls up to where the providers are looked up next. -/
def callsFrom : Events → List Call
  | [] => []
  | ⟨.overrides, _⟩ :: _ => []
  | ⟨.call c, _⟩ :: evs => c :: callsFrom evs
  | _ :: evs => callsFrom evs

/-- The conversations, in order. -/
def conversations : Events → List Conversation
  | [] => []
  | ⟨.send p _ _ _ _ errand, out⟩ :: evs => match resultOf out with
    | .ok result => ⟨p, errand, result, callsFrom evs⟩ :: conversations evs
    | .error _ => conversations evs
  | _ :: evs => conversations evs

/-- A statement that writes the status of a message. -/
def Stmt.writesStatus : Stmt → Bool
  | .updateMessages _ _ | .updateMessage _ _ => true
  | _ => false

/-- The writes of a status that are committed. -/
def statusWrites : Events → List Stmt
  | [] => []
  | ⟨.commit _ ss, .ok _⟩ :: evs => ss.filter Stmt.writesStatus ++ statusWrites evs
  | _ :: evs => statusWrites evs

/-- An operation that is no conversation and writes no status. -/
def Op.noWrite : Op → Prop
  | .send .. => False
  | .commit _ ss => ∀ s ∈ ss, s.writesStatus = false
  | _ => True

/-- An operation that is neither a call nor a look at the providers. -/
def Op.quiet : Op → Prop
  | .call _ | .overrides => False
  | _ => True

theorem conversations_append : ∀ {xs ys : Events}, (∀ e ∈ xs, e.1.noWrite) →
    conversations (xs ++ ys) = conversations ys
  | [], _, _ => rfl
  | ⟨o, a⟩ :: xs, ys, h => by
    have ih : conversations (xs ++ ys) = conversations ys :=
      conversations_append fun e he => h e (List.mem_cons_of_mem _ he)
    have ho : o.noWrite := h _ List.mem_cons_self
    cases o <;> first | exact ih | exact ho.elim

theorem statusWrites_append : ∀ {xs ys : Events}, (∀ e ∈ xs, e.1.noWrite) →
    statusWrites (xs ++ ys) = statusWrites ys
  | [], _, _ => rfl
  | ⟨o, a⟩ :: xs, ys, h => by
    have ih : statusWrites (xs ++ ys) = statusWrites ys :=
      statusWrites_append fun e he => h e (List.mem_cons_of_mem _ he)
    have ho : o.noWrite := h _ List.mem_cons_self
    cases o with
    | commit site ss =>
      cases a with
      | error e => exact ih
      | ok n =>
        have quiet : ss.filter Stmt.writesStatus = [] := by
          rw [List.filter_eq_nil_iff]
          intro s hs
          simp [show s.writesStatus = false from ho s hs]
        simp only [List.cons_append, statusWrites, quiet, ih, List.nil_append]
    | _ => exact ih

theorem callsFrom_append : ∀ {xs ys : Events}, (∀ e ∈ xs, e.1.quiet) →
    callsFrom (xs ++ ys) = callsFrom ys
  | [], _, _ => rfl
  | ⟨o, a⟩ :: xs, ys, h => by
    have ih : callsFrom (xs ++ ys) = callsFrom ys :=
      callsFrom_append fun e he => h e (List.mem_cons_of_mem _ he)
    have ho : o.quiet := h _ List.mem_cons_self
    cases o <;> first | exact ih | exact ho.elim

theorem noWrite_of_router {o : Op} (h : o.ofRouter) : o.noWrite := by
  have tables : ∀ {s : Stmt}, s.table ≠ .messages → s.writesStatus = false := by
    intro s hs
    cases s <;> first | rfl | exact absurd rfl hs
  cases o with
  | send => rcases h with h | h | h <;> cases h
  | commit site ss =>
    rcases h with ⟨-, h⟩ | ⟨-, h⟩ | h
    · exact fun s hs => tables (by rw [h s hs]; decide)
    · exact fun s hs => tables (by rw [h s hs]; decide)
    · cases h
  | _ => trivial

section Paths

variable {cfg} {messageId : ℕ} {snapshot : MsgSnapshot} {raw : Bytes} {evs : Events}
  {r : Except Exc Unit}

/-- A call of the limiter or the breaker that is noted, and then nothing that is. -/
structure OneCall (c : Call) (evs : Events) : Prop where
  calls : ∀ rest, callsFrom (evs ++ rest) = c :: callsFrom rest
  noWrite : ∀ e ∈ evs, e.1.noWrite

theorem OneCall.of_path {c : Call} {t : Act Unit} (quiet : t.Uses Op.quiet)
    (router : (perform (.call c) >>= fun _ => t).Uses Op.ofRouter)
    (hp : (perform (.call c) >>= fun _ => t).Path evs r) : OneCall c evs := by
  refine ⟨fun rest' => ?_, fun e he => noWrite_of_router (router.path hp e he)⟩
  obtain ⟨_, rest, rfl, hp⟩ := hp
  simp only [List.cons_append, callsFrom]
  rw [callsFrom_append (quiet.path hp)]

theorem quiet_persist (by_ : BreakerOp) (p : String) :
    (CircuitBreaker.persist by_ p).Uses Op.quiet := by
  refine (uses_query ?_).bind fun _ => (uses_perform ?_).bind fun _ =>
    (uses_commit ?_).bind fun _ => ?_
  all_goals trivial

theorem quiet_withLock {α : Type} {l : Lock} {body : Act α} (h : body.Uses Op.quiet) :
    (withLock l body).Uses Op.quiet :=
  (uses_perform trivial).bind fun _ => h.finally_ (uses_perform trivial)

theorem quiet_unbump (site : Site) (p : String) (scope : Scope) (key : Option String) :
    (RateLimiter.unbump site p scope key).Uses Op.quiet := by
  cases key with
  | none => trivial
  | some key =>
    refine Uses.bind (fun _ => ?_) ((uses_query ?_).bind fun _ => ?_)
    all_goals trivial

theorem quiet_change {p : String} {f : ProviderState → Time → ProviderState} {by_ : BreakerOp} :
    (withLock (.breaker p) do
      let (st, now) ← perform (.stateNow p)
      perform (.setState p (f st now))
      CircuitBreaker.persist by_ p).Uses Op.quiet := by
  refine quiet_withLock ((uses_perform trivial).bind fun _ => (uses_perform ?_).bind fun _ =>
    quiet_persist _ _)
  trivial

theorem oneCall_commitReservation {res : Reservation}
    (h : (RateLimiter.commitReservation res).Path evs r) :
    OneCall (.commit res) evs :=
  .of_path (quiet_withLock (uses_perform trivial))
    ((RateLimiter.tame_commitReservation res).uses.mono fun _ h => .inl h.ofLimiter) h

theorem oneCall_release {res : Reservation} (h : (RateLimiter.release .process res).Path evs r) :
    OneCall (.release res) evs := by
  refine .of_path (quiet_withLock ?_) ((RateLimiter.tame_release _ res).uses.mono fun _ h =>
    .inl h) h
  refine (uses_perform ?_).bind fun _ => (uses_flush ?_).bind fun _ =>
    (quiet_unbump _ _ _ _).bind fun _ =>
    (quiet_unbump _ _ _ _).bind fun _ => (uses_commit ?_).bind fun _ => ?_
  all_goals trivial

theorem oneCall_recordSuccess {p : String} (h : (CircuitBreaker.recordSuccess p).Path evs r) :
    OneCall (.recordSuccess p) evs :=
  .of_path quiet_change ((CircuitBreaker.tame_recordSuccess p).uses.mono fun _ h => .inr (.inl h)) h

variable (cfg) in
theorem oneCall_recordFailure {p : String}
    (h : (CircuitBreaker.recordFailure cfg.circuitBreaker p).Path evs r) :
    OneCall (.recordFailure p) evs :=
  .of_path quiet_change ((CircuitBreaker.tame_recordFailure _ p).uses.mono fun _ h =>
    .inr (.inl h)) h

/-- The two calls that settle a relay. -/
theorem settled_calls {c c' : Call} {evs evs' : Events} (h : OneCall c evs) (h' : OneCall c' evs') :
    (∀ rest, callsFrom ((evs ++ evs') ++ rest) = [c, c'] ++ callsFrom rest) ∧ ∀ e ∈ evs ++ evs',
      e.1.noWrite := by
  refine ⟨fun rest => ?_, fun e he => ?_⟩
  · rw [List.append_assoc, h.calls, h'.calls]
    rfl
  · rcases List.mem_append.mp he with he | he
    · exact h.noWrite e he
    · exact h'.noWrite e he

variable (cfg) in
/-- A relay that was no success is settled as the table says. -/
theorem settle_calls {d : RouteDecision} {k : Classification} (hk : k ≠ .sent)
    (h : (settle cfg d k).Path evs (.ok ())) :
    (∀ rest, callsFrom (evs ++ rest) = settledBy d.reservation d.provider k ++ callsFrom rest) ∧
      ∀ e ∈ evs, e.1.noWrite := by
  cases k with
  | sent => exact absurd rfl hk
  | connectError =>
    obtain ⟨_, _, _, rfl, h₁, h₂⟩ := path_bind_ok h
    exact settled_calls (oneCall_release h₁) (oneCall_recordFailure cfg h₂)
  | transient =>
    obtain ⟨_, _, _, rfl, h₁, h₂⟩ := path_bind_ok h
    exact settled_calls (oneCall_commitReservation h₁) (oneCall_recordFailure cfg h₂)
  | permanent =>
    obtain ⟨_, _, _, rfl, h₁, h₂⟩ := path_bind_ok h
    exact settled_calls (oneCall_commitReservation h₁) (oneCall_recordSuccess h₂)

/-! ### The write at the end -/

/-- These operations write this status, and do nothing else the table is about. -/
structure Writes (s : Stmt) (evs : Events) : Prop where
  write : statusWrites evs = [s]
  noConversation : conversations evs = []
  noCall : callsFrom evs = []

theorem execute_path {site : Site} {s : Stmt} (h : (execute site [s]).Path evs (.ok ())) :
    ∃ n, evs = [⟨.flush site, .ok ()⟩, ⟨.commit site [s], .ok n⟩] := by
  obtain ⟨a, rest, rfl, h⟩ := h
  cases a with
  | error e => cases h.2
  | ok _ =>
    obtain ⟨a, rest, rfl, h⟩ := h
    cases a with
    | error e => cases h.2
    | ok n =>
      obtain ⟨rfl, -⟩ := h
      exact ⟨n, rfl⟩

theorem writes_of_execute {site : Site} {s : Stmt} (hs : s.writesStatus = true)
    (h : (execute site [s]).Path evs (.ok ())) : Writes s evs := by
  obtain ⟨n, rfl⟩ := execute_path h
  exact ⟨by simp [statusWrites, hs], rfl, rfl⟩

theorem writes_deadletter {reason : DeadletterReason} {detail : Option String}
    (h : (deadletter messageId reason detail).Path evs (.ok ())) :
    Writes (deadletterStmt messageId reason detail) evs :=
  writes_of_execute rfl h

theorem writes_reschedule {delay : ℚ} {lastError : Option String} {bump : Bool}
    (h : (reschedule messageId delay lastError bump).Path evs (.ok ())) :
    ∃ now, ⟨.utcnow, now⟩ ∈ evs ∧
      Writes (rescheduleStmt messageId now delay lastError bump) evs := by
  obtain ⟨now, rest, rfl, h⟩ := h
  have writes := writes_of_execute rfl h
  exact ⟨now, List.mem_cons_self, writes.write, writes.noConversation, writes.noCall⟩

theorem writes_markSent {p : String} {claimedAt : Option Time}
    (h : (markSent messageId p claimedAt).Path evs (.ok ())) :
    ∃ now, ⟨.utcnow, now⟩ ∈ evs ∧ Writes (sentStmt messageId p now) evs := by
  obtain ⟨now, rest, rfl, h⟩ := h
  have writes := writes_of_execute rfl h
  exact ⟨now, List.mem_cons_self, writes.write, writes.noConversation, writes.noCall⟩

/-! ### The flags of a cycle -/

/-- The local variables sum up the relays so far. -/
structure Cycle.Sums (done : List (String × Classification)) (c : Cycle) : Prop where
  tried : c.tried = done.map Prod.fst
  made : c.madeAttempt = true ↔ done ≠ []
  transient : c.sawTransient = true ↔ ∃ r ∈ done, r.2 = .transient
  connect : c.sawConnect = true ↔ ∃ r ∈ done, r.2 = .connectError
  permanent : c.sawPermanent = true ↔ ∃ r ∈ done, r.2 = .permanent
  unsent : ∀ r ∈ done, r.2 ≠ .sent

theorem Cycle.Sums.nil : Cycle.Sums [] {} := by
  constructor <;> simp

theorem Cycle.Sums.after {done : List (String × Classification)} {c : Cycle} (h : c.Sums done)
    (d : RouteDecision) {result : RelayResult} (refused : result.classification ≠ .sent) :
    (c.after d result).Sums (done ++ [(d.provider, result.classification)]) := by
  have seen : ∀ k, (∃ r ∈ done ++ [(d.provider, result.classification)], r.2 = k) ↔
      (∃ r ∈ done, r.2 = k) ∨ result.classification = k := by
    intro k
    simp only [List.mem_append, List.mem_singleton, or_and_right, exists_or, exists_eq_left]
  have unsent : ∀ r ∈ done ++ [(d.provider, result.classification)], r.2 ≠ .sent := by
    intro r hr
    rcases List.mem_append.mp hr with hr | hr
    · exact h.unsent r hr
    · rw [List.mem_singleton.mp hr]
      exact refused
  have tried : (c.after d result).tried = c.tried ++ [d.provider] := by
    unfold Cycle.after Cycle.saw
    split <;> rfl
  have made : (c.after d result).madeAttempt = true := by
    unfold Cycle.after Cycle.saw
    split <;> rfl
  refine ⟨by rw [tried, h.tried]; simp, by simp [made], ?_, ?_, ?_, unsent⟩
  · rw [seen, ← h.transient]
    unfold Cycle.after Cycle.saw
    cases hk : result.classification <;> simp
  · rw [seen, ← h.connect]
    unfold Cycle.after Cycle.saw
    cases hk : result.classification <;> simp
  · rw [seen, ← h.permanent]
    unfold Cycle.after Cycle.saw
    cases hk : result.classification <;> simp_all

/-- Nothing but rejections was seen. -/
theorem Cycle.Sums.onlyPermanent {done : List (String × Classification)} {c : Cycle}
    (h : c.Sums done)
    (hne : done ≠ []) : (c.sawPermanent && !c.sawTransient && !c.sawConnect) = true ↔
      ∀ r ∈ done, r.2 = .permanent := by
  have unsent := h.unsent
  simp only [Bool.and_eq_true, Bool.not_eq_true', ← Bool.not_eq_true, h.permanent, h.transient,
    h.connect, not_exists, not_and]
  constructor
  · intro seen r hr
    obtain ⟨⟨-, transient⟩, connect⟩ := seen
    cases hk : r.2 with
    | sent => exact absurd hk (unsent r hr)
    | transient => exact absurd hk (transient r hr)
    | connectError => exact absurd hk (connect r hr)
    | permanent => rfl
  · intro all
    obtain ⟨r, hr⟩ := List.exists_mem_of_ne_nil done hne
    exact ⟨⟨⟨r, hr, all r hr⟩, fun r hr hk => by rw [all r hr] at hk; cases hk⟩,
      fun r hr hk => by rw [all r hr] at hk; cases hk⟩

/-! ### What a cycle comes to -/

variable (cfg) in
/-- A part of a cycle with this write at its end: whatever came before, the table names it for the
relays done before and these. -/
structure Comes (messageId : ℕ) (snapshot : MsgSnapshot) (done : List (String × Classification))
    (evs : Events) :
    Prop where
  write : ∃ s, statusWrites evs = [s] ∧ ∀ before, Concludes cfg messageId snapshot (before ++ evs)
    (enabledAtEnd cfg (before ++ evs)) (done ++ classes (conversations evs)) s

theorem lastOverrides_tail {evs before : Events} {rows : String → Option Bool}
    (h : lastOverrides evs = some rows) : enabledAtEnd cfg (before ++ evs) =
      enabledProviders cfg rows := by
  rw [enabledAtEnd, lastOverrides_append, h]
  rfl

/-- `_handle_no_success`. -/
theorem handleNoSuccess_comes {done : List (String × Classification)} {c : Cycle}
    (sums : c.Sums done) (h : (handleNoSuccess cfg messageId snapshot c).Path evs (.ok ())) :
    Comes cfg messageId snapshot done evs ∧ conversations evs = [] ∧ callsFrom evs = [] := by
  unfold handleNoSuccess at h
  simp only at h
  split at h
  · rename_i nothing
    obtain ⟨now, told, writes⟩ := writes_reschedule h
    refine ⟨⟨_, writes.write, fun before => ?_⟩, writes.noConversation, writes.noCall⟩
    have empty : done = [] := by
      by_contra hne
      simp [sums.made.mpr hne] at nothing
    rw [writes.noConversation, empty]
    exact .held rfl (List.mem_append_right _ told)
  rename_i made
  have hne : done ≠ [] := sums.made.mp (by simpa using made)
  obtain ⟨rows, rest, rfl, h⟩ := h
  simp only [Prog.bind_eq, Prog.pure_eq, Prog.ret_bind] at h
  -- what was decided holds of the whole cycle
  have whole : ∀ {s : Stmt}, Writes s rest → lastOverrides rest = none →
      (∀ before, Concludes cfg messageId snapshot (before ++ ⟨.overrides, rows⟩ :: rest)
        (enabledProviders cfg rows) (done ++ []) s) →
      Comes cfg messageId snapshot done (⟨.overrides, rows⟩ :: rest) ∧
        conversations (⟨.overrides, rows⟩ :: rest) = [] ∧
          callsFrom (⟨.overrides, rows⟩ :: rest) = [] := by
    intro s writes none concludes
    refine ⟨⟨s, writes.write, fun before => ?_⟩, writes.noConversation, rfl⟩
    have last : lastOverrides (⟨.overrides, rows⟩ :: rest) = some rows := by
      simp [lastOverrides, none]
    rw [lastOverrides_tail last, show conversations (⟨.overrides, rows⟩ :: rest) =
      [] from writes.noConversation]
    exact concludes before
  have noLook : ∀ {evs : Events}, (∀ e ∈ evs, e.1 ≠ .overrides) → lastOverrides evs = none :=
    lastOverrides_eq_none
  have rejected_iff : ((c.sawPermanent && !c.sawTransient && !c.sawConnect) &&
      ((enabledProviders cfg rows).map ProviderConfig.name).all (· ∈ c.tried)) = true ↔
      Rejected (done ++ []) (enabledProviders cfg rows) := by
    rw [Bool.and_eq_true, sums.onlyPermanent hne, List.append_nil, Rejected, sums.tried]
    simp only [List.all_map, List.all_eq_true, Function.comp_apply, decide_eq_true_eq]
  split at h
  · rename_i exhausted
    refine whole (writes_deadletter h) (lastOverrides_deadletter h) fun before => ?_
    exact .rejected (by simpa using sums.unsent) (by simpa using hne) (rejected_iff.mp exhausted)
  rename_i notRejected
  rw [rejected_iff] at notRejected
  split at h
  · rename_i many
    refine whole (writes_deadletter h) (lastOverrides_deadletter h) fun before => ?_
    exact .maxAttempts (by simpa using sums.unsent) (by simpa using hne) notRejected many
  rename_i few
  obtain ⟨draw, rest, rfl, h⟩ := h
  obtain ⟨now, rest, rfl, h⟩ := h
  simp only [Prog.ret_bind] at h
  have drawn : ∀ before : Events, (⟨.random, draw⟩ : Σ o : Op, o.Ans) ∈
      before ++ ⟨.overrides, rows⟩ :: ⟨.random, draw⟩ :: ⟨.utcnow, now⟩ :: rest := by simp
  have told : ∀ before : Events, (⟨.utcnow, now⟩ : Σ o : Op, o.Ans) ∈
      before ++ ⟨.overrides, rows⟩ :: ⟨.random, draw⟩ :: ⟨.utcnow, now⟩ :: rest := by simp
  split at h
  · rename_i late
    have writes := writes_deadletter h
    refine whole ⟨writes.write, writes.noConversation, writes.noCall⟩ ?_ fun before => ?_
    · simpa [lastOverrides] using lastOverrides_deadletter h
    · exact .expired (by simpa using sums.unsent) (by simpa using hne) notRejected few
        (drawn before) (told before) late
  · rename_i early
    obtain ⟨later, toldLater, writes⟩ := writes_reschedule h
    refine whole ⟨writes.write, writes.noConversation, writes.noCall⟩ ?_ fun before => ?_
    · have unlooked : lastOverrides rest = none := by
        refine lastOverrides_eq_none (Uses.path (S := (· ≠ .overrides)) ?_ h)
        exact (uses_perform (by simp)).bind fun _ => (tame_execute (by simp) (by simp)).uses
      simpa [lastOverrides] using unlooked
    · refine .retried (by simpa using sums.unsent) (by simpa using hne) notRejected few
        (drawn before) (told before)
        early (List.mem_append_right _ ?_)
      exact List.mem_cons_of_mem _ (List.mem_cons_of_mem _ (List.mem_cons_of_mem _ toldLater))

/-! ### The failover loop -/

variable (cfg) (messageId) (snapshot) (raw)

/-- The operations of a turn after `select` has chosen: the message goes to the chosen provider,
under the reservation it has given, and what comes of it is settled as the table says. -/
structure Talked (d : RouteDecision) (c : Conversation) (talk : Events) : Prop where
  conversation : conversations talk = [c]
  provider : c.provider = d.provider
  errand : c.errand = ⟨messageId, d.reservation⟩
  sends : ∃ kwargs out, ⟨.send d.provider kwargs snapshot.fromAddr snapshot.rcptTo raw c.errand,
    out⟩ ∈ talk ∧
    resultOf out = .ok c.result
  calls : c.calls = settledBy d.reservation d.provider c.result.classification

/-- The turns of the loop, of which `n` are left, and their conversations: whoever `select`
chooses is relayed to, and the loop goes on until it chooses nobody, the message is sent, or no
turn is left. -/
inductive Loop : ℕ → List String → Events → List Conversation → Prop where
  | finished {tried : List String} : Loop 0 tried [] []
  | nobody {n : ℕ} {tried : List String} {chosen : Events} :
      (select cfg tried).Path chosen (.ok none) → Loop (n + 1) tried chosen []
  | sent {n : ℕ} {tried : List String} {chosen talk : Events} {d : RouteDecision}
      {c : Conversation} :
      (select cfg tried).Path chosen (.ok (some d)) → Talked messageId snapshot raw d c talk →
        c.result.classification = .sent → Loop (n + 1) tried (chosen ++ talk) [c]
  | failed {n : ℕ} {tried : List String} {chosen talk rest : Events} {d : RouteDecision}
      {c : Conversation} {cs : List Conversation} :
      (select cfg tried).Path chosen (.ok (some d)) → Talked messageId snapshot raw d c talk →
        c.result.classification ≠ .sent → Loop n (tried ++ [d.provider]) rest cs →
          Loop (n + 1) tried (chosen ++ talk ++ rest) (c :: cs)

variable {cfg messageId snapshot raw}

/-- The conversations of a part of a cycle that has `n` turns left. -/
structure Talks (tried : List String) (n : ℕ) (cs : List Conversation) : Prop where
  fresh : ∀ c ∈ cs, c.provider ∉ tried
  distinct : (cs.map Conversation.provider).Nodup
  few : cs.length ≤ n
  settled : ∀ c ∈ cs, c.Settled
  last : ∀ c ∈ cs.dropLast, c.result.classification ≠ .sent

theorem Talks.nil (tried : List String) (n : ℕ) : Talks tried n [] :=
  ⟨fun _ hc => (by cases hc), List.nodup_nil, Nat.zero_le _, fun _ hc => (by cases hc),
    fun _ hc => (by cases hc)⟩

theorem Talks.cons {tried : List String} {n : ℕ} {cs : List Conversation} {c : Conversation}
    (h : Talks (tried ++ [c.provider]) n cs) (fresh : c.provider ∉ tried) (settled : c.Settled)
    (more : cs ≠ [] → c.result.classification ≠ .sent) : Talks tried (n + 1) (c :: cs) := by
  refine ⟨fun c' hc => ?_, ?_, Nat.succ_le_succ h.few, fun c' hc => ?_, fun c' hc => ?_⟩
  · rcases List.mem_cons.mp hc with rfl | hc
    · exact fresh
    · exact fun ht => h.fresh c' hc (List.mem_append_left _ ht)
  · rw [List.map_cons, List.nodup_cons]
    refine ⟨fun hp => ?_, h.distinct⟩
    obtain ⟨c', hc, heq⟩ := List.mem_map.mp hp
    exact h.fresh c' hc (heq ▸ List.mem_append_right _ (List.mem_singleton_self _))
  · rcases List.mem_cons.mp hc with rfl | hc
    · exact settled
    · exact h.settled c' hc
  · cases cs with
    | nil => cases hc
    | cons c₂ cs =>
      rw [List.dropLast_cons_of_ne_nil (by simp)] at hc
      rcases List.mem_cons.mp hc with rfl | hc
      · exact more (by simp)
      · exact h.last c' hc

/-- A conversation is with the provider that was chosen, which was not tried before. -/
theorem Talked.sound {d : RouteDecision} {c : Conversation} {talk chosen : Events}
    {tried : List String} (h : Talked messageId snapshot raw d c talk)
    (decided : (select cfg tried).Path chosen (.ok (some d))) : c.provider ∉ tried ∧ c.Settled := by
  have sound : d.Sound cfg tried := (tame_select cfg tried).path decided d rfl
  refine ⟨h.provider ▸ sound.fresh, ⟨?_, ?_⟩⟩
  · rw [h.calls, h.errand, h.provider]
  · rw [h.errand, h.provider]
    exact sound.reserved

theorem Loop.talks {n : ℕ} {tried : List String} {loop : Events} {cs : List Conversation}
    (h : Loop cfg messageId snapshot raw n tried loop cs) : Talks tried n cs := by
  induction h with
  | finished => exact .nil _ _
  | nobody => exact .nil _ _
  | sent decided relayed =>
    obtain ⟨fresh, settled⟩ := relayed.sound decided
    exact (Talks.nil _ _).cons fresh settled fun more => absurd rfl more
  | failed decided relayed unsent _ ih =>
    obtain ⟨fresh, settled⟩ := relayed.sound decided
    rw [← relayed.provider] at ih
    exact ih.cons fresh settled fun _ => unsent

/-- A decision looks the providers up first. -/
theorem select_overrides {exclude : List String} {d : Option RouteDecision}
    (h : (select cfg exclude).Path evs (.ok d)) : ∃ rows rest,
      evs = ⟨.overrides, rows⟩ :: rest := by
  obtain ⟨rows, rest, rfl, -⟩ := h
  exact ⟨rows, rest, rfl⟩

theorem noWrite_of_select {exclude : List String} {d : Option RouteDecision}
    (h : (select cfg exclude).Path evs (.ok d)) : ∀ e ∈ evs, e.1.noWrite :=
  fun e he => noWrite_of_router ((tame_select cfg exclude).uses.path h e he)

theorem recordAttempt_path {id attemptNo : ℕ} {provider : String} {startedAt : Time}
    {result : RelayResult} (h : (recordAttempt id attemptNo provider startedAt result).Path evs r) :
    ∀ e ∈ evs, e.1.noWrite ∧ e.1.quiet := by
  have uses : (recordAttempt id attemptNo provider startedAt result).Uses fun o =>
      o.noWrite ∧ o.quiet := by
    refine (uses_perform ?_).bind fun _ => (uses_commit ?_).bind fun _ => ?_
    · exact ⟨trivial, trivial⟩
    · exact ⟨by simp [Op.noWrite, Stmt.writesStatus], trivial⟩
    · trivial
  exact uses.path h

/-- What comes before the write is part of the cycle. -/
theorem Comes.prepend {done : List (String × Classification)} {pre : Events}
    (h : Comes cfg messageId snapshot done evs)
    (writes : statusWrites (pre ++ evs) = statusWrites evs)
    (talks : conversations (pre ++ evs) = conversations evs) :
    Comes cfg messageId snapshot done (pre ++ evs) := by
  obtain ⟨s, hs, concludes⟩ := h
  refine ⟨s, writes.trans hs, fun before => ?_⟩
  rw [talks, ← List.append_assoc]
  exact concludes (before ++ pre)

/-- The operations of a turn after the choice. -/
def talkOf (messageId : ℕ) (snapshot : MsgSnapshot) (raw : Bytes) (d : RouteDecision) (t : Time)
    (kwargs : SendKwargs) (out : SendOutcome) (settled : Events) : Events :=
  ⟨.utcnow, t⟩ :: ⟨.send d.provider kwargs snapshot.fromAddr snapshot.rcptTo raw ⟨messageId,
    d.reservation⟩, out⟩ ::
    settled

/-- The conversation of a turn. -/
def conversationOf (messageId : ℕ) (d : RouteDecision) (result : RelayResult) : Conversation :=
  ⟨d.provider, ⟨messageId, d.reservation⟩, result,
    settledBy d.reservation d.provider result.classification⟩

section Turn

variable {d : RouteDecision} {t : Time} {kwargs : SendKwargs} {out : SendOutcome}
  {result : RelayResult}
  {rec settled : Events}

/-- What comes after a turn. -/
theorem conversations_talkOf (outcome : resultOf out = .ok result) (recorded : ∀ e ∈ rec,
    e.1.noWrite ∧ e.1.quiet)
    (counted : ∀ rest, callsFrom (settled ++ rest) =
      settledBy d.reservation d.provider result.classification ++ callsFrom rest)
    (silent : ∀ e ∈ settled, e.1.noWrite) {rest : Events} (noCall : callsFrom rest = []) :
    conversations (talkOf messageId snapshot raw d t kwargs out (rec ++ settled) ++ rest) =
      conversationOf messageId d result :: conversations rest := by
  have calls : callsFrom (rec ++ settled ++ rest) =
      settledBy d.reservation d.provider result.classification := by
    rw [List.append_assoc, callsFrom_append fun e he => (recorded e he).2, counted, noCall,
      List.append_nil]
  have talked : conversations (rec ++ settled ++ rest) = conversations rest := by
    rw [List.append_assoc, conversations_append fun e he => (recorded e he).1,
      conversations_append silent]
  simp only [talkOf, List.cons_append, conversations, outcome, calls, talked, conversationOf]

variable (messageId snapshot raw d t kwargs out) in
theorem statusWrites_talkOf (recorded : ∀ e ∈ rec, e.1.noWrite ∧ e.1.quiet)
    (silent : ∀ e ∈ settled, e.1.noWrite) (rest : Events) :
    statusWrites (talkOf messageId snapshot raw d t kwargs out (rec ++ settled) ++ rest) =
      statusWrites rest := by
  simp only [talkOf, List.cons_append, statusWrites]
  rw [List.append_assoc, statusWrites_append fun e he => (recorded e he).1,
    statusWrites_append silent]

variable (messageId snapshot raw t kwargs) in
theorem talked_talkOf (outcome : resultOf out = .ok result) (recorded : ∀ e ∈ rec,
    e.1.noWrite ∧ e.1.quiet)
    (counted : ∀ rest, callsFrom (settled ++ rest) =
      settledBy d.reservation d.provider result.classification ++ callsFrom rest)
    (silent : ∀ e ∈ settled, e.1.noWrite) :
    Talked messageId snapshot raw d (conversationOf messageId d result)
      (talkOf messageId snapshot raw d t kwargs out (rec ++ settled)) where
  conversation := by
    have one : conversations (talkOf messageId snapshot raw d t kwargs out (rec ++ settled) ++
        []) = _ :=
      conversations_talkOf outcome recorded counted silent rfl
    rwa [List.append_nil] at one
  provider := rfl
  errand := rfl
  sends := ⟨kwargs, out, List.mem_cons_of_mem _ List.mem_cons_self, outcome⟩
  calls := rfl

end Turn

/-- **The failover loop, seen by the table.** -/
theorem failover_comes : ∀ {n : ℕ} {c : Cycle} {done : List (String × Classification)}
    {evs : Events}, c.Sums done → (failover cfg messageId snapshot raw n c).Path evs (.ok ()) →
      Comes cfg messageId snapshot done evs ∧ callsFrom evs = [] ∧
        ∃ loop last, evs = loop ++ last ∧ Loop cfg messageId snapshot raw n c.tried loop
          (conversations evs) ∧
          statusWrites loop = [] ∧ conversations last = []
  | 0, c, done, evs, sums, h => by
    obtain ⟨comes, talks, calls⟩ := handleNoSuccess_comes sums h
    refine ⟨comes, calls, [], evs, rfl, ?_, rfl, talks⟩
    rw [talks]
    exact .finished
  | n + 1, c, done, evs, sums, h => by
    unfold failover at h
    obtain ⟨chosen, decision, post, rfl, hchosen, hturn⟩ := path_bind_ok h
    have quiet := noWrite_of_select hchosen
    obtain ⟨rows, looked, hlook⟩ := select_overrides hchosen
    have calls : ∀ post, callsFrom (chosen ++ post) = [] := fun post => by rw [hlook]; rfl
    have unwritten : statusWrites chosen = [] := by
      have written := @statusWrites_append chosen [] quiet
      rwa [List.append_nil] at written
    cases decision with
    | none =>
      obtain ⟨comes, talks, -⟩ := handleNoSuccess_comes sums hturn
      refine ⟨comes.prepend (statusWrites_append quiet) (conversations_append quiet), calls _,
        chosen, post, rfl, ?_, unwritten, talks⟩
      rw [conversations_append quiet, talks]
      exact .nobody hchosen
    | some d =>
      obtain ⟨t, rest, rfl, hturn⟩ := hturn
      simp only [ret_bind] at hturn
      obtain ⟨sent, result, rest, rfl, hrelay, hsent⟩ := path_bind_ok hturn
      rcases relay_path hrelay with ⟨-, e, he⟩ | ⟨kwargs, out, rfl, outcome⟩
      · cases he
      obtain ⟨rec, _, rest, rfl, hrec, hsettle⟩ := path_bind_ok hsent
      have recorded := recordAttempt_path hrec
      split at hsettle
      · rename_i ok
        have sentClass : result.classification = .sent := by simpa [RelayResult.ok] using ok
        obtain ⟨kept, _, rest₂, rfl, hkept, hsuccess⟩ := path_bind_ok hsettle
        obtain ⟨succ, _, last, rfl, hsucc, hmark⟩ := path_bind_ok hsuccess
        obtain ⟨counted, silent⟩ :=
          settled_calls (oneCall_commitReservation hkept) (oneCall_recordSuccess hsucc)
        replace counted : ∀ rest, callsFrom ((kept ++ succ) ++ rest) =
            settledBy d.reservation d.provider result.classification ++ callsFrom rest := by
          rw [sentClass]
          exact counted
        obtain ⟨now, told, writes⟩ := writes_markSent hmark
        have talked := talked_talkOf messageId snapshot raw t kwargs outcome recorded counted silent
        have whole : chosen ++ ⟨.utcnow, t⟩ ::
            ([⟨.send d.provider kwargs snapshot.fromAddr snapshot.rcptTo raw
            ⟨messageId, d.reservation⟩, out⟩] ++ (rec ++ (kept ++ (succ ++ last)))) =
            chosen ++ (talkOf messageId snapshot raw d t kwargs out (rec ++ (kept ++ succ)) ++
              last) := by
          simp [talkOf]
        have one : conversations
            (chosen ++ (talkOf messageId snapshot raw d t kwargs out (rec ++ (kept ++ succ)) ++
            last)) = [conversationOf messageId d result] := by
          rw [conversations_append quiet,
            conversations_talkOf outcome recorded counted silent writes.noCall,
            writes.noConversation]
        rw [whole]
        refine ⟨⟨sentStmt messageId d.provider now, ?_, fun before => ?_⟩, calls _,
          chosen ++ talkOf messageId snapshot raw d t kwargs out (rec ++ (kept ++ succ)), last,
            (List.append_assoc _ _ _).symm, ?_, ?_, writes.noConversation⟩
        · rw [statusWrites_append quiet, statusWrites_talkOf _ _ _ _ _ _ _ recorded silent,
            writes.write]
        · rw [one]
          refine .sent (p := d.provider) ?_ (List.mem_append_right _ (List.mem_append_right _
            (List.mem_append_right _ told)))
          simp [classes, conversationOf, sentClass]
        · rw [one]
          exact .sent hchosen talked sentClass
        · have written := statusWrites_talkOf messageId snapshot raw d t kwargs out
            recorded silent []
          rw [statusWrites_append quiet]
          rwa [List.append_nil] at written
      · rename_i refused
        have notSent : result.classification ≠ .sent := by simpa [RelayResult.ok] using refused
        obtain ⟨settled, _, after, rfl, hset, hloop⟩ := path_bind_ok hsettle
        obtain ⟨counted, silent⟩ := settle_calls cfg notSent hset
        obtain ⟨⟨s, hs, concludes⟩, noCall, loop, last, rfl, hloop, unwritten', ended⟩ :=
          failover_comes (sums.after d notSent) hloop
        have talked := talked_talkOf messageId snapshot raw t kwargs outcome recorded counted silent
        have tried : (c.after d result).tried = c.tried ++ [d.provider] := by
          unfold Cycle.after Cycle.saw
          split <;> rfl
        have whole : chosen ++ ⟨.utcnow, t⟩ ::
            ([⟨.send d.provider kwargs snapshot.fromAddr snapshot.rcptTo raw
            ⟨messageId, d.reservation⟩, out⟩] ++ (rec ++ (settled ++ (loop ++ last)))) =
            chosen ++ (talkOf messageId snapshot raw d t kwargs out (rec ++ settled) ++
              (loop ++ last)) := by
          simp [talkOf]
        have more : conversations
            (chosen ++ (talkOf messageId snapshot raw d t kwargs out (rec ++ settled) ++
            (loop ++ last))) = conversationOf messageId d result ::
              conversations (loop ++ last) := by
          rw [conversations_append quiet,
            conversations_talkOf outcome recorded counted silent noCall]
        rw [whole]
        refine ⟨⟨s, ?_, fun before => ?_⟩, calls _,
          chosen ++ talkOf messageId snapshot raw d t kwargs out
          (rec ++ settled) ++ loop, last, by simp, ?_, ?_, ended⟩
        · rw [statusWrites_append quiet, statusWrites_talkOf _ _ _ _ _ _ _ recorded silent, hs]
        · rw [more, ← List.append_assoc chosen, ← List.append_assoc before]
          have := concludes (before ++
              (chosen ++ talkOf messageId snapshot raw d t kwargs out (rec ++ settled)))
          rw [List.append_assoc done] at this
          exact this
        · rw [more]
          rw [tried] at hloop
          exact .failed hchosen talked notSent hloop
        · rw [List.append_assoc, statusWrites_append quiet,
            statusWrites_talkOf _ _ _ _ _ _ _ recorded silent, unwritten']

end Paths

/-- **One dispatch cycle refines the outcome table.** A complete cycle without an exception, of a
message that is not too old and whose file is there, is a loop and what comes after it. In the
loop each decision of `select` is relayed and settled as the table says, until it finds nobody,
the message is sent, or `failover_per_tick` turns are made: so no provider is relayed to twice, no
more of them than `failover_per_tick`, and only the last may have taken the message. After it one
status is written, the one the table names for the results. -/
theorem cycle_refines_table (cfg : Settings) {messageId : ℕ} {snapshot : MsgSnapshot}
    {t : Time} {raw : Bytes}
    {rest evs : Events} (hevs : evs = ⟨.utcnow, t⟩ :: ⟨.spoolRead snapshot.spoolPath,
      .ok raw⟩ :: rest)
    (h : (processSnapshot cfg messageId snapshot).Path evs (.ok ()))
    (young : t - snapshot.receivedAt ≤ (cfg.dispatch.retry.maxAgeHours : ℕ) * 3600) :
    (∃ loop last, rest = loop ++ last ∧
      Loop cfg messageId snapshot raw cfg.dispatch.failoverPerTick [] loop (conversations evs) ∧
        statusWrites loop = [] ∧ conversations last = []) ∧
      ((conversations evs).map Conversation.provider).Nodup ∧
      (conversations evs).length ≤ (cfg.dispatch.failoverPerTick : ℕ) ∧
      (∀ c ∈ conversations evs, c.Settled) ∧
      (∀ c ∈ (conversations evs).dropLast, c.result.classification ≠ .sent) ∧
      ∃ s, statusWrites evs = [s] ∧
        Concludes cfg messageId snapshot evs (enabledAtEnd cfg evs)
          (classes (conversations evs)) s := by
  subst hevs
  obtain ⟨_, _, heq, h⟩ := h
  cases heq
  obtain ⟨_, _, heq, h⟩ := h
  cases heq
  simp only [ret_bind] at h
  rw [if_neg (not_lt.mpr young)] at h
  obtain ⟨⟨s, hs, concludes⟩, -, loop, last, heq, hloop, silent, ended⟩ := failover_comes .nil h
  have talks := hloop.talks
  exact ⟨⟨loop, last, heq, hloop, silent, ended⟩, talks.distinct, talks.few, talks.settled,
    talks.last, s, hs, concludes [⟨.utcnow, t⟩, ⟨.spoolRead snapshot.spoolPath, .ok raw⟩]⟩

namespace Example

/-- A message that has just been received. -/
def freshSnapshot : MsgSnapshot := ⟨1, 0, "from@example", ["to@example"], "spool/1", 0, some 0⟩

/-- Its row and its file. -/
def spooled : World where
  clock := 0
  db :=
    { messages := [{ id := 1, receivedAt := 0, submittingAccount := none, fromAddr := "from@example"
                     rcptTo := ["to@example"], subject := none, messageIdHeader := none, size := 2
                     spoolPath := "spool/1", status := .sending, nextAttemptAt := 0 }] }
  files := Function.update (fun _ => none) "spool/1" (some [104, 105])

/-- The first provider asks to try again later, the second takes the message. -/
def busyThenTaken (o : Op) (w : World) : Option (o.Ans × World) :=
  match o with
  | .send p _ _ _ _ _ =>
    some (if p = "a" then .raised (.response 451 "busy") else .returned [] "250 ok", w)
  | o => exec twoProviders 0 o .ok w

/-- A cycle with two relays. -/
def relayedCycle : Events :=
  recorded busyThenTaken (processSnapshot twoProviders 1 freshSnapshot) spooled

/-- Both decisions are relayed, the first is settled as a failure and the second as a success, and
the message is marked as sent. -/
theorem cycle_refines_table_relayed : ∃ first second,
    conversations relayedCycle = [first, second] ∧
      (first.provider, first.result.classification) = ("a", .transient) ∧
      (second.provider, second.result.classification) = ("b", .sent) ∧ first.Settled ∧
        second.Settled ∧
      ∃ s, statusWrites relayedCycle = [s] ∧ Concludes twoProviders 1 freshSnapshot relayedCycle
        (enabledAtEnd twoProviders relayedCycle) [("a", .transient), ("b", .sent)] s := by
  obtain ⟨⟨r, w⟩, run, returned⟩ : ∃ x,
      (processSnapshot twoProviders 1 freshSnapshot).alone busyThenTaken spooled = some x ∧
        x.1.toOption = some () := Option.map_eq_some_iff.mp (by decide +kernel)
  obtain rfl : r = .ok () := by
    cases r with
    | ok _ => rfl
    | error e => cases returned
  have path : (processSnapshot twoProviders 1 freshSnapshot).Path relayedCycle (.ok ()) :=
    path_recorded _ run
  have results : classes (conversations relayedCycle) = [("a", .transient), ("b", .sent)] := by
    decide +kernel
  obtain ⟨first, second, both⟩ : ∃ first second, conversations relayedCycle = [first, second] := by
    have two := congrArg List.length results
    rw [classes, List.length_map] at two
    exact List.length_eq_two.mp two
  have begins : relayedCycle = ⟨.utcnow, (0 : ℚ)⟩ ::
      ⟨.spoolRead freshSnapshot.spoolPath, .ok [104, 105]⟩ :: relayedCycle.drop 2 := rfl
  obtain ⟨-, -, -, settled, -, s, written, concludes⟩ :=
    cycle_refines_table twoProviders begins path (by decide +kernel)
  rw [both] at settled
  rw [results] at concludes
  rw [both] at results
  simp only [classes, List.map_cons, List.map_nil, List.cons.injEq, and_true] at results
  exact ⟨first, second, both, results.1, results.2, settled first (by simp),
    settled second (by simp), s, written, concludes⟩

end Example

end SmtpSwitch
