import Mathlib.Tactic.Ring
import SmtpSwitch.Progress

/-!
# How much a job does

Every loop of the code is over something of known length: the providers, the
relays of a cycle, the rows a query with a `LIMIT` returns. So every job ends
after a number of operations that the settings give (`Job.cost`), however the
operations are answered and whatever the other tasks do. The producer's and the
consumers' endless loops are sequences of jobs, a turn each.
-/

namespace SmtpSwitch

open Coop Coop.Prog

/-- A `SELECT` with a `LIMIT` returns no more rows than that. -/
def Op.limited : (o : Op) → o.Ans → Prop
  | .select _ (.dueMessages _ limit), .ok ids => ids.length ≤ limit
  | .select _ (.expiredMessages _ _ limit), .ok rows => rows.length ≤ limit
  | _, _ => True

theorem system_answers (cfg : Settings) (jobs : Job → Bool) :
    (system cfg jobs).Answers Op.limited := by
  intro i o c w a w' h
  cases o with
  | select site q =>
    obtain ⟨rfl | ⟨e, rfl⟩, -⟩ := exec_select h
    · cases q with
      | dueMessages now limit => simp [Op.limited, Query.eval, selectDue]
      | expiredMessages status cutoff limit => simp [Op.limited, Query.eval, selectExpired]
      | _ => trivial
    · cases q <;> trivial
  | _ => trivial

section Constructs

variable {α : Type} {R : α → Prop} {n : ℕ}

/-- At most `n` operations. -/
abbrev Costs (n : ℕ) (t : Act α) : Prop := t.Within Op.limited (fun _ => True) n

theorem costs_perform (o : Op) : Costs 1 (perform o) := within_op fun _ _ => within_ret.mpr trivial

theorem costs_query (site : Site) (q : Query) : Costs 1 (query site q) :=
  within_op fun _ _ => within_ofExcept fun _ _ => trivial

theorem costs_flush (site : Site) : Costs 1 (flush site) :=
  within_op fun _ _ => within_ofExcept fun _ _ => trivial

theorem costs_commit (site : Site) (ss : List Stmt) : Costs 1 (commit site ss) :=
  within_op fun _ _ => within_ofExcept fun _ _ => trivial

theorem costs_ret (a : α) : Costs 0 (.ret a : Act α) := trivial

theorem costs_raise (e : Exc) : Costs 0 (.raise e : Act α) := trivial

theorem costs_swallow (e : Exc) : Costs 0 (swallow e) := by
  unfold swallow
  split <;> trivial

/-- One after the other. -/
theorem Costs.then {β : Type} {m : ℕ} {t : Act α} {f : α → Act β} (h : Costs n t)
    (hf : ∀ a, Costs m (f a)) :
    Costs (n + m) (t.bind f) := h.bind fun a _ => hf a

theorem costs_withLock {l : Lock} {body : Act α} (h : Costs n body) :
    Costs (n + 2) (withLock l body) := by
  refine (Costs.then (costs_perform _) fun _ => h.finally_ (costs_perform (.unlock l))).le ?_
  omega

theorem costs_execute (site : Site) (ss : List Stmt) : Costs 2 (execute site ss) :=
  (costs_flush site).then fun _ => (costs_commit site ss).then fun _ => costs_ret ()

end Constructs

/-! ### The limiter and the breaker -/

section Calls

variable (cfg : Settings)

theorem costs_countWindows (site : Site) (p : String) (now : Time) : ∀ ws,
    Costs ws.length (RateLimiter.countWindows site p now ws)
  | [] => costs_ret _
  | _ :: rest => ((costs_query _ _).then fun _ => (costs_countWindows site p now rest).then fun _ =>
      costs_ret _).le
      (by simp only [List.length_cons]; omega)

theorem length_slidingWindows (limits : ProviderLimits) : limits.slidingWindows.length ≤ 3 := by
  have one : ∀ w span limit, (windowOf w span limit).length ≤ 1 := by
    intro w span limit
    cases limit <;> simp [windowOf]
  have second := one .perSecond 1 limits.perSecond
  have minute := one .perMinute 60 limits.perMinute
  have hour := one .perHour 3600 limits.perHour
  simp only [ProviderLimits.slidingWindows, List.length_append]
  omega

theorem costs_slidingCounts (site : Site) (p : String) (limits : ProviderLimits) :
    Costs 4 (RateLimiter.slidingCounts site p limits) :=
  ((costs_perform _).then fun _ => costs_countWindows _ _ _ _).le
    (by have := length_slidingWindows limits; omega)

theorem costs_quotaRoom (key : QuotaKey) : ∀ limit, Costs 1 (RateLimiter.quotaRoom key limit)
  | none => trivial
  | some _ => (costs_query _ _).then fun _ => costs_ret _

theorem costs_bumpQuota (site : Site) (loaded : Option ℕ) (key : QuotaKey) (delta : ℤ) :
    Costs 1 (RateLimiter.bumpQuota site loaded key delta) := by
  cases loaded with
  | none => exact (costs_query _ _).then fun _ => costs_ret _
  | some n => trivial

theorem costs_bumpRoom : ∀ room, Costs 1 (RateLimiter.bumpRoom room)
  | .unlimited | .full => trivial
  | .room _ _ => (costs_bumpQuota _ _ _ _).then fun _ => costs_ret _

theorem costs_refuse {α : Type} : Costs 1 (RateLimiter.refuse : Act (Option α)) :=
  (costs_commit _ _).then fun _ => costs_ret _

theorem costs_reserveRow (p : String) (limits : ProviderLimits) (now : Time) :
    Costs 10 (RateLimiter.reserveRow p limits now) := by
  refine (costs_slidingCounts _ _ _).then (m := 6) fun _ => ?_
  split
  · exact costs_refuse.le (by omega)
  refine (costs_quotaRoom _ _).then (m := 5) fun _ => ?_
  split
  · exact costs_refuse.le (by omega)
  refine (costs_quotaRoom _ _).then (m := 4) fun _ => ?_
  split
  · exact costs_refuse.le (by omega)
  exact (costs_flush _).then fun _ => (costs_bumpRoom _).then fun _ =>
    (costs_bumpRoom _).then fun _ =>
    (costs_commit _ _).then fun _ => costs_ret _

theorem costs_atCapacity (p : String) : ∀ limit, Costs 1 (RateLimiter.atCapacity p limit)
  | none => trivial
  | some _ => (costs_perform _).then fun _ => costs_ret _

theorem costs_tryReserve (p : String) : Costs 16 (RateLimiter.tryReserve cfg p) := by
  unfold RateLimiter.tryReserve
  split
  · trivial
  refine costs_withLock ((costs_atCapacity _ _).then (m := 13) fun _ => ?_)
  split
  · trivial
  refine (costs_perform _).then (m := 12) fun _ => (costs_reserveRow _ _ _).then
    (m := 2) fun row => ?_
  split
  · trivial
  · exact (costs_perform _).then fun _ => (costs_perform _).then fun _ => costs_ret _

theorem costs_commitReservation (r : Reservation) : Costs 4 (RateLimiter.commitReservation r) :=
  (costs_perform _).then fun _ => costs_withLock (costs_perform _)

theorem costs_unbump (site : Site) (p : String) (scope : Scope) : ∀ key,
    Costs 1 (RateLimiter.unbump site p scope key)
  | none => trivial
  | some _ => (costs_bumpQuota _ _ _ _).then fun _ => costs_ret _

theorem costs_release (by_ : Caller) (r : Reservation) : Costs 8 (RateLimiter.release by_ r) :=
  (costs_perform _).then fun _ => costs_withLock <|
    (costs_perform _).then fun _ => (costs_flush _).then fun _ =>
    (costs_unbump _ _ _ _).then fun _ =>
      (costs_unbump _ _ _ _).then fun _ => (costs_commit _ _).then fun _ => costs_ret _

theorem costs_prune : Costs 3 (RateLimiter.prune cfg) := by
  unfold RateLimiter.prune
  split
  · trivial
  · exact (costs_perform _).then fun _ => (costs_flush _).then fun _ =>
      (costs_commit _ _).then fun _ => costs_ret _

theorem costs_isAvailable (cfg : CircuitBreakerConfig) (p : String) :
    Costs 1 (CircuitBreaker.isAvailable cfg p) :=
  (costs_perform _).then fun _ => costs_ret _

theorem costs_persist (by_ : BreakerOp) (p : String) : Costs 3 (CircuitBreaker.persist by_ p) :=
  (costs_query _ _).then fun _ => (costs_perform _).then fun _ => (costs_commit _ _).then fun _ =>
    costs_ret _

theorem costs_load : Costs 3 CircuitBreaker.load :=
  (costs_query _ _).then fun _ => (costs_perform _).then fun _ => (costs_commit _ _).then fun _ =>
    costs_ret _

theorem costs_beginProbe (cfg : CircuitBreakerConfig) (p : String) :
    Costs 7 (CircuitBreaker.beginProbe cfg p) := by
  refine costs_withLock ((costs_perform _).then (m := 4) fun x => ?_)
  obtain ⟨st, now⟩ := x
  simp only
  split
  · trivial
  · trivial
  · split
    · trivial
    · exact (costs_perform _).then fun _ => (costs_persist _ _).then fun _ => costs_ret _

theorem costs_recordSuccess (p : String) : Costs 8 (CircuitBreaker.recordSuccess p) :=
  (costs_perform _).then fun _ => costs_withLock <| (costs_perform _).then fun _ =>
  (costs_perform _).then fun _ =>
    costs_persist _ _

theorem costs_recordFailure (cfg : CircuitBreakerConfig) (p : String) :
    Costs 8 (CircuitBreaker.recordFailure cfg p) :=
  (costs_perform _).then fun _ => costs_withLock <| (costs_perform _).then fun _ =>
  (costs_perform _).then fun _ =>
    costs_persist _ _

end Calls

/-! ### The router and the dispatcher -/

section Dispatch

variable (cfg : Settings)

theorem costs_selectFrom (exclude : List String) : ∀ ps, Costs (32 * ps.length) (selectFrom cfg exclude ps)
  | [] => costs_ret _
  | p :: rest => by
    have ih := costs_selectFrom exclude rest
    unfold selectFrom
    rw [show 32 * (p :: rest).length = 1 + (16 + (7 + (8 + 32 * rest.length))) by simp only [List.length_cons]; ring]
    split
    · exact ih.le (by omega)
    refine (costs_isAvailable _ _).then fun up => ?_
    split
    · refine (costs_tryReserve _ _).then fun r => ?_
      cases r with
      | none => exact ih.le (by omega)
      | some r =>
        refine (costs_beginProbe _ _).then fun ok => ?_
        split
        · exact (costs_ret _).le (by omega)
        · exact (costs_release _ _).then fun _ => ih
    · exact ih.le (by omega)

theorem length_enabledProviders (overrides : String → Option Bool) :
    (enabledProviders cfg overrides).length ≤ cfg.providers.length := by
  rw [enabledProviders, List.length_insertionSort]
  exact List.length_filter_le _ _

/-- What a routing decision costs. -/
def routeCost : ℕ := 1 + 32 * cfg.providers.length

theorem costs_select (exclude : List String) : Costs (routeCost cfg) (select cfg exclude) :=
  (costs_perform _).then fun overrides => (costs_selectFrom _ _ _).le
    (Nat.mul_le_mul_left _ (length_enabledProviders cfg overrides))

theorem costs_reschedule (id : ℕ) (delay : ℚ) (error : Option String) (bump : Bool) :
    Costs 3 (reschedule id delay error bump) :=
  (costs_perform _).then fun _ => costs_execute _ _

theorem costs_deadletter (id : ℕ) (reason : DeadletterReason) (detail : Option String) :
    Costs 2 (deadletter id reason detail) := costs_execute _ _

theorem costs_handleNoSuccess (id : ℕ) (snapshot : MsgSnapshot) (cycle : Cycle) :
    Costs 6 (handleNoSuccess cfg id snapshot cycle) := by
  unfold handleNoSuccess
  simp only
  split
  · exact (costs_reschedule _ _ _ _).le (by omega)
  refine ((costs_perform _).then (m := 0) fun _ => costs_ret _).then (m := 5) fun _ => ?_
  split
  · exact (costs_deadletter _ _ _).le (by omega)
  split
  · exact (costs_deadletter _ _ _).le (by omega)
  refine (costs_perform _).then (m := 4) fun _ => (costs_perform _).then (m := 3) fun _ => ?_
  split
  · exact (costs_deadletter _ _ _).le (by omega)
  · exact costs_reschedule _ _ _ _

theorem costs_settle (d : RouteDecision) (k : Classification) : Costs 16 (settle cfg d k) := by
  have success : Costs 12 (do RateLimiter.commitReservation d.reservation; CircuitBreaker.recordSuccess d.provider) :=
    (costs_commitReservation _).then fun _ => costs_recordSuccess _
  cases k with
  | connectError => exact (costs_release _ _).then fun _ => costs_recordFailure _ _
  | transient => exact ((costs_commitReservation _).then fun _ => costs_recordFailure _ _).le (by omega)
  | sent => exact success.le (by omega)
  | permanent => exact success.le (by omega)

theorem costs_relay (c : ProviderConfig) (mailFrom : String) (rcptTos : List String) (raw : Bytes)
    (errand : Errand) :
    Costs 1 (relay c mailFrom rcptTos raw errand) :=
  (costs_perform _).then (m := 0) fun _ => within_ofExcept fun _ _ => trivial

theorem costs_recordAttempt (id no : ℕ) (p : String) (at_ : Time) (result : RelayResult) :
    Costs 2 (recordAttempt id no p at_ result) :=
  (costs_perform _).then fun _ => (costs_commit _ _).then fun _ => costs_ret _

theorem costs_markSent (id : ℕ) (p : String) (at_ : Option Time) : Costs 3 (markSent id p at_) :=
  (costs_perform _).then fun _ => costs_execute _ _

/-- What a turn of the failover loop costs. -/
def relayCost : ℕ := routeCost cfg + 20

theorem costs_failover (id : ℕ) (snapshot : MsgSnapshot) (raw : Bytes) : ∀ n cycle,
    Costs (n * relayCost cfg + 6) (failover cfg id snapshot raw n cycle)
  | 0, cycle => (costs_handleNoSuccess _ _ _ _).le (by omega)
  | n + 1, cycle => by
    have ih := fun cycle => costs_failover id snapshot raw n cycle
    unfold failover
    rw [show (n + 1) * relayCost cfg + 6 = routeCost cfg +
      (1 + (1 + (2 + (16 + (n * relayCost cfg + 6))))) by
      unfold relayCost; ring]
    refine (costs_select _ _).then fun decision => ?_
    split
    · exact (costs_handleNoSuccess _ _ _ _).le (by omega)
    refine (costs_perform _).then fun _ => Costs.then (Costs.then (n := 0) ?_ fun p =>
      costs_relay p _ _ _ _) fun result => ?_
    · unfold registryGet
      split
      · exact costs_ret _
      · exact costs_raise _
    refine (costs_recordAttempt _ _ _ _ _).then fun _ => ?_
    split
    · exact ((costs_commitReservation _).then fun _ => (costs_recordSuccess _).then fun _ =>
        costs_markSent _ _ _).le
        (by omega)
    · exact (costs_settle _ _ _).then fun _ => ih _

/-- What a delivery cycle costs. -/
def cycleCost : ℕ := cfg.dispatch.failoverPerTick * relayCost cfg + 10

theorem costs_process (id : ℕ) : Costs (cycleCost cfg) (process cfg id) := by
  unfold cycleCost
  rw [show (cfg.dispatch.failoverPerTick : ℕ) * relayCost cfg + 10 =
    1 + (1 + (1 + (1 + (cfg.dispatch.failoverPerTick * relayCost cfg + 6)))) by ring]
  refine (costs_query _ _).then fun row => (costs_commit _ _).then fun _ => ?_
  cases row with
  | none => exact (costs_ret _).le (by omega)
  | some msg =>
    simp only
    split
    · exact (costs_ret _).le (by omega)
    refine (costs_perform _).then fun now => (costs_perform _).then fun raw => ?_
    split
    · exact (costs_deadletter _ _ _).le (by omega)
    · exact (costs_raise _).le (by omega)
    · split
      · exact (costs_deadletter _ _ _).le (by omega)
      · exact costs_failover _ _ _ _ _ _

theorem costs_requeueNow (id : ℕ) : Costs 2 (requeueNow id) :=
  (costs_execute _ _).handle fun e => costs_swallow e

theorem costs_consumer : Costs (cycleCost cfg + 3) (consumer cfg) := by
  rw [show cycleCost cfg + 3 = 1 + (cycleCost cfg + 2) by ring]
  exact (costs_perform _).then fun id => (costs_process _ _).handle fun e =>
    (costs_requeueNow _).then fun _ => costs_swallow e

/-- The claim returns no more ids than it was asked for. -/
theorem within_claimBatch (limit : ℕ) :
    (claimBatch limit).Within Op.limited (fun ids : List ℕ => ids.length ≤ limit) 4 := by
  refine (costs_perform _).bind (m := 3) fun now _ => ?_
  refine within_op fun answer limited => ?_
  cases answer with
  | error e => trivial
  | ok ids =>
    change Prog.Within Op.limited (fun ids : List ℕ => ids.length ≤ limit) 2
      (if ids = [] then _ else _)
    split
    · refine Within.le (n := 1) (by omega) ((costs_commit _ _).bind (m := 0) fun _ _ => ?_)
      exact within_ret.mpr (Nat.zero_le limit)
    · have few : ids.length ≤ limit := limited
      refine (costs_execute _ _).bind (m := 0) fun _ _ => ?_
      exact within_ret.mpr few

theorem costs_putAll : ∀ ids, Costs ids.length (putAll ids)
  | [] => costs_ret _
  | _ :: rest => ((costs_perform _).then fun _ => costs_putAll rest).le
      (by simp only [List.length_cons]; omega)

theorem costs_producer : Costs (cfg.dispatch.claimBatchSize + 6) (producer cfg) := by
  have body : Costs (4 + (cfg.dispatch.claimBatchSize + 2)) (claimAndQueue cfg) := by
    refine (within_claimBatch _).bind fun claimed few =>
      Costs.then ((costs_putAll claimed).le few) fun _ => ?_
    split
    · exact (costs_perform _).then fun _ => costs_perform _
    · trivial
  exact (body.handle (m := 0) fun e => costs_swallow e).le (by omega)

theorem costs_start : Costs 9 start := by
  have overrides : Costs 3 refreshOverrides :=
    (costs_query _ _).then fun _ => (costs_perform _).then fun _ => (costs_commit _ _).then fun _ =>
      costs_ret _
  exact overrides.then fun _ => costs_load.then fun _ => (costs_execute _ _).then fun _ =>
    costs_perform _

/-! ### Housekeeping, ingress and the message API -/

theorem costs_spoolDeleteAll : ∀ rows, Costs rows.length (spoolDeleteAll rows)
  | [] => costs_ret _
  | (_, _) :: rest => ((costs_perform _).then fun _ => costs_spoolDeleteAll rest).le
      (by simp only [List.length_cons]; omega)

theorem costs_sweepPlans : ∀ plans, Costs (504 * plans.length) (sweepPlans plans)
  | [] => costs_ret _
  | (status, cutoff) :: rest => by
    have ih := costs_sweepPlans rest
    unfold sweepPlans
    rw [show 504 * ((status, cutoff) :: rest).length = 503 + 504 * rest.length + 1 by
      simp only [List.length_cons]; ring]
    refine within_op fun answer limited => ?_
    cases answer with
    | error e => exact within_raise
    | ok rows =>
      change Costs (503 + 504 * rest.length) (if rows = [] then _ else _)
      split
      · exact ((costs_commit _ _).then fun _ => ih).le (by omega)
      · have files : Costs 500 (spoolDeleteAll rows) := (costs_spoolDeleteAll rows).le limited
        exact ((costs_flush _).then fun _ => (costs_flush _).then fun _ =>
          (costs_commit _ _).then fun _ =>
          files.then fun _ => ih).le (by omega)

theorem length_retentionPlans (now : Time) : (retentionPlans cfg now).length ≤ 2 := by
  unfold retentionPlans
  simp only
  split <;> split <;> simp

theorem costs_retentionSweep : Costs 1009 (retentionSweep cfg) :=
  (costs_perform _).then (m := 1008) fun now => (costs_sweepPlans _).le
    (by have := length_retentionPlans cfg now; omega)

theorem costs_headerText (content : Bytes) (name : String) : Costs 1 (headerText content name) :=
  (costs_perform _).then (m := 0) fun v => by cases v <;> trivial

theorem costs_handleData (cfg : IngressConfig) (session : Session) (envelope : Envelope) :
    Costs 7 (handleData cfg session envelope) := by
  unfold handleData
  simp only
  split
  · trivial
  split
  · trivial
  refine (costs_headerText _ _).then (m := 6) fun _ => (costs_headerText _ _).then (m := 5) fun _ =>
    (costs_perform _).then (m := 4) fun _ => (costs_perform _).then (m := 3) fun _ => ?_
  refine Costs.then (n := 2) (m := 1)
    (Within.mono (fun _ _ => trivial) le_rfl (Within.attempt (R := fun _ => True)
    ((costs_flush _).then fun _ => costs_commit _ _))) fun stored => ?_
  split
  · trivial
  · exact (costs_perform _).then fun _ => costs_ret _
  · exact (costs_perform _).then fun _ => costs_ret _

theorem costs_deleteMessage (id : ℕ) : Costs 4 (deleteMessage id) := by
  refine (costs_query _ _).then (m := 3) fun row => ?_
  cases row with
  | none => trivial
  | some msg => exact (costs_flush _).then fun _ => (costs_commit _ _).then fun _ => costs_perform _

theorem costs_requeue (id : ℕ) : Costs 5 (requeue id) := by
  refine (costs_query _ _).then (m := 4) fun row => ?_
  cases row with
  | none => trivial
  | some msg =>
    simp only
    split
    · trivial
    · exact (costs_perform _).then fun _ => (costs_flush _).then fun _ =>
        (costs_commit _ _).then fun _ =>
        costs_perform _

end Dispatch

/-! ### The work of a run -/

section Runs

variable {cfg : Settings}

variable (cfg) in
/-- The most operations a job performs. -/
def Job.cost : Job → ℕ
  | .start => 9
  | .producer => cfg.dispatch.claimBatchSize + 6
  | .consumer => cycleCost cfg + 3
  | .handleData _ _ => 7
  | .deleteMessage _ => 4
  | .requeue _ => 5
  | .prune => 3
  | .retentionSweep => 1009
  | .tryReserve _ => 16
  | .commit _ => 4
  | .release _ => 8
  | .beginProbe _ => 7
  | .recordSuccess _ | .recordFailure _ => 8

theorem costs_code (j : Job) : Costs (j.cost cfg) (j.code cfg) := by
  cases j with
  | start => exact costs_start
  | producer => exact costs_producer cfg
  | consumer => exact costs_consumer cfg
  | handleData session envelope => exact (costs_handleData _ _ _).then fun _ => costs_ret ()
  | deleteMessage id => exact costs_deleteMessage id
  | requeue id => exact costs_requeue id
  | prune => exact costs_prune cfg
  | retentionSweep => exact costs_retentionSweep cfg
  | tryReserve p => exact (costs_tryReserve cfg p).then fun _ => costs_ret ()
  | commit r => exact costs_commitReservation r
  | release r => exact costs_release _ r
  | beginProbe p => exact (costs_beginProbe _ p).then fun _ => costs_ret ()
  | recordSuccess p => exact costs_recordSuccess p
  | recordFailure p => exact costs_recordFailure _ p

variable {jobs : Job → Bool} {C : Moment → Moment → Prop} {w : World}
  {s : Pool Op Op.Ans Exc World Job ℚ} (h : (system cfg jobs).Reachable C (Machine.boot w) s)

include h

theorem work_left : ∃ T left, Machine.Left Op.limited s T left ∧
    Machine.performed s.trace + ∑ i ∈ T, left i ≤ Machine.accounted (Job.cost cfg) s.trace :=
  h.work (system_answers cfg jobs) fun _ j _ _ => costs_code j

/-- **No job runs away.** The operations a run performs are never more than the jobs started in it
account for, however they interleave and whatever fails. -/
theorem performed_le_accounted : Machine.performed s.trace ≤ Machine.accounted
    (Job.cost cfg) s.trace := by
  obtain ⟨T, left, -, hle⟩ := work_left h
  omega

end Runs

namespace Example

theorem performed_le_contended : ∃ s,
    (system oneProvider fun _ => true).runFrom (Machine.boot awake) contended = some s ∧
      Machine.performed s.trace = 1 ∧
      Machine.performed s.trace ≤ Machine.accounted (Job.cost oneProvider) s.trace := by
  obtain ⟨s, hs, hp⟩ : ∃ s, (system oneProvider fun _ => true).runFrom
      (Machine.boot awake) contended = some s ∧
      Machine.performed s.trace = 1 := ⟨_, rfl, rfl⟩
  exact ⟨s, hs, hp, performed_le_accounted (Machine.Reachable.refl.runFrom hs)⟩

end Example

section Runs

variable {cfg : Settings} {jobs : Job → Bool} {C : Moment → Moment → Prop} {w : World}
  {s : Pool Op Op.Ans Exc World Job ℚ} (h : (system cfg jobs).Reachable C (Machine.boot w) s)

include h

/-- **The process comes to rest.** From every reachable pool moves of the tasks alone, and no more
of them than the jobs started account for, lead to one in which every unfinished task waits for
the work queue. -/
theorem comes_to_rest (hw : ∀ l, w.locks l = none) :
    ∃ (ms : List (ℕ × Choice)) (s' : Pool Op Op.Ans Exc World Job ℚ),
      Machine.performed s.trace + ms.length ≤ Machine.accounted (Job.cost cfg) s.trace ∧
      (system cfg jobs).runFrom s (ms.map fun m => .run m.1 m.2) = some s' ∧
      ∀ i j t, s'.tasks i = some (j, t) →
        (s'.shared.queue = [] ∧ ∃ k, t = .op .queueGet k) ∨
          (cfg.dispatch.claimBatchSize : ℕ) * 2 ≤ s'.shared.queue.length ∧ ∃ id k,
            t = .op (.queuePut id) k := by
  obtain ⟨T, left, hl, hle⟩ := work_left h
  obtain ⟨ms, s', -, hlen, hr, stuck, -⟩ := hl.rests (system_answers cfg jobs) rfl
  have reached : (system cfg jobs).Reachable Machine.Free (Machine.boot w) s' :=
    (h.mono fun _ _ _ => trivial).runFrom hr
  exact ⟨ms, s', by omega, hr, fun i j t ht => waits_of_stuck hw reached stuck ht⟩

end Runs

namespace Example

theorem comes_to_rest_contended : ∃ s,
    (system oneProvider fun _ => true).runFrom (Machine.boot awake) contended = some s ∧
      ∃ (ms : List (ℕ × Choice)) (s' : Pool Op Op.Ans Exc World Job ℚ),
        Machine.performed s.trace + ms.length ≤ Machine.accounted (Job.cost oneProvider) s.trace ∧
        (system oneProvider fun _ => true).runFrom s (ms.map fun m => .run m.1 m.2) = some s' ∧
        ∀ i j t, s'.tasks i = some (j, t) →
          (s'.shared.queue = [] ∧ ∃ k, t = .op .queueGet k) ∨
            (oneProvider.dispatch.claimBatchSize : ℕ) * 2 ≤ s'.shared.queue.length ∧
              ∃ id k, t = .op (.queuePut id) k := by
  obtain ⟨s, hs⟩ : ∃ s, (system oneProvider fun _ => true).runFrom (Machine.boot awake) contended =
      some s :=
    ⟨_, rfl⟩
  exact ⟨s, hs, comes_to_rest (Machine.Reachable.refl.runFrom hs) fun _ => rfl⟩

end Example

end SmtpSwitch
