import SmtpSwitch.Delivery.Protocol

/-!
# The code keeps to its duties

A turn of the consumer, function by function, then the producer, the start of the
process, `handle_DATA` and the message API. The router, the limiter and the
breaker perform nothing that has a meaning for a message: a task that calls them
keeps its duty, and loses it by an exception only (`stays_turn`).
-/

namespace SmtpSwitch

open Coop Coop.Prog

variable {cfg : Settings}

/-! ### Operations beside the messages -/

theorem writes_of_table {φ : Duty} : ∀ {ss : List Stmt}, (∀ s ∈ ss, s.table ≠ .messages) →
    φ.writes cfg ss
  | [], h => h
  | [s], h => by
    have hs := h s List.mem_cons_self
    cases s <;> first | exact h | exact absurd rfl hs
  | s :: _ :: _, h => by cases s <;> exact h

/-- The router's operations are in order in every duty. -/
theorem good_of_router {φ : Duty} {o : Op} (h : o.ofRouter) (a : o.Ans) : φ.good cfg o a := by
  rcases h with h | h | rfl
  · cases o with
    | select site q => cases q <;> trivial
    | commit site ss => exact writes_of_table fun s hs => by rw [h.2 s hs]; decide
    | _ => trivial
  · cases o with
    | select site q => cases q <;> trivial
    | commit site ss => exact writes_of_table fun s hs => by rw [h.2 s hs]; decide
    | _ => trivial
  · trivial

/-- A consumer at work on message `id`, whatever the time. -/
def Duty.During (id : ℕ) (t : Turn) (φ : Duty) : Prop := ∃ told drawn, φ = .turn id t told drawn

/-- The default. -/
theorem nextTurn_commit {id : ℕ} {t : Turn} {told : Option Time} {drawn : Option ℚ} {site : Site} :
    ∀ {ss : List Stmt} (a : Except Exc ℕ), (∀ s ∈ ss, s.table ≠ .messages) →
      Duty.nextTurn id t told drawn (.commit site ss) a =
        if (Op.commit site ss).fails a then .failed id t.sends t.sent else .turn id t told drawn
  | [], a, _ => by cases a <;> rfl
  | [s], a, h => by
    have hs := h s List.mem_cons_self
    cases s <;> first | (cases a <;> rfl) | exact absurd rfl hs
  | s :: _ :: _, a, _ => by cases s <;> cases a <;> rfl

theorem next_of_router {id : ℕ} {t : Turn} {told : Option Time} {drawn : Option ℚ} {o : Op}
    (h : o.ofRouter) (a : o.Ans) :
    if o.fails a then Duty.nextTurn id t told drawn o a = .failed id t.sends t.sent
    else Duty.During id t (Duty.nextTurn id t told drawn o a) := by
  have same : ∀ {φ : Duty}, φ = (if o.fails a then .failed id t.sends t.sent
      else .turn id t told drawn) →
      if o.fails a then φ = .failed id t.sends t.sent else Duty.During id t φ := by
    rintro _ rfl
    split
    · rfl
    · exact ⟨told, drawn, rfl⟩
  have table : ∀ {site ss}, o = .commit site ss → ∀ s ∈ ss, s.table ≠ .messages := by
    rintro site ss rfl s hs
    rcases h with h | h | h
    · rw [h.2 s hs]; decide
    · rw [h.2 s hs]; decide
    · cases h
  cases o with
  | commit site ss => exact same (nextTurn_commit a (table rfl))
  | utcnow => exact ⟨some a, drawn, rfl⟩
  | select site q => exact same (by cases a <;> rfl)
  | flush site => exact same (by cases a <;> rfl)
  | random => rcases h with h | h | h <;> first | exact h.elim | cases h
  | spoolRead path => rcases h with h | h | h <;> first | exact h.elim | cases h
  | send p kw sender rcpts raw errand => rcases h with h | h | h <;> first | exact h.elim | cases h
  | _ => exact ⟨told, drawn, rfl⟩

/-- The router's code keeps a consumer at work. -/
theorem stays_turn (id : ℕ) (t : Turn) : Stays (delivery cfg) Op.fails Op.ofRouter
    (Duty.During id t) (· = .failed id t.sends t.sent) where
  good φ _ o ho := good_of_router ho
  next φ hφ o ho a := by
    obtain ⟨told, drawn, rfl⟩ := hφ
    exact next_of_router ho a
  good' φ _ o ho a _ := good_of_router ho a
  next' φ hφ o ho a hf := by
    subst hφ
    cases o with
    | flush site =>
      have plain : site ≠ .requeueNow := by
        rcases ho with h | h | h <;> first | exact h | cases h
      cases site <;> first | rfl | exact absurd rfl plain
    | commit site ss =>
      have table : ∀ s ∈ ss, s.table ≠ .messages := by
        intro s hs
        rcases ho with h | h | h
        · rw [h.2 s hs]; decide
        · rw [h.2 s hs]; decide
        · cases h
      match ss with
      | [] => rfl
      | [s] =>
        have := table s List.mem_cons_self
        cases s <;> first | rfl | exact absurd rfl this
      | s :: _ :: _ => cases s <;> rfl
    | _ => rfl

/-! ### A turn of the consumer -/

section Turn

variable {α β : Type} {id : ℕ} {t : Turn} {told : Option Time} {drawn : Option ℚ}

/-- The end of `_process`: the outcome is written, or an exception has left it. -/
def Done (id : ℕ) : Except Exc α → Duty → Prop
  | .ok _, φ => φ = .idle
  | .error _, φ => ∃ sends sent, φ = .failed id sends sent

/-- A call of the router, the limiter or the breaker, and what follows it. -/
theorem follows_beside {R : α → Prop} {u : Act α} {f : α → Act β}
    (hu : u.Tame Op.fails Op.ofRouter R)
    (hf : ∀ a, R a → ∀ told drawn, (f a).Follows (delivery cfg) (Done id) (.turn id t told drawn)) :
    (u >>= f).Follows (delivery cfg) (Done id) (.turn id t told drawn) := by
  refine Follows.bind (hu.stays (stays_turn id t) ⟨told, drawn, rfl⟩) ?_ ?_
  · rintro a _ ⟨⟨told, drawn, rfl⟩, ha⟩
    exact hf a ha told drawn
  · rintro e _ rfl
    exact ⟨_, _, rfl⟩

/-- The session that writes the outcome. -/
theorem follows_execute {site : Site} {w : MessageWhere} {v : MessageValues}
    (h : Updates cfg (.turn id t told drawn) w v) :
    (execute site [.updateMessages w v]).Follows (delivery cfg) (Done id)
    (.turn id t told drawn) := by
  refine follows_flush ⟨trivial, ?_⟩ fun e => ⟨trivial, _, _, rfl⟩
  exact follows_commit (fun _ => ⟨h, rfl⟩) fun e => ⟨h, _, _, rfl⟩

theorem follows_deadletter (ht : t.sent = false) {reason : DeadletterReason}
    (hr : reason = .maxAttempts → cfg.dispatch.retry.maxAttempts ≤ t.row.attempts + 1)
    (detail : Option String) :
    (deadletter id reason detail).Follows (delivery cfg) (Done id) (.turn id t told drawn) :=
  follows_execute (.deadletter ht hr)

theorem follows_markSent (ht : t.sent = true) (p : String) (claimedAt : Option Time) :
    (markSent id p claimedAt).Follows (delivery cfg) (Done id) (.turn id t told drawn) :=
  follows_perform fun _ => ⟨trivial, follows_execute (.markSent ht)⟩

theorem follows_postpone (ht : t.sends = 0) (delay : ℚ) (error : Option String) :
    (reschedule id delay error false).Follows (delivery cfg) (Done id) (.turn id t told drawn) :=
  follows_perform fun _ => ⟨trivial, follows_execute (.postpone ht)⟩

theorem follows_retry {draw : ℚ} (ht : t.sent = false) (hs : 0 < t.sends)
    (ha : t.row.attempts + 1 < cfg.dispatch.retry.maxAttempts) (error : Option String) :
    (reschedule id (backoffDelay (t.row.attempts + 1) (cfg.dispatch.retry.baseDelaySeconds : ℕ)
      (cfg.dispatch.retry.maxDelaySeconds : ℕ) cfg.dispatch.retry.jitterRatio draw)
        error true).Follows
      (delivery cfg) (Done id) (.turn id t told (some draw)) :=
  follows_perform fun _ => ⟨trivial, follows_execute (.retry ht hs ha)⟩

/-- The end of a cycle without a success. -/
theorem follows_handleNoSuccess {cycle : Cycle} (ht : t.sent = false)
    (hc : cycle.madeAttempt = true ↔ 0 < t.sends) :
    (handleNoSuccess cfg id (.fromRow t.row) cycle).Follows (delivery cfg) (Done id)
      (.turn id t told drawn) := by
  unfold handleNoSuccess
  simp only
  by_cases made : cycle.madeAttempt = true
  · rw [if_neg (by simp [made])]
    refine follows_perform fun _ => ⟨trivial, ?_⟩
    simp only [Prog.bind_eq]
    split
    · exact follows_deadletter ht (fun h => (by cases h)) _
    split
    · rename_i many
      exact follows_deadletter ht (fun _ => many) _
    rename_i more
    refine follows_perform fun draw => ⟨trivial, follows_perform fun now => ⟨trivial, ?_⟩⟩
    split
    · exact follows_deadletter ht (fun h => (by cases h)) _
    · exact follows_retry ht (hc.mp made) (Nat.lt_of_not_le more) _
  · rw [if_pos (by simp [made])]
    exact follows_postpone (by simp only [made, Bool.false_eq_true, false_iff] at hc; omega) _ _

/-- The turn after a relay that returned. -/
def Turn.relayed (t : Turn) (sent : Bool) : Turn := { t with sends := t.sends + 1, sent := sent }

theorem next_of_send (out : SendOutcome) {p : String} {kw : SendKwargs} {sender : String}
    {rcpts : List String} {raw : Bytes} {errand : Errand} :
    (delivery cfg).next (.turn id t told drawn) (.send p kw sender rcpts raw errand) out =
      match resultOf out with
      | .ok _ => .turn id (t.relayed (sentBy out)) told drawn
      | .error _ => .failed id (t.sends + 1) false := rfl

/-- A relay, and what follows its result. -/
theorem follows_relay_then {p : ProviderConfig} {raw : Bytes} {r : Reservation}
    {f : RelayResult → Act β} (ht : t.sent = false) (hraw : t.raw = some raw)
    (hn : t.sends < cfg.dispatch.failoverPerTick) (hrec : t.recorded = t.sends)
    (hf : ∀ result : RelayResult, (f result).Follows (delivery cfg) (Done id)
      (.turn id (t.relayed result.ok) told drawn)) :
    (relay p t.row.fromAddr t.row.rcptTo raw ⟨id, r⟩ >>= f).Follows (delivery cfg) (Done id)
      (.turn id t told drawn) := by
  refine fun out => ⟨⟨t, told, drawn, rfl, rfl, rfl, hraw, ht, hn, hrec⟩, ?_⟩
  rw [next_of_send]
  cases hr : resultOf out with
  | ok result =>
    have sent : sentBy out = result.ok := by simp only [sentBy, hr]
    simp only [Prog.ret_bind, hr, Prog.ofExcept, sent]
    exact hf result
  | error e =>
    simp only [Prog.ret_bind, hr, Prog.ofExcept]
    exact ⟨_, _, rfl⟩

theorem follows_recordAttempt_then {attemptNo : ℕ} {p : String} {startedAt : Time}
    {result : RelayResult} {f : Unit → Act β} (hrec : t.sends = t.recorded + 1)
    (hno : attemptNo = t.row.attempts + t.sends)
    (hf : ∀ told, (f ()).Follows (delivery cfg) (Done id)
      (.turn id { t with recorded := t.recorded + 1 } told drawn)) :
    (recordAttempt id attemptNo p startedAt result >>= f).Follows (delivery cfg) (Done id)
      (.turn id t told drawn) := by
  refine fun now => ⟨trivial, fun a => ⟨⟨t, some now, drawn, rfl, hrec, hno⟩, ?_⟩⟩
  cases a with
  | ok _ => exact hf (some now)
  | error e => exact ⟨_, _, rfl⟩

/-- The failover loop, with `n` of the relays left that a cycle may make. -/
theorem follows_failover {raw : Bytes} : ∀ (n : ℕ) {cycle : Cycle} {t : Turn}
    {told : Option Time} {drawn : Option ℚ}, t.sent = false → t.raw = some raw →
      t.sends + n ≤ cfg.dispatch.failoverPerTick → t.recorded = t.sends →
        cycle.tried.length = t.sends →
        (cycle.madeAttempt = true ↔ 0 < t.sends) →
        (failover cfg id (.fromRow t.row) raw n cycle).Follows (delivery cfg) (Done id)
          (.turn id t told drawn)
  | 0, cycle, t, told, drawn, ht, _, _, _, _, hc => follows_handleNoSuccess ht hc
  | n + 1, cycle, t, told, drawn, ht, hraw, hn, hrec, htried, hc => by
    unfold failover
    refine follows_beside (tame_select cfg _) fun d hd told drawn => ?_
    cases d with
    | none => exact follows_handleNoSuccess ht hc
    | some d =>
      obtain ⟨c, hp⟩ := (hd d rfl).configured
      refine follows_perform fun now => ⟨trivial, ?_⟩
      simp only [registryGet, hp]
      refine follows_relay_then ht hraw (by omega) hrec fun result => ?_
      refine follows_recordAttempt_then (by simp [Turn.relayed, hrec])
        (by simp [Turn.relayed, MsgSnapshot.fromRow, htried])
        fun told => ?_
      split
      · rename_i ok
        rw [ok]
        refine follows_beside ((RateLimiter.tame_commitReservation _).widen
          fun _ h => .inl h.ofLimiter) fun _ _ told drawn => ?_
        refine follows_beside ((CircuitBreaker.tame_recordSuccess _).widen
          fun _ h => .inr (.inl h)) fun _ _ told drawn => ?_
        exact follows_markSent rfl _ _
      · rename_i notOk
        rw [show result.ok = false by simpa using notOk]
        refine follows_beside (tame_settle d _) fun _ _ told drawn => ?_
        have made : ∀ k, Cycle.madeAttempt (Cycle.saw { cycle with
            tried := cycle.tried ++ [d.provider], madeAttempt := true,
            lastError := some result.detail, lastCode := result.smtpCode } k) = true := by
          intro k
          cases k <;> rfl
        have tried : ∀ k, (Cycle.saw { cycle with
            tried := cycle.tried ++ [d.provider], madeAttempt := true,
            lastError := some result.detail, lastCode := result.smtpCode } k).tried.length =
              t.sends + 1 := by
          intro k
          cases k <;> simp [Cycle.saw, htried]
        refine follows_failover n
          (t := { t.relayed false with recorded := t.recorded + 1 }) rfl hraw
          (by simp only [Turn.relayed]; omega) (by simp only [Turn.relayed, hrec]) (tried _) ?_
        simp only [made, Turn.relayed, true_iff]
        omega

theorem follows_processSnapshot {row : Message} :
    (processSnapshot cfg id (.fromRow row)).Follows (delivery cfg) (Done id)
      (.turn id { row := row } none none) := by
  refine follows_perform fun now => ⟨trivial, ?_⟩
  refine fun a => ⟨⟨id, _, _, _, rfl, rfl⟩, ?_⟩
  cases a with
  | error e =>
    cases e with
    | fileNotFoundError => exact follows_deadletter rfl (fun h => (by cases h)) _
    | _ => exact ⟨_, _, rfl⟩
  | ok raw =>
    simp only [Prog.ret_bind]
    split
    · exact follows_deadletter rfl (fun h => (by cases h)) _
    · exact follows_failover _ (t := { row := row, raw := some raw }) rfl rfl
        (by simp) rfl rfl (by simp)

/-- A run of `_process`. -/
theorem follows_process : (process cfg id).Follows (delivery cfg) (Done id) (.got id) := by
  refine follows_query (fun row => ⟨.inl rfl, ?_⟩) fun e => ⟨.inl rfl, 0, false, rfl⟩
  refine follows_commit (fun _ => ⟨fun s hs => (by cases hs), ?_⟩)
    fun e => ⟨fun s hs => (by cases hs), 0, false, rfl⟩
  cases row with
  | none => exact rfl
  | some msg =>
    change ((if msg.status.terminal then .ret ()
      else processSnapshot cfg id (.fromRow msg) : Act Unit)).Follows (delivery cfg) (Done id)
      (if msg.status.terminal then .idle else .turn id { row := msg } none none)
    split
    · exact rfl
    · exact follows_processSnapshot

theorem follows_requeueNow {sends : ℕ} {sent : Bool} :
    (requeueNow id).Follows (delivery cfg) (fun _ φ => φ = .idle) (.failed id sends sent) := by
  refine Follows.handle (follows_flush ⟨trivial, ?_⟩ fun e =>
    ⟨trivial, follows_swallow e fun _ => rfl⟩)
  exact follows_commit (fun _ => ⟨.requeue, rfl⟩) fun e =>
    ⟨.requeue, follows_swallow e fun _ => rfl⟩

end Turn

theorem consumer_follows : (consumer cfg).Whole (delivery cfg) := by
  refine follows_perform fun id => ⟨rfl, Follows.handle (follows_process.mono ?_)⟩
  rintro (e | a) φ hφ
  · obtain ⟨sends, sent, rfl⟩ := hφ
    exact Follows.bind follows_requeueNow (fun _ _ h => follows_swallow e fun _ => h) fun _ _ h => h
  · exact hφ

/-! ### The other jobs -/

/-- Whatever the result, the task ends with nothing to do. -/
def Idle {α : Type} : Except Exc α → Duty → Prop := fun _ φ => φ = .idle

/-- The duty of the producer once it has claimed. -/
def Duty.queueing (ids : List ℕ) : Duty := if ids = [] then .idle else .batch ids

/-- After the claim the ids claimed are the batch; an exception leaves nothing. -/
def Claimed : Except Exc (List ℕ) → Duty → Prop
  | .ok ids, φ => φ = .queueing ids
  | .error _, φ => φ = .idle

theorem follows_claimBatch (limit : ℕ) :
    (claimBatch limit).Follows (delivery cfg) Claimed .producing := by
  refine follows_perform fun now =>
    ⟨trivial, follows_query (fun ids => ⟨rfl, ?_⟩) fun e => ⟨rfl, rfl⟩⟩
  change Follows (delivery cfg) Claimed _ (.due ids)
  by_cases hids : ids = []
  · subst hids
    exact follows_commit (fun _ => ⟨fun s hs => (by cases hs), rfl⟩)
      fun e => ⟨fun s hs => (by cases hs), rfl⟩
  · rw [if_neg hids]
    refine Follows.bind (R := Ended (fun _ : Unit => True) (Duty.batch ids) .idle) ?_ ?_
      fun e φ h => h
    · have claim : (Duty.due ids).writes cfg [.updateMessages { ids := some ids }
          { status := .sending, claimedAt := some (some now) }] := .claim hids
      refine follows_flush ⟨trivial, ?_⟩ fun e => ⟨trivial, rfl⟩
      exact follows_commit (fun _ => ⟨claim, rfl, trivial⟩) fun e => ⟨claim, rfl⟩
    · rintro _ _ ⟨rfl, -⟩
      exact (if_neg hids).symm

theorem follows_putAll : ∀ ids, (putAll ids).Follows (delivery cfg) Idle (.queueing ids)
  | [] => rfl
  | _ :: rest => fun _ => ⟨⟨rest, rfl⟩, follows_putAll rest⟩

theorem producer_follows : (producer cfg).Follows (delivery cfg) Idle .producing := by
  have swallowed : ∀ {r : Except Exc Unit} {φ : Duty}, φ = .idle →
      Handled (delivery cfg) Idle swallow r φ := by
    rintro (e | a) φ rfl
    · exact follows_swallow e fun _ => rfl
    · exact rfl
  refine Follows.handle (Follows.bind (follows_claimBatch _) ?_ fun e φ h => swallowed h)
  rintro ids _ rfl
  refine Follows.bind (follows_putAll ids) ?_ fun e φ h => swallowed h
  rintro _ _ rfl
  split
  · exact fun _ => ⟨trivial, fun _ => ⟨trivial, rfl⟩⟩
  · exact rfl

/-- The breaker's code keeps the start of the process where it is. -/
theorem stays_starting : Stays (delivery cfg) Op.fails Op.ofBreaker (· = .starting)
    (· = .idle) where
  good φ _ o ho := good_of_router (.inr (.inl ho))
  next φ hφ o ho a := by
    subst hφ
    cases o with
    | select site q => cases a <;> rfl
    | commit site ss =>
      have breaker : ∀ s ∈ ss, s.table = .breaker := ho.2
      match ss, a with
      | [], .ok _ | [], .error _ => rfl
      | [s], a =>
        have := breaker s List.mem_cons_self
        cases s <;> first | (cases a <;> rfl) | cases this
      | s :: _ :: _, a => cases s <;> cases a <;> rfl
    | flush site => exact ho.elim
    | send p kw sender rcpts raw errand => exact ho.elim
    | spoolRead path => exact ho.elim
    | _ => rfl
  good' φ _ o ho a _ := good_of_router (.inr (.inl ho)) a
  next' φ hφ o ho a _ := by
    subst hφ
    cases o <;> first | rfl | exact ho.elim

theorem start_follows : start.Follows (delivery cfg) Idle .starting := by
  refine Follows.bind (R := Ended (fun _ : Unit => True) Duty.starting .idle) ?_ ?_ fun e φ h => h
  · refine follows_query (fun rows => ⟨trivial, ?_⟩) fun e => ⟨trivial, rfl⟩
    refine follows_perform fun _ => ⟨trivial, ?_⟩
    exact follows_commit (fun _ => ⟨fun s hs => (by cases hs), rfl, trivial⟩)
      fun e => ⟨fun s hs => (by cases hs), rfl⟩
  rintro _ _ ⟨rfl, -⟩
  refine Follows.bind (CircuitBreaker.tame_load.stays stays_starting rfl) ?_ fun e φ h => h
  rintro _ _ ⟨rfl, -⟩
  refine Follows.bind (R := Ended (fun _ : Unit => True) Duty.recovered .idle) ?_ ?_ fun e φ h => h
  · refine follows_flush ⟨trivial, ?_⟩ fun e => ⟨trivial, rfl⟩
    exact follows_commit (fun _ => ⟨.recover, rfl, trivial⟩) fun e => ⟨.recover, rfl⟩
  rintro _ _ ⟨rfl, -⟩
  exact fun _ => ⟨rfl, rfl⟩

/-- After the attempt to store a spooled message. -/
def Stored (path : String) : Except Exc (Except Exc ℕ) → Duty → Prop
  | .ok (.ok _), φ => φ = .idle
  | .ok (.error e), φ => φ = if e = .cancelledError then .idle else .unstored path
  | .error _, φ => φ = .idle

theorem handleData_follows (session : Session) (envelope : Envelope) :
    (handleData cfg.ingress session envelope).Whole (delivery cfg) := by
  have header : ∀ content name, (headerText content name).Whole (delivery cfg) :=
    fun content name v =>
    ⟨trivial, by cases v <;> exact rfl⟩
  unfold handleData
  simp only
  split
  · exact rfl
  split
  · exact rfl
  refine (header _ _).bind fun subject => (header _ _).bind fun messageId => ?_
  refine follows_perform fun path => ⟨rfl, follows_perform fun now => ⟨trivial, ?_⟩⟩
  refine Follows.bind (R := Stored path) (Follows.attempt ?_) ?_ fun e φ h => h
  · refine follows_flush ⟨trivial, ?_⟩ fun e => ⟨trivial, by cases e <;> rfl⟩
    refine fun a => ⟨⟨⟨_, rfl⟩, rfl, rfl, ⟨rfl, rfl, rfl, rfl⟩⟩, ?_⟩
    cases a with
    | ok id => exact rfl
    | error e => cases e <;> exact rfl
  intro stored φ hφ
  split
  · cases hφ
    exact rfl
  · rename_i e other
    cases hφ
    rw [if_neg other]
    exact fun _ => ⟨.inl rfl, rfl⟩
  · cases hφ
    exact fun _ => ⟨trivial, rfl⟩

theorem deleteMessage_follows (id : ℕ) :
    (deleteMessage id).Follows (delivery cfg) Idle .deleting := by
  refine follows_query (fun row => ⟨.inr rfl, ?_⟩) fun e => ⟨.inr rfl, rfl⟩
  cases row with
  | none => exact rfl
  | some msg =>
    refine follows_flush ⟨trivial, ?_⟩ fun e => ⟨trivial, rfl⟩
    exact follows_commit (fun _ => ⟨rfl, fun _ => ⟨.inr rfl, rfl⟩⟩) fun e => ⟨rfl, rfl⟩

theorem prune_follows : (RateLimiter.prune cfg).Whole (delivery cfg) := by
  refine ((RateLimiter.tame_prune cfg).uses.mono fun o ho a => ?_).whole
  refine ⟨good_of_router (.inl ho) a, ?_⟩
  cases o <;> first | rfl | exact ho.elim

/-- A job of the process keeps to its duties. -/
theorem code_follows {j : Job} (hj : j.ofProcess = true) :
    (j.code cfg).Follows (delivery cfg) Idle j.duty := by
  cases j with
  | start => exact start_follows
  | producer => exact producer_follows
  | consumer => exact consumer_follows
  | handleData session envelope => exact (handleData_follows session envelope).bind fun _ => rfl
  | deleteMessage id => exact deleteMessage_follows id
  | prune => exact prune_follows
  | _ => cases hj

/-- The jobs of the process keep to their duties. -/
theorem delivery_keeps {jobs : Job → Bool} (hjobs : ∀ j, jobs j = true → Job.ofProcess j = true) :
    (system cfg jobs).Keeps (delivery cfg) := by
  intro i j w h
  simp only [system, Job.admitted, Bool.and_eq_true] at h
  exact code_follows (hjobs j h.1)

end SmtpSwitch
