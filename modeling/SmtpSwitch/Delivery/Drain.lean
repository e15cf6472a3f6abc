import SmtpSwitch.Delivery.Overtaking
import SmtpSwitch.Limits.Pruning
import SmtpSwitch.Selection
import SmtpSwitch.Solo

/-!
# A backlog is delivered

The dispatcher where a provider comes first, is up, accepts everything and has room for what
there is. A turn of the producer claims the first `claim_batch_size` of the messages that are
due, as many turns of a consumer relay them, and the next turn goes on where this one stopped
(`due_claimed`). So the backlog is delivered in the order of the claims, each message once, by
the first provider (`backlog_delivered`). -/

namespace SmtpSwitch

open Coop Coop.Prog
open CircuitBreaker (unfailing)

variable {cfg : Settings} {reply : ℕ → String} {w w' : World}

/-! ### The provider and the messages -/

/-- The provider comes first, is up, and has room for `n` messages. -/
structure Serving (cfg : Settings) (p : ProviderConfig) (n : ℕ) (w : World) : Prop where
  free : ∀ l, w.locks l = none
  first : ∃ rest, enabledProviders cfg w.overrides = p :: rest
  up : CircuitBreaker.available cfg.circuitBreaker (w.state p.name) w.clock = true
  room : ∀ r ∈ RateLimiter.rooms p.limits p.name w, (n : ℤ) ≤ r.2

/-- The message has its file, and is not too old. -/
structure Sendable (cfg : Settings) (w : World) (m : Message) : Prop where
  file : ∃ raw, w.files m.spoolPath = some raw
  young : w.clock - m.receivedAt ≤ (cfg.dispatch.retry.maxAgeHours : ℕ) * 3600

/-! ### One message -/

/-- What `_claim_batch` sets. -/
def claimValues (now : Time) : MessageValues := { status := .sending, claimedAt := some (some now) }

/-- What `_mark_sent` sets. -/
def sentValues (p : String) (now : Time) : MessageValues :=
  { status := .sent, providerUsed := some (some p), sentAt := some (some now),
    lastError := some none }

/-- The attempt that is recorded. -/
def attemptOf (reply : ℕ → String) (p : String) (now : Time) (m : Message) : DeliveryAttempt :=
  ⟨m.id, m.attempts + 1, p, now, now, .sent, some 250, truncate 500 (reply m.id)⟩

/-- The world after a message was relayed by the provider. -/
def World.relayed (cfg : Settings) (reply : ℕ → String) (p : ProviderConfig) (m : Message)
    (w : World) :
    World :=
  let chosen := w.chosen cfg p
  let r := RateLimiter.grant p.limits p.name w
  { chosen with
    accepted := (p.name, ⟨m.id, r⟩) :: chosen.accepted
    inflight := Function.update chosen.inflight p.name (chosen.inflight p.name - 1)
    states := Function.update chosen.states p.name
      (some (CircuitBreaker.succeeded (chosen.state p.name) chosen.clock))
    db := { chosen.db with
      attempts := chosen.db.attempts ++ [attemptOf reply p.name chosen.clock m]
      providerState := Function.update chosen.db.providerState p.name
        (some (CircuitBreaker.succeeded (chosen.state p.name) chosen.clock))
      messages := applyUpdate { ids := some [m.id] } (sentValues p.name chosen.clock)
        chosen.db.messages } }

variable {p : ProviderConfig} {m : Message} {n : ℕ}

variable (cfg p) in
/-- What the choice of a provider leaves alone. -/
theorem chosen_rest (w : World) : (w.chosen cfg p).db.messages = w.db.messages ∧
    (w.chosen cfg p).db.attempts = w.db.attempts ∧ (w.chosen cfg p).files = w.files ∧
    (w.chosen cfg p).clock = w.clock ∧ (w.chosen cfg p).locks = w.locks ∧
    (w.chosen cfg p).overrides = w.overrides ∧ (w.chosen cfg p).queue = w.queue ∧
    (w.chosen cfg p).accepted = w.accepted ∧ (w.chosen cfg p).up = w.up := by
  unfold World.chosen
  split <;> exact ⟨rfl, rfl, rfl, rfl, rfl, rfl, rfl, rfl, rfl⟩

theorem find_of_mem : ∀ {ms : List Message}, (ms.map Message.id).Nodup → m ∈ ms →
    (ms.find? fun x => x.id = m.id) = some m
  | x :: ms, ids, hm => by
    rw [List.map_cons, List.nodup_cons] at ids
    rcases List.mem_cons.mp hm with rfl | hm
    · exact List.find?_cons_of_pos (by simp)
    · rw [List.find?_cons_of_neg]
      · exact find_of_mem ids.2 hm
      · intro same
        exact ids.1 (of_decide_eq_true same ▸ List.mem_map_of_mem hm)

theorem Serving.suits (h : Serving cfg p (n + 1) w) : suits cfg [] w p = true := by
  have room : RateLimiter.full (RateLimiter.rooms p.limits p.name w) = false := by
    rw [RateLimiter.full, List.any_eq_false]
    intro r hr
    have := h.room r hr
    simp only [decide_eq_true_eq]
    omega
  rw [SmtpSwitch.suits, h.up, room]
  simp

theorem Serving.configured (h : Serving cfg p n w) : p ∈ cfg.providers := by
  obtain ⟨rest, first⟩ := h.first
  exact ((mem_enabledProviders cfg).mp (first ▸ List.mem_cons_self)).1

/-- The provider is chosen. -/
theorem alone_select_serving (h : Serving cfg p (n + 1) w) :
    (select cfg []).alone (unfailing cfg) w =
    some (.ok (some ⟨p.name, RateLimiter.grant p.limits p.name w⟩), w.chosen cfg p) := by
  obtain ⟨rest, first⟩ := h.first
  have run := alone_selectFrom_suits h.free h.configured h.suits rest
  rw [← first] at run
  exact run

variable (cfg) in
/-- A writing statement, and its commit. -/
theorem alone_execute {site : Site} {ss : List Stmt} {db : Db} (h : w.db.execAll ss = some db) :
    (execute site ss).alone (unfailing cfg) w = some (.ok (), { w with db := db }) := by
  simp only [execute, bind_eq]
  rw [alone_bind, RateLimiter.alone_flush]
  simp only [Option.bind_some]
  rw [alone_bind, RateLimiter.alone_commit cfg h]
  rfl

variable (cfg reply p) in
theorem alone_recordAttempt (present : m ∈ w.db.messages) :
    (recordAttempt m.id (m.attempts + 1) p.name w.clock (delivered [] (reply m.id))).alone
    (unfailing cfg) w =
      some (.ok (), { w with db := { w.db with
        attempts := w.db.attempts ++ [attemptOf reply p.name w.clock m] } }) := by
  have there : (w.db.messages.any fun x => x.id = (attemptOf reply p.name w.clock m).messageId) =
      true :=
    List.any_eq_true.mpr ⟨m, present, decide_eq_true rfl⟩
  have written : w.db.execAll [.insertAttempt (attemptOf reply p.name w.clock m)] =
      some { w.db with attempts := w.db.attempts ++ [attemptOf reply p.name w.clock m] } := by
    simp only [Db.execAll, Stmt.exec]
    rw [if_pos there]
    rfl
  simp only [recordAttempt, bind_eq]
  rw [alone_bind, RateLimiter.alone_utcnow]
  simp only [Option.bind_some]
  rw [alone_bind, show (⟨m.id, m.attempts + 1, p.name, w.clock, w.clock,
    (delivered [] (reply m.id)).classification, (delivered [] (reply m.id)).smtpCode,
    (delivered [] (reply m.id)).detail⟩ : DeliveryAttempt) = attemptOf reply p.name w.clock m
    from rfl, RateLimiter.alone_commit cfg written]
  rfl

variable (cfg) in
theorem alone_recordSuccess (free : w.locks (.breaker p.name) = none) :
    (CircuitBreaker.recordSuccess p.name).alone (unfailing cfg) w =
      some (.ok (), CircuitBreaker.stored w p.name
        (CircuitBreaker.succeeded (w.state p.name) w.clock)) :=
  CircuitBreaker.alone_change cfg .recordSuccess free CircuitBreaker.succeeded

theorem alone_markSent (id : ℕ) (claimedAt : Option Time) : (markSent id p.name claimedAt).alone
    (unfailing cfg) w =
    some (.ok (), { w with db := { w.db with
      messages := applyUpdate { ids := some [id] } (sentValues p.name w.clock) w.db.messages } }) := by
  simp only [markSent, bind_eq]
  rw [alone_bind, RateLimiter.alone_utcnow]
  have written : w.db.execAll [.updateMessages { ids := some [id] } (sentValues p.name w.clock)] =
    some { w.db with messages := applyUpdate { ids := some [id] } (sentValues p.name w.clock) w.db.messages } := rfl
  simp only [Option.bind_some]
  exact alone_execute cfg written

/-- `send` returns the reply, and the provider has the message. -/
theorem alone_relay (sender : String) (recipients : List String) (raw : Bytes) (errand : Errand) :
    (relay p sender recipients raw errand).alone (accepting cfg reply) w =
      some (.ok (delivered [] (reply errand.message)),
        { w with accepted := (p.name, errand) :: w.accepted }) := rfl

/-- What follows a relay that was a success. -/
theorem alone_settled (free : ∀ l, w.locks l = none) (id : ℕ) (claimedAt : Option Time)
    (r : Reservation) :
    ((RateLimiter.commitReservation r).bind fun _ =>
      (CircuitBreaker.recordSuccess p.name).bind fun _ =>
      markSent id p.name claimedAt).alone (unfailing cfg) w =
    some (.ok (), { w with
      inflight := Function.update w.inflight r.provider (w.inflight r.provider - 1)
      states := Function.update w.states p.name
        (some (CircuitBreaker.succeeded (w.state p.name) w.clock))
      db := { w.db with
        providerState := Function.update w.db.providerState p.name
          (some (CircuitBreaker.succeeded (w.state p.name) w.clock))
        messages := applyUpdate { ids := some [id] }
          (sentValues p.name w.clock) w.db.messages } }) := by
  have success := alone_recordSuccess cfg (w := RateLimiter.kept r w) (p := p) (free _)
  rw [alone_bind, RateLimiter.alone_commitReservation r (free _)]
  simp only [Option.bind_some]
  rw [alone_bind, success]
  simp only [Option.bind_some]
  rw [alone_markSent]
  rfl

/-- A cycle that starts with a provider that serves ends with it. -/
theorem alone_failover (h : Serving cfg p (n + 1) w) (present : m ∈ w.db.messages)
    (raw : Bytes) (k : ℕ) :
    (failover cfg m.id (.fromRow m) raw (k + 1) {}).alone (accepting cfg reply) w =
      some (.ok (), w.relayed cfg reply p m) := by
  obtain ⟨messages, -, -, -, locks, -⟩ := chosen_rest cfg p w
  have get : registryGet cfg p.name = .ret p := by
    simp only [registryGet, Settings.provider_of_mem h.configured]
  have there : m ∈ (w.chosen cfg p).db.messages := by rwa [messages]
  have ok : (delivered [] (reply m.id)).ok = true := rfl
  have recorded := alone_recordAttempt cfg reply p
    (w := { w.chosen cfg p with
      accepted := (p.name, ⟨m.id, RateLimiter.grant p.limits p.name w⟩) ::
        (w.chosen cfg p).accepted }) there
  simp only [failover, bind_eq]
  rw [alone_bind, alone_accepting (alone_select_serving h)]
  simp only [Option.bind_some]
  rw [alone_bind, alone_accepting (RateLimiter.alone_utcnow cfg)]
  simp only [Option.bind_some]
  rw [get, ret_bind, alone_bind, alone_relay]
  simp only [Option.bind_some]
  rw [alone_bind]
  erw [alone_accepting recorded]
  simp only [Option.bind_some]
  rw [if_pos ok]
  refine (alone_accepting (alone_settled (fun l => ?_) _ _ _)).trans rfl
  exact (congrFun locks l).trans (h.free l)

/-! ### One cycle -/

variable (reply) in
/-- The message is relayed. -/
theorem alone_process (h : Serving cfg p (n + 1) w) (ids : (w.db.messages.map Message.id).Nodup)
    (present : m ∈ w.db.messages) (live : m.status.terminal = false) (sendable : Sendable cfg w m) :
    (process cfg m.id).alone (accepting cfg reply) w = some (.ok (), w.relayed cfg reply p m) := by
  obtain ⟨raw, file⟩ := sendable.file
  have row : (query .process (.message m.id)).alone (accepting cfg reply) w =
      some (.ok (some m), w) := by
    have found := find_of_mem ids present
    simp [query, alone, accepting, unfailing, exec, Query.eval, found, Prog.ofExcept]
  have closed : (SmtpSwitch.commit .process []).alone (accepting cfg reply) w = some (.ok 0, w) :=
    rfl
  have young : ¬ (cfg.dispatch.retry.maxAgeHours : ℕ) * 3600 < w.clock -
      (MsgSnapshot.fromRow m).receivedAt :=
    not_lt.mpr sendable.young
  have read : (perform (.spoolRead m.spoolPath)).alone (accepting cfg reply) w =
      some (.ok (.ok raw), w) := by
    simp [perform, alone, accepting, unfailing, exec, file]
  obtain ⟨k, hk⟩ := Nat.exists_eq_succ_of_ne_zero cfg.dispatch.failoverPerTick.pos.ne'
  simp only [process, bind_eq]
  rw [alone_bind, row]
  simp only [Option.bind_some]
  rw [alone_bind, closed]
  simp only [Option.bind_some, live]
  simp only [Bool.false_eq_true, if_false, processSnapshot, bind_eq]
  rw [alone_bind, alone_accepting (RateLimiter.alone_utcnow cfg)]
  simp only [Option.bind_some]
  rw [alone_bind, show (MsgSnapshot.fromRow m).spoolPath = m.spoolPath from rfl, read]
  simp only [Option.bind_some]
  rw [if_neg young, hk]
  exact alone_failover h present raw k

/-- After a message there is room for one less. -/
theorem Serving.relayed (h : Serving cfg p (n + 1) w) (m : Message) :
    Serving cfg p n (w.relayed cfg reply p m) := by
  obtain ⟨-, -, -, clock, locks, overrides, -⟩ := chosen_rest cfg p w
  obtain ⟨sendLog, quota, inflight⟩ := chosen_limits cfg w p
  refine ⟨fun l => (congrFun locks l).trans (h.free l), ?_, ?_, ?_⟩
  · obtain ⟨rest, first⟩ := h.first
    exact ⟨rest, (congrArg (enabledProviders cfg) overrides).trans first⟩
  · have healthy : (w.relayed cfg reply p m).state p.name =
        CircuitBreaker.succeeded ((w.chosen cfg p).state p.name) (w.chosen cfg p).clock := by
      simp [World.state, World.relayed]
    rw [healthy]
    rfl
  · -- the slot is given back; what was counted against the other limits stays counted
    have back : (w.relayed cfg reply p m).inflight p.name = w.inflight p.name := by
      show Function.update (w.chosen cfg p).inflight p.name
        ((w.chosen cfg p).inflight p.name - 1) p.name = _
      rw [Function.update_self, inflight]
      simp [RateLimiter.granted]
    have session : RateLimiter.sessionRooms p.limits p.name (w.relayed cfg reply p m) =
        RateLimiter.sessionRooms p.limits p.name (RateLimiter.granted p.limits p.name w) := by
      simp only [RateLimiter.sessionRooms, RateLimiter.windowUse]
      rw [show (w.relayed cfg reply p m).clock =
        (RateLimiter.granted p.limits p.name w).clock from clock,
        show (w.relayed cfg reply p m).db.sendLog = _ from sendLog,
        show (w.relayed cfg reply p m).db.quota = _ from quota]
    intro r hr
    rw [RateLimiter.rooms_eq, back, session, List.mem_append] at hr
    rcases hr with hr | hr
    · have := h.room r (by rw [RateLimiter.rooms_eq]; exact List.mem_append_left _ hr)
      omega
    · have granted : r ∈ RateLimiter.rooms p.limits p.name
        (RateLimiter.granted p.limits p.name w) := by
        rw [RateLimiter.rooms_eq]
        exact List.mem_append_right _ hr
      rw [RateLimiter.rooms_granted] at granted
      obtain ⟨r', hr', rfl⟩ := List.mem_map.mp granted
      have := h.room r' hr'
      simp only
      omega

/-! ### A batch -/

/-- Who has accepted which message. -/
def told (x : String × Errand) : String × ℕ := (x.1, x.2.message)

/-- The provider has accepted these messages in this order, their rows and attempts say so, and
there is room for `n` more. -/
structure Delivered (cfg : Settings) (reply : ℕ → String) (p : ProviderConfig) (v : MessageValues)
    (n : ℕ) (batch : List Message) (w w' : World) : Prop where
  serving : Serving cfg p n w'
  messages : w'.db.messages = applyUpdate { ids := some (batch.map Message.id) } v w.db.messages
  attempts : w'.db.attempts = w.db.attempts ++ batch.map (attemptOf reply p.name w.clock)
  accepted : w'.accepted.map told = (batch.map fun m => (p.name, m.id)).reverse ++
    w.accepted.map told
  files : w'.files = w.files
  clock : w'.clock = w.clock
  up : w'.up = w.up

theorem applyUpdate_nil (v : MessageValues) (ms : List Message) :
    applyUpdate { ids := some [] } v ms = ms := by
  simp [applyUpdate, MessageWhere.holds]

theorem applyUpdate_append {ids ids' : List ℕ} (apart : ∀ id ∈ ids, id ∉ ids') (v : MessageValues)
    (ms : List Message) :
    applyUpdate { ids := some ids' } v (applyUpdate { ids := some ids } v ms) =
      applyUpdate { ids := some (ids ++ ids') } v ms := by
  simp only [applyUpdate, List.map_map]
  refine List.map_congr_left fun m _ => ?_
  by_cases first : m.id ∈ ids
  · have updated : (v.apply m).id ∉ ids' := apart m.id first
    simp [MessageWhere.holds, first, updated]
  · simp [MessageWhere.holds, first]

theorem Delivered.nil {v : MessageValues} (h : Serving cfg p n w) :
    Delivered cfg reply p v n [] w w :=
  ⟨h, (applyUpdate_nil _ _).symm, (List.append_nil _).symm, rfl, rfl, rfl, rfl⟩

/-- One batch after the other. -/
theorem Delivered.append {v : MessageValues} {n' : ℕ} {batch batch' : List Message} {w'' : World}
    (h : Delivered cfg reply p v n batch w w') (h' : Delivered cfg reply p v n' batch' w' w'')
    (apart : ((batch ++ batch').map Message.id).Nodup) :
    Delivered cfg reply p v n' (batch ++ batch') w w'' := by
  rw [List.map_append, List.nodup_append] at apart
  refine ⟨h'.serving, ?_, ?_, ?_, h'.files.trans h.files, h'.clock.trans h.clock, h'.up.trans h.up⟩
  · rw [h'.messages, h.messages, List.map_append]
    exact applyUpdate_append (fun id hid hid' => apart.2.2 id hid id hid' rfl) _ _
  · rw [h'.attempts, h.attempts, h.clock, List.map_append, List.append_assoc]
  · rw [h'.accepted, h.accepted, List.map_append, List.reverse_append, List.append_assoc]

variable (reply) in
/-- One message. -/
theorem delivered_relayed (h : Serving cfg p (n + 1) w) (m : Message) :
    Delivered cfg reply p (sentValues p.name w.clock) n [m] w (w.relayed cfg reply p m) := by
  obtain ⟨messages, attempts, files, clock, -, -, -, accepted, up⟩ := chosen_rest cfg p w
  refine ⟨h.relayed m, ?_, ?_, ?_, files, clock, up⟩
  · show applyUpdate _ (sentValues p.name (w.chosen cfg p).clock) (w.chosen cfg p).db.messages = _
    rw [clock, messages]
    rfl
  · show (w.chosen cfg p).db.attempts ++ [attemptOf reply p.name (w.chosen cfg p).clock m] = _
    rw [attempts, clock]
    rfl
  · show (p.name, m.id) :: (w.chosen cfg p).accepted.map told = _
    rw [accepted]
    rfl

variable {jobs : Job → Bool} {i : ℕ}

variable (reply) in
/-- A consumer relays what is in the queue. -/
theorem consumers_end (run : jobs .consumer = true) (other : i ≠ 0) :
    ∀ {batch : List Message} {s : Pool Op Op.Ans Exc World Job ℚ},
    s.tasks i = none → s.shared.up = true → Serving cfg p (batch.length + n) s.shared →
    s.shared.queue = batch.map Message.id → (batch.map Message.id).Nodup →
    (s.shared.db.messages.map Message.id).Nodup → (∀ m ∈ batch, m ∈ s.shared.db.messages) →
    (∀ m ∈ batch, m.status.terminal = false) → (∀ m ∈ batch, Sendable cfg s.shared m) →
    (system cfg jobs).Ends (AllAccepted reply)
    (List.replicate batch.length (i, .consumer)) s fun s' =>
      s'.shared.queue = [] ∧
        Delivered cfg reply p (sentValues p.name s.shared.clock) n batch s.shared s'.shared
  | [], s, _, _, h, queue, _, _, _, _, _ => by
    rw [List.length_nil, Nat.zero_add] at h
    exact .nil ⟨queue, .nil h⟩
  | m :: rest, s, idle, up, h, queue, distinct, ids, present, live, sendable => by
    have popped : Serving cfg p (rest.length + n + 1)
        { s.shared with queue := rest.map Message.id } := by
      refine ⟨h.free, h.first, h.up, fun r hr => ?_⟩
      have := h.room r hr
      rw [List.length_cons] at this
      omega
    have relayed := alone_process reply popped ids (present m List.mem_cons_self)
        (live m List.mem_cons_self)
      ⟨(sendable m List.mem_cons_self).file, (sendable m List.mem_cons_self).young⟩
    have alone : (consumer cfg).alone (accepting cfg reply) s.shared =
        some (.ok (), ({ s.shared with queue := rest.map Message.id } :
          World).relayed cfg reply p m) := by
      have get : (perform .queueGet).alone (accepting cfg reply) s.shared =
          some (.ok m.id, { s.shared with queue := rest.map Message.id }) := by
        simp [perform, alone, accepting, unfailing, exec, queue]
      simp only [consumer, bind_eq]
      rw [alone_bind, get]
      exact alone_handle relayed
    have first := delivered_relayed reply popped m
    have admitted : Job.admitted jobs i .consumer s.shared = true := by
      simp [Job.admitted, run, other, up]
    refine (ends_of_accepting (j := .consumer) alone h.free first.serving.free idle admitted).cons
      fun s₁ turn shared => ?_
    obtain ⟨-, -, -, -, -, -, left, -⟩ :=
      chosen_rest cfg p { s.shared with queue := rest.map Message.id }
    obtain ⟨new, distinct'⟩ := List.nodup_cons.mp distinct
    have apart : ∀ m' ∈ rest, m'.id ≠ m.id :=
      fun m' hm' same => new (same ▸ List.mem_map_of_mem hm')
    -- the turn has changed no other row of the batch, and no file
    rw [← shared] at first
    have after : ∀ m' ∈ rest, Sendable cfg s₁.shared m' := fun m' hm' => by
      have before := sendable m' (List.mem_cons_of_mem _ hm')
      exact ⟨(congrFun first.files m'.spoolPath).symm ▸ before.file,
        first.clock.symm ▸ before.young⟩
    have remain : ∀ m' ∈ rest, m' ∈ s₁.shared.db.messages := fun m' hm' => by
      rw [first.messages]
      refine List.mem_map.mpr ⟨m', present m' (List.mem_cons_of_mem _ hm'), if_neg ?_⟩
      simp [MessageWhere.holds, apart m' hm']
    have others := consumers_end run other (congrFun turn.tasks i ▸ idle) (first.up.trans up)
      first.serving (by rw [shared]; exact left) distinct'
      (by rw [first.messages, ids_applyUpdate]; exact ids) remain
      (fun m' hm' => live m' (List.mem_cons_of_mem _ hm')) after
    refine others.mono fun s' _ h' => ?_
    obtain ⟨done, sent⟩ := h'
    refine ⟨done, ?_⟩
    rw [first.clock] at sent
    have both := first.append sent distinct
    exact ⟨both.serving, both.messages, both.attempts, both.accepted, both.files,
      both.clock, both.up⟩

/-! ### A turn of the producer -/

/-- The messages that are due, in the order of the claims. -/
def due (w : World) : List Message :=
  (w.db.messages.filter fun m => m.status = .queued ∧ m.nextAttemptAt ≤ w.clock).insertionSort
    Message.before

theorem mem_due : m ∈ due w ↔ m ∈ w.db.messages ∧ m.status = .queued ∧
    m.nextAttemptAt ≤ w.clock := by
  rw [due, List.mem_insertionSort, List.mem_filter, decide_eq_true_eq]

theorem ids_due (ids : (w.db.messages.map Message.id).Nodup) : ((due w).map Message.id).Nodup := by
  have filtered := ids.sublist ((List.filter_sublist
    (p := fun m => decide (m.status = .queued ∧ m.nextAttemptAt ≤ w.clock))).map Message.id)
  exact ((List.perm_insertionSort Message.before _).map Message.id).nodup_iff.mpr filtered

/-- The world after a turn of the producer that has claimed a batch. -/
def World.claimed (batch : List Message) (w : World) : World :=
  { w with
    queue := batch.map Message.id
    db := { w.db with
      messages := applyUpdate { ids := some (batch.map Message.id) }
        (claimValues w.clock) w.db.messages } }

variable (cfg) in
theorem alone_putAll : ∀ {ids : List ℕ} {w : World}, w.queue.length + ids.length ≤
    cfg.dispatch.claimBatchSize * 2 →
    (putAll ids).alone (unfailing cfg) w = some (.ok (), { w with queue := w.queue ++ ids })
  | [], w, _ => by
    rw [List.append_nil]
    rfl
  | id :: ids, w, fits => by
    rw [List.length_cons] at fits
    have put : (perform (.queuePut id)).alone (unfailing cfg) w =
        some (.ok (), { w with queue := w.queue ++ [id] }) := by
      have room : w.queue.length < (cfg.dispatch.claimBatchSize : ℕ) * 2 := by omega
      simp [perform, alone, unfailing, exec, room]
    have rest := alone_putAll (w := { w with queue := w.queue ++ [id] })
      (show _ + ids.length ≤ _ by simp only [List.length_append, List.length_singleton]; omega)
    simp only [putAll, bind_eq]
    rw [alone_bind, put]
    simp only [Option.bind_some]
    rw [rest, List.append_assoc]
    rfl

variable (cfg reply) in
/-- A turn of the producer claims the first messages that are due, if there are any. -/
theorem alone_producer (empty : w.queue = []) (some_due : due w ≠ []) :
    (producer cfg).alone (accepting cfg reply) w =
      some (.ok (), w.claimed ((due w).take cfg.dispatch.claimBatchSize)) := by
  have claims : ((due w).take cfg.dispatch.claimBatchSize).map Message.id ≠ [] := by
    have := cfg.dispatch.claimBatchSize.pos
    simp only [ne_eq, List.map_eq_nil_iff, List.take_eq_nil_iff]
    rintro (no_room | nothing)
    · omega
    · exact some_due nothing
  have batch : (claimBatch cfg.dispatch.claimBatchSize).alone (unfailing cfg) w =
      some (.ok (((due w).take cfg.dispatch.claimBatchSize).map Message.id),
        { w.claimed ((due w).take cfg.dispatch.claimBatchSize) with queue := w.queue }) := by
    have selected : (query .claimBatch (.dueMessages w.clock cfg.dispatch.claimBatchSize)).alone
        (unfailing cfg) w =
        some (.ok (((due w).take cfg.dispatch.claimBatchSize).map Message.id), w) := rfl
    have written : w.db.execAll [.updateMessages
        { ids := some (((due w).take cfg.dispatch.claimBatchSize).map Message.id) }
        (claimValues w.clock)] =
      some (w.claimed ((due w).take cfg.dispatch.claimBatchSize)).db := rfl
    simp only [claimBatch, bind_eq]
    rw [alone_bind, RateLimiter.alone_utcnow]
    simp only [Option.bind_some]
    rw [alone_bind, selected]
    simp only [Option.bind_some]
    rw [if_neg claims, alone_bind, show ({ status := .sending, claimedAt := some (some w.clock) } :
      MessageValues) =
      claimValues w.clock from rfl, alone_execute cfg written]
    rfl
  have fits : w.queue.length + (((due w).take cfg.dispatch.claimBatchSize).map Message.id).length ≤
      cfg.dispatch.claimBatchSize * 2 := by
    rw [empty, List.length_map, List.length_take, List.length_nil]
    omega
  have queued := alone_putAll cfg
    (w := { w.claimed ((due w).take cfg.dispatch.claimBatchSize) with queue := w.queue }) fits
  refine alone_handle (alone_accepting ?_)
  simp only [claimAndQueue, bind_eq]
  rw [alone_bind, batch]
  simp only [Option.bind_some]
  rw [alone_bind, queued]
  simp only [Option.bind_some]
  rw [if_neg claims, empty]
  rfl

/-- The messages after the first `k` are those that are not among these. -/
theorem filter_due (ids : (w.db.messages.map Message.id).Nodup) (k : ℕ) :
    ((due w).filter fun m => m.id ∉ ((due w).take k).map Message.id) = (due w).drop k := by
  have distinct := ids_due ids
  rw [← List.take_append_drop k (due w), List.map_append] at distinct
  have apart := (List.nodup_append.mp distinct).2.2
  conv_lhs => rw [← List.take_append_drop k (due w)]
  rw [List.filter_append, List.take_append_drop]
  have taken : ((due w).take k).filter (fun m => m.id ∉ ((due w).take k).map Message.id) = [] := by
    refine List.filter_eq_nil_iff.mpr fun m hm => ?_
    simp only [decide_eq_true_eq, not_not]
    exact List.mem_map_of_mem hm
  have kept : ((due w).drop k).filter (fun m => m.id ∉ ((due w).take k).map Message.id) =
      (due w).drop k := by
    refine List.filter_eq_self.mpr fun m hm => decide_eq_true fun h => ?_
    exact apart _ h _ (List.mem_map_of_mem hm) rfl
  rw [taken, kept, List.nil_append]

/-- The rows that are due after an update that takes some from the queue. -/
theorem filter_applyUpdate {v : MessageValues} (left : v.status ≠ .queued) (gone : List ℕ)
    (now : Time) :
    ∀ ms : List Message,
      ((applyUpdate { ids := some gone } v ms).filter fun m => m.status = .queued ∧
        m.nextAttemptAt ≤ now) =
      (ms.filter fun m => m.status = .queued ∧ m.nextAttemptAt ≤ now).filter fun m => m.id ∉ gone
  | [] => rfl
  | m :: ms => by
    have rest := filter_applyUpdate left gone now ms
    simp only [applyUpdate] at rest
    simp only [applyUpdate, List.map_cons, List.filter_cons, rest]
    by_cases claimed : m.id ∈ gone
    · have updated : (MessageWhere.holds { ids := some gone } m) = true := by
        simp [MessageWhere.holds, claimed]
      rw [if_pos updated, if_neg (by simp [MessageValues.apply, left])]
      split
      · rw [List.filter_cons_of_neg (by simp [claimed])]
      · rfl
    · have same : ¬ (MessageWhere.holds { ids := some gone } m) = true := by
        simp [MessageWhere.holds, claimed]
      rw [if_neg same]
      split
      · rw [List.filter_cons_of_pos (by simp [claimed])]
      · rfl

/-- What is claimed is no longer due; the others are, in the same order. -/
theorem due_claimed (ids : (w.db.messages.map Message.id).Nodup) {v : MessageValues}
    (left : v.status ≠ .queued) (k : ℕ) (messages : w'.db.messages =
      applyUpdate { ids := some (((due w).take k).map Message.id) } v w.db.messages)
    (clock : w'.clock = w.clock) : due w' = (due w).drop k := by
  have sorted : (due w).Pairwise Message.before := List.pairwise_insertionSort Message.before _
  have perm : (due w').Perm ((due w).drop k) := by
    rw [← filter_due ids]
    unfold due
    rw [messages, clock, filter_applyUpdate left]
    exact (List.perm_insertionSort _ _).trans
      ((List.perm_insertionSort Message.before _).symm.filter _)
  refine List.Perm.eq_of_pairwise (fun a b ha hb le ge => ?_)
    (List.pairwise_insertionSort Message.before _) (sorted.sublist (List.drop_sublist _ _)) perm
  have there : ∀ {m}, m ∈ (due w).drop k → m ∈ w.db.messages :=
    fun hm => (mem_due.mp (List.mem_of_mem_drop hm)).1
  refine List.inj_on_of_nodup_map ids (there (perm.subset ha)) (there hb) ?_
  rcases le with lt | ⟨eq, le⟩
  · rcases ge with gt | ⟨eq, -⟩
    · exact absurd gt lt.not_gt
    · exact absurd eq lt.ne'
  · rcases ge with gt | ⟨-, ge⟩
    · exact absurd eq gt.ne'
    · exact le_antisymm le ge

/-! ### Rounds -/

/-- What becomes of a row. -/
def relayedValues (p : String) (now : Time) : MessageValues :=
  { status := .sent, providerUsed := some (some p), sentAt := some (some now),
    lastError := some none, claimedAt := some (some now) }

/-- A turn of the producer, and turns of consumer `i` for what it has claimed of `n` messages. -/
def dispatchRound (cfg : Settings) (i n : ℕ) : List (ℕ × Job) :=
  (0, .producer) :: List.replicate (min cfg.dispatch.claimBatchSize n) (i, .consumer)

/-- `k` rounds, `n` messages due at the first. -/
def dispatchRounds (cfg : Settings) (i : ℕ) : ℕ → ℕ → List (ℕ × Job)
  | 0, _ => []
  | k + 1, n => dispatchRound cfg i n ++ dispatchRounds cfg i k (n - cfg.dispatch.claimBatchSize)

variable (cfg reply) in
/-- A turn of the producer that finds nothing waits until the poll interval is over. -/
theorem alone_producer_idle (nothing : due w = []) :
    (producer cfg).alone (accepting cfg reply) w = some (.ok (), { w with wakeup := false }) := by
  have selected : (query .claimBatch (.dueMessages w.clock cfg.dispatch.claimBatchSize)).alone
      (accepting cfg reply) w = some (.ok [], w) := by
    have unclaimed : selectDue w.db.messages w.clock cfg.dispatch.claimBatchSize = [] := by
      show ((due w).take _).map Message.id = []
      rw [nothing, List.take_nil]
      rfl
    simp [query, alone, accepting, unfailing, exec, Query.eval, unclaimed, Prog.ofExcept]
  have batch : (claimBatch cfg.dispatch.claimBatchSize).alone (accepting cfg reply) w =
      some (.ok [], w) := by
    simp only [claimBatch, bind_eq]
    rw [alone_bind, alone_accepting (RateLimiter.alone_utcnow cfg)]
    simp only [Option.bind_some]
    rw [alone_bind, selected]
    rfl
  refine alone_handle ?_
  simp only [claimAndQueue, bind_eq]
  rw [alone_bind, batch]
  rfl

theorem applyUpdate_claimed (gone : List ℕ) (name : String) (now : Time) (ms : List Message) :
    applyUpdate { ids := some gone } (sentValues name now)
      (applyUpdate { ids := some gone } (claimValues now) ms) =
      applyUpdate { ids := some gone } (relayedValues name now) ms := by
  simp only [applyUpdate, List.map_map]
  refine List.map_congr_left fun m _ => ?_
  by_cases claimed : m.id ∈ gone
  · have still : ((claimValues now).apply m).id ∈ gone := claimed
    simp only [Function.comp_apply, MessageWhere.holds, Option.all_some, Option.all_none,
      Bool.and_true, decide_eq_true_eq, if_pos claimed, if_pos still]
    rfl
  · simp [MessageWhere.holds, claimed]

variable (reply) in
/-- One round delivers the first messages that are due. -/
theorem round_ends (claim : jobs .producer = true) (run : jobs .consumer = true) (other : i ≠ 0)
    {s : Pool Op Op.Ans Exc World Job ℚ} (idle : s.tasks 0 = none ∧ s.tasks i = none)
    (up : s.shared.up = true)
    (h : Serving cfg p ((due s.shared).length + n) s.shared) (empty : s.shared.queue = [])
    (ids : (s.shared.db.messages.map Message.id).Nodup) (sendable : ∀ m ∈ due s.shared,
      Sendable cfg s.shared m) :
    (system cfg jobs).Ends (AllAccepted reply)
    (dispatchRound cfg i (due s.shared).length) s fun s' =>
      s'.shared.queue = [] ∧
        Delivered cfg reply p (relayedValues p.name s.shared.clock)
          (((due s.shared).drop cfg.dispatch.claimBatchSize).length + n)
          ((due s.shared).take cfg.dispatch.claimBatchSize) s.shared s'.shared := by
  have admitted : Job.admitted jobs 0 .producer s.shared = true := by simp [Job.admitted, claim, up]
  by_cases nothing : due s.shared = []
  · have alone := alone_producer_idle cfg reply nothing
    have turn := ends_of_accepting (j := .producer) alone h.free h.free idle.1 admitted
    rw [nothing] at h ⊢
    rw [dispatchRound, List.length_nil, Nat.min_zero]
    refine turn.mono fun s' _ shared => ⟨by rw [shared]; exact empty, ?_⟩
    rw [shared, List.drop_nil, List.take_nil]
    exact ⟨⟨h.free, h.first, h.up, h.room⟩, (applyUpdate_nil _ _).symm, (List.append_nil _).symm,
      rfl, rfl, rfl, rfl⟩
  · have claimed := alone_producer cfg reply empty nothing
    rw [dispatchRound]
    refine (ends_of_accepting (j := .producer) claimed h.free h.free idle.1 admitted).cons
      fun s₁ turn shared => ?_
    generalize hb : (cfg.dispatch.claimBatchSize : ℕ) = b at shared ⊢
    -- the consumer reads the rows as the claim has left them
    have taken : ∀ m ∈ (due s.shared).take b, m ∈ due s.shared :=
      fun m hm => List.mem_of_mem_take hm
    have serving : Serving cfg p
        ((((due s.shared).take b).map (claimValues s.shared.clock).apply).length +
        (((due s.shared).drop b).length + n)) (s.shared.claimed ((due s.shared).take b)) := by
      refine ⟨h.free, h.first, h.up, fun r hr => ?_⟩
      have := h.room r hr
      rw [List.length_map, List.length_take, List.length_drop]
      omega
    have names : (((due s.shared).take b).map (claimValues s.shared.clock).apply).map Message.id =
        ((due s.shared).take b).map Message.id := by
      rw [List.map_map]
      rfl
    rw [← shared] at serving
    have present : ∀ m ∈ ((due s.shared).take b).map (claimValues s.shared.clock).apply,
        m ∈ s₁.shared.db.messages := fun m' hm' => by
      obtain ⟨m, hm, rfl⟩ := List.mem_map.mp hm'
      rw [shared]
      refine List.mem_map.mpr ⟨m, (mem_due.mp (taken m hm)).1, if_pos ?_⟩
      have claimed : m.id ∈ ((due s.shared).take b).map Message.id := List.mem_map_of_mem hm
      simp only [MessageWhere.holds, Option.all_some, Option.all_none, Bool.and_true,
        decide_eq_true_eq]
      exact claimed
    have live : ∀ m ∈ ((due s.shared).take b).map (claimValues s.shared.clock).apply,
        m.status.terminal = false := fun m' hm' => by
      obtain ⟨m, -, rfl⟩ := List.mem_map.mp hm'
      rfl
    have still : ∀ m ∈ ((due s.shared).take b).map (claimValues s.shared.clock).apply,
        Sendable cfg s₁.shared m := fun m' hm' => by
      obtain ⟨m, hm, rfl⟩ := List.mem_map.mp hm'
      rw [shared]
      exact ⟨(sendable m (taken m hm)).file, (sendable m (taken m hm)).young⟩
    have relays := consumers_end reply run other (congrFun turn.tasks i ▸ idle.2)
      (by rw [shared]; exact up) serving (by rw [shared, names]; rfl)
      (by rw [names]; exact (ids_due ids).sublist ((List.take_sublist _ _).map _))
      (by rw [shared]
          show ((applyUpdate _ _ s.shared.db.messages).map Message.id).Nodup
          rw [ids_applyUpdate]
          exact ids)
      present live still
    rw [List.length_map, List.length_take] at relays
    have clock : s₁.shared.clock = s.shared.clock := by
      rw [shared]
      rfl
    refine relays.mono fun s' _ h' => ?_
    obtain ⟨done, sent⟩ := h'
    rw [clock] at sent
    refine ⟨done, sent.serving, ?_, ?_, ?_, ?_, ?_, ?_⟩
    · rw [sent.messages, names, shared]
      exact applyUpdate_claimed _ _ _ _
    · rw [sent.attempts, clock, shared, List.map_map]
      rfl
    · rw [sent.accepted, shared, List.map_map]
      rfl
    · rw [sent.files, shared]
      rfl
    · rw [sent.clock, clock]
    · rw [sent.up, shared]
      rfl

variable (reply) in
/-- Each round goes on where the last one stopped. -/
theorem rounds_end (claim : jobs .producer = true) (run : jobs .consumer = true) (other : i ≠ 0) :
    ∀ (k : ℕ) {s : Pool Op Op.Ans Exc World Job ℚ}, s.tasks 0 = none ∧ s.tasks i = none →
    s.shared.up = true → Serving cfg p (due s.shared).length s.shared → s.shared.queue = [] →
    (s.shared.db.messages.map Message.id).Nodup → (∀ m ∈ due s.shared, Sendable cfg s.shared m) →
    (system cfg jobs).Ends (AllAccepted reply)
    (dispatchRounds cfg i k (due s.shared).length) s fun s' =>
      s'.shared.queue = [] ∧
      Delivered cfg reply p (relayedValues p.name s.shared.clock)
        ((due s.shared).drop (k * cfg.dispatch.claimBatchSize)).length
        ((due s.shared).take (k * cfg.dispatch.claimBatchSize)) s.shared s'.shared ∧
      due s'.shared = (due s.shared).drop (k * cfg.dispatch.claimBatchSize)
  | 0, s, _, _, h, empty, _, _ => by
    rw [Nat.zero_mul, List.take_zero, List.drop_zero]
    exact .nil ⟨empty, .nil h, rfl⟩
  | k + 1, s, idle, up, h, empty, ids, sendable => by
    have gone : (relayedValues p.name s.shared.clock).status ≠ .queued := MessageStatus.noConfusion
    refine (round_ends reply (n := 0) claim run other idle up h empty ids sendable).append
      fun s₁ turns h₁ => ?_
    obtain ⟨empty₁, first⟩ := h₁
    have left := due_claimed ids gone cfg.dispatch.claimBatchSize first.messages first.clock
    have remains : ∀ m ∈ due s₁.shared, Sendable cfg s₁.shared m := fun m hm => by
      rw [left] at hm
      have before := sendable m (List.mem_of_mem_drop hm)
      exact ⟨(congrFun first.files m.spoolPath).symm ▸ before.file, first.clock.symm ▸ before.young⟩
    have serving : Serving cfg p (due s₁.shared).length s₁.shared := by
      rw [left]
      exact first.serving
    have idle₁ : s₁.tasks 0 = none ∧ s₁.tasks i = none := by
      rw [turns.tasks]
      exact idle
    have rest := rounds_end claim run other k idle₁ (first.up.trans up) serving empty₁
      (by rw [first.messages, ids_applyUpdate]; exact ids) remains
    rw [left, List.length_drop] at rest
    refine rest.mono fun s' _ h' => ?_
    obtain ⟨done, others, due'⟩ := h'
    rw [first.clock] at others
    have split : (due s.shared).take ((k + 1) * cfg.dispatch.claimBatchSize) =
        (due s.shared).take cfg.dispatch.claimBatchSize ++
          ((due s.shared).drop cfg.dispatch.claimBatchSize).take
          (k * cfg.dispatch.claimBatchSize) := by
      rw [← List.take_add]
      congr 1
      ring
    have after : (due s.shared).drop ((k + 1) * cfg.dispatch.claimBatchSize) =
        ((due s.shared).drop cfg.dispatch.claimBatchSize).drop
        (k * cfg.dispatch.claimBatchSize) := by
      rw [List.drop_drop]
      congr 1
      ring
    have both := first.append others (by
      rw [← split]
      exact (ids_due ids).sublist ((List.take_sublist _ _).map _))
    rw [split, after]
    exact ⟨done, both, due'⟩

/-- **A backlog is delivered.** At any point of a run the first provider is up and has room for
all messages that are due, each of these has its file and is not too old, and no lock is taken and
no id queued. Then `k` rounds can be run, while the clock stands still; and every run of them in
which nothing fails and the provider accepts what it is sent, whatever it replies, relays the
first `k * claim_batch_size` of the messages through it, in the order of the claims and each once.
Their rows say so, with one attempt each, and all other rows and the files are as they were. What
is left is due still. -/
theorem backlog_delivered (cfg : Settings) (reply : ℕ → String) (jobs : Job → Bool)
    (claim : jobs .producer = true) (run : jobs .consumer = true) {i : ℕ} (other : i ≠ 0)
    {p : ProviderConfig} (k : ℕ) {s : Pool Op Op.Ans Exc World Job ℚ}
    (idle : s.tasks 0 = none ∧ s.tasks i = none) (up : s.shared.up = true)
    (h : Serving cfg p (due s.shared).length s.shared) (empty : s.shared.queue = [])
    (ids : (s.shared.db.messages.map Message.id).Nodup)
    (sendable : ∀ m ∈ due s.shared, Sendable cfg s.shared m) :
    (∃ s', (system cfg jobs).Turns (AllAccepted reply)
      (dispatchRounds cfg i k (due s.shared).length) s s') ∧
    ∀ s', (system cfg jobs).Turns (AllAccepted reply)
        (dispatchRounds cfg i k (due s.shared).length) s s' →
      s'.shared.queue = [] ∧
      Delivered cfg reply p (relayedValues p.name s.shared.clock)
        ((due s.shared).drop (k * cfg.dispatch.claimBatchSize)).length
        ((due s.shared).take (k * cfg.dispatch.claimBatchSize)) s.shared s'.shared ∧
      due s'.shared = (due s.shared).drop (k * cfg.dispatch.claimBatchSize) :=
  rounds_end reply claim run other k idle up h empty ids sendable

namespace Example

/-- The process is up, two messages are due, and the provider takes two a day: in every run of the
round it takes both, and answers each with a text of its own. -/
theorem backlog_delivered_twoDue :
    (∃ s', (system twoPerDay Job.ofProcess).Turns (AllAccepted fun id =>
      if id = 1 then "OK" else "Ok, 2")
      (dispatchRounds twoPerDay 1 1 2) (Machine.boot { twoDue with up := true }) s') ∧
    ∀ s', (system twoPerDay Job.ofProcess).Turns (AllAccepted fun id =>
      if id = 1 then "OK" else "Ok, 2")
        (dispatchRounds twoPerDay 1 1 2) (Machine.boot { twoDue with up := true }) s' →
      s'.shared.accepted.map told = [("p", 2), ("p", 1)] ∧
      s'.shared.db.attempts.map DeliveryAttempt.error = ["OK", "Ok, 2"] ∧
      due s'.shared = [] := by
  have two : due { twoDue with up := true } = [dueMessage 1, dueMessage 2] := by decide +kernel
  have serving : Serving twoPerDay ⟨"p", true, 100, { host := "mx" }, { perDay := some 2 }⟩ 2
      { twoDue with up := true } := ⟨fun _ => rfl, ⟨[], rfl⟩, rfl, by decide⟩
  have new : ∀ m ∈ due { twoDue with up := true }, m.receivedAt = twoDue.clock := by
    rw [two]
    decide
  obtain ⟨can, always⟩ := backlog_delivered twoPerDay (fun id => if id = 1 then "OK" else "Ok, 2")
    Job.ofProcess rfl rfl Nat.one_ne_zero 1 (s := Machine.boot { twoDue with up := true })
      ⟨rfl, rfl⟩ rfl
    (by rw [show due (Machine.boot _ : Pool Op Op.Ans Exc World Job ℚ).shared = _ from two]; exact serving)
    rfl (by decide) fun m hm =>
      ⟨⟨[], rfl⟩, by rw [new m hm]; exact (sub_self _).le.trans (by positivity)⟩
  rw [show due (Machine.boot _ : Pool Op Op.Ans Exc World Job ℚ).shared = _ from two] at can always
  refine ⟨can, fun s' turns => ?_⟩
  obtain ⟨-, sent, left⟩ := always s' turns
  exact ⟨sent.accepted, (congrArg (List.map DeliveryAttempt.error) sent.attempts).trans (by decide),
    left⟩

end Example

end SmtpSwitch
