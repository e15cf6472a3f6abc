import SmtpSwitch.Breaker.Probes
import SmtpSwitch.Delivery.Budget
import SmtpSwitch.Delivery.Requeue
import SmtpSwitch.Delivery.Table

/-!
# What a requeue buys

A requeue sets the attempts of a message back to 0, but its age stays what it is. So the next
cycle asks the router for a provider if and only if the message is not too old by then; and as
long as no requeue hits a message that is being sent or leaves its attempts alone, the message
is given up after too many attempts only in the `max_attempts`-th cycle that has relayed it
since (`requeue_buys_retry`). -/

namespace SmtpSwitch

open Coop Coop.Prog

/-! ### The next cycle -/

/-- The router is asked for a provider, and if it finds one, the message is handed to it. -/
def Retries (cfg : Settings) (evs : Events) : Prop :=
  ∃ chosen r post, evs = chosen ++ post ∧ (select cfg []).Path chosen r ∧
    ∀ d, r = .ok (some d) → ∃ out, Relayed d.provider out post

section Paths

variable {cfg : Settings} {messageId : ℕ} {snapshot : MsgSnapshot} {raw : Bytes} {evs : Events}
  {r : Except Exc Unit}

theorem Retries.append (h : Retries cfg evs) (rest : Events) : Retries cfg (evs ++ rest) := by
  obtain ⟨chosen, r, post, rfl, hc, relays⟩ := h
  refine ⟨chosen, r, post ++ rest, List.append_assoc .., hc, fun d hd => ?_⟩
  obtain ⟨out, hr⟩ := relays d hd
  exact ⟨out, relayed_append.mpr (.inl hr)⟩

/-- Who asks the router does not begin with a statement. -/
theorem Retries.not_flush {site : Site} {a : Except Exc Unit} {rest : Events} :
    ¬ Retries cfg (⟨.flush site, a⟩ :: rest) := by
  rintro ⟨chosen, r, post, heq, hc, -⟩
  obtain ⟨rows, tail, rfl, -⟩ := hc
  cases heq

/-- The failover loop asks the router first. -/
theorem retries_of_failover {n : ℕ} {cycle : Cycle} (first : cycle.tried = [])
    (h : (failover cfg messageId snapshot raw (n + 1) cycle).Path evs r) : Retries cfg evs := by
  unfold failover at h
  rw [first] at h
  rcases path_bind.mp h with ⟨e, -, he⟩ | ⟨chosen, decision, post, rfl, hchosen, hturn⟩
  · exact ⟨evs, .error e, [], (List.append_nil _).symm, he, fun d hd => by cases hd⟩
  refine ⟨chosen, .ok decision, post, rfl, hchosen, fun d hd => ?_⟩
  cases hd
  obtain ⟨c, hp⟩ := ((tame_select cfg []).path hchosen d rfl).configured
  obtain ⟨t, rest, rfl, hturn⟩ := hturn
  simp only [ret_bind] at hturn
  have relayed : ∀ {sent rest' : Events} {r' : Except Exc RelayResult},
      ((registryGet cfg d.provider).bind fun p => relay p snapshot.fromAddr snapshot.rcptTo raw
        ⟨messageId, d.reservation⟩).Path sent r' →
      ∃ out, Relayed d.provider out (⟨.utcnow, t⟩ :: (sent ++ rest')) := by
    intro sent rest' r' h
    simp only [registryGet, hp, ret_bind] at h
    obtain ⟨out, tail, rfl, -⟩ := h
    rw [← Settings.provider_name hp]
    exact ⟨out, _, _, _, _, _, List.mem_cons_of_mem _ List.mem_cons_self⟩
  rcases path_bind.mp hturn with ⟨e, -, he⟩ | ⟨sent, result, rest, rfl, hrelay, -⟩
  · obtain ⟨out, hout⟩ : ∃ out, Relayed d.provider out (⟨.utcnow, t⟩ :: (_ ++ [])) := relayed he
    rw [List.append_nil] at hout
    exact ⟨out, hout⟩
  · exact relayed hrelay

/-- What a cycle does once it has read the file: it asks the router, unless the message is too
old. -/
theorem processSnapshot_retries {now : Time} {path : String} {rest : Events}
    (h : (processSnapshot cfg messageId snapshot).Path (⟨.utcnow, now⟩ :: ⟨.spoolRead path,
      .ok raw⟩ :: rest) r) :
    if (cfg.dispatch.retry.maxAgeHours : ℕ) * 3600 < now - snapshot.receivedAt then
      ∃ a tail, rest = ⟨.flush .deadletter, a⟩ :: tail
    else Retries cfg rest := by
  obtain ⟨_, _, heq, h⟩ := h
  cases heq
  obtain ⟨_, _, heq, h⟩ := h
  cases heq
  simp only [ret_bind] at h
  split
  · rename_i old
    rw [if_pos old] at h
    obtain ⟨a, tail, rfl, -⟩ := h
    exact ⟨a, tail, rfl⟩
  · rename_i young
    rw [if_neg young] at h
    obtain ⟨n, hn⟩ := Nat.exists_eq_succ_of_ne_zero cfg.dispatch.failoverPerTick.ne_zero
    rw [hn] at h
    exact retries_of_failover rfl h

/-- The same of a whole turn of a consumer. -/
theorem consumer_retries {row : Message} {n : ℕ} {now : Time} {path : String} {rest : Events}
    (h : (consumer cfg).Path (⟨.queueGet, messageId⟩ :: ⟨.select .process (.message messageId),
      .ok (some row)⟩ ::
      ⟨.commit .process [], .ok n⟩ :: ⟨.utcnow, now⟩ :: ⟨.spoolRead path, .ok raw⟩ :: rest) r) :
    Retries cfg rest ↔ now - row.receivedAt ≤ (cfg.dispatch.retry.maxAgeHours : ℕ) * 3600 := by
  obtain ⟨pre, s, post, heq, hprocess, hpost⟩ := consumer_turn h
  obtain ⟨found, pre, rfl, hprocess⟩ := hprocess
  obtain ⟨hfound, left⟩ := List.cons.inj heq
  cases hfound
  obtain ⟨a, pre, rfl, hprocess⟩ := hprocess
  obtain ⟨hcommit, settled⟩ := List.cons.inj left
  cases hcommit
  simp only [Prog.ofExcept, ret_bind] at hprocess
  split at hprocess
  · obtain ⟨rfl, rfl⟩ := hprocess
    obtain ⟨rfl, -⟩ := hpost
    cases settled
  have snapshot := hprocess
  obtain ⟨_, pre, rfl, hprocess⟩ := hprocess
  obtain ⟨hnow, told⟩ := List.cons.inj settled
  cases hnow
  obtain ⟨_, pre, rfl, -⟩ := hprocess
  obtain ⟨hread, rfl⟩ := List.cons.inj told
  cases hread
  have asks := processSnapshot_retries snapshot
  split at asks
  · rename_i old
    obtain ⟨a, tail, rfl⟩ := asks
    exact ⟨fun h => absurd h Retries.not_flush, fun young => absurd old (not_lt.mpr young)⟩
  · rename_i young
    exact ⟨fun _ => not_lt.mp young, fun _ => asks.append post⟩

end Paths

/-- In a run of the whole system: a cycle that is over and has read the file. -/
theorem retries_of_cycleLog {cfg : Settings} {jobs : Job → Bool} {C : Moment → Moment → Prop}
    {w : World}
    {s : Pool Op Op.Ans Exc World Job ℚ} (hs : (system cfg jobs).Reachable C (Machine.boot w) s)
    {i id : ℕ} {row : Message} {n : ℕ} {now : Time} {path : String} {raw : Bytes} {rest : Events}
    (ended : s.tasks i = none)
    (hc : cycleLog s.trace i = some (id, row, ⟨.commit .process [], .ok n⟩ :: ⟨.utcnow, now⟩ ::
      ⟨.spoolRead path, .ok raw⟩ :: rest)) :
    Retries cfg rest ↔ now - row.receivedAt ≤ (cfg.dispatch.retry.maxAgeHours : ℕ) * 3600 := by
  unfold cycleLog at hc
  split at hc
  · rename_i id' found row' evs hl
    simp only [Option.some.injEq, Prod.mk.injEq] at hc
    obtain ⟨rfl, rfl, rfl⟩ := hc
    obtain ⟨r, h⟩ := hs.path_done hl ended
    obtain rfl : found = id' := by
      obtain ⟨_, _, _, heq, ⟨found, pre, rfl, -⟩, -⟩ := consumer_turn h
      obtain ⟨hfound, -⟩ := List.cons.inj heq
      cases hfound
      rfl
    exact consumer_retries h
  · cases hc

/-! ### The attempts since -/

/-- The attempts of a message begin anew: it is requeued, or its row is inserted. -/
def restarts (id : ℕ) : Entry Op Op.Ans Job ℚ → Bool
  | .did _ (.commit _ [.updateMessage id' _]) (.ok _) => id' = id
  | e => insertsAt id e

/-- A cycle is charged to a message. -/
def chargesTo (id : ℕ) : Entry Op Op.Ans Job ℚ → Bool
  | .did _ (.commit _ [.updateMessages wh v]) (.ok _) => v.attempts = .bump && id ∈ wh.ids.getD []
  | _ => false

/-- The cycles charged to a message since it was requeued last; `none` if it has not been. -/
def chargesSince (id : ℕ) : List (Entry Op Op.Ans Job ℚ) → Option ℕ
  | [] => none
  | e :: tr => if restarts id e then some 0 else (chargesSince id tr).map
      (· + if chargesTo id e then 1 else 0)

section Invariants

variable (cfg : Settings)

/-- No row is inserted under an id that is held, no requeue hits a message that is being sent, and
one that leaves the attempts alone finds none. -/
structure Afresh (x x' : Moment) : Prop where
  fresh : Fresh cfg x x'
  spared : ∀ i site id v n, x'.trace = .did i (.commit site [.updateMessage id v])
    (.ok n) :: x.trace →
    ∀ m ∈ x.shared.db.messages, m.id = id → m.status ≠ .sending
  reset : ∀ i site id v n, x'.trace = .did i (.commit site [.updateMessage id v])
    (.ok n) :: x.trace →
    v.attempts = .keep → ∀ m ∈ x.shared.db.messages, m.id = id → m.attempts = 0

/-- A message has no more attempts than cycles have been charged to it since its requeue. -/
structure Recharged (x : Moment) : Prop extends Snapped cfg x where
  charged : ∀ m ∈ x.shared.db.messages, ∀ k, chargesSince m.id x.trace = some k → m.attempts ≤ k

variable {cfg} {jobs : Job → Bool} {x x' : Moment}

/-- A requeue's commit. -/
theorem rows_of_requeue (hs : (system cfg jobs).Step (dispatch cfg) x x') {i : ℕ}
    {site : Site} {id : ℕ} {v : MessageValues} {n : ℕ}
    (htr : x'.trace = .did i (.commit site [.updateMessage id v]) (.ok n) :: x.trace) :
    x'.shared.db.messages = applyUpdate { ids := some [id] } v x.shared.db.messages := by
  obtain ⟨⟨ch, he⟩, -⟩ := hs.of_did htr
  obtain ⟨db, hx, -, heq⟩ | ⟨⟨e, h⟩, -⟩ := exec_commit he
  · rw [heq]
    simp only [Db.execAll, Stmt.exec] at hx
    split at hx
    · cases hx
      rfl
    · cases hx
  · cases h

/-- What begins anew has no attempts. -/
theorem attempts_of_restarts (hs : (system cfg jobs).Step (dispatch cfg) x x')
    (hc : Afresh cfg x x') {e : Entry Op Op.Ans Job ℚ} (he : x'.trace = e :: x.trace) {m' : Message}
    (hm' : m' ∈ x'.shared.db.messages) (hr : restarts m'.id e = true) : m'.attempts = 0 := by
  unfold restarts at hr
  split at hr
  · rename_i i site id v n
    obtain rfl := of_decide_eq_true hr
    obtain ⟨row, now, -, hv⟩ := requeueing_of_step hs he
    rw [rows_of_requeue hs he] at hm'
    obtain ⟨m, hm, hid, ⟨hw, rfl⟩ | ⟨-, heq⟩⟩ := mem_applyUpdate hm'
    · simp [MessageWhere.holds] at hw
    · have reset := hc.reset i site _ v n he
      rw [heq, hv]
      rw [hv] at reset
      by_cases zero : row.attempts = 0
      · have zeroed := reset (by simp [requeueValues, zero]) m hm hid
        simpa [requeueValues, zero, MessageValues.apply] using zeroed
      · simp [requeueValues, zero, MessageValues.apply]
  · unfold insertsAt at hr
    split at hr
    · rename_i i site row n _
      obtain rfl := of_decide_eq_true hr
      cases hs with
      | start => cases he
      | env => cases he
      | crash => cases he
      | @did w w' tr i' o c a hex hg =>
        cases he
        obtain ⟨db, hx, hn, rfl⟩ | ⟨⟨e, h⟩, -⟩ := exec_commit hex
        swap
        · cases h
        cases hx
        rcases dispatch_good hg with ⟨-, good⟩ | ⟨-, good⟩
        · obtain ⟨-, -, none, -⟩ := good
          rcases List.mem_append.mp hm' with old | new
          · have new : m'.id = nextId (w.db.messages.map Message.id) := Except.ok.inj hn
            exact absurd new (lt_nextId (List.mem_map_of_mem (f := Message.id) old)).ne
          · rw [List.mem_singleton.mp new]
            exact none
        · cases good
    · cases hr

/-- An update of the dispatcher's changes the attempts only when a cycle is charged. -/
theorem attempts_of_updates {φ : Duty} {wh : MessageWhere} {v : MessageValues}
    (hu : Updates cfg φ wh v) {m : Message}
    (hw : wh.holds m = true) : (v.apply m).attempts = m.attempts ∨
      (v.apply m).attempts = m.attempts + 1 ∧ v.attempts = .bump ∧ m.id ∈ wh.ids.getD [] := by
  cases hu with
  | retry =>
    simp only [MessageWhere.holds, Option.all_some, Option.all_none, Bool.and_true,
      decide_eq_true_eq] at hw
    exact .inr ⟨rfl, rfl, hw⟩
  | _ => exact .inl rfl

theorem Recharged.charged_step (h : Recharged cfg x)
    (hs : (system cfg jobs).Step (dispatch cfg) x x')
    (hc : Afresh cfg x x') {m' : Message} (hm' : m' ∈ x'.shared.db.messages) {k : ℕ}
    (hk : chargesSince m'.id x'.trace = some k) : m'.attempts ≤ k := by
  obtain ⟨e, he⟩ : ∃ e, x'.trace = e :: x.trace := by
    cases hs <;> exact ⟨_, rfl⟩
  rw [he, chargesSince] at hk
  split at hk
  · rename_i anew
    rw [attempts_of_restarts hs hc he hm' anew]
    exact Nat.zero_le k
  rename_i goesOn
  obtain ⟨k₀, hk₀, rfl⟩ := Option.map_eq_some_iff.mp hk
  have before : ∀ m ∈ x.shared.db.messages, m.id = m'.id → m.attempts ≤ k₀ :=
    fun m hm hid => h.charged m hm k₀ (hid ▸ hk₀)
  rcases upkeep_or_delivery hs with hs | ⟨i, hs⟩
  · cases rowOf_step hs hm' with
    | same hm => exact (before m' hm rfl).trans (Nat.le_add_right _ _)
    | inserted _ _ zero heq =>
      rw [heq]
      exact zero.le.trans (Nat.zero_le _)
    | @updated i site wh v n m hm hid hu hw heq htr =>
      obtain rfl : e = _ := (List.cons.inj (he.symm.trans htr)).1
      have le := before m hm hid
      rw [heq]
      rcases attempts_of_updates hu hw with same | ⟨more, bump, named⟩
      · rw [same]
        exact le.trans (Nat.le_add_right _ _)
      · have charged : chargesTo m'.id (.did i (.commit site [.updateMessages wh v]) (.ok n)) =
          true := by
          simp [chargesTo, bump, ← hid, named]
        rw [← heq, if_pos charged, heq, more]
        exact Nat.succ_le_succ le
  · rcases hs.row hm' with hm | ⟨site, id, row, now, n, -, htr, m, -, hid, heq⟩
    · exact (before m' hm rfl).trans (Nat.le_add_right _ _)
    · obtain rfl : e = _ := (List.cons.inj (he.symm.trans htr)).1
      refine absurd ?_ goesOn
      rw [heq]
      exact decide_eq_true hid.symm

/-- A consumer's message is as it was read, after a requeue or a sweep. -/
theorem Snapped.beside {i : ℕ} (h : Snapped cfg x) (hs : UpkeepStep cfg x x' i)
    (hc : ∀ i site id v n, x'.trace = .did i (.commit site [.updateMessage id v]) (.ok n) ::
      x.trace →
      ∀ m ∈ x.shared.db.messages, m.id = id → m.status ≠ .sending) : Snapped cfg x' := by
  have same : ∀ {k id : ℕ}, id ∈ ((delivery cfg).phase x.trace k).held →
      ∀ m' ∈ x'.shared.db.messages, m'.id = id →
      m' ∈ x.shared.db.messages := by
    intro k id held m' hm' hid
    rcases hs.row hm' with hm | ⟨site, id', row, now, n, -, htr, m, hm, hmid, rfl⟩
    · exact hm
    · exact absurd (h.sending held hm hid) (hc _ _ _ _ _ htr m hm hmid)
  refine ⟨h.toOwn.beside hs hc, fun k id row hk m' hm' hid => ?_,
    fun k id t told drawn hk m' hm' hid => ?_⟩
  · rw [hs.duties] at hk
    exact h.read k id row hk m' (same (by rw [hk]; exact List.mem_singleton_self _) m' hm' hid) hid
  · rw [hs.duties] at hk
    exact h.turn k id t told drawn hk m'
      (same (by rw [hk]; exact List.mem_singleton_self _) m' hm' hid) hid

theorem Recharged.step (h : Recharged cfg x) (hs : (system cfg jobs).Step (dispatch cfg) x x')
    (hc : Afresh cfg x x') : Recharged cfg x' := by
  refine ⟨?_, fun m' hm' k hk => h.charged_step hs hc hm' hk⟩
  rcases upkeep_or_delivery hs with hs | ⟨i, hs⟩
  · exact h.toSnapped.step hs hc.fresh
  · exact h.toSnapped.beside hs hc.spared

/-- A message is given up after too many attempts by the cycle at work on it. -/
theorem turn_of_maxAttempts {φ : Duty} {wh : MessageWhere} {v : MessageValues}
    (hu : Updates cfg φ wh v) {id : ℕ} {detail : Option String}
    (hv : Stmt.updateMessages wh v = deadletterStmt id .maxAttempts detail) :
    ∃ t told drawn, φ = .turn id t told drawn ∧ cfg.dispatch.retry.maxAttempts ≤
      t.row.attempts + 1 := by
  cases hu with
  | @deadletter id' t told drawn reason detail' _ spent =>
    have why : reason = .maxAttempts :=
      deadletterStmt_inj (show deadletterStmt id' reason detail' = _ from hv)
    obtain rfl : id' = id := by
      simp only [deadletterStmt, Stmt.updateMessages.injEq, MessageWhere.mk.injEq,
        Option.some.injEq, List.cons.injEq] at hv
      exact hv.1.1.1
    exact ⟨t, told, drawn, rfl, spent why⟩
  | _ => simp [deadletterStmt] at hv

/-- Then the budget since its requeue is used up. -/
theorem Recharged.exhausted (h : Recharged cfg x) (hs : (system cfg jobs).Step (dispatch cfg) x x')
    {i : ℕ} {site : Site} {id : ℕ} {detail : Option String} {n : ℕ}
    (htr : x'.trace = .did i (.commit site [deadletterStmt id .maxAttempts detail]) (.ok n) ::
      x.trace)
    (present : id ∈ x.shared.db.messages.map Message.id) {k : ℕ}
    (hk : chargesSince id x.trace = some k) :
    cfg.dispatch.retry.maxAttempts ≤ k + 1 := by
  obtain ⟨t, told, drawn, hφ, spent⟩ : ∃ t told drawn, (delivery cfg).phase x.trace i =
      .turn id t told drawn ∧
      cfg.dispatch.retry.maxAttempts ≤ t.row.attempts + 1 := by
    rcases dispatch_good (hs.of_did htr).2 with ⟨-, good⟩ | ⟨-, good⟩
    · exact turn_of_maxAttempts good rfl
    · cases good
  obtain ⟨m, hm, rfl⟩ := List.mem_map.mp present
  have charged := h.charged m hm k hk
  rw [h.turn i m.id t told drawn hφ m hm rfl] at charged
  omega

/-- What holds of a process that starts. -/
theorem Recharged.init {w : World} (ids : (w.db.messages.map Message.id).Nodup)
    (down : w.up = false) (empty : w.queue = []) : Recharged cfg ⟨w, []⟩ := by
  have owned : Owned cfg ⟨w, []⟩ := Owned.init ids down empty
  exact ⟨⟨owned.toOwn, fun i id row hi => (by cases hi), fun i id t told drawn hi => (by cases hi)⟩,
    fun m _ k hk => (by cases hk)⟩

end Invariants

/-- **What a requeue buys.** In every run of the ingress server, the producer, the consumers, the
message API, the sweeps, crashes and restarts in which no requeue hits a message that is being
sent or leaves its attempts alone, and no row is inserted under an id still held: a cycle that has
read the file asks the router, and hands the message to the provider it finds, if and only if the
message is not too old by then; and from the requeue on `max_attempts` cycles are charged to the
message, the last of them included, before it is given up after too many attempts. -/
theorem requeue_buys_retry (cfg : Settings) {jobs : Job → Bool} (hj : ∀ j, jobs j = true →
    j.onMessages = true)
    {w : World} (ids : (w.db.messages.map Message.id).Nodup) (down : w.up = false)
    (empty : w.queue = []) {s : Pool Op Op.Ans Exc World Job ℚ}
    (h : (system cfg jobs).Reachable (Afresh cfg) (Machine.boot w) s) :
    (∀ i id row n now path raw rest, s.tasks i = none →
      cycleLog s.trace i = some (id, row, ⟨.commit .process [], .ok n⟩ :: ⟨.utcnow, now⟩ ::
        ⟨.spoolRead path, .ok raw⟩ :: rest) →
      (Retries cfg rest ↔ now - row.receivedAt ≤ (cfg.dispatch.retry.maxAgeHours : ℕ) * 3600)) ∧
    ∀ m s', (system cfg jobs).step m s = some s' → ∀ i site id detail n,
      s'.trace = .did i (.commit site [deadletterStmt id .maxAttempts detail]) (.ok n) :: s.trace →
      id ∈ s.shared.db.messages.map Message.id → ∀ k, chargesSince id s.trace = some k →
        cfg.dispatch.retry.maxAttempts ≤ k + 1 := by
  refine ⟨fun i id row n now path raw rest ended hc => retries_of_cycleLog h ended hc, ?_⟩
  obtain ⟨recharged, phases⟩ :=
    Machine.invariant (dispatch_keeps hj) (Recharged cfg) (Recharged.init ids down empty)
    (fun h hs hc => h.step hs hc) h
  intro m s' hm i site id detail n htr present k hk
  exact recharged.exhausted (Machine.step_cases (dispatch_keeps hj) phases hm).1 htr present hk

namespace Example

/-- How old the message was when the cycle read its file. -/
def ageAtRead : ℕ × Message × Events → Option ℚ
  | (_, row, ⟨.commit .process [], .ok _⟩ :: ⟨.utcnow, now⟩ :: ⟨.spoolRead _, .ok _⟩ :: _) =>
      some (now - row.receivedAt)
  | _ => none

theorem read_of_age {c : ℕ × Message × Events} {age : ℚ} (h : ageAtRead c = some age) :
    ∃ n now path raw rest, c = (c.1, c.2.1, ⟨.commit .process [], .ok n⟩ :: ⟨.utcnow, now⟩ ::
      ⟨.spoolRead path, .ok raw⟩ :: rest) ∧ now - c.2.1.receivedAt = age := by
  unfold ageAtRead at h
  split at h
  · cases h
    exact ⟨_, _, _, _, _, rfl, rfl⟩
  · cases h

/-- The next operation is no insert, and no requeue that is too late. -/
def afreshNext (m : Move Choice Job ℚ) (s : Pool Op Op.Ans Exc World Job ℚ) : Bool :=
  match m with
  | .run i _ => match s.tasks i with
    | some (_, .op (.commit _ [.insertMessage _]) _) => false
    | some (_, .op (.commit _ [.updateMessage id v]) _) => s.shared.db.messages.all fun row =>
        row.id ≠ id || row.status ≠ .sending && (v.attempts ≠ .keep || row.attempts = 0)
    | _ => true
  | _ => true

theorem afresh_of_next {cfg : Settings} {jobs : Job → Bool} {m : Move Choice Job ℚ}
    {s s' : Pool Op Op.Ans Exc World Job ℚ} (hm : afreshNext m s = true)
    (hs : (system cfg jobs).step m s = some s') : Afresh cfg s.toConfig s'.toConfig := by
  refine ⟨fun i site row id htr => ?_, fun i site id v n htr row hrow hid => ?_,
    fun i site id v n htr keep row hrow hid => ?_⟩
  · obtain ⟨c, j, k, rfl, ht, -⟩ := Machine.step_did hs htr
    simp [afreshNext, ht] at hm
  · obtain ⟨c, j, k, rfl, ht, -⟩ := Machine.step_did hs htr
    simp only [afreshNext, ht, List.all_eq_true] at hm
    have spared := hm row hrow
    simp only [hid, ne_eq, not_true_eq_false, decide_false, Bool.false_or, Bool.and_eq_true,
      decide_eq_true_eq] at spared
    exact spared.1
  · obtain ⟨c, j, k, rfl, ht, -⟩ := Machine.step_did hs htr
    simp only [afreshNext, ht, List.all_eq_true] at hm
    have spared := hm row hrow
    simp only [hid, ne_eq, not_true_eq_false, decide_false, Bool.false_or, Bool.and_eq_true, keep,
      decide_eq_true_eq] at spared
    exact spared.2

/-- The message is requeued and relayed once more, and the provider is busy. -/
def lastChance : List (Move Choice Job ℚ) := List.flatten
  [requeued, claimedAgain, [.run 1 busy], oks 1 16]

/-- The newest entry gives message 1 up after too many attempts. -/
def givenUpLast : List (Entry Op Op.Ans Job ℚ) → Bool
  | .did _ (.commit _ [st]) (.ok _) :: _ => st = deadletterStmt 1 .maxAttempts (some "busy")
  | _ => false

/-- The message has one attempt, is relayed, and is given up. -/
theorem requeue_buys_retry_lastChance : ∃ s s',
    (system oneChance Job.onMessages).runFrom (Machine.boot oneDead) lastChance = some s ∧
      (system oneChance Job.onMessages).step (.run 1 .ok) s = some s' ∧
        givenUpLast s'.trace = true ∧
      (∃ row n now path raw rest,
        cycleLog s'.trace 1 = some (1, row, ⟨.commit .process [], .ok n⟩ ::
        ⟨.utcnow, now⟩ :: ⟨.spoolRead path, .ok raw⟩ :: rest) ∧ Retries oneChance rest) ∧
      (oneChance.dispatch.retry.maxAttempts : ℕ) ≤ 0 + 1 := by
  obtain ⟨s, hs, ha⟩ : ∃ s, (system oneChance Job.onMessages).runFrom
      (Machine.boot oneDead) lastChance = some s ∧
      (s.shared.db.messages.map Message.id, chargesSince 1 s.trace) = ([1], some 0) :=
    Option.map_eq_some_iff.mp (by decide +kernel)
  obtain ⟨s', hs', hb⟩ : ∃ s', (system oneChance Job.onMessages).runFrom (Machine.boot oneDead)
      (lastChance ++ [.run 1 .ok]) = some s' ∧
      ((s'.tasks 1).isNone, givenUpLast s'.trace, (cycleLog s'.trace 1).map fun c =>
        (c.1, ageAtRead c)) =
        (true, true, some (1, some 0)) := Option.map_eq_some_iff.mp (by decide +kernel)
  have along : (system oneChance Job.onMessages).along afreshNext (Machine.boot oneDead)
      (lastChance ++ [.run 1 .ok]) = true := by
    decide +kernel
  have before : (system oneChance Job.onMessages).along afreshNext
      (Machine.boot oneDead) lastChance = true := by
    decide +kernel
  obtain ⟨ids, since⟩ := Prod.mk.inj ha
  simp only [Prod.mk.injEq, Option.isNone_iff_eq_none] at hb
  obtain ⟨ended, last, log⟩ := hb
  obtain ⟨c, hc, heq⟩ := Option.map_eq_some_iff.mp log
  obtain ⟨hid, hage⟩ := Prod.mk.inj heq
  obtain ⟨n, now, path, raw, rest, hcycle, young⟩ := read_of_age hage
  have laws := fun (t : Pool Op Op.Ans Exc World Job ℚ)
      (h : (system oneChance Job.onMessages).Reachable (Afresh oneChance)
        (Machine.boot oneDead) t) =>
    requeue_buys_retry oneChance (fun j hj => hj) (by decide) rfl rfl h
  have hstep : (system oneChance Job.onMessages).step (.run 1 .ok) s = some s' :=
    (Machine.runFrom_concat hs _).symm.trans hs'
  refine ⟨s, s', hs, hstep, last, ⟨c.2.1, n, now, path, raw, rest, ?_, ?_⟩, ?_⟩
  · rw [hc, hcycle, hid]
  · refine ((laws s' (Machine.Reachable.refl.runFrom_along afresh_of_next along hs')).1 1 c.1 c.2.1
      n now path raw rest
      ended (hc.trans (congrArg some hcycle))).mpr ?_
    rw [young]
    positivity
  · obtain ⟨i, site, m, htr⟩ : ∃ i site m, s'.trace =
        .did i (.commit site [deadletterStmt 1 .maxAttempts (some "busy")]) (.ok m) :: s.trace := by
      obtain ⟨e, he⟩ := Machine.step_trace hstep
      rw [he] at last
      unfold givenUpLast at last
      split at last
      · rename_i heq
        obtain ⟨rfl, rfl⟩ := List.cons.inj heq
        obtain rfl := of_decide_eq_true last
        exact ⟨_, _, _, he⟩
      · cases last
    exact (laws s (Machine.Reachable.refl.runFrom_along afresh_of_next before hs)).2 _ s' hstep
      i site 1 _ m htr
      (by rw [ids]; exact List.mem_cons_self) 0 since

/-- The message is requeued more than eleven days after it was received, and consumer 1 takes it. -/
def tooOld : List (Move Choice Job ℚ) := List.flatten
  [[.env 1000000], requeued, [.start 0 .producer], oks 0 5, [.start 1 .consumer], oks 1 7]

/-- Nothing fails, the message is requeued, its file is there: it is too old, and is given up
again without a relay. -/
theorem expired_again_requeued : ∃ s row n now path raw rest,
    (system twoPerDay Job.onMessages).Reachable (Machine.Each faultless) (Machine.boot oneDead) s ∧
      chargesSince 1 s.trace = some 0 ∧ s.tasks 1 = none ∧
      cycleLog s.trace 1 = some (1, row, ⟨.commit .process [], .ok n⟩ :: ⟨.utcnow, now⟩ ::
        ⟨.spoolRead path, .ok raw⟩ :: rest) ∧ ¬ Retries twoPerDay rest ∧
      s.trace.countP (relaysOf 1) = 0 ∧ s.shared.db.messages.map Message.status =
        [.deadletter] := by
  obtain ⟨s, hs, ha⟩ : ∃ s, (system twoPerDay Job.onMessages).runFrom
      (Machine.boot oneDead) tooOld = some s ∧
      (s.trace.all faultless && (s.tasks 1).isNone, chargesSince 1 s.trace,
        (cycleLog s.trace 1).map fun c => (c.1, ageAtRead c)) = (true, some 0,
          some (1, some 1000000)) :=
    Option.map_eq_some_iff.mp (by decide +kernel)
  obtain ⟨s', hs', hb⟩ : ∃ s', (system twoPerDay Job.onMessages).runFrom
      (Machine.boot oneDead) tooOld = some s' ∧
      (s'.trace.countP (relaysOf 1), s'.shared.db.messages.map Message.status) =
      (0, [.deadletter]) :=
    Option.map_eq_some_iff.mp (by decide +kernel)
  obtain rfl := Option.some.inj (hs.symm.trans hs')
  simp only [Prod.mk.injEq, Bool.and_eq_true, Option.isNone_iff_eq_none] at ha hb
  obtain ⟨⟨all, ended⟩, since, log⟩ := ha
  obtain ⟨relays, rows⟩ := hb
  obtain ⟨c, hc, heq⟩ := Option.map_eq_some_iff.mp log
  obtain ⟨hid, hage⟩ := Prod.mk.inj heq
  obtain ⟨n, now, path, raw, rest, hcycle, old⟩ := read_of_age hage
  have run := Machine.Reachable.refl.runFrom_each hs all
  refine ⟨s, c.2.1, n, now, path, raw, rest, run, since,
    ended, by rw [hc, hcycle, hid], fun retries => ?_, relays, rows⟩
  have young := (retries_of_cycleLog run ended (hc.trans (congrArg some hcycle))).mp retries
  rw [old, show (twoPerDay.dispatch.retry.maxAgeHours : ℕ) = 48 from rfl] at young
  norm_num at young

end Example

end SmtpSwitch
