import SmtpSwitch.Delivery.Housekeeping

/-!
# What retention counts from

The sweep keeps a message for the retention time of its status, counted from the time it was
received. The time of the last update of a message is not in its row, but in the trace
(`lastTouch`). As long as the messages a sweep deletes have not been updated since its cutoff,
each has been in the status it has for all its retention time (`retention_counts`); a message
that was received before the cutoff and sent after it has not. -/

namespace SmtpSwitch

open Coop Coop.Prog

/-! ### What the trace tells -/

/-- The message is stored, or updated. The `UPDATE`s of `_recover_orphans` and `_requeue_now` do not
count: they ask for messages being sent, and leave them queued. -/
def touches (id : ℕ) : Entry Op Op.Ans Job ℚ → Bool
  | .did _ (.commit _ [.insertMessage _]) (.ok id') => id' = id
  | .did _ (.commit _ [.updateMessage id' _]) (.ok _) => id' = id
  | .did _ (.commit _ [.updateMessages wh _]) (.ok _) => wh.status = none ∧ id ∈ wh.ids.getD []
  | _ => false

/-- The time that passes. -/
def passes : Entry Op Op.Ans Job ℚ → Time
  | .env d => max d 0
  | _ => 0

/-- When the message was stored or updated last; it is `now` after the newest entry. -/
def lastTouch (id : ℕ) (now : Time) : List (Entry Op Op.Ans Job ℚ) → Option Time
  | [] => none
  | e :: tr => if touches id e then some now else lastTouch id (now - passes e) tr

/-- The cutoff of the newest `SELECT` of a sweep. -/
def cutoffOf (i : ℕ) : List (Entry Op Op.Ans Job ℚ) → Option Time
  | [] => none
  | .did k (.select _ (.expiredMessages _ cutoff _)) _ :: tr =>
      if k = i then some cutoff else cutoffOf i tr
  | _ :: tr => cutoffOf i tr

theorem cutoffOf_did {k i : ℕ} {o : Op} {a : o.Ans} {tr : List (Entry Op Op.Ans Job ℚ)}
    (h : ∀ site status cut limit, o = .select site (.expiredMessages status cut limit) → k ≠ i) :
    cutoffOf k (.did i o a :: tr) = cutoffOf k tr := by
  conv_lhs => unfold cutoffOf
  split
  · rename_i heq
    cases heq
  · rename_i heq
    cases heq
    rw [if_neg (h _ _ _ _ rfl).symm]
  · rename_i heq
    cases heq
    rfl

/-- The hours a message in this status is kept. -/
def retentionHours (cfg : Settings) : MessageStatus → ℕ
  | .sent => cfg.dispatch.sentRetentionHours
  | .deadletter => cfg.dispatch.deadletterRetentionHours
  | _ => 0

theorem cutoff_of_retentionPlans {cfg : Settings} {now : Time} {plan : MessageStatus × Time}
    (h : plan ∈ retentionPlans cfg now) : plan.1.terminal = true ∧ 0 < retentionHours cfg plan.1 ∧
      plan.2 = now - retentionHours cfg plan.1 * 3600 := by
  refine ⟨terminal_of_retentionPlans h, ?_⟩
  simp only [retentionPlans, List.mem_append] at h
  rcases h with h | h
  · split at h
    · cases h
    · rename_i kept
      obtain rfl := List.mem_singleton.mp h
      exact ⟨Nat.pos_of_ne_zero kept, rfl⟩
  · split at h
    · cases h
    · rename_i kept
      obtain rfl := List.mem_singleton.mp h
      exact ⟨Nat.pos_of_ne_zero kept, rfl⟩

/-! ### The rows over one step -/

section Steps

variable {cfg : Settings} {jobs : Job → Bool} {x x' : Moment} {e : Entry Op Op.Ans Job ℚ}

/-- A row that is not touched is what it was, unless it was being sent and is put back by the
start of the process. -/
theorem row_of_step (hs : (system cfg jobs).Step (dispatch cfg) x x') (he : x'.trace = e :: x.trace)
    {m' : Message} (hm' : m' ∈ x'.shared.db.messages) (untouched : touches m'.id e = false) :
    ∃ m ∈ x.shared.db.messages, m.id = m'.id ∧
      (m.status.terminal = true ∨ m'.status.terminal = true → m.status = m'.status) := by
  rcases upkeep_or_delivery hs with hs | ⟨i, hs⟩
  · rcases rows_of_step hs with ⟨same, -⟩ | ⟨i, site, ss, htr, change⟩
    · exact ⟨m', same ▸ hm', rfl, fun _ => rfl⟩
    rw [he] at htr
    cases htr
    generalize x'.shared.db.messages = ms at change hm'
    generalize (delivery cfg).phase x.trace i = φ at change
    cases change with
    | @insert row =>
      rcases List.mem_append.mp hm' with hm | hm
      · exact ⟨m', hm, rfl, fun _ => rfl⟩
      · obtain rfl := List.mem_singleton.mp hm
        have stored : touches (nextId (x.shared.db.messages.map Message.id))
            (.did i (.commit site [.insertMessage row])
            (.ok (x.shared.db.insertedId [.insertMessage row]))) = true := decide_eq_true rfl
        exact absurd (stored.symm.trans untouched) Bool.noConfusion
    | delete => exact ⟨m', List.mem_of_mem_filter hm', rfl, fun _ => rfl⟩
    | none => exact ⟨m', hm', rfl, fun _ => rfl⟩
    | @update wh v hu =>
      have unnamed : ¬ (wh.status = none ∧ m'.id ∈ wh.ids.getD []) := of_decide_eq_false untouched
      obtain ⟨m, hm, hid, ⟨-, rfl⟩ | ⟨hw, rfl⟩⟩ := mem_applyUpdate hm'
      · exact ⟨m', hm, rfl, fun _ => rfl⟩
      have named : ∀ ids, wh.status = none → wh.ids = some ids → False := by
        intro ids hstatus hids
        simp only [MessageWhere.holds, hids, Option.all_some, Bool.and_eq_true,
          decide_eq_true_eq] at hw
        rw [hids] at unnamed
        exact unnamed ⟨hstatus, hw.1⟩
      have asked : ∀ status, wh.status = some status → m.status = status := by
        intro status hstatus
        simp only [MessageWhere.holds, hstatus, Option.all_some, Bool.and_eq_true,
          decide_eq_true_eq] at hw
        exact hw.2
      refine ⟨m, hm, hid, fun ended => ?_⟩
      cases hu with
      | recover | requeue =>
        rw [asked _ rfl] at ended
        rcases ended with ended | ended <;> cases ended
      | _ => exact (named _ rfl rfl).elim
  · obtain ⟨o, a, htr, -⟩ := hs.did
    rw [he] at htr
    cases htr
    rcases hs.row hm' with hm | ⟨site, id, row, now, n, -, htr, m, -, hid, rfl⟩
    · exact ⟨m', hm, rfl, fun _ => rfl⟩
    · rw [he] at htr
      cases htr
      have named : touches ((requeueValues row now).apply m).id
          (.did i (.commit site [.updateMessage id (requeueValues row now)]) (.ok n)) = true :=
            decide_eq_true hid.symm
      exact absurd (named.symm.trans untouched) Bool.noConfusion

theorem ids_of_step (ids : (x.shared.db.messages.map Message.id).Nodup)
    (hs : (system cfg jobs).Step (dispatch cfg) x x') :
    (x'.shared.db.messages.map Message.id).Nodup := by
  rcases upkeep_or_delivery hs with hs | ⟨i, hs⟩
  · exact distinct_of_step ids hs
  · exact hs.ids ids

/-- The clock goes on by what passes. -/
theorem clock_of_step (hs : (system cfg jobs).Step (dispatch cfg) x x')
    (he : x'.trace = e :: x.trace) :
    x'.shared.clock = x.shared.clock + passes e ∧ 0 ≤ passes e := by
  cases hs with
  | start =>
    cases he
    exact ⟨(add_zero _).symm, le_rfl⟩
  | env =>
    cases he
    exact ⟨rfl, le_max_right _ _⟩
  | crash =>
    cases he
    exact ⟨(add_zero _).symm, le_rfl⟩
  | did he' =>
    cases he
    exact ⟨(exec_frame cfg he').clock.trans (add_zero _).symm, le_rfl⟩

theorem lastTouch_of_step (hs : (system cfg jobs).Step (dispatch cfg) x x')
    (he : x'.trace = e :: x.trace) (id : ℕ) :
    lastTouch id x'.shared.clock x'.trace =
      if touches id e then some x'.shared.clock else lastTouch id x.shared.clock x.trace := by
  rw [he, lastTouch, (clock_of_step hs he).1, add_sub_cancel_right]

end Steps

/-! ### The invariant -/

section Invariants

variable (cfg : Settings)

/-- The rows a sweep has selected have the status of its plan, unless they have been touched since
its cutoff. -/
structure Expiring (x : Moment) : Prop where
  ids : (x.shared.db.messages.map Message.id).Nodup
  plans : ∀ i, ∀ plan ∈ ((upkeep cfg).phase x.trace i).plans, plan.1.terminal = true ∧
    0 < retentionHours cfg plan.1 ∧ plan.2 + retentionHours cfg plan.1 * 3600 ≤ x.shared.clock
  cutoff : ∀ i plan rows plans, (upkeep cfg).phase x.trace i = .swept plan rows plans →
    cutoffOf i x.trace = some plan.2
  listed : ∀ i plan rows plans, (upkeep cfg).phase x.trace i = .swept plan rows plans → ∀ y ∈ rows,
    ∀ m ∈ x.shared.db.messages, m.id = y.1 →
      m.status = plan.1 ∨ ∃ t, lastTouch y.1 x.shared.clock x.trace = some t ∧ plan.2 < t

variable {cfg} {jobs : Job → Bool} {x x' : Moment}

/-- A plan's cutoff is past. -/
theorem Expiring.past (h : Expiring cfg x) {i : ℕ} {plan : MessageStatus × Time}
    (hp : plan ∈ ((upkeep cfg).phase x.trace i).plans) : plan.2 < x.shared.clock := by
  obtain ⟨-, some, old⟩ := h.plans i plan hp
  have kept : (0 : ℚ) < retentionHours cfg plan.1 * 3600 := by positivity
  exact lt_of_lt_of_le (lt_add_of_pos_right _ kept) old

/-- While a sweep has rows selected, they have the status of its plan, or have been touched. -/
theorem Expiring.listed_step (h : Expiring cfg x) (hs : (system cfg jobs).Step (dispatch cfg) x x')
    {e : Entry Op Op.Ans Job ℚ} (he : x'.trace = e :: x.trace) {i : ℕ} {plan : MessageStatus × Time}
    {rows : List (ℕ × String)} {plans : List (MessageStatus × Time)}
    (hi : (upkeep cfg).phase x.trace i = .swept plan rows plans) {y : ℕ × String} (hy : y ∈ rows)
    {m' : Message} (hm' : m' ∈ x'.shared.db.messages) (hid : m'.id = y.1) :
    m'.status = plan.1 ∨ ∃ t, lastTouch y.1 x'.shared.clock x'.trace = some t ∧ plan.2 < t := by
  have mem : plan ∈ ((upkeep cfg).phase x.trace i).plans := by
    rw [hi]
    exact List.mem_cons_self
  obtain ⟨later, passed⟩ := clock_of_step hs he
  rw [lastTouch_of_step hs he]
  cases touched : touches y.1 e with
  | true =>
    refine .inr ⟨_, rfl, ?_⟩
    rw [later]
    exact lt_of_lt_of_le (h.past mem) (le_add_of_nonneg_right passed)
  | false =>
    obtain ⟨m, hm, hmid, same⟩ := row_of_step hs he hm' (hid ▸ touched)
    rcases h.listed i plan rows plans hi y hy m hm (hmid.trans hid) with status | before
    · refine .inl ((same (.inl ?_)).symm.trans status)
      rw [status]
      exact (h.plans i plan mem).1
    · exact .inr before

theorem Expiring.step (h : Expiring cfg x) (hs : (system cfg jobs).Step (dispatch cfg) x x') :
    Expiring cfg x' := by
  have ids := ids_of_step h.ids hs
  have listed : ∀ e, x'.trace = e :: x.trace → ∀ i plan rows plans,
      (upkeep cfg).phase x.trace i = .swept plan rows plans → ∀ y ∈ rows,
        ∀ m' ∈ x'.shared.db.messages, m'.id = y.1 →
        m'.status = plan.1 ∨ ∃ t, lastTouch y.1 x'.shared.clock x'.trace = some t ∧ plan.2 < t :=
    fun e he i plan rows plans hi y hy m' hm' hid => h.listed_step hs he hi hy hm' hid
  cases hs with
  | @start w tr i j ha hi =>
    have was : ∀ k plan rows plans, (upkeep cfg).phase (.start i j :: tr) k =
        .swept plan rows plans →
        (upkeep cfg).phase tr k = .swept plan rows plans := by
      intro k plan rows plans hk
      rw [phase_upkeep_start] at hk
      split at hk
      · exact absurd hk ((upkeep_of_start ha).2.2.1 plan rows plans)
      · exact hk
    refine ⟨ids, fun k plan hk => ?_, fun k plan rows plans hk =>
      h.cutoff k plan rows plans (was k plan rows plans hk),
      fun k plan rows plans hk => listed _ rfl k plan rows plans (was k plan rows plans hk)⟩
    rw [phase_upkeep_start] at hk
    split at hk
    · rw [(upkeep_of_start ha).2.1] at hk
      cases hk
    · exact h.plans k plan hk
  | @env w tr d =>
    refine ⟨ids, fun k plan hk => ?_, h.cutoff, listed _ rfl⟩
    obtain ⟨ended, some, old⟩ := h.plans k plan hk
    exact ⟨ended, some, old.trans (le_add_of_nonneg_right (le_max_right d 0))⟩
  | crash =>
    exact ⟨ids, fun k plan hk => (by cases hk), fun k plan rows plans hk => (by cases hk),
      fun k plan rows plans hk => (by cases hk)⟩
  | @did w w' tr i o c a he hg =>
    have he : exec cfg i o c w = some (a, w') := he
    have clock : w'.clock = w.clock := (exec_frame cfg he).clock
    have plans : ∀ k, ∀ plan ∈ ((upkeep cfg).phase (.did i o a :: tr) k).plans,
        plan.1.terminal = true ∧
        0 < retentionHours cfg plan.1 ∧ plan.2 + retentionHours cfg plan.1 * 3600 ≤ w.clock := by
      intro k plan hk
      rw [phase_upkeep_did] at hk
      split at hk
      · rcases plans_of_next hk with old | ⟨now, heq, new⟩
        · exact h.plans i plan old
        · cases heq
          obtain ⟨ended, some, cut⟩ := cutoff_of_retentionPlans new
          refine ⟨ended, some, ?_⟩
          rw [cut, sub_add_cancel]
          exact (exec_utcnow he).1.le
      · exact h.plans k plan hk
    refine ⟨ids, fun k plan hk => clock ▸ plans k plan hk, fun k plan rows rest hk => ?_,
      fun k plan rows rest hk y hy m' hm' hid => ?_⟩
    · rw [phase_upkeep_did] at hk
      split at hk
      · subst k
        rcases swept_of_next hk with was | ⟨hi, site, status, cut, limit, heq⟩
        · rw [cutoffOf_did fun site status cut limit ho => ?_]
          · exact h.cutoff i plan rows rest was
          · subst ho
            rcases dispatch_good hg with ⟨idle, -⟩ | ⟨-, plans, hi⟩
            · rw [was] at idle
              cases idle
            · rw [was] at hi
              cases hi
        · obtain ⟨-, hp, -⟩ := selected_did he hg hi heq
          cases heq
          rw [hp]
          exact if_pos rfl
      · rename_i other
        rw [cutoffOf_did fun _ _ _ _ _ => other]
        exact h.cutoff k plan rows rest hk
    · rw [phase_upkeep_did] at hk
      split at hk
      · subst k
        rcases swept_of_next hk with was | ⟨hi, site, status, cut, limit, heq⟩
        · exact listed _ rfl i plan rows rest was y hy m' hm' hid
        · obtain ⟨rfl, -, selected⟩ := selected_did he hg hi heq
          obtain ⟨m, hm, rfl, status, -⟩ := selected y hy
          rw [List.inj_on_of_nodup_map h.ids hm' hm hid]
          exact .inl status
      · exact listed _ rfl k plan rows rest hk y hy m' hm' hid

theorem Expiring.init {w : World} (ids : (w.db.messages.map Message.id).Nodup) :
    Expiring cfg ⟨w, []⟩ :=
  ⟨ids, fun k plan hk => (by cases hk), fun k plan rows plans hk => (by cases hk),
    fun k plan rows plans hk => (by cases hk)⟩

/-- What is at its end, and has not been touched in a part of a run, has been in its status all
the while. -/
theorem status_since (keeps : (system cfg jobs).Keeps (dispatch cfg))
    {s₁ s : Pool Op Op.Ans Exc World Job ℚ} (phases : Machine.InPhase (dispatch cfg) s₁)
    (h : (system cfg jobs).Reachable Machine.Free s₁ s) :
    Machine.InPhase (dispatch cfg) s ∧ s₁.shared.clock ≤ s.shared.clock ∧
      ∀ m ∈ s.shared.db.messages, m.status.terminal = true →
        (∃ m₁ ∈ s₁.shared.db.messages, m₁.id = m.id ∧ m₁.status = m.status) ∨
          ∃ t, lastTouch m.id s.shared.clock s.trace = some t ∧ s₁.shared.clock ≤ t := by
  induction h with
  | refl => exact ⟨phases, le_rfl, fun m hm _ => .inl ⟨m, hm, rfl, rfl⟩⟩
  | @step s s' move _ hstep _ ih =>
    obtain ⟨inPhase, before, since⟩ := ih
    obtain ⟨hs, inPhase'⟩ := Machine.step_cases keeps inPhase hstep
    obtain ⟨e, he⟩ := Machine.step_trace hstep
    obtain ⟨later, passed⟩ := clock_of_step hs he
    have after : s₁.shared.clock ≤ s'.shared.clock := by
      rw [later]
      exact before.trans (le_add_of_nonneg_right passed)
    refine ⟨inPhase', after, fun m' hm' ended => ?_⟩
    rw [lastTouch_of_step hs he]
    cases touched : touches m'.id e with
    | true => exact .inr ⟨_, rfl, after⟩
    | false =>
      obtain ⟨m, hm, hid, same⟩ := row_of_step hs he hm' touched
      have status := same (.inr ended)
      rw [← hid, ← status]
      exact since m hm (by rw [status]; exact ended)

end Invariants

/-- No sweep deletes a message that has been stored or updated since the sweep's cutoff. -/
def NoneRecent (x x' : Moment) : Prop := ∀ i site ids ids' n,
  x'.trace = .did i (.commit site [.deleteAttempts ids, .deleteMessages ids']) (.ok n) :: x.trace →
    ∀ id ∈ ids', ∀ t, lastTouch id x.shared.clock x.trace = some t →
      ∀ cut ∈ cutoffOf i x.trace, t ≤ cut

/-- **Retention counts from the end of a message's life, for the messages that have not been
updated since the sweep's cutoff.** In every run of everything that changes `messages`: a message
that a sweep deletes, when none that it deletes has been updated since its cutoff, is sent or
given up, and has been so in every state of the run in the retention time before. -/
theorem retention_counts (cfg : Settings) {jobs : Job → Bool} (hj : ∀ j, jobs j = true →
    j.onMessages = true)
    {w : World} (ids : (w.db.messages.map Message.id).Nodup)
    {s₁ s s' : Pool Op Op.Ans Exc World Job ℚ}
    (h₁ : (system cfg jobs).Reachable Machine.Free (Machine.boot w) s₁)
    (h : (system cfg jobs).Reachable Machine.Free s₁ s) {m : Move Choice Job ℚ}
    (hstep : (system cfg jobs).step m s = some s') (quiet : NoneRecent s.toConfig s'.toConfig)
    {i n : ℕ} {site : Site} {ids₀ ids' : List ℕ}
    (htr : s'.trace = .did i (.commit site [.deleteAttempts ids₀, .deleteMessages ids']) (.ok n) ::
      s.trace)
    {row : Message} (hrow : row ∈ s.shared.db.messages) (deleted : row.id ∈ ids') :
    row.status.terminal = true ∧ 0 < retentionHours cfg row.status ∧
      (s.shared.clock - retentionHours cfg row.status * 3600 < s₁.shared.clock →
        ∃ row₁ ∈ s₁.shared.db.messages, row₁.id = row.id ∧ row₁.status = row.status) := by
  have keeps : (system cfg jobs).Keeps (dispatch cfg) := dispatch_keeps hj
  obtain ⟨-, phases₁⟩ := Machine.invariant keeps (Expiring cfg) (Expiring.init ids)
      (fun h hs _ => h.step hs) h₁
  obtain ⟨expiring, phases⟩ := Machine.invariant keeps (Expiring cfg) (Expiring.init ids)
      (fun h hs _ => h.step hs)
    (h₁.trans h)
  obtain ⟨hs, -⟩ := Machine.step_cases keeps phases hstep
  obtain ⟨plan, rows, plans, hi, -, rfl⟩ := sweeping_of_step hs htr
  obtain ⟨y, hy, hid⟩ := List.mem_map.mp deleted
  obtain ⟨ended, some, past⟩ := expiring.plans i plan (by rw [hi]; exact List.mem_cons_self)
  have quiet : ∀ t, lastTouch row.id s.shared.clock s.trace = Option.some t → t ≤ plan.2 :=
    fun t ht =>
    quiet _ _ _ _ _ htr row.id deleted t ht plan.2 (expiring.cutoff i plan rows plans hi)
  have status : row.status = plan.1 := by
    rcases expiring.listed i plan rows plans hi y hy row hrow hid.symm with status | ⟨t, ht, recent⟩
    · exact status
    · exact absurd (quiet t (hid ▸ ht)) (not_le.mpr recent)
  rw [status]
  refine ⟨ended, some, fun recent => ?_⟩
  rcases (status_since keeps phases₁ h).2.2 row hrow (by rw [status]; exact ended) with same | ⟨t,
    ht, later⟩
  · rwa [status] at same
  · have early : t ≤ s.shared.clock - retentionHours cfg plan.1 * 3600 :=
      (quiet t ht).trans (le_sub_iff_add_le.mpr past)
    exact absurd (later.trans early) (not_le.mpr recent)

namespace Example

theorem exists_of_deletes {e : Entry Op Op.Ans Job ℚ} {i : ℕ} {ids : List ℕ}
    (h : deletes e = some (i, ids)) :
    ∃ site ids₀ n, e = .did i (.commit site [.deleteAttempts ids₀, .deleteMessages ids])
      (.ok n) := by
  unfold deletes at h
  split at h
  · cases h
    exact ⟨_, _, _, rfl⟩
  · cases h

/-- The sweep deletes a message that was sent more than a week ago, and has not been updated
since: it was sent when the run began. -/
theorem retention_counts_selected : ∃ s s',
    (system twoPerDay Job.onMessages).runFrom (Machine.boot oneOld)
    (selected ++ List.replicate 2 (.run 1 .ok)) = some s ∧
      (system twoPerDay Job.onMessages).step (.run 1 .ok) s = some s' ∧
        s'.shared.db.messages.map Message.id = [2] ∧
      ∃ row ∈ s.shared.db.messages, row.id = 1 ∧ ∃ row₁ ∈ oneOld.db.messages, row₁.id = 1 ∧
        row₁.status = row.status := by
  obtain ⟨s, hs, before⟩ : ∃ s, (system twoPerDay Job.onMessages).runFrom (Machine.boot oneOld)
      (selected ++ List.replicate 2 (.run 1 .ok)) = some s ∧
      (lastTouch 1 s.shared.clock s.trace, s.shared.clock, s.shared.db.messages.any fun m =>
        m.id = 1) =
        (none, oneOld.clock, true) := Option.map_eq_some_iff.mp (by decide +kernel)
  obtain ⟨s', hs', after⟩ : ∃ s', (system twoPerDay Job.onMessages).runFrom (Machine.boot oneOld)
      (selected ++ List.replicate 3 (.run 1 .ok)) = some s' ∧
      (s'.shared.db.messages.map Message.id, s'.trace.head?.bind deletes) = ([2], some (1, [1])) :=
    Option.map_eq_some_iff.mp (by decide +kernel)
  simp only [Prod.mk.injEq] at before after
  obtain ⟨untouched, clock, there⟩ := before
  obtain ⟨rows, last⟩ := after
  obtain ⟨row, hrow, hid⟩ := List.any_eq_true.mp there
  have hid : row.id = 1 := of_decide_eq_true hid
  rw [show selected ++ List.replicate 3 (.run 1 .ok) =
    (selected ++ List.replicate 2 (.run 1 .ok)) ++ [.run 1 .ok]
    from rfl, Machine.runFrom_concat hs] at hs'
  obtain ⟨e, he⟩ := Machine.step_trace hs'
  rw [he] at last
  obtain ⟨site, ids₀, n, rfl⟩ := exists_of_deletes last
  have quiet : NoneRecent s.toConfig s'.toConfig := by
    intro i site ids ids' n htr id hid t ht
    rw [he] at htr
    cases htr
    obtain rfl := List.mem_singleton.mp hid
    rw [untouched] at ht
    cases ht
  obtain ⟨-, some, since⟩ := retention_counts twoPerDay (fun j hj => hj) (by decide) .refl
    (Machine.Reachable.refl.runFrom hs) hs' quiet he hrow (by rw [hid]; exact List.mem_cons_self)
  obtain ⟨row₁, hrow₁, hid₁, status⟩ := since (by
    rw [clock]
    exact sub_lt_self _ (by positivity))
  exact ⟨s, s', hs, hs', rows, row, hrow, hid, row₁, hrow₁, hid₁.trans hid, status⟩

/-- A day after the message was received, it is requeued, and consumer 1 relays it. -/
def relayedLate : List (Move Choice Job ℚ) := List.flatten [[.env 86400], requeued, claimedAgain]

/-- It is sent, and six days later the sweep selects it. -/
def sweptEarly : List (Move Choice Job ℚ) := List.flatten
  [[taken], List.replicate 17 (.run 1 .ok), [.env 518401, .start 1 .retentionSweep],
    List.replicate 4 (.run 1 .ok)]

/-- A message that is kept for seven days is deleted six days after it was sent. -/
theorem deleted_early : ∃ s₁ s s' : Pool Op Op.Ans Exc World Job ℚ,
    (system twoPerDay Job.onMessages).Reachable Machine.Free (Machine.boot oneDead) s₁ ∧
      (system twoPerDay Job.onMessages).Reachable Machine.Free s₁ s ∧
      (system twoPerDay Job.onMessages).step (.run 1 .ok) s = some s' ∧
      s₁.shared.db.messages.map (fun m => (m.id, m.status)) = [(1, .sending)] ∧
      s.shared.clock - retentionHours twoPerDay .sent * 3600 < s₁.shared.clock ∧
      s.shared.db.messages.map (fun m => (m.id, m.status)) = [(1, .sent)] ∧
        s'.shared.db.messages = [] := by
  obtain ⟨s₁, hs₁, h₁⟩ : ∃ s, (system twoPerDay Job.onMessages).runFrom
      (Machine.boot oneDead) relayedLate = some s ∧
      (s.shared.db.messages.map (fun m => (m.id, m.status)), s.shared.clock) = ([(1, .sending)],
        63923835600) :=
    Option.map_eq_some_iff.mp (by decide +kernel)
  obtain ⟨s, hs, h⟩ : ∃ s, (system twoPerDay Job.onMessages).runFrom (Machine.boot oneDead)
      (relayedLate ++ sweptEarly) = some s ∧
      (s.shared.db.messages.map (fun m => (m.id, m.status)), s.shared.clock) =
      ([(1, .sent)], 63924354001) :=
    Option.map_eq_some_iff.mp (by decide +kernel)
  obtain ⟨s', hs', gone⟩ : ∃ s, (system twoPerDay Job.onMessages).runFrom (Machine.boot oneDead)
      ((relayedLate ++ sweptEarly) ++ [.run 1 .ok]) = some s ∧ s.shared.db.messages = [] :=
    Option.map_eq_some_iff.mp (by decide +kernel)
  rw [Machine.runFrom_concat hs] at hs'
  rw [Machine.runFrom_append hs₁] at hs
  obtain ⟨rows₁, clock₁⟩ := Prod.mk.inj h₁
  obtain ⟨rows, clock⟩ := Prod.mk.inj h
  refine ⟨s₁, s, s', Machine.Reachable.refl.runFrom hs₁, Machine.Reachable.refl.runFrom hs, hs',
    rows₁, ?_, rows, gone⟩
  rw [clock, clock₁]
  decide +kernel

end Example

end SmtpSwitch
