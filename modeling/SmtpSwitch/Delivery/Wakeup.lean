import SmtpSwitch.Delivery.Columns

/-!
# The producer's wakeup

The producer reads the clock, selects what is due by it, and when nothing is, waits for
`_wakeup` or for the poll timeout, and clears `_wakeup` after that. `handle_DATA` and `requeue`
commit a message and then set `_wakeup`. A commit between the reading of the clock and the
`SELECT` may stamp the message later than the clock that was read: its `notify_new_message` has
still to come, and a call that had the message before it cannot count on its own any more. What
holds in every run is this (`no_lost_wakeup`): while the producer waits and `_wakeup` is not
set, a message whose enqueuer has completed its `notify_new_message` has been claimed or deleted
since, or enqueued once more by a call whose `notify_new_message` is still to come. -/

namespace SmtpSwitch

open Coop Coop.Prog

/-! ### What the trace tells -/

/-- What becomes of a message: `some (some i)` when task `i` enqueues it, `some none` when it is
claimed or deleted. -/
def fate (id : ℕ) : Entry Op Op.Ans Job ℚ → Option (Option ℕ)
  | .did i (.commit _ [.insertMessage _]) (.ok id') => if id' = id then some (some i) else none
  | .did i (.commit _ [.updateMessage id' _]) (.ok _) => if id' = id then some (some i) else none
  | .did _ (.commit _ [.updateMessages wh v]) (.ok _) =>
    if v.status = .sending ∧ id ∈ wh.ids.getD [] then some none else none
  | .did _ (.commit _ [.deleteMessage id']) (.ok _) => if id' = id then some none else none
  | .did _ (.commit _ [.deleteAttempts _, .deleteMessages ids]) (.ok _) =>
      if id ∈ ids then some none else none
  | _ => none

/-- The task completes its `notify_new_message`. -/
def notifies (i : ℕ) : Entry Op Op.Ans Job ℚ → Bool
  | .did k .notify _ => k = i
  | _ => false

/-- The task that has enqueued a message which has neither been enqueued again nor claimed nor
deleted since, and whether it has completed its `notify_new_message`. -/
def pending (id : ℕ) : List (Entry Op Op.Ans Job ℚ) → Option (ℕ × Bool)
  | [] => none
  | e :: tr => match fate id e with
    | some who => who.map (·, false)
    | none => (pending id tr).map fun p => (p.1, p.2 || notifies p.1 e)

theorem pending_of_fate {id : ℕ} {e : Entry Op Op.Ans Job ℚ} {tr : List (Entry Op Op.Ans Job ℚ)}
    {who : Option ℕ} (h : fate id e = some who) : pending id (e :: tr) = who.map (·, false) := by
  simp only [pending, h]

theorem pending_of_none {id : ℕ} {e : Entry Op Op.Ans Job ℚ} {tr : List (Entry Op Op.Ans Job ℚ)}
    (h : fate id e = none) : pending id (e :: tr) = (pending id tr).map fun p =>
    (p.1, p.2 || notifies p.1 e) := by
  simp only [pending, h]

/-- A message is pending since the entry, or was before. -/
theorem pending_cons {id i : ℕ} {b : Bool} {e : Entry Op Op.Ans Job ℚ}
    {tr : List (Entry Op Op.Ans Job ℚ)}
    (h : pending id (e :: tr) = some (i, b)) : fate id e = some (some i) ∧ b = false ∨
      fate id e = none ∧ ∃ b', pending id tr = some (i, b') ∧ b = (b' || notifies i e) := by
  cases hf : fate id e with
  | some who =>
    rw [pending_of_fate hf] at h
    cases who with
    | none => cases h
    | some k =>
      cases h
      exact .inl ⟨rfl, rfl⟩
  | none =>
    rw [pending_of_none hf] at h
    obtain ⟨⟨k, b'⟩, old, heq⟩ := Option.map_eq_some_iff.mp h
    cases heq
    exact .inr ⟨rfl, b', old, rfl⟩

/-- Whether task `i`, which has enqueued a message that has been neither claimed nor deleted
since, has completed its `notify_new_message`. Others may have enqueued it since. -/
def enqueuedBy (id i : ℕ) : List (Entry Op Op.Ans Job ℚ) → Option Bool
  | [] => none
  | e :: tr => match fate id e with
    | some (some k) => if k = i then some false else enqueuedBy id i tr
    | some none => none
    | none => (enqueuedBy id i tr).map (· || notifies i e)

/-- A message that task `i` has enqueued is pending, by task `i` or by one that has enqueued it
since. -/
theorem pending_of_enqueuedBy {id i : ℕ} {b : Bool} : ∀ {tr : List (Entry Op Op.Ans Job ℚ)},
    enqueuedBy id i tr = some b → ∃ k b', pending id tr = some (k, b') ∧ (k = i → b' = b)
  | [], h => by cases h
  | e :: tr, h => by
    simp only [enqueuedBy] at h
    split at h
    · rename_i k hf
      rw [pending_of_fate hf]
      refine ⟨k, false, rfl, fun same => ?_⟩
      rw [if_pos same] at h
      exact Option.some.inj h
    · cases h
    · rename_i hf
      obtain ⟨b₀, old, rfl⟩ := Option.map_eq_some_iff.mp h
      obtain ⟨k, b', hp, same⟩ := pending_of_enqueuedBy old
      rw [pending_of_none hf, hp]
      refine ⟨k, b' || notifies k e, rfl, fun hk => ?_⟩
      rw [same hk, hk]

/-- What is no operation leaves everything pending. -/
theorem pending_quiet {id : ℕ} {e : Entry Op Op.Ans Job ℚ} {tr : List (Entry Op Op.Ans Job ℚ)}
    (hf : fate id e = none)
    (hn : ∀ i, notifies i e = false) : pending id (e :: tr) = pending id tr := by
  rw [pending_of_none hf]
  cases pending id tr with
  | none => rfl
  | some p => simp [hn]

/-! ### The protocol -/

/-- What a task has to do with the wakeup. -/
inductive Poll where
  | idle
  /-- The producer. -/
  | polling
  /-- The producer has read the clock. -/
  | asked (now : Time)
  /-- The producer has selected these ids. -/
  | selected (now : Time) (ids : List ℕ)
  /-- The producer has found nothing. -/
  | waiting
  /-- The producer has waited. -/
  | clearing
  /-- `handle_DATA` has spooled a message. -/
  | taking
  /-- `handle_DATA` has read the clock. -/
  | stamped (now : Time)
  /-- `requeue`, before it reads the message. -/
  | reading (id : ℕ)
  /-- `requeue` has read this row; the time it was told, if it has asked. -/
  | requeueing (id : ℕ) (row : Message) (told : Option Time)
  deriving DecidableEq

/-- What a task does next. -/
def Poll.next : Poll → (o : Op) → o.Ans → Poll
  | .polling, .utcnow, now => .asked now
  | .asked now, .select _ (.dueMessages _ _), .ok ids => .selected now ids
  | .asked _, .select _ _, .error _ => .idle
  | .selected _ [], .commit _ [], .ok _ => .waiting
  | .selected _ _, .commit _ _, _ | .selected _ _, .flush _, .error _ => .idle
  | .waiting, .waitWakeup, _ => .clearing
  | .clearing, .clearWakeup, _ => .idle
  | .idle, .spoolWrite _, _ => .taking
  | .taking, .utcnow, now => .stamped now
  | .stamped _, .commit _ _, _ | .stamped _, .flush _, .error _ => .idle
  | .reading id, .select _ (.message _), .ok (some row) =>
    if row.status.terminal then .requeueing id row none else .idle
  | .reading _, .select _ _, _ => .idle
  | .requeueing id row _, .utcnow, now => .requeueing id row (some now)
  | .requeueing _ _ _, .commit _ _, _ | .requeueing _ _ _, .flush _, .error _ => .idle
  | φ, _, _ => φ

variable (cfg : Settings)

/-- The sessions that may be committed. -/
def Poll.writes (φ : Poll) : List Stmt → Prop
  | [.insertMessage row] => row.status = .queued ∧ φ = .stamped row.nextAttemptAt
  | [.updateMessage id v] => ∃ row now, φ = .requeueing id row (some now) ∧
      v = requeueValues row now
  -- the claim and the recovery
  | [.updateMessages wh v] => (∃ now ids, φ = .selected now ids ∧ ids ≠ [] ∧
      wh = { ids := some ids } ∧
      v = { status := .sending, claimedAt := some (some now) }) ∨ wh = { status := some .sending } ∧
        v = { status := .queued, claimedAt := some none }
  | [.deleteMessage _] => True
  | [.deleteAttempts _, .deleteMessages _] => True
  | ss => ∀ s ∈ ss, s.table ≠ .messages

/-- The operations in order. -/
def Poll.good (φ : Poll) : (o : Op) → o.Ans → Prop
  | .select _ (.dueMessages now limit), _ => φ = .asked now ∧ limit = cfg.dispatch.claimBatchSize
  | .select _ (.message id), _ => ∀ id', φ = .reading id' → id = id'
  | .waitWakeup, _ => φ = .waiting
  | .clearWakeup, _ => φ = .clearing
  | .commit _ ss, _ => φ.writes ss
  | _, _ => True

/-- What a job starts with. -/
def Job.poll : Job → Poll
  | .producer => .polling
  | .requeue id => .reading id
  | _ => .idle

/-- The protocol of the wakeup. -/
def wakeups : Protocol Op Op.Ans Job Poll where
  idle := .idle
  enter := Job.poll
  next := Poll.next
  good := Poll.good cfg

/-- The producer, those who enqueue messages, and those who delete them. -/
def Job.ofEnqueuers : Job → Bool
  | .start | .producer | .handleData _ _ | .requeue _ | .deleteMessage _ | .retentionSweep => true
  | _ => false

/-! ### The code keeps to it -/

section Keeps

variable {cfg}

/-- A task ends idle. -/
def PollDone {α : Type} : Except Exc α → Poll → Prop := fun _ φ => φ = .idle

theorem poll_idle {o : Op} (h : ∀ content, o ≠ .spoolWrite content) (a : o.Ans) :
    Poll.next .idle o a = .idle := by
  cases o <;> first | rfl | exact absurd rfl (h _)

theorem claimBatch_polls : (claimBatch cfg.dispatch.claimBatchSize).Follows (wakeups cfg)
    (fun r φ => match r with
      | .ok ids => φ = if ids = [] then .waiting else .idle
      | .error _ => φ = .idle) .polling := by
  refine follows_perform fun now => ⟨trivial, follows_query (fun ids => ⟨⟨rfl, rfl⟩, ?_⟩) fun e =>
    ⟨⟨rfl, rfl⟩, rfl⟩⟩
  change Follows (wakeups cfg) _ _ (.selected now ids)
  by_cases hids : ids = []
  · subst hids
    exact follows_commit (fun _ => ⟨fun s hs => (by cases hs), rfl⟩) fun e =>
      ⟨fun s hs => (by cases hs), rfl⟩
  · rw [if_neg hids]
    have claim : (Poll.selected now ids).writes [.updateMessages { ids := some ids }
        { status := .sending, claimedAt := some (some now) }] :=
          .inl ⟨now, ids, rfl, hids, rfl, rfl⟩
    refine Follows.bind (R := fun _ φ => φ = .idle) ?_ ?_ fun e φ h => h
    · have next : ∀ a, Poll.next (.selected now ids)
        (.commit .claimBatch [.updateMessages { ids := some ids }
          { status := .sending, claimedAt := some (some now) }]) a = .idle := by
        intro a
        cases ids <;> rfl
      refine follows_flush ⟨trivial, ?_⟩ fun e => ⟨trivial, by cases ids <;> rfl⟩
      have same : (wakeups cfg).next (.selected now ids) (.flush .claimBatch) (.ok ()) =
          .selected now ids := by
        cases ids <;> rfl
      rw [same]
      exact follows_commit (fun n => ⟨claim, next (.ok n)⟩) fun e => ⟨claim, next (.error e)⟩
    · rintro _ _ rfl
      exact (if_neg hids).symm

theorem putAll_polls : ∀ ids, (putAll ids).Whole (wakeups cfg)
  | [] => rfl
  | _ :: rest => fun _ => ⟨trivial, putAll_polls rest⟩

theorem producer_polls : (producer cfg).Follows (wakeups cfg) PollDone .polling := by
  have swallowed : ∀ {r : Except Exc Unit} {φ : Poll}, φ = .idle →
      Handled (wakeups cfg) PollDone swallow r φ := by
    rintro (e | a) φ rfl
    · exact follows_swallow e fun _ => rfl
    · exact rfl
  refine Follows.handle (Follows.bind claimBatch_polls ?_ fun e φ h => swallowed h)
  rintro ids _ rfl
  by_cases hids : ids = []
  · subst hids
    refine Follows.bind (R := fun r φ => r = .ok () ∧ φ = .waiting) ⟨rfl, rfl⟩ ?_ fun e φ h =>
      (by cases h.1)
    rintro _ _ ⟨-, rfl⟩
    exact fun _ => ⟨rfl, fun _ => ⟨rfl, rfl⟩⟩
  · have claimed : (if ids = [] then Poll.waiting else .idle) = .idle := if_neg hids
    rw [claimed]
    refine Follows.bind (R := fun _ φ => φ = Poll.idle) (putAll_polls ids) ?_ fun e φ h =>
      swallowed h
    rintro _ _ rfl
    rw [if_neg hids]
    exact rfl

theorem handleData_polls (session : Session) (envelope : Envelope) :
    (handleData cfg.ingress session envelope).Whole (wakeups cfg) := by
  have header : ∀ content name, (headerText content name).Whole (wakeups cfg) :=
    fun content name v =>
    ⟨trivial, by cases v <;> exact rfl⟩
  unfold handleData
  simp only
  split
  · exact rfl
  split
  · exact rfl
  refine (header _ _).bind fun subject => (header _ _).bind fun messageId => ?_
  refine follows_perform fun path => ⟨trivial, follows_perform fun now => ⟨trivial, ?_⟩⟩
  refine Follows.bind (R := fun _ φ => φ = .idle) (Follows.attempt ?_) ?_ fun e φ h => h
  · refine follows_flush ⟨trivial, ?_⟩ fun e => ⟨trivial, rfl⟩
    exact fun a => ⟨⟨rfl, rfl⟩, by cases a <;> exact rfl⟩
  rintro stored _ rfl
  split
  · exact rfl
  · exact fun _ => ⟨trivial, rfl⟩
  · exact fun _ => ⟨trivial, rfl⟩

theorem requeue_polls (id : ℕ) : (requeue id).Follows (wakeups cfg) PollDone (.reading id) := by
  refine follows_query (fun row => ⟨fun id' h => (by cases h; rfl), ?_⟩) fun e =>
    ⟨fun id' h => (by cases h; rfl), rfl⟩
  cases row with
  | none => exact rfl
  | some msg =>
    have next : (wakeups cfg).next (.reading id) (.select .requeue (.message id)) (.ok (some msg)) =
        if msg.status.terminal then .requeueing id msg none else .idle := rfl
    rw [next]
    cases ht : msg.status.terminal with
    | false =>
      simp only [ht, Bool.not_false, if_true, Bool.false_eq_true, if_false]
      exact rfl
    | true =>
      simp only [ht, Bool.not_true, Bool.false_eq_true, if_false, if_true]
      refine follows_perform fun now => ⟨trivial, follows_flush ⟨trivial, ?_⟩ fun e =>
        ⟨trivial, rfl⟩⟩
      exact follows_commit (fun _ => ⟨⟨_, _, rfl, rfl⟩, fun _ => ⟨trivial, rfl⟩⟩) fun e =>
        ⟨⟨_, _, rfl, rfl⟩, rfl⟩

theorem deleteMessage_polls (id : ℕ) : (deleteMessage id).Whole (wakeups cfg) := by
  refine follows_query (fun row => ⟨fun id' h => (by cases h), ?_⟩) fun e =>
    ⟨fun id' h => (by cases h), rfl⟩
  cases row with
  | none => exact rfl
  | some msg =>
    refine follows_flush ⟨trivial, ?_⟩ fun e => ⟨trivial, rfl⟩
    exact follows_commit (fun _ => ⟨trivial, fun _ => ⟨trivial, rfl⟩⟩) fun e => ⟨trivial, rfl⟩

theorem spoolDeleteAll_polls : ∀ rows : List (ℕ × String), (spoolDeleteAll rows).Whole (wakeups cfg)
  | [] => rfl
  | _ :: rest => fun _ => ⟨trivial, spoolDeleteAll_polls rest⟩

theorem sweepPlans_polls : ∀ plans : List (MessageStatus × Time),
    (sweepPlans plans).Whole (wakeups cfg)
  | [] => rfl
  | plan :: plans => by
    refine follows_query (fun rows => ⟨trivial, ?_⟩) fun e => ⟨trivial, rfl⟩
    change Follows (wakeups cfg) _ _ .idle
    split
    · exact follows_commit (fun _ => ⟨fun s hs => (by cases hs), sweepPlans_polls plans⟩)
        fun e => ⟨fun s hs => (by cases hs), rfl⟩
    · refine follows_flush ⟨trivial, ?_⟩ fun e => ⟨trivial, rfl⟩
      refine follows_flush ⟨trivial, ?_⟩ fun e => ⟨trivial, rfl⟩
      refine follows_commit (fun _ => ⟨trivial, ?_⟩) fun e => ⟨trivial, rfl⟩
      exact (spoolDeleteAll_polls rows).bind fun _ => sweepPlans_polls plans

theorem retentionSweep_polls : (retentionSweep cfg).Whole (wakeups cfg) :=
  follows_perform fun _ => ⟨trivial, sweepPlans_polls _⟩

/-- The breaker's code has nothing to do with the wakeup. -/
theorem good_of_ofBreaker {φ : Poll} {o : Op} (h : o.ofBreaker) (a : o.Ans) : φ.good cfg o a := by
  cases o with
  | select site q => cases q <;> trivial
  | commit site ss =>
    have breaker : ∀ s ∈ ss, s.table = .breaker := h.2
    have others : ∀ s ∈ ss, s.table ≠ .messages :=
      fun s hs table => by rw [breaker s hs] at table; cases table
    rcases ss with _ | ⟨s, _ | ⟨s', rest⟩⟩
    · exact fun s hs => (by cases hs)
    · have := others s List.mem_cons_self
      cases s <;> first | exact absurd rfl this | exact others
    · have := others s List.mem_cons_self
      cases s <;> first | exact absurd rfl this | exact others
  | _ => trivial

theorem start_polls : start.Whole (wakeups cfg) := by
  refine Whole.bind (follows_query (fun rows => ⟨trivial, ?_⟩) fun e => ⟨trivial, rfl⟩) fun _ => ?_
  · refine follows_perform fun _ => ⟨trivial, ?_⟩
    exact follows_commit (fun _ => ⟨fun s hs => (by cases hs), rfl⟩) fun e =>
      ⟨fun s hs => (by cases hs), rfl⟩
  refine Whole.bind (CircuitBreaker.tame_load.uses.mono fun o ho a =>
    ⟨good_of_ofBreaker ho a, poll_idle (fun content h => by rw [h] at ho; exact ho) a⟩).whole
      fun _ => ?_
  refine Whole.bind (follows_flush ⟨trivial, ?_⟩ fun e => ⟨trivial, rfl⟩) fun _ => fun _ =>
    ⟨trivial, rfl⟩
  exact follows_commit (fun _ => ⟨.inr ⟨rfl, rfl⟩, rfl⟩) fun e => ⟨.inr ⟨rfl, rfl⟩, rfl⟩

/-- Every job keeps to it. -/
theorem wakeups_keeps {jobs : Job → Bool} (hjobs : ∀ j, jobs j = true → j.ofEnqueuers = true) :
    (system cfg jobs).Keeps (wakeups cfg) := by
  intro i j w h
  simp only [system, Job.admitted, Bool.and_eq_true] at h
  have hj := hjobs j h.1
  cases j with
  | start => exact start_polls
  | producer => exact producer_polls
  | handleData session envelope => exact (handleData_polls session envelope).bind fun _ => rfl
  | requeue id => exact requeue_polls id
  | deleteMessage id => exact deleteMessage_polls id
  | retentionSweep => exact retentionSweep_polls
  | _ => cases hj

end Keeps

/-! ### The invariant -/

/-- The producer is at work. -/
def Poll.produces : Poll → Bool
  | .polling | .asked _ | .selected _ _ | .waiting | .clearing => true
  | _ => false

/-- The time a task was told last, and still knows. -/
def Poll.told : Poll → Option Time
  | .asked now | .stamped now => some now
  | .requeueing _ _ told => told
  | _ => none

/-- A message that is due cannot be missed: it is due by the clock that the producer has read, and
it is not too late for the producer to find it. -/
def Poll.covers (m : Message) : Poll → Prop
  | .asked now => m.nextAttemptAt ≤ now
  | .selected _ [] | .waiting => False
  | _ => True

theorem covers_of_not_produces {φ : Poll} (h : φ.produces = false) (m : Message) : φ.covers m := by
  cases φ <;> trivial

section Next

variable {φ : Poll} {o : Op} {a : o.Ans}

theorem produces_of_next (h : (φ.next o a).produces = true) : φ.produces = true := by
  revert h
  fun_cases Poll.next φ o a
  all_goals
    intro h
    first
    | exact h
    | rfl

/-- What a task is told is what the clock says. -/
theorem told_of_next {now : Time} (h : (φ.next o a).told = some now) :
    φ.told = some now ∨ (⟨o, a⟩ : Σ o : Op, o.Ans) = ⟨.utcnow, now⟩ := by
  revert h
  fun_cases Poll.next φ o a
  all_goals
    intro h
    first
    | exact .inl h
    | (cases h; done)
    | (cases h; exact .inr rfl)

/-- A requeue goes on, or has just read its row. -/
theorem requeueing_of_poll {id : ℕ} {row : Message} {told : Option Time}
    (h : φ.next o a = .requeueing id row told) :
    (∃ told', φ = .requeueing id row told') ∨ φ = .reading id ∧ ∃ site id',
      (⟨o, a⟩ : Σ o : Op, o.Ans) = ⟨.select site (.message id'), .ok (some row)⟩ := by
  revert h
  fun_cases Poll.next φ o a
  all_goals
    intro h
    first
    | exact .inl ⟨_, h⟩
    | (cases h; done)
    | (cases h; exact .inl ⟨_, rfl⟩)
    | (cases h; exact .inr ⟨rfl, _, _, rfl⟩)

/-- A message that cannot be missed cannot be missed after the next operation, if the clock tells
a time at which it is due, and the `SELECT` finds it when it is due. -/
theorem covers_next {m : Message} (h : φ.covers m)
    (clock : ∀ now, (⟨o, a⟩ : Σ o : Op, o.Ans) = ⟨.utcnow, now⟩ → m.nextAttemptAt ≤ now)
    (found : ∀ site now limit now', φ = .asked now' → m.nextAttemptAt ≤ now' →
      (⟨o, a⟩ : Σ o : Op, o.Ans) ≠ ⟨.select site (.dueMessages now limit), .ok []⟩) :
        (φ.next o a).covers m := by
  revert h clock found
  fun_cases Poll.next φ o a
  all_goals
    intro h clock found
    first
    | exact h
    | trivial
    | exact clock _ rfl
    | skip
  rename_i ids
  cases ids with
  | nil => exact absurd rfl (found _ _ _ _ rfl h)
  | cons => trivial

end Next

section Invariants

variable (cfg : Settings)

/-- The messages that are pending are queued and due, and while the wakeup is not set none that
has been notified can be missed. -/
structure Wakes (x : Moment) : Prop where
  producer : ∀ k, ((wakeups cfg).phase x.trace k).produces = true → k = 0
  ids : (x.shared.db.messages.map Message.id).Nodup
  told : ∀ k now, ((wakeups cfg).phase x.trace k).told = some now → now ≤ x.shared.clock
  read : ∀ k id row told, (wakeups cfg).phase x.trace k = .requeueing id row told →
    ∀ m ∈ x.shared.db.messages, m.id = id → m.nextAttemptAt = row.nextAttemptAt ∨
      m.nextAttemptAt ≤ x.shared.clock
  queued : ∀ id i b, pending id x.trace = some (i, b) →
    ∃ m ∈ x.shared.db.messages, m.id = id ∧ m.status = .queued ∧ m.nextAttemptAt ≤ x.shared.clock
  awake : x.shared.wakeup = false → ∀ k id i, pending id x.trace = some (i, true) →
    ∀ m ∈ x.shared.db.messages, m.id = id → ((wakeups cfg).phase x.trace k).covers m

variable {cfg} {w w' : World} {tr : List (Entry Op Op.Ans Job ℚ)} {i : ℕ} {o : Op}
  {a : o.Ans} {c : Choice}

theorem phase_polls_did (tr : List (Entry Op Op.Ans Job ℚ)) (i k : ℕ) (o : Op) (a : o.Ans) :
    (wakeups cfg).phase (.did i o a :: tr) k =
      if k = i then ((wakeups cfg).phase tr i).next o a else (wakeups cfg).phase tr k := by
  rw [Protocol.phase_did, Function.update_apply]
  rfl

/-- What an operation makes of the rows. -/
structure Turns (clock : Time) (e : Entry Op Op.Ans Job ℚ) (ms ms' : List Message) : Prop where
  ids : (ms'.map Message.id).Nodup
  times : ∀ m' ∈ ms', m'.nextAttemptAt ≤ clock ∨ ∃ m ∈ ms, m.id = m'.id ∧
    m.nextAttemptAt = m'.nextAttemptAt
  enqueued : ∀ id i, fate id e = some (some i) → ∃ m' ∈ ms', m'.id = id ∧ m'.status = .queued ∧
    m'.nextAttemptAt ≤ clock
  stays : ∀ id, fate id e = none → ∀ m ∈ ms, m.id = id → m.status = .queued → m ∈ ms'

theorem Turns.of_same {clock : Time} {e : Entry Op Op.Ans Job ℚ} {ms : List Message}
    (ids : (ms.map Message.id).Nodup)
    (nothing : ∀ id i, fate id e ≠ some (some i)) : Turns clock e ms ms :=
  ⟨ids, fun m' hm' => .inr ⟨m', hm', rfl, rfl⟩, fun id i h => absurd h (nothing id i),
    fun _ _ _ hm _ _ => hm⟩

/-- A message that no update concerns stays as it is. -/
theorem mem_applyUpdate_of_not_holds {wh : MessageWhere} {v : MessageValues} {ms : List Message}
    {m : Message} (hm : m ∈ ms) (h : wh.holds m = false) : m ∈ applyUpdate wh v ms :=
  List.mem_map.mpr ⟨m, hm, by rw [h]; rfl⟩

theorem Turns.of_insert {clock : Time} {i : ℕ} {site : Site} {row : Message} {ms : List Message}
    (ids : (ms.map Message.id).Nodup) (queued : row.status = .queued)
    (due : row.nextAttemptAt ≤ clock) :
    Turns clock (.did i (.commit site [.insertMessage row]) (.ok (nextId (ms.map Message.id)))) ms
      (ms ++ [{ row with id := nextId (ms.map Message.id) }]) where
  ids := ids_insert ids row
  times m' hm' := by
    rcases List.mem_append.mp hm' with hm | hm
    · exact .inr ⟨m', hm, rfl, rfl⟩
    · rw [List.mem_singleton.mp hm]
      exact .inl due
  enqueued id k h := by
    simp only [fate] at h
    split at h
    · rename_i hid
      exact ⟨_, List.mem_append_right _ List.mem_cons_self, hid, queued, due⟩
    · cases h
  stays id _ m hm _ _ := List.mem_append_left _ hm

theorem Turns.of_requeue {clock : Time} {i n id : ℕ} {site : Site} {row : Message} {now : Time}
    {ms : List Message}
    (ids : (ms.map Message.id).Nodup) (found : ∃ m ∈ ms, m.id = id) (told : now ≤ clock)
    (read : ∀ m ∈ ms, m.id = id → m.nextAttemptAt = row.nextAttemptAt ∨ m.nextAttemptAt ≤ clock) :
    Turns clock (.did i (.commit site [.updateMessage id (requeueValues row now)]) (.ok n)) ms
      (applyUpdate { ids := some [id] } (requeueValues row now) ms) := by
  have due : ∀ m ∈ ms, m.id = id → ((requeueValues row now).apply m).nextAttemptAt ≤ clock := by
    intro m hm hid
    simp only [MessageValues.apply, requeueValues, changed]
    split
    · rename_i same
      rcases read m hm hid with old | old
      · simpa [old, ← same] using told
      · simpa using old
    · simpa using told
  refine ⟨by rwa [ids_applyUpdate], fun m' hm' => ?_, fun id' k h => ?_, fun id' h m hm hid _ => ?_⟩
  · obtain ⟨m, hm, hid, ⟨-, rfl⟩ | ⟨hw, rfl⟩⟩ := mem_applyUpdate hm'
    · exact .inr ⟨m', hm, rfl, rfl⟩
    · refine .inl (due m hm ?_)
      simpa [MessageWhere.holds] using hw
  · simp only [fate] at h
    split at h
    · rename_i hid
      subst hid
      obtain ⟨m, hm, hid⟩ := found
      exact ⟨_, mem_applyUpdate_of_holds _ _ hm (by simp [MessageWhere.holds, hid]), hid,
        rfl, due m hm hid⟩
    · cases h
  · simp only [fate] at h
    split at h
    · cases h
    · rename_i other
      exact mem_applyUpdate_of_not_holds hm (by simp [MessageWhere.holds, hid, Ne.symm other])

theorem Turns.of_update {clock : Time} {i n : ℕ} {site : Site} {wh : MessageWhere}
    {v : MessageValues} {ms : List Message}
    (ids : (ms.map Message.id).Nodup) (next : v.nextAttemptAt = none)
    (which : (∃ ids, wh = { ids := some ids } ∧ v.status = .sending) ∨
      wh = { status := some .sending }) :
    Turns clock (.did i (.commit site [.updateMessages wh v]) (.ok n)) ms
      (applyUpdate wh v ms) := by
  refine ⟨by rwa [ids_applyUpdate], fun m' hm' => .inr ?_, fun id' k h => ?_, fun id' h m hm hid queued => ?_⟩
  · obtain ⟨m, hm, hid, ⟨-, rfl⟩ | ⟨-, rfl⟩⟩ := mem_applyUpdate hm'
    · exact ⟨m', hm, rfl, rfl⟩
    · exact ⟨m, hm, hid, by simp [MessageValues.apply, next]⟩
  · simp only [fate] at h
    split at h <;> cases h
  · refine mem_applyUpdate_of_not_holds hm ?_
    simp only [fate] at h
    rcases which with ⟨ids, rfl, sending⟩ | rfl
    · split at h
      · cases h
      · rename_i other
        simp only [sending, true_and] at other
        simpa [MessageWhere.holds, hid] using other
    · simp [MessageWhere.holds, queued]

theorem Turns.of_delete {clock : Time} {i n : ℕ} {site : Site} {ss : List Stmt} {ms : List Message}
    {gone : List ℕ} (ids : (ms.map Message.id).Nodup)
    (tells : ∀ id, fate id (.did i (.commit site ss) (.ok n)) = if id ∈
      gone then some none else none) :
    Turns clock (.did i (.commit site ss) (.ok n)) ms (ms.filter fun m => m.id ∉ gone) := by
  refine ⟨ids.sublist (List.filter_sublist.map _), fun m' hm' =>
    .inr ⟨m', List.mem_of_mem_filter hm', rfl, rfl⟩, fun id k h => ?_, fun id h m hm hid _ => ?_⟩
  · rw [tells] at h
    split at h <;> cases h
  · rw [tells] at h
    split at h
    · cases h
    · rename_i there
      exact List.mem_filter.mpr ⟨hm, decide_eq_true (hid ▸ there)⟩

/-- What a commit makes of the rows. -/
theorem turns_of_commit (h : Wakes cfg ⟨w, tr⟩) {site : Site} {ss : List Stmt} {a : Except Exc ℕ}
    (he : exec cfg i (.commit site ss) c w = some (a, w')) (hg : ((wakeups cfg).phase tr i).writes ss) :
    Turns w.clock (.did i (.commit site ss) a) w.db.messages w'.db.messages := by
  obtain ⟨db, hx, rfl, rfl⟩ | ⟨⟨e, rfl⟩, rfl⟩ := exec_commit he
  swap
  · exact .of_same h.ids fun id k hf => by
      unfold fate at hf
      split at hf <;> first | cases hf | (rename_i heq; cases heq)
  have beside : (∀ s ∈ ss, s.table ≠ .messages) →
      Turns w.clock (.did i (.commit site ss) (.ok (w.db.insertedId ss))) w.db.messages db.messages := by
    intro table
    rw [(Db.execAll_beside table hx).1]
    refine .of_same h.ids fun id k hf => ?_
    unfold fate at hf
    split at hf <;> first | cases hf | (rename_i heq; cases heq; exact absurd rfl (table _ List.mem_cons_self))
  rcases ss with _ | ⟨s, _ | ⟨s', rest⟩⟩
  · exact beside hg
  · cases s with
    | insertMessage row =>
      obtain ⟨queued, hφ⟩ := hg
      cases hx
      exact .of_insert h.ids queued (h.told i _ (by rw [hφ]; rfl))
    | updateMessage id v =>
      obtain ⟨row, now, hφ, rfl⟩ := hg
      simp only [Db.execAll, Stmt.exec] at hx
      split at hx
      · rename_i found
        cases hx
        obtain ⟨m, hm, hid⟩ := List.any_eq_true.mp found
        exact .of_requeue h.ids ⟨m, hm, of_decide_eq_true hid⟩ (h.told i now (by rw [hφ]; rfl))
          (h.read i id row _ hφ)
      · cases hx
    | updateMessages wh v =>
      cases hx
      obtain ⟨now, ids, -, -, rfl, rfl⟩ | ⟨rfl, rfl⟩ := hg
      · exact .of_update h.ids rfl (.inl ⟨ids, rfl, rfl⟩)
      · exact .of_update h.ids rfl (.inr rfl)
    | deleteMessage id =>
      cases hx
      have turns : Turns w.clock
          (.did i (.commit site [.deleteMessage id]) (.ok (w.db.insertedId [.deleteMessage id])))
          w.db.messages (w.db.messages.filter fun m => m.id ∉ [id]) :=
        .of_delete h.ids fun id' => by simp [fate, eq_comm]
      simpa using turns
    | _ => exact beside hg
  · cases s with
    | deleteAttempts ids =>
      rcases rest with _ | ⟨s'', rest⟩
      · cases s' with
        | deleteMessages ids' =>
          cases hx
          exact .of_delete h.ids fun id => rfl
        | _ => exact beside hg
      · cases s' <;> exact beside hg
    | _ => exact beside hg

/-- What an operation makes of the rows. -/
theorem turns_of_exec (h : Wakes cfg ⟨w, tr⟩) (he : exec cfg i o c w = some (a, w'))
    (hg : (wakeups cfg).good ((wakeups cfg).phase tr i) o a) :
    Turns w.clock (.did i o a) w.db.messages w'.db.messages := by
  by_cases part : o.part = some .db
  · cases o with
    | commit site ss => exact turns_of_commit h he hg
    | _ => cases part
  · rw [(exec_frame cfg he).db part]
    refine .of_same h.ids fun id k hf => ?_
    cases o with
    | commit site ss => exact part rfl
    | _ => cases hf

/-- The producer's `SELECT` finds something when something is due. -/
theorem selectDue_ne_nil {ms : List Message} {now : Time} {limit : ℕ} {m : Message} (hm : m ∈ ms)
    (queued : m.status = .queued) (due : m.nextAttemptAt ≤ now) (room : 0 < limit) :
    selectDue ms now limit ≠ [] := by
  intro none
  have there : m ∈ (ms.filter fun m => m.status = .queued ∧
      m.nextAttemptAt ≤ now).insertionSort Message.before := by
    rw [List.mem_insertionSort, List.mem_filter]
    exact ⟨hm, decide_eq_true ⟨queued, due⟩⟩
  simp only [selectDue, List.map_eq_nil_iff, List.take_eq_nil_iff] at none
  rcases none with none | none
  · exact absurd none room.ne'
  · rw [none] at there
    cases there

/-- Only `notify_new_message` and the producer's `clear` change the wakeup. -/
theorem wakeup_of_exec (he : exec cfg i o c w = some (a, w')) (unset : w'.wakeup = false) :
    (⟨o, a⟩ : Σ o : Op, o.Ans) = ⟨.clearWakeup, ()⟩ ∨ o ≠ .notify ∧ w.wakeup = false := by
  by_cases part : o.part = some .wakeup
  · cases o with
    | clearWakeup => exact .inl rfl
    | notify =>
      cases c <;> delta exec at he <;> simp only [reduceCtorEq] at he
      cases he
      cases unset
    | _ => cases part
  · rw [(exec_frame cfg he).wakeup part] at unset
    exact .inr ⟨fun h => part (by rw [h]; rfl), unset⟩

theorem Wakes.did (h : Wakes cfg ⟨w, tr⟩) (he : exec cfg i o c w = some (a, w'))
    (hg : (wakeups cfg).good ((wakeups cfg).phase tr i) o a) :
    Wakes cfg ⟨w', .did i o a :: tr⟩ := by
  have turns := turns_of_exec h he hg
  have clock : w'.clock = w.clock := (exec_frame cfg he).clock
  have told : ∀ k now, ((wakeups cfg).phase (.did i o a :: tr) k).told = some now →
      now ≤ w.clock := by
    intro k now hk
    rw [phase_polls_did] at hk
    split at hk
    · rcases told_of_next hk with old | heq
      · exact h.told i now old
      · cases heq
        exact (exec_utcnow he).1.le
    · exact h.told k now hk
  have producer : ∀ k, ((wakeups cfg).phase (.did i o a :: tr) k).produces = true → k = 0 := by
    intro k hk
    rw [phase_polls_did] at hk
    split at hk
    · subst k
      exact h.producer i (produces_of_next hk)
    · exact h.producer k hk
  have queued : ∀ id k b, pending id (.did i o a :: tr) = some (k, b) →
      ∃ m ∈ w'.db.messages, m.id = id ∧ m.status = .queued ∧ m.nextAttemptAt ≤ w.clock := by
    intro id k b hp
    rcases pending_cons hp with ⟨new, -⟩ | ⟨none, b', old, -⟩
    · exact turns.enqueued id k new
    · obtain ⟨m, hm, hid, hq, due⟩ := h.queued id k b' old
      exact ⟨m, turns.stays id none m hm hid hq, hid, hq, due⟩
  refine ⟨producer, turns.ids, fun k now hk => clock ▸ told k now hk,
    fun k id row asked hk m' hm' hid => ?_,
    fun id k b hp => clock ▸ queued id k b hp, fun unset k id k' hp m' hm' hid => ?_⟩
  · -- what a requeue has read
    rw [show World.clock _ = _ from clock]
    have old : ∀ asked', (wakeups cfg).phase tr k = .requeueing id row asked' →
        m'.nextAttemptAt = row.nextAttemptAt ∨ m'.nextAttemptAt ≤ w.clock := by
      intro asked' was
      rcases turns.times m' hm' with due | ⟨m, hm, hmid, same⟩
      · exact .inr due
      · rw [← same]
        exact h.read k id row asked' was m hm (hmid.trans hid)
    rw [phase_polls_did] at hk
    split at hk
    · subst k
      rcases requeueing_of_poll hk with ⟨asked', was⟩ | ⟨reading, site, id', heq⟩
      · exact old asked' was
      · cases heq
        obtain rfl : id' = id := hg id reading
        obtain ⟨hans, rfl⟩ := exec_select he
        rcases hans with hans | ⟨e, hans⟩
        · have found : some row = w'.db.messages.find? fun m => m.id = id' := Except.ok.inj hans
          have hrow : row.id = id' := by simpa using List.find?_some found.symm
          rw [List.inj_on_of_nodup_map h.ids hm' (List.mem_of_find?_eq_some found.symm)
            (hid.trans hrow.symm)]
          exact .inl rfl
        · cases hans
    · exact old asked hk
  · -- who would miss the message
    rcases pending_cons hp with ⟨-, hb⟩ | ⟨none, b', old, hb⟩
    · cases hb
    obtain ⟨m, hm, hmid, hq, due⟩ := h.queued id k' b' old
    obtain rfl : m' = m := List.inj_on_of_nodup_map turns.ids hm' (turns.stays id none m hm hmid hq)
        (hid.trans hmid.symm)
    rcases wakeup_of_exec he unset with heq | ⟨noNotify, unset'⟩
    · -- the producer has cleared the wakeup, and will select again
      cases heq
      have clearing : (wakeups cfg).phase tr i = .clearing := hg
      rw [phase_polls_did]
      split
      · rw [clearing]
        trivial
      · rename_i other
        refine covers_of_not_produces ?_ m'
        by_contra produces
        have zero := h.producer k (by simpa using produces)
        exact other (zero.trans (h.producer i (by rw [clearing]; rfl)).symm)
    · have notified : b' = true := by
        have not : notifies k' (.did i o a) = false := by
          cases o with
          | notify => exact absurd rfl noNotify
          | _ => rfl
        rw [not, Bool.or_false] at hb
        exact hb.symm
      subst notified
      have before := h.awake unset' k id k' old m' hm hmid
      rw [phase_polls_did]
      split
      · subst k
        refine covers_next before (fun now heq => ?_) fun site now limit now' asked
          covered heq => ?_
        · cases heq
          rw [(exec_utcnow he).1]
          exact due
        · -- the `SELECT` finds what is due
          cases heq
          obtain ⟨hans, -⟩ := exec_select he
          obtain ⟨hφ, rfl⟩ : (wakeups cfg).phase tr i = .asked now ∧
              limit = cfg.dispatch.claimBatchSize := hg
          rw [asked] at hφ
          cases hφ
          rcases hans with hans | ⟨e, hans⟩
          · have nothing : selectDue w.db.messages now cfg.dispatch.claimBatchSize = [] :=
              (Except.ok.inj hans).symm
            exact selectDue_ne_nil hm hq covered (PNat.pos _) nothing
          · cases hans
      · exact before

theorem Wakes.step {jobs : Job → Bool} {x x' : Moment} (h : Wakes cfg x)
    (hs : (system cfg jobs).Step (wakeups cfg) x x') : Wakes cfg x' := by
  cases hs with
  | @start w tr i j ha hi =>
    have same : ∀ id, pending id (.start i j :: tr) = pending id tr :=
      fun id => pending_quiet rfl fun _ => rfl
    have phase : ∀ k, (wakeups cfg).phase (.start i j :: tr) k = if k = i then j.poll
        else (wakeups cfg).phase tr k :=
      fun k => by rw [Protocol.phase_start, Function.update_apply]; rfl
    have ha : Job.admitted jobs i j w = true := ha
    simp only [Job.admitted, Bool.and_eq_true] at ha
    refine ⟨fun k hk => ?_, h.ids, fun k now hk => ?_, fun k id row told hk => ?_,
      fun id k b hp => ?_,
      fun unset k id k' hp m hm hid => ?_⟩
    · rw [phase] at hk
      split at hk
      · subst k
        cases j with
        | producer =>
          simp only [Bool.and_eq_true, decide_eq_true_eq] at ha
          exact ha.2.1
        | _ => cases hk
      · exact h.producer k hk
    · rw [phase] at hk
      split at hk
      · cases j <;> cases hk
      · exact h.told k now hk
    · rw [phase] at hk
      split at hk
      · cases j <;> cases hk
      · exact h.read k id row told hk
    · rw [same] at hp
      exact h.queued id k b hp
    · rw [same] at hp
      rw [phase]
      split
      · cases j <;> trivial
      · exact h.awake unset k id k' hp m hm hid
  | @env w tr d =>
    have same : ∀ id, pending id (.env d :: tr) = pending id tr :=
      fun id => pending_quiet rfl fun _ => rfl
    -- the clock never goes back
    have later : w.clock ≤ w.clock + max d 0 := le_add_of_nonneg_right (le_max_right d 0)
    refine ⟨h.producer, h.ids, fun k now hk => (h.told k now hk).trans later,
      fun k id row told hk m hm hid =>
      (h.read k id row told hk m hm hid).imp_right fun due => due.trans later, fun id k b hp => ?_,
      fun unset k id k' hp => ?_⟩
    · rw [same] at hp
      obtain ⟨m, hm, hid, hq, due⟩ := h.queued id k b hp
      exact ⟨m, hm, hid, hq, due.trans later⟩
    · rw [same] at hp
      exact h.awake unset k id k' hp
  | @crash w tr =>
    have same : ∀ id, pending id (.crash :: tr) = pending id tr :=
      fun id => pending_quiet rfl fun _ => rfl
    refine ⟨fun k hk => (by cases hk), h.ids, fun k now hk => (by cases hk), fun k id row told hk =>
      (by cases hk), fun id k b hp => ?_, fun unset k id k' hp m hm hid => trivial⟩
    rw [same] at hp
    exact h.queued id k b hp
  | did he hg => exact h.did he hg

theorem Wakes.init {w : World} (ids : (w.db.messages.map Message.id).Nodup) : Wakes cfg ⟨w, []⟩ :=
  ⟨fun k hk => (by cases hk), ids, fun k now hk => (by cases hk), fun k id row told hk =>
    (by cases hk), fun id i b hp => (by cases hp), fun unset k id i hp => (by cases hp)⟩

end Invariants

/-- **No wakeup is lost.** In every run of the producer, of any number of `handle_DATA` and
`requeue` calls, of deletions, crashes and restarts: while the producer waits and `_wakeup` is not
set, every message whose enqueuer has completed its `notify_new_message` has been claimed or
deleted since, or enqueued once more by a call that has not completed its own. -/
theorem no_lost_wakeup (cfg : Settings) {jobs : Job → Bool} (hj : ∀ j, jobs j = true →
    j.ofEnqueuers = true)
    {w : World} (ids : (w.db.messages.map Message.id).Nodup) {s : Pool Op Op.Ans Exc World Job ℚ}
    (h : (system cfg jobs).Reachable Machine.Free (Machine.boot w) s) {k : ℕ} {j : Job}
    {f : Unit → Act Unit}
    (waiting : s.tasks k = some (j, .op .waitWakeup f)) (unset : s.shared.wakeup = false) {id i : ℕ}
    (notified : enqueuedBy id i s.trace = some true) : ∃ i' ≠ i,
      pending id s.trace = some (i', false) := by
  obtain ⟨wakes, phases⟩ := Machine.invariant (wakeups_keeps hj) (Wakes cfg) (Wakes.init ids)
    (fun h hs _ => h.step hs) h
  have rest := phases k
  rw [waiting] at rest
  have hφ : (wakeups cfg).phase s.trace k = .waiting := (rest ()).1
  have missed : ∀ i', pending id s.trace ≠ some (i', true) := by
    intro i' hp
    obtain ⟨m, hm, hid, -, -⟩ := wakes.queued id i' true hp
    have covered := wakes.awake unset k id i' hp m hm hid
    rw [hφ] at covered
    exact covered
  obtain ⟨i', b, hp, same⟩ := pending_of_enqueuedBy notified
  cases b with
  | true => exact absurd hp (missed i')
  | false => exact ⟨i', fun h => (by cases same h), hp⟩

namespace Example

/-- The producer finds nothing, and waits. -/
def toWait : List (Move Choice Job ℚ) := .start 0 .producer :: List.replicate 3 (.run 0 .ok)

/-- The producer waits, and two requeues read the message. Task 2 completes its call, and the
producer wakes up and reads the clock; task 3 commits a second later, and the producer finds
nothing. -/
def stampedLater : List (Move Choice Job ℚ) := List.flatten
  [[.start 0 .start], List.replicate 9 (.run 0 .ok), toWait, [.start 2 (.requeue 1), .run 2 .ok,
    .start 3 (.requeue 1), .run 3 .ok], List.replicate 4 (.run 2 .ok),
      List.replicate 2 (.run 0 .ok),
    [.start 0 .producer, .run 0 .ok, .env 1], List.replicate 3 (.run 3 .ok),
      List.replicate 2 (.run 0 .ok)]

/-- Task `k` waits for the wakeup. -/
def waits (k : ℕ) (s : Pool Op Op.Ans Exc World Job ℚ) : Bool :=
  match s.tasks k with
  | some (_, .op .waitWakeup _) => true
  | _ => false

theorem exists_of_waits {k : ℕ} {s : Pool Op Op.Ans Exc World Job ℚ} (h : waits k s = true) :
    ∃ j f, s.tasks k = some (j, .op .waitWakeup f) := by
  unfold waits at h
  split at h
  · exact ⟨_, _, ‹_›⟩
  · cases h

/-- What a state tells of the wakeup and of message 1. -/
def wakeupOf (s : Pool Op Op.Ans Exc World Job ℚ) : Bool × Bool × Option Bool × Option (ℕ × Bool) :=
  (waits 0 s, s.shared.wakeup, enqueuedBy 1 2 s.trace, pending 1 s.trace)

/-- While the producer waits, the call that has enqueued the message once more is still to set the
wakeup. -/
theorem no_lost_wakeup_stampedLater : ∃ s,
    (system twoPerDay Job.ofEnqueuers).runFrom (Machine.boot oneDead) stampedLater = some s ∧
      enqueuedBy 1 2 s.trace = some true ∧ ∃ i' ≠ 2, pending 1 s.trace = some (i', false) := by
  obtain ⟨s, hs, ha⟩ : ∃ s, (system twoPerDay Job.ofEnqueuers).runFrom
      (Machine.boot oneDead) stampedLater = some s ∧
      wakeupOf s = (true, false, some true, some (3, false)) :=
        Option.map_eq_some_iff.mp (by decide +kernel)
  simp only [wakeupOf, Prod.mk.injEq] at ha
  obtain ⟨waiting, unset, notified, -⟩ := ha
  obtain ⟨j, f, hw⟩ := exists_of_waits waiting
  exact ⟨s, hs, notified,
    no_lost_wakeup twoPerDay (fun j hj => hj) (by decide) (Machine.Reachable.refl.runFrom hs)
    hw unset notified⟩

/-- The producer waits with the wakeup not set, and the message whose requeue task 2 has completed
has been neither claimed nor deleted. -/
theorem unclaimed_stampedLater : ∃ s j f,
    (system twoPerDay Job.ofEnqueuers).Reachable Machine.Free (Machine.boot oneDead) s ∧
      s.tasks 0 = some (j, .op .waitWakeup f) ∧ s.shared.wakeup = false ∧
        enqueuedBy 1 2 s.trace = some true := by
  obtain ⟨s, hs, ha⟩ : ∃ s, (system twoPerDay Job.ofEnqueuers).runFrom
      (Machine.boot oneDead) stampedLater = some s ∧
      wakeupOf s = (true, false, some true, some (3, false)) :=
        Option.map_eq_some_iff.mp (by decide +kernel)
  simp only [wakeupOf, Prod.mk.injEq] at ha
  obtain ⟨waiting, unset, notified, -⟩ := ha
  obtain ⟨j, f, hw⟩ := exists_of_waits waiting
  exact ⟨s, j, f, Machine.Reachable.refl.runFrom hs, hw, unset, notified⟩

end Example

end SmtpSwitch
