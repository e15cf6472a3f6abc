import SmtpSwitch.Delivery.Custody

/-!
# Requeues and retention sweeps

An operator's requeue and the retention sweep change `messages` beside the dispatcher: each
reads first, and writes in a later step what it has decided on the rows it read. `Upkeep` says
how far such a call has got. A task is either at one of these or at a duty of the dispatcher's,
so that a step of the system is a step of `delivery` or one of theirs (`upkeep_or_delivery`),
and what they do to the rows is said once (`UpkeepChange`).

Ownership survives them as long as no requeue hits a row that is being sent and no
sweep deletes one (`Own.beside`).
-/

namespace SmtpSwitch

open Coop Coop.Prog

/-! ### The protocol -/

/-- How far a requeue or a sweep has got. -/
inductive Upkeep where
  | idle
  /-- `requeue`, before it reads the row. -/
  | requeue (id : ℕ)
  /-- `requeue` has read this row, which is at its end; the time it was told. -/
  | requeueing (id : ℕ) (row : Message) (told : Option Time)
  /-- `_retention_sweep`, before it is told the time. -/
  | sweep
  /-- The sweep still has these plans. -/
  | sweeping (plans : List (MessageStatus × Time))
  /-- The sweep has selected these rows, and has these plans after that. -/
  | swept (plan : MessageStatus × Time) (rows : List (ℕ × String))
      (plans : List (MessageStatus × Time))
  /-- The sweep has deleted rows, and still has to remove these files. -/
  | unlinking (rows : List (ℕ × String)) (plans : List (MessageStatus × Time))

/-- The sweep goes on with what plans there are. -/
def Upkeep.plansLeft : List (MessageStatus × Time) → Upkeep
  | [] => .idle
  | plans => .sweeping plans

/-- The sweep goes on with what files there are. -/
def Upkeep.filesLeft (plans : List (MessageStatus × Time)) : List (ℕ × String) → Upkeep
  | [] => .plansLeft plans
  | rows => .unlinking rows plans

variable (cfg : Settings)

/-- The next of an upkeep. -/
def Upkeep.next : Upkeep → (o : Op) → o.Ans → Upkeep
  | .requeue id, .select _ (.message _), .ok (some row) =>
    if row.status.terminal then .requeueing id row none else .idle
  | .requeue _, .select _ _, _ => .idle
  | .requeueing id row _, .utcnow, now => .requeueing id row (some now)
  | .requeueing _ _ _, .flush _, .error _ | .requeueing _ _ _, .commit _ _, _ => .idle
  | .sweep, .utcnow, now => .plansLeft (retentionPlans cfg now)
  | .sweeping (plan :: plans), .select _ (.expiredMessages _ _ _), .ok rows =>
      .swept plan rows plans
  | .sweeping _, .select _ _, .error _ => .idle
  | .swept _ _ _, .flush _, .error _ | .swept _ _ _, .commit _ _, .error _ => .idle
  | .swept _ _ plans, .commit _ [], .ok _ => .plansLeft plans
  | .swept _ rows plans, .commit _ _, .ok _ => .filesLeft plans rows
  | .unlinking rows plans, .spoolDelete _, _ => .filesLeft plans rows.tail
  | u, _, _ => u

/-- The sessions that may be committed. -/
def Upkeep.writes (u : Upkeep) : List Stmt → Prop
  | [.updateMessage id v] => ∃ row now, u = .requeueing id row (some now) ∧
      v = requeueValues row now
  | [.deleteAttempts ids, .deleteMessages ids'] => ∃ plan rows plans, u = .swept plan rows plans ∧
      ids = rows.map Prod.fst ∧ ids' = rows.map Prod.fst
  | [] => True
  | _ => False

/-- The operations in order. -/
def Upkeep.good (u : Upkeep) : (o : Op) → o.Ans → Prop
  | .utcnow, _ | .notify, _ | .flush _, _ => True
  | .select _ (.message id), _ => u = .requeue id
  | .select _ (.expiredMessages status cutoff _), _ => ∃ plans,
      u = .sweeping ((status, cutoff) :: plans)
  | .commit _ ss, _ => u.writes ss
  | .spoolDelete path, _ => ∃ id rows plans, u = .unlinking ((id, path) :: rows) plans
  | _, _ => False

/-- What a job starts with. -/
def Job.upkeep : Job → Upkeep
  | .requeue id => .requeue id
  | .retentionSweep => .sweep
  | _ => .idle

/-- The protocol of the requeues and the sweeps. -/
def upkeep : Protocol Op Op.Ans Job Upkeep where
  idle := .idle
  enter := Job.upkeep
  next := Upkeep.next cfg
  good := Upkeep.good

/-- The protocol of all that changes `messages`. -/
def dispatch : Protocol Op Op.Ans Job (Duty × Upkeep) := (delivery cfg).either (upkeep cfg)

/-- The jobs that change `messages`, and the limiter's `prune`. -/
def Job.onMessages (j : Job) : Bool :=
  j.ofProcess || match j with
    | .requeue _ | .retentionSweep => true
    | _ => false

/-! ### The code keeps to it -/

variable {cfg}

theorem upkeep_idle (o : Op) (a : o.Ans) : (upkeep cfg).next .idle o a = .idle := by
  simp [upkeep, Upkeep.next]

theorem idle_of_upkeep {u : Upkeep} {o : Op} {a : o.Ans} (h : u.good o a) :
    Duty.idle.next o a = .idle := by
  cases o <;> first | rfl | cases h

theorem requeue_follows (id : ℕ) :
    (requeue id).Follows (upkeep cfg) (fun _ u => u = .idle) (.requeue id) := by
  refine follows_query (fun row => ⟨rfl, ?_⟩) fun e => ⟨rfl, rfl⟩
  cases row with
  | none => exact rfl
  | some msg =>
    cases ht : msg.status.terminal with
    | false =>
      simp [upkeep, Upkeep.next, ht]
      exact rfl
    | true =>
      have next : (upkeep cfg).next (.requeue id) (.select .requeue (.message id))
          (.ok (some msg)) =
          .requeueing id msg none := by simp [upkeep, Upkeep.next, ht]
      rw [next]
      simp only [ht, Bool.not_true, Bool.false_eq_true, if_false]
      refine follows_perform fun now => ⟨trivial, follows_flush ⟨trivial, ?_⟩ fun e =>
        ⟨trivial, rfl⟩⟩
      exact follows_commit (fun _ => ⟨⟨_, _, rfl, rfl⟩, fun _ => ⟨trivial, rfl⟩⟩)
        fun e => ⟨⟨_, _, rfl, rfl⟩, rfl⟩

theorem spoolDeleteAll_follows (plans : List (MessageStatus × Time)) : ∀ rows : List (ℕ × String),
    (spoolDeleteAll rows).Follows (upkeep cfg)
      (fun r u => r = .ok () ∧ u = .plansLeft plans) (.filesLeft plans rows)
  | [] => ⟨rfl, rfl⟩
  | (id, _) :: rest => fun _ => ⟨⟨id, rest, plans, rfl⟩, spoolDeleteAll_follows plans rest⟩

theorem sweepPlans_follows : ∀ plans : List (MessageStatus × Time),
    (sweepPlans plans).Follows (upkeep cfg) (fun _ u => u = .idle) (.plansLeft plans)
  | [] => rfl
  | plan :: plans => by
    refine follows_query (fun rows => ⟨⟨plans, rfl⟩, ?_⟩) fun e => ⟨⟨plans, rfl⟩, rfl⟩
    change Follows (upkeep cfg) _ _ (.swept plan rows plans)
    split
    · exact follows_commit (fun _ => ⟨trivial, sweepPlans_follows plans⟩) fun e => ⟨trivial, rfl⟩
    · refine follows_flush ⟨trivial, ?_⟩ fun e => ⟨trivial, rfl⟩
      refine follows_flush ⟨trivial, ?_⟩ fun e => ⟨trivial, rfl⟩
      refine follows_commit (fun _ => ⟨⟨plan, rows, plans, rfl, rfl, rfl⟩, ?_⟩)
        fun e => ⟨⟨plan, rows, plans, rfl, rfl, rfl⟩, rfl⟩
      refine Follows.bind (spoolDeleteAll_follows plans rows) ?_ fun e u h => by cases h.1
      rintro _ _ ⟨-, rfl⟩
      exact sweepPlans_follows plans

theorem retentionSweep_follows :
    (retentionSweep cfg).Follows (upkeep cfg) (fun _ u => u = .idle) .sweep :=
  follows_perform fun _ => ⟨trivial, sweepPlans_follows _⟩

/-- Every job keeps to it. -/
theorem dispatch_keeps {jobs : Job → Bool} (hjobs : ∀ j, jobs j = true → j.onMessages = true) :
    (system cfg jobs).Keeps (dispatch cfg) := by
  have right : ∀ j : Job, j.duty = .idle →
      (j.code cfg).Follows (upkeep cfg) (fun _ u => u = .idle) j.upkeep →
        (j.code cfg).Follows (dispatch cfg) (fun _ x => x = (dispatch cfg).idle)
        ((dispatch cfg).enter j) := by
    intro j hd h
    have start : (dispatch cfg).enter j = (.idle, j.upkeep) := Prod.ext hd rfl
    rw [start]
    exact (Follows.right (fun u o a hg => idle_of_upkeep hg) h).mono fun r x hx =>
      Prod.ext hx.1 hx.2
  intro i j w h
  simp only [system, Job.admitted, Bool.and_eq_true] at h
  have hj := hjobs j h.1
  by_cases process : j.ofProcess = true
  · have start : (dispatch cfg).enter j = (j.duty, .idle) :=
      Prod.ext rfl (by cases j <;> first | rfl | cases process)
    change Follows (dispatch cfg) _ (j.code cfg) ((dispatch cfg).enter j)
    rw [start]
    exact (Follows.left (fun φ o a _ => upkeep_idle o a) (code_follows process)).mono
      fun r x hx => Prod.ext hx.1 hx.2
  · cases j with
    | requeue id => exact right (.requeue id) rfl (requeue_follows id)
    | retentionSweep => exact right .retentionSweep rfl retentionSweep_follows
    | _ => first | exact absurd rfl process | cases hj

/-- An operation is in order in one of the two. -/
theorem dispatch_good {tr : List (Entry Op Op.Ans Job ℚ)} {i : ℕ} {o : Op} {a : o.Ans}
    (h : (dispatch cfg).good ((dispatch cfg).phase tr i) o a) :
    (upkeep cfg).phase tr i = .idle ∧ ((delivery cfg).phase tr i).good cfg o a ∨
      (delivery cfg).phase tr i = .idle ∧ ((upkeep cfg).phase tr i).good o a := by
  have h : ((delivery cfg).either (upkeep cfg)).good
      (((delivery cfg).either (upkeep cfg)).phase tr i) o a := h
  rw [Protocol.phase_either] at h
  exact h

/-! ### What they do to the rows -/

/-- What a requeue or a sweep can do in one step. -/
inductive UpkeepChange (cfg : Settings) (x x' : Moment) (i : ℕ) : Prop where
  /-- No row is changed. -/
  | none : x'.shared.db.messages = x.shared.db.messages → UpkeepChange cfg x x' i
  /-- A requeue's update. -/
  | requeued {site : Site} {id : ℕ} {row : Message} {now : Time} {n : ℕ} :
      (upkeep cfg).phase x.trace i = .requeueing id row (some now) →
      x'.trace = .did i (.commit site [.updateMessage id (requeueValues row now)])
        (.ok n) :: x.trace →
      (∃ m ∈ x.shared.db.messages, m.id = id) →
      x'.shared.db.messages = applyUpdate { ids := some [id] }
        (requeueValues row now) x.shared.db.messages →
        UpkeepChange cfg x x' i
  /-- A sweep's delete. -/
  | swept {site : Site} {plan : MessageStatus × Time} {rows : List (ℕ × String)}
      {plans : List (MessageStatus × Time)} {n : ℕ} :
      (upkeep cfg).phase x.trace i = .swept plan rows plans →
      x'.trace = .did i (.commit site [.deleteAttempts (rows.map Prod.fst),
        .deleteMessages (rows.map Prod.fst)]) (.ok n) :: x.trace →
      x'.shared.db.messages = (x.shared.db.messages.filter fun m => m.id ∉ rows.map Prod.fst) →
        UpkeepChange cfg x x' i

/-- A step of a requeue or a sweep: it leaves all but the rows, the files and the wakeup alone. -/
structure UpkeepStep (cfg : Settings) (x x' : Moment) (i : ℕ) : Prop where
  idle : (delivery cfg).phase x.trace i = .idle
  did : ∃ o a, x'.trace = .did i o a :: x.trace ∧ ((upkeep cfg).phase x.trace i).good o a
  up : x'.shared.up = x.shared.up
  queue : x'.shared.queue = x.shared.queue
  clock : x'.shared.clock = x.shared.clock
  duties : (delivery cfg).phase x'.trace = (delivery cfg).phase x.trace
  change : UpkeepChange cfg x x' i

/-- A commit of a requeue or a sweep. -/
theorem upkeepChange_of_commit {w w' : World} {tr : List (Entry Op Op.Ans Job ℚ)}
    {i : ℕ} {site : Site} {ss : List Stmt} {a : Except Exc ℕ} {c : Choice}
    (he : exec cfg i (.commit site ss) c w = some (a, w'))
    (hg : ((upkeep cfg).phase tr i).writes ss) :
    UpkeepChange cfg ⟨w, tr⟩ ⟨w', .did i (.commit site ss) a :: tr⟩ i := by
  obtain ⟨db, hx, rfl, rfl⟩ | ⟨-, rfl⟩ := exec_commit he
  swap
  · exact .none rfl
  rcases ss with _ | ⟨s, _ | ⟨s', _ | ⟨s'', rest⟩⟩⟩
  · cases hx
    exact .none rfl
  · cases s with
    | updateMessage id v =>
      obtain ⟨row, now, hu, rfl⟩ := hg
      simp only [Db.execAll, Stmt.exec] at hx
      split at hx
      · rename_i found
        cases hx
        obtain ⟨m, hm, hid⟩ := List.any_eq_true.mp found
        exact .requeued hu rfl ⟨m, hm, of_decide_eq_true hid⟩ rfl
      · cases hx
    | _ => cases hg
  · cases s with
    | deleteAttempts ids =>
      cases s' with
      | deleteMessages ids' =>
        obtain ⟨plan, rows, plans, hu, rfl, rfl⟩ := hg
        cases hx
        exact .swept hu rfl rfl
      | _ => cases hg
    | _ => cases hg
  · cases s with
    | deleteAttempts ids => cases s' <;> cases hg
    | _ => cases hg

/-- A step of the system is one of the dispatcher's, or of a requeue or a sweep. -/
theorem upkeep_or_delivery {jobs : Job → Bool} {x x' : Moment}
    (hs : (system cfg jobs).Step (dispatch cfg) x x') :
    (system cfg jobs).Step (delivery cfg) x x' ∨ ∃ i, UpkeepStep cfg x x' i := by
  rcases hs.either with hs | ⟨i, o, a, c, he, htr, idle, hg⟩
  · exact .inl hs
  refine .inr ⟨i, ?_⟩
  obtain ⟨w, tr⟩ := x
  obtain ⟨w', tr'⟩ := x'
  obtain rfl : tr' = .did i o a :: tr := htr
  have he : exec cfg i o c w = some (a, w') := he
  have hg : ((upkeep cfg).phase tr i).good o a := hg
  have idle : (delivery cfg).phase tr i = .idle := idle
  have frame := exec_frame cfg he
  have duties : (delivery cfg).phase (.did i o a :: tr) = (delivery cfg).phase tr :=
    Protocol.phase_did_same (by rw [idle]; exact idle_of_upkeep hg)
  have beside : (∀ site ss, o ≠ .commit site ss) → w'.db = w.db := fun h => frame.db fun part => by
    cases o with
    | commit site ss => exact h site ss rfl
    | _ => cases part
  refine ⟨idle, ⟨o, a, rfl, hg⟩, frame.up ?_, frame.queue ?_, frame.clock, duties, ?_⟩
  · cases o <;> first | (intro h; cases h; done) | cases hg
  · cases o <;> first | (intro h; cases h; done) | cases hg
  · cases o with
    | commit site ss => exact upkeepChange_of_commit he hg
    | _ => exact .none (congrArg Db.messages (beside fun _ _ h => (by cases h)))

/-! ### Ownership beside them -/

section Beside

variable {x x' : Moment} {i : ℕ}

/-- No requeue hits a row that is being sent, and no sweep deletes a row that has not reached its
end. -/
structure Spares (x x' : Moment) : Prop where
  requeue : ∀ i site id v n, x'.trace = .did i (.commit site [.updateMessage id v])
    (.ok n) :: x.trace →
    ∀ m ∈ x.shared.db.messages, m.id = id → m.status ≠ .sending
  sweep : ∀ i site ids ids' n,
    x'.trace = .did i (.commit site [.deleteAttempts ids, .deleteMessages ids'])
      (.ok n) :: x.trace →
    ∀ m ∈ x.shared.db.messages, m.id ∈ ids' → m.status.terminal = true

theorem UpkeepStep.holders (h : UpkeepStep cfg x x' i) (id : ℕ) :
    holders cfg id x' = holders cfg id x := by
  simp only [SmtpSwitch.holders, h.queue, Protocol.total, h.duties]

theorem Staged.beside (h : Staged cfg x) (hs : UpkeepStep cfg x x' i) : Staged cfg x' := by
  refine ⟨fun k => ?_, fun k => ?_, ?_⟩
  · rw [hs.duties]
    exact h.first k
  · rw [hs.duties, hs.up]
    exact h.booting k
  · rw [hs.duties, hs.up, hs.queue]
    exact h.down

/-- What a row was before a requeue or a sweep: it is as it was, or has been requeued. -/
theorem UpkeepStep.row (hs : UpkeepStep cfg x x' i) {m' : Message}
    (hm' : m' ∈ x'.shared.db.messages) :
    m' ∈ x.shared.db.messages ∨ ∃ site id row now n,
      (upkeep cfg).phase x.trace i = .requeueing id row (some now) ∧ x'.trace = .did i
      (.commit site [.updateMessage id (requeueValues row now)]) (.ok n) ::
        x.trace ∧ ∃ m ∈ x.shared.db.messages, m.id = id ∧ m' = (requeueValues row now).apply m := by
  cases hs.change with
  | none same => exact .inl (same ▸ hm')
  | @requeued site id row now n hu htr _ rows =>
    rw [rows] at hm'
    obtain ⟨m, hm, -, ⟨-, rfl⟩ | ⟨hw, rfl⟩⟩ := mem_applyUpdate hm'
    · exact .inl hm
    · simp only [MessageWhere.holds, Option.all_some, Option.all_none, Bool.and_true,
        List.mem_singleton, decide_eq_true_eq] at hw
      exact .inr ⟨site, id, row, now, n, hu, htr, m, hm, hw, rfl⟩
  | swept _ _ rows =>
    rw [rows] at hm'
    exact .inl (List.mem_of_mem_filter hm')

theorem UpkeepStep.ids (hs : UpkeepStep cfg x x' i)
    (h : (x.shared.db.messages.map Message.id).Nodup) :
    (x'.shared.db.messages.map Message.id).Nodup := by
  cases hs.change with
  | none same => rwa [same]
  | requeued _ _ _ rows => rwa [rows, ids_applyUpdate]
  | swept _ _ rows =>
    rw [rows]
    exact h.sublist (List.filter_sublist.map _)

theorem Own.beside (h : Own cfg x) (hs : UpkeepStep cfg x x' i)
    (hc : ∀ i site id v n, x'.trace = .did i (.commit site [.updateMessage id v]) (.ok n) ::
      x.trace →
      ∀ m ∈ x.shared.db.messages, m.id = id → m.status ≠ .sending) : Own cfg x' := by
  refine h.less (h.toStaged.beside hs) (hs.ids h.ids) (fun id => (hs.holders id).le)
    (fun m' hm' => ?_)
    fun k ids hk => .inl (by rwa [hs.duties] at hk)
  rcases hs.row hm' with same | ⟨site, id, row, now, n, -, htr, m, hm, hid, rfl⟩
  · exact .inl ⟨m', same, rfl, rfl⟩
  · refine .inr ⟨?_, .inl rfl⟩
    rw [hs.holders]
    by_contra held
    exact hc _ _ _ _ _ htr m hm hid (h.held m hm (Nat.pos_of_ne_zero held))

/-- A row that has not reached its end stays. -/
theorem UpkeepStep.stays (hs : UpkeepStep cfg x x' i) (hc : Spares x x') {m : Message}
    (hm : m ∈ x.shared.db.messages) (live : m.status.terminal = false) :
    m.id ∈ x'.shared.db.messages.map Message.id := by
  have old := List.mem_map_of_mem (f := Message.id) hm
  cases hs.change with
  | none same => rwa [same]
  | requeued _ _ _ rows => rwa [rows, ids_applyUpdate]
  | swept _ htr rows =>
    rw [rows]
    refine List.mem_map_of_mem (List.mem_filter.mpr ⟨hm, decide_eq_true fun listed => ?_⟩)
    rw [hc.sweep _ _ _ _ _ htr m hm listed] at live
    cases live

theorem Kept.beside (k : Kept cfg x) (h : Own cfg x) (hs : UpkeepStep cfg x x' i)
    (hc : Spares x x') :
    Kept cfg x' := by
  refine ⟨fun j => ?_, fun id held => ?_, fun j ids hj id hid => ?_⟩
  · rw [hs.duties]
    exact k.calm j
  · rw [hs.holders] at held
    obtain ⟨m, hm, rfl⟩ := List.mem_map.mp (k.rows id held)
    exact hs.stays hc hm (by rw [h.held m hm held]; rfl)
  · rw [hs.duties] at hj
    obtain ⟨m, hm, rfl⟩ := List.mem_map.mp (k.dueRows j ids hj id hid)
    exact hs.stays hc hm (by rw [((h.due j ids hj).2 _ hid).2 m hm rfl]; rfl)

end Beside

end SmtpSwitch
