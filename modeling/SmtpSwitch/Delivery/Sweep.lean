import SmtpSwitch.Limits.Account
import SmtpSwitch.Limits.Headroom
import SmtpSwitch.Solo

/-!
# What a retention sweep does

One sweep takes at most 500 messages of each status, in a session for each: the rows,
then their attempts, then their files. Run alone it removes the first of those that have
expired and nothing else, and the rounds of the housekeeping go on where the last one
stopped: after enough of them exactly the messages that have not expired are left, with their
attempts and files (`sweeps_drain`).
-/

namespace SmtpSwitch

open Coop Coop.Prog
open CircuitBreaker (unfailing)

/-! ### What is removed -/

/-- The world without these messages: their rows, their attempts and their files. -/
def World.without (w : World) (gone : List Message) : World :=
  { w with
    db := { w.db with
      messages := w.db.messages.filter fun m => m.id ∉ gone.map Message.id
      attempts := w.db.attempts.filter fun a => a.messageId ∉ gone.map Message.id }
    files := fun path => if path ∈ gone.map Message.spoolPath then none else w.files path }

/-- The messages a plan is for. -/
def expired (plan : MessageStatus × Time) (ms : List Message) : List Message :=
  ms.filter fun m => m.status = plan.1 ∧ m.receivedAt < plan.2

/-- The first `k` of each plan. -/
def swept (plans : List (MessageStatus × Time)) (k : ℕ) (ms : List Message) : List Message :=
  plans.flatMap fun plan => (expired plan ms).take k

section Without

variable {w : World} {gone gone' : List Message}

@[simp] theorem without_messages :
    (w.without gone).db.messages = w.db.messages.filter fun m => m.id ∉ gone.map Message.id := rfl

theorem without_nil : w.without [] = w := by
  simp [World.without]

theorem without_without : (w.without gone).without gone' = w.without (gone ++ gone') := by
  simp only [World.without, List.filter_filter, List.map_append, List.mem_append, not_or,
    Bool.decide_and]
  congr 3
  · funext m
    exact Bool.and_comm _ _
  · funext a
    exact Bool.and_comm _ _
  · funext path
    by_cases h : path ∈ gone.map Message.spoolPath <;> simp [h]

theorem without_congr (h : ∀ m, m ∈ gone ↔ m ∈ gone') : w.without gone = w.without gone' := by
  have ids : ∀ id, id ∈ gone.map Message.id ↔ id ∈ gone'.map Message.id := fun id => by simp [h]
  have paths : ∀ path, path ∈ gone.map Message.spoolPath ↔ path ∈ gone'.map Message.spoolPath :=
    fun path => by
    simp [h]
  simp only [World.without, ids, paths]

end Without

section Expired

variable {ms gone : List Message} {plan : MessageStatus × Time}

theorem mem_expired {m : Message} : m ∈ expired plan ms ↔ m ∈ ms ∧ m.status = plan.1 ∧
    m.receivedAt < plan.2 := by
  simp [expired]

/-- What has expired of the rest is the rest of what has expired. -/
theorem expired_filter (ids : (ms.map Message.id).Nodup) (sub : ∀ m ∈ gone, m ∈ ms) :
    expired plan (ms.filter fun m => m.id ∉ gone.map Message.id) = (expired plan ms).filter fun m =>
      m ∉ gone := by
  rw [expired, expired, List.filter_filter, List.filter_filter]
  refine List.filter_congr fun m hm => ?_
  have same : m.id ∈ gone.map Message.id ↔ m ∈ gone := by
    refine ⟨fun h => ?_, List.mem_map_of_mem⟩
    obtain ⟨m', hm', hid⟩ := List.mem_map.mp h
    exact List.inj_on_of_nodup_map ids (sub m' hm') hm hid ▸ hm'
  rw [Bool.and_comm]
  simp only [same]

/-- A list without its first elements, where none occurs twice. -/
theorem filter_notMem_take {α : Type} [DecidableEq α] {l : List α} (h : l.Nodup) (k : ℕ) :
    (l.filter fun a => a ∉ l.take k) = l.drop k := by
  have apart := List.disjoint_take_drop h (le_refl k)
  conv_lhs => rw [← List.take_append_drop k l, List.filter_append]
  rw [List.take_append_drop]
  have first : ((l.take k).filter fun a => a ∉ l.take k) = [] := by
    rw [List.filter_eq_nil_iff]
    intro a ha
    simpa using ha
  have last : ((l.drop k).filter fun a => a ∉ l.take k) = l.drop k := by
    rw [List.filter_eq_self]
    intro a ha
    simpa using fun taken => apart taken ha
  rw [first, last, List.nil_append]

variable {plans : List (MessageStatus × Time)}

theorem mem_swept {k : ℕ} {m : Message} : m ∈ swept plans k ms ↔ ∃ plan ∈ plans,
    m ∈ (expired plan ms).take k := by
  simp [swept]

theorem swept_subset {k : ℕ} : ∀ m ∈ swept plans k ms, m ∈ ms := by
  intro m hm
  obtain ⟨plan, -, hm⟩ := mem_swept.mp hm
  exact (mem_expired.mp (List.mem_of_mem_take hm)).1

/-- Each plan goes on where it stopped: what the others have removed had another status. -/
theorem expired_swept (ids : (ms.map Message.id).Nodup) (statuses : (plans.map Prod.fst).Nodup)
    (hp : plan ∈ plans)
    (k : ℕ) : expired plan (ms.filter fun m => m.id ∉ (swept plans k ms).map Message.id) =
      (expired plan ms).drop k := by
  have once : (expired plan ms).Nodup := (List.Nodup.of_map _ ids).filter _
  rw [expired_filter ids swept_subset, ← filter_notMem_take once k]
  refine List.filter_congr fun m hm => ?_
  have mine : m ∈ swept plans k ms ↔ m ∈ (expired plan ms).take k := by
    refine ⟨fun h => ?_, fun h => mem_swept.mpr ⟨plan, hp, h⟩⟩
    obtain ⟨plan', hp', h⟩ := mem_swept.mp h
    have status := (mem_expired.mp hm).2.1
    rw [(mem_expired.mp (List.mem_of_mem_take h)).2.1] at status
    exact List.inj_on_of_nodup_map statuses hp' hp status ▸ h
  simp only [mine]

end Expired

/-! ### One sweep -/

section Alone

variable {cfg : Settings}

theorem alone_spoolDeleteAll : ∀ (rows : List (ℕ × String)) (w : World),
    (spoolDeleteAll rows).alone (unfailing cfg) w =
      some (.ok (), { w with files := fun path => if path ∈ rows.map Prod.snd then none else w.files path })
  | [], w => by simp [spoolDeleteAll]
  | (id, spath) :: rest, w => by
    have deleted : (perform (.spoolDelete spath)).alone (unfailing cfg) w =
      some (.ok (), { w with files := Function.update w.files spath none }) := rfl
    simp only [spoolDeleteAll, bind_eq]
    rw [alone_bind, deleted]
    simp only [Option.bind_some]
    rw [alone_spoolDeleteAll rest]
    congr 3
    funext path
    by_cases first : path = spath
    · simp [first]
    · simp only [List.map_cons, List.mem_cons, first, false_or, Function.update_of_ne first]

/-- A session of the sweep. -/
theorem alone_sweepPlans_cons (plan : MessageStatus × Time) (rest : List (MessageStatus × Time)) (w : World) :
    (sweepPlans (plan :: rest)).alone (unfailing cfg) w =
      (sweepPlans rest).alone (unfailing cfg)
      (w.without ((expired plan w.db.messages).take 500)) := by
  obtain ⟨status, cutoff⟩ := plan
  have read : (query .retentionSweep (.expiredMessages status cutoff 500)).alone (unfailing cfg) w =
      some (.ok (((expired (status, cutoff) w.db.messages).take 500).map fun m =>
        (m.id, m.spoolPath)), w) := rfl
  simp only [sweepPlans, bind_eq]
  rw [alone_bind, read]
  simp only [Option.bind_some, List.map_eq_nil_iff]
  split
  · rename_i nothing
    rw [nothing, without_nil, alone_bind,
      RateLimiter.alone_commit cfg (show w.db.execAll [] = some w.db from rfl)]
    rfl
  · generalize (expired (status, cutoff) w.db.messages).take 500 = gone
    have ids : (gone.map fun m => (m.id, m.spoolPath)).map Prod.fst = gone.map Message.id := by simp
    have paths : (gone.map fun m => (m.id, m.spoolPath)).map Prod.snd = gone.map Message.spoolPath := by simp
    have committed : w.db.execAll [.deleteAttempts (gone.map Message.id), .deleteMessages (gone.map Message.id)] =
        some (w.without gone).db := by
      simp [Db.execAll, Stmt.exec, World.without, List.filter_filter]
    rw [ids, alone_bind, RateLimiter.alone_flush]
    simp only [Option.bind_some]
    rw [alone_bind, RateLimiter.alone_flush]
    simp only [Option.bind_some]
    rw [alone_bind, RateLimiter.alone_commit cfg committed]
    simp only [Option.bind_some]
    rw [alone_bind, alone_spoolDeleteAll, paths]
    rfl

/-- The sweep of several plans, each for another status. -/
theorem alone_sweepPlans : ∀ {plans : List (MessageStatus × Time)} {w : World},
    (plans.map Prod.fst).Nodup →
    (w.db.messages.map Message.id).Nodup →
      (sweepPlans plans).alone (unfailing cfg) w = some (.ok (),
        w.without (swept plans 500 w.db.messages))
  | [], w, _, _ => by rw [swept, List.flatMap_nil, without_nil]; rfl
  | plan :: rest, w, statuses, ids => by
    obtain ⟨other, statuses⟩ := List.nodup_cons.mp statuses
    have sub : ∀ m ∈ (expired plan w.db.messages).take 500, m ∈ w.db.messages := fun m hm =>
      (mem_expired.mp (List.mem_of_mem_take hm)).1
    have untouched : swept rest 500
        (w.without ((expired plan w.db.messages).take 500)).db.messages =
        swept rest 500 w.db.messages := by
      refine List.flatMap_congr fun plan' hp' => congrArg (List.take 500) ?_
      rw [without_messages, expired_filter ids sub, List.filter_eq_self]
      intro m hm
      refine decide_eq_true fun taken => other ?_
      have status := (mem_expired.mp (List.mem_of_mem_take taken)).2.1
      rw [← status, (mem_expired.mp hm).2.1]
      exact List.mem_map_of_mem hp'
    rw [alone_sweepPlans_cons, alone_sweepPlans statuses (ids.sublist (List.filter_sublist.map _)),
      without_without, untouched]
    rfl

variable (cfg) in
theorem statuses_retentionPlans (now : Time) : ((retentionPlans cfg now).map Prod.fst).Nodup := by
  unfold retentionPlans
  simp only
  split <;> split <;> simp

/-- Run alone, a sweep removes the first 500 messages of each status that have expired. -/
theorem alone_retentionSweep {w : World} (ids : (w.db.messages.map Message.id).Nodup) :
    (retentionSweep cfg).alone (unfailing cfg) w =
      some (.ok (), w.without (swept (retentionPlans cfg w.clock) 500 w.db.messages)) := by
  simp only [retentionSweep, bind_eq]
  rw [alone_bind, RateLimiter.alone_utcnow]
  exact alone_sweepPlans (statuses_retentionPlans cfg w.clock) ids

end Alone

/-! ### Rounds -/

variable (cfg : Settings)

/-- The message has ended, and was received so long ago that it is not kept. -/
def Expired (now : Time) (m : Message) : Prop :=
  m.status = .sent ∧ cfg.dispatch.sentRetentionHours ≠ 0 ∧
      m.receivedAt < now - cfg.dispatch.sentRetentionHours * 3600 ∨
    m.status = .deadletter ∧ cfg.dispatch.deadletterRetentionHours ≠ 0 ∧
      m.receivedAt < now - cfg.dispatch.deadletterRetentionHours * 3600

variable {cfg}

variable (cfg) in
/-- The sweeps of the housekeeping, one after the other. -/
theorem sweeps_end {jobs : Job → Bool} (sweep : jobs .retentionSweep = true)
    {s : Pool Op Op.Ans Exc World Job ℚ} (idle : s.tasks 1 = none) (up : s.shared.up = true)
    (free : ∀ l, s.shared.locks l = none) (ids : (s.shared.db.messages.map Message.id).Nodup) :
    ∀ n : ℕ, (system cfg jobs).Ends Unfailed (List.replicate n (1, .retentionSweep)) s fun s' =>
      s'.shared = s.shared.without
        (swept (retentionPlans cfg s.shared.clock) (500 * n) s.shared.db.messages)
  | 0 => by
    have nothing : swept (retentionPlans cfg s.shared.clock)
        (500 * 0) s.shared.db.messages = [] := by
      simp [swept]
    rw [nothing, without_nil]
    exact .nil rfl
  | n + 1 => by
    have statuses := statuses_retentionPlans cfg s.shared.clock
    rw [List.replicate_succ']
    refine (sweeps_end sweep idle up free ids n).append fun s₁ turns shared => ?_
    have left : (s₁.shared.db.messages.map Message.id).Nodup := by
      rw [shared]
      exact ids.sublist (List.filter_sublist.map _)
    have free₁ : ∀ l, s₁.shared.locks l = none := fun l => by
      rw [shared]
      exact free l
    have admitted : Job.admitted jobs 1 .retentionSweep s₁.shared = true := by
      have up₁ : s₁.shared.up = true := by
        rw [shared]
        exact up
      simp [Job.admitted, sweep, up₁]
    refine (ends_of_unfailing (j := .retentionSweep) (alone_retentionSweep left) free₁ free₁
      (congrFun turns.tasks 1 ▸ idle) admitted).mono fun s' _ shared' => ?_
    rw [shared', shared, without_without]
    -- the next 500 of each status are the first 500 of those that are left
    refine without_congr fun m => ?_
    have clock : (s.shared.without (swept (retentionPlans cfg s.shared.clock) (500 * n)
      s.shared.db.messages)).clock = s.shared.clock := rfl
    rw [clock, List.mem_append, mem_swept, mem_swept, mem_swept, Nat.mul_succ]
    simp only [List.take_add, List.mem_append]
    constructor
    · rintro (⟨plan, hp, hm⟩ | ⟨plan, hp, hm⟩)
      · exact ⟨plan, hp, .inl hm⟩
      · rw [without_messages, expired_swept ids statuses hp] at hm
        exact ⟨plan, hp, .inr hm⟩
    · rintro ⟨plan, hp, hm | hm⟩
      · exact .inl ⟨plan, hp, hm⟩
      · refine .inr ⟨plan, hp, ?_⟩
        rwa [without_messages, expired_swept ids statuses hp]

theorem expired_iff {now : Time} {m : Message} : Expired cfg now m ↔
    ∃ plan ∈ retentionPlans cfg now, m.status = plan.1 ∧ m.receivedAt < plan.2 := by
  unfold Expired retentionPlans
  by_cases sent : cfg.dispatch.sentRetentionHours = 0 <;>
    by_cases dead : cfg.dispatch.deadletterRetentionHours = 0 <;>
    simp [sent, dead]

/-- **The sweeps drain what has expired.** At any point of a run where no lock is taken, any
number of sweeps can be run one after the other, while the clock stands still; and in every run of
them in which no statement fails they remove messages that have expired, with their attempts and
files, and change nothing else. As soon as they have room for all that have expired of each
status, none of these is left. -/
theorem sweeps_drain (cfg : Settings) (jobs : Job → Bool) (sweep : jobs .retentionSweep = true)
    {s : Pool Op Op.Ans Exc World Job ℚ} (idle : s.tasks 1 = none) (up : s.shared.up = true)
    (free : ∀ l, s.shared.locks l = none) (ids : (s.shared.db.messages.map Message.id).Nodup)
    (n : ℕ) :
    (∃ s', (system cfg jobs).Turns Unfailed (List.replicate n (1, .retentionSweep)) s s') ∧
    ∀ s', (system cfg jobs).Turns Unfailed (List.replicate n (1, .retentionSweep)) s s' →
      ∃ gone, s'.shared = s.shared.without gone ∧
        (∀ m ∈ gone, m ∈ s.shared.db.messages ∧ Expired cfg s.shared.clock m) ∧
        ((∀ plan ∈ retentionPlans cfg s.shared.clock,
            (expired plan s.shared.db.messages).length ≤ 500 * n) →
          ∀ m, m ∈ s'.shared.db.messages ↔
            m ∈ s.shared.db.messages ∧ ¬ Expired cfg s.shared.clock m) := by
  obtain ⟨can, always⟩ := sweeps_end cfg sweep idle up free ids n
  refine ⟨can, fun s' turns => ⟨_, always s' turns, fun m hm => ?_, fun room m => ?_⟩⟩
  · obtain ⟨plan, hp, hm⟩ := mem_swept.mp hm
    obtain ⟨present, old⟩ := mem_expired.mp (List.mem_of_mem_take hm)
    exact ⟨present, expired_iff.mpr ⟨plan, hp, old⟩⟩
  · rw [always s' turns, without_messages, List.mem_filter, decide_eq_true_eq, and_congr_right_iff]
    intro present
    refine not_congr ⟨fun h => ?_, fun h => ?_⟩
    · obtain ⟨m', hm', hid⟩ := List.mem_map.mp h
      obtain rfl := List.inj_on_of_nodup_map ids (swept_subset m' hm') present hid
      obtain ⟨plan, hp, hm'⟩ := mem_swept.mp hm'
      exact expired_iff.mpr ⟨plan, hp, (mem_expired.mp (List.mem_of_mem_take hm')).2⟩
    · obtain ⟨plan, hp, old⟩ := expired_iff.mp h
      refine List.mem_map_of_mem (mem_swept.mpr ⟨plan, hp, ?_⟩)
      rw [List.take_of_length_le (room plan hp)]
      exact mem_expired.mpr ⟨present, old⟩

namespace Example

/-- The first message was sent a week ago, the second is still queued. -/
def longSent : World :=
  { twoDue with
    clock := 63924400000
    up := true
    db := { messages := [{ dueMessage 1 with status := .sent }, dueMessage 2] } }

/-- Every run of one round removes the first and leaves the second. -/
theorem sweeps_drain_longSent :
    (∃ s', (system onePerDay fun _ => true).Turns Unfailed [(1, .retentionSweep)]
      (Machine.boot longSent) s') ∧
    ∀ s', (system onePerDay fun _ => true).Turns Unfailed [(1, .retentionSweep)]
        (Machine.boot longSent) s' →
      ∀ m, m ∈ s'.shared.db.messages ↔ m = dueMessage 2 := by
  obtain ⟨can, always⟩ := sweeps_drain onePerDay (fun _ => true) rfl
    (s := Machine.boot longSent) rfl rfl (fun _ => rfl) (by decide) 1
  refine ⟨can, fun s' turns m => ?_⟩
  obtain ⟨gone, -, -, drained⟩ := always s' turns
  rw [drained fun plan _ => (List.length_filter_le _ _).trans (by decide)]
  have first : Expired onePerDay longSent.clock { dueMessage 1 with status := .sent } := by
    refine .inl ⟨rfl, by decide, ?_⟩
    norm_num [dueMessage, longSent, onePerDay]
  have second : ¬ Expired onePerDay longSent.clock (dueMessage 2) := by
    rintro (⟨sent, -⟩ | ⟨dead, -⟩)
    · cases sent
    · cases dead
  constructor
  · rintro ⟨hm, fresh⟩
    rcases List.mem_cons.mp hm with rfl | hm
    · exact absurd first fresh
    · exact List.mem_singleton.mp hm
  · rintro rfl
    exact ⟨.tail _ (.head _), second⟩

end Example

end SmtpSwitch
