import Mathlib.Data.Fintype.EquivFin
import SmtpSwitch.Coop.Lock
import SmtpSwitch.System

/-!
# No deadlock

The limiter has a lock for each provider and so has the breaker, and their
functions await the database while they hold one. A task never holds two locks,
and what it awaits while it holds one answers without another task's help; so the
way to a lock is always open. The one other place a task can wait is the work
queue: a consumer while it is empty, the producer while it is full.
-/

namespace SmtpSwitch

open Coop Coop.Prog

/-- What an operation is to the locks. -/
def Op.use : Op → Use Lock
  | .acquire l => .take l
  | .unlock l => .give l
  | .queueGet | .queuePut _ => .wait
  | _ => .prompt

/-- An operation that always answers. -/
def Op.prompt (o : Op) : Prop := o.use = .prompt

/-- The protocol of the locks. -/
abbrev locking : Protocol Op Op.Ans Job (Option Lock) := discipline Op.use

/-! ### The code under the locks -/

theorem Op.ofLookup.prompt {site : Site} {o : Op} (h : o.ofLookup site) : o.prompt := by
  cases o with
  | utcnow | inflight | select => rfl
  | _ => exact h.elim

theorem Op.ofPersist.prompt {by_ : BreakerOp} {o : Op} (h : o.ofPersist by_) : o.prompt := by
  cases o with
  | state | select | commit => rfl
  | _ => exact h.elim

namespace RateLimiter

variable (cfg : Settings)

theorem prompt_refuse {α : Type} : (refuse : Act (Option α)).Uses Op.prompt :=
  (uses_commit (by rfl)).bind fun _ => by trivial

theorem prompt_reserveRow (p : String) (limits : ProviderLimits) (now : Time) :
    (reserveRow p limits now).Uses Op.prompt := by
  have room : ∀ key limit, (quotaRoom key limit).Uses Op.prompt := fun key limit =>
    (tame_quotaRoom key limit).uses.mono fun _ => Op.ofLookup.prompt
  have bump : ∀ room, (bumpRoom room).Uses Op.prompt := fun room =>
    (tame_bumpRoom room).uses.mono fun _ => Op.ofLookup.prompt
  refine ((tame_slidingCounts _ _ _).uses.mono fun _ => Op.ofLookup.prompt).bind fun _ => ?_
  split
  · exact prompt_refuse
  refine (room _ _).bind fun _ => ?_
  split
  · exact prompt_refuse
  refine (room _ _).bind fun _ => ?_
  split
  · exact prompt_refuse
  exact (uses_flush (by rfl)).bind fun _ => (bump _).bind fun _ => (bump _).bind fun _ =>
    (uses_commit (by rfl)).bind fun _ => by trivial

end RateLimiter

section Whole

variable (cfg : Settings)

/-- Under a lock, prompt operations. -/
theorem whole_withLock {α : Type} {l : Lock} {body : Act α} (h : body.Uses Op.prompt) :
    (withLock l body).Whole locking :=
  Uses.bracket Op.use (.acquire l) (.unlock l) rfl rfl fun _ => h

theorem whole_prompt {o : Op} (h : o.prompt) : (perform o).Whole locking :=
  (uses_perform (S := fun o => o.use = .prompt ∨ o.use = .wait) (.inl h)).lockless

theorem prompt_persist (by_ : BreakerOp) (p : String) :
    (CircuitBreaker.persist by_ p).Uses Op.prompt :=
  (CircuitBreaker.tame_persist by_ p).uses.mono fun _ => Op.ofPersist.prompt

theorem prompt_unbump (site : Site) (p : String) (scope : Scope) (key : Option String) :
    (RateLimiter.unbump site p scope key).Uses Op.prompt :=
  (RateLimiter.tame_unbump site p scope key).uses.mono fun _ => Op.ofLookup.prompt

/-- Every function that takes a lock takes no other while it holds it, and gives it back. -/
theorem callsWhole_locking : CallsWhole cfg locking where
  others o ho a := by
    cases o with
    | acquire l => exact ho.elim
    | unlock l => exact ho.elim
    | queueGet | queuePut => exact ⟨rfl, rfl⟩
    | _ => exact ⟨trivial, rfl⟩
  recordAttempt _ _ _ _ _ := (whole_prompt (by rfl)).bind fun _ =>
    Whole.bind ((uses_commit (S := fun o => o.use = .prompt ∨ o.use = .wait) (.inl rfl)).lockless)
      fun _ => rfl
  relay _ _ _ _ _ := (whole_prompt (by rfl)).bind fun _ => whole_ofExcept _
  requeueNow id := Uses.lockless <|
    (Uses.bind (fun _ => (uses_commit (.inl rfl)).bind fun _ => by trivial)
    (uses_flush (.inl rfl))).handle fun _ => uses_swallow _
  tryReserve p := by
    unfold RateLimiter.tryReserve
    split
    · exact rfl
    · refine whole_withLock (Uses.bind (fun full => ?_)
        ((RateLimiter.tame_atCapacity _ _).uses.mono fun _ => Op.ofLookup.prompt))
      split
      · trivial
      refine (uses_perform (by rfl)).bind fun now =>
        (RateLimiter.prompt_reserveRow _ _ _).bind fun row => ?_
      split
      · trivial
      · exact (uses_perform (by rfl)).bind fun _ => (uses_perform (by rfl)).bind fun _ => by trivial
  commit r := (whole_prompt (by rfl)).bind fun _ => whole_withLock (uses_perform (by rfl))
  release by_ r := (whole_prompt (by rfl)).bind fun _ => whole_withLock <|
    (uses_perform (by rfl)).bind fun _ => (uses_flush (by rfl)).bind fun _ =>
      (prompt_unbump _ _ _ _).bind fun _ => (prompt_unbump _ _ _ _).bind fun _ =>
        (uses_commit (by rfl)).bind fun _ => by trivial
  prune := by
    unfold RateLimiter.prune
    split
    · exact rfl
    · exact Uses.lockless <| (uses_perform (.inl rfl)).bind fun _ =>
        (uses_flush (.inl rfl)).bind fun _ =>
        (uses_commit (.inl rfl)).bind fun _ => by trivial
  load := Uses.lockless <| (uses_query (.inl rfl)).bind fun _ =>
    (uses_perform (.inl rfl)).bind fun _ =>
    (uses_commit (.inl rfl)).bind fun _ => by trivial
  isAvailable p := (whole_prompt (by rfl)).bind fun _ => rfl
  beginProbe p := by
    refine whole_withLock ((uses_perform (by rfl)).bind fun x => ?_)
    obtain ⟨st, now⟩ := x
    simp only
    split
    · trivial
    · trivial
    · split
      · trivial
      · exact (uses_perform (by rfl)).bind fun _ => (prompt_persist _ _).bind fun _ => by trivial
  recordSuccess p := (whole_prompt (by rfl)).bind fun _ => whole_withLock <|
    (uses_perform (by rfl)).bind fun _ => (uses_perform (by rfl)).bind fun _ => prompt_persist _ _
  recordFailure p := (whole_prompt (by rfl)).bind fun _ => whole_withLock <|
    (uses_perform (by rfl)).bind fun _ => (uses_perform (by rfl)).bind fun _ => prompt_persist _ _

end Whole

/-! ### The locks of the process -/

section Locks

variable {cfg : Settings} {jobs : Job → Bool}

theorem part_of_use {o : Op} (h : o.use = .prompt ∨ o.use = .wait) : o.part ≠ some .locks := by
  cases o with
  | acquire l => rcases h with h | h <;> cases h
  | unlock l => rcases h with h | h <;> cases h
  | _ => exact fun h => by cases h

theorem system_locks : (system cfg jobs).Locks Op.use World.locks where
  take {i o c w w' l a} hu he := by
    cases o with
    | acquire l' =>
      cases hu
      obtain ⟨free, rfl⟩ := exec_acquire he
      exact ⟨free, rfl⟩
    | _ => cases hu
  give {i o c w w' l a} hu he := by
    cases o with
    | unlock l' =>
      cases hu
      rw [exec_unlock he]
    | _ => cases hu
  keep hu he := (exec_frame cfg he).locks (part_of_use hu)
  env _ _ := rfl
  reboot _ _ := rfl

/-- The surroundings can always answer an operation that waits for no other task. -/
theorem exec_prompt (i : ℕ) {o : Op} (w : World) (h : o.prompt) :
    ∃ c, (exec cfg i o c w).isSome := by
  cases o with
  | acquire | unlock | queueGet | queuePut => cases h
  | random => exact ⟨.draw 0, by simp [exec]⟩
  | waitWakeup => exact ⟨.timeout, rfl⟩
  | send => exact ⟨.smtp (.raisedOther .other) false, rfl⟩
  | header => exact ⟨.parsed .absent, rfl⟩
  | spoolWrite content =>
    obtain ⟨path, fresh⟩ := Infinite.exists_notMem_finset w.names.toFinset
    exact ⟨.name path, by simpa [exec] using fresh⟩
  | commit site ss =>
    refine ⟨.ok, ?_⟩
    simp only [exec]
    split <;> rfl
  | spoolRead path =>
    refine ⟨.ok, ?_⟩
    simp only [exec]
    split <;> rfl
  | _ => exact ⟨.ok, rfl⟩

theorem system_prompt : (system cfg jobs).Prompt Op.use World.locks where
  prompt i o w := exec_prompt i w
  give i o w l hu := by
    cases o with
    | unlock l' => exact ⟨.ok, rfl⟩
    | _ => cases hu
  free i o w l hu free := by
    cases o with
    | acquire l' =>
      cases hu
      exact ⟨.ok, by simp [system, exec, free]⟩
    | _ => cases hu

theorem system_keeps_locking : (system cfg jobs).Keeps locking :=
  (callsWhole_locking cfg).keeps jobs fun _ => rfl

end Locks

section Reachable

variable {cfg : Settings} {jobs : Job → Bool} {C : Moment → Moment → Prop} {w : World}
  {s : Pool Op Op.Ans Exc World Job ℚ} (hw : ∀ l, w.locks l = none)
  (h : (system cfg jobs).Reachable C (Machine.boot w) s)

include hw h

end Reachable

namespace Example

/-- A started process with nothing to do. -/
def awake : World := { clock := 63923749200, up := true }

/-- Task 1 has the lock that task 2 waits for. -/
def contended : List (Move Choice Job ℚ) :=
  [.start 1 (.tryReserve "p"), .run 1 .ok, .start 2 (.tryReserve "p")]

end Example

section Reachable

variable {cfg : Settings} {jobs : Job → Bool} {C : Moment → Moment → Prop} {w : World}
  {s : Pool Op Op.Ans Exc World Job ℚ} (hw : ∀ l, w.locks l = none)
  (h : (system cfg jobs).Reachable C (Machine.boot w) s)

include hw h

/-- When no task can move, an unfinished one waits for the work queue. -/
theorem waits_of_stuck (stuck : ∀ i, ¬ (system cfg jobs).Moves s i) {i : ℕ} {j : Job} {t : Act Unit}
    (ht : s.tasks i = some (j, t)) : (s.shared.queue = [] ∧ ∃ k, t = .op .queueGet k) ∨
      (cfg.dispatch.claimBatchSize : ℕ) * 2 ≤ s.shared.queue.length ∧ ∃ id k,
        t = .op (.queuePut id) k := by
  obtain ⟨held, inPhase⟩ := h.held system_keeps_locking system_locks hw
  obtain ⟨o, k, rfl⟩ := h.awaits ht
  have wait : o.use = .wait := held.wait_of_stuck inPhase system_prompt stuck ht
  have blocked : exec cfg i o .ok s.shared = none := by
    by_contra able
    exact stuck i (Machine.moves_iff.mpr ⟨j, o, k, ht, .ok, Option.isSome_iff_ne_none.mpr able⟩)
  cases o with
  | queueGet =>
    refine .inl ⟨?_, k, rfl⟩
    cases hq : s.shared.queue with
    | nil => rfl
    | cons m ms => simp [exec, hq] at blocked
  | queuePut id =>
    refine .inr ⟨?_, id, k, rfl⟩
    by_contra few
    simp [exec, Nat.lt_of_not_le few] at blocked
  | _ => cases wait

/-- **Deadlock freedom.** When no task can move, the unfinished tasks wait for the work queue: all
of them for a message while it is empty, or all of them for room while it is full. -/
theorem queue_waits (stuck : ∀ i, ¬ (system cfg jobs).Moves s i) :
    (∀ i j t, s.tasks i = some (j, t) → s.shared.queue = [] ∧ ∃ k, t = .op .queueGet k) ∨
      ∀ i j t, s.tasks i = some (j, t) →
        (cfg.dispatch.claimBatchSize : ℕ) * 2 ≤ s.shared.queue.length ∧ ∃ id k,
          t = .op (.queuePut id) k := by
  have room : 0 < (cfg.dispatch.claimBatchSize : ℕ) * 2 :=
    Nat.mul_pos cfg.dispatch.claimBatchSize.pos two_pos
  by_cases empty : s.shared.queue = []
  · refine .inl fun i j t ht => (waits_of_stuck hw h stuck ht).resolve_right fun full => ?_
    rw [empty, List.length_nil] at full
    omega
  · exact .inr fun i j t ht => (waits_of_stuck hw h stuck ht).resolve_left fun get => empty get.1

end Reachable

namespace Example

/-- A consumer waits for a message, and nothing else runs. -/
theorem queue_waits_consumer : ∃ s,
    (system oneProvider fun _ => true).runFrom (Machine.boot awake) [.start 1 .consumer] = some s ∧
      (s.tasks 1).isSome ∧
      ((∀ i j t, s.tasks i = some (j, t) → s.shared.queue = [] ∧ ∃ k, t = .op .queueGet k) ∨
        ∀ i j t, s.tasks i = some (j, t) →
          (oneProvider.dispatch.claimBatchSize : ℕ) * 2 ≤ s.shared.queue.length ∧
            ∃ id k, t = .op (.queuePut id) k) := by
  obtain ⟨s, k, hs, ht, others, empty⟩ : ∃ s k,
      (system oneProvider fun _ => true).runFrom (Machine.boot awake)
      [.start 1 .consumer] = some s ∧
        s.tasks 1 = some (.consumer, .op .queueGet k) ∧ (∀ i, i ≠ 1 → s.tasks i = none) ∧
        s.shared.queue = [] :=
    ⟨_, _, rfl, rfl, fun _ hi => Function.update_of_ne hi _ _, rfl⟩
  refine ⟨s, hs, by simp [ht], queue_waits (fun _ => rfl) (Machine.Reachable.refl.runFrom hs) fun i hi => ?_⟩
  obtain ⟨j, o, k', hi, c, able⟩ := Machine.moves_iff.mp hi
  by_cases one : i = 1
  · subst one
    rw [ht] at hi
    cases hi
    obtain ⟨⟨a, w'⟩, he⟩ := Option.isSome_iff_exists.mp able
    obtain ⟨rest, hq, -⟩ := exec_queueGet he
    rw [empty] at hq
    cases hq
  · rw [others i one] at hi
    cases hi

end Example

end SmtpSwitch
