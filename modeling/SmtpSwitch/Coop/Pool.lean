import Mathlib.Data.Nat.Notation
import SmtpSwitch.Coop.Prog

/-!
# Pools of cooperating tasks

One process, any number of tasks, one shared state. A task is a program
(`Coop.Prog`) that some job started; at each move one task has its next
operation answered, or a new task starts, or something happens outside the
process (the clock moves), or the process dies and its tasks with it. Between
any two operations of a task any other task may move, so a run is an arbitrary
interleaving.

What an operation does is the machine's business (`Machine.exec`). It is a
function of a *choice* — the nondeterminism of the surroundings: whether a
statement fails, what a peer answers — so a run is a list of moves and can be
computed (`Machine.runFrom`). An operation that has to wait is one that no
choice executes yet.

A pool keeps the trace of what has happened, newest first. Properties of runs
are properties of the trace and the shared state together (`Config`).
-/

namespace Coop

/-- What happened at a move. -/
inductive Entry (Op : Type) (Ans : Op → Type) (Job Env : Type) : Type where
  /-- Task `i` was started with job `j`. -/
  | start (i : ℕ) (j : Job)
  /-- Task `i` had its operation `o` answered with `a`. -/
  | did (i : ℕ) (o : Op) (a : Ans o)
  /-- Something outside the process. -/
  | env (x : Env)
  /-- The process died. -/
  | crash

/-- A machine: what operations, jobs and outside events do. -/
structure Machine (Op : Type) (Ans : Op → Type) (ε σ Choice Job Env : Type) where
  /-- The answer to `o` asked by task `i`, and the state after it; `none` when the choice does not
  apply, so that an operation no choice applies to waits. -/
  exec : ℕ → (o : Op) → Choice → σ → Option (Ans o × σ)
  /-- The program of a job. -/
  prog : Job → Prog Op Ans ε Unit
  /-- Whether task `i` may be started with job `j` now. -/
  admits : ℕ → Job → σ → Bool
  /-- An event outside the process. -/
  env : Env → σ → σ
  /-- What is left of the state when the process dies. -/
  reboot : σ → σ

/-- What can be said about a pool without looking into its programs: the shared state and the
trace. -/
structure Config (Op : Type) (Ans : Op → Type) (σ Job Env : Type) where
  /-- The shared state. -/
  shared : σ
  /-- What happened, newest first. -/
  trace : List (Entry Op Ans Job Env)

/-- A pool: a configuration and the tasks that have not finished. -/
structure Pool (Op : Type) (Ans : Op → Type) (ε σ Job Env : Type)
    extends Config Op Ans σ Job Env where
  /-- The unfinished tasks, each with its job and what it still has to do. -/
  tasks : ℕ → Option (Job × Prog Op Ans ε Unit)

/-- A move. -/
inductive Move (Choice Job Env : Type) : Type where
  /-- Start task `i` with job `j`. -/
  | start (i : ℕ) (j : Job)
  /-- Answer task `i`'s operation, the surroundings choosing `c`. -/
  | run (i : ℕ) (c : Choice)
  /-- An event outside the process. -/
  | env (x : Env)
  /-- The process dies. -/
  | crash

variable {Op : Type} {Ans : Op → Type} {ε σ Choice Job Env : Type}

/-- The task a move is about. -/
def Move.task : Move Choice Job Env → Option ℕ
  | .start i _ | .run i _ => some i
  | .env _ | .crash => none

/-- A task that has returned or raised is gone. -/
def Prog.pending : Prog Op Ans ε Unit → Option (Prog Op Ans ε Unit)
  | .op o k => some (.op o k)
  | _ => none

namespace Machine

variable (M : Machine Op Ans ε σ Choice Job Env)

/-- The pool of a process that has done nothing. -/
def boot (w : σ) : Pool Op Ans ε σ Job Env := ⟨⟨w, []⟩, fun _ => none⟩

/-- One move. -/
def step : Move Choice Job Env → Pool Op Ans ε σ Job Env → Option (Pool Op Ans ε σ Job Env)
  | .start i j, s =>
    if (s.tasks i).isNone && M.admits i j s.shared then
      some ⟨⟨s.shared, .start i j :: s.trace⟩,
        Function.update s.tasks i ((M.prog j).pending.map (j, ·))⟩
    else none
  | .run i c, s =>
    match s.tasks i with
    | some (j, .op o k) =>
      match M.exec i o c s.shared with
      | some (a, w) =>
        some ⟨⟨w, .did i o a :: s.trace⟩, Function.update s.tasks i ((k a).pending.map (j, ·))⟩
      | none => none
    | _ => none
  | .env x, s => some ⟨⟨M.env x s.shared, .env x :: s.trace⟩, s.tasks⟩
  | .crash, s => some ⟨⟨M.reboot s.shared, .crash :: s.trace⟩, fun _ => none⟩

/-- The moves in order. -/
def runFrom (s : Pool Op Ans ε σ Job Env) :
    List (Move Choice Job Env) → Option (Pool Op Ans ε σ Job Env)
  | [] => some s
  | m :: ms => (M.step m s).bind fun s' => runFrom s' ms

variable (C : Config Op Ans σ Job Env → Config Op Ans σ Job Env → Prop)

/-- The pools reached from `s₀` by moves each of which meets the condition `C`. -/
inductive Reachable (s₀ : Pool Op Ans ε σ Job Env) : Pool Op Ans ε σ Job Env → Prop where
  /-- The start. -/
  | refl : Reachable s₀ s₀
  /-- One more move. -/
  | step {s s' : Pool Op Ans ε σ Job Env} {m : Move Choice Job Env} :
      Reachable s₀ s → M.step m s = some s' → C s.toConfig s'.toConfig → Reachable s₀ s'

/-- No condition on the moves. -/
def Free (_ _ : Config Op Ans σ Job Env) : Prop := True

/-- The condition that what happens satisfies `ok`. -/
def Each (ok : Entry Op Ans Job Env → Bool) (c c' : Config Op Ans σ Job Env) : Prop :=
  ∀ e, c'.trace = e :: c.trace → ok e = true

variable {M C}

/-- What starting a task does. -/
theorem step_start {i : ℕ} {j : Job} {s s' : Pool Op Ans ε σ Job Env}
    (h : M.step (.start i j) s = some s') :
    s.tasks i = none ∧ M.admits i j s.shared = true ∧ s' = ⟨⟨s.shared, .start i j :: s.trace⟩,
      Function.update s.tasks i ((M.prog j).pending.map (j, ·))⟩ := by
  simp only [Machine.step] at h
  split at h
  · rename_i admitted
    cases h
    simp only [Bool.and_eq_true, Option.isNone_iff_eq_none] at admitted
    exact ⟨admitted.1, admitted.2, rfl⟩
  · cases h

/-- What answering an operation does. -/
theorem step_run {i : ℕ} {c : Choice} {s s' : Pool Op Ans ε σ Job Env}
    (h : M.step (.run i c) s = some s') :
    ∃ j o k a w, s.tasks i = some (j, .op o k) ∧ M.exec i o c s.shared = some (a, w) ∧
      s' = ⟨⟨w, .did i o a :: s.trace⟩,
        Function.update s.tasks i ((k a).pending.map (j, ·))⟩ := by
  simp only [Machine.step] at h
  split at h
  · rename_i j o k ht
    split at h
    · rename_i a w he
      cases h
      exact ⟨j, o, k, a, w, ht, he, rfl⟩
    · cases h
  · cases h

/-- An answer comes of a move that runs its task. -/
theorem step_did {m : Move Choice Job Env} {s s' : Pool Op Ans ε σ Job Env} {i : ℕ}
    {o : Op} {a : Ans o} (h : M.step m s = some s') (htr : s'.trace = .did i o a :: s.trace) :
    ∃ c j k, m = .run i c ∧ s.tasks i = some (j, .op o k) ∧ M.exec i o c s.shared =
      some (a, s'.shared) := by
  cases m with
  | start j job =>
    obtain ⟨-, -, rfl⟩ := step_start h
    cases htr
  | run j c =>
    obtain ⟨job, o', k, b, w, ht, he, rfl⟩ := step_run h
    cases htr
    exact ⟨c, job, k, rfl, ht, he⟩
  | env x =>
    cases h
    cases htr
  | crash =>
    cases h
    cases htr

/-- A crash comes of a crash. -/
theorem step_crash {m : Move Choice Job Env} {s s' : Pool Op Ans ε σ Job Env}
    (h : M.step m s = some s') (htr : s'.trace = .crash :: s.trace) : m = .crash := by
  cases m with
  | start j job =>
    obtain ⟨-, -, rfl⟩ := step_start h
    cases htr
  | run j c =>
    obtain ⟨job, o', k, b, w, ht, he, rfl⟩ := step_run h
    cases htr
  | env x =>
    cases h
    cases htr
  | crash => rfl

/-- More moves. -/
theorem runFrom_append {ms ms' : List (Move Choice Job Env)} {s s' : Pool Op Ans ε σ Job Env}
    (h : M.runFrom s ms = some s') : M.runFrom s (ms ++ ms') = M.runFrom s' ms' := by
  induction ms generalizing s with
  | nil => cases h; rfl
  | cons m ms ih =>
    simp only [Machine.runFrom, Option.bind_eq_some_iff, List.cons_append] at h ⊢
    obtain ⟨s₁, h₁, h₂⟩ := h
    rw [h₁]
    exact ih h₂

/-- One more move. -/
theorem runFrom_concat {ms : List (Move Choice Job Env)} {s s' : Pool Op Ans ε σ Job Env}
    (h : M.runFrom s ms = some s') (m : Move Choice Job Env) :
    M.runFrom s (ms ++ [m]) = M.step m s' := by
  rw [runFrom_append h]
  simp [Machine.runFrom]

/-- A task no move is about is not started. -/
theorem runFrom_untouched {n i : ℕ} (hi : n ≤ i) : ∀ {ms : List (Move Choice Job Env)}
    {s s' : Pool Op Ans ε σ Job Env}, ms.all (fun m => m.task.all (· < n)) = true →
      M.runFrom s ms = some s' → s.tasks i = none → s'.tasks i = none
  | [], _, _, _, h, hs => by cases h; exact hs
  | m :: ms, s, s', hms, h, hs => by
    simp only [List.all_cons, Bool.and_eq_true] at hms
    simp only [Machine.runFrom, Option.bind_eq_some_iff] at h
    obtain ⟨s₁, h₁, h₂⟩ := h
    refine runFrom_untouched hi hms.2 h₂ ?_
    have other : ∀ k : ℕ, (some k).all (· < n) = true → i ≠ k := by
      intro k hk
      simp only [Option.all_some, decide_eq_true_eq] at hk
      omega
    cases m with
    | start k j =>
      obtain ⟨-, -, rfl⟩ := step_start h₁
      exact (Function.update_of_ne (other k hms.1) _ _).trans hs
    | run k c =>
      obtain ⟨j, o, f, a, w, -, -, rfl⟩ := step_run h₁
      exact (Function.update_of_ne (other k hms.1) _ _).trans hs
    | env x => cases h₁; exact hs
    | crash => cases h₁; rfl

/-- Every move of the run satisfies `ok` in the pool it is made in. -/
def along (M : Machine Op Ans ε σ Choice Job Env)
    (ok : Move Choice Job Env → Pool Op Ans ε σ Job Env → Bool) :
    Pool Op Ans ε σ Job Env → List (Move Choice Job Env) → Bool
  | _, [] => true
  | s, m :: ms => ok m s && match M.step m s with
    | some s' => M.along ok s' ms
    | none => true

/-- What a run computes is reachable, if every move of it meets the condition. -/
theorem Reachable.runFrom_along {ok : Move Choice Job Env → Pool Op Ans ε σ Job Env → Bool}
    (hok : ∀ {m s s'}, ok m s = true → M.step m s = some s' → C s.toConfig s'.toConfig)
    {s₀ s : Pool Op Ans ε σ Job Env} (h : M.Reachable C s₀ s) :
    ∀ {ms : List (Move Choice Job Env)} {s' : Pool Op Ans ε σ Job Env},
      M.along ok s ms = true → M.runFrom s ms = some s' → M.Reachable C s₀ s'
  | [], _, _, hs => by cases hs; exact h
  | m :: ms, s', hms, hs => by
    simp only [Machine.runFrom, Option.bind_eq_some_iff] at hs
    obtain ⟨s₁, h₁, h₂⟩ := hs
    simp only [Machine.along, h₁, Bool.and_eq_true] at hms
    exact (h.step h₁ (hok hms.1 h₁)).runFrom_along hok hms.2 h₂

/-- The same, of a check of the moves alone. -/
theorem Reachable.runFrom_of {ok : Move Choice Job Env → Bool}
    (hok : ∀ {m s s'}, ok m = true → M.step m s = some s' → C s.toConfig s'.toConfig)
    {s₀ s : Pool Op Ans ε σ Job Env} (h : M.Reachable C s₀ s)
    {ms : List (Move Choice Job Env)} {s' : Pool Op Ans ε σ Job Env} (hms : ms.all ok = true)
    (hs : M.runFrom s ms = some s') : M.Reachable C s₀ s' := by
  refine @runFrom_along _ _ _ _ _ _ _ M C (fun m _ => ok m) hok s₀ s h ms s' ?_ hs
  clear hs h
  induction ms generalizing s with
  | nil => rfl
  | cons m ms ih =>
    simp only [List.all_cons, Bool.and_eq_true] at hms
    simp only [Machine.along, hms.1, Bool.true_and]
    split
    · exact ih hms.2
    · rfl

theorem Reachable.runFrom {s₀ s : Pool Op Ans ε σ Job Env} (h : M.Reachable Free s₀ s)
    {ms : List (Move Choice Job Env)} {s' : Pool Op Ans ε σ Job Env}
    (hs : M.runFrom s ms = some s') : M.Reachable Free s₀ s' :=
  h.runFrom_of (fun _ _ => trivial) (List.all_eq_true.mpr fun _ _ =>
    rfl : ms.all (fun _ => true) = true) hs

/-- A move adds one entry to the trace. -/
theorem step_trace {m : Move Choice Job Env} {s s' : Pool Op Ans ε σ Job Env}
    (h : M.step m s = some s') : ∃ e, s'.trace = e :: s.trace := by
  cases m with
  | start i j =>
    obtain ⟨-, -, rfl⟩ := step_start h
    exact ⟨_, rfl⟩
  | run i c =>
    obtain ⟨j, o, k, a, w, -, -, rfl⟩ := step_run h
    exact ⟨_, rfl⟩
  | env x => cases h; exact ⟨_, rfl⟩
  | crash => cases h; exact ⟨_, rfl⟩

theorem runFrom_suffix : ∀ {ms : List (Move Choice Job Env)} {s s' : Pool Op Ans ε σ Job Env},
    M.runFrom s ms = some s' → s.trace <:+ s'.trace
  | [], _, _, h => by cases h; exact List.suffix_rfl
  | m :: ms, s, s', h => by
    simp only [Machine.runFrom, Option.bind_eq_some_iff] at h
    obtain ⟨s₁, h₁, h₂⟩ := h
    obtain ⟨e, he⟩ := step_trace h₁
    exact (List.suffix_cons e s.trace).trans (he ▸ runFrom_suffix h₂)

/-- What a run computes is reachable under a condition on what happens, if its trace satisfies it.
-/
theorem Reachable.runFrom_each {ok : Entry Op Ans Job Env → Bool}
    {s₀ s : Pool Op Ans ε σ Job Env} (h : M.Reachable (Each ok) s₀ s) :
    ∀ {ms : List (Move Choice Job Env)} {s' : Pool Op Ans ε σ Job Env},
      M.runFrom s ms = some s' → s'.trace.all ok = true → M.Reachable (Each ok) s₀ s'
  | [], _, hs, _ => by cases hs; exact h
  | m :: ms, s', hs, hall => by
    simp only [Machine.runFrom, Option.bind_eq_some_iff] at hs
    obtain ⟨s₁, h₁, h₂⟩ := hs
    refine (h.step h₁ fun e he => ?_).runFrom_each h₂ hall
    have suffix : s₁.trace <:+ s'.trace := runFrom_suffix h₂
    exact List.all_eq_true.mp hall e (suffix.mem (by rw [he]; exact List.mem_cons_self))

/-- A stronger condition reaches less. -/
theorem Reachable.mono {C' : Config Op Ans σ Job Env → Config Op Ans σ Job Env → Prop}
    (hC : ∀ c c', C c c' → C' c c') {s₀ s : Pool Op Ans ε σ Job Env} (h : M.Reachable C s₀ s) :
    M.Reachable C' s₀ s := by
  induction h with
  | refl => exact .refl
  | step _ hm hc ih => exact ih.step hm (hC _ _ hc)

/-- A run goes on where one has ended. -/
theorem Reachable.trans {s₀ s₁ s : Pool Op Ans ε σ Job Env} (h : M.Reachable C s₀ s₁)
    (h' : M.Reachable C s₁ s) :
    M.Reachable C s₀ s := by
  induction h' with
  | refl => exact h
  | step _ hm hc ih => exact ih.step hm hc

end Machine

end Coop
