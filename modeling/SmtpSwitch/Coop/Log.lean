import SmtpSwitch.Coop.Protocol

/-!
# The log of a task

What a task has done since it was started, read off the trace of a pool
(`jobLog`). In a run it is the beginning of a complete run of the job's program
on its own (`Machine.Reachable.path`): a fact about all complete runs of a
program is a fact about every task in every interleaving.
-/

namespace Coop

variable {Op : Type} {Ans : Op → Type} {ε σ Choice Job Env α : Type}

/-- The job each task was last started with, and what the task has done since. -/
def jobLog : List (Entry Op Ans Job Env) → ℕ → Option (Job × List (Σ o, Ans o))
  | [] => fun _ => none
  | .start i j :: tr => Function.update (jobLog tr) i (some (j, []))
  | .did i o a :: tr =>
    Function.update (jobLog tr) i ((jobLog tr i).map fun l => (l.1, l.2 ++ [⟨o, a⟩]))
  | .env _ :: tr => jobLog tr
  | .crash :: _ => fun _ => none

namespace Prog

/-- `u` is what is left of `t` after it has performed `evs`. -/
def Leads : List (Σ o, Ans o) → Prog Op Ans ε α → Prog Op Ans ε α → Prop
  | [], t, u => t = u
  | e :: evs, t, u => ∃ o k a, t = op o k ∧ e = ⟨o, a⟩ ∧ Leads evs (k a) u

theorem Leads.snoc {o : Op} {k : Ans o → Prog Op Ans ε α} {a : Ans o} :
    ∀ {evs : List (Σ o, Ans o)} {t : Prog Op Ans ε α}, t.Leads evs (op o k) →
      t.Leads (evs ++ [⟨o, a⟩]) (k a)
  | [], _, h => ⟨o, k, a, h, rfl, rfl⟩
  | _ :: _, _, h => by
    obtain ⟨o', k', b, rfl, rfl, h⟩ := h
    exact ⟨o', k', b, rfl, rfl, h.snoc⟩

/-- What has been done and a complete run of what is left make a complete run. -/
theorem Leads.path {u : Prog Op Ans ε α} {rest : List (Σ o, Ans o)} {r : Except ε α}
    (hu : u.Path rest r) : ∀ {evs : List (Σ o, Ans o)} {t : Prog Op Ans ε α}, t.Leads evs u →
      t.Path (evs ++ rest) r
  | [], _, h => by
    cases h
    exact hu
  | _ :: _, _, h => by
    obtain ⟨o, k, b, rfl, rfl, h⟩ := h
    exact ⟨b, _, rfl, h.path hu⟩

/-- Every program has a complete run. -/
theorem exists_path [∀ o, Nonempty (Ans o)] : ∀ t : Prog Op Ans ε α, ∃ evs r, t.Path evs r
  | ret a => ⟨[], .ok a, rfl, rfl⟩
  | raise e => ⟨[], .error e, rfl, rfl⟩
  | op o k => by
    obtain ⟨a⟩ : Nonempty (Ans o) := inferInstance
    obtain ⟨evs, r, h⟩ := exists_path (k a)
    exact ⟨⟨o, a⟩ :: evs, r, a, evs, rfl, h⟩

end Prog

namespace Machine

variable {M : Machine Op Ans ε σ Choice Job Env}
  {C : Config Op Ans σ Job Env → Config Op Ans σ Job Env → Prop}

/-- The log of an unfinished task says where its program is. -/
def Logged (M : Machine Op Ans ε σ Choice Job Env) (s : Pool Op Ans ε σ Job Env) (i : ℕ) : Prop :=
  match jobLog s.trace i with
  | none => s.tasks i = none
  | some (j, evs) => ∃ u, (M.prog j).Leads evs u ∧ s.tasks i = u.pending.map (j, ·)

theorem Reachable.logged {w : σ} {s : Pool Op Ans ε σ Job Env}
    (h : M.Reachable C (boot w) s) (i : ℕ) : M.Logged s i := by
  induction h with
  | refl => rfl
  | @step s s' m _ hm _ ih =>
    cases m with
    | start k j =>
      obtain ⟨-, -, rfl⟩ := step_start hm
      by_cases hi : i = k
      · subst hi
        simp only [Logged, jobLog, Function.update_self]
        exact ⟨M.prog j, rfl, rfl⟩
      · simpa only [Logged, jobLog, Function.update_of_ne hi] using ih
    | run k c =>
      obtain ⟨j, o, f, a, w', ht, -, rfl⟩ := step_run hm
      by_cases hi : i = k
      · subst hi
        simp only [Logged, jobLog, Function.update_self]
        unfold Logged at ih
        split at ih
        · rw [ih] at ht
          cases ht
        · rename_i j' evs hl
          obtain ⟨u, hu, hs⟩ := ih
          rw [hs] at ht
          obtain ⟨v, hv, heq⟩ := Option.map_eq_some_iff.mp ht
          cases heq
          have : u = .op o f := by
            cases u with
            | op o' f' => exact Option.some.inj hv
            | ret _ => cases hv
            | raise _ => cases hv
          subst this
          rw [hl]
          exact ⟨f a, hu.snoc, rfl⟩
      · simpa only [Logged, jobLog, Function.update_of_ne hi] using ih
    | env x =>
      cases hm
      exact ih
    | crash =>
      cases hm
      rfl

/-- **Every log is the beginning of a complete run of its job.** -/
theorem Reachable.path [∀ o, Nonempty (Ans o)] {w : σ} {s : Pool Op Ans ε σ Job Env}
    (h : M.Reachable C (boot w) s) {i : ℕ} {j : Job} {evs : List (Σ o, Ans o)}
    (hl : jobLog s.trace i = some (j, evs)) : ∃ rest r, (M.prog j).Path (evs ++ rest) r := by
  have logged := h.logged i
  unfold Logged at logged
  rw [hl] at logged
  obtain ⟨u, hu, -⟩ := logged
  obtain ⟨rest, r, hr⟩ := u.exists_path
  exact ⟨rest, r, hu.path hr⟩

/-- The log of a task that is over is a complete run of its job. -/
theorem Reachable.path_done {w : σ} {s : Pool Op Ans ε σ Job Env} (h : M.Reachable C (boot w) s)
    {i : ℕ} {j : Job}
    {evs : List (Σ o, Ans o)} (hl : jobLog s.trace i = some (j, evs)) (ended : s.tasks i = none) :
    ∃ r, (M.prog j).Path evs r := by
  have logged := h.logged i
  unfold Logged at logged
  rw [hl] at logged
  obtain ⟨u, hu, hs⟩ := logged
  rw [ended] at hs
  obtain ⟨r, hr⟩ : ∃ r, u.Path [] r := by
    cases u with
    | ret a => exact ⟨.ok a, rfl, rfl⟩
    | raise e => exact ⟨.error e, rfl, rfl⟩
    | op o k => cases hs
  refine ⟨r, ?_⟩
  have path := hu.path hr
  rwa [List.append_nil] at path

end Machine

end Coop
