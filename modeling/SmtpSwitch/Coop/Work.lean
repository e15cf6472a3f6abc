import Mathlib.Algebra.BigOperators.Group.Finset.Basic
import Mathlib.Algebra.Order.BigOperators.Group.Finset
import SmtpSwitch.Coop.Pool

/-!
# Bounded work

A program that ends after at most `n` operations, as long as every answer it gets
is one that a machine can give (`Prog.Within`): a loop over the rows a query
returns is bounded because the query has a `LIMIT`. If every job has a bound, no
run performs more operations than the jobs it has started account for
(`Reachable.work`), and a pool in which nothing new is started comes to rest
(`Reachable.rests`).
-/

namespace Coop

variable {Op : Type} {Ans : Op → Type} {ε σ Choice Job Env α β : Type}

namespace Prog

/-- At most `n` operations, if every answer is one that `ok` allows; what it returns is in `R`. -/
def Within (ok : (o : Op) → Ans o → Prop) (R : α → Prop) : ℕ → Prog Op Ans ε α → Prop
  | _, ret a => R a
  | _, raise _ => True
  | 0, op _ _ => False
  | n + 1, op o k => ∀ a, ok o a → (k a).Within ok R n

variable {ok : (o : Op) → Ans o → Prop} {R : α → Prop} {R' : β → Prop} {n m : ℕ}

@[simp] theorem within_ret {a : α} : (ret a : Prog Op Ans ε α).Within ok R n ↔ R a := by
  cases n <;> exact Iff.rfl

@[simp] theorem within_raise {e : ε} : (raise e : Prog Op Ans ε α).Within ok R n := by
  cases n <;> trivial

theorem within_op {o : Op} {k : Ans o → Prog Op Ans ε α} (h : ∀ a, ok o a → (k a).Within ok R n) :
    (op o k).Within ok R (n + 1) := h

/-- A larger bound, and less said of the result. -/
theorem Within.mono {Q : α → Prop} (hR : ∀ a, R a → Q a) :
    ∀ {t : Prog Op Ans ε α} {n m : ℕ}, n ≤ m →
    t.Within ok R n → t.Within ok Q m
  | ret a, _, _, _, h => within_ret.mpr (hR a (within_ret.mp h))
  | raise _, _, _, _, _ => within_raise
  | op o k, n, m, hnm, h => by
    obtain _ | n := n
    · exact h.elim
    obtain _ | m := m
    · omega
    exact fun a ha => (h a ha).mono hR (by omega)

theorem Within.le (hnm : n ≤ m) {t : Prog Op Ans ε α} (h : t.Within ok R n) : t.Within ok R m :=
  h.mono (fun _ => id) hnm

theorem Within.bind {f : α → Prog Op Ans ε β} (hf : ∀ a, R a → (f a).Within ok R' m) :
    ∀ {t : Prog Op Ans ε α} {n : ℕ}, t.Within ok R n → (t.bind f).Within ok R' (n + m)
  | ret a, n, h => (hf a (within_ret.mp h)).le (by omega)
  | raise _, _, _ => within_raise
  | op o k, n, h => by
    obtain _ | n := n
    · exact h.elim
    rw [show n + 1 + m = n + m + 1 by omega]
    exact fun a ha => (h a ha).bind hf

theorem Within.attempt : ∀ {t : Prog Op Ans ε α} {n : ℕ}, t.Within ok R n →
    t.attempt.Within ok (fun r => ∀ a, r = .ok a → R a) n
  | ret a, n, h => within_ret.mpr fun _ hb => by cases hb; exact within_ret.mp h
  | raise _, _, _ => within_ret.mpr fun _ hb => by cases hb
  | op o k, n, h => by
    obtain _ | n := n
    · exact h.elim
    exact fun a ha => (h a ha).attempt

theorem within_ofExcept {r : Except ε α} (h : ∀ a, r = .ok a → R a) :
    (ofExcept r : Prog Op Ans ε α).Within ok R n := by
  cases r with
  | ok a => exact within_ret.mpr (h a rfl)
  | error e => exact within_raise

theorem Within.handle {t : Prog Op Ans ε α} {h : ε → Prog Op Ans ε α} (ht : t.Within ok R n)
    (hh : ∀ e, (h e).Within ok R m) : (t.handle h).Within ok R (n + m) :=
  ht.attempt.bind fun r hr => by
    cases r with
    | ok a => exact within_ret.mpr (hr a rfl)
    | error e => exact hh e

theorem Within.finally_ {Q : Unit → Prop} {t : Prog Op Ans ε α} {f : Prog Op Ans ε Unit}
    (ht : t.Within ok R n) (hf : f.Within ok Q m) : (t.finally_ f).Within ok R (n + m) := by
  refine ht.attempt.bind fun r hr => ?_
  exact hf.bind (m := 0) fun _ _ => within_ofExcept hr

end Prog

namespace Machine

variable (M : Machine Op Ans ε σ Choice Job Env)

/-- Task `i` can move. -/
def Moves (s : Pool Op Ans ε σ Job Env) (i : ℕ) : Prop := ∃ c s', M.step (.run i c) s = some s'

/-- The operations performed. -/
def performed : List (Entry Op Ans Job Env) → ℕ
  | [] => 0
  | .did _ _ _ :: tr => performed tr + 1
  | _ :: tr => performed tr

/-- What the jobs started account for. -/
def accounted (bound : Job → ℕ) : List (Entry Op Ans Job Env) → ℕ
  | [] => 0
  | .start _ j :: tr => accounted bound tr + bound j
  | _ :: tr => accounted bound tr

/-- The machine gives allowed answers only. -/
def Answers (ok : (o : Op) → Ans o → Prop) : Prop :=
  ∀ i o c w a w', M.exec i o c w = some (a, w') → ok o a

/-- The unfinished tasks are among `T`, and task `i` will perform at most `left i` operations. -/
structure Left (ok : (o : Op) → Ans o → Prop) (s : Pool Op Ans ε σ Job Env) (T : Finset ℕ)
    (left : ℕ → ℕ) :
    Prop where
  among : ∀ i, i ∉ T → s.tasks i = none
  within : ∀ i j t, s.tasks i = some (j, t) → t.Within ok (fun _ => True) (left i)

variable {M}

theorem moves_iff {s : Pool Op Ans ε σ Job Env} {i : ℕ} :
    M.Moves s i ↔ ∃ j o k, s.tasks i = some (j, .op o k) ∧ ∃ c, (M.exec i o c s.shared).isSome := by
  constructor
  · rintro ⟨c, s', h⟩
    obtain ⟨j, o, k, a, w, ht, he, -⟩ := step_run h
    exact ⟨j, o, k, ht, c, by simp [he]⟩
  · rintro ⟨j, o, k, ht, c, h⟩
    obtain ⟨⟨a, w⟩, he⟩ := Option.isSome_iff_exists.mp h
    exact ⟨c, ⟨⟨w, .did i o a :: s.trace⟩, Function.update s.tasks i ((k a).pending.map (j, ·))⟩, by
      simp only [Machine.step, ht, he]⟩

/-- The moves of one task leave every other task where it is. -/
theorem runFrom_others {h i : ℕ} (hi : i ≠ h) :
    ∀ {cs : List Choice} {s s' : Pool Op Ans ε σ Job Env},
    M.runFrom s (cs.map (.run h ·)) = some s' → s'.tasks i = s.tasks i
  | [], _, _, hr => by cases hr; rfl
  | c :: cs, s, s', hr => by
    simp only [List.map_cons, Machine.runFrom, Option.bind_eq_some_iff] at hr
    obtain ⟨s₁, h₁, h₂⟩ := hr
    rw [runFrom_others hi h₂]
    obtain ⟨j, o, k, a, w, -, -, rfl⟩ := step_run h₁
    exact Function.update_of_ne hi _ _

theorem pending_some {t u : Prog Op Ans ε Unit} (h : t.pending = some u) :
    u = t ∧ ∃ o k, t = .op o k := by
  cases t with
  | op o k => cases h; exact ⟨rfl, o, k, rfl⟩
  | ret a => cases h
  | raise e => cases h

/-- An unfinished task awaits an operation. -/
theorem Reachable.awaits {C : Config Op Ans σ Job Env → Config Op Ans σ Job Env → Prop} {w : σ}
    {s : Pool Op Ans ε σ Job Env} (h : M.Reachable C (boot w) s) {i : ℕ} {j : Job}
    {t : Prog Op Ans ε Unit} (ht : s.tasks i = some (j, t)) : ∃ o k, t = .op o k := by
  have replaced : ∀ {tasks : ℕ → Option (Job × Prog Op Ans ε Unit)} {l : ℕ} {u : Prog Op Ans ε Unit}
      {j' : Job}, (tasks i = some (j, t) → ∃ o k, t = .op o k) →
        Function.update tasks l (u.pending.map (j', ·)) i = some (j, t) → ∃ o k, t = .op o k := by
    intro tasks l u j' others hi
    by_cases same : i = l
    · subst same
      simp only [Function.update_self, Option.map_eq_some_iff, Prod.mk.injEq] at hi
      obtain ⟨v, hv, -, rfl⟩ := hi
      obtain ⟨rfl, awaits⟩ := pending_some hv
      exact awaits
    · exact others (by rwa [Function.update_of_ne same] at hi)
  induction h with
  | refl => cases ht
  | @step s s' m _ hm _ ih =>
    cases m with
    | start l j' =>
      obtain ⟨-, -, rfl⟩ := step_start hm
      exact replaced ih ht
    | run l c =>
      obtain ⟨j', o, k, a, w, -, -, rfl⟩ := step_run hm
      exact replaced ih ht
    | env x => cases hm; exact ih ht
    | crash => cases hm; cases ht

section Bounded

variable {ok : (o : Op) → Ans o → Prop} {bound : Job → ℕ} {T : Finset ℕ} {left : ℕ → ℕ}
  {s s' : Pool Op Ans ε σ Job Env}

/-- Replacing one task. -/
theorem Left.update (h : Left ok s T left) (i n : ℕ) {j : Job} {t : Prog Op Ans ε Unit}
    (ht : t.Within ok (fun _ => True) n) (c : Config Op Ans σ Job Env) :
    Left ok ⟨c, Function.update s.tasks i (t.pending.map (j, ·))⟩ (insert i T)
      (Function.update left i n) where
  among k hk := by
    rw [Finset.mem_insert, not_or] at hk
    exact (Function.update_of_ne hk.1 _ _).trans (h.among k hk.2)
  within k j' t' hk := by
    by_cases same : k = i
    · subst same
      simp only [Function.update_self, Option.map_eq_some_iff, Prod.mk.injEq] at hk ⊢
      obtain ⟨u, hu, -, rfl⟩ := hk
      obtain rfl := (pending_some hu).1
      exact ht
    · simp only [Function.update_of_ne same] at hk ⊢
      exact h.within k j' t' hk

theorem sum_update_insert (T : Finset ℕ) (left : ℕ → ℕ) (i n : ℕ) :
    ∑ k ∈ insert i T, Function.update left i n k ≤ (∑ k ∈ T, left k) + n := by
  rw [← Finset.insert_erase (Finset.mem_insert_self i T),
    Finset.sum_insert (Finset.notMem_erase _ _), Function.update_self, add_comm]
  refine Nat.add_le_add_right ?_ n
  rw [Finset.sum_congr rfl fun k hk => Function.update_of_ne (Finset.ne_of_mem_erase hk) _ _]
  exact Finset.sum_le_sum_of_subset fun k hk => by
    obtain ⟨hne, hk⟩ := Finset.mem_erase.mp hk
    exact (Finset.mem_insert.mp hk).resolve_left hne

/-- A task that performs an operation has one less left. -/
theorem Left.run (hok : M.Answers ok) (h : Left ok s T left) {i : ℕ} {c : Choice}
    (hm : M.step (.run i c) s = some s') :
    ∃ left', Left ok s' T left' ∧ (∑ k ∈ T, left' k) + 1 ≤ ∑ k ∈ T, left k := by
  obtain ⟨j, o, k, a, w, ht, he, rfl⟩ := step_run hm
  have hi : i ∈ T := by
    by_contra out
    rw [h.among i out] at ht
    cases ht
  have within := h.within i j _ ht
  cases hn : left i with
  | zero =>
    rw [hn] at within
    exact within.elim
  | succ n =>
    rw [hn] at within
    refine ⟨Function.update left i n, ?_, ?_⟩
    · rw [← Finset.insert_eq_of_mem hi]
      exact h.update i n (within a (hok i o c _ a w he)) _
    · rw [← Finset.add_sum_erase T _ hi, ← Finset.add_sum_erase T left hi, Function.update_self, hn,
        Finset.sum_congr rfl fun k hk => Function.update_of_ne (Finset.ne_of_mem_erase hk) _ _]
      omega

variable {C : Config Op Ans σ Job Env → Config Op Ans σ Job Env → Prop} {w : σ}

/-- In every run, the operations performed and those that are left are no more than the jobs that
were started account for. -/
theorem Reachable.work (hok : M.Answers ok)
    (hbound : ∀ i j w, M.admits i j w = true → (M.prog j).Within ok (fun _ => True) (bound j))
    (h : M.Reachable C (boot w) s) :
    ∃ T left, Left ok s T left ∧ performed s.trace + ∑ k ∈ T, left k ≤ accounted bound s.trace := by
  induction h with
  | refl => exact ⟨∅, fun _ => 0, ⟨fun _ _ => rfl, fun i j t ht => (by cases ht)⟩, le_rfl⟩
  | @step s s' m _ hm _ ih =>
    obtain ⟨T, left, hl, hle⟩ := ih
    cases m with
    | start i j =>
      obtain ⟨-, admitted, rfl⟩ := step_start hm
      refine ⟨insert i T, _, hl.update i (bound j) (hbound i j _ admitted) _, ?_⟩
      have := sum_update_insert T left i (bound j)
      simp only [performed, accounted]
      omega
    | run i c =>
      obtain ⟨left', hl', hlt⟩ := hl.run hok hm
      refine ⟨T, left', hl', ?_⟩
      obtain ⟨j, o, k, a, w, -, -, rfl⟩ := step_run hm
      simp only [performed, accounted]
      omega
    | env x =>
      cases hm
      exact ⟨T, left, ⟨hl.among, hl.within⟩, hle⟩
    | crash =>
      cases hm
      refine ⟨∅, fun _ => 0, ⟨fun _ _ => rfl, fun i j t ht => (by cases ht)⟩, ?_⟩
      simp only [performed, accounted, Finset.sum_empty]
      omega

/-- What is left can be done: there are moves of the tasks alone after which no task can move. -/
theorem Left.rests (hok : M.Answers ok) : ∀ {n : ℕ} {left : ℕ → ℕ} {s : Pool Op Ans ε σ Job Env},
    Left ok s T left → ∑ k ∈ T, left k = n →
      ∃ (ms : List (ℕ × Choice)) (s' : Pool Op Ans ε σ Job Env) (left' : ℕ → ℕ), ms.length ≤ n ∧
        M.runFrom s (ms.map fun m => .run m.1 m.2) = some s' ∧ (∀ i, ¬ M.Moves s' i) ∧
          Left ok s' T left' := by
  intro n
  induction n using Nat.strong_induction_on with
  | _ n ih =>
    intro left s hl hn
    by_cases moves : ∃ i, M.Moves s i
    · obtain ⟨i, c, s₁, hm⟩ := moves
      obtain ⟨left₁, hl₁, hlt⟩ := hl.run hok hm
      obtain ⟨ms, s', left', hlen, hr, rest, hl'⟩ := ih _ (by omega) hl₁ rfl
      refine ⟨(i, c) :: ms, s', left', ?_, ?_, rest, hl'⟩
      · rw [List.length_cons]
        omega
      · simp only [List.map_cons, Machine.runFrom, hm, Option.bind_some, hr]
    · exact ⟨[], s, left, Nat.zero_le _, rfl, fun i hi => moves ⟨i, hi⟩, hl⟩

end Bounded

end Machine

end Coop
