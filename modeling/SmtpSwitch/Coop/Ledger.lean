import Mathlib.Algebra.BigOperators.Finprod
import SmtpSwitch.Coop.Protocol

/-!
# What the tasks hold together

Tasks hold things: slots, tickets, items taken from a queue. When a task's phase
tells how much it holds, the holdings of all tasks add up (`Protocol.total`): in
every pool only finitely many tasks are not idle, and an idle task holds nothing.
A resource is accounted for by an equation between a total and the shared state,
and one operation changes the total by what it changes for the task that performs
it (`Protocol.total_did`).
-/

namespace Coop.Protocol

variable {Op : Type} {Ans : Op → Type} {Job Env Φ : Type} {P : Protocol Op Ans Job Φ}

/-- The task an entry is about. -/
def task : Entry Op Ans Job Env → Option ℕ
  | .start i _ | .did i _ _ => some i
  | .env _ | .crash => none

/-- A task the trace does not name is idle. -/
theorem phase_eq_idle {i : ℕ} {tr : List (Entry Op Ans Job Env)} (h : i ∉ tr.filterMap task) :
    P.phase tr i = P.idle := by
  induction tr with
  | nil => rfl
  | cons e tr ih =>
    cases e with
    | start k j =>
      simp only [task, List.filterMap_cons, List.mem_cons, not_or] at h
      rw [phase_start, Function.update_of_ne h.1, ih h.2]
    | did k o a =>
      simp only [task, List.filterMap_cons, List.mem_cons, not_or] at h
      rw [phase_did, Function.update_of_ne h.1, ih h.2]
    | env x => exact ih h
    | crash => rfl

/-- Only finitely many tasks are in the middle of something. -/
theorem finite_active (tr : List (Entry Op Ans Job Env)) : {i | P.phase tr i ≠ P.idle}.Finite :=
  (tr.filterMap task).toFinset.finite_toSet.subset fun i hi => by
    simp only [List.coe_toFinset, Set.mem_ofPred_eq]
    by_contra h
    exact hi (phase_eq_idle h)

/-- What the tasks hold together, a task in phase `φ` holding `f φ`. -/
noncomputable def total (P : Protocol Op Ans Job Φ) (f : Φ → ℕ) (tr : List (Entry Op Ans Job Env)) :
    ℕ :=
  ∑ᶠ i, f (P.phase tr i)

variable {f : Φ → ℕ} {tr : List (Entry Op Ans Job Env)}

theorem finite_holders (hf : f P.idle = 0) (tr : List (Entry Op Ans Job Env)) :
    (Function.support fun i => f (P.phase tr i)).Finite :=
  (finite_active (P := P) tr).subset fun i hi h =>
    hi (by simp only [show P.phase tr i = P.idle from h, hf])

@[simp] theorem total_nil (hf : f P.idle = 0) :
    P.total f ([] : List (Entry Op Ans Job Env)) = 0 := by
  simp [total, hf]

/-- A job that starts idle holds nothing. -/
theorem total_start_idle {i : ℕ} {j : Job} (hj : P.enter j = P.idle) (hi : P.phase tr i = P.idle) :
    P.total f (.start i j :: tr) = P.total f tr := by
  simp only [total, phase_start_idle hj hi]

/-- Nor does any job that starts holding nothing. -/
theorem total_start {i : ℕ} {j : Job} (hf : f P.idle = 0) (hj : f (P.enter j) = 0)
    (hi : P.phase tr i = P.idle) : P.total f (.start i j :: tr) = P.total f tr := by
  have same : (fun k => f (P.phase (.start i j :: tr) k)) = fun k => f (P.phase tr k) := by
    funext k
    by_cases hk : k = i
    · subst hk
      rw [phase_start, Function.update_self, hi, hj, hf]
    · rw [phase_start, Function.update_of_ne hk]
  simp only [total, same]

@[simp] theorem total_env (x : Env) : P.total f (.env x :: tr) = P.total f tr := rfl

@[simp] theorem total_crash (hf : f P.idle = 0) : P.total f (.crash :: tr) = 0 := by
  simp [total, hf]

/-- An operation changes the total by what it changes for its own task. -/
theorem total_did (hf : f P.idle = 0) (i : ℕ) (o : Op) (a : Ans o) :
    P.total f (.did i o a :: tr) + f (P.phase tr i) =
      P.total f tr + f (P.next (P.phase tr i) o a) := by
  obtain ⟨s, hs⟩ : ∃ s : Finset ℕ,
      (s : Set ℕ) = insert i (Function.support fun k => f (P.phase tr k)) :=
    ⟨((finite_holders hf tr).insert i).toFinset, by simp⟩
  have hi : i ∈ s := by rw [← Finset.mem_coe, hs]; exact .inl rfl
  have before : P.total f tr = ∑ k ∈ s, f (P.phase tr k) :=
    finsum_eq_sum_of_support_subset _ (by rw [hs]; exact Set.subset_insert _ _)
  have after : P.total f (.did i o a :: tr) = ∑ k ∈ s, f (P.phase (.did i o a :: tr) k) := by
    refine finsum_eq_sum_of_support_subset _ fun k hk => ?_
    rw [hs]
    by_cases h : k = i
    · exact .inl h
    · rw [Function.mem_support, phase_did, Function.update_of_ne h] at hk
      exact .inr hk
  have others : ∑ k ∈ s.erase i, f (P.phase (.did i o a :: tr) k) =
      ∑ k ∈ s.erase i, f (P.phase tr k) := by
    refine Finset.sum_congr rfl fun k hk => ?_
    rw [phase_did, Function.update_of_ne (Finset.ne_of_mem_erase hk)]
  rw [before, after, ← Finset.add_sum_erase s _ hi,
    ← Finset.add_sum_erase s (fun k => f (P.phase tr k)) hi, others, phase_did,
    Function.update_self]
  omega

/-- Tasks that hold nothing hold nothing together. -/
theorem total_eq_zero (h : ∀ i, f (P.phase tr i) = 0) : P.total f tr = 0 := by
  simp [total, h]

/-- What one task holds, if the others the trace names hold nothing. -/
theorem total_eq_of_alone (hf : f P.idle = 0) {i : ℕ}
    (h : ∀ k ∈ tr.filterMap task, k ≠ i → f (P.phase tr k) = 0) :
    P.total f tr = f (P.phase tr i) := by
  refine finsum_eq_single _ i fun k hk => ?_
  by_cases named : k ∈ tr.filterMap task
  · exact h k named hk
  · rw [phase_eq_idle named, hf]

/-- No task holds more than all tasks together. -/
theorem le_total (hf : f P.idle = 0) (tr : List (Entry Op Ans Job Env)) (i : ℕ) :
    f (P.phase tr i) ≤ P.total f tr :=
  single_le_finsum i (finite_holders hf tr) fun _ => Nat.zero_le _

/-- Nor do some tasks. -/
theorem sum_le_total (hf : f P.idle = 0) (tr : List (Entry Op Ans Job Env)) (s : Finset ℕ) :
    ∑ i ∈ s, f (P.phase tr i) ≤ P.total f tr := by
  have all := finsum_eq_sum_of_support_subset (s := s ∪ (finite_holders hf tr).toFinset)
    (fun i => f (P.phase tr i)) (by intro i hi; simp [hi])
  rw [total, all]
  exact Finset.sum_le_sum_of_subset Finset.subset_union_left

end Coop.Protocol
