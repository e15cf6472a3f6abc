import SmtpSwitch.Coop.Alone
import SmtpSwitch.Coop.Pool

/-!
# Turns

A run may give the tasks their turns one after the other: each is started and goes on to
its end before the next is started (`Machine.Turns`). How the surroundings may choose is a
parameter, so that one can speak of every run of the turns in which, say, nothing fails;
`Machine.Ends` says that there is such a run and what holds at the end of each.

What a program does that runs alone, it does in its turn, and it does nothing else where all
that may be chosen has one effect (`Machine.ends_of_alone`); the machine's state may be an
image of the one it was run on, which has the names of the tasks in it.
-/

namespace Coop

variable {Op : Type} {Ans : Op → Type} {ε σ Choice Job Env : Type}

section Definitions

variable (M : Machine Op Ans ε σ Choice Job Env) (may : Op → Choice → Prop)

/-- Task `i` goes on to its end; each of its operations is answered as may be chosen. -/
inductive Machine.Turn (i : ℕ) : Pool Op Ans ε σ Job Env → Pool Op Ans ε σ Job Env → Prop where
  | done {s : Pool Op Ans ε σ Job Env} : s.tasks i = none → Turn i s s
  | step {s s₁ s' : Pool Op Ans ε σ Job Env} {j : Job} {o : Op} {k : Ans o → Prog Op Ans ε Unit}
      {c : Choice} : s.tasks i = some (j, .op o k) → may o c → M.step (.run i c) s = some s₁ →
      Turn i s₁ s' → Turn i s s'

/-- The tasks have these turns, one after the other. -/
inductive Machine.Turns :
    List (ℕ × Job) → Pool Op Ans ε σ Job Env → Pool Op Ans ε σ Job Env → Prop where
  | nil (s : Pool Op Ans ε σ Job Env) : Turns [] s s
  | cons {i : ℕ} {j : Job} {js : List (ℕ × Job)} {s s₁ s₂ s' : Pool Op Ans ε σ Job Env} :
      M.step (.start i j) s = some s₁ → M.Turn may i s₁ s₂ → Turns js s₂ s' →
      Turns ((i, j) :: js) s s'

/-- The turns can be taken, and in whatever way they are, `Q` holds at their end. -/
def Machine.Ends (js : List (ℕ × Job)) (s : Pool Op Ans ε σ Job Env)
    (Q : Pool Op Ans ε σ Job Env → Prop) : Prop :=
  (∃ s', M.Turns may js s s') ∧ ∀ s', M.Turns may js s s' → Q s'

end Definitions

namespace Machine

variable {M : Machine Op Ans ε σ Choice Job Env} {may : Op → Choice → Prop}
variable {s s' s'' s₀ : Pool Op Ans ε σ Job Env} {js js' : List (ℕ × Job)} {i : ℕ}

/-! ### Turns after turns -/

theorem Turns.append (h : M.Turns may js s s') (h' : M.Turns may js' s' s'') :
    M.Turns may (js ++ js') s s'' := by
  induction h with
  | nil s => exact h'
  | cons start turn _ ih => exact .cons start turn (ih h')

theorem Turns.split (h : M.Turns may (js ++ js') s s') :
    ∃ s₁, M.Turns may js s s₁ ∧ M.Turns may js' s₁ s' := by
  induction js generalizing s with
  | nil => exact ⟨s, .nil s, h⟩
  | cons x js ih =>
    cases h with
    | cons start turn rest =>
      obtain ⟨s₁, first, second⟩ := ih rest
      exact ⟨s₁, .cons start turn first, second⟩

/-- Afterwards the task is gone, and the others are as they were. -/
theorem Turn.tasks (h : M.Turn may i s s') : s'.tasks = Function.update s.tasks i none := by
  induction h with
  | done gone => exact (Function.update_eq_self_iff.mpr gone.symm).symm
  | step _ _ hs _ ih =>
    obtain ⟨j, o, k, a, w, -, -, rfl⟩ := step_run hs
    exact ih.trans (Function.update_idem ..)

/-- Turns leave the tasks as they were. -/
theorem Turns.tasks (h : M.Turns may js s s') : s'.tasks = s.tasks := by
  induction h with
  | nil s => rfl
  | cons start turn _ ih =>
    obtain ⟨idle, -, rfl⟩ := step_start start
    rw [ih, turn.tasks, Function.update_idem]
    exact Function.update_eq_self_iff.mpr idle.symm

theorem Turn.reachable (h₀ : M.Reachable Free s₀ s) (h : M.Turn may i s s') :
    M.Reachable Free s₀ s' := by
  induction h with
  | done => exact h₀
  | step _ _ hs _ ih => exact ih (h₀.step hs trivial)

/-- What is reached by turns is reached. -/
theorem Turns.reachable (h₀ : M.Reachable Free s₀ s) (h : M.Turns may js s s') :
    M.Reachable Free s₀ s' := by
  induction h with
  | nil s => exact h₀
  | cons start turn _ ih => exact ih (turn.reachable (h₀.step start trivial))

/-! ### Rules for their end -/

variable {P Q : Pool Op Ans ε σ Job Env → Prop}

theorem Ends.nil (h : Q s) : M.Ends may [] s Q :=
  ⟨⟨s, .nil s⟩, fun _ turns => by cases turns; exact h⟩

theorem Ends.mono (h : M.Ends may js s P) (hq : ∀ s', M.Turns may js s s' → P s' → Q s') :
    M.Ends may js s Q :=
  ⟨h.1, fun s' turns => hq s' turns (h.2 s' turns)⟩

theorem Ends.append (h : M.Ends may js s P)
    (h' : ∀ s₁, M.Turns may js s s₁ → P s₁ → M.Ends may js' s₁ Q) : M.Ends may (js ++ js') s Q := by
  obtain ⟨⟨s₁, first⟩, before⟩ := h
  obtain ⟨⟨s₂, second⟩, -⟩ := h' s₁ first (before s₁ first)
  refine ⟨⟨s₂, first.append second⟩, fun s' turns => ?_⟩
  obtain ⟨s₁', first', second'⟩ := turns.split
  exact (h' s₁' first' (before s₁' first')).2 s' second'

theorem Ends.cons {x : ℕ × Job} (h : M.Ends may [x] s P)
    (h' : ∀ s₁, M.Turns may [x] s s₁ → P s₁ → M.Ends may js s₁ Q) : M.Ends may (x :: js) s Q :=
  h.append h'

/-! ### One turn -/

/-- Where `answer` answers an operation, task `i` is answered so in the image of the state,
whatever may be chosen; and something may be chosen. -/
structure Realizes (M : Machine Op Ans ε σ Choice Job Env) (may : Op → Choice → Prop) (i : ℕ)
    (answer : (o : Op) → σ → Option (Ans o × σ)) (f : σ → σ) : Prop where
  some_choice : ∀ {o w x}, answer o w = some x → ∃ c, may o c ∧ M.exec i o c (f w) =
    some (x.1, f x.2)
  one_effect : ∀ {o w x c y}, answer o w = some x → may o c → M.exec i o c (f w) = some y →
    y = (x.1, f x.2)

variable {answer : (o : Op) → σ → Option (Ans o × σ)} {f : σ → σ} {j : Job} {w w' : σ}
  {r : Except ε Unit}

/-- The rest of a turn can be taken. -/
theorem turn_of_alone (image : M.Realizes may i answer f) {t : Prog Op Ans ε Unit}
    (run : t.alone answer w = some (r, w')) (shared : s.shared = f w)
    (mine : s.tasks i = t.pending.map (j, ·)) : ∃ s', M.Turn may i s s' := by
  induction t generalizing w s with
  | ret a => exact ⟨s, .done mine⟩
  | raise e => exact ⟨s, .done mine⟩
  | op o k ih =>
    obtain ⟨⟨a, w₁⟩, ha, rest⟩ := Option.bind_eq_some_iff.mp run
    obtain ⟨c, hmay, hc⟩ := image.some_choice ha
    have mine : s.tasks i = some (j, .op o k) := mine
    have step : M.step (.run i c) s = some ⟨⟨f w₁, .did i o a :: s.trace⟩,
        Function.update s.tasks i ((k a).pending.map (j, ·))⟩ := by
      simp only [Machine.step, mine, shared, hc]
    obtain ⟨s', turn⟩ := ih a (s := ⟨⟨f w₁, .did i o a :: s.trace⟩,
      Function.update s.tasks i ((k a).pending.map (j, ·))⟩) rest rfl (Function.update_self ..)
    exact ⟨s', .step mine hmay step turn⟩

/-- However it is taken, it ends as the program does that runs alone. -/
theorem Turn.of_alone (image : M.Realizes may i answer f) {t : Prog Op Ans ε Unit}
    (run : t.alone answer w = some (r, w')) (shared : s.shared = f w)
    (mine : s.tasks i = t.pending.map (j, ·)) (turn : M.Turn may i s s') : s'.shared = f w' := by
  induction t generalizing w s with
  | ret a =>
    cases run
    cases turn with
    | done => exact shared
    | step going => exact absurd (mine.symm.trans going) (by simp [Prog.pending])
  | raise e =>
    cases run
    cases turn with
    | done => exact shared
    | step going => exact absurd (mine.symm.trans going) (by simp [Prog.pending])
  | op o k ih =>
    obtain ⟨⟨a, w₁⟩, ha, rest⟩ := Option.bind_eq_some_iff.mp run
    cases turn with
    | done gone => exact absurd (mine.symm.trans gone) (by simp [Prog.pending])
    | step going hmay hs turn =>
      obtain ⟨j', o', k', b, w₂, going', hexec, rfl⟩ := step_run hs
      cases going.symm.trans going'
      cases mine.symm.trans going
      rw [shared] at hexec
      cases image.one_effect ha hmay hexec
      exact ih a rest rfl (Function.update_self ..) turn

/-- A job's turn ends as the job does that runs alone. -/
theorem ends_of_alone (image : M.Realizes may i answer f)
    (run : (M.prog j).alone answer w = some (r, w')) (shared : s.shared = f w)
    (idle : s.tasks i = none) (admits : M.admits i j s.shared = true) :
    M.Ends may [(i, j)] s fun s' => s'.shared = f w' := by
  obtain ⟨s₁, start, shared₁, mine⟩ : ∃ s₁, M.step (.start i j) s = some s₁ ∧ s₁.shared = f w ∧
      s₁.tasks i = (M.prog j).pending.map (j, ·) := by
    simp only [Machine.step, idle, admits, Option.isNone_none, Bool.and_self, if_true]
    exact ⟨_, rfl, shared, Function.update_self ..⟩
  refine ⟨?_, fun s' turns => ?_⟩
  · obtain ⟨s', turn⟩ := turn_of_alone image run shared₁ mine
    exact ⟨s', .cons start turn (.nil s')⟩
  · cases turns with
    | cons start' turn rest =>
      cases start.symm.trans start'
      cases rest
      exact turn.of_alone image run shared₁ mine

end Machine

end Coop
