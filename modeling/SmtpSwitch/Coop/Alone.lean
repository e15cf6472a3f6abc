import SmtpSwitch.Coop.Prog

/-!
# Programs run alone

A program with nobody else around is a function of the state: every operation is
answered at once (`Prog.alone`). Sequential histories of calls are made of such
runs. An operation that has to wait would wait for ever, and there is no result.
-/

namespace Coop.Prog

variable {Op : Type} {Ans : Op → Type} {ε σ α β : Type}
variable (exec : (o : Op) → σ → Option (Ans o × σ))

/-- How a program ends that runs alone, and the state after it. -/
def alone : Prog Op Ans ε α → σ → Option (Except ε α × σ)
  | ret a, w => some (.ok a, w)
  | raise e, w => some (.error e, w)
  | op o k, w => (exec o w).bind fun x => (k x.1).alone x.2

@[simp] theorem alone_ret (a : α) (w : σ) :
    (ret a : Prog Op Ans ε α).alone exec w = some (.ok a, w) := rfl

@[simp] theorem alone_raise (e : ε) (w : σ) :
    (raise e : Prog Op Ans ε α).alone exec w = some (.error e, w) := rfl

/-- The operations of a program that runs alone, with their answers. -/
def recorded : Prog Op Ans ε α → σ → List (Σ o, Ans o)
  | ret _, _ | raise _, _ => []
  | op o k, w =>
    match exec o w with
    | some x => ⟨o, x.1⟩ :: (k x.1).recorded x.2
    | none => []

/-- They are a path through the program. -/
theorem path_recorded {t : Prog Op Ans ε α} {w w' : σ} {r : Except ε α}
    (h : t.alone exec w = some (r, w')) : t.Path (t.recorded exec w) r := by
  induction t generalizing w with
  | ret a =>
    cases h
    exact ⟨rfl, rfl⟩
  | raise e =>
    cases h
    exact ⟨rfl, rfl⟩
  | op o k ih =>
    obtain ⟨x, hx, hk⟩ := Option.bind_eq_some_iff.mp h
    rw [recorded, hx]
    exact ⟨x.1, _, rfl, ih x.1 hk⟩

/-- An operation that is answered. -/
theorem alone_op {o : Op} {a : Ans o} {w w' : σ} (h : exec o w = some (a, w'))
    (k : Ans o → Prog Op Ans ε α) : (op o k).alone exec w = (k a).alone exec w' := by
  rw [alone, h]
  rfl

/-- Sequencing. -/
theorem alone_bind (t : Prog Op Ans ε α) (f : α → Prog Op Ans ε β) (w : σ) :
    (t.bind f).alone exec w = (t.alone exec w).bind fun x =>
      match x.1 with
      | .ok a => (f a).alone exec x.2
      | .error e => some (.error e, x.2) := by
  induction t generalizing w with
  | ret a => rfl
  | raise e => rfl
  | op o k ih =>
    simp only [op_bind, alone, Option.bind_assoc]
    congr 1
    funext x
    exact ih x.1 x.2

theorem alone_attempt (t : Prog Op Ans ε α) (w : σ) :
    t.attempt.alone exec w = (t.alone exec w).map fun x => (.ok x.1, x.2) := by
  induction t generalizing w with
  | ret a => rfl
  | raise e => rfl
  | op o k ih =>
    simp only [attempt, alone, Option.map_bind]
    congr 1
    funext x
    exact ih x.1 x.2

variable {exec}

/-- Nothing to handle. -/
theorem alone_handle {t : Prog Op Ans ε α} {h : ε → Prog Op Ans ε α} {w w' : σ} {a : α}
    (ht : t.alone exec w = some (.ok a, w')) : (t.handle h).alone exec w = some (.ok a, w') := by
  rw [handle, alone_bind, alone_attempt, ht]
  rfl

/-- A program that runs alone runs the same where more operations are answered. -/
theorem alone_mono (exec' : (o : Op) → σ → Option (Ans o × σ))
    (h : ∀ o w x, exec o w = some x → exec' o w = some x) {t : Prog Op Ans ε α} {w : σ}
    {r : Except ε α × σ} (ht : t.alone exec w = some r) : t.alone exec' w = some r := by
  induction t generalizing w with
  | ret a => exact ht
  | raise e => exact ht
  | op o k ih =>
    obtain ⟨x, hx, hk⟩ := Option.bind_eq_some_iff.mp ht
    rw [alone_op exec' (h o w x hx)]
    exact ih x.1 hk

end Coop.Prog
