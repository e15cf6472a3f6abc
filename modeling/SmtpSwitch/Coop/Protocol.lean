import SmtpSwitch.Coop.Pool

/-!
# Protocols

A *protocol* follows one task: from the operations the task performs and the
answers it gets it computes the task's phase, and it says which operations are
in order in which phase. Whether a program keeps to a protocol (`Prog.Follows`)
is a matter of the program alone, proved once, by the program's own structure,
with no mention of the shared state or of other tasks.

In a pool all of whose jobs keep to the protocol, every task's phase can be read
off the trace (`Protocol.phase`), and every operation that is performed is in
order (`Machine.step_cases`). An invariant over the shared state and the phases
then has to be shown for one operation at a time (`Machine.invariant`): the
control flow of the programs is gone, what is left is what one step can do.
-/

namespace Coop

variable {Op : Type} {Ans : Op → Type} {ε σ Choice Job Env Φ α β : Type}

/-- A protocol: the phase a task is in between its jobs, the phase a job starts in, the phase
after an operation, and the operations that are in order in a phase. -/
structure Protocol (Op : Type) (Ans : Op → Type) (Job Φ : Type) where
  /-- The phase of a task that is doing nothing. -/
  idle : Φ
  /-- The phase a job starts in. -/
  enter : Job → Φ
  /-- The phase after `o` is answered with `a`. -/
  next : Φ → (o : Op) → Ans o → Φ
  /-- `o`, answered with `a`, is in order. -/
  good : Φ → (o : Op) → Ans o → Prop

namespace Protocol

variable (P : Protocol Op Ans Job Φ)

/-- The phases of all tasks after a trace. -/
def phase : List (Entry Op Ans Job Env) → ℕ → Φ
  | [] => fun _ => P.idle
  | .start i j :: tr => Function.update (phase tr) i (P.enter j)
  | .did i o a :: tr => Function.update (phase tr) i (P.next (phase tr i) o a)
  | .env _ :: tr => phase tr
  | .crash :: _ => fun _ => P.idle

variable {P}

@[simp] theorem phase_nil : P.phase ([] : List (Entry Op Ans Job Env)) = fun _ => P.idle := rfl

@[simp] theorem phase_start (i : ℕ) (j : Job) (tr : List (Entry Op Ans Job Env)) :
    P.phase (.start i j :: tr) = Function.update (P.phase tr) i (P.enter j) := rfl

@[simp] theorem phase_did (i : ℕ) (o : Op) (a : Ans o) (tr : List (Entry Op Ans Job Env)) :
    P.phase (.did i o a :: tr) = Function.update (P.phase tr) i (P.next (P.phase tr i) o a) := rfl

@[simp] theorem phase_env (x : Env) (tr : List (Entry Op Ans Job Env)) :
    P.phase (.env x :: tr) = P.phase tr := rfl

@[simp] theorem phase_crash (tr : List (Entry Op Ans Job Env)) :
    P.phase (.crash :: tr) = fun _ => P.idle := rfl

/-- A job that starts idle leaves all phases alone. -/
theorem phase_start_idle {i : ℕ} {j : Job} {tr : List (Entry Op Ans Job Env)}
    (hj : P.enter j = P.idle) (hi : P.phase tr i = P.idle) :
    P.phase (.start i j :: tr) = P.phase tr := by
  rw [phase_start, hj, ← hi, Function.update_eq_self]

/-- An operation that leaves the phase alone leaves all phases alone. -/
theorem phase_did_same {i : ℕ} {o : Op} {a : Ans o} {tr : List (Entry Op Ans Job Env)}
    (h : P.next (P.phase tr i) o a = P.phase tr i) : P.phase (.did i o a :: tr) = P.phase tr := by
  rw [phase_did, h, Function.update_eq_self]

/-- The phase after a sequence of answered operations. -/
def after (P : Protocol Op Ans Job Φ) (φ : Φ) (evs : List (Σ o, Ans o)) : Φ :=
  evs.foldl (fun φ e => P.next φ e.1 e.2) φ

theorem after_append (φ : Φ) (evs evs' : List (Σ o, Ans o)) :
    P.after φ (evs ++ evs') = P.after (P.after φ evs) evs' := List.foldl_append

/-- Every operation of the sequence is in order. -/
def Orderly (P : Protocol Op Ans Job Φ) : Φ → List (Σ o, Ans o) → Prop
  | _, [] => True
  | φ, e :: evs => P.good φ e.1 e.2 ∧ Orderly P (P.next φ e.1 e.2) evs

/-- Two protocols side by side. -/
def prod {Ψ : Type} (P : Protocol Op Ans Job Φ) (Q : Protocol Op Ans Job Ψ) :
    Protocol Op Ans Job (Φ × Ψ) where
  idle := (P.idle, Q.idle)
  enter j := (P.enter j, Q.enter j)
  next φ o a := (P.next φ.1 o a, Q.next φ.2 o a)
  good φ o a := P.good φ.1 o a ∧ Q.good φ.2 o a

theorem phase_prod {Ψ : Type} {Q : Protocol Op Ans Job Ψ} (tr : List (Entry Op Ans Job Env))
    (i : ℕ) :
    (P.prod Q).phase tr i = (P.phase tr i, Q.phase tr i) := by
  induction tr generalizing i with
  | nil => rfl
  | cons e tr ih =>
    cases e with
    | start k j =>
      by_cases h : i = k
      · subst h
        simp only [phase_start, Function.update_self]
        rfl
      · simp only [phase_start, Function.update_of_ne h, ih]
    | did k o a =>
      by_cases h : i = k
      · subst h
        simp only [phase_did, Function.update_self, ih]
        rfl
      · simp only [phase_did, Function.update_of_ne h, ih]
    | env x => exact ih i
    | crash => rfl

/-- Two protocols of which a task keeps to the one while it is idle in the other. -/
def either {Ψ : Type} (P : Protocol Op Ans Job Φ) (Q : Protocol Op Ans Job Ψ) :
    Protocol Op Ans Job (Φ × Ψ) :=
  { P.prod Q with
    good := fun φ o a => φ.2 = Q.idle ∧ P.good φ.1 o a ∨ φ.1 = P.idle ∧ Q.good φ.2 o a }

theorem phase_either {Ψ : Type} {Q : Protocol Op Ans Job Ψ} (tr : List (Entry Op Ans Job Env))
    (i : ℕ) :
    (P.either Q).phase tr i = (P.phase tr i, Q.phase tr i) := by
  rw [← phase_prod]
  induction tr generalizing i with
  | nil => rfl
  | cons e tr ih =>
    have same : (P.either Q).phase tr = (P.prod Q).phase tr := funext ih
    cases e with
    | start k j => simp only [phase_start, same]; rfl
    | did k o a => simp only [phase_did, same]; rfl
    | env x => exact ih i
    | crash => rfl

end Protocol

/-! ### Programs that keep to a protocol -/

namespace Prog

variable {P : Protocol Op Ans Job Φ}

/-- From phase `φ`, whatever the answers, `t` performs only operations that are in order, and ends
in a result and a phase that satisfy `Q`. -/
def Follows (P : Protocol Op Ans Job Φ) (Q : Except ε α → Φ → Prop) : Prog Op Ans ε α → Φ → Prop
  | ret a, φ => Q (.ok a) φ
  | raise e, φ => Q (.error e) φ
  | op o k, φ => ∀ a, P.good φ o a ∧ (k a).Follows P Q (P.next φ o a)

theorem Follows.mono {Q Q' : Except ε α → Φ → Prop} (hQ : ∀ r φ, Q r φ → Q' r φ) :
    ∀ {t : Prog Op Ans ε α} {φ : Φ}, t.Follows P Q φ → t.Follows P Q' φ
  | ret _, _, h => hQ _ _ h
  | raise _, _, h => hQ _ _ h
  | op _ _, _, h => fun a => ⟨(h a).1, (h a).2.mono hQ⟩

/-- Sequencing: `f` takes over in whatever phase `t` returns. -/
theorem Follows.bind {Q : Except ε β → Φ → Prop} {R : Except ε α → Φ → Prop}
    {f : α → Prog Op Ans ε β} : ∀ {t : Prog Op Ans ε α} {φ : Φ}, t.Follows P R φ →
      (∀ a χ, R (.ok a) χ → (f a).Follows P Q χ) →
      (∀ e χ, R (.error e) χ → Q (.error e) χ) → (t.bind f).Follows P Q φ
  | ret a, φ, h, hok, _ => hok a φ h
  | raise e, φ, h, _, herr => herr e φ h
  | op _ _, _, h, hok, herr => fun a => ⟨(h a).1, (h a).2.bind hok herr⟩

/-- What a program that follows a protocol does on a complete run. -/
theorem Follows.path {Q : Except ε α → Φ → Prop} {r : Except ε α} :
    ∀ {t : Prog Op Ans ε α} {φ : Φ} {evs : List (Σ o, Ans o)}, t.Follows P Q φ → t.Path evs r →
      P.Orderly φ evs ∧ Q r (P.after φ evs)
  | ret _, _, _, h, hp => by
    obtain ⟨rfl, rfl⟩ := hp
    exact ⟨trivial, h⟩
  | raise _, _, _, h, hp => by
    obtain ⟨rfl, rfl⟩ := hp
    exact ⟨trivial, h⟩
  | op o k, φ, _, h, hp => by
    obtain ⟨a, rest, rfl, hr⟩ := hp
    obtain ⟨h₁, h₂⟩ := (h a).2.path hr
    exact ⟨⟨(h a).1, h₁⟩, h₂⟩

theorem Follows.attempt {Q : Except ε (Except ε α) → Φ → Prop} :
    ∀ {t : Prog Op Ans ε α} {φ : Φ}, t.Follows P (fun r => Q (.ok r)) φ → t.attempt.Follows P Q φ
  | ret _, _, h => h
  | raise _, _, h => h
  | op _ _, _, h => fun a => ⟨(h a).1, (h a).2.attempt⟩

/-- What is left to show after the body of a `try` with handler `h`. -/
def Handled (P : Protocol Op Ans Job Φ) (Q : Except ε α → Φ → Prop) (h : ε → Prog Op Ans ε α) :
    Except ε α → Φ → Prop
  | .ok a, χ => Q (.ok a) χ
  | .error e, χ => (h e).Follows P Q χ

theorem Follows.handle {Q : Except ε α → Φ → Prop} {h : ε → Prog Op Ans ε α}
    {t : Prog Op Ans ε α} {φ : Φ} (ht : t.Follows P (Handled P Q h) φ) :
    (t.handle h).Follows P Q φ := by
  refine Follows.bind (R := fun r χ => ∃ s, r = .ok s ∧ Handled P Q h s χ)
    (Follows.attempt (ht.mono fun r χ hr => ⟨r, rfl, hr⟩)) ?_ ?_
  · rintro a χ ⟨s, hs, hq⟩
    cases hs
    cases a <;> exact hq
  · rintro e χ ⟨s, hs, _⟩
    cases hs

/-- The result of `try: r  finally: u`: an exception of the `finally` wins. -/
def Finished (Q : Except ε α → Φ → Prop) (r : Except ε α) : Except ε Unit → Φ → Prop
  | .ok _, χ => Q r χ
  | .error e, χ => Q (.error e) χ

theorem Follows.finally_ {Q : Except ε α → Φ → Prop} {f : Prog Op Ans ε Unit}
    {t : Prog Op Ans ε α} {φ : Φ}
    (ht : t.Follows P (fun r χ => f.Follows P (Finished Q r) χ) φ) :
    (t.finally_ f).Follows P Q φ := by
  refine Follows.bind (R := fun r χ => ∃ s, r = .ok s ∧ f.Follows P (Finished Q s) χ)
    (Follows.attempt (ht.mono fun r χ hr => ⟨r, rfl, hr⟩)) ?_ ?_
  · rintro r χ ⟨s, hs, hf⟩
    cases hs
    refine hf.bind (fun _ ψ hq => ?_) (fun e ψ hq => hq)
    cases r <;> exact hq
  · rintro e χ ⟨s, hs, _⟩
    cases hs

theorem Follows.prod {Ψ : Type} {P' : Protocol Op Ans Job Ψ} {Q : Except ε α → Φ → Prop}
    {Q' : Except ε α → Ψ → Prop} : ∀ {t : Prog Op Ans ε α} {φ : Φ} {ψ : Ψ}, t.Follows P Q φ →
      t.Follows P' Q' ψ → t.Follows (P.prod P') (fun r χ => Q r χ.1 ∧ Q' r χ.2) (φ, ψ)
  | ret _, _, _, h, h' => ⟨h, h'⟩
  | raise _, _, _, h, h' => ⟨h, h'⟩
  | op _ _, _, _, h, h' => fun a => ⟨⟨(h a).1, (h' a).1⟩, (h a).2.prod (h' a).2⟩

/-- Operations that are in order in phase `φ` and leave it alone. -/
theorem Uses.follows {φ : Φ} {t : Prog Op Ans ε α}
    (h : t.Uses fun o => ∀ a, P.good φ o a ∧ P.next φ o a = φ) :
    t.Follows P (fun _ χ => χ = φ) φ := by
  induction t with
  | ret a => exact rfl
  | raise e => exact rfl
  | op o k ih =>
    intro a
    refine ⟨(h.1 a).1, ?_⟩
    rw [(h.1 a).2]
    exact ih a (h.2 a)

/-- The operations of `S` keep the phase in `A`, but for a failure, which leads to `B`; there the
ones that do not fail keep it. -/
structure Stays (P : Protocol Op Ans Job Φ) (fails : (o : Op) → Ans o → Bool) (S : Op → Prop)
    (A B : Φ → Prop) : Prop where
  good : ∀ φ, A φ → ∀ o, S o → ∀ a, P.good φ o a
  next : ∀ φ, A φ → ∀ o, S o → ∀ a, if fails o a then B (P.next φ o a) else A (P.next φ o a)
  good' : ∀ φ, B φ → ∀ o, S o → ∀ a, fails o a = false → P.good φ o a
  next' : ∀ φ, B φ → ∀ o, S o → ∀ a, fails o a = false → B (P.next φ o a)

variable {fails : (o : Op) → Ans o → Bool} {S : Op → Prop} {A B : Φ → Prop} {φ φ' : Φ}

theorem Failing.stays (hP : Stays P fails S A B) {t : Prog Op Ans ε α} (h : t.Failing fails S)
    {χ : Φ} (hχ : B χ) : t.Follows P (fun r χ => (∃ e, r = .error e) ∧ B χ) χ := by
  induction t generalizing χ with
  | ret a => exact h.elim
  | raise e => exact ⟨⟨e, rfl⟩, hχ⟩
  | op o k ih =>
    intro a
    obtain ⟨ha, hk⟩ := h.2 a
    exact ⟨hP.good' χ hχ o h.1 a ha, ih a hk (hP.next' χ hχ o h.1 a ha)⟩

/-- Where a tame program ends: in `A` with a result in `R`, or in `B` with an exception. -/
def EndsIn (R : α → Prop) (A B : Φ → Prop) : Except ε α → Φ → Prop
  | .ok a, χ => A χ ∧ R a
  | .error _, χ => B χ

/-- A tame program stays where its operations do. -/
theorem Tame.stays (hP : Stays P fails S A B) {R : α → Prop} {t : Prog Op Ans ε α}
    (h : t.Tame fails S R) {χ : Φ} (hχ : A χ) : t.Follows P (EndsIn R A B) χ := by
  induction t generalizing χ with
  | ret a => exact ⟨hχ, h⟩
  | raise e => exact h.elim
  | op o k ih =>
    intro a
    refine ⟨hP.good χ hχ o h.1 a, ?_⟩
    have ha := h.2 a
    have next := hP.next χ hχ o h.1 a
    by_cases hf : fails o a = true
    · rw [if_pos hf] at ha next
      refine (ha.stays hP next).mono ?_
      rintro r ψ ⟨⟨e, rfl⟩, hψ⟩
      exact hψ
    · rw [if_neg hf] at ha next
      exact ih a ha next

/-- The protocol is not concerned with the operations of `S`, in the phases `φ` and `φ'`: they are
in order and leave the phase alone, except that a failure in phase `φ` leads to `φ'`. -/
structure Unconcerned (P : Protocol Op Ans Job Φ) (fails : (o : Op) → Ans o → Bool) (S : Op → Prop)
    (φ φ' : Φ) : Prop where
  good : ∀ o, S o → ∀ a, P.good φ o a
  next : ∀ o, S o → ∀ a, P.next φ o a = if fails o a then φ' else φ
  good' : ∀ o, S o → ∀ a, fails o a = false → P.good φ' o a
  next' : ∀ o, S o → ∀ a, fails o a = false → P.next φ' o a = φ'

theorem Unconcerned.stays (h : Unconcerned P fails S φ φ') :
    Stays P fails S (· = φ) (· = φ') where
  good χ hχ := hχ ▸ h.good
  next χ hχ o ho a := by
    rw [hχ, h.next o ho a]
    split <;> rfl
  good' χ hχ := hχ ▸ h.good'
  next' χ hχ := hχ ▸ h.next'

/-- Where a tame program ends: in the phase it started in with a result in `R`, or in the failure's
phase with an exception. -/
def Ended (R : α → Prop) (φ φ' : Φ) : Except ε α → Φ → Prop
  | .ok a, χ => χ = φ ∧ R a
  | .error _, χ => χ = φ'

/-- A tame program of operations a protocol is not concerned with leaves the phase alone when it
returns, and is in the failure's phase when it raises. -/
theorem Tame.follows (hP : Unconcerned P fails S φ φ') {R : α → Prop} {t : Prog Op Ans ε α}
    (h : t.Tame fails S R) : t.Follows P (Ended R φ φ') φ := by
  refine (h.stays hP.stays rfl).mono ?_
  rintro (e | a) χ hχ
  · exact hχ
  · exact hχ

theorem Follows.failing {Q : Except ε α → Φ → Prop} {t : Prog Op Ans ε α} {φ : Φ}
    (h : t.Follows P Q φ) (ht : t.Failing fails S) (R : α → Prop) :
    t.Follows P (fun r χ => Q r χ ∧ ∀ a, r = .ok a → R a) φ := by
  induction t generalizing φ with
  | ret a => exact ht.elim
  | raise e => exact ⟨h, fun _ ha => by cases ha⟩
  | op o k ih => exact fun a => ⟨(h a).1, ih a (h a).2 (ht.2 a).2⟩

/-- What is known of a tame program's result is known wherever it ends. -/
theorem Follows.tame {Q : Except ε α → Φ → Prop} {R : α → Prop} {t : Prog Op Ans ε α} {φ : Φ}
    (h : t.Follows P Q φ) (ht : t.Tame fails S R) :
    t.Follows P (fun r χ => Q r χ ∧ ∀ a, r = .ok a → R a) φ := by
  induction t generalizing φ with
  | ret a => exact ⟨h, fun _ ha => by cases ha; exact ht⟩
  | raise e => exact ht.elim
  | op o k ih =>
    intro a
    refine ⟨(h a).1, ?_⟩
    have ha := ht.2 a
    split at ha
    · exact (h a).2.failing ha R
    · exact ih a (h a).2 ha

/-- A whole call: it starts and ends in the idle phase. -/
def Whole (P : Protocol Op Ans Job Φ) (t : Prog Op Ans ε α) : Prop :=
  t.Follows P (fun _ φ => φ = P.idle) P.idle

theorem Whole.bind {t : Prog Op Ans ε α} {f : α → Prog Op Ans ε β} (h : t.Whole P)
    (hf : ∀ a, (f a).Whole P) : (t.bind f).Whole P :=
  Follows.bind h (fun a χ hχ => by rw [hχ]; exact hf a) fun e χ hχ => hχ

theorem Whole.attempt {t : Prog Op Ans ε α} (h : t.Whole P) : t.attempt.Whole P :=
  Follows.attempt h

theorem Whole.handle {t : Prog Op Ans ε α} {h : ε → Prog Op Ans ε α} (ht : t.Whole P)
    (hh : ∀ e, (h e).Whole P) : (t.handle h).Whole P := by
  refine Follows.handle (Follows.mono ?_ ht)
  rintro r χ rfl
  cases r with
  | ok a => exact rfl
  | error e => exact hh e

theorem whole_ofExcept (r : Except ε α) : (ofExcept r : Prog Op Ans ε α).Whole P := by
  cases r <;> exact rfl

theorem Uses.whole {t : Prog Op Ans ε α}
    (h : t.Uses fun o => ∀ a, P.good P.idle o a ∧ P.next P.idle o a = P.idle) : t.Whole P :=
  h.follows

section Either

variable {Ψ : Type} {Q : Protocol Op Ans Job Ψ}

/-- A program that keeps to the one protocol, by operations that leave a task idle in the other. -/
theorem Follows.left {R : Except ε α → Φ → Prop}
    (hq : ∀ φ o a, P.good φ o a → Q.next Q.idle o a = Q.idle) :
    ∀ {t : Prog Op Ans ε α} {φ : Φ}, t.Follows P R φ →
      t.Follows (P.either Q) (fun r x => R r x.1 ∧ x.2 = Q.idle) (φ, Q.idle)
  | ret _, _, h => ⟨h, rfl⟩
  | raise _, _, h => ⟨h, rfl⟩
  | op o k, φ, h => fun a => by
    have stays : (P.either Q).next (φ, Q.idle) o a = (P.next φ o a, Q.idle) :=
      Prod.ext rfl (hq φ o a (h a).1)
    rw [stays]
    exact ⟨.inl ⟨rfl, (h a).1⟩, (h a).2.left hq⟩

theorem Follows.right {R : Except ε α → Ψ → Prop}
    (hp : ∀ ψ o a, Q.good ψ o a → P.next P.idle o a = P.idle) :
    ∀ {t : Prog Op Ans ε α} {ψ : Ψ}, t.Follows Q R ψ →
      t.Follows (P.either Q) (fun r x => x.1 = P.idle ∧ R r x.2) (P.idle, ψ)
  | ret _, _, h => ⟨rfl, h⟩
  | raise _, _, h => ⟨rfl, h⟩
  | op o k, ψ, h => fun a => by
    have stays : (P.either Q).next (P.idle, ψ) o a = (P.idle, Q.next ψ o a) :=
      Prod.ext (hp ψ o a (h a).1) rfl
    rw [stays]
    exact ⟨.inr ⟨rfl, (h a).1⟩, (h a).2.right hp⟩

end Either

end Prog

/-! ### Invariants -/

namespace Machine

variable (M : Machine Op Ans ε σ Choice Job Env) (P : Protocol Op Ans Job Φ)

/-- Every job that may be started keeps to the protocol, and ends idle. -/
def Keeps : Prop :=
  ∀ i j w, M.admits i j w = true → (M.prog j).Follows P (fun _ φ => φ = P.idle) (P.enter j)

/-- What is left of a task keeps to the protocol from phase `φ`; nothing is left in phase idle. -/
def Rest (P : Protocol Op Ans Job Φ) : Option (Job × Prog Op Ans ε Unit) → Φ → Prop
  | none, φ => φ = P.idle
  | some (_, t), φ => t.Follows P (fun _ φ => φ = P.idle) φ

/-- Every task keeps to the protocol from the phase it is in. -/
def InPhase (P : Protocol Op Ans Job Φ) (s : Pool Op Ans ε σ Job Env) : Prop :=
  ∀ i, Rest P (s.tasks i) (P.phase s.trace i)

variable {M P}

theorem rest_pending {t : Prog Op Ans ε Unit} {φ : Φ} (j : Job)
    (h : t.Follows P (fun _ φ => φ = P.idle) φ) : Rest P (t.pending.map (j, ·)) φ := by
  cases t <;> exact h

/-- What one move can do to a configuration, given that the tasks keep to the protocol: an
operation that is performed is in order. -/
inductive Step (M : Machine Op Ans ε σ Choice Job Env) (P : Protocol Op Ans Job Φ) :
    Config Op Ans σ Job Env → Config Op Ans σ Job Env → Prop where
  /-- An idle task is started. -/
  | start {w : σ} {tr : List (Entry Op Ans Job Env)} {i : ℕ} {j : Job} :
      M.admits i j w = true → P.phase tr i = P.idle → Step M P ⟨w, tr⟩ ⟨w, .start i j :: tr⟩
  /-- A task performs an operation. -/
  | did {w w' : σ} {tr : List (Entry Op Ans Job Env)} {i : ℕ} {o : Op} {c : Choice} {a : Ans o} :
      M.exec i o c w = some (a, w') → P.good (P.phase tr i) o a →
        Step M P ⟨w, tr⟩ ⟨w', .did i o a :: tr⟩
  /-- Something happens outside the process. -/
  | env {w : σ} {tr : List (Entry Op Ans Job Env)} {x : Env} :
      Step M P ⟨w, tr⟩ ⟨M.env x w, .env x :: tr⟩
  /-- The process dies. -/
  | crash {w : σ} {tr : List (Entry Op Ans Job Env)} :
      Step M P ⟨w, tr⟩ ⟨M.reboot w, .crash :: tr⟩

/-- An operation that is performed is in order. -/
theorem Step.of_did {c c' : Config Op Ans σ Job Env} (h : M.Step P c c') {i : ℕ}
    {o : Op} {a : Ans o} (htr : c'.trace = .did i o a :: c.trace) :
    (∃ ch, M.exec i o ch c.shared = some (a, c'.shared)) ∧ P.good (P.phase c.trace i) o a := by
  cases h with
  | start => cases htr
  | did he hg =>
    cases htr
    exact ⟨⟨_, he⟩, hg⟩
  | env => cases htr
  | crash => cases htr

/-- A move is one of `Step`'s, and leaves every task in phase. -/
theorem step_cases (hM : M.Keeps P) {m : Move Choice Job Env} {s s' : Pool Op Ans ε σ Job Env}
    (hs : InPhase P s) (h : M.step m s = some s') :
    Step M P s.toConfig s'.toConfig ∧ InPhase P s' := by
  obtain ⟨⟨w, tr⟩, tasks⟩ := s
  cases m with
  | start i j =>
    obtain ⟨free, admitted, rfl⟩ := step_start h
    have hi : P.phase tr i = P.idle := by
      have : Rest P (tasks i) (P.phase tr i) := hs i
      rwa [show tasks i = none from free] at this
    refine ⟨.start admitted hi, fun k => ?_⟩
    by_cases hk : k = i
    · subst hk
      show Rest P (Function.update tasks k _ k) (P.phase (.start k j :: tr) k)
      rw [Function.update_self, Protocol.phase_start, Function.update_self]
      exact rest_pending j (hM k j w admitted)
    · show Rest P (Function.update tasks i _ k) (P.phase (.start i j :: tr) k)
      rw [Function.update_of_ne hk, Protocol.phase_start, Function.update_of_ne hk]
      exact hs k
  | run i c =>
    obtain ⟨j, o, k, a, w', ht, he, rfl⟩ := step_run h
    have hi : Rest P (tasks i) (P.phase tr i) := hs i
    rw [show tasks i = _ from ht] at hi
    refine ⟨.did he (hi a).1, fun l => ?_⟩
    by_cases hl : l = i
    · subst hl
      show Rest P (Function.update tasks l _ l) (P.phase (.did l o a :: tr) l)
      rw [Function.update_self, Protocol.phase_did, Function.update_self]
      exact rest_pending j (hi a).2
    · show Rest P (Function.update tasks i _ l) (P.phase (.did i o a :: tr) l)
      rw [Function.update_of_ne hl, Protocol.phase_did, Function.update_of_ne hl]
      exact hs l
  | env x => cases h; exact ⟨.env, hs⟩
  | crash => cases h; exact ⟨.crash, fun _ => rfl⟩

theorem Keeps.prod {Ψ : Type} {Q : Protocol Op Ans Job Ψ} (hP : M.Keeps P) (hQ : M.Keeps Q) :
    M.Keeps (P.prod Q) := fun i j w h =>
  ((hP i j w h).prod (hQ i j w h)).mono fun _ _ hr => Prod.ext hr.1 hr.2

theorem Step.fst {Ψ : Type} {Q : Protocol Op Ans Job Ψ} {c c' : Config Op Ans σ Job Env}
    (h : M.Step (P.prod Q) c c') : M.Step P c c' := by
  cases h with
  | start ha hi =>
    rw [Protocol.phase_prod] at hi
    exact .start ha (congrArg Prod.fst hi)
  | did he hg =>
    rw [Protocol.phase_prod] at hg
    exact .did he hg.1
  | env => exact .env
  | crash => exact .crash

theorem Step.snd {Ψ : Type} {Q : Protocol Op Ans Job Ψ} {c c' : Config Op Ans σ Job Env}
    (h : M.Step (P.prod Q) c c') : M.Step Q c c' := by
  cases h with
  | start ha hi =>
    rw [Protocol.phase_prod] at hi
    exact .start ha (congrArg Prod.snd hi)
  | did he hg =>
    rw [Protocol.phase_prod] at hg
    exact .did he hg.2
  | env => exact .env
  | crash => exact .crash

/-- A step of a task that is idle in the one protocol is one of the other. -/
theorem Step.either {Ψ : Type} {Q : Protocol Op Ans Job Ψ} {c c' : Config Op Ans σ Job Env}
    (h : M.Step (P.either Q) c c') : M.Step P c c' ∨
      ∃ i o a ch, M.exec i o ch c.shared = some (a, c'.shared) ∧ c'.trace = .did i o a :: c.trace ∧
        P.phase c.trace i = P.idle ∧ Q.good (Q.phase c.trace i) o a := by
  cases h with
  | start ha hi =>
    rw [Protocol.phase_either] at hi
    exact .inl (.start ha (congrArg Prod.fst hi))
  | @did w w' tr i o ch a he hg =>
    rw [Protocol.phase_either] at hg
    rcases hg with ⟨-, hg⟩ | ⟨idle, hg⟩
    · exact .inl (.did he hg)
    · exact .inr ⟨i, o, a, ch, he, rfl, idle, hg⟩
  | env => exact .inl .env
  | crash => exact .inl .crash

variable {C : Config Op Ans σ Job Env → Config Op Ans σ Job Env → Prop}

/-- **The invariant rule.** If every job keeps to the protocol, a property of configurations that
holds at the start and is kept by every `Step` that meets the condition holds of every reachable
pool. -/
theorem invariant (hM : M.Keeps P) (Inv : Config Op Ans σ Job Env → Prop) {w : σ}
    (hinit : Inv ⟨w, []⟩)
    (hstep : ∀ {c c'}, Inv c → Step M P c c' → C c c' → Inv c') {s : Pool Op Ans ε σ Job Env}
    (h : M.Reachable C (boot w) s) : Inv s.toConfig ∧ InPhase P s := by
  induction h with
  | refl => exact ⟨hinit, fun _ => rfl⟩
  | step _ hm hc ih =>
    obtain ⟨h₁, h₂⟩ := step_cases hM ih.2 hm
    exact ⟨hstep ih.1 h₁ hc, h₂⟩

/-- Tasks whose jobs perform only operations that mean nothing to an idle task are idle all along.
-/
theorem idle_of_uses {S : Op → Prop} {quiet : Job → Prop}
    (henter : ∀ j, quiet j → P.enter j = P.idle)
    (hS : ∀ o, S o → ∀ a, P.next P.idle o a = P.idle)
    (hquiet : ∀ i j w, M.admits i j w = true → quiet j → (M.prog j).Uses S) {w : σ}
    {s : Pool Op Ans ε σ Job Env} (h : M.Reachable C (boot w) s) :
    ∀ i j t, s.tasks i = some (j, t) → quiet j → t.Uses S ∧ P.phase s.trace i = P.idle := by
  have pending : ∀ {t u : Prog Op Ans ε Unit}, t.pending = some u → u = t := by
    intro t u h
    cases t <;> cases h
    rfl
  induction h with
  | refl => intro i j t ht; cases ht
  | @step s s' m hr hm hc ih =>
    intro k j t ht hq
    cases m with
    | start i j' =>
      obtain ⟨-, admitted, rfl⟩ := step_start hm
      by_cases hk : k = i
      · subst hk
        simp only [Function.update_self, Option.map_eq_some_iff, Prod.mk.injEq] at ht
        obtain ⟨u, hu, rfl, rfl⟩ := ht
        obtain rfl := pending hu
        refine ⟨hquiet k _ _ admitted hq, ?_⟩
        rw [Protocol.phase_start, Function.update_self]
        exact henter _ hq
      · simp only [Function.update_of_ne hk] at ht
        rw [Protocol.phase_start, Function.update_of_ne hk]
        exact ih k j t ht hq
    | run i c =>
      obtain ⟨j', o, f, a, w', hi, he, rfl⟩ := step_run hm
      by_cases hk : k = i
      · subst hk
        simp only [Function.update_self, Option.map_eq_some_iff, Prod.mk.injEq] at ht
        obtain ⟨u, hu, rfl, rfl⟩ := ht
        obtain rfl := pending hu
        obtain ⟨uses, idle⟩ := ih k _ _ hi hq
        refine ⟨uses.2 a, ?_⟩
        rw [Protocol.phase_did, Function.update_self, idle, hS o uses.1 a]
      · simp only [Function.update_of_ne hk] at ht
        rw [Protocol.phase_did, Function.update_of_ne hk]
        exact ih k j t ht hq
    | env x => cases hm; exact ih k j t ht hq
    | crash => cases hm; cases ht

end Machine

end Coop
