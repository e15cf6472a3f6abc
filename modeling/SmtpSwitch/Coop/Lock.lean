import SmtpSwitch.Coop.Protocol
import SmtpSwitch.Coop.Work

/-!
# Locks

Mutual exclusion and progress for tasks that share locks. An operation takes a
lock, gives one back, may have to wait for something else, or is prompt: the
machine can always perform it (`Use`). A task is *disciplined* when it takes a
lock only while it holds none, gives back the one it holds, and does nothing in
between that may have to wait (`discipline`).

If every job is disciplined, a lock is held by the task that took it last and by
no other (`Reachable.held`), whoever waits for one waits for a task that can move
(`Held.holder_moves`), the holder's own moves lead to the lock being free
(`Held.released`), and a pool in which nobody can move waits for no lock at all
(`Held.wait_of_stuck`).
-/

namespace Coop

/-- What an operation is to the locks. -/
inductive Use (L : Type) : Type where
  /-- It waits for a lock and takes it. -/
  | take (l : L)
  /-- It gives a lock back. -/
  | give (l : L)
  /-- It never waits. -/
  | prompt
  /-- It may wait for something that is not a lock. -/
  | wait

variable {Op : Type} {Ans : Op → Type} {ε σ Choice Job Env L α : Type}

namespace Use

/-- The lock held after the operation. -/
def next (φ : Option L) : Use L → Option L
  | take l => some l
  | give _ => none
  | prompt | wait => φ

/-- In order for a task that holds `φ`: one lock at a time, and no waiting while it is held. -/
def good (φ : Option L) : Use L → Prop
  | take _ | wait => φ = none
  | give l => φ = some l
  | prompt => True

end Use

/-- The protocol of a task that uses locks. The phase is the lock it holds. -/
def discipline (use : Op → Use L) : Protocol Op Ans Job (Option L) where
  idle := none
  enter _ := none
  next φ o _ := (use o).next φ
  good φ o _ := (use o).good φ

/-! ### Disciplined programs -/

namespace Prog

variable {use : Op → Use L}

/-- Prompt operations concern no lock. -/
theorem Uses.disciplined {t : Prog Op Ans ε α} (h : t.Uses fun o => use o = .prompt)
    (φ : Option L) :
    t.Follows (discipline use : Protocol Op Ans Job (Option L)) (fun _ χ => χ = φ) φ :=
  (h.mono fun o ho a => by simp [discipline, ho, Use.good, Use.next]).follows

/-- Operations that take no lock and give none back are in order for a task that holds none. -/
theorem Uses.lockless {t : Prog Op Ans ε α} (h : t.Uses fun o => use o = .prompt ∨ use o = .wait) :
    t.Whole (discipline use : Protocol Op Ans Job (Option L)) :=
  (h.mono fun o ho a => by rcases ho with ho | ho <;> simp [discipline, ho, Use.good, Use.next]).whole

variable (use) in
/-- A lock is taken, a prompt body runs, and the lock is given back however the body ends. -/
theorem Uses.bracket {l : L} (take give : Op) (ht : use take = .take l) (hg : use give = .give l)
    {body : Ans take → Prog Op Ans ε α} (h : ∀ a, (body a).Uses fun o => use o = .prompt) :
    (op take fun a => (body a).finally_ (op give fun _ => ret ())).Whole
      (discipline use : Protocol Op Ans Job (Option L)) := by
  intro a
  simp only [discipline, ht, Use.good, Use.next, true_and]
  refine Follows.finally_ (((h a).disciplined (some l)).mono ?_)
  rintro r _ rfl b
  simp only [hg, true_and]
  rfl

end Prog

/-! ### Who holds what -/

/-- `f` and `g` are each other's inverse, where they are defined. -/
def Mutual (f : ℕ → Option L) (g : L → Option ℕ) : Prop := ∀ i l, f i = some l ↔ g l = some i

section Mutual

variable [DecidableEq L] {f : ℕ → Option L} {g : L → Option ℕ} {i : ℕ} {l : L}

theorem Mutual.take (h : Mutual f g) (hf : f i = none) (hg : g l = none) :
    Mutual (Function.update f i (some l)) (Function.update g l (some i)) := by
  intro k m
  have := h k m
  by_cases hk : k = i <;> by_cases hm : m = l
  · simp [hk, hm]
  · have : ¬ g m = some i := fun e => by simpa [hf] using (h i m).mpr e
    simp [hk, hm, this, Ne.symm hm]
  · have : ¬ f k = some l := fun e => by simpa [hg] using (h k l).mp e
    simp [hk, hm, this, Ne.symm hk]
  · simpa [hk, hm] using this

theorem Mutual.give (h : Mutual f g) (hf : f i = some l) :
    Mutual (Function.update f i none) (Function.update g l none) := by
  intro k m
  have := h k m
  have hg := (h i l).mp hf
  by_cases hk : k = i <;> by_cases hm : m = l
  · simp [hk, hm]
  · have : ¬ g m = some i := fun e => by simpa [hf, Ne.symm hm] using (h i m).mpr e
    simp [hk, hm, this]
  · have : ¬ f k = some l := fun e => by simpa [hg, Ne.symm hk] using (h k l).mp e
    simp [hk, hm, this]
  · simpa [hk, hm] using this

end Mutual

namespace Machine

variable (M : Machine Op Ans ε σ Choice Job Env) (use : Op → Use L) (holder : σ → L → Option ℕ)

/-- The task that holds a lock is the one in whose phase it is. -/
def Held (c : Config Op Ans σ Job Env) : Prop :=
  Mutual ((discipline use).phase c.trace) (holder c.shared)

/-- What never waits: a prompt operation, giving a lock back, taking a lock that is free. -/
structure Prompt : Prop where
  prompt : ∀ i o w, use o = .prompt → ∃ c, (M.exec i o c w).isSome
  give : ∀ i o w l, use o = .give l → ∃ c, (M.exec i o c w).isSome
  free : ∀ i o w l, use o = .take l → holder w l = none → ∃ c, (M.exec i o c w).isSome

variable {M use holder}

/-! ### Progress -/

section Progress

variable [∀ o, Nonempty (Ans o)] {s : Pool Op Ans ε σ Job Env} {i : ℕ} {l : L}

/-- What an unfinished task is about to do is in order. -/
theorem InPhase.good (hs : InPhase (discipline use) s) {j : Job} {o : Op}
    {k : Ans o → Prog Op Ans ε Unit}
    (ht : s.tasks i = some (j, .op o k)) : (use o).good ((discipline use).phase s.trace i) := by
  have rest := hs i
  rw [ht] at rest
  exact (rest (Classical.arbitrary _)).1

/-- A task that holds a lock has not finished, and what it does next is prompt or gives the lock
back. -/
theorem InPhase.holding (hs : InPhase (discipline use) s)
    (hi : (discipline use).phase s.trace i = some l) :
    ∃ j o k, s.tasks i = some (j, .op o k) ∧ (use o = .prompt ∨ use o = .give l) := by
  have rest := hs i
  rw [hi] at rest
  cases ht : s.tasks i with
  | none =>
    rw [ht] at rest
    cases rest
  | some x =>
    obtain ⟨j, t⟩ := x
    rw [ht] at rest
    cases t with
    | ret _ => cases rest
    | raise _ => cases rest
    | op o k =>
      refine ⟨j, o, k, rfl, ?_⟩
      have ordered := hs.good ht
      rw [hi] at ordered
      cases hu : use o with
      | prompt => exact .inl rfl
      | give l' =>
        rw [hu] at ordered
        cases ordered
        exact .inr rfl
      | take l' =>
        rw [hu] at ordered
        cases ordered
      | wait =>
        rw [hu] at ordered
        cases ordered

variable (hc : Held use holder s.toConfig) (hs : InPhase (discipline use) s)
  (hP : M.Prompt use holder)

include hc hs hP

/-- The holder of a lock can move. -/
theorem Held.moves (hi : holder s.shared l = some i) : M.Moves s i := by
  obtain ⟨j, o, k, ht, hu | hu⟩ := hs.holding ((hc i l).mpr hi)
  · exact moves_iff.mpr ⟨j, o, k, ht, hP.prompt i o _ hu⟩
  · exact moves_iff.mpr ⟨j, o, k, ht, hP.give i o _ l hu⟩

/-- Whoever waits for a lock can take it, or waits for another task, which can move. -/
theorem Held.holder_moves {j : Job} {o : Op} {k : Ans o → Prog Op Ans ε Unit}
    (ht : s.tasks i = some (j, .op o k)) (hu : use o = .take l) :
    M.Moves s i ∨ ∃ h, h ≠ i ∧ holder s.shared l = some h ∧ M.Moves s h := by
  cases hl : holder s.shared l with
  | none => exact .inl (moves_iff.mpr ⟨j, o, k, ht, hP.free i o _ l hu hl⟩)
  | some h =>
    refine .inr ⟨h, ?_, rfl, hc.moves hs hP hl⟩
    rintro rfl
    have free := hs.good ht
    rw [hu, (hc h l).mpr hl] at free
    cases free

/-- Where no task can move, every unfinished one waits for something that is not a lock. -/
theorem Held.wait_of_stuck (stuck : ∀ i, ¬ M.Moves s i) {j : Job} {o : Op}
    {k : Ans o → Prog Op Ans ε Unit} (ht : s.tasks i = some (j, .op o k)) : use o = .wait := by
  cases hu : use o with
  | wait => rfl
  | prompt => exact absurd (moves_iff.mpr ⟨j, o, k, ht, hP.prompt i o _ hu⟩) (stuck i)
  | give l => exact absurd (moves_iff.mpr ⟨j, o, k, ht, hP.give i o _ l hu⟩) (stuck i)
  | take l =>
    rcases hc.holder_moves hs hP ht hu with h | ⟨h, -, -, h'⟩
    · exact absurd h (stuck i)
    · exact absurd h' (stuck h)

end Progress

/-! ### Who holds what, in every run -/

variable [DecidableEq L]

variable (M use holder) in
/-- The machine's locks: `holder w l` is the task that has `l`. -/
structure Locks : Prop where
  take : ∀ {i o c w w' l} {a : Ans o}, use o = .take l → M.exec i o c w = some (a, w') →
    holder w l = none ∧ holder w' = Function.update (holder w) l (some i)
  give : ∀ {i o c w w' l} {a : Ans o}, use o = .give l → M.exec i o c w = some (a, w') →
    holder w' = Function.update (holder w) l none
  keep : ∀ {i o c w w'} {a : Ans o}, use o = .prompt ∨ use o = .wait →
    M.exec i o c w = some (a, w') →
    holder w' = holder w
  env : ∀ x w, holder (M.env x w) = holder w
  reboot : ∀ w l, holder (M.reboot w) l = none

theorem Held.step (hL : M.Locks use holder) {c c' : Config Op Ans σ Job Env}
    (hc : Held use holder c) (h : M.Step (discipline use) c c') : Held use holder c' := by
  cases h with
  | start _ idle =>
    unfold Held
    rw [Protocol.phase_start_idle rfl idle]
    exact hc
  | @did w w' tr i o ch a he hg =>
    unfold Held at hc ⊢
    simp only [Protocol.phase_did]
    simp only [discipline] at hg ⊢
    cases hu : use o with
    | take l =>
      rw [hu] at hg
      obtain ⟨free, taken⟩ := hL.take hu he
      rw [taken]
      exact hc.take hg free
    | give l =>
      rw [hu] at hg
      rw [hL.give hu he]
      exact hc.give hg
    | prompt =>
      rw [hL.keep (.inl hu) he]
      simp only [Use.next, Function.update_eq_self]
      exact hc
    | wait =>
      rw [hL.keep (.inr hu) he]
      simp only [Use.next, Function.update_eq_self]
      exact hc
  | env =>
    unfold Held
    rw [hL.env]
    exact hc
  | crash =>
    intro k l
    simp [discipline, hL.reboot]

/-- A lock is held by the task that has taken it and not given it back, and by no other. -/
theorem Reachable.held {C : Config Op Ans σ Job Env → Config Op Ans σ Job Env → Prop} {w : σ}
    {s : Pool Op Ans ε σ Job Env} (h : M.Reachable C (boot w) s) (hM : M.Keeps (discipline use))
    (hL : M.Locks use holder) (hw : ∀ l, holder w l = none) :
    Held use holder s.toConfig ∧ InPhase (discipline use) s :=
  invariant hM (Held use holder) (fun i l => by simp [discipline, hw]) (fun hc hs _ =>
    hc.step hL hs) h

/-- The holder's own moves lead to the lock being free. -/
theorem Held.released [∀ o, Nonempty (Ans o)] {i : ℕ} {l : L} (hP : M.Prompt use holder)
    (hM : M.Keeps (discipline use)) (hL : M.Locks use holder) :
    ∀ {t : Prog Op Ans ε Unit} {j : Job} {s : Pool Op Ans ε σ Job Env}, s.tasks i = some (j, t) →
      Held use holder s.toConfig → InPhase (discipline use) s → holder s.shared l = some i →
        ∃ (cs : List Choice) (s' : Pool Op Ans ε σ Job Env),
          M.runFrom s (cs.map (.run i ·)) = some s' ∧ holder s'.shared l = none
  | .ret _, j, s, ht, hc, hs, hi => by
    obtain ⟨_, _, _, ht', -⟩ := hs.holding ((hc i l).mpr hi)
    rw [ht] at ht'
    cases ht'
  | .raise _, j, s, ht, hc, hs, hi => by
    obtain ⟨_, _, _, ht', -⟩ := hs.holding ((hc i l).mpr hi)
    rw [ht] at ht'
    cases ht'
  | .op o k, j, s, ht, hc, hs, hi => by
    obtain ⟨_, _, _, ht', hu⟩ := hs.holding ((hc i l).mpr hi)
    rw [ht] at ht'
    cases ht'
    obtain ⟨c, s₁, h₁⟩ := hc.moves hs hP hi
    obtain ⟨j', o', k', a, w, ht', he, rfl⟩ := step_run h₁
    rw [ht] at ht'
    cases ht'
    rcases hu with hu | hu
    · -- a prompt operation leaves the lock where it is, so the task has not finished
      obtain ⟨hstep, hs₁⟩ := step_cases hM hs h₁
      have hc₁ := hc.step hL hstep
      have still : holder w l = some i := by rw [hL.keep (.inl hu) he]; exact hi
      obtain ⟨j₁, o₁, k₁, ht₁, -⟩ := hs₁.holding ((hc₁ i l).mpr still)
      have rest : (k a).pending.map (j, ·) = some (j₁, .op o₁ k₁) := by
        simpa only [Function.update_self] using ht₁
      have same : k a = .op o₁ k₁ := by
        cases hk : k a with
        | ret _ => rw [hk] at rest; cases rest
        | raise _ => rw [hk] at rest; cases rest
        | op o₂ k₂ => rw [hk] at rest; cases rest; rfl
      rw [← same] at ht₁
      obtain ⟨cs, s', hr, free⟩ := released hP hM hL ht₁ hc₁ hs₁ still
      exact ⟨c :: cs, s', by simp only [List.map_cons, Machine.runFrom, h₁, Option.bind_some, hr], free⟩
    · refine ⟨[c], _, by simp only [List.map_cons, List.map_nil, Machine.runFrom, h₁]; rfl, ?_⟩
      exact (congrFun (hL.give hu he) l).trans (Function.update_self ..)

/-- Whoever waits for a lock can take it now, or after moves of its holder alone. -/
theorem Held.way_clear [∀ o, Nonempty (Ans o)] {s : Pool Op Ans ε σ Job Env} {i : ℕ} {l : L}
    (hP : M.Prompt use holder) (hM : M.Keeps (discipline use)) (hL : M.Locks use holder)
    (hc : Held use holder s.toConfig) (hs : InPhase (discipline use) s) {j : Job} {o : Op}
    {k : Ans o → Prog Op Ans ε Unit} (ht : s.tasks i = some (j, .op o k)) (hu : use o = .take l) :
    M.Moves s i ∨ ∃ h, h ≠ i ∧ holder s.shared l = some h ∧
      ∃ (cs : List Choice) (s' : Pool Op Ans ε σ Job Env),
        M.runFrom s (cs.map (.run h ·)) = some s' ∧ M.Moves s' i := by
  rcases hc.holder_moves hs hP ht hu with now | ⟨h, hne, hl, -⟩
  · exact .inl now
  obtain ⟨j', o', k', ht', -⟩ := hs.holding ((hc h l).mpr hl)
  obtain ⟨cs, s', hr, free⟩ := released hP hM hL ht' hc hs hl
  refine .inr ⟨h, hne, hl, cs, s', hr, moves_iff.mpr ⟨j, o, k, ?_, hP.free i o _ l hu free⟩⟩
  rw [runFrom_others hne.symm hr, ht]

end Machine

end Coop
