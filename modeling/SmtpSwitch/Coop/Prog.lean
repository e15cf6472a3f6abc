import Mathlib.Logic.Function.Basic

/-!
# Cooperative programs

A coroutine is a tree: it has returned, it has raised, or it awaits the answer to
an operation and goes on with that answer. What an operation does to the shared
state is left to the machine that runs the program (`Coop.Pool`); here are the
trees, sequencing, and exceptions.

`Prog` fixes no effects. `Op` names the operations, `Ans o` is the type of
answers to `o`, `ε` the exceptions. An operation that can fail has answers that
say so (`Except ε X`), and the program decides what a failed answer becomes.

A program is *tame* (`Tame`) when it raises exactly because an operation
answered with a failure, and does no more than infallible operations (giving a
lock back, say) on the way out. Most code that merely calls the database is
tame, and a tame program's effect on any bookkeeping of its caller is known from
its operations alone.
-/

namespace Coop

/-- A coroutine: what is left to do, up to the answers it will get. -/
inductive Prog (Op : Type) (Ans : Op → Type) (ε α : Type) : Type where
  /-- It has returned. -/
  | ret (a : α)
  /-- It has raised. -/
  | raise (e : ε)
  /-- It awaits the answer to `o`. -/
  | op (o : Op) (k : Ans o → Prog Op Ans ε α)

namespace Prog

variable {Op : Type} {Ans : Op → Type} {ε α β : Type}

/-- `t` and then, unless it raises, `f`. -/
def bind : Prog Op Ans ε α → (α → Prog Op Ans ε β) → Prog Op Ans ε β
  | ret a, f => f a
  | raise e, _ => raise e
  | op o k, f => op o fun a => (k a).bind f

instance : Monad (Prog Op Ans ε) where
  pure := ret
  bind := bind

/-- `t` with its exception, if any, made a value. -/
def attempt : Prog Op Ans ε α → Prog Op Ans ε (Except ε α)
  | ret a => ret (.ok a)
  | raise e => ret (.error e)
  | op o k => op o fun a => (k a).attempt

/-- Return or raise, as `r` says. -/
def ofExcept : Except ε α → Prog Op Ans ε α
  | .ok a => ret a
  | .error e => raise e

/-- `try: t  except: h`. -/
def handle (t : Prog Op Ans ε α) (h : ε → Prog Op Ans ε α) : Prog Op Ans ε α :=
  t.attempt.bind fun
    | .ok a => ret a
    | .error e => h e

/-- `try: t  finally: f`. -/
def finally_ (t : Prog Op Ans ε α) (f : Prog Op Ans ε Unit) : Prog Op Ans ε α :=
  t.attempt.bind fun r => f.bind fun _ => ofExcept r

/-- A complete run of a program on its own: its operations with their answers, and how it ends. -/
def Path : Prog Op Ans ε α → List (Σ o, Ans o) → Except ε α → Prop
  | ret a, evs, r => evs = [] ∧ r = .ok a
  | raise e, evs, r => evs = [] ∧ r = .error e
  | op o k, evs, r => ∃ a rest, evs = ⟨o, a⟩ :: rest ∧ (k a).Path rest r

@[simp] theorem pure_eq (a : α) : (pure a : Prog Op Ans ε α) = ret a := rfl

@[simp] theorem bind_eq (t : Prog Op Ans ε α) (f : α → Prog Op Ans ε β) : t >>= f = t.bind f := rfl

@[simp] theorem ret_bind (a : α) (f : α → Prog Op Ans ε β) : (ret a).bind f = f a := rfl

@[simp] theorem raise_bind (e : ε) (f : α → Prog Op Ans ε β) : (raise e).bind f = raise e := rfl

@[simp] theorem op_bind (o : Op) (k : Ans o → Prog Op Ans ε α) (f : α → Prog Op Ans ε β) :
    (op o k).bind f = op o fun a => (k a).bind f := rfl

/-! ### Complete runs -/

/-- A run of a sequence is a run of its first part that raises, or runs of both parts. -/
theorem path_bind {t : Prog Op Ans ε α} {f : α → Prog Op Ans ε β} {evs : List (Σ o, Ans o)}
    {r : Except ε β} : (t.bind f).Path evs r ↔
      (∃ e, r = .error e ∧ t.Path evs (.error e)) ∨
      ∃ pre a post, evs = pre ++ post ∧ t.Path pre (.ok a) ∧ (f a).Path post r := by
  induction t generalizing evs with
  | ret a =>
    constructor
    · intro h
      exact .inr ⟨[], a, evs, rfl, ⟨rfl, rfl⟩, h⟩
    · rintro (⟨e, -, -, he⟩ | ⟨pre, b, post, rfl, ⟨rfl, hb⟩, h⟩)
      · cases he
      · cases hb
        exact h
  | raise e =>
    constructor
    · rintro ⟨rfl, rfl⟩
      exact .inl ⟨e, rfl, rfl, rfl⟩
    · rintro (⟨e', rfl, rfl, he⟩ | ⟨pre, b, post, -, ⟨-, hb⟩, -⟩)
      · cases he
        exact ⟨rfl, rfl⟩
      · cases hb
  | op o k ih =>
    constructor
    · rintro ⟨a, rest, rfl, h⟩
      rcases (ih a).mp h with ⟨e, rfl, he⟩ | ⟨pre, b, post, rfl, hb, hf⟩
      · exact .inl ⟨e, rfl, a, rest, rfl, he⟩
      · exact .inr ⟨⟨o, a⟩ :: pre, b, post, rfl, ⟨a, pre, rfl, hb⟩, hf⟩
    · rintro (⟨e, rfl, a, rest, rfl, he⟩ | ⟨_, b, post, rfl, ⟨a, pre, rfl, hb⟩, hf⟩)
      · exact ⟨a, rest, rfl, (ih a).mpr (.inl ⟨e, rfl, he⟩)⟩
      · exact ⟨a, pre ++ post, rfl, (ih a).mpr (.inr ⟨pre, b, post, rfl, hb, hf⟩)⟩

/-- A run of a sequence that returns is runs of both parts that return. -/
theorem path_bind_ok {t : Prog Op Ans ε α} {f : α → Prog Op Ans ε β} {evs : List (Σ o, Ans o)}
    {b : β} (h : (t.bind f).Path evs (.ok b)) :
    ∃ pre a post, evs = pre ++ post ∧ t.Path pre (.ok a) ∧ (f a).Path post (.ok b) := by
  rcases path_bind.mp h with ⟨e, he, -⟩ | h
  · cases he
  · exact h

theorem path_attempt {t : Prog Op Ans ε α} {evs : List (Σ o, Ans o)}
    {r : Except ε (Except ε α)} : t.attempt.Path evs r ↔ ∃ s, r = .ok s ∧ t.Path evs s := by
  induction t generalizing evs with
  | ret a =>
    constructor
    · rintro ⟨rfl, rfl⟩
      exact ⟨_, rfl, rfl, rfl⟩
    · rintro ⟨_, rfl, rfl, rfl⟩
      exact ⟨rfl, rfl⟩
  | raise e =>
    constructor
    · rintro ⟨rfl, rfl⟩
      exact ⟨_, rfl, rfl, rfl⟩
    · rintro ⟨_, rfl, rfl, rfl⟩
      exact ⟨rfl, rfl⟩
  | op o k ih =>
    constructor
    · rintro ⟨a, rest, rfl, h⟩
      obtain ⟨s, rfl, hs⟩ := (ih a).mp h
      exact ⟨s, rfl, a, rest, rfl, hs⟩
    · rintro ⟨s, rfl, a, rest, rfl, hs⟩
      exact ⟨a, rest, rfl, (ih a).mpr ⟨s, rfl, hs⟩⟩

/-- A run of `try: t  except e: h e`. -/
theorem path_handle {t : Prog Op Ans ε α} {h : ε → Prog Op Ans ε α} {evs : List (Σ o, Ans o)}
    {r : Except ε α}
    (hr : (t.handle h).Path evs r) : ∃ pre s post, evs = pre ++ post ∧ t.Path pre s ∧
      match s with
      | .ok a => post = [] ∧ r = .ok a
      | .error e => (h e).Path post r := by
  rcases path_bind.mp hr with ⟨e, -, he⟩ | ⟨pre, s, post, heq, hs, hpost⟩
  · obtain ⟨_, hs, -⟩ := path_attempt.mp he
    cases hs
  obtain ⟨_, hs', ht⟩ := path_attempt.mp hs
  cases hs'
  cases s with
  | ok a => exact ⟨pre, .ok a, post, heq, ht, hpost⟩
  | error e => exact ⟨pre, .error e, post, heq, ht, hpost⟩

/-- A run of `try: t  finally: o`, with an infallible operation `o`. -/
theorem path_finally_op {t : Prog Op Ans ε α} {o : Op} {evs : List (Σ o, Ans o)} {r : Except ε α} :
    (t.finally_ (op o fun _ => ret ())).Path evs r ↔
      ∃ pre a, evs = pre ++ [⟨o, a⟩] ∧ t.Path pre r := by
  have ends : ∀ {s : Except ε α} {evs : List (Σ o, Ans o)},
      (ofExcept s : Prog Op Ans ε α).Path evs r ↔ evs = [] ∧ r = s := by
    intro s evs
    cases s <;> exact Iff.rfl
  unfold finally_
  constructor
  · intro h
    rcases path_bind.mp h with ⟨e, rfl, he⟩ | ⟨pre, s, post, rfl, hs, a, rest, rfl, hr⟩
    · obtain ⟨s, hs, -⟩ := path_attempt.mp he
      cases hs
    · obtain ⟨_, hs', ht⟩ := path_attempt.mp hs
      cases hs'
      obtain ⟨rfl, rfl⟩ := ends.mp hr
      exact ⟨pre, a, rfl, ht⟩
  · rintro ⟨pre, a, rfl, ht⟩
    exact path_bind.mpr (.inr ⟨pre, r, [⟨o, a⟩], rfl, path_attempt.mpr ⟨r, rfl, ht⟩, a, [], rfl,
      ends.mpr ⟨rfl, rfl⟩⟩)

/-! ### Tame programs -/

section Tame

variable (fails : (o : Op) → Ans o → Bool) (S : Op → Prop)

/-- On the way out with an exception: only infallible operations of `S` are left. -/
def Failing : Prog Op Ans ε α → Prop
  | ret _ => False
  | raise _ => True
  | op o k => S o ∧ ∀ a, fails o a = false ∧ (k a).Failing

/-- Operations of `S` only, an exception exactly when one of them has failed, and otherwise a
result in `R`. -/
def Tame (R : α → Prop) : Prog Op Ans ε α → Prop
  | ret a => R a
  | raise _ => False
  | op o k => S o ∧ ∀ a, if fails o a then (k a).Failing fails S else (k a).Tame R

/-- Infallible operations of `S`, whatever they answer: what may run in a `finally`. -/
def Calm : Prog Op Ans ε α → Prop
  | ret _ => True
  | raise _ => False
  | op o k => S o ∧ ∀ a, fails o a = false ∧ (k a).Calm

variable {fails S}

theorem Failing.bind {t : Prog Op Ans ε α} (h : t.Failing fails S) (f : α → Prog Op Ans ε β) :
    (t.bind f).Failing fails S := by
  induction t with
  | ret a => exact h.elim
  | raise e => trivial
  | op o k ih => exact ⟨h.1, fun a => ⟨(h.2 a).1, ih a (h.2 a).2⟩⟩

theorem Tame.bind {R : α → Prop} {R' : β → Prop} {t : Prog Op Ans ε α} {f : α → Prog Op Ans ε β}
    (h : t.Tame fails S R) (hf : ∀ a, R a → (f a).Tame fails S R') :
    (t.bind f).Tame fails S R' := by
  induction t with
  | ret a => exact hf a h
  | raise e => exact h.elim
  | op o k ih =>
    refine ⟨h.1, fun a => ?_⟩
    have ha := h.2 a
    split
    · rw [if_pos ‹_›] at ha; exact ha.bind f
    · rw [if_neg ‹_›] at ha; exact ih a ha

theorem Tame.mono {R R' : α → Prop} (hR : ∀ a, R a → R' a) {t : Prog Op Ans ε α}
    (h : t.Tame fails S R) : t.Tame fails S R' := by
  induction t with
  | ret a => exact hR a h
  | raise e => exact h
  | op o k ih =>
    refine ⟨h.1, fun a => ?_⟩
    have ha := h.2 a
    split
    · rw [if_pos ‹_›] at ha; exact ha
    · rw [if_neg ‹_›] at ha; exact ih a ha

theorem Failing.widen {S' : Op → Prop} (hS : ∀ o, S o → S' o) {t : Prog Op Ans ε α}
    (h : t.Failing fails S) : t.Failing fails S' := by
  induction t with
  | ret a => exact h
  | raise e => trivial
  | op o k ih => exact ⟨hS o h.1, fun a => ⟨(h.2 a).1, ih a (h.2 a).2⟩⟩

theorem Tame.widen {S' : Op → Prop} (hS : ∀ o, S o → S' o) {R : α → Prop} {t : Prog Op Ans ε α}
    (h : t.Tame fails S R) : t.Tame fails S' R := by
  induction t with
  | ret a => exact h
  | raise e => exact h
  | op o k ih =>
    refine ⟨hS o h.1, fun a => ?_⟩
    have ha := h.2 a
    split
    · rw [if_pos ‹_›] at ha; exact ha.widen hS
    · rw [if_neg ‹_›] at ha; exact ih a ha

theorem Calm.tame_bind {R : β → Prop} {t : Prog Op Ans ε α} {f : α → Prog Op Ans ε β}
    (h : t.Calm fails S) (hf : ∀ a, (f a).Tame fails S R) : (t.bind f).Tame fails S R := by
  induction t with
  | ret a => exact hf a
  | raise e => exact h.elim
  | op o k ih =>
    refine ⟨h.1, fun a => ?_⟩
    simp only [(h.2 a).1, Bool.false_eq_true, if_false]
    exact ih a (h.2 a).2

theorem Calm.failing_bind {t : Prog Op Ans ε α} {f : α → Prog Op Ans ε β} (h : t.Calm fails S)
    (hf : ∀ a, (f a).Failing fails S) : (t.bind f).Failing fails S := by
  induction t with
  | ret a => exact hf a
  | raise e => exact h.elim
  | op o k ih => exact ⟨h.1, fun a => ⟨(h.2 a).1, ih a (h.2 a).2⟩⟩

/-- A `finally` of infallible operations keeps a tame program tame. -/
theorem Tame.finally_ {R : α → Prop} {t : Prog Op Ans ε α} {f : Prog Op Ans ε Unit}
    (h : t.Tame fails S R) (hf : f.Calm fails S) : (t.finally_ f).Tame fails S R := by
  have failing : ∀ u : Prog Op Ans ε α, u.Failing fails S → (u.finally_ f).Failing fails S := by
    intro u hu
    induction u with
    | ret a => exact hu.elim
    | raise e => exact hf.failing_bind fun _ => trivial
    | op o k ih => exact ⟨hu.1, fun a => ⟨(hu.2 a).1, ih a (hu.2 a).2⟩⟩
  induction t with
  | ret a => exact hf.tame_bind fun _ => h
  | raise e => exact h.elim
  | op o k ih =>
    refine ⟨h.1, fun a => ?_⟩
    have ha := h.2 a
    split
    · rw [if_pos ‹_›] at ha; exact failing _ ha
    · rw [if_neg ‹_›] at ha; exact ih a ha

end Tame

/-! ### The operations of a program -/

section Uses

variable {S : Op → Prop}

/-- Operations of `S` only. -/
def Uses (S : Op → Prop) : Prog Op Ans ε α → Prop
  | ret _ => True
  | raise _ => True
  | op o k => S o ∧ ∀ a, (k a).Uses S

theorem Uses.mono {S' : Op → Prop} (hS : ∀ o, S o → S' o) :
    ∀ {t : Prog Op Ans ε α}, t.Uses S → t.Uses S'
  | ret _, _ => trivial
  | raise _, _ => trivial
  | op _ _, h => ⟨hS _ h.1, fun a => (h.2 a).mono hS⟩

theorem Failing.uses {fails : (o : Op) → Ans o → Bool} :
    ∀ {t : Prog Op Ans ε α}, t.Failing fails S → t.Uses S
  | ret _, _ => trivial
  | raise _, _ => trivial
  | op _ _, h => ⟨h.1, fun a => (h.2 a).2.uses⟩

theorem Tame.uses {fails : (o : Op) → Ans o → Bool} {R : α → Prop} :
    ∀ {t : Prog Op Ans ε α}, t.Tame fails S R → t.Uses S
  | ret _, _ => trivial
  | raise _, _ => trivial
  | op _ _, h => by
    refine ⟨h.1, fun a => ?_⟩
    have ha := h.2 a
    split at ha
    · exact ha.uses
    · exact ha.uses

/-- On the way out with an exception nothing is returned. -/
theorem Failing.path {fails : (o : Op) → Ans o → Bool} {a : α} :
    ∀ {t : Prog Op Ans ε α} {evs : List (Σ o, Ans o)},
    t.Failing fails S → ¬ t.Path evs (.ok a)
  | ret _, _, h, _ => h
  | raise _, _, _, hp => by cases hp.2
  | op _ _, _, h, hp => by
    obtain ⟨b, rest, rfl, hp⟩ := hp
    exact (h.2 b).2.path hp

/-- What a complete run returns is as it should be. -/
theorem Tame.path {fails : (o : Op) → Ans o → Bool} {R : α → Prop} {a : α} :
    ∀ {t : Prog Op Ans ε α} {evs : List (Σ o, Ans o)}, t.Tame fails S R → t.Path evs (.ok a) → R a
  | ret _, _, h, hp => by
    obtain ⟨-, ha⟩ := hp
    cases ha
    exact h
  | raise _, _, h, _ => h.elim
  | op _ _, _, h, hp => by
    obtain ⟨b, rest, rfl, hp⟩ := hp
    have next := h.2 b
    split at next
    · exact absurd hp next.path
    · exact next.path hp

/-- What a program performs on a complete run. -/
theorem Uses.path : ∀ {t : Prog Op Ans ε α} {evs : List (Σ o, Ans o)} {r : Except ε α}, t.Uses S →
    t.Path evs r → ∀ e ∈ evs, S e.1
  | ret _, _, _, _, h, e, he => by
    rw [h.1] at he
    cases he
  | raise _, _, _, _, h, e, he => by
    rw [h.1] at he
    cases he
  | op o k, _, _, ht, h, e, he => by
    obtain ⟨a, rest, rfl, hr⟩ := h
    rcases List.mem_cons.mp he with rfl | he
    · exact ht.1
    · exact (ht.2 a).path hr e he

theorem Uses.bind {f : α → Prog Op Ans ε β} (hf : ∀ a, (f a).Uses S) :
    ∀ {t : Prog Op Ans ε α}, t.Uses S → (t.bind f).Uses S
  | ret a, _ => hf a
  | raise _, _ => trivial
  | op _ _, h => ⟨h.1, fun a => Uses.bind hf (h.2 a)⟩

theorem Uses.attempt : ∀ {t : Prog Op Ans ε α}, t.Uses S → t.attempt.Uses S
  | ret _, _ => trivial
  | raise _, _ => trivial
  | op _ _, h => ⟨h.1, fun a => (h.2 a).attempt⟩

theorem uses_ofExcept (r : Except ε α) : (ofExcept r : Prog Op Ans ε α).Uses S := by
  cases r <;> trivial

theorem Uses.handle {t : Prog Op Ans ε α} {h : ε → Prog Op Ans ε α} (ht : t.Uses S)
    (hh : ∀ e, (h e).Uses S) : (t.handle h).Uses S :=
  ht.attempt.bind fun r => by
    cases r with
    | ok a => trivial
    | error e => exact hh e

theorem Uses.finally_ {t : Prog Op Ans ε α} {f : Prog Op Ans ε Unit} (ht : t.Uses S)
    (hf : f.Uses S) : (t.finally_ f).Uses S :=
  ht.attempt.bind fun r => hf.bind fun _ => uses_ofExcept r

end Uses

end Prog

end Coop
