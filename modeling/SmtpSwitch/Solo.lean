import SmtpSwitch.Breaker.History
import SmtpSwitch.Coop.Turns
import SmtpSwitch.System

/-!
# Jobs that have their turn

What a function does that runs alone is computed with one task, task `0`, whose surroundings
answer in one way (`unfailing`, `accepting`). It is what a job does that any task runs from its
start to its end while no lock is taken, however the surroundings may choose as long as nothing
fails (`ends_of_unfailing`), and the providers accept what they are sent (`ends_of_accepting`).
Which task it is shows in the locks only, and these are given back. -/

namespace SmtpSwitch

open Coop Coop.Prog
open CircuitBreaker (unfailing)

/-! ### The surroundings -/

/-- What may be chosen if nothing fails. -/
def Unfailed (_ : Op) (c : Choice) : Prop := ∀ e, c ≠ .fail e

/-- What may be chosen if nothing fails and the providers accept every message; each is a message's
own reply. -/
def AllAccepted (reply : ℕ → String) : Op → Choice → Prop
  | .send _ _ _ _ _ errand, c => c = .smtp (.returned [] (reply errand.message)) true
  | o, c => Unfailed o c

/-- An operation when nothing fails and the providers accept every message; the wait for a wakeup
times out. -/
def accepting (cfg : Settings) (reply : ℕ → String) (o : Op) (w : World) : Option (o.Ans × World) :=
  match o with
  | .send p kwargs sender recipients message errand =>
    exec cfg 0 (.send p kwargs sender recipients message errand)
      (.smtp (.returned [] (reply errand.message)) true) w
  | .waitWakeup => exec cfg 0 .waitWakeup .timeout w
  | o => unfailing cfg o w

variable {cfg : Settings} {reply : ℕ → String} {w w' : World}

theorem accepting_of_unfailing {o : Op} {x : o.Ans × World} (h : unfailing cfg o w = some x) :
    accepting cfg reply o w = some x := by
  cases o with
  | send => cases h
  | waitWakeup =>
    simp only [unfailing, exec] at h
    split at h
    · exact h
    · cases h
  | _ => exact h

theorem choice_of_accepting {o : Op} {x : o.Ans × World} (h : accepting cfg reply o w = some x) :
    ∃ c, AllAccepted reply o c ∧ exec cfg 0 o c w = some x := by
  cases o with
  | send => exact ⟨_, rfl, h⟩
  | waitWakeup => exact ⟨.timeout, fun _ => Choice.noConfusion, h⟩
  | _ => exact ⟨.ok, fun _ => Choice.noConfusion, h⟩

theorem alone_accepting {α : Type} {t : Act α} {r : Except Exc α × World}
    (h : t.alone (unfailing cfg) w = some r) : t.alone (accepting cfg reply) w = some r :=
  alone_mono (accepting cfg reply) (fun _ _ _ h => accepting_of_unfailing h) h

/-- The world if another task has the locks. -/
def World.heldBy (i : ℕ) (w : World) : World :=
  { w with locks := fun l => (w.locks l).map fun _ => i }

theorem heldBy_free (i : ℕ) (free : ∀ l, w.locks l = none) : w.heldBy i = w := by
  have same : (fun l => (w.locks l).map fun _ => i) = w.locks := funext fun l => by rw [free l]; rfl
  rw [World.heldBy, same]

theorem heldBy_update (i : ℕ) (w : World) (l : Lock) (holder : Option ℕ) :
    ({ w.heldBy i with locks := Function.update (w.heldBy i).locks l (holder.map fun _ => i) } :
      World) =
      ({ w with locks := Function.update w.locks l holder } : World).heldBy i := by
  have same : Function.update (w.heldBy i).locks l (holder.map fun _ => i) =
      fun l' => (Function.update w.locks l holder l').map fun _ => i := by
    funext l'
    by_cases hl : l' = l
    · subst hl
      rw [Function.update_self, Function.update_self]
    · rw [Function.update_of_ne hl, Function.update_of_ne hl]
      rfl
  rw [same]
  rfl

/-- It does not matter which task it is. -/
theorem exec_heldBy (i : ℕ) {o : Op} {c : Choice} {a : o.Ans}
    (h : exec cfg 0 o c w = some (a, w')) :
    exec cfg i o c (w.heldBy i) = some (a, w'.heldBy i) := by
  cases o <;> cases c <;> delta exec at h ⊢ <;> simp only [reduceCtorEq] at h
  case acquire.ok l =>
    split at h
    · rename_i unlocked
      cases h
      have unlocked' : (w.heldBy i).locks l = none := congrArg (Option.map fun _ => i) unlocked
      simp only [if_pos unlocked']
      exact congrArg (fun v => some ((), v)) (heldBy_update i w l (some 0))
    · cases h
  case unlock.ok l =>
    cases h
    exact congrArg (fun v => some ((), v)) (heldBy_update i w l none)
  case commit.ok site ss =>
    split at h
    · rename_i db found
      cases h
      have found' : (w.heldBy i).db.execAll ss = some db := found
      simp only [found']
      rfl
    · rename_i broken
      cases h
      have broken' : (w.heldBy i).db.execAll ss = none := broken
      simp only [broken']
  case queueGet.ok =>
    split at h
    · rename_i m ms found
      have found' : (w.heldBy i).queue = m :: ms := found
      simp only [found']
      cases h
      rfl
    · cases h
  case spoolRead.ok path =>
    split at h
    · rename_i content found
      cases h
      have found' : (w.heldBy i).files path = some content := found
      simp only [found']
    · rename_i missing
      cases h
      have missing' : (w.heldBy i).files path = none := missing
      simp only [missing']
  all_goals first
    | (cases h; rfl)
    | (split at h <;> first
        | (cases h; done)
        | (rename_i found; cases h; exact if_pos found)
        | (rename_i found; cases h; exact if_neg found))

/-! ### What may be chosen has one effect -/

section Effect

variable {i : ℕ} {o : Op} {c : Choice} {x y : o.Ans × World}

theorem effect_of_unfailing (h : unfailing cfg o w = some x) (hc : Unfailed o c)
    (hy : exec cfg i o c (w.heldBy i) = some y) : y = (x.1, x.2.heldBy i) := by
  have ok : ∀ {z}, exec cfg i o .ok (w.heldBy i) = some z → z = (x.1, x.2.heldBy i) := fun hz =>
    Option.some.inj (hz.symm.trans (exec_heldBy i h))
  cases c with
  | ok => exact ok hy
  | fail e => exact absurd rfl (hc e)
  | timeout =>
    cases o with
    | waitWakeup =>
      simp only [unfailing, exec] at h
      split at h
      · cases h
        cases hy
        rfl
      · cases h
    | _ => cases hy
  -- the other choices are for operations that do not take `ok`
  | draw q =>
    cases o with
    | random => cases h
    | _ => cases hy
  | name path =>
    cases o with
    | spoolWrite => cases h
    | _ => cases hy
  | smtp out accepted =>
    cases o with
    | send => cases h
    | _ => cases hy
  | parsed v =>
    cases o with
    | header => cases h
    | _ => cases hy

theorem effect_of_accepting (h : accepting cfg reply o w = some x) (hc : AllAccepted reply o c)
    (hy : exec cfg i o c (w.heldBy i) = some y) : y = (x.1, x.2.heldBy i) := by
  cases o with
  | send =>
    cases hc
    exact Option.some.inj (hy.symm.trans (exec_heldBy i h))
  | waitWakeup =>
    cases h
    cases c with
    | ok =>
      simp only [exec] at hy
      split at hy
      · cases hy
        rfl
      · cases hy
    | timeout =>
      cases hy
      rfl
    | _ => cases hy
  | _ => exact effect_of_unfailing h hc hy

end Effect

section Turn

variable {jobs : Job → Bool} {i : ℕ} {j : Job} {s : Pool Op Op.Ans Exc World Job ℚ}
  {r : Except Exc Unit}

theorem realizes_unfailing :
    (system cfg jobs).Realizes Unfailed i (unfailing cfg) (World.heldBy i) where
  some_choice h := ⟨.ok, fun _ => Choice.noConfusion, exec_heldBy i h⟩
  one_effect := effect_of_unfailing

theorem realizes_accepting :
    (system cfg jobs).Realizes (AllAccepted reply) i (accepting cfg reply) (World.heldBy i) where
  some_choice h := by
    obtain ⟨c, hc, hexec⟩ := choice_of_accepting h
    exact ⟨c, hc, exec_heldBy i hexec⟩
  one_effect := effect_of_accepting

/-- If nothing fails, a job's turn ends as it does when it runs alone. -/
theorem ends_of_unfailing (run : (j.code cfg).alone (unfailing cfg) s.shared = some (r, w'))
    (free : ∀ l, s.shared.locks l = none) (back : ∀ l, w'.locks l = none) (idle : s.tasks i = none)
    (admitted : Job.admitted jobs i j s.shared = true) :
    (system cfg jobs).Ends Unfailed [(i, j)] s fun s' => s'.shared = w' :=
  (Machine.ends_of_alone realizes_unfailing run (heldBy_free i free).symm idle admitted).mono
    fun _ _ shared => shared.trans (heldBy_free i back)

/-- The same where the providers are sent messages, and accept them. -/
theorem ends_of_accepting (run : (j.code cfg).alone (accepting cfg reply) s.shared = some (r, w'))
    (free : ∀ l, s.shared.locks l = none) (back : ∀ l, w'.locks l = none) (idle : s.tasks i = none)
    (admitted : Job.admitted jobs i j s.shared = true) :
    (system cfg jobs).Ends (AllAccepted reply) [(i, j)] s fun s' => s'.shared = w' :=
  (Machine.ends_of_alone realizes_accepting run (heldBy_free i free).symm idle admitted).mono
    fun _ _ shared => shared.trans (heldBy_free i back)

end Turn

end SmtpSwitch
