import Mathlib.Tactic.Linarith
import SmtpSwitch.Breaker.Probes

/-!
# The cooldown

When the breaker of a provider opens, the router should not choose the provider until
the cooldown is over. A relay that was under way when the breaker opened can still
report a success, and a success closes the breaker at any time; as long as none comes
during a cooldown, the cooldown is kept (`CooldownInv`).
-/

namespace SmtpSwitch

open Coop Coop.Prog

/-- The breaker of `p` was left open since `t` by a change of its state. -/
def OpenedAt (tr : List (Entry Op Op.Ans Job ℚ)) (p : String) (t : Time) : Prop :=
  ∃ i st a, .did i (.setState p st) a ∈ tr ∧ st.healthy = false ∧ st.openedAt = some t

/-- The breaker of `p` is open and its cooldown not over. -/
def CoolingDown (cfg : Settings) (w : World) (p : String) : Prop :=
  (w.state p).healthy = false ∧
    ∃ t, (w.state p).openedAt = some t ∧ w.clock < t + (cfg.circuitBreaker.cooldownSeconds : ℕ)

/-- The process does not die, and no success of a provider takes effect during its cooldown. -/
def NoLateSuccess (cfg : Settings) (x x' : Moment) : Prop :=
  x'.trace ≠ .crash :: x.trace ∧
  ∀ i p st a, x'.trace = .did i (.setState p st) a :: x.trace → st.healthy = true →
    ¬ CoolingDown cfg x.shared p

variable {cfg : Settings}

/-- What the breaker remembers of an opening at `t`: it is still open, since then or later, unless
the cooldown is over. -/
structure CooldownInv (cfg : Settings) (x : Moment) : Prop where
  held : LocksHeld cfg x
  opened : ∀ p t, OpenedAt x.trace p t → t + (cfg.circuitBreaker.cooldownSeconds : ℕ) ≤
    x.shared.clock ∨
    (x.shared.state p).healthy = false ∧ ∃ t', (x.shared.state p).openedAt = some t' ∧ t ≤ t'

/-- A half-open breaker has been open for the cooldown. -/
theorem cooled_of_halfOpen {st : ProviderState} {now : Time}
    (h : CircuitBreaker.status cfg.circuitBreaker st now = .halfOpen) :
    st.healthy = false ∧
      ∃ t, st.openedAt = some t ∧ t + (cfg.circuitBreaker.cooldownSeconds : ℕ) ≤ now := by
  obtain ⟨unhealthy, t, ht, le⟩ := CircuitBreaker.status_halfOpen_iff.mp h
  exact ⟨unhealthy, t, ht, by linarith⟩

variable (cfg) in
/-- A failure that comes when the breaker is open keeps it open, since then or later. -/
theorem failed_open {st : ProviderState} (now : Time) {t : Time} (hs : st.healthy = false)
    (ht : st.openedAt = some t) :
    (CircuitBreaker.failed cfg.circuitBreaker st now).healthy = false ∧
      ∃ t', (CircuitBreaker.failed cfg.circuitBreaker st now).openedAt = some t' ∧ t ≤ t' := by
  unfold CircuitBreaker.failed
  simp only
  split
  · rename_i halfOpen
    have halfOpen : CircuitBreaker.status cfg.circuitBreaker st now = .halfOpen := halfOpen
    obtain ⟨-, t', ht', le⟩ := cooled_of_halfOpen halfOpen
    rw [ht] at ht'
    cases ht'
    have cooldown : (0 : ℚ) ≤ (cfg.circuitBreaker.cooldownSeconds : ℕ) := Nat.cast_nonneg _
    exact ⟨rfl, now, rfl, by linarith⟩
  split
  · rename_i healthy
    rw [hs] at healthy
    cases healthy.1
  · exact ⟨hs, t, ht, le_rfl⟩

namespace CooldownInv

variable {w w' : World} {tr : List (Entry Op Op.Ans Job ℚ)} {i : ℕ} {c : Choice}

/-- An opening before this operation, or this operation. -/
theorem openedAt_did {o : Op} {a : o.Ans} {p : String} {t : Time}
    (h : OpenedAt (.did i o a :: tr) p t) :
    OpenedAt tr p t ∨ ∃ st, o = .setState p st ∧ st.healthy = false ∧ st.openedAt = some t := by
  obtain ⟨k, st, b, hm, hs, ht⟩ := h
  rcases List.mem_cons.mp hm with heq | hm
  · cases heq
    exact .inr ⟨st, rfl, hs, ht⟩
  · exact .inl ⟨k, st, b, hm, hs, ht⟩

/-- The openings remembered after a change of a state. -/
theorem setState_did (h : CooldownInv cfg ⟨w, tr⟩) {q : String} {st' : ProviderState} {a : Unit}
    (he : exec cfg i (.setState q st') c w = some (a, w'))
    (hb : ((breakerProtocol cfg).phase tr i).good cfg (.setState q st') a)
    (hc : st'.healthy = true → ¬ CoolingDown cfg w q) {p : String} {t : Time}
    (opened : OpenedAt (.did i (.setState q st') a :: tr) p t) :
    t + (cfg.circuitBreaker.cooldownSeconds : ℕ) ≤ w'.clock ∨
      (w'.state p).healthy = false ∧ ∃ t', (w'.state p).openedAt = some t' ∧ t ≤ t' := by
  obtain rfl := exec_setState he
  rw [World.state_update]
  rcases openedAt_did opened with before | ⟨st, heq, hs, ht⟩
  · rcases h.opened p t before with past | ⟨unhealthy, t', ht', le⟩
    · exact .inl past
    by_cases hp : p = q
    · subst hp
      rw [if_pos rfl]
      obtain ⟨st, now, looked, change⟩ := hb
      obtain ⟨-, current, -⟩ : w.locks (.breaker p) = some i ∧ w.state p = st ∧ now ≤ w.clock := by
        have := h.held i
        rwa [show (breakerProtocol cfg).phase tr i = .looked p st now from looked] at this
      have unhealthy : (w.state p).healthy = false := unhealthy
      have ht' : (w.state p).openedAt = some t' := ht'
      rcases change with ⟨-, -, rfl⟩ | rfl | rfl
      · rw [← current]
        exact .inr ⟨unhealthy, t', ht', le⟩
      · refine .inl (le_of_not_gt fun early => hc rfl ⟨unhealthy, t', ht', ?_⟩)
        have early : w.clock < t + (cfg.circuitBreaker.cooldownSeconds : ℕ) := early
        linarith
      · rw [current] at unhealthy ht'
        obtain ⟨hs, t'', ht'', le'⟩ := failed_open cfg now unhealthy ht'
        exact .inr ⟨hs, t'', ht'', le.trans le'⟩
    · rw [if_neg hp]
      exact .inr ⟨unhealthy, t', ht', le⟩
  · cases heq
    rw [if_pos rfl]
    exact .inr ⟨hs, t, ht, le_rfl⟩

/-- Every move keeps it, if no success comes during a cooldown. -/
theorem step {jobs : Job → Bool} {x x' : Moment} (h : CooldownInv cfg x)
    (hs : (system cfg jobs).Step (relaying cfg) x x') (hc : NoLateSuccess cfg x x') :
    CooldownInv cfg x' := by
  refine ⟨h.held.step hs.snd (relaying_no_load hs), ?_⟩
  cases hs with
  | start ha hi =>
    rintro p t ⟨k, st, b, hm, hst⟩
    rcases List.mem_cons.mp hm with heq | hm
    · cases heq
    · exact h.opened p t ⟨k, st, b, hm, hst⟩
  | @env w tr d =>
    rintro p t ⟨k, st, b, hm, hst⟩
    rcases List.mem_cons.mp hm with heq | hm
    · cases heq
    rcases h.opened p t ⟨k, st, b, hm, hst⟩ with past | still
    · exact .inl (past.trans (le_add_of_nonneg_right (le_max_right _ _)))
    · exact .inr still
  | crash => exact absurd rfl hc.1
  | @did w w' tr i o c a he hg =>
    rw [relaying, Protocol.phase_prod] at hg
    have he : exec cfg i o c w = some (a, w') := he
    intro p t opened
    have frame := exec_frame cfg he
    by_cases hp : o.part = some .states
    · cases o with
      | setState q st => exact h.setState_did he hg.2 (hc.2 i q st a rfl) opened
      | loadStates rows => exact hg.1.elim
      | _ => simp [Op.part] at hp
    · rcases openedAt_did opened with before | ⟨st, rfl, -⟩
      · show t + _ ≤ w'.clock ∨ (w'.state p).healthy = false ∧ _
        have same : w'.state p = w.state p := congrArg (fun st => (st p).getD {}) (frame.states hp)
        rw [same, frame.clock]
        exact h.opened p t before
      · exact absurd rfl hp

end CooldownInv

/-- **The router keeps away during the cooldown.** Every decision of the router ends with
`begin_probe` letting it through; and in every run in which no success of a provider takes effect
during its cooldown, nobody is let through to a provider before the cooldown of every earlier
opening of its breaker is over. -/
theorem cooldown_kept_unless_lateSuccess (cfg : Settings) :
    (∀ exclude evs d, (select cfg exclude).Path evs (.ok (some d)) →
      LetThrough cfg d.provider evs) ∧
    ∀ w s m s', (system cfg Job.ofDispatch).Reachable (NoLateSuccess cfg) (Machine.boot w) s →
      (system cfg Job.ofDispatch).step m s = some s' →
      ∀ i p a, s'.trace = .did i (.unlock (.breaker p)) a :: s.trace →
        ((breakerProtocol cfg).phase s.trace i).lets cfg = true →
        ∀ t, OpenedAt s.trace p t →
          t + (cfg.circuitBreaker.cooldownSeconds : ℕ) ≤ s.shared.clock := by
  refine ⟨fun _ _ _ => lets_of_select, ?_⟩
  intro w s m s' h hm i p a htr lets t opened
  have init : CooldownInv cfg ⟨w, []⟩ := by
    refine ⟨fun i => (by trivial), ?_⟩
    rintro p t ⟨_, _, _, hm, _⟩
    cases hm
  obtain ⟨inv, inPhase⟩ := Machine.invariant relaying_keeps (CooldownInv cfg) init
    (fun h hs hc => h.step hs hc) h
  obtain ⟨hs, -⟩ := Machine.step_cases relaying_keeps inPhase hm
  rcases inv.opened p t opened with past | ⟨unhealthy, t', ht', le⟩
  · exact past
  have held := inv.held i
  have good : ((breakerProtocol cfg).phase s.trace i).lock = some p := by
    have hg := (hs.of_did htr).2
    rw [relaying, Protocol.phase_prod] at hg
    exact hg.2
  revert good lets held
  generalize (breakerProtocol cfg).phase s.trace i = φ
  intro lets held good
  cases φ with
  | looked q st now =>
    cases good
    obtain ⟨-, current, -⟩ := held
    rw [current] at unhealthy
    have healthy := CircuitBreaker.status_closed_iff.mp (of_decide_eq_true lets)
    rw [unhealthy] at healthy
    cases healthy
  | wrote q probe row =>
    cases good
    obtain rfl : probe = true := lets
    obtain ⟨-, t'', ht'', past⟩ := cooled_of_halfOpen (held.2.2 rfl)
    rw [ht'] at ht''
    cases ht''
    linarith
  | _ => cases lets

namespace Example

/-- Consumers 1 and 2 relay while the breaker is closed. The failure of 2 opens it, the success of 1
closes it, and consumer 3 has looked at the state under the lock. -/
def lateSuccess : List (Move Choice Job ℚ) := List.flatten
  [[.start 0 .producer], oks 0 8, [.start 1 .consumer], oks 1 19, [.start 2 .consumer], oks 2 19,
    [.run 2 busy], oks 2 16, [.run 1 (.smtp (.returned [] "OK") true)], oks 1 17,
    [.start 3 .consumer], oks 3 17]

/-- Consumer 3 is let through at this move. -/
def letThrough (s s' : Pool Op Op.Ans Exc World Job ℚ) : Bool :=
  match s'.trace with
  | .did 3 (.unlock (.breaker "p")) _ :: _ =>
      ((breakerProtocol oneStrike).phase s.trace 3).lets oneStrike
  | _ => false

/-- The provider's breaker is opened in the trace at `t`. -/
def opens (t : Time) : Entry Op Op.Ans Job ℚ → Bool
  | .did _ (.setState "p" st) _ => !st.healthy && st.openedAt = some t
  | _ => false

theorem openedAt_of_opens {tr : List (Entry Op Op.Ans Job ℚ)} {t : Time}
    (h : tr.any (opens t) = true) : OpenedAt tr "p" t := by
  obtain ⟨e, he, opens⟩ := List.any_eq_true.mp h
  unfold Example.opens at opens
  split at opens
  · rename_i i st a
    simp only [Bool.and_eq_true, Bool.not_eq_true', decide_eq_true_eq] at opens
    exact ⟨i, st, a, he, opens⟩
  · cases opens

/-- Consumer 3 is let through at the time at which the breaker has opened. -/
theorem cooldown_broken_lateSuccess : ∃ s s' a,
    (system oneStrike Job.ofDispatch).Reachable Machine.Free (Machine.boot fourDue) s ∧
      (system oneStrike Job.ofDispatch).step (.run 3 .ok) s = some s' ∧
      s'.trace = .did 3 (.unlock (.breaker "p")) a :: s.trace ∧
      ((breakerProtocol oneStrike).phase s.trace 3).lets oneStrike = true ∧
      OpenedAt s.trace "p" 63923749200 ∧ s.shared.clock = 63923749200 := by
  obtain ⟨s, hs, ha⟩ : ∃ s, (system oneStrike Job.ofDispatch).runFrom (Machine.boot fourDue)
      lateSuccess = some s ∧
        (((system oneStrike Job.ofDispatch).step (.run 3 .ok) s).map (letThrough s),
        s.trace.any (opens 63923749200), decide (s.shared.clock = 63923749200)) =
          (some true, true, true) :=
    Option.map_eq_some_iff.mp (by decide +kernel)
  simp only [Prod.mk.injEq, Option.map_eq_some_iff, decide_eq_true_eq] at ha
  obtain ⟨⟨s', hs', through⟩, opens, clock⟩ := ha
  have opened := openedAt_of_opens opens
  obtain ⟨j, o, k, a, w, -, -, rfl⟩ := Machine.step_run hs'
  unfold letThrough at through
  split at through
  · rename_i heq
    cases heq
    exact ⟨s, _, _, Machine.Reachable.refl.runFrom hs, hs', rfl, through, opened, clock⟩
  · cases through

/-- After the cooldown consumer 3 is let through as a probe. -/
def afterCooldown : List (Move Choice Job ℚ) := List.flatten
  [[.start 0 .producer], oks 0 8, [.start 2 .consumer], oks 2 19, [.run 2 busy], oks 2 16,
    [.env 121, .start 3 .consumer], oks 3 21]

/-- No success takes effect at this move, and the process does not die. -/
def noSuccess (m : Move Choice Job ℚ) (s : Pool Op Op.Ans Exc World Job ℚ) : Bool :=
  match m with
  | .run i _ =>
    match s.tasks i with
    | some (_, .op (.setState _ st) _) => !st.healthy
    | _ => true
  | .crash => false
  | _ => true

theorem noLateSuccess_of_noSuccess {m : Move Choice Job ℚ} {s s' : Pool Op Op.Ans Exc World Job ℚ}
    (hm : noSuccess m s = true) (hs : (system oneStrike Job.ofDispatch).step m s = some s') :
    NoLateSuccess oneStrike s.toConfig s'.toConfig := by
  refine ⟨fun htr => ?_, fun i p st a htr healthy => ?_⟩
  · obtain rfl := Machine.step_crash hs htr
    cases hm
  · obtain ⟨c, j, k, rfl, ht, -⟩ := Machine.step_did hs htr
    simp [noSuccess, ht, healthy] at hm

theorem cooldown_kept_afterCooldown : ∃ s s' a,
    (system oneStrike Job.ofDispatch).runFrom (Machine.boot fourDue) afterCooldown = some s ∧
      (system oneStrike Job.ofDispatch).step (.run 3 .ok) s = some s' ∧
      s'.trace = .did 3 (.unlock (.breaker "p")) a :: s.trace ∧
      OpenedAt s.trace "p" 63923749200 ∧ 63923749200 + ((120 : ℕ) : ℚ) ≤ s.shared.clock := by
  obtain ⟨s, hs, ha⟩ : ∃ s, (system oneStrike Job.ofDispatch).runFrom (Machine.boot fourDue)
      afterCooldown = some s ∧ (((system oneStrike Job.ofDispatch).step (.run 3 .ok) s).map
        (letThrough s), s.trace.any (opens 63923749200)) = (some true, true) :=
    Option.map_eq_some_iff.mp (by decide +kernel)
  have along : (system oneStrike Job.ofDispatch).along noSuccess (Machine.boot fourDue)
    afterCooldown = true := by decide +kernel
  simp only [Prod.mk.injEq, Option.map_eq_some_iff] at ha
  obtain ⟨⟨s', hs', through⟩, opens⟩ := ha
  have opened := openedAt_of_opens opens
  have kept := (cooldown_kept_unless_lateSuccess oneStrike).2 fourDue s (.run 3 .ok) s'
    (Machine.Reachable.refl.runFrom_along noLateSuccess_of_noSuccess along hs) hs' 3 "p"
  obtain ⟨j, o, k, a, w, -, -, rfl⟩ := Machine.step_run hs'
  unfold letThrough at through
  split at through
  · rename_i heq
    cases heq
    exact ⟨s, _, _, hs, hs', rfl, opened, kept () rfl through _ opened⟩
  · cases through

end Example

end SmtpSwitch
