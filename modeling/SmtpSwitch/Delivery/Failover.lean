import SmtpSwitch.Delivery.Rejection

/-!
# Failover

The router starts at the top of the priority order and passes over the providers tried in the same
cycle; what was tried in an earlier cycle it does not know. With every breaker closed and capacity
free, a cycle therefore tries the first `failover_per_tick` of the enabled providers
(`FailoverLoop.covers`), and the next cycle the same ones again: a provider further down is never
reached, however many cycles there are.
-/

namespace SmtpSwitch

open Coop Coop.Prog

/-! ### When the router looks -/

/-- Whether the router is looking: from a look at the overrides to the next relay. -/
def Op.looking (before : Bool) : Op → Bool
  | .overrides => true
  | .send .. => false
  | _ => before

/-- What happens while the router is looking. -/
def looksFrom (before : Bool) : Events → Events
  | [] => []
  | e :: evs => (if e.1.looking before then [e] else []) ++ looksFrom (e.1.looking before) evs

/-- The same of a whole cycle. -/
def looks (evs : Events) : Events := looksFrom false evs

theorem looksFrom_mono {evs : Events} {e : Σ o : Op, o.Ans} (h : e ∈ looksFrom false evs)
    (before : Bool) : e ∈ looksFrom before evs := by
  induction evs generalizing before with
  | nil => cases h
  | cons x evs ih =>
    cases before with
    | false => exact h
    | true =>
      obtain ⟨o, a⟩ := x
      cases o with
      | overrides => exact h
      | send p kwargs sender recipients raw errand => exact h
      | _ => exact List.mem_append_right _ (ih h true)

/-- A look later on is a look. -/
theorem looksFrom_append {before : Bool} {evs evs' : Events} {e : Σ o : Op, o.Ans}
    (h : e ∈ looks evs') :
    e ∈ looksFrom before (evs ++ evs') := by
  induction evs generalizing before with
  | nil => exact looksFrom_mono h before
  | cons x evs ih => exact List.mem_append_right _ ih

/-- All of what has no relay in it, from a look on. -/
theorem mem_looksFrom_true {evs evs' : Events} {e : Σ o : Op, o.Ans}
    (unrelayed : ∀ p out, ¬ Relayed p out evs) (h : e ∈ evs) :
    e ∈ looksFrom true (evs ++ evs') := by
  induction evs with
  | nil => cases h
  | cons x evs ih =>
    have looking : x.1.looking true = true := by
      obtain ⟨o, a⟩ := x
      cases o with
      | send p kwargs sender recipients raw errand =>
        exact absurd ⟨kwargs, sender, recipients, raw, errand, List.mem_cons_self⟩ (unrelayed p a)
      | _ => rfl
    have rest : ∀ p out, ¬ Relayed p out evs := by
      rintro p out ⟨kwargs, sender, recipients, raw, errand, hm⟩
      exact unrelayed p out ⟨kwargs, sender, recipients, raw, errand, List.mem_cons_of_mem _ hm⟩
    simp only [List.cons_append, looksFrom, looking, if_true]
    rcases List.mem_cons.mp h with rfl | h
    · exact List.mem_cons_self
    · exact List.mem_cons_of_mem _ (ih rest h)

variable (cfg : Settings)

/-- What the router finds when the providers `E` are enabled, their breakers are closed, and
`try_reserve` has no reason to refuse. -/
def FreeAnswer (E : List ProviderConfig) : (Σ o : Op, o.Ans) → Prop
  | ⟨.overrides, rows⟩ => enabledProviders cfg rows = E
  | ⟨.stateNow _, (st, _)⟩ => st.healthy = true
  | ⟨.inflight p, n⟩ => ((cfg.provider p).bind fun c => c.limits.maxConcurrent).all (n < ·.val)
  | ⟨.commit .tryReserve [], _⟩ => False
  | _ => True

instance (E : List ProviderConfig) : DecidablePred (FreeAnswer cfg E)
  | ⟨.overrides, rows⟩ => inferInstanceAs (Decidable (enabledProviders cfg rows = E))
  | ⟨.stateNow _, (st, _)⟩ => inferInstanceAs (Decidable (st.healthy = true))
  | ⟨.inflight p, n⟩ => inferInstanceAs
      (Decidable (((cfg.provider p).bind fun c => c.limits.maxConcurrent).all (n < ·.val) = true))
  | ⟨o, a⟩ => by unfold FreeAnswer; split <;> infer_instance

/-- Whenever the router looks in a cycle, the providers `E` are enabled, up and have capacity. -/
def FreeCycle (E : List ProviderConfig) (evs : Events) : Prop := ∀ e ∈ looks evs, FreeAnswer cfg E e

instance (E : List ProviderConfig) (evs : Events) : Decidable (FreeCycle cfg E evs) := by
  unfold FreeCycle; infer_instance

variable {cfg} {E : List ProviderConfig}

/-! ### What the router chooses then -/

theorem available_of_healthy {st : ProviderState} (h : st.healthy = true) (now : Time) :
    CircuitBreaker.available cfg.circuitBreaker st now = true := by
  unfold CircuitBreaker.available CircuitBreaker.status
  rw [if_pos h]

theorem isAvailable_free {p : String} {evs : Events} {up : Bool}
    (h : (CircuitBreaker.isAvailable cfg.circuitBreaker p).Path evs (.ok up))
    (free : ∀ e ∈ evs, FreeAnswer cfg E e) : up = true := by
  obtain ⟨⟨st, now⟩, rest, rfl, h⟩ := h
  obtain ⟨-, heq⟩ := h
  cases heq
  exact available_of_healthy (free _ List.mem_cons_self) now

theorem beginProbe_free {p : String} {evs : Events} {ok : Bool}
    (h : (CircuitBreaker.beginProbe cfg.circuitBreaker p).Path evs (.ok ok))
    (free : ∀ e ∈ evs, FreeAnswer cfg E e) : ok = true := by
  obtain ⟨_, rest, rfl, h⟩ := h
  obtain ⟨pre, _, rfl, ⟨st, now⟩, rest, rfl, hbody⟩ := path_finally_op.mp h
  have healthy : st.healthy = true := free ⟨.stateNow p, (st, now)⟩ (by simp)
  have closed : CircuitBreaker.status cfg.circuitBreaker st now = .closed := by
    unfold CircuitBreaker.status
    rw [if_pos healthy]
  simp only [ret_bind, closed] at hbody
  obtain ⟨-, heq⟩ := hbody
  cases heq
  rfl

/-- `try_reserve` refuses in its session only by leaving it without a statement. -/
theorem reserveRow_none {p : String} {limits : ProviderLimits} {now : Time} {evs : Events}
    (h : (RateLimiter.reserveRow p limits now).Path evs (.ok none)) :
    ∃ a, (⟨.commit .tryReserve [], a⟩ : Σ o : Op, o.Ans) ∈ evs := by
  have refused : ∀ {α : Type} {evs : Events} {r : Except Exc (Option α)},
      (RateLimiter.refuse : Act (Option α)).Path evs r →
        ∃ a, (⟨.commit .tryReserve [], a⟩ : Σ o : Op, o.Ans) ∈ evs := by
    rintro α evs r ⟨a, rest, rfl, -⟩
    exact ⟨a, List.mem_cons_self⟩
  have later : ∀ {pre post : Events},
      (∃ a, (⟨.commit .tryReserve [], a⟩ : Σ o : Op, o.Ans) ∈ post) →
      ∃ a, (⟨.commit .tryReserve [], a⟩ : Σ o : Op, o.Ans) ∈ pre ++ post := by
    rintro pre post ⟨a, hm⟩
    exact ⟨a, List.mem_append_right _ hm⟩
  obtain ⟨pre₁, counts, post₁, rfl, -, h₁⟩ := path_bind_ok h
  refine later ?_
  split at h₁
  · exact refused h₁
  obtain ⟨pre₂, day, post₂, rfl, -, h₂⟩ := path_bind_ok h₁
  refine later ?_
  split at h₂
  · exact refused h₂
  obtain ⟨pre₃, month, post₃, rfl, -, h₃⟩ := path_bind_ok h₂
  refine later ?_
  split at h₃
  · exact refused h₃
  -- a granted row is not `none`
  obtain ⟨_, _, _, _, _, h₄⟩ := path_bind_ok h₃
  obtain ⟨_, _, _, _, _, h₅⟩ := path_bind_ok h₄
  obtain ⟨_, _, _, _, _, h₆⟩ := path_bind_ok h₅
  obtain ⟨_, _, _, _, _, h₇⟩ := path_bind_ok h₆
  obtain ⟨-, heq⟩ := h₇
  cases heq

theorem tryReserve_free {p : String} {evs : Events} {r : Option Reservation}
    (h : (RateLimiter.tryReserve cfg p).Path evs (.ok r)) (free : ∀ e ∈ evs, FreeAnswer cfg E e) :
    r ≠ none := by
  rintro rfl
  unfold RateLimiter.tryReserve at h
  cases hp : cfg.provider p with
  | none =>
    rw [hp] at h
    obtain ⟨-, heq⟩ := h
    cases heq
  | some c =>
    rw [hp] at h
    obtain ⟨_, rest, rfl, hlocked⟩ := h
    obtain ⟨body, _, rfl, hbody⟩ := path_finally_op.mp hlocked
    obtain ⟨looked, full, post, rfl, hfull, hroom⟩ := path_bind_ok hbody
    have room : full = false := by
      unfold RateLimiter.atCapacity at hfull
      cases hm : c.limits.maxConcurrent with
      | none =>
        rw [hm] at hfull
        obtain ⟨-, heq⟩ := hfull
        cases heq
        rfl
      | some m =>
        rw [hm] at hfull
        obtain ⟨n, _, rfl, -, heq⟩ := hfull
        cases heq
        have below : FreeAnswer cfg E ⟨.inflight p, n⟩ := free _ (by simp)
        simpa [FreeAnswer, hp, hm] using below
    subst room
    obtain ⟨now, later, rfl, hreserve⟩ := hroom
    simp only [ret_bind] at hreserve
    obtain ⟨session, row, rest, rfl, hrow, hend⟩ := path_bind_ok hreserve
    cases row with
    | none =>
      obtain ⟨a, hm⟩ := reserveRow_none hrow
      exact free ⟨.commit .tryReserve [], a⟩ (by simp [hm])
    | some row =>
      obtain ⟨_, _, rfl, _, _, rfl, -, heq⟩ := hend
      cases heq

/-- What the loop of `select` ends in: nobody if everyone is excluded, and otherwise the first who
is not. -/
def FirstOf (exclude : List String) (ps : List ProviderConfig) : Option RouteDecision → Prop
  | none => ∀ p ∈ ps, p.name ∈ exclude
  | some d => ∃ pre p post, ps = pre ++ p :: post ∧ d.provider = p.name ∧ p.name ∉ exclude ∧
    ∀ q ∈ pre, q.name ∈ exclude

theorem FirstOf.cons {exclude : List String} {p : ProviderConfig} {ps : List ProviderConfig}
    {d : Option RouteDecision} (hp : p.name ∈ exclude) (h : FirstOf exclude ps d) :
    FirstOf exclude (p :: ps) d := by
  cases d with
  | none => exact List.forall_mem_cons.mpr ⟨hp, h⟩
  | some d =>
    obtain ⟨pre, q, post, rfl, hq, fresh, hpre⟩ := h
    exact ⟨p :: pre, q, post, rfl, hq, fresh, List.forall_mem_cons.mpr ⟨hp, hpre⟩⟩

theorem selectFrom_free {exclude : List String} {d : Option RouteDecision} :
    ∀ {ps : List ProviderConfig} {evs : Events}, (selectFrom cfg exclude ps).Path evs (.ok d) →
      (∀ e ∈ evs, FreeAnswer cfg E e) → FirstOf exclude ps d
  | [], _, h, _ => by
    obtain ⟨-, heq⟩ := h
    cases heq
    exact fun _ hp => by cases hp
  | p :: rest, _, h, free => by
    unfold selectFrom at h
    split at h
    · rename_i excluded
      exact (selectFrom_free h free).cons excluded
    obtain ⟨looked, up, post, rfl, hup, hreserve⟩ := path_bind_ok h
    have freeLater : ∀ e ∈ post, FreeAnswer cfg E e :=
      fun e he => free e (List.mem_append_right _ he)
    obtain rfl := isAvailable_free hup fun e he => free e (List.mem_append_left _ he)
    obtain ⟨reserved, r, later, rfl, hr, hprobe⟩ := path_bind_ok hreserve
    have granted := tryReserve_free hr fun e he => freeLater e (List.mem_append_left _ he)
    cases r with
    | none => exact absurd rfl granted
    | some r =>
      obtain ⟨probed, ok, chosen, rfl, hok, hchosen⟩ := path_bind_ok hprobe
      obtain rfl := beginProbe_free hok fun e he =>
        freeLater e (List.mem_append_right _ (List.mem_append_left _ he))
      obtain ⟨-, heq⟩ := hchosen
      cases heq
      exact ⟨[], p, rest, rfl, rfl, ‹_›, fun _ hq => by cases hq⟩

/-- **The router chooses the first enabled provider that was not tried.** -/
theorem select_free {exclude : List String} {d : Option RouteDecision} {evs rest : Events}
    (h : (select cfg exclude).Path evs (.ok d)) (free : FreeCycle cfg E (evs ++ rest)) :
    FirstOf exclude E d := by
  have noRelay : ∀ p out, ¬ Relayed p out evs := fun p out =>
    not_relayed_of_aftermath (aftermath_of_router (tame_select cfg exclude) h)
  obtain ⟨rows, tail, rfl, hfrom⟩ := h
  have noRelayLater : ∀ p out, ¬ Relayed p out tail := by
    rintro p out ⟨kwargs, sender, recipients, raw, errand, hm⟩
    exact noRelay p out ⟨kwargs, sender, recipients, raw, errand, List.mem_cons_of_mem _ hm⟩
  have enabled : enabledProviders cfg rows = E := free ⟨.overrides, rows⟩ List.mem_cons_self
  subst enabled
  exact selectFrom_free hfrom fun e he =>
    free e (List.mem_cons_of_mem _ (mem_looksFrom_true noRelayLater he))

/-! ### What a cycle tries -/

/-- Trying the first that was not tried yet gets one further down the list. -/
theorem covers_succ {tried : List String} {d : RouteDecision} {k : ℕ}
    (h : ∀ p ∈ E.take k, p.name ∈ tried) (first : FirstOf tried E (some d)) :
    ∀ p ∈ E.take (k + 1), p.name ∈ tried ++ [d.provider] := by
  obtain ⟨pre, q, post, rfl, hq, fresh, hpre⟩ := first
  have upTo : (pre ++ q :: post).take (pre.length + 1) = pre ++ [q] := by
    rw [List.take_length_add_append]
    rfl
  have later : k ≤ pre.length := by
    by_contra before
    have chosen : q ∈ (pre ++ q :: post).take k :=
      List.take_subset_take_left _ (show pre.length + 1 ≤ k by omega) (by rw [upTo]; simp)
    exact fresh (h q chosen)
  intro p hp
  have hp : p ∈ pre ++ [q] :=
    upTo ▸ List.take_subset_take_left _ (show k + 1 ≤ pre.length + 1 by omega) hp
  rw [hq]
  rcases List.mem_append.mp hp with hp | hp
  · exact List.mem_append_left _ (hpre p hp)
  · rw [List.mem_singleton.mp hp]
    exact List.mem_append_right _ List.mem_cons_self

theorem tried_after (c : Cycle) (d : RouteDecision) (result : RelayResult) :
    (c.after d result).tried = c.tried ++ [d.provider] := by
  unfold Cycle.after Cycle.saw
  split <;> rfl

/-- **With everything free, a loop of `n` turns tries the next `n` enabled providers.** -/
theorem FailoverLoop.covers {id n : ℕ} {snapshot : MsgSnapshot} {raw : Bytes} {c c' : Cycle}
    {evs : Events} (h : FailoverLoop cfg id snapshot raw n c evs c') {rest : Events} {k : ℕ}
    (hk : ∀ p ∈ E.take k, p.name ∈ c.tried) (free : FreeCycle cfg E (evs ++ rest)) :
    ∀ p ∈ E.take (k + n), p.name ∈ c'.tried := by
  induction h generalizing k with
  | usedUp => exact hk
  | nobody hn =>
    intro p hp
    exact select_free hn free p (List.mem_of_mem_take hp)
  | @turn n c c' evs rest' decision out result turn _ ih =>
    obtain ⟨chosen, t, kwargs, tail, hchosen, heq, -⟩ := turn.run
    have first : FirstOf c.tried E (some decision) := by
      have later : FreeCycle cfg E (chosen ++ (⟨.utcnow, t⟩ :: ⟨.send decision.provider kwargs
          snapshot.fromAddr snapshot.rcptTo raw ⟨id, decision.reservation⟩, out⟩ ::
          tail ++ rest' ++ rest)) := by
        rw [heq] at free
        simpa using free
      exact select_free hchosen later
    have next := ih (k := k + 1) (by rw [tried_after]; exact covers_succ hk first) ?_
    · rwa [show k + (n + 1) = k + 1 + n by omega]
    · intro e he
      refine free e ?_
      rw [List.append_assoc]
      exact looksFrom_append he

theorem mem_of_lastOverrides {rows : String → Option Bool} : ∀ {evs : Events},
    lastOverrides evs = some rows → (⟨.overrides, rows⟩ : Σ o : Op, o.Ans) ∈ evs
  | ⟨o, a⟩ :: evs, h => by
    unfold lastOverrides at h
    cases later : lastOverrides evs with
    | some rows' =>
      rw [later] at h
      cases h
      exact List.mem_cons_of_mem _ (mem_of_lastOverrides later)
    | none =>
      rw [later] at h
      cases o <;> first
        | (cases h; exact List.mem_cons_self)
        | cases h

/-- To look at the overrides is to look. -/
theorem mem_looksFrom_overrides {rows : String → Option Bool} {evs : Events} {before : Bool}
    (h : (⟨.overrides, rows⟩ : Σ o : Op, o.Ans) ∈ evs) :
    (⟨.overrides, rows⟩ : Σ o : Op, o.Ans) ∈ looksFrom before evs := by
  induction evs generalizing before with
  | nil => cases h
  | cons x evs ih =>
    rcases List.mem_cons.mp h with rfl | h
    · exact List.mem_cons_self
    · exact List.mem_append_right _ (ih h)

/-- **What has been tried when a message is given up.** In every run of the system, if in the
cycle that gives the message up the providers `E` were enabled and free whenever the router
looked: as rejected, after all of them; after too many attempts, after the first
`failover_per_tick` of them. -/
theorem givenUp_after_trying {jobs : Job → Bool} {C : Moment → Moment → Prop} {w : World}
    {s : Pool Op Op.Ans Exc World Job ℚ} (hs : (system cfg jobs).Reachable C (Machine.boot w) s)
    {i id : ℕ} {row : Message} {evs : Events} (hc : cycleLog s.trace i = some (id, row, evs))
    (free : FreeCycle cfg E evs) :
    (GivenUp id .rejected evs → ∀ p ∈ E, ∃ out, Relayed p.name out evs) ∧
      (GivenUp id .maxAttempts evs →
        ∀ p ∈ E.take cfg.dispatch.failoverPerTick, ∃ out, Relayed p.name out evs) := by
  have relayed : ∀ {reason : DeadletterReason}, GivenUp id reason evs →
      reason = .rejected ∨ reason = .maxAttempts → ∃ cycle : Cycle,
        (∀ p, p ∈ cycle.tried → ∃ out, Relayed p out evs) ∧
        (∀ p ∈ E.take cfg.dispatch.failoverPerTick, p.name ∈ cycle.tried) ∧
        (reason = .rejected → ∀ p ∈ E, p.name ∈ cycle.tried) := by
    intro reason hg hr
    obtain ⟨n, t, raw, loop, last, cycle, rfl, hloop, hlast, hg⟩ :=
      (givingUp_of_cycleLog hs hc hg hr).run
    refine ⟨cycle, fun p hp => ?_, ?_, fun rejected => ?_⟩
    · rcases hloop.tried hp with hp | ⟨out, hr⟩
      · cases hp
      · exact ⟨out, (relayed_giveUp hlast).mpr hr⟩
    · have freeLoop : FreeCycle cfg E (loop ++ last) := by
        intro e he
        refine free e ?_
        change e ∈ looksFrom false ([⟨.commit .process [], .ok n⟩, ⟨.utcnow, t⟩,
          ⟨.spoolRead row.spoolPath, .ok raw⟩] ++ (loop ++ last))
        exact looksFrom_append he
      have start : ∀ p ∈ E.take 0, p.name ∈ ([] : List String) := fun p hp => (by cases hp)
      have covered := hloop.covers start freeLoop
      rwa [Nat.zero_add] at covered
    · obtain ⟨-, -, rows, overrides, all, -⟩ := handleNoSuccess_path hlast hg hr
      have looked := mem_of_lastOverrides overrides
      have enabled : enabledProviders cfg rows = E :=
        free _ (mem_looksFrom_overrides (by simp [looked]))
      rw [← enabled]
      exact (all rejected).2.2.2
  constructor
  · intro hg p hp
    obtain ⟨cycle, out, -, all⟩ := relayed hg (.inl rfl)
    exact out _ (all rfl p hp)
  · intro hg p hp
    obtain ⟨cycle, out, some, -⟩ := relayed hg (.inr rfl)
    exact out _ (some p hp)

namespace Example

/-- One message is due. -/
def oneDue : World := { fourDue with db := { messages := [dueMessage 1] } }

/-- Provider `a` is busy, and busy again an hour later. -/
def busyTwice : List (Move Choice Job ℚ) := List.flatten
  [[.start 0 .producer], oks 0 5, [.start 1 .consumer], oks 1 19, [.run 1 busy], oks 1 15,
    [.run 1 (.draw 0)], oks 1 4, [.env 3600, .start 0 .producer], oks 0 5,
    [.start 2 .consumer], oks 2 19, [.run 2 busy], oks 2 17]

/-- A relay to `p`. -/
def sentTo (p : String) : Entry Op Op.Ans Job ℚ → Bool
  | .did _ (.send q _ _ _ _ _) _ => q = p
  | _ => false

/-- Whether a cycle with message 1 was free, and whether it gave the message up after too many
attempts. -/
def freeAndGivenUp (c : ℕ × Message × Events) : Bool × Bool :=
  (c.1 = 1 && decide (FreeCycle oneATick oneATick.providers c.2.2),
    c.2.2.any (givesUp 1 .maxAttempts (some "busy")))

theorem run_busyTwice : ∃ s row₁ evs₁ row₂ evs₂,
    (system oneATick Job.ofProcess).runFrom (Machine.boot oneDue) busyTwice = some s ∧
      s.trace.any (sentTo "b") = false ∧
      (cycleLog s.trace 1 = some (1, row₁, evs₁) ∧ FreeCycle oneATick oneATick.providers evs₁) ∧
      (cycleLog s.trace 2 = some (1, row₂, evs₂) ∧ FreeCycle oneATick oneATick.providers evs₂) ∧
      GivenUp 1 .maxAttempts evs₂ := by
  obtain ⟨s, hs, ha⟩ : ∃ s, (system oneATick Job.ofProcess).runFrom
      (Machine.boot oneDue) busyTwice =
      some s ∧ (s.trace.any (sentTo "b"), (cycleLog s.trace 1).map freeAndGivenUp,
        (cycleLog s.trace 2).map freeAndGivenUp) = (false, some (true, false), some (true, true)) :=
    Option.map_eq_some_iff.mp (by decide +kernel)
  simp only [Prod.mk.injEq, Option.map_eq_some_iff] at ha
  obtain ⟨unsent, ⟨⟨id₁, row₁, evs₁⟩, h₁, first⟩, ⟨⟨id₂, row₂, evs₂⟩, h₂, second⟩⟩ := ha
  simp only [freeAndGivenUp, Prod.mk.injEq, Bool.and_eq_true, decide_eq_true_eq] at first second
  obtain ⟨⟨rfl, free₁⟩, -⟩ := first
  obtain ⟨⟨rfl, free₂⟩, given⟩ := second
  exact ⟨s, row₁, evs₁, row₂, evs₂, hs, unsent, ⟨h₁, free₁⟩, ⟨h₂, free₂⟩, givenUp_of_any given⟩

/-- With two relays in all and two providers, both free in both cycles, the message is given up and
provider `b` has never been tried. -/
theorem failover_misses_busyTwice : ∃ s row₁ evs₁ row₂ evs₂,
    (system oneATick Job.ofProcess).Reachable Machine.Free (Machine.boot oneDue) s ∧
      oneATick.providers.length ≤
        (oneATick.dispatch.failoverPerTick : ℕ) * oneATick.dispatch.retry.maxAttempts ∧
      (cycleLog s.trace 1 = some (1, row₁, evs₁) ∧ FreeCycle oneATick oneATick.providers evs₁) ∧
      (cycleLog s.trace 2 = some (1, row₂, evs₂) ∧ FreeCycle oneATick oneATick.providers evs₂) ∧
      GivenUp 1 .maxAttempts evs₂ ∧ s.trace.any (sentTo "b") = false := by
  obtain ⟨s, row₁, evs₁, row₂, evs₂, hs, unsent, first, second, given⟩ := run_busyTwice
  exact ⟨s, row₁, evs₁, row₂, evs₂,
    Machine.Reachable.refl.runFrom hs, by decide, first, second, given, unsent⟩

theorem failover_tries_busyTwice : ∃ s row evs,
    (system oneATick Job.ofProcess).runFrom (Machine.boot oneDue) busyTwice = some s ∧
      cycleLog s.trace 2 = some (1, row, evs) ∧
      ∀ p ∈ oneATick.providers.take 1, ∃ out, Relayed p.name out evs := by
  obtain ⟨s, -, -, row, evs, hs, -, -, ⟨hc, free⟩, given⟩ := run_busyTwice
  exact ⟨s, row, evs, hs, hc,
    (givenUp_after_trying (Machine.Reachable.refl.runFrom hs) hc free).2 given⟩

end Example

end SmtpSwitch
