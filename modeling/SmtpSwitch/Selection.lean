import Mathlib.Data.String.Basic
import SmtpSwitch.Limits.Headroom
import SmtpSwitch.Limits.Quota
import SmtpSwitch.Router

/-!
# The choice of a provider

`select` run with nobody else around: the loop stops at the first provider in priority order
that is enabled, not excluded, up and has room (`alone_selectFrom`). What it has looked at
before that is as it was, and the reservation it has taken is never given back, as `begin_probe`
grants what `is_available` has promised. So the choice is the least eligible provider, and it is
the only one touched (`select_best`). -/

namespace SmtpSwitch

open Coop Coop.Prog
open CircuitBreaker (unfailing)

variable (cfg : Settings) (exclude : List String) (w : World)

/-! ### The loop -/

/-- What the loop of `select` asks of a provider: not excluded, up, and with room. -/
def suits (p : ProviderConfig) : Bool :=
  decide (p.name ∉ exclude) && CircuitBreaker.available cfg.circuitBreaker
    (w.state p.name) w.clock &&
    !RateLimiter.full (RateLimiter.rooms p.limits p.name w)

/-- The world after the choice of a provider. -/
def World.chosen (p : ProviderConfig) : World :=
  match CircuitBreaker.probed cfg (w.state p.name) w.clock with
  | some st => CircuitBreaker.stored (RateLimiter.granted p.limits p.name w) p.name st
  | none => RateLimiter.granted p.limits p.name w

variable {cfg exclude w}

theorem alone_isAvailable (p : String) : (CircuitBreaker.isAvailable cfg.circuitBreaker p).alone
    (unfailing cfg) w =
    some (.ok (CircuitBreaker.available cfg.circuitBreaker (w.state p) w.clock), w) := rfl

variable (free : ∀ l, w.locks l = none)
include free

/-- A provider that suits is chosen. -/
theorem alone_selectFrom_suits {p : ProviderConfig} (hp : p ∈ cfg.providers)
    (h : suits cfg exclude w p = true) (rest : List ProviderConfig) :
    (selectFrom cfg exclude (p :: rest)).alone (unfailing cfg) w =
      some (.ok (some ⟨p.name, RateLimiter.grant p.limits p.name w⟩), w.chosen cfg p) := by
  simp only [suits, Bool.and_eq_true, decide_eq_true_eq, Bool.not_eq_true'] at h
  obtain ⟨⟨fresh, up⟩, room⟩ := h
  have reserved := RateLimiter.alone_tryReserve_room cfg (Settings.provider_of_mem hp) (free _) room
  have probe := CircuitBreaker.alone_beginProbe cfg (w := RateLimiter.granted p.limits p.name w)
      p.name (free _)
  have still : CircuitBreaker.available cfg.circuitBreaker
      ((RateLimiter.granted p.limits p.name w).state p.name)
      (RateLimiter.granted p.limits p.name w).clock = true := up
  simp only [selectFrom, if_neg fresh, bind_eq]
  rw [alone_bind, alone_isAvailable, up]
  simp only [Option.bind_some, if_true]
  rw [alone_bind, reserved]
  simp only [Option.bind_some]
  rw [alone_bind, probe, still]
  rfl

/-- A provider that does not is passed by, and left as it is. -/
theorem alone_selectFrom_skips {p : ProviderConfig} (hp : p ∈ cfg.providers)
    (h : suits cfg exclude w p = false) (rest : List ProviderConfig) :
    (selectFrom cfg exclude (p :: rest)).alone (unfailing cfg) w =
      (selectFrom cfg exclude rest).alone (unfailing cfg) w := by
  conv_lhs => unfold selectFrom
  split
  · rfl
  rename_i fresh
  simp only [suits, fresh, not_false_iff, decide_true, Bool.true_and] at h
  simp only [bind_eq]
  rw [alone_bind, alone_isAvailable]
  simp only [Option.bind_some]
  split
  · rename_i up
    rw [up, Bool.true_and, Bool.not_eq_false'] at h
    rw [alone_bind, RateLimiter.alone_tryReserve_full cfg (Settings.provider_of_mem hp) (free _) h]
    rfl
  · rfl

/-- **The loop stops at the first provider that suits.** -/
theorem alone_selectFrom : ∀ {ps : List ProviderConfig}, (∀ p ∈ ps, p ∈ cfg.providers) →
    (selectFrom cfg exclude ps).alone (unfailing cfg) w =
      match ps.find? (suits cfg exclude w) with
      | some p => some (.ok (some ⟨p.name, RateLimiter.grant p.limits p.name w⟩), w.chosen cfg p)
      | none => some (.ok none, w)
  | [], _ => rfl
  | p :: rest, h => by
    have hp := h p List.mem_cons_self
    cases hs : suits cfg exclude w p with
    | true =>
      rw [alone_selectFrom_suits free hp hs, List.find?_cons_of_pos hs]
    | false =>
      rw [alone_selectFrom_skips free hp hs, List.find?_cons_of_neg (by simp [hs])]
      exact alone_selectFrom fun q hq => h q (List.mem_cons_of_mem _ hq)

omit free

/-! ### The eligible providers -/

variable (cfg exclude w) in
/-- `select` may choose the provider: it is enabled, not excluded, up, and allowed by the limiter.
-/
structure Eligible (p : ProviderConfig) : Prop where
  configured : p ∈ cfg.providers
  enabled : isEnabled w.overrides p = true
  fresh : p.name ∉ exclude
  up : (CircuitBreaker.isAvailable cfg.circuitBreaker p.name).alone (unfailing cfg) w =
    some (.ok true, w)
  allowed : ∃ found, (RateLimiter.check cfg p.name).alone (unfailing cfg) w = some (.ok found, w) ∧
    found.allowed = true

/-- The eligible providers are the enabled ones that suit the loop. -/
theorem eligible_iff {p : ProviderConfig} :
    Eligible cfg exclude w p ↔ p ∈ enabledProviders cfg w.overrides ∧
      suits cfg exclude w p = true := by
  have allowed_iff : p ∈ cfg.providers →
      ((∃ found, (RateLimiter.check cfg p.name).alone (unfailing cfg) w = some (.ok found, w) ∧
        found.allowed = true) ↔
        RateLimiter.full (RateLimiter.rooms p.limits p.name w) = false) := by
    intro hp
    rw [RateLimiter.alone_check cfg (Settings.provider_of_mem hp), ← Bool.not_eq_true',
      ← RateLimiter.isNone_blocking]
    constructor
    · rintro ⟨found, hfound, allowed⟩
      cases hfound
      exact allowed
    · intro room
      exact ⟨_, rfl, room⟩
  rw [mem_enabledProviders, suits, Bool.and_eq_true, Bool.and_eq_true, decide_eq_true_eq,
    Bool.not_eq_true']
  constructor
  · intro h
    have up := h.up
    rw [alone_isAvailable] at up
    simp only [Option.some.injEq, Prod.mk.injEq, Except.ok.injEq, and_true] at up
    exact ⟨⟨h.configured, h.enabled⟩, ⟨h.fresh, up⟩, (allowed_iff h.configured).mp h.allowed⟩
  · rintro ⟨⟨configured, enabled⟩, ⟨fresh, up⟩, room⟩
    refine ⟨configured, enabled, fresh, ?_, (allowed_iff configured).mpr room⟩
    rw [alone_isAvailable, up]

/-- Priority order is an order. -/
theorem ProviderConfig.before_refl (p : ProviderConfig) : p.before p := .inr ⟨rfl, le_rfl⟩

theorem ProviderConfig.before.name {p q : ProviderConfig} (h : p.before q) (h' : q.before p) :
    p.name = q.name := by
  rcases h with h | ⟨h, name⟩
  · rcases h' with h' | ⟨h', -⟩ <;> omega
  · rcases h' with h' | ⟨-, name'⟩
    · omega
    · exact le_antisymm name name'

instance : Std.Total ProviderConfig.before where
  total p q := by
    unfold ProviderConfig.before
    rcases lt_trichotomy p.priority q.priority with h | h | h
    · exact .inl (.inl h)
    · rcases le_total p.name q.name with hn | hn
      · exact .inl (.inr ⟨h, hn⟩)
      · exact .inr (.inr ⟨h.symm, hn⟩)
    · exact .inr (.inl h)

instance : IsTrans ProviderConfig ProviderConfig.before where
  trans p q r h h' := by
    unfold ProviderConfig.before at *
    rcases h with h | ⟨h, name⟩ <;> rcases h' with h' | ⟨h', name'⟩
    · exact .inl (h.trans h')
    · exact .inl (h' ▸ h)
    · exact .inl (h ▸ h')
    · exact .inr ⟨h.trans h', name.trans name'⟩

/-- The first that suits comes before every other. -/
theorem first_least {overrides : String → Option Bool} {f : ProviderConfig → Bool}
    {p : ProviderConfig}
    (h : (enabledProviders cfg overrides).find? f = some p) {q : ProviderConfig}
    (hq : q ∈ enabledProviders cfg overrides) (hf : f q = true) : p.before q := by
  have sorted : (enabledProviders cfg overrides).Pairwise ProviderConfig.before :=
    List.pairwise_insertionSort _ _
  obtain ⟨hp, pre, post, split, skipped⟩ := List.find?_eq_some_iff_append.mp h
  rw [split] at sorted hq
  rcases List.mem_append.mp hq with hq | hq
  · have := skipped q hq
    simp [hf] at this
  · rcases List.mem_cons.mp hq with rfl | hq
    · exact q.before_refl
    · exact (List.pairwise_cons.mp (List.pairwise_append.mp sorted).2.1).1 q hq

/-! ### What the choice changes -/

/-- Nothing of this provider has changed: its ledger, its counters, its slots in use and its
breaker. -/
structure Untouched (w w' : World) (q : String) : Prop where
  ledger : w'.db.sendLog.filter (fun e => e.provider = q) = w.db.sendLog.filter fun e =>
    e.provider = q
  quota : ∀ key : QuotaKey, key.provider = q → w'.db.quota key = w.db.quota key
  inflight : w'.inflight q = w.inflight q
  state : w'.states q = w.states q
  row : w'.db.providerState q = w.db.providerState q

variable (cfg) in
/-- The provider has given this reservation: a new row of the ledger, one more on each counter
that it is charged to, a slot in use, and a probe if the breaker is half-open. -/
structure Takes (w w' : World) (p : ProviderConfig) (r : Reservation) : Prop where
  provider : r.provider = p.name
  ledger : w'.db.sendLog = w.db.sendLog ++ [⟨r.sendLogId, p.name, w.clock⟩]
  fresh : ∀ e ∈ w.db.sendLog, e.id ≠ r.sendLogId
  quota : ∀ key, w'.db.quota key = if key ∈ r.keys then some ((w.db.quota key).getD 0 + 1)
    else w.db.quota key
  inflight : w'.inflight p.name = w.inflight p.name + 1
  probes : w'.state p.name = if CircuitBreaker.status cfg.circuitBreaker (w.state p.name) w.clock =
    .halfOpen then
    claimed (w.state p.name) else w.state p.name

theorem granted_quota (limits : ProviderLimits) (p : String) (key : QuotaKey) :
    (RateLimiter.granted limits p w).db.quota key =
      if key ∈ (RateLimiter.grant limits p w).keys then some ((w.db.quota key).getD 0 + 1)
        else w.db.quota key := by
  obtain ⟨q, k, scope⟩ := key
  cases scope <;> cases hd : limits.perDay <;> cases hm : limits.perMonth <;>
    simp [RateLimiter.granted, RateLimiter.grant, Reservation.keys, RateLimiter.bump,
      RateLimiter.dayKey, RateLimiter.monthKey, hd, hm, Function.update_apply]
  all_goals
    split
    · rename_i same
      rw [same.1, same.2]
    · rfl

variable (cfg w) in
theorem chosen_limits (p : ProviderConfig) :
    (w.chosen cfg p).db.sendLog = (RateLimiter.granted p.limits p.name w).db.sendLog ∧
      (w.chosen cfg p).db.quota = (RateLimiter.granted p.limits p.name w).db.quota ∧
      (w.chosen cfg p).inflight = (RateLimiter.granted p.limits p.name w).inflight := by
  unfold World.chosen
  split <;> exact ⟨rfl, rfl, rfl⟩

variable (cfg w) in
theorem chosen_breaker (p : ProviderConfig) {q : String} (h : q ≠ p.name) :
    (w.chosen cfg p).states q = w.states q ∧ (w.chosen cfg p).db.providerState q =
      w.db.providerState q := by
  unfold World.chosen
  split
  · exact ⟨Function.update_of_ne h _ _, Function.update_of_ne h _ _⟩
  · exact ⟨rfl, rfl⟩

theorem untouched_chosen (p : ProviderConfig) {q : String} (h : q ≠ p.name) :
    Untouched w (w.chosen cfg p) q := by
  obtain ⟨ledger, quota, inflight⟩ := chosen_limits cfg w p
  obtain ⟨state, row⟩ := chosen_breaker cfg w p h
  refine ⟨?_, fun key hkey => ?_, ?_, state, row⟩
  · rw [ledger]
    simp [RateLimiter.granted, Ne.symm h]
  · rw [quota, granted_quota, if_neg]
    rw [Reservation.mem_keys]
    exact fun hmem => h (hkey ▸ hmem.1)
  · rw [inflight]
    exact Function.update_of_ne h _ _

theorem takes_chosen {p : ProviderConfig} (h : suits cfg exclude w p = true) :
    Takes cfg w (w.chosen cfg p) p (RateLimiter.grant p.limits p.name w) := by
  obtain ⟨ledger, quota, inflight⟩ := chosen_limits cfg w p
  refine ⟨rfl, ledger, fun e he => ?_, fun key => ?_, ?_, ?_⟩
  · exact (lt_nextId (List.mem_map_of_mem he)).ne
  · rw [quota, granted_quota]
  · rw [inflight]
    exact Function.update_self ..
  · simp only [suits, Bool.and_eq_true] at h
    have up := h.1.2
    unfold CircuitBreaker.available at up
    unfold World.chosen CircuitBreaker.probed
    split
    · rename_i st hst
      split at hst
      · rename_i probe
        cases hst
        rw [if_pos probe.1]
        simp [World.state, CircuitBreaker.stored, claimed]
      · cases hst
    · rename_i hst
      split at hst
      · cases hst
      · rename_i noProbe
        rw [if_neg]
        · rfl
        · intro half
          rw [half] at up
          exact noProbe ⟨half, of_decide_eq_true up⟩

variable (cfg exclude) in
/-- **`select` chooses the best eligible provider, and touches only it.** With no other task
running, and the clock standing still: the choice is the eligible provider that comes before every
other by priority and name; it is nobody exactly when none is eligible, and then nothing has
changed. The chosen provider has given one reservation, and a probe if its breaker is half-open;
every other provider is as it was. -/
theorem select_best (free : ∀ l, w.locks l = none) :
    ∃ d w', (select cfg exclude).alone (unfailing cfg) w = some (.ok d, w') ∧
      (∀ p ∈ cfg.providers, d.map RouteDecision.provider = some p.name ↔
        Eligible cfg exclude w p ∧ ∀ q, Eligible cfg exclude w q → p.before q) ∧
      (d = none ↔ ∀ p, ¬ Eligible cfg exclude w p) ∧
      (d = none → w' = w) ∧
      ∀ chosen, d = some chosen →
        (∃ p, cfg.provider chosen.provider = some p ∧ Takes cfg w w' p chosen.reservation) ∧
        ∀ q, q ≠ chosen.provider → Untouched w w' q := by
  have enabled : ∀ p ∈ enabledProviders cfg w.overrides, p ∈ cfg.providers := fun p hp =>
    ((mem_enabledProviders cfg).mp hp).1
  have run : (select cfg exclude).alone (unfailing cfg) w = _ := alone_selectFrom free enabled
  cases hf : (enabledProviders cfg w.overrides).find? (suits cfg exclude w) with
  | none =>
    rw [hf] at run
    have nobody : ∀ p, ¬ Eligible cfg exclude w p := fun p hp => by
      obtain ⟨hmem, hs⟩ := eligible_iff.mp hp
      exact List.find?_eq_none.mp hf p hmem hs
    refine ⟨none, w, run, fun p _ => ?_, iff_of_true rfl nobody, fun _ => rfl,
      fun _ h => (by cases h)⟩
    exact iff_of_false (by simp) fun h => nobody p h.1
  | some p =>
    rw [hf] at run
    have hmem := List.mem_of_find?_eq_some hf
    have hs : suits cfg exclude w p = true := List.find?_some hf
    have eligible : Eligible cfg exclude w p := eligible_iff.mpr ⟨hmem, hs⟩
    have least : ∀ q, Eligible cfg exclude w q → p.before q := fun q hq =>
      first_least hf (eligible_iff.mp hq).1 (eligible_iff.mp hq).2
    refine ⟨_, _, run, fun q hq => ?_, iff_of_false (by simp) fun h => h p eligible,
      fun h => (by cases h),
      fun chosen h => ?_⟩
    · have named : p.name = q.name ↔ p = q := by
        refine ⟨fun h => ?_, fun h => h ▸ rfl⟩
        exact List.inj_on_of_nodup_map cfg.names_nodup (enabled p hmem) hq h
      rw [Option.map_some, Option.some.injEq, named]
      constructor
      · rintro rfl
        exact ⟨eligible, least⟩
      · rintro ⟨hq', least'⟩
        exact named.mp ((least q hq').name (least' p eligible))
    · cases h
      exact ⟨⟨p, Settings.provider_of_mem (enabled p hmem), takes_chosen hs⟩, fun q hq =>
        untouched_chosen p hq⟩

namespace Example

/-- `a` was given two reservations in the last minute. -/
def twoSent : World where
  clock := 63923749200
  db :=
    { sendLog := [⟨1, "a", 63923749170⟩, ⟨2, "a", 63923749180⟩]
      quota := fun key => if key = RateLimiter.dayKey "a" 63923749200 then some 2 else none }

/-- The first provider is full, so the second is chosen: a slot of it is in use then, and the
first is as it was. -/
theorem select_best_secondBest : ∃ d w',
    (select meteredFirst []).alone (unfailing meteredFirst) twoSent = some (.ok d, w') ∧
      d.map RouteDecision.provider = some "b" ∧ w'.inflight "b" = 1 ∧ Untouched twoSent w' "a" := by
  obtain ⟨d, w', run, best, -, -, touched⟩ :=
    select_best meteredFirst [] (w := twoSent) fun _ => rfl
  have full : ¬ Eligible meteredFirst [] twoSent meteredFirst.providers[0] := fun h =>
    absurd (eligible_iff.mp h).2 (by decide +kernel)
  have eligible : Eligible meteredFirst [] twoSent meteredFirst.providers[1] :=
    eligible_iff.mpr (by decide +kernel)
  have chosen : d.map RouteDecision.provider = some "b" := by
    refine (best meteredFirst.providers[1] (List.getElem_mem _)).mpr ⟨eligible, fun q hq => ?_⟩
    rcases List.mem_pair.mp (show q ∈ [meteredFirst.providers[0], meteredFirst.providers[1]] from
      hq.configured) with rfl | rfl
    · exact absurd hq full
    · exact ProviderConfig.before_refl _
  obtain ⟨c, rfl, hc⟩ := Option.map_eq_some_iff.mp chosen
  obtain ⟨⟨p, hp, takes⟩, others⟩ := touched c rfl
  have named : p.name = "b" := (Settings.provider_name hp).trans hc
  have slot := takes.inflight
  rw [named] at slot
  exact ⟨some c, w', run, chosen, slot, others "a" (by rw [hc]; decide)⟩

end Example

end SmtpSwitch
