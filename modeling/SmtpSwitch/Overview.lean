import SmtpSwitch.Selection

/-!
# The overview of the providers

`provider_overview` of `web/queries.py`: what the dashboard tells of each provider is
put together from the registry, the breaker and `check`, none of which the router asks in
the same way. Still, where nothing happens in between the two agree: the router
chooses a provider exactly if it is the first, by priority and name, of those shown as
enabled and accepting, and what is shown of a limit is what is used of it and what is
left (`overview_agrees`).
-/

namespace SmtpSwitch

open Coop Coop.Prog
open RateLimiter (LimitName LimitCheck rooms full)
open CircuitBreaker (Status unfailing)

/-! ### The code -/

/-- An entry of `CircuitBreaker.snapshot`, as far as it is shown; the default is what is shown of
a provider that has none. -/
structure BreakerView where
  status : Status := .closed
  consecutiveFailures : ℕ := 0
  lastFailureAt : Option Time := none
  lastSuccessAt : Option Time := none

/-- An entry of `windows`. -/
structure WindowView where
  window : LimitName
  limit : ℕ
  used : ℕ
  headroom : ℕ

/-- What is shown of a provider. -/
structure ProviderView where
  name : String
  priority : ℤ
  enabled : Bool
  configEnabled : Bool
  breaker : BreakerView
  inflight : ℕ
  accepting : Bool
  blockingWindow : Option LimitName
  windows : List WindowView
  smtpHost : String

/-- `limit_map`. -/
def limitMap (limits : ProviderLimits) : List (LimitName × Option PositiveInt) :=
  [(.window .perSecond, limits.perSecond), (.window .perMinute, limits.perMinute),
    (.window .perHour, limits.perHour),
    (.perDay, limits.perDay), (.perMonth, limits.perMonth), (.concurrent, limits.maxConcurrent)]

/-- The loop over `limit_map`. -/
def windowViews (limits : ProviderLimits) (check : LimitCheck) : List WindowView :=
  (limitMap limits).filterMap fun x => x.2.map fun limit : PositiveInt =>
    let room := ((check.headroom.getD []).lookup x.1).getD limit
    ⟨x.1, limit, limit - room, room⟩

variable (cfg : Settings)

/-- `CircuitBreaker.snapshot`; what it has of providers that are not configured nobody looks at. -/
def breakerSnapshot : List ProviderConfig → Act (List (String × BreakerView))
  | [] => .ret []
  | p :: ps => do
    let (st, now) ← perform (.stateNow p.name)
    let rest ← breakerSnapshot ps
    return (p.name, ⟨CircuitBreaker.status cfg.circuitBreaker st now, st.consecutiveFailures,
      st.lastFailureAt, st.lastSuccessAt⟩) :: rest

/-- The body of the loop of `provider_overview`. -/
def providerView (snap : List (String × BreakerView)) (p : ProviderConfig) : Act ProviderView := do
  let check ← RateLimiter.check cfg p.name
  let overrides ← perform .overrides
  let inflight ← perform (.inflight p.name)
  let up ← (if check.allowed then CircuitBreaker.isAvailable cfg.circuitBreaker p.name
      else .ret false : Act Bool)
  return {
    name := p.name
    priority := p.priority
    enabled := isEnabled overrides p
    configEnabled := p.enabled
    breaker := (snap.lookup p.name).getD {}
    inflight := inflight
    accepting := check.allowed && up
    blockingWindow := check.blockingWindow
    windows := windowViews p.limits check
    smtpHost := p.smtp.host ++ ":" ++ toString (p.smtp.port : ℕ) }

/-- The loop of `provider_overview`. -/
def providerViews (snap : List (String × BreakerView)) : List ProviderConfig →
    Act (List ProviderView)
  | [] => .ret []
  | p :: ps => do
    let view ← providerView cfg snap p
    let rest ← providerViews snap ps
    return view :: rest

/-- `provider_overview`. -/
def providerOverview : Act (List ProviderView) := do
  let snap ← breakerSnapshot cfg cfg.providers
  providerViews cfg snap cfg.providers

/-! ### What is shown -/

section Shown

variable (w : World) (p : ProviderConfig)

/-- What is used of a limit. -/
def usedOf : LimitName → ℕ
  | .concurrent => w.inflight p.name
  | .window .perSecond => countSince w.db.sendLog p.name (w.clock - 1)
  | .window .perMinute => countSince w.db.sendLog p.name (w.clock - 60)
  | .window .perHour => countSince w.db.sendLog p.name (w.clock - 3600)
  | .perDay => (w.db.quota (RateLimiter.dayKey p.name w.clock)).getD 0
  | .perMonth => (w.db.quota (RateLimiter.monthKey p.name p.limits w.clock)).getD 0

/-- What `check` finds. -/
def checked : LimitCheck :=
  let found := RateLimiter.Findings.ofRooms (rooms p.limits p.name w)
  ⟨found.blocking.isNone, found.blocking, some found.headroom⟩

/-- What is shown of the breaker. -/
def breakerShown : BreakerView :=
  ⟨CircuitBreaker.status cfg.circuitBreaker (w.state p.name) w.clock,
    (w.state p.name).consecutiveFailures,
    (w.state p.name).lastFailureAt, (w.state p.name).lastSuccessAt⟩

/-- What is shown of a provider. -/
def shown : ProviderView where
  name := p.name
  priority := p.priority
  enabled := isEnabled w.overrides p
  configEnabled := p.enabled
  breaker := breakerShown cfg w p
  inflight := w.inflight p.name
  accepting := !full (rooms p.limits p.name w) &&
    CircuitBreaker.available cfg.circuitBreaker (w.state p.name) w.clock
  blockingWindow := (checked w p).blockingWindow
  windows := windowViews p.limits (checked w p)
  smtpHost := p.smtp.host ++ ":" ++ toString (p.smtp.port : ℕ)

end Shown

variable {cfg} {w : World}

theorem alone_breakerSnapshot : ∀ ps : List ProviderConfig, (breakerSnapshot cfg ps).alone
    (unfailing cfg) w =
    some (.ok (ps.map fun p => (p.name, breakerShown cfg w p)), w)
  | [] => rfl
  | p :: ps => by
    simp only [breakerSnapshot, bind_eq]
    rw [alone_bind]
    change ((breakerSnapshot cfg ps).bind _).alone (unfailing cfg) w = _
    rw [alone_bind, alone_breakerSnapshot ps]
    rfl

theorem lookup_of_mem (f : ProviderConfig → BreakerView) {ps : List ProviderConfig}
    (nodup : (ps.map ProviderConfig.name).Nodup) {p : ProviderConfig} (hp : p ∈ ps) :
    (ps.map fun p => (p.name, f p)).lookup p.name = some (f p) := by
  induction ps with
  | nil => cases hp
  | cons q ps ih =>
    obtain ⟨out, nodup⟩ := List.nodup_cons.mp nodup
    simp only [List.map_cons, List.lookup_cons]
    rcases List.mem_cons.mp hp with rfl | hp
    · rw [beq_self_eq_true]
    · have other : (p.name == q.name) = false :=
        beq_false_of_ne fun same => out (same ▸ List.mem_map_of_mem hp)
      rw [other]
      exact ih nodup hp

theorem alone_providerView {p : ProviderConfig} (hp : p ∈ cfg.providers)
    {snap : List (String × BreakerView)} (hs : snap.lookup p.name = some (breakerShown cfg w p)) :
    (providerView cfg snap p).alone (unfailing cfg) w = some (.ok (shown cfg w p), w) := by
  simp only [providerView, bind_eq]
  rw [alone_bind, RateLimiter.alone_check cfg (Settings.provider_of_mem hp)]
  simp only [Option.bind_some]
  change ((if (checked w p).allowed then CircuitBreaker.isAvailable cfg.circuitBreaker p.name else
    .ret false : Act Bool).bind _).alone (unfailing cfg) w = _
  rw [alone_bind]
  have room : (checked w p).allowed = !full (rooms p.limits p.name w) :=
    RateLimiter.isNone_blocking _
  cases hf : full (rooms p.limits p.name w) with
  | true =>
    rw [hf] at room
    rw [room]
    simp [shown, hf, hs, checked]
  | false =>
    rw [hf] at room
    have unblocked : (RateLimiter.Findings.ofRooms (rooms p.limits p.name w)).blocking = none :=
      Option.isNone_iff_eq_none.mp room
    rw [room]
    change ((CircuitBreaker.isAvailable cfg.circuitBreaker p.name).alone (unfailing cfg)
      w).bind _ = _
    rw [alone_isAvailable]
    simp [shown, hf, hs, checked, unblocked]

theorem alone_providerViews {snap : List (String × BreakerView)} : ∀ {ps : List ProviderConfig},
    (∀ p ∈ ps, p ∈ cfg.providers ∧ snap.lookup p.name = some (breakerShown cfg w p)) →
      (providerViews cfg snap ps).alone (unfailing cfg) w = some (.ok (ps.map (shown cfg w)), w)
  | [], _ => rfl
  | p :: ps, h => by
    obtain ⟨hp, hs⟩ := h p List.mem_cons_self
    simp only [providerViews, bind_eq]
    rw [alone_bind, alone_providerView hp hs]
    simp only [Option.bind_some]
    rw [alone_bind, alone_providerViews fun q hq => h q (List.mem_cons_of_mem _ hq)]
    rfl

/-- The overview is what is shown of each provider, and nothing is changed. -/
theorem alone_providerOverview :
    (providerOverview cfg).alone (unfailing cfg) w =
      some (.ok (cfg.providers.map (shown cfg w)), w) := by
  simp only [providerOverview, bind_eq]
  rw [alone_bind, alone_breakerSnapshot]
  simp only [Option.bind_some]
  exact alone_providerViews fun p hp => ⟨hp, lookup_of_mem _ cfg.names_nodup hp⟩

/-! ### The limits shown -/

theorem lookup_roomOf (name name' : LimitName) (used : ℕ) (limit : Option PositiveInt) :
    ((RateLimiter.roomOf name used limit).map fun r => (r.1, (max 0 r.2).toNat)).lookup name' =
      if name' = name then limit.map (fun l : PositiveInt => (l : ℕ) - used) else none := by
  cases limit with
  | none => simp [RateLimiter.roomOf]
  | some l =>
    have left : (max 0 ((l : ℕ) - used : ℤ)).toNat = (l : ℕ) - used := by omega
    by_cases h : name' = name
    · subst h
      simp [RateLimiter.roomOf, left]
    · simp [RateLimiter.roomOf, h]

theorem rooms_eq_roomOf (p : ProviderConfig) : rooms p.limits p.name w =
    RateLimiter.roomOf .concurrent (usedOf w p .concurrent) p.limits.maxConcurrent ++
      (RateLimiter.roomOf (.window .perSecond) (usedOf w p (.window .perSecond))
        p.limits.perSecond ++
        RateLimiter.roomOf (.window .perMinute) (usedOf w p (.window .perMinute))
          p.limits.perMinute ++
        RateLimiter.roomOf (.window .perHour) (usedOf w p (.window .perHour)) p.limits.perHour) ++
      RateLimiter.roomOf .perDay (usedOf w p .perDay) p.limits.perDay ++
      RateLimiter.roomOf .perMonth (usedOf w p .perMonth) p.limits.perMonth := by
  have window : ∀ (x : Window) (span : ℕ) (limit : Option PositiveInt), (windowOf x span limit).map
      (fun x => (LimitName.window x.1, (x.2.2 - RateLimiter.windowUse p.name w x : ℤ))) =
        RateLimiter.roomOf (.window x) (countSince w.db.sendLog p.name (w.clock - span)) limit := by
    intro x span limit
    cases limit <;> rfl
  have spans : ((1 : ℕ) : ℚ) = 1 ∧ ((60 : ℕ) : ℚ) = 60 ∧ ((3600 : ℕ) : ℚ) = 3600 := by norm_num
  simp only [rooms, ProviderLimits.slidingWindows, List.map_append, window, usedOf, spans.1,
    spans.2.1, spans.2.2]

/-- What `check` has told of a limit that is configured. -/
theorem lookup_headroom {p : ProviderConfig} {name : LimitName} {limit : Option PositiveInt}
    (h : (name, limit) ∈ limitMap p.limits) : ((checked w p).headroom.getD []).lookup name =
      limit.map fun l : PositiveInt => (l : ℕ) - usedOf w p name := by
  have told : (checked w p).headroom.getD [] = (rooms p.limits p.name w).map fun r =>
      (r.1, (max 0 r.2).toNat) := rfl
  rw [told, rooms_eq_roomOf]
  simp only [List.map_append, List.lookup_append, lookup_roomOf]
  simp only [limitMap, List.mem_cons, Prod.mk.injEq, List.not_mem_nil, or_false] at h
  rcases h with ⟨rfl, rfl⟩ | ⟨rfl, rfl⟩ | ⟨rfl, rfl⟩ | ⟨rfl, rfl⟩ | ⟨rfl, rfl⟩ | ⟨rfl, rfl⟩ <;> simp

/-- The order in which `check` looks at the limits. -/
def checkOrder : List LimitName :=
  [.concurrent, .window .perSecond, .window .perMinute, .window .perHour, .perDay, .perMonth]

/-- What is shown of a provider tells what is used of its limits, which of them stops it, and what
its breaker says. -/
structure Describes (cfg : Settings) (w : World) (p : ProviderConfig) (v : ProviderView) :
    Prop where
  named : v.name = p.name ∧ v.priority = p.priority
  /-- Every limit that is configured is shown. -/
  configured : v.windows.map (fun x => (x.window, x.limit)) =
    (limitMap p.limits).filterMap fun x => x.2.map fun l : PositiveInt => (x.1, (l : ℕ))
  windows : ∀ x ∈ v.windows, x.used = min x.limit (usedOf w p x.window) ∧
    x.headroom = x.limit - usedOf w p x.window
  /-- It is the first limit of which nothing is left that blocks, if there is one. -/
  blocking : v.blockingWindow =
    checkOrder.find? fun name => v.windows.any fun x => x.window = name && x.headroom = 0
  breaker : v.breaker.status = CircuitBreaker.status cfg.circuitBreaker (w.state p.name) w.clock
  accepting : v.accepting = true ↔ v.blockingWindow = none ∧
    CircuitBreaker.available cfg.circuitBreaker (w.state p.name) w.clock = true

theorem windowViews_checked (p : ProviderConfig) : windowViews p.limits (checked w p) =
    (limitMap p.limits).filterMap fun x => x.2.map fun l : PositiveInt =>
      ⟨x.1, l, (l : ℕ) - ((l : ℕ) - usedOf w p x.1), (l : ℕ) - usedOf w p x.1⟩ := by
  refine List.filterMap_congr fun x hx => ?_
  cases hl : x.2 with
  | none => rfl
  | some l =>
    have told := lookup_headroom (w := w) (show (x.1, some l) ∈ limitMap p.limits from hl ▸ hx)
    simp only [Option.map_some, told, Option.getD_some]

/-- Nothing is left of a limit that is shown. -/
def exhausted (w : World) (p : ProviderConfig) (name : LimitName) : Bool :=
  (windowViews p.limits (checked w p)).any fun x => x.window = name && x.headroom = 0

/-- Nothing is left of a limit when it is configured and has been used up. -/
theorem exhausted_eq (p : ProviderConfig) (name : LimitName) : exhausted w p name =
    (limitMap p.limits).any fun x =>
      x.1 = name && x.2.any fun l : PositiveInt => (l : ℕ) ≤ usedOf w p x.1 := by
  rw [exhausted, windowViews_checked, List.any_filterMap]
  refine congrArg (List.any _) (funext fun x => ?_)
  cases x.2 with
  | none => simp
  | some l => simp [Nat.sub_eq_zero_iff_le]

theorem blocking_roomOf (name : LimitName) (used : ℕ) (limit : Option PositiveInt) :
    ((RateLimiter.roomOf name used limit).find? fun r => r.2 ≤ 0).map Prod.fst =
      if (limit.any fun l : PositiveInt => (l : ℕ) ≤ used) then some name else none := by
  cases limit with
  | none => rfl
  | some l =>
    by_cases reached : (l : ℕ) ≤ used
    · simp [RateLimiter.roomOf, reached]
    · simp [RateLimiter.roomOf, reached]

theorem find?_cons_or (f : LimitName → Bool) (name : LimitName) (names : List LimitName) :
    (name :: names).find? f = (if f name then some name else none).or (names.find? f) := by
  rw [List.find?_cons]
  cases f name <;> rfl

/-- The window shown as blocking is the first of which nothing is left. -/
theorem blocking_eq (p : ProviderConfig) :
    (checked w p).blockingWindow = checkOrder.find? (exhausted w p) := by
  change ((rooms p.limits p.name w).find? fun r => r.2 ≤ 0).map Prod.fst = _
  rw [rooms_eq_roomOf]
  simp only [List.find?_append, Option.map_or, blocking_roomOf, checkOrder, find?_cons_or,
    List.find?_nil, exhausted_eq, limitMap, List.any_cons, List.any_nil]
  simp [Option.or_assoc]

theorem describes_shown (p : ProviderConfig) : Describes cfg w p (shown cfg w p) where
  named := ⟨rfl, rfl⟩
  configured := by
    change (windowViews p.limits (checked w p)).map _ = _
    rw [windowViews_checked, List.map_filterMap]
    refine List.filterMap_congr fun x _ => ?_
    cases x.2 <;> rfl
  windows x hx := by
    have hx : x ∈ windowViews p.limits (checked w p) := hx
    rw [windowViews_checked] at hx
    obtain ⟨⟨name, limit⟩, -, hx⟩ := List.mem_filterMap.mp hx
    obtain ⟨l, -, rfl⟩ := Option.map_eq_some_iff.mp hx
    exact ⟨by simp only; omega, rfl⟩
  blocking := blocking_eq p
  breaker := rfl
  accepting := by
    have room : (checked w p).blockingWindow.isNone = !full (rooms p.limits p.name w) :=
      RateLimiter.isNone_blocking _
    change (!full _ && _) = true ↔ (checked w p).blockingWindow = none ∧ _
    rw [Bool.and_eq_true, ← room, Option.isNone_iff_eq_none]

/-! ### The overview and the router -/

/-- The order the router tries providers in. -/
def ProviderView.before (u v : ProviderView) : Prop :=
  u.priority < v.priority ∨ u.priority = v.priority ∧ u.name ≤ v.name

/-- A provider is shown as one that may be chosen. -/
def ProviderView.Open (exclude : List String) (v : ProviderView) : Prop :=
  v.name ∉ exclude ∧ v.enabled = true ∧ v.accepting = true

theorem open_shown {exclude : List String} {p : ProviderConfig} (hp : p ∈ cfg.providers) :
    (shown cfg w p).Open exclude ↔
      p ∈ enabledProviders cfg w.overrides ∧ suits cfg exclude w p = true := by
  rw [mem_enabledProviders, suits, Bool.and_eq_true, Bool.and_eq_true, decide_eq_true_eq]
  unfold ProviderView.Open shown
  simp only [Bool.and_eq_true]
  tauto

variable (cfg) in
/-- **The dashboard tells what the router does.** Where nothing happens in between, the overview
changes nothing and tells of each provider what is used and left of its limits and what its
breaker says; and `select` chooses the first, by priority and name, of those shown as enabled and
accepting that are not excluded, and nobody if there is none. -/
theorem overview_agrees (exclude : List String) (free : ∀ l, w.locks l = none) :
    ∃ views, (providerOverview cfg).alone (unfailing cfg) w = some (.ok views, w) ∧
      List.Forall₂ (Describes cfg w) cfg.providers views ∧
      ∃ d w', (select cfg exclude).alone (unfailing cfg) w = some (.ok d, w') ∧
        (d = none ↔ ∀ v ∈ views, ¬ v.Open exclude) ∧
        ∀ v ∈ views, d.map RouteDecision.provider = some v.name ↔
          v.Open exclude ∧ ∀ u ∈ views, u.Open exclude → v.before u := by
  refine ⟨_, alone_providerOverview,
    List.forall₂_map_right_iff.mpr (List.forall₂_same.mpr fun p _ => describes_shown p), ?_⟩
  have run : (select cfg exclude).alone (unfailing cfg) w = _ :=
    alone_selectFrom free fun p hp => ((mem_enabledProviders cfg).mp hp).1
  cases hf : (enabledProviders cfg w.overrides).find? (suits cfg exclude w) with
  | none =>
    rw [hf] at run
    have nobody : ∀ v ∈ cfg.providers.map (shown cfg w), ¬ v.Open exclude := by
      intro v hv hopen
      obtain ⟨p, hp, rfl⟩ := List.mem_map.mp hv
      obtain ⟨hmem, hs⟩ := (open_shown hp).mp hopen
      exact List.find?_eq_none.mp hf p hmem hs
    exact ⟨none, w, run, iff_of_true rfl nobody,
      fun v hv => iff_of_false (by simp) fun h => nobody v hv h.1⟩
  | some p =>
    rw [hf] at run
    have hmem := List.mem_of_find?_eq_some hf
    have hp := ((mem_enabledProviders cfg).mp hmem).1
    have hopen : (shown cfg w p).Open exclude := (open_shown hp).mpr ⟨hmem, List.find?_some hf⟩
    have least : ∀ u ∈ cfg.providers.map (shown cfg w), u.Open exclude →
        (shown cfg w p).before u := by
      intro u hu hopen
      obtain ⟨q, hq, rfl⟩ := List.mem_map.mp hu
      obtain ⟨hqmem, hs⟩ := (open_shown hq).mp hopen
      exact first_least hf hqmem hs
    refine ⟨_, _, run, iff_of_false (by simp) fun h => h _ (List.mem_map_of_mem hp) hopen,
      fun v hv => ?_⟩
    obtain ⟨q, hq, rfl⟩ := List.mem_map.mp hv
    rw [Option.map_some, Option.some.injEq]
    constructor
    · intro same
      obtain rfl : p = q := List.inj_on_of_nodup_map cfg.names_nodup hp hq same
      exact ⟨hopen, least⟩
    · rintro ⟨hopen', least'⟩
      exact (show p.before q from least _ hv hopen').name
        (show q.before p from least' _ (List.mem_map_of_mem hp) hopen)

namespace Example

/-- The first provider is shown as stopped by its limit on the minute, the second as accepting; the
second is chosen. -/
theorem overview_agrees_secondBest : ∃ a b d w',
    (providerOverview meteredFirst).alone (unfailing meteredFirst) twoSent =
        some (.ok [a, b], twoSent) ∧
      a.blockingWindow = some (.window .perMinute) ∧ a.accepting = false ∧ b.accepting = true ∧
      (select meteredFirst []).alone (unfailing meteredFirst) twoSent = some (.ok d, w') ∧
      d.map RouteDecision.provider = some b.name := by
  obtain ⟨views, run, describes, d, w', chosen, -, best⟩ :=
    overview_agrees meteredFirst [] (w := twoSent) fun _ => rfl
  have seen : ((providerOverview meteredFirst).alone (unfailing meteredFirst) twoSent).map (fun r =>
      match r.1 with
      | .ok views => views.map fun v => (v.blockingWindow, v.enabled, v.accepting)
      | .error _ => []) =
        some [(some (.window .perMinute), true, false), (none, true, true)] := by
    decide +kernel
  rw [run] at seen
  obtain ⟨a, b, rfl⟩ : ∃ a b, views = [a, b] := List.length_eq_two.mp describes.length_eq.symm
  simp only [Option.map_some, List.map_cons, List.map_nil, Option.some.injEq, List.cons.injEq,
    Prod.mk.injEq, and_true] at seen
  obtain ⟨⟨blocked, -, full⟩, -, enabled, accepting⟩ := seen
  refine ⟨a, b, d, w', run, blocked, full, accepting, chosen, ?_⟩
  refine (best b (by simp)).mpr ⟨⟨List.not_mem_nil, enabled, accepting⟩, fun u hu hopen => ?_⟩
  rcases List.mem_pair.mp hu with rfl | rfl
  · rw [hopen.2.2] at full
    cases full
  · exact .inr ⟨rfl, le_refl _⟩

end Example

end SmtpSwitch
