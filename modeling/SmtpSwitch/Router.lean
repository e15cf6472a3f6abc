import Mathlib.Data.List.Sort
import SmtpSwitch.Health
import SmtpSwitch.RateLimiter

/-!
# Providers and routing

`providers/registry.py` and `dispatch/router.py`: the configured providers under
the operators' overrides, in priority order, and the choice of the first that is
up and has headroom.
-/

namespace SmtpSwitch

open Coop Coop.Prog

variable (cfg : Settings)

/-! ### The registry -/

/-- `is_enabled`. -/
def isEnabled (overrides : String → Option Bool) (p : ProviderConfig) : Bool :=
  (overrides p.name).getD p.enabled

/-- `key=lambda p: (p.priority, p.name)`. -/
def ProviderConfig.before (a b : ProviderConfig) : Prop :=
  a.priority < b.priority ∨ a.priority = b.priority ∧ a.name ≤ b.name

instance : DecidableRel ProviderConfig.before := fun a b => by
  unfold ProviderConfig.before; infer_instance

/-- `enabled_providers`. -/
def enabledProviders (overrides : String → Option Bool) : List ProviderConfig :=
  (cfg.providers.filter (isEnabled overrides)).insertionSort ProviderConfig.before

theorem mem_enabledProviders {overrides : String → Option Bool} {p : ProviderConfig} :
    p ∈ enabledProviders cfg overrides ↔ p ∈ cfg.providers ∧ isEnabled overrides p = true := by
  simp [enabledProviders]

/-! ### The router -/

/-- `RouteDecision`. -/
structure RouteDecision where
  provider : String
  reservation : Reservation

/-- The loop of `select`. -/
def selectFrom (exclude : List String) : List ProviderConfig → Act (Option RouteDecision)
  | [] => .ret none
  | p :: rest =>
    if p.name ∈ exclude then selectFrom exclude rest
    else do
      if ← CircuitBreaker.isAvailable cfg.circuitBreaker p.name then
        match ← RateLimiter.tryReserve cfg p.name with
        | none => selectFrom exclude rest
        | some reservation =>
          if ← CircuitBreaker.beginProbe cfg.circuitBreaker p.name then
            return some ⟨p.name, reservation⟩
          else
            RateLimiter.release .select reservation
            selectFrom exclude rest
      else selectFrom exclude rest

/-- `select`. -/
def select (exclude : List String) : Act (Option RouteDecision) := do
  let overrides ← perform .overrides
  selectFrom cfg exclude (enabledProviders cfg overrides)

/-- `candidate_names`. -/
def candidateNames : Act (List String) := do
  let overrides ← perform .overrides
  return (enabledProviders cfg overrides).map ProviderConfig.name

/-! ### What the router raises and returns -/

/-- A decision in order: a configured provider, not an excluded one, and a reservation with it. -/
structure RouteDecision.Sound (exclude : List String) (d : RouteDecision) : Prop where
  configured : ∃ c, cfg.provider d.provider = some c
  fresh : d.provider ∉ exclude
  reserved : d.reservation.provider = d.provider

theorem tame_selectFrom (exclude : List String) : ∀ ps, (∀ p ∈ ps, p ∈ cfg.providers) →
    (selectFrom cfg exclude ps).Tame Op.fails Op.ofRouter fun d =>
      ∀ x, d = some x → x.Sound cfg exclude
  | [], _ => fun _ hx => by cases hx
  | p :: rest, h => by
    have hp := Settings.provider_of_mem (h p List.mem_cons_self)
    have ih := tame_selectFrom exclude rest fun q hq => h q (List.mem_cons_of_mem _ hq)
    unfold selectFrom
    split
    · exact ih
    refine ((CircuitBreaker.tame_isAvailable _ _).widen fun _ => .inr ∘ .inl).bind fun up _ => ?_
    split
    · refine ((RateLimiter.tame_tryReserve _ hp).widen fun _ => .inl).bind fun r hr => ?_
      cases r with
      | none => exact ih
      | some r =>
        refine ((CircuitBreaker.tame_beginProbe _ _).widen fun _ => .inr ∘ .inl).bind fun ok _ => ?_
        split
        · exact fun x hx => by cases hx; exact ⟨⟨p, hp⟩, ‹_›, hr r rfl⟩
        · exact ((RateLimiter.tame_release _ _).widen fun _ => .inl).bind fun _ _ => ih
    · exact ih

theorem tame_select (exclude : List String) :
    (select cfg exclude).Tame Op.fails Op.ofRouter fun d =>
      ∀ x, d = some x → x.Sound cfg exclude :=
  (tame_perform (.inr (.inr rfl)) fun _ => rfl).bind fun _ _ =>
    tame_selectFrom cfg exclude _ fun _ hp => ((mem_enabledProviders cfg).mp hp).1

theorem tame_candidateNames : (candidateNames cfg).Tame Op.fails Op.ofOthers fun _ => True :=
  (tame_perform trivial fun _ => rfl).bind fun _ _ => trivial

end SmtpSwitch
