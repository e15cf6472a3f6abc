import Mathlib.Algebra.Order.Ring.Rat
import Mathlib.Data.List.Nodup
import Mathlib.Data.PNat.Basic
import Mathlib.Tactic.NormNum

/-!
# Settings

The part of the configuration the dispatcher, the limiter, the breaker and the
ingress server read. What the validators of `config.py` check is carried by the
types: a `PositiveInt` is a positive number, a reset day is between 1 and 28, the
backoff bounds are in order, provider names are distinct. So settings that the
loader refuses cannot be written down here.
-/

namespace SmtpSwitch

/-- `Annotated[int, Field(gt=0)]`. -/
abbrev PositiveInt := ℕ+

/-- `RetryConfig`. -/
structure RetryConfig where
  /-- The first delay. -/
  baseDelaySeconds : PositiveInt := 30
  /-- The cap on the delay. -/
  maxDelaySeconds : PositiveInt := 3600
  /-- Charged attempts before a message is given up. -/
  maxAttempts : PositiveInt := 12
  /-- The age at which a message is given up. -/
  maxAgeHours : PositiveInt := 48
  /-- The spread of the delay. -/
  jitterRatio : ℚ := 1 / 5
  jitter_nonneg : 0 ≤ jitterRatio := by norm_num
  jitter_le_one : jitterRatio ≤ 1 := by norm_num
  /-- `_order`. -/
  order : baseDelaySeconds ≤ maxDelaySeconds := by decide

/-- `DispatchConfig`. -/
structure DispatchConfig where
  /-- The most messages claimed at once. -/
  claimBatchSize : PositiveInt := 20
  /-- The most providers tried for a message in one cycle. -/
  failoverPerTick : PositiveInt := 3
  /-- How long a message is held when no provider is eligible. -/
  noCapacityBackoffSeconds : PositiveInt := 20
  /-- Retries. -/
  retry : RetryConfig := {}
  /-- How long a sent message is kept; `0` is for ever. -/
  sentRetentionHours : ℕ := 168
  /-- How long a dead letter is kept; `0` is for ever. -/
  deadletterRetentionHours : ℕ := 720

/-- A sliding window of the limiter. -/
inductive Window where
  | perSecond
  | perMinute
  | perHour
  deriving DecidableEq, Repr

/-- `ProviderLimits`. -/
structure ProviderLimits where
  maxConcurrent : Option PositiveInt := none
  perSecond : Option PositiveInt := none
  perMinute : Option PositiveInt := none
  perHour : Option PositiveInt := none
  perDay : Option PositiveInt := none
  perMonth : Option PositiveInt := none
  /-- The day of the month on which the monthly window starts. -/
  monthResetDay : ℕ := 1
  reset_pos : 1 ≤ monthResetDay := by decide
  reset_le : monthResetDay ≤ 28 := by decide
  deriving DecidableEq

/-- A window, its span in seconds and its limit, if the limit is set. -/
def windowOf (w : Window) (span : ℕ) : Option PositiveInt → List (Window × ℕ × ℕ)
  | some limit => [(w, span, limit)]
  | none => []

/-- `sliding_windows`: the limits enforced through `send_log`, each with its span in seconds. -/
def ProviderLimits.slidingWindows (l : ProviderLimits) : List (Window × ℕ × ℕ) :=
  windowOf .perSecond 1 l.perSecond ++ windowOf .perMinute 60 l.perMinute ++
    windowOf .perHour 3600 l.perHour

/-- `max_window_span`. -/
def ProviderLimits.maxWindowSpan (l : ProviderLimits) : ℕ :=
  (l.slidingWindows.map fun w => w.2.1).foldr max 0

/-- `ProviderSMTP`. -/
structure ProviderSMTP where
  host : String
  port : PositiveInt := 587
  starttls : Bool := true
  /-- Implicit TLS. -/
  tls : Bool := false
  username : Option String := none
  password : Option String := none
  timeoutSeconds : PositiveInt := 30
  verifyCert : Bool := true
  /-- `_tls_mode`. -/
  tls_mode : ¬ (tls = true ∧ starttls = true) := by decide
  deriving DecidableEq

/-- `ProviderConfig`. -/
structure ProviderConfig where
  name : String
  enabled : Bool := true
  priority : ℤ := 100
  smtp : ProviderSMTP
  limits : ProviderLimits := {}
  deriving DecidableEq

/-- `CircuitBreakerConfig`. -/
structure CircuitBreakerConfig where
  failureThreshold : PositiveInt := 5
  cooldownSeconds : PositiveInt := 120
  halfOpenMaxProbes : PositiveInt := 1

/-- `IngressConfig`, as far as the handlers read it. -/
structure IngressConfig where
  maxMessageBytes : PositiveInt := 26214400
  requireAuth : Bool := true

/-- `Settings`. -/
structure Settings where
  ingress : IngressConfig := {}
  dispatch : DispatchConfig := {}
  providers : List ProviderConfig := []
  circuitBreaker : CircuitBreakerConfig := {}
  /-- `_validate_providers`. -/
  names_nodup : (providers.map ProviderConfig.name).Nodup := by decide

/-- `Settings.provider`. -/
def Settings.provider (s : Settings) (name : String) : Option ProviderConfig :=
  s.providers.find? fun p => p.name = name

theorem Settings.provider_name {s : Settings} {name : String} {cfg : ProviderConfig}
    (h : s.provider name = some cfg) : cfg.name = name := by
  simpa using List.find?_some h

theorem Settings.provider_mem {s : Settings} {name : String} {cfg : ProviderConfig}
    (h : s.provider name = some cfg) : cfg ∈ s.providers := List.mem_of_find?_eq_some h

/-- A configured provider is found under its name. -/
theorem Settings.provider_of_mem {s : Settings} {cfg : ProviderConfig} (h : cfg ∈ s.providers) :
    s.provider cfg.name = some cfg := by
  cases hp : s.provider cfg.name with
  | none =>
    simp only [provider, List.find?_eq_none] at hp
    exact absurd (hp cfg h) (by simp)
  | some cfg' =>
    rw [List.inj_on_of_nodup_map s.names_nodup (provider_mem hp) h (provider_name hp)]

/-! ### Settings to run examples with -/

namespace Example

/-- A provider. -/
def smarthost : ProviderConfig := { name := "a", smtp := { host := "a.example" } }

/-- One provider, without limits. -/
def relayed : Settings := { providers := [smarthost] }

/-- Two messages a minute, and three a day. -/
def metered : Settings :=
  { relayed with
    providers := [{ smarthost with limits := { perMinute := some 2, perDay := some 3 } }] }

/-- One provider, with one slot, one message a second and one a day. -/
def oneProvider : Settings where
  providers := [{ name := "p", smtp := { host := "mx" }
                  limits := { maxConcurrent := some 1, perSecond := some 1, perDay := some 1 } }]

/-- One provider, with one message a day. -/
def onePerDay : Settings where
  providers := [{ name := "p", smtp := { host := "mx" }, limits := { perDay := some 1 } }]

/-- One provider, with two messages a day. -/
def twoPerDay : Settings where
  providers := [{ name := "p", smtp := { host := "mx" }, limits := { perDay := some 2 } }]

/-- One relay in all. -/
def oneChance : Settings :=
  { twoPerDay with dispatch := { failoverPerTick := 1, retry := { maxAttempts := 1 } } }

/-- One provider, and a breaker that opens at the first failure. -/
def oneStrike : Settings where
  providers := [{ name := "p", smtp := { host := "mx" } }]
  circuitBreaker := { failureThreshold := 1 }

/-- Two providers, one relay in a cycle, two attempts. -/
def oneATick : Settings where
  providers := [{ name := "a", smtp := { host := "mx-a" } },
    { name := "b", smtp := { host := "mx-b" } }]
  dispatch := { failoverPerTick := 1, retry := { maxAttempts := 2 } }

/-- Two providers, the first with two messages a minute and three a day, the second without
limits. -/
def meteredFirst : Settings :=
  { metered with
    providers := [{ smarthost with limits := { perMinute := some 2, perDay := some 3 } },
      { name := "b", smtp := { host := "b.example" } }]
    names_nodup := by decide }

/-- Two providers, without limits. -/
def twoProviders : Settings where
  providers := [{ name := "a", smtp := { host := "mx-a" } },
    { name := "b", smtp := { host := "mx-b" } }]

end Example

end SmtpSwitch
