import SmtpSwitch.System

/-!
# The settlement of a routing decision

A routing decision has to be settled: the reservation by one call of `commit` or
`release`, and, once the message has been handed to the provider, the breaker by
one call of `record_success` or `record_failure`. `Stage` says how far a task is
with that. `_process` keeps to the order of the stages, and ends with everything
settled unless a failure came at one of the places where nothing catches it
between the decision and its settlement (`Op.critical`).
-/

namespace SmtpSwitch

open Coop Coop.Prog

/-! ### The stages -/

/-- How far a task is with the settlement of its routing decision. -/
inductive Stage where
  /-- Nothing is left to settle. -/
  | clear
  /-- A slot of the provider is taken. -/
  | taken (p : String)
  /-- `try_reserve` has granted the reservation. `probe`: a half-open probe was claimed with it;
  `seen`: the breaker's state as last looked at. -/
  | reserved (r : Reservation) (probe : Bool) (seen : Option (ProviderState × Time))
  /-- The message was handed to the provider. -/
  | relayed (r : Reservation) (probe : Bool)
  /-- `commit` or `release` was called, and the slot not yet given back. -/
  | settling (r : Reservation) (probe sent : Bool)
  /-- The breaker is owed an outcome. -/
  | owing (p : String) (probe : Bool)
  /-- `record_success` or `record_failure` was called. -/
  | telling (p : String) (probe : Bool) (seen : Option (ProviderState × Time))
  /-- An exception has left the decision unsettled. -/
  | lost

/-- A failure of this operation comes between a routing decision and its settlement. -/
def Op.critical : Op → Bool
  | .send .. => true
  | .commit .recordAttempt _ => true
  | .select (.persist .beginProbe) _ | .commit (.persist .beginProbe) _ => true
  | .flush (.release .process) | .select (.release .process) _
  | .commit (.release .process) _ => true
  | _ => false

/-- The stage after an operation that has not failed. -/
def Stage.advance : Stage → (o : Op) → o.Ans → Stage
  | .clear, .incInflight p, _ => .taken p
  | .taken _, .call (.granted r), _ => .reserved r false none
  | .reserved r probe _, .stateNow _, x => .reserved r probe (some x)
  | .reserved r _ _, .setState _ _, _ => .reserved r true none
  | .reserved r probe _, .send .., _ => .relayed r probe
  | .reserved r probe _, .call (.release _), _ => .settling r probe false
  | .relayed r probe, .call (.commit _), _ | .relayed r probe, .call (.release _), _ =>
    .settling r probe true
  | .settling r probe sent, .decInflight _, _ => if sent then .owing r.provider probe else .clear
  | .owing p probe, .call (.recordSuccess _), _ | .owing p probe, .call (.recordFailure _), _ =>
    .telling p probe none
  | .telling p probe _, .stateNow _, x => .telling p probe (some x)
  | .telling _ _ _, .setState _ _, _ => .clear
  -- the consumer's exception handler starts over
  | _, .flush .requeueNow, _ => .clear
  | s, _, _ => s

/-- The stage after an operation. -/
def Stage.next (s : Stage) (o : Op) (a : o.Ans) : Stage :=
  if o.critical && o.fails a then .lost else s.advance o a

variable (cfg : Settings)

/-- The changes of the breaker's state that are in order: a claim with a decision that still has to
be relayed, an outcome with one that was settled. -/
def Stage.mayset (s : Stage) (p : String) (st' : ProviderState) : Prop :=
  (∃ r probe st now, s = .reserved r probe (some (st, now)) ∧ p = r.provider ∧
    CircuitBreaker.status cfg.circuitBreaker st now = .halfOpen ∧ st' = claimed st) ∨
  ∃ probe st now, s = .telling p probe (some (st, now)) ∧
    (st' = CircuitBreaker.succeeded st now ∨ st' = CircuitBreaker.failed cfg.circuitBreaker st now)

/-- The operations in order in a stage. -/
def Stage.good : Stage → (o : Op) → o.Ans → Prop
  | s, .queueGet, _ | s, .incInflight _, _ => s = .clear
  | s, .call (.granted r), _ => s = .taken r.provider
  | s, .send p _ _ _ _ errand, _ =>
    p = errand.reservation.provider ∧ ∃ probe seen, s = .reserved errand.reservation probe seen
  | s, .call (.commit r), _ => ∃ probe, s = .relayed r probe
  | s, .call (.release r), _ => (∃ seen, s = .reserved r false seen) ∨ ∃ probe, s = .relayed r probe
  | s, .decInflight p, _ => ∃ r probe sent, s = .settling r probe sent ∧ p = r.provider
  | s, .call (.recordSuccess p), _ | s, .call (.recordFailure p), _ => ∃ probe, s = .owing p probe
  | s, .setState p st, _ => s.mayset cfg p st
  | _, .loadStates _, _ => False
  | s, .flush .requeueNow, _ => s = .clear ∨ s = .lost
  -- once lost, a task does nothing more of the kind that could be lost again
  | s, .select (.persist .beginProbe) _, a =>
    s = .lost ∧ a.isOk = true ∨ ∃ r probe seen, s = .reserved r probe seen
  | s, .commit (.persist .beginProbe) _, a =>
    s = .lost ∧ a.isOk = true ∨ ∃ r probe seen, s = .reserved r probe seen
  | s, .commit .recordAttempt _, a => s = .lost ∧ a.isOk = true ∨ ∃ r probe, s = .relayed r probe
  | s, .flush (.release .process), a => s = .lost ∧ a.isOk = true ∨ ∃ p probe, s = .owing p probe
  | s, .select (.release .process) _, a => s = .lost ∧ a.isOk = true ∨ ∃ p probe, s = .owing p probe
  | s, .commit (.release .process) _, a => s = .lost ∧ a.isOk = true ∨ ∃ p probe, s = .owing p probe
  | _, _, _ => True

/-- The protocol of the settlement. -/
def settlement : Protocol Op Op.Ans Job Stage where
  idle := .clear
  enter _ := .clear
  next := Stage.next
  good := Stage.good cfg

/-! ### One operation -/

/-- The operation moves the settlement on. -/
def Op.advances : Op → Bool
  | .incInflight _ | .decInflight _ | .call _ | .send
      .. | .setState _ _ | .loadStates _ | .stateNow _
  | .flush .requeueNow => true
  | _ => false

/-- What an operation in order makes of a stage. -/
inductive Stage.Advance (cfg : Settings) : Stage → (o : Op) → o.Ans → Stage → Prop where
  | taken {p : String} {a : Op.Ans (.incInflight p)} :
      Advance cfg .clear (.incInflight p) a (.taken p)
  | granted {r : Reservation} {a : Op.Ans (.call (.granted r))} :
      Advance cfg (.taken r.provider) (.call (.granted r)) a (.reserved r false none)
  | claimed {r : Reservation} {probe : Bool} {st : ProviderState} {now : Time}
      {a : Op.Ans (.setState r.provider (claimed st))} :
      CircuitBreaker.status cfg.circuitBreaker st now = .halfOpen →
      Advance cfg (.reserved r probe (some (st, now))) (.setState r.provider (claimed st)) a
        (.reserved r true none)
  | relayed {errand : Errand} {probe : Bool} {seen : Option (ProviderState × Time)}
      {kw : SendKwargs} {sender : String} {rcpts : List String} {raw : Bytes}
      {a : Op.Ans (.send errand.reservation.provider kw sender rcpts raw errand)} :
      Advance cfg (.reserved errand.reservation probe seen)
        (.send errand.reservation.provider kw sender rcpts raw errand) a
        (.relayed errand.reservation probe)
  /-- A reservation that could not be used is given back. -/
  | unused {r : Reservation} {seen : Option (ProviderState × Time)}
      {a : Op.Ans (.call (.release r))} :
      Advance cfg (.reserved r false seen) (.call (.release r)) a (.settling r false false)
  | committed {r : Reservation} {probe : Bool} {a : Op.Ans (.call (.commit r))} :
      Advance cfg (.relayed r probe) (.call (.commit r)) a (.settling r probe true)
  | released {r : Reservation} {probe : Bool} {a : Op.Ans (.call (.release r))} :
      Advance cfg (.relayed r probe) (.call (.release r)) a (.settling r probe true)
  | settled {r : Reservation} {probe sent : Bool} {a : Op.Ans (.decInflight r.provider)} :
      Advance cfg (.settling r probe sent) (.decInflight r.provider) a
        (if sent then .owing r.provider probe else .clear)
  | succeeded {p : String} {probe : Bool} {a : Op.Ans (.call (.recordSuccess p))} :
      Advance cfg (.owing p probe) (.call (.recordSuccess p)) a (.telling p probe none)
  | failed {p : String} {probe : Bool} {a : Op.Ans (.call (.recordFailure p))} :
      Advance cfg (.owing p probe) (.call (.recordFailure p)) a (.telling p probe none)
  | told {p : String} {probe : Bool} {st st' : ProviderState} {now : Time}
      {a : Op.Ans (.setState p st')} :
      st' = CircuitBreaker.succeeded st now ∨
        st' = CircuitBreaker.failed cfg.circuitBreaker st now →
        Advance cfg (.telling p probe (some (st, now))) (.setState p st') a .clear
  /-- The breaker's state is looked at, which a stage may remember. -/
  | looked {s s' : Stage} {p : String} {x : Op.Ans (.stateNow p)} : s' = s ∨
      (∃ r probe seen, s = .reserved r probe seen ∧ s' = .reserved r probe (some x)) ∨
      (∃ q probe seen, s = .telling q probe seen ∧ s' = .telling q probe (some x)) →
        Advance cfg s (.stateNow p) x s'
  | startedOver {s : Stage} {a : Op.Ans (.flush .requeueNow)} : s = .clear ∨ s = .lost →
      Advance cfg s (.flush .requeueNow) a .clear
  | same {s : Stage} {o : Op} {a : o.Ans} : o.advances = false → Advance cfg s o a s

variable {cfg} in
theorem Stage.advance_cases {s : Stage} {o : Op} {a : o.Ans} (hg : s.good cfg o a) :
    Stage.Advance cfg s o a (s.advance o a) := by
  cases o with
  | incInflight p =>
    obtain rfl : s = .clear := hg
    exact .taken
  | decInflight p =>
    obtain ⟨r, probe, sent, rfl, rfl⟩ := hg
    exact .settled
  | call c =>
    cases c with
    | granted r =>
      obtain rfl : s = .taken r.provider := hg
      exact .granted
    | commit r =>
      obtain ⟨probe, rfl⟩ := hg
      exact .committed
    | release r =>
      obtain ⟨seen, rfl⟩ | ⟨probe, rfl⟩ := hg
      · exact .unused
      · exact .released
    | recordSuccess p =>
      obtain ⟨probe, rfl⟩ := hg
      exact .succeeded
    | recordFailure p =>
      obtain ⟨probe, rfl⟩ := hg
      exact .failed
  | send p kw sender rcpts raw errand =>
    obtain ⟨rfl, probe, seen, rfl⟩ := hg
    exact .relayed
  | setState p st =>
    obtain ⟨r, probe, st, now, rfl, rfl, halfOpen, rfl⟩ | ⟨probe, st, now, rfl, outcome⟩ := hg
    · exact .claimed halfOpen
    · exact .told outcome
  | loadStates rows => exact hg.elim
  | stateNow p =>
    cases s with
    | reserved r probe seen => exact .looked (.inr (.inl ⟨r, probe, seen, rfl, rfl⟩))
    | telling q probe seen => exact .looked (.inr (.inr ⟨q, probe, seen, rfl, rfl⟩))
    | _ => exact .looked (.inl rfl)
  | flush site =>
    cases site with
    | requeueNow =>
      obtain rfl | rfl : s = .clear ∨ s = .lost := hg
      · exact .startedOver (.inl rfl)
      · exact .startedOver (.inr rfl)
    | _ => cases s <;> exact .same rfl
  | _ => cases s <;> exact .same rfl

/-! ### Operations without a meaning -/

/-- An operation that means nothing in stage `s`, where its failure leads to `χ`. -/
structure Means (s χ : Stage) (o : Op) : Prop where
  good : ∀ a, s.good cfg o a
  next : ∀ a, s.next o a = if o.fails a then χ else s
  good' : ∀ a, o.fails a = false → χ.good cfg o a
  next' : ∀ a, o.fails a = false → χ.next o a = χ

variable {cfg}

theorem unconcerned_settlement {S : Op → Prop} {s χ : Stage} (h : ∀ o, S o → Means cfg s χ o) :
    Unconcerned (settlement cfg) Op.fails S s χ where
  good o ho := (h o ho).good
  next o ho := (h o ho).next
  good' o ho := (h o ho).good'
  next' o ho := (h o ho).next'

theorem means_of_free {o : Op} {s : Stage} (hg : ∀ a, s.good cfg o a) (hn : ∀ a, s.next o a = s) :
    Means cfg s s o :=
  ⟨hg, fun a => by rw [ite_self]; exact hn a, fun a _ => hg a, fun a _ => hn a⟩

theorem means_others {o : Op} (h : o.ofOthers) : Means cfg .clear .clear o := by
  refine means_of_free (fun a => ?_) fun a => ?_
  · cases o with
    | select site q => cases q <;> cases site <;> trivial
    | commit site ss => obtain ⟨h, -⟩ := h; cases site <;> trivial
    | flush site => cases site <;> trivial
    | queueGet => exact rfl
    | _ => trivial
  · cases o with
    | select site q => cases q <;> cases site <;> first | rfl | cases h
    | commit site ss => obtain ⟨h, -⟩ := h; cases site <;> first | rfl | cases h
    | flush site => cases site <;> first | rfl | cases h
    | _ => first | rfl | exact h.elim

theorem means_tryReserve {o : Op} (h : o.ofLookup .tryReserve) : Means cfg .clear .clear o := by
  refine means_of_free (fun a => ?_) fun a => ?_
  · cases o with
    | select site q => cases q <;> cases h <;> trivial
    | _ => trivial
  · cases o with
    | select site q => cases q <;> cases h <;> rfl
    | _ => first | rfl | exact h.elim

/-- The operations of a session of `release`. -/
def Op.ofRelease (by_ : Caller) (o : Op) : Prop :=
  o.ofLookup (.release by_) ∨ o = .flush (.release by_) ∨ ∃ ss, o = .commit (.release by_) ss

theorem means_release_select {o : Op} (h : o.ofRelease .select) : Means cfg .clear .clear o := by
  rcases h with h | rfl | ⟨ss, rfl⟩
  · refine means_of_free (fun a => ?_) fun a => ?_
    · cases o with
      | select site q => cases q <;> cases h <;> trivial
      | _ => trivial
    · cases o with
      | select site q => cases q <;> cases h <;> rfl
      | _ => first | rfl | exact h.elim
  · exact means_of_free (fun _ => trivial) fun _ => rfl
  · exact means_of_free (fun _ => trivial) fun _ => rfl

/-- An operation whose failure is critical. -/
theorem means_of_critical {o : Op} {s : Stage} (hc : o.critical = true) (hg : ∀ a, s.good cfg o a)
    (hn : ∀ a, s.advance o a = s) (hl : ∀ a, o.fails a = false → Stage.lost.good cfg o a)
    (hl' : ∀ a, Stage.lost.advance o a = .lost) : Means cfg s .lost o where
  good := hg
  next a := by simp [Stage.next, hc, hn]
  good' a h := hl a h
  next' a h := by simp [Stage.next, h, hl']

/-- An operation that does not fail. -/
theorem means_of_infallible {o : Op} {s χ : Stage} (hf : ∀ a, o.fails a = false)
    (h : ∀ t, t = s ∨ t = χ → ∀ a, t.good cfg o a ∧ t.advance o a = t) : Means cfg s χ o where
  good a := (h s (.inl rfl) a).1
  next a := by simp [Stage.next, hf, h s (.inl rfl)]
  good' a _ := (h χ (.inr rfl) a).1
  next' a _ := by simp [Stage.next, hf, h χ (.inr rfl)]

theorem means_release_process {p : String} {probe : Bool} {o : Op} (h : o.ofRelease .process) :
    Means cfg (.owing p probe) .lost o := by
  rcases h with h | rfl | ⟨ss, rfl⟩
  · cases o with
    | select site q =>
      cases q <;> cases h
      · exact means_of_critical rfl (fun _ => .inr ⟨p, probe, rfl⟩) (fun _ => rfl)
          (fun | .ok _, _ => .inl ⟨rfl, rfl⟩) fun _ => rfl
      · exact means_of_critical rfl (fun _ => .inr ⟨p, probe, rfl⟩) (fun _ => rfl)
          (fun | .ok _, _ => .inl ⟨rfl, rfl⟩) fun _ => rfl
    | utcnow =>
      exact means_of_infallible (fun _ =>
        rfl) fun t ht _ => by rcases ht with rfl | rfl <;> exact ⟨trivial, rfl⟩
    | inflight p =>
      exact means_of_infallible (fun _ =>
        rfl) fun t ht _ => by rcases ht with rfl | rfl <;> exact ⟨trivial, rfl⟩
    | _ => exact h.elim
  · exact means_of_critical rfl (fun _ => .inr ⟨p, probe, rfl⟩) (fun _ => rfl)
      (fun | .ok _, _ => .inl ⟨rfl, rfl⟩) fun _ => rfl
  · exact means_of_critical rfl (fun _ => .inr ⟨p, probe, rfl⟩) (fun _ => rfl)
      (fun | .ok _, _ => .inl ⟨rfl, rfl⟩) fun _ => rfl

theorem means_persist_beginProbe {r : Reservation} {probe : Bool}
    {seen : Option (ProviderState × Time)} {o : Op} (h : o.ofPersist .beginProbe) :
    Means cfg (.reserved r probe seen) .lost o := by
  cases o with
  | select site q =>
    cases q <;> cases h
    exact means_of_critical rfl (fun _ => .inr ⟨r, probe, seen, rfl⟩) (fun _ => rfl)
      (fun | .ok _, _ => .inl ⟨rfl, rfl⟩) fun _ => rfl
  | commit site ss =>
    obtain ⟨rfl, -⟩ := h
    exact means_of_critical rfl (fun _ => .inr ⟨r, probe, seen, rfl⟩) (fun _ => rfl)
      (fun | .ok _, _ => .inl ⟨rfl, rfl⟩) fun _ => rfl
  | state p =>
    exact means_of_infallible (fun _ =>
      rfl) fun t ht _ => by rcases ht with rfl | rfl <;> exact ⟨trivial, rfl⟩
  | _ => exact h.elim

theorem means_persist_outcome {by_ : BreakerOp} (hby : by_ ≠ .beginProbe) {o : Op}
    (h : o.ofPersist by_) : Means cfg .clear .clear o := by
  refine means_of_free (fun a => ?_) fun a => ?_
  · cases o with
    | select site q => cases q <;> cases h; cases by_ <;> trivial
    | commit site ss => obtain ⟨rfl, -⟩ := h; cases by_ <;> trivial
    | _ => trivial
  · cases o with
    | select site q => cases q <;> cases h; cases by_ <;> first | rfl | exact absurd rfl hby
    | commit site ss => obtain ⟨rfl, -⟩ := h; cases by_ <;> first | rfl | exact absurd rfl hby
    | _ => first | rfl | exact h.elim

theorem means_record {r : Reservation} {probe : Bool} {o : Op} (h : o.ofRecord) :
    Means cfg (.relayed r probe) .lost o := by
  cases o with
  | utcnow =>
    exact means_of_infallible (fun _ =>
      rfl) fun t ht _ => by rcases ht with rfl | rfl <;> exact ⟨trivial, rfl⟩
  | commit site ss =>
    obtain ⟨rfl, -⟩ := h
    exact means_of_critical rfl (fun _ => .inr ⟨r, probe, rfl⟩) (fun _ => rfl)
      (fun | .ok _, _ => .inl ⟨rfl, rfl⟩) fun _ => rfl
  | _ => exact h.elim

/-! ### The calls -/

section Calls

variable {α β : Type}

/-- The end of a call: in `ψ` with a result, and after an exception with everything settled, or
lost. -/
def Ends (ψ : α → Stage → Prop) : Except Exc α → Stage → Prop
  | .ok a, t => ψ a t
  | .error _, t => t = .clear ∨ t = .lost

theorem follows_then {ψ : α → Stage → Prop} {ψ' : β → Stage → Prop} {t : Act α} {f : α → Act β}
    {s : Stage} (ht : t.Follows (settlement cfg) (Ends ψ) s)
    (hf : ∀ a s', ψ a s' → (f a).Follows (settlement cfg) (Ends ψ') s') :
    (t >>= f).Follows (settlement cfg) (Ends ψ') s :=
  Follows.bind ht hf fun _ _ h => h

/-- Operations without a meaning, and what follows them in the same stage. -/
theorem follows_means {S : Op → Prop} {R : α → Prop} {ψ : β → Stage → Prop} {t : Act α}
    {f : α → Act β} {s χ : Stage} (hS : ∀ o, S o → Means cfg s χ o) (hχ : χ = .clear ∨ χ = .lost)
    (ht : t.Tame Op.fails S R) (hf : ∀ a, R a → (f a).Follows (settlement cfg) (Ends ψ) s) :
    (t >>= f).Follows (settlement cfg) (Ends ψ) s := by
  refine Follows.bind (ht.follows (unconcerned_settlement hS)) ?_ ?_
  · rintro a _ ⟨rfl, ha⟩
    exact hf a ha
  · rintro e _ rfl
    exact hχ

/-- A call without a meaning. -/
theorem follows_ends {S : Op → Prop} {R : α → Prop} {t : Act α} {s χ : Stage}
    (hS : ∀ o, S o → Means cfg s χ o) (hχ : χ = .clear ∨ χ = .lost) (ht : t.Tame Op.fails S R) :
    t.Follows (settlement cfg) (Ends fun _ t => t = s) s := by
  refine (ht.follows (unconcerned_settlement hS)).mono ?_
  rintro (e | a) t h
  · exact (show t = χ from h) ▸ hχ
  · exact h.1

/-- A lock does not matter. -/
theorem follows_settle_lock {l : Lock} {body : Act α} {Q : Except Exc α → Stage → Prop} {s : Stage}
    (h : body.Follows (settlement cfg) Q s) : (withLock l body).Follows (settlement cfg) Q s := by
  have free : ∀ t : Stage, t.next (.acquire l) () = t ∧ t.next (.unlock l) () = t := fun t => by
    cases t <;> exact ⟨rfl, rfl⟩
  refine follows_withLock trivial ?_
  rw [show (settlement cfg).next s (.acquire l) () = s from (free s).1]
  refine h.mono fun r t hr => ⟨trivial, ?_⟩
  rw [show (settlement cfg).next t (.unlock l) () = t from (free t).2]
  exact hr

/-- What `try_reserve` leaves to settle. -/
def Granted : Option Reservation → Stage → Prop
  | none, t => t = .clear
  | some r, t => t = .reserved r false none

theorem follows_refuse_settle {ψ : Option (ℕ × Option String × Option String) → Stage → Prop}
    (h : ψ none .clear) :
    (RateLimiter.refuse : Act (Option _)).Follows (settlement cfg) (Ends ψ) .clear :=
  follows_commit (fun _ => ⟨trivial, h⟩) fun _ => ⟨trivial, .inl rfl⟩

theorem follows_reserveRow_settle (p : String) (limits : ProviderLimits) (now : Time) :
    (RateLimiter.reserveRow p limits now).Follows (settlement cfg) (Ends fun _ t => t = .clear)
      .clear := by
  have lookup := fun o => @means_tryReserve cfg o
  refine follows_means lookup (.inl rfl) (RateLimiter.tame_slidingCounts _ _ _) fun counts _ => ?_
  split
  · exact follows_refuse_settle rfl
  refine follows_means lookup (.inl rfl) (RateLimiter.tame_quotaRoom _ _) fun day _ => ?_
  split
  · exact follows_refuse_settle rfl
  refine follows_means lookup (.inl rfl) (RateLimiter.tame_quotaRoom _ _) fun month _ => ?_
  split
  · exact follows_refuse_settle rfl
  refine follows_flush ⟨trivial, ?_⟩ fun e => ⟨trivial, .inl rfl⟩
  refine follows_means lookup (.inl rfl) (RateLimiter.tame_bumpRoom _) fun ds _ =>
    follows_means lookup (.inl rfl) (RateLimiter.tame_bumpRoom _) fun ms _ => ?_
  exact follows_commit (fun id => ⟨trivial, rfl⟩) fun e => ⟨trivial, .inl rfl⟩

theorem follows_tryReserve_settle (p : String) :
    (RateLimiter.tryReserve cfg p).Follows (settlement cfg) (Ends Granted) .clear := by
  unfold RateLimiter.tryReserve
  split
  · exact .inl rfl
  refine follows_settle_lock (follows_means (fun o => @means_tryReserve cfg o) (.inl rfl)
    (RateLimiter.tame_atCapacity _ _) fun full _ => ?_)
  split
  · exact rfl
  refine follows_perform fun now => ⟨trivial, follows_then (follows_reserveRow_settle _ _ _) ?_⟩
  rintro row _ rfl
  cases row with
  | none => exact rfl
  | some x =>
    obtain ⟨id, dayKey, monthKey⟩ := x
    exact follows_perform fun _ => ⟨rfl, follows_perform fun _ => ⟨rfl, rfl⟩⟩

/-- What `begin_probe` leaves: no probe if it answers no. -/
def Probed (r : Reservation) (ok : Bool) (t : Stage) : Prop :=
  ∃ probe seen, t = .reserved r probe seen ∧ (ok = false → probe = false)

theorem follows_beginProbe_settle (r : Reservation) :
    (CircuitBreaker.beginProbe cfg.circuitBreaker r.provider).Follows (settlement cfg)
      (Ends (Probed r)) (.reserved r false none) := by
  refine follows_settle_lock (follows_perform fun x => ⟨trivial, ?_⟩)
  obtain ⟨st, now⟩ := x
  simp only
  split
  · exact ⟨false, some (st, now), rfl, fun _ => rfl⟩
  · exact ⟨false, some (st, now), rfl, fun _ => rfl⟩
  rename_i hstatus
  split
  · exact ⟨false, some (st, now), rfl, fun _ => rfl⟩
  refine follows_perform fun _ => ⟨.inl ⟨r, false, st, now, rfl, rfl, hstatus, rfl⟩, ?_⟩
  refine follows_means (s := .reserved r true none) (fun o =>
    @means_persist_beginProbe cfg r true none o) (.inr rfl)
    (CircuitBreaker.tame_persist _ _) fun _ _ => ?_
  exact ⟨true, none, rfl, fun h => by cases h⟩

/-- The body of a release after the slot was given back. -/
theorem follows_release_body {by_ : Caller} {r : Reservation} {s χ : Stage}
    (hS : ∀ o, o.ofRelease by_ → Means cfg s χ o) (hχ : χ = .clear ∨ χ = .lost) :
    (do
      flush (.release by_)
      let dayStmts ← RateLimiter.unbump (.release by_) r.provider .day r.dayKey
      let monthStmts ← RateLimiter.unbump (.release by_) r.provider .month r.monthKey
      let _ ← commit (.release by_) (.deleteSendLog r.sendLogId :: (dayStmts ++ monthStmts))
      : Act Unit).Follows (settlement cfg) (Ends fun _ t => t = s) s := by
  have lookup := fun o (ho : o.ofLookup (.release by_)) => hS o (.inl ho)
  refine follows_means hS hχ (tame_flush (.inr (.inl rfl))) fun _ _ => ?_
  refine follows_means lookup hχ (RateLimiter.tame_unbump _ _ _ _) fun ds _ =>
    follows_means lookup hχ (RateLimiter.tame_unbump _ _ _ _) fun ms _ => ?_
  exact follows_means hS hχ (tame_commit (.inr (.inr ⟨_, rfl⟩))) fun _ _ => rfl

theorem follows_release_select (r : Reservation) (seen : Option (ProviderState × Time)) :
    (RateLimiter.release .select r).Follows (settlement cfg) (Ends fun _ t => t = .clear)
      (.reserved r false seen) :=
  follows_perform fun _ => ⟨.inl ⟨seen, rfl⟩, follows_settle_lock <| follows_perform fun _ =>
    ⟨⟨r, false, false, rfl, rfl⟩,
      follows_release_body (fun o => @means_release_select cfg o) (.inl rfl)⟩⟩

theorem follows_release_process (r : Reservation) (probe : Bool) :
    (RateLimiter.release .process r).Follows (settlement cfg)
      (Ends fun _ t => t = .owing r.provider probe) (.relayed r probe) :=
  follows_perform fun _ => ⟨.inr ⟨probe, rfl⟩, follows_settle_lock <| follows_perform fun _ =>
    ⟨⟨r, probe, true, rfl, rfl⟩,
      follows_release_body (fun o => @means_release_process cfg r.provider probe o) (.inr rfl)⟩⟩

theorem follows_commitReservation_settle (r : Reservation) (probe : Bool) :
    (RateLimiter.commitReservation r).Follows (settlement cfg)
      (Ends fun _ t => t = .owing r.provider probe) (.relayed r probe) :=
  follows_perform fun _ => ⟨⟨probe, rfl⟩, follows_settle_lock <| fun _ =>
    ⟨⟨r, probe, true, rfl, rfl⟩, rfl⟩⟩

theorem follows_recordSuccess_settle (p : String) (probe : Bool) :
    (CircuitBreaker.recordSuccess p).Follows (settlement cfg) (Ends fun _ t => t = .clear)
      (.owing p probe) := by
  refine follows_perform fun _ => ⟨⟨probe, rfl⟩, follows_settle_lock <| follows_perform fun x =>
    ⟨trivial, follows_perform fun _ => ⟨.inr ⟨probe, x.1, x.2, rfl, .inl rfl⟩, ?_⟩⟩⟩
  exact follows_ends (fun o => means_persist_outcome (by decide)) (.inl rfl)
    (CircuitBreaker.tame_persist _ _)

theorem follows_recordFailure_settle (p : String) (probe : Bool) :
    (CircuitBreaker.recordFailure cfg.circuitBreaker p).Follows (settlement cfg)
      (Ends fun _ t => t = .clear) (.owing p probe) := by
  refine follows_perform fun _ => ⟨⟨probe, rfl⟩, follows_settle_lock <| follows_perform fun x =>
    ⟨trivial, follows_perform fun _ => ⟨.inr ⟨probe, x.1, x.2, rfl, .inr rfl⟩, ?_⟩⟩⟩
  exact follows_ends (fun o => means_persist_outcome (by decide)) (.inl rfl)
    (CircuitBreaker.tame_persist _ _)

end Calls

end SmtpSwitch
