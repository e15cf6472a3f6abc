import SmtpSwitch.System

/-!
# The protocol of the breaker's lock

Every change of a provider's breaker state is made under the provider's lock, from
the state as it was looked at there, and persisted before the lock is given back.
`Hold` says how far a task is with that, `breakerProtocol` which operations are in
order, and `Hold.Holds` what a task in the middle of it may rely on: while it has the
lock nobody else changes the state.

`begin_probe` lets its caller through exactly by giving the lock back in a phase that
`lets` (`lets_of_beginProbe`), and every decision of the router ends so
(`lets_of_selectFrom`).
-/

namespace SmtpSwitch

open Coop Coop.Prog

/-- How far a task is with an operation on a breaker. -/
inductive Hold where
  | free
  /-- The start of the process has read the rows. -/
  | loaded (rows : String → Option ProviderState)
  /-- It has the lock of `p`'s breaker. -/
  | locked (p : String)
  /-- It has looked at the state. -/
  | looked (p : String) (st : ProviderState) (now : Time)
  /-- It has changed the state. `probe`: it has claimed a probe; `row`: the state it has read to
  persist it. -/
  | wrote (p : String) (probe : Bool) (row : Option ProviderState)
  /-- The state could not be persisted. -/
  | broken (p : String)

/-- The provider whose breaker's lock a task has. -/
def Hold.lock : Hold → Option String
  | .free | .loaded _ => none
  | .locked p | .looked p _ _ | .wrote p _ _ | .broken p => some p

/-- The phase after an operation. -/
def Hold.next : Hold → (o : Op) → o.Ans → Hold
  | _, .acquire (.breaker p), _ => .locked p
  | _, .unlock (.breaker _), _ => .free
  | _, .select .load .providerStates, .ok rows => .loaded rows
  | _, .loadStates _, _ => .free
  | .locked p, .stateNow _, x => .looked p x.1 x.2
  | .looked p st _, .setState _ st', _ => .wrote p (decide (st' = claimed st)) none
  | .wrote p probe _, .state _, st => .wrote p probe (some st)
  | .wrote p _ _, .select (.persist _) _, .error _ => .broken p
  | .wrote p _ _, .commit (.persist _) _, .error _ => .broken p
  | φ, _, _ => φ

/-- A task has looked at the state with `status`, or had before. -/
theorem Hold.of_next_looked {φ : Hold} {o : Op} {a : o.Ans} {p : String} {st : ProviderState}
    {now : Time} (h : φ.next o a = .looked p st now) :
    φ = .looked p st now ∨ ∃ q, o = .stateNow q := by
  unfold Hold.next at h
  split at h
  case h_5 q _ => exact .inr ⟨q, rfl⟩
  case h_10 => exact .inl h
  all_goals cases h

variable (cfg : Settings)

/-- The changes of a state the breaker makes. -/
def Changes (st : ProviderState) (now : Time) (st' : ProviderState) : Prop :=
  (CircuitBreaker.status cfg.circuitBreaker st now = .halfOpen ∧
    st.halfOpenProbes < (cfg.circuitBreaker.halfOpenMaxProbes : ℕ) ∧ st' = claimed st) ∨
  st' = CircuitBreaker.succeeded st now ∨ st' = CircuitBreaker.failed cfg.circuitBreaker st now

/-- The operations in order in a phase. -/
def Hold.good : Hold → (o : Op) → o.Ans → Prop
  | φ, .acquire (.breaker _), _ => φ = .free
  | φ, .unlock (.breaker p), _ => φ.lock = some p
  | φ, .stateNow p, _ => φ = .free ∨ φ = .locked p
  | φ, .setState p st', _ => ∃ st now, φ = .looked p st now ∧ Changes cfg st now st'
  | φ, .state p, _ => ∃ probe row, φ = .wrote p probe row
  | φ, .commit _ ss, _ => ∀ p row, .putProviderState p row ∈ ss → ∃ probe,
      φ = .wrote p probe (some row)
  | φ, .select .load _, _ => φ = .free
  | φ, .loadStates rows, _ => φ = .loaded rows
  | _, _, _ => True

/-- The protocol of the breaker's lock. -/
def breakerProtocol : Protocol Op Op.Ans Job Hold where
  idle := .free
  enter _ := .free
  next := Hold.next
  good := Hold.good cfg

/-- Giving the lock back in this phase is the end of a `begin_probe` that returns `True`. -/
def Hold.lets : Hold → Bool
  | .looked _ st now => CircuitBreaker.status cfg.circuitBreaker st now = .closed
  | .wrote _ probe _ => probe
  | _ => false

/-! ### The calls -/

/-- An operation that is no part of the breaker. -/
def Op.unbroken (o : Op) : Prop := ∀ a, Hold.good cfg .free o a ∧ Hold.next .free o a = .free

variable {cfg}

/-- Statements on other tables persist no state. -/
theorem commit_unbroken {site : Site} {ss : List Stmt} {t : Table} (ht : t ≠ .breaker)
    (h : ∀ s ∈ ss, s.table = t) : (Op.commit site ss).unbroken cfg := by
  intro a
  refine ⟨fun p row hs => ?_, by cases site <;> rfl⟩
  exact absurd (h _ hs).symm ht

theorem select_unbroken {site : Site} {q : Query} (h : q ≠ .providerStates) :
    (Op.select site q).unbroken cfg := by
  intro a
  cases q with
  | providerStates => exact absurd rfl h
  | _ => cases site <;> first | exact ⟨trivial, rfl⟩ | exact ⟨rfl, rfl⟩

theorem unbroken_of_limiter {o : Op} (h : o.ofLimiter) : o.unbroken cfg := by
  cases o with
  | acquire l => cases l <;> first | exact fun _ => ⟨trivial, rfl⟩ | exact h.elim
  | unlock l => cases l <;> first | exact fun _ => ⟨trivial, rfl⟩ | exact h.elim
  | select site q => cases q <;> first | exact h.elim | exact select_unbroken (by simp)
  | commit site ss => exact commit_unbroken (by decide) h.2
  | call c => exact fun _ => ⟨trivial, rfl⟩
  | _ => first | exact fun _ => ⟨trivial, rfl⟩ | exact h.elim

theorem unbroken_of_others {o : Op} (h : o.ofOthers) : o.unbroken cfg := by
  cases o with
  | select site q => cases q <;> first | exact h.elim | exact select_unbroken (by simp)
  | commit site ss => exact commit_unbroken (by decide) h.2
  | _ => first | exact fun _ => ⟨trivial, rfl⟩ | exact h.elim

theorem unbroken_of_record {o : Op} (h : o.ofRecord) : o.unbroken cfg := by
  cases o with
  | commit site ss => exact commit_unbroken (by decide) h.2
  | _ => first | exact fun _ => ⟨trivial, rfl⟩ | exact h.elim

/-- A call without the breaker. -/
theorem whole_of_unbroken {α : Type} {S : Op → Prop} (hS : ∀ o, S o → o.unbroken cfg) {t : Act α}
    (h : t.Uses S) : t.Whole (breakerProtocol cfg) := (h.mono hS).whole

/-- Persisting the state a task has just written. -/
theorem follows_persist (by_ : BreakerOp) (p : String) (probe : Bool) :
    (CircuitBreaker.persist by_ p).Follows (breakerProtocol cfg)
      (fun r φ => match r with
        | .ok _ => ∃ row, φ = .wrote p probe row
        | .error _ => φ = .broken p) (.wrote p probe none) := by
  refine follows_query (fun row => ⟨trivial, ?_⟩) fun e => ⟨trivial, rfl⟩
  refine follows_perform fun st => ⟨⟨probe, none, rfl⟩, ?_⟩
  have inOrder : ∀ a : Except Exc ℕ, (breakerProtocol cfg).good (.wrote p probe (some st))
      (.commit (.persist by_) [.putProviderState p st]) a := by
    intro a q row hs
    rw [List.mem_singleton] at hs
    cases hs
    exact ⟨probe, rfl⟩
  exact follows_commit (fun id => ⟨inOrder _, some st, rfl⟩) fun e => ⟨inOrder _, rfl⟩

theorem whole_change (by_ : BreakerOp) (p : String) (f : ProviderState → Time → ProviderState)
    (hf : ∀ st now, Changes cfg st now (f st now)) :
    (withLock (.breaker p) do
      let (st, now) ← perform (.stateNow p)
      perform (.setState p (f st now))
      CircuitBreaker.persist by_ p).Whole (breakerProtocol cfg) := by
  refine follows_withLock rfl (follows_perform fun x => ⟨.inr rfl, ?_⟩)
  refine follows_perform fun _ => ⟨⟨x.1, x.2, rfl, hf x.1 x.2⟩, ?_⟩
  refine (follows_persist by_ p _).mono ?_
  intro r φ hr
  cases r with
  | ok a =>
    obtain ⟨row, rfl⟩ := hr
    exact ⟨rfl, rfl⟩
  | error e =>
    obtain rfl := hr
    exact ⟨rfl, rfl⟩

theorem whole_isAvailable (p : String) :
    (CircuitBreaker.isAvailable cfg.circuitBreaker p).Whole (breakerProtocol cfg) :=
  follows_perform fun _ => ⟨.inl rfl, rfl⟩

theorem whole_load : CircuitBreaker.load.Whole (breakerProtocol cfg) := by
  refine follows_query (fun rows => ⟨rfl, ?_⟩) fun e => ⟨rfl, rfl⟩
  refine follows_perform fun _ => ⟨rfl, ?_⟩
  exact follows_commit (fun _ => ⟨fun _ _ hs => (by cases hs), rfl⟩)
    fun _ => ⟨fun _ _ hs => (by cases hs), rfl⟩

theorem whole_recordSuccess (p : String) :
    (CircuitBreaker.recordSuccess p).Whole (breakerProtocol cfg) :=
  follows_perform fun _ => ⟨trivial, whole_change .recordSuccess p _ fun _ _ => .inr (.inl rfl)⟩

theorem whole_recordFailure (p : String) :
    (CircuitBreaker.recordFailure cfg.circuitBreaker p).Whole (breakerProtocol cfg) :=
  follows_perform fun _ => ⟨trivial, whole_change .recordFailure p _ fun _ _ => .inr (.inr rfl)⟩

theorem whole_beginProbe (p : String) :
    (CircuitBreaker.beginProbe cfg.circuitBreaker p).Whole (breakerProtocol cfg) := by
  refine follows_withLock rfl (follows_perform fun x => ⟨.inr rfl, ?_⟩)
  obtain ⟨st, now⟩ := x
  show Follows (breakerProtocol cfg) _ _ (.looked p st now)
  simp only
  split
  · exact ⟨rfl, rfl⟩
  · exact ⟨rfl, rfl⟩
  · rename_i halfOpen
    split
    · exact ⟨rfl, rfl⟩
    · rename_i room
      refine follows_perform fun _ =>
        ⟨⟨st, now, rfl, .inl ⟨halfOpen, Nat.lt_of_not_le room, rfl⟩⟩, ?_⟩
      refine Follows.bind (follows_persist .beginProbe p _) ?_ ?_
      · rintro _ φ ⟨row, rfl⟩
        exact ⟨rfl, rfl⟩
      · rintro e φ hφ
        obtain rfl : φ = .broken p := hφ
        exact ⟨rfl, rfl⟩

theorem breaker_callsWhole : CallsWhole cfg (breakerProtocol cfg) where
  others _ ho := unbroken_of_others ho
  recordAttempt _ _ _ _ _ :=
    whole_of_unbroken (fun _ => unbroken_of_record) (tame_recordAttempt _ _ _ _ _).uses
  relay _ _ _ _ _ _ := ⟨trivial, whole_ofExcept _⟩
  requeueNow _ := Whole.handle
    (follows_flush ⟨trivial, follows_commit
      (fun _ => ⟨fun _ _ hs => (by simp at hs), rfl⟩) fun _ => ⟨fun _ _ hs => (by simp at hs), rfl⟩⟩
      fun _ => ⟨trivial, rfl⟩) fun e => follows_swallow e fun _ => rfl
  tryReserve p := by
    cases hc : cfg.provider p with
    | none =>
      unfold RateLimiter.tryReserve
      rw [hc]
      exact rfl
    | some c =>
      exact whole_of_unbroken (fun _ => unbroken_of_limiter)
        (RateLimiter.tame_tryReserve cfg hc).uses
  commit r := whole_of_unbroken (fun _ => unbroken_of_limiter)
    (RateLimiter.tame_commitReservation r).uses
  release by_ r := whole_of_unbroken (fun _ => unbroken_of_limiter)
    (RateLimiter.tame_release by_ r).uses
  prune := whole_of_unbroken (fun _ => unbroken_of_limiter) (RateLimiter.tame_prune cfg).uses
  load := whole_load
  isAvailable := whole_isAvailable
  beginProbe := whole_beginProbe
  recordSuccess := whole_recordSuccess
  recordFailure := whole_recordFailure

/-! ### Who is let through -/

/-- The operations after which `begin_probe` has let its caller through to `p`. -/
def LetThrough (cfg : Settings) (p : String) (evs : Events) : Prop :=
  ∃ pre a, evs = pre ++ [⟨.unlock (.breaker p), a⟩] ∧
    ((breakerProtocol cfg).after .free pre).lets cfg = true

/-- `begin_probe` returns `True` in a phase that lets its caller through. -/
theorem lets_of_beginProbe {p : String} {evs : Events}
    (h : (CircuitBreaker.beginProbe cfg.circuitBreaker p).Path evs (.ok true)) :
    LetThrough cfg p evs := by
  obtain ⟨⟨⟩, rest, rfl, hrest⟩ := h
  obtain ⟨pre, a, rfl, ⟨st, now⟩, body, rfl, h⟩ := path_finally_op.mp hrest
  refine ⟨⟨.acquire (.breaker p), ()⟩ :: ⟨.stateNow p, (st, now)⟩ :: body, a, rfl, ?_⟩
  show (((breakerProtocol cfg).after (.looked p st now) body).lets cfg) = true
  simp only [ret_bind] at h
  split at h
  · rename_i closed
    obtain ⟨rfl, -⟩ := h
    exact decide_eq_true closed
  · cases h.2
  · split at h
    · cases h.2
    obtain ⟨⟨⟩, rest, rfl, h⟩ := h
    have persisted : ((CircuitBreaker.persist .beginProbe p).bind fun _ => ret true).Path rest
      (.ok true) := h
    rcases path_bind.mp persisted with ⟨e, he, -⟩ | ⟨pre, x, post, rfl, hp, rfl, -⟩
    · cases he
    obtain ⟨probe, row, hrow⟩ : ∃ probe row, (breakerProtocol cfg).after
        (.wrote p (decide (claimed st = claimed st)) none) pre = .wrote p probe row ∧
          probe = true := by
      obtain ⟨row, hrow⟩ := ((follows_persist .beginProbe p _).path hp).2
      exact ⟨_, row, hrow, decide_eq_true rfl⟩
    rw [List.append_nil]
    show ((breakerProtocol cfg).after (.wrote p (decide (claimed st = claimed st)) none) pre).lets
      cfg = true
    rw [hrow.1]
    exact hrow.2

/-- Every decision of the router comes from a `begin_probe` that has let it through. -/
theorem lets_of_selectFrom {exclude : List String} {d : RouteDecision} :
    ∀ {ps : List ProviderConfig} {evs : Events},
      (selectFrom cfg exclude ps).Path evs (.ok (some d)) → LetThrough cfg d.provider evs
  | [], _, h => by cases h.2
  | p :: rest, evs, h => by
    -- what comes first leaves the task free
    have after : ∀ {α : Type} {t : Act α} {pre post : Events} {r : Except Exc α},
        t.Whole (breakerProtocol cfg) → t.Path pre r → LetThrough cfg d.provider post →
          LetThrough cfg d.provider (pre ++ post) := by
      rintro α t pre _ r hw ht ⟨pre', a, rfl, lets⟩
      refine ⟨pre ++ pre', a, (List.append_assoc _ _ _).symm, ?_⟩
      have free : (breakerProtocol cfg).after .free pre = .free := (Follows.path hw ht).2
      rw [Protocol.after_append, free]
      exact lets
    have calls : CallsWhole cfg (breakerProtocol cfg) := breaker_callsWhole
    unfold selectFrom at h
    split at h
    · exact lets_of_selectFrom h
    rcases path_bind.mp h with ⟨e, he, -⟩ | ⟨pre, up, post, rfl, hup, h⟩
    · cases he
    refine after (calls.isAvailable p.name) hup ?_
    split at h
    · rcases path_bind.mp h with ⟨e, he, -⟩ | ⟨pre, r, post, rfl, hr, h⟩
      · cases he
      refine after (calls.tryReserve p.name) hr ?_
      cases r with
      | none => exact lets_of_selectFrom h
      | some r =>
        rcases path_bind.mp h with ⟨e, he, -⟩ | ⟨pre, ok, post, rfl, hok, h⟩
        · cases he
        split at h
        · rename_i through
          obtain ⟨rfl, hd⟩ := h
          cases hd
          rw [List.append_nil]
          rw [through] at hok
          exact lets_of_beginProbe hok
        · refine after (calls.beginProbe p.name) hok ?_
          rcases path_bind.mp h with ⟨e, he, -⟩ | ⟨pre, x, post, rfl, hx, h⟩
          · cases he
          · exact after (calls.release .select r) hx (lets_of_selectFrom h)
    · exact lets_of_selectFrom h

theorem lets_of_select {exclude : List String} {d : RouteDecision} {evs : Events}
    (h : (select cfg exclude).Path evs (.ok (some d))) : LetThrough cfg d.provider evs := by
  obtain ⟨overrides, rest, rfl, h⟩ := h
  obtain ⟨pre, a, rfl, lets⟩ := lets_of_selectFrom h
  exact ⟨⟨.overrides, overrides⟩ :: pre, a, rfl, lets⟩

/-! ### What a task may rely on -/

variable (cfg) in
/-- What task `i` may rely on in a phase: it has the lock, and the state is what it has looked at or
written. -/
def Hold.Holds (i : ℕ) (w : World) : Hold → Prop
  | .free | .loaded _ => True
  | .locked p | .broken p => w.locks (.breaker p) = some i
  | .looked p st now => w.locks (.breaker p) = some i ∧ w.state p = st ∧ now ≤ w.clock
  | .wrote p probe row => w.locks (.breaker p) = some i ∧ (∀ st, row = some st → st = w.state p) ∧
    (probe = true → CircuitBreaker.status cfg.circuitBreaker (w.state p) w.clock = .halfOpen)

/-- Only the holder of a lock has something to rely on. -/
theorem Hold.Holds.lock {i : ℕ} {w : World} {φ : Hold} {p : String} (h : φ.Holds cfg i w)
    (hp : φ.lock = some p) : w.locks (.breaker p) = some i := by
  cases φ <;> cases hp
  · exact h
  · exact h.1
  · exact h.1
  · exact h

/-- It may rely on it as long as the lock and the state of its provider stay. -/
theorem Hold.Holds.mono {i : ℕ} {w w' : World} {φ : Hold} (h : φ.Holds cfg i w)
    (hlock : ∀ p, φ.lock = some p → w'.locks (.breaker p) = w.locks (.breaker p))
    (hstate : ∀ p, φ.lock = some p → w'.state p = w.state p) (hclock : w.clock ≤ w'.clock) :
    φ.Holds cfg i w' := by
  cases φ with
  | free => trivial
  | loaded rows => trivial
  | locked p => exact (hlock p rfl).trans h
  | broken p => exact (hlock p rfl).trans h
  | looked p st now =>
    exact ⟨(hlock p rfl).trans h.1, (hstate p rfl).trans h.2.1, h.2.2.trans hclock⟩
  | wrote p probe row =>
    obtain ⟨locked, read, halfOpen⟩ := h
    refine ⟨(hlock p rfl).trans locked, fun st hst => ?_, fun hprobe => ?_⟩
    · rw [hstate p rfl]
      exact read st hst
    · rw [hstate p rfl]
      exact CircuitBreaker.status_halfOpen_mono hclock (halfOpen hprobe)

/-- Every task may rely on its phase. -/
def LocksHeld (cfg : Settings) (x : Moment) : Prop :=
  ∀ i, ((breakerProtocol cfg).phase x.trace i).Holds cfg i x.shared

namespace LocksHeld

variable {w w' : World} {tr : List (Entry Op Op.Ans Job ℚ)} {i : ℕ} {o : Op}
  {a : o.Ans} {c : Choice}

/-- An operation in order leaves alone what other tasks rely on. -/
theorem holds_others (h : LocksHeld cfg ⟨w, tr⟩) (he : exec cfg i o c w = some (a, w'))
    (hg : ((breakerProtocol cfg).phase tr i).good cfg o a) (hl : ∀ rows, o ≠ .loadStates rows)
    {k : ℕ} (hk : k ≠ i) : ((breakerProtocol cfg).phase tr k).Holds cfg k w' := by
  have frame := exec_frame cfg he
  have holds := h k
  refine holds.mono (fun p hp => ?_) (fun p hp => ?_) (le_of_eq frame.clock.symm)
  · have mine : w.locks (.breaker p) = some k := holds.lock hp
    cases o with
    | acquire l =>
      obtain ⟨unlocked, rfl⟩ := exec_acquire he
      refine Function.update_of_ne ?_ _ _
      rintro rfl
      rw [unlocked] at mine
      cases mine
    | unlock l =>
      obtain rfl := exec_unlock he
      refine Function.update_of_ne ?_ _ _
      rintro rfl
      have yours := (h i).lock (show ((breakerProtocol cfg).phase tr i).lock = some p from hg)
      have : some k = some i := mine.symm.trans yours
      exact hk (Option.some.inj this)
    | _ => exact congrFun (frame.locks (by simp [Op.part])) _
  · have mine : w.locks (.breaker p) = some k := holds.lock hp
    cases o with
    | setState q st =>
      obtain rfl := exec_setState he
      rw [World.state_update, if_neg]
      rintro rfl
      obtain ⟨st₀, now, hφ, -⟩ := hg
      have yours := (h i).lock (by rw [show (breakerProtocol cfg).phase tr i = _ from hφ]; rfl)
      have : some k = some i := mine.symm.trans yours
      exact hk (Option.some.inj this)
    | loadStates rows => exact absurd rfl (hl rows)
    | _ => exact congrArg (fun st => (st p).getD {}) (frame.states (by simp [Op.part]))

/-- A change that claims a probe claims it of a half-open breaker with room for it. -/
theorem of_claimed {st : ProviderState} {now : Time} (h : Changes cfg st now (claimed st)) :
    CircuitBreaker.status cfg.circuitBreaker st now = .halfOpen ∧
      st.halfOpenProbes < (cfg.circuitBreaker.halfOpenMaxProbes : ℕ) := by
  rcases h with ⟨halfOpen, room, -⟩ | h | h
  · exact ⟨halfOpen, room⟩
  · have := congrArg ProviderState.halfOpenProbes h
    cases this
  · have one_more : (CircuitBreaker.failed cfg.circuitBreaker st now).consecutiveFailures =
        st.consecutiveFailures + 1 := by
      unfold CircuitBreaker.failed
      simp only
      split
      · rfl
      split <;> rfl
    have same : st.consecutiveFailures = st.consecutiveFailures + 1 :=
      (congrArg ProviderState.consecutiveFailures h).trans one_more
    omega

/-- An operation in order leads to a phase the task may rely on. -/
theorem holds_next (h : LocksHeld cfg ⟨w, tr⟩) (he : exec cfg i o c w = some (a, w'))
    (hg : ((breakerProtocol cfg).phase tr i).good cfg o a) (hl : ∀ rows, o ≠ .loadStates rows) :
    (((breakerProtocol cfg).phase tr i).next o a).Holds cfg i w' := by
  have frame := exec_frame cfg he
  have holds : ((breakerProtocol cfg).phase tr i).Holds cfg i w := h i
  revert hg holds
  generalize (breakerProtocol cfg).phase tr i = φ
  intro hg holds
  -- an operation that changes neither locks nor states, and leaves the phase alone
  have stays : o.part ≠ some .locks → o.part ≠ some .states → φ.Holds cfg i w' := by
    intro hp hs
    refine holds.mono (fun p _ => congrFun (frame.locks hp) _) (fun p _ => ?_)
      (le_of_eq frame.clock.symm)
    exact congrArg (fun st => (st p).getD {}) (frame.states hs)
  have other : ∀ q p : String, Lock.breaker q ≠ Lock.limiter p := fun _ _ h => by cases h
  cases o with
  | acquire l =>
    obtain ⟨-, rfl⟩ := exec_acquire he
    cases l with
    | breaker p => exact Function.update_self _ _ _
    | limiter p =>
      have same : φ.next (.acquire (.limiter p)) a = φ := by cases φ <;> rfl
      rw [same]
      exact holds.mono (fun q _ => Function.update_of_ne (other q p) (some i) w.locks)
        (fun _ _ => rfl)
        le_rfl
  | unlock l =>
    obtain rfl := exec_unlock he
    cases l with
    | breaker p =>
      have free : φ.next (.unlock (.breaker p)) a = .free := by cases φ <;> rfl
      rw [free]
      trivial
    | limiter p =>
      have same : φ.next (.unlock (.limiter p)) a = φ := by cases φ <;> rfl
      rw [same]
      exact holds.mono (fun q _ => Function.update_of_ne (other q p) none w.locks)
        (fun _ _ => rfl) le_rfl
  | stateNow p =>
    obtain ⟨rfl, rfl⟩ := exec_stateNow he
    rcases hg with rfl | rfl
    · trivial
    · exact ⟨holds, rfl, le_rfl⟩
  | setState p st' =>
    obtain rfl := exec_setState he
    obtain ⟨st, now, rfl, change⟩ := hg
    obtain ⟨locked, -, le⟩ := holds
    refine ⟨locked, fun _ hst => (by cases hst), fun hprobe => ?_⟩
    obtain rfl := of_decide_eq_true hprobe
    rw [World.state_update, if_pos rfl]
    show CircuitBreaker.status cfg.circuitBreaker st w.clock = .halfOpen
    exact CircuitBreaker.status_halfOpen_mono le (of_claimed change).1
  | state p =>
    obtain ⟨rfl, rfl⟩ := exec_state he
    obtain ⟨probe, row, rfl⟩ := hg
    exact ⟨holds.1, fun st hst => (by cases hst; rfl), holds.2.2⟩
  | loadStates rows => exact absurd rfl (hl rows)
  | select site q =>
    have le := stays (by simp [Op.part]) (by simp [Op.part])
    cases site with
    | load =>
      obtain rfl : φ = .free := hg
      cases q with
      | providerStates => cases a <;> trivial
      | _ => trivial
    | persist by_ =>
      cases φ with
      | wrote p probe row =>
        cases a with
        | error e => exact le.1
        | ok a => cases q <;> exact le
      | _ => cases q <;> exact le
    | _ => cases φ <;> cases q <;> exact le
  | commit site ss =>
    have le := stays (by simp [Op.part]) (by simp [Op.part])
    cases site with
    | persist by_ =>
      cases φ with
      | wrote p probe row =>
        cases a with
        | error e => exact le.1
        | ok a => exact le
      | _ => exact le
    | _ => cases φ <;> exact le
  | _ => cases φ <;> exact stays (by simp [Op.part]) (by simp [Op.part])

/-- Every move that loads no rows keeps it. -/
theorem step {jobs : Job → Bool} {x x' : Moment} (h : LocksHeld cfg x)
    (hs : (system cfg jobs).Step (breakerProtocol cfg) x x')
    (hl : ∀ i rows a, x'.trace ≠ .did i (.loadStates rows) a :: x.trace) : LocksHeld cfg x' := by
  intro k
  cases hs with
  | start ha hi =>
    rw [Protocol.phase_start_idle rfl hi]
    exact h k
  | @env w tr d =>
    exact (h k).mono (fun _ _ => rfl) (fun _ _ => rfl) (le_add_of_nonneg_right (le_max_right _ _))
  | crash => trivial
  | @did w w' tr i o c a he hg =>
    have he : exec cfg i o c w = some (a, w') := he
    have noLoad : ∀ rows, o ≠ .loadStates rows := by
      rintro rows rfl
      exact hl i rows a rfl
    by_cases hk : k = i
    · subst hk
      show ((breakerProtocol cfg).phase (.did k o a :: tr) k).Holds cfg k w'
      rw [Protocol.phase_did, Function.update_self]
      exact h.holds_next he hg noLoad
    · show ((breakerProtocol cfg).phase (.did i o a :: tr) k).Holds cfg k w'
      rw [Protocol.phase_did, Function.update_of_ne hk]
      exact h.holds_others he hg noLoad hk

end LocksHeld

end SmtpSwitch
