import SmtpSwitch.Limits.Quota

/-!
# The reservations of a call

Where a task is in a call of the limiter that changes the books: between the commit of
`try_reserve` and the reservation it grants, and between the call of `commit` or `release`
and the slot and the charge it gives back (`dealing`).
-/

namespace SmtpSwitch

open Coop Coop.Prog

/-- Where a task is in a call of the limiter. -/
inductive Dealing where
  | outside
  /-- `try_reserve` has charged these counters of `p`. -/
  | charged (p : String) (keys : List QuotaKey)
  /-- It has taken the slot, too. -/
  | taken (p : String) (keys : List QuotaKey)
  /-- `r` is committed, or released. -/
  | settling (r : Reservation) (released : Bool)
  /-- `r` is released, and its slot is given back. -/
  | refunding (r : Reservation)
  deriving DecidableEq

/-- The phase after an operation. -/
def Dealing.next : Dealing → (o : Op) → o.Ans → Dealing
  | .outside, .commit _ (.insertSendLog p t :: ss), .ok _ =>
      .charged p (quotaKeys (.insertSendLog p t :: ss))
  | .charged p keys, .incInflight _, _ => .taken p keys
  | .taken _ _, .call (.granted _), _ => .outside
  | .outside, .call (.commit r), _ => .settling r false
  | .outside, .call (.release r), _ => .settling r true
  | .settling r released, .decInflight _, _ => if released then .refunding r else .outside
  | .refunding _, .commit _ _, .ok _ => .outside
  -- the call has raised
  | .refunding _, .unlock _, _ => .outside
  | φ, _, _ => φ

/-- The operations in order in a phase. -/
def Dealing.good : Dealing → (o : Op) → o.Ans → Prop
  | φ, .commit _ ss, _ =>
    match entering ss with
    | .charge => φ = .outside
    | .refund => ∃ r, φ = .refunding r ∧ quotaKeys ss = r.keys
    | .neither => φ = .outside ∧ quotaKeys ss = []
  | φ, .incInflight p, _ => ∃ keys, φ = .charged p keys
  | φ, .decInflight p, _ => ∃ r released, φ = .settling r released ∧ r.provider = p
  | φ, .call (.granted r), _ => φ = .taken r.provider r.keys
  | φ, .call (.commit _), _ | φ, .call (.release _), _ => φ = .outside
  | _, _, _ => True

/-- The protocol of the books. -/
def dealing : Protocol Op Op.Ans Job Dealing where
  idle := .outside
  enter _ := .outside
  next := Dealing.next
  good := Dealing.good

/-! ### The code keeps to it -/

/-- An operation that means nothing to the books. -/
def Op.bookFree : Op → Prop
  | .commit _ _ | .incInflight _ | .decInflight _ | .unlock _ => False
  | .call (.granted _) | .call (.commit _) | .call (.release _) => False
  | _ => True

theorem dealing_bookFree {o : Op} (h : o.bookFree) (φ : Dealing) (a : o.Ans) :
    φ.good o a ∧ φ.next o a = φ := by
  cases o with
  | commit site ss => exact h.elim
  | incInflight p => exact h.elim
  | decInflight p => exact h.elim
  | unlock l => exact h.elim
  | call c => cases c <;> first | exact h.elim | (cases φ <;> exact ⟨trivial, rfl⟩)
  | _ => cases φ <;> exact ⟨trivial, rfl⟩

/-- Nothing of this changes the books of an idle task. -/
theorem dealing_outside {site : Site} {ss : List Stmt} (h : entering ss = .neither ∧
    quotaKeys ss = [])
    (a : Except Exc ℕ) : Dealing.good .outside (.commit site ss) a ∧
      Dealing.next .outside (.commit site ss) a = .outside := by
  refine ⟨by simp [Dealing.good, h.1, h.2], ?_⟩
  cases ss with
  | nil => rfl
  | cons s ss =>
    cases s with
    | insertSendLog p t => cases h.1
    | _ => rfl

theorem dealing_ofOthers {o : Op} (h : o.ofOthers) (a : o.Ans) :
    Dealing.good .outside o a ∧ Dealing.next .outside o a = .outside := by
  cases o with
  | commit site ss => exact dealing_outside (entering_of_table (by decide) h.2) a
  | incInflight p => exact h.elim
  | decInflight p => exact h.elim
  | unlock l => exact h.elim
  | call c => exact h.elim
  | _ => exact ⟨trivial, rfl⟩

theorem dealing_ofBreaker {o : Op} (h : o.ofBreaker) (a : o.Ans) :
    Dealing.good .outside o a ∧ Dealing.next .outside o a = .outside := by
  cases o with
  | commit site ss => exact dealing_outside (entering_of_table (by decide) h.2) a
  | incInflight p => exact h.elim
  | decInflight p => exact h.elim
  | call c => cases c <;> first | exact h.elim | exact ⟨trivial, rfl⟩
  | _ => exact ⟨trivial, rfl⟩

variable (cfg : Settings) {α β : Type} {φ : Dealing}

theorem bookFree_of_lookup {site : Site} {o : Op} (h : o.ofLookup site) : o.bookFree := by
  cases o <;> trivial

/-- A lookup leaves the books alone. -/
theorem follows_lookup_then {site : Site} {R : α → Prop} {t : Act α} {f : α → Act β}
    {Q : Except Exc β → Dealing → Prop} (h : t.Tame Op.fails (Op.ofLookup site) R)
    (hf : ∀ a, R a → (f a).Follows dealing Q φ) (he : ∀ e, Q (.error e) φ) :
    (t >>= f).Follows dealing Q φ := by
  have unconcerned : Unconcerned dealing Op.fails (Op.ofLookup site) φ φ := by
    refine ⟨fun o ho a => (dealing_bookFree (bookFree_of_lookup ho) φ a).1, fun o ho a => ?_,
      fun o ho a _ => (dealing_bookFree (bookFree_of_lookup ho) φ a).1, fun o ho a _ => ?_⟩
    · rw [ite_self]
      exact (dealing_bookFree (bookFree_of_lookup ho) φ a).2
    · exact (dealing_bookFree (bookFree_of_lookup ho) φ a).2
  refine Follows.bind (h.follows unconcerned) ?_ ?_
  · rintro a χ ⟨rfl, ha⟩
    exact hf a ha
  · rintro e χ rfl
    exact he e

/-- What the session of `try_reserve` leaves the task with. -/
def Charged (p : String) : Except Exc (Option (ℕ × Option String × Option String)) → Dealing → Prop
  | .ok (some (id, dayKey, monthKey)), χ =>
    χ = .charged p (Reservation.keys ⟨p, id, dayKey, monthKey, 0⟩)
  | _, χ => χ = .outside

theorem follows_refuse_dealing {p : String} :
    (RateLimiter.refuse : Act (Option _)).Follows dealing (Charged p) .outside :=
  follows_commit (fun _ => ⟨⟨rfl, rfl⟩, rfl⟩) fun _ => ⟨⟨rfl, rfl⟩, rfl⟩

theorem follows_reserveRow_dealing (p : String) (limits : ProviderLimits) (now : Time) :
    (RateLimiter.reserveRow p limits now).Follows dealing (Charged p) .outside := by
  refine follows_lookup_then (RateLimiter.tame_slidingCounts _ _ _) (fun counts _ =>
    ?_) fun e => rfl
  split
  · exact follows_refuse_dealing
  refine follows_lookup_then (RateLimiter.tame_quotaRoom _ _) (fun day hday => ?_) fun e => rfl
  split
  · exact follows_refuse_dealing
  refine follows_lookup_then (RateLimiter.tame_quotaRoom _ _) (fun month hmonth => ?_) fun e => rfl
  split
  · exact follows_refuse_dealing
  refine follows_flush ⟨trivial, ?_⟩ fun e => ⟨trivial, rfl⟩
  refine follows_lookup_then (RateLimiter.tame_bumpRoom _) (fun ds hds => ?_) fun e => rfl
  refine follows_lookup_then (RateLimiter.tame_bumpRoom _) (fun ms hms => ?_) fun e => rfl
  refine follows_commit (fun id => ⟨rfl, ?_⟩) fun e => ⟨rfl, rfl⟩
  -- the counters the session has written are the ones the reservation names
  have keys : quotaKeys (.insertSendLog p now :: (ds ++ ms)) =
      Reservation.keys ⟨p, id, day.periodKey, month.periodKey, 0⟩ := by
    rw [quotaKeys, List.filterMap_cons_none rfl, List.filterMap_append, hds.2, hms.2,
      room_keys hday, room_keys hmonth]
    rfl
  exact congrArg (Dealing.charged p) keys

/-- A lock does not matter, but that a refund that has raised is over with it. -/
theorem follows_dealing_lock {l : Lock} {body : Act α}
    (h : body.Follows dealing (fun _ χ => χ = .outside ∨ ∃ r, χ = .refunding r) φ) :
    (withLock l body).Follows dealing (fun _ χ => χ = .outside) φ := by
  have acquired : dealing.next φ (.acquire l) () = φ :=
    (dealing_bookFree (o := .acquire l) trivial φ ()).2
  refine follows_withLock trivial ?_
  rw [acquired]
  refine h.mono ?_
  rintro r χ (rfl | ⟨r, rfl⟩)
  · exact ⟨trivial, rfl⟩
  · exact ⟨trivial, rfl⟩

theorem whole_tryReserve_dealing (p : String) : (RateLimiter.tryReserve cfg p).Whole dealing := by
  unfold RateLimiter.tryReserve
  split
  · exact rfl
  rename_i c hc
  refine follows_dealing_lock ?_
  refine follows_lookup_then (RateLimiter.tame_atCapacity _ _) (fun full _ => ?_) fun e => .inl rfl
  split
  · exact .inl rfl
  refine follows_perform fun now => ⟨trivial, ?_⟩
  refine Follows.bind (follows_reserveRow_dealing p _ _) ?_ ?_
  · intro row χ hχ
    cases row with
    | none => exact .inl hχ
    | some x =>
      obtain ⟨id, dayKey, monthKey⟩ := x
      obtain rfl : χ = _ := hχ
      exact follows_perform fun _ => ⟨⟨_, rfl⟩, follows_perform fun _ => ⟨rfl, .inl rfl⟩⟩
  · intro e χ hχ
    exact .inl hχ

theorem whole_commitReservation_dealing (r : Reservation) :
    (RateLimiter.commitReservation r).Whole dealing :=
  follows_perform fun _ => ⟨rfl, follows_dealing_lock fun _ => ⟨⟨r, false, rfl, rfl⟩, .inl rfl⟩⟩

theorem whole_release_dealing (by_ : Caller) (r : Reservation) :
    (RateLimiter.release by_ r).Whole dealing := by
  refine follows_perform fun _ => ⟨rfl, follows_dealing_lock ?_⟩
  refine follows_perform fun _ => ⟨⟨r, true, rfl, rfl⟩, ?_⟩
  have raised : ∀ e : Exc, (Except.error e : Except Exc Unit) = .error e ∧
      (Dealing.refunding r = .outside ∨ ∃ r', Dealing.refunding r = .refunding r') :=
    fun e => ⟨rfl, .inr ⟨r, rfl⟩⟩
  refine follows_flush ⟨trivial, ?_⟩ fun e => ⟨trivial, (raised e).2⟩
  refine follows_lookup_then (RateLimiter.tame_unbump _ _ _ _) (fun ds hds => ?_) fun e =>
    (raised e).2
  refine follows_lookup_then (RateLimiter.tame_unbump _ _ _ _) (fun ms hms => ?_) fun e =>
    (raised e).2
  have keys : quotaKeys (.deleteSendLog r.sendLogId :: (ds ++ ms)) = r.keys := by
    rw [quotaKeys, List.filterMap_cons_none rfl, List.filterMap_append, hds.2, hms.2]
    rfl
  exact follows_commit (fun id => ⟨⟨r, rfl, keys⟩, .inl rfl⟩) fun e =>
    ⟨⟨r, rfl, keys⟩, (raised e).2⟩

theorem whole_prune_dealing : (RateLimiter.prune cfg).Whole dealing := by
  unfold RateLimiter.prune
  split
  · exact rfl
  · exact follows_perform fun _ => ⟨trivial, follows_flush ⟨trivial, follows_commit
      (fun _ => ⟨⟨rfl, rfl⟩, rfl⟩) fun _ => ⟨⟨rfl, rfl⟩, rfl⟩⟩ fun _ => ⟨trivial, rfl⟩⟩

/-- Every call keeps to the protocol of the books. -/
theorem dealing_callsWhole : CallsWhole cfg dealing := by
  have breaker : ∀ {α : Type} {R : α → Prop} {t : Act α}, t.Tame Op.fails Op.ofBreaker R →
      t.Whole dealing := fun ht => (ht.uses.mono fun o ho a => dealing_ofBreaker ho a).whole
  exact {
    others := fun o ho a => dealing_ofOthers ho a
    recordAttempt := fun messageId attemptNo provider startedAt result =>
      follows_perform fun _ => ⟨trivial, follows_commit (fun _ => ⟨⟨rfl, rfl⟩, rfl⟩) fun _ =>
        ⟨⟨rfl, rfl⟩, rfl⟩⟩
    relay := fun c mailFrom rcptTos raw errand out => ⟨trivial, whole_ofExcept _⟩
    requeueNow := fun messageId => Whole.handle
      (follows_flush ⟨trivial, follows_commit (fun _ => ⟨⟨rfl, rfl⟩, rfl⟩) fun _ =>
        ⟨⟨rfl, rfl⟩, rfl⟩⟩
        fun _ => ⟨trivial, rfl⟩) fun e => follows_swallow e fun _ => rfl
    tryReserve := whole_tryReserve_dealing cfg
    commit := whole_commitReservation_dealing
    release := whole_release_dealing
    prune := whole_prune_dealing cfg
    load := breaker CircuitBreaker.tame_load
    isAvailable := fun p => breaker (CircuitBreaker.tame_isAvailable _ p)
    beginProbe := fun p => breaker (CircuitBreaker.tame_beginProbe _ p)
    recordSuccess := fun p => breaker (CircuitBreaker.tame_recordSuccess p)
    recordFailure := fun p => breaker (CircuitBreaker.tame_recordFailure _ p) }

end SmtpSwitch
