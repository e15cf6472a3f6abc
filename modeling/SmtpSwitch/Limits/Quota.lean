import SmtpSwitch.Coop.Ledger
import SmtpSwitch.Limits.Safety

/-!
# The quota counters and what the providers have accepted

A reservation is charged to its counters when it is granted, and the charge may
be taken back as long as the provider has not received the message. So a charge
is either still in the hands of the task that owes a message for it
(`ChargePhase`), or it stands for good. The account: what a provider has accepted
under a key and what the tasks still owe under it together never exceed the
counter (`QuotaInv`).

The account has one way to break. `relay` takes a lost connection for a message
that never reached the provider, and the charge is taken back even when the
provider had already accepted the message (`LostReply`).
-/

namespace SmtpSwitch

open Coop Coop.Prog

/-! ### Charges -/

/-- The period key of a scope. -/
def Reservation.periodKey (r : Reservation) : Scope → Option String
  | .day => r.dayKey
  | .month => r.monthKey

/-- The counters a reservation is charged to. -/
def Reservation.keys (r : Reservation) : List QuotaKey :=
  (r.dayKey.map (⟨r.provider, ·, .day⟩)).toList ++ (r.monthKey.map (⟨r.provider, ·, .month⟩)).toList

theorem Reservation.mem_keys {r : Reservation} {key : QuotaKey} :
    key ∈ r.keys ↔ key.provider = r.provider ∧ r.periodKey key.scope = some key.periodKey := by
  obtain ⟨p, k, scope⟩ := key
  cases scope <;> cases h : r.dayKey <;> cases h' : r.monthKey <;>
    simp [Reservation.keys, Reservation.periodKey, h, h'] <;> grind

/-- What a session is to the counters. -/
inductive Entering where
  /-- A grant. -/
  | charge
  /-- A refund. -/
  | refund
  | neither

/-- By its first statement. -/
def entering : List Stmt → Entering
  | .insertSendLog _ _ :: _ => .charge
  | .deleteSendLog _ :: _ => .refund
  | _ => .neither

/-- Whether a task owes a message. -/
inductive ChargePhase where
  | free
  /-- It has charged these counters, and may take the charge back. -/
  | owing (keys : List QuotaKey)

/-- The phase after an operation. -/
def ChargePhase.next : ChargePhase → (o : Op) → o.Ans → ChargePhase
  | φ, .commit _ ss, .ok _ =>
    match entering ss with
    | .charge => .owing (quotaKeys ss)
    | .refund => .free
    | .neither => φ
  | φ, .send .., out =>
    match resultOf out with
    | .ok r => if r.classification = .connectError then φ else .free
    | .error _ => .free
  -- the consumer's exception handler: what is owed is owed no more
  | _, .flush .requeueNow, _ => .free
  | φ, _, _ => φ

/-- The operations in order in a phase. -/
def ChargePhase.good : ChargePhase → (o : Op) → o.Ans → Prop
  | φ, .commit _ ss, _ =>
    match entering ss with
    | .charge => φ = .free
    | .refund => φ = .owing (quotaKeys ss)
    | .neither => quotaKeys ss = []
  | φ, .send p _ _ _ _ errand, _ =>
    p = errand.reservation.provider ∧ φ = .owing errand.reservation.keys
  | _, _, _ => True

/-- The protocol of the charges. -/
def chargeProtocol : Protocol Op Op.Ans Job ChargePhase where
  idle := .free
  enter _ := .free
  next := ChargePhase.next
  good := ChargePhase.good

/-! ### The code keeps to it -/

/-- In order in every phase, and without effect on it. -/
def ChargeFree (o : Op) : Prop := ∀ (φ : ChargePhase) a, φ.good o a ∧ φ.next o a = φ

theorem entering_of_table {ss : List Stmt} {t : Table} (ht : t ≠ .limits)
    (h : ∀ s ∈ ss, s.table = t) : entering ss = .neither ∧ quotaKeys ss = [] := by
  refine ⟨?_, ?_⟩
  · cases ss with
    | nil => rfl
    | cons s ss =>
      have := h s List.mem_cons_self
      cases s <;> simp_all [entering, Stmt.table]
  · rw [quotaKeys, List.filterMap_eq_nil_iff]
    intro s hs
    have := h s hs
    cases s <;> simp_all [Stmt.quotaKey, Stmt.table]

theorem chargeFree_commit {site : Site} {ss : List Stmt}
    (h : entering ss = .neither ∧ quotaKeys ss = []) : ChargeFree (.commit site ss) := by
  intro φ a
  cases a <;> simp [ChargePhase.good, ChargePhase.next, h.1, h.2]

theorem chargeFree_flush {site : Site} (h : site.plain = true) : ChargeFree (.flush site) := by
  intro φ a
  cases site <;> first | exact ⟨trivial, rfl⟩ | cases h

theorem chargeFree_ofOthers {o : Op} (h : o.ofOthers) : ChargeFree o := by
  cases o with
  | commit site ss => exact chargeFree_commit (entering_of_table (by decide) h.2)
  | flush site => exact chargeFree_flush h
  | send p kw sender rcpts msg errand => exact h.elim
  | _ => exact fun _ _ => ⟨trivial, rfl⟩

theorem chargeFree_ofBreaker {o : Op} (h : o.ofBreaker) : ChargeFree o := by
  cases o with
  | commit site ss => exact chargeFree_commit (entering_of_table (by decide) h.2)
  | flush site => exact h.elim
  | send p kw sender rcpts msg errand => exact h.elim
  | _ => exact fun _ _ => ⟨trivial, rfl⟩

theorem chargeFree_ofRecord {o : Op} (h : o.ofRecord) : ChargeFree o := by
  cases o with
  | commit site ss => exact chargeFree_commit (entering_of_table (by decide) h.2)
  | flush site => exact h.elim
  | send p kw sender rcpts msg errand => exact h.elim
  | _ => exact fun _ _ => ⟨trivial, rfl⟩

theorem chargeFree_ofLookup {site : Site} {o : Op} (h : o.ofLookup site) : ChargeFree o := by
  cases o with
  | commit site ss => exact h.elim
  | flush site => exact h.elim
  | send p kw sender rcpts msg errand => exact h.elim
  | _ => exact fun _ _ => ⟨trivial, rfl⟩

variable (cfg : Settings) {α β : Type} {φ : ChargePhase}

theorem unconcerned_charge {S : Op → Prop} (hS : ∀ o, S o → ChargeFree o) (φ : ChargePhase) :
    Unconcerned chargeProtocol Op.fails S φ φ where
  good o ho a := (hS o ho φ a).1
  next o ho a := by rw [ite_self]; exact (hS o ho φ a).2
  good' o ho a _ := (hS o ho φ a).1
  next' o ho a _ := (hS o ho φ a).2

/-- A lookup, a call of the breaker, anything else: the phase stays, and the result is in `R`. -/
theorem follows_tame {S : Op → Prop} (hS : ∀ o, S o → ChargeFree o) {R : α → Prop} {t : Act α}
    (h : t.Tame Op.fails S R) (φ : ChargePhase) :
    t.Follows chargeProtocol (Ended R φ φ) φ := h.follows (unconcerned_charge hS φ)

/-- The end of a call: after an exception the phase does not matter any more. -/
def Cleared (φ : α → ChargePhase) : Except Exc α → ChargePhase → Prop
  | .ok a, χ => χ = φ a
  | .error _, _ => True

theorem follows_cleared {S : Op → Prop} (hS : ∀ o, S o → ChargeFree o) {R : α → Prop} {t : Act α}
    (h : t.Tame Op.fails S R) {f : α → Act β} {ψ : β → ChargePhase} {φ : ChargePhase}
    (hf : ∀ a, R a → (f a).Follows chargeProtocol (Cleared ψ) φ) :
    (t >>= f).Follows chargeProtocol (Cleared ψ) φ := by
  refine Follows.bind (follows_tame hS h φ) ?_ fun _ _ _ => trivial
  rintro a χ ⟨rfl, ha⟩
  exact hf a ha

/-- A lock does not matter. -/
theorem follows_charge_lock {l : Lock} {body : Act α} {Q : Except Exc α → ChargePhase → Prop}
    (h : body.Follows chargeProtocol Q φ) : (withLock l body).Follows chargeProtocol Q φ :=
  follows_withLock trivial (h.mono fun _ _ hr => ⟨trivial, hr⟩)

/-- The charge a call of `try_reserve` leaves the task with. -/
def chargeOf : Option Reservation → ChargePhase
  | none => .free
  | some r => .owing r.keys

/-- The charge the session of `try_reserve` leaves the task with. -/
def rowCharge (p : String) : Option (ℕ × Option String × Option String) → ChargePhase
  | none => .free
  | some (id, dayKey, monthKey) => .owing (Reservation.keys ⟨p, id, dayKey, monthKey, 0⟩)

theorem follows_refuse_charge {p : String} :
    (RateLimiter.refuse : Act (Option _)).Follows chargeProtocol (Cleared (rowCharge p)) .free :=
  follows_commit (fun _ => ⟨rfl, rfl⟩) fun _ => ⟨rfl, trivial⟩

theorem room_keys {room : RateLimiter.QuotaRoom} {p k : String} {scope : Scope}
    (h : ∀ key row, room = .room key row → key = ⟨p, k, scope⟩) :
    room.keys = (room.periodKey.map (⟨p, ·, scope⟩)).toList := by
  cases room with
  | room key row =>
    obtain rfl := h key row rfl
    rfl
  | _ => rfl

theorem follows_reserveRow_charge (p : String) (limits : ProviderLimits) (now : Time) :
    (RateLimiter.reserveRow p limits now).Follows chargeProtocol (Cleared (rowCharge p)) .free := by
  have lookup := fun site o => @chargeFree_ofLookup site o
  refine follows_cleared (lookup _) (RateLimiter.tame_slidingCounts _ _ _) fun counts _ => ?_
  split
  · exact follows_refuse_charge
  refine follows_cleared (lookup _) (RateLimiter.tame_quotaRoom _ _) fun day hday => ?_
  split
  · exact follows_refuse_charge
  refine follows_cleared (lookup _) (RateLimiter.tame_quotaRoom _ _) fun month hmonth => ?_
  split
  · exact follows_refuse_charge
  refine follows_flush ⟨trivial, ?_⟩ fun e => ⟨trivial, trivial⟩
  refine follows_cleared (lookup _) (RateLimiter.tame_bumpRoom _) fun ds hds => ?_
  refine follows_cleared (lookup _) (RateLimiter.tame_bumpRoom _) fun ms hms => ?_
  refine follows_commit (fun id => ⟨rfl, ?_⟩) fun e => ⟨rfl, trivial⟩
  -- the counters the session has written are the ones the reservation names
  have keys : quotaKeys (.insertSendLog p now :: (ds ++ ms)) =
      Reservation.keys ⟨p, id, day.periodKey, month.periodKey, 0⟩ := by
    rw [quotaKeys, List.filterMap_cons_none rfl, List.filterMap_append, hds.2, hms.2,
      room_keys hday, room_keys hmonth]
    rfl
  exact congrArg ChargePhase.owing keys

/-- A call of `try_reserve` leaves the task owing exactly when it grants a reservation. -/
theorem follows_tryReserve_charge (p : String) :
    (RateLimiter.tryReserve cfg p).Follows chargeProtocol (Cleared chargeOf) .free := by
  unfold RateLimiter.tryReserve
  split
  · trivial
  rename_i c hc
  refine follows_charge_lock ?_
  refine follows_cleared (fun o => @chargeFree_ofLookup _ o) (RateLimiter.tame_atCapacity _ _)
    fun full _ => ?_
  split
  · exact rfl
  refine follows_perform fun now => ⟨trivial, ?_⟩
  refine Follows.bind (follows_reserveRow_charge p _ _) ?_ fun _ _ _ => trivial
  rintro row χ rfl
  cases row with
  | none => exact rfl
  | some x =>
    obtain ⟨id, dayKey, monthKey⟩ := x
    exact follows_perform fun _ => ⟨trivial, follows_perform fun _ => ⟨trivial, rfl⟩⟩

/-- A release takes back what is owed. -/
theorem follows_release_charge (by_ : Caller) (r : Reservation) :
    (RateLimiter.release by_ r).Follows chargeProtocol (Cleared fun _ => .free)
    (.owing r.keys) := by
  have lookup := fun site o => @chargeFree_ofLookup site o
  refine follows_perform fun _ => ⟨trivial, follows_charge_lock ?_⟩
  refine follows_perform fun _ => ⟨trivial, follows_flush ⟨trivial, ?_⟩ fun e => ⟨trivial, trivial⟩⟩
  refine follows_cleared (lookup _) (RateLimiter.tame_unbump _ _ _ _) fun ds hds => ?_
  refine follows_cleared (lookup _) (RateLimiter.tame_unbump _ _ _ _) fun ms hms => ?_
  have keys : quotaKeys (.deleteSendLog r.sendLogId :: (ds ++ ms)) = r.keys := by
    rw [quotaKeys, List.filterMap_cons_none rfl, List.filterMap_append, hds.2, hms.2]
    rfl
  refine follows_commit (fun id => ⟨?_, rfl⟩) fun e => ⟨?_, trivial⟩
  · exact congrArg ChargePhase.owing keys.symm
  · exact congrArg ChargePhase.owing keys.symm

theorem follows_commit_charge (r : Reservation) :
    (RateLimiter.commitReservation r).Follows chargeProtocol (Cleared fun _ => .free) .free := by
  refine Follows.mono ?_
    (follows_tame (S := Op.ofSlots) ?_ (RateLimiter.tame_commitReservation r) .free)
  · rintro (e | a) χ hχ
    · trivial
    · exact hχ.1
  · intro o ho
    cases o with
    | commit site ss => exact ho.elim
    | flush site => exact ho.elim
    | send p kw sender rcpts msg errand => exact ho.elim
    | _ => exact fun _ _ => ⟨trivial, rfl⟩

/-- The charge a routing decision leaves the task with. -/
def decisionCharge (d : Option RouteDecision) : ChargePhase :=
  chargeOf (d.map RouteDecision.reservation)

theorem follows_selectFrom_charge (exclude : List String) : ∀ ps,
    (selectFrom cfg exclude ps).Follows chargeProtocol (Cleared decisionCharge) .free
  | [] => rfl
  | p :: rest => by
    have breaker := fun o => @chargeFree_ofBreaker o
    have ih := follows_selectFrom_charge exclude rest
    unfold selectFrom
    split
    · exact ih
    refine follows_cleared breaker (CircuitBreaker.tame_isAvailable _ _) fun up _ => ?_
    split
    · refine Follows.bind (follows_tryReserve_charge cfg p.name) ?_ fun _ _ _ => trivial
      rintro r χ rfl
      cases r with
      | none => exact ih
      | some r =>
        refine follows_cleared breaker (CircuitBreaker.tame_beginProbe _ _) fun ok _ => ?_
        split
        · exact rfl
        · refine Follows.bind (follows_release_charge .select r) ?_ fun _ _ _ => trivial
          rintro _ χ rfl
          exact ih
    · exact ih

theorem follows_select_charge (exclude : List String) :
    (select cfg exclude).Follows chargeProtocol (Cleared decisionCharge) .free :=
  follows_perform fun _ => ⟨trivial, follows_selectFrom_charge cfg exclude _⟩

/-- What a relay leaves the task with: it owes only for a message that has not been received. -/
def relayCharge (r : Reservation) (result : RelayResult) : ChargePhase :=
  if result.classification = .connectError then .owing r.keys else .free

theorem follows_relay_charge (c : ProviderConfig) (mailFrom : String) (rcptTos : List String)
    (raw : Bytes) (errand : Errand) (h : c.name = errand.reservation.provider) :
    (relay c mailFrom rcptTos raw errand).Follows chargeProtocol
      (Cleared (relayCharge errand.reservation)) (.owing errand.reservation.keys) := by
  refine follows_perform fun out => ⟨⟨h, rfl⟩, ?_⟩
  change (ofExcept (resultOf out)).Follows _ _ (ChargePhase.next _ (.send ..) out)
  simp only [ChargePhase.next]
  cases resultOf out with
  | ok r => exact rfl
  | error e => trivial

theorem follows_settle_charge (d : RouteDecision) (k : Classification) :
    (settle cfg d k).Follows chargeProtocol (Cleared fun _ => .free)
      (if k = .connectError then .owing d.reservation.keys else .free) := by
  have breaker := fun o => @chargeFree_ofBreaker o
  have done {t : Act Unit} (ht : t.Tame Op.fails Op.ofBreaker fun _ => True) :
      t.Follows chargeProtocol (Cleared fun _ => .free) .free := by
    refine (follows_tame breaker ht .free).mono ?_
    rintro (e | a) χ hχ
    · trivial
    · exact hχ.1
  cases k with
  | connectError =>
    refine Follows.bind (follows_release_charge .process d.reservation) ?_ fun _ _ _ => trivial
    rintro _ χ rfl
    exact done (CircuitBreaker.tame_recordFailure _ _)
  | transient =>
    refine Follows.bind (follows_commit_charge d.reservation) ?_ fun _ _ _ => trivial
    rintro _ χ rfl
    exact done (CircuitBreaker.tame_recordFailure _ _)
  | sent =>
    refine Follows.bind (follows_commit_charge d.reservation) ?_ fun _ _ _ => trivial
    rintro _ χ rfl
    exact done (CircuitBreaker.tame_recordSuccess _)
  | permanent =>
    refine Follows.bind (follows_commit_charge d.reservation) ?_ fun _ _ _ => trivial
    rintro _ χ rfl
    exact done (CircuitBreaker.tame_recordSuccess _)

theorem follows_others_charge {t : Act Unit} (h : t.Tame Op.fails Op.ofOthers fun _ => True) :
    t.Follows chargeProtocol (Cleared fun _ => .free) .free := by
  refine (follows_tame (fun o => @chargeFree_ofOthers o) h .free).mono ?_
  rintro (e | a) χ hχ
  · trivial
  · exact hχ.1

theorem follows_failover_charge (messageId : ℕ) (snapshot : MsgSnapshot) (raw : Bytes) :
    ∀ n cycle, (failover cfg messageId snapshot raw n cycle).Follows chargeProtocol
      (Cleared fun _ => .free) .free
  | 0, cycle => follows_others_charge (tame_handleNoSuccess cfg _ _ _)
  | n + 1, cycle => by
    have others := fun o => @chargeFree_ofOthers o
    unfold failover
    refine Follows.bind ((follows_select_charge cfg cycle.tried).tame (tame_select cfg _)) ?_
      fun _ _ _ => trivial
    rintro decision χ ⟨rfl, sound⟩
    cases decision with
    | none => exact follows_others_charge (tame_handleNoSuccess cfg _ _ _)
    | some d =>
      obtain ⟨⟨c, hc⟩, -, hd⟩ := sound _ rfl d rfl
      refine follows_perform fun started => ⟨trivial, ?_⟩
      simp only [registryGet, hc]
      refine Follows.bind (follows_relay_charge c _ _ _ ⟨messageId, d.reservation⟩
        ((Settings.provider_name hc).trans hd.symm)) ?_ fun _ _ _ => trivial
      rintro result χ rfl
      refine follows_cleared (fun o => @chargeFree_ofRecord o) (tame_recordAttempt _ _ _ _ _)
        fun _ _ => ?_
      split
      · rename_i hok
        have sent : result.classification = .sent := by simpa [RelayResult.ok] using hok
        simp only [relayCharge, sent]
        refine Follows.bind (follows_commit_charge d.reservation) ?_ fun _ _ _ => trivial
        rintro _ χ rfl
        exact follows_cleared (fun o => @chargeFree_ofBreaker o)
          (CircuitBreaker.tame_recordSuccess _) fun _ _ => follows_others_charge
          (tame_markSent _ _ _)
      · refine Follows.bind (follows_settle_charge cfg d _) ?_ fun _ _ _ => trivial
        rintro _ χ rfl
        exact follows_failover_charge messageId snapshot raw n _

theorem follows_process_charge (messageId : ℕ) :
    (process cfg messageId).Follows chargeProtocol (Cleared fun _ => .free) .free := by
  have others := fun o => @chargeFree_ofOthers o
  refine follows_cleared others (tame_query (by rfl)) fun row _ =>
    follows_cleared others (tame_commit (by simp [Op.ofOthers, Site.plain])) fun _ _ => ?_
  cases row with
  | none => exact rfl
  | some msg =>
    simp only
    split
    · exact rfl
    refine follows_perform fun now => ⟨trivial, follows_perform fun raw => ⟨trivial, ?_⟩⟩
    split
    · exact follows_others_charge (tame_deadletter _ _ _)
    · trivial
    · split
      · exact follows_others_charge (tame_deadletter _ _ _)
      · exact follows_failover_charge cfg _ _ _ _ _

/-- The exception handler of the consumer ends whatever was owed. -/
theorem follows_requeueNow_charge (messageId : ℕ) (φ : ChargePhase) :
    (requeueNow messageId).Follows chargeProtocol (fun _ χ => χ = .free) φ := by
  refine Follows.handle (follows_flush ⟨trivial, ?_⟩ fun e =>
    ⟨trivial, follows_swallow e fun _ => rfl⟩)
  exact follows_commit (fun id => ⟨rfl, rfl⟩) fun e => ⟨rfl, follows_swallow e fun _ => rfl⟩

theorem whole_consumer_charge : (consumer cfg).Whole chargeProtocol := by
  refine follows_perform fun mid => ⟨trivial, Follows.handle ?_⟩
  refine (follows_process_charge cfg mid).mono ?_
  rintro (e | a) χ hχ
  · refine Follows.bind (follows_requeueNow_charge mid χ) ?_ fun _ _ h => h
    rintro _ χ rfl
    exact follows_swallow e fun _ => rfl
  · exact hχ

theorem charge_keeps : (system cfg Job.ofProcess).Keeps chargeProtocol := by
  intro i j w hj
  have others : ∀ {t : Act Unit}, t.Uses Op.ofOthers → t.Whole chargeProtocol := fun ht =>
    (ht.mono fun o ho a => chargeFree_ofOthers ho .free a).whole
  have breaker : ∀ {t : Act Unit}, t.Uses Op.ofBreaker → t.Whole chargeProtocol := fun ht =>
    (ht.mono fun o ho a => chargeFree_ofBreaker ho .free a).whole
  have hp : j.ofProcess = true := by
    by_contra h
    simp [system, Job.admitted, h] at hj
  cases j with
  | start => 
    exact (others tame_refreshOverrides.uses).bind fun _ =>
      (breaker CircuitBreaker.tame_load.uses).bind fun _ =>
        (others tame_recoverOrphans.uses).bind fun _ => others (uses_perform (by trivial))
  | producer => exact others (uses_producer cfg)
  | consumer => exact whole_consumer_charge cfg
  | handleData session envelope =>
    exact others (Uses.bind (fun _ => (by trivial)) (uses_handleData _ _ _))
  | deleteMessage id => exact others (uses_deleteMessage id)
  | prune =>
    change (RateLimiter.prune cfg).Whole chargeProtocol
    unfold RateLimiter.prune
    split
    · exact rfl
    · exact follows_perform fun _ => ⟨trivial, follows_flush ⟨trivial, follows_commit
        (fun _ => ⟨rfl, rfl⟩) fun _ => ⟨rfl, rfl⟩⟩ fun _ => ⟨trivial, rfl⟩⟩
  | _ => cases hp

end SmtpSwitch
