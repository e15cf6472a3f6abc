import SmtpSwitch.Limits.Quota

/-!
# The account of a quota counter

What a provider has accepted under a period key, and what the tasks still owe
under it, together never exceed the stored counter, in any run in which no lost
connection hides an accepted message (`QuotaInv`).
-/

namespace SmtpSwitch

open Coop

/-- The messages provider `key.provider` has accepted under a reservation carrying the key. -/
def acceptedUnder (w : World) (key : QuotaKey) : ℕ :=
  w.accepted.countP fun e =>
    e.1 = key.provider ∧ e.2.reservation.periodKey key.scope = some key.periodKey

/-- What a task owes under a key. -/
def ChargePhase.owes (key : QuotaKey) : ChargePhase → ℕ
  | .free => 0
  | .owing keys => keys.count key

/-- The connection was lost, and the provider had accepted the message. -/
def LostReply (x x' : Moment) : Prop :=
  ∃ i p kw sender rcpts msg errand e,
    x'.trace = .did i (.send p kw sender rcpts msg errand) (.raised e) :: x.trace ∧
      e.isConnectError = true ∧ x'.shared.accepted ≠ x.shared.accepted

/-- The account of every counter. -/
def QuotaInv (x : Moment) : Prop :=
  ∀ key, acceptedUnder x.shared key + chargeProtocol.total (ChargePhase.owes key) x.trace ≤
    (x.shared.db.quota key).getD 0

/-! ### The counters -/

theorem countUp_getD (quota : QuotaKey → Option ℕ) (key : Option QuotaKey) (k : QuotaKey) :
    (countUp quota key k).getD 0 = (quota k).getD 0 + key.toList.count k := by
  cases key with
  | none => simp [countUp]
  | some j =>
    by_cases h : j = k
    · subst h; simp [countUp]
    · simp [countUp, Function.update_of_ne (Ne.symm h), h]

theorem countDown_getD (quota : QuotaKey → Option ℕ) (key : Option QuotaKey) (k : QuotaKey) :
    (quota k).getD 0 ≤ (countDown quota key k).getD 0 + key.toList.count k := by
  cases key with
  | none => simp [countDown]
  | some j =>
    by_cases h : j = k
    · subst h; simp [countDown]; omega
    · simp [countDown, Function.update_of_ne (Ne.symm h), h]

variable {cfg : Settings}

/-- What a commit in order does to a counter. -/
theorem quota_of_commit {φ : LimiterPhase} {ss : List Stmt} {w : World} {site : Site} {a}
    (hg : φ.good cfg (.commit site ss) a) (hv : ∀ p seen, φ = .holding p seen → seen.Valid p w)
    {db : Db} (hx : w.db.execAll ss = some db) (key : QuotaKey) :
    match entering ss with
    | .charge => (db.quota key).getD 0 = (w.db.quota key).getD 0 + (quotaKeys ss).count key
    | .refund => (w.db.quota key).getD 0 ≤ (db.quota key).getD 0 + (quotaKeys ss).count key
    | .neither => quotaKeys ss = [] → (w.db.quota key).getD 0 ≤ (db.quota key).getD 0 := by
  rcases hg with hg | ⟨p, seen, rfl, hg | ⟨r, hg⟩⟩
  · rw [(limitNeutral_exec hg hx).2]
    cases ss with
    | nil => exact fun _ => le_rfl
    | cons s ss =>
      cases s with
      | insertSendLog p t => simp [Stmt.limitNeutral] at hg
      | deleteSendLog id => exact Nat.le_add_right _ _
      | _ => exact fun _ => le_rfl
  · obtain ⟨c, now, now', day, month, -, -, -, keys, rfl, -, -⟩ :=
      hg.exec cfg (hv p seen rfl).rows hx
    obtain ⟨_, _, _, _, _, _, hss, _⟩ := hg.room
    have : entering ss = .charge := by rw [hss]; rfl
    rw [this, keys, List.count_append]
    simp only [countUp_getD]
    omega
  · obtain ⟨keys, rfl⟩ := hg.exec (hv p seen rfl).rows hx
    obtain ⟨_, _, hss, _⟩ := hg
    have : entering ss = .refund := by rw [hss]; rfl
    rw [this, keys, List.count_append]
    have h₁ := countDown_getD w.db.quota (r.dayKey.map (⟨p, ·, .day⟩)) key
    have h₂ := countDown_getD (countDown w.db.quota (r.dayKey.map (⟨p, ·, .day⟩)))
      (r.monthKey.map (⟨p, ·, .month⟩)) key
    simp only
    omega

/-! ### The step -/

namespace QuotaInv

variable {jobs : Job → Bool} {x x' : Moment}

theorem total_owes_did (key : QuotaKey) (tr : List (Entry Op Op.Ans Job ℚ)) (i : ℕ) (o : Op)
    (a : o.Ans) :
    chargeProtocol.total (ChargePhase.owes key) (.did i o a :: tr) +
        (chargeProtocol.phase tr i).owes key =
      chargeProtocol.total (ChargePhase.owes key) tr +
        ((chargeProtocol.phase tr i).next o a).owes key :=
  Protocol.total_did rfl i o a

/-- An operation that leaves the counters and the accepted messages alone, and after which the task
owes no more than before. -/
theorem did_of_le {w w' : World} {tr : List (Entry Op Op.Ans Job ℚ)} {i : ℕ} {o : Op} {a : o.Ans}
    (h : QuotaInv ⟨w, tr⟩) (hacc : w'.accepted = w.accepted) (hq : w'.db.quota = w.db.quota)
    (ho : ∀ key, ((chargeProtocol.phase tr i).next o a).owes key ≤
      (chargeProtocol.phase tr i).owes key) : QuotaInv ⟨w', .did i o a :: tr⟩ := by
  intro key
  have total := total_owes_did key tr i o a
  have before := h key
  have less := ho key
  simp only [acceptedUnder, hacc, hq] at before ⊢
  omega

/-- A commit keeps the account. -/
theorem did_commit {w w' : World} {tr : List (Entry Op Op.Ans Job ℚ)} {i : ℕ} {site : Site}
    {ss : List Stmt} {ch : Choice} {a} (h : QuotaInv ⟨w, tr⟩) (hl : LimiterInv cfg ⟨w, tr⟩)
    (he : exec cfg i (.commit site ss) ch w = some (a, w'))
    (hlg : ((limiterProtocol cfg).phase tr i).good cfg (.commit site ss) a)
    (hg : (chargeProtocol.phase tr i).good (.commit site ss) a) :
    QuotaInv ⟨w', .did i (.commit site ss) a :: tr⟩ := by
  obtain ⟨db, hx, rfl, rfl⟩ | ⟨⟨e, rfl⟩, rfl⟩ := exec_commit he
  · intro key
    have counter := quota_of_commit hlg (hl.valid i) hx key
    have total := total_owes_did key tr i (.commit site ss) (.ok (w.db.insertedId ss))
    have before := h key
    simp only [acceptedUnder] at before ⊢
    simp only [ChargePhase.next] at total
    simp only [ChargePhase.good] at hg
    cases hss : entering ss with
    | charge =>
      rw [hss] at counter total hg
      rw [show chargeProtocol.phase tr i = .free from hg] at total
      simp only [ChargePhase.owes] at total counter
      omega
    | refund =>
      rw [hss] at counter total hg
      rw [show chargeProtocol.phase tr i = .owing (quotaKeys ss) from hg] at total
      simp only [ChargePhase.owes] at total counter
      omega
    | neither =>
      rw [hss] at counter total hg
      have : (w.db.quota key).getD 0 ≤ (db.quota key).getD 0 := counter hg
      simp only at total
      omega
  · exact h.did_of_le rfl rfl fun key => le_rfl

/-- A relay keeps the account: an accepted message is not owed any more. -/
theorem did_send {w w' : World} {tr : List (Entry Op Op.Ans Job ℚ)} {i : ℕ} {p : String}
    {kw : SendKwargs} {sender : String} {rcpts : List String} {msg : Bytes} {errand : Errand}
    {ch : Choice} {out} (h : QuotaInv ⟨w, tr⟩)
    (he : exec cfg i (.send p kw sender rcpts msg errand) ch w = some (out, w'))
    (hg : (chargeProtocol.phase tr i).good (.send p kw sender rcpts msg errand) out)
    (hc : ¬ LostReply ⟨w, tr⟩ ⟨w', .did i (.send p kw sender rcpts msg errand) out :: tr⟩) :
    QuotaInv ⟨w', .did i (.send p kw sender rcpts msg errand) out :: tr⟩ := by
  have frame := exec_frame cfg he
  obtain ⟨hp, hφ⟩ := hg
  by_cases hacc : w'.accepted = w.accepted
  · refine h.did_of_le hacc (by rw [frame.db (by simp [Op.part])]) fun key => ?_
    simp only [ChargePhase.next]
    split
    · split
      · exact le_rfl
      · exact Nat.zero_le _
    · exact Nat.zero_le _
  · have grown : w'.accepted = (p, errand) :: w.accepted := by
      obtain ⟨accepted, -, rfl⟩ := exec_send he
      cases accepted with
      | true => rfl
      | false => exact absurd rfl hacc
    -- the message was received, and the code knows
    have free : (chargeProtocol.phase tr i).next (.send p kw sender rcpts msg errand) out =
        .free := by
      simp only [ChargePhase.next]
      split
      · rename_i r hr
        split
        · rename_i hk
          obtain ⟨e, rfl, he'⟩ := (connectError_iff hr).mp hk
          exact absurd ⟨i, p, kw, sender, rcpts, msg, errand, e, rfl, he', hacc⟩ hc
        · rfl
      · rfl
    intro key
    have total := total_owes_did key tr i (.send p kw sender rcpts msg errand) out
    rw [free, hφ] at total
    have before := h key
    simp only [acceptedUnder, grown, List.countP_cons, frame.db (show _ ≠ _ by simp [Op.part])]
      at before ⊢
    simp only [ChargePhase.owes] at total
    split
    · rename_i hk
      simp only [decide_eq_true_eq] at hk
      have : key ∈ errand.reservation.keys :=
        Reservation.mem_keys.mpr ⟨hk.1.symm.trans hp, hk.2⟩
      have := List.count_pos_iff.mpr this
      omega
    · omega

/-- A move keeps the account, unless it hides an accepted message. -/
theorem step (h : QuotaInv x) (hl : LimiterInv cfg x)
    (hs : (system cfg jobs).Step ((limiterProtocol cfg).prod chargeProtocol) x x')
    (hc : ¬ LostReply x x') : QuotaInv x' := by
  have limiter := hs.fst
  cases hs.snd with
  | start ha hi =>
    intro key
    rw [Protocol.total_start_idle rfl hi]
    exact h key
  | env => exact h
  | crash =>
    intro key
    have := h key
    rw [Protocol.total_crash rfl]
    exact Nat.le_trans (by simp only [Nat.add_zero]; exact Nat.le_add_right _ _) this
  | @did w w' tr i o ch a he hg =>
    have he : exec cfg i o ch w = some (a, w') := he
    have hlg : ((limiterProtocol cfg).phase tr i).good cfg o a := by
      cases limiter with
      | did _ hg => exact hg
    have frame := exec_frame cfg he
    cases o with
    | commit site ss => exact h.did_commit hl he hlg hg
    | send p kw sender rcpts msg errand => exact h.did_send he hg hc
    | flush site =>
      refine h.did_of_le (frame.accepted (by simp [Op.part])) (by rw [frame.db (by simp [Op.part])])
        fun key => ?_
      cases site <;> first | exact le_rfl | exact Nat.zero_le _
    | _ =>
      exact h.did_of_le (frame.accepted (by simp [Op.part])) (by rw [frame.db (by simp [Op.part])])
        fun key => le_rfl

end QuotaInv

/-- The limit on a scope's counters. -/
def ProviderLimits.quotaLimit (l : ProviderLimits) : Scope → Option PositiveInt
  | .day => l.perDay
  | .month => l.perMonth

/-- Quota safety of a state: no provider has accepted more under a key than its counter says, nor
does the counter exceed the limit. -/
def QuotaSafe (cfg : Settings) (w : World) : Prop :=
  ∀ c ∈ cfg.providers, ∀ scope limit, c.limits.quotaLimit scope = some limit → ∀ k,
    acceptedUnder w ⟨c.name, k, scope⟩ ≤ (w.db.quota ⟨c.name, k, scope⟩).getD 0 ∧
      (w.db.quota ⟨c.name, k, scope⟩).getD 0 ≤ (limit : ℕ)

/-- **Quota safety.** In every run of the process, crashes and restarts included, in which no lost
connection hides an accepted message, what a provider has accepted under a period key never
exceeds the counter, nor the counter the limit. -/
theorem quota_safe_unless_lostReply (cfg : Settings) {w : World} (hw : WithinLimits cfg w)
    (hacc : ∀ key, acceptedUnder w key ≤ (w.db.quota key).getD 0)
    {s : Pool Op Op.Ans Exc World Job ℚ}
    (h : (system cfg Job.ofProcess).Reachable (fun x x' => ¬ LostReply x x') (Machine.boot w) s) :
    QuotaSafe cfg s.shared := by
  have inv : LimiterInv cfg s.toConfig ∧ QuotaInv s.toConfig := by
    refine (Machine.invariant (((limiter_callsWhole cfg).keeps _ fun _ =>
      rfl).prod (charge_keeps cfg))
      (fun x => LimiterInv cfg x ∧ QuotaInv x) ⟨⟨.init w, hw⟩, ?_⟩
      (fun h hs hc => ⟨h.1.step hs.fst, h.2.step h.1 hs hc⟩) h).1
    intro key
    rw [Protocol.total_nil rfl]
    exact hacc key
  intro c hc scope limit hl k
  refine ⟨Nat.le_trans (Nat.le_add_right _ _) (inv.2 _), ?_⟩
  have within := inv.1.within c hc
  cases scope with
  | day => exact within.day limit hl k
  | month => exact within.month limit hl k

/-- A move by which no connection is lost after the message was accepted. -/
def Move.noLostReply : Move Choice Job ℚ → Bool
  | .run _ (.smtp (.raised e) accepted) => !(e.isConnectError && accepted)
  | _ => true

theorem not_lostReply_of_move {jobs : Job → Bool} {m : Move Choice Job ℚ}
    {s s' : Pool Op Op.Ans Exc World Job ℚ} (hm : Move.noLostReply m = true)
    (h : (system cfg jobs).step m s = some s') : ¬ LostReply s.toConfig s'.toConfig := by
  rintro ⟨i, p, kw, sender, rcpts, msg, errand, e, htr, hce, hacc⟩
  obtain ⟨c, job, k, rfl, -, he⟩ := Machine.step_did h htr
  obtain ⟨accepted, rfl, same⟩ := exec_send he
  cases accepted with
  | true => simp [Move.noLostReply, hce] at hm
  | false => exact hacc (congrArg World.accepted same)

namespace Example

/-- Message `n`, due. -/
def dueMessage (n : ℕ) : Message where
  id := n
  receivedAt := 63923749200
  submittingAccount := none
  fromAddr := "a@x"
  rcptTo := ["b@y"]
  subject := none
  messageIdHeader := none
  size := 0
  spoolPath := "spool"
  nextAttemptAt := 63923749200

/-- Two messages are due. -/
def twoDue : World where
  clock := 63923749200
  db := { messages := [dueMessage 1, dueMessage 2] }
  files := fun _ => some []

/-- The process starts, the producer claims both messages, and consumer 1 gets to its relay. -/
def upToRelay : List (Move Choice Job ℚ) :=
  [.start 0 .start] ++ List.replicate 9 (.run 0 .ok) ++ [.start 0 .producer] ++
    List.replicate 6 (.run 0 .ok) ++ [.start 1 .consumer] ++ List.replicate 21 (.run 1 .ok)

/-- The provider accepts the message, and the connection is lost before its reply is read. The
charge is taken back, and consumer 2 relays the other message. -/
def lostReplies : List (Move Choice Job ℚ) :=
  upToRelay ++ [.run 1 (.smtp (.raised (.serverDisconnected "connection lost")) true)] ++
    List.replicate 19 (.run 1 .ok) ++ [.start 2 .consumer] ++ List.replicate 20 (.run 2 .ok) ++
    [.run 2 (.smtp (.returned [] "OK") true)]

theorem within_twoDue : WithinLimits onePerDay twoDue := by
  intro c hc
  obtain rfl : c = _ := List.mem_singleton.mp hc
  exact ⟨fun x _ => Nat.zero_le _, fun _ _ _ => Nat.zero_le _, fun _ _ _ => Nat.zero_le _,
    fun _ _ => Nat.zero_le _⟩

/-- Two messages accepted on a day with a limit of one, and a counter that says one. -/
theorem quota_unsafe_lostReplies : WithinLimits onePerDay twoDue ∧ ∃ s,
    (system onePerDay Job.ofProcess).Reachable Machine.Free (Machine.boot twoDue) s ∧
      acceptedUnder s.shared ⟨"p", "2026-08-31", .day⟩ = 2 ∧
      (s.shared.db.quota ⟨"p", "2026-08-31", .day⟩).getD 0 = 1 ∧
        ¬ QuotaSafe onePerDay s.shared := by
  obtain ⟨s, hs, ha⟩ : ∃ s, (system onePerDay Job.ofProcess).runFrom (Machine.boot twoDue)
      lostReplies = some s ∧ (acceptedUnder s.shared ⟨"p", "2026-08-31", .day⟩,
        (s.shared.db.quota ⟨"p", "2026-08-31", .day⟩).getD 0) = (2, 1) :=
    Option.map_eq_some_iff.mp (by decide +kernel)
  rw [Prod.mk.injEq] at ha
  refine ⟨within_twoDue, s, Machine.Reachable.refl.runFrom hs, ha.1, ha.2, fun safe => ?_⟩
  have := (safe _ List.mem_cons_self .day 1 rfl "2026-08-31").1
  have accepted : acceptedUnder s.shared ⟨"p", "2026-08-31", .day⟩ = 2 := ha.1
  have counter : (s.shared.db.quota ⟨"p", "2026-08-31", .day⟩).getD 0 = 1 := ha.2
  change acceptedUnder s.shared ⟨"p", "2026-08-31", .day⟩ ≤
    (s.shared.db.quota ⟨"p", "2026-08-31", .day⟩).getD 0 at this
  omega

/-- The provider accepts the message, and its reply is read. -/
def replied : List (Move Choice Job ℚ) :=
  upToRelay ++ [.run 1 (.smtp (.returned [] "OK") true)] ++ List.replicate 16 (.run 1 .ok)

theorem quota_safe_replied : ∃ s,
    (system onePerDay Job.ofProcess).runFrom (Machine.boot twoDue) replied = some s ∧
      acceptedUnder s.shared ⟨"p", "2026-08-31", .day⟩ = 1 ∧ QuotaSafe onePerDay s.shared := by
  obtain ⟨s, hs, ha⟩ : ∃ s, (system onePerDay Job.ofProcess).runFrom (Machine.boot twoDue)
      replied = some s ∧ acceptedUnder s.shared ⟨"p", "2026-08-31", .day⟩ = 1 :=
    Option.map_eq_some_iff.mp (by decide +kernel)
  exact ⟨s, hs, ha, quota_safe_unless_lostReply onePerDay within_twoDue (fun _ => Nat.zero_le _)
    (Machine.Reachable.refl.runFrom_of not_lostReply_of_move (by decide) hs)⟩

end Example

end SmtpSwitch
