import SmtpSwitch.Limits.Account
import SmtpSwitch.Limits.Dealing

/-!
# Exact books

While a process runs, a quota counter is what it was at the start, plus the reservations
granted under its key, minus those released; the slots in use are the reservations
granted and not yet settled; and nothing is ever clamped at zero (`books_balance`). What the
calls in progress have done to the counters and the slots already, or have still to do, is
told by their phase (`dealing`), so the equations hold at every moment (`Books`).
-/

namespace SmtpSwitch

open Coop Coop.Prog

/-! ### What has happened to the reservations -/

/-- The reservation granted. -/
def Op.granting : Op → List Reservation
  | .call (.granted r) => [r]
  | _ => []

/-- The reservation whose settlement begins. -/
def Op.settling : Op → List Reservation
  | .call (.commit r) | .call (.release r) => [r]
  | _ => []

/-- The reservation whose release takes effect. -/
def Dealing.releases : Dealing → (o : Op) → o.Ans → List Reservation
  | .refunding r, .commit _ _, .ok _ => [r]
  | _, _, _ => []

/-- The reservations granted. -/
def granted : List (Entry Op Op.Ans Job ℚ) → List Reservation
  | [] => []
  | .did _ o _ :: tr => o.granting ++ granted tr
  | _ :: tr => granted tr

/-- The reservations `commit` or `release` was called for. -/
def settled : List (Entry Op Op.Ans Job ℚ) → List Reservation
  | [] => []
  | .did _ o _ :: tr => o.settling ++ settled tr
  | _ :: tr => settled tr

/-- The reservations released: the session of the call has been committed. -/
def released : List (Entry Op Op.Ans Job ℚ) → List Reservation
  | [] => []
  | .did i o a :: tr => (dealing.phase tr i).releases o a ++ released tr
  | _ :: tr => released tr

/-- How many of these reservations carry the key. -/
def carrying (key : QuotaKey) (rs : List Reservation) : ℕ := rs.countP (key ∈ ·.keys)

/-- How many of these reservations are for the provider. -/
def reservedFor (p : String) (rs : List Reservation) : ℕ := rs.countP (·.provider = p)

/-- Only what was granted is settled, once, and the process does not die. -/
def SettlesOnce (x x' : Moment) : Prop :=
  x'.trace ≠ .crash :: x.trace ∧ ∀ i o a, x'.trace = .did i o a :: x.trace →
    ∀ r ∈ o.settling, (settled x.trace).count r < (granted x.trace).count r

theorem Reservation.keys_nodup (r : Reservation) : r.keys.Nodup := by
  unfold Reservation.keys
  cases r.dayKey <;> cases r.monthKey <;> simp

theorem carrying_nil (key : QuotaKey) : carrying key [] = 0 := rfl

theorem carrying_cons (key : QuotaKey) (r : Reservation) (rs : List Reservation) :
    carrying key (r :: rs) = r.keys.count key + carrying key rs := by
  unfold carrying
  rw [List.countP_cons, r.keys_nodup.count]
  simp [Nat.add_comm]

/-! ### What the calls in progress account for -/

/-- Charged, and not yet granted. -/
def Dealing.charge (key : QuotaKey) : Dealing → ℕ
  | .charged _ keys | .taken _ keys => keys.count key
  | _ => 0

/-- A slot of `p` taken and not yet granted, or settled and not yet given back. -/
def Dealing.slot (p : String) : Dealing → ℕ
  | .taken q _ => if q = p then 1 else 0
  | .settling r _ => if r.provider = p then 1 else 0
  | _ => 0

/-- A release of `r` that has not taken effect. -/
def Dealing.refund (r : Reservation) : Dealing → ℕ
  | .settling r' true | .refunding r' => if r' = r then 1 else 0
  | _ => 0

/-- The books, from the counters `quota` at the start. -/
structure Books (quota : QuotaKey → Option ℕ) (x : Moment) : Prop where
  counters : ∀ key, (x.shared.db.quota key).getD 0 + carrying key (released x.trace) =
    (quota key).getD 0 + carrying key (granted x.trace) + dealing.total (Dealing.charge key) x.trace
  slots : ∀ p, x.shared.inflight p + reservedFor p (settled x.trace) =
    reservedFor p (granted x.trace) + dealing.total (Dealing.slot p) x.trace
  once : ∀ r, (settled x.trace).count r ≤ (granted x.trace).count r
  refunds : ∀ r, (released x.trace).count r + dealing.total (Dealing.refund r) x.trace ≤
    (settled x.trace).count r

/-! ### What a commit does to the counters -/

theorem countDown_getD_eq (quota : QuotaKey → Option ℕ) (key : Option QuotaKey) (k : QuotaKey) :
    (countDown quota key k).getD 0 = (quota k).getD 0 - key.toList.count k := by
  cases key with
  | none => simp [countDown]
  | some j =>
    by_cases h : j = k
    · subst h; simp [countDown]
    · simp [countDown, Function.update_of_ne (Ne.symm h), h]

theorem quotaKeys_of_neutral {ss : List Stmt} (h : ss.all Stmt.limitNeutral = true) :
    quotaKeys ss = [] := by
  rw [quotaKeys, List.filterMap_eq_nil_iff]
  intro s hs
  have := List.all_eq_true.mp h s hs
  cases s <;> first | rfl | cases this

variable {cfg : Settings}

/-- What a commit in order does to a counter, exactly. -/
theorem quota_exact {φ : LimiterPhase} {ss : List Stmt} {w : World} {site : Site} {a}
    (hg : φ.good cfg (.commit site ss) a) (hv : ∀ p seen, φ = .holding p seen → seen.Valid p w)
    {db : Db} (hx : w.db.execAll ss = some db) (key : QuotaKey) :
    (db.quota key).getD 0 = match entering ss with
      | .charge => (w.db.quota key).getD 0 + (quotaKeys ss).count key
      | .refund => (w.db.quota key).getD 0 - (quotaKeys ss).count key
      | .neither => (w.db.quota key).getD 0 := by
  rcases hg with hg | ⟨p, seen, rfl, hg | ⟨r, hg⟩⟩
  · rw [(limitNeutral_exec hg hx).2, quotaKeys_of_neutral hg]
    cases entering ss <;> rfl
  · obtain ⟨c, now, now', day, month, -, -, -, keys, rfl, -, -⟩ :=
      hg.exec cfg (hv p seen rfl).rows hx
    obtain ⟨_, _, _, _, _, _, hss, _⟩ := hg.room
    have charge : entering ss = .charge := by rw [hss]; rfl
    rw [charge, keys, List.count_append]
    simp only [countUp_getD]
    omega
  · obtain ⟨keys, rfl⟩ := hg.exec (hv p seen rfl).rows hx
    obtain ⟨_, _, hss, _⟩ := hg
    have refund : entering ss = .refund := by rw [hss]; rfl
    rw [refund, keys, List.count_append]
    simp only [countDown_getD_eq]
    omega

namespace Books

variable {quota : QuotaKey → Option ℕ} {w w' : World} {tr : List (Entry Op Op.Ans Job ℚ)} {i : ℕ}
  {o : Op} {a : o.Ans}

/-- Releases are settlements, and settlements are of what was granted. -/
theorem released_subperm (h : Books quota ⟨w, tr⟩) : (released tr).Subperm (granted tr) := by
  rw [List.subperm_ext_iff]
  intro r _
  have := h.refunds r
  have := h.once r
  simp only at *
  omega

theorem settled_subperm (h : Books quota ⟨w, tr⟩) : (settled tr).Subperm (granted tr) := by
  rw [List.subperm_ext_iff]
  exact fun r _ => h.once r

/-- A reservation that a task is about to refund is charged. -/
theorem charged_of_refunding (h : Books quota ⟨w, tr⟩) {r : Reservation}
    (hi : dealing.phase tr i = .refunding r) {key : QuotaKey} (hk : key ∈ r.keys) :
    0 < (w.db.quota key).getD 0 := by
  have held := Protocol.le_total (P := dealing) (f := Dealing.refund r) rfl tr i
  rw [hi] at held
  simp only [Dealing.refund, if_true] at held
  have sub : (r :: released tr).Subperm (granted tr) := by
    rw [List.subperm_ext_iff]
    intro r' _
    have refunds : (released tr).count r' + dealing.total (Dealing.refund r') tr ≤
        (settled tr).count r' :=
      h.refunds r'
    have once : (settled tr).count r' ≤ (granted tr).count r' := h.once r'
    rw [List.count_cons]
    by_cases same : r = r'
    · subst same
      simp only [beq_self_eq_true, if_true]
      omega
    · rw [if_neg (by simpa using same)]
      omega
  have more : carrying key (r :: released tr) ≤ carrying key (granted tr) := sub.countP_le _
  rw [carrying_cons, List.count_eq_one_of_mem r.keys_nodup hk] at more
  have counters : (w.db.quota key).getD 0 + carrying key (released tr) = (quota key).getD 0 +
    carrying key (granted tr) + dealing.total (Dealing.charge key) tr := h.counters key
  omega

/-- A task about to give a slot back has one. -/
theorem inflight_of_settling (h : Books quota ⟨w, tr⟩) {r : Reservation} {b : Bool}
    (hi : dealing.phase tr i = .settling r b) : 0 < w.inflight r.provider := by
  have held := Protocol.le_total (P := dealing) (f := Dealing.slot r.provider) rfl tr i
  rw [hi] at held
  simp only [Dealing.slot, if_true] at held
  have less : reservedFor r.provider (settled tr) ≤ reservedFor r.provider (granted tr) :=
    h.settled_subperm.countP_le _
  have slots : w.inflight r.provider + reservedFor r.provider (settled tr) =
    reservedFor r.provider (granted tr) + dealing.total (Dealing.slot r.provider) tr := h.slots _
  omega

/-- An operation that balances by itself: what it does to the counters and the slots is what it
does to the reservations and to what its own task accounts for. -/
structure Balances (w w' : World) (φ : Dealing) (o : Op) (a : o.Ans) : Prop where
  counters : ∀ key, (w'.db.quota key).getD 0 + carrying key (φ.releases o a) + φ.charge key =
    (w.db.quota key).getD 0 + carrying key o.granting + (φ.next o a).charge key
  slots : ∀ p, w'.inflight p + reservedFor p o.settling + φ.slot p =
    w.inflight p + reservedFor p o.granting + (φ.next o a).slot p
  refunds : ∀ r, (φ.releases o a).count r + (φ.next o a).refund r ≤ o.settling.count r + φ.refund r

/-- Such an operation keeps the books, if what it settles was granted. -/
theorem did (h : Books quota ⟨w, tr⟩) (hb : Balances w w' (dealing.phase tr i) o a)
    (once : ∀ r ∈ o.settling, (settled tr).count r < (granted tr).count r) :
    Books quota ⟨w', .did i o a :: tr⟩ := by
  have total : ∀ f : Dealing → ℕ, f .outside = 0 → dealing.total f (.did i o a :: tr) +
      f (dealing.phase tr i) = dealing.total f tr + f ((dealing.phase tr i).next o a) :=
    fun f hf => Protocol.total_did hf i o a
  refine ⟨fun key => ?_, fun p => ?_, fun r => ?_, fun r => ?_⟩
  · have before := h.counters key
    have step := hb.counters key
    have total := total (Dealing.charge key) rfl
    simp only [granted, released, carrying, List.countP_append] at before step ⊢
    omega
  · have before := h.slots p
    have step := hb.slots p
    have total := total (Dealing.slot p) rfl
    simp only [granted, settled, reservedFor, List.countP_append] at before step ⊢
    omega
  · have before := h.once r
    simp only [granted, settled, List.count_append] at before ⊢
    by_cases hr : r ∈ o.settling
    · have single : o.settling.count r ≤ 1 := by
        cases o with
        | call c => cases c <;> simp [Op.settling, List.count_cons] <;> split <;> omega
        | _ => simp [Op.settling]
      have := once r hr
      omega
    · rw [List.count_eq_zero_of_not_mem hr]
      omega
  · have before := h.refunds r
    have step := hb.refunds r
    have total := total (Dealing.refund r) rfl
    simp only [settled, released, List.count_append] at before step ⊢
    omega

/-- An operation that does not touch the books. -/
theorem balances_same {φ : Dealing} (hq : w'.db.quota = w.db.quota) (hin : w'.inflight = w.inflight)
    (hg : o.granting = []) (hs : o.settling = []) (hr : φ.releases o a = []) (hn : φ.next o a = φ) :
    Balances w w' φ o a := by
  constructor
  · intro key
    rw [hq, hg, hr, hn]
  · intro p
    rw [hin, hg, hs, hn]
  · intro r
    rw [hr, hs, hn]

/-- A commit in order balances. -/
theorem balances_commit (h : Books quota ⟨w, tr⟩) (hl : LockInv cfg ⟨w, tr⟩) {site : Site}
    {ss : List Stmt} {ch : Choice} {a : Except Exc ℕ}
    (he : exec cfg i (.commit site ss) ch w = some (a, w'))
    (hlg : ((limiterProtocol cfg).phase tr i).good cfg (.commit site ss) a)
    (hg : (dealing.phase tr i).good (.commit site ss) a) :
    Balances w w' (dealing.phase tr i) (.commit site ss) a := by
  obtain ⟨db, hx, rfl, rfl⟩ | ⟨⟨e, rfl⟩, rfl⟩ := exec_commit he
  swap
  · refine balances_same rfl rfl rfl rfl ?_ ?_
    · cases dealing.phase tr i <;> rfl
    · cases dealing.phase tr i <;> cases ss <;> first | rfl | (rename_i s _; cases s <;> rfl)
  have counter := quota_exact hlg (hl.valid i) hx
  cases hss : entering ss with
  | charge =>
    have outside : dealing.phase tr i = .outside := by simpa [Dealing.good, hss] using hg
    rw [outside]
    obtain ⟨p, t, rest, rfl⟩ : ∃ p t rest, ss = .insertSendLog p t :: rest := by
      cases ss with
      | nil => cases hss
      | cons s rest => cases s <;> first | exact ⟨_, _, _, rfl⟩ | cases hss
    refine ⟨fun key => ?_, fun q => rfl, fun r => le_rfl⟩
    have after := counter key
    rw [hss] at after
    exact after
  | refund =>
    obtain ⟨r, hr, keys⟩ : ∃ r, dealing.phase tr i = .refunding r ∧ quotaKeys ss = r.keys := by
      simpa [Dealing.good, hss] using hg
    rw [hr]
    refine ⟨fun key => ?_, fun q => rfl, fun r' => ?_⟩
    · have after := counter key
      rw [hss, keys] at after
      have charged : r.keys.count key ≤ (w.db.quota key).getD 0 := by
        by_cases hk : key ∈ r.keys
        · rw [List.count_eq_one_of_mem r.keys_nodup hk]
          exact h.charged_of_refunding hr hk
        · rw [List.count_eq_zero_of_not_mem hk]
          exact Nat.zero_le _
      have one : carrying key [r] = r.keys.count key := carrying_cons key r []
      simp only [Dealing.releases, one, Dealing.charge, Op.granting, carrying_nil,
        Dealing.next] at after ⊢
      omega
    · simp [Dealing.releases, Dealing.next, Dealing.refund, Op.settling, List.count_cons]
  | neither =>
    have outside : dealing.phase tr i = .outside := by
      have both : dealing.phase tr i = .outside ∧ quotaKeys ss = [] := by
        simpa [Dealing.good, hss] using hg
      exact both.1
    rw [outside]
    have same : Dealing.next .outside (.commit site ss) (.ok (w.db.insertedId ss)) = .outside := by
      cases ss with
      | nil => rfl
      | cons s rest => cases s <;> first | rfl | cases hss
    refine ⟨fun key => ?_, fun q => ?_, fun r => ?_⟩
    · have after := counter key
      rw [hss] at after
      rw [same, after]
      rfl
    · rw [same]
      rfl
    · rw [same]
      rfl

/-- Taking a slot, giving one back, and the calls. -/
theorem balances_incInflight {p : String} {ch : Choice} {a : Unit} {φ : Dealing}
    (he : exec cfg i (.incInflight p) ch w = some (a, w')) (hg : φ.good (.incInflight p) a) :
    Balances w w' φ (.incInflight p) a := by
  obtain ⟨keys, rfl⟩ := hg
  obtain rfl := exec_incInflight he
  refine ⟨fun key => rfl, fun q => ?_, fun r => le_rfl⟩
  simp only [Op.settling, Op.granting, reservedFor, List.countP_nil, Dealing.slot, Dealing.next,
    Function.update_apply]
  by_cases hq : q = p
  · subst hq
    simp
  · simp [hq, Ne.symm hq]

theorem balances_decInflight (h : Books quota ⟨w, tr⟩) {p : String} {ch : Choice} {a : Unit}
    (he : exec cfg i (.decInflight p) ch w = some (a, w'))
    (hg : (dealing.phase tr i).good (.decInflight p) a) :
    Balances w w' (dealing.phase tr i) (.decInflight p) a := by
  obtain ⟨r, b, hr, rfl⟩ := hg
  obtain rfl := exec_decInflight he
  have held := h.inflight_of_settling hr
  rw [hr]
  refine ⟨fun key => ?_, fun q => ?_, fun r' => ?_⟩
  · cases b <;> rfl
  · simp only [Op.settling, Op.granting, reservedFor, List.countP_nil, Function.update_apply]
    by_cases hq : q = r.provider
    · subst hq
      cases b <;> simp [Dealing.slot, Dealing.next] <;> omega
    · cases b <;> simp [Dealing.slot, Dealing.next, hq, Ne.symm hq]
  · cases b
    · exact Nat.zero_le _
    · exact le_rfl

theorem balances_call {c : Call} {ch : Choice} {a : Unit} {φ : Dealing}
    (he : exec cfg i (.call c) ch w = some (a, w')) (hg : φ.good (.call c) a) :
    Balances w w' φ (.call c) a := by
  have frame := exec_frame cfg he
  have hq : w'.db.quota = w.db.quota := by rw [frame.db (by simp [Op.part])]
  have hin : w'.inflight = w.inflight := frame.inflight (by simp [Op.part])
  cases c with
  | granted r =>
    obtain rfl : φ = .taken r.provider r.keys := hg
    refine ⟨fun key => ?_, fun p => ?_, fun r' => le_rfl⟩
    · have one : carrying key [r] = r.keys.count key := carrying_cons key r []
      simp only [hq, Dealing.releases, Dealing.charge, Op.granting, one, Dealing.next, carrying_nil]
      omega
    · simp [hin, Op.settling, Op.granting, reservedFor, Dealing.slot, Dealing.next,
        List.countP_cons]
  | commit r =>
    obtain rfl : φ = .outside := hg
    refine ⟨fun key => by rw [hq]; rfl, fun p => ?_, fun r' => Nat.zero_le _⟩
    simp [hin, Op.settling, Op.granting, reservedFor, Dealing.slot, Dealing.next, List.countP_cons]
  | release r =>
    obtain rfl : φ = .outside := hg
    refine ⟨fun key => by rw [hq]; rfl, fun p => ?_, fun r' => ?_⟩
    · simp [hin, Op.settling, Op.granting, reservedFor, Dealing.slot, Dealing.next,
        List.countP_cons]
    · simp [Op.settling, Dealing.releases, Dealing.refund, Dealing.next, List.count_cons]
  | recordSuccess p => exact balances_same hq hin rfl rfl (by cases φ <;> rfl) (by cases φ <;> rfl)
  | recordFailure p => exact balances_same hq hin rfl rfl (by cases φ <;> rfl) (by cases φ <;> rfl)

theorem balances_unlock {l : Lock} {ch : Choice} {a : Unit} {φ : Dealing}
    (he : exec cfg i (.unlock l) ch w = some (a, w')) : Balances w w' φ (.unlock l) a := by
  obtain rfl := exec_unlock he
  cases φ with
  | refunding r => exact ⟨fun key => rfl, fun p => rfl, fun r' => Nat.zero_le _⟩
  | _ => exact balances_same rfl rfl rfl rfl rfl rfl

variable {jobs : Job → Bool} {x x' : Moment}

/-- Every move keeps the books, if nothing is settled twice and the process lives. -/
theorem step (h : Books quota x) (hl : LockInv cfg x)
    (hs : (system cfg jobs).Step ((limiterProtocol cfg).prod dealing) x x')
    (hc : SettlesOnce x x') : Books quota x' := by
  have limiter := hs.fst
  cases hs.snd with
  | @start w tr i j ha hi =>
    have total : ∀ f : Dealing → ℕ, dealing.total f (.start i j :: tr) = dealing.total f tr :=
      fun f => Protocol.total_start_idle rfl hi
    exact ⟨fun key => by rw [total]; exact h.counters key, fun p => by rw [total]; exact h.slots p,
      h.once, fun r => by rw [total]; exact h.refunds r⟩
  | env => exact ⟨h.counters, h.slots, h.once, h.refunds⟩
  | crash => exact absurd rfl hc.1
  | @did w w' tr i o ch a he hg =>
    have he : exec cfg i o ch w = some (a, w') := he
    have hlg : ((limiterProtocol cfg).phase tr i).good cfg o a := by
      cases limiter with
      | did _ hg => exact hg
    have frame := exec_frame cfg he
    refine h.did ?_ (hc.2 i o a rfl)
    have hg : (dealing.phase tr i).good o a := hg
    cases o with
    | commit site ss => exact h.balances_commit hl he hlg hg
    | incInflight p => exact balances_incInflight he hg
    | decInflight p => exact h.balances_decInflight he hg
    | call c => exact balances_call he hg
    | unlock l => exact balances_unlock he
    | _ =>
      refine balances_same (by rw [frame.db (by simp [Op.part])])
        (frame.inflight (by simp [Op.part]))
        rfl rfl ?_ ?_
      · cases dealing.phase tr i <;> rfl
      · cases dealing.phase tr i <;> rfl

end Books

/-! ### The balance -/

/-- The balance between calls: every counter is what it was, with the reservations granted under its
key and without those released, and the slots in use are the reservations not yet settled. -/
structure Balance (quota : QuotaKey → Option ℕ) (x : Moment) : Prop where
  counters : ∀ key, (x.shared.db.quota key).getD 0 + carrying key (released x.trace) =
    (quota key).getD 0 + carrying key (granted x.trace)
  slots : ∀ p, x.shared.inflight p + reservedFor p (settled x.trace) = reservedFor p
    (granted x.trace)
  /-- As if what was released had never been granted. -/
  forgotten : ∀ key, (x.shared.db.quota key).getD 0 =
    (quota key).getD 0 + carrying key ((granted x.trace).diff (released x.trace))

/-- No task is about to make a change that `max(0, ...)` would change. -/
structure Unclamped (s : Pool Op Op.Ans Exc World Job ℚ) : Prop where
  slot : ∀ i j p k, s.tasks i = some (j, .op (.decInflight p) k) → 0 < s.shared.inflight p
  counter : ∀ i j site ss k, s.tasks i = some (j, .op (.commit site ss) k) → entering ss = .refund →
    ∀ key n, .putQuota key n ∈ ss → n + 1 = (s.shared.db.quota key).getD 0

theorem Books.balance {quota : QuotaKey → Option ℕ} {w : World} {tr : List (Entry Op Op.Ans Job ℚ)}
    (h : Books quota ⟨w, tr⟩) (quiet : ∀ i, dealing.phase tr i = .outside) :
    Balance quota ⟨w, tr⟩ := by
  have nothing : ∀ f : Dealing → ℕ, f .outside = 0 → dealing.total f tr = 0 :=
    fun f hf => Protocol.total_eq_zero fun i => by rw [quiet i, hf]
  have counters : ∀ key, (w.db.quota key).getD 0 + carrying key (released tr) =
      (quota key).getD 0 + carrying key (granted tr) := by
    intro key
    have := h.counters key
    rwa [nothing _ rfl, Nat.add_zero] at this
  refine ⟨counters, fun p => ?_, fun key => ?_⟩
  · have := h.slots p
    rwa [nothing _ rfl, Nat.add_zero] at this
  · have diff : carrying key ((granted tr).diff (released tr)) =
        carrying key (granted tr) - carrying key (released tr) :=
      List.countP_diff h.released_subperm _
    have less : carrying key (released tr) ≤ carrying key (granted tr) :=
      h.released_subperm.countP_le _
    have := counters key
    change (w.db.quota key).getD 0 = (quota key).getD 0 + carrying key
      ((granted tr).diff (released tr))
    omega

theorem Books.unclamped {quota : QuotaKey → Option ℕ} {s : Pool Op Op.Ans Exc World Job ℚ}
    (h : Books quota s.toConfig) (hl : LockInv cfg s.toConfig)
    (hs : Machine.InPhase ((limiterProtocol cfg).prod dealing) s) : Unclamped s := by
  have next : ∀ {i j o k}, s.tasks i = some (j, .op o k) → ∀ a,
      ((limiterProtocol cfg).phase s.trace i).good cfg o a ∧
      (dealing.phase s.trace i).good o a := by
    intro i j o k ht a
    have rest := hs i
    rw [ht, Protocol.phase_prod] at rest
    exact (rest a).1
  refine ⟨fun i j p k ht => ?_, fun i j site ss k ht hss key n hmem => ?_⟩
  · obtain ⟨r, b, hr, rfl⟩ := (next ht ()).2
    exact h.inflight_of_settling hr
  · obtain ⟨limiter, books⟩ := next ht (.ok 0)
    obtain ⟨r, hr, keys⟩ : ∃ r, dealing.phase s.trace i = .refunding r ∧ quotaKeys ss = r.keys := by
      simpa [Dealing.good, hss] using books
    have positive : 0 < (s.shared.db.quota key).getD 0 :=
      h.charged_of_refunding hr (keys ▸ List.mem_filterMap.mpr ⟨_, hmem, rfl⟩)
    have exact_ : n = (s.shared.db.quota key).getD 0 - 1 := by
      rcases limiter with hg | ⟨p, seen, hp, hg | ⟨r', hg⟩⟩
      · have := List.all_eq_true.mp hg _ hmem
        cases this
      · obtain ⟨_, _, _, _, _, _, rfl, _⟩ := hg.room
        cases hss
      · have rows := (hl.valid i p seen hp).rows
        obtain ⟨day, month, rfl, hday, hmonth⟩ := hg
        have down : ∀ {scope : Scope} {k : Option String} {ss : List Stmt},
            CountDown seen p scope k ss →
            .putQuota key n ∈ ss → n = (s.shared.db.quota key).getD 0 - 1 := by
          intro scope k ss hdown hm
          cases k with
          | none =>
            obtain rfl : ss = [] := hdown
            cases hm
          | some k =>
            obtain ⟨row, hrow, rfl⟩ := hdown
            cases List.mem_singleton.mp hm
            rw [rows _ _ hrow rfl]
        rcases List.mem_cons.mp hmem with hm | hm
        · cases hm
        rcases List.mem_append.mp hm with hm | hm
        · exact down hday hm
        · exact down hmonth hm
    omega

/-- **Exact quota accounting.** In every run of one process in which only granted reservations are
settled, each once: whenever no call is in progress the books balance, and at no time is anything
about to be clamped. -/
theorem books_balance (cfg : Settings) {jobs : Job → Bool} {w : World}
    (fresh : ∀ p, w.inflight p = 0) {s : Pool Op Op.Ans Exc World Job ℚ}
    (h : (system cfg jobs).Reachable SettlesOnce (Machine.boot w) s) :
    ((∀ i, dealing.phase s.trace i = .outside) → Balance w.db.quota s.toConfig) ∧ Unclamped s := by
  have init : Books w.db.quota ⟨w, []⟩ := by
    have nothing : ∀ f : Dealing → ℕ, f .outside = 0 →
        dealing.total f ([] : List (Entry Op Op.Ans Job ℚ)) = 0 := fun f hf => Protocol.total_nil hf
    refine ⟨fun key => ?_, fun p => ?_, fun r => le_rfl, fun r => ?_⟩
    · rw [nothing _ rfl]
      rfl
    · rw [nothing _ rfl, show (Config.mk w []).shared.inflight p = 0 from fresh p]
      rfl
    · rw [nothing _ rfl]
      rfl
  have inv := Machine.invariant (((limiter_callsWhole cfg).keeps jobs fun _ => rfl).prod
      ((dealing_callsWhole cfg).keeps jobs fun _ => rfl))
    (fun x => LockInv cfg x ∧ Books w.db.quota x) ⟨.init w, init⟩
    (fun h hs hc => ⟨h.1.step hs.fst, h.2.step h.1 hs hc⟩) h
  exact ⟨fun quiet => inv.1.2.balance quiet, inv.1.2.unclamped inv.1.1 inv.2⟩

namespace Example

/-- The first of two reservations granted on one day is released the day after, when a third one has
been granted. -/
def releasedLate : List (Move Choice Job ℚ) := List.flatten
  [[.start 1 (.tryReserve "p"), .start 2 (.tryReserve "p")], List.replicate 10 (.run 1 .ok),
    List.replicate 9 (.run 2 .ok), [.env 86400, .start 1 (.tryReserve "p")],
      List.replicate 10 (.run 1 .ok),
    [.start 2 (.release ⟨"p", 1, some "2026-08-31", none, 1⟩)], List.replicate 7 (.run 2 .ok)]

/-- The next operation settles only what was granted and not yet settled. -/
def settlesNext (m : Move Choice Job ℚ) (s : Pool Op Op.Ans Exc World Job ℚ) : Bool :=
  match m with
  | .run i _ => match s.tasks i with
    | some (_, .op o _) => o.settling.all fun r =>
        decide ((settled s.trace).count r < (granted s.trace).count r)
    | _ => true
  | .crash => false
  | _ => true

theorem settlesOnce_of_settlesNext {jobs : Job → Bool} {m : Move Choice Job ℚ}
    {s s' : Pool Op Op.Ans Exc World Job ℚ} (hm : settlesNext m s = true)
    (hs : (system cfg jobs).step m s = some s') : SettlesOnce s.toConfig s'.toConfig := by
  refine ⟨fun htr => ?_, fun i o a htr r hr => ?_⟩
  · obtain rfl := Machine.step_crash hs htr
    cases hm
  · obtain ⟨c, j, k, rfl, ht, -⟩ := Machine.step_did hs htr
    simp only [settlesNext, ht, List.all_eq_true, decide_eq_true_eq] at hm
    exact hm r hr

/-- The tasks of a run, where the two of them stand, the days of the reservations granted and
released, and what is in the books. -/
structure BookSummary where
  tasks : List ℕ
  phases : Dealing × Dealing
  granted : List (Option String)
  released : List (Option String)
  first : Option ℕ
  second : Option ℕ
  slots : ℕ
  deriving DecidableEq

def bookSummary (s : Pool Op Op.Ans Exc World Job ℚ) : BookSummary where
  tasks := (s.trace.filterMap Protocol.task).dedup
  phases := (dealing.phase s.trace 1, dealing.phase s.trace 2)
  granted := (SmtpSwitch.granted s.trace).map Reservation.dayKey
  released := (SmtpSwitch.released s.trace).map Reservation.dayKey
  first := s.shared.db.quota ⟨"p", "2026-08-31", .day⟩
  second := s.shared.db.quota ⟨"p", "2026-09-01", .day⟩
  slots := s.shared.inflight "p"

/-- The counter of the first day is one lower, the one of the second day is not. -/
theorem books_balance_releasedLate : ∃ s,
    (system twoPerDay fun _ => true).runFrom (Machine.boot { clock := 63923749200, up := true })
      releasedLate = some s ∧ Balance (fun _ => none) s.toConfig ∧
      bookSummary s =
        ⟨[2, 1], (.outside, .outside), [some "2026-09-01", some "2026-08-31", some "2026-08-31"],
          [some "2026-08-31"], some 1, some 1, 2⟩ := by
  obtain ⟨s, hs, ha⟩ : ∃ s, (system twoPerDay fun _ => true).runFrom
      (Machine.boot { clock := 63923749200, up := true }) releasedLate = some s ∧ bookSummary s =
        ⟨[2, 1], (.outside, .outside), [some "2026-09-01", some "2026-08-31", some "2026-08-31"],
          [some "2026-08-31"], some 1, some 1, 2⟩ :=
    Option.map_eq_some_iff.mp (by decide +kernel)
  have along : (system twoPerDay fun _ => true).along settlesNext
      (Machine.boot { clock := 63923749200, up := true }) releasedLate = true := by
    decide +kernel
  refine ⟨s, hs, ?_, ha⟩
  refine (books_balance twoPerDay (fun _ => rfl)
    (Machine.Reachable.refl.runFrom_along settlesOnce_of_settlesNext along hs)).1 fun i => ?_
  have tasks : (s.trace.filterMap Protocol.task).dedup = [2, 1] := congrArg BookSummary.tasks ha
  have phases : (dealing.phase s.trace 1, dealing.phase s.trace 2) = (.outside, .outside) :=
    congrArg BookSummary.phases ha
  obtain ⟨one, two⟩ := Prod.mk.inj phases
  by_cases hi : i ∈ s.trace.filterMap Protocol.task
  · rw [← List.mem_dedup, tasks] at hi
    simp only [List.mem_cons, List.not_mem_nil, or_false] at hi
    rcases hi with rfl | rfl
    · exact two
    · exact one
  · exact Protocol.phase_eq_idle hi

end Example

end SmtpSwitch
