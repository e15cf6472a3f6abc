import SmtpSwitch.Limits.Protocol

/-!
# No limit is oversubscribed

`WithinLimits` says that all six limits of every provider hold at the current
time. It is kept by every move of a pool whose tasks keep to the limiter's
protocol: whatever a task has seen under a provider's lock stays an upper bound
on what is there, because rows only age out or are deleted, slots are only given
back and counters do not move while another task holds the lock (`Seen.Valid`).
-/

namespace SmtpSwitch

open Coop

variable (cfg : Settings)

/-! ### The limits -/

/-- The limits of provider `c` hold. -/
structure ProviderConfig.Within (c : ProviderConfig) (w : World) : Prop where
  /-- Every sliding window, each up to now. -/
  sliding : ∀ x ∈ c.limits.slidingWindows,
    countSince w.db.sendLog c.name (w.clock - (x.2.1 : Time)) ≤ x.2.2
  day : ∀ limit, c.limits.perDay = some limit →
    ∀ k, (w.db.quota ⟨c.name, k, .day⟩).getD 0 ≤ (limit : ℕ)
  month : ∀ limit, c.limits.perMonth = some limit →
    ∀ k, (w.db.quota ⟨c.name, k, .month⟩).getD 0 ≤ (limit : ℕ)
  concurrent : ∀ limit, c.limits.maxConcurrent = some limit → w.inflight c.name ≤ (limit : ℕ)

/-- All limits of all providers hold. -/
def WithinLimits (w : World) : Prop := ∀ c ∈ cfg.providers, c.Within w

/-! ### Counting rows -/

theorem countSince_antitone (log : List SendLogEntry) (p : String) {s t : Time} (h : s ≤ t) :
    countSince log p t ≤ countSince log p s :=
  List.countP_mono_left fun e _ he => by
    simp only [decide_eq_true_eq] at he ⊢
    exact ⟨he.1, h.trans he.2⟩

theorem countSince_sublist {log log' : List SendLogEntry} (h : log'.Sublist log) (p : String)
    (s : Time) : countSince log' p s ≤ countSince log p s := h.countP_le

theorem countSince_insert_le (log : List SendLogEntry) (id : ℕ) (p q : String) (s t : Time) :
    countSince (log ++ [⟨id, q, t⟩]) p s ≤ countSince log p s + 1 := by
  rw [countSince, List.countP_append]
  exact Nat.add_le_add_left (List.countP_le_length) _

theorem countSince_insert_ne (log : List SendLogEntry) (id : ℕ) {p q : String} (h : q ≠ p)
    (s t : Time) : countSince (log ++ [⟨id, q, t⟩]) p s = countSince log p s := by
  rw [countSince, List.countP_append]
  simp [h, countSince]

/-! ### What the commits do -/

/-- The counters after one more send on `key`, if there is one. -/
def countUp (quota : QuotaKey → Option ℕ) : Option QuotaKey → QuotaKey → Option ℕ
  | none => quota
  | some key => Function.update quota key (some ((quota key).getD 0 + 1))

/-- The counters after one send less. -/
def countDown (quota : QuotaKey → Option ℕ) : Option QuotaKey → QuotaKey → Option ℕ
  | none => quota
  | some key => Function.update quota key (some ((quota key).getD 0 - 1))

theorem limitNeutral_exec {ss : List Stmt} (h : ss.all Stmt.limitNeutral = true) {db db' : Db}
    (hx : db.execAll ss = some db') : db'.sendLog.Sublist db.sendLog ∧ db'.quota = db.quota := by
  induction ss generalizing db with
  | nil => cases hx; exact ⟨.refl _, rfl⟩
  | cons s ss ih =>
    simp only [List.all_cons, Bool.and_eq_true] at h
    simp only [Db.execAll, Option.bind_eq_some_iff] at hx
    obtain ⟨db₁, h₁, h₂⟩ := hx
    obtain ⟨i₁, i₂⟩ := ih h.2 h₂
    have : db₁.sendLog.Sublist db.sendLog ∧ db₁.quota = db.quota := by
      cases s with
      | insertSendLog p t => cases h.1
      | putQuota key n => cases h.1
      | deleteSendLog id => cases h₁; exact ⟨List.filter_sublist, rfl⟩
      | deleteSendLogBefore cutoff => cases h₁; exact ⟨List.filter_sublist, rfl⟩
      | insertAttempt row =>
        have := (Stmt.exec_frame h₁).limits (by simp [Stmt.table])
        exact ⟨this.1 ▸ .refl _, this.2⟩
      | updateMessage id v =>
        have := (Stmt.exec_frame h₁).limits (by simp [Stmt.table])
        exact ⟨this.1 ▸ .refl _, this.2⟩
      | _ => cases h₁; exact ⟨.refl _, rfl⟩
    exact ⟨i₁.trans this.1, i₂.trans this.2⟩

/-- The rows seen for provider `p` are the rows there. -/
def Seen.RowsValid (seen : Seen) (p : String) (quota : QuotaKey → Option ℕ) : Prop :=
  ∀ key row, (key, row) ∈ seen.rows → key.provider = p → quota key = row

theorem CountUp.exec {seen : Seen} {p : String} {scope : Scope} {limit : Option PositiveInt}
    {ss : List Stmt} (h : CountUp seen p scope limit ss) {db db' : Db}
    (hx : db.execAll ss = some db')
    (hv : ∀ k row, (⟨p, k, scope⟩, row) ∈ seen.rows → db.quota ⟨p, k, scope⟩ = row) :
    ∃ key : Option String, quotaKeys ss = (key.map (⟨p, ·, scope⟩)).toList ∧
      db' = { db with quota := countUp db.quota (key.map (⟨p, ·, scope⟩)) } ∧
      ∀ l, limit = some l → ∃ k, key = some k ∧ (db.quota ⟨p, k, scope⟩).getD 0 < (l : ℕ) := by
  cases limit with
  | none =>
    obtain rfl : ss = [] := h
    cases hx
    exact ⟨none, rfl, rfl, fun _ hl => by cases hl⟩
  | some l =>
    obtain ⟨k, row, row', h₁, h₂, hlt, rfl⟩ := h
    cases hx
    refine ⟨some k, rfl, ?_, fun l' hl => ?_⟩
    · simp only [Option.map_some, countUp, hv k row' h₂]
    · cases hl
      exact ⟨k, rfl, by rw [hv k row h₁]; exact hlt⟩

theorem CountDown.exec {seen : Seen} {p : String} {scope : Scope} {key : Option String}
    {ss : List Stmt} (h : CountDown seen p scope key ss) {db db' : Db}
    (hx : db.execAll ss = some db')
    (hv : ∀ k row, (⟨p, k, scope⟩, row) ∈ seen.rows → db.quota ⟨p, k, scope⟩ = row) :
    quotaKeys ss = (key.map (⟨p, ·, scope⟩)).toList ∧
      db' = { db with quota := countDown db.quota (key.map (⟨p, ·, scope⟩)) } := by
  cases key with
  | none =>
    obtain rfl : ss = [] := h
    cases hx
    exact ⟨rfl, rfl⟩
  | some k =>
    obtain ⟨row, hrow, rfl⟩ := h
    cases hx
    exact ⟨rfl, by simp only [Option.map_some, countDown, hv k row hrow]⟩

/-- A counter of another scope is not moved. -/
theorem countUp_scope {quota : QuotaKey → Option ℕ} {p : String} {key : Option String}
    {scope scope' : Scope} (h : scope' ≠ scope) (q k : String) :
    countUp quota (key.map (⟨p, ·, scope⟩)) ⟨q, k, scope'⟩ = quota ⟨q, k, scope'⟩ := by
  cases key with
  | none => rfl
  | some j => exact Function.update_of_ne (by simp [h]) _ _

/-- A counter of another provider is not moved. -/
theorem countUp_provider {quota : QuotaKey → Option ℕ} {p q : String} {key : Option String}
    {scope : Scope} (h : q ≠ p) (k : String) (scope' : Scope) :
    countUp quota (key.map (⟨p, ·, scope⟩)) ⟨q, k, scope'⟩ = quota ⟨q, k, scope'⟩ := by
  cases key with
  | none => rfl
  | some j => exact Function.update_of_ne (by simp [h]) _ _

theorem countDown_scope {quota : QuotaKey → Option ℕ} {p : String} {key : Option String}
    {scope scope' : Scope} (h : scope' ≠ scope) (q k : String) :
    countDown quota (key.map (⟨p, ·, scope⟩)) ⟨q, k, scope'⟩ = quota ⟨q, k, scope'⟩ := by
  cases key with
  | none => rfl
  | some j => exact Function.update_of_ne (by simp [h]) _ _

theorem countDown_provider {quota : QuotaKey → Option ℕ} {p q : String} {key : Option String}
    {scope : Scope} (h : q ≠ p) (k : String) (scope' : Scope) :
    countDown quota (key.map (⟨p, ·, scope⟩)) ⟨q, k, scope'⟩ = quota ⟨q, k, scope'⟩ := by
  cases key with
  | none => rfl
  | some j => exact Function.update_of_ne (by simp [h]) _ _

theorem countUp_le {quota : QuotaKey → Option ℕ} {key : Option QuotaKey} {k : QuotaKey} {limit : ℕ}
    (h : (quota k).getD 0 ≤ limit) (hk : key = some k → (quota k).getD 0 < limit) :
    (countUp quota key k).getD 0 ≤ limit := by
  cases key with
  | none => exact h
  | some j =>
    simp only [countUp, Function.update_apply]
    split
    · subst k; exact hk rfl
    · exact h

theorem countDown_le (quota : QuotaKey → Option ℕ) (key : Option QuotaKey) (k : QuotaKey) :
    (countDown quota key k).getD 0 ≤ (quota k).getD 0 := by
  cases key with
  | none => exact le_rfl
  | some j =>
    simp only [countDown, Function.update_apply]
    split
    · subst k; simp
    · exact le_rfl

/-- What a grant does: one new row, one up on each limited counter, and every one of these limits
had room. -/
theorem Grant.exec {seen : Seen} {p : String} {ss : List Stmt} (h : Grant cfg seen p ss)
    {db db' : Db} (hv : seen.RowsValid p db.quota) (hx : db.execAll ss = some db') :
    ∃ c now now' day month, cfg.provider p = some c ∧ now' ∈ seen.times ∧
      (∀ x ∈ c.limits.slidingWindows, ∃ n, (now' - (x.2.1 : Time), n) ∈ seen.counts ∧ n < x.2.2) ∧
      quotaKeys ss = (day.map (⟨p, ·, .day⟩)).toList ++ (month.map (⟨p, ·, .month⟩)).toList ∧
      db' = { db with
        sendLog := db.sendLog ++ [⟨nextId (db.sendLog.map SendLogEntry.id), p, now⟩]
        quota := countUp (countUp db.quota (day.map (⟨p, ·, .day⟩)))
          (month.map (⟨p, ·, .month⟩)) } ∧
      (∀ l, c.limits.perDay = some l →
        ∃ k, day = some k ∧ (db.quota ⟨p, k, .day⟩).getD 0 < (l : ℕ)) ∧
      (∀ l, c.limits.perMonth = some l →
        ∃ k, month = some k ∧ (db.quota ⟨p, k, .month⟩).getD 0 < (l : ℕ)) := by
  obtain ⟨c, now, now', ds, ms, hc, rfl, htimes, hwindows, hds, hms⟩ := h.room
  simp only [Db.execAll, Stmt.exec, Option.bind_some, Db.execAll_append,
    Option.bind_eq_some_iff] at hx
  obtain ⟨db₁, h₁, h₂⟩ := hx
  obtain ⟨day, kday, rfl, hday⟩ := hds.exec h₁ fun k row hr => hv _ row hr rfl
  obtain ⟨month, kmonth, rfl, hmonth⟩ := hms.exec h₂
    fun k row hr => (countUp_scope (by decide) p k).trans (hv _ row hr rfl)
  have keys : quotaKeys (.insertSendLog p now :: (ds ++ ms)) =
      (day.map (⟨p, ·, .day⟩)).toList ++ (month.map (⟨p, ·, .month⟩)).toList := by
    rw [← kday, ← kmonth, quotaKeys, List.filterMap_cons_none rfl, List.filterMap_append]
    rfl
  refine ⟨c, now, now', day, month, hc, htimes, hwindows, keys, rfl, hday, fun l hl => ?_⟩
  obtain ⟨k, rfl, hk⟩ := hmonth l hl
  simp only at hk
  rw [countUp_scope (by decide)] at hk
  exact ⟨k, rfl, hk⟩

/-- What a refund does. -/
theorem Refund.exec {seen : Seen} {p : String} {r : Reservation} {ss : List Stmt}
    (h : Refund seen p r ss) {db db' : Db} (hv : seen.RowsValid p db.quota)
    (hx : db.execAll ss = some db') :
    quotaKeys ss =
      (r.dayKey.map (⟨p, ·, .day⟩)).toList ++ (r.monthKey.map (⟨p, ·, .month⟩)).toList ∧
    db' = { db with
      sendLog := db.sendLog.filter fun e => e.id ≠ r.sendLogId
      quota := countDown (countDown db.quota (r.dayKey.map (⟨p, ·, .day⟩)))
        (r.monthKey.map (⟨p, ·, .month⟩)) } := by
  obtain ⟨ds, ms, rfl, hds, hms⟩ := h
  simp only [Db.execAll, Stmt.exec, Option.bind_some, Db.execAll_append,
    Option.bind_eq_some_iff] at hx
  obtain ⟨db₁, h₁, h₂⟩ := hx
  obtain ⟨kday, rfl⟩ := hds.exec h₁ fun k row hr => hv _ row hr rfl
  obtain ⟨kmonth, rfl⟩ := hms.exec h₂
    fun k row hr => (countDown_scope (by decide) p k).trans (hv _ row hr rfl)
  refine ⟨?_, rfl⟩
  rw [← kday, ← kmonth, quotaKeys, List.filterMap_cons_none rfl, List.filterMap_append]
  rfl

/-! ### What a task has seen -/

/-- What a task has seen under the lock of `p` still bounds what is there. -/
structure Seen.Valid (seen : Seen) (p : String) (w : World) : Prop where
  inUse : ∀ n, seen.inUse = some n → w.inflight p ≤ n
  times : ∀ t ∈ seen.times, t ≤ w.clock
  counts : ∀ since n, (since, n) ∈ seen.counts → countSince w.db.sendLog p since ≤ n
  rows : seen.RowsValid p w.db.quota

/-- From `w` to `w'` nothing was taken from the limits of `p`. -/
structure Quiet (p : String) (w w' : World) : Prop where
  clock : w.clock ≤ w'.clock
  inflight : w'.inflight p ≤ w.inflight p
  counts : ∀ since, countSince w'.db.sendLog p since ≤ countSince w.db.sendLog p since
  quota : ∀ key, key.provider = p → w'.db.quota key = w.db.quota key

theorem Quiet.refl (p : String) (w : World) : Quiet p w w :=
  ⟨le_rfl, le_rfl, fun _ => le_rfl, fun _ _ => rfl⟩

variable {cfg} {p : String} {w w' : World}

theorem Quiet.valid (h : Quiet p w w') {seen : Seen} (hv : seen.Valid p w) : seen.Valid p w' where
  inUse n hn := h.inflight.trans (hv.inUse n hn)
  times t ht := (hv.times t ht).trans h.clock
  counts since n hn := (h.counts since).trans (hv.counts since n hn)
  rows key row hr hp := (h.quota key hp).trans (hv.rows key row hr hp)

theorem Quiet.within {c : ProviderConfig} (h : Quiet c.name w w') (hw : c.Within w) :
    c.Within w' where
  sliding x hx := by
    have older : w.clock - (x.2.1 : Time) ≤ w'.clock - (x.2.1 : Time) := sub_le_sub_right h.clock _
    calc countSince w'.db.sendLog c.name (w'.clock - (x.2.1 : Time))
        ≤ countSince w.db.sendLog c.name (w'.clock - (x.2.1 : Time)) := h.counts _
      _ ≤ countSince w.db.sendLog c.name (w.clock - (x.2.1 : Time)) := countSince_antitone _ _ older
      _ ≤ x.2.2 := hw.sliding x hx
  day limit hl k := by rw [h.quota _ rfl]; exact hw.day limit hl k
  month limit hl k := by rw [h.quota _ rfl]; exact hw.month limit hl k
  concurrent limit hl := h.inflight.trans (hw.concurrent limit hl)

/-- A grant keeps the limits of its provider. -/
theorem Grant.within {seen : Seen} {ss : List Stmt} (h : Grant cfg seen p ss) (hv : seen.Valid p w)
    {db : Db} (hx : w.db.execAll ss = some db) {c : ProviderConfig} (hc : cfg.provider p = some c)
    (hw : c.Within w) : c.Within { w with db := db } := by
  obtain ⟨c', now, now', day, month, hc', htimes, hwindows, -, rfl, hday, hmonth⟩ :=
    h.exec cfg hv.rows hx
  obtain rfl : c = c' := Option.some.inj (hc.symm.trans hc')
  have hp := Settings.provider_name hc
  refine ⟨fun x hx => ?_, fun limit hl k => ?_, fun limit hl k => ?_, hw.concurrent⟩
  · obtain ⟨n, hn, hlt⟩ := hwindows x hx
    -- the count was taken at `now'`, which is not after now
    have older : now' - (x.2.1 : Time) ≤ w.clock - (x.2.1 : Time) :=
      sub_le_sub_right (hv.times now' htimes) _
    have before := (countSince_antitone w.db.sendLog p older).trans (hv.counts _ n hn)
    rw [hp]
    exact (countSince_insert_le _ _ _ _ _ _).trans (Nat.lt_of_le_of_lt before hlt)
  · simp only
    rw [countUp_scope (by decide)]
    obtain ⟨j, rfl, hj⟩ := hday limit hl
    refine countUp_le (hw.day limit hl k) fun hk => ?_
    rw [← Option.some.inj hk]
    exact hj
  · obtain ⟨j, rfl, hj⟩ := hmonth limit hl
    simp only
    refine countUp_le ?_ fun hk => ?_
    · rw [countUp_scope (by decide)]
      exact hw.month limit hl k
    · rw [← Option.some.inj hk, countUp_scope (by decide)]
      exact hj

/-- A refund keeps the limits of its provider. -/
theorem Refund.within {seen : Seen} {r : Reservation} {ss : List Stmt} (h : Refund seen p r ss)
    (hv : seen.Valid p w) {db : Db} (hx : w.db.execAll ss = some db) {c : ProviderConfig}
    (hw : c.Within w) : c.Within { w with db := db } := by
  obtain ⟨-, rfl⟩ := h.exec hv.rows hx
  have less : ∀ k, (countDown (countDown w.db.quota (r.dayKey.map (⟨p, ·, .day⟩)))
      (r.monthKey.map (⟨p, ·, .month⟩)) k).getD 0 ≤ (w.db.quota k).getD 0 :=
    fun k => (countDown_le _ _ _).trans (countDown_le _ _ _)
  exact ⟨fun x hx => (countSince_sublist List.filter_sublist _ _).trans (hw.sliding x hx),
    fun limit hl k => (less _).trans (hw.day limit hl k),
    fun limit hl k => (less _).trans (hw.month limit hl k), hw.concurrent⟩

/-- A grant or a refund is quiet for every other provider. -/
theorem quiet_of_grant {seen : Seen} {ss : List Stmt} (h : Grant cfg seen p ss)
    (hv : seen.Valid p w) {db : Db} (hx : w.db.execAll ss = some db) {q : String} (hq : q ≠ p) :
    Quiet q w { w with db := db } := by
  obtain ⟨c, now, now', day, month, -, -, -, -, rfl, -, -⟩ := h.exec cfg hv.rows hx
  refine ⟨le_rfl, le_rfl, fun since => (countSince_insert_ne _ _ hq.symm _ _).le, ?_⟩
  rintro ⟨q', k, scope⟩ rfl
  simp only
  rw [countUp_provider hq, countUp_provider hq]

theorem quiet_of_refund {seen : Seen} {r : Reservation} {ss : List Stmt} (h : Refund seen p r ss)
    (hv : seen.Valid p w) {db : Db} (hx : w.db.execAll ss = some db) {q : String} (hq : q ≠ p) :
    Quiet q w { w with db := db } := by
  obtain ⟨-, rfl⟩ := h.exec hv.rows hx
  refine ⟨le_rfl, le_rfl, fun since => countSince_sublist List.filter_sublist _ _, ?_⟩
  rintro ⟨q', k, scope⟩ rfl
  simp only
  rw [countDown_provider hq, countDown_provider hq]

theorem quiet_of_neutral {ss : List Stmt} (h : ss.all Stmt.limitNeutral = true) {db : Db}
    (hx : w.db.execAll ss = some db) (q : String) : Quiet q w { w with db := db } := by
  obtain ⟨hlog, hquota⟩ := limitNeutral_exec h hx
  exact ⟨le_rfl, le_rfl, fun since => countSince_sublist hlog _ _, fun key _ => congrFun hquota key⟩

/-! ### What one operation does -/

/-- The provider whose lock is held. -/
def LimiterPhase.lock : LimiterPhase → Option String
  | .outside => none
  | .holding p _ => some p

section Operation

variable {i : ℕ} {o : Op} {ch : Choice} {a : o.Ans} {seen : Seen}

theorem quiet_of_frame (h : World.Frame o.part w w') (hdb : o.part ≠ some .db)
    (hin : o.part ≠ some .inflight) (q : String) : Quiet q w w' :=
  ⟨h.clock.ge, (congrFun (h.inflight hin) q).le, fun since => by rw [h.db hdb],
    fun key _ => by rw [h.db hdb]⟩

/-- An operation is quiet for the providers whose lock the task does not hold. -/
theorem quiet_of_good {φ : LimiterPhase} (he : exec cfg i o ch w = some (a, w'))
    (hg : φ.good cfg o a) (hv : ∀ p seen, φ = .holding p seen → seen.Valid p w) {q : String}
    (hq : ∀ seen, φ ≠ .holding q seen) : Quiet q w w' := by
  have frame := exec_frame cfg he
  cases o with
  | commit site ss =>
    obtain ⟨db, hx, -, rfl⟩ | ⟨-, rfl⟩ := exec_commit he
    · rcases hg with hg | ⟨p, seen, rfl, hg | ⟨r, hg⟩⟩
      · exact quiet_of_neutral hg hx q
      · exact quiet_of_grant hg (hv p seen rfl) hx fun h => hq seen (h ▸ rfl)
      · exact quiet_of_refund hg (hv p seen rfl) hx fun h => hq seen (h ▸ rfl)
    · exact .refl q _
  | incInflight p =>
    obtain ⟨seen, rfl, -⟩ := hg
    obtain rfl := exec_incInflight he
    have : q ≠ p := fun h => hq seen (h ▸ rfl)
    exact ⟨le_rfl, by simp [this], fun _ => le_rfl, fun _ _ => rfl⟩
  | decInflight p =>
    obtain rfl := exec_decInflight he
    refine ⟨le_rfl, ?_, fun _ => le_rfl, fun _ _ => rfl⟩
    simp only [Function.update_apply]
    split
    · subst q; omega
    · exact le_rfl
  | _ => exact quiet_of_frame frame (by simp [Op.part]) (by simp [Op.part]) q

/-- What the task itself has seen stays valid, with what it sees now. -/
theorem valid_of_good (he : exec cfg i o ch w = some (a, w'))
    (hg : LimiterPhase.good cfg (.holding p seen) o a) (hv : seen.Valid p w) {q : String}
    {seen' : Seen} (hn : LimiterPhase.next (.holding p seen) o a = .holding q seen') :
    q = p ∧ seen'.Valid p w' := by
  have frame := exec_frame cfg he
  have quiet (hdb : o.part ≠ some .db) (hin : o.part ≠ some .inflight) : seen.Valid p w' :=
    (quiet_of_frame frame hdb hin p).valid hv
  cases o with
  | acquire l => cases l <;> cases hn <;> exact ⟨rfl, quiet (by simp [Op.part]) (by simp [Op.part])⟩
  | unlock l =>
    cases l with
    | limiter p => cases hn
    | breaker p => cases hn; exact ⟨rfl, quiet (by simp [Op.part]) (by simp [Op.part])⟩
  | utcnow =>
    cases hn
    obtain ⟨rfl, rfl⟩ := exec_utcnow he
    exact ⟨rfl, hv.inUse, List.forall_mem_cons.mpr ⟨le_rfl, hv.times⟩, hv.counts, hv.rows⟩
  | inflight p' =>
    obtain ⟨_, hp⟩ := hg
    cases hp
    cases hn
    obtain ⟨rfl, rfl⟩ := exec_inflight he
    exact ⟨rfl, fun n hn => by cases hn; exact le_rfl, hv.times, hv.counts, hv.rows⟩
  | incInflight p' =>
    cases hn
    obtain rfl := exec_incInflight he
    refine ⟨rfl, ?_, hv.times, hv.counts, hv.rows⟩
    intro n hn
    cases hn
  | decInflight p' =>
    cases hn
    obtain rfl := exec_decInflight he
    refine ⟨rfl, fun n hn => le_trans ?_ (hv.inUse n hn), hv.times, hv.counts, hv.rows⟩
    simp only [Function.update_apply]
    split
    · subst p; omega
    · exact le_rfl
  | select site query =>
    obtain ⟨ha, rfl⟩ := exec_select he
    cases query with
    | countSendLog p' since =>
      obtain ⟨_, hp⟩ := hg
      cases hp
      rcases ha with rfl | ⟨e, rfl⟩
      · cases hn
        refine ⟨rfl, hv.inUse, hv.times, fun s n hs => ?_, hv.rows⟩
        rcases List.mem_cons.mp hs with hs | hs
        · cases hs; exact le_rfl
        · exact hv.counts s n hs
      · cases hn; exact ⟨rfl, hv⟩
    | quota key =>
      rcases ha with rfl | ⟨e, rfl⟩
      · cases hn
        refine ⟨rfl, hv.inUse, hv.times, hv.counts, fun k row hk hp => ?_⟩
        rcases List.mem_cons.mp hk with hk | hk
        · cases hk; rfl
        · exact hv.rows k row hk hp
      · cases hn; exact ⟨rfl, hv⟩
    | _ => cases hn; exact ⟨rfl, hv⟩
  | commit site ss =>
    cases hn
    have inUse : ∀ n, seen.inUse = some n → w'.inflight p ≤ n := fun n hn =>
      (congrFun (frame.inflight (by simp [Op.part])) p).le.trans (hv.inUse n hn)
    have times : ∀ t ∈ seen.times, t ≤ w'.clock := fun t ht => (hv.times t ht).trans frame.clock.ge
    refine ⟨rfl, inUse, times, ?_, ?_⟩
    · intro since n h
      cases h
    · intro key row h
      cases h
  | _ => cases hn; exact ⟨rfl, quiet (by simp [Op.part]) (by simp [Op.part])⟩

/-- The limits of the provider whose lock the task holds are kept. -/
theorem within_of_good (he : exec cfg i o ch w = some (a, w'))
    (hg : LimiterPhase.good cfg (.holding p seen) o a) (hv : seen.Valid p w) {c : ProviderConfig}
    (hc : cfg.provider p = some c) (hw : c.Within w) : c.Within w' := by
  have hp := Settings.provider_name hc
  have frame := exec_frame cfg he
  cases o with
  | commit site ss =>
    obtain ⟨db, hx, -, rfl⟩ | ⟨-, rfl⟩ := exec_commit he
    · rcases hg with hg | ⟨p', seen', hφ, hg | ⟨r, hg⟩⟩
      · exact (quiet_of_neutral hg hx _).within hw
      · cases hφ; exact hg.within hv hx hc hw
      · cases hφ; exact hg.within hv hx hw
    · exact hw
  | incInflight p' =>
    obtain ⟨_, hφ, hroom⟩ := hg
    cases hφ
    obtain rfl := exec_incInflight he
    refine ⟨hw.sliding, hw.day, hw.month, fun m hm => ?_⟩
    obtain ⟨n, hn, hlt⟩ := hroom c m hc hm
    have := hv.inUse n hn
    simp only [hp, Function.update_self]
    omega
  | decInflight p' =>
    exact (quiet_of_good (φ := .outside) he trivial (fun _ _ h => by cases h) fun _ h => by
      cases h).within hw
  | _ => exact (quiet_of_frame frame (by simp [Op.part]) (by simp [Op.part]) _).within hw

/-- The owner of a limiter's lock changes by taking it and giving it back only. -/
theorem locks_of_good {φ : LimiterPhase} (he : exec cfg i o ch w = some (a, w'))
    (hg : φ.good cfg o a) :
    ((∀ q, w'.locks (.limiter q) = w.locks (.limiter q)) ∧ (φ.next o a).lock = φ.lock) ∨
    (∃ p, φ = .outside ∧ φ.next o a = .holding p {} ∧ w.locks (.limiter p) = none ∧
      w'.locks = Function.update w.locks (.limiter p) (some i)) ∨
    ∃ p, φ.lock = some p ∧ φ.next o a = .outside ∧
      w'.locks = Function.update w.locks (.limiter p) none := by
  have frame := exec_frame cfg he
  cases o with
  | acquire l =>
    obtain ⟨hfree, rfl⟩ := exec_acquire he
    cases l with
    | limiter p =>
      obtain rfl : φ = .outside := hg
      exact .inr (.inl ⟨p, rfl, rfl, hfree, rfl⟩)
    | breaker p => refine .inl ⟨fun q => by simp, ?_⟩; cases φ <;> rfl
  | unlock l =>
    obtain rfl := exec_unlock he
    cases l with
    | limiter p =>
      obtain ⟨seen, rfl⟩ := hg
      exact .inr (.inr ⟨p, rfl, rfl, rfl⟩)
    | breaker p => refine .inl ⟨fun q => by simp, ?_⟩; cases φ <;> rfl
  | select site query =>
    refine .inl ⟨fun q => by rw [frame.locks (by simp [Op.part])], ?_⟩
    cases φ <;> cases query <;> cases a <;> rfl
  | _ =>
    refine .inl ⟨fun q => by rw [frame.locks (by simp [Op.part])], ?_⟩
    cases φ <;> rfl

end Operation

/-! ### The invariant -/

/-- A provider's lock is held by one task, and what that task has seen is valid. -/
structure LockInv (cfg : Settings) (x : Moment) : Prop where
  locked : ∀ i p, ((limiterProtocol cfg).phase x.trace i).lock = some p →
    x.shared.locks (.limiter p) = some i
  valid : ∀ i p seen, (limiterProtocol cfg).phase x.trace i = .holding p seen →
    seen.Valid p x.shared

namespace LockInv

variable {jobs : Job → Bool} {x x' : Moment}

/-- Two tasks do not hold the same lock. -/
theorem disjoint (h : LockInv cfg x) {i k : ℕ} (hk : k ≠ i) {q : String} {seen : Seen}
    (hq : (limiterProtocol cfg).phase x.trace k = .holding q seen) (seen' : Seen) :
    (limiterProtocol cfg).phase x.trace i ≠ .holding q seen' := fun hi => by
  have h₁ := h.locked k q (by rw [hq]; rfl)
  have h₂ := h.locked i q (by rw [hi]; rfl)
  exact hk (Option.some.inj (h₁.symm.trans h₂))

section Did

variable {w w' : World} {tr : List (Entry Op Op.Ans Job ℚ)} {i : ℕ} {o : Op} {ch : Choice}
  {a : o.Ans}

theorem locked_did (h : LockInv cfg ⟨w, tr⟩) (he : exec cfg i o ch w = some (a, w'))
    (hg : ((limiterProtocol cfg).phase tr i).good cfg o a) (k : ℕ) (q : String)
    (hk : ((limiterProtocol cfg).phase (.did i o a :: tr) k).lock = some q) :
    w'.locks (.limiter q) = some k := by
  have effect := locks_of_good he hg
  by_cases hki : k = i
  · subst hki
    rw [Protocol.phase_did, Function.update_self] at hk
    rcases effect with ⟨hl, hφ⟩ | ⟨p, -, hφ, -, hl⟩ | ⟨p, -, hφ, -⟩
    · rw [hl]
      exact h.locked k q (hφ.symm.trans hk)
    · obtain rfl : p = q := Option.some.inj ((congrArg LimiterPhase.lock hφ).symm.trans hk)
      rw [hl, Function.update_self]
    · cases (congrArg LimiterPhase.lock hφ).symm.trans hk
  · rw [Protocol.phase_did, Function.update_of_ne hki] at hk
    have before : w.locks (.limiter q) = some k := h.locked k q hk
    rcases effect with ⟨hl, -⟩ | ⟨p, -, -, hfree, hl⟩ | ⟨p, hφ, -, hl⟩
    · rw [hl, before]
    · have : q ≠ p := fun hqp => by rw [hqp, hfree] at before; cases before
      rw [hl, Function.update_of_ne (by simpa using this), before]
    · have : q ≠ p := fun hqp => by
        have := h.locked i p hφ
        exact hki (Option.some.inj ((hqp ▸ before).symm.trans this))
      rw [hl, Function.update_of_ne (by simpa using this), before]

theorem valid_did (h : LockInv cfg ⟨w, tr⟩) (he : exec cfg i o ch w = some (a, w'))
    (hg : ((limiterProtocol cfg).phase tr i).good cfg o a) (k : ℕ) (q : String) (seen : Seen)
    (hk : (limiterProtocol cfg).phase (.did i o a :: tr) k = .holding q seen) :
    seen.Valid q w' := by
  by_cases hki : k = i
  · subst hki
    rw [Protocol.phase_did, Function.update_self] at hk
    cases hφ : (limiterProtocol cfg).phase tr k with
    | outside =>
      rw [hφ] at hg hk
      rcases locks_of_good he hg with ⟨-, hl⟩ | ⟨p, -, hn, -, -⟩ | ⟨p, hl, -, -⟩
      · cases (congrArg LimiterPhase.lock hk).symm.trans hl
      · cases hn.symm.trans hk
        refine ⟨?_, ?_, ?_, ?_⟩
        · intro n hn
          cases hn
        · intro t ht
          cases ht
        · intro since n hn
          cases hn
        · intro key row hr
          cases hr
      · cases hl
    | holding p seen₀ =>
      rw [hφ] at hg hk
      obtain ⟨rfl, hv⟩ := valid_of_good he hg (h.valid k p seen₀ hφ) hk
      exact hv
  · rw [Protocol.phase_did, Function.update_of_ne hki] at hk
    exact (quiet_of_good he hg (h.valid i) (h.disjoint hki hk)).valid (h.valid k q seen hk)

end Did

/-- Nothing is held at the start. -/
theorem init (w : World) : LockInv cfg ⟨w, []⟩ :=
  ⟨fun _ _ hi => (by cases hi), by intro _ _ _ hi; cases hi⟩

/-- Every move keeps the locks in order. -/
theorem step (h : LockInv cfg x) (hs : (system cfg jobs).Step (limiterProtocol cfg) x x') :
    LockInv cfg x' := by
  cases hs with
  | @start w tr i j ha hi =>
    have same : (limiterProtocol cfg).phase (.start i j :: tr) = (limiterProtocol cfg).phase tr :=
      Protocol.phase_start_idle rfl hi
    constructor
    · intro i
      rw [same]
      exact h.locked i
    · intro i
      rw [same]
      exact h.valid i
  | @env w tr d =>
    have quiet : ∀ q, Quiet q w ((system cfg jobs).env d w) := fun q =>
      ⟨le_add_of_nonneg_right (le_max_right _ _), le_rfl, fun _ => le_rfl, fun _ _ => rfl⟩
    exact ⟨h.locked, fun i p seen hi => (quiet p).valid (h.valid i p seen hi)⟩
  | crash => exact ⟨fun i p hi => (by cases hi), by intro i p seen hi; cases hi⟩
  | @did w w' tr i o ch a he hg => exact ⟨h.locked_did he hg, h.valid_did he hg⟩

end LockInv

/-- The invariant of the limiter: the locks are in order, and all limits hold. -/
structure LimiterInv (cfg : Settings) (x : Moment) : Prop extends LockInv cfg x where
  within : WithinLimits cfg x.shared

namespace LimiterInv

variable {jobs : Job → Bool} {x x' : Moment}

theorem within_did {w w' : World} {tr : List (Entry Op Op.Ans Job ℚ)} {i : ℕ} {o : Op} {ch : Choice}
    {a : o.Ans} (h : LimiterInv cfg ⟨w, tr⟩) (he : exec cfg i o ch w = some (a, w'))
    (hg : ((limiterProtocol cfg).phase tr i).good cfg o a) : WithinLimits cfg w' := by
  intro c hc
  have hw := h.within c hc
  by_cases hφ : ∃ seen, (limiterProtocol cfg).phase tr i = .holding c.name seen
  · obtain ⟨seen, hφ⟩ := hφ
    rw [hφ] at hg
    exact within_of_good he hg (h.valid i c.name seen hφ) (Settings.provider_of_mem hc) hw
  · exact (quiet_of_good he hg (h.valid i) fun seen hs => hφ ⟨seen, hs⟩).within hw

/-- Every move keeps the invariant. -/
theorem step (h : LimiterInv cfg x) (hs : (system cfg jobs).Step (limiterProtocol cfg) x x') :
    LimiterInv cfg x' := by
  refine ⟨h.toLockInv.step hs, ?_⟩
  cases hs with
  | start ha hi => exact h.within
  | @env w tr d =>
    have quiet : ∀ q, Quiet q w ((system cfg jobs).env d w) := fun q =>
      ⟨le_add_of_nonneg_right (le_max_right _ _), le_rfl, fun _ => le_rfl, fun _ _ => rfl⟩
    exact fun c hc => (quiet _).within (h.within c hc)
  | crash =>
    intro c hc
    have hw := h.within c hc
    exact ⟨hw.sliding, hw.day, hw.month, fun m _ => Nat.zero_le _⟩
  | did he hg => exact h.within_did he hg

end LimiterInv

/-- The invariant holds in every pool reached from a state within the limits. -/
theorem limiterInv_of_reachable {cfg : Settings} {jobs : Job → Bool} {w : World}
    {C : Moment → Moment → Prop} (hw : WithinLimits cfg w)
    {s : Pool Op Op.Ans Exc World Job ℚ} (h : (system cfg jobs).Reachable C (Machine.boot w) s) :
    LimiterInv cfg s.toConfig := by
  exact (Machine.invariant ((limiter_callsWhole cfg).keeps jobs fun _ => rfl) (LimiterInv cfg)
    ⟨.init w, hw⟩ (fun h hs _ => h.step hs) h).1

/-- **No configured limit is ever oversubscribed.** Whatever calls of the limiter, and whatever
else, run in whatever order: at every time every sliding window, every day and month counter and
the slots in use are within their limits. -/
theorem within_limits_always (cfg : Settings) (jobs : Job → Bool) {w : World}
    (hw : WithinLimits cfg w) {s : Pool Op Op.Ans Exc World Job ℚ}
    (h : (system cfg jobs).Reachable Machine.Free (Machine.boot w) s) :
    WithinLimits cfg s.shared :=
  (limiterInv_of_reachable hw h).within

namespace Example

/-- Two calls of `try_reserve`, the second one waiting for the first one's lock. -/
def twoCalls : List (Move Choice Job ℚ) :=
  [.start 1 (.tryReserve "p"), .start 2 (.tryReserve "p")] ++ List.replicate 12 (.run 1 .ok) ++
    List.replicate 3 (.run 2 .ok)

theorem within_oneProvider : WithinLimits oneProvider { clock := 63923749200, up := true } := by
  intro c hc
  obtain rfl : c = _ := List.mem_singleton.mp hc
  exact ⟨fun x _ => Nat.zero_le _, fun _ _ _ => Nat.zero_le _, fun _ _ _ => Nat.zero_le _,
    fun _ _ => Nat.zero_le _⟩

theorem within_limits_always_twoCalls : ∃ s,
    (system oneProvider fun _ => true).runFrom
      (Machine.boot { clock := 63923749200, up := true }) twoCalls = some s ∧
    s.shared.inflight "p" = 1 ∧ WithinLimits oneProvider s.shared := by
  obtain ⟨s, hs, hin⟩ : ∃ s, (system oneProvider fun _ => true).runFrom
      (Machine.boot { clock := 63923749200, up := true }) twoCalls = some s ∧
        s.shared.inflight "p" = 1 :=
    Option.map_eq_some_iff.mp (by decide +kernel)
  exact ⟨s, hs, hin, within_limits_always _ _ within_oneProvider
    (Machine.Reachable.refl.runFrom hs)⟩

end Example

end SmtpSwitch
