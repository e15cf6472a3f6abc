import Mathlib.Order.Bounds.Basic
import SmtpSwitch.Breaker.History
import SmtpSwitch.RateLimiter

/-!
# Headroom

`check` and `try_reserve` evaluate the six limits in code of their own. Both come to the same: what
is left of each limit that is configured (`rooms`) is a function of the state, `check`
reports it and changes nothing, and `try_reserve` grants when there is something left of each
(`alone_check`, `alone_tryReserve`). A grant takes one from each (`rooms_granted`), so the number of
grants in a row is the smallest headroom.
-/

namespace SmtpSwitch.RateLimiter

open Coop Coop.Prog
open CircuitBreaker (unfailing)

variable (cfg : Settings)

/-! ### What is left of the limits -/

/-- The counter of the day. -/
def dayKey (p : String) (now : Time) : QuotaKey := ⟨p, dayPeriodKey now, .day⟩

/-- The counter of the month. -/
def monthKey (p : String) (limits : ProviderLimits) (now : Time) : QuotaKey :=
  ⟨p, monthPeriodKey now limits.monthResetDay, .month⟩

/-- What is left of a limit, if it is configured. -/
def roomOf (name : LimitName) (used : ℕ) : Option PositiveInt → List (LimitName × ℤ)
  | none => []
  | some limit => [(name, (limit : ℕ) - used)]

/-- The use of a window. -/
def windowUse (p : String) (w : World) (x : Window × ℕ × ℕ) : ℕ :=
  countSince w.db.sendLog p (w.clock - x.2.1)

/-- What is left of each limit that is configured, in the order of `check`. -/
def rooms (limits : ProviderLimits) (p : String) (w : World) : List (LimitName × ℤ) :=
  roomOf .concurrent (w.inflight p) limits.maxConcurrent ++
    limits.slidingWindows.map (fun x => (LimitName.window x.1, (x.2.2 - windowUse p w x : ℤ))) ++
    roomOf .perDay ((w.db.quota (dayKey p w.clock)).getD 0) limits.perDay ++
    roomOf .perMonth ((w.db.quota (monthKey p limits w.clock)).getD 0) limits.perMonth

/-- No limit is configured. -/
def Unlimited (limits : ProviderLimits) : Prop :=
  limits.maxConcurrent = none ∧ limits.perSecond = none ∧ limits.perMinute = none ∧
    limits.perHour = none ∧ limits.perDay = none ∧ limits.perMonth = none

variable {cfg} {limits : ProviderLimits} {p : String} {w : World}

theorem roomOf_eq_nil {name : LimitName} {used : ℕ} {limit : Option PositiveInt} :
    roomOf name used limit = [] ↔ limit = none := by
  cases limit <;> simp [roomOf]

theorem slidingWindows_eq_nil :
    limits.slidingWindows = [] ↔
      limits.perSecond = none ∧ limits.perMinute = none ∧ limits.perHour = none := by
  unfold ProviderLimits.slidingWindows
  cases limits.perSecond <;> cases limits.perMinute <;> cases limits.perHour <;> simp [windowOf]

theorem rooms_eq_nil : rooms limits p w = [] ↔ Unlimited limits := by
  simp only [rooms, List.append_eq_nil_iff, List.map_eq_nil_iff, roomOf_eq_nil,
    slidingWindows_eq_nil, Unlimited]
  tauto

/-- The count of a window is found under its name. -/
theorem lookup_counts (use : Window × ℕ × ℕ → ℕ) {x : Window × ℕ × ℕ}
    (h : x ∈ limits.slidingWindows) :
    (limits.slidingWindows.map fun x => (x.1, use x)).lookup x.1 = some (use x) := by
  revert h
  unfold ProviderLimits.slidingWindows
  cases limits.perSecond <;> cases limits.perMinute <;> cases limits.perHour <;>
    simp only [windowOf, List.append_nil, List.nil_append, List.cons_append, List.mem_cons,
      List.not_mem_nil, or_false, List.map_cons, List.map_nil, false_implies]
  all_goals
    intro h
    rcases h with rfl | rfl | rfl <;> rfl

/-! ### What the code finds -/

/-- The findings on these limits. -/
def Findings.ofRooms (rs : List (LimitName × ℤ)) : Findings where
  headroom := rs.map fun r => (r.1, (max 0 r.2).toNat)
  blocking := (rs.find? fun r => r.2 ≤ 0).map Prod.fst

theorem Findings.add_ofRooms (rs : List (LimitName × ℤ)) (name : LimitName) (room : ℤ) :
    (Findings.ofRooms rs).add name room = .ofRooms (rs ++ [(name, room)]) := by
  unfold Findings.add Findings.ofRooms
  simp only [List.map_append, List.map_cons, List.map_nil, List.find?_append,
    Findings.mk.injEq, true_and]
  cases hf : rs.find? fun r => r.2 ≤ 0 with
  | some r =>
    split <;> simp
  | none =>
    by_cases hr : room ≤ 0
    · simp [hr]
    · simp [hr]

theorem ofRooms_checkWindows (rs : List (LimitName × ℤ)) (use : Window × ℕ × ℕ → ℕ) :
    checkWindows limits (limits.slidingWindows.map fun x => (x.1, use x)) (.ofRooms rs) =
      .ofRooms (rs ++ limits.slidingWindows.map fun x =>
        (LimitName.window x.1, (x.2.2 - use x : ℤ))) := by
  have go : ∀ (xs : List (Window × ℕ × ℕ)) (counts : List (Window × ℕ)) (rs : List (LimitName × ℤ)),
      (∀ x ∈ xs, counts.lookup x.1 = some (use x)) →
      xs.foldl (fun (found : Findings) w =>
        found.add (.window w.1) (w.2.2 - ((counts.lookup w.1).getD 0 : ℕ))) (.ofRooms rs) =
        .ofRooms (rs ++ xs.map fun x => (LimitName.window x.1, (x.2.2 - use x : ℤ))) := by
    intro xs counts
    induction xs with
    | nil => simp
    | cons x xs ih =>
      intro rs look
      rw [List.foldl_cons, look x List.mem_cons_self, Option.getD_some, Findings.add_ofRooms,
        ih _ fun x hx => look x (List.mem_cons_of_mem _ hx)]
      simp
  exact go _ _ _ fun x hx => lookup_counts use hx

theorem windowFull_counts (use : Window × ℕ × ℕ → ℕ) :
    windowFull limits (limits.slidingWindows.map fun x => (x.1, use x)) = true ↔
      ∃ r ∈ limits.slidingWindows.map fun x => (LimitName.window x.1, (x.2.2 - use x : ℤ)),
        r.2 ≤ 0 := by
  simp only [windowFull, List.any_eq_true, decide_eq_true_eq, List.mem_map]
  constructor
  · intro h
    obtain ⟨x, hx, full⟩ := h
    rw [lookup_counts use hx] at full
    exact ⟨_, ⟨x, hx, rfl⟩, by simpa using full⟩
  · intro h
    obtain ⟨_, ⟨x, hx, rfl⟩, full⟩ := h
    refine ⟨x, hx, ?_⟩
    rw [lookup_counts use hx]
    simpa using full

variable (cfg) in
theorem alone_utcnow : (perform .utcnow).alone (unfailing cfg) w = some (.ok w.clock, w) := rfl

variable (cfg) in
theorem alone_flush (site : Site) : (flush site).alone (unfailing cfg) w = some (.ok (), w) := rfl

variable (cfg) in
/-- A session that commits. -/
theorem alone_commit {site : Site} {ss : List Stmt} {db : Db} (h : w.db.execAll ss = some db) :
    (SmtpSwitch.commit site ss).alone (unfailing cfg) w =
      some (.ok (w.db.insertedId ss), { w with db := db }) := by
  simp [SmtpSwitch.commit, alone, unfailing, exec, h, Prog.ofExcept]

variable (cfg) in
theorem alone_countWindows (site : Site) : ∀ xs : List (Window × ℕ × ℕ),
    (countWindows site p w.clock xs).alone (unfailing cfg) w =
      some (.ok (xs.map fun x => (x.1, windowUse p w x)), w)
  | [] => rfl
  | x :: xs => by
    have rest := alone_countWindows site xs
    change (((countWindows site p w.clock xs).bind fun counts =>
      Prog.ret ((x.1, windowUse p w x) :: counts)).alone (unfailing cfg) w) = _
    rw [alone_bind, rest]
    rfl

variable (cfg) in
theorem alone_slidingCounts (site : Site) :
    (slidingCounts site p limits).alone (unfailing cfg) w =
      some (.ok (limits.slidingWindows.map fun x => (x.1, windowUse p w x)), w) :=
  alone_countWindows cfg site _

variable (cfg) in
theorem alone_checkQuota (name : LimitName) (key : QuotaKey) (rs : List (LimitName × ℤ))
    (limit : Option PositiveInt) :
    (checkQuota name key (.ofRooms rs) limit).alone (unfailing cfg) w =
      some (.ok (.ofRooms (rs ++ roomOf name ((w.db.quota key).getD 0) limit)), w) := by
  cases limit with
  | none => simp [checkQuota, roomOf]
  | some limit =>
    rw [roomOf, ← Findings.add_ofRooms]
    rfl

variable (cfg) in
/-- `check` reports what is left, and changes nothing. -/
theorem alone_check {c : ProviderConfig} (hc : cfg.provider p = some c) :
    (check cfg p).alone (unfailing cfg) w = some (.ok
      ⟨(Findings.ofRooms (rooms c.limits p w)).blocking.isNone,
        (Findings.ofRooms (rooms c.limits p w)).blocking,
        some (Findings.ofRooms (rooms c.limits p w)).headroom⟩, w) := by
  have concurrent : (checkConcurrent p c.limits.maxConcurrent).alone (unfailing cfg) w =
      some (.ok (.ofRooms (roomOf .concurrent (w.inflight p) c.limits.maxConcurrent)), w) := by
    cases c.limits.maxConcurrent with
    | none => rfl
    | some m =>
      rw [roomOf, ← List.nil_append [_], ← Findings.add_ofRooms]
      rfl
  simp only [check, hc, bind_eq]
  rw [alone_bind, concurrent]
  simp only [Option.bind_some]
  rw [alone_bind, alone_slidingCounts]
  simp only [Option.bind_some]
  rw [ofRooms_checkWindows, alone_bind, alone_utcnow]
  simp only [Option.bind_some]
  rw [alone_bind, alone_checkQuota]
  simp only [Option.bind_some]
  rw [alone_bind, alone_checkQuota]
  rfl

/-! ### What `try_reserve` does -/

/-- What `try_reserve` finds out about a counter. -/
def roomFound (key : QuotaKey) (row : Option ℕ) : Option PositiveInt → QuotaRoom
  | none => .unlimited
  | some limit => if (limit : ℕ) ≤ row.getD 0 then .full else .room key row

/-- The statement that bumps a counter with a limit. -/
def bumpStmts (key : QuotaKey) (row : Option ℕ) : Option PositiveInt → List Stmt
  | none => []
  | some _ => [.putQuota key (row.getD 0 + 1)]

/-- The counters after it. -/
def bump (key : QuotaKey) (row : Option ℕ) (quota : QuotaKey → Option ℕ) : Option PositiveInt →
    QuotaKey → Option ℕ
  | none => quota
  | some _ => Function.update quota key (some (row.getD 0 + 1))

/-- The world after a grant. -/
def granted (limits : ProviderLimits) (p : String) (w : World) : World :=
  { w with
    db := { w.db with
      sendLog := w.db.sendLog ++ [⟨nextId (w.db.sendLog.map SendLogEntry.id), p, w.clock⟩]
      quota := bump (monthKey p limits w.clock) (w.db.quota (monthKey p limits w.clock))
        (bump (dayKey p w.clock) (w.db.quota (dayKey p w.clock)) w.db.quota limits.perDay)
          limits.perMonth }
    inflight := Function.update w.inflight p (w.inflight p + 1) }

/-- The reservation it is granted. -/
def grant (limits : ProviderLimits) (p : String) (w : World) : Reservation :=
  ⟨p, nextId (w.db.sendLog.map SendLogEntry.id), limits.perDay.map fun _ => dayPeriodKey w.clock,
    limits.perMonth.map fun _ => monthPeriodKey w.clock limits.monthResetDay, limits.monthResetDay⟩

/-- One of these limits is reached. -/
def full (rs : List (LimitName × ℤ)) : Bool := rs.any fun r => r.2 ≤ 0

theorem full_append (rs ss : List (LimitName × ℤ)) : full (rs ++ ss) = (full rs || full ss) :=
  List.any_append

theorem full_roomOf (name : LimitName) (used : ℕ) (limit : PositiveInt) :
    full (roomOf name used (some limit)) = decide ((limit : ℕ) ≤ used) := by
  simp [full, roomOf]

theorem isFull_roomFound (name : LimitName) (key : QuotaKey) (row : Option ℕ)
    (limit : Option PositiveInt) :
    (roomFound key row limit).isFull = full (roomOf name (row.getD 0) limit) := by
  cases limit with
  | none => rfl
  | some limit =>
    rw [full_roomOf, roomFound]
    split <;> simp [QuotaRoom.isFull, *]

theorem periodKey_roomFound {key : QuotaKey} {row : Option ℕ} {limit : Option PositiveInt}
    (h : (roomFound key row limit).isFull = false) :
    (roomFound key row limit).periodKey = limit.map fun _ => key.periodKey := by
  cases limit with
  | none => rfl
  | some limit =>
    by_cases reached : (limit : ℕ) ≤ row.getD 0
    · rw [roomFound, if_pos reached] at h
      cases h
    · rw [roomFound, if_neg reached]
      rfl

theorem full_windows :
    windowFull limits (limits.slidingWindows.map fun x => (x.1, windowUse p w x)) =
      full (limits.slidingWindows.map fun x =>
        (LimitName.window x.1, (x.2.2 - windowUse p w x : ℤ))) := by
  rw [Bool.eq_iff_iff, windowFull_counts, full, List.any_eq_true]
  simp only [decide_eq_true_eq]

variable (cfg) in
theorem alone_atCapacity (limit : Option PositiveInt) :
    (atCapacity p limit).alone (unfailing cfg) w =
      some (.ok (full (roomOf .concurrent (w.inflight p) limit)), w) := by
  cases limit with
  | none => rfl
  | some m =>
    rw [full_roomOf]
    rfl

variable (cfg) in
theorem alone_quotaRoom (key : QuotaKey) (limit : Option PositiveInt) :
    (quotaRoom key limit).alone (unfailing cfg) w =
      some (.ok (roomFound key (w.db.quota key) limit), w) := by
  cases limit <;> rfl

variable (cfg) in
theorem alone_bumpRoom (key : QuotaKey) (limit : Option PositiveInt)
    (h : (roomFound key (w.db.quota key) limit).isFull = false) :
    (bumpRoom (roomFound key (w.db.quota key) limit)).alone (unfailing cfg) w =
      some (.ok (bumpStmts key (w.db.quota key) limit), w) := by
  cases limit with
  | none => rfl
  | some limit =>
    by_cases reached : (limit : ℕ) ≤ (w.db.quota key).getD 0
    · rw [roomFound, if_pos reached] at h
      cases h
    · rw [roomFound, if_neg reached]
      unfold bumpRoom bumpQuota bumpStmts
      cases hq : w.db.quota key with
      | none => simp [query, alone, unfailing, exec, Query.eval, Prog.ofExcept, hq]
      | some n => simp

variable (cfg) in
theorem alone_refuse {α : Type} : (refuse : Act (Option α)).alone (unfailing cfg) w =
    some (.ok none, w) := rfl

/-- The rooms the session of `try_reserve` looks at. -/
def sessionRooms (limits : ProviderLimits) (p : String) (w : World) : List (LimitName × ℤ) :=
  limits.slidingWindows.map (fun x => (LimitName.window x.1, (x.2.2 - windowUse p w x : ℤ))) ++
    roomOf .perDay ((w.db.quota (dayKey p w.clock)).getD 0) limits.perDay ++
    roomOf .perMonth ((w.db.quota (monthKey p limits w.clock)).getD 0) limits.perMonth

variable (cfg) in
/-- The session of `try_reserve` when a limit is reached. -/
theorem alone_reserveRow_full (h : full (sessionRooms limits p w) = true) :
    (reserveRow p limits w.clock).alone (unfailing cfg) w = some (.ok none, w) := by
  simp only [sessionRooms, full_append, Bool.or_eq_true, ← full_windows,
    ← isFull_roomFound .perDay (dayKey p w.clock) (w.db.quota (dayKey p w.clock)),
    ← isFull_roomFound .perMonth (monthKey p limits w.clock)
      (w.db.quota (monthKey p limits w.clock))] at h
  simp only [reserveRow, bind_eq]
  rw [alone_bind, alone_slidingCounts]
  simp only [Option.bind_some]
  split
  · exact alone_refuse cfg
  rename_i noWindow
  rw [alone_bind, show (⟨p, dayPeriodKey w.clock, .day⟩ : QuotaKey) = dayKey p w.clock from rfl,
    alone_quotaRoom]
  simp only [Option.bind_some]
  split
  · exact alone_refuse cfg
  rename_i noDay
  rw [alone_bind, show (⟨p, monthPeriodKey w.clock limits.monthResetDay, .month⟩ : QuotaKey) =
    monthKey p limits w.clock from rfl, alone_quotaRoom]
  simp only [Option.bind_some]
  split
  · exact alone_refuse cfg
  · rename_i noMonth
    rcases h with (h | h) | h <;> contradiction

variable (cfg) in
/-- The session of `try_reserve` when there is room. -/
theorem alone_reserveRow_room (h : full (sessionRooms limits p w) = false) :
    (reserveRow p limits w.clock).alone (unfailing cfg) w =
      some (.ok (some ((grant limits p w).sendLogId, (grant limits p w).dayKey,
        (grant limits p w).monthKey)), { w with db := (granted limits p w).db }) := by
  simp only [sessionRooms, full_append, Bool.or_eq_false_iff, ← full_windows,
    ← isFull_roomFound .perDay (dayKey p w.clock) (w.db.quota (dayKey p w.clock)),
      ← isFull_roomFound .perMonth (monthKey p limits w.clock)
        (w.db.quota (monthKey p limits w.clock))] at h
  obtain ⟨⟨noWindow, noDay⟩, noMonth⟩ := h
  have day := alone_bumpRoom cfg (w := w) _ _ noDay
  have month := alone_bumpRoom cfg (w := w) _ _ noMonth
  have written : w.db.execAll (.insertSendLog p w.clock ::
      (bumpStmts (dayKey p w.clock) (w.db.quota (dayKey p w.clock)) limits.perDay ++
        bumpStmts (monthKey p limits w.clock) (w.db.quota (monthKey p limits w.clock))
          limits.perMonth)) =
      some (granted limits p w).db := by
    cases hd : limits.perDay <;> cases hm : limits.perMonth <;>
      simp [Db.execAll, Stmt.exec, bumpStmts, granted, bump, hd, hm]
  have keys := congrArg₂ Prod.mk (periodKey_roomFound noDay) (periodKey_roomFound noMonth)
  simp only [Prod.mk.injEq] at keys
  simp only [reserveRow, bind_eq]
  rw [alone_bind, alone_slidingCounts]
  simp only [Option.bind_some]
  rw [if_neg (by simp [noWindow]), alone_bind,
    show (⟨p, dayPeriodKey w.clock, .day⟩ : QuotaKey) = dayKey p w.clock from rfl, alone_quotaRoom]
  simp only [Option.bind_some]
  rw [if_neg (by simp [noDay]), alone_bind,
    show (⟨p, monthPeriodKey w.clock limits.monthResetDay, .month⟩ : QuotaKey) =
    monthKey p limits w.clock from rfl, alone_quotaRoom]
  simp only [Option.bind_some]
  rw [if_neg (by simp [noMonth]), alone_bind, alone_flush]
  simp only [Option.bind_some]
  rw [alone_bind, day]
  simp only [Option.bind_some]
  rw [alone_bind, month]
  simp only [Option.bind_some]
  rw [alone_bind, alone_commit cfg written]
  simp only [Option.bind_some, keys.1, keys.2]
  rfl

/-- A body run under a lock nobody has. -/
theorem alone_withLock {l : Lock} {α : Type} {body : Act α} (r : Except Exc α) (w' : World)
    (free : w.locks l = none)
    (hb : body.alone (unfailing cfg) { w with locks := Function.update w.locks l (some 0) } =
      some (r, w')) :
    (withLock l body).alone (unfailing cfg) w =
      some (r, { w' with locks := Function.update w'.locks l none }) := by
  unfold withLock finally_ perform
  rw [op_bind, alone_op (unfailing cfg) (a := ())
    (by simp only [unfailing, exec, if_pos free]; rfl), ret_bind, alone_bind, alone_attempt, hb]
  cases r <;> rfl

theorem rooms_eq : rooms limits p w =
    roomOf .concurrent (w.inflight p) limits.maxConcurrent ++ sessionRooms limits p w := by
  simp only [rooms, sessionRooms, List.append_assoc]

/-- With the lock taken and given back. -/
theorem locks_restored {l : Lock} (free : w.locks l = none) :
    ({ w with locks := Function.update (Function.update w.locks l (some 0)) l none } : World) =
      w := by
  rw [CircuitBreaker.locks_back free]

variable (cfg) in
/-- A limit is reached: `try_reserve` refuses, and changes nothing. -/
theorem alone_tryReserve_full {c : ProviderConfig} (hc : cfg.provider p = some c)
    (free : w.locks (.limiter p) = none) (h : full (rooms c.limits p w) = true) :
    (tryReserve cfg p).alone (unfailing cfg) w = some (.ok none, w) := by
  simp only [tryReserve, hc]
  refine (alone_withLock (.ok none) { w with locks := Function.update w.locks (.limiter p) (some 0)
    } free ?_).trans
    (by rw [locks_restored free])
  simp only [bind_eq]
  rw [alone_bind, alone_atCapacity]
  simp only [Option.bind_some]
  split
  · rfl
  rename_i room
  rw [alone_bind, alone_utcnow]
  simp only [Option.bind_some]
  rw [alone_bind]
  rw [rooms_eq, full_append, Bool.or_eq_true] at h
  have session := alone_reserveRow_full cfg (p := p)
    (w := { w with locks := Function.update w.locks (.limiter p) (some 0) }) (h.resolve_left room)
  rw [session]
  rfl

variable (cfg) in
/-- There is room everywhere: `try_reserve` grants. -/
theorem alone_tryReserve_room {c : ProviderConfig} (hc : cfg.provider p = some c)
    (free : w.locks (.limiter p) = none) (h : full (rooms c.limits p w) = false) :
    (tryReserve cfg p).alone (unfailing cfg) w = some (.ok (some (grant c.limits p w)),
      granted c.limits p w) := by
  simp only [rooms_eq, full_append, Bool.or_eq_false_iff] at h
  have session := alone_reserveRow_room cfg (p := p)
    (w := { w with locks := Function.update w.locks (.limiter p) (some 0) }) h.2
  simp only [tryReserve, hc]
  refine (alone_withLock (.ok (some (grant c.limits p w))) { granted c.limits p w with
      locks := Function.update w.locks (.limiter p) (some 0) } free ?_).trans ?_
  · simp only [bind_eq]
    rw [alone_bind, alone_atCapacity]
    simp only [Option.bind_some]
    rw [if_neg (by simp [h.1]), alone_bind, alone_utcnow]
    simp only [Option.bind_some]
    rw [alone_bind, session]
    rfl
  · change some (_, { granted c.limits p w with
      locks := Function.update (Function.update w.locks (.limiter p) (some 0))
        (.limiter p) none }) = _
    rw [CircuitBreaker.locks_back free]
    rfl

/-! ### Reservations in a row -/

theorem roomOf_succ (name : LimitName) (used : ℕ) (limit : Option PositiveInt) :
    roomOf name (used + 1) limit = (roomOf name used limit).map fun r => (r.1, r.2 - 1) := by
  cases limit with
  | none => rfl
  | some limit =>
    simp [roomOf]
    omega

theorem windowUse_granted (x : Window × ℕ × ℕ) : windowUse p (granted limits p w) x =
    windowUse p w x + 1 := by
  simp [windowUse, granted, countSince]

/-- A grant takes one from every limit. -/
theorem rooms_granted : rooms limits p (granted limits p w) = (rooms limits p w).map fun r =>
    (r.1, r.2 - 1) := by
  have windows : (limits.slidingWindows.map fun x =>
      (LimitName.window x.1, (x.2.2 - windowUse p (granted limits p w) x : ℤ))) =
      (limits.slidingWindows.map fun x => (LimitName.window x.1, (x.2.2 - windowUse p w x : ℤ))).map
        fun r => (r.1, r.2 - 1) := by
    rw [List.map_map]
    refine List.map_congr_left fun x _ => ?_
    simp only [windowUse_granted, Function.comp_apply]
    congr 1
    omega
  have keys : dayKey p w.clock ≠ monthKey p limits w.clock := by simp [dayKey, monthKey]
  have day : roomOf .perDay (((granted limits p w).db.quota (dayKey p w.clock)).getD 0)
      limits.perDay =
      (roomOf .perDay ((w.db.quota (dayKey p w.clock)).getD 0) limits.perDay).map fun r =>
      (r.1, r.2 - 1) := by
    rw [← roomOf_succ]
    cases hd : limits.perDay with
    | none => rfl
    | some limit => cases hm : limits.perMonth <;> simp [granted, bump, hd, hm,
        Function.update_of_ne keys]
  have month : roomOf .perMonth (((granted limits p w).db.quota (monthKey p limits w.clock)).getD 0)
      limits.perMonth =
      (roomOf .perMonth ((w.db.quota (monthKey p limits w.clock)).getD 0) limits.perMonth).map
        fun r => (r.1, r.2 - 1) := by
    rw [← roomOf_succ]
    cases hm : limits.perMonth with
    | none => rfl
    | some limit => simp [granted, bump, hm]
  have inflight : (granted limits p w).inflight p = w.inflight p + 1 := Function.update_self ..
  simp only [rooms, List.map_append, inflight, roomOf_succ, windows]
  exact congrArg₂ _ (congrArg₂ _ rfl day) month

variable (cfg) in
/-- The world after a call of `try_reserve`, if it grants. -/
def reserve (p : String) (w : World) : Option World :=
  match (tryReserve cfg p).alone (unfailing cfg) w with
  | some (.ok (some _), w') => some w'
  | _ => none

variable (cfg) in
/-- The world after `n` calls in a row that grant. -/
def reserveAll (p : String) : ℕ → World → Option World
  | 0, w => some w
  | n + 1, w => (reserveAll p n w).bind (reserve cfg p)

theorem reserve_eq {c : ProviderConfig} (hc : cfg.provider p = some c)
    (free : w.locks (.limiter p) = none) :
    reserve cfg p w = if full (rooms c.limits p w) =
      true then none else some (granted c.limits p w) := by
  cases h : full (rooms c.limits p w) with
  | true =>
    rw [reserve, alone_tryReserve_full cfg hc free h]
    rfl
  | false =>
    rw [reserve, alone_tryReserve_room cfg hc free h]
    rfl

/-- What is left after `n` grants. -/
structure Reserved (limits : ProviderLimits) (p : String) (w : World) (n : ℕ) (w' : World) :
    Prop where
  free : w'.locks (.limiter p) = none
  rooms : rooms limits p w' = (RateLimiter.rooms limits p w).map fun r => (r.1, r.2 - (n : ℤ))
  enough : ∀ h ∈ (Findings.ofRooms (RateLimiter.rooms limits p w)).headroom, n ≤ h.2

/-- The next call is refused when the smallest headroom is used up. -/
theorem Reserved.full_iff {n : ℕ} {w' : World} (h : Reserved limits p w n w') :
    full (RateLimiter.rooms limits p w') = true ↔
      ∃ k ∈ (Findings.ofRooms (RateLimiter.rooms limits p w)).headroom, k.2 = n := by
  have enough : ∀ r ∈ RateLimiter.rooms limits p w, n ≤ (max 0 r.2).toNat := fun r hr =>
    h.enough _ (List.mem_map_of_mem hr)
  rw [h.rooms, full, List.any_eq_true]
  constructor
  · intro found
    obtain ⟨_, hk, reached⟩ := found
    obtain ⟨r, hr, rfl⟩ := List.mem_map.mp hk
    have := enough r hr
    simp only [decide_eq_true_eq] at reached
    exact ⟨_, List.mem_map_of_mem hr, by simp only; omega⟩
  · intro found
    obtain ⟨_, hk, reached⟩ := found
    obtain ⟨r, hr, rfl⟩ := List.mem_map.mp hk
    simp only at reached
    exact ⟨_, List.mem_map_of_mem hr, by simp only [decide_eq_true_eq]; omega⟩

theorem Reserved.refl (free : w.locks (.limiter p) = none) : Reserved limits p w 0 w :=
  ⟨free, by simp, fun _ _ => Nat.zero_le _⟩

theorem Reserved.step {n : ℕ} {w' : World} (h : Reserved limits p w n w')
    (room : full (RateLimiter.rooms limits p w') = false) :
    Reserved limits p w (n + 1) (granted limits p w') := by
  refine ⟨h.free, ?_, fun k hk => ?_⟩
  · rw [rooms_granted, h.rooms, List.map_map]
    refine List.map_congr_left fun r _ => ?_
    simp only [Function.comp_apply]
    congr 1
    omega
  · have more := h.enough k hk
    have : k.2 ≠ n := by
      intro hkn
      rw [h.full_iff.mpr ⟨k, hk, hkn⟩] at room
      cases room
    omega

theorem reserveAll_reserved {c : ProviderConfig} (hc : cfg.provider p = some c)
    (free : w.locks (.limiter p) = none) {n : ℕ} {w' : World} (h : reserveAll cfg p n w = some w') :
    Reserved c.limits p w n w' := by
  induction n generalizing w' with
  | zero =>
    cases h
    exact .refl free
  | succ n ih =>
    obtain ⟨v, hv, next⟩ := Option.bind_eq_some_iff.mp h
    rw [reserve_eq hc (ih hv).free] at next
    split at next
    · cases next
    · rename_i room
      cases next
      exact (ih hv).step (by simpa using room)

theorem exists_reserveAll {c : ProviderConfig} (hc : cfg.provider p = some c)
    (free : w.locks (.limiter p) = none) {n : ℕ}
    (enough : ∀ h ∈ (Findings.ofRooms (rooms c.limits p w)).headroom, n ≤ h.2) :
    ∃ w', reserveAll cfg p n w = some w' := by
  induction n with
  | zero => exact ⟨w, rfl⟩
  | succ n ih =>
    obtain ⟨v, hv⟩ := ih fun h hh => (Nat.le_succ n).trans (enough h hh)
    have reserved := reserveAll_reserved hc free hv
    refine ⟨granted c.limits p v, ?_⟩
    rw [reserveAll, hv, Option.bind_some, reserve_eq hc reserved.free, if_neg]
    intro reached
    obtain ⟨k, hk, hkn⟩ := reserved.full_iff.mp reached
    have := enough k hk
    omega

theorem isNone_blocking (rs : List (LimitName × ℤ)) :
    (Findings.ofRooms rs).blocking.isNone = !full rs := by
  simp only [Findings.ofRooms, full, Option.isNone_map]
  induction rs with
  | nil => rfl
  | cons r rs ih =>
    by_cases hr : r.2 ≤ 0
    · simp [hr]
    · simpa [hr] using ih

variable (cfg) in
/-- **`check` and `try_reserve` agree.** In every state, with nobody else at the limiter and the
clock standing still: `check` changes nothing, and allows exactly when `try_reserve` grants; a
call that is refused changes nothing; the calls in a row that are granted before one is refused
are as many as the smallest headroom, and there is no end to them exactly when no limit is
configured. -/
theorem check_agrees {c : ProviderConfig} (hc : cfg.provider p = some c)
    (free : w.locks (.limiter p) = none) :
    ∃ found headroom, (check cfg p).alone (unfailing cfg) w = some (.ok found, w) ∧
      found.headroom = some headroom ∧
      (found.allowed = true ↔
        ∃ r w', (tryReserve cfg p).alone (unfailing cfg) w = some (.ok (some r), w')) ∧
      (∀ w', (tryReserve cfg p).alone (unfailing cfg) w = some (.ok none, w') → w' = w) ∧
      (found.allowed = false → (tryReserve cfg p).alone (unfailing cfg) w = some (.ok none, w)) ∧
      (∀ n, (∃ w', reserveAll cfg p n w = some w' ∧
          (tryReserve cfg p).alone (unfailing cfg) w' = some (.ok none, w')) ↔
        IsLeast {k | ∃ name, (name, k) ∈ headroom} n) ∧
      ((∀ n, ∃ w', reserveAll cfg p n w = some w') ↔ Unlimited c.limits) := by
  refine ⟨_, _, alone_check cfg hc, rfl, ?_, fun w' h => ?_, fun h => ?_, fun n =>
    ⟨fun h => ?_, fun h => ?_⟩, fun h => ?_, fun h n => ?_⟩
  · rw [isNone_blocking, Bool.not_eq_true']
    constructor
    · intro room
      exact ⟨_, _, alone_tryReserve_room cfg hc free room⟩
    · intro granted
      obtain ⟨r, w', hr⟩ := granted
      by_contra reached
      rw [alone_tryReserve_full cfg hc free (by simpa using reached)] at hr
      cases hr
  · by_cases room : full (rooms c.limits p w) = false
    · rw [alone_tryReserve_room cfg hc free room] at h
      cases h
    · rw [alone_tryReserve_full cfg hc free (by simpa using room)] at h
      cases h
      rfl
  · rw [isNone_blocking, Bool.not_eq_false'] at h
    exact alone_tryReserve_full cfg hc free h
  · obtain ⟨w', all, refused⟩ := h
    have reserved := reserveAll_reserved hc free all
    have reached : full (rooms c.limits p w') = true := by
      by_contra room
      rw [alone_tryReserve_room cfg hc reserved.free (by simpa using room)] at refused
      cases refused
    obtain ⟨k, hk, rfl⟩ := reserved.full_iff.mp reached
    refine ⟨⟨k.1, hk⟩, fun m hm => ?_⟩
    obtain ⟨name, hm⟩ := hm
    exact reserved.enough _ hm
  · obtain ⟨⟨name, hn⟩, least⟩ := h
    obtain ⟨w', all⟩ := exists_reserveAll hc free (n := n) fun h hh => least ⟨h.1, hh⟩
    have reserved := reserveAll_reserved hc free all
    exact ⟨w', all, alone_tryReserve_full cfg hc reserved.free (reserved.full_iff.mpr ⟨_, hn, rfl⟩)⟩
  · rw [← rooms_eq_nil (p := p) (w := w)]
    by_contra some_limit
    obtain ⟨r, hr⟩ := List.exists_mem_of_ne_nil _ some_limit
    obtain ⟨w', all⟩ := h ((max 0 r.2).toNat + 1)
    have := (reserveAll_reserved hc free all).enough _ (List.mem_map.mpr ⟨r, hr, rfl⟩)
    simp only at this
    omega
  · refine exists_reserveAll hc free fun h hh => ?_
    rw [(rooms_eq_nil (p := p) (w := w)).mpr ‹_›] at hh
    cases hh

namespace Example

open SmtpSwitch.Example (metered)

/-- `a` was given one reservation, half a minute ago. -/
def oneSent : World where
  clock := 63923749200
  db :=
    { sendLog := [⟨1, "a", 63923749170⟩]
      quota := fun key => if key = dayKey "a" 63923749200 then some 1 else none }

/-- `check` leaves one for this minute and two for today; one more is granted, and no second. -/
theorem check_agrees_metered : ∃ found w',
    (check metered "a").alone (unfailing metered) oneSent = some (.ok found, oneSent) ∧
      found.headroom = some [(.window .perMinute, 1), (.perDay, 2)] ∧
      reserveAll metered "a" 1 oneSent = some w' ∧
      (tryReserve metered "a").alone (unfailing metered) w' = some (.ok none, w') := by
  obtain ⟨found, headroom, checked, told, -, -, -, grants, -⟩ :=
    check_agrees metered (p := "a") (w := oneSent) rfl rfl
  have left : ((check metered "a").alone (unfailing metered) oneSent).map
      (fun r => r.1.toOption.bind LimitCheck.headroom) =
        some (some [(.window .perMinute, 1), (.perDay, 2)]) := by
    decide +kernel
  rw [checked] at left
  replace left : found.headroom = some [(.window .perMinute, 1), (.perDay, 2)] :=
    Option.some.inj left
  rw [told] at left
  obtain rfl := Option.some.inj left
  obtain ⟨w', all, refused⟩ := (grants 1).mpr
    ⟨⟨.window .perMinute, List.mem_cons_self⟩, by rintro k ⟨name, hk⟩; simp at hk; omega⟩
  exact ⟨found, w', checked, told, all, refused⟩

end Example

end SmtpSwitch.RateLimiter
