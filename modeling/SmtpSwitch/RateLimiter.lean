import SmtpSwitch.Act

/-!
# The rate limiter

`dispatch/rate_limiter.py`. A reservation is taken before the conversation with
the provider starts and settled after it: `commit` keeps it, `release` rolls it
back. All three run under the provider's lock, with awaits in between; `check` and `prune`
run under no lock.

A session answers `session.get` from its identity map once it has loaded the
row, so `_bump_quota` does not read again a counter that `try_reserve` has just
checked; it does read again when there was no row.
-/

namespace SmtpSwitch.RateLimiter

open Coop Coop.Prog

/-- The loop of `_sliding_counts`, one `SELECT` a window. -/
def countWindows (site : Site) (provider : String) (now : Time) :
    List (Window × ℕ × ℕ) → Act (List (Window × ℕ))
  | [] => .ret []
  | (window, span, _) :: rest => do
    let n ← query site (.countSendLog provider (now - span))
    let counts ← countWindows site provider now rest
    return (window, n) :: counts

/-- `_sliding_counts`. -/
def slidingCounts (site : Site) (provider : String) (limits : ProviderLimits) :
    Act (List (Window × ℕ)) := do
  let now ← perform .utcnow
  countWindows site provider now limits.slidingWindows

/-- `counts.get(window, 0) >= limit` for some window. -/
def windowFull (limits : ProviderLimits) (counts : List (Window × ℕ)) : Bool :=
  limits.slidingWindows.any fun w => w.2.2 ≤ (counts.lookup w.1).getD 0

/-- The limits `check` reports on. -/
inductive LimitName where
  | concurrent
  | window (window : Window)
  | perDay
  | perMonth
  deriving DecidableEq

/-- `LimitCheck`. -/
structure LimitCheck where
  allowed : Bool
  blockingWindow : Option LimitName := none
  headroom : Option (List (LimitName × ℕ)) := none

/-- `headroom` and `blocking`, while `check` goes through the limits. -/
structure Findings where
  headroom : List (LimitName × ℕ) := []
  blocking : Option LimitName := none

/-- `headroom[name] = max(0, room)` and `if room <= 0: blocking = blocking or name`. -/
def Findings.add (found : Findings) (name : LimitName) (room : ℤ) : Findings where
  headroom := found.headroom ++ [(name, (max 0 room).toNat)]
  blocking := if room ≤ 0 then found.blocking.or (some name) else found.blocking

/-- What `check` does about `max_concurrent`. -/
def checkConcurrent (provider : String) : Option PositiveInt → Act Findings
  | none => .ret {}
  | some m => do
    let n ← perform (.inflight provider)
    return ({} : Findings).add .concurrent ((m : ℕ) - n)

/-- The loop of `check` over the sliding windows. -/
def checkWindows (limits : ProviderLimits) (counts : List (Window × ℕ)) (found : Findings) :
    Findings :=
  limits.slidingWindows.foldl
    (fun found w => found.add (.window w.1) (w.2.2 - ((counts.lookup w.1).getD 0 : ℕ))) found

/-- What `check` does about a quota counter. -/
def checkQuota (name : LimitName) (key : QuotaKey) (found : Findings) :
    Option PositiveInt → Act Findings
  | none => .ret found
  | some limit => do
    let row ← query .check (.quota key)
    return found.add name ((limit : ℕ) - (row.getD 0 : ℕ))

/-- What `try_reserve` finds out about a quota counter. -/
inductive QuotaRoom where
  /-- No limit is configured. -/
  | unlimited
  /-- The counter is at its limit. -/
  | full
  /-- There is room; the row as loaded. -/
  | room (key : QuotaKey) (row : Option ℕ)

/-- The period key a reservation carries. -/
def QuotaRoom.periodKey : QuotaRoom → Option String
  | .room key _ => some key.periodKey
  | _ => none

/-- `used >= limit`. -/
def QuotaRoom.isFull : QuotaRoom → Bool
  | .full => true
  | _ => false

/-- `_quota_count` compared with the limit, if there is one. -/
def quotaRoom (key : QuotaKey) : Option PositiveInt → Act QuotaRoom
  | none => .ret .unlimited
  | some limit => do
    let row ← query .tryReserve (.quota key)
    return if (limit : ℕ) ≤ row.getD 0 then .full else .room key row

/-- `_bump_quota`: the statement it leaves in the session. `loaded` is the session's copy of the
row, if it has one. -/
def bumpQuota (site : Site) (loaded : Option ℕ) (key : QuotaKey) (delta : ℤ) : Act Stmt := do
  let row ← match loaded with
    | some count => .ret (some count)
    | none => query site (.quota key)
  return .putQuota key ((row.getD 0 : ℤ) + delta).toNat

/-- `_bump_quota` for a counter `try_reserve` has checked, if there is a limit. -/
def bumpRoom : QuotaRoom → Act (List Stmt)
  | .room key row => do
    let s ← bumpQuota .tryReserve row key 1
    return [s]
  | _ => .ret []

/-- `return None` from inside the session. -/
def refuse {α : Type} : Act (Option α) := do
  let _ ← commit .tryReserve []
  return none

/-- The session of `try_reserve`: the new row's id and the two period keys. -/
def reserveRow (provider : String) (limits : ProviderLimits) (now : Time) :
    Act (Option (ℕ × Option String × Option String)) := do
  let counts ← slidingCounts .tryReserve provider limits
  if windowFull limits counts then refuse
  else
    let day ← quotaRoom ⟨provider, dayPeriodKey now, .day⟩ limits.perDay
    if day.isFull then refuse
    else
      let month ← quotaRoom ⟨provider, monthPeriodKey now limits.monthResetDay,
          .month⟩ limits.perMonth
      if month.isFull then refuse
      else
        flush .tryReserve
        let dayStmts ← bumpRoom day
        let monthStmts ← bumpRoom month
        let id ← commit .tryReserve (.insertSendLog provider now :: (dayStmts ++ monthStmts))
        return some (id, day.periodKey, month.periodKey)

/-- `max_concurrent is not None and inflight >= max_concurrent`. -/
def atCapacity (provider : String) : Option PositiveInt → Act Bool
  | none => .ret false
  | some m => do
    let n ← perform (.inflight provider)
    return decide ((m : ℕ) ≤ n)

variable (cfg : Settings)

/-- `check`. -/
def check (provider : String) : Act LimitCheck :=
  match cfg.provider provider with
  | none => .raise .keyError
  | some c => do
    let concurrent ← checkConcurrent provider c.limits.maxConcurrent
    let counts ← slidingCounts .check provider c.limits
    let windows := checkWindows c.limits counts concurrent
    let now ← perform .utcnow
    let day ← checkQuota .perDay ⟨provider, dayPeriodKey now, .day⟩ windows c.limits.perDay
    let found ← checkQuota .perMonth ⟨provider, monthPeriodKey now c.limits.monthResetDay,
        .month⟩ day
      c.limits.perMonth
    let _ ← commit .check []
    return ⟨found.blocking.isNone, found.blocking, some found.headroom⟩

/-- `try_reserve`. -/
def tryReserve (provider : String) : Act (Option Reservation) :=
  match cfg.provider provider with
  | none => .raise .keyError
  | some c =>
    withLock (.limiter provider) do
      if ← atCapacity provider c.limits.maxConcurrent then return none
      else
        let now ← perform .utcnow
        match ← reserveRow provider c.limits now with
        | none => return none
        | some (id, dayKey, monthKey) =>
          perform (.incInflight provider)
          let r : Reservation := ⟨provider, id, dayKey, monthKey, c.limits.monthResetDay⟩
          perform (.call (.granted r))
          return some r

/-- `commit`. -/
def commitReservation (r : Reservation) : Act Unit := do
  perform (.call (.commit r))
  withLock (.limiter r.provider) (perform (.decInflight r.provider))

/-- `_bump_quota` with `delta=-1`, if the reservation carries a key. -/
def unbump (site : Site) (provider : String) (scope : Scope) : Option String → Act (List Stmt)
  | none => .ret []
  | some key => do
    let s ← bumpQuota site none ⟨provider, key, scope⟩ (-1)
    return [s]

/-- `release`. -/
def release (by_ : Caller) (r : Reservation) : Act Unit := do
  perform (.call (.release r))
  withLock (.limiter r.provider) do
    perform (.decInflight r.provider)
    flush (.release by_)
    let dayStmts ← unbump (.release by_) r.provider .day r.dayKey
    let monthStmts ← unbump (.release by_) r.provider .month r.monthKey
    let _ ← commit (.release by_) (.deleteSendLog r.sendLogId :: (dayStmts ++ monthStmts))

/-- The widest sliding window of any provider. -/
def widestWindow : ℕ := (cfg.providers.map fun p => p.limits.maxWindowSpan).foldr max 0

/-- `prune`. -/
def prune : Act Unit :=
  if widestWindow cfg = 0 then .ret ()
  else do
    let now ← perform .utcnow
    let cutoff := now - (widestWindow cfg + 60)
    flush .prune
    let _ ← commit .prune [.deleteSendLogBefore cutoff]

/-! ### What the limiter raises and returns

Every function of the limiter raises only because a statement has failed, except that an unknown
provider is a `KeyError`. -/

section Tame

/-- Statements on the limiter's tables. -/
def OnLimits (ss : List Stmt) : Prop := ∀ s ∈ ss, s.table = .limits

/-- The counter there is room on. -/
def QuotaRoom.keys : QuotaRoom → List QuotaKey
  | .room key _ => [key]
  | _ => []

theorem tame_countWindows (site : Site) (p : String) (now : Time) : ∀ ws,
    (countWindows site p now ws).Tame Op.fails (Op.ofLookup site) fun _ => True
  | [] => trivial
  | _ :: rest => (tame_query (by rfl)).bind fun _ _ =>
    (tame_countWindows site p now rest).bind fun _ _ => trivial

theorem tame_slidingCounts (site : Site) (p : String) (limits : ProviderLimits) :
    (slidingCounts site p limits).Tame Op.fails (Op.ofLookup site) fun _ => True :=
  (tame_perform trivial fun _ => rfl).bind fun _ _ => tame_countWindows _ _ _ _

theorem tame_quotaRoom (key : QuotaKey) : ∀ limit,
    (quotaRoom key limit).Tame Op.fails (Op.ofLookup .tryReserve) fun room =>
      ∀ k row, room = .room k row → k = key
  | none => fun _ _ h => by cases h
  | some _ => (tame_query (by rfl)).bind fun _ _ k row h => by
    split at h <;> cases h
    rfl

/-- What there is room on is the counter asked for, if there is a limit. -/
theorem tame_quotaRoom_key (key : QuotaKey) : ∀ limit,
    (quotaRoom key limit).Tame Op.fails (Op.ofLookup .tryReserve) fun room =>
      room.isFull = false → room.periodKey = limit.map fun _ => key.periodKey
  | none => fun _ => rfl
  | some _ => (tame_query (by rfl)).bind fun _ _ h => by
    split at h
    · cases h
    · rename_i few
      rw [if_neg few]
      rfl

theorem tame_bumpQuota (site : Site) (loaded : Option ℕ) (key : QuotaKey) (delta : ℤ) :
    (bumpQuota site loaded key delta).Tame Op.fails (Op.ofLookup site)
      fun s => s.table = .limits ∧ s.quotaKey = some key := by
  cases loaded with
  | none => exact (tame_query (by rfl)).bind fun _ _ => ⟨rfl, rfl⟩
  | some n => exact ⟨rfl, rfl⟩

theorem tame_bumpRoom : ∀ room, (bumpRoom room).Tame Op.fails (Op.ofLookup .tryReserve)
    fun ss => OnLimits ss ∧ ss.filterMap Stmt.quotaKey = room.keys
  | .unlimited => by simp [bumpRoom, Tame, OnLimits, QuotaRoom.keys]
  | .full => by simp [bumpRoom, Tame, OnLimits, QuotaRoom.keys]
  | .room _ _ => (tame_bumpQuota _ _ _ _).bind fun s hs => by
    simp [Tame, OnLimits, QuotaRoom.keys, hs.1, hs.2]

theorem tame_refuse {α : Type} :
    (refuse : Act (Option α)).Tame Op.fails Op.ofLimiter fun r => ∀ x, r ≠ some x :=
  (tame_commit (by simp [Op.ofLimiter])).bind fun _ _ _ h => by cases h

/-- A row that is reserved comes with the keys of the counters that have a limit. -/
theorem tame_reserveRow (p : String) (limits : ProviderLimits) (now : Time) :
    (reserveRow p limits now).Tame Op.fails Op.ofLimiter fun row => ∀ x, row = some x →
      x.2 = (limits.perDay.map fun _ => dayPeriodKey now,
        limits.perMonth.map fun _ => monthPeriodKey now limits.monthResetDay) := by
  have refused : ∀ {R : ℕ × Option String × Option String → Prop},
      (refuse : Act (Option _)).Tame Op.fails Op.ofLimiter
      fun row => ∀ x, row = some x → R x := tame_refuse.mono fun _ none x hx => absurd hx (none x)
  refine ((tame_slidingCounts _ _ _).widen fun _ => Op.ofLookup.ofLimiter).bind fun counts _ => ?_
  split
  · exact refused
  refine ((tame_quotaRoom_key _ _).widen fun _ => Op.ofLookup.ofLimiter).bind fun day hday => ?_
  split
  · exact refused
  rename_i dayRoom
  refine ((tame_quotaRoom_key _ _).widen fun _ => Op.ofLookup.ofLimiter).bind fun month hmonth => ?_
  split
  · exact refused
  rename_i monthRoom
  refine (tame_flush (by simp [Op.ofLimiter])).bind fun _ _ =>
    ((tame_bumpRoom _).widen fun _ => Op.ofLookup.ofLimiter).bind fun ds hd =>
      ((tame_bumpRoom _).widen fun _ => Op.ofLookup.ofLimiter).bind fun ms hm =>
        (tame_commit ?_).bind fun _ _ x hx => ?_
  · simp only [Op.ofLimiter, List.forall_mem_cons, List.forall_mem_append]
    exact ⟨by decide, rfl, hd.1, hm.1⟩
  · cases hx
    exact Prod.ext (hday (by simpa using dayRoom)) (hmonth (by simpa using monthRoom))

theorem tame_atCapacity (p : String) : ∀ limit,
    (atCapacity p limit).Tame Op.fails (Op.ofLookup .tryReserve) fun _ => True
  | none => trivial
  | some _ => (tame_perform trivial fun _ => rfl).bind fun _ _ => trivial

/-- A reservation is one for the provider it was asked for. -/
theorem tame_tryReserve {p : String} {c : ProviderConfig} (h : cfg.provider p = some c) :
    (tryReserve cfg p).Tame Op.fails Op.ofLimiter fun r => ∀ x, r = some x → x.provider = p := by
  simp only [tryReserve, h]
  refine tame_withLock trivial trivial
    (((tame_atCapacity _ _).widen fun _ => Op.ofLookup.ofLimiter).bind fun full _ => ?_)
  split
  · exact fun _ hx => by cases hx
  refine (tame_perform trivial fun _ => rfl).bind fun now _ =>
    (tame_reserveRow _ _ _).bind fun row _ => ?_
  split
  · exact fun _ hx => by cases hx
  · exact (tame_perform trivial fun _ => rfl).bind fun _ _ =>
      (tame_perform trivial fun _ => rfl).bind fun _ _ x hx => by cases hx; rfl

theorem tame_commitReservation (r : Reservation) :
    (commitReservation r).Tame Op.fails Op.ofSlots fun _ => True :=
  (tame_perform trivial fun _ => rfl).bind fun _ _ =>
    tame_withLock trivial trivial (tame_perform trivial fun _ => rfl)

theorem tame_unbump (site : Site) (p : String) (scope : Scope) : ∀ key,
    (unbump site p scope key).Tame Op.fails (Op.ofLookup site) fun ss =>
      OnLimits ss ∧ ss.filterMap Stmt.quotaKey = (key.map (⟨p, ·, scope⟩)).toList
  | none => by simp [unbump, Tame, OnLimits]
  | some _ => (tame_bumpQuota _ _ _ _).bind fun s hs => by simp [Tame, OnLimits, hs.1, hs.2]

theorem tame_release (by_ : Caller) (r : Reservation) :
    (release by_ r).Tame Op.fails Op.ofLimiter fun _ => True := by
  refine (tame_perform trivial fun _ => rfl).bind fun _ _ => tame_withLock trivial trivial ?_
  refine (tame_perform trivial fun _ => rfl).bind fun _ _ =>
    (tame_flush (by simp [Op.ofLimiter])).bind fun _ _ =>
      ((tame_unbump _ _ _ _).widen fun _ => Op.ofLookup.ofLimiter).bind fun ds hd =>
        ((tame_unbump _ _ _ _).widen fun _ => Op.ofLookup.ofLimiter).bind fun ms hm =>
          (tame_commit ?_).bind fun _ _ => trivial
  simp only [Op.ofLimiter, List.forall_mem_cons, List.forall_mem_append]
  exact ⟨by simp, rfl, hd.1, hm.1⟩

theorem tame_prune : (prune cfg).Tame Op.fails Op.ofLimiter fun _ => True := by
  unfold prune
  split
  · trivial
  · exact (tame_perform trivial fun _ => rfl).bind fun _ _ =>
      (tame_flush (by simp [Op.ofLimiter])).bind fun _ _ =>
        (tame_commit (by simp [Op.ofLimiter, Stmt.table])).bind fun _ _ => trivial

end Tame

end SmtpSwitch.RateLimiter
