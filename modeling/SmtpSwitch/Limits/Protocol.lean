import SmtpSwitch.System

/-!
# The limiter's protocol

What a task may do to the data behind the limits, as a protocol. Outside a
provider's lock it touches none of it; under the lock it may look things up, and
what it has seen (`Seen`) is what its writes must be justified by:

* a slot is taken only after the number in use was seen below the maximum;
* a commit either leaves `send_log` and the counters alone or only deletes rows,
  or it is a *grant* (`Grant`), one new row and one up on each limited counter,
  every limit having been seen below its bound, or a *refund* (`Refund`).

All code of the process keeps to it (`keeps_limiterProtocol`): the limiter by
construction, everything else because it does not touch the limiter's data.
-/

namespace SmtpSwitch

open Coop Coop.Prog

variable (cfg : Settings)

/-! ### The protocol -/

/-- What a task has read under a provider's lock. -/
structure Seen where
  /-- The slots in use, unless one was taken since. -/
  inUse : Option ℕ := none
  /-- Clock reads. -/
  times : List Time := []
  /-- Counts of `send_log` rows, each with its `since`, since the last commit. -/
  counts : List (Time × ℕ) := []
  /-- Rows of `provider_quota`, since the last commit. -/
  rows : List (QuotaKey × Option ℕ) := []

/-- Where a task is. -/
inductive LimiterPhase where
  | outside
  /-- Under the lock of provider `p`. -/
  | holding (p : String) (seen : Seen)

/-- A statement that adds nothing to `send_log` and no counter. -/
def Stmt.limitNeutral : Stmt → Bool
  | .insertSendLog _ _ | .putQuota _ _ => false
  | _ => true

/-- The statements that count one more send on a limited counter. -/
def CountUp (seen : Seen) (p : String) (scope : Scope) : Option PositiveInt → List Stmt → Prop
  | none, ss => ss = []
  | some limit, ss => ∃ k row row', (⟨p, k, scope⟩, row) ∈ seen.rows ∧
      (⟨p, k, scope⟩, row') ∈ seen.rows ∧ row.getD 0 < (limit : ℕ) ∧
      ss = [.putQuota ⟨p, k, scope⟩ (row'.getD 0 + 1)]

theorem CountUp.mono {seen seen' : Seen} {p : String} {scope : Scope} {limit : Option PositiveInt}
    {ss : List Stmt} (h : CountUp seen p scope limit ss) (hrows : seen.rows ⊆ seen'.rows) :
    CountUp seen' p scope limit ss := by
  cases limit with
  | none => exact h
  | some l =>
    obtain ⟨k, row, row', h₁, h₂, h₃⟩ := h
    exact ⟨k, row, row', hrows h₁, hrows h₂, h₃⟩

/-- A grant: every limit of the provider was seen below its bound. -/
structure Grant (seen : Seen) (p : String) (ss : List Stmt) : Prop where
  room : ∃ c now now' day month, cfg.provider p = some c ∧
    ss = .insertSendLog p now :: (day ++ month) ∧ now' ∈ seen.times ∧
    (∀ x ∈ c.limits.slidingWindows, ∃ n, (now' - (x.2.1 : Time), n) ∈ seen.counts ∧ n < x.2.2) ∧
    CountUp seen p .day c.limits.perDay day ∧ CountUp seen p .month c.limits.perMonth month

/-- The statements that count one send less on a counter, if there is one. -/
def CountDown (seen : Seen) (p : String) (scope : Scope) : Option String → List Stmt → Prop
  | none, ss => ss = []
  | some k, ss => ∃ row, (⟨p, k, scope⟩, row) ∈ seen.rows ∧
      ss = [.putQuota ⟨p, k, scope⟩ (row.getD 0 - 1)]

theorem CountDown.mono {seen seen' : Seen} {p : String} {scope : Scope} {key : Option String}
    {ss : List Stmt} (h : CountDown seen p scope key ss) (hrows : seen.rows ⊆ seen'.rows) :
    CountDown seen' p scope key ss := by
  cases key with
  | none => exact h
  | some k =>
    obtain ⟨row, hrow, hss⟩ := h
    exact ⟨row, hrows hrow, hss⟩

/-- A refund: the row is deleted, and each counter is one less than it was seen. -/
def Refund (seen : Seen) (p : String) (r : Reservation) (ss : List Stmt) : Prop :=
  ∃ day month, ss = .deleteSendLog r.sendLogId :: (day ++ month) ∧
    CountDown seen p .day r.dayKey day ∧ CountDown seen p .month r.monthKey month

/-- The phase after an operation. -/
def LimiterPhase.next : LimiterPhase → (o : Op) → o.Ans → LimiterPhase
  | .outside, .acquire (.limiter p), _ => .holding p {}
  | .holding _ _, .unlock (.limiter _), _ => .outside
  | .holding p seen, .utcnow, t => .holding p { seen with times := t :: seen.times }
  | .holding p seen, .inflight _, n => .holding p { seen with inUse := some n }
  | .holding p seen, .incInflight _, _ => .holding p { seen with inUse := none }
  | .holding p seen, .select _ (.countSendLog _ since), .ok n =>
    .holding p { seen with counts := (since, n) :: seen.counts }
  | .holding p seen, .select _ (.quota key), .ok row =>
    .holding p { seen with rows := (key, row) :: seen.rows }
  | .holding p seen, .commit _ _, _ => .holding p { seen with counts := [], rows := [] }
  | φ, _, _ => φ

/-- The operations in order in a phase. -/
def LimiterPhase.good : LimiterPhase → (o : Op) → o.Ans → Prop
  | φ, .acquire (.limiter _), _ => φ = .outside
  | φ, .unlock (.limiter p), _ => ∃ seen, φ = .holding p seen
  | φ, .inflight p, _ => ∃ seen, φ = .holding p seen
  | φ, .incInflight p, _ => ∃ seen, φ = .holding p seen ∧ ∀ c m, cfg.provider p = some c →
      c.limits.maxConcurrent = some m → ∃ n, seen.inUse = some n ∧ n < (m : ℕ)
  | φ, .select _ (.countSendLog p _), _ => ∃ seen, φ = .holding p seen
  | φ, .select _ (.quota key), _ => ∃ seen, φ = .holding key.provider seen
  | φ, .commit _ ss, _ => ss.all Stmt.limitNeutral ∨
      ∃ p seen, φ = .holding p seen ∧ (Grant cfg seen p ss ∨ ∃ r, Refund seen p r ss)
  | _, _, _ => True

/-- The limiter's protocol. -/
def limiterProtocol : Protocol Op Op.Ans Job LimiterPhase where
  idle := .outside
  enter _ := .outside
  next := LimiterPhase.next
  good := LimiterPhase.good cfg

/-! ### What the rest of the code does outside the locks -/

theorem neutral_of_table {ss : List Stmt} {t : Table} (ht : t ≠ .limits)
    (h : ∀ s ∈ ss, s.table = t) : ss.all Stmt.limitNeutral = true := by
  rw [List.all_eq_true]
  intro s hs
  have := h s hs
  cases s <;> simp_all [Stmt.table, Stmt.limitNeutral]

theorem limiter_ofOthers {o : Op} (h : o.ofOthers) (a : o.Ans) :
    LimiterPhase.good cfg .outside o a ∧ LimiterPhase.next .outside o a = .outside := by
  cases o with
  | commit site ss => exact ⟨.inl (neutral_of_table (by decide) h.2), rfl⟩
  | select site q => cases q <;> first | exact h.elim | exact ⟨trivial, rfl⟩
  | acquire l => exact h.elim
  | unlock l => exact h.elim
  | inflight p => exact h.elim
  | incInflight p => exact h.elim
  | _ => exact ⟨trivial, rfl⟩

theorem limiter_ofBreaker {o : Op} (h : o.ofBreaker) (a : o.Ans) :
    LimiterPhase.good cfg .outside o a ∧ LimiterPhase.next .outside o a = .outside := by
  cases o with
  | commit site ss => exact ⟨.inl (neutral_of_table (by decide) h.2), rfl⟩
  | select site q => cases q <;> first | exact h.elim | exact ⟨trivial, rfl⟩
  | acquire l => cases l <;> first | exact h.elim | exact ⟨trivial, rfl⟩
  | unlock l => cases l <;> first | exact h.elim | exact ⟨trivial, rfl⟩
  | inflight p => exact h.elim
  | incInflight p => exact h.elim
  | _ => exact ⟨trivial, rfl⟩

/-! ### What the limiter does under a lock -/

/-- Everything seen so far is still there. -/
structure Seen.Le (seen seen' : Seen) : Prop where
  inUse : seen'.inUse = seen.inUse
  times : seen.times ⊆ seen'.times
  counts : seen.counts ⊆ seen'.counts
  rows : seen.rows ⊆ seen'.rows

theorem Seen.Le.refl (seen : Seen) : seen.Le seen :=
  ⟨rfl, List.Subset.refl _, List.Subset.refl _, List.Subset.refl _⟩

theorem Seen.Le.trans {a b c : Seen} (h : a.Le b) (h' : b.Le c) : a.Le c :=
  ⟨h'.inUse.trans h.inUse, fun _ hx => h'.times (h.times hx), fun _ hx => h'.counts (h.counts hx),
    fun _ hx => h'.rows (h.rows hx)⟩

theorem Seen.le_time (seen : Seen) (t : Time) : seen.Le { seen with times := t :: seen.times } :=
  ⟨rfl, List.subset_cons_self _ _, List.Subset.refl _, List.Subset.refl _⟩

theorem Seen.le_count (seen : Seen) (x : Time × ℕ) :
    seen.Le { seen with counts := x :: seen.counts } :=
  ⟨rfl, List.Subset.refl _, List.subset_cons_self _ _, List.Subset.refl _⟩

theorem Seen.le_row (seen : Seen) (x : QuotaKey × Option ℕ) :
    seen.Le { seen with rows := x :: seen.rows } :=
  ⟨rfl, List.Subset.refl _, List.Subset.refl _, List.subset_cons_self _ _⟩

variable {α β : Type} {p : String} {seen : Seen}

/-- Still under the lock, having seen no less, with a result in `R`. -/
def Looked (p : String) (seen : Seen) (R : α → Seen → Prop) : Except Exc α → LimiterPhase → Prop :=
  fun r φ => ∃ seen', φ = .holding p seen' ∧ seen.Le seen' ∧ ∀ a, r = .ok a → R a seen'

theorem looked_error {R : α → Seen → Prop} (e : Exc) :
    Looked p seen R (.error e) (.holding p seen) :=
  ⟨seen, rfl, .refl _, fun _ h => by cases h⟩

theorem looked_ok {R : α → Seen → Prop} {a : α} (h : R a seen) :
    Looked p seen R (.ok a) (.holding p seen) :=
  ⟨seen, rfl, .refl _, fun _ ha => by cases ha; exact h⟩

theorem Seen.Le.looked {seen₀ : Seen} (hle : seen₀.Le seen) {R : α → Seen → Prop}
    {r : Except Exc α} {φ : LimiterPhase} (h : Looked p seen R r φ) : Looked p seen₀ R r φ := by
  obtain ⟨seen', rfl, hle', hR⟩ := h
  exact ⟨seen', rfl, hle.trans hle', hR⟩

/-- Sequencing under the lock. -/
theorem follows_looked {R : α → Seen → Prop} {R' : β → Seen → Prop} {t : Act α} {f : α → Act β}
    (ht : t.Follows (limiterProtocol cfg) (Looked p seen R) (.holding p seen))
    (hf : ∀ a seen', seen.Le seen' → R a seen' →
      (f a).Follows (limiterProtocol cfg) (Looked p seen' R') (.holding p seen')) :
    (t >>= f).Follows (limiterProtocol cfg) (Looked p seen R') (.holding p seen) := by
  refine Follows.bind ht ?_ ?_
  · rintro a χ ⟨seen', rfl, hle, hR⟩
    exact (hf a seen' hle (hR a rfl)).mono fun r φ h => hle.looked h
  · rintro e χ ⟨seen', rfl, hle, _⟩
    exact hle.looked (looked_error e)

/-- What `_sliding_counts` has read for the windows `ws` at time `now`. -/
def Counted (now : Time) (ws : List (Window × ℕ × ℕ)) (counts : List (Window × ℕ)) (seen : Seen) :
    Prop :=
  now ∈ seen.times ∧
    List.Forall₂ (fun w c => c.1 = w.1 ∧ (now - (w.2.1 : Time), c.2) ∈ seen.counts) ws counts

theorem Counted.le {now : Time} {ws : List (Window × ℕ × ℕ)} {counts : List (Window × ℕ)}
    {seen' : Seen} (h : Counted now ws counts seen) (hle : seen.Le seen') :
    Counted now ws counts seen' :=
  ⟨hle.times h.1, h.2.imp fun _ _ hw => ⟨hw.1, hle.counts hw.2⟩⟩

theorem follows_countWindows (site : Site) (now : Time) : ∀ ws seen, now ∈ seen.times →
    (RateLimiter.countWindows site p now ws).Follows (limiterProtocol cfg)
      (Looked p seen (Counted now ws)) (.holding p seen)
  | [], seen, h => looked_ok ⟨h, .nil⟩
  | w :: rest, seen, h => by
    refine follows_query (fun n => ⟨⟨seen, rfl⟩, ?_⟩) fun e => ⟨⟨seen, rfl⟩, looked_error e⟩
    have hle := seen.le_count (now - (w.2.1 : Time), n)
    refine Follows.mono (fun r φ h => hle.looked h)
      (follows_looked cfg (follows_countWindows site now rest _ (hle.times h)) ?_)
    intro counts seen' hle' hcounts
    exact looked_ok ⟨hcounts.1, .cons ⟨rfl, hle'.counts List.mem_cons_self⟩ hcounts.2⟩

theorem follows_slidingCounts (site : Site) (limits : ProviderLimits) (seen : Seen) :
    (RateLimiter.slidingCounts site p limits).Follows (limiterProtocol cfg)
      (Looked p seen fun counts seen' => ∃ now, Counted now limits.slidingWindows counts seen')
      (.holding p seen) := by
  refine follows_perform fun now => ⟨trivial, ?_⟩
  refine (follows_countWindows cfg site now _ _ List.mem_cons_self).mono fun r φ h => ?_
  obtain ⟨seen', rfl, hle, hR⟩ := h
  exact ⟨seen', rfl, (seen.le_time now).trans hle, fun a ha => ⟨now, hR a ha⟩⟩

theorem slidingWindows_nodup (limits : ProviderLimits) :
    (limits.slidingWindows.map Prod.fst).Nodup := by
  unfold ProviderLimits.slidingWindows windowOf
  cases limits.perSecond <;> cases limits.perMinute <;> cases limits.perHour <;> simp

/-- A window that `windowFull` found not to be full was counted below its limit. -/
theorem Counted.lt {now : Time} {ws : List (Window × ℕ × ℕ)} {counts : List (Window × ℕ)}
    (h : Counted now ws counts seen) (hws : (ws.map Prod.fst).Nodup) {w : Window × ℕ × ℕ}
    (hw : w ∈ ws) (hlt : (counts.lookup w.1).getD 0 < w.2.2) :
    ∃ n, (now - (w.2.1 : Time), n) ∈ seen.counts ∧ n < w.2.2 := by
  obtain ⟨_, h⟩ := h
  induction h with
  | nil => cases hw
  | @cons x c ws counts hx _ ih =>
    rw [List.map_cons, List.nodup_cons] at hws
    obtain ⟨c₁, c₂⟩ := c
    obtain ⟨rfl, hc⟩ : c₁ = x.1 ∧ _ := hx
    rcases List.mem_cons.mp hw with rfl | hw
    · rw [List.lookup_cons_self] at hlt
      exact ⟨c₂, hc, hlt⟩
    · have hne : (w.1 == x.1) = false :=
        beq_false_of_ne fun he => hws.1 (he ▸ List.mem_map_of_mem hw)
      rw [List.lookup_cons, hne] at hlt
      exact ih hws.2 hw hlt

/-- What `try_reserve` knows about a counter. -/
def RoomSeen (key : QuotaKey) (limit : Option PositiveInt) : RateLimiter.QuotaRoom → Seen → Prop
  | .unlimited, _ => limit = none
  | .full, _ => True
  | .room k row, seen => k = key ∧ ∃ l, limit = some l ∧ row.getD 0 < (l : ℕ) ∧
      (key, row) ∈ seen.rows

theorem RoomSeen.le {key : QuotaKey} {limit : Option PositiveInt} {room : RateLimiter.QuotaRoom}
    {seen' : Seen} (h : RoomSeen key limit room seen) (hle : seen.Le seen') :
    RoomSeen key limit room seen' := by
  cases room with
  | unlimited => exact h
  | full => exact h
  | room k row =>
    obtain ⟨hk, l, hl, hlt, hrow⟩ := h
    exact ⟨hk, l, hl, hlt, hle.rows hrow⟩

theorem follows_quotaRoom (key : QuotaKey) (limit : Option PositiveInt) (seen : Seen) :
    (RateLimiter.quotaRoom key limit).Follows (limiterProtocol cfg)
      (Looked key.provider seen (RoomSeen key limit)) (.holding key.provider seen) := by
  cases limit with
  | none => exact looked_ok rfl
  | some l =>
    refine follows_query (fun row => ⟨⟨seen, rfl⟩, ?_⟩) fun e => ⟨⟨seen, rfl⟩, looked_error e⟩
    refine (seen.le_row (key, row)).looked (looked_ok ?_)
    split
    · trivial
    · exact ⟨rfl, l, rfl, by omega, List.mem_cons_self⟩

/-- Without a copy of the row in the session, `_bump_quota` reads it. -/
theorem follows_bumpQuota (site : Site) (key : QuotaKey) (delta : ℤ) (seen : Seen) :
    (RateLimiter.bumpQuota site none key delta).Follows (limiterProtocol cfg)
      (Looked key.provider seen fun s seen' => ∃ row, (key, row) ∈ seen'.rows ∧
        s = .putQuota key ((row.getD 0 : ℤ) + delta).toNat) (.holding key.provider seen) := by
  refine follows_query (fun row => ⟨⟨seen, rfl⟩, ?_⟩) fun e => ⟨⟨seen, rfl⟩, looked_error e⟩
  exact (seen.le_row (key, row)).looked (looked_ok ⟨row, List.mem_cons_self, rfl⟩)

theorem follows_bumpRoom {k : String} {scope : Scope} {limit : Option PositiveInt}
    {room : RateLimiter.QuotaRoom} (h : RoomSeen ⟨p, k, scope⟩ limit room seen)
    (hfull : room.isFull = false) :
    (RateLimiter.bumpRoom room).Follows (limiterProtocol cfg)
      (Looked p seen fun ss seen' => CountUp seen' p scope limit ss) (.holding p seen) := by
  cases room with
  | unlimited =>
    obtain rfl : limit = none := h
    exact looked_ok rfl
  | full => cases hfull
  | room key row =>
    obtain ⟨rfl, l, rfl, hlt, hrow⟩ := h
    cases row with
    | some n => exact looked_ok ⟨k, some n, some n, hrow, hrow, hlt, rfl⟩
    | none =>
      refine follows_looked cfg (follows_bumpQuota cfg _ ⟨p, k, scope⟩ 1 seen) ?_
      rintro s seen' hle ⟨row', hrow', rfl⟩
      exact looked_ok ⟨k, none, row', hle.rows hrow, hrow', hlt, rfl⟩

/-- Still under the lock, with no slot taken. -/
def Locked (p : String) (inUse : Option ℕ) : LimiterPhase → Prop :=
  fun φ => ∃ seen, φ = .holding p seen ∧ seen.inUse = inUse

theorem Looked.locked {R : α → Seen → Prop} {r : Except Exc α} {φ : LimiterPhase}
    (h : Looked p seen R r φ) : Locked p seen.inUse φ := by
  obtain ⟨seen', rfl, hle, _⟩ := h
  exact ⟨seen', rfl, hle.inUse⟩

theorem follows_refuse (seen : Seen) :
    (RateLimiter.refuse : Act (Option α)).Follows (limiterProtocol cfg)
      (fun _ φ => Locked p seen.inUse φ) (.holding p seen) :=
  follows_commit (fun _ => ⟨.inl rfl, _, rfl, rfl⟩) fun _ => ⟨.inl rfl, _, rfl, rfl⟩

/-- Sequencing under the lock, when only the slots seen matter afterwards. -/
theorem follows_locked {R : α → Seen → Prop} {t : Act α} {f : α → Act β} {inUse : Option ℕ}
    (hin : seen.inUse = inUse)
    (ht : t.Follows (limiterProtocol cfg) (Looked p seen R) (.holding p seen))
    (hf : ∀ a seen', seen.Le seen' → seen'.inUse = inUse → R a seen' →
      (f a).Follows (limiterProtocol cfg) (fun _ φ => Locked p inUse φ) (.holding p seen')) :
    (t >>= f).Follows (limiterProtocol cfg) (fun _ φ => Locked p inUse φ) (.holding p seen) := by
  refine Follows.bind ht ?_ ?_
  · rintro a χ ⟨seen', rfl, hle, hR⟩
    exact hf a seen' hle (hle.inUse.trans hin) (hR a rfl)
  · rintro e χ h
    exact hin ▸ h.locked

/-- The session of `try_reserve` commits nothing, or a grant. -/
theorem follows_reserveRow {c : ProviderConfig} (hc : cfg.provider p = some c) (now : Time)
    (seen : Seen) :
    (RateLimiter.reserveRow p c.limits now).Follows (limiterProtocol cfg)
      (fun _ φ => Locked p seen.inUse φ) (.holding p seen) := by
  refine follows_locked cfg rfl (follows_slidingCounts cfg _ _ _) ?_
  rintro counts s₁ h₁ i₁ ⟨now', hcounts⟩
  split
  · exact i₁ ▸ follows_refuse cfg s₁
  rename_i hfull
  refine follows_locked cfg i₁ (follows_quotaRoom cfg ⟨p, _, .day⟩ _ _) ?_
  intro day s₂ h₂ i₂ hday
  split
  · exact i₂ ▸ follows_refuse cfg s₂
  rename_i hdayFull
  refine follows_locked cfg i₂ (follows_quotaRoom cfg ⟨p, _, .month⟩ _ _) ?_
  intro month s₃ h₃ i₃ hmonth
  split
  · exact i₃ ▸ follows_refuse cfg s₃
  rename_i hmonthFull
  refine follows_flush ⟨trivial, ?_⟩ fun e => ⟨trivial, _, rfl, i₃⟩
  refine follows_locked cfg i₃ (follows_bumpRoom cfg (hday.le h₃) (by simpa using hdayFull)) ?_
  intro ds s₄ h₄ i₄ hds
  refine follows_locked cfg i₄ (follows_bumpRoom cfg (hmonth.le h₄) (by simpa using hmonthFull)) ?_
  intro ms s₅ h₅ i₅ hms
  have grant : Grant cfg s₅ p (.insertSendLog p now :: (ds ++ ms)) := by
    have seen := hcounts.le (h₂.trans (h₃.trans (h₄.trans h₅)))
    refine ⟨c, now, now', ds, ms, hc, rfl, seen.1, fun x hx => ?_, hds.mono h₅.rows, hms⟩
    refine seen.lt (slidingWindows_nodup _) hx ?_
    simp only [RateLimiter.windowFull, List.any_eq_true, decide_eq_true_eq, not_exists, not_and,
      not_le] at hfull
    exact hfull x hx
  exact follows_commit (fun _ => ⟨.inr ⟨p, s₅, rfl, .inl grant⟩, _, rfl, i₅⟩)
    fun _ => ⟨.inr ⟨p, s₅, rfl, .inl grant⟩, _, rfl, i₅⟩

/-! ### Whole calls -/

/-- Under a provider's lock anything may be looked at, and the lock is given back. -/
theorem follows_section {body : Act α}
    (h : body.Follows (limiterProtocol cfg) (fun _ φ => ∃ seen, φ = .holding p seen)
      (.holding p {})) : (withLock (.limiter p) body).Whole (limiterProtocol cfg) := by
  refine follows_withLock rfl (h.mono ?_)
  rintro r _ ⟨seen, rfl⟩
  exact ⟨⟨seen, rfl⟩, rfl⟩

/-- What `try_reserve` has seen of the slots in use. -/
def CapacitySeen (limit : Option PositiveInt) (full : Bool) (seen : Seen) : Prop :=
  full = false → ∀ m, limit = some m → ∃ n, seen.inUse = some n ∧ n < (m : ℕ)

theorem follows_atCapacity (limit : Option PositiveInt) :
    (RateLimiter.atCapacity p limit).Follows (limiterProtocol cfg)
      (fun r φ => ∃ full seen, r = .ok full ∧ φ = .holding p seen ∧ CapacitySeen limit full seen)
      (.holding p {}) := by
  cases limit with
  | none => exact ⟨_, _, rfl, rfl, fun _ _ h => by cases h⟩
  | some m =>
    refine follows_perform fun n => ⟨⟨_, rfl⟩, _, _, rfl, rfl, ?_⟩
    intro hn m' hm
    cases hm
    exact ⟨n, rfl, by simpa using hn⟩

theorem whole_tryReserve (p : String) : (RateLimiter.tryReserve cfg p).Whole
    (limiterProtocol cfg) := by
  unfold RateLimiter.tryReserve
  split
  · exact rfl
  rename_i c hc
  refine follows_section cfg (Follows.bind (follows_atCapacity cfg _) ?_ ?_)
  · rintro full _ ⟨_, seen, hfull, rfl, hcap⟩
    cases hfull
    split
    · exact ⟨_, rfl⟩
    rename_i hf
    have room := hcap (by simpa using hf)
    refine follows_perform fun now => ⟨trivial, ?_⟩
    refine Follows.bind (follows_reserveRow cfg hc now { seen with times := now ::
      seen.times }) ?_ ?_
    · rintro row _ ⟨seen', rfl, hin⟩
      cases row with
      | none => exact ⟨_, rfl⟩
      | some x =>
        obtain ⟨id, dayKey, monthKey⟩ := x
        refine follows_perform fun _ => ⟨⟨seen', rfl, ?_⟩, follows_perform fun _ =>
          ⟨trivial, _, rfl⟩⟩
        intro c' m hc' hm
        rw [hc] at hc'
        cases hc'
        obtain ⟨n, hn, hlt⟩ := room m hm
        exact ⟨n, hin.trans hn, hlt⟩
    · rintro e _ ⟨seen', rfl, _⟩
      exact ⟨_, rfl⟩
  · rintro e _ ⟨_, _, h, _⟩
    cases h

theorem whole_commitReservation (r : Reservation) :
    (RateLimiter.commitReservation r).Whole (limiterProtocol cfg) :=
  follows_perform fun _ => ⟨trivial, follows_section cfg fun _ => ⟨trivial, _, rfl⟩⟩

theorem follows_unbump (site : Site) (scope : Scope) (key : Option String) (seen : Seen) :
    (RateLimiter.unbump site p scope key).Follows (limiterProtocol cfg)
      (Looked p seen fun ss seen' => CountDown seen' p scope key ss) (.holding p seen) := by
  cases key with
  | none => exact looked_ok rfl
  | some k =>
    refine follows_looked cfg (follows_bumpQuota cfg site ⟨p, k, scope⟩ (-1) seen) ?_
    rintro s seen' _ ⟨row, hrow, rfl⟩
    refine looked_ok ⟨row, hrow, ?_⟩
    simp only [List.cons.injEq, Stmt.putQuota.injEq, true_and, and_true]
    omega

theorem whole_release (by_ : Caller) (r : Reservation) :
    (RateLimiter.release by_ r).Whole (limiterProtocol cfg) := by
  refine follows_perform fun _ => ⟨trivial, follows_section cfg ?_⟩
  refine follows_perform fun _ => ⟨trivial, follows_flush ⟨trivial, ?_⟩ fun e => ⟨trivial, _, rfl⟩⟩
  refine Follows.bind (follows_unbump cfg _ _ _ _) ?_ ?_
  · rintro ds _ ⟨s₁, rfl, h₁, hds⟩
    refine Follows.bind (follows_unbump cfg _ _ _ _) ?_ ?_
    · rintro ms _ ⟨s₂, rfl, h₂, hms⟩
      have refund : Refund s₂ r.provider r (.deleteSendLog r.sendLogId :: (ds ++ ms)) :=
        ⟨ds, ms, rfl, (hds ds rfl).mono h₂.rows, hms ms rfl⟩
      exact follows_commit (fun _ => ⟨.inr ⟨_, s₂, rfl, .inr ⟨r, refund⟩⟩, _, rfl⟩)
        fun _ => ⟨.inr ⟨_, s₂, rfl, .inr ⟨r, refund⟩⟩, _, rfl⟩
    · rintro e _ ⟨s₂, rfl, _⟩
      exact ⟨_, rfl⟩
  · rintro e _ ⟨s₁, rfl, _⟩
    exact ⟨_, rfl⟩

theorem whole_prune : (RateLimiter.prune cfg).Whole (limiterProtocol cfg) := by
  unfold RateLimiter.prune
  split
  · exact rfl
  · exact follows_perform fun _ => ⟨trivial, follows_flush ⟨trivial, follows_commit
      (fun _ => ⟨.inl rfl, rfl⟩) fun _ => ⟨.inl rfl, rfl⟩⟩ fun _ => ⟨trivial, rfl⟩⟩

/-- Every call keeps to the limiter's protocol. -/
theorem limiter_callsWhole : CallsWhole cfg (limiterProtocol cfg) := by
  have breaker : ∀ {α : Type} {R : α → Prop} {t : Act α}, t.Tame Op.fails Op.ofBreaker R →
      t.Whole (limiterProtocol cfg) :=
    fun ht => (ht.uses.mono fun o ho a => limiter_ofBreaker cfg ho a).whole
  exact {
    others := fun o ho a => limiter_ofOthers cfg ho a
    recordAttempt := fun messageId attemptNo provider startedAt result =>
      follows_perform fun _ => ⟨trivial, follows_commit (fun _ => ⟨.inl rfl, rfl⟩) fun _ =>
        ⟨.inl rfl, rfl⟩⟩
    relay := fun c mailFrom rcptTos raw errand out => ⟨trivial, whole_ofExcept _⟩
    requeueNow := fun messageId => Whole.handle
      (follows_flush ⟨trivial, follows_commit (fun _ => ⟨.inl rfl, rfl⟩) fun _ => ⟨.inl rfl, rfl⟩⟩
        fun _ => ⟨trivial, rfl⟩) fun e => follows_swallow e fun _ => rfl
    tryReserve := whole_tryReserve cfg
    commit := whole_commitReservation cfg
    release := whole_release cfg
    prune := whole_prune cfg
    load := breaker CircuitBreaker.tame_load
    isAvailable := fun p => breaker (CircuitBreaker.tame_isAvailable _ p)
    beginProbe := fun p => breaker (CircuitBreaker.tame_beginProbe _ p)
    recordSuccess := fun p => breaker (CircuitBreaker.tame_recordSuccess p)
    recordFailure := fun p => breaker (CircuitBreaker.tame_recordFailure _ p) }

end SmtpSwitch
