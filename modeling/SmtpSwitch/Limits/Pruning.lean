import Mathlib.Data.List.Forall2
import SmtpSwitch.Limits.Headroom

/-!
# Pruning

`prune` deletes the `send_log` rows that no window reaches any more, and nothing the limiter
answers rests on them. But a reservation may still be out whose row it deletes, and the id of
that row may be given to another one: the release of the reservation then deletes the other
one's row. As long as no reservation is released after that has happened to it
(`ReleasesInTime`), every release finds its own row or none (`Recorded.ownReleases`). A run with
`prune` and the same run without it are then compared call by call: all answers are the same
(`pruning_invisible`). -/

namespace SmtpSwitch.RateLimiter

open Coop Coop.Prog
open CircuitBreaker (unfailing)

/-! ### Runs of calls -/

/-- A call of the limiter, or the passing of time. A reservation is named by the number of the
call of `try_reserve` that returned it. -/
inductive LimiterCall where
  | wait (d : ℚ)
  | tryReserve (p : String)
  | check (p : String)
  | commit (n : ℕ)
  | release (n : ℕ)
  | prune
  deriving DecidableEq

/-- The answers of a run; the id of a row, which the caller only gives back, is left out. -/
inductive Answer where
  | reserved (r : Option Reservation)
  | checked (found : LimitCheck)
  | raised (e : Exc)

/-- A reservation but for the id of its row. -/
def nameless (r : Reservation) : Reservation := { r with sendLogId := 0 }

theorem nameless_eq {r r' : Reservation} (h : nameless r = nameless r') :
    r.provider = r'.provider ∧ r.dayKey = r'.dayKey ∧ r.monthKey = r'.monthKey := by
  have fields := Reservation.mk.inj h
  exact ⟨fields.1, fields.2.2.1, fields.2.2.2.1⟩

/-- The limiter and its callers: for each call of `try_reserve`, the reservation that is out, and
the time it was granted. -/
structure Desk where
  world : World
  handed : List (Option (Reservation × Time)) := []

/-- The reservation of this number, if it is out. -/
def Desk.out (d : Desk) (n : ℕ) : Option (Reservation × Time) := (d.handed[n]?).join

/-- A reservation is settled. -/
def Desk.settle (d : Desk) (n : ℕ) (t : Act Unit) (cfg : Settings) : Option (Desk × List Answer) :=
  match t.alone (unfailing cfg) d.world with
  | some (.ok _, w) => some (⟨w, d.handed.set n none⟩, [])
  | some (.error e, w) => some (⟨w, d.handed⟩, [.raised e])
  | none => none

variable (cfg : Settings)

/-- One call, with nobody else at the limiter. A reservation that is not out is not settled again.
-/
def Desk.call (d : Desk) : LimiterCall → Option (Desk × List Answer)
  | .wait s => some ({ d with world := { d.world with clock := d.world.clock + max s 0 } }, [])
  | .tryReserve p =>
    match (RateLimiter.tryReserve cfg p).alone (unfailing cfg) d.world with
    | some (.ok r, w) =>
      some (⟨w, d.handed ++ [r.map fun r => (r, d.world.clock)]⟩, [.reserved (r.map nameless)])
    | some (.error e, w) => some (⟨w, d.handed ++ [none]⟩, [.raised e])
    | none => none
  | .check p =>
    match (RateLimiter.check cfg p).alone (unfailing cfg) d.world with
    | some (.ok found, w) => some ({ d with world := w }, [.checked found])
    | some (.error e, w) => some ({ d with world := w }, [.raised e])
    | none => none
  | .commit n =>
    match d.out n with
    | some (r, _) => d.settle n (commitReservation r) cfg
    | none => some (d, [])
  | .release n =>
    match d.out n with
    | some (r, _) => d.settle n (RateLimiter.release .process r) cfg
    | none => some (d, [])
  | .prune =>
    match (RateLimiter.prune cfg).alone (unfailing cfg) d.world with
    | some (.ok _, w) => some ({ d with world := w }, [])
    | some (.error e, w) => some ({ d with world := w }, [.raised e])
    | none => none

/-- A run, with all its answers. -/
def Desk.run : List LimiterCall → Desk → Option (Desk × List Answer)
  | [], d => some (d, [])
  | c :: cs, d => (d.call cfg c).bind fun x => (Desk.run cs x.1).map fun y => (y.1, x.2 ++ y.2)

/-- What stands under the id of the reservation, if anything, is the row inserted for it. -/
def Desk.Owns (d : Desk) (n : ℕ) : Prop := ∀ r t, d.out n = some (r, t) →
  ∀ e ∈ d.world.db.sendLog, e.id = r.sendLogId → e = ⟨r.sendLogId, r.provider, t⟩

/-- Every release of the run finds its own row or none. -/
def OwnReleases : List LimiterCall → Desk → Prop
  | [], _ => True
  | c :: cs, d => (∀ n, c = .release n → d.Owns n) ∧
    ∀ d' as, d.call cfg c = some (d', as) → OwnReleases cs d'

/-! ### Reservations that have been out for long -/

/-- What bears on the rows of reservations that are out. -/
inductive Event where
  /-- The `n`-th call of `try_reserve` returned a reservation with this id. -/
  | granted (n id : ℕ) (time : Time)
  /-- `prune` deleted the rows from before the cutoff. -/
  | pruned (cutoff : Time)

/-- The id and the time of a reservation. A history is newest first. -/
def grantOf (n : ℕ) : List Event → Option (ℕ × Time)
  | [] => none
  | .granted m id time :: history => if m = n then some (id, time) else grantOf n history
  | .pruned _ :: history => grantOf n history

/-- A prune has fallen on the row of the reservation: it came after the grant, with a later
cutoff. -/
def fallenOn (n : ℕ) : List Event → Bool
  | [] => false
  | .granted _ _ _ :: history => fallenOn n history
  | .pruned cutoff :: history =>
    fallenOn n history || (grantOf n history).any fun x => x.2 < cutoff

/-- And since then another reservation was given its id. -/
def givenAgain (n : ℕ) : List Event → Bool
  | [] => false
  | .granted _ id _ :: history =>
    givenAgain n history || fallenOn n history && (grantOf n history).any fun x => x.1 = id
  | .pruned _ :: history => givenAgain n history

/-- The time from which `prune` keeps the rows. -/
def cutoff (w : World) : Time := w.clock - (widestWindow cfg + 60)

/-- What a call adds to the history. -/
def Desk.events (d : Desk) (c : LimiterCall) (d' : Desk) : List Event :=
  match c with
  | .tryReserve _ =>
    match d'.out d.handed.length with
    | some (r, t) => [.granted d.handed.length r.sendLogId t]
    | none => []
  | .prune => if widestWindow cfg = 0 then [] else [.pruned (cutoff cfg d.world)]
  | _ => []

/-- No reservation is released after a prune has fallen on its row and its id has been given
again. -/
def ReleasesInTime : List LimiterCall → Desk → List Event → Prop
  | [], _, _ => True
  | c :: cs, d, history => (∀ n, c = .release n → givenAgain n history = false) ∧
    ∀ d' as, d.call cfg c = some (d', as) → ReleasesInTime cs d' (d.events cfg c d' ++ history)

/-! ### What the calls do -/

variable {cfg} {p : String} {w : World}

/-- The counters after a release. -/
def lowered (q : QuotaKey → Option ℕ) (key : Option QuotaKey) (quota : QuotaKey → Option ℕ) :
    QuotaKey → Option ℕ :=
  match key with
  | none => quota
  | some key => Function.update quota key (some (((q key).getD 0 : ℤ) + -1).toNat)

/-- The world after a release. -/
def released (r : Reservation) (w : World) : World :=
  { w with
    db := { w.db with
      sendLog := w.db.sendLog.filter fun e => e.id ≠ r.sendLogId
      quota := lowered w.db.quota (r.monthKey.map (⟨r.provider, ·, .month⟩))
        (lowered w.db.quota (r.dayKey.map (⟨r.provider, ·, .day⟩)) w.db.quota) }
    inflight := Function.update w.inflight r.provider (w.inflight r.provider - 1) }

theorem alone_release (r : Reservation) (free : w.locks (.limiter r.provider) = none) :
    (RateLimiter.release .process r).alone (unfailing cfg) w = some (.ok (), released r w) := by
  have body : (perform (.decInflight r.provider) >>= fun _ => flush (.release .process) >>= fun _ =>
      unbump (.release .process) r.provider .day r.dayKey >>= fun dayStmts =>
        unbump (.release .process) r.provider .month r.monthKey >>= fun monthStmts =>
          SmtpSwitch.commit (.release .process) (.deleteSendLog r.sendLogId ::
            (dayStmts ++ monthStmts)) >>= fun _ =>
            (pure () : Act Unit)).alone (unfailing cfg)
        { w with locks := Function.update w.locks (.limiter r.provider) (some 0) } =
      some (.ok (), { released r w with locks := Function.update w.locks (.limiter r.provider) (some 0) }) := by
    cases hd : r.dayKey <;> cases hm : r.monthKey <;>
      simp [perform, flush, SmtpSwitch.commit, unbump, bumpQuota, query, alone, unfailing,
        exec, Prog.ofExcept, Db.execAll, Stmt.exec, Query.eval, released, lowered, hd, hm]
  refine (alone_withLock (.ok ()) _ free body).trans ?_
  change some (_, { released r w with
    locks := Function.update (Function.update w.locks (.limiter r.provider) (some 0)) (.limiter r.provider) none }) = _
  rw [CircuitBreaker.locks_back free]
  rfl

/-- The world after a commit. -/
def kept (r : Reservation) (w : World) : World :=
  { w with inflight := Function.update w.inflight r.provider (w.inflight r.provider - 1) }

theorem alone_commitReservation (r : Reservation) (free : w.locks (.limiter r.provider) = none) :
    (commitReservation r).alone (unfailing cfg) w = some (.ok (), kept r w) := by
  have body : (perform (.decInflight r.provider)).alone (unfailing cfg)
      { w with locks := Function.update w.locks (.limiter r.provider) (some 0) } =
      some (.ok (), { kept r w with locks := Function.update w.locks (.limiter r.provider) (some 0) }) := rfl
  refine (alone_withLock (.ok ()) _ free body).trans ?_
  change some (_, { kept r w with
    locks := Function.update (Function.update w.locks (.limiter r.provider) (some 0))
      (.limiter r.provider) none }) = _
  rw [CircuitBreaker.locks_back free]
  rfl

theorem cutoff_lt (w : World) : cutoff cfg w < w.clock - widestWindow cfg :=
  sub_lt_sub_left (lt_add_of_pos_right _ (by decide)) _

/-- The world after `prune`. -/
def pruned (cfg : Settings) (w : World) : World :=
  { w with db := { w.db with sendLog := w.db.sendLog.filter fun e => ¬ e.sentAt < cutoff cfg w } }

theorem alone_prune : (RateLimiter.prune cfg).alone (unfailing cfg) w =
    some (.ok (), if widestWindow cfg = 0 then w else pruned cfg w) := by
  unfold RateLimiter.prune
  split <;> rfl

/-! ### Counting rows -/

theorem countSince_append (log log' : List SendLogEntry) (p : String) (since : Time) :
    countSince (log ++ log') p since = countSince log p since + countSince log' p since :=
      List.countP_append

/-- Without its row, a reservation is not counted. -/
theorem countSince_without {log : List SendLogEntry} (ids : (log.map SendLogEntry.id).Nodup)
    {e : SendLogEntry} (he : e ∈ log) (p : String) (since : Time) :
    countSince log p since = countSince (log.filter fun x => x.id ≠ e.id) p since +
      countSince [e] p since := by
  induction log with
  | nil => cases he
  | cons x log ih =>
    rw [List.map_cons, List.nodup_cons] at ids
    have cons : ∀ l, countSince (x :: l) p since = countSince [x] p since + countSince l p since :=
      fun l => countSince_append [x] l p since
    by_cases hx : x.id = e.id
    · have same : x = e := by
        rcases List.mem_cons.mp he with rfl | he
        · rfl
        · exact absurd (List.mem_map.mpr ⟨e, he, hx.symm⟩) ids.1
      subst same
      have rest : log.filter (fun y => y.id ≠ x.id) = log := by
        rw [List.filter_eq_self]
        intro y hy
        exact decide_eq_true fun h => ids.1 (List.mem_map.mpr ⟨y, hy, h⟩)
      rw [cons, List.filter_cons_of_neg (by simp), rest, Nat.add_comm]
    · rcases List.mem_cons.mp he with rfl | he
      · exact absurd rfl hx
      · rw [List.filter_cons_of_pos (by simp [hx]), cons log, cons (log.filter _), ih ids.2 he,
          Nat.add_assoc]

/-- Rows that are too old for a window are not counted. -/
theorem countSince_young {log : List SendLogEntry} {p : String} {cut since : Time}
    (h : cut ≤ since) :
    countSince (log.filter fun e => ¬ e.sentAt < cut) p since = countSince log p since := by
  unfold countSince
  rw [List.countP_filter]
  refine List.countP_congr fun e _ => ?_
  simp only [not_lt, Bool.and_eq_true, decide_eq_true_eq, and_iff_left_iff_imp]
  exact fun counted => h.trans counted.2

/-! ### What rests on the table -/

theorem span_le {c : ProviderConfig} (hc : cfg.provider p = some c) {x : Window × ℕ × ℕ}
    (hx : x ∈ c.limits.slidingWindows) : x.2.1 ≤ widestWindow cfg := by
  have le : ∀ {l : List ℕ} {n : ℕ}, n ∈ l → n ≤ l.foldr max 0 := by
    intro l n h
    induction l with
    | nil => cases h
    | cons m l ih =>
      rcases List.mem_cons.mp h with rfl | h
      · exact le_max_left _ _
      · exact (ih h).trans (le_max_right _ _)
  have own : x.2.1 ∈ c.limits.slidingWindows.map fun w => w.2.1 := List.mem_map.mpr ⟨x, hx, rfl⟩
  have wide : c.limits.maxWindowSpan ∈ cfg.providers.map fun p => p.limits.maxWindowSpan :=
    List.mem_map.mpr ⟨c, Settings.provider_mem hc, rfl⟩
  exact (le own).trans (le wide)

/-- Two limiters that answer alike: they differ in the ids of the rows, and in rows no window
reaches. -/
structure SameUse (cfg : Settings) (w u : World) : Prop where
  clock : w.clock = u.clock
  inflight : w.inflight = u.inflight
  quota : w.db.quota = u.db.quota
  counts : ∀ p since, u.clock - widestWindow cfg ≤ since → countSince w.db.sendLog p since =
    countSince u.db.sendLog p since

theorem SameUse.rooms {u : World} (h : SameUse cfg w u) {c : ProviderConfig}
    (hc : cfg.provider p = some c) :
    rooms c.limits p w = rooms c.limits p u := by
  have windows : ∀ x ∈ c.limits.slidingWindows, windowUse p w x = windowUse p u x := by
    intro x hx
    have span : (x.2.1 : ℚ) ≤ widestWindow cfg := by exact_mod_cast span_le hc hx
    unfold windowUse
    rw [h.clock]
    exact h.counts p _ (sub_le_sub_left span _)
  have mapped : (c.limits.slidingWindows.map fun x =>
      (LimitName.window x.1, (x.2.2 - windowUse p w x : ℤ))) =
      c.limits.slidingWindows.map fun x => (LimitName.window x.1, (x.2.2 - windowUse p u x : ℤ)) :=
    List.map_congr_left fun x hx => by rw [windows x hx]
  simp only [RateLimiter.rooms, mapped, h.clock, h.inflight, h.quota]

/-! ### The two runs -/

/-- What is known of the rows and the reservations that are out; rows from an `old` time have been
pruned. -/
structure Sound (cfg : Settings) (old : Time → Prop) (d : Desk) : Prop where
  free : ∀ l, d.world.locks l = none
  ids : (d.world.db.sendLog.map SendLogEntry.id).Nodup
  kept : ∀ e ∈ d.world.db.sendLog, ¬ old e.sentAt
  past : ∀ t, old t → t < d.world.clock - widestWindow cfg
  present : ∀ n r t, d.out n = some (r, t) → ¬ old t → ⟨r.sendLogId, r.provider, t⟩ ∈
    d.world.db.sendLog
  distinct : ∀ n m r t r' t', n ≠ m → d.out n = some (r, t) → d.out m = some (r', t') →
    ¬ old t → ¬ old t' →
    r.sendLogId ≠ r'.sendLogId

/-- Two reservations that differ in the ids of their rows. -/
def SameGrant : Option (Reservation × Time) → Option (Reservation × Time) → Prop
  | none, none => True
  | some (r, t), some (r', t') => nameless r = nameless r' ∧ t = t'
  | _, _ => False

/-- A run that has pruned the rows from an `old` time, and the same run that has not pruned. -/
structure Alike (cfg : Settings) (old : Time → Prop) (d e : Desk) :
    Prop extends SameUse cfg d.world e.world where
  left : Sound cfg old d
  right : Sound cfg (fun _ => False) e
  handed : List.Forall₂ SameGrant d.handed e.handed

theorem out_set (d : Desk) (w : World) (n m : ℕ) :
    (Desk.mk w (d.handed.set n none)).out m = if m = n then none else d.out m := by
  unfold Desk.out
  simp only [List.getElem?_set]
  by_cases h : n = m
  · subst h
    by_cases hlt : n < d.handed.length <;> simp [hlt]
  · simp [h, Ne.symm h]

theorem out_append (d : Desk) (w : World) (x : Option (Reservation × Time)) (m : ℕ) :
    (Desk.mk w (d.handed ++ [x])).out m = if m = d.handed.length then x else d.out m := by
  unfold Desk.out
  rcases lt_trichotomy m d.handed.length with h | h | h
  · simp [List.getElem?_append_left h, h.ne]
  · simp [h]
  · simp only [h.ne', if_false]
    rw [List.getElem?_eq_none (by simp; omega), List.getElem?_eq_none h.le]

variable {old : Time → Prop} {d e : Desk}

/-- What is out in the one run is out in the other. -/
theorem Alike.outs (h : Alike cfg old d e) (n : ℕ) : SameGrant (d.out n) (e.out n) := by
  unfold Desk.out
  have := h.handed
  by_cases hn : n < d.handed.length
  · have hn' : n < e.handed.length := this.length_eq ▸ hn
    rw [List.getElem?_eq_getElem hn, List.getElem?_eq_getElem hn']
    exact this.get hn hn'
  · rw [List.getElem?_eq_none (by omega), List.getElem?_eq_none (by rw [← this.length_eq]; omega)]
    trivial

theorem Alike.out_cases (h : Alike cfg old d e) (n : ℕ) : d.out n = none ∧ e.out n = none ∨
    ∃ r r' t, d.out n = some (r, t) ∧ e.out n = some (r', t) ∧ nameless r = nameless r' := by
  have outs := h.outs n
  cases hd : d.out n with
  | none =>
    rw [hd] at outs
    cases he : e.out n with
    | none => exact .inl ⟨rfl, rfl⟩
    | some y => rw [he] at outs; exact outs.elim
  | some x =>
    rw [hd] at outs
    cases he : e.out n with
    | none => rw [he] at outs; exact outs.elim
    | some y =>
      rw [he] at outs
      obtain ⟨r, t⟩ := x
      obtain ⟨r', t'⟩ := y
      obtain ⟨same, rfl⟩ : nameless r = nameless r' ∧ t = t' := outs
      exact .inr ⟨r, r', t, rfl, rfl, same⟩

/-- A release takes its own row, if it is there. -/
theorem Sound.release (h : Sound cfg old d) {n : ℕ} {r : Reservation} {t : Time}
    (hn : d.out n = some (r, t)) (own : d.Owns n) :
    Sound cfg old ⟨released r d.world, d.handed.set n none⟩ ∧ ∀ p since,
      d.world.clock - widestWindow cfg ≤ since →
      countSince d.world.db.sendLog p since = countSince (released r d.world).db.sendLog p since +
        countSince [⟨r.sendLogId, r.provider, t⟩] p since := by
  refine ⟨⟨h.free, ?_, fun e he => h.kept e (List.mem_of_mem_filter he), h.past, ?_, ?_⟩, ?_⟩
  · exact h.ids.sublist (List.filter_sublist.map _)
  · intro m r' t' hm young
    rw [out_set] at hm
    split at hm
    · cases hm
    · rename_i other
      have there := h.present m r' t' hm young
      refine List.mem_filter.mpr ⟨there, decide_eq_true fun same => ?_⟩
      by_cases gone : old t
      · have mine : t' = t := congrArg SendLogEntry.sentAt (own r t hn _ there same)
        exact young (mine ▸ gone)
      · exact h.distinct m n r' t' r t other hm hn young gone same
  · intro m k r₁ t₁ r₂ t₂ hmk hm hk
    rw [out_set] at hm hk
    split at hm
    · cases hm
    split at hk
    · cases hk
    exact h.distinct m k r₁ t₁ r₂ t₂ hmk hm hk
  · intro p since wide
    by_cases gone : old t
    · -- the row has been pruned, and no other has its id
      have foreign : ∀ e ∈ d.world.db.sendLog, e.id ≠ r.sendLogId := by
        intro e he same
        have mine := own r t hn e he same
        subst mine
        exact h.kept _ he gone
      have all : d.world.db.sendLog.filter (fun e => e.id ≠ r.sendLogId) = d.world.db.sendLog :=
        List.filter_eq_self.mpr fun e he => decide_eq_true (foreign e he)
      have early : ¬ since ≤ t := not_le.mpr ((h.past t gone).trans_le wide)
      simp only [released, all, countSince, List.countP_cons, List.countP_nil, early,
        and_false, decide_false]
      rfl
    · exact countSince_without h.ids (h.present n r t hn gone) p since

/-- Where nothing has been pruned, a reservation's row is its own. -/
theorem Sound.owns (h : Sound cfg (fun _ => False) d) (n : ℕ) : d.Owns n := by
  intro r t hn e he same
  exact List.inj_on_of_nodup_map h.ids he (h.present n r t hn not_false) same

/-- A grant. -/
theorem Sound.granting (h : Sound cfg old d) (limits : ProviderLimits) (p : String) :
    Sound cfg old ⟨granted limits p d.world,
      d.handed ++ [some (grant limits p d.world, d.world.clock)]⟩ := by
  have now : ¬ old d.world.clock := by
    intro gone
    have wide : (0 : ℚ) ≤ widestWindow cfg := Nat.cast_nonneg _
    exact absurd (h.past _ gone) (not_lt.mpr (sub_le_self _ wide))
  have fresh : ∀ {e : SendLogEntry}, e ∈ d.world.db.sendLog →
      e.id ≠ (grant limits p d.world).sendLogId :=
    fun he => (lt_nextId (List.mem_map.mpr ⟨_, he, rfl⟩)).ne
  refine ⟨h.free, ?_, fun e he => ?_, h.past, fun n r t hn young => ?_,
    fun n m r t r' t' hne hn hm young young' => ?_⟩
  · simp only [granted, List.map_append, List.map_cons, List.map_nil, List.nodup_append]
    refine ⟨h.ids, List.nodup_singleton _, fun a ha b hb => ?_⟩
    obtain rfl := List.mem_singleton.mp hb
    exact (lt_nextId ha).ne
  · rcases List.mem_append.mp he with he | he
    · exact h.kept e he
    · rw [List.mem_singleton.mp he]
      exact now
  · rw [out_append] at hn
    split at hn
    · cases hn
      exact List.mem_append_right _ (List.mem_singleton_self _)
    · exact List.mem_append_left _ (h.present n r t hn young)
  · rw [out_append] at hn hm
    split at hn
    · split at hm
      · omega
      · cases hn
        exact fun same => fresh (h.present m r' t' hm young') same.symm
    · split at hm
      · cases hm
        exact fun same => fresh (h.present n r t hn young) same
      · exact h.distinct n m r t r' t' hne hn hm young young'

/-- The reservations stay, and time passes. -/
theorem Sound.same (h : Sound cfg old d) {w : World} {handed : List (Option (Reservation × Time))}
    (free : ∀ l, w.locks l = none) (log : w.db.sendLog = d.world.db.sendLog)
    (later : d.world.clock ≤ w.clock)
    (outs : ∀ n x, (Desk.mk w handed).out n = some x → d.out n = some x) :
    Sound cfg old ⟨w, handed⟩ where
  free := free
  ids := by rw [log]; exact h.ids
  kept e he := h.kept e (log ▸ he)
  past t gone := (h.past t gone).trans_le (sub_le_sub_right later _)
  present n r t hn young := by rw [log]; exact h.present n r t (outs n _ hn) young
  distinct n m r t r' t' hne hn hm := h.distinct n m r t r' t' hne (outs n _ hn) (outs m _ hm)

theorem forall₂_set {a b : List (Option (Reservation × Time))} (h : List.Forall₂ SameGrant a b)
    (n : ℕ) :
    List.Forall₂ SameGrant (a.set n none) (b.set n none) := by
  induction h generalizing n with
  | nil => exact .nil
  | cons hab _ ih =>
    cases n with
    | zero => exact .cons trivial ‹_›
    | succ n => exact .cons hab (ih n)

theorem out_of_set {d : Desk} {w : World} {n m : ℕ} {x : Reservation × Time}
    (h : (Desk.mk w (d.handed.set n none)).out m = some x) : d.out m = some x := by
  rw [out_set] at h
  split at h
  · cases h
  · exact h

theorem out_of_append {d : Desk} {w : World} {m : ℕ} {x : Reservation × Time}
    (h : (Desk.mk w (d.handed ++ [none])).out m = some x) : d.out m = some x := by
  rw [out_append] at h
  split at h
  · cases h
  · exact h

/-- A call that is refused, or raises. -/
theorem Alike.refusing (h : Alike cfg old d e) :
    Alike cfg old ⟨d.world, d.handed ++ [none]⟩ ⟨e.world, e.handed ++ [none]⟩ where
  toSameUse := h.toSameUse
  left := h.left.same h.left.free rfl le_rfl fun _ _ => out_of_append
  right := h.right.same h.right.free rfl le_rfl fun _ _ => out_of_append
  handed := List.rel_append h.handed (.cons trivial .nil)

/-- A call other than `prune` has the same answer in both runs. -/
theorem Alike.call (h : Alike cfg old d e) {c : LimiterCall} (hp : c ≠ .prune)
    (own : ∀ n, c = .release n → d.Owns n) :
    ∃ d' e' as, d.call cfg c = some (d', as) ∧ e.call cfg c = some (e', as) ∧
      Alike cfg old d' e' := by
  cases c with
  | prune => exact absurd rfl hp
  | wait s =>
    have later : ∀ x : ℚ, x ≤ x + max s 0 := fun x => le_add_of_nonneg_right (le_max_right _ _)
    refine ⟨_, _, _, rfl, rfl,
      ⟨by simp only [h.clock], h.inflight, h.quota, fun p since wide => h.counts p since ?_⟩,
      h.left.same h.left.free rfl (later _) fun _ _ h => h,
        h.right.same h.right.free rfl (later _) fun _ _ h => h,
      h.handed⟩
    exact (sub_le_sub_right (later _) _).trans wide
  | check p =>
    cases hc : cfg.provider p with
    | none =>
      have raises : ∀ w, (RateLimiter.check cfg p).alone (unfailing cfg) w =
          some (.error .keyError, w) := by
        intro w
        simp [RateLimiter.check, hc]
      simp only [Desk.call, raises]
      exact ⟨_, _, _, rfl, rfl, h⟩
    | some c =>
      simp only [Desk.call, alone_check cfg hc, h.rooms hc]
      exact ⟨_, _, _, rfl, rfl, h⟩
  | tryReserve p =>
    cases hc : cfg.provider p with
    | none =>
      have raises : ∀ w, (RateLimiter.tryReserve cfg p).alone (unfailing cfg) w =
          some (.error .keyError, w) := by
        intro w
        simp [RateLimiter.tryReserve, hc]
      simp only [Desk.call, raises]
      exact ⟨_, _, _, rfl, rfl, h.refusing⟩
    | some c =>
      cases reached : full (rooms c.limits p e.world) with
      | true =>
        have left := alone_tryReserve_full cfg hc (h.left.free _) ((h.rooms hc).symm ▸ reached)
        simp only [Desk.call, left, alone_tryReserve_full cfg hc (h.right.free _) reached]
        exact ⟨_, _, _, rfl, rfl, h.refusing⟩
      | false =>
        have left := alone_tryReserve_room cfg hc (h.left.free _) ((h.rooms hc).symm ▸ reached)
        have same : nameless (grant c.limits p d.world) = nameless (grant c.limits p e.world) := by
          simp only [nameless, grant, h.clock]
        simp only [Desk.call, left, alone_tryReserve_room cfg hc (h.right.free _) reached,
          Option.map_some, same]
        refine ⟨_, _, _, rfl, rfl, ⟨h.clock, ?_, ?_, fun q since wide => ?_⟩, h.left.granting _ _,
          h.right.granting _ _, ?_⟩
        · simp only [granted, h.inflight]
        · simp only [granted, h.quota, h.clock]
        · simp only [granted, countSince_append, h.counts q since wide, h.clock]
          rfl
        · exact List.rel_append h.handed (.cons ⟨same, h.clock⟩ .nil)
  | commit n =>
    rcases h.out_cases n with ⟨hd, he⟩ | ⟨r, r', t, hd, he, same⟩
    · simp only [Desk.call, hd, he]
      exact ⟨_, _, _, rfl, rfl, h⟩
    · obtain ⟨provider, -, -⟩ := nameless_eq same
      simp only [Desk.call, hd, he, Desk.settle, alone_commitReservation _ (h.left.free _),
        alone_commitReservation _ (h.right.free _)]
      refine ⟨_, _, _, rfl, rfl, ⟨h.clock, ?_, h.quota, h.counts⟩,
        h.left.same h.left.free rfl le_rfl ?_,
        h.right.same h.right.free rfl le_rfl ?_, forall₂_set h.handed n⟩
      · simp only [kept, h.inflight, provider]
      · exact fun m z hm => out_of_set hm
      · exact fun m z hm => out_of_set hm
  | release n =>
    rcases h.out_cases n with ⟨hd, he⟩ | ⟨r, r', t, hd, he, same⟩
    · simp only [Desk.call, hd, he]
      exact ⟨_, _, _, rfl, rfl, h⟩
    · obtain ⟨provider, dayKey, monthKey⟩ := nameless_eq same
      obtain ⟨left, less⟩ := h.left.release hd (own n rfl)
      obtain ⟨right, less'⟩ := h.right.release he (h.right.owns n)
      simp only [Desk.call, hd, he, Desk.settle, alone_release _ (h.left.free _),
        alone_release _ (h.right.free _)]
      refine ⟨_, _, _, rfl, rfl, ⟨h.clock, ?_, ?_, fun q since wide => ?_⟩, left, right,
        forall₂_set h.handed n⟩
      · simp only [released, h.inflight, provider]
      · simp only [released, h.quota, provider, dayKey, monthKey]
      · have before := h.counts q since wide
        have mine := less q since (h.clock ▸ wide)
        have yours := less' q since wide
        have one : countSince [⟨r.sendLogId, r.provider, t⟩] q since =
            countSince [⟨r'.sendLogId, r'.provider, t⟩] q since := by simp [countSince, provider]
        change countSince (released r d.world).db.sendLog q since = countSince
          (released r' e.world).db.sendLog q since
        omega

/-- `prune` changes nothing the limiter answers from. -/
theorem Alike.prune (h : Alike cfg old d e) : ∃ d' old', d.call cfg .prune = some (d', []) ∧
    Alike cfg old' d' e := by
  simp only [Desk.call, alone_prune]
  split
  · exact ⟨_, old, rfl, h⟩
  refine ⟨_, fun t => old t ∨ t < cutoff cfg d.world, rfl,
    ⟨h.clock, h.inflight, h.quota, fun p since wide => ?_⟩,
    ⟨h.left.free, ?_, fun x hx => ?_, fun t gone => ?_, fun n r t hn young => ?_,
      fun n m r t r' t' hne hn hm y y' => ?_⟩,
    h.right, h.handed⟩
  · rw [← h.counts p since wide]
    exact countSince_young ((cutoff_lt d.world).le.trans (h.clock ▸ wide))
  · exact h.left.ids.sublist (List.filter_sublist.map _)
  · obtain ⟨hx, young⟩ := List.mem_filter.mp hx
    rintro (gone | gone)
    · exact h.left.kept x hx gone
    · simp [gone] at young
  · rcases gone with gone | gone
    · exact h.left.past t gone
    · exact gone.trans (cutoff_lt d.world)
  · simp only [not_or] at young
    exact List.mem_filter.mpr ⟨h.left.present n r t hn young.1, by simpa using young.2⟩
  · simp only [not_or] at y y'
    exact h.left.distinct n m r t r' t' hne hn hm y.1 y'.1

/-- A run, and the same run without its calls of `prune`. -/
theorem Alike.run : ∀ {cs : List LimiterCall} {old : Time → Prop} {d e : Desk}, Alike cfg old d e →
    OwnReleases cfg cs d → ∃ d' e' as old', d.run cfg cs = some (d', as) ∧
      e.run cfg (cs.filter fun c => c ≠ .prune) = some (e', as) ∧ Alike cfg old' d' e'
  | [], old, d, e, h, _ => ⟨d, e, [], old, rfl, rfl, h⟩
  | c :: cs, old, d, e, h, own => by
    by_cases hp : c = .prune
    · subst hp
      obtain ⟨d₁, old₁, hd, h₁⟩ := h.prune
      obtain ⟨d', e', as, old', hrun, hrun', h'⟩ := h₁.run (own.2 _ _ hd)
      refine ⟨d', e', as, old', ?_, ?_, h'⟩
      · simp [Desk.run, hd, hrun]
      · rwa [List.filter_cons_of_neg (by simp)]
    · obtain ⟨d₁, e₁, as₁, hd, he, h₁⟩ := h.call hp own.1
      obtain ⟨d', e', as, old', hrun, hrun', h'⟩ := h₁.run (own.2 _ _ hd)
      refine ⟨d', e', as₁ ++ as, old', ?_, ?_, h'⟩
      · simp [Desk.run, hd, hrun]
      · rw [List.filter_cons_of_pos (by simp [hp])]
        simp only [Desk.run, he, Option.bind_some, hrun', Option.map_some]

theorem Alike.init {w : World} (free : ∀ l, w.locks l = none)
    (ids : (w.db.sendLog.map SendLogEntry.id).Nodup) :
    Alike cfg (fun _ => False) ⟨w, []⟩ ⟨w, []⟩ := by
  have sound : Sound cfg (fun _ => False) ⟨w, []⟩ :=
    ⟨free, ids, fun _ _ => not_false, fun _ h => h.elim, fun n r t hn => (by simp [Desk.out] at hn),
      fun n m r t r' t' _ hn => (by simp [Desk.out] at hn)⟩
  exact ⟨⟨rfl, rfl, rfl, fun _ _ _ => rfl⟩, sound, sound, .nil⟩

/-! ### Whose row a release finds -/

/-- What a call does to the rows and to the reservations that are out. -/
inductive Change (cfg : Settings) (d : Desk) : LimiterCall → Desk → List Event → Prop where
  /-- Nothing to the rows. -/
  | same {c : LimiterCall} {d' : Desk} : d'.world.db.sendLog = d.world.db.sendLog →
      d'.world.locks = d.world.locks → (∀ m x, d'.out m = some x → d.out m = some x) →
        d.handed.length ≤ d'.handed.length → Change cfg d c d' []
  | granted {p : String} {limits : ProviderLimits} : Change cfg d (.tryReserve p)
      ⟨granted limits p d.world, d.handed ++ [some (grant limits p d.world, d.world.clock)]⟩
      [.granted d.handed.length (grant limits p d.world).sendLogId d.world.clock]
  | released {n : ℕ} {r : Reservation} {t : Time} : d.out n = some (r, t) →
      Change cfg d (.release n) ⟨released r d.world, d.handed.set n none⟩ []
  | pruned : Change cfg d .prune ⟨pruned cfg d.world, d.handed⟩ [.pruned (cutoff cfg d.world)]

theorem Desk.change (free : ∀ l, d.world.locks l = none) {c : LimiterCall} {d' : Desk}
    {as : List Answer} (h : d.call cfg c = some (d', as)) :
    Change cfg d c d' (d.events cfg c d') := by
  have refused : ∀ {p}, Change cfg d (.tryReserve p) ⟨d.world, d.handed ++ [none]⟩
      (d.events cfg (.tryReserve p) ⟨d.world, d.handed ++ [none]⟩) := by
    intro p
    have nothing : d.events cfg (.tryReserve p) ⟨d.world, d.handed ++ [none]⟩ = [] := by
      simp [Desk.events, out_append]
    rw [nothing]
    exact .same rfl rfl (fun _ _ => out_of_append) (by simp)
  cases c with
  | wait s =>
    cases h
    exact .same rfl rfl (fun _ _ h => h) le_rfl
  | check p =>
    cases hc : cfg.provider p with
    | none =>
      have raises : (RateLimiter.check cfg p).alone (unfailing cfg) d.world =
          some (.error .keyError, d.world) := by simp [RateLimiter.check, hc]
      simp only [Desk.call, raises] at h
      cases h
      exact .same rfl rfl (fun _ _ h => h) le_rfl
    | some c =>
      simp only [Desk.call, alone_check cfg hc] at h
      cases h
      exact .same rfl rfl (fun _ _ h => h) le_rfl
  | tryReserve p =>
    cases hc : cfg.provider p with
    | none =>
      have raises : (RateLimiter.tryReserve cfg p).alone (unfailing cfg) d.world =
          some (.error .keyError, d.world) := by simp [RateLimiter.tryReserve, hc]
      simp only [Desk.call, raises] at h
      cases h
      exact refused
    | some c =>
      cases reached : full (rooms c.limits p d.world) with
      | true =>
        simp only [Desk.call, alone_tryReserve_full cfg hc (free _) reached] at h
        cases h
        exact refused
      | false =>
        simp only [Desk.call, alone_tryReserve_room cfg hc (free _) reached] at h
        cases h
        have event : d.events cfg (.tryReserve p) ⟨granted c.limits p d.world,
            d.handed ++ [some (grant c.limits p d.world, d.world.clock)]⟩ =
              [.granted d.handed.length (grant c.limits p d.world).sendLogId d.world.clock] := by
          simp [Desk.events, out_append]
        rw [Option.map_some, event]
        exact .granted
  | commit n =>
    cases hn : d.out n with
    | none =>
      simp only [Desk.call, hn] at h
      cases h
      exact .same rfl rfl (fun _ _ h => h) le_rfl
    | some x =>
      simp only [Desk.call, hn, Desk.settle, alone_commitReservation _ (free _)] at h
      cases h
      exact .same rfl rfl (fun _ _ => out_of_set) (by simp)
  | release n =>
    cases hn : d.out n with
    | none =>
      simp only [Desk.call, hn] at h
      cases h
      exact .same rfl rfl (fun _ _ h => h) le_rfl
    | some x =>
      simp only [Desk.call, hn, Desk.settle, alone_release _ (free _)] at h
      cases h
      exact .released (t := x.2) hn
  | prune =>
    simp only [Desk.call, alone_prune] at h
    cases h
    unfold Desk.events
    dsimp only
    split
    · exact .same rfl rfl (fun _ _ h => h) le_rfl
    · exact .pruned

theorem fallenOn_of_givenAgain {n : ℕ} : ∀ {history : List Event}, givenAgain n history = true →
    fallenOn n history = true
  | .granted _ _ _ :: history, h => by
    simp only [givenAgain, Bool.or_eq_true, Bool.and_eq_true] at h
    change fallenOn n history = true
    rcases h with h | h
    · exact fallenOn_of_givenAgain h
    · exact h.1
  | .pruned _ :: history, h => by
    have before : fallenOn n history = true := fallenOn_of_givenAgain h
    rw [fallenOn, before, Bool.true_or]

/-- What the history tells of the reservations that are out. -/
structure Recorded (d : Desk) (history : List Event) : Prop where
  free : ∀ l, d.world.locks l = none
  numbers : ∀ n, d.handed.length ≤ n → grantOf n history = none
  given : ∀ n r t, d.out n = some (r, t) → grantOf n history = some (r.sendLogId, t)
  present : ∀ n r t, d.out n = some (r, t) →
    ⟨r.sendLogId, r.provider, t⟩ ∈ d.world.db.sendLog ∨ fallenOn n history = true
  owns : ∀ n, givenAgain n history = false → d.Owns n
  apart : ∀ n m r t r' t', n < m → d.out n = some (r, t) → d.out m = some (r', t') →
    r.sendLogId = r'.sendLogId → givenAgain n history = true

variable {history : List Event}

theorem Recorded.same (h : Recorded d history) {d' : Desk}
    (log : d'.world.db.sendLog = d.world.db.sendLog) (locks : d'.world.locks = d.world.locks)
    (outs : ∀ m x, d'.out m = some x → d.out m = some x)
    (more : d.handed.length ≤ d'.handed.length) : Recorded d' history where
  free l := by rw [locks]; exact h.free l
  numbers n le := h.numbers n (more.trans le)
  given n r t hn := h.given n r t (outs n _ hn)
  present n r t hn := by rw [log]; exact h.present n r t (outs n _ hn)
  owns n once r t hn e he := h.owns n once r t (outs n _ hn) e (log ▸ he)
  apart n m r t r' t' lt hn hm := h.apart n m r t r' t' lt (outs n _ hn) (outs m _ hm)

/-- The id of a grant is new: a reservation that has it already was pruned. -/
theorem Recorded.again (h : Recorded d history) {n : ℕ} {r : Reservation} {t : Time}
    (hn : d.out n = some (r, t)) (m : ℕ) (time : Time)
    (same : r.sendLogId = nextId (d.world.db.sendLog.map SendLogEntry.id)) :
    givenAgain n (.granted m (nextId (d.world.db.sendLog.map SendLogEntry.id)) time :: history) =
      true := by
  have fallen : fallenOn n history = true := by
    refine (h.present n r t hn).resolve_left fun there => ?_
    have lt := lt_nextId (List.mem_map_of_mem (f := SendLogEntry.id) there)
    exact lt.ne same
  simp [givenAgain, fallen, h.given n r t hn, same]

theorem Recorded.granting (h : Recorded d history) (limits : ProviderLimits) (p : String) :
    Recorded ⟨granted limits p d.world,
        d.handed ++ [some (grant limits p d.world, d.world.clock)]⟩
      (.granted d.handed.length (grant limits p d.world).sendLogId d.world.clock :: history) := by
  have number : ∀ {n : ℕ} {x : Reservation × Time}, d.out n = some x → n < d.handed.length := by
    intro n x hn
    by_contra far
    rw [Desk.out, List.getElem?_eq_none (not_lt.mp far)] at hn
    cases hn
  refine ⟨h.free, fun n le => ?_, fun n r t hn => ?_, fun n r t hn => ?_,
    fun n once r t hn e he same => ?_, fun n m r t r' t' lt hn hm same => ?_⟩
  · rw [List.length_append, List.length_singleton] at le
    rw [grantOf, if_neg (by omega)]
    exact h.numbers n (by omega)
  · rw [out_append] at hn
    split at hn
    · cases hn
      rename_i new
      rw [grantOf, if_pos new.symm]
    · rename_i other
      rw [grantOf, if_neg (Ne.symm other)]
      exact h.given n r t hn
  · rw [out_append] at hn
    split at hn
    · cases hn
      exact .inl (List.mem_append_right _ (List.mem_singleton_self _))
    · exact (h.present n r t hn).imp_left fun there => List.mem_append_left _ there
  · rw [out_append] at hn
    split at hn
    · cases hn
      rcases List.mem_append.mp he with he | he
      · have lt := lt_nextId (List.mem_map_of_mem (f := SendLogEntry.id) he)
        exact absurd same lt.ne
      · exact List.mem_singleton.mp he
    · have before : givenAgain n history = false := by
        simp only [givenAgain, Bool.or_eq_false_iff] at once
        exact once.1
      rcases List.mem_append.mp he with he | he
      · exact h.owns n before r t hn e he same
      · obtain rfl := List.mem_singleton.mp he
        have again := h.again hn d.handed.length d.world.clock same.symm
        exact absurd (once.symm.trans again) Bool.noConfusion
  · rw [out_append] at hn hm
    split at hn
    · split at hm
      · omega
      · have := number hm
        omega
    · split at hm
      · cases hm
        exact h.again hn _ _ same
      · simp [givenAgain, h.apart n m r t r' t' lt hn hm same]

theorem Recorded.releasing (h : Recorded d history) {n : ℕ} {r : Reservation} {t : Time}
    (hn : d.out n = some (r, t)) (once : givenAgain n history = false) :
    Recorded ⟨released r d.world, d.handed.set n none⟩ history where
  free := h.free
  numbers m le := h.numbers m (by simpa using le)
  given m r' t' hm := h.given m r' t' (out_of_set hm)
  present m r' t' hm := by
    rw [out_set] at hm
    split at hm
    · cases hm
    rename_i other
    rcases h.present m r' t' hm with there | fallen
    · by_cases same : r'.sendLogId = r.sendLogId
      · rcases lt_or_gt_of_ne other with lt | lt
        · exact .inr (fallenOn_of_givenAgain (h.apart m n r' t' r t lt hm hn same))
        · rw [h.apart n m r t r' t' lt hn hm same.symm] at once
          cases once
      · exact .inl (List.mem_filter.mpr ⟨there, decide_eq_true same⟩)
    · exact .inr fallen
  owns m once r' t' hm e he := h.owns m once r' t' (out_of_set hm) e (List.mem_of_mem_filter he)
  apart m k r₁ t₁ r₂ t₂ lt hm hk := h.apart m k r₁ t₁ r₂ t₂ lt (out_of_set hm) (out_of_set hk)

theorem Recorded.pruning (h : Recorded d history) :
    Recorded ⟨pruned cfg d.world, d.handed⟩ (.pruned (cutoff cfg d.world) :: history) where
  free := h.free
  numbers := h.numbers
  given := h.given
  present n r t hn := by
    rcases h.present n r t hn with there | fallen
    · by_cases early : t < cutoff cfg d.world
      · exact .inr (by simp [fallenOn, h.given n r t hn, early])
      · exact .inl (List.mem_filter.mpr ⟨there, decide_eq_true early⟩)
    · exact .inr (by simp [fallenOn, fallen])
  owns n once r t hn e he := h.owns n once r t hn e (List.mem_of_mem_filter he)
  apart := h.apart

theorem Recorded.call (h : Recorded d history) {c : LimiterCall} {d' : Desk} {as : List Answer}
    (hd : d.call cfg c = some (d', as))
    (once : ∀ n, c = .release n → givenAgain n history = false) :
    Recorded d' (d.events cfg c d' ++ history) := by
  have change := Desk.change h.free hd
  generalize d.events cfg c d' = events at change ⊢
  cases change with
  | same log locks outs more => exact h.same log locks outs more
  | granted => exact h.granting _ _
  | released hn => exact h.releasing hn (once _ rfl)
  | pruned => exact h.pruning

/-- Where no reservation is released whose id has been given again, no release finds another
reservation's row. -/
theorem Recorded.ownReleases : ∀ {cs : List LimiterCall} {d : Desk} {history : List Event},
    Recorded d history → ReleasesInTime cfg cs d history → OwnReleases cfg cs d
  | [], _, _, _, _ => trivial
  | _ :: _, _, _, h, inTime =>
    ⟨fun n hc => h.owns n (inTime.1 n hc), fun d' as hd =>
      (h.call hd inTime.1).ownReleases (inTime.2 d' as hd)⟩

theorem Recorded.init {w : World} (free : ∀ l, w.locks l = none) : Recorded ⟨w, []⟩ [] :=
  ⟨free, fun _ _ => rfl, fun n r t hn => (by simp [Desk.out] at hn),
    fun n r t hn => (by simp [Desk.out] at hn), fun n _ r t hn => (by simp [Desk.out] at hn),
    fun n m r t r' t' _ hn => (by simp [Desk.out] at hn)⟩

/-- What has fallen on a row was a `prune`. -/
theorem exists_pruned_of_fallenOn {n : ℕ} {history : List Event}
    (h : fallenOn n history = true) : ∃ cutoff, .pruned cutoff ∈ history := by
  induction history with
  | nil => cases h
  | cons x history ih =>
    cases x with
    | granted m id t =>
      obtain ⟨cutoff, earlier⟩ := ih h
      exact ⟨cutoff, List.mem_cons_of_mem _ earlier⟩
    | pruned cutoff => exact ⟨cutoff, List.mem_cons_self⟩

/-- Where nothing is pruned no id is given again. -/
theorem releasesInTime_of_unpruned : ∀ {cs : List LimiterCall} {d : Desk} {history : List Event},
    LimiterCall.prune ∉ cs → (∀ cutoff, .pruned cutoff ∉ history) → ReleasesInTime cfg cs d history
  | [], _, _, _, _ => trivial
  | c :: cs, d, history, never, unpruned => by
    have early : ∀ n, givenAgain n history = false := fun n => by
      by_contra given
      obtain ⟨cutoff, pruned⟩ :=
        exists_pruned_of_fallenOn (fallenOn_of_givenAgain (by simpa using given))
      exact unpruned cutoff pruned
    refine ⟨fun n _ => early n, fun d' as _ => releasesInTime_of_unpruned
      (fun hp => never (List.mem_cons_of_mem _ hp)) fun cut hcut => ?_⟩
    rcases List.mem_append.mp hcut with hcut | hcut
    · cases c with
      | prune => exact never List.mem_cons_self
      | tryReserve p =>
        simp only [Desk.events] at hcut
        split at hcut
        · simp at hcut
        · cases hcut
      | _ => cases hcut
    · exact unpruned cut hcut

variable (cfg) in
/-- **Pruning is invisible to routing, as long as no reservation is released whose row a prune has
fallen on and whose id has been given again.** In every run of calls from any table, with the clock
going on, in which none is: without the calls of `prune` all answers are the same, and no release
finds another reservation's row. Where nothing is pruned this is so in every run. -/
theorem pruning_invisible (free : ∀ l, w.locks l = none)
    (ids : (w.db.sendLog.map SendLogEntry.id).Nodup) (cs : List LimiterCall) :
    OwnReleases cfg (cs.filter fun c => c ≠ .prune) ⟨w, []⟩ ∧
      (ReleasesInTime cfg cs ⟨w, []⟩ [] → OwnReleases cfg cs ⟨w, []⟩ ∧
        ∃ d e as, Desk.run cfg cs ⟨w, []⟩ = some (d, as) ∧
          Desk.run cfg (cs.filter fun c => c ≠ .prune) ⟨w, []⟩ = some (e, as)) := by
  have recorded : Recorded ⟨w, []⟩ [] := Recorded.init free
  refine ⟨recorded.ownReleases (releasesInTime_of_unpruned (by simp) (by simp)), fun inTime => ?_⟩
  have own := recorded.ownReleases inTime
  obtain ⟨d, e, as, -, hd, he, -⟩ := (Alike.init free ids).run own
  exact ⟨own, d, e, as, hd, he⟩

namespace Example

open SmtpSwitch.Example (metered)

/-- `ReleasesInTime`, computed along the run. -/
def inTimeAlong (cfg : Settings) : List LimiterCall → Desk → List Event → Bool
  | [], _, _ => true
  | c :: cs, d, history =>
    (match c with
      | .release n => !givenAgain n history
      | _ => true) &&
    match d.call cfg c with
    | some (d', _) => inTimeAlong cfg cs d' (d.events cfg c d' ++ history)
    | none => true

theorem releasesInTime_of_along : ∀ {cs : List LimiterCall} {d : Desk} {history : List Event},
    inTimeAlong metered cs d history = true → ReleasesInTime metered cs d history
  | [], _, _, _ => trivial
  | c :: cs, d, history, h => by
    simp only [inTimeAlong, Bool.and_eq_true] at h
    refine ⟨fun n hc => ?_, fun d' as hd => ?_⟩
    · subst hc
      simpa using h.1
    · have rest := h.2
      rw [hd] at rest
      exact releasesInTime_of_along rest

/-- What a call of `try_reserve` was told. -/
def isGrant : Answer → Bool
  | .reserved r => r.isSome
  | _ => false

/-- A reservation is committed, its row pruned and its id given again; the next reservation is
released. -/
def inTime : List LimiterCall :=
  [.tryReserve "a", .wait 10, .commit 0, .wait 200, .prune, .tryReserve "a", .release 1,
    .tryReserve "a"]

/-- `prune` has deleted a row, and all answers are as without it. -/
theorem pruning_invisible_inTime : ∃ d e as,
    Desk.run metered inTime ⟨{ clock := 0 }, []⟩ = some (d, as) ∧
    Desk.run metered (inTime.filter fun c => c ≠ .prune) ⟨{ clock := 0 }, []⟩ = some (e, as) ∧
    d.world.db.sendLog = [⟨1, "a", 210⟩] ∧ e.world.db.sendLog = [⟨1, "a", 0⟩, ⟨2, "a", 210⟩] := by
  obtain ⟨-, d, e, as, hd, he⟩ := (pruning_invisible metered (w := { clock := 0 }) (fun _ => rfl)
    List.nodup_nil inTime).2 (releasesInTime_of_along (by decide +kernel))
  have left : (Desk.run metered inTime ⟨{ clock := 0 }, []⟩).map
      (fun x => x.1.world.db.sendLog) = some [⟨1, "a", 210⟩] := by decide +kernel
  have right : (Desk.run metered (inTime.filter fun c => c ≠ .prune) ⟨{ clock := 0 }, []⟩).map
      (fun x => x.1.world.db.sendLog) = some [⟨1, "a", 0⟩, ⟨2, "a", 210⟩] := by decide +kernel
  rw [hd] at left
  rw [he] at right
  exact ⟨d, e, as, hd, he, Option.some.inj left, Option.some.inj right⟩

/-- A reservation is out for longer than the windows; its row is pruned, and its id given to the
next one, whose row its release deletes. -/
def outForLong : List LimiterCall :=
  [.tryReserve "a", .wait 200, .prune, .tryReserve "a", .release 0, .tryReserve "a",
    .tryReserve "a"]

/-- With `prune` the last call is granted a reservation, the third in a minute of two; without it
is refused. -/
theorem pruning_visible_outForLong : ∃ d e as as', Desk.run metered outForLong ⟨{ clock := 0 },
    []⟩ = some (d, as) ∧
    Desk.run metered (outForLong.filter fun c => c ≠ .prune) ⟨{ clock := 0 }, []⟩ = some (e, as') ∧
      as ≠ as' := by
  obtain ⟨⟨d, as⟩, hd, granted⟩ : ∃ x, Desk.run metered outForLong ⟨{ clock := 0 }, []⟩ = some x ∧
      x.2.map isGrant = [true, true, true, true] := Option.map_eq_some_iff.mp (by decide +kernel)
  obtain ⟨⟨e, as'⟩, he, refused⟩ : ∃ x, Desk.run metered (outForLong.filter fun c => c ≠ .prune)
      ⟨{ clock := 0 }, []⟩ = some x ∧ x.2.map isGrant = [true, true, true, false] :=
    Option.map_eq_some_iff.mp (by decide +kernel)
  refine ⟨d, e, as, as', hd, he, fun same => ?_⟩
  subst same
  rw [show as.map isGrant = _ from granted] at refused
  cases refused

end Example

end SmtpSwitch.RateLimiter
