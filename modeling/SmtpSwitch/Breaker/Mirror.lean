import SmtpSwitch.Breaker.Restart

/-!
# Memory and database

The breaker reads its state from memory only, and writes every change through to the
database before it gives the lock back (`saving`). So as long as no write fails, the
rows are a copy of the memory wherever no change is being made: whenever the process
dies, a provider whose lock is free is found by the next process as it was left
(`restart_finds_state`). That a claimed probe is part of what is found is what may strand a provider
(`restart_strands_oneProbe`).
-/

namespace SmtpSwitch

open Coop Coop.Prog

/-- What a task has changed and not yet saved. -/
inductive Saving where
  | saved
  | dirty (p : String)
  /-- It could not be saved. -/
  | torn

/-- The next phase. -/
def Saving.next : Saving → (o : Op) → o.Ans → Saving
  | _, .setState p _, _ => .dirty p
  | .dirty _, .commit _ _, .ok _ => .saved
  | .dirty _, .commit _ _, .error _ | .dirty _, .select (.persist _) _, .error _ => .torn
  | .torn, .unlock (.breaker _), _ => .saved
  | φ, _, _ => φ

/-- The lock is given back when the change is saved, or cannot be; and nothing but a change is
saved. -/
def Saving.good : Saving → (o : Op) → o.Ans → Prop
  | φ, .unlock (.breaker _), _ => ∀ p, φ ≠ .dirty p
  | .dirty p, .commit _ ss, _ => ∃ row, ss = [.putProviderState p row]
  | _, .commit _ ss, _ => ∀ s ∈ ss, s.table ≠ .breaker
  | _, _, _ => True

/-- The protocol of writing through. -/
def saving : Protocol Op Op.Ans Job Saving where
  idle := .saved
  enter _ := .saved
  next := Saving.next
  good := Saving.good

/-! ### The calls -/

/-- An operation that saves nothing and leaves nothing to be saved. -/
def Op.harmless (o : Op) : Prop := ∀ a, Saving.good .saved o a ∧ Saving.next .saved o a = .saved

theorem commit_harmless {site : Site} {ss : List Stmt} {t : Table} (ht : t ≠ .breaker)
    (h : ∀ s ∈ ss, s.table = t) :
    (Op.commit site ss).harmless := fun _ => ⟨fun s hs => h s hs ▸ ht, rfl⟩

theorem select_harmless {site : Site} {q : Query} : (Op.select site q).harmless :=
  fun _ => ⟨trivial, by cases site <;> rfl⟩

theorem harmless_of_limiter {o : Op} (h : o.ofLimiter) : o.harmless := by
  cases o with
  | unlock l => cases l <;> first | exact fun _ => ⟨trivial, rfl⟩ | exact h.elim
  | select => exact select_harmless
  | commit site ss => exact commit_harmless (by decide) h.2
  | _ => first | exact fun _ => ⟨trivial, rfl⟩ | exact h.elim

theorem harmless_of_others {o : Op} (h : o.ofOthers) : o.harmless := by
  cases o with
  | select => exact select_harmless
  | commit site ss => exact commit_harmless (by decide) h.2
  | _ => first | exact fun _ => ⟨trivial, rfl⟩ | exact h.elim

theorem harmless_of_record {o : Op} (h : o.ofRecord) : o.harmless := by
  cases o with
  | commit site ss => exact commit_harmless (by decide) h.2
  | _ => first | exact fun _ => ⟨trivial, rfl⟩ | exact h.elim

theorem whole_of_harmless {α : Type} {S : Op → Prop} (hS : ∀ o, S o → o.harmless) {t : Act α}
    (h : t.Uses S) :
    t.Whole saving := (h.mono hS).whole

/-- A change is saved, or it is known that it could not be. -/
theorem saves_persist (by_ : BreakerOp) (p : String) : (CircuitBreaker.persist by_ p).Follows saving
    (fun r φ => match r with
      | .ok _ => φ = .saved
      | .error _ => φ = .torn) (.dirty p) := by
  refine follows_query (fun row => ⟨trivial, ?_⟩) fun e => ⟨trivial, rfl⟩
  refine follows_perform fun st => ⟨trivial, ?_⟩
  have mine : ∀ a : Except Exc ℕ,
      saving.good (.dirty p) (.commit (.persist by_) [.putProviderState p st]) a :=
    fun _ => ⟨st, rfl⟩
  exact follows_commit (fun id => ⟨mine _, rfl⟩) fun e => ⟨mine _, rfl⟩

theorem saves_change (by_ : BreakerOp) (p : String) (f : ProviderState → Time → ProviderState) :
    (withLock (.breaker p) do
      let (st, now) ← perform (.stateNow p)
      perform (.setState p (f st now))
      CircuitBreaker.persist by_ p).Whole saving := by
  refine follows_withLock trivial (follows_perform fun x => ⟨trivial, ?_⟩)
  refine follows_perform fun _ => ⟨trivial, (saves_persist by_ p).mono ?_⟩
  intro r φ hr
  cases r with
  | ok a =>
    obtain rfl := hr
    exact ⟨fun _ h => (by cases h), rfl⟩
  | error e =>
    obtain rfl := hr
    exact ⟨fun _ h => (by cases h), rfl⟩

variable {cfg : Settings}

theorem saves_beginProbe (p : String) :
    (CircuitBreaker.beginProbe cfg.circuitBreaker p).Whole saving := by
  have clean : ∀ {φ : Saving}, φ = .saved ∨ φ = .torn →
      saving.good φ (.unlock (.breaker p)) () ∧
        saving.next φ (.unlock (.breaker p)) () = .saved := by
    rintro φ (rfl | rfl)
    · exact ⟨fun _ h => (by cases h), rfl⟩
    · exact ⟨fun _ h => (by cases h), rfl⟩
  refine follows_withLock trivial (follows_perform fun x => ⟨trivial, ?_⟩)
  obtain ⟨st, now⟩ := x
  simp only
  split
  · exact clean (.inl rfl)
  · exact clean (.inl rfl)
  · split
    · exact clean (.inl rfl)
    · refine follows_perform fun _ => ⟨trivial, Follows.bind (saves_persist .beginProbe p) ?_ ?_⟩
      · rintro _ φ rfl
        exact clean (.inl rfl)
      · rintro e φ rfl
        exact clean (.inr rfl)

theorem saving_callsWhole : CallsWhole cfg saving where
  others _ ho := harmless_of_others ho
  recordAttempt _ _ _ _ _ :=
    whole_of_harmless (fun _ => harmless_of_record) (tame_recordAttempt _ _ _ _ _).uses
  relay _ _ _ _ _ _ := ⟨trivial, whole_ofExcept _⟩
  requeueNow _ := Whole.handle
    (follows_flush ⟨trivial, follows_commit
      (fun _ => ⟨fun s hs => (by cases List.mem_singleton.mp hs; exact Table.noConfusion), rfl⟩)
      fun _ => ⟨fun s hs => (by cases List.mem_singleton.mp hs; exact Table.noConfusion), rfl⟩⟩
      fun _ => ⟨trivial, rfl⟩) fun e => follows_swallow e fun _ => rfl
  tryReserve p := by
    cases hc : cfg.provider p with
    | none =>
      unfold RateLimiter.tryReserve
      rw [hc]
      exact rfl
    | some c =>
      exact whole_of_harmless (fun _ => harmless_of_limiter)
        (RateLimiter.tame_tryReserve cfg hc).uses
  commit r := whole_of_harmless (fun _ => harmless_of_limiter)
    (RateLimiter.tame_commitReservation r).uses
  release by_ r := whole_of_harmless (fun _ => harmless_of_limiter)
    (RateLimiter.tame_release by_ r).uses
  prune := whole_of_harmless (fun _ => harmless_of_limiter) (RateLimiter.tame_prune cfg).uses
  load := follows_query (fun _ => ⟨trivial, follows_perform fun _ => ⟨trivial, follows_commit
    (fun _ => ⟨fun _ hs => (by cases hs), rfl⟩) fun _ => ⟨fun _ hs => (by cases hs), rfl⟩⟩⟩)
    fun _ => ⟨trivial, rfl⟩
  isAvailable _ := follows_perform fun _ => ⟨trivial, rfl⟩
  beginProbe := saves_beginProbe
  recordSuccess p := follows_perform fun _ => ⟨trivial, saves_change .recordSuccess p _⟩
  recordFailure p := follows_perform fun _ => ⟨trivial, saves_change .recordFailure p _⟩

/-! ### The invariant -/

/-- The protocols of the breaker's lock and of writing through, side by side. -/
def mirroring (cfg : Settings) : Protocol Op Op.Ans Job (Hold × Saving) :=
  (breakerProtocol cfg).prod saving

theorem mirroring_keeps (jobs : Job → Bool) : (system cfg jobs).Keeps (mirroring cfg) :=
  (breaker_callsWhole.keeps jobs fun _ => rfl).prod (saving_callsWhole.keeps jobs fun _ => rfl)

/-- The process lives on, nothing is loaded, and no change fails to be saved. -/
def Undisturbed : Entry Op Op.Ans Job ℚ → Bool
  | .crash | .did _ (.loadStates _) _ | .did _ (.select (.persist _) _) (.error _)
  | .did _ (.commit _ [.putProviderState _ _]) (.error _) => false
  | _ => true

/-- The row of a provider is its state in memory. -/
def Copied (w : World) (p : String) : Prop := (w.db.providerState p).getD {} = w.state p

/-- Where nothing is left to be saved the rows are copies. -/
structure Mirrored (cfg : Settings) (x : Moment) : Prop where
  held : LocksHeld cfg x
  locked : ∀ i p, saving.phase x.trace i = .dirty p →
    ((breakerProtocol cfg).phase x.trace i).lock = some p
  copied : ∀ p, Copied x.shared p ∨ ∃ i, saving.phase x.trace i = .dirty p

/-- A lock is kept until it is given back. -/
theorem Hold.lock_next {φ : Hold} {o : Op} {a : o.Ans} {p : String} (hp : φ.lock = some p)
    (hg : φ.good cfg o a) (hu : ∀ q, o ≠ .unlock (.breaker q)) (hl : ∀ rows, o ≠ .loadStates rows) :
    (φ.next o a).lock = some p := by
  fun_cases Hold.next φ o a
  case case1 =>
    rw [show φ = .free from hg] at hp
    cases hp
  case case2 q _ => exact absurd rfl (hu q)
  case case3 =>
    rw [show φ = .free from hg] at hp
    cases hp
  case case4 => exact absurd rfl (hl _)
  all_goals exact hp

/-- What is to be saved has just been changed, or was to be saved before. -/
theorem Saving.of_next_dirty {φ : Saving} {o : Op} {a : o.Ans} {p : String}
    (h : φ.next o a = .dirty p) :
    (∃ st, o = .setState p st) ∨ φ = .dirty p := by
  revert h
  fun_cases Saving.next φ o a
  all_goals intro h
  case case1 =>
    cases h
    exact .inl ⟨_, rfl⟩
  case case6 => exact .inr h
  all_goals cases h

/-- What is to be saved is to be saved until it is. -/
theorem Saving.next_dirty {p : String} {i : ℕ} {o : Op} {a : o.Ans}
    (hs : Saving.good (.dirty p) o a)
    (ok : Undisturbed (.did i o a) = true) (hdb : o.part ≠ some .db) (hst : o.part ≠ some .states) :
    Saving.next (.dirty p) o a = .dirty p := by
  generalize hφ : Saving.dirty p = φ at hs ⊢
  fun_cases Saving.next φ o a
  case case1 => exact absurd rfl hst
  case case2 => exact absurd rfl hdb
  case case3 => exact absurd rfl hdb
  case case4 => cases ok
  case case5 => cases hφ
  case case6 => rfl

/-- A session without states leaves the rows. -/
theorem Db.providerState_execAll_beside : ∀ {ss : List Stmt} {db db' : Db},
    (∀ s ∈ ss, s.table ≠ .breaker) →
    db.execAll ss = some db' → db'.providerState = db.providerState
  | [], _, _, _, h => by cases h; rfl
  | s :: ss, db, db', table, h => by
    simp only [Db.execAll, Option.bind_eq_some_iff] at h
    obtain ⟨db₁, h₁, h₂⟩ := h
    have rest := providerState_execAll_beside (fun t ht => table t (List.mem_cons_of_mem _ ht)) h₂
    exact rest.trans ((Stmt.exec_frame h₁).breaker (table s List.mem_cons_self))

namespace Mirrored

variable {w w' : World} {tr : List (Entry Op Op.Ans Job ℚ)} {i : ℕ} {o : Op}
  {a : o.Ans} {c : Choice}

theorem locked_did (h : Mirrored cfg ⟨w, tr⟩) (hh : ((breakerProtocol cfg).phase tr i).good cfg o a)
    (hs : (saving.phase tr i).good o a) (ok : Undisturbed (.did i o a) = true) {p : String}
    (hp : (saving.phase tr i).next o a = .dirty p) :
    (((breakerProtocol cfg).phase tr i).next o a).lock = some p := by
  rcases Saving.of_next_dirty hp with ⟨st, rfl⟩ | before
  · obtain ⟨st₀, now, hφ, -⟩ := hh
    rw [hφ]
    cases hp
    rfl
  · refine Hold.lock_next (h.locked i p before) hh (fun q hq => ?_) fun rows hr => ?_
    · subst hq
      exact hs p before
    · subst hr
      cases ok

/-- What the others have to save is theirs to save still. -/
theorem dirty_did {p : String} (h : ∃ k, saving.phase tr k = .dirty p)
    (mine : saving.phase tr i = .dirty p → (saving.phase tr i).next o a = .dirty p) :
    ∃ k, saving.phase (.did i o a :: tr) k = .dirty p := by
  obtain ⟨k, hk⟩ := h
  refine ⟨k, ?_⟩
  rw [Protocol.phase_did]
  by_cases hi : k = i
  · subst hi
    rw [Function.update_self]
    exact mine hk
  · rwa [Function.update_of_ne hi]

/-- A change of a state is to be saved; no other is lost sight of. -/
theorem setState_did (h : Mirrored cfg ⟨w, tr⟩) {q : String} {st : ProviderState} {a : Unit}
    (he : exec cfg i (.setState q st) c w = some (a, w'))
    (hh : ((breakerProtocol cfg).phase tr i).good cfg (.setState q st) a) (p : String) :
    Copied w' p ∨ ∃ k, saving.phase (.did i (.setState q st) a :: tr) k = .dirty p := by
  obtain rfl := exec_setState he
  by_cases hp : p = q
  · subst hp
    refine .inr ⟨i, ?_⟩
    rw [Protocol.phase_did, Function.update_self]
    rfl
  · -- it had nothing else to save: it has the lock of `q`, not that of `p`
    rcases h.copied p with copied | dirty
    · left
      show (w.db.providerState p).getD {} = _
      rw [World.state_update, if_neg hp]
      exact copied
    · refine .inr (dirty_did dirty fun mine => ?_)
      obtain ⟨st₀, now, looked, -⟩ := hh
      have lock := h.locked i p mine
      rw [looked] at lock
      cases lock
      exact absurd rfl hp

/-- A session writes the state that is to be saved, or no state. -/
theorem commit_did (h : Mirrored cfg ⟨w, tr⟩) {site : Site} {ss : List Stmt} {a : Except Exc ℕ}
    (he : exec cfg i (.commit site ss) c w = some (a, w'))
    (hh : ((breakerProtocol cfg).phase tr i).good cfg (.commit site ss) a)
    (hs : (saving.phase tr i).good (.commit site ss) a)
    (ok : Undisturbed (.did i (.commit site ss) a) = true) (p : String) :
    Copied w' p ∨ ∃ k, saving.phase (.did i (.commit site ss) a :: tr) k = .dirty p := by
  cases hφ : saving.phase tr i with
  | dirty q =>
    rw [hφ] at hs
    obtain ⟨row, rfl⟩ := hs
    obtain ⟨probe, wrote⟩ := hh q row List.mem_cons_self
    have wrote : (breakerProtocol cfg).phase tr i = .wrote q probe (some row) := wrote
    -- nobody else could change the state since it was read
    have read : row = w.state q := by
      have held := h.held i
      rw [wrote] at held
      exact held.2.1 row rfl
    obtain ⟨db, hdb, -, rfl⟩ | ⟨⟨e, rfl⟩, -⟩ := exec_commit he
    · cases hdb
      by_cases hp : p = q
      · subst hp
        left
        show (Function.update w.db.providerState p (some row) p).getD {} = w.state p
        rw [Function.update_self]
        exact read
      · rcases h.copied p with copied | dirty
        · left
          show (Function.update w.db.providerState q (some row) p).getD {} = w.state p
          rw [Function.update_of_ne hp]
          exact copied
        · refine .inr (dirty_did dirty fun mine => ?_)
          rw [hφ] at mine
          cases mine
          exact absurd rfl hp
    · cases ok
  | _ =>
    have beside : ∀ s ∈ ss, s.table ≠ .breaker := by
      rw [hφ] at hs
      exact hs
    rcases h.copied p with copied | dirty
    · left
      obtain ⟨db, hdb, -, rfl⟩ | ⟨-, rfl⟩ := exec_commit he
      · show (db.providerState p).getD {} = w.state p
        rw [Db.providerState_execAll_beside beside hdb]
        exact copied
      · exact copied
    · refine .inr (dirty_did dirty fun mine => ?_)
      rw [hφ] at mine
      cases mine

theorem copied_did (h : Mirrored cfg ⟨w, tr⟩) (he : exec cfg i o c w = some (a, w'))
    (hh : ((breakerProtocol cfg).phase tr i).good cfg o a) (hs : (saving.phase tr i).good o a)
    (ok : Undisturbed (.did i o a) = true) (p : String) :
    Copied w' p ∨ ∃ k, saving.phase (.did i o a :: tr) k = .dirty p := by
  by_cases hdb : o.part = some .db
  · cases o with
    | commit site ss => exact h.commit_did he hh hs ok p
    | _ => simp [Op.part] at hdb
  by_cases hst : o.part = some .states
  · cases o with
    | setState q st => exact h.setState_did he hh p
    | loadStates rows => cases ok
    | _ => simp [Op.part] at hst
  have frame := exec_frame cfg he
  rcases h.copied p with copied | dirty
  · left
    have same : w'.state p = w.state p := congrArg (fun st => (st p).getD {}) (frame.states hst)
    rw [Copied, frame.db hdb, same]
    exact copied
  · refine .inr (dirty_did dirty fun mine => ?_)
    rw [mine] at hs ⊢
    exact Saving.next_dirty hs ok hdb hst

/-- Every undisturbed move keeps it. -/
theorem step {jobs : Job → Bool} {x x' : Moment} (h : Mirrored cfg x)
    (hs : (system cfg jobs).Step (mirroring cfg) x x') (hok : Machine.Each Undisturbed x x') :
    Mirrored cfg x' := by
  have held : LocksHeld cfg x' := h.held.step hs.fst fun i rows a ht => by
    have := hok _ ht
    cases this
  cases hs with
  | start ha hi =>
    rw [mirroring, Protocol.phase_prod] at hi
    refine ⟨held, fun i p => ?_, fun p => ?_⟩
    · rw [Protocol.phase_start_idle rfl (congrArg Prod.snd hi),
        Protocol.phase_start_idle rfl (congrArg Prod.fst hi)]
      exact h.locked i p
    · rw [Protocol.phase_start_idle rfl (congrArg Prod.snd hi)]
      exact h.copied p
  | env => exact ⟨held, h.locked, h.copied⟩
  | crash =>
    have := hok _ rfl
    cases this
  | @did w w' tr i o c a he hg =>
    rw [mirroring, Protocol.phase_prod] at hg
    have ok := hok _ rfl
    refine ⟨held, fun k p => ?_, h.copied_did he hg.1 hg.2 ok⟩
    rw [Protocol.phase_did, Protocol.phase_did]
    by_cases hk : k = i
    · subst hk
      rw [Function.update_self, Function.update_self]
      exact h.locked_did hg.1 hg.2 ok
    · rw [Function.update_of_ne hk, Function.update_of_ne hk]
      exact h.locked k p

end Mirrored

/-- **A new process finds every provider as the old one left it.** In every run of an undisturbed
process that starts with its rows loaded, whatever is running: if the process dies there and a new
one loads the rows, every provider whose lock is free has the state it had. -/
theorem restart_finds_state {jobs : Job → Bool} {w : World} (rows : ∀ p, Copied w p)
    {s : Pool Op Op.Ans Exc World Job ℚ}
    (h : (system cfg jobs).Reachable (Machine.Each Undisturbed) (Machine.boot w) s) :
    ∃ loaded, CircuitBreaker.load.alone (CircuitBreaker.unfailing cfg) s.shared.reboot =
        some (.ok (), loaded) ∧
      ∀ p, s.shared.locks (.breaker p) = none → loaded.state p = s.shared.state p := by
  have init : Mirrored cfg ⟨w, []⟩ :=
    ⟨fun _ => trivial, fun i p h => (by cases h), fun p => .inl (rows p)⟩
  have inv := (Machine.invariant (mirroring_keeps jobs) (Mirrored cfg) init (fun h hs ok =>
      h.step hs ok) h).1
  refine ⟨_, CircuitBreaker.alone_load s.shared, fun p free => ?_⟩
  rcases inv.copied p with copied | ⟨i, dirty⟩
  · exact copied
  · have locked := (inv.held i).lock (inv.locked i p dirty)
    rw [free] at locked
    cases locked

namespace Example

/-- The breaker has opened, and all that was begun is done. -/
theorem restart_finds_state_opened : ∃ s loaded,
    (system oneStrike Job.ofDispatch).runFrom (Machine.boot fourDue) opened = some s ∧
      CircuitBreaker.load.alone (CircuitBreaker.unfailing oneStrike) s.shared.reboot =
        some (.ok (), loaded) ∧
      (∀ p, s.shared.locks (.breaker p) = none → loaded.state p = s.shared.state p) ∧
      (loaded.state "p").healthy = false := by
  obtain ⟨s, hs, ha⟩ : ∃ s, (system oneStrike Job.ofDispatch).runFrom (Machine.boot fourDue)
      opened = some s ∧ (s.trace.all Undisturbed, s.shared.locks (.breaker "p"),
        (s.shared.state "p").healthy) =
        (true, none, false) :=
    Option.map_eq_some_iff.mp (by decide +kernel)
  simp only [Prod.mk.injEq] at ha
  obtain ⟨calm, free, unhealthy⟩ := ha
  obtain ⟨loaded, hl, same⟩ := restart_finds_state (w := fourDue) (fun _ => rfl)
    (Machine.Reachable.refl.runFrom_each hs calm)
  exact ⟨s, loaded, hs, hl, same, by rw [same _ free]; exact unhealthy⟩

end Example

end SmtpSwitch
