import SmtpSwitch.World

/-!
# Coroutines of the process

The vocabulary the code is written in: single operations, `async with lock`,
`async with session_scope()`. A session's body returns its value and the
statements it has issued; a session left by an exception issues none.

Each construct comes with the lemma that keeps tame code tame (`Coop.Prog.Tame`):
code built from these constructs raises only because a database statement did.
-/

namespace SmtpSwitch

open Coop Coop.Prog

/-- A coroutine of the process. -/
abbrev Act (α : Type) := Prog Op Op.Ans Exc α

/-- Operations and their answers. -/
abbrev Events := List (Σ o : Op, o.Ans)

instance (o : Op) : Nonempty o.Ans := by
  cases o <;> first
    | exact ⟨()⟩
    | exact ⟨.error .other⟩
    | exact ⟨(0 : ℚ)⟩
    | exact ⟨(0 : ℕ)⟩
    | exact ⟨({} : ProviderState)⟩
    | exact ⟨(({} : ProviderState), (0 : ℚ))⟩
    | exact ⟨fun _ => none⟩
    | exact ⟨.raisedOther .other⟩
    | exact ⟨""⟩
    | exact ⟨.absent⟩

/-- One operation. -/
def perform (o : Op) : Act o.Ans := .op o .ret

/-- One operation whose answer may be an exception. -/
def query (site : Site) (q : Query) : Act q.Ans := .op (.select site q) Prog.ofExcept

/-- `await session.flush()`. -/
def flush (site : Site) : Act Unit := .op (.flush site) Prog.ofExcept

/-- `await session.commit()`, the end of a `session_scope()` whose body has issued `ss`. It returns
the id of the row inserted first. -/
def commit (site : Site) (ss : List Stmt) : Act ℕ := .op (.commit site ss) Prog.ofExcept

/-- `async with lock: body`. -/
def withLock {α : Type} (l : Lock) (body : Act α) : Act α :=
  (perform (.acquire l)).bind fun _ => body.finally_ (perform (.unlock l))

/-- The end of an `except Exception` that only logs: a cancellation is no `Exception` and goes on.
-/
def swallow (e : Exc) : Act Unit := if e = .cancelledError then .raise e else .ret ()

/-! ### The operations of a component -/

/-- The limiter's operations. -/
def Op.ofLimiter : Op → Prop
  | .acquire (.limiter _) | .unlock (.limiter _) | .utcnow | .inflight _ | .incInflight _
  | .decInflight _ | .select _ (.countSendLog _ _) | .select _ (.quota _)
  | .call (.granted _) | .call (.commit _) | .call (.release _) => True
  | .flush site => site ≠ .requeueNow
  | .commit site ss => site ≠ .requeueNow ∧ ∀ s ∈ ss, s.table = .limits
  | _ => False

/-- The limiter's operations that only look something up, in the sessions of `site`. -/
def Op.ofLookup (site : Site) : Op → Prop
  | .utcnow | .inflight _ => True
  | .select s (.countSendLog _ _) | .select s (.quota _) => s = site
  | _ => False

theorem Op.ofLookup.ofLimiter {site : Site} {o : Op} (h : o.ofLookup site) : o.ofLimiter := by
  cases o with
  | select s q => cases q <;> trivial
  | utcnow => trivial
  | inflight p => trivial
  | _ => exact h.elim

/-- The limiter's operations on its locks and slots. -/
def Op.ofSlots : Op → Prop
  | .acquire (.limiter _) | .unlock (.limiter _) | .incInflight _ | .decInflight _
  | .call (.granted _) | .call (.commit _) | .call (.release _) => True
  | _ => False

theorem Op.ofSlots.ofLimiter {o : Op} (h : o.ofSlots) : o.ofLimiter := by
  cases o with
  | acquire l => cases l <;> exact h
  | unlock l => cases l <;> exact h
  | incInflight p => trivial
  | decInflight p => trivial
  | call c => cases c <;> exact h
  | _ => exact h.elim

/-- The breaker's operations. -/
def Op.ofBreaker : Op → Prop
  | .acquire (.breaker _) | .unlock (.breaker _) | .state _ | .stateNow _ | .setState _ _
  | .loadStates _ | .select _ (.providerState _) | .select _ .providerStates
  | .call (.recordSuccess _) | .call (.recordFailure _) => True
  | .commit site ss => site ≠ .requeueNow ∧ ∀ s ∈ ss, s.table = .breaker
  | _ => False

/-- The operations of `_persist`, called from `by_`. -/
def Op.ofPersist (by_ : BreakerOp) : Op → Prop
  | .state _ => True
  | .select site (.providerState _) => site = .persist by_
  | .commit site ss => site = .persist by_ ∧ ∀ s ∈ ss, s.table = .breaker
  | _ => False

theorem Op.ofPersist.ofBreaker {by_ : BreakerOp} {o : Op} (h : o.ofPersist by_) : o.ofBreaker := by
  cases o with
  | select s q => cases q <;> trivial
  | state p => trivial
  | commit site ss => exact ⟨by rw [h.1]; simp, h.2⟩
  | _ => exact h.elim

/-- The operations of `_record_attempt`. -/
def Op.ofRecord : Op → Prop
  | .utcnow => True
  | .commit site ss => site = .recordAttempt ∧ ∀ s ∈ ss, s.table = .messages
  | _ => False

/-- A session of the dispatcher's own, in which a failure means no more than that the cycle ends. -/
def Site.plain : Site → Bool
  | .requeueNow | .recordAttempt | .release _ | .persist _ => false
  | _ => true

/-- The operations of everything else, but for the relay and `_requeue_now`. -/
def Op.ofOthers : Op → Prop
  | .utcnow | .random | .overrides | .setOverrides _ | .queueGet | .queuePut _ | .waitWakeup
  | .clearWakeup | .notify | .spoolWrite _ | .spoolRead _ | .spoolDelete _ | .header _ _
  | .started => True
  | .select site (.message _) | .select site (.dueMessages _ _)
  | .select site (.expiredMessages _ _ _) | .select site .providerOverrides
  | .flush site => site.plain = true
  | .commit site ss => site.plain = true ∧ ∀ s ∈ ss, s.table = .messages
  | _ => False

/-- The operations of a routing decision. -/
def Op.ofRouter (o : Op) : Prop := o.ofLimiter ∨ o.ofBreaker ∨ o = .overrides

/-! ### Tameness -/

section Tame

variable {S : Op → Prop} {α : Type} {R : α → Prop}

theorem tame_perform {o : Op} (h : S o) (hf : ∀ a, o.fails a = false) :
    (perform o).Tame Op.fails S fun _ => True :=
  ⟨h, fun a => by rw [hf a]; trivial⟩

theorem calm_perform {o : Op} (h : S o) (hf : ∀ a, o.fails a = false) :
    (perform o).Calm Op.fails S := ⟨h, fun a => ⟨hf a, trivial⟩⟩

theorem tame_query {site : Site} {q : Query} (h : S (.select site q)) :
    (query site q).Tame Op.fails S fun _ => True := by
  refine ⟨h, fun a => ?_⟩
  cases a <;> trivial

theorem tame_flush {site : Site} (h : S (.flush site)) :
    (flush site).Tame Op.fails S fun _ => True := by
  refine ⟨h, fun a => ?_⟩
  cases a <;> trivial

theorem tame_commit {site : Site} {ss : List Stmt} (h : S (.commit site ss)) :
    (commit site ss).Tame Op.fails S fun _ => True := by
  refine ⟨h, fun a => ?_⟩
  cases a <;> trivial

theorem tame_withLock {l : Lock} {body : Act α} (ha : S (.acquire l)) (hu : S (.unlock l))
    (h : body.Tame Op.fails S R) : (withLock l body).Tame Op.fails S R :=
  (tame_perform ha fun _ => rfl).bind fun _ _ => h.finally_ (calm_perform hu fun _ => rfl)

end Tame

section Uses

variable {S : Op → Prop} {α : Type}

theorem uses_perform {o : Op} (h : S o) : (perform o).Uses S := ⟨h, fun _ => trivial⟩

theorem uses_query {site : Site} {q : Query} (h : S (.select site q)) : (query site q).Uses S :=
  (tame_query h).uses

theorem uses_flush {site : Site} (h : S (.flush site)) : (flush site).Uses S := (tame_flush h).uses

theorem uses_commit {site : Site} {ss : List Stmt} (h : S (.commit site ss)) :
    (commit site ss).Uses S := (tame_commit h).uses

theorem uses_swallow (e : Exc) : (swallow e).Uses S := by
  unfold swallow
  split <;> trivial

end Uses

/-! ### Following a protocol

One rule for each construct. A database statement has two ways to go on: with its answer, and out
with an exception. -/

section Follows

variable {Job Φ α β : Type} {P : Protocol Op Op.Ans Job Φ} {Q : Except Exc β → Φ → Prop} {φ : Φ}

theorem follows_perform {o : Op} {k : o.Ans → Act β}
    (h : ∀ a, P.good φ o a ∧ (k a).Follows P Q (P.next φ o a)) :
    (perform o >>= k).Follows P Q φ := h

theorem follows_query {site : Site} {q : Query} {k : q.Ans → Act β}
    (hok : ∀ a, P.good φ (.select site q) (.ok a) ∧
      (k a).Follows P Q (P.next φ (.select site q) (.ok a)))
    (herr : ∀ e, P.good φ (.select site q) (.error e) ∧
      Q (.error e) (P.next φ (.select site q) (.error e))) :
    (query site q >>= k).Follows P Q φ := by
  intro a
  cases a with
  | ok a => exact hok a
  | error e => exact herr e

theorem follows_flush {site : Site} {k : Unit → Act β}
    (hok : P.good φ (.flush site) (.ok ()) ∧
      (k ()).Follows P Q (P.next φ (.flush site) (.ok ())))
    (herr : ∀ e, P.good φ (.flush site) (.error e) ∧
      Q (.error e) (P.next φ (.flush site) (.error e))) :
    (flush site >>= k).Follows P Q φ := by
  intro a
  cases a with
  | ok a => exact hok
  | error e => exact herr e

theorem follows_commit {site : Site} {ss : List Stmt} {k : ℕ → Act β}
    (hok : ∀ id, P.good φ (.commit site ss) (.ok id) ∧
      (k id).Follows P Q (P.next φ (.commit site ss) (.ok id)))
    (herr : ∀ e, P.good φ (.commit site ss) (.error e) ∧
      Q (.error e) (P.next φ (.commit site ss) (.error e))) :
    (commit site ss >>= k).Follows P Q φ := by
  intro a
  cases a with
  | ok a => exact hok a
  | error e => exact herr e

/-- A body under a lock: what follows it happens after the lock is given back. -/
theorem follows_withLock {l : Lock} {body : Act β} (hl : P.good φ (.acquire l) ())
    (h : body.Follows P (fun r χ => P.good χ (.unlock l) () ∧ Q r (P.next χ (.unlock l) ()))
      (P.next φ (.acquire l) ())) :
    (withLock l body).Follows P Q φ := by
  refine fun _ => ⟨hl, ?_⟩
  exact Follows.finally_ (h.mono fun r χ hr _ => hr)

theorem follows_swallow {R : Except Exc Unit → Φ → Prop} (e : Exc) (h : ∀ r, R r φ) :
    (swallow e).Follows P R φ := by
  unfold swallow
  split <;> exact h _

end Follows

end SmtpSwitch
