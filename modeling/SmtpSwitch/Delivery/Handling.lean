import SmtpSwitch.Delivery.Upkeep

/-!
# Messages handed in, and messages deleted

The protocol of the two tasks that know a message by something other than its
row's id. `handle_DATA` has the envelope aiosmtpd has collected: what it spools is
the envelope's content, and what it inserts is the envelope's sender and
recipients, the session's account and the path of what it has spooled.
`delete_message` has read a row: it deletes that id, and removes the file that
row named. No other task spools, inserts a message or deletes a single one.
-/

namespace SmtpSwitch

open Coop Coop.Prog

/-- What of a row is never updated: whose message it is, the envelope, and where the content is. -/
structure Letter where
  account : Option String
  sender : String
  recipients : List String
  size : ℕ
  path : String
  deriving DecidableEq

/-- The letter of a row. -/
def Message.letter (m : Message) : Letter :=
  ⟨m.submittingAccount, m.fromAddr, m.rcptTo, m.size, m.spoolPath⟩

/-- The letter of an envelope spooled at `path`. -/
def Envelope.letter (session : Session) (envelope : Envelope) (path : String) : Letter :=
  ⟨session.authData, envelope.mailFrom.getD "", envelope.rcptTos, envelope.content.length, path⟩

@[simp] theorem letter_apply (v : MessageValues) (m : Message) :
  (v.apply m).letter = m.letter := rfl

/-- How far such a task has got. -/
inductive Handling where
  | idle
  /-- `handle_DATA` has not spooled the content yet. -/
  | received (session : Session) (envelope : Envelope)
  /-- `handle_DATA` has spooled the content here. -/
  | spooled (session : Session) (envelope : Envelope) (path : String)
  /-- `handle_DATA` could not store what it has spooled here. -/
  | unstored (path : String)
  /-- `delete_message`, before it reads the row. -/
  | deleting (id : ℕ)
  /-- `delete_message` has read a row, whose content is here. -/
  | found (id : ℕ) (path : String)
  /-- `delete_message` has deleted the row. -/
  | gone (path : String)

/-- The next of it. -/
def Handling.next : Handling → (o : Op) → o.Ans → Handling
  -- a header with raw non-ASCII bytes has no `strip`
  | .received _ _, .header _ _, .header => .idle
  | .received session envelope, .spoolWrite _, path => .spooled session envelope path
  | .spooled _ _ _, .flush _, .error .cancelledError => .idle
  | .spooled _ _ _, .commit _ _, .error .cancelledError => .idle
  | .spooled _ _ path, .flush _, .error _ => .unstored path
  | .spooled _ _ path, .commit _ _, .error _ => .unstored path
  | .spooled _ _ _, .commit _ _, .ok _ => .idle
  | .unstored _, .spoolDelete _, _ => .idle
  | .deleting id, .select _ (.message _), .ok (some row) => .found id row.spoolPath
  | .deleting _, .select _ _, _ => .idle
  | .found _ _, .flush _, .error _ => .idle
  | .found _ path, .commit _ _, .ok _ => .gone path
  | .found _ _, .commit _ _, .error _ => .idle
  | .gone _, .spoolDelete _, _ => .idle
  | φ, _, _ => φ

/-- Neither inserts a message nor deletes a single one. -/
def StoresNothing (ss : List Stmt) : Prop :=
  ∀ s ∈ ss, (∀ row, s ≠ .insertMessage row) ∧ ∀ id, s ≠ .deleteMessage id

/-- The sessions that may be committed. -/
def Handling.writes : Handling → List Stmt → Prop
  | .spooled session envelope path, ss =>
    ∃ row, ss = [.insertMessage row] ∧ row.letter = envelope.letter session path
  | .found id _, ss => ss = [.deleteMessage id]
  | .idle, ss => StoresNothing ss
  | _, _ => False

/-- The operations in order. -/
def Handling.good (φ : Handling) : (o : Op) → o.Ans → Prop
  | .spoolWrite content, _ => ∃ session envelope, φ = .received session envelope ∧
      content = envelope.content
  | .commit _ ss, _ => φ.writes ss
  | .select _ (.message id), _ => φ = .idle ∨ φ = .deleting id
  | .spoolDelete path, _ => φ = .idle ∨ φ = .unstored path ∨ φ = .gone path
  | _, _ => True

variable (cfg : Settings)

/-- What a job starts with; what is refused outright is not handled. -/
def Job.handling : Job → Handling
  | .handleData session envelope =>
    if envelope.rcptTos = [] ∨ (cfg.ingress.maxMessageBytes : ℕ) <
      envelope.content.length then .idle
    else .received session envelope
  | .deleteMessage id => .deleting id
  | _ => .idle

/-- The protocol. -/
def handling : Protocol Op Op.Ans Job Handling where
  idle := .idle
  enter := Job.handling cfg
  next := Handling.next
  good := Handling.good

theorem spooled_of_insert {φ : Handling} {row : Message} (h : φ.writes [.insertMessage row]) :
    ∃ session envelope, φ = .spooled session envelope row.spoolPath ∧
      row.letter = envelope.letter session row.spoolPath := by
  have nothing : ¬ StoresNothing [.insertMessage row] := fun h => (h _ List.mem_cons_self).1 row rfl
  cases φ with
  | spooled session envelope path =>
    obtain ⟨_, heq, letter⟩ := h
    cases heq
    obtain rfl : row.spoolPath = path := congrArg Letter.path letter
    exact ⟨session, envelope, rfl, letter⟩
  | idle => exact absurd h nothing
  | _ => cases h

/-! ### The other jobs -/

/-- Neither spools, nor inserts a message, nor deletes a single one. -/
def Op.storesNothing : Op → Prop
  | .spoolWrite _ => False
  | .commit _ ss => StoresNothing ss
  | _ => True

section Others

variable {cfg}

theorem storesNothing_of_table {site : Site} {ss : List Stmt} (h : ∀ s ∈ ss, s.table ≠ .messages) :
    (Op.commit site ss).storesNothing :=
  fun s hs => ⟨fun _ e => h s hs (by rw [e]; rfl), fun _ e => h s hs (by rw [e]; rfl)⟩

theorem storesNothing_of_router {o : Op} (h : o.ofRouter) : o.storesNothing := by
  cases o with
  | spoolWrite content => rcases h with h | h | h <;> cases h
  | commit site ss =>
    refine storesNothing_of_table fun s hs => ?_
    rcases h with h | h | h
    · rw [h.2 s hs]; decide
    · rw [h.2 s hs]; decide
    · cases h
  | _ => trivial

theorem storesNothing_update {site : Site} {wh : MessageWhere} {v : MessageValues} :
    (Op.commit site [.updateMessages wh v]).storesNothing := by
  simp [Op.storesNothing, StoresNothing]

theorem execute_storesNothing {site : Site} {wh : MessageWhere} {v : MessageValues} :
    (execute site [.updateMessages wh v]).Uses Op.storesNothing :=
  (uses_flush trivial).bind fun _ => (uses_commit storesNothing_update).bind fun _ => by trivial

theorem reschedule_storesNothing (id : ℕ) (delay : ℚ) (error : Option String) (bump : Bool) :
    (reschedule id delay error bump).Uses Op.storesNothing :=
  (uses_perform trivial).bind fun _ => execute_storesNothing

theorem handleNoSuccess_storesNothing (id : ℕ) (snapshot : MsgSnapshot) (cycle : Cycle) :
    (handleNoSuccess cfg id snapshot cycle).Uses Op.storesNothing := by
  unfold handleNoSuccess
  simp only
  split
  · exact reschedule_storesNothing _ _ _ _
  refine ((uses_perform trivial).bind fun _ => by trivial).bind fun _ => ?_
  split
  · exact execute_storesNothing
  split
  · exact execute_storesNothing
  refine (uses_perform trivial).bind fun _ => (uses_perform trivial).bind fun _ => ?_
  split
  · exact execute_storesNothing
  · exact reschedule_storesNothing _ _ _ _

theorem failover_storesNothing (id : ℕ) (snapshot : MsgSnapshot) (raw : Bytes) : ∀ n cycle,
    (failover cfg id snapshot raw n cycle).Uses Op.storesNothing
  | 0, cycle => handleNoSuccess_storesNothing _ _ _
  | n + 1, cycle => by
    have ih := fun cycle => failover_storesNothing id snapshot raw n cycle
    have router : ∀ {α : Type} {R : α → Prop} {t : Act α}, t.Tame Op.fails Op.ofRouter R →
        t.Uses Op.storesNothing :=
      fun h => h.uses.mono fun _ => storesNothing_of_router
    unfold failover
    refine (router (tame_select cfg _)).bind fun decision => ?_
    split
    · exact handleNoSuccess_storesNothing _ _ _
    refine (uses_perform trivial).bind fun _ => Uses.bind (fun result => ?_)
      (Uses.bind (fun p => ?_) ?_)
    · refine Uses.bind (fun _ => ?_) ((uses_perform trivial).bind fun _ =>
        (uses_commit (by simp [Op.storesNothing, StoresNothing])).bind fun _ => by trivial)
      split
      · exact (router ((RateLimiter.tame_commitReservation _).widen fun _ h =>
          .inl h.ofLimiter)).bind fun _ =>
          (router ((CircuitBreaker.tame_recordSuccess _).widen fun _ => .inr ∘ .inl)).bind fun _ =>
            (uses_perform trivial).bind fun _ => execute_storesNothing
      · exact (router (tame_settle _ _)).bind fun _ => ih _
    · exact (uses_perform trivial).bind fun _ => uses_ofExcept _
    · unfold registryGet
      split <;> trivial

theorem process_storesNothing (id : ℕ) : (process cfg id).Uses Op.storesNothing := by
  refine (uses_query trivial).bind fun row =>
    (uses_commit (by simp [Op.storesNothing, StoresNothing])).bind fun _ => ?_
  cases row with
  | none => trivial
  | some msg =>
    simp only
    split
    · trivial
    refine (uses_perform trivial).bind fun now => (uses_perform trivial).bind fun raw => ?_
    split
    · exact execute_storesNothing
    · trivial
    · split
      · exact execute_storesNothing
      · exact failover_storesNothing _ _ _ _ _

theorem consumer_storesNothing : (consumer cfg).Uses Op.storesNothing :=
  (uses_perform trivial).bind fun _ => (process_storesNothing _).handle fun e =>
    (execute_storesNothing.handle fun _ => uses_swallow _).bind fun _ => uses_swallow e

theorem producer_storesNothing : (producer cfg).Uses Op.storesNothing := by
  have puts : ∀ ids, (putAll ids).Uses Op.storesNothing := by
    intro ids
    induction ids with
    | nil => trivial
    | cons id rest ih => exact (uses_perform trivial).bind fun _ => ih
  refine Uses.handle (Uses.bind (fun claimed => (puts claimed).bind fun _ => ?_) ?_) fun e =>
    uses_swallow e
  · split
    · exact (uses_perform trivial).bind fun _ => uses_perform trivial
    · trivial
  · refine (uses_perform trivial).bind fun _ => (uses_query trivial).bind fun ids => ?_
    split
    · exact (uses_commit (by simp [Op.storesNothing, StoresNothing])).bind fun _ => by trivial
    · exact execute_storesNothing.bind fun _ => by trivial

theorem start_storesNothing : start.Uses Op.storesNothing := by
  have load : CircuitBreaker.load.Uses Op.storesNothing :=
    CircuitBreaker.tame_load.uses.mono fun _ h => storesNothing_of_router (.inr (.inl h))
  refine Uses.bind (fun _ => load.bind fun _ => execute_storesNothing.bind fun _ =>
    uses_perform trivial) ?_
  exact (uses_query trivial).bind fun _ => (uses_perform trivial).bind fun _ =>
    (uses_commit (by simp [Op.storesNothing, StoresNothing])).bind fun _ => by trivial

theorem sweepPlans_storesNothing : ∀ plans, (sweepPlans plans).Uses Op.storesNothing
  | [] => trivial
  | (status, cutoff) :: rest => by
    have ih := sweepPlans_storesNothing rest
    have files : ∀ rows, (spoolDeleteAll rows).Uses Op.storesNothing := by
      intro rows
      induction rows with
      | nil => trivial
      | cons row rows ih => exact (uses_perform trivial).bind fun _ => ih
    refine (uses_query trivial).bind fun rows => ?_
    split
    · exact (uses_commit (by simp [Op.storesNothing, StoresNothing])).bind fun _ => ih
    · exact (uses_flush trivial).bind fun _ => (uses_flush trivial).bind fun _ =>
        (uses_commit (by simp [Op.storesNothing, StoresNothing])).bind fun _ =>
        (files rows).bind fun _ => ih

theorem requeue_storesNothing (id : ℕ) : (requeue id).Uses Op.storesNothing := by
  refine (uses_query trivial).bind fun row => ?_
  cases row with
  | none => trivial
  | some msg =>
    simp only
    split
    · trivial
    · exact (uses_perform trivial).bind fun _ => (uses_flush trivial).bind fun _ =>
        (uses_commit (by simp [Op.storesNothing, StoresNothing])).bind fun _ => uses_perform trivial

/-- Such operations are of no concern. -/
theorem handling_beside {o : Op} (h : o.storesNothing) (a : o.Ans) :
    Handling.idle.good o a ∧ Handling.idle.next o a = .idle := by
  refine ⟨?_, by cases o <;> rfl⟩
  cases o with
  | spoolWrite content => exact h.elim
  | commit site ss => exact h
  | select site q => cases q <;> first | exact .inl rfl | trivial
  | spoolDelete path => exact .inl rfl
  | _ => trivial

theorem whole_storesNothing {t : Act Unit} (h : t.Uses Op.storesNothing) : t.Whole (handling cfg) :=
  (h.mono fun _ ho a => handling_beside ho a).whole

end Others

/-! ### The two jobs -/

section Jobs

variable {cfg}

/-- At the end nothing is at hand. -/
def HandledWhole {α : Type} : Except Exc α → Handling → Prop := fun _ φ => φ = .idle

/-- A header has been parsed, or the hook has been left. -/
def Parsed {α : Type} (φ : Handling) : Except Exc α → Handling → Prop
  | .ok _, χ => χ = φ
  | .error _, χ => χ = .idle

theorem headerText_follows (session : Session) (envelope : Envelope) (content : Bytes)
    (name : String) :
    (headerText content name).Follows (handling cfg) (Parsed (.received session envelope))
      (.received session envelope) :=
  fun v => ⟨trivial, by cases v <;> exact rfl⟩

/-- After the attempt to store it. -/
def Attempted (path : String) : Except Exc (Except Exc ℕ) → Handling → Prop
  | .ok (.ok _), φ => φ = .idle
  | .ok (.error e), φ => φ = if e = .cancelledError then .idle else .unstored path
  | .error _, φ => φ = .idle

theorem handleData_handles (session : Session) (envelope : Envelope) :
    (handleData cfg.ingress session envelope).Follows (handling cfg) HandledWhole
      ((Job.handleData session envelope).handling cfg) := by
  unfold handleData Job.handling
  simp only
  split
  · rename_i unaddressed
    rw [if_pos (.inl unaddressed)]
    exact rfl
  rename_i addressed
  split
  · rename_i big
    rw [if_pos (.inr big)]
    exact rfl
  rename_i small
  rw [if_neg (not_or.mpr ⟨addressed, small⟩)]
  refine Follows.bind (headerText_follows session envelope _ _) ?_ fun e φ h => h
  rintro subject _ rfl
  refine Follows.bind (headerText_follows session envelope _ _) ?_ fun e φ h => h
  rintro messageId _ rfl
  refine follows_perform fun path => ⟨⟨session, envelope, rfl, rfl⟩, follows_perform fun now => ⟨trivial, ?_⟩⟩
  change Follows (handling cfg) HandledWhole _ (.spooled session envelope path)
  refine Follows.bind (R := Attempted path) (Follows.attempt ?_) ?_ fun e φ h => h
  · refine follows_flush ⟨trivial, ?_⟩ fun e => ⟨trivial, by cases e <;> rfl⟩
    refine fun a => ⟨⟨_, rfl, rfl⟩, ?_⟩
    cases a with
    | ok id => exact rfl
    | error e => cases e <;> exact rfl
  intro stored φ hφ
  split
  · cases hφ
    exact rfl
  · rename_i e other
    cases hφ
    rw [if_neg other]
    exact fun _ => ⟨.inr (.inl rfl), rfl⟩
  · cases hφ
    exact fun _ => ⟨trivial, rfl⟩

theorem deleteMessage_handles (id : ℕ) :
    (deleteMessage id).Follows (handling cfg) HandledWhole (.deleting id) := by
  refine follows_query (fun row => ⟨.inr rfl, ?_⟩) fun e => ⟨.inr rfl, rfl⟩
  cases row with
  | none => exact rfl
  | some msg =>
    refine follows_flush ⟨trivial, ?_⟩ fun e => ⟨trivial, rfl⟩
    exact follows_commit (fun _ => ⟨rfl, fun _ => ⟨.inr (.inr rfl), rfl⟩⟩) fun e => ⟨rfl, rfl⟩

/-- Every job keeps to it. -/
theorem handling_keeps {jobs : Job → Bool} (hj : ∀ j, jobs j = true → j.onMessages = true) :
    (system cfg jobs).Keeps (handling cfg) := by
  intro i j w h
  simp only [system, Job.admitted, Bool.and_eq_true] at h
  have mine := hj j h.1
  cases j with
  | start => exact whole_storesNothing start_storesNothing
  | producer => exact whole_storesNothing producer_storesNothing
  | consumer => exact whole_storesNothing consumer_storesNothing
  | handleData session envelope =>
    exact Follows.bind (handleData_handles session envelope) (fun _ _ h => h) fun _ _ h => h
  | deleteMessage id => exact deleteMessage_handles id
  | requeue id => exact whole_storesNothing (requeue_storesNothing id)
  | prune =>
    exact whole_storesNothing ((RateLimiter.tame_prune cfg).uses.mono fun _ h =>
      storesNothing_of_router (.inl h))
  | retentionSweep =>
    exact whole_storesNothing ((uses_perform trivial).bind fun _ => sweepPlans_storesNothing _)
  | _ => cases mine

end Jobs

end SmtpSwitch
