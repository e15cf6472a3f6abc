import SmtpSwitch.Accounts

/-!
# Revocation of accounts

The calls of the accounts API, the refreshes they end with and the refresh loop of the ingress
server. A refresh reads the table first and replaces `AccountStore._by_name` later by what it
has read, so that another refresh may be overtaken: the one that has read earlier may assign
later.

For each account it matters who has changed it last (`lastChange`) and whether that call's
refresh has assigned since (`refreshed`). From then on a login is accepted as the account only
by the row that is stored (`Agrees`), as long as no refresh assigns that has read the table
before the change. -/

namespace SmtpSwitch.Revocation

open Coop Coop.Prog
open Accounts (Hasher Account CachedAccount State snapshot)

variable (H : Hasher)

/-! ### Operations -/

/-- The exceptions of the accounts' code. -/
inductive Exc where
  | httpException (status : ℕ)
  | integrityError
  | staleDataError
  | databaseError
  deriving DecidableEq

/-- What a session does to a row. -/
inductive Change where
  /-- `acct.enabled = ...`. -/
  | enabled (b : Bool)
  /-- `acct.password_hash = hash_password(...)`. -/
  | password (p : String)
  /-- `delete(Account)`. -/
  | deleted
  deriving DecidableEq

/-- An operation. -/
inductive Op where
  /-- `db.get(Account, id)`. -/
  | get (id : ℕ)
  /-- `select(Account).where(Account.username == username)`. -/
  | exists_ (username : String)
  /-- The commit of a session that has changed account `id`. -/
  | change (id : ℕ) (ch : Change)
  /-- The commit of a session with a new account. -/
  | create (username password : String)
  /-- The `SELECT` of `refresh`; the answer is the snapshot made of the rows. -/
  | select
  /-- `self._by_name = ...`. -/
  | assign (byName : String → Option (CachedAccount H))
  /-- The end of the session of `refresh`. -/
  | close
  /-- `verify`. -/
  | login (username password : String)

/-- The answers. -/
@[reducible] def Op.Ans {H : Hasher} : Op H → Type
  | .get _ => Except Exc (Option (Account H))
  | .exists_ _ => Except Exc Bool
  | .change _ _ => Except Exc Unit
  | .create _ _ => Except Exc ℕ
  | .select => Except Exc (String → Option (CachedAccount H))
  | .assign _ => Unit
  | .close => Except Exc Unit
  | .login _ _ => Option String

/-- What the surroundings decide. -/
inductive Choice where
  | ok
  | fail
  /-- A password is hashed with this salt. -/
  | salt (s : H.Salt)

variable {H}

/-- There is an account with this username. -/
def taken (s : State H) (username : String) : Bool :=
  s.ids.any fun id => (s.rows id).any fun r => r.username = username

/-- The id of a new row. -/
def newId (ids : List ℕ) : ℕ := ids.foldr max 0 + 1

/-- What an operation does. -/
def exec : (o : Op H) → Choice H → State H → Option (o.Ans × State H)
  | .get id, .ok, s => some (.ok (s.rows id), s)
  | .get _, .fail, s => some (.error .databaseError, s)
  | .exists_ username, .ok, s => some (.ok (taken s username), s)
  | .exists_ _, .fail, s => some (.error .databaseError, s)
  | .change id (.enabled b), .ok, s =>
    match s.rows id with
    | some r => some (.ok (),
        { s with rows := Function.update s.rows id (some { r with enabled := b }) })
    | none => some (.error .staleDataError, s)
  | .change id (.password p), .salt salt, s =>
    match s.rows id with
    | some r =>
      some (.ok (), { s with rows := Function.update s.rows id (some { r with passwordHash := H.hash salt p }) })
    | none => some (.error .staleDataError, s)
  | .change id .deleted, .ok, s =>
    some (.ok (), { s with rows := Function.update s.rows id none, ids := s.ids.filter (· ≠ id) })
  | .change _ _, .fail, s => some (.error .databaseError, s)
  | .create username p, .salt salt, s =>
    if taken s username then some (.error .integrityError, s)
    else some (.ok (newId s.ids), { s with
      rows := Function.update s.rows (newId s.ids)
        (some { username := username, passwordHash := H.hash salt p })
      ids := s.ids ++ [newId s.ids] })
  | .create _ _, .fail, s => some (.error .databaseError, s)
  | .select, .ok, s => some (.ok (snapshot H s), s)
  | .select, .fail, s => some (.error .databaseError, s)
  | .assign byName, .ok, s => some ((), { s with byName := byName })
  | .close, .ok, s => some (.ok (), s)
  | .close, .fail, s => some (.error .databaseError, s)
  | .login username password, .ok, s => some ((Accounts.verify H s username password).1, s)
  | _, _, _ => none

/-! ### The code -/

/-- A coroutine of the accounts' code. -/
abbrev Act (H : Hasher) (α : Type) := Prog (Op H) Op.Ans Exc α

/-- `refresh`, and so `_refresh_accounts`. -/
def refresh : Act H Unit :=
  .op .select fun rows => (Prog.ofExcept rows).bind fun byName =>
    .op (.assign byName) fun _ => .op .close Prog.ofExcept

/-- The session of a call that changes an account it has found. -/
def changeFound (id : ℕ) (ch : Account H → Change) : Act H Unit :=
  .op (.get id) fun row => (Prog.ofExcept row).bind fun row =>
    match row with
    | none => .raise (.httpException 404)
    | some acct => .op (.change id (ch acct)) Prog.ofExcept

/-- `toggle_account`. -/
def toggleAccount (accountId : ℕ) : Act H Unit :=
  (changeFound accountId fun acct => .enabled (!acct.enabled)).bind fun _ => refresh

/-- `delete_account`. -/
def deleteAccount (accountId : ℕ) : Act H Unit :=
  (.op (.change accountId .deleted) Prog.ofExcept : Act H Unit).bind fun _ => refresh

/-- `reset_account_password`. -/
def resetAccountPassword (accountId : ℕ) (password : String) : Act H Unit :=
  if password.length < 8 then .raise (.httpException 422)
  else (changeFound accountId fun _ => .password password).bind fun _ => refresh

/-- `create_account`, of a body that is valid. -/
def createAccount (username password : String) : Act H Unit :=
  .op (.exists_ username) fun found => (Prog.ofExcept found).bind fun found =>
    if found then .raise (.httpException 409)
    else .op (.create username password) fun id => (Prog.ofExcept id).bind fun _ => refresh

/-- A round of `_refresh_loop`. -/
def refreshLoop : Act H Unit := Prog.handle refresh fun _ => .ret ()

/-- What a task may be running. -/
inductive Job where
  | toggleAccount (accountId : ℕ)
  | deleteAccount (accountId : ℕ)
  | resetAccountPassword (accountId : ℕ) (password : String)
  | createAccount (username password : String)
  | refreshLoop
  | login (username password : String)

/-- The code of a job. -/
def Job.code : Job → Act H Unit
  | .toggleAccount id => Revocation.toggleAccount id
  | .deleteAccount id => Revocation.deleteAccount id
  | .resetAccountPassword id p => Revocation.resetAccountPassword id p
  | .createAccount username p => Revocation.createAccount username p
  | .refreshLoop => Revocation.refreshLoop
  | .login username p => .op (.login username p) fun _ => .ret ()

variable (H) in
/-- The machine. -/
def api : Machine (Op H) Op.Ans Exc (State H) (Choice H) Job Unit where
  exec _ := exec
  prog := Job.code
  admits _ _ _ := true
  env _ s := s
  reboot s := { rows := s.rows, ids := s.ids, clock := s.clock }

/-! ### The protocol -/

variable (H) in
/-- How far a task has got. -/
inductive Phase where
  | idle
  /-- It has changed the account. -/
  | changed (id : ℕ)
  /-- It has read the table, after it has changed this account, if any. -/
  | read (id : Option ℕ) (byName : String → Option (CachedAccount H))
  /-- It has assigned. -/
  | assigned (id : Option ℕ)

/-- The account an operation has changed, and how; a new account has no change. -/
def changes : (o : Op H) → o.Ans → Option (ℕ × Option Change)
  | .change id ch, .ok _ => some (id, some ch)
  | .create _ _, .ok id => some (id, none)
  | _, _ => none

/-- The table is read. -/
def Op.reads : (o : Op H) → o.Ans → Bool
  | .select, .ok _ => true
  | _, _ => false

/-- The snapshot is replaced. -/
def Op.assigns : Op H → Bool
  | .assign _ => true
  | _ => false

/-- A call with a refresh returns. -/
def Op.returns : (o : Op H) → o.Ans → Bool
  | .close, .ok _ => true
  | _, _ => false

/-- The account a task has changed. -/
def Phase.account : Phase H → Option ℕ
  | .changed id => some id
  | _ => none

/-- The next phase. -/
def Phase.next : Phase H → (o : Op H) → o.Ans → Phase H
  | _, .change id _, .ok _ => .changed id
  | _, .create _ _, .ok id => .changed id
  | φ, .select, .ok byName => .read φ.account byName
  | _, .select, .error _ => .idle
  | .read id _, .assign _, _ => .assigned id
  | _, .close, _ => .idle
  | φ, _, _ => φ

variable (H) in
/-- A task assigns what it has read. -/
def revocation : Protocol (Op H) Op.Ans Job (Phase H) where
  idle := .idle
  enter _ := .idle
  next := Phase.next
  good
    | φ, .assign byName, _ => ∃ id, φ = .read id byName
    | φ, .change _ _, _ | φ, .create _ _, _ => φ = .idle
    | _, _, _ => True

theorem refresh_follows (φ : Phase H) : (refresh : Act H Unit).Follows (revocation H)
    (fun _ φ => φ = .idle) φ := by
  refine fun rows => ⟨trivial, ?_⟩
  cases rows with
  | error e => exact rfl
  | ok byName =>
    refine fun _ => ⟨⟨_, rfl⟩, fun done => ⟨trivial, ?_⟩⟩
    cases done <;> exact rfl

theorem changeFound_follows (id : ℕ) (ch : Account H → Change) :
    (changeFound id ch : Act H Unit).Follows (revocation H) (fun r φ => (∃ e, r = .error e) →
      φ = .idle) .idle := by
  refine fun row => ⟨trivial, ?_⟩
  match row with
  | .error e => exact fun _ => rfl
  | .ok none => exact fun _ => rfl
  | .ok (some acct) =>
    refine fun done => ⟨rfl, ?_⟩
    cases done with
    | error e => exact fun _ => rfl
    | ok _ => exact fun h => h.elim fun e he => by cases he

theorem changed_refresh {t : Act H Unit}
    (ht : t.Follows (revocation H) (fun r φ => (∃ e, r = .error e) → φ = .idle) .idle) :
    (t.bind fun _ => refresh).Follows (revocation H) (fun _ φ => φ = .idle) .idle :=
  Follows.bind ht (fun _ φ _ => refresh_follows φ) fun e _ h => h ⟨e, rfl⟩

theorem api_keeps : (api H).Keeps (revocation H) := by
  intro i j s _
  cases j with
  | toggleAccount id => exact changed_refresh (changeFound_follows _ _)
  | deleteAccount id =>
    refine fun done => ⟨rfl, ?_⟩
    cases done with
    | error e => exact rfl
    | ok _ => exact refresh_follows _
  | resetAccountPassword id p =>
    change (resetAccountPassword id p).Follows _ _ _
    unfold resetAccountPassword
    split
    · exact rfl
    · exact changed_refresh (changeFound_follows _ _)
  | createAccount username p =>
    refine fun found => ⟨trivial, ?_⟩
    match found with
    | .error e => exact rfl
    | .ok true => exact rfl
    | .ok false =>
      refine fun id => ⟨rfl, ?_⟩
      cases id with
      | error e => exact rfl
      | ok id => exact refresh_follows _
  | refreshLoop =>
    refine Follows.handle ((refresh_follows _).mono ?_)
    intro r φ h
    cases r <;> exact h
  | login username p => exact fun _ => ⟨trivial, rfl⟩

/-! ### Who has changed an account -/

/-- The shared state and the trace. -/
abbrev Moment (H : Hasher) := Config (Op H) Op.Ans (State H) Job Unit

/-- The last change of an account, and the task that has made it. -/
def lastChange (id : ℕ) : List (Entry (Op H) Op.Ans Job Unit) → Option (ℕ × Option Change)
  | .did i o a :: tr => match changes o a with
    | some (id', ch) => if id' = id then some (i, ch) else lastChange id tr
    | none => lastChange id tr
  | _ :: tr => lastChange id tr
  | [] => none

/-- The account has been changed since the task has read the table. -/
def stale (i id : ℕ) : List (Entry (Op H) Op.Ans Job Unit) → Prop
  | .did k o a :: tr =>
    ¬ (k = i ∧ o.reads a = true) ∧ ((∃ ch, changes o a = some (id, ch)) ∨ stale i id tr)
  | _ :: tr => stale i id tr
  | [] => False

/-- The call that has made the last change of the account has assigned since. -/
def refreshed (id : ℕ) : List (Entry (Op H) Op.Ans Job Unit) → Prop
  | .did i o a :: tr => (∀ ch, changes o a ≠ some (id, ch)) ∧
      ((o.assigns = true ∧ (∃ ch, lastChange id tr = some (i, ch)) ∧
        ∃ byName, (revocation H).phase tr i = .read (some id) byName) ∨ refreshed id tr)
  | _ :: tr => refreshed id tr
  | [] => False

/-- The account whose change a task has assigned. -/
def Phase.returning : Phase H → Option ℕ
  | .assigned id => id
  | _ => none

/-- The call that has made the last change of the account has returned since. -/
def returned (id : ℕ) : List (Entry (Op H) Op.Ans Job Unit) → Bool
  | .did i o a :: tr => (changes o a).map Prod.fst ≠ some id &&
      ((o.returns a && (lastChange id tr).map Prod.fst = some i &&
        ((revocation H).phase tr i).returning = some id) || returned id tr)
  | _ :: tr => returned id tr
  | [] => false

/-- A login is accepted as this account only by the row that is stored. -/
def Agrees (byName : String → Option (CachedAccount H)) (rows : ℕ → Option (Account H)) (id : ℕ) :
    Prop :=
  ∀ name c, byName name = some c → c.id = id →
    ∃ r, rows id = some r ∧ r.username = name ∧ c.passwordHash = r.passwordHash ∧
      c.enabled = r.enabled

/-- A refresh assigns what it has read of an account, once the call that has made the account's
last change has refreshed the snapshot, only if it has read after that change, or has read what is
stored. -/
def InOrder (x x' : Moment H) : Prop :=
  ∀ i byName a, x'.trace = .did i (.assign byName) a :: x.trace →
    ∀ id, refreshed id x.trace → stale i id x.trace → Agrees byName x.shared.rows id

theorem snapshot_agrees (s : State H) (id : ℕ) : Agrees (snapshot H s) s.rows id := by
  have found : ∀ name c, snapshot H s name = some c → ∃ r, s.rows c.id = some r ∧
      r.username = name ∧
      c.passwordHash = r.passwordHash ∧ c.enabled = r.enabled := by
    intro name
    unfold snapshot
    refine List.foldlRecOn (motive := fun found : Option (CachedAccount H) => ∀ c, found = some c →
      ∃ r, s.rows c.id = some r ∧ r.username = name ∧ c.passwordHash = r.passwordHash ∧
        c.enabled = r.enabled)
      _ _ (fun c hc => by cases hc) fun found h id _ c hc => ?_
    split at hc
    · split at hc
      · cases hc
        exact ⟨_, ‹_›, ‹_›, rfl, rfl⟩
      · exact h c hc
    · exact h c hc
  intro name c hc hid
  obtain ⟨r, hr, rest⟩ := found name c hc
  exact ⟨r, hid ▸ hr, rest⟩

theorem returned_did {i id : ℕ} {o : Op H} {a : o.Ans} {tr : List (Entry (Op H) Op.Ans Job Unit)}
    (h : returned id (.did i o a :: tr) = true) : (∀ ch, changes o a ≠ some (id, ch)) ∧
      ((o.returns a = true ∧ (∃ ch, lastChange id tr = some (i, ch)) ∧
        (revocation H).phase tr i = .assigned (some id)) ∨ returned id tr = true) := by
  simp only [returned, ne_eq, Bool.and_eq_true, Bool.or_eq_true, decide_eq_true_eq,
    Option.map_eq_some_iff, not_exists, not_and] at h
  obtain ⟨unchanged, ⟨⟨returns, ⟨⟨_, ch⟩, hl, rfl⟩⟩, hφ⟩ | old⟩ := h
  · refine ⟨fun ch hch => unchanged _ hch rfl, .inl ⟨returns, ⟨ch, hl⟩, ?_⟩⟩
    unfold Phase.returning at hφ
    split at hφ
    · rw [← hφ]
      assumption
    · cases hφ
  · exact ⟨fun ch hch => unchanged _ hch rfl, .inr old⟩

/-! ### The law -/

/-- What a change leaves of a row. -/
def Change.Holds (row : Option (Account H)) : Change → Prop
  | .enabled b => ∀ r, row = some r → r.enabled = b
  | .password p => ∀ r, row = some r → ∃ salt, r.passwordHash = H.hash salt p
  | .deleted => row = none

/-- The invariant. -/
structure Inv (x : Moment H) : Prop where
  /-- What a task has read agrees with the rows that have not changed since. -/
  read : ∀ i o byName id, (revocation H).phase x.trace i = .read o byName → ¬ stale i id x.trace →
    Agrees byName x.shared.rows id
  /-- A call reads after its own change. -/
  own : ∀ i id ch byName, lastChange id x.trace = some (i, ch) →
    (revocation H).phase x.trace i = .read (some id) byName → ¬ stale i id x.trace
  cached : ∀ id, refreshed id x.trace → Agrees x.shared.byName x.shared.rows id
  assigned : ∀ i id ch, lastChange id x.trace = some (i, ch) →
    (revocation H).phase x.trace i = .assigned (some id) → refreshed id x.trace
  returned : ∀ id, returned id x.trace = true → refreshed id x.trace
  last : ∀ id i ch, lastChange id x.trace = some (i, some ch) → ch.Holds (x.shared.rows id)

namespace Inv

variable {s s' : State H} {tr : List (Entry (Op H) Op.Ans Job Unit)} {i : ℕ} {o : Op H} {a : o.Ans}

theorem phase_other {k : ℕ} (h : k ≠ i) :
    (revocation H).phase (.did i o a :: tr) k = (revocation H).phase tr k := by
  rw [Protocol.phase_did, Function.update_of_ne h]

theorem lastChange_quiet (hch : changes o a = none) (id : ℕ) :
    lastChange id (.did i o a :: tr) = lastChange id tr := by
  simp only [lastChange, hch]

theorem lastChange_did {id₀ : ℕ} {ch : Option Change} (hch : changes o a = some (id₀, ch))
    (id : ℕ) :
    lastChange id (.did i o a :: tr) = if id₀ = id then some (i, ch) else lastChange id tr := by
  simp only [lastChange, hch]

/-- Rows that are the same agree with the same. -/
theorem agrees_congr {byName : String → Option (CachedAccount H)}
    {rows rows' : ℕ → Option (Account H)} {id : ℕ}
    (h : Agrees byName rows id) (same : rows' id = rows id) : Agrees byName rows' id := by
  unfold Agrees
  rw [same]
  exact h

/-- A change of an account. -/
theorem did_change (h : Inv ⟨s, tr⟩) {n : ℕ} {ch : Option Change} (hch : changes o a = some (n, ch))
    (hn : ((revocation H).phase tr i).next o a = .changed n) (cache : s'.byName = s.byName)
    (rows : ∀ id ≠ n, s'.rows id = s.rows id) (holds : ∀ ch', ch = some ch' →
      ch'.Holds (s'.rows n)) :
    Inv ⟨s', .did i o a :: tr⟩ := by
  have mine : (revocation H).phase (.did i o a :: tr) i = .changed n := by
    rw [Protocol.phase_did, Function.update_self]
    exact hn
  have silent : o.reads a = false ∧ o.assigns = false ∧ o.returns a = false := by
    cases o <;> first | exact ⟨rfl, rfl, rfl⟩ | cases hch
  have other : ∀ {id}, (∀ ch', changes o a ≠ some (id, ch')) → id ≠ n := by
    intro id hne heq
    subst heq
    exact hne _ hch
  refine ⟨fun k o' byName id hk fresh => ?_, fun k id ch' byName hl hk st => ?_, fun id hr => ?_,
    fun k id ch' hl hk => ?_, fun id hr => ?_, fun id k ch' hl => ?_⟩
  · have hki : k ≠ i := by
      rintro rfl
      rw [mine] at hk
      cases hk
    rw [phase_other hki] at hk
    simp only [stale, silent.1, Bool.false_eq_true, and_false, not_false_eq_true, true_and, not_or,
      not_exists] at fresh
    exact agrees_congr (h.read k o' byName id hk fresh.2) (rows id (other fresh.1))
  · have hki : k ≠ i := by
      rintro rfl
      rw [mine] at hk
      cases hk
    rw [phase_other hki] at hk
    rw [lastChange_did hch] at hl
    split at hl
    · cases hl
      exact hki rfl
    · rename_i hid
      rcases st.2 with ⟨ch'', hch'⟩ | st
      · rw [hch] at hch'
        cases hch'
        exact hid rfl
      · exact h.own k id ch' byName hl hk st
  · rcases hr.2 with ⟨ha, -⟩ | hr'
    · rw [silent.2.1] at ha
      cases ha
    · simp only [cache]
      exact agrees_congr (h.cached id hr') (rows id (other hr.1))
  · have hki : k ≠ i := by
      rintro rfl
      rw [mine] at hk
      cases hk
    rw [phase_other hki] at hk
    rw [lastChange_did hch] at hl
    split at hl
    · cases hl
      exact absurd rfl hki
    · rename_i hid
      refine ⟨fun ch'' hch' => ?_, .inr (h.assigned k id ch' hl hk)⟩
      rw [hch] at hch'
      cases hch'
      exact hid rfl
  · obtain ⟨unchanged, ⟨ha, -⟩ | hr'⟩ := returned_did hr
    · rw [silent.2.2] at ha
      cases ha
    · exact ⟨unchanged, .inr (h.returned id hr')⟩
  · rw [lastChange_did hch] at hl
    split at hl
    · rename_i hid
      subst hid
      cases hl
      exact holds ch' rfl
    · rename_i hid
      rw [rows id (Ne.symm hid)]
      exact h.last id k ch' hl

/-- An operation that changes nothing, neither reads the table nor assigns. -/
theorem did_quiet (h : Inv ⟨s, tr⟩) (hch : changes o a = none) (reads : o.reads a = false)
    (assigns : o.assigns = false) (hn : ((revocation H).phase tr i).next o a =
      (revocation H).phase tr i ∨
      ((revocation H).phase tr i).next o a = .idle) : Inv ⟨s, .did i o a :: tr⟩ := by
  have kept : ∀ k φ, φ ≠ .idle → (revocation H).phase (.did i o a :: tr) k = φ →
      (revocation H).phase tr k = φ := by
    intro k φ hφ hk
    by_cases hki : k = i
    · subst hki
      rw [Protocol.phase_did, Function.update_self] at hk
      rcases hn with same | idle
      · rw [← same]
        exact hk
      · exact absurd (hk.symm.trans idle) hφ
    · rw [phase_other hki] at hk
      exact hk
  have stays : ∀ k id, stale k id (.did i o a :: tr) ↔ stale k id tr := by
    intro k id
    simp [stale, hch, reads]
  have more : ∀ id, refreshed id tr → refreshed id (.did i o a :: tr) := fun id hr =>
    ⟨fun ch hc => (by rw [hch] at hc; cases hc), .inr hr⟩
  refine ⟨fun k o' byName id hk fresh => ?_, fun k id ch byName hl hk st => ?_, fun id hr => ?_,
    fun k id ch hl hk => ?_, fun id hr => ?_, fun id k ch hl => ?_⟩
  · rw [stays] at fresh
    exact h.read k o' byName id (kept k _ (by simp) hk) fresh
  · rw [stays] at st
    rw [lastChange_quiet hch] at hl
    exact h.own k id ch byName hl (kept k _ (by simp) hk) st
  · rcases hr.2 with ⟨ha, -⟩ | hr'
    · rw [assigns] at ha
      cases ha
    · exact h.cached id hr'
  · rw [lastChange_quiet hch] at hl
    exact more id (h.assigned k id ch hl (kept k _ (by simp) hk))
  · obtain ⟨-, ⟨-, ⟨ch, hl⟩, hφ⟩ | hr'⟩ := returned_did hr
    · exact more id (h.assigned i id ch hl hφ)
    · exact more id (h.returned id hr')
  · rw [lastChange_quiet hch] at hl
    exact h.last id k ch hl

/-- The table is read. -/
theorem did_select (h : Inv ⟨s, tr⟩) : Inv ⟨s, .did i .select (.ok (snapshot H s)) :: tr⟩ := by
  have mine : (revocation H).phase (.did i .select (.ok (snapshot H s)) :: tr) i =
      .read ((revocation H).phase tr i).account (snapshot H s) := by
    rw [Protocol.phase_did, Function.update_self]
    change Phase.next ((revocation H).phase tr i) .select (.ok (snapshot H s)) = _
    cases (revocation H).phase tr i <;> rfl
  have others : ∀ k id, k ≠ i → (stale k id (.did i .select (.ok (snapshot H s)) :: tr) ↔
      stale k id tr) := by
    intro k id hk
    simp [stale, changes, Ne.symm hk]
  have more : ∀ id, refreshed id tr → refreshed id (.did i .select (.ok (snapshot H s)) :: tr) :=
    fun id hr =>
    ⟨fun ch hc => (by cases hc), .inr hr⟩
  have old : ∀ id, refreshed id (.did i .select (.ok (snapshot H s)) :: tr) → refreshed id tr :=
    fun id hr =>
    hr.2.resolve_left fun ha => (by cases ha.1)
  refine ⟨fun k o' byName id hk fresh => ?_, fun k id ch byName hl hk st => ?_, fun id hr =>
    h.cached id (old id hr),
    fun k id ch hl hk => ?_, fun id hr => ?_, fun id k ch hl => h.last id k ch hl⟩
  · by_cases hki : k = i
    · subst hki
      rw [mine] at hk
      cases hk
      exact snapshot_agrees s id
    · rw [others k id hki] at fresh
      rw [phase_other hki] at hk
      exact h.read k o' byName id hk fresh
  · by_cases hki : k = i
    · subst hki
      exact st.1 ⟨rfl, rfl⟩
    · rw [others k id hki] at st
      rw [phase_other hki] at hk
      exact h.own k id ch byName hl hk st
  · have hki : k ≠ i := by
      rintro rfl
      rw [mine] at hk
      cases hk
    rw [phase_other hki] at hk
    exact more id (h.assigned k id ch hl hk)
  · obtain ⟨-, ⟨ha, -⟩ | hr'⟩ := returned_did hr
    · cases ha
    · exact more id (h.returned id hr')

/-- The snapshot is replaced. -/
theorem did_assign (h : Inv ⟨s, tr⟩) {byName : String → Option (CachedAccount H)}
    {acc : Option ℕ} {u : Unit} (hφ : (revocation H).phase tr i = .read acc byName)
    (hc : InOrder ⟨s, tr⟩ ⟨{ s with byName := byName }, .did i (.assign byName) u :: tr⟩) :
    Inv ⟨{ s with byName := byName }, .did i (.assign byName) u :: tr⟩ := by
  have mine : (revocation H).phase (.did i (.assign byName) u :: tr) i = .assigned acc := by
    rw [Protocol.phase_did, Function.update_self, hφ]
    rfl
  have stays : ∀ k id, stale k id (.did i (.assign byName) u :: tr) ↔ stale k id tr := by
    intro k id
    simp [stale, changes, Op.reads]
  have more : ∀ id, refreshed id tr → refreshed id (.did i (.assign byName) u :: tr) := fun id hr =>
    ⟨fun ch hc => (by cases hc), .inr hr⟩
  refine ⟨fun k o' byName' id hk fresh => ?_, fun k id ch byName' hl hk st => ?_, fun id hr => ?_,
    fun k id ch hl hk => ?_, fun id hr => ?_, fun id k ch hl => h.last id k ch hl⟩
  · have hki : k ≠ i := by
      rintro rfl
      rw [mine] at hk
      cases hk
    rw [phase_other hki] at hk
    rw [stays] at fresh
    exact h.read k o' byName' id hk fresh
  · have hki : k ≠ i := by
      rintro rfl
      rw [mine] at hk
      cases hk
    rw [phase_other hki] at hk
    rw [stays] at st
    exact h.own k id ch byName' hl hk st
  · by_cases st : stale i id tr
    · rcases hr.2 with ⟨-, ⟨ch, hl⟩, byName', hread⟩ | hr'
      · exact absurd st (h.own i id ch byName' hl hread)
      · exact hc i byName u rfl id hr' st
    · exact h.read i acc byName id hφ st
  · by_cases hki : k = i
    · subst hki
      rw [mine] at hk
      cases hk
      exact ⟨fun ch hc => (by cases hc), .inl ⟨rfl, ⟨ch, hl⟩, byName, hφ⟩⟩
    · rw [phase_other hki] at hk
      exact more id (h.assigned k id ch hl hk)
  · obtain ⟨-, ⟨ha, -⟩ | hr'⟩ := returned_did hr
    · cases ha
    · exact more id (h.returned id hr')

/-- What a commit does to the row of its account. -/
theorem exec_change {id : ℕ} {ch : Change} {c : Choice H} {a} (he : exec (.change id ch) c s = some (a, s')) :
    (a = .ok () ∧ s'.byName = s.byName ∧ (∀ id' ≠ id, s'.rows id' = s.rows id') ∧ ch.Holds (s'.rows id)) ∨
      (∃ e, a = .error e) ∧ s' = s := by
  cases c with
  | fail =>
    cases ch <;> cases he <;> exact .inr ⟨⟨_, rfl⟩, rfl⟩
  | ok =>
    cases ch with
    | password p => cases he
    | deleted =>
      cases he
      exact .inl ⟨rfl, rfl, fun id' hid => Function.update_of_ne hid _ _, Function.update_self ..⟩
    | enabled b =>
      simp only [exec] at he
      split at he
      · cases he
        refine .inl ⟨rfl, rfl, fun id' hid => Function.update_of_ne hid _ _, fun r hr => ?_⟩
        simp only [Function.update_self, Option.some.injEq] at hr
        rw [← hr]
      · cases he
        exact .inr ⟨⟨_, rfl⟩, rfl⟩
  | salt salt =>
    cases ch with
    | password p =>
      simp only [exec] at he
      split at he
      · cases he
        refine .inl ⟨rfl, rfl, fun id' hid => Function.update_of_ne hid _ _, fun r hr => ?_⟩
        simp only [Function.update_self, Option.some.injEq] at hr
        exact ⟨salt, by rw [← hr]⟩
      · cases he
        exact .inr ⟨⟨_, rfl⟩, rfl⟩
    | _ => cases he

theorem step {x x' : Moment H} (h : Inv x) (hs : (api H).Step (revocation H) x x') (hc : InOrder x x') :
    Inv x' := by
  cases hs with
  | @start s tr i j ha hi =>
    have same : (revocation H).phase (.start i j :: tr) = (revocation H).phase tr :=
      Protocol.phase_start_idle rfl hi
    refine ⟨fun k o byName id hk => ?_, fun k id ch byName hl hk => ?_, h.cached, fun k id ch hl hk => ?_,
      h.returned, h.last⟩
    · exact h.read k o byName id ((congrFun same k).symm.trans hk)
    · exact h.own k id ch byName hl ((congrFun same k).symm.trans hk)
    · exact h.assigned k id ch hl ((congrFun same k).symm.trans hk)
  | env => exact ⟨h.read, h.own, h.cached, h.assigned, h.returned, h.last⟩
  | crash =>
    exact ⟨fun k o byName id hk => (by cases hk), fun k id ch byName hl hk => (by cases hk),
      fun id _ name c hc => (by cases hc), fun k id ch hl hk => (by cases hk), h.returned, h.last⟩
  | @did s s' tr i o c a he hg =>
    have he : exec o c s = some (a, s') := he
    cases o with
    | change id ch =>
      rcases exec_change he with ⟨rfl, cache, rows, holds⟩ | ⟨⟨e, rfl⟩, rfl⟩
      · exact h.did_change rfl rfl cache rows fun ch' hch => by cases hch; exact holds
      · exact h.did_quiet rfl rfl rfl (.inl rfl)
    | create username p =>
      cases c with
      | ok => cases he
      | fail =>
        cases he
        exact h.did_quiet rfl rfl rfl (.inl rfl)
      | salt salt =>
        simp only [exec] at he
        split at he
        · cases he
          exact h.did_quiet rfl rfl rfl (.inl rfl)
        · cases he
          exact h.did_change (n := newId s.ids) rfl rfl rfl (fun id hid => Function.update_of_ne hid _ _)
            fun ch' hch => by cases hch
    | select =>
      cases c with
      | ok =>
        cases he
        exact h.did_select
      | fail =>
        cases he
        exact h.did_quiet rfl rfl rfl (.inr (by cases (revocation H).phase tr i <;> rfl))
      | salt salt => cases he
    | assign byName =>
      obtain ⟨acc, hφ⟩ := hg
      cases c with
      | ok =>
        cases he
        exact h.did_assign hφ hc
      | _ => cases he
    | close =>
      have same : s' = s := by cases c <;> cases he <;> rfl
      subst same
      exact h.did_quiet rfl (by cases a <;> rfl) rfl (.inr (by cases (revocation H).phase tr i <;> rfl))
    | get id =>
      have same : s' = s := by cases c <;> cases he <;> rfl
      subst same
      exact h.did_quiet rfl rfl rfl (.inl (by cases (revocation H).phase tr i <;> rfl))
    | exists_ username =>
      have same : s' = s := by cases c <;> cases he <;> rfl
      subst same
      exact h.did_quiet rfl rfl rfl (.inl (by cases (revocation H).phase tr i <;> rfl))
    | login username password =>
      have same : s' = s := by cases c <;> cases he; rfl
      subst same
      exact h.did_quiet rfl rfl rfl (.inl (by cases (revocation H).phase tr i <;> rfl))

end Inv

/-- `verify` accepts a login as this account. -/
def Accepted (s : State H) (id : ℕ) (username password : String) : Prop :=
  (Accounts.verify H s username password).1 = some username ∧ ∃ c,
    s.byName username = some c ∧ c.id = id

theorem Accepted.of_agrees {s : State H} {id : ℕ} {username password : String}
    (h : Accepted s id username password)
    (agrees : Agrees s.byName s.rows id) : ∃ r, s.rows id = some r ∧ r.username = username ∧
      r.enabled = true ∧
      H.verify r.passwordHash password = true := by
  obtain ⟨accepted, c, hc, hid⟩ := h
  obtain ⟨r, hr, name, hash, enabled⟩ := agrees username c hc hid
  simp only [Accounts.verify, hc] at accepted
  split at accepted
  · cases accepted
  rename_i on
  split at accepted
  · cases accepted
  rename_i verified
  exact ⟨r, hr, name, by simpa [enabled] using on, by simpa [hash] using verified⟩

/-- **Revocation takes effect when the call returns.** In every run in which the refreshes assign
in order: once the call that has changed an account last has returned, a login is accepted as that
account only if it is stored and enabled and the password is right; so it is not if the call has
disabled or deleted the account, and only with the new password if the call has reset it. -/
theorem revocation_takes_effect (H : Hasher) {w : State H}
    {s : Pool (Op H) Op.Ans Exc (State H) Job Unit}
    (h : (api H).Reachable InOrder (Machine.boot w) s) {id : ℕ} (hr : returned id s.trace = true)
    {username password : String} (ha : Accepted s.shared id username password) :
    (∃ r, s.shared.rows id = some r ∧ r.username = username ∧ r.enabled = true ∧
      H.verify r.passwordHash password = true) ∧
    ∀ i ch, lastChange id s.trace = some (i, some ch) →
      ch ≠ .enabled false ∧ ch ≠ .deleted ∧ ∀ p, ch = .password p → password = p := by
  have init : Inv (H := H) ⟨w, []⟩ :=
    ⟨fun _ _ _ _ hk => (by cases hk), fun _ _ _ _ hl => (by cases hl), fun _ hr => hr.elim,
      fun _ _ _ hl => (by cases hl), fun _ hr => (by cases hr), fun _ _ _ hl => (by cases hl)⟩
  have inv := (Machine.invariant api_keeps Inv init (fun h hs hc => h.step hs hc) h).1
  obtain ⟨r, row, name, enabled, verified⟩ := ha.of_agrees (inv.cached id (inv.returned id hr))
  refine ⟨⟨r, row, name, enabled, verified⟩, fun i ch hl => ?_⟩
  have holds := inv.last id i ch hl
  refine ⟨?_, ?_, ?_⟩
  · rintro rfl
    rw [holds r row] at enabled
    cases enabled
  · rintro rfl
    rw [show s.shared.rows id = none from holds] at row
    cases row
  · rintro p rfl
    obtain ⟨salt, hash⟩ := holds r row
    rw [hash, H.verify_hash] at verified
    exact verified

namespace Example

open Accounts.Example (plainHasher oneAccount)

/-- The refresh loop has read the table; the account is disabled, and the call returns; the loop
assigns. -/
def overtaken : List (Move (Choice plainHasher) Job Unit) :=
  [.start 0 .refreshLoop, .run 0 .ok, .start 1 (.toggleAccount 1), .run 1 .ok, .run 1 .ok,
    .run 1 .ok, .run 1 .ok, .run 1 .ok, .run 0 .ok]

/-- The account is disabled, and a login is accepted. -/
theorem revocation_undone_overtaken : ∃ s,
    (api plainHasher).Reachable Machine.Free (Machine.boot oneAccount) s ∧
      returned 1 s.trace = true ∧
      lastChange 1 s.trace = some (1, some (.enabled false)) ∧
        Accepted s.shared 1 "app" "old password" := by
  obtain ⟨s, hs, ha⟩ : ∃ s, (api plainHasher).runFrom (Machine.boot oneAccount) overtaken = some s ∧
      (returned 1 s.trace, lastChange 1 s.trace, (Accounts.verify _ s.shared "app" "old password").1,
        (s.shared.byName "app").map CachedAccount.id) =
        (true, some (1, some (.enabled false)), some "app", some 1) :=
    Option.map_eq_some_iff.mp (by decide +kernel)
  simp only [Prod.mk.injEq, Option.map_eq_some_iff] at ha
  exact ⟨s, Machine.Reachable.refl.runFrom hs, ha.1, ha.2.1, ha.2.2.1, ha.2.2.2⟩

/-- The password is reset, and the refresh loop reads afterwards. -/
def inTurn : List (Move (Choice plainHasher) Job Unit) :=
  [.start 1 (.resetAccountPassword 1 "new password"), .run 1 .ok, .run 1 (.salt ()), .run 1 .ok,
    .run 1 .ok, .run 1 .ok, .start 0 .refreshLoop, .run 0 .ok, .run 0 .ok]

/-- A refresh assigns as soon as it has read. -/
def prompt (m : Move (Choice plainHasher) Job Unit)
    (s : Pool (Op plainHasher) Op.Ans Exc (State plainHasher) Job Unit) : Bool :=
  match m with
  | .run i _ => match s.tasks i with
    | some (_, .op (.assign _) _) => match s.trace with
      | .did k o a :: _ => k = i && o.reads a
      | _ => false
    | _ => true
  | _ => true

theorem inOrder_of_prompt {m : Move (Choice plainHasher) Job Unit}
    {s s' : Pool (Op plainHasher) Op.Ans Exc (State plainHasher) Job Unit} (hm : prompt m s = true)
    (h : (api plainHasher).step m s = some s') : InOrder s.toConfig s'.toConfig := by
  intro i byName a htr id _ hstale
  obtain ⟨c, job, k, rfl, ht, -⟩ := Machine.step_did h htr
  simp only [prompt, ht] at hm
  split at hm
  · rename_i k o a tr htr
    rw [htr] at hstale
    exact absurd (by simpa using hm) hstale.1
  · cases hm

theorem revocation_takes_effect_inTurn : ∃ s,
    (api plainHasher).runFrom (Machine.boot oneAccount) inTurn = some s ∧
      Accepted s.shared 1 "app" "new password" ∧ ∀ p, Accepted s.shared 1 "app" p →
        p = "new password" := by
  obtain ⟨s, hs, ha⟩ : ∃ s, (api plainHasher).runFrom (Machine.boot oneAccount) inTurn = some s ∧
      (returned 1 s.trace, lastChange 1 s.trace, (Accounts.verify _ s.shared "app" "new password").1,
        (s.shared.byName "app").map CachedAccount.id) =
        (true, some (1, some (.password "new password")), some "app", some 1) :=
    Option.map_eq_some_iff.mp (by decide +kernel)
  simp only [Prod.mk.injEq, Option.map_eq_some_iff] at ha
  refine ⟨s, hs, ⟨ha.2.2.1, ha.2.2.2⟩, fun p hp => ?_⟩
  exact ((revocation_takes_effect plainHasher
    (Machine.Reachable.refl.runFrom_along inOrder_of_prompt (by decide +kernel) hs) ha.1 hp).2 1 _ ha.2.1).2.2 _ rfl

end Example

end SmtpSwitch.Revocation
