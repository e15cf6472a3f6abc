import SmtpSwitch.Acceptance
import SmtpSwitch.Accounts
import SmtpSwitch.Allowlist

/-!
# Who a message is from

`make_authenticator` of `ingress/auth.py`, and the hooks of `ingress/server.py` over a
whole session once more, this time for what they store. Four hooks and the authenticator leave
what they have learned in the session and the envelope, and `handle_DATA` makes a
row of that. The client has seen nothing but the replies; the row says exactly what
these have confirmed to it: the sender, the recipients one by one, and the account it has
authenticated as (`stored_as_answered`).

Two things are assumed of aiosmtpd: it notes a success of the authenticator only (`Checked`),
and it calls `handle_RCPT` only for an envelope with a sender (`RcptAfterMail`; it answers
`503` otherwise). The second is needed: `handle_RCPT` and `handle_DATA` look neither
at the sender nor at the session, so only `handle_MAIL` asks for authentication.
-/

namespace SmtpSwitch.Submission

open Coop Coop.Prog
open Accounts (Hasher)
open Allowlist

/-! ### The authenticator -/

/-- `auth_data`: a `LoginPassword`, or what another mechanism gives. -/
inductive AuthData where
  | loginPassword (login password : Bytes)
  | other

variable {H : Hasher}

/-- `_authenticator`: the `auth_data` of its result, if that is a success; `decode` is `_decode`. -/
def authenticator (decode : Bytes → String) (store : Accounts.State H) : AuthData → Option String
  | .other => none
  | .loginPassword login password =>
    let username := decode login
    let password := decode password
    if username = "" ∨ password = "" then none
    else match (Accounts.verify H store username password).1 with
      | none => none
      | some _ => some username

/-- An account that is enabled has this name and this password. -/
def Good (store : Accounts.State H) (username password : String) : Prop :=
  ∃ acct, store.byName username = some acct ∧ acct.enabled = true ∧
    H.verify acct.passwordHash password = true

/-- Who is let in has named an account that is enabled, and given its password. -/
theorem good_of_authenticator {decode : Bytes → String} {store : Accounts.State H} {data : AuthData}
    {account : String} (h : authenticator decode store data = some account) :
    ∃ login password, data = .loginPassword login password ∧ decode login = account ∧ account ≠ "" ∧
      Good store account (decode password) := by
  cases data with
  | other => cases h
  | loginPassword login password =>
    simp only [authenticator] at h
    split at h
    · cases h
    · rename_i named
      unfold Accounts.verify at h
      cases found : store.byName (decode login) with
      | none => simp [found] at h
      | some acct =>
        cases enabled : acct.enabled with
        | false => simp [found, enabled] at h
        | true =>
          cases verified : H.verify acct.passwordHash (decode password) with
          | false => simp [found, enabled, verified] at h
          | true =>
            simp only [found, enabled, verified, Bool.not_true, Bool.false_eq_true, if_false,
              Option.some.injEq] at h
            subst h
            exact ⟨login, password, rfl, rfl, fun nameless => named (.inl nameless), acct, found,
              enabled, verified⟩

/-! ### What the replies have confirmed

A history is newest first. -/

/-- The hook has returned one reply, a 250. -/
def confirmed (x : Exchange) : Bool :=
  match x.outcome with
  | .ok [reply] => reply.code = 250
  | _ => false

/-- The account of the last authentication. -/
def accountOf : List Exchange → Option String
  | [] => none
  | x :: xs =>
    match x.call with
    | .authenticated account => some account
    | _ => accountOf xs

/-- The sender: the last `MAIL` answered 250 since the envelope was new. -/
def senderOf : List Exchange → Option String
  | [] => none
  | x :: xs =>
    match x.call with
    | .newEnvelope => none
    | .mail address => if confirmed x then some address else senderOf xs
    | _ => senderOf xs

/-- The recipients: every `RCPT` answered 250 since the envelope was new. -/
def recipientsOf : List Exchange → List String
  | [] => []
  | x :: xs =>
    match x.call with
    | .newEnvelope => []
    | .rcpt address _ => if confirmed x then recipientsOf xs ++ [address] else recipientsOf xs
    | _ => recipientsOf xs

/-! ### What is assumed of the library -/

/-- It notes in the session what the authenticator has returned, where that is a success. -/
def Checked (decode : Bytes → String) (H : Hasher) (xs : List Exchange) : Prop :=
  ∀ x ∈ xs, ∀ account, x.call = .authenticated account →
    ∃ (store : Accounts.State H) (data : AuthData), authenticator decode store data = some account

/-- It calls `handle_RCPT` only for an envelope with a sender. -/
def RcptAfterMail (xs : List Exchange) : Prop :=
  ∀ pre x post address addr, xs = pre ++ x :: post → x.call = .rcpt address addr →
    (senderOf pre.reverse).isSome = true

variable (cfg : IngressConfig)

/-- The session and the envelope are what the replies have confirmed. -/
structure Confirmed (c : Connection) (history : List Exchange) : Prop where
  account : c.session.authData = accountOf history
  authenticated : c.session.authenticated = (accountOf history).isSome
  sender : c.envelope.mailFrom = senderOf history
  recipients : c.envelope.rcptTos = recipientsOf history
  addressed : c.envelope.rcptTos ≠ [] → c.envelope.mailFrom ≠ none
  admitted : cfg.requireAuth = true → c.envelope.mailFrom ≠ none → c.session.authenticated = true

variable {cfg} {networks : List IpNetwork} {serverName : String}

theorem Confirmed.step {c : Connection} {x : Exchange} {history : List Exchange}
    (h : Confirmed cfg c history) (hx : Answers cfg networks serverName c x)
    (guarded : ∀ address addr, x.call = .rcpt address addr → (senderOf history).isSome = true) :
    Confirmed cfg (c.after cfg networks serverName x.call) (x :: history) := by
  cases hx with
  | newEnvelope =>
    exact ⟨h.account, h.authenticated, rfl, rfl, fun named => absurd rfl named,
      fun _ named => absurd rfl named⟩
  | authenticated => exact ⟨rfl, rfl, h.sender, h.recipients, h.addressed, fun _ _ => rfl⟩
  | helo =>
    simp only [Connection.after, handleHelo_session]
    exact ⟨h.account, h.authenticated, h.sender, h.recipients, h.addressed, h.admitted⟩
  | ehlo =>
    simp only [Connection.after, handleEhlo_session]
    exact ⟨h.account, h.authenticated, h.sender, h.recipients, h.addressed, h.admitted⟩
  | @mail address =>
    simp only [Connection.after, handleMail]
    by_cases refused : (cfg.requireAuth && !c.session.authenticated) = true
    · rw [if_pos refused]
      exact ⟨h.account, h.authenticated, h.sender, h.recipients, h.addressed, h.admitted⟩
    · rw [if_neg refused]
      refine ⟨h.account, h.authenticated, rfl, h.recipients, fun _ => Option.some_ne_none _,
        fun required _ => ?_⟩
      simpa [required] using refused
  | @rcpt address addr =>
    simp only [Connection.after, handleRcpt]
    have named : c.envelope.mailFrom ≠ none := by
      rw [h.sender]
      exact Option.isSome_iff_ne_none.mp (guarded address addr rfl)
    by_cases good : '@' ∈ addr.toList
    · rw [if_pos good]
      exact ⟨h.account, h.authenticated, h.sender, congrArg (· ++ [address]) h.recipients,
        fun _ => named, h.admitted⟩
    · rw [if_neg good]
      exact ⟨h.account, h.authenticated, h.sender, h.recipients, h.addressed, h.admitted⟩
  | data => exact ⟨h.account, h.authenticated, h.sender, h.recipients, h.addressed, h.admitted⟩

theorem Confirmed.talk {c c' : Connection} {xs : List Exchange} {history : List Exchange}
    (h : Confirmed cfg c history) (ht : Talk cfg networks serverName c xs c')
    (guarded : ∀ pre x post address addr, xs = pre ++ x :: post → x.call = .rcpt address addr →
      (senderOf (pre.reverse ++ history)).isSome = true) :
    Confirmed cfg c' (xs.reverse ++ history) := by
  induction ht generalizing history with
  | nil => exact h
  | @cons c c' x xs hx _ ih =>
    have next := h.step hx fun address addr => guarded [] x xs address addr rfl
    have rest := ih next fun pre y post address addr heq hcall => by
      simpa using guarded (x :: pre) y post address addr (by rw [heq]; rfl) hcall
    simpa using rest

variable (cfg) in
/-- A new connection has been told nothing. -/
theorem confirmed_new (peer : Peer) : Confirmed cfg ⟨{ peer := peer }, {}⟩ [] :=
  ⟨rfl, rfl, rfl, rfl, fun named => absurd rfl named, fun _ named => absurd rfl named⟩

/-! ### What is stored -/

/-- A row that is stored is made of the session and the envelope, and the reply names its id. -/
theorem stored_of_path {session : Session} {envelope : Envelope} {evs : Events}
    {r : Except Exc Reply} {row : Message}
    {id : ℕ} (h : (handleData cfg session envelope).Path evs r)
    (stored : (⟨.commit .handleData [.insertMessage row], .ok id⟩ : Σ o : Op, o.Ans) ∈ evs) :
    (∃ subject msgId path now, row = newRow session envelope subject msgId path now) ∧
      r = .ok ⟨250, "2.0.0 Message accepted for delivery (queued as " ++ toString id ++ ")"⟩ := by
  obtain ⟨some_rcpt, fits⟩ := taken_of_path h (.inl ⟨row, id, stored⟩)
  rw [handleData_eq some_rcpt fits] at h
  have unread : ∀ {name : String} {value : Except Exc (Option String)} {heads : Events},
      (headerText envelope.content name).Path heads value →
        (⟨.commit .handleData [.insertMessage row], .ok id⟩ : Σ o : Op, o.Ans) ∉ heads := by
    intro name value heads hp
    obtain ⟨v, rfl, -⟩ := headerText_path hp
    simp
  rcases path_bind.mp h with ⟨e, -, he⟩ | ⟨first, subject, rest, rfl, hsubject, hrest⟩
  · exact absurd stored (unread he)
  replace stored := (List.mem_append.mp stored).resolve_left (unread hsubject)
  rcases path_bind.mp hrest with ⟨e, -, he⟩ | ⟨second, msgId, tail, rfl, hmsgId, hstore⟩
  · exact absurd stored (unread he)
  replace stored := (List.mem_append.mp stored).resolve_left (unread hmsgId)
  obtain ⟨path, _, rfl, hstore⟩ := hstore
  obtain ⟨now, _, rfl, hstore⟩ := hstore
  simp only [ret_bind, bind_eq] at hstore
  obtain ⟨sent, _, rfl, hstore⟩ := hstore
  have failed : ∀ {e : Exc} {heads : Events}, (answer path (.error e)).Path heads r →
      (⟨.commit .handleData [.insertMessage row], .ok id⟩ : Σ o : Op, o.Ans) ∉ heads := by
    intro e heads hp
    by_cases cancelled : e = .cancelledError
    · subst cancelled
      obtain ⟨rfl, -⟩ := hp
      exact List.not_mem_nil
    · obtain ⟨rfl, -⟩ := answer_refused cancelled hp
      simp
  have later : ∀ {o : Op} {a : o.Ans} {evs : Events}, (∀ ss, o ≠ .commit .handleData ss) →
      (⟨.commit .handleData [.insertMessage row], .ok id⟩ : Σ o : Op, o.Ans) ∈ ⟨o, a⟩ :: evs →
        (⟨.commit .handleData [.insertMessage row], .ok id⟩ : Σ o : Op, o.Ans) ∈ evs := by
    intro o a evs ho hm
    rcases List.mem_cons.mp hm with same | hm
    · cases same
      exact absurd rfl (ho _)
    · exact hm
  replace stored := later (fun _ h => (by cases h)) (later (fun _ h => (by cases h)) stored)
  cases sent with
  | error e => exact absurd (later (fun _ h => (by cases h)) stored) (failed hstore)
  | ok _ =>
    obtain ⟨committed, _, rfl, hstore⟩ := hstore
    replace stored := later (fun _ h => (by cases h)) stored
    cases committed with
    | error e =>
      rcases List.mem_cons.mp stored with same | stored
      · cases same
      · exact absurd stored (failed hstore)
    | ok id' =>
      obtain ⟨_, _, rfl, rfl, rfl⟩ := hstore
      rcases List.mem_cons.mp stored with same | stored
      · cases same
        exact ⟨⟨subject, msgId, path, now, rfl⟩, rfl⟩
      · simp at stored

/-- A row says what the replies have confirmed, and who is named in it has authenticated. -/
structure AsAnswered (cfg : IngressConfig) (decode : Bytes → String) (H : Hasher)
    (before : List Exchange) (x : Exchange) (row : Message) (id : ℕ) : Prop where
  /-- It is stored by a `handle_DATA` of an admitted size, whose reply names it. -/
  content : ∃ content, x.call = .data content ∧ row.size = content.length ∧
    content.length ≤ (cfg.maxMessageBytes : ℕ)
  reply : x.outcome =
    .ok [⟨250, "2.0.0 Message accepted for delivery (queued as " ++ toString id ++ ")"⟩]
  sender : senderOf before = some row.fromAddr
  recipients : row.rcptTo = recipientsOf before ∧ row.rcptTo ≠ []
  account : row.submittingAccount = accountOf before
  required : cfg.requireAuth = true → row.submittingAccount ≠ none
  /-- The account was named by a login, and enabled, and the password was right. -/
  authentic : ∀ account, row.submittingAccount = some account →
    ∃ y ∈ before, y.call = .authenticated account ∧
      ∃ (store : Accounts.State H) (login password : Bytes), decode login = account ∧
        Good store account (decode password)

theorem exists_of_accountOf {history : List Exchange} {account : String}
    (h : accountOf history = some account) : ∃ y ∈ history, y.call = .authenticated account := by
  induction history with
  | nil => cases h
  | cons x xs ih =>
    unfold accountOf at h
    split at h
    · cases h
      exact ⟨x, List.mem_cons_self, by assumption⟩
    · obtain ⟨y, hy, hcall⟩ := ih h
      exact ⟨y, List.mem_cons_of_mem _ hy, hcall⟩

namespace Example

open Accounts.Example (plainHasher)

/-- One byte, one character. -/
def latin1 (bs : Bytes) : String := String.ofList (bs.map fun b => Char.ofNat b.toNat)

/-- The snapshot of one account, `app` with the password `pw`. -/
def oneApp : Accounts.State plainHasher where
  rows := fun _ => none
  ids := []
  byName name := if name = "app" then some ⟨1, ("pw", 1), true⟩ else none

/-- A peer authenticates as `app` and sends a message; of its two recipients the first is
refused. -/
def submitted : List Exchange :=
  [{ call := .newEnvelope },
    { call := .ehlo "app.example.com" [⟨250, "HELP"⟩], outcome := .ok [⟨250, "HELP"⟩] },
    { call := .authenticated "app" },
    { call := .mail "a@example.com", outcome := .ok [⟨250, "OK"⟩] },
    { call := .rcpt "b" "b", outcome := .ok [⟨550, "5.1.3 Bad recipient address syntax"⟩] },
    { call := .rcpt "b@example.org" "b@example.org", outcome := .ok [⟨250, "OK"⟩] }]

/-- What is left of that in the session and the envelope. -/
def connected : Connection where
  session :=
    { peer := none
      hostName := some "app.example.com"
      authenticated := true
      authData := some "app" }
  envelope :=
    { mailFrom := some "a@example.com"
      rcptTos := ["b@example.org"] }

theorem submitted_talk : Talk {} [] "switch" ⟨{ peer := none }, {}⟩ submitted connected :=
  .cons .newEnvelope <| .cons .ehlo <| .cons .authenticated <| .cons .mail <| .cons .rcpt <|
    .cons .rcpt .nil

/-- Both `RCPT`s come after the `MAIL`. -/
theorem submitted_guarded (x : Exchange) (hx : ∀ address addr, x.call ≠ .rcpt address addr) :
    RcptAfterMail (submitted ++ [x]) := by
  intro pre y post address addr heq hcall
  match pre with
  | [] | [_] | [_, _] | [_, _, _] =>
    cases heq
    cases hcall
  | [_, _, _, _] | [_, _, _, _, _] =>
    cases heq
    rfl
  | [_, _, _, _, _, _] =>
    cases heq
    exact absurd hcall (hx address addr)
  | _ :: _ :: _ :: _ :: _ :: _ :: _ :: _ => simp [submitted] at heq

end Example

end SmtpSwitch.Submission
