import SmtpSwitch.Ingress

/-!
# A session of a peer outside the allowlist

The hooks of `ingress/server.py` composed over a whole SMTP session. A session is
stated as the calls that aiosmtpd makes of them: which command of the peer leads to
which call is the library's business and left open, so that what is said here is
said of every order of calls. Of the library only what the hooks
share is relied on: all calls of a session get its one `Session`, where the
library notes a successful authentication; they get the same `Envelope` until the
library starts a new one; and the reply of a hook is only sent, whatever it is.

The source address is looked at by the greetings only, after they have set
`host_name`; nothing later depends on it. So a message of a blocked peer is taken by
exactly the calls that would take it from any peer (`Transaction`).
-/

namespace SmtpSwitch.Allowlist

open Coop Coop.Prog

/-- What the library does with the session, the envelope and the hooks. -/
inductive Call where
  /-- `session.envelope` is replaced by a new `Envelope`. -/
  | newEnvelope
  /-- The authenticator's result was a success with this `auth_data`, noted in the session. -/
  | authenticated (account : String)
  /-- `handle_HELO`. -/
  | helo (hostname : String)
  /-- `handle_EHLO`, with the replies the library has prepared. -/
  | ehlo (hostname : String) (responses : List Reply)
  /-- `handle_MAIL`. -/
  | mail (address : String)
  /-- `handle_RCPT`; `addr` is what `parseaddr` makes of the address. -/
  | rcpt (address addr : String)
  /-- `handle_DATA`, with this content set in the envelope. -/
  | data (content : Bytes)
  deriving DecidableEq

/-- What the calls share. -/
structure Connection where
  session : Session
  envelope : Envelope := {}
  deriving DecidableEq

/-- The database has taken a message. -/
def Stored (evs : Events) : Prop :=
  ∃ row id, (⟨.commit .handleData [.insertMessage row], .ok id⟩ : Σ o : Op, o.Ans) ∈ evs

/-- A call, what the hook has done with the outside, and the replies it has returned or the
exception it has raised. -/
structure Exchange where
  call : Call
  evs : Events := []
  outcome : Except Exc (List Reply) := .ok []

variable (cfg : IngressConfig) (networks : List IpNetwork) (serverName : String)

/-- The session and the envelope after a call. -/
def Connection.after (c : Connection) : Call → Connection
  | .newEnvelope => { c with envelope := {} }
  | .authenticated account =>
    { c with session := { c.session with authenticated := true, authData := some account } }
  | .helo hostname => { c with session := (handleHelo networks serverName c.session hostname).1 }
  | .ehlo hostname responses =>
    { c with session := (handleEhlo networks c.session hostname responses).1 }
  | .mail address => { c with envelope := (handleMail cfg c.session c.envelope address).1 }
  | .rcpt address addr => { c with envelope := (handleRcpt c.envelope address addr).1 }
  | .data content => { c with envelope := { c.envelope with content := content } }

/-- What may come of a call. -/
inductive Answers (c : Connection) : Exchange → Prop where
  | newEnvelope : Answers c { call := .newEnvelope }
  | authenticated {account : String} : Answers c { call := .authenticated account }
  | helo {hostname : String} : Answers c
      { call := .helo hostname
        outcome := .ok [(handleHelo networks serverName c.session hostname).2] }
  | ehlo {hostname : String} {responses : List Reply} : Answers c
      { call := .ehlo hostname responses
        outcome := .ok (handleEhlo networks c.session hostname responses).2 }
  | mail {address : String} : Answers c
      { call := .mail address
        outcome := .ok [(handleMail cfg c.session c.envelope address).2] }
  | rcpt {address addr : String} : Answers c
      { call := .rcpt address addr
        outcome := .ok [(handleRcpt c.envelope address addr).2] }
  | data {content : Bytes} {evs : Events} {r : Except Exc Reply} :
      (handleData cfg c.session { c.envelope with content := content }).Path evs r →
        Answers c { call := .data content, evs := evs, outcome := r.map fun reply => [reply] }

/-- A whole session: calls in order, and what came of them. -/
inductive Talk : Connection → List Exchange → Connection → Prop where
  | nil {c : Connection} : Talk c [] c
  | cons {c c' : Connection} {x : Exchange} {xs : List Exchange} :
      Answers cfg networks serverName c x →
        Talk (c.after cfg networks serverName x.call) xs c' → Talk c (x :: xs) c'

/-- No message was taken: no row was inserted, and no `handle_DATA` has returned a 250. -/
def Closed (xs : List Exchange) : Prop :=
  ∀ x ∈ xs, ¬ Stored x.evs ∧ ∀ content reply, x.call = .data content →
    x.outcome = .ok [reply] → reply.code ≠ 250

/-! ### Complete transactions -/

/-- The envelope has a recipient: a `handle_RCPT` with an `@` in the address since it was new. The
history is newest first. -/
def addressed : List Call → Bool
  | [] | .newEnvelope :: _ => false
  | .rcpt _ addr :: calls => '@' ∈ addr.toList || addressed calls
  | _ :: calls => addressed calls

/-- There is a `handle_DATA` of an admitted size on an envelope with a recipient. -/
def Transaction (calls : List Call) : Prop :=
  ∃ before content after, calls = before ++ .data content :: after ∧
    addressed before.reverse = true ∧ content.length ≤ (cfg.maxMessageBytes : ℕ)

/-! ### What the hooks do -/

variable {cfg networks serverName}

theorem handleHelo_session (s : Session) (h : String) :
    (handleHelo networks serverName s h).1 = { s with hostName := some h } := by
  unfold handleHelo
  dsimp only
  split <;> rfl

theorem handleEhlo_session (s : Session) (h : String) (responses : List Reply) :
    (handleEhlo networks s h responses).1 = { s with hostName := some h } := by
  unfold handleEhlo
  dsimp only
  split <;> rfl

/-- `handle_MAIL` leaves the recipients alone. -/
theorem handleMail_rcptTos (s : Session) (e : Envelope) (address : String) :
    (handleMail cfg s e address).1.rcptTos = e.rcptTos := by
  unfold handleMail
  split <;> rfl

/-- An envelope has recipients as the calls have given it, whoever the peer is. -/
theorem addressed_after {c : Connection} {history : List Call}
    (h : c.envelope.rcptTos ≠ [] ↔ addressed history = true) (call : Call) :
    (c.after cfg networks serverName call).envelope.rcptTos ≠ [] ↔
      addressed (call :: history) = true := by
  cases call with
  | newEnvelope => simp [Connection.after, addressed]
  | rcpt address addr =>
    simp only [Connection.after, addressed, handleRcpt]
    by_cases good : '@' ∈ addr.toList
    · simp [good]
    · simpa [good] using h
  | mail address => simpa only [Connection.after, addressed, handleMail_rcptTos] using h
  | authenticated | helo | ehlo | data => exact h

/-- A message is taken only with a recipient, and within the size limit. -/
theorem taken_of_path {s : Session} {e : Envelope} {evs : Events} {r : Except Exc Reply}
    (hp : (handleData cfg s e).Path evs r)
    (h : Stored evs ∨ ∃ reply, r = .ok reply ∧ reply.code = 250) :
    e.rcptTos ≠ [] ∧ e.content.length ≤ (cfg.maxMessageBytes : ℕ) := by
  unfold handleData at hp
  simp only at hp
  have nothing : ∀ {reply : Reply}, reply.code ≠ 250 → evs = [] → r = .ok reply → False := by
    rintro reply hr rfl rfl
    rcases h with ⟨row, id, hm⟩ | ⟨reply', h', hc⟩
    · cases hm
    · cases h'
      exact hr hc
  by_cases hr : e.rcptTos = []
  · rw [if_pos hr] at hp
    exact absurd (nothing (by decide) hp.1 hp.2) id
  rw [if_neg hr] at hp
  by_cases hsize : (cfg.maxMessageBytes : ℕ) < e.content.length
  · rw [if_pos hsize] at hp
    exact (nothing (by simp) hp.1 hp.2).elim
  · exact ⟨hr, Nat.le_of_not_lt hsize⟩

variable (cfg) in
/-- With a recipient and within the size limit a message can be taken. -/
theorem exists_path_taken (s : Session) {e : Envelope} (hr : e.rcptTos ≠ [])
    (hs : e.content.length ≤ (cfg.maxMessageBytes : ℕ)) :
    ∃ evs reply, (handleData cfg s e).Path evs (.ok reply) ∧ reply.code = 250 := by
  unfold handleData
  simp only
  rw [if_neg hr, if_neg (Nat.not_lt.mpr hs)]
  exact ⟨_, _, ⟨.absent, _, rfl, .absent, _, rfl, "spool", _, rfl, 0, _, rfl, .ok (), _, rfl,
    .ok 1, _, rfl, (), _, rfl, rfl, rfl⟩, rfl⟩

variable (cfg) in
/-- `handle_DATA` has an outcome. -/
theorem exists_path (s : Session) (e : Envelope) :
    ∃ evs reply, (handleData cfg s e).Path evs (.ok reply) := by
  by_cases hr : e.rcptTos = []
  · unfold handleData
    simp only
    rw [if_pos hr]
    exact ⟨_, _, rfl, rfl⟩
  by_cases hs : e.content.length ≤ (cfg.maxMessageBytes : ℕ)
  · obtain ⟨evs, reply, hp, _⟩ := exists_path_taken cfg s hr hs
    exact ⟨evs, reply, hp⟩
  · unfold handleData
    simp only
    rw [if_neg hr, if_pos (Nat.lt_of_not_le hs)]
    exact ⟨_, _, rfl, rfl⟩

/-- An exchange takes a message. -/
def Taken (x : Exchange) : Prop :=
  Stored x.evs ∨ ∃ content reply, x.call = .data content ∧ x.outcome = .ok [reply] ∧
    reply.code = 250

theorem closed_iff_not_taken {xs : List Exchange} : Closed xs ↔ ∀ x ∈ xs, ¬ Taken x := by
  constructor
  · rintro closed x hx (stored | ⟨content, reply, hcall, hr, hcode⟩)
    · exact (closed x hx).1 stored
    · exact (closed x hx).2 content reply hcall hr hcode
  · intro untaken x hx
    exact ⟨fun stored => untaken x hx (.inl stored),
      fun content reply hcall hr hcode => untaken x hx (.inr ⟨content, reply, hcall, hr, hcode⟩)⟩

/-- A message is taken by `handle_DATA`, with a recipient and within the size limit. -/
theorem data_of_taken {c : Connection} {x : Exchange} (hx : Answers cfg networks serverName c x)
    (taken : Taken x) :
    ∃ content, x.call = .data content ∧ c.envelope.rcptTos ≠ [] ∧
      content.length ≤ (cfg.maxMessageBytes : ℕ) := by
  have nothing : ¬ Stored [] := by
    rintro ⟨_, _, hm⟩
    cases hm
  cases hx with
  | @data content evs r hp =>
    refine ⟨content, rfl, taken_of_path hp (taken.imp_right ?_)⟩
    rintro ⟨_, reply, -, hr, hcode⟩
    cases r with
    | error e => cases hr
    | ok _ =>
      cases hr
      exact ⟨_, rfl, hcode⟩
  | _ =>
    rcases taken with stored | ⟨_, _, hcall, _⟩
    · exact absurd stored nothing
    · cases hcall

variable (cfg networks serverName) in
/-- Every call returns. -/
theorem exists_answers (c : Connection) (call : Call) :
    ∃ x, Answers cfg networks serverName c x ∧ x.call = call := by
  cases call with
  | newEnvelope => exact ⟨_, .newEnvelope, rfl⟩
  | authenticated account => exact ⟨_, .authenticated, rfl⟩
  | helo hostname => exact ⟨_, .helo, rfl⟩
  | ehlo hostname responses => exact ⟨_, .ehlo, rfl⟩
  | mail address => exact ⟨_, .mail, rfl⟩
  | rcpt address addr => exact ⟨_, .rcpt, rfl⟩
  | data content =>
    obtain ⟨evs, reply, hp⟩ := exists_path cfg c.session { c.envelope with content := content }
    exact ⟨_, .data hp, rfl⟩

variable (cfg networks serverName) in
/-- Every sequence of calls can be made. -/
theorem exists_talk (calls : List Call) (c : Connection) :
    ∃ xs c', Talk cfg networks serverName c xs c' ∧ xs.map Exchange.call = calls := by
  induction calls generalizing c with
  | nil => exact ⟨[], c, .nil, rfl⟩
  | cons call calls ih =>
    obtain ⟨x, hx, rfl⟩ := exists_answers cfg networks serverName c call
    obtain ⟨xs, c', ht, rfl⟩ := ih (c.after cfg networks serverName x.call)
    exact ⟨x :: xs, c', .cons hx ht, rfl⟩

theorem Talk.append {c c' c'' : Connection} {xs ys : List Exchange}
    (hx : Talk cfg networks serverName c xs c') (hy : Talk cfg networks serverName c' ys c'') :
    Talk cfg networks serverName c (xs ++ ys) c'' := by
  induction hx with
  | nil => exact hy
  | cons hs _ ih => exact .cons hs (ih hy)

/-- A session up to one of its calls. -/
theorem Talk.split {c c' : Connection} {pre post : List Exchange} {x : Exchange}
    (ht : Talk cfg networks serverName c (pre ++ x :: post) c') :
    ∃ c₁, Talk cfg networks serverName c pre c₁ ∧ Answers cfg networks serverName c₁ x := by
  induction pre generalizing c with
  | nil =>
    cases ht with
    | cons hx _ => exact ⟨c, .nil, hx⟩
  | cons y pre ih =>
    cases ht with
    | cons hy ht =>
      obtain ⟨c₁, before, hx⟩ := ih ht
      exact ⟨c₁, .cons hy before, hx⟩

/-- A session leaves the envelope as its calls have it. -/
theorem Talk.addressed {c c' : Connection} {xs : List Exchange} {history : List Call}
    (ht : Talk cfg networks serverName c xs c')
    (h : c.envelope.rcptTos ≠ [] ↔ addressed history = true) :
    c'.envelope.rcptTos ≠ [] ↔
      Allowlist.addressed ((xs.map Exchange.call).reverse ++ history) = true := by
  induction ht generalizing history with
  | nil => exact h
  | cons hx ht ih => simpa using ih (addressed_after h _)

/-- The envelope of a new connection, after some calls. -/
theorem Talk.addressed_new {peer : Peer} {c : Connection} {xs : List Exchange}
    (ht : Talk cfg networks serverName ⟨{ peer := peer }, {}⟩ xs c) :
    c.envelope.rcptTos ≠ [] ↔ Allowlist.addressed (xs.map Exchange.call).reverse = true := by
  have start : ({} : Envelope).rcptTos ≠ [] ↔ Allowlist.addressed [] = true := by
    simp [Allowlist.addressed]
  simpa using ht.addressed start

/-- **The allowlist does not close the session of a blocked peer.** Whoever the peer is and
whatever networks are allowed, every session with these calls takes no message exactly when there
is no complete transaction among them. -/
theorem closed_iff_no_transaction (peer : Peer) (calls : List Call) :
    (∀ xs c, Talk cfg networks serverName ⟨{ peer := peer }, {}⟩ xs c →
      xs.map Exchange.call = calls → Closed xs) ↔ ¬ Transaction cfg calls := by
  constructor
  · rintro closed ⟨before, content, after, rfl, hr, hsize⟩
    obtain ⟨xs, c, hx, rfl⟩ := exists_talk cfg networks serverName before ⟨{ peer := peer }, {}⟩
    obtain ⟨evs, reply, hp, hcode⟩ := exists_path_taken cfg c.session
      (e := { c.envelope with content := content }) (hx.addressed_new.mpr hr) hsize
    obtain ⟨ys, c', hy, rfl⟩ := exists_talk cfg networks serverName after
      (c.after cfg networks serverName (.data content))
    have whole := hx.append (.cons (.data hp) hy)
    have untaken := closed _ _ whole (by rw [List.map_append, List.map_cons])
    have returned := (untaken _ (List.mem_append_right _ List.mem_cons_self)).2
    exact returned content reply rfl rfl hcode
  · rintro none_complete xs c ht rfl
    rw [closed_iff_not_taken]
    intro x hx taken
    obtain ⟨pre, post, rfl⟩ := List.append_of_mem hx
    obtain ⟨c₁, before, hanswers⟩ := ht.split
    obtain ⟨content, hcall, hr, hsize⟩ := data_of_taken hanswers taken
    refine none_complete ⟨pre.map Exchange.call, content, post.map Exchange.call, ?_,
      before.addressed_new.mp hr, hsize⟩
    rw [List.map_append, List.map_cons, hcall]

/-! ### A blocked peer -/

namespace Example

/-- `10.0.0.0/8`. -/
def allowed : List IpNetwork := [⟨.v4 0x0a000000, 8⟩]

/-- `203.0.113.5`. -/
def blocked : IpAddress := .v4 0xcb007105

/-- The library's own checks before a call, as its replies name them: a greeting gets a new
envelope, only who has greeted can authenticate, once, or call `MAIL`, which must not be nested,
`RCPT` needs `MAIL`, and `DATA` needs `RCPT`. -/
def Admitted (c : Connection) : Call → Bool
  | .newEnvelope => true
  | .helo _ | .ehlo _ _ => c.envelope = {}
  | .authenticated _ => c.session.hostName.isSome && !c.session.authenticated
  | .mail _ => c.session.hostName.isSome && c.envelope.mailFrom.isNone
  | .rcpt _ _ => c.envelope.mailFrom.isSome
  | .data _ => c.envelope.rcptTos ≠ []

/-- The checks all through a session. -/
def AdmittedAll (cfg : IngressConfig) (networks : List IpNetwork) (serverName : String)
    (c : Connection) : List Call → Bool
  | [] => true
  | call :: calls =>
    Admitted c call &&
      AdmittedAll cfg networks serverName (c.after cfg networks serverName call) calls

/-- `EHLO`, `AUTH`, `MAIL`, `RCPT`, `DATA`. -/
def calls : List Call :=
  [.newEnvelope, .ehlo "mail.example.com" [⟨250, "HELP"⟩], .authenticated "app",
    .mail "a@example.com", .rcpt "b@example.org" "b@example.org", .data [104, 105], .newEnvelope]

/-- The peer is refused at its greeting. Its message is taken all the same, though the library has
checked every call. -/
theorem blocked_taken : ¬ ∀ (cfg : IngressConfig) (networks : List IpNetwork)
    (serverName : String) (addr : IpAddress), networks ≠ [] →
    (∀ net ∈ networks, net.contains addr.unmapped = false) →
    ∀ xs c, Talk cfg networks serverName ⟨{ peer := some addr }, {}⟩ xs c →
      AdmittedAll cfg networks serverName ⟨{ peer := some addr }, {}⟩ (xs.map Exchange.call) →
      Closed xs := by
  intro closed
  have complete : Transaction {} calls :=
    ⟨calls.take 5, [104, 105], [.newEnvelope], rfl, by decide, by decide⟩
  refine (@closed_iff_no_transaction {} allowed "switch" (some blocked) calls).mp ?_ complete
  intro xs c ht hcalls
  refine closed {} allowed "switch" blocked (by decide) (by decide) xs c ht ?_
  rw [hcalls]
  decide

end Example

end SmtpSwitch.Allowlist
