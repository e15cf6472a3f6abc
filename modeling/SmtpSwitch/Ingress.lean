import SmtpSwitch.Act

/-!
# The ingress server

The hooks of `ingress/server.py` that aiosmtpd calls, and the source-IP check of
`ingress/auth.py`. The hooks for `HELO`, `EHLO`, `MAIL` and `RCPT` only change
the session or the envelope; `handle_DATA` spools the message, inserts its row and
answers `250`.
-/

namespace SmtpSwitch

open Coop Coop.Prog

/-- A reply: the code and the text after it. -/
structure Reply where
  code : ℕ
  text : String
  deriving DecidableEq

/-! ### The allowlist -/

/-- `ipaddress.ip_address`. -/
inductive IpAddress where
  | v4 (n : ℕ)
  | v6 (n : ℕ)
  deriving DecidableEq

/-- `ipaddress.ip_network`: an address and the length of its prefix. -/
structure IpNetwork where
  base : IpAddress
  prefixLen : ℕ
  deriving DecidableEq

/-- `addr in net`: same version, and the same first `prefixLen` bits. -/
def IpNetwork.contains (net : IpNetwork) : IpAddress → Bool
  | .v4 n => match net.base with
    | .v4 b => n / 2 ^ (32 - net.prefixLen) = b / 2 ^ (32 - net.prefixLen)
    | .v6 _ => false
  | .v6 n => match net.base with
    | .v6 b => n / 2 ^ (128 - net.prefixLen) = b / 2 ^ (128 - net.prefixLen)
    | .v4 _ => false

/-- `addr.ipv4_mapped or addr`: `::ffff:a.b.c.d` is `a.b.c.d`. -/
def IpAddress.unmapped : IpAddress → IpAddress
  | .v6 n => if n / 2 ^ 32 = 0xffff then .v4 (n % 2 ^ 32) else .v6 n
  | .v4 n => .v4 n

/-- `session.peer`: its address as `ipaddress.ip_address` parses it, `none` where it raises
`ValueError`, or where there is no peer. -/
abbrev Peer := Option IpAddress

/-- `peer_allowed`. -/
def peerAllowed (peer : Peer) (networks : List IpNetwork) : Bool :=
  if networks = [] then true
  else
    match peer with
    | none => false
    | some addr => networks.any fun net => net.contains addr.unmapped

/-! ### Session and envelope -/

/-- The part of an aiosmtpd `Session` the hooks use. -/
structure Session where
  peer : Peer
  hostName : Option String := none
  authenticated : Bool := false
  authData : Option String := none
  deriving DecidableEq

/-- The part of an aiosmtpd `Envelope` the hooks use; a content that was not set is `b""`. -/
structure Envelope where
  mailFrom : Option String := none
  rcptTos : List String := []
  content : Bytes := []
  deriving DecidableEq

/-! ### The hooks -/

/-- `_reject_peer`. -/
def rejectPeer (networks : List IpNetwork) (session : Session) : Option Reply :=
  if peerAllowed session.peer networks then none else some ⟨550, "5.7.1 Access denied"⟩

/-- `handle_EHLO`: the session after it and the replies. -/
def handleEhlo (networks : List IpNetwork) (session : Session) (hostname : String)
    (responses : List Reply) : Session × List Reply :=
  let session := { session with hostName := some hostname }
  match rejectPeer networks session with
  | some rejection => (session, [rejection])
  | none => (session, responses)

/-- `handle_HELO`. -/
def handleHelo (networks : List IpNetwork) (serverName : String) (session : Session)
    (hostname : String) : Session × Reply :=
  let session := { session with hostName := some hostname }
  match rejectPeer networks session with
  | some rejection => (session, rejection)
  | none => (session, ⟨250, serverName⟩)

/-- `handle_MAIL`. -/
def handleMail (cfg : IngressConfig) (session : Session) (envelope : Envelope) (address : String) :
    Envelope × Reply :=
  if cfg.requireAuth && !session.authenticated then
    (envelope, ⟨530, "5.7.0 Authentication required"⟩)
  else ({ envelope with mailFrom := some address }, ⟨250, "OK"⟩)

/-- `handle_RCPT`; `addr` is what `parseaddr` makes of the address. -/
def handleRcpt (envelope : Envelope) (address addr : String) : Envelope × Reply :=
  if '@' ∈ addr.toList then
    ({ envelope with rcptTos := envelope.rcptTos ++ [address] }, ⟨250, "OK"⟩)
  else (envelope, ⟨550, "5.1.3 Bad recipient address syntax"⟩)

/-- `(headers.get(name) or "").strip()[:512] or None`. -/
def headerText (content : Bytes) (name : String) : Act (Option String) := do
  match ← perform (.header content name) with
  | .absent => return none
  | .str s => return orNone (truncate 512 (strip s))
  | .header => .raise .attributeError

/-- `handle_DATA`. -/
def handleData (cfg : IngressConfig) (session : Session) (envelope : Envelope) : Act Reply := do
  let content := envelope.content
  if envelope.rcptTos = [] then return ⟨554, "5.5.1 No valid recipients"⟩
  else if (cfg.maxMessageBytes : ℕ) < content.length then
    return ⟨552, "5.3.4 Message exceeds size limit (" ++ toString (cfg.maxMessageBytes : ℕ) ++
      " bytes)"⟩
  else
    let subject ← headerText content "Subject"
    let msgId ← headerText content "Message-ID"
    let spoolPath ← perform (.spoolWrite content)
    let now ← perform .utcnow
    let row : Message :=
      { id := 0, receivedAt := now, submittingAccount := session.authData,
        fromAddr := envelope.mailFrom.getD "", rcptTo := envelope.rcptTos, subject := subject,
        messageIdHeader := msgId, size := content.length, spoolPath := spoolPath,
        status := .queued, nextAttemptAt := now }
    let stored ← Prog.attempt do
      flush .handleData
      commit .handleData [.insertMessage row]
    match stored with
    | .error .cancelledError => .raise .cancelledError
    | .error _ =>
      perform (.spoolDelete spoolPath)
      return ⟨451, "4.3.0 Temporary failure storing message"⟩
    | .ok id =>
      perform .notify
      return ⟨250, "2.0.0 Message accepted for delivery (queued as " ++ toString id ++ ")"⟩

theorem uses_headerText (content : Bytes) (name : String) :
    (headerText content name).Uses Op.ofOthers :=
  (uses_perform trivial).bind fun v => by cases v <;> trivial

theorem uses_handleData (cfg : IngressConfig) (session : Session) (envelope : Envelope) :
    (handleData cfg session envelope).Uses Op.ofOthers := by
  unfold handleData
  simp only
  split
  · trivial
  split
  · trivial
  refine (uses_headerText _ _).bind fun _ => (uses_headerText _ _).bind fun _ =>
    (uses_perform trivial).bind fun _ => (uses_perform trivial).bind fun _ =>
      ((uses_flush (by rfl)).bind fun _ =>
        uses_commit (by simp [Op.ofOthers, Stmt.table, Site.plain])).attempt.bind
        fun stored => ?_
  split
  · trivial
  · exact ⟨trivial, fun _ => trivial⟩
  · exact ⟨trivial, fun _ => trivial⟩

end SmtpSwitch
