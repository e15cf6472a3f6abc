import SmtpSwitch.Act

/-!
# The outbound relay

`dispatch/sender.py`: one message handed to one provider, and what came of it,
classified. The `except` clauses are tried in the order of the source; their
classes overlap, so the order matters (`classify`).
-/

namespace SmtpSwitch

open Coop Coop.Prog

/-- `RelayResult`. -/
structure RelayResult where
  classification : Classification
  smtpCode : Option ℤ
  detail : String
  reachedProvider : Bool
  refusedRecipients : Option (List (String × String)) := none
  deriving DecidableEq

/-- `RelayResult.ok`. -/
def RelayResult.ok (r : RelayResult) : Bool := r.classification = .sent

/-- `_classify_code`. -/
def classifyCode : Option ℤ → Classification
  | none => .transient
  | some code =>
    if 200 ≤ code ∧ code < 300 then .sent
    else if 400 ≤ code ∧ code < 500 then .transient
    else .permanent

/-- `str(exc)`. -/
def SmtpError.text : SmtpError → String
  | .connect t | .connectTimeout t | .connectResponse _ t | .serverDisconnected t | .timeout t
  | .authentication _ t | .response _ t | .other t => t
  | .recipientsRefused _ => "recipients refused"

/-- An instance of `SMTPConnectError`, `SMTPConnectTimeoutError` or `SMTPServerDisconnected`. -/
def SmtpError.isConnectError : SmtpError → Bool
  | .connect _ | .connectTimeout _ | .connectResponse _ _ | .serverDisconnected _ => true
  | _ => false

/-- `d[key] = value`: a key that is there keeps its place. -/
def setItem (d : List (String × String)) (key value : String) : List (String × String) :=
  if key ∈ d.map Prod.fst then d.map fun e => if e.1 = key then (key, value) else e
  else d ++ [(key, value)]

/-- `refused_map`, of the recipients of `SMTPRecipientsRefused`. -/
def refusedMap (rs : List Refusal) : List (String × String) :=
  rs.foldl (fun d r => setItem d r.recipient (strip (toString r.code ++ " " ++ r.message))) []

/-- `_format_refused`; the keys of its argument are distinct. -/
def formatRefused (rs : List Refusal) : List (String × String) :=
  rs.map fun r =>
    let text := if r.message = "" then r.text else r.message
    (r.recipient, strip (toString r.code ++ " " ++ text))

/-- `max(codes) if codes else 550`. -/
def worstCode : List ℤ → ℤ
  | [] => 550
  | c :: cs => cs.foldl max c

/-- The `except` clauses of `relay`, in order. -/
def classify (e : SmtpError) : RelayResult :=
  if e.isConnectError then ⟨.connectError, none, e.text, false, none⟩
  else
    match e with
    | .timeout t => ⟨.transient, none, t, true, none⟩
    | .authentication code t => ⟨.transient, some code, t, true, none⟩
    | .recipientsRefused rs =>
      let worst := worstCode (rs.map Refusal.code)
      ⟨classifyCode (some worst), some worst, "all recipients refused", true, some (refusedMap rs)⟩
    | .response code t => ⟨classifyCode (some code), some code, t, true, none⟩
    | e => ⟨.transient, none, e.text, true, none⟩

/-- The result of a relay whose `send` has returned. -/
def delivered (errors : List Refusal) (response : String) : RelayResult :=
  ⟨.sent, some 250, truncate 500 response, true,
    if errors = [] then none else some (formatRefused errors)⟩

/-- The keyword arguments for `aiosmtplib.send`. -/
def sendKwargs (smtp : ProviderSMTP) : SendKwargs :=
  { hostname := smtp.host
    port := smtp.port
    timeout := smtp.timeoutSeconds
    validateCerts := smtp.verifyCert
    useTls := if smtp.tls then some true else none
    startTls := if smtp.tls then none else some smtp.starttls
    username := smtp.username.bind orNone
    password := (smtp.username.bind orNone).map fun _ => smtp.password.getD "" }

/-- The result of a relay from the outcome of `send`, if it is not another exception. -/
def resultOf : SendOutcome → Except Exc RelayResult
  | .returned errors response => .ok (delivered errors response)
  | .raised e => .ok (classify e)
  | .raisedOther e => .error e

theorem classifyCode_ne (code : Option ℤ) : classifyCode code ≠ .connectError := by
  unfold classifyCode
  repeat' split
  all_goals decide

/-- A relay counts as not having reached the provider exactly when the connection could not be made
or was lost. -/
theorem connectError_iff {out : SendOutcome} {r : RelayResult} (h : resultOf out = .ok r) :
    r.classification = .connectError ↔ ∃ e, out = .raised e ∧ e.isConnectError = true := by
  cases out with
  | returned errors response => cases h; simp [delivered]
  | raisedOther e => cases h
  | raised e =>
    cases h
    refine ⟨fun hk => ⟨e, rfl, ?_⟩, ?_⟩
    · by_contra hne
      revert hk
      unfold classify
      rw [if_neg hne]
      cases e <;> simp [classifyCode_ne]
    · rintro ⟨_, he, hk⟩
      cases he
      simp [classify, hk]

/-- `relay`. -/
def relay (provider : ProviderConfig) (mailFrom : String) (rcptTos : List String)
    (rawMessage : Bytes) (errand : Errand) : Act RelayResult := do
  let out ← perform (.send provider.name (sendKwargs provider.smtp) mailFrom rcptTos
      rawMessage errand)
  Prog.ofExcept (resultOf out)

end SmtpSwitch
