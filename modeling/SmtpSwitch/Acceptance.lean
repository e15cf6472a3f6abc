import SmtpSwitch.Coop.Alone
import SmtpSwitch.Ingress

/-!
# Accepting a message

`handle_DATA` changes two stores, the spool directory and the database. Both change or neither
does (`Atomic`) when the headers it looks into are text: a `Header` object has no `strip`, so a
message with raw non-ASCII bytes there raises before anything is stored, though `SMTPUTF8` is
advertised (`data_atomic_iff`). -/

namespace SmtpSwitch

open Coop Coop.Prog

/-! ### The surroundings -/

/-- How the database write ends. -/
inductive DbWrite where
  | succeeds
  /-- It fails when the row is sent. -/
  | failsToSend (e : Exc)
  /-- It fails when it is to be committed. -/
  | failsToCommit (e : Exc)

/-- The exception the write raises. -/
def DbWrite.failure : DbWrite → Option Exc
  | .succeeds => none
  | .failsToSend e | .failsToCommit e => some e

/-- What the surroundings choose: what the header parser gives, the name of the file, and how the
write ends. -/
def surroundings (parse : Bytes → String → HeaderValue) (path : String) (write : DbWrite) :
    Op → Choice
  | .header content name => .parsed (parse content name)
  | .spoolWrite _ => .name path
  | .flush _ => match write with
    | .failsToSend e => .fail e
    | _ => .ok
  | .commit _ _ => match write with
    | .failsToCommit e => .fail e
    | _ => .ok
  | _ => .ok

variable (cfg : Settings) (parse : Bytes → String → HeaderValue) (path : String) (write : DbWrite)

/-- An operation in these surroundings. -/
def surrounded (o : Op) (w : World) : Option (o.Ans × World) :=
  exec cfg 0 o (surroundings parse path write o) w

/-! ### What is to happen -/

/-- The row of a message just accepted, its content in this file. -/
structure RowFor (envelope : Envelope) (path : String) (row : Message) : Prop where
  status : row.status = .queued
  attempts : row.attempts = 0
  fromAddr : row.fromAddr = envelope.mailFrom.getD ""
  rcptTo : row.rcptTo = envelope.rcptTos
  spoolPath : row.spoolPath = path
  size : row.size = envelope.content.length

/-- The file and the row are stored together or not at all, and the answer says which. -/
inductive Atomic (envelope : Envelope) (path : String) (w : World) :
    Option Exc → Option (Except Exc Reply × World) → Prop where
  | accepted {row : Message} {reply : Reply} {w' : World} : reply.code = 250 →
      w'.db.messages = w.db.messages ++ [row] → (∀ m ∈ w.db.messages, m.id ≠ row.id) →
        RowFor envelope path row →
      w'.files = Function.update w.files path (some envelope.content) →
      Atomic envelope path w none (some (.ok reply, w'))
  | refused {e : Exc} {reply : Reply} {w' : World} : reply.code = 451 → w'.db = w.db →
      w'.files = w.files →
      Atomic envelope path w (some e) (some (.ok reply, w'))

theorem Atomic.returns {envelope : Envelope} {path : String} {w : World} {failure : Option Exc}
    {outcome : Option (Except Exc Reply × World)} (h : Atomic envelope path w failure outcome) :
    ∃ reply w', outcome = some (.ok reply, w') := by
  cases h <;> exact ⟨_, _, rfl⟩

/-- The parser gives text for the headers that are looked into, or nothing. -/
def TextHeaders (parse : Bytes → String → HeaderValue) (content : Bytes) : Prop :=
  parse content "Subject" ≠ .header ∧ parse content "Message-ID" ≠ .header

/-! ### What happens -/

variable {cfg parse path write} {w : World} {session : Session} {envelope : Envelope}

variable (cfg path write w) in
/-- A header that is text. -/
theorem alone_headerText {content : Bytes} {name : String} (text : parse content name ≠ .header) :
    ∃ value, (headerText content name).alone (surrounded cfg parse path write) w =
      some (.ok value, w) := by
  rw [headerText, bind_eq, perform, op_bind,
    alone_op _ (a := parse content name)
      (show surrounded cfg parse path write (.header content name) w = _ from rfl)]
  simp only [ret_bind]
  split
  · exact ⟨_, rfl⟩
  · exact ⟨_, rfl⟩
  · exact absurd ‹_› text

/-- One that is not. -/
theorem alone_headerText_header {content : Bytes} {name : String}
    (notText : parse content name = .header) :
    (headerText content name).alone (surrounded cfg parse path write) w =
      some (.error .attributeError, w) := by
  rw [headerText, bind_eq, perform, op_bind,
    alone_op _ (a := parse content name)
      (show surrounded cfg parse path write (.header content name) w = _ from rfl)]
  simp only [ret_bind, notText]
  rfl

/-! ### Once the headers have been read -/

/-- The row `handle_DATA` inserts. -/
def newRow (session : Session) (envelope : Envelope) (subject msgId : Option String) (path : String)
    (now : Time) :
    Message :=
  { id := 0, receivedAt := now, submittingAccount := session.authData,
    fromAddr := envelope.mailFrom.getD "",
    rcptTo := envelope.rcptTos, subject := subject, messageIdHeader := msgId, size :=
      envelope.content.length,
    spoolPath := path, status := .queued, nextAttemptAt := now }

/-- What `handle_DATA` makes of the end of the write. -/
def answer (spoolPath : String) : Except Exc ℕ → Act Reply
  | .error .cancelledError => .raise .cancelledError
  | .error _ => do
    perform (.spoolDelete spoolPath)
    return ⟨451, "4.3.0 Temporary failure storing message"⟩
  | .ok id => do
    perform .notify
    return ⟨250, "2.0.0 Message accepted for delivery (queued as " ++ toString id ++ ")"⟩

/-- `handle_DATA` from the file on. -/
def storeMessage (session : Session) (envelope : Envelope) (subject msgId : Option String) :
    Act Reply := do
  let spoolPath ← perform (.spoolWrite envelope.content)
  let now ← perform .utcnow
  let stored ← Prog.attempt do
    flush .handleData
    commit .handleData [.insertMessage (newRow session envelope subject msgId spoolPath now)]
  answer spoolPath stored

/-- A message with recipients that is not too large has its headers read, and is stored. -/
theorem handleData_eq {cfg : IngressConfig} (some_rcpt : envelope.rcptTos ≠ [])
    (fits : envelope.content.length ≤ (cfg.maxMessageBytes : ℕ)) :
    handleData cfg session envelope =
      (headerText envelope.content "Subject").bind fun subject =>
        (headerText envelope.content "Message-ID").bind fun msgId =>
          storeMessage session envelope subject msgId := by
  unfold handleData
  simp only [if_neg some_rcpt, if_neg (not_lt.mpr fits)]
  rfl

variable (cfg parse path write session envelope) in
/-- The write, and what is left of it. -/
theorem alone_storeMessage (new : path ∉ w.names) (subject msgId : Option String) :
    (storeMessage session envelope subject msgId).alone (surrounded cfg parse path write) w =
      match write.failure with
      | none => some (.ok ⟨250, "2.0.0 Message accepted for delivery (queued as " ++
            toString (nextId (w.db.messages.map Message.id)) ++ ")"⟩,
          { w with
            db := { w.db with messages := w.db.messages ++
              [{ newRow session envelope subject msgId path w.clock with
                id := nextId (w.db.messages.map Message.id) }] }
            files := Function.update w.files path (some envelope.content)
            names := path :: w.names
            wakeup := true })
      | some .cancelledError => some (.error .cancelledError,
          { w with
            files := Function.update w.files path (some envelope.content)
            names := path :: w.names })
      | some _ => some (.ok ⟨451, "4.3.0 Temporary failure storing message"⟩,
          { w with
            files := Function.update
              (Function.update w.files path (some envelope.content)) path none
            names := path :: w.names }) := by
  cases write with
  | succeeds =>
    simp [storeMessage, answer, perform, flush, SmtpSwitch.commit, attempt, alone, surrounded,
      surroundings, exec, new, DbWrite.failure, Prog.ofExcept, Db.execAll, Stmt.exec,
      Db.insertedId, Stmt.newId, newRow]
  | failsToSend e =>
    cases e <;> simp [storeMessage, answer, perform, flush, SmtpSwitch.commit, attempt, alone,
      surrounded, surroundings, exec, new, DbWrite.failure, Prog.ofExcept]
  | failsToCommit e =>
    cases e <;> simp [storeMessage, answer, perform, flush, SmtpSwitch.commit, attempt, alone,
      surrounded, surroundings, exec, new, DbWrite.failure, Prog.ofExcept]

/-- **Alone, a message whose headers are text is stored in both stores or in neither.** -/
theorem alone_handleData_iff (some_rcpt : envelope.rcptTos ≠ [])
    (fits : envelope.content.length ≤ (cfg.ingress.maxMessageBytes : ℕ)) (new : path ∉ w.names)
    (unused : w.files path = none) :
    Atomic envelope path w write.failure
        ((handleData cfg.ingress session envelope).alone (surrounded cfg parse path write) w) ↔
      TextHeaders parse envelope.content ∧ write.failure ≠ some .cancelledError := by
  have raises : ∀ {e : Exc} {w' : World}, ¬ Atomic envelope path w write.failure
      (some (.error e, w')) := fun h => by
    obtain ⟨_, _, heq⟩ := h.returns
    cases heq
  rw [handleData_eq some_rcpt fits, alone_bind]
  by_cases subjectText : parse envelope.content "Subject" = .header
  · rw [alone_headerText_header subjectText]
    exact iff_of_false raises fun h => h.1.1 subjectText
  obtain ⟨subject, hsubject⟩ := alone_headerText cfg path write w subjectText
  rw [hsubject, Option.bind_some]
  simp only
  rw [alone_bind]
  by_cases idText : parse envelope.content "Message-ID" = .header
  · rw [alone_headerText_header idText]
    exact iff_of_false raises fun h => h.1.2 idText
  obtain ⟨msgId, hmsgId⟩ := alone_headerText cfg path write w idText
  rw [hmsgId, Option.bind_some]
  simp only
  rw [alone_storeMessage cfg parse path write session envelope new]
  cases hw : write.failure with
  | none =>
    refine iff_of_true (.accepted rfl rfl (fun m hm => ?_) ⟨rfl, rfl, rfl, rfl, rfl, rfl⟩ rfl)
      ⟨⟨subjectText, idText⟩, by simp⟩
    exact (lt_nextId (List.mem_map_of_mem hm)).ne
  | some e =>
    by_cases cancelled : e = .cancelledError
    · subst cancelled
      exact iff_of_false (fun h => by cases h) fun h => h.2 rfl
    · have kept : Function.update (Function.update w.files path (some envelope.content)) path none =
        w.files := by
        rw [Function.update_idem, ← unused, Function.update_eq_self]
      have refused : Atomic envelope path w (some e)
          (some (.ok ⟨451, "4.3.0 Temporary failure storing message"⟩,
          { w with
            files := Function.update (Function.update w.files path (some envelope.content)) path none
            names := path :: w.names })) := .refused rfl rfl kept
      refine iff_of_true ?_ ⟨⟨subjectText, idText⟩, by simpa using cancelled⟩
      cases e <;> first | exact refused | exact absurd rfl cancelled

/-! ### Among other tasks -/

/-- The operations of a `handle_DATA` that kept the stores together, whatever other tasks did in
between: the file was written, and then one row committed for it, or the file deleted when the
write had failed. -/
inductive Together (envelope : Envelope) : Events → Except Exc Reply → Prop where
  | accepted {heads : Events} {path text : String} {now : Time} {row : Message} {id : ℕ} :
      (∀ e ∈ heads, ∃ name, e.1 = .header envelope.content name) → RowFor envelope path row →
      Together envelope (heads ++ [⟨.spoolWrite envelope.content, path⟩, ⟨.utcnow, now⟩,
        ⟨.flush .handleData, .ok ()⟩,
        ⟨.commit .handleData [.insertMessage row], .ok id⟩, ⟨.notify, ()⟩]) (.ok ⟨250, text⟩)
  | unsent {heads : Events} {path text : String} {now : Time} {e : Exc} :
      (∀ e ∈ heads, ∃ name, e.1 = .header envelope.content name) →
      Together envelope (heads ++ [⟨.spoolWrite envelope.content, path⟩, ⟨.utcnow, now⟩,
        ⟨.flush .handleData, .error e⟩, ⟨.spoolDelete path, ()⟩]) (.ok ⟨451, text⟩)
  | uncommitted {heads : Events} {path text : String} {now : Time} {row : Message} {e : Exc} :
      (∀ e ∈ heads, ∃ name, e.1 = .header envelope.content name) →
      Together envelope (heads ++ [⟨.spoolWrite envelope.content, path⟩, ⟨.utcnow, now⟩,
        ⟨.flush .handleData, .ok ()⟩,
        ⟨.commit .handleData [.insertMessage row], .error e⟩, ⟨.spoolDelete path, ()⟩])
          (.ok ⟨451, text⟩)

/-- The write was cancelled. -/
def Cancelled (evs : Events) : Prop :=
  ⟨.flush .handleData, .error .cancelledError⟩ ∈ evs ∨
    ∃ ss, ⟨.commit .handleData ss, .error .cancelledError⟩ ∈ evs

variable {evs : Events} {r : Except Exc Reply} {subject msgId : Option String}

/-- What is read before the file is written goes before. -/
theorem Together.prepend {heads : Events} (h : Together envelope evs r)
    (reads : ∀ e ∈ heads, ∃ name, e.1 = .header envelope.content name) :
    Together envelope (heads ++ evs) r := by
  have both : ∀ {more : Events}, (∀ e ∈ more, ∃ name, e.1 = .header envelope.content name) →
      ∀ e ∈ heads ++ more, ∃ name, e.1 = .header envelope.content name := fun hm e he =>
    (List.mem_append.mp he).elim (reads e) (hm e)
  cases h with
  | accepted hm row => rw [← List.append_assoc]; exact .accepted (both hm) row
  | unsent hm => rw [← List.append_assoc]; exact .unsent (both hm)
  | uncommitted hm => rw [← List.append_assoc]; exact .uncommitted (both hm)

/-- A write that fails, and is not cancelled, has the file deleted. -/
theorem answer_refused {spoolPath : String} {e : Exc} (he : e ≠ .cancelledError)
    (h : (answer spoolPath (.error e)).Path evs r) :
    evs = [⟨.spoolDelete spoolPath, ()⟩] ∧ ∃ text, r = .ok ⟨451, text⟩ := by
  have refused : (perform (.spoolDelete spoolPath) >>= fun _ =>
      Prog.ret (⟨451, "4.3.0 Temporary failure storing message"⟩ : Reply) :
        Act Reply).Path evs r := by
    cases e <;> first | exact h | exact absurd rfl he
  obtain ⟨_, _, rfl, rfl, rfl⟩ := refused
  exact ⟨rfl, _, rfl⟩

/-- From the file on, the stores are kept together unless the write is cancelled. -/
theorem storeMessage_path (h : (storeMessage session envelope subject msgId).Path evs r) :
    ¬ Cancelled evs ∧ Together envelope evs r ∨ Cancelled evs ∧ r = .error .cancelledError := by
  have noHeads : ∀ e ∈ ([] : Events), ∃ name, e.1 = .header envelope.content name :=
    fun _ he => by cases he
  obtain ⟨path, _, rfl, h⟩ := h
  obtain ⟨now, _, rfl, h⟩ := h
  simp only [ret_bind, bind_eq] at h
  obtain ⟨sent, _, rfl, h⟩ := h
  cases sent with
  | error e =>
    by_cases cancelled : e = .cancelledError
    · subst cancelled
      obtain ⟨rfl, rfl⟩ := h
      exact .inr ⟨.inl (by simp), rfl⟩
    · obtain ⟨rfl, text, rfl⟩ := answer_refused cancelled h
      exact .inl ⟨by simp [Cancelled, Ne.symm cancelled], .unsent noHeads⟩
  | ok _ =>
    obtain ⟨committed, _, rfl, h⟩ := h
    cases committed with
    | error e =>
      by_cases cancelled : e = .cancelledError
      · subst cancelled
        obtain ⟨rfl, rfl⟩ := h
        exact .inr ⟨.inr ⟨[.insertMessage (newRow session envelope subject msgId path
          now)], by simp⟩, rfl⟩
      · obtain ⟨rfl, text, rfl⟩ := answer_refused cancelled h
        exact .inl ⟨by simp [Cancelled, Ne.symm cancelled], .uncommitted noHeads⟩
    | ok id =>
      obtain ⟨_, _, rfl, rfl, rfl⟩ := h
      refine .inl ⟨by simp [Cancelled], ?_⟩
      exact .accepted noHeads ⟨rfl, rfl, rfl, rfl, rfl, rfl⟩

/-- A header is asked for once, and what the parser gives decides. -/
theorem headerText_path {content : Bytes} {name : String} {value : Except Exc (Option String)}
    (h : (headerText content name).Path evs value) :
    ∃ v, evs = [⟨.header content name, v⟩] ∧ (v = .header ∧ value = .error .attributeError ∨
      v ≠ .header ∧ ∃ text, value = .ok text) := by
  obtain ⟨v, _, rfl, h⟩ := h
  cases v with
  | absent =>
    obtain ⟨rfl, rfl⟩ := h
    exact ⟨_, rfl, .inr ⟨nofun, _, rfl⟩⟩
  | str s =>
    obtain ⟨rfl, rfl⟩ := h
    exact ⟨_, rfl, .inr ⟨nofun, _, rfl⟩⟩
  | header =>
    obtain ⟨rfl, rfl⟩ := h
    exact ⟨_, rfl, .inl ⟨rfl, rfl⟩⟩

/-- **Among other tasks, too**, the stores are kept together exactly when the headers are text and
the write is not cancelled. -/
theorem handleData_together_iff {cfg : IngressConfig} (some_rcpt : envelope.rcptTos ≠ [])
    (fits : envelope.content.length ≤ (cfg.maxMessageBytes : ℕ))
    {parse : Bytes → String → HeaderValue} (h : (handleData cfg session envelope).Path evs r)
    (parsed : ∀ name v, ⟨.header envelope.content name, v⟩ ∈ evs →
      v = parse envelope.content name) :
    Together envelope evs r ↔
      TextHeaders parse envelope.content ∧ ¬ Cancelled evs := by
  have raises : ∀ {e : Exc}, r = .error e → ¬ Together envelope evs r := fun he ht => by
    cases ht <;> cases he
  rw [handleData_eq some_rcpt fits] at h
  rcases path_bind.mp h with ⟨e, rfl, he⟩ | ⟨first, subject, rest, rfl, hsubject, hrest⟩
  · obtain ⟨v, rfl, ⟨rfl, -⟩ | ⟨-, _, hv⟩⟩ := headerText_path he
    · exact iff_of_false (raises rfl) fun ok => ok.1.1 (parsed _ _ (by simp)).symm
    · cases hv
  obtain ⟨v, rfl, ⟨-, hv⟩ | ⟨text, -⟩⟩ := headerText_path hsubject
  · cases hv
  rw [parsed "Subject" v (by simp)] at text
  rcases path_bind.mp hrest with ⟨e, rfl, he⟩ | ⟨second, msgId, tail, rfl, hmsgId, hstore⟩
  · obtain ⟨v', rfl, ⟨rfl, -⟩ | ⟨-, _, hv⟩⟩ := headerText_path he
    · exact iff_of_false (raises rfl) fun ok => ok.1.2 (parsed _ _ (by simp)).symm
    · cases hv
  obtain ⟨v', rfl, ⟨-, hv⟩ | ⟨text', -⟩⟩ := headerText_path hmsgId
  · cases hv
  rw [parsed "Message-ID" v' (by simp)] at text'
  have cancelled_iff : Cancelled ([⟨.header envelope.content "Subject", v⟩] ++
      ([⟨.header envelope.content "Message-ID", v'⟩] ++ tail)) ↔
        Cancelled tail := by simp [Cancelled]
  rw [cancelled_iff]
  rcases storeMessage_path hstore with ⟨whole, together⟩ | ⟨cancelled, rfl⟩
  · refine iff_of_true ?_ ⟨⟨text, text'⟩, whole⟩
    rw [← List.append_assoc]
    refine together.prepend fun e he => ?_
    rcases List.mem_append.mp he with he | he <;> exact ⟨_, by rw [List.mem_singleton.mp he]⟩
  · exact iff_of_false (raises rfl) fun ok => ok.2 cancelled

variable (cfg parse session) in
/-- **Accepting a message is atomic** when the headers it looks into are text, and the write is
not cancelled; it raises otherwise. For every envelope with a recipient and every content that is
not too large: alone, with a new name for the file, the row and the file are stored and the answer
is `250`, or the write fails, nothing is stored and the answer is `451`, exactly under that
condition; and among other tasks its operations keep the two stores together exactly under it. -/
theorem data_atomic_iff (some_rcpt : envelope.rcptTos ≠ [])
    (fits : envelope.content.length ≤ (cfg.ingress.maxMessageBytes : ℕ)) :
    (∀ (path : String) (write : DbWrite) (w : World), path ∉ w.names → w.files path = none →
      (Atomic envelope path w write.failure
          ((handleData cfg.ingress session envelope).alone (surrounded cfg parse path write) w) ↔
        TextHeaders parse envelope.content ∧ write.failure ≠ some .cancelledError)) ∧
    ∀ (evs : Events) (r : Except Exc Reply), (handleData cfg.ingress session envelope).Path evs r →
      (∀ name v, ⟨.header envelope.content name, v⟩ ∈ evs → v = parse envelope.content name) →
        (Together envelope evs r ↔ TextHeaders parse envelope.content ∧ ¬ Cancelled evs) :=
  ⟨fun _ _ _ new unused => alone_handleData_iff some_rcpt fits new unused,
    fun _ _ path parsed => handleData_together_iff some_rcpt fits path parsed⟩

namespace Example

/-- An envelope with a content that is a subject and no body. -/
def subjectOnly (subject : Bytes) : Envelope :=
  { mailFrom := some "from@example", rcptTos := ["to@example"],
    content := [83, 117, 98, 106, 101, 99, 116, 58, 32] ++ subject ++ [13, 10, 13, 10] }

/-- What the parser gives for the subject, and that there is no other header. -/
def subjectParsed (v : HeaderValue) : Bytes → String → HeaderValue :=
  fun _ name => if name = "Subject" then v else .absent

/-- `Subject: hi`. -/
theorem data_atomic_iff_hi :
    Atomic (subjectOnly [104, 105]) "spool/1" { clock := 0 } none
      ((handleData relayed.ingress { peer := none } (subjectOnly [104, 105])).alone
        (surrounded relayed (subjectParsed (.str "hi")) "spool/1" .succeeds) { clock := 0 }) :=
  ((data_atomic_iff relayed (subjectParsed (.str "hi")) { peer := none } (by decide) (by decide)).1
    "spool/1" .succeeds
    { clock := 0 } (by simp) rfl).mpr
      ⟨by simp [TextHeaders, subjectParsed], by simp [DbWrite.failure]⟩

/-- `Subject: é` in Latin-1. -/
theorem data_not_atomic_latin1 :
    (handleData relayed.ingress { peer := none } (subjectOnly [233])).alone
        (surrounded relayed (subjectParsed .header) "spool/1" .succeeds) { clock := 0 } =
      some (.error .attributeError, { clock := 0 }) ∧
    ¬ Atomic (subjectOnly [233]) "spool/1" { clock := 0 } none
      ((handleData relayed.ingress { peer := none } (subjectOnly [233])).alone
        (surrounded relayed (subjectParsed .header) "spool/1" .succeeds) { clock := 0 }) := by
  have raised : (handleData relayed.ingress { peer := none } (subjectOnly [233])).alone
      (surrounded relayed (subjectParsed .header) "spool/1" .succeeds) { clock := 0 } =
      some (.error .attributeError, { clock := 0 }) := by
    rw [handleData_eq (by decide) (by decide), alone_bind, alone_headerText_header rfl]
    rfl
  refine ⟨raised, fun h => ?_⟩
  obtain ⟨_, _, heq⟩ := h.returns
  rw [raised] at heq
  cases heq

end Example

end SmtpSwitch
