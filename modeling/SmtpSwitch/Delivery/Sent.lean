import SmtpSwitch.Delivery.Custody
import SmtpSwitch.Delivery.Resend

/-!
# What a sent row stands for

A row is marked as sent by its id alone, long after the consumer has read it. If no row is
inserted under the id of a row that a consumer is at work on, it is still the row that was relayed:
since it was inserted, a relay of its own envelope and its own spooled bytes was classified as sent
(`Backed`, `sent_backed`). That relay may have refused some of the recipients, and nothing of it is stored;
unless that happens, every recipient of a sent row was accepted (`sent_to_all`). -/

namespace SmtpSwitch

open Coop Coop.Prog

/-- The bytes last spooled to a path, where `files` is what there was at the start. -/
def spooled (files : String → Option Bytes) : List (Entry Op Op.Ans Job ℚ) → String → Option Bytes
  | [], path => files path
  | .did _ (.spoolWrite content) path' :: tr, path => if path = path' then some content
      else spooled files tr path
  | _ :: tr, path => spooled files tr path

/-- A relay of the row's envelope with these bytes was classified as sent. -/
def carries (row : Message) (raw : Bytes) : Entry Op Op.Ans Job ℚ → Bool
  | .did _ (.send _ _ sender rcpts bytes _) out =>
    sender = row.fromAddr && rcpts = row.rcptTo && bytes = raw && sentBy out
  | _ => false

/-- Since the row was inserted, a relay of its own envelope and spooled bytes was classified as
sent. -/
def Backed (files : String → Option Bytes) (tr : List (Entry Op Op.Ans Job ℚ)) (row : Message) :
    Prop :=
  ∃ raw, spooled files tr row.spoolPath = some raw ∧ ∃ e ∈ since row.id tr, carries row raw e = true

instance (files : String → Option Bytes) (tr : List (Entry Op Op.Ans Job ℚ)) (row : Message) :
    Decidable (Backed files tr row) :=
  match h : spooled files tr row.spoolPath with
  | none => isFalse fun ⟨raw, hraw, _⟩ => by rw [h] at hraw; cases hraw
  | some raw => decidable_of_iff (∃ e ∈ since row.id tr, carries row raw e = true)
    ⟨fun hex => ⟨raw, h, hex⟩, fun ⟨raw', hraw, hex⟩ => by rw [h] at hraw; cases hraw; exact hex⟩

/-- A relay of message `id` was accepted for the recipient. -/
def takes (id : ℕ) (rcpt : String) : Entry Op Op.Ans Job ℚ → Bool
  | .did _ (.send _ _ _ rcpts _ errand) (.returned errors _) =>
    errand.message = id && rcpts.contains rcpt && !errors.any fun e => e.recipient = rcpt
  | _ => false

/-- Since the row was inserted, a provider has accepted the message for the recipient. -/
def TakenFor (id : ℕ) (rcpt : String) (tr : List (Entry Op Op.Ans Job ℚ)) : Prop :=
  ∃ e ∈ since id tr, takes id rcpt e = true

instance (id : ℕ) (rcpt : String) (tr : List (Entry Op Op.Ans Job ℚ)) :
    Decidable (TakenFor id rcpt tr) := by
  unfold TakenFor
  infer_instance

/-- The text names the recipient. -/
def mentions (rcpt text : String) : Bool := rcpt.toList <:+: text.toList

/-- Something stored of the message names the recipient. -/
def Recorded (db : Db) (row : Message) (rcpt : String) : Prop :=
  row.lastError.any (mentions rcpt) = true ∨
    ∃ a ∈ db.attempts, a.messageId = row.id ∧ mentions rcpt a.error = true

instance (db : Db) (row : Message) (rcpt : String) : Decidable (Recorded db row rcpt) := by
  unfold Recorded
  infer_instance

section Invariants

variable (cfg : Settings)

/-- The row a consumer has read, and works on under the id. -/
def Duty.workOn : Duty → Option (ℕ × Message)
  | .read id (some row) => some (id, row)
  | .turn id t _ _ => some (id, t.row)
  | _ => none

/-- No row is inserted under an id while a consumer is at work on the row it has read under it. -/
def Unworked (x x' : Moment) : Prop :=
  ∀ i site row id, x'.trace = .did i (.commit site [.insertMessage row]) (.ok id) :: x.trace →
    ∀ k m, ((delivery cfg).phase x.trace k).workOn ≠ some (id, m)

/-- The rows are for the same message. -/
structure SameMessage (m m' : Message) : Prop where
  fromAddr : m.fromAddr = m'.fromAddr
  rcptTo : m.rcptTo = m'.rcptTo
  spoolPath : m.spoolPath = m'.spoolPath

/-- What consumers have read and relayed is what was spooled for the row, and the row there is for
that message still. -/
structure Trailed (files : String → Option Bytes) (x : Moment) : Prop where
  ids : (x.shared.db.messages.map Message.id).Nodup
  same : ∀ k id row, ((delivery cfg).phase x.trace k).workOn = some (id, row) →
    ∀ m ∈ x.shared.db.messages, m.id = id → SameMessage m row
  onDisk : ∀ path raw, x.shared.files path = some raw →
    spooled files x.trace path = some raw ∧ path ∈ x.shared.names
  raw : ∀ i id t told drawn, (delivery cfg).phase x.trace i = .turn id t told drawn → ∀ raw,
    t.raw = some raw →
    spooled files x.trace t.row.spoolPath = some raw ∧ t.row.spoolPath ∈ x.shared.names
  sent : ∀ i id t told drawn, (delivery cfg).phase x.trace i = .turn id t told drawn →
    t.sent = true →
    ∃ raw, (spooled files x.trace t.row.spoolPath = some raw ∧ t.row.spoolPath ∈ x.shared.names) ∧
      ∃ e ∈ since id x.trace, carries t.row raw e = true

variable {cfg} {jobs : Job → Bool} {x x' : Moment} {files : String → Option Bytes}

theorem held_of_workOn {φ : Duty} {id : ℕ} {m : Message} (h : φ.workOn = some (id, m)) :
    id ∈ φ.held := by
  unfold Duty.workOn at h
  split at h <;> cases h <;> exact List.mem_singleton_self _

/-- An id nobody holds is not worked on. -/
theorem Fresh.unworked (h : Fresh cfg x x') : Unworked cfg x x' := by
  intro i site row id htr k m worked
  have mine := held_le_holders cfg id k x
  have := List.count_pos_iff.mpr (held_of_workOn worked)
  have unheld := h i site row id htr
  omega

section Did

variable {w w' : World} {tr : List (Entry Op Op.Ans Job ℚ)} {i : ℕ} {o : Op}
  {a : o.Ans} {c : Choice}

/-- What is spooled under a name made up before stays. -/
theorem spooled_did (he : exec cfg i o c w = some (a, w')) {path : String} {raw : Bytes}
    (h : spooled files tr path = some raw ∧ path ∈ w.names) :
    spooled files (.did i o a :: tr) path = some raw ∧ path ∈ w'.names := by
  have frame := exec_frame cfg he
  cases o with
  | spoolWrite content =>
    obtain ⟨new, rfl⟩ := exec_spoolWrite he
    have other : path ≠ a := fun heq => new (heq ▸ h.2)
    exact ⟨(if_neg other).trans h.1, List.mem_cons_of_mem _ h.2⟩
  | spoolDelete path' =>
    obtain rfl := exec_spoolDelete he
    exact h
  | _ => exact ⟨h.1, by rw [(frame.files (by simp [Op.part])).2]; exact h.2⟩

/-- While a row is worked on none is inserted under its id. -/
theorem since_did (hc : Unworked cfg ⟨w, tr⟩ ⟨w', .did i o a :: tr⟩) {k id : ℕ} {m : Message}
    (hk : ((delivery cfg).phase tr k).workOn = some (id, m)) :
    since id (.did i o a :: tr) = .did i o a :: since id tr := by
  rw [since_cons, if_neg]
  intro inserts
  unfold insertsAt at inserts
  split at inserts
  · rename_i heq
    cases heq
    simp only [decide_eq_true_eq] at inserts
    subst inserts
    exact hc i _ _ _ rfl k m hk
  · cases inserts

/-- What is worked on was worked on before, or is what has just been read. -/
theorem workOn_of_next (he : exec cfg i o c w = some (a, w')) {φ : Duty} (hg : φ.good cfg o a)
    {id : ℕ} {row : Message} (h : (φ.next o a).workOn = some (id, row)) :
    φ.workOn = some (id, row) ∨ w' = w ∧ row ∈ w.db.messages ∧ row.id = id := by
  generalize hφ : φ.next o a = φ' at h
  unfold Duty.workOn at h
  split at h
  · cases h
    rcases read_of_next hφ with rfl | ⟨got, site, id', heq⟩
    · exact .inl rfl
    rcases read_of_did he hg hφ with old | ⟨-, hrow⟩
    · rw [got] at old
      cases old
    · cases heq
      exact .inr ⟨(exec_select he).2, List.mem_of_find?_eq_some hrow.symm,
        by simpa using List.find?_some hrow.symm⟩
  · cases h
    rcases turn_of_next hφ with ⟨t₀, told₀, drawn₀, rfl, next⟩ | ⟨row, rfl, -, rfl, -⟩
    · cases next <;> exact .inl rfl
    · exact .inl rfl
  · cases h

theorem Trailed.same_did (h : Trailed cfg files ⟨w, tr⟩)
    (hs : (system cfg jobs).Step (delivery cfg) ⟨w, tr⟩ ⟨w', .did i o a :: tr⟩)
    (he : exec cfg i o c w = some (a, w')) (hg : ((delivery cfg).phase tr i).good cfg o a)
    (hc : Unworked cfg ⟨w, tr⟩ ⟨w', .did i o a :: tr⟩) {k id : ℕ} {row : Message}
    (hk : ((delivery cfg).phase (.did i o a :: tr) k).workOn = some (id, row)) {m' : Message}
    (hm' : m' ∈ w'.db.messages) (hid : m'.id = id) : SameMessage m' row := by
  have keep : ((delivery cfg).phase tr k).workOn = some (id, row) → SameMessage m' row := by
    intro old
    cases rowOf_step hs hm' with
    | same hm _ => exact h.same k id row old m' hm hid
    | inserted _ _ _ _ htr => exact absurd old (hid ▸ hc _ _ _ _ htr k row)
    | updated hm hmid _ _ heq _ =>
      subst heq
      obtain ⟨hfrom, hrcpt, hspool⟩ := h.same k id row old _ hm (hmid.trans hid)
      exact ⟨hfrom, hrcpt, hspool⟩
  rw [phase_did_apply] at hk
  split at hk
  · subst k
    rcases workOn_of_next he hg hk with old | ⟨rfl, hrow, hrid⟩
    · exact keep old
    · obtain rfl := List.inj_on_of_nodup_map h.ids hm' hrow (hid.trans hrid.symm)
      exact ⟨rfl, rfl, rfl⟩
  · exact keep hk

theorem Trailed.files_did (h : Trailed cfg files ⟨w, tr⟩) (he : exec cfg i o c w = some (a, w'))
    {path : String} {raw : Bytes} (hf : w'.files path = some raw) :
    spooled files (.did i o a :: tr) path = some raw ∧ path ∈ w'.names := by
  have frame := exec_frame cfg he
  cases o with
  | spoolWrite content =>
    obtain ⟨new, rfl⟩ := exec_spoolWrite he
    by_cases heq : path = a
    · subst heq
      simp only [Function.update_self, Option.some.injEq] at hf
      subst hf
      exact ⟨if_pos rfl, List.mem_cons_self⟩
    · simp only [Function.update_of_ne heq] at hf
      obtain ⟨old, name⟩ := h.onDisk path raw hf
      exact ⟨(if_neg heq).trans old, List.mem_cons_of_mem _ name⟩
  | spoolDelete path' =>
    obtain rfl := exec_spoolDelete he
    by_cases heq : path = path'
    · subst heq
      simp only [Function.update_self] at hf
      cases hf
    · simp only [Function.update_of_ne heq] at hf
      exact h.onDisk path raw hf
  | _ =>
    rw [(frame.files (by simp [Op.part])).1] at hf
    exact spooled_did he (h.onDisk path raw hf)

theorem Trailed.raw_did (h : Trailed cfg files ⟨w, tr⟩) (he : exec cfg i o c w = some (a, w'))
    (hg : ((delivery cfg).phase tr i).good cfg o a) {k id : ℕ} {t : Turn} {told : Option Time}
    {drawn : Option ℚ} (hk : (delivery cfg).phase (.did i o a :: tr) k = .turn id t told drawn)
    {raw : Bytes} (hraw : t.raw = some raw) :
    spooled files (.did i o a :: tr) t.row.spoolPath = some raw ∧ t.row.spoolPath ∈ w'.names := by
  rw [phase_did_apply] at hk
  split at hk
  · subst k
    rcases turn_of_next hk with ⟨t₀, told₀, drawn₀, hφ, hnext⟩ | ⟨row, hφ, -, rfl, -⟩
    · have old := h.raw i id t₀ told₀ drawn₀ hφ
      cases hnext with
      | read =>
        cases hraw
        obtain ⟨id', t', _, _, hφ', rfl⟩ := hg
        rw [show (delivery cfg).phase tr i = _ from hφ] at hφ'
        cases hφ'
        exact spooled_did he (h.onDisk _ raw ((exec_spoolRead he).1 raw rfl))
      | _ => exact spooled_did he (old raw hraw)
    · cases hraw
  · exact spooled_did he (h.raw k id t told drawn hk raw hraw)

theorem Trailed.sent_did (h : Trailed cfg files ⟨w, tr⟩) (he : exec cfg i o c w = some (a, w'))
    (hg : ((delivery cfg).phase tr i).good cfg o a)
    (hc : Unworked cfg ⟨w, tr⟩ ⟨w', .did i o a :: tr⟩) {k id : ℕ} {t : Turn} {told : Option Time} {drawn : Option ℚ}
    (hk : (delivery cfg).phase (.did i o a :: tr) k = .turn id t told drawn) (ht : t.sent = true) :
    ∃ raw, (spooled files (.did i o a :: tr) t.row.spoolPath = some raw ∧
      t.row.spoolPath ∈ w'.names) ∧
      ∃ e ∈ since id (.did i o a :: tr), carries t.row raw e = true := by
  have keep : ∀ {k t told drawn}, (delivery cfg).phase tr k = .turn id t told drawn →
      t.sent = true →
      ∃ raw, (spooled files (.did i o a :: tr) t.row.spoolPath = some raw ∧
        t.row.spoolPath ∈ w'.names) ∧
        ∃ e ∈ since id (.did i o a :: tr), carries t.row raw e = true := by
    intro k t told drawn hφ hsent
    obtain ⟨raw, hraw, e, he', hcar⟩ := h.sent k id t told drawn hφ hsent
    refine ⟨raw, spooled_did he hraw, e, ?_, hcar⟩
    rw [since_did hc (congrArg Duty.workOn hφ)]
    exact List.mem_cons_of_mem _ he'
  rw [phase_did_apply] at hk
  split at hk
  · subst k
    rcases turn_of_next hk with ⟨t₀, told₀, drawn₀, hφ, hnext⟩ | ⟨row, hφ, -, rfl, -⟩
    · cases hnext with
      | @relayed p kw sender rcpts raw errand out =>
        obtain ⟨t₁, _, _, hφ', hsender, hrcpts, hraw, -, -⟩ := hg
        rw [hφ] at hφ'
        cases hφ'
        have hread := h.raw i _ t₀ _ _ hφ _ hraw
        refine ⟨_, spooled_did he hread, .did i (.send p kw sender rcpts raw errand) out, ?_, ?_⟩
        · rw [since_did hc (congrArg Duty.workOn hφ)]
          exact List.mem_cons_self
        · simp only [carries, hsender, hrcpts, decide_true, Bool.true_and]
          exact ht
      | read | recorded => exact keep (t := t₀) hφ ht
      | _ => exact keep hφ ht
    · cases ht
  · exact keep hk ht

end Did

theorem Trailed.step (h : Trailed cfg files x) (hs : (system cfg jobs).Step (delivery cfg) x x')
    (hc : Unworked cfg x x') : Trailed cfg files x' := by
  have ids := distinct_of_step h.ids hs
  have hs' := hs
  have some_ : ∀ id : ℕ, [id] ≠ [] := fun id => List.cons_ne_nil _ _
  have kept : ∀ {e : Entry Op Op.Ans Job ℚ} {tr : List (Entry Op Op.Ans Job ℚ)} {id : ℕ}
      {row : Message} {raw : Bytes},
      insertsAt id e = false → (∃ e ∈ since id tr, carries row raw e = true) →
      ∃ e' ∈ since id (e :: tr), carries row raw e' = true := by
    intro e tr id row raw hno hex
    obtain ⟨e', he', hcar⟩ := hex
    refine ⟨e', ?_, hcar⟩
    rw [since_cons, hno]
    exact List.mem_cons_of_mem _ he'
  cases hs with
  | start =>
    refine ⟨ids, fun k id row hk => h.same k id row ?_, h.onDisk, fun k id t told drawn hk =>
      h.raw k id t told drawn (phase_start_held hk (some_ id)), fun k id t told drawn hk ht => ?_⟩
    · rwa [phase_start_held rfl (List.ne_nil_of_mem (held_of_workOn hk))]
    obtain ⟨raw, hraw, hex⟩ := h.sent k id t told drawn (phase_start_held hk (some_ id)) ht
    exact ⟨raw, hraw, kept rfl hex⟩
  | env =>
    refine ⟨ids, h.same, h.onDisk, h.raw, fun k id t told drawn hk ht => ?_⟩
    obtain ⟨raw, hraw, hex⟩ := h.sent k id t told drawn hk ht
    exact ⟨raw, hraw, kept rfl hex⟩
  | crash =>
    exact ⟨ids, fun k id row hk => (by cases hk), h.onDisk, fun k id t told drawn hk =>
      (by cases hk), fun k id t told drawn hk => (by cases hk)⟩
  | @did w w' tr i o c a he hg =>
    have he : exec cfg i o c w = some (a, w') := he
    have hg : ((delivery cfg).phase tr i).good cfg o a := hg
    exact ⟨ids, fun k id row hk m' hm' => h.same_did hs' he hg hc hk hm',
      fun path raw => h.files_did he, fun k id t told drawn hk raw => h.raw_did he hg hk,
      fun k id t told drawn hk => h.sent_did he hg hc hk⟩

/-- A row comes to be marked as sent by the consumer that has relayed it. -/
theorem turn_of_sent (hs : (system cfg jobs).Step (delivery cfg) x x') {row : Message}
    (hrow : row ∈ x'.shared.db.messages) (hsent : row.status = .sent)
    (before : ∀ row₀ ∈ x.shared.db.messages, row₀.id = row.id → row₀.status ≠ .sent) :
    ∃ i t told drawn m, (delivery cfg).phase x.trace i = .turn row.id t told drawn ∧ t.sent = true ∧
      m ∈ x.shared.db.messages ∧ m.id = row.id ∧
      (row.fromAddr = m.fromAddr ∧ row.rcptTo = m.rcptTo ∧ row.spoolPath = m.spoolPath) := by
  cases rowOf_step hs hrow with
  | same hm _ => exact absurd hsent (before row hm rfl)
  | inserted _ queued _ heq _ =>
    rw [heq, show _ = MessageStatus.queued from queued] at hsent
    cases hsent
  | @updated i site wh v n m hm hid hu hw heq _ =>
    subst heq
    generalize hφ : (delivery cfg).phase x.trace i = φ at hu
    cases hu with
    | @markSent id t told drawn p now ht =>
      obtain rfl : m.id = id := by
        simp only [MessageWhere.holds, Option.all_some, List.mem_singleton, Option.all_none,
          Bool.and_true, decide_eq_true_eq] at hw
        exact hw
      exact ⟨i, t, told, drawn, m, hφ, ht, hm, rfl, rfl, rfl, rfl⟩
    | _ => cases hsent

variable (cfg) in
/-- Whoever a consumer believes to have been sent the message was accepted. -/
structure Served (x : Moment) : Prop extends Snapped cfg x where
  taken : ∀ i id t told drawn, (delivery cfg).phase x.trace i = .turn id t told drawn →
    t.sent = true →
    ∀ rcpt ∈ t.row.rcptTo, TakenFor id rcpt x.trace

/-- A relay classified as sent leaves no recipient out: each is accepted, or has been accepted for
the same message before. -/
def LeavesNoneOut (x x' : Moment) : Prop :=
  ∀ i p kw sender rcpts raw errand out,
    x'.trace = .did i (.send p kw sender rcpts raw errand) out :: x.trace →
    sentBy out = true → ∀ rcpt ∈ rcpts,
      takes errand.message rcpt (.did i (.send p kw sender rcpts raw errand) out) = true ∨
        TakenFor errand.message rcpt x.trace

theorem takenFor_cons {id : ℕ} {rcpt : String} {e : Entry Op Op.Ans Job ℚ}
    {tr : List (Entry Op Op.Ans Job ℚ)}
    (hno : insertsAt id e = false) (h : takes id rcpt e = true ∨ TakenFor id rcpt tr) :
    TakenFor id rcpt (e :: tr) := by
  unfold TakenFor
  rw [since_cons, hno]
  rcases h with h | ⟨e', he', h⟩
  · exact ⟨e, List.mem_cons_self, h⟩
  · exact ⟨e', List.mem_cons_of_mem _ he', h⟩

theorem Served.step (h : Served cfg x) (hs : (system cfg jobs).Step (delivery cfg) x x')
    (hf : Fresh cfg x x') (hc : LeavesNoneOut x x') : Served cfg x' := by
  have snapped := h.toSnapped.step hs hf
  have some_ : ∀ id : ℕ, [id] ≠ [] := fun id => List.cons_ne_nil _ _
  cases hs with
  | start =>
    exact ⟨snapped, fun k id t told drawn hk ht rcpt hr =>
      takenFor_cons rfl (.inr (h.taken k id t told drawn (phase_start_held hk (some_ id))
        ht rcpt hr))⟩
  | env =>
    exact ⟨snapped, fun k id t told drawn hk ht rcpt hr =>
      takenFor_cons rfl (.inr (h.taken k id t told drawn hk ht rcpt hr))⟩
  | crash => exact ⟨snapped, fun k id t told drawn hk => (by cases hk)⟩
  | @did w w' tr i o c a he hg =>
    have hg : ((delivery cfg).phase tr i).good cfg o a := hg
    refine ⟨snapped, fun k id t told drawn hk ht rcpt hr => ?_⟩
    have keep : ∀ {k t told drawn}, (delivery cfg).phase tr k = .turn id t told drawn →
        takes id rcpt (.did i o a) = true ∨ TakenFor id rcpt tr →
          TakenFor id rcpt (.did i o a :: tr) := by
      intro k t told drawn hφ htaken
      have extends_ := since_did hf.unworked (congrArg Duty.workOn hφ)
      rw [since_cons] at extends_
      refine takenFor_cons ?_ htaken
      by_contra hins
      rw [if_pos (by simpa using hins)] at extends_
      cases extends_
    change (delivery cfg).phase (.did i o a :: tr) k = .turn id t told drawn at hk
    rw [phase_did_apply] at hk
    split at hk
    · subst k
      rcases turn_of_next hk with ⟨t₀, told₀, drawn₀, hφ, hnext⟩ | ⟨row, hφ, -, rfl, -⟩
      · have old := h.taken i id t₀ told₀ drawn₀ hφ
        cases hnext with
        | @relayed p kw sender rcpts raw errand out =>
          obtain ⟨t₁, _, _, hφ', -, hrcpts, -, -, -⟩ := hg
          rw [hφ] at hφ'
          cases hφ'
          exact keep hφ (hc i p kw sender rcpts raw errand out rfl ht rcpt (hrcpts ▸ hr))
        | _ => exact keep hφ (.inr (old ht rcpt hr))
      · cases ht
    · exact keep hk (.inr (h.taken k id t told drawn hk ht rcpt hr))

end Invariants

/-- **No false SENT.** In every run in which no row is inserted under an id while a consumer is at
work on the row it has read under it: a row that comes to be marked as sent has been relayed since it
was inserted, its own envelope and spooled bytes, and the relay was classified as sent. -/
theorem sent_backed (cfg : Settings) {jobs : Job → Bool}
    (hj : ∀ j, jobs j = true → j.ofProcess = true)
    {w : World} (ids : (w.db.messages.map Message.id).Nodup)
    (names : ∀ path raw, w.files path = some raw → path ∈ w.names)
    {s : Pool Op Op.Ans Exc World Job ℚ}
    (h : (system cfg jobs).Reachable (Unworked cfg) (Machine.boot w) s)
    {m : Move Choice Job ℚ} {s' : Pool Op Op.Ans Exc World Job ℚ}
    (hm : (system cfg jobs).step m s = some s')
    {row : Message} (hrow : row ∈ s'.shared.db.messages) (hsent : row.status = .sent)
    (before : ∀ row₀ ∈ s.shared.db.messages, row₀.id = row.id → row₀.status ≠ .sent) :
    Backed w.files s.trace row := by
  have keeps : (system cfg jobs).Keeps (delivery cfg) := delivery_keeps hj
  have init : Trailed cfg w.files ⟨w, []⟩ :=
    ⟨ids, fun i id row hi => (by cases hi), fun path raw hf => ⟨hf, names path raw hf⟩,
      fun i id t told drawn hi => (by cases hi), fun i id t told drawn hi => (by cases hi)⟩
  obtain ⟨trailed, phases⟩ :=
    Machine.invariant keeps (Trailed cfg w.files) init (fun h hs hc => h.step hs hc) h
  obtain ⟨i, t, told, drawn, row₀, hφ, ht, hmem, hid, hfrom, hrcpt, hspool⟩ :=
    turn_of_sent (Machine.step_cases keeps phases hm).1 hrow hsent before
  obtain ⟨raw, ⟨hraw, -⟩, e, he, hcar⟩ := trailed.sent i row.id t told drawn hφ ht
  have same := trailed.same i row.id t.row (congrArg Duty.workOn hφ) row₀ hmem hid
  refine ⟨raw, ?_, e, he, ?_⟩
  · rw [hspool, same.spoolPath]
    exact hraw
  · unfold carries at hcar ⊢
    split at hcar
    · rw [hfrom, hrcpt, same.fromAddr, same.rcptTo]
      exact hcar
    · cases hcar

/-- **No recipient is lost on a sent message.** In every run without deletes in which no relay
classified as sent leaves a recipient out: when a row comes to be marked as sent, each of its
recipients has been accepted. -/
theorem sent_to_all (cfg : Settings) {jobs : Job → Bool} (hj : ∀ j, jobs j = true → j.ofMail = true)
    {w : World} (ids : (w.db.messages.map Message.id).Nodup) (down : w.up = false)
    (empty : w.queue = []) {s : Pool Op Op.Ans Exc World Job ℚ}
    (h : (system cfg jobs).Reachable LeavesNoneOut (Machine.boot w) s)
    {m : Move Choice Job ℚ} {s' : Pool Op Op.Ans Exc World Job ℚ}
    (hm : (system cfg jobs).step m s = some s')
    {row : Message} (hrow : row ∈ s'.shared.db.messages) (hsent : row.status = .sent)
    (before : ∀ row₀ ∈ s.shared.db.messages, row₀.id = row.id → row₀.status ≠ .sent) :
    ∀ rcpt ∈ row.rcptTo, TakenFor row.id rcpt s.trace := by
  have keeps : (system cfg jobs).Keeps (delivery cfg) :=
    delivery_keeps fun j hjob => Job.ofProcess_of_ofMail (hj j hjob)
  have owned : Owned cfg ⟨w, []⟩ := Owned.init ids down empty
  have init : Served cfg ⟨w, []⟩ ∧ Kept cfg ⟨w, []⟩ :=
    ⟨⟨⟨owned.toOwn, fun i id row hi => (by cases hi), fun i id t told drawn hi => (by cases hi)⟩,
      fun i id t told drawn hi => (by cases hi)⟩, owned.toKept⟩
  obtain ⟨⟨served, -⟩, phases⟩ := Machine.invariant keeps (fun x => Served cfg x ∧ Kept cfg x) init
    (fun h hs hc => ⟨h.1.step hs (h.2.fresh hs) hc,
      h.2.step (fun j hjob => duty_of_ofMail (hj j hjob)) hs⟩) h
  obtain ⟨i, t, told, drawn, row₀, hφ, ht, hmem, hid, -, hrcpt, -⟩ :=
    turn_of_sent (Machine.step_cases keeps phases hm).1 hrow hsent before
  obtain rfl := served.turn i row.id t told drawn hφ row₀ hmem hid
  intro rcpt hr
  exact served.taken i row.id t told drawn hφ ht rcpt (hrcpt ▸ hr)

namespace Example

/-- One message is queued, and its file is there. -/
def oneSpooled : World :=
  { oneQueued with files := fun path => if path = "spool" then some [] else none, names := ["spool"] }

/-- Consumer 1 has written all but the outcome. -/
def upToOutcome : List (Move Choice Job ℚ) := List.flatten [toRelay, [taken], List.replicate 16 (.run 1 .ok)]

theorem oneSpooled_names (path : String) (raw : Bytes) (h : oneSpooled.files path = some raw) :
    path ∈ oneSpooled.names := by
  have h : (if path = "spool" then some [] else none : Option Bytes) = some raw := h
  split at h
  · rename_i heq
    rw [heq]
    exact List.mem_cons_self
  · cases h

theorem sent_backed_oneSpooled : ∃ s s' row,
    (system twoPerDay Job.ofProcess).runFrom (Machine.boot oneSpooled) upToOutcome = some s ∧
      (system twoPerDay Job.ofProcess).step (.run 1 .ok) s = some s' ∧
      s'.shared.db.messages = [row] ∧ row.status = .sent ∧ Backed oneSpooled.files s.trace row := by
  obtain ⟨s, hs, ha⟩ : ∃ s, (system twoPerDay Job.ofProcess).runFrom
      (Machine.boot oneSpooled) upToOutcome = some s ∧
      s.shared.db.messages.map Message.status = [.sending] :=
    Option.map_eq_some_iff.mp (by decide +kernel)
  obtain ⟨s', hs', ha'⟩ : ∃ s', (system twoPerDay Job.ofProcess).runFrom (Machine.boot oneSpooled)
      (upToOutcome ++ [.run 1 .ok]) = some s' ∧
        s'.shared.db.messages.map Message.status = [.sent] :=
    Option.map_eq_some_iff.mp (by decide +kernel)
  have along : (system twoPerDay Job.ofProcess).along notPutBackNext
      (Machine.boot oneSpooled) upToOutcome = true := by
    decide +kernel
  have hstep := (Machine.runFrom_concat hs _).symm.trans hs'
  obtain ⟨row, hrow, hsent⟩ := List.map_eq_singleton_iff.mp ha'
  obtain ⟨row₀, hrow₀, hsending⟩ := List.map_eq_singleton_iff.mp ha
  refine ⟨s, s', row, hs, hstep, hrow, hsent, ?_⟩
  refine sent_backed twoPerDay (fun j hj => hj) (by decide) oneSpooled_names
    (Machine.Reachable.refl.runFrom_along
      (fun hm hs => (notPutBack_of_next hm hs).fresh.unworked) along hs) hstep
    (by rw [hrow]; exact List.mem_singleton_self _) hsent fun row₁ hmem _ => ?_
  rw [hrow₀, List.mem_singleton] at hmem
  rw [hmem, hsending]
  decide

/-- While consumer 1 relays the message it is deleted, and another one is received under its id. -/
def reused : List (Move Choice Job ℚ) := List.flatten
  [toRelay, [.start 2 (.deleteMessage 1)], List.replicate 4 (.run 2 .ok),
    [.start 3 (.handleData { peer := none } { mailFrom := some "c@x", rcptTos := ["d@y"], content := [1] }),
      .run 3 (.parsed .absent), .run 3 (.parsed .absent), .run 3 (.name "other")],
    List.replicate 4 (.run 3 .ok), [taken], List.replicate 16 (.run 1 .ok)]

/-- The message received is marked as sent, and was not relayed. -/
theorem sent_unbacked_reused : ∃ s s' row,
    (system twoPerDay Job.ofProcess).Reachable Machine.Free (Machine.boot oneSpooled) s ∧
      (system twoPerDay Job.ofProcess).step (.run 1 .ok) s = some s' ∧ row ∈ s'.shared.db.messages ∧
      row.status = .sent ∧ (∀ row₀ ∈ s.shared.db.messages, row₀.id = row.id → row₀.status ≠ .sent) ∧
      ¬ Backed oneSpooled.files s.trace row := by
  obtain ⟨s, hs, ha⟩ : ∃ s, (system twoPerDay Job.ofProcess).runFrom (Machine.boot oneSpooled) reused = some s ∧
      s.shared.db.messages.map (fun m => (m.id, m.status)) = [(1, .queued)] :=
    Option.map_eq_some_iff.mp (by decide +kernel)
  obtain ⟨s', hs', ha'⟩ : ∃ s', (system twoPerDay Job.ofProcess).runFrom (Machine.boot oneSpooled)
      (reused ++ [.run 1 .ok]) = some s' ∧
      s'.shared.db.messages.map (fun m => (m.id, m.status, decide (Backed oneSpooled.files s'.trace.tail m))) =
        [(1, .sent, false)] :=
    Option.map_eq_some_iff.mp (by decide +kernel)
  have hstep := (Machine.runFrom_concat hs _).symm.trans hs'
  obtain ⟨row, hrow, heq⟩ := List.map_eq_singleton_iff.mp ha'
  obtain ⟨row₀, hrow₀, heq₀⟩ := List.map_eq_singleton_iff.mp ha
  simp only [Prod.mk.injEq, decide_eq_false_iff_not] at heq heq₀
  refine ⟨s, s', row, Machine.Reachable.refl.runFrom hs,
    hstep, by rw [hrow]; exact List.mem_singleton_self _, heq.2.1, fun row₁ hmem _ => ?_, ?_⟩
  · rw [hrow₀, List.mem_singleton] at hmem
    rw [hmem, heq₀.2]
    decide
  · obtain ⟨j, o, f, b, w, -, -, rfl⟩ := Machine.step_run hstep
    exact heq.2.2

/-- Two recipients. -/
def twoRcpts : World :=
  { oneSpooled with db := { messages := [{ dueMessage 1 with rcptTo := ["b@y", "c@z"] }] } }

/-- Every recipient of a relay classified as sent is accepted. -/
def servesAll : Entry Op Op.Ans Job ℚ → Bool
  | .did i (.send p kw sender rcpts raw errand) out =>
    !sentBy out || rcpts.all fun rcpt =>
      takes errand.message rcpt (.did i (.send p kw sender rcpts raw errand) out)
  | _ => true

theorem leavesNoneOut_of_servesAll (x x' : Moment) (h : Machine.Each servesAll x x') :
    LeavesNoneOut x x' := by
  intro i p kw sender rcpts raw errand out htr hsent rcpt hr
  have serves := h _ htr
  simp only [servesAll, hsent, Bool.not_true, Bool.false_or, List.all_eq_true] at serves
  exact .inl (serves rcpt hr)

theorem sent_to_all_twoRcpts : ∃ s s' row,
    (system twoPerDay Job.ofMail).runFrom (Machine.boot twoRcpts) upToOutcome = some s ∧
      (system twoPerDay Job.ofMail).step (.run 1 .ok) s = some s' ∧ s'.shared.db.messages = [row] ∧
      row.status = .sent ∧ TakenFor row.id "b@y" s.trace ∧ TakenFor row.id "c@z" s.trace := by
  obtain ⟨s, hs, ha⟩ : ∃ s, (system twoPerDay Job.ofMail).runFrom
      (Machine.boot twoRcpts) upToOutcome = some s ∧
      (s.trace.all servesAll, s.shared.db.messages.map Message.status) = (true, [.sending]) :=
    Option.map_eq_some_iff.mp (by decide +kernel)
  obtain ⟨s', hs', ha'⟩ : ∃ s', (system twoPerDay Job.ofMail).runFrom (Machine.boot twoRcpts)
      (upToOutcome ++ [.run 1 .ok]) = some s' ∧
      s'.shared.db.messages.map (fun m => (m.status, m.rcptTo)) = [(.sent, ["b@y", "c@z"])] :=
    Option.map_eq_some_iff.mp (by decide +kernel)
  have hstep := (Machine.runFrom_concat hs _).symm.trans hs'
  obtain ⟨all, before⟩ := Prod.mk.inj ha
  obtain ⟨row, hrow, heq⟩ := List.map_eq_singleton_iff.mp ha'
  obtain ⟨row₀, hrow₀, hsending⟩ := List.map_eq_singleton_iff.mp before
  simp only [Prod.mk.injEq] at heq
  have taken := sent_to_all twoPerDay (fun j hj => hj) (by decide) rfl rfl
    ((Machine.Reachable.refl.runFrom_each hs all).mono leavesNoneOut_of_servesAll) hstep
    (by rw [hrow]; exact List.mem_singleton_self _) heq.1 fun row₁ hmem _ => (by
      rw [hrow₀, List.mem_singleton] at hmem
      rw [hmem, hsending]
      decide)
  rw [heq.2] at taken
  exact ⟨s, s', row, hs, hstep, hrow, heq.1, taken _ (by decide), taken _ (by decide)⟩

/-- The provider takes the message for one recipient, and asks to try the other one again later. -/
def takenForOne : List (Move Choice Job ℚ) := List.flatten
  [toRelay, [.run 1 (.smtp (.returned [{ recipient := "c@z", code := 450, message := "greylisted" }]
    "250 ok") true)], List.replicate 16 (.run 1 .ok)]

/-- The message is marked as sent, and nothing tells that a recipient was refused. -/
theorem recipient_lost_takenForOne : ∃ s s' row,
    (system twoPerDay Job.ofMail).Reachable Machine.Free (Machine.boot twoRcpts) s ∧
      (system twoPerDay Job.ofMail).step (.run 1 .ok) s = some s' ∧ row ∈ s'.shared.db.messages ∧
      row.status = .sent ∧ (∀ row₀ ∈ s.shared.db.messages, row₀.id = row.id → row₀.status ≠ .sent) ∧
      "c@z" ∈ row.rcptTo ∧ ¬ TakenFor row.id "c@z" s.trace ∧ ¬ Recorded s'.shared.db row "c@z" := by
  obtain ⟨s, hs, ha⟩ : ∃ s, (system twoPerDay Job.ofMail).runFrom
      (Machine.boot twoRcpts) takenForOne = some s ∧
      s.shared.db.messages.map Message.status = [.sending] :=
    Option.map_eq_some_iff.mp (by decide +kernel)
  obtain ⟨s', hs', ha'⟩ : ∃ s', (system twoPerDay Job.ofMail).runFrom (Machine.boot twoRcpts)
      (takenForOne ++ [.run 1 .ok]) = some s' ∧
      s'.shared.db.messages.map (fun m => (m.status, decide ("c@z" ∈ m.rcptTo),
        decide (TakenFor m.id "c@z" s'.trace.tail) || decide (Recorded s'.shared.db m "c@z"))) =
        [(.sent, true, false)] :=
    Option.map_eq_some_iff.mp (by decide +kernel)
  have hstep := (Machine.runFrom_concat hs _).symm.trans hs'
  obtain ⟨row, hrow, heq⟩ := List.map_eq_singleton_iff.mp ha'
  obtain ⟨row₀, hrow₀, hsending⟩ := List.map_eq_singleton_iff.mp ha
  simp only [Prod.mk.injEq, Bool.or_eq_false_iff, decide_eq_false_iff_not, decide_eq_true_eq] at heq
  obtain ⟨hsent, hmem, htaken, hrecorded⟩ := heq
  refine ⟨s, s', row, Machine.Reachable.refl.runFrom hs,
    hstep, by rw [hrow]; exact List.mem_singleton_self _,
    hsent, fun row₁ hmem _ => ?_, hmem, ?_, hrecorded⟩
  · rw [hrow₀, List.mem_singleton] at hmem
    rw [hmem, hsending]
    decide
  · obtain ⟨j, o, f, b, w, -, -, rfl⟩ := Machine.step_run hstep
    exact htaken

end Example

end SmtpSwitch
