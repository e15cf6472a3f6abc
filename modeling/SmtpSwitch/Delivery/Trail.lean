import SmtpSwitch.Delivery.Ownership

/-!
# The trail of a message

What the trace of a run tells of one message: its relays, and what has happened since
its row was inserted (`since`). `TurnNext` says what one operation makes of a
consumer's turn. A consumer at work on an id is the only one to hold it (`Own.alone`).
-/

namespace SmtpSwitch

open Coop Coop.Prog

/-! ### Relays -/

/-- The message a relay is made for. -/
def Op.relayFor : Op → Option ℕ
  | .send _ _ _ _ _ errand => some errand.message
  | _ => none

/-- A relay of `id` was made. -/
def relaysOf (id : ℕ) : Entry Op Op.Ans Job ℚ → Bool
  | .did _ o _ => o.relayFor = some id
  | _ => false

/-- A relay of `id` was classified as sent. -/
def acceptedFor (id : ℕ) : Entry Op Op.Ans Job ℚ → Bool
  | .did _ (.send _ _ _ _ _ errand) out => errand.message = id && sentBy out
  | _ => false

/-- The process does not die. -/
def lives : Entry Op Op.Ans Job ℚ → Bool
  | .crash => false
  | _ => true

/-- A row was inserted under `id`. -/
def insertsAt (id : ℕ) : Entry Op Op.Ans Job ℚ → Bool
  | .did _ (.commit _ [.insertMessage _]) (.ok n) => n = id
  | _ => false

/-- What has happened since a row was inserted under `id`, newest first. -/
def since (id : ℕ) (tr : List (Entry Op Op.Ans Job ℚ)) : List (Entry Op Op.Ans Job ℚ) :=
  tr.takeWhile fun e => !insertsAt id e

theorem since_cons (id : ℕ) (e : Entry Op Op.Ans Job ℚ) (tr : List (Entry Op Op.Ans Job ℚ)) :
    since id (e :: tr) = if insertsAt id e then [] else e :: since id tr := by
  unfold since
  rw [List.takeWhile_cons]
  cases insertsAt id e <;> rfl

/-- Since its row was inserted, a relay of `id` was classified as sent. -/
def Accepted (id : ℕ) (tr : List (Entry Op Op.Ans Job ℚ)) : Prop :=
  ∃ e ∈ since id tr, acceptedFor id e = true

instance (id : ℕ) (tr : List (Entry Op Op.Ans Job ℚ)) : Decidable (Accepted id tr) := by
  unfold Accepted
  infer_instance

theorem accepted_cons {id : ℕ} {e : Entry Op Op.Ans Job ℚ} {tr : List (Entry Op Op.Ans Job ℚ)} :
    Accepted id (e :: tr) ↔ insertsAt id e = false ∧
      (acceptedFor id e = true ∨ Accepted id tr) := by
  unfold Accepted
  rw [since_cons]
  cases insertsAt id e <;> simp

/-! ### One operation of a turn -/

/-- What an operation makes of a turn. -/
inductive TurnNext (id : ℕ) (t : Turn) (told : Option Time) (drawn : Option ℚ) :
    (o : Op) → o.Ans → Duty → Prop where
  | told {now : Time} : TurnNext id t told drawn .utcnow now (.turn id t (some now) drawn)
  | drawn {q : ℚ} : TurnNext id t told drawn .random q (.turn id t told (some q))
  | read {path : String} {raw : Bytes} :
      TurnNext id t told drawn (.spoolRead path) (.ok raw)
        (.turn id { t with raw := some raw } told drawn)
  | relayed {p : String} {kw : SendKwargs} {sender : String} {rcpts : List String} {raw : Bytes}
      {errand : Errand} {out : SendOutcome} {result : RelayResult} : resultOf out = .ok result →
        TurnNext id t told drawn (.send p kw sender rcpts raw errand) out
          (.turn id { t with sends := t.sends + 1, sent := sentBy out } told drawn)
  | raised {p : String} {kw : SendKwargs} {sender : String} {rcpts : List String} {raw : Bytes}
      {errand : Errand} {out : SendOutcome} {e : Exc} : resultOf out = .error e →
        TurnNext id t told drawn (.send p kw sender rcpts raw errand) out
          (.failed id (t.sends + 1) false)
  | wrote {site : Site} {wh : MessageWhere} {v : MessageValues} {n : ℕ} :
      TurnNext id t told drawn (.commit site [.updateMessages wh v]) (.ok n) .idle
  | recorded {site : Site} {row : DeliveryAttempt} {n : ℕ} :
      TurnNext id t told drawn (.commit site [.insertAttempt row]) (.ok n)
        (.turn id { t with recorded := t.recorded + 1 } told drawn)
  | broken {o : Op} {a : o.Ans} : o.relayFor = none → o.fails a = true →
      TurnNext id t told drawn o a (.failed id t.sends t.sent)
  | other {o : Op} {a : o.Ans} : o.relayFor = none →
      (∀ site wh v, o ≠ .commit site [.updateMessages wh v]) →
      TurnNext id t told drawn o a (.turn id t told drawn)

theorem turnNext (id : ℕ) (t : Turn) (told : Option Time) (drawn : Option ℚ) (o : Op) (a : o.Ans) :
    TurnNext id t told drawn o a (Duty.nextTurn id t told drawn o a) := by
  have quiet : (∀ p kw sender rcpts raw errand (out : SendOutcome),
      o = .send p kw sender rcpts raw errand → HEq a out → False) → o.relayFor = none := by
    intro hsend
    cases o with
    | send p kw sender rcpts raw errand => exact (hsend _ _ _ _ _ _ a rfl HEq.rfl).elim
    | _ => rfl
  fun_cases Duty.nextTurn id t told drawn o a
  case case1 => exact .told
  case case2 => exact .drawn
  case case3 => exact .read
  case case4 => exact .other rfl fun _ _ _ h => by cases h
  case case5 => exact .relayed (by assumption)
  case case6 => exact .raised (by assumption)
  case case7 => exact .wrote
  case case8 => exact .recorded
  case case9 hsend _ _ hf => exact .broken (quiet hsend) hf
  case case10 hsend hwrote _ hf =>
    refine .other (quiet hsend) ?_
    rintro site wh v rfl
    cases a with
    | ok n => exact hwrote _ _ _ n rfl HEq.rfl
    | error e => exact hf rfl

/-- A turn begins when its row has been read, and goes on. -/
theorem turn_of_next {φ : Duty} {o : Op} {a : o.Ans} {id : ℕ} {t' : Turn} {told' : Option Time}
    {drawn' : Option ℚ} (h : φ.next o a = .turn id t' told' drawn') :
    (∃ t told drawn, φ = .turn id t told drawn ∧
      TurnNext id t told drawn o a (.turn id t' told' drawn')) ∨
      ∃ row, φ = .read id (some row) ∧ row.status.terminal = false ∧ t' = { row := row } ∧
        told' = none ∧ drawn' = none := by
  have next := φ.next_cases o a
  rw [h] at next
  cases next with
  | same still => exact absurd rfl (still _ _ _ _)
  | @turn _ m _ _ live => exact .inr ⟨m, rfl, live, rfl, rfl, rfl⟩
  | @turned _ t _ told _ drawn _ _ _ turn =>
    have turnNext := turnNext id t told drawn o a
    rw [turn] at turnNext
    exact .inl ⟨t, told, drawn, rfl, turnNext⟩

/-- A consumer that has failed puts its message back, once. -/
theorem next_failed (id sends : ℕ) (sent : Bool) (o : Op) (a : o.Ans) :
    (Duty.failed id sends sent).next o a = .failed id sends sent ∨
      (Duty.failed id sends sent).next o a = .idle := by
  cases o with
  | flush site => cases site <;> cases a <;> first | exact .inl rfl | exact .inr rfl
  | commit site ss =>
    match ss with
    | [] => exact .inl rfl
    | [s] => cases s <;> first | exact .inl rfl | exact .inr rfl
    | s :: _ :: _ => cases s <;> exact .inl rfl
  | _ => exact .inl rfl

/-- What has been read was read by the consumer that has the id, or is read now. -/
theorem read_of_next {φ : Duty} {o : Op} {a : o.Ans} {id : ℕ} {row : Option Message}
    (h : φ.next o a = .read id row) : φ = .read id row ∨ φ = .got id ∧ ∃ site id',
      (⟨o, a⟩ : Σ o : Op, o.Ans) = ⟨.select site (.message id'), .ok row⟩ := by
  have next := φ.next_cases o a
  rw [h] at next
  cases next with
  | same => exact .inl rfl
  | read => exact .inr ⟨rfl, _, _, rfl⟩

/-- What is read is the row there is. -/
theorem read_of_did {cfg : Settings} {φ : Duty} {i : ℕ} {o : Op} {a : o.Ans} {c : Choice}
    {w w' : World} {id : ℕ}
    {row : Option Message} (he : exec cfg i o c w = some (a, w')) (hg : φ.good cfg o a)
    (h : φ.next o a = .read id row) :
    φ = .read id row ∨ φ = .got id ∧ row = w.db.messages.find? fun m => m.id = id := by
  rcases read_of_next h with old | ⟨hφ, site, id', heq⟩
  · exact .inl old
  cases heq
  have hid : φ = .got id' := by
    have hg : φ = .got id' ∨ φ = .deleting := hg
    rcases hg with hg | hg
    · exact hg
    · rw [hφ] at hg
      cases hg
  obtain rfl : id = id' := by
    rw [hφ] at hid
    cases hid
    rfl
  refine .inr ⟨hφ, ?_⟩
  rcases (exec_select he).1 with hans | ⟨e, hans⟩
  · exact Except.ok.inj hans
  · cases hans

/-- Where a row comes from: it was there, or is inserted, or is updated. -/
inductive RowOf (cfg : Settings) (x x' : Moment) (m' : Message) : Prop where
  | same : m' ∈ x.shared.db.messages →
      (∀ i site wh v n, x'.trace = .did i (.commit site [.updateMessages wh v]) (.ok n) :: x.trace →
        wh.holds m' = false) → RowOf cfg x x' m'
  | inserted {i : ℕ} {site : Site} {row : Message} {content : Bytes} :
      (delivery cfg).phase x.trace i = .spooled content row.spoolPath → row.status = .queued →
        row.attempts = 0 →
      m' = { row with id := nextId (x.shared.db.messages.map Message.id) } →
      x'.trace = .did i (.commit site [.insertMessage row]) (.ok m'.id) :: x.trace →
        RowOf cfg x x' m'
  | updated {i : ℕ} {site : Site} {wh : MessageWhere} {v : MessageValues} {n : ℕ} {m : Message} :
      m ∈ x.shared.db.messages → m.id = m'.id → Updates cfg ((delivery cfg).phase x.trace i) wh v →
      wh.holds m = true → m' = v.apply m →
      x'.trace = .did i (.commit site [.updateMessages wh v]) (.ok n) :: x.trace → RowOf cfg x x' m'

theorem rowOf_step {cfg : Settings} {jobs : Job → Bool} {x x' : Moment}
    (hs : (system cfg jobs).Step (delivery cfg) x x') {m' : Message}
    (hm' : m' ∈ x'.shared.db.messages) :
    RowOf cfg x x' m' := by
  rcases rows_of_step hs with ⟨same, nothing⟩ | ⟨i, site, ss, htr, change⟩
  · rw [same] at hm'
    exact .same hm' fun _ _ _ _ _ h => absurd h (nothing _ _ _ _)
  generalize x'.shared.db.messages = ms at change hm'
  have other : (∀ wh v, ss ≠ [.updateMessages wh v]) → ∀ i site wh v n,
      x'.trace = .did i (.commit site [.updateMessages wh v]) (.ok n) :: x.trace →
        wh.holds m' = false := by
    intro noUpdate i' site' wh v n h
    rw [htr] at h
    cases h
    exact absurd rfl (noUpdate wh v)
  cases change with
  | none noUpdate => exact .same hm' (other noUpdate)
  | delete => exact .same (List.mem_of_mem_filter hm') (other fun _ _ h => by cases h)
  | @insert row content hφ queued fresh =>
    rcases List.mem_append.mp hm' with hm' | hm'
    · exact .same hm' (other fun _ _ h => by cases h)
    · obtain rfl := List.mem_singleton.mp hm'
      exact .inserted hφ queued fresh rfl htr
  | @update wh v hu =>
    obtain ⟨m, hm, hid, ⟨hw, rfl⟩ | ⟨hw, rfl⟩⟩ := mem_applyUpdate hm'
    · refine .same hm fun i' site' wh' v' n h => ?_
      rw [htr] at h
      cases h
      exact hw
    · exact .updated hm hid hu hw rfl htr

section Alone

variable {cfg : Settings} {x : Moment}

/-- A consumer that has an id is the only one to hold it. -/
theorem Own.alone (h : Own cfg x) {i k id : ℕ} (hi : id ∈ ((delivery cfg).phase x.trace i).held)
    (hk : id ∈ ((delivery cfg).phase x.trace k).held) : i = k := by
  by_contra other
  have both := Protocol.sum_le_total (P := delivery cfg) (f := fun φ =>
      φ.held.count id) rfl x.trace {i, k}
  rw [Finset.sum_pair other] at both
  have := List.count_pos_iff.mpr hi
  have := List.count_pos_iff.mpr hk
  have total : (delivery cfg).total (fun φ => φ.held.count id) x.trace ≤ holders cfg id x :=
    Nat.le_add_left _ _
  have := h.single id
  omega

theorem Own.not_queued (h : Own cfg x) {i id : ℕ}
    (hi : id ∈ ((delivery cfg).phase x.trace i).held) :
    id ∉ x.shared.queue := by
  intro hq
  have mine := Protocol.le_total (P := delivery cfg) (f := fun φ => φ.held.count id) rfl x.trace i
  have := List.count_pos_iff.mpr hi
  have := List.count_pos_iff.mpr hq
  have := h.single id
  unfold holders at this
  omega

theorem Own.sending (h : Own cfg x) {i id : ℕ} (hi : id ∈ ((delivery cfg).phase x.trace i).held)
    {m : Message} (hm : m ∈ x.shared.db.messages) (hid : m.id = id) : m.status = .sending := by
  refine h.held m hm ?_
  rw [hid]
  exact (List.count_pos_iff.mpr hi).trans_le (held_le_holders cfg id i x)

end Alone

/-! ### The row a consumer has read -/

section Snapshot

variable {cfg : Settings} {jobs : Job → Bool} {x x' : Moment}

section Did

variable {w w' : World} {tr : List (Entry Op Op.Ans Job ℚ)} {i : ℕ} {o : Op}
  {a : o.Ans} {c : Choice}

/-- The row of an id a consumer holds after a step was there before, unchanged. -/
theorem mem_of_held (own' : Own cfg ⟨w', .did i o a :: tr⟩) {k id : ℕ}
    (hs : (system cfg jobs).Step (delivery cfg) ⟨w, tr⟩ ⟨w', .did i o a :: tr⟩)
    (hk : id ∈ ((delivery cfg).phase (.did i o a :: tr) k).held)
    (noBatch : ∀ ids, (delivery cfg).phase (.did i o a :: tr) k ≠ .batch ids) {m' : Message}
    (hm' : m' ∈ w'.db.messages) (hid : m'.id = id) : m' ∈ w.db.messages := by
  have sending : m'.status = .sending := own'.sending hk hm' hid
  cases rowOf_step hs hm' with
  | same hm _ => exact hm
  | inserted _ queued _ heq _ =>
    rw [heq, show _ = MessageStatus.queued from queued] at sending
    cases sending
  | @updated i' site wh v n m hm hmid hu hw heq htr =>
    cases htr
    subst heq
    rcases updates_cases hu with ⟨ids, now, hφ, -, rfl, rfl⟩ | ⟨-, -, rfl⟩ | ⟨id', -, -, hv, -, -⟩
    · simp only [MessageWhere.holds, Option.all_some, Option.all_none, Bool.and_true,
        decide_eq_true_eq] at hw
      have batch : (delivery cfg).phase (.did i (.commit site [.updateMessages { ids := some ids }
          { status := .sending, claimedAt := some (some now) }]) (.ok n) :: tr) i = .batch ids := by
        rw [phase_did_apply, if_pos rfl, show (delivery cfg).phase tr i = _ from hφ]
        rfl
      have held : id ∈ ((delivery cfg).phase
          (.did i (.commit site [.updateMessages { ids := some ids }
          { status := .sending, claimedAt := some (some now) }]) (.ok n) :: tr) i).held := by
        rw [batch, ← hid]
        exact hw
      obtain rfl := own'.alone hk held
      exact absurd batch (noBatch ids)
    · cases sending
    · exact absurd sending hv

end Did

variable (cfg) in
/-- A consumer's message is as it was read. -/
structure Snapped (x : Moment) : Prop extends Own cfg x where
  read : ∀ i id row, (delivery cfg).phase x.trace i = .read id (some row) →
    ∀ m ∈ x.shared.db.messages, m.id = id → m = row
  turn : ∀ i id t told drawn, (delivery cfg).phase x.trace i = .turn id t told drawn →
    ∀ m ∈ x.shared.db.messages, m.id = id → m = t.row

/-- A task that holds something is not just started. -/
theorem phase_start_held {tr : List (Entry Op Op.Ans Job ℚ)} {i k : ℕ} {j : Job} {φ : Duty}
    (hk : (delivery cfg).phase (.start i j :: tr) k = φ) (hne : φ.held ≠ []) :
    (delivery cfg).phase tr k = φ := by
  rw [Protocol.phase_start, Function.update_apply] at hk
  split at hk
  · subst hk
    cases j <;> exact absurd rfl hne
  · exact hk

theorem Snapped.step (h : Snapped cfg x) (hs : (system cfg jobs).Step (delivery cfg) x x')
    (hc : Fresh cfg x x') : Snapped cfg x' := by
  have own := h.toOwn.step hs hc
  have hs' := hs
  have some_ : ∀ id : ℕ, [id] ≠ [] := fun id => List.cons_ne_nil _ _
  cases hs with
  | start => exact ⟨own, fun k id row hk => h.read k id row (phase_start_held hk (some_ id)),
      fun k id t told drawn hk => h.turn k id t told drawn (phase_start_held hk (some_ id))⟩
  | env => exact ⟨own, h.read, h.turn⟩
  | crash => exact ⟨own, fun k id row hk => (by cases hk), fun k id t told drawn hk =>
      (by cases hk)⟩
  | @did w w' tr i o c a he hg =>
    have he : exec cfg i o c w = some (a, w') := he
    have hg : ((delivery cfg).phase tr i).good cfg o a := hg
    refine ⟨own, fun k id row hk m' hm' hid => ?_, fun k id t told drawn hk m' hm' hid => ?_⟩
    · change (delivery cfg).phase (.did i o a :: tr) k = .read id (some row) at hk
      have hm : m' ∈ w.db.messages :=
        mem_of_held own hs' (by rw [hk]; exact List.mem_singleton_self id)
        (fun ids h => by rw [hk] at h; cases h) hm' hid
      rw [phase_did_apply] at hk
      split at hk
      · subst k
        rcases read_of_did he hg hk with old | ⟨-, hrow⟩
        · exact h.read i id row old m' hm hid
        · have hmem := List.mem_of_find?_eq_some hrow.symm
          have hrid : row.id = id := by simpa using List.find?_some hrow.symm
          exact List.inj_on_of_nodup_map h.ids hm hmem (hid.trans hrid.symm)
      · exact h.read k id row hk m' hm hid
    · change (delivery cfg).phase (.did i o a :: tr) k = .turn id t told drawn at hk
      have hm : m' ∈ w.db.messages :=
        mem_of_held own hs' (by rw [hk]; exact List.mem_singleton_self id)
        (fun ids h => by rw [hk] at h; cases h) hm' hid
      rw [phase_did_apply] at hk
      split at hk
      · subst k
        rcases turn_of_next hk with ⟨t₀, told₀, drawn₀, hφ, hnext⟩ | ⟨row, hφ, -, rfl, -⟩
        · have old := h.turn i id t₀ told₀ drawn₀ hφ m' hm hid
          cases hnext <;> exact old
        · exact h.read i id row hφ m' hm hid
      · exact h.turn k id t told drawn hk m' hm hid

end Snapshot

end SmtpSwitch
