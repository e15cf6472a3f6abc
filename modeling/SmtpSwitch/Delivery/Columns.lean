import SmtpSwitch.Delivery.Requeue
import SmtpSwitch.Delivery.Resend

/-!
# The status of a message and its other columns

Nine statements write `messages`, and each sets its own columns. `Consistent` says what the
columns of a row have to say in which status. All of them keep it but two: the update that puts
a message back after an exception leaves `claimed_at`, and a requeue leaves what the relay of a
sent message has set. As long as neither hits such a row, every row is consistent
(`rows_consistent`).
-/

namespace SmtpSwitch

open Coop Coop.Prog

/-- The columns of a row agree with its status. -/
structure Consistent (m : Message) : Prop where
  unclaimed : m.status = .queued ∨ m.status = .deadletter → m.claimedAt = none
  claimed : m.status = .sending → m.claimedAt.isSome = true
  sent : m.status = .sent → m.providerUsed.isSome = true ∧ m.sentAt.isSome = true ∧
    m.lastError = none
  unsent : m.status ≠ .sent → m.sentAt = none ∧ m.providerUsed = none

/-- A requeue is committed on rows that are queued or have been given up, and putting a message
back after an exception changes no row. -/
structure Tidy (x x' : Moment) : Prop where
  requeue : ∀ i site id v n, x'.trace = .did i (.commit site [.updateMessage id v])
    (.ok n) :: x.trace →
    ∀ m ∈ x.shared.db.messages, m.id = id → m.status = .queued ∨ m.status = .deadletter
  back : ∀ i site id n, x'.trace = .did i (.commit site [.updateMessages
      { ids := some [id], status := some .sending } { status := .queued }]) (.ok n) :: x.trace →
    ∀ m ∈ x.shared.db.messages, m.id = id → m.status ≠ .sending

section Steps

variable {cfg : Settings} {jobs : Job → Bool} {x x' : Moment}

/-- A row that is inserted. -/
theorem consistent_of_unmarked {m : Message} (queued : m.status = .queued) (h : m.Unmarked) :
    Consistent m where
  unclaimed _ := h.claimedAt
  claimed hs := by rw [queued] at hs; cases hs
  sent hs := by rw [queued] at hs; cases hs
  unsent _ := ⟨h.sentAt, h.providerUsed⟩

theorem unmarked_of_step (hs : (system cfg jobs).Step (delivery cfg) x x') {i : ℕ} {site : Site}
    {row : Message}
    {id : ℕ} (htr : x'.trace = .did i (.commit site [.insertMessage row]) (.ok id) :: x.trace) :
    row.Unmarked :=
  (hs.of_did htr).2.2.2.2

/-- A row that is being sent comes back queued or given up, with no claim. -/
theorem Consistent.release {m : Message} (h : Consistent m) (sending : m.status = .sending)
    {v : MessageValues}
    (hv : v.status = .queued ∨ v.status = .deadletter) (claim : v.claimedAt = some none)
    (provider : v.providerUsed = none) (sentAt : v.sentAt = none) : Consistent (v.apply m) where
  unclaimed _ := by simp [MessageValues.apply, claim]
  claimed hs := by
    rw [show (v.apply m).status = v.status from rfl] at hs
    rw [hs] at hv
    simp at hv
  sent hs := by
    rw [show (v.apply m).status = v.status from rfl] at hs
    rw [hs] at hv
    simp at hv
  unsent _ := by
    have := h.unsent (by rw [sending]; intro h; cases h)
    simpa [MessageValues.apply, provider, sentAt] using this

/-- An update of the dispatcher's. -/
theorem Consistent.update (own : Own cfg x) {i : ℕ} {wh : MessageWhere} {v : MessageValues}
    (hu : Updates cfg ((delivery cfg).phase x.trace i) wh v) {m : Message}
    (hm : m ∈ x.shared.db.messages) (h : Consistent m) (hw : wh.holds m = true)
    (back : ∀ id, wh = { ids := some [id], status := some .sending } → v = { status := .queued } →
      m.id = id →
      m.status ≠ .sending) : Consistent (v.apply m) := by
  generalize hφ : (delivery cfg).phase x.trace i = φ at hu
  have mine : ∀ {id}, φ.held = [id] → m.id = id → m.status = .sending := by
    intro id held hid
    exact own.sending (by rw [hφ, held]; exact List.mem_singleton_self id) hm hid
  cases hu with
  | @claim ids now hids =>
    simp only [MessageWhere.holds, Option.all_some, Option.all_none, Bool.and_true,
      decide_eq_true_eq] at hw
    have queued := ((own.due i ids hφ).2 m.id hw).2 m hm rfl
    exact ⟨fun hs => (by rcases hs with hs | hs <;> cases hs), fun _ => rfl,
      fun hs => (by cases hs),
      fun _ => h.unsent (by rw [queued]; intro hs; cases hs)⟩
  | markSent => exact ⟨fun hs => (by rcases hs with hs | hs <;> cases hs), fun hs => (by cases hs),
      fun _ => ⟨rfl, rfl, rfl⟩, fun hs => absurd rfl hs⟩
  | recover =>
    simp only [MessageWhere.holds, Option.all_some, Option.all_none, Bool.true_and,
      decide_eq_true_eq] at hw
    exact h.release hw (.inl rfl) rfl rfl rfl
  | retry | postpone =>
    simp only [MessageWhere.holds, Option.all_some, Option.all_none, Bool.and_true,
      List.mem_singleton, decide_eq_true_eq] at hw
    exact h.release (mine rfl hw) (.inl rfl) rfl rfl rfl
  | deadletter =>
    simp only [MessageWhere.holds, Option.all_some, Option.all_none, Bool.and_true,
      List.mem_singleton, decide_eq_true_eq] at hw
    exact h.release (mine rfl hw) (.inr rfl) rfl rfl rfl
  | requeue =>
    simp only [MessageWhere.holds, Option.all_some, List.mem_singleton, Bool.and_eq_true,
      decide_eq_true_eq] at hw
    exact absurd hw.2 (back _ rfl rfl hw.1)

/-- A requeue of a row that is queued or has been given up. -/
theorem Consistent.requeue {m row : Message} {now : Time} (h : Consistent m)
    (hs : m.status = .queued ∨ m.status = .deadletter) :
    Consistent ((requeueValues row now).apply m) := by
  have unsent : m.status ≠ .sent := by
    intro sent
    rw [sent] at hs
    simp at hs
  refine ⟨fun _ => ?_, fun hs => (by cases hs), fun hs => (by cases hs), fun _ => h.unsent unsent⟩
  have unclaimed := h.unclaimed hs
  simp only [MessageValues.apply, requeueValues, changed]
  split
  · exact unclaimed
  · rfl

variable (cfg) in
/-- Every row is consistent. -/
structure Columns (x : Moment) : Prop extends Own cfg x, Kept cfg x where
  columns : ∀ m ∈ x.shared.db.messages, Consistent m

theorem Tidy.spares (hc : Tidy x x') (unswept : Unswept cfg x)
    (hs : (system cfg jobs).Step (dispatch cfg) x x') :
    Spares x x' where
  requeue i site id v n htr m hm hid sending := by
    have := hc.requeue i site id v n htr m hm hid
    rw [sending] at this
    simp at this
  sweep i site ids ids' n htr := absurd htr (unswept.not_swept hs)

theorem Columns.step (h : Columns cfg x) (unswept : Unswept cfg x) (hj : ∀ j, jobs j = true →
    j.ofSenders = true)
    (hs : (system cfg jobs).Step (dispatch cfg) x x') (hc : Tidy x x') : Columns cfg x' := by
  have spares := hc.spares unswept hs
  rcases upkeep_or_delivery hs with hs | ⟨i, hs⟩
  · refine ⟨h.toOwn.step hs (h.toKept.fresh hs),
      h.toKept.step (fun j hjob => duty_of_ofSenders (hj j hjob)) hs, ?_⟩
    intro m' hm'
    cases rowOf_step hs hm' with
    | same hm => exact h.columns m' hm
    | inserted _ queued _ heq htr =>
      have unmarked := unmarked_of_step hs htr
      subst heq
      exact consistent_of_unmarked queued ⟨unmarked.lastError, unmarked.providerUsed,
        unmarked.sentAt, unmarked.claimedAt⟩
    | updated hm hmid hu hw heq htr =>
      subst heq
      refine (h.columns _ hm).update h.toOwn hu hm hw fun id hwh hv hid => ?_
      subst hwh hv
      exact hc.back _ _ _ _ htr _ hm hid
  · refine ⟨h.toOwn.beside hs spares.requeue, h.toKept.beside h.toOwn hs spares, ?_⟩
    intro m' hm'
    rcases hs.row hm' with hm | ⟨_, id, row, now, _, -, htr, m, hm, hid, rfl⟩
    · exact h.columns m' hm
    · exact (h.columns m hm).requeue (hc.requeue _ _ _ _ _ htr m hm hid)

end Steps

/-- **The status column and its companions stay consistent, as long as no requeue hits a message
that is sent or being sent, and none is put back after an exception.** In every run of the ingress
server, the producer, the consumers, crashes, restarts and requeues in which that is so. -/
theorem rows_consistent (cfg : Settings) {jobs : Job → Bool} (hj : ∀ j, jobs j = true →
    j.ofSenders = true)
    {w : World} (ids : (w.db.messages.map Message.id).Nodup) (down : w.up = false)
    (empty : w.queue = [])
    (rows : ∀ m ∈ w.db.messages, Consistent m) {s : Pool Op Op.Ans Exc World Job ℚ}
    (h : (system cfg jobs).Reachable Tidy (Machine.boot w) s) :
    ∀ m ∈ s.shared.db.messages, Consistent m := by
  have keeps : (system cfg jobs).Keeps (dispatch cfg) :=
    dispatch_keeps fun j hjob => Job.onMessages_of_ofSenders (hj j hjob)
  have start : Owned cfg ⟨w, []⟩ := Owned.init ids down empty
  exact (Machine.invariant keeps (fun x => Columns cfg x ∧ Unswept cfg x)
    ⟨⟨start.toOwn, start.toKept, rows⟩, fun i => .inl rfl⟩
    (fun h hs hc => ⟨h.1.step h.2 hj hs hc, h.2.step hj hs⟩) h).1.1.columns

namespace Example

/-- A message has been sent. -/
def oneSent : World :=
  { twoDue with db := { messages := [{ dueMessage 1 with status := .sent, providerUsed := some "p",
                                                         sentAt := some 0, claimedAt :=
                                                           some 0 }] } }

theorem oneDead_consistent (m : Message) (hm : m ∈ oneDead.db.messages) : Consistent m := by
  obtain rfl := List.mem_singleton.mp hm
  exact ⟨fun _ => rfl, fun h => (by cases h), fun h => (by cases h), fun _ => ⟨rfl, rfl⟩⟩

/-- The next operation is no requeue of a message that is sent or being sent, and puts none back. -/
def tidyNext (m : Move Choice Job ℚ) (s : Pool Op Op.Ans Exc World Job ℚ) : Bool :=
  match m with
  | .run i _ => match s.tasks i with
    | some (_, .op (.commit _ [.updateMessage _ _]) _) =>
      s.shared.db.messages.all fun row => row.status = .queued ∨ row.status = .deadletter
    | some (_, .op (.commit _ [.updateMessages _ v]) _) => v ≠ { status := .queued }
    | _ => true
  | _ => true

theorem tidy_of_next {jobs : Job → Bool} {m : Move Choice Job ℚ}
    {s s' : Pool Op Op.Ans Exc World Job ℚ}
    (hm : tidyNext m s = true) (hs : (system twoPerDay jobs).step m s = some s') :
    Tidy s.toConfig s'.toConfig := by
  refine ⟨fun i site id v n htr row hrow _ => ?_, fun i site id n htr => ?_⟩
  · obtain ⟨c, j, k, rfl, ht, -⟩ := Machine.step_did hs htr
    simp only [tidyNext, ht, List.all_eq_true, decide_eq_true_eq] at hm
    exact hm row hrow
  · obtain ⟨c, j, k, rfl, ht, -⟩ := Machine.step_did hs htr
    simp [tidyNext, ht] at hm

/-- A message that was given up is requeued and sent. -/
theorem rows_consistent_requeued : ∃ s,
    (system twoPerDay Job.ofSenders).runFrom (Machine.boot oneDead)
      (List.flatten [requeued, claimedAgain, [taken], List.replicate 17 (.run 1 .ok)]) = some s ∧
      s.shared.db.messages.map Message.status = [.sent] ∧ ∀ m ∈ s.shared.db.messages,
        Consistent m := by
  obtain ⟨s, hs, rows⟩ : ∃ s, (system twoPerDay Job.ofSenders).runFrom (Machine.boot oneDead)
      (List.flatten [requeued, claimedAgain, [taken], List.replicate 17 (.run 1 .ok)]) = some s ∧
      s.shared.db.messages.map Message.status = [.sent] :=
        Option.map_eq_some_iff.mp (by decide +kernel)
  have along : (system twoPerDay Job.ofSenders).along tidyNext (Machine.boot oneDead)
      (List.flatten [requeued, claimedAgain, [taken], List.replicate 17 (.run 1 .ok)]) = true := by
    decide +kernel
  exact ⟨s, hs, rows, rows_consistent twoPerDay (fun j hj =>
    hj) (by decide) rfl rfl oneDead_consistent
    (Machine.Reachable.refl.runFrom_along tidy_of_next along hs)⟩

/-- The database is locked when the attempt is recorded, and the message is put back. -/
def putBack : List (Move Choice Job ℚ) := List.flatten
  [requeued, claimedAgain, [taken, .run 1 .ok, .run 1 (.fail .operationalError)],
    List.replicate 2 (.run 1 .ok)]

/-- A message that was sent is requeued: it is queued, with the time it was sent. A message is put
back after an exception: it is queued, with the time it was claimed. -/
theorem inconsistent_putBack :
    (∃ s, (system twoPerDay Job.ofSenders).Reachable Machine.Free (Machine.boot oneSent) s ∧
      ∃ m ∈ s.shared.db.messages, ¬ Consistent m) ∧
    ∃ s, (system twoPerDay Job.ofSenders).Reachable Machine.Free (Machine.boot oneDead) s ∧
      ∃ m ∈ s.shared.db.messages, ¬ Consistent m := by
  constructor
  · obtain ⟨s, hs, ha⟩ : ∃ s, (system twoPerDay Job.ofSenders).runFrom
      (Machine.boot oneSent) requeued = some s ∧
        s.shared.db.messages.any (fun m => m.status = .queued ∧ m.sentAt = some 0) = true :=
      Option.map_eq_some_iff.mp (by decide +kernel)
    obtain ⟨m, hm, h⟩ := List.any_eq_true.mp ha
    obtain ⟨queued, sentAt⟩ := of_decide_eq_true h
    refine ⟨s, Machine.Reachable.refl.runFrom hs, m, hm, fun ok => ?_⟩
    have := (ok.unsent (by rw [queued]; intro h; cases h)).1
    rw [sentAt] at this
    cases this
  · obtain ⟨s, hs, ha⟩ : ∃ s, (system twoPerDay Job.ofSenders).runFrom
      (Machine.boot oneDead) putBack = some s ∧
        s.shared.db.messages.any (fun m => m.status = .queued ∧ m.claimedAt.isSome = true) = true :=
      Option.map_eq_some_iff.mp (by decide +kernel)
    obtain ⟨m, hm, h⟩ := List.any_eq_true.mp ha
    obtain ⟨queued, claimed⟩ := of_decide_eq_true h
    refine ⟨s, Machine.Reachable.refl.runFrom hs, m, hm, fun ok => ?_⟩
    rw [ok.unclaimed (.inl queued)] at claimed
    cases claimed

end Example

end SmtpSwitch
