import SmtpSwitch.Delivery.Upkeep

/-!
# Requeues and claims

`requeue` reads the status of a message and commits its update in a later step. Between the two
another requeue of the message may have been committed, and the producer may have claimed it
again. The trace tells: the commit hits a row that is being sent exactly if the newest of the
dispatcher's updates of the row since the call began is a claim (`busySince`). As long as no
requeue is committed then, no message is given to a second consumer while a first one is at it
(`requeue_spares_sending`). -/

namespace SmtpSwitch

open Coop Coop.Prog

/-! ### What the trace tells -/

/-- Whether one of the dispatcher's updates of a message claims it; `none` if the entry is no such
update. -/
def claims (id : ℕ) : Entry Op Op.Ans Job ℚ → Option Bool
  | .did _ (.commit _ [.updateMessages wh v]) (.ok _) =>
    if id ∈ wh.ids.getD [] then some (v.status = .sending) else none
  | _ => none

/-- The task is started. -/
def starts (i : ℕ) : Entry Op Op.Ans Job ℚ → Bool
  | .start k _ => k = i
  | _ => false

/-- The newest of the dispatcher's updates of the message since task `i` was started is a claim. -/
def busySince (i id : ℕ) (tr : List (Entry Op Op.Ans Job ℚ)) : Bool :=
  ((tr.takeWhile fun e => !starts i e).findSome? (claims id)).getD false

theorem busySince_cons (i id : ℕ) (e : Entry Op Op.Ans Job ℚ) (tr : List (Entry Op Op.Ans Job ℚ)) :
    busySince i id (e :: tr) = if starts i e then false else (claims id e).getD
      (busySince i id tr) := by
  unfold busySince
  cases hs : starts i e with
  | true => simp [hs]
  | false => cases hc : claims id e <;> simp [hs, hc]

/-- The message a requeue is about. -/
def Upkeep.on : Upkeep → Option ℕ
  | .requeue id | .requeueing id _ _ => some id
  | _ => none

theorem Upkeep.ofPlansLeft (plans : List (MessageStatus × Time)) : (plansLeft plans).on = none := by
  cases plans <;> rfl

theorem Upkeep.ofFilesLeft (plans : List (MessageStatus × Time)) (rows : List (ℕ × String)) :
    (filesLeft plans rows).on = none := by
  cases rows with
  | nil => exact ofPlansLeft plans
  | cons => rfl

section Next

variable {cfg : Settings} {u : Upkeep} {o : Op} {a : o.Ans} {id : ℕ}

/-- A requeue is about one message. -/
theorem Upkeep.on_next (h : (u.next cfg o a).on = some id) : u.on = some id := by
  revert h
  fun_cases Upkeep.next cfg u o a
  all_goals
    intro h
    first
    | exact h
    | cases h
    | (rw [ofPlansLeft] at h; cases h)
    | (rw [ofFilesLeft] at h; cases h)

/-- A requeue goes on, or has just read a row at its end. -/
theorem Upkeep.requeueing_of_next {row : Message} {told : Option Time}
    (h : u.next cfg o a = .requeueing id row told) : (∃ told', u = .requeueing id row told') ∨
      u = .requeue id ∧ row.status.terminal = true ∧ ∃ site id',
        (⟨o, a⟩ : Σ o : Op, o.Ans) = ⟨.select site (.message id'), .ok (some row)⟩ := by
  revert h
  fun_cases Upkeep.next cfg u o a
  all_goals
    intro h
    first
    | exact .inl ⟨_, h⟩
    | (cases h; exact .inl ⟨_, rfl⟩)
    | (cases h; exact .inr ⟨rfl, by assumption, _, _, rfl⟩)
    | cases h
    | (have idle := congrArg Upkeep.on h; rw [ofPlansLeft] at idle; cases idle)
    | (have idle := congrArg Upkeep.on h; rw [ofFilesLeft] at idle; cases idle)

theorem claims_of_upkeep (h : u.good o a) (i id : ℕ) : claims id (.did i o a) = none := by
  cases o with
  | commit site ss =>
    rcases ss with _ | ⟨s, _ | ⟨s', rest⟩⟩
    · rfl
    · cases s <;> first | rfl | cases h
    · cases s <;> rfl
  | _ => rfl

end Next

section Invariants

variable {cfg : Settings} {jobs : Job → Bool} {x x' : Moment}

/-- The message is being sent. -/
def BeingSent (id : ℕ) (ms : List Message) : Prop := ∃ m ∈ ms, m.id = id ∧ m.status = .sending

/-- What a step makes of the messages being sent: an update that names one decides, and any other
step leaves it as it is, the recovery of a process that has died apart. -/
structure Tells (id : ℕ) (e : Entry Op Op.Ans Job ℚ) (up : Bool) (ms ms' : List Message) :
    Prop where
  named : ∀ b, claims id e = some b → (BeingSent id ms' ↔ b = true)
  back : claims id e = none → BeingSent id ms' → BeingSent id ms
  stays : claims id e = none → up = true → BeingSent id ms → BeingSent id ms'

theorem Tells.of_same {id : ℕ} {e : Entry Op Op.Ans Job ℚ} {up : Bool} {ms ms' : List Message}
    (unclaimed : claims id e = none) (same : BeingSent id ms' ↔ BeingSent id ms) :
    Tells id e up ms ms' where
  named b h := by rw [unclaimed] at h; cases h
  back _ := same.mp
  stays _ _ := same.mpr

theorem mem_applyUpdate_of_holds (wh : MessageWhere) (v : MessageValues) {ms : List Message}
    {m : Message} (hm : m ∈ ms) (h : wh.holds m = true) : v.apply m ∈ applyUpdate wh v ms :=
  List.mem_map.mpr ⟨m, hm, by rw [if_pos h]⟩

/-- An update that does not concern the message. -/
theorem beingSent_applyUpdate {wh : MessageWhere} {v : MessageValues} {ms : List Message} {id : ℕ}
    (h : ∀ m : Message, m.id = id → wh.holds m = false) : BeingSent id (applyUpdate wh v ms) ↔
      BeingSent id ms := by
  refine ⟨fun sent => ?_, fun sent => ?_⟩
  · obtain ⟨m', hm', hid, hs⟩ := sent
    obtain ⟨m, hm, hmid, ⟨-, rfl⟩ | ⟨hw, -⟩⟩ := mem_applyUpdate hm'
    · exact ⟨m', hm, hid, hs⟩
    · rw [h m (hmid.trans hid)] at hw
      cases hw
  · obtain ⟨m, hm, hid, hs⟩ := sent
    exact ⟨m, List.mem_map.mpr ⟨m, hm, if_neg (by rw [h m hid]; exact Bool.false_ne_true)⟩, hid, hs⟩

/-- A commit of the dispatcher's. -/
theorem tells_of_rowChange (own : Own cfg x) (kept : Kept cfg x) {i : ℕ} {site : Site}
    {ss : List Stmt} {n : ℕ} {ms : List Message}
    (change : RowChange cfg ((delivery cfg).phase x.trace i) x.shared.db.messages ss ms)
    (id : ℕ) : Tells id (.did i (.commit site ss) (.ok n)) x.shared.up x.shared.db.messages ms := by
  cases change with
  | @insert row content _ queued =>
    refine .of_same rfl ⟨fun h => ?_, fun h => ?_⟩
    · obtain ⟨m, hm, hid, hs⟩ := h
      rcases List.mem_append.mp hm with hm | hm
      · exact ⟨m, hm, hid, hs⟩
      · rw [List.mem_singleton.mp hm, show _ = MessageStatus.queued from queued] at hs
        cases hs
    · obtain ⟨m, hm, h⟩ := h
      exact ⟨m, List.mem_append_left _ hm, h⟩
  | delete hφ => exact absurd hφ (kept.calm i)
  | none noUpdate =>
    refine .of_same ?_ Iff.rfl
    cases hc : claims id (.did i (.commit site ss) (.ok n)) with
    | none => rfl
    | some b =>
      unfold claims at hc
      split at hc
      · rename_i heq
        cases heq
        exact absurd rfl (noUpdate _ _)
      · cases hc
  | @update wh v hu =>
    have named : claims id (.did i (.commit site [.updateMessages wh v]) (.ok n)) =
        if id ∈ wh.ids.getD [] then some (decide (v.status = .sending)) else none := rfl
    rcases updates_cases hu with ⟨ids, now, hφ, -, rfl, rfl⟩ | ⟨hφ, rfl, rfl⟩ | ⟨id₀, -,
      hids, hv, only, -⟩
    · -- a claim
      by_cases hid : id ∈ ids
      · rw [Option.getD_some, if_pos hid] at named
        refine ⟨fun b h => ?_, fun h => ?_, fun h => ?_⟩
        · obtain ⟨m, hm, rfl⟩ := List.mem_map.mp (kept.dueRows i ids hφ id hid)
          have claimed := mem_applyUpdate_of_holds { ids := some ids }
            { status := .sending, claimedAt := some (some now) } hm
            (by simp [MessageWhere.holds, hid])
          rw [named] at h
          cases h
          exact ⟨fun _ => rfl, fun _ => ⟨_, claimed, rfl, rfl⟩⟩
        · rw [named] at h
          cases h
        · rw [named] at h
          cases h
      · rw [Option.getD_some, if_neg hid] at named
        exact .of_same named
          (beingSent_applyUpdate fun m hm => by simp [MessageWhere.holds, hm, hid])
    · -- the recovery
      refine ⟨fun b h => ?_, fun _ h => ?_, fun _ up => ?_⟩
      · rw [named] at h
        simp at h
      · obtain ⟨m', hm', -, hs⟩ := h
        obtain ⟨m, -, -, ⟨hw, rfl⟩ | ⟨-, rfl⟩⟩ := mem_applyUpdate hm'
        · simp [MessageWhere.holds, hs] at hw
        · cases hs
      · rw [own.booting i (by rw [hφ]; rfl)] at up
        cases up
    · -- a consumer's last word
      rw [hids] at named
      by_cases hid : id = id₀
      · subst hid
        rw [Option.getD_some, if_pos (List.mem_singleton_self id)] at named
        refine ⟨fun b h => ?_, fun h => ?_, fun h => ?_⟩
        · rw [named] at h
          cases h
          simp only [hv, decide_false, Bool.false_eq_true, iff_false]
          intro sent
          obtain ⟨m', hm', hid', hs⟩ := sent
          obtain ⟨m, -, hmid, ⟨hw, rfl⟩ | ⟨-, rfl⟩⟩ := mem_applyUpdate hm'
          · rw [only m' hid' hs] at hw
            cases hw
          · exact hv hs
        · rw [named] at h
          cases h
        · rw [named] at h
          cases h
      · rw [Option.getD_some, if_neg (by rwa [List.mem_singleton])] at named
        exact .of_same named
          (beingSent_applyUpdate fun m hm => by simp [MessageWhere.holds, hids, hm, hid])

/-- A step of the system. -/
theorem tells_of_step (own : Own cfg x) (kept : Kept cfg x)
    (hs : (system cfg jobs).Step (dispatch cfg) x x')
    (hc : Spares x x') {e : Entry Op Op.Ans Job ℚ} (he : x'.trace = e :: x.trace) (id : ℕ) :
    Tells id e x.shared.up x.shared.db.messages x'.shared.db.messages := by
  rcases upkeep_or_delivery hs with hs | ⟨i, hs⟩
  · rcases rows_of_step hs with ⟨same, nothing⟩ | ⟨i, site, ss, htr, change⟩
    · refine .of_same ?_ (by rw [same])
      cases hc : claims id e with
      | none => rfl
      | some b =>
        unfold claims at hc
        split at hc
        · exact absurd he (nothing _ _ _ _)
        · cases hc
    · rw [he] at htr
      cases htr
      exact tells_of_rowChange own kept change id
  · obtain ⟨o, a, htr, good⟩ := hs.did
    rw [he] at htr
    cases htr
    refine .of_same (claims_of_upkeep good i id) ⟨fun h => ?_, fun h => ?_⟩
    · obtain ⟨m', hm', hid, sent⟩ := h
      rcases hs.row hm' with hm | ⟨_, _, _, _, _, -, -, m, -, -, rfl⟩
      · exact ⟨m', hm, hid, sent⟩
      · cases sent
    · obtain ⟨m, hm, rfl, sent⟩ := h
      cases hs.change with
      | none same => exact ⟨m, same ▸ hm, rfl, sent⟩
      | requeued _ htr _ rows =>
        rw [rows]
        refine ⟨m, List.mem_map.mpr ⟨m, hm, if_neg fun hw => ?_⟩, rfl, sent⟩
        simp only [MessageWhere.holds, Option.all_some, Option.all_none, Bool.and_true,
          List.mem_singleton, decide_eq_true_eq] at hw
        exact hc.requeue _ _ _ _ _ htr m hm hw sent
      | swept _ htr rows =>
        rw [rows]
        refine ⟨m, List.mem_filter.mpr ⟨hm, decide_eq_true fun listed => ?_⟩, rfl, sent⟩
        have ended := hc.sweep _ _ _ _ _ htr m hm listed
        rw [sent] at ended
        cases ended

/-! ### The invariant -/

variable (cfg) in
/-- Whether the row of a requeue is being sent can be told from the trace. -/
structure Watched (x : Moment) : Prop extends Own cfg x, Kept cfg x where
  asleep : x.shared.up = false → ∀ i, (upkeep cfg).phase x.trace i = .idle
  claimed : ∀ i id, ((upkeep cfg).phase x.trace i).on = some id → busySince i id x.trace = true →
    BeingSent id x.shared.db.messages
  busy : ∀ i id row told, (upkeep cfg).phase x.trace i = .requeueing id row told →
    BeingSent id x.shared.db.messages → busySince i id x.trace = true

theorem upkeep_of_admitted {i : ℕ} {j : Job} {w : World} (h : Job.admitted jobs i j w = true)
    (down : w.up = false) :
    j.upkeep = .idle := by
  simp only [Job.admitted, Bool.and_eq_true] at h
  cases j with
  | requeue | retentionSweep => simp [down] at h
  | _ => rfl

theorem Job.on_upkeep {j : Job} {id : ℕ} {row : Message} {told : Option Time} :
    j.upkeep ≠ .requeueing id row told := by
  cases j <;> intro h <;> cases h

theorem phase_upkeep_did (tr : List (Entry Op Op.Ans Job ℚ)) (i k : ℕ) (o : Op) (a : o.Ans) :
    (upkeep cfg).phase (.did i o a :: tr) k =
      if k = i then ((upkeep cfg).phase tr i).next cfg o a else (upkeep cfg).phase tr k := by
  rw [Protocol.phase_did, Function.update_apply]
  rfl

theorem phase_upkeep_start (tr : List (Entry Op Op.Ans Job ℚ)) (i k : ℕ) (j : Job) :
    (upkeep cfg).phase (.start i j :: tr) k = if k = i then j.upkeep
      else (upkeep cfg).phase tr k := by
  rw [Protocol.phase_start, Function.update_apply]
  rfl

theorem Watched.step (h : Watched cfg x) (hj : ∀ j, jobs j = true → j.duty ≠ .deleting)
    (hs : (system cfg jobs).Step (dispatch cfg) x x') (hc : Spares x x') : Watched cfg x' := by
  obtain ⟨own, kept⟩ : Own cfg x' ∧ Kept cfg x' := by
    rcases upkeep_or_delivery hs with hs | ⟨i, hs⟩
    · exact ⟨h.toOwn.step hs (h.toKept.fresh hs), h.toKept.step hj hs⟩
    · exact ⟨h.toOwn.beside hs hc.requeue, h.toKept.beside h.toOwn hs hc⟩
  have tells : ∀ e, x'.trace = e :: x.trace → ∀ id, Tells id e x.shared.up x.shared.db.messages
      x'.shared.db.messages := fun e he => tells_of_step h.toOwn h.toKept hs hc he
  cases hs with
  | @start w tr i j ha hi =>
    refine ⟨own, kept, fun down k => ?_, fun k id hk => ?_, fun k id row told hk => ?_⟩
    · rw [phase_upkeep_start]
      split
      · exact upkeep_of_admitted ha down
      · exact h.asleep down k
    · rw [busySince_cons]
      rw [phase_upkeep_start] at hk
      split at hk
      · subst k
        simp [starts]
      · rename_i other
        simp only [starts, Ne.symm other, decide_false, Bool.false_eq_true, if_false]
        exact h.claimed k id hk
    · rw [busySince_cons]
      rw [phase_upkeep_start] at hk
      split at hk
      · exact absurd hk Job.on_upkeep
      · rename_i other
        simp only [starts, Ne.symm other, decide_false, Bool.false_eq_true, if_false]
        exact h.busy k id row told hk
  | env => exact ⟨own, kept, h.asleep, h.claimed, h.busy⟩
  | crash => exact ⟨own, kept, fun _ _ => rfl, fun i id hi => (by cases hi), fun i id row told hi =>
      (by cases hi)⟩
  | @did w w' tr i o c a he hg =>
    have tells : ∀ id, Tells id (.did i o a) w.up w.db.messages w'.db.messages := tells _ rfl
    have awake : ∀ k, (upkeep cfg).phase tr k ≠ .idle → w.up = true := by
      intro k hk
      by_contra down
      exact hk (h.asleep (by simpa using down) k)
    have before : ∀ k id, ((upkeep cfg).phase (.did i o a :: tr) k).on = some id →
        ((upkeep cfg).phase tr k).on = some id := by
      intro k id hk
      rw [phase_upkeep_did] at hk
      split at hk
      · subst k
        exact Upkeep.on_next hk
      · exact hk
    have up : ∀ k id, ((upkeep cfg).phase tr k).on = some id → w.up = true := by
      intro k id hk
      exact awake k fun idle => by rw [idle] at hk; cases hk
    refine ⟨own, kept, fun down k => ?_, fun k id hk => ?_, fun k id row told hk => ?_⟩
    · have was : w.up = false := by
        rcases up_of_exec he with rfl | same
        · rw [exec_started he] at down
          cases down
        · rw [← same]
          exact down
      rw [phase_upkeep_did]
      have idle := h.asleep was
      split
      · rw [show (upkeep cfg).phase tr i = _ from idle i]
        exact (upkeep_idle o a : (upkeep cfg).next .idle o a = .idle)
      · exact idle k
    · have old := before k id hk
      rw [busySince_cons]
      simp only [starts, Bool.false_eq_true, if_false]
      cases named : claims id (.did i o a) with
      | some b => exact ((tells id).named b named).mpr
      | none => exact fun busy => (tells id).stays named (up k id old) (h.claimed k id old busy)
    · intro sent
      rw [busySince_cons]
      simp only [starts, Bool.false_eq_true, if_false]
      cases named : claims id (.did i o a) with
      | some b => exact ((tells id).named b named).mp sent
      | none =>
        have was := (tells id).back named sent
        rw [phase_upkeep_did] at hk
        split at hk
        · subst k
          rcases Upkeep.requeueing_of_next hk with ⟨told', old⟩ | ⟨reading, ended, site, id', heq⟩
          · exact h.busy i id row told' old was
          · -- the row has just been read, and is at its end
            cases heq
            rcases dispatch_good hg with ⟨idle, -⟩ | ⟨-, good⟩
            · rw [idle] at reading
              cases reading
            rw [reading] at good
            cases good
            obtain ⟨hans, rfl⟩ := exec_select he
            have found : some row = w'.db.messages.find? fun m => m.id = id := by
              rcases hans with hans | ⟨e, hans⟩
              · exact Except.ok.inj hans
              · cases hans
            have hrow : row.id = id := by simpa using List.find?_some found.symm
            obtain ⟨m, hm, hid, sending⟩ := was
            obtain rfl := List.inj_on_of_nodup_map h.ids hm (List.mem_of_find?_eq_some found.symm)
              (hid.trans hrow.symm)
            rw [sending] at ended
            cases ended
        · exact h.busy k id row told hk was

theorem Watched.init {w : World} (ids : (w.db.messages.map Message.id).Nodup) (down : w.up = false)
    (empty : w.queue = []) : Watched cfg ⟨w, []⟩ := by
  have owned : Owned cfg ⟨w, []⟩ := Owned.init ids down empty
  exact ⟨owned.toOwn, owned.toKept, fun _ _ => rfl, fun i id hi => (by cases hi),
    fun i id row told hi => (by cases hi)⟩

/-- When a requeue is about to be committed, the trace tells whether the row is being sent. -/
theorem Watched.busy_iff (h : Watched cfg x) {i id : ℕ} {row : Message} {told : Option Time}
    (hi : (upkeep cfg).phase x.trace i = .requeueing id row told) :
    BeingSent id x.shared.db.messages ↔ busySince i id x.trace = true :=
  ⟨h.busy i id row told hi, h.claimed i id (by rw [hi]; rfl)⟩

/-! ### Runs without sweeps -/

/-- The jobs that change `messages` but for those that delete rows. -/
def Job.ofSenders (j : Job) : Bool :=
  j.ofMail || match j with
    | .requeue _ => true
    | _ => false

theorem Job.onMessages_of_ofSenders {j : Job} (h : j.ofSenders = true) : j.onMessages = true := by
  cases j <;> first | rfl | cases h

theorem duty_of_ofSenders {j : Job} (h : j.ofSenders = true) : j.duty ≠ .deleting := by
  intro hd
  cases j <;> first | (cases h; done) | cases hd

variable (cfg) in
/-- Nobody sweeps. -/
def Unswept (x : Moment) : Prop :=
  ∀ i, (upkeep cfg).phase x.trace i = .idle ∨ ((upkeep cfg).phase x.trace i).on.isSome = true

theorem Upkeep.calm_next {u : Upkeep} {o : Op} {a : o.Ans} (h : u = .idle ∨ u.on.isSome = true) :
    u.next cfg o a = .idle ∨ (u.next cfg o a).on.isSome = true := by
  fun_cases Upkeep.next cfg u o a
  all_goals simp_all [Upkeep.on]

theorem Unswept.step (h : Unswept cfg x) (hj : ∀ j, jobs j = true → j.ofSenders = true)
    (hs : (system cfg jobs).Step (dispatch cfg) x x') : Unswept cfg x' := by
  intro k
  cases hs with
  | @start w tr i j ha hi =>
    rw [phase_upkeep_start]
    split
    · have ha : Job.admitted jobs i j w = true := ha
      simp only [Job.admitted, Bool.and_eq_true] at ha
      have sender := hj j ha.1
      cases j <;> first | exact .inl rfl | exact .inr rfl | cases sender
    · exact h k
  | env => exact h k
  | crash => exact .inl rfl
  | did =>
    rw [phase_upkeep_did]
    split
    · exact Upkeep.calm_next (h _)
    · exact h k

/-- A requeue's commit. -/
theorem requeueing_of_step (hs : (system cfg jobs).Step (dispatch cfg) x x') {i : ℕ}
    {site : Site} {id : ℕ} {v : MessageValues} {n : ℕ}
    (htr : x'.trace = .did i (.commit site [.updateMessage id v]) (.ok n) :: x.trace) :
    ∃ row now, (upkeep cfg).phase x.trace i = .requeueing id row (some now) ∧
      v = requeueValues row now := by
  rcases dispatch_good (hs.of_did htr).2 with ⟨-, good⟩ | ⟨-, good⟩
  · exact absurd rfl (good _ List.mem_cons_self)
  · exact good

/-- A sweep's commit. -/
theorem sweeping_of_step (hs : (system cfg jobs).Step (dispatch cfg) x x') {i : ℕ} {site : Site}
    {ids ids' : List ℕ}
    {n : ℕ} (htr : x'.trace = .did i (.commit site [.deleteAttempts ids, .deleteMessages ids'])
      (.ok n) :: x.trace) :
    ∃ plan rows plans, (upkeep cfg).phase x.trace i = .swept plan rows plans ∧
      ids = rows.map Prod.fst ∧
      ids' = rows.map Prod.fst := by
  rcases dispatch_good (hs.of_did htr).2 with ⟨-, good⟩ | ⟨-, good⟩
  · exact absurd rfl (good _ List.mem_cons_self)
  · exact good

/-- Nobody sweeps, so that no rows are swept. -/
theorem Unswept.not_swept (h : Unswept cfg x) (hs : (system cfg jobs).Step (dispatch cfg) x x')
    {i : ℕ} {site : Site} {ids ids' : List ℕ} {n : ℕ} :
    x'.trace ≠ .did i (.commit site [.deleteAttempts ids, .deleteMessages ids'])
      (.ok n) :: x.trace := by
  intro htr
  obtain ⟨plan, rows, plans, hu, -, -⟩ := sweeping_of_step hs htr
  have idle := h i
  rw [hu] at idle
  rcases idle with h | h <;> cases h

end Invariants

/-- No requeue is committed after a claim of its message. -/
def NotBusy (x x' : Moment) : Prop := ∀ i site id v n,
  x'.trace = .did i (.commit site [.updateMessage id v]) (.ok n) :: x.trace →
    busySince i id x.trace = false

/-- **An operator requeue hits no message that is being sent, unless it was claimed since the call
began.** In every run of the ingress server, the producer, the consumers and any number of
requeues, in which none is committed while the newest update of its message since it began is a
claim: an id is held once at most, by whom it is held its row is being sent, and a requeue's
commit hits a row that is being sent exactly if that is so. -/
theorem requeue_spares_sending (cfg : Settings) {jobs : Job → Bool}
    (hj : ∀ j, jobs j = true → j.ofSenders = true) {w : World}
    (ids : (w.db.messages.map Message.id).Nodup)
    (down : w.up = false) (empty : w.queue = []) {s : Pool Op Op.Ans Exc World Job ℚ}
    (h : (system cfg jobs).Reachable NotBusy (Machine.boot w) s) :
    (∀ id, holders cfg id s.toConfig ≤ 1 ∧
      ∀ m ∈ s.shared.db.messages, m.id = id → 0 < holders cfg id s.toConfig → m.status = .sending) ∧
    ∀ m s' i site id v n, (system cfg jobs).step m s = some s' →
      s'.trace = .did i (.commit site [.updateMessage id v]) (.ok n) :: s.trace →
        ((∃ row ∈ s.shared.db.messages, row.id = id ∧ row.status = .sending) ↔
          busySince i id s.trace = true) := by
  have keeps : (system cfg jobs).Keeps (dispatch cfg) :=
    dispatch_keeps fun j hjob => Job.onMessages_of_ofSenders (hj j hjob)
  obtain ⟨⟨watched, -⟩, phases⟩ := Machine.invariant keeps (fun x => Watched cfg x ∧ Unswept cfg x)
    ⟨Watched.init ids down empty, fun i => .inl rfl⟩ (fun {x x'} h hs hc => by
      have spares : Spares x x' := by
        refine ⟨fun i site id v n htr m hm hid sending => ?_, fun i site ids ids' n htr => ?_⟩
        · obtain ⟨row, now, hi, -⟩ := requeueing_of_step hs htr
          have busy := (h.1.busy_iff hi).mp ⟨m, hm, hid, sending⟩
          rw [hc i site id v n htr] at busy
          cases busy
        · exact absurd htr (h.2.not_swept hs)
      exact ⟨h.1.step (fun j hjob => duty_of_ofSenders (hj j hjob)) hs spares, h.2.step hj hs⟩) h
  refine ⟨fun id => ⟨watched.single id, fun m hm hid held => watched.held m hm (by rwa [hid])⟩, ?_⟩
  intro m s' i site id v n hstep htr
  obtain ⟨hs, -⟩ := Machine.step_cases keeps phases hstep
  obtain ⟨row, now, hi, -⟩ := requeueing_of_step hs htr
  exact watched.busy_iff hi

namespace Example

/-- One message has been given up. -/
def oneDead : World :=
  { twoDue with db := { messages := [{ dueMessage 1 with status := .deadletter }] } }

/-- The process starts, and task 2 requeues the message. -/
def requeued : List (Move Choice Job ℚ) := List.flatten
  [[.start 0 .start], List.replicate 9 (.run 0 .ok), [.start 2 (.requeue 1)],
    List.replicate 5 (.run 2 .ok)]

/-- The message is claimed, and consumer 1 gets to its relay. -/
def claimedAgain : List (Move Choice Job ℚ) := List.flatten
  [[.start 0 .producer], List.replicate 5 (.run 0 .ok), [.start 1 .consumer],
    List.replicate 21 (.run 1 .ok)]

/-- Tasks 2 and 3 both read the message; task 2's requeue is committed, and the message is
claimed. -/
def bothRead : List (Move Choice Job ℚ) := List.flatten
  [[.start 0 .start], List.replicate 9 (.run 0 .ok), [.start 2 (.requeue 1)],
    List.replicate 3 (.run 2 .ok),
    [.start 3 (.requeue 1)], List.replicate 3 (.run 3 .ok), List.replicate 2 (.run 2 .ok),
      claimedAgain]

/-- The next operation is no requeue's commit after a claim. -/
def notBusyNext (m : Move Choice Job ℚ) (s : Pool Op Op.Ans Exc World Job ℚ) : Bool :=
  match m with
  | .run i _ => match s.tasks i with
    | some (_, .op (.commit _ [.updateMessage id _]) _) => !busySince i id s.trace
    | _ => true
  | _ => true

theorem notBusy_of_next {jobs : Job → Bool} {m : Move Choice Job ℚ}
    {s s' : Pool Op Op.Ans Exc World Job ℚ}
    (hm : notBusyNext m s = true) (hs : (system twoPerDay jobs).step m s = some s') :
    NotBusy s.toConfig s'.toConfig := by
  intro i site id v n htr
  obtain ⟨c, j, k, rfl, ht, -⟩ := Machine.step_did hs htr
  simpa [notBusyNext, ht] using hm

/-- A message that was requeued is being relayed: it is held once. -/
theorem requeue_spares_sending_requeued : ∃ s,
    (system twoPerDay Job.ofSenders).runFrom (Machine.boot oneDead)
    (requeued ++ claimedAgain) = some s ∧
      s.shared.db.messages.map Message.status = [.sending] ∧
        holders twoPerDay 1 s.toConfig ≤ 1 := by
  obtain ⟨s, hs, rows⟩ : ∃ s, (system twoPerDay Job.ofSenders).runFrom (Machine.boot oneDead)
      (requeued ++ claimedAgain) = some s ∧ s.shared.db.messages.map Message.status = [.sending] :=
    Option.map_eq_some_iff.mp (by decide +kernel)
  have along : (system twoPerDay Job.ofSenders).along notBusyNext (Machine.boot oneDead)
      (requeued ++ claimedAgain) = true := by
    decide +kernel
  exact ⟨s, hs, rows, ((requeue_spares_sending twoPerDay (fun j hj => hj) (by decide) rfl rfl
    (Machine.Reachable.refl.runFrom_along notBusy_of_next along hs)).1 1).1⟩

/-- The newest entry is a requeue's commit. -/
def requeuedLast : List (Entry Op Op.Ans Job ℚ) → Bool
  | .did _ (.commit _ [.updateMessage 1 _]) (.ok _) :: _ => true
  | _ => false

/-- While consumer 1 relays the message, the second requeue is committed. -/
theorem requeue_hits_sending_bothRead : ∃ s s',
    (system twoPerDay Job.ofSenders).Reachable Machine.Free (Machine.boot oneDead) s ∧
      (system twoPerDay Job.ofSenders).step (.run 3 .ok) s = some s' ∧
      (∃ row ∈ s.shared.db.messages, row.id = 1 ∧ row.status = .sending) ∧
      requeuedLast s'.trace = true ∧ s'.shared.db.messages.map Message.status = [.queued] := by
  obtain ⟨s, hs, ha⟩ : ∃ s, (system twoPerDay Job.ofSenders).runFrom
      (Machine.boot oneDead) bothRead = some s ∧
      s.shared.db.messages.any (fun m => m.id = 1 ∧ m.status = .sending) = true :=
    Option.map_eq_some_iff.mp (by decide +kernel)
  obtain ⟨s', hs', hb⟩ : ∃ s', (system twoPerDay Job.ofSenders).runFrom (Machine.boot oneDead)
      (bothRead ++ [.run 3 .ok]) = some s' ∧
      (requeuedLast s'.trace, s'.shared.db.messages.map Message.status) = (true, [.queued]) :=
    Option.map_eq_some_iff.mp (by decide +kernel)
  obtain ⟨last, rows⟩ := Prod.mk.inj hb
  obtain ⟨row, hrow, h⟩ := List.any_eq_true.mp ha
  obtain ⟨hid, sending⟩ := of_decide_eq_true h
  rw [Machine.runFrom_concat hs] at hs'
  exact ⟨s, s', Machine.Reachable.refl.runFrom hs, hs', ⟨row, hrow, hid, sending⟩, last, rows⟩

end Example

end SmtpSwitch
