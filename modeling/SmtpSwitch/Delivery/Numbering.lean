import Mathlib.Data.List.ReduceOption
import SmtpSwitch.Breaker.Probes
import SmtpSwitch.Delivery.Budget
import SmtpSwitch.Delivery.Requeue

/-!
# The numbers of the attempts

An attempt is numbered with the attempts of the row the cycle has read, plus the relays of the
cycle. The numbers of one cycle follow one another, but a cycle counts as one attempt at most,
whatever the number of its relays, and as none when the message is put back after an exception
or a crash. As long as no message is put back with fewer attempts than have been recorded
(`CountedBack`), the numbers of its attempts grow in the order of its relays, which is the order
in which `get_message` lists them (`attempts_numbered`). -/

namespace SmtpSwitch

open Coop Coop.Prog

/-! ### What is asked -/

/-- The attempts at a message, in the order in which they were recorded. -/
def Db.attemptsAt (db : Db) (id : ℕ) : List DeliveryAttempt :=
  db.attempts.filter fun a => a.messageId = id

/-- Their numbers. -/
def Db.numbers (db : Db) (id : ℕ) : List ℕ := (db.attemptsAt id).map DeliveryAttempt.attemptNo

/-- `get_message`: the row, and the attempts ordered by `attempt_no`. -/
def Db.getMessage (db : Db) (messageId : ℕ) : Option (Message × List DeliveryAttempt) :=
  (db.messages.find? fun m => m.id = messageId).map fun msg =>
    (msg, (db.attemptsAt messageId).mergeSort fun a b => a.attemptNo ≤ b.attemptNo)

/-- Attempts are about messages there are, in growing order, and no number is greater than what
the message has been charged, unless it has reached its end. -/
structure Db.Numbered (db : Db) : Prop where
  refs : ∀ a ∈ db.attempts, a.messageId ∈ db.messages.map Message.id
  increasing : ∀ id, (db.numbers id).Pairwise (· < ·)
  charged : ∀ m ∈ db.messages, m.status.terminal = false → ∀ n ∈ db.numbers m.id, n ≤ m.attempts

/-- Attempts in growing order are listed as they were recorded. -/
theorem Db.getMessage_of_increasing {db : Db} {id : ℕ}
    (increasing : (db.numbers id).Pairwise (· < ·)) {m : Message}
    {log : List DeliveryAttempt} (h : db.getMessage id = some (m, log)) :
    log = db.attemptsAt id := by
  simp only [getMessage, Option.map_eq_some_iff, Prod.mk.injEq] at h
  obtain ⟨-, -, -, rfl⟩ := h
  refine List.mergeSort_of_pairwise ?_
  rw [numbers, List.pairwise_map] at increasing
  exact increasing.imp fun less => decide_eq_true less.le

/-! ### What the trace tells -/

/-- The number of the attempt at the message that is recorded. -/
def recordedNo (id : ℕ) : Entry Op Op.Ans Job ℚ → Option ℕ
  | .did _ (.commit _ [.insertAttempt row]) (.ok _) =>
      if row.messageId = id then some row.attemptNo else none
  | _ => none

/-- The attempts recorded since the newest claim of the message. -/
def recordsSince (id : ℕ) : List (Entry Op Op.Ans Job ℚ) → ℕ
  | [] => 0
  | e :: tr => if claims id e = some true then 0 else
      recordsSince id tr + if (recordedNo id e).isSome then 1 else 0

/-- The relays of a message, newest first, each with the number of the attempt recorded for it. -/
def relayLog (id : ℕ) : List (Entry Op Op.Ans Job ℚ) → List (Option ℕ)
  | [] => []
  | e :: tr => match recordedNo id e with
    | some n => some n :: (relayLog id tr).tail
    | none => if relaysOf id e then none :: relayLog id tr else relayLog id tr

section Trace

variable {id : ℕ} {e : Entry Op Op.Ans Job ℚ} {tr : List (Entry Op Op.Ans Job ℚ)}

theorem recordsSince_quiet (noClaim : claims id e ≠ some true) (noRecord : recordedNo id e = none) :
    recordsSince id (e :: tr) = recordsSince id tr := by
  simp [recordsSince, noClaim, noRecord]

theorem relayLog_quiet (noRelay : relaysOf id e = false) (noRecord : recordedNo id e = none) :
    relayLog id (e :: tr) = relayLog id tr := by
  simp [relayLog, noRelay, noRecord]

theorem relayLog_relay (relay : relaysOf id e = true) (noRecord : recordedNo id e = none) :
    relayLog id (e :: tr) = none :: relayLog id tr := by
  simp [relayLog, relay, noRecord]

/-- What has been recorded is not changed by a relay. -/
theorem recorded_relayLog (noRecord : recordedNo id e = none) :
    (relayLog id (e :: tr)).reverse.reduceOption = (relayLog id tr).reverse.reduceOption := by
  cases relay : relaysOf id e with
  | false => rw [relayLog_quiet relay noRecord]
  | true =>
    rw [relayLog_relay relay noRecord, List.reverse_cons, List.reduceOption_append]
    simp [List.reduceOption]

/-- The attempt recorded is the one of the newest relay. -/
theorem recorded_newest {n : ℕ} (record : recordedNo id e = some n)
    (pending : (relayLog id tr).head? = some none) :
    (relayLog id (e :: tr)).reverse.reduceOption =
    (relayLog id tr).reverse.reduceOption ++ [n] := by
  obtain ⟨log, hlog⟩ : ∃ log, relayLog id tr = none :: log := by
    cases hl : relayLog id tr with
    | nil => rw [hl] at pending; cases pending
    | cons r log =>
      rw [hl] at pending
      cases pending
      exact ⟨log, rfl⟩
  simp [relayLog, record, hlog, List.reduceOption]

end Trace

/-- The attempts that a task with a message at hand has recorded in this cycle; `none` when an
exception has ended the cycle. -/
def Duty.recorded : Duty → Option ℕ
  | .turn _ t _ _ => some t.recorded
  | .failed _ _ _ => none
  | _ => some 0

/-- Where a task that holds a message has it from, when no attempt is recorded just now. -/
theorem recorded_of_next {φ : Duty} {o : Op} {a : o.Ans} {id n : ℕ}
    (noRecord : ∀ i id, recordedNo id (.did i o a) = none)
    (held : id ∈ (φ.next o a).held) (h : (φ.next o a).recorded = some n) :
    (id ∈ φ.held ∧ φ.recorded = some n) ∨ ((⟨o, a⟩ : Σ o : Op, o.Ans) = ⟨.queueGet, id⟩ ∧ n = 0) ∨
      ∃ ids site wh v k, φ = .due ids ∧ id ∈ ids ∧
        (⟨o, a⟩ : Σ o : Op, o.Ans) = ⟨.commit site [.updateMessages wh v], .ok k⟩ ∧ n = 0 := by
  have next := φ.next_cases o a
  generalize φ.next o a = φ' at next held h
  cases next with
  | same => exact .inl ⟨held, h⟩
  | got =>
    obtain rfl := List.mem_singleton.mp held
    cases h
    exact .inr (.inl ⟨rfl, rfl⟩)
  | batch =>
    cases h
    exact .inr (.inr ⟨_, _, _, _, _, rfl, held, rfl, rfl⟩)
  | queued => exact .inl ⟨List.mem_of_mem_tail held, h⟩
  | read => exact .inl ⟨held, h⟩
  | turn => exact .inl ⟨held, h⟩
  | @turned id' t _ told _ drawn _ _ _ next =>
    have turn := turnNext id' t told drawn o a
    rw [next] at turn
    cases turn with
    | @recorded site row =>
      have unnumbered := noRecord 0 row.messageId
      simp [recordedNo] at unnumbered
    | _ => exact .inl ⟨held, h⟩
  | unread => cases h
  | unclosed => cases h
  | failed => cases h
  | _ => cases held

section Invariants

variable (cfg : Settings)

/-- No message is put back with fewer attempts charged than have been recorded in its cycle. -/
def CountedBack (x x' : Moment) : Prop :=
  ∀ i site wh v n, x'.trace = .did i (.commit site [.updateMessages wh v]) (.ok n) :: x.trace →
    v.status = .queued →
    ∀ m ∈ x.shared.db.messages, wh.holds m = true → m.attempts + recordsSince m.id x.trace ≤
      (v.apply m).attempts

/-- The numbers of the attempts of a run that began with `db`. -/
structure Chronicle (db : Db) (x : Moment) : Prop extends Snapped cfg x, Kept cfg x where
  refs : ∀ a ∈ x.shared.db.attempts, a.messageId ∈ x.shared.db.messages.map Message.id
  increasing : ∀ id, (x.shared.db.numbers id).Pairwise (· < ·)
  charged : ∀ m ∈ x.shared.db.messages, m.status.terminal = false → ∀ n ∈ x.shared.db.numbers m.id,
    n ≤ m.attempts + if m.status = .sending then recordsSince m.id x.trace else 0
  counted : ∀ i id n, id ∈ ((delivery cfg).phase x.trace i).held →
    ((delivery cfg).phase x.trace i).recorded = some n → recordsSince id x.trace = n
  waiting : ∀ id ∈ x.shared.queue, recordsSince id x.trace = 0
  pending : ∀ i id t told drawn, (delivery cfg).phase x.trace i = .turn id t told drawn →
    t.sends = t.recorded + 1 → (relayLog id x.trace).head? = some none
  log : ∀ id, x.shared.db.numbers id = db.numbers id ++ (relayLog id x.trace).reverse.reduceOption

variable {cfg} {jobs : Job → Bool} {x x' : Moment} {db : Db}

section Did

variable {w w' : World} {tr : List (Entry Op Op.Ans Job ℚ)} {i : ℕ} {o : Op}
  {a : o.Ans} {c : Choice}

/-- Attempts are added one at a time, by the consumer at work on the message. -/
theorem attempts_of_did (he : exec cfg i o c w = some (a, w'))
    (hg : ((delivery cfg).phase tr i).good cfg o a)
    (calm : (delivery cfg).phase tr i ≠ .deleting) :
    (w'.db.attempts = w.db.attempts ∧ ∀ k id, recordedNo id (.did k o a) = none) ∨
      ∃ site row n t told drawn, (⟨o, a⟩ : Σ o : Op, o.Ans) =
        ⟨.commit site [.insertAttempt row], .ok n⟩ ∧
        w' = { w with db := { w.db with attempts := w.db.attempts ++ [row] } } ∧
        (delivery cfg).phase tr i = .turn row.messageId t told drawn ∧ t.sends = t.recorded + 1 ∧
          row.attemptNo = t.row.attempts + t.sends := by
  by_cases hcommit : ∃ site ss, o = .commit site ss
  swap
  · refine .inl ⟨?_, fun k id => ?_⟩
    · rw [(exec_frame cfg he).db]
      intro part
      cases o with
      | commit site ss => exact hcommit ⟨site, ss, rfl⟩
      | _ => cases part
    · cases o with
      | commit site ss => exact absurd ⟨site, ss, rfl⟩ hcommit
      | _ => rfl
  obtain ⟨site, ss, rfl⟩ := hcommit
  obtain ⟨db', hx, rfl, rfl⟩ | ⟨⟨e, rfl⟩, rfl⟩ := exec_commit he
  swap
  · exact .inl ⟨rfl, fun k id => by cases ss with
      | nil => rfl
      | cons s rest => cases rest <;> cases s <;> rfl⟩
  have hg : ((delivery cfg).phase tr i).writes cfg ss := hg
  have beside : (∀ s ∈ ss, s.table ≠ .messages) → db'.attempts = w.db.attempts ∧ ∀ k id,
      recordedNo id (.did k (.commit site ss) (.ok (w.db.insertedId ss))) = none := by
    intro table
    refine ⟨(Db.execAll_beside table hx).2, fun k id => ?_⟩
    unfold recordedNo
    split
    · rename_i heq
      cases heq
      exact absurd rfl (table _ List.mem_cons_self)
    · rfl
  rcases ss with _ | ⟨s, _ | ⟨s', rest⟩⟩
  · exact .inl (beside hg)
  · cases s with
    | insertAttempt row =>
      obtain ⟨t, told, drawn, hφ, hsends, hno⟩ := hg
      simp only [Db.execAll, Stmt.exec] at hx
      split at hx
      · cases hx
        exact .inr ⟨site, row, _, t, told, drawn, rfl, rfl, hφ, hsends, hno⟩
      · cases hx
    | deleteMessage id => exact absurd hg calm
    | insertMessage row =>
      cases hx
      exact .inl ⟨rfl, fun _ _ => rfl⟩
    | updateMessages wh v =>
      cases hx
      exact .inl ⟨rfl, fun _ _ => rfl⟩
    | _ => exact .inl (beside hg)
  · cases s <;> exact .inl (beside hg)

/-- A claim is made by the producer, of what it has selected. -/
theorem due_of_claims {φ : Duty} {id : ℕ} (hg : φ.good cfg o a)
    (h : claims id (.did i o a) = some true) :
    ∃ ids, φ = .due ids ∧ id ∈ ids := by
  unfold claims at h
  split at h
  · rename_i heq
    cases heq
    split at h
    · rename_i wh v n named
      rcases updates_cases (show Updates cfg φ wh v from hg) with
        ⟨ids, now, hφ, -, rfl, rfl⟩ | ⟨hφ, rfl, rfl⟩ | ⟨id', -, -, hv, -, -⟩
      · exact ⟨ids, hφ, named⟩
      · cases named
      · simp [hv] at h
    · cases h
  · cases h

/-- The attempts recorded for a message at hand are not forgotten. -/
theorem Chronicle.since_held (h : Chronicle cfg db ⟨w, tr⟩)
    (hg : ((delivery cfg).phase tr i).good cfg o a) {id : ℕ}
    (held : 0 < holders cfg id ⟨w, tr⟩) (noRecord : ∀ k id, recordedNo id (.did k o a) = none) :
    recordsSince id (.did i o a :: tr) = recordsSince id tr := by
  refine recordsSince_quiet (fun claim => ?_) (noRecord i id)
  obtain ⟨ids, hφ, hid⟩ := due_of_claims hg claim
  have free : holders cfg id ⟨w, tr⟩ = 0 := ((h.due i ids hφ).2 id hid).1
  omega

/-- A task holds what is in its hands. -/
theorem holders_pos {id k : ℕ} (hk : id ∈ ((delivery cfg).phase tr k).held) :
    0 < holders cfg id ⟨w, tr⟩ :=
  (List.count_pos_iff.mpr hk).trans_le (held_le_holders cfg id k ⟨w, tr⟩)

/-- An attempt is recorded: it is numbered with one more than there are. -/
theorem Chronicle.step_recorded {site : Site} {row : DeliveryAttempt} {n : ℕ} {t : Turn}
    {told : Option Time} {drawn : Option ℚ} (h : Chronicle cfg db ⟨w, tr⟩)
    (hφ : (delivery cfg).phase tr i = .turn row.messageId t told drawn)
    (hsends : t.sends = t.recorded + 1) (hno : row.attemptNo = t.row.attempts + t.sends)
    (snapped : Snapped cfg ⟨{ w with db := { w.db with attempts := w.db.attempts ++ [row] } },
      .did i (.commit site [.insertAttempt row]) (.ok n) :: tr⟩)
    (kept : Kept cfg ⟨{ w with db := { w.db with attempts := w.db.attempts ++ [row] } },
      .did i (.commit site [.insertAttempt row]) (.ok n) :: tr⟩) :
    Chronicle cfg db ⟨{ w with db := { w.db with attempts := w.db.attempts ++ [row] } },
      .did i (.commit site [.insertAttempt row]) (.ok n) :: tr⟩ := by
  have mine : row.messageId ∈ ((delivery cfg).phase tr i).held := by
    rw [hφ]
    exact List.mem_singleton_self _
  have since : recordsSince row.messageId tr = t.recorded :=
    h.counted i row.messageId t.recorded mine
      (by rw [show (delivery cfg).phase (Config.mk w tr).trace i = _ from hφ]; rfl)
  obtain ⟨m, hm, hid⟩ := List.mem_map.mp (h.rows row.messageId (holders_pos mine))
  have sending : m.status = .sending := h.sending mine hm hid
  have read : m = t.row := h.turn i _ t told drawn hφ m hm hid
  -- what the entry is for the message, and for any other
  have record : recordedNo row.messageId (.did i (.commit site [.insertAttempt row]) (.ok n)) =
      some row.attemptNo := by
    simp [recordedNo]
  have other : ∀ id, id ≠ row.messageId →
      recordedNo id (.did i (.commit site [.insertAttempt row]) (.ok n)) = none := by
    intro id hne
    simp [recordedNo, hne.symm]
  have grown : recordsSince row.messageId
      (.did i (.commit site [.insertAttempt row]) (.ok n) :: tr) =
      t.recorded + 1 := by
    simp [recordsSince, claims, record, since]
  have same : ∀ id, id ≠ row.messageId →
      recordsSince id (.did i (.commit site [.insertAttempt row]) (.ok n) :: tr) =
        recordsSince id tr :=
    fun id hne => recordsSince_quiet (fun h => (by cases h)) (other id hne)
  have numbers : ∀ id, ({ w.db with attempts := w.db.attempts ++ [row] } : Db).numbers id =
      w.db.numbers id ++ if row.messageId = id then [row.attemptNo] else [] := by
    intro id
    simp only [Db.numbers, Db.attemptsAt, List.filter_append, List.map_append]
    by_cases hr : row.messageId = id <;> simp [hr]
  have bound : ∀ k ∈ w.db.numbers row.messageId, k < row.attemptNo := by
    intro k hk
    have := h.charged m hm (by rw [sending]; rfl) k (hid ▸ hk)
    rw [if_pos sending, hid, read] at this
    have since : recordsSince row.messageId (Config.mk w tr).trace = t.recorded := since
    omega
  refine ⟨snapped, kept, fun a ha => ?_, fun id => ?_, fun m' hm' live k hk => ?_,
    fun j id k hj hk => ?_,
    fun id hq => ?_, fun j id t' told' drawn' hj hs => ?_, fun id => ?_⟩
  · rcases List.mem_append.mp ha with ha | ha
    · exact h.refs a ha
    · rw [List.mem_singleton.mp ha]
      exact h.rows row.messageId (holders_pos mine)
  · rw [numbers]
    split
    · rename_i hr
      subst hr
      rw [List.pairwise_append]
      refine ⟨h.increasing _, List.pairwise_singleton _ _, fun k hk l hl => ?_⟩
      rw [List.mem_singleton.mp hl]
      exact bound k hk
    · rw [List.append_nil]
      exact h.increasing id
  · have old : m' ∈ w.db.messages := hm'
    have hk : k ∈ Db.numbers _ m'.id := hk
    rw [numbers] at hk
    by_cases hr : row.messageId = m'.id
    · obtain rfl : m' = m := List.inj_on_of_nodup_map h.ids old hm (hr.symm.trans hid.symm)
      rw [if_pos sending, hid]
      change k ≤ m'.attempts + recordsSince row.messageId
        (.did i (.commit site [.insertAttempt row]) (.ok n) :: tr)
      rw [grown, read]
      rw [if_pos hr, List.mem_append, List.mem_singleton, ← hr] at hk
      rcases hk with hk | rfl
      · have := bound k hk
        omega
      · omega
    · rw [if_neg hr, List.append_nil] at hk
      rw [same m'.id (Ne.symm hr)]
      exact h.charged m' old live k hk
  · have after : (delivery cfg).phase (.did i (.commit site [.insertAttempt row]) (.ok n) :: tr) i =
        .turn row.messageId { t with recorded := t.recorded + 1 } told drawn := by
      rw [phase_did_apply, if_pos rfl, hφ]
      rfl
    by_cases hji : j = i
    · subst hji
      have hj : id ∈ ((delivery cfg).phase (.did j (.commit site [.insertAttempt row]) (.ok n) ::
          tr) j).held := hj
      have hk : ((delivery cfg).phase (.did j (.commit site [.insertAttempt row]) (.ok n) ::
          tr) j).recorded = some k := hk
      rw [after] at hj hk
      obtain rfl := List.mem_singleton.mp hj
      cases hk
      exact grown
    · have before : (delivery cfg).phase
        (.did i (.commit site [.insertAttempt row]) (.ok n) :: tr) j =
          (delivery cfg).phase tr j := by
        rw [phase_did_apply, if_neg hji]
      have hj : id ∈ ((delivery cfg).phase (.did i (.commit site [.insertAttempt row]) (.ok n) ::
          tr) j).held := hj
      have hk : ((delivery cfg).phase (.did i (.commit site [.insertAttempt row]) (.ok n) ::
          tr) j).recorded = some k := hk
      rw [before] at hj hk
      have hne : id ≠ row.messageId := fun heq => hji (h.alone hj (heq ▸ mine))
      exact (same id hne).trans (h.counted j id k hj hk)
  · have hq : id ∈ w.queue := hq
    have hne : id ≠ row.messageId := fun heq => h.not_queued mine (heq ▸ hq)
    exact (same id hne).trans (h.waiting id hq)
  · have hj : (delivery cfg).phase (.did i (.commit site [.insertAttempt row]) (.ok n) :: tr) j =
        .turn id t' told' drawn' := hj
    rw [phase_did_apply] at hj
    split at hj
    · rw [hφ] at hj
      cases hj
      simp only at hs
      omega
    · rename_i hji
      have held : id ∈ ((delivery cfg).phase tr j).held := by
        rw [hj]
        exact List.mem_singleton_self _
      have hne : id ≠ row.messageId := fun heq => hji (h.alone held (heq ▸ mine))
      refine (congrArg List.head? (relayLog_quiet ?_ (other id hne))).trans
        (h.pending j id t' told' drawn' hj hs)
      simp [relaysOf, Op.relayFor]
  · rw [numbers]
    split
    · rename_i hr
      subst hr
      have pending := h.pending i _ t told drawn hφ hsends
      change _ = _ ++ (relayLog _ (_ :: tr)).reverse.reduceOption
      rw [recorded_newest record pending, h.log, List.append_assoc]
    · rename_i hr
      change _ = _ ++ (relayLog _ (_ :: tr)).reverse.reduceOption
      rw [List.append_nil, recorded_relayLog (other id (Ne.symm hr))]
      exact h.log id

/-- No attempt is recorded: a message claimed has none recorded in its cycle, and one put back is
charged for what has been. -/
theorem Chronicle.step_beside (h : Chronicle cfg db ⟨w, tr⟩) (he : exec cfg i o c w = some (a, w'))
    (hg : ((delivery cfg).phase tr i).good cfg o a)
    (hs : (system cfg jobs).Step (delivery cfg) ⟨w, tr⟩ ⟨w', .did i o a :: tr⟩)
    (hc : CountedBack ⟨w, tr⟩ ⟨w', .did i o a :: tr⟩) (snapped : Snapped cfg ⟨w', .did i o a :: tr⟩)
    (kept : Kept cfg ⟨w', .did i o a :: tr⟩) (same : w'.db.attempts = w.db.attempts)
    (noRecord : ∀ k id, recordedNo id (.did k o a) = none) :
    Chronicle cfg db ⟨w', .did i o a :: tr⟩ := by
  have numbers : ∀ id, w'.db.numbers id = w.db.numbers id := by
    intro id
    unfold Db.numbers Db.attemptsAt
    rw [same]
  have claimed : ∀ id, claims id (.did i o a) = some true →
      recordsSince id (.did i o a :: tr) = 0 := by
    intro id claim
    simp [recordsSince, claim]
  refine ⟨snapped, kept, fun at_ hat => ?_, fun id => ?_, fun m' hm' live n hn => ?_,
    fun j id n hj hn => ?_,
    fun id hq => ?_, fun j id t told drawn hj hsends => ?_, fun id => ?_⟩
  · exact h.toKept.ids_subset hs (h.refs at_ (same ▸ hat))
  · rw [numbers id]
    exact h.increasing id
  · rw [numbers m'.id] at hn
    cases rowOf_step hs hm' with
    | same hm left =>
      refine (h.charged m' hm live n hn).trans (Nat.add_le_add_left ?_ _)
      split
      · rename_i sending
        refine (recordsSince_quiet (fun claim => ?_) (noRecord i m'.id)).ge
        obtain ⟨ids, hφ, hid⟩ := due_of_claims hg claim
        have queued := ((h.due i ids hφ).2 m'.id hid).2 m' hm rfl
        rw [sending] at queued
        cases queued
      · exact le_rfl
    | inserted _ _ _ heq _ =>
      obtain ⟨at_, hat, -⟩ := List.mem_map.mp hn
      obtain ⟨hat, hid⟩ := List.mem_filter.mp hat
      have present := h.refs at_ hat
      rw [of_decide_eq_true hid, heq] at present
      exact absurd (lt_nextId present) (lt_irrefl _)
    | @updated i' site wh v k m hm hid hu hw heq htr =>
      cases htr
      subst heq
      have before := h.charged m hm (h.live_of_updates hu hm hw) n hn
      cases hv : v.status with
      | queued =>
        have paid : m.attempts + recordsSince m.id tr ≤ (v.apply m).attempts :=
          hc i site wh v k rfl hv m hm hw
        have most : (if m.status = .sending then recordsSince m.id tr else 0) ≤
            recordsSince m.id tr := by
          split
          · exact le_rfl
          · exact Nat.zero_le _
        have before : n ≤ m.attempts + if m.status = .sending then recordsSince m.id tr else 0 :=
          before
        omega
      | sending =>
        rcases updates_cases hu with ⟨ids, now, hφ, -, rfl, rfl⟩ | ⟨-, -, rfl⟩ | ⟨id,
          -, -, other, -⟩
        · simp only [MessageWhere.holds, Option.all_some, Option.all_none, Bool.and_true,
            decide_eq_true_eq] at hw
          have queued := ((h.due i ids hφ).2 m.id hw).2 m hm rfl
          rw [queued, if_neg (by simp)] at before
          exact before.trans (Nat.le_add_right _ _)
        · cases hv
        · exact absurd hv other
      | sent => rw [show (v.apply m).status = v.status from rfl, hv] at live; cases live
      | deadletter => rw [show (v.apply m).status = v.status from rfl, hv] at live; cases live
  · change id ∈ ((delivery cfg).phase (.did i o a :: tr) j).held at hj
    change ((delivery cfg).phase (.did i o a :: tr) j).recorded = some n at hn
    rw [phase_did_apply] at hj hn
    split at hj
    · subst j
      rw [if_pos rfl] at hn
      rcases recorded_of_next noRecord hj hn with ⟨hj, hn⟩ | ⟨heq, rfl⟩ |
        ⟨ids, site, wh, v, k, hφ, hid, heq, rfl⟩
      · exact (h.since_held hg (holders_pos hj) noRecord).trans (h.counted i id n hj hn)
      · cases heq
        obtain ⟨rest, hq, -⟩ := exec_queueGet he
        exact (recordsSince_quiet (fun claim => by cases claim) rfl).trans
          (h.waiting id (by rw [show (Config.mk w tr).shared.queue = _ from hq]; exact List.mem_cons_self))
      · cases heq
        refine claimed id ?_
        rcases updates_cases (show Updates cfg _ wh v from hg) with
          ⟨ids', now, hφ', -, rfl, rfl⟩ | ⟨hφ', -⟩ | ⟨id', hφ', -⟩
        · rw [hφ] at hφ'
          cases hφ'
          simp [claims, hid]
        · rw [hφ] at hφ'
          cases hφ'
        · rw [hφ] at hφ'
          cases hφ'
    · rename_i other
      rw [if_neg other] at hn
      exact (h.since_held hg (holders_pos hj) noRecord).trans (h.counted j id n hj hn)
  · change id ∈ w'.queue at hq
    by_cases old : id ∈ w.queue
    · have held : 0 < holders cfg id ⟨w, tr⟩ :=
        (List.count_pos_iff.mpr old).trans_le (Nat.le_add_right _ _)
      exact (h.since_held hg held noRecord).trans (h.waiting id old)
    · obtain ⟨ids, rfl, hφ⟩ : ∃ ids, o = .queuePut id ∧ (delivery cfg).phase tr i =
        .batch (id :: ids) := by
        have part : o.part = some .queue := by
          by_contra part
          exact old ((exec_frame cfg he).queue part ▸ hq)
        cases o with
        | queueGet =>
          obtain ⟨rest, hw, rfl⟩ := exec_queueGet he
          exact absurd (hw.symm ▸ List.mem_cons_of_mem _ hq) old
        | queuePut id' =>
          obtain rfl := exec_queuePut he
          obtain ⟨ids, hφ⟩ := hg
          obtain rfl : id = id' := by
            rcases List.mem_append.mp hq with hq | hq
            · exact absurd hq old
            · exact List.mem_singleton.mp hq
          exact ⟨ids, rfl, hφ⟩
        | _ => cases part
      have held : id ∈ ((delivery cfg).phase tr i).held := by
        rw [hφ]
        exact List.mem_cons_self
      exact (h.since_held hg (holders_pos held) noRecord).trans
        (h.counted i id 0 held
          (by rw [show (delivery cfg).phase (Config.mk w tr).trace i = _ from hφ]; rfl))
  · change (delivery cfg).phase (.did i o a :: tr) j = .turn id t told drawn at hj
    -- a relay is made by the consumer at work on the message
    have relay : relaysOf id (.did i o a) = true → ∃ t told drawn,
        (delivery cfg).phase tr i = .turn id t told drawn := by
      intro ho
      obtain ⟨t, told, drawn, hφ, -⟩ := turn_of_relays hg (of_decide_eq_true ho)
      exact ⟨t, told, drawn, hφ⟩
    have quiet : relaysOf id (.did i o a) = false →
        relayLog id (.did i o a :: tr) = relayLog id tr :=
          fun ho => relayLog_quiet ho (noRecord i id)
    rw [phase_did_apply] at hj
    split at hj
    · subst j
      rcases turn_of_next hj with ⟨t₀, told₀, drawn₀, hφ, hnext⟩ | ⟨row, -, -, rfl, -, -⟩
      · have before : t₀.sends = t₀.recorded + 1 → (relayLog id tr).head? = some none :=
          h.pending i id t₀ told₀ drawn₀ hφ
        cases hnext with
        | relayed =>
          obtain ⟨t₁, _, _, hφ', -⟩ := hg
          rw [hφ] at hφ'
          cases hφ'
          exact congrArg List.head?
            (relayLog_relay (by simp [relaysOf, Op.relayFor]) (noRecord i _))
        | @recorded site row =>
          have unnumbered := noRecord 0 row.messageId
          simp [recordedNo] at unnumbered
        | other ho =>
          exact (congrArg List.head? (quiet (by simp [relaysOf, ho]))).trans (before hsends)
        | _ => exact (congrArg List.head? (quiet rfl)).trans (before hsends)
      · cases hsends
    · rename_i other
      have held : id ∈ ((delivery cfg).phase tr j).held := by
        rw [hj]
        exact List.mem_singleton_self _
      refine (congrArg List.head? (quiet ?_)).trans (h.pending j id t told drawn hj hsends)
      by_contra ho
      obtain ⟨t', told', drawn', hφ⟩ := relay (by simpa using ho)
      refine other (h.alone held ?_)
      rw [show (delivery cfg).phase (Config.mk w tr).trace i = _ from hφ]
      exact List.mem_singleton_self _
  · rw [numbers id, recorded_relayLog (noRecord i id)]
    exact h.log id

end Did

theorem Chronicle.step (h : Chronicle cfg db x) (hj : ∀ j, jobs j = true → j.ofMail = true)
    (hs : (system cfg jobs).Step (delivery cfg) x x') (hc : CountedBack x x') :
    Chronicle cfg db x' := by
  have snapped := h.toSnapped.step hs (h.toKept.fresh hs)
  have kept := h.toKept.step (fun j hjob => duty_of_ofMail (hj j hjob)) hs
  have hs' := hs
  cases hs with
  | @start w tr i j ha hi =>
    have begun : ∀ {k id : ℕ}, id ∈ ((delivery cfg).phase (.start i j :: tr) k).held →
        (delivery cfg).phase (.start i j :: tr) k = (delivery cfg).phase tr k := by
      intro k id hk
      exact (phase_start_held rfl (List.ne_nil_of_mem hk)).symm
    refine ⟨snapped, kept, h.refs, h.increasing, h.charged, fun k id n hk hn => ?_, h.waiting,
      fun k id t told drawn hk hsends => ?_, h.log⟩
    · change id ∈ ((delivery cfg).phase (.start i j :: tr) k).held at hk
      change ((delivery cfg).phase (.start i j :: tr) k).recorded = some n at hn
      rw [begun hk] at hn
      rw [begun hk] at hk
      exact h.counted k id n hk hn
    · exact h.pending k id t told drawn (phase_start_held hk (List.cons_ne_nil _ _)) hsends
  | env => exact ⟨snapped, kept, h.refs, h.increasing, h.charged, h.counted, h.waiting,
      h.pending, h.log⟩
  | crash => exact ⟨snapped, kept, h.refs, h.increasing, h.charged, fun k id n hk => (by cases hk),
      fun id hq => (by cases hq), fun k id t told drawn hk => (by cases hk), h.log⟩
  | @did w w' tr i o c a he hg =>
    have he : exec cfg i o c w = some (a, w') := he
    have hg : ((delivery cfg).phase tr i).good cfg o a := hg
    rcases attempts_of_did he hg (h.calm i) with ⟨same, noRecord⟩ |
      ⟨site, row, n, t, told, drawn, heq, rfl, hφ, hsends, hno⟩
    · exact h.step_beside he hg hs' hc snapped kept same noRecord
    · cases heq
      exact h.step_recorded hφ hsends hno snapped kept

/-- What holds of a process that starts. -/
theorem Chronicle.init {w : World} (ids : (w.db.messages.map Message.id).Nodup)
    (down : w.up = false)
    (empty : w.queue = []) (numbered : w.db.Numbered) : Chronicle cfg w.db ⟨w, []⟩ := by
  have spent : Spent cfg ⟨w, []⟩ := Spent.init ids down empty
  refine ⟨spent.toSnapped, spent.toKept, numbered.refs, numbered.increasing,
    fun m hm live n hn => ?_,
    fun i id n hi => (by cases hi), fun id hq => ?_, fun i id t told drawn hi => (by cases hi),
      fun id => ?_⟩
  · exact (numbered.charged m hm live n hn).trans (Nat.le_add_right _ _)
  · rw [show (Config.mk w []).shared.queue = [] from empty] at hq
    cases hq
  · simp [relayLog, List.reduceOption]

end Invariants

/-- **The numbers of the attempts.** In every run of dispatch cycles in which no message is put
back with fewer attempts charged than have been recorded in its cycle: the numbers of the attempts
at a message grow strictly in the order of its relays, and that is how `get_message` lists them. -/
theorem attempts_numbered (cfg : Settings) {jobs : Job → Bool} (hj : ∀ j, jobs j = true →
    j.ofMail = true)
    {w : World} (ids : (w.db.messages.map Message.id).Nodup) (down : w.up = false)
    (empty : w.queue = []) (numbered : w.db.Numbered) {s : Pool Op Op.Ans Exc World Job ℚ}
    (h : (system cfg jobs).Reachable CountedBack (Machine.boot w) s) (id : ℕ) :
    (s.shared.db.numbers id).Pairwise (· < ·) ∧
      s.shared.db.numbers id = w.db.numbers id ++ (relayLog id s.trace).reverse.reduceOption ∧
      ∀ m log, s.shared.db.getMessage id = some (m, log) → log = s.shared.db.attemptsAt id := by
  have keeps : (system cfg jobs).Keeps (delivery cfg) :=
    delivery_keeps fun j hjob => Job.ofProcess_of_ofMail (hj j hjob)
  obtain ⟨chronicle, -⟩ :=
    Machine.invariant keeps (Chronicle cfg w.db) (Chronicle.init ids down empty numbered)
    (fun h hs hc => h.step hj hs hc) h
  exact ⟨chronicle.increasing id, chronicle.log id,
    fun m log => Db.getMessage_of_increasing (chronicle.increasing id)⟩

namespace Example

/-- A consumer's cycle with one provider, which is busy; the first `n` operations get it to the
relay. -/
def busyCycle (i n : ℕ) : List (Move Choice Job ℚ) := List.flatten
  [[.start i .consumer], oks i n, [.run i busy], oks i 16, [.run i (.draw 0)], oks i 4]

/-- Two cycles, an hour apart. -/
def retriedOnce : List (Move Choice Job ℚ) := List.flatten
  [[.start 0 .start], oks 0 9, [.start 0 .producer], oks 0 5, busyCycle 1 21,
    [.env 3600, .start 0 .producer], oks 0 5, busyCycle 2 20]

/-- The next operation puts no message back with fewer attempts charged than recorded. -/
def countedNext (m : Move Choice Job ℚ) (s : Pool Op Op.Ans Exc World Job ℚ) : Bool :=
  match m with
  | .run i _ => match s.tasks i with
    | some (_, .op (.commit _ [.updateMessages wh v]) _) => v.status ≠ .queued ||
        s.shared.db.messages.all fun row =>
        !wh.holds row || decide (row.attempts + recordsSince row.id s.trace ≤
          (v.apply row).attempts)
    | _ => true
  | _ => true

theorem counted_of_next {cfg : Settings} {jobs : Job → Bool} {m : Move Choice Job ℚ}
    {s s' : Pool Op Op.Ans Exc World Job ℚ} (hm : countedNext m s = true)
    (hs : (system cfg jobs).step m s = some s') : CountedBack s.toConfig s'.toConfig := by
  intro i site wh v n htr queued row hrow hold
  obtain ⟨c, j, k, rfl, ht, -⟩ := Machine.step_did hs htr
  simp only [countedNext, ht, queued, Bool.or_eq_true, List.all_eq_true, decide_eq_true_eq, ne_eq,
    not_true_eq_false, false_or] at hm
  have paid := hm row hrow
  rw [hold] at paid
  simpa using paid

/-- Two cycles with one relay each. -/
theorem attempts_numbered_retriedOnce : ∃ s,
    (system twoPerDay Job.ofMail).runFrom (Machine.boot oneQueued) retriedOnce = some s ∧
      s.shared.db.numbers 1 = [1, 2] ∧ (s.shared.db.numbers 1).Pairwise (· < ·) := by
  obtain ⟨s, hs, numbers⟩ : ∃ s, (system twoPerDay Job.ofMail).runFrom
      (Machine.boot oneQueued) retriedOnce = some s ∧
      s.shared.db.numbers 1 = [1, 2] := Option.map_eq_some_iff.mp (by decide +kernel)
  have along : (system twoPerDay Job.ofMail).along countedNext
      (Machine.boot oneQueued) retriedOnce = true := by
    decide +kernel
  have numbered : oneQueued.db.Numbered :=
    ⟨fun a ha => (by cases ha), fun id => List.Pairwise.nil, fun m _ _ n hn => (by cases hn)⟩
  exact ⟨s, hs, numbers, (attempts_numbered twoPerDay (fun j hj => hj) (by decide) rfl rfl numbered
    (Machine.Reachable.refl.runFrom_along counted_of_next along hs) 1).1⟩

/-- A consumer's cycle with two providers, which are both busy. -/
def bothBusy (i : ℕ) : List (Move Choice Job ℚ) := List.flatten
  [[.start i .consumer], oks i 19, [.run i busy], oks i 28, [.run i busy], oks i 16,
    [.run i (.draw 0)], oks i 4]

/-- Nothing fails, and nobody requeues the message: the second cycle begins with the number the
first has ended with. -/
theorem renumbered_bothBusy : ∃ s,
    (system twoProviders Job.ofMail).Reachable (Machine.Each faultless) (Machine.boot oneQueued) s ∧
      (relayLog 1 s.trace).reverse = [some 1, some 2, some 2, some 3] ∧
      ¬ (s.shared.db.numbers 1).Pairwise (· < ·) := by
  obtain ⟨s, hs, ha⟩ : ∃ s, (system twoProviders Job.ofMail).runFrom (Machine.boot oneQueued)
      (List.flatten
      [[.start 0 .start], oks 0 9, [.start 0 .producer], oks 0 5, bothBusy 1,
        [.env 3600, .start 0 .producer], oks 0 5, bothBusy 2]) = some s ∧
      (s.trace.all faultless, s.shared.db.numbers 1, (relayLog 1 s.trace).reverse) =
        (true, [1, 2, 2, 3], [some 1, some 2, some 2, some 3]) :=
          Option.map_eq_some_iff.mp (by decide +kernel)
  simp only [Prod.mk.injEq] at ha
  obtain ⟨all, numbers, log⟩ := ha
  refine ⟨s, Machine.Reachable.refl.runFrom_each hs all, log, ?_⟩
  rw [numbers]
  decide

end Example

end SmtpSwitch
