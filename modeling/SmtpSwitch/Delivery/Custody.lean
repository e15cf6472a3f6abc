import SmtpSwitch.Delivery.Trail
import SmtpSwitch.Limits.Account

/-!
# Single ownership of claimed messages

As long as nobody deletes a message, whatever is held has a row, and no new row is given an id
that is held (`Kept`). If the database statements succeed, too, then from the moment the process
is up the ids held are exactly those of the rows being sent, and each is held once; and a
row that has reached its end is never changed again (`single_ownership`).
-/

namespace SmtpSwitch

open Coop Coop.Prog

/-- The jobs of the process but for the message API. -/
def Job.ofMail : Job → Bool
  | .start | .producer | .consumer | .handleData _ _ | .prune => true
  | _ => false

theorem Job.ofProcess_of_ofMail {j : Job} (h : j.ofMail = true) : j.ofProcess = true := by
  cases j <;> first | rfl | cases h

/-- What a task gives up: it queues an id, it has found no row to send, an operation has failed,
or it has written a row. -/
theorem held_or_next {φ : Duty} (o : Op) (a : o.Ans) {id : ℕ} (h : id ∈ φ.held) :
    id ∈ (φ.next o a).held ∨ (∃ id', o = .queuePut id') ∨
      (∃ row, φ = .read id row ∧ Duty.ofRow id row = .idle) ∨
      (∃ site e, (⟨o, a⟩ : Σ o : Op, o.Ans) = ⟨.flush site, .error e⟩) ∨
      (∃ site ss e, (⟨o, a⟩ : Σ o : Op, o.Ans) = ⟨.commit site ss, .error e⟩) ∨
      ∃ site wh v n, (⟨o, a⟩ : Σ o : Op, o.Ans) = ⟨.commit site [.updateMessages wh v], .ok n⟩ := by
  have turn : ∀ {id' t told drawn}, id ∈ (Duty.turn id' t told drawn).held →
      id ∈ (Duty.nextTurn id' t told drawn o a).held ∨ ∃ site wh v n,
        (⟨o, a⟩ : Σ o : Op, o.Ans) = ⟨.commit site [.updateMessages wh v], .ok n⟩ := by
    intro id' t told drawn h
    fun_cases Duty.nextTurn id' t told drawn o a
    all_goals first | exact .inl h | exact .inr ⟨_, _, _, _, rfl⟩
  revert h
  fun_cases Duty.next φ o a
  case case16 id' row _ _ _ =>
    intro h
    obtain rfl := List.mem_singleton.mp h
    rcases ofRow_cases id row with idle | ⟨m, -, -, at_⟩
    · exact .inr (.inr (.inl ⟨row, rfl, idle⟩))
    · exact .inl (by rw [at_]; exact List.mem_singleton_self _)
  case case18 id' t told drawn =>
    intro h
    rcases turn h with h | h
    · exact .inl h
    · exact .inr (.inr (.inr (.inr (.inr h))))
  all_goals
    intro h
    first
    | exact .inl h
    | (cases h; done)
    | exact .inr (.inl ⟨_, rfl⟩)
    | exact .inr (.inr (.inr (.inl ⟨_, _, rfl⟩)))
    | (rename_i a; cases a
       · exact .inr (.inr (.inr (.inr (.inl ⟨_, _, _, rfl⟩))))
       · exact .inr (.inr (.inr (.inr (.inr ⟨_, _, _, _, rfl⟩)))))

theorem duty_of_ofMail {j : Job} (h : j.ofMail = true) : j.duty ≠ .deleting := by
  intro hd
  cases j <;> first | (cases h; done) | cases hd

theorem calm_next {φ : Duty} (o : Op) (a : o.Ans) (h : φ ≠ .deleting) : φ.next o a ≠ .deleting := by
  intro hd
  have next := φ.next_cases o a
  rw [hd] at next
  cases next
  exact h rfl

section Invariants

variable (cfg : Settings)

/-- Whatever is held or selected has a row. -/
structure Kept (x : Moment) : Prop where
  calm : ∀ i, (delivery cfg).phase x.trace i ≠ .deleting
  rows : ∀ id, 0 < holders cfg id x → id ∈ x.shared.db.messages.map Message.id
  dueRows : ∀ i ids, (delivery cfg).phase x.trace i = .due ids →
    ∀ id ∈ ids, id ∈ x.shared.db.messages.map Message.id

variable {cfg} {jobs : Job → Bool} {x x' : Moment}

/-- What is held was held or claimed. -/
theorem held_of_step (hs : (system cfg jobs).Step (delivery cfg) x x') {id : ℕ}
    (h : 0 < holders cfg id x') : 0 < holders cfg id x ∨
      ∃ i ids, (delivery cfg).phase x.trace i = .due ids ∧ id ∈ ids := by
  cases hs with
  | @start w tr i j ha hi =>
    simp only [holders] at h ⊢
    rw [Protocol.total_start rfl (by cases j <;> rfl) hi] at h
    exact .inl h
  | env => exact .inl h
  | crash =>
    simp only [holders, Protocol.total_crash (P := delivery cfg) (f := fun φ =>
      φ.held.count id) rfl] at h
    cases h
  | @did w w' tr i o c a he hg =>
    have he : exec cfg i o c w = some (a, w') := he
    have hg : ((delivery cfg).phase tr i).good cfg o a := hg
    have change := holders_did cfg id w w' tr i o a
    by_contra none
    simp only [not_or, not_exists, not_and] at none
    obtain ⟨before, due⟩ := none
    have nothing : w'.queue.count id +
        (((delivery cfg).phase tr i).next o a).held.count id = 0 := by
      have start : w.queue.count id + ((delivery cfg).phase tr i).held.count id = 0 := by
        have mine := held_le_holders cfg id i ⟨w, tr⟩
        have queued : w.queue.count id ≤ holders cfg id ⟨w, tr⟩ := Nat.le_add_right _ _
        have : ((delivery cfg).phase tr i).held.count id ≤ holders cfg id ⟨w, tr⟩ := mine
        omega
      have le : w'.queue.count id + (((delivery cfg).phase tr i).next o a).held.count id ≤
          w.queue.count id + ((delivery cfg).phase tr i).held.count id :=
        count_le_of_did he hg fun ids _ _ _ _ hφ _ => List.count_eq_zero_of_not_mem (due i ids hφ)
      omega
    omega

/-- A selection was made before, or is made of rows. -/
theorem due_of_step (hs : (system cfg jobs).Step (delivery cfg) x x') {i : ℕ} {ids : List ℕ}
    (h : (delivery cfg).phase x'.trace i = .due ids) : (delivery cfg).phase x.trace i = .due ids ∨
      ∀ id ∈ ids, id ∈ x.shared.db.messages.map Message.id := by
  cases hs with
  | @start w tr k j ha hi =>
    rw [Protocol.phase_start, Function.update_apply] at h
    split at h
    · cases j <;> cases h
    · exact .inl h
  | env => exact .inl h
  | crash => cases h
  | @did w w' tr k o c a he hg =>
    rw [phase_did_apply] at h
    split at h
    · subst i
      rcases due_of_next h with old | ⟨-, site, now, limit, heq⟩
      · exact .inl old
      · cases heq
        refine .inr fun id hid => ?_
        rcases (exec_select (show exec cfg k _ c w = some (_, w') from he)).1 with hans | ⟨e, hans⟩
        · obtain ⟨m, hm, hmid, -⟩ := mem_selectDue (Except.ok.inj hans ▸ hid)
          exact List.mem_map.mpr ⟨m, hm, hmid⟩
        · cases hans
    · exact .inl h

namespace Kept

/-- Then no new row is given an id that is held. -/
theorem fresh (k : Kept cfg x) (hs : (system cfg jobs).Step (delivery cfg) x x') :
    Fresh cfg x x' := by
  intro i site row id htr
  by_contra held
  have present := k.rows id (Nat.pos_of_ne_zero held)
  rcases rows_of_step hs with ⟨-, none⟩ | ⟨i', site', ss, htr', -⟩
  · exact none _ _ _ _ htr
  · rw [htr] at htr'
    cases htr'
    exact lt_irrefl _ (lt_nextId present)

/-- Rows stay. -/
theorem ids_subset (k : Kept cfg x) (hs : (system cfg jobs).Step (delivery cfg) x x') {id : ℕ}
    (h : id ∈ x.shared.db.messages.map Message.id) : id ∈ x'.shared.db.messages.map Message.id := by
  rcases rows_of_step hs with ⟨same, -⟩ | ⟨i, site, ss, -, change⟩
  · rwa [same]
  generalize x'.shared.db.messages = ms at change ⊢
  cases change with
  | insert => exact List.mem_map.mpr (by
      obtain ⟨m, hm, hid⟩ := List.mem_map.mp h
      exact ⟨m, List.mem_append_left _ hm, hid⟩)
  | update => rwa [ids_applyUpdate]
  | delete hφ => exact absurd hφ (k.calm i)
  | none => exact h

theorem step (k : Kept cfg x) (hj : ∀ j, jobs j = true → j.duty ≠ .deleting)
    (hs : (system cfg jobs).Step (delivery cfg) x x') : Kept cfg x' := by
  refine ⟨fun i => ?_, fun id held => ?_, fun i ids hi id hid => ?_⟩
  · cases hs with
    | @start w tr i' j ha hi =>
      rw [Protocol.phase_start, Function.update_apply]
      split
      · have ha : Job.admitted jobs i' j w = true := ha
        simp only [Job.admitted, Bool.and_eq_true] at ha
        exact hj j ha.1
      · exact k.calm i
    | env => exact k.calm i
    | crash => intro hd; cases hd
    | did =>
      rw [phase_did_apply]
      split
      · exact calm_next _ _ (k.calm _)
      · exact k.calm i
  · rcases held_of_step hs held with before | ⟨i, ids, hi, hid⟩
    · exact k.ids_subset hs (k.rows id before)
    · exact k.ids_subset hs (k.dueRows i ids hi id hid)
  · rcases due_of_step hs hi with old | present
    · exact k.ids_subset hs (k.dueRows i ids old id hid)
    · exact k.ids_subset hs (present id hid)

end Kept

/-- An update does not concern a row that has reached its end. -/
theorem Own.live_of_updates (h : Own cfg x) {i : ℕ} {wh : MessageWhere} {v : MessageValues}
    (hu : Updates cfg ((delivery cfg).phase x.trace i) wh v) {m : Message}
    (hm : m ∈ x.shared.db.messages) (hw : wh.holds m = true) : m.status.terminal = false := by
  rcases updates_cases hu with ⟨ids, now, hφ, -, rfl, rfl⟩ | ⟨-, rfl, -⟩ | ⟨id, hφ, hids, -, -, -⟩
  · simp only [MessageWhere.holds, Option.all_some, Option.all_none, Bool.and_true,
      decide_eq_true_eq] at hw
    rw [((h.due i ids hφ).2 m.id hw).2 m hm rfl]
    rfl
  · simp only [MessageWhere.holds, Option.all_some, Option.all_none, Bool.true_and,
      decide_eq_true_eq] at hw
    rw [hw]
    rfl
  · simp only [MessageWhere.holds, hids, Option.all_some, List.mem_singleton, Bool.and_eq_true,
      decide_eq_true_eq] at hw
    have held := held_le_holders cfg m.id i x
    rw [hφ, hw.1, List.count_singleton_self] at held
    rw [h.held m hm (by rw [hw.1]; exact held)]
    rfl

/-- What is never changed again. -/
theorem terminal_of_step (h : Own cfg x) (k : Kept cfg x)
    (hs : (system cfg jobs).Step (delivery cfg) x x')
    {m : Message} (hm : m ∈ x.shared.db.messages) (ht : m.status.terminal = true) :
    m ∈ x'.shared.db.messages := by
  rcases rows_of_step hs with ⟨same, -⟩ | ⟨i, site, ss, -, change⟩
  · rwa [same]
  generalize x'.shared.db.messages = ms at change ⊢
  cases change with
  | insert => exact List.mem_append_left _ hm
  | delete hφ => exact absurd hφ (k.calm i)
  | none => exact hm
  | @update wh v hu =>
    have kept : wh.holds m = false := by
      by_contra hw
      rw [h.live_of_updates hu hm (by simpa using hw)] at ht
      cases ht
    exact List.mem_map.mpr ⟨m, hm, by simp [kept]⟩

theorem recovered_of_next {φ : Duty} {o : Op} {a : o.Ans} (h : φ.next o a = .recovered) :
    φ = .recovered ∨ φ = .starting ∧ ∃ site wh v n,
      (⟨o, a⟩ : Σ o : Op, o.Ans) = ⟨.commit site [.updateMessages wh v], .ok n⟩ := by
  have next := φ.next_cases o a
  rw [h] at next
  cases next with
  | same => exact .inl rfl
  | recovered => exact .inr ⟨rfl, _, _, _, _, rfl⟩

variable (cfg) in
/-- Every row being sent is held, from the moment the process is up. -/
structure Owned (x : Moment) : Prop extends Own cfg x, Kept cfg x where
  read : ∀ i id row, (delivery cfg).phase x.trace i = .read id row → ∃ m, row = some m ∧
    m.status = .sending
  recovered : ∀ i, (delivery cfg).phase x.trace i = .recovered →
    ∀ m ∈ x.shared.db.messages, m.status ≠ .sending
  owned : x.shared.up = true → ∀ m ∈ x.shared.db.messages, m.status = .sending →
    0 < holders cfg m.id x

/-- A database statement succeeds. -/
def Statements : Entry Op Op.Ans Job ℚ → Bool
  | .did _ (.select _ _) (.error _) | .did _ (.flush _) (.error _) | .did _ (.commit _ _)
      (.error _) => false
  | _ => true

/-- A row comes to be sent by the producer's claim. -/
theorem sending_of_step (hs : (system cfg jobs).Step (delivery cfg) x x') {m' : Message}
    (hm : m' ∈ x'.shared.db.messages) (hsend : m'.status = .sending) :
    (∃ m ∈ x.shared.db.messages, m.id = m'.id ∧ m.status = .sending) ∨
      ∃ i ids, (delivery cfg).phase x.trace i = .due ids ∧ m'.id ∈ ids ∧
        (delivery cfg).phase x'.trace i = .batch ids := by
  rcases rows_of_step hs with ⟨same, -⟩ | ⟨i, site, ss, htr, change⟩
  · exact .inl ⟨m', same ▸ hm, rfl, hsend⟩
  generalize hms : x'.shared.db.messages = ms at change hm
  cases change with
  | insert _ queued _ =>
    rcases List.mem_append.mp hm with hm | hm
    · exact .inl ⟨m', hm, rfl, hsend⟩
    · obtain rfl := List.mem_singleton.mp hm
      rw [show _ = MessageStatus.queued from queued] at hsend
      cases hsend
  | delete => exact .inl ⟨m', List.mem_of_mem_filter hm, rfl, hsend⟩
  | none => exact .inl ⟨m', hm, rfl, hsend⟩
  | update hu =>
    obtain ⟨m, hm, hid, ⟨-, rfl⟩ | ⟨hw, rfl⟩⟩ := mem_applyUpdate hm
    · exact .inl ⟨_, hm, rfl, hsend⟩
    rcases updates_cases hu with ⟨ids, now, hφ, -, rfl, rfl⟩ | ⟨-, -, rfl⟩ | ⟨id, -, -, hv, -, -⟩
    · simp only [MessageWhere.holds, Option.all_some, Option.all_none, Bool.and_true,
        decide_eq_true_eq] at hw
      refine .inr ⟨i, ids, hφ, hw, ?_⟩
      rw [htr, Protocol.phase_did, Function.update_self, hφ]
      rfl
    · cases hsend
    · exact absurd hsend hv

namespace Owned

/-- What a step lets go of has been written. -/
theorem held_of_step (h : Owned cfg x) (hs : (system cfg jobs).Step (delivery cfg) x x')
    (hc : Machine.Each Statements x x') (up : x'.shared.up = true) {m' : Message}
    (hm : m' ∈ x'.shared.db.messages) (hsend : m'.status = .sending)
    (held : 0 < holders cfg m'.id x) :
    0 < holders cfg m'.id x' := by
  have rows := rows_of_step hs
  cases hs with
  | @start w tr i j ha hi =>
    simp only [holders] at held ⊢
    rwa [Protocol.total_start rfl (by cases j <;> rfl) hi]
  | env => exact held
  | crash => cases up
  | @did w w' tr i o c a he hg =>
    have he : exec cfg i o c w = some (a, w') := he
    have hg : ((delivery cfg).phase tr i).good cfg o a := hg
    have ok : Statements (.did i o a) = true := hc _ rfl
    by_contra none
    have unheld : holders cfg m'.id ⟨w', .did i o a :: tr⟩ = 0 := by omega
    have change := holders_did cfg m'.id w w' tr i o a
    have after := held_le_holders cfg m'.id i ⟨w', .did i o a :: tr⟩
    rw [phase_did_apply, if_pos rfl] at after
    rcases queue_of_did he hg with ⟨-, same⟩ | ⟨hq, noPut⟩
    · have := same m'.id
      omega
    -- the task has let go of the id
    have mine : m'.id ∈ ((delivery cfg).phase tr i).held := by
      rw [hq] at change
      exact List.count_pos_iff.mp (by omega)
    have gone : m'.id ∉ (((delivery cfg).phase tr i).next o a).held := by
      intro still
      have := List.count_pos_iff.mpr still
      omega
    rcases held_or_next o a mine with still | ⟨id', rfl⟩ | ⟨row, hφ, idle⟩ | ⟨site, e, heq⟩ | ⟨site,
      ss, e, heq⟩ |
      ⟨site, wh, v, n, heq⟩
    · exact gone still
    · exact noPut id' rfl
    · obtain ⟨m, rfl, hs⟩ := h.read i _ _ hφ
      rw [Duty.ofRow, hs] at idle
      cases idle
    · cases heq
      cases ok
    · cases heq
      cases ok
    · cases heq
      rcases rows with ⟨-, nothing⟩ | ⟨k, site', ss, htr, written⟩
      · exact nothing _ _ _ _ rfl
      cases htr
      generalize hms : (Config.mk w' _).shared.db.messages = ms at written hm
      cases written with
      | none noUpdate => exact noUpdate _ _ rfl
      | update hu =>
        obtain ⟨m, hm, hid, hcase⟩ := mem_applyUpdate hm
        have sending : m.status = .sending := h.held m hm (by rw [hid]; exact held)
        rcases updates_cases hu with ⟨ids, now, hφ, -⟩ | ⟨hφ, -⟩ | ⟨id, hφ, -, hv, hw, -⟩
        · rw [show (delivery cfg).phase tr i = _ from hφ] at mine
          cases mine
        · rw [show (delivery cfg).phase tr i = _ from hφ] at mine
          cases mine
        · rw [show ((delivery cfg).phase tr i).held = _ from hφ] at mine
          obtain rfl := List.mem_singleton.mp mine
          rcases hcase with ⟨hno, -⟩ | ⟨-, rfl⟩
          · rw [hw m hid sending] at hno
            cases hno
          · exact hv hsend

theorem step (h : Owned cfg x) (hj : ∀ j, jobs j = true → j.ofMail = true)
    (hs : (system cfg jobs).Step (delivery cfg) x x') (hc : Machine.Each Statements x x') :
    Owned cfg x' := by
  have own := h.toOwn.step hs (h.toKept.fresh hs)
  have kept := h.toKept.step (fun j hjob => duty_of_ofMail (hj j hjob)) hs
  refine ⟨own, ⟨kept.calm, kept.rows, kept.dueRows⟩, fun i id row hi => ?_,
    fun i hi m' hm' hsend => ?_,
    fun up m' hm' hsend => ?_⟩
  · cases hs with
    | @start w tr k j ha hk =>
      rw [Protocol.phase_start, Function.update_apply] at hi
      split at hi
      · cases j <;> cases hi
      · exact h.read i id row hi
    | env => exact h.read i id row hi
    | crash => cases hi
    | @did w w' tr k o c a he hg =>
      rw [phase_did_apply] at hi
      split at hi
      · subst i
        rcases read_of_did he hg hi with old | ⟨hφ, hrow⟩
        · exact h.read k id row old
        have held : 0 < holders cfg id ⟨w, tr⟩ := by
          have := held_le_holders cfg id k ⟨w, tr⟩
          rw [show (delivery cfg).phase (Config.mk w tr).trace k = _ from hφ] at this
          simp only [Duty.held, List.count_singleton_self] at this
          exact this
        obtain ⟨m, hm, hmid⟩ := List.mem_map.mp (h.rows id held)
        cases hfind : w.db.messages.find? fun m => m.id = id with
        | none =>
          have := List.find?_eq_none.mp hfind m hm
          simp [hmid] at this
        | some m' =>
          refine ⟨m', hrow.trans hfind, h.held m' (List.mem_of_find?_eq_some hfind) ?_⟩
          have : m'.id = id := by simpa using List.find?_some hfind
          rw [this]
          exact held
      · exact h.read i id row hi
  · have down : x'.shared.up = false := own.booting i (by rw [hi]; rfl)
    have old : (delivery cfg).phase x.trace i = .recovered → False := by
      intro hold
      rcases sending_of_step hs hm' hsend with ⟨m, hm, -, hsend'⟩ | ⟨k, ids, hk, -⟩
      · exact h.recovered i hold m hm hsend'
      · have idle := (h.down (h.booting i (by rw [hold]; rfl))).2 k
        rw [hk] at idle
        cases idle
    have rows := rows_of_step hs
    cases hs with
    | @start w tr k j ha hk =>
      rw [Protocol.phase_start, Function.update_apply] at hi
      split at hi
      · cases j <;> cases hi
      · exact old hi
    | env => exact old hi
    | crash => cases hi
    | @did w w' tr k o c a he hg =>
      rw [phase_did_apply] at hi
      split at hi
      · subst i
        rcases recovered_of_next hi with hold | ⟨hφ, site, wh, v, n, heq⟩
        · exact old hold
        -- all rows being sent are queued again
        cases heq
        rcases rows with ⟨-, nothing⟩ | ⟨k', site', ss, htr, change⟩
        · exact nothing _ _ _ _ rfl
        cases htr
        generalize hms : (Config.mk w' _).shared.db.messages = ms at change hm'
        cases change with
        | none noUpdate => exact noUpdate _ _ rfl
        | update hu =>
          rcases updates_cases hu with ⟨ids, now, hdue, -⟩ | ⟨-, rfl, rfl⟩ | ⟨id, hheld, -⟩
          · rw [show (delivery cfg).phase tr k = _ from hφ] at hdue
            cases hdue
          · obtain ⟨m, hm, hid, ⟨hw, rfl⟩ | ⟨-, rfl⟩⟩ := mem_applyUpdate hm'
            · simp [MessageWhere.holds, hsend] at hw
            · cases hsend
          · rw [show (delivery cfg).phase tr k = _ from hφ] at hheld
            cases hheld
      · exact old hi
  · by_cases was : x.shared.up = true
    · rcases sending_of_step hs hm' hsend with ⟨m, hm, hid, hsend'⟩ | ⟨i, ids, -, hid, hi⟩
      · exact h.held_of_step hs hc up hm' hsend (by rw [← hid]; exact h.owned was m hm hsend')
      · have := held_le_holders cfg m'.id i x'
        rw [hi] at this
        exact (List.count_pos_iff.mpr hid).trans_le this
    · exfalso
      cases hs with
      | start => exact was up
      | env => exact was up
      | crash => cases up
      | @did w w' tr k o c a he hg =>
        rcases up_of_exec he with rfl | same
        · have hφ : (delivery cfg).phase tr k = .recovered := hg
          obtain rfl := exec_started he
          exact h.recovered k hφ m' hm' hsend
        · exact was (same.symm.trans up)

end Owned

/-- What holds of a process that starts. -/
theorem Owned.init {w : World} (ids : (w.db.messages.map Message.id).Nodup) (down : w.up = false)
    (empty : w.queue = []) : Owned cfg ⟨w, []⟩ := by
  have staged : Staged cfg ⟨w, []⟩ :=
    ⟨fun i hi => (by cases hi), fun i hi => (by cases hi), fun _ => ⟨empty, fun i => rfl⟩⟩
  have own := Own.of_down staged down ids
  have unheld := holders_eq_zero_of_down staged down
  refine ⟨own, ⟨fun i hi => (by cases hi), fun id hid => ?_, fun i ids hi => (by cases hi)⟩,
    fun i id row hi => (by cases hi), fun i hi => (by cases hi), fun up => ?_⟩
  · rw [unheld id] at hid
    cases hid
  · rw [show (Config.mk w _).shared.up = false from down] at up
    cases up

/-- A message at its end is not changed in any run. -/
theorem terminal_stays (hj : ∀ j, jobs j = true → j.ofMail = true)
    {s s' : Pool Op Op.Ans Exc World Job ℚ}
    (h : Owned cfg s.toConfig) (hp : Machine.InPhase (delivery cfg) s)
    (hr : (system cfg jobs).Reachable (Machine.Each Statements) s s') {m : Message}
    (hm : m ∈ s.shared.db.messages) (ht : m.status.terminal = true) :
    m ∈ s'.shared.db.messages := by
  have keeps : (system cfg jobs).Keeps (delivery cfg) :=
    delivery_keeps fun j hjob => Job.ofProcess_of_ofMail (hj j hjob)
  have run : Owned cfg s'.toConfig ∧ Machine.InPhase (delivery cfg) s' ∧
      m ∈ s'.shared.db.messages := by
    induction hr with
    | refl => exact ⟨h, hp, hm⟩
    | step _ hmove hc ih =>
      obtain ⟨hs, hp'⟩ := Machine.step_cases keeps ih.2.1 hmove
      exact ⟨ih.1.step hj hs hc, hp', terminal_of_step ih.1.toOwn ih.1.toKept hs ih.2.2 ht⟩
  exact run.2.2

end Invariants

/-- **Single ownership of claimed messages.** In every run of the ingress server, the producer,
the consumers, crashes and restarts in which the database statements succeed: once the process is
up, each id is held once at most, and the ids held are those of the rows being sent; and a row at
its end stays as it is. -/
theorem single_ownership (cfg : Settings) {jobs : Job → Bool} (hj : ∀ j, jobs j = true →
    j.ofMail = true)
    {w : World} (ids : (w.db.messages.map Message.id).Nodup) (down : w.up = false)
    (empty : w.queue = []) {s : Pool Op Op.Ans Exc World Job ℚ}
    (h : (system cfg jobs).Reachable (Machine.Each Statements) (Machine.boot w) s) :
    (s.shared.up = true → ∀ id, holders cfg id s.toConfig ≤ 1 ∧
      (0 < holders cfg id s.toConfig ↔ ∃ m ∈ s.shared.db.messages, m.id = id ∧
        m.status = .sending)) ∧
    ∀ s', (system cfg jobs).Reachable (Machine.Each Statements) s s' →
      ∀ m ∈ s.shared.db.messages, m.status.terminal = true → m ∈ s'.shared.db.messages := by
  obtain ⟨owned, phases⟩ := Machine.invariant
    (delivery_keeps fun j hjob => Job.ofProcess_of_ofMail (hj j hjob))
    (Owned cfg) (Owned.init ids down empty) (fun h hs hc => h.step hj hs hc) h
  refine ⟨fun up id => ⟨owned.single id, fun held => ?_, ?_⟩, fun s' hr m hm ht =>
    terminal_stays hj owned phases hr hm ht⟩
  · obtain ⟨m, hm, rfl⟩ := List.mem_map.mp (owned.rows id held)
    exact ⟨m, hm, rfl, owned.held m hm held⟩
  · intro hrow
    obtain ⟨m, hm, rfl, hsend⟩ := hrow
    exact owned.owned up m hm hsend

namespace Example

/-- Two messages, the first one left behind by a process that died. -/
def orphan : World :=
  { twoDue with db := { messages := [{ dueMessage 1 with status := .sending }, dueMessage 2] } }

/-- Consumer 1 is relaying the first, and the second is in the queue: both are being sent, and
held once. -/
theorem single_ownership_orphan : ∃ s,
    (system onePerDay Job.ofMail).runFrom (Machine.boot orphan) upToRelay = some s ∧
      s.shared.db.messages.map Message.status = [.sending, .sending] ∧ s.shared.queue = [2] ∧
      holders onePerDay 1 s.toConfig = 1 ∧ holders onePerDay 2 s.toConfig = 1 := by
  obtain ⟨s, hs, ha⟩ : ∃ s, (system onePerDay Job.ofMail).runFrom (Machine.boot orphan) upToRelay =
      some s ∧
      (s.trace.all Statements, s.shared.up, s.shared.queue, s.shared.db.messages.map fun m =>
        (m.id, m.status)) =
        (true, true, [2], [(1, .sending), (2, .sending)]) :=
    Option.map_eq_some_iff.mp (by decide +kernel)
  simp only [Prod.mk.injEq] at ha
  obtain ⟨all, up, queue, rows⟩ := ha
  have own := (single_ownership onePerDay (fun j hj => hj) (by decide) rfl rfl
    (Machine.Reachable.refl.runFrom_each hs all)).1 up
  have row : ∀ id, (id, MessageStatus.sending) ∈ [(1, MessageStatus.sending), (2, .sending)] →
      ∃ m ∈ s.shared.db.messages, m.id = id ∧ m.status = .sending := by
    intro id hid
    rw [← rows] at hid
    obtain ⟨m, hm, heq⟩ := List.mem_map.mp hid
    exact ⟨m, hm, congrArg Prod.fst heq, congrArg Prod.snd heq⟩
  refine ⟨s, hs, ?_, queue, ?_, ?_⟩
  · have statuses := congrArg (List.map Prod.snd) rows
    rw [List.map_map] at statuses
    exact statuses
  · exact le_antisymm (own 1).1 ((own 1).2.mpr (row 1 (by decide)))
  · exact le_antisymm (own 2).1 ((own 2).2.mpr (row 2 (by decide)))

end Example

end SmtpSwitch
