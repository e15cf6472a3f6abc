import SmtpSwitch.Coop.Worklist
import SmtpSwitch.Delivery.Custody
import SmtpSwitch.Delivery.Requeue
import SmtpSwitch.Delivery.Wakeup
import SmtpSwitch.Progress

/-!
# The table of messages as a list of work

What the table of messages is for: a message is accepted, claimed, and then sent,
given up, or put back (`Coop.Worklist`). No `UPDATE` of a consumer looks at the status
of the row it writes, and `_recover_orphans` puts back whatever it finds; that every
run is a run of the list of work all the same, whatever fails and wherever the
process dies, rests on who holds which id (`refines_worklist`). So no message is
lost, and none is done twice.

Where the database statements succeed nothing is left over either: when no task
can move any more, a message that is still being sent is in the work queue
(`nothing_stranded`).
-/

namespace SmtpSwitch

open Coop Coop.Prog

/-- Where a message with this status is in the list of work. -/
def MessageStatus.place : MessageStatus → Place MessageStatus
  | .queued => .waiting
  | .sending => .claimed
  | .sent => .done .sent
  | .deadletter => .done .deadletter

/-- The list of work a table is. -/
def places (ms : List Message) : Worklist ℕ MessageStatus :=
  fun id => (ms.find? fun m => m.id = id).map fun m => m.status.place

section Places

variable {ms : List Message} {id : ℕ}

theorem place_of_terminal {st : MessageStatus} (h : st.terminal = true) : st.place = .done st := by
  cases st <;> first | rfl | cases h

theorem status_of_place {st st' : MessageStatus} (h : st.place = .done st') : st = st' := by
  cases st <;> cases h <;> rfl

/-- A message is at one place. -/
theorem places_of_mem (ids : (ms.map Message.id).Nodup) {m : Message} (hm : m ∈ ms) :
    places ms m.id = some m.status.place := by
  cases hf : ms.find? fun m' => m'.id = m.id with
  | none => exact absurd (List.find?_eq_none.mp hf m hm) (by simp)
  | some m' =>
    have same : m'.id = m.id := by simpa using List.find?_some hf
    obtain rfl := List.inj_on_of_nodup_map ids (List.mem_of_find?_eq_some hf) hm same
    rw [places, hf]
    rfl

theorem places_eq_none : places ms id = none ↔ ∀ m ∈ ms, m.id ≠ id := by
  simp [places]

theorem exists_of_places {p : Place MessageStatus} (h : places ms id = some p) :
    ∃ m ∈ ms, m.id = id ∧ m.status.place = p := by
  obtain ⟨m, hf, rfl⟩ := Option.map_eq_some_iff.mp h
  exact ⟨m, List.mem_of_find?_eq_some hf, by simpa using List.find?_some hf, rfl⟩

/-- An update of the rows of `S`, which are all at the same place. -/
theorem shifts_applyUpdate (ids : (ms.map Message.id).Nodup) {wh : MessageWhere}
    {v : MessageValues} {S : Set ℕ}
    {p : Place MessageStatus} (inside : ∀ id ∈ S, ∃ m ∈ ms, m.id = id ∧ m.status.place = p ∧
      wh.holds m = true)
    (outside : ∀ m ∈ ms, m.id ∉ S → wh.holds m = false) :
    Worklist.Shifts (places ms) (places (applyUpdate wh v ms)) S (some p)
      (some v.status.place) := by
  have ids' : ((applyUpdate wh v ms).map Message.id).Nodup := by rwa [ids_applyUpdate]
  refine ⟨fun id hid => ?_, fun id hid => ?_, fun id hid => ?_⟩
  · obtain ⟨m, hm, rfl, rfl, -⟩ := inside id hid
    exact places_of_mem ids hm
  · obtain ⟨m, hm, rfl, -, hw⟩ := inside id hid
    exact places_of_mem ids' (mem_applyUpdate_of_holds wh v hm hw)
  · cases hp : places ms id with
    | none =>
      refine places_eq_none.mpr fun m' hm' same => ?_
      obtain ⟨m, hm, hmid, -⟩ := mem_applyUpdate hm'
      exact places_eq_none.mp hp m hm (hmid.trans same)
    | some p' =>
      obtain ⟨m, hm, rfl, rfl⟩ := exists_of_places hp
      exact places_of_mem ids' (mem_applyUpdate_of_not_holds hm (outside m hm hid))

theorem shifts_insert (ids : (ms.map Message.id).Nodup) {row : Message}
    (queued : row.status = .queued) :
    Worklist.Shifts (places ms) (places (ms ++ [{ row with id := nextId (ms.map Message.id) }]))
      {nextId (ms.map Message.id)} none (some .waiting) := by
  have ids' := ids_insert ids row
  refine ⟨fun id hid => ?_, fun id hid => ?_, fun id hid => ?_⟩
  · obtain rfl := Set.mem_singleton_iff.mp hid
    exact places_eq_none.mpr fun m hm => (lt_nextId (List.mem_map_of_mem hm)).ne
  · obtain rfl := Set.mem_singleton_iff.mp hid
    exact (places_of_mem ids' (List.mem_append_right _ List.mem_cons_self)).trans
      (congrArg (fun st : MessageStatus => some st.place) queued)
  · cases hp : places ms id with
    | none =>
      refine places_eq_none.mpr fun m' hm' same => ?_
      rcases List.mem_append.mp hm' with hm' | hm'
      · exact places_eq_none.mp hp m' hm' same
      · obtain rfl := List.mem_singleton.mp hm'
        exact hid same.symm
    | some p =>
      obtain ⟨m, hm, rfl, rfl⟩ := exists_of_places hp
      exact places_of_mem ids' (List.mem_append_left _ hm)

end Places

section Runs

variable {cfg : Settings} {jobs : Job → Bool} {x x' : Moment}

/-- A step is a step of the list of work, or leaves it alone. -/
theorem worklist_of_step (h : Own cfg x) (k : Kept cfg x)
    (hs : (system cfg jobs).Step (delivery cfg) x x') :
    places x'.shared.db.messages = places x.shared.db.messages ∨
      Worklist.Step (places x.shared.db.messages) (places x'.shared.db.messages) := by
  rcases rows_of_step hs with ⟨same, -⟩ | ⟨i, site, ss, -, change⟩
  · exact .inl (by rw [same])
  generalize x'.shared.db.messages = ms at change ⊢
  cases change with
  | insert _ queued => exact .inr (.accept (shifts_insert h.ids queued))
  | delete hφ => exact absurd hφ (k.calm i)
  | none => exact .inl rfl
  | @update wh v hu =>
    rcases updates_cases hu with ⟨ids, now, hφ, -, rfl, rfl⟩ | ⟨-, rfl, rfl⟩ | ⟨id, hφ, hids,
      settles, holds, -⟩
    · -- the producer's claim: what it has selected is still queued
      refine .inr (.claim (S := {id | id ∈ ids}) (shifts_applyUpdate h.ids (fun id hid =>
        ?_) fun m _ out => ?_))
      · obtain ⟨m, hm, rfl⟩ := List.mem_map.mp (k.dueRows i ids hφ id hid)
        refine ⟨m, hm, rfl, ?_, by simpa [MessageWhere.holds] using hid⟩
        rw [((h.due i ids hφ).2 m.id hid).2 m hm rfl]
        rfl
      · simpa [MessageWhere.holds] using out
    · -- the recovery: whatever is being sent
      refine .inr (.recover (S := {id | places x.shared.db.messages id = some .claimed})
        (fun _ hid => hid) (shifts_applyUpdate h.ids (fun id hid => ?_) fun m hm out => ?_))
      · obtain ⟨m, hm, rfl, claimed⟩ := exists_of_places hid
        refine ⟨m, hm, rfl, claimed, ?_⟩
        cases hs : m.status <;> simp_all [MessageStatus.place, MessageWhere.holds]
      · by_contra hw
        refine out ((places_of_mem h.ids hm).trans ?_)
        simp only [MessageWhere.holds, Option.all_none, Option.all_some, Bool.true_and,
          decide_eq_true_eq, Bool.not_eq_false] at hw
        rw [hw]
        rfl
    · -- a consumer's last word on the message it holds
      have held : 0 < holders cfg id x := by
        have := held_le_holders cfg id i x
        rwa [hφ, List.count_singleton_self] at this
      obtain ⟨m, hm, rfl⟩ := List.mem_map.mp (k.rows id held)
      have sending := h.held m hm held
      have shifts : Worklist.Shifts (places x.shared.db.messages)
          (places (applyUpdate wh v x.shared.db.messages))
          {m.id} (some .claimed) (some v.status.place) := by
        refine shifts_applyUpdate h.ids (fun id hid => ?_) fun m' _ out => ?_
        · obtain rfl := Set.mem_singleton_iff.mp hid
          exact ⟨m, hm, rfl, by rw [sending]; rfl, holds m rfl sending⟩
        · have other : m'.id ≠ m.id := out
          simp [MessageWhere.holds, hids, other]
      cases hv : v.status with
      | queued => exact .inr (.putBack (hv ▸ shifts))
      | sending => exact absurd hv settles
      | sent => exact .inr (.finish (hv ▸ shifts))
      | deadletter => exact .inr (.finish (hv ▸ shifts))

/-- Who holds what, and that what is held has a row, in every run. -/
theorem own_and_kept (hj : ∀ j, jobs j = true → j.ofMail = true) {w : World}
    (ids : (w.db.messages.map Message.id).Nodup) (down : w.up = false) (empty : w.queue = [])
    {C : Moment → Moment → Prop} {s : Pool Op Op.Ans Exc World Job ℚ}
    (h : (system cfg jobs).Reachable C (Machine.boot w) s) :
    (Own cfg s.toConfig ∧ Kept cfg s.toConfig) ∧ Machine.InPhase (delivery cfg) s :=
  have owned : Owned cfg ⟨w, []⟩ := Owned.init ids down empty
  Machine.invariant (delivery_keeps fun j hjob => Job.ofProcess_of_ofMail (hj j hjob))
    (fun x => Own cfg x ∧ Kept cfg x) ⟨owned.toOwn, owned.toKept⟩
    (fun hx hs _ => ⟨hx.1.step hs (hx.2.fresh hs),
      hx.2.step (fun j hjob => duty_of_ofMail (hj j hjob)) hs⟩) h

/-- **Nobody is stranded.** Where the database statements succeed: when no task can move, every
message that is still being sent is in the work queue, or the queue is full. -/
theorem nothing_stranded (cfg : Settings) {jobs : Job → Bool} (hj : ∀ j, jobs j = true →
    j.ofMail = true) {w : World}
    (ids : (w.db.messages.map Message.id).Nodup) (down : w.up = false) (empty : w.queue = [])
    (free : ∀ l, w.locks l = none) {s : Pool Op Op.Ans Exc World Job ℚ}
    (h : (system cfg jobs).Reachable (Machine.Each Statements) (Machine.boot w) s)
    (up : s.shared.up = true) (stuck : ∀ i, ¬ (system cfg jobs).Moves s i) :
    ∀ m ∈ s.shared.db.messages, m.status = .sending →
      m.id ∈ s.shared.queue ∨ (cfg.dispatch.claimBatchSize : ℕ) * 2 ≤ s.shared.queue.length := by
  intro m hm sending
  obtain ⟨owned, inPhase⟩ :=
    Machine.invariant (delivery_keeps fun j hjob => Job.ofProcess_of_ofMail (hj j hjob))
    (Owned cfg) (Owned.init ids down empty) (fun hx hs hc => hx.step hj hs hc) h
  by_contra! out
  obtain ⟨unqueued, room⟩ := out
  -- a task that could hold the message waits for one, or has finished
  have idle : ∀ i, ((delivery cfg).phase s.trace i).held.count m.id = 0 := by
    intro i
    have phase : (delivery cfg).phase s.trace i = .idle := by
      have rest := inPhase i
      cases ht : s.tasks i with
      | none => rwa [ht] at rest
      | some jt =>
        obtain ⟨j, t⟩ := jt
        rw [ht] at rest
        rcases waits_of_stuck free h stuck ht with ⟨-, k, rfl⟩ | ⟨full, -⟩
        · exact (rest (0 : ℕ)).1
        · omega
    rw [phase]
    rfl
  have held := owned.owned up m hm sending
  have nobody : holders cfg m.id s.toConfig = 0 := by
    rw [holders, Protocol.total_eq_zero idle, List.count_eq_zero_of_not_mem unqueued]
  omega

end Runs

namespace Example

/-- The process starts, and the producer claims both messages. -/
def bothClaimed : List (Move Choice Job ℚ) :=
  [.start 0 .start] ++ List.replicate 9 (.run 0 .ok) ++ [.start 0 .producer] ++ List.replicate 6
  (.run 0 .ok)

/-- Without a consumer both stay in the queue. -/
theorem nothing_stranded_bothClaimed : ∃ s,
    (system onePerDay Job.ofMail).runFrom (Machine.boot twoDue) bothClaimed = some s ∧
      s.shared.db.messages.map Message.status = [.sending, .sending] ∧
      ∀ m ∈ s.shared.db.messages, m.status = .sending →
        m.id ∈ s.shared.queue ∨ (onePerDay.dispatch.claimBatchSize : ℕ) * 2 ≤
          s.shared.queue.length := by
  obtain ⟨s, hs, ha⟩ : ∃ s, (system onePerDay Job.ofMail).runFrom
      (Machine.boot twoDue) bothClaimed = some s ∧
      (s.trace.all Statements, s.shared.up, (s.tasks 0).isNone,
        s.shared.db.messages.map Message.status) =
        (true, true, true, [.sending, .sending]) := Option.map_eq_some_iff.mp (by decide +kernel)
  simp only [Prod.mk.injEq] at ha
  obtain ⟨all, up, gone, rows⟩ := ha
  refine ⟨s, hs, rows,
    nothing_stranded onePerDay (fun j hj => hj) (by decide) rfl rfl (fun _ => rfl)
    (Machine.Reachable.refl.runFrom_each hs all) up fun i hi => ?_⟩
  obtain ⟨j, o, k, ht, -⟩ := Machine.moves_iff.mp hi
  cases i with
  | zero => simp [ht] at gone
  | succ i =>
    have untouched := Machine.runFrom_untouched (n := 1) (Nat.le_add_left 1 i) (by decide) hs rfl
    rw [untouched] at ht
    cases ht

end Example

end SmtpSwitch
