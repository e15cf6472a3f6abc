import SmtpSwitch.Coop.Ledger
import SmtpSwitch.Delivery.Process

/-!
# Who holds a message

An id is held by the producer that has claimed it and not yet queued it, by the
queue, and by the consumer that took it and has not yet written the cycle's outcome. Every
update of a row but two names the id alone, so that the row is the right one
rests on `Own`: an id is held once at most, and a row whose id is held is being
sent. The one thing that breaks it is a new row under an id that is still held
(`Fresh`), after a delete. Where nothing fails and nothing is deleted the rows being sent are
exactly the ones held (`held_iff_sending`).
-/

namespace SmtpSwitch

open Coop Coop.Prog

/-! ### The duties -/

/-- The ids a task holds. -/
def Duty.held : Duty → List ℕ
  | .batch ids => ids
  | .got id | .read id _ | .turn id _ _ _ | .failed id _ _ => [id]
  | _ => []

/-- The ids of a selection not yet claimed. -/
def Duty.selected : Duty → List ℕ
  | .due ids => ids
  | _ => []

/-- The duties of the task that starts the process and runs the producer. -/
def Duty.first : Duty → Bool
  | .starting | .recovered | .producing | .due _ | .batch _ => true
  | _ => false

/-- The start of the process. -/
def Duty.booting : Duty → Bool
  | .starting | .recovered => true
  | _ => false

/-- The duties of the producer, and of a consumer that has taken an id. -/
def Duty.working : Duty → Bool
  | .producing | .due _ | .batch _ | .got _ | .read _ _ | .turn _ _ _ _ | .failed _ _ _ => true
  | _ => false

/-- The next duty of a consumer at work. -/
theorem nextTurn_cases (id : ℕ) (t : Turn) (told : Option Time) (drawn : Option ℚ)
    (o : Op) (a : o.Ans) :
    (∃ t' told' drawn', Duty.nextTurn id t told drawn o a = .turn id t' told' drawn') ∨
      (∃ sends sent, Duty.nextTurn id t told drawn o a = .failed id sends sent) ∨
      Duty.nextTurn id t told drawn o a = .idle := by
  fun_cases Duty.nextTurn id t told drawn o a
  all_goals simp

theorem ofRow_cases (id : ℕ) (row : Option Message) :
    Duty.ofRow id row = .idle ∨ ∃ m, row = some m ∧ m.status.terminal = false ∧
      Duty.ofRow id row = .turn id { row := m } none none := by
  cases row with
  | none => exact .inl rfl
  | some m =>
    cases h : m.status.terminal with
    | true => exact .inl (by simp [Duty.ofRow, h])
    | false => exact .inr ⟨m, rfl, h, by simp [Duty.ofRow, h]⟩

/-- What an operation makes of a duty. -/
inductive Duty.Next : Duty → (o : Op) → o.Ans → Duty → Prop where
  | same {φ : Duty} {o : Op} {a : o.Ans} : (∀ id t told drawn, φ ≠ .turn id t told drawn) →
      Next φ o a φ
  | finished {φ : Duty} {o : Op} {a : o.Ans} : Next φ o a .idle
  /-- A consumer takes an id from the queue. -/
  | got {id : ℕ} : Next .idle .queueGet id (.got id)
  | spooled {content : Bytes} {path : String} : Next .idle (.spoolWrite content) path
      (.spooled content path)
  | recovered {site : Site} {wh : MessageWhere} {v : MessageValues} {n : ℕ} :
      Next .starting (.commit site [.updateMessages wh v]) (.ok n) .recovered
  | due {site : Site} {now : Time} {limit : ℕ} {ids : List ℕ} :
      Next .producing (.select site (.dueMessages now limit)) (.ok ids) (.due ids)
  /-- The producer claims what it has selected. -/
  | batch {ids : List ℕ} {site : Site} {wh : MessageWhere} {v : MessageValues} {n : ℕ} :
      Next (.due ids) (.commit site [.updateMessages wh v]) (.ok n) (.batch ids)
  | queued {ids : List ℕ} {id : ℕ} {a : Op.Ans (.queuePut id)} : Next (.batch ids) (.queuePut id) a
      (.batch ids.tail)
  | read {id id' : ℕ} {site : Site} {row : Option Message} :
      Next (.got id) (.select site (.message id')) (.ok row) (.read id row)
  | unread {id : ℕ} {o : Op} {a : o.Ans} : Next (.got id) o a (.failed id 0 false)
  | turn {id : ℕ} {m : Message} {o : Op} {a : o.Ans} : m.status.terminal = false →
      Next (.read id (some m)) o a (.turn id { row := m } none none)
  | unclosed {id : ℕ} {row : Option Message} {o : Op} {a : o.Ans} :
      Next (.read id row) o a (.failed id 0 false)
  | turned {id : ℕ} {t t' : Turn} {told told' : Option Time} {drawn drawn' : Option ℚ}
      {o : Op} {a : o.Ans} :
      Duty.nextTurn id t told drawn o a = .turn id t' told' drawn' →
        Next (.turn id t told drawn) o a (.turn id t' told' drawn')
  | failed {id sends : ℕ} {sent : Bool} {t : Turn} {told : Option Time} {drawn : Option ℚ}
      {o : Op} {a : o.Ans} :
      Next (.turn id t told drawn) o a (.failed id sends sent)
  | unstored {content : Bytes} {path : String} {o : Op} {a : o.Ans} :
      Next (.spooled content path) o a (.unstored path)
  | deleted {o : Op} {a : o.Ans} : Next .deleting o a .deleted

theorem Duty.next_cases (φ : Duty) (o : Op) (a : o.Ans) : Duty.Next φ o a (φ.next o a) := by
  fun_cases Duty.next φ o a
  case case16 id row _ _ _ =>
    obtain h | ⟨m, rfl, live, h⟩ := ofRow_cases id row
    · rw [h]
      exact .finished
    · rw [h]
      exact .turn live
  case case18 id t told drawn =>
    obtain ⟨_, _, _, h⟩ | ⟨_, _, h⟩ | h := nextTurn_cases id t told drawn o a
    · rw [h]
      exact .turned h
    · rw [h]
      exact .failed
    · rw [h]
      exact .finished
  all_goals
    first
    | exact .same (by assumption)
    | exact .same fun _ _ _ _ h => (by cases h)
    | exact .finished
    | exact .got
    | exact .spooled
    | exact .recovered
    | exact .due
    | exact .batch
    | exact .queued
    | exact .read
    | exact .unread
    | exact .unclosed
    | exact .unstored
    | exact .deleted

/-- How duties begin: the producer's only with its job, and the consumer's with an id it takes. -/
structure Duty.Grows (φ : Duty) (o : Op) (φ' : Duty) : Prop where
  first : φ'.first = true → φ.first = true
  booting : φ'.booting = true → φ.booting = true
  working : φ'.working = true → φ.working = true ∨ o = .queueGet

theorem grows_next (φ : Duty) (o : Op) (a : o.Ans) : φ.Grows o (φ.next o a) := by
  have next := φ.next_cases o a
  generalize φ.next o a = φ' at next ⊢
  cases next with
  | same => exact ⟨fun h => h, fun h => h, .inl⟩
  | got => exact ⟨fun h => (by cases h), fun h => (by cases h), fun _ => .inr rfl⟩
  | _ => constructor <;> simp [Duty.first, Duty.booting, Duty.working]

/-- A task comes to hold an id by taking it from the queue, or by a claim. -/
theorem held_next (φ : Duty) (o : Op) (a : o.Ans) :
    (φ.next o a).held.Sublist φ.held ∨
      (∃ id : ℕ, φ = .idle ∧ (⟨o, a⟩ : Σ o : Op, o.Ans) = ⟨.queueGet, id⟩) ∨
      ∃ ids site w v n, φ = .due ids ∧
        (⟨o, a⟩ : Σ o : Op, o.Ans) = ⟨.commit site [.updateMessages w v], .ok n⟩ := by
  have next := φ.next_cases o a
  generalize φ.next o a = φ' at next ⊢
  cases next with
  | finished => exact .inl (List.nil_sublist _)
  | got => exact .inr (.inl ⟨_, rfl, rfl⟩)
  | batch => exact .inr (.inr ⟨_, _, _, _, _, rfl, rfl⟩)
  | queued => exact .inl (List.tail_sublist _)
  | _ => exact .inl (List.Sublist.refl _)

/-- What has been selected, was selected by the producer's query. -/
theorem due_of_next {φ : Duty} {o : Op} {a : o.Ans} {ids : List ℕ} (h : φ.next o a = .due ids) :
    φ = .due ids ∨ φ = .producing ∧ ∃ site now limit,
      (⟨o, a⟩ : Σ o : Op, o.Ans) = ⟨.select site (.dueMessages now limit), .ok ids⟩ := by
  have next := φ.next_cases o a
  rw [h] at next
  cases next with
  | same => exact .inl rfl
  | due => exact .inr ⟨rfl, _, _, _, rfl⟩

/-! ### The start of the process -/

section Invariants

variable (cfg : Settings)

/-- The producer is one task, and before the process is up nothing is selected, claimed or taken. -/
structure Staged (x : Moment) : Prop where
  first : ∀ i, ((delivery cfg).phase x.trace i).first = true → i = 0
  booting : ∀ i, ((delivery cfg).phase x.trace i).booting = true → x.shared.up = false
  down : x.shared.up = false →
    x.shared.queue = [] ∧ ∀ i, ((delivery cfg).phase x.trace i).working = false

variable {cfg} {jobs : Job → Bool} {x x' : Moment}

theorem booting_first {φ : Duty} (h : φ.booting = true) : φ.first = true := by
  cases φ <;> first | rfl | cases h

theorem up_of_exec {i : ℕ} {o : Op} {c : Choice} {w w' : World} {a : o.Ans}
    (he : exec cfg i o c w = some (a, w')) : o = .started ∨ w'.up = w.up := by
  by_cases ho : o = .started
  · exact .inl ho
  · refine .inr ((exec_frame cfg he).up fun h => ho ?_)
    cases o <;> first | rfl | cases h

/-- A job is started in its place. -/
theorem duty_of_admitted {i : ℕ} {j : Job} {w : World} (h : Job.admitted jobs i j w = true) :
    (j.duty.first = true → i = 0) ∧ (j.duty.booting = true → w.up = false) ∧
      (w.up = false → j.duty.working = false) := by
  simp only [Job.admitted, Bool.and_eq_true] at h
  cases j with
  | start => simp at h; simp [h.2.1, h.2.2, Job.duty, Duty.working]
  | producer => simp at h; simp [h.2.1, h.2.2, Job.duty, Duty.booting]
  | _ => simp at h; simp [Job.duty, Duty.first, Duty.booting, Duty.working]

theorem Staged.step (h : Staged cfg x) (hs : (system cfg jobs).Step (delivery cfg) x x') :
    Staged cfg x' := by
  cases hs with
  | @start w tr i j ha hi =>
    obtain ⟨zero, boot, down⟩ := duty_of_admitted (show Job.admitted jobs i j w = true from ha)
    have phase : ∀ k, (delivery cfg).phase (.start i j :: tr) k =
        if k = i then j.duty else (delivery cfg).phase tr k := by
      intro k
      rw [Protocol.phase_start, Function.update_apply]
      rfl
    refine ⟨fun k hk => ?_, fun k hk => ?_, fun hd => ⟨(h.down hd).1, fun k => ?_⟩⟩
    · rw [phase] at hk
      split at hk
      · subst k
        exact zero hk
      · exact h.first k hk
    · rw [phase] at hk
      split at hk
      · exact boot hk
      · exact h.booting k hk
    · rw [phase]
      split
      · exact down hd
      · exact (h.down hd).2 k
  | env => exact ⟨h.first, h.booting, h.down⟩
  | crash => exact ⟨fun i hi => (by cases hi), fun i hi => (by cases hi), fun _ =>
      ⟨rfl, fun i => rfl⟩⟩
  | @did w w' tr i o c a he hg =>
    have he : exec cfg i o c w = some (a, w') := he
    have hg : ((delivery cfg).phase tr i).good cfg o a := hg
    have grows := grows_next ((delivery cfg).phase tr i) o a
    have phase : ∀ k, (delivery cfg).phase (.did i o a :: tr) k =
        if k = i then ((delivery cfg).phase tr i).next o a else (delivery cfg).phase tr k := by
      intro k
      rw [Protocol.phase_did, Function.update_apply]
      rfl
    have first : ∀ k, ((delivery cfg).phase (.did i o a :: tr) k).first = true → k = 0 := by
      intro k hk
      rw [phase] at hk
      split at hk
      · subst k
        exact h.first i (grows.first hk)
      · exact h.first k hk
    have booting : ∀ k, ((delivery cfg).phase (.did i o a :: tr) k).booting = true →
        ((delivery cfg).phase tr k).booting = true := by
      intro k hk
      rw [phase] at hk
      split at hk
      · subst k
        exact grows.booting hk
      · exact hk
    rcases up_of_exec he with rfl | up
    · -- the start is over, and it was the only one
      have past : (delivery cfg).phase tr i = .recovered := hg
      obtain rfl := exec_started he
      refine ⟨first, fun k hk => ?_, fun down => (by cases down)⟩
      obtain rfl : k = i := (h.first k (booting_first (booting k hk))).trans
        (h.first i (by rw [past]; rfl)).symm
      rw [phase, if_pos rfl, past] at hk
      cases hk
    · refine ⟨first, fun k hk => up.trans (h.booting k (booting k hk)), fun down => ?_⟩
      obtain ⟨empty, idle⟩ := h.down (up.symm.trans down)
      have notGet : o ≠ .queueGet := by
        rintro rfl
        obtain ⟨rest, hq, -⟩ := exec_queueGet he
        exact List.cons_ne_nil _ _ (hq.symm.trans empty)
      refine ⟨?_, fun k => ?_⟩
      · have same : o.part ≠ some .queue := by
          intro part
          cases o with
          | queueGet => exact notGet rfl
          | queuePut id =>
            obtain ⟨ids, hids⟩ := hg
            have := idle i
            rw [show (delivery cfg).phase tr i = .batch (id :: ids) from hids] at this
            cases this
          | _ => cases part
        exact ((exec_frame cfg he).queue same).trans empty
      · rw [phase]
        split
        · by_contra hw
          rcases grows.working (by simpa using hw) with hw | hw
          · rw [show _ = false from idle i] at hw
            cases hw
          · exact notGet hw
        · exact idle k

/-! ### Holding -/

variable (cfg)

/-- How often an id is held. -/
noncomputable def holders (id : ℕ) (x : Moment) : ℕ :=
  x.shared.queue.count id + (delivery cfg).total (fun φ => φ.held.count id) x.trace

/-- No row is inserted under an id that is held. -/
def Fresh (x x' : Moment) : Prop :=
  ∀ i site row id, x'.trace = .did i (.commit site [.insertMessage row]) (.ok id) :: x.trace →
    holders cfg id x = 0

/-- Every id is held once at most, and a row whose id is held is being sent. -/
structure Own (x : Moment) : Prop extends Staged cfg x where
  ids : (x.shared.db.messages.map Message.id).Nodup
  single : ∀ id, holders cfg id x ≤ 1
  held : ∀ m ∈ x.shared.db.messages, 0 < holders cfg m.id x → m.status = .sending
  due : ∀ i ids, (delivery cfg).phase x.trace i = .due ids → ids.Nodup ∧ ∀ id ∈ ids,
    holders cfg id x = 0 ∧ ∀ m ∈ x.shared.db.messages, m.id = id → m.status = .queued

variable {cfg}

variable (cfg) in
/-- What an operation changes for the holders of an id is what it changes for its task and the
queue. -/
theorem holders_did (id : ℕ) (w w' : World) (tr : List (Entry Op Op.Ans Job ℚ)) (i : ℕ) (o : Op)
    (a : o.Ans) : holders cfg id ⟨w', .did i o a :: tr⟩ +
        (w.queue.count id + ((delivery cfg).phase tr i).held.count id) =
      holders cfg id ⟨w, tr⟩ +
        (w'.queue.count id + (((delivery cfg).phase tr i).next o a).held.count id) := by
  have total : (delivery cfg).total (fun φ => φ.held.count id) (.did i o a :: tr) +
      ((delivery cfg).phase tr i).held.count id =
      (delivery cfg).total (fun φ => φ.held.count id) tr +
        (((delivery cfg).phase tr i).next o a).held.count id := Protocol.total_did rfl i o a
  simp only [holders]
  change _ = (delivery cfg).total _ tr +
    (((delivery cfg).phase tr i).next o a).held.count id at total
  omega

variable (cfg) in
/-- A task's ids are held. -/
theorem held_le_holders (id i : ℕ) (x : Moment) :
    ((delivery cfg).phase x.trace i).held.count id ≤ holders cfg id x :=
  (Protocol.le_total (P := delivery cfg) (f := fun φ => φ.held.count id) rfl x.trace i).trans
    (Nat.le_add_left _ _)

theorem holders_eq_zero_of_down (h : Staged cfg x) (down : x.shared.up = false) (id : ℕ) :
    holders cfg id x = 0 := by
  obtain ⟨empty, idle⟩ := h.down down
  have nothing : ∀ φ : Duty, φ.working = false → φ.held.count id = 0 := by
    intro φ hφ
    cases φ <;> first | rfl | cases hφ
  rw [holders, empty, Protocol.total_eq_zero fun i => nothing _ (idle i)]
  rfl

/-- While the process is down nothing is held. -/
theorem Own.of_down (h : Staged cfg x) (down : x.shared.up = false)
    (ids : (x.shared.db.messages.map Message.id).Nodup) : Own cfg x where
  toStaged := h
  ids := ids
  single id := by rw [holders_eq_zero_of_down h down]; exact Nat.zero_le 1
  held m _ hm := by
    rw [holders_eq_zero_of_down h down] at hm
    cases hm
  due i ids hi := by
    have := (h.down down).2 i
    rw [hi] at this
    cases this

/-- What keeps `Own` while nothing is claimed: no id is held more than it was, and the status of a
row changes only when its id is held no longer. -/
theorem Own.less (h : Own cfg x) (hst : Staged cfg x')
    (ids : (x'.shared.db.messages.map Message.id).Nodup)
    (hold : ∀ id, holders cfg id x' ≤ holders cfg id x)
    (rows : ∀ m' ∈ x'.shared.db.messages,
      (∃ m ∈ x.shared.db.messages, m.id = m'.id ∧ m.status = m'.status) ∨
        holders cfg m'.id x' = 0 ∧ (m'.status = .queued ∨ 0 < holders cfg m'.id x))
    (due : ∀ i ids, (delivery cfg).phase x'.trace i = .due ids →
      (delivery cfg).phase x.trace i = .due ids ∨ ids.Nodup ∧ ∀ id ∈ ids,
        holders cfg id x' = 0 ∧ ∀ m ∈ x'.shared.db.messages, m.id = id → m.status = .queued) :
    Own cfg x' where
  toStaged := hst
  ids := ids
  single id := (hold id).trans (h.single id)
  held m' hm' hheld := by
    rcases rows m' hm' with ⟨m, hm, hid, hs⟩ | ⟨none, -⟩
    · rw [← hs]
      exact h.held m hm (by rw [hid]; exact lt_of_lt_of_le hheld (hold _))
    · omega
  due i ids hi := by
    rcases due i ids hi with hi | new
    · obtain ⟨nodup, hids⟩ := h.due i ids hi
      refine ⟨nodup, fun id hid => ?_⟩
      obtain ⟨free, queued⟩ := hids id hid
      refine ⟨Nat.le_zero.mp (free ▸ hold id), fun m' hm' hm'id => ?_⟩
      rcases rows m' hm' with ⟨m, hm, hmid, hs⟩ | ⟨-, hq | held⟩
      · rw [← hs]
        exact queued m hm (hmid.trans hm'id)
      · exact hq
      · rw [hm'id, free] at held
        cases held
    · exact new

/-! ### What a step does to the rows -/

variable (cfg) in
/-- What a session in order does to the rows. -/
inductive RowChange (φ : Duty) (ms : List Message) : List Stmt → List Message → Prop where
  | insert {row : Message} {content : Bytes} : φ = .spooled content row.spoolPath →
      row.status = .queued →
      row.attempts = 0 → RowChange φ ms [.insertMessage row]
        (ms ++ [{ row with id := nextId (ms.map Message.id) }])
  | update {wh : MessageWhere} {v : MessageValues} : Updates cfg φ wh v →
      RowChange φ ms [.updateMessages wh v] (applyUpdate wh v ms)
  | delete {id : ℕ} : φ = .deleting →
      RowChange φ ms [.deleteMessage id] (ms.filter fun m => m.id ≠ id)
  | none {ss : List Stmt} : (∀ wh v, ss ≠ [.updateMessages wh v]) →
      (∀ row, ss ≠ [.insertMessage row]) →
      RowChange φ ms ss ms

theorem rowChange_of_writes {φ : Duty} {ss : List Stmt} {db db' : Db} (hg : φ.writes cfg ss)
    (hx : db.execAll ss = some db') : RowChange cfg φ db.messages ss db'.messages := by
  have beside : (∀ s ∈ ss, s.table ≠ .messages) → RowChange cfg φ db.messages ss db'.messages := by
    intro table
    rw [(Db.execAll_beside table hx).1]
    refine .none (fun wh v h => ?_) fun row h => ?_
    · subst h
      exact table _ List.mem_cons_self rfl
    · subst h
      exact table _ List.mem_cons_self rfl
  rcases ss with _ | ⟨s, _ | ⟨s', rest⟩⟩
  · exact beside hg
  · cases s with
    | insertMessage row =>
      obtain ⟨⟨content, hφ⟩, hs, ha, -⟩ := hg
      cases hx
      exact .insert hφ hs ha
    | updateMessages wh v =>
      cases hx
      exact .update hg
    | deleteMessage id =>
      cases hx
      exact .delete hg
    | insertAttempt row =>
      simp only [Db.execAll, Stmt.exec] at hx
      split at hx
      · cases hx
        exact .none (fun _ _ h => by cases h) fun _ h => by cases h
      · cases hx
    | _ => exact beside hg
  · cases s <;> exact beside hg

/-- A row an update on one id has gone over. -/
theorem mem_applyUpdate {wh : MessageWhere} {v : MessageValues} {ms : List Message} {m' : Message}
    (h : m' ∈ applyUpdate wh v ms) :
    ∃ m ∈ ms, m.id = m'.id ∧
      (wh.holds m = false ∧ m' = m ∨ wh.holds m = true ∧ m' = v.apply m) := by
  simp only [applyUpdate, List.mem_map] at h
  obtain ⟨m, hm, rfl⟩ := h
  refine ⟨m, hm, ?_⟩
  cases hw : wh.holds m <;> simp [MessageValues.apply]

theorem ids_applyUpdate (wh : MessageWhere) (v : MessageValues) (ms : List Message) :
    (applyUpdate wh v ms).map Message.id = ms.map Message.id := by
  simp only [applyUpdate, List.map_map]
  refine List.map_congr_left fun m _ => ?_
  simp only [Function.comp_apply]
  split <;> rfl

theorem ids_insert {ms : List Message} (h : (ms.map Message.id).Nodup) (row : Message) :
    ((ms ++ [{ row with id := nextId (ms.map Message.id) }]).map Message.id).Nodup := by
  rw [List.map_append, List.nodup_append]
  refine ⟨h, List.nodup_singleton _, fun a ha b hb => ?_⟩
  obtain rfl := List.mem_singleton.mp hb
  exact (lt_nextId ha).ne

/-- An update is the producer's claim, the recovery, or the last word of a consumer on the id it
holds. -/
theorem updates_cases {φ : Duty} {wh : MessageWhere} {v : MessageValues} (h : Updates cfg φ wh v) :
    (∃ ids now, φ = .due ids ∧ ids ≠ [] ∧ wh = { ids := some ids } ∧
      v = { status := .sending, claimedAt := some (some now) }) ∨
    (φ = .starting ∧ wh = { status := some .sending } ∧
      v = { status := .queued, claimedAt := some none }) ∨
    ∃ id, φ.held = [id] ∧ wh.ids = some [id] ∧ v.status ≠ .sending ∧
      (∀ m : Message, m.id = id → m.status = .sending → wh.holds m = true) ∧
      ∀ site n, φ.next (.commit site [.updateMessages wh v]) (.ok n) = .idle := by
  cases h with
  | claim hids => exact .inl ⟨_, _, rfl, hids, rfl, rfl⟩
  | recover => exact .inr (.inl ⟨rfl, rfl, rfl⟩)
  | _ => exact .inr (.inr ⟨_, rfl, rfl, fun h => (by cases h), fun m hid hs => (by
      simp [MessageWhere.holds, hid, hs]), fun _ _ => rfl⟩)

/-! ### Steps -/

section Did

variable {w w' : World} {tr : List (Entry Op Op.Ans Job ℚ)} {i : ℕ} {o : Op} {a : o.Ans}

theorem phase_did_apply (k : ℕ) : (delivery cfg).phase (.did i o a :: tr) k =
    if k = i then ((delivery cfg).phase tr i).next o a else (delivery cfg).phase tr k := by
  rw [Protocol.phase_did, Function.update_apply]
  rfl

/-- An id that is queued, or taken from the queue, is held all along. -/
theorem queue_of_did {c : Choice} (he : exec cfg i o c w = some (a, w'))
    (hg : ((delivery cfg).phase tr i).good cfg o a) :
    ((∀ site ss, o ≠ .commit site ss) ∧ ∀ id,
      w'.queue.count id + (((delivery cfg).phase tr i).next o a).held.count id =
        w.queue.count id + ((delivery cfg).phase tr i).held.count id) ∨
    w'.queue = w.queue ∧ ∀ id, o ≠ .queuePut id := by
  cases o with
  | queueGet =>
    obtain ⟨rest, hq, rfl⟩ := exec_queueGet he
    have hφ : (delivery cfg).phase tr i = .idle := hg
    refine .inl ⟨fun _ _ h => (by cases h), fun id => ?_⟩
    rw [hφ, hq]
    simp [Duty.next, Duty.held, List.count_cons]
  | queuePut id' =>
    obtain rfl := exec_queuePut he
    obtain ⟨ids, hids⟩ := hg
    refine .inl ⟨fun _ _ h => (by cases h), fun id => ?_⟩
    rw [hids]
    by_cases last : ids = []
    · simp [Duty.next, Duty.held, last, List.count_cons]
    · simp only [Duty.next, Duty.held, List.tail_cons, last, if_false, List.count_append,
        List.count_cons, List.count_nil]
      omega
  | _ => exact .inr ⟨(exec_frame cfg he).queue (by simp [Op.part]), fun id h => (by cases h)⟩

/-- Unless it claims what it has selected, a task does not come to hold an id but from the queue. -/
theorem count_le_of_did {c : Choice} {id : ℕ} (he : exec cfg i o c w = some (a, w'))
    (hg : ((delivery cfg).phase tr i).good cfg o a)
    (claim : ∀ ids site wh v n, (delivery cfg).phase tr i = .due ids →
      (⟨o, a⟩ : Σ o : Op, o.Ans) = ⟨.commit site [.updateMessages wh v], .ok n⟩ →
        ids.count id = 0) :
    w'.queue.count id + (((delivery cfg).phase tr i).next o a).held.count id ≤
      w.queue.count id + ((delivery cfg).phase tr i).held.count id := by
  rcases queue_of_did he hg with ⟨-, same⟩ | ⟨hq, -⟩
  · exact (same id).le
  rw [hq]
  refine Nat.add_le_add_left ?_ _
  rcases held_next ((delivery cfg).phase tr i) o a with sub | ⟨_, -, h⟩ | ⟨ids, _, _, _, _, hφ, h⟩
  · exact sub.count_le id
  · cases h
    obtain ⟨rest, hne, rfl⟩ := exec_queueGet he
    exact absurd hq.symm (by rw [hne]; simp)
  · have unheld := claim ids _ _ _ _ hφ h
    cases h
    rw [hφ]
    exact unheld.le

/-- An operation that leaves the rows alone, and lets no id be held more. -/
theorem Own.did (h : Own cfg ⟨w, tr⟩) (hst : Staged cfg ⟨w', .did i o a :: tr⟩)
    (hm : w'.db.messages = w.db.messages)
    (hold : ∀ id, w'.queue.count id + (((delivery cfg).phase tr i).next o a).held.count id ≤
      w.queue.count id + ((delivery cfg).phase tr i).held.count id)
    (due : ∀ ids, ((delivery cfg).phase tr i).next o a = .due ids →
      (delivery cfg).phase tr i = .due ids) : Own cfg ⟨w', .did i o a :: tr⟩ := by
  refine h.less hst ?_ (fun id => ?_) (fun m' hm' => .inl ⟨m', ?_, rfl, rfl⟩) fun k ids hk =>
    .inl ?_
  · rw [show (Config.mk w' _).shared.db.messages = _ from hm]
    exact h.ids
  · have := holders_did cfg id w w' tr i o a
    have := hold id
    omega
  · rw [← hm]
    exact hm'
  · rw [phase_did_apply] at hk
    split at hk
    · subst k
      exact due ids hk
    · exact hk

/-- A consumer's last word on the id it holds. -/
theorem Own.outcome (h : Own cfg ⟨w, tr⟩) (hst : Staged cfg ⟨w', .did i o a :: tr⟩) {id : ℕ}
    {wh : MessageWhere} {v : MessageValues} (hφ : ((delivery cfg).phase tr i).held = [id])
    (hids : wh.ids = some [id]) (hnext : ((delivery cfg).phase tr i).next o a = .idle)
    (hq : w'.queue = w.queue) (hm : w'.db.messages = applyUpdate wh v w.db.messages) :
    Own cfg ⟨w', .did i o a :: tr⟩ := by
  have hold : ∀ id', holders cfg id' ⟨w', .did i o a :: tr⟩ + [id].count id' =
      holders cfg id' ⟨w, tr⟩ := by
    intro id'
    have := holders_did cfg id' w w' tr i o a
    rw [hnext, hφ, hq] at this
    simp only [Duty.held, List.count_nil] at this
    omega
  have mine : holders cfg id ⟨w', .did i o a :: tr⟩ = 0 ∧ 0 < holders cfg id ⟨w, tr⟩ := by
    have one := hold id
    have := h.single id
    rw [List.count_singleton_self] at one
    omega
  refine h.less hst ?_ (fun id' => by have := hold id'; omega) (fun m' hm' => ?_) fun k ids hk =>
    .inl ?_
  · rw [show (Config.mk w' _).shared.db.messages = _ from hm, ids_applyUpdate]
    exact h.ids
  · rw [show (Config.mk w' _).shared.db.messages = _ from hm] at hm'
    obtain ⟨m, hm, hid, ⟨-, rfl⟩ | ⟨hw, -⟩⟩ := mem_applyUpdate hm'
    · exact .inl ⟨_, hm, rfl, rfl⟩
    · simp only [MessageWhere.holds, hids, Option.all_some, List.mem_singleton, Bool.and_eq_true,
        decide_eq_true_eq] at hw
      rw [← hid, hw.1]
      exact .inr ⟨mine.1, .inr mine.2⟩
  · rw [phase_did_apply, hnext] at hk
    split at hk
    · cases hk
    · exact hk

/-- The producer's claim. -/
theorem Own.claim (h : Own cfg ⟨w, tr⟩) (hst : Staged cfg ⟨w', .did i o a :: tr⟩)
    {ids : List ℕ} {now : Time} (hφ : (delivery cfg).phase tr i = .due ids)
    (hnext : ((delivery cfg).phase tr i).next o a = .batch ids) (hq : w'.queue = w.queue)
    (hm : w'.db.messages = applyUpdate { ids := some ids }
      { status := .sending, claimedAt := some (some now) } w.db.messages) :
    Own cfg ⟨w', .did i o a :: tr⟩ := by
  obtain ⟨nodup, free⟩ := h.due i ids hφ
  have hold : ∀ id, holders cfg id ⟨w', .did i o a :: tr⟩ = holders cfg id
      ⟨w, tr⟩ + ids.count id := by
    intro id
    have := holders_did cfg id w w' tr i o a
    rw [hnext, hφ, hq] at this
    simp only [Duty.held, List.count_nil] at this
    omega
  refine ⟨hst, ?_, fun id => ?_, fun m' hm' held => ?_, fun k ids' hk => ?_⟩
  · rw [show (Config.mk w' _).shared.db.messages = _ from hm, ids_applyUpdate]
    exact h.ids
  · rw [hold]
    by_cases hid : id ∈ ids
    · rw [(free id hid).1, List.count_eq_one_of_mem nodup hid]
    · rw [List.count_eq_zero_of_not_mem hid]
      exact h.single id
  · rw [show (Config.mk w' _).shared.db.messages = _ from hm] at hm'
    obtain ⟨m, hm, hid, ⟨hw, rfl⟩ | ⟨-, rfl⟩⟩ := mem_applyUpdate hm'
    · simp only [MessageWhere.holds, Option.all_some, Option.all_none, Bool.and_true,
        decide_eq_false_iff_not] at hw
      rw [hold, List.count_eq_zero_of_not_mem hw] at held
      exact h.held _ hm held
    · rfl
  · rw [phase_did_apply, hnext] at hk
    split at hk
    · cases hk
    · rename_i other
      have zero := h.first k
          (by rw [show (delivery cfg).phase (Config.mk w tr).trace k = _ from hk]; rfl)
      have same := h.first i
          (by rw [show (delivery cfg).phase (Config.mk w tr).trace i = _ from hφ]; rfl)
      exact absurd (zero.trans same.symm) other

/-- An operation that writes no row, seen by the duties. -/
theorem Own.step_beside {c : Choice} (h : Own cfg ⟨w, tr⟩) (hst : Staged cfg ⟨w', .did i o a :: tr⟩)
    (he : exec cfg i o c w = some (a, w')) (hg : ((delivery cfg).phase tr i).good cfg o a)
    (ho : ∀ site ss, o ≠ .commit site ss) : Own cfg ⟨w', .did i o a :: tr⟩ := by
  have frame := exec_frame cfg he
  have messages : w'.db.messages = w.db.messages := by
    rw [frame.db]
    intro part
    cases o with
    | commit site ss => exact ho site ss rfl
    | _ => cases part
  by_cases hnew : ∃ ids, ((delivery cfg).phase tr i).next o a = .due ids ∧
    (delivery cfg).phase tr i ≠ .due ids
  · -- the producer's query
    obtain ⟨ids, hnext, hne⟩ := hnew
    rcases due_of_next hnext with old | ⟨hφ, site, now, limit, heq⟩
    · exact absurd old hne
    cases heq
    obtain ⟨hans, rfl⟩ := exec_select he
    have hids : ids = selectDue w'.db.messages now limit := by
      rcases hans with hans | ⟨e, hans⟩
      · exact Except.ok.inj hans
      · cases hans
    have hold : ∀ id, holders cfg id ⟨w',
        .did i (.select site (.dueMessages now limit)) (.ok ids) :: tr⟩ =
        holders cfg id ⟨w', tr⟩ := by
      intro id
      have := holders_did cfg id w' w' tr i (.select site (.dueMessages now limit)) (.ok ids)
      rw [hnext, hφ] at this
      simp only [Duty.held, List.count_nil] at this
      omega
    refine h.less hst h.ids (fun id => (hold id).le) (fun m hm =>
      .inl ⟨m, hm, rfl, rfl⟩) fun k ids' hk => ?_
    rw [phase_did_apply, hnext] at hk
    split at hk
    · cases hk
      refine .inr ⟨hids ▸ nodup_selectDue h.ids, fun id hid => ?_⟩
      obtain ⟨m, hm, hmid, queued⟩ := mem_selectDue (hids ▸ hid)
      have all : ∀ m' ∈ w'.db.messages, m'.id = id → m'.status = .queued := by
        intro m' hm' hm'id
        rwa [List.inj_on_of_nodup_map h.ids hm' hm (hm'id.trans hmid.symm)]
      refine ⟨?_, all⟩
      rw [hold]
      by_contra held
      have sending := h.held m hm (by rw [hmid]; omega)
      rw [queued] at sending
      cases sending
    · exact .inl hk
  · have due : ∀ ids, ((delivery cfg).phase tr i).next o a = .due ids →
        (delivery cfg).phase tr i = .due ids := by
      intro ids hids
      by_contra hne
      exact hnew ⟨ids, hids, hne⟩
    refine h.did hst messages (fun id => ?_) due
    refine count_le_of_did he hg fun ids site wh v n _ heq => ?_
    cases heq
    exact absurd rfl (ho _ _)

/-- A commit. -/
theorem Own.step_commit {c : Choice} {site : Site} {ss : List Stmt} {a : Except Exc ℕ}
    (h : Own cfg ⟨w, tr⟩) (hst : Staged cfg ⟨w', .did i (.commit site ss) a :: tr⟩)
    (he : exec cfg i (.commit site ss) c w = some (a, w'))
    (hg : ((delivery cfg).phase tr i).writes cfg ss)
    (hc : Fresh cfg ⟨w, tr⟩ ⟨w', .did i (.commit site ss) a :: tr⟩) :
    Own cfg ⟨w', .did i (.commit site ss) a :: tr⟩ := by
  have due : ∀ ids, ((delivery cfg).phase tr i).next (.commit site ss) a = .due ids →
      (delivery cfg).phase tr i = .due ids := by
    intro ids hids
    rcases due_of_next hids with old | ⟨-, _, _, _, h⟩
    · exact old
    · cases h
  have less : (∀ wh v, ss = [.updateMessages wh v] → ∃ e, a = .error e) → ∀ id,
      w'.queue.count id + (((delivery cfg).phase tr i).next (.commit site ss) a).held.count id ≤
        w.queue.count id + ((delivery cfg).phase tr i).held.count id := by
    intro other id
    refine count_le_of_did he hg fun ids site' wh v n _ heq => ?_
    cases heq
    obtain ⟨e, he⟩ := other wh v rfl
    cases he
  obtain ⟨db, hx, rfl, rfl⟩ | ⟨⟨e, rfl⟩, rfl⟩ := exec_commit he
  swap
  · exact h.did hst rfl (less fun _ _ _ => ⟨e, rfl⟩) due
  generalize hms : db.messages = ms
  have change := rowChange_of_writes hg hx
  rw [hms] at change
  cases change with
  | none noUpdate noInsert => exact h.did hst hms (less fun wh v h => absurd h (noUpdate wh v)) due
  | delete hφ =>
    rename_i id
    refine h.less hst ?_ (fun id' => ?_) (fun m' hm' => .inl ⟨m', ?_, rfl, rfl⟩) fun k ids hk =>
      .inl ?_
    · change (db.messages.map Message.id).Nodup
      rw [hms]
      exact h.ids.sublist ((List.filter_sublist).map _)
    · have := holders_did cfg id' w { w with db := db } tr i
        (.commit site [.deleteMessage id]) (.ok (w.db.insertedId [.deleteMessage id]))
      have := less (fun _ _ h => by cases h) id'
      omega
    · have hm' : m' ∈ db.messages := hm'
      rw [hms] at hm'
      exact List.mem_of_mem_filter hm'
    · rw [phase_did_apply] at hk
      split at hk
      · subst k
        exact due ids hk
      · exact hk
  | @insert row content hφ queued _ =>
    have hold : ∀ id, holders cfg id ⟨{ w with db := db },
        .did i (.commit site [.insertMessage row])
        (.ok (w.db.insertedId [.insertMessage row])) :: tr⟩ ≤ holders cfg id ⟨w, tr⟩ := by
      intro id
      have := holders_did cfg id w { w with db := db } tr i
        (.commit site [.insertMessage row]) (.ok (w.db.insertedId [.insertMessage row]))
      have := less (fun _ _ h => by cases h) id
      omega
    have free : holders cfg (nextId (w.db.messages.map Message.id)) ⟨w, tr⟩ = 0 :=
      hc i site row _ rfl
    refine h.less hst ?_ hold (fun m' hm' => ?_) fun k ids hk => .inl ?_
    · change (db.messages.map Message.id).Nodup
      rw [hms]
      exact ids_insert h.ids row
    · have hm' : m' ∈ db.messages := hm'
      rw [hms, List.mem_append, List.mem_singleton] at hm'
      rcases hm' with hm' | rfl
      · exact .inl ⟨m', hm', rfl, rfl⟩
      · exact .inr ⟨Nat.le_zero.mp (free ▸ hold _), .inl queued⟩
    · rw [phase_did_apply] at hk
      split at hk
      · subst k
        exact due ids hk
      · exact hk
  | update hu =>
    rename_i wh v
    rcases updates_cases hu with ⟨ids, now, hφ, -, rfl, rfl⟩ | ⟨hφ, rfl, rfl⟩ | ⟨id, hφ,
      hids, -, -, hnext⟩
    · exact h.claim hst hφ (by rw [hφ]; rfl) rfl hms
    · have down : w.up = false :=
        h.booting i (by rw [show (delivery cfg).phase (Config.mk w tr).trace i = _ from hφ]; rfl)
      refine Own.of_down hst down ?_
      change (db.messages.map Message.id).Nodup
      rw [hms, ids_applyUpdate]
      exact h.ids
    · exact h.outcome hst hφ hids (hnext site _) rfl hms

end Did

/-- Rows change by a commit. -/
theorem rows_of_step (hs : (system cfg jobs).Step (delivery cfg) x x') :
    (x'.shared.db.messages = x.shared.db.messages ∧
      ∀ i site ss n, x'.trace ≠ .did i (.commit site ss) (.ok n) :: x.trace) ∨
    ∃ i site ss, x'.trace = .did i (.commit site ss) (.ok (x.shared.db.insertedId ss)) :: x.trace ∧
      RowChange cfg ((delivery cfg).phase x.trace i) x.shared.db.messages ss
        x'.shared.db.messages := by
  cases hs with
  | start => exact .inl ⟨rfl, fun i site ss n h => (by cases h)⟩
  | env => exact .inl ⟨rfl, fun i site ss n h => (by cases h)⟩
  | crash => exact .inl ⟨rfl, fun i site ss n h => (by cases h)⟩
  | @did w w' tr i o c a he hg =>
    have he : exec cfg i o c w = some (a, w') := he
    have hg : ((delivery cfg).phase tr i).good cfg o a := hg
    by_cases hcommit : ∃ site ss, o = .commit site ss
    · obtain ⟨site, ss, rfl⟩ := hcommit
      obtain ⟨db, hx, rfl, rfl⟩ | ⟨⟨e, rfl⟩, rfl⟩ := exec_commit he
      · exact .inr ⟨i, site, ss, rfl, rowChange_of_writes hg hx⟩
      · exact .inl ⟨rfl, fun i site ss n h => (by cases h)⟩
    · refine .inl ⟨?_, fun i site ss n h => ?_⟩
      · change w'.db.messages = w.db.messages
        rw [(exec_frame cfg he).db]
        intro part
        cases o with
        | commit site ss => exact hcommit ⟨site, ss, rfl⟩
        | _ => cases part
      · cases h
        exact hcommit ⟨_, _, rfl⟩

/-- No two rows come to have one id. -/
theorem distinct_of_step (ids : (x.shared.db.messages.map Message.id).Nodup)
    (hs : (system cfg jobs).Step (delivery cfg) x x') :
    (x'.shared.db.messages.map Message.id).Nodup := by
  rcases rows_of_step hs with ⟨same, -⟩ | ⟨i, site, ss, -, change⟩
  · rwa [same]
  generalize x'.shared.db.messages = ms at change
  cases change with
  | @insert row => exact ids_insert ids row
  | delete => exact ids.sublist (List.filter_sublist.map _)
  | none => exact ids
  | update => rwa [ids_applyUpdate]

/-- Every step keeps the ids held once, if no row is inserted under an id that is held. -/
theorem Own.step (h : Own cfg x) (hs : (system cfg jobs).Step (delivery cfg) x x')
    (hc : Fresh cfg x x') :
    Own cfg x' := by
  have hst := h.toStaged.step hs
  cases hs with
  | @start w tr i j ha hi =>
    have hold : ∀ id, holders cfg id ⟨w, .start i j :: tr⟩ = holders cfg id ⟨w, tr⟩ := by
      intro id
      simp only [holders]
      rw [Protocol.total_start rfl (by cases j <;> rfl) hi]
    refine h.less hst h.ids (fun id => (hold id).le) (fun m hm => .inl ⟨m, hm, rfl, rfl⟩) fun k
      ids hk => .inl ?_
    have hk : (delivery cfg).phase (.start i j :: tr) k = .due ids := hk
    rw [Protocol.phase_start, Function.update_apply] at hk
    split at hk
    · cases j <;> cases hk
    · exact hk
  | env => exact ⟨hst, h.ids, h.single, h.held, h.due⟩
  | crash => exact Own.of_down hst rfl h.ids
  | @did w w' tr i o c a he hg =>
    by_cases hcommit : ∃ site ss, o = .commit site ss
    · obtain ⟨site, ss, rfl⟩ := hcommit
      exact h.step_commit hst he hg hc
    · exact h.step_beside hst he hg fun site ss ho => hcommit ⟨site, ss, ho⟩

end Invariants

end SmtpSwitch
