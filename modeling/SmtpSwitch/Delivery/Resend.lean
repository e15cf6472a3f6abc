import SmtpSwitch.Delivery.Trail
import SmtpSwitch.Limits.Books

/-!
# A message accepted is not relayed again

After a provider has accepted a message, four writes follow before its row says so, and an
exception at any of them puts the message back into the queue, to be relayed once more. That is
the only way (`relayed_once`): while no such message is put back, and no row is inserted under
an id still held, a row whose message was accepted is sent or being sent, and whoever holds its
id knows (`Once`). -/

namespace SmtpSwitch

open Coop Coop.Prog

/-- The last relay of the cycle was classified as sent. -/
def Duty.sent : Duty → Bool
  | .turn _ t _ _ => t.sent
  | .failed _ _ sent => sent
  | _ => false

section Invariants

variable (cfg : Settings)

/-- No message whose last relay was classified as sent is put back, no row is inserted under an id
that is held, and the process lives. -/
structure NotPutBack (x x' : Moment) : Prop where
  alive : x'.trace ≠ .crash :: x.trace
  fresh : Fresh cfg x x'
  requeue : ∀ i site wh v n,
    x'.trace = .did i (.commit site [.updateMessages wh v]) (.ok n) :: x.trace →
      ∀ m ∈ x.shared.db.messages, wh.holds m = true →
        ∀ id sends, (delivery cfg).phase x.trace i ≠ .failed id sends true

/-- Accepted messages are sent or being sent, whoever holds one knows, and none has been relayed
again. -/
structure Once (x : Moment) : Prop extends Own cfg x where
  up : ∀ id, Accepted id x.trace → x.shared.up = true
  rows : ∀ id, Accepted id x.trace → ∀ m ∈ x.shared.db.messages, m.id = id →
    (m.status = .sent ∨ m.status = .sending) ∧ id ∉ x.shared.queue ∧
      ∀ i, id ∈ ((delivery cfg).phase x.trace i).held → ((delivery cfg).phase x.trace i).sent = true
  turn : ∀ i id t told drawn, (delivery cfg).phase x.trace i = .turn id t told drawn →
    Accepted id x.trace → t.sent = true
  read : ∀ i id row, (delivery cfg).phase x.trace i = .read id (some row) → ¬ Accepted id x.trace
  sends : ∀ i id t told drawn, (delivery cfg).phase x.trace i = .turn id t told drawn →
    t.sent = true → 0 < t.sends
  once : ∀ later e tr id, x.trace = later ++ e :: tr → relaysOf id e = true → ¬ Accepted id tr

variable {cfg} {jobs : Job → Bool} {x x' : Moment}

section Did

variable {w w' : World} {tr : List (Entry Op Op.Ans Job ℚ)} {i : ℕ} {o : Op}
  {a : o.Ans} {c : Choice}

/-- A relay is in order for a consumer at work on the message, which no relay has accepted in this
cycle. -/
theorem turn_of_relays {φ : Duty} {id : ℕ} (hg : φ.good cfg o a) (ho : o.relayFor = some id) :
    ∃ t told drawn, φ = .turn id t told drawn ∧ t.sent = false := by
  cases o with
  | send p kw sender rcpts raw errand =>
    obtain ⟨t, told, drawn, hφ, -, -, -, hsent, -⟩ := hg
    simp only [Op.relayFor, Option.some.injEq] at ho
    exact ⟨t, told, drawn, ho ▸ hφ, hsent⟩
  | _ => cases ho

/-- After a relay classified as sent, the consumer knows. -/
theorem turn_of_accepted {φ : Duty} {id : ℕ} (hg : φ.good cfg o a)
    (h : acceptedFor id (.did i o a) = true) :
    ∃ t told drawn, φ = .turn id t told drawn ∧
      φ.next o a = .turn id { t with sends := t.sends + 1, sent := true } told drawn := by
  cases o with
  | send p kw sender rcpts raw errand =>
    obtain ⟨t, told, drawn, hφ, -, -, -, -, -⟩ := hg
    simp only [acceptedFor, Bool.and_eq_true, decide_eq_true_eq] at h
    obtain ⟨rfl, hsent⟩ := h
    refine ⟨t, told, drawn, hφ, ?_⟩
    have returned : ∃ result, resultOf a = .ok result := by
      unfold sentBy at hsent
      cases hr : resultOf a with
      | ok result => exact ⟨result, rfl⟩
      | error e => simp [hr] at hsent
    obtain ⟨result, hr⟩ := returned
    rw [hφ]
    simp [Duty.next, Duty.nextTurn, hr, hsent]
  | _ => cases h

theorem Once.up_did (h : Once cfg ⟨w, tr⟩) (he : exec cfg i o c w = some (a, w'))
    (hg : ((delivery cfg).phase tr i).good cfg o a) (id : ℕ) (ha : Accepted id (.did i o a :: tr)) :
    w'.up = true := by
  have was : w.up = true := by
    rcases (accepted_cons.mp ha).2 with new | old
    · obtain ⟨t, told, drawn, hφ, -⟩ := turn_of_accepted hg new
      by_contra down
      have idle := (h.down (by simpa using down)).2 i
      rw [show (delivery cfg).phase (Config.mk w tr).trace i = _ from hφ] at idle
      cases idle
    · exact h.up id old
  rcases up_of_exec he with rfl | same
  · obtain rfl := exec_started he
    rfl
  · exact same.trans was

/-- Nobody else holds the id of a message that a consumer has just got accepted. -/
theorem Once.alone_did (h : Once cfg ⟨w, tr⟩) (hg : ((delivery cfg).phase tr i).good cfg o a)
    {id k : ℕ}
    (new : acceptedFor id (.did i o a) = true) (hk : id ∈ ((delivery cfg).phase tr k).held) :
    k = i := by
  obtain ⟨t, told, drawn, hφ, -⟩ := turn_of_accepted hg new
  refine h.alone hk ?_
  rw [show (delivery cfg).phase (Config.mk w tr).trace i = _ from hφ]
  exact List.mem_singleton_self id

theorem Once.turn_did (h : Once cfg ⟨w, tr⟩) (hg : ((delivery cfg).phase tr i).good cfg o a)
    {k id : ℕ} {t : Turn} {told : Option Time} {drawn : Option ℚ}
    (hk : (delivery cfg).phase (.did i o a :: tr) k = .turn id t told drawn)
    (ha : Accepted id (.did i o a :: tr)) : t.sent = true := by
  rw [phase_did_apply] at hk
  split at hk
  · subst k
    rcases (accepted_cons.mp ha).2 with new | old
    · obtain ⟨t', told', drawn', -, hnext⟩ := turn_of_accepted hg new
      rw [hk] at hnext
      cases hnext
      rfl
    rcases turn_of_next hk with ⟨t₀, told₀, drawn₀, hφ, hnext⟩ | ⟨row, hφ, -, -, -⟩
    · have sent : t₀.sent = true := h.turn i id t₀ told₀ drawn₀ hφ old
      cases hnext with
      | relayed =>
        obtain ⟨t₁, _, _, hφ', hno⟩ := turn_of_relays hg rfl
        rw [hφ] at hφ'
        cases hφ'
        rw [hno] at sent
        cases sent
      | _ => exact sent
    · exact absurd old (h.read i id row hφ)
  · rename_i other
    rcases (accepted_cons.mp ha).2 with new | old
    · exact absurd (h.alone_did hg new (by rw [hk]; exact List.mem_singleton_self id)) other
    · exact h.turn k id t told drawn hk old

theorem Once.read_did (h : Once cfg ⟨w, tr⟩) (he : exec cfg i o c w = some (a, w'))
    (hg : ((delivery cfg).phase tr i).good cfg o a) {k id : ℕ} {row : Message}
    (hk : (delivery cfg).phase (.did i o a :: tr) k = .read id (some row)) :
    ¬ Accepted id (.did i o a :: tr) := by
  intro ha
  rw [phase_did_apply] at hk
  split at hk
  · subst k
    rcases (accepted_cons.mp ha).2 with new | old
    · obtain ⟨_, _, _, -, hnext⟩ := turn_of_accepted hg new
      rw [hk] at hnext
      cases hnext
    rcases read_of_did he hg hk with hφ | ⟨hφ, hrow⟩
    · exact h.read i id row hφ old
    · have hmem := List.mem_of_find?_eq_some hrow.symm
      have hid : row.id = id := by simpa using List.find?_some hrow.symm
      have knows := (h.rows id old row hmem hid).2.2 i
      rw [show (delivery cfg).phase (Config.mk w tr).trace i = _ from hφ] at knows
      cases knows (List.mem_singleton_self id)
  · rename_i other
    rcases (accepted_cons.mp ha).2 with new | old
    · exact other (h.alone_did hg new (by rw [hk]; exact List.mem_singleton_self id))
    · exact h.read k id row hk old

theorem Once.sends_did (h : Once cfg ⟨w, tr⟩) {k id : ℕ} {t : Turn} {told : Option Time}
    {drawn : Option ℚ}
    (hk : (delivery cfg).phase (.did i o a :: tr) k = .turn id t told drawn) (ht : t.sent = true) :
    0 < t.sends := by
  rw [phase_did_apply] at hk
  split at hk
  · rcases turn_of_next hk with ⟨t₀, told₀, drawn₀, hφ, hnext⟩ | ⟨row, hφ, -, rfl, -⟩
    · cases hnext with
      | relayed => exact Nat.succ_pos _
      | read | recorded => exact h.sends i id t₀ _ _ hφ ht
      | _ => exact h.sends i id _ _ _ hφ ht
    · cases ht
  · exact h.sends k id t told drawn hk ht

/-- Whoever comes to hold the id of an accepted message, or keeps it, knows. -/
theorem Once.knows_did (h : Once cfg ⟨w, tr⟩) (he : exec cfg i o c w = some (a, w'))
    (hg : ((delivery cfg).phase tr i).good cfg o a) {id : ℕ} (old : Accepted id tr) {m : Message}
    (hm : m ∈ w.db.messages) (hid : m.id = id)
    (hheld : id ∈ (((delivery cfg).phase tr i).next o a).held) :
    (((delivery cfg).phase tr i).next o a).sent = true := by
  obtain ⟨status, queue, knows⟩ := h.rows id old m hm hid
  rcases held_next ((delivery cfg).phase tr i) o a with sub | ⟨id', -, heq⟩ | ⟨ids, site,
    wh, v, n, hφ, heq⟩
  · have mine := sub.subset hheld
    have known : ((delivery cfg).phase tr i).sent = true := knows i mine
    generalize (delivery cfg).phase tr i = φ at hg hheld mine known ⊢
    cases φ with
    | turn id' t told drawn =>
      change (Duty.nextTurn id' t told drawn o a).sent = true
      change id ∈ (Duty.nextTurn id' t told drawn o a).held at hheld
      have next := turnNext id' t told drawn o a
      generalize Duty.nextTurn id' t told drawn o a = φ' at next hheld
      have noRelay : ∀ {id'' : ℕ}, o.relayFor = some id'' → False := by
        intro id'' ho
        obtain ⟨t', _, _, hφ, hno⟩ := turn_of_relays hg ho
        cases hφ
        rw [show t.sent = true from known] at hno
        cases hno
      cases next with
      | relayed => exact (noRelay rfl).elim
      | raised => exact (noRelay rfl).elim
      | wrote => cases hheld
      | _ => exact known
    | failed id' n sent =>
      rcases next_failed id' n sent o a with same | past
      · rw [same]
        exact known
      · rw [past] at hheld
        cases hheld
    | _ => cases known
  · cases heq
    obtain ⟨rest, hq, -⟩ := exec_queueGet he
    have hφ : (delivery cfg).phase tr i = .idle := hg
    rw [hφ] at hheld
    obtain rfl := List.mem_singleton.mp hheld
    exact absurd (by rw [hq]; exact List.mem_cons_self) queue
  · cases heq
    rw [hφ] at hheld
    have queued := ((h.due i ids hφ).2 id hheld).2 m hm hid
    rw [queued] at status
    rcases status with status | status <;> cases status

/-- The queue does not come to hold the id of an accepted message. -/
theorem Once.queue_did (h : Once cfg ⟨w, tr⟩) (he : exec cfg i o c w = some (a, w'))
    (hg : ((delivery cfg).phase tr i).good cfg o a) {id : ℕ} (old : Accepted id tr) {m : Message}
    (hm : m ∈ w.db.messages) (hid : m.id = id) : id ∉ w'.queue := by
  obtain ⟨-, queue, knows⟩ := h.rows id old m hm hid
  have frame := exec_frame cfg he
  cases o with
  | queueGet =>
    obtain ⟨rest, hq, rfl⟩ := exec_queueGet he
    exact fun hmem => queue (by rw [hq]; exact List.mem_cons_of_mem _ hmem)
  | queuePut id' =>
    obtain rfl := exec_queuePut he
    obtain ⟨ids, hφ⟩ := hg
    intro hmem
    rcases List.mem_append.mp hmem with hmem | hmem
    · exact queue hmem
    · obtain rfl := List.mem_singleton.mp hmem
      have knows := knows i
      rw [show (delivery cfg).phase (Config.mk w tr).trace i = _ from hφ] at knows
      cases knows List.mem_cons_self
  | _ =>
    rw [frame.queue (by simp [Op.part])]
    exact queue

/-- A row of an accepted message stays sent or being sent. -/
theorem Once.status_of_step (h : Once cfg x) (hs : (system cfg jobs).Step (delivery cfg) x x')
    (hc : NotPutBack cfg x x') {id : ℕ} (old : Accepted id x.trace)
    (noInsert : ∀ e, x'.trace = e :: x.trace → insertsAt id e = false) {m' : Message}
    (hm' : m' ∈ x'.shared.db.messages) (hid : m'.id = id) :
    ∃ m ∈ x.shared.db.messages, m.id = id ∧ (m'.status = .sent ∨ m'.status = .sending) := by
  have kept : ∀ m ∈ x.shared.db.messages, m.id = id → m.status = .sent ∨ m.status = .sending :=
    fun m hm hmid => (h.rows id old m hm hmid).1
  cases rowOf_step hs hm' with
  | same hm _ => exact ⟨m', hm, hid, kept m' hm hid⟩
  | inserted _ _ _ _ htr =>
    have inserted := noInsert _ htr
    rw [← hid] at inserted
    simp [insertsAt] at inserted
  | @updated i site wh v n m hm hmid hu hw heq htr =>
    subst heq
    have hmid : m.id = id := hmid.trans hid
    refine ⟨m, hm, hmid, ?_⟩
    have status := kept m hm hmid
    have knows := (h.rows id old m hm hmid).2.2 i
    have notBack := hc.requeue i site wh v _ htr m hm hw
    have at_ : ∀ {id' : ℕ} {st : Option MessageStatus}, wh = { ids := some [id'], status := st } →
        id' = id := by
      intro id' st hwh
      rw [hwh] at hw
      simp only [MessageWhere.holds, Option.all_some, List.mem_singleton, Bool.and_eq_true,
        decide_eq_true_eq] at hw
      exact hw.1.symm.trans hmid
    generalize hφ : (delivery cfg).phase x.trace i = φ at hu knows notBack
    cases hu with
    | claim hids =>
      simp only [MessageWhere.holds, Option.all_some, Option.all_none, Bool.and_true,
        decide_eq_true_eq] at hw
      rw [((h.due i _ hφ).2 m.id hw).2 m hm rfl] at status
      rcases status with status | status <;> cases status
    | markSent => exact .inl rfl
    | recover =>
      have down := h.booting i (by rw [hφ]; rfl)
      rw [h.up id old] at down
      cases down
    | retry hsent =>
      obtain rfl := at_ rfl
      cases hsent.symm.trans (knows (List.mem_singleton_self _))
    | deadletter hsent _ =>
      obtain rfl := at_ rfl
      cases hsent.symm.trans (knows (List.mem_singleton_self _))
    | postpone hsends =>
      obtain rfl := at_ rfl
      have := h.sends i _ _ _ _ hφ (knows (List.mem_singleton_self _))
      omega
    | requeue =>
      obtain rfl := at_ rfl
      exact absurd (congrArg _ (knows (List.mem_singleton_self _))) (notBack _ _)

end Did

theorem Once.step (h : Once cfg x) (hs : (system cfg jobs).Step (delivery cfg) x x')
    (hc : NotPutBack cfg x x') : Once cfg x' := by
  have own := h.toOwn.step hs hc.fresh
  have statuses := @Once.status_of_step cfg jobs x x' h hs hc
  cases hs with
  | @start w tr i j ha hi =>
    have quiet : ∀ {id}, Accepted id (.start i j :: tr) → Accepted id tr := by
      intro id hacc
      rcases (accepted_cons.mp hacc).2 with new | old
      · cases new
      · exact old
    have some_ : ∀ id : ℕ, [id] ≠ [] := fun id => List.cons_ne_nil _ _
    refine ⟨own, fun id hacc => h.up id (quiet hacc), fun id hacc m hm hid => ?_,
      fun k id t told drawn hk hacc =>
      h.turn k id t told drawn (phase_start_held hk (some_ id)) (quiet hacc),
        fun k id row hk hacc =>
      h.read k id row (phase_start_held hk (some_ id)) (quiet hacc), fun k id t told drawn hk =>
      h.sends k id t told drawn (phase_start_held hk (some_ id)), fun later e tr' id htr he => ?_⟩
    · obtain ⟨status, queue, knows⟩ := h.rows id (quiet hacc) m hm hid
      refine ⟨status, queue, fun k hk => ?_⟩
      have same := phase_start_held (k := k) rfl (List.ne_nil_of_mem hk)
      rw [← same] at hk ⊢
      exact knows k hk
    · cases later with
      | nil => cases htr; cases he
      | cons e' later => cases htr; exact h.once later e tr' id rfl he
  | @env w tr d =>
    have quiet : ∀ {id}, Accepted id (.env d :: tr) → Accepted id tr := by
      intro id hacc
      rcases (accepted_cons.mp hacc).2 with new | old
      · cases new
      · exact old
    refine ⟨own, fun id hacc => h.up id (quiet hacc), fun id hacc => h.rows id (quiet hacc),
      fun k id t told drawn hk hacc => h.turn k id t told drawn hk (quiet hacc),
      fun k id row hk hacc => h.read k id row hk (quiet hacc), h.sends,
        fun later e tr' id htr he => ?_⟩
    cases later with
    | nil => cases htr; cases he
    | cons e' later => cases htr; exact h.once later e tr' id rfl he
  | crash => exact absurd rfl hc.alive
  | @did w w' tr i o c a he hg =>
    have he : exec cfg i o c w = some (a, w') := he
    have hg : ((delivery cfg).phase tr i).good cfg o a := hg
    refine ⟨own, fun id hacc => h.up_did he hg id hacc, fun id hacc m' hm' hid => ?_,
      fun k id t told drawn hk hacc => h.turn_did hg hk hacc, fun k id row hk =>
        h.read_did he hg hk,
      fun k id t told drawn hk ht => h.sends_did hk ht, fun later e tr' id htr hrel => ?_⟩
    · obtain ⟨noInsert, new | old⟩ := accepted_cons.mp hacc
      · -- the consumer that has just relayed it
        obtain ⟨t, told, drawn, hφ, hnext⟩ := turn_of_accepted hg new
        have at_ : (delivery cfg).phase (.did i o a :: tr) i =
            .turn id { t with sends := t.sends + 1, sent := true } told drawn := by
          rw [phase_did_apply, if_pos rfl, hnext]
        have mine : id ∈ ((delivery cfg).phase (.did i o a :: tr) i).held := by
          rw [at_]
          exact List.mem_singleton_self id
        refine ⟨.inr (own.sending mine hm' hid), own.not_queued mine, fun k hk => ?_⟩
        obtain rfl := own.alone hk mine
        rw [show (delivery cfg).phase (Config.mk w' _).trace k = _ from at_]
        rfl
      · obtain ⟨m, hm, hmid, status⟩ :=
          statuses old (fun e he => by cases he; exact noInsert) hm' hid
        refine ⟨status, h.queue_did he hg old hm hmid, fun k hk => ?_⟩
        have hk : id ∈ ((delivery cfg).phase (.did i o a :: tr) k).held := hk
        change ((delivery cfg).phase (.did i o a :: tr) k).sent = true
        rw [phase_did_apply] at hk ⊢
        by_cases hki : k = i
        · rw [if_pos hki] at hk ⊢
          exact h.knows_did he hg old hm hmid hk
        · rw [if_neg hki] at hk ⊢
          exact (h.rows id old m hm hmid).2.2 k hk
    · cases later with
      | nil =>
        cases htr
        intro hacc
        have relay : o.relayFor = some id := by simpa [relaysOf] using hrel
        obtain ⟨t, told, drawn, hφ, hno⟩ := turn_of_relays hg relay
        rw [h.turn i id t told drawn hφ hacc] at hno
        cases hno
      | cons e' later => cases htr; exact h.once later e tr' id rfl hrel

end Invariants

/-- **An accepted message is not relayed again.** In every run in which no message whose last
relay was classified as sent is put back, none is inserted under an id still held, and the process
lives: whatever relay is made, no relay of that message was classified as sent before. -/
theorem relayed_once (cfg : Settings) {jobs : Job → Bool} (hj : ∀ j, jobs j = true →
    j.ofProcess = true)
    {w : World} (ids : (w.db.messages.map Message.id).Nodup) (down : w.up = false)
    (empty : w.queue = []) {s : Pool Op Op.Ans Exc World Job ℚ}
    (h : (system cfg jobs).Reachable (NotPutBack cfg) (Machine.boot w) s)
    {later tr : List (Entry Op Op.Ans Job ℚ)} {e : Entry Op Op.Ans Job ℚ} {id : ℕ}
    (htr : s.trace = later ++ e :: tr) (he : relaysOf id e = true) : ¬ Accepted id tr := by
  have staged : Staged cfg ⟨w, []⟩ :=
    ⟨fun i hi => (by cases hi), fun i hi => (by cases hi), fun _ => ⟨empty, fun i => rfl⟩⟩
  have nothing : ∀ id, ¬ Accepted id ([] : List (Entry Op Op.Ans Job ℚ)) := by
    intro id hacc
    obtain ⟨e, he, -⟩ := hacc
    cases he
  have init : Once cfg ⟨w, []⟩ :=
    ⟨Own.of_down staged down ids, fun id hacc => absurd hacc (nothing id), fun id hacc =>
      absurd hacc (nothing id),
      fun i id t told drawn hi => (by cases hi), fun i id row hi => (by cases hi),
      fun i id t told drawn hi => (by cases hi), fun later e tr id htr => (by simp at htr)⟩
  exact (Machine.invariant (delivery_keeps hj) (Once cfg) init
    (fun h hs hc => h.step hs hc) h).1.once later e tr id htr he

namespace Example

/-- One message is queued. -/
def oneQueued : World := { twoDue with db := { messages := [dueMessage 1] } }

/-- The provider takes the message. -/
def taken : Move Choice Job ℚ := .run 1 (.smtp (.returned [] "250 ok") true)

/-- The process starts, the message is claimed, and consumer 1 gets to its relay. -/
def toRelay : List (Move Choice Job ℚ) := List.flatten
  [[.start 0 .start], List.replicate 9 (.run 0 .ok), [.start 0 .producer],
    List.replicate 5 (.run 0 .ok), [.start 1 .consumer], List.replicate 21 (.run 1 .ok)]

/-- The database is locked when the attempt is recorded; the message is put back, and consumer 2
relays it. -/
def lockedOnce : List (Move Choice Job ℚ) := List.flatten
  [toRelay, [taken, .run 1 .ok, .run 1 (.fail .operationalError)], List.replicate 2 (.run 1 .ok),
    [.start 0 .producer], List.replicate 5 (.run 0 .ok), [.start 2 .consumer],
      List.replicate 20 (.run 2 .ok),
    [.run 2 (.smtp (.returned [] "250 ok") true)]]

/-- The newest entry is a relay of message 1, a relay of which was accepted before. -/
def relayedAgain : List (Entry Op Op.Ans Job ℚ) → Bool
  | e :: tr => relaysOf 1 e && decide (Accepted 1 tr)
  | [] => false

/-- A message accepted is relayed again, in a run without a crash. -/
theorem relayed_twice_lockedOnce : ∃ s later e tr,
    (system twoPerDay Job.ofProcess).Reachable (Machine.Each lives) (Machine.boot oneQueued) s ∧
      s.trace = later ++ e :: tr ∧ relaysOf 1 e = true ∧ Accepted 1 tr := by
  obtain ⟨s, hs, ha⟩ : ∃ s, (system twoPerDay Job.ofProcess).runFrom
      (Machine.boot oneQueued) lockedOnce = some s ∧
      (s.trace.all lives && relayedAgain s.trace) = true :=
    Option.map_eq_some_iff.mp (by decide +kernel)
  rw [Bool.and_eq_true] at ha
  obtain ⟨alive, again⟩ := ha
  have hr := Machine.Reachable.refl.runFrom_each hs alive
  cases htr : s.trace with
  | nil => rw [htr] at again; cases again
  | cons e tr =>
    rw [htr] at again
    simp only [relayedAgain, Bool.and_eq_true, decide_eq_true_eq] at again
    exact ⟨s, [], e, tr, hr, htr, again.1, again.2⟩

/-- The next operation inserts no row, and puts no accepted message back. -/
def notPutBackNext (m : Move Choice Job ℚ) (s : Pool Op Op.Ans Exc World Job ℚ) : Bool :=
  match m with
  | .run i _ => match s.tasks i, (delivery twoPerDay).phase s.trace i with
    | some (_, .op (.commit _ [.insertMessage _]) _), _ => false
    | some (_, .op (.commit _ [.updateMessages _ _]) _), .failed _ _ true => false
    | _, _ => true
  | .crash => false
  | _ => true

theorem notPutBack_of_next {jobs : Job → Bool} {m : Move Choice Job ℚ}
    {s s' : Pool Op Op.Ans Exc World Job ℚ} (hm : notPutBackNext m s = true)
    (hs : (system twoPerDay jobs).step m s = some s') :
    NotPutBack twoPerDay s.toConfig s'.toConfig := by
  refine ⟨fun htr => ?_, fun i site row id htr => ?_, fun i site wh v n htr m _ _ id sends hφ => ?_⟩
  · obtain rfl := Machine.step_crash hs htr
    cases hm
  · obtain ⟨c, j, k, rfl, ht, -⟩ := Machine.step_did hs htr
    simp [notPutBackNext, ht] at hm
  · obtain ⟨c, j, k, rfl, ht, -⟩ := Machine.step_did hs htr
    simp [notPutBackNext, ht, hφ] at hm

/-- A message taken and marked as sent, relayed once. -/
theorem relayed_once_taken : ∃ s later e tr,
    (system twoPerDay Job.ofProcess).runFrom (Machine.boot oneQueued)
      (List.flatten [toRelay, [taken], List.replicate 17 (.run 1 .ok)]) = some s ∧
      s.trace = later ++ e :: tr ∧ relaysOf 1 e = true ∧ ¬ Accepted 1 tr ∧
      s.shared.db.messages.map Message.status = [.sent] := by
  obtain ⟨s, hs, ha⟩ : ∃ s, (system twoPerDay Job.ofProcess).runFrom (Machine.boot oneQueued)
      (List.flatten [toRelay, [taken], List.replicate 17 (.run 1 .ok)]) = some s ∧
      (s.trace.any (relaysOf 1), s.shared.db.messages.map Message.status) = (true, [.sent]) :=
    Option.map_eq_some_iff.mp (by decide +kernel)
  obtain ⟨relays, rows⟩ := Prod.mk.inj ha
  obtain ⟨e, he, hrel⟩ := List.any_eq_true.mp relays
  obtain ⟨later, tr, htr⟩ := List.append_of_mem he
  have along : (system twoPerDay Job.ofProcess).along notPutBackNext (Machine.boot oneQueued)
      (List.flatten [toRelay, [taken], List.replicate 17 (.run 1 .ok)]) = true := by
    decide +kernel
  exact ⟨s, later, e, tr, hs, htr, hrel, relayed_once twoPerDay (fun j hj => hj) (by decide) rfl rfl
    (Machine.Reachable.refl.runFrom_along notPutBack_of_next along hs) htr hrel, rows⟩

end Example

end SmtpSwitch
