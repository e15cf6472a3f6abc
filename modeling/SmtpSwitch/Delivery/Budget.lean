import SmtpSwitch.Delivery.Custody
import SmtpSwitch.Delivery.Resend

/-!
# The retry budget

A cycle makes `failover_per_tick` relays at most, and one that has made a relay ends
with the message at its end, or charges an attempt and waits for a backoff delay, of which there are
fewer than `max_attempts`. An exception after the first relay ends the cycle without either, so
this holds of runs in which no cycle is broken off there (`Unbroken`, `retry_budget`).
-/

namespace SmtpSwitch

open Coop Coop.Prog

section Invariants

variable (cfg : Settings)

/-- No operation raises in a cycle that has made a relay, no relay raises, and the process lives. -/
structure Unbroken (x x' : Moment) : Prop where
  alive : x'.trace ≠ .crash :: x.trace
  turn : ∀ i o a, x'.trace = .did i o a :: x.trace → o.fails a = true → ∀ id t told drawn,
    (delivery cfg).phase x.trace i = .turn id t told drawn → t.sends = 0 ∧ o.relayFor = none

/-- The relays made for a message. -/
def relayCount (id : ℕ) (tr : List (Entry Op Op.Ans Job ℚ)) : ℕ := tr.countP (relaysOf id)

/-- `k` attempts pay for the relays of a message, but for those of its last cycle. -/
def Paid (x : Moment) (m : Message) (k : ℕ) : Prop :=
  (m.status.terminal = true ∧ relayCount m.id x.trace ≤ (k + 1) * cfg.dispatch.failoverPerTick) ∨
    (k ≤ m.attempts ∧ (relayCount m.id x.trace ≤ k * cfg.dispatch.failoverPerTick ∨
      ∃ i t told drawn, (delivery cfg).phase x.trace i = .turn m.id t told drawn ∧
        relayCount m.id x.trace ≤ k * cfg.dispatch.failoverPerTick + t.sends))

/-- What a consumer at work knows is true. -/
structure Turn.Sound (x : Moment) (t : Turn) (told : Option Time) (drawn : Option ℚ) : Prop where
  sends : t.sends ≤ cfg.dispatch.failoverPerTick
  told : ∀ now, told = some now → now ≤ x.shared.clock
  drawn : ∀ q, drawn = some q → 0 ≤ q ∧ q < 1

/-- Relays are paid for by attempts. -/
structure Spent (x : Moment) : Prop extends Snapped cfg x, Kept cfg x where
  sound : ∀ i id t told drawn, (delivery cfg).phase x.trace i = .turn id t told drawn →
    t.Sound cfg x told drawn
  unborn : ∀ id, id ∉ x.shared.db.messages.map Message.id → relayCount id x.trace = 0
  budget : ∀ m ∈ x.shared.db.messages, ∃ k < (cfg.dispatch.retry.maxAttempts : ℕ), Paid cfg x m k

variable {cfg} {jobs : Job → Bool} {x x' : Moment}

section Did

variable {w w' : World} {tr : List (Entry Op Op.Ans Job ℚ)} {i : ℕ} {o : Op}
  {a : o.Ans} {c : Choice}

theorem relayCount_did (id i : ℕ) (o : Op) (a : o.Ans) (tr : List (Entry Op Op.Ans Job ℚ)) :
    (o.relayFor ≠ some id ∧ relayCount id (.did i o a :: tr) = relayCount id tr) ∨
    (o.relayFor = some id ∧ relayCount id (.did i o a :: tr) = relayCount id tr + 1) := by
  unfold relayCount
  rw [List.countP_cons]
  by_cases h : o.relayFor = some id
  · exact .inr ⟨h, by simp [relaysOf, h]⟩
  · exact .inl ⟨h, by simp [relaysOf, h]⟩

theorem relays_commit (id : ℕ) {site : Site} {ss : List Stmt} (ans : Except Exc ℕ) :
    relayCount id (.did i (.commit site ss) ans :: tr) = relayCount id tr := by
  rcases relayCount_did id i (.commit site ss) ans tr with ⟨-, h⟩ | ⟨h, -⟩
  · exact h
  · cases h

theorem Spent.sound_did (h : Spent cfg ⟨w, tr⟩) (he : exec cfg i o c w = some (a, w'))
    (hg : ((delivery cfg).phase tr i).good cfg o a) {k id : ℕ} {t : Turn} {told : Option Time}
    {drawn : Option ℚ} (hk : (delivery cfg).phase (.did i o a :: tr) k = .turn id t told drawn) :
    t.Sound cfg ⟨w', .did i o a :: tr⟩ told drawn := by
  have clock : w'.clock = w.clock := (exec_frame cfg he).clock
  rw [phase_did_apply] at hk
  split at hk
  · subst k
    rcases turn_of_next hk with ⟨t₀, told₀, drawn₀, hφ, hnext⟩ | ⟨row, hφ, -, rfl, rfl, rfl⟩
    · have sound : t₀.Sound cfg ⟨w, tr⟩ told₀ drawn₀ := h.sound i id t₀ told₀ drawn₀ hφ
      have hdrawn := sound.drawn
      have htold : ∀ now, told₀ = some now → now ≤ w'.clock :=
        fun now hnow => clock ▸ sound.told now hnow
      cases hnext with
      | told =>
        refine ⟨sound.sends, fun now hnow => ?_, hdrawn⟩
        cases hnow
        obtain ⟨rfl, rfl⟩ := exec_utcnow he
        exact le_rfl
      | drawn =>
        refine ⟨sound.sends, htold, fun q hq => ?_⟩
        cases hq
        exact (exec_random he).1
      | read => exact ⟨sound.sends, htold, hdrawn⟩
      | relayed =>
        obtain ⟨t₁, told₁, drawn₁, hφ', -, -, -, -, more, -⟩ := hg
        rw [hφ] at hφ'
        cases hφ'
        exact ⟨more, htold, hdrawn⟩
      | recorded => exact ⟨sound.sends, htold, hdrawn⟩
      | other => exact ⟨sound.sends, htold, hdrawn⟩
    · exact ⟨Nat.zero_le _, fun now hnow => (by cases hnow), fun q hq => (by cases hq)⟩
  · have sound : t.Sound cfg ⟨w, tr⟩ told drawn := h.sound k id t told drawn hk
    exact ⟨sound.sends, fun now hnow => clock ▸ sound.told now hnow, sound.drawn⟩

/-- What pays for the relays of a message a consumer has at hand: the attempts charged, and the
cycle. -/
theorem Spent.paid_at (h : Spent cfg ⟨w, tr⟩) {m : Message} (hm : m ∈ w.db.messages)
    (hi : m.id ∈ ((delivery cfg).phase tr i).held) : ∃ k < (cfg.dispatch.retry.maxAttempts : ℕ),
      k ≤ m.attempts ∧ (relayCount m.id tr ≤ k * cfg.dispatch.failoverPerTick ∨
        ∃ t told drawn, (delivery cfg).phase tr i = .turn m.id t told drawn ∧
          relayCount m.id tr ≤ k * cfg.dispatch.failoverPerTick + t.sends) := by
  obtain ⟨k, hk, paid⟩ := h.budget m hm
  refine ⟨k, hk, ?_⟩
  rcases paid with ⟨ended, -⟩ | ⟨less, before | ⟨i', t, told, drawn, hφ, within⟩⟩
  · rw [h.sending hi hm rfl] at ended
    cases ended
  · exact ⟨less, .inl before⟩
  · have held : m.id ∈ ((delivery cfg).phase tr i').held := by
      rw [show (delivery cfg).phase tr i' = _ from hφ]
      exact List.mem_singleton_self _
    obtain rfl := h.alone hi held
    exact ⟨less, .inr ⟨t, told, drawn, hφ, within⟩⟩

/-- A row that is left alone stays paid for. -/
theorem Spent.paid_same (h : Spent cfg ⟨w, tr⟩) (hg : ((delivery cfg).phase tr i).good cfg o a)
    (hc : Unbroken cfg ⟨w, tr⟩ ⟨w', .did i o a :: tr⟩) {m : Message} (hm : m ∈ w.db.messages)
    (left : ∀ site wh v n, (Config.mk w' (.did i o a :: tr)).trace =
      .did i (.commit site [.updateMessages wh v]) (.ok n) :: tr → wh.holds m = false) :
    ∃ k < (cfg.dispatch.retry.maxAttempts : ℕ), Paid cfg ⟨w', .did i o a :: tr⟩ m k := by
  by_cases hi : ∃ t told drawn, (delivery cfg).phase tr i = .turn m.id t told drawn
  · -- the consumer at work on it
    obtain ⟨t, told, drawn, hφ⟩ := hi
    have held : m.id ∈ ((delivery cfg).phase tr i).held := by
      rw [hφ]
      exact List.mem_singleton_self _
    obtain ⟨k, hk, less, paid⟩ := h.paid_at hm held
    have within : relayCount m.id tr ≤ k * cfg.dispatch.failoverPerTick + t.sends := by
      rcases paid with before | ⟨t', told', drawn', hφ', within⟩
      · exact before.trans (Nat.le_add_right _ _)
      · rw [hφ] at hφ'
        cases hφ'
        exact within
    refine ⟨k, hk, .inr ⟨less, ?_⟩⟩
    have after : (delivery cfg).phase (.did i o a :: tr) i =
        Duty.nextTurn m.id t told drawn o a := by
      rw [phase_did_apply, if_pos rfl, hφ]
      rfl
    have next := turnNext m.id t told drawn o a
    rw [← after] at next
    generalize hd : (delivery cfg).phase (.did i o a :: tr) i = φ' at next
    have count := relayCount_did m.id i o a tr
    have stays : ∀ {t' : Turn} {told' : Option Time} {drawn' : Option ℚ},
        φ' = .turn m.id t' told' drawn' →
        relayCount m.id (.did i o a :: tr) ≤ k * cfg.dispatch.failoverPerTick + t'.sends →
        (relayCount m.id (.did i o a :: tr) ≤ k * cfg.dispatch.failoverPerTick ∨
          ∃ i' t told drawn, (delivery cfg).phase (.did i o a :: tr) i' = .turn m.id t told drawn ∧
            relayCount m.id (.did i o a :: tr) ≤ k * cfg.dispatch.failoverPerTick + t.sends) :=
      fun heq hle => .inr ⟨i, _, _, _, hd.trans heq, hle⟩
    have unsent : o.relayFor = Option.none → relayCount m.id (.did i o a :: tr) ≤
        k * cfg.dispatch.failoverPerTick + t.sends := by
      intro ho
      rcases count with ⟨-, hcount⟩ | ⟨hno, -⟩
      · rw [hcount]
        exact within
      · rw [ho] at hno
        cases hno
    cases next with
    | told => exact stays rfl (unsent rfl)
    | drawn => exact stays rfl (unsent rfl)
    | read => exact stays rfl (unsent rfl)
    | recorded => exact stays rfl (unsent rfl)
    | other ho _ => exact stays rfl (unsent ho)
    | relayed =>
      refine stays rfl ?_
      simp only
      rcases count with ⟨-, hcount⟩ | ⟨-, hcount⟩ <;> omega
    | @raised p kw sender rcpts raw errand out e hr =>
      have fails : (Op.send p kw sender rcpts raw errand).fails out = true := by
        cases out with
        | raisedOther => rfl
        | returned => cases hr
        | raised => cases hr
      cases (hc.turn i _ _ rfl fails _ _ _ _ hφ).2
    | broken ho hf =>
      have zero := (hc.turn i o a rfl hf _ _ _ _ hφ).1
      have within := unsent ho
      rw [zero] at within
      exact .inl within
    | wrote =>
      have hold := left _ _ _ _ rfl
      rw [hφ] at hg
      rcases updates_cases hg with ⟨ids, now, hdue, -⟩ | ⟨hstart, -⟩ | ⟨id, hheld, -, -, hw, -⟩
      · cases hdue
      · cases hstart
      · obtain rfl := List.singleton_inj.mp hheld
        rw [hw m rfl (h.sending held hm rfl)] at hold
        cases hold
  · obtain ⟨k, hk, paid⟩ := h.budget m hm
    have count : relayCount m.id (.did i o a :: tr) = relayCount m.id tr := by
      rcases relayCount_did m.id i o a tr with ⟨-, hcount⟩ | ⟨ho, -⟩
      · exact hcount
      · cases o with
        | send p kw sender rcpts raw errand =>
          obtain ⟨t, told, drawn, hφ, -⟩ := hg
          simp only [Op.relayFor, Option.some.injEq] at ho
          exact absurd ⟨t, told, drawn, ho ▸ hφ⟩ hi
        | _ => cases ho
    refine ⟨k, hk, ?_⟩
    rcases paid with ⟨ended, le⟩ | ⟨less, before | ⟨i', t, told, drawn, hφ, within⟩⟩
    · exact .inl ⟨ended, count.symm ▸ le⟩
    · exact .inr ⟨less, .inl (count.symm ▸ before)⟩
    · refine .inr ⟨less, .inr ⟨i', t, told, drawn, ?_, count.symm ▸ within⟩⟩
      have other : i' ≠ i := by
        rintro rfl
        exact hi ⟨t, told, drawn, hφ⟩
      exact (phase_did_apply i').trans ((if_neg other).trans hφ)

/-- A row that is updated stays paid for. -/
theorem Spent.paid_updated (h : Spent cfg ⟨w, tr⟩) {site : Site} {wh : MessageWhere}
    {v : MessageValues} {n : ℕ} (hu : Updates cfg ((delivery cfg).phase tr i) wh v) {m : Message}
    (hm : m ∈ w.db.messages) (hw : wh.holds m = true) : ∃ k < (cfg.dispatch.retry.maxAttempts : ℕ),
      Paid cfg ⟨w', .did i (.commit site [.updateMessages wh v]) (.ok n) :: tr⟩ (v.apply m) k := by
  have count : relayCount m.id (.did i (.commit site [.updateMessages wh v]) (.ok n) :: tr) =
      relayCount m.id tr :=
    relays_commit m.id _
  have at_ : ∀ {id' : ℕ} {st : Option MessageStatus}, wh = { ids := some [id'], status := st } →
      id' = m.id := by
    intro id' st hwh
    rw [hwh] at hw
    simp only [MessageWhere.holds, Option.all_some, List.mem_singleton, Bool.and_eq_true,
      decide_eq_true_eq] at hw
    exact hw.1.symm
  -- a cycle's relays fit into one attempt
  have whole : ∀ {k : ℕ} {t : Turn} {told : Option Time} {drawn : Option ℚ},
      (delivery cfg).phase tr i = .turn m.id t told drawn →
      (relayCount m.id tr ≤ k * cfg.dispatch.failoverPerTick ∨ ∃ t told drawn,
        (delivery cfg).phase tr i = .turn m.id t told drawn ∧
          relayCount m.id tr ≤ k * cfg.dispatch.failoverPerTick + t.sends) →
      relayCount m.id tr ≤ (k + 1) * cfg.dispatch.failoverPerTick := by
    intro k t told drawn hφ paid
    rw [Nat.add_mul, Nat.one_mul]
    rcases paid with before | ⟨t', told', drawn', hφ', within⟩
    · omega
    · have := (h.sound i m.id t' told' drawn' hφ').sends
      omega
  -- a consumer at hand pays
  have mine : ∀ {φ : Duty}, (delivery cfg).phase tr i = φ → m.id ∈ φ.held →
      m.id ∈ ((delivery cfg).phase tr i).held := fun hφ hmem => hφ.symm ▸ hmem
  -- another consumer cannot be at work on it
  have idle : holders cfg m.id ⟨w, tr⟩ = 0 → ∃ k < (cfg.dispatch.retry.maxAttempts : ℕ),
      (m.status.terminal = true ∨ k ≤ m.attempts ∧ relayCount m.id tr ≤ k *
        cfg.dispatch.failoverPerTick) := by
    intro free
    obtain ⟨k, hk, paid⟩ := h.budget m hm
    refine ⟨k, hk, ?_⟩
    rcases paid with ⟨ended, -⟩ | ⟨less, before | ⟨i', t, told, drawn, hφ, -⟩⟩
    · exact .inl ended
    · exact .inr ⟨less, before⟩
    · have held := held_le_holders cfg m.id i' ⟨w, tr⟩
      rw [hφ, free] at held
      simp [Duty.held] at held
  generalize hφ : (delivery cfg).phase tr i = φ at hu
  cases hu with
  | @claim ids now =>
    simp only [MessageWhere.holds, Option.all_some, Option.all_none, Bool.and_true,
      decide_eq_true_eq] at hw
    obtain ⟨free, queued⟩ := (h.due i ids hφ).2 m.id hw
    obtain ⟨k, hk, ended | ⟨less, before⟩⟩ := idle free
    · rw [queued m hm rfl] at ended
      cases ended
    · exact ⟨k, hk, .inr ⟨less, .inl (count.le.trans before)⟩⟩
  | recover =>
    have down : w.up = false :=
      h.booting i (by rw [show (delivery cfg).phase (Config.mk w tr).trace i = _ from hφ]; rfl)
    simp only [MessageWhere.holds, Option.all_some, Option.all_none, Bool.true_and,
      decide_eq_true_eq] at hw
    obtain ⟨k, hk, ended | ⟨less, before⟩⟩ := idle (holders_eq_zero_of_down h.toStaged down m.id)
    · rw [hw] at ended
      cases ended
    · exact ⟨k, hk, .inr ⟨less, .inl (count.le.trans before)⟩⟩
  | markSent =>
    obtain rfl := at_ rfl
    obtain ⟨k, hk, -, paid⟩ := h.paid_at hm (mine hφ (List.mem_singleton_self _))
    exact ⟨k, hk, .inl ⟨rfl, count.le.trans (whole hφ paid)⟩⟩
  | deadletter =>
    obtain rfl := at_ rfl
    obtain ⟨k, hk, -, paid⟩ := h.paid_at hm (mine hφ (List.mem_singleton_self _))
    exact ⟨k, hk, .inl ⟨rfl, count.le.trans (whole hφ paid)⟩⟩
  | @retry id t now draw error hsent hsends more =>
    obtain rfl := at_ rfl
    obtain ⟨k, hk, less, paid⟩ := h.paid_at hm (mine hφ (List.mem_singleton_self _))
    have attempts : m.attempts = t.row.attempts :=
      congrArg Message.attempts (h.turn i m.id t _ _ hφ m hm rfl)
    refine ⟨k + 1, by omega, .inr ⟨?_, .inl (count.le.trans (whole hφ paid))⟩⟩
    exact Nat.succ_le_succ less
  | postpone hsends =>
    obtain rfl := at_ rfl
    obtain ⟨k, hk, less, paid⟩ := h.paid_at hm (mine hφ (List.mem_singleton_self _))
    refine ⟨k, hk, .inr ⟨less, .inl (count.le.trans ?_)⟩⟩
    rcases paid with before | ⟨t', told', drawn', hφ', within⟩
    · exact before
    · rw [hφ] at hφ'
      cases hφ'
      omega
  | requeue =>
    obtain rfl := at_ rfl
    obtain ⟨k, hk, less, paid⟩ := h.paid_at hm (mine hφ (List.mem_singleton_self _))
    refine ⟨k, hk, .inr ⟨less, .inl (count.le.trans ?_)⟩⟩
    rcases paid with before | ⟨t', told', drawn', hφ', -⟩
    · exact before
    · rw [hφ] at hφ'
      cases hφ'

end Did

theorem Spent.step (h : Spent cfg x) (hj : ∀ j, jobs j = true → j.ofMail = true)
    (hs : (system cfg jobs).Step (delivery cfg) x x') (hc : Unbroken cfg x x') : Spent cfg x' := by
  have snapped := h.toSnapped.step hs (h.toKept.fresh hs)
  have kept := h.toKept.step (fun j hjob => duty_of_ofMail (hj j hjob)) hs
  have more : ∀ id ∈ x.shared.db.messages.map Message.id,
      id ∈ x'.shared.db.messages.map Message.id :=
    fun _ => h.toKept.ids_subset hs
  have rowOf : ∀ m' ∈ x'.shared.db.messages, RowOf cfg x x' m' := fun _ hm' => rowOf_step hs hm'
  cases hs with
  | @start w tr i j ha hi =>
    have stays : ∀ {k φ}, (delivery cfg).phase tr k = φ → φ.held ≠ [] →
        (delivery cfg).phase (.start i j :: tr) k = φ := by
      intro k φ hk hne
      rw [Protocol.phase_start, Function.update_apply, if_neg, hk]
      rintro rfl
      rw [hi] at hk
      exact hne (by rw [← hk]; rfl)
    have some_ : ∀ id : ℕ, [id] ≠ [] := fun id => List.cons_ne_nil _ _
    refine ⟨snapped, ⟨kept.calm, kept.rows, kept.dueRows⟩, fun k id t told drawn hk => ?_, h.unborn,
      fun m hm => ?_⟩
    · have sound := h.sound k id t told drawn (phase_start_held hk (some_ id))
      exact ⟨sound.sends, sound.told, sound.drawn⟩
    · obtain ⟨k, hk, paid⟩ := h.budget m hm
      refine ⟨k, hk, ?_⟩
      rcases paid with ended | ⟨less, before | ⟨i', t, told, drawn, hφ, within⟩⟩
      · exact .inl ended
      · exact .inr ⟨less, .inl before⟩
      · exact .inr ⟨less, .inr ⟨i', t, told, drawn, stays hφ (some_ _), within⟩⟩
  | @env w tr d =>
    refine ⟨snapped, ⟨kept.calm, kept.rows, kept.dueRows⟩, fun k id t told drawn hk => ?_,
      h.unborn, h.budget⟩
    have sound := h.sound k id t told drawn hk
    have later : w.clock ≤ w.clock + max d 0 := le_add_of_nonneg_right (le_max_right d 0)
    exact ⟨sound.sends, fun now hnow => (sound.told now hnow).trans later, sound.drawn⟩
  | crash => exact absurd rfl hc.alive
  | @did w w' tr i o c a he hg =>
    have he : exec cfg i o c w = some (a, w') := he
    have hg : ((delivery cfg).phase tr i).good cfg o a := hg
    refine ⟨snapped, ⟨kept.calm, kept.rows, kept.dueRows⟩, fun k id t told drawn hk =>
      h.sound_did he hg hk, fun id hid => ?_, fun m' hm' => ?_⟩
    · have absent : id ∉ w.db.messages.map Message.id := fun hmem => hid (more id hmem)
      rcases relayCount_did id i o a tr with ⟨-, count⟩ | ⟨ho, -⟩
      · exact count.trans (h.unborn id absent)
      · cases o with
        | send p kw sender rcpts raw errand =>
          obtain ⟨t, told, drawn, hφ, -⟩ := hg
          simp only [Op.relayFor, Option.some.injEq] at ho
          have held := held_le_holders cfg id i ⟨w, tr⟩
          rw [show (delivery cfg).phase (Config.mk w tr).trace i = _ from hφ, ho] at held
          simp only [Duty.held, List.count_singleton_self] at held
          exact absurd (h.rows id held) absent
        | _ => cases ho
    · cases rowOf m' hm' with
      | same hm left => exact h.paid_same hg hc hm fun site wh v n htr => left i site wh v n htr
      | inserted _ _ _ heq htr =>
        cases htr
        refine ⟨0, cfg.dispatch.retry.maxAttempts.pos, .inr ⟨Nat.zero_le _, .inl ?_⟩⟩
        have fresh : m'.id ∉ w.db.messages.map Message.id := by
          rw [heq]
          exact fun hmem => lt_irrefl _ (lt_nextId hmem)
        have unrelayed : relayCount m'.id tr = 0 := h.unborn m'.id fresh
        exact ((relays_commit m'.id _).trans unrelayed).le.trans (Nat.zero_le _)
      | @updated i' site wh v n m hm hid hu hw heq htr =>
        cases htr
        subst heq
        exact h.paid_updated hu hm hw

variable (cfg) in
/-- The attempt is charged, and the next one waits for a backoff delay. -/
def Retried (t : Turn) (clock : Time) (row : Message) : Prop :=
  row.attempts = t.row.attempts + 1 ∧ ∃ now draw, now ≤ clock ∧ (0 ≤ draw ∧ draw < 1) ∧
    row.nextAttemptAt = now + backoffDelay (t.row.attempts + 1)
      (cfg.dispatch.retry.baseDelaySeconds : ℕ)
      (cfg.dispatch.retry.maxDelaySeconds : ℕ) cfg.dispatch.retry.jitterRatio draw

/-- How a cycle that has made a relay ends. -/
theorem Spent.ending (h : Spent cfg x) (hs : (system cfg jobs).Step (delivery cfg) x x')
    (hc : Unbroken cfg x x') {i id : ℕ} {t : Turn} {told : Option Time} {drawn : Option ℚ}
    (hi : (delivery cfg).phase x.trace i = .turn id t told drawn) (hsends : 0 < t.sends)
    (past : ∀ t' told' drawn', (delivery cfg).phase x'.trace i ≠ .turn id t' told' drawn')
    {row : Message} (hrow : row ∈ x'.shared.db.messages) (hid : row.id = id) :
    row.status.terminal = true ∨ Retried cfg t x.shared.clock row := by
  have rowOf := rowOf_step hs hrow
  have held : id ∈ ((delivery cfg).phase x.trace i).held := by
    rw [hi]
    exact List.mem_singleton_self id
  cases hs with
  | @start w tr k j ha hk =>
    refine absurd ?_ (past t told drawn)
    rw [Protocol.phase_start, Function.update_apply, if_neg, hi]
    rintro rfl
    rw [show (delivery cfg).phase tr i = _ from hi] at hk
    cases hk
  | env => exact absurd hi (past t told drawn)
  | crash => exact absurd rfl hc.alive
  | @did w w' tr k o c a he hg =>
    have hg : ((delivery cfg).phase tr k).good cfg o a := hg
    have hi : (delivery cfg).phase tr i = .turn id t told drawn := hi
    have sound : t.Sound cfg ⟨w, tr⟩ told drawn := h.sound i id t told drawn hi
    have past : ∀ t' told' drawn', (delivery cfg).phase (.did k o a :: tr) i ≠
        .turn id t' told' drawn' := past
    simp only [phase_did_apply] at past
    by_cases hik : i = k
    · subst hik
      simp only [if_true, hi] at past
      have next := turnNext id t told drawn o a
      have past : ∀ t' told' drawn', Duty.nextTurn id t told drawn o a ≠ .turn id t' told' drawn' :=
        past
      generalize Duty.nextTurn id t told drawn o a = φ' at next past
      cases next with
      | @raised p kw sender rcpts raw errand out e hr =>
        have fails : (Op.send p kw sender rcpts raw errand).fails out = true := by
          cases out with
          | raisedOther => rfl
          | returned => cases hr
          | raised => cases hr
        cases (hc.turn i _ _ rfl fails _ _ _ _ hi).2
      | broken _ hf =>
        have := (hc.turn i o a rfl hf _ _ _ _ hi).1
        omega
      | wrote =>
        cases rowOf with
        | same hm left =>
          have hold := left _ _ _ _ _ rfl
          rw [hi] at hg
          rcases updates_cases hg with ⟨ids, now, hdue, -⟩ | ⟨hstart, -⟩ | ⟨id', hheld, -, -, hw, -⟩
          · cases hdue
          · cases hstart
          · obtain rfl := List.singleton_inj.mp hheld
            rw [hw row hid (h.sending held hm hid)] at hold
            cases hold
        | inserted _ _ _ _ htr => cases htr
        | @updated i' site wh v n m hm hmid hu hw heq htr =>
          cases htr
          subst heq
          rw [show (delivery cfg).phase (Config.mk w tr).trace i = _ from hi] at hu
          cases hu with
          | markSent => exact .inl rfl
          | deadletter => exact .inl rfl
          | postpone none => omega
          | @retry _ _ now draw error =>
            refine .inr ⟨?_, now, draw, sound.told now rfl, sound.drawn draw rfl, rfl⟩
            exact congrArg (·.attempts + 1) (h.turn i id t _ _ hi m hm (hmid.trans hid))
      | _ => exact absurd rfl (past _ _ _)
    · simp only [if_neg hik] at past
      exact absurd hi (past t told drawn)

/-- What holds of a process that starts. -/
theorem Spent.init {w : World} (ids : (w.db.messages.map Message.id).Nodup) (down : w.up = false)
    (empty : w.queue = []) : Spent cfg ⟨w, []⟩ := by
  have owned : Owned cfg ⟨w, []⟩ := Owned.init ids down empty
  refine ⟨⟨owned.toOwn, fun i id row hi => (by cases hi), fun i id t told drawn hi =>
    (by cases hi)⟩, owned.toKept, fun i id t told drawn hi => (by cases hi),
    fun id _ => rfl, fun m _ => ⟨0, cfg.dispatch.retry.maxAttempts.pos,
      .inr ⟨Nat.zero_le _, .inl (Nat.zero_le _)⟩⟩⟩

/-- All relays of a message are within the budget. -/
theorem Spent.relays_le (h : Spent cfg x) (id : ℕ) :
    relayCount id x.trace ≤ cfg.dispatch.retry.maxAttempts * cfg.dispatch.failoverPerTick := by
  by_cases hid : id ∈ x.shared.db.messages.map Message.id
  · obtain ⟨m, hm, rfl⟩ := List.mem_map.mp hid
    obtain ⟨k, hk, paid⟩ := h.budget m hm
    have within : relayCount m.id x.trace ≤ (k + 1) * cfg.dispatch.failoverPerTick := by
      rw [Nat.add_mul, Nat.one_mul]
      rcases paid with ⟨-, le⟩ | ⟨-, le | ⟨i, t, told, drawn, hφ, le⟩⟩
      · rwa [Nat.add_mul, Nat.one_mul] at le
      · omega
      · have := (h.sound i m.id t told drawn hφ).sends
        omega
    exact within.trans (Nat.mul_le_mul_right _ hk)
  · rw [h.unborn id hid]
    exact Nat.zero_le _

end Invariants

namespace Example

/-- The provider is busy, and the message waits. -/
def busyOnce : List (Move Choice Job ℚ) := List.flatten
  [toRelay, [.run 1 (.smtp (.raised (.response 451 "busy")) false)], List.replicate 16 (.run 1 .ok),
    [.run 1 (.draw 0)], List.replicate 3 (.run 1 .ok)]

/-- Nothing fails. -/
def faultless : Entry Op Op.Ans Job ℚ → Bool
  | .did _ o a => !o.fails a
  | .crash => false
  | _ => true

theorem unbroken_of_faultless (x x' : Moment) (h : Machine.Each faultless x x') :
    Unbroken twoPerDay x x' := by
  refine ⟨fun htr => ?_, fun i o a htr hf => ?_⟩
  · cases h _ htr
  · have := h _ htr
    simp [faultless, hf] at this

/-- What consumer 1 is at: the relays of its cycle, and the attempts charged before it. -/
def atTurn : Duty → Option (ℕ × ℕ × ℕ)
  | .turn id t _ _ => some (id, t.sends, t.row.attempts)
  | _ => none

end Example

end SmtpSwitch
