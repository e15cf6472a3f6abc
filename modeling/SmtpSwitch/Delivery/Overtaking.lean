import Mathlib.Data.Finset.Card
import SmtpSwitch.Delivery.Queue
import SmtpSwitch.Delivery.Retention

/-!
# Nobody is overtaken

The producer claims in batches of a bounded size, and messages come and go while
one waits: they are retried, put back by a consumer or an operator, deleted.
`ORDER BY next_attempt_at, id` makes the wait bounded: every message claimed while
another one waits was ahead of it, when the wait began or by a step since
(`overtaken_bounded`). A batch that leaves out a message that is due is a full one
(`full_of_left_out`), so that the wait is bounded in batches, too.
-/

namespace SmtpSwitch

open Coop Coop.Prog

/-- A message with this id is queued, for this time. -/
def Waiting (next : Time) (id : ℕ) (ms : List Message) : Prop :=
  ∃ m ∈ ms, m.id = id ∧ m.status = .queued ∧ m.nextAttemptAt = next

/-- The queued messages that come before it. -/
def ahead (next : Time) (id : ℕ) (ms : List Message) : Finset ℕ :=
  ((ms.filter fun m => m.status = .queued ∧
    (m.nextAttemptAt < next ∨ m.nextAttemptAt = next ∧ m.id < id)).map Message.id).toFinset

/-- What the producer has selected, where that leaves out the message. -/
def Duty.selectedWithout (id : ℕ) : Duty → Finset ℕ
  | .due ids => if id ∈ ids then ∅ else ids.toFinset
  | _ => ∅

/-- The messages a step claims. -/
def claimedBy : Entry Op Op.Ans Job ℚ → List ℕ
  | .did _ o a => queueClaims o a
  | _ => []

instance : Std.Total Message.before where
  total a b := by
    rcases lt_trichotomy a.nextAttemptAt b.nextAttemptAt with lt | eq | gt
    · exact .inl (.inl lt)
    · rcases le_total a.id b.id with le | ge
      · exact .inl (.inr ⟨eq, le⟩)
      · exact .inr (.inr ⟨eq.symm, ge⟩)
    · exact .inr (.inl gt)

instance : IsTrans Message Message.before where
  trans a b c := by
    rintro (lt | ⟨eq, le⟩) (lt' | ⟨eq', le'⟩)
    · exact .inl (lt.trans lt')
    · exact .inl (eq' ▸ lt)
    · exact .inl (eq ▸ lt')
    · exact .inr ⟨eq.trans eq', le.trans le'⟩

section Select

variable {ms : List Message} {now next : Time} {limit id : ℕ}

theorem mem_ahead {k : ℕ} : k ∈ ahead next id ms ↔ ∃ m ∈ ms, m.id = k ∧ m.status = .queued ∧
    (m.nextAttemptAt < next ∨ m.nextAttemptAt = next ∧ m.id < id) := by
  simp only [ahead, List.mem_toFinset, List.mem_map, List.mem_filter, decide_eq_true_eq]
  constructor
  · rintro ⟨m, ⟨hm, hq, before⟩, rfl⟩
    exact ⟨m, hm, rfl, hq, before⟩
  · rintro ⟨m, hm, rfl, hq, before⟩
    exact ⟨m, ⟨hm, hq, before⟩, rfl⟩

/-- Those the `SELECT` returns come before those it leaves out. -/
theorem ahead_of_selected (hw : Waiting next id ms) (out : id ∉ selectDue ms now limit) {k : ℕ}
    (hk : k ∈ selectDue ms now limit) : k ∈ ahead next id ms := by
  obtain ⟨m, hm, rfl, queued, rfl⟩ := hw
  simp only [selectDue] at hk out
  obtain ⟨m', taken, rfl⟩ := List.mem_map.mp hk
  have due := List.mem_of_mem_take taken
  rw [List.mem_insertionSort, List.mem_filter, decide_eq_true_eq] at due
  obtain ⟨hm', queued', due'⟩ := due
  refine mem_ahead.mpr ⟨m', hm', rfl, queued', ?_⟩
  by_cases due : m.nextAttemptAt ≤ now
  · have dropped : m ∈
      ((ms.filter fun m => m.status = .queued ∧ m.nextAttemptAt ≤ now).insertionSort
        Message.before).drop limit := by
      have there : m ∈ (ms.filter fun m => m.status = .queued ∧ m.nextAttemptAt ≤ now).insertionSort
          Message.before := by
        rw [List.mem_insertionSort, List.mem_filter, decide_eq_true_eq]
        exact ⟨hm, queued, due⟩
      rw [← List.take_append_drop limit (List.insertionSort _ _)] at there
      exact (List.mem_append.mp there).resolve_left fun h => out (List.mem_map_of_mem h)
    have sorted := List.pairwise_insertionSort Message.before
      (ms.filter fun m => m.status = .queued ∧ m.nextAttemptAt ≤ now)
    rw [← List.take_append_drop limit (List.insertionSort _ _), List.pairwise_append] at sorted
    rcases sorted.2.2 m' taken m dropped with lt | ⟨eq, le⟩
    · exact .inl lt
    · refine .inr ⟨eq, lt_of_le_of_ne le fun same => out ?_⟩
      rw [← same]
      exact hk
  · exact .inl (lt_of_le_of_lt due' (lt_of_not_ge due))

/-- A batch that leaves out a message that is due is full. -/
theorem full_of_left_out (hw : Waiting next id ms) (due : next ≤ now)
    (out : id ∉ selectDue ms now limit) :
    (selectDue ms now limit).length = limit := by
  obtain ⟨m, hm, rfl, queued, rfl⟩ := hw
  simp only [selectDue, List.length_map, List.length_take, min_eq_left_iff] at out ⊢
  by_contra few
  refine out (List.mem_map_of_mem ?_)
  rw [List.take_of_length_le (le_of_lt (lt_of_not_ge few)), List.mem_insertionSort, List.mem_filter,
    decide_eq_true_eq]
  exact ⟨hm, queued, due⟩

end Select

variable {cfg : Settings} {jobs : Job → Bool} {next : Time} {id : ℕ} {x x' : Moment}

variable (cfg) in
/-- One producer, which has selected each message once. -/
structure Lined (x : Moment) : Prop extends Staged cfg x where
  ids : (x.shared.db.messages.map Message.id).Nodup
  once : ∀ i ids, (delivery cfg).phase x.trace i = .due ids → ids.Nodup

variable (cfg next id) in
/-- The messages that may be claimed before it, as far as they are there. -/
def inFront (x : Moment) : Finset ℕ :=
  ahead next id x.shared.db.messages ∪ ((delivery cfg).phase x.trace 0).selectedWithout id

/-- What the producer has selected it had selected before, or selects now. -/
theorem selected_of_step (hs : (system cfg jobs).Step (delivery cfg) x x') {i : ℕ} {ids : List ℕ}
    (hi : (delivery cfg).phase x'.trace i = .due ids) : (delivery cfg).phase x.trace i = .due ids ∨
      x'.shared.db = x.shared.db ∧ ∃ now limit, ids = selectDue x.shared.db.messages now limit := by
  cases hs with
  | start =>
    rw [Protocol.phase_start, Function.update_apply] at hi
    split at hi
    · cases ‹Job› <;> cases hi
    · exact .inl hi
  | env => exact .inl hi
  | crash => cases hi
  | did he hg =>
    rw [phase_did_apply] at hi
    split at hi
    · subst i
      rcases due_of_next hi with old | ⟨-, site, now, limit, heq⟩
      · exact .inl old
      · cases heq
        obtain ⟨hans | ⟨e, hans⟩, rfl⟩ := exec_select he
        · exact .inr ⟨rfl, now, limit, Except.ok.inj hans⟩
        · cases hans
    · exact .inl hi

theorem Lined.step (h : Lined cfg x) (hs : (system cfg jobs).Step (dispatch cfg) x x') :
    Lined cfg x' := by
  have ids := ids_of_step h.ids hs
  rcases upkeep_or_delivery hs with hs | ⟨i, hs⟩
  · refine ⟨h.toStaged.step hs, ids, fun i due hi => ?_⟩
    rcases selected_of_step hs hi with old | ⟨-, now, limit, rfl⟩
    · exact h.once i due old
    · exact nodup_selectDue h.ids
  · exact ⟨h.toStaged.beside hs, ids, fun i due hi => h.once i due (by rwa [hs.duties] at hi)⟩

/-- A step that claims nothing brings nobody in front but those who get ahead. -/
theorem front_of_rest {e : Entry Op Op.Ans Job ℚ} (unclaimed : claimedBy e = [])
    (selected : ((delivery cfg).phase x'.trace 0).selectedWithout id ⊆ inFront cfg next id x) :
    (claimedBy e).length + (inFront cfg next id x').card ≤ (inFront cfg next id x).card +
      (ahead next id x'.shared.db.messages \ ahead next id x.shared.db.messages).card := by
  rw [unclaimed, List.length_nil, Nat.zero_add]
  refine (Finset.card_le_card fun k hk => ?_).trans (Finset.card_union_le _ _)
  rcases Finset.mem_union.mp hk with hk | hk
  · by_cases old : k ∈ ahead next id x.shared.db.messages
    · exact Finset.mem_union_left _ (Finset.mem_union_left _ old)
    · exact Finset.mem_union_right _ (Finset.mem_sdiff.mpr ⟨hk, old⟩)
  · exact Finset.mem_union_left _ (selected hk)

/-- What comes to be selected without it is in front of it. -/
theorem selected_in_front (hw : Waiting next id x.shared.db.messages)
    (hs : (system cfg jobs).Step (delivery cfg) x x') :
    ((delivery cfg).phase x'.trace 0).selectedWithout id ⊆ inFront cfg next id x := by
  intro k hk
  generalize hφ : (delivery cfg).phase x'.trace 0 = φ at hk
  cases φ with
  | due ids =>
    rcases selected_of_step hs hφ with old | ⟨-, now, limit, rfl⟩
    · refine Finset.mem_union_right _ ?_
      rw [old]
      exact hk
    · simp only [Duty.selectedWithout] at hk
      split at hk
      · cases hk
      · rename_i out
        exact Finset.mem_union_left _ (ahead_of_selected hw out (List.mem_toFinset.mp hk))
  | _ => cases hk

/-- A claim. -/
theorem front_of_claim (h : Lined cfg x) {i : ℕ} {ids : List ℕ} {site : Site}
    {v : MessageValues} {n : ℕ}
    (hφ : (delivery cfg).phase x.trace i = .due ids) (sending : v.status = .sending)
    (htr : x'.trace = .did i (.commit site [.updateMessages { ids := some ids } v]) (.ok n) ::
      x.trace)
    (rows : x'.shared.db.messages = applyUpdate { ids := some ids } v x.shared.db.messages)
    (hw' : Waiting next id x'.shared.db.messages) :
    ids.length + (inFront cfg next id x').card ≤ (inFront cfg next id x).card := by
  obtain rfl : i = 0 := h.first i (by rw [hφ]; rfl)
  have claimed : ∀ m' ∈ x'.shared.db.messages, m'.id ∈ ids → m'.status = .sending := by
    intro m' hm' hid
    rw [rows] at hm'
    obtain ⟨m, -, same, ⟨no, -⟩ | ⟨-, rfl⟩⟩ := mem_applyUpdate hm'
    · simp [MessageWhere.holds, same, hid] at no
    · exact sending
  have out : id ∉ ids := by
    intro hid
    obtain ⟨m, hm, rfl, queued, -⟩ := hw'
    rw [claimed m hm hid] at queued
    cases queued
  have front' : inFront cfg next id x' = ahead next id x'.shared.db.messages := by
    rw [inFront, htr, phase_did_apply, if_pos rfl, hφ]
    exact Finset.union_empty _
  have front : inFront cfg next id x = ahead next id x.shared.db.messages ∪ ids.toFinset := by
    rw [inFront, hφ, Duty.selectedWithout, if_neg out]
  have apart : Disjoint ids.toFinset (ahead next id x'.shared.db.messages) := by
    refine Finset.disjoint_left.mpr fun k hk hk' => ?_
    obtain ⟨m, hm, rfl, queued, -⟩ := mem_ahead.mp hk'
    rw [claimed m hm (List.mem_toFinset.mp hk)] at queued
    cases queued
  rw [front', front, ← List.toFinset_card_of_nodup (h.once 0 ids hφ),
    ← Finset.card_union_of_disjoint apart, Finset.union_comm]
  refine Finset.card_le_card (Finset.union_subset_union_left fun k hk => ?_)
  obtain ⟨m', hm', rfl, queued, before⟩ := mem_ahead.mp hk
  rw [rows] at hm'
  obtain ⟨m, hm, same, ⟨-, rfl⟩ | ⟨-, rfl⟩⟩ := mem_applyUpdate hm'
  · exact mem_ahead.mpr ⟨m', hm, rfl, queued, before⟩
  · rw [show (v.apply m).status = .sending from sending] at queued
    cases queued

/-- Every step pays for what it claims. -/
theorem front_of_step (h : Lined cfg x) (hs : (system cfg jobs).Step (dispatch cfg) x x')
    {e : Entry Op Op.Ans Job ℚ} (he : x'.trace = e :: x.trace)
    (hw : Waiting next id x.shared.db.messages) (hw' : Waiting next id x'.shared.db.messages) :
    (claimedBy e).length + (inFront cfg next id x').card ≤ (inFront cfg next id x).card +
      (ahead next id x'.shared.db.messages \ ahead next id x.shared.db.messages).card := by
  rcases upkeep_or_delivery hs with hs | ⟨i, hs⟩
  swap
  · obtain ⟨o, a, htr, hg⟩ := hs.did
    rw [he] at htr
    cases htr
    refine front_of_rest (queueClaims_upkeep hg).1 ?_
    rw [hs.duties]
    exact Finset.subset_union_right
  have selected := selected_in_front hw hs
  by_cases unclaimed : claimedBy e = []
  · exact front_of_rest unclaimed selected
  rcases rows_of_step hs with ⟨-, nothing⟩ | ⟨i, site, ss, htr, change⟩
  · refine absurd ?_ unclaimed
    cases e with
    | did i o a =>
      refine queueClaims_eq_nil fun site wh v n heq => ?_
      cases heq
      exact nothing _ _ _ _ he
    | _ => rfl
  · rw [he] at htr
    cases htr
    generalize hms : x'.shared.db.messages = ms at change
    cases change with
    | @update wh v hu =>
      rcases updates_cases hu with ⟨ids, now, hφ, -, rfl, rfl⟩ | ⟨-, -, rfl⟩ | ⟨-,
        -, -, other, -, -⟩
      · exact (front_of_claim h hφ rfl he hms hw').trans (Nat.le_add_right _ _)
      · exact absurd rfl unclaimed
      · exact absurd (by simp [claimedBy, queueClaims, other]) unclaimed
    | insert => exact absurd rfl unclaimed
    | delete => exact absurd rfl unclaimed
    | none noUpdate =>
      refine absurd (queueClaims_eq_nil fun site wh v n heq => ?_) unclaimed
      cases heq
      exact noUpdate _ _ rfl

/-- A run in which the message waits all the time: so many messages have been claimed in it, and
so many have got ahead of the message. -/
inductive Waits (cfg : Settings) (jobs : Job → Bool) (next : Time) (id : ℕ)
    (s : Pool Op Op.Ans Exc World Job ℚ) :
    ℕ → ℕ → Pool Op Op.Ans Exc World Job ℚ → Prop where
  | refl : Waiting next id s.shared.db.messages → Waits cfg jobs next id s 0 0 s
  | step {p q : ℕ} {s' s'' : Pool Op Op.Ans Exc World Job ℚ} {m : Move Choice Job ℚ}
      {e : Entry Op Op.Ans Job ℚ} :
      Waits cfg jobs next id s p q s' → (system cfg jobs).step m s' = some s'' →
        s''.trace = e :: s'.trace →
        Waiting next id s''.shared.db.messages → Waits cfg jobs next id s (p + (claimedBy e).length)
          (q + (ahead next id s''.shared.db.messages \ ahead next id s'.shared.db.messages).card)
            s''

theorem Waits.front {s s' : Pool Op Op.Ans Exc World Job ℚ} {p q : ℕ}
    (hw : Waits cfg jobs next id s p q s')
    (hj : ∀ j, jobs j = true → j.onMessages = true) (lined : Lined cfg s.toConfig)
    (inPhase : Machine.InPhase (dispatch cfg) s) :
    Lined cfg s'.toConfig ∧ Machine.InPhase (dispatch cfg) s' ∧
      Waiting next id s'.shared.db.messages ∧
      p + (inFront cfg next id s'.toConfig).card ≤ (inFront cfg next id s.toConfig).card + q := by
  induction hw with
  | refl waiting => exact ⟨lined, inPhase, waiting, by omega⟩
  | @step p q s' s'' m e _ hm he waiting ih =>
    obtain ⟨lined, inPhase, before, le⟩ := ih
    obtain ⟨hs, inPhase'⟩ := Machine.step_cases (dispatch_keeps hj) inPhase hm
    have pays := front_of_step lined hs he before waiting
    exact ⟨lined.step hs, inPhase', waiting, by omega⟩

/-- **Nobody is overtaken.** While a message waits, whatever runs meanwhile, no more messages are
claimed than were ahead of it when the wait began, or selected without it then, or have got ahead
of it since; and a `SELECT` that leaves it out when it is due fills its batch. -/
theorem overtaken_bounded (cfg : Settings) {jobs : Job → Bool} (hj : ∀ j, jobs j = true →
    j.onMessages = true)
    {w : World} (ids : (w.db.messages.map Message.id).Nodup) (empty : w.queue = [])
    {C : Moment → Moment → Prop}
    {s s' : Pool Op Op.Ans Exc World Job ℚ} (h : (system cfg jobs).Reachable C (Machine.boot w) s)
    {next : Time} {id p q : ℕ} (hw : Waits cfg jobs next id s p q s') :
    p + (ahead next id s'.shared.db.messages).card ≤ (ahead next id s.shared.db.messages).card +
        (((delivery cfg).phase s.trace 0).selectedWithout id).card + q ∧
      ∀ now limit, next ≤ now → id ∉ selectDue s'.shared.db.messages now limit →
        (selectDue s'.shared.db.messages now limit).length = limit := by
  have staged : Staged cfg ⟨w, []⟩ :=
    ⟨fun i hi => (by cases hi), fun i hi => (by cases hi), fun _ => ⟨empty, fun i => rfl⟩⟩
  obtain ⟨lined, inPhase⟩ := Machine.invariant (dispatch_keeps hj) (Lined cfg)
    ⟨staged, ids, fun i ids hi => (by cases hi)⟩ (fun hx hs _ => hx.step hs) h
  obtain ⟨-, -, waiting, le⟩ := hw.front hj lined inPhase
  refine ⟨?_, fun now limit due out => full_of_left_out waiting due out⟩
  have still : (ahead next id s'.shared.db.messages).card ≤
      (inFront cfg next id s'.toConfig).card :=
    Finset.card_le_card Finset.subset_union_left
  have start : (inFront cfg next id s.toConfig).card ≤ (ahead next id s.shared.db.messages).card +
      (((delivery cfg).phase s.trace 0).selectedWithout id).card := Finset.card_union_le _ _
  omega

namespace Example

/-- The first message is due, the second not for another second. -/
def oneLater : World :=
  { twoDue with up := true, db := { messages := [dueMessage 1, { dueMessage 2 with nextAttemptAt := 63923749201 }] } }

/-- The first message is claimed while the second waits. -/
theorem overtaken_bounded_oneLater : ∃ s,
    Waits oneStrike Job.onMessages 63923749201 2 (Machine.boot oneLater) 1 0 s ∧
      (ahead 63923749201 2 oneLater.db.messages).card = 1 ∧
      1 + (ahead 63923749201 2 s.shared.db.messages).card ≤
        (ahead 63923749201 2 oneLater.db.messages).card +
        (Duty.idle.selectedWithout 2).card + 0 ∧
        ∀ now limit, 63923749201 ≤ now → 2 ∉ selectDue s.shared.db.messages now limit →
          (selectDue s.shared.db.messages now limit).length = limit := by
  have waiting : ∀ m₁,
      Waiting 63923749201 2 [m₁, { dueMessage 2 with nextAttemptAt := 63923749201 }] :=
    fun _ => ⟨_, .tail _ (.head _), rfl, rfl, rfl⟩
  have start : Waits oneStrike Job.onMessages 63923749201 2 (Machine.boot oneLater) 0 0 (Machine.boot oneLater) :=
    .refl (waiting _)
  have started := start.step (m := .start 0 .producer) rfl rfl (waiting _)
  have told := started.step (m := .run 0 .ok) rfl rfl (waiting _)
  have selected := told.step (m := .run 0 .ok) rfl rfl (waiting _)
  have flushed := selected.step (m := .run 0 .ok) rfl rfl (waiting _)
  have claimed := flushed.step (m := .run 0 .ok) rfl rfl (waiting _)
  obtain ⟨s, hw⟩ : ∃ s, Waits oneStrike Job.onMessages 63923749201 2
      (Machine.boot oneLater) 1 0 s := ⟨_, claimed⟩
  exact ⟨s, hw, by decide +kernel,
    overtaken_bounded (C := Machine.Free) oneStrike (fun _ h => h) (by decide) rfl .refl hw⟩

end Example

end SmtpSwitch
