import SmtpSwitch.Delivery.Columns

/-!
# The retention sweep

The sweep selects messages that have reached their end, deletes them in a later step, and
removes their files after that. A message it has selected may have been requeued before it is
deleted: the trace tells (`liveSince`). As long as no such row is among those deleted, no
message is deleted that has not reached its end; and a file that is removed never belongs to a
message that is still there, since no two messages share a file (`live_never_deleted`). -/

namespace SmtpSwitch

open Coop Coop.Prog

/-! ### What the trace tells -/

/-- Whether an update of a message leaves it live; `none` if the entry is no update that names it.
-/
def revives (id : ℕ) : Entry Op Op.Ans Job ℚ → Option Bool
  | .did _ (.commit _ [.updateMessages wh v]) (.ok _) =>
    if id ∈ wh.ids.getD [] then some (!v.status.terminal) else none
  | .did _ (.commit _ [.updateMessage id' v]) (.ok _) =>
      if id' = id then some (!v.status.terminal) else none
  | _ => none

/-- The newest update of the message since task `i` was started leaves it live. -/
def liveSince (i id : ℕ) (tr : List (Entry Op Op.Ans Job ℚ)) : Bool :=
  ((tr.takeWhile fun e => !starts i e).findSome? (revives id)).getD false

theorem liveSince_cons (i id : ℕ) (e : Entry Op Op.Ans Job ℚ) (tr : List (Entry Op Op.Ans Job ℚ)) :
    liveSince i id (e :: tr) = if starts i e then false else (revives id e).getD
      (liveSince i id tr) := by
  unfold liveSince
  cases hs : starts i e with
  | true => simp [hs]
  | false => cases hc : revives id e <;> simp [hs, hc]

/-! ### The files at hand -/

/-- The file of a message that is not stored yet, or could not be. -/
def Duty.file : Duty → Option String
  | .spooled _ path | .unstored path => some path
  | _ => none

/-- The sweep is at work. -/
def Upkeep.sweeps : Upkeep → Bool
  | .sweep | .sweeping _ | .swept _ _ _ | .unlinking _ _ => true
  | _ => false

/-- The plans of a sweep. -/
def Upkeep.plans : Upkeep → List (MessageStatus × Time)
  | .sweeping plans | .unlinking _ plans => plans
  | .swept plan _ plans => plan :: plans
  | _ => []

section Next

/-- A task gets a file at hand by spooling a message. -/
theorem file_of_next {φ : Duty} {o : Op} {a : o.Ans} {path : String}
    (h : (φ.next o a).file = some path) :
    φ.file = some path ∨ ∃ content, φ = .idle ∧ (⟨o, a⟩ : Σ o : Op, o.Ans) =
      ⟨.spoolWrite content, path⟩ := by
  have next := φ.next_cases o a
  generalize φ.next o a = φ' at h next
  cases next with
  | same => exact .inl h
  | unstored => exact .inl h
  | spooled =>
    cases h
    exact .inr ⟨_, rfl, rfl⟩
  | _ => cases h

variable {cfg : Settings} {u : Upkeep} {o : Op} {a : o.Ans}

theorem plansLeft_cases (plans : List (MessageStatus × Time)) :
    Upkeep.plansLeft plans = .idle ∨ Upkeep.plansLeft plans = .sweeping plans := by
  cases plans with
  | nil => exact .inl rfl
  | cons => exact .inr rfl

theorem filesLeft_cases (plans : List (MessageStatus × Time)) (rows : List (ℕ × String)) :
    Upkeep.filesLeft plans rows = .idle ∨ Upkeep.filesLeft plans rows = .sweeping plans ∨
      Upkeep.filesLeft plans rows = .unlinking rows plans := by
  cases rows with
  | nil =>
    rcases plansLeft_cases plans with h | h
    · exact .inl h
    · exact .inr (.inl h)
  | cons => exact .inr (.inr rfl)

theorem filesLeft_eq {plans plans' : List (MessageStatus × Time)} {rows rows' : List (ℕ × String)}
    (h : Upkeep.filesLeft plans rows = .unlinking rows' plans') :
    rows = rows' ∧ plans = plans' := by
  obtain he | he | he := filesLeft_cases plans rows <;> rw [he] at h <;> cases h
  exact ⟨rfl, rfl⟩

theorem plans_plansLeft {plans : List (MessageStatus × Time)} {plan : MessageStatus × Time}
    (h : plan ∈ (Upkeep.plansLeft plans).plans) : plan ∈ plans := by
  obtain he | he := plansLeft_cases plans <;> rw [he] at h
  · cases h
  · exact h

theorem plans_filesLeft {plans : List (MessageStatus × Time)} {rows : List (ℕ × String)}
    {plan : MessageStatus × Time} (h : plan ∈ (Upkeep.filesLeft plans rows).plans) :
    plan ∈ plans := by
  obtain he | he | he := filesLeft_cases plans rows <;> rw [he] at h
  · cases h
  · exact h
  · exact h

/-- Rows are selected by the first of the plans. -/
theorem swept_of_next {plan : MessageStatus × Time} {rows : List (ℕ × String)}
    {plans : List (MessageStatus × Time)}
    (h : u.next cfg o a = .swept plan rows plans) : u = .swept plan rows plans ∨
      u = .sweeping (plan :: plans) ∧ ∃ site status cut limit,
        (⟨o, a⟩ : Σ o : Op, o.Ans) = ⟨.select site (.expiredMessages status cut limit),
          .ok rows⟩ := by
  revert h
  fun_cases Upkeep.next cfg u o a
  all_goals
    intro h
    first
    | exact .inl h
    | (cases h; exact .inr ⟨rfl, _, _, _, _, rfl⟩)
    | cases h
    | (obtain he | he := plansLeft_cases _ <;> rw [he] at h <;> cases h)
    | (obtain he | he | he := filesLeft_cases _ _ <;> rw [he] at h <;> cases h)

/-- Files are removed after their rows have been deleted. -/
theorem unlinking_of_next {rows : List (ℕ × String)} {plans : List (MessageStatus × Time)}
    (h : u.next cfg o a = .unlinking rows plans) :
    (∃ rows', u = .unlinking rows' plans ∧ ∀ y ∈ rows, y ∈ rows') ∨
      ∃ plan site s ss n, u = .swept plan rows plans ∧
        (⟨o, a⟩ : Σ o : Op, o.Ans) = ⟨.commit site (s :: ss), .ok n⟩ := by
  revert h
  fun_cases Upkeep.next cfg u o a
  all_goals
    intro h
    first
    | exact .inl ⟨_, h, fun _ hy => hy⟩
    | cases h
    | (obtain he | he := plansLeft_cases _ <;> rw [he] at h <;> cases h)
    | (obtain ⟨rfl, rfl⟩ := filesLeft_eq h;
        exact .inl ⟨_, rfl, fun _ hy => List.mem_of_mem_tail hy⟩)
    | skip
  -- the rows have just been deleted
  rename_i plan rows plans site ss n nonempty
  obtain ⟨rfl, rfl⟩ := filesLeft_eq h
  cases ss with
  | nil => exact absurd rfl nonempty
  | cons s ss => exact .inr ⟨plan, site, s, ss, n, rfl, rfl⟩

/-- A sweep's plans are made at its beginning. -/
theorem plans_of_next {plan : MessageStatus × Time} (h : plan ∈ (u.next cfg o a).plans) :
    plan ∈ u.plans ∨ ∃ now, (⟨o, a⟩ : Σ o : Op, o.Ans) = ⟨.utcnow, now⟩ ∧
      plan ∈ retentionPlans cfg now := by
  revert h
  fun_cases Upkeep.next cfg u o a
  all_goals
    intro h
    first
    | exact .inl h
    | cases h
    | exact .inr ⟨_, rfl, plans_plansLeft h⟩
    | exact .inl (List.mem_cons_of_mem _ (plans_plansLeft h))
    | exact .inl (List.mem_cons_of_mem _ (plans_filesLeft h))
    | exact .inl (plans_filesLeft h)

/-- A task sweeps all along. -/
theorem sweeps_of_next (h : (u.next cfg o a).sweeps = true) : u.sweeps = true := by
  revert h
  fun_cases Upkeep.next cfg u o a
  all_goals
    intro h
    first
    | exact h
    | rfl

end Next

/-! ### The invariant -/

section Invariants

variable (cfg : Settings)

/-- The files are each message's own, and the rows a sweep has selected are at their end unless
they have been revived. -/
structure Filed (x : Moment) : Prop where
  calm : ∀ i, (delivery cfg).phase x.trace i ≠ .deleting ∧ (delivery cfg).phase x.trace i ≠ .deleted
  sweeper : ∀ i, ((upkeep cfg).phase x.trace i).sweeps = true → i = 1
  plans : ∀ i, ∀ plan ∈ ((upkeep cfg).phase x.trace i).plans, plan.1.terminal = true
  ids : (x.shared.db.messages.map Message.id).Nodup
  paths : (x.shared.db.messages.map Message.spoolPath).Nodup
  named : ∀ m ∈ x.shared.db.messages, m.spoolPath ∈ x.shared.names
  spooled : ∀ i path, ((delivery cfg).phase x.trace i).file = some path →
    path ∈ x.shared.names ∧ (∀ m ∈ x.shared.db.messages, m.spoolPath ≠ path) ∧
      ∀ k, ((delivery cfg).phase x.trace k).file = some path → k = i
  swept : ∀ i plan rows plans, (upkeep cfg).phase x.trace i = .swept plan rows plans → ∀ y ∈ rows,
    y.1 ∈ x.shared.db.messages.map Message.id ∧ y.2 ∈ x.shared.names ∧
      (∀ k, ((delivery cfg).phase x.trace k).file ≠ some y.2) ∧
      ∀ m ∈ x.shared.db.messages, m.spoolPath = y.2 → m.id = y.1
  listed : ∀ i plan rows plans, (upkeep cfg).phase x.trace i = .swept plan rows plans → ∀ y ∈ rows,
    ∀ m ∈ x.shared.db.messages, m.id = y.1 → liveSince i y.1 x.trace = false →
      m.status.terminal = true
  unlinking : ∀ i rows plans, (upkeep cfg).phase x.trace i = .unlinking rows plans → ∀ y ∈ rows,
    y.2 ∈ x.shared.names ∧ (∀ k, ((delivery cfg).phase x.trace k).file ≠ some y.2) ∧
      ∀ m ∈ x.shared.db.messages, m.spoolPath ≠ y.2

variable {cfg} {jobs : Job → Bool} {x x' : Moment}

/-- What a step does to the rows, as their files see it. -/
inductive FileChange (cfg : Settings) (x x' : Moment) : Prop where
  /-- The rows keep their ids and files. -/
  | kept : x'.shared.db.messages.map (fun m => (m.id, m.spoolPath)) =
      x.shared.db.messages.map (fun m => (m.id, m.spoolPath)) → FileChange cfg x x'
  /-- A message that a task has at hand is stored. -/
  | stored {i : ℕ} {site : Site} {row : Message} {content : Bytes} :
      (delivery cfg).phase x.trace i = .spooled content row.spoolPath →
      x'.trace = .did i (.commit site [.insertMessage row])
        (.ok (nextId (x.shared.db.messages.map Message.id))) :: x.trace →
      x'.shared.db.messages = x.shared.db.messages ++
        [{ row with id := nextId (x.shared.db.messages.map Message.id) }] →
        FileChange cfg x x'
  /-- A sweep deletes the rows it has selected. -/
  | swept {i : ℕ} {site : Site} {plan : MessageStatus × Time} {rows : List (ℕ × String)}
      {plans : List (MessageStatus × Time)} {n : ℕ} :
      (upkeep cfg).phase x.trace i = .swept plan rows plans →
      x'.trace = .did i (.commit site [.deleteAttempts (rows.map Prod.fst),
        .deleteMessages (rows.map Prod.fst)])
        (.ok n) :: x.trace →
      x'.shared.db.messages = (x.shared.db.messages.filter fun m => m.id ∉ rows.map Prod.fst) →
        FileChange cfg x x'

theorem files_applyUpdate (wh : MessageWhere) (v : MessageValues) (ms : List Message) :
    (applyUpdate wh v ms).map (fun m => (m.id, m.spoolPath)) = ms.map fun m =>
    (m.id, m.spoolPath) := by
  simp only [applyUpdate, List.map_map]
  refine List.map_congr_left fun m _ => ?_
  simp only [Function.comp_apply]
  split <;> rfl

theorem fileChange_of_step (h : Filed cfg x) (hs : (system cfg jobs).Step (dispatch cfg) x x') :
    FileChange cfg x x' := by
  rcases upkeep_or_delivery hs with hs | ⟨i, hs⟩
  · rcases rows_of_step hs with ⟨same, -⟩ | ⟨i, site, ss, htr, change⟩
    · exact .kept (by rw [same])
    generalize hms : x'.shared.db.messages = ms at change
    cases change with
    | insert hφ => exact .stored hφ htr hms
    | update => exact .kept (by rw [hms, files_applyUpdate])
    | delete hφ => exact absurd hφ (h.calm i).1
    | none => exact .kept (by rw [hms])
  · cases hs.change with
    | none same => exact .kept (by rw [same])
    | requeued _ _ _ rows => exact .kept (by rw [rows, files_applyUpdate])
    | swept hu htr rows => exact .swept hu htr rows

theorem revives_of_upkeep {u : Upkeep} {o : Op} {a : o.Ans} (h : u.good o a) {i id : ℕ} {b : Bool}
    (hr : revives id (.did i o a) = some b) : b = true := by
  cases o with
  | commit site ss =>
    rcases ss with _ | ⟨s, _ | ⟨s', rest⟩⟩
    · cases hr
    · cases s with
      | updateMessage id' v =>
        obtain ⟨row, now, -, rfl⟩ := h
        cases a with
        | error e => cases hr
        | ok n =>
          simp only [revives] at hr
          split at hr <;> cases hr
          rfl
      | _ => cases h
    · cases s <;> cases hr
  | _ => cases hr

/-- What an update of the dispatcher's leaves of a row. -/
theorem ended_of_update {φ : Duty} {wh : MessageWhere} {v : MessageValues} (hu : Updates cfg φ wh v)
    {ms : List Message} {m' : Message} (hm' : m' ∈ applyUpdate wh v ms) :
    (m'.id ∈ wh.ids.getD [] → v.status.terminal = true → m'.status.terminal = true) ∧
      (m'.id ∉ wh.ids.getD [] → ∃ m ∈ ms, m.id = m'.id ∧
        (m.status.terminal = true → m'.status.terminal = true)) := by
  obtain ⟨m, hm, hid, ⟨hw, rfl⟩ | ⟨hw, rfl⟩⟩ := mem_applyUpdate hm'
  · refine ⟨fun named ended => ?_, fun _ => ⟨m', hm, rfl, id⟩⟩
    cases hu with
    | markSent | deadletter => simp_all [MessageWhere.holds]
    | _ => cases ended
  · have listed : ∀ ids, wh.ids = some ids → m.id ∈ ids := by
      intro ids hids
      simp only [MessageWhere.holds, hids, Option.all_some, Bool.and_eq_true,
        decide_eq_true_eq] at hw
      exact hw.1
    refine ⟨fun _ ended => ended, fun other => ⟨m, hm, hid, fun ended => ?_⟩⟩
    cases hu with
    | recover =>
      simp only [MessageWhere.holds, Option.all_some, Option.all_none, Bool.true_and,
        decide_eq_true_eq] at hw
      rw [hw] at ended
      cases ended
    | _ => exact absurd (listed _ rfl) other

/-- A row at its end stays there, unless an update is seen to revive it. -/
theorem ended_of_step (h : Filed cfg x) (hs : (system cfg jobs).Step (dispatch cfg) x x')
    {e : Entry Op Op.Ans Job ℚ} (he : x'.trace = e :: x.trace) {m' : Message}
    (hm' : m' ∈ x'.shared.db.messages) (old : m'.id ∈ x.shared.db.messages.map Message.id) :
    (revives m'.id e = some false → m'.status.terminal = true) ∧ (revives m'.id e = none →
      ∃ m ∈ x.shared.db.messages, m.id = m'.id ∧
        (m.status.terminal = true → m'.status.terminal = true)) := by
  have requeue : ∀ i site id v n, e = .did i (.commit site [.updateMessage id v]) (.ok n) →
      revives m'.id e ≠ some false := by
    intro i site id v n heq hr
    subst heq
    obtain ⟨row, now, -, rfl⟩ := requeueing_of_step hs he
    simp only [revives] at hr
    split at hr <;> cases hr
  rcases upkeep_or_delivery hs with hs | ⟨i, hs⟩
  · rcases rows_of_step hs with ⟨same, nothing⟩ | ⟨i, site, ss, htr, change⟩
    · rw [same] at hm'
      refine ⟨fun hr => ?_, fun _ => ⟨m', hm', rfl, id⟩⟩
      unfold revives at hr
      split at hr
      · exact absurd he (nothing _ _ _ _)
      · exact absurd he (nothing _ _ _ _)
      · cases hr
    rw [he] at htr
    cases htr
    generalize x'.shared.db.messages = ms at change hm'
    cases change with
    | insert =>
      refine ⟨fun hr => (by cases hr), fun _ => ?_⟩
      rcases List.mem_append.mp hm' with hm' | hm'
      · exact ⟨m', hm', rfl, id⟩
      · rw [List.mem_singleton.mp hm'] at old
        exact absurd (lt_nextId old) (lt_irrefl _)
    | delete hφ => exact absurd hφ (h.calm i).1
    | none noUpdate =>
      refine ⟨fun hr => ?_, fun _ => ⟨m', hm', rfl, id⟩⟩
      unfold revives at hr
      split at hr
      · rename_i heq
        cases heq
        exact absurd rfl (noUpdate _ _)
      · rename_i heq
        cases heq
        exact absurd hr (requeue _ _ _ _ _ rfl)
      · cases hr
    | @update wh v hu =>
      obtain ⟨named, other⟩ := ended_of_update hu hm'
      have said : revives m'.id (.did i (.commit site [.updateMessages wh v])
          (.ok (x.shared.db.insertedId [.updateMessages wh v]))) =
            if m'.id ∈ wh.ids.getD [] then some (!v.status.terminal) else none := rfl
      rw [said]
      by_cases hn : m'.id ∈ wh.ids.getD []
      · rw [if_pos hn]
        exact ⟨fun hr => named hn (by simpa using hr), fun hr => (by cases hr)⟩
      · rw [if_neg hn]
        exact ⟨fun hr => (by cases hr), fun _ => other hn⟩
  · obtain ⟨o, a, htr, good⟩ := hs.did
    rw [he] at htr
    cases htr
    refine ⟨fun hr => ?_, fun hr => ?_⟩
    · cases revives_of_upkeep good hr
    · rcases hs.row hm' with hm | ⟨site, id₀, row, now, n, -, htr, m, hm, hid, rfl⟩
      · exact ⟨m', hm, rfl, id⟩
      · rw [he] at htr
        cases htr
        have named : id₀ = ((requeueValues row now).apply m).id := hid.symm
        simp [revives, named] at hr

section Did

variable {w w' : World} {tr : List (Entry Op Op.Ans Job ℚ)} {i : ℕ} {o : Op}
  {a : o.Ans} {c : Choice}

/-- Names are not forgotten. -/
theorem names_did (he : exec cfg i o c w = some (a, w')) {path : String} (h : path ∈ w.names) :
    path ∈ w'.names := by
  by_cases part : o.part = some .files
  · cases o with
    | spoolWrite content =>
      obtain ⟨-, rfl⟩ := exec_spoolWrite he
      exact List.mem_cons_of_mem _ h
    | spoolDelete path =>
      rw [exec_spoolDelete he]
      exact h
    | _ => cases part
  · rw [((exec_frame cfg he).files part).2]
    exact h

/-- A file that a task has at hand was there before, or has just got a new name. -/
theorem file_did (he : exec cfg i o c w = some (a, w')) {k : ℕ} {path : String}
    (h : ((delivery cfg).phase (.did i o a :: tr) k).file = some path) :
    ((delivery cfg).phase tr k).file = some path ∨
      k = i ∧ path ∉ w.names ∧ path ∈ w'.names ∧ w'.db = w.db ∧ ∀ site ss, o ≠ .commit site ss := by
  rw [phase_did_apply] at h
  split at h
  · subst k
    rcases file_of_next h with old | ⟨content, -, heq⟩
    · exact .inl old
    · cases heq
      obtain ⟨fresh, rfl⟩ := exec_spoolWrite he
      exact .inr ⟨rfl, fresh, List.mem_cons_self, rfl, fun _ _ h => (by cases h)⟩
  · exact .inl h

/-- Where the file of a row comes from. -/
theorem FileChange.origin (change : FileChange cfg ⟨w, tr⟩ ⟨w', .did i o a :: tr⟩) {m' : Message}
    (hm' : m' ∈ w'.db.messages) : (∃ m ∈ w.db.messages, m.id = m'.id ∧ m.spoolPath = m'.spoolPath) ∨
      ((delivery cfg).phase tr i).file = some m'.spoolPath ∧
        m'.id = nextId (w.db.messages.map Message.id) ∧
        ((delivery cfg).phase (.did i o a :: tr) i).file = none := by
  cases change with
  | kept same =>
    have there := List.mem_map_of_mem (f := fun m : Message => (m.id, m.spoolPath)) hm'
    rw [show w'.db.messages.map _ = _ from same] at there
    obtain ⟨m, hm, heq⟩ := List.mem_map.mp there
    exact .inl ⟨m, hm, (Prod.mk.inj heq).1, (Prod.mk.inj heq).2⟩
  | @stored k site row content hφ htr rows =>
    cases htr
    rw [show w'.db.messages = _ from rows] at hm'
    rcases List.mem_append.mp hm' with hm | hm
    · exact .inl ⟨m', hm, rfl, rfl⟩
    · obtain rfl := List.mem_singleton.mp hm
      refine .inr ⟨?_, rfl, ?_⟩
      · rw [show (delivery cfg).phase tr i = _ from hφ]
        rfl
      · rw [phase_did_apply, if_pos rfl, show (delivery cfg).phase tr i = _ from hφ]
        rfl
  | swept _ _ rows =>
    rw [show w'.db.messages = _ from rows] at hm'
    exact .inl ⟨m', List.mem_of_mem_filter hm', rfl, rfl⟩

/-- The files of the rows stay each message's own. -/
theorem Filed.rows_did (h : Filed cfg ⟨w, tr⟩)
    (change : FileChange cfg ⟨w, tr⟩ ⟨w', .did i o a :: tr⟩) :
    (w'.db.messages.map Message.id).Nodup ∧ (w'.db.messages.map Message.spoolPath).Nodup := by
  cases change with
  | kept same =>
    have ids := congrArg (List.map Prod.fst) same
    have paths := congrArg (List.map Prod.snd) same
    simp only [List.map_map] at ids paths
    exact ⟨ids.symm ▸ h.ids, paths.symm ▸ h.paths⟩
  | @stored k site row content hφ htr rows =>
    rw [show w'.db.messages = _ from rows]
    refine ⟨ids_insert h.ids row, ?_⟩
    rw [List.map_append, List.nodup_append]
    refine ⟨h.paths, List.nodup_singleton _, fun p hp q hq => ?_⟩
    obtain rfl := List.mem_singleton.mp hq
    obtain ⟨m, hm, rfl⟩ := List.mem_map.mp hp
    exact (h.spooled k row.spoolPath (by rw [hφ]; rfl)).2.1 m hm
  | swept _ _ rows =>
    rw [show w'.db.messages = _ from rows]
    exact ⟨h.ids.sublist (List.filter_sublist.map _), h.paths.sublist (List.filter_sublist.map _)⟩

theorem Filed.spooled_did (h : Filed cfg ⟨w, tr⟩) (he : exec cfg i o c w = some (a, w'))
    (change : FileChange cfg ⟨w, tr⟩ ⟨w', .did i o a :: tr⟩) {k : ℕ} {path : String}
    (hk : ((delivery cfg).phase (.did i o a :: tr) k).file = some path) :
    path ∈ w'.names ∧ (∀ m ∈ w'.db.messages, m.spoolPath ≠ path) ∧
      ∀ l, ((delivery cfg).phase (.did i o a :: tr) l).file = some path → l = k := by
  rcases file_did he hk with old | ⟨rfl, fresh, named, same, -⟩
  · obtain ⟨named, rows, alone⟩ := h.spooled k path old
    refine ⟨names_did he named, fun m' hm' heq => ?_, fun l hl => ?_⟩
    · rcases change.origin hm' with ⟨m, hm, -, hp⟩ | ⟨mine, -, gone⟩
      · exact rows m hm (hp.trans heq)
      · rw [heq] at mine
        obtain rfl := alone i mine
        rw [hk] at gone
        cases gone
    · rcases file_did he hl with old' | ⟨-, fresh, -⟩
      · exact alone l old'
      · exact absurd named fresh
  · refine ⟨named, fun m hm heq => ?_, fun l hl => ?_⟩
    · rw [same] at hm
      exact fresh (heq ▸ h.named m hm)
    · rcases file_did he hl with old' | ⟨rfl, -⟩
      · exact absurd (h.spooled l path old').1 fresh
      · rfl

/-- A file that is nobody's at hand and stands in `names` is not taken up. -/
theorem Filed.not_at_hand (he : exec cfg i o c w = some (a, w')) {path : String}
    (named : path ∈ w.names) (unfiled : ∀ k, ((delivery cfg).phase tr k).file ≠ some path) (k : ℕ) :
    ((delivery cfg).phase (.did i o a :: tr) k).file ≠ some path := by
  intro hk
  rcases file_did he hk with old | ⟨-, fresh, -⟩
  · exact unfiled k old
  · exact fresh named

/-- While a sweep has rows selected, they stay. -/
theorem FileChange.stays (change : FileChange cfg ⟨w, tr⟩ ⟨w', .did i o a :: tr⟩)
    {plan : MessageStatus × Time}
    {rows : List (ℕ × String)} {plans : List (MessageStatus × Time)} (sweeper : ∀ k,
      ((upkeep cfg).phase tr k).sweeps = true → k = 1) {k : ℕ}
    (hk : (upkeep cfg).phase tr k = .swept plan rows plans)
    (hk' : (upkeep cfg).phase (.did i o a :: tr) k = .swept plan rows plans) {id : ℕ}
    (h : id ∈ w.db.messages.map Message.id) : id ∈ w'.db.messages.map Message.id := by
  cases change with
  | kept same =>
    have ids := congrArg (List.map Prod.fst) same
    simp only [List.map_map] at ids
    exact ids.symm ▸ h
  | stored _ _ rows =>
    rw [show w'.db.messages = _ from rows, List.map_append]
    exact List.mem_append_left _ h
  | @swept l site plan' rows' plans' n hu htr _ =>
    -- it would be the same sweep, and past its delete
    cases htr
    have one := sweeper i (by rw [show (upkeep cfg).phase tr i = _ from hu]; rfl)
    obtain rfl : k = i := (sweeper k (by rw [hk]; rfl)).trans one.symm
    rw [phase_upkeep_did, if_pos rfl, hk] at hk'
    change Upkeep.filesLeft plans rows = _ at hk'
    obtain he | he | he := filesLeft_cases plans rows <;> rw [he] at hk' <;> cases hk'

/-- A sweep's `SELECT`. -/
theorem selected_did (he : exec cfg i o c w = some (a, w'))
    (hg : (dispatch cfg).good ((dispatch cfg).phase tr i) o a) {plan : MessageStatus × Time}
    {plans : List (MessageStatus × Time)} {rows : List (ℕ × String)} {site : Site}
    {status : MessageStatus} {cut : Time}
    {limit : ℕ} (hi : (upkeep cfg).phase tr i = .sweeping (plan :: plans))
    (heq : (⟨o, a⟩ : Σ o : Op, o.Ans) = ⟨.select site (.expiredMessages status cut limit),
      .ok rows⟩) :
    w' = w ∧ plan = (status, cut) ∧
      ∀ y ∈ rows, ∃ m ∈ w.db.messages, y = (m.id, m.spoolPath) ∧ m.status = plan.1 ∧
        m.receivedAt < plan.2 := by
  cases heq
  rcases dispatch_good hg with ⟨idle, -⟩ | ⟨-, good⟩
  · rw [hi] at idle
    cases idle
  obtain ⟨plans', hu⟩ := good
  rw [hi] at hu
  cases hu
  obtain ⟨hans, rfl⟩ := exec_select he
  refine ⟨rfl, rfl, fun y hy => ?_⟩
  rcases hans with hans | ⟨e, hans⟩
  · rw [Except.ok.inj hans] at hy
    obtain ⟨m, hm, rfl⟩ := List.mem_map.mp hy
    have hm := List.mem_filter.mp (List.mem_of_mem_take hm)
    obtain ⟨hs, old⟩ := of_decide_eq_true hm.2
    exact ⟨m, hm.1, rfl, hs, old⟩
  · cases hans

theorem Filed.swept_did (h : Filed cfg ⟨w, tr⟩) (he : exec cfg i o c w = some (a, w'))
    (hg : (dispatch cfg).good ((dispatch cfg).phase tr i) o a)
    (change : FileChange cfg ⟨w, tr⟩ ⟨w', .did i o a :: tr⟩) {k : ℕ} {plan : MessageStatus × Time}
    {rows : List (ℕ × String)} {plans : List (MessageStatus × Time)}
    (hk : (upkeep cfg).phase (.did i o a :: tr) k = .swept plan rows plans) {y : ℕ × String}
    (hy : y ∈ rows) :
    y.1 ∈ w'.db.messages.map Message.id ∧ y.2 ∈ w'.names ∧
      (∀ k, ((delivery cfg).phase (.did i o a :: tr) k).file ≠ some y.2) ∧
      ∀ m ∈ w'.db.messages, m.spoolPath = y.2 → m.id = y.1 := by
  have old : (upkeep cfg).phase tr k = .swept plan rows plans →
      y.1 ∈ w'.db.messages.map Message.id ∧
      y.2 ∈ w'.names ∧ (∀ k, ((delivery cfg).phase (.did i o a :: tr) k).file ≠ some y.2) ∧
      ∀ m ∈ w'.db.messages, m.spoolPath = y.2 → m.id = y.1 := by
    intro was
    obtain ⟨there, named, none, rowsOf⟩ := h.swept k plan rows plans was y hy
    refine ⟨change.stays h.sweeper was hk there, names_did he named,
      Filed.not_at_hand he named none, fun m' hm' heq => ?_⟩
    rcases change.origin hm' with ⟨m, hm, hid, hp⟩ | ⟨mine, -, -⟩
    · exact hid.symm.trans (rowsOf m hm (hp.trans heq))
    · exact absurd (heq ▸ mine) (none i)
  have hk' := hk
  rw [phase_upkeep_did] at hk'
  split at hk'
  · subst k
    rcases swept_of_next hk' with was | ⟨hi, site, status, cut, limit, heq⟩
    · exact old was
    · obtain ⟨rfl, -, selected⟩ := selected_did he hg hi heq
      obtain ⟨m, hm, rfl, -, -⟩ := selected y hy
      have unfiled : ∀ k, ((delivery cfg).phase tr k).file ≠ some m.spoolPath :=
        fun k hk => (h.spooled k _ hk).2.1 m hm rfl
      refine ⟨List.mem_map_of_mem hm, h.named m hm, Filed.not_at_hand he (h.named m hm) unfiled,
        fun m' hm' heq => ?_⟩
      rw [List.inj_on_of_nodup_map h.paths hm' hm heq]
  · exact old hk'

theorem Filed.listed_did (h : Filed cfg ⟨w, tr⟩)
    (hs : (system cfg jobs).Step (dispatch cfg) ⟨w, tr⟩ ⟨w', .did i o a :: tr⟩)
    (he : exec cfg i o c w = some (a, w'))
    (hg : (dispatch cfg).good ((dispatch cfg).phase tr i) o a)
    {k : ℕ} {plan : MessageStatus × Time} {rows : List (ℕ × String)}
    {plans : List (MessageStatus × Time)}
    (hk : (upkeep cfg).phase (.did i o a :: tr) k = .swept plan rows plans) {y : ℕ × String}
    (hy : y ∈ rows) {m' : Message} (hm' : m' ∈ w'.db.messages) (hid : m'.id = y.1)
    (unrevived : liveSince k y.1 (.did i o a :: tr) = false) :
    m'.status.terminal = true := by
  rw [liveSince_cons] at unrevived
  simp only [starts, Bool.false_eq_true, if_false] at unrevived
  have old : (upkeep cfg).phase tr k = .swept plan rows plans → m'.status.terminal = true := by
    intro was
    have there : m'.id ∈ w.db.messages.map Message.id :=
      hid ▸ (h.swept k plan rows plans was y hy).1
    obtain ⟨named, other⟩ := ended_of_step h hs rfl hm' there
    rw [← hid] at unrevived
    cases hr : revives m'.id (.did i o a) with
    | some b =>
      rw [hr] at unrevived
      obtain rfl : b = false := unrevived
      exact named hr
    | none =>
      rw [hr] at unrevived
      obtain ⟨m, hm, hmid, stays⟩ := other hr
      exact stays (h.listed k plan rows plans was y hy m hm (hmid.trans hid) (hid ▸ unrevived))
  rw [phase_upkeep_did] at hk
  split at hk
  · subst k
    rcases swept_of_next hk with was | ⟨hi, site, status, cut, limit, heq⟩
    · exact old was
    · obtain ⟨rfl, -, selected⟩ := selected_did he hg hi heq
      obtain ⟨m, hm, rfl, ended, -⟩ := selected y hy
      rw [List.inj_on_of_nodup_map h.ids hm' hm hid, ended]
      exact h.plans i plan (by rw [hi]; exact List.mem_cons_self)
  · exact old hk

theorem Filed.unlinking_did (h : Filed cfg ⟨w, tr⟩) (he : exec cfg i o c w = some (a, w'))
    (hg : (dispatch cfg).good ((dispatch cfg).phase tr i) o a)
    (change : FileChange cfg ⟨w, tr⟩ ⟨w', .did i o a :: tr⟩) {k : ℕ}
    {rows : List (ℕ × String)} {plans : List (MessageStatus × Time)}
    (hk : (upkeep cfg).phase (.did i o a :: tr) k = .unlinking rows plans) {y : ℕ × String}
    (hy : y ∈ rows) :
    y.2 ∈ w'.names ∧ (∀ k, ((delivery cfg).phase (.did i o a :: tr) k).file ≠ some y.2) ∧
      ∀ m ∈ w'.db.messages, m.spoolPath ≠ y.2 := by
  have old : ∀ rows', (upkeep cfg).phase tr k = .unlinking rows' plans → y ∈ rows' →
      y.2 ∈ w'.names ∧
      (∀ k, ((delivery cfg).phase (.did i o a :: tr) k).file ≠ some y.2) ∧ ∀ m ∈ w'.db.messages,
        m.spoolPath ≠ y.2 := by
    intro rows' was hy
    obtain ⟨named, none, rowsOf⟩ := h.unlinking k rows' plans was y hy
    refine ⟨names_did he named, Filed.not_at_hand he named none, fun m' hm' heq => ?_⟩
    rcases change.origin hm' with ⟨m, hm, -, hp⟩ | ⟨mine, -, -⟩
    · exact rowsOf m hm (hp.trans heq)
    · exact none i (heq ▸ mine)
  rw [phase_upkeep_did] at hk
  split at hk
  · subst k
    rcases unlinking_of_next hk with ⟨rows', was, sub⟩ | ⟨plan, site, s, ss, n, was, heq⟩
    · exact old rows' was (sub y hy)
    · -- the rows have just been deleted
      cases heq
      rcases dispatch_good hg with ⟨idle, -⟩ | ⟨-, good⟩
      · rw [was] at idle
        cases idle
      obtain ⟨there, named, none, rowsOf⟩ := h.swept i plan rows plans was y hy
      refine ⟨names_did he named, Filed.not_at_hand he named none, fun m' hm' heq => ?_⟩
      rcases ss with _ | ⟨s', _ | ⟨s'', rest⟩⟩
      · cases s with
        | updateMessage id v =>
          obtain ⟨row, now, hu, -⟩ := good
          rw [was] at hu
          cases hu
        | _ => cases good
      · cases s with
        | deleteAttempts ids =>
          cases s' with
          | deleteMessages ids' =>
            obtain ⟨plan', rows', plans', hu, rfl, rfl⟩ := good
            rw [was] at hu
            cases hu
            obtain ⟨db, hx, -, rfl⟩ | ⟨⟨e, he⟩, -⟩ := exec_commit he
            · cases hx
              obtain ⟨hm, kept⟩ := List.mem_filter.mp hm'
              have gone := of_decide_eq_true kept
              exact gone (List.mem_map.mpr ⟨y, hy, (rowsOf m' hm heq).symm⟩)
            · cases he
          | _ => cases good
        | _ => cases good
      · cases s with
        | deleteAttempts ids => cases s' <;> cases good
        | _ => cases good
  · exact old rows hk hy

end Did

/-! ### Every step keeps it -/

/-- The jobs that change `messages` but for `delete_message`. -/
def Job.ofKeepers (j : Job) : Bool :=
  j.ofSenders || match j with
    | .retentionSweep => true
    | _ => false

theorem Job.onMessages_of_ofKeepers {j : Job} (h : j.ofKeepers = true) : j.onMessages = true := by
  cases j <;> first | rfl | cases h

/-- What a task starts with. -/
theorem duty_of_ofKeepers {j : Job} (h : j.ofKeepers = true) :
    j.duty ≠ .deleting ∧ j.duty ≠ .deleted ∧ j.duty.file = none := by
  cases j <;> first | (cases h; done) | exact ⟨fun h => (by cases h), fun h => (by cases h), rfl⟩

theorem upkeep_of_start {i : ℕ} {j : Job} {w : World} (h : Job.admitted jobs i j w = true) :
    (j.upkeep.sweeps = true → i = 1) ∧ j.upkeep.plans = [] ∧
      (∀ plan rows plans, j.upkeep ≠ .swept plan rows plans) ∧ ∀ rows plans,
        j.upkeep ≠ .unlinking rows plans := by
  simp only [Job.admitted, Bool.and_eq_true] at h
  cases j with
  | retentionSweep =>
    simp only [Bool.and_eq_true, decide_eq_true_eq] at h
    exact ⟨fun _ => h.2.1, rfl, fun _ _ _ h => (by cases h), fun _ _ h => (by cases h)⟩
  | _ => exact ⟨fun h => (by cases h), rfl, fun _ _ _ h => (by cases h), fun _ _ h => (by cases h)⟩

theorem deleted_of_next {φ : Duty} {o : Op} {a : o.Ans} (h : φ.next o a = .deleted) :
    φ = .deleting ∨ φ = .deleted := by
  have next := φ.next_cases o a
  rw [h] at next
  cases next with
  | same => exact .inr rfl
  | deleted => exact .inl rfl

theorem terminal_of_retentionPlans {now : Time} {plan : MessageStatus × Time}
    (h : plan ∈ retentionPlans cfg now) :
    plan.1.terminal = true := by
  simp only [retentionPlans, List.mem_append] at h
  rcases h with h | h
  · split at h
    · cases h
    · obtain rfl := List.mem_singleton.mp h
      rfl
  · split at h
    · cases h
    · obtain rfl := List.mem_singleton.mp h
      rfl

/-- Nothing but the dispatcher's own record of the trace changes. -/
theorem Filed.start {w : World} {tr : List (Entry Op Op.Ans Job ℚ)} {i : ℕ} {j : Job}
    (h : Filed cfg ⟨w, tr⟩)
    (hj : ∀ j, jobs j = true → j.ofKeepers = true) (ha : Job.admitted jobs i j w = true) :
    Filed cfg ⟨w, .start i j :: tr⟩ := by
  obtain ⟨sweeper, plans, swept, unlinking⟩ := upkeep_of_start ha
  simp only [Job.admitted, Bool.and_eq_true] at ha
  obtain ⟨calm, undeleted, nofile⟩ := duty_of_ofKeepers (hj j ha.1)
  have duty : ∀ k, (delivery cfg).phase (.start i j :: tr) k = if k = i then j.duty
      else (delivery cfg).phase tr k :=
    fun k => by rw [Protocol.phase_start, Function.update_apply]; rfl
  have file : ∀ k path, ((delivery cfg).phase (.start i j :: tr) k).file = some path →
      ((delivery cfg).phase tr k).file = some path := by
    intro k path hk
    rw [duty] at hk
    split at hk
    · rw [nofile] at hk
      cases hk
    · exact hk
  have keepSwept : ∀ k plan rows plans, (upkeep cfg).phase (.start i j :: tr) k =
      .swept plan rows plans →
      (upkeep cfg).phase tr k = .swept plan rows plans ∧ k ≠ i := by
    intro k plan rows plans hk
    rw [phase_upkeep_start] at hk
    split at hk
    · exact absurd hk (swept _ _ _)
    · exact ⟨hk, ‹_›⟩
  exact {
    calm := fun k => by
      rw [duty]
      split
      · exact ⟨calm, undeleted⟩
      · exact h.calm k
    sweeper := fun k hk => by
      rw [phase_upkeep_start] at hk
      split at hk
      · subst k
        exact sweeper hk
      · exact h.sweeper k hk
    plans := fun k plan hk => by
      rw [phase_upkeep_start] at hk
      split at hk
      · rw [plans] at hk
        cases hk
      · exact h.plans k plan hk
    ids := h.ids
    paths := h.paths
    named := h.named
    spooled := fun k path hk => by
      obtain ⟨named, rows, alone⟩ := h.spooled k path (file k path hk)
      exact ⟨named, rows, fun l hl => alone l (file l path hl)⟩
    swept := fun k plan rows plans hk y hy => by
      obtain ⟨there, named, none, rowsOf⟩ :=
        h.swept k plan rows plans (keepSwept k plan rows plans hk).1 y hy
      exact ⟨there, named, fun l hl => none l (file l _ hl), rowsOf⟩
    listed := fun k plan rows plans hk y hy m hm hid unrevived => by
      obtain ⟨was, other⟩ := keepSwept k plan rows plans hk
      rw [liveSince_cons] at unrevived
      simp only [starts, Ne.symm other, decide_false, Bool.false_eq_true, if_false] at unrevived
      exact h.listed k plan rows plans was y hy m hm hid unrevived
    unlinking := fun k rows plans hk y hy => by
      rw [phase_upkeep_start] at hk
      split at hk
      · exact absurd hk (unlinking _ _)
      · obtain ⟨named, none, rowsOf⟩ := h.unlinking k rows plans hk y hy
        exact ⟨named, fun l hl => none l (file l _ hl), rowsOf⟩ }

theorem Filed.did {w w' : World} {tr : List (Entry Op Op.Ans Job ℚ)} {i : ℕ} {o : Op}
    {a : o.Ans} {c : Choice} (h : Filed cfg ⟨w, tr⟩) (he : exec cfg i o c w = some (a, w'))
    (hg : (dispatch cfg).good ((dispatch cfg).phase tr i) o a) :
    Filed cfg ⟨w', .did i o a :: tr⟩ := by
  have hs : (system cfg fun _ => true).Step (dispatch cfg) ⟨w, tr⟩ ⟨w', .did i o a :: tr⟩ :=
    .did (c := c) he hg
  have change := fileChange_of_step h hs
  obtain ⟨ids, paths⟩ := h.rows_did change
  exact {
    calm := fun k => by
      rw [phase_did_apply]
      split
      · refine ⟨calm_next _ _ (h.calm i).1, fun deleted => ?_⟩
        rcases deleted_of_next deleted with hd | hd
        · exact (h.calm i).1 hd
        · exact (h.calm i).2 hd
      · exact h.calm k
    sweeper := fun k hk => by
      rw [phase_upkeep_did] at hk
      split at hk
      · subst k
        exact h.sweeper i (sweeps_of_next hk)
      · exact h.sweeper k hk
    plans := fun k plan hk => by
      rw [phase_upkeep_did] at hk
      split at hk
      · rcases plans_of_next hk with old | ⟨now, -, new⟩
        · exact h.plans i plan old
        · exact terminal_of_retentionPlans new
      · exact h.plans k plan hk
    ids := ids
    paths := paths
    named := fun m' hm' => by
      rcases change.origin hm' with ⟨m, hm, -, hp⟩ | ⟨mine, -, -⟩
      · rw [← hp]
        exact names_did he (h.named m hm)
      · exact names_did he (h.spooled i _ mine).1
    spooled := fun k path hk => h.spooled_did he change hk
    swept := fun k plan rows plans hk y hy => h.swept_did he hg change hk hy
    listed := fun k plan rows plans hk y hy m hm hid unrevived =>
      h.listed_did hs he hg hk hy hm hid unrevived
    unlinking := fun k rows plans hk y hy => h.unlinking_did he hg change hk hy }

theorem Filed.step (h : Filed cfg x) (hj : ∀ j, jobs j = true → j.ofKeepers = true)
    (hs : (system cfg jobs).Step (dispatch cfg) x x') : Filed cfg x' := by
  cases hs with
  | start ha => exact h.start hj ha
  | did he hg => exact h.did he hg
  | env =>
    refine ⟨h.calm, h.sweeper, h.plans, h.ids, h.paths, h.named, h.spooled, h.swept,
      ?_, h.unlinking⟩
    intro k plan rows plans hk y hy m hm hid unrevived
    rw [liveSince_cons] at unrevived
    exact h.listed k plan rows plans hk y hy m hm hid unrevived
  | crash =>
    -- the rows, the files and their names are what a crash leaves
    exact ⟨fun k => ⟨fun h => (by cases h), fun h => (by cases h)⟩, fun k hk => (by cases hk),
      fun k plan hk => (by cases hk),
      h.ids, h.paths, h.named, fun k path hk => (by cases hk), fun k plan rows plans hk =>
        (by cases hk),
      fun k plan rows plans hk => (by cases hk), fun k rows plans hk => (by cases hk)⟩

theorem Filed.init {w : World} (ids : (w.db.messages.map Message.id).Nodup)
    (paths : (w.db.messages.map Message.spoolPath).Nodup) (named : ∀ m ∈ w.db.messages,
      m.spoolPath ∈ w.names) :
    Filed cfg ⟨w, []⟩ :=
  ⟨fun k => ⟨fun h => (by cases h), fun h => (by cases h)⟩, fun k hk => (by cases hk),
    fun k plan hk => (by cases hk),
    ids, paths, named, fun k path hk => (by cases hk), fun k plan rows plans hk => (by cases hk),
    fun k plan rows plans hk => (by cases hk), fun k rows plans hk => (by cases hk)⟩

/-- What is not at its end stays, unless a sweep deletes a row that has been revived. -/
theorem Filed.live_stays (h : Filed cfg x) (hs : (system cfg jobs).Step (dispatch cfg) x x')
    (unrevived : ∀ i site ids ids' n,
      x'.trace = .did i (.commit site [.deleteAttempts ids, .deleteMessages ids'])
        (.ok n) :: x.trace →
        ∀ id ∈ ids', liveSince i id x.trace = false)
    {m : Message} (hm : m ∈ x.shared.db.messages) (live : m.status.terminal = false) :
    m.id ∈ x'.shared.db.messages.map Message.id := by
  have there := List.mem_map_of_mem (f := Message.id) hm
  cases fileChange_of_step h hs with
  | kept same =>
    have ids := congrArg (List.map Prod.fst) same
    simp only [List.map_map] at ids
    exact ids.symm ▸ there
  | stored _ _ rows =>
    rw [rows, List.map_append]
    exact List.mem_append_left _ there
  | @swept i site plan selected plans n hu htr rows =>
    rw [rows]
    refine List.mem_map_of_mem (List.mem_filter.mpr ⟨hm, decide_eq_true fun listed => ?_⟩)
    obtain ⟨y, hy, hid⟩ := List.mem_map.mp listed
    have ended := h.listed i plan selected plans hu y hy m hm hid.symm
      (unrevived _ _ _ _ _ htr _ (List.mem_map_of_mem hy))
    rw [live] at ended
    cases ended

/-- A file that is removed belongs to no row. -/
theorem Filed.unlinked (h : Filed cfg x) (hs : (system cfg jobs).Step (dispatch cfg) x x') {i : ℕ}
    {path : String}
    {a : Op.Ans (.spoolDelete path)} (htr : x'.trace = .did i (.spoolDelete path) a :: x.trace)
    {m : Message} (hm : m ∈ x.shared.db.messages) : m.spoolPath ≠ path := by
  rcases dispatch_good (hs.of_did htr).2 with ⟨-, unstored | deleted⟩ | ⟨-, id, rows, plans, hu⟩
  · exact (h.spooled i path (congrArg Duty.file unstored)).2.1 m hm
  · exact absurd deleted (h.calm i).2
  · exact (h.unlinking i _ plans hu _ List.mem_cons_self).2.2 m hm

/-- A requeue's commit leaves the message queued. -/
theorem queued_of_requeue (hs : (system cfg jobs).Step (dispatch cfg) x x') {i : ℕ}
    {site : Site} {id : ℕ} {v : MessageValues} {n : ℕ}
    (htr : x'.trace = .did i (.commit site [.updateMessage id v]) (.ok n) :: x.trace) :
    ∃ m ∈ x'.shared.db.messages, m.id = id ∧ m.status = .queued := by
  obtain ⟨row, now, hu, rfl⟩ := requeueing_of_step hs htr
  obtain ⟨⟨ch, he⟩, -⟩ := hs.of_did htr
  obtain ⟨db, hx, -, heq⟩ | ⟨⟨e, he⟩, -⟩ := exec_commit he
  · rw [heq]
    simp only [Db.execAll, Stmt.exec] at hx
    split at hx
    · rename_i found
      cases hx
      obtain ⟨m, hm, hid⟩ := List.any_eq_true.mp found
      have named : m.id = id := of_decide_eq_true hid
      exact ⟨_, mem_applyUpdate_of_holds { ids := some [id] } (requeueValues row now) hm
        (by simp [MessageWhere.holds, named]), named, rfl⟩
    · cases hx
  · cases he

end Invariants

/-- No sweep deletes a row that has been revived since the sweep began. -/
def NoneRevived (x x' : Moment) : Prop := ∀ i site ids ids' n,
  x'.trace = .did i (.commit site [.deleteAttempts ids, .deleteMessages ids']) (.ok n) :: x.trace →
    ∀ id ∈ ids', liveSince i id x.trace = false

/-- **Housekeeping deletes no live message, unless one that it has selected is revived before it
is deleted.** In every run of the ingress server, the dispatcher, the requeues and the sweeps: a
step at which no sweep deletes a row that has been revived since the sweep began leaves every
queued message and every message that is being sent where it is; whatever file is removed, it
belongs to no message; and a message whose requeue has been committed is there, and queued. -/
theorem live_never_deleted (cfg : Settings) {jobs : Job → Bool} (hj : ∀ j, jobs j = true →
    j.ofKeepers = true)
    {w : World} (ids : (w.db.messages.map Message.id).Nodup)
    (paths : (w.db.messages.map Message.spoolPath).Nodup)
    (named : ∀ m ∈ w.db.messages, m.spoolPath ∈ w.names) {s s' : Pool Op Op.Ans Exc World Job ℚ}
    (h : (system cfg jobs).Reachable Machine.Free (Machine.boot w) s) {m : Move Choice Job ℚ}
    (hstep : (system cfg jobs).step m s = some s') :
    (NoneRevived s.toConfig s'.toConfig → ∀ row ∈ s.shared.db.messages,
      row.status = .queued ∨ row.status = .sending →
        row.id ∈ s'.shared.db.messages.map Message.id) ∧
    (∀ i path a, s'.trace = .did i (.spoolDelete path) a :: s.trace →
      ∀ row ∈ s.shared.db.messages, row.spoolPath ≠ path) ∧
    ∀ i site id v n, s'.trace = .did i (.commit site [.updateMessage id v]) (.ok n) :: s.trace →
      ∃ row ∈ s'.shared.db.messages, row.id = id ∧ row.status = .queued := by
  have keeps : (system cfg jobs).Keeps (dispatch cfg) :=
    dispatch_keeps fun j hjob => Job.onMessages_of_ofKeepers (hj j hjob)
  obtain ⟨filed, phases⟩ := Machine.invariant keeps (Filed cfg) (Filed.init ids paths named)
    (fun h hs _ => h.step hj hs) h
  obtain ⟨hs, -⟩ := Machine.step_cases keeps phases hstep
  refine ⟨fun unrevived row hrow live => filed.live_stays hs unrevived hrow ?_,
    fun i path a htr row hrow =>
    filed.unlinked hs htr hrow, fun i site id v n htr => queued_of_requeue hs htr⟩
  rcases live with live | live <;> rw [live] <;> rfl

namespace Example

/-- A message was sent more than a week ago, and another one is due. -/
def oneOld : World :=
  { oneSent with clock := 63924400000, names := ["spool", "other"],
                 db := { messages := [{ dueMessage 1 with status := .sent },
                   { dueMessage 2 with spoolPath := "other" }] } }

/-- The process starts, and the sweep selects the first message. -/
def selected : List (Move Choice Job ℚ) := List.flatten
  [[.start 0 .start], List.replicate 9 (.run 0 .ok), [.start 1 .retentionSweep],
    List.replicate 2 (.run 1 .ok)]

/-- Task 2 requeues the first message. -/
def requeuedMeanwhile : List (Move Choice Job ℚ) :=
  .start 2 (.requeue 1) :: List.replicate 5 (.run 2 .ok)

/-- The sweep that deletes rows, and their ids. -/
def deletes : Entry Op Op.Ans Job ℚ → Option (ℕ × List ℕ)
  | .did i (.commit _ [.deleteAttempts _, .deleteMessages ids]) (.ok _) => some (i, ids)
  | _ => none

/-- The message that is due stays when the other one is deleted. -/
theorem live_never_deleted_selected : ∃ s s',
    (system twoPerDay Job.ofKeepers).Reachable Machine.Free (Machine.boot oneOld) s ∧
      (system twoPerDay Job.ofKeepers).step (.run 1 .ok) s = some s' ∧
      s'.shared.db.messages.map Message.id = [2] ∧ ∀ row ∈ s.shared.db.messages,
        row.status = .queued ∨ row.status = .sending →
          row.id ∈ s'.shared.db.messages.map Message.id := by
  obtain ⟨s, hs, before⟩ : ∃ s, (system twoPerDay Job.ofKeepers).runFrom (Machine.boot oneOld)
      (selected ++ List.replicate 2 (.run 1 .ok)) = some s ∧ liveSince 1 1 s.trace = false :=
    Option.map_eq_some_iff.mp (by decide +kernel)
  obtain ⟨s', hs', after⟩ : ∃ s', (system twoPerDay Job.ofKeepers).runFrom (Machine.boot oneOld)
      (selected ++ List.replicate 3 (.run 1 .ok)) = some s' ∧
      (s'.shared.db.messages.map Message.id, s'.trace.head?.bind deletes) = ([2], some (1, [1])) :=
    Option.map_eq_some_iff.mp (by decide +kernel)
  obtain ⟨rows, last⟩ := Prod.mk.inj after
  rw [show selected ++ List.replicate 3 (.run 1 .ok) =
    (selected ++ List.replicate 2 (.run 1 .ok)) ++ [.run 1 .ok]
    from rfl, Machine.runFrom_concat hs] at hs'
  refine ⟨s, s', Machine.Reachable.refl.runFrom hs, hs', rows,
    (live_never_deleted twoPerDay (fun j hj => hj) (by decide)
    (by decide) (by decide) (Machine.Reachable.refl.runFrom hs) hs').1 fun i site ids ids' n
      htr id hid => ?_⟩
  rw [htr] at last
  cases last
  obtain rfl := List.mem_singleton.mp hid
  exact before

/-- The first message is requeued between the sweep's `SELECT` and its `DELETE`, and is deleted
while it is queued. -/
theorem queued_deleted : ∃ s s',
    (system twoPerDay Job.ofKeepers).Reachable Machine.Free (Machine.boot oneOld) s ∧
      (system twoPerDay Job.ofKeepers).step (.run 1 .ok) s = some s' ∧
      s.shared.db.messages.map (fun m => (m.id, m.status)) = [(1, .queued), (2, .queued)] ∧
      s'.shared.db.messages.map Message.id = [2] := by
  obtain ⟨s, hs, before⟩ : ∃ s, (system twoPerDay Job.ofKeepers).runFrom (Machine.boot oneOld)
      (List.flatten [selected, requeuedMeanwhile, List.replicate 2 (.run 1 .ok)]) = some s ∧
      s.shared.db.messages.map (fun m => (m.id, m.status)) = [(1, .queued), (2, .queued)] :=
    Option.map_eq_some_iff.mp (by decide +kernel)
  obtain ⟨s', hs', after⟩ : ∃ s', (system twoPerDay Job.ofKeepers).runFrom (Machine.boot oneOld)
      (List.flatten [selected, requeuedMeanwhile, List.replicate 2 (.run 1 .ok)] ++ [.run 1 .ok]) =
        some s' ∧
      s'.shared.db.messages.map Message.id = [2] := Option.map_eq_some_iff.mp (by decide +kernel)
  rw [Machine.runFrom_concat hs] at hs'
  exact ⟨s, s', Machine.Reachable.refl.runFrom hs, hs', before, after⟩

end Example

end SmtpSwitch
