import SmtpSwitch.Coop.Alone
import SmtpSwitch.Coop.Ledger
import SmtpSwitch.Limits.Account
import SmtpSwitch.Settlement.Tally

/-!
# Slots and probes

In a run in which no decision is lost, the slots in use are the ones of decisions
still to be settled, and a claimed half-open probe belongs to a decision whose
outcome the breaker will be told (`SlotsInv`). So when no consumer is inside
`_process` no slot is in use and no probe is claimed.

That a told outcome gives back every probe rests on what a state with claimed
probes looks like (`ProbeOk`): its breaker is half-open, so a failure opens it
again and a success closes it, and both start over with no probe.
-/

namespace SmtpSwitch

open Coop Coop.Prog

/-! ### What a stage holds -/

/-- The slot of `p` a task holds. -/
def Stage.slots (p : String) : Stage → ℕ
  | .taken q => if q = p then 1 else 0
  | .reserved r _ _ | .relayed r _ | .settling r _ _ => if r.provider = p then 1 else 0
  | _ => 0

/-- The probe of `p` a task will give back. -/
def Stage.probes (p : String) : Stage → ℕ
  | .reserved r true _ | .relayed r true | .settling r true true => if r.provider = p then 1 else 0
  | .owing q true | .telling q true _ => if q = p then 1 else 0
  | _ => 0

/-- The breaker's state a task has seen and not used yet. -/
def Stage.seen : Stage → Option (ProviderState × Time)
  | .reserved _ _ seen | .telling _ _ seen => seen
  | _ => none

variable {cfg : Settings}

/-- A task gets and gives back its slot with the operations on `inflight` only. -/
theorem slots_advance {s : Stage} {o : Op} {a : o.Ans} (hg : s.good cfg o a)
    (hp : o.part ≠ some .inflight) (p : String) : (s.advance o a).slots p = s.slots p := by
  have next := Stage.advance_cases hg
  generalize s.advance o a = s' at next ⊢
  cases next with
  | taken => exact absurd rfl hp
  | settled => exact absurd rfl hp
  | looked seen => obtain rfl | ⟨r, probe, seen, rfl, rfl⟩ | ⟨q, probe, seen, rfl, rfl⟩ := seen <;> rfl
  | startedOver idle => obtain rfl | rfl := idle <;> rfl
  | _ => rfl

/-- A task gets and gives back its probe with a change of the breaker's state only. -/
theorem probes_advance {s : Stage} {o : Op} {a : o.Ans} (hg : s.good cfg o a)
    (hp : o.part ≠ some .states) (p : String) : (s.advance o a).probes p = s.probes p := by
  have next := Stage.advance_cases hg
  generalize s.advance o a = s' at next ⊢
  cases next with
  | claimed => exact absurd rfl hp
  | told => exact absurd rfl hp
  | @relayed _ probe | @committed _ probe | @released _ probe | @succeeded _ probe | @failed _ probe =>
    cases probe <;> rfl
  | @settled _ probe sent => cases probe <;> cases sent <;> rfl
  | looked seen =>
    obtain rfl | ⟨r, probe, seen, rfl, rfl⟩ | ⟨q, probe, seen, rfl, rfl⟩ := seen
    · rfl
    · cases probe <;> rfl
    · cases probe <;> rfl
  | startedOver idle => obtain rfl | rfl := idle <;> rfl
  | _ => rfl

/-- What a task has seen it has seen with `status`. -/
theorem seen_advance {s : Stage} {o : Op} {a : o.Ans} {x : ProviderState × Time}
    (ho : ∀ p, o ≠ .stateNow p) (hx : (s.advance o a).seen = some x) : s.seen = some x := by
  cases o with
  | stateNow p => exact absurd rfl (ho p)
  | call c => cases c <;> cases s <;> first | exact hx | cases hx
  | decInflight p =>
    cases s with
    | settling r probe sent => cases sent <;> cases hx
    | _ => exact hx
  | flush site => cases site <;> cases s <;> first | exact hx | cases hx
  | _ => cases s <;> first | exact hx | cases hx

/-! ### States with claimed probes -/

/-- A breaker with claimed probes is half-open. -/
def ProbeOk (cfg : Settings) (st : ProviderState) (now : Time) : Prop :=
  0 < st.halfOpenProbes → CircuitBreaker.status cfg.circuitBreaker st now = .halfOpen

theorem ProbeOk.mono {st : ProviderState} {now now' : Time} (hst : ProbeOk cfg st now)
    (h : now ≤ now') : ProbeOk cfg st now' :=
      fun hp => CircuitBreaker.status_halfOpen_mono h (hst hp)

/-- A failure leaves no probe claimed. -/
theorem failed_probes {st : ProviderState} {now : Time} (h : ProbeOk cfg st now) :
    (CircuitBreaker.failed cfg.circuitBreaker st now).halfOpenProbes = 0 := by
  unfold CircuitBreaker.failed
  simp only
  split
  · rfl
  split
  · rfl
  rename_i notHalfOpen _
  by_contra hp
  exact notHalfOpen (h (Nat.pos_of_ne_zero hp))

/-! ### The invariant -/

/-- Neither a crash nor a critical failure. -/
def smooth : Entry Op Op.Ans Job ℚ → Bool
  | .did _ o a => !(o.critical && o.fails a)
  | .crash => false
  | _ => true

/-- Slots and probes belong to decisions that are still to be settled. -/
structure SlotsInv (cfg : Settings) (x : Moment) : Prop where
  slots : ∀ p, x.shared.inflight p = (settlement cfg).total (Stage.slots p) x.trace
  probes : ∀ p, 0 < (x.shared.state p).halfOpenProbes →
    0 < (settlement cfg).total (Stage.probes p) x.trace
  halfOpen : ∀ p, ProbeOk cfg (x.shared.state p) x.shared.clock
  seen : ∀ i st now, ((settlement cfg).phase x.trace i).seen = some (st, now) →
    ProbeOk cfg st now ∧ now ≤ x.shared.clock

namespace SlotsInv

variable {w w' : World} {tr : List (Entry Op Op.Ans Job ℚ)} {i : ℕ} {o : Op} {a : o.Ans}

theorem total_slots_did (tr : List (Entry Op Op.Ans Job ℚ)) (i : ℕ) (p : String)
    (ho : (o.critical && o.fails a) = false) :
    (settlement cfg).total (Stage.slots p) (.did i o a :: tr) +
        ((settlement cfg).phase tr i).slots p =
      (settlement cfg).total (Stage.slots p) tr +
        (((settlement cfg).phase tr i).advance o a).slots p := by
  have next : (settlement cfg).next ((settlement cfg).phase tr i) o a =
    ((settlement cfg).phase tr i).advance o a := if_neg (by simp [ho])
  rw [← next]
  exact Protocol.total_did rfl i o a

theorem total_probes_did (tr : List (Entry Op Op.Ans Job ℚ)) (i : ℕ) (p : String)
    (ho : (o.critical && o.fails a) = false) :
    (settlement cfg).total (Stage.probes p) (.did i o a :: tr) +
        ((settlement cfg).phase tr i).probes p =
      (settlement cfg).total (Stage.probes p) tr +
        (((settlement cfg).phase tr i).advance o a).probes p := by
  have next : (settlement cfg).next ((settlement cfg).phase tr i) o a =
    ((settlement cfg).phase tr i).advance o a := if_neg (by simp [ho])
  rw [← next]
  exact Protocol.total_did rfl i o a

/-- The slots after an operation. -/
theorem slots_did (h : SlotsInv cfg ⟨w, tr⟩) {c : Choice} (he : exec cfg i o c w = some (a, w'))
    (hg : ((settlement cfg).phase tr i).good cfg o a) (ho : (o.critical && o.fails a) = false)
    (p : String) :
    w'.inflight p = (settlement cfg).total (Stage.slots p) (.did i o a :: tr) := by
  have total := @total_slots_did cfg o a tr i p ho
  have before : w.inflight p = (settlement cfg).total (Stage.slots p) tr := h.slots p
  by_cases hp : o.part = some .inflight
  · cases o with
    | incInflight q =>
      obtain rfl := exec_incInflight he
      rw [show (settlement cfg).phase tr i = .clear from hg] at total
      by_cases hq : q = p
      · subst hq
        simp [Stage.slots, Stage.advance] at total ⊢
        omega
      · simp [Stage.slots, Stage.advance, hq, Function.update_of_ne (Ne.symm hq)] at total ⊢
        omega
    | decInflight q =>
      obtain rfl := exec_decInflight he
      obtain ⟨r, probe, sent, hs, rfl⟩ := hg
      rw [hs] at total
      have gone : (Stage.advance (.settling r probe sent) (.decInflight r.provider) ()).slots p =
          0 := by
        cases sent <;> rfl
      rw [gone] at total
      by_cases hq : r.provider = p
      · subst hq
        simp [Stage.slots] at total ⊢
        omega
      · simp [Stage.slots, hq, Function.update_of_ne (Ne.symm hq)] at total ⊢
        omega
    | _ => simp [Op.part] at hp
  · rw [slots_advance hg hp] at total
    rw [(exec_frame cfg he).inflight hp]
    omega

/-- The probes after a change of the breaker's state. -/
theorem setState_did (h : SlotsInv cfg ⟨w, tr⟩) {q : String} {st' : ProviderState} {c : Choice} {a}
    (he : exec cfg i (.setState q st') c w = some (a, w'))
    (hg : ((settlement cfg).phase tr i).mayset cfg q st') (p : String) :
    (0 < (w'.state p).halfOpenProbes →
      0 < (settlement cfg).total (Stage.probes p) (.did i (.setState q st') a :: tr)) ∧
    ProbeOk cfg (w'.state p) w'.clock := by
  obtain rfl := exec_setState he
  have total := @total_probes_did cfg (.setState q st') a tr i p rfl
  have mine := Protocol.le_total (P := settlement cfg) (f := Stage.probes p) rfl tr i
  have before : 0 < (w.state p).halfOpenProbes →
    0 < (settlement cfg).total (Stage.probes p) tr := h.probes p
  have ok : ProbeOk cfg (w.state p) w.clock := h.halfOpen p
  rw [World.state_update]
  obtain ⟨r, probe, st, now, hs, rfl, status, rfl⟩ | ⟨probe, st, now, hs, hst⟩ := hg
  · rw [hs] at total
    by_cases hp : p = r.provider
    · subst hp
      rw [if_pos rfl]
      refine ⟨fun _ => ?_, fun _ => ?_⟩
      · rw [show (Stage.advance (.reserved r probe (some (st, now)))
          (.setState r.provider (claimed st)) a).probes
          r.provider = 1 from if_pos rfl] at total
        rw [hs] at mine
        omega
      · obtain ⟨-, le⟩ := h.seen i st now (by rw [hs]; rfl)
        exact CircuitBreaker.status_halfOpen_mono le status
    · rw [if_neg hp]
      refine ⟨fun hpos => ?_, ok⟩
      have := before hpos
      cases probe <;> simp [Stage.advance, Stage.probes, Ne.symm hp] at total <;> omega
  · have unprobed : st'.halfOpenProbes = 0 := by
      rcases hst with rfl | rfl
      · rfl
      · exact failed_probes (h.seen i st now (by rw [hs]; rfl)).1
    rw [hs] at total
    by_cases hp : p = q
    · subst hp
      rw [if_pos rfl]
      exact ⟨fun hpos => by omega, fun hpos => by omega⟩
    · rw [if_neg hp]
      refine ⟨fun hpos => ?_, ok⟩
      have := before hpos
      cases probe <;> simp [Stage.advance, Stage.probes, Ne.symm hp] at total <;> omega

/-- The probes after an operation. -/
theorem probes_did (h : SlotsInv cfg ⟨w, tr⟩) {c : Choice} (he : exec cfg i o c w = some (a, w'))
    (hg : ((settlement cfg).phase tr i).good cfg o a) (ho : (o.critical && o.fails a) = false)
    (p : String) :
    (0 < (w'.state p).halfOpenProbes →
      0 < (settlement cfg).total (Stage.probes p) (.did i o a :: tr)) ∧
    ProbeOk cfg (w'.state p) w'.clock := by
  have frame := exec_frame cfg he
  by_cases hp : o.part = some .states
  · cases o with
    | setState q st => exact h.setState_did he hg p
    | loadStates rows => exact hg.elim
    | _ => simp [Op.part] at hp
  · have total := @total_probes_did cfg o a tr i p ho
    rw [probes_advance hg hp] at total
    have same : w'.state p = w.state p := congrArg (fun st => (st p).getD {}) (frame.states hp)
    rw [same, frame.clock]
    refine ⟨fun hpos => ?_, h.halfOpen p⟩
    have : 0 < (settlement cfg).total (Stage.probes p) tr := h.probes p hpos
    omega

/-- What the tasks have seen after an operation. -/
theorem seen_did (h : SlotsInv cfg ⟨w, tr⟩) {c : Choice} (he : exec cfg i o c w = some (a, w'))
    (ho : (o.critical && o.fails a) = false) (k : ℕ) (st : ProviderState) (now : Time)
    (hk : ((settlement cfg).phase (.did i o a :: tr) k).seen = some (st, now)) :
    ProbeOk cfg st now ∧ now ≤ w'.clock := by
  rw [(exec_frame cfg he).clock]
  by_cases hi : k = i
  · subst hi
    rw [Protocol.phase_did, Function.update_self,
      show (settlement cfg).next ((settlement cfg).phase tr k) o a = _ from if_neg
        (by simp [ho])] at hk
    by_cases hn : ∃ p, o = .stateNow p
    · obtain ⟨p, rfl⟩ := hn
      obtain ⟨rfl, rfl⟩ := exec_stateNow he
      have ok : ProbeOk cfg (w'.state p) w'.clock := h.halfOpen p
      revert hk
      generalize (settlement cfg).phase tr k = s
      intro hk
      cases s <;> cases hk <;> exact ⟨ok, le_rfl⟩
    · exact h.seen k st now (seen_advance (fun p hp => hn ⟨p, hp⟩) hk)
  · rw [Protocol.phase_did, Function.update_of_ne hi] at hk
    exact h.seen k st now hk

theorem step {jobs : Job → Bool} {x x' : Moment} (h : SlotsInv cfg x)
    (hs : (system cfg jobs).Step (settlement cfg) x x') (hc : Machine.Each smooth x x') :
    SlotsInv cfg x' := by
  cases hs with
  | start ha hi =>
    refine ⟨fun p => ?_, fun p hp => ?_, h.halfOpen, fun i => ?_⟩
    · rw [Protocol.total_start_idle rfl hi]
      exact h.slots p
    · rw [Protocol.total_start_idle rfl hi]
      exact h.probes p hp
    · rw [Protocol.phase_start_idle rfl hi]
      exact h.seen i
  | @env w tr d =>
    have later : w.clock ≤ w.clock + max d 0 := le_add_of_nonneg_right (le_max_right _ _)
    refine ⟨h.slots, h.probes, fun p => (h.halfOpen p).mono later, fun i st now hi => ?_⟩
    obtain ⟨ok, le⟩ := h.seen i st now hi
    exact ⟨ok, le.trans later⟩
  | crash => cases hc .crash rfl
  | @did w w' tr i o c a he hg =>
    have he : exec cfg i o c w = some (a, w') := he
    have ho : (o.critical && o.fails a) = false := by
      have := hc _ rfl
      simpa only [smooth, Bool.not_eq_true'] using this
    exact ⟨h.slots_did he hg ho, fun p => (h.probes_did he hg ho p).1,
      fun p => (h.probes_did he hg ho p).2, h.seen_did he ho⟩

end SlotsInv

/-! ### The dispatcher at rest -/

/-- The dispatcher, the ingress server, the message API and the housekeeping of a process that has
started. -/
def Job.ofDispatch : Job → Bool
  | .producer | .consumer | .handleData _ _ | .deleteMessage _ | .prune => true
  | _ => false

/-- An operation without a meaning for a task that has nothing to settle. -/
def Op.idle (cfg : Settings) (o : Op) : Prop := ∀ a, (settlement cfg).good .clear o a ∧
  (settlement cfg).next .clear o a = .clear

theorem idle_of_others {o : Op} (h : o.ofOthers) : o.idle cfg := fun a =>
  ⟨(means_others h).good a, by
    have := (@means_others cfg o h).next a
    rwa [ite_self] at this⟩

/-- Of the dispatcher's jobs only the consumer has anything to settle. -/
theorem uses_idle {j : Job} (hj : Job.ofDispatch j = true) (h : j ≠ .consumer) :
    (j.code cfg).Uses (Op.idle cfg) := by
  have others : ∀ {α : Type} {t : Act α}, t.Uses Op.ofOthers → t.Uses (Op.idle cfg) :=
    fun ht => ht.mono fun _ => idle_of_others
  cases j with
  | producer => exact others (uses_producer cfg)
  | handleData session envelope => exact (others (uses_handleData _ _ _)).bind fun _ => (by trivial)
  | deleteMessage id => exact others (uses_deleteMessage id)
  | prune =>
    show (RateLimiter.prune cfg).Uses (Op.idle cfg)
    unfold RateLimiter.prune
    split
    · trivial
    · exact (uses_perform fun _ => ⟨trivial, rfl⟩).bind fun _ =>
        (uses_flush fun _ => ⟨trivial, rfl⟩).bind fun _ =>
          (uses_commit fun _ => ⟨trivial, rfl⟩).bind fun _ => (by trivial)
  | consumer => exact absurd rfl h
  | _ => cases hj

theorem settlement_keeps : (system cfg Job.ofDispatch).Keeps (settlement cfg) := by
  intro i j w h
  have hj : Job.ofDispatch j = true := by
    simp only [system, Job.admitted, Bool.and_eq_true] at h
    exact h.1
  by_cases hc : j = .consumer
  · subst hc
    exact consumer_whole_settle
  · exact (uses_idle hj hc).whole

/-- No consumer is inside `_process`: each waits for the queue. -/
def AtRest (s : Pool Op Op.Ans Exc World Job ℚ) : Prop :=
  ∀ i t, s.tasks i = some (.consumer, t) → ∃ k, t = .op .queueGet k

/-- Without a critical failure, nothing is held when no consumer is inside `_process`. -/
theorem nothing_held_of_smooth {w : World} (hw : ∀ p, w.inflight p = 0)
    (hp : ∀ p, (w.state p).halfOpenProbes = 0) {s : Pool Op Op.Ans Exc World Job ℚ}
    (h : (system cfg Job.ofDispatch).Reachable (Machine.Each smooth) (Machine.boot w) s)
    (hrest : AtRest s)
    (p : String) : s.shared.inflight p = 0 ∧ (s.shared.state p).halfOpenProbes = 0 := by
  have init : SlotsInv cfg ⟨w, []⟩ := by
    refine ⟨fun p => ?_, fun p h => ?_, fun p h => ?_, fun i st now h => ?_⟩
    · rw [Protocol.total_nil rfl]
      exact hw p
    · rw [hp p] at h
      cases h
    · rw [hp p] at h
      cases h
    · cases h
  obtain ⟨inv, inPhase⟩ := Machine.invariant settlement_keeps (SlotsInv cfg) init
    (fun h hs hc => h.step hs hc) h
  have idle : ∀ i, (settlement cfg).phase s.trace i = .clear := by
    intro i
    have rest : Machine.Rest (settlement cfg) (s.tasks i) ((settlement cfg).phase s.trace i) :=
      inPhase i
    rcases hi : s.tasks i with _ | ⟨j, t⟩
    · rw [hi] at rest
      exact rest
    by_cases hj : j = .consumer
    · subst hj
      obtain ⟨k, rfl⟩ := hrest i t hi
      rw [hi] at rest
      exact (rest 0).1
    · have quiet : ∀ i j w, (system cfg Job.ofDispatch).admits i j w = true → j ≠ .consumer →
          ((system cfg Job.ofDispatch).prog j).Uses (Op.idle cfg) := by
        intro i j w hadm hne
        simp only [system, Job.admitted, Bool.and_eq_true] at hadm
        exact uses_idle hadm.1 hne
      exact (Machine.idle_of_uses (fun _ _ => rfl) (fun o ho a => (ho a).2) quiet h i j t hi hj).2
  refine ⟨?_, Nat.eq_zero_of_not_pos fun hpos => ?_⟩
  · rw [inv.slots p]
    exact Protocol.total_eq_zero fun i => by rw [idle i]; rfl
  · have := inv.probes p hpos
    rw [Protocol.total_eq_zero fun i => by rw [idle i]; rfl] at this
    cases this

/-- **Settled exactly once.** A complete turn of the consumer settles every reservation and tells
every outcome exactly once, exactly when no failure comes between a decision and its settlement;
and in a run without such a failure no slot is in use and no probe claimed when no consumer is
inside `_process`. -/
theorem settled_unless_failed (cfg : Settings) :
    (∀ evs r, (consumer cfg).Path evs r → (Settled evs ↔ ¬ Failed evs)) ∧
    ∀ w : World, (∀ p, w.inflight p = 0) → (∀ p, (w.state p).halfOpenProbes = 0) → ∀ s,
      (system cfg Job.ofDispatch).Reachable (Machine.Each smooth) (Machine.boot w) s → AtRest s →
        ∀ p, s.shared.inflight p = 0 ∧ (s.shared.state p).halfOpenProbes = 0 :=
  ⟨fun _ _ h => settled_iff h, fun _ hw hp _ h hrest p => nothing_held_of_smooth hw hp h hrest p⟩

namespace Example

/-- A started process, two messages due. -/
def started : World := { twoDue with up := true }

/-- The message is deleted through the API while it is relayed, so that the attempt cannot be
recorded. -/
def deletedMeanwhile : List (Move Choice Job ℚ) :=
  [.start 0 .producer] ++ List.replicate 6 (.run 0 .ok) ++ [.start 1 .consumer] ++
    List.replicate 21 (.run 1 .ok) ++ [.start 2 (.deleteMessage 1)] ++
    List.replicate 4 (.run 2 .ok) ++ [.run 1 (.smtp (.returned [] "OK") true)] ++
    List.replicate 4 (.run 1 .ok)

/-- No task is left and a slot is in use. -/
theorem unsettled_deletedMeanwhile : ∃ s,
    (system onePerDay Job.ofDispatch).Reachable Machine.Free (Machine.boot started) s ∧
      AtRest s ∧ s.shared.inflight "p" = 1 := by
  obtain ⟨s, hs, ha⟩ : ∃ s, (system onePerDay Job.ofDispatch).runFrom (Machine.boot started)
      deletedMeanwhile = some s ∧ (s.shared.inflight "p", (s.tasks 0).isNone, (s.tasks 1).isNone,
        (s.tasks 2).isNone) = (1, true, true, true) :=
    Option.map_eq_some_iff.mp (by decide +kernel)
  simp only [Prod.mk.injEq, Option.isNone_iff_eq_none] at ha
  refine ⟨s, Machine.Reachable.refl.runFrom hs, fun i t hi => ?_, ha.1⟩
  have gone : s.tasks i = none := by
    by_cases h : 3 ≤ i
    · exact Machine.runFrom_untouched h (by decide) hs rfl
    · obtain rfl | rfl | rfl : i = 0 ∨ i = 1 ∨ i = 2 := by omega
      · exact ha.2.1
      · exact ha.2.2.1
      · exact ha.2.2.2
  rw [gone] at hi
  cases hi

/-- The message is relayed and accepted. -/
def relayedOnce : List (Move Choice Job ℚ) :=
  [.start 0 .producer] ++ List.replicate 6 (.run 0 .ok) ++ [.start 1 .consumer] ++
    List.replicate 21 (.run 1 .ok) ++ [.run 1 (.smtp (.returned [] "OK") true)] ++
    List.replicate 17 (.run 1 .ok)

/-- Nothing goes wrong, and the provider accepts what it is sent. -/
def obliging (o : Op) (w : World) : Option (o.Ans × World) :=
  match o with
  | .send p kwargs sender recipients message errand =>
    exec onePerDay 0 (.send p kwargs sender recipients message errand)
      (.smtp (.returned [] "OK") true) w
  | o => exec onePerDay 0 o .ok w

/-- A turn of the consumer that relays the first message. -/
def relayingTurn : Events := (consumer onePerDay).recorded obliging { started with queue := [1] }

theorem settled_relayedOnce : relayingTurn.countP (·.1.relays "p") = 1 ∧ Settled relayingTurn ∧ ∃ s,
    (system onePerDay Job.ofDispatch).runFrom (Machine.boot started) relayedOnce = some s ∧
      s.shared.accepted.length = 1 ∧ s.shared.inflight "p" = 0 := by
  obtain ⟨turn, rest⟩ := settled_unless_failed onePerDay
  obtain ⟨⟨r, w⟩, run⟩ : ∃ x, (consumer onePerDay).alone obliging { started with queue := [1] } =
      some x := Option.isSome_iff_exists.mp (by decide +kernel)
  refine ⟨by decide +kernel, (turn relayingTurn r (path_recorded _ run)).mpr ?_, ?_⟩
  · rintro ⟨e, he, hc⟩
    have fine : relayingTurn.all (fun e => !(e.1.critical && e.1.fails e.2)) = true := by
      decide +kernel
    rw [List.all_eq_true] at fine
    have := fine e he
    rw [hc] at this
    cases this
  obtain ⟨s, hs, ha⟩ : ∃ s, (system onePerDay Job.ofDispatch).runFrom (Machine.boot started)
      relayedOnce = some s ∧ (s.shared.accepted.length, (s.tasks 0).isNone, (s.tasks 1).isNone,
        s.trace.all smooth) = (1, true, true, true) :=
    Option.map_eq_some_iff.mp (by decide +kernel)
  simp only [Prod.mk.injEq, Option.isNone_iff_eq_none] at ha
  have gone : ∀ i, s.tasks i = none := by
    intro i
    by_cases h : 2 ≤ i
    · exact Machine.runFrom_untouched h (by decide) hs rfl
    · obtain rfl | rfl : i = 0 ∨ i = 1 := by omega
      · exact ha.2.1
      · exact ha.2.2.1
  refine ⟨s, hs, ha.1, (rest started (fun _ => rfl) (fun _ => rfl) s
    (Machine.Reachable.refl.runFrom_each hs ha.2.2.2) (fun i t hi => ?_) "p").1⟩
  rw [gone i] at hi
  cases hi

end Example

end SmtpSwitch
