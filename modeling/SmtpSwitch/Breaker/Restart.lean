import Mathlib.Tactic.Linarith
import SmtpSwitch.Breaker.History
import SmtpSwitch.Breaker.Probes

/-!
# Restarts

The `provider_state` rows are written through, so that a new process knows of an
outage; with the rest of the state they keep the number of probes that were claimed,
and no relay of the old process will ever report. A provider whose row has all its
probes claimed is refused for good (`serves_iff_rows`).

Whatever the process does, an unhealthy state always knows since when (`DatedInv`):
that is why, apart from the probes, every provider comes back when its cooldown is over.
-/

namespace SmtpSwitch

open Coop Coop.Prog

/-- An unhealthy state knows since when. -/
def ProviderState.Dated (st : ProviderState) : Prop := st.healthy = false → st.openedAt ≠ none

/-- So do the states a task has read. -/
def Hold.Dated : Hold → Prop
  | .loaded rows => ∀ p st, rows p = some st → st.Dated
  | .looked _ st _ => st.Dated
  | .wrote _ _ (some st) => st.Dated
  | _ => True

variable {cfg : Settings}

theorem Changes.dated {st st' : ProviderState} {now : Time} (h : Changes cfg st now st')
    (hst : st.Dated) : st'.Dated := by
  rcases h with ⟨-, -, rfl⟩ | rfl | rfl
  · exact hst
  · intro unhealthy
    cases unhealthy
  · unfold CircuitBreaker.failed
    simp only
    split
    · exact fun _ h => by cases h
    split
    · exact fun _ h => by cases h
    · exact hst

/-- A row that a session leaves was there before it, or was written by it. -/
theorem Db.providerState_execAll : ∀ {ss : List Stmt} {db db' : Db}, db.execAll ss = some db' →
    ∀ {p : String} {st : ProviderState}, db'.providerState p = some st →
      db.providerState p = some st ∨ .putProviderState p st ∈ ss
  | [], _, _, h, _, _, hp => by cases h; exact .inl hp
  | s :: ss, db, db', h, p, st, hp => by
    simp only [Db.execAll, Option.bind_eq_some_iff] at h
    obtain ⟨db₁, h₁, h₂⟩ := h
    rcases providerState_execAll h₂ hp with hp | hs
    · by_cases hs : s.table = .breaker
      · cases s with
        | putProviderState q row =>
          cases h₁
          by_cases hq : p = q
          · subst hq
            have hp : Function.update db.providerState p (some row) p = some st := hp
            rw [Function.update_self] at hp
            cases hp
            exact .inr List.mem_cons_self
          · have hp : Function.update db.providerState q (some row) p = some st := hp
            rw [Function.update_of_ne hq] at hp
            exact .inl hp
        | _ => cases hs
      · rw [(Stmt.exec_frame h₁).breaker hs] at hp
        exact .inl hp
    · exact .inr (List.mem_cons_of_mem _ hs)

/-- Every unhealthy state, in memory, in the database or in the hands of a task, is dated. -/
structure DatedInv (cfg : Settings) (x : Moment) : Prop where
  memory : ∀ p, (x.shared.state p).Dated
  rows : ∀ p st, x.shared.db.providerState p = some st → st.Dated
  tasks : ∀ i, ((breakerProtocol cfg).phase x.trace i).Dated

namespace DatedInv

variable {w w' : World} {tr : List (Entry Op Op.Ans Job ℚ)} {i : ℕ} {o : Op}
  {a : o.Ans} {c : Choice}

theorem memory_did (h : DatedInv cfg ⟨w, tr⟩) (he : exec cfg i o c w = some (a, w'))
    (hg : ((breakerProtocol cfg).phase tr i).good cfg o a) (p : String) : (w'.state p).Dated := by
  have mine := h.tasks i
  by_cases hs : o.part = some .states
  · cases o with
    | setState q st =>
      obtain rfl := exec_setState he
      rw [World.state_update]
      split
      · obtain ⟨st₀, now, looked, change⟩ := hg
        refine change.dated ?_
        rwa [show (breakerProtocol cfg).phase tr i = _ from looked] at mine
      · exact h.memory p
    | loadStates rows =>
      obtain rfl := exec_loadStates he
      rw [show (breakerProtocol cfg).phase tr i = .loaded rows from hg] at mine
      show (((rows p).or (w.states p)).getD {}).Dated
      cases hp : rows p with
      | none => exact h.memory p
      | some st => exact mine p st hp
    | _ => simp [Op.part] at hs
  · have same : w'.state p = w.state p :=
      congrArg (fun st => (st p).getD {}) ((exec_frame cfg he).states hs)
    rw [same]
    exact h.memory p

theorem rows_did (h : DatedInv cfg ⟨w, tr⟩) (he : exec cfg i o c w = some (a, w'))
    (hg : ((breakerProtocol cfg).phase tr i).good cfg o a) (p : String) (st : ProviderState)
    (hp : w'.db.providerState p = some st) : st.Dated := by
  by_cases hs : o.part = some .db
  · cases o with
    | commit site ss =>
      obtain ⟨db, hdb, -, rfl⟩ | ⟨-, rfl⟩ := exec_commit he
      · rcases Db.providerState_execAll hdb hp with before | written
        · exact h.rows p st before
        · obtain ⟨probe, hw⟩ := hg p st written
          have mine := h.tasks i
          rwa [show (breakerProtocol cfg).phase tr i = _ from hw] at mine
      · exact h.rows p st hp
    | _ => simp [Op.part] at hs
  · rw [(exec_frame cfg he).db hs] at hp
    exact h.rows p st hp

theorem task_did (h : DatedInv cfg ⟨w, tr⟩) (he : exec cfg i o c w = some (a, w')) :
    (((breakerProtocol cfg).phase tr i).next o a).Dated := by
  have mine : ((breakerProtocol cfg).phase tr i).Dated := h.tasks i
  revert mine
  generalize (breakerProtocol cfg).phase tr i = φ
  intro mine
  unfold Hold.next
  split
  · trivial
  · trivial
  · obtain ⟨ha | ⟨e, ha⟩, -⟩ := exec_select he
    · cases ha
      exact h.rows
    · cases ha
  · trivial
  · obtain ⟨rfl, -⟩ := exec_stateNow he
    exact h.memory _
  · trivial
  · obtain ⟨rfl, -⟩ := exec_state he
    exact h.memory _
  · trivial
  · trivial
  · exact mine

/-- Every move keeps it. -/
theorem step {jobs : Job → Bool} {x x' : Moment} (h : DatedInv cfg x)
    (hs : (system cfg jobs).Step (breakerProtocol cfg) x x') : DatedInv cfg x' := by
  cases hs with
  | start ha hi =>
    refine ⟨h.memory, h.rows, fun i => ?_⟩
    rw [Protocol.phase_start_idle rfl hi]
    exact h.tasks i
  | env => exact ⟨h.memory, h.rows, h.tasks⟩
  | crash => exact ⟨fun p unhealthy => (by cases unhealthy), h.rows, fun i => trivial⟩
  | @did w w' tr i o c a he hg =>
    have he : exec cfg i o c w = some (a, w') := he
    refine ⟨h.memory_did he hg, h.rows_did he hg, fun k => ?_⟩
    by_cases hk : k = i
    · subst hk
      rw [Protocol.phase_did, Function.update_self]
      exact h.task_did he
    · rw [Protocol.phase_did, Function.update_of_ne hk]
      exact h.tasks k

end DatedInv

/-! ### The new process -/

/-- The provider is closed, or available from the end of the cooldown on. -/
def Serves (cfg : Settings) (st : ProviderState) : Prop :=
  st.healthy = true ∨ ∃ t, st.openedAt = some t ∧
    ∀ now, t + (cfg.circuitBreaker.cooldownSeconds : ℕ) ≤ now →
      CircuitBreaker.available cfg.circuitBreaker st now = true

/-- An unhealthy provider comes back exactly when not all of its probes are claimed. -/
theorem serves_iff {st : ProviderState} (h : st.Dated) : Serves cfg st ↔
    (st.healthy = false → st.halfOpenProbes < (cfg.circuitBreaker.halfOpenMaxProbes : ℕ)) := by
  cases hs : st.healthy with
  | true => exact ⟨fun _ h => (by cases h), fun _ => .inl hs⟩
  | false =>
    obtain ⟨t, ht⟩ := Option.ne_none_iff_exists'.mp (h hs)
    have cooled : ∀ now, t + (cfg.circuitBreaker.cooldownSeconds : ℕ) ≤ now →
        CircuitBreaker.available cfg.circuitBreaker st now =
          decide (st.halfOpenProbes < (cfg.circuitBreaker.halfOpenMaxProbes : ℕ)) := by
      intro now le
      have halfOpen : CircuitBreaker.status cfg.circuitBreaker st now = .halfOpen := by
        unfold CircuitBreaker.status
        rw [if_neg (by simp [hs]), ht]
        simp only
        rw [if_pos (by linarith)]
      unfold CircuitBreaker.available
      rw [halfOpen]
    constructor
    · rintro (healthy | ⟨t', ht', comes⟩) -
      · rw [hs] at healthy
        cases healthy
      · rw [ht] at ht'
        cases ht'
        have := comes _ le_rfl
        rw [cooled _ le_rfl] at this
        exact of_decide_eq_true this
    · intro room
      exact .inr ⟨t, ht, fun now le => by rw [cooled now le]; exact decide_eq_true (room rfl)⟩

/-- What a new process finds. -/
theorem serves_iff_rows {w : World} (h : ∀ p st, w.db.providerState p = some st → st.Dated) :
    (∀ p, Serves cfg (World.state { w.reboot with states := w.db.providerState } p)) ↔
      ∀ p st, w.db.providerState p = some st → st.healthy = false →
        st.halfOpenProbes < (cfg.circuitBreaker.halfOpenMaxProbes : ℕ) := by
  have state : ∀ p, World.state { w.reboot with states := w.db.providerState } p =
    (w.db.providerState p).getD {} := fun _ => rfl
  constructor
  · intro serves p st hp
    have := serves p
    rw [state, hp] at this
    exact (serves_iff (h p st hp)).mp this
  · intro room p
    rw [state]
    cases hp : w.db.providerState p with
    | none => exact .inl rfl
    | some st => exact (serves_iff (h p st hp)).mpr (room p st hp)

/-- **A restart strands exactly the providers whose probes are all claimed.** At every point of every
run, whatever is running then: if the process dies there and a new one loads the rows, every provider
is closed or comes back when its cooldown is over, exactly when no unhealthy row has all its probes
claimed. -/
theorem restart_serves_iff {jobs : Job → Bool} {w : World} (memory : ∀ p, (w.state p).Dated)
    (rows : ∀ p st, w.db.providerState p = some st → st.Dated)
    {s : Pool Op Op.Ans Exc World Job ℚ}
    (h : (system cfg jobs).Reachable Machine.Free (Machine.boot w) s) :
    ∃ loaded, CircuitBreaker.load.alone (CircuitBreaker.unfailing cfg) s.shared.reboot =
        some (.ok (), loaded) ∧
      ((∀ p, Serves cfg (loaded.state p)) ↔
        ∀ p st, s.shared.db.providerState p = some st → st.healthy = false →
          st.halfOpenProbes < (cfg.circuitBreaker.halfOpenMaxProbes : ℕ)) := by
  have init : DatedInv cfg ⟨w, []⟩ := ⟨memory, rows, fun _ => trivial⟩
  have inv := (Machine.invariant (breaker_callsWhole.keeps jobs fun _ => rfl) (DatedInv cfg) init
    (fun h hs _ => h.step hs) h).1
  exact ⟨_, CircuitBreaker.alone_load s.shared, serves_iff_rows inv.rows⟩

namespace Example

/-- The process dies while the probe is relayed. The provider is never available again. -/
theorem restart_strands_oneProbe : ∃ s loaded,
    (system oneStrike Job.ofDispatch).Reachable Machine.Free (Machine.boot cooledDown) s ∧
      CircuitBreaker.load.alone (CircuitBreaker.unfailing oneStrike) s.shared.reboot =
        some (.ok (), loaded) ∧
      (loaded.state "p").healthy = false ∧ (loaded.state "p").openedAt = some 63923749000 ∧
      ¬ Serves oneStrike (loaded.state "p") := by
  obtain ⟨s, hs, ha⟩ : ∃ s, (system oneStrike Job.ofDispatch).runFrom (Machine.boot cooledDown)
      oneProbe = some s ∧ s.shared.db.providerState "p" =
        some { healthy := false, consecutiveFailures := 1, openedAt := some 63923749000, halfOpenProbes := 1 } :=
    Option.map_eq_some_iff.mp (by decide +kernel)
  refine ⟨s, _, Machine.Reachable.refl.runFrom hs, CircuitBreaker.alone_load s.shared, ?_⟩
  have state : World.state { s.shared.reboot with states := s.shared.db.providerState } "p" =
      { healthy := false, consecutiveFailures := 1, openedAt := some 63923749000,
        halfOpenProbes := 1 } :=
    congrArg (fun row => row.getD {}) ha
  rw [state]
  refine ⟨rfl, rfl, fun serves => ?_⟩
  have room := (serves_iff fun _ h => by cases h).mp serves rfl
  exact absurd room (by decide)

/-- The breaker has opened, and the process dies. -/
def opened : List (Move Choice Job ℚ) := List.flatten
  [[.start 0 .producer], oks 0 8, [.start 1 .consumer], oks 1 19, [.run 1 busy], oks 1 14]

theorem restart_serves_opened : ∃ s loaded,
    (system oneStrike Job.ofDispatch).runFrom (Machine.boot fourDue) opened = some s ∧
      (s.shared.db.providerState "p").map (fun st => (st.healthy, st.halfOpenProbes)) =
        some (false, 0) ∧
      CircuitBreaker.load.alone (CircuitBreaker.unfailing oneStrike) s.shared.reboot =
        some (.ok (), loaded) ∧
      ((∀ p, Serves oneStrike (loaded.state p)) ↔
        ∀ p st, s.shared.db.providerState p = some st → st.healthy = false →
          st.halfOpenProbes < 1) := by
  obtain ⟨s, hs, ha⟩ : ∃ s, (system oneStrike Job.ofDispatch).runFrom (Machine.boot fourDue)
      opened = some s ∧ (s.shared.db.providerState "p").map
        (fun st => (st.healthy, st.halfOpenProbes)) = some (false, 0) :=
    Option.map_eq_some_iff.mp (by decide +kernel)
  obtain ⟨loaded, hl, iff⟩ := restart_serves_iff (w := fourDue)
    (fun _ h => by cases h) (fun _ _ h => by cases h) (Machine.Reachable.refl.runFrom hs)
  exact ⟨s, loaded, hs, ha, hl, iff⟩

end Example

end SmtpSwitch
