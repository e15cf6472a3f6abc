import SmtpSwitch.Breaker.Protocol
import SmtpSwitch.Settlement.Slots

/-!
# The number of half-open probes

A relay that `begin_probe` has admitted while the breaker was half-open is a probe
until its outcome has been reported (`Stage.probes`). The breaker counts probes in
`half_open_probes`, and every success and every failure that opens the breaker sets
the count back to zero, whether or not the probes it counts have been reported. As
long as no outcome comes while a probe of another relay is out, the count is never
below the number of probes (`ProbesInv`).
-/

namespace SmtpSwitch

open Coop Coop.Prog

/-- The relays to `p` that were admitted as probes and have not reported their outcome. -/
noncomputable def outstanding (cfg : Settings) (tr : List (Entry Op Op.Ans Job ℚ)) (p : String) :
  ℕ :=
  (settlement cfg).total (Stage.probes p) tr

/-- No outcome of `p` takes effect while a probe of another relay to `p` is out. -/
def Unshared (cfg : Settings) (x x' : Moment) : Prop :=
  ∀ i p st a probe seen, x'.trace = .did i (.setState p st) a :: x.trace →
    (settlement cfg).phase x.trace i = .telling p probe seen →
      outstanding cfg x.trace p = (Stage.telling p probe seen).probes p

/-- The protocols of the settlement and of the breaker's lock, side by side. -/
def relaying (cfg : Settings) : Protocol Op Op.Ans Job (Stage × Hold) :=
  (settlement cfg).prod (breakerProtocol cfg)

variable {cfg : Settings}

theorem relaying_keeps : (system cfg Job.ofDispatch).Keeps (relaying cfg) :=
  settlement_keeps.prod (breaker_callsWhole.keeps _ fun _ => rfl)

/-- Nothing is loaded once the process has started. -/
theorem relaying_no_load {jobs : Job → Bool} {x x' : Moment}
    (hs : (system cfg jobs).Step (relaying cfg) x x') (i : ℕ) (rows : String → Option ProviderState)
    (a : Unit) : x'.trace ≠ .did i (.loadStates rows) a :: x.trace := by
  intro h
  have hg := (hs.of_did h).2
  rw [relaying, Protocol.phase_prod] at hg
  exact hg.1

/-- The count covers the probes that are out. -/
structure ProbesInv (cfg : Settings) (x : Moment) : Prop where
  held : LocksHeld cfg x
  seen : ∀ i p st now y, (breakerProtocol cfg).phase x.trace i = .looked p st now →
    ((settlement cfg).phase x.trace i).seen = some y → y = (st, now)
  count : ∀ p, outstanding cfg x.trace p ≤ (x.shared.state p).halfOpenProbes
  bound : ∀ p, outstanding cfg x.trace p ≤ (cfg.circuitBreaker.halfOpenMaxProbes : ℕ)

namespace ProbesInv

variable {w w' : World} {tr : List (Entry Op Op.Ans Job ℚ)} {i : ℕ} {o : Op}
  {a : o.Ans} {c : Choice}

/-- An operation that changes no state adds no probe. -/
theorem outstanding_did (hg : ((settlement cfg).phase tr i).good cfg o a)
    (hp : o.part ≠ some .states) (p : String) :
    outstanding cfg (.did i o a :: tr) p ≤ outstanding cfg tr p := by
  have total : (settlement cfg).total (Stage.probes p) (.did i o a :: tr) +
      ((settlement cfg).phase tr i).probes p =
    (settlement cfg).total (Stage.probes p) tr +
      ((settlement cfg).next ((settlement cfg).phase tr i) o a).probes p :=
        Protocol.total_did rfl i o a
  have fewer : ((settlement cfg).next ((settlement cfg).phase tr i) o a).probes p ≤
      ((settlement cfg).phase tr i).probes p := by
    show (Stage.next _ o a).probes p ≤ _
    unfold Stage.next
    split
    · exact Nat.zero_le _
    · exact le_of_eq (probes_advance hg hp p)
  unfold outstanding
  omega

/-- The probes after a change of a state. -/
theorem setState_did (h : ProbesInv cfg ⟨w, tr⟩) {q : String} {st' : ProviderState} {a : Unit}
    (he : exec cfg i (.setState q st') c w = some (a, w'))
    (hg : ((settlement cfg).phase tr i).mayset cfg q st')
    (hb : ((breakerProtocol cfg).phase tr i).good cfg (.setState q st') a)
    (unshared : Unshared cfg ⟨w, tr⟩ ⟨w', .did i (.setState q st') a :: tr⟩) (p : String) :
    outstanding cfg (.did i (.setState q st') a :: tr) p ≤ (w'.state p).halfOpenProbes ∧
    outstanding cfg (.did i (.setState q st') a :: tr) p ≤
      (cfg.circuitBreaker.halfOpenMaxProbes : ℕ) := by
  obtain rfl := exec_setState he
  have count : outstanding cfg tr p ≤ (w.state p).halfOpenProbes := h.count p
  have bound : outstanding cfg tr p ≤ (cfg.circuitBreaker.halfOpenMaxProbes : ℕ) := h.bound p
  have total : outstanding cfg (.did i (.setState q st') a :: tr) p +
      ((settlement cfg).phase tr i).probes p =
    outstanding cfg tr p + (((settlement cfg).phase tr i).advance (.setState q st') a).probes p :=
    SlotsInv.total_probes_did tr i p rfl
  obtain ⟨st₀, now₀, looked, change⟩ := hb
  have looked : (breakerProtocol cfg).phase tr i = .looked q st₀ now₀ := looked
  obtain ⟨-, current, -⟩ : w.locks (.breaker q) = some i ∧ w.state q = st₀ ∧ now₀ ≤ w.clock := by
    have := h.held i
    rwa [looked] at this
  rw [World.state_update]
  obtain ⟨r, probe, st, now, hs, rfl, halfOpen, rfl⟩ | ⟨probe, st, now, hs, hst⟩ := hg
  · -- a probe is claimed
    have same : (st, now) = (st₀, now₀) :=
      h.seen i r.provider st₀ now₀ _ looked (by rw [hs]; rfl)
    obtain ⟨rfl, rfl⟩ := Prod.mk.inj same
    have one : (((settlement cfg).phase tr i).advance (.setState r.provider (claimed st)) a).probes
        p =
        if r.provider = p then 1 else 0 := by
      rw [hs]
      rfl
    rw [one] at total
    by_cases hp : p = r.provider
    · subst hp
      rw [if_pos rfl] at total ⊢
      have room := (LocksHeld.of_claimed change).2
      rw [current] at count
      show _ ≤ st.halfOpenProbes + 1 ∧ _
      omega
    · rw [if_neg (Ne.symm hp)] at total
      rw [if_neg hp]
      omega
  · -- an outcome is reported
    have unprobed : (((settlement cfg).phase tr i).advance (.setState q st') a).probes p = 0 := by
      rw [hs]
      rfl
    rw [unprobed] at total
    by_cases hp : p = q
    · subst hp
      have mine : outstanding cfg tr p = (Stage.telling p probe (some (st, now))).probes p :=
        unshared i p st' a probe _ rfl hs
      rw [hs] at total
      omega
    · rw [if_neg hp]
      omega

/-- What a task has seen under the lock is what it has looked at. -/
theorem seen_did (h : ProbesInv cfg ⟨w, tr⟩)
    (hb : ((breakerProtocol cfg).phase tr i).good cfg o a) {q : String} {st : ProviderState}
    {now : Time} {y : ProviderState × Time}
    (looked : ((breakerProtocol cfg).phase tr i).next o a = .looked q st now)
    (hy : (((settlement cfg).phase tr i).next o a).seen = some y) : y = (st, now) := by
  have before := h.seen i q st now y
  revert looked hb before
  generalize (breakerProtocol cfg).phase tr i = φ
  intro hb looked before
  have hy : (((settlement cfg).phase tr i).advance o a).seen = some y := by
    unfold Stage.next at hy
    split at hy
    · cases hy
    · exact hy
  by_cases ho : ∃ p, o = .stateNow p
  · obtain ⟨p, rfl⟩ := ho
    rcases hb with rfl | rfl
    · cases looked
    · cases looked
      revert hy
      generalize (settlement cfg).phase tr i = s
      intro hy
      cases s <;> cases hy <;> rfl
  · refine before ?_ (seen_advance (fun p hp => ho ⟨p, hp⟩) hy)
    exact (Hold.of_next_looked looked).resolve_right ho

/-- Every move keeps it, as long as no outcome takes effect while another probe is out. -/
theorem step {jobs : Job → Bool} {x x' : Moment} (h : ProbesInv cfg x)
    (hs : (system cfg jobs).Step (relaying cfg) x x') (hc : Unshared cfg x x') :
    ProbesInv cfg x' := by
  have held := h.held.step hs.snd (relaying_no_load hs)
  cases hs with
  | start ha hi =>
    rw [relaying, Protocol.phase_prod] at hi
    obtain ⟨hi₁, hi₂⟩ := Prod.mk.inj hi
    refine ⟨held, ?_, fun p => ?_, fun p => ?_⟩
    · rw [Protocol.phase_start_idle rfl hi₁, Protocol.phase_start_idle rfl hi₂]
      exact h.seen
    · exact (Protocol.total_start_idle rfl hi₁).trans_le (h.count p)
    · exact (Protocol.total_start_idle rfl hi₁).trans_le (h.bound p)
  | env => exact ⟨held, h.seen, h.count, h.bound⟩
  | crash =>
    refine ⟨held, fun i p st now y hi => (by cases hi), fun p => ?_, fun p => ?_⟩
    · exact (Protocol.total_crash rfl).trans_le (Nat.zero_le _)
    · exact (Protocol.total_crash rfl).trans_le (Nat.zero_le _)
  | @did w w' tr i o c a he hg =>
    rw [relaying, Protocol.phase_prod] at hg
    have he : exec cfg i o c w = some (a, w') := he
    have counts : ∀ p, outstanding cfg (.did i o a :: tr) p ≤ (w'.state p).halfOpenProbes ∧
        outstanding cfg (.did i o a :: tr) p ≤ (cfg.circuitBreaker.halfOpenMaxProbes : ℕ) := by
      intro p
      by_cases hp : o.part = some .states
      · cases o with
        | setState q st => exact h.setState_did he hg.1 hg.2 hc p
        | loadStates rows => exact hg.1.elim
        | _ => simp [Op.part] at hp
      · have fewer := outstanding_did (a := a) hg.1 hp p
        have same : w'.state p = w.state p :=
          congrArg (fun st => (st p).getD {}) ((exec_frame cfg he).states hp)
        rw [same]
        exact ⟨fewer.trans (h.count p), fewer.trans (h.bound p)⟩
    refine ⟨held, fun k q st now y looked hy => ?_, fun p => (counts p).1, fun p => (counts p).2⟩
    by_cases hk : k = i
    · subst hk
      rw [Protocol.phase_did, Function.update_self] at looked hy
      exact h.seen_did hg.2 looked hy
    · rw [Protocol.phase_did, Function.update_of_ne hk] at looked hy
      exact h.seen k q st now y looked hy

end ProbesInv

/-- **At most `half_open_max_probes` probes at a time.** In every run in which no outcome of a
provider takes effect while a probe of another relay to it is out, the probes that are out are never
more than the limit. -/
theorem probes_bounded_unless_shared {w : World} {s : Pool Op Op.Ans Exc World Job ℚ}
    (h : (system cfg Job.ofDispatch).Reachable (Unshared cfg) (Machine.boot w) s) (p : String) :
    outstanding cfg s.trace p ≤ (cfg.circuitBreaker.halfOpenMaxProbes : ℕ) := by
  have init : ProbesInv cfg ⟨w, []⟩ := by
    refine ⟨fun i => (by trivial), fun i p st now y hi => (by cases hi), fun p => ?_, fun p => ?_⟩
    · exact (Protocol.total_nil rfl).trans_le (Nat.zero_le _)
    · exact (Protocol.total_nil rfl).trans_le (Nat.zero_le _)
  exact (Machine.invariant relaying_keeps (ProbesInv cfg) init (fun h hs hc =>
    h.step hs hc) h).1.bound p

/-! ### A stale outcome -/

/-- The breaker is being told an outcome. -/
def Stage.tells : Stage → Bool
  | .telling _ _ _ => true
  | _ => false

namespace Example

/-- A started process, four messages due. -/
def fourDue : World :=
  { twoDue with
    up := true
    db := { messages := [dueMessage 1, dueMessage 2, dueMessage 3, dueMessage 4] } }

/-- The provider answers 451. -/
def busy : Choice := .smtp (.raised (.response 451 "busy")) false

/-- Task `i` goes on for `n` operations, and nothing goes wrong. -/
def oks (i n : ℕ) : List (Move Choice Job ℚ) := List.replicate n (.run i .ok)

/-- Consumers 1 and 2 relay while the breaker is closed, and the failure of 2 opens it. After the
cooldown consumer 3 is relaying a probe. The failure of 1 opens the breaker again, and after the
next cooldown consumer 4 is admitted too. -/
def staleFailure : List (Move Choice Job ℚ) := List.flatten
  [[.start 0 .producer], oks 0 8, [.start 1 .consumer], oks 1 19, [.start 2 .consumer], oks 2 19,
    [.run 2 busy], oks 2 16, [.env 121, .start 3 .consumer], oks 3 23, [.run 1 busy], oks 1 16,
    [.env 121, .start 4 .consumer], oks 4 23]

/-- Two probes are out, with a limit of one. -/
theorem probes_unbounded_staleFailure : ∃ s,
    (system oneStrike Job.ofDispatch).Reachable Machine.Free (Machine.boot fourDue) s ∧
      (oneStrike.circuitBreaker.halfOpenMaxProbes : ℕ) < outstanding oneStrike s.trace "p" := by
  obtain ⟨s, hs, ha⟩ : ∃ s, (system oneStrike Job.ofDispatch).runFrom (Machine.boot fourDue)
      staleFailure = some s ∧ (((settlement oneStrike).phase s.trace 3).probes "p",
        ((settlement oneStrike).phase s.trace 4).probes "p") = (1, 1) :=
    Option.map_eq_some_iff.mp (by decide +kernel)
  refine ⟨s, Machine.Reachable.refl.runFrom hs, ?_⟩
  obtain ⟨three, four⟩ := Prod.mk.inj ha
  have both := Protocol.sum_le_total (P := settlement oneStrike)
      (f := Stage.probes "p") rfl s.trace {3, 4}
  rw [Finset.sum_pair (by decide), three, four] at both
  exact both

/-- The breaker has been open for longer than the cooldown. -/
def cooledDown : World :=
  { fourDue with
    states := fun _ => some { healthy := false, consecutiveFailures := 1, openedAt := some 63923749000 } }

/-- Consumer 1 is relaying a probe. -/
def oneProbe : List (Move Choice Job ℚ) := List.flatten
  [[.start 0 .producer], oks 0 8, [.start 1 .consumer], oks 1 23]

/-- The answer opens the breaker again; after the next cooldown consumer 2 is relaying a probe. -/
def probeAfterProbe : List (Move Choice Job ℚ) := List.flatten
  [oneProbe, [.run 1 busy], oks 1 16, [.env 121, .start 2 .consumer], oks 2 23]

/-- If an outcome is reported at this move, no other task has a probe out. -/
def unshared (m : Move Choice Job ℚ) (s : Pool Op Op.Ans Exc World Job ℚ) : Bool :=
  match m with
  | .run i _ =>
    match (settlement oneStrike).phase s.trace i with
    | .telling p _ _ => (s.trace.filterMap Protocol.task).all fun k =>
        k = i || ((settlement oneStrike).phase s.trace k).probes p = 0
    | _ => true
  | _ => true

theorem unshared_of_check {m : Move Choice Job ℚ} {s s' : Pool Op Op.Ans Exc World Job ℚ}
    (hm : unshared m s = true) (hs : (system oneStrike Job.ofDispatch).step m s = some s') :
    Unshared oneStrike s.toConfig s'.toConfig := by
  intro i p st a probe seen htr told
  obtain ⟨c, j, k, rfl, -, -⟩ := Machine.step_did hs htr
  have told : (settlement oneStrike).phase s.trace i = .telling p probe seen := told
  simp only [unshared, told, List.all_eq_true, Bool.or_eq_true, decide_eq_true_eq] at hm
  rw [← told]
  exact Protocol.total_eq_of_alone rfl fun k named other => (hm k named).resolve_left other

/-- An outcome has been reported, and then the limit is reached again. -/
theorem probes_bounded_probeAfterProbe : ∃ s,
    (system oneStrike Job.ofDispatch).runFrom (Machine.boot cooledDown) probeAfterProbe = some s ∧
      (s.shared.state "p").consecutiveFailures = 2 ∧ (s.shared.state "p").halfOpenProbes = 1 ∧
      outstanding oneStrike s.trace "p" ≤ (oneStrike.circuitBreaker.halfOpenMaxProbes : ℕ) := by
  obtain ⟨s, hs, ha⟩ : ∃ s, (system oneStrike Job.ofDispatch).runFrom (Machine.boot cooledDown)
      probeAfterProbe = some s ∧ ((s.shared.state "p").consecutiveFailures,
        (s.shared.state "p").halfOpenProbes) = (2, 1) :=
    Option.map_eq_some_iff.mp (by decide +kernel)
  obtain ⟨failures, probes⟩ := Prod.mk.inj ha
  have along : (system oneStrike Job.ofDispatch).along unshared (Machine.boot cooledDown)
      probeAfterProbe = true := by
    decide +kernel
  exact ⟨s, hs, failures, probes, probes_bounded_unless_shared
    (Machine.Reachable.refl.runFrom_along unshared_of_check along hs) "p"⟩

end Example

end SmtpSwitch
