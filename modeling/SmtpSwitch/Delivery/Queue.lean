import SmtpSwitch.Delivery.Upkeep

/-!
# The work queue

The producer claims messages in batches and queues their ids one by one; the
consumers take them. Between a claim and the last `put` of its batch other tasks
run, but there is one producer: so the ids reach the consumers in the order of
the claims, each exactly once for each time it was claimed
(`claims_reach_consumers`).

First, of any queue that some operations append to and others take the head of: what has
been taken, followed by what is in the queue, is what has been put in, in the same
order (`Reachable.fifo`): nothing is lost, repeated or overtaken while the
process lives. A crash empties the queue, and the account starts afresh.
-/

namespace Coop

variable {Op : Type} {Ans : Op → Type} {ε σ Choice Job Env X : Type}

/-- What the operations since the last crash have contributed, oldest first. -/
def contributed (f : (o : Op) → Ans o → List X) : List (Entry Op Ans Job Env) → List X
  | [] => []
  | .did _ o a :: tr => contributed f tr ++ f o a
  | .crash :: _ => []
  | _ :: tr => contributed f tr

namespace Machine

variable (M : Machine Op Ans ε σ Choice Job Env)

/-- A queue: the operations put the elements `puts` at its end and take those of `gets` from its
head. -/
structure Channel (puts gets : (o : Op) → Ans o → List X) (buffer : σ → List X) : Prop where
  exec : ∀ {i o c w w'} {a : Ans o}, M.exec i o c w = some (a, w') →
    gets o a ++ buffer w' = buffer w ++ puts o a
  env : ∀ x w, buffer (M.env x w) = buffer w
  reboot : ∀ w, buffer (M.reboot w) = []

variable {M} {puts gets : (o : Op) → Ans o → List X} {buffer : σ → List X}
  {C : Config Op Ans σ Job Env → Config Op Ans σ Job Env → Prop} {w : σ}
  {s : Pool Op Ans ε σ Job Env}

/-- What was put in has been taken out, in this order, or is still there. -/
theorem Reachable.fifo (hch : M.Channel puts gets buffer) (hw : buffer w = [])
    (h : M.Reachable C (boot w) s) :
    contributed gets s.trace ++ buffer s.shared = contributed puts s.trace := by
  induction h with
  | refl => exact hw
  | @step s s' m _ hm _ ih =>
    cases m with
    | start i j =>
      obtain ⟨-, -, rfl⟩ := step_start hm
      exact ih
    | run i c =>
      obtain ⟨j, o, k, a, w', -, he, rfl⟩ := step_run hm
      calc contributed gets s.trace ++ gets o a ++ buffer w'
          = contributed gets s.trace ++ (buffer s.shared ++ puts o a) := by
            rw [List.append_assoc, hch.exec he]
        _ = contributed puts s.trace ++ puts o a := by rw [← List.append_assoc, ih]
    | env x =>
      cases hm
      exact (congrArg _ (hch.env x s.shared)).trans ih
    | crash =>
      cases hm
      exact hch.reboot s.shared

end Machine

end Coop

namespace SmtpSwitch

open Coop Coop.Prog

/-- The id an operation puts on the work queue. -/
def queuePuts : (o : Op) → o.Ans → List ℕ
  | .queuePut id, _ => [id]
  | _, _ => []

/-- The id an operation takes from the work queue. -/
def queueGets : (o : Op) → o.Ans → List ℕ
  | .queueGet, id => [id]
  | _, _ => []

/-- The ids a committed session marks as being sent. -/
def queueClaims : (o : Op) → o.Ans → List ℕ
  | .commit _ [.updateMessages wh v], .ok _ => if v.status = .sending then wh.ids.getD [] else []
  | _, _ => []

/-- What the producer has claimed and still has to queue. -/
def Duty.unqueued : Duty → List ℕ
  | .batch ids => ids
  | _ => []

variable {cfg : Settings} {jobs : Job → Bool}

theorem queue_channel : (system cfg jobs).Channel queuePuts queueGets World.queue where
  exec {i o c w w' a} he := by
    cases o with
    | queueGet =>
      obtain ⟨rest, hq, rfl⟩ := exec_queueGet he
      simp [queueGets, queuePuts, hq]
    | queuePut id =>
      obtain rfl := exec_queuePut he
      simp [queueGets, queuePuts]
    | _ => simpa [queueGets, queuePuts] using (exec_frame cfg he).queue (by simp [Op.part])
  env _ _ := rfl
  reboot _ := rfl

theorem queueClaims_eq_nil {o : Op} {a : o.Ans} (h : ∀ site wh v n,
    (⟨o, a⟩ : Σ o : Op, o.Ans) ≠ ⟨.commit site [.updateMessages wh v], .ok n⟩) :
      queueClaims o a = [] := by
  unfold queueClaims
  split
  · exact absurd rfl (h _ _ _ _)
  · rfl

/-- What is left to queue changes with a claim and with a `put` only. -/
theorem unqueued_beside {φ : Duty} {o : Op} {a : o.Ans} (put : ∀ id, o ≠ .queuePut id)
    (claim : ∀ ids site wh v n, φ = .due ids →
      (⟨o, a⟩ : Σ o : Op, o.Ans) ≠ ⟨.commit site [.updateMessages wh v], .ok n⟩) :
    (φ.next o a).unqueued = φ.unqueued := by
  by_cases batch : ∃ ids, φ = .batch ids
  · obtain ⟨ids, rfl⟩ := batch
    cases o with
    | queuePut id => exact absurd rfl (put id)
    | _ => rfl
  · have nothing : φ.unqueued = [] := by
      cases φ with
      | batch ids => exact absurd ⟨ids, rfl⟩ batch
      | _ => rfl
    have next := φ.next_cases o a
    generalize φ.next o a = φ' at next ⊢
    cases next with
    | same => rfl
    | batch => exact absurd rfl (claim _ _ _ _ _ rfl)
    | queued => exact absurd rfl (put _)
    | _ => exact nothing.symm

/-- An update that marks messages as being sent is a claim. -/
theorem due_of_queueClaims {φ : Duty} {wh : MessageWhere} {v : MessageValues}
    (h : Updates cfg φ wh v) :
    v.status = .sending ∧ (∃ ids, φ = .due ids ∧ wh.ids = some ids) ∨
      v.status ≠ .sending ∧ ∀ ids, φ ≠ .due ids := by
  cases h with
  | claim => exact .inl ⟨rfl, _, rfl, rfl⟩
  | _ => exact .inr ⟨fun h => (by cases h), fun ids h => (by cases h)⟩

/-- A claim adds to what is left to queue, and a `put` takes the first of it. -/
theorem unqueued_next {φ : Duty} {o : Op} {a : o.Ans} (hg : φ.good cfg o a) :
    φ.unqueued ++ queueClaims o a = queuePuts o a ++ (φ.next o a).unqueued := by
  have beside : queueClaims o a = [] → queuePuts o a = [] → (∀ id, o ≠ .queuePut id) →
      (∀ ids site wh v n, φ = .due ids →
        (⟨o, a⟩ : Σ o : Op, o.Ans) ≠ ⟨.commit site [.updateMessages wh v], .ok n⟩) →
        φ.unqueued ++ queueClaims o a = queuePuts o a ++ (φ.next o a).unqueued := by
    intro hc hp put claim
    rw [hc, hp, unqueued_beside put claim, List.append_nil, List.nil_append]
  by_cases put : ∃ id, o = .queuePut id
  · obtain ⟨id, rfl⟩ := put
    obtain ⟨ids, rfl⟩ := hg
    by_cases last : ids = []
    · simp [Duty.unqueued, Duty.next, queueClaims, queuePuts, last]
    · simp [Duty.unqueued, Duty.next, queueClaims, queuePuts, last]
  have put : ∀ id, o ≠ .queuePut id := fun id h => put ⟨id, h⟩
  have puts : queuePuts o a = [] := by
    cases o with
    | queuePut id => exact absurd rfl (put id)
    | _ => rfl
  by_cases update : ∃ site wh v n, (⟨o, a⟩ : Σ o : Op, o.Ans) =
    ⟨.commit site [.updateMessages wh v], .ok n⟩
  · obtain ⟨site, wh, v, n, heq⟩ := update
    cases heq
    rcases due_of_queueClaims hg with ⟨sending, ids, rfl, hids⟩ | ⟨other, notDue⟩
    · simp [Duty.unqueued, Duty.next, queueClaims, queuePuts, sending, hids]
    · exact beside (by simp [queueClaims, other]) puts put fun ids _ _ _ _ hφ _ => notDue ids hφ
  · have other : ∀ site wh v n, (⟨o, a⟩ : Σ o : Op, o.Ans) ≠
      ⟨.commit site [.updateMessages wh v], .ok n⟩ :=
      fun site wh v n heq => update ⟨site, wh, v, n, heq⟩
    exact beside (queueClaims_eq_nil other) puts put fun _ site wh v n _ => other site wh v n

/-- A requeue or a sweep neither claims nor queues. -/
theorem queueClaims_upkeep {u : Upkeep} {o : Op} {a : o.Ans} (hg : u.good o a) :
    queueClaims o a = [] ∧ queuePuts o a = [] := by
  cases o with
  | commit site ss =>
    have hg : u.writes ss := hg
    rcases ss with _ | ⟨s, _ | ⟨s', rest⟩⟩
    · exact ⟨by simp [queueClaims], rfl⟩
    · cases s with
      | updateMessages wh v => cases hg
      | _ => exact ⟨by simp [queueClaims], rfl⟩
    · exact ⟨by simp [queueClaims], rfl⟩
  | _ => first | exact ⟨rfl, rfl⟩ | cases hg

/-- A claim is made with nothing left to queue, and queues nothing. -/
theorem unqueued_of_claim {φ : Duty} {o : Op} {a : o.Ans} (hg : φ.good cfg o a)
    (claims : queueClaims o a ≠ []) : φ.unqueued = [] ∧ queuePuts o a = [] := by
  by_cases update : ∃ site wh v n,
      (⟨o, a⟩ : Σ o : Op, o.Ans) = ⟨.commit site [.updateMessages wh v], .ok n⟩
  · obtain ⟨site, wh, v, n, heq⟩ := update
    cases heq
    rcases due_of_queueClaims hg with ⟨-, ids, rfl, -⟩ | ⟨other, -⟩
    · exact ⟨rfl, rfl⟩
    · exact absurd (by simp [queueClaims, other]) claims
  · exact absurd (queueClaims_eq_nil fun site wh v n heq => update ⟨site, wh, v, n, heq⟩) claims

/-- The ids of the last claim since the process was started. -/
def lastClaim : List (Entry Op Op.Ans Job ℚ) → List ℕ
  | .did _ o a :: tr => if queueClaims o a = [] then lastClaim tr else queueClaims o a
  | .start _ _ :: tr | .env _ :: tr => lastClaim tr
  | [] | .crash :: _ => []

/-- What the producer has claimed and still has to queue. -/
abbrev unqueued (cfg : Settings) (x : Moment) : List ℕ :=
  ((delivery cfg).phase x.trace 0).unqueued

/-- A claim joins what is left to queue, and a `put` takes the first of it. -/
theorem unqueued_step {x x' : Moment} (h : Staged cfg x)
    (hs : (system cfg jobs).Step (dispatch cfg) x x') :
    x'.trace = .crash :: x.trace ∨ ∃ claims puts,
      contributed queueClaims x'.trace = contributed queueClaims x.trace ++ claims ∧
      contributed queuePuts x'.trace = contributed queuePuts x.trace ++ puts ∧
      lastClaim x'.trace = (if claims = [] then lastClaim x.trace else claims) ∧
      unqueued cfg x ++ claims = puts ++ unqueued cfg x' ∧
      (claims ≠ [] → unqueued cfg x = [] ∧ puts = []) := by
  rcases upkeep_or_delivery hs with hs | ⟨i, hs⟩
  swap
  · obtain ⟨o, a, htr, hg⟩ := hs.did
    have same : unqueued cfg x' = unqueued cfg x := by rw [unqueued, hs.duties]
    have neither := queueClaims_upkeep hg
    refine .inr ⟨[], [], ?_, ?_, ?_, by simp [same], fun claims => absurd rfl claims⟩
    · rw [htr, contributed, neither.1]
    · rw [htr, contributed, neither.2]
    · rw [htr, lastClaim, neither.1]
  cases hs with
  | @start w tr i j ha hi =>
    have same : ((delivery cfg).phase (.start i j :: tr) 0).unqueued =
        ((delivery cfg).phase tr 0).unqueued := by
      rw [Protocol.phase_start, Function.update_apply]
      split
      · subst i
        rw [hi]
        cases j <;> rfl
      · rfl
    exact .inr ⟨[], [], by simp [contributed], by simp [contributed], rfl,
      (List.append_nil _).trans same.symm, fun claims => absurd rfl claims⟩
  | env =>
    exact .inr ⟨[], [], by simp [contributed], by simp [contributed], rfl, List.append_nil _,
      fun claims => absurd rfl claims⟩
  | crash => exact .inl rfl
  | @did w w' tr i o c a he hg =>
    have hg : ((delivery cfg).phase tr i).good cfg o a := hg
    have own := unqueued_next hg
    refine .inr ⟨queueClaims o a, queuePuts o a, rfl, rfl, rfl, ?_⟩
    simp only [unqueued, phase_did_apply]
    by_cases hi : i = 0
    · subst i
      rw [if_pos rfl]
      exact ⟨own, unqueued_of_claim hg⟩
    · -- what another task does is neither a claim nor a `put`
      have unfirst : ∀ φ : Duty, φ.first = false → φ.unqueued = [] := by
        intro φ hφ
        cases φ <;> first | rfl | cases hφ
      have before : ((delivery cfg).phase tr i).first = false := by
        by_contra first
        exact hi (h.first i (by simpa using first))
      have after : (((delivery cfg).phase tr i).next o a).first = false := by
        by_contra first
        rw [(grows_next _ o a).first (by simpa using first)] at before
        cases before
      rw [unfirst _ before, unfirst _ after, List.nil_append, List.append_nil] at own
      have putless : queuePuts o a = [] := by
        cases o with
        | queuePut id =>
          obtain ⟨ids, hids⟩ := hg
          rw [hids] at before
          cases before
        | _ => rfl
      rw [own, putless, if_neg (Ne.symm hi)]
      exact ⟨by simp, fun claims => absurd rfl claims⟩

/-- What has been claimed is what has been queued, and then what the producer still has to queue,
which is the end of the last claim. -/
structure Queued (cfg : Settings) (x : Moment) : Prop where
  staged : Staged cfg x
  claims : contributed queueClaims x.trace = contributed queuePuts x.trace ++ unqueued cfg x
  last : unqueued cfg x <:+ lastClaim x.trace

theorem Queued.step {x x' : Moment} (h : Queued cfg x)
    (hs : (system cfg jobs).Step (dispatch cfg) x x') : Queued cfg x' := by
  have staged : Staged cfg x' := by
    rcases upkeep_or_delivery hs with hs | ⟨i, hs⟩
    · exact h.staged.step hs
    · exact h.staged.beside hs
  rcases unqueued_step h.staged hs with crashed | ⟨claims, puts, hc, hp, hl, moved, fresh⟩
  · refine ⟨staged, ?_, ?_⟩
    · rw [unqueued, crashed]
      rfl
    · rw [unqueued, crashed]
      exact List.nil_suffix
  · refine ⟨staged, ?_, ?_⟩
    · rw [hc, hp, h.claims, List.append_assoc, moved, List.append_assoc]
    · rw [hl]
      split
      · rename_i none_claimed
        rw [none_claimed, List.append_nil] at moved
        exact (moved ▸ List.suffix_append puts (unqueued cfg x')).trans h.last
      · rename_i claimed
        rw [(fresh claimed).1, (fresh claimed).2] at moved
        exact (show claims = unqueued cfg x' from moved) ▸ List.suffix_rfl

/-- **The work queue is in order.** In every run of the dispatcher, the ingress server and the
message API, the ids claimed since the process was started are, in the order of the claims, the
ids the consumers have taken, then those in the queue, then those the producer has still to queue.
These are the last of its last claim; and a producer that is not at work has none. -/
theorem claims_reach_consumers (cfg : Settings) {jobs : Job → Bool}
    (hj : ∀ j, jobs j = true → j.onMessages = true) {w : World} (empty : w.queue = [])
    {C : Moment → Moment → Prop} {s : Pool Op Op.Ans Exc World Job ℚ}
    (h : (system cfg jobs).Reachable C (Machine.boot w) s) :
    ∃ rest, contributed queueClaims s.trace =
        contributed queueGets s.trace ++ s.shared.queue ++ rest ∧
      rest <:+ lastClaim s.trace ∧ (s.tasks 0 = none → rest = []) := by
  have staged : Staged cfg ⟨w, []⟩ :=
    ⟨fun i hi => (by cases hi), fun i hi => (by cases hi), fun _ => ⟨empty, fun i => rfl⟩⟩
  obtain ⟨⟨-, queued, last⟩, inPhase⟩ := Machine.invariant (dispatch_keeps hj) (Queued cfg)
    ⟨staged, rfl, List.nil_suffix⟩ (fun hx hs _ => hx.step hs) h
  refine ⟨_, by rw [queued, h.fifo queue_channel empty], last, fun done => ?_⟩
  have rest : Machine.Rest (dispatch cfg) (s.tasks 0) ((dispatch cfg).phase s.trace 0) := inPhase 0
  rw [done, show (dispatch cfg).phase s.trace 0 = _ from Protocol.phase_either s.trace 0] at rest
  have idle : (delivery cfg).phase s.trace 0 = .idle := congrArg Prod.fst rest
  rw [unqueued, idle]
  rfl

namespace Example

/-- Two messages are claimed, the first is queued, and a consumer takes it. -/
def firstTaken : List (Move Choice Job ℚ) := List.flatten
  [[.start 0 .producer], List.replicate 5 (.run 0 .ok), [.start 1 .consumer, .run 1 .ok]]

theorem claims_reach_consumers_firstTaken : ∃ s,
    (system oneStrike Job.onMessages).runFrom (Machine.boot { twoDue with up := true })
        firstTaken = some s ∧
      (contributed queueClaims s.trace, contributed queueGets s.trace, s.shared.queue,
        lastClaim s.trace) = ([1, 2], [1], [], [1, 2]) ∧
      ∃ rest, contributed queueClaims s.trace =
          contributed queueGets s.trace ++ s.shared.queue ++ rest ∧
        rest <:+ lastClaim s.trace ∧ (s.tasks 0 = none → rest = []) := by
  obtain ⟨s, hs, ha⟩ : ∃ s,
      (system oneStrike Job.onMessages).runFrom (Machine.boot { twoDue with up := true })
          firstTaken = some s ∧
        (contributed queueClaims s.trace, contributed queueGets s.trace, s.shared.queue,
          lastClaim s.trace) = ([1, 2], [1], [], [1, 2]) :=
    Option.map_eq_some_iff.mp (by decide +kernel)
  exact ⟨s, hs, ha, claims_reach_consumers oneStrike (fun _ h => h) rfl
    (Machine.Reachable.refl.runFrom hs)⟩

end Example

end SmtpSwitch
