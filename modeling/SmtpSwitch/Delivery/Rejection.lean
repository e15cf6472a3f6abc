import SmtpSwitch.Breaker.Probes
import SmtpSwitch.Delivery.Cycle

/-!
# Rejected

The reason `rejected` is meant for a message that every enabled provider has refused for good.
What a relay brought for each recipient is reduced to one code, the largest (`worstCode`), and
the code to a class, in which everything outside 2xx and 4xx is permanent (`classifyCode`). A
relay that is permanent by these rules although not all of its codes are 5xx is *blunt*; it is
exactly what makes the reason unsound (`rejected_sound_iff`). -/

namespace SmtpSwitch

open Coop Coop.Prog

/-- A permanent reply, 5xx. -/
def permanentCode (code : ℤ) : Prop := 500 ≤ code ∧ code < 600

/-- A temporary reply, 4xx. -/
def temporaryCode (code : ℤ) : Prop := 400 ≤ code ∧ code < 500

instance (code : ℤ) : Decidable (permanentCode code) := by unfold permanentCode; infer_instance

instance (code : ℤ) : Decidable (temporaryCode code) := by unfold temporaryCode; infer_instance

/-- The codes a relay was refused with. -/
def SendOutcome.codes : SendOutcome → List ℤ
  | .raised (.recipientsRefused rs) => rs.map Refusal.code
  | .raised (.response code _) => [code]
  | _ => []

/-- The refusals that concern recipient `r`: its own, or that of the whole message. -/
def SendOutcome.refusals (out : SendOutcome) (r : String) : List ℤ :=
  match out with
  | .returned rs _ => (rs.filter (·.recipient = r)).map Refusal.code
  | .raised (.recipientsRefused rs) => (rs.filter (·.recipient = r)).map Refusal.code
  | .raised (.response code _) => [code]
  | _ => []

/-- The relay has refused recipient `r` for good. -/
def SendOutcome.Refuses (out : SendOutcome) (r : String) : Prop :=
  out.refusals r ≠ [] ∧ ∀ code ∈ out.refusals r, permanentCode code

/-- Permanent as far as `relay` can tell, and yet not all of its codes are 5xx. -/
def SendOutcome.Blunt (out : SendOutcome) : Prop :=
  out.isPermanent ∧ ∃ code ∈ out.codes, ¬ permanentCode code

/-- All that recipient `r` was told are temporary refusals. -/
def OnlyTemporary (evs : Events) (r : String) : Prop :=
  (∃ p out, Relayed p out evs ∧ out.refusals r ≠ []) ∧
    ∀ p out, Relayed p out evs → ∀ code ∈ out.refusals r, temporaryCode code

/-- An `SMTPRecipientsRefused` that has one refusal for each recipient. -/
def Reported : (Σ o : Op, o.Ans) → Prop
  | ⟨.send _ _ _ recipients _ _, .raised (.recipientsRefused rs)⟩ =>
      rs.map Refusal.recipient = recipients
  | _ => True

instance : DecidablePred Reported := fun e => by unfold Reported; split <;> infer_instance

/-- `aiosmtplib` reports one refusal for each recipient when it raises `SMTPRecipientsRefused`. -/
def OneRefusalEach (evs : Events) : Prop := ∀ e ∈ evs, Reported e

instance (evs : Events) : Decidable (OneRefusalEach evs) := by unfold OneRefusalEach; infer_instance

variable (cfg : Settings) in
/-- The message of `row` is rightly called rejected after a cycle: every enabled provider has
refused it for every recipient, and as long as there are retries no recipient was only told to
wait. -/
structure RightlyRejected (row : Message) (evs : Events) : Prop where
  everyone : ∀ p ∈ enabledAtEnd cfg evs, (∃ out, Relayed p.name out evs) ∧
    ∀ out, Relayed p.name out evs → ∀ r ∈ row.rcptTo, out.Refuses r
  nobodyWaits : row.attempts + 1 < cfg.dispatch.retry.maxAttempts →
    ∀ r ∈ row.rcptTo, ¬ OnlyTemporary evs r

/-! ### One relay -/

/-- Only refusals with codes are permanent. -/
theorem SendOutcome.isPermanent_cases {out : SendOutcome} (h : out.isPermanent) :
    (∃ rs, out = .raised (.recipientsRefused rs)) ∨ ∃ code text,
      out = .raised (.response code text) := by
  obtain ⟨result, hr, hk⟩ := h
  cases out with
  | returned errors response =>
    cases hr
    cases hk
  | raisedOther e => cases hr
  | raised e =>
    cases hr
    cases e with
    | recipientsRefused rs => exact .inl ⟨rs, rfl⟩
    | response code text => exact .inr ⟨code, text, rfl⟩
    | connect t => cases hk
    | connectTimeout t => cases hk
    | connectResponse code t => cases hk
    | serverDisconnected t => cases hk
    | timeout t => cases hk
    | authentication code t => cases hk
    | other t => cases hk

/-- A permanent relay that is not blunt has refused every recipient. -/
theorem SendOutcome.not_blunt_iff {out : SendOutcome} {recipients : List String}
    (h : out.isPermanent) (hne : recipients ≠ [])
    (each : ∀ rs, out = .raised (.recipientsRefused rs) → rs.map Refusal.recipient = recipients) :
    ¬ out.Blunt ↔ ∀ r ∈ recipients, out.Refuses r := by
  have plain : ¬ out.Blunt ↔ ∀ code ∈ out.codes, permanentCode code := by
    unfold SendOutcome.Blunt
    simp only [h, true_and, not_exists, not_and, not_not]
  rw [plain]
  rcases SendOutcome.isPermanent_cases h with ⟨rs, rfl⟩ | ⟨code, text, rfl⟩
  · have recipients_eq := each rs rfl
    constructor
    · intro all r hr
      rw [← recipients_eq] at hr
      obtain ⟨x, hx, rfl⟩ := List.mem_map.mp hr
      have own : x ∈ rs.filter (·.recipient = x.recipient) := List.mem_filter.mpr ⟨hx, by simp⟩
      refine ⟨List.ne_nil_of_mem (List.mem_map_of_mem own), fun code hc => ?_⟩
      obtain ⟨y, hy, rfl⟩ := List.mem_map.mp hc
      exact all _ (List.mem_map_of_mem (List.mem_filter.mp hy).1)
    · intro refuses code hc
      obtain ⟨x, hx, rfl⟩ := List.mem_map.mp hc
      have hr : x.recipient ∈ recipients := recipients_eq ▸ List.mem_map_of_mem hx
      have own : x ∈ rs.filter (·.recipient = x.recipient) := List.mem_filter.mpr ⟨hx, by simp⟩
      exact (refuses _ hr).2 _ (List.mem_map_of_mem own)
  · constructor
    · intro all r _
      exact ⟨List.cons_ne_nil _ _, all⟩
    · intro refuses
      obtain ⟨r, hr⟩ := List.exists_mem_of_ne_nil _ hne
      exact (refuses r hr).2

/-- Who is refused for good is not only told to wait. -/
theorem SendOutcome.Refuses.not_onlyTemporary {out : SendOutcome} {r p : String} {evs : Events}
    (h : out.Refuses r) (hr : Relayed p out evs) : ¬ OnlyTemporary evs r := by
  rintro ⟨-, temporary⟩
  obtain ⟨code, hc⟩ := List.exists_mem_of_ne_nil _ h.1
  have h₁ := temporary p out hr code hc
  have h₂ := h.2 code hc
  unfold temporaryCode at h₁
  unfold permanentCode at h₂
  omega

/-! ### The cycle -/

variable {cfg : Settings}

theorem FailoverTurn.addressed {id : ℕ} {snapshot : MsgSnapshot} {raw : Bytes}
    {exclude : List String}
    {evs : Events} {decision : RouteDecision} {out : SendOutcome} {result : RelayResult}
    (h : FailoverTurn cfg id snapshot raw exclude evs decision out result) {p sender : String}
    {kwargs : SendKwargs} {recipients : List String} {raw' : Bytes} {errand : Errand}
    {out' : SendOutcome}
    (hm : (⟨.send p kwargs sender recipients raw' errand, out'⟩ : Σ o : Op, o.Ans) ∈ evs) :
    recipients = snapshot.rcptTo := by
  obtain ⟨chosen, t, kwargs', tail, hc, rfl, ht⟩ := h.run
  rcases List.mem_append.mp hm with hm | hm
  · exact absurd ⟨kwargs, sender, recipients, raw', errand, hm⟩
      (not_relayed_of_aftermath (aftermath_of_router (tame_select cfg exclude) hc))
  rcases List.mem_cons.mp hm with heq | hm
  · cases heq
  rcases List.mem_cons.mp hm with heq | hm
  · cases heq
    rfl
  · exact absurd ⟨kwargs, sender, recipients, raw', errand, hm⟩ (not_relayed_of_aftermath ht)

/-- Every relay of the loop is for all recipients of the message. -/
theorem FailoverLoop.addressed {id n : ℕ} {snapshot : MsgSnapshot} {raw : Bytes} {c c' : Cycle}
    {evs : Events} (h : FailoverLoop cfg id snapshot raw n c evs c') {p sender : String}
    {kwargs : SendKwargs} {recipients : List String} {raw' : Bytes} {errand : Errand}
    {out : SendOutcome}
    (hm : (⟨.send p kwargs sender recipients raw' errand, out⟩ : Σ o : Op, o.Ans) ∈ evs) :
    recipients = snapshot.rcptTo := by
  induction h with
  | usedUp => cases hm
  | nobody h =>
    exact absurd ⟨kwargs, sender, recipients, raw', errand, hm⟩
      (not_relayed_of_aftermath (aftermath_of_router (tame_select cfg _) h))
  | turn ht _ ih =>
    rcases List.mem_append.mp hm with hm | hm
    · exact ht.addressed hm
    · exact ih hm

/-- What a cycle that ends as rejected was like. -/
theorem GivingUp.rejected {id : ℕ} {row : Message} {evs : Events}
    (h : GivingUp cfg id row .rejected evs) (each : OneRefusalEach evs) :
    (∀ p ∈ enabledAtEnd cfg evs, ∃ out, Relayed p.name out evs) ∧
      ∀ p out, Relayed p out evs → out.isPermanent ∧
        ∀ rs, out = .raised (.recipientsRefused rs) → rs.map Refusal.recipient = row.rcptTo := by
  obtain ⟨n, t, raw, loop, last, cycle, rfl, hloop, hlast, hg⟩ := h.run
  obtain ⟨-, -, rows, overrides, rejected, -⟩ := handleNoSuccess_path hlast hg (.inl rfl)
  obtain ⟨-, transient, connect, tried⟩ := rejected rfl
  obtain ⟨-, -, permanent⟩ := hloop.permanent transient connect
  have looked : enabledAtEnd cfg (⟨.commit .process [], .ok n⟩ :: ⟨.utcnow, t⟩ ::
      ⟨.spoolRead row.spoolPath, .ok raw⟩ :: (loop ++ last)) = enabledProviders cfg rows := by
    simp [enabledAtEnd, lastOverrides, lastOverrides_append, overrides]
  refine ⟨fun p hp => ?_, fun p out hr => ?_⟩
  · rw [looked] at hp
    rcases hloop.tried (tried p hp) with hp | ⟨out, hr⟩
    · cases hp
    · exact ⟨out, (relayed_giveUp hlast).mpr hr⟩
  · have hr := (relayed_giveUp hlast).mp hr
    refine ⟨permanent p out hr, ?_⟩
    rintro rs rfl
    obtain ⟨kwargs, sender, recipients, raw', errand, hm⟩ := hr
    have reported : rs.map Refusal.recipient = recipients := each _ (List.mem_cons_of_mem _
      (List.mem_cons_of_mem _ (List.mem_cons_of_mem _ (List.mem_append_left last hm))))
    rw [reported, hloop.addressed hm]
    rfl

/-- **When the reason rejected is sound.** In every run of the system, of a message a consumer has
just given up as rejected. -/
theorem rejected_sound_iff {jobs : Job → Bool} {C : Moment → Moment → Prop} {w : World}
    {s : Pool Op Op.Ans Exc World Job ℚ} (hs : (system cfg jobs).Reachable C (Machine.boot w) s)
    {i id : ℕ} {row : Message} {evs : Events} (hc : cycleLog s.trace i = some (id, row, evs))
    (hg : GivenUp id .rejected evs) (hne : row.rcptTo ≠ []) (each : OneRefusalEach evs) :
    RightlyRejected cfg row evs ↔
      (∀ p ∈ enabledAtEnd cfg evs, ∀ out, Relayed p.name out evs → ¬ out.Blunt) ∧
      (enabledAtEnd cfg evs = [] → row.attempts + 1 < cfg.dispatch.retry.maxAttempts →
        ∀ r ∈ row.rcptTo, ¬ OnlyTemporary evs r) := by
  have giving := givingUp_of_cycleLog hs hc hg (.inl rfl)
  obtain ⟨asked, relayed⟩ := giving.rejected each
  have plain : ∀ {p : String} {out : SendOutcome}, Relayed p out evs →
      (¬ out.Blunt ↔ ∀ r ∈ row.rcptTo, out.Refuses r) :=
    fun hr => SendOutcome.not_blunt_iff (relayed _ _ hr).1 hne (relayed _ _ hr).2
  constructor
  · intro right
    refine ⟨fun p hp out hr => (plain hr).mpr ((right.everyone p hp).2 out hr), fun _ =>
      right.nobodyWaits⟩
  · rintro ⟨notBlunt, nobody⟩
    have everyone : ∀ p ∈ enabledAtEnd cfg evs, ∀ out, Relayed p.name out evs →
        ∀ r ∈ row.rcptTo, out.Refuses r :=
      fun p hp out hr => (plain hr).mp (notBlunt p hp out hr)
    refine ⟨fun p hp => ⟨asked p hp, everyone p hp⟩, fun retries r hrcpt => ?_⟩
    rcases List.eq_nil_or_concat (enabledAtEnd cfg evs) with none | ⟨_, p, hp⟩
    · exact nobody none retries r hrcpt
    · have hp : p ∈ enabledAtEnd cfg evs := by simp [hp]
      obtain ⟨out, hr⟩ := asked p hp
      exact (everyone p hp out hr r hrcpt).not_onlyTemporary hr

namespace Example

/-- A message for two recipients is due. -/
def toTwo : World :=
  { fourDue with db := { messages := [{ dueMessage 1 with rcptTo := ["a@y", "b@y"] }] } }

/-- Both recipients are refused, with these codes. -/
def refusedWith (a b : ℤ) : SendOutcome :=
  .raised (.recipientsRefused
    [{ recipient := "a@y", code := a, message := "mailbox" },
      { recipient := "b@y", code := b, message := "mailbox" }])

/-- Consumer 1 relays the message, both recipients are refused, and there is no other provider. -/
def refuseBoth (a b : ℤ) : List (Move Choice Job ℚ) := List.flatten
  [[.start 0 .producer], oks 0 5, [.start 1 .consumer], oks 1 19,
    [.run 1 (.smtp (refusedWith a b) false)], oks 1 18]

/-- What of a cycle the examples look at. -/
structure CycleSummary where
  recipients : List String
  relays : List (String × SendOutcome)
  enabled : List String
  gaveUp : Bool
  reported : Bool
  deriving DecidableEq

/-- The summary of a cycle with message 1. -/
def summary (cfg : Settings) (reason : DeadletterReason) (detail : String)
    (c : ℕ × Message × Events) :
    CycleSummary where
  recipients := c.2.1.rcptTo
  relays := SmtpSwitch.relays c.2.2
  enabled := (enabledAtEnd cfg c.2.2).map ProviderConfig.name
  gaveUp := c.1 = 1 && c.2.2.any (givesUp 1 reason (some detail))
  reported := decide (OneRefusalEach c.2.2)

/-- One recipient was only told to wait, with retries left, and the message is given up. -/
theorem rejected_unsound_refuseBoth : ∃ s row evs,
    (system oneStrike Job.ofProcess).Reachable Machine.Free (Machine.boot toTwo) s ∧
      cycleLog s.trace 1 = some (1, row, evs) ∧ GivenUp 1 .rejected evs ∧ OneRefusalEach evs ∧
      row.rcptTo = ["a@y", "b@y"] ∧ ¬ RightlyRejected oneStrike row evs := by
  obtain ⟨s, hs, ha⟩ : ∃ s, (system oneStrike Job.ofProcess).runFrom (Machine.boot toTwo)
      (refuseBoth 450 550) = some s ∧ (cycleLog s.trace 1).map
        (summary oneStrike .rejected "all recipients refused") = some
          ⟨["a@y", "b@y"], [("p", refusedWith 450 550)], ["p"], true, true⟩ :=
    Option.map_eq_some_iff.mp (by decide +kernel)
  obtain ⟨⟨id, row, evs⟩, hc, hsum⟩ := Option.map_eq_some_iff.mp ha
  simp only [summary, CycleSummary.mk.injEq, Bool.and_eq_true, decide_eq_true_eq] at hsum
  obtain ⟨recipients, relayed, enabled, ⟨rfl, given⟩, each⟩ := hsum
  refine ⟨s, row, evs, Machine.Reachable.refl.runFrom hs, hc, givenUp_of_any given, each,
    recipients, ?_⟩
  intro right
  obtain ⟨p, hp, hname⟩ :=
    List.mem_map.mp (enabled ▸ List.mem_cons_self : "p" ∈ (enabledAtEnd oneStrike
    evs).map ProviderConfig.name)
  have refuses := (right.everyone p hp).2 (refusedWith 450 550)
    (mem_relays.mp (by simp [relayed, hname])) "a@y" (by simp [recipients])
  have := refuses.2 450 (by simp [refusedWith, SendOutcome.refusals])
  exact absurd this (by decide)

theorem rejected_sound_refuseBoth : ∃ s row evs,
    (system oneStrike Job.ofProcess).runFrom (Machine.boot toTwo) (refuseBoth 551 550) = some s ∧
      cycleLog s.trace 1 = some (1, row, evs) ∧ RightlyRejected oneStrike row evs := by
  obtain ⟨s, hs, ha⟩ : ∃ s, (system oneStrike Job.ofProcess).runFrom (Machine.boot toTwo)
      (refuseBoth 551 550) = some s ∧ (cycleLog s.trace 1).map
        (summary oneStrike .rejected "all recipients refused") = some
          ⟨["a@y", "b@y"], [("p", refusedWith 551 550)], ["p"], true, true⟩ :=
    Option.map_eq_some_iff.mp (by decide +kernel)
  obtain ⟨⟨id, row, evs⟩, hc, hsum⟩ := Option.map_eq_some_iff.mp ha
  simp only [summary, CycleSummary.mk.injEq, Bool.and_eq_true, decide_eq_true_eq] at hsum
  obtain ⟨recipients, relayed, enabled, ⟨rfl, given⟩, each⟩ := hsum
  refine ⟨s, row, evs, hs, hc, (rejected_sound_iff (Machine.Reachable.refl.runFrom hs) hc
    (givenUp_of_any given) (by simp [recipients]) each).mpr ⟨fun p hp out hr => ?_, fun none => ?_⟩⟩
  · have := mem_relays.mpr hr
    simp only [relayed, List.mem_singleton, Prod.mk.injEq] at this
    obtain ⟨-, rfl⟩ := this
    rintro ⟨-, code, hcode, notPermanent⟩
    simp only [refusedWith, SendOutcome.codes, List.map_cons, List.map_nil, List.mem_cons,
      List.not_mem_nil, or_false] at hcode
    rcases hcode with rfl | rfl <;> exact notPermanent (by decide)
  · rw [none] at enabled
    cases enabled

end Example

end SmtpSwitch
