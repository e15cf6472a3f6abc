import SmtpSwitch.Settlement.Protocol

/-!
# `_process` keeps to the settlement

Function by function, from the router's loop up to a turn of the consumer: each
starts with nothing to settle and ends, with a result or an exception, either
with nothing to settle or lost.
-/

namespace SmtpSwitch

open Coop Coop.Prog

variable {cfg : Settings}

/-- What a routing decision leaves to settle. -/
def Decided : Option RouteDecision → Stage → Prop
  | none, t => t = .clear
  | some d, t => ∃ probe seen, t = .reserved d.reservation probe seen

theorem follows_selectFrom_settle (exclude : List String) : ∀ ps, (∀ p ∈ ps, p ∈ cfg.providers) →
    (selectFrom cfg exclude ps).Follows (settlement cfg) (Ends Decided) .clear
  | [], _ => rfl
  | p :: rest, h => by
    have hp := Settings.provider_of_mem (h p List.mem_cons_self)
    have ih := follows_selectFrom_settle exclude rest fun q hq => h q (List.mem_cons_of_mem _ hq)
    unfold selectFrom
    split
    · exact ih
    refine follows_perform fun x => ⟨trivial, ?_⟩
    obtain ⟨st, now⟩ := x
    simp only [Prog.pure_eq, Prog.bind_eq]
    split
    · refine Follows.bind ((follows_tryReserve_settle p.name).tame
        (RateLimiter.tame_tryReserve cfg hp)) ?_ fun e t ht => ht.1
      rintro (_ | r) t ⟨ht, hr⟩
      · rw [show t = .clear from ht]
        exact ih
      · obtain rfl : t = .reserved r false none := ht
        have hrp : r.provider = p.name := hr _ rfl r rfl
        simp only
        rw [← hrp]
        refine follows_then (follows_beginProbe_settle r) ?_
        rintro ok _ ⟨probe, seen, rfl, hok⟩
        cases ok with
        | true => exact ⟨probe, seen, rfl⟩
        | false =>
          obtain rfl := hok rfl
          refine follows_then (follows_release_select r seen) ?_
          rintro _ _ rfl
          exact ih
    · exact ih

theorem follows_select_settle (exclude : List String) :
    (select cfg exclude).Follows (settlement cfg) (Ends Decided) .clear :=
  follows_perform fun _ => ⟨trivial,
    follows_selectFrom_settle exclude _ fun _ hp => ((mem_enabledProviders cfg).mp hp).1⟩

theorem follows_relay_settle {p : ProviderConfig} {errand : Errand} {probe : Bool}
    {seen : Option (ProviderState × Time)} (hp : p.name = errand.reservation.provider)
    (sender : String) (rcpts : List String) (raw : Bytes) :
    (relay p sender rcpts raw errand).Follows (settlement cfg)
      (Ends fun _ t => t = .relayed errand.reservation probe)
      (.reserved errand.reservation probe seen) := by
  refine follows_perform fun out => ⟨⟨hp, probe, seen, rfl⟩, ?_⟩
  cases out with
  | returned errors response => exact rfl
  | raised e => exact rfl
  | raisedOther e => exact .inr rfl

theorem follows_settle (d : RouteDecision) (hd : d.reservation.provider = d.provider)
    (k : Classification) (probe : Bool) :
    (settle cfg d k).Follows (settlement cfg) (Ends fun _ t => t = .clear)
      (.relayed d.reservation probe) := by
  have failure := @follows_recordFailure_settle cfg d.provider probe
  have success := @follows_recordSuccess_settle cfg d.provider probe
  rw [← hd] at failure success
  cases k with
  | connectError =>
    refine follows_then (follows_release_process _ _) ?_
    rintro _ _ rfl
    rw [← hd]
    exact failure
  | transient =>
    refine follows_then (follows_commitReservation_settle _ _) ?_
    rintro _ _ rfl
    rw [← hd]
    exact failure
  | sent =>
    refine follows_then (follows_commitReservation_settle _ _) ?_
    rintro _ _ rfl
    rw [← hd]
    exact success
  | permanent =>
    refine follows_then (follows_commitReservation_settle _ _) ?_
    rintro _ _ rfl
    rw [← hd]
    exact success

theorem follows_failover_settle (messageId : ℕ) (snapshot : MsgSnapshot) (raw : Bytes) : ∀ n cycle,
    (failover cfg messageId snapshot raw n cycle).Follows (settlement cfg)
      (Ends fun _ t => t = .clear) .clear
  | 0, cycle =>
    follows_ends (fun _ => means_others) (.inl rfl) (tame_handleNoSuccess cfg _ _ _)
  | n + 1, cycle => by
    unfold failover
    refine Follows.bind ((follows_select_settle cycle.tried).tame (tame_select cfg _)) ?_
      fun e t ht => ht.1
    rintro (_ | d) t ⟨ht, sound⟩
    · rw [show t = .clear from ht]
      exact follows_ends (fun _ => means_others) (.inl rfl) (tame_handleNoSuccess cfg _ _ _)
    obtain ⟨probe, seen, rfl⟩ := ht
    have sound : d.Sound cfg cycle.tried := sound _ rfl d rfl
    obtain ⟨c, hc⟩ := sound.configured
    refine follows_perform fun now => ⟨trivial, ?_⟩
    simp only [registryGet, hc]
    refine follows_then (follows_relay_settle
      ((Settings.provider_name hc).trans sound.reserved.symm) _ _ _) ?_
    rintro result _ rfl
    refine follows_means (fun _ => means_record) (.inr rfl) (tame_recordAttempt _ _ _ _ _)
      fun _ _ => ?_
    split
    · refine follows_then (follows_commitReservation_settle _ _) ?_
      rintro _ _ rfl
      have success := @follows_recordSuccess_settle cfg d.reservation.provider probe
      rw [sound.reserved] at success ⊢
      refine follows_then success ?_
      rintro _ _ rfl
      exact follows_ends (fun _ => means_others) (.inl rfl) (tame_markSent _ _ _)
    · refine follows_then (follows_settle d sound.reserved _ _) ?_
      rintro _ _ rfl
      exact follows_failover_settle messageId snapshot raw n _

/-- A run of `_process` ends with everything settled, or lost. -/
theorem follows_process_settle (messageId : ℕ) :
    (process cfg messageId).Follows (settlement cfg) (Ends fun _ t => t = .clear) .clear := by
  have other : ∀ {t : Act Unit}, t.Tame Op.fails Op.ofOthers (fun _ => True) →
      t.Follows (settlement cfg) (Ends fun _ t => t = .clear) .clear :=
    fun ht => follows_ends (fun _ => means_others) (.inl rfl) ht
  refine follows_query (fun row => ⟨trivial, ?_⟩) fun e => ⟨trivial, .inl rfl⟩
  refine follows_commit (fun _ => ⟨trivial, ?_⟩) fun e => ⟨trivial, .inl rfl⟩
  cases row with
  | none => exact rfl
  | some msg =>
    simp only
    split
    · exact rfl
    refine follows_perform fun now => ⟨trivial, follows_perform fun raw => ⟨trivial, ?_⟩⟩
    split
    · exact other (tame_deadletter _ _ _)
    · exact .inl rfl
    · split
      · exact other (tame_deadletter _ _ _)
      · exact follows_failover_settle _ _ _ _ _

/-- The consumer's handler leaves nothing behind. -/
theorem follows_requeueNow_settle (messageId : ℕ) {s : Stage} (hs : s = .clear ∨ s = .lost) :
    (requeueNow messageId).Follows (settlement cfg) (fun _ t => t = .clear) s := by
  have reset : ∀ a, s.next (.flush .requeueNow) a = .clear := fun a => by
    rcases hs with rfl | rfl <;> rfl
  refine Follows.handle fun a => ⟨hs, ?_⟩
  rw [show (settlement cfg).next s (.flush .requeueNow) a = .clear from reset a]
  cases a with
  | ok a =>
    refine follows_commit (fun _ => ⟨trivial, rfl⟩) fun e => ⟨trivial, ?_⟩
    exact follows_swallow e fun _ => rfl
  | error e => exact follows_swallow e fun _ => rfl

/-- A turn of the consumer. -/
theorem consumer_whole_settle : (consumer cfg).Whole (settlement cfg) := by
  refine follows_perform fun messageId => ⟨rfl, Follows.handle ?_⟩
  refine (follows_process_settle messageId).mono ?_
  rintro (e | a) t ht
  · exact Follows.bind (follows_requeueNow_settle messageId ht)
      (fun _ _ h => follows_swallow e fun _ => h) fun _ _ h => h
  · exact ht

end SmtpSwitch
