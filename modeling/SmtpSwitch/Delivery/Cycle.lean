import SmtpSwitch.Breaker.Protocol
import SmtpSwitch.Coop.Log

/-!
# A cycle, seen from the message

What a complete run of the failover loop looks like from outside: turns in each of which
one provider was chosen and has refused the message (`Turn`), then the loop is over because
its turns are used up or because the router has nobody left (`Loop`), then
`_handle_no_success`. A message is given up for a reason (`GivenUp`) only there.
-/

namespace SmtpSwitch

open Coop Coop.Prog

/-! ### Giving up -/

/-- The `UPDATE` of `_deadletter`. -/
def deadletterStmt (messageId : ℕ) (reason : DeadletterReason) (detail : Option String) : Stmt :=
  .updateMessages { ids := some [messageId] }
    { status := .deadletter,
      lastError := some (some (truncate 2000 (strip ("[" ++ reason.text ++ "] " ++
        detail.getD "")))),
      claimedAt := some none }

/-- The message is moved to `DEADLETTER` with this reason. -/
def GivenUp (messageId : ℕ) (reason : DeadletterReason) (evs : Events) : Prop :=
  ∃ detail id, (⟨.commit .deadletter [deadletterStmt messageId reason detail], .ok id⟩ : Σ o : Op,
    o.Ans) ∈ evs

/-- This is the move, with this detail. -/
def givesUp (messageId : ℕ) (reason : DeadletterReason) (detail : Option String) :
    (Σ o : Op, o.Ans) → Bool
  | ⟨.commit .deadletter [s], .ok _⟩ => decide (s = deadletterStmt messageId reason detail)
  | _ => false

theorem givenUp_of_any {messageId : ℕ} {reason : DeadletterReason} {detail : Option String}
    {evs : Events} (h : evs.any (givesUp messageId reason detail) = true) :
    GivenUp messageId reason evs := by
  obtain ⟨e, he, hg⟩ := List.any_eq_true.mp h
  unfold givesUp at hg
  split at hg
  · obtain rfl := of_decide_eq_true hg
    exact ⟨detail, _, he⟩
  · cases hg

/-- Stripping leaves a word at the start alone. -/
theorem strip_word {s : String} {a b : Char} {rest : List Char} (hs : s.toList = a :: b :: rest)
    (ha : isSpace a = false) (hb : isSpace b = false) :
    ∃ rest', (strip s).toList = a :: b :: rest' := by
  have start : s.toList.dropWhile isSpace = a :: b :: rest := by
    rw [hs, List.dropWhile_cons_of_neg (by simp [ha])]
  unfold strip
  rw [start, String.toList_ofList]
  rw [show (a :: b :: rest).reverse = rest.reverse ++ [b, a] by simp, List.dropWhile_append]
  split
  · exact ⟨[], by rw [List.dropWhile_cons_of_neg (by simp [hb])]; rfl⟩
  · exact ⟨(rest.reverse.dropWhile isSpace).reverse, by simp⟩

/-- The text of a reason begins with a bracket and the reason's own letter. -/
theorem deadletter_text (reason : DeadletterReason) (detail : String) :
    (truncate 2000 (strip ("[" ++ reason.text ++ "] " ++ detail))).toList.take 2 =
      '[' :: reason.text.toList.take 1 := by
  obtain ⟨letter, rest, hr, hl⟩ : ∃ letter rest, reason.text.toList = letter :: rest ∧
      isSpace letter = false := by
    cases reason <;> exact ⟨_, _, rfl, by decide⟩
  have word : ("[" ++ reason.text ++ "] " ++ detail).toList =
      '[' :: letter :: (rest ++ ("] ".toList ++ detail.toList)) := by simp [hr]
  obtain ⟨rest', hs⟩ := strip_word word (by decide) hl
  unfold truncate
  rw [String.toList_ofList, hs, hr]
  rfl

/-- Its reason can be told from a statement. -/
theorem deadletterStmt_inj {id id' : ℕ} {reason reason' : DeadletterReason} {d d' : Option String}
    (h : deadletterStmt id reason d = deadletterStmt id' reason' d') : reason = reason' := by
  simp only [deadletterStmt, Stmt.updateMessages.injEq, MessageValues.mk.injEq,
    Option.some.injEq] at h
  have text := congrArg (fun s => s.toList.take 2) h.2.2.2.2.1
  simp only [deadletter_text, List.cons.injEq, true_and] at text
  cases reason <;> cases reason' <;> first | rfl | (revert text; decide)

/-! ### The failover loop -/

variable (cfg : Settings)

/-- An operation after a relay, up to the end of its turn. -/
def Op.ofAftermath (o : Op) : Prop := o.ofRecord ∨ o.ofRouter

/-- A turn of the failover loop in which the provider chosen has not accepted the message. -/
structure FailoverTurn (messageId : ℕ) (snapshot : MsgSnapshot) (raw : Bytes)
    (exclude : List String)
    (evs : Events) (decision : RouteDecision) (out : SendOutcome) (result : RelayResult) :
    Prop where
  run : ∃ chosen t kwargs tail, (select cfg exclude).Path chosen (.ok (some decision)) ∧
    evs = chosen ++ ⟨.utcnow, t⟩ ::
      ⟨.send decision.provider kwargs snapshot.fromAddr snapshot.rcptTo raw
      ⟨messageId, decision.reservation⟩, out⟩ :: tail ∧ ∀ e ∈ tail, e.1.ofAftermath
  outcome : resultOf out = .ok result
  refused : result.ok = false

/-- The local variables after such a turn. -/
def Cycle.after (c : Cycle) (decision : RouteDecision) (result : RelayResult) : Cycle :=
  { c with tried := c.tried ++ [decision.provider], madeAttempt := true,
           lastError := some result.detail, lastCode := result.smtpCode }.saw result.classification

/-- Turns without success, until they are used up or the router has nobody left. -/
inductive FailoverLoop (messageId : ℕ) (snapshot : MsgSnapshot) (raw : Bytes) :
    ℕ → Cycle → Events → Cycle → Prop where
  | usedUp {c : Cycle} : FailoverLoop messageId snapshot raw 0 c [] c
  | nobody {n : ℕ} {c : Cycle} {evs : Events} : (select cfg c.tried).Path evs (.ok none) →
      FailoverLoop messageId snapshot raw (n + 1) c evs c
  | turn {n : ℕ} {c c' : Cycle} {evs rest : Events} {decision : RouteDecision} {out : SendOutcome}
      {result : RelayResult} :
      FailoverTurn cfg messageId snapshot raw c.tried evs decision out result →
      FailoverLoop messageId snapshot raw n (c.after decision result) rest c' →
      FailoverLoop messageId snapshot raw (n + 1) c (evs ++ rest) c'

variable {cfg} {messageId : ℕ} {snapshot : MsgSnapshot} {raw : Bytes}

/-- An operation that gives no message up. -/
def Op.keeps (o : Op) : Prop :=
  ∀ id reason detail, o ≠ .commit .deadletter [deadletterStmt id reason detail]

/-- Nothing here gives a message up. -/
def Keeping (evs : Events) : Prop := ∀ e ∈ evs, e.1.keeps

theorem Keeping.not_givenUp {evs : Events} (h : Keeping evs) {id : ℕ} {reason : DeadletterReason} :
    ¬ GivenUp id reason evs := by
  rintro ⟨detail, n, hm⟩
  exact h _ hm id reason detail rfl

theorem givenUp_append {evs evs' : Events} {id : ℕ} {reason : DeadletterReason} (h : Keeping evs) :
    GivenUp id reason (evs ++ evs') ↔ GivenUp id reason evs' := by
  constructor
  · rintro ⟨detail, n, hm⟩
    rcases List.mem_append.mp hm with hm | hm
    · exact absurd ⟨detail, n, hm⟩ h.not_givenUp
    · exact ⟨detail, n, hm⟩
  · rintro ⟨detail, n, hm⟩
    exact ⟨detail, n, List.mem_append_right _ hm⟩

theorem keeping_nil : Keeping [] := fun _ he => by cases he

theorem Keeping.append {evs evs' : Events} (h : Keeping evs) (h' : Keeping evs') :
    Keeping (evs ++ evs') := by
  intro e he
  rcases List.mem_append.mp he with he | he
  · exact h e he
  · exact h' e he

theorem Keeping.cons {e : Σ o : Op, o.Ans} {evs : Events} (he : e.1.keeps) (h : Keeping evs) :
    Keeping (e :: evs) := by
  intro e' he'
  rcases List.mem_cons.mp he' with rfl | he'
  · exact he
  · exact h e' he'

theorem keeps_aftermath {o : Op} (h : o.ofAftermath) : o.keeps := by
  rintro id reason detail rfl
  rcases h with ⟨h, -⟩ | ⟨-, h⟩ | ⟨-, h⟩ | h
  · cases h
  · cases h _ List.mem_cons_self
  · cases h _ List.mem_cons_self
  · cases h

section Paths

variable {α : Type} {t : Act α} {R : α → Prop} {evs : Events} {r : Except Exc α}

theorem aftermath_of_router (ht : t.Tame Op.fails Op.ofRouter R) (h : t.Path evs r) :
    ∀ e ∈ evs, e.1.ofAftermath := fun e he => .inr (ht.uses.path h e he)

theorem keeping_of_router (ht : t.Tame Op.fails Op.ofRouter R) (h : t.Path evs r) : Keeping evs :=
  fun e he => keeps_aftermath (aftermath_of_router ht h e he)

end Paths

theorem FailoverTurn.keeping {exclude : List String} {evs : Events} {decision : RouteDecision}
    {out : SendOutcome} {result : RelayResult}
    (h : FailoverTurn cfg messageId snapshot raw exclude evs decision out result) :
    Keeping evs := by
  obtain ⟨chosen, t, kwargs, tail, hc, rfl, ht⟩ := h.run
  refine (keeping_of_router (tame_select cfg exclude) hc).append ?_
  refine .cons (fun _ _ _ h => by cases h) (.cons (fun _ _ _ h => by cases h) ?_)
  exact fun e he => keeps_aftermath (ht e he)

theorem FailoverLoop.keeping {n : ℕ} {c c' : Cycle} {evs : Events}
    (h : FailoverLoop cfg messageId snapshot raw n c evs c') : Keeping evs := by
  induction h with
  | usedUp => exact keeping_nil
  | nobody h => exact keeping_of_router (tame_select cfg _) h
  | turn ht _ ih => exact ht.keeping.append ih

theorem uses_markSent_keeps (id : ℕ) (provider : String) (claimedAt : Option Time) :
    (markSent id provider claimedAt).Uses Op.keeps :=
  (uses_perform fun _ _ _ h => by cases h).bind fun _ =>
    (tame_execute (fun _ _ _ h => by cases h) fun _ _ _ h => by cases h).uses

/-- A relay is one `send`. -/
theorem relay_path {provider : String} {d : RouteDecision}
    {evs : Events} {r : Except Exc RelayResult}
    (h : ((registryGet cfg provider).bind fun p => relay p snapshot.fromAddr snapshot.rcptTo raw
      ⟨messageId, d.reservation⟩).Path evs r) :
    (evs = [] ∧ ∃ e, r = .error e) ∨ ∃ kwargs out,
      evs = [⟨.send provider kwargs snapshot.fromAddr snapshot.rcptTo raw
      ⟨messageId, d.reservation⟩, out⟩] ∧ resultOf out = r := by
  unfold registryGet at h
  cases hp : cfg.provider provider with
  | none =>
    rw [hp] at h
    exact .inl ⟨h.1, _, h.2⟩
  | some p =>
    rw [hp] at h
    obtain ⟨out, rest, rfl, h⟩ := h
    rw [← Settings.provider_name hp]
    refine .inr ⟨_, out, ?_⟩
    have ends : rest = [] ∧ resultOf out = r := by
      revert h
      show (ofExcept (resultOf out) : Act RelayResult).Path rest r → _
      cases resultOf out
      · rintro ⟨rfl, rfl⟩
        exact ⟨rfl, rfl⟩
      · rintro ⟨rfl, rfl⟩
        exact ⟨rfl, rfl⟩
    obtain ⟨rfl, hr⟩ := ends
    exact ⟨rfl, hr⟩

/-- **The failover loop from outside.** A complete run of it gives no message up, or it is turns
without success followed by `_handle_no_success`. -/
theorem failover_path {r : Except Exc Unit} : ∀ {n : ℕ} {cycle : Cycle} {evs : Events},
    (failover cfg messageId snapshot raw n cycle).Path evs r →
      Keeping evs ∨ ∃ pre post cycle', evs = pre ++ post ∧
        FailoverLoop cfg messageId snapshot raw n cycle pre cycle' ∧
        (handleNoSuccess cfg messageId snapshot cycle').Path post r
  | 0, cycle, evs, h => .inr ⟨[], evs, cycle, rfl, .usedUp, h⟩
  | n + 1, cycle, evs, h => by
    unfold failover at h
    rcases path_bind.mp h with ⟨e, -, he⟩ | ⟨chosen, decision, post, rfl, hchosen, hturn⟩
    · exact .inl (keeping_of_router (tame_select cfg _) he)
    cases decision with
    | none => exact .inr ⟨chosen, post, cycle, rfl, .nobody hchosen, hturn⟩
    | some decision =>
      obtain ⟨t, rest, rfl, hturn⟩ := hturn
      simp only [ret_bind] at hturn
      -- what has happened so far gives no message up
      have start : ∀ {evs : Events}, Keeping evs → Keeping (chosen ++ ⟨.utcnow, t⟩ :: evs) :=
        fun h => (keeping_of_router (tame_select cfg _) hchosen).append
          (.cons (fun _ _ _ h => by cases h) h)
      rcases path_bind.mp hturn with ⟨e, -, he⟩ | ⟨sent, result, rest, rfl, hrelay, hsent⟩
      · refine .inl (start ?_)
        rcases relay_path he with ⟨rfl, -⟩ | ⟨kwargs, out, rfl, -⟩
        · exact keeping_nil
        · exact .cons (fun _ _ _ h => by cases h) keeping_nil
      rcases relay_path hrelay with ⟨-, e, he⟩ | ⟨kwargs, out, rfl, outcome⟩
      · cases he
      have relayed : ∀ {evs : Events}, Keeping evs → Keeping (chosen ++ ⟨.utcnow, t⟩ ::
          ([⟨.send decision.provider kwargs snapshot.fromAddr snapshot.rcptTo raw
            ⟨messageId, decision.reservation⟩, out⟩] ++ evs)) :=
        fun h => start (.cons (fun _ _ _ h => by cases h) h)
      have record := tame_recordAttempt messageId (snapshot.attempts + (cycle.tried ++
        [decision.provider]).length) decision.provider t result
      have recorded : ∀ {evs : Events} {r : Except Exc Unit}, (recordAttempt messageId
          (snapshot.attempts + (cycle.tried ++ [decision.provider]).length) decision.provider t
            result).Path evs r → ∀ e ∈ evs, e.1.ofAftermath :=
        fun h e he => .inl (record.uses.path h e he)
      rcases path_bind.mp hsent with ⟨e, -, he⟩ | ⟨rec, _, rest, rfl, hrec, hsettle⟩
      · exact .inl (relayed fun e h => keeps_aftermath (recorded he e h))
      have recKeeps : Keeping rec := fun e h => keeps_aftermath (recorded hrec e h)
      split at hsettle
      · refine .inl (relayed (recKeeps.append ?_))
        refine Uses.path (S := Op.keeps) ?_ hsettle
        refine Uses.bind (fun _ => Uses.bind (fun _ => uses_markSent_keeps _ _ _) ?_) ?_
        · exact (CircuitBreaker.tame_recordSuccess _).uses.mono fun _ h =>
            keeps_aftermath (.inr (.inr (.inl h)))
        · exact (RateLimiter.tame_commitReservation _).uses.mono fun _ h =>
            keeps_aftermath (.inr (.inl h.ofLimiter))
      · rename_i refused
        rcases path_bind.mp hsettle with ⟨e, -, he⟩ | ⟨settled, _, rest, rfl, hset, hloop⟩
        · exact .inl (relayed (recKeeps.append (keeping_of_router (tame_settle _ _) he)))
        have turn : FailoverTurn cfg messageId snapshot raw cycle.tried (chosen ++ ⟨.utcnow, t⟩ ::
            ⟨.send decision.provider kwargs snapshot.fromAddr snapshot.rcptTo raw
              ⟨messageId, decision.reservation⟩, out⟩ :: (rec ++ settled)) decision out result := by
          refine ⟨⟨chosen, t, kwargs, rec ++ settled, hchosen, rfl, ?_⟩,
            outcome, by simpa using refused⟩
          intro e he
          rcases List.mem_append.mp he with he | he
          · exact recorded hrec e he
          · exact aftermath_of_router (tame_settle _ _) hset e he
        rcases failover_path hloop with keeping | ⟨pre, post, cycle', rfl, loop, hend⟩
        · refine .inl (relayed (recKeeps.append (Keeping.append ?_ keeping)))
          exact keeping_of_router (tame_settle _ _) hset
        · refine .inr ⟨_, post, cycle', ?_, .turn turn loop, hend⟩
          simp

/-! ### The relays of a cycle -/

/-- The message was handed to `p`, and this came of it. -/
def Relayed (p : String) (out : SendOutcome) (evs : Events) : Prop :=
  ∃ kwargs sender recipients raw errand,
    (⟨.send p kwargs sender recipients raw errand, out⟩ : Σ o : Op, o.Ans) ∈ evs

/-- The relays, in order. -/
def relays : Events → List (String × SendOutcome)
  | [] => []
  | ⟨.send p _ _ _ _ _, out⟩ :: evs => (p, out) :: relays evs
  | _ :: evs => relays evs

theorem mem_relays {p : String} {out : SendOutcome} : ∀ {evs : Events},
    (p, out) ∈ relays evs ↔ Relayed p out evs
  | [] => by simp [relays, Relayed]
  | ⟨o, a⟩ :: evs => by
    have ih : (p, out) ∈ relays evs ↔ Relayed p out evs := mem_relays
    cases o with
    | send q kwargs sender recipients raw errand =>
      simp only [relays, List.mem_cons, ih]
      constructor
      · rintro (heq | ⟨kw, se, re, ra, er, hm⟩)
        · cases heq
          exact ⟨kwargs, sender, recipients, raw, errand, List.mem_cons_self⟩
        · exact ⟨kw, se, re, ra, er, List.mem_cons_of_mem _ hm⟩
      · rintro ⟨kw, se, re, ra, er, hm⟩
        rcases List.mem_cons.mp hm with heq | hm
        · cases heq
          exact .inl rfl
        · exact .inr ⟨kw, se, re, ra, er, hm⟩
    | _ =>
      refine ih.trans ⟨?_, ?_⟩
      · rintro ⟨kw, se, re, ra, er, hm⟩
        exact ⟨kw, se, re, ra, er, List.mem_cons_of_mem _ hm⟩
      · rintro ⟨kw, se, re, ra, er, hm⟩
        rcases List.mem_cons.mp hm with heq | hm
        · cases heq
        · exact ⟨kw, se, re, ra, er, hm⟩

theorem relayed_append {p : String} {out : SendOutcome} {evs evs' : Events} :
    Relayed p out (evs ++ evs') ↔ Relayed p out evs ∨ Relayed p out evs' := by
  constructor
  · rintro ⟨kwargs, sender, recipients, raw, errand, hm⟩
    rcases List.mem_append.mp hm with hm | hm
    · exact .inl ⟨kwargs, sender, recipients, raw, errand, hm⟩
    · exact .inr ⟨kwargs, sender, recipients, raw, errand, hm⟩
  · rintro (⟨kwargs, sender, recipients, raw, errand, hm⟩ | ⟨kwargs, sender, recipients,
      raw, errand, hm⟩)
    · exact ⟨kwargs, sender, recipients, raw, errand, List.mem_append_left _ hm⟩
    · exact ⟨kwargs, sender, recipients, raw, errand, List.mem_append_right _ hm⟩

theorem not_relayed_of_aftermath {p : String} {out : SendOutcome} {evs : Events}
    (h : ∀ e ∈ evs, e.1.ofAftermath) : ¬ Relayed p out evs := by
  rintro ⟨kwargs, sender, recipients, raw, errand, hm⟩
  rcases h _ hm with h | h | h | h
  · exact h
  · exact h
  · exact h
  · cases h

/-- A turn is one relay. -/
theorem FailoverTurn.relayed_iff {exclude : List String} {evs : Events} {decision : RouteDecision}
    {out : SendOutcome} {result : RelayResult}
    (h : FailoverTurn cfg messageId snapshot raw exclude evs decision out result) {p : String}
    {out' : SendOutcome} : Relayed p out' evs ↔ p = decision.provider ∧ out' = out := by
  obtain ⟨chosen, t, kwargs, tail, hc, rfl, ht⟩ := h.run
  constructor
  · intro hr
    rcases relayed_append.mp hr with hr | ⟨kwargs', sender, recipients, raw', errand, hm⟩
    · exact absurd hr (not_relayed_of_aftermath (aftermath_of_router (tame_select cfg exclude) hc))
    rcases List.mem_cons.mp hm with heq | hm
    · cases heq
    rcases List.mem_cons.mp hm with heq | hm
    · cases heq
      exact ⟨rfl, rfl⟩
    · exact absurd ⟨kwargs', sender, recipients, raw', errand, hm⟩ (not_relayed_of_aftermath ht)
  · rintro ⟨rfl, rfl⟩
    exact ⟨kwargs, _, _, _, _, List.mem_append_right _ (List.mem_cons_of_mem _ List.mem_cons_self)⟩

/-- Whoever is noted as tried was relayed to. -/
theorem FailoverLoop.tried {n : ℕ} {c c' : Cycle} {evs : Events}
    (h : FailoverLoop cfg messageId snapshot raw n c evs c') {p : String} (hp : p ∈ c'.tried) :
    p ∈ c.tried ∨ ∃ out, Relayed p out evs := by
  induction h with
  | usedUp => exact .inl hp
  | nobody => exact .inl hp
  | @turn n c c' evs rest decision out result ht _ ih =>
    rcases ih hp with hp | ⟨out', hr⟩
    · have tried : (c.after decision result).tried = c.tried ++ [decision.provider] := by
        unfold Cycle.after Cycle.saw
        split <;> rfl
      rw [tried] at hp
      rcases List.mem_append.mp hp with hp | hp
      · exact .inl hp
      · rw [List.mem_singleton] at hp
        exact .inr ⟨out, relayed_append.mpr (.inl (ht.relayed_iff.mpr ⟨hp, rfl⟩))⟩
    · exact .inr ⟨out', relayed_append.mpr (.inr hr)⟩

/-- The provider has rejected the message, as far as `relay` can tell. -/
def SendOutcome.isPermanent (out : SendOutcome) : Prop :=
  ∃ result, resultOf out = .ok result ∧ result.classification = .permanent

/-- If nothing but rejections was seen, nothing else has come of a relay. -/
theorem FailoverLoop.permanent {n : ℕ} {c c' : Cycle} {evs : Events}
    (h : FailoverLoop cfg messageId snapshot raw n c evs c') (ht : c'.sawTransient = false)
    (hc : c'.sawConnect = false) :
    c.sawTransient = false ∧ c.sawConnect = false ∧
      ∀ p out, Relayed p out evs → out.isPermanent := by
  induction h with
  | usedUp =>
    refine ⟨ht, hc, ?_⟩
    rintro p out ⟨_, _, _, _, _, hm⟩
    cases hm
  | nobody h =>
    exact ⟨ht, hc, fun p out hr => absurd hr
      (not_relayed_of_aftermath (aftermath_of_router (tame_select cfg _) h))⟩
  | @turn n c c' evs rest decision out result turn _ ih =>
    obtain ⟨hat, hac, later⟩ := ih ht hc
    have refused : result.classification ≠ .sent := by
      intro sent
      have := turn.refused
      rw [RelayResult.ok, sent] at this
      cases this
    obtain ⟨hct, hcc, permanent⟩ : c.sawTransient = false ∧ c.sawConnect = false ∧
        result.classification = .permanent := by
      unfold Cycle.after Cycle.saw at hat hac
      cases hk : result.classification with
      | connectError => rw [hk] at hac; cases hac
      | transient => rw [hk] at hat; cases hat
      | sent => exact absurd hk refused
      | permanent =>
        rw [hk] at hat hac
        exact ⟨hat, hac, rfl⟩
    refine ⟨hct, hcc, fun p out' hr => ?_⟩
    rcases relayed_append.mp hr with hr | hr
    · obtain ⟨-, rfl⟩ := turn.relayed_iff.mp hr
      exact ⟨result, turn.outcome, permanent⟩
    · exact later p out' hr

/-! ### The end of a cycle -/

/-- The overrides as last read. -/
def lastOverrides : Events → Option (String → Option Bool)
  | [] => none
  | e :: evs => (lastOverrides evs).or (match e with
    | ⟨.overrides, rows⟩ => some rows
    | _ => none)

theorem lastOverrides_append (evs evs' : Events) :
    lastOverrides (evs ++ evs') = (lastOverrides evs').or (lastOverrides evs) := by
  induction evs with
  | nil => simp [lastOverrides]
  | cons e evs ih =>
    simp only [List.cons_append, lastOverrides, ih]
    exact Option.or_assoc

variable (cfg) in
/-- The providers enabled when the cycle last looked. -/
def enabledAtEnd (evs : Events) : List ProviderConfig :=
  ((lastOverrides evs).map (enabledProviders cfg)).getD []

/-- `_deadletter` gives up for its own reason. -/
theorem reason_of_deadletter {id id' : ℕ} {reason reason' : DeadletterReason}
    {detail : Option String}
    {evs : Events} {r : Except Exc Unit} (h : (deadletter id reason detail).Path evs r)
    (hg : GivenUp id' reason' evs) : reason' = reason := by
  have uses : (deadletter id reason detail).Uses fun o => ∀ id' reason' detail',
      o = .commit .deadletter [deadletterStmt id' reason' detail'] → reason' = reason := by
    refine (tame_execute (fun _ _ _ h => by cases h) ?_).uses
    intro id' reason' detail' h
    have heq : deadletterStmt id reason detail = deadletterStmt id' reason' detail' := by
      injection h with _ hs
      exact List.head_eq_of_cons_eq hs
    exact (deadletterStmt_inj heq).symm
  obtain ⟨detail', n, hm⟩ := hg
  exact uses.path h _ hm id' reason' detail' rfl

/-- `_reschedule` gives nothing up. -/
theorem keeping_reschedule {id : ℕ} {delay : ℚ} {lastError : Option String} {bump : Bool}
    {evs : Events} {r : Except Exc Unit} (h : (reschedule id delay lastError bump).Path evs r) :
    Keeping evs := by
  refine Uses.path (S := Op.keeps) ?_ h
  exact (uses_perform fun _ _ _ h => by cases h).bind fun _ =>
    (tame_execute (fun _ _ _ h => by cases h) fun _ _ _ h => by cases h).uses

/-- Giving the message up is the last thing done. -/
def Ending (evs : Events) : Prop := ∃ before e, evs = before ++ [e] ∧ Keeping before

theorem Ending.prepend {evs evs' : Events} (h : Ending evs') (hk : Keeping evs) :
    Ending (evs ++ evs') := by
  obtain ⟨before, e, rfl, hb⟩ := h
  exact ⟨evs ++ before, e, (List.append_assoc ..).symm, hk.append hb⟩

/-- Nothing is done after it. -/
theorem Ending.complete {evs rest : Events} {id : ℕ} {reason : DeadletterReason}
    (h : Ending (evs ++ rest)) (hg : GivenUp id reason evs) : rest = [] := by
  obtain ⟨before, e, heq, hb⟩ := h
  rcases List.eq_nil_or_concat rest with rfl | ⟨rest', e', rfl⟩
  · rfl
  · rw [List.concat_eq_append, ← List.append_assoc] at heq
    obtain ⟨rfl, -⟩ := List.append_inj' heq rfl
    exact absurd hg fun ⟨detail, n, hm⟩ => hb _ (List.mem_append_left _ hm) id reason detail rfl

/-- `_deadletter`, if it gives the message up. -/
theorem deadletter_path {id id' : ℕ} {reason reason' : DeadletterReason} {detail : Option String}
    {evs : Events} {r : Except Exc Unit} (h : (deadletter id reason detail).Path evs r)
    (hg : GivenUp id' reason' evs) : r = .ok () ∧ Ending evs := by
  obtain ⟨detail', n, hm⟩ := hg
  obtain ⟨a, rest, rfl, h⟩ := h
  cases a with
  | error e =>
    obtain ⟨rfl, -⟩ := h
    simp at hm
  | ok _ =>
    obtain ⟨a, rest, rfl, h⟩ := h
    cases a with
    | error e =>
      obtain ⟨rfl, -⟩ := h
      simp at hm
    | ok m =>
      obtain ⟨rfl, rfl⟩ := h
      exact ⟨rfl, _, _, rfl, .cons (fun _ _ _ h => by cases h) keeping_nil⟩

theorem lastOverrides_eq_none : ∀ {evs : Events}, (∀ e ∈ evs, e.1 ≠ .overrides) →
    lastOverrides evs = none
  | [], _ => rfl
  | ⟨o, a⟩ :: evs, h => by
    have ih : lastOverrides evs = none :=
      lastOverrides_eq_none fun e he => h e (List.mem_cons_of_mem _ he)
    have ho : o ≠ .overrides := h _ List.mem_cons_self
    unfold lastOverrides
    rw [ih]
    cases o <;> first | rfl | exact absurd rfl ho

/-- `_deadletter` does not look at the providers. -/
theorem lastOverrides_deadletter {id : ℕ} {reason : DeadletterReason} {detail : Option String}
    {evs : Events} {r : Except Exc Unit} (h : (deadletter id reason detail).Path evs r) :
    lastOverrides evs = none := by
  refine lastOverrides_eq_none (Uses.path (S := (· ≠ .overrides)) ?_ h)
  exact (tame_execute (fun h => by cases h) fun h => by cases h).uses

/-- When `_handle_no_success` gives a message up as rejected or after too many attempts. -/
theorem handleNoSuccess_path {cycle : Cycle} {evs : Events} {r : Except Exc Unit}
    {reason : DeadletterReason} (h : (handleNoSuccess cfg messageId snapshot cycle).Path evs r)
    (hg : GivenUp messageId reason evs) (hr : reason = .rejected ∨ reason = .maxAttempts) :
    (r = .ok () ∧ Ending evs) ∧ cycle.madeAttempt = true ∧ ∃ rows, lastOverrides evs = some rows ∧
      (reason = .rejected → cycle.sawPermanent = true ∧ cycle.sawTransient = false ∧
        cycle.sawConnect = false ∧ ∀ p ∈ enabledProviders cfg rows, p.name ∈ cycle.tried) ∧
      (reason = .maxAttempts → cfg.dispatch.retry.maxAttempts ≤ snapshot.attempts + 1) := by
  unfold handleNoSuccess at h
  simp only at h
  split at h
  · exact absurd hg (keeping_reschedule h).not_givenUp
  rename_i made
  obtain ⟨rows, rest, rfl, h⟩ := h
  have before : Keeping [(⟨.overrides, rows⟩ : Σ o : Op, o.Ans)] :=
    .cons (fun _ _ _ h => by cases h) keeping_nil
  have hg : GivenUp messageId reason rest := (givenUp_append before).mp hg
  have last : ∀ {reason : DeadletterReason} {detail : Option String},
      (deadletter messageId reason detail).Path rest r →
        (r = .ok () ∧ Ending (⟨.overrides, rows⟩ :: rest)) ∧ cycle.madeAttempt = true ∧
          lastOverrides (⟨.overrides, rows⟩ :: rest) = some rows := by
    intro reason detail h
    refine ⟨⟨(deadletter_path h hg).1,
      (deadletter_path h hg).2.prepend before⟩, by simpa using made, ?_⟩
    simp [lastOverrides, lastOverrides_deadletter h]
  simp only [Prog.bind_eq, Prog.pure_eq, Prog.ret_bind] at h
  split at h
  · rename_i exhausted
    have := reason_of_deadletter h hg
    subst this
    simp only [Bool.and_eq_true, Bool.not_eq_true', List.all_eq_true, List.mem_map,
      decide_eq_true_eq] at exhausted
    obtain ⟨⟨⟨permanent, transient⟩, connect⟩, tried⟩ := exhausted
    obtain ⟨ends, attempted, overrides⟩ := last h
    refine ⟨ends, attempted, rows, overrides, fun _ => ⟨permanent, transient, connect, ?_⟩,
      fun h => by cases h⟩
    intro p hp
    exact tried _ ⟨p, hp, rfl⟩
  split at h
  · rename_i many
    have := reason_of_deadletter h hg
    subst this
    obtain ⟨ends, attempted, overrides⟩ := last h
    exact ⟨ends, attempted, rows, overrides, fun h => (by cases h), fun _ => many⟩
  -- the rest of it gives up for another reason, or not at all
  obtain ⟨draw, rest, rfl, h⟩ := h
  obtain ⟨now, rest, rfl, h⟩ := h
  exfalso
  have before : Keeping [(⟨.random, draw⟩ : Σ o : Op, o.Ans), ⟨.utcnow, now⟩] :=
    .cons (fun _ _ _ h => by cases h) (.cons (fun _ _ _ h => by cases h) keeping_nil)
  have hg : GivenUp messageId reason rest := (givenUp_append before).mp hg
  simp only [Prog.ret_bind] at h
  split at h
  · have := reason_of_deadletter h hg
    rcases hr with rfl | rfl <;> cases this
  · exact (keeping_reschedule h).not_givenUp hg

variable (cfg) in
/-- A cycle that gives the message of `row` up, as rejected or after too many attempts. -/
structure GivingUp (messageId : ℕ) (row : Message) (reason : DeadletterReason) (evs : Events) :
    Prop where
  run : ∃ n t raw loop last cycle, evs = ⟨.commit .process [], .ok n⟩ :: ⟨.utcnow, t⟩ ::
      ⟨.spoolRead row.spoolPath, .ok raw⟩ :: (loop ++ last) ∧
    FailoverLoop cfg messageId (.fromRow row) raw cfg.dispatch.failoverPerTick {} loop cycle ∧
    (handleNoSuccess cfg messageId (.fromRow row) cycle).Path last (.ok ()) ∧
    GivenUp messageId reason last

/-- Where `_process` gives a message up for one of these reasons. -/
theorem processSnapshot_path {evs : Events} {r : Except Exc Unit} {reason : DeadletterReason}
    (h : (processSnapshot cfg messageId snapshot).Path evs r) (hg : GivenUp messageId reason evs)
    (hr : reason = .rejected ∨ reason = .maxAttempts) :
    ∃ t raw rest, evs = ⟨.utcnow, t⟩ :: ⟨.spoolRead snapshot.spoolPath, .ok raw⟩ :: rest ∧
      (failover cfg messageId snapshot raw cfg.dispatch.failoverPerTick {}).Path rest r ∧
      GivenUp messageId reason rest := by
  have other : ∀ {reason' : DeadletterReason} {detail : Option String} {evs : Events},
      (deadletter messageId reason' detail).Path evs r → GivenUp messageId reason evs →
        reason' = .rejected ∨ reason' = .maxAttempts := by
    intro reason' detail evs h hg
    have := reason_of_deadletter h hg
    subst this
    exact hr
  obtain ⟨t, rest, rfl, h⟩ := h
  obtain ⟨a, rest, rfl, h⟩ := h
  have before : ∀ a, Keeping [(⟨.utcnow, t⟩ : Σ o : Op, o.Ans),
      ⟨.spoolRead snapshot.spoolPath, a⟩] :=
    fun a => .cons (fun _ _ _ h => by cases h) (.cons (fun _ _ _ h => by cases h) keeping_nil)
  have given : GivenUp messageId reason rest := (givenUp_append (before a)).mp hg
  cases a with
  | error e =>
    cases e with
    | fileNotFoundError => rcases other h given with h | h <;> cases h
    | _ =>
      obtain ⟨rfl, -⟩ := h
      exact absurd given keeping_nil.not_givenUp
  | ok raw =>
    simp only [ret_bind] at h
    split at h
    · rcases other h given with h | h <;> cases h
    · exact ⟨t, raw, rest, rfl, h, given⟩

/-- The same of `_process`; it has nothing left to do then. -/
theorem process_path {evs : Events} {r : Except Exc Unit} {reason : DeadletterReason}
    (h : (process cfg messageId).Path evs r) (hg : GivenUp messageId reason evs)
    (hr : reason = .rejected ∨ reason = .maxAttempts) :
    r = .ok () ∧ Ending evs ∧ ∃ row cycle,
      evs = ⟨.select .process (.message messageId), .ok (some row)⟩ :: cycle ∧
        GivingUp cfg messageId row reason cycle := by
  obtain ⟨found, rest, rfl, h⟩ := h
  have looked : ∀ found,
      Keeping [(⟨.select .process (.message messageId), found⟩ : Σ o : Op, o.Ans)] :=
    fun _ => .cons (fun _ _ _ h => by cases h) keeping_nil
  have left : ∀ a, Keeping [(⟨.commit .process [], a⟩ : Σ o : Op, o.Ans)] :=
    fun _ => .cons (fun _ _ _ h => by cases h) keeping_nil
  have given := (givenUp_append (looked found)).mp hg
  cases found with
  | error e =>
    obtain ⟨rfl, -⟩ := h
    exact absurd given keeping_nil.not_givenUp
  | ok found =>
    obtain ⟨a, rest, rfl, h⟩ := h
    have unsettled := (givenUp_append (left a)).mp given
    cases a with
    | error e =>
      obtain ⟨rfl, -⟩ := h
      exact absurd unsettled keeping_nil.not_givenUp
    | ok n =>
      cases found with
      | none =>
        obtain ⟨rfl, -⟩ := h
        exact absurd unsettled keeping_nil.not_givenUp
      | some row =>
        simp only at h
        split at h
        · obtain ⟨rfl, -⟩ := h
          exact absurd unsettled keeping_nil.not_givenUp
        obtain ⟨t, raw, rest, rfl, h, given⟩ := processSnapshot_path h unsettled hr
        rcases failover_path h with keeping | ⟨loop, last, cycle, rfl, hloop, hlast⟩
        · exact absurd given keeping.not_givenUp
        have given := (givenUp_append hloop.keeping).mp given
        obtain ⟨⟨rfl, ends⟩, -⟩ := handleNoSuccess_path hlast given hr
        refine ⟨rfl, ?_, row, _, rfl, ⟨n, t, raw, loop, last, cycle, rfl, hloop, hlast, given⟩⟩
        have before : Keeping
            [(⟨.select .process (.message messageId), .ok (some row)⟩ : Σ o : Op, o.Ans),
            ⟨.commit .process [], .ok n⟩, ⟨.utcnow, t⟩, ⟨.spoolRead row.spoolPath, .ok raw⟩] := by
          refine (looked _).append ((left _).append ?_)
          exact .cons (fun _ _ _ h => by cases h) (.cons (fun _ _ _ h => by cases h) keeping_nil)
        exact (ends.prepend hloop.keeping).prepend before

theorem keeping_requeueNow {id : ℕ} {evs : Events} {r : Except Exc Unit} {e : Exc}
    (h : ((requeueNow id).bind fun _ => swallow e).Path evs r) : Keeping evs := by
  refine Uses.path (S := Op.keeps) (Uses.bind (fun _ => uses_swallow e) ?_) h
  refine Uses.handle ?_ fun e => uses_swallow e
  exact (tame_execute (fun _ _ _ h => by cases h) fun _ _ _ h => by cases h).uses

/-- A turn of a consumer, once it has an id. -/
theorem consumer_turn {evs : Events} {r : Except Exc Unit}
    (h : (consumer cfg).Path (⟨.queueGet, messageId⟩ :: evs) r) : ∃ pre s post, evs = pre ++ post ∧
      (process cfg messageId).Path pre s ∧
      match s with
      | .ok a => post = [] ∧ r = .ok a
      | .error e => ((requeueNow messageId).bind fun _ => swallow e).Path post r := by
  obtain ⟨_, _, heq, h⟩ := h
  cases heq
  obtain ⟨pre, s, post, heq, hs, hpost⟩ := path_handle h
  cases s <;> exact ⟨pre, _, post, heq, hs, hpost⟩

/-- **Where a consumer gives a message up for one of these reasons.** -/
theorem consumer_path {evs rest : Events} {r : Except Exc Unit} {reason : DeadletterReason}
    (h : (consumer cfg).Path (⟨.queueGet, messageId⟩ :: (evs ++ rest)) r)
    (hg : GivenUp messageId reason evs) (hr : reason = .rejected ∨ reason = .maxAttempts) :
    ∃ row cycle, evs = ⟨.select .process (.message messageId), .ok (some row)⟩ :: cycle ∧
      GivingUp cfg messageId row reason cycle := by
  obtain ⟨pre, s, post, heq, hprocess, hpost⟩ := consumer_turn h
  have after : Keeping post := by
    cases s with
    | ok _ =>
      obtain ⟨rfl, -⟩ := hpost
      exact keeping_nil
    | error e => exact keeping_requeueNow hpost
  have given : GivenUp messageId reason pre := by
    obtain ⟨detail, n, hm⟩ := hg
    rcases List.mem_append.mp (heq ▸ List.mem_append_left rest hm) with hm | hm
    · exact ⟨detail, n, hm⟩
    · exact absurd ⟨detail, n, hm⟩ after.not_givenUp
  obtain ⟨rfl, ends, row, cycle, hpre, giving⟩ := process_path hprocess given hr
  obtain ⟨rfl, -⟩ := hpost
  rw [List.append_nil] at heq
  rw [← heq] at ends hpre
  obtain rfl := ends.complete hg
  rw [List.append_nil] at hpre
  exact ⟨row, cycle, hpre, giving⟩

/-- All relays of such a cycle are made in its loop. -/
theorem relayed_giveUp {row : Message} {raw : Bytes} {n : ℕ} {t : Time} {loop last : Events}
    {cycle : Cycle} {r : Except Exc Unit}
    (h : (handleNoSuccess cfg messageId (.fromRow row) cycle).Path last r) {p : String}
    {out : SendOutcome} :
    Relayed p out (⟨.commit .process [], .ok n⟩ :: ⟨.utcnow, t⟩ ::
      ⟨.spoolRead row.spoolPath, .ok raw⟩ :: (loop ++ last)) ↔ Relayed p out loop := by
  have unrelayed : ¬ Relayed p out last := by
    rintro ⟨kwargs, sender, recipients, raw, errand, hm⟩
    exact (tame_handleNoSuccess cfg messageId _ cycle).uses.path h _ hm
  rw [← mem_relays]
  simp only [relays]
  rw [mem_relays, relayed_append, or_iff_left unrelayed]

/-- What the consumer that is task `i` does with a message: the message, its row as read, and
everything done since. -/
def cycleLog (tr : List (Entry Op Op.Ans Job ℚ)) (i : ℕ) : Option (ℕ × Message × Events) :=
  match jobLog tr i with
  | some (.consumer, ⟨.queueGet, id⟩ :: ⟨.select .process (.message _), .ok (some row)⟩ :: evs) =>
    some (id, row, evs)
  | _ => none

/-- **Where a message is given up for one of these reasons, in a run of the whole system.** -/
theorem givingUp_of_cycleLog {jobs : Job → Bool} {C : Moment → Moment → Prop} {w : World}
    {s : Pool Op Op.Ans Exc World Job ℚ} (hs : (system cfg jobs).Reachable C (Machine.boot w) s)
    {i : ℕ} {row : Message} {evs : Events} {reason : DeadletterReason}
    (hc : cycleLog s.trace i = some (messageId, row, evs)) (hg : GivenUp messageId reason evs)
    (hr : reason = .rejected ∨ reason = .maxAttempts) : GivingUp cfg messageId row reason evs := by
  unfold cycleLog at hc
  split at hc
  · rename_i id found row' evs' hl
    simp only [Option.some.injEq, Prod.mk.injEq] at hc
    obtain ⟨rfl, rfl, rfl⟩ := hc
    obtain ⟨rest, r, h⟩ := hs.path hl
    have before : Keeping [(⟨.select .process (.message found), .ok (some row')⟩ : Σ o : Op,
        o.Ans)] :=
      .cons (fun _ _ _ h => by cases h) keeping_nil
    obtain ⟨row, cycle, heq, giving⟩ := consumer_path h ((givenUp_append before).mpr hg) hr
    cases heq
    exact giving
  · cases hc

end SmtpSwitch
