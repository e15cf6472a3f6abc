import SmtpSwitch.Settlement.Process

/-!
# The books of one turn

Grants against settlements, relays against breaker outcomes, counted over a
complete turn of the consumer. Along a run in order what has been granted is
what has been settled, plus what the stage still owes, plus what critical
failures have lost (`balance`). A turn ends owing nothing, so the books balance
exactly when nothing was lost.
-/

namespace SmtpSwitch

open Coop Coop.Prog

/-! ### What is counted -/

/-- `try_reserve` has granted `r`. -/
def Op.grants (r : Reservation) : Op → Bool
  | .call (.granted r') => r' = r
  | _ => false

/-- A call of `commit` or `release` with `r`. -/
def Op.settles (r : Reservation) : Op → Bool
  | .call (.commit r') | .call (.release r') => r' = r
  | _ => false

/-- A message is handed to provider `p`. -/
def Op.relays (p : String) : Op → Bool
  | .send p' .. => p' = p
  | _ => false

/-- A call of `record_success` or `record_failure` for `p`. -/
def Op.tells (p : String) : Op → Bool
  | .call (.recordSuccess p') | .call (.recordFailure p') => p' = p
  | _ => false

/-- Every reservation granted is settled exactly once, and every provider relayed to is told exactly
one outcome. -/
structure Settled (evs : Events) : Prop where
  reservations : ∀ r, evs.countP (·.1.settles r) = evs.countP (·.1.grants r)
  outcomes : ∀ p, evs.countP (·.1.tells p) = evs.countP (·.1.relays p)

/-- A failure between a routing decision and its settlement. -/
def Failed (evs : Events) : Prop := ∃ e ∈ evs, (e.1.critical && e.1.fails e.2) = true

/-! ### The balance -/

variable {cfg : Settings}

/-- What critical failures lose of what is counted by `owed` and entered by `enter`. -/
def leaked (owed : Stage → ℕ) (enter : Op → Bool) : Stage → Events → ℕ
  | _, [] => 0
  | s, e :: evs =>
    (if (e.1.critical && e.1.fails e.2) = true then owed s + (enter e.1).toNat else 0) +
      leaked owed enter (s.next e.1 e.2) evs

/-- A book: what a stage owes, the operations that enter something, and those that settle it. -/
structure Book (cfg : Settings) (owed : Stage → ℕ) (enter settle : Op → Bool) : Prop where
  lost : owed .lost = 0
  uncritical : ∀ o, o.critical = true → settle o = false
  step : ∀ s o a, s.good cfg o a →
    owed s + (enter o).toNat = owed (s.advance o a) + (settle o).toNat

theorem balance {owed : Stage → ℕ} {enter settle : Op → Bool} (book : Book cfg owed enter settle) :
    ∀ {evs : Events} {s : Stage}, (settlement cfg).Orderly s evs →
      owed s + evs.countP (fun e => enter e.1) =
        owed ((settlement cfg).after s evs) + evs.countP (fun e => settle e.1) +
          leaked owed enter s evs
  | [], s, _ => rfl
  | ⟨o, a⟩ :: evs, s, h => by
    have hgood : s.good cfg o a := h.1
    have ih := balance book (s := s.next o a) h.2
    have step := book.step s o a hgood
    simp only [List.countP_cons, leaked]
    rw [show (settlement cfg).after s (⟨o, a⟩ :: evs) = (settlement cfg).after (s.next o a) evs
      from rfl]
    have entered : (if enter o = true then 1 else 0) = (enter o).toNat := by cases enter o <;> rfl
    have settled : (if settle o = true then 1 else 0) = (settle o).toNat := by
      cases settle o <;> rfl
    rw [entered, settled]
    by_cases hc : (o.critical && o.fails a) = true
    · have next : s.next o a = .lost := by simp [Stage.next, hc]
      have uncritical := book.uncritical o (by simp only [Bool.and_eq_true] at hc; exact hc.1)
      rw [next, book.lost] at ih
      rw [if_pos hc, next, uncritical, Bool.toNat_false]
      omega
    · have next : s.next o a = s.advance o a := by simp [Stage.next, hc]
      rw [next] at ih
      rw [if_neg hc, next]
      omega

/-- Nothing is lost without a critical failure. -/
theorem leaked_eq_zero {owed : Stage → ℕ} {enter : Op → Bool} : ∀ {evs : Events} {s : Stage},
    ¬ Failed evs → leaked owed enter s evs = 0
  | [], _, _ => rfl
  | e :: evs, s, h => by
    have head : ¬ (e.1.critical && e.1.fails e.2) = true := fun hc =>
      h ⟨e, List.mem_cons_self, hc⟩
    have tail : ¬ Failed evs := fun ⟨e', he', hc⟩ => h ⟨e', List.mem_cons_of_mem _ he', hc⟩
    simp only [leaked, if_neg head, Nat.zero_add]
    exact leaked_eq_zero tail

/-! ### The two books -/

/-- Whether `r` was granted and is not settled. -/
def Stage.unsettled (r : Reservation) : Stage → ℕ
  | .reserved r' _ _ | .relayed r' _ => if r' = r then 1 else 0
  | _ => 0

/-- Whether `p` was relayed to and was not told an outcome. -/
def Stage.untold (p : String) : Stage → ℕ
  | .relayed r _ | .settling r _ true => if r.provider = p then 1 else 0
  | .owing q _ => if q = p then 1 else 0
  | _ => 0

/-- An operation that does not move the settlement on is in neither book. -/
theorem unbooked {o : Op} (h : o.advances = false) :
    (∀ r, o.grants r = false ∧ o.settles r = false) ∧
    ∀ p, o.relays p = false ∧ o.tells p = false := by
  cases o with
  | call c => cases h
  | send => cases h
  | _ => exact ⟨fun _ => ⟨rfl, rfl⟩, fun _ => ⟨rfl, rfl⟩⟩

/-- The book of the reservations. -/
theorem book_reservations (r : Reservation) :
    Book cfg (Stage.unsettled r) (Op.grants r) (Op.settles r) where
  lost := rfl
  uncritical o h := by cases o <;> first | rfl | cases h
  step s o a hg := by
    have next := Stage.advance_cases hg
    generalize s.advance o a = s' at next ⊢
    cases next with
    | @granted r' | @committed r' | @unused r' | @released r' =>
      by_cases h : r' = r <;> simp [Stage.unsettled, Op.grants, Op.settles, h]
    | @settled _ _ sent => cases sent <;> rfl
    | looked seen => obtain rfl | ⟨r', probe, seen, rfl, rfl⟩ | ⟨q, probe, seen, rfl, rfl⟩ :=
        seen <;> rfl
    | startedOver idle => obtain rfl | rfl := idle <;> rfl
    | same quiet =>
      obtain ⟨enters, settles⟩ := (unbooked quiet).1 r
      rw [enters, settles]
    | _ => rfl

/-- The book of the breaker's outcomes. -/
theorem book_outcomes (p : String) : Book cfg (Stage.untold p) (Op.relays p) (Op.tells p) where
  lost := rfl
  uncritical o h := by cases o <;> first | rfl | cases h
  step s o a hg := by
    have next := Stage.advance_cases hg
    generalize s.advance o a = s' at next ⊢
    cases next with
    | @relayed errand =>
      by_cases h : errand.reservation.provider = p <;> simp [Stage.untold, Op.relays, Op.tells, h]
    | @succeeded q | @failed q => by_cases h : q = p <;> simp [Stage.untold, Op.relays, Op.tells, h]
    | @settled _ _ sent => cases sent <;> rfl
    | looked seen => obtain rfl | ⟨r', probe, seen, rfl, rfl⟩ | ⟨q, probe, seen, rfl, rfl⟩ :=
        seen <;> rfl
    | startedOver idle => obtain rfl | rfl := idle <;> rfl
    | same quiet =>
      obtain ⟨enters, settles⟩ := (unbooked quiet).2 p
      rw [enters, settles]
    | _ => rfl

/-! ### A critical failure loses something -/

/-- Where a critical failure can come, something is lost of a reservation or of an outcome. -/
theorem lost_of_critical {s : Stage} {o : Op} {a : o.Ans} (hg : s.good cfg o a)
    (hc : (o.critical && o.fails a) = true) :
    (∃ r, 0 < s.unsettled r + (o.grants r).toNat) ∨ ∃ p, 0 < s.untold p + (o.relays p).toNat := by
  have reserved : (∃ r probe seen, s = .reserved r probe seen) →
      ∃ r, 0 < s.unsettled r + (o.grants r).toNat := by
    rintro ⟨r, probe, seen, rfl⟩
    exact ⟨r, by simp [Stage.unsettled]⟩
  have relayed : (∃ r probe, s = .relayed r probe) →
      ∃ r, 0 < s.unsettled r + (o.grants r).toNat := by
    rintro ⟨r, probe, rfl⟩
    exact ⟨r, by simp [Stage.unsettled]⟩
  have owing : (∃ p probe, s = .owing p probe) →
      ∃ p, 0 < s.untold p + (o.relays p).toNat := by
    rintro ⟨p, probe, rfl⟩
    exact ⟨p, by simp [Stage.untold]⟩
  -- a lost task has no further failures
  have here : ∀ {α : Type} {x : Except Exc α} {P : Prop}, (∀ y, x ≠ .ok y) →
      s = .lost ∧ x.isOk = true ∨ P → P := by
    rintro α (e | y) P hx (⟨-, h⟩ | h)
    · cases h
    · exact h
    · exact absurd rfl (hx y)
    · exact h
  simp only [Bool.and_eq_true] at hc
  obtain ⟨hcrit, hfail⟩ := hc
  fun_cases Op.critical o
  · exact .inl (reserved ⟨_, hg.2⟩)
  · exact .inl (relayed (here (by rintro y rfl; cases hfail) hg))
  · exact .inl (reserved (here (by rintro y rfl; cases hfail) hg))
  · exact .inl (reserved (here (by rintro y rfl; cases hfail) hg))
  · exact .inr (owing (here (by rintro y rfl; cases hfail) hg))
  · exact .inr (owing (here (by rintro y rfl; cases hfail) hg))
  · exact .inr (owing (here (by rintro y rfl; cases hfail) hg))
  · simp [Op.critical] at hcrit

theorem leaked_pos_of_failed : ∀ {evs : Events} {s : Stage}, (settlement cfg).Orderly s evs →
    Failed evs → (∃ r, 0 < leaked (Stage.unsettled r) (Op.grants r) s evs) ∨
      ∃ p, 0 < leaked (Stage.untold p) (Op.relays p) s evs
  | [], _, _, ⟨_, he, _⟩ => by cases he
  | ⟨o, a⟩ :: evs, s, h, ⟨e, he, hc⟩ => by
    simp only [leaked]
    rcases List.mem_cons.mp he with rfl | he
    · simp only [hc, if_true]
      rcases lost_of_critical h.1 hc with ⟨r, hr⟩ | ⟨p, hp⟩
      · exact .inl ⟨r, Nat.add_pos_left hr _⟩
      · exact .inr ⟨p, Nat.add_pos_left hp _⟩
    · rcases leaked_pos_of_failed (s := s.next o a) h.2 ⟨e, he, hc⟩ with ⟨r, hr⟩ | ⟨p, hp⟩
      · exact .inl ⟨r, by omega⟩
      · exact .inr ⟨p, by omega⟩

/-- A complete turn of the consumer is settled exactly when no critical failure came. -/
theorem settled_iff {evs : Events} {r : Except Exc Unit} (h : (consumer cfg).Path evs r) :
    Settled evs ↔ ¬ Failed evs := by
  obtain ⟨orderly, ends⟩ := Follows.path consumer_whole_settle h
  change (settlement cfg).Orderly .clear evs at orderly
  change (settlement cfg).after .clear evs = .clear at ends
  have reservations := fun r => balance (book_reservations r) orderly
  have outcomes := fun p => balance (book_outcomes p) orderly
  simp only [ends, Stage.unsettled, Stage.untold, Nat.zero_add] at reservations outcomes
  constructor
  · rintro settled failed
    rcases leaked_pos_of_failed orderly failed with ⟨r, hr⟩ | ⟨p, hp⟩
    · have := reservations r
      have := settled.reservations r
      omega
    · have := outcomes p
      have := settled.outcomes p
      omega
  · intro ok
    refine ⟨fun r => ?_, fun p => ?_⟩
    · have := reservations r
      rw [leaked_eq_zero ok] at this
      omega
    · have := outcomes p
      rw [leaked_eq_zero ok] at this
      omega

end SmtpSwitch
