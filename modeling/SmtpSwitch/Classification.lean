import SmtpSwitch.Sender

/-!
# What a relay's classification tells

`relay` reduces the outcome of `send` to a class. It is meant to say `sent` when, and only when,
`send` has returned, and `permanent` for a 5xx reply only. The code of an exception goes through
`_classify_code`, which calls 2xx sent and everything outside 2xx and 4xx permanent, so that
both hold exactly where no reply with a code outside 4xx and 5xx decides (`relay_sound_iff`). -/

namespace SmtpSwitch

open Coop Coop.Prog

/-- A reply code that refuses, 4xx or 5xx. -/
def refusalCode (code : ℤ) : Prop := 400 ≤ code ∧ code < 600

instance (code : ℤ) : Decidable (refusalCode code) := by unfold refusalCode; infer_instance

/-- `send` has returned: the provider has taken the message. -/
def SendOutcome.taken : SendOutcome → Bool
  | .returned _ _ => true
  | _ => false

/-- The reply with this code decides: it is the exception's own, or the largest of the refusals. -/
def SendOutcome.Decides (out : SendOutcome) (code : ℤ) : Prop :=
  match out with
  | .raised (.response c _) => code = c
  | .raised (.recipientsRefused rs) => code ∈ rs.map Refusal.code ∧
      ∀ c ∈ rs.map Refusal.code, c ≤ code
  | _ => False

/-- A reply decides that is no refusal. -/
def SendOutcome.Misread (out : SendOutcome) : Prop := ∃ code, out.Decides code ∧ ¬ refusalCode code

/-- The class says what happened. -/
structure RelayResult.Sound (r : RelayResult) (out : SendOutcome) : Prop where
  sent : r.classification = .sent ↔ out.taken = true
  permanent : r.classification = .permanent → ∃ code, r.smtpCode = some code ∧
    500 ≤ code ∧ code < 600

/-! ### The code that decides -/

theorem le_foldl_max (c : ℤ) (cs : List ℤ) : c ≤ cs.foldl max c ∧ ∀ d ∈ cs, d ≤ cs.foldl max c := by
  induction cs generalizing c with
  | nil => simp
  | cons d cs ih =>
    obtain ⟨start, rest⟩ := ih (max c d)
    simp only [List.foldl_cons, List.forall_mem_cons]
    exact ⟨(le_max_left c d).trans start, (le_max_right c d).trans start, rest⟩

theorem foldl_max_mem (c : ℤ) (cs : List ℤ) : cs.foldl max c ∈ c :: cs := by
  induction cs generalizing c with
  | nil => simp
  | cons d cs ih =>
    rw [List.foldl_cons]
    rcases List.mem_cons.mp (ih (max c d)) with h | h
    · rw [h]
      rcases max_choice c d with h | h <;> simp [h]
    · exact List.mem_cons_of_mem _ (List.mem_cons_of_mem _ h)

/-- `worstCode` is the largest code there is. -/
theorem worstCode_eq_iff {cs : List ℤ} (hne : cs ≠ []) (code : ℤ) :
    worstCode cs = code ↔ code ∈ cs ∧ ∀ c ∈ cs, c ≤ code := by
  obtain ⟨c, rest, rfl⟩ := List.exists_cons_of_ne_nil hne
  have upper : ∀ d ∈ c :: rest, d ≤ worstCode (c :: rest) :=
    List.forall_mem_cons.mpr (le_foldl_max c rest)
  have mem : worstCode (c :: rest) ∈ c :: rest := foldl_max_mem c rest
  constructor
  · intro h
    rw [← h]
    exact ⟨mem, upper⟩
  · intro h
    exact le_antisymm (h.2 _ mem) (upper code h.1)

/-! ### The classes -/

/-- A code that refuses is not sent, and permanent only when it is 5xx. -/
theorem classifyCode_of_refusal {code : ℤ} (h : refusalCode code) :
    classifyCode (some code) ≠ .sent ∧ (classifyCode (some code) = .permanent →
      500 ≤ code ∧ code < 600) := by
  unfold refusalCode at h
  have no2xx : ¬(200 ≤ code ∧ code < 300) := by omega
  unfold classifyCode
  simp only [no2xx, if_false]
  split
  · simp
  · refine ⟨by simp, fun _ => ?_⟩
    omega

/-- Any other code is sent, or permanent without being 5xx. -/
theorem classifyCode_of_not_refusal {code : ℤ} (h : ¬ refusalCode code) :
    classifyCode (some code) = .sent ∨
      classifyCode (some code) = .permanent ∧ ¬(500 ≤ code ∧ code < 600) := by
  unfold refusalCode at h
  have no4xx : ¬(400 ≤ code ∧ code < 500) := by omega
  unfold classifyCode
  simp only [no4xx, if_false]
  split
  · exact .inl rfl
  · exact .inr ⟨rfl, by omega⟩

/-- A result that carries the class of its code is sound exactly for a refusal. -/
theorem sound_classifyCode_iff {out : SendOutcome} (raised : out.taken = false)
    {r : RelayResult} {code : ℤ}
    (hk : r.classification = classifyCode (some code)) (hc : r.smtpCode = some code) :
    r.Sound out ↔ refusalCode code := by
  constructor
  · intro sound
    by_contra other
    rcases classifyCode_of_not_refusal other with h | ⟨h, no5xx⟩
    · have := sound.sent.mp (hk.trans h)
      rw [raised] at this
      cases this
    · obtain ⟨c, hc', bounds⟩ := sound.permanent (hk.trans h)
      rw [hc] at hc'
      cases hc'
      exact no5xx bounds
  · intro refusal
    obtain ⟨notSent, permanent⟩ := classifyCode_of_refusal refusal
    refine ⟨⟨fun h => absurd (hk ▸ h) notSent, fun h => ?_⟩, fun h =>
      ⟨code, hc, permanent (hk ▸ h)⟩⟩
    rw [raised] at h
    cases h

/-- A result that is neither sent nor permanent is sound for an exception. -/
theorem sound_of_class {out : SendOutcome} (raised : out.taken = false) {r : RelayResult}
    (hs : r.classification ≠ .sent) (hp : r.classification ≠ .permanent) : r.Sound out :=
  ⟨⟨fun h => absurd h hs, fun h => (by rw [raised] at h; cases h)⟩, fun h => absurd h hp⟩

theorem classify_sound_iff (e : SmtpError) :
    (classify e).Sound (.raised e) ↔ ¬ (SendOutcome.raised e).Misread := by
  cases e with
  | response code text =>
    rw [sound_classifyCode_iff rfl (show _ = classifyCode (some code) from rfl) rfl]
    simp [SendOutcome.Misread, SendOutcome.Decides]
  | recipientsRefused rs =>
    rw [sound_classifyCode_iff rfl (show _ =
      classifyCode (some (worstCode (rs.map Refusal.code))) from rfl) rfl]
    by_cases hne : rs.map Refusal.code = []
    · have default : refusalCode (worstCode (rs.map Refusal.code)) := by
        rw [hne]
        decide
      refine iff_of_true default fun misread => ?_
      obtain ⟨code, ⟨mem, -⟩, -⟩ := misread
      rw [hne] at mem
      cases mem
    · simp only [SendOutcome.Misread, SendOutcome.Decides, ← worstCode_eq_iff hne]
      simp
  | _ =>
    refine iff_of_true (sound_of_class rfl ?_ ?_) fun misread => misread.elim fun _ h => h.1
    · intro h
      cases h
    · intro h
      cases h

/-- A relay is one `send`, and its result is what the outcome makes it. -/
theorem relay_path_iff {provider : ProviderConfig} {mailFrom : String} {rcptTos : List String}
    {rawMessage : Bytes} {errand : Errand} {out : SendOutcome} {r : RelayResult} :
    (relay provider mailFrom rcptTos rawMessage errand).Path
      [⟨.send provider.name (sendKwargs provider.smtp) mailFrom rcptTos rawMessage errand, out⟩]
      (.ok r) ↔
      resultOf out = .ok r := by
  constructor
  · intro h
    obtain ⟨a, rest, heq, hr⟩ := h
    cases heq
    simp only [Prog.ret_bind] at hr
    cases hout : resultOf out with
    | ok result =>
      rw [hout] at hr
      cases hr.2
      rfl
    | error e =>
      rw [hout] at hr
      cases hr.2
  · intro h
    refine ⟨out, [], rfl, ?_⟩
    simp only [Prog.ret_bind, h]
    exact ⟨rfl, rfl⟩

/-- **A relay's classification is sound** exactly when no reply decides that is no refusal: for
every outcome of `send`, `relay` then says sent if and only if `send` returned, and permanent only
for a 5xx reply. -/
theorem relay_sound_iff (provider : ProviderConfig) (mailFrom : String) (rcptTos : List String)
    (rawMessage : Bytes) (errand : Errand) (out : SendOutcome) :
    (∀ r, (relay provider mailFrom rcptTos rawMessage errand).Path
        [⟨.send provider.name (sendKwargs provider.smtp) mailFrom rcptTos rawMessage errand, out⟩]
        (.ok r) →
      r.Sound out) ↔ ¬ out.Misread := by
  simp only [relay_path_iff]
  cases out with
  | returned errors response =>
    refine iff_of_true (fun r hr => ?_) fun misread => misread.elim fun _ h => h.1
    cases hr
    exact ⟨by simp [delivered, SendOutcome.taken], fun h => by cases h⟩
  | raised e =>
    rw [← classify_sound_iff]
    exact ⟨fun h => h _ rfl, fun h r hr => (by cases hr; exact h)⟩
  | raisedOther e => exact iff_of_true (fun r hr => (by cases hr)) fun misread => misread.elim fun _ h => h.1

namespace Example

/-- The reply to `DATA` was 250 where 354 is due: `send` raises, and the relay is called sent. -/
theorem relay_unsound_unexpected250 : ∃ r,
    (relay smarthost "from@example" ["to@example"] [] ⟨1, ⟨"a", 1, none, none, 1⟩⟩).Path
      [⟨.send "a" (sendKwargs smarthost.smtp) "from@example" ["to@example"] [] ⟨1,
        ⟨"a", 1, none, none, 1⟩⟩, .raised (.response 250 "unexpected")⟩] (.ok r) ∧
      r.classification = .sent ∧ (SendOutcome.raised (.response 250 "unexpected")).taken = false :=
  ⟨_, relay_path_iff.mpr rfl, rfl, rfl⟩

end Example

end SmtpSwitch
