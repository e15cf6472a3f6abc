import SmtpSwitch.Coop.Alone
import SmtpSwitch.Router

/-!
# The operators' overrides

`ProviderRegistry` of `providers/registry.py`, with the calls of the API that turn a provider on
or off. An override is kept twice, in `provider_overrides` and in memory, and `set_enabled`
writes the two in steps of their own: it commits its session, and assigns in memory once the
session is closed. Other calls may come in between.

The ORM decides what a commit writes by what the session has loaded: a row it has not found is
inserted, and of a row it has found only the columns are written that it has changed.
-/

namespace SmtpSwitch.Registry

open Coop Coop.Prog

/-! ### The state -/

/-- A row of `provider_overrides`; `enabled` is null where the configuration decides. -/
structure ProviderOverride where
  enabled : Option Bool
  note : Option String
  deriving DecidableEq

/-- What the calls share. -/
structure State where
  /-- The `provider_overrides` table. -/
  rows : String → Option ProviderOverride
  /-- `ProviderRegistry._overrides`. -/
  overrides : String → Option Bool := fun _ => none

/-- `{r.provider: r.enabled for r in rows}`. -/
def stored (rows : String → Option ProviderOverride) (name : String) : Option Bool :=
  (rows name).bind ProviderOverride.enabled

/-- A registry that has refreshed its overrides. -/
def loaded (rows : String → Option ProviderOverride) : State :=
  { rows := rows, overrides := stored rows }

/-! ### Operations -/

/-- The exceptions of the registry. -/
inductive Exc where
  | keyError
  | integrityError
  | staleDataError
  | databaseError
  deriving DecidableEq

/-- An operation. -/
inductive Op where
  /-- `session.get(ProviderOverride, name)`. -/
  | get (name : String)
  /-- The commit of a session that has loaded `old` under this name, if anything, and made it
  `new`. -/
  | commit (name : String) (old : Option ProviderOverride) (new : ProviderOverride)
  /-- `self._overrides[name] = enabled`. -/
  | assign (name : String) (enabled : Option Bool)
  /-- `select(ProviderOverride)`. -/
  | selectAll
  /-- `self._overrides = ...`. -/
  | setOverrides (overrides : String → Option Bool)

/-- The answers. -/
@[reducible] def Op.Ans : Op → Type
  | .get _ => Except Exc (Option ProviderOverride)
  | .commit _ _ _ => Except Exc Unit
  | .assign _ _ | .setOverrides _ => Unit
  | .selectAll => Except Exc (String → Option ProviderOverride)

/-- What the surroundings decide: whether a statement fails. -/
inductive Choice where
  | ok
  | fail

/-- A row after the `UPDATE` of the columns in which `new` differs from `old`. -/
def updated (old new row : ProviderOverride) : ProviderOverride where
  enabled := if new.enabled = old.enabled then row.enabled else new.enabled
  note := if new.note = old.note then row.note else new.note

/-- The row after a commit; an exception when a row to insert is there or a row to update is not. -/
def written (old : Option ProviderOverride) (new : ProviderOverride) :
    Option ProviderOverride → Except Exc (Option ProviderOverride)
  | none => match old with
    | none => .ok (some new)
    | some old => if new = old then .ok none else .error .staleDataError
  | some row => match old with
    | none => .error .integrityError
    | some old => .ok (some (updated old new row))

/-- What an operation does. -/
def exec : (o : Op) → Choice → State → Option (o.Ans × State)
  | .get name, .ok, s => some (.ok (s.rows name), s)
  | .get _, .fail, s => some (.error .databaseError, s)
  | .commit name old new, .ok, s =>
    match written old new (s.rows name) with
    | .ok row => some (.ok (), { s with rows := Function.update s.rows name row })
    | .error e => some (.error e, s)
  | .commit _ _ _, .fail, s => some (.error .databaseError, s)
  | .assign name enabled, .ok, s =>
      some ((), { s with overrides := Function.update s.overrides name enabled })
  | .selectAll, .ok, s => some (.ok s.rows, s)
  | .selectAll, .fail, s => some (.error .databaseError, s)
  | .setOverrides overrides, .ok, s => some ((), { s with overrides := overrides })
  | _, _, _ => none

/-! ### The code -/

/-- A coroutine of the registry. -/
abbrev Act (α : Type) := Prog Op Op.Ans Exc α

/-- One operation. -/
def perform (o : Op) : Act o.Ans := .op o .ret

/-- `refresh_overrides`. -/
def refreshOverrides : Act Unit :=
  .op .selectAll fun rows => (Prog.ofExcept rows).bind fun rows =>
    perform (.setOverrides (stored rows))

variable (cfg : Settings)

/-- `set_enabled`. -/
def setEnabled (name : String) (enabled : Option Bool) (note : Option String) : Act Unit :=
  if (cfg.provider name).isNone then .raise .keyError
  else
    .op (.get name) fun row => (Prog.ofExcept row).bind fun row =>
      .op (.commit name row ⟨enabled, note⟩) fun done => (Prog.ofExcept done).bind fun _ =>
        perform (.assign name enabled)

/-- A call. -/
inductive Job where
  | setEnabled (name : String) (enabled : Option Bool) (note : Option String)

/-- `enable_provider`. -/
def enableProvider (name user : String) : Job :=
  .setEnabled name (some true) (some ("set by " ++ user))

/-- `disable_provider`. -/
def disableProvider (name user : String) : Job :=
  .setEnabled name (some false) (some ("set by " ++ user))

/-- The code of a call. -/
def Job.code : Job → Act Unit
  | .setEnabled name enabled note => Registry.setEnabled cfg name enabled note

/-- The machine. A new process refreshes the overrides before it serves calls. -/
def registry : Machine Op Op.Ans Exc State Choice Job Unit where
  exec _ := exec
  prog := Job.code cfg
  admits _ _ _ := true
  env _ s := s
  reboot s := loaded s.rows

/-! ### The protocol -/

/-- How far a call has got. -/
inductive Phase where
  | idle
  /-- It has committed its session, and has still to assign the value. -/
  | committed (name : String) (enabled : Option Bool)
  deriving DecidableEq

/-- A value assigned is one the call has committed. -/
def toggles : Protocol Op Op.Ans Job Phase where
  idle := .idle
  enter _ := .idle
  next
    | _, .commit name _ new, .ok _ => .committed name new.enabled
    | _, .assign _ _, _ => .idle
    | φ, _, _ => φ
  good
    | φ, .commit _ _ _, _ => φ = .idle
    | φ, .assign name enabled, _ => φ = .committed name enabled
    | _, .setOverrides _, _ => False
    | _, _, _ => True

variable {cfg}

theorem registry_keeps : (registry cfg).Keeps toggles := by
  intro i j s _
  cases j with
  | setEnabled name enabled note =>
    change (setEnabled cfg name enabled note).Whole toggles
    unfold setEnabled
    split
    · exact rfl
    refine fun row => ⟨trivial, ?_⟩
    cases row with
    | error e => exact rfl
    | ok row =>
      refine fun done => ⟨rfl, ?_⟩
      cases done with
      | error e => exact rfl
      | ok _ => exact fun _ => ⟨rfl, rfl⟩

/-! ### The law -/

/-- The shared state and the trace. -/
abbrev Moment := Config Op Op.Ans State Job Unit

/-- A call assigns the value that is stored, or a call that has stored that has still to assign
it. -/
def InOrder (x x' : Moment) : Prop :=
  ∀ i name enabled a, x'.trace = .did i (.assign name enabled) a :: x.trace →
    enabled = stored x.shared.rows name ∨
      ∃ k ≠ i, toggles.phase x.trace k = .committed name (stored x.shared.rows name)

/-- Each override is in memory as it is stored, or will be. -/
def Synced (x : Moment) : Prop :=
  ∀ name, x.shared.overrides name = stored x.shared.rows name ∨
    ∃ i, toggles.phase x.trace i = .committed name (stored x.shared.rows name)

theorem stored_update (rows : String → Option ProviderOverride) (name : String)
    (row : Option ProviderOverride)
    (other : String) : stored (Function.update rows name row) other =
      if other = name then row.bind ProviderOverride.enabled else stored rows other := by
  by_cases h : other = name
  · subst h
    simp [stored]
  · simp [stored, h]

/-- What a commit stores is its own value or the one stored before. -/
theorem stored_written {old : Option ProviderOverride} {new : ProviderOverride}
    {row row' : Option ProviderOverride} (h : written old new row = .ok row') :
    row'.bind ProviderOverride.enabled = new.enabled ∨
      row'.bind ProviderOverride.enabled = row.bind ProviderOverride.enabled := by
  revert h
  fun_cases written old new row
  all_goals
    intro h
    cases h
  · exact .inl rfl
  · exact .inr rfl
  · rename_i old row
    simp only [Option.bind_some, updated]
    split
    · exact .inr rfl
    · exact .inl rfl

namespace Synced

variable {s s' : State} {tr : List (Entry Op Op.Ans Job Unit)} {i : ℕ}

/-- An operation that changes nothing, of a task that has nothing to assign after it unless it
had. -/
theorem did_same (h : Synced ⟨s, tr⟩) {o : Op} {a : o.Ans}
    (hn : toggles.next (toggles.phase tr i) o a = toggles.phase tr i) :
    Synced ⟨s, .did i o a :: tr⟩ := by
  intro name
  rw [Protocol.phase_did_same hn]
  exact h name

theorem did_commit (h : Synced ⟨s, tr⟩) {name : String} {old : Option ProviderOverride}
    {new : ProviderOverride}
    {row : Option ProviderOverride} (hw : written old new (s.rows name) = .ok row)
    (idle : toggles.phase tr i = .idle) :
    Synced ⟨{ s with rows := Function.update s.rows name row },
      .did i (.commit name old new) (.ok ()) :: tr⟩ := by
  intro other
  have mine : toggles.phase (.did i (.commit name old new) (.ok ()) :: tr) i =
      .committed name new.enabled := by
    rw [Protocol.phase_did, Function.update_self]
    rfl
  have kept : s.overrides other = stored s.rows other ∨ ∃ k,
      toggles.phase (.did i (.commit name old new) (.ok ()) :: tr) k = .committed other
        (stored s.rows other) := by
    rcases h other with same | ⟨k, hk⟩
    · exact .inl same
    · refine .inr ⟨k, ?_⟩
      rw [Protocol.phase_did, Function.update_of_ne]
      · exact hk
      · intro hki
        rw [hki] at hk
        rw [show toggles.phase tr i = .committed other (stored s.rows other) from hk] at idle
        cases idle
  simp only [stored_update]
  by_cases ho : other = name
  · subst ho
    rw [if_pos rfl]
    rcases stored_written hw with new_value | old_value
    · rw [new_value]
      exact .inr ⟨i, mine⟩
    · rw [old_value]
      exact kept
  · rw [if_neg ho]
    exact kept

theorem did_assign (h : Synced ⟨s, tr⟩) {name : String} {enabled : Option Bool} {a : Unit}
    (hg : toggles.phase tr i = .committed name enabled)
    (hc : InOrder ⟨s, tr⟩ ⟨{ s with overrides := Function.update s.overrides name enabled },
      .did i (.assign name enabled) a :: tr⟩) :
    Synced ⟨{ s with overrides := Function.update s.overrides name enabled },
      .did i (.assign name enabled) a :: tr⟩ := by
  intro other
  have kept : ∀ k ≠ i, toggles.phase (.did i (.assign name enabled) a :: tr) k =
      toggles.phase tr k := fun k hk => by
    rw [Protocol.phase_did, Function.update_of_ne hk]
  by_cases ho : other = name
  · subst ho
    simp only [Function.update_self]
    rcases hc i other enabled a rfl with same | ⟨k, hk, waiting⟩
    · exact .inl same
    · exact .inr ⟨k, (kept k hk).trans waiting⟩
  · simp only [Function.update_of_ne ho]
    rcases h other with same | ⟨k, hk⟩
    · exact .inl same
    · refine .inr ⟨k, (kept k ?_).trans hk⟩
      intro hki
      subst hki
      rw [show toggles.phase tr k = .committed other _ from hk] at hg
      cases hg
      exact ho rfl

theorem step {x x' : Moment} (h : Synced x) (hs : (registry cfg).Step toggles x x')
    (hc : InOrder x x') : Synced x' := by
  cases hs with
  | @start s tr i j ha hi =>
    intro name
    rw [Protocol.phase_start_idle rfl hi]
    exact h name
  | env => exact h
  | crash => exact fun name => .inl rfl
  | @did s s' tr i o c a he hg =>
    have he : exec o c s = some (a, s') := he
    cases o with
    | get name =>
      have same : s' = s := by cases c <;> cases he <;> rfl
      subst same
      exact h.did_same rfl
    | selectAll =>
      have same : s' = s := by cases c <;> cases he <;> rfl
      subst same
      exact h.did_same rfl
    | setOverrides overrides => cases hg
    | assign name enabled =>
      cases c with
      | fail => cases he
      | ok =>
        cases he
        exact h.did_assign hg hc
    | commit name old new =>
      cases c with
      | fail =>
        cases he
        exact h.did_same rfl
      | ok =>
        simp only [exec] at he
        split at he
        · rename_i row hw
          cases he
          exact h.did_commit hw hg
        · cases he
          exact h.did_same rfl

end Synced

/-- A registry made on the same database. -/
theorem refresh_fresh (rows : String → Option ProviderOverride) :
    refreshOverrides.alone (fun o => exec o .ok) { rows := rows } = some (.ok (), loaded rows) :=
      rfl

/-- **Live toggles agree with what a restart loads.** In every run in which the calls assign in
order, whenever no call is in progress every override is in memory as it is stored, so that the
providers enabled are those of a fresh registry that has read the same database. -/
theorem toggles_agree (cfg : Settings) {rows : String → Option ProviderOverride}
    {s : Pool Op Op.Ans Exc State Job Unit}
    (h : (registry cfg).Reachable InOrder (Machine.boot (loaded rows)) s)
    (quiet : ∀ i, s.tasks i = none) :
    (∀ name, s.shared.overrides name = stored s.shared.rows name) ∧
      ∃ fresh, refreshOverrides.alone (fun o => exec o .ok) { rows := s.shared.rows } =
        some (.ok (), fresh) ∧
        (∀ p, isEnabled s.shared.overrides p = isEnabled fresh.overrides p) ∧
        enabledProviders cfg s.shared.overrides = enabledProviders cfg fresh.overrides := by
  obtain ⟨synced, phases⟩ := Machine.invariant registry_keeps Synced (fun name => .inl rfl)
    (fun h hs hc => h.step hs hc) h
  have same : s.shared.overrides = stored s.shared.rows := by
    funext name
    rcases synced name with same | ⟨i, hi⟩
    · exact same
    · have idle := phases i
      rw [quiet i] at idle
      rw [show toggles.phase s.trace i = .idle from idle] at hi
      cases hi
  refine ⟨fun name => by rw [same], loaded s.shared.rows, refresh_fresh _, fun p => ?_, ?_⟩
  · rw [same]
    rfl
  · rw [same]
    rfl

namespace Example

open SmtpSwitch.Example (relayed smarthost)

/-- A provider an operator has enabled before. -/
def rows : String → Option ProviderOverride := fun name =>
  if name = "a" then some ⟨some true, some "set by admin"⟩ else none

/-- It is disabled and enabled again, and the second call assigns before the first one does. -/
def crossed : List (Move Choice Job Unit) :=
  [.start 0 (disableProvider "a" "ann"), .run 0 .ok, .run 0 .ok,
    .start 1 (enableProvider "a" "bob"), .run 1 .ok, .run 1 .ok, .run 1 .ok, .run 0 .ok]

/-- Both calls have returned; the provider is disabled, but enabled after a restart. -/
theorem toggles_disagree_crossed : ∃ s,
    (registry relayed).Reachable Machine.Free (Machine.boot (loaded rows)) s ∧
    (∀ i, s.tasks i = none) ∧
      isEnabled s.shared.overrides smarthost = false ∧
        isEnabled (loaded s.shared.rows).overrides smarthost = true := by
  obtain ⟨s, hs, ha⟩ : ∃ s, (registry relayed).runFrom (Machine.boot (loaded rows)) crossed =
      some s ∧
      ((s.tasks 0).isNone, (s.tasks 1).isNone, s.shared.overrides "a", stored s.shared.rows "a") =
        (true, true, some false, some true) :=
    Option.map_eq_some_iff.mp (by decide +kernel)
  simp only [Prod.mk.injEq, Option.isNone_iff_eq_none] at ha
  obtain ⟨first, second, memory, row⟩ := ha
  refine ⟨s, Machine.Reachable.refl.runFrom hs, fun i => ?_, ?_, ?_⟩
  · by_cases hi : 2 ≤ i
    · exact Machine.runFrom_untouched hi (by decide) hs rfl
    · obtain rfl | rfl : i = 0 ∨ i = 1 := by omega
      · exact first
      · exact second
  · simp [isEnabled, smarthost, memory]
  · simp [isEnabled, smarthost, loaded, row]

/-- The same calls, which assign in the order they commit in. -/
def ordered : List (Move Choice Job Unit) :=
  [.start 0 (disableProvider "a" "ann"), .run 0 .ok, .run 0 .ok,
    .start 1 (enableProvider "a" "bob"), .run 1 .ok, .run 1 .ok, .run 0 .ok, .run 1 .ok]

/-- The check of `InOrder`, of two calls. -/
def orderly (m : Move Choice Job Unit) (s : Pool Op Op.Ans Exc State Job Unit) : Bool :=
  match m with
  | .run i _ => match s.tasks i with
    | some (_, .op (.assign name enabled) _) => enabled = stored s.shared.rows name ||
        toggles.phase s.trace (1 - i) = .committed name (stored s.shared.rows name)
    | _ => true
  | _ => true

theorem inOrder_of_check {m : Move Choice Job Unit} {s s' : Pool Op Op.Ans Exc State Job Unit}
    (hm : orderly m s = true) (h : (registry relayed).step m s = some s') :
    InOrder s.toConfig s'.toConfig := by
  intro i name enabled a htr
  obtain ⟨c, job, k, rfl, ht, -⟩ := Machine.step_did h htr
  simp only [orderly, ht, Bool.or_eq_true, decide_eq_true_eq] at hm
  exact hm.imp_right fun waiting => ⟨1 - i, by omega, waiting⟩

/-- The provider is enabled, before a restart as after it. -/
theorem toggles_agree_ordered : ∃ s,
    (registry relayed).runFrom (Machine.boot (loaded rows)) ordered = some s ∧
      ∀ name, s.shared.overrides name = stored s.shared.rows name := by
  obtain ⟨s, hs, ha⟩ : ∃ s, (registry relayed).runFrom (Machine.boot (loaded rows)) ordered =
      some s ∧
      ((s.tasks 0).isNone, (s.tasks 1).isNone) = (true, true) :=
    Option.map_eq_some_iff.mp (by decide +kernel)
  simp only [Prod.mk.injEq, Option.isNone_iff_eq_none] at ha
  refine ⟨s, hs, (toggles_agree relayed
    (Machine.Reachable.refl.runFrom_along inOrder_of_check (by decide +kernel) hs) fun i => ?_).1⟩
  by_cases hi : 2 ≤ i
  · exact Machine.runFrom_untouched hi (by decide) hs rfl
  · obtain rfl | rfl : i = 0 ∨ i = 1 := by omega
    · exact ha.1
    · exact ha.2

end Example

end SmtpSwitch.Registry
