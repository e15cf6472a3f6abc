import SmtpSwitch.Coop.Protocol
import SmtpSwitch.Util

/-!
# Accounts and passwords

`AccountStore` and `_touch_account` of `ingress/auth.py`, and the password reset of
the accounts API. A login is checked against an in-memory snapshot of the accounts;
when the stored hash is out of date, a detached task re-hashes the password the
login was made with. The task and the reset write the same column, each keyed by
the account's id only.

The password hasher is a parameter (`Hasher`): all that is used of it is that a hash
verifies the password it was made from and no other.
-/

namespace SmtpSwitch.Accounts

open Coop Coop.Prog

/-! ### The password hasher -/

/-- `argon2.PasswordHasher`. -/
structure Hasher where
  /-- The stored strings. -/
  Hash : Type
  /-- What a hash is salted with. -/
  Salt : Type
  hash : Salt → String → Hash
  /-- `verify_password`. -/
  verify : Hash → String → Bool
  /-- `needs_rehash`. -/
  needsRehash : Hash → Bool
  /-- A hash verifies its own password and no other. -/
  verify_hash : ∀ salt p q, verify (hash salt p) q = true ↔ q = p

variable (H : Hasher)

/-! ### The state -/

/-- A row of `accounts`. -/
structure Account where
  username : String
  passwordHash : H.Hash
  enabled : Bool := true
  lastUsedAt : Option Time := none

/-- `_CachedAccount`. -/
structure CachedAccount where
  id : ℕ
  passwordHash : H.Hash
  enabled : Bool

/-- What the tasks share. -/
structure State where
  /-- The `accounts` table, by id. -/
  rows : ℕ → Option (Account H)
  /-- The ids in use, in the order the rows are read in. -/
  ids : List ℕ
  /-- `AccountStore._by_name`. -/
  byName : String → Option (CachedAccount H) := fun _ => none
  /-- The `_touch_account` tasks created and not yet run. -/
  pending : List (ℕ × Option String) := []
  clock : Time := 0

/-- `{r.username: _CachedAccount(...) for r in rows}`: a later row wins. -/
def snapshot (s : State H) (name : String) : Option (CachedAccount H) :=
  s.ids.foldl (fun found id =>
    match s.rows id with
    | some r => if r.username = name then some ⟨id, r.passwordHash, r.enabled⟩ else found
    | none => found) none

/-- `verify`: the username if the login is good, and the touch to schedule. -/
def verify (s : State H) (username password : String) : Option String × List (ℕ × Option String) :=
  match s.byName username with
  | none => (none, [])
  | some acct =>
    if !acct.enabled then (none, [])
    else if !H.verify acct.passwordHash password then (none, [])
    else (some username,
      [(acct.id, if H.needsRehash acct.passwordHash then some password else none)])

/-! ### Operations -/

/-- The exceptions of the accounts' code. -/
inductive Exc where
  | httpException (status : ℕ)
  | databaseError
  deriving DecidableEq

/-- The columns an `UPDATE accounts ... WHERE id` assigns. -/
structure AccountValues where
  passwordHash : Option H.Hash := none
  lastUsedAt : Option Time := none

/-- A row after the assignment. -/
def AccountValues.apply {H : Hasher} (v : AccountValues H) (r : Account H) : Account H :=
  { r with passwordHash := v.passwordHash.getD r.passwordHash, lastUsedAt := v.lastUsedAt.or r.lastUsedAt }

/-- Whose session it is. -/
inductive Site where
  | touch
  | reset
  deriving DecidableEq

/-- An operation. -/
inductive Op where
  /-- `verify`, which awaits nothing. -/
  | login (username password : String)
  /-- A scheduled `_touch_account` gets to run. -/
  | begin (id : ℕ) (password : Option String)
  /-- `hash_password`. -/
  | hash (password : String)
  | utcnow
  /-- `db.get(Account, id)`. -/
  | get (site : Site) (id : ℕ)
  /-- The commit of a session that has assigned columns of account `id`. `plain` is the password a
  new hash was made from; it is not written, it lets a run be read. -/
  | commit (site : Site) (id : ℕ) (values : AccountValues H) (plain : Option String)
  /-- `refresh`: the rows are read and replace the snapshot. -/
  | refresh

/-- The answers. -/
@[reducible] def Op.Ans {H : Hasher} : Op H → Type
  | .login _ _ => Option String
  | .begin _ _ => Unit
  | .hash _ => H.Hash
  | .utcnow => Time
  | .get _ _ => Except Exc (Option (Account H))
  | .commit _ _ _ _ => Except Exc Unit
  | .refresh => Except Exc Unit

/-- What the surroundings decide. -/
inductive Choice where
  | ok
  | fail
  | salt (s : H.Salt)

/-- What an operation does. -/
def exec {H : Hasher} : (o : Op H) → Choice H → State H → Option (o.Ans × State H)
  | .login username password, .ok, s =>
    let (answer, scheduled) := verify H s username password
    some (answer, { s with pending := s.pending ++ scheduled })
  | .begin id password, .ok, s =>
    if (id, password) ∈ s.pending then some ((),
      { s with pending := s.pending.erase (id, password) })
    else none
  | .hash password, .salt salt, s => some (H.hash salt password, s)
  | .utcnow, .ok, s => some (s.clock, s)
  | .get _ id, .ok, s => some (.ok (s.rows id), s)
  | .get _ _, .fail, s => some (.error .databaseError, s)
  | .commit _ id v _, .ok, s =>
    some (.ok (), { s with rows := Function.update s.rows id ((s.rows id).map v.apply) })
  | .commit _ _ _ _, .fail, s => some (.error .databaseError, s)
  | .refresh, .ok, s => some (.ok (), { s with byName := snapshot H s })
  | .refresh, .fail, s => some (.error .databaseError, s)
  | _, _, _ => none

/-! ### The code -/

/-- A coroutine of the accounts' code. -/
abbrev Act (α : Type) := Prog (Op H) Op.Ans Exc α

variable {H}

/-- One operation. -/
def perform (o : Op H) : Act H o.Ans := .op o .ret

/-- One operation whose answer may be an exception. -/
def get (site : Site) (id : ℕ) : Act H (Option (Account H)) := .op (.get site id) Prog.ofExcept

def commit (site : Site) (id : ℕ) (v : AccountValues H) (plain : Option String) : Act H Unit :=
  .op (.commit site id v plain) Prog.ofExcept

def refresh : Act H Unit := .op .refresh Prog.ofExcept

/-- A login. -/
def login (username password : String) : Act H Unit := do
  let _ ← perform (.login username password)

/-- `if password_to_rehash`. -/
def rehash : Option String → Option String
  | some p => orNone p
  | none => none

/-- `_touch_account`. -/
def touchAccount (accountId : ℕ) (passwordToRehash : Option String) : Act H Unit := do
  perform (.begin accountId passwordToRehash)
  Prog.handle (do
    match ← get .touch accountId with
    | none => return
    | some _ =>
      let now ← perform .utcnow
      match rehash passwordToRehash with
      | none => commit .touch accountId { lastUsedAt := some now } none
      | some p =>
        let h ← perform (.hash p)
        commit .touch accountId { lastUsedAt := some now, passwordHash := some h } (some p))
    fun _ => return

/-- `reset_account_password`. -/
def resetAccountPassword (accountId : ℕ) (password : String) : Act H Unit :=
  if password.length < 8 then .raise (.httpException 422)
  else do
    match ← get .reset accountId with
    | none => .raise (.httpException 404)
    | some _ =>
      let h ← perform (.hash password)
      commit .reset accountId { passwordHash := some h } (some password)
      refresh

/-- What a task may be running. -/
inductive Job where
  | login (username password : String)
  | touchAccount (accountId : ℕ) (passwordToRehash : Option String)
  | resetAccountPassword (accountId : ℕ) (password : String)
  | refresh

/-- The code of a job. -/
def Job.code : Job → Act H Unit
  | .login username password => Accounts.login username password
  | .touchAccount id p => Accounts.touchAccount id p
  | .resetAccountPassword id p => Accounts.resetAccountPassword id p
  | .refresh => Accounts.refresh

variable (H)

/-- The machine; the outside events are the passing of time. -/
def accounts : Machine (Op H) Op.Ans Exc (State H) (Choice H) Job ℚ where
  exec _ := exec
  prog := Job.code
  admits _ _ _ := true
  env d s := { s with clock := s.clock + max d 0 }
  reboot s := { rows := s.rows, ids := s.ids, clock := s.clock }

/-! ### The protocol -/

/-- What a task is about to write. -/
inductive Phase where
  | idle
  /-- `h` was made from the password `p`. -/
  | hashed (p : String) (h : H.Hash)

/-- A hash written is one the task has made of the password named with it. -/
def passwords : Protocol (Op H) Op.Ans Job (Phase H) where
  idle := .idle
  enter _ := .idle
  next
    | _, .hash p, h => .hashed p h
    | _, .commit .., _ => .idle
    | φ, _, _ => φ
  good
    | φ, .commit _ _ v plain, _ =>
      (v.passwordHash = none ∧ plain = none) ∨ ∃ p h, φ = .hashed p h ∧ v.passwordHash = some h ∧
        plain = some p
    | _, _, _ => True

variable {H}

theorem refresh_whole : (refresh : Act H Unit).Whole (passwords H) := by
  intro a
  refine ⟨trivial, ?_⟩
  cases a <;> exact rfl

theorem touchAccount_whole (id : ℕ) (p : Option String) :
    (touchAccount id p : Act H Unit).Whole (passwords H) := by
  refine fun _ => ⟨trivial, Follows.handle fun a => ⟨trivial, ?_⟩⟩
  match a with
  | .error e => exact rfl
  | .ok none => exact rfl
  | .ok (some row) =>
    refine fun now => ⟨trivial, ?_⟩
    simp only [Prog.ret_bind]
    split
    · refine fun b => ⟨.inl ⟨rfl, rfl⟩, ?_⟩
      cases b <;> exact rfl
    · rename_i p _
      refine fun h => ⟨trivial, fun b => ⟨.inr ⟨p, h, rfl, rfl, rfl⟩, ?_⟩⟩
      cases b <;> exact rfl

theorem resetAccountPassword_whole (id : ℕ) (p : String) :
    (resetAccountPassword id p : Act H Unit).Whole (passwords H) := by
  unfold resetAccountPassword
  split
  · exact rfl
  refine fun a => ⟨trivial, ?_⟩
  match a with
  | .error e => exact rfl
  | .ok none => exact rfl
  | .ok (some row) =>
    refine fun h => ⟨trivial, fun b => ⟨.inr ⟨p, h, rfl, rfl, rfl⟩, ?_⟩⟩
    match b with
    | .error e => exact rfl
    | .ok _ => exact refresh_whole

theorem accounts_keeps : (accounts H).Keeps (passwords H) := by
  intro i j s _
  cases j with
  | login username password => exact fun _ => ⟨trivial, rfl⟩
  | touchAccount id p => exact touchAccount_whole id p
  | resetAccountPassword id p => exact resetAccountPassword_whole id p
  | refresh => exact refresh_whole

/-! ### The law -/

/-- The shared state and the trace. -/
abbrev Moment (H : Hasher) := Config (Op H) Op.Ans (State H) Job ℚ

/-- The password of the last reset of an account that was committed. -/
def lastReset (id : ℕ) : List (Entry (Op H) Op.Ans Job ℚ) → Option String
  | .did _ (.commit .reset id' _ plain) (.ok _) :: tr => if id' = id then plain else lastReset id tr
  | _ :: tr => lastReset id tr
  | [] => none

/-- When a touch writes a re-hash, the stored hash still verifies the password it re-hashed. -/
def UpgradesOnly (x x' : Moment H) : Prop :=
  ∀ i id v p, x'.trace = .did i (.commit .touch id v (some p)) (.ok ()) :: x.trace →
    ∀ r, x.shared.rows id = some r → H.verify r.passwordHash p = true

/-- The stored hash of an account that was reset is one of the last reset's password. -/
structure ResetInv (x : Moment H) : Prop where
  hashed : ∀ i p h, (passwords H).phase x.trace i = .hashed p h → ∃ salt, h = H.hash salt p
  stored : ∀ id p r, lastReset id x.trace = some p → x.shared.rows id = some r →
    ∃ salt, r.passwordHash = H.hash salt p

namespace ResetInv

variable {s s' : State H} {tr : List (Entry (Op H) Op.Ans Job ℚ)} {i : ℕ}

/-- The phases after an operation that makes no hash. -/
theorem hashed_did (h : ResetInv ⟨s, tr⟩) {o : Op H} {a : o.Ans}
    (hn : ∀ p k, (passwords H).next ((passwords H).phase tr i) o a = .hashed p k →
      ∃ salt, k = H.hash salt p) (k : ℕ) (p : String) (hash : H.Hash)
    (hk : (passwords H).phase (.did i o a :: tr) k = .hashed p hash) :
    ∃ salt, hash = H.hash salt p := by
  by_cases hi : k = i
  · subst hi
    rw [Protocol.phase_did, Function.update_self] at hk
    exact hn p hash hk
  · rw [Protocol.phase_did, Function.update_of_ne hi] at hk
    exact h.hashed k p hash hk

/-- An operation that leaves the rows alone and resets nothing. -/
theorem did_same (h : ResetInv ⟨s, tr⟩) {o : Op H} {a : o.Ans} (hr : s'.rows = s.rows)
    (hl : ∀ id, lastReset id (.did i o a :: tr) = lastReset id tr)
    (hn : ∀ p k, (passwords H).next ((passwords H).phase tr i) o a = .hashed p k →
      ∃ salt, k = H.hash salt p) : ResetInv ⟨s', .did i o a :: tr⟩ where
  hashed := h.hashed_did hn
  stored id p r hp hrow := by
    rw [hl] at hp
    rw [show s'.rows = s.rows from hr] at hrow
    exact h.stored id p r hp hrow

/-- A commit. -/
theorem did_commit (h : ResetInv ⟨s, tr⟩) {site : Site} {id : ℕ} {v : AccountValues H}
    {plain : Option String} {c : Choice H} {a}
    (he : exec (.commit site id v plain) c s = some (a, s'))
    (hg : (passwords H).good ((passwords H).phase tr i) (.commit site id v plain) a)
    (hc : UpgradesOnly ⟨s, tr⟩ ⟨s', .did i (.commit site id v plain) a :: tr⟩) :
    ResetInv ⟨s', .did i (.commit site id v plain) a :: tr⟩ := by
  cases c with
  | salt salt => cases he
  | fail =>
    cases he
    refine h.did_same rfl (fun _ => ?_) fun _ _ hk => by cases hk
    cases site <;> rfl
  | ok =>
    cases he
    refine ⟨h.hashed_did fun _ _ hk => (by cases hk), fun id' q r hq hr => ?_⟩
    by_cases hid : id' = id
    · subst hid
      simp only [Function.update_self, Option.map_eq_some_iff] at hr
      obtain ⟨row, hrow, rfl⟩ := hr
      obtain ⟨hnone, rfl⟩ | ⟨p, hash, hφ, hsome, rfl⟩ := hg
      · -- the hash is not assigned
        cases site with
        | reset => simp [lastReset] at hq
        | touch =>
          obtain ⟨salt, hs⟩ := h.stored id' q row hq hrow
          exact ⟨salt, by simp [AccountValues.apply, hnone, hs]⟩
      · obtain ⟨salt, rfl⟩ := h.hashed i p hash hφ
        have written : (v.apply row).passwordHash = H.hash salt p := by
          simp [AccountValues.apply, hsome]
        cases site with
        | reset =>
          simp only [lastReset, if_true, Option.some.injEq] at hq
          subst hq
          exact ⟨salt, written⟩
        | touch =>
          obtain ⟨salt', hs⟩ := h.stored id' q row hq hrow
          have verified := hc i id' v p rfl row hrow
          rw [hs, H.verify_hash] at verified
          subst verified
          exact ⟨salt, written⟩
    · have hq : lastReset id' tr = some q := by
        cases site with
        | reset => simpa [lastReset, Ne.symm hid] using hq
        | touch => exact hq
      simp only [Function.update_of_ne hid] at hr
      exact h.stored id' q r hq hr

theorem step {x x' : Moment H} (h : ResetInv x) (hs : (accounts H).Step (passwords H) x x')
    (hc : UpgradesOnly x x') : ResetInv x' := by
  cases hs with
  | @start s tr i j ha hi =>
    refine ⟨fun k p hash hk => ?_, h.stored⟩
    rw [Protocol.phase_start_idle rfl hi] at hk
    exact h.hashed k p hash hk
  | env => exact ⟨h.hashed, h.stored⟩
  | crash => exact ⟨fun k p hash hk => (by cases hk), h.stored⟩
  | @did s s' tr i o c a he hg =>
    have he : exec o c s = some (a, s') := he
    have keep : ∀ p k, (passwords H).phase tr i = .hashed p k → ∃ salt, k = H.hash salt p :=
      fun p k => h.hashed i p k
    cases o with
    | commit site id v plain => exact h.did_commit he hg hc
    | hash p =>
      cases c with
      | salt salt =>
        cases he
        exact h.did_same rfl (fun _ => rfl) fun q k hk => by cases hk; exact ⟨salt, rfl⟩
      | _ => cases he
    | begin id p =>
      have rows : s'.rows = s.rows := by
        cases c with
        | ok =>
          simp only [exec] at he
          split at he
          · cases he; rfl
          · cases he
        | _ => cases he
      exact h.did_same rows (fun _ => rfl) keep
    | _ =>
      have rows : s'.rows = s.rows := by cases c <;> cases he <;> rfl
      exact h.did_same rows (fun _ => rfl) keep

end ResetInv

/-- **A password reset is final.** In every run in which each re-hash that is written upgrades a
hash of the same password, the stored hash of an account that was reset verifies the password of
the last reset and no other. -/
theorem reset_final_of_upgradesOnly (H : Hasher) {w : State H}
    {s : Pool (Op H) Op.Ans Exc (State H) Job ℚ}
    (h : (accounts H).Reachable UpgradesOnly (Machine.boot w) s) (id : ℕ) (p : String)
    (hp : lastReset id s.trace = some p) (r : Account H) (hr : s.shared.rows id = some r)
    (q : String) : H.verify r.passwordHash q = true ↔ q = p := by
  have init : ResetInv ⟨w, []⟩ := ⟨fun i p hash hk => (by cases hk), fun id p r hp => (by cases hp)⟩
  obtain ⟨salt, hs⟩ := (Machine.invariant accounts_keeps ResetInv init
    (fun h hs hc => h.step hs hc) h).1.stored id p r hp hr
  rw [hs, H.verify_hash]

namespace Example

/-- A hasher whose hashes are the passwords, with the parameters they were made with; those made
with parameters `0` are out of date. -/
def plainHasher : Hasher where
  Hash := String × ℕ
  Salt := Unit
  hash _ p := (p, 1)
  verify h p := h.1 = p
  needsRehash h := h.2 = 0
  verify_hash salt p q := by simp [eq_comm]

/-- One account, its hash out of date. -/
def oneAccount : State plainHasher where
  rows := fun id => if id = 1 then some { username := "app", passwordHash := ("old password", 0) }
    else none
  ids := [1]
  byName := fun name => if name = "app" then some ⟨1, ("old password", 0), true⟩ else none

/-- A login with the old password, then a reset, then the touch the login has scheduled. -/
def touchAfterReset : List (Move (Choice plainHasher) Job ℚ) :=
  [.start 0 (.login "app" "old password"), .run 0 .ok,
    .start 1 (.resetAccountPassword 1 "new password"), .run 1 .ok, .run 1 (.salt ()), .run 1 .ok,
    .run 1 .ok, .start 2 (.touchAccount 1 (some "old password")), .run 2 .ok,
      .run 2 .ok, .run 2 .ok,
    .run 2 (.salt ()), .run 2 .ok]

/-- The old password verifies after the reset. -/
theorem reset_undone_touchAfterReset : ∃ s,
    (accounts plainHasher).Reachable Machine.Free (Machine.boot oneAccount) s ∧
      lastReset 1 s.trace = some "new password" ∧ ∃ r, s.shared.rows 1 = some r ∧
        plainHasher.verify r.passwordHash "old password" = true := by
  obtain ⟨s, hs, ha⟩ : ∃ s, (accounts plainHasher).runFrom (Machine.boot oneAccount)
      touchAfterReset = some s ∧ (lastReset 1 s.trace, (s.shared.rows 1).map fun r =>
        plainHasher.verify r.passwordHash "old password") = (some "new password", some true) :=
    Option.map_eq_some_iff.mp (by decide +kernel)
  simp only [Prod.mk.injEq, Option.map_eq_some_iff] at ha
  exact ⟨s, Machine.Reachable.refl.runFrom hs, ha.1, ha.2⟩

/-- The touch runs before the reset. -/
def touchBeforeReset : List (Move (Choice plainHasher) Job ℚ) :=
  [.start 0 (.login "app" "old password"), .run 0 .ok,
    .start 2 (.touchAccount 1 (some "old password")), .run 2 .ok, .run 2 .ok, .run 2 .ok,
    .run 2 (.salt ()), .run 2 .ok,
    .start 1 (.resetAccountPassword 1 "new password"), .run 1 .ok, .run 1 (.salt ()), .run 1 .ok]

/-- The check of `UpgradesOnly`. -/
def upgrades (m : Move (Choice plainHasher) Job ℚ)
    (s : Pool (Op plainHasher) Op.Ans Exc (State plainHasher) Job ℚ) : Bool :=
  match m with
  | .run i _ => match s.tasks i with
    | some (_, .op (.commit .touch id _ (some p)) _) =>
      (s.shared.rows id).all fun r => plainHasher.verify r.passwordHash p
    | _ => true
  | _ => true

theorem upgradesOnly_of_check {m : Move (Choice plainHasher) Job ℚ}
    {s s' : Pool (Op plainHasher) Op.Ans Exc (State plainHasher) Job ℚ} (hm : upgrades m s = true)
    (h : (accounts plainHasher).step m s = some s') : UpgradesOnly s.toConfig s'.toConfig := by
  intro i id v p htr r hr
  obtain ⟨c, job, k, rfl, ht, -⟩ := Machine.step_did h htr
  simp only [upgrades, ht] at hm
  rw [show s.shared.rows id = some r from hr] at hm
  exact hm

theorem reset_final_touchBeforeReset : ∃ s r,
    (accounts plainHasher).runFrom (Machine.boot oneAccount) touchBeforeReset = some s ∧
      s.shared.rows 1 = some r ∧ (∀ q, plainHasher.verify r.passwordHash q = true ↔
        q = "new password") := by
  obtain ⟨s, hs, ha⟩ : ∃ s, (accounts plainHasher).runFrom (Machine.boot oneAccount)
      touchBeforeReset = some s ∧ (lastReset 1 s.trace, (s.shared.rows 1).isSome) =
        (some "new password", true) :=
    Option.map_eq_some_iff.mp (by decide +kernel)
  simp only [Prod.mk.injEq, Option.isSome_iff_exists] at ha
  obtain ⟨r, hr⟩ := ha.2
  refine ⟨s, r, hs, hr, fun q => reset_final_of_upgradesOnly plainHasher
    (Machine.Reachable.refl.runFrom_along upgradesOnly_of_check (by decide +kernel) hs) 1
    "new password" ha.1 r hr q⟩

end Example

end SmtpSwitch.Accounts
