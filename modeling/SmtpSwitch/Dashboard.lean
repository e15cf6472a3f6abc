import Mathlib.Data.Rat.Floor
import SmtpSwitch.Accounts
import SmtpSwitch.Db

/-!
# Dashboard sessions

`web/security.py`, the login of `web/api.py`, and the commands of `admin.py` for the
dashboard's users, which another process runs on the same table. A session is a
signed cookie; `require_user` looks at nothing else, so that it does not know of a
password changed since. What it does know is told here: whoever is let in has
logged in within the session's time, with the password that was last set when the
login read the row (`served_after_login`).

The serializer is a parameter (`Serializer`): what is used of it is that it reads
what it has written, for so long.
-/

namespace SmtpSwitch.Dashboard

open Coop Coop.Prog
open Accounts (Hasher)

/-- `itsdangerous.URLSafeTimedSerializer` with the session secret. A token carries a username and
the second it was signed in. -/
structure Serializer where
  Token : Type
  dumps : String → ℤ → Token
  /-- `loads` at a time, with `max_age`; `none` when it raises. -/
  loads : Token → ℕ → ℤ → Option String
  loads_dumps : ∀ username stamp maxAge now, stamp ≤ now → ∀ username',
    loads (dumps username stamp) maxAge now = some username' ↔ username' = username ∧
      now - stamp ≤ maxAge

variable (H : Hasher) (S : Serializer) (ttl : ℕ)

/-! ### The state -/

/-- A row of `dashboard_users`. -/
structure User where
  id : ℕ
  username : String
  passwordHash : H.Hash
  enabled : Bool := true

/-- What the processes share. -/
structure State where
  users : List (User H)
  clock : Time := 0

/-! ### Operations -/

inductive Exc where
  | httpException (status : ℕ)
  | integrityError
  | staleDataError
  | databaseError
  /-- `sys.exit`. -/
  | systemExit
  deriving DecidableEq

/-- An operation. -/
inductive Op where
  /-- `select(func.count()).select_from(DashboardUser)`. -/
  | count
  /-- `select(DashboardUser).where(DashboardUser.username == username)`. -/
  | find (username : String)
  /-- The commit of a session with a new user. -/
  | insert (username password : String)
  /-- The commit of a session that has set a user's password. -/
  | setPassword (id : ℕ) (password : String)
  /-- The end of a session that has only read. -/
  | close
  /-- `SessionManager.issue`. -/
  | issue (username : String)
  /-- `SessionManager.verify`. -/
  | verify (token : Option S.Token)

/-- The answers. -/
@[reducible] def Op.Ans {H : Hasher} {S : Serializer} : Op S → Type
  | .count => Except Exc ℕ
  | .find _ => Except Exc (Option (User H))
  | .insert _ _ => Except Exc ℕ
  | .setPassword _ _ | .close => Except Exc Unit
  | .issue _ => S.Token
  | .verify _ => Option String

/-- What the surroundings decide. -/
inductive Choice where
  | ok
  | fail
  /-- A password is hashed with this salt. -/
  | salt (s : H.Salt)

variable {H S}

/-- What an operation does. -/
def exec : (o : Op S) → Choice H → State H → Option (o.Ans (H := H) × State H)
  | .count, .ok, s => some (.ok s.users.length, s)
  | .count, .fail, s => some (.error .databaseError, s)
  | .find username, .ok, s => some (.ok (s.users.find? fun u => u.username = username), s)
  | .find _, .fail, s => some (.error .databaseError, s)
  | .insert username p, .salt salt, s =>
    if s.users.any fun u => u.username = username then some (.error .integrityError, s)
    else some (.ok (nextId (s.users.map User.id)), { s with
      users := s.users ++ [⟨nextId (s.users.map User.id), username, H.hash salt p, true⟩] })
  | .insert _ _, .fail, s => some (.error .databaseError, s)
  | .setPassword id p, .salt salt, s =>
    if s.users.any fun u => u.id = id then some (.ok (), { s with
      users := s.users.map fun u =>
        if u.id = id then { u with passwordHash := H.hash salt p } else u })
    else some (.error .staleDataError, s)
  | .setPassword _ _, .fail, s => some (.error .databaseError, s)
  | .close, .ok, s => some (.ok (), s)
  | .close, .fail, s => some (.error .databaseError, s)
  | .issue username, .ok, s => some (S.dumps username ⌊s.clock⌋, s)
  | .verify token, .ok, s => some (token.bind fun t => S.loads t ttl ⌊s.clock⌋, s)
  | _, _, _ => none

/-! ### The code -/

/-- A coroutine of the dashboard's code. -/
abbrev Act (H : Hasher) (S : Serializer) (α : Type) := Prog (Op S) (Op.Ans (H := H)) Exc α

/-- `authenticate`. -/
def authenticate (username password : String) : Act H S (Option String) :=
  .op (.find username) fun row => (Prog.ofExcept row).bind fun row =>
    let good := row.bind fun user =>
      if user.enabled && H.verify user.passwordHash password then some user.username else none
    .op .close fun done => (Prog.ofExcept done).bind fun _ => .ret good

/-- `login`. -/
def login (username password : String) : Act H S Unit :=
  (authenticate username password).bind fun user =>
    match user with
    | none => .raise (.httpException 401)
    | some user => .op (.issue user) fun _ => .ret ()

/-- `require_user`. -/
def requireUser (token : Option S.Token) : Act H S Unit :=
  .op (.verify token) fun user =>
    match user with
    | none => .raise (.httpException 401)
    | some _ => .ret ()

/-- `ensure_bootstrap_user`, with the password that is generated. -/
def ensureBootstrapUser (generated : String) : Act H S Unit :=
  .op .count fun count => (Prog.ofExcept count).bind fun count =>
    if count = 0 then .op (.insert "admin" generated) fun id =>
      (Prog.ofExcept id).bind fun _ => .ret ()
    else .op .close Prog.ofExcept

/-- `_resolve_password`: the password given, the one generated, or the one typed in, unless that
is too short. -/
def resolvePassword (value : Option String) (generate : Bool) (generated typed : String) :
    Act H S String :=
  match orNone (value.getD "") with
  | some p => .ret p
  | none =>
    if generate then .ret generated
    else if typed.length < 8 then .raise .systemExit
    else .ret typed

/-- `_user_add`. -/
def userAdd (username : String) (value : Option String) (generate : Bool)
    (generated typed : String) : Act H S Unit :=
  (resolvePassword value generate generated typed).bind fun password =>
    .op (.find username) fun existing => (Prog.ofExcept existing).bind fun existing =>
      match existing with
      | some _ => .raise .systemExit
      | none => .op (.insert username password) fun id => (Prog.ofExcept id).bind fun _ => .ret ()

/-- `_user_passwd`. -/
def userPasswd (username : String) (value : Option String) (generate : Bool)
    (generated typed : String) :
    Act H S Unit :=
  (resolvePassword value generate generated typed).bind fun password =>
    .op (.find username) fun user => (Prog.ofExcept user).bind fun user =>
      match user with
      | none => .raise .systemExit
      | some user => .op (.setPassword user.id password) Prog.ofExcept

variable (S) in
/-- What a task may be running. -/
inductive Job where
  | login (username password : String)
  | request (token : Option S.Token)
  | bootstrap (generated : String)
  | userAdd (username : String) (value : Option String) (generate : Bool) (generated typed : String)
  | userPasswd (username : String) (value : Option String) (generate : Bool)
      (generated typed : String)

/-- The code of a job. -/
def Job.code : Job S → Act H S Unit
  | .login username password => Dashboard.login username password
  | .request token => requireUser token
  | .bootstrap generated => ensureBootstrapUser generated
  | .userAdd username value generate generated typed =>
      Dashboard.userAdd username value generate generated typed
  | .userPasswd username value generate generated typed =>
      Dashboard.userPasswd username value generate generated typed

variable (H S) in
/-- The machine; the outside events are the passing of time. -/
def dashboard : Machine (Op S) (Op.Ans (H := H)) Exc (State H) (Choice H) (Job S) ℚ where
  exec _ := exec ttl
  prog := Job.code
  admits _ _ _ := true
  env d s := { s with clock := s.clock + max d 0 }
  reboot s := s

/-! ### The protocol -/

variable (H) in
/-- How far a login has got. -/
inductive Phase where
  | idle
  /-- It has still to look for the user. -/
  | asked (username password : String)
  /-- It has found the user, whose password is the one given. -/
  | granted (username password : String) (user : User H)

/-- The next phase. -/
def Phase.next : Phase H → (o : Op S) → o.Ans (H := H) → Phase H
  | .asked username password, .find _, .ok (some user) =>
    if user.enabled && H.verify user.passwordHash password then .granted username password user
      else .idle
  | .asked _ _, .find _, _ => .idle
  | .granted _ _ _, .close, .error _ => .idle
  | .granted _ _ _, .issue _, _ => .idle
  | φ, _, _ => φ

variable (H S) in
/-- A token is issued to who has been found, with the password that was given. -/
def sessions : Protocol (Op S) (Op.Ans (H := H)) (Job S) (Phase H) where
  idle := .idle
  enter
    | .login username password => .asked username password
    | _ => .idle
  next := Phase.next
  good
    | φ, .find username, _ => φ = .idle ∨ ∃ password, φ = .asked username password
    | φ, .issue username, _ => ∃ name password user, φ = .granted name password user ∧
        username = user.username
    | _, _, _ => True

theorem login_follows (username password : String) :
    (login username password : Act H S Unit).Follows (sessions H S)
    (fun _ φ => φ = .idle) (.asked username password) := by
  refine fun row => ⟨.inr ⟨password, rfl⟩, ?_⟩
  match row with
  | .error e => exact rfl
  | .ok none =>
    refine fun done => ⟨trivial, ?_⟩
    cases done <;> exact rfl
  | .ok (some user) =>
    have next : (sessions H S).next (.asked username password) (.find username) (.ok (some user)) =
        if user.enabled && H.verify user.passwordHash password then .granted username password user
          else .idle := rfl
    rw [next]
    cases hv : user.enabled && H.verify user.passwordHash password with
    | true =>
      simp only [Prog.ofExcept, Prog.ret_bind, Option.bind_some, hv, if_true, Prog.op_bind]
      refine fun done => ⟨trivial, ?_⟩
      cases done with
      | error e => exact rfl
      | ok _ => exact fun _ => ⟨⟨_, _, _, rfl, rfl⟩, rfl⟩
    | false =>
      simp only [Prog.ofExcept, Prog.ret_bind, Option.bind_some, hv, Bool.false_eq_true,
        if_false, Prog.op_bind]
      refine fun done => ⟨trivial, ?_⟩
      cases done <;> exact rfl

/-- Issues no token. -/
def Op.quiet : Op S → Prop
  | .issue _ => False
  | _ => True

theorem whole_quiet {t : Act H S Unit} (h : t.Uses Op.quiet) : t.Whole (sessions H S) :=
  (h.mono fun o ho a => by
    cases o <;> first | exact ho.elim | exact ⟨.inl rfl, rfl⟩ | exact ⟨trivial, rfl⟩).whole

theorem resolvePassword_quiet (value : Option String) (generate : Bool) (generated typed : String) :
    (resolvePassword value generate generated typed : Act H S String).Uses Op.quiet := by
  unfold resolvePassword
  split
  · trivial
  · split
    · trivial
    · split <;> trivial

theorem sessions_keeps : (dashboard H S ttl).Keeps (sessions H S) := by
  intro i j s _
  cases j with
  | login username password => exact login_follows username password
  | request token =>
    refine whole_quiet ⟨trivial, fun user => ?_⟩
    cases user <;> trivial
  | bootstrap generated =>
    refine whole_quiet ⟨trivial, fun count => ?_⟩
    cases count with
    | error e => trivial
    | ok n =>
      change (if n = 0 then _ else _ : Act H S Unit).Uses Op.quiet
      split
      · exact ⟨trivial, fun id => by cases id <;> trivial⟩
      · exact ⟨trivial, fun done => by cases done <;> trivial⟩
  | userAdd username value generate generated typed =>
    refine whole_quiet (Uses.bind (fun p =>
      ?_) (resolvePassword_quiet value generate generated typed))
    refine ⟨trivial, fun found => ?_⟩
    match found with
    | .error e => trivial
    | .ok (some user) => trivial
    | .ok none => exact ⟨trivial, fun id => by cases id <;> trivial⟩
  | userPasswd username value generate generated typed =>
    refine whole_quiet (Uses.bind (fun p =>
      ?_) (resolvePassword_quiet value generate generated typed))
    refine ⟨trivial, fun found => ?_⟩
    match found with
    | .error e => trivial
    | .ok none => trivial
    | .ok (some user) => exact ⟨trivial, fun done => by cases done <;> trivial⟩

/-! ### What the trace tells -/

/-- The shared state and the trace. -/
abbrev Moment (H : Hasher) (S : Serializer) := Config (Op S) (Op.Ans (H := H)) (State H) (Job S) ℚ

variable (H S) in
/-- A trace of the dashboard. -/
abbrev Trace := List (Entry (Op S) (Op.Ans (H := H)) (Job S) ℚ)

/-- The time after a trace. -/
def clockAfter (t : Time) : Trace H S → Time
  | .env d :: tr => clockAfter t tr + max d 0
  | _ :: tr => clockAfter t tr
  | [] => t

/-- The password that was set last for a user, by the user's id. -/
def lastSet (id : ℕ) : Trace H S → Option String
  | .did _ (.insert _ p) (.ok id') :: tr => if id' = id then some p else lastSet id tr
  | .did _ (.setPassword id' p) (.ok _) :: tr => if id' = id then some p else lastSet id tr
  | _ :: tr => lastSet id tr
  | [] => none

/-- Task `i` has been started with a login of this user, and has since found the user enabled; the
password of the login was the user's, and the one set last if it was set in the run. -/
structure Recognized (tr : Trace H S) (i : ℕ) (username password : String) (user : User H) :
    Prop where
  started : .start i (.login username password) ∈ tr
  named : user.username = username
  enabled : user.enabled = true
  verified : H.verify user.passwordHash password = true
  found : ∃ post pre, tr = post ++ .did i (.find username) (.ok (some user)) :: pre ∧
    ∀ p, lastSet user.id pre = some p → password = p

/-- A login of the user was granted this token at the time. -/
def LoggedIn (t₀ : Time) (tr : Trace H S) (token : S.Token) (username : String) (t : Time) : Prop :=
  ∃ i post pre password user, tr = post ++ .did i (.issue username) token :: pre ∧
    t = clockAfter t₀ pre ∧
    Recognized pre i username password user

theorem Recognized.cons {tr : Trace H S} {i : ℕ} {username password : String} {user : User H}
    (h : Recognized tr i username password user) (e : Entry (Op S) (Op.Ans (H := H)) (Job S) ℚ) :
    Recognized (e :: tr) i username password user := by
  obtain ⟨post, pre, heq, last⟩ := h.found
  exact ⟨List.mem_cons_of_mem _ h.started, h.named, h.enabled, h.verified, e :: post,
    pre, by rw [heq]; rfl, last⟩

theorem LoggedIn.cons {t₀ t : Time} {tr : Trace H S} {token : S.Token} {username : String}
    (h : LoggedIn t₀ tr token username t) (e : Entry (Op S) (Op.Ans (H := H)) (Job S) ℚ) :
    LoggedIn t₀ (e :: tr) token username t := by
  obtain ⟨i, post, pre, password, user, heq, ht, recognized⟩ := h
  exact ⟨i, e :: post, pre, password, user, by rw [heq]; rfl, ht, recognized⟩

/-! ### The invariant -/

/-- The users stand for what the trace tells. -/
structure Inv (t₀ : Time) (x : Moment H S) : Prop where
  ids : (x.shared.users.map User.id).Nodup
  clock : x.shared.clock = clockAfter t₀ x.trace
  hashed : ∀ u ∈ x.shared.users, ∀ p, lastSet u.id x.trace = some p → ∃ salt,
    u.passwordHash = H.hash salt p
  set : ∀ id p, lastSet id x.trace = some p → id ∈ x.shared.users.map User.id
  asked : ∀ i username password, (sessions H S).phase x.trace i = .asked username password →
    .start i (.login username password) ∈ x.trace
  granted : ∀ i username password user, (sessions H S).phase x.trace i =
    .granted username password user →
    Recognized x.trace i username password user
  issued : ∀ token, (∃ i username, .did i (.issue username) token ∈ x.trace) →
    ∃ username t, LoggedIn t₀ x.trace token username t ∧ token = S.dumps username ⌊t⌋ ∧
      t ≤ x.shared.clock

section Did

variable {ttl} {s s' : State H} {tr : Trace H S} {i : ℕ} {o : Op S} {a : o.Ans (H := H)}
  {c : Choice H} {t₀ : Time}

/-- What an operation does to the users. -/
inductive Changes (s s' : State H) : (o : Op S) → o.Ans (H := H) → Prop where
  | none {o : Op S} {a : o.Ans (H := H)} : s'.users = s.users →
      (∀ i id (tr : Trace H S), lastSet id (.did i o a :: tr) = lastSet id tr) → Changes s s' o a
  | inserted {username p : String} {salt : H.Salt} : (∀ u ∈ s.users, u.username ≠ username) →
      s'.users = s.users ++ [⟨nextId (s.users.map User.id), username, H.hash salt p, true⟩] →
        Changes s s' (.insert username p) (.ok (nextId (s.users.map User.id)))
  | set {id : ℕ} {p : String} {salt : H.Salt} : (∃ u ∈ s.users, u.id = id) →
      s'.users = s.users.map (fun u =>
        if u.id = id then { u with passwordHash := H.hash salt p } else u) →
        Changes s s' (.setPassword id p) (.ok ())

theorem changes_of_exec (he : exec ttl o c s = some (a, s')) : s'.clock = s.clock ∧
    Changes s s' o a := by
  cases o with
  | insert username p =>
    cases c with
    | ok => cases he
    | fail =>
      cases he
      exact ⟨rfl, .none rfl fun _ _ _ => rfl⟩
    | salt salt =>
      simp only [exec] at he
      split at he
      · cases he
        exact ⟨rfl, .none rfl fun _ _ _ => rfl⟩
      · rename_i free
        cases he
        refine ⟨rfl, .inserted (fun u hu same => free ?_) rfl⟩
        exact List.any_eq_true.mpr ⟨u, hu, decide_eq_true same⟩
  | setPassword id p =>
    cases c with
    | ok => cases he
    | fail =>
      cases he
      exact ⟨rfl, .none rfl fun _ _ _ => rfl⟩
    | salt salt =>
      simp only [exec] at he
      split at he
      · rename_i found
        cases he
        obtain ⟨u, hu, hid⟩ := List.any_eq_true.mp found
        exact ⟨rfl, .set ⟨u, hu, of_decide_eq_true hid⟩ rfl⟩
      · cases he
        exact ⟨rfl, .none rfl fun _ _ _ => rfl⟩
  | _ =>
    cases c <;>
      first
      | (cases he; done)
      | (cases he; exact ⟨rfl, .none rfl fun _ _ _ => rfl⟩)

theorem Changes.ids (h : Changes s s' o a) (ids : (s.users.map User.id).Nodup) :
    (s'.users.map User.id).Nodup := by
  cases h with
  | none same => exact same ▸ ids
  | inserted _ rows =>
    rw [rows, List.map_append, List.nodup_append]
    refine ⟨ids, List.nodup_singleton _, fun a ha b hb => ?_⟩
    obtain rfl := List.mem_singleton.mp hb
    exact (lt_nextId ha).ne
  | set _ rows =>
    rw [rows, List.map_map]
    refine (List.map_congr_left fun u _ => ?_) ▸ ids
    simp only [Function.comp_apply]
    split <;> rfl

theorem Changes.hashed (h : Changes s s' o a)
    (hashed : ∀ u ∈ s.users, ∀ p, lastSet u.id tr = some p → ∃ salt, u.passwordHash = H.hash salt p)
    {u : User H} (hu : u ∈ s'.users) {p : String} (hp : lastSet u.id (.did i o a :: tr) = some p) :
    ∃ salt, u.passwordHash = H.hash salt p := by
  cases h with
  | none same quiet =>
    rw [quiet] at hp
    exact hashed u (same ▸ hu) p hp
  | @inserted username p' salt _ rows =>
    rw [rows] at hu
    rcases List.mem_append.mp hu with hu | hu
    · have other : nextId (s.users.map User.id) ≠ u.id := (lt_nextId (List.mem_map_of_mem hu)).ne'
      rw [lastSet, if_neg other] at hp
      exact hashed u hu p hp
    · obtain rfl := List.mem_singleton.mp hu
      rw [lastSet, if_pos rfl] at hp
      cases hp
      exact ⟨salt, rfl⟩
  | @set id p' salt _ rows =>
    rw [rows] at hu
    obtain ⟨v, hv, rfl⟩ := List.mem_map.mp hu
    by_cases same : v.id = id
    · simp only [if_pos same] at hp ⊢
      rw [lastSet, if_pos same.symm] at hp
      cases hp
      exact ⟨salt, rfl⟩
    · simp only [if_neg same] at hp ⊢
      rw [lastSet, if_neg (Ne.symm same)] at hp
      exact hashed v hv p hp

theorem Changes.set_ids (h : Changes s s' o a)
    (set : ∀ id p, lastSet id tr = some p → id ∈ s.users.map User.id) {id : ℕ} {p : String}
    (hp : lastSet id (.did i o a :: tr) = some p) : id ∈ s'.users.map User.id := by
  cases h with
  | none same quiet =>
    rw [quiet] at hp
    exact same ▸ set id p hp
  | inserted _ rows =>
    rw [rows, List.map_append, List.mem_append]
    by_cases new : nextId (s.users.map User.id) = id
    · exact .inr (List.mem_singleton.mpr new.symm)
    · rw [lastSet, if_neg new] at hp
      exact .inl (set id p hp)
  | @set id' p' salt found rows =>
    have same : s'.users.map User.id = s.users.map User.id := by
      rw [rows, List.map_map]
      refine List.map_congr_left fun u _ => ?_
      simp only [Function.comp_apply]
      split <;> rfl
    rw [same]
    by_cases new : id' = id
    · obtain ⟨u, hu, hid⟩ := found
      exact List.mem_map.mpr ⟨u, hu, hid.trans new⟩
    · rw [lastSet, if_neg new] at hp
      exact set id p hp

theorem asked_of_next {φ : Phase H} {username password : String}
    (h : φ.next o a = .asked username password) :
    φ = .asked username password := by
  revert h
  fun_cases Phase.next φ o a
  all_goals intro h; first | exact h | cases h

theorem granted_of_next {φ : Phase H} {username password : String} {user : User H}
    (h : φ.next o a = .granted username password user) : φ = .granted username password user ∨
      φ = .asked username password ∧
        (∃ name, (⟨o, a⟩ : Σ o : Op S, o.Ans (H := H)) = ⟨.find name, .ok (some user)⟩) ∧
        user.enabled = true ∧ H.verify user.passwordHash password = true := by
  revert h
  fun_cases Phase.next φ o a
  all_goals intro h
  all_goals
    first
    | exact .inl h
    | (cases h; done)
    | (cases h
       exact .inr ⟨rfl, ⟨_, rfl⟩, (Bool.and_eq_true _ _ ▸ ‹_ = true› : _ ∧ _)⟩)

/-- What a `SELECT` finds is a user of that name. -/
theorem find_of_exec {name : String} {user : User H}
    (he : exec (S := S) ttl (.find name) c s = some (.ok (some user), s')) : user ∈ s.users ∧
      user.username = name := by
  cases c with
  | ok =>
    simp only [exec, Option.some.injEq, Prod.mk.injEq, Except.ok.injEq] at he
    exact ⟨List.mem_of_find?_eq_some he.1, by simpa using List.find?_some he.1⟩
  | _ => cases he

theorem phase_sessions_did (k : ℕ) : (sessions H S).phase (.did i o a :: tr) k =
    if k = i then ((sessions H S).phase tr i).next o a else (sessions H S).phase tr k := by
  rw [Protocol.phase_did, Function.update_apply]
  rfl

/-- A login that has found its user. -/
theorem Inv.granted_did (h : Inv t₀ ⟨s, tr⟩) (he : exec ttl o c s = some (a, s'))
    (hg : (sessions H S).good ((sessions H S).phase tr i) o a) {k : ℕ} {username password : String}
    {user : User H}
    (hk : (sessions H S).phase (.did i o a :: tr) k = .granted username password user) :
    Recognized (.did i o a :: tr) k username password user := by
  rw [phase_sessions_did] at hk
  split at hk
  · subst k
    rcases granted_of_next hk with old | ⟨asked, ⟨name, heq⟩, enabled, verified⟩
    · exact (h.granted i username password user old).cons _
    · cases heq
      rcases hg with idle | ⟨p, mine⟩
      · rw [asked] at idle
        cases idle
      rw [asked] at mine
      cases mine
      obtain ⟨hu, named⟩ := find_of_exec he
      refine ⟨List.mem_cons_of_mem _ (h.asked i username password asked), named, enabled,
        verified, [], tr, rfl, fun p hp => ?_⟩
      obtain ⟨salt, hash⟩ := h.hashed user hu p hp
      rw [hash] at verified
      exact (H.verify_hash salt p password).mp verified
  · exact (h.granted k username password user hk).cons _

/-- A token that has been issued. -/
theorem Inv.issued_did (h : Inv t₀ ⟨s, tr⟩) (he : exec ttl o c s = some (a, s'))
    (hg : (sessions H S).good ((sessions H S).phase tr i) o a) {token : S.Token}
    (ht : ∃ k username, .did k (.issue username) token ∈ (.did i o a :: tr : Trace H S)) :
    ∃ username t, LoggedIn t₀ (.did i o a :: tr) token username t ∧ token = S.dumps username ⌊t⌋ ∧
      t ≤ s'.clock := by
  obtain ⟨clock, -⟩ := changes_of_exec he
  obtain ⟨k, username, ht⟩ := ht
  rcases List.mem_cons.mp ht with new | old
  · cases new
    obtain ⟨name, password, user, hφ, rfl⟩ := hg
    have recognized := h.granted i name password user hφ
    cases c with
    | ok =>
      cases he
      refine ⟨user.username, s.clock, ⟨i, [], tr, password, user, rfl, h.clock, ?_⟩, rfl, le_rfl⟩
      rw [recognized.named]
      exact recognized
    | _ => cases he
  · obtain ⟨username, t, logged, written, past⟩ := h.issued token ⟨k, username, old⟩
    exact ⟨username, t, logged.cons _, written, clock ▸ past⟩

theorem Inv.did (h : Inv t₀ ⟨s, tr⟩) (he : exec ttl o c s = some (a, s'))
    (hg : (sessions H S).good ((sessions H S).phase tr i) o a) : Inv t₀ ⟨s', .did i o a :: tr⟩ := by
  obtain ⟨clock, changes⟩ := changes_of_exec he
  refine ⟨changes.ids h.ids, ?_, fun u hu p hp => changes.hashed h.hashed hu hp, fun id p hp =>
    changes.set_ids h.set hp,
    fun k username password hk => ?_, fun k username password user hk => h.granted_did he hg hk,
    fun token ht => h.issued_did he hg ht⟩
  · exact clock.trans h.clock
  · rw [phase_sessions_did] at hk
    split at hk
    · subst k
      exact List.mem_cons_of_mem _ (h.asked i username password (asked_of_next hk))
    · exact List.mem_cons_of_mem _ (h.asked k username password hk)

end Did

/-- Every step keeps it. -/
theorem Inv.step {t₀ : Time} {x x' : Moment H S} (h : Inv t₀ x)
    (hs : (dashboard H S ttl).Step (sessions H S) x x') :
    Inv t₀ x' := by
  have older : ∀ {e : Entry (Op S) (Op.Ans (H := H)) (Job S) ℚ} {token : S.Token},
      (∀ k username, e ≠ .did k (.issue username) token) →
        (∃ k username, .did k (.issue username) token ∈ e :: x.trace) →
          ∃ username t, LoggedIn t₀ (e :: x.trace) token username t ∧ token = S.dumps username ⌊t⌋ ∧
            t ≤ x.shared.clock := by
    rintro e token other ⟨k, username, ht⟩
    rcases List.mem_cons.mp ht with new | old
    · exact absurd new.symm (other k username)
    · obtain ⟨username, t, logged, rest⟩ := h.issued token ⟨k, username, old⟩
      exact ⟨username, t, logged.cons _, rest⟩
  cases hs with
  | @start s tr i j ha hi =>
    refine ⟨h.ids, h.clock, h.hashed, h.set, fun k username password hk => ?_,
      fun k username password user hk => ?_, fun token ht => older (fun _ _ h => (by cases h)) ht⟩
    · rw [Protocol.phase_start, Function.update_apply] at hk
      split at hk
      · subst k
        cases j with
        | login username' password' =>
          cases hk
          exact List.mem_cons_self
        | _ => cases hk
      · exact List.mem_cons_of_mem _ (h.asked k username password hk)
    · rw [Protocol.phase_start, Function.update_apply] at hk
      split at hk
      · cases j <;> cases hk
      · exact (h.granted k username password user hk).cons _
  | @env s tr d =>
    refine ⟨h.ids, congrArg (· + max d 0) h.clock, h.hashed, h.set,
      fun k username password hk => List.mem_cons_of_mem _ (h.asked k username password hk),
      fun k username password user hk => (h.granted k username password user hk).cons _,
        fun token ht => ?_⟩
    obtain ⟨username, t, logged, written, past⟩ := older (fun _ _ h => (by cases h)) ht
    exact ⟨username, t, logged, written, past.trans (le_add_of_nonneg_right (le_max_right d 0))⟩
  | crash =>
    exact ⟨h.ids, h.clock, h.hashed, h.set, fun k username password hk => (by cases hk),
      fun k username password user hk => (by cases hk), fun token ht =>
        older (fun _ _ h => (by cases h)) ht⟩
  | did he hg => exact h.did he hg

/-- **Whoever is let in has logged in.** In every run of the dashboard and the administrators'
commands: when a request with a token that has been issued is answered as a user's, the token was
issued to a login of that user no longer ago than a session lasts; the login found the user
enabled, and gave the user's password: the one set last, when the login read the row. -/
theorem served_after_login {s₀ : State H} (ids : (s₀.users.map User.id).Nodup)
    {C : Moment H S → Moment H S → Prop}
    {s s' : Pool (Op S) (Op.Ans (H := H)) Exc (State H) (Job S) ℚ}
    (h : (dashboard H S ttl).Reachable C (Machine.boot s₀) s) {m : Move (Choice H) (Job S) ℚ}
    (hm : (dashboard H S ttl).step m s = some s') {i : ℕ} {token : S.Token} {username : String}
    (htr : s'.trace = .did i (.verify (some token)) (some username) :: s.trace)
    (genuine : ∃ k name, .did k (.issue name) token ∈ s.trace) :
    ∃ t, LoggedIn s₀.clock s.trace token username t ∧ t ≤ s.shared.clock ∧
      ⌊s.shared.clock⌋ - ⌊t⌋ ≤ ttl := by
  obtain ⟨inv, inPhase⟩ := Machine.invariant (sessions_keeps ttl) (Inv s₀.clock)
    ⟨ids, rfl, fun u hu p hp => (by cases hp), fun id p hp => (by cases hp),
      fun i username password hk => (by cases hk),
      fun i username password user hk => (by cases hk), fun token ⟨k, name, ht⟩ => (by cases ht)⟩
    (fun hx hs _ => hx.step ttl hs) h
  obtain ⟨⟨c, he⟩, -⟩ := (Machine.step_cases (sessions_keeps ttl) inPhase hm).1.of_did htr
  obtain ⟨name, t, logged, rfl, past⟩ := inv.issued token genuine
  have read : S.loads (S.dumps name ⌊t⌋) ttl ⌊s.shared.clock⌋ = some username := by
    have he : exec (H := H) ttl (.verify (some (S.dumps name ⌊t⌋))) c s.shared =
        some (some username, s'.shared) := he
    cases c with
    | ok =>
      simp only [exec, Option.bind_some, Option.some.injEq, Prod.mk.injEq] at he
      exact he.1
    | _ => cases he
  obtain ⟨rfl, age⟩ :=
    (S.loads_dumps name ⌊t⌋ ttl ⌊s.shared.clock⌋ (Int.floor_le_floor past) username).mp read
  exact ⟨t, logged, past, age⟩

namespace Example

open Accounts.Example (plainHasher)

/-- A token is what it carries. -/
def plainSerializer : Serializer where
  Token := String × ℤ
  dumps username stamp := (username, stamp)
  loads token maxAge now := if now - token.2 ≤ maxAge then some token.1 else none
  loads_dumps username stamp maxAge now _ username' := by
    by_cases h : now - stamp ≤ maxAge
    · simp [h, eq_comm]
    · simp [h]

/-- The first user is made up, logs in and asks for a page ten seconds later. -/
def firstLogin : List (Move (Choice plainHasher) (Job plainSerializer) ℚ) :=
  [.start 0 (.bootstrap "pw"), .run 0 .ok, .run 0 (.salt ()), .start 1 (.login "admin" "pw"),
    .run 1 .ok, .run 1 .ok, .run 1 .ok, .env 10, .start 2 (.request (some ("admin", 0)))]

/-- The token a login was granted. -/
def granted : Entry (Op plainSerializer) (Op.Ans (H := plainHasher)) (Job plainSerializer) ℚ →
    Option (String × ℤ)
  | .did _ (.issue _) token => some token
  | _ => none

/-- The token a request was answered for, and the user it was answered as. -/
def served : Entry (Op plainSerializer) (Op.Ans (H := plainHasher)) (Job plainSerializer) ℚ →
    Option ((String × ℤ) × String)
  | .did _ (.verify (some token)) (some username) => some (token, username)
  | _ => none

theorem served_after_login_firstLogin : ∃ s s' i,
    (dashboard plainHasher plainSerializer 3600).runFrom (Machine.boot { users := [] }) firstLogin =
      some s ∧
      (dashboard plainHasher plainSerializer 3600).step (.run 2 .ok) s = some s' ∧
      s'.trace = .did i (.verify (some ("admin", 0))) (some "admin") :: s.trace ∧
      ∃ t, LoggedIn 0 s.trace ("admin", 0) "admin" t ∧ t ≤ s.shared.clock ∧
        ⌊s.shared.clock⌋ - ⌊t⌋ ≤ 3600 := by
  obtain ⟨s, hs, issued⟩ : ∃ s,
      (dashboard plainHasher plainSerializer 3600).runFrom
      (Machine.boot { users := [] }) firstLogin = some s ∧
        s.trace.filterMap granted = [("admin", 0)] := Option.map_eq_some_iff.mp (by decide +kernel)
  obtain ⟨s', hs', last⟩ : ∃ s', (dashboard plainHasher plainSerializer 3600).runFrom
      (Machine.boot { users := [] })
      (firstLogin ++ [.run 2 .ok]) = some s' ∧ s'.trace.head?.bind served =
        some (("admin", 0), "admin") :=
    Option.map_eq_some_iff.mp (by decide +kernel)
  have hstep := (Machine.runFrom_concat hs _).symm.trans hs'
  obtain ⟨e, htr⟩ := Machine.step_trace hstep
  rw [htr, List.head?_cons, Option.bind_some] at last
  obtain ⟨e', he', hissued⟩ :=
    List.mem_filterMap.mp (issued ▸ List.mem_singleton_self _ : _ ∈ s.trace.filterMap granted)
  unfold served at last
  split at last
  swap
  · cases last
  unfold granted at hissued
  split at hissued
  swap
  · cases hissued
  cases last
  cases hissued
  exact ⟨s, s', _, hs, hstep, htr,
    served_after_login 3600 (by decide) (Machine.Reachable.refl.runFrom hs) hstep htr
    ⟨_, _, he'⟩⟩

end Example

end SmtpSwitch.Dashboard
