import SmtpSwitch.Delivery.Integrity
import SmtpSwitch.Delivery.Retention

/-!
# Every message has its file

The rows of `messages` and the files of the spool directory are two stores with no
transaction across them: a file is written before its row is inserted, and
removed after its row is deleted, by tasks that anything may happen between. The
order is enough: in every run each row's file is there, with as many bytes as the
row says, and it is what was handed in, whatever the API deletes and the sweep
removes meanwhile (`files_present`). So a consumer finds no file only where the row
it has read is gone.
-/

namespace SmtpSwitch

open Coop Coop.Prog

/-! ### What a task has at hand -/

/-- The file of a message that is not stored yet, or could not be. -/
def Handling.file : Handling → Option String
  | .spooled _ _ path | .unstored path => some path
  | _ => none

/-- What `delete_message` has read, the id and the file. -/
def Handling.selected : Handling → List (ℕ × String)
  | .found id path => [(id, path)]
  | _ => []

/-- What `delete_message` is about to remove. -/
def Handling.doomed : Handling → List String
  | .gone path => [path]
  | _ => []

/-- What a sweep has selected. -/
def Upkeep.selected : Upkeep → List (ℕ × String)
  | .swept _ rows _ => rows
  | _ => []

/-- What a sweep is about to remove. -/
def Upkeep.doomed : Upkeep → List String
  | .unlinking rows _ => rows.map Prod.snd
  | _ => []

variable {cfg : Settings} {jobs : Job → Bool}

section Next

variable {φ : Handling} {o : Op} {a : o.Ans}

theorem handlingFile_of_next {path : String} (h : (φ.next o a).file = some path) :
    φ.file = some path ∨ ∃ content, (⟨o, a⟩ : Σ o : Op, o.Ans) = ⟨.spoolWrite content, path⟩ := by
  revert h
  fun_cases Handling.next φ o a
  all_goals intro h
  all_goals
    first
    | exact .inl h
    | (cases h; done)
    | (cases h; exact .inr ⟨_, rfl⟩)

theorem found_of_next {id : ℕ} {path : String} (h : φ.next o a = .found id path) :
    φ = .found id path ∨ φ = .deleting id ∧ ∃ site id' row,
      (⟨o, a⟩ : Σ o : Op, o.Ans) = ⟨.select site (.message id'), .ok (some row)⟩ ∧
        path = row.spoolPath := by
  revert h
  fun_cases Handling.next φ o a
  all_goals intro h
  all_goals
    first
    | exact .inl h
    | (cases h; done)
    | (cases h; exact .inr ⟨rfl, _, _, _, rfl, rfl⟩)

theorem gone_of_next {path : String} (h : φ.next o a = .gone path) :
    φ = .gone path ∨ ∃ id site ss n, φ = .found id path ∧
      (⟨o, a⟩ : Σ o : Op, o.Ans) = ⟨.commit site ss, .ok n⟩ := by
  revert h
  fun_cases Handling.next φ o a
  all_goals intro h
  all_goals
    first
    | exact .inl h
    | (cases h; done)
    | (cases h; exact .inr ⟨_, _, _, _, rfl, rfl⟩)

end Next

/-- What the dispatcher's protocol says of such a task. -/
def Agrees : Duty → Handling → Prop
  | .spooled _ path, φ => ∃ session envelope, φ = .spooled session envelope path
  | .unstored path, φ => φ = .unstored path
  | .deleting, φ => (∃ id, φ = .deleting id) ∨ ∃ id path, φ = .found id path
  | .deleted, φ => ∃ path, φ = .gone path
  | _, _ => True

theorem Agrees.next {d : Duty} {φ : Handling} {o : Op} {a : o.Ans} (h : Agrees d φ)
    (hd : d.good cfg o a) (hg : φ.good o a) : Agrees (d.next o a) (φ.next o a) := by
  cases d with
  | spooled content path =>
    obtain ⟨session, envelope, rfl⟩ := h
    have spooled : Agrees (.spooled content path) (.spooled session envelope path) :=
      ⟨session, envelope, rfl⟩
    cases o with
    | flush site =>
      cases a with
      | ok _ => exact spooled
      | error e => cases e <;> first | exact rfl | trivial
    | commit site ss =>
      cases a with
      | ok _ => trivial
      | error e => cases e <;> first | exact rfl | trivial
    | _ => exact spooled
  | unstored path =>
    obtain rfl := h
    cases o <;> first | exact rfl | trivial
  | deleting =>
    have deleting : ∀ id, Agrees .deleting (.deleting id) := fun id => .inl ⟨id, rfl⟩
    have found : ∀ id path, Agrees .deleting (.found id path) := fun id path => .inr ⟨id, path, rfl⟩
    rcases h with ⟨id, rfl⟩ | ⟨id, path, rfl⟩
    · cases o with
      | select site q => 
        cases q with
        | message id' =>
          cases a with
          | ok row =>
            cases row with
            | none => trivial
            | some row => exact found _ _
          | error e => trivial
        | _ => trivial
      | flush site =>
        cases a with
        | ok _ => exact deleting id
        | error e => trivial
      | commit site ss => exact hg.elim
      | _ => exact deleting id
    · cases o with
      | select site q =>
        cases q with
        | message id' =>
          cases a with
          | ok row =>
            cases row with
            | none => trivial
            | some row => exact found id path
          | error e => trivial
        | _ => trivial
      | flush site =>
        cases a with
        | ok _ => exact found id path
        | error e => trivial
      | commit site ss =>
        cases a with
        | ok _ => exact ⟨path, rfl⟩
        | error e => trivial
      | _ => exact found id path
  | deleted =>
    obtain ⟨path, rfl⟩ := h
    cases o <;> first | exact ⟨path, rfl⟩ | trivial
  | idle =>
    cases o with
    | spoolWrite content =>
      obtain ⟨session, envelope, rfl, -⟩ := hg
      exact ⟨session, envelope, rfl⟩
    | _ => trivial
  | _ =>
    refine (fun d' (next : Duty.Next _ o a d') => ?_ : ∀ d', Duty.Next _ o a d' →
      Agrees d' (φ.next o a))
      _ (Duty.next_cases _ o a)
    cases next <;> trivial

variable (cfg) in
/-- The ids and files that task `i` has selected. -/
def selections (x : Moment) (i : ℕ) : List (ℕ × String) :=
  ((upkeep cfg).phase x.trace i).selected ++ ((handling cfg).phase x.trace i).selected

variable (cfg) in
/-- The files that task `i` is about to remove, their rows deleted. -/
def doomed (x : Moment) (i : ℕ) : List String :=
  ((upkeep cfg).phase x.trace i).doomed ++ ((handling cfg).phase x.trace i).doomed

variable (cfg) in
/-- Each row has its own file, and each file about to be removed has no row. -/
structure Stocked (x : Moment) : Prop where
  ids : (x.shared.db.messages.map Message.id).Nodup
  paths : (x.shared.db.messages.map Message.spoolPath).Nodup
  present : ∀ m ∈ x.shared.db.messages, m.spoolPath ∈ x.shared.names ∧
    ∃ raw, x.shared.files m.spoolPath = some raw ∧ raw.length = m.size
  atHand : ∀ i path, ((handling cfg).phase x.trace i).file = some path → path ∈ x.shared.names ∧
    (∀ m ∈ x.shared.db.messages, m.spoolPath ≠ path) ∧
      ∀ k, ((handling cfg).phase x.trace k).file = some path → k = i
  content : ∀ i session envelope path, (handling cfg).phase x.trace i =
    .spooled session envelope path →
    x.shared.files path = some envelope.content
  selected : ∀ i, ∀ y ∈ selections cfg x i, y.2 ∈ x.shared.names ∧
    (∀ k, ((handling cfg).phase x.trace k).file ≠ some y.2) ∧
      ∀ m ∈ x.shared.db.messages, m.spoolPath = y.2 → m.id = y.1
  agree : ∀ i, Agrees ((delivery cfg).phase x.trace i) ((handling cfg).phase x.trace i)
  doomed : ∀ i, ∀ path ∈ doomed cfg x i, path ∈ x.shared.names ∧
    (∀ k, ((handling cfg).phase x.trace k).file ≠ some path) ∧
      ∀ m ∈ x.shared.db.messages, m.spoolPath ≠ path

section Did

variable {w w' : World} {tr : List (Entry Op Op.Ans Job ℚ)} {i : ℕ} {o : Op}
  {a : o.Ans} {c : Choice}

/-- A file that a task has at hand was there before, or has just got a new name. -/
theorem handlingFile_did (he : exec cfg i o c w = some (a, w')) {k : ℕ} {path : String}
    (h : ((handling cfg).phase (.did i o a :: tr) k).file = some path) :
    ((handling cfg).phase tr k).file = some path ∨ k = i ∧ path ∉ w.names ∧
      path ∈ w'.names ∧ w'.db = w.db := by
  rw [phase_handling_did] at h
  split at h
  · subst k
    rcases handlingFile_of_next h with old | ⟨content, heq⟩
    · exact .inl old
    · cases heq
      obtain ⟨fresh, rfl⟩ := exec_spoolWrite he
      exact .inr ⟨rfl, fresh, List.mem_cons_self, rfl⟩
  · exact .inl h

/-- A name that has been made up, and is at nobody's hand, is not taken up. -/
theorem not_at_hand (he : exec cfg i o c w = some (a, w')) {path : String} (named : path ∈ w.names)
    (unfiled : ∀ k, ((handling cfg).phase tr k).file ≠ some path) (k : ℕ) :
    ((handling cfg).phase (.did i o a :: tr) k).file ≠ some path := by
  intro hk
  rcases handlingFile_did he hk with old | ⟨-, fresh, -⟩
  · exact unfiled k old
  · exact fresh named

/-- What a task has selected it had selected before, or has just read. -/
theorem selections_did (he : exec cfg i o c w = some (a, w'))
    (hd : (dispatch cfg).good ((dispatch cfg).phase tr i) o a)
    (hg : ((handling cfg).phase tr i).good o a)
    {k : ℕ} {y : ℕ × String} (hy : y ∈ selections cfg ⟨w', .did i o a :: tr⟩ k) :
    y ∈ selections cfg ⟨w, tr⟩ k ∨ w' = w ∧ ∃ m ∈ w.db.messages, y = (m.id, m.spoolPath) := by
  rcases List.mem_append.mp hy with hu | hh
  · generalize hφ : (upkeep cfg).phase (.did i o a :: tr) k = u at hu
    cases u with
    | swept plan rows plans =>
      rw [phase_upkeep_did] at hφ
      split at hφ
      · subst k
        rcases swept_of_next hφ with was | ⟨was, site, status, cut, limit, heq⟩
        · refine .inl (List.mem_append_left _ ?_)
          rw [show (upkeep cfg).phase tr i = _ from was]
          exact hu
        · obtain ⟨rfl, -, selected⟩ := selected_did he hd was heq
          obtain ⟨m, hm, rfl, -⟩ := selected y hu
          exact .inr ⟨rfl, m, hm, rfl⟩
      · refine .inl (List.mem_append_left _ ?_)
        rw [show (upkeep cfg).phase tr k = _ from hφ]
        exact hu
    | _ => cases hu
  · generalize hφ : (handling cfg).phase (.did i o a :: tr) k = φ at hh
    cases φ with
    | found id path =>
      obtain rfl := List.mem_singleton.mp hh
      rw [phase_handling_did] at hφ
      split at hφ
      · subst k
        rcases found_of_next hφ with was | ⟨was, site, id', row, heq, rfl⟩
        · refine .inl (List.mem_append_right _ ?_)
          rw [show (handling cfg).phase tr i = _ from was]
          exact List.mem_singleton_self _
        · cases heq
          rcases hg with idle | deleting
          · rw [was] at idle
            cases idle
          rw [was] at deleting
          cases deleting
          obtain ⟨hans | ⟨e, hans⟩, rfl⟩ := exec_select he
          · have found : w'.db.messages.find? (fun m => m.id = id) = some row :=
              (Except.ok.inj hans).symm
            have named : row.id = id := by simpa using List.find?_some found
            exact .inr ⟨rfl, row, List.mem_of_find?_eq_some found, by rw [named]⟩
          · cases hans
      · refine .inl (List.mem_append_right _ ?_)
        rw [show (handling cfg).phase tr k = _ from hφ]
        exact List.mem_singleton_self _
    | _ => cases hh

/-- What a sweep leaves of the rows. -/
theorem rows_of_swept {site : Site} {s : Stmt} {ss : List Stmt} {n : ℕ}
    {plan : MessageStatus × Time} {rows : List (ℕ × String)} {plans : List (MessageStatus × Time)}
    (he : exec cfg i (.commit site (s :: ss)) c w = some (.ok n, w'))
    (good : (Upkeep.swept plan rows plans).writes (s :: ss)) :
    w'.db.messages = w.db.messages.filter fun m => m.id ∉ rows.map Prod.fst := by
  rcases ss with _ | ⟨s', _ | ⟨s'', rest⟩⟩
  · cases s with
    | updateMessage id v =>
      obtain ⟨row, now, hu, -⟩ := good
      cases hu
    | _ => cases good
  · cases s with
    | deleteAttempts ids =>
      cases s' with
      | deleteMessages ids' =>
        obtain ⟨plan', rows', plans', hu, rfl, rfl⟩ := good
        cases hu
        obtain ⟨db, hx, -, rfl⟩ | ⟨⟨e, he⟩, -⟩ := exec_commit he
        · cases hx
          rfl
        · cases he
      | _ => cases good
    | _ => cases good
  · cases s with
    | deleteAttempts ids => cases s' <;> cases good
    | _ => cases good

/-- What is about to be removed was so before, or has been selected and its rows have just been
deleted. -/
theorem doomed_did (he : exec cfg i o c w = some (a, w'))
    (hd : (dispatch cfg).good ((dispatch cfg).phase tr i) o a)
    (hg : ((handling cfg).phase tr i).good o a)
    {k : ℕ} {path : String} (hy : path ∈ doomed cfg ⟨w', .did i o a :: tr⟩ k) :
    path ∈ doomed cfg ⟨w, tr⟩ k ∨ ∃ id, (id, path) ∈ selections cfg ⟨w, tr⟩ k ∧
      (∀ m ∈ w'.db.messages, m ∈ w.db.messages ∧ m.id ≠ id) := by
  rcases List.mem_append.mp hy with hu | hh
  · generalize hφ : (upkeep cfg).phase (.did i o a :: tr) k = u at hu
    cases u with
    | unlinking rows plans =>
      rw [phase_upkeep_did] at hφ
      split at hφ
      · subst k
        rcases unlinking_of_next hφ with ⟨rows', was, sub⟩ | ⟨plan, site, s, ss, n, was, heq⟩
        · refine .inl (List.mem_append_left _ ?_)
          rw [show (upkeep cfg).phase tr i = _ from was]
          obtain ⟨y, hrow, rfl⟩ := List.mem_map.mp hu
          exact List.mem_map_of_mem (sub y hrow)
        · -- the rows have just been deleted
          obtain ⟨⟨id, _⟩, hid, rfl⟩ := List.mem_map.mp hu
          cases heq
          rcases dispatch_good hd with ⟨idle, -⟩ | ⟨-, good⟩
          · rw [was] at idle
            cases idle
          refine .inr ⟨id, List.mem_append_left _
            (by rw [show (upkeep cfg).phase tr i = _ from was]; exact hid), fun m hm => ?_⟩
          rw [show (upkeep cfg).phase tr i = _ from was] at good
          rw [rows_of_swept he good] at hm
          obtain ⟨old, kept⟩ := List.mem_filter.mp hm
          exact ⟨old, fun heq => of_decide_eq_true kept (heq ▸ List.mem_map_of_mem hid)⟩
      · refine .inl (List.mem_append_left _ ?_)
        rw [show (upkeep cfg).phase tr k = _ from hφ]
        exact hu
    | _ => cases hu
  · generalize hφ : (handling cfg).phase (.did i o a :: tr) k = φ at hh
    cases φ with
    | gone path' =>
      obtain rfl := List.mem_singleton.mp hh
      rw [phase_handling_did] at hφ
      split at hφ
      · subst k
        rcases gone_of_next hφ with was | ⟨id, site, ss, n, was, heq⟩
        · refine .inl (List.mem_append_right _ ?_)
          rw [show (handling cfg).phase tr i = _ from was]
          exact List.mem_singleton_self _
        · cases heq
          obtain rfl : ss = [.deleteMessage id] := by
            have hg : ((handling cfg).phase tr i).writes ss := hg
            rwa [was] at hg
          refine .inr ⟨id, List.mem_append_right _ (by
            rw [show (handling cfg).phase tr i = _ from was]; exact List.mem_singleton_self _),
              fun m hm => ?_⟩
          obtain ⟨db, hx, -, rfl⟩ | ⟨⟨e, he⟩, -⟩ := exec_commit he
          · cases hx
            obtain ⟨old, kept⟩ := List.mem_filter.mp hm
            exact ⟨old, of_decide_eq_true kept⟩
          · cases he
      · refine .inl (List.mem_append_right _ ?_)
        rw [show (handling cfg).phase tr k = _ from hφ]
        exact List.mem_singleton_self _
    | _ => cases hh

/-- A path that is at nobody's hand is no new row's. -/
theorem row_of_path (hs : (system cfg jobs).Step (dispatch cfg) ⟨w, tr⟩ ⟨w', .did i o a :: tr⟩)
    (hg : ((handling cfg).phase tr i).good o a) {m' : Message} (hm' : m' ∈ w'.db.messages) :
    (∃ m ∈ w.db.messages, m.id = m'.id ∧ m.letter = m'.letter) ∨ ∃ session envelope,
      (handling cfg).phase tr i = .spooled session envelope m'.spoolPath ∧
        m'.size = envelope.content.length ∧
          ((handling cfg).phase (.did i o a :: tr) i).file = none := by
  rcases letter_of_step hs hm' with old | ⟨k, site, row, htr, hl⟩
  · exact .inl old
  · cases htr
    obtain ⟨session, envelope, hφ, letter⟩ := spooled_of_insert hg
    have hl : m'.letter = envelope.letter session row.spoolPath := hl.trans letter
    obtain hp : m'.spoolPath = row.spoolPath := congrArg Letter.path hl
    refine .inr ⟨session, envelope, hp ▸ hφ, congrArg Letter.size hl, ?_⟩
    rw [phase_handling_did, if_pos rfl, hφ]
    rfl

/-- A file that is removed is no row's, and at nobody else's hand. -/
theorem Stocked.removed (h : Stocked cfg ⟨w, tr⟩) {path : String} {a : Op.Ans (.spoolDelete path)}
    (hd : (dispatch cfg).good ((dispatch cfg).phase tr i) (.spoolDelete path) a)
    (hg : ((handling cfg).phase tr i).good (.spoolDelete path) a) :
    (∀ m ∈ w.db.messages, m.spoolPath ≠ path) ∧
      ∀ k session envelope, (handling cfg).phase tr k ≠ .spooled session envelope path := by
  have ofDoomed : path ∈ SmtpSwitch.doomed cfg ⟨w, tr⟩ i →
      (∀ m ∈ w.db.messages, m.spoolPath ≠ path) ∧
      ∀ k session envelope, (handling cfg).phase tr k ≠ .spooled session envelope path := by
    intro hy
    obtain ⟨-, none, rows⟩ := h.doomed i path hy
    exact ⟨rows, fun k session envelope hk => none k (by rw [hk]; rfl)⟩
  have ofUnstored : (handling cfg).phase tr i = .unstored path →
      (∀ m ∈ w.db.messages, m.spoolPath ≠ path) ∧
      ∀ k session envelope, (handling cfg).phase tr k ≠ .spooled session envelope path := by
    intro hi
    obtain ⟨-, rows, alone⟩ := h.atHand i path (by rw [hi]; rfl)
    refine ⟨rows, fun k session envelope hk => ?_⟩
    obtain rfl := alone k (by rw [hk]; rfl)
    rw [hi] at hk
    cases hk
  have ofGone : (handling cfg).phase tr i = .gone path → (∀ m ∈ w.db.messages, m.spoolPath ≠ path) ∧
      ∀ k session envelope, (handling cfg).phase tr k ≠ .spooled session envelope path := fun hi =>
    ofDoomed (List.mem_append_right _ (by
      rw [show (handling cfg).phase tr i = _ from hi]; exact List.mem_singleton_self _))
  have agree := h.agree i
  rcases dispatch_good hd with ⟨-, unstored | deleted⟩ | ⟨-, id, rows, plans, hu⟩
  · rw [show (delivery cfg).phase tr i = _ from unstored] at agree
    exact ofUnstored agree
  · rw [show (delivery cfg).phase tr i = _ from deleted] at agree
    obtain ⟨path', gone⟩ := agree
    rcases hg with idle | unstored | gone'
    · rw [show (handling cfg).phase tr i = _ from gone] at idle
      cases idle
    · exact ofUnstored unstored
    · exact ofGone gone'
  · exact ofDoomed (List.mem_append_left _ (by
      rw [show (upkeep cfg).phase tr i = _ from hu]; exact List.mem_cons_self))

/-- A file under a name made up before stays, unless it is removed. -/
theorem file_kept (he : exec cfg i o c w = some (a, w')) {path : String} (named : path ∈ w.names)
    (removed : ∀ path', o = .spoolDelete path' → path' ≠ path) : w'.files path = w.files path := by
  have frame := exec_frame cfg he
  cases o with
  | spoolWrite content =>
    obtain ⟨fresh, rfl⟩ := exec_spoolWrite he
    exact Function.update_of_ne (fun heq : path = a => fresh (heq ▸ named)) _ _
  | spoolDelete path' =>
    obtain rfl := exec_spoolDelete he
    exact Function.update_of_ne (removed path' rfl).symm _ _
  | _ => rw [(frame.files (by simp [Op.part])).1]

theorem Stocked.present_did (h : Stocked cfg ⟨w, tr⟩) (he : exec cfg i o c w = some (a, w'))
    (hs : (system cfg jobs).Step (dispatch cfg) ⟨w, tr⟩ ⟨w', .did i o a :: tr⟩)
    (hd : (dispatch cfg).good ((dispatch cfg).phase tr i) o a)
    (hg : ((handling cfg).phase tr i).good o a) {m' : Message} (hm' : m' ∈ w'.db.messages) :
    m'.spoolPath ∈ w'.names ∧ ∃ raw, w'.files m'.spoolPath = some raw ∧ raw.length = m'.size := by
  rcases row_of_path hs hg hm' with ⟨m, hm, -, hl⟩ | ⟨session, envelope, hφ, size, -⟩
  · obtain ⟨named, raw, hf, size⟩ := h.present m hm
    rw [← show m.spoolPath = m'.spoolPath from congrArg Letter.path hl,
      ← show m.size = m'.size from congrArg Letter.size hl]
    refine ⟨names_did he named, raw, ?_, size⟩
    rw [file_kept he named ?_, hf]
    rintro path rfl heq
    exact (h.removed hd hg).1 m hm heq.symm
  · obtain ⟨named, -⟩ := h.atHand i m'.spoolPath (by rw [hφ]; rfl)
    refine ⟨names_did he named, envelope.content, ?_, size.symm⟩
    rw [file_kept he named ?_, h.content i session envelope _ hφ]
    rintro path rfl heq
    exact (h.removed hd hg).2 i session envelope (heq ▸ hφ)

theorem Stocked.atHand_did (h : Stocked cfg ⟨w, tr⟩) (he : exec cfg i o c w = some (a, w'))
    (hs : (system cfg jobs).Step (dispatch cfg) ⟨w, tr⟩ ⟨w', .did i o a :: tr⟩)
    (hg : ((handling cfg).phase tr i).good o a) {k : ℕ} {path : String}
    (hk : ((handling cfg).phase (.did i o a :: tr) k).file = some path) :
    path ∈ w'.names ∧ (∀ m ∈ w'.db.messages, m.spoolPath ≠ path) ∧
      ∀ l, ((handling cfg).phase (.did i o a :: tr) l).file = some path → l = k := by
  rcases handlingFile_did he hk with old | ⟨rfl, fresh, named, same⟩
  · obtain ⟨named, rows, alone⟩ := h.atHand k path old
    refine ⟨names_did he named, fun m' hm' heq => ?_, fun l hl => ?_⟩
    · rcases row_of_path hs hg hm' with ⟨m, hm, -, hl⟩ | ⟨session, envelope, hφ, -, gone⟩
      · exact rows m hm ((congrArg Letter.path hl).trans heq)
      · rw [heq] at hφ
        obtain rfl := alone i (by rw [hφ]; rfl)
        rw [hk] at gone
        cases gone
    · rcases handlingFile_did he hl with old' | ⟨-, fresh, -⟩
      · exact alone l old'
      · exact absurd named fresh
  · refine ⟨named, fun m hm heq => ?_, fun l hl => ?_⟩
    · rw [same] at hm
      exact fresh (heq ▸ (h.present m hm).1)
    · rcases handlingFile_did he hl with old' | ⟨rfl, -⟩
      · exact absurd (h.atHand l path old').1 fresh
      · rfl

theorem Stocked.content_did (h : Stocked cfg ⟨w, tr⟩) (he : exec cfg i o c w = some (a, w'))
    (hd : (dispatch cfg).good ((dispatch cfg).phase tr i) o a)
    (hg : ((handling cfg).phase tr i).good o a)
    {k : ℕ} {session : Session} {envelope : Envelope} {path : String}
    (hk : (handling cfg).phase (.did i o a :: tr) k = .spooled session envelope path) :
    w'.files path = some envelope.content := by
  have kept : (handling cfg).phase tr k = .spooled session envelope path →
      w'.files path = some envelope.content := by
    intro old
    obtain ⟨named, -⟩ := h.atHand k path (by rw [old]; rfl)
    rw [file_kept he named ?_, h.content k session envelope path old]
    rintro path' rfl heq
    exact (h.removed hd hg).2 k session envelope (heq ▸ old)
  rw [phase_handling_did] at hk
  split at hk
  · subst k
    rcases spooled_of_next hk with old | ⟨mine, content, heq⟩
    · exact kept old
    · cases heq
      obtain ⟨session', envelope', hφ, rfl⟩ := hg
      rw [mine] at hφ
      cases hφ
      obtain ⟨-, rfl⟩ := exec_spoolWrite he
      exact Function.update_self _ _ _
  · exact kept hk

theorem Stocked.selected_did (h : Stocked cfg ⟨w, tr⟩) (he : exec cfg i o c w = some (a, w'))
    (hs : (system cfg jobs).Step (dispatch cfg) ⟨w, tr⟩ ⟨w', .did i o a :: tr⟩)
    (hd : (dispatch cfg).good ((dispatch cfg).phase tr i) o a)
    (hg : ((handling cfg).phase tr i).good o a)
    {k : ℕ} {y : ℕ × String} (hy : y ∈ selections cfg ⟨w', .did i o a :: tr⟩ k) :
    y.2 ∈ w'.names ∧ (∀ k, ((handling cfg).phase (.did i o a :: tr) k).file ≠ some y.2) ∧
      ∀ m ∈ w'.db.messages, m.spoolPath = y.2 → m.id = y.1 := by
  rcases selections_did he hd hg hy with old | ⟨rfl, m, hm, rfl⟩
  · obtain ⟨named, none, rows⟩ := h.selected k y old
    refine ⟨names_did he named, not_at_hand he named none, fun m' hm' heq => ?_⟩
    rcases row_of_path hs hg hm' with ⟨m, hm, hid, hl⟩ | ⟨session, envelope, hφ, -⟩
    · exact hid.symm.trans (rows m hm ((congrArg Letter.path hl).trans heq))
    · exact absurd (by rw [hφ, ← heq]; rfl) (none i)
  · refine ⟨(h.present m hm).1, not_at_hand he (h.present m hm).1 fun k hk =>
      (h.atHand k _ hk).2.1 m hm rfl, fun m' hm' heq => ?_⟩
    rw [List.inj_on_of_nodup_map h.paths hm' hm heq]

theorem Stocked.doomed_did (h : Stocked cfg ⟨w, tr⟩) (he : exec cfg i o c w = some (a, w'))
    (hs : (system cfg jobs).Step (dispatch cfg) ⟨w, tr⟩ ⟨w', .did i o a :: tr⟩)
    (hd : (dispatch cfg).good ((dispatch cfg).phase tr i) o a)
    (hg : ((handling cfg).phase tr i).good o a)
    {k : ℕ} {path : String} (hy : path ∈ SmtpSwitch.doomed cfg ⟨w', .did i o a :: tr⟩ k) :
    path ∈ w'.names ∧ (∀ k, ((handling cfg).phase (.did i o a :: tr) k).file ≠ some path) ∧
      ∀ m ∈ w'.db.messages, m.spoolPath ≠ path := by
  rcases SmtpSwitch.doomed_did he hd hg hy with old | ⟨id, hsel, left⟩
  · obtain ⟨named, none, rows⟩ := h.doomed k path old
    refine ⟨names_did he named, not_at_hand he named none, fun m' hm' heq => ?_⟩
    rcases row_of_path hs hg hm' with ⟨m, hm, -, hl⟩ | ⟨session, envelope, hφ, -⟩
    · exact rows m hm ((congrArg Letter.path hl).trans heq)
    · exact absurd (by rw [hφ, ← heq]; rfl) (none i)
  · obtain ⟨named, none, rows⟩ := h.selected k _ hsel
    exact ⟨names_did he named, not_at_hand he named none, fun m' hm' heq =>
      (left m' hm').2 (rows m' (left m' hm').1 heq)⟩

/-- No two rows come to have one file. -/
theorem Stocked.paths_did (h : Stocked cfg ⟨w, tr⟩)
    (hs : (system cfg jobs).Step (dispatch cfg) ⟨w, tr⟩ ⟨w', .did i o a :: tr⟩)
    (hg : ((handling cfg).phase tr i).good o a) : (w'.db.messages.map Message.spoolPath).Nodup := by
  have updated : ∀ wh v, (applyUpdate wh v w.db.messages).map Message.spoolPath =
      w.db.messages.map Message.spoolPath := by
    intro wh v
    have same := congrArg (List.map Prod.snd) (files_applyUpdate wh v w.db.messages)
    rw [List.map_map, List.map_map] at same
    exact same
  rcases upkeep_or_delivery hs with hs | ⟨i', hs⟩
  · rcases rows_of_step hs with ⟨same, -⟩ | ⟨i', site, ss, htr, change⟩
    · exact same ▸ h.paths
    cases htr
    generalize w'.db.messages = ms at change
    cases change with
    | @insert row =>
      obtain ⟨session, envelope, hφ, -⟩ := spooled_of_insert hg
      rw [List.map_append, List.nodup_append]
      refine ⟨h.paths, List.nodup_singleton _, fun p hp q hq => ?_⟩
      obtain rfl := List.mem_singleton.mp hq
      obtain ⟨m, hm, rfl⟩ := List.mem_map.mp hp
      exact (h.atHand i row.spoolPath (by rw [hφ]; rfl)).2.1 m hm
    | delete => exact h.paths.sublist (List.filter_sublist.map _)
    | none => exact h.paths
    | update => exact (updated _ _).symm ▸ h.paths
  · cases hs.change with
    | none same => exact (show w'.db.messages = _ from same) ▸ h.paths
    | requeued _ _ _ rows => exact (show w'.db.messages = _ from rows) ▸
        (updated _ _).symm ▸ h.paths
    | swept _ _ rows =>
      exact (show w'.db.messages = _ from rows) ▸ h.paths.sublist (List.filter_sublist.map _)

theorem Stocked.did (h : Stocked cfg ⟨w, tr⟩) (he : exec cfg i o c w = some (a, w'))
    (hs : (system cfg jobs).Step (dispatch cfg) ⟨w, tr⟩ ⟨w', .did i o a :: tr⟩)
    (hd : (dispatch cfg).good ((dispatch cfg).phase tr i) o a)
    (hg : ((handling cfg).phase tr i).good o a) :
    Stocked cfg ⟨w', .did i o a :: tr⟩ := by
  refine ⟨ids_of_step h.ids hs, h.paths_did hs hg, fun m hm => h.present_did he hs hd hg hm,
    fun k path hk => h.atHand_did he hs hg hk, fun k session envelope path hk =>
      h.content_did he hd hg hk,
    fun k y hy => h.selected_did he hs hd hg hy, fun k => ?_, fun k path hy =>
      h.doomed_did he hs hd hg hy⟩
  rw [phase_did_apply, phase_handling_did]
  split
  · rcases dispatch_good hd with ⟨-, good⟩ | ⟨idle, good⟩
    · exact (h.agree i).next good hg
    · rw [show (delivery cfg).phase tr i = _ from idle, idle_of_upkeep good]
      trivial
  · exact h.agree k

end Did

variable (cfg) in
/-- Who starts has no file at hand, and has selected none. -/
theorem handling_of_start (j : Job) : (j.handling cfg).file = none ∧
    (j.handling cfg).selected = [] ∧
    (j.handling cfg).doomed = [] ∧ Agrees j.duty (j.handling cfg) ∧ j.upkeep.selected = [] ∧
      j.upkeep.doomed = [] := by
  cases j with
  | handleData session envelope =>
    simp only [Job.handling]
    split <;> exact ⟨rfl, rfl, rfl, trivial, rfl, rfl⟩
  | deleteMessage id => exact ⟨rfl, rfl, rfl, .inl ⟨id, rfl⟩, rfl, rfl⟩
  | _ => exact ⟨rfl, rfl, rfl, trivial, rfl, rfl⟩

variable {x x' : Moment}

theorem Stocked.started {w : World} {tr : List (Entry Op Op.Ans Job ℚ)} (h : Stocked cfg ⟨w, tr⟩)
    (i : ℕ) (j : Job) :
    Stocked cfg ⟨w, .start i j :: tr⟩ := by
  obtain ⟨nofile, unselected, undoomed, agree, unswept, unlinked⟩ := handling_of_start cfg j
  have handles : ∀ k, (handling cfg).phase (.start i j :: tr) k =
      if k = i then j.handling cfg else (handling cfg).phase tr k := fun k => by
    rw [Protocol.phase_start, Function.update_apply]
    rfl
  have keeps : ∀ k, (upkeep cfg).phase (.start i j :: tr) k =
      if k = i then j.upkeep else (upkeep cfg).phase tr k := fun k => by
    rw [Protocol.phase_start, Function.update_apply]
    rfl
  have file : ∀ {k path}, ((handling cfg).phase (.start i j :: tr) k).file = some path →
      ((handling cfg).phase tr k).file = some path := by
    intro k path hk
    rw [handles] at hk
    split at hk
    · rw [nofile] at hk
      cases hk
    · exact hk
  have selections : ∀ {k y}, y ∈ selections cfg ⟨w, .start i j :: tr⟩ k →
      y ∈ selections cfg ⟨w, tr⟩ k := by
    intro k y hy
    simp only [SmtpSwitch.selections, handles, keeps] at hy
    split at hy
    · rw [unselected, unswept] at hy
      cases hy
    · exact hy
  have doomed : ∀ {k path}, path ∈ SmtpSwitch.doomed cfg ⟨w, .start i j :: tr⟩ k →
      path ∈ SmtpSwitch.doomed cfg ⟨w, tr⟩ k := by
    intro k y hy
    simp only [SmtpSwitch.doomed, handles, keeps] at hy
    split at hy
    · rw [undoomed, unlinked] at hy
      cases hy
    · exact hy
  refine ⟨h.ids, h.paths, h.present, fun k path hk => ?_, fun k session envelope path hk => ?_,
    fun k y hy => ?_, fun k => ?_, fun k path hy => ?_⟩
  · obtain ⟨named, rows, alone⟩ := h.atHand k path (file hk)
    exact ⟨named, rows, fun l hl => alone l (file hl)⟩
  · rw [handles] at hk
    split at hk
    · rw [hk] at nofile
      cases nofile
    · exact h.content k session envelope path hk
  · obtain ⟨named, none, rows⟩ := h.selected k y (selections hy)
    exact ⟨named, fun l hl => none l (file hl), rows⟩
  · rw [handles, Protocol.phase_start, Function.update_apply]
    split
    · exact agree
    · exact h.agree k
  · obtain ⟨named, none, rows⟩ := h.doomed k path (doomed hy)
    exact ⟨named, fun l hl => none l (file hl), rows⟩

/-- Where nobody is at work there is nothing at hand. -/
theorem Stocked.atRest {w : World} (ids : (w.db.messages.map Message.id).Nodup)
    (paths : (w.db.messages.map Message.spoolPath).Nodup) (present : ∀ m ∈ w.db.messages,
      m.spoolPath ∈ w.names ∧
      ∃ raw, w.files m.spoolPath = some raw ∧ raw.length = m.size) {tr :
        List (Entry Op Op.Ans Job ℚ)}
    (rest : ∀ k, (handling cfg).phase tr k = .idle ∧ (upkeep cfg).phase tr k = .idle ∧
      (delivery cfg).phase tr k = .idle) :
    Stocked cfg ⟨w, tr⟩ := by
  refine ⟨ids, paths, present, fun k path hk => ?_, fun k session envelope path hk => ?_,
    fun k y hy => ?_, fun k => ?_, fun k path hy => ?_⟩
  · rw [(rest k).1] at hk
    cases hk
  · rw [(rest k).1] at hk
    cases hk
  · simp only [selections, (rest k).1, (rest k).2.1] at hy
    cases hy
  · rw [(rest k).1, (rest k).2.2]
    trivial
  · simp only [SmtpSwitch.doomed, (rest k).1, (rest k).2.1] at hy
    cases hy

variable {x x' : Moment}

/-- Every step keeps it. -/
theorem Stocked.step (h : Stocked cfg x)
    (hs : (system cfg jobs).Step ((dispatch cfg).prod (handling cfg)) x x') :
    Stocked cfg x' := by
  cases hs with
  | start => exact h.started _ _
  | env => exact ⟨h.ids, h.paths, h.present, h.atHand, h.content, h.selected, h.agree, h.doomed⟩
  | @crash w tr => exact Stocked.atRest (w := w.reboot) h.ids h.paths h.present fun k =>
      ⟨rfl, rfl, rfl⟩
  | @did w w' tr i o c a he hg =>
    rw [Protocol.phase_prod] at hg
    exact h.did he (.did he hg.1) hg.1 hg.2

/-- **Every message has its file.** In every run of the dispatcher, the ingress server and the
message API, started on rows whose files are there, each row's file is there whenever one looks:
it has as many bytes as the row says, and it is the content that was handed in for the message
stored under this id. -/
theorem files_present (cfg : Settings) {jobs : Job → Bool} (hj : ∀ j, jobs j = true →
    j.onMessages = true)
    {w : World} (ids : (w.db.messages.map Message.id).Nodup)
    (paths : (w.db.messages.map Message.spoolPath).Nodup)
    (present : ∀ m ∈ w.db.messages, ∃ raw, w.files m.spoolPath = some raw ∧ raw.length = m.size)
    (files : ∀ path raw, w.files path = some raw → path ∈ w.names) {C : Moment → Moment → Prop}
    {s : Pool Op Op.Ans Exc World Job ℚ} (h : (system cfg jobs).Reachable C (Machine.boot w) s)
    {m : Message} (hm : m ∈ s.shared.db.messages) :
    ∃ raw, s.shared.files m.spoolPath = some raw ∧ raw.length = m.size ∧
      HandedIn w s.trace m.id m.letter raw := by
  have named : ∀ m ∈ w.db.messages, m.spoolPath ∈ w.names := fun m hm =>
    (present m hm).elim fun raw hf => files _ raw hf.1
  have keeps : (system cfg jobs).Keeps ((dispatch cfg).prod (handling cfg)) :=
    (dispatch_keeps hj).prod (handling_keeps hj)
  have stocked := (Machine.invariant keeps (Stocked cfg)
    (.atRest ids paths (fun m hm => ⟨named m hm, present m hm⟩) fun _ => ⟨rfl, rfl, rfl⟩)
    (fun hx hs _ => hx.step hs) h).1
  have traced := (Machine.invariant keeps (Traced cfg w) (Traced.init named files) (fun hx hs _ =>
      hx.step hs) h).1
  obtain ⟨-, raw, hf, size⟩ := stocked.present m hm
  exact ⟨raw, hf, size, (traced.rows m hm).handedIn raw (traced.onDisk _ raw hf).1⟩

namespace Example

/-- While the first message is deleted another one is handed in, and given its id. -/
def replaced : List (Move Choice Job ℚ) := List.flatten
  [[.start 0 .start], List.replicate 9 (.run 0 .ok), [.start 2 (.deleteMessage 1)], List.replicate 2 (.run 2 .ok),
    [.start 3 (.handleData { peer := none } { mailFrom := some "c@x", rcptTos := ["d@y"], content := [1] }),
      .run 3 (.parsed .absent), .run 3 (.parsed .absent), .run 3 (.name "other")],
    List.replicate 2 (.run 2 .ok), List.replicate 4 (.run 3 .ok)]

theorem files_present_replaced : ∃ s m,
    (system twoPerDay Job.onMessages).runFrom (Machine.boot oneSpooled) replaced = some s ∧
      s.shared.db.messages = [m] ∧ (m.id, m.spoolPath) = (1, "other") ∧
        ∃ raw, s.shared.files m.spoolPath = some raw ∧ raw.length = m.size ∧
          HandedIn oneSpooled s.trace m.id m.letter raw := by
  obtain ⟨s, hs, ha⟩ : ∃ s, (system twoPerDay Job.onMessages).runFrom (Machine.boot oneSpooled) replaced = some s ∧
      s.shared.db.messages.map (fun m => (m.id, m.spoolPath)) = [(1, "other")] :=
    Option.map_eq_some_iff.mp (by decide +kernel)
  obtain ⟨m, hm, named⟩ := List.map_eq_singleton_iff.mp ha
  refine ⟨s, m, hs, hm, named,
    files_present twoPerDay (fun _ h => h) (by decide) (by decide) (fun m hm => ?_)
    oneSpooled_names (Machine.Reachable.refl.runFrom hs)
      (by rw [hm]; exact List.mem_singleton_self _)⟩
  obtain rfl := List.mem_singleton.mp hm
  exact ⟨[], rfl, rfl⟩

end Example

end SmtpSwitch
