import SmtpSwitch.Delivery.Handling
import SmtpSwitch.Delivery.Housekeeping
import SmtpSwitch.Delivery.Sent

/-!
# From envelope to relay

What a provider is handed passes through many hands: `handle_DATA` spools the
content and inserts the row, the producer claims it, a consumer reads the row,
later the file, and relays them, while other messages are accepted, deleted and
swept, and ids are given again. Still, what is relayed is what was handed in:
every relay carries the sender, the recipients and the content of one message
that was accepted before, under the id the relay is for (`relayed_was_accepted`).
-/

namespace SmtpSwitch

open Coop Coop.Prog

/-- The message with this id, letter and content: it was there at the start, or an envelope was
handed in, and then stored under this id. -/
inductive HandedIn (w : World) (tr : List (Entry Op Op.Ans Job ℚ)) (id : ℕ) (l : Letter)
    (raw : Bytes) : Prop where
  | initial {m : Message} : m ∈ w.db.messages → m.id = id → m.letter = l →
      w.files l.path = some raw → HandedIn w tr id l raw
  | accepted {before after : List (Entry Op Op.Ans Job ℚ)} {k : ℕ} {session : Session}
      {envelope : Envelope} {site : Site} {row : Message} :
      tr = after ++ .did k (.commit site [.insertMessage row]) (.ok id) :: before →
      .start k (.handleData session envelope) ∈ before →
      l = envelope.letter session l.path → row.letter = l → raw = envelope.content →
        HandedIn w tr id l raw

theorem HandedIn.cons {w : World} {tr : List (Entry Op Op.Ans Job ℚ)} {id : ℕ} {l : Letter}
    {raw : Bytes}
    (h : HandedIn w tr id l raw) (e : Entry Op Op.Ans Job ℚ) : HandedIn w (e :: tr) id l raw := by
  cases h with
  | initial hm hid hl hf => exact .initial hm hid hl hf
  | accepted heq hs hl hr hraw =>
    subst heq
    exact .accepted (List.cons_append ..).symm hs hl hr hraw

/-- What is spooled under a name made up before stays as it is. -/
theorem spooled_same {cfg : Settings} {i : ℕ} {o : Op} {a : o.Ans} {c : Choice} {w w' : World}
    {files : String → Option Bytes} {tr : List (Entry Op Op.Ans Job ℚ)}
    (he : exec cfg i o c w = some (a, w'))
    {path : String} (h : path ∈ w.names) : spooled files (.did i o a :: tr) path =
      spooled files tr path := by
  cases o with
  | spoolWrite content =>
    obtain ⟨new, -⟩ := exec_spoolWrite he
    have other : path ≠ a := fun heq => new (heq ▸ h)
    exact if_neg other
  | _ => rfl

section Invariant

variable (cfg : Settings) (w₀ : World)

/-- A row with this id and letter stands for a message that was handed in; its content is what is
spooled under its path. -/
structure Genuine (x : Moment) (id : ℕ) (l : Letter) : Prop where
  named : l.path ∈ x.shared.names
  handedIn : ∀ raw, spooled w₀.files x.trace l.path = some raw → HandedIn w₀ x.trace id l raw

/-- Everything the tasks have at hand stands for a message that was handed in. -/
structure Traced (x : Moment) : Prop where
  onDisk : ∀ path raw, x.shared.files path = some raw →
    spooled w₀.files x.trace path = some raw ∧ path ∈ x.shared.names
  rows : ∀ m ∈ x.shared.db.messages, Genuine w₀ x m.id m.letter
  received : ∀ i session envelope, (handling cfg).phase x.trace i = .received session envelope →
    .start i (.handleData session envelope) ∈ x.trace
  stored : ∀ i session envelope path, (handling cfg).phase x.trace i =
    .spooled session envelope path →
    .start i (.handleData session envelope) ∈ x.trace ∧ path ∈ x.shared.names ∧
      spooled w₀.files x.trace path = some envelope.content
  read : ∀ i id m, (delivery cfg).phase x.trace i = .read id (some m) → Genuine w₀ x id m.letter
  turn : ∀ i id t told drawn, (delivery cfg).phase x.trace i = .turn id t told drawn →
    Genuine w₀ x id t.row.letter ∧ ∀ raw, t.raw = some raw →
      spooled w₀.files x.trace t.row.spoolPath = some raw

variable {cfg w₀} {jobs : Job → Bool} {x x' : Moment}

/-- Where a row comes from, as its letter sees it. -/
theorem letter_of_step (hs : (system cfg jobs).Step (dispatch cfg) x x') {m' : Message}
    (hm' : m' ∈ x'.shared.db.messages) :
    (∃ m ∈ x.shared.db.messages, m.id = m'.id ∧ m.letter = m'.letter) ∨
      ∃ i site row, x'.trace = .did i (.commit site [.insertMessage row]) (.ok m'.id) :: x.trace ∧
        m'.letter = row.letter := by
  rcases upkeep_or_delivery hs with hs | ⟨i, hs⟩
  · cases rowOf_step hs hm' with
    | same hm => exact .inl ⟨m', hm, rfl, rfl⟩
    | inserted _ _ _ heq htr => exact .inr ⟨_, _, _, htr, by rw [heq]; rfl⟩
    | updated hm hid _ _ heq => exact .inl ⟨_, hm, hid, by rw [heq]; rfl⟩
  · rcases hs.row hm' with same | ⟨_, _, _, _, _, -, -, m, hm, -, rfl⟩
    · exact .inl ⟨m', same, rfl, rfl⟩
    · exact .inl ⟨m, hm, rfl, rfl⟩

theorem received_of_next {φ : Handling} {o : Op} {a : o.Ans} {session : Session}
    {envelope : Envelope}
    (h : φ.next o a = .received session envelope) : φ = .received session envelope := by
  revert h
  fun_cases Handling.next φ o a
  all_goals intro h; first | exact h | cases h

theorem spooled_of_next {φ : Handling} {o : Op} {a : o.Ans} {session : Session}
    {envelope : Envelope} {path : String} (h : φ.next o a = .spooled session envelope path) :
    φ = .spooled session envelope path ∨ φ = .received session envelope ∧
      ∃ content, (⟨o, a⟩ : Σ o : Op, o.Ans) = ⟨.spoolWrite content, path⟩ := by
  revert h
  fun_cases Handling.next φ o a
  all_goals intro h
  all_goals
    first
    | exact .inl h
    | (cases h; done)
    | (cases h; exact .inr ⟨rfl, _, rfl⟩)

section Did

variable {w w' : World} {tr : List (Entry Op Op.Ans Job ℚ)} {i : ℕ} {o : Op}
  {a : o.Ans} {c : Choice}

theorem phase_handling_did (k : ℕ) : (handling cfg).phase (.did i o a :: tr) k =
    if k = i then ((handling cfg).phase tr i).next o a else (handling cfg).phase tr k := by
  rw [Protocol.phase_did, Function.update_apply]
  rfl

theorem Genuine.did (he : exec cfg i o c w = some (a, w')) {id : ℕ} {l : Letter}
    (h : Genuine w₀ ⟨w, tr⟩ id l) : Genuine w₀ ⟨w', .did i o a :: tr⟩ id l where
  named := names_did he h.named
  handedIn raw hraw := by
    rw [spooled_same he h.named] at hraw
    exact (h.handedIn raw hraw).cons _

/-- A file is what was spooled under its name. -/
theorem Traced.onDisk_did (h : Traced cfg w₀ ⟨w, tr⟩) (he : exec cfg i o c w = some (a, w'))
    {path : String} {raw : Bytes} (hf : w'.files path = some raw) :
    spooled w₀.files (.did i o a :: tr) path = some raw ∧ path ∈ w'.names := by
  have frame := exec_frame cfg he
  have kept : w.files path = some raw → spooled w₀.files (.did i o a :: tr) path = some raw ∧
      path ∈ w'.names := by
    intro old
    obtain ⟨same, named⟩ := h.onDisk path raw old
    exact ⟨(spooled_same he named).trans same, names_did he named⟩
  cases o with
  | spoolWrite content =>
    obtain ⟨new, rfl⟩ := exec_spoolWrite he
    by_cases heq : path = a
    · subst heq
      simp only [Function.update_self, Option.some.injEq] at hf
      subst hf
      exact ⟨if_pos rfl, List.mem_cons_self⟩
    · simp only [Function.update_of_ne heq] at hf
      exact kept hf
  | spoolDelete path' =>
    obtain rfl := exec_spoolDelete he
    by_cases heq : path = path'
    · subst heq
      simp only [Function.update_self] at hf
      cases hf
    · simp only [Function.update_of_ne heq] at hf
      exact kept hf
  | _ =>
    rw [(frame.files (by simp [Op.part])).1] at hf
    exact kept hf

/-- What `handle_DATA` has spooled is the content of its envelope. -/
theorem Traced.stored_did (h : Traced cfg w₀ ⟨w, tr⟩) (he : exec cfg i o c w = some (a, w'))
    (hg : ((handling cfg).phase tr i).good o a) {k : ℕ} {session : Session} {envelope : Envelope}
    {path : String}
    (hk : (handling cfg).phase (.did i o a :: tr) k = .spooled session envelope path) :
    .start k (.handleData session envelope) ∈ (.did i o a :: tr : List (Entry Op Op.Ans Job ℚ)) ∧
      path ∈ w'.names ∧ spooled w₀.files (.did i o a :: tr) path = some envelope.content := by
  have kept : (handling cfg).phase tr k = .spooled session envelope path →
      .start k (.handleData session envelope) ∈ (.did i o a :: tr : List (Entry Op Op.Ans Job ℚ)) ∧
        path ∈ w'.names ∧ spooled w₀.files (.did i o a :: tr) path = some envelope.content := by
    intro old
    obtain ⟨started, named, same⟩ := h.stored k session envelope path old
    exact ⟨List.mem_cons_of_mem _ started, names_did he named, (spooled_same he named).trans same⟩
  rw [phase_handling_did] at hk
  split at hk
  · subst k
    rcases spooled_of_next hk with old | ⟨mine, content, heq⟩
    · exact kept old
    · cases heq
      obtain ⟨session', envelope', hφ, rfl⟩ := hg
      rw [mine] at hφ
      cases hφ
      obtain ⟨new, rfl⟩ := exec_spoolWrite he
      exact ⟨List.mem_cons_of_mem _ (h.received i session envelope mine),
        List.mem_cons_self, if_pos rfl⟩
  · exact kept hk

theorem Traced.read_did (h : Traced cfg w₀ ⟨w, tr⟩) (he : exec cfg i o c w = some (a, w'))
    (hd : ((delivery cfg).phase tr i).good cfg o a ∨
      (delivery cfg).phase (.did i o a :: tr) = (delivery cfg).phase tr) {k id : ℕ} {m : Message}
    (hk : (delivery cfg).phase (.did i o a :: tr) k = .read id (some m)) :
    Genuine w₀ ⟨w', .did i o a :: tr⟩ id m.letter := by
  rcases hd with hg | same
  · rw [phase_did_apply] at hk
    split at hk
    · subst k
      rcases read_of_did he hg hk with old | ⟨-, found⟩
      · exact (h.read i id m old).did he
      · obtain rfl : m.id = id := by simpa using List.find?_some found.symm
        exact (h.rows m (List.mem_of_find?_eq_some found.symm)).did he
    · exact (h.read k id m hk).did he
  · rw [same] at hk
    exact (h.read k id m hk).did he

/-- What a consumer has read from the file is what was spooled under the row's path. -/
theorem Traced.turn_did (h : Traced cfg w₀ ⟨w, tr⟩) (he : exec cfg i o c w = some (a, w'))
    (hd : ((delivery cfg).phase tr i).good cfg o a ∨
      (delivery cfg).phase (.did i o a :: tr) = (delivery cfg).phase tr) {k id : ℕ} {t :
      Turn} {told : Option Time}
    {drawn : Option ℚ} (hk : (delivery cfg).phase (.did i o a :: tr) k = .turn id t told drawn) :
    Genuine w₀ ⟨w', .did i o a :: tr⟩ id t.row.letter ∧
      ∀ raw, t.raw = some raw → spooled w₀.files (.did i o a :: tr) t.row.spoolPath = some raw := by
  have kept : ∀ {k t told drawn}, (delivery cfg).phase tr k = .turn id t told drawn →
      Genuine w₀ ⟨w', .did i o a :: tr⟩ id t.row.letter ∧
        ∀ raw, t.raw = some raw → spooled w₀.files (.did i o a :: tr) t.row.spoolPath =
          some raw := by
    intro k t told drawn hφ
    obtain ⟨genuine, read⟩ := h.turn k id t told drawn hφ
    exact ⟨genuine.did he, fun raw hraw => (spooled_same he genuine.named).trans (read raw hraw)⟩
  rcases hd with hg | same
  · rw [phase_did_apply] at hk
    split at hk
    · subst k
      rcases turn_of_next hk with ⟨t₀, told₀, drawn₀, hφ, hnext⟩ | ⟨row, hφ, -, rfl, -⟩
      · have old := kept hφ
        cases hnext with
        | @read path raw =>
          refine ⟨old.1, fun raw' hraw => ?_⟩
          cases hraw
          obtain ⟨id', t', _, _, hφ', rfl⟩ := hg
          rw [hφ] at hφ'
          cases hφ'
          obtain ⟨same, named⟩ := h.onDisk _ raw ((exec_spoolRead he).1 raw rfl)
          exact (spooled_same he named).trans same
        | _ => exact old
      · exact ⟨(h.read i id row hφ).did he, fun raw hraw => (by cases hraw)⟩
    · exact kept hk
  · rw [same] at hk
    exact kept hk

theorem Traced.did (h : Traced cfg w₀ ⟨w, tr⟩) (he : exec cfg i o c w = some (a, w'))
    (hs : (system cfg jobs).Step (dispatch cfg) ⟨w, tr⟩ ⟨w', .did i o a :: tr⟩)
    (hd : ((delivery cfg).phase tr i).good cfg o a ∨
      (delivery cfg).phase (.did i o a :: tr) = (delivery cfg).phase tr)
    (hg : ((handling cfg).phase tr i).good o a) : Traced cfg w₀ ⟨w', .did i o a :: tr⟩ := by
  refine ⟨fun path raw => h.onDisk_did he, fun m' hm' => ?_, fun k session envelope hk => ?_,
    fun k session envelope path => h.stored_did he hg, fun k id m hk => ?_,
      fun k id t told drawn hk => ?_⟩
  · rcases letter_of_step hs hm' with ⟨m, hm, hid, hl⟩ | ⟨k, site, row, htr, hl⟩
    · rw [← hid, ← hl]
      exact (h.rows m hm).did he
    · cases htr
      obtain ⟨session, envelope, hφ, letter⟩ := spooled_of_insert hg
      obtain ⟨started, named, content⟩ := h.stored i session envelope _ hφ
      rw [hl]
      refine ⟨names_did he named, fun raw hraw => ?_⟩
      have hraw : spooled w₀.files (.did i (.commit site [.insertMessage row]) (.ok m'.id) ::
          tr) row.spoolPath =
          some raw := hraw
      rw [spooled_same he named, content] at hraw
      exact .accepted (List.nil_append _).symm started letter rfl
        (Option.some.inj hraw).symm
  · rw [phase_handling_did] at hk
    split at hk
    · subst k
      exact List.mem_cons_of_mem _ (h.received i session envelope (received_of_next hk))
    · exact List.mem_cons_of_mem _ (h.received k session envelope hk)
  · exact h.read_did he hd hk
  · exact h.turn_did he hd hk

end Did

/-- A step of the dispatcher's, or one that leaves its tasks where they are. -/
theorem good_or_same {tr : List (Entry Op Op.Ans Job ℚ)} {i : ℕ} {o : Op} {a : o.Ans}
    (hg : (dispatch cfg).good ((dispatch cfg).phase tr i) o a) :
    ((delivery cfg).phase tr i).good cfg o a ∨
      (delivery cfg).phase (.did i o a :: tr) = (delivery cfg).phase tr := by
  rcases dispatch_good hg with ⟨-, good⟩ | ⟨idle, good⟩
  · exact .inl good
  · refine .inr (Protocol.phase_did_same ?_)
    rw [idle]
    exact idle_of_upkeep good

/-- Every step keeps it. -/
theorem Traced.step (h : Traced cfg w₀ x)
    (hs : (system cfg jobs).Step ((dispatch cfg).prod (handling cfg)) x x') :
    Traced cfg w₀ x' := by
  cases hs with
  | @start w tr i j ha hi =>
    refine ⟨h.onDisk, fun m hm => ⟨(h.rows m hm).named, fun raw hraw =>
      ((h.rows m hm).handedIn raw hraw).cons _⟩,
      fun k session envelope hk => ?_, fun k session envelope path hk => ?_, fun k id m hk => ?_,
      fun k id t told drawn hk => ?_⟩
    · replace hk : (handling cfg).phase (.start i j :: tr) k = .received session envelope := hk
      rw [Protocol.phase_start, Function.update_apply] at hk
      split at hk
      · subst k
        replace hk : j.handling cfg = .received session envelope := hk
        cases j with
        | handleData session' envelope' =>
          simp only [Job.handling] at hk
          split at hk
          · cases hk
          · cases hk
            exact List.mem_cons_self
        | _ => cases hk
      · exact List.mem_cons_of_mem _ (h.received k session envelope hk)
    · replace hk : (handling cfg).phase (.start i j :: tr) k = .spooled session envelope path := hk
      rw [Protocol.phase_start, Function.update_apply] at hk
      split at hk
      · replace hk : j.handling cfg = .spooled session envelope path := hk
        cases j with
        | handleData session' envelope' =>
          simp only [Job.handling] at hk
          split at hk <;> cases hk
        | _ => cases hk
      · obtain ⟨started, named, same⟩ := h.stored k session envelope path hk
        exact ⟨List.mem_cons_of_mem _ started, named, same⟩
    · have old := h.read k id m (phase_start_held hk (List.cons_ne_nil _ _))
      exact ⟨old.named, fun raw hraw => (old.handedIn raw hraw).cons _⟩
    · obtain ⟨old, same⟩ := h.turn k id t told drawn (phase_start_held hk (List.cons_ne_nil _ _))
      exact ⟨⟨old.named, fun raw hraw => (old.handedIn raw hraw).cons _⟩, same⟩
  | env =>
    refine ⟨h.onDisk, fun m hm => ⟨(h.rows m hm).named, fun raw hraw =>
      ((h.rows m hm).handedIn raw hraw).cons _⟩,
      fun k session envelope hk => List.mem_cons_of_mem _ (h.received k session envelope hk),
      fun k session envelope path hk => ?_, fun k id m hk => ?_, fun k id t told drawn hk => ?_⟩
    · obtain ⟨started, named, same⟩ := h.stored k session envelope path hk
      exact ⟨List.mem_cons_of_mem _ started, named, same⟩
    · have old := h.read k id m hk
      exact ⟨old.named, fun raw hraw => (old.handedIn raw hraw).cons _⟩
    · obtain ⟨old, same⟩ := h.turn k id t told drawn hk
      exact ⟨⟨old.named, fun raw hraw => (old.handedIn raw hraw).cons _⟩, same⟩
  | crash =>
    exact ⟨h.onDisk, fun m hm => ⟨(h.rows m hm).named, fun raw hraw =>
      ((h.rows m hm).handedIn raw hraw).cons _⟩,
      fun k session envelope hk => (by cases hk), fun k session envelope path hk => (by cases hk),
      fun k id m hk => (by cases hk), fun k id t told drawn hk => (by cases hk)⟩
  | @did w w' tr i o c a he hg =>
    rw [Protocol.phase_prod] at hg
    have hs : (system cfg jobs).Step (dispatch cfg) ⟨w, tr⟩ ⟨w', .did i o a :: tr⟩ := .did he hg.1
    exact h.did he hs (good_or_same hg.1) hg.2

/-- At the start nothing is at hand. -/
theorem Traced.init (named : ∀ m ∈ w₀.db.messages, m.spoolPath ∈ w₀.names)
    (files : ∀ path raw, w₀.files path = some raw → path ∈ w₀.names) : Traced cfg w₀ ⟨w₀, []⟩ :=
  ⟨fun path raw hf => ⟨hf, files path raw hf⟩, fun m hm =>
    ⟨named m hm, fun raw hraw => .initial hm rfl rfl hraw⟩,
    fun k session envelope hk => (by cases hk), fun k session envelope path hk => (by cases hk),
    fun k id m hk => (by cases hk), fun k id t told drawn hk => (by cases hk)⟩

end Invariant

/-- **What is relayed is what was handed in.** In every run of the dispatcher, the ingress server
and the message API, whatever is handed to a provider carries the sender, the recipients and the
content of one message that was handed in before and stored under the id the relay is for. -/
theorem relayed_was_accepted (cfg : Settings) {jobs : Job → Bool} (hj : ∀ j, jobs j = true →
    j.onMessages = true)
    {w : World} (named : ∀ m ∈ w.db.messages, m.spoolPath ∈ w.names)
    (files : ∀ path raw, w.files path = some raw → path ∈ w.names) {C : Moment → Moment → Prop}
    {s s' : Pool Op Op.Ans Exc World Job ℚ} {m : Move Choice Job ℚ}
    (h : (system cfg jobs).Reachable C (Machine.boot w) s)
    (hm : (system cfg jobs).step m s = some s')
    {i : ℕ} {p : String} {kw : SendKwargs} {sender : String} {rcpts : List String} {raw : Bytes}
    {errand : Errand}
    {out : SendOutcome} (htr : s'.trace = .did i (.send p kw sender rcpts raw errand) out ::
      s.trace) :
    ∃ l : Letter, HandedIn w s.trace errand.message l raw ∧ l.sender = sender ∧
      l.recipients = rcpts := by
  have keeps : (system cfg jobs).Keeps ((dispatch cfg).prod (handling cfg)) :=
    (dispatch_keeps hj).prod (handling_keeps hj)
  obtain ⟨traced, inPhase⟩ := Machine.invariant keeps (Traced cfg w) (Traced.init named files)
    (fun hx hs _ => hx.step hs) h
  have good := ((Machine.step_cases keeps inPhase hm).1.of_did htr).2
  rw [Protocol.phase_prod] at good
  rcases dispatch_good good.1 with ⟨-, t, told, drawn, hφ, hsender, hrcpts, hraw, -⟩ | ⟨-, none⟩
  · obtain ⟨genuine, read⟩ := traced.turn i _ t told drawn hφ
    exact ⟨t.row.letter, genuine.handedIn raw (read raw hraw), hsender.symm, hrcpts.symm⟩
  · cases none

namespace Example

/-- A message is handed in, claimed, and read by consumer 2. -/
def handedIn : List (Move Choice Job ℚ) := List.flatten
  [[.start 1 (.handleData { peer := none } { mailFrom := some "c@x", rcptTos := ["d@y"], content := [1] }),
      .run 1 (.parsed .absent), .run 1 (.parsed .absent), .run 1 (.name "spool")], List.replicate 4 (.run 1 .ok),
    [.start 0 .producer], List.replicate 5 (.run 0 .ok), [.start 2 .consumer], List.replicate 19 (.run 2 .ok)]

/-- What a relay carries, and the id it is for. -/
def relayOf : Entry Op Op.Ans Job ℚ → Option (String × List String × Bytes × ℕ)
  | .did _ (.send _ _ sender rcpts raw errand) _ => some (sender, rcpts, raw, errand.message)
  | _ => none

theorem relayed_was_accepted_handedIn : ∃ s s' i p kw sender rcpts raw errand out,
    (system oneStrike Job.onMessages).runFrom (Machine.boot { clock := 63923749200, up := true })
      handedIn = some s ∧
      (system oneStrike Job.onMessages).step (.run 2 (.smtp (.returned [] "250 ok") true)) s =
        some s' ∧
      s'.trace = .did i (.send p kw sender rcpts raw errand) out :: s.trace ∧
      (sender, rcpts, raw, errand.message) = ("c@x", ["d@y"], [1], 1) ∧
      ∃ l : Letter, HandedIn { clock := 63923749200, up := true } s.trace errand.message l raw ∧
        l.sender = sender ∧ l.recipients = rcpts := by
  obtain ⟨s, hs, -⟩ : ∃ s, (system oneStrike Job.onMessages).runFrom
      (Machine.boot { clock := 63923749200, up := true }) handedIn = some s ∧ s.shared.names = ["spool"] :=
    Option.map_eq_some_iff.mp (by decide +kernel)
  obtain ⟨s', hs', ha⟩ : ∃ s', (system oneStrike Job.onMessages).runFrom
      (Machine.boot { clock := 63923749200, up := true })
      (handedIn ++ [.run 2 (.smtp (.returned [] "250 ok") true)]) = some s' ∧
        s'.trace.head?.bind relayOf = some ("c@x", ["d@y"], [1], 1) :=
    Option.map_eq_some_iff.mp (by decide +kernel)
  have hstep := (Machine.runFrom_concat hs _).symm.trans hs'
  obtain ⟨e, htr⟩ := Machine.step_trace hstep
  rw [htr, List.head?_cons, Option.bind_some] at ha
  unfold relayOf at ha
  split at ha
  swap
  · cases ha
  rename_i i p kw sender rcpts raw errand out
  exact ⟨s, s', i, p, kw, sender, rcpts, raw, errand, out, hs, hstep, htr, Option.some.inj ha,
    relayed_was_accepted oneStrike (fun _ h => h) (fun _ hm => (by cases hm))
      (fun _ _ hf => (by cases hf)) (Machine.Reachable.refl.runFrom hs) hstep htr⟩

end Example

end SmtpSwitch
