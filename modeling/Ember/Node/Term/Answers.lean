import Mathlib.Order.Basic
import Mathlib.Order.Lattice
import Ember.Node.Term.Stream

/-!
# Who answers the program

A program asks its terminal, for the cursor say, and waits for one answer. The model answers where
every client is read-only; otherwise every client sends an answer of its own, and `input` takes the
one of the client whose size the PTY follows (`ownerId`) and no other.

`ownerId` does not ask whether that client may type. So there is one answer exactly if it is an
interactive client and no other client has control (`Answerable`).
-/

namespace Ember.Node.Term

namespace Inner

variable {S : Type} {screens : ScreenModel S} {env : Env} {g g' g₀ : Inner S} {ev : TermEvent}
  {client : ℕ} {data : Bytes}

/-! ### The size policy has been followed -/

/-- What the size policy and the answers go by, but for the active client. -/
structure Alike (g g' : Inner S) : Prop where
  record : g'.record = g.record
  clients : g'.publicClients = g.publicClients
  controller : g'.controller = g.controller
  owner : g'.ownerId = g.ownerId

theorem Alike.refl (g : Inner S) : Alike g g := ⟨rfl, rfl, rfl, rfl⟩

theorem Alike.trans {g'' : Inner S} (h : Alike g g') (h' : Alike g' g'') : Alike g g'' :=
  ⟨h'.record.trans h.record, h'.clients.trans h.clients, h'.controller.trans h.controller,
    h'.owner.trans h.owner⟩

theorem find?_clients (g : Inner S) (id : ℕ) :
    (g.clients.find? fun c ↦ c.id = id).map Client.public = g.publicClients.find? fun c ↦ c.client = id := by
  rw [publicClients, List.find?_map]
  rfl

/-- The owner is found among the clients as others see them. -/
theorem ownerId_eq (g : Inner S) : g.ownerId =
    (g.controller.filter fun id ↦ g.publicClients.any fun c ↦ c.client = id).orElse fun _ ↦
      (g.active.filter fun id ↦ g.publicClients.any fun c ↦ c.client = id).orElse fun _ ↦
        (g.publicClients.reverse.find? fun c ↦ c.size.isSome).map TermClient.client := by
  have hpresent : g.present = fun id ↦ g.publicClients.any fun c ↦ c.client = id := by
    funext id
    rw [present, publicClients, List.any_map]
    rfl
  have hlast : (g.clients.reverse.find? fun c ↦ c.size.isSome).map Client.id =
      (g.publicClients.reverse.find? fun c ↦ c.size.isSome).map TermClient.client := by
    rw [publicClients, ← List.map_reverse, List.find?_map, Option.map_map]
    rfl
  rw [ownerId, hpresent, hlast]

theorem alike_of_eq (hrecord : g'.record = g.record) (hclients : g'.publicClients = g.publicClients)
    (hcontroller : g'.controller = g.controller) (hactive : g'.active = g.active) : Alike g g' :=
  ⟨hrecord, hclients, hcontroller, by
    rw [ownerId_eq, ownerId_eq, hclients, hcontroller, hactive]⟩

theorem Alike.newSize (h : Alike g g') : g'.newSize = g.newSize := by
  have hsize : ∀ g : Inner S, ∀ owner, (g.clients.find? fun c ↦ c.id = owner).bind Client.size =
      (g.publicClients.find? fun c ↦ c.client = owner).bind TermClient.size := by
    intro g owner
    rw [← find?_clients, Option.bind_map]
    rfl
  simp only [Inner.newSize, hsize, h.record, h.clients, h.owner]

theorem Alike.refusal (h : Alike g g') (client : ℕ) : g'.refusal client = g.refusal client := by
  have href : ∀ g : Inner S, g.refusal client =
      if g.record.state ≠ .running then some (some .notRunning)
      else
        match g.publicClients.find? fun c ↦ c.client = client with
        | none => none
        | some c =>
          if c.readOnly then some (some .readOnly)
          else if g.controller.any (· ≠ client) then some (some .controlled)
          else some none := by
    intro g
    rw [Inner.refusal, ← find?_clients]
    cases g.clients.find? fun c ↦ c.id = client <;> rfl
  rw [href, href, h.record, h.clients, h.controller]

/-- With nobody dropped, an event changes nothing. -/
theorem alike_sendAll (h : g.drops env = false) (ev : TermEvent) : Alike g (g.sendAll env ev) :=
  alike_of_eq rfl (publicClients_sendAll h ev) rfl rfl

/-- The size the PTY was given is the one it should have. -/
theorem newSize_resizeTo {size : PtySize} (h : g.newSize = some size) :
    (g.resizeTo screens size).newSize = none := by
  have hlike : (g.resizeTo screens size).ownerId = g.ownerId := rfl
  simp only [newSize] at h ⊢
  split at h
  case isFalse => cases h
  case isTrue hrunning =>
    rw [if_pos (show (g.resizeTo screens size).record.state = .running from hrunning), hlike]
    split at h
    · cases h
    case h_2 owner howner =>
      split at h
      · cases h
      case h_2 size' hsize =>
        split at h
        · cases h
        · obtain rfl := Option.some.inj h
          have hsize' : ((g.resizeTo screens size').clients.find? fun c ↦ c.id = owner).bind
              Client.size = some size' := hsize
          simp only [hsize']
          exact if_pos rfl

/-- **After `apply_size` the PTY has the size it should have.** -/
theorem newSize_applySize (screens : ScreenModel S) (env : Env) (g : Inner S) :
    (g.applySize screens env).newSize = none := by
  induction hlen : g.clients.length using Nat.strongRecOn generalizing g with
  | ind len ih =>
    subst hlen
    rw [applySize]
    split
    case h_1 hnone => exact hnone
    case h_2 size hsize =>
      dsimp only
      split
      case isTrue hdrop =>
        have hlt := Nat.lt_of_le_of_lt (length_settle_le env _)
          (length_sendAll_lt hdrop (.resized size))
        exact ih _ hlt _ rfl
      case isFalse hkeep =>
        exact (alike_sendAll (Bool.eq_false_iff.2 hkeep) _).newSize.trans (newSize_resizeTo hsize)

theorem newSize_broadcast (h : g.newSize = none) (ev : TermEvent) :
    (g.broadcast screens env ev).newSize = none := by
  rw [broadcast]
  split
  · exact newSize_applySize screens env _
  case isFalse hkeep => exact (alike_sendAll (Bool.eq_false_iff.2 hkeep) ev).newSize.trans h

/-! ### What holds between operations -/

/-- No client is attached twice, and a running session writes to its PTY. -/
structure Loose (g : Inner S) : Prop where
  nodup : (g.clients.map Client.id).Nodup
  written : g.record.state = .running → g.written.isSome = true

/-- The clients after an event are some of those before. -/
theorem ids_sendAll_sublist (env : Env) (g : Inner S) (ev : TermEvent) :
    ((g.sendAll env ev).clients.map Client.id).Sublist (g.clients.map Client.id) := by
  have hids : (g.sendAll env ev).clients.map Client.id =
      (g.clients.filter (g.keeps env)).map Client.id := by
    rw [sendAll, List.map_map]
    refine List.map_congr_left fun c _ ↦ ?_
    simp only [Function.comp_apply]
    split <;> rfl
  rw [hids]
  exact List.filter_sublist.map _

theorem Loose.sendAll (h : Loose g) (ev : TermEvent) : Loose (g.sendAll env ev) :=
  ⟨h.nodup.sublist (ids_sendAll_sublist env g ev), h.written⟩

theorem rides_loose : Rides screens env (Loose : Inner S → Prop) where
  forget _ _ _ _ h := ⟨h.nodup, h.written⟩
  send _ ev _ h := h.sendAll ev
  resize g size h := by
    have hresized : Loose (g.resizeTo screens size) := ⟨h.nodup, h.written⟩
    exact hresized.sendAll _

theorem Loose.broadcast (h : Loose g) (ev : TermEvent) : Loose (g.broadcast screens env ev) :=
  rides_loose.broadcast (h.sendAll ev)

/-- The state between operations; the size policy was followed. -/
structure Ordered (g : Inner S) : Prop where
  loose : Loose g
  sized : g.newSize = none

theorem Loose.applySize (h : Loose g) : Ordered (g.applySize screens env) :=
  ⟨rides_loose.applySize h, newSize_applySize screens env g⟩

theorem Loose.membershipChanged (h : Loose g) : Ordered (g.membershipChanged screens env) :=
  ⟨rides_loose.membershipChanged h, newSize_applySize screens env _⟩

theorem Ordered.broadcast (h : Ordered g) (ev : TermEvent) :
    Ordered (g.broadcast screens env ev) := ⟨h.loose.broadcast ev, newSize_broadcast h.sized ev⟩

/-- Nothing that matters is changed. -/
theorem Ordered.of_alike (h : Ordered g) (halike : Alike g g') (hwritten : g.written.isSome = true →
    g'.written.isSome = true) : Ordered g' := by
  have hids : ∀ g : Inner S, g.clients.map Client.id = g.publicClients.map TermClient.client := by
    intro g
    rw [publicClients, List.map_map]
    rfl
  refine ⟨⟨?_, fun hr ↦ hwritten (h.loose.written (halike.record ▸ hr))⟩,
    halike.newSize.trans h.sized⟩
  rw [hids, halike.clients, ← hids]
  exact h.loose.nodup

/-- A client is changed in what others do not see. -/
theorem publicClients_map {f : Client → Client} (hf : ∀ c, (f c).public = c.public)
    (cs : List Client) :
    (cs.map f).map Client.public = cs.map Client.public := by
  rw [List.map_map]
  exact List.map_congr_left fun c _ ↦ hf c

theorem alike_sendTo (env : Env) (g : Inner S) (client : ℕ) (ev : TermEvent) :
    Alike g (g.sendTo env client ev) :=
  alike_of_eq rfl (publicClients_map (fun c ↦ by split <;> rfl) _) rfl rfl

theorem alike_makeReady (g : Inner S) (id : ℕ) (first : List TermEvent) :
    Alike g (g.makeReady id first) :=
  alike_of_eq rfl (publicClients_map (fun c ↦ by split <;> rfl) _) rfl rfl

theorem alike_welcome (screens : ScreenModel S) (g : Inner S) (id : ℕ) (snapshot : Bool) :
    Alike g (g.welcome screens id snapshot).1 := by
  rcases welcome_cases screens id snapshot (g := g) with h | h <;> rw [h]
  · exact .refl g
  · exact alike_of_eq rfl rfl rfl rfl

theorem written_welcome (screens : ScreenModel S) (g : Inner S) (id : ℕ) (snapshot : Bool) :
    (g.welcome screens id snapshot).1.written = g.written := by
  rcases welcome_cases screens id snapshot (g := g) with h | h <;> rw [h]
  rfl

/-- What the model answers is written while nobody else would answer. -/
theorem written_feedOutput (screens : ScreenModel S) (g : Inner S) (data : Bytes) :
    ∃ replies, (∀ s, g.screen = some s → replies = (screens.takeReplies (screens.feed s data)).1) ∧
      (g.feedOutput screens data).written =
        if replies ≠ [] ∧ g.clients.all Client.readOnly then g.written.map (· ++ [replies])
        else g.written :=
  ⟨_, fun s hs ↦ by rw [hs], rfl⟩

theorem Loose.join (h : Loose g) (hfresh : Fresh g) {id : ℕ} (hid : g.next ≤ id)
    (hello : TermHello) : Loose (g.join id hello) := by
  refine ⟨?_, h.written⟩
  rw [Inner.join, List.map_append, List.map_singleton]
  refine List.nodup_append.2 ⟨h.nodup, List.nodup_singleton _, fun a ha b hb ↦ ?_⟩
  obtain ⟨c, hc, rfl⟩ := List.mem_map.1 ha
  obtain rfl : b = id := List.mem_singleton.1 hb
  have := hfresh c.id ⟨c, List.mem_append_left _ hc, rfl⟩
  omega

/-- **One operation.** -/
theorem Ordered.step (h : Ordered g) (hfresh : Fresh g) (l : Op × Env) :
    Ordered (g.step screens l) := by
  obtain ⟨op, env⟩ := l
  have h₀ : Ordered { g with untold := false } :=
    h.of_alike (alike_of_eq rfl rfl rfl rfl) fun hw ↦ hw
  have hfresh₀ : Fresh { g with untold := false } := hfresh
  simp only [Inner.step]
  generalize ({ g with untold := false } : Inner S) = g at h₀ hfresh₀
  cases op with
  | attach skipped hello =>
    simp only [Inner.attach]
    split
    · exact h₀
    · have hjoin : Ordered ((g.join (g.next + skipped) hello).applySize screens env) :=
        (h₀.loose.join hfresh₀ (Nat.le_add_right _ _) hello).applySize
      have hwelcome := hjoin.of_alike (alike_welcome screens _ (g.next + skipped) hello.snapshot)
        fun hw ↦ (written_welcome ..).symm ▸ hw
      exact (hwelcome.of_alike (alike_makeReady _ _ _) fun hw ↦ hw).broadcast _
    · have hwelcome := h₀.of_alike (alike_welcome screens _ (g.next + skipped) hello.snapshot)
        fun hw ↦ (written_welcome ..).symm ▸ hw
      exact hwelcome.of_alike (alike_of_eq rfl rfl rfl rfl) fun hw ↦ hw
  | input client data =>
    simp only [Inner.input]
    split
    · exact h₀
    · exact h₀.of_alike (alike_sendTo env g client _) fun hw ↦ hw
    · split
      · exact h₀
      · have htouch : Loose (g.touch client) := ⟨h₀.loose.nodup, h₀.loose.written⟩
        exact htouch.applySize.of_alike (alike_of_eq rfl rfl rfl rfl) fun hw ↦ by simpa using hw
  | resize client size =>
    simp only [Inner.resize]
    split
    · exact h₀
    · refine Loose.applySize ⟨?_, h₀.loose.written⟩
      rw [Inner.setSize, List.map_map]
      have hids : (Client.id ∘ fun c : Client ↦
          if c.id = client then { c with size := some size } else c) = Client.id := by
        funext c
        simp only [Function.comp_apply]
        split <;> rfl
      rw [hids]
      exact h₀.loose.nodup
  | control client take =>
    have hpass : Loose (g.passControl client take) := by
      unfold Inner.passControl
      split <;> exact ⟨h₀.loose.nodup, h₀.loose.written⟩
    simp only [Inner.control]
    repeat' split
    all_goals first | exact h₀ | exact (hpass.broadcast _).applySize
  | detach client =>
    simp only [Inner.detach]
    split
    · refine Loose.membershipChanged ⟨?_, h₀.loose.written⟩
      exact h₀.loose.nodup.sublist (List.filter_sublist.map _)
    · exact h₀
  | output data =>
    have hfed : Ordered (g.feedOutput screens data) := by
      refine h₀.of_alike (alike_of_eq rfl rfl rfl rfl) fun hw ↦ ?_
      obtain ⟨replies, -, hwritten⟩ := written_feedOutput screens g data
      rw [hwritten]
      split
      · rwa [Option.isSome_map]
      · exact hw
    simp only [Inner.onOutput]
    split
    · exact (hfed.broadcast _).broadcast _
    · exact hfed.broadcast _
  | exit code signal =>
    simp only [Inner.onExit]
    split
    · exact h₀
    · exact ⟨⟨List.nodup_nil, fun hr ↦ by cases hr⟩, rfl⟩
  | snapshot => exact h₀.of_alike (alike_of_eq rfl rfl rfl rfl) fun hw ↦ hw
  | tick idle =>
    simp only [Inner.tick]
    split
    · exact h₀.of_alike (alike_of_eq rfl rfl rfl rfl) fun hw ↦ hw
    · exact h₀
  | dropScreen =>
    simp only [Inner.dropScreen]
    split
    · exact h₀.of_alike (alike_of_eq rfl rfl rfl rfl) fun hw ↦ hw
    · exact h₀

theorem ordered_run (origin : Origin) (ls : List (Op × Env)) : Ordered (run screens origin ls) := by
  induction ls using List.reverseRecOn with
  | nil =>
    cases origin with
    | start record restore =>
      have howner : (Inner.start screens record restore).ownerId = none := rfl
      refine ⟨⟨List.nodup_nil, fun _ ↦ rfl⟩, ?_⟩
      show (Inner.start screens record restore).newSize = none
      rw [Inner.newSize, howner]
      exact ite_self _
    | inert record hstate =>
      exact ⟨⟨List.nodup_nil, fun hr ↦ absurd hr hstate⟩, if_neg hstate⟩
  | append_singleton ls l ih =>
    rw [run, List.foldl_concat]
    exact Ordered.step ih (fresh_run origin ls) l

/-! ### An answer -/

/-- What a client's terminal sends: an answer to each of these queries. -/
structure Answer where
  client : ℕ
  data : Bytes
  queries : List ℕ
  /-- What the queues do meanwhile. -/
  env : Env

/-- The session after an answer. -/
def answer (screens : ScreenModel S) (g : Inner S) (a : Answer) : Inner S :=
  g.step screens (.input a.client a.data, a.env)

/-- The client whose answers reach the program: the owner, if `input` lets it type. -/
def answerer (g : Inner S) : Option ℕ := g.ownerId.filter fun id ↦ g.refusal id == some none

theorem Alike.answerer (h : Alike g g') : g'.answerer = g.answerer := by
  rw [Inner.answerer, Inner.answerer, h.owner]
  congr 1
  funext id
  rw [h.refusal]

/-- The owner types: it is the owner still, and the PTY has its size. -/
theorem alike_touch (howner : g.ownerId = some client) (hfree : g.refusal client = some none) :
    Alike g (g.touch client) := by
  refine ⟨rfl, rfl, rfl, ?_⟩
  rw [howner]
  obtain ⟨c, hc, hid, -⟩ := exists_of_refusal_none hfree
  have hpresent : g.present client = true :=
    List.any_eq_true.2 ⟨c, hc, decide_eq_true hid⟩
  cases hctl : g.controller.filter g.present with
  | some k =>
    have hsame : g.ownerId = some k := by rw [ownerId, hctl]; rfl
    show ((g.controller.filter g.present).orElse _ : Option ℕ) = _
    rw [hctl, ← howner, hsame]
    rfl
  | none =>
    show ((g.controller.filter g.present).orElse fun _ ↦
      ((some client).filter g.present).orElse fun _ ↦ _ : Option ℕ) = _
    rw [hctl, Option.filter_some, if_pos hpresent]
    rfl

theorem applySize_of_none (h : g.newSize = none) (screens : ScreenModel S) (env : Env) :
    g.applySize screens env = g := by
  rw [applySize, h]

/-- **One answer**: it is written if it is the answerer's, and nothing else changes. -/
theorem answer_spec (hsized : g.newSize = none) (a : Answer)
    (hreport : isTerminalReport a.data = true) :
    Alike g (g.answer screens a) ∧ (g.answer screens a).written =
      if g.answerer = some a.client then g.written.map (· ++ [a.data]) else g.written := by
  obtain ⟨client, data, queries, env⟩ := a
  have hlike : Alike g { g with untold := false } := alike_of_eq rfl rfl rfl rfl
  have hnot : g.refusal client ≠ some none → g.answerer ≠ some client := fun hrefusal hanswerer ↦
    hrefusal (beq_iff_eq.1 (Option.filter_eq_some_iff.1 hanswerer).2)
  show Alike g (Inner.input screens env { g with untold := false } client data) ∧
    (Inner.input screens env { g with untold := false } client data).written = _
  rw [Inner.input, hlike.refusal, hlike.owner]
  cases hrefusal : g.refusal client with
  | none => exact ⟨hlike, (if_neg (hnot (by rw [hrefusal]; simp))).symm⟩
  | some refusal =>
    cases refusal with
    | some reason =>
      exact ⟨hlike.trans (alike_sendTo env _ client _),
        (if_neg (hnot (by rw [hrefusal]; simp))).symm⟩
    | none =>
      by_cases howner : g.ownerId = some client
      · have hanswerer : g.answerer = some client := by
          rw [Inner.answerer, howner, Option.filter_some, hrefusal]
          rfl
        have htouch := hlike.trans (alike_touch (hlike.owner.trans howner)
          ((hlike.refusal client).trans hrefusal))
        have hskip : ¬ (g.ownerId ≠ some client ∧ isTerminalReport data = true) :=
          fun hskip ↦ hskip.1 howner
        dsimp only
        rw [if_neg hskip, if_pos hanswerer, applySize_of_none (htouch.newSize.trans hsized)]
        exact ⟨htouch.trans (alike_of_eq rfl rfl rfl rfl), rfl⟩
      · have hanswerer : g.answerer ≠ some client := fun hanswerer ↦
          howner (Option.filter_eq_some_iff.1 hanswerer).1
        dsimp only
        rw [if_pos ⟨howner, hreport⟩, if_neg hanswerer]
        exact ⟨hlike, rfl⟩

/-- **All answers**: those of the answerer are written, in order. -/
theorem answers_spec (hsized : g.newSize = none) (answers : List Answer)
    (hreports : ∀ a ∈ answers, isTerminalReport a.data = true) :
    Alike g (answers.foldl (answer screens) g) ∧ (answers.foldl (answer screens) g).written =
      g.written.map (· ++ (answers.filter fun a ↦ g.answerer = some a.client).map Answer.data) := by
  induction answers generalizing g with
  | nil => exact ⟨.refl g, by simp⟩
  | cons a answers ih =>
    obtain ⟨hlike, hwritten⟩ := @answer_spec _ screens _ hsized a
      (hreports a List.mem_cons_self)
    obtain ⟨hrest, hall⟩ := ih (hlike.newSize.trans hsized)
      fun b hb ↦ hreports b (List.mem_cons_of_mem _ hb)
    refine ⟨hlike.trans hrest, hall.trans ?_⟩
    rw [hwritten, hlike.answerer]
    by_cases hanswerer : g.answerer = some a.client
    · rw [if_pos hanswerer, List.filter_cons_of_pos
        (p := fun b : Answer ↦ g.answerer = some b.client) (decide_eq_true hanswerer),
        Option.map_map]
      refine congrArg (Option.map · g.written) (funext fun w ↦ ?_)
      exact List.append_assoc w [a.data] _
    · rw [if_neg hanswerer, List.filter_cons_of_neg
        (p := fun b : Answer ↦ g.answerer = some b.client) (by simpa using hanswerer)]

/-! ### A query -/

theorem rides_written (w : Option (List Bytes)) :
    Rides screens env fun g : Inner S ↦ g.written = w where
  forget _ _ _ _ h := h
  send _ _ _ h := h
  resize _ _ h := h

theorem rides_length (n : ℕ) : Rides screens env fun g : Inner S ↦ g.clients.length ≤ n where
  forget _ _ _ _ h := h
  send g ev _ h := (length_sendAll_le env g ev).trans h
  resize g size h := (length_sendAll_le env (g.resizeTo screens size) _).trans h

theorem written_broadcast (g : Inner S) (ev : TermEvent) :
    (g.broadcast screens env ev).written = g.written := (rides_written g.written).broadcast rfl

theorem length_broadcast_le (g : Inner S) (ev : TermEvent) :
    (g.broadcast screens env ev).clients.length ≤ g.clients.length :=
  (rides_length g.clients.length).broadcast (length_sendAll_le env g ev)

/-- An event that reaches every client changes nothing. -/
theorem alike_broadcast (h : g.clients.length ≤ (g.broadcast screens env ev).clients.length) :
    Alike g (g.broadcast screens env ev) := by
  cases hdrop : g.drops env with
  | true =>
    have hless : (g.broadcast screens env ev).clients.length ≤
        (g.sendAll env ev).clients.length := by
      rw [Inner.broadcast, if_pos hdrop]
      exact (rides_length _).membershipChanged le_rfl
    exact absurd h (not_le.2 (hless.trans_lt (length_sendAll_lt hdrop ev)))
  | false =>
    rw [Inner.broadcast, if_neg (by rw [hdrop]; exact Bool.false_ne_true)]
    exact alike_sendAll hdrop ev

/-- **Output that reaches every client** leaves all as it was, but for what the model answers. -/
theorem onOutput_spec (h : g.clients.length ≤ (g.onOutput screens env data).clients.length) :
    Alike g (g.onOutput screens env data) ∧
      (g.onOutput screens env data).written = (g.feedOutput screens data).written := by
  have hfed : Alike g (g.feedOutput screens data) := alike_of_eq rfl rfl rfl rfl
  have hlen : g.clients.length = (g.feedOutput screens data).clients.length := rfl
  rw [hlen] at h
  simp only [Inner.onOutput] at h ⊢
  generalize g.feedOutput screens data = f at h hfed ⊢
  split at h
  case isTrue htitle =>
    have hfirst := alike_broadcast (Nat.le_trans h (length_broadcast_le _ _))
    have hsecond := alike_broadcast (Nat.le_trans (length_broadcast_le f (.output data)) h)
    rw [if_pos htitle]
    exact ⟨(hfed.trans hfirst).trans hsecond, (written_broadcast ..).trans (written_broadcast ..)⟩
  case isFalse htitle =>
    rw [if_neg htitle]
    exact ⟨hfed.trans (alike_broadcast h), written_broadcast ..⟩

/-- The owner may type, and nobody else has control. -/
def Answerable (g : Inner S) : Prop :=
  ∃ c ∈ g.clients, g.ownerId = some c.id ∧ c.readOnly = false ∧
    ∀ ctl, g.controller = some ctl → ctl = c.id

/-- An attached client is found by its id. -/
theorem find?_of_mem (hnodup : (g.clients.map Client.id).Nodup) {c : Client} (hc : c ∈ g.clients) :
    (g.clients.find? fun d ↦ d.id = c.id) = some c := by
  cases hfind : g.clients.find? fun d ↦ d.id = c.id with
  | none => exact absurd (decide_eq_true rfl) (List.find?_eq_none.1 hfind c hc)
  | some d =>
    have hid : d.id = c.id :=
      of_decide_eq_true (List.find?_some (p := fun d : Client ↦ d.id = c.id) hfind)
    rw [List.inj_on_of_nodup_map hnodup (List.mem_of_find?_eq_some hfind) hc hid]

theorem answerer_eq_some (hrunning : g.record.state = .running)
    (hnodup : (g.clients.map Client.id).Nodup) {id : ℕ} :
    g.answerer = some id ↔ ∃ c ∈ g.clients, c.id = id ∧ g.ownerId = some c.id ∧ c.readOnly = false ∧
      ∀ ctl, g.controller = some ctl → ctl = c.id := by
  rw [answerer, Option.filter_eq_some_iff]
  constructor
  · rintro ⟨howner, hrefusal⟩
    have hfree := beq_iff_eq.1 hrefusal
    obtain ⟨c, hc, rfl, hro⟩ := exists_of_refusal_none hfree
    refine ⟨c, hc, rfl, howner, hro, fun ctl hctl ↦ ?_⟩
    by_contra hne
    rw [refusal, if_neg (not_not.2 hrunning), find?_of_mem hnodup hc] at hfree
    simp [hro, hctl, hne] at hfree
  · rintro ⟨c, hc, rfl, howner, hro, hctl⟩
    refine ⟨howner, beq_iff_eq.2 ?_⟩
    have hany : g.controller.any (· ≠ c.id) = false := by
      cases hcontroller : g.controller with
      | none => rfl
      | some ctl => simp [hctl ctl hcontroller]
    rw [refusal, if_neg (not_not.2 hrunning), find?_of_mem hnodup hc]
    simp only [hro, hany, Bool.false_eq_true, if_false]

/-- One answer to each of `n` queries has been written, after what was written before. -/
def Answered (g' : Inner S) (w : List Bytes) (answers : List Answer) (n : ℕ) : Prop :=
  ∃ taken : List Answer, taken.Sublist answers ∧ g'.written = some (w ++ taken.map Answer.data) ∧
    (taken.flatMap Answer.queries).Perm (List.range n)

/-- **Who answers the queries.** A running session, after any operations, processes output with
queries that reaches every client, and every client answers every query once, in any order. If a
client is interactive, one answer to each query is written exactly if the session was `Answerable`;
otherwise the model's answer is. -/
theorem answered_iff (origin : Origin) (ls : List (Op × Env)) (data : Bytes) (env : Env) (n : ℕ)
    (answers : List Answer) (hrunning : (run screens origin ls).record.state = .running)
    (hreach : ((run screens origin ls).step screens (.output data, env)).clients.map Client.id =
      (run screens origin ls).clients.map Client.id) (hn : 0 < n)
    (hall : ∀ c ∈ (run screens origin ls).clients,
      ((answers.filter fun a ↦ a.client = c.id).flatMap Answer.queries).Perm (List.range n))
    (hreports : ∀ a ∈ answers, isTerminalReport a.data = true) :
    let g := run screens origin ls
    let g' := answers.foldl (answer screens) (g.step screens (.output data, env))
    ∃ s w, g.screen = some s ∧ g.written = some w ∧
      ((∃ c ∈ g.clients, c.readOnly = false) → (g'.Answered w answers n ↔ Answerable g)) ∧
      ((∀ c ∈ g.clients, c.readOnly = true) →
        (screens.takeReplies (screens.feed s data)).1 ≠ [] →
          g'.written = some (w ++ [(screens.takeReplies (screens.feed s data)).1])) := by
  intro g g'
  have hordered : Ordered g := ordered_run origin ls
  obtain ⟨s, hs⟩ := Option.isSome_iff_exists.1 ((shows_run origin ls).running hrunning)
  obtain ⟨w, hw⟩ := Option.isSome_iff_exists.1 (hordered.loose.written hrunning)
  refine ⟨s, w, hs, hw, ?_⟩
  have hlength : g.clients.length ≤
      (Inner.onOutput screens env { g with untold := false } data).clients.length := by
    have hlength := congrArg List.length hreach
    rw [List.length_map, List.length_map] at hlength
    exact Nat.le_of_eq hlength.symm
  -- The output changes only what the model answers.
  have hlike₀ : Alike g { g with untold := false } := alike_of_eq rfl rfl rfl rfl
  obtain ⟨hlike₁, hwritten₁⟩ := @onOutput_spec _ screens env { g with untold := false } data hlength
  obtain ⟨replies, hreplies, hfed⟩ := written_feedOutput screens { g with untold := false } data
  have hlike := hlike₀.trans hlike₁
  obtain ⟨-, hwritten⟩ := @answers_spec _ screens _ (hlike.newSize.trans hordered.sized)
    answers hreports
  replace hwritten : g'.written = (g.step screens (.output data, env)).written.map
      (· ++ (answers.filter fun a ↦ g.answerer = some a.client).map Answer.data) :=
    hlike.answerer ▸ hwritten
  have hoff : (g.step screens (.output data, env)).written =
      if replies ≠ [] ∧ g.clients.all Client.readOnly then some (w ++ [replies]) else some w := by
    refine hwritten₁.trans (hfed.trans ?_)
    show (if replies ≠ [] ∧ g.clients.all Client.readOnly then g.written.map _ else g.written) = _
    rw [hw]
    rfl
  have hsome : ∀ id, g.answerer = some id ↔ ∃ c ∈ g.clients, c.id = id ∧ g.ownerId = some c.id ∧
      c.readOnly = false ∧ ∀ ctl, g.controller = some ctl → ctl = c.id :=
    fun _ ↦ answerer_eq_some hrunning hordered.loose.nodup
  have hnone : g.answerer = none → (answers.filter fun a ↦ g.answerer = some a.client) = [] :=
    fun hanswerer ↦ List.filter_eq_nil_iff.2 fun a _ ↦ by simp [hanswerer]
  constructor
  · rintro ⟨c, hc, hro⟩
    have hnot : ¬ (replies ≠ [] ∧ g.clients.all Client.readOnly = true) := fun h ↦
      absurd (List.all_eq_true.1 h.2 c hc) (by rw [hro]; exact Bool.false_ne_true)
    rw [hoff, if_neg hnot, Option.map_some] at hwritten
    constructor
    · rintro ⟨taken, -, hone, hqueries⟩
      cases hanswerer : g.answerer with
      | none =>
        -- Nothing was written, so no query was answered.
        rw [hwritten, Option.some.injEq, List.append_cancel_left_eq, hnone hanswerer] at hone
        obtain rfl : taken = [] := List.map_eq_nil_iff.1 hone.symm
        have hlen := hqueries.length_eq
        rw [List.length_range] at hlen
        exact absurd hlen (Nat.ne_of_lt hn)
      | some id =>
        obtain ⟨c, hc, -, hrest⟩ := (hsome id).1 hanswerer
        exact ⟨c, hc, hrest⟩
    · rintro ⟨c, hc, hrest⟩
      have hanswerer : g.answerer = some c.id := (hsome c.id).2 ⟨c, hc, rfl, hrest⟩
      have hown : (answers.filter fun a ↦ g.answerer = some a.client) =
          answers.filter fun a ↦ a.client = c.id :=
        List.filter_congr fun a _ ↦ by simp [hanswerer, eq_comm]
      exact ⟨_, List.filter_sublist, hwritten, hown ▸ hall c hc⟩
  · intro hro hne
    have hanswerer : g.answerer = none := by
      cases hanswerer : g.answerer with
      | none => rfl
      | some id =>
        obtain ⟨c, hc, -, -, hfree, -⟩ := (hsome id).1 hanswerer
        exact absurd (hro c hc) (by rw [hfree]; exact Bool.false_ne_true)
    rw [← hreplies s hs] at hne ⊢
    rw [hwritten, hoff, if_pos ⟨hne, List.all_eq_true.2 hro⟩, hnone hanswerer, Option.map_some,
      List.map_nil, List.append_nil]

/-- A terminal that reports the cursor once it has been fed anything. -/
def askedScreens : ScreenModel Bytes :=
  { plainScreens with takeReplies := fun s ↦ (if s = [] then [] else [0x1b, 0x5b, 0x52], []) }

/-- A client that only looks. -/
def onlooker : Op := .attach 0 ⟨"phone", none, none, some ⟨40, 60⟩, false, true, true⟩

/-- The query for the cursor. -/
def query : Bytes := [0x1b, 0x5b, 0x36, 0x6e]

/-- The answer of a client's terminal. -/
def cursor (id : ℕ) (column : UInt8) : Answer :=
  ⟨id, [0x1b, 0x5b, 0x31, 0x3b, column, 0x52], [0], allTake⟩

/-- The answer of the client that types is written, and that of the onlooker is not. -/
theorem answered_typist :
    (([cursor 2 0x32, cursor 1 0x31].foldl (answer askedScreens)
      ((run askedScreens shell [(typist 30, allTake), (onlooker, allTake)]).step askedScreens
        (.output query, allTake))).Answered [] [cursor 2 0x32, cursor 1 0x31] 1) := by
  obtain ⟨s, w, -, hw, hone, -⟩ := @answered_iff _ askedScreens shell
    [(typist 30, allTake), (onlooker, allTake)] query allTake 1 [cursor 2 0x32, cursor 1 0x31]
    (by decide +kernel) (by decide +kernel) (by decide +kernel) (by decide +kernel)
    (by decide +kernel)
  have hempty : (run askedScreens shell [(typist 30, allTake), (onlooker, allTake)]).written =
      some [] := by decide +kernel
  obtain rfl : w = [] := Option.some.inj (hw.symm.trans hempty)
  exact (hone (by decide +kernel)).2 (by unfold Answerable; decide +kernel)

/-- A client that may type, but has not typed and did not attach as the active one. -/
def idler : Op := .attach 0 ⟨"laptop", none, none, some ⟨30, 80⟩, false, false, true⟩

/-- **An onlooker keeps the answer from the program.** It attached last, so the PTY follows its
size, and the answer of the only client that may type is taken for a superfluous one. -/
theorem not_answered_idler :
    let g := run askedScreens shell [(idler, allTake), (onlooker, allTake)]
    let answers := [cursor 1 0x31, cursor 2 0x32]
    g.record.state = .running ∧ (∃ c ∈ g.clients, c.readOnly = false) ∧
      (g.step askedScreens (.output query, allTake)).clients.map Client.id =
        g.clients.map Client.id ∧
      (∀ c ∈ g.clients, ((answers.filter fun a ↦ a.client = c.id).flatMap Answer.queries).Perm
        (List.range 1)) ∧
      (∀ a ∈ answers, isTerminalReport a.data = true) ∧ g.written = some [] ∧
      ¬ (answers.foldl (answer askedScreens)
        (g.step askedScreens (.output query, allTake))).Answered [] answers 1 := by
  refine ⟨by decide +kernel, by decide +kernel, by decide +kernel, by decide +kernel,
    by decide +kernel, by decide +kernel, ?_⟩
  rintro ⟨taken, -, hone, hqueries⟩
  have hnothing : ([cursor 1 0x31, cursor 2 0x32].foldl (answer askedScreens)
      ((run askedScreens shell [(idler, allTake), (onlooker, allTake)]).step askedScreens
        (.output query, allTake))).written = some [] := by decide +kernel
  obtain rfl : taken = [] := List.map_eq_nil_iff.1 (Option.some.inj (hnothing.symm.trans hone)).symm
  exact absurd hqueries.length_eq (by decide)

end Inner

end Ember.Node.Term
