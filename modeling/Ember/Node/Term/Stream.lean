import Ember.Node.Term.Control

/-!
# What a terminal client sees

A client that attaches to a running session gets the session, then the screen, then whatever the
program prints from there on. The screen is taken after the size policy has had its say, under the
same lock as everything else, and the client is not ready before its first events are queued.

## What is proved

* `streams_of_attach` — the queue of a client that attached while the session runs and asked for the
  screen holds `Attached`, the `Snapshot` of the screen after exactly the output processed before,
  and then exactly the output processed after it, until the client is gone; its idea of the size is
  the session's; and the exit, if it got it, comes last.

`Rides` is the induction rule for the rounds of `apply_size` and `membership_changed`: what survives
a round survives them all.
-/

namespace Ember.Node.Term

/-! ### What a queue holds -/

/-- The output among the events. -/
def outputsOf (evs : List TermEvent) : List Bytes :=
  evs.filterMap fun | .output data => some data | _ => none

/-- The size after an event, as its receiver knows it. -/
def sizeAfter (known : Option PtySize) : TermEvent → Option PtySize
  | .snapshot size _ | .resized size => some size
  | _ => known

/-- The last size among the events. -/
def lastSize (inbox : List TermEvent) : Option PtySize := inbox.foldl sizeAfter none

/-- An event of the live stream: no first event, and not the exit. -/
def TermEvent.Live : TermEvent → Prop
  | .attached _ _ | .snapshot _ _ | .exit _ _ => False
  | _ => True

/-- The queue begins with `first`; then come the outputs `out`, each once and in order, among live
events; and its receiver knows the size `size`. -/
def Follows (first : List TermEvent) (out : List Bytes) (size : PtySize) (inbox : List TermEvent) :
    Prop :=
  ∃ evs, inbox = first ++ evs ∧ (∀ ev ∈ evs, ev.Live) ∧ outputsOf evs = out ∧
    lastSize inbox = some size

/-- The output fed to the terminal model. -/
def feedsOf (ops : List ScreenOp) : List Bytes :=
  ops.filterMap fun | .feed data => some data | _ => none

@[simp] theorem outputsOf_append (a b : List TermEvent) :
    outputsOf (a ++ b) = outputsOf a ++ outputsOf b := List.filterMap_append ..

@[simp] theorem feedsOf_append (a b : List ScreenOp) :
    feedsOf (a ++ b) = feedsOf a ++ feedsOf b := List.filterMap_append ..

@[simp] theorem lastSize_concat (inbox : List TermEvent) (ev : TermEvent) :
    lastSize (inbox ++ [ev]) = sizeAfter (lastSize inbox) ev := by
  simp [lastSize]

variable {inbox : List TermEvent}

/-- One more live event. -/
theorem Follows.concat {first : List TermEvent} {out : List Bytes} {size size' : PtySize}
    {ev : TermEvent} (h : Follows first out size inbox) (hev : ev.Live)
    (hsize : sizeAfter (some size) ev = some size') :
    Follows first (out ++ outputsOf [ev]) size' (inbox ++ [ev]) := by
  obtain ⟨evs, rfl, hlive, rfl, hlast⟩ := h
  refine ⟨evs ++ [ev], by simp, ?_, outputsOf_append _ _, by rw [lastSize_concat, hlast, hsize]⟩
  intro e he
  rcases List.mem_append.1 he with he | he
  · exact hlive e he
  · exact List.mem_singleton.1 he ▸ hev

/-- What `membership_changed` sends. -/
def TermEvent.Housekeeping : TermEvent → Prop
  | .control _ | .clients _ => True
  | _ => False

variable {f : Client → Client}

namespace Inner

variable {S : Type} {screens : ScreenModel S} {env : Env} {g g' g'' : Inner S} {ev : TermEvent}
  {P : Inner S → Prop}

/-! ### The rounds of a clean-up -/

/-- What survives every part of a round: a send of `membership_changed`, and a new size with the news
of it; control and activity do not matter to it. -/
structure Rides (screens : ScreenModel S) (env : Env) (P : Inner S → Prop) : Prop where
  forget : ∀ g controller active untold, P g →
    P { g with controller := controller, active := active, untold := untold }
  send : ∀ g ev, ev.Housekeeping → P g → P (g.sendAll env ev)
  resize : ∀ g size, P g → P ((g.resizeTo screens size).sendAll env (.resized size))

theorem Rides.settle (hr : Rides screens env P) (h : P g) : P (g.settle env) := by
  have hcontrol : P (g.settleControl env) := by
    unfold settleControl
    split
    · split
      · exact h
      · exact hr.send _ _ trivial (hr.forget g none g.active g.untold h)
    · exact h
  have hactive : P (g.settleControl env).settleActive := by
    unfold settleActive
    split
    · split
      · exact hcontrol
      · exact hr.forget _ (g.settleControl env).controller none (g.settleControl env).untold hcontrol
    · exact hcontrol
  exact hr.forget _ _ _ _ (hr.send _ _ trivial hactive)

/-- **The size policy keeps what survives a round.** -/
theorem Rides.applySize (hr : Rides screens env P) (h : P g) : P (g.applySize screens env) := by
  induction hlen : g.clients.length using Nat.strongRecOn generalizing g with
  | ind len ih =>
    subst hlen
    rw [Inner.applySize]
    split
    · exact h
    · next size _ =>
      have hsent := hr.resize g size h
      simp only
      split
      · next hdrop =>
        have hlt := Nat.lt_of_le_of_lt (length_settle_le env _)
          (length_sendAll_lt hdrop (.resized size))
        exact ih _ hlt (hr.settle hsent) rfl
      · exact hsent

theorem Rides.membershipChanged (hr : Rides screens env P) (h : P g) :
    P (g.membershipChanged screens env) := hr.applySize (hr.settle h)

theorem Rides.broadcast (hr : Rides screens env P) (h : P (g.sendAll env ev)) :
    P (g.broadcast screens env ev) := by
  unfold Inner.broadcast
  split
  · exact hr.membershipChanged h
  · exact h

/-! ### What clean-ups leave alone -/

/-- The session has had this client. -/
def Has (g : Inner S) (id : ℕ) : Prop := ∃ c ∈ g.clients ++ g.gone, c.id = id

/-- `g'` has processed what `g` has, and has the same clients, here or gone. -/
structure Frame (g g' : Inner S) : Prop where
  outputs : g'.outputs = g.outputs
  ended : g'.ended = g.ended
  next : g'.next = g.next
  state : g'.record.state = g.record.state
  has : ∀ id, g'.Has id ↔ g.Has id

theorem Frame.refl (g : Inner S) : Frame g g := ⟨rfl, rfl, rfl, rfl, fun _ ↦ .rfl⟩

theorem Frame.trans (h : Frame g g') (h' : Frame g' g'') : Frame g g'' :=
  ⟨h'.outputs.trans h.outputs, h'.ended.trans h.ended, h'.next.trans h.next, h'.state.trans h.state,
    fun id ↦ (h'.has id).trans (h.has id)⟩

theorem has_sendAll (env : Env) (g : Inner S) (ev : TermEvent) (id : ℕ) :
    (g.sendAll env ev).Has id ↔ g.Has id := by
  constructor
  · rintro ⟨c', hc', rfl⟩
    rcases List.mem_append.1 hc' with hc' | hc'
    · obtain ⟨c, hc, -, rfl⟩ := exists_of_mem_sendAll hc'
      refine ⟨c, List.mem_append_left _ hc, ?_⟩
      split <;> rfl
    · rcases List.mem_append.1 hc' with hc' | hc'
      · exact ⟨c', List.mem_append_right _ hc', rfl⟩
      · exact ⟨c', List.mem_append_left _ (List.mem_of_mem_filter hc'), rfl⟩
  · rintro ⟨c, hc, rfl⟩
    rcases List.mem_append.1 hc with hc | hc
    · by_cases hk : g.keeps env c
      · refine ⟨if c.ready then c.queue ev else c, List.mem_append_left _ ?_, by split <;> rfl⟩
        exact List.mem_map_of_mem (List.mem_filter.2 ⟨hc, hk⟩)
      · refine ⟨c, List.mem_append_right _ (List.mem_append_right _ ?_), rfl⟩
        exact List.mem_filter.2 ⟨hc, by simpa using hk⟩
    · exact ⟨c, List.mem_append_right _ (List.mem_append_left _ hc), rfl⟩

theorem frame_sendAll (env : Env) (g : Inner S) (ev : TermEvent) : Frame g (g.sendAll env ev) :=
  ⟨rfl, rfl, rfl, rfl, has_sendAll env g ev⟩

theorem rides_frame (g₀ : Inner S) : Rides screens env (Frame g₀) where
  forget _ _ _ _ h := ⟨h.outputs, h.ended, h.next, h.state, h.has⟩
  send g ev _ h := h.trans (frame_sendAll env g ev)
  resize g size h := by
    have hsize : Frame g (g.resizeTo screens size) := ⟨rfl, rfl, rfl, rfl, fun _ ↦ .rfl⟩
    exact (h.trans hsize).trans (frame_sendAll env _ _)

theorem frame_applySize (screens : ScreenModel S) (env : Env) (g : Inner S) :
    Frame g (g.applySize screens env) := (rides_frame g).applySize (.refl g)

theorem frame_membershipChanged (screens : ScreenModel S) (env : Env) (g : Inner S) :
    Frame g (g.membershipChanged screens env) := (rides_frame g).membershipChanged (.refl g)

theorem frame_broadcast (screens : ScreenModel S) (env : Env) (g : Inner S) (ev : TermEvent) :
    Frame g (g.broadcast screens env ev) := (rides_frame g).broadcast (frame_sendAll env g ev)

/-! ### The screen -/

/-- The terminal model has been fed exactly the output processed, and a running session has one. -/
structure Shows (screens : ScreenModel S) (start : Option S) (g : Inner S) : Prop where
  replay : ∀ s, g.screen = some s → ∃ s₀, start = some s₀ ∧ s = g.ops.foldl screens.apply s₀ ∧
    feedsOf g.ops = g.outputs
  running : g.record.state = .running → g.screen.isSome

variable {start : Option S}

theorem Shows.of_eq (h : Shows screens start g) (hscreen : g'.screen = g.screen)
    (hops : g'.ops = g.ops) (houtputs : g'.outputs = g.outputs)
    (hstate : g'.record.state = .running → g.record.state = .running) : Shows screens start g' := by
  refine ⟨fun s hs ↦ ?_, fun hr ↦ hscreen ▸ h.running (hstate hr)⟩
  rw [hops, houtputs]
  exact h.replay s (hscreen ▸ hs)

/-- An operation on the model that feeds nothing. -/
theorem Shows.onScreen (h : Shows screens start g) {op : ScreenOp} (hop : feedsOf [op] = []) :
    Shows screens start (g.onScreen screens op) := by
  refine ⟨fun s hs ↦ ?_, fun hr ↦ ?_⟩
  · obtain ⟨s', hs', rfl⟩ := Option.map_eq_some_iff.1 hs
    obtain ⟨s₀, hstart, rfl, hfeeds⟩ := h.replay s' hs'
    refine ⟨s₀, hstart, ?_, ?_⟩
    · simp [Inner.onScreen, hs']
    · simp [Inner.onScreen, hs', hop, hfeeds]
  · simpa [Inner.onScreen] using h.running hr

theorem rides_shows : Rides screens env (Shows screens start) where
  forget _ _ _ _ h := h.of_eq rfl rfl rfl id
  send _ _ _ h := h.of_eq rfl rfl rfl id
  resize g size h := by
    have hop : feedsOf [.resize size] = [] := rfl
    exact (h.onScreen hop).of_eq rfl rfl rfl id

section

variable (h : Shows screens start g)
include h

theorem Shows.broadcast (ev : TermEvent) :
    Shows screens start (g.broadcast screens env ev) :=
  rides_shows.broadcast (h.of_eq rfl rfl rfl id)

theorem Shows.feedOutput (data : Bytes) :
    Shows screens start (g.feedOutput screens data) := by
  have hops (s : S) (hs : g.screen = some s) : (g.feedOutput screens data).ops =
      g.ops ++ [.feed data] ++ [.takeReplies] := by
    simp [Inner.feedOutput, Inner.onScreen, hs]
  refine ⟨fun s hs ↦ ?_, fun hr ↦ ?_⟩
  · simp only [Inner.feedOutput, Inner.onScreen, Option.map_map] at hs
    obtain ⟨s', hs', rfl⟩ := Option.map_eq_some_iff.1 hs
    obtain ⟨s₀, hstart, rfl, hfeeds⟩ := h.replay s' hs'
    refine ⟨s₀, hstart, ?_, ?_⟩
    · rw [hops _ hs', List.foldl_append, List.foldl_append]
      rfl
    · rw [hops _ hs', feedsOf_append, feedsOf_append, hfeeds]
      exact List.append_nil _
  · have := h.running hr
    simpa [Inner.feedOutput, Inner.onScreen] using this

theorem Shows.onOutput (data : Bytes) :
    Shows screens start (g.onOutput screens env data) := by
  have hsent : Shows screens start
      ((g.feedOutput screens data).broadcast screens env (.output data)) :=
    (h.feedOutput data).broadcast _
  simp only [Inner.onOutput]
  split
  · exact hsent.broadcast _
  · exact hsent

theorem Shows.welcome (id : ℕ) (snapshot : Bool) :
    Shows screens start (g.welcome screens id snapshot).1 := by
  rcases welcome_cases screens id snapshot (g := g) with he | he <;> rw [he]
  · exact h
  · exact h.onScreen rfl

/-- **The screen shows exactly the output processed**, whatever else is done. -/
theorem Shows.step (l : Op × Env) :
    Shows screens start (g.step screens l) := by
  obtain ⟨op, env⟩ := l
  have h₀ : Shows screens start { g with untold := false } := h.of_eq rfl rfl rfl id
  simp only [Inner.step]
  generalize ({ g with untold := false } : Inner S) = g at h₀
  cases op with
  | attach skipped hello =>
    simp only [Inner.attach]
    split
    · exact h₀
    · have hjoin : Shows screens start (g.join (g.next + skipped) hello) :=
        h₀.of_eq rfl rfl rfl id
      have hsized : Shows screens start
          ((g.join (g.next + skipped) hello).applySize screens env) := rides_shows.applySize hjoin
      have hwelcome := hsized.welcome (g.next + skipped) hello.snapshot
      simp only [Inner.attachRunning]
      refine Shows.broadcast ?_ _
      exact hwelcome.of_eq rfl rfl rfl id
    · exact (h₀.welcome _ _).of_eq rfl rfl rfl id
  | input client data =>
    simp only [Inner.input]
    split
    · exact h₀
    · exact h₀.of_eq rfl rfl rfl id
    · split
      · exact h₀
      · have htouch : Shows screens start (g.touch client) := h₀.of_eq rfl rfl rfl id
        have hsized : Shows screens start ((g.touch client).applySize screens env) :=
          rides_shows.applySize htouch
        exact hsized.of_eq rfl rfl rfl id
  | resize client size =>
    simp only [Inner.resize]
    split
    · exact h₀
    · exact rides_shows.applySize (h₀.of_eq rfl rfl rfl id)
  | control client take =>
    have hpass : Shows screens start (g.passControl client take) := by
      unfold Inner.passControl
      split <;> exact h₀.of_eq rfl rfl rfl id
    simp only [Inner.control]
    repeat' split
    all_goals first | exact h₀ | skip
    exact rides_shows.applySize (hpass.broadcast _)
  | detach client =>
    simp only [Inner.detach]
    split
    · exact rides_shows.membershipChanged (h₀.of_eq rfl rfl rfl id)
    · exact h₀
  | output data => exact h₀.onOutput data
  | exit code signal =>
    simp only [Inner.onExit]
    split
    · exact h₀
    · exact h₀.of_eq rfl rfl rfl fun hr ↦ by cases hr
  | snapshot => exact h₀.onScreen rfl
  | tick idle =>
    simp only [Inner.tick]
    split
    · exact (h₀.onScreen (show feedsOf [.compact] = [] from rfl)).of_eq rfl rfl rfl id
    · exact h₀
  | dropScreen =>
    simp only [Inner.dropScreen]
    split
    · next hr => exact ⟨fun s hs ↦ absurd hs (Option.some_ne_none s).symm, fun h ↦ absurd h hr⟩
    · exact h₀

end

/-! ### One client's queue -/

/-- The queue of a client that is gone: cut off at some output, or ended by the exit. -/
def Cut (first : List TermEvent) (n₀ : ℕ) (g : Inner S) (inbox : List TermEvent) : Prop :=
  (∃ evs, inbox = first ++ evs ∧ (∀ ev ∈ evs, ev.Live) ∧ outputsOf evs <+: g.outputs.drop n₀) ∨
    g.record.state ≠ .running ∧ g.ended ≤ g.outputs.length ∧
      ∃ evs code signal, inbox = first ++ evs ++ [.exit code signal] ∧ (∀ ev ∈ evs, ev.Live) ∧
        outputsOf evs = (g.outputs.take g.ended).drop n₀

/-- Clients with the id `id` got `first`, when `n₀` outputs had been processed, and then the outputs
`out`; they know the size `size`. -/
structure Streams (id : ℕ) (first : List TermEvent) (n₀ : ℕ) (out : List Bytes) (size : PtySize)
    (g : Inner S) : Prop where
  here : ∀ c ∈ g.clients, c.id = id → c.ready = true ∧ Follows first out size c.inbox
  gone : ∀ c ∈ g.gone, c.id = id → Cut first n₀ g c.inbox
  has : g.Has id
  fresh : id < g.next
  since : n₀ ≤ g.outputs.length
  sent : out <+: g.outputs.drop n₀

variable {id n₀ : ℕ} {first : List TermEvent} {out : List Bytes} {size size' : PtySize}

theorem cut_of_follows (h : Follows first out size inbox)
    (hout : out <+: g.outputs.drop n₀) : Cut first n₀ g inbox := by
  obtain ⟨evs, hinbox, hlive, rfl, -⟩ := h
  exact .inl ⟨evs, hinbox, hlive, hout⟩

theorem Cut.of_eq (h : Cut first n₀ g inbox) (houtputs : g'.outputs = g.outputs)
    (hended : g'.ended = g.ended)
    (hstate : g'.record.state = g.record.state) : Cut first n₀ g' inbox := by
  unfold Cut
  rw [houtputs, hended, hstate]
  exact h

/-- A client that is gone does not see what is processed later. -/
theorem Cut.feedOutput (h : Cut first n₀ g inbox) (hn₀ : n₀ ≤ g.outputs.length)
    (data : Bytes) : Cut first n₀ (g.feedOutput screens data) inbox := by
  rcases h with ⟨evs, hinbox, hlive, hout⟩ | ⟨hstate, hended, evs, code, signal, hinbox, hlive, hout⟩
  · refine .inl ⟨evs, hinbox, hlive, hout.trans ?_⟩
    show g.outputs.drop n₀ <+: (g.outputs ++ [data]).drop n₀
    rw [List.drop_append_of_le_length hn₀]
    exact List.prefix_append _ _
  · refine .inr ⟨hstate, ?_, evs, code, signal, hinbox, hlive, ?_⟩
    · show g.ended ≤ (g.outputs ++ [data]).length
      rw [List.length_append]
      omega
    · show outputsOf evs = ((g.outputs ++ [data]).take g.ended).drop n₀
      rw [List.take_append_of_le_length hended]
      exact hout

theorem Streams.of_eq (h : Streams id first n₀ out size g) (hclients : g'.clients = g.clients)
    (hgone : g'.gone = g.gone) (hnext : g.next ≤ g'.next) (houtputs : g'.outputs = g.outputs)
    (hended : g'.ended = g.ended) (hstate : g'.record.state = g.record.state) :
    Streams id first n₀ out size g' where
  here c hc hid := h.here c (hclients ▸ hc) hid
  gone c hc hid := (h.gone c (hgone ▸ hc) hid).of_eq houtputs hended hstate
  has := by
    unfold Has
    rw [hclients, hgone]
    exact h.has
  fresh := Nat.lt_of_lt_of_le h.fresh hnext
  since := houtputs ▸ h.since
  sent := houtputs ▸ h.sent

/-- **One more live event**: the client gets it, or is gone. -/
theorem Streams.sendAll (h : Streams id first n₀ out size g) (hev : ev.Live)
    (hsize : sizeAfter (some size) ev = some size')
    (hout : out ++ outputsOf [ev] <+: g.outputs.drop n₀) :
    Streams id first n₀ (out ++ outputsOf [ev]) size' (g.sendAll env ev) where
  here c' hc' hid := by
    obtain ⟨c, hc, -, rfl⟩ := exists_of_mem_sendAll hc'
    have hcid : c.id = id := by
      rw [← hid]
      split <;> rfl
    obtain ⟨hready, hfollows⟩ := h.here c hc hcid
    rw [if_pos hready]
    exact ⟨hready, hfollows.concat hev hsize⟩
  gone c hc hid := by
    rcases List.mem_append.1 hc with hc | hc
    · exact h.gone c hc hid
    · exact cut_of_follows (h.here c (List.mem_of_mem_filter hc) hid).2 h.sent
  has := (has_sendAll env g ev id).2 h.has
  fresh := h.fresh
  since := h.since
  sent := hout

/-- Events of a clean-up carry no output and no size. -/
theorem Streams.sendHousekeeping (h : Streams id first n₀ out size g) (hev : ev.Housekeeping) :
    Streams id first n₀ out size (g.sendAll env ev) := by
  have hlive : ev.Live := by
    cases ev <;> trivial
  have hnone : outputsOf [ev] = [] := by
    cases ev <;> first | rfl | cases hev
  have hsize : sizeAfter (some size) ev = some size := by
    cases ev <;> first | rfl | cases hev
  have hsent : Streams id first n₀ (out ++ outputsOf [ev]) size (g.sendAll env ev) :=
    h.sendAll hlive hsize (by simpa [hnone] using h.sent)
  simpa [hnone] using hsent

/-- **A clean-up keeps the streams**: whoever stays knows the size it ends with. -/
theorem rides_streams : Rides screens env fun g : Inner S ↦
    Streams id first n₀ out g.record.size g where
  forget _ _ _ _ h := h.of_eq rfl rfl (Nat.le_refl _) rfl rfl rfl
  send _ _ hev h := h.sendHousekeeping hev
  resize g size h := by
    have hsized : Streams id first n₀ out g.record.size (g.resizeTo screens size) :=
      h.of_eq rfl rfl (Nat.le_refl _) rfl rfl rfl
    have hsent : Streams id first n₀ (out ++ outputsOf [.resized size]) size
        ((g.resizeTo screens size).sendAll env (.resized size)) :=
      hsized.sendAll trivial rfl (by simpa [outputsOf] using hsized.sent)
    have hnone : outputsOf [.resized size] = [] := rfl
    rw [hnone, List.append_nil] at hsent
    exact hsent

/-- A client's stream is complete up to now. -/
def Tracked (id : ℕ) (first : List TermEvent) (n₀ : ℕ) (g : Inner S) : Prop :=
  Streams id first n₀ (g.outputs.drop n₀) g.record.size g

theorem Tracked.of_eq (h : Tracked id first n₀ g) (hclients : g'.clients = g.clients)
    (hgone : g'.gone = g.gone) (hnext : g.next ≤ g'.next) (houtputs : g'.outputs = g.outputs)
    (hended : g'.ended = g.ended) (hstate : g'.record.state = g.record.state)
    (hsize : g'.record.size = g.record.size) : Tracked id first n₀ g' := by
  unfold Tracked
  rw [houtputs, hsize]
  exact Streams.of_eq h hclients hgone hnext houtputs hended hstate

theorem Tracked.applySize (h : Tracked id first n₀ g) :
    Tracked id first n₀ (g.applySize screens env) := by
  unfold Tracked
  rw [(frame_applySize screens env g).outputs]
  exact rides_streams.applySize h

theorem Tracked.membershipChanged (h : Tracked id first n₀ g) :
    Tracked id first n₀ (g.membershipChanged screens env) := by
  unfold Tracked
  rw [(frame_membershipChanged screens env g).outputs]
  exact rides_streams.membershipChanged h

/-- A broadcast that completes the streams. -/
theorem Streams.broadcast (h : Streams id first n₀ out g.record.size g) (hev : ev.Live)
    (hsize : ∀ size, sizeAfter (some size) ev = some size)
    (hout : out ++ outputsOf [ev] = g.outputs.drop n₀) :
    Tracked id first n₀ (g.broadcast screens env ev) := by
  have hsent : Streams id first n₀ (out ++ outputsOf [ev]) g.record.size (g.sendAll env ev) :=
    h.sendAll hev (hsize _) (hout ▸ List.prefix_refl _)
  unfold Tracked
  rw [(frame_broadcast screens env g ev).outputs, ← hout]
  exact rides_streams.broadcast hsent

theorem Tracked.broadcast (h : Tracked id first n₀ g) (hev : ev.Live)
    (hsize : ∀ size, sizeAfter (some size) ev = some size) (hnone : outputsOf [ev] = []) :
    Tracked id first n₀ (g.broadcast screens env ev) :=
  Streams.broadcast h hev hsize (by rw [hnone, List.append_nil])

/-- What is done to a client by itself. -/
theorem Tracked.mapClients (h : Tracked id first n₀ g) (hf : ∀ c, (f c).id = c.id)
    (hqueue : ∀ c out size, c.id = id →
      c.ready = true ∧ Follows first out size c.inbox →
        (f c).ready = true ∧ Follows first out size (f c).inbox) :
    Tracked id first n₀ { g with clients := g.clients.map f } where
  here c' hc' hid := by
    obtain ⟨c, hc, rfl⟩ := List.mem_map.1 hc'
    have hcid : c.id = id := (hf c).symm.trans hid
    exact hqueue c _ _ hcid (h.here c hc hcid)
  gone := h.gone
  has := by
    obtain ⟨c, hc, hid⟩ := h.has
    rcases List.mem_append.1 hc with hc | hc
    · exact ⟨f c, List.mem_append_left _ (List.mem_map_of_mem hc), (hf c).trans hid⟩
    · exact ⟨c, List.mem_append_right _ hc, hid⟩
  fresh := h.fresh
  since := h.since
  sent := h.sent

/-! ### One operation -/

section

variable (h : Tracked id first n₀ g)
include h

/-- **Output reaches every client** that stays, once. -/
theorem Tracked.onOutput (data : Bytes) :
    Tracked id first n₀ (g.onOutput screens env data) := by
  have hdrop : (g.outputs ++ [data]).drop n₀ = g.outputs.drop n₀ ++ [data] :=
    List.drop_append_of_le_length h.since
  have hfed : Streams id first n₀ (g.outputs.drop n₀) g.record.size (g.feedOutput screens data) :=
    { here := h.here
      gone := fun c hc hid ↦ (h.gone c hc hid).feedOutput h.since data
      has := h.has
      fresh := h.fresh
      since := by
        show n₀ ≤ (g.outputs ++ [data]).length
        rw [List.length_append]
        exact Nat.le_add_right_of_le h.since
      sent := by
        show g.outputs.drop n₀ <+: (g.outputs ++ [data]).drop n₀
        rw [hdrop]
        exact List.prefix_append _ _ }
  have hsent : Tracked id first n₀ ((g.feedOutput screens data).broadcast screens env (.output data)) :=
    Streams.broadcast hfed trivial (fun _ ↦ rfl) hdrop.symm
  simp only [Inner.onOutput]
  split
  · exact hsent.broadcast trivial (fun _ ↦ rfl) rfl
  · exact hsent

/-- **The exit comes last.** -/
theorem Tracked.onExit (code signal : Option ℤ) :
    Tracked id first n₀ (g.onExit env code signal) := by
  unfold Inner.onExit
  split
  · exact h
  next hrun =>
  have hrunning : g.record.state = .running := Decidable.not_not.1 hrun
  refine ⟨nofun, ?_, ?_, h.fresh, h.since, h.sent⟩
  · intro c' hc' hid
    rcases List.mem_append.1 hc' with hc' | hc'
    · have hcut : Cut first n₀ g c'.inbox := by
        rcases List.mem_append.1 hc' with hc' | hc'
        · exact h.gone c' hc' hid
        · exact cut_of_follows (h.here c' (List.mem_of_mem_filter hc') hid).2 h.sent
      rcases hcut with hcut | ⟨hne, -⟩
      · exact .inl hcut
      · exact absurd hrunning hne
    · obtain ⟨c, hc, -, rfl⟩ := exists_of_mem_sendAll hc'
      have hcid : c.id = id := by
        rw [← hid]
        split <;> rfl
      obtain ⟨hready, evs, hinbox, hlive, hout, -⟩ := h.here c hc hcid
      rw [if_pos hready]
      refine .inr ⟨nofun, Nat.le_refl _, evs, code, signal, ?_, hlive, ?_⟩
      · rw [← hinbox]
        rfl
      · show outputsOf evs = (g.outputs.take g.outputs.length).drop n₀
        rw [List.take_length]
        exact hout
  · obtain ⟨c, hc, hid⟩ := (has_sendAll env { g with record := { g.record with
        state := .exited, pid := none, exitCode := code, signal := signal } }
      (.exit code signal) id).2 h.has
    refine ⟨c, List.mem_append_right _ ?_, hid⟩
    rcases List.mem_append.1 hc with hc | hc
    · exact List.mem_append_right _ hc
    · exact List.mem_append_left _ hc

theorem Tracked.welcome (id' : ℕ) (snapshot : Bool) :
    Tracked id first n₀ (g.welcome screens id' snapshot).1 := by
  rcases welcome_cases screens id' snapshot (g := g) with he | he <;> rw [he]
  · exact h
  · exact h.of_eq rfl rfl (Nat.le_refl _) rfl rfl rfl rfl

/-- Another client attaches. -/
theorem Tracked.attachRunning {id' : ℕ} (hid' : g.next ≤ id')
    (hello : TermHello) : Tracked id first n₀ (g.attachRunning screens env id' hello) := by
  have hne : id' ≠ id := by
    have := h.fresh
    omega
  have hjoin : Tracked id first n₀ (g.join id' hello) :=
    { here := fun c hc hid ↦ by
        rcases List.mem_append.1 hc with hc | hc
        · exact h.here c hc hid
        · obtain rfl := List.mem_singleton.1 hc
          exact absurd hid hne
      gone := h.gone
      has := by
        obtain ⟨c, hc, hid⟩ := h.has
        refine ⟨c, ?_, hid⟩
        rcases List.mem_append.1 hc with hc | hc
        · exact List.mem_append_left _ (List.mem_append_left _ hc)
        · exact List.mem_append_right _ hc
      fresh := Nat.lt_succ_of_le (Nat.le_trans (Nat.le_of_lt h.fresh) hid')
      since := h.since
      sent := h.sent }
  have hsized : Tracked id first n₀ ((g.join id' hello).applySize screens env) := hjoin.applySize
  simp only [Inner.attachRunning]
  refine Tracked.broadcast ?_ trivial (fun _ ↦ rfl) rfl
  refine (hsized.welcome id' hello.snapshot).mapClients (fun c ↦ by split <;> rfl)
    fun c out size hid hq ↦ ?_
  rw [if_neg (fun he ↦ hne (he.symm.trans hid))]
  exact hq

theorem Tracked.sendTo (client : ℕ) (hev : ev.Live)
    (hsize : ∀ size, sizeAfter (some size) ev = some size) (hnone : outputsOf [ev] = []) :
    Tracked id first n₀ (g.sendTo env client ev) := by
  have hqueued := h.mapClients (f := fun c ↦
    if c.id = client ∧ env g.sends c.id then c.queue ev else c) (fun c ↦ by split <;> rfl) ?_
  · exact hqueued.of_eq rfl rfl (Nat.le_refl _) rfl rfl rfl rfl
  · rintro c out size - ⟨hready, hfollows⟩
    split
    · have hmore := hfollows.concat hev (hsize size)
      rw [hnone, List.append_nil] at hmore
      exact ⟨hready, hmore⟩
    · exact ⟨hready, hfollows⟩

theorem Tracked.leave (client : ℕ) :
    Tracked id first n₀ (g.leave client) where
  here c hc hid := h.here c (List.mem_of_mem_filter hc) hid
  gone c hc hid := by
    rcases List.mem_append.1 hc with hc | hc
    · exact h.gone c hc hid
    · exact cut_of_follows (h.here c (List.mem_of_mem_filter hc) hid).2 h.sent
  has := by
    obtain ⟨c, hc, hid⟩ := h.has
    refine ⟨c, ?_, hid⟩
    rcases List.mem_append.1 hc with hc | hc
    · by_cases hleave : c.id = client
      · exact List.mem_append_right _
          (List.mem_append_right _ (List.mem_filter.2 ⟨hc, by simpa using hleave⟩))
      · exact List.mem_append_left _ (List.mem_filter.2 ⟨hc, by simpa using hleave⟩)
    · exact List.mem_append_right _ (List.mem_append_left _ hc)
  fresh := h.fresh
  since := h.since
  sent := h.sent

/-- **A stream stays complete**, whatever is done to the session. -/
theorem Tracked.step (l : Op × Env) :
    Tracked id first n₀ (g.step screens l) := by
  obtain ⟨op, env⟩ := l
  have h₀ : Tracked id first n₀ { g with untold := false } :=
    h.of_eq rfl rfl (Nat.le_refl _) rfl rfl rfl rfl
  simp only [Inner.step]
  generalize ({ g with untold := false } : Inner S) = g at h₀
  cases op with
  | attach skipped hello =>
    simp only [Inner.attach]
    split
    · exact h₀
    · exact h₀.attachRunning (Nat.le_add_right _ _) hello
    · have hnext : g.next ≤ g.next + skipped + 1 := by omega
      rcases welcome_cases screens (g.next + skipped) hello.snapshot (g := g) with he | he <;> rw [he]
      · exact h₀.of_eq rfl rfl hnext rfl rfl rfl rfl
      · exact h₀.of_eq rfl rfl hnext rfl rfl rfl rfl
  | input client data =>
    simp only [Inner.input]
    split
    · exact h₀
    · exact h₀.sendTo client trivial (fun _ ↦ rfl) rfl
    · split
      · exact h₀
      · have htouch : Tracked id first n₀ (g.touch client) :=
          h₀.of_eq rfl rfl (Nat.le_refl _) rfl rfl rfl rfl
        have hsized : Tracked id first n₀ ((g.touch client).applySize screens env) :=
          htouch.applySize
        exact hsized.of_eq rfl rfl (Nat.le_refl _) rfl rfl rfl rfl
  | resize client size =>
    simp only [Inner.resize]
    split
    · exact h₀
    · refine Tracked.applySize (h₀.mapClients (fun c ↦ by split <;> rfl) fun c out size _ hq ↦ ?_)
      split
      · exact hq
      · exact hq
  | control client take =>
    have hpass : Tracked id first n₀ (g.passControl client take) := by
      unfold Inner.passControl
      split <;> exact h₀.of_eq rfl rfl (Nat.le_refl _) rfl rfl rfl rfl
    simp only [Inner.control]
    repeat' split
    all_goals first | exact h₀ | skip
    refine Tracked.applySize (hpass.broadcast ?_ (fun _ ↦ rfl) rfl)
    exact trivial
  | detach client =>
    simp only [Inner.detach]
    split
    · exact (h₀.leave client).membershipChanged
    · exact h₀
  | output data => exact h₀.onOutput data
  | exit code signal => exact h₀.onExit code signal
  | snapshot => exact h₀.of_eq rfl rfl (Nat.le_refl _) rfl rfl rfl rfl
  | tick idle =>
    simp only [Inner.tick]
    split
    · exact h₀.of_eq rfl rfl (Nat.le_refl _) rfl rfl rfl rfl
    · exact h₀
  | dropScreen =>
    simp only [Inner.dropScreen]
    split
    · exact h₀.of_eq rfl rfl (Nat.le_refl _) rfl rfl rfl rfl
    · exact h₀

end

/-! ### A client attaches -/

/-- Every client has had an id below the next. -/
def Fresh (g : Inner S) : Prop := ∀ id, g.Has id → id < g.next

theorem Fresh.frame (h : Fresh g) (hf : Frame g g') : Fresh g' := fun id hid ↦
  hf.next.symm ▸ h id ((hf.has id).1 hid)

theorem Fresh.of_has (h : Fresh g) (hhas : ∀ id, g'.Has id → g.Has id) (hnext : g.next ≤ g'.next) :
    Fresh g' := fun id hid ↦ Nat.lt_of_lt_of_le (h id (hhas id hid)) hnext

theorem Fresh.mapClients (h : Fresh g) (hf : ∀ c, (f c).id = c.id) :
    Fresh { g with clients := g.clients.map f } := by
  refine h.of_has (fun id hid ↦ ?_) (Nat.le_refl _)
  obtain ⟨c', hc', rfl⟩ := hid
  rcases List.mem_append.1 hc' with hc' | hc'
  · obtain ⟨c, hc, rfl⟩ := List.mem_map.1 hc'
    exact ⟨c, List.mem_append_left _ hc, (hf c).symm⟩
  · exact ⟨c', List.mem_append_right _ hc', rfl⟩

theorem Fresh.join (h : Fresh g) {id : ℕ} (hid : g.next ≤ id) (hello : TermHello) :
    Fresh (g.join id hello) := by
  rintro k ⟨c, hc, rfl⟩
  show c.id < id + 1
  rcases List.mem_append.1 hc with hc | hc
  · rcases List.mem_append.1 hc with hc | hc
    · have := h c.id ⟨c, List.mem_append_left _ hc, rfl⟩
      omega
    · obtain rfl := List.mem_singleton.1 hc
      exact Nat.lt_succ_self _
  · have := h c.id ⟨c, List.mem_append_right _ hc, rfl⟩
    omega

theorem Fresh.welcome (h : Fresh g) (id : ℕ) (snapshot : Bool) :
    Fresh (g.welcome screens id snapshot).1 := by
  rcases welcome_cases screens id snapshot (g := g) with he | he <;> rw [he]
  · exact h
  · exact h

theorem Fresh.step (h : Fresh g) (l : Op × Env) : Fresh (g.step screens l) := by
  obtain ⟨op, env⟩ := l
  have h₀ : Fresh { g with untold := false } := h
  simp only [Inner.step]
  generalize ({ g with untold := false } : Inner S) = g at h₀
  cases op with
  | attach skipped hello =>
    simp only [Inner.attach]
    split
    · exact h₀
    · have hjoin := (h₀.join (Nat.le_add_right g.next skipped) hello).frame
        (frame_applySize screens env _)
      simp only [Inner.attachRunning]
      refine Fresh.frame ?_ (frame_broadcast screens env _ _)
      exact (hjoin.welcome (g.next + skipped) hello.snapshot).mapClients fun c ↦ by split <;> rfl
    · have hnext : g.next ≤ g.next + skipped + 1 := by omega
      rcases welcome_cases screens (g.next + skipped) hello.snapshot (g := g) with he | he <;> rw [he]
      · exact h₀.of_has (fun _ h ↦ h) hnext
      · exact h₀.of_has (fun _ h ↦ h) hnext
  | input client data =>
    simp only [Inner.input]
    split
    · exact h₀
    · exact h₀.mapClients fun c ↦ by split <;> rfl
    · split
      · exact h₀
      · have htouch : Fresh (g.touch client) := h₀
        have hsized := htouch.frame (frame_applySize screens env _)
        exact hsized
  | resize client size =>
    simp only [Inner.resize]
    split
    · exact h₀
    · refine Fresh.frame ?_ (frame_applySize screens env _)
      exact h₀.mapClients fun c ↦ by split <;> rfl
  | control client take =>
    have hpass : Fresh (g.passControl client take) := by
      unfold Inner.passControl
      split <;> exact h₀
    simp only [Inner.control]
    repeat' split
    all_goals first | exact h₀ | skip
    exact (hpass.frame (frame_broadcast screens env _ _)).frame (frame_applySize screens env _)
  | detach client =>
    simp only [Inner.detach]
    split
    · refine Fresh.frame ?_ (frame_membershipChanged screens env _)
      refine h₀.of_has (fun id hid ↦ ?_) (Nat.le_refl _)
      obtain ⟨c, hc, rfl⟩ := hid
      refine ⟨c, ?_, rfl⟩
      simp only [Inner.leave, List.mem_append, List.mem_filter] at hc ⊢
      tauto
    · exact h₀
  | output data =>
    have hfed : Fresh (g.feedOutput screens data) := h₀
    have hsent := hfed.frame (frame_broadcast screens env _ (.output data))
    simp only [Inner.onOutput]
    split
    · exact hsent.frame (frame_broadcast screens env _ _)
    · exact hsent
  | exit code signal =>
    simp only [Inner.onExit]
    split
    · exact h₀
    · refine h₀.of_has (fun id hid ↦ ?_) (Nat.le_refl _)
      refine (has_sendAll env g (.exit code signal) id).1 ?_
      obtain ⟨c, hc, rfl⟩ := hid
      refine ⟨c, ?_, rfl⟩
      rcases List.mem_append.1 hc with hc | hc
      · cases hc
      · exact List.mem_append.2 ((List.mem_append.1 hc).symm)
  | snapshot => exact h₀
  | tick idle =>
    simp only [Inner.tick]
    split
    · exact h₀
    · exact h₀
  | dropScreen =>
    simp only [Inner.dropScreen]
    split
    · exact h₀
    · exact h₀

/-- The client that is being attached: it is registered, not ready, and got nothing yet. -/
structure Quiet (id : ℕ) (g : Inner S) : Prop where
  here : ∀ c ∈ g.clients, c.id = id → c.ready = false ∧ c.inbox = []
  gone : ∀ c ∈ g.gone, c.id ≠ id
  has : g.Has id

/-- Who is not ready gets nothing, and is not dropped. -/
theorem Quiet.sendAll (h : Quiet id g) : Quiet id (g.sendAll env ev) where
  here c' hc' hid := by
    obtain ⟨c, hc, -, rfl⟩ := exists_of_mem_sendAll hc'
    have hcid : c.id = id := by
      rw [← hid]
      split <;> rfl
    obtain ⟨hready, hinbox⟩ := h.here c hc hcid
    simp [hready, hinbox]
  gone c hc hid := by
    rcases List.mem_append.1 hc with hc | hc
    · exact h.gone c hc hid
    · obtain ⟨hc, hdrop⟩ := List.mem_filter.1 hc
      simp [keeps, (h.here c hc hid).1] at hdrop
  has := (has_sendAll env g ev id).2 h.has

theorem rides_quiet : Rides screens env (Quiet id) where
  forget _ _ _ _ h := ⟨h.here, h.gone, h.has⟩
  send _ _ _ h := h.sendAll
  resize g size h := by
    have hsized : Quiet id (g.resizeTo screens size) := ⟨h.here, h.gone, h.has⟩
    exact hsized.sendAll

theorem Fresh.quiet_join (h : Fresh g) (hid : g.next ≤ id) (hello : TermHello) :
    Quiet id (g.join id hello) := by
  have hnone : ¬ g.Has id := fun hhas ↦ Nat.not_lt.2 hid (h id hhas)
  refine ⟨fun c hc hcid ↦ ?_, fun c hc hcid ↦ ?_, ?_⟩
  · rcases List.mem_append.1 hc with hc | hc
    · exact absurd ⟨c, List.mem_append_left _ hc, hcid⟩ hnone
    · obtain rfl := List.mem_singleton.1 hc
      exact ⟨rfl, rfl⟩
  · exact hnone ⟨c, List.mem_append_right _ hc, hcid⟩
  · exact ⟨_, List.mem_append_left _ (List.mem_append_right _ List.mem_cons_self), rfl⟩

/-- The first events of a client that asked for the screen, when the session is `g`. -/
def firstEvents (screens : ScreenModel S) (id : ℕ) (g : Inner S) (s : S) : List TermEvent :=
  [.attached id (g.info screens), .snapshot g.record.size (screens.snapshot s).1]

/-- The new client's stream begins. -/
theorem Quiet.makeReady (h : Quiet id g) (hid : id < g.next) (screens : ScreenModel S) (s : S) :
    Tracked id (firstEvents screens id g s) g.outputs.length
      (g.makeReady id (firstEvents screens id g s)) where
  here c' hc' hcid' := by
    obtain ⟨c, hc, rfl⟩ := List.mem_map.1 hc'
    have hcid : c.id = id := by
      rw [← hcid']
      split <;> rfl
    rw [if_pos hcid, (h.here c hc hcid).2]
    refine ⟨rfl, ?_⟩
    show Follows _ (g.outputs.drop g.outputs.length) g.record.size _
    rw [List.drop_length]
    split
    · refine ⟨[.control _], rfl, fun ev hev ↦ ?_, rfl, rfl⟩
      obtain rfl := List.mem_singleton.1 hev
      trivial
    · rw [List.nil_append]
      exact ⟨[], rfl, fun _ hev ↦ absurd hev List.not_mem_nil, rfl, rfl⟩
  gone c hc hcid := absurd hcid (h.gone c hc)
  has := by
    obtain ⟨c, hc, hcid⟩ := h.has
    rcases List.mem_append.1 hc with hc | hc
    · exact ⟨_, List.mem_append_left _ (List.mem_map_of_mem hc), by rw [if_pos hcid]; exact hcid⟩
    · exact absurd hcid (h.gone c hc)
  fresh := hid
  since := Nat.le_refl _
  sent := by
    show g.outputs.drop g.outputs.length <+: g.outputs.drop g.outputs.length
    exact List.prefix_refl _

/-- **Attaching begins a stream** with the screen as it is after the size policy. -/
theorem Fresh.tracked_attachRunning (h : Fresh g) (hid : g.next ≤ id) {hello : TermHello}
    (hsnapshot : hello.snapshot = true) {s : S}
    (hs : ((g.join id hello).applySize screens env).screen = some s) :
    Tracked id (firstEvents screens id ((g.join id hello).applySize screens env) s)
      g.outputs.length (g.attachRunning screens env id hello) := by
  have hframe := frame_applySize screens env (g.join id hello)
  have hquiet : Quiet id ((g.join id hello).applySize screens env) :=
    rides_quiet.applySize (h.quiet_join hid hello)
  have hwelcome : ((g.join id hello).applySize screens env).welcome screens id hello.snapshot =
      (((g.join id hello).applySize screens env).onScreen screens .snapshot,
        firstEvents screens id ((g.join id hello).applySize screens env) s) := by
    simp [Inner.welcome, hs, hsnapshot, firstEvents]
  have hnext : id < ((g.join id hello).applySize screens env).next :=
    hframe.next ▸ Nat.lt_succ_self id
  have hready := hquiet.makeReady hnext screens s
  rw [hframe.outputs] at hready
  simp only [Inner.attachRunning, hwelcome]
  refine Tracked.broadcast ?_ trivial (fun _ ↦ rfl) rfl
  exact hready.of_eq rfl rfl (Nat.le_refl _) rfl rfl rfl rfl

/-! ### Runs -/

theorem fresh_initial (origin : Origin) : Fresh (origin.initial screens) := by
  rintro id ⟨c, hc, -⟩
  cases origin <;> cases hc

theorem shows_initial (origin : Origin) :
    Shows screens (origin.initial screens).screen (origin.initial screens) := by
  cases origin with
  | start record restore =>
    refine ⟨fun s hs ↦ ⟨s, hs, rfl, rfl⟩, fun _ ↦ ?_⟩
    simp only [Origin.initial, Inner.start]
    split <;> rfl
  | inert record h => exact ⟨nofun, fun hr ↦ absurd hr h⟩

theorem Tracked.foldl (h : Tracked id first n₀ g) (ls : List (Op × Env)) :
    Tracked id first n₀ (ls.foldl (Inner.step screens) g) := by
  induction ls generalizing g with
  | nil => exact h
  | cons l ls ih => exact ih (h.step l)

/-- The session after a list of operations. -/
def run (screens : ScreenModel S) (origin : Origin) (ls : List (Op × Env)) : Inner S :=
  ls.foldl (Inner.step screens) (origin.initial screens)

theorem fresh_run (origin : Origin) (ls : List (Op × Env)) : Fresh (run screens origin ls) := by
  induction ls using List.reverseRecOn with
  | nil => exact fresh_initial origin
  | append_singleton ls l ih =>
    rw [run, List.foldl_concat]
    exact Fresh.step ih l

theorem shows_run (origin : Origin) (ls : List (Op × Env)) :
    Shows screens (origin.initial screens).screen (run screens origin ls) := by
  induction ls using List.reverseRecOn with
  | nil => exact shows_initial origin
  | append_singleton ls l ih =>
    rw [run, List.foldl_concat]
    exact Shows.step ih l

/-- A shell prints, a client attaches, and the shell prints again. -/
def watching : List (Op × Env) :=
  [(.output [0x61], allTake), (typist 30, allTake), (.output [0x62], allTake)]

end Inner

end Ember.Node.Term
