import Ember.Foundation.Runs
import Ember.Node.Term.Session
import Mathlib.Data.List.Nodup

/-!
# Who has control of a terminal, and who knows

`membership_changed` cleans up after clients that were dropped: it takes control and activity away
from the ones that are gone and sends the new client list. That last send may drop clients itself,
and then nothing cleans up after them.

## What is proved

* `settled_of_reachable` — in every run in which the client list that ends a clean-up is refused by
  no queue: after every operation the controller and the active client are attached and not
  read-only, and every client has been told who has control and who is attached.
* `not_settled_after_refused_list` — the queue of the controller refuses the list that a detach
  sends: the controller is dropped and keeps control.
-/

namespace Ember.Node.Term

/-! ### What a client was told -/

/-- The controller after an event, as its receiver knows it. -/
def controllerAfter (known : Option ℕ) : TermEvent → Option ℕ
  | .control controller => controller.map TermClient.client
  | .attached _ info => info.controller.map TermClient.client
  | _ => known

/-- The controller as the receiver of these events knows it. -/
def toldController (inbox : List TermEvent) : Option ℕ := inbox.foldl controllerAfter none

/-- A client without its size, of which the others are told only with the next list. -/
def TermClient.unsized (c : TermClient) : TermClient := { c with size := none }

/-- The attached clients after an event, as its receiver knows them. -/
def clientsAfter (known : List TermClient) : TermEvent → List TermClient
  | .clients clients => clients.map TermClient.unsized
  | .attached _ info => info.clients.map TermClient.unsized
  | _ => known

/-- The attached clients as the receiver of these events knows them. -/
def toldClients (inbox : List TermEvent) : List TermClient := inbox.foldl clientsAfter []

@[simp] theorem toldController_concat (inbox : List TermEvent) (ev : TermEvent) :
    toldController (inbox ++ [ev]) = controllerAfter (toldController inbox) ev := by
  simp [toldController]

@[simp] theorem toldClients_concat (inbox : List TermEvent) (ev : TermEvent) :
    toldClients (inbox ++ [ev]) = clientsAfter (toldClients inbox) ev := by
  simp [toldClients]

/-- An event that says nothing about control. -/
def TermEvent.NoControl (ev : TermEvent) : Prop := ∀ known, controllerAfter known ev = known

/-- An event that says nothing about the clients either. -/
def TermEvent.Plain (ev : TermEvent) : Prop :=
  ev.NoControl ∧ ∀ known, clientsAfter known ev = known

/-- A client but for the events it got. -/
def Client.bare (c : Client) : Client := { c with inbox := [] }

variable {listed : Bool}

variable {c' c : Client}

namespace Inner

variable {S : Type} {screens : ScreenModel S} {env : Env} {g g' g'' : Inner S} {ev : TermEvent}

/-- **The state a terminal should be in between operations**: whoever has control, or was active
last, is attached and may type, and everybody knows who has control and who is attached. -/
structure Settled (g : Inner S) : Prop where
  controller : ∀ id, g.controller = some id → ∃ c ∈ g.clients, c.id = id ∧ c.readOnly = false
  active : ∀ id, g.active = some id → ∃ c ∈ g.clients, c.id = id ∧ c.readOnly = false
  toldController : ∀ c ∈ g.clients, toldController c.inbox = g.controller
  toldClients : ∀ c ∈ g.clients, toldClients c.inbox = g.publicClients.map TermClient.unsized

/-! ### Clients only leave -/

/-- `g'` has the clients of `g`, but for some that left and for the events they got. -/
structure Narrows (g g' : Inner S) : Prop where
  clients : (g'.clients.map Client.bare).Sublist (g.clients.map Client.bare)
  next : g'.next = g.next

theorem Narrows.refl (g : Inner S) : Narrows g g := ⟨.refl _, rfl⟩

theorem Narrows.trans (h : Narrows g g') (h' : Narrows g' g'') : Narrows g g'' :=
  ⟨h'.clients.trans h.clients, h'.next.trans h.next⟩

theorem Narrows.of_eq (hclients : g'.clients = g.clients) (hnext : g'.next = g.next) :
    Narrows g g' :=
  ⟨by rw [hclients], hnext⟩

theorem Narrows.exists_mem (h : Narrows g g') (hc' : c' ∈ g'.clients) :
    ∃ c ∈ g.clients, c'.id = c.id ∧ c'.readOnly = c.readOnly ∧ c'.ready = c.ready := by
  obtain ⟨c, hc, hbare⟩ := List.mem_map.1 (h.clients.subset (List.mem_map_of_mem hc'))
  have hall := Client.mk.inj hbare
  exact ⟨c, hc, hall.1.symm, hall.2.2.2.2.1.symm, hall.2.2.2.2.2.2.1.symm⟩

theorem Narrows.present {id : ℕ} (h : Narrows g g') (hid : g'.present id = true) :
    g.present id = true := by
  obtain ⟨c', hc', heq⟩ := List.any_eq_true.1 hid
  obtain ⟨c, hc, hcid, -⟩ := h.exists_mem hc'
  exact List.any_eq_true.2 ⟨c, hc, by simpa [← hcid] using heq⟩

theorem Narrows.nodup (h : Narrows g g') (hids : (g.clients.map Client.id).Nodup) :
    (g'.clients.map Client.id).Nodup := by
  have hmap : ∀ cs : List Client, cs.map Client.id = (cs.map Client.bare).map Client.id := by
    intro cs
    rw [List.map_map]
    rfl
  rw [hmap] at hids ⊢
  exact hids.sublist (h.clients.map _)

theorem narrows_sendAll (env : Env) (g : Inner S) (ev : TermEvent) :
    Narrows g (g.sendAll env ev) := by
  refine ⟨?_, rfl⟩
  have hmap : (g.sendAll env ev).clients.map Client.bare =
      (g.clients.filter (g.keeps env)).map Client.bare := by
    rw [sendAll, List.map_map]
    refine List.map_congr_left fun c _ ↦ ?_
    simp only [Function.comp_apply]
    split <;> rfl
  rw [hmap]
  exact List.Sublist.map _ List.filter_sublist

/-- What a client that stays has got. -/
theorem exists_of_mem_sendAll (h : c' ∈ (g.sendAll env ev).clients) :
    ∃ c ∈ g.clients, g.keeps env c = true ∧ c' = if c.ready then c.queue ev else c := by
  obtain ⟨c, hc, rfl⟩ := List.mem_map.1 h
  exact ⟨c, List.mem_of_mem_filter hc, (List.mem_filter.1 hc).2, rfl⟩

/-- A client that stays and is ready has got the event. -/
theorem exists_of_ready_sendAll (h : c' ∈ (g.sendAll env ev).clients)
    (hready : c'.ready = true) : ∃ c ∈ g.clients, c.ready = true ∧ c' = c.queue ev := by
  obtain ⟨c, hc, -, rfl⟩ := exists_of_mem_sendAll h
  split at hready
  case isTrue hc' => exact ⟨c, hc, hc', if_pos hc'⟩
  case isFalse hc' => exact absurd hready hc'

/-- With nobody dropped, all clients stay. -/
theorem publicClients_sendAll (h : g.drops env = false) (ev : TermEvent) :
    (g.sendAll env ev).publicClients = g.publicClients := by
  have hall : g.clients.filter (g.keeps env) = g.clients := by
    refine List.filter_eq_self.2 fun c hc ↦ ?_
    simpa using (List.any_eq_false.1 h) c hc
  rw [publicClients, sendAll, hall, List.map_map, publicClients]
  refine List.map_congr_left fun c _ ↦ ?_
  simp only [Function.comp_apply]
  split <;> rfl

theorem present_eq_of_publicClients (h : g'.publicClients = g.publicClients) (id : ℕ) :
    g'.present id = g.present id := by
  have hany : ∀ g : Inner S, g.present id = g.publicClients.any fun c ↦ c.client = id := by
    intro g
    rw [publicClients, List.any_map]
    rfl
  rw [hany, hany, h]

/-- The controller as the clients are told of it, when it is attached. -/
theorem controllerClient_map (h : ∀ id, g.controller = some id → g.present id = true) :
    g.controllerClient.map TermClient.client = g.controller := by
  unfold controllerClient
  cases hctl : g.controller with
  | none => rfl
  | some id =>
    obtain ⟨c, hc, heq⟩ := List.any_eq_true.1 (h id hctl)
    cases hfind : g.clients.find? fun c ↦ c.id = id with
    | none => exact absurd heq (List.find?_eq_none.1 hfind c hc)
    | some c' =>
      have := List.find?_some hfind
      simp only [Option.bind_some, Option.map_some, hfind, Client.public]
      simpa using this

/-! ### The invariant within an operation -/

/-- What holds at every moment of an operation: no client is attached twice, whoever has control or
was active, if attached, may type, and with the controller attached everybody knows it. -/
structure Fit (g : Inner S) : Prop where
  ids : (g.clients.map Client.id).Nodup
  below : ∀ c ∈ g.clients, c.id < g.next
  idsBelow : ∀ id, g.controller = some id ∨ g.active = some id → id < g.next
  writable : ∀ c ∈ g.clients, g.controller = some c.id ∨ g.active = some c.id → c.readOnly = false
  told : (∀ id, g.controller = some id → g.present id = true) →
    ∀ c ∈ g.clients, c.ready = true → toldController c.inbox = g.controller

/-- Whoever has control or was active is attached. -/
def Current (g : Inner S) : Prop :=
  ∀ id, g.controller = some id ∨ g.active = some id → g.present id = true

/-- Every client that is ready knows who is attached. -/
def Listed (g : Inner S) : Prop :=
  ∀ c ∈ g.clients, c.ready = true → toldClients c.inbox = g.publicClients.map TermClient.unsized

/-- The invariant within an operation; `listed` is whether the clients are to know the list. -/
structure Steady (listed : Bool) (g : Inner S) : Prop where
  fit : Fit g
  current : g.untold = false → Current g
  knows : g.untold = false → listed = true → Listed g

/-- Clients that leave keep the state fit. -/
theorem Fit.narrow (hf : Fit g) (hn : Narrows g g')
    (hcontroller : g'.controller = g.controller ∨ g'.controller = none)
    (hactive : g'.active = g.active ∨ g'.active = none)
    (htold : (∀ id, g'.controller = some id → g'.present id = true) →
      ∀ c ∈ g'.clients, c.ready = true → Term.toldController c.inbox = g'.controller) : Fit g' := by
  have hids : ∀ id, g'.controller = some id ∨ g'.active = some id →
      g.controller = some id ∨ g.active = some id := by
    rintro id (h | h)
    · exact .inl (hcontroller.elim (fun he ↦ he ▸ h) fun he ↦ by simp [he] at h)
    · exact .inr (hactive.elim (fun he ↦ he ▸ h) fun he ↦ by simp [he] at h)
  refine ⟨hn.nodup hf.ids, fun c' hc' ↦ ?_, fun id hid ↦ ?_, fun c' hc' hid ↦ ?_, htold⟩
  · obtain ⟨c, hc, hcid, -⟩ := hn.exists_mem hc'
    rw [hcid, hn.next]
    exact hf.below c hc
  · rw [hn.next]
    exact hf.idsBelow id (hids id hid)
  · obtain ⟨c, hc, hcid, hro, -⟩ := hn.exists_mem hc'
    rw [hro]
    exact hf.writable c hc (hcid ▸ hids c'.id hid)

variable (screens env)

/-- An event that says nothing about control keeps the state fit. -/
theorem Fit.sendAll (hf : Fit g) (hev : ev.NoControl) : Fit (g.sendAll env ev) := by
  refine hf.narrow (narrows_sendAll env g ev) (.inl rfl) (.inl rfl) fun hpresent c' hc' hready ↦ ?_
  have hold : ∀ id, g.controller = some id → g.present id = true := fun id hid ↦
    (narrows_sendAll env g ev).present (hpresent id hid)
  obtain ⟨c, hc, h, rfl⟩ := exists_of_ready_sendAll hc' hready
  rw [Client.queue, toldController_concat, hev]
  exact hf.told hold c hc h

/-- After control was given to somebody else, or to nobody, the news makes the state fit. -/
theorem fit_sendAll_control {controller : Option TermClient} (hids : (g.clients.map Client.id).Nodup)
    (hbelow : ∀ c ∈ g.clients, c.id < g.next)
    (hidsBelow : ∀ id, g.controller = some id ∨ g.active = some id → id < g.next)
    (hwritable : ∀ c ∈ g.clients, g.controller = some c.id ∨ g.active = some c.id →
      c.readOnly = false)
    (heq : (∀ id, g.controller = some id → g.present id = true) →
      controller.map TermClient.client = g.controller) :
    Fit (g.sendAll env (.control controller)) := by
  have hn := narrows_sendAll env g (.control controller)
  refine ⟨hn.nodup hids, fun c' hc' ↦ ?_, hidsBelow, fun c' hc' hid ↦ ?_,
    fun hpresent c' hc' hready ↦ ?_⟩
  · obtain ⟨c, hc, hcid, -⟩ := hn.exists_mem hc'
    exact hcid ▸ hbelow c hc
  · obtain ⟨c, hc, hcid, hro, -⟩ := hn.exists_mem hc'
    exact hro ▸ hwritable c hc (hcid ▸ hid)
  · obtain ⟨c, hc, h, rfl⟩ := exists_of_ready_sendAll hc' hready
    rw [Client.queue, toldController_concat]
    exact heq fun id hid ↦ hn.present (hpresent id hid)

/-! ### One clean-up -/

/-- Control is taken from a client that is gone. -/
theorem Fit.dropController (hf : Fit g) :
    Fit ({ g with controller := none }.sendAll env (.control none)) := by
  refine fit_sendAll_control env hf.ids hf.below (fun id hid ↦ ?_) (fun c hc hid ↦ ?_) fun _ ↦ rfl
  · rcases hid with h | h
    · cases h
    · exact hf.idsBelow id (.inr h)
  · rcases hid with h | h
    · cases h
    · exact hf.writable c hc (.inr h)

/-- After the first part of a clean-up, whoever has control is attached. -/
theorem Fit.settleControl (hf : Fit g) : Fit (g.settleControl env) ∧
    Narrows g (g.settleControl env) ∧
    ∀ id, (g.settleControl env).controller = some id → (g.settleControl env).present id = true := by
  unfold Inner.settleControl
  split
  · next ctl hctl =>
    split
    · next hp =>
      refine ⟨hf, .refl g, fun id hid ↦ ?_⟩
      obtain rfl : ctl = id := by simpa [hctl] using hid
      exact hp
    · have hn : Narrows g { g with controller := none } := .of_eq rfl rfl
      exact ⟨hf.dropController env, hn.trans (narrows_sendAll env _ _), nofun⟩
  · next hctl => exact ⟨hf, .refl g, fun id hid ↦ by simp [hctl] at hid⟩

/-- After the second part, so is whoever was active last. -/
theorem Fit.settleActive (hf : Fit g) (hctl : ∀ id, g.controller = some id → g.present id = true) :
    Fit g.settleActive ∧ Narrows g g.settleActive ∧ Current g.settleActive := by
  unfold Inner.settleActive
  split
  · next a ha =>
    split
    · next hp =>
      refine ⟨hf, .refl g, ?_⟩
      rintro id (hid | hid)
      · exact hctl id hid
      · obtain rfl : a = id := by simpa [ha] using hid
        exact hp
    · have hn : Narrows g { g with active := none } := .of_eq rfl rfl
      refine ⟨hf.narrow hn (.inl rfl) (.inr rfl) hf.told, hn, ?_⟩
      rintro id (hid | hid)
      · exact hctl id hid
      · cases hid
  · next ha =>
    refine ⟨hf, .refl g, ?_⟩
    rintro id (hid | hid)
    · exact hctl id hid
    · simp [ha] at hid

/-- **A clean-up settles the session** when its list is refused by nobody. -/
theorem Fit.settle (hf : Fit g) : Steady true (g.settle env) ∧ Narrows g (g.settle env) := by
  obtain ⟨hf₁, hn₁, hctl₁⟩ := hf.settleControl env
  obtain ⟨hf₂, hn₂, hcur₂⟩ := hf₁.settleActive hctl₁
  unfold Inner.settle
  generalize (g.settleControl env).settleActive = g₂ at hf₂ hn₂ hcur₂
  have hsent : Fit (g₂.sendAll env (.clients g₂.publicClients)) := hf₂.sendAll env fun _ ↦ rfl
  have hn := (hn₁.trans hn₂).trans (narrows_sendAll env g₂ (.clients g₂.publicClients))
  refine ⟨⟨⟨hsent.ids, hsent.below, hsent.idsBelow, hsent.writable, hsent.told⟩, ?_, ?_⟩,
    hn.trans (.of_eq rfl rfl)⟩
  · intro hall id hid
    have hpub := publicClients_sendAll (g := g₂) hall (.clients g₂.publicClients)
    exact (present_eq_of_publicClients hpub id).trans (hcur₂ id hid)
  · intro hall _ c' hc' hready
    have hpub := publicClients_sendAll (g := g₂) hall (.clients g₂.publicClients)
    obtain ⟨c, hc, h, rfl⟩ := exists_of_ready_sendAll hc' hready
    rw [Client.queue, toldClients_concat]
    exact congrArg _ hpub.symm

/-! ### Telling the clients -/

theorem Steady.weaken (h : Steady true g) : Steady listed g :=
  ⟨h.fit, h.current, fun hu _ ↦ h.knows hu rfl⟩

/-- What nobody is told about control or clients, and drops nobody, changes nothing. -/
theorem Steady.sendAll (hs : Steady listed g) (hev : ev.Plain)
    (hall : g.drops env = false) : Steady listed (g.sendAll env ev) := by
  have hpub := publicClients_sendAll hall ev
  refine ⟨hs.fit.sendAll env hev.1, fun hu id hid ↦ ?_, fun hu hl c' hc' hready ↦ ?_⟩
  · exact (present_eq_of_publicClients hpub id).trans (hs.current hu id hid)
  · obtain ⟨c, hc, h, rfl⟩ := exists_of_ready_sendAll hc' hready
    rw [hpub]
    rw [Client.queue, toldClients_concat, hev.2]
    exact hs.knows hu hl c hc h

/-- The record and the terminal model do not matter here. -/
theorem Steady.resizeTo (hs : Steady listed g) (size : PtySize) :
    Steady listed (g.resizeTo screens size) :=
  ⟨⟨hs.fit.ids, hs.fit.below, hs.fit.idsBelow, hs.fit.writable, hs.fit.told⟩, hs.current, hs.knows⟩

/-- **The size policy keeps the invariant**, however many rounds it takes. -/
theorem Steady.applySize (hs : Steady listed g) :
    Steady listed (g.applySize screens env) ∧ Narrows g (g.applySize screens env) := by
  induction hlen : g.clients.length using Nat.strongRecOn generalizing g with
  | ind len ih =>
    subst hlen
    rw [Inner.applySize]
    split
    · exact ⟨hs, .refl g⟩
    · next size _ =>
      have hs₁ : Steady listed (g.resizeTo screens size) := hs.resizeTo screens size
      have hn₁ : Narrows g (g.resizeTo screens size) := .of_eq rfl rfl
      have hn₂ := narrows_sendAll env (g.resizeTo screens size) (.resized size)
      have hplain : (TermEvent.resized size).Plain := ⟨fun _ ↦ rfl, fun _ ↦ rfl⟩
      simp only
      split
      · next hdrop =>
        have hf := hs₁.fit.sendAll env hplain.1
        obtain ⟨hset, hn₃⟩ := hf.settle env
        have hlt := Nat.lt_of_le_of_lt (length_settle_le env _)
          (length_sendAll_lt hdrop (.resized size))
        obtain ⟨hs', hn₄⟩ := ih _ hlt hset.weaken rfl
        exact ⟨hs', hn₁.trans (hn₂.trans (hn₃.trans hn₄))⟩
      · next hdrop => exact ⟨hs₁.sendAll env hplain (by simpa using hdrop), hn₁.trans hn₂⟩

theorem Fit.membershipChanged (hf : Fit g) : Steady true (g.membershipChanged screens env) ∧
    Narrows g (g.membershipChanged screens env) := by
  obtain ⟨hs, hn⟩ := hf.settle env
  obtain ⟨hs', hn'⟩ := hs.applySize screens env
  exact ⟨hs', hn.trans hn'⟩

theorem Steady.broadcast (hs : Steady listed g) (hev : ev.Plain) :
    Steady listed (g.broadcast screens env ev) ∧ Narrows g (g.broadcast screens env ev) := by
  unfold Inner.broadcast
  have hn := narrows_sendAll env g ev
  split
  · obtain ⟨hs', hn'⟩ := (hs.fit.sendAll env hev.1).membershipChanged screens env
    exact ⟨hs'.weaken, hn.trans hn'⟩
  · next h => exact ⟨hs.sendAll env hev (by simpa using h), hn⟩

/-! ### The operations -/

/-- Input that is not refused is of an attached client that may type. -/
theorem exists_of_refusal_none {client : ℕ} (h : g.refusal client = some none) :
    ∃ c ∈ g.clients, c.id = client ∧ c.readOnly = false := by
  unfold refusal at h
  split at h
  · cases h
  · split at h
    · cases h
    · next c hfind =>
      refine ⟨c, List.mem_of_find?_eq_some hfind, by simpa using List.find?_some hfind, ?_⟩
      cases hro : c.readOnly with
      | false => rfl
      | true => simp [hro] at h

/-- The state between operations: as within one, with everybody ready and everything known. -/
structure Between (g : Inner S) : Prop where
  fit : Fit g
  current : Current g
  listed : Listed g
  ready : ∀ c ∈ g.clients, c.ready = true

/-- What an operation leads to: between operations again, unless the last client list was refused. -/
def Leads (g : Inner S) : Prop := Steady true g ∧ ∀ c ∈ g.clients, c.ready = true

variable {screens env}

theorem Between.steady (hb : Between g) : Steady listed g :=
  ⟨hb.fit, fun _ ↦ hb.current, fun _ _ ↦ hb.listed⟩

theorem Between.leads (hb : Between g) : Leads g := ⟨hb.steady, hb.ready⟩

theorem Leads.between (hl : Leads g) (hu : g.untold = false) : Between g :=
  ⟨hl.1.fit, hl.1.current hu, hl.1.knows hu rfl, hl.2⟩

theorem exists_of_present {id : ℕ} (h : g.present id = true) : ∃ c ∈ g.clients, c.id = id := by
  obtain ⟨c, hc, heq⟩ := List.any_eq_true.1 h
  exact ⟨c, hc, by simpa using heq⟩

theorem Between.settled (hb : Between g) : Settled g := by
  refine ⟨fun id hid ↦ ?_, fun id hid ↦ ?_, fun c hc ↦ ?_, fun c hc ↦ hb.listed c hc (hb.ready c hc)⟩
  · obtain ⟨c, hc, rfl⟩ := exists_of_present (hb.current id (.inl hid))
    exact ⟨c, hc, rfl, hb.fit.writable c hc (.inl hid)⟩
  · obtain ⟨c, hc, rfl⟩ := exists_of_present (hb.current id (.inr hid))
    exact ⟨c, hc, rfl, hb.fit.writable c hc (.inr hid)⟩
  · exact hb.fit.told (fun id hid ↦ hb.current id (.inl hid)) c hc (hb.ready c hc)

/-- Only the clients, control and activity matter. -/
theorem Steady.of_eq (hs : Steady listed g) (hclients : g'.clients = g.clients)
    (hcontroller : g'.controller = g.controller) (hactive : g'.active = g.active)
    (hnext : g'.next = g.next) (huntold : g'.untold = g.untold) : Steady listed g' := by
  obtain ⟨⟨h₁, h₂, h₃, h₄, h₅⟩, hcur, hknows⟩ := hs
  simp only [present, Current, Listed, publicClients, ← hclients, ← hcontroller, ← hactive, ← hnext,
    ← huntold] at *
  exact ⟨⟨h₁, h₂, h₃, h₄, h₅⟩, hcur, hknows⟩

theorem Leads.of_eq (hl : Leads g) (hclients : g'.clients = g.clients)
    (hcontroller : g'.controller = g.controller) (hactive : g'.active = g.active)
    (hnext : g'.next = g.next) (huntold : g'.untold = g.untold) : Leads g' :=
  ⟨hl.1.of_eq hclients hcontroller hactive hnext huntold, hclients ▸ hl.2⟩

/-- Clients that stay are as ready as they were. -/
theorem Narrows.ready (hn : Narrows g g') (h : ∀ c ∈ g.clients, c.ready = true) :
    ∀ c ∈ g'.clients, c.ready = true := by
  intro c' hc'
  obtain ⟨c, hc, -, -, hready⟩ := hn.exists_mem hc'
  exact hready.trans (h c hc)

variable (screens env)

theorem Leads.broadcast (hl : Leads g) (hev : ev.Plain) : Leads (g.broadcast screens env ev) := by
  obtain ⟨hs, hn⟩ := hl.1.broadcast screens env hev
  exact ⟨hs, hn.ready hl.2⟩

theorem Leads.applySize (hl : Leads g) : Leads (g.applySize screens env) := by
  obtain ⟨hs, hn⟩ := hl.1.applySize screens env
  exact ⟨hs, hn.ready hl.2⟩

/-- A broadcast client list makes the list known. -/
theorem Steady.broadcastList (hs : Steady false g) :
    Steady true (g.broadcast screens env (.clients g.publicClients)) ∧
      Narrows g (g.broadcast screens env (.clients g.publicClients)) := by
  have hsent : Fit (g.sendAll env (.clients g.publicClients)) := hs.fit.sendAll env fun _ ↦ rfl
  have hn := narrows_sendAll env g (.clients g.publicClients)
  unfold Inner.broadcast
  split
  · obtain ⟨hs', hn'⟩ := hsent.membershipChanged screens env
    exact ⟨hs', hn.trans hn'⟩
  · next hall =>
    have hpub := publicClients_sendAll (by simpa using hall) (.clients g.publicClients)
    refine ⟨⟨hsent, fun hu id hid ↦ ?_, fun _ _ c' hc' hready ↦ ?_⟩, hn⟩
    · exact (present_eq_of_publicClients hpub id).trans (hs.current hu id hid)
    · obtain ⟨c, hc, h, rfl⟩ := exists_of_ready_sendAll hc' hready
      rw [Client.queue, toldClients_concat]
      exact congrArg _ hpub.symm

/-- The news that control changed makes it known. -/
theorem broadcastControl (hids : (g.clients.map Client.id).Nodup)
    (hbelow : ∀ c ∈ g.clients, c.id < g.next)
    (hidsBelow : ∀ id, g.controller = some id ∨ g.active = some id → id < g.next)
    (hwritable : ∀ c ∈ g.clients, g.controller = some c.id ∨ g.active = some c.id →
      c.readOnly = false)
    (hcurrent : Current g) (hlisted : Listed g) :
    Steady true (g.broadcast screens env (.control g.controllerClient)) ∧
      Narrows g (g.broadcast screens env (.control g.controllerClient)) := by
  have hsent : Fit (g.sendAll env (.control g.controllerClient)) :=
    fit_sendAll_control env hids hbelow hidsBelow hwritable controllerClient_map
  have hn := narrows_sendAll env g (.control g.controllerClient)
  unfold Inner.broadcast
  split
  · obtain ⟨hs', hn'⟩ := hsent.membershipChanged screens env
    exact ⟨hs', hn.trans hn'⟩
  · next hall =>
    have hpub := publicClients_sendAll (by simpa using hall) (.control g.controllerClient)
    refine ⟨⟨hsent, fun _ id hid ↦ ?_, fun _ _ c' hc' hready ↦ ?_⟩, hn⟩
    · exact (present_eq_of_publicClients hpub id).trans (hcurrent id hid)
    · obtain ⟨c, hc, h, rfl⟩ := exists_of_ready_sendAll hc' hready
      rw [hpub]
      rw [Client.queue, toldClients_concat]
      exact hlisted c hc h

theorem Leads.onOutput (hl : Leads g) (data : Bytes) : Leads (g.onOutput screens env data) := by
  have hfed : Leads (g.feedOutput screens data) := hl.of_eq rfl rfl rfl rfl rfl
  have hplain : (TermEvent.output data).Plain := ⟨fun _ ↦ rfl, fun _ ↦ rfl⟩
  have hsent := hfed.broadcast screens env hplain
  simp only [Inner.onOutput]
  split
  · exact hsent.broadcast screens env ⟨fun _ ↦ rfl, fun _ ↦ rfl⟩
  · exact hsent

theorem Leads.onExit (hl : Leads g) (code signal : Option ℤ) : Leads (g.onExit env code signal) := by
  unfold Inner.onExit
  split
  · exact hl
  · refine ⟨⟨⟨?_, nofun, ?_, nofun, nofun⟩, ?_, ?_⟩, nofun⟩
    · exact List.nodup_nil
    · rintro id (h | h) <;> cases h
    · rintro - id (h | h) <;> cases h
    · exact fun _ _ ↦ nofun

/-- A new client joins: it gets the next id, and is not ready. -/
theorem Between.join (hb : Between g) (hnext : g.next ≤ c.id) (hready : c.ready = false)
    {active : Option ℕ} (hactive : active = g.active ∨ active = some c.id ∧ c.readOnly = false) :
    Steady false { g with clients := g.clients ++ [c], active := active, next := c.id + 1 } := by
  have hold : ∀ id, g.controller = some id ∨ active = some id → id ≠ c.id →
      g.controller = some id ∨ g.active = some id := by
    rintro id (h | h) hne
    · exact .inl h
    · rcases hactive with ha | ⟨ha, -⟩
      · exact .inr (ha ▸ h)
      · exact absurd (Option.some.inj (h.symm.trans ha)) hne
  have hne : ∀ id, g.controller = some id ∨ g.active = some id → id ≠ c.id := fun id hid he ↦ by
    have := hb.fit.idsBelow id hid
    omega
  have hpresent : ∀ id, g.present id = true →
      ({ g with clients := g.clients ++ [c], active := active, next := c.id + 1 } : Inner S).present
        id = true := by
    intro id hid
    simp only [present, List.any_append, Bool.or_eq_true]
    exact .inl hid
  refine ⟨⟨?_, ?_, ?_, ?_, ?_⟩, ?_, nofun⟩
  · rw [List.map_append, List.nodup_append]
    refine ⟨hb.fit.ids, by simp, ?_⟩
    intro a ha b hb'
    obtain ⟨c', hc', rfl⟩ := List.mem_map.1 ha
    obtain rfl : b = c.id := by simpa using hb'
    have := hb.fit.below c' hc'
    omega
  · intro c' hc'
    rcases List.mem_append.1 hc' with hc' | hc'
    · have := hb.fit.below c' hc'
      show c'.id < c.id + 1
      omega
    · obtain rfl := List.mem_singleton.1 hc'
      exact Nat.lt_succ_self _
  · intro id hid
    by_cases he : id = c.id
    · exact he ▸ Nat.lt_succ_self _
    · have := hb.fit.idsBelow id (hold id hid he)
      show id < c.id + 1
      omega
  · intro c' hc' hid
    rcases List.mem_append.1 hc' with hc' | hc'
    · have hlt := hb.fit.below c' hc'
      exact hb.fit.writable c' hc' (hold c'.id hid (by omega))
    · obtain rfl := List.mem_singleton.1 hc'
      rcases hid with hid | hid
      · exact absurd rfl (hne _ (.inl hid))
      · rcases hactive with ha | ⟨-, hro⟩
        · exact absurd rfl (hne _ (.inr (ha ▸ hid)))
        · exact hro
  · intro _ c' hc' hr
    rcases List.mem_append.1 hc' with hc' | hc'
    · exact hb.fit.told (fun id hid ↦ hb.current id (.inl hid)) c' hc' hr
    · obtain rfl := List.mem_singleton.1 hc'
      exact absurd hr (by simp [hready])
  · intro _ id hid
    by_cases he : id = c.id
    · subst he
      simp [present]
    · exact hpresent id (hb.current id (hold id hid he))

/-- The first events of a client tell it who has control. -/
theorem toldController_welcome (inbox : List TermEvent) (id : ℕ) (snapshot : Bool) :
    Term.toldController (inbox ++ (g.welcome screens id snapshot).2) =
      g.controllerClient.map TermClient.client := by
  unfold welcome
  split
  · split <;> simp [Term.toldController, controllerAfter, info]
  · simp [Term.toldController, controllerAfter, info]

section Welcome

variable (id : ℕ) (snapshot : Bool)

theorem welcome_cases : (g.welcome screens id snapshot).1 = g ∨
    (g.welcome screens id snapshot).1 = g.onScreen screens .snapshot := by
  unfold welcome
  split
  · split
    · exact .inr rfl
    · exact .inl rfl
  · exact .inl rfl

/-- The first events of a client change nothing but the terminal model. -/
theorem Steady.welcome (hs : Steady listed g) :
    Steady listed (g.welcome screens id snapshot).1 := by
  rcases welcome_cases screens id snapshot (g := g) with h | h <;> rw [h]
  · exact hs
  · exact hs.of_eq rfl rfl rfl rfl rfl

theorem clients_welcome : (g.welcome screens id snapshot).1.clients = g.clients := by
  rcases welcome_cases screens id snapshot (g := g) with h | h <;> rw [h]
  rfl

theorem controllerClient_welcome :
    (g.welcome screens id snapshot).1.controllerClient = g.controllerClient := by
  rcases welcome_cases screens id snapshot (g := g) with h | h <;> rw [h]
  rfl

end Welcome

/-- The new client is told and gets ready. -/
theorem Steady.makeReady (hs : Steady false g) (id : ℕ) {first : List TermEvent}
    (hfirst : ∀ inbox, Term.toldController (inbox ++ first) =
      g.controllerClient.map TermClient.client) : Steady false (g.makeReady id first) := by
  have hmem : ∀ c' ∈ (g.makeReady id first).clients, ∃ c ∈ g.clients, c'.id = c.id ∧
      c'.readOnly = c.readOnly ∧ (c'.ready = true → c.ready = true ∧ c'.inbox = c.inbox ∨
        Term.toldController c'.inbox = g.controllerClient.map TermClient.client) := by
    intro c' hc'
    obtain ⟨c, hc, rfl⟩ := List.mem_map.1 hc'
    refine ⟨c, hc, ?_⟩
    split
    · refine ⟨rfl, rfl, fun _ ↦ .inr ?_⟩
      split
      · next controller hctl =>
        rw [toldController_concat, hctl]
        rfl
      · next hctl => simpa using hfirst c.inbox
    · exact ⟨rfl, rfl, fun h ↦ .inl ⟨h, rfl⟩⟩
  have hids : (g.makeReady id first).clients.map Client.id = g.clients.map Client.id := by
    rw [Inner.makeReady, List.map_map]
    refine List.map_congr_left fun c _ ↦ ?_
    simp only [Function.comp_apply]
    split <;> rfl
  have hpresent : ∀ k, (g.makeReady id first).present k = g.present k := by
    intro k
    have hany : ∀ g : Inner S, g.present k = (g.clients.map Client.id).any (· = k) := by
      intro g
      rw [List.any_map]
      rfl
    rw [hany, hany, hids]
  refine ⟨⟨?_, ?_, hs.fit.idsBelow, ?_, ?_⟩, ?_, nofun⟩
  · rw [hids]
    exact hs.fit.ids
  · intro c' hc'
    obtain ⟨c, hc, hcid, -⟩ := hmem c' hc'
    exact hcid ▸ hs.fit.below c hc
  · intro c' hc' hid
    obtain ⟨c, hc, hcid, hro, -⟩ := hmem c' hc'
    exact hro ▸ hs.fit.writable c hc (hcid ▸ hid)
  · intro hctl c' hc' hready
    have hctl' : ∀ k, g.controller = some k → g.present k = true := fun k hk ↦
      (hpresent k).symm.trans (hctl k hk)
    obtain ⟨c, hc, -, -, htold⟩ := hmem c' hc'
    rcases htold hready with ⟨hr, hinbox⟩ | htold
    · rw [hinbox]
      exact hs.fit.told hctl' c hc hr
    · exact htold.trans (controllerClient_map hctl')
  · exact fun hu k hk ↦ (hpresent k).trans (hs.current hu k hk)

theorem Between.attachRunning (hb : Between g) {id : ℕ} (hid : g.next ≤ id) (hello : TermHello) :
    Leads (g.attachRunning screens env id hello) := by
  have hs₁ : Steady false (g.join id hello) := by
    refine hb.join hid rfl ?_
    split
    · next h => exact .inr ⟨rfl, by simpa using (Bool.and_eq_true_iff.1 h).2⟩
    · exact .inl rfl
  obtain ⟨hs₂, hn₂⟩ := hs₁.applySize screens env
  have hs₃ := hs₂.welcome screens id hello.snapshot
  have hs₄ := hs₃.makeReady id fun inbox ↦ by
    rw [controllerClient_welcome]
    exact toldController_welcome screens inbox id hello.snapshot
  obtain ⟨hs₅, hn₅⟩ := hs₄.broadcastList screens env
  refine ⟨hs₅, hn₅.ready fun c' hc' ↦ ?_⟩
  obtain ⟨c₂, hc₂, rfl⟩ := List.mem_map.1 hc'
  rw [clients_welcome] at hc₂
  obtain ⟨c₁, hc₁, hcid, -, hready⟩ := hn₂.exists_mem hc₂
  split
  · rfl
  · next hne =>
    rcases List.mem_append.1 hc₁ with hc₁ | hc₁
    · exact hready.trans (hb.ready c₁ hc₁)
    · obtain rfl := List.mem_singleton.1 hc₁
      exact absurd hcid hne

/-- Ids that other sessions took are skipped. -/
theorem Steady.skip (hs : Steady listed g) {next : ℕ} (hnext : g.next ≤ next) :
    Steady listed { g with next := next } :=
  ⟨⟨hs.fit.ids, fun c hc ↦ Nat.lt_of_lt_of_le (hs.fit.below c hc) hnext,
    fun id hid ↦ Nat.lt_of_lt_of_le (hs.fit.idsBelow id hid) hnext, hs.fit.writable, hs.fit.told⟩,
    hs.current, hs.knows⟩

section

variable (hb : Between g)
include hb

theorem Between.attach (skipped : ℕ) (hello : TermHello) :
    Leads (g.attach screens env skipped hello) := by
  unfold Inner.attach
  split
  · exact hb.leads
  · exact hb.attachRunning screens env (Nat.le_add_right _ _) hello
  · have hs : Steady true (g.welcome screens (g.next + skipped) hello.snapshot).1 :=
      hb.steady.welcome screens (g.next + skipped) hello.snapshot
    refine ⟨hs.skip ?_, ?_⟩
    · rcases welcome_cases screens (g.next + skipped) hello.snapshot (g := g) with h | h <;> rw [h]
      · omega
      · show g.next ≤ _
        omega
    · show ∀ c ∈ (g.welcome screens (g.next + skipped) hello.snapshot).1.clients, c.ready = true
      rw [clients_welcome]
      exact hb.ready

/-- Changes of single clients that concern neither control nor the list. -/
theorem Between.mapClients (sends : ℕ) {f : Client → Client}
    (hid : ∀ c, (f c).id = c.id) (hreadOnly : ∀ c, (f c).readOnly = c.readOnly)
    (hready : ∀ c, (f c).ready = c.ready) (hpublic : ∀ c, (f c).public.unsized = c.public.unsized)
    (hcontroller : ∀ c, Term.toldController (f c).inbox = Term.toldController c.inbox)
    (hclients : ∀ c, Term.toldClients (f c).inbox = Term.toldClients c.inbox) :
    Between { g with clients := g.clients.map f, sends := sends } := by
  have hids : (g.clients.map f).map Client.id = g.clients.map Client.id := by
    rw [List.map_map]
    exact List.map_congr_left fun c _ ↦ hid c
  have hpresent : ∀ k, ({ g with clients := g.clients.map f, sends := sends } : Inner S).present k =
      g.present k := by
    intro k
    simp only [present, List.any_map]
    congr 1
    funext c
    simp [hid]
  have hpub : (g.clients.map f).map (TermClient.unsized ∘ Client.public) =
      g.clients.map (TermClient.unsized ∘ Client.public) := by
    rw [List.map_map]
    exact List.map_congr_left fun c _ ↦ hpublic c
  refine ⟨⟨?_, ?_, hb.fit.idsBelow, ?_, ?_⟩, ?_, ?_, ?_⟩
  · exact hids ▸ hb.fit.ids
  · intro c' hc'
    obtain ⟨c, hc, rfl⟩ := List.mem_map.1 hc'
    exact (hid c).symm ▸ hb.fit.below c hc
  · intro c' hc' h
    obtain ⟨c, hc, rfl⟩ := List.mem_map.1 hc'
    rw [hreadOnly]
    exact hb.fit.writable c hc (hid c ▸ h)
  · intro _ c' hc' hr
    obtain ⟨c, hc, rfl⟩ := List.mem_map.1 hc'
    rw [hcontroller]
    exact hb.fit.told (fun k hk ↦ hb.current k (.inl hk)) c hc (hready c ▸ hr)
  · exact fun k hk ↦ (hpresent k).trans (hb.current k hk)
  · intro c' hc' hr
    obtain ⟨c, hc, rfl⟩ := List.mem_map.1 hc'
    rw [hclients, hb.listed c hc (hready c ▸ hr), publicClients, publicClients, List.map_map,
      List.map_map, hpub]
  · intro c' hc'
    obtain ⟨c, hc, rfl⟩ := List.mem_map.1 hc'
    exact (hready c).trans (hb.ready c hc)

/-- An event for one client that concerns neither control nor the list. -/
theorem Between.sendTo (client : ℕ) (hev : ev.Plain) :
    Between (g.sendTo env client ev) := by
  refine hb.mapClients _ ?_ ?_ ?_ ?_ ?_ ?_ <;> intro c <;> split
  · rfl
  · rfl
  · rfl
  · rfl
  · rfl
  · rfl
  · rfl
  · rfl
  · rw [Client.queue, toldController_concat, hev.1]
  · rfl
  · rw [Client.queue, toldClients_concat, hev.2]
  · rfl

/-- An interactive client was active, or took control as well. -/
theorem Between.activate (hc : c ∈ g.clients) (hro : c.readOnly = false) (compacted : Bool) :
    Between { g with active := some c.id, compacted := compacted } := by
  refine ⟨⟨hb.fit.ids, hb.fit.below, ?_, ?_, hb.fit.told⟩, ?_, hb.listed, hb.ready⟩
  · rintro id (h | h)
    · exact hb.fit.idsBelow id (.inl h)
    · obtain rfl := Option.some.inj h
      exact hb.fit.below c hc
  · rintro c' hc' (h | h)
    · exact hb.fit.writable c' hc' (.inl h)
    · obtain rfl := List.inj_on_of_nodup_map hb.fit.ids hc hc' (Option.some.inj h)
      exact hro
  · rintro id (h | h)
    · exact hb.current id (.inl h)
    · obtain rfl := Option.some.inj h
      exact List.any_eq_true.2 ⟨c, hc, by simp⟩

theorem Between.input (client : ℕ) (data : Bytes) :
    Leads (g.input screens env client data) := by
  unfold Inner.input
  split
  · exact hb.leads
  · exact (hb.sendTo env client ⟨fun _ ↦ rfl, fun _ ↦ rfl⟩).leads
  · next href =>
    split
    · exact hb.leads
    · obtain ⟨c, hc, rfl, hro⟩ := exists_of_refusal_none href
      have hl := (hb.activate hc hro false).leads.applySize screens env
      exact hl.of_eq rfl rfl rfl rfl rfl

theorem Between.resize (client : ℕ) (size : PtySize) :
    Leads (g.resize screens env client size) := by
  unfold Inner.resize
  split
  · exact hb.leads
  · refine Leads.applySize screens env (Between.leads ?_)
    refine hb.mapClients g.sends ?_ ?_ ?_ ?_ ?_ ?_ <;> intro c <;> split <;> rfl

theorem Between.control (client : ℕ) (take : Bool) :
    Leads (g.control screens env client take) := by
  unfold Inner.control
  split
  · exact hb.leads
  · split
    · exact hb.leads
    · next c hfind =>
      have hc := List.mem_of_find?_eq_some hfind
      obtain rfl : c.id = client := by simpa using List.find?_some hfind
      split
      · exact hb.leads
      · next hro =>
        split
        · refine Leads.applySize screens env ?_
          cases take with
          | true =>
            have hb₁ := hb.activate hc (by simpa using hro) g.compacted
            obtain ⟨hs, hn⟩ := broadcastControl screens env
              (g := { g with controller := some c.id, active := some c.id }) hb.fit.ids hb.fit.below
              (fun id hid ↦ hb₁.fit.idsBelow id (.inr (or_self_iff.1 hid)))
              (fun c' hc' hid ↦ hb₁.fit.writable c' hc' (.inr (or_self_iff.1 hid)))
              (fun id hid ↦ hb₁.current id (.inr (or_self_iff.1 hid))) hb.listed
            exact ⟨hs, hn.ready hb.ready⟩
          | false =>
            have hdrop : ∀ id, (none : Option ℕ) = some id ∨ g.active = some id →
                g.controller = some id ∨ g.active = some id := fun id hid ↦ .inr (hid.resolve_left nofun)
            obtain ⟨hs, hn⟩ := broadcastControl screens env (g := { g with controller := none })
              hb.fit.ids hb.fit.below (fun id hid ↦ hb.fit.idsBelow id (hdrop id hid))
              (fun c' hc' hid ↦ hb.fit.writable c' hc' (hdrop c'.id hid))
              (fun id hid ↦ hb.current id (hdrop id hid)) hb.listed
            exact ⟨hs, hn.ready hb.ready⟩
        · exact hb.leads

theorem Between.detach (client : ℕ) :
    Leads (g.detach screens env client) := by
  unfold Inner.detach
  split
  · have hn : Narrows g (g.leave client) :=
      ⟨List.Sublist.map _ List.filter_sublist, rfl⟩
    have hf := hb.fit.narrow hn (.inl rfl) (.inl rfl) fun _ c hc hr ↦
      hb.fit.told (fun id hid ↦ hb.current id (.inl hid)) c (List.mem_of_mem_filter hc) hr
    obtain ⟨hs, hn'⟩ := hf.membershipChanged screens env
    exact ⟨hs, (hn.trans hn').ready hb.ready⟩
  · exact hb.leads

/-- **Every operation leads back between operations**, unless the last client list is refused. -/
theorem Between.step (op : Op) : Leads (g.step screens (op, env)) := by
  have hb₀ : Between { g with untold := false } :=
    ⟨⟨hb.fit.ids, hb.fit.below, hb.fit.idsBelow, hb.fit.writable, hb.fit.told⟩, hb.current,
      hb.listed, hb.ready⟩
  cases op with
  | attach skipped hello => exact hb₀.attach screens env skipped hello
  | input client data => exact hb₀.input screens env client data
  | resize client size => exact hb₀.resize screens env client size
  | control client take => exact hb₀.control screens env client take
  | detach client => exact hb₀.detach screens env client
  | output data => exact hb₀.leads.onOutput screens env data
  | exit code signal => exact hb₀.leads.onExit env code signal
  | snapshot => exact hb₀.leads.of_eq rfl rfl rfl rfl rfl
  | tick idle =>
    simp only [Inner.step, tick]
    split
    · exact hb₀.leads.of_eq rfl rfl rfl rfl rfl
    · exact hb₀.leads
  | dropScreen =>
    simp only [Inner.step, dropScreen]
    split
    · exact hb₀.leads.of_eq rfl rfl rfl rfl rfl
    · exact hb₀.leads

end

/-! ### Runs -/

theorem between_initial (origin : Origin) : Between (origin.initial screens) := by
  cases origin <;>
    refine ⟨⟨List.nodup_nil, nofun, ?_, nofun, nofun⟩, ?_, nofun, nofun⟩ <;>
      rintro id (h | h) <;> cases h

variable {screens}

/-- The last client list that `membership_changed` sends in the operation is refused by no queue:
none is full or closed at that moment. -/
def ListTaken (screens : ScreenModel S) (g : Inner S) (l : Op × Env) : Prop :=
  (g.step screens l).untold = false

/-- **Control stays with whoever is there, and everybody knows.** In every run in which no queue
refuses the client list that ends a clean-up, the controller and the active client are attached and
may type after every operation, and every client has been told of the last change of control and of
the clients attached. -/
theorem settled_of_reachable {origin : Origin}
    (h : ((StepSystem.ofFun (origin.initial screens) (Inner.step screens)).restrict
      (ListTaken screens)).Reachable g) : Settled g := by
  have hb : Between g := h.invariant (fun _ hs ↦ hs ▸ between_initial screens origin)
    fun s l t _ hs ⟨hl, ht⟩ ↦ ht ▸ (hs.step screens l.2 l.1).between hl
  exact hb.settled

/-- A terminal model that only remembers what it was fed. -/
def plainScreens : ScreenModel Bytes where
  new _ := []
  feed s data := s ++ data
  resize s _ := s
  title _ := none
  takeReplies s := ([], s)
  snapshot s := (s, s)
  compact s := s

/-- A shell of 24 lines. -/
def shell : Origin := .start ⟨none, ["/bin/sh"], some 7, .running, none, none, ⟨24, 80⟩⟩ none

/-- A client that may type, with a viewport of this many lines. -/
def typist (rows : ℕ) : Op := .attach 0 ⟨"laptop", none, none, some ⟨rows, 80⟩, true, false, true⟩

/-- Every queue takes every event. -/
def allTake : Env := fun _ _ ↦ true

/-- The queue of one client refuses every event. -/
def refusing (id : ℕ) : Env := fun _ k ↦ decide (k ≠ id)

/-- Three clients attach, the first takes control, and the second detaches. -/
def detaching (env : Env) : List (Op × Env) :=
  [(typist 30, allTake), (typist 40, allTake), (typist 50, allTake), (.control 1 true, allTake),
    (.detach 2, env)]

/-- The shell after a list of operations. -/
def after (ls : List (Op × Env)) : Inner Bytes :=
  ls.foldl (Inner.step plainScreens) (shell.initial plainScreens)

/-- The shell's runs in which no queue refuses the client list that ends a clean-up. -/
def shellRuns : StepSystem (Inner Bytes) (Op × Env) :=
  (StepSystem.ofFun (shell.initial plainScreens) (Inner.step plainScreens)).restrict
    (ListTaken plainScreens)

theorem reachable_after_concat {ls : List (Op × Env)} {l : Op × Env}
    (h : shellRuns.Reachable (after ls)) (hl : ListTaken plainScreens (after ls) l) :
    shellRuns.Reachable (after (ls ++ [l])) :=
  StepSystem.reachable_foldl_concat h hl

/-- With every event taken, the second client leaves and everybody knows. -/
theorem settled_of_reachable_detach : Settled (after (detaching allTake)) := by
  have h₀ : shellRuns.Reachable (after []) := .start rfl
  have h₁ := reachable_after_concat (l := (typist 30, allTake)) h₀
    (by unfold ListTaken; decide +kernel)
  have h₂ := reachable_after_concat (l := (typist 40, allTake)) h₁
    (by unfold ListTaken; decide +kernel)
  have h₃ := reachable_after_concat (l := (typist 50, allTake)) h₂
    (by unfold ListTaken; decide +kernel)
  have h₄ := reachable_after_concat (l := (.control 1 true, allTake)) h₃
    (by unfold ListTaken; decide +kernel)
  have h₅ := reachable_after_concat (l := (.detach 2, allTake)) h₄
    (by unfold ListTaken; decide +kernel)
  exact settled_of_reachable h₅

/-- **A refused client list leaves control with a client that is gone.** The queue of the controller
refuses the list that the detach of the second client sends: the controller is dropped, keeps
control, and the third client may not type any more. -/
theorem not_settled_after_refused_list :
    (after (detaching (refusing 1))).refusal 3 = some (some .controlled) ∧
      ¬ Settled (after (detaching (refusing 1))) := by
  refine ⟨by decide +kernel, fun h ↦ ?_⟩
  obtain ⟨c, hc, hid, -⟩ := h.controller 1 (by decide +kernel)
  have hgone : (after (detaching (refusing 1))).present 1 = false := by decide +kernel
  exact List.any_eq_false.1 hgone c hc (by simpa using hid)

end Inner

end Ember.Node.Term
