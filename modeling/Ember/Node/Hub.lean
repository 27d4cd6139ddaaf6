import Ember.Foundation.Runs
import Ember.Hub.Registration
import Ember.Transport.Gate

/-!
# Whom the node admits because of the hub

The node's gate admits the peers of the allow-list file, and with `allow_servers` the account's main
servers. Two tasks set the whole gate, each from its own copy of the allow-list: the handler of
SIGHUP, which reads the list again and starts a new watch if there is an active registration, and the
watch of the registration. The command line changes the registration file meanwhile.

A step is what a task does between two awaits; only the watch, between acting on an answer and looking
at its file again, has a step of its own. An aborted watch does not take another step.
-/

namespace Ember.Node

open Ember.Hub Ember.Transport StepSystem

variable {π : Type*} [DecidableEq π]

/-- Where a watch stands. -/
inductive Phase (π : Type*)
  | starting
  | publishing (reg : Active π)
  /-- It looks at its file next. -/
  | looping
  | discovering (reg : Active π)
  /-- It holds a request for the device list, as the registration it discovered the hub with. -/
  | polling (reg : Active π)
  | checking (reg : Active π)
  | listing (reg : Active π)
  deriving DecidableEq

/-- A watch: the allow-list it was started with, whether the hub has the long-poll and with which
registration's client it is asked, and where it stands. -/
structure Watch (π : Type*) where
  base : List π
  longPoll : Option (Option (Active π))
  phase : Phase π
  deriving DecidableEq

/-- Where the handler of SIGHUP stands. -/
inductive Handler (π : Type*)
  | idle
  | resolving (list : List π) (reg : Active π)
  | applying (list : List π)
  deriving DecidableEq

/-- The node, as far as the hub goes. -/
structure NodeHub (π : Type*) [DecidableEq π] where
  file : Option (Registration π)
  gate : PeerGate π
  handler : Handler π
  /-- The watch; none when it has ended. -/
  watch : Option (Watch π)
  /-- The allow-list that was read last. Like the next field, only statements speak of it. -/
  base : List π
  /-- The last device list received: the token it was asked with, and its main servers. -/
  heard : Option (String × List π)

/-- What a step finds out. -/
structure NodeHub.Found (π : Type*) where
  now : ℤ
  /-- The registration file can be read. -/
  read : Bool
  /-- It can be written. -/
  write : Bool
  /-- The allow-list, if it can be read. -/
  allowed : Option (List π)
  /-- The hub has the long-poll. -/
  devicesWait : Bool
  setApp : Except HubError (Device π)
  resolveToken : Except HubError String
  me : Except HubError Unit
  devices : Except HubError (List (Device π))

/-- What happens next. -/
inductive NodeHub.Act (π : Type*)
  /-- A SIGHUP is handled. -/
  | sighup (d : NodeHub.Found π)
  /-- The handler goes on. -/
  | handle (d : NodeHub.Found π)
  /-- The watch goes on. -/
  | watch (d : NodeHub.Found π)
  /-- `hub forget` deletes the file. -/
  | forget
  /-- `hub register` stores the registration of a link. -/
  | register (reg : Active π)

variable {app : DeviceApp}

namespace NodeHub

variable {s : NodeHub π} {d : Found π} {p : π}

/-- `active_registration`; also nothing when the file cannot be read. -/
def activeRegistration (s : NodeHub π) (d : Found π) : Option (Active π) :=
  if d.read then s.file.bind Registration.active else none

/-- `RegistrationFile::save`. -/
def save (s : NodeHub π) (d : Found π) (reg : Active π) : NodeHub π :=
  if d.write then { s with file := some reg.1 } else s

/-- `main_servers`. -/
def mainServers (devices : List (Device π)) : List π :=
  (devices.filter (·.role = .mainServer)).map Device.endpointId

/-- A device list arrives, asked for as `reg`: with `allowServers` the gate is set to the watch's
list and the servers. -/
def admitServers (allowServers : Bool) (s : NodeHub π) (w : Watch π) (reg : Active π)
    (devices : List (Device π)) : NodeHub π :=
  let servers := mainServers devices
  { s with
    gate :=
      if allowServers then (s.gate.setAllowed (w.base ++ servers.filter (· ∉ w.base))).1
      else s.gate
    heard := some (reg.1.deviceToken, servers) }

/-- `on_revoked`, and the watch ends. -/
def onRevoked (allowServers : Bool) (s : NodeHub π) (d : Found π) (w : Watch π) : NodeHub π :=
  { s with
    file :=
      if d.read ∧ d.write then
        s.file.map fun r ↦ { r with revokedAt := some (r.revokedAt.getD d.now) }
      else s.file
    gate := if allowServers then (s.gate.setAllowed w.base).1 else s.gate
    watch := none }

/-- The watch stands elsewhere. -/
def goOn (s : NodeHub π) (w : Watch π) (phase : Phase π) : NodeHub π :=
  { s with watch := some { w with phase } }

/-- One step of the watch; `app` is what the node reports as its app. -/
def watchStep (app : DeviceApp) (allowServers : Bool) (s : NodeHub π) (d : Found π) (w : Watch π) :
    NodeHub π :=
  match w.phase with
  | .starting =>
    match s.activeRegistration d with
    | none => s.goOn w .looping
    | some reg => s.goOn w (if reg.1.device.app = some app then .looping else .publishing reg)
  | .publishing reg =>
    match d.setApp with
    | .ok device => (s.save d (reg.withDevice device)).goOn w .looping
    | .error _ => s.goOn w .looping
  | .looping =>
    match s.activeRegistration d with
    | none => { s with watch := none }
    | some reg =>
      s.goOn w (match w.longPoll with
        | none => .discovering reg
        | some (some client) => .polling client
        | some none => .checking reg)
  | .discovering reg =>
    if d.devicesWait then s.goOn { w with longPoll := some (some reg) } (.polling reg)
    else s.goOn { w with longPoll := some none } (.checking reg)
  | .polling reg =>
    match d.devices with
    | .ok devices => (admitServers allowServers s w reg devices).goOn w .looping
    | .error e => if e.isRevocation then onRevoked allowServers s d w else s.goOn w .looping
  | .checking reg =>
    match d.me with
    | .ok () => s.goOn w (if allowServers then .listing reg else .looping)
    | .error e => if e.isRevocation then onRevoked allowServers s d w else s.goOn w .looping
  | .listing reg =>
    match d.devices with
    | .ok devices => (admitServers allowServers s w reg devices).goOn w .looping
    | .error _ => s.goOn w .looping

/-- The handler starts another watch, in the place of the one there is. -/
def spawnWatch (s : NodeHub π) (list : List π) : NodeHub π :=
  { s with watch := some ⟨list, none, .starting⟩, handler := .idle }

/-- One step. -/
def step (app : DeviceApp) (allowServers : Bool) (s : NodeHub π) : Act π → NodeHub π
  | .sighup d =>
    match s.handler, d.allowed with
    | .idle, some list =>
      let s := { s with gate := (s.gate.setAllowed list).1, base := list }
      -- Without an active registration the watch goes on with the list it has.
      match s.activeRegistration d with
      | none => s
      | some reg =>
        { s with
          handler :=
            if reg.1.resolveToken = none then .resolving list reg else .applying list }
    | _, _ => s
  | .handle d =>
    match s.handler with
    | .idle => s
    | .resolving list reg =>
      match d.resolveToken with
      | .ok token => { s.save d (reg.withResolveToken token) with handler := .applying list }
      | .error _ => { s with handler := .applying list }
    | .applying list => s.spawnWatch list
  | .watch d =>
    match s.watch with
    | none => s
    | some w => watchStep app allowServers s d w
  | .forget => { s with file := none }
  | .register reg => { s with file := some reg.1 }

/-- The node starts with a registration file and an allow-list. -/
def start (file : Option (Registration π)) (allowed : List π) : NodeHub π where
  file := file
  gate := .allowList allowed
  handler := .idle
  watch := some ⟨allowed, none, .starting⟩
  base := allowed
  heard := none

/-- The runs of a node. -/
def system (app : DeviceApp) (allowServers : Bool) (s : NodeHub π) :
    StepSystem (NodeHub π) (Act π) := .ofFun s (step app allowServers)

/-! ### What the gate should admit -/

/-- The stored registration, if it is active. -/
def active (s : NodeHub π) : Option (Active π) := s.file.bind Registration.active

/-- With `allowServers` and an active registration, the servers of the last list received for it. -/
def Serves (allowServers : Bool) (s : NodeHub π) (p : π) : Prop :=
  allowServers ∧ ∃ reg ∈ s.active, ∃ servers, s.heard = some (reg.1.deviceToken, servers) ∧
    p ∈ servers

/-- The gate admits exactly the allow-list. -/
def Narrow (s : NodeHub π) : Prop := ∀ p, s.gate.IsAllowed p ↔ p ∈ s.base

/-- The gate admits the allow-list and at most servers besides; and no more than the allow-list once
the watch has ended. -/
structure Sound (allowServers : Bool) (s : NodeHub π) : Prop where
  within : ∀ p, s.gate.IsAllowed p → p ∈ s.base ∨ s.Serves allowServers p
  base : ∀ p ∈ s.base, s.gate.IsAllowed p
  ended : s.watch = none → s.Narrow

/-! ### What the tasks count on -/

/-- The watch has the allow-list that was read last. -/
def SameBase (s : NodeHub π) (w : Watch π) : Prop := ∀ p, p ∈ w.base ↔ p ∈ s.base

/-- No other registration is active. -/
def NoOther (s : NodeHub π) (reg : Active π) : Prop :=
  ∀ r ∈ s.active, r.1.deviceToken = reg.1.deviceToken

/-- The watch has the allow-list that was read last, and the registration it asked with is active. -/
def Current (s : NodeHub π) (w : Watch π) (reg : Active π) : Prop :=
  s.SameBase w ∧ ∃ r ∈ s.active, r.1.deviceToken = reg.1.deviceToken

/-- An answer that says that the device was removed. -/
def saysRevoked {α : Type*} : Except HubError α → Bool
  | .ok _ => false
  | .error e => e.isRevocation

/-- What a step of the watch counts on. -/
def FairWatch (s : NodeHub π) (d : Found π) (w : Watch π) : Prop :=
  match w.phase with
  | .publishing reg => d.setApp.isOk ∧ d.write → s.NoOther reg
  | .looping => d.read ∨ s.Narrow
  | .polling reg => (d.devices.isOk → s.Current w reg) ∧ (saysRevoked d.devices → s.SameBase w)
  | .checking _ => saysRevoked d.me → s.SameBase w
  | .listing reg => d.devices.isOk → s.Current w reg
  | _ => True

/-- **With `allowServers`, what a task goes on with is still so.** The watch sets the gate only with
the allow-list that was read last, and admits the servers only of the registration that is active;
its file becomes unreadable, and the registration is deleted, only while no servers are admitted; and
a registration is stored, or written back, only where no other one is active. -/
def Fair (allowServers : Bool) (s : NodeHub π) (a : Act π) : Prop :=
  allowServers →
    match a with
    | .sighup _ => True
    | .handle d =>
      match s.handler with
      | .resolving _ reg => d.resolveToken.isOk ∧ d.write → s.NoOther reg
      | _ => True
    | .watch d => ∀ w ∈ s.watch, s.FairWatch d w
    | .forget => s.Narrow
    | .register reg => s.NoOther reg

/-! ### Every step keeps the gate right -/

variable {allowServers : Bool} {s' : NodeHub π} {w : Watch π} {reg : Active π}

theorem Sound.narrow_of (h : s.Sound allowServers) (hnone : ∀ p, ¬ s.Serves allowServers p) :
    s.Narrow :=
  fun p ↦ ⟨fun hp ↦ (h.within p hp).resolve_right (hnone p), h.base p⟩

theorem Sound.narrow_of_active (h : s.Sound allowServers) (hnone : s.active = none) : s.Narrow :=
  h.narrow_of fun _ ⟨_, _, hr, _⟩ ↦ by rw [hnone] at hr; cases hr

theorem Sound.narrow_of_false (h : s.Sound false) : s.Narrow := h.narrow_of fun _ hs ↦ by cases hs.1

/-- A gate that was just set to the allow-list is right. -/
theorem sound_of_set {g : PeerGate π} {list : List π} (hgate : s'.gate = (g.setAllowed list).1)
    (hlist : ∀ p, p ∈ list ↔ p ∈ s'.base) : s'.Sound allowServers := by
  have hnarrow : s'.Narrow := fun p ↦ by rw [hgate, PeerGate.isAllowed_setAllowed, hlist]
  exact ⟨fun p hp ↦ .inl ((hnarrow p).1 hp), fun p hp ↦ (hnarrow p).2 hp, fun _ ↦ hnarrow⟩

/-- The gate stays right if it stays as it is, the active registration keeps its token, and the
watch does not end with servers admitted. -/
theorem Sound.keep (h : s.Sound allowServers) (hgate : s'.gate = s.gate) (hbase : s'.base = s.base)
    (hheard : s'.heard = s.heard)
    (hactive : allowServers → s.Narrow ∨
      ∀ r ∈ s.active, ∃ r' ∈ s'.active, r'.1.deviceToken = r.1.deviceToken)
    (hended : s'.watch = none → s.watch = none ∨ s.Narrow) : s'.Sound allowServers where
  within p hp := by
    rw [hgate] at hp
    rw [hbase]
    rcases h.within p hp with hp | ⟨hallow, r, hr, servers, hservers, hmem⟩
    · exact .inl hp
    rcases hactive hallow with hnarrow | hkeep
    · exact .inl ((hnarrow p).1 hp)
    · obtain ⟨r', hr', htoken⟩ := hkeep r hr
      exact .inr ⟨hallow, r', hr', servers, by rw [hheard, htoken, hservers], hmem⟩
  base p hp := by
    rw [hgate]
    exact h.base p (hbase ▸ hp)
  ended hnone := by
    have hnarrow : s.Narrow := (hended hnone).elim h.ended id
    intro p
    rw [hgate, hbase]
    exact hnarrow p

/-- Where a task stands does not matter to the gate. -/
theorem Sound.goOn (h : s.Sound allowServers) (w : Watch π) (phase : Phase π) :
    (s.goOn w phase).Sound allowServers :=
  h.keep rfl rfl rfl (fun _ ↦ .inr fun r hr ↦ ⟨r, hr, rfl⟩) nofun

theorem active_of_file (hfile : s'.file = some reg.1) : s'.active = some reg := by
  rw [active, hfile]
  exact dif_neg reg.2

theorem Sound.store (h : s.Sound allowServers) (hother : allowServers → s.NoOther reg) :
    { s with file := some reg.1 }.Sound allowServers :=
  h.keep rfl rfl rfl
    (fun hallow ↦ .inr fun r hr ↦ ⟨reg, active_of_file rfl, (hother hallow r hr).symm⟩) .inl

theorem Sound.save (h : s.Sound allowServers)
    (hother : allowServers → d.write → s.NoOther reg) : (s.save d reg).Sound allowServers := by
  unfold NodeHub.save
  split
  case isTrue hwrite => exact h.store fun hallow ↦ hother hallow hwrite
  case isFalse => exact h

theorem Sound.admitServers (h : s.Sound allowServers) {devices : List (Device π)}
    (hcurrent : allowServers → s.Current w reg) :
    ((admitServers allowServers s w reg devices).goOn w .looping).Sound allowServers := by
  cases allowServers with
  | false =>
    have hnarrow := h.narrow_of_false
    exact ⟨fun p hp ↦ .inl ((hnarrow p).1 hp), h.base, nofun⟩
  | true =>
    obtain ⟨hbase, r, hr, htoken⟩ := hcurrent rfl
    have hgate : ∀ p, (s.gate.setAllowed (w.base ++
        (mainServers devices).filter (· ∉ w.base))).1.IsAllowed p ↔
        p ∈ w.base ∨ p ∈ (mainServers devices).filter (· ∉ w.base) := fun p ↦ by
      rw [PeerGate.isAllowed_setAllowed, List.mem_append]
    refine ⟨fun p hp ↦ ?_, fun p hp ↦ (hgate p).2 (.inl ((hbase p).2 hp)), nofun⟩
    rcases (hgate p).1 hp with hp | hp
    · exact .inl ((hbase p).1 hp)
    · exact .inr ⟨rfl, r, hr, mainServers devices, by rw [htoken]; rfl, (List.mem_filter.1 hp).1⟩

theorem Sound.onRevoked (h : s.Sound allowServers) (hbase : allowServers → s.SameBase w) :
    (onRevoked allowServers s d w).Sound allowServers := by
  cases allowServers with
  | false =>
    have hnarrow := h.narrow_of_false
    exact ⟨fun p hp ↦ .inl ((hnarrow p).1 hp), h.base, fun _ ↦ hnarrow⟩
  | true => exact sound_of_set rfl (hbase rfl)

/-- **One step of the watch** keeps the gate right. -/
theorem Sound.watchStep (h : s.Sound allowServers) (hfair : allowServers → s.FairWatch d w) :
    (watchStep app allowServers s d w).Sound allowServers := by
  unfold NodeHub.watchStep
  unfold FairWatch at hfair
  split
  case h_1 => split <;> exact h.goOn w _
  case h_2 reg hphase =>
    rw [hphase] at hfair
    split
    case h_1 device hanswer =>
      have hsave : (s.save d (reg.withDevice device)).Sound allowServers :=
        h.save fun hallow hwrite ↦ hfair hallow ⟨by rw [hanswer]; rfl, hwrite⟩
      exact hsave.goOn w _
    case h_2 => exact h.goOn w _
  case h_3 hphase =>
    rw [hphase] at hfair
    split
    case h_1 hnone =>
      -- The watch ends: its file cannot be read, or has no active registration.
      have hnarrow : s.Narrow := by
        cases hread : d.read with
        | true =>
          rw [activeRegistration, if_pos hread] at hnone
          exact h.narrow_of_active hnone
        | false =>
          cases allowServers with
          | false => exact h.narrow_of_false
          | true => exact (hfair rfl).resolve_left fun hread' ↦ by rw [hread] at hread'; cases hread'
      exact h.keep rfl rfl rfl (fun _ ↦ .inl hnarrow) fun _ ↦ .inr hnarrow
    case h_2 => exact h.goOn w _
  case h_4 => split <;> exact h.goOn _ _
  case h_5 reg hphase =>
    rw [hphase] at hfair
    split
    case h_1 devices hanswer =>
      exact h.admitServers fun hallow ↦ (hfair hallow).1 (by rw [hanswer]; rfl)
    case h_2 e hanswer =>
      split
      case isTrue hrevoked => exact h.onRevoked fun hallow ↦ (hfair hallow).2 (by rw [hanswer]; exact hrevoked)
      case isFalse => exact h.goOn w _
  case h_6 hphase =>
    rw [hphase] at hfair
    split
    case h_1 => exact h.goOn w _
    case h_2 e hanswer =>
      split
      case isTrue hrevoked => exact h.onRevoked fun hallow ↦ hfair hallow (by rw [hanswer]; exact hrevoked)
      case isFalse => exact h.goOn w _
  case h_7 reg hphase =>
    rw [hphase] at hfair
    split
    case h_1 devices hanswer => exact h.admitServers fun hallow ↦ hfair hallow (by rw [hanswer]; rfl)
    case h_2 => exact h.goOn w _

/-- **One step** keeps the gate right. -/
theorem Sound.step {a : Act π} (h : s.Sound allowServers)
    (hfair : Fair allowServers s a) : (step app allowServers s a).Sound allowServers := by
  cases a with simp only [NodeHub.step]
  | sighup d =>
    split
    case h_1 list _ _ =>
      have hset : { s with gate := (s.gate.setAllowed list).1, base := list }.Sound allowServers :=
        sound_of_set rfl fun _ ↦ Iff.rfl
      split
      · exact hset
      · exact hset.keep rfl rfl rfl (fun _ ↦ .inr fun r hr ↦ ⟨r, hr, rfl⟩) .inl
    case h_2 => exact h
  | handle d =>
    have hmove : ∀ {s : NodeHub π} {handler : Handler π}, s.Sound allowServers →
        { s with handler }.Sound allowServers :=
      fun h ↦ h.keep rfl rfl rfl (fun _ ↦ .inr fun r hr ↦ ⟨r, hr, rfl⟩) .inl
    split
    case h_1 => exact h
    case h_2 list reg hhandler =>
      simp only [Fair, hhandler] at hfair
      split
      case h_1 token hanswer =>
        have hsave : (s.save d (reg.withResolveToken token)).Sound allowServers :=
          h.save fun hallow hwrite ↦ hfair hallow ⟨by rw [hanswer]; rfl, hwrite⟩
        exact hmove hsave
      case h_2 => exact hmove h
    case h_3 list _ =>
      exact h.keep rfl rfl rfl (fun _ ↦ .inr fun r hr ↦ ⟨r, hr, rfl⟩) nofun
  | watch d =>
    split
    case h_1 => exact h
    case h_2 w hw => exact h.watchStep fun hallow ↦ hfair hallow w hw
  | forget =>
    exact h.keep rfl rfl rfl (fun hallow ↦ .inl (hfair hallow)) .inl
  | register reg => exact h.store hfair

theorem sound_start (file : Option (Registration π)) (allowed : List π) :
    (start file allowed).Sound allowServers where
  within _ hp := .inl (PeerGate.isAllowed_allowList.1 hp)
  base _ hp := PeerGate.isAllowed_allowList.2 hp
  ended h := by cases h

/-- **The gate admits the allow-list, and with `allowServers` at most the servers of the last list
received for the active registration besides**; and exactly the allow-list once the watch has ended. -/
theorem gate_within (app : DeviceApp) (allowServers : Bool) (file : Option (Registration π))
    (allowed : List π) (s : NodeHub π)
    (h : ((system app allowServers (start file allowed)).restrict (Fair allowServers)).Reachable s) :
    (∀ p, s.gate.IsAllowed p → p ∈ s.base ∨ s.Serves allowServers p) ∧
    (s.watch = none → ∀ p, s.gate.IsAllowed p ↔ p ∈ s.base) := by
  have hsound : s.Sound allowServers := by
    refine h.invariant (fun s hs ↦ ?_) fun s a s' _ hs hstep ↦ ?_
    · obtain rfl := hs
      exact sound_start file allowed
    · obtain ⟨hfair, rfl⟩ := hstep
      exact hs.step hfair
  exact ⟨hsound.within, hsound.ended⟩

/-! ### Runs -/

/-- An app. -/
def emberNode : DeviceApp := ⟨"ember-node", "1", ["ember-node-v1"]⟩

/-- An active registration. -/
def registered : Active ℕ :=
  ⟨⟨"https://hub", ⟨5, .computer, some emberNode⟩, "dpd_1", some "dpr_1", 0, none⟩, by decide⟩

/-- Everything can be read and written, the allow-list is empty, the hub has the long-poll, and the
account has one server, peer 7. -/
def grants : Found ℕ where
  now := 5
  read := true
  write := true
  allowed := some []
  devicesWait := true
  setApp := .ok ⟨5, .computer, some emberNode⟩
  resolveToken := .ok "dpr_2"
  me := .ok ()
  devices := .ok [⟨7, .mainServer, none⟩]

/-- The watch starts, discovers the hub and receives a list. -/
def receives : List (Act ℕ) := List.replicate 4 (.watch grants)

/-- It receives a list; then a SIGHUP takes every peer off the allow-list, and starts another watch
that receives a list. -/
def receiveAndReload : List (Act ℕ) :=
  receives ++ [.sighup grants, .handle grants] ++ receives

theorem allMeet_receiveAndReload :
    AllMeet (step emberNode true) (Fair true) (start (some registered.1) [1]) receiveAndReload := by
  have hsome : ∀ {s : NodeHub ℕ} {w : Watch ℕ}, s.watch = some w → s.FairWatch grants w →
      Fair true s (.watch grants) := fun hw hfair _ w' hw' ↦ by
    obtain rfl := Option.some.inj (hw.symm.trans hw')
    exact hfair
  have hlist : ∀ {s : NodeHub ℕ} {w : Watch ℕ}, s.watch = some w → w.phase = .polling registered →
      w.base = s.base → s.active = some registered → Fair true s (.watch grants) :=
    fun {s w} hw hphase hbase hactive ↦ hsome hw (by
      unfold FairWatch
      rw [hphase]
      exact ⟨fun _ ↦ ⟨fun p ↦ by rw [hbase], registered, hactive, rfl⟩, fun h ↦ by cases h⟩)
  exact ⟨hsome rfl trivial, hsome rfl (.inl rfl), hsome rfl trivial, hlist rfl rfl rfl rfl,
    fun _ ↦ trivial, fun _ ↦ trivial, hsome rfl trivial, hsome rfl (.inl rfl), hsome rfl trivial,
    hlist rfl rfl rfl rfl, trivial⟩

/-- Peer 7 is admitted, and peer 1 is not. -/
theorem gate_within_receiveAndReload :
    (receiveAndReload.foldl (step emberNode true)
        (start (some registered.1) [1])).Serves true 7 ∧
      ¬ (receiveAndReload.foldl (step emberNode true)
        (start (some registered.1) [1])).gate.IsAllowed 1 := by
  have hwithin := (gate_within emberNode true (some registered.1) [1] _
    (.foldl_of_allMeet (S := system emberNode true _) (fun _ _ ↦ rfl) (.start rfl)
      allMeet_receiveAndReload)).1
  exact ⟨(hwithin 7 (by decide)).resolve_left List.not_mem_nil, by decide⟩

/-- A SIGHUP takes peer 1 off the allow-list; before its handler starts another watch, the one there
is receives a list. -/
def receiveWhileReloading : List (Act ℕ) :=
  [.watch grants, .watch grants, .watch grants, .sighup grants, .watch grants, .handle grants]

/-- The watch receives a list; then the registration is deleted, and the watch finds no file. -/
def forgetAfterReceiving : List (Act ℕ) := receives ++ [.forget, .watch grants]

/-- Neither holds in every run: a peer that was taken off the allow-list is admitted after the
handler has finished, or a server after the watch has ended. -/
theorem not_gate_within :
    (¬ ∀ s, (system emberNode true (start (some registered.1) [1])).Reachable s →
      s.handler = .idle → ∀ p, s.gate.IsAllowed p → p ∈ s.base ∨ s.Serves true p) ∧
    ¬ ∀ s, (system emberNode true (start (some registered.1) [1])).Reachable s →
      s.watch = none → ∀ p, s.gate.IsAllowed p ↔ p ∈ s.base := by
  constructor
  · intro h
    rcases h _ (reachable_foldl receiveWhileReloading) rfl 1 (by decide) with hbase | hserves
    · cases hbase
    · obtain ⟨-, reg, -, servers, hservers, hmem⟩ := hserves
      obtain rfl : [7] = servers := congrArg Prod.snd (Option.some.inj hservers)
      exact absurd hmem (by decide)
  · intro h
    have hserver := (h _ (reachable_foldl forgetAfterReceiving) rfl 7).1 (by decide)
    exact absurd hserver (by decide)

end NodeHub

end Ember.Node
