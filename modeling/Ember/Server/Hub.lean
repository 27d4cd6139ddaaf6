import Ember.Foundation.Calls
import Ember.Hub.Registration

/-!
# The server and the hub

What the server does with its registration. Each operation reads the stored registration, asks the
hub, and goes on with the record it read: it writes the record back, or gives its token to the
transport. A step here is what happens between two questions to the hub (a database statement may
fail in it); between publishing its app and giving the transport its token, a completed link has a
step of its own.
-/

namespace Ember.Server

open Ember.Hub StepSystem

variable {π : Type*}

/-- `ServerHub`, as far as the registration goes. -/
structure ServerHub (π : Type*) where
  stored : Stored π
  /-- There is a transport. -/
  attached : Bool
  /-- The token the transport resolves peers with; nothing as long as it does not use the hub's
  directory. -/
  directory : Option (Option String)
  deriving DecidableEq

variable {app : DeviceApp}

namespace ServerHub

/-- What a step finds out. -/
structure Found (π : Type*) where
  now : ℤ
  /-- The registration can be read. -/
  read : Bool
  /-- A statement that changes it succeeds. -/
  write : Bool
  /-- The transport can use the directory. -/
  enable : Bool
  /-- Devices are synced with the account. -/
  sync : Bool
  /-- What the hub answers to `PATCH /v1/devices/{id}`. -/
  setApp : Except HubError (Device π)
  /-- What it answers to `POST /v1/me/resolve-token`. -/
  resolveToken : Except HubError String
  /-- What it answers to `DELETE /v1/devices/{id}`. -/
  removeDevice : Except HubError Unit
  /-- What it answers to `GET /v1/me`, or `GET /v1/devices`. -/
  me : Except HubError Unit

/-- The operations. -/
inductive Call (π : Type*)
  | publishApp
  | ensureResolveToken
  | check
  /-- From a call whose answer said that the device was removed. -/
  | markRevoked
  | leave (localOnly : Bool)
  /-- A link was approved. -/
  | complete (reg : Active π)

/-- What is left of an operation. `completing` is the registration of the link that a
`publish_app` belongs to. -/
inductive Todo (π : Type*)
  | call (c : Call π)
  | publishing (reg : Active π) (completing : Option (Active π))
  | resolving (reg : Active π)
  | checking
  | leaving
  /-- A link was approved; its registration has no resolve token yet. -/
  | completing (reg : Active π)
  | discovering (reg : Active π)
  | enabling (reg : Active π)
  /-- The transport changes its relays. -/
  | relaying

variable {h : ServerHub π} {d : Found π} {reg : Active π}

/-- `registration`. -/
def registration (h : ServerHub π) (d : Found π) : Option (Registration π) :=
  if d.read then h.stored.reg else none

/-- `save_registration`, of a record that was read earlier. -/
def writeBack (h : ServerHub π) (d : Found π) (reg : Active π) : ServerHub π :=
  if d.write then { h with stored := h.stored.writeBack reg } else h

/-- `set_directory_token`: without effect on a transport that does not use the directory. -/
def setDirectoryToken (h : ServerHub π) (token : Option String) : ServerHub π :=
  { h with directory := h.directory.map fun _ ↦ token }

/-- `mark_revoked`. -/
def markRevoked (h : ServerHub π) (d : Found π) : ServerHub π :=
  if d.write then
    { h with stored := h.stored.markRevoked d.now }.setDirectoryToken none
  else h

/-- What an answer says of the registration. -/
def note {α : Type*} (h : ServerHub π) (d : Found π) : Except HubError α → ServerHub π
  | .ok _ => h
  | .error e => if e.isRevocation then h.markRevoked d else h

/-- The end of `leave`. -/
def forget (h : ServerHub π) (d : Found π) : ServerHub π :=
  let h := h.setDirectoryToken none
  if d.write then { h with stored := h.stored.remove } else h

/-- The first part of `publish_app`: the question to ask, if there is one. -/
def toPublish (h : ServerHub π) (d : Found π) (app : DeviceApp) : Option (Active π) :=
  ((h.registration d).bind Registration.active).filter fun reg ↦ reg.1.device.app ≠ some app

/-- A link has a registration with a resolve token, if the hub gave one: it is saved. -/
def saveLinked (h : ServerHub π) (d : Found π) (reg : Active π) : ServerHub π × Option (Todo π) :=
  if d.write then ({ h with stored := h.stored.link reg }, some (.discovering reg)) else (h, none)

/-- One step of an operation; `app` is what the server reports as its app. -/
def step (app : DeviceApp) (h : ServerHub π) (todo : Todo π) (d : Found π) :
    ServerHub π × Option (Todo π) :=
  match todo with
  | .call .publishApp => (h, (h.toPublish d app).map (.publishing · none))
  | .call .ensureResolveToken =>
    (h, (((h.registration d).bind Registration.active).filter
      (·.1.resolveToken = none)).map .resolving)
  | .call .check =>
    (h, ((h.registration d).bind Registration.active).map fun _ ↦ .checking)
  | .call .markRevoked => (h.markRevoked d, none)
  | .call (.leave localOnly) =>
    match h.registration d with
    | none => (h, none)
    | some reg => if localOnly ∨ reg.isRevoked then (h.forget d, none) else (h, some .leaving)
  | .call (.complete reg) =>
    if reg.1.resolveToken = none then (h, some (.completing reg)) else h.saveLinked d reg
  | .publishing reg completing =>
    ((match d.setApp with
      | .ok device => h.writeBack d (reg.withDevice device)
      | .error e => h.note d (.error e : Except HubError (Device π))),
      completing.map .enabling)
  | .resolving reg =>
    ((match d.resolveToken with
      | .ok token => h.writeBack d (reg.withResolveToken token)
      | .error e => h.note d (.error e : Except HubError String)), none)
  | .checking => (h.note d d.me, none)
  | .leaving =>
    match d.removeDevice with
    | .ok () => (h.forget d, none)
    | .error e => if e.isUnauthorized ∨ e = .notFound then (h.forget d, none) else (h, none)
  | .completing reg =>
    -- The hub may refuse: then it is saved without.
    match d.resolveToken with
    | .ok token => h.saveLinked d (reg.withResolveToken token)
    | .error _ => h.saveLinked d reg
  | .discovering reg =>
    match h.toPublish d app with
    | some read => (h, some (.publishing read (some reg)))
    | none => (h, some (.enabling reg))
  | .enabling reg =>
    if h.attached then
      if d.enable then ({ h with directory := some reg.1.resolveToken }, some .relaying)
      else (h, none)
    else (h, some .relaying)
  | .relaying =>
    -- `sync_devices` asks with the stored token.
    if d.sync ∧ ((h.registration d).bind Registration.active).isSome then (h, some .checking)
    else (h, none)

/-- The operations on the registration. -/
def program (app : DeviceApp) : Program (ServerHub π) (Call π) (Todo π) (Found π) Empty where
  enter := .call
  step := step app
  env := fun _ e ↦ e.elim

/-- The server starts, with a registration or without; its transport was given the token. -/
def start (reg : Option (Registration π)) (attached directory : Bool) : ServerHub π where
  stored := .begin reg
  attached := attached
  directory := if directory then some (reg.bind Registration.directoryToken) else none

/-- **What was read is still so**: a record is written back, and a token is given to the transport,
only while an active registration is stored. -/
def Fair (w : Calls (ServerHub π) (Todo π)) : CallAct (Call π) (Found π) Empty → Prop
  | .step i d =>
    match w.call i with
    | some (.publishing _ _) => d.setApp.isOk ∧ d.write → w.shared.stored.active.isSome
    | some (.resolving _) => d.resolveToken.isOk ∧ d.write → w.shared.stored.active.isSome
    | some (.enabling reg) => reg.1.resolveToken.isSome ∧ w.shared.attached ∧ d.enable →
      w.shared.stored.active.isSome
    | _ => True
  | _ => True

/-- The stored registration is what it should be, and the transport has a token only while there is
an active one. -/
structure Sound (h : ServerHub π) : Prop where
  stored : h.stored.Sound
  directory : ∀ token, h.directory = some (some token) → h.stored.active.isSome

/-! ### Every operation keeps it sound -/

theorem sound_start (reg : Option (Registration π)) (attached directory : Bool) :
    (start reg attached directory).Sound where
  stored := Stored.sound_begin reg
  directory token htoken := by
    simp only [start] at htoken
    split at htoken
    case isFalse => cases htoken
    obtain ⟨r, rfl, hr⟩ := Option.bind_eq_some_iff.1 (Option.some.inj htoken)
    have hactive : ¬ r.isRevoked := fun hrevoked ↦ by
      rw [Registration.directoryToken, if_pos hrevoked] at hr
      cases hr
    have heq : (start (some r) attached directory).stored.active = some ⟨r, hactive⟩ :=
      Stored.active_eq_some.2 rfl
    rw [heq]
    rfl

/-- Without a token nothing is asked of the registration. -/
theorem sound_setDirectoryToken {s : Stored π} (hs : s.Sound) :
    ({ h with stored := s }.setDirectoryToken none).Sound where
  stored := hs
  directory token htoken := by
    obtain ⟨_, _, hnone⟩ := Option.map_eq_some_iff.1 htoken
    cases hnone

theorem Sound.writeBack (hh : h.Sound) (hactive : d.write → h.stored.active.isSome) :
    (h.writeBack d reg).Sound := by
  unfold ServerHub.writeBack
  split
  case isTrue hwrite =>
    refine ⟨hh.stored.writeBack (hactive hwrite), fun _ _ ↦ ?_⟩
    rw [Stored.active_writeBack]
    rfl
  case isFalse => exact hh

theorem Sound.markRevoked (hh : h.Sound) : (h.markRevoked d).Sound := by
  unfold ServerHub.markRevoked
  split
  · exact sound_setDirectoryToken hh.stored.markRevoked
  · exact hh

theorem Sound.note {α : Type*} (hh : h.Sound) (answer : Except HubError α) :
    (h.note d answer).Sound := by
  unfold ServerHub.note
  split
  · exact hh
  · split
    · exact hh.markRevoked
    · exact hh

theorem Sound.forget (hh : h.Sound) : (h.forget d).Sound := by
  unfold ServerHub.forget
  split
  · exact sound_setDirectoryToken (h := h) hh.stored.remove
  · exact sound_setDirectoryToken (h := h) hh.stored

theorem Sound.saveLinked (hh : h.Sound) : (h.saveLinked d reg).1.Sound := by
  unfold ServerHub.saveLinked
  split
  · refine ⟨Stored.sound_link (s := h.stored), fun _ _ ↦ ?_⟩
    rw [Stored.active_link]
    rfl
  · exact hh

/-- **One step** keeps the server's hub sound. -/
theorem Sound.step {w : Calls (ServerHub π) (Todo π)} {i : ℕ} {todo : Todo π} (hh : w.shared.Sound)
    (hfair : Fair w (.step i d)) (htodo : w.call i = some todo) :
    (w.shared.step app todo d).1.Sound := by
  simp only [Fair, htodo] at hfair
  cases todo with simp only [ServerHub.step]
  | call c =>
    cases c with
    | markRevoked => exact hh.markRevoked
    | leave localOnly =>
      simp only [ServerHub.step]
      split
      · exact hh
      · split
        · exact hh.forget
        · exact hh
    | complete reg =>
      simp only [ServerHub.step]
      split
      · exact hh
      · exact hh.saveLinked
    | _ => exact hh
  | publishing reg completing =>
    cases hanswer : d.setApp with
    | ok device => exact hh.writeBack fun hwrite ↦ hfair ⟨by rw [hanswer]; rfl, hwrite⟩
    | error e => exact hh.note _
  | resolving reg =>
    cases hanswer : d.resolveToken with
    | ok token => exact hh.writeBack fun hwrite ↦ hfair ⟨by rw [hanswer]; rfl, hwrite⟩
    | error e => exact hh.note _
  | checking => exact hh.note _
  | leaving =>
    split
    · exact hh.forget
    · split
      · exact hh.forget
      · exact hh
  | completing reg =>
    split <;> exact hh.saveLinked
  | discovering | relaying =>
    split <;> exact hh
  | enabling reg =>
    split_ifs with hattached henable
    · refine ⟨hh.stored, fun token htoken ↦ hfair ⟨?_, hattached, henable⟩⟩
      have htoken : reg.1.resolveToken = some token := Option.some.inj htoken
      rw [htoken]
      rfl
    · exact hh
    · exact hh

theorem sound_of_run {reg : Option (Registration π)} {attached directory : Bool}
    {w : Calls (ServerHub π) (Todo π)}
    (h : ((Calls.system (program app) (start reg attached directory)).restrict Fair).Reachable w) :
    w.shared.Sound := by
  refine (Calls.invariant (P := program app) (I := Sound) (J := fun _ _ ↦ True)
    (sound_start reg attached directory) (fun _ _ _ ↦ trivial) (fun _ e _ _ ↦ e.elim)
    (fun w i d todo hfair htodo hh _ ↦ ⟨?_, fun _ _ ↦ trivial, fun _ _ _ _ ↦ trivial⟩) h).1
  exact hh.step hfair htodo

end ServerHub

end Ember.Server
