import Ember.Foundation.Calls
import Ember.Hub.Registration

/-!
# The node's registration file

What ember node does with `hub.json`. As on the server, an operation reads the file, asks the hub and
may write back the record it read; reading and writing the file is done between two questions to the
hub, and the node and its command line both do it. The link that `register` waits for is an answer
of the hub here; `hub-link.json`, which only helps to resume it, is left out.
-/

namespace Ember.Node.HubFile

open Ember.Hub StepSystem

variable {π : Type*} [DecidableEq π]

/-- What a step finds out. -/
structure Found (π : Type*) where
  now : ℤ
  /-- The file can be read. -/
  read : Bool
  /-- It can be written, or removed. -/
  write : Bool
  setApp : Except HubError (Device π)
  resolveToken : Except HubError String
  removeDevice : Except HubError Unit
  /-- The registration that comes of a link, if it is approved. -/
  link : Option (Active π)

/-- The operations on the file. -/
inductive Call (π : Type*)
  /-- `publish_app`, as the watch calls it: with the registration it has just read. -/
  | publishApp
  /-- `ensure_resolve`, with the active registration that has just been read. -/
  | ensureResolve
  | markRevoked
  | leave (localOnly : Bool)
  | register (key : π)

/-- What is left of an operation. -/
inductive Todo (π : Type*)
  | call (c : Call π)
  | publishing (reg : Active π)
  /-- It waits for a resolve token; a `register` publishes its app after that. -/
  | resolving (reg : Active π) (registering : Bool)
  | leaving
  | linking

variable {s : Stored π} {d : Found π} {reg : Active π}

/-- `RegistrationFile::load`; also nothing when it fails. -/
def load (s : Stored π) (d : Found π) : Option (Registration π) := if d.read then s.reg else none

/-- `RegistrationFile::save`, of a record that was read earlier. -/
def writeBack (s : Stored π) (d : Found π) (reg : Active π) : Stored π :=
  if d.write then s.writeBack reg else s

/-- `RegistrationFile::mark_revoked`. -/
def markRevoked (s : Stored π) (d : Found π) : Stored π :=
  if d.read ∧ d.write then s.markRevoked d.now else s

/-- `RegistrationFile::remove`. -/
def remove (s : Stored π) (d : Found π) : Stored π := if d.write then s.remove else s

/-- What `publish_app` asks, if anything. -/
def publishApp (app : DeviceApp) (reg : Active π) : Option (Todo π) :=
  if reg.1.device.app = some app then none else some (.publishing reg)

/-- `ensure_resolve`, and in a `register` `publish_app` after it. -/
def ensureResolve (app : DeviceApp) (reg : Active π) (registering : Bool) : Option (Todo π) :=
  if reg.1.resolveToken = none then some (.resolving reg registering)
  else if registering then publishApp app reg
  else none

/-- One step of an operation; `app` is what the node reports as its app. -/
def step (app : DeviceApp) (s : Stored π) (todo : Todo π) (d : Found π) :
    Stored π × Option (Todo π) :=
  match todo with
  | .call .publishApp => (s, ((load s d).bind Registration.active).bind (publishApp app))
  | .call .ensureResolve =>
    (s, ((load s d).bind Registration.active).bind (ensureResolve app · false))
  | .call .markRevoked => (markRevoked s d, none)
  | .call (.leave localOnly) =>
    match load s d with
    | none => (s, none)
    | some reg => if localOnly ∨ reg.isRevoked then (remove s d, none) else (s, some .leaving)
  | .call (.register key) =>
    -- An active registration is returned as it is; a file of another key is an error.
    if ¬ d.read then (s, none)
    else if s.reg.any fun reg ↦ reg.device.endpointId ≠ key ∨ ¬ reg.isRevoked then (s, none)
    else (s, some .linking)
  | .publishing reg =>
    match d.setApp with
    | .ok device => (writeBack s d (reg.withDevice device), none)
    | .error _ => (s, none)
  | .resolving reg registering =>
    match d.resolveToken with
    | .ok token =>
      (writeBack s d (reg.withResolveToken token),
        if registering then publishApp app (reg.withResolveToken token) else none)
    | .error _ => (s, if registering then publishApp app reg else none)
  | .leaving =>
    match d.removeDevice with
    | .ok () => (remove s d, none)
    | .error e => if e.isUnauthorized ∨ e = .notFound then (remove s d, none) else (s, none)
  | .linking =>
    match d.link with
    | none => (s, none)
    | some reg => if d.write then (s.link reg, ensureResolve app reg true) else (s, none)

/-- The operations on the file. -/
def program (app : DeviceApp) : Program (Stored π) (Call π) (Todo π) (Found π) Empty where
  enter := .call
  step := step app
  env := fun _ e ↦ e.elim

/-- **What was read is still so**: a record is written back only while an active registration is
stored. -/
def Fair (w : Calls (Stored π) (Todo π)) : CallAct (Call π) (Found π) Empty → Prop
  | .step i d =>
    match w.call i with
    | some (.publishing _) => d.setApp.isOk ∧ d.write → w.shared.active.isSome
    | some (.resolving _ _) => d.resolveToken.isOk ∧ d.write → w.shared.active.isSome
    | _ => True
  | _ => True

omit [DecidableEq π] in
theorem sound_writeBack (hs : s.Sound) (hactive : d.write → s.active.isSome) :
    (writeBack s d reg).Sound := by
  unfold writeBack
  split
  case isTrue hwrite => exact hs.writeBack (hactive hwrite)
  case isFalse => exact hs

omit [DecidableEq π] in
theorem sound_remove (hs : s.Sound) : (remove s d).Sound := by
  unfold remove
  split
  · exact hs.remove
  · exact hs

variable {w : Calls (Stored π) (Todo π)} {app : DeviceApp}

/-- **One step** keeps the stored registration sound. -/
theorem sound_step {i : ℕ} {todo : Todo π} (hs : w.shared.Sound) (hfair : Fair w (.step i d))
    (htodo : w.call i = some todo) :
    (step app w.shared todo d).1.Sound := by
  simp only [Fair, htodo] at hfair
  cases todo with simp only [step]
  | call c =>
    cases c with
    | markRevoked =>
      simp only [step, markRevoked]
      split
      · exact hs.markRevoked
      · exact hs
    | leave localOnly =>
      simp only [step]
      split
      · exact hs
      · split
        · exact sound_remove hs
        · exact hs
    | register key =>
      simp only [step]
      split_ifs <;> exact hs
    | _ => exact hs
  | publishing reg =>
    split
    case h_1 device hanswer => exact sound_writeBack hs fun hwrite ↦ hfair ⟨by rw [hanswer]; rfl, hwrite⟩
    case h_2 => exact hs
  | resolving reg registering =>
    split
    case h_1 token hanswer => exact sound_writeBack hs fun hwrite ↦ hfair ⟨by rw [hanswer]; rfl, hwrite⟩
    case h_2 => exact hs
  | leaving =>
    split
    · exact sound_remove hs
    · split
      · exact sound_remove hs
      · exact hs
  | linking =>
    split
    · exact hs
    · split
      · exact Stored.sound_link (s := w.shared)
      · exact hs

theorem sound_of_run {reg : Option (Registration π)}
    (h : ((Calls.system (program app) (Stored.begin reg)).restrict Fair).Reachable w) :
    w.shared.Sound := by
  refine (Calls.invariant (P := program app) (I := Stored.Sound) (J := fun _ _ ↦ True)
    (Stored.sound_begin reg) (fun _ _ _ ↦ trivial) (fun _ e _ _ ↦ e.elim)
    (fun w i d todo hfair htodo hs _ ↦ ⟨?_, fun _ _ ↦ trivial, fun _ _ _ _ ↦ trivial⟩) h).1
  exact sound_step hs hfair htodo

end Ember.Node.HubFile
