import Mathlib.Data.Int.Notation
import Mathlib.Data.Option.Basic
import Mathlib.Tactic.ByContra

/-!
# A device's registration with the hub

The record a device keeps of its membership in a hub account, and what has become of the stored one
since a link last completed. The server keeps it in a row of its database, the node in a file; both
read it, ask the hub something, and write back the whole record they read. So writing back is an
operation of its own here, and `Stored.Sound` says what must not come of it.
-/

namespace Ember.Hub

/-- `DeviceApp`: what a device says it runs. -/
structure DeviceApp where
  kind : String
  version : String
  services : List String
  deriving DecidableEq, Repr

/-- `Role`: what a device is in the account. -/
inductive Role
  | mainServer
  | computer
  | client
  deriving DecidableEq, Repr

/-- `Device`: what the hub says of a device. -/
structure Device (π : Type*) where
  endpointId : π
  role : Role
  app : Option DeviceApp
  deriving DecidableEq

/-- `Registration`. -/
structure Registration (π : Type*) where
  hubUrl : String
  device : Device π
  deviceToken : String
  /-- The read-only token that may go in a URL. -/
  resolveToken : Option String
  registeredAt : ℤ
  revokedAt : Option ℤ
  deriving DecidableEq

/-- `HubError`, as far as anything depends on it. -/
inductive HubError
  /-- A 401 without a code. -/
  | unauthorized
  | deviceRemoved
  | invalidCredentials
  | notFound
  /-- The hub could not be asked, or refused for another reason. -/
  | other
  deriving DecidableEq, Repr

/-- `HubError::is_unauthorized`. -/
def HubError.isUnauthorized (e : HubError) : Bool :=
  e = .unauthorized ∨ e = .deviceRemoved ∨ e = .invalidCredentials

/-- `HubError::is_revocation`. -/
def HubError.isRevocation (e : HubError) : Bool := e = .unauthorized ∨ e = .deviceRemoved

variable {π : Type*}

namespace Registration

/-- `Registration::is_revoked`. -/
def isRevoked (r : Registration π) : Bool := r.revokedAt.isSome

/-- `Registration::directory_token`: the resolve token, unless revoked. -/
def directoryToken (r : Registration π) : Option String :=
  if r.isRevoked then none else r.resolveToken

end Registration

/-- A registration that is not revoked, as a link makes them. -/
abbrev Active (π : Type*) := {r : Registration π // ¬ r.isRevoked}

/-- The registration, if it is not revoked. -/
def Registration.active (r : Registration π) : Option (Active π) :=
  if h : r.isRevoked then none else some ⟨r, h⟩

namespace Active

/-- With what the hub says of the device. -/
def withDevice (r : Active π) (device : Device π) : Active π := ⟨{ r.1 with device }, r.2⟩

/-- With a resolve token. -/
def withResolveToken (r : Active π) (token : String) : Active π :=
  ⟨{ r.1 with resolveToken := some token }, r.2⟩

end Active

/-- What has become of the stored registration since a link last completed. -/
inductive Since
  | nothing
  | revoked
  /-- The device left the account. -/
  | left
  deriving DecidableEq, Repr

/-- The stored registration. Only statements speak of the second field. -/
structure Stored (π : Type*) where
  reg : Option (Registration π)
  since : Since
  deriving DecidableEq

namespace Stored

/-- A stored registration, to begin with. -/
def begin (reg : Option (Registration π)) : Stored π :=
  ⟨reg, if reg.any Registration.isRevoked then .revoked else .nothing⟩

/-- The stored registration, if it is not revoked. -/
def active (s : Stored π) : Option (Active π) := s.reg.bind Registration.active

/-- A link completes. -/
def link (_ : Stored π) (reg : Active π) : Stored π := ⟨some reg, .nothing⟩

/-- A record that was read earlier is saved, with something added. -/
def writeBack (s : Stored π) (reg : Active π) : Stored π := { s with reg := some reg }

/-- `mark_revoked`: keeps the record, with the time of its first revocation. -/
def markRevoked (s : Stored π) (now : ℤ) : Stored π :=
  match s.reg with
  | none => s
  | some r => ⟨some { r with revokedAt := some (r.revokedAt.getD now) }, .revoked⟩

/-- The registration is deleted. -/
def remove (s : Stored π) : Stored π :=
  match s.reg with
  | none => s
  | some _ => ⟨none, .left⟩

/-- **Once a revocation has been stored it stays stored, and once the registration has been deleted
it is not there again**, as long as no link completes. -/
structure Sound (s : Stored π) : Prop where
  revoked : s.since = .revoked → ∃ r ∈ s.reg, r.isRevoked
  left : s.since = .left → s.reg = none

variable {s : Stored π} {r : Active π} {now : ℤ}

theorem active_eq_some {a : Active π} : s.active = some a ↔ s.reg = some a.1 := by
  unfold active Registration.active
  cases s.reg with
  | none => exact ⟨nofun, nofun⟩
  | some r =>
    simp only [Option.bind_some, Option.some.injEq]
    split
    case isTrue h => exact ⟨nofun, fun heq ↦ absurd (heq ▸ h) a.2⟩
    case isFalse h => exact ⟨fun heq ↦ congrArg Subtype.val (Option.some.inj heq),
      fun heq ↦ congrArg some (Subtype.ext heq)⟩

/-- While an active registration is stored, nothing has become of it. -/
theorem Sound.since_eq_nothing (h : s.Sound) (ha : s.active.isSome) : s.since = .nothing := by
  obtain ⟨a, ha⟩ := Option.isSome_iff_exists.1 ha
  have hreg := active_eq_some.1 ha
  cases hs : s.since with
  | nothing => rfl
  | revoked =>
    obtain ⟨r, hr, hrevoked⟩ := h.revoked hs
    obtain rfl : a.1 = r := Option.some.inj (hreg.symm.trans hr)
    exact absurd hrevoked a.2
  | left => rw [h.left hs] at hreg; cases hreg

theorem sound_begin (reg : Option (Registration π)) : (begin reg).Sound where
  revoked h := by
    cases reg with
    | none => cases h
    | some r =>
      refine ⟨r, rfl, by_contra fun hnot ↦ ?_⟩
      have hnothing : (begin (some r)).since = .nothing := if_neg hnot
      rw [hnothing] at h
      cases h
  left h := by
    unfold begin at h
    split at h <;> cases h

theorem sound_link : (s.link r).Sound := ⟨nofun, nofun⟩

theorem active_link : (s.link r).active = some r := active_eq_some.2 rfl

theorem Sound.writeBack (h : s.Sound) (ha : s.active.isSome) : (s.writeBack r).Sound := by
  have hsince : (s.writeBack r).since = .nothing := h.since_eq_nothing ha
  exact ⟨(fun h ↦ by rw [hsince] at h; cases h), (fun h ↦ by rw [hsince] at h; cases h)⟩

theorem active_writeBack : (s.writeBack r).active = some r := active_eq_some.2 rfl

theorem Sound.markRevoked (h : s.Sound) : (s.markRevoked now).Sound := by
  unfold Stored.markRevoked
  split
  · exact h
  · exact ⟨fun _ ↦ ⟨_, rfl, rfl⟩, nofun⟩

theorem Sound.remove (h : s.Sound) : s.remove.Sound := by
  unfold Stored.remove
  split
  · exact h
  · exact ⟨nofun, fun _ ↦ rfl⟩

end Stored

end Ember.Hub
