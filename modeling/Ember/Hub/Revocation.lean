import Ember.Node.HubFile
import Ember.Server.Hub

/-!
# Revocations and leaving

A stored revocation stays, and a registration that was deleted does not come back, on the server and
on the node: when they go on with a record they have read only while what they read is still so, and
runs in which they do not.
-/

namespace Ember.Hub

open Ember.Server Ember.Node StepSystem

variable {π : Type*} [DecidableEq π]

/-- **Once a revocation is stored it stays stored, and once the registration is deleted it is not
there again**, until a link completes, on the server and on the node; and the server's transport has
a directory token only while an active registration is stored. -/
theorem revocation_stays (app : DeviceApp) (reg : Option (Registration π)) :
    (∀ attached directory w, ((Calls.system (ServerHub.program app)
        (ServerHub.start reg attached directory)).restrict ServerHub.Fair).Reachable w →
      w.shared.stored.Sound ∧
        ∀ token, w.shared.directory = some (some token) → w.shared.stored.active.isSome) ∧
    ∀ w, ((Calls.system (HubFile.program app) (Stored.begin reg)).restrict
      HubFile.Fair).Reachable w → w.shared.Sound := by
  refine ⟨fun attached directory w h ↦ ?_, fun w h ↦ HubFile.sound_of_run h⟩
  have hsound := ServerHub.sound_of_run h
  exact ⟨hsound.stored, hsound.directory⟩

/-! ### Runs -/

/-- An app. -/
def DeviceApp.ember : DeviceApp := ⟨"ember", "1", []⟩

/-- A registration that does not show the app yet. -/
def linked : Active ℕ :=
  ⟨⟨"https://hub", ⟨1, .mainServer, none⟩, "dpd_1", some "dpr_1", 0, none⟩, by decide⟩

/-- The hub grants what the server asks, and everything can be read and written. -/
def grants : ServerHub.Found ℕ where
  now := 5
  read := true
  write := true
  enable := true
  sync := false
  setApp := .ok ⟨1, .mainServer, some .ember⟩
  resolveToken := .ok "dpr_2"
  removeDevice := .ok ()
  me := .ok ()

/-- The same for the node. -/
def grantsNode : HubFile.Found ℕ where
  now := 5
  read := true
  write := true
  setApp := .ok ⟨1, .computer, some .ember⟩
  resolveToken := .ok "dpr_2"
  removeDevice := .ok ()
  link := some linked

/-- A link completes on the server; later it is revoked. -/
def linkThenRevoke : List (CallAct (ServerHub.Call ℕ) (ServerHub.Found ℕ) Empty) :=
  [.start 0 (.complete linked), .step 0 grants, .step 0 grants, .step 0 grants, .step 0 grants,
    .step 0 grants, .start 1 .markRevoked, .step 1 grants]

/-- The node registers, and leaves. -/
def registerThenLeave : List (CallAct (HubFile.Call ℕ) (HubFile.Found ℕ) Empty) :=
  [.start 0 (.register 1), .step 0 grantsNode, .step 0 grantsNode, .step 0 grantsNode,
    .start 1 (.leave true), .step 1 grantsNode]

theorem revocation_stays_linkThenRevoke :
    (∃ r ∈ (linkThenRevoke.foldl (Calls.act (ServerHub.program .ember))
      (.idle (.start none true false))).shared.stored.reg, r.isRevoked) ∧
    (registerThenLeave.foldl (Calls.act (HubFile.program .ember))
      (.idle (.begin none))).shared.reg = none := by
  have hserver : AllMeet (Calls.act (ServerHub.program .ember)) ServerHub.Fair
      (.idle (.start none true false)) linkThenRevoke :=
    ⟨trivial, trivial, trivial, fun _ ↦ rfl, fun _ ↦ rfl, trivial, trivial, trivial, trivial⟩
  have hnode : AllMeet (Calls.act (HubFile.program .ember)) HubFile.Fair
      (.idle (.begin none)) registerThenLeave :=
    ⟨trivial, trivial, trivial, fun _ ↦ rfl, trivial, trivial, trivial⟩
  obtain ⟨hstays, hstaysNode⟩ := revocation_stays .ember (none : Option (Registration ℕ))
  have hsound := (hstays true false _ (.foldl_of_allMeet
    (S := Calls.system (ServerHub.program .ember) _) (fun _ _ ↦ rfl) (.start rfl) hserver)).1
  have hsoundNode := hstaysNode _ (.foldl_of_allMeet
    (S := Calls.system (HubFile.program .ember) _) (fun _ _ ↦ rfl) (.start rfl) hnode)
  exact ⟨hsound.revoked rfl, hsoundNode.left rfl⟩

/-- While the hub is told of the app, the registration is revoked. -/
def revokeWhilePublishing : List (CallAct (ServerHub.Call ℕ) (ServerHub.Found ℕ) Empty) :=
  [.start 0 .publishApp, .step 0 grants, .start 1 .markRevoked, .step 1 grants, .step 0 grants]

/-- While the hub is told of the app, the server leaves. -/
def leaveWhilePublishing : List (CallAct (ServerHub.Call ℕ) (ServerHub.Found ℕ) Empty) :=
  [.start 0 .publishApp, .step 0 grants, .start 1 (.leave true), .step 1 grants, .step 0 grants]

/-- While a completed link asks the hub for its relays, the server leaves. -/
def leaveWhileCompleting : List (CallAct (ServerHub.Call ℕ) (ServerHub.Found ℕ) Empty) :=
  [.start 0 (.complete linked), .step 0 grants, .start 1 (.leave true), .step 1 grants,
    .step 0 grants, .step 0 grants]

/-- The same as `revokeWhilePublishing`, on the node. -/
def revokeWhilePublishingNode : List (CallAct (HubFile.Call ℕ) (HubFile.Found ℕ) Empty) :=
  [.start 0 .publishApp, .step 0 grantsNode, .start 1 .markRevoked, .step 1 grantsNode,
    .step 0 grantsNode]

/-- None of it holds in every run: a revocation is lost, a deleted registration is there again, and
the transport has a token without a registration. -/
theorem not_revocation_stays :
    (¬ ∀ w, (Calls.system (ServerHub.program .ember)
        (.start (some linked.1) true true)).Reachable w →
      w.shared.stored.since = .revoked → ∃ r ∈ w.shared.stored.reg, r.isRevoked) ∧
    (¬ ∀ w, (Calls.system (ServerHub.program .ember)
        (.start (some linked.1) true true)).Reachable w →
      w.shared.stored.since = .left → w.shared.stored.reg = none) ∧
    (¬ ∀ w, (Calls.system (ServerHub.program .ember)
        (.start (none : Option (Registration ℕ)) true false)).Reachable w →
      ∀ token, w.shared.directory = some (some token) → w.shared.stored.active.isSome) ∧
    ¬ ∀ w, (Calls.system (HubFile.program .ember) (.begin (some linked.1))).Reachable w →
      w.shared.since = .revoked → ∃ r ∈ w.shared.reg, r.isRevoked := by
  refine ⟨fun h ↦ ?_, fun h ↦ ?_, fun h ↦ ?_, fun h ↦ ?_⟩
  · obtain ⟨r, hr, hrevoked⟩ := h _ (reachable_foldl revokeWhilePublishing) rfl
    obtain rfl := Option.some.inj hr
    cases hrevoked
  · cases h _ (reachable_foldl leaveWhilePublishing) rfl
  · cases h _ (reachable_foldl leaveWhileCompleting) "dpr_1" rfl
  · obtain ⟨r, hr, hrevoked⟩ := h _ (reachable_foldl revokeWhilePublishingNode) rfl
    obtain rfl := Option.some.inj hr
    cases hrevoked

end Ember.Hub
