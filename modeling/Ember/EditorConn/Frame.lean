import Mathlib.Data.Nat.Notation

/-!
# Frames of the persistent protocol

The decoded form of one message on the wire. Ids and acknowledgements are `u32` in the source; a
frame that arrived may carry any value in them.
-/

namespace Ember.EditorConn

/-- The payload of a message, `Vec<u8>`. -/
abbrev Data := List UInt8

/-- `ProtocolMessageType`. -/
inductive MessageType
  | none
  | regular
  | control
  | ack
  | disconnect
  | replayRequest
  | pause
  | resume
  | keepAlive
  deriving DecidableEq, Repr

/-- The byte of a message type, `self.ty as u8`. -/
def MessageType.toU8 : MessageType → UInt8
  | .none => 0
  | .regular => 1
  | .control => 2
  | .ack => 3
  | .disconnect => 5
  | .replayRequest => 6
  | .pause => 7
  | .resume => 8
  | .keepAlive => 9

/-- `MessageType::from_u8`. -/
def MessageType.fromU8 : UInt8 → Option MessageType
  | 0 => some .none
  | 1 => some .regular
  | 2 => some .control
  | 3 => some .ack
  | 5 => some .disconnect
  | 6 => some .replayRequest
  | 7 => some .pause
  | 8 => some .resume
  | 9 => some .keepAlive
  | _ => Option.none

theorem MessageType.fromU8_toU8 (ty : MessageType) : fromU8 ty.toU8 = some ty := by
  cases ty <;> rfl

/-- One decoded message. -/
structure Frame where
  ty : MessageType
  /-- Message id; non-zero only for `regular`. -/
  id : ℕ
  /-- Highest regular id the sender has received from us. -/
  ack : ℕ
  data : Data
  deriving DecidableEq, Repr

/-- `Frame::empty`: a frame without id and payload. -/
def Frame.empty (ty : MessageType) (ack : ℕ) : Frame := ⟨ty, 0, ack, []⟩

@[simp] theorem Frame.empty_ty (ty : MessageType) (ack : ℕ) : (Frame.empty ty ack).ty = ty := rfl

@[simp] theorem Frame.empty_ack (ty : MessageType) (ack : ℕ) : (Frame.empty ty ack).ack = ack := rfl

end Ember.EditorConn
