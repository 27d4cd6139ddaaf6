import Ember.Foundation.Conduit
import Ember.Foundation.Runs
import Mathlib.Logic.Function.Basic

/-!
# Relaying a connection

`bridge` and `pump_axum` of `node/src/egress.rs`: one at each end of a WebSocket, each copies the
bytes of its own connection into the WebSocket and what comes out of it into its connection, in one
loop. An empty frame is the end of a direction; a pump that has sent one and received one closes the
WebSocket. `ws` stops the SOCKS server when `pump_axum` has returned.

A connection is a conduit for each direction: the sockets of the client; the pipe, the buffer of
`copy_bidirectional` and the sockets of the upstream connection on the node. Every queue is bounded.

## What is proved

* `relayed_of_reachable` — in each direction what is delivered is what was written, in order and
  once, and all of it when the end is; a pump is over only when both directions are; and as long as
  something is not delivered some step of the relay is enabled, in every run in which no pump takes
  bytes there is no room for while the other waits for room, and the SOCKS server is stopped only
  when it has passed on what it was given.
* `not_relayed` — two pumps that wait for each other, and bytes that are lost when the server is
  stopped.
-/

namespace Ember.Node.Relay

open Conduit StepSystem

/-- The ends of the WebSocket. -/
inductive Side
  | client
  | node
  deriving DecidableEq

/-- The other end. -/
def Side.other : Side → Side
  | .client => .node
  | .node => .client

@[simp] theorem Side.other_other (s : Side) : s.other.other = s := by cases s <;> rfl

theorem Side.other_ne (s : Side) : s.other ≠ s := by cases s <;> simp [Side.other]

theorem Side.ne_other (s : Side) : s ≠ s.other := s.other_ne.symm

/-- A message of the WebSocket. -/
inductive Message
  | binary (bytes : List UInt8)
  | close
  deriving DecidableEq

/-- What a message brings: an empty frame is the end. -/
def Message.tokens : Message → List (Token UInt8)
  | .binary [] => [.fin]
  | .binary (b :: bytes) => (b :: bytes).map .val
  | .close => []

/-- Where a pump is in its loop. -/
inductive At
  | idle
  /-- In `sink.send`. -/
  | sending (frame : List UInt8)
  /-- In `write_all`. -/
  | writing (rest : List UInt8)
  /-- Both directions are over; it sends a close frame. -/
  | closing
  | over
  deriving DecidableEq

/-- `bridge`, or `pump_axum`. -/
structure Pump where
  at_ : At
  inEof : Bool
  outEof : Bool
  deriving DecidableEq

/-- What the pump has read and not sent. -/
def Pump.sends (p : Pump) : List (Token UInt8) :=
  match p.at_ with
  | .sending frame => (Message.binary frame).tokens
  | _ => []

/-- What the pump has received and not written. -/
def Pump.writes (p : Pump) : List (Token UInt8) :=
  match p.at_ with
  | .writing rest => rest.map .val
  | _ => []

/-- One direction. -/
structure Dir where
  /-- What was written; only statements speak of it. -/
  written : List (Token UInt8)
  /-- The connection the pump of the sender reads from. -/
  into : Conduit UInt8
  /-- What is on its way. -/
  ws : List Message
  /-- How much the WebSocket holds. -/
  wsCap : ℕ
  pos : 0 < wsCap
  /-- The connection the pump of the receiver writes to. -/
  out : Conduit UInt8
  /-- What was delivered. -/
  got : List (Token UInt8)

/-- The relay: each side's pump, and the direction of what it sends. -/
structure World where
  pump : Side → Pump
  dir : Side → Dir
  /-- The SOCKS server was stopped. -/
  aborted : Bool

/-- How much a pump reads at a time. -/
def PIPE_BUF : ℕ := 64 * 1024

/-- One step. -/
inductive Label
  /-- The endpoint of a side writes a byte, or shuts its direction. -/
  | write (s : Side) (t : Token UInt8)
  /-- Something is carried toward the pump of a side. -/
  | carryIn (s : Side) (i : ℕ)
  /-- Something that a side has sent is carried to the other's endpoint. -/
  | carryOut (s : Side) (i : ℕ)
  /-- The endpoint reads what the side has sent. -/
  | receive (s : Side)
  /-- The pump of a side reads. -/
  | take (s : Side) (n : ℕ)
  | send (s : Side)
  /-- The pump of a side takes the next message. -/
  | next (s : Side)
  | put (s : Side)
  | finish (s : Side)
  | close (s : Side)
  /-- `server.abort()`. -/
  | abort
  deriving DecidableEq

/-- The step is the relay's, or an endpoint reads. -/
def Label.isRelay : Label → Bool
  | .write _ _ | .abort => false
  | _ => true

namespace World

variable (w : World)

/-- One pump changes. -/
def setPump (s : Side) (p : Pump) : World := { w with pump := Function.update w.pump s p }

/-- One direction changes. -/
def setDir (s : Side) (d : Dir) : World := { w with dir := Function.update w.dir s d }

/-- One step; a step that cannot be taken changes nothing. -/
def step (w : World) : Label → World
  | .write s t =>
    let d := w.dir s
    if .fin ∈ d.written then w
    else
      match d.into.push t with
      | some into => w.setDir s { d with written := d.written ++ [t], into }
      | none => w
  | .carryIn s i =>
    if s = .node ∧ w.aborted = true then w
    else w.setDir s { w.dir s with into := (w.dir s).into.carry i }
  | .carryOut s i =>
    if s = .client ∧ w.aborted = true then w
    else w.setDir s { w.dir s with out := (w.dir s).out.carry i }
  | .receive s =>
    let d := w.dir s
    match d.out.front.tokens with
    | t :: _ => w.setDir s { d with out := d.out.drop 1, got := d.got ++ [t] }
    | [] => w
  | .take s n =>
    let p := w.pump s
    let d := w.dir s
    if p.at_ = .idle ∧ p.outEof = false then
      match d.into.front.tokens with
      | .fin :: _ =>
        (w.setPump s { p with at_ := .sending [], outEof := true }).setDir s
          { d with into := d.into.drop 1 }
      | ts =>
        if 0 < n ∧ n ≤ PIPE_BUF ∧ n ≤ (Token.vals ts).length then
          (w.setPump s { p with at_ := .sending ((Token.vals ts).take n) }).setDir s
            { d with into := d.into.drop n }
        else w
    else w
  | .send s =>
    let p := w.pump s
    let d := w.dir s
    match p.at_ with
    | .sending frame =>
      if d.ws.length < d.wsCap then
        (w.setPump s { p with at_ := .idle }).setDir s { d with ws := d.ws ++ [.binary frame] }
      else w
    | _ => w
  | .next s =>
    let p := w.pump s
    let d := w.dir s.other
    if p.at_ = .idle ∧ ¬ (p.inEof = true ∧ p.outEof = true) then
      match d.ws with
      | .binary [] :: ws =>
        match d.out.push .fin with
        | some out =>
          (w.setPump s { p with inEof := true }).setDir s.other { d with ws, out }
        | none => w
      | .binary (b :: bytes) :: ws =>
        (w.setPump s (if p.inEof then p else { p with at_ := .writing (b :: bytes) })).setDir s.other
          { d with ws }
      | .close :: ws => (w.setPump s { p with at_ := .over }).setDir s.other { d with ws }
      | [] => w
    else w
  | .put s =>
    let p := w.pump s
    let d := w.dir s.other
    match p.at_ with
    | .writing [] => w.setPump s { p with at_ := .idle }
    | .writing (b :: rest) =>
      match d.out.push (.val b) with
      | some out => (w.setPump s { p with at_ := .writing rest }).setDir s.other { d with out }
      | none => w
    | _ => w
  | .finish s =>
    let p := w.pump s
    if p.at_ = .idle ∧ p.inEof = true ∧ p.outEof = true then
      w.setPump s { p with at_ := .closing }
    else w
  | .close s =>
    let p := w.pump s
    let d := w.dir s
    if p.at_ = .closing ∧ d.ws.length < d.wsCap then
      (w.setPump s { p with at_ := .over }).setDir s { d with ws := d.ws ++ [.close] }
    else w
  | .abort => if (w.pump .node).at_ = .over then { w with aborted := true } else w

/-- A pump that has just started. -/
def fresh : Pump := ⟨.idle, false, false⟩

/-- A direction in which nothing was written. -/
def Empty (d : Dir) : Prop :=
  d.written = [] ∧ d.into.tokens = [] ∧ d.ws = [] ∧ d.out.tokens = [] ∧ d.got = []

/-- The runs of the relay. -/
def system : StepSystem World Label where
  init w := w.pump = (fun _ ↦ fresh) ∧ (∀ s, Empty (w.dir s)) ∧ w.aborted = false
  step w l t := t = step w l

/-- The pump of a side waits for room in the WebSocket. -/
def Waits (s : Side) : Prop :=
  (∃ frame, (w.pump s).at_ = .sending frame) ∧ (w.dir s).wsCap ≤ (w.dir s).ws.length

/-- No pump takes bytes there is no room for while the other waits for room, and the server is
stopped only when it has passed on what it was given. -/
def Careful (w : World) : Label → Prop
  | .take s _ => (w.dir s).wsCap ≤ (w.dir s).ws.length → ¬ w.Waits s.other
  | .abort => (w.dir .client).out.tokens = (w.dir .client).out.front.tokens
  | _ => True

/-- **The relay works.** -/
structure Relayed : Prop where
  /-- What is delivered was written, in order and once. -/
  order : ∀ s, (w.dir s).got <+: (w.dir s).written
  /-- All of it, when the end is delivered. -/
  all : ∀ s, .fin ∈ (w.dir s).got → (w.dir s).got = (w.dir s).written
  /-- When the server is stopped, the rest of what was written is in the socket of the upstream
  connection. -/
  stopped : w.aborted = true →
    (w.dir .client).got ++ (w.dir .client).out.front.tokens = (w.dir .client).written
  /-- A pump is over only when both endpoints have shut their direction, and everything was passed
  on in both. -/
  running : ∀ s, (w.pump s).at_ = .over → .fin ∈ (w.dir s).written ∧ (w.dir s).into.tokens = [] ∧
    .fin ∈ (w.dir s.other).written ∧
      (w.dir s.other).got ++ (w.dir s.other).out.tokens = (w.dir s.other).written
  /-- While something is not delivered, the relay can go on. -/
  live : (∃ s, (w.dir s).got ≠ (w.dir s).written) → ∃ l : Label, l.isRelay = true ∧ w.step l ≠ w

end World

/-! ### One direction -/

/-- What has left the connection of the sender. -/
def Dir.passed (d : Dir) (p q : Pump) : List (Token UInt8) :=
  d.got ++ d.out.tokens ++ q.writes ++ d.ws.flatMap Message.tokens ++ p.sends

/-- **What holds of a direction**, of the pump that sends and of the one that receives. -/
structure DirOk (p q : Pump) (d : Dir) : Prop where
  flow : d.passed p q ++ d.into.tokens = d.written
  last : ∀ before after, d.written = before ++ .fin :: after → after = []
  outEof : p.outEof = true ↔ .fin ∈ d.passed p q
  inEof : q.inEof = true ↔ .fin ∈ d.got ++ d.out.tokens
  close : ∀ before after, d.ws = before ++ .close :: after → after = [] ∧ p.at_ = .over

/-- A pump closes when both directions are over. -/
def PumpOk (p : Pump) : Prop :=
  p.at_ = .closing ∨ p.at_ = .over → p.inEof = true ∧ p.outEof = true

variable {ws : List Message} {frame bytes : List UInt8} {b : UInt8} {out : Conduit UInt8}

namespace DirOk

variable {p p' q q' : Pump} {d d' : Dir} {t : Token UInt8}

/-- Nothing comes after the end. -/
theorem nil_of_fin (h : DirOk p q d) {xs ys : List (Token UInt8)} (hsplit : xs ++ ys = d.written)
    (hfin : .fin ∈ xs) : ys = [] := by
  obtain ⟨before, after, rfl⟩ := List.append_of_mem hfin
  have hnil := h.last before (after ++ ys) (by rw [← hsplit]; simp)
  exact (List.append_eq_nil_iff.1 hnil).2

/-- The receiving pump changes, and holds what it held. -/
theorem of_receiver (h : DirOk p q d) (hwrites : q'.writes = q.writes)
    (hin : q'.inEof = q.inEof) : DirOk p q' d := by
  have hpassed : d.passed p q' = d.passed p q := by rw [Dir.passed, Dir.passed, hwrites]
  exact ⟨hpassed ▸ h.flow, h.last, hpassed ▸ h.outEof, hin ▸ h.inEof, h.close⟩

/-- The sending pump changes, and holds what it held. -/
theorem of_sender (h : DirOk p q d) (hsends : p'.sends = p.sends) (hout : p'.outEof = p.outEof)
    (hover : p.at_ = .over → p'.at_ = .over) : DirOk p' q d := by
  have hpassed : d.passed p' q = d.passed p q := by rw [Dir.passed, Dir.passed, hsends]
  exact ⟨hpassed ▸ h.flow, h.last, by rw [hout, hpassed]; exact h.outEof, h.inEof,
    fun before after hws ↦ (h.close before after hws).imp_right hover⟩

/-- Something is carried or delivered. -/
theorem of_tokens (h : DirOk p q d) (hwritten : d'.written = d.written)
    (hdelivered : d'.got ++ d'.out.tokens = d.got ++ d.out.tokens) (hws : d'.ws = d.ws)
    (hinto : d'.into.tokens = d.into.tokens) : DirOk p q d' := by
  have hpassed : d'.passed p q = d.passed p q := by rw [Dir.passed, Dir.passed, hdelivered, hws]
  exact ⟨by rw [hpassed, hinto, hwritten]; exact h.flow, hwritten ▸ h.last, by
    rw [hpassed]; exact h.outEof, by rw [hdelivered]; exact h.inEof, hws ▸ h.close⟩

/-- The endpoint writes, and has not shut its direction. -/
theorem write (h : DirOk p q d) {into : Conduit UInt8} (hfin : .fin ∉ d.written)
    (hpush : d.into.push t = some into) :
    DirOk p q { d with written := d.written ++ [t], into } where
  flow := by
    show d.passed p q ++ into.tokens = d.written ++ [t]
    rw [tokens_push hpush, ← h.flow, List.append_assoc]
  last before after heq := by
    rcases List.eq_nil_or_concat after with hnil | ⟨init, x, rfl⟩
    · exact hnil
    · refine absurd ?_ hfin
      have hinit := congrArg List.dropLast heq
      rw [List.concat_eq_append, List.dropLast_concat, ← List.cons_append, ← List.append_assoc,
        List.dropLast_concat] at hinit
      rw [hinit]
      exact List.mem_append_right _ List.mem_cons_self
  outEof := h.outEof
  inEof := h.inEof
  close := h.close

/-- The sending pump reads the end. -/
theorem takeEnd (h : DirOk p q d) (hat : p.at_ = .idle) {ts : List (Token UInt8)}
    (hfront : d.into.front.tokens = .fin :: ts) :
    DirOk { p with at_ := .sending [], outEof := true } q { d with into := d.into.drop 1 } := by
  have hpassed : Dir.passed { d with into := d.into.drop 1 }
      { p with at_ := .sending [], outEof := true } q = d.passed p q ++ [.fin] := by
    simp [Dir.passed, Pump.sends, hat, Message.tokens]
  refine ⟨?_, h.last, ?_, h.inEof, fun before after hws ↦ ?_⟩
  · rw [hpassed, List.append_assoc, ← h.flow, tokens_drop_one hfront]
    rfl
  · rw [hpassed]
    exact iff_of_true rfl (List.mem_append_right _ List.mem_cons_self)
  · have hover := (h.close before after hws).2
    rw [hat] at hover
    cases hover

theorem tokens_binary (h : frame ≠ []) :
    (Message.binary frame).tokens = frame.map .val := by
  cases frame with
  | nil => exact absurd rfl h
  | cons b bytes => rfl

section

variable (h : DirOk p q d)
include h

/-- It reads some bytes. -/
theorem take (hat : p.at_ = .idle) {n : ℕ} (hpos : 0 < n)
    (hn : n ≤ (Token.vals d.into.front.tokens).length) :
    DirOk { p with at_ := .sending ((Token.vals d.into.front.tokens).take n) } q
      { d with into := d.into.drop n } := by
  have hne : (Token.vals d.into.front.tokens).take n ≠ [] := fun hnil ↦ by
    have hlength := congrArg List.length hnil
    rw [List.length_take, List.length_nil] at hlength
    omega
  have hpassed : Dir.passed { d with into := d.into.drop n }
      { p with at_ := .sending ((Token.vals d.into.front.tokens).take n) } q =
        d.passed p q ++ ((Token.vals d.into.front.tokens).take n).map .val := by
    simp [Dir.passed, Pump.sends, hat, tokens_binary hne]
  refine ⟨?_, h.last, ?_, h.inEof, fun before after hws ↦ ?_⟩
  · have hlength : n ≤ d.into.front.tokens.length := by
      have := (Token.vals_prefix d.into.front.tokens).length_le
      rw [List.length_map] at this
      omega
    have htake : d.into.front.tokens.take n =
        ((Token.vals d.into.front.tokens).take n).map .val := by
      have hsplit := Token.take_vals d.into.front.tokens hn
      exact (List.append_cancel_right (hsplit.trans (List.take_append_drop n _).symm)).symm
    rw [hpassed, List.append_assoc, ← htake, tokens_drop _ hlength]
    exact h.flow
  · rw [hpassed, List.mem_append, or_iff_left (Token.fin_notMem_map_val _)]
    exact h.outEof
  · have hover := (h.close before after hws).2
    rw [hat] at hover
    cases hover

/-- Its frame is sent. -/
theorem send (hat : p.at_ = .sending frame) :
    DirOk { p with at_ := .idle } q { d with ws := d.ws ++ [.binary frame] } := by
  have hpassed : Dir.passed { d with ws := d.ws ++ [.binary frame] } { p with at_ := .idle } q =
      d.passed p q := by
    simp [Dir.passed, Pump.sends, hat]
  refine ⟨hpassed ▸ h.flow, h.last, hpassed ▸ h.outEof, h.inEof, fun before after hws ↦ ?_⟩
  have hmem : Message.close ∈ d.ws := by
    have hmem : Message.close ∈ before ++ .close :: after := by simp
    rw [← hws] at hmem
    simpa using hmem
  obtain ⟨before, after, hws⟩ := List.append_of_mem hmem
  have hover := (h.close before after hws).2
  rw [hat] at hover
  cases hover

/-- It sends the close frame. -/
theorem sendClose (hat : p.at_ = .closing) :
    DirOk { p with at_ := .over } q { d with ws := d.ws ++ [.close] } := by
  have hpassed : Dir.passed { d with ws := d.ws ++ [.close] } { p with at_ := .over } q =
      d.passed p q := by
    simp [Dir.passed, Pump.sends, hat, Message.tokens]
  refine ⟨hpassed ▸ h.flow, h.last, hpassed ▸ h.outEof, h.inEof, fun before after hws ↦ ⟨?_, rfl⟩⟩
  rcases List.eq_nil_or_concat after with hnil | ⟨init, x, rfl⟩
  · exact hnil
  · -- There was none before.
    have hbefore : d.ws = before ++ .close :: init := by
      have hinit := congrArg List.dropLast hws
      rwa [List.concat_eq_append, List.dropLast_concat, ← List.cons_append, ← List.append_assoc,
        List.dropLast_concat] at hinit
    have hover := (h.close before init hbefore).2
    rw [hat] at hover
    cases hover

/-- What is left of the messages when the first is taken. -/
theorem close_tail {m : Message} (hws : d.ws = m :: ws) :
    ∀ before after, ws = before ++ .close :: after → after = [] ∧ p.at_ = .over :=
  fun before after heq ↦ h.close (m :: before) after (by rw [hws, heq]; rfl)

/-- The receiving pump is told of the end. -/
theorem nextEnd (hat : q.at_ = .idle) (hws : d.ws = .binary [] :: ws)
    (hpush : d.out.push .fin = some out) :
    DirOk p { q with inEof := true } { d with ws, out } := by
  have hpassed : Dir.passed { d with ws, out } p { q with inEof := true } = d.passed p q := by
    simp [Dir.passed, Pump.writes, hat, hws, Message.tokens, tokens_push hpush]
  refine ⟨hpassed ▸ h.flow, h.last, hpassed ▸ h.outEof, iff_of_true rfl ?_, h.close_tail hws⟩
  show Token.fin ∈ d.got ++ out.tokens
  rw [tokens_push hpush]
  simp

/-- No bytes come after the end. -/
theorem inEof_eq_false (hws : d.ws = .binary (b :: bytes) :: ws) : q.inEof = false := by
  by_contra hin
  have hfin := h.inEof.1 (Bool.not_eq_false _ ▸ hin)
  have hflow := h.flow
  rw [Dir.passed, hws] at hflow
  have hsplit : (d.got ++ d.out.tokens) ++ (q.writes ++
      ((Message.binary (b :: bytes) :: ws).flatMap Message.tokens ++ (p.sends ++ d.into.tokens))) =
        d.written := by
    rw [← hflow]
    simp only [List.append_assoc]
  have hnil := h.nil_of_fin hsplit hfin
  simp [Message.tokens] at hnil

/-- It receives bytes. -/
theorem next (hat : q.at_ = .idle) (hws : d.ws = .binary (b :: bytes) :: ws) :
    DirOk p { q with at_ := .writing (b :: bytes) } { d with ws } := by
  have hpassed : Dir.passed { d with ws } p { q with at_ := .writing (b :: bytes) } =
      d.passed p q := by
    simp [Dir.passed, Pump.writes, hat, hws, Message.tokens]
  exact ⟨hpassed ▸ h.flow, h.last, hpassed ▸ h.outEof, h.inEof, h.close_tail hws⟩

/-- It writes a byte. -/
theorem put {rest : List UInt8} (hat : q.at_ = .writing (b :: rest))
    (hpush : d.out.push (.val b) = some out) :
    DirOk p { q with at_ := .writing rest } { d with out } := by
  have hpassed : Dir.passed { d with out } p { q with at_ := .writing rest } = d.passed p q := by
    simp [Dir.passed, Pump.writes, hat, tokens_push hpush]
  refine ⟨hpassed ▸ h.flow, h.last, hpassed ▸ h.outEof, h.inEof.trans ?_, h.close⟩
  show _ ↔ Token.fin ∈ d.got ++ out.tokens
  rw [tokens_push hpush]
  simp

end

end DirOk

/-! ### One step -/

namespace World

variable {w : World} {s : Side} {p : Pump} {d : Dir} {l : Label}

/-- What holds of the relay. -/
def Ok (w : World) : Prop :=
  ∀ s, DirOk (w.pump s) (w.pump s.other) (w.dir s) ∧ PumpOk (w.pump s)

/-- One direction changes. -/
theorem Ok.setDir (h : Ok w) (hd : DirOk (w.pump s) (w.pump s.other) d) : Ok (w.setDir s d) := by
  intro s'
  by_cases hs : s' = s
  · subst hs
    simp only [World.setDir, Function.update_self]
    exact ⟨hd, (h s').2⟩
  · simp only [World.setDir, Function.update_of_ne hs]
    exact h s'

/-- The pump of a side changes, and what it sends. -/
theorem Ok.sender (h : Ok w) (hd : DirOk p (w.pump s.other) d) (hp : PumpOk p)
    (hwrites : p.writes = (w.pump s).writes) (hin : p.inEof = (w.pump s).inEof) :
    Ok ((w.setPump s p).setDir s d) := by
  intro s'
  by_cases hs : s' = s
  · subst hs
    simp only [World.setDir, World.setPump, Function.update_self,
      Function.update_of_ne s'.other_ne]
    exact ⟨hd, hp⟩
  · obtain rfl : s' = s.other := by cases s <;> cases s' <;> first | rfl | exact absurd rfl hs
    have hother := h s.other
    rw [Side.other_other] at hother
    simp only [World.setDir, World.setPump, Side.other_other, Function.update_self,
      Function.update_of_ne s.other_ne]
    exact ⟨hother.1.of_receiver hwrites hin, hother.2⟩

/-- The pump of a side changes, and what it receives. -/
theorem Ok.receiver (h : Ok w) (hd : DirOk (w.pump s.other) p d) (hp : PumpOk p)
    (hsends : p.sends = (w.pump s).sends) (hout : p.outEof = (w.pump s).outEof)
    (hover : (w.pump s).at_ = .over → p.at_ = .over) :
    Ok ((w.setPump s p).setDir s.other d) := by
  intro s'
  by_cases hs : s' = s
  · subst hs
    simp only [World.setDir, World.setPump, Function.update_self,
      Function.update_of_ne s'.other_ne, Function.update_of_ne s'.ne_other]
    exact ⟨(h s').1.of_sender hsends hout hover, hp⟩
  · obtain rfl : s' = s.other := by cases s <;> cases s' <;> first | rfl | exact absurd rfl hs
    simp only [World.setDir, World.setPump, Side.other_other, Function.update_self,
      Function.update_of_ne s.other_ne]
    exact ⟨hd, (h s.other).2⟩

/-- The end that a side was told of has left the connection of the other. -/
theorem Ok.outEof_of_inEof (h : Ok w) (hin : (w.pump s.other).inEof = true) :
    (w.pump s).outEof = true := by
  have hfin := (h s).1.inEof.1 hin
  refine (h s).1.outEof.2 ?_
  simp only [Dir.passed, List.append_assoc, List.mem_append] at hfin ⊢
  exact hfin.elim .inl fun hfin ↦ .inr (.inl hfin)

/-- **A close frame comes last**: when it is received both directions are over. -/
theorem Ok.eof_of_close (h : Ok w) (hat : (w.pump s).at_ = .idle)
    (hws : (w.dir s.other).ws = .close :: ws) :
    (w.pump s).inEof = true ∧ (w.pump s).outEof = true := by
  have hdir := (h s.other).1
  obtain ⟨rfl, hover⟩ := hdir.close [] ws hws
  obtain ⟨hin, hout⟩ := (h s.other).2 (.inr hover)
  rw [Side.other_other] at hdir
  refine ⟨hdir.inEof.2 ?_, h.outEof_of_inEof hin⟩
  have hfin := hdir.outEof.1 hout
  simpa [Dir.passed, Pump.writes, Pump.sends, hat, hover, hws, Message.tokens] using hfin

/-- A direction is put back. -/
theorem setPump_eq_setDir (y : Side) {s : Side} {p : Pump} :
    w.setPump s p = (w.setPump s p).setDir y (w.dir y) := by
  simp only [World.setDir, World.setPump, Function.update_eq_self]

/-- **One step.** -/
theorem Ok.step (h : Ok w) (l : Label) : Ok (w.step l) := by
  cases l with
  | write s t =>
    simp only [World.step]
    split
    · exact h
    case isFalse hfin =>
      split
      case h_1 into hpush => exact h.setDir ((h s).1.write hfin hpush)
      · exact h
  | carryIn s i =>
    simp only [World.step]
    split
    · exact h
    · exact h.setDir ((h s).1.of_tokens rfl rfl rfl (tokens_carry _ i))
  | carryOut s i =>
    simp only [World.step]
    split
    · exact h
    · exact h.setDir ((h s).1.of_tokens rfl (congrArg _ (tokens_carry _ i)) rfl rfl)
  | receive s =>
    simp only [World.step]
    split
    case h_1 t ts hfront =>
      refine h.setDir ((h s).1.of_tokens rfl ?_ rfl rfl)
      rw [tokens_drop_one hfront]
      simp
    · exact h
  | take s n =>
    simp only [World.step]
    split
    case isTrue hready =>
      split
      case h_1 ts hfront =>
        refine h.sender ((h s).1.takeEnd hready.1 hfront) (fun hat ↦ ?_) ?_ rfl
        · rcases hat with hat | hat <;> cases hat
        · simp only [Pump.writes, hready.1]
      · split
        case isTrue hn =>
          refine h.sender ((h s).1.take hready.1 hn.1 hn.2.2) (fun hat ↦ ?_) ?_ rfl
          · rcases hat with hat | hat <;> cases hat
          · simp only [Pump.writes, hready.1]
        · exact h
    · exact h
  | send s =>
    simp only [World.step]
    split
    case h_1 frame hat =>
      split
      · refine h.sender ((h s).1.send hat) (fun hat ↦ ?_) ?_ rfl
        · rcases hat with hat | hat <;> cases hat
        · simp only [Pump.writes, hat]
      · exact h
    · exact h
  | next s =>
    simp only [World.step]
    split
    case isTrue hready =>
      have hdir := (h s.other).1
      rw [Side.other_other] at hdir
      split
      case h_1 ws hws =>
        split
        case h_1 out hpush =>
          refine h.receiver (hdir.nextEnd hready.1 hws hpush) (fun hat ↦ ?_) rfl rfl fun h ↦ h
          rw [hready.1] at hat
          rcases hat with hat | hat <;> cases hat
        · exact h
      case h_2 b bytes ws hws =>
        rw [if_neg (by rw [hdir.inEof_eq_false hws]; exact Bool.false_ne_true)]
        refine h.receiver (hdir.next hready.1 hws) (fun hat ↦ ?_) ?_ rfl fun hat ↦ ?_
        · rcases hat with hat | hat <;> cases hat
        · simp only [Pump.sends, hready.1]
        · rw [hready.1] at hat
          cases hat
      case h_3 ws hws => exact absurd (h.eof_of_close hready.1 hws) hready.2
      · exact h
    · exact h
  | put s =>
    have hdir := (h s.other).1
    rw [Side.other_other] at hdir
    simp only [World.step]
    split
    case h_1 hat =>
      rw [setPump_eq_setDir s.other]
      refine h.receiver (hdir.of_receiver ?_ rfl) (fun hat ↦ ?_) ?_ rfl fun hover ↦ ?_
      · simp only [Pump.writes, hat, List.map_nil]
      · rcases hat with hat | hat <;> cases hat
      · simp only [Pump.sends, hat]
      · rw [hat] at hover
        cases hover
    case h_2 b rest hat =>
      split
      case h_1 out hpush =>
        refine h.receiver (hdir.put hat hpush) (fun hat ↦ ?_) ?_ rfl fun hover ↦ ?_
        · rcases hat with hat | hat <;> cases hat
        · simp only [Pump.sends, hat]
        · rw [hat] at hover
          cases hover
      · exact h
    · exact h
  | finish s =>
    simp only [World.step]
    split
    case isTrue hready =>
      rw [setPump_eq_setDir s]
      refine h.sender ((h s).1.of_sender ?_ rfl fun hover ↦ ?_) (fun _ ↦ hready.2) ?_ rfl
      · simp only [Pump.sends, hready.1]
      · rw [hready.1] at hover
        cases hover
      · simp only [Pump.writes, hready.1]
    · exact h
  | close s =>
    simp only [World.step]
    split
    case isTrue hready =>
      refine h.sender ((h s).1.sendClose hready.1) (fun _ ↦ (h s).2 (.inl hready.1)) ?_ rfl
      simp only [Pump.writes, hready.1]
    · exact h
  | abort =>
    simp only [World.step]
    split
    · exact h
    · exact h

/-! ### Careful runs -/

/-- What holds in careful runs: the stopped server has passed on what it was given, and no two pumps
wait for each other. -/
structure Free (w : World) : Prop where
  stopped : w.aborted = true →
    (w.pump .node).at_ = .over ∧ (w.dir .client).out.tokens = (w.dir .client).out.front.tokens
  waits : ∀ s, ¬ (w.Waits s ∧ w.Waits s.other)

/-- Only one direction changes, and no more is on its way in it. -/
theorem Free.setDir (h : Free w) (hws : d.ws = (w.dir s).ws) (hcap : d.wsCap = (w.dir s).wsCap)
    (hout : s = .client → w.aborted = true → d.out.tokens = d.out.front.tokens) :
    Free (w.setDir s d) := by
  have hwaits : ∀ s', (w.setDir s d).Waits s' → w.Waits s' := by
    intro s' hw
    by_cases hs : s' = s
    · subst hs
      simpa only [Waits, World.setDir, Function.update_self, hws, hcap] using hw
    · simpa only [Waits, World.setDir, Function.update_of_ne hs] using hw
  refine ⟨fun haborted ↦ ⟨(h.stopped haborted).1, ?_⟩, fun s' hw ↦
    h.waits s' (hw.imp (hwaits _) (hwaits _))⟩
  by_cases hs : s = .client
  · subst hs
    simp only [World.setDir, Function.update_self]
    exact hout rfl haborted
  · simp only [World.setDir, Function.update_of_ne (Ne.symm hs)]
    exact (h.stopped haborted).2

/-- A pump that has not ended goes on, and does not send. -/
theorem Free.pump (h : Free w) {s' : Side} (hover : (w.pump s).at_ ≠ .over)
    (hnot : ∀ frame, p.at_ ≠ .sending frame) (hout : s' = s → d.out = (w.dir s).out) :
    Free ((w.setPump s p).setDir s' d) := by
  have hpump : ((w.setPump s p).setDir s' d).pump s = p := Function.update_self _ _ _
  have hwaits : ¬ ((w.setPump s p).setDir s' d).Waits s := fun hw ↦ by
    obtain ⟨frame, hframe⟩ := hw.1
    rw [hpump] at hframe
    exact hnot frame hframe
  refine ⟨fun haborted ↦ ?_, fun s'' hw ↦ ?_⟩
  · obtain ⟨hnode, hpassed⟩ := h.stopped haborted
    cases s with
    | node => exact absurd hnode hover
    | client =>
      refine ⟨hnode, ?_⟩
      by_cases hs : s' = .client
      · subst hs
        simp only [World.setDir, World.setPump, Function.update_self, hout rfl]
        exact hpassed
      · simp only [World.setDir, World.setPump, Function.update_of_ne (Ne.symm hs)]
        exact hpassed
  · by_cases hs : s'' = s
    · exact hwaits (hs ▸ hw.1)
    · obtain rfl : s'' = s.other := by cases s <;> cases s'' <;> first | rfl | exact absurd rfl hs
      rw [Side.other_other] at hw
      exact hwaits hw.2

/-- A pump takes bytes for which there is room, or while the other does not wait. -/
theorem Free.take (h : Free w) (hat : (w.pump s).at_ = .idle) (hws : d.ws = (w.dir s).ws)
    (hcap : d.wsCap = (w.dir s).wsCap) (hout : d.out = (w.dir s).out)
    (hcareful : (w.dir s).wsCap ≤ (w.dir s).ws.length → ¬ w.Waits s.other) :
    Free ((w.setPump s p).setDir s d) := by
  refine ⟨fun haborted ↦ ?_, ?_⟩
  · obtain ⟨hnode, hpassed⟩ := h.stopped haborted
    cases s with
    | node =>
      rw [hat] at hnode
      cases hnode
    | client =>
      refine ⟨hnode, ?_⟩
      simp only [World.setDir, World.setPump, Function.update_self, hout]
      exact hpassed
  · have hnot : ¬ (((w.setPump s p).setDir s d).Waits s ∧
        ((w.setPump s p).setDir s d).Waits s.other) := by
      simp only [Waits, World.setDir, World.setPump, Function.update_self,
        Function.update_of_ne s.other_ne, hws, hcap]
      exact fun hw ↦ hcareful hw.1.2 hw.2
    intro s' hw
    by_cases hs : s' = s
    · exact hnot (hs ▸ hw)
    · obtain rfl : s' = s.other := by cases s <;> cases s' <;> first | rfl | exact absurd rfl hs
      rw [Side.other_other] at hw
      exact hnot hw.symm

/-- **One careful step.** -/
theorem Free.step (h : Free w) (hl : Careful w l) : Free (w.step l) := by
  cases l with simp only [World.step]
  | write s t =>
    split
    · exact h
    · split
      · exact h.setDir rfl rfl fun hs haborted ↦ hs ▸ (h.stopped haborted).2
      · exact h
  | carryIn s i =>
    split
    · exact h
    · exact h.setDir rfl rfl fun hs haborted ↦ hs ▸ (h.stopped haborted).2
  | carryOut s i =>
    split
    · exact h
    case isFalse hnot =>
      exact h.setDir rfl rfl fun hs haborted ↦ absurd ⟨hs, haborted⟩ hnot
  | receive s =>
    split
    · refine h.setDir rfl rfl fun hs haborted ↦ ?_
      subst hs
      exact tokens_drop_of_front (h.stopped haborted).2 1
    · exact h
  | take s n =>
    split
    case isTrue hready =>
      split
      · exact h.take hready.1 rfl rfl rfl hl
      · split
        · exact h.take hready.1 rfl rfl rfl hl
        · exact h
    · exact h
  | send s =>
    split
    case h_1 frame hat =>
      split
      · exact h.pump (by rw [hat]; simp) (by simp) fun _ ↦ rfl
      · exact h
    · exact h
  | next s =>
    split
    case isTrue hready =>
      have hover : (w.pump s).at_ ≠ .over := by rw [hready.1]; simp
      split
      · split
        · exact h.pump hover (by simp [hready.1]) fun hs ↦ absurd hs s.other_ne
        · exact h
      · refine h.pump hover (fun frame ↦ ?_) fun hs ↦ absurd hs s.other_ne
        split
        · rw [hready.1]
          simp
        · simp
      · exact h.pump hover (by simp) fun hs ↦ absurd hs s.other_ne
      · exact h
    · exact h
  | put s =>
    split
    case h_1 hat =>
      rw [setPump_eq_setDir s.other]
      exact h.pump (by rw [hat]; simp) (by simp) fun hs ↦ absurd hs s.other_ne
    case h_2 b rest hat =>
      split
      · exact h.pump (by rw [hat]; simp) (by simp) fun hs ↦ absurd hs s.other_ne
      · exact h
    · exact h
  | finish s =>
    split
    case isTrue hready =>
      rw [setPump_eq_setDir s]
      exact h.pump (by rw [hready.1]; simp) (by simp) fun _ ↦ rfl
    · exact h
  | close s =>
    split
    case isTrue hready => exact h.pump (by rw [hready.1]; simp) (by simp) fun _ ↦ rfl
    · exact h
  | abort =>
    split
    case isTrue hover => exact ⟨fun _ ↦ ⟨hover, hl⟩, h.waits⟩
    · exact h

/-! ### The relay does not stand still -/

/-- No step of the relay changes anything. -/
def Stuck (w : World) : Prop := ∀ l : Label, l.isRelay = true → w.step l = w

/-- A stuck relay has delivered what it has written. -/
theorem Stuck.out_eq_nil (h : Stuck w) (hfree : Free w) (s : Side) :
    (w.dir s).out.tokens = [] := by
  have hfront : (w.dir s).out.front.tokens = [] := by
    cases hfront : (w.dir s).out.front.tokens with
    | nil => rfl
    | cons t ts =>
      have hlength := congrArg (fun w ↦ (w.dir s).got.length) (h (.receive s) rfl)
      simp [World.step, hfront, World.setDir] at hlength
  by_cases hstopped : s = .client ∧ w.aborted = true
  · obtain ⟨rfl, haborted⟩ := hstopped
    exact (hfree.stopped haborted).2.trans hfront
  · refine tokens_eq_nil hfront fun i ↦ ?_
    have hsame := congrArg (fun w ↦ (w.dir s).out) (h (.carryOut s i) rfl)
    simpa [World.step, hstopped, World.setDir] using hsame

/-- It has read what was carried to a pump that reads. -/
theorem Stuck.into_eq_nil (h : Stuck w) (hserver : ¬ (s = .node ∧ w.aborted = true))
    (hfront : (w.dir s).into.front.tokens = []) : (w.dir s).into.tokens = [] := by
  refine tokens_eq_nil hfront fun i ↦ ?_
  have hsame := congrArg (fun w ↦ (w.dir s).into) (h (.carryIn s i) rfl)
  simpa [World.step, hserver, World.setDir] using hsame

/-- No pump has something to write. -/
theorem Stuck.not_writing (h : Stuck w) (hfree : Free w) (s : Side) (rest : List UInt8) :
    (w.pump s).at_ ≠ .writing rest := by
  intro hat
  have hsame := congrArg (fun w ↦ (w.pump s).at_) (h (.put s) rfl)
  cases rest with
  | nil => simp [World.step, hat, World.setPump] at hsame
  | cons b rest =>
    obtain ⟨out, hpush⟩ := exists_push (t := .val b) (.inr (h.out_eq_nil hfree s.other))
    simp [World.step, hat, hpush, World.setPump, World.setDir] at hsame

/-- A pump that is idle has nothing to read and nothing to receive, and is not done. -/
theorem Stuck.idle (h : Stuck w) (hat : (w.pump s).at_ = .idle) :
    ¬ ((w.pump s).inEof = true ∧ (w.pump s).outEof = true) ∧ (w.dir s.other).ws = [] ∧
      ((w.pump s).outEof = false → (w.dir s).into.front.tokens = []) := by
  have hdone : ¬ ((w.pump s).inEof = true ∧ (w.pump s).outEof = true) := fun hdone ↦ by
    have hsame := congrArg (fun w ↦ (w.pump s).at_) (h (.finish s) rfl)
    simp [World.step, hat, hdone, World.setPump] at hsame
  refine ⟨hdone, ?_, fun hout ↦ ?_⟩
  · have hsame := congrArg (fun w ↦ (w.dir s.other).ws.length) (h (.next s) rfl)
    simp only [World.step, hat, true_and, if_pos hdone] at hsame
    split at hsame
    case h_1 ws hws =>
      obtain ⟨out, hpush⟩ := exists_push (c := (w.dir s.other).out) (t := .fin) (.inl rfl)
      simp [hpush, World.setDir, hws] at hsame
    case h_2 b bytes ws hws => simp [World.setDir, hws] at hsame
    case h_3 ws hws => simp [World.setDir, hws] at hsame
    case h_4 hws => exact hws
  · have hsame := congrArg (fun w ↦ (w.pump s).at_) (h (.take s 1) rfl)
    cases hfront : (w.dir s).into.front.tokens with
    | nil => rfl
    | cons t ts =>
      cases t with
      | fin => simp [World.step, hat, hout, hfront, World.setPump, World.setDir] at hsame
      | val b =>
        simp [World.step, hat, hout, hfront, World.setPump, World.setDir, Token.vals,
          PIPE_BUF] at hsame

/-- A pump that sends finds no room. -/
theorem Stuck.full_of_sending (h : Stuck w)
    (hat : (w.pump s).at_ = .sending frame) : (w.dir s).wsCap ≤ (w.dir s).ws.length := by
  by_contra hroom
  have hsame := congrArg (fun w ↦ (w.pump s).at_) (h (.send s) rfl)
  simp [World.step, hat, Nat.lt_of_not_le hroom, World.setPump, World.setDir] at hsame

theorem Stuck.full_of_closing (h : Stuck w) (hat : (w.pump s).at_ = .closing) :
    (w.dir s).wsCap ≤ (w.dir s).ws.length := by
  by_contra hroom
  have hsame := congrArg (fun w ↦ (w.pump s).at_) (h (.close s) rfl)
  simp [World.step, hat, Nat.lt_of_not_le hroom, World.setPump, World.setDir] at hsame

/-- When a pump was told of the end, nothing is left behind it. -/
theorem Ok.nil_of_inEof (h : Ok w) (hin : (w.pump s.other).inEof = true) :
    (w.pump s.other).writes = [] ∧ (w.dir s).ws.flatMap Message.tokens = [] ∧
      (w.pump s).sends = [] ∧ (w.dir s).into.tokens = [] := by
  have hdir := (h s).1
  have hflow := hdir.flow
  rw [Dir.passed] at hflow
  have hsplit : ((w.dir s).got ++ (w.dir s).out.tokens) ++ ((w.pump s.other).writes ++
      ((w.dir s).ws.flatMap Message.tokens ++ ((w.pump s).sends ++ (w.dir s).into.tokens))) =
        (w.dir s).written := by
    rw [← hflow]
    simp only [List.append_assoc]
  have hnil := hdir.nil_of_fin hsplit (hdir.inEof.1 hin)
  simpa only [List.append_eq_nil_iff] using hnil

theorem sends_ne_nil (hat : p.at_ = .sending frame) : p.sends ≠ [] := by
  rw [Pump.sends, hat]
  cases frame <;> simp [Message.tokens]

/-- **A stuck relay has no pump that sends**: the other would be waiting for it. -/
theorem Stuck.not_sending (h : Stuck w) (hok : Ok w) (hfree : Free w) (s : Side)
    (frame : List UInt8) : (w.pump s).at_ ≠ .sending frame := by
  intro hat
  have hfull := h.full_of_sending hat
  have hin : (w.pump s.other).inEof ≠ true := fun hin ↦
    sends_ne_nil hat (hok.nil_of_inEof hin).2.2.1
  cases hother : (w.pump s.other).at_ with
  | idle =>
    have hws := (h.idle hother).2.1
    rw [Side.other_other] at hws
    rw [hws] at hfull
    exact absurd (w.dir s).pos (Nat.not_lt.2 hfull)
  | sending frame' =>
    exact hfree.waits s ⟨⟨⟨frame, hat⟩, hfull⟩, ⟨frame', hother⟩, h.full_of_sending hother⟩
  | writing rest => exact h.not_writing hfree s.other rest hother
  | closing => exact hin ((hok s.other).2 (.inl hother)).1
  | «over» => exact hin ((hok s.other).2 (.inr hother)).1

/-- It has none that closes. -/
theorem Stuck.not_closing (h : Stuck w) (hok : Ok w) (hfree : Free w) (s : Side) :
    (w.pump s).at_ ≠ .closing := by
  intro hat
  have hfull := h.full_of_closing hat
  -- Only close frames would be on their way, and this side has not sent one.
  have hdone : (w.pump s.other).inEof = true → False := fun hin ↦ by
    have hws := (hok.nil_of_inEof hin).2.1
    cases hlist : (w.dir s).ws with
    | nil =>
      rw [hlist] at hfull
      exact absurd (w.dir s).pos (Nat.not_lt.2 hfull)
    | cons m ws =>
      rw [hlist, List.flatMap_cons, List.append_eq_nil_iff] at hws
      cases m with
      | binary bytes => cases bytes <;> simp [Message.tokens] at hws
      | close =>
        have hover := ((hok s).1.close [] ws hlist).2
        rw [hat] at hover
        cases hover
  cases hother : (w.pump s.other).at_ with
  | idle =>
    have hws := (h.idle hother).2.1
    rw [Side.other_other] at hws
    rw [hws] at hfull
    exact absurd (w.dir s).pos (Nat.not_lt.2 hfull)
  | sending frame => exact h.not_sending hok hfree s.other frame hother
  | writing rest => exact h.not_writing hfree s.other rest hother
  | closing => exact hdone ((hok s.other).2 (.inl hother)).1
  | «over» => exact hdone ((hok s.other).2 (.inr hother)).1

/-- **A stuck relay has delivered everything.** -/
theorem Stuck.delivered (h : Stuck w) (hok : Ok w) (hfree : Free w) (s : Side) :
    (w.dir s).got = (w.dir s).written := by
  have hwhere : ∀ s, (w.pump s).at_ = .idle ∨ (w.pump s).at_ = .over := fun s ↦ by
    cases hat : (w.pump s).at_ with
    | idle => exact .inl rfl
    | sending frame => exact absurd hat (h.not_sending hok hfree s frame)
    | writing rest => exact absurd hat (h.not_writing hfree s rest)
    | closing => exact absurd hat (h.not_closing hok hfree s)
    | «over» => exact .inr rfl
  have hflow := (hok s).1.flow
  rw [Dir.passed, h.out_eq_nil hfree s] at hflow
  rcases hwhere s.other with hidle | hover
  · have hws := (h.idle hidle).2.1
    rw [Side.other_other] at hws
    have hsends : (w.pump s).sends = [] := by
      rcases hwhere s with hat | hat <;> simp only [Pump.sends, hat]
    have hwrites : (w.pump s.other).writes = [] := by simp only [Pump.writes, hidle]
    have hread : (w.pump s).outEof = true → (w.dir s).into.tokens = [] := fun hout ↦
      (hok s).1.nil_of_fin (hok s).1.flow ((hok s).1.outEof.1 hout)
    have hinto : (w.dir s).into.tokens = [] := by
      rcases hwhere s with hat | hat
      · cases hout : (w.pump s).outEof with
        | true => exact hread hout
        | false =>
          refine h.into_eq_nil (fun hstopped ↦ ?_) ((h.idle hat).2.2 hout)
          obtain ⟨rfl, haborted⟩ := hstopped
          rw [(hfree.stopped haborted).1] at hat
          cases hat
      · exact hread ((hok s).2 (.inr hat)).2
    simpa [hws, hsends, hwrites, hinto] using hflow
  · obtain ⟨hwrites, hws, hsends, hinto⟩ := hok.nil_of_inEof ((hok s.other).2 (.inr hover)).1
    simpa only [hws, hsends, hwrites, hinto, List.append_nil] using hflow

/-- **What holds of the relay makes it work.** -/
theorem Ok.relayed (h : Ok w) (hfree : Free w) : Relayed w where
  order s := by
    rw [← (h s).1.flow]
    simp only [Dir.passed, List.append_assoc]
    exact List.prefix_append _ _
  all s hfin := by
    have hflow := (h s).1.flow
    simp only [Dir.passed, List.append_assoc] at hflow
    have hnil := (h s).1.nil_of_fin hflow hfin
    rw [hnil, List.append_nil] at hflow
    exact hflow
  stopped haborted := by
    obtain ⟨hover, hpassed⟩ := hfree.stopped haborted
    obtain ⟨hin, -⟩ := (h .node).2 (.inr hover)
    obtain ⟨hwrites, hws, hsends, hinto⟩ := h.nil_of_inEof (s := .client) hin
    have hflow := (h .client).1.flow
    rw [← hpassed]
    simpa only [Dir.passed, hwrites, hws, hsends, hinto, List.append_nil] using hflow
  running s hover := by
    obtain ⟨hin, hout⟩ := (h s).2 (.inr hover)
    have hsent := (h s).1.outEof.1 hout
    have hreceived := (h s.other).1
    rw [Side.other_other] at hreceived
    obtain ⟨hwrites, hws, hsends, hinto⟩ := h.nil_of_inEof (s := s.other) (by
      rw [Side.other_other]
      exact hin)
    rw [Side.other_other] at hwrites
    have hflow := hreceived.flow
    simp only [Dir.passed, hwrites, hws, hsends, hinto, List.append_nil] at hflow
    refine ⟨?_, (h s).1.nil_of_fin (h s).1.flow hsent, ?_, hflow⟩
    · rw [← (h s).1.flow]
      exact List.mem_append_left _ hsent
    · rw [← hflow]
      exact hreceived.inEof.1 hin
  live := by
    rintro ⟨s, hs⟩
    by_contra hstuck
    push Not at hstuck
    exact hs (Stuck.delivered hstuck h hfree s)

theorem ok_of_init (h : system.init w) : Ok w ∧ Free w := by
  obtain ⟨hpump, hempty, haborted⟩ := h
  refine ⟨fun s ↦ ?_, fun h ↦ absurd (haborted.symm.trans h) Bool.false_ne_true, fun s hw ↦ ?_⟩
  · obtain ⟨hwritten, hinto, hws, hout, hgot⟩ := hempty s
    rw [hpump]
    refine ⟨⟨?_, fun before after heq ↦ ?_, ?_, ?_, fun before after heq ↦ ?_⟩, fun hat ↦ ?_⟩
    · simp [Dir.passed, hwritten, hinto, hws, hout, hgot, fresh, Pump.writes, Pump.sends]
    · rw [hwritten] at heq
      simp at heq
    · simp [Dir.passed, hws, hout, hgot, fresh, Pump.writes, Pump.sends]
    · simp [hout, hgot, fresh]
    · rw [hws] at heq
      simp at heq
    · rcases hat with hat | hat <;> cases hat
  · obtain ⟨frame, hframe⟩ := hw.1.1
    rw [hpump] at hframe
    cases hframe

/-- **The relay works** in every run in which no pump takes bytes there is no room for while the
other waits for room, and in which the SOCKS server is stopped only when it has passed on what it was
given: nothing is lost, reordered or duplicated, each direction goes on when the other is over, and
the relay never stands still with something undelivered. -/
theorem relayed_of_reachable (h : (system.restrict Careful).Reachable w) : Relayed w := by
  have hboth : Ok w ∧ Free w := by
    refine h.invariant (S := system.restrict Careful) (I := fun w ↦ Ok w ∧ Free w)
      (fun _ hw ↦ ok_of_init hw) fun w l t _ hw hl ↦ ?_
    obtain rfl : t = w.step l := hl.2
    exact ⟨hw.1.step l, hw.2.step hl.1⟩
  exact hboth.1.relayed hboth.2

/-! ### Runs -/

/-- A queue with room for one byte. -/
def narrow : Queue UInt8 := ⟨1, Nat.one_pos, []⟩

/-- The connection of the client is one queue; on the node there are the pipe, the buffer of the
SOCKS server and the socket. -/
def start : World where
  pump _ := fresh
  dir
    | .client => ⟨[], .one narrow, [], 1, Nat.one_pos, .more narrow (.more narrow (.one narrow)), []⟩
    | .node => ⟨[], .more narrow (.more narrow (.one narrow)), [], 1, Nat.one_pos, .one narrow, []⟩
  aborted := false

theorem init_start : system.init start :=
  ⟨rfl, fun s ↦ by cases s <;> exact ⟨rfl, rfl, rfl, rfl, rfl⟩, rfl⟩

/-- A byte of the client goes to the upstream connection. -/
def delivers : List Label :=
  [.write .client (.val 7), .take .client 1, .send .client, .next .node, .put .node, .put .node,
    .carryOut .client 1, .carryOut .client 0, .receive .client]

theorem relayed_of_reachable_delivers :
    ((delivers.foldl step start).dir .client).got = [.val 7] ∧
      ((delivers.foldl step start).dir .client).got <+:
        ((delivers.foldl step start).dir .client).written := by
  have hrun : (system.restrict Careful).Reachable (delivers.foldl step start) := by
    refine .foldl_of_allMeet (S := system) (fun _ _ ↦ rfl) (.start init_start)
      ⟨trivial, fun hfull ↦ absurd hfull (by decide), trivial, trivial, trivial, trivial, trivial,
        trivial, trivial, trivial⟩
  exact ⟨rfl, (relayed_of_reachable hrun).order .client⟩

/-- An endpoint writes a byte, and the pump of its side reads it. -/
def reads : Side → List Label
  | .client => [.write .client (.val 7), .take .client 1]
  | .node => [.write .node (.val 7), .carryIn .node 1, .carryIn .node 0, .take .node 1]

/-- Both endpoints write two bytes; each pump sends one and reads the next. -/
def crosses : List Label :=
  reads .client ++ reads .node ++ [.send .client, .send .node] ++ reads .client ++ reads .node

/-- Then each pump waits for the other to receive. -/
def crossed : World where
  pump _ := ⟨.sending [7], false, false⟩
  dir
    | .client =>
      ⟨[.val 7, .val 7], .one narrow, [.binary [7]], 1, Nat.one_pos,
        .more narrow (.more narrow (.one narrow)), []⟩
    | .node =>
      ⟨[.val 7, .val 7], .more narrow (.more narrow (.one narrow)), [.binary [7]], 1, Nat.one_pos,
        .one narrow, []⟩
  aborted := false

theorem foldl_crosses : crosses.foldl step start = crossed := by
  have hpump : (crosses.foldl step start).pump = crossed.pump := funext fun s ↦ by cases s <;> rfl
  have hdir : (crosses.foldl step start).dir = crossed.dir := funext fun s ↦ by cases s <;> rfl
  have haborted : (crosses.foldl step start).aborted = crossed.aborted := rfl
  generalize crosses.foldl step start = w at *
  obtain ⟨pump, dir, aborted⟩ := w
  obtain rfl : pump = crossed.pump := hpump
  obtain rfl : dir = crossed.dir := hdir
  obtain rfl : aborted = crossed.aborted := haborted
  rfl

theorem step_crossed {l : Label} (hl : l.isRelay = true) : crossed.step l = crossed := by
  have hdir : ∀ s, crossed.setDir s (crossed.dir s) = crossed := fun s ↦ by
    simp only [World.setDir, Function.update_eq_self]
  cases l with
  | write | abort => cases hl
  | carryIn s i =>
    cases s with
    | client => exact hdir .client
    | node =>
      cases i with
      | zero => exact hdir .node
      | succ i => cases i <;> exact hdir .node
  | carryOut s i =>
    cases s with
    | client =>
      cases i with
      | zero => exact hdir .client
      | succ i => cases i <;> exact hdir .client
    | node => exact hdir .node
  | receive s | take s _ | send s | next s | put s | finish s | close s => cases s <;> rfl

/-- The node's endpoint shuts its direction first; then the client writes a byte and shuts its own,
and the server is stopped while the byte is in the pipe. -/
def stops : List Label :=
  [.write .node .fin, .carryIn .node 1, .carryIn .node 0, .take .node 1, .send .node, .next .client,
    .write .client (.val 7), .take .client 1, .send .client, .next .node, .put .node, .put .node,
    .write .client .fin, .take .client 1, .send .client, .next .node, .finish .node, .close .node,
    .abort]

/-- Two pumps wait for each other when both endpoints write; and a byte is lost when the server is
stopped too early. -/
theorem not_relayed :
    (¬ ∀ w, system.Reachable w → (∃ s, (w.dir s).got ≠ (w.dir s).written) →
      ∃ l : Label, l.isRelay = true ∧ w.step l ≠ w) ∧
      ¬ ∀ w, system.Reachable w → w.aborted = true →
        (w.dir .client).got ++ (w.dir .client).out.front.tokens = (w.dir .client).written := by
  have hreach : ∀ ls : List Label, system.Reachable (ls.foldl step start) := fun ls ↦
    StepSystem.Reachable.foldl (S := system) (fun _ _ ↦ rfl) (.start init_start) ls
  constructor
  · intro h
    have hcrossed := hreach crosses
    rw [foldl_crosses] at hcrossed
    obtain ⟨l, hl, hne⟩ := h _ hcrossed ⟨.client, by decide⟩
    exact hne (step_crossed hl)
  · intro h
    exact absurd (h _ (hreach stops) rfl) (by decide)

end World

end Ember.Node.Relay
