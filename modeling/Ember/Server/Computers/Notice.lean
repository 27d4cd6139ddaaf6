import Ember.Foundation.Runs

/-!
# The notice of a switch

A session that has worked on one computer and is switched to another gets a notice with its next
message. The switch writes it into the session's row, and a hook of `Sessions::send` takes it out
before the message is on its way; what fails after that does not put it back.

**Key theorem** (`delivered_of_run`): in a run in which every send succeeds that takes a notice, and
none that could not read it, each notice is in what the agent got with the first message after its
switch, in no other, and in one stored event, unless another switch came before any message did.
-/

namespace Ember.Server.Computers.Notices

/-- `switch_notice`. -/
def switchNotice (previous current : String) : String :=
  "[Ember system notice] This session's computer changed from \"" ++ previous ++ "\" to \"" ++
    current ++ "\". File contents, directory listings, processes and command output you observed " ++
    "earlier came from \"" ++ previous ++ "\" and may differ here: re-read any file before editing " ++
    "it, and re-run commands whose results you rely on. Use the current computer description, not " ++
    "the earlier one."

/-- What a hook adds to a message. -/
inductive Note
  /-- From the computers' hook: the notice of a switch, and one of an outage. The number is the
  switch's and read by nothing. -/
  | switched (k : ℕ) (notice : String) (outage : Option String)
  | other (text : String)
  deriving DecidableEq, Repr

/-- The text of a note. -/
def Note.text : Note → String
  | .switched _ notice none => notice
  | .switched _ notice (some outage) => notice ++ "\n\n" ++ outage
  | .other text => text

/-- It is the notice of a switch. -/
def Note.tells (p : ℕ × String) : Note → Bool
  | .switched k notice _ => (k, notice) == p
  | .other _ => false

/-- `AgentEvent`, what `send` stores. -/
inductive Event
  | systemNotice (note : Note)
  | userMessage (text : String)
  deriving DecidableEq, Repr

/-- It stores the notice of a switch. -/
def Event.tells (p : ℕ × String) : Event → Bool
  | .systemNotice note => note.tells p
  | .userMessage _ => false

/-- A message that the agent took. -/
structure Handed where
  notes : List Note
  text : String
  /-- How many switches had written the row. -/
  after : ℕ
  deriving DecidableEq, Repr

/-- `agent_text`. -/
def Handed.agentText (h : Handed) : String :=
  if h.notes = [] then h.text
  else "\n\n".intercalate (h.notes.map Note.text) ++ "\n\n" ++ h.text

/-- A session with a native id: its row in `session_computer`, and what was stored and handed to
its agent. The counter and `wrote` record what happened and are read by nothing. -/
structure Session where
  /-- The computer, and whether its environment is known. -/
  computer : Option (String × Bool)
  /-- The pending notice, with the number of its switch. -/
  notice : Option (ℕ × String)
  events : List Event
  handed : List Handed
  /-- The switches that wrote the row. -/
  switches : ℕ
  /-- The notices they wrote. -/
  wrote : List (ℕ × String)
  deriving DecidableEq, Repr

/-- What a switch finds: whether the session is idle, the computer known, and reachable with a
description that is stored, and the names. -/
structure SwitchFound where
  idle : Bool
  resolved : Bool
  reachable : Bool
  name : String → String

/-- What a send finds. -/
structure SendFound where
  /-- The agent runs, or starts. -/
  live : Bool
  /-- `take_notice` works. -/
  taken : Bool
  /-- What the hooks before and behind say, and what the mounts say. -/
  before : List String
  outage : Option String
  behind : List String
  /-- How many events the channel takes before the agent exits. -/
  accepts : ℕ
  /-- The agent takes the message. -/
  sent : Bool

namespace Session

/-- `Computers::switch`. -/
def switch (s : Session) (target : String) (d : SwitchFound) : Session :=
  let previous := (s.computer.map Prod.fst).getD "local"
  if d.idle = false ∨ d.resolved = false ∨ s.computer = some (target, true) ∨ d.reachable = false
  then s
  else
    let notice :=
      if previous ≠ target then
        some (s.switches + 1, switchNotice (d.name previous) (d.name target))
      else none
    { s with
      computer := some (target, true)
      notice
      switches := s.switches + 1
      wrote := s.wrote ++ notice.toList }

/-- The notice that the hook takes. -/
def taken (s : Session) (d : SendFound) : Option (ℕ × String) := if d.taken then s.notice else none

/-- What the hooks add. -/
def notes (s : Session) (d : SendFound) : List Note :=
  d.before.map .other ++
    (match s.taken d, d.outage with
      | some (k, notice), outage => [.switched k notice outage]
      | none, some outage => [.other outage]
      | none, none => []) ++ d.behind.map .other

/-- The events that `send` stores. -/
def stored (s : Session) (text : String) (d : SendFound) : List Event :=
  (s.notes d).map .systemNotice ++ [.userMessage text]

/-- Every event is taken, and the message. -/
def succeeds (s : Session) (text : String) (d : SendFound) : Bool :=
  (s.stored text d).length ≤ d.accepts && d.sent

/-- `Sessions::send`. -/
def send (s : Session) (text : String) (d : SendFound) : Session :=
  if d.live = false then s
  else
    { s with
      notice := if d.taken then none else s.notice
      events := s.events ++ (s.stored text d).take d.accepts
      handed := s.handed ++
        if s.succeeds text d then [⟨s.notes d, text, s.switches⟩] else [] }

end Session

/-- What is done to the session. -/
inductive Op
  | switch (target : String) (d : SwitchFound)
  | send (text : String) (d : SendFound)

/-- One operation. -/
def step (s : Session) : Op → Session
  | .switch target d => s.switch target d
  | .send text d => s.send text d

/-- While a notice waits, a send that takes it succeeds, and one that cannot read it does not. -/
def Careful (s : Session) : Op → Prop
  | .switch _ _ => True
  | .send text d => s.notice.isSome = true → d.live = true → s.succeeds text d = d.taken

/-! ### What becomes of a notice -/

/-- The first message after the switch has the notice, no other has it, and one event. -/
def Given (s : Session) (p : ℕ × String) : Prop :=
  ∃ front h rest, s.handed = front ++ h :: rest ∧ h.after = p.1 ∧ h.notes.any (·.tells p) = true ∧
    p.2.toList <:+: h.agentText.toList ∧ (∀ x ∈ front, x.after < p.1) ∧
    (∀ x ∈ front ++ rest, x.notes.any (·.tells p) = false) ∧ s.events.countP (·.tells p) = 1

/-- No message came between the switch and the next one, and the notice is in none and in no event;
without a next switch it is in the row. -/
structure Waiting (s : Session) (p : ℕ × String) : Prop where
  handed : ∀ x ∈ s.handed, x.after ≠ p.1 ∧ x.notes.any (·.tells p) = false
  events : s.events.countP (·.tells p) = 0
  row : p.1 = s.switches → s.notice = some p

/-- What holds between operations. -/
structure Inv (s : Session) : Prop where
  pending : ∀ p ∈ s.notice, p.1 = s.switches ∧ p ∈ s.wrote ∧ Waiting s p
  known : ∀ p ∈ s.wrote, p.1 ≤ s.switches
  handed : ∀ x ∈ s.handed, x.after ≤ s.switches ∧
    ∀ p, x.notes.any (·.tells p) = true → p ∈ s.wrote
  events : ∀ e ∈ s.events, ∀ p, e.tells p = true → p ∈ s.wrote
  delivered : ∀ p ∈ s.wrote, Given s p ∨ Waiting s p

variable {s s' : Session} {p : ℕ × String}

theorem Given.mono (h : Given s p) {xs : List Handed} {es : List Event}
    (hhanded : s'.handed = s.handed ++ xs) (hevents : s'.events = s.events ++ es)
    (hxs : ∀ x ∈ xs, x.notes.any (·.tells p) = false) (hes : es.countP (·.tells p) = 0) :
    Given s' p := by
  obtain ⟨front, h, rest, hsplit, hafter, htells, htext, hfront, hothers, hcount⟩ := h
  refine ⟨front, h, rest ++ xs, by simp [hhanded, hsplit], hafter, htells, htext, hfront, ?_, ?_⟩
  · rw [← List.append_assoc]
    exact List.forall_mem_append.2 ⟨hothers, hxs⟩
  · rw [hevents, List.countP_append, hcount, hes]

theorem Waiting.mono (h : Waiting s p) {xs : List Handed} {es : List Event}
    (hhanded : s'.handed = s.handed ++ xs) (hevents : s'.events = s.events ++ es)
    (hxs : ∀ x ∈ xs, x.after ≠ p.1 ∧ x.notes.any (·.tells p) = false)
    (hes : es.countP (·.tells p) = 0) (hrow : p.1 = s'.switches → s'.notice = some p) :
    Waiting s' p where
  handed := hhanded ▸ List.forall_mem_append.2 ⟨h.handed, hxs⟩
  events := by rw [hevents, List.countP_append, h.events, hes]
  row := hrow

/-- What the hooks add tells of the notice that was taken, and of no other. -/
theorem countP_notes (s : Session) (d : SendFound) (p : ℕ × String) :
    (s.notes d).countP (·.tells p) = if s.taken d = some p then 1 else 0 := by
  have hothers (texts : List String) : (texts.map Note.other).countP (·.tells p) = 0 := by
    rw [List.countP_eq_zero]
    simp [Note.tells]
  rw [Session.notes, List.countP_append, List.countP_append, hothers, hothers]
  rcases s.taken d with _ | ⟨k, notice⟩ <;> rcases d.outage with _ | outage <;> simp [Note.tells]

theorem any_notes (s : Session) (d : SendFound) (p : ℕ × String) :
    (s.notes d).any (·.tells p) = decide (s.taken d = some p) := by
  have h := countP_notes s d p
  by_cases ht : s.taken d = some p
  · rw [decide_eq_true ht, List.any_eq_true]
    exact List.countP_pos_iff.1 (by rw [h, if_pos ht]; exact Nat.one_pos)
  · rw [decide_eq_false ht, List.any_eq_false]
    exact List.countP_eq_zero.1 (h.trans (if_neg ht))

theorem countP_stored (s : Session) (text : String) (d : SendFound) (p : ℕ × String) :
    (s.stored text d).countP (·.tells p) = if s.taken d = some p then 1 else 0 := by
  rw [← countP_notes, Session.stored, List.countP_append, List.countP_map]
  simp [Event.tells, Function.comp_def]

/-- What is joined has each of its parts in it. -/
theorem isInfix_intercalate {l : List (List Char)} {x : List Char} (sep : List Char) (h : x ∈ l) :
    x <:+: sep.intercalate l := by
  obtain ⟨front, rest, rfl⟩ := List.append_of_mem h
  induction front with
  | nil =>
    rcases rest with _ | ⟨y, rest⟩
    · simp
    · exact ⟨[], sep ++ sep.intercalate (y :: rest), by simp [List.intercalate_cons_cons]⟩
  | cons y front ih =>
    rw [List.cons_append, List.intercalate_cons_of_ne_nil (by simp)]
    exact (ih (by simp)).trans (List.suffix_append _ _).isInfix

/-- A notice that a message tells of is in its text. -/
theorem Handed.isInfix_agentText {h : Handed} (htells : h.notes.any (·.tells p) = true) :
    p.2.toList <:+: h.agentText.toList := by
  obtain ⟨note, hmem, hnote⟩ := List.any_eq_true.1 htells
  have hnotice : p.2.toList <:+: note.text.toList := by
    rcases note with ⟨k, notice, _ | outage⟩ | text
    · obtain rfl : (k, notice) = p := by simpa [Note.tells] using hnote
      exact List.infix_refl _
    · obtain rfl : (k, notice) = p := by simpa [Note.tells] using hnote
      exact ⟨[], ("\n\n" ++ outage).toList, by simp [Note.text, String.append_assoc]⟩
    · cases hnote
  have hjoined := isInfix_intercalate "\n\n".toList
    (List.mem_map.2 ⟨_, List.mem_map.2 ⟨_, hmem, rfl⟩, rfl⟩ :
      note.text.toList ∈ (h.notes.map Note.text).map String.toList)
  rw [Handed.agentText, if_neg (List.ne_nil_of_mem hmem), String.toList_append,
    String.toList_append, String.toList_intercalate, List.append_assoc]
  exact hnotice.trans (hjoined.trans (List.prefix_append _ _).isInfix)

/-- Writing the row keeps the invariant, with a notice or without. -/
theorem Inv.wrote (h : Inv s) (computer : Option (String × Bool)) {q : Option (ℕ × String)}
    (hq : ∀ p ∈ q, p.1 = s.switches + 1) :
    Inv { s with
      computer
      notice := q
      switches := s.switches + 1
      wrote := s.wrote ++ q.toList } := by
  have hfresh (p) (hp : p ∈ q) : p ∉ s.wrote := fun hmem ↦
    absurd (h.known p hmem) (by rw [hq p hp]; exact Nat.not_succ_le_self _)
  have hwaiting (p) (hp : p ∈ q) : Waiting { s with
      computer
      notice := q
      switches := s.switches + 1
      wrote := s.wrote ++ q.toList } p := by
    refine ⟨fun x hx ↦ ?_, ?_, fun _ ↦ hp⟩
    · obtain ⟨hafter, htells⟩ := h.handed x hx
      have hnumber := hq p hp
      exact ⟨by omega, Bool.eq_false_iff.2 fun ht ↦ hfresh p hp (htells p ht)⟩
    · exact List.countP_eq_zero.2 fun e he ht ↦ hfresh p hp (h.events e he p ht)
  refine ⟨fun p hp ↦ ?_, fun p hp ↦ ?_, fun x hx ↦ ?_, fun e he p ht ↦ ?_, fun p hp ↦ ?_⟩
  · exact ⟨hq p hp, List.mem_append_right _ (Option.mem_toList.2 hp), hwaiting p hp⟩
  · rcases List.mem_append.1 hp with hp | hp
    · exact Nat.le_succ_of_le (h.known p hp)
    · exact Nat.le_of_eq (hq p (Option.mem_toList.1 hp))
  · exact ⟨Nat.le_succ_of_le (h.handed x hx).1,
      fun p ht ↦ List.mem_append_left _ ((h.handed x hx).2 p ht)⟩
  · exact List.mem_append_left _ (h.events e he p ht)
  · rcases List.mem_append.1 hp with hp | hp
    · have hle := h.known p hp
      refine (h.delivered p hp).imp (fun hg ↦ ?_) fun hw ↦ ⟨hw.handed, hw.events, fun hrow ↦ ?_⟩
      · exact hg
      · simp only at hrow
        omega
    · exact .inr (hwaiting p (Option.mem_toList.1 hp))

theorem Inv.switch (h : Inv s) (target : String) (d : SwitchFound) : Inv (s.switch target d) := by
  rw [Session.switch]
  split
  · exact h
  · refine h.wrote _ fun p hp ↦ ?_
    split at hp <;> cases hp
    rfl

theorem Inv.send (h : Inv s) {text : String} {d : SendFound} (hcareful : Careful s (.send text d)) :
    Inv (s.send text d) := by
  rw [Session.send]
  split
  · exact h
  rename_i hlive
  have htaken {p} (ht : s.taken d = some p) : s.notice = some p := by
    rw [Session.taken] at ht
    split at ht
    · exact ht
    · cases ht
  -- What is stored and handed over tells of the notice that was taken alone.
  have hstored {p} (hne : s.taken d ≠ some p) :
      ((s.stored text d).take d.accepts).countP (·.tells p) = 0 :=
    Nat.le_zero.1 (((countP_stored s text d p).trans (if_neg hne)) ▸
      (List.take_sublist _ _).countP_le)
  have hnotes {p} (hne : s.taken d ≠ some p) :
      ∀ x ∈ (if s.succeeds text d then [⟨s.notes d, text, s.switches⟩] else [] : List Handed),
        x.notes.any (·.tells p) = false := by
    intro x hx
    split at hx <;> simp only [List.mem_singleton, List.not_mem_nil] at hx
    subst hx
    rw [any_notes, decide_eq_false hne]
  have hwaiting {p} (hne : s.taken d ≠ some p) (hw : Waiting s p) : Waiting { s with
      notice := if d.taken then none else s.notice
      events := s.events ++ (s.stored text d).take d.accepts
      handed := s.handed ++
        if s.succeeds text d then [⟨s.notes d, text, s.switches⟩] else [] } p := by
    have hrow (hp : p.1 = s.switches) : s.notice = some p ∧ d.taken = false ∧
        s.succeeds text d = false := by
      have hnotice := hw.row hp
      have hfails : d.taken = false := Bool.eq_false_iff.2 fun ht ↦
        hne (by rw [Session.taken, if_pos ht, hnotice])
      exact ⟨hnotice, hfails, (hcareful (by rw [hnotice]; rfl) (by simpa using hlive)).trans hfails⟩
    refine hw.mono rfl rfl (fun x hx ↦ ⟨fun hp ↦ ?_, hnotes hne x hx⟩) (hstored hne) fun hp ↦ ?_
    · split at hx <;> simp only [List.mem_singleton, List.not_mem_nil] at hx
      rename_i hsucceeds
      subst hx
      simp_all
    · simp [hrow hp]
  refine ⟨fun p hp ↦ ?_, h.known, fun x hx ↦ ?_, fun e he p ht ↦ ?_, fun p hp ↦ ?_⟩
  · have hne : s.taken d ≠ some p := by
      rw [Session.taken]
      simp only at hp
      split at hp <;> simp_all
    have hnotice : s.notice = some p := by
      simp only at hp
      split at hp
      · cases hp
      · exact hp
    obtain ⟨hnumber, hmem, hw⟩ := h.pending p hnotice
    exact ⟨hnumber, hmem, hwaiting hne hw⟩
  · rcases List.mem_append.1 hx with hx | hx
    · exact h.handed x hx
    · refine ⟨?_, fun p ht ↦ ?_⟩
      · split at hx <;> simp only [List.mem_singleton, List.not_mem_nil] at hx
        subst hx
        exact Nat.le_refl _
      · by_contra hmem
        have hne : s.taken d ≠ some p := fun ht ↦ hmem (h.pending p (htaken ht)).2.1
        rw [hnotes hne x hx] at ht
        cases ht
  · rcases List.mem_append.1 he with he | he
    · exact h.events e he p ht
    · by_contra hmem
      have hne : s.taken d ≠ some p := fun ht ↦ hmem (h.pending p (htaken ht)).2.1
      exact List.countP_eq_zero.1 (hstored hne) e he ht
  · by_cases ht : s.taken d = some p
    · -- The send takes it, and so succeeds.
      have hnotice := htaken ht
      obtain ⟨hnumber, -, hw⟩ := h.pending p hnotice
      have hread : d.taken = true := by
        rw [Session.taken] at ht
        split at ht
        · assumption
        · cases ht
      have hsucceeds : s.succeeds text d = true :=
        (hcareful (by rw [hnotice]; rfl) (by simpa using hlive)).trans hread
      have htells : (s.notes d).any (·.tells p) = true := by rw [any_notes, decide_eq_true ht]
      refine .inl ⟨s.handed, ⟨s.notes d, text, s.switches⟩, [], by rw [if_pos hsucceeds],
        hnumber.symm, htells, Handed.isInfix_agentText htells, fun x hx ↦ ?_, fun x hx ↦ ?_, ?_⟩
      · exact Nat.lt_of_le_of_ne (hnumber ▸ (h.handed x hx).1) (hw.handed x hx).1
      · exact (hw.handed x (by simpa using hx)).2
      · have hroom : (s.stored text d).length ≤ d.accepts := by
          rw [Session.succeeds, Bool.and_eq_true, decide_eq_true_eq] at hsucceeds
          exact hsucceeds.1
        rw [List.take_of_length_le hroom, List.countP_append, hw.events, countP_stored, if_pos ht]
    · exact (h.delivered p hp).imp (·.mono rfl rfl (hnotes ht) (hstored ht)) (hwaiting ht)

/-- A session that no switch has noted anything for, on any computer. -/
def Session.new (computer : Option (String × Bool)) : Session := ⟨computer, none, [], [], 0, []⟩

/-- **Each notice reaches the agent once**, with the first message after its switch: after any run
in which no send that takes one fails. -/
theorem delivered_of_run (computer : Option (String × Bool)) {ops : List Op}
    (hops : StepSystem.AllMeet step Careful (.new computer) ops) :
    ∀ p ∈ (ops.foldl step (.new computer)).wrote, Given (ops.foldl step (.new computer)) p ∨
      Waiting (ops.foldl step (.new computer)) p := by
  have hinv : Inv (Session.new computer) := by
    constructor <;> simp [Session.new]
  suffices h : ∀ s, Inv s → StepSystem.AllMeet step Careful s ops → Inv (ops.foldl step s) from
    (h _ hinv hops).delivered
  clear hops
  induction ops with
  | nil => exact fun s hs _ ↦ hs
  | cons op ops ih =>
    rintro s hs ⟨hop, hrest⟩
    refine ih _ ?_ hrest
    cases op with
    | switch target d => exact hs.switch target d
    | send text d => exact hs.send hop

/-- A switch and a message, with nothing in the way. -/
theorem delivered_of_run_switched :
    let ops :=
      [Op.switch "pc" ⟨true, true, true, id⟩, .send "go" ⟨true, true, [], none, [], 2, true⟩]
    Given (ops.foldl step (.new none)) (1, switchNotice "local" "pc") ∨
      Waiting (ops.foldl step (.new none)) (1, switchNotice "local" "pc") :=
  delivered_of_run none (by
    refine ⟨trivial, fun _ _ ↦ ?_, trivial⟩
    rfl) _ (List.mem_singleton_self _)

/-- The agent refuses the first message after a switch: the next one goes without the notice. -/
theorem not_delivered :
    ¬ ∀ computer (ops : List Op), ∀ p ∈ (ops.foldl step (.new computer)).wrote,
      Given (ops.foldl step (.new computer)) p ∨ Waiting (ops.foldl step (.new computer)) p := by
  intro h
  rcases h none [.switch "pc" ⟨true, true, true, id⟩,
      .send "go" ⟨true, true, [], none, [], 2, false⟩,
      .send "go" ⟨true, true, [], none, [], 1, true⟩]
      (1, switchNotice "local" "pc") (List.mem_singleton_self _) with hgiven | hwaiting
  · obtain ⟨front, x, rest, hsplit, -, htells, -⟩ := hgiven
    have hmem : x ∈ [(⟨[], "go", 1⟩ : Handed)] := by
      rw [show [(⟨[], "go", 1⟩ : Handed)] = front ++ x :: rest from hsplit]
      simp
    rw [List.mem_singleton.1 hmem] at htells
    cases htells
  · cases hwaiting.row rfl

end Ember.Server.Computers.Notices
