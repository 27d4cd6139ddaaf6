import Ember.Server.A2a.Sending

/-!
# Loop protection

In every window of the configured length one session stores at most `per_session` messages under the
lock, and two sessions exchange at most `per_pair`. A check only counts up to the moment it reads
the clock, and the messages it lets through are stored later: what carries over is `Board.Room`,
which says of a call that was let through that the rows since its check still leave room for what it
has left to store. Mentions and first prompts take no room of a call that was let through before,
and are counted by every check after.
-/

namespace Ember.Server

/-- The members of a team are of different sessions. -/
theorem TeamStore.nodup_teamMembers {s : TeamStore}
    (h : (s.members.map MemberRow.sessionId).Nodup) (teamId : String) :
    ((s.teamMembers teamId).map MemberRow.sessionId).Nodup := by
  have hperm : (s.teamMembers teamId).Perm (s.members.filter (·.teamId == teamId)) :=
    List.perm_insertionSort _ _
  exact (hperm.map _).nodup_iff.2 (h.sublist (List.filter_sublist.map _))

/-! ### The messages stored under the lock -/

namespace Board

/-- How many of the messages stored under the lock are as `q` says, as they were stored. -/
def count (b : Board) (q : A2aMessage → Bool) : ℕ :=
  b.tables.a2a.messages.countP fun r ↦
    b.limited.contains r.message.id && q r.undelivered.message

/-- The messages of a session in the window before `now`, or later. -/
def sentRecently (sender : String) (now window : ℕ) (m : A2aMessage) : Bool :=
  m.fromSession == sender && m.since now window

/-- The messages of a pair in the window before `now`, or later. -/
def exchangedRecently (x y : String) (now window : ℕ) (m : A2aMessage) : Bool :=
  m.between x y && m.since now window

/-- The message is of the window that begins at `start`. -/
def inWindow (start window : ℕ) (m : A2aMessage) : Bool :=
  decide (start ≤ m.createdAt) && decide (m.createdAt ≤ start + window)

/-- The rows since a check that read the clock as `now` leave room for one message from `sender` to
each of `rest`. -/
structure Room (cfg : A2aConfig) (b : Board) (sender : String) (now : ℕ) (rest : List String) :
    Prop where
  session : b.count (sentRecently sender now cfg.window) + rest.length ≤ cfg.perSession
  nodup : rest.Nodup
  pair : ∀ target ∈ rest, b.count (exchangedRecently sender target now cfg.window) < cfg.perPair

/-- What loop protection keeps. -/
structure Kept (cfg : A2aConfig) (b : Board) : Prop where
  /-- A session is a member of at most one team. -/
  once : (b.tables.teams.members.map MemberRow.sessionId).Nodup
  stored : ∀ id ∈ b.limited, id ∈ b.tables.a2a.messages.map fun r ↦ r.message.id
  session : ∀ x start, b.count (fun m ↦ m.fromSession == x && inWindow start cfg.window m) ≤
    cfg.perSession
  pair : ∀ x y start, b.count (fun m ↦ m.between x y && inWindow start cfg.window m) ≤ cfg.perPair

/-- Nothing is stored under the lock, and time goes on. -/
structure Quiet (b b' : Board) : Prop where
  clock : b.clock ≤ b'.clock
  limited : b'.limited = b.limited
  count : ∀ q, b'.count q = b.count q
  stored : ∀ r ∈ b.tables.a2a.messages,
    r.message.id ∈ b'.tables.a2a.messages.map fun r ↦ r.message.id

variable {cfg : A2aConfig} {b b' : Board} {sender target text id : String} {now : ℕ}
  {rest : List String} {replyTo : Option String} {a2a : A2aStore} {msg : A2aMessage}

theorem count_mono {q q' : A2aMessage → Bool} (h : ∀ m, q m = true → q' m = true) :
    b.count q ≤ b.count q' :=
  List.countP_mono_left fun r _ hr ↦ by
    rw [Bool.and_eq_true] at hr ⊢
    exact ⟨hr.1, h _ hr.2⟩

theorem Quiet.refl (b : Board) : b.Quiet b :=
  ⟨le_rfl, rfl, fun _ ↦ rfl, fun r hr ↦ List.mem_map.2 ⟨r, hr, rfl⟩⟩

/-- A board with the same messages. -/
theorem Quiet.of_messages (ha2a : b'.tables.a2a = b.tables.a2a) (hlimited : b'.limited = b.limited)
    (hclock : b.clock ≤ b'.clock) : b.Quiet b' :=
  ⟨hclock, hlimited, fun q ↦ by rw [Board.count, Board.count, ha2a, hlimited],
    fun r hr ↦ ha2a ▸ List.mem_map.2 ⟨r, hr, rfl⟩⟩

/-- A row with a new id is not one of those stored under the lock. -/
theorem Quiet.insertMessage
    (hstored : ∀ id ∈ b.limited, id ∈ b.tables.a2a.messages.map fun r ↦ r.message.id)
    (h : b.tables.a2a.insertMessage id now sender target replyTo text = some (a2a, msg)) :
    b.Quiet { b with tables.a2a := a2a } := by
  obtain ⟨rfl, hmessages, hfresh⟩ := A2aStore.insertMessage_eq_some h
  refine ⟨le_rfl, rfl, fun q ↦ ?_, fun r hr ↦ ?_⟩
  · have hnot : b.limited.contains id = false := by
      refine Bool.eq_false_iff.2 fun hin ↦ ?_
      obtain ⟨r, hr, hid⟩ := List.mem_map.1 (hstored id (List.contains_iff_mem.1 hin))
      exact hfresh r hr hid
    simp only [Board.count, hmessages, List.countP_append, List.countP_singleton, hnot,
      Bool.false_and, Bool.false_eq_true, if_false, Nat.add_zero]
  · exact List.mem_map.2 ⟨r, hmessages ▸ List.mem_append_left _ hr, rfl⟩

theorem Quiet.markDelivered (b : Board) (ids : List String) :
    b.Quiet { b with tables.a2a := b.tables.a2a.markDelivered ids b.clock } := by
  have hsame : ∀ r : MessageRow,
      (if ids.contains r.message.id then r.deliver b.clock else r).message.id = r.message.id ∧
      (if ids.contains r.message.id then r.deliver b.clock else r).undelivered = r.undelivered :=
    fun r ↦ by split <;> exact ⟨rfl, rfl⟩
  refine ⟨le_rfl, rfl, fun q ↦ ?_, fun r hr ↦ ?_⟩
  · rw [Board.count, A2aStore.markDelivered, List.countP_map]
    refine List.countP_congr fun r _ ↦ ?_
    simp only [Function.comp_apply, hsame]
  · exact List.mem_map.2 ⟨_, List.mem_map_of_mem hr, (hsame r).1⟩

/-- A message stored under the lock counts once for what it is like. -/
theorem count_store
    (h : b.tables.a2a.insertMessage id now sender target replyTo text = some (a2a, msg))
    (q : A2aMessage → Bool) :
    ({ b with tables.a2a := a2a, limited := b.limited ++ [id] } : Board).count q =
      b.count q + if q msg then 1 else 0 := by
  obtain ⟨rfl, hmessages, hfresh⟩ := A2aStore.insertMessage_eq_some h
  simp only [Board.count, hmessages, List.countP_append, List.countP_singleton]
  congr 1
  · refine List.countP_congr fun r hr ↦ ?_
    have hid : (b.limited ++ [id]).contains r.message.id = b.limited.contains r.message.id := by
      simp [hfresh r hr]
    rw [hid]
  · simp [MessageRow.undelivered]

/-! ### Room -/

theorem Room.quiet (h : b.Room cfg sender now rest) (hquiet : b.Quiet b') :
    b'.Room cfg sender now rest :=
  ⟨(hquiet.count _).symm ▸ h.session, h.nodup, fun t ht ↦ (hquiet.count _).symm ▸ h.pair t ht⟩

theorem Kept.quiet (h : b.Kept cfg) (hquiet : b.Quiet b')
    (honce : (b'.tables.teams.members.map MemberRow.sessionId).Nodup) : b'.Kept cfg where
  once := honce
  stored id hid := by
    obtain ⟨r, hr, rfl⟩ := List.mem_map.1 (h.stored id (hquiet.limited ▸ hid))
    exact hquiet.stored r hr
  session x start := (hquiet.count _).symm ▸ h.session x start
  pair x y start := (hquiet.count _).symm ▸ h.pair x y start

/-- A message is between the two it goes from and to, and no others. -/
theorem between_eq {m : A2aMessage} {x y : String} (h : m.between x y = true) (m' : A2aMessage) :
    m'.between x y = m'.between m.fromSession m.toSession := by
  have hends : (m.fromSession = x ∧ m.toSession = y) ∨ (m.fromSession = y ∧ m.toSession = x) := by
    simpa [A2aMessage.between] using h
  rcases hends with ⟨rfl, rfl⟩ | ⟨rfl, rfl⟩
  · rfl
  · exact Bool.or_comm _ _

/-- **Room is used up one message at a time**: a message there is room for keeps every window within
the limits, and leaves room for the rest. -/
theorem Room.store (hroom : b.Room cfg sender now (target :: rest)) (hkept : b.Kept cfg)
    (hnow : now ≤ b.clock)
    (h : b.tables.a2a.insertMessage id b.clock sender target replyTo text = some (a2a, msg)) :
    ({ b with tables.a2a := a2a, limited := b.limited ++ [id] } : Board).Kept cfg ∧
      ({ b with tables.a2a := a2a, limited := b.limited ++ [id] } : Board).Room cfg sender now rest := by
  have hcount := count_store h
  obtain ⟨rfl, hmessages, -⟩ := A2aStore.insertMessage_eq_some h
  obtain ⟨hsession, hnodup, hpair⟩ := hroom
  -- A window that the new message is in reaches back no further than the check.
  have hwithin : ∀ start m, inWindow start cfg.window ⟨id, sender, target, replyTo, text, b.clock, none⟩ →
      inWindow start cfg.window m → m.since now cfg.window = true := by
    intro start m hnew hm
    simp only [inWindow, A2aMessage.since, Bool.and_eq_true, decide_eq_true_eq] at hnew hm ⊢
    omega
  refine ⟨⟨hkept.once, fun i hi ↦ ?_, fun x start ↦ ?_, fun x y start ↦ ?_⟩,
    ⟨?_, (List.nodup_cons.1 hnodup).2, fun t ht ↦ ?_⟩⟩
  · rw [show ({ b with tables.a2a := a2a, limited := b.limited ++ [id] } : Board).tables.a2a.messages =
      a2a.messages from rfl, hmessages, List.map_append]
    rcases List.mem_append.1 hi with hi | hi
    · exact List.mem_append_left _ (hkept.stored i hi)
    · exact List.mem_append_right _ hi
  · rw [hcount]
    split
    case isFalse => exact hkept.session x start
    case isTrue hq =>
      obtain ⟨hx, hin⟩ := Bool.and_eq_true_iff.1 hq
      have hle : b.count (fun m ↦ m.fromSession == x && inWindow start cfg.window m) ≤
          b.count (sentRecently sender now cfg.window) := by
        refine count_mono fun m hm ↦ ?_
        obtain ⟨hmx, hmin⟩ := Bool.and_eq_true_iff.1 hm
        refine Bool.and_eq_true_iff.2 ⟨?_, hwithin start m hin hmin⟩
        rw [beq_iff_eq] at hx hmx ⊢
        exact hmx.trans hx.symm
      rw [List.length_cons] at hsession
      omega
  · rw [hcount]
    split
    case isFalse => exact hkept.pair x y start
    case isTrue hq =>
      obtain ⟨hxy, hin⟩ := Bool.and_eq_true_iff.1 hq
      have hle : b.count (fun m ↦ m.between x y && inWindow start cfg.window m) ≤
          b.count (exchangedRecently sender target now cfg.window) := by
        refine count_mono fun m hm ↦ ?_
        obtain ⟨hmxy, hmin⟩ := Bool.and_eq_true_iff.1 hm
        exact Bool.and_eq_true_iff.2 ⟨between_eq hxy m ▸ hmxy, hwithin start m hin hmin⟩
      have := hpair target List.mem_cons_self
      omega
  · have hle : (if sentRecently sender now cfg.window
        ⟨id, sender, target, replyTo, text, b.clock, none⟩ = true then 1 else 0) ≤ 1 := by
      split <;> decide
    rw [hcount]
    rw [List.length_cons] at hsession
    omega
  · -- The message is none of another pair.
    have hother : exchangedRecently sender t now cfg.window
        ⟨id, sender, target, replyTo, text, b.clock, none⟩ = false := by
      refine Bool.eq_false_iff.2 fun hq ↦ ?_
      have hbetween := (Bool.and_eq_true_iff.1 hq).1
      have heq : target = t := by
        simp only [A2aMessage.between, Bool.or_eq_true, Bool.and_eq_true, beq_iff_eq] at hbetween
        rcases hbetween with ⟨-, h⟩ | ⟨h, h'⟩
        · exact h
        · exact h'.trans h
      exact (List.nodup_cons.1 hnodup).1 (heq ▸ ht)
    rw [hcount, hother]
    exact hpair t (List.mem_cons_of_mem _ ht)

theorem count_le_sentSince (b : Board) (sender : String) (now window : ℕ) :
    b.count (sentRecently sender now window) ≤ b.tables.a2a.sentSince sender now window :=
  List.countP_mono_left fun _ _ hr ↦ (Bool.and_eq_true_iff.1 hr).2

theorem count_le_pairSince (b : Board) (x y : String) (now window : ℕ) :
    b.count (exchangedRecently x y now window) ≤ b.tables.a2a.pairSince x y now window :=
  List.countP_mono_left fun _ _ hr ↦ (Bool.and_eq_true_iff.1 hr).2

end Board

/-! ### The locked part -/

namespace LockedAt

open Board

variable {cfg : A2aConfig} {b b' : Board} {out : Outgoing} {k k' : LockedAt}
  {d : Except String String}

/-- What its checks have found of a call in the locked part. -/
def Within (cfg : A2aConfig) (b : Board) (out : Outgoing) : LockedAt → Prop
  | waiting | refusing .. => True
  | counting now => now ≤ b.clock
  | pairing now rest => now ≤ b.clock ∧
      b.count (sentRecently out.sender now cfg.window) + out.tos.length ≤ cfg.perSession ∧
      ∀ target ∈ out.tos, target ∈ rest ∨
        b.count (exchangedRecently out.sender target now cfg.window) < cfg.perPair
  | mailing _ => ∃ now ≤ b.clock, b.Room cfg out.sender now out.tos
  | storing _ _ rest _ => ∃ now ≤ b.clock, b.Room cfg out.sender now rest

theorem Within.quiet (hk : k.Within cfg b out) (hquiet : b.Quiet b') : k.Within cfg b' out := by
  have hcount := hquiet.count
  cases k with
  | waiting | refusing => trivial
  | counting now => exact le_trans hk hquiet.clock
  | pairing now rest =>
    obtain ⟨hnow, hsession, hpair⟩ := hk
    exact ⟨hnow.trans hquiet.clock, (hcount _).symm ▸ hsession,
      fun t ht ↦ (hpair t ht).imp_right fun h ↦ (hcount _).symm ▸ h⟩
  | mailing | storing =>
    obtain ⟨now, hnow, hroom⟩ := hk
    exact ⟨now, hnow.trans hquiet.clock, hroom.quiet hquiet⟩

theorem within_admitted (h : ∃ now ≤ b.clock, b.Room cfg out.sender now out.tos) :
    (admitted out).Within cfg b out := by
  rw [admitted]
  split <;> exact h

/-- A refusal stores no message. -/
theorem refuse_within (cfg : A2aConfig) (b : Board) (out : Outgoing) (target reason : String) :
    b.Quiet (refuse b out target reason).1 ∧
      (refuse b out target reason).1.tables = b.tables ∧
      ∀ k', (refuse b out target reason).2 = .inl k' → k'.Within cfg b out := by
  simp only [refuse]
  split
  · exact ⟨.of_messages rfl rfl le_rfl, rfl, fun k' h ↦ (by cases h)⟩
  · refine ⟨.of_messages rfl rfl le_rfl, rfl, fun k' h ↦ ?_⟩
    obtain rfl := Sum.inl.inj h
    trivial

/-- **One step under the lock** keeps every window within the limits, and what the checks found. -/
theorem within_step (hkept : b.Kept cfg) (hk : k.Within cfg b out) (hnodup : out.tos.Nodup)
    (hsome : out.tos ≠ []) :
    (k.step cfg b out d).1.Kept cfg ∧
      ∀ k', (k.step cfg b out d).2 = .inl k' → k'.Within cfg (k.step cfg b out d).1 out := by
  -- Where nothing is stored, only the next state is to be looked at.
  have hsame : ∀ {r : Board × (LockedAt ⊕ Outcome)}, b.Quiet r.1 →
      r.1.tables.teams = b.tables.teams → (∀ k', r.2 = .inl k' → k'.Within cfg b out) →
      r.1.Kept cfg ∧ ∀ k', r.2 = .inl k' → k'.Within cfg r.1 out := fun hquiet hteams hnext ↦
    ⟨hkept.quiet hquiet (hteams ▸ hkept.once), fun k' hk' ↦ (hnext k' hk').quiet hquiet⟩
  have hrefuse : ∀ target reason,
      (refuse b out target reason).1.Kept cfg ∧ ∀ k', (refuse b out target reason).2 = .inl k' →
        k'.Within cfg (refuse b out target reason).1 out := fun target reason ↦ by
    obtain ⟨hquiet, htables, hnext⟩ := refuse_within cfg b out target reason
    exact hsame hquiet (congrArg Tables.teams htables) hnext
  have hover : ∀ r, (b.release.Kept cfg ∧ ∀ k', (.inr r : LockedAt ⊕ Outcome) = .inl k' →
      k'.Within cfg b.release out) := fun r ↦
    ⟨hkept.quiet (.of_messages rfl rfl le_rfl) hkept.once, fun k' h ↦ (by cases h)⟩
  have hgo : ∀ {k₁ : LockedAt}, k₁.Within cfg b out →
      b.Kept cfg ∧ ∀ k', (.inl k₁ : LockedAt ⊕ Outcome) = .inl k' → k'.Within cfg b out :=
    fun h ↦ ⟨hkept, fun k' hk' ↦ Sum.inl.inj hk' ▸ h⟩
  cases k with
  | waiting =>
    simp only [step]
    split
    · exact hgo trivial
    · refine hsame (.of_messages rfl rfl le_rfl) rfl fun k' h ↦ ?_
      obtain rfl := Sum.inl.inj h
      exact le_rfl
  | counting now =>
    simp only [step]
    split
    case h_1 => exact hover _
    case h_2 htos => exact absurd htos hsome
    case h_3 target rest htos =>
      split
      case isTrue => exact hrefuse _ _
      case isFalse hle =>
        refine hgo ⟨hk, ?_, fun t ht ↦ .inl ht⟩
        have := count_le_sentSince b out.sender now cfg.window
        omega
  | pairing now rest =>
    obtain ⟨hnow, hsession, hpair⟩ := hk
    cases rest with
    | nil =>
      simp only [step]
      exact hgo (within_admitted ⟨now, hnow, hsession, hnodup,
        fun t ht ↦ (hpair t ht).resolve_left List.not_mem_nil⟩)
    | cons target rest =>
      simp only [step]
      split
      · exact hover _
      · split
        case isTrue => exact hrefuse _ _
        case isFalse hlt =>
          refine hgo ⟨hnow, hsession, fun t ht ↦ ?_⟩
          rcases hpair t ht with hmem | hlt'
          · rcases List.mem_cons.1 hmem with rfl | hmem
            · exact .inr ((count_le_pairSince b out.sender t now cfg.window).trans_lt (not_le.1 hlt))
            · exact .inl hmem
          · exact .inr hlt'
  | refusing rest message =>
    cases rest with
    | nil => exact hover _
    | cons target rest =>
      simp only [step]
      split
      · exact hgo trivial
      · refine hsame (.of_messages rfl rfl le_rfl) rfl fun k' h ↦ ?_
        obtain rfl := Sum.inl.inj h
        trivial
  | mailing draft =>
    simp only [step]
    split
    · exact hover _
    · refine hsame (.of_messages rfl rfl le_rfl) rfl fun k' h ↦ ?_
      obtain rfl := Sum.inl.inj h
      exact hk
  | storing mail body rest msgs =>
    cases rest with
    | nil => exact hover _
    | cons target rest =>
      simp only [step]
      split
      · exact hover _
      · split
        · exact hover _
        case h_2 a2a msg hinsert =>
          obtain ⟨now, hnow, hroom⟩ := hk
          obtain ⟨hkept', hroom'⟩ := hroom.store hkept hnow hinsert
          refine ⟨hkept', fun k' h ↦ ?_⟩
          obtain rfl := Sum.inl.inj h
          exact ⟨now, hnow, hroom'⟩

end LockedAt

/-! ### The calls -/

/-- A batch goes to different sessions. -/
def Batch (tos : List String) : Prop := tos ≠ [] ∧ tos.Nodup

/-- What loop protection needs to know of a call: its batch, and what the checks found of the locked
part. -/
def At.Within (cfg : A2aConfig) (b : Board) : At → Prop
  | .switching _ _ recipients _ _ => Batch (recipients.map MemberRow.sessionId)
  | .locked out k _ => Batch out.tos ∧ k.Within cfg b out
  | _ => True

variable {p : At}

theorem At.Within.quiet {cfg : A2aConfig} {b b' : Board} (h : p.Within cfg b)
    (hquiet : b.Quiet b') : p.Within cfg b' := by
  cases p with
  | locked out k after => exact ⟨h.1, h.2.quiet hquiet⟩
  | switching => exact h
  | _ => trivial

/-- The call does not hold the lock, and its batch is as `D` says. -/
def At.Fresh (D : List String → Prop) : At → Prop
  | .switching _ _ recipients _ _ => D (recipients.map MemberRow.sessionId)
  | .locked out k _ => D out.tos ∧ k = .waiting
  | _ => True

theorem At.Fresh.within (h : p.Fresh Batch) (cfg : A2aConfig) (b : Board) :
    p.Within cfg b := by
  cases p with
  | locked out k after =>
    obtain ⟨hbatch, rfl⟩ := h
    exact ⟨hbatch, trivial⟩
  | switching => exact h
  | _ => trivial

variable {D : List String → Prop}

/-- A single message that waits for the lock. -/
theorem At.fresh_waiting (hone : ∀ target, D [target]) (from_ target : String)
    (replyTo : Option String) (text : String) (after : After) :
    (At.locked ⟨from_, [target], replyTo, text, none⟩ .waiting after).Fresh D :=
  ⟨hone target, rfl⟩

theorem At.Late.fresh (h : p.Late) : p.Fresh D := by
  cases p <;> first | trivial | cases h

variable {after : After}

namespace Call

variable (c : Call)

theorem fresh_checked : c.checked.at_.Fresh D := by
  simp only [checked]
  split <;> trivial

theorem fresh_joined (me : MemberRow) : (c.joined me).at_.Fresh D := by
  simp only [joined]
  split
  · split
    · trivial
    · split <;> trivial
  · split
    · trivial
    · split <;> trivial
  · trivial

theorem fresh_resolved (hone : ∀ target, D [target]) (me m : MemberRow) : (c.resolved me m).at_.Fresh D := by
  simp only [resolved]
  split
  · split
    · trivial
    · exact hone m.sessionId
  · split <;> trivial

theorem fresh_addressed {me : MemberRow} {target : Option MemberRow} {recipients : List MemberRow}
    {off : List String}
    (h : D (recipients.map MemberRow.sessionId)) (hat : c.at_.Fresh D) :
    (c.addressed me target recipients off).at_.Fresh D := by
  simp only [addressed]
  split
  · split
    · trivial
    · exact ⟨h, rfl⟩
  · exact hat

theorem fresh_permitted (hone : ∀ target, D [target]) (hat : c.at_.Fresh D) : c.permitted.at_.Fresh D := by
  simp only [permitted]
  split
  · trivial
  · exact At.fresh_waiting hone ..
  · exact hat

theorem fresh_reviewed (me : MemberRow) (task : Task) (status : Option TaskStatus)
    (assignee : Option (Option MemberRow)) :
    (c.reviewed me task status assignee).at_.Fresh D := by
  simp only [reviewed]
  split
  · trivial
  · split <;> trivial

theorem fresh_found (me : MemberRow) (task : Task) (patch : TaskPatch) :
    (c.found me task patch).at_.Fresh D := by
  simp only [found]
  split
  · trivial
  · split
    · exact fresh_reviewed ..
    · split
      · exact fresh_reviewed ..
      · trivial

theorem fresh_named (hone : ∀ target, D [target]) (me : MemberRow) (task updated : Task) (status : Option TaskStatus)
    (assignee : Option (Option MemberRow)) :
    (c.named me task updated status assignee).at_.Fresh D := by
  simp only [named]
  split
  · split
    · exact At.fresh_waiting hone ..
    · exact (late_proceed ..).fresh
  · exact (late_proceed ..).fresh

variable {c}

theorem fresh_goes {cfg : A2aConfig} {b : Board} {id : String} (hone : ∀ target, D [target])
    (hteam : ∀ teamId (p : MemberRow → Bool), (b.tables.teams.teamMembers teamId).filter p ≠ [] →
      D (((b.tables.teams.teamMembers teamId).filter p).map MemberRow.sessionId))
    (h : c.at_.Fresh D) : (c.goes cfg b id).2.at_.Fresh D := by
  cases hat : c.at_ with simp only [goes, hat]
  | checking k =>
    split
    · trivial
    · trivial
    · exact fresh_checked ..
  | finding | found =>
    split
    · split <;> trivial
    · exact h
  | switched =>
    trivial
  | titling | noting =>
    exact (Mentioning.late_next _ _).fresh
  | copied m token target msg =>
    rw [at_goTo]
    exact (Mentioning.late_outcome ..).fresh
  | rereading =>
    split <;> trivial
  | scoping me =>
    split
    · split
      · trivial
      · exact fresh_permitted _ hone h
    · exact h
  | replying r =>
    split
    · split
      · trivial
      · exact At.fresh_waiting hone ..
    · trivial
  | joining =>
    split
    · trivial
    · exact fresh_joined ..
  | resolving me who =>
    split
    · trivial
    · exact fresh_resolved _ hone ..
  | gathering me =>
    split
    case isTrue => trivial
    case isFalse hsome => exact hteam _ _ hsome
  | switching me target recipients rest off =>
    rw [hat] at h
    cases rest with
    | nil =>
      simp only [goes, hat]
      exact fresh_addressed _ h (hat ▸ h)
    | cons r rest =>
      simp only [goes, hat]
      exact h
  | inserting me assignee =>
    split
    · split
      · trivial
      · split
        · split
          · exact At.fresh_waiting hone ..
          · exact (late_proceed ..).fresh
        · exact (late_proceed ..).fresh
    · exact h
  | reading me =>
    split
    · split
      · trivial
      · exact fresh_found ..
    · exact h
  | reassigning =>
    split
    · trivial
    · exact fresh_reviewed ..
  | writing me task status assignee =>
    split
    · trivial
    · exact h
  | naming me task updated status assignee =>
    exact fresh_named _ hone ..
  | reporting me updated =>
    split
    · trivial
    · exact At.fresh_waiting hone ..
  | delivering mail rest done after =>
    cases rest with
    | nil =>
      simp only [goes, hat]
      exact (late_delivered ..).fresh
    | cons msg rest =>
      simp only [goes, hat]
      trivial
  | targeting tokens k =>
    split
    · trivial
    · exact (late_targeted ..).fresh
  | copying m token target =>
    split
    · rw [at_goTo]
      exact (Mentioning.late_outcome ..).fresh
    · trivial
  | locked | answered =>
    exact hat ▸ h

/-! ### The lock of a call -/

/-- Whether the call holds `send_lock`. -/
def holds (c : Call) : Bool :=
  match c.at_ with
  | .locked _ k _ => k.holds
  | _ => false

theorem holds_of_locked {out : Outgoing} {k : LockedAt}
    (hat : c.at_ = .locked out k after) : c.holds = k.holds := by
  rw [holds, hat]

theorem not_holds_of_fresh (h : c.at_.Fresh D) : c.holds = false := by
  rw [holds]
  split
  case h_1 out k after hat =>
    rw [hat] at h
    rw [h.2]
    rfl
  case h_2 => rfl

/-- A call that does not hold the lock has found nothing about the messages. -/
theorem within_of_not_holds {cfg : A2aConfig} {b b' : Board} (hnot : c.holds = false)
    (h : c.at_.Within cfg b) : c.at_.Within cfg b' := by
  cases hat : c.at_ with
  | locked out k after =>
    rw [hat] at h
    rw [holds_of_locked hat] at hnot
    cases k with
    | waiting => exact ⟨h.1, trivial⟩
    | _ => cases hnot
  | switching => exact (hat ▸ h : At.Within cfg b (.switching ..))
  | _ => trivial

/-- What is known of a call outside the locked part does not depend on the board. -/
theorem fresh_of_within {cfg : A2aConfig} {b : Board}
    (hnot : ∀ out k after, c.at_ ≠ .locked out k after) (h : c.at_.Within cfg b) :
    c.at_.Fresh Batch := by
  cases hat : c.at_ with
  | locked out k after => exact absurd hat (hnot out k after)
  | switching => exact (hat ▸ h : At.Within cfg b (.switching ..))
  | _ => trivial

theorem fresh_enter (D : List String → Prop) (req : Request) : req.enter.at_.Fresh D := by
  rw [Request.enter.eq_def]
  dsimp only
  split
  · split
    · trivial
    · split <;> trivial
  · split <;> trivial
  · trivial

/-- Outside the locked part nothing is stored under the lock. -/
theorem quiet_goes (cfg : A2aConfig) {b : Board} (c : Call) (id : String)
    (hstored : ∀ id ∈ b.limited, id ∈ b.tables.a2a.messages.map fun r ↦ r.message.id) :
    b.Quiet (c.goes cfg b id).1 := by
  rcases goes_board cfg b c id with h | ⟨_, _, _, _, _, -, -, -, h⟩ | ⟨_, _, _, _, _, _, -, h⟩ |
    ⟨m, token, target, a2a, msg, -, hinsert, h⟩ | ⟨text, h⟩
  · rw [h]
    exact .refl b
  · rw [h]
    exact .of_messages rfl rfl le_rfl
  · rw [h]
    exact .of_messages rfl rfl le_rfl
  · rw [h]
    exact .insertMessage hstored hinsert
  · rw [h]
    exact .of_messages rfl rfl le_rfl

/-- Outside the locked part the teams, the switches and the lock stay. -/
theorem frame_goes (cfg : A2aConfig) (b : Board) (c : Call) (id : String) :
    (c.goes cfg b id).1.tables.teams = b.tables.teams ∧
      (c.goes cfg b id).1.tables.globalEnabled = b.tables.globalEnabled ∧
      (c.goes cfg b id).1.tables.sessionEnabled = b.tables.sessionEnabled ∧
      (c.goes cfg b id).1.locked = b.locked := by
  rcases goes_board cfg b c id with h | ⟨_, _, _, _, _, -, -, -, h⟩ | ⟨_, _, _, _, _, _, -, h⟩ |
    ⟨_, _, _, _, _, -, -, h⟩ | ⟨_, h⟩
  all_goals
    rw [h]
    exact ⟨rfl, rfl, rfl, rfl⟩

end Call

namespace LockedAt

variable {cfg : A2aConfig} {b : Board} {k : LockedAt} {out : Outgoing} {d : Except String String}

theorem holds_admitted (out : Outgoing) : (admitted out).holds = true := by
  rw [admitted]
  split <;> rfl

theorem holds_refuse (b : Board) (out : Outgoing) (target reason : String) :
    ∀ k', (refuse b out target reason).2 = .inl k' → k'.holds = true ∧
      (refuse b out target reason).1.locked = b.locked := by
  simp only [refuse]
  split
  · exact fun k' h ↦ absurd h Sum.inr_ne_inl
  · exact fun k' h ↦ ⟨Sum.inl.inj h ▸ rfl, rfl⟩

/-- A call that holds the lock holds it until its locked part is over. -/
theorem holds_step (hk : k.holds = true) :
    ∀ k', (k.step cfg b out d).2 = .inl k' → k'.holds = true ∧
      (k.step cfg b out d).1.locked = b.locked := by
  have hgo : ∀ {k₁ : LockedAt}, k₁.holds = true → ∀ k', (.inl k₁ : LockedAt ⊕ Outcome) = .inl k' →
      k'.holds = true ∧ b.locked = b.locked := fun h k' hk' ↦ ⟨Sum.inl.inj hk' ▸ h, rfl⟩
  cases k with
  | waiting => cases hk
  | counting now =>
    simp only [step]
    split
    · exact fun k' h ↦ absurd h Sum.inr_ne_inl
    · exact hgo (holds_admitted out)
    · split
      · exact holds_refuse b out _ _
      · exact hgo rfl
  | pairing now rest =>
    cases rest with
    | nil => exact hgo (holds_admitted out)
    | cons target rest =>
      simp only [step]
      split
      · exact fun k' h ↦ absurd h Sum.inr_ne_inl
      · split
        · exact holds_refuse b out _ _
        · exact hgo rfl
  | refusing rest message =>
    cases rest with
    | nil => exact fun k' h ↦ absurd h Sum.inr_ne_inl
    | cons target rest =>
      simp only [step]
      split <;> exact fun k' h ↦ ⟨Sum.inl.inj h ▸ rfl, rfl⟩
  | mailing draft =>
    simp only [step]
    split
    · exact fun k' h ↦ absurd h Sum.inr_ne_inl
    · exact fun k' h ↦ ⟨Sum.inl.inj h ▸ rfl, rfl⟩
  | storing mail body rest msgs =>
    cases rest with
    | nil => exact fun k' h ↦ absurd h Sum.inr_ne_inl
    | cons target rest =>
      simp only [step]
      split
      · exact fun k' h ↦ absurd h Sum.inr_ne_inl
      · split
        · exact fun k' h ↦ absurd h Sum.inr_ne_inl
        · exact fun k' h ↦ ⟨Sum.inl.inj h ▸ rfl, rfl⟩

/-- A call that waits takes the lock if it is free, and does nothing otherwise. -/
theorem step_waiting (cfg : A2aConfig) (b : Board) (out : Outgoing) (d : Except String String) :
    (b.locked = true ∧ waiting.step cfg b out d = (b, .inl waiting)) ∨
      (b.locked = false ∧
        waiting.step cfg b out d = ({ b with locked := true }, .inl (counting b.clock))) := by
  cases h : b.locked with
  | true => exact .inl ⟨rfl, by simp only [step, h]; rfl⟩
  | false => exact .inr ⟨rfl, by simp only [step, h]; rfl⟩

end LockedAt

namespace Sending

variable {cfg : A2aConfig}

/-- A call that does not hold the lock takes it only where it is free, and never gives it back. -/
theorem lock_step {b : Board} {c : Call} {d : Except String String} (hnot : c.holds = false) :
    ((c.step cfg b d).2.holds = true → b.locked = false ∧ (c.step cfg b d).1.locked = true) ∧
      (b.locked = true → (c.step cfg b d).1.locked = true) := by
  have hstep : (c.step cfg b d).2.holds = (c.act cfg b d).2.holds ∧
      (c.step cfg b d).1.locked = (c.act cfg b d).1.locked := ⟨rfl, rfl⟩
  rw [hstep.1, hstep.2]
  have hfresh : ∀ {c' : Call}, c'.at_.Fresh (fun _ ↦ True) → ¬ c'.holds = true := fun h ↦ by
    rw [Call.not_holds_of_fresh h]
    exact Bool.false_ne_true
  rcases Call.act_cases cfg b c d with ⟨out, k, after, hat, hcases⟩ |
    ⟨hfree, ⟨id, -, h⟩ | ⟨why, -, h⟩⟩
  · rw [Call.holds_of_locked hat] at hnot
    obtain rfl : k = .waiting := by
      cases k with
      | waiting => rfl
      | _ => cases hnot
    rcases LockedAt.step_waiting cfg b out d with ⟨hheld, hstep⟩ | ⟨hheld, hstep⟩ <;>
      rw [hstep] at hcases
    · rcases hcases with ⟨k', hk', h⟩ | ⟨_, hno, -⟩
      · obtain rfl := Sum.inl.inj hk'
        rw [h]
        exact ⟨fun hh ↦ (by cases hh), fun hb ↦ hb⟩
      · cases hno
    · rcases hcases with ⟨k', hk', h⟩ | ⟨_, hno, -⟩
      · rw [h]
        exact ⟨fun _ ↦ ⟨hheld, rfl⟩, fun _ ↦ rfl⟩
      · cases hno
  · rw [h, (Call.frame_goes cfg b c id).2.2.2]
    refine ⟨fun hh ↦ absurd hh (hfresh ?_), fun hb ↦ hb⟩
    refine Call.fresh_goes (fun _ ↦ trivial) (fun _ _ _ ↦ trivial) ?_
    cases hat : c.at_ with
    | locked out k after => exact absurd hat (hfree out k after)
    | _ => trivial
  · rw [h]
    exact ⟨fun hh ↦ absurd hh (hfresh (c.late_fails why).fresh), fun hb ↦ hb⟩

/-- `send_lock` is a lock. -/
theorem guards (cfg : A2aConfig) :
    Calls.Guards (program cfg) (fun b ↦ b.locked = true) (fun c ↦ c.holds = true) where
  enter req hh := by
    have := Call.not_holds_of_fresh (Call.fresh_enter (fun _ ↦ True) req)
    exact Bool.false_ne_true (this.symm.trans hh)
  env b e hb := by
    cases e with
    | createTeam | addTeamMember | firstPrompt =>
      simp only [program, Board.env]
      split <;> exact hb
    | _ => exact hb
  take b c d hnot c' hc' hh hb := by
    obtain rfl := Option.some.inj hc'
    have := (lock_step (Bool.not_eq_true _ ▸ hnot)).1 hh
    exact Bool.false_ne_true (this.1.symm.trans hb)
  taken b c d hheld c' hc' hh := by
    obtain rfl := Option.some.inj hc'
    cases hc : c.holds with
    | false => exact ((lock_step hc).1 hh).2
    | true =>
      show (c.act cfg b d).1.locked = true
      replace hh : (c.act cfg b d).2.holds = true := hh
      rcases Call.act_cases cfg b c d with
        ⟨out, k, after, hat, ⟨k', hk', h⟩ | ⟨result, -, h⟩⟩ | ⟨hfree, -⟩
      · rw [h]
        exact ((LockedAt.holds_step ((Call.holds_of_locked hat).symm.trans hc)) k' hk').2.trans
          (hheld hc)
      · rw [h, Call.not_holds_of_fresh
          ((c.late_unlocked after result).fresh : At.Fresh (fun _ ↦ True) _)] at hh
        cases hh
      · rw [Call.holds] at hc
        split at hc
        case h_1 out k after hat => exact absurd hat (hfree out k after)
        case h_2 => cases hc
  keep b c d hnot hb := (lock_step (Bool.not_eq_true _ ▸ hnot)).2 hb

/-- A session stays in one team. -/
theorem once_env {b : Board} (h : (b.tables.teams.members.map MemberRow.sessionId).Nodup)
    (e : BoardAct) : ((b.env e).tables.teams.members.map MemberRow.sessionId).Nodup := by
  cases e with simp only [Board.env]
  | createTeam id leader project =>
    split
    · exact h
    case h_2 teams team hteam =>
      obtain ⟨-, -, rfl, hnew⟩ := TeamStore.createTeam_eq_some hteam
      exact TeamStore.nodup_sessionIds_concat h hnew
  | addTeamMember teamId sessionId name =>
    split
    · exact h
    case h_2 teams m hadd =>
      obtain ⟨rfl, rfl, hnew⟩ := TeamStore.addTeamMember_eq_some hadd
      exact TeamStore.nodup_sessionIds_concat h hnew
  | endTeamMember sessionId =>
    exact (TeamStore.sessionIds_endTeamMember b.tables.teams b.clock sessionId).symm ▸ h
  | firstPrompt =>
    split <;> exact h
  | _ => exact h

/-- Everything else that happens stores nothing under the lock. -/
theorem quiet_env {b : Board} (h : b.Kept cfg) (e : BoardAct) : b.Quiet (b.env e) := by
  cases e with
  | tick ms => exact .of_messages rfl rfl (Nat.le_add_right _ _)
  | createTeam | addTeamMember =>
    simp only [Board.env]
    split
    · exact .refl b
    · exact .of_messages rfl rfl le_rfl
  | firstPrompt id leader sessionId text =>
    simp only [Board.env]
    split
    · exact .refl b
    case h_2 a2a msg hinsert => exact .insertMessage h.stored hinsert
  | markDelivered ids => exact .markDelivered b ids
  | _ => exact .of_messages rfl rfl le_rfl

/-- A batch to the members of a team that a test picks. -/
theorem batch_teamMembers {b : Board} (h : b.Kept cfg) (teamId : String) (p : MemberRow → Bool)
    (hsome : (b.tables.teams.teamMembers teamId).filter p ≠ []) :
    Batch (((b.tables.teams.teamMembers teamId).filter p).map MemberRow.sessionId) :=
  ⟨by simpa using hsome,
    (TeamStore.nodup_teamMembers h.once teamId).sublist (List.filter_sublist.map _)⟩

/-- A single recipient is a batch. -/
theorem batch_singleton (target : String) : Batch [target] :=
  ⟨List.cons_ne_nil _ _, List.nodup_singleton _⟩

/-- **One step of a call** keeps every window within the limits and what is known of the call; of
the other calls too, unless it holds the lock. -/
theorem within_step {b : Board} {c : Call} (d : Except String String) (hkept : b.Kept cfg)
    (hc : c.at_.Within cfg b) :
    (c.step cfg b d).1.Kept cfg ∧ (c.step cfg b d).2.at_.Within cfg (c.step cfg b d).1 ∧
      (c.holds = true ∨ b.Quiet (c.step cfg b d).1) := by
  show (c.act cfg b d).1.Kept cfg ∧ (c.act cfg b d).2.at_.Within cfg (c.act cfg b d).1 ∧
    (c.holds = true ∨ b.Quiet (c.act cfg b d).1)
  rcases Call.act_cases cfg b c d with ⟨out, k, after, hat, hcases⟩ |
    ⟨hfree, ⟨id, -, h⟩ | ⟨why, -, h⟩⟩
  · obtain ⟨⟨hsome, hnodup⟩, hk⟩ : Batch out.tos ∧ k.Within cfg b out := by
      rw [hat] at hc
      exact hc
    obtain ⟨hkept', hnext⟩ := LockedAt.within_step (d := d) hkept hk hnodup hsome
    have hquiet : c.holds = true ∨ b.Quiet (k.step cfg b out d).1 := by
      rw [Call.holds_of_locked hat]
      cases k with
      | waiting =>
        rcases LockedAt.step_waiting cfg b out d with ⟨-, hstep⟩ | ⟨-, hstep⟩ <;> rw [hstep]
        · exact .inr (.refl b)
        · exact .inr (.of_messages rfl rfl le_rfl)
      | _ => exact .inl rfl
    rcases hcases with ⟨k', hk', h⟩ | ⟨result, -, h⟩ <;> rw [h]
    · exact ⟨hkept', ⟨⟨hsome, hnodup⟩, hnext k' hk'⟩, hquiet⟩
    · exact ⟨hkept', (c.late_unlocked after result).fresh.within cfg _, hquiet⟩
  · rw [h]
    have hquiet := Call.quiet_goes cfg c id hkept.stored
    have hteams := (Call.frame_goes cfg b c id).1
    refine ⟨hkept.quiet hquiet (hteams ▸ hkept.once), At.Fresh.within ?_ cfg _, .inr hquiet⟩
    exact Call.fresh_goes batch_singleton (batch_teamMembers hkept)
      (Call.fresh_of_within hfree hc)
  · rw [h]
    exact ⟨hkept, (c.late_fails why).fresh.within cfg _, .inr (.refl b)⟩

variable {history : List StoreOp} {a2a : A2aStore} {globalEnabled : Option Bool}
  {sessionEnabled : String → Bool} {clock : ℕ}

theorem kept_start (cfg : A2aConfig) :
    (start history a2a globalEnabled sessionEnabled clock).Kept cfg := by
  have hzero : ∀ q, (start history a2a globalEnabled sessionEnabled clock).count q = 0 := fun q ↦ by
    rw [Board.count, List.countP_eq_zero]
    exact fun r _ hr ↦ nomatch hr
  exact ⟨List.nodup_nil, fun id hid ↦ (by cases hid), fun x s ↦ (hzero _).symm ▸ Nat.zero_le _,
    fun x y s ↦ (hzero _).symm ▸ Nat.zero_le _⟩

/-- **Every window is within the limits**, in every run. -/
theorem allKept_of_reachable {w : Calls Board Call} (h : (Calls.system (program cfg)
      (start history a2a globalEnabled sessionEnabled clock)).Reachable w) :
    w.shared.Kept cfg ∧ ∀ i c, w.call i = some c → c.at_.Within cfg w.shared := by
  refine Calls.invariant_of_run (G := fun _ _ ↦ True) (I := Board.Kept cfg)
    (J := fun b c ↦ c.at_.Within cfg b) (kept_start cfg) (fun b req _ ↦ (Call.fresh_enter Batch req).within cfg b) ?_ ?_
    (h.restrict fun _ _ ↦ trivial)
  · intro w e _ hkept hcalls
    have hquiet := quiet_env hkept e
    exact ⟨hkept.quiet hquiet (once_env hkept.once e), fun j q hq ↦ (hcalls j q hq).quiet hquiet⟩
  · intro w i d c hw _ hc hkept hcalls
    obtain ⟨hkept', hself, hquiet⟩ := within_step d hkept (hcalls i c hc)
    refine ⟨hkept', fun c' hc' ↦ Option.some.inj hc' ▸ hself, fun j q hj hq ↦ ?_⟩
    rcases hquiet with hholds | hquiet
    · -- No other call holds the lock, so no other has found anything about the messages.
      have hnot : q.holds = false := by
        refine Bool.eq_false_iff.2 fun hh ↦ hj ?_
        exact ((guards cfg).exclusive hw.of_restrict).2 j i q c hq hc hh hholds
      exact Call.within_of_not_holds hnot (hcalls j q hq)
    · exact (hcalls j q hq).quiet hquiet

end Sending

/-! ### A refused mail -/

/-- The two tables a mail goes to are as they were. -/
def Board.SameMail (b b' : Board) : Prop := b'.mail = b.mail ∧ b'.tables.a2a = b.tables.a2a

namespace LockedAt

variable {cfg : A2aConfig} {b : Board} {k : LockedAt} {out : Outgoing} {d : Except String String}

/-- Whether the messages are being stored. -/
def isStoring : LockedAt → Bool
  | storing .. => true
  | _ => false

theorem refuse_sameMail (b : Board) (out : Outgoing) (target reason : String) :
    b.SameMail (refuse b out target reason).1 := by
  simp only [refuse]
  split <;> exact ⟨rfl, rfl⟩

/-- Nothing is stored before the checks let the messages through. -/
theorem sameMail_step (cfg : A2aConfig) (b : Board) (k : LockedAt) (out : Outgoing)
    (d : Except String String) :
    (∀ k', (k.step cfg b out d).2 = .inl k' → k'.isStoring = true ∨
      k.isStoring = false ∧ b.SameMail (k.step cfg b out d).1) ∧
    ∀ e, (k.step cfg b out d).2 = .inr (.error e) → e.isRefusal = true →
      k.isStoring = false ∧ b.SameMail (k.step cfg b out d).1 := by
  have hrefuse : ∀ target reason,
      (∀ k', (refuse b out target reason).2 = .inl k' → k'.isStoring = true ∨
        false = false ∧ b.SameMail (refuse b out target reason).1) ∧
      ∀ e, (refuse b out target reason).2 = .inr (.error e) → e.isRefusal = true →
        false = false ∧ b.SameMail (refuse b out target reason).1 := fun target reason ↦
    ⟨fun _ _ ↦ .inr ⟨rfl, refuse_sameMail b out target reason⟩,
      fun _ _ _ ↦ ⟨rfl, refuse_sameMail b out target reason⟩⟩
  -- A failed store call is no refusal.
  have hother : ∀ (b' : Board) (why : String) (P : Prop),
      (∀ k', (.inr (.error (.other why)) : LockedAt ⊕ Outcome) = .inl k' →
        k'.isStoring = true ∨ P ∧ b.SameMail b') ∧
      ∀ e, (.inr (.error (.other why)) : LockedAt ⊕ Outcome) = .inr (.error e) →
        e.isRefusal = true → P ∧ b.SameMail b' := by
    refine fun b' why P ↦ ⟨fun k' h ↦ (by cases h), fun e h href ↦ ?_⟩
    obtain rfl := Except.error.inj (Sum.inr.inj h)
    cases href
  have hgo : ∀ {b' : Board} {k₁ : LockedAt}, b.SameMail b' →
      (∀ k', (.inl k₁ : LockedAt ⊕ Outcome) = .inl k' → k'.isStoring = true ∨
        false = false ∧ b.SameMail b') ∧
      ∀ e, (.inl k₁ : LockedAt ⊕ Outcome) = .inr (.error e) → e.isRefusal = true →
        false = false ∧ b.SameMail b' :=
    fun h ↦ ⟨fun _ _ ↦ .inr ⟨rfl, h⟩, fun e he ↦ (by cases he)⟩
  cases k with
  | waiting =>
    simp only [step]
    split <;> exact hgo ⟨rfl, rfl⟩
  | counting now =>
    simp only [step]
    split
    · exact hother _ _ _
    · exact hgo ⟨rfl, rfl⟩
    · split
      · exact hrefuse _ _
      · exact hgo ⟨rfl, rfl⟩
  | pairing now rest =>
    cases rest with
    | nil => exact hgo ⟨rfl, rfl⟩
    | cons target rest =>
      simp only [step]
      split
      · exact hother _ _ _
      · split
        · exact hrefuse _ _
        · exact hgo ⟨rfl, rfl⟩
  | refusing rest message =>
    cases rest with
    | nil => exact ⟨fun k' h ↦ (by cases h), fun e h _ ↦ ⟨rfl, rfl, rfl⟩⟩
    | cons target rest =>
      simp only [step]
      split <;> exact hgo ⟨rfl, rfl⟩
  | mailing draft =>
    simp only [step]
    split
    · exact hother _ _ _
    · exact ⟨fun k' h ↦ .inl (Sum.inl.inj h ▸ rfl), fun e h ↦ (by cases h)⟩
  | storing mail body rest msgs =>
    cases rest with
    | nil => exact ⟨fun k' h ↦ (by cases h), fun e h ↦ (by cases h)⟩
    | cons target rest =>
      simp only [step]
      split
      · exact hother _ _ _
      · split
        · exact hother _ _ _
        · exact ⟨fun k' h ↦ .inl (Sum.inl.inj h ▸ rfl), fun e h ↦ (by cases h)⟩

end LockedAt

namespace Call

/-- The call has stored no mail and no message. -/
def Unsent (c : Call) : Prop := c.mails = [] ∧ c.messages = []

end Call

/-- The phases of a `send_mail`. -/
def At.ofMail : At → Bool
  | checking _ | joining | resolving .. | gathering _ | switching .. | locked _ _ (.mailed ..)
  | delivering _ _ _ (.mailed ..) | answered _ => true
  | _ => false

/-- Whether something of a `send_mail` may be stored: it was let through, and not refused. -/
def At.mayStore : At → Bool
  | locked _ k _ => k.isStoring
  | delivering .. => true
  | answered (.refused e) => !e.isRefusal
  | answered _ => true
  | _ => false

namespace Call

/-- What a `send_mail` has stored: nothing before it is let through, and nothing if it is refused.
-/
def MailKept (c : Call) : Prop :=
  ∀ caller target text, c.req = .sendMail caller target text →
    c.at_.ofMail = true ∧ (c.at_.mayStore = true ∨ c.Unsent)

variable {cfg : A2aConfig} {b : Board} {c : Call} {d : Except String String}

/-- A step that leaves both tables alone stores nothing. -/
theorem unsent_step (h : b.SameMail (c.act cfg b d).1) (hc : c.Unsent) :
    (c.step cfg b d).2.Unsent := by
  refine ⟨?_, ?_⟩
  · show c.mails ++ ((c.act cfg b d).1.mail.mails.drop b.mail.mails.length).map Mail.id = []
    rw [h.1, hc.1]
    simp
  · show c.messages ++ (((c.act cfg b d).1.tables.a2a.messages.drop
      b.tables.a2a.messages.length).map fun r ↦ r.message.id) = []
    rw [h.2, hc.2]
    simp

/-- The next phase of a `send_mail`, outside the locked part. -/
theorem ofMail_goes {caller text id : String} {target : Option String}
    (hreq : c.req = .sendMail caller target text) (hof : c.at_.ofMail = true)
    (hfree : ∀ out k after, c.at_ ≠ .locked out k after) :
    (c.goes cfg b id).2.at_.ofMail = true ∧ ((c.goes cfg b id).2.at_.mayStore = true ∨
      c.at_.mayStore = false ∧ b.SameMail (c.goes cfg b id).1) := by
  have hsame : b.SameMail b := ⟨rfl, rfl⟩
  cases hat : c.at_ with simp only [goes, hat]
  | checking k =>
    split
    · exact ⟨rfl, .inr ⟨rfl, hsame⟩⟩
    · exact ⟨rfl, .inr ⟨rfl, hsame⟩⟩
    · simp only [checked, hreq]
      exact ⟨rfl, .inr ⟨rfl, hsame⟩⟩
  | joining =>
    split
    · exact ⟨rfl, .inr ⟨rfl, hsame⟩⟩
    · simp only [joined, hreq]
      split
      · exact ⟨rfl, .inr ⟨rfl, hsame⟩⟩
      · split <;> exact ⟨rfl, .inr ⟨rfl, hsame⟩⟩
  | resolving me who =>
    split
    · exact ⟨rfl, .inr ⟨rfl, hsame⟩⟩
    · simp only [resolved, hreq]
      split <;> exact ⟨rfl, .inr ⟨rfl, hsame⟩⟩
  | gathering me =>
    split <;> exact ⟨rfl, .inr ⟨rfl, hsame⟩⟩
  | switching me target recipients rest off =>
    cases rest with
    | nil =>
      simp only [goes, hat, addressed, hreq]
      split <;> exact ⟨rfl, .inr ⟨rfl, hsame⟩⟩
    | cons r rest =>
      simp only [goes, hat]
      exact ⟨rfl, .inr ⟨rfl, hsame⟩⟩
  | delivering mail rest done after =>
    rw [hat] at hof
    cases after with
    | mailed me target =>
      cases rest <;> (simp only [goes, hat]; exact ⟨rfl, .inl rfl⟩)
    | _ => cases hof
  | answered a =>
    refine ⟨rfl, ?_⟩
    cases hmay : (At.answered a).mayStore with
    | true => exact .inl rfl
    | false => exact .inr ⟨rfl, hsame⟩
  | locked out k after => exact absurd hat (hfree out k after)
  | _ => rw [hat] at hof; cases hof

/-- A failed store call of a `send_mail` is no refusal. -/
theorem ofMail_fails (why : String) (hof : c.at_.ofMail = true) :
    (c.fails why).at_.ofMail = true ∧ ((c.fails why).at_.mayStore = true ∨
      c.at_.mayStore = false) := by
  cases hat : c.at_ with
  | delivering mail rest done after =>
    rw [hat] at hof
    cases after with
    | mailed =>
      simp only [fails, hat]
      exact ⟨rfl, .inl rfl⟩
    | _ => cases hof
  | answered a =>
    simp only [fails, hat]
    refine ⟨rfl, ?_⟩
    cases (At.answered a).mayStore with
    | true => exact .inl rfl
    | false => exact .inr rfl
  | checking | joining | resolving | gathering | switching | locked =>
    simp only [fails, hat]
    exact ⟨rfl, .inl rfl⟩
  | _ => rw [hat] at hof; cases hof

theorem mailKept_step (h : c.MailKept) : (c.step cfg b d).2.MailKept := by
  intro caller target text hreq
  have hreq' : c.req = .sendMail caller target text := (c.req_step cfg b d).symm.trans hreq
  obtain ⟨hof, hkept⟩ := h _ _ _ hreq'
  suffices hnext : (c.act cfg b d).2.at_.ofMail = true ∧ ((c.act cfg b d).2.at_.mayStore = true ∨
      c.at_.mayStore = false ∧ b.SameMail (c.act cfg b d).1) by
    refine ⟨hnext.1, hnext.2.imp id fun ⟨hnot, hsame⟩ ↦ ?_⟩
    exact unsent_step hsame (hkept.resolve_left (by rw [hnot]; exact Bool.false_ne_true))
  rcases act_cases cfg b c d with ⟨out, k, after, hat, hcases⟩ |
    ⟨hfree, ⟨id, -, h⟩ | ⟨why, -, h⟩⟩
  · rw [hat] at hof ⊢
    obtain ⟨hgo, hover⟩ := LockedAt.sameMail_step cfg b k out d
    cases after with
    | mailed me target' =>
      rcases hcases with ⟨k', hk', h⟩ | ⟨result, hresult, h⟩ <;> rw [h]
      · exact ⟨rfl, hgo k' hk'⟩
      · cases result with
        | ok r => exact ⟨rfl, .inl rfl⟩
        | error e =>
          refine ⟨rfl, ?_⟩
          cases href : e.isRefusal with
          | true => exact .inr (hover e hresult href)
          | false => exact .inl (by show (!e.isRefusal) = true; rw [href]; rfl)
    | _ => cases hof
  · rw [h]
    exact ofMail_goes hreq' hof hfree
  · rw [h]
    obtain ⟨hof', hmay⟩ := ofMail_fails why hof
    exact ⟨hof', hmay.imp_right fun hnot ↦ ⟨hnot, rfl, rfl⟩⟩

theorem mailKept_enter (req : Request) : req.enter.MailKept := by
  intro caller target text hreq
  have hsame : req.enter.req = req := by
    rw [Request.enter.eq_def]
    dsimp only
    split
    · split
      · rfl
      · split <;> rfl
    · split <;> rfl
    · rfl
  obtain rfl : req = .sendMail caller target text := hsame.symm.trans hreq
  exact ⟨rfl, .inr ⟨rfl, rfl⟩⟩

end Call

/-! ### Loop protection -/

namespace Sending

/-- What loop protection comes to, in a state of a run. -/
structure LoopProtected (cfg : A2aConfig) (w : Calls Board Call) : Prop where
  /-- In every window a session stores at most `per_session` messages under the lock. -/
  session : ∀ x start,
    w.shared.count (fun m ↦ m.fromSession == x && Board.inWindow start cfg.window m) ≤ cfg.perSession
  /-- In every window two sessions exchange at most `per_pair` of them, in both directions. -/
  pair : ∀ x y start,
    w.shared.count (fun m ↦ m.between x y && Board.inWindow start cfg.window m) ≤ cfg.perPair
  /-- A batch gets past the first check only if all messages of the sender leave room for it, those
  stored without the lock too. -/
  counted : ∀ i c out now after rest d, w.call i = some c → c.at_ = .locked out (.counting now) after →
    (c.step cfg w.shared d).2.at_ = .locked out (.pairing now rest) after →
      w.shared.tables.a2a.sentSince out.sender now cfg.window + out.tos.length ≤ cfg.perSession
  /-- The same of each recipient and the second check. -/
  countedPair : ∀ i c out now after target rest d, w.call i = some c →
    c.at_ = .locked out (.pairing now (target :: rest)) after →
    (c.step cfg w.shared d).2.at_ = .locked out (.pairing now rest) after →
      w.shared.tables.a2a.pairSince out.sender target now cfg.window < cfg.perPair
  /-- A mention is stored whatever was sent before. -/
  mention : ∀ i c m token target id, w.call i = some c → c.at_ = .copying m token target →
    (∀ r ∈ w.shared.tables.a2a.messages, r.message.id ≠ id) →
      ∃ r : MessageRow, r.message.fromSession = c.req.caller ∧ r.message.toSession = target.id ∧
        (c.step cfg w.shared (.ok id)).1.tables.a2a.messages = w.shared.tables.a2a.messages ++ [r]
  /-- So is a first prompt. -/
  prompt : ∀ id leader sessionId text, (∀ r ∈ w.shared.tables.a2a.messages, r.message.id ≠ id) →
    ∃ r : MessageRow, r.message.fromSession = leader ∧ r.message.toSession = sessionId ∧
      (w.shared.env (.firstPrompt id leader sessionId text)).tables.a2a.messages =
        w.shared.tables.a2a.messages ++ [r]
  /-- A refused mail stored nothing. -/
  refused : ∀ i c caller target text e, w.call i = some c → c.req = .sendMail caller target text →
    c.at_ = .answered (.refused e) → e.isRefusal = true → c.mails = [] ∧ c.messages = []

variable {cfg : A2aConfig} {b : Board} {c : Call}

/-- A message with a new id is stored. -/
theorem insertMessage_of_fresh {s : A2aStore} {id : String}
    (h : ∀ r ∈ s.messages, r.message.id ≠ id) (now : ℕ) (from_ target : String)
    (replyTo : Option String) (text : String) :
    s.insertMessage id now from_ target replyTo text =
      some (⟨s.messages ++ [⟨s.messages.length + 1, ⟨id, from_, target, replyTo, text, now, none⟩⟩]⟩,
        ⟨id, from_, target, replyTo, text, now, none⟩) := by
  rw [A2aStore.insertMessage, if_neg]
  rw [List.contains_iff_mem, List.mem_map]
  rintro ⟨r, hr, hid⟩
  exact h r hr hid

/-- A call that goes on in the locked part made one step of it. -/
theorem locked_step {out : Outgoing} {k k' : LockedAt} {d : Except String String}
    (hat : c.at_ = .locked out k after) (hholds : k'.holds = true)
    (hnext : (c.step cfg b d).2.at_ = .locked out k' after) : (k.step cfg b out d).2 = .inl k' := by
  replace hnext : (c.act cfg b d).2.at_ = .locked out k' after := hnext
  rcases Call.act_cases cfg b c d with ⟨out₁, k₁, after₁, hat₁, hcases⟩ | ⟨hfree, -⟩
  · obtain ⟨rfl, rfl, rfl⟩ := At.locked.inj (hat.symm.trans hat₁)
    rcases hcases with ⟨k'', hk'', h⟩ | ⟨result, -, h⟩
    · rw [h] at hnext
      exact (At.locked.inj hnext).2.1 ▸ hk''
    · rw [h] at hnext
      have hwaits : At.Fresh (fun _ ↦ True) (.locked out k' after) :=
        hnext ▸ (c.late_unlocked after result).fresh
      rw [hwaits.2] at hholds
      cases hholds
  · exact absurd hat (hfree out k after)

/-- The first check counts every message of the sender. -/
theorem sentSince_of_counting {out : Outgoing} {now : ℕ} {rest : List String}
    {d : Except String String} (hat : c.at_ = .locked out (.counting now) after)
    (hnext : (c.step cfg b d).2.at_ = .locked out (.pairing now rest) after) :
    b.tables.a2a.sentSince out.sender now cfg.window + out.tos.length ≤ cfg.perSession := by
  have h := locked_step hat rfl hnext
  simp only [LockedAt.step] at h
  split at h
  case h_1 => cases h
  case h_2 =>
    rw [LockedAt.admitted] at h
    split at h <;> cases h
  case h_3 =>
    split at h
    case isTrue =>
      simp only [LockedAt.refuse] at h
      split at h <;> cases h
    case isFalse hle => exact not_lt.1 hle

/-- The second check counts every message of the pair. -/
theorem pairSince_of_pairing {out : Outgoing} {now : ℕ} {target : String} {rest : List String}
    {d : Except String String} (hat : c.at_ = .locked out (.pairing now (target :: rest)) after)
    (hnext : (c.step cfg b d).2.at_ = .locked out (.pairing now rest) after) :
    b.tables.a2a.pairSince out.sender target now cfg.window < cfg.perPair := by
  have h := locked_step hat rfl hnext
  simp only [LockedAt.step] at h
  split at h
  case h_1 => cases h
  case h_2 =>
    split at h
    case isTrue =>
      simp only [LockedAt.refuse] at h
      split at h <;> cases h
    case isFalse hlt => exact not_le.1 hlt

end Sending

end Ember.Server
