import Mathlib.Data.List.Sort
import Mathlib.Data.Prod.Lex

/-!
# The durable message queue of agent-to-agent messaging

The `a2a_messages` table. A row is a message with its rowid; rows are never deleted, so the next
rowid is one more than the number of rows. `MessageRow.undelivered` is a row as it was inserted:
marking a message delivered changes nothing else of it, so a row read for delivery is recognised
later whatever became of it.
-/

namespace Ember.Server

/-- `A2aMessage`. -/
structure A2aMessage where
  id : String
  fromSession : String
  toSession : String
  replyTo : Option String
  text : String
  createdAt : ℕ
  deliveredAt : Option ℕ
  deriving DecidableEq, Repr

/-- Whether the message is one of `a` and `b`, in either direction. -/
def A2aMessage.between (a b : String) (m : A2aMessage) : Bool :=
  (m.fromSession == a && m.toSession == b) || (m.fromSession == b && m.toSession == a)

/-- Whether the message is of the `window` before `now`, or later. -/
def A2aMessage.since (now window : ℕ) (m : A2aMessage) : Bool := decide (now ≤ m.createdAt + window)

/-- A row of `a2a_messages`. -/
structure MessageRow where
  rowid : ℕ
  message : A2aMessage
  deriving DecidableEq, Repr

namespace MessageRow

/-- What `ORDER BY created_at, rowid` compares. -/
def key (r : MessageRow) : ℕ ×ₗ ℕ := toLex (r.message.createdAt, r.rowid)

/-- The row as it was inserted. -/
def undelivered (r : MessageRow) : MessageRow :=
  { r with message := { r.message with deliveredAt := none } }

/-- The row once it is marked. -/
def deliver (now : ℕ) (r : MessageRow) : MessageRow :=
  { r with message := { r.message with deliveredAt := some now } }

/-- Whether the row is marked delivered. -/
def isDelivered (r : MessageRow) : Bool := r.message.deliveredAt.isSome

theorem undelivered_of_not_isDelivered {r : MessageRow} (h : r.isDelivered = false) :
    r.undelivered = r := by
  obtain ⟨rowid, ⟨id, fromSession, toSession, replyTo, text, createdAt, deliveredAt⟩⟩ := r
  cases deliveredAt with
  | none => rfl
  | some at_ => exact absurd h Bool.false_ne_true.symm

@[simp] theorem undelivered_deliver (now : ℕ) (r : MessageRow) :
    (r.deliver now).undelivered = r.undelivered := rfl

end MessageRow

/-- `A2aStore`: the message rows, in the order they were inserted. -/
structure A2aStore where
  messages : List MessageRow

variable {other : String}

namespace A2aStore

/-- `A2aStore::insert_message`, with the fresh id and the time it draws. An id that is taken
violates the primary key, and nothing is stored. -/
def insertMessage (s : A2aStore) (id : String) (now : ℕ) (from_ target : String)
    (replyTo : Option String) (text : String) : Option (A2aStore × A2aMessage) :=
  if (s.messages.map fun r ↦ r.message.id).contains id then none
  else
    let msg : A2aMessage := ⟨id, from_, target, replyTo, text, now, none⟩
    some (⟨s.messages ++ [⟨s.messages.length + 1, msg⟩]⟩, msg)

/-- `A2aStore::pending_for`: undelivered messages to `target`, oldest first. -/
def pendingFor (s : A2aStore) (target : String) : List MessageRow :=
  (s.messages.filter fun r ↦ r.message.toSession == target && !r.isDelivered).insertionSort
    fun a b ↦ a.key ≤ b.key

/-- `A2aStore::mark_delivered`. -/
def markDelivered (s : A2aStore) (ids : List String) (now : ℕ) : A2aStore :=
  ⟨s.messages.map fun r ↦ if ids.contains r.message.id then r.deliver now else r⟩

/-- `A2aStore::message`. -/
def message (s : A2aStore) (id : String) : Option A2aMessage :=
  (s.messages.find? (·.message.id == id)).map (·.message)

/-- `A2aStore::sent_since`: messages sent by `from_` in the `window` before `now`. -/
def sentSince (s : A2aStore) (from_ : String) (now window : ℕ) : ℕ :=
  s.messages.countP fun r ↦ r.message.fromSession == from_ && r.message.since now window

/-- `A2aStore::pair_since`: messages between `a` and `b`, in either direction. -/
def pairSince (s : A2aStore) (a b : String) (now window : ℕ) : ℕ :=
  s.messages.countP fun r ↦ r.message.between a b && r.message.since now window

/-- The primary key and the rowids do their work. -/
structure Valid (s : A2aStore) : Prop where
  ids : (s.messages.map fun r ↦ r.message.id).Nodup
  rowids : ∀ (i : ℕ) r, s.messages[i]? = some r → r.rowid = i + 1

/-- The rows marked delivered to a target, as they were inserted. -/
def delivered (s : A2aStore) (target : String) : List MessageRow :=
  (s.messages.filter fun r ↦ r.message.toSession == target && r.isDelivered).map .undelivered

/-- The rows to a target that are not marked. -/
def waiting (s : A2aStore) (target : String) : List MessageRow :=
  s.messages.filter fun r ↦ r.message.toSession == target && !r.isDelivered

variable {s : A2aStore} {target : String} {r : MessageRow}

theorem valid_empty : Valid ⟨[]⟩ := ⟨List.nodup_nil, by simp⟩

theorem mem_waiting : r ∈ s.waiting target ↔
    r ∈ s.messages ∧ r.message.toSession = target ∧ r.isDelivered = false := by
  simp [waiting]

theorem mem_delivered : r ∈ s.delivered target ↔
    ∃ r' ∈ s.messages, r'.message.toSession = target ∧ r'.isDelivered = true ∧ r'.undelivered = r := by
  simp [delivered, and_assoc]

@[simp] theorem mem_pendingFor : r ∈ s.pendingFor target ↔ r ∈ s.waiting target :=
  List.mem_insertionSort _

theorem Valid.eq_of_rowid (h : s.Valid) {a b : MessageRow} (ha : a ∈ s.messages)
    (hb : b ∈ s.messages) (hrowid : a.rowid = b.rowid) : a = b := by
  obtain ⟨i, hi⟩ := List.mem_iff_getElem?.1 ha
  obtain ⟨j, hj⟩ := List.mem_iff_getElem?.1 hb
  have hij : i = j := by
    have := h.rowids i a hi
    have := h.rowids j b hj
    omega
  subst hij
  exact Option.some.inj (hi.symm.trans hj)

/-- No row is both marked and not. -/
theorem Valid.not_mem_delivered (h : s.Valid) (hr : r ∈ s.waiting target) (other : String) :
    r ∉ s.delivered other := by
  intro hdel
  obtain ⟨hmem, -, hno⟩ := mem_waiting.1 hr
  obtain ⟨r', hmem', -, hyes, hsame⟩ := mem_delivered.1 hdel
  have hrow : r'.undelivered.rowid = r.rowid := by rw [hsame]
  rw [h.eq_of_rowid hmem' hmem (show r'.rowid = r.rowid from hrow), hno] at hyes
  exact Bool.false_ne_true hyes

/-- The pending messages come in strictly increasing order. -/
theorem Valid.pairwise_pendingFor (h : s.Valid) (target : String) :
    (s.pendingFor target).Pairwise fun a b ↦ a.key < b.key := by
  have htotal : Std.Total fun a b : MessageRow ↦ a.key ≤ b.key := ⟨fun a b ↦ le_total a.key b.key⟩
  have htrans : IsTrans MessageRow fun a b ↦ a.key ≤ b.key := ⟨fun a b c ↦ le_trans⟩
  have hsorted : (s.pendingFor target).Pairwise fun a b ↦ a.key ≤ b.key :=
    List.pairwise_insertionSort _ _
  have hnodup : (s.pendingFor target).Nodup := by
    refine (List.perm_insertionSort _ _).nodup_iff.2 (List.Nodup.filter _ ?_)
    exact List.Nodup.of_map _ h.ids
  refine (hsorted.and hnodup).imp_of_mem fun {a b} ha hb hab ↦ lt_of_le_of_ne hab.1 fun hkey ↦ ?_
  have hrow : a.rowid = b.rowid := congrArg (fun k ↦ (ofLex k).2) hkey
  exact hab.2 (h.eq_of_rowid (mem_waiting.1 (mem_pendingFor.1 ha)).1
    (mem_waiting.1 (mem_pendingFor.1 hb)).1 hrow)

/-! ### Storing a message -/

variable {s' : A2aStore} {msg : A2aMessage} {id from_ text : String} {now : ℕ}
  {replyTo : Option String}

/-- What a stored message looks like: the last row, with a fresh id. -/
theorem insertMessage_eq_some (h : s.insertMessage id now from_ target replyTo text = some (s', msg)) :
    msg = ⟨id, from_, target, replyTo, text, now, none⟩ ∧
      s'.messages = s.messages ++ [⟨s.messages.length + 1, msg⟩] ∧
      ∀ r ∈ s.messages, r.message.id ≠ id := by
  rw [insertMessage] at h
  split at h
  case isTrue => cases h
  case isFalse hfresh =>
    obtain ⟨rfl, rfl⟩ := Prod.mk.inj (Option.some.inj h)
    refine ⟨rfl, rfl, fun r hr hid ↦ hfresh ?_⟩
    rw [List.contains_iff_mem]
    exact List.mem_map.2 ⟨r, hr, hid⟩

theorem Valid.insertMessage (hs : s.Valid)
    (h : s.insertMessage id now from_ target replyTo text = some (s', msg)) : s'.Valid := by
  obtain ⟨rfl, hmessages, hfresh⟩ := insertMessage_eq_some h
  refine ⟨?_, fun i r hr ↦ ?_⟩
  · rw [hmessages, List.map_append]
    refine List.nodup_append.2 ⟨hs.ids, List.nodup_singleton _, fun a ha b hb ↦ ?_⟩
    obtain ⟨r, hr, rfl⟩ := List.mem_map.1 ha
    obtain rfl : b = id := by simpa using hb
    exact hfresh r hr
  · rw [hmessages] at hr
    rcases Nat.lt_trichotomy i s.messages.length with hlt | rfl | hgt
    · exact hs.rowids i r (by rwa [List.getElem?_append_left hlt] at hr)
    · obtain rfl : _ = r := Option.some.inj (by simpa using hr)
      rfl
    · rw [List.getElem?_eq_none (by simp; omega)] at hr
      cases hr

theorem mem_waiting_insertMessage
    (h : s.insertMessage id now from_ target replyTo text = some (s', msg)) :
    r ∈ s'.waiting other ↔
      r ∈ s.waiting other ∨ (target = other ∧ r = ⟨s.messages.length + 1, msg⟩) := by
  obtain ⟨rfl, hmessages, -⟩ := insertMessage_eq_some h
  simp only [mem_waiting, hmessages, List.mem_append, List.mem_singleton]
  constructor
  · rintro ⟨hr | rfl, hto, hno⟩
    · exact .inl ⟨hr, hto, hno⟩
    · exact .inr ⟨hto, rfl⟩
  · rintro (⟨hr, hto, hno⟩ | ⟨hto, rfl⟩)
    · exact ⟨.inl hr, hto, hno⟩
    · exact ⟨.inr rfl, hto, rfl⟩

theorem mem_delivered_insertMessage
    (h : s.insertMessage id now from_ target replyTo text = some (s', msg)) :
    r ∈ s'.delivered other ↔ r ∈ s.delivered other := by
  obtain ⟨rfl, hmessages, -⟩ := insertMessage_eq_some h
  simp [delivered, hmessages, MessageRow.isDelivered]

/-! ### Marking messages delivered -/

variable {batch : List MessageRow}

/-- The ids of a batch. -/
def idsOf (batch : List MessageRow) : List String := batch.map fun r ↦ r.message.id

/-- A batch of rows of the table is recognised by its ids. -/
theorem Valid.contains_ids (hs : s.Valid) (hbatch : ∀ b ∈ batch, b ∈ s.waiting target)
    (hr : r ∈ s.messages) : (idsOf batch).contains r.message.id = true ↔ r ∈ batch := by
  rw [List.contains_iff_mem, idsOf, List.mem_map]
  refine ⟨fun ⟨b, hb, hid⟩ ↦ ?_, fun h ↦ ⟨r, h, rfl⟩⟩
  have hmem : b ∈ s.messages := (mem_waiting.1 (hbatch b hb)).1
  rwa [← List.inj_on_of_nodup_map hs.ids hmem hr hid]

theorem Valid.markDelivered (hs : s.Valid) (ids : List String) (now : ℕ) :
    (s.markDelivered ids now).Valid := by
  refine ⟨?_, fun i r hr ↦ ?_⟩
  · have hids : ((s.markDelivered ids now).messages.map fun r ↦ r.message.id) =
        s.messages.map fun r ↦ r.message.id := by
      rw [A2aStore.markDelivered, List.map_map]
      refine List.map_congr_left fun r _ ↦ ?_
      simp only [Function.comp_apply]
      split <;> rfl
    rw [hids]
    exact hs.ids
  · rw [A2aStore.markDelivered, List.getElem?_map] at hr
    obtain ⟨r', hr', rfl⟩ := Option.map_eq_some_iff.1 hr
    have hrow := hs.rowids i r' hr'
    split <;> exact hrow

/-- Marking a batch takes exactly its rows out of what waits. -/
theorem Valid.mem_waiting_markDelivered (hs : s.Valid)
    (hbatch : ∀ b ∈ batch, b ∈ s.waiting target) (now : ℕ) (other : String) :
    r ∈ (s.markDelivered (idsOf batch) now).waiting other ↔ r ∈ s.waiting other ∧ r ∉ batch := by
  simp only [mem_waiting, A2aStore.markDelivered, List.mem_map]
  constructor
  · rintro ⟨⟨r', hr', rfl⟩, hto, hno⟩
    split at hno
    case isTrue => cases hno
    case isFalse hnot =>
      rw [if_neg hnot] at hto ⊢
      exact ⟨⟨hr', hto, hno⟩, fun hb ↦ hnot ((hs.contains_ids hbatch hr').2 hb)⟩
  · rintro ⟨⟨hr, hto, hno⟩, hnot⟩
    exact ⟨⟨r, hr, if_neg fun h ↦ hnot ((hs.contains_ids hbatch hr).1 h)⟩, hto, hno⟩

/-- Marking a batch adds exactly its rows to what is delivered to its target. -/
theorem Valid.mem_delivered_markDelivered (hs : s.Valid)
    (hbatch : ∀ b ∈ batch, b ∈ s.waiting target) (now : ℕ) (other : String) :
    r ∈ (s.markDelivered (idsOf batch) now).delivered other ↔
      r ∈ s.delivered other ∨ (target = other ∧ r ∈ batch) := by
  simp only [mem_delivered, A2aStore.markDelivered, List.mem_map]
  constructor
  · rintro ⟨_, ⟨r', hr', rfl⟩, hto, hyes, rfl⟩
    split
    case isTrue hin =>
      rw [if_pos hin] at hto
      have hb : r' ∈ batch := (hs.contains_ids hbatch hr').1 hin
      obtain ⟨-, htarget, hno⟩ := mem_waiting.1 (hbatch r' hb)
      rw [MessageRow.undelivered_deliver, MessageRow.undelivered_of_not_isDelivered hno]
      exact .inr ⟨htarget.symm.trans hto, hb⟩
    case isFalse hnot =>
      rw [if_neg hnot] at hto hyes
      exact .inl ⟨r', hr', hto, hyes, rfl⟩
  · rintro (⟨r', hr', hto, hyes, rfl⟩ | ⟨rfl, hb⟩)
    · refine ⟨r', ⟨r', hr', if_neg fun hin ↦ ?_⟩, hto, hyes, rfl⟩
      have hno := (mem_waiting.1 (hbatch r' ((hs.contains_ids hbatch hr').1 hin))).2.2
      exact Bool.false_ne_true (hno.symm.trans hyes)
    · obtain ⟨hr, hto, hno⟩ := mem_waiting.1 (hbatch r hb)
      refine ⟨r.deliver now, ⟨r, hr, if_pos ((hs.contains_ids hbatch hr).2 hb)⟩, hto, rfl, ?_⟩
      rw [MessageRow.undelivered_deliver, MessageRow.undelivered_of_not_isDelivered hno]

end A2aStore

end Ember.Server
