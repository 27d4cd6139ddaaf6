import Ember.Sync.World

/-!
# A session's status on the client

A client's record with last sequence number `n` should carry the status and the native id the server
had after event `n`. A record the server sent as a whole does, and so does one a push took forward,
except that a push that jumps over events does not know of a native id in between. Events that were
fetched come without a status: a fetch that takes a record forward keeps the old one.

`Keeps` is the condition on a step under which neither happens, and `inSync_of_reachable` the
property in every run whose steps meet it.
-/

namespace Ember.Sync

open Server (AgentEvent nativeOf nativeAfter)
open Client (SessionRecord stepRecord RecordStep)

/-- A record carries the status and the native id after its last sequence number. -/
structure Synced (log : List AgentEvent) (record : SessionRecord) : Prop where
  le : record.lastSeq ≤ log.length
  status : record.status = .decode (.ofLog (log.take record.lastSeq))
  nativeId : record.nativeId = nativeOf (log.take record.lastSeq)

/-- Every record of the client carries the status and the native id after its last number. -/
def InSync (w : World) : Prop :=
  ∀ (id : String) (record : SessionRecord), w.client.sessions[id]? = some record →
    Synced (w.store.log id) record

/-- The agent's own session id became known. -/
def isNativeSession : AgentEvent → Bool
  | .nativeSession _ => true
  | _ => false

/-- Taking a record from event `m` on by the events after `a` up to `n` misses no native id: none
became known between `m` and the first of these events, or one of them brings a newer one. -/
def NativeKept (log : List AgentEvent) (m a n : ℕ) : Prop :=
  nativeOf (log.take (max a m)) = nativeOf (log.take m) ∨
    ∃ e ∈ (log.take n).drop (max a m), isNativeSession e = true

/-- What a step must not do for records to stay in sync. A push that takes a record forward misses
no native id; a fetch that takes a record forward misses no native id and ends at an event after
which the server's status is what it was at the record's event. -/
def Keeps (w : World) : Action → Prop
  | .pushEvent m => ∀ status ev, w.pushAt m = some (.event status ev) →
    ∀ record : SessionRecord, w.client.sessions[ev.sessionId]? = some record →
      record.lastSeq < ev.seq →
      NativeKept (w.store.log ev.sessionId) record.lastSeq (ev.seq - 1) ev.seq
  | .events m id after => ∀ record : SessionRecord, w.client.sessions[id]? = some record →
    let n := ((w.storeAt m).log id).length
    after < n → record.lastSeq < n →
      Server.SessionStatus.ofLog ((w.store.log id).take n) =
          .ofLog ((w.store.log id).take record.lastSeq) ∧
        NativeKept (w.store.log id) record.lastSeq after n
  | _ => True

variable {w w' : World} {id : String} {log log' : List AgentEvent} {record : SessionRecord}

/-! ### The native id of a log -/

theorem nativeOf_append (l₁ l₂ : List AgentEvent) :
    nativeOf (l₁ ++ l₂) = l₂.foldl nativeAfter (nativeOf l₁) := by
  rw [nativeOf, List.foldl_append, nativeOf]

/-- Events that bring a native id decide it, whatever it was. -/
theorem foldl_nativeAfter_congr {l : List AgentEvent} (h : ∃ e ∈ l, isNativeSession e = true)
    (x y : Option String) : l.foldl nativeAfter x = l.foldl nativeAfter y := by
  induction l generalizing x y with
  | nil => simp at h
  | cons e l ih =>
    rw [List.foldl_cons, List.foldl_cons]
    cases hnative : isNativeSession e with
    | true =>
      have hsame : nativeAfter x e = nativeAfter y e := by
        cases e <;> first | rfl | exact absurd hnative Bool.false_ne_true
      rw [hsame]
    | false =>
      obtain ⟨e', hmem, he'⟩ := h
      rcases List.mem_cons.1 hmem with rfl | hmem
      · exact absurd he' (by rw [hnative]; exact Bool.false_ne_true)
      · exact ih ⟨e', hmem, he'⟩ _ _

variable {m : ℕ}

/-- When no native id is missed, applying the carried events to the record's is applying all. -/
theorem NativeKept.nativeOf_eq {a n : ℕ} (h : NativeKept log m a n) (hle : max a m ≤ n) :
    nativeOf (log.take n) =
      ((log.take n).drop (max a m)).foldl nativeAfter (nativeOf (log.take m)) := by
  have hsplit : log.take n = log.take (max a m) ++ (log.take n).drop (max a m) := by
    conv_lhs => rw [← List.take_append_drop (max a m) (log.take n)]
    rw [List.take_take, Nat.min_eq_left hle]
  conv_lhs => rw [hsplit, nativeOf_append]
  rcases h with hsame | hbrings
  · rw [hsame]
  · exact foldl_nativeAfter_congr hbrings _ _

/-! ### Records from the server -/

theorem Synced.mono (h : Synced log record) (hlog : log <+: log') : Synced log' record := by
  obtain ⟨rest, rfl⟩ := hlog
  have htake : (log ++ rest).take record.lastSeq = log.take record.lastSeq :=
    List.take_append_of_le_length h.le
  exact ⟨h.le.trans (by simp), by rw [htake]; exact h.status, by rw [htake]; exact h.nativeId⟩

/-- A row of a snapshot is in sync with the log. -/
theorem synced_row {row : Server.SessionRecord}
    (h : (w.storeAt m).session id = some row) : Synced (w.store.log id) (.decode row) := by
  have hrow := (w.consistent_storeAt m).rows id row h
  have hseq : (SessionRecord.decode row).lastSeq = ((w.storeAt m).log id).length := hrow.lastSeq
  have hlog := w.log_storeAt m id
  rw [← hseq] at hlog
  refine ⟨hseq.trans_le (w.log_storeAt_length_le m id), ?_, ?_⟩
  · rw [← hlog]
    exact congrArg Client.SessionStatus.decode hrow.status
  · rw [← hlog]
    exact hrow.nativeId

/-- Offers of records that are in sync leave a record that is. -/
theorem synced_foldl_offer {records : List SessionRecord} {cur : Option SessionRecord}
    (hcur : ∀ r, cur = some r → Synced log r) (hrecords : ∀ r ∈ records, Synced log r) :
    ∀ r, (records.map .offer).foldl stepRecord cur = some r → Synced log r := by
  induction records generalizing cur with
  | nil => exact hcur
  | cons record records ih =>
    have hrecord := hrecords record List.mem_cons_self
    refine ih ?_ fun r hr ↦ hrecords r (List.mem_cons_of_mem _ hr)
    rintro r hr
    cases cur with
    | none =>
      obtain rfl := Option.some.inj hr
      exact hrecord
    | some cur =>
      simp only [stepRecord] at hr
      split at hr
      · obtain rfl := Option.some.inj hr
        exact hcur _ rfl
      · obtain rfl := Option.some.inj hr
        exact hrecord

/-! ### Events -/

variable {ev : Client.StoredEvent}

/-- An event that takes a record forward sets its native id as it does the server's. -/
theorem takeEvent_nativeId {status : Option Client.SessionStatus} {e : AgentEvent}
    (h : ev.event = .decode e) :
    (Client.State.takeEvent record status ev).nativeId = nativeAfter record.nativeId e := by
  rw [Client.State.takeEvent, h]
  cases e <;> rfl

/-- The events of a log after `a`, as they are fetched. -/
def Fetched (log : List AgentEvent) (a : ℕ) (events : List Client.StoredEvent) : Prop :=
  ∀ k ev, events[k]? = some ev → ev.seq = a + k + 1 ∧
    ∃ e, log[a + k]? = some e ∧ ev.event = .decode e

/-- A record after the events of a log that follow `a`: its status is what it was, and it has gone
through the native ids of those events it had not seen. -/
theorem foldl_fetched {events : List Client.StoredEvent} {a : ℕ} (h : Fetched log a events)
    (record : SessionRecord) :
    ∃ r, (events.map (.event none)).foldl stepRecord (some record) = some r ∧
      r.lastSeq = (if events = [] then record.lastSeq else max record.lastSeq (a + events.length)) ∧
      r.status = record.status ∧
      r.nativeId = ((log.take (a + events.length)).drop (max a record.lastSeq)).foldl nativeAfter
        record.nativeId := by
  induction events using List.reverseRecOn with
  | nil =>
    refine ⟨record, rfl, rfl, rfl, ?_⟩
    rw [List.drop_eq_nil_of_le (by simp)]
    rfl
  | append_singleton events ev ih =>
    obtain ⟨r, hr, hseq, hstatus, hnative⟩ := ih fun k ev' hk ↦
      h k ev' (by rw [List.getElem?_append_left (List.getElem?_eq_some_iff.1 hk).1, hk])
    obtain ⟨hev, e, he, hdecode⟩ := h events.length ev (by simp)
    have hle : r.lastSeq ≤ max record.lastSeq (a + events.length) := by
      rw [hseq]; split <;> omega
    have hge : record.lastSeq ≤ r.lastSeq := by
      rw [hseq]; split <;> omega
    have htake : log.take (a + events.length + 1) = log.take (a + events.length) ++ [e] := by
      rw [List.take_add_one, he]
      rfl
    have hlen : a + events.length < log.length := (List.getElem?_eq_some_iff.1 he).1
    rw [List.map_append, List.foldl_append, hr]
    show ∃ r', stepRecord (some r) (.event none ev) = some r' ∧ _
    have hne : events ++ [ev] ≠ [] := by simp
    simp only [stepRecord, hev, hne, if_false, List.length_append, List.length_singleton,
      ← Nat.add_assoc, htake]
    by_cases hnew : a + events.length + 1 > record.lastSeq
    · rw [if_pos (by omega)]
      refine ⟨_, rfl, ?_, ?_, ?_⟩
      · rw [Client.State.takeEvent, hev, Nat.max_eq_right (by omega)]
      · exact hstatus
      · rw [takeEvent_nativeId hdecode, hnative, List.drop_append_of_le_length (by simp; omega),
          List.foldl_append]
        rfl
    · rw [if_neg (by omega)]
      refine ⟨r, rfl, ?_, hstatus, ?_⟩
      · rw [hseq]; split <;> omega
      · rw [hnative, List.drop_eq_nil_of_le (by simp; omega),
          List.drop_eq_nil_of_le (by simp; omega)]

variable {status : Client.SessionStatus}

/-- A pushed event stands in the log under its number, and comes with the status after it. -/
theorem pushed_event (h : w.pushAt m = some (.event status ev)) :
    ∃ k e, ev.seq = k + 1 ∧ (w.store.log ev.sessionId)[k]? = some e ∧ ev.event = .decode e ∧
      status = .decode (.ofLog ((w.store.log ev.sessionId).take (k + 1))) := by
  obtain ⟨op, hop, hpush⟩ := w.exists_of_pushAt h
  cases op with
  | createSession id now project agent cwd model title account =>
    obtain ⟨r, -, hr⟩ := Option.map_eq_some_iff.1 hpush
    cases hr
  | updateSessionMeta id patch =>
    simp only [pushOf] at hpush
    split at hpush <;> cases hpush
  | append sessionId now event =>
    obtain ⟨⟨s', stored, status'⟩, happend, hr⟩ := Option.map_eq_some_iff.1 hpush
    obtain ⟨rfl, rfl⟩ := Client.Push.event.inj hr
    have hstep : w.storeAt (m + 1) = s' := by
      rw [w.storeAt_succ hop, Server.Store.step, happend]
      rfl
    simp only [Server.Store.append] at happend
    split at happend
    · cases happend
    case h_2 row hget =>
      obtain ⟨rfl, rfl, rfl⟩ : _ ∧ _ ∧ _ := by simpa using happend
      have hrow := (w.consistent_storeAt m).rows sessionId row hget
      have hlog : (w.storeAt (m + 1)).log sessionId = (w.storeAt m).log sessionId ++ [event] := by
        rw [hstep, Server.Store.log, Server.Store.stored_append, if_pos rfl, List.map_append]
        rfl
      have hnow := w.log_storeAt (m + 1) sessionId
      rw [hlog, List.length_append, List.length_singleton] at hnow
      refine ⟨row.lastSeq, event, rfl, ?_, rfl, ?_⟩
      · have hentry := congrArg (·[((w.storeAt m).log sessionId).length]?) hnow
        rw [hrow.lastSeq]
        exact (by simpa [List.getElem?_take] using hentry.symm :
          (w.store.log sessionId)[((w.storeAt m).log sessionId).length]? = some event)
      · rw [hrow.lastSeq]
        exact congrArg Client.SessionStatus.decode
          ((hrow.append now event).status.trans (congrArg _ hnow))

/-- The events a snapshot answers a fetch with are events of the log. -/
theorem fetched_eventsAfter (w : World) (m : ℕ) (id : String) (after : ℕ) :
    Fetched (w.store.log id) after (((w.storeAt m).eventsAfter id after).map .decode) ∧
      ∀ ev ∈ ((w.storeAt m).eventsAfter id after).map Client.StoredEvent.decode,
        ev.sessionId = id := by
  have hcons := w.consistent_storeAt m
  rw [hcons.eventsAfter_eq]
  constructor
  · intro k ev hk
    rw [List.getElem?_map, List.getElem?_drop] at hk
    obtain ⟨stored, hstored, rfl⟩ := Option.map_eq_some_iff.1 hk
    refine ⟨hcons.numbered id _ _ hstored, stored.event, ?_, rfl⟩
    have hlog : ((w.storeAt m).log id)[after + k]? = some stored.event := by
      rw [Server.Store.log, List.getElem?_map, hstored]
      rfl
    obtain ⟨rest, hrest⟩ :=
      Server.Store.log_prefix_of_prefix (List.take_prefix m w.history) id
    rw [World.store, ← hrest]
    exact (List.getElem?_append_left (List.getElem?_eq_some_iff.1 hlog).1).trans hlog
  · intro ev hev
    obtain ⟨stored, hstored, rfl⟩ := List.mem_map.1 hev
    have hmem := List.mem_of_mem_drop hstored
    exact beq_iff_eq.1 (List.mem_filter.1 hmem).2

/-! ### Steps and runs -/

/-- Giving the client records that are in sync keeps it in sync. -/
theorem InSync.offers (h : InSync w) {input : Client.Input}
    (hsteps : ∀ id, ∃ records : List SessionRecord, input.recordSteps id = records.map .offer ∧
      ∀ r ∈ records, Synced (w.store.log id) r) : InSync (w.give input) := by
  intro id record hget
  show Synced (w.store.log id) record
  obtain ⟨records, heq, hrecords⟩ := hsteps id
  rw [World.give_sessions, heq] at hget
  exact synced_foldl_offer (h id) hrecords record hget

/-- A push takes a record forward by one event, with the status after it. -/
theorem InSync.pushEvent (h : InSync w) (hpush : w.pushAt m = some (.event status ev))
    (hkeep : Keeps w (.pushEvent m)) : InSync (w.give (.push (.event status ev))) := by
  intro id record hget
  show Synced (w.store.log id) record
  rw [World.give_sessions, Client.Input.recordSteps] at hget
  split at hget
  case isFalse => exact h id record hget
  case isTrue hid =>
    subst hid
    obtain ⟨k, e, hseq, hlog, hdecode, hstatus⟩ := pushed_event hpush
    have hlt : k < (w.store.log ev.sessionId).length := (List.getElem?_eq_some_iff.1 hlog).1
    cases hcur : w.client.sessions[ev.sessionId]? with
    | none =>
      rw [hcur] at hget
      cases hget
    | some cur =>
      have hsync := h _ cur hcur
      rw [hcur] at hget
      simp only [List.foldl_cons, List.foldl_nil, stepRecord] at hget
      split at hget
      case isFalse =>
        obtain rfl := Option.some.inj hget
        exact hsync
      case isTrue hnew =>
        obtain rfl := Option.some.inj hget
        have htake : (w.store.log ev.sessionId).take (k + 1) =
            (w.store.log ev.sessionId).take k ++ [e] := by
          rw [List.take_add_one, hlog]
          rfl
        have hkept := hkeep status ev hpush cur hcur hnew
        rw [hseq, Nat.add_sub_cancel] at hkept
        have hnative := hkept.nativeOf_eq (by omega)
        rw [Nat.max_eq_left (by omega), htake, List.drop_append_of_le_length (by simp; omega),
          List.drop_eq_nil_of_le (by simp), ← hsync.nativeId] at hnative
        refine ⟨?_, ?_, ?_⟩
        · show ev.seq ≤ _
          omega
        · show status = _
          rw [hstatus]
          exact congrArg (fun n ↦ Client.SessionStatus.decode (.ofLog (List.take n _))) hseq.symm
        · rw [takeEvent_nativeId hdecode]
          show _ = nativeOf (List.take ev.seq _)
          rw [hseq, htake, hnative]
          rfl

/-- A fetch that meets the condition takes a record forward to an event after which the server had
the status and the native id the record has then. -/
theorem InSync.events (h : InSync w) {id : String} {after : ℕ}
    (hkeep : Keeps w (.events m id after)) :
    InSync (w.give (.eventsFetched id (((w.storeAt m).eventsAfter id after).map .decode))) := by
  intro id' record hget
  show Synced (w.store.log id') record
  rw [World.give_sessions, Client.Input.recordSteps] at hget
  split at hget
  case isFalse => exact h id' record hget
  case isTrue hid =>
    subst hid
    obtain ⟨hfetched, hids⟩ := fetched_eventsAfter w m id after
    rw [List.filter_eq_self.2 fun ev hev ↦ by simp [hids ev hev]] at hget
    cases hcur : w.client.sessions[id]? with
    | none =>
      rw [hcur] at hget
      have hnone : ∀ l : List Client.StoredEvent,
          (l.map (RecordStep.event none)).foldl stepRecord none = none := fun l ↦ by
        induction l with
        | nil => rfl
        | cons ev l ih => exact ih
      rw [hnone] at hget
      cases hget
    | some cur =>
      have hsync := h _ cur hcur
      obtain ⟨r, hr, hseq, hstatus, hnative⟩ := foldl_fetched hfetched cur
      rw [hcur, hr] at hget
      obtain rfl := Option.some.inj hget
      have hlength : after + (((w.storeAt m).eventsAfter id after).map
          Client.StoredEvent.decode).length = max after ((w.storeAt m).log id).length := by
        rw [(w.consistent_storeAt m).eventsAfter_eq, List.length_map, List.length_drop,
          Server.Store.log, List.length_map]
        omega
      have hle := w.log_storeAt_length_le m id
      by_cases hnew : after < ((w.storeAt m).log id).length ∧
          cur.lastSeq < ((w.storeAt m).log id).length
      · -- the record moves to the last event of the answer
        obtain ⟨hsame, hkept⟩ := hkeep cur hcur hnew.1 hnew.2
        rw [hlength, Nat.max_eq_right hnew.1.le] at hseq hnative
        rw [if_neg (fun hnil ↦ by rw [hnil] at hlength; simp at hlength; omega),
          Nat.max_eq_right hnew.2.le] at hseq
        refine ⟨hseq ▸ hle, ?_, ?_⟩
        · rw [hstatus, hseq, hsame]
          exact hsync.status
        · rw [hnative, hseq, hkept.nativeOf_eq (by omega), hsync.nativeId]
      · -- nothing the record has not seen
        have hsame : r.lastSeq = cur.lastSeq := by
          rw [hseq]
          split
          · rfl
          · rename_i hne
            have hpos := List.length_pos_of_ne_nil hne
            omega
        rw [hlength, List.drop_eq_nil_of_le (by simp; omega)] at hnative
        exact ⟨hsame ▸ hsync.le, by rw [hstatus, hsame]; exact hsync.status,
          by rw [hnative, hsame]; exact hsync.nativeId⟩

/-- **One step.** What meets the condition keeps the client in sync. -/
theorem InSync.step (h : InSync w) {a : Action} (hkeep : Keeps w a) (hs : Step w a w') :
    InSync w' := by
  cases hs with
  | server op =>
    intro id record hget
    refine (h id record hget).mono ?_
    rw [World.store, World.store, Server.Store.ofHistory_concat]
    exact Server.Store.log_prefix_step ..
  | pushEvent m horder hpush => exact h.pushEvent hpush hkeep
  | pushMeta m horder hnext hpush =>
    rename_i pushed
    intro id record hget
    show Synced (w.store.log id) record
    rw [show World.client _ = (w.give (.push (.sessionUpdated pushed))).client from rfl,
      World.give_sessions, Client.Input.recordSteps] at hget
    split at hget
    case isFalse => exact h id record hget
    case isTrue =>
      cases hcur : w.client.sessions[id]? with
      | none =>
        rw [hcur] at hget
        cases hget
      | some cur =>
        rw [hcur] at hget
        obtain rfl := Option.some.inj hget
        have hsync := h id cur hcur
        exact ⟨hsync.le, hsync.status, hsync.nativeId⟩
  | pushCreated m hpush =>
    rename_i record
    refine h.offers fun id ↦ ?_
    simp only [Client.Input.recordSteps]
    split
    case isFalse => exact ⟨[], rfl, by simp⟩
    case isTrue hid =>
      refine ⟨[record], rfl, fun r hr ↦ ?_⟩
      obtain rfl := List.mem_singleton.1 hr
      obtain ⟨row, hrow, rfl⟩ := World.created_row hpush
      exact hid ▸ synced_row hrow
  | list m project hm =>
    exact h.offers fun id ↦ ⟨_, rfl, fun r hr ↦ by
      obtain ⟨hmem, hid⟩ := List.mem_filter.1 hr
      obtain ⟨row, hrow, rfl⟩ := World.list_record hmem
      obtain rfl : _ = id := by simpa using hid
      exact synced_row hrow⟩
  | session m id' hm hget =>
    refine h.offers fun id ↦ ?_
    simp only [Client.Input.recordSteps]
    split
    case isFalse => exact ⟨[], rfl, by simp⟩
    case isTrue hid =>
      refine ⟨[_], rfl, fun r hr ↦ ?_⟩
      obtain rfl := List.mem_singleton.1 hr
      have hrow := ((w.consistent_storeAt m).rows id' _ hget).id
      obtain rfl : id' = id := hrow.symm.trans hid
      exact synced_row hget
  | events m id after hm => exact h.events hkeep
  | other input hinput => exact h.offers fun id ↦ ⟨[], hinput id, by simp⟩

/-- **Status and native id.** In every run whose steps meet the condition, a record with last
sequence number `n` carries the status and the native id the server had after event `n`. -/
theorem inSync_of_reachable (h : (system.restrict Keeps).Reachable w) : InSync w := by
  refine h.invariant ?_ fun w a w' _ hw hs ↦ hw.step hs.1 hs.2
  rintro w rfl id record hget
  simp [Client.State.new] at hget

/-- The guarantee at work: the user's message is pushed, and the record says the session runs. -/
theorem inSync_of_reachable_pushed :
    ∃ w, (system.restrict Keeps).Reachable w ∧
      (w.client.sessions["s"]?.map fun r ↦ (r.lastSeq, r.status)) = some (1, .running) ∧
      InSync w := by
  have h0 : (system.restrict Keeps).Reachable ⟨[], .new, 0, 0, 0⟩ := .start rfl
  have h1 := h0.next
    (Action.server (.createSession "s" 5 "p" .claudeCode "/" none "t" none)) ⟨trivial, .server _⟩
  have h2 := h1.next (Action.pushCreated 0) ⟨trivial, .pushCreated 0 rfl⟩
  have h3 := h2.next (Action.server (.append "s" 6 (.userMessage "hi"))) ⟨trivial, .server _⟩
  have h4 := h3.next (Action.pushEvent 1) ⟨fun _ ev hpush record hget hlt ↦ by
    obtain ⟨rfl, rfl⟩ := Client.Push.event.inj (Option.some.inj hpush)
    exact .inl rfl, .pushEvent 1 (Nat.zero_le _) rfl⟩
  exact ⟨_, h4, rfl, inSync_of_reachable h4⟩

/-- A fetch overtakes the push of the same event: the record is at event 1 and still idle, and the
push that follows changes nothing. -/
theorem not_inSync_after_fetch : ¬ ∀ w, system.Reachable w → InSync w := by
  intro h
  have h0 : system.Reachable ⟨[], .new, 0, 0, 0⟩ := .start rfl
  have h1 := h0.next _ (Step.server (.createSession "s" 5 "p" .claudeCode "/" none "t" none))
  have h2 := h1.next _ (Step.pushCreated 0 rfl)
  have h3 := h2.next _ (Step.other (.opened "s") fun _ ↦ rfl)
  have h4 := h3.next _ (Step.server (.append "s" 6 (.userMessage "hi")))
  have h5 := h4.next _ (Step.events 2 "s" 0 (by decide))
  have h6 := h5.next _ (Step.pushEvent 1 (Nat.zero_le _) rfl)
  exact absurd (h _ h6 "s" _ rfl).status (by decide)

end Ember.Sync
