import Ember.Sync.World

/-!
# A session's title, pin and archive mark on the client

Metadata changes are pushed one by one, in order, and every whole record carries the metadata of
its snapshot. `State::upsert` decides between records by sequence number alone, which metadata
changes do not advance: a list taken before a change and applied after its push takes the change
back.

`Fresh` is the condition on a step under which no whole record does that, `Current` what then holds
in every state: the client's metadata is the server's at some moment not before the last change it
was told of. Once every change was pushed, that is the server's metadata now.
-/

namespace Ember.Sync

open Client (Input SessionRecord stepRecord)

/-- The user-editable metadata of a session. -/
abbrev Meta := String × Bool × Bool

/-- The metadata of the client's record. -/
def metaOf (record : SessionRecord) : Meta := (record.title, record.pinned, record.archived)

/-- The server's metadata of a session after the first `m` calls, if it has the session then. -/
def metaAt (w : World) (id : String) (m : ℕ) : Option Meta :=
  ((w.storeAt m).session id).map fun row ↦ metaOf (.decode row)

/-- Call number `m` changed the metadata of a session. -/
def ChangesMeta (w : World) (id : String) (m : ℕ) : Prop :=
  ∃ record : SessionRecord, w.pushAt m = some (.sessionUpdated record) ∧ record.id = id

/-- Metadata the server had at the last change the client was told of, or later. -/
def CurrentMeta (w : World) (id : String) (x : Meta) : Prop :=
  ∃ j, w.metaPushes ≤ j ∧ j ≤ w.history.length ∧ metaAt w id j = some x

/-- A whole record that the client will take: it holds none for the session, or one that is not
ahead. -/
def Taken (w : World) (record : SessionRecord) : Prop :=
  ∀ cur : SessionRecord, w.client.sessions[record.id]? = some cur → cur.lastSeq ≤ record.lastSeq

/-- Every whole record of the list that the client will take carries metadata the server had at the
last change the client was told of, or later. -/
def FreshRecords (w : World) (records : List SessionRecord) : Prop :=
  ∀ record ∈ records, Taken w record → CurrentMeta w record.id (metaOf record)

/-- What a step must not do: have the client take a whole record from before a change it was
told of. -/
def Fresh (w : World) : Action → Prop
  | .list m project => FreshRecords w (((w.storeAt m).list project).map .decode)
  | .session m id => FreshRecords w (((w.storeAt m).session id).toList.map .decode)
  | .pushCreated m => ∀ record, w.pushAt m = some (.sessionCreated record) → FreshRecords w [record]
  | _ => True

/-- The state of a client whose metadata was never taken back: what it holds of a session is not
older than the last change it was told of, and it holds every session of the lists it was given. -/
structure Current (w : World) : Prop where
  pushes : w.metaPushes ≤ w.history.length
  listed : w.listed ≤ w.history.length
  held : ∀ (id : String) (record : SessionRecord), w.client.sessions[id]? = some record →
    CurrentMeta w id (metaOf record)
  known : ∀ id, (w.storeAt w.listed).session id ≠ none → w.client.sessions[id]? ≠ none

variable {w w' : World} {id : String}

/-! ### The server's metadata -/

variable {m : ℕ} {x : Meta}

/-- A call that does not change a session's metadata leaves them as they were. -/
theorem metaAt_succ (h : metaAt w id m = some x) (hno : ¬ ChangesMeta w id m)
    (hm : m < w.history.length) : metaAt w id (m + 1) = some x := by
  obtain ⟨row, hrow, rfl⟩ := Option.map_eq_some_iff.1 h
  have hget : (w.storeAt m).sessions[id]? = some row := hrow
  have hop : w.history[m]? = some w.history[m] := List.getElem?_eq_getElem hm
  have hpush : w.pushAt m = pushOf (w.storeAt m) w.history[m] := by
    rw [World.pushAt, hop]
    rfl
  rw [metaAt, w.storeAt_succ hop]
  cases hcase : w.history[m] with
  | createSession id' now project agent cwd model title account =>
    simp only [Server.Store.step, Server.Store.createSession]
    split
    · exact h
    case isFalse hnew =>
      have hne : id' ≠ id := by
        rintro rfl
        rw [Std.ExtTreeMap.getElem?_eq_none hnew] at hget
        cases hget
      simp [Server.Store.session, Std.ExtTreeMap.getElem?_insert, hne, hget]
  | append sessionId now event =>
    simp only [Server.Store.step, Server.Store.append]
    split
    · exact h
    case h_2 row' hrow' =>
      by_cases hid : sessionId = id
      · subst hid
        obtain rfl : row' = row := Option.some.inj (hrow'.symm.trans hrow)
        simp [Server.Store.session, metaOf, SessionRecord.decode, Server.SessionRecord.append]
      · simp [Server.Store.session, Std.ExtTreeMap.getElem?_insert, hid, hget]
  | updateSessionMeta id' patch =>
    rw [hcase] at hpush
    rcases (w.storeAt m).updateSessionMeta_cases id' patch with ⟨row', hrow', heq, hstep⟩ | ⟨-, hstep⟩
    · have hrowid := ((w.consistent_storeAt m).rows id' row' hrow').id
      have hpush : w.pushAt m = some (.sessionUpdated (.decode (row'.updateMeta patch))) := by
        rw [hpush, pushOf, heq]
      have hne : id' ≠ id := fun heq ↦ hno ⟨_, hpush, hrowid.trans heq⟩
      rw [hstep]
      simp [Server.Store.session, Std.ExtTreeMap.getElem?_insert, hne, hget]
    · rwa [hstep]

/-- Between two moments without a change the metadata stay what they were. -/
theorem metaAt_of_le {n : ℕ} (h : metaAt w id m = some x) (hle : m ≤ n) (hn : n ≤ w.history.length)
    (hno : ∀ k, m ≤ k → k < n → ¬ ChangesMeta w id k) :
    metaAt w id n = some x := by
  induction n, hle using Nat.le_induction with
  | base => exact h
  | succ n hle ih =>
    exact metaAt_succ (ih (by omega) fun k hk hlt ↦ hno k hk (by omega)) (hno n hle (by omega))
      (by omega)

variable {record : SessionRecord}

/-- The push of a change carries the metadata after it. -/
theorem metaAt_changed (h : w.pushAt m = some (.sessionUpdated record)) :
    metaAt w record.id (m + 1) = some (metaOf record) := by
  obtain ⟨op, hop, hpush⟩ := w.exists_of_pushAt h
  cases op with
  | append | createSession =>
    obtain ⟨r, -, hr⟩ := Option.map_eq_some_iff.1 hpush
    cases hr
  | updateSessionMeta id patch =>
    rw [metaAt, w.storeAt_succ hop]
    rcases (w.storeAt m).updateSessionMeta_cases id patch with ⟨row, hget, heq, hstep⟩ | ⟨hfail, -⟩
    · have hrowid : (row.updateMeta patch).id = id := ((w.consistent_storeAt m).rows id row hget).id
      rw [pushOf, heq] at hpush
      obtain rfl := Client.Push.sessionUpdated.inj (Option.some.inj hpush)
      rw [hstep]
      simp [Server.Store.session, SessionRecord.decode, hrowid]
    · rw [pushOf] at hpush
      split at hpush
      case h_1 s r heq => exact absurd heq (hfail (s, r))
      case h_2 => cases hpush

/-- What was current stays so when history goes on. -/
theorem metaAt_append (w : World) (op : Server.StoreOp) {j : ℕ} (hj : j ≤ w.history.length) :
    metaAt { w with history := w.history ++ [op] } id j = metaAt w id j := by
  rw [metaAt, w.storeAt_append op hj, metaAt]

/-! ### Whole records -/

variable {cur : Option SessionRecord}

/-- A record, once held, is never given up. -/
theorem foldl_stepRecord_ne_none (h : cur ≠ none)
    (steps : List Client.RecordStep) : steps.foldl stepRecord cur ≠ none := by
  induction steps generalizing cur with
  | nil => exact h
  | cons step steps ih =>
    refine ih ?_
    obtain ⟨cur, rfl⟩ := Option.ne_none_iff_exists'.1 h
    cases step <;> simp only [stepRecord] <;> (try split) <;> exact Option.some_ne_none _

variable {records : List SessionRecord}

/-- After some whole record was offered, one is held. -/
theorem foldl_offer_ne_none (h : records ≠ [])
    (cur : Option SessionRecord) : (records.map .offer).foldl stepRecord cur ≠ none := by
  obtain ⟨record, records, rfl⟩ := List.exists_cons_of_ne_nil h
  rw [List.map_cons, List.foldl_cons]
  refine foldl_stepRecord_ne_none ?_ _
  cases cur <;> simp only [stepRecord] <;> (try split) <;> exact Option.some_ne_none _

/-- What holds of the record held and of every offered record that is not behind it holds of the
record held after the offers. -/
theorem foldl_offer {P : SessionRecord → Prop} {first : Option SessionRecord}
    (hrecords : ∀ r ∈ records, (∀ c, first = some c → c.lastSeq ≤ r.lastSeq) → P r)
    (hnone : cur = none → first = none)
    (hcur : ∀ c, cur = some c → P c ∧ ∀ o, first = some o → o.lastSeq ≤ c.lastSeq) :
    ∀ r, (records.map .offer).foldl stepRecord cur = some r → P r := by
  induction records generalizing cur with
  | nil => exact fun r hr ↦ (hcur r hr).1
  | cons record records ih =>
    have hrest : ∀ r ∈ records, (∀ c, first = some c → c.lastSeq ≤ r.lastSeq) → P r :=
      fun r hr ↦ hrecords r (List.mem_cons_of_mem _ hr)
    have hrecord := hrecords record List.mem_cons_self
    cases cur with
    | none =>
      have hfirst : ∀ c, first = some c → c.lastSeq ≤ record.lastSeq := fun c hc ↦ by
        rw [hnone rfl] at hc
        cases hc
      refine ih hrest (by simp [stepRecord]) fun c hc ↦ ?_
      obtain rfl := Option.some.inj hc
      exact ⟨hrecord hfirst, hfirst⟩
    | some cur =>
      refine ih hrest (by simp only [stepRecord]; split <;> simp) fun c hc ↦ ?_
      simp only [stepRecord] at hc
      split at hc
      · obtain rfl := Option.some.inj hc
        exact hcur _ rfl
      case isFalse hnot =>
        obtain rfl := Option.some.inj hc
        have hle : ∀ o, first = some o → o.lastSeq ≤ record.lastSeq := fun o ho ↦
          ((hcur cur rfl).2 o ho).trans (Nat.le_of_not_lt hnot)
        exact ⟨hrecord hle, hle⟩

variable {input : Input}

/-- **Giving the client whole records** that meet the condition keeps it current. -/
theorem Current.offers (h : Current w) (hfresh : FreshRecords w records)
    (hsteps : ∀ id, input.recordSteps id =
      (records.filter fun r ↦ r.id == id).map .offer) : Current (w.give input) where
  pushes := h.pushes
  listed := h.listed
  held id record hget := by
    rw [World.give_sessions, hsteps] at hget
    refine foldl_offer (P := fun r ↦ CurrentMeta w id (metaOf r)) (fun r hr htaken ↦ ?_) (fun h ↦ h)
      (fun c hc ↦ ⟨h.held id c hc, fun o ho ↦ ?_⟩) record hget
    · obtain ⟨hmem, hid⟩ := List.mem_filter.1 hr
      obtain rfl : r.id = id := by simpa using hid
      exact hfresh r hmem htaken
    · obtain rfl := Option.some.inj (hc.symm.trans ho)
      exact le_rfl
  known id hid := by
    rw [World.give_sessions]
    exact foldl_stepRecord_ne_none (h.known id hid) _

/-- Giving the client an input that touches no metadata. -/
theorem Current.give (h : Current w)
    (hkeep : ∀ (id : String) record, (w.give input).client.sessions[id]? = some record →
      ∃ cur, w.client.sessions[id]? = some cur ∧ metaOf record = metaOf cur) :
    Current (w.give input) where
  pushes := h.pushes
  listed := h.listed
  held id record hget := by
    obtain ⟨cur, hcur, hmeta⟩ := hkeep id record hget
    rw [hmeta]
    exact h.held id cur hcur
  known id hid := by
    rw [World.give_sessions]
    exact foldl_stepRecord_ne_none (h.known id hid) _

/-- Events take a record forward and leave its metadata alone. -/
theorem foldl_event_metaOf {steps : List Client.RecordStep}
    (hsteps : ∀ step ∈ steps, ∃ status ev, step = .event status ev)
    (hget : steps.foldl stepRecord cur = some record) :
    ∃ c, cur = some c ∧ metaOf record = metaOf c := by
  induction steps generalizing cur with
  | nil => exact ⟨record, hget, rfl⟩
  | cons step steps ih =>
    obtain ⟨c, hc, hmeta⟩ := ih (fun s hs ↦ hsteps s (List.mem_cons_of_mem _ hs)) hget
    obtain ⟨status, ev, rfl⟩ := hsteps step List.mem_cons_self
    cases cur with
    | none => cases hc
    | some cur =>
      refine ⟨cur, rfl, hmeta.trans ?_⟩
      simp only [stepRecord] at hc
      split at hc <;> obtain rfl := Option.some.inj hc <;> rfl

theorem Current.server (h : Current w) (op : Server.StoreOp) :
    Current { w with history := w.history ++ [op] } where
  pushes := h.pushes.trans (by simp)
  listed := h.listed.trans (by simp)
  held id record hget := by
    obtain ⟨j, hpushes, hj, hmeta⟩ := h.held id record hget
    exact ⟨j, hpushes, hj.trans (by simp), (metaAt_append w op hj).trans hmeta⟩
  known id hid := by
    refine h.known id ?_
    rwa [show World.storeAt _ w.listed = w.storeAt w.listed from w.storeAt_append op h.listed] at hid

/-- The push of a change: its session is at that change, every other is where it was. -/
theorem Current.pushMeta (h : Current w) (horder : w.metaPushes ≤ m)
    (hnext : ∀ k, w.metaPushes ≤ k → k < m → ∀ r, w.pushAt k ≠ some (.sessionUpdated r))
    (hpush : w.pushAt m = some (.sessionUpdated record)) :
    Current { w.give (.push (.sessionUpdated record)) with metaPushes := m + 1 } := by
  have hm : m < w.history.length := by
    obtain ⟨op, hop, -⟩ := w.exists_of_pushAt hpush
    exact (List.getElem?_eq_some_iff.1 hop).1
  refine ⟨hm, h.listed, fun id r hget ↦ ?_, fun id hid ↦ ?_⟩
  · rw [show World.client _ = (w.give (.push (.sessionUpdated record))).client from rfl,
      World.give_sessions, Client.Input.recordSteps] at hget
    split at hget
    case isTrue hid =>
      subst hid
      refine ⟨m + 1, le_rfl, hm, (metaAt_changed hpush).trans (congrArg some ?_)⟩
      cases hcur : w.client.sessions[record.id]? with
      | none =>
        rw [hcur] at hget
        cases hget
      | some cur =>
        rw [hcur] at hget
        obtain rfl := Option.some.inj hget
        rfl
    case isFalse hid =>
      obtain ⟨j, hle, hj, hmeta⟩ := h.held id r hget
      rcases Nat.lt_or_ge m j with hlt | hge
      · exact ⟨j, hlt, hj, hmeta⟩
      · refine ⟨m + 1, le_rfl, hm, ?_⟩
        refine metaAt_of_le (w := w) hmeta (by omega) hm fun k hk hkm ↦ ?_
        rintro ⟨r', hr', hrid⟩
        rcases Nat.lt_or_ge k m with hlt | hge'
        · exact hnext k (hle.trans hk) hlt r' hr'
        · obtain rfl : k = m := by omega
          obtain rfl := Client.Push.sessionUpdated.inj (Option.some.inj (hpush.symm.trans hr'))
          exact hid hrid
  · rw [show World.client _ = (w.give (.push (.sessionUpdated record))).client from rfl,
      World.give_sessions]
    exact foldl_stepRecord_ne_none (h.known id hid) _

/-- The steps of an input that carries one whole record. -/
theorem filter_singleton_map (record : SessionRecord) (id : String) :
    (if record.id = id then [Client.RecordStep.offer record] else []) =
      ([record].filter fun r ↦ r.id == id).map .offer := by
  by_cases hid : record.id = id <;> simp [hid]

/-- The whole list either is no news or is of a later moment than the lists before it. -/
theorem listed_cases (w : World) (m : ℕ) (project : Option String) :
    (if project = none then max w.listed m else w.listed) = w.listed ∨
      project = none ∧ (if project = none then max w.listed m else w.listed) = m := by
  by_cases hproject : project = none
  · rw [if_pos hproject]
    rcases Nat.le_total m w.listed with hle | hle
    · exact .inl (Nat.max_eq_left hle)
    · exact .inr ⟨hproject, Nat.max_eq_right hle⟩
  · exact .inl (if_neg hproject)

/-- **One step.** What meets the condition keeps the client current. -/
theorem Current.step (h : Current w) {a : Action} (hfresh : Fresh w a) (hs : Step w a w') :
    Current w' := by
  cases hs with
  | server op => exact h.server op
  | pushEvent m horder hpush =>
    rename_i status ev
    have hgive : Current (w.give (.push (.event status ev))) := h.give fun id record hget ↦ by
      rw [World.give_sessions] at hget
      refine foldl_event_metaOf (fun step hstep ↦ ?_) hget
      simp only [Input.recordSteps] at hstep
      split at hstep
      · exact ⟨_, _, List.mem_singleton.1 hstep⟩
      · cases hstep
    exact ⟨hgive.pushes, hgive.listed, hgive.held, hgive.known⟩
  | pushMeta m horder hnext hpush => exact h.pushMeta horder hnext hpush
  | pushCreated m hpush =>
    exact h.offers (hfresh _ hpush) fun id ↦ filter_singleton_map _ id
  | list m project hm =>
    have hgive : Current (w.give (.sessionsLoaded (((w.storeAt m).list project).map .decode))) :=
      h.offers hfresh fun id ↦ rfl
    refine ⟨hgive.pushes, ?_, hgive.held, fun id hid ↦ ?_⟩
    · show (if project = none then max w.listed m else w.listed) ≤ w.history.length
      have hlisted := h.listed
      split <;> omega
    · change (w.storeAt (if project = none then max w.listed m else w.listed)).session id ≠ none at hid
      rcases listed_cases w m project with hlisted | ⟨rfl, hlisted⟩
      · rw [hlisted] at hid
        exact hgive.known id hid
      · -- the whole list of the snapshot: the session is in it
        rw [hlisted] at hid
        obtain ⟨row, hrow⟩ := Option.ne_none_iff_exists'.1 hid
        have hmem := (Server.Store.mem_list_iff none row).2 ⟨⟨id, hrow⟩, rfl⟩
        have hrowid := ((w.consistent_storeAt m).rows id row hrow).id
        show (w.give _).client.sessions[id]? ≠ none
        rw [World.give_sessions]
        refine foldl_offer_ne_none (List.ne_nil_of_mem (a := .decode row) ?_) _
        exact List.mem_filter.2 ⟨List.mem_map_of_mem hmem, beq_iff_eq.2 hrowid⟩
  | @session m id' record hm hget =>
    have hrecord : FreshRecords w [.decode record] := by simpa [Fresh, hget] using hfresh
    exact h.offers hrecord fun id ↦ filter_singleton_map _ id
  | events m id' after hm =>
    refine h.give fun id record hget ↦ ?_
    rw [World.give_sessions] at hget
    refine foldl_event_metaOf (fun step hstep ↦ ?_) hget
    simp only [Input.recordSteps] at hstep
    split at hstep
    · obtain ⟨ev, -, rfl⟩ := List.mem_map.1 hstep
      exact ⟨_, _, rfl⟩
    · cases hstep
  | other input hinput =>
    refine h.give fun id record hget ↦ ?_
    rw [World.give_sessions, hinput] at hget
    exact ⟨record, hget, rfl⟩

theorem current_of_reachable (h : (system.restrict Fresh).Reachable w) : Current w := by
  refine h.invariant ?_ fun w a w' _ hw hs ↦ hw.step hs.1 hs.2
  rintro w rfl
  exact ⟨le_rfl, le_rfl, fun id record hget ↦ by simp [Client.State.new] at hget,
    fun id hid ↦ absurd rfl hid⟩

end Ember.Sync
