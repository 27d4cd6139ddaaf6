import Ember.Server.Schedules.Following

/-!
# A run ends with its own turn

## What is proved

* `followed_of_reachable` — in every run of the system in which no turn end is stored in a run's
  session from when the run has read the last number until its prompt is stored, nor while the push
  of an earlier turn end of that session is still to come: a run whose prompt was sent ends with the
  outcome of the first turn that ended after its prompt, is finished once, and is finished after
  finitely many of the follower's steps once such an end is stored and pushed.
* `not_followed` — the turn of another message ends in that window, and the run takes its outcome.
-/

namespace Ember.Server

variable {b n k : ℕ} {o : TurnOutcome}

namespace Schedules

namespace Runner

/-! ### The follower gets there -/

section Owed

variable {w : Runner} {r : Run} {i : ℕ} {l : FollowLabel}

/-- How many steps the follower has to make at most, if the push `j` ends its turn. -/
def pending (r : Run) (j : ℕ) : ℕ :=
  match r.at_ with
  | .receiving => j + 3 - r.next
  | .lagged => 2
  | .ending _ => 1
  | _ => 0

/-- A turn end that run `i` looks for is pushed, and its follower needs at most `n` steps. -/
def Owed (w : Runner) (i n : ℕ) : Prop :=
  ∃ r, w.runs[i]? = some r ∧ r.sent = true ∧ ∃ b j ev, r.before = some b ∧
    w.pushes[j]? = some (.event ev) ∧ ev.sessionId = r.session ∧ b < ev.seq ∧
      (turnOutcome ev.event).isSome = true ∧ pending r j ≤ n

/-- What the others leave of a run whose prompt was sent. -/
structure Kept (r r' : Run) : Prop where
  at_ : r'.at_ = r.at_
  next : r'.next = r.next
  before : r'.before = r.before
  session : r'.session = r.session
  sent : r'.sent = r.sent

theorem Kept.refl (r : Run) : Kept r r := ⟨rfl, rfl, rfl, rfl, rfl⟩

/-- A change of another run. -/
theorem kept_setRun (hr : w.runs[i]? = some r) {r₁ : Run}
    (hkept : k = i → Kept r r₁) : ∃ r', (w.setRun k r₁).runs[i]? = some r' ∧ Kept r r' := by
  by_cases hki : k = i
  · subst hki
    exact ⟨r₁, List.getElem?_set_self (List.getElem?_eq_some_iff.1 hr).1, hkept rfl⟩
  · exact ⟨r, by rw [setRun, List.getElem?_set_ne hki, hr], .refl r⟩

/-- **The steps of the others** leave a run whose prompt was sent. -/
theorem kept_step (h : Ok w) (hr : w.runs[i]? = some r) (hsent : r.sent = true)
    (hl : FollowLabel.isFollow i l = false) : ∃ r', (w.step l).runs[i]? = some r' ∧ Kept r r' := by
  have hstay : ∃ r', w.runs[i]? = some r' ∧ Kept r r' := ⟨r, hr, .refl r⟩
  have hwhere := (h.mem hr).sent hsent
  -- A run that is changed before its prompt was sent is another one.
  have hother : ∀ {k r₀}, w.runs[k]? = some r₀ → (r₀.at_ = .starting ∨ r₀.at_ = .sending ∨
      r₀.at_ = .posted) → ∀ r₁, ∃ r', (w.setRun k r₁).runs[i]? = some r' ∧ Kept r r' := by
    intro k r₀ hk hat r₁
    refine kept_setRun hr fun hki ↦ ?_
    subst hki
    obtain rfl := Option.some.inj (hr.symm.trans hk)
    rcases hat with hat | hat | hat <;> simp [hat] at hwhere
  cases l with
  | execute schedule runId =>
    exact ⟨r, by
      rw [step, execute, List.getElem?_append_left (List.getElem?_eq_some_iff.1 hr).1, hr], .refl r⟩
  | open_ k now id account =>
    simp only [step]
    split
    case h_1 r₀ hk =>
      split
      case isTrue hat =>
        have hset := hother hk (.inl hat)
        unfold open_
        dsimp only
        repeat' split
        all_goals exact hset _
      · exact hstay
    · exact hstay
  | post k =>
    simp only [step]
    split
    case h_1 r₀ hk =>
      split
      case isTrue hat => exact hother hk (.inr (.inl hat)) _
      · exact hstay
    · exact hstay
  | storePrompt k now =>
    simp only [step]
    split
    case h_1 r₀ hk =>
      split
      · have hset : ∀ r₁, Kept r₀ r₁ →
            ∃ r', (w.setRun k r₁).runs[i]? = some r' ∧ Kept r r' := fun r₁ hkept ↦
          kept_setRun hr fun hki ↦ by
            subst hki
            obtain rfl := Option.some.inj (hr.symm.trans hk)
            exact hkept
        unfold storePrompt
        split <;> exact hset _ ⟨rfl, rfl, rfl, rfl, rfl⟩
      · exact hstay
    · exact hstay
  | sent k =>
    simp only [step]
    split
    case h_1 r₀ hk =>
      split
      case isTrue hat => exact hother hk (.inr (.inr hat)) _
      · exact hstay
    · exact hstay
  | fail k why =>
    simp only [step]
    split
    case h_1 r₀ hk =>
      split
      case isTrue hat => exact hother hk (.inr hat) _
      · exact hstay
    · exact hstay
  | follow k =>
    have hki : k ≠ i := by simpa [FollowLabel.isFollow] using hl
    have hset : ∀ r₁, ∃ r', (w.setRun k r₁).runs[i]? = some r' ∧ Kept r r' := fun r₁ ↦
      ⟨r, by rw [setRun, List.getElem?_set_ne hki, hr], .refl r⟩
    simp only [step, follow, receive]
    repeat' split
    all_goals first | exact hstay | exact hset _
  | record id now e =>
    simp only [step, record]
    split <;> exact hstay
  | administer | push =>
    simp only [step]
    split <;> exact hstay
  | other => exact hstay

/-- Pushes are only added. -/
theorem pushes_step (w : Runner) (l : FollowLabel) : w.pushes <+: (w.step l).pushes := by
  cases l with
  | push k =>
    simp only [step]
    split
    · exact List.prefix_append ..
    · exact List.prefix_rfl
  | other => exact List.prefix_append ..
  | _ =>
    simp only [step, execute, open_, storePrompt, follow, receive, record, setRun]
    repeat' split
    all_goals exact List.prefix_rfl

/-- **A step of the follower** takes it nearer. -/
theorem owed_follow (h : Ok w) {j : ℕ} {ev : StoredEvent} (hr : w.runs[i]? = some r)
    (hsent : r.sent = true) (hb : r.before = some b) (hev : w.pushes[j]? = some (.event ev))
    (hid : ev.sessionId = r.session) (hlt : b < ev.seq)
    (hend : (turnOutcome ev.event).isSome = true) (hpending : pending r j ≤ n) :
    Owed (w.follow i r b) i (n - 1) := by
  have hok := h.mem hr
  have hlen := (List.getElem?_eq_some_iff.1 hr).1
  -- The run is the same one, and needs this many steps now.
  have hset : ∀ r₁ : Run, r₁.sent = true → r₁.before = r.before → r₁.session = r.session →
      pending r₁ j ≤ n - 1 → Owed (w.setRun i r₁) i (n - 1) := fun r₁ hs hb₁ hid₁ hle ↦
    ⟨r₁, List.getElem?_set_self hlen, hs, b, j, ev, hb₁.trans hb, hev, hid.trans hid₁.symm, hlt,
      hend, hle⟩
  rcases hok.sent hsent with hat | hat | ⟨o, hat⟩ | hat
  · have hj : r.next ≤ j := by
      by_contra hj
      rw [hok.passed (.inr (.inr hat)) b hb j ev (by omega) hev hid hlt] at hend
      cases hend
    have hn : j + 3 - r.next ≤ n := by simpa only [pending, hat] using hpending
    have hnext : Owed (w.setRun i { r with at_ := .receiving, next := r.next + 1 }) i (n - 1) := by
      refine hset _ hsent rfl rfl ?_
      show j + 3 - (r.next + 1) ≤ n - 1
      omega
    simp only [follow, hat, receive]
    split
    · refine hset _ hsent rfl rfl ?_
      show 2 ≤ n - 1
      omega
    · split
      case h_1 hnone =>
        have := List.getElem?_eq_none_iff.1 hnone
        have := (List.getElem?_eq_some_iff.1 hev).1
        omega
      · exact hnext
      · split
        · split
          · refine hset _ hsent rfl rfl ?_
            show 1 ≤ n - 1
            omega
          · exact hnext
        · exact hnext
  · have hn : 2 ≤ n := by simpa only [pending, hat] using hpending
    obtain ⟨first, -, -, -, hfirst, heq⟩ := h.consistent.exists_endAfter
      (h.known ev (.inr (List.mem_of_getElem? hev))) hlt hend
    obtain ⟨o, ho⟩ := Option.isSome_iff_exists.1 hfirst
    rw [hid, ho] at heq
    simp only [follow, hat, heq]
    refine hset _ hsent rfl rfl ?_
    show 1 ≤ n - 1
    omega
  · simp only [follow, hat]
    refine hset _ ?_ ?_ ?_ ?_ <;> unfold Run.conclude Run.finish <;> split
    all_goals first | exact hsent | rfl | exact Nat.zero_le _
  · simp only [follow, hat]
    exact ⟨r, hr, hsent, b, j, ev, hb, hev, hid, hlt, hend, by simp [pending, hat]⟩

/-- **One step** takes the follower no further away, and one of its own takes it nearer. -/
theorem owed_step (h : Ok w) (howed : Owed w i n) (l : FollowLabel) :
    Owed (w.step l) i (if l.isFollow i then n - 1 else n) := by
  obtain ⟨r, hr, hsent, b, j, ev, hb, hev, hid, hlt, hend, hpending⟩ := howed
  cases hl : l.isFollow i with
  | true =>
    obtain ⟨k, rfl⟩ : ∃ k, l = .follow k := by
      cases l <;> first | exact ⟨_, rfl⟩ | cases hl
    obtain rfl : k = i := by simpa [FollowLabel.isFollow] using hl
    simp only [step, hr, hb]
    exact owed_follow h hr hsent hb hev hid hlt hend hpending
  | false =>
    obtain ⟨r', hr', hkept⟩ := kept_step h hr hsent hl
    obtain ⟨more, hmore⟩ := pushes_step w l
    refine ⟨r', hr', hkept.sent.trans hsent, b, j, ev, hkept.before.trans hb, ?_,
      hid.trans hkept.session.symm, hlt, hend, ?_⟩
    · rw [← hmore, List.getElem?_append_left (List.getElem?_eq_some_iff.1 hev).1, hev]
    · rw [pending, hkept.at_, hkept.next]
      exact hpending

/-- **Every run** with enough of its follower's steps finishes the run. -/
theorem finished_of_owed (h : Ok w) (howed : Owed w i n) {ls : List FollowLabel}
    (hn : n ≤ ls.countP (FollowLabel.isFollow i)) :
    ∃ r', (w.run ls).runs[i]? = some r' ∧ r'.status ≠ .running := by
  induction ls generalizing w n with
  | nil =>
    obtain rfl : n = 0 := by simpa using hn
    obtain ⟨r, hr, hsent, b, j, ev, hb, hev, hid, hlt, hend, hpending⟩ := howed
    have hok := h.mem hr
    refine ⟨r, hr, fun hrunning ↦ ?_⟩
    rcases hok.sent hsent with hat | hat | ⟨o, hat⟩ | hat
    · have hj : j < r.next := by simp only [pending, hat] at hpending; omega
      rw [hok.passed (.inr (.inr hat)) b hb j ev hj hev hid hlt] at hend
      cases hend
    · simp [pending, hat] at hpending
    · simp [pending, hat] at hpending
    · exact hok.running.1 hrunning hat
  | cons l ls ih =>
    refine ih (ok_step h l) (owed_step h howed l) ?_
    rw [List.countP_cons] at hn
    split <;> rename_i hl <;> simp [hl] at hn <;> omega

/-- A run whose prompt was sent stays with its session and the number it read. -/
theorem sent_step (h : Ok w) (hr : w.runs[i]? = some r) (hsent : r.sent = true) (l : FollowLabel) :
    ∃ r', (w.step l).runs[i]? = some r' ∧ r'.sent = true ∧ r'.before = r.before ∧
      r'.session = r.session := by
  cases hl : l.isFollow i with
  | false =>
    obtain ⟨r', hr', hkept⟩ := kept_step h hr hsent hl
    exact ⟨r', hr', hkept.sent.trans hsent, hkept.before, hkept.session⟩
  | true =>
    obtain ⟨k, rfl⟩ : ∃ k, l = .follow k := by
      cases l <;> first | exact ⟨_, rfl⟩ | cases hl
    obtain rfl : k = i := by simpa [FollowLabel.isFollow] using hl
    have hlen := (List.getElem?_eq_some_iff.1 hr).1
    have hset : ∀ r₁ : Run, r₁.sent = r.sent → r₁.before = r.before → r₁.session = r.session →
        ∃ r', (w.setRun k r₁).runs[k]? = some r' ∧ r'.sent = true ∧ r'.before = r.before ∧
          r'.session = r.session :=
      fun r₁ hs hb hid ↦ ⟨r₁, List.getElem?_set_self hlen, hs.trans hsent, hb, hid⟩
    have hstay : ∃ r', w.runs[k]? = some r' ∧ r'.sent = true ∧ r'.before = r.before ∧
        r'.session = r.session := ⟨r, hr, hsent, rfl, rfl⟩
    simp only [step, hr]
    split
    · simp only [follow, receive]
      split
      · repeat' split
        all_goals first | exact hstay | exact hset _ rfl rfl rfl
      · split <;> exact hset _ rfl rfl rfl
      · refine hset _ ?_ ?_ ?_ <;> unfold Run.conclude Run.finish <;> split <;> rfl
      · exact hstay
    · exact hstay

/-- A step calls the store at most once. -/
theorem store_step (w : Runner) (l : FollowLabel) :
    (w.step l).store = w.store ∨ ∃ op, (w.step l).store = w.store.step op := by
  cases l with
  | record id now e =>
    simp only [step, record]
    split
    case h_1 store ev status happend =>
      exact .inr ⟨.append id now e, by rw [Store.step, happend]; rfl⟩
    · exact .inl rfl
  | administer op =>
    simp only [step]
    split
    · exact .inl rfl
    · exact .inr ⟨op, rfl⟩
  | open_ i now id account =>
    simp only [step]
    split
    · split
      · unfold open_
        dsimp only
        split
        · repeat' split
          all_goals exact .inl rfl
        · split
          · exact .inl rfl
          case h_2 hcreate => exact .inr ⟨.createSession .., by rw [Store.step, hcreate]; rfl⟩
      · exact .inl rfl
    · exact .inl rfl
  | storePrompt i now =>
    simp only [step]
    split
    · split
      · unfold storePrompt
        split
        case h_1 happend => exact .inr ⟨.append .., by rw [Store.step, happend]; rfl⟩
        · exact .inl rfl
      · exact .inl rfl
    · exact .inl rfl
  | _ =>
    left
    simp only [step, execute, follow, receive, setRun]
    repeat' split
    all_goals rfl

theorem mem_stored_next {id : String} {ev : StoredEvent} (hev : ev ∈ w.store.stored id)
    (l : FollowLabel) : ev ∈ (w.step l).store.stored id := by
  rcases store_step w l with heq | ⟨op, heq⟩ <;> rw [heq]
  · exact hev
  · exact Store.mem_stored_of_mem hev op

/-- A run whose prompt was sent, and an event of its session, after more steps. -/
theorem sent_run (h : Ok w) (hr : w.runs[i]? = some r) (hsent : r.sent = true) {ev : StoredEvent}
    (hev : ev ∈ w.store.stored r.session) (ls : List FollowLabel) : Ok (w.run ls) ∧
      ∃ r', (w.run ls).runs[i]? = some r' ∧ r'.sent = true ∧ r'.before = r.before ∧
        r'.session = r.session ∧ ev ∈ (w.run ls).store.stored r.session := by
  induction ls generalizing w r with
  | nil => exact ⟨h, r, hr, hsent, rfl, rfl, hev⟩
  | cons l ls ih =>
    obtain ⟨r', hr', hsent', hb, hid⟩ := sent_step h hr hsent l
    have hev' := mem_stored_next hev l
    rw [← hid] at hev'
    obtain ⟨hok, r'', hr'', hsent'', hb', hid', hmem⟩ := ih (ok_step h l) hr' hsent' hev'
    exact ⟨hok, r'', hr'', hsent'', hb'.trans hb, hid'.trans hid, hid ▸ hmem⟩

/-- **A turn end that was stored and pushed** finishes the run. -/
theorem ends_of_ok (h : Ok w) (hr : w.runs[i]? = some r) (hsent : r.sent = true) {p : ℕ}
    {ev : StoredEvent} (hp : r.stored = some p) (hev : ev ∈ w.store.stored r.session)
    (hlt : p < ev.seq) (hend : (turnOutcome ev.event).isSome = true) (ls : List FollowLabel)
    (hpushed : ev ∉ (w.run ls).unpushed) :
    ∃ n, ∀ ls', n ≤ ls'.countP (FollowLabel.isFollow i) →
      ∃ r', (w.run (ls ++ ls')).runs[i]? = some r' ∧ r'.status ≠ .running := by
  have hok := h.mem hr
  obtain ⟨b, hb⟩ : ∃ b, r.before = some b := Option.ne_none_iff_exists'.1 fun hnone ↦ by
    rw [(hok.fresh hnone).1] at hp
    cases hp
  have hbp := (hok.stored_le p hp).2 b hb
  obtain ⟨hrun, r₁, hr₁, hsent₁, hb₁, hid₁, hev₁⟩ := sent_run h hr hsent hev ls
  obtain ⟨j, hj⟩ := List.mem_iff_getElem?.1 ((hrun.told _ ev hev₁).resolve_left hpushed)
  refine ⟨pending r₁ j, fun ls' hn ↦ ?_⟩
  rw [run, List.foldl_append]
  exact finished_of_owed hrun ⟨r₁, hr₁, hsent₁, b, j, ev, hb₁.trans hb, hj,
    (Store.sessionId_of_mem_stored hev₁).trans hid₁.symm, by omega, hend, le_rfl⟩ hn

end Owed

/-! ### What holds in timely runs -/

/-- The first turn end above the number the run has read is the first after its prompt. -/
structure RunSound (store : Store) (r : Run) : Prop where
  gap : r.status = .running → ∀ b, r.before = some b → r.stored = none →
    store.endAfter r.session b = none
  own : r.status = .running ∨ r.sent = true → ∀ b p, r.before = some b → r.stored = some p →
    store.endAfter r.session b = store.endAfter r.session p
  ending : ∀ o b, r.at_ = .ending o → r.before = some b → store.endAfter r.session b = some o
  final : r.sent = true → r.status ≠ .running → ∃ p o, r.stored = some p ∧
    store.endAfter r.session p = some o ∧ r.status = .ofOutcome o

/-- What holds in every state of a timely run. -/
structure Sound (w : Runner) : Prop where
  /-- At most one turn end of a session is still to be pushed. -/
  single : ∀ ev ∈ w.unpushed, ∀ ev' ∈ w.unpushed, ev.sessionId = ev'.sessionId →
    (turnOutcome ev.event).isSome = true → (turnOutcome ev'.event).isSome = true → ev = ev'
  /-- The turn ends of a session are pushed in their order. -/
  ordered : ∀ (j : ℕ) ev, w.pushes[j]? = some (.event ev) → (turnOutcome ev.event).isSome = true →
    ∀ ev' ∈ w.store.stored ev.sessionId, (turnOutcome ev'.event).isSome = true →
      ev'.seq < ev.seq → ∃ j' < j, w.pushes[j']? = some (.event ev')
  runs : ∀ r ∈ w.runs, RunSound w.store r

section Sound

variable {w : Runner} {store : Store} {pushes : List Push} {r r' : Run} {ev : StoredEvent} {i : ℕ}

/-- One more event, that is no turn end in the run's gap. -/
theorem RunSound.adds (h : RunSound w.store r) (hok : RunOk w.store pushes r)
    (hcons : w.store.Consistent) (hadds : w.store.Adds store ev)
    (hev : (turnOutcome ev.event).isSome = true → ev.sessionId = r.session → ¬ r.Gap) :
    RunSound store r := by
  have hend : ∀ {b}, b ≤ (w.store.stored r.session).length → store.endAfter r.session b =
      if ev.sessionId = r.session then
        (w.store.endAfter r.session b).or (turnOutcome ev.event)
      else w.store.endAfter r.session b := fun hb ↦ hadds.endAfter hcons hb
  -- What is found stays found.
  have hstay : ∀ {b o}, b ≤ (w.store.stored r.session).length →
      w.store.endAfter r.session b = some o → store.endAfter r.session b = some o := by
    intro b o hb ho
    rw [hend hb, ho]
    exact ite_self _
  refine ⟨fun hrunning b hb hnone ↦ ?_, fun hor b p hb hp ↦ ?_, fun o b hat hb ↦ ?_,
    fun hsent hdone ↦ ?_⟩
  · rw [hend (hok.before_le b hb), h.gap hrunning b hb hnone]
    split
    case isTrue hid =>
      cases ho : turnOutcome ev.event with
      | none => rfl
      | some o =>
        exact absurd ⟨hrunning, by rw [hb]; rfl, hnone⟩ (hev (by rw [ho]; rfl) hid)
    · rfl
  · rw [hend (hok.before_le b hb), hend (hok.stored_le p hp).1, h.own hor b p hb hp]
  · exact hstay (hok.before_le b hb) (h.ending o b hat hb)
  · obtain ⟨p, o, hp, ho, hstatus⟩ := h.final hsent hdone
    exact ⟨p, o, hp, hstay (hok.stored_le p hp).1 ho, hstatus⟩

theorem Sound.setRun (h : Sound w) (hr : RunSound w.store r) (i : ℕ) : Sound (w.setRun i r) :=
  { h with
    runs := fun r' hr' ↦ (List.mem_or_eq_of_mem_set hr').elim (h.runs r') fun heq ↦ heq ▸ hr }

theorem Sound.mem (h : Sound w) (hr : w.runs[i]? = some r) : RunSound w.store r :=
  h.runs r (List.mem_of_getElem? hr)

/-- A run whose prompt was not sent may end in any way. -/
theorem runSound_finish (hsent : r.sent = false) {status : RunStatus}
    (hstatus : status ≠ .running) (error : Option String) :
    RunSound store (r.finish status error) := by
  have hnot : ∀ {P : Prop}, r.sent = true → P := fun hs ↦ by simp [hsent] at hs
  unfold Run.finish
  split
  · exact ⟨fun heq ↦ absurd heq hstatus, fun hor ↦ hor.elim (fun heq ↦ absurd heq hstatus) hnot,
      nofun, hnot⟩
  case isFalse hdone =>
    exact ⟨fun heq ↦ absurd heq hdone, fun hor ↦ hor.elim (fun heq ↦ absurd heq hdone) hnot,
      nofun, hnot⟩

/-- A run goes on. -/
theorem RunSound.goOn (h : RunSound store r) (hsame : Same r r')
    (hending : ∀ o b, r'.at_ = .ending o → r.before = some b →
      store.endAfter r.session b = some o)
    (hsent : r'.sent = true → r.status ≠ .running → r.sent = true) : RunSound store r' := by
  obtain ⟨hsession, hbefore, hstatus, hstored, -⟩ := hsame
  refine ⟨?_, ?_, ?_, ?_⟩ <;> rw [hsession]
  · rw [hstatus, hbefore, hstored]
    exact h.gap
  · rw [hstatus, hbefore, hstored]
    refine fun hor ↦ h.own ?_
    by_cases hrunning : r.status = .running
    · exact .inl hrunning
    · exact .inr (hsent (hor.resolve_left hrunning) hrunning)
  · rw [hbefore]
    exact hending
  · rw [hstatus, hstored]
    exact fun hs hdone ↦ h.final (hsent hs hdone) hdone

theorem Sound.adds (h : Sound w) (hok : Ok w) (hadds : w.store.Adds store ev)
    (htimely : (turnOutcome ev.event).isSome = true →
      (∀ r ∈ w.runs, r.session = ev.sessionId → ¬ r.Gap) ∧
        ∀ ev' ∈ w.unpushed, ev'.sessionId = ev.sessionId → turnOutcome ev'.event = none) :
    Sound { w with store, unpushed := w.unpushed ++ [ev] } where
  single := by
    have hnew : ∀ ev' ∈ w.unpushed, ev'.sessionId = ev.sessionId →
        (turnOutcome ev'.event).isSome = true → (turnOutcome ev.event).isSome = true → False :=
      fun ev' hmem hid hend' hend ↦ by simp [(htimely hend).2 ev' hmem hid] at hend'
    intro ev₁ h₁ ev₂ h₂ hid hend₁ hend₂
    rcases List.mem_append.1 h₁ with hold₁ | hnew₁ <;>
      rcases List.mem_append.1 h₂ with hold₂ | hnew₂
    · exact h.single ev₁ hold₁ ev₂ hold₂ hid hend₁ hend₂
    · obtain rfl := List.mem_singleton.1 hnew₂
      exact (hnew ev₁ hold₁ hid hend₁ hend₂).elim
    · obtain rfl := List.mem_singleton.1 hnew₁
      exact (hnew ev₂ hold₂ hid.symm hend₂ hend₁).elim
    · rw [List.mem_singleton.1 hnew₁, List.mem_singleton.1 hnew₂]
  ordered j ev₁ hev₁ hend₁ ev₂ hev₂ hend₂ hlt := by
    rcases hadds.mem_stored_iff.1 hev₂ with hold | ⟨rfl, hid⟩
    · exact h.ordered j ev₁ hev₁ hend₁ ev₂ hold hend₂ hlt
    · have hle := hok.seq_le hev₁
      rw [hadds.seq, hid] at hlt
      omega
  runs r hr := (h.runs r hr).adds (hok.runs r hr) hok.consistent hadds fun hend hid ↦
    (htimely hend).1 r hr hid.symm

theorem endAfter_congr (h : w.store.Consistent) (h' : store.Consistent)
    (hstored : ∀ id, store.stored id = w.store.stored id) (id : String) (b : ℕ) :
    store.endAfter id b = w.store.endAfter id b := by
  rw [h'.endAfter_eq, h.endAfter_eq, hstored]

theorem Sound.of_stored (h : Sound w) (hok : Ok w) (hcons : store.Consistent)
    (hstored : ∀ id, store.stored id = w.store.stored id) : Sound { w with store } where
  single := h.single
  ordered j ev hev hend ev' hev' := by
    rw [hstored] at hev'
    exact h.ordered j ev hev hend ev' hev'
  runs r hr := by
    have hsound := h.runs r hr
    have hend := endAfter_congr hok.consistent hcons hstored r.session
    refine ⟨?_, ?_, ?_, ?_⟩ <;> simp only [hend]
    · exact hsound.gap
    · exact hsound.own
    · exact hsound.ending
    · exact hsound.final

theorem Sound.push (h : Sound w) (hok : Ok w) (hev : w.unpushed[k]? = some ev) :
    Sound { w with unpushed := w.unpushed.eraseIdx k, pushes := w.pushes ++ [.event ev] } where
  single ev₁ h₁ ev₂ h₂ :=
    h.single ev₁ (List.mem_of_mem_eraseIdx h₁) ev₂ (List.mem_of_mem_eraseIdx h₂)
  ordered j ev₁ hev₁ hend₁ ev₂ hev₂ hend₂ hlt := by
    have hmem := List.mem_of_getElem? hev
    rcases Nat.lt_or_ge j w.pushes.length with hj | hj
    · rw [List.getElem?_append_left hj] at hev₁
      obtain ⟨j', hj', hat⟩ := h.ordered j ev₁ hev₁ hend₁ ev₂ hev₂ hend₂ hlt
      exact ⟨j', hj', by rw [List.getElem?_append_left (hj'.trans hj), hat]⟩
    · obtain rfl : ev = ev₁ := by
        rw [List.getElem?_append_right hj] at hev₁
        exact (Push.event.inj (List.mem_singleton.1 (List.mem_of_getElem? hev₁))).symm
      rcases hok.told _ ev₂ hev₂ with hwaits | htold
      · obtain rfl := h.single ev hmem ev₂ hwaits (Store.sessionId_of_mem_stored hev₂).symm hend₁
          hend₂
        exact absurd hlt (lt_irrefl _)
      · obtain ⟨j', hj'⟩ := List.mem_iff_getElem?.1 htold
        have hlt' := (List.getElem?_eq_some_iff.1 hj').1
        exact ⟨j', hlt'.trans_le hj, by rw [List.getElem?_append_left hlt', hj']⟩
  runs := h.runs

theorem Sound.other (h : Sound w) : Sound { w with pushes := w.pushes ++ [.other] } where
  single := h.single
  ordered j ev₁ hev₁ hend₁ ev₂ hev₂ hend₂ hlt := by
    have hj : j < w.pushes.length := by
      by_contra hj
      rw [List.getElem?_append_right (Nat.not_lt.1 hj)] at hev₁
      simpa using List.mem_of_getElem? hev₁
    rw [List.getElem?_append_left hj] at hev₁
    obtain ⟨j', hj', hat⟩ := h.ordered j ev₁ hev₁ hend₁ ev₂ hev₂ hend₂ hlt
    exact ⟨j', hj', by rw [List.getElem?_append_left (hj'.trans hj), hat]⟩
  runs := h.runs

theorem Sound.storePrompt (h : Sound w) (hok : Ok w) (hr : w.runs[i]? = some r)
    (hqueued : r.queued = true) (now : ℕ) : Sound (w.storePrompt i r now) := by
  have hrun := hok.mem hr
  have hsound := h.mem hr
  have hnone := hrun.once hqueued
  -- Its status is still open, or its prompt would be stored.
  have hrunning : r.status = .running ∨ r.sent = true → r.status = .running := by
    rintro (hrunning | hsent)
    · exact hrunning
    · by_contra hdone
      obtain ⟨p, -, hp, -⟩ := hsound.final hsent hdone
      rw [hnone] at hp
      cases hp
  unfold Runner.storePrompt
  split
  case h_1 store' ev status happend =>
    obtain ⟨hadds, hid, hev⟩ := hok.consistent.adds happend
    have hno : turnOutcome ev.event = none := by rw [hev]; rfl
    have h' := h.adds hok hadds fun hend ↦ by simp [hno] at hend
    have hend : ∀ {b}, b ≤ (w.store.stored r.session).length →
        store'.endAfter r.session b = w.store.endAfter r.session b := by
      intro b hb
      rw [hadds.endAfter hok.consistent hb, hno, Option.or_none]
      exact ite_self _
    refine h'.setRun ?_ i
    refine ⟨fun _ _ _ ↦ nofun, fun hor b p hb hp ↦ ?_, fun o b hat hb ↦ ?_, fun hsent hdone ↦ ?_⟩
    · obtain rfl : ev.seq = p := Option.some.inj hp
      have hlen : (store'.stored r.session).length ≤ ev.seq := by
        rw [hadds.stored, if_pos hid, List.length_append, hadds.seq, hid]
        exact le_rfl
      show store'.endAfter r.session b = store'.endAfter r.session ev.seq
      rw [hend (hrun.before_le b hb), hsound.gap (hrunning hor) b hb hnone,
        hadds.consistent.endAfter_eq, List.drop_eq_nil_of_le hlen, List.findSome?_nil]
    · exact (hend (hrun.before_le b hb)).trans (hsound.ending o b hat hb)
    · exact absurd (hrunning (.inr hsent)) hdone
  · refine h.setRun ?_ i
    exact ⟨hsound.gap, hsound.own, hsound.ending, hsound.final⟩

/-- A run that has just read the last number of its session. -/
theorem runSound_begin (hcons : store.Consistent) {id : String}
    (hlen : (store.stored id).length ≤ b) (hstored : r.stored = none) (hsent : r.sent = false) :
    RunSound store { r with session := id, at_ := .sending, before := some b } := by
  refine ⟨fun _ b' hb _ ↦ ?_, fun _ b' p _ hp ↦ ?_, nofun, fun hs ↦ ?_⟩
  · obtain rfl := Option.some.inj hb
    show store.endAfter id b = none
    rw [hcons.endAfter_eq, List.drop_eq_nil_of_le hlen, List.findSome?_nil]
  · exact absurd (hstored.symm.trans hp) nofun
  · exact absurd (hsent.symm.trans hs) Bool.false_ne_true

/-- A run whose prompt is not posted was not sent. -/
theorem RunOk.unsent (h : RunOk store pushes r)
    (hat : r.at_ = .starting ∨ r.at_ = .sending ∨ r.at_ = .posted) : r.sent = false := by
  refine Bool.eq_false_iff.2 fun hsent ↦ ?_
  have hwhere := h.sent hsent
  rcases hat with hat | hat | hat <;> simp [hat] at hwhere

theorem Sound.open_ (h : Sound w) (hok : Ok w) (hr : w.runs[i]? = some r)
    (hat : r.at_ = .starting) (now : ℕ) (id : String) (account : Option (String × String)) :
    Sound (w.open_ i r now id account) := by
  have hrun := hok.mem hr
  have hsent := hrun.unsent (.inl hat)
  rcases open_cases hok.consistent i r now id account with
    ⟨status, error, hstatus, heq⟩ | ⟨store, session, b, hcons, hstored, hb, heq⟩ <;> rw [heq]
  · exact h.setRun (runSound_finish hsent hstatus error) i
  · exact (h.of_stored hok hcons hstored).setRun
      (runSound_begin hcons hb.le (hrun.fresh (hrun.start hat)).1 hsent) i

/-- **The first push** of a turn end above the number is that of the first one. -/
theorem endAfter_of_push (h : Sound w) (hok : Ok w) (hr : w.runs[i]? = some r)
    (hb : r.before = some b) (hat : r.at_ = .receiving)
    (hev : w.pushes[r.next]? = some (.event ev)) (hid : ev.sessionId = r.session)
    (hlt : b < ev.seq) (ho : turnOutcome ev.event = some o) :
    w.store.endAfter r.session b = some o := by
  have hend : (turnOutcome ev.event).isSome = true := by rw [ho]; rfl
  have hmem := hok.known ev (.inr (List.mem_of_getElem? hev))
  obtain ⟨first, hfirst, hbfirst, hle, hfirstend, heq⟩ :=
    hok.consistent.exists_endAfter hmem hlt hend
  rcases Nat.lt_or_eq_of_le hle with hless | hsame
  · -- An earlier one was received before.
    obtain ⟨j, hj, hjev⟩ := h.ordered r.next ev hev hend first hfirst hfirstend hless
    have hpassed := (hok.mem hr).passed (.inr (.inr hat)) b hb j first hj hjev
      ((Store.sessionId_of_mem_stored hfirst).trans hid) hbfirst
    rw [hpassed] at hfirstend
    cases hfirstend
  · obtain rfl := hok.consistent.eq_of_seq hfirst hmem hsame
    rw [← hid, heq, ho]

theorem Sound.receive (h : Sound w) (hok : Ok w) (hr : w.runs[i]? = some r) (hb : r.before = some b)
    (hat : r.at_ = .receiving) : Sound (w.receive i r b) := by
  have hsound := h.mem hr
  have hnext : Sound (w.setRun i { r with next := r.next + 1 }) := by
    refine h.setRun ?_ i
    exact hsound.goOn ⟨rfl, rfl, rfl, rfl, rfl⟩ hsound.ending fun hs _ ↦ hs
  unfold Runner.receive
  split
  · refine h.setRun ?_ i
    exact hsound.goOn ⟨rfl, rfl, rfl, rfl, rfl⟩ nofun fun hs _ ↦ hs
  · split
    · exact h
    · exact hnext
    case h_3 ev hev =>
      split
      case isTrue hmatch =>
        split
        case h_1 o ho =>
          refine h.setRun ?_ i
          refine hsound.goOn ⟨rfl, rfl, rfl, rfl, rfl⟩ (fun o' b' heq hb' ↦ ?_) fun hs _ ↦ hs
          obtain rfl := Option.some.inj (hb.symm.trans hb')
          obtain rfl := RunAt.ending.inj heq
          exact endAfter_of_push h hok hr hb hat hev hmatch.1 hmatch.2 ho
        · exact hnext
      · exact hnext

/-- **The end of a run** is that of its own turn. -/
theorem runSound_conclude (h : RunSound store r) (hok : RunOk store pushes r)
    (hb : r.before = some b) (hat : r.at_ = .ending o) :
    RunSound store (r.conclude o) := by
  have hrunning : r.status = .running := hok.running.2 (by rw [hat]; nofun)
  have hend := h.ending o b hat hb
  obtain ⟨p, hp⟩ : ∃ p, r.stored = some p := Option.ne_none_iff_exists'.1 fun hnone ↦ by
    rw [h.gap hrunning b hb hnone] at hend
    cases hend
  have hown := h.own (.inl hrunning)
  unfold Run.conclude Run.finish
  rw [if_pos hrunning]
  exact ⟨fun heq ↦ absurd heq (ofOutcome_ne_running o), fun _ ↦ hown, nofun,
    fun _ _ ↦ ⟨p, o, hp, (hown b p hb hp).symm.trans hend, rfl⟩⟩

theorem Sound.follow (h : Sound w) (hok : Ok w) (hr : w.runs[i]? = some r)
    (hb : r.before = some b) : Sound (w.follow i r b) := by
  have hsound := h.mem hr
  unfold Runner.follow
  split
  case h_1 hat => exact h.receive hok hr hb hat
  case h_2 hat =>
    split
    case h_1 o ho =>
      refine h.setRun ?_ i
      refine hsound.goOn ⟨rfl, rfl, rfl, rfl, rfl⟩ (fun o' b' heq hb' ↦ ?_) fun hs _ ↦ hs
      obtain rfl := Option.some.inj (hb.symm.trans hb')
      obtain rfl := RunAt.ending.inj heq
      exact ho
    · refine h.setRun ?_ i
      exact hsound.goOn ⟨rfl, rfl, rfl, rfl, rfl⟩ nofun fun hs _ ↦ hs
  case h_3 o hat => exact h.setRun (runSound_conclude hsound (hok.mem hr) hb hat) i
  · exact h

/-- **One timely step.** -/
theorem sound_step (h : Sound w) (hok : Ok w) {l : FollowLabel} (htimely : w.Timely l) :
    Sound (w.step l) := by
  cases l with simp only [step]
  | execute schedule runId =>
    refine { h with runs := fun r hr ↦ (List.mem_append.1 hr).elim (h.runs r) fun hnew ↦ ?_ }
    obtain rfl := List.mem_singleton.1 hnew
    exact ⟨by simp, by simp, by simp, by simp⟩
  | open_ i now id account =>
    split
    case h_1 r hr =>
      split
      case isTrue hat => exact h.open_ hok hr hat now id account
      · exact h
    · exact h
  | post i =>
    split
    case h_1 r hr =>
      split
      · refine h.setRun ?_ i
        exact (h.mem hr).goOn ⟨rfl, rfl, rfl, rfl, rfl⟩ (by simp) fun hs _ ↦ hs
      · exact h
    · exact h
  | storePrompt i now =>
    split
    case h_1 r hr =>
      split
      case isTrue hqueued => exact h.storePrompt hok hr hqueued now
      · exact h
    · exact h
  | sent i =>
    split
    case h_1 r hr =>
      split
      case isTrue hat =>
        have hrunning : r.status = .running := (hok.mem hr).running.2 (by rw [hat]; simp)
        refine h.setRun ?_ i
        exact (h.mem hr).goOn ⟨rfl, rfl, rfl, rfl, rfl⟩ (by simp) fun _ hdone ↦ absurd hrunning hdone
      · exact h
    · exact h
  | fail i why =>
    split
    case h_1 r hr =>
      split
      case isTrue hat =>
        exact h.setRun (runSound_finish ((hok.mem hr).unsent (.inr hat))
          (show RunStatus.failed ≠ .running by decide) _) i
      · exact h
    · exact h
  | follow i =>
    split
    case h_1 r hr =>
      split
      case h_1 b hb => exact h.follow hok hr hb
      · exact h
    · exact h
  | record id now e =>
    show Sound (w.record id now e)
    unfold record
    split
    case h_1 store ev status happend =>
      obtain ⟨hadds, hid, hev⟩ := hok.consistent.adds happend
      refine h.adds hok hadds fun hend ↦ ?_
      rw [hev] at hend
      rw [hid]
      exact htimely hend
    · exact h
  | administer op =>
    split
    · exact h
    case h_2 hop =>
      exact h.of_stored hok (hok.consistent.step op)
        (Store.stored_step op fun id now e heq ↦ hop id now e heq)
  | push k =>
    split
    case h_1 ev hev => exact h.push hok hev
    · exact h
  | other => exact h.other

end Sound

theorem sound_empty : Sound empty where
  single ev hev := by simp [empty] at hev
  ordered j ev hev := by simp [empty] at hev
  runs r hr := by simp [empty] at hr

/-- The runs of the system. -/
def system : StepSystem Runner FollowLabel := .ofFun empty step

/-- **A run is finished once, by the end of its own turn.** In every run of the system whose steps
are timely. -/
theorem followed_of_reachable {w : Runner} (hw : (system.restrict Timely).Reachable w) {i : ℕ}
    {r : Run} (hr : w.runs[i]? = some r) (hsent : r.sent = true) : Followed w i r := by
  obtain ⟨hok, hsound⟩ : Ok w ∧ Sound w :=
    hw.invariant (I := fun w ↦ Ok w ∧ Sound w)
      (fun s hs ↦ by obtain rfl := hs; exact ⟨ok_empty, sound_empty⟩)
      fun s l t _ hs hstep ↦ by
        obtain ⟨htimely, rfl⟩ := hstep
        exact ⟨ok_step hs.1 l, sound_step hs.2 hs.1 htimely⟩
  have hcounted := (hok.mem hr).counted
  refine ⟨(hsound.mem hr).final hsent, ?_, fun p ev hp hev hlt hend ls hpushed ↦
    ends_of_ok hok hr hsent hp hev hlt hend ls hpushed⟩
  rw [hcounted]
  split <;> omega

/-- A schedule that goes on in a session. -/
def nightly : Prompting := ⟨"sch", "p", .scripted, none, "Check the build.", .continue_ "s"⟩

/-- There is a session, and a run of the schedule reads its last number. -/
def opening : List FollowLabel :=
  [.administer (.createSession "s" 0 "p" .scripted "/work" none "Build" none),
    .execute nightly "run", .open_ 0 1 "" none]

/-- Its prompt is stored and the send succeeds. -/
def sending : List FollowLabel := [.post 0, .storePrompt 0 2, .sent 0]

/-- A turn ends in the session. -/
def endTurn (outcome : TurnOutcome) : FollowLabel := .record "s" 3 (.turnEnded outcome)

/-- Two pushes reach the follower, and it acts on them. -/
def following : List FollowLabel := [.push 0, .push 0, .follow 0, .follow 0, .follow 0]

/-- A run whose turn completes is completed, and so was the first turn after its prompt. -/
theorem followed_nightly :
    ∃ r, (empty.run (opening ++ sending ++ [endTurn .completed] ++ following)).runs[0]? = some r ∧
      r.status = .completed ∧ r.finished ≤ 1 := by
  have hstart : (system.restrict Timely).Reachable empty := .start rfl
  have hreach : (system.restrict Timely).Reachable
      (empty.run (opening ++ sending ++ [endTurn .completed] ++ following)) :=
    StepSystem.Reachable.foldl_of_allMeet (fun _ _ ↦ rfl) hstart (by decide +kernel)
  have hstatus : ((empty.run (opening ++ sending ++ [endTurn .completed] ++
      following)).runs[0]?).map (fun r ↦ (r.status, r.sent)) = some (.completed, true) := by
    decide +kernel
  obtain ⟨r, hr, heq⟩ := Option.map_eq_some_iff.1 hstatus
  obtain ⟨hdone, hsent⟩ := Prod.mk.inj heq
  exact ⟨r, hr, hdone, (followed_of_reachable hreach hr hsent).once⟩

/-- **The end of another turn is taken for that of the run.** The user's message is answered between
the read of the last number and the prompt; the turn fails, and so does the run, while its own turn
has not ended. -/
theorem not_followed : ∃ r, (empty.run (opening ++ [.record "s" 1 (.userMessage "Hello?"),
      endTurn .failed] ++ sending ++ following)).runs[0]? = some r ∧
    r.sent = true ∧ r.status = .failed ∧ r.stored = some 3 ∧
      ¬ Followed (empty.run (opening ++ [.record "s" 1 (.userMessage "Hello?"),
        endTurn .failed] ++ sending ++ following)) 0 r := by
  have hrun : ((empty.run (opening ++ [.record "s" 1 (.userMessage "Hello?"),
      endTurn .failed] ++ sending ++ following)).runs[0]?).map
        (fun r ↦ (r.sent, r.status, r.stored, r.session)) = some (true, .failed, some 3, "s") := by
    decide +kernel
  have hopen : (empty.run (opening ++ [.record "s" 1 (.userMessage "Hello?"),
      endTurn .failed] ++ sending ++ following)).store.endAfter "s" 3 = none := by decide +kernel
  obtain ⟨r, hr, heq⟩ := Option.map_eq_some_iff.1 hrun
  obtain ⟨hsent, hstatus, hstored, hsession⟩ : _ ∧ _ ∧ _ ∧ _ := by simpa using heq
  refine ⟨r, hr, hsent, hstatus, hstored, fun h ↦ ?_⟩
  obtain ⟨p, o, hp, ho, -⟩ := h.outcome (by rw [hstatus]; nofun)
  obtain rfl := Option.some.inj (hstored.symm.trans hp)
  rw [hsession, hopen] at ho
  cases ho

end Runner

end Schedules

end Ember.Server
