import Ember.Collab.Manager
import Ember.Foundation.Runs

/-!
# A mirror of the manager's document

A client starts from a snapshot, is told every event from the snapshot's `seq` on in order, perhaps
some of them again, and gets the answers to its own requests at any moment. `Mirror` is what such a
client does with them, `Care` what each of these moments asks of the client's state for this to go
well, and `Mirror.Lawful` that it does go well then.

`inStep_of_run` is the one induction: in a run whose steps all meet `Fair`, the mirror shows the
document as it was after the events applied, or is ahead of them by the one event whose answer came
first. Hence, once every event has been applied, it shows the manager's cells (`cells_of_run`).
-/

namespace Ember.Collab

open Ember.Intellij

/-- A `Document` snapshot. -/
structure Snapshot where
  cells : List DocCell
  docVersion : ℕ
  seq : ℕ

/-- `snapshot`: its `seq` is the number of the next event. -/
def Manager.snapshot (m : Manager) : Snapshot := ⟨m.cells, m.docVersion, m.events.length + 1⟩

/-- What a client does with what it is told. -/
structure Mirror (σ : Type) where
  load : Snapshot → σ
  /-- An event with its number. -/
  apply : σ → ℕ → Event → σ
  answered : σ → Answer → σ
  cells : σ → List DocCell

/-- What has to hold of the client's state. -/
structure Care (σ : Type) where
  /-- When it is told the next event. -/
  next : σ → ℕ → Event → Prop
  /-- When it is told an event again. -/
  again : σ → ℕ → Event → Prop
  /-- When an answer comes that is not newer than the events applied. -/
  late : σ → Answer → Prop

/-- An answer under way. -/
structure Sent where
  /-- The number of events when it was given, with its own. -/
  time : ℕ
  /-- The request had an event. -/
  own : Bool
  answer : Answer

/-- The manager, a client, and what is under way to it. -/
structure World (σ : Type) where
  manager : Manager
  /-- How many events have been applied. -/
  applied : ℕ
  answers : List Sent
  mirror : σ

/-- What may happen. -/
inductive Act
  /-- A request of the client's or of another's. -/
  | request (mine : Bool) (request : Request)
  /-- The next event reaches the client. -/
  | event
  /-- An event reaches the client again. -/
  | replay (k : ℕ)
  | answer (i : ℕ)
  /-- The client reads a snapshot. -/
  | snapshot

section World

variable {σ : Type} (sha256 : String → String) (M : Mirror σ)

/-- What happens then. -/
def World.step (w : World σ) : Act → World σ
  | .request mine r =>
    let out := w.manager.handle sha256 r
    let sent : Sent := ⟨out.1.events.length, out.1.events.length != w.manager.events.length, out.2⟩
    { w with manager := out.1, answers := if mine then w.answers ++ [sent] else w.answers }
  | .event =>
    match w.manager.events[w.applied]? with
    | some e => { w with mirror := M.apply w.mirror (w.applied + 1) e, applied := w.applied + 1 }
    | none => w
  | .replay k =>
    match (w.manager.events.take w.applied)[k]? with
    | some e => { w with mirror := M.apply w.mirror (k + 1) e }
    | none => w
  | .answer i =>
    match w.answers[i]? with
    | some a => { w with mirror := M.answered w.mirror a.answer, answers := w.answers.eraseIdx i }
    | none => w
  | .snapshot =>
    { w with mirror := M.load w.manager.snapshot, applied := w.manager.events.length }

/-- It starts from a snapshot. -/
def World.start (m : Manager) : World σ := ⟨m, 0, [], M.load m.snapshot⟩

/-- The runs from a first state of the manager. -/
def Mirror.system (m : Manager) : StepSystem (World σ) Act :=
  .ofFun (.start M m) (World.step sha256 M)

/-- An answer overtakes no event about the document but its own. -/
def World.Overtakes (w : World σ) (a : Sent) : Prop :=
  w.applied < a.time ∧ a.own = true ∧
    ∀ k, w.applied ≤ k → k + 1 < a.time → w.manager.events[k]? = some .other

/-- The steps that go well. -/
def World.Fair (C : Care σ) (w : World σ) : Act → Prop
  | .event => ∀ e, w.manager.events[w.applied]? = some e → C.next w.mirror (w.applied + 1) e
  | .replay k => ∀ e, (w.manager.events.take w.applied)[k]? = some e → C.again w.mirror (k + 1) e
  | .answer i => ∀ a, w.answers[i]? = some a →
      (a.time ≤ w.applied ∧ C.late w.mirror a.answer) ∨ w.Overtakes a
  | _ => True

end World

/-! ### What a lawful mirror does -/

/-- An answer that says nothing new about these cells. -/
def Old (cells : List DocCell) : Answer → Prop
  | .cell c | .moved c _ | .conflict _ c => ∀ x ∈ cells, x.cellId = c.cellId →
      c.version ≤ x.version ∧ (c.version = x.version → bare c = bare x)
  | .gone cellId => ∀ x ∈ cells, x.cellId ≠ cellId
  | .refused => True

/-- The cells after the answer that overtakes an event: those after the event, but that a cell moved
may be elsewhere. -/
def Ahead (doc : List DocCell) (e : Event) (cells : List DocCell) : Prop :=
  cells = e.on doc ∨ ∃ v c, e = .moved v c ∧ Good cells ∧
    (others cells c.cellId).map bare = (others doc c.cellId).map bare ∧ ∃ x ∈ cells, bare x = bare c

/-- A mirror does what it is for. `marks s m v`: its state is right for the first `m` events and the
`doc_version` after them. -/
structure Mirror.Lawful {σ : Type} (M : Mirror σ) (C : Care σ) (marks : σ → ℕ → ℕ → Prop) :
    Prop where
  load : ∀ {cells : List DocCell} (v n : ℕ), Good cells →
    M.cells (M.load ⟨cells, v, n + 1⟩) = cells ∧ marks (M.load ⟨cells, v, n + 1⟩) n v
  next : ∀ {s : σ} {doc : List DocCell} {e : Event} {m v : ℕ}, Good doc → e.Fits doc v →
    marks s m v → C.next s (m + 1) e → (M.cells s = doc ∨ Ahead doc e (M.cells s)) →
    M.cells (M.apply s (m + 1) e) = e.on doc ∧ marks (M.apply s (m + 1) e) (m + 1) (e.version v)
  other : ∀ {s : σ} {m v : ℕ}, marks s m v → M.cells (M.apply s (m + 1) .other) = M.cells s ∧
    marks (M.apply s (m + 1) .other) (m + 1) v
  again : ∀ {s : σ} {doc : List DocCell} {e : Event} {k m v v' : ℕ}, marks s m v → k < m →
    e.Fits doc v' → e.version v' ≤ v → C.again s (k + 1) e →
    M.cells (M.apply s (k + 1) e) = M.cells s ∧ marks (M.apply s (k + 1) e) m v
  early : ∀ {s : σ} {doc : List DocCell} {e : Event} {v : ℕ} {a : Answer}, Good doc →
    e.Fits doc v → e.ofCells = true → e.Answers doc a →
    (M.cells s = doc ∨ Ahead doc e (M.cells s)) → Ahead doc e (M.cells (M.answered s a))
  late : ∀ {s : σ} {a : Answer}, Good (M.cells s) → Old (M.cells s) a → C.late s a →
    M.cells (M.answered s a) = M.cells s
  refused : ∀ {s : σ}, M.cells (M.answered s .refused) = M.cells s
  answered : ∀ {s : σ} {a : Answer} {m v : ℕ}, marks s m v → marks (M.answered s a) m v

/-! ### In step -/

variable {doc : List DocCell} {e : Event} {c : DocCell}

/-- The cell an event brings stands where it says. -/
theorem Event.getElem?_on {v v' : ℕ} (hdoc : Good doc) (hfits : e.Fits doc v)
    (he : e = .created v' c ∨ e = .updated v' c ∨ e = .moved v' c) :
    (e.on doc)[c.index]? = some c := by
  have hplace : ∀ {cells : List DocCell}, c.index ≤ cells.length →
      (renumber (cells.placeAt c.index c))[c.index]? = some c := by
    intro cells hle
    have hlen : (cells.take c.index).length = c.index := by rw [List.length_take, min_eq_left hle]
    have hget : (cells.placeAt c.index c)[c.index]? = some c := by
      rw [List.placeAt, List.getElem?_append_right hlen.le, hlen, Nat.sub_self]
      rfl
    rw [getElem?_renumber, hget]
    rfl
  rcases he with rfl | rfl | rfl
  · exact hplace hfits.2.1
  · obtain ⟨x, hx, hid, hindex, -⟩ := hfits.2
    obtain ⟨i, hi⟩ := List.mem_iff_getElem?.1 hx
    rw [Event.on, List.getElem?_map, ← hindex, hdoc.numbered i x hi, hi, Option.map_some, if_pos hid]
  · obtain ⟨-, hlt, x, hx, hid, -⟩ := hfits
    have hlen := hdoc.length_others hx
    rw [hid] at hlen
    exact hplace (by omega)

theorem Event.mem_on_of_brings {v v' : ℕ} (hdoc : Good doc) (hfits : e.Fits doc v)
    (he : e = .created v' c ∨ e = .updated v' c ∨ e = .moved v' c) : c ∈ e.on doc :=
  List.mem_of_getElem? (Event.getElem?_on hdoc hfits he)

variable {cells : List DocCell}

/-- The cells after an answer that overtakes an event hold what there is after the event. -/
theorem Ahead.spec {v : ℕ} (h : Ahead doc e cells) (hdoc : Good doc) (hfits : e.Fits doc v) :
    Good cells ∧ ∀ y ∈ cells, ∃ z ∈ e.on doc, bare z = bare y := by
  rcases h with rfl | ⟨v', c, rfl, hgood, hothers, x, hx, hxc⟩
  · exact ⟨e.good_on hdoc hfits, fun y hy ↦ ⟨y, hy, rfl⟩⟩
  · refine ⟨hgood, fun y hy ↦ ?_⟩
    by_cases hid : y.cellId = c.cellId
    · obtain rfl := hgood.eq_of_cellId hy hx (hid.trans (cellId_of_bare hxc).symm)
      exact ⟨c, Event.mem_on_of_brings hdoc hfits (.inr (.inr rfl)), hxc.symm⟩
    · have hmem : bare y ∈ (others cells c.cellId).map bare :=
        List.mem_map_of_mem (mem_others.2 ⟨hy, hid⟩)
      have hmem' : bare y ∈ (Event.on doc (.moved v' c)).map bare := by
        rw [Event.on, map_bare_renumber, List.map_placeAt, List.mem_placeAt, ← hothers]
        exact .inr hmem
      exact List.mem_map.1 hmem'

section Shows

variable {start : Manager} {events : List Event}

/-- The answers under way are about the events so far. -/
def Sent.Of (start : Manager) (events : List Event) (a : Sent) : Prop :=
  a.time ≤ events.length ∧
    ((∃ k e, a.time = k + 1 ∧ events[k]? = some e ∧ e.Answers (docAt start events k) a.answer) ∨
      (a.own = false ∧ (a.answer = .refused ∨
        ∃ deletes, ∃ c ∈ docAt start events a.time, a.answer = .conflict deletes c)))

/-- Cells as after the first so many events, or ahead by the next one that is about the document. -/
def Shows (start : Manager) (events : List Event) (m : ℕ) (cells : List DocCell) : Prop :=
  cells = docAt start events m ∨ ∃ t e, m ≤ t ∧ events[t]? = some e ∧ e.ofCells = true ∧
    (∀ k, m ≤ k → k < t → events[k]? = some .other) ∧ Ahead (docAt start events t) e cells

theorem docAt_of_other {m t : ℕ} (hmt : m ≤ t)
    (hother : ∀ k, m ≤ k → k < t → events[k]? = some .other) :
    docAt start events t = docAt start events m := by
  induction t, hmt using Nat.le_induction with
  | base => rfl
  | succ t hmt ih =>
    rw [docAt_succ (hother t hmt (Nat.lt_succ_self t))]
    exact ih fun k hk hkt ↦ hother k hk (hkt.trans (Nat.lt_succ_self t))

theorem Shows.append {m : ℕ} (h : Shows start events m cells) (hm : m ≤ events.length)
    (more : List Event) : Shows start (events ++ more) m cells := by
  rcases h with rfl | ⟨t, e, hmt, he, hofCells, hother, hahead⟩
  · exact .inl (docAt_append hm more).symm
  · have ht := (List.getElem?_eq_some_iff.1 he).1
    have hget : ∀ k, k < events.length → (events ++ more)[k]? = events[k]? := fun k hk ↦
      List.getElem?_append_left hk
    refine .inr ⟨t, e, hmt, (hget t ht).trans he, hofCells, fun k hk hkt ↦ ?_, ?_⟩
    · rw [hget k (hkt.trans ht)]
      exact hother k hk hkt
    · rwa [docAt_append ht.le]

theorem Sent.Of.append {a : Sent} (h : a.Of start events) (more : List Event) :
    a.Of start (events ++ more) := by
  obtain ⟨htime, ⟨k, e, hk, he, hanswers⟩ | ⟨hown, hcases⟩⟩ := h
  · have hlt := (List.getElem?_eq_some_iff.1 he).1
    refine ⟨htime.trans (by simp), .inl ⟨k, e, hk, ?_, ?_⟩⟩
    · rw [List.getElem?_append_left hlt, he]
    · rwa [docAt_append hlt.le]
  · refine ⟨htime.trans (by simp), .inr ⟨hown, ?_⟩⟩
    rwa [docAt_append htime]

/-- What is shown holds what the document held after the events applied, or a later one. -/
theorem Shows.spec {m : ℕ} (h : Shows start events m cells) (htells : Tells start events)
    (hm : m ≤ events.length) :
    Good cells ∧ ∃ k, m ≤ k ∧ k ≤ events.length ∧
      ∀ y ∈ cells, ∃ z ∈ docAt start events k, bare z = bare y := by
  rcases h with rfl | ⟨t, e, hmt, he, -, -, hahead⟩
  · exact ⟨htells.goodAt hm, m, le_rfl, hm, fun y hy ↦ ⟨y, hy, rfl⟩⟩
  · have ht := (List.getElem?_eq_some_iff.1 he).1
    obtain ⟨hgood, hholds⟩ := hahead.spec (htells.goodAt ht.le) (htells.fits t e he)
    exact ⟨hgood, t + 1, by omega, ht, by rwa [docAt_succ he]⟩

/-- **An answer that is not newer than the cells says nothing new about them.** -/
theorem Sent.Of.old {a : Sent} (h : a.Of start events) (htells : Tells start events) {k : ℕ}
    (hak : a.time ≤ k) (hk : k ≤ events.length)
    (hcells : ∀ y ∈ cells, ∃ z ∈ docAt start events k, bare z = bare y) : Old cells a.answer := by
  -- a cell that was in the document at the time
  have hcell : ∀ {j : ℕ} {c : DocCell}, j ≤ k → c ∈ docAt start events j → ∀ x ∈ cells,
      x.cellId = c.cellId → c.version ≤ x.version ∧ (c.version = x.version → bare c = bare x) := by
    intro j c hj hc x hx hid
    obtain ⟨z, hz, hzx⟩ := hcells x hx
    obtain ⟨hle, heq⟩ := htells.grows hj hk hc hz (hid.symm.trans (cellId_of_bare hzx).symm)
    rw [version_of_bare hzx] at hle heq
    exact ⟨hle, fun hsame ↦ (heq hsame).trans hzx⟩
  obtain ⟨htime, ⟨j, e, hj, he, hanswers⟩ | ⟨-, hrefused | ⟨deletes, c, hc, hconflict⟩⟩⟩ := h
  · have hbrings : ∀ v c, e = .created v c ∨ e = .updated v c ∨ e = .moved v c → ∀ x ∈ cells,
        x.cellId = c.cellId → c.version ≤ x.version ∧ (c.version = x.version → bare c = bare x) := by
      intro v c hec x hx hid
      have hjlt := (List.getElem?_eq_some_iff.1 he).1
      have hc := Event.mem_on_of_brings (htells.goodAt hjlt.le) (htells.fits j e he) hec
      rw [← docAt_succ he] at hc
      exact hcell (by omega : j + 1 ≤ k) hc x hx hid
    cases e with
    | created v c =>
      cases ha : a.answer <;> rw [ha] at hanswers
      case cell c' =>
        obtain rfl : c' = c := hanswers
        exact hbrings v c' (.inl rfl)
      all_goals exact hanswers.elim
    | updated v c =>
      cases ha : a.answer <;> rw [ha] at hanswers
      case cell c' =>
        obtain rfl : c' = c := hanswers
        exact hbrings v c' (.inr (.inl rfl))
      all_goals exact hanswers.elim
    | deleted v cellId =>
      cases ha : a.answer <;> rw [ha] at hanswers
      case gone cellId' =>
        obtain rfl : cellId' = cellId := hanswers
        obtain ⟨-, x, hx, rfl⟩ := htells.fits j _ he
        intro y hy
        obtain ⟨z, hz, hzy⟩ := hcells y hy
        rw [← cellId_of_bare hzy]
        refine htells.gone (Nat.le_succ j) (by omega) hk hx (fun w hw ↦ ?_) z hz
        rw [docAt_succ he] at hw
        obtain ⟨w', hw', heq⟩ := mem_renumber hw
        exact (cellId_of_bare heq) ▸ (mem_others.1 hw').2
      all_goals exact hanswers.elim
    | moved v c =>
      cases ha : a.answer <;> rw [ha] at hanswers
      case moved c' toIndex =>
        obtain rfl : c' = c := hanswers.1
        exact hbrings v c' (.inr (.inr rfl))
      all_goals exact hanswers.elim
    | other =>
      cases ha : a.answer <;> rw [ha] at hanswers
      case refused => trivial
      all_goals exact hanswers.elim
  · rw [hrefused]
    trivial
  · rw [hconflict]
    exact hcell hak hc

end Shows

/-! ### Runs -/

section Runs

variable {σ : Type} {sha256 : String → String} {M : Mirror σ} {C : Care σ} {marks : σ → ℕ → ℕ → Prop}
  {start : Manager} {w : World σ}

/-- The mirror is in step with the events applied. -/
structure InStep (M : Mirror σ) (marks : σ → ℕ → ℕ → Prop) (start : Manager) (w : World σ) :
    Prop where
  manager : w.manager.Sound start
  le : w.applied ≤ w.manager.events.length
  marks : marks w.mirror w.applied (versionAt start w.manager.events w.applied)
  shows : Shows start w.manager.events w.applied (M.cells w.mirror)
  answers : ∀ a ∈ w.answers, a.Of start w.manager.events

theorem Manager.Sound.good {m : Manager} (h : m.Sound start) : Good m.cells :=
  h.cells ▸ h.tells.goodAt le_rfl

theorem InStep.load (hM : M.Lawful C marks) {m : Manager} (h : m.Sound start) {answers : List Sent}
    (hanswers : ∀ a ∈ answers, a.Of start m.events) :
    InStep M marks start ⟨m, m.events.length, answers, M.load m.snapshot⟩ := by
  obtain ⟨hcells, hmarks⟩ := hM.load m.docVersion m.events.length h.good
  exact ⟨h, le_rfl, h.version ▸ hmarks, .inl (hcells.trans h.cells), hanswers⟩

/-- A request changes the manager only, and what is said about it is true. -/
theorem InStep.request (h : InStep M marks start w) (mine : Bool) (r : Request) :
    InStep M marks start (w.step sha256 M (.request mine r)) := by
  have hsent : ∀ {m' : Manager} {sent : Sent}, (∀ a ∈ w.answers, a.Of start m'.events) →
      sent.Of start m'.events →
      ∀ a ∈ (if mine then w.answers ++ [sent] else w.answers), a.Of start m'.events := by
    intro m' sent hanswers hsent a ha
    split at ha
    · rcases List.mem_append.1 ha with ha | ha
      · exact hanswers a ha
      · exact List.mem_singleton.1 ha ▸ hsent
    · exact hanswers a ha
  rw [World.step]
  obtain ⟨hsame, hanswer⟩ | ⟨hsound, e, hevents, hanswers⟩ :=
    h.manager.handle sha256 h.manager.good r
  · rw [hsame]
    refine ⟨h.manager, h.le, h.marks, h.shows, hsent h.answers ⟨le_rfl, .inr ⟨by simp, ?_⟩⟩⟩
    exact hanswer.imp_right fun ⟨deletes, c, hc, hconflict⟩ ↦
      ⟨deletes, c, h.manager.cells ▸ hc, hconflict⟩
  · have hlen : (w.manager.handle sha256 r).1.events.length = w.manager.events.length + 1 := by
      rw [hevents, List.length_append]
      rfl
    refine ⟨hsound, h.le.trans (by rw [hlen]; exact Nat.le_succ _), ?_, ?_, ?_⟩
    · show marks w.mirror w.applied (versionAt start (w.manager.handle sha256 r).1.events w.applied)
      rw [hevents, versionAt_append h.le]
      exact h.marks
    · show Shows start (w.manager.handle sha256 r).1.events w.applied (M.cells w.mirror)
      exact hevents ▸ h.shows.append h.le [e]
    · refine hsent (fun a ha ↦ hevents ▸ (h.answers a ha).append [e]) ⟨le_rfl, .inl
        ⟨w.manager.events.length, e, hlen, by rw [hevents, List.getElem?_concat_length], ?_⟩⟩
      rw [hevents, docAt_append le_rfl, ← h.manager.cells]
      exact hanswers

/-- The next event. -/
theorem InStep.event (hM : M.Lawful C marks) (h : InStep M marks start w)
    (hfair : w.Fair C .event) : InStep M marks start (w.step sha256 M .event) := by
  rw [World.step]
  split
  case h_2 => exact h
  case h_1 e he =>
    have hlt := (List.getElem?_eq_some_iff.1 he).1
    have hfits := h.manager.tells.fits _ e he
    have hgood := h.manager.tells.goodAt h.le
    have hdone : ∀ {s' : σ}, M.cells s' = e.on (docAt start w.manager.events w.applied) →
        marks s' (w.applied + 1) (e.version (versionAt start w.manager.events w.applied)) →
        InStep M marks start { w with mirror := s', applied := w.applied + 1 } := by
      intro s' hcells hmarks
      exact ⟨h.manager, hlt, by rwa [versionAt_succ he], .inl (by rw [docAt_succ he, hcells]),
        h.answers⟩
    have hnext := hM.next (s := w.mirror) hgood hfits h.marks (hfair e he)
    rcases h.shows with hcells | ⟨t, e', hmt, he', hofCells, hother, hahead⟩
    · obtain ⟨hcells', hmarks⟩ := hnext (.inl hcells)
      exact hdone hcells' hmarks
    · rcases Nat.eq_or_lt_of_le hmt with rfl | hlt'
      · obtain rfl := Option.some.inj (he.symm.trans he')
        obtain ⟨hcells', hmarks⟩ := hnext (.inr hahead)
        exact hdone hcells' hmarks
      · -- the event ahead is still to come
        obtain rfl := Option.some.inj (he.symm.trans (hother w.applied le_rfl hlt'))
        obtain ⟨hcells', hmarks⟩ := hM.other h.marks
        refine ⟨h.manager, hlt, by rwa [versionAt_succ he], .inr ⟨t, e', hlt', he', hofCells,
          fun k hk ↦ hother k (Nat.le_of_succ_le hk), ?_⟩, h.answers⟩
        rwa [hcells']

/-- Versions of the document only grow. -/
theorem versionAt_le {events : List Event} {j k : ℕ} (hjk : j ≤ k) (hk : k ≤ events.length) :
    versionAt start events j ≤ versionAt start events k := by
  induction k, hjk using Nat.le_induction with
  | base => exact le_rfl
  | succ k hjk ih =>
    have he : events[k]? = some events[k] := List.getElem?_eq_getElem hk
    rw [versionAt_succ he]
    refine (ih (by omega)).trans ?_
    cases events[k] <;> simp [Event.version]

/-- An event once more. -/
theorem InStep.replay (hM : M.Lawful C marks) (h : InStep M marks start w) {k : ℕ}
    (hfair : w.Fair C (.replay k)) : InStep M marks start (w.step sha256 M (.replay k)) := by
  rw [World.step]
  split
  case h_2 => exact h
  case h_1 e he =>
    have hk : k < w.applied := (List.length_take_le _ _).trans_lt' (List.getElem?_eq_some_iff.1 he).1
    have he' : w.manager.events[k]? = some e := by rwa [List.getElem?_take_of_lt hk] at he
    have hversion : versionAt start w.manager.events (k + 1) ≤
        versionAt start w.manager.events w.applied := versionAt_le (Nat.succ_le_of_lt hk) h.le
    rw [versionAt_succ he'] at hversion
    obtain ⟨hcells, hmarks⟩ := hM.again h.marks hk (h.manager.tells.fits k e he') hversion
      (hfair e he)
    refine ⟨h.manager, h.le, hmarks, ?_, h.answers⟩
    show Shows start w.manager.events w.applied (M.cells _)
    rw [hcells]
    exact h.shows

/-- An answer. -/
theorem InStep.answer (hM : M.Lawful C marks) (h : InStep M marks start w) {i : ℕ}
    (hfair : w.Fair C (.answer i)) : InStep M marks start (w.step sha256 M (.answer i)) := by
  rw [World.step]
  split
  case h_2 => exact h
  case h_1 a ha =>
    have hof := h.answers a (List.mem_of_getElem? ha)
    have hdone : Shows start w.manager.events w.applied (M.cells (M.answered w.mirror a.answer)) →
        InStep M marks start
          { w with mirror := M.answered w.mirror a.answer, answers := w.answers.eraseIdx i } :=
      fun hshows ↦ ⟨h.manager, h.le, hM.answered h.marks, hshows,
        fun a' ha' ↦ h.answers a' (List.mem_of_mem_eraseIdx ha')⟩
    refine hdone ?_
    rcases hfair a ha with ⟨htime, hlate⟩ | ⟨htime, hown, hother⟩
    · obtain ⟨hgood, k, hmk, hk, hholds⟩ := h.shows.spec h.manager.tells h.le
      rw [hM.late hgood (hof.old h.manager.tells (htime.trans hmk) hk hholds) hlate]
      exact h.shows
    · obtain ⟨-, ⟨k, e, hk, he, hanswers⟩ | ⟨hforeign, -⟩⟩ := hof
      case inr => rw [hown] at hforeign; cases hforeign
      have hother : ∀ j, w.applied ≤ j → j < k → w.manager.events[j]? = some .other :=
        fun j hj hjk ↦ hother j hj (by omega)
      have hmk : w.applied ≤ k := by omega
      have hlt := (List.getElem?_eq_some_iff.1 he).1
      cases hofCells : e.ofCells with
      | false =>
        cases e with
        | other =>
          cases ha' : a.answer with
          | refused =>
            rw [hM.refused]
            exact h.shows
          | _ => rw [ha'] at hanswers; exact hanswers.elim
        | _ => cases hofCells
      | true =>
        refine .inr ⟨k, e, hmk, he, hofCells, hother, hM.early (h.manager.tells.goodAt hlt.le)
          (h.manager.tells.fits k e he) hofCells hanswers ?_⟩
        rcases h.shows with hcells | ⟨t, e', hmt, he', hofCells', hother', hahead⟩
        · exact .inl (hcells.trans (docAt_of_other hmk hother).symm)
        · obtain rfl : t = k := by
            rcases Nat.lt_trichotomy t k with hlt | rfl | hlt
            · obtain rfl := Option.some.inj (he'.symm.trans (hother t hmt hlt))
              cases hofCells'
            · rfl
            · obtain rfl := Option.some.inj (he.symm.trans (hother' k hmk hlt))
              cases hofCells
          obtain rfl := Option.some.inj (he.symm.trans he')
          exact .inr hahead

/-- **A mirror stays in step** in a run whose steps are all fair. -/
theorem inStep_of_run (hM : M.Lawful C marks) (hfirst : start.First)
    (h : ((M.system sha256 start).restrict (World.Fair C)).Reachable w) :
    InStep M marks start w := by
  refine h.invariant (fun w hw ↦ ?_) fun w a w' _ hw ⟨hfair, hstep⟩ ↦ ?_
  · obtain rfl : w = .start M start := hw
    have hload := InStep.load hM hfirst.sound fun a (ha : a ∈ ([] : List Sent)) ↦
      absurd ha List.not_mem_nil
    rwa [hfirst.events] at hload
  · obtain rfl : w' = w.step sha256 M a := hstep
    cases a with
    | request mine r => exact hw.request mine r
    | event => exact hw.event hM hfair
    | replay k => exact hw.replay hM hfair
    | answer i => exact hw.answer hM hfair
    | snapshot => exact .load hM hw.manager hw.answers

/-- **Once every event has been applied, the mirror shows the manager's cells.** -/
theorem cells_of_run (hM : M.Lawful C marks) (hfirst : start.First)
    (h : ((M.system sha256 start).restrict (World.Fair C)).Reachable w)
    (hall : w.applied = w.manager.events.length) : M.cells w.mirror = w.manager.cells := by
  have hin := inStep_of_run hM hfirst h
  rcases hin.shows with hcells | ⟨t, e, hmt, he, -⟩
  · rw [hcells, hall, hin.manager.cells]
  · have := (List.getElem?_eq_some_iff.1 he).1
    omega

end Runs

end Ember.Collab
