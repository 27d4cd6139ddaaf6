import Ember.Collab.DocumentState
import Ember.Collab.DocModel

/-!
# Two editors on one notebook

Both mirrors against one manager: when they end up showing the manager's cells, and a run of each
that leaves them with something else for good.
-/

namespace Ember.Collab

open Ember.Intellij StepSystem

variable (sha256 : String → String)

/-- **Both editors end up with the manager's cells**, in runs whose steps are all fair to their
mirrors. -/
theorem editors_agree {start : Manager} (hfirst : start.First) :
    (∀ w, ((DocumentState.mirror.system sha256 start).restrict
        (World.Fair DocumentState.care)).Reachable w →
      w.applied = w.manager.events.length → w.mirror.cellList = w.manager.cells) ∧
    (∀ w, ((DocModel.mirror.system sha256 start).restrict (World.Fair DocModel.care)).Reachable w →
      w.applied = w.manager.events.length → w.mirror.cells = w.manager.cells) :=
  ⟨fun _ h hall ↦ cells_of_run DocumentState.lawful hfirst h hall,
    fun _ h hall ↦ cells_of_run DocModel.lawful hfirst h hall⟩

/-! ### Runs -/

/-- A manager without cells. -/
def Manager.blank : Manager := ⟨[], 0, 1, []⟩

theorem Manager.first_blank : Manager.blank.First where
  good := ⟨fun _ _ h ↦ (by cases h), List.nodup_nil⟩
  events := rfl
  fresh _ _ _ hx := absurd hx List.not_mem_nil

theorem DocumentState.start_blank :
    World.start DocumentState.mirror .blank = ⟨.blank, 0, [], ⟨[], 0, 1⟩⟩ := by
  simp only [World.start, DocumentState.mirror, DocumentState.loadSnapshot,
    DocumentState.sortByIndex, Manager.snapshot, Manager.blank, List.mergeSort_nil, List.length_nil]

theorem DocModel.start_blank :
    World.start DocModel.mirror .blank = ⟨.blank, 0, [], ⟨[], 0⟩⟩ := by
  simp only [World.start, DocModel.mirror, DocModel.load, Manager.snapshot, Manager.blank,
    List.mergeSort_nil, renumber, List.mapIdx_nil]

/-- Someone comes along, then the client makes a cell; it hears of it, and gets the answer last. -/
def Act.oneCell : List Act :=
  [.request false .other, .event, .request true (.create .last none none none), .event, .answer 0]

theorem DocumentState.allMeet_oneCell : AllMeet (World.step id mirror) (World.Fair care)
    (.start mirror .blank) Act.oneCell := by
  rw [start_blank]
  refine ⟨trivial, fun e he ↦ ?_, trivial, fun _ _ _ ↦ Nat.lt_succ_self 1, fun a ha ↦ ?_, trivial⟩
  · obtain rfl : Event.other = e := Option.some.inj he
    exact fun h ↦ by cases h
  · obtain rfl := Option.some.inj ha
    exact .inl ⟨le_rfl, _, List.mem_cons_self, rfl, .inr ⟨Nat.le_succ _, Nat.le_succ _⟩⟩

theorem DocModel.allMeet_oneCell : AllMeet (World.step id mirror) (World.Fair care)
    (.start mirror .blank) Act.oneCell := by
  rw [start_blank]
  refine ⟨trivial, fun _ _ ↦ trivial, trivial, fun _ _ ↦ trivial, fun a ha ↦ ?_, trivial⟩
  obtain rfl := Option.some.inj ha
  exact .inl ⟨le_rfl, _, List.mem_cons_self, rfl, .inr rfl⟩

theorem editors_agree_oneCell :
    (Act.oneCell.foldl (World.step id DocumentState.mirror)
      (.start DocumentState.mirror .blank)).mirror.cellList.map DocCell.version = [1] ∧
    (Act.oneCell.foldl (World.step id DocModel.mirror)
      (.start DocModel.mirror .blank)).mirror.cells.map DocCell.version = [1] := by
  have hkotlin := (editors_agree id Manager.first_blank).1 _
    (.foldl_of_allMeet (S := DocumentState.mirror.system id .blank) (fun _ _ ↦ rfl) (.start rfl)
      DocumentState.allMeet_oneCell) rfl
  have htypescript := (editors_agree id Manager.first_blank).2 _
    (.foldl_of_allMeet (S := DocModel.mirror.system id .blank) (fun _ _ ↦ rfl) (.start rfl)
      DocModel.allMeet_oneCell) rfl
  rw [hkotlin, htypescript]
  exact ⟨rfl, rfl⟩

/-- The first event after the snapshot. -/
def Act.nextEvent : List Act := [.request false (.create .last none none none), .event]

/-- The client makes a cell and hears of it; someone deletes it, and it hears of that; its answer
comes last. -/
def Act.answerLast : List Act :=
  [.request true (.create .last none none none), .event, .request false (.delete (newId 1) 1), .event,
    .answer 0]

/-- Neither mirror ends up with the manager's cells in every run: the one does not take the first
event after the snapshot, the other puts back what has been deleted. -/
theorem not_editors_agree :
    (¬ ∀ start : Manager, start.First → ∀ w, (DocumentState.mirror.system id start).Reachable w →
      w.applied = w.manager.events.length → w.answers = [] → w.mirror.cellList = w.manager.cells) ∧
    ¬ ∀ start : Manager, start.First → ∀ w, (DocModel.mirror.system id start).Reachable w →
      w.applied = w.manager.events.length → w.answers = [] → w.mirror.cells = w.manager.cells := by
  constructor
  · intro h
    have heq := h _ Manager.first_blank _ (reachable_foldl Act.nextEvent) rfl rfl
    rw [DocumentState.start_blank] at heq
    cases heq
  · intro h
    have heq := h _ Manager.first_blank _ (reachable_foldl Act.answerLast) rfl rfl
    rw [DocModel.start_blank] at heq
    have hlength : 1 = 0 := congrArg List.length heq
    cases hlength

end Ember.Collab
