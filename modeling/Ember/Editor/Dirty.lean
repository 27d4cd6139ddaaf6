import Ember.Editor.Host

/-!
# What the extension host takes for dirty

The extension host keeps a dirty flag for each document it has, and changes it by what it is told: a
document that is added brings its flag, a change carries it, a finished save clears it, and
`$acceptDirtyStateChanged` sets it. The session core keeps its own. They agree as long as no finished
save meets a clean buffer of another version than the one it saved.
-/

namespace Ember.Editor

open EditorConn

/-- The dirty flags of the extension host; `none` for a document it does not have. -/
def flagReader : DocReader (Option Bool) where
  added _ a := some a.isDirty
  removed _ := none
  changed _ isDirty := some isDirty
  saved _ := some false
  dirtyState _ isDirty := some isDirty

/-- A save is over that saved this version, or the buffer is dirty. -/
def OpenDocument.MaySave (doc : OpenDocument) (version : ℕ) : Prop :=
  version = doc.extVersion ∨ doc.isDirty = true

/-- The flag follows the document's own. -/
theorem flagReader_follows :
    flagReader.Follows (fun doc flag ↦ flag = some doc.isDirty) OpenDocument.MaySave where
  added doc flag _ _ _ := rfl
  cursor doc flag cursor h := h
  changed doc flag m version cursor _ _ _ := rfl
  saved doc flag version diskText _ hmay := by
    split
    · rfl
    · next hne => exact congrArg some (hmay.resolve_left hne).symm

namespace SessionCore

/-- A save that is over meets a buffer of the version it saved, or a dirty one. -/
def SavesMatch (s : SessionCore) : CoreCall → Prop := s.SavesMeet OpenDocument.MaySave

/-- The runs of a session core, with the extension host told of every effect. -/
def hostedRuns (languages : LanguageRegistry) (opts : CoreOptions) (now : Instant) :
    StepSystem (SessionCore × (String → Option Bool)) CoreCall :=
  .ofFun (new languages opts now, fun _ ↦ none) fun x c ↦
    ((x.1.call c).1, flagReader.after x.2 (x.1.call c).2)

/-- **The extension host and the core agree on what is dirty**, in every run in which every save that
is over meets the version it saved or a dirty buffer. -/
theorem hostFlags_of_savesMatch {languages : LanguageRegistry} {opts : CoreOptions} {now : Instant}
    {x : SessionCore × (String → Option Bool)}
    (hx : ((hostedRuns languages opts now).restrict fun x c ↦ x.1.SavesMatch c).Reachable x) :
    ∀ key doc, x.1.docs[key]? = some doc → x.2 key = some doc.isDirty := by
  have hreads : x.1.Reads flagReader (fun doc flag ↦ flag = some doc.isDirty) x.2 ∧
      x.1.out = [] := by
    refine hx.invariant (I := fun y ↦ y.1.Reads flagReader (fun doc flag ↦ flag = some doc.isDirty)
      y.2 ∧ y.1.out = []) (fun y hy ↦ ?_) fun y c z _ hy hstep ↦ ?_
    · obtain rfl := hy
      exact ⟨.new languages opts now, rfl⟩
    · obtain ⟨hmatch, rfl⟩ := hstep
      exact ⟨hy.1.call flagReader_follows hmatch, by cases c <;> rfl⟩
  intro key doc hdoc
  have htold := (hreads.1.docs key doc hdoc).2
  rwa [told, hreads.2] at htold

/-- The core and the extension host's flags after some calls. -/
def hostedAfter (calls : List CoreCall) : SessionCore × (String → Option Bool) :=
  calls.foldl (fun x c ↦ ((x.1.call c).1, flagReader.after x.2 (x.1.call c).2))
    (new plainText .default 0, fun _ ↦ none)

/-- The user opens an empty file, types a letter, and asks for a save. -/
def savingCalls : List CoreCall :=
  openingCalls [] ++ [.handle .sorted 0 (.widget aFile 1 (.codeChanged 1 (.empty ⟨0, 0⟩) ['x'])),
    .handle .sorted 0 (.widget aFile 1 (.codeSaveRequested 1))]

/-- The save is over. -/
def writtenCall : CoreCall := .handle .sorted 0 (.fileWritten aFile 1 (.ok ()))

theorem hostFlags_of_savesMatch_saved :
    (hostedAfter (savingCalls ++ [writtenCall])).2 aFile.key = some false := by
  have hsaving : ((hostedRuns plainText .default 0).restrict fun x c ↦ x.1.SavesMatch c).Reachable
      (hostedAfter savingCalls) :=
    StepSystem.reachable_foldl_of_forall fun c hc x ↦ by
      simp only [savingCalls, openingCalls, List.cons_append, List.nil_append, List.mem_cons,
        List.not_mem_nil, or_false] at hc
      rcases hc with rfl | rfl | rfl | rfl <;> trivial
  have hmatch : (hostedAfter savingCalls).1.SavesMatch writtenCall := by
    unfold SavesMatch SavesMeet OpenDocument.MaySave writtenCall
    decide +kernel
  have hwritten : ((hostedAfter (savingCalls ++ [writtenCall])).1.docs[aFile.key]?).map
      (·.isDirty) = some false := by decide +kernel
  obtain ⟨doc, hdoc, hclean⟩ := Option.map_eq_some_iff.1 hwritten
  exact hclean ▸ hostFlags_of_savesMatch
    (StepSystem.reachable_foldl_concat hsaving hmatch) aFile.key doc hdoc

/-- **A save that is over after a resync makes the extension host take a clean buffer for dirty.** -/
theorem not_hostFlags :
    ¬ ∀ languages opts now x, (hostedRuns languages opts now).Reachable x →
      ∀ key doc, x.1.docs[key]? = some doc → x.2 key = some doc.isDirty := by
  intro h
  let calls := savingCalls ++ [.resync 0 aFile, writtenCall]
  have hbuffer : ((hostedAfter calls).1.docs[aFile.key]?).map (·.isDirty) = some false := by
    decide +kernel
  obtain ⟨doc, hdoc, hclean⟩ := Option.map_eq_some_iff.1 hbuffer
  have hflag := h plainText .default 0 (hostedAfter calls) (StepSystem.reachable_foldl calls)
    aFile.key doc hdoc
  rw [hclean] at hflag
  exact absurd hflag (by decide +kernel)

end SessionCore

end Ember.Editor
