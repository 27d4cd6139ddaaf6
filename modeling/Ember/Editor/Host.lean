import Ember.Editor.Frames
import Mathlib.Logic.Function.Basic

/-!
# What the extension host is told of documents

A `DocReader` keeps something for each document and changes it by what the session core tells the
extension host: documents come and go, change, are saved, and get their dirty flag set. A relation
between an open document and what a reader keeps for it that every operation of a document respects
(`DocReader.Follows`) holds of all open documents after every call (`Reads.call`).
-/

namespace Ember.Editor

open EditorConn

/-- Somebody who keeps a `β` for each document and is told what the extension host is told. -/
structure DocReader (β : Type*) where
  added : β → ModelAddedData → β
  removed : β → β
  changed : β → Bool → β
  saved : β → β
  dirtyState : β → Bool → β

variable {version : ℕ}

namespace DocReader

variable {β : Type*} (R : DocReader β)

/-- Documents go, then documents come. -/
def delta (h : String → β) (d : DocumentsAndEditorsDelta) : String → β :=
  d.addedDocuments.foldl (fun h a ↦ Function.update h a.uri.key (R.added (h a.uri.key) a))
    (d.removedDocuments.foldl (fun h u ↦ Function.update h u.key (R.removed (h u.key))) h)

/-- What a reader makes of a call. -/
def take (h : String → β) : Call → String → β
  | .acceptDocumentsAndEditorsDelta d => R.delta h d
  | .acceptModelChanged uri _ isDirty =>
    Function.update h uri.key (R.changed (h uri.key) isDirty)
  | .acceptModelSaved uri => Function.update h uri.key (R.saved (h uri.key))
  | .acceptDirtyStateChanged uri isDirty =>
    Function.update h uri.key (R.dirtyState (h uri.key) isDirty)
  | _ => h

/-- The calls speak of no document but one. -/
def Only (key : String) (cs : List Call) : Prop :=
  ∀ (h : String → β) (key' : String), key' ≠ key → cs.foldl R.take h key' = h key'

/-- What a reader keeps of a document stays in the relation `rel` with it: the document that is
announced, that changes, that is saved at a version it may be saved at. -/
structure Follows (rel : OpenDocument → β → Prop) (may : OpenDocument → ℕ → Prop) : Prop where
  added : ∀ (doc : OpenDocument) (b : β), doc.widgetVersion = 0 → doc.isDirty = false →
    doc.mirror.version = doc.extVersion → rel doc (R.added b doc.mirror.addedData)
  cursor : ∀ (doc : OpenDocument) (b : β) (cursor : Option WidgetPos), rel doc b →
    rel { doc with cursor } b
  changed : ∀ (doc : OpenDocument) (b : β) (m : DocumentMirror) (version : ℕ)
    (cursor : Option WidgetPos), rel doc b → version = wrap32 (doc.widgetVersion + 1) →
    doc.mirror.version < doc.extBase + version →
    rel { doc with
      mirror := { m with version := doc.extBase + version, dirty := true }
      widgetVersion := version
      cursor } (R.changed b true)
  saved : ∀ (doc : OpenDocument) (b : β) (version : ℕ) (diskText : Text), rel doc b →
    may doc version → if version = doc.extVersion then
      rel { doc with diskText, mirror := doc.mirror.markSaved } (R.saved b)
    else rel { doc with diskText } (R.dirtyState (R.saved b) true)

variable {R} {key : String} {c : Call} {cs : List Call}

theorem take_changed (h : String → β) (uri : UriComponents) (event : ModelContentChangedEvent)
    (isDirty : Bool) :
    R.take h (.acceptModelChanged uri event isDirty) uri.key = R.changed (h uri.key) isDirty :=
  Function.update_self _ _ _

theorem take_saved (h : String → β) (uri : UriComponents) :
    R.take h (.acceptModelSaved uri) uri.key = R.saved (h uri.key) := Function.update_self _ _ _

theorem take_dirtyState (h : String → β) (uri : UriComponents) (isDirty : Bool) :
    R.take h (.acceptDirtyStateChanged uri isDirty) uri.key = R.dirtyState (h uri.key) isDirty :=
  Function.update_self _ _ _

theorem only_nil : R.Only key [] := fun _ _ _ ↦ rfl

theorem only_cons (hc : R.Only key [c]) (hcs : R.Only key cs) : R.Only key (c :: cs) :=
  fun h key' hne ↦ (hcs (R.take h c) key' hne).trans (hc h key' hne)

/-- Adding a document speaks of it alone. -/
theorem take_addCalls {doc : OpenDocument} (huri : doc.mirror.uri = doc.uri) (h : String → β) :
    doc.addCalls.foldl R.take h =
      Function.update h doc.uri.key (R.added (h doc.uri.key) doc.mirror.addedData) := by
  rw [← huri]
  rfl

theorem only_addCalls (doc : OpenDocument) (huri : doc.mirror.uri = doc.uri) :
    R.Only doc.uri.key doc.addCalls := fun h key' hne ↦ by
  rw [take_addCalls huri, Function.update_of_ne hne]

theorem only_removeCall (doc : OpenDocument) : R.Only doc.uri.key [doc.removeCall] :=
  fun _ _ hne ↦ Function.update_of_ne hne _ _

variable {rel : OpenDocument → β → Prop} {may : OpenDocument → ℕ → Prop}

/-- The calls of a reset. -/
theorem Follows.reset (hR : R.Follows rel may) (doc : OpenDocument) (text : Text) (bom : Bool)
    (generation : ℕ) (h : String → β) :
    rel (doc.reset text bom generation).1
        ((doc.reset text bom generation).2.foldl R.take h doc.uri.key) ∧
      R.Only doc.uri.key (doc.reset text bom generation).2 := by
  refine ⟨?_, only_cons (only_removeCall doc)
    (only_addCalls (doc.reset text bom generation).1 rfl)⟩
  show rel _ ((doc.reset text bom generation).1.addCalls.foldl R.take (R.take h doc.removeCall)
    doc.uri.key)
  rw [take_addCalls rfl]
  exact (Function.update_self doc.uri.key _ _).symm ▸ hR.added _ _ rfl rfl rfl

/-- The calls of a finished save. -/
theorem Follows.savedCalls (hR : R.Follows rel may) {doc : OpenDocument} (bytes : ByteArray)
    {h : String → β} (hrel : rel doc (h doc.uri.key)) (hmay : may doc version) :
    rel (doc.saved version bytes).1 ((doc.saved version bytes).2.foldl R.take h doc.uri.key) ∧
      R.Only doc.uri.key (doc.saved version bytes).2 := by
  obtain ⟨diskText, hwritten⟩ := doc.written_eq bytes
  have hsaved := hR.saved doc _ version diskText hrel hmay
  have honly (c : Call) (hc : c = .acceptModelSaved doc.uri ∨
      c = .acceptDirtyStateChanged doc.uri true) : R.Only doc.uri.key [c] := by
    rcases hc with rfl | rfl <;> exact fun _ _ hne ↦ Function.update_of_ne hne _ _
  simp only [OpenDocument.saved, hwritten]
  split
  · next heq =>
    have heq' : version = doc.extVersion := heq
    rw [if_pos heq'] at hsaved
    refine ⟨?_, honly _ (.inl rfl)⟩
    show rel _ (R.take h (.acceptModelSaved doc.uri) doc.uri.key)
    rw [take_saved]
    exact hsaved
  · next hne =>
    have hne' : ¬ version = doc.extVersion := hne
    rw [if_neg hne'] at hsaved
    refine ⟨?_, only_cons (honly _ (.inl rfl)) (honly _ (.inr rfl))⟩
    show rel _ (R.take (R.take h (.acceptModelSaved doc.uri))
      (.acceptDirtyStateChanged doc.uri true) doc.uri.key)
    rw [take_dirtyState, take_saved]
    exact hsaved

end DocReader

/-- A call that speaks of documents. -/
def Effect.modelCall : Effect → Option Call
  | .rpc _ (.acceptDocumentsAndEditorsDelta d) => some (.acceptDocumentsAndEditorsDelta d)
  | .rpc _ (.acceptModelChanged uri event isDirty) => some (.acceptModelChanged uri event isDirty)
  | .rpc _ (.acceptModelSaved uri) => some (.acceptModelSaved uri)
  | .rpc _ (.acceptDirtyStateChanged uri isDirty) => some (.acceptDirtyStateChanged uri isDirty)
  | _ => none

/-- What a reader makes of effects, one after the other. -/
def DocReader.after {β : Type*} (R : DocReader β) (h : String → β) (es : List Effect) :
    String → β := (es.filterMap Effect.modelCall).foldl R.take h

theorem DocReader.after_append {β : Type*} (R : DocReader β) (h : String → β)
    (es es' : List Effect) : R.after h (es ++ es') = R.after (R.after h es) es' := by
  rw [after, List.filterMap_append, List.foldl_append]
  rfl

/-- A change that fits is numbered one on. -/
theorem OpenDocument.version_of_applyWidgetChange {doc doc' : OpenDocument} {range : WidgetRange}
    {text : Text} {call : Call} (h : doc.applyWidgetChange version range text = (doc', .ok call)) :
    version = wrap32 (doc.widgetVersion + 1) := by
  by_contra hne
  rw [applyWidgetChange, if_pos hne] at h
  cases h

namespace SessionCore

variable {β : Type*} {R : DocReader β} {rel : OpenDocument → β → Prop}
  {may : OpenDocument → ℕ → Prop} {s t : SessionCore} {F : Finset Part} {h : String → β}
  {key : String} {doc : OpenDocument}

/-- What a reader will make of what was asked for so far. -/
def told (s : SessionCore) (R : DocReader β) (h : String → β) : String → β := R.after h s.out

theorem told_of_changes (hc : Changes F s t) (hF : .models ∉ F) :
    t.told R h = s.told R h := by
  have hout : t.out.filterMap Effect.modelCall = s.out.filterMap Effect.modelCall := by
    refine hc.filterMap_out fun e c he ↦ ⟨.models, hF, ?_⟩
    unfold Effect.modelCall at he
    split at he <;> first | rfl | cases he
  rw [told, DocReader.after, hout]
  rfl

theorem told_rpc (c : Call) : (s.rpc c).told R h = R.take (s.told R h) c := by
  show ((s.out ++ [Effect.rpc none c]).filterMap Effect.modelCall).foldl R.take h = _
  rw [List.filterMap_append, List.foldl_append]
  cases c <;> rfl

theorem told_rpcs (cs : List Call) : (s.rpcs cs).told R h = cs.foldl R.take (s.told R h) := by
  induction cs generalizing s with
  | nil => rfl
  | cons c cs ih => exact ih.trans (congrArg (cs.foldl R.take) (told_rpc c))

theorem docs_rpcs (cs : List Call) :
    (s.rpcs cs).docs = s.docs ∧ (s.rpcs cs).exthostOnly = s.exthostOnly := by
  induction cs generalizing s with
  | nil => exact ⟨rfl, rfl⟩
  | cons c cs ih => exact ih (s := s.rpc c)

theorem setDoc_rpcs (cs : List Call) :
    (s.setDoc key doc).rpcs cs = (s.rpcs cs).setDoc key doc := by
  induction cs generalizing s with
  | nil => rfl
  | cons c cs ih => exact ih (s := s.rpc c)

/-! ### The invariant -/

/-- What the reader keeps for a document, once told what was asked for, is in the relation with
it. -/
def ReadsOn (s : SessionCore) (R : DocReader β) (rel : OpenDocument → β → Prop) (h : String → β)
    (key : String) : Prop :=
  ∀ doc, s.docs[key]? = some doc → doc.uri.key = key ∧ rel doc (s.told R h key)

/-- So it is for all open documents. -/
structure Reads (s : SessionCore) (R : DocReader β) (rel : OpenDocument → β → Prop)
    (h : String → β) : Prop where
  docs : ∀ key, s.ReadsOn R rel h key
  exthostOnly : ∀ key (p : UriComponents × ℕ), s.exthostOnly[key]? = some p → p.1.key = key

namespace Reads

theorem of_changes (hs : s.Reads R rel h) (hc : Changes F s t)
    (hF : ∀ p ∈ [Part.docs, .exthostOnly, .models], p ∉ F) : t.Reads R rel h := by
  have hd : t.docs = s.docs := hc.keep .docs (hF _ (by simp))
  have he : t.exthostOnly = s.exthostOnly := hc.keep .exthostOnly (hF _ (by simp))
  refine ⟨fun key doc hdoc ↦ ?_, fun key p hp ↦ hs.exthostOnly key p (he ▸ hp)⟩
  rw [told_of_changes hc (hF _ (by simp))]
  exact hs.docs key doc (hd ▸ hdoc)

/-- A document is put with the open ones, and calls speak of it alone. -/
theorem put (doc : OpenDocument) (cs : List Call) (hs : ∀ key' ≠ key, s.ReadsOn R rel h key')
    (hexthost : ∀ key (p : UriComponents × ℕ), s.exthostOnly[key]? = some p → p.1.key = key)
    (huri : doc.uri.key = key) (honly : R.Only key cs)
    (hrel : rel doc (cs.foldl R.take (s.told R h) key)) :
    Reads ((s.setDoc key doc).rpcs cs) R rel h := by
  obtain ⟨hdocs, hext⟩ := docs_rpcs (s := s.setDoc key doc) cs
  have htold : ((s.setDoc key doc).rpcs cs).told R h = cs.foldl R.take (s.told R h) :=
    told_rpcs cs
  refine ⟨fun key' doc' hdoc' ↦ ?_, hext ▸ hexthost⟩
  rw [hdocs, setDoc, Std.ExtTreeMap.getElem?_insert] at hdoc'
  rw [htold]
  split at hdoc'
  · rename_i heq
    obtain rfl := Std.LawfulEqCmp.compare_eq_iff_eq.1 heq
    obtain rfl := Option.some.inj hdoc'
    exact ⟨huri, hrel⟩
  · rename_i hcmp
    have hne : key' ≠ key := fun heq ↦ hcmp (Std.LawfulEqCmp.compare_eq_iff_eq.2 heq.symm)
    rw [honly _ key' hne]
    exact hs key' hne doc' hdoc'

theorem onFocus (hs : s.Reads R rel h) (uri : UriComponents) : (s.onFocus uri).Reads R rel h := by
  simp only [SessionCore.onFocus]
  split
  · exact hs
  · rename_i doc hdoc
    have hfocus : (s.rpc doc.focusCall).Reads R rel h := by
      refine ⟨fun key d hd ↦ ?_, hs.exthostOnly⟩
      rw [told_rpc]
      exact hs.docs key d hd
    exact hfocus.of_changes ((changes_active _).trans changes_sendTabModel) (by decide)

theorem onClose (hs : s.Reads R rel h) (ord : IterOrder) (uri : UriComponents) :
    (s.onClose ord uri).Reads R rel h := by
  simp only [SessionCore.onClose]
  split
  · exact hs
  · rename_i doc hdoc
    have hkey := (hs.docs uri.key doc hdoc).1
    have hclosed : Reads (rpc { s with docs := s.docs.erase uri.key } doc.removeCall) R rel h := by
      refine ⟨fun key d hd ↦ ?_, hs.exthostOnly⟩
      have hd' : (s.docs.erase uri.key)[key]? = some d := hd
      rw [Std.ExtTreeMap.getElem?_erase] at hd'
      split at hd'
      · cases hd'
      · rename_i hcmp
        have hne : key ≠ doc.uri.key := fun heq ↦
          hcmp (Std.LawfulEqCmp.compare_eq_iff_eq.2 (hkey.symm.trans heq.symm))
        obtain ⟨huri, hrel⟩ := hs.docs key d hd'
        have hother := DocReader.only_removeCall (R := R) doc (s.told R h) key hne
        rw [told_rpc]
        exact ⟨huri, (congrArg (rel d) hother).mpr hrel⟩
    exact hclosed.of_changes ((((changes_unwatch _).trans (changes_forgetDoc _ _)).trans
      changes_sendTabModel).trans (changes_ui _)) (by decide)

section

variable (hR : R.Follows rel may)
include hR

theorem onCodeChanged (hs : s.Reads R rel h) (key : String) (version : ℕ)
    (range : WidgetRange) (text : Text) :
    (s.onCodeChanged key version range text).Reads R rel h := by
  rcases onCodeChanged_cases s key version range text with
    ⟨-, heq⟩ | ⟨doc, hdoc, -, hc⟩ | ⟨doc, doc', call, r, hdoc, happly, hr, heq⟩
  · rw [heq]
    exact hs
  · have hsame := put doc [] (fun key' _ ↦ hs.docs key') hs.exthostOnly (hs.docs key doc hdoc).1
      DocReader.only_nil (hs.docs key doc hdoc).2
    exact hsame.of_changes hc (by decide)
  · rw [heq]
    obtain ⟨hkey, hrel⟩ := hs.docs key doc hdoc
    have hversion := OpenDocument.version_of_applyWidgetChange happly
    have hchanged : ((s.setDoc key doc').rpc call).Reads R rel h := by
      rcases doc.applyWidgetChange_cases version range text with ⟨err, h'⟩ | ⟨m, c, -, hlt, -, h'⟩
      · rw [h'] at happly
        cases happly
      · obtain ⟨rfl, hcall⟩ := Prod.mk.inj (h'.symm.trans happly)
        obtain rfl := Except.ok.inj hcall
        subst hkey
        refine put _ [_] (fun key' _ ↦ hs.docs key') hs.exthostOnly rfl
          (fun _ _ hne ↦ Function.update_of_ne hne _ _) ?_
        rw [List.foldl_cons, List.foldl_nil, DocReader.take_changed]
        exact hR.changed doc _ m version _ hrel hversion hlt
    exact hchanged.of_changes (hr.trans (changes_afterChange _ _ _)) (by decide)

theorem onTriggerInline (hs : s.Reads R rel h) (uri : UriComponents)
    (generation : ℕ) (pos : WidgetPos) : (s.onTriggerInline uri generation pos).Reads R rel h := by
  simp only [SessionCore.onTriggerInline]
  split
  · exact hs
  · rename_i doc hdoc
    split
    · exact hs
    · obtain ⟨hkey, hrel⟩ := hs.docs uri.key doc hdoc
      have hcursor := put { doc with cursor := some pos } [] (fun key' _ ↦ hs.docs key')
        hs.exthostOnly hkey DocReader.only_nil (hR.cursor doc _ (some pos) hrel)
      exact hcursor.of_changes (changes_setInline _ _) (by decide)

theorem resetDoc (hs : s.Reads R rel h) (key : String) (text : Text)
    (bom : Option Bool) : (s.resetDoc key text bom).Reads R rel h := by
  have hgeneration : Reads { s with nextGeneration := s.nextGeneration + 1 } R rel h :=
    hs.of_changes (changes_nextGeneration _) (by decide)
  simp only [SessionCore.resetDoc]
  split
  · exact hgeneration
  · rename_i doc hdoc
    obtain rfl := (hs.docs key doc hdoc).1
    have hput (bom : Bool) := put (doc.reset text bom (s.nextGeneration + 1)).1 _
      (fun key' _ ↦ hgeneration.docs key') hgeneration.exthostOnly rfl
      (hR.reset doc text bom (s.nextGeneration + 1) (s.told R h)).2
      (hR.reset doc text bom (s.nextGeneration + 1) (s.told R h)).1
    exact (hput _).of_changes (changes_resetViews _ _) (by decide)

theorem onReload (hs : s.Reads R rel h) (uri : UriComponents)
    (result : Except String ByteArray) : (s.onReload uri result).Reads R rel h := by
  simp only [SessionCore.onReload]
  split
  · split
    · exact hs
    · split
      · exact hs
      · split
        · exact hs.of_changes (changes_ui _) (by decide)
        · exact resetDoc hR hs _ _ _
  · exact hs

/-- A document just opened is announced, whether the extension host had it or not. -/
theorem finishOpen (hs : s.Reads R rel h) (uri : UriComponents)
    (bytes : ByteArray) : (s.finishOpen uri bytes).Reads R rel h := by
  rcases s.finishOpen_cases uri bytes with
    ⟨err, -, hc⟩ | ⟨text, bom, r, v, doc, -, hr, hdoc, hc⟩
  · exact hs.of_changes hc (by decide)
  -- what is taken over is of the key that opens
  · have htaken : (∀ key' ≠ uri.key, r.ReadsOn R rel h key') ∧
        ∀ key (p : UriComponents × ℕ), r.exthostOnly[key]? = some p → p.1.key = key := by
      rw [takeOver] at hr
      split at hr
      · rename_i u version hu
        obtain ⟨rfl, -⟩ := Prod.mk.inj hr
        have hkey : u.key = uri.key := hs.exthostOnly uri.key (u, version) hu
        refine ⟨fun key' hne d hd ↦ ?_, fun key p hp ↦ ?_⟩
        · obtain ⟨huri, hrel⟩ := hs.docs key' d hd
          rw [told_rpc]
          refine ⟨huri, (congrArg (rel d) ?_).mpr hrel⟩
          exact Function.update_of_ne (hkey ▸ hne) _ _
        · have hp' : (s.exthostOnly.erase uri.key)[key]? = some p := hp
          rw [Std.ExtTreeMap.getElem?_erase] at hp'
          split at hp'
          · cases hp'
          · exact hs.exthostOnly key p hp'
      · obtain ⟨rfl, -⟩ := Prod.mk.inj hr
        exact ⟨fun key' _ ↦ hs.docs key', hs.exthostOnly⟩
    have hnew : doc.mirror.uri = doc.uri ∧ doc.uri = uri ∧ ∀ b, rel doc (R.added b
        doc.mirror.addedData) := by
      rw [hdoc]
      exact ⟨rfl, rfl, fun b ↦ hR.added _ b rfl rfl rfl⟩
    obtain ⟨hmirror, rfl, hadded⟩ := hnew
    have hopened : Reads (rpcs (setDoc { r with nextEditor := r.nextEditor + 1 } doc.uri.key doc)
        doc.addCalls) R rel h :=
      put (s := { r with nextEditor := r.nextEditor + 1 }) doc _ htaken.1 htaken.2 rfl
        (DocReader.only_addCalls doc hmirror)
        (by rw [DocReader.take_addCalls hmirror, Function.update_self]; exact hadded _)
    rw [setDoc_rpcs] at hopened
    exact hopened.of_changes hc (by decide)

end

theorem finishExthostOpen (hs : s.Reads R rel h) (uri : UriComponents) (req : ℕ)
    (result : Except String ByteArray) : (s.finishExthostOpen uri req result).Reads R rel h := by
  have hrespond {r : SessionCore} (hr : r.Reads R rel h) (req : ℕ) (result) :
      (r.respond req result).Reads R rel h :=
    hr.of_changes (changes_respond _ _) (by decide)
  simp only [SessionCore.finishExthostOpen]
  split
  · exact hrespond hs _ _
  · rename_i hnew
    split
    · exact hrespond hs _ _
    · refine hrespond ⟨fun key d hd ↦ ?_, fun key p hp ↦ ?_⟩ _ _
      · have hne : key ≠ uri.key := fun heq ↦ hnew (.inl (by
          rw [← heq, Std.ExtTreeMap.mem_iff_isSome_getElem?]
          exact Option.isSome_of_eq_some hd))
        obtain ⟨huri, hrel⟩ := hs.docs key d hd
        refine ⟨huri, (congrArg (rel d) ?_).mpr hrel⟩
        refine (congrFun (told_rpc _) key).trans ((Function.update_of_ne hne _ _).trans ?_)
        rw [told_rpc]
        rfl
      · have hp' : (s.exthostOnly.insert uri.key (uri, _))[key]? = some p := hp
        rw [Std.ExtTreeMap.getElem?_insert] at hp'
        split at hp'
        · rename_i heq
          obtain rfl := Option.some.inj hp'
          exact Std.LawfulEqCmp.compare_eq_iff_eq.1 heq
        · exact hs.exthostOnly key p hp'

theorem onFileRead (hR : R.Follows rel may) (hs : s.Reads R rel h) (uri : UriComponents)
    (purpose : ReadPurpose) (result : Except String ByteArray) :
    (s.onFileRead uri purpose result).Reads R rel h := by
  have hopening (opening) : Reads { s with opening } R rel h :=
    hs.of_changes (changes_opening _) (by decide)
  cases purpose with
  | open_ =>
    cases result with
    | error e => exact (hopening _).of_changes (changes_ui _) (by decide)
    | ok bytes => exact finishOpen hR (hopening _) uri bytes
  | reload => exact onReload hR hs uri result
  | extHostOpen req => exact hs.finishExthostOpen uri req result

/-- A save is over that the document may meet. -/
theorem onFileWritten (hR : R.Follows rel may) (hs : s.Reads R rel h) (uri : UriComponents)
    (token : Token) (result : Except String Unit)
    (hmay : result.isOk = true → ∀ save ∈ s.saves[token]?, ∀ doc ∈ s.docs[save.1]?,
      may doc save.2.1) :
    (s.onFileWritten uri token result).Reads R rel h := by
  have hend : Reads { s with saves := s.saves.erase token } R rel h :=
    hs.of_changes (changes_saves _) (by decide)
  rcases s.onFileWritten_cases uri token result with
    ⟨-, heq⟩ | ⟨key, v, bytes, hsave, ⟨-, hc⟩ | ⟨doc, hok, hdoc, hc⟩⟩
  · rw [heq]
    exact hs
  · exact hend.of_changes hc (by decide)
  · obtain ⟨rfl, hrel⟩ := hs.docs key doc hdoc
    obtain ⟨hrel', honly⟩ := hR.savedCalls bytes hrel (hmay hok _ hsave doc hdoc)
    have huri : (doc.saved v bytes).1.uri.key = doc.uri.key := by
      obtain ⟨diskText, ⟨-, heq⟩ | ⟨-, heq⟩⟩ := doc.saved_cases v bytes <;> rw [heq]
    exact (put _ _ (fun key' _ ↦ hend.docs key') hend.exthostOnly huri honly hrel').of_changes
      hc (by decide)

theorem onWidget (hR : R.Follows rel may) (hs : s.Reads R rel h) (uri : UriComponents)
    (generation : ℕ) (event : WidgetEvent) : (s.onWidget uri generation event).Reads R rel h := by
  have hquiet {r : SessionCore} (hc : Changes {.inline, .pending, .frees, .saves, .writes} s r) :
      r.Reads R rel h := hs.of_changes hc (by decide)
  simp only [SessionCore.onWidget]
  split
  · split
    · exact onCodeChanged hR hs _ _ _ _
    · exact hs
    · exact hquiet ((changes_onHoverRest _ _).mono (by decide))
    · exact hquiet (changes_endHover.mono (by decide))
    · exact hquiet ((changes_onSave _).mono (by decide))
    · exact hquiet ((changes_onActivated _ _).mono (by decide))
  · exact hs

end Reads

/-- A save that is over meets a document it may meet. -/
def SavesMeet (s : SessionCore) (may : OpenDocument → ℕ → Prop) : CoreCall → Prop
  | .handle _ _ (.fileWritten _ token result) => result.isOk = true →
      ∀ save ∈ s.saves[token]?, ∀ doc ∈ s.docs[save.1]?, may doc save.2.1
  | _ => True

namespace Reads

theorem dispatch (hR : R.Follows rel may) (hs : s.Reads R rel h) (ord : IterOrder) (now : Instant)
    (input : Input) (hmeet : s.SavesMeet may (.handle ord now input)) :
    (s.dispatch ord input).Reads R rel h := by
  have hquiet {r : SessionCore} (hc : Changes {.opening, .registry, .lenses, .lensLists, .lensSerial,
      .inline, .pending, .frees, .reads} s r) : r.Reads R rel h :=
    hs.of_changes hc (by decide)
  cases input with
  | open_ uri => exact hquiet ((changes_onOpen uri).mono (by decide))
  | close uri => exact hs.onClose ord uri
  | focus uri => exact hs.onFocus uri
  | widget uri generation event => exact onWidget hR hs uri generation event
  | triggerInline uri generation pos => exact onTriggerInline hR hs _ _ _
  | extHostRequest r => exact hquiet ((changes_onExthostRequest r).mono (by decide))
  | rpcReply token result => exact hquiet ((changes_onRpcReply _ _).mono (by decide))
  | fileRead uri purpose result => exact onFileRead hR hs uri purpose result
  | fileWritten uri token result => exact onFileWritten hR hs uri token result hmeet
  | filesChanged changes => exact hquiet ((changes_onFilesChanged _ _).mono (by decide))
  | tick => exact hs

/-- A resync is a reset. -/
theorem resync (hR : R.Follows rel may) (hs : s.Reads R rel h) (uri : UriComponents) :
    Reads (match s.docs[uri.key]? with
      | some doc => s.resetDoc uri.key doc.widgetText none
      | none => s) R rel h := by
  split
  · exact resetDoc hR hs _ _ _
  · exact hs

theorem new (languages : LanguageRegistry) (opts : CoreOptions) (now : Instant) :
    (SessionCore.new languages opts now).Reads R rel h := by
  refine ⟨fun key doc hdoc ↦ ?_, fun key p hp ↦ ?_⟩
  · rw [SessionCore.new, Std.ExtTreeMap.getElem?_empty] at hdoc
    cases hdoc
  · rw [SessionCore.new, Std.ExtTreeMap.getElem?_empty] at hp
    cases hp

/-- The effects are handed to the driver. -/
theorem take (hs : s.Reads R rel h) : Reads s.take.1 R rel (R.after h s.take.2) :=
  ⟨hs.docs, hs.exthostOnly⟩

/-- **One call of a driver keeps the reader and the open documents in the relation.** -/
theorem call (hs : s.Reads R rel h) (hR : R.Follows rel may) {c : CoreCall}
    (hmeet : s.SavesMeet may c) : Reads (s.call c).1 R rel (R.after h (s.call c).2) := by
  have hnow (now : Instant) : Reads { s with now } R rel h :=
    hs.of_changes (changes_untracked rfl) (by decide) (F := ∅)
  cases c with
  | handle ord now input =>
    have hdispatch := dispatch hR (hnow now) ord now input (by cases input <;> exact hmeet)
    exact (hdispatch.of_changes ((changes_runTimers ord).trans changes_flushDecorations) (by decide)).take
  | resync now uri =>
    exact ((resync hR (hnow now) uri).of_changes changes_flushDecorations (by decide)).take

end Reads

end SessionCore

end Ember.Editor
