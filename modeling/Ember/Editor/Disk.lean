import Ember.Editor.Frames
import Mathlib.Logic.Function.Basic
import Std.Data.String.ToNat

/-!
# What a clean buffer has to do with the disk

`DiskBook` writes down, beside the session core and unseen by it, what was last read and what was
last confirmed written for each open document, and which opening of which document a save is of.
A clean buffer is one of the two as long as no resync drops the dirty flag and no finished save meets
another buffer than the one it saved.

Texts are compared by their lines, that is, up to line breaks.
-/

namespace Ember.Editor

open EditorConn

/-! ### Bookkeeping -/

/-- A save under way: the document, its editor (one for each opening), the version and the lines it
saves. -/
structure SaveRecord where
  key : String
  editorId : String
  version : ℕ
  lines : List Text

/-- What an observer of the core writes down. -/
structure DiskBook where
  /-- The lines read last, for each open document. -/
  read : String → Option (List Text)
  /-- The lines confirmed written last, for each open document. -/
  written : String → Option (List Text)
  saves : Token → Option SaveRecord

namespace DiskBook

/-- Nothing yet. -/
def new : DiskBook := ⟨fun _ ↦ none, fun _ ↦ none, fun _ ↦ none⟩

/-- A file was read for a document that is open or just opens. -/
def reads (b : DiskBook) (uri : UriComponents) (purpose : ReadPurpose) (bytes : ByteArray) : DiskBook :=
  match purpose, decode bytes with
  | .open_, .ok (text, _) => { b with
      read := Function.update b.read uri.key (some (splitLines text))
      written := Function.update b.written uri.key none }
  | .reload, .ok (text, _) =>
    { b with read := Function.update b.read uri.key (some (splitLines text)) }
  | _, _ => b

/-- A save is over: if it succeeded, its text is the one written last for the document, provided the
document was not closed and opened again since. -/
def writes (b : DiskBook) (docs : Std.ExtTreeMap String OpenDocument) (token : Token)
    (result : Except String Unit) : DiskBook :=
  match b.saves token with
  | none => b
  | some r =>
    let b := { b with saves := Function.update b.saves token none }
    match result, docs[r.key]? with
    | .ok _, some doc =>
      if r.editorId = doc.editorId then
        { b with written := Function.update b.written r.key (some r.lines) }
      else b
    | _, _ => b

/-- What an input tells. -/
def learn (b : DiskBook) (docs : Std.ExtTreeMap String OpenDocument) : Input → DiskBook
  | .fileRead uri purpose (.ok bytes) => b.reads uri purpose bytes
  | .fileWritten _ token result => b.writes docs token result
  | _ => b

/-- A save starts. -/
def saving (docs : Std.ExtTreeMap String OpenDocument) (b : DiskBook) (w : UriComponents × Token) :
    DiskBook :=
  match docs[w.1.key]? with
  | none => b
  | some doc =>
    let r : SaveRecord := ⟨w.1.key, doc.editorId, doc.extVersion, doc.lines⟩
    { b with saves := Function.update b.saves w.2 (some r) }

/-- Two books say the same but for what was read and written for one document. -/
structure DiffersAt (b' : DiskBook) (key : String) (b : DiskBook) : Prop where
  read : ∀ key' ≠ key, b'.read key' = b.read key'
  written : ∀ key' ≠ key, b'.written key' = b.written key'
  saves : b'.saves = b.saves

theorem differsAt_reads (b : DiskBook) (uri : UriComponents) (purpose : ReadPurpose)
    (bytes : ByteArray) : (b.reads uri purpose bytes).DiffersAt uri.key b := by
  simp only [reads]
  split
  · exact ⟨fun _ h ↦ Function.update_of_ne h _ _, fun _ h ↦ Function.update_of_ne h _ _, rfl⟩
  · exact ⟨fun _ h ↦ Function.update_of_ne h _ _, fun _ _ ↦ rfl, rfl⟩
  · exact ⟨fun _ _ ↦ rfl, fun _ _ ↦ rfl, rfl⟩

end DiskBook

/-- The document and the token of a `WriteFile`. -/
def Effect.write : Effect → Option (UriComponents × Token)
  | .writeFile uri _ token => some (uri, token)
  | _ => none

/-- The book after a call: what its input tells, then the saves it started. -/
def DiskBook.after (b : DiskBook) (s : SessionCore) (c : CoreCall) : DiskBook :=
  let b := match c with
    | .handle _ _ input => b.learn s.docs input
    | .resync _ _ => b
  ((s.call c).2.filterMap Effect.write).foldl (saving (s.call c).1.docs) b

/-- A save that is over meets a buffer it may meet: of its own opening, the buffer is the one it saved
or is dirty anyway; of an opening before, the buffer is dirty and cannot be taken for the one it
saved. -/
def SaveRecord.Meets (r : SaveRecord) (doc : OpenDocument) : Prop :=
  if r.editorId = doc.editorId then
    r.version = doc.extVersion ∨ doc.isDirty = true ∨ r.lines = doc.lines
  else doc.isDirty = true ∧ r.version ≠ doc.extVersion

instance (r : SaveRecord) (doc : OpenDocument) : Decidable (r.Meets doc) :=
  inferInstanceAs (Decidable (if r.editorId = doc.editorId then
    r.version = doc.extVersion ∨ doc.isDirty = true ∨ r.lines = doc.lines
  else doc.isDirty = true ∧ r.version ≠ doc.extVersion))

variable {b' : DiskBook} {F : Finset Part} {r : SaveRecord}

namespace SessionCore

variable {s t : SessionCore} {b : DiskBook} {key : String} {doc : OpenDocument}

/-! ### One document -/

/-- What the book has to say of an open document: if it is clean, its lines were written, or they were
read and are what the core holds for the file's; and a save of this opening is of a version before,
or of what the buffer holds. -/
structure OnDisk (b : DiskBook) (nextEditor : ℕ) (key : String) (doc : OpenDocument) : Prop where
  uri : doc.uri.key = key
  version : doc.mirror.version = doc.extVersion
  editor : ∃ n ≤ nextEditor, doc.editorId = "ember-editor-" ++ toString n
  clean : doc.isDirty = false → b.written key = some doc.lines ∨
    (b.read key = some doc.lines ∧ doc.diskText = doc.mirror.text)
  saves : ∀ t r, b.saves t = some r → r.key = key → r.editorId = doc.editorId →
    r.version ≤ doc.extVersion ∧ (r.version = doc.extVersion → r.lines = doc.lines)

namespace OnDisk

variable {n : ℕ}

/-- A clean document's lines were read or written. -/
theorem read_or_written (h : OnDisk b n key doc) (hclean : doc.isDirty = false) :
    b.read key = some doc.lines ∨ b.written key = some doc.lines :=
  (h.clean hclean).elim .inr fun h ↦ .inl h.1

/-- A change that fits makes the document dirty, at a version of its own. -/
theorem applyWidgetChange (h : OnDisk b n key doc) (version : ℕ) (range : WidgetRange) (text : Text) :
    OnDisk b n key (doc.applyWidgetChange version range text).1 := by
  rcases doc.applyWidgetChange_cases version range text with
    ⟨err, heq⟩ | ⟨m, c, -, hversion, -, heq⟩
  · rw [heq]
    exact h
  · rw [heq]
    refine ⟨h.uri, rfl, h.editor, nofun, fun t r hr hkey hid ↦ ?_⟩
    obtain ⟨hle, -⟩ := h.saves t r hr hkey hid
    have hlt : r.version < doc.extBase + version := by
      rw [h.version] at hversion
      exact lt_of_le_of_lt hle hversion
    exact ⟨hlt.le, fun heq ↦ absurd heq hlt.ne⟩

/-- New content, one version on, of lines that were read or written. -/
theorem reset (h : OnDisk b n key doc) (hsaves : b'.saves = b.saves) (text : Text) (bom : Bool)
    (generation : ℕ)
    (hlines : b'.read key = some (splitLines text) ∨ b'.written key = some (splitLines text)) :
    OnDisk b' n key (doc.reset text bom generation).1 := by
  refine ⟨h.uri, rfl, h.editor, fun _ ↦ ?_, fun t r hr hkey hid ↦ ?_⟩
  · exact hlines.elim (fun hread ↦ .inr ⟨hread, rfl⟩) .inl
  · rw [hsaves] at hr
    obtain ⟨hle, -⟩ := h.saves t r hr hkey hid
    have hlt : r.version < doc.extVersion + 1 := Nat.lt_succ_of_le hle
    exact ⟨hlt.le, fun heq ↦ absurd heq hlt.ne⟩

/-- A text in mirror form is the buffer's only if its lines are. -/
theorem lines_of_mirrorText {text : Text} (h : mirrorText text = doc.mirror.text) :
    splitLines text = doc.lines := by
  have hsplit := congrArg splitLines h
  rwa [mirrorText, DocumentMirror.text, splitLines_joinLines (validLines_splitLines text),
    splitLines_joinLines doc.mirror.valid] at hsplit

/-- What a reload reads without touching the buffer leaves the book right: the file holds what the
core takes it to hold or what the buffer holds, or the buffer is dirty. -/
theorem reload (h : OnDisk b n key doc) {text : Text}
    (hsame : doc.matchesDisk text = true ∨ doc.matchesBuffer text = true ∨ doc.isDirty = true) :
    OnDisk { b with read := Function.update b.read key (some (splitLines text)) } n key doc := by
  refine ⟨h.uri, h.version, h.editor, fun hclean ↦ ?_, h.saves⟩
  rcases h.clean hclean with hwritten | ⟨hread, hdisk⟩
  · exact .inl hwritten
  · have htext : mirrorText text = doc.mirror.text := by
      rcases hsame with hsame | hsame | hdirty
      · exact (beq_iff_eq.1 hsame).trans hdisk
      · exact beq_iff_eq.1 hsame
      · rw [hclean] at hdirty
        cases hdirty
    refine .inr ⟨?_, hdisk⟩
    rw [lines_of_mirrorText htext]
    exact Function.update_self key _ b.read

/-- The end of a save of this opening. -/
theorem saved_same (h : OnDisk b n key doc) {token : Token} (bytes : ByteArray)
    (hr : b.saves token = some r) (hkey : r.key = key) (hid : r.editorId = doc.editorId)
    (hmeets : r.Meets doc) :
    OnDisk { b with
      saves := Function.update b.saves token none
      written := Function.update b.written key (some r.lines) } n key
      (doc.saved r.version bytes).1 := by
  have hwritten (hlines : r.lines = doc.lines) :
      Function.update b.written key (some r.lines) key = some doc.lines := by
    rw [Function.update_self, hlines]
  have hsaves (t : Token) (r' : SaveRecord) (hr' : Function.update b.saves token none t = some r') :
      b.saves t = some r' := by
    by_cases ht : t = token
    · rw [ht, Function.update_self] at hr'
      cases hr'
    · rwa [Function.update_of_ne ht] at hr'
  rw [SaveRecord.Meets, if_pos hid] at hmeets
  obtain ⟨diskText, ⟨hversion, heq⟩ | ⟨hversion, heq⟩⟩ := doc.saved_cases r.version bytes
  · rw [heq]
    exact ⟨h.uri, h.version, h.editor, fun _ ↦ .inl (hwritten ((h.saves token r hr hkey hid).2 hversion)),
      fun t r' hr' ↦ h.saves t r' (hsaves t r' hr')⟩
  · rw [heq]
    refine ⟨h.uri, h.version, h.editor, fun hclean ↦ ?_, fun t r' hr' ↦ h.saves t r' (hsaves t r' hr')⟩
    rcases hmeets with hsame | hdirty | hlines
    · exact absurd hsame hversion
    · cases hdirty.symm.trans hclean
    · exact .inl (hwritten hlines)

/-- The end of a save of an opening before. -/
theorem saved_other (h : OnDisk b n key doc) {token : Token} (bytes : ByteArray)
    (hid : r.editorId ≠ doc.editorId) (hmeets : r.Meets doc) :
    OnDisk { b with saves := Function.update b.saves token none } n key
      (doc.saved r.version bytes).1 := by
  rw [SaveRecord.Meets, if_neg hid] at hmeets
  obtain ⟨diskText, ⟨hversion, -⟩ | ⟨-, heq⟩⟩ := doc.saved_cases r.version bytes
  · exact absurd hversion hmeets.2
  · rw [heq]
    refine ⟨h.uri, h.version, h.editor, fun hclean ↦ ?_, fun t r' hr' ↦ h.saves t r' ?_⟩
    · cases hmeets.1.symm.trans hclean
    · by_cases ht : t = token
      · rw [ht] at hr'
        cases (Function.update_self token none b.saves).symm.trans hr'
      · exact (Function.update_of_ne ht none b.saves).symm.trans hr'

/-- The book changed for other documents only, and lost saves. -/
theorem congr (h : OnDisk b n key doc) (hread : b'.read key = b.read key)
    (hwritten : b'.written key = b.written key)
    (hsaves : ∀ t r, b'.saves t = some r → b.saves t = some r) : OnDisk b' n key doc :=
  ⟨h.uri, h.version, h.editor, by rw [hread, hwritten]; exact h.clean,
    fun t r hr ↦ h.saves t r (hsaves t r hr)⟩

theorem mono {m : ℕ} (h : OnDisk b n key doc) (hle : n ≤ m) : OnDisk b m key doc := by
  obtain ⟨i, hi, hid⟩ := h.editor
  exact ⟨h.uri, h.version, ⟨i, hi.trans hle, hid⟩, h.clean, h.saves⟩

end OnDisk

/-! ### The core -/

/-- The invariant: the book is right about every open document, and knows the saves under way. -/
structure Kept (s : SessionCore) (b : DiskBook) : Prop where
  docs : ∀ key doc, s.docs[key]? = some doc → OnDisk b s.nextEditor key doc
  saves : ∀ t, (s.saves[t]?).map (fun x ↦ (x.1, x.2.1)) = (b.saves t).map fun r ↦ (r.key, r.version)
  editors : ∀ t r, b.saves t = some r →
    ∃ n ≤ s.nextEditor, r.editorId = "ember-editor-" ++ toString n

namespace Kept

section

variable (hs : s.Kept b)
include hs

/-- What touches neither documents nor saves keeps the invariant. -/
theorem of_changes (h : Changes F s t) (hF : F ⊆ {.exthostOnly, .opening, .registry, .lenses,
    .inline, .pending, .tokens, .models, .frees, .asks, .reads, .writes, .lensRequests, .lensLists,
    .lensSerial}) : t.Kept b := by
  replace h := h.mono hF
  have hdocs : t.docs = s.docs := h.keep .docs (by decide)
  have hsaves : t.saves = s.saves := h.keep .saves (by decide)
  have heditors : t.nextEditor = s.nextEditor := h.keep .editors (by decide)
  refine ⟨?_, ?_, ?_⟩
  · rw [hdocs, heditors]
    exact hs.docs
  · rw [hsaves]
    exact hs.saves
  · rw [heditors]
    exact hs.editors

/-- A document is put back, and the book learned of it. -/
theorem replace (hoff : b'.DiffersAt key b)
    (hdoc : OnDisk b' s.nextEditor key doc) : (s.setDoc key doc).Kept b' := by
  refine ⟨fun key' doc' h ↦ ?_, hoff.saves ▸ hs.saves, hoff.saves ▸ hs.editors⟩
  rw [SessionCore.setDoc, Std.ExtTreeMap.getElem?_insert] at h
  split at h
  · rename_i heq
    obtain rfl := Std.LawfulEqCmp.compare_eq_iff_eq.1 heq
    obtain rfl := Option.some.inj h
    exact hdoc
  · rename_i hne
    have hne : key' ≠ key := fun heq ↦ hne (Std.LawfulEqCmp.compare_eq_iff_eq.2 heq.symm)
    exact (hs.docs key' doc' h).congr (hoff.read key' hne) (hoff.written key' hne)
      (by rw [hoff.saves]; exact fun _ _ ↦ id)

/-- The book learned of a document that stays as it is. -/
theorem learn (hoff : b'.DiffersAt key b)
    (hdoc : ∀ doc, s.docs[key]? = some doc → OnDisk b' s.nextEditor key doc) : s.Kept b' := by
  refine ⟨fun key' doc' h ↦ ?_, hoff.saves ▸ hs.saves, hoff.saves ▸ hs.editors⟩
  by_cases hne : key' = key
  · exact hne ▸ hdoc doc' (hne ▸ h)
  · exact (hs.docs key' doc' h).congr (hoff.read key' hne) (hoff.written key' hne)
      (by rw [hoff.saves]; exact fun _ _ ↦ id)

theorem setDoc (hdoc : OnDisk b s.nextEditor key doc) : (s.setDoc key doc).Kept b :=
  hs.replace ⟨fun _ _ ↦ rfl, fun _ _ ↦ rfl, rfl⟩ hdoc

theorem eraseDoc (key : String) : Kept { s with docs := s.docs.erase key } b := by
  refine ⟨fun key' doc' h ↦ ?_, hs.saves, hs.editors⟩
  rw [Std.ExtTreeMap.getElem?_erase] at h
  split at h
  · cases h
  · exact hs.docs key' doc' h

theorem onClose (ord : IterOrder) (uri : UriComponents) : (s.onClose ord uri).Kept b := by
  simp only [SessionCore.onClose]
  split
  · exact hs
  · exact (hs.eraseDoc uri.key).of_changes (((((changes_delta _).trans (changes_unwatch _)).trans
      (changes_forgetDoc _ _)).trans changes_sendTabModel).trans (changes_ui _)) (by decide)

theorem onCodeChanged (key : String) (version : ℕ) (range : WidgetRange) (text : Text) :
    (s.onCodeChanged key version range text).Kept b := by
  rcases onCodeChanged_cases s key version range text with
    ⟨-, h⟩ | ⟨doc, hdoc, -, h⟩ | ⟨doc, doc', call, r, hdoc, happly, hr, h⟩
  · rw [h]
    exact hs
  · exact (hs.setDoc (hs.docs key doc hdoc)).of_changes h (by decide)
  · have hchanged := (hs.docs key doc hdoc).applyWidgetChange version range text
    rw [happly] at hchanged
    rw [h]
    exact (hs.setDoc hchanged).of_changes (((changes_widgetCall happly).trans hr).trans
      (changes_afterChange _ _ _)) (by decide)

theorem onTriggerInline (uri : UriComponents) (generation : ℕ) (pos : WidgetPos) :
    (s.onTriggerInline uri generation pos).Kept b := by
  simp only [SessionCore.onTriggerInline]
  split
  · exact hs
  · rename_i doc hdoc
    split
    · exact hs
    · obtain ⟨huri, hversion, heditor, hclean, hsaves⟩ := hs.docs uri.key doc hdoc
      have hcursor : OnDisk b s.nextEditor uri.key { doc with cursor := some pos } :=
        ⟨huri, hversion, heditor, hclean, hsaves⟩
      exact (hs.setDoc hcursor).of_changes (changes_setInline _ _) (by decide)

/-- New content that was read or written. -/
theorem resetDoc (hoff : b'.DiffersAt key b) (text : Text) (bom : Option Bool)
    (hlines : key ∈ s.docs →
      b'.read key = some (splitLines text) ∨ b'.written key = some (splitLines text)) :
    (s.resetDoc key text bom).Kept b' := by
  have hgeneration : Kept { s with nextGeneration := s.nextGeneration + 1 } b :=
    hs.of_changes (changes_nextGeneration _) (by decide)
  simp only [SessionCore.resetDoc]
  split
  · rename_i hnone
    exact hgeneration.learn hoff fun doc hdoc ↦ by cases hnone.symm.trans hdoc
  · rename_i doc hdoc
    have hmem : key ∈ s.docs := Std.ExtTreeMap.mem_iff_isSome_getElem?.2 (by rw [hdoc]; rfl)
    have hreset := fun bom ↦
      (hs.docs key doc hdoc).reset hoff.saves text bom (s.nextGeneration + 1) (hlines hmem)
    exact (hgeneration.replace hoff (hreset _)).of_changes ((changes_resetCalls _ _ _ _).trans
      (changes_resetViews _ _)) (by decide)

theorem onReload (uri : UriComponents) (bytes : ByteArray) :
    (s.onReload uri (.ok bytes)).Kept (b.reads uri .reload bytes) := by
  have hoff := b.differsAt_reads uri .reload bytes
  simp only [SessionCore.onReload]
  cases hdoc : s.docs[uri.key]? with
  | none => exact hs.learn hoff fun doc h ↦ by cases hdoc.symm.trans h
  | some doc =>
    dsimp only
    cases hdecode : decode bytes with
    | error err =>
      have hsame : b.reads uri .reload bytes = b := by simp only [DiskBook.reads, hdecode]
      rw [hsame]
      exact hs
    | ok p =>
      obtain ⟨text, bom⟩ := p
      have hread : b.reads uri .reload bytes =
          { b with read := Function.update b.read uri.key (some (splitLines text)) } := by
        simp only [DiskBook.reads, hdecode]
      have hstays (hsame : doc.matchesDisk text = true ∨ doc.matchesBuffer text = true ∨
          doc.isDirty = true) : s.Kept (b.reads uri .reload bytes) :=
        hs.learn hoff fun doc' h ↦ by
          obtain rfl := Option.some.inj (hdoc.symm.trans h)
          rw [hread]
          exact (hs.docs uri.key doc hdoc).reload hsame
      dsimp only
      split
      · rename_i hmatch
        exact hstays ((Bool.or_eq_true_iff.1 hmatch).imp_right .inl)
      · split
        · rename_i hdirty
          exact (hstays (.inr (.inr hdirty))).of_changes (changes_ui _) (by decide)
        · refine hs.resetDoc hoff text _ fun _ ↦ .inl ?_
          rw [hread]
          exact Function.update_self _ _ _

/-- A document just opened holds what was read. -/
theorem finishOpen (uri : UriComponents) (bytes : ByteArray) :
    (s.finishOpen uri bytes).Kept (b.reads uri .open_ bytes) := by
  rcases s.finishOpen_cases uri bytes with
    ⟨err, hdecode, h⟩ | ⟨text, bom, r, v, doc, hdecode, hr, hdoc, h⟩
  · have hsame : b.reads uri .open_ bytes = b := by simp only [DiskBook.reads, hdecode]
    rw [hsame]
    exact hs.of_changes h (by decide)
  · have htake := changes_takeOver (s := s) uri.key
    rw [hr] at htake
    have htaken : r.Kept b := hs.of_changes htake (by decide)
    have hnext : Kept { r with nextEditor := r.nextEditor + 1 } b := by
      refine ⟨fun key d hd ↦ (htaken.docs key d hd).mono (Nat.le_succ _), htaken.saves, fun t r' hr' ↦ ?_⟩
      obtain ⟨n, hn, hid⟩ := htaken.editors t r' hr'
      exact ⟨n, hn.trans (Nat.le_succ _), hid⟩
    have hread : b.reads uri .open_ bytes = { b with
        read := Function.update b.read uri.key (some (splitLines text))
        written := Function.update b.written uri.key none } := by
      simp only [DiskBook.reads, hdecode]
    have hopened : OnDisk (b.reads uri .open_ bytes) (r.nextEditor + 1) uri.key doc := by
      rw [hdoc, hread]
      refine ⟨rfl, rfl, ⟨_, le_rfl, rfl⟩, fun _ ↦ .inr ⟨Function.update_self _ _ _, rfl⟩,
        fun t r' hr' _ hid ↦ ?_⟩
      -- no save is of the editor that opens now
      obtain ⟨n, hn, hid'⟩ := htaken.editors t r' hr'
      have hname : "ember-editor-" ++ toString n = "ember-editor-" ++ toString (r.nextEditor + 1) :=
        hid'.symm.trans hid
      have heq : n = r.nextEditor + 1 := Nat.repr_injective (String.append_right_inj _ |>.1 hname)
      omega
    have hcalls : Kept (rpcs { r with nextEditor := r.nextEditor + 1 } doc.addCalls) b :=
      hnext.of_changes (changes_addCalls doc) (by decide)
    exact (hcalls.replace (b.differsAt_reads uri .open_ bytes) hopened).of_changes h (by decide)

/-- A save is over, whatever became of it. -/
theorem endSave (token : Token) :
    Kept { s with saves := s.saves.erase token }
      { b with saves := Function.update b.saves token none } := by
  have hsub (t : Token) (r : SaveRecord) (hr : Function.update b.saves token none t = some r) :
      b.saves t = some r := by
    by_cases ht : t = token
    · rw [ht, Function.update_self] at hr
      cases hr
    · rwa [Function.update_of_ne ht] at hr
  refine ⟨fun key doc hdoc ↦ (hs.docs key doc hdoc).congr rfl rfl hsub, fun t ↦ ?_,
    fun t r hr ↦ hs.editors t r (hsub t r hr)⟩
  show ((s.saves.erase token)[t]?).map _ = (Function.update b.saves token none t).map _
  by_cases ht : t = token
  · rw [ht, Function.update_self, Std.ExtTreeMap.getElem?_erase_self]
    rfl
  · rw [Function.update_of_ne ht, Std.ExtTreeMap.getElem?_erase, if_neg (by simpa using Ne.symm ht)]
    exact hs.saves t

/-- A save is over that meets a buffer it may meet. -/
theorem onFileWritten (uri : UriComponents) (token : Token)
    (result : Except String Unit)
    (hmeets : result.isOk → ∀ r ∈ b.saves token, ∀ doc ∈ s.docs[r.key]?, r.Meets doc) :
    (s.onFileWritten uri token result).Kept (b.writes s.docs token result) := by
  have hknown := hs.saves token
  rcases s.onFileWritten_cases uri token result with ⟨hnone, h⟩ | ⟨key, v, bytes, hsome, hcases⟩
  · rw [hnone, Option.map_none] at hknown
    rw [h, DiskBook.writes, Option.map_eq_none_iff.1 hknown.symm]
    exact hs
  · rw [hsome, Option.map_some] at hknown
    obtain ⟨r, hr, heq⟩ := Option.map_eq_some_iff.1 hknown.symm
    obtain ⟨rfl, rfl⟩ := Prod.mk.inj heq
    have hend := hs.endSave token
    rcases hcases with ⟨hquiet, h⟩ | ⟨doc, hok, hdoc, h⟩
    · have hwrites : b.writes s.docs token result =
          { b with saves := Function.update b.saves token none } := by
        simp only [DiskBook.writes, hr]
        rcases hquiet with hfail | hnone
        · cases result with
          | error e => rfl
          | ok u => cases hfail
        · rw [hnone]
          cases result <;> rfl
      rw [hwrites]
      exact hend.of_changes h (by decide)
    · have hmeets' := hmeets hok r hr doc hdoc
      have hdisk := hs.docs r.key doc hdoc
      have hwrites : b.writes s.docs token result = if r.editorId = doc.editorId then
          { b with
            saves := Function.update b.saves token none
            written := Function.update b.written r.key (some r.lines) }
          else { b with saves := Function.update b.saves token none } := by
        cases result with
        | error e => cases hok
        | ok u => simp only [DiskBook.writes, hr, hdoc]
      rw [hwrites]
      split
      · rename_i hid
        have hoff : DiskBook.DiffersAt { b with
            saves := Function.update b.saves token none
            written := Function.update b.written r.key (some r.lines) } r.key
            { b with saves := Function.update b.saves token none } :=
          ⟨fun _ _ ↦ rfl, fun _ hne ↦ Function.update_of_ne hne _ _, rfl⟩
        exact (hend.replace hoff (hdisk.saved_same bytes hr rfl hid hmeets')).of_changes
          ((changes_savedCalls _ _ _).trans h) (by decide)
      · rename_i hid
        exact (hend.setDoc (hdisk.saved_other bytes hid hmeets')).of_changes
          ((changes_savedCalls _ _ _).trans h) (by decide)

/-- A save starts, and the book learns of it from the effect. -/
theorem onSave (key : String) :
    ∃ ws, (s.onSave key).out.filterMap Effect.write = s.out.filterMap Effect.write ++ ws ∧
      (s.onSave key).Kept (ws.foldl (DiskBook.saving s.docs) b) := by
  simp only [SessionCore.onSave]
  split
  · exact ⟨[], by rw [List.append_nil], hs⟩
  · rename_i doc hdoc
    have hdisk := hs.docs key doc hdoc
    refine ⟨[(doc.uri, s.nextToken + 1)], by rw [push, List.filterMap_append]; rfl, ?_⟩
    let r : SaveRecord := ⟨key, doc.editorId, doc.extVersion, doc.lines⟩
    have hsaving : [(doc.uri, s.nextToken + 1)].foldl (DiskBook.saving s.docs) b =
        { b with saves := Function.update b.saves (s.nextToken + 1) (some r) } := by
      simp only [List.foldl_cons, List.foldl_nil, DiskBook.saving, hdisk.uri, hdoc, r]
    -- what the book has of a token is the new save or what it had
    have hcases {t : Token} {r' : SaveRecord}
        (hr' : Function.update b.saves (s.nextToken + 1) (some r) t = some r') :
        r' = r ∨ b.saves t = some r' := by
      by_cases ht : t = s.nextToken + 1
      · rw [ht, Function.update_self] at hr'
        exact .inl (Option.some.inj hr').symm
      · rw [Function.update_of_ne ht] at hr'
        exact .inr hr'
    rw [hsaving]
    refine ⟨fun key' doc' hdoc' ↦ ?_, fun t ↦ ?_, fun t r' hr' ↦ ?_⟩
    · obtain ⟨huri, hversion, heditor, hclean, hsaves⟩ := hs.docs key' doc' hdoc'
      refine ⟨huri, hversion, heditor, hclean, fun t r' hr' hkey hid ↦ ?_⟩
      rcases hcases hr' with rfl | hr'
      · obtain rfl : key = key' := hkey
        obtain rfl := Option.some.inj (hdoc.symm.trans hdoc')
        exact ⟨le_rfl, fun _ ↦ rfl⟩
      · exact hsaves t r' hr' hkey hid
    · show ((s.saves.insert (s.nextToken + 1) (key, doc.extVersion, doc.saveBytes))[t]?).map _ =
        (Function.update b.saves (s.nextToken + 1) (some r) t).map _
      by_cases ht : t = s.nextToken + 1
      · rw [ht, Function.update_self, Std.ExtTreeMap.getElem?_insert_self]
        rfl
      · rw [Function.update_of_ne ht, Std.ExtTreeMap.getElem?_insert,
          if_neg (by simpa using Ne.symm ht)]
        exact hs.saves t
    · rcases hcases hr' with rfl | hr'
      · exact hdisk.editor
      · exact hs.editors t r' hr'

end

end Kept

/-! ### Runs -/

/-- The calls after which a clean buffer is still what was read or written: a resync meets a clean
buffer, or one that was read or written, and a save that is over meets a buffer it may meet. -/
def KeepsDisk (x : SessionCore × DiskBook) : CoreCall → Prop
  | .handle _ _ (.fileWritten _ token result) =>
    result.isOk → ∀ r ∈ x.2.saves token, ∀ doc ∈ x.1.docs[r.key]?, r.Meets doc
  | .resync _ uri => ∀ doc ∈ x.1.docs[uri.key]?, doc.isDirty = false ∨
      x.2.read uri.key = some doc.lines ∨ x.2.written uri.key = some doc.lines
  | _ => True

/-- A `WriteFile` is about writes. -/
theorem write_none_of_changes (h : Changes F s t) (hF : .writes ∉ F) :
    t.out.filterMap Effect.write = s.out.filterMap Effect.write :=
  h.filterMap_out fun e w he ↦ ⟨.writes, hF, by cases e <;> first | rfl | cases he⟩

/-- The book is right about a core that went on from `s`, once it learned of the saves started. -/
def KeptSince (s t : SessionCore) (b : DiskBook) : Prop :=
  ∃ ws, t.out.filterMap Effect.write = s.out.filterMap Effect.write ++ ws ∧
    t.Kept (ws.foldl (DiskBook.saving t.docs) b)

/-- No save was started. -/
theorem Kept.since (ht : t.Kept b) (h : Changes F s t) (hF : .writes ∉ F) :
    KeptSince s t b := ⟨[], by rw [write_none_of_changes h hF, List.append_nil], ht⟩

/-- Neither documents nor saves were touched since. -/
theorem KeptSince.of_changes {u : SessionCore} (ht : KeptSince s t b)
    (h : Changes F t u) (hF : F ⊆ {.exthostOnly, .opening, .registry, .lenses, .inline, .pending,
      .tokens, .models, .frees, .asks, .reads, .lensRequests, .lensLists, .lensSerial}) :
    KeptSince s u b := by
  replace h := h.mono hF
  obtain ⟨ws, hws, hkept⟩ := ht
  have hdocs : u.docs = t.docs := h.keep .docs (by decide)
  refine ⟨ws, by rw [write_none_of_changes h (by decide), hws], ?_⟩
  rw [hdocs]
  exact hkept.of_changes h (by decide)

namespace Kept

theorem onFileRead (hs : s.Kept b) (uri : UriComponents) (purpose : ReadPurpose)
    (result : Except String ByteArray) :
    (s.onFileRead uri purpose result).Kept (b.learn s.docs (.fileRead uri purpose result)) := by
  have hopening (opening) : Kept { s with opening } b :=
    hs.of_changes (changes_opening _) (by decide)
  cases purpose with
  | open_ =>
    cases result with
    | error e => exact (hopening _).of_changes (changes_ui _) (by decide)
    | ok bytes => exact (hopening _).finishOpen uri bytes
  | reload =>
    cases result with
    | error e => exact hs
    | ok bytes => exact hs.onReload uri bytes
  | extHostOpen req =>
    have hsame : b.learn s.docs (.fileRead uri (.extHostOpen req) result) = b := by
      cases result with
      | error e => rfl
      | ok bytes => simp only [DiskBook.learn, DiskBook.reads]
    rw [hsame]
    exact hs.of_changes (changes_finishExthostOpen _ _ _) (by decide)

theorem onWidget (hs : s.Kept b) (uri : UriComponents) (generation : ℕ) (event : WidgetEvent) :
    KeptSince s (s.onWidget uri generation event) b := by
  have hquiet {r : SessionCore} (h : Changes {.inline, .pending, .frees} s r) : KeptSince s r b :=
    (hs.of_changes h (by decide)).since h (by decide)
  simp only [SessionCore.onWidget]
  split
  · split
    · exact (hs.onCodeChanged _ _ _ _).since (changes_onCodeChanged _ _ _ _) (by decide)
    · exact hquiet changes_none
    · exact hquiet ((changes_onHoverRest _ _).mono (by decide))
    · exact hquiet (changes_endHover.mono (by decide))
    · obtain ⟨ws, hws, hkept⟩ := hs.onSave uri.key
      have hdocs : (s.onSave uri.key).docs = s.docs := (changes_onSave _).keep .docs (by decide)
      exact ⟨ws, hws, by rw [hdocs]; exact hkept⟩
    · exact hquiet (changes_onActivated _ _)
  · exact hquiet changes_none

/-- **What an input leaves the book right about**, the saves it starts included. -/
theorem dispatch (hs : s.Kept b) (ord : IterOrder) (now : Instant) (input : Input)
    (h : KeepsDisk (s, b) (.handle ord now input)) :
    KeptSince s (s.dispatch ord input) (b.learn s.docs input) := by
  have hquiet {r : SessionCore} (h : Changes {.opening, .registry, .lenses, .lensLists, .lensSerial, .inline,
      .pending, .models, .frees, .reads} s r) : KeptSince s r b :=
    (hs.of_changes h (by decide)).since h (by decide)
  cases input with
  | open_ uri => exact hquiet ((changes_onOpen uri).mono (by decide))
  | close uri => exact (hs.onClose ord uri).since (changes_onClose ord uri) (by decide)
  | focus uri => exact hquiet ((changes_onFocus uri).mono (by decide))
  | widget uri generation event => exact hs.onWidget uri generation event
  | triggerInline uri generation pos =>
    exact (hs.onTriggerInline _ _ _).since (changes_onTriggerInline _ _ _) (by decide)
  | extHostRequest r => exact hquiet ((changes_onExthostRequest r).mono (by decide))
  | rpcReply token result => exact hquiet ((changes_onRpcReply _ _).mono (by decide))
  | fileRead uri purpose result =>
    exact (hs.onFileRead _ _ _).since (changes_onFileRead _ _ _) (by decide)
  | fileWritten uri token result =>
    exact (hs.onFileWritten uri token result h).since (changes_onFileWritten _ _ _) (by decide)
  | filesChanged changes => exact hquiet ((changes_onFilesChanged _ _).mono (by decide))
  | tick => exact hquiet changes_none

/-- **One call of a driver keeps the book right.** -/
theorem call (hs : s.Kept b) (hout : s.out = []) {c : CoreCall} (h : KeepsDisk (s, b) c) :
    (s.call c).1.Kept (b.after s c) := by
  have hquiet (now : Instant) : Changes ∅ s { s with now } := changes_untracked rfl
  cases c with
  | handle ord now input =>
    have hstart : Kept { s with now } b := hs.of_changes (hquiet now) (by decide)
    have hdispatch := hstart.dispatch ord now input (by cases input <;> exact h)
    obtain ⟨ws, hws, hkept⟩ := hdispatch.of_changes
      ((changes_runTimers ord).trans changes_flushDecorations) (by decide)
    have hwrites : (s.call (.handle ord now input)).2.filterMap Effect.write = ws := by
      refine hws.trans ?_
      show s.out.filterMap Effect.write ++ ws = ws
      rw [hout, List.filterMap_nil, List.nil_append]
    rw [DiskBook.after, hwrites]
    exact ⟨hkept.docs, hkept.saves, hkept.editors⟩
  | resync now uri =>
    have hstart : Kept { s with now } b := hs.of_changes (hquiet now) (by decide)
    obtain ⟨r, hr, hcall⟩ : ∃ r, KeptSince s r b ∧
        s.call (.resync now uri) = r.flushDecorations.take := by
      cases hdoc : s.docs[uri.key]? with
      | none =>
        exact ⟨{ s with now }, hstart.since (hquiet now) (by decide), by
          simp only [SessionCore.call, resync, hdoc]⟩
      | some doc =>
        refine ⟨SessionCore.resetDoc { s with now } uri.key doc.widgetText none, ?_, by
          simp only [SessionCore.call, resync, hdoc]⟩
        -- the text is the buffer's own
        have hlines : splitLines doc.widgetText = doc.lines :=
          splitLines_joinLines doc.mirror.valid .lf
        refine (hstart.resetDoc ⟨fun _ _ ↦ rfl, fun _ _ ↦ rfl, rfl⟩ _ none fun _ ↦ ?_).since
          ((hquiet now).trans (changes_resetDoc _ _ _)) (by decide)
        rw [hlines]
        exact (h doc hdoc).elim (hs.docs uri.key doc hdoc).read_or_written id
    obtain ⟨ws, hws, hkept⟩ := hr.of_changes changes_flushDecorations (by decide)
    have hwrites : (s.call (.resync now uri)).2.filterMap Effect.write = ws := by
      rw [hcall]
      refine hws.trans ?_
      show s.out.filterMap Effect.write ++ ws = ws
      rw [hout, List.filterMap_nil, List.nil_append]
    rw [DiskBook.after, hwrites, hcall]
    exact ⟨hkept.docs, hkept.saves, hkept.editors⟩

end Kept

/-- The runs of a session core, watched. -/
def watchedRuns (languages : LanguageRegistry) (opts : CoreOptions) (now : Instant) :
    StepSystem (SessionCore × DiskBook) CoreCall :=
  .ofFun (new languages opts now, .new) fun x c ↦ ((x.1.call c).1, x.2.after x.1 c)

/-- Clean buffers are what was read or written last, and a file read again does not take edits away
that are neither. -/
structure BuffersOnDisk (x : SessionCore × DiskBook) : Prop where
  clean : ∀ key doc, x.1.docs[key]? = some doc → doc.isDirty = false →
    x.2.read key = some doc.lines ∨ x.2.written key = some doc.lines
  reload : ∀ ord now uri bytes doc, x.1.docs[uri.key]? = some doc →
    ∃ doc', (x.1.call (.handle ord now (.fileRead uri .reload (.ok bytes)))).1.docs[uri.key]? =
        some doc' ∧
      (doc'.lines = doc.lines ∨ doc.isDirty = false ∧
        (x.2.read uri.key = some doc.lines ∨ x.2.written uri.key = some doc.lines))

/-- A reload leaves a dirty buffer alone, and every document open. -/
theorem docs_onReload {uri : UriComponents} (bytes : ByteArray) (hdoc : s.docs[uri.key]? = some doc) :
    ∃ doc', (s.onReload uri (.ok bytes)).docs[uri.key]? = some doc' ∧
      (doc'.lines = doc.lines ∨ doc.isDirty = false) := by
  simp only [onReload, hdoc]
  split
  · exact ⟨doc, hdoc, .inl rfl⟩
  · rename_i text bom _
    split
    · exact ⟨doc, hdoc, .inl rfl⟩
    · split
      · exact ⟨doc, hdoc, .inl rfl⟩
      · rename_i hdirty
        obtain ⟨doc', hdoc'⟩ := docs_resetDoc text (some bom) hdoc
        exact ⟨doc', by rw [hdoc', Std.ExtTreeMap.getElem?_insert_self],
          .inr (Bool.eq_false_iff.2 hdirty)⟩

theorem Kept.buffersOnDisk (hs : s.Kept b) : BuffersOnDisk (s, b) := by
  have hclean {key : String} {doc : OpenDocument} (hdoc : s.docs[key]? = some doc) :=
    (hs.docs key doc hdoc).read_or_written
  refine ⟨fun key doc hdoc ↦ hclean hdoc, fun ord now uri bytes doc hdoc ↦ ?_⟩
  obtain ⟨doc', hdoc', hlines⟩ := docs_onReload (s := { s with now }) bytes hdoc
  have hafter : (s.call (.handle ord now (.fileRead uri .reload (.ok bytes)))).1.docs =
      (SessionCore.onReload { s with now } uri (.ok bytes)).docs :=
    ((changes_runTimers ord).trans changes_flushDecorations).keep .docs (by decide)
  exact ⟨doc', by rw [hafter, hdoc'], hlines.imp_right fun h ↦ ⟨h, hclean hdoc h⟩⟩

/-- **A clean buffer is on disk**, in every run whose calls keep it so. -/
theorem buffersOnDisk_of_reachable {languages : LanguageRegistry} {opts : CoreOptions} {now : Instant}
    {x : SessionCore × DiskBook}
    (h : ((watchedRuns languages opts now).restrict KeepsDisk).Reachable x) : BuffersOnDisk x := by
  refine (h.invariant (I := fun x : SessionCore × DiskBook ↦ x.1.Kept x.2 ∧ x.1.out = []) ?_
    ?_).1.buffersOnDisk
  · rintro x rfl
    refine ⟨⟨fun key doc hdoc ↦ ?_, fun t ↦ ?_, nofun⟩, rfl⟩
    · rw [new, Std.ExtTreeMap.getElem?_empty] at hdoc
      cases hdoc
    · rw [new, Std.ExtTreeMap.getElem?_empty]
      rfl
  · rintro ⟨s, b⟩ c t - ⟨hs, hout⟩ ⟨hkeeps, rfl⟩
    refine ⟨hs.call hout hkeeps, ?_⟩
    cases c <;> rfl

/-- The core and the book after some calls. -/
def watchedAfter (calls : List CoreCall) : SessionCore × DiskBook :=
  calls.foldl (fun x c ↦ ((x.1.call c).1, x.2.after x.1 c)) (new plainText .default 0, .new)

/-- The user types a letter. -/
def typed : CoreCall :=
  .handle .sorted 0 (.widget aFile 1 (.codeChanged 1 (.empty ⟨0, 0⟩) ['x']))

/-- The user saves. -/
def savedCalls : List CoreCall :=
  [.handle .sorted 0 (.widget aFile 1 (.codeSaveRequested 1)),
    .handle .sorted 0 (.fileWritten aFile 1 (.ok ()))]

/-- What is typed and saved is what the book calls written. -/
theorem buffersOnDisk_of_reachable_saved :
    (watchedAfter (openingCalls [] ++ typed :: savedCalls)).2.written aFile.key = some [['x']] ∧
      BuffersOnDisk (watchedAfter (openingCalls [] ++ typed :: savedCalls)) := by
  let edited := openingCalls [] ++ [typed, .handle .sorted 0 (.widget aFile 1 (.codeSaveRequested 1))]
  -- reading, typing and asking for a save are free
  have hedited : ((watchedRuns plainText .default 0).restrict KeepsDisk).Reachable
      (watchedAfter edited) :=
    StepSystem.reachable_foldl_of_forall fun c hc x ↦ by
      simp only [edited, openingCalls, List.cons_append, List.nil_append, List.mem_cons,
        List.not_mem_nil, or_false] at hc
      rcases hc with rfl | rfl | rfl | rfl <;> trivial
  have hmeets : KeepsDisk (watchedAfter edited) (.handle .sorted 0 (.fileWritten aFile 1 (.ok ()))) := by
    unfold KeepsDisk
    decide +kernel
  exact ⟨by decide +kernel, buffersOnDisk_of_reachable (.next _ hedited ⟨hmeets, rfl⟩)⟩

/-- **A resync takes edits for the file's.** After it the buffer counts as clean, though it holds a
letter that was neither read nor written. -/
theorem not_buffersOnDisk_after_resync :
    ¬ ∀ languages opts now x, (watchedRuns languages opts now).Reachable x → BuffersOnDisk x := by
  intro h
  let calls := openingCalls [] ++ [typed, .resync 0 aFile]
  have hbuffers := h plainText .default 0 (watchedAfter calls) (StepSystem.reachable_foldl calls)
  have hbuffer : ((watchedAfter calls).1.docs[aFile.key]?).map (fun d ↦ (d.isDirty, d.lines)) =
      some (false, [['x']]) := by decide +kernel
  obtain ⟨doc, hdoc, heq⟩ := Option.map_eq_some_iff.1 hbuffer
  obtain ⟨hclean, hlines⟩ := Prod.mk.inj heq
  rcases hbuffers.clean aFile.key doc hdoc hclean with hread | hwritten
  · rw [hlines] at hread
    exact absurd hread (by decide +kernel)
  · rw [hlines] at hwritten
    exact absurd hwritten (by decide +kernel)

end SessionCore

end Ember.Editor
