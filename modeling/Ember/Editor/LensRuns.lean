import Ember.Editor.Host

/-!
# How fresh the stored lenses are

`LensBook` writes down, beside the session core and unseen by it, how often each document was
announced and how many changes of it were reported since, what these numbers were when a request for
lenses was sent, and which lenses an edit deleted.

The core judges a reply by the widget version, which starts again at 0 whenever a document is
announced; and it marks a deleted lens by taking its command away, which a late reply to a resolve
request gives back. So a stored list is of the document's present text, and a deleted lens stays
away, as long as no reply to a request of an earlier announcement and no command for a deleted lens
comes in.
-/

namespace Ember.Editor

open EditorConn

/-- How often a document was announced, and how many changes were reported since. -/
def changeReader : DocReader (ℕ × ℕ) where
  added b _ := (b.1 + 1, 0)
  removed b := b
  changed b _ := (b.1, b.2 + 1)
  saved b := b
  dirtyState b _ := b

/-- The widget version counts the changes since the document was announced. -/
def OpenDocument.Counted (doc : OpenDocument) (b : ℕ × ℕ) : Prop :=
  b.2 = doc.widgetVersion ∧ doc.mirror.version = doc.extVersion

theorem changeReader_follows : changeReader.Follows OpenDocument.Counted fun _ _ ↦ True where
  added doc b hzero _ hversion := ⟨hzero.symm, hversion⟩
  cursor doc b cursor h := h
  changed doc b m version cursor h hversion hlt := by
    obtain ⟨hcount, hext⟩ := h
    refine ⟨?_, rfl⟩
    rw [hext, OpenDocument.extVersion] at hlt
    show b.2 + 1 = version
    have hwrap : version = (doc.widgetVersion + 1) % 2 ^ 32 := hversion
    have hle := Nat.mod_le (doc.widgetVersion + 1) (2 ^ 32)
    omega
  saved doc b version diskText h _ := by
    split <;> exact h

/-- What is known of a request for lenses when it is sent. -/
structure LensRequest where
  key : String
  handle : ℤ
  /-- The numbers of the document. -/
  at_ : ℕ × ℕ

/-- What an observer of the core writes down. -/
structure LensBook where
  docs : String → ℕ × ℕ
  sent : Token → Option LensRequest
  /-- The lenses that an edit deleted: the document, the provider, the serial of the list and the
  index in it. -/
  deleted : String → ℤ → ℕ → ℕ → Bool

namespace LensBook

/-- Nothing yet. -/
def new : LensBook := ⟨fun _ ↦ (0, 0), fun _ ↦ none, fun _ _ _ _ ↦ false⟩

/-- What an effect tells. -/
def take (b : LensBook) : Effect → LensBook
  | .rpc (some t) (.provideCodeLenses handle uri) => { b with
      sent := Function.update b.sent t (some ⟨uri.key, handle, b.docs uri.key⟩) }
  | e => { b with docs := changeReader.after b.docs [e] }

end LensBook

/-- Whether a call is an edit that fits and deletes a lens: the `index`-th one of the list with this
serial that a provider gave for a document. -/
def SessionCore.deletes (s : SessionCore) (c : CoreCall) (key : String) (handle : ℤ)
    (serial index : ℕ) : Bool :=
  match c with
  | .handle _ _ (.widget uri generation (.codeChanged version range text)) =>
    uri.key == key &&
      (s.docs[key]?.any fun doc ↦ doc.generation == generation &&
        (doc.applyWidgetChange version range text).2.isOk) &&
      ((s.lenses.list key handle).any fun list ↦ list.serial == serial &&
        (list.lenses[index]?.any fun lens ↦ (transformRange lens.range range text).isNone))
  | _ => false

/-- The book after a call. -/
def LensBook.after (b : LensBook) (s : SessionCore) (c : CoreCall) : LensBook :=
  (s.call c).2.foldl take { b with
    deleted := fun key handle serial index ↦
      b.deleted key handle serial index || s.deletes c key handle serial index }

/-- Whether a lens is drawn. -/
def Lens.isDrawn (lens : Lens) : Bool := lens.command.any (·.title != "")

/-- Whether a resolve reply has a command with a title. -/
def givesTitle (reply : Value) : Bool :=
  ((reply.get "command").bind CommandDto.fromJson).any (·.title != "")

/-- The lenses that `decorations` draws for a document, each with its provider and its index. -/
def CodeLenses.drawn (l : CodeLenses) (doc : String) : List (ℤ × Lens × CommandDto × ℕ) :=
  ((l.byDoc[doc]?).getD ∅).toList.flatMap fun p ↦ p.2.lenses.zipIdx.filterMap fun q ↦
    q.1.command.bind fun cmd ↦ if cmd.title = "" then none else some (p.1, q.1, cmd, q.2)

/-- One lens is drawn. -/
def CodeLenses.drawOne (doc : String) (version : ℕ) (lines : List Text)
    (acc : Std.ExtTreeMap ℕ (String × ℤ × ℕ) × DecorationIds × List Decoration)
    (e : ℤ × Lens × CommandDto × ℕ) :
    Std.ExtTreeMap ℕ (String × ℤ × ℕ) × DecorationIds × List Decoration :=
  let (byId, ids, out) := acc
  let (handle, lens, cmd, i) := e
  let (id, ids) := ids.id .codeLens doc lens.key
  (byId.insert id (doc, handle, i), ids,
    out ++ [⟨id, version, .codeLens, none, clampRange lines lens.range, cmd.title.toList⟩])

/-- A lens that is drawn is one of a list of the document, and has a title. -/
theorem CodeLenses.mem_drawn {l : CodeLenses} {doc : String} {e : ℤ × Lens × CommandDto × ℕ}
    (h : e ∈ l.drawn doc) : ∃ list, l.list doc e.1 = some list ∧
      list.lenses[e.2.2.2]? = some e.2.1 ∧ e.2.1.isDrawn = true := by
  obtain ⟨⟨handle, list⟩, hlist, h⟩ := List.mem_flatMap.1 h
  obtain ⟨⟨lens, i⟩, hlens, h⟩ := List.mem_filterMap.1 h
  obtain ⟨cmd, hcmd, h⟩ := Option.bind_eq_some_iff.1 h
  split at h
  · cases h
  · next htitle =>
    obtain rfl := Option.some.inj h
    refine ⟨list, ?_, List.mem_zipIdx_iff_getElem?.1 hlens, ?_⟩
    · rw [CodeLenses.list]
      cases hlists : l.byDoc[doc]? with
      | none => simp [hlists] at hlist
      | some lists =>
        rw [hlists, Option.getD_some] at hlist
        exact Std.ExtTreeMap.mem_toList_iff_getElem?_eq_some.1 hlist
    · show (lens.command.any _) = true
      rw [hcmd, Option.any_some]
      simpa using htitle

variable {c : CoreCall}

namespace LensBook

variable {b : LensBook} {es : List Effect}

/-- The documents' numbers follow the effects alone. -/
theorem docs_foldl (b : LensBook) (es : List Effect) :
    (es.foldl take b).docs = changeReader.after b.docs es := by
  induction es generalizing b with
  | nil => rfl
  | cons e es ih =>
    have hone : (b.take e).docs = changeReader.after b.docs [e] := by
      unfold take
      split <;> rfl
    rw [List.foldl_cons, ih, hone, ← changeReader.after_append, List.singleton_append]

theorem deleted_foldl (b : LensBook) (es : List Effect) :
    (es.foldl take b).deleted = b.deleted := by
  induction es generalizing b with
  | nil => rfl
  | cons e es ih =>
    rw [List.foldl_cons, ih]
    unfold take
    split <;> rfl

theorem deleted_after (b : LensBook) (s : SessionCore) (c : CoreCall) :
    (b.after s c).deleted = fun key handle serial index ↦
      b.deleted key handle serial index || s.deletes c key handle serial index :=
  deleted_foldl _ _

/-- A call that is no edit. -/
theorem deleted_after_of_not {s : SessionCore}
    (h : ∀ key handle serial index, s.deletes c key handle serial index = false) :
    (b.after s c).deleted = b.deleted := by
  rw [deleted_after]
  funext key handle serial index
  rw [h, Bool.or_false]

theorem docs_after (b : LensBook) (s : SessionCore) (c : CoreCall) :
    (b.after s c).docs = changeReader.after b.docs (s.call c).2 := docs_foldl _ _

/-- The deleted lenses are no matter for what was sent. -/
theorem sent_foldl_deleted (b : LensBook) (deleted : String → ℤ → ℕ → ℕ → Bool) (es : List Effect) :
    (es.foldl take { b with deleted }).sent = (es.foldl take b).sent := by
  induction es generalizing b with
  | nil => rfl
  | cons e es ih =>
    have hone : take { b with deleted } e = { b.take e with deleted } := by
      unfold take
      split <;> rfl
    rw [List.foldl_cons, List.foldl_cons, hone, ih]

/-- Effects that send no request for lenses. -/
theorem sent_foldl (h : ∀ e ∈ es, e.part ≠ some .lensRequests) :
    (es.foldl take b).sent = b.sent := by
  induction es generalizing b with
  | nil => rfl
  | cons e es ih =>
    rw [List.foldl_cons, ih fun e' he' ↦ h e' (List.mem_cons_of_mem _ he')]
    unfold take
    split
    · exact absurd rfl (h _ List.mem_cons_self)
    · rfl

end LensBook

variable {version : ℕ}

namespace SessionCore

variable {s t : SessionCore} {F : Finset Part} {b : LensBook} {key : String}

/-- What the book will say of what was asked for so far. -/
def booked (s : SessionCore) (b : LensBook) : LensBook := s.out.foldl LensBook.take b

theorem docs_booked (s : SessionCore) (b : LensBook) :
    (s.booked b).docs = s.told changeReader b.docs := b.docs_foldl s.out

/-- The book knows every request for lenses that is awaited, and its version is the number of changes
then. -/
def Awaits (s : SessionCore) (b : LensBook) : Prop :=
  ∀ (t : Token) (key : String) (handle : ℤ) (v : ℕ),
    s.pending[t]? = some (.codeLens key handle v) →
    ∃ r, (s.booked b).sent t = some r ∧ r.key = key ∧ r.handle = handle ∧ r.at_.2 = v

theorem Awaits.of_changes (hs : s.Awaits b) (hc : Changes F s t) (hF : .lensRequests ∉ F) :
    t.Awaits b := by
  intro token key handle v hp
  have hkeep : s.pending[token]? = some (.codeLens key handle v) :=
    hc.keep .lensRequests hF token key handle v hp
  obtain ⟨es, hes, habout⟩ := hc.out
  have hout : t.out = s.out ++ es := hes
  have hsent : (t.booked b).sent = (s.booked b).sent := by
    rw [booked, hout, List.foldl_append]
    exact LensBook.sent_foldl fun e he hpart ↦ hF (habout e he _ hpart)
  rw [hsent]
  exact hs token key handle v hkeep

/-- A request is sent for a document with the number of changes it has now. -/
theorem Awaits.askCodelens (hs : s.Awaits b) {uri : UriComponents} {handle : ℤ}
    (huri : uri.key = key) (hversion : (s.told changeReader b.docs key).2 = version) :
    (s.askCodelens key uri version handle).Awaits b := by
  have hask (r : SessionCore) (hr : r.Awaits b)
      (htold : r.told changeReader b.docs = s.told changeReader b.docs) :
      (r.rpcWith (.provideCodeLenses handle uri) (.codeLens key handle version)).1.Awaits b := by
    intro token key' handle' v hp
    have hsent : (booked (r.rpcWith (.provideCodeLenses handle uri)
        (.codeLens key handle version)).1 b).sent = Function.update (r.booked b).sent
          (r.nextToken + 1) (some ⟨uri.key, handle, (r.booked b).docs uri.key⟩) := by
      show ((r.out ++ [Effect.rpc (some (r.nextToken + 1))
        (.provideCodeLenses handle uri)]).foldl LensBook.take b).sent = _
      rw [List.foldl_append]
      rfl
    have hp' : (r.pending.insert (r.nextToken + 1) (.codeLens key handle version))[token]? =
        some (.codeLens key' handle' v) := hp
    rw [hsent]
    rw [Std.ExtTreeMap.getElem?_insert] at hp'
    split at hp'
    · rename_i heq
      obtain rfl := Std.LawfulEqCmp.compare_eq_iff_eq.1 heq
      obtain ⟨rfl, rfl, rfl⟩ := Pending.codeLens.inj (Option.some.inj hp')
      refine ⟨_, Function.update_self _ _ _, huri, rfl, ?_⟩
      rw [docs_booked, htold, huri, hversion]
    · rename_i hcmp
      have hne : token ≠ r.nextToken + 1 := fun heq ↦
        hcmp (Std.LawfulEqCmp.compare_eq_iff_eq.2 heq.symm)
      rw [Function.update_of_ne hne]
      exact hr token key' handle' v hp'
  simp only [SessionCore.askCodelens]
  cases ((s.codelensInflight[key]?).getD ∅)[handle]? with
  | none => exact (hask s hs rfl).of_changes (changes_codelensInflight _) (by decide)
  | some old =>
    have hold := (changes_codelensInflight (s := s) _).trans (changes_cancel (s := { s with
      codelensInflight := s.codelensInflight.insert key
        (((s.codelensInflight[key]?).getD ∅).erase handle) }) [old])
    exact (hask _ (hs.of_changes hold (by decide)) (told_of_changes hold (by decide))).of_changes
      (changes_codelensInflight _) (by decide)

/-- Asking changes neither documents nor what the extension host is told of them. -/
theorem told_askCodelens (key' : String) (uri : UriComponents) (version : ℕ) (handle : ℤ) :
    (s.askCodelens key' uri version handle).told changeReader b.docs =
      s.told changeReader b.docs := told_of_changes (changes_askCodelens _ _ _ _) (by decide)

theorem Awaits.fireCodelens (hs : s.Awaits b)
    (hreads : s.Reads changeReader OpenDocument.Counted b.docs) (key : String) :
    (s.fireCodelens key).Awaits b := by
  simp only [SessionCore.fireCodelens]
  split
  · exact hs
  · rename_i doc hdoc
    obtain ⟨huri, hcount, -⟩ := hreads.docs key doc hdoc
    generalize (s.registry.matching .codeLens doc.uri doc.languageId).map (·.handle) = handles
    suffices h : ∀ r : SessionCore, r.Awaits b →
        (r.told changeReader b.docs key).2 = doc.widgetVersion →
        (handles.foldl (fun r handle ↦ r.askCodelens key doc.uri doc.widgetVersion handle)
          r).Awaits b from h s hs hcount
    induction handles with
    | nil => exact fun r hr _ ↦ hr
    | cons handle handles ih =>
      exact fun r hr hversion ↦ ih _ (hr.askCodelens huri hversion)
        (by rw [told_askCodelens]; exact hversion)

theorem Awaits.runTimers (hs : s.Awaits b)
    (hreads : s.Reads changeReader OpenDocument.Counted b.docs) (ord : IterOrder) :
    (s.runTimers ord).Awaits b := by
  have hinline := changes_runInlineTimers (s := s) ord
  have hs' := hs.of_changes hinline (by decide)
  have hreads' := hreads.of_changes hinline (by decide)
  suffices h : ∀ (due : List String) (r : SessionCore), r.Awaits b →
      r.Reads changeReader OpenDocument.Counted b.docs →
      (due.foldl SessionCore.fireCodelens r).Awaits b from
    h _ _ (hs'.of_changes (changes_codelensDue _) (by decide))
      (hreads'.of_changes (changes_codelensDue _) (by decide))
  intro due
  induction due with
  | nil => exact fun r hr _ ↦ hr
  | cons key due ih =>
    exact fun r hr hreads ↦ ih _ (hr.fireCodelens hreads key)
      (hreads.of_changes (changes_fireCodelens key) (by decide))

end SessionCore

/-! ### The lists -/

/-- No list is of a serial to come, and no lens that an edit deleted is drawn. -/
structure CodeLenses.Sound (l : CodeLenses) (deleted : String → ℤ → ℕ → ℕ → Bool) : Prop where
  serial_le : ∀ doc handle list, l.list doc handle = some list → list.serial ≤ l.serial
  alive : ∀ doc handle list, l.list doc handle = some list → ∀ i lens, list.lenses[i]? = some lens →
    deleted doc handle list.serial i = true → lens.isDrawn = false
  deleted_le : ∀ doc handle serial i, deleted doc handle serial i = true → serial ≤ l.serial

variable {edit : WidgetRange} {text : Text}

namespace CodeLenses.Sound

variable {l l' : CodeLenses} {deleted deleted' : String → ℤ → ℕ → ℕ → Bool} {doc : String}
  {handle : ℤ}

theorem lost (h : l.Sound deleted) (hserial : l'.serial = l.serial)
    (hlists : ∀ doc handle list, l'.list doc handle = some list →
      l.list doc handle = some list) : l'.Sound deleted where
  serial_le doc handle list hl := hserial ▸ h.serial_le doc handle list (hlists doc handle list hl)
  alive doc handle list hl := h.alive doc handle list (hlists doc handle list hl)
  deleted_le doc handle serial i hd := hserial ▸ h.deleted_le doc handle serial i hd

/-- A new list has a serial of its own, so that none of its lenses was deleted. -/
theorem setList (h : l.Sound deleted) (reply : Value) (cap : ℕ) :
    (l.setList doc handle reply cap).1.Sound deleted where
  serial_le doc' handle' list hl := by
    rw [list_setList] at hl
    split at hl
    · obtain rfl := Option.some.inj hl
      exact le_rfl
    · exact (h.serial_le doc' handle' list hl).trans (Nat.le_succ _)
  alive doc' handle' list hl i lens hlens hdeleted := by
    rw [list_setList] at hl
    split at hl
    · obtain rfl := Option.some.inj hl
      exact absurd (h.deleted_le _ _ _ _ hdeleted) (Nat.not_succ_le_self _)
    · exact h.alive doc' handle' list hl i lens hlens hdeleted
  deleted_le doc' handle' serial i hd := (h.deleted_le doc' handle' serial i hd).trans (Nat.le_succ _)

/-- A command comes for a lens that was not deleted, or has no title. -/
theorem resolved (h : l.Sound deleted) {serial index : ℕ} {reply : Value}
    (hkept : ∀ list, l.list doc handle = some list → list.serial = serial →
      givesTitle reply = true → deleted doc handle serial index = false) :
    (l.resolved doc handle serial index reply).1.Sound deleted where
  serial_le doc' handle' list' hl := by
    rw [serial_resolved]
    rcases list_resolved hl with hl | ⟨⟨rfl, rfl⟩, list, lens, command, hlist, -, -, -, rfl⟩
    · exact h.serial_le doc' handle' list' hl
    · exact h.serial_le doc handle list hlist
  alive doc' handle' list' hl i lens' hlens' hdeleted := by
    rcases list_resolved hl with
      hl | ⟨⟨rfl, rfl⟩, list, lens, command, hlist, rfl, hlens, hcommand, rfl⟩
    · exact h.alive doc' handle' list' hl i lens' hlens' hdeleted
    · have hset : (list.lenses.set index { lens with command := some command })[i]? = some lens' :=
        hlens'
      rw [List.getElem?_set] at hset
      split at hset
      · next heq =>
        subst heq
        split at hset
        · obtain rfl := Option.some.inj hset
          by_contra hdrawn
          have hgives : givesTitle reply = true := by
            rw [givesTitle, hcommand]
            simpa [Lens.isDrawn] using hdrawn
          exact absurd (hdeleted.symm.trans (hkept list hlist rfl hgives)) (by simp)
        · cases hset
      · exact h.alive doc handle list hlist i lens' hset hdeleted
  deleted_le doc' handle' serial i hd := by
    rw [serial_resolved]
    exact h.deleted_le doc' handle' serial i hd

/-- A moved lens is drawn only if it was and its range is left. -/
theorem isDrawn_moved {lens : Lens}
    (h : lens.isDrawn = false ∨ transformRange lens.range edit text = none) :
    (lens.moved edit text).isDrawn = false := by
  rw [Lens.moved]
  split
  · rename_i range hrange
    exact h.resolve_right (by simp [hrange])
  · rfl

/-- An edit deletes the lenses whose range it deletes. -/
theorem onEdit (h : l.Sound deleted)
    (hdeleted : ∀ doc' handle serial i, deleted' doc' handle serial i = true →
      deleted doc' handle serial i = true ∨ doc = doc' ∧ ∃ list lens,
        l.list doc' handle = some list ∧ list.serial = serial ∧ list.lenses[i]? = some lens ∧
        transformRange lens.range edit text = none) :
    (l.onEdit doc edit text).Sound deleted' where
  serial_le doc' handle list' hl := by
    rw [serial_onEdit]
    rcases list_onEdit hl with ⟨-, hsame⟩ | ⟨-, list, hlist, rfl⟩
    · exact h.serial_le doc' handle list' hsame
    · exact h.serial_le doc' handle list hlist
  alive doc' handle list' hl i lens' hlens' hdel := by
    rcases list_onEdit hl with ⟨hne, hsame⟩ | ⟨-, list, hlist, rfl⟩
    · refine h.alive doc' handle list' hsame i lens' hlens' ?_
      exact (hdeleted _ _ _ _ hdel).resolve_right fun hnow ↦ hne hnow.1
    · have hmap : (list.lenses.map fun lens ↦ lens.moved edit text)[i]? = some lens' := hlens'
      rw [List.getElem?_map, Option.map_eq_some_iff] at hmap
      obtain ⟨lens, hlens, rfl⟩ := hmap
      refine isDrawn_moved ?_
      rcases hdeleted _ _ _ _ hdel with hold | ⟨-, list₂, lens₂, hlist₂, -, hlens₂, hgone⟩
      · exact .inl (h.alive doc' handle list hlist i lens hlens hold)
      · obtain rfl := Option.some.inj (hlist.symm.trans hlist₂)
        obtain rfl := Option.some.inj (hlens.symm.trans hlens₂)
        exact .inr hgone
  deleted_le doc' handle serial i hd := by
    rw [serial_onEdit]
    rcases hdeleted _ _ _ _ hd with hold | ⟨-, list, lens, hlist, rfl, -, -⟩
    · exact h.deleted_le doc' handle serial i hold
    · exact h.serial_le doc' handle list hlist

end CodeLenses.Sound

variable {x : SessionCore × LensBook} {list : LensList} {token : Token}

namespace SessionCore

variable {s t : SessionCore} {F : Finset Part} {b : LensBook} {key : String}
  {deleted : String → ℤ → ℕ → ℕ → Bool}

/-! ### What an input does to the lenses -/

/-- The parts that are not about lists of lenses and requests for them; lists may be lost. -/
def otherParts : Finset Part :=
  {.docs, .editors, .exthostOnly, .opening, .registry, .lenses, .inline, .pending, .saves, .models,
    .frees, .asks, .reads, .writes}

/-- A resync is a reset, if the document is open; the decorations follow. -/
theorem resync_cases (s : SessionCore) (now : Instant) (uri : UriComponents) : ∃ t,
    Changes {.docs, .models, .lenses, .inline, .pending, .frees} { s with now } t ∧
      s.resync now uri = t.flushDecorations.take := by
  simp only [resync]
  cases hdoc : s.docs[uri.key]? with
  | none => exact ⟨_, changes_none, rfl⟩
  | some doc => exact ⟨_, changes_resetDoc _ _ _, rfl⟩

theorem sound_of_changes (hs : s.lenses.Sound deleted) (hc : Changes F s t)
    (hF : ∀ p ∈ [Part.lensLists, .lensSerial], p ∉ F) :
    t.lenses.Sound deleted :=
  hs.lost (hc.keep .lensSerial (hF _ (by simp))) fun doc handle list hl ↦
    hc.keep .lensLists (hF _ (by simp)) doc handle list hl

/-- What a widget reports touches no list and sends no request, unless it is a change. -/
theorem changes_reported (uri : UriComponents) (generation : ℕ) {event : WidgetEvent}
    (hevent : ∀ version range text, event ≠ .codeChanged version range text) :
    Changes otherParts s (s.onWidget uri generation event) := by
  simp only [onWidget]
  split
  · split
    · exact absurd rfl (hevent _ _ _)
    · exact changes_none
    · exact (changes_onHoverRest _ _).mono (by decide)
    · exact changes_endHover.mono (by decide)
    · exact (changes_onSave _).mono (by decide)
    · exact (changes_onActivated _ _).mono (by decide)
  · exact changes_none

/-- A change of a document may move its lenses. -/
theorem changes_onWidget (uri : UriComponents) (generation : ℕ) (event : WidgetEvent) :
    Changes (insert .lensLists otherParts) s (s.onWidget uri generation event) := by
  by_cases hedit : ∃ version range text, event = .codeChanged version range text
  · obtain ⟨version, range, text, rfl⟩ := hedit
    simp only [onWidget]
    split
    · exact (changes_onCodeChanged _ _ _ _).mono (by decide)
    · exact changes_none
  · exact (changes_reported uri generation fun version range text h ↦
      hedit ⟨version, range, text, h⟩).mono (by decide)

/-- An input that is neither a widget's event nor a reply touches no list and sends no request. -/
theorem changes_dispatch (ord : IterOrder) (input : Input)
    (hwidget : ∀ uri generation event, input ≠ .widget uri generation event)
    (hreply : ∀ token result, input ≠ .rpcReply token result) :
    Changes otherParts s (s.dispatch ord input) := by
  cases input with
  | open_ uri => exact (changes_onOpen uri).mono (by decide)
  | close uri => exact (changes_onClose ord uri).mono (by decide)
  | focus uri => exact (changes_onFocus uri).mono (by decide)
  | widget uri generation event => exact absurd rfl (hwidget uri generation event)
  | triggerInline uri generation pos => exact (changes_onTriggerInline _ _ _).mono (by decide)
  | extHostRequest r => exact (changes_onExthostRequest r).mono (by decide)
  | rpcReply token result => exact absurd rfl (hreply token result)
  | fileRead uri purpose result => exact (changes_onFileRead _ _ _).mono (by decide)
  | fileWritten uri token result => exact (changes_onFileWritten _ _ _).mono (by decide)
  | filesChanged changes => exact (changes_onFilesChanged _ _).mono (by decide)
  | tick => exact changes_none

/-- No input sends a request for lenses. -/
theorem Awaits.dispatch (hs : s.Awaits b) (ord : IterOrder) (input : Input) :
    (s.dispatch ord input).Awaits b := by
  by_cases hwidget : ∃ uri generation event, input = .widget uri generation event
  · obtain ⟨uri, generation, event, rfl⟩ := hwidget
    exact hs.of_changes (changes_onWidget uri generation event) (by decide)
  by_cases hreply : ∃ token result, input = .rpcReply token result
  · obtain ⟨token, result, rfl⟩ := hreply
    exact hs.of_changes (changes_onRpcReply token result) (by decide)
  exact hs.of_changes (changes_dispatch ord input
    (fun uri generation event h ↦ hwidget ⟨uri, generation, event, h⟩)
    fun token result h ↦ hreply ⟨token, result, h⟩) (by decide)

/-- **An edit moves the lenses**, and deletes those whose range it deletes. -/
theorem sound_onCodeChanged (key : String) (hs : s.lenses.Sound deleted) (version : ℕ) (range : WidgetRange)
    (text : Text) : (s.onCodeChanged key version range text).lenses.Sound
      fun doc handle serial index ↦ deleted doc handle serial index ||
        key == doc && (s.docs[doc]?.any fun d ↦
          (d.applyWidgetChange version range text).2.isOk) &&
        ((s.lenses.list doc handle).any fun list ↦ list.serial == serial &&
          (list.lenses[index]?.any fun lens ↦ (transformRange lens.range range text).isNone)) := by
  have hsame {t : SessionCore} (hnot : (s.docs[key]?.any fun d ↦
      (d.applyWidgetChange version range text).2.isOk) = false)
      (ht : t.lenses.Sound deleted) : t.lenses.Sound
      fun doc handle serial index ↦ deleted doc handle serial index ||
        key == doc && (s.docs[doc]?.any fun d ↦
          (d.applyWidgetChange version range text).2.isOk) &&
        ((s.lenses.list doc handle).any fun list ↦ list.serial == serial &&
          (list.lenses[index]?.any fun lens ↦
            (transformRange lens.range range text).isNone)) := by
    convert ht using 5 with doc handle serial index
    by_cases hdoc : key = doc
    · subst hdoc
      simp [hnot]
    · simp [hdoc]
  rcases onCodeChanged_cases s key version range text with
    ⟨hdoc, h⟩ | ⟨doc, hdoc, hfails, h⟩ | ⟨doc, doc', call, r, hdoc, happly, hr, h⟩
  · rw [h]
    exact hsame (by simp [hdoc]) hs
  · exact hsame (by simp [hdoc, hfails])
      (sound_of_changes hs ((changes_setDoc _ _).trans h) (by decide))
  · have hr' := (changes_setDoc key doc').trans ((changes_widgetCall happly).trans hr)
    have hrlenses : r.lenses.Sound deleted :=
      sound_of_changes hs hr' (by decide)
    have hlists : r.lenses.byDoc = s.lenses.byDoc := hr'.keep .lenses (by decide)
    rw [h]
    refine sound_of_changes (hrlenses.onEdit fun doc₂ handle serial i hdel ↦ ?_)
      (changes_afterMove key range text) (by decide)
    rcases Bool.or_eq_true _ _ ▸ hdel with hold | hnow
    · exact .inl hold
    · simp only [Bool.and_eq_true, beq_iff_eq, Option.any_eq_true, Option.isNone_iff_eq_none]
        at hnow
      obtain ⟨⟨rfl, -⟩, list, hlist, hserial, lens, hlens, hgone⟩ := hnow
      refine .inr ⟨rfl, list, lens, ?_, hserial, hlens, hgone⟩
      rw [CodeLenses.list, hlists]
      exact hlist

theorem answeredCodelens_eq (s : SessionCore) (token : Token) (key : String) (handle : ℤ) :
    ∃ codelensInflight, s.answeredCodelens token key handle = { s with codelensInflight } := by
  unfold answeredCodelens
  dsimp only
  split
  · exact ⟨_, rfl⟩
  · exact ⟨_, rfl⟩

/-- A list that a reply brings is stored if the widget version is the one of the request. -/
theorem changes_stores {handle : ℤ} (value : Value)
    (hpending : s.pending[token]? = some (.codeLens key handle version))
    (hversion : s.docs[key]?.map (·.widgetVersion) = some version) :
    Changes {.pending} { s with
        lenses := (s.lenses.setList key handle value s.opts.codelensResolveCap).1 }
      (s.onRpcReply token (.ok value)) := by
  obtain ⟨codelensInflight, hanswered⟩ :=
    answeredCodelens_eq { s with pending := s.pending.erase token } token key handle
  simp only [onRpcReply, hpending, onCodelensReply, hanswered]
  rw [if_neg (not_not.2 hversion)]
  have hstored := (changes_awaited (s := { s with
    lenses := (s.lenses.setList key handle value s.opts.codelensResolveCap).1 }) token).trans
    (changes_codelensInflight codelensInflight)
  exact (((hstored.trans (changes_releaseLenses _ _)).trans (changes_resolveLenses _ _ _ _)).trans
    (changes_touch _)).mono (by decide)

/-- **What a reply does to the lenses**: it stores the list that a request of this widget version
brings, or gives a lens the command that was asked for, or it touches no list. -/
theorem onRpcReply_cases (s : SessionCore) (token : Token) (result : Except String Value) :
    (∃ key handle version value, s.pending[token]? = some (.codeLens key handle version) ∧
      result = .ok value ∧ s.docs[key]?.map (·.widgetVersion) = some version ∧
      Changes {.pending} { s with
          lenses := (s.lenses.setList key handle value s.opts.codelensResolveCap).1 }
        (s.onRpcReply token result)) ∨
    (∃ doc handle serial index value,
      s.pending[token]? = some (.codeLensResolve doc handle serial index) ∧ result = .ok value ∧
      Changes {.pending} { s with lenses := (s.lenses.resolved doc handle serial index value).1 }
        (s.onRpcReply token result)) ∨
    Changes {.inline, .pending, .frees} s (s.onRpcReply token result) := by
  have herase := changes_awaited (s := s) token
  cases hp : s.pending[token]? with
  | none =>
    refine .inr (.inr ?_)
    simp only [onRpcReply, hp]
    exact changes_none
  | some p =>
    cases p with
    | codeLens key handle version =>
      have hanswered := changes_answeredCodelens (s := { s with
        pending := s.pending.erase token }) token key handle
      cases result with
      | error e =>
        refine .inr (.inr ?_)
        simp only [onRpcReply, hp, onCodelensReply]
        exact (herase.trans hanswered).mono (by decide)
      | ok value =>
        by_cases hversion : s.docs[key]?.map (·.widgetVersion) = some version
        · exact .inl ⟨key, handle, version, value, rfl, rfl, hversion, changes_stores value hp hversion⟩
        · refine .inr (.inr ?_)
          have hdocs : (answeredCodelens { s with pending := s.pending.erase token } token key
              handle).docs = s.docs := hanswered.keep .docs (by decide)
          simp only [onRpcReply, hp, onCodelensReply]
          rw [hdocs, if_pos hversion]
          exact ((herase.trans hanswered).trans (changes_releaseLenses _ _)).mono (by decide)
    | codeLensResolve doc handle serial index =>
      cases result with
      | error e =>
        refine .inr (.inr ?_)
        simp only [onRpcReply, hp]
        exact herase.mono (by decide)
      | ok value =>
        refine .inr (.inl ⟨doc, handle, serial, index, value, rfl, rfl, ?_⟩)
        have hawaited : Changes {.pending} { s with
            lenses := (s.lenses.resolved doc handle serial index value).1 }
            { s with
              pending := s.pending.erase token
              lenses := (s.lenses.resolved doc handle serial index value).1 } :=
          changes_awaited token
        simp only [onRpcReply, hp]
        split
        · exact hawaited.trans_same ((changes_touch _).mono (by decide))
        · exact hawaited
    | hover doc =>
      refine .inr (.inr ?_)
      simp only [onRpcReply, hp]
      split
      · exact herase.mono (by decide)
      · split
        · exact ((herase.trans (changes_hover _)).trans (changes_ui _)).mono (by decide)
        · exact (herase.trans (changes_hover _)).mono (by decide)
    | inline doc =>
      refine .inr (.inr ?_)
      simp only [onRpcReply, hp]
      exact (herase.trans (changes_onInlineReply _ _ _)).mono (by decide)
    | activateThenRun command =>
      refine .inr (.inr ?_)
      simp only [onRpcReply, hp]
      split
      · exact (herase.trans (changes_contributed _)).mono (by decide)
      · exact (herase.trans (changes_ui _)).mono (by decide)
    | command id =>
      refine .inr (.inr ?_)
      simp only [onRpcReply, hp]
      exact herase.mono (by decide)

/-! ### The runs -/

/-- The runs of a session core, with the book of its lenses. -/
def bookedRuns (languages : LanguageRegistry) (opts : CoreOptions) (now : Instant) :
    StepSystem (SessionCore × LensBook) CoreCall :=
  .ofFun (new languages opts now, .new) fun x c ↦ ((x.1.call c).1, x.2.after x.1 c)

/-- Whether the reply to a request for lenses is of another widget version, or of no earlier
announcement than the last. -/
def freshReply (s : SessionCore) (b : LensBook) (token : Token) : Bool :=
  match s.pending[token]? with
  | some (.codeLens key _ version) =>
    s.docs[key]?.map (·.widgetVersion) != some version ||
      (b.sent token).all fun r ↦ r.at_.1 == (b.docs key).1
  | _ => true

/-- Whether a resolve reply is not for a lens that an edit deleted, or gives it no title. -/
def aliveReply (s : SessionCore) (b : LensBook) (token : Token) (value : Value) : Bool :=
  match s.pending[token]? with
  | some (.codeLensResolve doc handle serial index) =>
    !((s.lenses.list doc handle).any (·.serial == serial) && b.deleted doc handle serial index &&
      givesTitle value)
  | _ => true

/-- A list comes for the announcement of the document that it was asked for. -/
def RepliesFresh (x : SessionCore × LensBook) : CoreCall → Prop
  | .handle _ _ (.rpcReply token (.ok _)) => x.1.freshReply x.2 token = true
  | _ => True

/-- A command comes for a lens that no edit deleted. -/
def RepliesAlive (x : SessionCore × LensBook) : CoreCall → Prop
  | .handle _ _ (.rpcReply token (.ok value)) => x.1.aliveReply x.2 token value = true
  | _ => True

/-- A list that a call stores is the reply to a request for it, and the document was neither
announced nor changed since that was sent. -/
def StoresFresh (x : SessionCore × LensBook) (c : CoreCall) : Prop :=
  ∀ doc handle list, (x.1.call c).1.lenses.list doc handle = some list →
    x.1.lenses.serial < list.serial →
    ∃ ord now token value r, c = .handle ord now (.rpcReply token (.ok value)) ∧
      x.2.sent token = some r ∧ r.key = doc ∧ r.handle = handle ∧ r.at_ = x.2.docs doc

/-- No lens is drawn that an edit deleted. -/
def DrawnAlive (x : SessionCore × LensBook) : Prop :=
  ∀ doc, ∀ e ∈ x.1.lenses.drawn doc, ∀ list, x.1.lenses.list doc e.1 = some list →
    x.2.deleted doc e.1 list.serial e.2.2.2 = false

/-- What the core and its book keep. -/
structure Lensed (x : SessionCore × LensBook) : Prop where
  reads : x.1.Reads changeReader OpenDocument.Counted x.2.docs
  awaits : x.1.Awaits x.2
  sound : x.1.lenses.Sound x.2.deleted
  out : x.1.out = []

/-- Every save may end. -/
theorem savesMeet_true (s : SessionCore) (c : CoreCall) : s.SavesMeet (fun _ _ ↦ True) c := by
  cases c with
  | resync now uri => trivial
  | handle ord now input =>
    cases input with
    | fileWritten uri token result => exact fun _ _ _ _ _ ↦ trivial
    | _ => trivial

/-- The requests that are awaited after a call are in the book. -/
theorem Awaits.call (hs : s.Awaits b) (hreads : s.Reads changeReader OpenDocument.Counted b.docs)
    (c : CoreCall) : (s.call c).1.Awaits (b.after s c) := by
  -- the book takes the effects of the call
  have htake {t : SessionCore} (ht : t.Awaits b) (deleted) :
      t.take.1.Awaits (t.take.2.foldl LensBook.take { b with deleted }) := by
    intro token key handle v hp
    have hsent := LensBook.sent_foldl_deleted b deleted t.out
    exact hsent ▸ ht token key handle v hp
  have hnow (now : Instant) : Awaits { s with now } b :=
    hs.of_changes (changes_untracked rfl) (by decide) (F := ∅)
  cases c with
  | resync now uri =>
    obtain ⟨t, hreset, hcall⟩ := s.resync_cases now uri
    have hflushed := (hnow now).of_changes (hreset.trans changes_flushDecorations) (by decide)
    have htaken := htake hflushed
      fun key handle serial index ↦
        b.deleted key handle serial index || s.deletes (.resync now uri) key handle serial index
    rw [SessionCore.call, LensBook.after, SessionCore.call, hcall]
    exact htaken
  | handle ord now input =>
    have hdispatch := (hnow now).dispatch ord input
    have hreadsNow : Reads { s with now } changeReader OpenDocument.Counted b.docs :=
      hreads.of_changes (changes_untracked rfl) (by decide) (F := ∅)
    have htimers := hdispatch.runTimers (hreadsNow.dispatch changeReader_follows ord now input
      (savesMeet_true _ _)) ord
    exact htake (htimers.of_changes changes_flushDecorations (by decide)) _

/-- The timers and the decorations touch no list. -/
theorem changes_settle (t : SessionCore) (ord : IterOrder) :
    Changes {.inline, .pending, .asks, .lensRequests} t (t.runTimers ord).flushDecorations :=
  ((changes_runTimers ord).trans changes_flushDecorations).mono (by decide)

/-- What a widget reports deletes the lenses that it is said to delete. -/
theorem sound_onWidget (hs : s.lenses.Sound deleted) (ord : IterOrder) (now : Instant)
    (uri : UriComponents) (generation : ℕ) (event : WidgetEvent) :
    (s.onWidget uri generation event).lenses.Sound fun doc handle serial index ↦
      deleted doc handle serial index ||
        s.deletes (.handle ord now (.widget uri generation event)) doc handle serial index := by
  by_cases hedit : ∃ version range text, event = .codeChanged version range text
  · obtain ⟨version, range, text, rfl⟩ := hedit
    by_cases hgeneration : s.docs[uri.key]?.map (·.generation) = some generation
    · obtain ⟨d, hd, hd'⟩ := Option.map_eq_some_iff.1 hgeneration
      have hwidget : s.onWidget uri generation (.codeChanged version range text) =
          s.onCodeChanged uri.key version range text := if_pos hgeneration
      rw [hwidget]
      convert sound_onCodeChanged uri.key hs version range text using 6 with
        doc handle serial index
      by_cases hdoc : uri.key = doc
      · subst hdoc
        simp [deletes, hd, hd']
      · simp [deletes, beq_false_of_ne hdoc]
    · have hwidget : s.onWidget uri generation (.codeChanged version range text) = s :=
        if_neg hgeneration
      rw [hwidget]
      convert hs using 5 with doc handle serial index
      by_cases hdoc : uri.key = doc
      · subst hdoc
        cases hd : s.docs[uri.key]? <;> simp_all [deletes]
      · simp [deletes, hdoc]
  · have hnot : ∀ doc handle serial index,
        s.deletes (.handle ord now (.widget uri generation event)) doc handle serial index =
          false := by
      intro doc handle serial index
      cases event with
      | codeChanged version range text => exact absurd ⟨version, range, text, rfl⟩ hedit
      | _ => rfl
    simp only [hnot, Bool.or_false]
    exact sound_of_changes hs (changes_reported uri generation fun version range text h ↦
      hedit ⟨version, range, text, h⟩) (by decide)

/-- The lists stay sound when a reply comes, but for a command for a lens that an edit deleted. -/
theorem sound_onRpcReply (hs : s.lenses.Sound b.deleted) (token : Token)
    (result : Except String Value)
    (halive : ∀ value, result = .ok value → s.aliveReply b token value = true) :
    (s.onRpcReply token result).lenses.Sound b.deleted := by
  rcases s.onRpcReply_cases token result with
    ⟨key, handle, version, value, -, -, -, hc⟩ | ⟨doc, handle, serial, index, value, hp, rfl, hc⟩ | hc
  · exact sound_of_changes (hs.setList value s.opts.codelensResolveCap) hc (by decide)
  · refine sound_of_changes (hs.resolved fun list hlist hserial hgives ↦ ?_) hc (by decide)
    have hreply := halive value rfl
    rw [aliveReply, hp] at hreply
    simpa [hlist, hserial, hgives] using hreply
  · exact sound_of_changes hs hc (by decide)

/-- The lists stay sound in a call in which no command comes for a lens that an edit deleted. -/
theorem sound_call (hs : s.lenses.Sound b.deleted) (halive : RepliesAlive (s, b) c) :
    (s.call c).1.lenses.Sound (b.after s c).deleted := by
  have hnow (now : Instant) : (SessionCore.lenses { s with now }).Sound b.deleted := hs
  cases c with
  | resync now uri =>
    rw [LensBook.deleted_after_of_not fun _ _ _ _ ↦ rfl]
    obtain ⟨t, hreset, hcall⟩ := s.resync_cases now uri
    have hflushed := sound_of_changes (hnow now) (hreset.trans changes_flushDecorations) (by decide)
    rw [call, hcall]
    exact hflushed
  | handle ord now input =>
    suffices h : (dispatch { s with now } ord input).lenses.Sound
        (b.after s (.handle ord now input)).deleted by
      have hsettled := sound_of_changes h (changes_settle _ ord) (by decide)
      exact hsettled
    by_cases hwidget : ∃ uri generation event, input = .widget uri generation event
    · obtain ⟨uri, generation, event, rfl⟩ := hwidget
      rw [LensBook.deleted_after]
      exact sound_onWidget (hnow now) ord now uri generation event
    have hnot : ∀ key handle serial index,
        s.deletes (.handle ord now input) key handle serial index = false := by
      intro key handle serial index
      cases input with
      | widget uri generation event => exact absurd ⟨uri, generation, event, rfl⟩ hwidget
      | _ => rfl
    rw [LensBook.deleted_after_of_not hnot]
    by_cases hreply : ∃ token result, input = .rpcReply token result
    · obtain ⟨token, result, rfl⟩ := hreply
      exact sound_onRpcReply (hnow now) token result fun value hvalue ↦ by
        subst hvalue
        exact halive
    exact sound_of_changes (hnow now) (changes_dispatch ord input
      (fun uri generation event h ↦ hwidget ⟨uri, generation, event, h⟩)
      fun token result h ↦ hreply ⟨token, result, h⟩) (by decide)

/-- No list of a sound core is of a serial to come, after any call. -/
theorem serial_le_call (hs : s.lenses.Sound deleted) (c : CoreCall) {doc : String} {handle : ℤ}
    (hl : (s.call c).1.lenses.list doc handle = some list) :
    list.serial ≤ (s.call c).1.lenses.serial := by
  let unmarked : LensBook := ⟨fun _ ↦ (0, 0), fun _ ↦ none, fun _ _ _ _ ↦ false⟩
  have hunmarked : s.lenses.Sound unmarked.deleted :=
    ⟨hs.serial_le, fun _ _ _ _ _ _ _ h ↦ absurd h Bool.false_ne_true,
      fun _ _ _ _ h ↦ absurd h Bool.false_ne_true⟩
  refine (sound_call hunmarked (c := c) ?_).serial_le doc handle list hl
  cases c with
  | resync now uri => trivial
  | handle ord now input =>
    cases input with
    | rpcReply token result =>
      cases result with
      | error e => trivial
      | ok value =>
        show s.aliveReply unmarked token value = true
        unfold aliveReply
        split
        · simp [unmarked]
        · rfl
    | _ => trivial

/-- Only a reply takes a serial. -/
theorem serial_call (c : CoreCall)
    (hreply : ∀ ord now token result, c ≠ .handle ord now (.rpcReply token result)) :
    (s.call c).1.lenses.serial = s.lenses.serial := by
  cases c with
  | resync now uri =>
    obtain ⟨t, hreset, hcall⟩ := s.resync_cases now uri
    rw [call, hcall]
    exact (hreset.trans changes_flushDecorations).keep .lensSerial (by decide)
  | handle ord now input =>
    have hsettle (t : SessionCore) :
        (t.runTimers ord).flushDecorations.lenses.serial = t.lenses.serial :=
      (changes_settle t ord).keep .lensSerial (by decide)
    refine (hsettle _).trans ?_
    by_cases hwidget : ∃ uri generation event, input = .widget uri generation event
    · obtain ⟨uri, generation, event, rfl⟩ := hwidget
      exact (changes_onWidget uri generation event).keep .lensSerial (by decide)
    · exact (changes_dispatch ord input
        (fun uri generation event h ↦ hwidget ⟨uri, generation, event, h⟩)
        fun token result h ↦ hreply ord now token result (h ▸ rfl)).keep .lensSerial (by decide)

/-- **What a reply stores**: a list of a serial to come is there after a reply only if it was asked
for at the widget version the document has. -/
theorem stored_of_reply (hs : s.lenses.Sound deleted) (ord : IterOrder) (now : Instant)
    (token : Token) (result : Except String Value) {doc : String} {handle : ℤ}
    (hl : (s.call (.handle ord now (.rpcReply token result))).1.lenses.list doc handle = some list)
    (hlt : s.lenses.serial < list.serial) :
    ∃ version value, s.pending[token]? = some (.codeLens doc handle version) ∧
      result = .ok value ∧ s.docs[doc]?.map (·.widgetVersion) = some version := by
  have hle := serial_le_call hs _ hl
  have hsettle (t : SessionCore) :
      (t.runTimers ord).flushDecorations.lenses.serial = t.lenses.serial :=
    (changes_settle t ord).keep .lensSerial (by decide)
  have hlists (t : SessionCore) :
      (t.runTimers ord).flushDecorations.lenses.byDoc = t.lenses.byDoc :=
    (changes_settle t ord).keep .lenses (by decide)
  -- a call that takes no serial stores nothing
  have hnot (hserial : (onRpcReply { s with now } token result).lenses.serial = s.lenses.serial) :
      False := by
    have hcall : (s.call (.handle ord now (.rpcReply token result))).1.lenses.serial =
        s.lenses.serial := (hsettle _).trans hserial
    omega
  rcases onRpcReply_cases { s with now } token result with
    ⟨key, handle', version, value, hp, rfl, hversion, hc⟩ |
      ⟨doc', handle', serial, index, value, -, -, hc⟩ | hc
  · have hbyDoc : (s.call (.handle ord now (.rpcReply token (.ok value)))).1.lenses.byDoc =
        (s.lenses.setList key handle' value s.opts.codelensResolveCap).1.byDoc :=
      (hlists _).trans (hc.keep .lenses (by decide))
    rw [CodeLenses.list, hbyDoc, ← CodeLenses.list, CodeLenses.list_setList] at hl
    split at hl
    · next heq =>
      obtain ⟨rfl, rfl⟩ := heq
      exact ⟨version, value, hp, rfl, hversion⟩
    · exact absurd (hs.serial_le doc handle list hl) (by omega)
  · refine (hnot ?_).elim
    have hkeep := hc.keep .lensSerial (by decide)
    exact Eq.trans hkeep (CodeLenses.serial_resolved _ _ _ _ _ _)
  · exact (hnot (hc.keep .lensSerial (by decide))).elim

/-- A list that a reply brings at the widget version of its request is stored. -/
theorem list_of_stores {handle : ℤ} (value : Value) (ord : IterOrder) (now : Instant)
    (hpending : s.pending[token]? = some (.codeLens key handle version))
    (hversion : s.docs[key]?.map (·.widgetVersion) = some version) :
    ∃ list, (s.call (.handle ord now (.rpcReply token (.ok value)))).1.lenses.list key handle =
      some list ∧ list.serial = s.lenses.serial + 1 := by
  have hstores := changes_stores (s := { s with now }) value hpending hversion
  have hbyDoc : (s.call (.handle ord now (.rpcReply token (.ok value)))).1.lenses.byDoc =
      (s.lenses.setList key handle value s.opts.codelensResolveCap).1.byDoc :=
    (hstores.trans (changes_settle _ ord)).keep .lenses (by decide)
  rw [CodeLenses.list, hbyDoc, ← CodeLenses.list, CodeLenses.list_setList, if_pos ⟨rfl, rfl⟩]
  exact ⟨_, rfl, rfl⟩

/-- **The stored lists are fresh if and only if the replies are**, in any call. -/
theorem storesFresh_iff (hx : Lensed x) (c : CoreCall) :
    StoresFresh x c ↔ RepliesFresh x c := by
  obtain ⟨s, b⟩ := x
  constructor
  · intro hstores
    cases c with
    | resync now uri => trivial
    | handle ord now input =>
      cases input with
      | rpcReply token result =>
        cases result with
        | error e => trivial
        | ok value =>
          show s.freshReply b token = true
          unfold freshReply
          split
          · rename_i key handle version hp
            rw [Bool.or_eq_true, bne_iff_ne]
            by_cases hversion : s.docs[key]?.map (·.widgetVersion) = some version
            · right
              obtain ⟨list, hl, hserial⟩ := list_of_stores value ord now hp hversion
              obtain ⟨_, _, _, _, r, hc, hsent, rfl, -, hat⟩ := hstores key handle list hl
                (by simp [hserial])
              obtain ⟨-, -, hinput⟩ := CoreCall.handle.inj hc
              obtain ⟨rfl, -⟩ := Input.rpcReply.inj hinput
              have hsent' : b.sent token = some r := hsent
              simp [hsent', hat]
            · exact .inl hversion
          · rfl
      | _ => trivial
  · intro hfresh doc handle list hl hlt
    by_cases hreply : ∃ ord now token result, c = .handle ord now (.rpcReply token result)
    · obtain ⟨ord, now, token, result, rfl⟩ := hreply
      obtain ⟨version, value, hp, rfl, hversion⟩ :=
        stored_of_reply hx.sound ord now token result hl hlt
      obtain ⟨r, hsent, hkey, hhandle, hcount⟩ := hx.awaits token doc handle version hp
      have hsent' : b.sent token = some r := by
        rwa [booked, hx.out] at hsent
      obtain ⟨d, hdoc, hd⟩ := Option.map_eq_some_iff.1 hversion
      -- the number of changes is the widget version
      have hchanges : (b.docs doc).2 = version := by
        have hcounted := (hx.reads.docs doc d hdoc).2.1
        rw [told, hx.out] at hcounted
        exact hcounted.trans hd
      have hannounced : r.at_.1 = (b.docs doc).1 := by
        have hnew : s.freshReply b token = true := hfresh
        rw [freshReply, hp] at hnew
        have hversion' : s.docs[doc]?.map (·.widgetVersion) = some version := hversion
        simpa [hversion', hsent'] using hnew
      exact ⟨ord, now, token, value, r, rfl, hsent', hkey, hhandle,
        Prod.ext hannounced (hcount.trans hchanges.symm)⟩
    · have hserial := serial_call (s := s) c fun ord now token result h ↦
        hreply ⟨ord, now, token, result, h⟩
      have hle := serial_le_call hx.sound c hl
      have hlt' : s.lenses.serial < list.serial := hlt
      have hle' : list.serial ≤ (s.call c).1.lenses.serial := hle
      omega

/-- No lens that an edit deleted is drawn where the lists are sound. -/
theorem Lensed.drawnAlive (hx : Lensed x) : DrawnAlive x := by
  intro doc e he list hlist
  obtain ⟨list', hlist', hlens, hdrawn⟩ := CodeLenses.mem_drawn he
  obtain rfl := Option.some.inj (hlist.symm.trans hlist')
  by_contra hdeleted
  have hgone := hx.sound.alive doc e.1 list hlist _ _ hlens (by simpa using hdeleted)
  rw [hgone] at hdrawn
  cases hdrawn

/-- One call keeps them if it gives no command to a lens that an edit deleted. -/
theorem Lensed.call (hx : Lensed x)
    (halive : RepliesAlive x c) : Lensed ((x.1.call c).1, x.2.after x.1 c) where
  reads := by
    rw [LensBook.docs_after]
    exact hx.reads.call changeReader_follows (savesMeet_true x.1 c)
  awaits := hx.awaits.call hx.reads c
  sound := sound_call hx.sound halive
  out := by cases c <;> rfl

/-- **Lists are fresh and deleted lenses stay away** in every run in which no list comes for an
earlier announcement of its document and no command for a lens that an edit deleted. -/
theorem lenses_of_replies {languages : LanguageRegistry} {opts : CoreOptions} {now : Instant}
    {x : SessionCore × LensBook} (hx : ((bookedRuns languages opts now).restrict fun x c ↦
      RepliesFresh x c ∧ RepliesAlive x c).Reachable x) :
    (∀ c, StoresFresh x c ↔ RepliesFresh x c) ∧ DrawnAlive x := by
  have hlensed : Lensed x := by
    refine hx.invariant (I := Lensed) (fun y hy ↦ ?_) fun y c z _ hy hstep ↦ ?_
    · obtain rfl := hy
      refine ⟨.new languages opts now, fun t key handle v hp ↦ ?_, ⟨fun doc handle list hl ↦ ?_,
        fun doc handle list hl ↦ ?_, fun _ _ _ _ h ↦ absurd h Bool.false_ne_true⟩, rfl⟩
      · rw [SessionCore.new, Std.ExtTreeMap.getElem?_empty] at hp
        cases hp
      all_goals simp [SessionCore.new, CodeLenses.new, CodeLenses.list] at hl
    · obtain ⟨⟨-, halive⟩, rfl⟩ := hstep
      exact hy.call halive
  exact ⟨storesFresh_iff hlensed, hlensed.drawnAlive⟩

/-! ### Runs -/

/-- The core and its book after some calls. -/
def bookedAfter (calls : List CoreCall) : SessionCore × LensBook :=
  calls.foldl (fun x c ↦ ((x.1.call c).1, x.2.after x.1 c)) (new plainText .default 0, .new)

/-- The user opens a file of one letter, and a provider of lenses registers and is asked. -/
def askingForLenses : List CoreCall :=
  openingCalls ['a'] ++ [.handle .sorted 0 (asking (.registerCodeLensSupport 7
    [⟨some "*", none, none, none⟩] none)), .handle .sorted 250 .tick]

/-- Its list comes: one lens, which has to be resolved. -/
def listComes : CoreCall := .handle .sorted 250 (.rpcReply 1 (.ok (.obj
  [("lenses", .arr [.obj [("range", .arr [.int 1, .int 1, .int 1, .int 2])]])])))

/-- The lens is resolved. -/
def commandComes : CoreCall := .handle .sorted 250 (.rpcReply 2 (.ok (.obj
  [("command", .obj [("id", .str "run"), ("title", .str "Run")])])))

/-- The user types over a range. -/
def typedOver (range : WidgetRange) (text : Text) : CoreCall :=
  .handle .sorted 250 (.widget aFile 1 (.codeChanged 1 range text))

/-- A lens is drawn once it is resolved. -/
theorem lenses_of_replies_resolved :
    ((bookedAfter (askingForLenses ++ [listComes] ++ [commandComes])).1.lenses.drawn
        aFile.key).map (fun e ↦ (e.1, e.2.2.2)) = [(7, 0)] ∧
      DrawnAlive (bookedAfter (askingForLenses ++ [listComes] ++ [commandComes])) := by
  have hasked : ((bookedRuns plainText .default 0).restrict fun x c ↦
      RepliesFresh x c ∧ RepliesAlive x c).Reachable (bookedAfter askingForLenses) :=
    StepSystem.reachable_foldl_of_forall fun c hc x ↦ by
      simp only [askingForLenses, openingCalls, List.cons_append, List.nil_append, List.mem_cons,
        List.not_mem_nil, or_false] at hc
      rcases hc with rfl | rfl | rfl | rfl <;> exact ⟨trivial, trivial⟩
  have hlisted := StepSystem.reachable_foldl_concat (l := listComes) hasked
    ⟨show freshReply _ _ _ = true by decide +kernel,
      show aliveReply _ _ _ _ = true by decide +kernel⟩
  have hresolved := StepSystem.reachable_foldl_concat (l := commandComes) hlisted
    ⟨show freshReply _ _ _ = true by decide +kernel,
      show aliveReply _ _ _ _ = true by decide +kernel⟩
  exact ⟨by decide +kernel, (lenses_of_replies hresolved).2⟩

/-- **A list is stored that was asked for before an edit and a resync; and a lens that an edit deleted
is drawn again** once the reply to its resolve request comes. -/
theorem not_lenses :
    (¬ ∀ languages opts now x, (bookedRuns languages opts now).Reachable x →
      ∀ c, StoresFresh x c) ∧
    ¬ ∀ languages opts now x, (bookedRuns languages opts now).Reachable x → DrawnAlive x := by
  constructor
  · intro h
    let calls := askingForLenses ++ [typedOver (.empty ⟨0, 0⟩) ['x'], .resync 250 aFile]
    have hstored : (((bookedAfter calls).1.call listComes).1.lenses.list aFile.key 7).map
        (·.serial) = some 1 := by decide +kernel
    obtain ⟨list, hlist, hserial⟩ := Option.map_eq_some_iff.1 hstored
    have hlt : (bookedAfter calls).1.lenses.serial < list.serial := by
      rw [hserial]
      decide +kernel
    obtain ⟨_, _, token, _, r, hc, hsent, -, -, hat⟩ := h plainText .default 0 (bookedAfter calls)
      (StepSystem.reachable_foldl calls) listComes aFile.key 7 list hlist hlt
    obtain ⟨rfl, -⟩ := Input.rpcReply.inj (CoreCall.handle.inj hc).2.2
    have hold : ((bookedAfter calls).2.sent 1).map (·.at_) = some (1, 0) := by decide +kernel
    rw [hsent, Option.map_some, hat] at hold
    exact absurd (Option.some.inj hold) (by decide +kernel)
  · intro h
    let calls := askingForLenses ++ [listComes, typedOver ⟨⟨0, 0⟩, ⟨0, 1⟩⟩ [], commandComes]
    have hdrawn : ((bookedAfter calls).1.lenses.drawn aFile.key).map
        (fun e ↦ (e.1, e.2.2.2)) = [(7, 0)] := by decide +kernel
    have hlisted : ((bookedAfter calls).1.lenses.list aFile.key 7).map (·.serial) = some 1 := by
      decide +kernel
    obtain ⟨list, hlist, hserial⟩ := Option.map_eq_some_iff.1 hlisted
    obtain ⟨e, he, heq⟩ := List.mem_map.1 (hdrawn ▸ List.mem_singleton_self _)
    obtain ⟨hhandle, hindex⟩ := Prod.mk.inj heq
    have halive := h plainText .default 0 (bookedAfter calls) (StepSystem.reachable_foldl calls)
      aFile.key e he list (hhandle ▸ hlist)
    rw [hhandle, hindex, hserial] at halive
    exact absurd halive (by decide +kernel)

end SessionCore

end Ember.Editor
