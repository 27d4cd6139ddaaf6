import Ember.Editor.Frames

/-!
# Lists and ghosts of registered providers

Unregistering a provider drops its lens lists and its ghosts, but a reply to a call made before can
still arrive, and is taken without a look at the registry: a stored list and a shown ghost belong to
a registered provider only as long as no reply and no new registration comes in between.

Most handlers at most lose lists and ghosts; `Loses` says so, and adds up over the helpers of a
handler. What is left are the two handlers of replies and the registry itself.
-/

namespace Ember.Editor

open EditorConn

/-! ### The registry -/

namespace Registry

/-- What a call registers: a handle and the kind of its provider. -/
def registration : MainThreadCall → Option (ℤ × KindTag)
  | .registerHoverProvider handle _ => some (handle, .hover)
  | .registerCodeLensSupport handle _ _ => some (handle, .codeLens)
  | .registerInlineCompletionsSupport handle _ _ _ => some (handle, .inlineCompletions)
  | _ => none

variable {r : Registry} {handle handle' : ℤ} {kind : KindTag}

/-- Whether a handle is registered for a provider of a kind. -/
def Registered (r : Registry) (handle : ℤ) (kind : KindTag) : Prop :=
  (r.get handle).map (·.kind.tag) = some kind

instance : Decidable (r.Registered handle kind) := inferInstanceAs (Decidable (_ = _))

theorem registered_insert (selector : List DocumentFilter) (k : ProviderKind) :
    (r.insert handle selector k).1.Registered handle' kind ↔
      if handle = handle' then k.tag = kind else r.Registered handle' kind := by
  by_cases h : handle = handle' <;>
    simp [Registered, Registry.get, insert, Std.ExtTreeMap.getElem?_insert, h]

theorem Registered.unregister (h : r.Registered handle kind) :
    (r.unregister handle').1.Registered handle kind ∨
      (r.unregister handle').2 = .unregistered handle kind := by
  simp only [Registry.unregister]
  split
  · exact .inl h
  · split
    case h_1 p hp =>
      by_cases heq : handle' = handle
      · subst heq
        rw [Registered, Registry.get, hp] at h
        obtain rfl := Option.some.inj h
        exact .inr rfl
      · left
        rw [Registered, Registry.get] at h ⊢
        rwa [Std.ExtTreeMap.getElem?_erase, if_neg (by simpa using heq)]
    case h_2 => exact .inl h

/-- **What a call does to a registration**: it stays, it goes and the change says so, or the handle
is registered for another kind. -/
theorem Registered.apply (h : r.Registered handle kind) (call : MainThreadCall) :
    (r.apply call).1.Registered handle kind ∨
      (r.apply call).2 = .unregistered handle kind ∨
      ∃ kind' ≠ kind, registration call = some (handle, kind') := by
  have hinsert (handle' : ℤ) (selector : List DocumentFilter) (k : ProviderKind) :
      (r.insert handle' selector k).1.Registered handle kind ∨
        ∃ kind' ≠ kind, some (handle', k.tag) = some (handle, kind') := by
    rw [registered_insert]
    by_cases heq : handle' = handle
    · subst heq
      by_cases hkind : k.tag = kind
      · exact .inl (by rw [if_pos rfl]; exact hkind)
      · exact .inr ⟨k.tag, hkind, rfl⟩
    · exact .inl (by rw [if_neg heq]; exact h)
  cases call with
  | registerHoverProvider handle' selector =>
    exact (hinsert handle' selector .hover).imp_right .inr
  | registerCodeLensSupport handle' selector eventHandle =>
    exact (hinsert handle' selector (.codeLens eventHandle)).imp_right .inr
  | registerInlineCompletionsSupport handle' selector extensionId raw =>
    exact (hinsert handle' selector (.inlineCompletions (.fromRaw raw))).imp_right .inr
  | unregister handle' => exact h.unregister.imp_right .inl
  | _ => exact .inl h

end Registry

/-! ### Ghosts -/

variable {st : InlineDoc} {g : Ghost}

variable (ord : IterOrder) (uri : UriComponents)

namespace SessionCore

/-- The ghost shown in a document. -/
def ghostAt (s : SessionCore) (key : String) : Option Ghost := s.inline[key]?.bind (·.ghost)

variable {s t u : SessionCore} {key key' : String}

@[simp] theorem ghost_inlineAt : (s.inlineAt key).ghost = s.ghostAt key := by
  rw [inlineAt, ghostAt]
  cases s.inline[key]? <;> rfl

theorem ghostAt_of_getElem? (h : s.inline[key]? = some st) :
    s.ghostAt key = st.ghost := by
  rw [ghostAt, h, Option.bind_some]

theorem ghostAt_setInline (st : InlineDoc) :
    (s.setInline key st).ghostAt key' = if key = key' then st.ghost else s.ghostAt key' := by
  by_cases h : key = key' <;>
    simp [ghostAt, setInline, Std.ExtTreeMap.getElem?_insert, h]

/-- A step after which there are no more lists and ghosts than before: the registry is the same, and
a document with a ghost stays open. -/
structure Loses (s s' : SessionCore) : Prop where
  registry : s'.registry = s.registry
  docs : ∀ key g, s'.ghostAt key = some g → key ∈ s.docs → key ∈ s'.docs
  lenses : ∀ doc handle, s'.lenses.Holds doc handle → s.lenses.Holds doc handle
  ghosts : ∀ key g', s'.ghostAt key = some g' → ∃ g, s.ghostAt key = some g ∧ g.item = g'.item

namespace Loses

theorem trans (h : Loses s t) (h' : Loses t u) : Loses s u where
  registry := h'.registry.trans h.registry
  docs key g hg hdoc := by
    obtain ⟨g', hg', -⟩ := h'.ghosts key g hg
    exact h'.docs key g hg (h.docs key g' hg' hdoc)
  lenses doc handle hlist := h.lenses doc handle (h'.lenses doc handle hlist)
  ghosts key g hg := by
    obtain ⟨g', hg', hitem⟩ := h'.ghosts key g hg
    obtain ⟨g'', hg'', hitem'⟩ := h.ghosts key g' hg'
    exact ⟨g'', hg'', hitem'.trans hitem⟩

theorem refl (s : SessionCore) : Loses s s :=
  ⟨rfl, fun _ _ _ h ↦ h, fun _ _ h ↦ h, fun _ g h ↦ ⟨g, h, rfl⟩⟩

theorem foldl {α : Type*} {f : SessionCore → α → SessionCore} {l : List α}
    (h : ∀ s, ∀ a ∈ l, Loses s (f s a)) (s : SessionCore) : Loses s (l.foldl f s) := by
  induction l generalizing s with
  | nil => exact refl s
  | cons a l ih =>
    exact (h s a List.mem_cons_self).trans (ih (fun s b hb ↦ h s b (List.mem_cons_of_mem a hb)) _)

/-- A step away from the registry, the lists and the ghosts that keeps the open documents open. -/
theorem of_changes (h : Changes {.docs, .editors, .exthostOnly, .opening, .pending, .saves, .tokens,
      .models, .frees, .asks, .reads, .writes, .lensRequests, .lensSerial} s t)
    (hdocs : ∀ key ∈ s.docs, key ∈ t.docs) : Loses s t := by
  have hlenses : t.lenses.byDoc = s.lenses.byDoc := h.keep .lenses (by decide)
  have hinline : t.inline = s.inline := h.keep .inline (by decide)
  refine ⟨h.keep .registry (by decide), fun key _ _ ↦ hdocs key, fun doc handle hlist ↦ ?_,
    fun key g hg ↦ ⟨g, ?_, rfl⟩⟩
  · rwa [CodeLenses.Holds, CodeLenses.list, hlenses] at hlist
  · rwa [ghostAt, hinline] at hg

/-- A step away from documents, the registry, the lists and the ghosts. -/
theorem of_quiet (h : Changes F s t) (hF : F ⊆ {.editors, .exthostOnly, .opening, .pending, .saves,
    .tokens, .models, .frees, .asks, .reads, .writes, .lensRequests, .lensSerial}) :
    Loses s t :=
  have h := h.mono hF
  of_changes (h.mono (by decide)) fun key hkey ↦ by
    have hdocs : t.docs = s.docs := h.keep .docs (by decide)
    rwa [hdocs]

/-- The inline state of a document with the ghost it had, or without. -/
theorem setInline (h : ∀ g', st.ghost = some g' → ∃ g, s.ghostAt key = some g ∧ g.item = g'.item) :
    Loses s (s.setInline key st) where
  registry := rfl
  docs _ _ _ := id
  lenses _ _ := id
  ghosts key' g' hg' := by
    rw [ghostAt_setInline] at hg'
    split at hg'
    case isTrue heq => exact heq ▸ h g' hg'
    case isFalse => exact ⟨g', hg', rfl⟩

/-- The inline state of a document without a ghost. -/
theorem setInline_none (h : st.ghost = none) : Loses s (s.setInline key st) :=
  setInline fun g hg ↦ by
    rw [h] at hg
    cases hg

/-- The inline state of a document with the ghost it had. -/
theorem setInline_same (h : st.ghost = s.ghostAt key) :
    Loses s (s.setInline key st) :=
  setInline fun g hg ↦ ⟨g, h ▸ hg, rfl⟩

end Loses

/-! ### Handlers that lose lists and ghosts -/

theorem loses_endGhost (key : String) (reason : EndReason) : Loses s (s.endGhost key reason) := by
  simp only [endGhost]
  split
  · exact .refl s
  · exact (Loses.setInline_none rfl).trans (.of_quiet
      ((changes_endCalls _ _).trans (changes_touch _)) (by decide))

theorem loses_endCompleted (key : String) : Loses s (s.endCompleted key) := by
  have hset : Loses s (s.setInline key (s.inlineAt key)) := .setInline_same ghost_inlineAt
  simp only [endCompleted]
  split
  · exact hset.trans (loses_endGhost _ _)
  · exact hset

theorem loses_typeThrough (key : String) (range : WidgetRange) (text : Text) :
    Loses s (s.typeThrough key range text).1 := by
  have hset : Loses s (s.setInline key (s.inlineAt key)) := .setInline_same ghost_inlineAt
  simp only [typeThrough]
  split
  · exact hset
  · rename_i g hg
    -- a ghost typed on shows another text of the same item
    have hitem : (g.typeThrough range text).1.item = g.item := by
      simp only [Ghost.typeThrough]
      split
      · rfl
      · split
        · split <;> rfl
        · rfl
    have hsame : Loses (s.setInline key (s.inlineAt key)) ((s.setInline key (s.inlineAt key)).setInline
        key { s.inlineAt key with ghost := some (g.typeThrough range text).1 }) :=
      .setInline fun g' hg' ↦ by
        obtain rfl := Option.some.inj hg'
        exact ⟨g, by rw [ghostAt_setInline, if_pos rfl, hg], hitem.symm⟩
    refine Loses.trans ?_ (.of_quiet (changes_touch key) (by decide))
    split
    · exact (hset.trans hsame).trans (loses_endGhost _ _)
    · exact hset.trans hsame

theorem loses_cancelInline (key : String) : Loses s (s.cancelInline key) :=
  have hset : Loses s (s.setInline key (s.inlineAt key).cancel.1) := .setInline_same ghost_inlineAt
  hset.trans (.of_quiet (changes_cancel _) (by decide))

theorem loses_scheduleInline (key : String) : Loses s (s.scheduleInline key) := by
  rw [scheduleInline]
  split
  · exact .setInline_same ghost_inlineAt
  · exact .refl s

theorem loses_inlineAfterChange (key : String) (range : WidgetRange) (text : Text) :
    Loses s (s.inlineAfterChange key range text) := by
  have hcancel := ((loses_endCompleted (s := s) key).trans (loses_typeThrough key range text)).trans
    (loses_cancelInline key)
  simp only [inlineAfterChange]
  split
  · exact hcancel
  · exact hcancel.trans (loses_scheduleInline _)

theorem loses_closeInline (key : String) : Loses s (s.closeInline key) := by
  have hdrop : Loses s { s with inline := s.inline.erase key } := by
    refine ⟨rfl, fun _ _ _ ↦ id, fun _ _ ↦ id, fun key' g hg ↦ ?_⟩
    rw [ghostAt, Std.ExtTreeMap.getElem?_erase] at hg
    split at hg
    · cases hg
    · exact ⟨g, hg, rfl⟩
  have herase (st : InlineDoc) : Loses s (cancel { s with inline := s.inline.erase key } st.tokens) :=
    hdrop.trans (.of_quiet (changes_cancel _) (by decide))
  simp only [closeInline]
  split
  · exact .refl s
  · split
    · exact (herase _).trans (.of_quiet (changes_endCalls _ _) (by decide))
    · exact herase _

theorem ghostAt_closeInline (key : String) : (s.closeInline key).ghostAt key = none := by
  have herase (st : InlineDoc) :
      (cancel { s with inline := s.inline.erase key } st.tokens).ghostAt key = none := by
    have hinline : (cancel { s with inline := s.inline.erase key } st.tokens).inline =
        s.inline.erase key := (changes_cancel _).keep .inline (by decide)
    rw [ghostAt, hinline, Std.ExtTreeMap.getElem?_erase_self, Option.bind_none]
  simp only [closeInline]
  split
  case h_1 h => rw [ghostAt, h, Option.bind_none]
  case h_2 st _ =>
    split
    · rename_i g _
      have hinline : ((cancel { s with inline := s.inline.erase key } st.tokens).rpcs
          (endCalls g.item (.ignored false))).inline =
          (cancel { s with inline := s.inline.erase key } st.tokens).inline :=
        (changes_endCalls _ _).keep .inline (by decide)
      rw [ghostAt, hinline]
      exact herase st
    · exact herase st

/-- A step that changes the lenses to fewer lists. -/
theorem loses_lenses {lenses : CodeLenses}
    (h : ∀ doc handle, lenses.Holds doc handle → s.lenses.Holds doc handle) :
    Loses s { s with lenses } := ⟨rfl, fun _ _ _ ↦ id, h, fun _ g hg ↦ ⟨g, hg, rfl⟩⟩

theorem loses_closeLenses (key : String) : Loses s (s.closeLenses key) :=
  (loses_lenses fun _ _ h ↦ (CodeLenses.holds_close.1 h).2).trans (.of_quiet
    (changes_rpcs (F := ∅) fun c hc p hp ↦ by
      obtain ⟨q, -, rfl⟩ := List.mem_map.1 hc
      cases hp) (by decide))

theorem loses_acceptGhost (key : String) (decoration : ℕ) : Loses s (s.acceptGhost key decoration) := by
  have hedit (s : SessionCore) (uri) (version) (range) (text) :
      Loses s (s.editCode uri version range text) :=
    .of_quiet (changes_editCode _ _ _ _) (by decide)
  simp only [acceptGhost]
  split
  · rename_i g doc _ _
    split
    · exact .refl s
    · have htyped : Loses s (if (!g.completed && !g.text.isEmpty) = true then
          s.editCode doc.uri doc.widgetVersion (.empty g.pos) g.text else s) := by
        split
        · exact hedit _ _ _ _ _
        · exact .refl s
      have hadd (s : SessionCore) : Loses s (g.item.additionalEdits.foldl
          (fun s e ↦ s.editCode doc.uri g.baseVersion e.1 e.2) s) :=
        .foldl (fun s e _ ↦ hedit s _ _ _ _) s
      have hend := (htyped.trans (hadd _)).trans (loses_endGhost key .accepted)
      split
      · exact hend.trans (.of_quiet (changes_runCommand _) (by decide))
      · exact hend
  · exact .refl s

theorem loses_onActivated (key : String) (decoration : ℕ) : Loses s (s.onActivated key decoration) := by
  rw [onActivated]
  split
  · split
    · exact .of_quiet (changes_runCommand _) (by decide)
    · exact .refl s
  · exact loses_acceptGhost _ _
  · exact .refl s

theorem loses_askInline (key : String) (uri : UriComponents) (pos : WidgetPos) (explicit : Bool)
    (handles : List (ℤ × ℕ)) : Loses s (s.askInline key uri pos explicit handles) := by
  induction handles generalizing s with
  | nil => exact .refl s
  | cons h handles ih =>
    refine Loses.trans ?_ ih
    have hask : Loses s (s.rpcWith (.provideInlineCompletions h.1 uri pos.toExthost explicit)
        (.inline key)).1 :=
      .of_quiet (changes_rpcWith (F := {.pending, .asks}) (by decide)
        (fun t p hp ↦ by cases hp; decide) (.inr nofun)) (by decide)
    split
    · rename_i st hst
      exact hask.trans (.setInline_same (ghostAt_of_getElem? hst).symm)
    · exact hask

theorem loses_fireInline (key : String) : Loses s (s.fireInline key) := by
  simp only [fireInline]
  split
  · exact .refl s
  · rename_i st pos explicit h
    obtain ⟨st', hst, htrigger⟩ := Option.bind_eq_some_iff.1 h
    obtain ⟨trigger, -, heq⟩ := Option.map_eq_some_iff.1 htrigger
    obtain ⟨rfl, -⟩ := Prod.mk.inj heq
    have hset : Loses s (s.setInline key { st' with trigger := none }) :=
      .setInline_same (ghostAt_of_getElem? hst).symm
    split
    · exact hset
    · split
      · exact hset
      · have hbegin (s : SessionCore) (version : ℕ) :
            Loses s (s.setInline key ((s.inlineAt key).begin version pos).1) :=
          .setInline_same ghost_inlineAt
        exact ((hset.trans (hbegin _ _)).trans (.of_quiet (changes_cancel _) (by decide))).trans
          (loses_askInline _ _ _ _ _)

theorem loses_runInlineTimers : Loses s (s.runInlineTimers ord) := by
  have hmap (now : Instant) : Loses s { s with
      inline := s.inline.map fun _ st ↦ { st with debounce := st.debounce.takeDue now } } :=
    ⟨rfl, fun _ _ _ ↦ id, fun _ _ ↦ id, fun key g hg ↦ by
      rw [ghostAt, Std.ExtTreeMap.getElem?_map, Option.bind_map] at hg
      exact ⟨g, hg, rfl⟩⟩
  exact (hmap _).trans (.foldl (fun _ key _ ↦ loses_fireInline key) _)

theorem loses_runTimers : Loses s (s.runTimers ord) :=
  (loses_runInlineTimers ord).trans (.of_quiet (changes_runCodelensTimers ord) (by decide))

theorem loses_dropGhost (handle : ℤ) (key : String) : Loses s (s.dropGhost handle key) := by
  rw [dropGhost]
  split
  · split
    · exact (Loses.setInline_none rfl).trans (.of_quiet (changes_touch _) (by decide))
    · exact .refl s
  · exact .refl s

theorem loses_dropGhosts (handle : ℤ) (keys : List String) : Loses s (s.dropGhosts handle keys) :=
  .foldl (fun _ key _ ↦ loses_dropGhost handle key) s

theorem handle_ne_of_dropGhost {handle : ℤ}
    (hg : (s.dropGhost handle key).ghostAt key = some g) : g.item.handle ≠ handle := by
  rw [dropGhost] at hg
  split at hg
  · rename_i st hst
    split at hg
    · change (s.setInline key { st with ghost := none }).ghostAt key = some g at hg
      rw [ghostAt_setInline, if_pos rfl] at hg
      cases hg
    · rename_i hany
      rw [ghostAt_of_getElem? hst] at hg
      rw [hg] at hany
      simpa using hany
  · rename_i hst
    rw [ghostAt, hst] at hg
    cases hg

/-- No document looked at still shows a ghost of the provider. -/
theorem handle_ne_of_dropGhosts {handle : ℤ} {keys : List String} (hkey : key ∈ keys)
    (hg : (s.dropGhosts handle keys).ghostAt key = some g) : g.item.handle ≠ handle := by
  induction keys generalizing s with
  | nil => cases hkey
  | cons k keys ih =>
    rcases List.mem_cons.1 hkey with rfl | hkey
    · obtain ⟨g', hg', hitem⟩ := (loses_dropGhosts handle keys).ghosts _ _ hg
      exact hitem ▸ handle_ne_of_dropGhost hg'
    · exact ih hkey hg

theorem loses_onRegistryChange (change : RegistryChange) : Loses s (s.onRegistryChange change) := by
  have hschedule : Loses s
      (s.docs.keys.foldl (fun s k ↦ s.scheduleCodelens k s.opts.codelensDebounce) s) :=
    .foldl (fun _ k _ ↦ .of_quiet (changes_scheduleCodelens k _) (by decide)) s
  have htouch (keys : List String) (s : SessionCore) : Loses s (keys.foldl touch s) :=
    .foldl (fun _ k _ ↦ .of_quiet (changes_touch k) (by decide)) s
  simp only [onRegistryChange]
  split
  · exact hschedule
  · exact hschedule
  · exact (loses_lenses fun _ _ h ↦ (CodeLenses.holds_removeProvider.1 h).2).trans (htouch _ _)
  · exact loses_dropGhosts _ _
  · split
    · split
      · exact .refl s
      · exact loses_scheduleInline _
    · exact .refl s
  · exact .refl s

theorem loses_afterChange (key : String) (range : WidgetRange) (text : Text) :
    Loses s (s.afterChange key range text) := by
  have hmoved : Loses s { s with
      diagnostics := s.diagnostics.onEdit key range text
      lenses := s.lenses.onEdit key range text } :=
    ⟨rfl, fun _ _ _ ↦ id, fun _ _ ↦ (CodeLenses.holds_onEdit range text).1, fun _ g hg ↦ ⟨g, hg, rfl⟩⟩
  have hhide (s : SessionCore) (shown : Option String) :
      Loses s (if shown.isSome then s.hideHover (some key) else s) := by
    split
    · exact .of_quiet (changes_hideHover _) (by decide)
    · exact .refl s
  exact (((hmoved.trans (.of_quiet (changes_endHoverFor key) (by decide))).trans
    (hhide _ _)).trans (loses_inlineAfterChange key range text)).trans
    (.of_quiet ((changes_scheduleCodelens _ _).trans (changes_touch _)) (by decide))

theorem loses_resetViews (key : String) (doc : OpenDocument) : Loses s (s.resetViews key doc) := by
  have hcancel (s : SessionCore) : Loses s (if key ∈ s.inline then s.cancelInline key else s) := by
    split
    · exact loses_cancelInline _
    · exact .refl s
  have hhide (s : SessionCore) (shown : Option String) : Changes ∅ s
      (if shown.isSome then s.ui (.hoverHidden doc.uri) else s) := by
    split
    · exact changes_ui _
    · exact changes_none
  exact (((loses_closeLenses key).trans (hcancel _)).trans (loses_endGhost _ _)).trans
    (.of_quiet (((((((changes_endHoverFor key).trans (hhide _ _)).trans (changes_ids _)).trans
      (changes_ui _)).trans changes_sendTabModel).trans (changes_scheduleCodelens _ _)).trans
      (changes_touch _)) (by decide))

theorem loses_forgetDoc (key : String) : Loses s (s.forgetDoc ord key) := by
  have hactive (s : SessionCore) : Loses s (if s.active = some key then
      { s with active := (ord.docs s.docs.keys).head? } else s) := by
    split
    · exact .of_quiet (changes_active _) (by decide)
    · exact .refl s
  exact ((((loses_closeLenses key).trans (.of_quiet ((changes_codelensDue _).trans
    (changes_cancelCodelens ord key)) (by decide))).trans (loses_closeInline key)).trans
    (.of_quiet ((changes_endHoverFor key).trans (changes_ids _)) (by decide))).trans (hactive _)

theorem ghostAt_forgetDoc (key : String) :
    (s.forgetDoc ord key).ghostAt key = none := by
  have hactive (s : SessionCore) : Loses s (if s.active = some key then
      { s with active := (ord.docs s.docs.keys).head? } else s) := by
    split
    · exact .of_quiet (changes_active _) (by decide)
    · exact .refl s
  -- what comes after the inline state went shows no ghost again
  have hafter (s : SessionCore) (ids hover) := (Loses.of_quiet (((changes_hover hover).trans
    (changes_cancel (s := { s with hover }) (s.hover.endFor key).2.1)).trans
    (changes_ids ids)) (by decide)).trans (hactive _)
  by_contra hne
  obtain ⟨g, hg⟩ := Option.ne_none_iff_exists'.1 hne
  obtain ⟨g', hg', -⟩ := (hafter _ _ _).ghosts key g hg
  rw [ghostAt_closeInline] at hg'
  cases hg'

/-! ### The invariant -/

/-- Every stored list and every shown ghost belongs to a registered provider of its kind, and no
command runs for another provider. -/
structure ProvidersRegistered (s : SessionCore) : Prop where
  lenses : ∀ doc handle, s.lenses.Holds doc handle → s.registry.Registered handle .codeLens
  ghosts : ∀ key g, s.ghostAt key = some g → s.registry.Registered g.item.handle .inlineCompletions
  commands : ∀ id handle cmd, s.lenses.commandFor id = some (handle, cmd) →
    s.registry.Registered handle .codeLens

/-- The invariant: also, only an open document has a ghost. -/
structure Provided (s : SessionCore) : Prop where
  lenses : ∀ doc handle, s.lenses.Holds doc handle → s.registry.Registered handle .codeLens
  ghosts : ∀ key g, s.ghostAt key = some g → s.registry.Registered g.item.handle .inlineCompletions
  shown : ∀ key g, s.ghostAt key = some g → key ∈ s.docs

theorem Provided.providersRegistered (h : s.Provided) : s.ProvidersRegistered :=
  ⟨h.lenses, h.ghosts, fun _ handle _ hcmd ↦ by
    obtain ⟨doc, hlist⟩ := CodeLenses.holds_of_commandFor hcmd
    exact h.lenses doc handle hlist⟩

/-- What loses lists and ghosts keeps the invariant. -/
theorem Loses.provided (h : Loses s t) (hs : s.Provided) : t.Provided where
  lenses doc handle hlist := by
    rw [h.registry]
    exact hs.lenses doc handle (h.lenses doc handle hlist)
  ghosts key g hg := by
    obtain ⟨g', hg', hitem⟩ := h.ghosts key g hg
    rw [h.registry, ← hitem]
    exact hs.ghosts key g' hg'
  shown key g hg := by
    obtain ⟨g', hg', -⟩ := h.ghosts key g hg
    exact h.docs key g hg (hs.shown key g' hg')

theorem Provided.of_quiet (hs : s.Provided) (h : Changes F s t)
    (hF : F ⊆ {.editors, .exthostOnly, .opening, .pending, .saves, .tokens, .models, .frees, .asks,
      .reads, .writes, .lensRequests, .lensSerial}) : t.Provided :=
  (Loses.of_quiet h hF).provided hs

theorem Provided.onClose (hs : s.Provided) (ord : IterOrder) (uri : UriComponents) :
    (s.onClose ord uri).Provided := by
  simp only [SessionCore.onClose]
  split
  · exact hs
  · rename_i doc hdoc
    -- the document goes first, so only the other documents' ghosts are of open documents meanwhile
    let r := (rpc { s with docs := s.docs.erase uri.key } doc.removeCall).push (.unwatch doc.uri)
    have hforget : Loses r (r.forgetDoc ord uri.key) := loses_forgetDoc ord uri.key
    refine Loses.provided (.of_quiet (changes_sendTabModel.trans (changes_ui _)) (by decide))
      ⟨fun doc handle hlist ↦ ?_, fun key g hg ↦ ?_, fun key g hg ↦ ?_⟩
    · rw [hforget.registry]
      exact hs.lenses doc handle (hforget.lenses doc handle hlist)
    · obtain ⟨g', hg', hitem⟩ := hforget.ghosts key g hg
      rw [hforget.registry, ← hitem]
      exact hs.ghosts key g' hg'
    · have hne : uri.key ≠ key := fun heq ↦ by
        rw [← heq, ghostAt_forgetDoc] at hg
        cases hg
      obtain ⟨g', hg', -⟩ := hforget.ghosts key g hg
      refine hforget.docs key g hg ?_
      show key ∈ s.docs.erase uri.key
      exact Std.ExtTreeMap.mem_erase.2 ⟨by simpa using hne, hs.shown key g' hg'⟩

theorem Provided.onRegistryChange (hs : s.Provided) (call : MainThreadCall)
    (hfree : ∀ handle kind, Registry.registration call = some (handle, kind) →
      (kind ≠ .codeLens → ∀ doc, ¬ s.lenses.Holds doc handle) ∧
      (kind ≠ .inlineCompletions → ∀ key g, s.ghostAt key = some g → g.item.handle ≠ handle)) :
    (SessionCore.onRegistryChange { s with registry := (s.registry.apply call).1 }
      (s.registry.apply call).2).Provided := by
  let r : SessionCore := { s with registry := (s.registry.apply call).1 }
  have hloses : Loses r (r.onRegistryChange (s.registry.apply call).2) := loses_onRegistryChange _
  refine ⟨fun doc handle hlist ↦ ?_, fun key g hg ↦ ?_, fun key g hg ↦ ?_⟩
  · have hstored : s.lenses.Holds doc handle := hloses.lenses doc handle hlist
    rw [hloses.registry]
    rcases (hs.lenses doc handle hstored).apply call with hreg | hchange | ⟨kind, hkind, hcall⟩
    · exact hreg
    · -- the lists of the provider went with it
      rw [hchange] at hlist
      have hkept := (Loses.foldl (fun _ k _ ↦ Loses.of_quiet (changes_touch k) (by decide))
        _).lenses doc handle hlist
      exact absurd rfl (CodeLenses.holds_removeProvider.1 hkept).1
    · exact absurd hstored ((hfree handle kind hcall).1 hkind doc)
  · obtain ⟨g', hg', hitem⟩ := hloses.ghosts key g hg
    rw [hloses.registry]
    rcases (hs.ghosts key g' hg').apply call with hreg | hchange | ⟨kind, hkind, hcall⟩
    · exact hitem ▸ hreg
    · rw [hchange] at hg
      have hkey : key ∈ r.docs.keys := Std.ExtTreeMap.mem_keys.2 (hs.shown key g' hg')
      exact absurd (congrArg InlineItem.handle hitem).symm (handle_ne_of_dropGhosts hkey hg)
    · exact absurd rfl ((hfree g'.item.handle kind hcall).2 hkind key g' hg')
  · obtain ⟨g', hg', -⟩ := hloses.ghosts key g hg
    exact hloses.docs key g hg (hs.shown key g' hg')

theorem Provided.onCodelensReply (hs : s.Provided) (token : Token) (key : String) (handle : ℤ)
    (version : ℕ) (result : Except String Value)
    (hreg : result.isOk → s.docs[key]?.map (·.widgetVersion) = some version →
      s.registry.Registered handle .codeLens) :
    (s.onCodelensReply token key handle version result).Provided := by
  let r := s.answeredCodelens token key handle
  have hchanges : Changes ∅ s r := changes_answeredCodelens token key handle
  have hanswered : Loses s r := .of_quiet hchanges (by decide)
  have hdocs : r.docs = s.docs := hchanges.keep .docs (by decide)
  have hr : r.Provided := hanswered.provided hs
  simp only [SessionCore.onCodelensReply]
  split
  · exact hr
  · rename_i value
    split
    · exact hr.of_quiet (changes_releaseLenses _ _) (by decide)
    · rename_i hversion
      rw [not_not, hdocs] at hversion
      let stored : SessionCore := { r with
        lenses := (r.lenses.setList key handle value r.opts.codelensResolveCap).1 }
      have hstored : stored.Provided := by
        refine ⟨fun doc handle' hlist ↦ ?_, hr.ghosts, hr.shown⟩
        rcases (CodeLenses.holds_setList value r.opts.codelensResolveCap).1 hlist with ⟨-, rfl⟩ | hlist
        · have hreg' := hreg rfl hversion
          rwa [← hanswered.registry] at hreg'
        · exact hr.lenses doc handle' hlist
      exact hstored.of_quiet (((changes_releaseLenses _ _).trans
        (changes_resolveLenses _ _ _ _)).trans (changes_touch _)) (by decide)

/-- The first element with a value is the first with any. -/
theorem find?_of_findSome? {α β : Type*} {f : α → Option β} {l : List α} {b : β}
    (h : l.findSome? f = some b) : ∃ a, l.find? (fun a ↦ (f a).isSome) = some a ∧ f a = some b := by
  obtain ⟨l₁, a, l₂, rfl, ha, hnone⟩ := List.findSome?_eq_some_iff.1 h
  refine ⟨a, List.find?_eq_some_iff_append.2 ⟨by rw [ha]; rfl, l₁, l₂, rfl, fun x hx ↦ ?_⟩, ha⟩
  rw [hnone x hx]
  rfl

theorem ghostAt_showGhost (version : ℕ) (pos : WidgetPos) (item : InlineItem) (text : Text)
    (hg : (s.showGhost key version pos item text).ghostAt key' = some g) :
    key = key' ∧ g.item = item ∨ s.ghostAt key' = some g := by
  have hset : (s.showGhost key version pos item text).ghostAt key' =
      if key = key' then _ else _ := ghostAt_setInline _
  rw [hset] at hg
  split at hg
  · rename_i heq
    obtain rfl := Option.some.inj hg
    exact .inl ⟨heq, rfl⟩
  · have hinline (ids : DecorationIds) : (rpcs { s with ids } (didShowCall item)).inline = s.inline :=
      (changes_didShow item).keep .inline (by decide)
    rw [ghostAt, hinline] at hg
    exact .inr hg

theorem Provided.chooseGhost (hs : s.Provided) (key : String) (version : ℕ) (pos : WidgetPos)
    (replies : List (ℤ × Value))
    (hreg : ∀ line ∈ s.docs[key]?.bind (·.line pos.line),
      ∀ reply ∈ replies.find? fun r ↦ (shownOf s.registry pos line r).isSome,
        s.registry.Registered reply.1 .inlineCompletions) :
    (s.chooseGhost key version pos replies).Provided := by
  simp only [SessionCore.chooseGhost]
  split
  · exact hs
  · rename_i line hline
    have hfrees (lists : List (ℤ × ℤ × String)) : Loses s (s.freeLists lists) :=
      .of_quiet (changes_freeLists lists) (by decide)
    split
    · exact (hfrees _).provided hs
    · rename_i item text hchosen
      -- the item shown is of the first reply that has something to show
      have hitem : s.registry.Registered item.handle .inlineCompletions := by
        rw [Choice.chosen_of] at hchosen
        obtain ⟨reply, hfind, hshown⟩ := find?_of_findSome? hchosen
        rw [(mem_of_shownOf hshown).1]
        exact hreg line hline reply hfind
      let r := (s.freeLists (Choice.of s.registry pos line replies).frees).endGhost key
        (.ignored false)
      have hr : Loses s r := (hfrees _).trans (loses_endGhost _ _)
      have hdocs : r.docs = s.docs :=
        ((changes_freeLists _).trans (changes_endGhost _ _)).keep .docs (by decide)
      have hshow := changes_showGhost (s := r) key version pos item text
      have hregistry : (r.showGhost key version pos item text).registry = s.registry :=
        (hshow.keep .registry (by decide)).trans hr.registry
      refine ⟨fun doc handle hlist ↦ ?_, fun key' g hg ↦ ?_, fun key' g hg ↦ ?_⟩
      · have hlenses : (r.showGhost key version pos item text).lenses.byDoc = r.lenses.byDoc :=
          hshow.keep .lenses (by decide)
        rw [CodeLenses.Holds, CodeLenses.list, hlenses] at hlist
        rw [hregistry]
        exact hs.lenses doc handle (hr.lenses doc handle hlist)
      · rw [hregistry]
        rcases ghostAt_showGhost version pos item text hg with ⟨-, rfl⟩ | hg
        · exact hitem
        · obtain ⟨g', hg', hitem'⟩ := hr.ghosts key' g hg
          exact hitem' ▸ hs.ghosts key' g' hg'
      · have hkeep : (r.showGhost key version pos item text).docs = r.docs :=
          hshow.keep .docs (by decide)
        rw [hkeep, hdocs]
        rcases ghostAt_showGhost version pos item text hg with ⟨rfl, -⟩ | hg
        · obtain ⟨doc, hdoc, -⟩ := Option.bind_eq_some_iff.1 hline
          exact Std.ExtTreeMap.mem_iff_isSome_getElem?.2 (by rw [hdoc]; rfl)
        · obtain ⟨g', hg', -⟩ := hr.ghosts key' g hg
          exact hs.shown key' g' hg'

/-- What an inline request shows when its last reply comes is of a registered provider: the first
reply, in provider order, that has something to show at the cursor. -/
def ShowsRegistered (s : SessionCore) (doc : OpenDocument) : ReplyOutcome → Prop
  | .done pos replies => ∀ line ∈ doc.line pos.line,
      ∀ reply ∈ replies.find? fun r ↦ (shownOf s.registry pos line r).isSome,
        s.registry.Registered reply.1 .inlineCompletions
  | _ => True

theorem Provided.onInlineReply (hs : s.Provided) (token : Token) (key : String)
    (result : Except String Value)
    (hreg : ∀ doc ∈ s.docs[key]?, ∀ st ∈ s.inline[key]?,
      s.ShowsRegistered doc (st.reply token doc.widgetVersion (answerOf result)).2) :
    (s.onInlineReply token key result).Provided := by
  simp only [SessionCore.onInlineReply]
  split
  · rename_i doc st hdoc hst
    -- a reply touches the request, never the ghost
    have hset {st' : InlineDoc} (h : st'.ghost = st.ghost) : Loses s (s.setInline key st') :=
      .setInline_same (h.trans (ghostAt_of_getElem? hst).symm)
    have hghost : (st.reply token doc.widgetVersion (answerOf result)).1.ghost = st.ghost := by
      simp only [InlineDoc.reply]
      split
      · rfl
      · split
        · rfl
        · split
          · rfl
          · split <;> rfl
    split
    case h_1 st' h => exact (hset (by rw [← hghost, h])).provided hs
    case h_2 st' h => exact (hset (by rw [← hghost, h])).provided hs
    case h_3 st' free h =>
      exact ((hset (by rw [← hghost, h]; rfl)).trans (.of_quiet
        ((changes_cancel _).trans (changes_freeLists _)) (by decide))).provided hs
    case h_4 st' pos replies h =>
      refine ((hset (by rw [← hghost, h])).provided hs).chooseGhost key _ pos replies
        fun line hline ↦ ?_
      obtain ⟨doc', hdoc', hline⟩ := Option.bind_eq_some_iff.1 hline
      obtain rfl := Option.some.inj (hdoc.symm.trans hdoc')
      have hshows := hreg doc hdoc st hst
      rw [h] at hshows
      exact hshows line hline
  · exact hs

/-! ### Runs -/

/-- The answer to what a reply was awaited for brings nothing of a provider that is gone: a list of
lenses for the current version comes from a registered provider, and so does what an inline request
shows. -/
def BringsRegistered (s : SessionCore) (token : Token) (result : Except String Value) :
    Pending → Prop
  | .codeLens doc handle version =>
    result.isOk → s.docs[doc]?.map (·.widgetVersion) = some version →
      s.registry.Registered handle .codeLens
  | .inline key => ∀ doc ∈ s.docs[key]?, ∀ st ∈ s.inline[key]?,
      s.ShowsRegistered doc (st.reply token doc.widgetVersion (answerOf result)).2
  | _ => True

instance (s : SessionCore) (doc : OpenDocument) (o : ReplyOutcome) :
    Decidable (s.ShowsRegistered doc o) :=
  match o with
  | .done pos replies => inferInstanceAs (Decidable (∀ line ∈ doc.line pos.line,
      ∀ reply ∈ replies.find? fun r ↦ (shownOf s.registry pos line r).isSome,
        s.registry.Registered reply.1 .inlineCompletions))
  | .ignored | .pending | .stale _ => inferInstanceAs (Decidable True)

instance (s : SessionCore) (token : Token) (result : Except String Value) (p : Pending) :
    Decidable (s.BringsRegistered token result p) :=
  match p with
  | .codeLens doc handle version => inferInstanceAs (Decidable (result.isOk →
      s.docs[doc]?.map (·.widgetVersion) = some version → s.registry.Registered handle .codeLens))
  | .inline key => inferInstanceAs (Decidable (∀ doc ∈ s.docs[key]?, ∀ st ∈ s.inline[key]?,
      s.ShowsRegistered doc (st.reply token doc.widgetVersion (answerOf result)).2))
  | .codeLensResolve .. | .hover .. | .activateThenRun .. | .command .. =>
    inferInstanceAs (Decidable True)

/-- A registration takes no handle that a stored list or a shown ghost of another kind goes by. -/
def HandleFree (s : SessionCore) (call : MainThreadCall) : Prop :=
  ∀ handle kind, Registry.registration call = some (handle, kind) →
    (kind ≠ .codeLens → ∀ doc, ¬ s.lenses.Holds doc handle) ∧
    (kind ≠ .inlineCompletions → ∀ key g, s.ghostAt key = some g → g.item.handle ≠ handle)

/-- The calls that bring nothing of a provider that is gone. -/
def FromRegistered (s : SessionCore) : CoreCall → Prop
  | .handle _ _ (.rpcReply token result) =>
    ∀ p ∈ s.pending[token]?, s.BringsRegistered token result p
  | .handle _ _ (.extHostRequest r) => ∀ call, r.parsed = .ok call → s.HandleFree call
  | _ => True

theorem Provided.onRpcReply (hs : s.Provided) {token : Token} {result : Except String Value}
    (h : ∀ p ∈ s.pending[token]?, s.BringsRegistered token result p) :
    (s.onRpcReply token result).Provided := by
  simp only [SessionCore.onRpcReply]
  have herase : Provided { s with pending := s.pending.erase token } :=
    hs.of_quiet (changes_awaited _) (by decide)
  cases hpending : s.pending[token]? with
  | none => exact hs
  | some p =>
    replace h := h p hpending
    cases p with
    | codeLens doc handle version => exact herase.onCodelensReply token doc handle version result h
    | codeLensResolve doc handle serial index =>
      have hresolved (v : Value) : Provided { s with
          pending := s.pending.erase token
          lenses := (s.lenses.resolved doc handle serial index v).1 } :=
        ⟨fun doc handle hlist ↦ hs.lenses doc handle ((CodeLenses.holds_resolved _ _ _).1 hlist),
          hs.ghosts, hs.shown⟩
      dsimp only
      split
      · exact herase
      · split
        · exact (hresolved _).of_quiet (changes_touch _) (by decide)
        · exact hresolved _
    | hover doc =>
      dsimp only
      split
      · exact herase
      · split
        · exact herase.of_quiet ((changes_hover _).trans (changes_ui _)) (by decide)
        · exact herase.of_quiet (changes_hover _) (by decide)
    | inline key => exact herase.onInlineReply token key result h
    | activateThenRun command =>
      dsimp only
      split
      · exact herase.of_quiet (changes_contributed _) (by decide)
      · exact herase.of_quiet (changes_ui _) (by decide)
    | command id => exact herase

theorem Provided.onExthostRequest (hs : s.Provided) {r : IncomingRequest}
    (h : ∀ call, r.parsed = .ok call → s.HandleFree call) : (s.onExthostRequest r).Provided := by
  have hseq : Provided { s with replySeq := s.replySeq + 1 } := ⟨hs.lenses, hs.ghosts, hs.shown⟩
  have hrespond {s : SessionCore} (hs : s.Provided) (result : Except Value Reply) :
      (s.respond r.req result).Provided :=
    hs.of_quiet (changes_respond _ _) (by decide)
  have htouch {s : SessionCore} (hs : s.Provided) (diagnostics : Diagnostics) (keys : List String) :
      Provided (keys.foldl touch { s with diagnostics }) :=
    Loses.provided (.foldl (fun _ k _ ↦ .of_quiet (changes_touch k) (by decide)) _)
      (hs.of_quiet (changes_diagnostics _) (by decide))
  simp only [SessionCore.onExthostRequest]
  split
  · exact hrespond (htouch hseq _ _) _
  · exact hrespond (htouch hseq _ _) _
  · refine hrespond ?_ _
    split
    · exact hseq.of_quiet (changes_ui _) (by decide)
    · exact hseq
  · split
    · exact hseq.of_quiet (changes_onTryOpenDocument _) (by decide)
    · exact hrespond hseq _
  · rename_i call _ _ _ _ hcall
    exact hrespond (hseq.onRegistryChange call (h call hcall)) _
  · exact hrespond hseq _

/-- An open document is put back. -/
theorem loses_setDoc (key : String) (doc : OpenDocument) : Loses s (s.setDoc key doc) :=
  .of_changes ((changes_setDoc key doc).mono (by decide)) fun _ hkey ↦
    Std.ExtTreeMap.mem_insert.2 (.inr hkey)

theorem loses_onCodeChanged (key : String) (version : ℕ) (range : WidgetRange) (text : Text) :
    Loses s (s.onCodeChanged key version range text) := by
  rcases onCodeChanged_cases s key version range text with
    ⟨-, h⟩ | ⟨doc, -, -, h⟩ | ⟨doc, doc', call, r, -, happly, hr, h⟩
  · rw [h]
    exact .refl s
  · exact (loses_setDoc _ _).trans (.of_quiet h (by decide))
  · have hcall : Loses (s.setDoc key doc') ((s.setDoc key doc').rpc call) := by
      rcases doc.applyWidgetChange_cases version range text with
        ⟨err, h⟩ | ⟨m, c, -, -, -, h⟩
      · rw [h] at happly
        cases happly
      · obtain ⟨-, heq⟩ := Prod.mk.inj (h.symm.trans happly)
        obtain rfl := Except.ok.inj heq
        exact .of_quiet (changes_rpc (F := {.models}) fun p hp ↦ by cases hp; decide) (by decide)
    rw [h]
    exact (((loses_setDoc _ _).trans hcall).trans (.of_quiet hr (by decide))).trans
      (loses_afterChange _ _ _)

theorem loses_onTriggerInline (generation : ℕ) (pos : WidgetPos) :
    Loses s (s.onTriggerInline uri generation pos) := by
  simp only [onTriggerInline]
  split
  · exact .refl s
  · split
    · exact .refl s
    · exact (loses_setDoc _ _).trans (.setInline_same ghost_inlineAt)

theorem loses_resetDoc (key : String) (text : Text) (bom : Option Bool) :
    Loses s (s.resetDoc key text bom) := by
  have hgeneration : Loses s { s with nextGeneration := s.nextGeneration + 1 } :=
    ⟨rfl, fun _ _ _ ↦ id, fun _ _ ↦ id, fun _ g hg ↦ ⟨g, hg, rfl⟩⟩
  simp only [resetDoc]
  split
  · exact hgeneration
  · exact ((hgeneration.trans (loses_setDoc _ _)).trans
      (.of_quiet (changes_resetCalls _ _ _ _) (by decide))).trans (loses_resetViews _ _)

theorem loses_onFileRead (purpose : ReadPurpose)
    (result : Except String ByteArray) : Loses s (s.onFileRead uri purpose result) := by
  have hopening (opening) : Loses s { s with opening } :=
    .of_quiet (changes_opening _) (by decide)
  cases purpose with
  | open_ =>
    simp only [onFileRead]
    split
    · refine (hopening (s.opening.erase uri.key)).trans
        (.of_changes ((changes_finishOpen _ _).mono (by decide)) fun key hkey ↦ ?_)
      rename_i bytes
      rcases finishOpen_cases { s with opening := s.opening.erase uri.key } uri bytes with
        ⟨err, -, h⟩ | ⟨text, bom, r, v, doc, -, hr, -, h⟩
      · have hdocs : (finishOpen _ uri bytes).docs = s.docs := h.keep .docs (by decide)
        rwa [hdocs]
      · have htake := changes_takeOver (s := { s with opening := s.opening.erase uri.key }) uri.key
        rw [hr] at htake
        have hdocs : (finishOpen _ uri bytes).docs = r.docs.insert uri.key doc :=
          h.keep .docs (by decide)
        have hkeep : r.docs = s.docs := htake.keep .docs (by decide)
        rw [hdocs, hkeep]
        exact Std.ExtTreeMap.mem_insert.2 (.inr hkey)
    · exact (hopening _).trans (.of_quiet (changes_ui _) (by decide))
  | reload =>
    simp only [onFileRead, onReload]
    split
    · split
      · exact .refl s
      · split
        · exact .refl s
        · split
          · exact .of_quiet (changes_ui _) (by decide)
          · exact loses_resetDoc _ _ _
    · exact .refl s
  | extHostOpen req => exact .of_quiet (changes_finishExthostOpen _ _ _) (by decide)

theorem loses_onFileWritten (token : Token) (result : Except String Unit) :
    Loses s (s.onFileWritten uri token result) := by
  rcases s.onFileWritten_cases uri token result with
    ⟨-, h⟩ | ⟨key, v, bytes, -, ⟨-, h⟩ | ⟨doc, -, -, h⟩⟩
  · rw [h]
    exact .refl s
  · exact .of_quiet ((changes_saves _).trans h) (by decide)
  · exact ((Loses.of_quiet (changes_saves _) (by decide)).trans (loses_setDoc _ _)).trans
      (.of_quiet ((changes_savedCalls _ _ _).trans h) (by decide))

theorem Provided.onWidget (hs : s.Provided) (uri : UriComponents) (generation : ℕ)
    (event : WidgetEvent) : (s.onWidget uri generation event).Provided := by
  have hquiet {r : SessionCore} (hr : Changes {.pending, .saves, .writes} s r) : r.Provided :=
    hs.of_quiet hr (by decide)
  simp only [SessionCore.onWidget]
  split
  · split
    · exact (loses_onCodeChanged _ _ _ _).provided hs
    · exact hs
    · exact hquiet ((changes_onHoverRest _ _).mono (by decide))
    · exact hquiet (changes_endHover.mono (by decide))
    · exact hquiet ((changes_onSave _).mono (by decide))
    · exact (loses_onActivated _ _).provided hs
  · exact hs

theorem Provided.dispatch (hs : s.Provided) (ord : IterOrder) (now : Instant) (input : Input)
    (h : s.FromRegistered (.handle ord now input)) : (s.dispatch ord input).Provided := by
  cases input with
  | open_ uri => exact hs.of_quiet (changes_onOpen _) (by decide)
  | close uri => exact hs.onClose ord uri
  | focus uri => exact hs.of_quiet (changes_onFocus _) (by decide)
  | widget uri generation event => exact hs.onWidget uri generation event
  | triggerInline uri generation pos => exact (loses_onTriggerInline _ _ _).provided hs
  | extHostRequest r => exact hs.onExthostRequest h
  | rpcReply token result => exact hs.onRpcReply h
  | fileRead uri purpose result => exact (loses_onFileRead _ _ _).provided hs
  | fileWritten uri token result => exact (loses_onFileWritten _ _ _).provided hs
  | filesChanged changes =>
    exact hs.of_quiet (changes_onFilesChanged _ _) (by decide)
  | tick => exact hs

/-- One call of a driver. -/
theorem Provided.call (hs : s.Provided) {c : CoreCall} (h : s.FromRegistered c) :
    (s.call c).1.Provided := by
  have hflush (r : SessionCore) : Loses r r.flushDecorations.take.1 :=
    (Loses.of_quiet changes_flushDecorations (by decide)).trans
      ⟨rfl, fun _ _ _ ↦ id, fun _ _ ↦ id, fun _ g hg ↦ ⟨g, hg, rfl⟩⟩
  have hnow (now : Instant) : Loses s { s with now } :=
    ⟨rfl, fun _ _ _ ↦ id, fun _ _ ↦ id, fun _ g hg ↦ ⟨g, hg, rfl⟩⟩
  cases c with
  | handle ord now input =>
    have hdispatch := ((hnow now).provided hs).dispatch ord now input
      (by cases input <;> exact h)
    exact ((loses_runTimers ord).trans (hflush _)).provided hdispatch
  | resync now uri =>
    simp only [SessionCore.call, resync]
    refine ((hnow now).trans (Loses.trans ?_ (hflush _))).provided hs
    split
    · exact loses_resetDoc _ _ _
    · exact .refl _

theorem provided_new (languages : LanguageRegistry) (opts : CoreOptions) (now : Instant) :
    (new languages opts now).Provided :=
  ⟨fun doc handle h ↦ by simp [CodeLenses.Holds, CodeLenses.list, new, CodeLenses.new] at h,
    fun key g hg ↦ by simp [ghostAt, new] at hg, fun key g hg ↦ by simp [ghostAt, new] at hg⟩

/-- **Lists and ghosts are of registered providers** in every run that takes nothing of a provider
that is gone. -/
theorem providersRegistered_of_reachable {languages : LanguageRegistry} {opts : CoreOptions}
    {now : Instant} {s : SessionCore}
    (h : ((runs languages opts now).restrict FromRegistered).Reachable s) : s.ProvidersRegistered := by
  refine (h.invariant (I := Provided) ?_ ?_).providersRegistered
  · rintro s rfl
    exact provided_new languages opts now
  · rintro s c t - hs ⟨hfrom, rfl⟩
    exact hs.call hfrom

/-- The calls of a driver for a provider of lenses that registers and is asked. -/
def askedForLenses : List CoreCall :=
  openingCalls [] ++ [.handle .sorted 0 (asking (.registerCodeLensSupport 7 [⟨some "*", none, none, none⟩]
    none)), .handle .sorted 250 .tick]

/-- Its list comes. -/
def lensesCome : CoreCall := .handle .sorted 250 (.rpcReply 1 (.ok (.obj [("lenses", .arr [])])))

/-- A provider's list is stored while it is registered. -/
theorem providersRegistered_of_reachable_stored :
    (after (askedForLenses ++ [lensesCome])).lenses.Holds aFile.key 7 ∧
      (after (askedForLenses ++ [lensesCome])).ProvidersRegistered := by
  have hopened : ((runs plainText .default 0).restrict FromRegistered).Reachable
      (after (openingCalls [])) := reachable_openingCalls [] (fun _ ↦ trivial) fun _ ↦ trivial
  -- nothing is shown yet that a provider could have left
  have hfree : (after (openingCalls [])).HandleFree
      (.registerCodeLensSupport 7 [⟨some "*", none, none, none⟩] none) := by
    intro handle kind hcall
    obtain ⟨-, rfl⟩ := Prod.mk.inj (Option.some.inj hcall)
    refine ⟨fun hne ↦ absurd rfl hne, fun _ key g hg ↦ ?_⟩
    have hinline : (after (openingCalls [])).inline.isEmpty = true := by decide +kernel
    rw [ghostAt, Std.ExtTreeMap.isEmpty_iff.1 hinline, Std.ExtTreeMap.getElem?_empty] at hg
    cases hg
  have hasked := reachable_after_concat (c := .handle .sorted 250 .tick) (reachable_after_concat
    (c := .handle .sorted 0 (asking _)) hopened fun call hcall ↦ by
      obtain rfl := Except.ok.inj hcall
      exact hfree) trivial
  have hcome : (after askedForLenses).FromRegistered lensesCome := by
    unfold FromRegistered lensesCome
    decide +kernel
  exact ⟨by unfold CodeLenses.Holds; decide +kernel,
    providersRegistered_of_reachable (reachable_after_concat hasked hcome)⟩

/-- **A late list outlives its provider.** The provider goes while it is asked, and the reply brings
its list back. -/
theorem not_providersRegistered_after_late_list :
    ¬ ∀ languages opts now s, (runs languages opts now).Reachable s → s.ProvidersRegistered := by
  intro h
  have hstored : (after (askedForLenses ++ [.handle .sorted 250 (asking (.unregister 7)),
      lensesCome])).lenses.Holds aFile.key 7 := by
    unfold CodeLenses.Holds
    decide +kernel
  have hreg := (h _ _ _ _ (reachable_after _)).lenses aFile.key 7 hstored
  exact absurd hreg (by decide +kernel)

end SessionCore

end Ember.Editor
