import Ember.Editor.Handle
import Ember.Foundation.Parts

/-!
# What each handler of the session core may change

The parts of the core the results about it speak of, and the effects they count. Every handler that
leaves some of them alone has its frame here, the sum of the frames of what it calls; what a handler
does inside its frame is proved where it matters.
-/

namespace Ember.Editor

open EditorConn

/-- The parts of the session core, and the kinds of effects, that frames tell apart. -/
inductive Part
  | docs
  | editors
  | exthostOnly
  | opening
  | registry
  | lenses
  | inline
  | pending
  | saves
  | tokens
  /-- Effects that tell the extension host about documents. -/
  | models
  /-- Effects that free an inline-completion list. -/
  | frees
  /-- Effects that ask for inline completions. -/
  | asks
  | reads
  | writes
  /-- The requests for lenses that are awaited, and the effects that send one. -/
  | lensRequests
  | lensLists
  | lensSerial
  deriving DecidableEq, Repr

/-- What an effect is about. -/
def Effect.part : Effect → Option Part
  | .rpc _ (.acceptDocumentsAndEditorsDelta _) => some .models
  | .rpc _ (.acceptModelChanged _ _ _) => some .models
  | .rpc _ (.acceptModelSaved _) => some .models
  | .rpc _ (.acceptDirtyStateChanged _ _) => some .models
  | .rpc _ (.freeInlineCompletionsList _ _ _) => some .frees
  | .rpc _ (.provideInlineCompletions _ _ _ _) => some .asks
  | .rpc _ (.provideCodeLenses _ _) => some .lensRequests
  | .readFile _ _ => some .reads
  | .writeFile _ _ _ => some .writes
  | _ => none

variable (key : String) (uri : UriComponents) (ord : IterOrder) (token : Token) (doc : OpenDocument)

variable {c : Call}

namespace SessionCore

/-- A part is the same in both states. Of the lenses only the lists and their serial count; the tokens
may only grow, and the requests for lenses and the lists only go. -/
def Keeps (p : Part) (s s' : SessionCore) : Prop :=
  match p with
  | .docs => s'.docs = s.docs
  | .editors => s'.nextEditor = s.nextEditor
  | .exthostOnly => s'.exthostOnly = s.exthostOnly
  | .opening => s'.opening = s.opening
  | .registry => s'.registry = s.registry
  | .lenses => s'.lenses.byDoc = s.lenses.byDoc
  | .inline => s'.inline = s.inline
  | .pending => s'.pending = s.pending
  | .saves => s'.saves = s.saves
  | .tokens => s.nextToken ≤ s'.nextToken
  | .lensRequests => ∀ (t : Token) (key : String) (handle : ℤ) (v : ℕ),
      s'.pending[t]? = some (.codeLens key handle v) → s.pending[t]? = some (.codeLens key handle v)
  | .lensLists => ∀ (doc : String) (handle : ℤ) (list : LensList),
      s'.lenses.list doc handle = some list → s.lenses.list doc handle = some list
  | .lensSerial => s'.lenses.serial = s.lenses.serial
  | .models | .frees | .asks | .reads | .writes => True

/-- The parts of the session core. -/
def parts : Parts SessionCore Effect Part where
  keeps := Keeps
  refl p s := by
    cases p <;> first
      | rfl | exact le_rfl | trivial | exact fun _ _ _ _ h ↦ h | exact fun _ _ _ h ↦ h
  trans p s t u h h' := by
    cases p
    case tokens => exact le_trans h h'
    case lensRequests => exact fun t key handle v hp ↦ h t key handle v (h' t key handle v hp)
    case lensLists => exact fun doc handle list hl ↦ h doc handle list (h' doc handle list hl)
    all_goals first | exact Eq.trans h' h | trivial
  out := SessionCore.out
  about := Effect.part

/-- A step of the core with a frame. -/
abbrev Changes (F : Finset Part) (s s' : SessionCore) : Prop := parts.Changes F s s'

variable {s : SessionCore} {F : Finset Part}

/-! ### Small steps -/

/-- A step that asks for no effect. -/
theorem changes_quiet {s s' : SessionCore} (hout : s'.out = s.out)
    (h : ∀ p ∉ F, Keeps p s s') : Changes F s s' :=
  ⟨h, [], by rw [List.append_nil]; exact hout, fun _ he ↦ absurd he List.not_mem_nil⟩

/-- The fields the parts are about. -/
def tracked (s : SessionCore) :=
  (s.docs, s.nextEditor, s.exthostOnly, s.opening, s.registry, s.lenses.byDoc, s.lenses.serial,
    s.inline, s.pending, s.saves, s.nextToken, s.out)

/-- A step that changes none of the parts. -/
theorem changes_untracked {s s' : SessionCore} (h : s'.tracked = s.tracked) : Changes ∅ s s' := by
  simp only [tracked, Prod.mk.injEq] at h
  obtain ⟨h1, h2, h3, h4, h5, h6, h7, h8, h9, h10, h11, hout⟩ := h
  refine changes_quiet hout fun p _ ↦ ?_
  cases p <;> first
    | assumption | exact h11.ge | trivial | exact fun _ _ _ _ hp ↦ h9 ▸ hp
    | exact fun doc handle list hl ↦ by rwa [CodeLenses.list, h6] at hl

/-- A step that changes one part. -/
theorem changes_one (p : Part) {s s' : SessionCore} (hout : s'.out = s.out)
    (h : ∀ q ≠ p, Keeps q s s') : Changes {p} s s' :=
  changes_quiet hout fun q hq ↦ h q fun heq ↦ hq (Finset.mem_singleton.2 heq)

theorem changes_docs (docs) : Changes {.docs} s { s with docs } :=
  changes_one .docs rfl fun q hq ↦ by
    cases q <;> first
      | contradiction | exact rfl | exact le_rfl | trivial | exact fun _ _ _ _ h ↦ h
      | exact fun _ _ _ h ↦ h

theorem changes_exthostOnly (exthostOnly) : Changes {.exthostOnly} s { s with exthostOnly } :=
  changes_one .exthostOnly rfl fun q hq ↦ by
    cases q <;> first
      | contradiction | exact rfl | exact le_rfl | trivial | exact fun _ _ _ _ h ↦ h
      | exact fun _ _ _ h ↦ h

theorem changes_opening (opening) : Changes {.opening} s { s with opening } :=
  changes_one .opening rfl fun q hq ↦ by
    cases q <;> first
      | contradiction | exact rfl | exact le_rfl | trivial | exact fun _ _ _ _ h ↦ h
      | exact fun _ _ _ h ↦ h

theorem changes_registry (registry) : Changes {.registry} s { s with registry } :=
  changes_one .registry rfl fun q hq ↦ by
    cases q <;> first
      | contradiction | exact rfl | exact le_rfl | trivial | exact fun _ _ _ _ h ↦ h
      | exact fun _ _ _ h ↦ h

/-- Lists are lost. -/
theorem changes_lost (lenses : CodeLenses) (hserial : lenses.serial = s.lenses.serial)
    (hlists : ∀ (doc : String) (handle : ℤ) (list : LensList),
      lenses.list doc handle = some list → s.lenses.list doc handle = some list) :
    Changes {.lenses} s { s with lenses } :=
  changes_quiet rfl fun q hq ↦ by
    cases q
    case lenses => exact absurd (Finset.mem_singleton_self _) hq
    case lensLists => exact hlists
    case lensSerial => exact hserial
    all_goals first | exact rfl | exact le_rfl | trivial | exact fun _ _ _ _ h ↦ h

/-- Lists change. -/
theorem changes_lenses (lenses : CodeLenses) (hserial : lenses.serial = s.lenses.serial) :
    Changes {.lenses, .lensLists} s { s with lenses } :=
  changes_quiet rfl fun q hq ↦ by
    cases q
    case lenses => exact absurd (Finset.mem_insert_self _ _) hq
    case lensLists =>
      exact absurd (Finset.mem_insert_of_mem (Finset.mem_singleton_self Part.lensLists)) hq
    case lensSerial => exact hserial
    all_goals first | exact rfl | exact le_rfl | trivial | exact fun _ _ _ _ h ↦ h

/-- A list is stored. -/
theorem changes_stored (lenses) :
    Changes {.lenses, .lensLists, .lensSerial} s { s with lenses } :=
  changes_quiet rfl fun q hq ↦ by
    simp only [Finset.mem_insert, Finset.mem_singleton, not_or] at hq
    obtain ⟨h1, h2, h3⟩ := hq
    cases q
    case lenses => exact absurd rfl h1
    case lensLists => exact absurd rfl h2
    case lensSerial => exact absurd rfl h3
    all_goals first | exact rfl | exact le_rfl | trivial | exact fun _ _ _ _ h ↦ h

theorem changes_inline (inline) : Changes {.inline} s { s with inline } :=
  changes_one .inline rfl fun q hq ↦ by
    cases q <;> first
      | contradiction | exact rfl | exact le_rfl | trivial | exact fun _ _ _ _ h ↦ h
      | exact fun _ _ _ h ↦ h

theorem changes_pending {pending : Std.ExtTreeMap Token Pending}
    (h : .lensRequests ∈ F ∨ Keeps .lensRequests s { s with pending }) :
    Changes ({.pending} ∪ F) s { s with pending } :=
  changes_quiet rfl fun q hq ↦ by
    cases q
    case pending => exact absurd (Finset.mem_union_left F (Finset.mem_singleton_self _)) hq
    case lensRequests => exact h.resolve_left fun hF ↦ hq (Finset.mem_union_right _ hF)
    all_goals first | exact rfl | exact le_rfl | trivial | exact fun _ _ _ h ↦ h

/-- An answer is awaited no longer. -/
theorem changes_awaited (t : Token) : Changes {.pending} s { s with pending := s.pending.erase t } :=
  (changes_pending (F := ∅) (.inr fun t' key handle v hp ↦ by
    have hp' : (s.pending.erase t)[t']? = some (.codeLens key handle v) := hp
    rw [Std.ExtTreeMap.getElem?_erase] at hp'
    split at hp'
    · cases hp'
    · exact hp')).mono (by decide)

theorem changes_saves (saves) : Changes {.saves} s { s with saves } :=
  changes_one .saves rfl fun q hq ↦ by
    cases q <;> first
      | contradiction | exact rfl | exact le_rfl | trivial | exact fun _ _ _ _ h ↦ h
      | exact fun _ _ _ h ↦ h

/-- A token is taken. -/
theorem changes_nextToken : Changes ∅ s { s with nextToken := s.nextToken + 1 } :=
  changes_quiet rfl fun q _ ↦ by
    cases q <;> first
      | exact Nat.le_succ s.nextToken | exact rfl | trivial | exact fun _ _ _ _ h ↦ h
      | exact fun _ _ _ h ↦ h

theorem changes_push {e : Effect} (h : ∀ p ∈ e.part, p ∈ F) : Changes F s (s.push e) :=
  ⟨fun p _ ↦ by
      cases p <;> first
        | exact rfl | exact le_rfl | trivial | exact fun _ _ _ _ h ↦ h | exact fun _ _ _ h ↦ h,
    [e], rfl, fun _ he ↦ List.mem_singleton.1 he ▸ h⟩

theorem changes_ui (u : SessionUpdate) : Changes ∅ s (s.ui u) := changes_push nofun

theorem changes_respond (req : ℕ) (result) : Changes ∅ s (s.respond req result) :=
  changes_push nofun

theorem changes_rpc (h : ∀ p ∈ (Effect.rpc none c).part, p ∈ F) :
    Changes F s (s.rpc c) := changes_push h

theorem changes_delta (delta : DocumentsAndEditorsDelta) :
    Changes {.models} s (s.rpc (.acceptDocumentsAndEditorsDelta delta)) :=
  changes_rpc fun p hp ↦ by cases hp; decide

theorem changes_activate (event : String) : Changes ∅ s (s.rpc (.activateByEvent event)) :=
  changes_rpc nofun

theorem changes_readFile (purpose : ReadPurpose) :
    Changes {.reads} s (s.push (.readFile uri purpose)) :=
  changes_push fun p hp ↦ by cases hp; decide

theorem changes_watch : Changes ∅ s (s.push (.watch uri)) := changes_push nofun

theorem changes_unwatch : Changes ∅ s (s.push (.unwatch uri)) :=
  changes_push nofun

theorem changes_rpcs {cs : List Call} (h : ∀ c ∈ cs, ∀ p ∈ (Effect.rpc none c).part, p ∈ F) :
    Changes F s (s.rpcs cs) := Parts.Changes.foldl (fun _ c hc ↦ changes_rpc (h c hc)) s

theorem changes_rpcWith {p : Pending} (hpending : .pending ∈ F)
    (h : ∀ t, ∀ p ∈ (Effect.rpc (some t) c).part, p ∈ F)
    (hlens : .lensRequests ∈ F ∨ ∀ key handle v, p ≠ .codeLens key handle v) :
    Changes F s (s.rpcWith c p).1 := by
  have hawaits : Changes ({.pending} ∪ F) { s with nextToken := s.nextToken + 1 }
      { s with nextToken := s.nextToken + 1, pending := s.pending.insert (s.nextToken + 1) p } := by
    refine changes_pending (hlens.imp_right fun hne t key handle v hp ↦ ?_)
    have hp' : (s.pending.insert (s.nextToken + 1) p)[t]? = some (.codeLens key handle v) := hp
    rw [Std.ExtTreeMap.getElem?_insert] at hp'
    split at hp'
    · exact absurd (Option.some.inj hp') (hne key handle v)
    · exact hp'
  exact ((changes_nextToken.trans hawaits).mono (Finset.union_subset (Finset.empty_subset F)
    (Finset.union_subset (Finset.singleton_subset_iff.2 hpending) subset_rfl))).trans_same
    (changes_push (h _))

theorem changes_cancel (ts : List Token) : Changes {.pending} s (s.cancel ts) :=
  Parts.Changes.foldl (fun _ _ _ ↦
    (changes_awaited _).trans_same (changes_push fun _ hp ↦ by cases hp)) s

theorem changes_touch : Changes ∅ s (s.touch key) := changes_untracked rfl

theorem changes_setInline (st : InlineDoc) : Changes {.inline} s (s.setInline key st) :=
  changes_inline _

theorem changes_setDoc (doc : OpenDocument) : Changes {.docs} s (s.setDoc key doc) :=
  changes_docs _

theorem changes_scheduleCodelens (delay : Duration) :
    Changes ∅ s (s.scheduleCodelens key delay) := changes_untracked rfl

theorem changes_sendTabModel : Changes ∅ s s.sendTabModel := changes_rpc nofun

theorem changes_hover (hover) : Changes ∅ s { s with hover } := changes_untracked rfl

theorem changes_diagnostics (diagnostics) : Changes ∅ s { s with diagnostics } :=
  changes_untracked rfl

theorem changes_ids (ids) : Changes ∅ s { s with ids } := changes_untracked rfl

theorem changes_codelensInflight (codelensInflight) : Changes ∅ s { s with codelensInflight } :=
  changes_untracked rfl

theorem changes_codelensDue (codelensDue) : Changes ∅ s { s with codelensDue } :=
  changes_untracked rfl

theorem changes_active (active) : Changes ∅ s { s with active } := changes_untracked rfl

theorem changes_nextEditRequest (nextEditRequest) : Changes ∅ s { s with nextEditRequest } :=
  changes_untracked rfl

theorem changes_touched (touched) : Changes ∅ s { s with touched } := changes_untracked rfl

theorem changes_none : Changes F s s := (Parts.Changes.refl s).mono (Finset.empty_subset F)

theorem changes_contributed (cmd : CommandDto) : Changes {.pending} s
    (s.rpcWith (.executeContributedCommand cmd.id cmd.arguments) (.command cmd.id)).1 :=
  changes_rpcWith (by decide) nofun (.inr nofun)

/-! ### Hover, commands and ghosts -/

theorem changes_hideHover (shown : Option String) : Changes ∅ s (s.hideHover shown) := by
  rw [hideHover]
  split
  · exact changes_ui _
  · exact changes_none

theorem changes_endHover : Changes {.pending} s s.endHover :=
  (((changes_hover _).trans (changes_cancel _)).trans (changes_hideHover _)).mono (by decide)

theorem changes_endHoverFor : Changes {.pending} s (s.endHoverFor key).1 :=
  ((changes_hover _).trans (changes_cancel _)).mono (by decide)

theorem changes_runCommand (cmd : CommandDto) : Changes {.pending} s (s.runCommand cmd) := by
  rw [runCommand]
  split
  · exact changes_none
  · split <;> exact changes_rpcWith (by decide) nofun (.inr nofun)

/-- The calls that end a shown item free its list, and nothing else counts. -/
theorem part_endCalls {item : InlineItem} {reason : EndReason} (hc : c ∈ endCalls item reason)
    {p : Part} (hp : p ∈ (Effect.rpc none c).part) : p = .frees := by
  rw [endCalls, List.mem_append, List.mem_singleton] at hc
  rcases hc with hc | rfl
  · split at hc
    · obtain rfl := List.mem_singleton.1 hc
      cases hp
    · exact absurd hc List.not_mem_nil
  · cases hp
    rfl

theorem changes_endCalls (item : InlineItem) (reason : EndReason) :
    Changes {.frees} s (s.rpcs (endCalls item reason)) :=
  changes_rpcs fun _ hc _ hp ↦ Finset.mem_singleton.2 (part_endCalls hc hp)

theorem changes_endGhost (reason : EndReason) :
    Changes {.inline, .frees} s (s.endGhost key reason) := by
  rw [endGhost]
  split
  · exact changes_none
  · exact (((changes_setInline _ _).trans (changes_endCalls _ _)).trans (changes_touch _)).mono
      (by decide)

/-! ### Open, close and focus -/

theorem changes_onOpen : Changes {.opening, .reads} s (s.onOpen uri) := by
  simp only [onOpen]
  split
  · exact ((changes_ui _).trans (changes_touch _)).mono (by decide)
  · split
    · exact changes_none
    · exact ((changes_opening _).trans (changes_readFile _ _)).mono (by decide)

theorem changes_cancelCodelens (key : String) :
    Changes {.pending} s (s.cancelCodelens ord key) :=
  ((changes_codelensInflight _).trans (changes_cancel _)).mono (by decide)

theorem changes_closeInline :
    Changes {.inline, .pending, .frees} s (s.closeInline key) := by
  unfold closeInline
  split
  · exact changes_none
  · have hcancel (st : InlineDoc) : Changes {.inline, .pending}
        s (cancel { s with inline := s.inline.erase key } st.tokens) :=
      ((changes_inline _).trans (changes_cancel _)).mono (by decide)
    split
    · exact ((hcancel _).trans (changes_endCalls _ _)).mono (by decide)
    · exact (hcancel _).mono (by decide)

theorem changes_closeLenses : Changes {.lenses} s (s.closeLenses key) :=
  ((changes_lost _ (by rfl) fun _ _ _ ↦ CodeLenses.list_close).trans (changes_rpcs (F := ∅) fun c hc p hp ↦ by
    obtain ⟨q, -, rfl⟩ := List.mem_map.1 hc
    cases hp)).mono (by decide)

theorem changes_onFocus : Changes {.models} s (s.onFocus uri) := by
  simp only [onFocus]
  split
  · exact changes_none
  · exact (((changes_delta _).trans (changes_active _)).trans changes_sendTabModel).mono (by decide)

theorem changes_forgetDoc (key : String) :
    Changes {.lenses, .inline, .pending, .frees} s (s.forgetDoc ord key) := by
  have hactive (s : SessionCore) : Changes ∅ s (if s.active = some key then
      { s with active := (ord.docs s.docs.keys).head? } else s) := by
    split
    · exact changes_active _
    · exact changes_none
  exact ((((((changes_closeLenses key).trans (changes_codelensDue _)).trans
    (changes_cancelCodelens ord key)).trans (changes_closeInline key)).trans
    (changes_endHoverFor key)).trans (changes_ids _)).trans (hactive _) |>.mono (by decide)

/-! ### Inline completions -/

theorem changes_typeThrough (range : WidgetRange) (text : Text) :
    Changes {.inline, .frees} s (s.typeThrough key range text).1 := by
  have hset (s : SessionCore) (st : InlineDoc) : Changes {.inline, .frees} s (s.setInline key st) :=
    (changes_setInline key st).mono (by decide)
  have htouch (s : SessionCore) : Changes {.inline, .frees} s (s.touch key) :=
    (changes_touch key).mono (by decide)
  simp only [typeThrough]
  split
  · exact hset _ _
  · refine Parts.Changes.trans_same ?_ (htouch _)
    split
    · exact ((hset _ _).trans_same (hset _ _)).trans_same (changes_endGhost _ _)
    · exact (hset _ _).trans_same (hset _ _)

theorem changes_cancelInline : Changes {.inline, .pending} s (s.cancelInline key) :=
  ((changes_setInline _ _).trans (changes_cancel _)).mono (by decide)

theorem changes_askInline (uri : UriComponents) (pos : WidgetPos) (explicit : Bool)
    (handles : List (ℤ × ℕ)) :
    Changes {.inline, .pending, .asks} s (s.askInline key uri pos explicit handles) := by
  induction handles generalizing s with
  | nil => exact changes_none
  | cons h handles ih =>
    refine Parts.Changes.trans_same ?_ ih
    have hask : Changes {.pending, .asks} s (s.rpcWith
        (.provideInlineCompletions h.1 uri pos.toExthost explicit) (.inline key)).1 :=
      changes_rpcWith (by decide) (fun t p hp ↦ by cases hp; decide) (.inr nofun)
    split
    · exact (hask.trans (changes_setInline _ _)).mono (by decide)
    · exact hask.mono (by decide)

theorem changes_fireInline :
    Changes {.inline, .pending, .asks} s (s.fireInline key) := by
  unfold fireInline
  split
  · exact changes_none
  · have hset (st : InlineDoc) := changes_setInline (s := s) key st
    dsimp only
    split
    · exact (hset _).mono (by decide)
    · split
      · exact (hset _).mono (by decide)
      · exact ((((hset _).trans (changes_setInline _ _)).trans (changes_cancel _)).trans
          (changes_askInline _ _ _ _ _)).mono (by decide)

theorem changes_endCompleted : Changes {.inline, .frees} s (s.endCompleted key) := by
  simp only [endCompleted]
  split
  · exact ((changes_setInline _ _).trans (changes_endGhost _ _)).mono (by decide)
  · exact (changes_setInline _ _).mono (by decide)

theorem changes_scheduleInline : Changes {.inline} s (s.scheduleInline key) := by
  rw [scheduleInline]
  split
  · exact changes_setInline _ _
  · exact changes_none

theorem changes_inlineAfterChange (range : WidgetRange) (text : Text) :
    Changes {.inline, .pending, .frees} s (s.inlineAfterChange key range text) := by
  have hcancel := ((changes_endCompleted (s := s) key).trans (changes_typeThrough key range text)).trans
    (changes_cancelInline key)
  simp only [inlineAfterChange]
  split
  · exact hcancel.mono (by decide)
  · exact (hcancel.trans (changes_scheduleInline _)).mono (by decide)

theorem changes_freeLists (lists : List (ℤ × ℤ × String)) :
    Changes {.frees} s (s.freeLists lists) :=
  changes_rpcs fun c hc p hp ↦ by
    obtain ⟨f, -, rfl⟩ := List.mem_map.1 hc
    cases hp
    decide

theorem changes_didShow (item : InlineItem) : Changes ∅ s (s.rpcs (didShowCall item)) :=
  changes_rpcs fun c hc p hp ↦ by
    rw [didShowCall] at hc
    split at hc
    · obtain rfl := List.mem_singleton.1 hc
      cases hp
    · exact absurd hc List.not_mem_nil

theorem changes_showGhost (version : ℕ) (pos : WidgetPos) (item : InlineItem)
    (text : Text) : Changes {.inline} s (s.showGhost key version pos item text) :=
  ((((changes_ids _).trans (changes_didShow item)).trans (changes_setInline _ _)).trans
    (changes_touch _)).mono (by decide)

theorem changes_chooseGhost (version : ℕ) (pos : WidgetPos) (replies : List (ℤ × Value)) :
    Changes {.inline, .frees} s (s.chooseGhost key version pos replies) := by
  simp only [chooseGhost]
  split
  · exact changes_none
  · split
    · exact (changes_freeLists _).mono (by decide)
    · exact (((changes_freeLists _).trans (changes_endGhost _ _)).trans
        (changes_showGhost _ _ _ _ _)).mono (by decide)

theorem changes_onInlineReply (key : String) (result : Except String Value) :
    Changes {.inline, .pending, .frees} s (s.onInlineReply token key result) := by
  have hset (st : InlineDoc) : Changes {.inline, .pending, .frees} s (s.setInline key st) :=
    (changes_setInline key st).mono (by decide)
  simp only [onInlineReply]
  split
  · split
    · exact hset _
    · exact hset _
    · exact (((hset _).trans (changes_cancel _)).trans (changes_freeLists _)).mono (by decide)
    · exact ((hset _).trans (changes_chooseGhost _ _ _ _)).mono (by decide)
  · exact changes_none

theorem changes_editCode (baseVersion : ℕ) (range : WidgetRange)
    (text : Text) : Changes ∅ s (s.editCode uri baseVersion range text) :=
  ((changes_nextEditRequest _).trans (changes_ui _)).mono (by decide)

theorem changes_acceptGhost (decoration : ℕ) :
    Changes {.inline, .pending, .frees} s (s.acceptGhost key decoration) := by
  simp only [acceptGhost]
  split
  · rename_i g doc _ _
    split
    · exact changes_none
    · have hedit : Changes ∅ s (if (!g.completed && !g.text.isEmpty) = true then
          s.editCode doc.uri doc.widgetVersion (.empty g.pos) g.text else s) := by
        split
        · exact changes_editCode _ _ _ _
        · exact changes_none
      have hadd (s : SessionCore) : Changes ∅ s (g.item.additionalEdits.foldl
          (fun s e ↦ s.editCode doc.uri g.baseVersion e.1 e.2) s) :=
        Parts.Changes.foldl (fun s e _ ↦ changes_editCode _ _ _ _) s
      have hend := (hedit.trans (hadd _)).trans (changes_endGhost key .accepted)
      split
      · exact (hend.trans (changes_runCommand _)).mono (by decide)
      · exact hend.mono (by decide)
  · exact changes_none

/-! ### CodeLens and hover -/

theorem changes_askCodelens (uri : UriComponents) (version : ℕ) (handle : ℤ) :
    Changes {.pending, .lensRequests} s (s.askCodelens key uri version handle) := by
  have hask (s : SessionCore) : Changes {.pending, .lensRequests} s
      (s.rpcWith (.provideCodeLenses handle uri) (.codeLens key handle version)).1 :=
    changes_rpcWith (by decide) (fun _ _ hp ↦ by cases hp; decide) (.inl (by decide))
  simp only [askCodelens]
  cases ((s.codelensInflight[key]?).getD ∅)[handle]? with
  | some old =>
    have hold := (changes_codelensInflight _).trans (changes_cancel (s := { s with
      codelensInflight := s.codelensInflight.insert key
        (((s.codelensInflight[key]?).getD ∅).erase handle) }) [old])
    exact ((hold.trans (hask _)).trans (changes_codelensInflight _)).mono (by decide)
  | none => exact ((hask s).trans (changes_codelensInflight _)).mono (by decide)

theorem changes_fireCodelens :
    Changes {.pending, .lensRequests} s (s.fireCodelens key) := by
  simp only [fireCodelens]
  split
  · exact changes_none
  · exact Parts.Changes.foldl (fun s h _ ↦ changes_askCodelens _ _ _ _) s

theorem changes_answeredCodelens (key : String) (handle : ℤ) :
    Changes ∅ s (s.answeredCodelens token key handle) := by
  simp only [answeredCodelens]
  split
  · exact changes_codelensInflight _
  · exact changes_none

theorem changes_releaseLenses (handle : ℤ) (cacheId : Option ℤ) :
    Changes ∅ s (s.releaseLenses handle cacheId) := by
  unfold releaseLenses
  split
  · exact changes_rpc nofun
  · exact changes_none

theorem changes_resolveLenses (handle : ℤ) (serial : ℕ) (toResolve : List (ℕ × Value)) :
    Changes {.pending} s (s.resolveLenses key handle serial toResolve) :=
  Parts.Changes.foldl (fun _ _ _ ↦
    changes_rpcWith (by decide) (fun _ _ hp ↦ by cases hp) (.inr fun _ _ _ hp ↦ by cases hp)) s

theorem changes_onCodelensReply (key : String) (handle : ℤ) (version : ℕ)
    (result : Except String Value) :
    Changes {.lenses, .lensLists, .lensSerial, .pending} s (s.onCodelensReply token key handle version result) := by
  have hanswered := changes_answeredCodelens (s := s) token key handle
  simp only [onCodelensReply]
  split
  · exact hanswered.mono (by decide)
  · split
    · exact (hanswered.trans (changes_releaseLenses _ _)).mono (by decide)
    · exact ((((hanswered.trans (changes_stored _)).trans (changes_releaseLenses _ _)).trans
        (changes_resolveLenses _ _ _ _)).trans (changes_touch _)).mono (by decide)

theorem changes_askHover (uri : UriComponents) (pos : WidgetPos)
    (handles : List (ℤ × ℕ)) : Changes {.pending} s (s.askHover key uri pos handles) := by
  induction handles generalizing s with
  | nil => exact changes_none
  | cons h handles ih =>
    have hask : Changes {.pending} s (s.rpcWith (.provideHover h.1 uri pos.toExthost) (.hover key)).1 :=
      changes_rpcWith (by decide) nofun (.inr nofun)
    exact ((hask.trans (changes_hover _)).trans ih).mono (by decide)

theorem changes_onHoverRest (pos : WidgetPos) :
    Changes {.pending} s (s.onHoverRest key pos) := by
  simp only [onHoverRest]
  split
  · exact changes_none
  · have hask := fun hover tokens uri handles ↦ (((changes_hover (s := s) hover).trans
      (changes_cancel tokens)).trans (changes_askHover key uri pos handles)).mono
      (G := {.pending}) (by decide)
    split
    · exact (((hask _ _ _ _).trans (changes_hover _)).trans (changes_ui _)).mono (by decide)
    · exact hask _ _ _ _

/-! ### Widget events, saves and files -/

theorem changes_onTriggerInline (generation : ℕ) (pos : WidgetPos) :
    Changes {.docs, .inline} s (s.onTriggerInline uri generation pos) := by
  simp only [onTriggerInline]
  split
  · exact changes_none
  · split
    · exact changes_none
    · exact ((changes_setDoc _ _).trans (changes_setInline _ _)).mono (by decide)

theorem changes_onSave : Changes {.saves, .writes} s (s.onSave key) := by
  simp only [onSave]
  split
  · exact changes_none
  · exact ((changes_nextToken.trans (changes_saves _)).trans
      (changes_push (F := {.writes}) fun p hp ↦ by cases hp; decide)).mono (by decide)

theorem changes_onActivated (decoration : ℕ) :
    Changes {.inline, .pending, .frees} s (s.onActivated key decoration) := by
  rw [onActivated]
  split
  · split
    · exact (changes_runCommand _).mono (by decide)
    · exact changes_none
  · exact changes_acceptGhost _ _
  · exact changes_none

theorem changes_onFileChanged (c : FileChange) :
    Changes {.reads} s (s.onFileChanged ord c) := by
  simp only [onFileChanged]
  split
  · exact changes_none
  · split
    · exact (changes_ui _).mono (by decide)
    · exact changes_readFile _ _
    · exact changes_readFile _ _

theorem changes_onFilesChanged (changes : List FileChange) :
    Changes {.reads} s (s.onFilesChanged ord changes) :=
  Parts.Changes.foldl (fun _ c _ ↦ changes_onFileChanged ord c) s

/-- What follows a change of a document but for the lenses and the diagnostics it moves. -/
theorem changes_afterMove (key : String) (range : WidgetRange) (text : Text) :
    Changes {.inline, .pending, .frees} { s with
      diagnostics := s.diagnostics.onEdit key range text
      lenses := s.lenses.onEdit key range text } (s.afterChange key range text) := by
  have hhide (s : SessionCore) (shown : Option String) : Changes ∅ s
      (if shown.isSome then s.hideHover (some key) else s) := by
    split
    · exact changes_hideHover _
    · exact changes_none
  exact (((((changes_endHoverFor key).trans (hhide _ _)).trans
    (changes_inlineAfterChange _ _ _)).trans (changes_scheduleCodelens _ _)).trans
    (changes_touch _)).mono (by decide)

theorem changes_afterChange (range : WidgetRange) (text : Text) :
    Changes {.lenses, .lensLists, .inline, .pending, .frees} s (s.afterChange key range text) := by
  have hmoved : Changes {.lenses, .lensLists} s { s with
      diagnostics := s.diagnostics.onEdit key range text
      lenses := s.lenses.onEdit key range text } :=
    (changes_lenses _ (CodeLenses.serial_onEdit _ _ _ _)).trans_same
      ((changes_diagnostics _).mono (by decide))
  exact (hmoved.trans (changes_afterMove key range text)).mono (by decide)

theorem changes_resetViews (doc : OpenDocument) :
    Changes {.lenses, .inline, .pending, .frees} s (s.resetViews key doc) := by
  have hcancel (s : SessionCore) : Changes {.inline, .pending} s
      (if key ∈ s.inline then s.cancelInline key else s) := by
    split
    · exact changes_cancelInline _
    · exact changes_none
  have hhide (s : SessionCore) (shown : Option String) : Changes ∅ s
      (if shown.isSome then s.ui (.hoverHidden doc.uri) else s) := by
    split
    · exact changes_ui _
    · exact changes_none
  exact ((((((((((changes_closeLenses _).trans (hcancel _)).trans (changes_endGhost _ _)).trans
    (changes_endHoverFor _)).trans (hhide _ _)).trans (changes_ids _)).trans (changes_ui _)).trans
    changes_sendTabModel).trans (changes_scheduleCodelens _ _)).trans (changes_touch _)).mono
      (by decide)

/-! ### Extension-host requests and replies -/

theorem changes_onTryOpenDocument (r : IncomingRequest) :
    Changes {.reads} s (s.onTryOpenDocument r) := by
  rw [onTryOpenDocument]
  split
  · exact (changes_respond _ _).mono (by decide)
  · split
    · exact (changes_respond _ _).mono (by decide)
    · exact changes_readFile _ _

theorem changes_dropGhost (handle : ℤ) (key : String) :
    Changes {.inline} s (s.dropGhost handle key) := by
  rw [dropGhost]
  split
  · split
    · exact ((changes_setInline _ _).trans (changes_touch _)).mono (by decide)
    · exact changes_none
  · exact changes_none

theorem changes_dropGhosts (handle : ℤ) (keys : List String) :
    Changes {.inline} s (s.dropGhosts handle keys) :=
  Parts.Changes.foldl (fun _ key _ ↦ changes_dropGhost handle key) s

theorem changes_onRegistryChange (change : RegistryChange) :
    Changes {.lenses, .inline} s (s.onRegistryChange change) := by
  have hschedule : Changes {.lenses, .inline} s
      (s.docs.keys.foldl (fun s k ↦ s.scheduleCodelens k s.opts.codelensDebounce) s) :=
    Parts.Changes.foldl (fun _ _ _ ↦ (changes_scheduleCodelens _ _).mono (by decide)) s
  have htouch (keys : List String) (s : SessionCore) : Changes ∅ s (keys.foldl touch s) :=
    Parts.Changes.foldl (fun _ _ _ ↦ changes_touch _) s
  simp only [onRegistryChange]
  split
  · exact hschedule
  · exact hschedule
  · exact ((changes_lost _ (by rfl) fun _ _ _ ↦ CodeLenses.list_removeProvider).trans
      (htouch _ _)).mono (by decide)
  · exact (changes_dropGhosts _ _).mono (by decide)
  · split
    · split
      · exact changes_none
      · exact (changes_scheduleInline _).mono (by decide)
    · exact changes_none
  · exact changes_none

/-! ### Timers and decorations -/

theorem changes_runInlineTimers :
    Changes {.inline, .pending, .asks} s (s.runInlineTimers ord) :=
  ((changes_inline _).trans
    (Parts.Changes.foldl (fun _ key _ ↦ changes_fireInline key) _)).mono (by decide)

theorem changes_runCodelensTimers :
    Changes {.pending, .lensRequests} s (s.runCodelensTimers ord) :=
  ((changes_codelensDue _).trans
    (Parts.Changes.foldl (fun _ key _ ↦ changes_fireCodelens key) _)).mono (by decide)

/-- Drawing enters ids; it changes no part. -/
theorem changes_flushDocument : Changes ∅ s (s.flushDocument key) := by
  simp only [flushDocument]
  split
  · exact changes_none
  · refine Parts.Changes.trans_same ?_ (changes_ui _)
    exact changes_untracked rfl

theorem changes_flushDecorations : Changes ∅ s s.flushDecorations :=
  (changes_touched ∅).trans_same (Parts.Changes.foldl (fun _ key _ ↦ changes_flushDocument key) _)

/-! ### Handlers that change documents -/

theorem changes_takeOver :
    Changes {.exthostOnly, .models} s (s.takeOver key).1 := by
  rw [takeOver]
  split
  · exact ((changes_exthostOnly _).trans (changes_delta _)).mono (by decide)
  · exact changes_none

/-- Adding a document is what its calls are about. -/
theorem changes_addCalls : Changes {.models} s (s.rpcs doc.addCalls) :=
  changes_rpcs fun c hc p hp ↦ by
    rcases List.mem_cons.1 hc with rfl | hc
    · cases hp
    · obtain rfl := List.mem_singleton.1 hc
      cases hp
      decide

/-- **What announcing a document does**: its calls, the document with the open ones, and what counts
editors. -/
theorem changes_announce (uri : UriComponents) (text : Text) (bom : Bool) (extVersion : ℕ) :
    ∃ doc, doc = (openedDoc { s with
        nextGeneration := s.nextGeneration + 1, nextEditor := s.nextEditor + 1 }
        uri text bom extVersion).1 ∧
      Changes ∅ (setDoc (rpcs { s with nextEditor := s.nextEditor + 1 } doc.addCalls) uri.key doc)
        (s.announce uri text bom extVersion) := by
  refine ⟨_, rfl, ?_⟩
  have hgeneration (r : SessionCore) (n : ℕ) : Changes ∅ r { r with nextGeneration := n } :=
    changes_untracked rfl
  exact ((((((hgeneration _ (s.nextGeneration + 1)).trans_same (changes_ui _)).trans_same
    (changes_active _)).trans_same (changes_watch _)).trans_same
    changes_sendTabModel).trans_same (changes_scheduleCodelens _ _)).trans_same (changes_touch _)

theorem changes_editors (nextEditor) : Changes {.editors} s { s with nextEditor } :=
  changes_one .editors rfl fun q hq ↦ by
    cases q <;> first
      | contradiction | exact rfl | exact le_rfl | trivial | exact fun _ _ _ _ h ↦ h
      | exact fun _ _ _ h ↦ h

/-- **What opening a file does**: a file that does not decode is only reported; for another the
document is taken from the extension host if it has it, and announced. -/
theorem finishOpen_cases (s : SessionCore) (uri : UriComponents) (bytes : ByteArray) :
    (∃ err, decode bytes = .error err ∧ Changes ∅ s (s.finishOpen uri bytes)) ∨
    ∃ text bom r extVersion doc, decode bytes = .ok (text, bom) ∧ s.takeOver uri.key = (r, extVersion) ∧
      doc = (openedDoc { r with
        nextGeneration := r.nextGeneration + 1, nextEditor := r.nextEditor + 1 }
        uri text bom extVersion).1 ∧
      Changes ∅ (setDoc (rpcs { r with nextEditor := r.nextEditor + 1 } doc.addCalls) uri.key doc)
        (s.finishOpen uri bytes) := by
  simp only [finishOpen]
  split
  · exact .inl ⟨_, ‹_›, changes_ui _⟩
  · rename_i text bom hdecode
    obtain ⟨doc, hdoc, h⟩ := changes_announce (s := (s.takeOver uri.key).1) uri text bom
      (s.takeOver uri.key).2
    exact .inr ⟨text, bom, _, _, doc, hdecode, rfl, hdoc, h⟩

theorem changes_finishOpen (bytes : ByteArray) :
    Changes {.docs, .editors, .exthostOnly, .models} s (s.finishOpen uri bytes) := by
  rcases s.finishOpen_cases uri bytes with ⟨err, -, h⟩ | ⟨text, bom, r, v, doc, -, hr, -, h⟩
  · exact h.mono (by decide)
  · have htake := changes_takeOver (s := s) uri.key
    rw [hr] at htake
    exact ((((htake.trans (changes_editors _)).trans (changes_addCalls _)).trans
      (changes_setDoc _ _)).trans h).mono (by decide)

theorem changes_finishExthostOpen (req : ℕ) (result : Except String ByteArray) :
    Changes {.exthostOnly, .models} s (s.finishExthostOpen uri req result) := by
  simp only [finishExthostOpen]
  split
  · exact (changes_respond _ _).mono (by decide)
  · split
    · exact (changes_respond _ _).mono (by decide)
    · exact ((((changes_activate _).trans (changes_delta _)).trans
        (changes_exthostOnly _)).trans (changes_respond _ _)).mono (by decide)

theorem changes_resetCalls (text : Text) (bom : Bool) (generation : ℕ) :
    Changes {.models} s (s.rpcs (doc.reset text bom generation).2) :=
  ((changes_delta _).trans (changes_addCalls _)).mono (by decide)

theorem changes_savedCalls (extVersion : ℕ) (bytes : ByteArray) :
    Changes {.models} s (s.rpcs (doc.saved extVersion bytes).2) :=
  changes_rpcs fun c hc p hp ↦ by
    simp only [OpenDocument.saved] at hc
    split at hc
    · obtain rfl := List.mem_singleton.1 hc
      cases hp
      decide
    · rcases List.mem_cons.1 hc with rfl | hc
      · cases hp
        decide
      · obtain rfl := List.mem_singleton.1 hc
        cases hp
        decide

/-- **What the end of a save does**: a save nobody waits for is ignored; another is over, and if it
succeeded and its document is open, the document learns of it and the extension host is told. -/
theorem onFileWritten_cases (s : SessionCore) (uri : UriComponents) (token : Token)
    (result : Except String Unit) :
    (s.saves[token]? = none ∧ s.onFileWritten uri token result = s) ∨
    ∃ key extVersion bytes, s.saves[token]? = some (key, extVersion, bytes) ∧
      ((result.isOk = false ∨ s.docs[key]? = none) ∧
          Changes ∅ { s with saves := s.saves.erase token } (s.onFileWritten uri token result) ∨
        ∃ doc, result.isOk = true ∧ s.docs[key]? = some doc ∧
          Changes ∅ (rpcs (setDoc { s with saves := s.saves.erase token } key
              (doc.saved extVersion bytes).1) (doc.saved extVersion bytes).2)
            (s.onFileWritten uri token result)) := by
  simp only [onFileWritten]
  split
  · exact .inl ⟨‹_›, rfl⟩
  · rename_i key extVersion bytes hsaves
    refine .inr ⟨key, extVersion, bytes, hsaves, ?_⟩
    split
    · exact .inl ⟨.inl rfl, changes_ui _⟩
    · split
      · exact .inl ⟨.inr ‹_›, changes_none⟩
      · rename_i doc hdoc
        exact .inr ⟨doc, rfl, hdoc, ((changes_ui _).trans_same (changes_ui _)).trans_same
          changes_sendTabModel⟩

theorem changes_onFileWritten (token : Token) (result : Except String Unit) :
    Changes {.docs, .saves, .models} s (s.onFileWritten uri token result) := by
  rcases s.onFileWritten_cases uri token result with
    ⟨-, h⟩ | ⟨key, v, bytes, -, ⟨-, h⟩ | ⟨doc, -, -, h⟩⟩
  · rw [h]
    exact changes_none
  · exact ((changes_saves _).trans h).mono (by decide)
  · exact ((((changes_saves _).trans (changes_setDoc _ _)).trans (changes_savedCalls _ _ _)).trans
      h).mono (by decide)

/-- **What a widget's change does**: nothing, or a report that it does not fit, or what
`afterChange` does to a core that holds the changed document and reported it. -/
theorem onCodeChanged_cases (s : SessionCore) (key : String) (version : ℕ) (range : WidgetRange)
    (text : Text) :
    (s.docs[key]? = none ∧ s.onCodeChanged key version range text = s) ∨
    (∃ doc, s.docs[key]? = some doc ∧ (doc.applyWidgetChange version range text).2.isOk = false ∧
      Changes ∅ (s.setDoc key doc) (s.onCodeChanged key version range text)) ∨
    ∃ doc doc' call r, s.docs[key]? = some doc ∧
      doc.applyWidgetChange version range text = (doc', .ok call) ∧
      Changes ∅ ((s.setDoc key doc').rpc call) r ∧
      s.onCodeChanged key version range text = r.afterChange key range text := by
  simp only [onCodeChanged]
  split
  · exact .inl ⟨‹_›, rfl⟩
  · rename_i doc hdoc
    right
    split
    · rename_i e he
      left
      rcases doc.applyWidgetChange_cases version range text with ⟨err, h⟩ | ⟨m, c, -, -, -, h⟩
      · refine ⟨doc, hdoc, by rw [h]; rfl, ?_⟩
        rw [h]
        exact changes_ui _
      · rw [h] at he
        cases he
    · rename_i call hcall
      refine .inr ⟨doc, _, call, _, hdoc, Prod.ext rfl hcall, ?_, rfl⟩
      split
      · exact (changes_ui _).trans_same changes_sendTabModel
      · exact changes_none

/-- A change that fits is reported to the extension host. -/
theorem changes_widgetCall {doc doc' : OpenDocument} {version : ℕ} {range : WidgetRange} {text : Text}
    {call : Call} (h : doc.applyWidgetChange version range text = (doc', .ok call)) :
    Changes {.models} s (s.rpc call) := by
  rcases doc.applyWidgetChange_cases version range text with ⟨err, h'⟩ | ⟨m, c, -, -, -, h'⟩
  · rw [h'] at h
    cases h
  · obtain ⟨-, heq⟩ := Prod.mk.inj (h'.symm.trans h)
    obtain rfl := Except.ok.inj heq
    exact changes_rpc fun p hp ↦ by cases hp; decide

theorem changes_onCodeChanged (version : ℕ) (range : WidgetRange) (text : Text) :
    Changes {.docs, .models, .lenses, .lensLists, .inline, .pending, .frees} s
      (s.onCodeChanged key version range text) := by
  rcases onCodeChanged_cases s key version range text with
    ⟨-, h⟩ | ⟨doc, -, -, h⟩ | ⟨doc, doc', call, r, -, happly, hr, h⟩
  · rw [h]
    exact changes_none
  · exact ((changes_setDoc _ _).trans h).mono (by decide)
  · rw [h]
    exact ((((changes_setDoc _ _).trans (changes_widgetCall happly)).trans hr).trans
      (changes_afterChange _ _ _)).mono (by decide)

theorem changes_nextGeneration (nextGeneration) : Changes ∅ s { s with nextGeneration } :=
  changes_untracked rfl

theorem changes_resetDoc (text : Text) (bom : Option Bool) :
    Changes {.docs, .models, .lenses, .inline, .pending, .frees} s (s.resetDoc key text bom) := by
  simp only [resetDoc]
  split
  · exact (changes_nextGeneration _).mono (by decide)
  · exact ((((changes_nextGeneration _).trans (changes_setDoc _ _)).trans
      (changes_resetCalls _ _ _ _)).trans (changes_resetViews _ _)).mono (by decide)

/-- A document that is reset is put back. -/
theorem docs_resetDoc {key : String} {doc : OpenDocument} (text : Text) (bom : Option Bool)
    (hdoc : s.docs[key]? = some doc) :
    ∃ doc', (s.resetDoc key text bom).docs = s.docs.insert key doc' := by
  simp only [resetDoc, hdoc]
  exact ⟨_, ((changes_resetCalls _ _ _ _).trans (changes_resetViews _ _)).keep .docs (by decide)⟩

theorem changes_onReload (result : Except String ByteArray) :
    Changes {.docs, .models, .lenses, .inline, .pending, .frees} s (s.onReload uri result) := by
  simp only [onReload]
  split
  · split
    · exact changes_none
    · split
      · exact changes_none
      · split
        · exact (changes_ui _).mono (by decide)
        · exact changes_resetDoc _ _ _
  · exact changes_none

theorem changes_onFileRead (purpose : ReadPurpose) (result : Except String ByteArray) :
    Changes {.docs, .editors, .exthostOnly, .opening, .models, .lenses, .inline, .pending, .frees} s
      (s.onFileRead uri purpose result) := by
  cases purpose with
  | open_ =>
    simp only [onFileRead]
    split
    · exact ((changes_opening _).trans (changes_finishOpen _ _)).mono (by decide)
    · exact ((changes_opening _).trans (changes_ui _)).mono (by decide)
  | reload => exact (changes_onReload _ _).mono (by decide)
  | extHostOpen req => exact (changes_finishExthostOpen _ _ _).mono (by decide)

theorem changes_onClose (uri : UriComponents) :
    Changes {.docs, .models, .lenses, .inline, .pending, .frees} s (s.onClose ord uri) := by
  simp only [onClose]
  split
  · exact changes_none
  · exact ((((((changes_docs _).trans (changes_delta _)).trans (changes_unwatch _)).trans
      (changes_forgetDoc _ _)).trans changes_sendTabModel).trans (changes_ui _)).mono (by decide)

theorem changes_onExthostRequest (r : IncomingRequest) :
    Changes {.registry, .lenses, .inline, .reads} s (s.onExthostRequest r) := by
  have hseq : Changes ∅ s { s with replySeq := s.replySeq + 1 } := changes_untracked rfl
  have htouch (keys : List String) (s : SessionCore) : Changes ∅ s (keys.foldl touch s) :=
    Parts.Changes.foldl (fun _ _ _ ↦ changes_touch _) s
  simp only [onExthostRequest]
  split
  · exact (((hseq.trans (changes_diagnostics _)).trans (htouch _ _)).trans
      (changes_respond _ _)).mono (by decide)
  · exact (((hseq.trans (changes_diagnostics _)).trans (htouch _ _)).trans
      (changes_respond _ _)).mono (by decide)
  · split
    · exact ((hseq.trans (changes_ui _)).trans (changes_respond _ _)).mono (by decide)
    · exact (hseq.trans (changes_respond _ _)).mono (by decide)
  · split
    · exact (hseq.trans (changes_onTryOpenDocument _)).mono (by decide)
    · exact (hseq.trans (changes_respond _ _)).mono (by decide)
  · exact (((hseq.trans (changes_registry _)).trans (changes_onRegistryChange _)).trans
      (changes_respond _ _)).mono (by decide)
  · exact (hseq.trans (changes_respond _ _)).mono (by decide)

theorem changes_onRpcReply (result : Except String Value) :
    Changes {.lenses, .lensLists, .lensSerial, .inline, .pending, .frees} s
      (s.onRpcReply token result) := by
  have herase := changes_awaited (s := s) token
  simp only [onRpcReply]
  split
  · exact changes_none
  · split
    · exact (herase.trans (changes_onCodelensReply _ _ _ _ _)).mono (by decide)
    · split
      · exact herase.mono (by decide)
      · split
        · exact ((herase.trans (changes_lenses _ (CodeLenses.serial_resolved _ _ _ _ _ _))).trans
            (changes_touch _)).mono (by decide)
        · exact (herase.trans (changes_lenses _ (CodeLenses.serial_resolved _ _ _ _ _ _))).mono
            (by decide)
    · split
      · exact herase.mono (by decide)
      · split
        · exact ((herase.trans (changes_hover _)).trans (changes_ui _)).mono (by decide)
        · exact (herase.trans (changes_hover _)).mono (by decide)
    · exact (herase.trans (changes_onInlineReply _ _ _)).mono (by decide)
    · split
      · exact (herase.trans (changes_contributed _)).mono (by decide)
      · exact (herase.trans (changes_ui _)).mono (by decide)
    · exact herase.mono (by decide)

theorem changes_runTimers :
    Changes {.inline, .pending, .asks, .lensRequests} s (s.runTimers ord) :=
  ((changes_runInlineTimers ord).trans (changes_runCodelensTimers ord)).mono (by decide)

end SessionCore

end Ember.Editor
