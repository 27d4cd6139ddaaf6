import Ember.Editor.Diagnostics
import Ember.Editor.Inline

/-!
# Hover

One hover at a time: the diagnostics under the pointer, then the contents of the providers in
provider order as their replies come in.
-/

namespace Ember.Editor

open EditorConn

/-- `MarkdownString`. -/
structure MarkdownString where
  value : String
  isTrusted : Bool
  supportThemeIcons : Bool
  supportHtml : Bool
  raw : Value

/-- `MarkdownString::from_json`: a plain string is accepted too. -/
def MarkdownString.fromJson (v : Value) : Option MarkdownString :=
  let truthy (k : String) : Bool := match v.get k with
    | some (.bool b) => b
    | some (.obj _) => true
    | _ => false
  match v.asStr with
  | some s => some ⟨s, false, false, false, v⟩
  | none => ((v.get "value").bind (·.asStr)).map fun value ↦
      ⟨value, truthy "isTrusted", truthy "supportThemeIcons", truthy "supportHtml", v⟩

/-- `HoverPopup`: what the UI draws. -/
structure HoverPopup where
  doc : String
  generation : ℕ
  pos : WidgetPos
  range : Option WidgetRange
  diagnostics : List HoverDiagnostic
  contents : List MarkdownString
  /-- No provider request is outstanding. -/
  complete : Bool

/-- `Active`: the hover under way. -/
structure ActiveHover where
  doc : String
  generation : ℕ
  version : ℕ
  pos : WidgetPos
  diagnostics : List HoverDiagnostic
  /-- Calls not answered yet, with their provider order. -/
  pending : List (Token × ℕ)
  /-- Provider order and reply. -/
  results : List (ℕ × Option WidgetRange × List MarkdownString)
  shown : Bool

/-- `HoverState`. -/
structure HoverState where
  active : Option ActiveHover

namespace HoverState

/-- `HoverState::new`. -/
def new : HoverState := ⟨none⟩

/-- `HoverState::cancel_tokens`. -/
def cancelTokens (h : HoverState) : List Token :=
  match h.active with
  | some a => a.pending.map Prod.fst
  | none => []

/-- `HoverState::begin`: start a hover. Answers with the tokens of the one before it. -/
def begin (h : HoverState) (doc : String) (generation version : ℕ) (pos : WidgetPos)
    (diagnostics : List HoverDiagnostic) : HoverState × List Token :=
  (⟨some ⟨doc, generation, version, pos, diagnostics, [], [], false⟩⟩, h.cancelTokens)

/-- `HoverState::add_pending`. -/
def addPending (h : HoverState) (token : Token) (order : ℕ) : HoverState :=
  ⟨h.active.map fun a ↦ { a with pending := a.pending ++ [(token, order)] }⟩

/-- `HoverState::popup`: the popup as it stands, if there is anything to show. -/
def popup (h : HoverState) : Option HoverPopup :=
  h.active.bind fun a ↦
    let results := a.results.insertionSort fun p q ↦ p.1 ≤ q.1
    let contents := results.flatMap fun r ↦ r.2.2
    if contents.isEmpty && a.diagnostics.isEmpty then none
    else some ⟨a.doc, a.generation, a.pos, results.findSome? fun r ↦ r.2.1, a.diagnostics, contents,
      a.pending.isEmpty⟩

/-- The contents of a reply that say something. -/
def contentsOf (reply : Value) : List MarkdownString :=
  ((((reply.get "contents").bind (·.asArray)).getD []).filterMap MarkdownString.fromJson).filter
    fun m ↦ trim m.value != ""

/-- `HoverState::reply`: an answer to the call `token`; an error says nothing. -/
def reply (h : HoverState) (token : Token) (currentVersion : ℕ) (reply : Option Value) :
    HoverState × Option HoverPopup :=
  match h.active with
  | none => (h, none)
  | some a =>
    match a.pending.find? fun p ↦ p.1 == token with
    | none => (h, none)
    | some (_, order) =>
      let a := { a with pending := a.pending.eraseP fun p ↦ p.1 == token }
      if a.version ≠ currentVersion then (⟨some a⟩, none)
      else
        let contents := (reply.map contentsOf).getD []
        let range := (reply.bind fun v ↦ (v.get "range").bind Range.ofJson).map .fromExthost
        let a := if contents.isEmpty then a
          else { a with results := a.results ++ [(order, range, contents)] }
        let popup := HoverState.popup ⟨some a⟩
        (⟨some { a with shown := a.shown || popup.isSome }⟩, popup)

/-- `HoverState::initial`: the popup right after the hover started, if there is anything to show. -/
def initial (h : HoverState) : HoverState × Option HoverPopup :=
  match h.popup with
  | none => (h, none)
  | some p => (⟨h.active.map fun a ↦ { a with shown := true }⟩, some p)

/-- `HoverState::end`: the tokens to cancel, and the document of a popup that was visible. -/
def end_ (h : HoverState) : HoverState × List Token × Option String :=
  (⟨none⟩, h.cancelTokens, (h.active.filter (·.shown)).map (·.doc))

/-- `HoverState::end_for`: end the hover only if it is on `doc`. -/
def endFor (h : HoverState) (doc : String) : HoverState × List Token × Option String :=
  if h.active.any (·.doc == doc) then h.end_ else (h, [], none)

end HoverState

end Ember.Editor
