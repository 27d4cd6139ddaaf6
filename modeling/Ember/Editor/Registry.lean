import Ember.EditorConn.ExtHost
import Mathlib.Data.List.Sort
import Std.Data.ExtTreeMap.Lemmas
import Std.Data.ExtTreeSet.Lemmas

/-!
# Providers and commands the extension host registered

Document selectors and the registry of providers they belong to. A handle names one provider; a
registration under a handle in use replaces it.
-/

namespace Ember.Editor

open EditorConn

/-! ### Selectors -/

/-- Whether a character is in a class `[...]`, its brackets and negation taken off. -/
def classHit (c : Char) : Text → Bool
  | a :: '-' :: b :: cs => decide (a ≤ c ∧ c ≤ b) || classHit c cs
  | a :: cs => a == c || classHit c cs
  | [] => false

/-- `match_from`: a glob without braces against a path. -/
def matchFrom (p s : Text) : Bool :=
  match p with
  | [] => s.isEmpty
  | '*' :: '*' :: '/' :: rest => s.tails.any fun t ↦ matchFrom rest t
  | '*' :: '*' :: rest => s.tails.any fun t ↦ matchFrom rest t
  | '*' :: rest =>
    -- as many characters of one path segment as it takes
    (List.range ((s.takeWhile (· ≠ '/')).length + 1)).any fun i ↦ matchFrom rest (s.drop i)
  | '?' :: rest =>
    match s with
    | c :: cs => c != '/' && matchFrom rest cs
    | [] => false
  | '[' :: rest =>
    match s with
    | [] => false
    | c :: cs =>
      if ']' ∈ rest then
        let inside := rest.takeWhile (· ≠ ']')
        let negate := inside.head? == some '!' || inside.head? == some '^'
        let inside := if negate then inside.tail else inside
        c != '/' && (classHit c inside != negate) &&
          matchFrom (rest.drop ((rest.takeWhile (· ≠ ']')).length + 1)) cs
      else c == '[' && matchFrom rest cs
  | a :: rest =>
    match s with
    | c :: cs => c == a && matchFrom rest cs
    | [] => false
  termination_by p.length

/-- `expand_braces`: the alternatives of a glob. -/
def expandBraces (p : Text) : List Text :=
  match _h : p.dropWhile (· ≠ '{') with
  | [] => [p]
  | _ :: rest =>
    match _h' : rest.dropWhile (· ≠ '}') with
    | [] => [p]
    | _ :: tail =>
      let head := p.takeWhile (· ≠ '{')
      let body := rest.takeWhile (· ≠ '}')
      (body.splitOn ',').flatMap fun alt ↦ (expandBraces tail).map fun r ↦ head ++ alt ++ r
  termination_by p.length
  decreasing_by
    have hp := (List.dropWhile_sublist (fun c : Char ↦ decide (c ≠ '\x7b')) (l := p)).length_le
    have hrest := (List.dropWhile_sublist (fun c : Char ↦ decide (c ≠ '\x7d')) (l := rest)).length_le
    simp_all
    omega

/-- `glob_match`. -/
def globMatch (pattern path : Text) : Bool := (expandBraces pattern).any fun p ↦ matchFrom p path

/-- `relative_match`: `path` under `base`, and the rest of it matching. -/
def relativeMatch (base pattern path : Text) : Bool :=
  let base := (base.reverse.dropWhile (· = '/')).reverse
  if base.isPrefixOf path then
    match path.drop base.length with
    | '/' :: rest => globMatch pattern rest
    | _ => false
  else false

/-- Whether a filter's pattern takes a path. -/
def patternMatches (pattern : Value) (path : String) : Bool :=
  match pattern with
  | .str p => p == path || globMatch p.toList path.toList
  | .obj fields =>
    let o := Value.obj fields
    let base := ((((o.get "baseUri").bind (·.get "path")).bind (·.asStr)).orElse fun _ ↦
      (o.get "base").bind (·.asStr)).getD ""
    let pat := ((o.get "pattern").bind (·.asStr)).getD ""
    relativeMatch base.toList pat.toList path.toList
  | _ => false

/-- `score_filter`. -/
def scoreFilter (f : DocumentFilter) (uri : UriComponents) (language : String) : ℕ :=
  let scheme := match f.scheme with
    | none => some 0
    | some s => if s = uri.scheme then some 10 else if s = "*" then some 5 else none
  let lang := scheme.bind fun ret ↦ match f.language with
    | none => some ret
    | some l => if l = language then some 10 else if l = "*" then some (max ret 5) else none
  match lang with
  | none => 0
  | some ret =>
    if f.notebookType.isSome then 0
    else
      match f.pattern with
      | none => ret
      | some pattern => if patternMatches pattern uri.path then 10 else 0

/-- `score`: the highest score over the filters. -/
def score (selector : List DocumentFilter) (uri : UriComponents) (language : String) : ℕ :=
  selector.foldl (fun best f ↦ max best (scoreFilter f uri language)) 0

/-! ### Providers -/

/-- `InlineMeta`. -/
structure InlineMeta where
  supportsHandleEvents : Bool
  extensionId : String
  yieldsTo : List String
  debounceMs : Option ℕ
  excludes : List String
  deriving DecidableEq, Repr

/-- `InlineMeta::from_raw`. -/
def InlineMeta.fromRaw (raw : List Value) : InlineMeta :=
  let strs (v : Option Value) : List String :=
    ((v.bind (·.asArray)).getD []).filterMap (·.asStr)
  { supportsHandleEvents := (raw[2]?.bind (·.asBool)).getD false
    extensionId := (raw[3]?.bind (·.asStr)).getD ""
    yieldsTo := strs raw[6]?
    debounceMs := raw[8]?.bind (·.asU64)
    excludes := strs raw[9]? }

/-- `KindTag`: which kind of provider. -/
inductive KindTag
  | hover
  | codeLens
  | inlineCompletions
  deriving DecidableEq, Repr

/-- `ProviderKind`. -/
inductive ProviderKind
  | hover
  | codeLens (eventHandle : Option ℤ)
  | inlineCompletions (info : InlineMeta)
  deriving DecidableEq, Repr

/-- `ProviderKind::tag`. -/
def ProviderKind.tag : ProviderKind → KindTag
  | .hover => .hover
  | .codeLens _ => .codeLens
  | .inlineCompletions _ => .inlineCompletions

/-- `Provider`. -/
structure Provider where
  handle : ℤ
  selector : List DocumentFilter
  kind : ProviderKind
  /-- Registration order: later is preferred among equal scores. -/
  seq : ℕ

/-- `RegistryChange`: what a call changed. -/
inductive RegistryChange
  | registered (handle : ℤ) (kind : KindTag)
  | unregistered (handle : ℤ) (kind : KindTag)
  | codeLensChanged (handle : ℤ)
  | inlineCompletionsChanged (handle : ℤ)
  | commandsChanged
  | none
  deriving DecidableEq, Repr

/-- `Registry`. -/
structure Registry where
  providers : Std.ExtTreeMap ℤ Provider
  eventHandles : Std.ExtTreeMap ℤ ℤ
  commands : Std.ExtTreeSet String
  seq : ℕ

namespace Registry

/-- `Registry::new`. -/
def new : Registry := ⟨∅, ∅, ∅, 0⟩

/-- `Registry::insert`. -/
def insert (r : Registry) (handle : ℤ) (selector : List DocumentFilter) (kind : ProviderKind) :
    Registry × RegistryChange :=
  let seq := r.seq + 1
  let eventHandles := match kind with
    | .codeLens (some e) => r.eventHandles.insert e handle
    | _ => r.eventHandles
  ({ r with seq, eventHandles, providers := r.providers.insert handle ⟨handle, selector, kind, seq⟩ },
    .registered handle kind.tag)

/-- `Registry::apply` of `$unregister`: an event handle only drops its mapping. -/
def unregister (r : Registry) (handle : ℤ) : Registry × RegistryChange :=
  if handle ∈ r.eventHandles then ({ r with eventHandles := r.eventHandles.erase handle }, .none)
  else
    match r.providers[handle]? with
    | some p =>
      let eventHandles := match p.kind with
        | .codeLens (some e) => r.eventHandles.erase e
        | _ => r.eventHandles
      ({ r with providers := r.providers.erase handle, eventHandles }, .unregistered handle p.kind.tag)
    | none => (r, .none)

/-- `Registry::apply`. -/
def apply (r : Registry) : MainThreadCall → Registry × RegistryChange
  | .registerHoverProvider handle selector => r.insert handle selector .hover
  | .registerCodeLensSupport handle selector eventHandle =>
    r.insert handle selector (.codeLens eventHandle)
  | .registerInlineCompletionsSupport handle selector _ raw =>
    r.insert handle selector (.inlineCompletions (.fromRaw raw))
  | .emitCodeLensEvent eventHandle =>
    (r, match r.eventHandles[eventHandle]? with
      | some handle => .codeLensChanged handle
      | none => .none)
  | .emitInlineCompletionsChange handle =>
    (r, if handle ∈ r.providers then .inlineCompletionsChanged handle else .none)
  | .unregister handle => r.unregister handle
  | .registerCommand id => ({ r with commands := r.commands.insert id }, .commandsChanged)
  | .unregisterCommand id => ({ r with commands := r.commands.erase id }, .commandsChanged)
  | _ => (r, .none)

/-- `Registry::get`. -/
def get (r : Registry) (handle : ℤ) : Option Provider := r.providers[handle]?

/-- `Registry::has_command`. -/
def hasCommand (r : Registry) (id : String) : Bool := r.commands.contains id

/-- `Registry::matching`: best first, by score, then newest. -/
def matching (r : Registry) (kind : KindTag) (uri : UriComponents) (language : String) :
    List Provider :=
  let scored := ((r.providers.toList.map Prod.snd).filter fun p ↦ p.kind.tag == kind).map
    fun p ↦ (score p.selector uri language, p)
  ((scored.filter fun sp ↦ decide (sp.1 > 0)).insertionSort fun a b ↦
    a.1 > b.1 ∨ (a.1 = b.1 ∧ a.2.seq ≥ b.2.seq)).map Prod.snd

end Registry

end Ember.Editor
