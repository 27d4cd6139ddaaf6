import Ember.Editor.LensRuns
import Ember.Editor.Diagnostics
import Ember.Foundation.Ordinals
import Std.Data.String.ToInt

/-!
# Decoration ids over runs

The bridges ask for an id for each thing they show, by a text that says what it is; a number behind
it tells those apart that have the same text. The ids come from one counter.

**Key theorem** (`ids_of_run`): as long as the counter has not gone around, the ids in each list
  that a bridge computes are distinct and not 0, and an id belongs to one key for good, also when
  its document is forgotten.
-/

namespace Ember.Editor

open EditorConn Ordinals

/-! ### Asking -/

namespace DecorationIds

/-- The ids for some keys of a document, one after the other. -/
def askAll (ids : DecorationIds) (space : IdSpace) (doc : String) :
    List String → List ℕ × DecorationIds
  | [] => ([], ids)
  | key :: keys =>
    let (id, ids) := ids.id space doc key
    let (rest, ids) := ids.askAll space doc keys
    (id :: rest, ids)

/-- What holds of the ids handed out: each has a number of the counter, and belongs to one key. -/
structure Sound (ids : DecorationIds) (handed : List (IdKey × ℕ)) : Prop where
  known : ∀ p ∈ ids.byKey, p ∈ handed
  number : ∀ p ∈ handed, ∃ n, 0 < n ∧ n ≤ ids.next ∧ p.2 = p.1.space.toNat * 2 ^ 56 + n
  one : ∀ p ∈ handed, ∀ q ∈ handed, p.2 = q.2 → p.1 = q.1

variable {ids : DecorationIds} {handed : List (IdKey × ℕ)} {space : IdSpace} {doc key : String}

/-- A key that has an id gets it again, and another one the next number. -/
theorem id_cases (ids : DecorationIds) (space : IdSpace) (doc key : String) :
    (∃ n, (⟨space, doc, key⟩, n) ∈ ids.byKey ∧ ids.id space doc key = (n, ids)) ∨
      let n := space.toNat * 2 ^ 56 + (ids.next + 1) % 2 ^ 56
      ids.id space doc key = (n, ⟨ids.next + 1, (⟨space, doc, key⟩, n) :: ids.byKey⟩) := by
  cases hlookup : ids.byKey.lookup ⟨space, doc, key⟩ with
  | some n =>
    obtain ⟨front, back, hbyKey, -⟩ := List.lookup_eq_some_iff.1 hlookup
    exact .inl ⟨n, by simp [hbyKey], by simp [id, hlookup]⟩
  | none => exact .inr (by simp [id, hlookup])

theorem next_le_id (ids : DecorationIds) (space : IdSpace) (doc key : String) :
    ids.next ≤ (ids.id space doc key).2.next := by
  rcases ids.id_cases space doc key with ⟨n, -, hid⟩ | hid <;> rw [hid]
  exact Nat.le_succ _

theorem next_le_askAll (ids : DecorationIds) (space : IdSpace) (doc : String) (keys : List String) :
    ids.next ≤ (ids.askAll space doc keys).2.next := by
  induction keys generalizing ids with
  | nil => exact le_rfl
  | cons key keys ih => exact (next_le_id ids space doc key).trans (ih _)

/-- An id that was handed out before is handed out again, or the counter goes on. -/
theorem Sound.id (h : Sound ids handed) (hlt : (ids.id space doc key).2.next < 2 ^ 56) :
    Sound (ids.id space doc key).2 (handed ++ [(⟨space, doc, key⟩, (ids.id space doc key).1)]) := by
  rcases ids.id_cases space doc key with ⟨n, hmem, hid⟩ | hid <;> rw [hid] at hlt ⊢
  · have hsub : ∀ p ∈ handed ++ [(⟨space, doc, key⟩, n)], p ∈ handed := fun p hp ↦
      (List.mem_append.1 hp).elim (fun hp ↦ hp) fun hp ↦ List.mem_singleton.1 hp ▸ h.known _ hmem
    exact ⟨fun p hp ↦ List.mem_append_left _ (h.known p hp), fun p hp ↦ h.number p (hsub p hp),
      fun p hp q hq ↦ h.one p (hsub p hp) q (hsub q hq)⟩
  · rw [Nat.mod_eq_of_lt hlt]
    -- The new number is above those of the ids before.
    have hnew : ∀ p ∈ handed, p.2 ≠ space.toNat * 2 ^ 56 + (ids.next + 1) := fun p hp heq ↦ by
      obtain ⟨n, -, hle, hid⟩ := h.number p hp
      have hlt' : ids.next + 1 < 2 ^ 56 := hlt
      omega
    refine ⟨fun p hp ↦ ?_, fun p hp ↦ ?_, fun p hp q hq heq ↦ ?_⟩
    · rcases List.mem_cons.1 hp with rfl | hp
      · exact List.mem_append_right _ List.mem_cons_self
      · exact List.mem_append_left _ (h.known p hp)
    · rcases List.mem_append.1 hp with hp | hp
      · obtain ⟨n, hpos, hle, hid⟩ := h.number p hp
        exact ⟨n, hpos, hle.trans (Nat.le_succ _), hid⟩
      · obtain rfl := List.mem_singleton.1 hp
        exact ⟨ids.next + 1, Nat.succ_pos _, le_rfl, rfl⟩
    · rcases List.mem_append.1 hp with hp | hp <;> rcases List.mem_append.1 hq with hq | hq
      · exact h.one p hp q hq heq
      · obtain rfl := List.mem_singleton.1 hq
        exact absurd heq (hnew p hp)
      · obtain rfl := List.mem_singleton.1 hp
        exact absurd heq.symm (hnew q hq)
      · rw [List.mem_singleton.1 hp, List.mem_singleton.1 hq]

theorem Sound.askAll (h : Sound ids handed) {keys : List String}
    (hlt : (ids.askAll space doc keys).2.next < 2 ^ 56) :
    Sound (ids.askAll space doc keys).2
      (handed ++ (keys.map (IdKey.mk space doc)).zip (ids.askAll space doc keys).1) := by
  induction keys generalizing ids handed with
  | nil => simpa [DecorationIds.askAll] using h
  | cons key keys ih =>
    have hfirst := h.id ((next_le_askAll _ space doc keys).trans_lt hlt)
    have hrest := ih hfirst hlt
    rw [List.append_assoc] at hrest
    exact hrest

theorem Sound.filter (h : Sound ids handed) (p : IdKey × ℕ → Bool) :
    Sound { ids with byKey := ids.byKey.filter p } handed where
  known := fun q hq ↦ h.known q (List.mem_of_mem_filter hq)
  number := h.number
  one := h.one

/-- Each id was handed out for one of the keys. -/
theorem mem_zip_askAll {keys : List String} {id : ℕ} (h : id ∈ (ids.askAll space doc keys).1) :
    ∃ key ∈ keys, (⟨space, doc, key⟩, id) ∈
      (keys.map (IdKey.mk space doc)).zip (ids.askAll space doc keys).1 := by
  induction keys generalizing ids with
  | nil => exact absurd h List.not_mem_nil
  | cons key keys ih =>
    rcases List.mem_cons.1 h with rfl | h
    · exact ⟨key, List.mem_cons_self, List.mem_cons_self⟩
    · obtain ⟨key', hkey', hmem⟩ := ih h
      exact ⟨key', List.mem_cons_of_mem _ hkey', List.mem_cons_of_mem _ hmem⟩

theorem Sound.ne_zero (h : Sound ids handed) {p : IdKey × ℕ} (hp : p ∈ handed) : p.2 ≠ 0 := by
  obtain ⟨n, hpos, -, hid⟩ := h.number p hp
  omega

/-- **Distinct keys get distinct ids.** -/
theorem Sound.nodup_askAll (h : Sound ids handed) {keys : List String} (hkeys : keys.Nodup)
    (hlt : (ids.askAll space doc keys).2.next < 2 ^ 56) :
    (ids.askAll space doc keys).1.Nodup := by
  induction keys generalizing ids handed with
  | nil => exact List.nodup_nil
  | cons key keys ih =>
    obtain ⟨hkey, hkeys⟩ := List.nodup_cons.1 hkeys
    have hfirst := h.id ((next_le_askAll _ space doc keys).trans_lt hlt)
    refine List.nodup_cons.2 ⟨fun hmem ↦ hkey ?_, ih hfirst hkeys hlt⟩
    obtain ⟨key', hkey', hzip⟩ := mem_zip_askAll hmem
    have hone := (h.askAll hlt).one _ (List.mem_append_right _ (List.mem_cons_of_mem _ hzip)) _
      (List.mem_append_right _ List.mem_cons_self) rfl
    exact (IdKey.mk.inj hone).2.2 ▸ hkey'

end DecorationIds

/-! ### What the bridges ask for -/

/-- The text of a diagnostic, which its key starts with. -/
def TrackedMarker.base (owner : String) (t : TrackedMarker) : String :=
  owner ++ "|" ++ toString t.marker.severity ++ "|" ++ t.marker.source.getD "" ++ "|" ++
    t.marker.code.getD "" ++ "|" ++ t.marker.message

/-- A text and its number. -/
def numbered (p : String × ℕ) : String := p.1 ++ "|" ++ toString p.2

/-- The keys that `Diagnostics::decorations` asks for. -/
def Diagnostics.keys (d : Diagnostics) (doc : String) : List String :=
  (ordinals [] ((d.markers doc).map fun p ↦ p.2.base p.1)).map numbered

/-- The keys that `CodeLenses::decorations` asks for. -/
def CodeLenses.keys (l : CodeLenses) (doc : String) : List String :=
  (l.drawn doc).map fun e ↦ e.2.1.key

/-- What a number is written with has no separator. -/
theorem not_mem_toString (n : ℕ) : '|' ∉ (toString n).toList := fun h ↦ by
  have hdigit := Nat.isDigit_of_mem_toDigits (by decide) le_rfl (Nat.toList_repr (n := n) ▸ h)
  exact absurd hdigit (by decide)

/-- A number behind the last separator can be read back, whatever stands before it. -/
theorem append_number_inj {s s' : String} {n n' : ℕ}
    (h : s ++ "|" ++ toString n = s' ++ "|" ++ toString n') : s = s' ∧ n = n' := by
  have hlist := congrArg String.toList h
  simp only [String.toList_append, List.append_assoc] at hlist
  obtain ⟨hs, hn⟩ := append_cons_inj (not_mem_toString n) (not_mem_toString n') hlist
  exact ⟨String.toList_inj.1 hs, Nat.repr_injective (String.toList_inj.1 hn)⟩

theorem numbered_injective : Function.Injective numbered := fun _ _ h ↦
  Prod.ext (append_number_inj h).1 (append_number_inj h).2

theorem Diagnostics.nodup_keys (d : Diagnostics) (doc : String) : (d.keys doc).Nodup :=
  (nodup_ordinals [] _).map numbered_injective

/-- One diagnostic is drawn. -/
def Diagnostics.drawOne (doc : String) (version : ℕ) (lines : List Text)
    (acc : List String × DecorationIds × List Decoration) (p : String × TrackedMarker) :
    List String × DecorationIds × List Decoration :=
  let (seen, ids, out) := acc
  let base := p.2.base p.1
  let (id, ids) := ids.id .diagnostic doc (numbered (base, seen.count base))
  (base :: seen, ids, out ++ [⟨id, version, .underline, some (.fromMarker p.2.marker.severity),
    widen lines (clampRange lines p.2.range), []⟩])

/-- **What is drawn** one after the other, each under an id it asks for: the ids that are retained
are those asked for, and so are those of what is sorted. -/
theorem asked_of_draws {α τ : Type} {space : IdSpace} {doc : String}
    (draw : τ × DecorationIds × List Decoration → α → τ × DecorationIds × List Decoration)
    (keys : τ → List α → List String) (hnil : ∀ t, keys t [] = [])
    (hdraw : ∀ t ids out a as, ∃ key t' d, keys t (a :: as) = key :: keys t' as ∧
      draw (t, ids, out) a = (t', (ids.id space doc key).2, out ++ [d]) ∧
      d.id = (ids.id space doc key).1) (t : τ) (as : List α) (ids : DecorationIds) :
    let drawn := as.foldl draw (t, ids, [])
    let asked := ids.askAll space doc (keys t as)
    drawn.2.1.retain space doc (drawn.2.2.map (·.id)) = asked.2.retain space doc asked.1 ∧
      ((sortDecorations drawn.2.2).map (·.id)).Perm asked.1 := by
  have hall (out : List Decoration) : let drawn := as.foldl draw (t, ids, out)
      drawn.2.1 = (ids.askAll space doc (keys t as)).2 ∧
        drawn.2.2.map (·.id) = out.map (·.id) ++ (ids.askAll space doc (keys t as)).1 := by
    induction as generalizing t ids out with
    | nil =>
      rw [hnil]
      exact ⟨rfl, (List.append_nil _).symm⟩
    | cons a as ih =>
      obtain ⟨key, t', d, hkeys, hstep, hid⟩ := hdraw t ids out a as
      obtain ⟨hids, hout⟩ := ih t' (ids.id space doc key).2 (out ++ [d])
      rw [List.foldl_cons, hstep, hkeys]
      refine ⟨hids, hout.trans ?_⟩
      rw [List.map_append, List.append_assoc, List.map_singleton, hid]
      rfl
  obtain ⟨hids, hout⟩ := hall []
  exact ⟨congrArg₂ (DecorationIds.retain · space doc ·) hids hout,
    ((List.perm_insertionSort _ _).map _).trans (.of_eq hout)⟩

theorem Diagnostics.decorations_spec (d : Diagnostics) (doc : String) (version : ℕ)
    (lines : List Text) (ids : DecorationIds) :
    let asked := ids.askAll .diagnostic doc (d.keys doc)
    (d.decorations doc version lines ids).1 = asked.2.retain .diagnostic doc asked.1 ∧
      ((d.decorations doc version lines ids).2.map (·.id)).Perm asked.1 :=
  asked_of_draws (drawOne doc version lines)
    (fun seen ms ↦
      (ordinals seen (ms.map fun p : String × TrackedMarker ↦ p.2.base p.1)).map numbered)
    (fun _ ↦ rfl) (fun _ _ _ _ _ ↦ ⟨_, _, _, rfl, rfl, rfl⟩) [] (d.markers doc) ids

theorem CodeLenses.decorations_spec (l : CodeLenses) (doc : String) (version : ℕ)
    (lines : List Text) (ids : DecorationIds) :
    let asked := ids.askAll .codeLens doc (l.keys doc)
    (l.decorations doc version lines ids).2.1 = asked.2.retain .codeLens doc asked.1 ∧
      ((l.decorations doc version lines ids).2.2.map (·.id)).Perm asked.1 :=
  asked_of_draws (drawOne doc version lines)
    (fun _ es ↦ es.map fun e : ℤ × Lens × CommandDto × ℕ ↦ e.2.1.key) (fun _ ↦ rfl)
    (fun _ _ _ _ _ ↦ ⟨_, _, _, rfl, rfl, rfl⟩) (l.byId.filter fun _ entry ↦ entry.1 != doc)
    (l.drawn doc) ids

/-! ### The keys of lenses -/

/-- A provider, a line, and the number on that line. -/
def lensKey (handle : ℤ) (p : ℕ × ℕ) : String :=
  toString handle ++ "|" ++ toString p.1 ++ "|" ++ toString p.2

theorem lensKey_inj {handle handle' : ℤ} {p p' : ℕ × ℕ}
    (h : lensKey handle p = lensKey handle' p') : handle = handle' ∧ p = p' := by
  obtain ⟨hfirst, hn⟩ := append_number_inj h
  obtain ⟨hhandle, hline⟩ := append_number_inj hfirst
  exact ⟨Int.repr_injective hhandle, Prod.ext hline hn⟩

namespace CodeLenses

/-- The keys of a reply are numbered on each line. -/
theorem keys_lensesOf (handle : ℤ) (reply : Value) :
    (lensesOf handle reply).map (·.key) =
      (ordinals [] ((lensesOf handle reply).map (·.range.start.line))).map (lensKey handle) := by
  unfold lensesOf
  generalize ((reply.get "lenses").bind (·.asArray)).getD [] = dtos
  induction dtos using List.reverseRecOn with
  | nil => rfl
  | append_singleton dtos dto ih =>
    rw [List.foldl_concat]
    generalize dtos.foldl _ [] = lenses at ih ⊢
    split
    · exact ih
    next range _ =>
      rw [List.map_append, List.map_append, ih, List.map_singleton, List.map_singleton,
        ordinals_concat, List.map_append]
      have hcount (line : ℕ) : (lenses.filter fun l ↦ l.range.start.line == line).length =
          (lenses.map (·.range.start.line)).count line := by
        rw [List.count_eq_countP, List.countP_map, List.countP_eq_length_filter]
        rfl
      simp only [hcount, List.count_nil, Nat.zero_add, List.map_singleton]
      rfl

/-- The keys of a list are of its provider, and distinct. -/
structure Keyed (handle : ℤ) (list : LensList) : Prop where
  own : ∀ key ∈ list.lenses.map (·.key), ∃ p, key = lensKey handle p
  nodup : (list.lenses.map (·.key)).Nodup

/-- Every stored list is. -/
def AllKeyed (l : CodeLenses) : Prop :=
  ∀ doc handle list, l.list doc handle = some list → Keyed handle list

variable {l : CodeLenses}

theorem Keyed.of_eq {handle : ℤ} {list list' : LensList} (h : Keyed handle list)
    (heq : list'.lenses.map (·.key) = list.lenses.map (·.key)) : Keyed handle list' :=
  ⟨heq ▸ h.own, heq ▸ h.nodup⟩

theorem AllKeyed.setList (h : l.AllKeyed) (doc : String) (handle : ℤ) (reply : Value) (cap : ℕ) :
    (l.setList doc handle reply cap).1.AllKeyed := by
  intro doc' handle' list hlist
  rw [list_setList] at hlist
  split at hlist
  case isTrue heq =>
    obtain rfl := heq.2
    obtain rfl := Option.some.inj hlist
    refine ⟨?_, ?_⟩ <;> rw [keys_lensesOf]
    · intro key hkey
      obtain ⟨p, -, rfl⟩ := List.mem_map.1 hkey
      exact ⟨p, rfl⟩
    · exact (nodup_ordinals [] _).map fun _ _ heq ↦ (lensKey_inj heq).2
  case isFalse => exact h doc' handle' list hlist

theorem AllKeyed.resolved (h : l.AllKeyed) (doc : String) (handle : ℤ) (serial index : ℕ)
    (reply : Value) : (l.resolved doc handle serial index reply).1.AllKeyed := by
  intro doc' handle' list' hlist'
  rcases list_resolved hlist' with
    hsame | ⟨⟨rfl, rfl⟩, list, lens, command, hlist, -, hlens, -, rfl⟩
  · exact h doc' handle' list' hsame
  · refine (h doc handle list hlist).of_eq (List.ext_getElem? fun i ↦ ?_)
    rw [List.getElem?_map, List.getElem?_map, List.getElem?_set]
    split
    case isTrue heq =>
      subst heq
      obtain ⟨hlt, rfl⟩ := List.getElem?_eq_some_iff.1 hlens
      simp [hlt]
    case isFalse => rfl

theorem AllKeyed.onEdit (h : l.AllKeyed) (doc : String) (edit : WidgetRange) (text : Text) :
    (l.onEdit doc edit text).AllKeyed := by
  intro doc' handle list' hlist'
  rcases list_onEdit hlist' with ⟨-, hsame⟩ | ⟨rfl, list, hlist, rfl⟩
  · exact h doc' handle list' hsame
  · refine (h doc handle list hlist).of_eq ?_
    rw [List.map_map]
    refine List.map_congr_left fun lens _ ↦ ?_
    show (lens.moved edit text).key = lens.key
    unfold Lens.moved
    split <;> rfl

theorem AllKeyed.removeProvider (h : l.AllKeyed) (handle : ℤ) :
    (l.removeProvider handle).AllKeyed :=
  fun doc' handle' list hlist ↦ h doc' handle' list (list_removeProvider hlist)

theorem AllKeyed.close (h : l.AllKeyed) (doc : String) : (l.close doc).1.AllKeyed :=
  fun doc' handle list hlist ↦ h doc' handle list (list_close hlist)

/-- What is drawn of a list has some of its keys. -/
theorem sublist_keys (handle : ℤ) (lenses : List (Lens × ℕ)) :
    ((lenses.filterMap fun q ↦ q.1.command.bind fun cmd ↦
      if cmd.title = "" then none else some (handle, q.1, cmd, q.2)).map (·.2.1.key)).Sublist
        (lenses.map (·.1.key)) := by
  induction lenses with
  | nil => exact .slnil
  | cons q lenses ih =>
    rw [List.filterMap_cons, List.map_cons]
    split
    · exact ih.cons _
    next hdrawn =>
      obtain ⟨cmd, -, hcmd⟩ := Option.bind_eq_some_iff.1 hdrawn
      split at hcmd
      · cases hcmd
      · obtain rfl := Option.some.inj hcmd
        exact ih.cons₂ _

theorem AllKeyed.nodup_keys (h : l.AllKeyed) (doc : String) : (l.keys doc).Nodup := by
  have hkeyed : ∀ p ∈ ((l.byDoc[doc]?).getD ∅).toList, Keyed p.1 p.2 := fun p hp ↦ by
    refine h doc p.1 p.2 ?_
    cases hlists : l.byDoc[doc]? with
    | none =>
      rw [hlists, Option.getD_none, Std.ExtTreeMap.toList_eq_nil_iff.2 rfl] at hp
      exact absurd hp List.not_mem_nil
    | some lists =>
      rw [hlists, Option.getD_some] at hp
      rw [CodeLenses.list, hlists]
      exact Std.ExtTreeMap.mem_toList_iff_getElem?_eq_some.1 hp
  have hsub (p : ℤ × LensList) := sublist_keys p.1 p.2.lenses.zipIdx
  have hfst (p : ℤ × LensList) : p.2.lenses.zipIdx.map (·.1.key) = p.2.lenses.map (·.key) := by
    conv_rhs => rw [← List.zipIdx_map_fst 0 p.2.lenses, List.map_map]
    rfl
  rw [keys, drawn, List.map_flatMap]
  refine List.nodup_flatMap.2 ⟨fun p hp ↦ ?_, ?_⟩
  · exact (hfst p ▸ (hkeyed p hp).nodup).sublist (hsub p)
  · -- Keys of different providers differ in the provider.
    refine (Std.ExtTreeMap.distinct_keys_toList ..).imp_of_mem fun hp hq hne ↦ ?_
    refine List.disjoint_left.2 fun key hkey hkey' ↦ hne ?_
    obtain ⟨n, hn⟩ := (hkeyed _ hp).own key (hfst _ ▸ (hsub _).subset hkey)
    obtain ⟨n', hn'⟩ := (hkeyed _ hq).own key (hfst _ ▸ (hsub _).subset hkey')
    exact Std.LawfulEqCmp.compare_eq_iff_eq.2 (lensKey_inj (hn.symm.trans hn')).1

end CodeLenses

/-! ### Runs -/

/-- The ids and the bridges that ask for them. The last two fields record what happened and are read
by nothing. -/
structure Bridges where
  ids : DecorationIds
  diagnostics : Diagnostics
  lenses : CodeLenses
  /-- The ids that were handed out, each with what it was asked for by. -/
  handed : List (IdKey × ℕ)
  /-- The lists of decorations that a bridge computed. -/
  computed : List (List Decoration)

namespace Bridges

/-- Nothing is shown. -/
def new : Bridges := ⟨.new, .new, .new, [], []⟩

/-- The operations on the ids and on the bridges. Ghost texts ask for their ids directly. -/
inductive Op
  | id (space : IdSpace) (doc key : String)
  | forgetDocument (doc : String)
  | retain (space : IdSpace) (doc : String) (live : List ℕ)
  | changeMany (owner : String) (entries : List (UriComponents × Option (List MarkerData)))
  | clear (owner : String)
  | editDiagnostics (doc : String) (edit : WidgetRange) (text : Text)
  | diagnostics (doc : String) (version : ℕ) (lines : List Text)
  | setList (doc : String) (handle : ℤ) (reply : Value) (resolveCap : ℕ)
  | resolved (doc : String) (handle : ℤ) (serial index : ℕ) (reply : Value)
  | editLenses (doc : String) (edit : WidgetRange) (text : Text)
  | lenses (doc : String) (version : ℕ) (lines : List Text)
  | removeProvider (handle : ℤ)
  | close (doc : String)

/-- What was handed out for some keys. -/
def asked (s : Bridges) (space : IdSpace) (doc : String) (keys : List String) :
    List (IdKey × ℕ) :=
  s.handed ++ (keys.map (IdKey.mk space doc)).zip (s.ids.askAll space doc keys).1

/-- One operation. -/
def step (s : Bridges) : Op → Bridges
  | .id space doc key =>
    { s with ids := (s.ids.id space doc key).2, handed := s.asked space doc [key] }
  | .forgetDocument doc => { s with ids := s.ids.forgetDocument doc }
  | .retain space doc live => { s with ids := s.ids.retain space doc live }
  | .changeMany owner entries =>
    { s with diagnostics := (s.diagnostics.changeMany owner entries).1 }
  | .clear owner => { s with diagnostics := (s.diagnostics.clear owner).1 }
  | .editDiagnostics doc edit text =>
    { s with diagnostics := s.diagnostics.onEdit doc edit text }
  | .diagnostics doc version lines =>
    let (ids, ds) := s.diagnostics.decorations doc version lines s.ids
    { s with
      ids
      handed := s.asked .diagnostic doc (s.diagnostics.keys doc)
      computed := s.computed ++ [ds] }
  | .setList doc handle reply cap => { s with lenses := (s.lenses.setList doc handle reply cap).1 }
  | .resolved doc handle serial index reply =>
    { s with lenses := (s.lenses.resolved doc handle serial index reply).1 }
  | .editLenses doc edit text => { s with lenses := s.lenses.onEdit doc edit text }
  | .lenses doc version lines =>
    let (lenses, ids, ds) := s.lenses.decorations doc version lines s.ids
    { s with
      ids
      lenses
      handed := s.asked .codeLens doc (s.lenses.keys doc)
      computed := s.computed ++ [ds] }
  | .removeProvider handle => { s with lenses := s.lenses.removeProvider handle }
  | .close doc => { s with lenses := (s.lenses.close doc).1 }

/-- Some operations from the start. -/
def run (ops : List Op) : Bridges := ops.foldl step new

/-- What holds between operations. -/
structure Inv (s : Bridges) : Prop where
  sound : s.ids.Sound s.handed
  keyed : s.lenses.AllKeyed
  distinct : ∀ ds ∈ s.computed, (∀ d ∈ ds, ∃ p ∈ s.handed, p.2 = d.id) ∧ (ds.map (·.id)).Nodup

theorem inv_new : new.Inv where
  sound := ⟨fun _ h ↦ absurd h List.not_mem_nil, fun _ h ↦ absurd h List.not_mem_nil,
    fun _ h ↦ absurd h List.not_mem_nil⟩
  keyed := fun doc handle list h ↦ by simp [new, CodeLenses.new, CodeLenses.list] at h
  distinct := fun _ h ↦ absurd h List.not_mem_nil

theorem next_le_step (s : Bridges) (op : Op) : s.ids.next ≤ (s.step op).ids.next := by
  cases op with
  | id space doc key => exact DecorationIds.next_le_id ..
  | diagnostics doc version lines =>
    show _ ≤ (s.diagnostics.decorations doc version lines s.ids).1.next
    rw [(s.diagnostics.decorations_spec doc version lines s.ids).1]
    exact DecorationIds.next_le_askAll ..
  | lenses doc version lines =>
    show _ ≤ (s.lenses.decorations doc version lines s.ids).2.1.next
    rw [(s.lenses.decorations_spec doc version lines s.ids).1]
    exact DecorationIds.next_le_askAll ..
  | _ => exact le_rfl

/-- A list is computed from ids that are asked for. -/
theorem Inv.compute {s : Bridges} (h : s.Inv) {space : IdSpace} {doc : String} {keys : List String}
    (hkeys : keys.Nodup) (hlt : (s.ids.askAll space doc keys).2.next < 2 ^ 56)
    {ds : List Decoration} (hds : (ds.map (·.id)).Perm (s.ids.askAll space doc keys).1) :
    ∀ ds' ∈ s.computed ++ [ds],
      (∀ d ∈ ds', ∃ p ∈ s.asked space doc keys, p.2 = d.id) ∧ (ds'.map (·.id)).Nodup := by
  intro ds' hds'
  rcases List.mem_append.1 hds' with hds' | hds'
  · obtain ⟨hids, hnodup⟩ := h.distinct ds' hds'
    refine ⟨fun d hd ↦ ?_, hnodup⟩
    obtain ⟨p, hp, hid⟩ := hids d hd
    exact ⟨p, List.mem_append_left _ hp, hid⟩
  · obtain rfl := List.mem_singleton.1 hds'
    refine ⟨fun d hd ↦ ?_, hds.nodup_iff.2 (h.sound.nodup_askAll hkeys hlt)⟩
    obtain ⟨key, -, hmem⟩ := DecorationIds.mem_zip_askAll
      (hds.subset (List.mem_map_of_mem (f := (·.id)) hd))
    exact ⟨_, List.mem_append_right _ hmem, rfl⟩

theorem Inv.step {s : Bridges} (h : s.Inv) (op : Op) (hlt : (s.step op).ids.next < 2 ^ 56) :
    (s.step op).Inv := by
  cases op with
  | id space doc key =>
    exact ⟨h.sound.id hlt, h.keyed, fun ds hds ↦ ⟨fun d hd ↦ by
      obtain ⟨p, hp, hid⟩ := (h.distinct ds hds).1 d hd
      exact ⟨p, List.mem_append_left _ hp, hid⟩, (h.distinct ds hds).2⟩⟩
  | forgetDocument | retain => exact ⟨h.sound.filter _, h.keyed, h.distinct⟩
  | changeMany | clear | editDiagnostics => exact ⟨h.sound, h.keyed, h.distinct⟩
  | diagnostics doc version lines =>
    obtain ⟨hids, hds⟩ := s.diagnostics.decorations_spec doc version lines s.ids
    have hlt' : (s.ids.askAll .diagnostic doc (s.diagnostics.keys doc)).2.next < 2 ^ 56 := by
      have hnext : (s.diagnostics.decorations doc version lines s.ids).1.next < 2 ^ 56 := hlt
      rwa [hids] at hnext
    refine ⟨?_, h.keyed, h.compute (s.diagnostics.nodup_keys doc) hlt' hds⟩
    show (s.diagnostics.decorations doc version lines s.ids).1.Sound _
    rw [hids]
    exact (h.sound.askAll hlt').filter _
  | setList doc handle reply cap =>
    exact ⟨h.sound, h.keyed.setList doc handle reply cap, h.distinct⟩
  | resolved doc handle serial index reply =>
    exact ⟨h.sound, h.keyed.resolved doc handle serial index reply, h.distinct⟩
  | editLenses doc edit text => exact ⟨h.sound, h.keyed.onEdit doc edit text, h.distinct⟩
  | lenses doc version lines =>
    obtain ⟨hids, hds⟩ := s.lenses.decorations_spec doc version lines s.ids
    have hlt' : (s.ids.askAll .codeLens doc (s.lenses.keys doc)).2.next < 2 ^ 56 := by
      have hnext : (s.lenses.decorations doc version lines s.ids).2.1.next < 2 ^ 56 := hlt
      rwa [hids] at hnext
    refine ⟨?_, h.keyed, h.compute (h.keyed.nodup_keys doc) hlt' hds⟩
    show (s.lenses.decorations doc version lines s.ids).2.1.Sound _
    rw [hids]
    exact (h.sound.askAll hlt').filter _
  | removeProvider handle => exact ⟨h.sound, h.keyed.removeProvider _, h.distinct⟩
  | close doc => exact ⟨h.sound, h.keyed.close _, h.distinct⟩

theorem inv_run (ops : List Op) (hlt : (run ops).ids.next < 2 ^ 56) : (run ops).Inv := by
  induction ops using List.reverseRecOn with
  | nil => exact inv_new
  | append_singleton ops op ih =>
    rw [run, List.foldl_concat] at hlt ⊢
    exact (ih ((next_le_step _ op).trans_lt hlt)).step op hlt

/-- **Ids are distinct and not 0**, and each belongs to one key for good. -/
theorem ids_of_run (ops : List Op) (hlt : (run ops).ids.next < 2 ^ 56) :
    (∀ ds ∈ (run ops).computed, (∀ d ∈ ds, d.id ≠ 0 ∧ ∃ p ∈ (run ops).handed, p.2 = d.id) ∧
      (ds.map (·.id)).Nodup) ∧
    ∀ p ∈ (run ops).handed, ∀ q ∈ (run ops).handed, p.2 = q.2 → p.1 = q.1 := by
  have h := inv_run ops hlt
  refine ⟨fun ds hds ↦ ⟨fun d hd ↦ ?_, (h.distinct ds hds).2⟩, h.sound.one⟩
  obtain ⟨p, hp, hid⟩ := (h.distinct ds hds).1 d hd
  exact ⟨hid ▸ h.sound.ne_zero hp, p, hp, hid⟩

/-- A key, forgotten with its document and asked for again. -/
theorem ids_of_run_forgotten :
    ((run [.id .ghostText "d" "k", .forgetDocument "d", .id .ghostText "d" "k"]).handed.map
      Prod.snd).Nodup ∧ ∀ p ∈ (run [.id .ghostText "d" "k", .forgetDocument "d",
        .id .ghostText "e" "k"]).handed, ∀ q ∈ (run [.id .ghostText "d" "k", .forgetDocument "d",
        .id .ghostText "e" "k"]).handed, p.2 = q.2 → p.1 = q.1 :=
  ⟨by decide, (ids_of_run _ (by decide)).2⟩

end Bridges

end Ember.Editor
