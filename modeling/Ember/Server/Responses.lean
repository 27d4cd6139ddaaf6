import Ember.Basic
import Ember.Foundation.Endings
import Ember.Foundation.Markers
import Ember.Foundation.Utf8
import Ember.SerdeJson
import Mathlib.Data.List.DropRight

/-!
# The stream of a ChatGPT reply

`chatgpt/responses.rs` (`SseParser`) and `chatgpt/mod.rs` (`ResponseStream`): the events of a reply
come as text in chunks of bytes. The parser looks for a blank line as two patterns of bytes, two
line feeds or two line ends of carriage return and line feed, and splits what is before it into
lines later. A blank line with a carriage return behind a line without one is neither.

A stream is a list of lines, each with its line end, and the part of a line that it stops in.

## What is proved

* `handed_eq_whole` — what is handed out does not depend on how the bytes are cut, and when the
  parser is asked.
* `whole_bytes` — where the parser sees the ends of events, and what it makes of what is between.
* `whole_eq_events_iff` — when those are the events of the stream.
* `ends_once` — a reply has one item that ends it, and nothing behind it.
* `reads_stream` — all of this; and `not_reads_stream` — two events that become one.
-/

namespace Ember.Server.Responses

open Endings SerdeJson

/-! ### The parser -/

/-- `SseEvent`. -/
structure SseEvent where
  kind : String
  data : Value

/-- The line ends of the stream, as bytes. -/
def lfLf : List UInt8 := [10, 10]

def crlfCrlf : List UInt8 := [13, 10, 13, 10]

/-- `find_blank_line`. -/
def findBlankLine (buf : List UInt8) : Option (ℕ × ℕ) :=
  let lf := (Markers.find buf lfLf).map fun i ↦ (i, 2)
  let crlf := (Markers.find buf crlfCrlf).map fun i ↦ (i, 4)
  match lf, crlf with
  | some a, some b => some (if a.1 ≤ b.1 then a else b)
  | a, b => a.or b

/-- `str::lines`. -/
def lines (text : List Char) : List (List Char) :=
  (keepLines '\n' text).map fun l ↦
    if l.getLast? = some '\n' then
      if l.dropLast.getLast? = some '\r' then l.dropLast.dropLast else l.dropLast
    else l

/-- What the lines of an event have said: its type, and its data. -/
structure Fields where
  event : Option String
  data : List Char

/-- The value of a line with this field name. -/
def fieldValue (name line : List Char) : Option (List Char) :=
  if name.isPrefixOf line then some (line.drop name.length) else none

/-- `strip_prefix(' ')`, where there is one. -/
def stripSpace : List Char → List Char
  | ' ' :: v => v
  | v => v

/-- One line of `parse_event`. -/
def readLine (f : Fields) (line : List Char) : Fields :=
  match fieldValue "event:".toList line with
  | some v => { f with event := some (trim (.ofList v)) }
  | none =>
    match fieldValue "data:".toList line with
    | some v => { f with data := (if f.data = [] then [] else f.data ++ ['\n']) ++ stripSpace v }
    | none => f

variable (f64 : String → Option String)

/-- The event with this type and data. -/
def eventOf (event : Option String) (data : List Char) : Option SseEvent :=
  if data = [] ∨ data = "[DONE]".toList then none
  else
    let value := (fromStr f64 (.ofList data)).getD (.str (.ofList data))
    some ⟨(event.or (value.index "type").asStr).getD "message", value⟩

/-- `parse_event`. -/
def parseEvent (raw : List UInt8) : Option SseEvent :=
  let f := ((lines (lossyChars raw)).map (List.rdropWhile (· = '\r'))).foldl readLine ⟨none, []⟩
  eventOf f64 f.event f.data

variable {buf : List UInt8}

theorem le_of_findBlankLine {e s : ℕ} (h : findBlankLine buf = some (e, s)) :
    0 < s ∧ e + s ≤ buf.length := by
  have hlf {i : ℕ} (hi : Markers.find buf lfLf = some i) : i + 2 ≤ buf.length :=
    ((Markers.find_eq_some (List.cons_ne_nil _ _)).1 hi).le (List.cons_ne_nil _ _)
  have hcrlf {i : ℕ} (hi : Markers.find buf crlfCrlf = some i) : i + 4 ≤ buf.length :=
    ((Markers.find_eq_some (List.cons_ne_nil _ _)).1 hi).le (List.cons_ne_nil _ _)
  rw [findBlankLine] at h
  cases ha : Markers.find buf lfLf with
  | none =>
    cases hb : Markers.find buf crlfCrlf with
    | none => simp [ha, hb] at h
    | some j =>
      have := hcrlf hb
      simp only [ha, hb, Option.map_none, Option.map_some, Option.none_or, Option.some.injEq,
        Prod.mk.injEq] at h
      omega
  | some i =>
    have := hlf ha
    cases hb : Markers.find buf crlfCrlf with
    | none =>
      simp only [ha, hb, Option.map_none, Option.map_some, Option.some_or, Option.some.injEq,
        Prod.mk.injEq] at h
      omega
    | some j =>
      have := hcrlf hb
      simp only [ha, hb, Option.map_some, Option.some.injEq] at h
      split at h <;> (obtain ⟨rfl, rfl⟩ := Prod.mk.inj h; omega)

/-- `next_event`: the next complete event, if there is one, and the buffer. -/
def nextEvent (buf : List UInt8) : Option SseEvent × List UInt8 :=
  match _h : findBlankLine buf with
  | none => (none, buf)
  | some (e, s) =>
    match parseEvent f64 (buf.take e) with
    | some ev => (some ev, buf.drop (e + s))
    | none => nextEvent (buf.drop (e + s))
termination_by buf.length
decreasing_by
  have := le_of_findBlankLine _h
  rw [List.length_drop]
  omega

theorem nextEvent_of_none (h : findBlankLine buf = none) :
    nextEvent f64 buf = (none, buf) := by
  rw [nextEvent]
  split
  case h_1 => rfl
  case h_2 h' =>
    rw [h] at h'
    cases h'

theorem nextEvent_of_some {e s : ℕ} (h : findBlankLine buf = some (e, s)) :
    nextEvent f64 buf =
      match parseEvent f64 (buf.take e) with
      | some ev => (some ev, buf.drop (e + s))
      | none => nextEvent f64 (buf.drop (e + s)) := by
  rw [nextEvent]
  split
  case h_1 h' =>
    rw [h] at h'
    cases h'
  case h_2 h' =>
    rw [h] at h'
    obtain ⟨rfl, rfl⟩ := Prod.mk.inj (Option.some.inj h')
    rfl

/-- An event takes bytes from the buffer, and nothing puts any into it. -/
theorem length_nextEvent_le (n : ℕ) : ∀ {buf : List UInt8}, buf.length ≤ n →
    (nextEvent f64 buf).1.toList.length + (nextEvent f64 buf).2.length ≤ buf.length := by
  induction n with
  | zero =>
    intro buf hlen
    obtain rfl := List.eq_nil_of_length_eq_zero (Nat.le_zero.1 hlen)
    rw [nextEvent_of_none f64 rfl]
    rfl
  | succ n ih =>
    intro buf hlen
    cases hfind : findBlankLine buf with
    | none =>
      rw [nextEvent_of_none f64 hfind, Option.toList_none, List.length_nil, Nat.zero_add]
    | some p =>
      obtain ⟨e, s⟩ := p
      have hle := le_of_findBlankLine hfind
      have hdrop : (buf.drop (e + s)).length < buf.length := by
        rw [List.length_drop]
        omega
      rw [nextEvent_of_some f64 hfind]
      split
      · rw [Option.toList_some, List.length_singleton]
        dsimp only
        omega
      · exact (ih (by omega)).trans hdrop.le

variable {rest : List UInt8} {ev : SseEvent}

theorem length_nextEvent (h : nextEvent f64 buf = (some ev, rest)) : rest.length < buf.length := by
  have hle := length_nextEvent_le f64 buf.length (le_refl buf.length)
  rw [h, Option.toList_some, List.length_singleton] at hle
  dsimp only at hle
  omega

/-- What `next_event` hands out when it is called until there is nothing more, and the buffer. -/
def drain (buf : List UInt8) : List SseEvent × List UInt8 :=
  match _h : nextEvent f64 buf with
  | (none, rest) => ([], rest)
  | (some ev, rest) => (ev :: (drain rest).1, (drain rest).2)
termination_by buf.length
decreasing_by all_goals exact length_nextEvent f64 _h

/-- What is done with a parser. -/
inductive Use
  | push (bytes : List UInt8)
  | next

/-- What was handed out, and the buffer. -/
abbrev Handed : Type := List SseEvent × List UInt8

/-- A call of the parser. -/
def use (p : Handed) : Use → Handed
  | .push bytes => (p.1, p.2 ++ bytes)
  | .next => (p.1 ++ (nextEvent f64 p.2).1.toList, (nextEvent f64 p.2).2)

/-- What is handed out in the end: the events that are left, and that of `finish`. -/
def finish (p : Handed) : List SseEvent :=
  p.1 ++ (drain f64 p.2).1 ++ (parseEvent f64 (drain f64 p.2).2).toList

/-- What a parser hands out that is used like this, to the end of the stream. -/
def handed (uses : List Use) : List SseEvent := finish f64 (uses.foldl (use f64) ([], []))

/-- The bytes that were pushed. -/
def pushed : List Use → List UInt8
  | [] => []
  | .push bytes :: uses => bytes ++ pushed uses
  | .next :: uses => pushed uses

/-- What a parser hands out that gets all bytes at once. -/
def whole (bytes : List UInt8) : List SseEvent := finish f64 ([], bytes)

/-! ### Where a blank line ends -/

/-- How much of a text that ends in a blank line is to be cut off. -/
def sepAt (text : List UInt8) : Option ℕ :=
  if lfLf <:+ text then some 2 else if crlfCrlf <:+ text then some 4 else none

variable {text : List UInt8}

theorem sepAt_le {s : ℕ} (h : sepAt text = some s) : s ≤ text.length := by
  rw [sepAt] at h
  split at h
  case isTrue hlf =>
    obtain rfl := Option.some.inj h
    exact hlf.length_le
  case isFalse =>
    split at h
    case isTrue hcrlf =>
      obtain rfl := Option.some.inj h
      exact hcrlf.length_le
    case isFalse => cases h

theorem suffix_take_iff {needle : List UInt8} {i : ℕ} (h : i + needle.length ≤ buf.length) :
    needle <:+ buf.take (i + needle.length) ↔ needle <+: buf.drop i := by
  have hlen : ((buf.drop i).take needle.length).length = needle.length := by
    rw [List.length_take, List.length_drop]
    omega
  rw [List.take_add, List.prefix_iff_eq_take]
  constructor
  · intro hsuffix
    have hsame := List.suffix_of_suffix_length_le hsuffix (List.suffix_append _ _) hlen.ge
    exact hsame.eq_of_length hlen.symm
  · intro heq
    rw [← heq]
    exact List.suffix_append _ _

/-- A pattern that begins somewhere ends a blank line. -/
theorem sepAt_ne_none {i : ℕ} :
    (lfLf <+: buf.drop i → sepAt (buf.take (i + 2)) ≠ none) ∧
      (crlfCrlf <+: buf.drop i → sepAt (buf.take (i + 4)) ≠ none) := by
  have hlen {needle : List UInt8} (hne : needle ≠ []) (h : needle <+: buf.drop i) :
      i + needle.length ≤ buf.length := by
    have hle := h.length_le
    have hpos := List.length_pos_of_ne_nil hne
    rw [List.length_drop] at hle
    omega
  constructor
  · intro h
    have hsuffix : lfLf <:+ buf.take (i + 2) :=
      (suffix_take_iff (hlen (List.cons_ne_nil _ _) h)).2 h
    rw [sepAt, if_pos hsuffix]
    exact Option.some_ne_none _
  · intro h
    have hsuffix : crlfCrlf <:+ buf.take (i + 4) :=
      (suffix_take_iff (hlen (List.cons_ne_nil _ _) h)).2 h
    rw [sepAt, if_pos hsuffix]
    split <;> exact Option.some_ne_none _

theorem findBlankLine_eq_none (h : ∀ n, sepAt (buf.take n) = none) :
    findBlankLine buf = none := by
  have hlf : Markers.find buf lfLf = none :=
    (Markers.find_eq_none (List.cons_ne_nil _ _)).2 fun i hi ↦ sepAt_ne_none.1 hi (h _)
  have hcrlf : Markers.find buf crlfCrlf = none :=
    (Markers.find_eq_none (List.cons_ne_nil _ _)).2 fun i hi ↦ sepAt_ne_none.2 hi (h _)
  rw [findBlankLine, hlf, hcrlf]
  rfl

/-- The blank line that is found is the one that ends first. -/
theorem findBlankLine_of_first {e s : ℕ} (hle : e + s ≤ buf.length)
    (hsep : sepAt (buf.take (e + s)) = some s) (hfirst : ∀ n < e + s, sepAt (buf.take n) = none) :
    findBlankLine buf = some (e, s) := by
  have hne₂ : lfLf ≠ [] := List.cons_ne_nil _ _
  have hne₄ : crlfCrlf ≠ [] := List.cons_ne_nil _ _
  rw [sepAt] at hsep
  split at hsep
  case isTrue hlf =>
    obtain rfl := Option.some.inj hsep
    have hat : lfLf <+: buf.drop e := (suffix_take_iff hle).1 hlf
    have hfind : Markers.find buf lfLf = some e :=
      (Markers.find_eq_some hne₂).2 ⟨hat, fun j hj h ↦ sepAt_ne_none.1 h (hfirst _ (by omega))⟩
    rw [findBlankLine, hfind]
    cases hcrlf : Markers.find buf crlfCrlf with
    | none => rfl
    | some j =>
      have hj := ((Markers.find_eq_some hne₄).1 hcrlf).1
      -- The two patterns do not overlap.
      have hle : e ≤ j := by
        have hends : ¬ j + 4 < e + 2 := fun h ↦ sepAt_ne_none.2 hj (hfirst _ h)
        by_contra hlt
        obtain ⟨r, hr⟩ := hj
        obtain ⟨r', hr'⟩ := hat
        obtain rfl | rfl : e = j + 1 ∨ e = j + 2 := by omega
        · rw [← List.drop_drop, ← hr] at hr'
          simp [lfLf, crlfCrlf] at hr'
        · rw [← List.drop_drop, ← hr] at hr'
          simp [lfLf, crlfCrlf] at hr'
      simp only [Option.map_some, if_pos hle]
  case isFalse hlf =>
    split at hsep
    case isTrue hcrlf =>
      obtain rfl := Option.some.inj hsep
      have hat : crlfCrlf <+: buf.drop e := (suffix_take_iff hle).1 hcrlf
      have hfind : Markers.find buf crlfCrlf = some e :=
        (Markers.find_eq_some hne₄).2 ⟨hat, fun j hj h ↦ sepAt_ne_none.2 h (hfirst _ (by omega))⟩
      rw [findBlankLine, hfind]
      cases hlf' : Markers.find buf lfLf with
      | none => rfl
      | some i =>
        have hi := ((Markers.find_eq_some hne₂).1 hlf').1
        have hlt : ¬ i ≤ e := fun h ↦ sepAt_ne_none.1 hi (hfirst _ (by omega))
        simp only [Option.map_some, if_neg hlt]
    case isFalse => cases hsep

theorem first_of_findBlankLine {e s : ℕ} (h : findBlankLine buf = some (e, s)) :
    e + s ≤ buf.length ∧ sepAt (buf.take (e + s)) = some s ∧
      ∀ n < e + s, sepAt (buf.take n) = none := by
  by_cases hall : ∀ n, sepAt (buf.take n) = none
  · rw [findBlankLine_eq_none hall] at h
    cases h
  · have hex : ∃ n, sepAt (buf.take n) ≠ none := not_forall.1 hall
    obtain ⟨hn, hmin⟩ := (Nat.find_eq_iff hex).1 rfl
    generalize Nat.find hex = n at hn hmin
    have hle : n ≤ buf.length := by
      by_contra hlt
      refine hmin buf.length (by omega) ?_
      rwa [List.take_length, ← List.take_of_length_le (by omega : buf.length ≤ n)]
    obtain ⟨t, ht⟩ := Option.ne_none_iff_exists'.1 hn
    have htn : t ≤ n := (sepAt_le ht).trans (List.length_take_le _ _)
    obtain ⟨k, rfl⟩ : ∃ k, n = k + t := ⟨n - t, by omega⟩
    have hfirst : ∀ m < k + t, sepAt (buf.take m) = none := fun m hm ↦ by
      simpa using hmin m hm
    rw [findBlankLine_of_first hle ht hfirst] at h
    obtain ⟨rfl, rfl⟩ := Prod.mk.inj (Option.some.inj h)
    exact ⟨hle, ht, hfirst⟩

/-- A blank line that is there stays the first one. -/
theorem findBlankLine_append {e s : ℕ} (h : findBlankLine buf = some (e, s))
    (t : List UInt8) : findBlankLine (buf ++ t) = some (e, s) := by
  obtain ⟨hle, hsep, hfirst⟩ := first_of_findBlankLine h
  have htake {n : ℕ} (hn : n ≤ e + s) : (buf ++ t).take n = buf.take n :=
    List.take_append_of_le_length (by omega)
  refine findBlankLine_of_first ?_ ?_ fun n hn ↦ ?_
  · rw [List.length_append]
    omega
  · rw [htake le_rfl, hsep]
  · rw [htake hn.le, hfirst n hn]

/-! ### However the stream is cut -/

theorem drain_of_none (h : findBlankLine buf = none) :
    drain f64 buf = ([], buf) := by
  rw [drain]
  split
  case h_1 rest h' =>
    rw [nextEvent_of_none f64 h] at h'
    rw [(Prod.mk.inj h').2]
  case h_2 h' =>
    rw [nextEvent_of_none f64 h] at h'
    cases h'

theorem drain_of_next (h : nextEvent f64 buf = (some ev, rest)) :
    drain f64 buf = (ev :: (drain f64 rest).1, (drain f64 rest).2) := by
  rw [drain]
  split
  case h_1 h' =>
    rw [h] at h'
    cases h'
  case h_2 h' =>
    rw [h] at h'
    obtain ⟨hev, rfl⟩ := Prod.mk.inj h'
    rw [Option.some.inj hev]

theorem drain_of_next_none (h : nextEvent f64 buf = (none, rest)) :
    drain f64 buf = ([], rest) := by
  rw [drain]
  split
  case h_1 h' =>
    rw [h] at h'
    rw [(Prod.mk.inj h').2]
  case h_2 h' =>
    rw [h] at h'
    cases h'

theorem drain_of_some {e s : ℕ} (h : findBlankLine buf = some (e, s)) :
    drain f64 buf = ((parseEvent f64 (buf.take e)).toList ++ (drain f64 (buf.drop (e + s))).1,
      (drain f64 (buf.drop (e + s))).2) := by
  have hnext := nextEvent_of_some f64 h
  cases hparse : parseEvent f64 (buf.take e) with
  | some ev =>
    rw [hparse] at hnext
    exact drain_of_next f64 hnext
  | none =>
    rw [hparse] at hnext
    change nextEvent f64 buf = nextEvent f64 (buf.drop (e + s)) at hnext
    cases hrest : nextEvent f64 (buf.drop (e + s)) with
    | mk ev rest =>
      rw [hrest] at hnext
      cases ev with
      | none => rw [drain_of_next_none f64 hnext, drain_of_next_none f64 hrest]; rfl
      | some ev => rw [drain_of_next f64 hnext, drain_of_next f64 hrest]; rfl

/-- **A buffer may be emptied before more comes**, and nothing changes. -/
theorem drain_append (t : List UInt8) (n : ℕ) : ∀ {buf : List UInt8}, buf.length ≤ n →
    drain f64 (buf ++ t) = ((drain f64 buf).1 ++ (drain f64 ((drain f64 buf).2 ++ t)).1,
      (drain f64 ((drain f64 buf).2 ++ t)).2) := by
  induction n with
  | zero =>
    intro buf hlen
    obtain rfl := List.eq_nil_of_length_eq_zero (Nat.le_zero.1 hlen)
    rw [drain_of_none f64 (rfl : findBlankLine [] = none)]
    rfl
  | succ n ih =>
    intro buf hlen
    cases hfind : findBlankLine buf with
    | none => rw [drain_of_none f64 hfind]; rfl
    | some p =>
      obtain ⟨e, s⟩ := p
      have hle := le_of_findBlankLine hfind
      rw [drain_of_some f64 (findBlankLine_append hfind t), drain_of_some f64 hfind,
        List.take_append_of_le_length (by omega), List.drop_append_of_le_length hle.2,
        ih (by rw [List.length_drop]; omega), List.append_assoc]

/-- `next_event` hands out what would be handed out anyway. -/
theorem finish_use (p : Handed) (u : Use) (t : List UInt8) :
    finish f64 ((use f64 p u).1, (use f64 p u).2 ++ t) =
      finish f64 (p.1, p.2 ++ pushed [u] ++ t) := by
  cases u with
  | push bytes => simp [use, pushed]
  | next =>
    rw [pushed, pushed, List.append_nil, finish, finish, use]
    dsimp only
    rw [drain_append f64 t p.2.length le_rfl]
    cases hnext : nextEvent f64 p.2 with
    | mk ev rest =>
      cases ev with
      | none =>
        rw [drain_of_next_none f64 hnext]
        simp
      | some ev =>
        rw [drain_of_next f64 hnext, drain_append f64 t rest.length le_rfl]
        simp

/-- **What is handed out does not depend on the cuts**, nor on when the parser is asked. -/
theorem handed_eq_whole (uses : List Use) : handed f64 uses = whole f64 (pushed uses) := by
  have hfold : ∀ (uses : List Use) (p : Handed),
      finish f64 (uses.foldl (use f64) p) = finish f64 (p.1, p.2 ++ pushed uses) := by
    intro uses
    induction uses with
    | nil => exact fun p ↦ by rw [List.foldl_nil, pushed, List.append_nil]
    | cons u uses ih =>
      intro p
      have hpushed : pushed (u :: uses) = pushed [u] ++ pushed uses := by
        cases u <;> simp [pushed]
      rw [List.foldl_cons, ih, finish_use, hpushed, List.append_assoc]
  rw [handed, hfold, List.nil_append, whole]

/-! ### Streams of lines -/

/-- A line of a stream, with its line end. -/
structure Line where
  text : List UInt8
  /-- A carriage return is before the line feed. -/
  crlf : Bool
  /-- Line ends are at the end only. -/
  plain : 10 ∉ text ∧ 13 ∉ text

/-- The bytes of a line. -/
def Line.bytes (l : Line) : List UInt8 := l.text ++ if l.crlf then [13, 10] else [10]

/-- The bytes of lines. -/
def bytesOf (ls : List Line) : List UInt8 := ls.flatMap Line.bytes

/-- A stream, and the part of a line that it stops in. -/
structure Stream where
  lines : List Line
  tail : List UInt8
  /-- It stops between a carriage return and a line feed. -/
  cr : Bool
  plain : 10 ∉ tail ∧ 13 ∉ tail

/-- The bytes of the part of a line. -/
def partBytes (text : List UInt8) (cr : Bool) : List UInt8 := text ++ if cr then [13] else []

/-- The bytes of a stream. -/
def Stream.bytes (s : Stream) : List UInt8 := bytesOf s.lines ++ partBytes s.tail s.cr

/-! ### Lines that are read -/

/-- What bytes of lines say, if this was said before. -/
def readBytes (f : Fields) (raw : List UInt8) : Fields :=
  ((lines (lossyChars raw)).map (List.rdropWhile (· = '\r'))).foldl readLine f

/-- What a line says. -/
def readText (f : Fields) (text : List UInt8) : Fields := readLine f (lossyChars text)

theorem lossyChars_lf (a t : List UInt8) :
    lossyChars (a ++ 10 :: t) = lossyChars a ++ '\n' :: lossyChars t :=
  lossyChars_append (c := '\n') (k := 10) rfl (by decide) t _ le_rfl

theorem lossyChars_cr (a t : List UInt8) :
    lossyChars (a ++ 13 :: t) = lossyChars a ++ '\r' :: lossyChars t :=
  lossyChars_append (c := '\r') (k := 13) rfl (by decide) t _ le_rfl

theorem plain_lossyChars (h : 10 ∉ text ∧ 13 ∉ text) :
    '\n' ∉ lossyChars text ∧ '\r' ∉ lossyChars text :=
  ⟨fun hmem ↦ h.1 (mem_of_mem_lossyChars rfl _ le_rfl hmem),
    fun hmem ↦ h.2 (mem_of_mem_lossyChars rfl _ le_rfl hmem)⟩

variable {x : List Char}

theorem lines_append (hx : '\n' ∉ x) (y : List Char) :
    lines (x ++ '\n' :: y) = (if x.getLast? = some '\r' then x.dropLast else x) :: lines y := by
  have hterm : Terminated '\n' (x ++ ['\n']) := ⟨x, hx, rfl⟩
  have hsplit : x ++ '\n' :: y = x ++ ['\n'] ++ y := by simp
  rw [lines, hsplit, keepLines_append_of_terminated hterm, List.map_cons, List.getLast?_concat,
    if_pos rfl, List.dropLast_concat, lines]

theorem rdropWhile_of_not_mem (hx : '\r' ∉ x) :
    x.rdropWhile (· = '\r') = x :=
  List.rdropWhile_eq_self_iff.2 fun hne h ↦
    hx (of_decide_eq_true h ▸ List.getLast_mem hne)

theorem getLast?_ne_of_not_mem {c : Char} (hx : c ∉ x) : x.getLast? ≠ some c :=
  fun h ↦ hx (List.mem_of_getLast? h)

/-- A line is read by itself. -/
theorem readBytes_line (f : Fields) (l : Line) (t : List UInt8) :
    readBytes f (l.bytes ++ t) = readBytes (readText f l.text) t := by
  obtain ⟨hlf, hcr⟩ := plain_lossyChars l.plain
  cases hend : l.crlf with
  | false =>
    have hbytes : l.bytes ++ t = l.text ++ 10 :: t := by simp [Line.bytes, hend]
    rw [readBytes, hbytes, lossyChars_lf,
      lines_append hlf, if_neg (getLast?_ne_of_not_mem hcr), List.map_cons, List.foldl_cons,
      rdropWhile_of_not_mem hcr]
    rfl
  | true =>
    have hbytes : l.bytes ++ t = l.text ++ 13 :: 10 :: t := by simp [Line.bytes, hend]
    have hlf' : '\n' ∉ lossyChars l.text ++ ['\r'] := by
      rw [List.mem_append, List.mem_singleton]
      rintro (h | h)
      · exact hlf h
      · cases h
    have htext : lossyChars (l.text ++ 13 :: 10 :: t) =
        lossyChars l.text ++ ['\r'] ++ '\n' :: lossyChars t := by
      rw [lossyChars_cr, ← List.nil_append (10 :: t), lossyChars_lf]
      simp [lossyChars, utf8LossyChars]
    rw [readBytes, hbytes, htext, lines_append hlf', List.getLast?_concat, if_pos rfl,
      List.dropLast_concat, List.map_cons, List.foldl_cons, rdropWhile_of_not_mem hcr]
    rfl

/-- A part of a line is read by itself. -/
theorem readBytes_part (f : Fields) (h : 10 ∉ text ∧ 13 ∉ text) (cr : Bool) :
    readBytes f (partBytes text cr) = readText f text := by
  obtain ⟨hlf, hcr⟩ := plain_lossyChars h
  have hone {x : List Char} (hx : '\n' ∉ x) (hdrop : x.rdropWhile (· = '\r') = lossyChars text) :
      ((lines x).map (List.rdropWhile (· = '\r'))).foldl readLine f = readText f text := by
    by_cases hnil : x = []
    · subst hnil
      rw [readText, ← hdrop]
      rfl
    · rw [lines, keepLines_of_not_mem hnil hx, List.map_singleton,
        if_neg (getLast?_ne_of_not_mem hx), List.map_singleton, hdrop]
      rfl
  cases cr with
  | false =>
    have hbytes : partBytes text false = text := List.append_nil _
    rw [readBytes, hbytes]
    exact hone hlf (rdropWhile_of_not_mem hcr)
  | true =>
    have htext : lossyChars (partBytes text true) = lossyChars text ++ ['\r'] :=
      lossyChars_cr text []
    rw [readBytes, htext]
    refine hone ?_ ?_
    · rw [List.mem_append, List.mem_singleton]
      rintro (h | h)
      · exact hlf h
      · cases h
    · rw [List.rdropWhile_concat_pos _ _ _ (by decide), rdropWhile_of_not_mem hcr]

/-- Lines and a part of one say what each says. -/
theorem readBytes_lines (ls : List Line) (h : 10 ∉ text ∧ 13 ∉ text) (cr : Bool)
    (f : Fields) : readBytes f (bytesOf ls ++ partBytes text cr) =
      readText ((ls.map Line.text).foldl readText f) text := by
  induction ls generalizing f with
  | nil => exact readBytes_part f h cr
  | cons l ls ih =>
    rw [bytesOf, List.flatMap_cons, List.append_assoc, readBytes_line, ← bytesOf, ih]
    rfl

/-! ### The blocks that the parser sees -/

/-- The line is a blank line that the parser sees, behind these lines. -/
def closes (cur : List Line) (l : Line) : Bool :=
  l.text.isEmpty && cur.getLast?.any fun p ↦ !l.crlf || p.crlf

/-- The blocks that the parser sees, and the lines that are left. -/
def seen (cur : List Line) : List Line → List (List Line) × List Line
  | [] => ([], cur)
  | l :: ls =>
    if closes cur l then (cur :: (seen [] ls).1, (seen [] ls).2) else seen (cur ++ [l]) ls

/-- What the parser makes of these lines. -/
def parsed (texts : List (List UInt8)) : Option SseEvent :=
  let f := texts.foldl readText ⟨none, []⟩
  eventOf f64 f.event f.data

theorem sepAt_concat_of_ne {b : UInt8} (hb : b ≠ 10) :
    sepAt (text ++ [b]) = none := by
  have hlast {front : List UInt8} (h : front ++ [10] <:+ text ++ [b]) : False := by
    obtain ⟨u, hu⟩ := h
    rw [← List.append_assoc] at hu
    exact hb (List.append_inj_right' hu rfl |> List.cons.inj |>.1).symm
  have hlf : ¬ lfLf <:+ text ++ [b] := @hlast [10]
  have hcrlf : ¬ crlfCrlf <:+ text ++ [b] := @hlast [13, 10, 13]
  rw [sepAt, if_neg hlf, if_neg hcrlf]

theorem suffix_concat_iff {front text : List UInt8} {b : UInt8} :
    front ++ [b] <:+ text ++ [b] ↔ front <:+ text := by
  rw [← List.reverse_prefix, ← List.reverse_prefix]
  simp

theorem singleton_suffix_iff {b : UInt8} :
    [b] <:+ text ↔ text.getLast? = some b := by
  cases text using List.reverseRecOn with
  | nil => simp
  | append_singleton front c =>
    rw [List.getLast?_concat, Option.some.injEq]
    constructor
    · rintro ⟨u, hu⟩
      exact (List.cons.inj (List.append_inj_right' hu rfl)).1.symm
    · rintro rfl
      exact List.suffix_append _ _

theorem sepAt_concat_lf (text : List UInt8) :
    sepAt (text ++ [10]) = if [10] <:+ text then some 2
      else if [13, 10, 13] <:+ text then some 4 else none := by
  have hlf : lfLf <:+ text ++ [10] ↔ [10] <:+ text := @suffix_concat_iff [10] text 10
  have hcrlf : crlfCrlf <:+ text ++ [10] ↔ [13, 10, 13] <:+ text :=
    @suffix_concat_iff [13, 10, 13] text 10
  simp only [sepAt, hlf, hcrlf]

variable {ls : List Line}

/-- Lines end in a line feed. -/
theorem lf_suffix_bytesOf : [10] <:+ bytesOf ls ↔ ls ≠ [] := by
  induction ls using List.reverseRecOn with
  | nil => simp [bytesOf]
  | append_singleton ls l _ =>
    refine iff_of_true ?_ (by simp)
    rw [bytesOf, List.flatMap_append, List.flatMap_singleton, Line.bytes]
    split
    · exact ⟨bytesOf ls ++ l.text ++ [13], by simp [bytesOf]⟩
    · exact ⟨bytesOf ls ++ l.text, by simp [bytesOf]⟩

/-- Lines end in a carriage return and a line feed if the last one does. -/
theorem crlf_suffix_bytesOf :
    [13, 10] <:+ bytesOf ls ↔ ls.getLast?.any Line.crlf := by
  induction ls using List.reverseRecOn with
  | nil => simp [bytesOf]
  | append_singleton ls l _ =>
    rw [bytesOf, List.flatMap_append, List.flatMap_singleton, Line.bytes, List.getLast?_concat,
      Option.any_some]
    cases hend : l.crlf with
    | true => exact iff_of_true ⟨bytesOf ls ++ l.text, by simp [bytesOf]⟩ rfl
    | false =>
      refine iff_of_false (fun h ↦ ?_) Bool.false_ne_true
      rw [if_neg Bool.false_ne_true, ← List.append_assoc] at h
      have hcr : [13] <:+ bytesOf ls ++ l.text := (@suffix_concat_iff [13] _ 10).1 h
      rw [singleton_suffix_iff] at hcr
      by_cases htext : l.text = []
      · -- What is before ends in a line feed, or is nothing.
        rw [htext, List.append_nil] at hcr
        by_cases hls : ls = []
        · subst hls
          cases hcr
        · rw [singleton_suffix_iff.1 (lf_suffix_bytesOf.2 hls)] at hcr
          cases hcr
      · rw [List.getLast?_append_of_ne_nil _ htext] at hcr
        exact l.plain.2 (List.mem_of_getLast? hcr)

/-- **Where the parser sees a blank line**: at the end of one behind lines, if a carriage return in
its line end is behind one in the line end before. -/
theorem sepAt_line (cur : List Line) (l : Line) :
    sepAt (bytesOf cur ++ l.bytes) =
      if closes cur l then some (if l.crlf then 4 else 2) else none := by
  have hlast : l.text ≠ [] → (bytesOf cur ++ l.text).getLast? ≠ some 10 ∧
      (bytesOf cur ++ l.text).getLast? ≠ some 13 := by
    intro htext
    rw [List.getLast?_append_of_ne_nil _ htext]
    exact ⟨fun h ↦ l.plain.1 (List.mem_of_getLast? h), fun h ↦ l.plain.2 (List.mem_of_getLast? h)⟩
  have hends {front text : List UInt8} {b : UInt8} (h : front ++ [b] <:+ text) :
      text.getLast? = some b :=
    singleton_suffix_iff.1 ((List.suffix_append front [b]).trans h)
  cases hend : l.crlf with
  | false =>
    have hbytes : bytesOf cur ++ l.bytes = bytesOf cur ++ l.text ++ [10] := by
      simp [Line.bytes, hend]
    rw [hbytes, sepAt_concat_lf]
    by_cases htext : l.text = []
    · rw [htext, List.append_nil]
      by_cases hcur : cur = []
      · subst hcur
        simp [bytesOf, closes]
      · rw [if_pos (lf_suffix_bytesOf.2 hcur), if_pos]
        · rfl
        · obtain ⟨p, hp⟩ := Option.isSome_iff_exists.1 (List.getLast?_isSome.2 hcur)
          simp [closes, htext, hend, hp]
    · have hno : ¬ [13, 10, 13] <:+ bytesOf cur ++ l.text := fun h ↦
        (hlast htext).2 (@hends [13, 10] _ _ h)
      rw [if_neg fun h ↦ (hlast htext).1 (singleton_suffix_iff.1 h), if_neg hno, if_neg]
      simp [closes, htext]
  | true =>
    have hbytes : bytesOf cur ++ l.bytes = bytesOf cur ++ l.text ++ [13] ++ [10] := by
      simp [Line.bytes, hend]
    have hcr : [13, 10, 13] <:+ bytesOf cur ++ l.text ++ [13] ↔
        [13, 10] <:+ bytesOf cur ++ l.text :=
      @suffix_concat_iff [13, 10] _ 13
    have hnot : ¬ [10] <:+ bytesOf cur ++ l.text ++ [13] := fun h ↦ by
      rw [singleton_suffix_iff, List.getLast?_concat] at h
      cases h
    rw [hbytes, sepAt_concat_lf, if_neg hnot]
    by_cases htext : l.text = []
    · have hcloses : closes cur l = cur.getLast?.any Line.crlf := by simp [closes, htext, hend]
      rw [htext, List.append_nil] at hcr
      simp only [htext, List.append_nil, hcr, crlf_suffix_bytesOf, hcloses, if_true]
    · have hno : ¬ [13, 10] <:+ bytesOf cur ++ l.text := fun h ↦
        (hlast htext).1 (@hends [13] _ _ h)
      rw [if_neg fun h ↦ hno (hcr.1 h), if_neg]
      simp [closes, htext]

/-- No blank line ends in these bytes. -/
def Clean (raw : List UInt8) : Prop := ∀ n, sepAt (raw.take n) = none

/-- Bytes without a line feed change nothing. -/
theorem Clean.append {raw more : List UInt8} (h : Clean raw) (hmore : 10 ∉ more) :
    Clean (raw ++ more) := by
  induction more using List.reverseRecOn with
  | nil => rwa [List.append_nil]
  | append_singleton more b ih =>
    rw [List.mem_append, List.mem_singleton, not_or] at hmore
    intro n
    by_cases hn : n ≤ (raw ++ more).length
    · rw [← List.append_assoc, List.take_append_of_le_length hn]
      exact ih hmore.1 n
    · rw [← List.append_assoc, List.take_of_length_le (by simp at hn ⊢; omega)]
      exact sepAt_concat_of_ne (Ne.symm hmore.2)

/-- A line without its line feed. -/
def Line.body (l : Line) : List UInt8 := l.text ++ if l.crlf then [13] else []

theorem Line.bytes_eq (l : Line) : l.bytes = l.body ++ [10] := by
  rw [Line.bytes, Line.body]
  split <;> simp

theorem Line.not_mem_body (l : Line) : 10 ∉ l.body := by
  rw [Line.body, List.mem_append]
  rintro (h | h)
  · exact l.plain.1 h
  · split at h
    · cases List.mem_singleton.1 h
    · cases h

variable {cur : List Line}

/-- Before a line ends there is no blank line. -/
theorem Clean.before (h : Clean (bytesOf cur)) (l : Line) {n : ℕ}
    (hn : n < (bytesOf cur ++ l.bytes).length) :
    sepAt ((bytesOf cur ++ l.bytes).take n) = none := by
  rw [l.bytes_eq, ← List.append_assoc, List.length_append, List.length_singleton] at hn
  rw [l.bytes_eq, ← List.append_assoc, List.take_append_of_le_length (by omega)]
  exact h.append l.not_mem_body n

variable {l : Line}

theorem Clean.line (h : Clean (bytesOf cur))
    (hopen : closes cur l = false) : Clean (bytesOf (cur ++ [l])) := by
  have hbytes : bytesOf (cur ++ [l]) = bytesOf cur ++ l.bytes := by simp [bytesOf]
  intro n
  rw [hbytes]
  by_cases hn : n < (bytesOf cur ++ l.bytes).length
  · exact h.before l hn
  · rw [List.take_of_length_le (by omega), sepAt_line, hopen]
    rfl

theorem clean_nil : Clean [] := fun n ↦ by
  rw [List.take_nil]
  rfl

theorem parseEvent_lines (ls : List Line) (h : 10 ∉ text ∧ 13 ∉ text)
    (cr : Bool) : parseEvent f64 (bytesOf ls ++ partBytes text cr) =
      parsed f64 (ls.map Line.text ++ [text]) := by
  have hread := readBytes_lines ls h cr ⟨none, []⟩
  rw [parsed, List.foldl_append, List.foldl_cons, List.foldl_nil, ← hread]
  rfl

/-- What is before the blank line is what the lines are, without the last line end. -/
theorem parseEvent_closed (hcloses : closes cur l) {e s : ℕ} (hs : s = if l.crlf then 4 else 2)
    (he : e + s = (bytesOf cur ++ l.bytes).length) (t : List UInt8) :
    parseEvent f64 ((bytesOf cur ++ l.bytes ++ t).take e) = parsed f64 (cur.map Line.text) := by
  obtain ⟨htext, hany⟩ := Bool.and_eq_true_iff.1 hcloses
  rw [List.isEmpty_iff] at htext
  obtain ⟨p, hp, hends⟩ := (Option.any_eq_true _ _).1 hany
  obtain ⟨front, rfl⟩ : ∃ front, cur = front ++ [p] := List.getLast?_eq_some_iff.1 hp
  have hcur : bytesOf (front ++ [p]) = bytesOf front ++ p.bytes := by simp [bytesOf]
  have htake {raw : List UInt8} (hraw : ∃ u, bytesOf (front ++ [p]) ++ l.bytes = raw ++ u ∧
      u.length = s) : (bytesOf (front ++ [p]) ++ l.bytes ++ t).take e = raw := by
    obtain ⟨u, hu, hlen⟩ := hraw
    have hraw : e = raw.length := by
      rw [hu, List.length_append] at he
      omega
    rw [hu, List.append_assoc, hraw, List.take_left]
  rw [List.map_append, List.map_singleton]
  cases hend : l.crlf with
  | false =>
    rw [hend] at hs
    rw [@htake (bytesOf front ++ partBytes p.text p.crlf), parseEvent_lines f64 front p.plain]
    refine ⟨[10, 10], ?_, by rw [hs]; rfl⟩
    have hp : p.bytes = partBytes p.text p.crlf ++ [10] := p.bytes_eq
    rw [hcur, hp, Line.bytes, htext, hend]
    simp
  | true =>
    rw [hend] at hs
    have hcrlf : p.crlf = true := by simpa [hend] using hends
    rw [@htake (bytesOf front ++ partBytes p.text false), parseEvent_lines f64 front p.plain]
    refine ⟨[13, 10, 13, 10], ?_, by rw [hs]; rfl⟩
    rw [hcur, Line.bytes, Line.bytes, htext, hend, hcrlf]
    simp [partBytes]

/-- **What the parser makes of lines**: the events of the blocks that it sees. -/
theorem drain_lines {t : List UInt8} (ht : 10 ∉ t) (ls cur : List Line)
    (hcur : Clean (bytesOf cur)) :
    drain f64 (bytesOf cur ++ (bytesOf ls ++ t)) =
      ((seen cur ls).1.filterMap fun b ↦ parsed f64 (b.map Line.text),
        bytesOf (seen cur ls).2 ++ t) := by
  induction ls generalizing cur with
  | nil =>
    rw [drain_of_none]
    · rfl
    · exact findBlankLine_eq_none (hcur.append ht)
  | cons l ls ih =>
    have hcons : bytesOf (l :: ls) = l.bytes ++ bytesOf ls := List.flatMap_cons
    have hsplit : bytesOf cur ++ (bytesOf (l :: ls) ++ t) =
        bytesOf cur ++ l.bytes ++ (bytesOf ls ++ t) := by
      rw [hcons]
      simp only [List.append_assoc]
    rw [hsplit, seen]
    cases hcloses : closes cur l with
    | false =>
      have hbytes : bytesOf cur ++ l.bytes = bytesOf (cur ++ [l]) := by simp [bytesOf]
      rw [if_neg Bool.false_ne_true, hbytes, ih _ (hcur.line hcloses)]
    | true =>
      obtain ⟨s, hs⟩ : ∃ s, s = if l.crlf then 4 else 2 := ⟨_, rfl⟩
      have hsep : sepAt (bytesOf cur ++ l.bytes) = some s := by
        rw [sepAt_line, hcloses, if_pos rfl, hs]
      have hle := sepAt_le hsep
      obtain ⟨e, he⟩ : ∃ e, e + s = (bytesOf cur ++ l.bytes).length := ⟨_, Nat.sub_add_cancel hle⟩
      have hfind : findBlankLine (bytesOf cur ++ l.bytes) = some (e, s) := by
        refine findBlankLine_of_first he.le ?_ fun n hn ↦ hcur.before l (he ▸ hn)
        rw [he, List.take_length, hsep]
      have hdrop : (bytesOf cur ++ l.bytes ++ (bytesOf ls ++ t)).drop (e + s) =
          bytesOf ls ++ t := by
        rw [he, List.drop_left]
      have hnil := ih [] clean_nil
      rw [drain_of_some f64 (findBlankLine_append hfind _), hdrop,
        parseEvent_closed f64 hcloses hs he, if_pos rfl]
      rw [show bytesOf [] ++ (bytesOf ls ++ t) = bytesOf ls ++ t from rfl] at hnil
      rw [hnil, List.filterMap_cons]
      cases parsed f64 (cur.map Line.text) <;> rfl

/-- **What is handed out of a stream**: the events of the blocks that the parser sees, and that of
what is left. -/
theorem whole_bytes (s : Stream) :
    whole f64 s.bytes =
      ((seen [] s.lines).1.filterMap fun b ↦ parsed f64 (b.map Line.text)) ++
        (parsed f64 ((seen [] s.lines).2.map Line.text ++ [s.tail])).toList := by
  have hpart : 10 ∉ partBytes s.tail s.cr := by
    rw [partBytes, List.mem_append]
    rintro (h | h)
    · exact s.plain.1 h
    · split at h
      · cases List.mem_singleton.1 h
      · cases h
  have hdrain := drain_lines f64 hpart s.lines [] clean_nil
  rw [show bytesOf [] ++ (bytesOf s.lines ++ partBytes s.tail s.cr) = s.bytes from rfl] at hdrain
  rw [whole, finish, hdrain, parseEvent_lines f64 _ s.plain, List.nil_append]

/-! ### The events of a stream -/

/-- The type that a line gives its event. -/
def eventValue (line : List Char) : Option String :=
  (fieldValue "event:".toList line).map fun v ↦ trim (.ofList v)

/-- The data on a line. -/
def dataValue (line : List Char) : Option (List Char) :=
  if (fieldValue "event:".toList line).isSome then none
  else (fieldValue "data:".toList line).map stripSpace

/-- The lines of data of a block. -/
def dataLines (texts : List (List UInt8)) : List (List Char) :=
  (texts.map lossyChars).filterMap dataValue

/-- The types that a block gives its event. -/
def eventLines (texts : List (List UInt8)) : List String :=
  (texts.map lossyChars).filterMap eventValue

/-- Lines of data, joined by line feeds. -/
def joined (ds : List (List Char)) : List Char := ['\n'].intercalate ds

/-- The event of a block of lines: its data joined by line feeds, and the last type it gives. -/
def blockEvent (texts : List (List UInt8)) : Option SseEvent :=
  eventOf f64 (eventLines texts).getLast? (joined (dataLines texts))

/-- The blocks of lines that blank lines end, and the last one. -/
def blocksOf (cur : List (List UInt8)) (tail : List UInt8) : List Line → List (List (List UInt8))
  | [] => [cur ++ [tail]]
  | l :: ls =>
    if l.text = [] then cur :: blocksOf [] tail ls else blocksOf (cur ++ [l.text]) tail ls

def Stream.blocks (s : Stream) : List (List (List UInt8)) := blocksOf [] s.tail s.lines

/-- The events of a stream, in order. -/
def Stream.events (s : Stream) : List SseEvent := s.blocks.filterMap (blockEvent f64)

/-- The data of a block is what the parser makes of it: it does not begin with an empty line, or is
only that, or is JSON, for which the line feed does not matter. -/
def KeepsData (texts : List (List UInt8)) : Prop :=
  (dataLines texts).head? ≠ some [] ∨ dataLines texts = [[]] ∨
    (fromStr f64 (.ofList (joined ((dataLines texts).dropWhile List.isEmpty)))).isSome

instance (texts : List (List UInt8)) : Decidable (KeepsData f64 texts) :=
  inferInstanceAs (Decidable (_ ∨ _ ∨ _))

/-- A line that is not blank comes next. -/
def comes (tail : List UInt8) : List Line → Bool
  | [] => !tail.isEmpty
  | l :: _ => !l.text.isEmpty

/-- No blank line with a carriage return stands alone behind a line that ends without one. -/
def apart (tail : List UInt8) (lf : Bool) : List Line → Bool
  | [] => true
  | l :: ls =>
    !(lf && l.text.isEmpty && l.crlf && comes tail ls) &&
      apart tail (!l.text.isEmpty && !l.crlf) ls

/-! ### The data of a block -/

variable {ds : List (List Char)}

theorem joined_concat (h : ds ≠ []) (d : List Char) :
    joined (ds ++ [d]) = joined ds ++ '\n' :: d := by
  induction ds with
  | nil => exact absurd rfl h
  | cons e ds ih =>
    cases ds with
    | nil => simp [joined]
    | cons e' ds =>
      have hne : e' :: ds ++ [d] ≠ [] := by simp
      rw [joined, List.cons_append, List.intercalate_cons_of_ne_nil hne, ← joined,
        ih (List.cons_ne_nil _ _), joined, joined,
        List.intercalate_cons_of_ne_nil (List.cons_ne_nil e' ds)]
      simp

/-- Data that does not begin with an empty line is not empty. -/
theorem joined_kept (h : ds.dropWhile List.isEmpty ≠ []) :
    joined (ds.dropWhile List.isEmpty) ≠ [] := by
  obtain ⟨d, rest, hd⟩ := List.exists_cons_of_ne_nil h
  have hfull : d.isEmpty = false := by
    have := List.head?_dropWhile_not List.isEmpty ds
    rw [hd] at this
    simpa using this
  rw [hd]
  cases rest with
  | nil =>
    rw [joined, List.intercalate_singleton]
    exact fun hnil ↦ by simp [hnil] at hfull
  | cons e rest =>
    rw [joined, List.intercalate_cons_of_ne_nil (List.cons_ne_nil _ _)]
    simp

/-- One more line of data. -/
theorem joined_kept_concat (ds : List (List Char)) (d : List Char) :
    joined ((ds ++ [d]).dropWhile List.isEmpty) =
      (if joined (ds.dropWhile List.isEmpty) = [] then []
        else joined (ds.dropWhile List.isEmpty) ++ ['\n']) ++ d := by
  rw [List.dropWhile_append]
  by_cases hkept : ds.dropWhile List.isEmpty = []
  · have hnil : joined ([] : List (List Char)) = [] := rfl
    rw [hkept, List.isEmpty_nil, if_pos rfl, if_pos hnil]
    cases d with
    | nil => rfl
    | cons c d => simp [joined]
  · rw [if_neg (by simpa using hkept), if_neg (joined_kept hkept), joined_concat hkept]
    simp

theorem dataLines_concat (texts : List (List UInt8)) (text : List UInt8) :
    dataLines (texts ++ [text]) = dataLines texts ++ (dataValue (lossyChars text)).toList := by
  rw [dataLines, List.map_append, List.filterMap_append, dataLines]
  cases h : dataValue (lossyChars text) <;> simp [h]

theorem eventLines_concat (texts : List (List UInt8)) (text : List UInt8) :
    eventLines (texts ++ [text]) = eventLines texts ++ (eventValue (lossyChars text)).toList := by
  rw [eventLines, List.map_append, List.filterMap_append, eventLines]
  cases h : eventValue (lossyChars text) <;> simp [h]

/-- What the lines of a block say. -/
theorem readText_eq (texts : List (List UInt8)) : texts.foldl readText ⟨none, []⟩ =
    ⟨(eventLines texts).getLast?, joined ((dataLines texts).dropWhile List.isEmpty)⟩ := by
  induction texts using List.reverseRecOn with
  | nil => rfl
  | append_singleton texts text ih =>
    rw [List.foldl_append, List.foldl_cons, List.foldl_nil, ih, readText, readLine,
      dataLines_concat, eventLines_concat]
    cases hevent : fieldValue "event:".toList (lossyChars text) with
    | some v =>
      have hvalue : eventValue (lossyChars text) = some (trim (.ofList v)) := by
        rw [eventValue, hevent]
        rfl
      have hnone : dataValue (lossyChars text) = none := by
        rw [dataValue, hevent]
        rfl
      rw [hvalue, hnone, Option.toList_some, Option.toList_none, List.append_nil,
        List.getLast?_concat]
    | none =>
      have hnone : eventValue (lossyChars text) = none := by
        rw [eventValue, hevent]
        rfl
      rw [hnone, Option.toList_none, List.append_nil]
      cases hdata : fieldValue "data:".toList (lossyChars text) with
      | some v =>
        have hvalue : dataValue (lossyChars text) = some (stripSpace v) := by
          rw [dataValue, hevent, hdata]
          rfl
        rw [hvalue, Option.toList_some, joined_kept_concat]
      | none =>
        have hdnone : dataValue (lossyChars text) = none := by
          rw [dataValue, hevent, hdata]
          rfl
        rw [hdnone, Option.toList_none, List.append_nil]

/-- Data that begins with empty lines begins with line feeds. -/
theorem exists_joined_eq (ds : List (List Char)) :
    ∃ k, joined ds = List.replicate k '\n' ++ joined (ds.dropWhile List.isEmpty) := by
  induction ds with
  | nil => exact ⟨0, rfl⟩
  | cons d ds ih =>
    cases d with
    | cons c d => exact ⟨0, rfl⟩
    | nil =>
      obtain ⟨k, hk⟩ := ih
      cases ds with
      | nil => exact ⟨0, rfl⟩
      | cons e ds =>
        refine ⟨k + 1, ?_⟩
        rw [joined, List.intercalate_cons_of_ne_nil (List.cons_ne_nil _ _), ← joined, hk]
        rfl

theorem fromStr_replicate (k : ℕ) (d : List Char) :
    fromStr f64 (.ofList (List.replicate k '\n' ++ d)) = fromStr f64 (.ofList d) := by
  induction k with
  | zero => rfl
  | succ k ih =>
    rw [← ih, fromStr, fromStr, String.toList_ofList, String.toList_ofList]
    rfl

variable {texts : List (List UInt8)}

/-- The parser makes of a block what it says, where it keeps its data. -/
theorem parsed_eq (h : KeepsData f64 texts) :
    parsed f64 texts = blockEvent f64 texts := by
  rw [parsed, readText_eq, blockEvent]
  dsimp only
  obtain hfirst | hone | hjson := h
  · have hsame : (dataLines texts).dropWhile List.isEmpty = dataLines texts := by
      cases hds : dataLines texts with
      | nil => rfl
      | cons d ds =>
        rw [hds, List.head?_cons, ne_eq, Option.some.injEq] at hfirst
        exact List.dropWhile_cons_of_neg (by simpa using hfirst)
    rw [hsame]
  · rw [hone]
    rfl
  · obtain ⟨k, hk⟩ := exists_joined_eq (dataLines texts)
    set kept := joined ((dataLines texts).dropWhile List.isEmpty)
    have hne : kept ≠ [] := fun hnil ↦ by
      rw [hnil] at hjson
      cases hjson
    have hdone : kept ≠ "[DONE]".toList := fun hdone ↦ by
      rw [hdone, String.ofList_toList] at hjson
      cases hjson
    rw [hk]
    cases k with
    | zero => rfl
    | succ k =>
      obtain ⟨v, hv⟩ := Option.isSome_iff_exists.1 hjson
      have hfull : ¬ (List.replicate (k + 1) '\n' ++ kept = [] ∨
          List.replicate (k + 1) '\n' ++ kept = "[DONE]".toList) := by
        rintro (hnil | hdone)
        · cases hnil
        · cases hdone
      rw [eventOf, if_neg (not_or.2 ⟨hne, hdone⟩), eventOf, if_neg hfull, fromStr_replicate, hv]
      rfl

/-- Where it does not keep the data, there is an event that the parser does not make. -/
theorem parsed_ne (h : ¬ KeepsData f64 texts) :
    ∃ ev, blockEvent f64 texts = some ev ∧ parsed f64 texts ≠ some ev := by
  rw [KeepsData, not_or, not_or] at h
  obtain ⟨hfirst, hone, hjson⟩ := h
  have hfirst : (dataLines texts).head? = some [] := not_not.1 hfirst
  rw [Bool.not_eq_true, Option.isSome_eq_false_iff, Option.isNone_iff_eq_none] at hjson
  obtain ⟨rest, hds⟩ : ∃ rest, dataLines texts = [] :: rest := by
    cases hds : dataLines texts with
    | nil => rw [hds] at hfirst; cases hfirst
    | cons d rest =>
      rw [hds, List.head?_cons, Option.some.injEq] at hfirst
      exact ⟨rest, by rw [hfirst]⟩
  have hrest : rest ≠ [] := fun hnil ↦ hone (by rw [hds, hnil])
  obtain ⟨k, hk⟩ := exists_joined_eq rest
  have hjoined : joined (dataLines texts) =
      List.replicate (k + 1) '\n' ++ joined ((dataLines texts).dropWhile List.isEmpty) := by
    rw [hds, joined, List.intercalate_cons_of_ne_nil hrest, ← joined, hk]
    rfl
  rw [parsed, readText_eq, blockEvent]
  dsimp only
  rw [hjoined]
  set kept := joined ((dataLines texts).dropWhile List.isEmpty)
  have hfull : ¬ (List.replicate (k + 1) '\n' ++ kept = [] ∨
      List.replicate (k + 1) '\n' ++ kept = "[DONE]".toList) := by
    rintro (hnil | hdone)
    · cases hnil
    · cases hdone
  refine ⟨_, by rw [eventOf, if_neg hfull], fun h ↦ ?_⟩
  rw [eventOf] at h
  split at h
  case isTrue => cases h
  case isFalse =>
    rw [fromStr_replicate, hjson, Option.some.injEq, SseEvent.mk.injEq, Option.getD_none,
      Option.getD_none, Value.str.injEq, String.ofList_inj] at h
    have hlen := congrArg List.length h.2
    simp at hlen

/-! ### Where the parser sees the blocks -/

@[simp] theorem readText_nil (f : Fields) : readText f [] = f := rfl

theorem parsed_concat_nil (texts : List (List UInt8)) :
    parsed f64 (texts ++ [[]]) = parsed f64 texts := by
  rw [parsed, List.foldl_append, List.foldl_cons, readText_nil]
  rfl

/-- What the parser has seen of a block may be what it says. -/
def Says (cur : List Line) (texts : List (List UInt8)) : Prop :=
  (cur.map Line.text).foldl readText ⟨none, []⟩ = texts.foldl readText ⟨none, []⟩

theorem Says.parsed_eq (h : Says cur texts) :
    parsed f64 (cur.map Line.text) = parsed f64 texts := by
  rw [parsed, h, parsed]

theorem Says.line (h : Says cur texts) (l : Line) :
    Says (cur ++ [l]) (texts ++ [l.text]) := by
  rw [Says, List.map_append, List.foldl_append, h, List.foldl_append]
  rfl

theorem Says.blank (h : Says cur texts) (hl : l.text = []) : Says (cur ++ [l]) texts := by
  rw [Says, List.map_append, List.foldl_append, h, List.map_singleton, hl]
  rfl

/-- What the parser hands out of these lines, behind those. -/
def handedOf (tail : List UInt8) (cur ls : List Line) : List SseEvent :=
  ((seen cur ls).1.filterMap fun b ↦ parsed f64 (b.map Line.text)) ++
    (parsed f64 ((seen cur ls).2.map Line.text ++ [tail])).toList

variable {tail : List UInt8}

theorem handedOf_closes (h : closes cur l) :
    handedOf f64 tail cur (l :: ls) =
      (parsed f64 (cur.map Line.text)).toList ++ handedOf f64 tail [] ls := by
  rw [handedOf, seen, if_pos h, List.filterMap_cons, handedOf]
  cases parsed f64 (cur.map Line.text) <;> rfl

theorem handedOf_opens (h : closes cur l = false) :
    handedOf f64 tail cur (l :: ls) = handedOf f64 tail (cur ++ [l]) ls := by
  rw [handedOf, seen, h, if_neg Bool.false_ne_true, handedOf]

/-- What the parser makes of the blocks of these lines, behind those. -/
def blockwise (tail : List UInt8) (texts : List (List UInt8)) (ls : List Line) : List SseEvent :=
  (blocksOf texts tail ls).filterMap (parsed f64)

theorem blockwise_blank (h : l.text = []) :
    blockwise f64 tail texts (l :: ls) = (parsed f64 texts).toList ++ blockwise f64 tail [] ls := by
  rw [blockwise, blocksOf, if_pos h, List.filterMap_cons, blockwise]
  cases parsed f64 texts <;> rfl

/-- What the parser has seen ends in a line of the block, or says nothing. -/
def Ends (lf : Bool) (cur : List Line) : Prop :=
  (∃ p, cur.getLast? = some p ∧ p.text ≠ [] ∧ lf = !p.crlf) ∨ Says cur []

/-- **The parser sees the blocks of a stream whose blank lines are apart.** A blank line that it
does not see is behind the lines of a block only if another one, or nothing, comes next. -/
theorem handedOf_eq (tail : List UInt8) (ls : List Line) :
    (∀ lf cur texts, Says cur texts → Ends lf cur → apart tail lf ls →
      handedOf f64 tail cur ls = blockwise f64 tail texts ls) ∧
    ∀ cur p, cur.getLast? = some p → p.crlf → comes tail ls = false → apart tail false ls →
      handedOf f64 tail cur ls =
        (parsed f64 (cur.map Line.text)).toList ++ blockwise f64 tail [] ls := by
  induction ls with
  | nil =>
    constructor
    · intro lf cur texts hread _ _
      have hlast : parsed f64 (cur.map Line.text ++ [tail]) = parsed f64 (texts ++ [tail]) := by
        rw [parsed, List.foldl_append, hread, parsed, List.foldl_append]
      rw [handedOf, blockwise, seen, blocksOf, hlast, List.filterMap_nil, List.nil_append,
        List.filterMap_cons, List.filterMap_nil]
      cases parsed f64 (texts ++ [tail]) <;> rfl
    · intro cur p _ _ hcomes _
      obtain rfl : tail = [] := by simpa [comes] using hcomes
      rw [handedOf, seen, parsed_concat_nil]
      exact (List.append_nil _).symm
  | cons l ls ih =>
    constructor
    · intro lf cur texts hread hends hapart
      rw [apart, Bool.and_eq_true] at hapart
      obtain ⟨halone, hapart⟩ := hapart
      by_cases hl : l.text = []
      · rw [hl, List.isEmpty_nil, Bool.not_true, Bool.false_and] at hapart
        rw [blockwise_blank f64 hl, ← hread.parsed_eq]
        cases hcloses : closes cur l with
        | true =>
          rw [handedOf_closes f64 hcloses, ih.1 false [] [] rfl (.inr rfl) hapart]
        | false =>
          rw [handedOf_opens f64 hcloses]
          obtain ⟨p, hp, hfull, rfl⟩ | hnothing := hends
          · -- The line that is not seen has a carriage return, and the one before it has none.
            obtain ⟨hcr, hlf⟩ : l.crlf = true ∧ p.crlf = false := by
              simpa [closes, hl, hp] using hcloses
            have hcomes : comes tail ls = false := by simpa [hl, hcr, hlf] using halone
            have hsame := (Says.blank (rfl : Says cur (cur.map Line.text)) hl).parsed_eq f64
            rw [ih.2 _ l List.getLast?_concat hcr hcomes hapart, hsame]
          · have hnone : parsed f64 (cur.map Line.text) = none := hnothing.parsed_eq f64
            rw [hnone, ih.1 false _ [] (hnothing.blank hl) (.inr (hnothing.blank hl)) hapart]
            rfl
      · have hcloses : closes cur l = false := by simp [closes, hl]
        have hfull : l.text.isEmpty = false := by simpa using hl
        rw [hfull, Bool.not_false, Bool.true_and] at hapart
        rw [handedOf_opens f64 hcloses, blockwise, blocksOf, if_neg hl, ← blockwise]
        exact ih.1 _ _ _ (hread.line l) (.inl ⟨l, List.getLast?_concat, hl, rfl⟩) hapart
    · intro cur p hp hcr hcomes hapart
      have hl : l.text = [] := by simpa [comes] using hcomes
      have hcloses : closes cur l = true := by simp [closes, hl, hp, hcr]
      rw [apart, hl, List.isEmpty_nil, Bool.not_true, Bool.false_and, Bool.and_eq_true] at hapart
      rw [handedOf_closes f64 hcloses, blockwise_blank f64 hl,
        ih.1 false [] [] rfl (.inr rfl) hapart.2]
      rfl

/-- What is handed out of a stream is what the parser makes of its blocks. -/
theorem whole_eq_blocks {s : Stream} (h : apart s.tail false s.lines) :
    whole f64 s.bytes = s.blocks.filterMap (parsed f64) := by
  rw [whole_bytes]
  exact (handedOf_eq f64 s.tail s.lines).1 false [] [] rfl (.inr rfl) h

theorem length_filterMap_le {α β : Type*} {f g : α → Option β} (l : List α)
    (h : ∀ a, f a = g a ∨ ∃ b, g a = some b ∧ f a ≠ some b) :
    (l.filterMap f).length ≤ (l.filterMap g).length := by
  induction l with
  | nil => rfl
  | cons a l ih =>
    obtain hsame | ⟨b, hg, -⟩ := h a
    · rw [List.filterMap_cons, List.filterMap_cons, hsame]
      cases g a with
      | none => exact ih
      | some b => exact Nat.succ_le_succ ih
    · rw [List.filterMap_cons, List.filterMap_cons, hg]
      cases f a with
      | none => exact Nat.le_succ_of_le ih
      | some b => exact Nat.succ_le_succ ih

/-- Lists of results are equal only if each result is, where a result that differs is there. -/
theorem filterMap_eq_iff {α β : Type*} {f g : α → Option β} (l : List α)
    (h : ∀ a, f a = g a ∨ ∃ b, g a = some b ∧ f a ≠ some b) :
    l.filterMap f = l.filterMap g ↔ ∀ a ∈ l, f a = g a := by
  refine ⟨?_, List.filterMap_congr⟩
  induction l with
  | nil => exact fun _ _ ha ↦ by cases ha
  | cons a l ih =>
    intro heq
    have hlen := length_filterMap_le l h
    rw [List.filterMap_cons, List.filterMap_cons] at heq
    rw [List.forall_mem_cons]
    obtain hsame | ⟨b, hg, hf⟩ := h a
    · refine ⟨hsame, ih ?_⟩
      rw [hsame] at heq
      cases hg : g a with
      | none => rwa [hg] at heq
      | some b => rw [hg] at heq; exact (List.cons.inj heq).2
    · -- The result that is missing cannot come later: there are too few.
      rw [hg] at heq
      cases hfa : f a with
      | none =>
        rw [hfa] at heq
        change l.filterMap f = b :: l.filterMap g at heq
        rw [heq, List.length_cons] at hlen
        omega
      | some c =>
        rw [hfa] at heq
        obtain ⟨rfl, -⟩ := List.cons.inj heq
        exact absurd hfa hf

/-- **What is handed out of a stream whose blank lines are apart** are its events if and only if
each block keeps its data. -/
theorem whole_eq_events_iff {s : Stream} (h : apart s.tail false s.lines) :
    whole f64 s.bytes = s.events f64 ↔ ∀ texts ∈ s.blocks, KeepsData f64 texts := by
  rw [whole_eq_blocks f64 h, Stream.events, filterMap_eq_iff]
  · refine forall₂_congr fun texts _ ↦ ⟨fun heq ↦ ?_, parsed_eq f64⟩
    by_contra hkeeps
    obtain ⟨ev, hblock, hne⟩ := parsed_ne f64 hkeeps
    exact hne (heq.trans hblock)
  · intro texts
    by_cases hkeeps : KeepsData f64 texts
    · exact .inl (parsed_eq f64 hkeeps)
    · exact .inr (parsed_ne f64 hkeeps)

/-! ### The reply -/

/-- `ChatGptError`, as far as a reply ends in one. -/
inductive ChatGptError
  | signInRequired (message : String)
  | notEligible (message : String)
  | usageLimited (until_ : ℤ) (message : String)
  | unsupported (message : String)
  | api (status : Option ℕ) (code : Option String) (message : String)
  | network

/-- What is recorded for an account. -/
inductive Record
  | usage (input output : ℕ)
  | limit (until_ : ℤ) (message : String)
  | status (status : String)
  | clearTokens (status : String)

/-- `DEFAULT_COOLDOWN_MS`. -/
def defaultCooldownMs : ℤ := 60 * 60 * 1000

/-- `classify`, with the time. -/
def classify (now : ℤ) (status : Option ℕ) (code : Option String) (message : String)
    (retryAfterSecs : Option ℤ) : ChatGptError × List Record :=
  if code = some "subscription_sharing_usage_limit_exceeded" ∨ status = some 429 then
    let until_ := now + (retryAfterSecs.map (· * 1000)).getD defaultCooldownMs
    (.usageLimited until_ message, [.limit until_ message])
  else if code = some "subscription_sharing_user_not_eligible" then
    (.notEligible message, [.status "not_eligible"])
  else if code = some "subscription_sharing_invalid_user" then
    (.signInRequired message, [.clearTokens "signed_out"])
  else if code = some "subscription_sharing_unsupported_capability" then
    (.unsupported
      ("OpenAI refused a capability ChatGPT plan usage does not support: " ++ message), [])
  else if status = some 401 then (.signInRequired message, [])
  else (.api status code message, [])

/-- `Value::is_object`. -/
def isObject : Value → Bool
  | .obj _ => true
  | _ => false

/-- `completed_usage`. -/
def completedUsage (data : Value) : Option (ℕ × ℕ) := do
  let u := (data.index "response").index "usage"
  return (← (u.index "input_tokens").asU64, ← (u.index "output_tokens").asU64)

/-- `error_of`. -/
def errorOf (v : Value) : Option String × String :=
  let e :=
    if isObject ((v.index "response").index "error") then (v.index "response").index "error"
    else if isObject (v.index "error") then v.index "error"
    else v
  ((e.index "code").asStr.or (e.index "type").asStr,
    (e.index "message").asStr.getD "the request failed")

/-- `ResponseStream`, with what its response is still to bring. -/
structure ResponseStream where
  /-- The buffer of the parser. -/
  buf : List UInt8
  done : Bool
  ended : Bool
  chunks : List (List UInt8)
  /-- The connection fails behind the chunks. -/
  broken : Bool
  /-- What was recorded for the account. -/
  recorded : List Record

/-- What `next` returns, and the reply. -/
abbrev Item : Type := Option (Except ChatGptError SseEvent)

/-- `handle`. -/
def handle (now : ℤ) (s : ResponseStream) (ev : SseEvent) : Item × ResponseStream :=
  if ev.kind = "response.completed" then
    let usage := (completedUsage ev.data).map fun u ↦ Record.usage u.1 u.2
    (some (.ok ev), { s with done := true, recorded := s.recorded ++ usage.toList })
  else if ev.kind = "response.failed" ∨ ev.kind = "error" then
    let failure := classify now none (errorOf ev.data).1 (errorOf ev.data).2 none
    (some (.error failure.1), { s with done := true, recorded := s.recorded ++ failure.2 })
  else if ev.kind = "response.incomplete" then (some (.ok ev), { s with done := true })
  else (some (.ok ev), s)

/-- The loop of `next`. -/
def advance (now : ℤ) (s : ResponseStream) : Item × ResponseStream :=
  match nextEvent f64 s.buf with
  | (some ev, rest) => handle now { s with buf := rest } ev
  | (none, rest) =>
    if s.ended then
      match parseEvent f64 rest with
      | some ev => handle now { s with buf := [] } ev
      | none =>
        (some (.error (.api none none "the stream ended before response.completed")),
          { s with buf := [], done := true })
    else
      match _h : s.chunks with
      | bytes :: chunks => advance now { s with buf := rest ++ bytes, chunks := chunks }
      | [] =>
        if s.broken then (some (.error .network), { s with buf := rest, done := true })
        else advance now { s with buf := rest, ended := true }
termination_by s.chunks.length + if s.ended then 0 else 1
decreasing_by all_goals simp_all

/-- `next`. -/
def next (now : ℤ) (s : ResponseStream) : Item × ResponseStream :=
  if s.done then (none, s) else advance f64 now s

/-- The item that ends a reply. -/
def Terminal : Except ChatGptError SseEvent → Prop
  | .error _ => True
  | .ok ev => ev.kind = "response.completed" ∨ ev.kind = "response.incomplete"

/-- The bytes that are still to be read. -/
def ResponseStream.size (s : ResponseStream) : ℕ := s.buf.length + s.chunks.flatten.length

/-- A reply that goes on with an item: it is the last one, and at most one thing is recorded, or
there is less to read behind it. -/
def Yields (s : ResponseStream) (r : Item × ResponseStream) : Prop :=
  ∃ it, r.1 = some it ∧
    ((Terminal it ∧ r.2.done = true ∧ ∃ more, r.2.recorded = s.recorded ++ more ∧
        more.length ≤ 1) ∨
      (¬ Terminal it ∧ (∃ ev, it = .ok ev) ∧ r.2.done = s.done ∧ r.2.recorded = s.recorded ∧
        r.2.size < s.size))

theorem length_classify (now : ℤ) (status : Option ℕ) (code : Option String) (message : String)
    (retryAfterSecs : Option ℤ) :
    (classify now status code message retryAfterSecs).2.length ≤ 1 := by
  rw [classify]
  repeat' split
  all_goals simp

variable {s t : ResponseStream}

theorem handle_yields (now : ℤ) (ev : SseEvent) (hdone : t.done = s.done)
    (hrecorded : t.recorded = s.recorded) (hsize : t.size < s.size) :
    Yields s (handle now t ev) := by
  rw [handle, hrecorded]
  by_cases hcompleted : ev.kind = "response.completed"
  · rw [if_pos hcompleted]
    refine ⟨_, rfl, .inl ⟨.inl hcompleted, rfl, _, rfl, ?_⟩⟩
    cases completedUsage ev.data <;> simp
  rw [if_neg hcompleted]
  by_cases hfailed : ev.kind = "response.failed" ∨ ev.kind = "error"
  · rw [if_pos hfailed]
    exact ⟨_, rfl, .inl ⟨trivial, rfl, _, rfl, length_classify _ _ _ _ _⟩⟩
  rw [if_neg hfailed]
  by_cases hincomplete : ev.kind = "response.incomplete"
  · rw [if_pos hincomplete]
    exact ⟨_, rfl, .inl ⟨.inr hincomplete, rfl, [], (List.append_nil _).symm, Nat.zero_le 1⟩⟩
  · rw [if_neg hincomplete]
    exact ⟨_, rfl, .inr ⟨not_or.2 ⟨hcompleted, hincomplete⟩, ⟨ev, rfl⟩, hdone, hrecorded, hsize⟩⟩

theorem Yields.trans {r : Item × ResponseStream} (h : Yields t r) (hdone : t.done = s.done)
    (hrecorded : t.recorded = s.recorded) (hsize : t.size ≤ s.size) :
    Yields s r := by
  obtain ⟨it, hit, h⟩ := h
  rw [hdone, hrecorded] at h
  exact ⟨it, hit, h.imp_right fun ⟨hnot, hok, hdone, hrec, hlt⟩ ↦
    ⟨hnot, hok, hdone, hrec, hlt.trans_le hsize⟩⟩

/-- A reply goes on with the events that are there. -/
theorem advance_of_event (now : ℤ)
    (h : nextEvent f64 s.buf = (some ev, rest)) : Yields s (advance f64 now s) := by
  have hsize : ({ s with buf := rest } : ResponseStream).size < s.size :=
    Nat.add_lt_add_right (length_nextEvent f64 h) _
  rw [advance, h]
  exact handle_yields now ev rfl rfl hsize

/-- A reply whose response has ended goes on with what is left. -/
theorem advance_of_ended (now : ℤ) (h : s.ended) :
    Yields s (advance f64 now s) := by
  cases hnext : nextEvent f64 s.buf with
  | mk ev rest =>
    cases ev with
    | some ev => exact advance_of_event f64 now hnext
    | none =>
      rw [advance, hnext]
      dsimp only
      rw [if_pos h]
      cases hparse : parseEvent f64 rest with
      | none => exact ⟨_, rfl, .inl ⟨trivial, rfl, [], (List.append_nil _).symm, Nat.zero_le 1⟩⟩
      | some ev =>
        have hrest : 0 < rest.length := List.length_pos_of_ne_nil fun hnil ↦ by
          rw [hnil] at hparse
          cases hparse
        have hle := length_nextEvent_le f64 s.buf.length (le_refl s.buf.length)
        rw [hnext, Option.toList_none, List.length_nil, Nat.zero_add] at hle
        have hsize : ({ s with buf := [] } : ResponseStream).size < s.size :=
          Nat.add_lt_add_right (hrest.trans_le hle) _
        exact handle_yields now ev rfl rfl hsize

/-- Unless a reply goes on with what is there, it waits for more. -/
theorem advance_waits (now : ℤ) : Yields s (advance f64 now s) ∨ ¬ s.ended ∧
    ∃ rest, nextEvent f64 s.buf = (none, rest) ∧ rest.length ≤ s.buf.length := by
  by_cases hended : s.ended
  · exact .inl (advance_of_ended f64 now hended)
  cases hnext : nextEvent f64 s.buf with
  | mk ev rest =>
    have hle := length_nextEvent_le f64 s.buf.length (le_refl s.buf.length)
    rw [hnext] at hle
    cases ev with
    | some ev => exact .inl (advance_of_event f64 now hnext)
    | none => exact .inr ⟨hended, rest, rfl, (Nat.le_add_left _ _).trans hle⟩

/-- A reply that is not done goes on, after some of the chunks that are still to come. -/
theorem advance_yields (now : ℤ) (chunks : List (List UInt8))
    (hchunks : s.chunks = chunks) : Yields s (advance f64 now s) := by
  induction chunks generalizing s with
  | nil =>
    obtain h | ⟨hended, rest, hnext, hle⟩ := advance_waits f64 (s := s) now
    · exact h
    rw [advance, hnext]
    dsimp only
    rw [if_neg hended]
    split
    case h_1 h => rw [hchunks] at h; cases h
    case h_2 =>
      by_cases hbroken : s.broken
      · rw [if_pos hbroken]
        exact ⟨_, rfl, .inl ⟨trivial, rfl, [], (List.append_nil _).symm, Nat.zero_le 1⟩⟩
      · rw [if_neg hbroken]
        refine (advance_of_ended f64 now rfl).trans rfl rfl ?_
        exact Nat.add_le_add_right hle _
  | cons bytes chunks ih =>
    obtain h | ⟨hended, rest, hnext, hle⟩ := advance_waits f64 (s := s) now
    · exact h
    rw [advance, hnext]
    dsimp only
    rw [if_neg hended]
    split
    case h_1 bytes' chunks' h =>
      rw [hchunks] at h
      obtain ⟨rfl, rfl⟩ := List.cons.inj h
      refine Yields.trans (ih rfl) rfl rfl ?_
      -- The bytes of a chunk go to the buffer.
      simp only [ResponseStream.size, hchunks, List.flatten_cons, List.length_append]
      omega
    case h_2 h => rw [hchunks] at h; cases h

/-- The reply after calls of `next`, each with its time. -/
def after (now : ℕ → ℤ) (s : ResponseStream) : ℕ → ResponseStream
  | 0 => s
  | i + 1 => (next f64 (now i) (after now s i)).2

/-- What a call of `next` returns. -/
def item (now : ℕ → ℤ) (s : ResponseStream) (i : ℕ) : Item :=
  (next f64 (now i) (after f64 now s i)).1

/-- A response that is read: what it brings, and how it ends. -/
def start (chunks : List (List UInt8)) (broken : Bool) : ResponseStream :=
  ⟨[], false, false, chunks, broken, []⟩

theorem next_of_done {now : ℤ} (h : s.done = true) :
    next f64 now s = (none, s) := by
  rw [next, if_pos h]

theorem next_of_not_done {now : ℤ} (h : s.done = false) :
    Yields s (next f64 now s) := by
  rw [next, h, if_neg Bool.false_ne_true]
  exact advance_yields f64 now s.chunks rfl

theorem after_succ (now : ℕ → ℤ) (s : ResponseStream) (i : ℕ) :
    after f64 now s (i + 1) = after f64 (fun i ↦ now (i + 1)) (next f64 (now 0) s).2 i := by
  induction i with
  | zero => rfl
  | succ i ih => rw [after, ih, after]

theorem item_succ (now : ℕ → ℤ) (s : ResponseStream) (i : ℕ) :
    item f64 now s (i + 1) = item f64 (fun i ↦ now (i + 1)) (next f64 (now 0) s).2 i := by
  rw [item, after_succ, item]

/-- A reply that is done stays as it is. -/
theorem after_of_done (now : ℕ → ℤ) (h : s.done = true) (i : ℕ) :
    after f64 now s i = s := by
  induction i with
  | zero => rfl
  | succ i ih => rw [after, ih, next_of_done f64 h]

theorem item_of_done (now : ℕ → ℤ) (h : s.done = true) (i : ℕ) :
    item f64 now s i = none := by
  rw [item, after_of_done f64 now h, next_of_done f64 h]

/-- A reply has one item that ends it: events before it, and nothing behind it. At most one thing
is recorded. -/
def EndsOnce (now : ℕ → ℤ) (s : ResponseStream) : Prop :=
  (∃ n, (∀ i < n, ∃ ev, item f64 now s i = some (.ok ev) ∧ ¬ Terminal (.ok ev)) ∧
    (∃ it, item f64 now s n = some it ∧ Terminal it) ∧ ∀ i > n, item f64 now s i = none) ∧
  ∀ i, ∃ more, (after f64 now s i).recorded = s.recorded ++ more ∧ more.length ≤ 1

/-- A reply that is not done ends once: what is still to be read gets less with every event. -/
theorem ends_once (b : ℕ) : ∀ (now : ℕ → ℤ) {s : ResponseStream}, s.size < b → s.done = false →
    EndsOnce f64 now s := by
  induction b with
  | zero => exact fun _ _ h ↦ by cases h
  | succ b ih =>
    intro now s hsize hdone
    have hyields : Yields s (next f64 (now 0) s) := next_of_not_done f64 hdone
    obtain ⟨it, hit, ⟨hend, hdone', more, hmore, hlen⟩ | ⟨hnot, ⟨ev, rfl⟩, hdone', hrec, hlt⟩⟩ :=
      hyields
    · refine ⟨⟨0, fun _ h ↦ (by cases h), ⟨it, hit, hend⟩, fun i hi ↦ ?_⟩, fun i ↦ ?_⟩
      · obtain ⟨i, rfl⟩ := Nat.exists_eq_succ_of_ne_zero (Nat.pos_iff_ne_zero.1 hi)
        rw [Nat.succ_eq_add_one, item_succ, item_of_done f64 _ hdone']
      · cases i with
        | zero => exact ⟨[], (List.append_nil _).symm, Nat.zero_le 1⟩
        | succ i => exact ⟨more, by rw [after_succ, after_of_done f64 _ hdone', hmore], hlen⟩
    · obtain ⟨⟨n, hbefore, hat, hbehind⟩, hrecorded⟩ :=
        ih (fun i ↦ now (i + 1)) (hlt.trans_le (Nat.le_of_lt_succ hsize)) (hdone'.trans hdone)
      refine ⟨⟨n + 1, fun i hi ↦ ?_, ?_, fun i hi ↦ ?_⟩, fun i ↦ ?_⟩
      · cases i with
        | zero => exact ⟨ev, hit, hnot⟩
        | succ i =>
          rw [item_succ]
          exact hbefore i (Nat.lt_of_succ_lt_succ hi)
      · rw [item_succ]
        exact hat
      · obtain ⟨i, rfl⟩ := Nat.exists_eq_succ_of_ne_zero (Nat.ne_of_gt (Nat.zero_lt_of_lt hi))
        rw [Nat.succ_eq_add_one, item_succ]
        exact hbehind i (Nat.lt_of_succ_lt_succ hi)
      · cases i with
        | zero => exact ⟨[], (List.append_nil _).symm, Nat.zero_le 1⟩
        | succ i =>
          rw [after_succ, ← hrec]
          exact hrecorded i

/-- **What is read of a stream**, where no blank line with a carriage return stands alone behind a
line that ends without one: its events, if and only if each block keeps its data, and however it is
cut. And every reply ends once. -/
theorem reads_stream (s : Stream) :
    (apart s.tail false s.lines →
      ((∀ uses, pushed uses = s.bytes → handed f64 uses = s.events f64) ↔
        ∀ texts ∈ s.blocks, KeepsData f64 texts)) ∧
    (∀ uses uses', pushed uses = s.bytes → pushed uses' = s.bytes →
      handed f64 uses = handed f64 uses') ∧
    ∀ (now : ℕ → ℤ) (chunks : List (List UInt8)) (broken : Bool),
      EndsOnce f64 now (start chunks broken) := by
  refine ⟨fun h ↦ ?_, fun uses uses' h h' ↦ ?_, fun now chunks broken ↦ ?_⟩
  · rw [← whole_eq_events_iff f64 h]
    constructor
    · intro hall
      have hone := hall [.push s.bytes] (List.append_nil _)
      rwa [handed_eq_whole, pushed, pushed, List.append_nil] at hone
    · intro hwhole uses huses
      rw [handed_eq_whole, huses, hwhole]
  · rw [handed_eq_whole, handed_eq_whole, h, h']
  · exact ends_once f64 _ now (Nat.lt_succ_self _) rfl

/-- The lines `data: a` and `data: b`, each with a blank line behind it; the first blank line may
have a carriage return. -/
def two (crlf : Bool) : Stream where
  lines :=
    [⟨[100, 97, 116, 97, 58, 32, 97], false, by decide⟩, ⟨[], crlf, by decide⟩,
      ⟨[100, 97, 116, 97, 58, 32, 98], false, by decide⟩, ⟨[], false, by decide⟩]
  tail := []
  cr := false
  plain := by decide

theorem reads_stream_two :
    handed (fun _ ↦ none) [.push (two false).bytes] = (two false).events fun _ ↦ none :=
  ((reads_stream (fun _ ↦ none) (two false)).1 (by decide)).2 (by decide +kernel) _
    (List.append_nil _)

/-- Two events become one. -/
theorem not_reads_stream :
    ¬ ∀ (uses : List Use), pushed uses = (two true).bytes →
      handed (fun _ ↦ none) uses = (two true).events fun _ ↦ none := by
  intro h
  have hall := h [.push (two true).bytes] (List.append_nil _)
  rw [handed_eq_whole, pushed, pushed, List.append_nil, whole_bytes] at hall
  have hlen := congrArg List.length hall
  revert hlen
  decide +kernel

end Ember.Server.Responses
