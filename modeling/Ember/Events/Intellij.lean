import Ember.Events.Server

/-!
# The event stream of the IntelliJ plugin

`protocol/SseParser.kt` and `manager/EventStream.kt`. The lines come from `BufferedReader.readLine`,
so at the end of a stream a line comes without its line end; the parser keeps an id as soon as its
line was read, and the stream goes on behind the id that the parser keeps.

`lawful` is what `Client.Lawful` asks, for connections that end when the last line with an id
belongs to a message that was handed on (`Leaves`).
-/

namespace Ember.Events.Intellij

open EventStream

/-- `SseParser`. -/
structure SseParser where
  data : List Char
  event : List Char
  id : Option (List Char)
  hasData : Bool
  lastEventId : Option (List Char)
  retryMillis : Option ℤ
  deriving DecidableEq

/-- `toLongOrNull`, of ASCII digits. -/
def toLongOrNull (t : List Char) : Option ℤ :=
  let negative := t.head? = some '-'
  let digits := if negative ∨ t.head? = some '+' then t.drop 1 else t
  match digits? digits with
  | none => none
  | some n =>
    if negative then (if n ≤ 9223372036854775808 then some (-n) else none)
    else if n ≤ 9223372036854775807 then some n else none

namespace SseParser

/-- A new parser. -/
def new : SseParser := ⟨[], [], none, false, none, none⟩

/-- `reset`. -/
def reset (p : SseParser) : SseParser :=
  { p with data := [], event := [], id := none, hasData := false }

/-- `dispatch`, and the message for `onMessage`. -/
def dispatch (p : SseParser) : List Message × SseParser :=
  if !p.hasData then ([], { p with event := [], id := none })
  else ([⟨p.id, if p.event = [] then "message".toList else p.event, p.data⟩], p.reset)

/-- `feed`. -/
def feed (p : SseParser) (line : List Char) : List Message × SseParser :=
  if line = [] then p.dispatch
  else
    match field line with
    | none => ([], p)
    | some (name, value) =>
      if name = "data".toList then
        ([], { p with
          data := (if p.hasData then p.data ++ ['\n'] else p.data) ++ value, hasData := true })
      else if name = "event".toList then ([], { p with event := value })
      else if name = "id".toList then
        if '\x00' ∈ value then ([], p)
        else ([], { p with id := some value, lastEventId := some value })
      else if name = "retry".toList then
        ([], { p with retryMillis := (toLongOrNull value).or p.retryMillis })
      else ([], p)

end SseParser

/-- `EventStream`, and what `onEvent` was called with. -/
structure Stream (J : Type) where
  since : ℕ
  lastEventId : Option (List Char)
  parser : SseParser
  /-- What the `InputStreamReader` keeps. -/
  held : List UInt8
  reader : LineReader
  handed : List (Handed J)

namespace Stream

variable {J : Type}

/-- `dispatch`. -/
def dispatch (json : Json J) (msg : Message) : Handed J :=
  ⟨msg.id.bind toLongOrNull, msg.event,
    ((json.parse msg.data).filter json.isObject).getD json.empty⟩

/-- A line that was read. -/
def feedLine (json : Json J) (s : Stream J) (line : List Char) : Stream J :=
  let out := s.parser.feed line
  { s with
    parser := out.2
    lastEventId := out.2.lastEventId.or s.lastEventId
    handed := s.handed ++ out.1.map (dispatch json) }

/-- What arrives. -/
def reads (json : Json J) (s : Stream J) (bytes : List UInt8) : Stream J :=
  let text := decodeUtf8 s.held bytes
  let out := transduce LineReader.read s.reader text.1
  out.1.foldl (feedLine json) { s with held := text.2, reader := out.2 }

/-- The end: `readLine` returns what is there of a line, unless it fails. -/
def cut (json : Json J) (s : Stream J) : Ending → Stream J
  | .failed => s
  | .eof =>
    let line := s.reader.cur ++ if s.held = [] then [] else ['\uFFFD']
    if line = [] then s else s.feedLine json line

end Stream

/-- `EventStream` as a client. -/
def client {J : Type} (json : Json J) : Client (Stream J) J where
  new n := ⟨n, none, .new, [], .start, []⟩
  asks s :=
    match s.lastEventId with
    | none => some s.since
    | some id => digits? id
  opened s := { s with parser := .new, held := [], reader := .start }
  reads := Stream.reads json
  cut := Stream.cut json
  handed := Stream.handed

/-- The id in a line. -/
def idOf (line : List Char) : Option (List Char) :=
  match field line with
  | none => none
  | some (name, value) => if name = "id".toList ∧ '\x00' ∉ value then some value else none

/-- The lines that are fed to the parser on a connection. -/
def fed (bs : List UInt8) (ending : Ending) : List (List Char) :=
  let text := decodeUtf8 [] bs
  let out := transduce LineReader.read .start text.1
  let line := out.2.cur ++ if text.2 = [] then [] else ['\uFFFD']
  out.1 ++ if ending = .failed ∨ line = [] then [] else [line]

/-- **The last line with an id belongs to a message that was handed on**, or there is none. -/
def Leaves (bs : List UInt8) (ending : Ending) : Prop :=
  ((fed bs ending).filterMap idOf).getLast? =
    ((transduce Block.read .start (fed bs ending)).1.filterMap (·.id)).getLast?

instance (bs : List UInt8) (ending : Ending) : Decidable (Leaves bs ending) :=
  inferInstanceAs (Decidable (_ = _))

/-! ### The parser -/

namespace SseParser

variable {p : SseParser} {b : Block}

/-- The fields of the parser are those of a block. -/
structure Reads (p : SseParser) (b : Block) : Prop where
  data : p.data = ['\n'].intercalate b.data
  hasData : p.hasData = decide (b.data ≠ [])
  event : p.event = b.event
  id : p.id = b.id

theorem Reads.reset (p : SseParser) : Reads p.reset .start := ⟨rfl, rfl, rfl, rfl⟩

/-- One more line of data. -/
theorem intercalate_concat (ls : List (List Char)) (l : List Char) :
    ['\n'].intercalate (ls ++ [l]) =
      (if ls = [] then [] else ['\n'].intercalate ls ++ ['\n']) ++ l := by
  induction ls with
  | nil => simp
  | cons x ls ih =>
    cases ls with
    | nil => simp [List.intercalate]
    | cons y ls =>
      simp only [List.cons_append] at ih ⊢
      rw [List.intercalate_cons_cons, ih, List.intercalate_cons_cons]
      simp

theorem Reads.feed (h : Reads p b) (l : List Char) :
    (p.feed l).1 = (b.read l).1 ∧ Reads (p.feed l).2 (b.read l).2 := by
  obtain ⟨hdata, hhas, hevent, hid⟩ := h
  rw [SseParser.feed, Block.read]
  split
  · -- the end of a message
    rw [dispatch, Block.message, hhas]
    by_cases hb : b.data = []
    · rw [hb] at hdata hhas
      rw [if_pos (by simp [hb]), if_pos hb]
      exact ⟨rfl, hdata, by simp [hb, Block.start], rfl, rfl⟩
    · rw [if_neg (by simp [hb]), if_neg hb, hdata, hid, hevent]
      exact ⟨rfl, Reads.reset p⟩
  · cases field l with
    | none => exact ⟨rfl, hdata, hhas, hevent, hid⟩
    | some f =>
      simp only [Block.set]
      split
      · refine ⟨rfl, ?_, by simp, hevent, hid⟩
        simp only [intercalate_concat, hdata, hhas]
        by_cases hb : b.data = [] <;> simp [hb]
      split
      · exact ⟨rfl, hdata, hhas, rfl, hid⟩
      split
      · next hname =>
        split
        · next hnul =>
          rw [if_neg fun h ↦ h.2 hnul]
          exact ⟨rfl, hdata, hhas, hevent, hid⟩
        · next hnul =>
          rw [if_pos ⟨hname, hnul⟩]
          exact ⟨rfl, hdata, hhas, hevent, rfl⟩
      · next hname =>
        have hno : ¬ (f.1 = "id".toList ∧ '\x00' ∉ f.2) := fun h ↦ hname h.1
        rw [if_neg hno]
        split
        · exact ⟨rfl, hdata, hhas, hevent, hid⟩
        · exact ⟨rfl, hdata, hhas, hevent, hid⟩

/-- The id is kept as soon as its line was read. -/
theorem lastEventId_feed (p : SseParser) (l : List Char) :
    (p.feed l).2.lastEventId = (idOf l).or p.lastEventId := by
  rw [SseParser.feed, idOf]
  split
  · next hl =>
    rw [hl, dispatch]
    split <;> rfl
  · cases field l with
    | none => rfl
    | some f =>
      simp only
      by_cases hid : f.1 = "id".toList ∧ '\x00' ∉ f.2
      · have hdata : f.1 ≠ "data".toList := by
          rw [hid.1]
          decide
        have hevent : f.1 ≠ "event".toList := by
          rw [hid.1]
          decide
        rw [if_neg hdata, if_neg hevent, if_pos hid.1, if_neg hid.2, if_pos hid]
        rfl
      · rw [if_neg hid]
        split
        · rfl
        split
        · rfl
        split
        · next hname =>
          rw [if_pos (by_contra fun hnul ↦ hid ⟨hname, hnul⟩)]
          rfl
        split <;> rfl

end SseParser

/-! ### One connection -/

variable {J : Type} {json : Json J} {s : Stream J}

theorem getLast?_append_toList {α : Type} (l : List α) (x : Option α) :
    (l ++ x.toList).getLast? = x.or l.getLast? := by
  cases x with
  | none => rw [Option.toList_none, List.append_nil, Option.none_or]
  | some a => rw [Option.toList_some, List.getLast?_concat, Option.some_or]

theorem or_or_or {α : Type} (x a y : Option α) : (x.or a).or (a.or y) = (x.or a).or y := by
  cases x <;> cases a <;> rfl

namespace Stream

/-- The lines that were read on a connection. -/
theorem foldl_feedLine (json : Json J) (s : Stream J) (hs : s.parser = .new)
    (ls : List (List Char)) :
    ∃ p, SseParser.Reads p (transduce Block.read .start ls).2 ∧
      p.lastEventId = (ls.filterMap idOf).getLast? ∧
      ls.foldl (feedLine json) s = { s with
        parser := p
        lastEventId := (ls.filterMap idOf).getLast?.or s.lastEventId
        handed := s.handed ++ (transduce Block.read .start ls).1.map (dispatch json) } := by
  induction ls using List.reverseRecOn with
  | nil =>
    refine ⟨.new, ⟨rfl, rfl, rfl, rfl⟩, rfl, ?_⟩
    rw [← hs]
    simp [transduce]
  | append_singleton ls l ih =>
    obtain ⟨p, hreads, hlast, hfold⟩ := ih
    obtain ⟨hout, hnext⟩ := hreads.feed l
    have hids : ((ls ++ [l]).filterMap idOf) = ls.filterMap idOf ++ (idOf l).toList := by
      rw [List.filterMap_append]
      cases h : idOf l <;> simp [h]
    have hp : (p.feed l).2.lastEventId = ((ls ++ [l]).filterMap idOf).getLast? := by
      rw [SseParser.lastEventId_feed, hlast, hids, getLast?_append_toList]
    refine ⟨(p.feed l).2, ?_, hp, ?_⟩
    · rw [transduce_concat]
      exact hnext
    · rw [List.foldl_append, hfold, List.foldl_cons, List.foldl_nil, feedLine]
      simp only [hp, hout, transduce_concat, List.map_append, List.append_assoc]
      rw [hids, getLast?_append_toList, or_or_or]

/-- `feedLine` leaves the reader alone. -/
theorem foldl_feedLine_with (json : Json J) (s : Stream J) (held : List UInt8) (reader : LineReader)
    (ls : List (List Char)) :
    ls.foldl (feedLine json) { s with held := held, reader := reader } =
      { ls.foldl (feedLine json) s with held := held, reader := reader } := by
  induction ls generalizing s with
  | nil => rfl
  | cons l ls ih => exact ih (s.feedLine json l)

/-- The stream when bytes have been read on a connection. -/
def after (json : Json J) (s : Stream J) (bs : List UInt8) : Stream J :=
  let text := decodeUtf8 [] bs
  let out := transduce LineReader.read .start text.1
  { out.1.foldl (feedLine json) { s with parser := .new } with held := text.2, reader := out.2 }

/-- **Chunks do not matter.** -/
theorem reads_after (json : Json J) (s : Stream J) (bs bs' : List UInt8) :
    (s.after json bs).reads json bs' = s.after json (bs ++ bs') := by
  simp only [Stream.reads, Stream.after, decodeUtf8]
  rw [transduce_append decodeByte]
  simp only
  rw [transduce_append LineReader.read, List.foldl_append, foldl_feedLine_with]

end Stream

theorem reads_opened (json : Json J) (s : Stream J) (bs : List UInt8) :
    (client json).reads ((client json).opened s) bs = s.after json bs :=
  Stream.reads_after json s [] bs

/-- The end of a connection feeds what is there of a line. -/
theorem cut_after (json : Json J) (s : Stream J) (bs : List UInt8) (ending : Ending) :
    ∃ held reader, (s.after json bs).cut json ending =
      { (fed bs ending).foldl (Stream.feedLine json) { s with parser := .new } with
        held := held, reader := reader } := by
  simp only [Stream.after, fed]
  generalize transduce LineReader.read .start (decodeUtf8 [] bs).1 = out
  refine ⟨(decodeUtf8 [] bs).2, out.2, ?_⟩
  cases ending with
  | failed =>
    rw [if_pos (.inl rfl), List.append_nil]
    rfl
  | eof =>
    rw [Stream.cut]
    simp only
    generalize out.2.cur ++ (if (decodeUtf8 [] bs).2 = [] then [] else ['\uFFFD']) = line
    by_cases hline : line = []
    · rw [if_pos hline, if_pos (.inr hline), List.append_nil]
    · rw [if_neg hline, if_neg fun h ↦ hline (h.resolve_left (by decide)), List.foldl_append]
      rfl

/-- A part of a line hands no message on. -/
theorem messages_fed (bs : List UInt8) (ending : Ending) :
    (transduce Block.read .start (fed bs ending)).1 = messagesOf (decodeUtf8 [] bs).1 := by
  rw [fed]
  generalize (transduce LineReader.read .start (decodeUtf8 [] bs).1).2.cur ++
    (if (decodeUtf8 [] bs).2 = [] then [] else ['\uFFFD']) = line
  by_cases h : ending = .failed ∨ line = []
  · rw [if_pos h, List.append_nil]
    rfl
  · rw [if_neg h, transduce_concat, Block.read, if_neg fun h' ↦ h (.inr h')]
    cases field line with
    | none | some => exact List.append_nil _

variable {es : List (KernelEvent J)} {ms : List Message}

/-- The numbers of the messages. -/
theorem ids_of_forall₂
    (h : List.Forall₂ (fun m e ↦ e.SpelledBy json m) (ms.filter (·.id.isSome)) es) :
    (ms.filterMap (·.id)).map digits? = es.map fun e ↦ some e.seq := by
  induction ms generalizing es with
  | nil =>
    cases h
    rfl
  | cons m ms ih =>
    cases hid : m.id with
    | none =>
      rw [List.filter_cons_of_neg (by rw [hid]; exact Bool.false_ne_true)] at h
      rw [List.filterMap_cons_none hid]
      exact ih h
    | some id =>
      rw [List.filter_cons_of_pos (by rw [hid]; rfl)] at h
      cases h with
      | @cons _ e _ es hm h =>
        have hdigits := hm.id
        rw [hid, Option.bind_some] at hdigits
        rw [List.filterMap_cons_some hid, List.map_cons, List.map_cons, hdigits, ih h]

theorem toLongOrNull_of_digits? {t : List Char} {n : ℕ} (h : digits? t = some n)
    (hn : n ≤ 9223372036854775807) : toLongOrNull t = some (n : ℤ) := by
  have hdigits : t.all Char.isDigit = true := by
    rw [digits?] at h
    split at h
    · next hall => exact hall.2
    · cases h
  have hsign : ∀ c : Char, c.isDigit = false → t.head? ≠ some c := fun c hc hhead ↦ by
    obtain ⟨u, rfl⟩ := List.head?_eq_some_iff.1 hhead
    rw [List.all_cons, hc, Bool.false_and] at hdigits
    cases hdigits
  have hminus := hsign '-' (by decide)
  have hplus := hsign '+' (by decide)
  rw [toLongOrNull]
  simp only [hminus, hplus, or_self, if_false, h, hn, if_true]

/-- The events of the messages are handed on. -/
theorem withSeq_dispatch
    (h : List.Forall₂ (fun m e ↦ e.SpelledBy json m) (ms.filter (·.id.isSome)) es)
    (hes : ∀ e ∈ es, e.seq ≤ 9223372036854775807) :
    withSeq (ms.map (Stream.dispatch json)) = es.map KernelEvent.handed := by
  induction ms generalizing es with
  | nil =>
    cases h
    rfl
  | cons m ms ih =>
    cases hid : m.id with
    | none =>
      rw [List.filter_cons_of_neg (by rw [hid]; exact Bool.false_ne_true)] at h
      rw [List.map_cons, withSeq, List.filter_cons_of_neg]
      · exact ih h hes
      · rw [Stream.dispatch, hid]
        exact Bool.false_ne_true
    | some id =>
      rw [List.filter_cons_of_pos (by rw [hid]; rfl)] at h
      cases h with
      | @cons _ e _ es hm h =>
        have hdigits := hm.id
        rw [hid, Option.bind_some] at hdigits
        have hlong := toLongOrNull_of_digits? hdigits (hes e List.mem_cons_self)
        have hone : Stream.dispatch json m = e.handed := by
          rw [Stream.dispatch, hid, Option.bind_some, hlong, hm.event, hm.data,
            Option.filter_some, if_pos hm.isObject]
          rfl
        rw [List.map_cons, hone, withSeq, List.filter_cons_of_pos rfl, List.map_cons]
        exact congrArg _ (ih h fun x hx ↦ hes x (List.mem_cons_of_mem _ hx))

/-- The stream goes on behind the id of the last message. -/
theorem asks_or {n : ℕ} (hn : (client json).asks s = some n) {ids : List (List Char)}
    (h : ids.map digits? = es.map fun e ↦ some e.seq)
    (held : List UInt8) (reader : LineReader) (p : SseParser) (handed : List (Handed J)) :
    (client json).asks ⟨s.since, ids.getLast?.or s.lastEventId, p, held, reader, handed⟩ =
      some (resumeAt n es) := by
  have hlast := congrArg List.getLast? h
  rw [List.getLast?_map, List.getLast?_map] at hlast
  cases hids : ids.getLast? with
  | none =>
    rw [hids, Option.map_none] at hlast
    rw [resumeAt, Option.map_eq_none_iff.1 hlast.symm, Option.none_or]
    exact hn
  | some id =>
    rw [hids, Option.map_some] at hlast
    obtain ⟨e, he, hid⟩ := Option.map_eq_some_iff.1 hlast.symm
    rw [resumeAt, he, Option.some_or]
    exact hid.symm

/-- **The plugin does what `Client.Lawful` asks**, for numbers that a `Long` holds and connections
that leave it right. -/
theorem lawful (json : Json J) :
    (client json).Lawful json (· ≤ 9223372036854775807) Leaves where
  asks_new _ := rfl
  handed_new _ := rfl
  reads_nil _ := rfl
  reads_append s bs bs' := by
    rw [reads_opened, reads_opened]
    exact Stream.reads_after json s bs bs'
  reads {s n t es bs} hn hbrings hsorted hes hbs := by
    obtain ⟨j, hj, hspelled, hall⟩ := hbrings.take (messagesOf_mono (decodeUtf8_isPrefix hbs))
    have hout := withSeq_dispatch hspelled fun e he ↦ (hes e (List.mem_of_mem_take he)).2
    have hafter : withSeq ((client json).handed ((client json).reads ((client json).opened s) bs)) =
        withSeq ((client json).handed s) ++ (es.take j).map KernelEvent.handed := by
      obtain ⟨p, -, -, hfold⟩ := Stream.foldl_feedLine json { s with parser := .new } rfl
        (linesOf (decodeUtf8 [] bs).1)
      have hhanded : (s.after json bs).handed =
          s.handed ++ (messagesOf (decodeUtf8 [] bs).1).map (Stream.dispatch json) :=
        congrArg Stream.handed hfold
      rw [reads_opened]
      show withSeq (s.after json bs).handed = _
      rw [hhanded, withSeq, List.filter_append]
      exact congrArg _ hout
    refine ⟨j, hj, hafter, fun hbytes _ ↦ hall ?_, fun ending hleaves ↦ ?_⟩
    · rw [hbytes]
      exact congrArg messagesOf (congrArg Prod.fst (decodeUtf8_text t))
    · obtain ⟨held, reader, hcut⟩ := cut_after json s bs ending
      obtain ⟨p, -, -, hfold⟩ := Stream.foldl_feedLine json { s with parser := .new } rfl
        (fed bs ending)
      rw [hfold, messages_fed] at hcut
      rw [Leaves, messages_fed] at hleaves
      refine ⟨?_, ?_⟩
      · rw [hafter, reads_opened]
        show withSeq ((s.after json bs).cut json ending).handed = _
        rw [hcut, withSeq, List.filter_append]
        exact congrArg _ hout
      · rw [reads_opened]
        show (client json).asks ((s.after json bs).cut json ending) = _
        rw [hcut, hleaves]
        exact asks_or hn (ids_of_forall₂ hspelled) held reader p _

end Ember.Events.Intellij
