import Ember.Events.Server
import Mathlib.Algebra.Ring.Nat

/-!
# The event stream of the VS Code extension

`manager/sse.ts`. `SseParser` buffers the text that has arrived and takes lines from the front of
it; a carriage return at the very end stays, as it may be the first half of a line end.
`EventStream` hands on the events of the messages, keeps the number of the last one, and drops what
is not behind it.

`lawful` is what `Client.Lawful` asks. Two steps lead there: the buffer is that of a reader of
single letters (`push_eq`), so chunks do not matter, and the fields are those of a block
(`SseParser.Reads`).
-/

namespace Ember.Events.Vscode

open EventStream

/-- `SseParser`. -/
structure SseParser where
  buf : List Char
  data : List (List Char)
  event : List Char
  id : Option (List Char)
  sawId : Bool
  deriving DecidableEq

/-- The line in front of the buffer and what is behind it, by `/\r\n|\r|\n/`. -/
def splitLine : List Char → Option (List Char × List Char)
  | [] => none
  | c :: t =>
    if c = '\n' then some ([], t)
    else if c = '\r' then
      -- At the very end it may be the first half of a line end.
      if t = [] then none else some ([], if t.head? = some '\n' then t.drop 1 else t)
    else (splitLine t).map fun r ↦ (c :: r.1, r.2)

namespace SseParser

/-- A new parser. -/
def new : SseParser := ⟨[], [], [], none, false⟩

/-- `line`. -/
def line (p : SseParser) (line : List Char) : Option Message × SseParser :=
  if line = [] then
    if p.data.length = 0 then (none, { p with event := [], sawId := false })
    else
      (some ⟨if p.sawId then p.id else none, if p.event = [] then "message".toList else p.event,
          ['\n'].intercalate p.data⟩,
        { p with data := [], event := [], sawId := false })
  else
    match field line with
    | none => (none, p)
    | some (name, value) =>
      if name = "data".toList then (none, { p with data := p.data ++ [value] })
      else if name = "event".toList then (none, { p with event := value })
      else if name = "id".toList then
        if '\x00' ∈ value then (none, p) else (none, { p with id := some value, sawId := true })
      else (none, p)

/-- The loop of `push`, at most `fuel` times. -/
def loop : ℕ → SseParser → List Message × SseParser
  | 0, p => ([], p)
  | fuel + 1, p =>
    match splitLine p.buf with
    | none => ([], p)
    | some (line, rest) =>
      let msg := { p with buf := rest }.line line
      let out := loop fuel msg.2
      (msg.1.toList ++ out.1, out.2)

/-- `push`. Each line takes something from the buffer. -/
def push (p : SseParser) (chunk : List Char) : List Message × SseParser :=
  loop (p.buf ++ chunk).length { p with buf := p.buf ++ chunk }

end SseParser

/-- A number as JavaScript has it: a `Double` keeps 53 bits, and halves go to the even one. -/
def number (n : ℕ) : ℕ :=
  let drop := n.log2 - 52
  let q := n / 2 ^ drop
  let r := n % 2 ^ drop
  if 2 ^ drop < 2 * r ∨ 2 ^ drop = 2 * r ∧ q % 2 = 1 then (q + 1) * 2 ^ drop else q * 2 ^ drop

/-- `toKernelEvent`. -/
def toKernelEvent {J : Type} (json : Json J) (msg : Message) : Option (Option ℕ × List Char × J) :=
  let data := if msg.data = [] then some json.empty else json.parse msg.data
  data.map fun data ↦ ((msg.id.bind digits?).map number, msg.event, data)

/-- `EventStream`, and what `onEvent` was called with. -/
structure Stream (J : Type) where
  lastSeq : Option ℕ
  parser : SseParser
  /-- What the `TextDecoder` keeps. -/
  held : List UInt8
  handed : List (Handed J)

namespace Stream

variable {J : Type}

/-- What `once` does with a message. -/
def take (json : Json J) (s : Stream J) (msg : Message) : Stream J :=
  match toKernelEvent json msg with
  | none => s
  | some (none, type, data) => { s with handed := s.handed ++ [⟨none, type, data⟩] }
  | some (some seq, type, data) =>
    if ∃ last ∈ s.lastSeq, seq ≤ last then s
    else { s with lastSeq := some seq, handed := s.handed ++ [⟨some seq, type, data⟩] }

/-- A chunk. -/
def reads (json : Json J) (s : Stream J) (value : List UInt8) : Stream J :=
  let text := decodeUtf8 s.held value
  let out := s.parser.push text.1
  out.1.foldl (take json) { s with parser := out.2, held := text.2 }

end Stream

/-- `EventStream` as a client. -/
def client {J : Type} (json : Json J) : Client (Stream J) J where
  new n := ⟨some n, .new, [], []⟩
  asks := Stream.lastSeq
  opened s := { s with parser := .new, held := [] }
  reads := Stream.reads json
  cut s _ := s
  handed := Stream.handed

/-! ### The buffer -/

/-- The buffer of a reader. -/
def bufferOf (r : WaitingReader) : List Char := r.cur ++ if r.cr then ['\r'] else []

/-- There is no line end in a line. -/
def Plain (r : WaitingReader) : Prop := '\n' ∉ r.cur ∧ '\r' ∉ r.cur

variable {r : WaitingReader}

theorem plain_read (h : Plain r) (c : Char) : Plain (r.read c).2 := by
  have hnil : Plain ⟨[], false⟩ := ⟨List.not_mem_nil, List.not_mem_nil⟩
  have hcr : Plain ⟨[], true⟩ := ⟨List.not_mem_nil, List.not_mem_nil⟩
  have hone : c ≠ '\n' → c ≠ '\r' → ∀ {l : List Char}, '\n' ∉ l ∧ '\r' ∉ l → ∀ b,
      Plain ⟨l ++ [c], b⟩ := fun hlf hcr l hl b ↦
    ⟨by simp [hl.1, hlf.symm], by simp [hl.2, hcr.symm]⟩
  rw [WaitingReader.read]
  split
  · split
    · exact hnil
    · split
      · exact hcr
      · next hlf hcr => exact hone hlf hcr (l := []) hnil false
  · split
    · exact hnil
    · split
      · exact h
      · next hlf hcr => exact hone hlf hcr h false

theorem splitLine_append {l : List Char} (hl : '\n' ∉ l ∧ '\r' ∉ l) (t : List Char) :
    splitLine (l ++ t) = (splitLine t).map fun r ↦ (l ++ r.1, r.2) := by
  induction l with
  | nil => simp
  | cons c l ih =>
    have hlf : c ≠ '\n' := fun h ↦ hl.1 (h ▸ List.mem_cons_self)
    have hcr : c ≠ '\r' := fun h ↦ hl.2 (h ▸ List.mem_cons_self)
    rw [List.cons_append, splitLine, if_neg hlf, if_neg hcr,
      ih ⟨fun h ↦ hl.1 (List.mem_cons_of_mem _ h), fun h ↦ hl.2 (List.mem_cons_of_mem _ h)⟩,
      Option.map_map]
    rfl

theorem splitLine_bufferOf (h : Plain r) : splitLine (bufferOf r) = none := by
  rw [bufferOf, splitLine_append h]
  cases r.cr <;> rfl

/-- One more letter: either no line is there yet, or the line that the reader gives is in front. -/
theorem splitLine_read (h : Plain r) (c : Char) (t : List Char) :
    (r.read c).1 = [] ∧ bufferOf r ++ c :: t = bufferOf (r.read c).2 ++ t ∨
      (r.read c).1 = [r.cur] ∧
        splitLine (bufferOf r ++ c :: t) = some (r.cur, bufferOf (r.read c).2 ++ t) := by
  have hsplit : splitLine (bufferOf r ++ c :: t) =
      (splitLine ((if r.cr then ['\r'] else []) ++ c :: t)).map fun x ↦ (r.cur ++ x.1, x.2) := by
    rw [bufferOf, List.append_assoc, splitLine_append h]
  obtain ⟨cur, cr⟩ := r
  rcases eq_or_ne c '\n' with rfl | hlf
  · refine .inr ?_
    cases cr <;> exact ⟨rfl, by rw [hsplit]; simp [splitLine, WaitingReader.read, bufferOf]⟩
  rcases eq_or_ne c '\r' with rfl | hcr
  · cases cr with
    | false => exact .inl ⟨rfl, by simp [WaitingReader.read, bufferOf]⟩
    | true => exact .inr ⟨rfl, by rw [hsplit]; simp [splitLine, WaitingReader.read, bufferOf]⟩
  · cases cr with
    | false => exact .inl ⟨by simp [WaitingReader.read, hlf, hcr],
        by simp [WaitingReader.read, bufferOf, hlf, hcr]⟩
    | true => exact .inr ⟨by simp [WaitingReader.read],
        by rw [hsplit]; simp [splitLine, WaitingReader.read, bufferOf, hlf, hcr]⟩

theorem length_splitLine {t line rest : List Char} (h : splitLine t = some (line, rest)) :
    rest.length < t.length := by
  induction t generalizing line with
  | nil => cases h
  | cons c t ih =>
    rw [splitLine] at h
    split at h
    · obtain rfl := (Prod.mk.inj (Option.some.inj h)).2
      exact Nat.lt_succ_self _
    split at h
    · split at h
      · cases h
      · obtain rfl := (Prod.mk.inj (Option.some.inj h)).2
        split
        · rw [List.length_drop, List.length_cons]
          omega
        · exact Nat.lt_succ_self _
    · obtain ⟨⟨line', rest'⟩, hr, heq⟩ := Option.map_eq_some_iff.1 h
      obtain rfl : rest' = rest := (Prod.mk.inj heq).2
      exact (ih hr).trans (Nat.lt_succ_self _)

namespace SseParser

variable {p : SseParser} {b : Block}

/-- `line` as a transducer. -/
def lineOf (p : SseParser) (l : List Char) : List Message × SseParser :=
  ((p.line l).1.toList, (p.line l).2)

/-- The buffer plays no part in `line`. -/
theorem line_withBuf (p : SseParser) (buf l : List Char) :
    ({ p with buf := buf }.line l) = ((p.line l).1, { (p.line l).2 with buf := buf }) := by
  simp only [line]
  split
  · split <;> rfl
  · split
    · rfl
    · split
      · rfl
      · split
        · rfl
        · split
          · split <;> rfl
          · rfl

/-- **The loop is a reader of single letters.** -/
theorem loop_eq (hr : Plain r) (p : SseParser) (t : List Char) {fuel : ℕ}
    (hfuel : (bufferOf r ++ t).length ≤ fuel) :
    loop fuel { p with buf := bufferOf r ++ t } =
      ((transduce lineOf p (transduce WaitingReader.read r t).1).1,
        { (transduce lineOf p (transduce WaitingReader.read r t).1).2 with
          buf := bufferOf (transduce WaitingReader.read r t).2 }) := by
  induction t generalizing r p fuel with
  | nil =>
    rw [List.append_nil]
    cases fuel with
    | zero => rfl
    | succ fuel =>
      rw [loop, splitLine_bufferOf hr]
      rfl
  | cons c t ih =>
    rcases splitLine_read hr c t with ⟨hnone, hbuf⟩ | ⟨hline, hsplit⟩
    · rw [hbuf] at hfuel ⊢
      rw [ih (plain_read hr c) p hfuel]
      simp only [transduce, hnone, List.nil_append]
    · obtain ⟨fuel, rfl⟩ : ∃ n, fuel = n + 1 := ⟨fuel - 1, by
        rw [List.length_append, List.length_cons] at hfuel
        omega⟩
      have hlt := length_splitLine hsplit
      rw [loop, hsplit]
      simp only [line_withBuf, transduce, hline, List.singleton_append]
      rw [ih (plain_read hr c) (p.line r.cur).2 (by omega)]
      rfl

theorem push_eq (hr : Plain r) (p : SseParser) (t : List Char) :
    push { p with buf := bufferOf r } t =
      ((transduce lineOf p (transduce WaitingReader.read r t).1).1,
        { (transduce lineOf p (transduce WaitingReader.read r t).1).2 with
          buf := bufferOf (transduce WaitingReader.read r t).2 }) :=
  loop_eq hr p t le_rfl

/-- The fields of the parser are those of a block. -/
structure Reads (p : SseParser) (b : Block) : Prop where
  data : p.data = b.data
  event : p.event = b.event
  id : b.id = if p.sawId then p.id else none

theorem Reads.line (h : Reads p b) (l : List Char) :
    (p.lineOf l).1 = (b.read l).1 ∧ Reads (p.lineOf l).2 (b.read l).2 := by
  obtain ⟨data, event, id⟩ := b
  obtain ⟨rfl, rfl, hid⟩ := h
  simp only at hid
  simp only [lineOf, SseParser.line, Block.read]
  split
  · -- the end of a message
    simp only [Block.message, List.length_eq_zero_iff, hid]
    split
    · next hdata => exact ⟨rfl, hdata, rfl, rfl⟩
    · exact ⟨rfl, rfl, rfl, rfl⟩
  · cases field l with
    | none => exact ⟨rfl, rfl, rfl, hid⟩
    | some f =>
      simp only [Block.set]
      split
      · exact ⟨rfl, rfl, rfl, hid⟩
      split
      · exact ⟨rfl, rfl, rfl, hid⟩
      split
      · next hname =>
        split
        · next hnul =>
          rw [if_neg fun h ↦ h.2 hnul]
          exact ⟨rfl, rfl, rfl, hid⟩
        · next hnul =>
          rw [if_pos ⟨hname, hnul⟩]
          exact ⟨rfl, rfl, rfl, rfl⟩
      · next hname =>
        rw [if_neg fun h ↦ hname h.1]
        exact ⟨rfl, rfl, rfl, hid⟩

/-- **The messages of the parser are those of the text.** -/
theorem messages_eq (ls : List (List Char)) :
    (transduce lineOf new ls).1 = (transduce Block.read .start ls).1 :=
  (transduce_simulates (R := Reads) (fun _ _ l h ↦ h.line l) ⟨rfl, rfl, rfl⟩ ls).1

end SseParser

/-! ### One connection -/

variable {J : Type} {json : Json J} {s : Stream J}

namespace Stream

/-- `take` leaves the parser and the decoder alone. -/
theorem foldl_take_with (json : Json J) (s : Stream J) (p : SseParser) (held : List UInt8)
    (ms : List Message) :
    ms.foldl (take json) { s with parser := p, held := held } =
      { ms.foldl (take json) s with parser := p, held := held } := by
  induction ms generalizing s with
  | nil => rfl
  | cons m ms ih =>
    have hone : take json { s with parser := p, held := held } m =
        { take json s m with parser := p, held := held } := by
      simp only [take]
      split
      · rfl
      · rfl
      · split <;> rfl
    rw [List.foldl_cons, List.foldl_cons, hone, ih]

/-- The reader of a text, and the lines that it has given. -/
def lines (t : List Char) : List (List Char) := (transduce WaitingReader.read .start t).1

/-- The stream when bytes have been read on a connection. -/
def after (json : Json J) (s : Stream J) (bs : List UInt8) : Stream J :=
  let text := decodeUtf8 [] bs
  let out := transduce SseParser.lineOf .new (lines text.1)
  { out.1.foldl (take json) s with
    parser := { out.2 with buf := bufferOf (transduce WaitingReader.read .start text.1).2 }
    held := text.2 }

end Stream

theorem plain_transduce (t : List Char) : Plain (transduce WaitingReader.read .start t).2 := by
  induction t using List.reverseRecOn with
  | nil => exact ⟨List.not_mem_nil, List.not_mem_nil⟩
  | append_singleton t c ih =>
    rw [transduce_concat]
    exact plain_read ih c

/-- **Chunks do not matter.** -/
theorem reads_after (json : Json J) (s : Stream J) (bs bs' : List UInt8) :
    (s.after json bs).reads json bs' = s.after json (bs ++ bs') := by
  simp only [Stream.reads, Stream.after, Stream.lines, decodeUtf8]
  rw [SseParser.push_eq (plain_transduce _), transduce_append decodeByte]
  simp only
  rw [transduce_append WaitingReader.read]
  simp only
  rw [transduce_append SseParser.lineOf, List.foldl_append, Stream.foldl_take_with]

theorem reads_opened (json : Json J) (s : Stream J) (bs : List UInt8) :
    (client json).reads ((client json).opened s) bs = s.after json bs :=
  reads_after json s [] bs

/-- A message without a number is handed on or dropped, and no number is kept of it. -/
theorem take_of_none {m : Message} (hm : m.id = none) :
    withSeq (s.take json m).handed = withSeq s.handed ∧ (s.take json m).lastSeq = s.lastSeq := by
  have hseq : ∀ ev ∈ toKernelEvent json m, ev.1 = none := fun ev hev ↦ by
    obtain ⟨data, -, rfl⟩ := Option.map_eq_some_iff.1 hev
    rw [hm]
    rfl
  rw [Stream.take]
  split
  · exact ⟨rfl, rfl⟩
  · rw [withSeq, List.filter_append]
    exact ⟨List.append_nil _, rfl⟩
  · next heq => cases hseq _ heq

/-- The next event is handed on, and its number is kept. -/
theorem take_of_spelledBy {m : Message} {e : KernelEvent J} (hm : e.SpelledBy json m)
    (hnumber : number e.seq = e.seq) {n : ℕ} (hn : s.lastSeq = some n) (hlt : n < e.seq) :
    s.take json m = { s with lastSeq := some e.seq, handed := s.handed ++ [e.handed] } := by
  have hev : toKernelEvent json m = some (some e.seq, e.type, e.data) := by
    rw [toKernelEvent, if_neg hm.data_ne, hm.data, hm.id, hm.event, Option.map_some,
      Option.map_some, hnumber]
  have hbehind : ¬ ∃ last ∈ s.lastSeq, e.seq ≤ last := fun ⟨last, hlast, hle⟩ ↦ by
    obtain rfl : n = last := Option.some.inj (hn.symm.trans hlast)
    exact absurd hle (Nat.not_le.2 hlt)
  rw [Stream.take, hev]
  simp only
  rw [if_neg hbehind]
  rfl

/-- **The events of the messages are handed on**, and the number of the last one is kept. -/
theorem foldl_take {ms : List Message} {es : List (KernelEvent J)}
    (hms : List.Forall₂ (fun m e ↦ e.SpelledBy json m) (ms.filter (·.id.isSome)) es) {n : ℕ}
    (hn : s.lastSeq = some n) (hsorted : es.Pairwise (·.seq < ·.seq))
    (hes : ∀ e ∈ es, n < e.seq ∧ number e.seq = e.seq) :
    withSeq (ms.foldl (Stream.take json) s).handed = withSeq s.handed ++ es.map KernelEvent.handed ∧
      (ms.foldl (Stream.take json) s).lastSeq = some (resumeAt n es) := by
  induction ms generalizing s es n with
  | nil =>
    cases hms
    exact ⟨(List.append_nil _).symm, hn⟩
  | cons m ms ih =>
    cases hid : m.id with
    | none =>
      obtain ⟨hhanded, hlast⟩ : withSeq (s.take json m).handed = withSeq s.handed ∧
          (s.take json m).lastSeq = s.lastSeq := take_of_none hid
      rw [List.filter_cons_of_neg (by rw [hid]; exact Bool.false_ne_true)] at hms
      rw [List.foldl_cons, ← hhanded]
      exact ih hms (hlast.trans hn) hsorted hes
    | some id =>
      rw [List.filter_cons_of_pos (by rw [hid]; rfl)] at hms
      cases hms with
      | @cons _ e _ es hm hms =>
        obtain ⟨hlt, hnumber⟩ := hes e List.mem_cons_self
        obtain ⟨hlater, hsorted⟩ := List.pairwise_cons.1 hsorted
        rw [List.foldl_cons, take_of_spelledBy hm hnumber hn hlt]
        obtain ⟨hhanded, hlast⟩ := ih (s := { s with
            lastSeq := some e.seq, handed := s.handed ++ [e.handed] }) hms rfl hsorted
          fun x hx ↦ ⟨hlater x hx, (hes x (List.mem_cons_of_mem _ hx)).2⟩
        refine ⟨?_, ?_⟩
        · rw [hhanded, withSeq, List.filter_append, List.append_assoc]
          rfl
        · rw [hlast, ← List.singleton_append, ← resumeAt_append]
          rfl

/-- **The extension does what `Client.Lawful` asks**, for numbers that a `Double` holds. -/
theorem lawful (json : Json J) :
    (client json).Lawful json (fun n ↦ number n = n) (fun _ _ ↦ True) where
  asks_new _ := rfl
  handed_new _ := rfl
  reads_nil _ := rfl
  reads_append s bs bs' := by
    rw [reads_opened, reads_opened]
    exact reads_after json s bs bs'
  reads {s n t es bs} hn hbrings hsorted hes hbs := by
    have hlines := (linesOf_eq (decodeUtf8 [] bs).1).1
    have hpart : Stream.lines (decodeUtf8 [] bs).1 <+: linesOf t := by
      refine List.IsPrefix.trans ?_ (linesOf_mono (decodeUtf8_isPrefix hbs))
      rw [hlines]
      exact List.prefix_append _ _
    have hmessages : (transduce SseParser.lineOf .new (Stream.lines (decodeUtf8 [] bs).1)).1 =
        (transduce Block.read .start (Stream.lines (decodeUtf8 [] bs).1)).1 :=
      SseParser.messages_eq _
    have hmono : (transduce SseParser.lineOf .new (Stream.lines (decodeUtf8 [] bs).1)).1 <+:
        messagesOf t := by
      rw [hmessages]
      exact transduce_mono Block.read .start hpart
    obtain ⟨j, hj, hspelled, hall⟩ := hbrings.take hmono
    obtain ⟨hhanded, hlast⟩ := foldl_take (s := s) hspelled hn
      (hsorted.sublist (List.take_sublist j es)) fun e he ↦ hes e (List.mem_of_mem_take he)
    refine ⟨j, hj, ?_, fun hbytes hend ↦ hall ?_, fun _ _ ↦ ⟨rfl, ?_⟩⟩
    · rw [reads_opened]
      exact hhanded
    · have hdecode : (decodeUtf8 [] bs).1 = t := by
        rw [hbytes]
        exact congrArg Prod.fst (decodeUtf8_text t)
      rw [hdecode, waiting_eq_nil hend, List.append_nil] at hlines
      rw [hmessages, hdecode, Stream.lines, ← hlines]
      rfl
    · rw [reads_opened]
      exact hlast

end Ember.Events.Vscode
