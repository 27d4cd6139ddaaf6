import Ember.Foundation.EventStream
import Ember.Foundation.Runs
import Ember.Foundation.Utf8Stream
import Mathlib.Data.List.Forall2

/-!
# The events of a kernel

A manager numbers the events of a kernel, and an editor follows them over a connection that may be
cut at any byte. On a connection that was opened with a number the manager writes the events behind
it, in any spelling of an event stream, and comments and messages without a number between them; an
editor that opens another connection says the number it has kept.

What an editor does is a `Client`. `Client.Lawful` says of one connection what a client has to do,
and `handsOn_of_lawful` that this is enough for every run: each event is handed on once and in
order, wherever the connections were cut.
-/

namespace Ember.Events

open EventStream

/-- The reading of JSON, as both editors do it for texts that are objects. -/
structure Json (J : Type) where
  parse : List Char → Option J
  isObject : J → Bool
  /-- The object without fields. -/
  empty : J

/-- An event of the manager. -/
structure KernelEvent (J : Type) where
  seq : ℕ
  type : List Char
  data : J
  deriving DecidableEq

/-- What an editor is handed. -/
structure Handed (J : Type) where
  seq : Option ℤ
  type : List Char
  data : J
  deriving DecidableEq

/-- A connection: the number it was opened with, what the manager has written, and how many bytes of
it have arrived. -/
structure Conn where
  since : ℕ
  text : List Char
  got : ℕ

/-- How a connection ends: as if nothing was missing, or with an error. -/
inductive Ending
  | eof
  | failed
  deriving DecidableEq

/-- An editor that follows events. -/
structure Client (κ J : Type) where
  /-- It starts behind a number. -/
  new : ℕ → κ
  /-- The number it says when it opens a connection. -/
  asks : κ → Option ℕ
  opened : κ → κ
  reads : κ → List UInt8 → κ
  cut : κ → Ending → κ
  handed : κ → List (Handed J)

variable {κ J : Type}

/-- A number in decimal digits. -/
def digits? (t : List Char) : Option ℕ :=
  if t ≠ [] ∧ t.all Char.isDigit then some (t.foldl (fun n c ↦ 10 * n + (c.toNat - 48)) 0) else none

/-- The bytes of a text. -/
def bytesOf (t : List Char) : List UInt8 := t.flatMap String.utf8EncodeChar

namespace KernelEvent

/-- The event as it is handed on. -/
def handed (e : KernelEvent J) : Handed J := ⟨some e.seq, e.type, e.data⟩

/-- A message that brings the event. -/
structure SpelledBy (json : Json J) (e : KernelEvent J) (m : Message) : Prop where
  id : m.id.bind digits? = some e.seq
  event : m.event = e.type
  data_ne : m.data ≠ []
  data : json.parse m.data = some e.data
  isObject : json.isObject e.data = true

end KernelEvent

/-- The events behind a number. -/
def due (log : List (KernelEvent J)) (n : ℕ) : List (KernelEvent J) := log.filter (n < ·.seq)

/-- The messages of a text that have a number. -/
def numbered (t : List Char) : List Message := (messagesOf t).filter (·.id.isSome)

/-- A text brings events: its messages with a number are these. -/
structure Brings (json : Json J) (t : List Char) (es : List (KernelEvent J)) : Prop where
  /-- No byte order mark. -/
  noMark : t.head? ≠ some '\uFEFF'
  messages : List.Forall₂ (fun m e ↦ e.SpelledBy json m) (numbered t) es

/-- Where to go on behind events. -/
def resumeAt (n : ℕ) (es : List (KernelEvent J)) : ℕ := (es.getLast?.map (·.seq)).getD n

/-- The events among what was handed on: they have a number. -/
def withSeq (hs : List (Handed J)) : List (Handed J) := hs.filter (·.seq.isSome)

/-! ### Runs -/

/-- A manager and an editor. -/
structure World (κ J : Type) where
  log : List (KernelEvent J)
  conn : Option Conn
  client : κ

/-- What happens. -/
inductive Label (J : Type)
  | publish (e : KernelEvent J)
  | connect
  /-- The manager writes. -/
  | serve (t : List Char)
  /-- The next bytes arrive, in one chunk. -/
  | deliver (n : ℕ)
  | cut (ending : Ending)

/-- A step of the manager, the network or the editor. -/
inductive World.Step (json : Json J) (C : Client κ J) : World κ J → Label J → World κ J → Prop
  | publish {w e} : (∀ e' ∈ w.log, e'.seq < e.seq) →
      Step json C w (.publish e) { w with log := w.log ++ [e] }
  | connect {w n} : w.conn = none → C.asks w.client = some n →
      Step json C w .connect { w with conn := some ⟨n, [], 0⟩, client := C.opened w.client }
  | serve {w c t k} : w.conn = some c → Brings json (c.text ++ t) ((due w.log c.since).take k) →
      Step json C w (.serve t) { w with conn := some { c with text := c.text ++ t } }
  | deliver {w c n} : w.conn = some c → c.got + n ≤ (bytesOf c.text).length →
      Step json C w (.deliver n)
        { w with conn := some { c with got := c.got + n },
                 client := C.reads w.client (((bytesOf c.text).drop c.got).take n) }
  | cut {w c ending} : w.conn = some c →
      Step json C w (.cut ending) { w with conn := none, client := C.cut w.client ending }

/-- The runs of an editor that starts behind a number. -/
def system (json : Json J) (C : Client κ J) (since : ℕ) : StepSystem (World κ J) (Label J) where
  init w := w = ⟨[], none, C.new since⟩
  step := World.Step json C

/-- **Every event is handed on once and in order.** -/
structure HandsOn (C : Client κ J) (since : ℕ) (w : World κ J) : Prop where
  /-- What was handed on is the first events behind the number, and without a connection the editor
  goes on where they end. -/
  inOrder : ∃ k, withSeq (C.handed w.client) = ((due w.log since).take k).map KernelEvent.handed ∧
    (w.conn = none → C.asks w.client = some (resumeAt since ((due w.log since).take k)))
  /-- When all have been written and have arrived, all are handed on. (A carriage return at the end
  may be the first half of a line end.) -/
  all : ∀ c, w.conn = some c → (numbered c.text).length = (due w.log c.since).length →
    c.got = (bytesOf c.text).length → c.text.getLast? ≠ some '\r' →
    withSeq (C.handed w.client) = (due w.log since).map KernelEvent.handed

/-! ### One connection -/

/-- What a client has to do on one connection, for numbers it can hold, and for the endings of a
connection that leave it right. -/
structure Client.Lawful (json : Json J) (C : Client κ J) (Holds : ℕ → Prop)
    (Leaves : List UInt8 → Ending → Prop) : Prop where
  asks_new : ∀ n, C.asks (C.new n) = some n
  handed_new : ∀ n, C.handed (C.new n) = []
  /-- Chunks do not matter. -/
  reads_nil : ∀ s, C.reads (C.opened s) [] = C.opened s
  reads_append : ∀ s bs bs',
    C.reads (C.reads (C.opened s) bs) bs' = C.reads (C.opened s) (bs ++ bs')
  /-- It hands on the events that have arrived, and keeps the number of the last. -/
  reads : ∀ {s n t es bs}, C.asks s = some n → Brings json t es → es.Pairwise (·.seq < ·.seq) →
    (∀ e ∈ es, n < e.seq ∧ Holds e.seq) → bs <+: bytesOf t →
    ∃ j ≤ es.length,
      withSeq (C.handed (C.reads (C.opened s) bs)) =
        withSeq (C.handed s) ++ (es.take j).map KernelEvent.handed ∧
      (bs = bytesOf t → t.getLast? ≠ some '\r' → j = es.length) ∧
      ∀ ending, Leaves bs ending →
        withSeq (C.handed (C.cut (C.reads (C.opened s) bs) ending)) =
          withSeq (C.handed (C.reads (C.opened s) bs)) ∧
        C.asks (C.cut (C.reads (C.opened s) bs) ending) = some (resumeAt n (es.take j))

variable {json : Json J} {C : Client κ J} {log es : List (KernelEvent J)} {n k j : ℕ}

theorem resumeAt_nil (n : ℕ) : resumeAt n ([] : List (KernelEvent J)) = n := rfl

theorem resumeAt_append (n : ℕ) (es es' : List (KernelEvent J)) :
    resumeAt (resumeAt n es) es' = resumeAt n (es ++ es') := by
  rcases List.eq_nil_or_concat es' with rfl | ⟨init, e, rfl⟩
  · rw [resumeAt_nil, List.append_nil]
  · simp only [resumeAt, List.concat_eq_append, ← List.append_assoc, List.getLast?_concat,
      Option.map_some, Option.getD_some]

theorem due_concat (log : List (KernelEvent J)) (e : KernelEvent J) (n : ℕ) :
    due (log ++ [e]) n = due log n ++ if n < e.seq then [e] else [] := by
  rw [due, List.filter_append, due]
  congr 1
  by_cases h : n < e.seq <;> simp [h]

/-- The events behind the first ones are the others. -/
theorem due_resumeAt (h : log.Pairwise (·.seq < ·.seq)) (n k : ℕ) :
    due log (resumeAt n ((due log n).take k)) = (due log n).drop k := by
  rcases List.eq_nil_or_concat ((due log n).take k) with hnil | ⟨init, e, htake⟩
  · rw [hnil, resumeAt_nil]
    rcases List.take_eq_nil_iff.1 hnil with hk | hdue
    · rw [hk, List.drop_zero]
    · rw [hdue, List.drop_nil]
  · rw [List.concat_eq_append] at htake
    have hat : resumeAt n ((due log n).take k) = e.seq := by
      rw [htake, resumeAt, List.getLast?_concat]
      rfl
    have hn : n < e.seq := by
      have hmem : e ∈ due log n := List.mem_of_mem_take (i := k) (by rw [htake]; simp)
      simpa using (List.mem_filter.1 hmem).2
    have hsplit : due log n = init ++ [e] ++ (due log n).drop k := by
      rw [← htake, List.take_append_drop]
    have hsorted : (init ++ [e] ++ (due log n).drop k).Pairwise (·.seq < ·.seq) :=
      hsplit ▸ h.filter _
    rw [List.pairwise_append, List.pairwise_append] at hsorted
    obtain ⟨⟨-, -, hinit⟩, -, hrest⟩ := hsorted
    -- What is behind the later number is behind the earlier.
    have htwice : due log e.seq = (due log n).filter (e.seq < ·.seq) := by
      rw [due, due, List.filter_filter]
      refine List.filter_congr fun x _ ↦ ?_
      by_cases hx : e.seq < x.seq
      · simp [hx, hn.trans hx]
      · simp [hx]
    rw [hat, htwice]
    conv_lhs => rw [hsplit]
    rw [List.filter_append, List.filter_eq_nil_iff.2, List.nil_append, List.filter_eq_self.2]
    · exact fun x hx ↦ decide_eq_true (hrest e (by simp) x hx)
    · intro x hx
      rcases List.mem_append.1 hx with hx | hx
      · simpa using (hinit x hx e (List.mem_singleton_self e)).le
      · rw [List.mem_singleton.1 hx]
        simp

/-- The first messages of a text bring its first events. -/
theorem Brings.take {t : List Char} (h : Brings json t es) {ms : List Message}
    (hms : ms <+: messagesOf t) :
    ∃ j ≤ es.length, List.Forall₂ (fun m e ↦ e.SpelledBy json m)
        (ms.filter (·.id.isSome)) (es.take j) ∧
      (ms = messagesOf t → j = es.length) := by
  have hlength := h.messages.length_eq
  have hpre : ms.filter (·.id.isSome) <+: numbered t := hms.filter _
  refine ⟨(ms.filter (·.id.isSome)).length, hlength ▸ hpre.length_le, ?_, fun heq ↦ ?_⟩
  · have htake := List.forall₂_take (ms.filter (·.id.isSome)).length h.messages
    rwa [← List.prefix_iff_eq_take.1 hpre] at htake
  · rw [← hlength, heq]
    rfl

/-! ### Every run -/

/-- The steps that leave the editor right: the numbers of the events are such as it can hold, and a
connection ends where its number is that of what it has handed on. -/
def Fair (Holds : ℕ → Prop) (Leaves : List UInt8 → Ending → Prop) (w : World κ J) : Label J → Prop
  | .publish e => Holds e.seq
  | .cut ending => ∀ c, w.conn = some c → Leaves ((bytesOf c.text).take c.got) ending
  | _ => True

/-- What holds in every run. -/
structure Follows (json : Json J) (C : Client κ J) (Holds : ℕ → Prop) (since : ℕ) (w : World κ J) :
    Prop where
  sorted : w.log.Pairwise (·.seq < ·.seq)
  holds : ∀ e ∈ w.log, Holds e.seq
  /-- Without a connection. -/
  rest : w.conn = none → ∃ k ≤ (due w.log since).length,
    withSeq (C.handed w.client) = ((due w.log since).take k).map KernelEvent.handed ∧
    C.asks w.client = some (resumeAt since ((due w.log since).take k))
  /-- On a connection, from the state in which it was opened. -/
  open_ : ∀ c, w.conn = some c → ∃ k ≤ (due w.log since).length, ∃ s,
    withSeq (C.handed s) = ((due w.log since).take k).map KernelEvent.handed ∧
    C.asks s = some c.since ∧ c.since = resumeAt since ((due w.log since).take k) ∧
    w.client = C.reads (C.opened s) ((bytesOf c.text).take c.got) ∧
    c.got ≤ (bytesOf c.text).length ∧
    ∃ m, Brings json c.text ((due w.log c.since).take m)

variable {Holds : ℕ → Prop} {Leaves : List UInt8 → Ending → Prop} {since : ℕ} {w w' : World κ J}
  {c : Conn}

/-- What one connection adds. -/
theorem Follows.conn (hC : C.Lawful json Holds Leaves) (h : Follows json C Holds since w)
    (hc : w.conn = some c) :
    ∃ k j m, k + j ≤ (due w.log since).length ∧ Brings json c.text ((due w.log c.since).take m) ∧
      j ≤ ((due w.log c.since).take m).length ∧
      due w.log c.since = (due w.log since).drop k ∧
      withSeq (C.handed w.client) = ((due w.log since).take (k + j)).map KernelEvent.handed ∧
      (c.got = (bytesOf c.text).length → c.text.getLast? ≠ some '\r' →
        j = ((due w.log c.since).take m).length) ∧
      ∀ ending, Leaves ((bytesOf c.text).take c.got) ending →
        withSeq (C.handed (C.cut w.client ending)) =
          ((due w.log since).take (k + j)).map KernelEvent.handed ∧
        C.asks (C.cut w.client ending) =
          some (resumeAt since ((due w.log since).take (k + j))) := by
  obtain ⟨k, hk, s, hhanded, hasks, hsince, hclient, hgot, m, hbrings⟩ := h.open_ c hc
  have hdue : due w.log c.since = (due w.log since).drop k := by
    rw [hsince, due_resumeAt h.sorted]
  have hbehind : ∀ e ∈ (due w.log c.since).take m, c.since < e.seq ∧ Holds e.seq := fun e he ↦ by
    obtain ⟨hlog, hlt⟩ := List.mem_filter.1 (List.mem_of_mem_take he)
    exact ⟨of_decide_eq_true hlt, h.holds e hlog⟩
  have hsorted : ((due w.log c.since).take m).Pairwise (·.seq < ·.seq) :=
    (h.sorted.filter _).sublist (List.take_sublist _ _)
  obtain ⟨j, hj, hread, hall, hcut⟩ :=
    hC.reads hasks hbrings hsorted hbehind (List.take_prefix c.got (bytesOf c.text))
  have hjoin : (due w.log since).take k ++ ((due w.log c.since).take m).take j =
      (due w.log since).take (k + j) := by
    rw [List.take_take, Nat.min_eq_left (by rw [List.length_take] at hj; omega), hdue,
      ← List.take_add]
  have hout : withSeq (C.handed (C.reads (C.opened s) ((bytesOf c.text).take c.got))) =
      ((due w.log since).take (k + j)).map KernelEvent.handed := by
    rw [hread, hhanded, ← List.map_append, hjoin]
  refine ⟨k, j, m, ?_, hbrings, hj, hdue, ?_, fun hlen hlast ↦ ?_, fun ending hleaves ↦ ?_⟩
  · rw [List.length_take, hdue, List.length_drop] at hj
    omega
  · rw [hclient, hout]
  · exact hall (by rw [hlen, List.take_length]) hlast
  · obtain ⟨hsame, hat⟩ := hcut ending hleaves
    have hnext : resumeAt c.since (((due w.log c.since).take m).take j) =
        resumeAt since ((due w.log since).take (k + j)) := by
      rw [← hjoin, ← resumeAt_append, ← hsince]
    rw [hclient]
    exact ⟨by rw [hsame, hout], by rw [hat, hnext]⟩

theorem Follows.handsOn (hC : C.Lawful json Holds Leaves) (h : Follows json C Holds since w) :
    HandsOn C since w := by
  constructor
  · cases hconn : w.conn with
    | none =>
      obtain ⟨k, -, hhanded, hasks⟩ := h.rest hconn
      exact ⟨k, hhanded, fun _ ↦ hasks⟩
    | some c =>
      obtain ⟨k, j, m, -, -, -, -, hhanded, -, -⟩ := h.conn hC hconn
      exact ⟨k + j, hhanded, fun hnone ↦ by cases hnone⟩
  · intro c hconn hserved hgot hlast
    obtain ⟨k, j, m, hkj, hbrings, -, hdue, hhanded, hall, -⟩ := h.conn hC hconn
    have hj := hall hgot hlast
    have hlength := hbrings.messages.length_eq
    rw [hserved] at hlength
    rw [hhanded, List.take_of_length_le]
    rw [hj, ← hlength, hdue, List.length_drop]
    omega

theorem brings_nil (json : Json J) : Brings json [] ([] : List (KernelEvent J)) :=
  ⟨fun h ↦ (by cases h), .nil⟩

theorem take_due_concat {log : List (KernelEvent J)} {n k : ℕ} (hk : k ≤ (due log n).length)
    (e : KernelEvent J) : (due (log ++ [e]) n).take k = (due log n).take k := by
  rw [due_concat, List.take_append_of_le_length hk]

theorem length_due_concat (log : List (KernelEvent J)) (n : ℕ) (e : KernelEvent J) :
    (due log n).length ≤ (due (log ++ [e]) n).length := by
  rw [due_concat, List.length_append]
  exact Nat.le_add_right _ _

theorem bytesOf_append (t t' : List Char) : bytesOf (t ++ t') = bytesOf t ++ bytesOf t' :=
  List.flatMap_append

theorem Follows.publish (h : Follows json C Holds since w) {e : KernelEvent J}
    (hlater : ∀ e' ∈ w.log, e'.seq < e.seq) (hholds : Holds e.seq) :
    Follows json C Holds since { w with log := w.log ++ [e] } where
  sorted := List.pairwise_append.2 ⟨h.sorted, List.pairwise_singleton _ _, fun e' he' x hx ↦ by
    rw [List.mem_singleton.1 hx]
    exact hlater e' he'⟩
  holds x hx := by
    rcases List.mem_append.1 hx with hx | hx
    · exact h.holds x hx
    · rw [List.mem_singleton.1 hx]
      exact hholds
  rest hconn := by
    obtain ⟨k, hk, hhanded, hasks⟩ := h.rest hconn
    exact ⟨k, hk.trans (length_due_concat _ _ _), by rw [take_due_concat hk]; exact hhanded,
      by rw [take_due_concat hk]; exact hasks⟩
  open_ c hconn := by
    obtain ⟨k, hk, s, hhanded, hasks, hsince, hclient, hgot, m, hbrings⟩ := h.open_ c hconn
    refine ⟨k, hk.trans (length_due_concat _ _ _), s, by rw [take_due_concat hk]; exact hhanded,
      hasks, by rw [take_due_concat hk]; exact hsince, hclient, hgot,
      min m (due w.log c.since).length, ?_⟩
    rw [take_due_concat (Nat.min_le_right _ _), ← List.take_eq_take_min]
    exact hbrings

theorem Follows.connect (hC : C.Lawful json Holds Leaves) (h : Follows json C Holds since w)
    (hconn : w.conn = none) {n : ℕ} (hasks : C.asks w.client = some n) :
    Follows json C Holds since
      { w with conn := some ⟨n, [], 0⟩, client := C.opened w.client } where
  sorted := h.sorted
  holds := h.holds
  rest hnone := by cases hnone
  open_ c hc := by
    obtain rfl := Option.some.inj hc
    obtain ⟨k, hk, hhanded, hat⟩ := h.rest hconn
    exact ⟨k, hk, w.client, hhanded, hasks, Option.some.inj (hasks.symm.trans hat),
      (hC.reads_nil w.client).symm, Nat.zero_le _, 0, brings_nil json⟩

theorem Follows.step (hC : C.Lawful json Holds Leaves) (h : Follows json C Holds since w)
    {l : Label J} (hfair : Fair Holds Leaves w l) (hstep : World.Step json C w l w') :
    Follows json C Holds since w' := by
  cases hstep with
  | publish hlater => exact h.publish hlater hfair
  | connect hconn hasks => exact h.connect hC hconn hasks
  | @serve c t m hconn hbrings =>
    refine ⟨h.sorted, h.holds, fun hnone ↦ (by cases hnone), fun c' hc' ↦ ?_⟩
    obtain rfl := Option.some.inj hc'
    obtain ⟨k, hk, s, hhanded, hasks, hsince, hclient, hgot, -⟩ := h.open_ c hconn
    refine ⟨k, hk, s, hhanded, hasks, hsince, ?_, ?_, m, hbrings⟩
    · rw [bytesOf_append, List.take_append_of_le_length hgot]
      exact hclient
    · rw [bytesOf_append, List.length_append]
      exact Nat.le_add_right_of_le hgot
  | @deliver c n hconn hle =>
    refine ⟨h.sorted, h.holds, fun hnone ↦ (by cases hnone), fun c' hc' ↦ ?_⟩
    obtain rfl := Option.some.inj hc'
    obtain ⟨k, hk, s, hhanded, hasks, hsince, hclient, -, m, hbrings⟩ := h.open_ c hconn
    refine ⟨k, hk, s, hhanded, hasks, hsince, ?_, hle, m, hbrings⟩
    rw [hclient, hC.reads_append, ← List.take_add]
  | @cut c ending hconn =>
    obtain ⟨k, j, m, hkj, -, -, -, -, -, hcut⟩ := h.conn hC hconn
    obtain ⟨hhanded, hasks⟩ := hcut ending (hfair c hconn)
    exact ⟨h.sorted, h.holds, fun _ ↦ ⟨k + j, hkj, hhanded, hasks⟩, fun c' hc' ↦ by cases hc'⟩

/-- **A client that does right on each connection** hands on each event once and in order. -/
theorem handsOn_of_lawful (hC : C.Lawful json Holds Leaves)
    (h : ((system json C since).restrict (Fair Holds Leaves)).Reachable w) : HandsOn C since w := by
  suffices hfollows : Follows json C Holds since w from hfollows.handsOn hC
  refine h.invariant (S := (system json C since).restrict (Fair Holds Leaves))
    (I := Follows json C Holds since) (fun s hs ↦ ?_) fun s l t _ hs hstep ↦
      hs.step hC hstep.1 hstep.2
  obtain rfl : s = ⟨[], none, C.new since⟩ := hs
  exact ⟨.nil, fun e he ↦ (by cases he), fun _ ↦ ⟨0, Nat.zero_le _, by rw [hC.handed_new]; rfl,
    hC.asks_new since⟩, fun c hc ↦ by cases hc⟩

end Ember.Events
