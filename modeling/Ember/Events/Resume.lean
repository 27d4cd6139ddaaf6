import Ember.Events.Intellij
import Ember.Events.Vscode

/-!
# Following events across connections

Both editors at the manager's events.

## What is proved

* `handsOn_of_reachable` — each editor hands on each event once and in order, wherever connections
  are cut, as long as its numbers hold those of the events and, for the plugin, a connection ends
  when the last id that was read is that of a message that was handed on; and chunks do not matter.
* `not_handsOn` — the plugin, when a connection is cut behind the line with an id.
-/

namespace Ember.Events

open EventStream

variable {J : Type}

/-- The runs of the extension in which it can hold the numbers of the events. -/
def vscodeRuns (json : Json J) (since : ℕ) : StepSystem (World (Vscode.Stream J) J) (Label J) :=
  (system json (Vscode.client json) since).restrict
    (Fair (fun n ↦ Vscode.number n = n) fun _ _ ↦ True)

/-- The runs of the plugin in which it can hold the numbers of the events, and whose connections end
when the last id that was read is that of a message that was handed on. -/
def intellijRuns (json : Json J) (since : ℕ) : StepSystem (World (Intellij.Stream J) J) (Label J) :=
  (system json (Intellij.client json) since).restrict
    (Fair (· ≤ 9223372036854775807) Intellij.Leaves)

variable {Leaves : List UInt8 → Ending → Prop} {κ : Type} {Holds : ℕ → Prop}

/-- Any chunks are as good as one. -/
theorem Client.Lawful.foldl_reads {json : Json J} {C : Client κ J} (h : C.Lawful json Holds Leaves)
    (s : κ) (chunks : List (List UInt8)) :
    chunks.foldl C.reads (C.opened s) = C.reads (C.opened s) chunks.flatten := by
  induction chunks using List.reverseRecOn with
  | nil => exact (h.reads_nil s).symm
  | append_singleton chunks chunk ih =>
    rw [List.foldl_append, ih, List.foldl_cons, List.foldl_nil, h.reads_append, List.flatten_append,
      List.flatten_singleton]

/-- **Each event is handed on once and in order**, wherever the connections and the chunks are cut.
-/
theorem handsOn_of_reachable (json : Json J) (since : ℕ) :
    (∀ w, (vscodeRuns json since).Reachable w → HandsOn (Vscode.client json) since w) ∧
    (∀ w, (intellijRuns json since).Reachable w → HandsOn (Intellij.client json) since w) ∧
    (∀ s (chunks : List (List UInt8)),
      chunks.foldl (Vscode.client json).reads ((Vscode.client json).opened s) =
        (Vscode.client json).reads ((Vscode.client json).opened s) chunks.flatten) ∧
    ∀ s (chunks : List (List UInt8)),
      chunks.foldl (Intellij.client json).reads ((Intellij.client json).opened s) =
        (Intellij.client json).reads ((Intellij.client json).opened s) chunks.flatten :=
  ⟨fun _ h ↦ handsOn_of_lawful (Vscode.lawful json) h,
    fun _ h ↦ handsOn_of_lawful (Intellij.lawful json) h,
    (Vscode.lawful json).foldl_reads, (Intellij.lawful json).foldl_reads⟩

/-! ### Two events -/

/-- JSON with one object. -/
def braces : Json Unit := ⟨fun t ↦ if t = "{}".toList then some () else none, fun _ ↦ true, ()⟩

/-- An event. -/
def output (seq : ℕ) : KernelEvent Unit := ⟨seq, "output".toList, ()⟩

/-- An event behind a comment, with all three line ends. -/
def spelled : List Char := ": open\r\nid: 1\rdata: {}\nevent: output\r\n\n".toList

theorem brings_spelled : Brings braces spelled [output 1] :=
  ⟨by decide, by
    have hnumbered : numbered spelled = [⟨some ['1'], "output".toList, "{}".toList⟩] := by decide
    rw [hnumbered]
    exact .cons ⟨by decide, rfl, by decide, rfl, rfl⟩ .nil⟩

/-- An event that arrives. -/
def arrived {κ : Type} (C : Client κ Unit) : World κ Unit :=
  ⟨[output 1], some ⟨0, spelled, (bytesOf spelled).length⟩,
    C.reads (C.opened (C.new 0)) (bytesOf spelled)⟩

/-- All that was written arrives. -/
theorem step_deliver_all (json : Json J) (C : Client κ J) (log : List (KernelEvent J)) (n : ℕ)
    (t : List Char) (s : κ) :
    World.Step json C ⟨log, some ⟨n, t, 0⟩, s⟩ (.deliver (bytesOf t).length)
      ⟨log, some ⟨n, t, (bytesOf t).length⟩, C.reads s (bytesOf t)⟩ := by
  have hstep : World.Step json C ⟨log, some ⟨n, t, 0⟩, s⟩ (.deliver (bytesOf t).length) _ :=
    .deliver (c := ⟨n, t, 0⟩) rfl (Nat.zero_add _).le
  simpa only [Nat.zero_add, List.drop_zero, List.take_length] using hstep

theorem reachable_arrived {C : Client κ Unit} (hC : C.Lawful braces Holds Leaves) (hone : Holds 1) :
    ((system braces C 0).restrict (Fair Holds Leaves)).Reachable (arrived C) := by
  have hpublish : ((system braces C 0).restrict (Fair Holds Leaves)).Reachable
      ⟨[output 1], none, C.new 0⟩ :=
    .next (.publish (output 1)) (.start rfl) ⟨hone, .publish fun _ h ↦ (by cases h)⟩
  have hconnect : ((system braces C 0).restrict (Fair Holds Leaves)).Reachable
      ⟨[output 1], some ⟨0, [], 0⟩, C.opened (C.new 0)⟩ :=
    .next .connect hpublish ⟨trivial, .connect rfl (hC.asks_new 0)⟩
  have hserve : ((system braces C 0).restrict (Fair Holds Leaves)).Reachable
      ⟨[output 1], some ⟨0, spelled, 0⟩, C.opened (C.new 0)⟩ :=
    .next (.serve spelled) hconnect ⟨trivial, .serve (c := ⟨0, [], 0⟩) (k := 1) rfl brings_spelled⟩
  exact hserve.next (.deliver (bytesOf spelled).length)
    ⟨trivial, step_deliver_all braces C _ 0 spelled _⟩

/-- An event is handed on to both editors. -/
theorem handsOn_of_reachable_output :
    withSeq ((Vscode.client braces).handed (arrived (Vscode.client braces)).client) =
        [(output 1).handed] ∧
      withSeq ((Intellij.client braces).handed (arrived (Intellij.client braces)).client) =
        [(output 1).handed] :=
  ⟨((handsOn_of_reachable braces 0).1 _
      (reachable_arrived (Vscode.lawful braces) (by decide))).all _ rfl (by decide) rfl (by decide),
    ((handsOn_of_reachable braces 0).2.1 _ (reachable_arrived (Intellij.lawful braces)
      (by decide))).all _ rfl (by decide) rfl (by decide)⟩

/-! ### A connection that is cut behind an id -/

/-- The line with the id of the first event. -/
def idLine : List Char := "id: 1\n".toList

/-- The second event. -/
def second : List Char := "id: 2\nevent: output\ndata: {}\n\n".toList

theorem brings_idLine : Brings braces idLine ([] : List (KernelEvent Unit)) :=
  ⟨by decide, by
    have hnumbered : numbered idLine = [] := by decide
    rw [hnumbered]
    exact .nil⟩

theorem brings_second : Brings braces second [output 2] :=
  ⟨by decide, by
    have hnumbered : numbered second = [⟨some ['2'], "output".toList, "{}".toList⟩] := by decide
    rw [hnumbered]
    exact .cons ⟨by decide, rfl, by decide, rfl, rfl⟩ .nil⟩

/-- The plugin when the line with the first id has arrived and the connection is cut. -/
def afterId : Intellij.Stream Unit :=
  (Intellij.client braces).cut ((Intellij.client braces).reads
    ((Intellij.client braces).opened ((Intellij.client braces).new 0)) (bytesOf idLine)) .failed

/-- The plugin when the second event has arrived on the next connection. -/
def afterSecond : Intellij.Stream Unit :=
  (Intellij.client braces).reads ((Intellij.client braces).opened afterId) (bytesOf second)

theorem reachable_afterSecond : (system braces (Intellij.client braces) 0).Reachable
    ⟨[output 1, output 2], some ⟨1, second, (bytesOf second).length⟩, afterSecond⟩ := by
  have hserve : (system braces (Intellij.client braces) 0).Reachable
      ⟨[output 1], some ⟨0, idLine, 0⟩,
        (Intellij.client braces).opened ((Intellij.client braces).new 0)⟩ :=
    .next (.serve idLine) (.next .connect
      (.next (.publish (output 1)) (.start rfl) (.publish fun _ h ↦ (by cases h)))
      (.connect rfl rfl)) (.serve (c := ⟨0, [], 0⟩) (k := 0) rfl brings_idLine)
  have hdeliver : (system braces (Intellij.client braces) 0).Reachable
      ⟨[output 1], some ⟨0, idLine, (bytesOf idLine).length⟩, (Intellij.client braces).reads
        ((Intellij.client braces).opened ((Intellij.client braces).new 0)) (bytesOf idLine)⟩ :=
    hserve.next (.deliver _) (step_deliver_all braces (Intellij.client braces) _ 0 idLine _)
  have hcut : (system braces (Intellij.client braces) 0).Reachable ⟨[output 1], none, afterId⟩ :=
    hdeliver.next (.cut .failed) (.cut rfl)
  have hsecond : (system braces (Intellij.client braces) 0).Reachable
      ⟨[output 1, output 2], some ⟨1, second, 0⟩, (Intellij.client braces).opened afterId⟩ :=
    .next (.serve second) (.next .connect
      (.next (.publish (output 2)) hcut (.publish (by decide)))
      (.connect rfl (by decide))) (.serve (c := ⟨1, [], 0⟩) (k := 1) rfl brings_second)
  exact hsecond.next (.deliver (bytesOf second).length)
    (step_deliver_all braces (Intellij.client braces) _ 1 second _)

/-- **An event is never handed on**: the connection was cut between its id and its end. -/
theorem not_handsOn : ¬ ∀ w, (system braces (Intellij.client braces) 0).Reachable w →
    HandsOn (Intellij.client braces) 0 w := fun h ↦ by
  obtain ⟨k, hk, -⟩ := (h _ reachable_afterSecond).inOrder
  have hhanded : withSeq ((Intellij.client braces).handed afterSecond) = [(output 2).handed] := by
    decide
  rw [hhanded] at hk
  cases k with
  | zero => cases hk
  | succ k =>
    have hhead := (List.cons.inj hk).1
    exact absurd hhead (by decide)

end Ember.Events
