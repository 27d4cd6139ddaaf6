import Mathlib.Data.List.Basic
import Mathlib.Data.Nat.Notation

/-!
# Incremental decoders

A decoder buffers what arrives and hands out whole items. `Deframer` is such a decoder, with the
loop that drains it after every chunk; `Decodes` says what one attempt to take an item does in front
of an encoding. From that alone the way the input was cut into chunks does not matter:
`Decodes.feedAll_eq`.
-/

/-- A decoder with states `σ` that buffers items of `β` and hands out frames of `φ`. -/
structure Deframer (σ ε β φ : Type) where
  push : σ → List β → σ
  /-- One attempt to take a frame. -/
  next : σ → Except ε (Option φ) × σ
  buffered : σ → List β
  buffered_push : ∀ s chunk, buffered (push s chunk) = buffered s ++ chunk
  /-- A frame that is handed out takes something from the buffer. -/
  length_next_lt : ∀ {s t f}, next s = (.ok (some f), t) → (buffered t).length < (buffered s).length

/-- What draining a decoder gave. -/
structure Drained (σ ε φ : Type) where
  frames : List φ
  /-- The failure that ended the loop. -/
  error : Option ε
  state : σ

/-- What was handed out before, and then the rest. -/
def Drained.after {σ ε φ : Type} (d : Drained σ ε φ) (fs : List φ) : Drained σ ε φ :=
  ⟨fs ++ d.frames, d.error, d.state⟩

namespace Deframer

variable {σ ε β φ : Type} (D : Deframer σ ε β φ)

/-- `while let Some(frame) = next()?`. -/
def drain (s : σ) : Drained σ ε φ :=
  match _h : D.next s with
  | (.error e, t) => ⟨[], some e, t⟩
  | (.ok none, t) => ⟨[], none, t⟩
  | (.ok (some f), t) => (drain t).after [f]
termination_by (D.buffered s).length
decreasing_by all_goals exact D.length_next_lt _h

/-- Draining the decoder after each chunk, until it fails. -/
def feedAll (s : σ) : List (List β) → Drained σ ε φ
  | [] => ⟨[], none, s⟩
  | chunk :: chunks =>
    let d := D.drain (D.push s chunk)
    match d.error with
    | some _ => d
    | none => (feedAll d.state chunks).after d.frames

theorem drain_of_none {s t : σ} (h : D.next s = (.ok none, t)) : D.drain s = ⟨[], none, t⟩ := by
  rw [drain]
  split <;> simp_all

theorem drain_of_some {s t : σ} {f : φ} (h : D.next s = (.ok (some f), t)) :
    D.drain s = (D.drain t).after [f] := by
  rw [drain]
  split <;> simp_all

/-- What one attempt does in front of the encodings of frames: it takes a frame that has arrived,
and leaves a part of a frame alone. -/
structure Decodes (enc : φ → List β) (Ok : φ → Prop) : Prop where
  next_nil : ∀ s, D.buffered s = [] → D.next s = (.ok none, s)
  next_frame : ∀ s f rest, Ok f → D.buffered s = enc f ++ rest →
    ∃ t, D.next s = (.ok (some f), t) ∧ D.buffered t = rest
  next_part : ∀ s f missing, Ok f → missing ≠ [] → D.buffered s ++ missing = enc f →
    D.next s = (.ok none, s)

variable {D} {enc : φ → List β} {Ok : φ → Prop}

/-- One drain in front of encodings of which a part has arrived: it hands out the frames that are
there, and what it leaves is a part of the others. -/
theorem Decodes.drain_eq (h : D.Decodes enc Ok) {fs : List φ} (hok : ∀ f ∈ fs, Ok f) {s : σ}
    {later : List β} (hs : D.buffered s ++ later = fs.flatMap enc) :
    ∃ fs₁ fs₂ t, fs = fs₁ ++ fs₂ ∧ D.drain s = ⟨fs₁, none, t⟩ ∧
      D.buffered t ++ later = fs₂.flatMap enc ∧ D.next t = (.ok none, t) := by
  induction fs generalizing s with
  | nil =>
    have hnone := h.next_nil s (List.append_eq_nil_iff.1 hs).1
    exact ⟨[], [], s, rfl, D.drain_of_none hnone, hs, hnone⟩
  | cons f fs ih =>
    obtain ⟨hf, hfs⟩ := List.forall_mem_cons.1 hok
    rw [List.flatMap_cons] at hs
    rcases List.append_eq_append_iff.1 hs with ⟨missing, henc, hlater⟩ | ⟨rest, hbuf, hrest⟩
    · rcases eq_or_ne missing [] with rfl | hmissing
      · -- the buffer ends with the frame
        rw [List.append_nil] at henc
        obtain ⟨t, hnext, ht⟩ := h.next_frame s f [] hf (by rw [List.append_nil, henc])
        obtain ⟨fs₁, fs₂, u, rfl, hdrain, hu, hnone⟩ := ih hfs (s := t) (by rw [ht]; exact hlater)
        exact ⟨f :: fs₁, fs₂, u, rfl, by rw [D.drain_of_some hnext, hdrain]; rfl, hu, hnone⟩
      · have hnone := h.next_part s f missing hf hmissing henc.symm
        refine ⟨[], f :: fs, s, rfl, D.drain_of_none hnone, ?_, hnone⟩
        rw [List.flatMap_cons, henc, hlater, List.append_assoc]
    · obtain ⟨t, hnext, ht⟩ := h.next_frame s f rest hf hbuf
      obtain ⟨fs₁, fs₂, u, rfl, hdrain, hu, hnone⟩ := ih hfs (s := t) (by rw [ht]; exact hrest.symm)
      exact ⟨f :: fs₁, fs₂, u, rfl, by rw [D.drain_of_some hnext, hdrain]; rfl, hu, hnone⟩

/-- **Chunks do not matter**: a decoder that is drained after every chunk hands out exactly the
frames whose encodings arrive, and ends with an empty buffer. -/
theorem Decodes.feedAll_eq (h : D.Decodes enc Ok) {fs : List φ} (hok : ∀ f ∈ fs, Ok f)
    {chunks : List (List β)} {s : σ} (hs : D.buffered s ++ chunks.flatten = fs.flatMap enc)
    (hnone : D.next s = (.ok none, s)) :
    ∃ t, D.feedAll s chunks = ⟨fs, none, t⟩ ∧ D.buffered t = [] := by
  induction chunks generalizing fs s with
  | nil =>
    rw [List.flatten_nil, List.append_nil] at hs
    cases fs with
    | nil => exact ⟨s, rfl, hs⟩
    | cons f fs =>
      -- a frame that has arrived would have been handed out
      obtain ⟨t, hnext, -⟩ := h.next_frame s f _ (hok f (List.mem_cons_self ..)) hs
      rw [hnone] at hnext
      cases hnext
  | cons chunk chunks ih =>
    rw [List.flatten_cons, ← List.append_assoc, ← D.buffered_push] at hs
    obtain ⟨fs₁, fs₂, t, rfl, hdrain, ht, hnone'⟩ := h.drain_eq hok hs
    obtain ⟨u, hfeed, hu⟩ := ih (fun f hf ↦ hok f (List.mem_append_right _ hf)) ht hnone'
    refine ⟨u, ?_, hu⟩
    rw [feedAll, hdrain]
    show (D.feedAll t chunks).after fs₁ = _
    rw [hfeed]
    rfl

end Deframer
