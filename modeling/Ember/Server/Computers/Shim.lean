import Ember.Foundation.Markers
import Ember.Foundation.Utf8

/-!
# The working directory in a stderr stream

`computers/shim.rs`: a command that runs on a node reports the directory it ends in as a marker on
stderr, and `MarkerFilter` takes the marker out of the stream, wherever the stream is cut into
chunks.

**Chunks do not matter** (`markerFilter_spec`): what the filter returns, with what it gives back in
the end, is the stream without its complete markers, and the directory is that of the last one.
-/

namespace Ember.Server.Shim

open Markers

/-- `MARK_START`. -/
def markStart : List UInt8 := 0x1e :: utf8 "EMBER_CWD:"

/-- `MARK_END`. -/
def markEnd : List UInt8 := [0x1e, 0x0a]

theorem markStart_ne_nil : markStart ≠ [] := List.cons_ne_nil _ _

theorem markEnd_ne_nil : markEnd ≠ [] := List.cons_ne_nil _ _

/-- `MarkerFilter`. -/
structure MarkerFilter where
  pending : List UInt8
  cwd : Option String

namespace MarkerFilter

/-- `default`. -/
def new : MarkerFilter := ⟨[], none⟩

/-- The loop of `feed`: what was put out so far, and the filter. -/
def loop (out : List UInt8) (f : MarkerFilter) : List UInt8 × MarkerFilter :=
  match _h : find f.pending markStart with
  | some i =>
    let rest := f.pending.drop (i + markStart.length)
    match find rest markEnd with
    | some j =>
      loop (out ++ f.pending.take i)
        ⟨f.pending.drop (i + markStart.length + j + markEnd.length),
          some (utf8Lossy (rest.take j))⟩
    | none => (out ++ f.pending.take i, { f with pending := f.pending.drop i })
  | none =>
    -- keep back only a tail that could be the start of a marker
    let emit := f.pending.length - partialPrefix f.pending markStart
    (out ++ f.pending.take emit, { f with pending := f.pending.drop emit })
termination_by f.pending.length
decreasing_by
  have hle := ((find_eq_some markStart_ne_nil).1 _h).le markStart_ne_nil
  have hpos := List.length_pos_iff.2 markStart_ne_nil
  rw [List.length_drop]
  omega

/-- `feed`. -/
def feed (f : MarkerFilter) (chunk : List UInt8) : List UInt8 × MarkerFilter :=
  loop [] { f with pending := f.pending ++ chunk }

/-- `finish`. -/
def finish (f : MarkerFilter) : List UInt8 × Option String := (f.pending, f.cwd)

/-- A stream is fed chunk by chunk: all that is returned, and the filter. -/
def feedAll (chunks : List (List UInt8)) : List UInt8 × MarkerFilter :=
  chunks.foldl (fun p chunk ↦ ((p.1 ++ (p.2.feed chunk).1), (p.2.feed chunk).2)) ([], new)

/-- The directory after some more markers. -/
def cwdAfter (cwd : Option String) (bodies : List (List UInt8)) : Option String :=
  (bodies.getLast?.map utf8Lossy).or cwd

theorem cwdAfter_append (cwd : Option String) (bodies bodies' : List (List UInt8)) :
    cwdAfter (cwdAfter cwd bodies) bodies' = cwdAfter cwd (bodies ++ bodies') := by
  rw [cwdAfter, cwdAfter, cwdAfter, List.getLast?_append]
  cases bodies'.getLast? <;> rfl

/-- **The loop reads what is pending.** -/
theorem loop_spec (out : List UInt8) (f : MarkerFilter) :
    ∃ out' bodies, (loop out f).1 = out ++ out' ∧ (loop out f).2.cwd = cwdAfter f.cwd bodies ∧
      Scan markStart markEnd f.pending out' bodies (loop out f).2.pending := by
  induction hn : f.pending.length using Nat.strong_induction_on generalizing out f with
  | h n ih =>
    subst hn
    rw [loop]
    split
    case h_1 i hstart =>
      have hfirst := (find_eq_some markStart_ne_nil).1 hstart
      have hle := hfirst.le markStart_ne_nil
      have hpos := List.length_pos_iff.2 markStart_ne_nil
      dsimp only
      split
      case h_1 j hstop =>
        obtain ⟨out', bodies, hout, hcwd, hscan⟩ := ih _
          (by rw [List.length_drop]; omega) (out ++ f.pending.take i)
          ⟨f.pending.drop (i + markStart.length + j + markEnd.length),
            some (utf8Lossy ((f.pending.drop (i + markStart.length)).take j))⟩ rfl
        refine ⟨_, _, by rw [hout, List.append_assoc], ?_,
          .next hfirst ((find_eq_some markEnd_ne_nil).1 hstop) hscan⟩
        exact hcwd.trans (cwdAfter_append f.cwd [_] bodies)
      case h_2 hstop =>
        have hnone := (find_eq_none markEnd_ne_nil).1 hstop
        refine ⟨f.pending.take i, [], rfl, rfl, ?_⟩
        have hscan : Scan markStart markEnd (f.pending.take i ++ f.pending.drop i)
            (f.pending.take i) [] (f.pending.drop i) := by
          refine .done (.inr hfirst.1) (fun k hk ↦ ?_) fun _ j hend ↦ hnone j ?_
          · rw [List.length_take] at hk
            rw [List.take_append_drop]
            refine ⟨hfirst.2 k (by omega), fun hpre ↦ ?_⟩
            have hlen := hpre.length_le
            rw [List.length_drop] at hlen
            omega
          · rw [List.drop_drop] at hend ⊢
            rwa [Nat.add_assoc]
        rwa [List.take_append_drop] at hscan
    case h_2 hstart =>
      have hnone := (find_eq_none markStart_ne_nil).1 hstart
      obtain ⟨hle, hlt, hpre, hapart⟩ := partialPrefix_spec markStart_ne_nil hnone
      dsimp only
      generalize hemit : f.pending.length - partialPrefix f.pending markStart = emit at hpre hapart
      refine ⟨f.pending.take emit, [], rfl, rfl, ?_⟩
      have hscan : Scan markStart markEnd (f.pending.take emit ++ f.pending.drop emit)
          (f.pending.take emit) [] (f.pending.drop emit) := by
        refine .done (.inl ⟨hpre, fun heq ↦ hnone emit (heq ▸ List.prefix_refl _)⟩)
          (fun k hk ↦ ?_) fun h ↦ absurd h (hnone emit)
        rw [List.length_take] at hk
        rw [List.take_append_drop]
        exact ⟨hnone k, hapart k (by omega)⟩
      rwa [List.take_append_drop] at hscan

/-- **One chunk more** is the stream with it. -/
theorem feedAll_spec (chunks : List (List UInt8)) :
    ∃ bodies, (feedAll chunks).2.cwd = cwdAfter none bodies ∧
      Scan markStart markEnd chunks.flatten (feedAll chunks).1 bodies
        (feedAll chunks).2.pending := by
  induction chunks using List.reverseRecOn with
  | nil =>
    refine ⟨[], rfl, ?_⟩
    show Scan markStart markEnd ([] ++ []) [] [] []
    exact .done (.inl ⟨List.nil_prefix, markStart_ne_nil.symm⟩)
      (fun i hi ↦ absurd hi (Nat.not_lt_zero i))
      fun h ↦ absurd (List.prefix_nil.1 h) markStart_ne_nil
  | append_singleton chunks chunk ih =>
    obtain ⟨bodies, hcwd, hscan⟩ := ih
    obtain ⟨out, bodies', hout, hcwd', hscan'⟩ :=
      loop_spec [] { (feedAll chunks).2 with pending := (feedAll chunks).2.pending ++ chunk }
    have hfeed : feedAll (chunks ++ [chunk]) = ((feedAll chunks).1 ++
        ((feedAll chunks).2.feed chunk).1, ((feedAll chunks).2.feed chunk).2) := by
      rw [feedAll, List.foldl_append]
      rfl
    rw [hfeed, List.flatten_append, List.flatten_singleton]
    refine ⟨bodies ++ bodies', ?_, ?_⟩
    · exact (hcwd'.trans (congrArg (cwdAfter · bodies') hcwd)).trans (cwdAfter_append ..)
    · have hout' : ((feedAll chunks).2.feed chunk).1 = out := hout
      rw [hout']
      exact hscan.append markStart_ne_nil markEnd_ne_nil hscan'

/-- **The filter takes the markers out.** Whatever the chunks are: all that is returned is the
stream without its complete markers, the directory is the one in the last of them, other chunks of
the stream give the same, and what is held back is less than the beginning of a marker or begins
with one. -/
theorem markerFilter_spec (chunks : List (List UInt8)) :
    (∃ bodies, Marked markStart markEnd chunks.flatten
        ((feedAll chunks).1 ++ (feedAll chunks).2.finish.1) bodies ∧
      (feedAll chunks).2.finish.2 = bodies.getLast?.map utf8Lossy) ∧
    (∀ chunks' : List (List UInt8), chunks'.flatten = chunks.flatten →
      (feedAll chunks').1 ++ (feedAll chunks').2.finish.1 =
        (feedAll chunks).1 ++ (feedAll chunks).2.finish.1 ∧
      (feedAll chunks').2.finish.2 = (feedAll chunks).2.finish.2) ∧
    Held markStart (feedAll chunks).2.pending := by
  obtain ⟨bodies, hcwd, hscan⟩ := feedAll_spec chunks
  have hmarked := hscan.marked markStart_ne_nil
  have hcwdAfter : cwdAfter none bodies = bodies.getLast?.map utf8Lossy := Option.or_none
  refine ⟨⟨bodies, hmarked, hcwd.trans hcwdAfter⟩, fun chunks' hflatten ↦ ?_, hscan.held⟩
  obtain ⟨bodies', hcwd', hscan'⟩ := feedAll_spec chunks'
  have hmarked' := hscan'.marked markStart_ne_nil
  rw [hflatten] at hmarked'
  obtain ⟨hout, rfl⟩ := hmarked'.unique hmarked
  exact ⟨hout, hcwd'.trans hcwd.symm⟩

/-- A directory is found wherever the stream is cut. -/
example : (feedAll [utf8 "warn\x1eEMBER", utf8 "_CWD:/srv\x1e", utf8 "\nok"]).1 =
    utf8 "warnok" := by decide +kernel

end MarkerFilter

end Ember.Server.Shim
