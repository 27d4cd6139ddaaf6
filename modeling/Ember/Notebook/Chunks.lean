import Ember.Notebook.Parser

/-!
# Cutting a notebook and putting it together

The chunks of a text are its lines again: each begins with its marker line, no other line of it is a
marker, and every line but the last of the text ends with a line end, so that `serialize` never has to
add one. From this `serialize (parse text) = text` follows.
-/

namespace Ember.Notebook

open Endings

variable {parseJson : JsonParse}

/-! ### What the chunks are made of -/

/-- No line is a marker. -/
def NoMarker (ls : List Text) : Prop := ∀ l ∈ ls, matchMarker (content l) = none

/-- A chunk is a marker line, and lines that are no markers: more of the header, and the body. -/
structure Chunk.Has (chunk : Chunk) (m : Marker) (line : Text) (more body : List Text) : Prop where
  marker : chunk.marker = some m
  opens : matchMarker (content line) = some m
  header : chunk.header = line ++ more.flatten
  source : chunk.source = body.flatten
  noMore : NoMarker more
  noBody : NoMarker body

/-- Chunks are cut from lines. -/
inductive Cut : List Chunk → List Text → Prop
  | nil : Cut [] []
  | cons {chunk : Chunk} {m : Marker} {line : Text} {more body : List Text} {chunks : List Chunk}
      {ls : List Text} : chunk.Has m line more body → Cut chunks ls →
        Cut (chunk :: chunks) (line :: (more ++ body) ++ ls)

theorem noMarker_nil : NoMarker [] := fun _ hl ↦ absurd hl List.not_mem_nil

variable {ls : List Text}

theorem NoMarker.append {ls' : List Text} (h : NoMarker ls) (h' : NoMarker ls') :
    NoMarker (ls ++ ls') := fun l hl ↦ (List.mem_append.1 hl).elim (h l) (h' l)

theorem noMarker_singleton {l : Text} (h : matchMarker (content l) = none) : NoMarker [l] :=
  fun _ hl ↦ List.mem_singleton.1 hl ▸ h

/-- Reading goes on from a marker. -/
theorem cut_readChunks {chunk : Chunk} {m : Marker} {line : Text} {more body : List Text}
    (h : chunk.Has m line more body) {inMetadata : Bool} (hbody : inMetadata = true → body = [])
    (ls : List Text) :
    Cut (readChunks parseJson chunk inMetadata ls) (line :: (more ++ body) ++ ls) := by
  induction ls generalizing chunk m line more body inMetadata with
  | nil => exact .cons h .nil
  | cons l ls ih =>
    rw [readChunks]
    split
    · next m' hm' =>
      have hnew : Chunk.Has ⟨some m', [], l, []⟩ m' l [] [] :=
        ⟨rfl, hm', by simp, rfl, noMarker_nil, noMarker_nil⟩
      exact .cons h (ih hnew fun _ ↦ rfl)
    · next hnone =>
      split
      · next key value hmeta =>
        have hin : inMetadata = true := by
          by_contra hf
          simp [hf] at hmeta
        obtain rfl := hbody hin
        have hmore : Chunk.Has { chunk with
              items := chunk.items ++ [(key, metadataValue parseJson value)]
              header := chunk.header ++ l } m line (more ++ [l]) [] :=
          ⟨h.marker, h.opens, by simp [h.header], h.source, h.noMore.append (noMarker_singleton hnone),
            noMarker_nil⟩
        have hcut := ih hmore (fun _ : true = true ↦ rfl)
        simpa using hcut
      · have hmore : Chunk.Has { chunk with source := chunk.source ++ l } m line more (body ++ [l]) :=
          ⟨h.marker, h.opens, h.header, by simp [h.source], h.noMore,
            h.noBody.append (noMarker_singleton hnone)⟩
        have hcut := ih hmore (fun hf : false = true ↦ nomatch hf)
        simpa using hcut

/-- Reading before the first marker. -/
theorem readChunks_preamble (parseJson : JsonParse) (source : Text) (ls : List Text) :
    ∃ body chunks ls', ls = body ++ ls' ∧ NoMarker body ∧ Cut chunks ls' ∧
      readChunks parseJson ⟨none, [], [], source⟩ false ls =
        ⟨none, [], [], source ++ body.flatten⟩ :: chunks := by
  induction ls generalizing source with
  | nil => exact ⟨[], [], [], rfl, noMarker_nil, .nil, by simp [readChunks]⟩
  | cons l ls ih =>
    cases hm : matchMarker (content l) with
    | some m =>
      have hnew : Chunk.Has ⟨some m, [], l, []⟩ m l [] [] :=
        ⟨rfl, hm, by simp, rfl, noMarker_nil, noMarker_nil⟩
      refine ⟨[], readChunks parseJson ⟨some m, [], l, []⟩ true ls, l :: ls, rfl, noMarker_nil,
        cut_readChunks hnew (fun _ ↦ rfl) ls, ?_⟩
      simp [readChunks, hm]
    | none =>
      obtain ⟨body, chunks, ls', rfl, hbody, hcut, hread⟩ := ih (source ++ l)
      refine ⟨l :: body, chunks, ls', rfl, (noMarker_singleton hm).append hbody, hcut, ?_⟩
      simp only [readChunks, hm, Bool.false_eq_true, if_false]
      rw [hread]
      simp

/-- **The chunks of a text are its lines**: those before the first marker, and the others, cut. -/
theorem parseChunks_spec (parseJson : JsonParse) (text : Text) :
    ∃ body chunks ls, splitLines (withoutBom text) = body ++ ls ∧ NoMarker body ∧ Cut chunks ls ∧
      parseChunks parseJson text = ⟨none, [], [], body.flatten⟩ :: chunks := by
  obtain ⟨body, chunks, ls, hls, hbody, hcut, hread⟩ :=
    readChunks_preamble parseJson [] (splitLines (withoutBom text))
  exact ⟨body, chunks, ls, hls, hbody, hcut, hread⟩

theorem bom_append_withoutBom (text : Text) :
    (if [bom] <+: text then [bom] else []) ++ withoutBom text = text := by
  unfold withoutBom
  split
  · next h =>
    obtain ⟨rest, rfl⟩ := h
    rfl
  · rfl

/-! ### Writing -/

/-- The last part written is at the end, and is nothing only if nothing was written. -/
structure Written.Sound (w : Written) : Prop where
  suffix : w.last <:+ w.out
  nil : w.last = [] → w.out = []

theorem sound_nil : Written.Sound ⟨[], []⟩ := ⟨List.suffix_refl _, fun _ ↦ rfl⟩

theorem out_write (w : Written) (part : Text) : (w.write part).out = w.out ++ part := by
  unfold Written.write
  split
  · next h => rw [h, List.append_nil]
  · rfl

variable {w : Written}

theorem Written.Sound.write (h : w.Sound) (part : Text) : (w.write part).Sound := by
  unfold Written.write
  split
  · exact h
  · next hne => exact ⟨List.suffix_append _ _, fun hnil ↦ absurd hnil hne⟩

theorem sound_write {out last part : Text} (hne : part ≠ []) :
    (Written.write ⟨out, last⟩ part).Sound := by
  unfold Written.write
  rw [if_neg hne]
  exact ⟨List.suffix_append _ _, fun hnil ↦ absurd hnil hne⟩

/-- Behind a line end none is added. -/
theorem Written.Sound.closed (h : w.Sound) (hclosed : Closed '\n' w.out) :
    w.last = [] ∨ ['\n'] <:+ w.last := by
  by_cases hnil : w.last = []
  · exact .inl hnil
  refine .inr ?_
  obtain ⟨out, hout⟩ := h.suffix
  have hlast : w.last.getLast? = some '\n' := by
    rcases hclosed with ho | ho
    · rw [ho] at hout
      exact absurd (List.append_eq_nil_iff.1 hout).2 hnil
    · rwa [← hout, List.getLast?_append_of_ne_nil _ hnil] at ho
  obtain ⟨ys, hys⟩ := List.getLast?_eq_some_iff.1 hlast
  exact ⟨ys, hys.symm⟩

theorem sound_serializeCell (h : w.Sound) (cell : Cell) :
    (serializeCell parseJson w cell).Sound := by
  simp only [serializeCell]
  split
  · next hpush => exact (sound_write hpush.1).write _
  · exact (h.write _).write _

/-- A cell is written as its header and its source, when no line end is owed. -/
theorem out_serializeCell (parseJson : JsonParse) (h : w.Sound) (cell : Cell)
    (hclosed : cell.writtenHeader parseJson ≠ [] → Closed '\n' w.out) :
    (serializeCell parseJson w cell).out = w.out ++ cell.writtenHeader parseJson ++ cell.source := by
  simp only [serializeCell]
  rw [out_write, out_write, if_neg]
  rintro ⟨hne, hlast, hlf⟩
  exact (h.closed (hclosed hne)).elim hlast hlf

theorem prefix_serializeCell (w : Written) (cell : Cell) :
    w.out <+: (serializeCell parseJson w cell).out := by
  simp only [serializeCell]
  rw [out_write, out_write, List.append_assoc]
  split
  · rw [List.append_assoc]
    exact List.prefix_append _ _
  · exact List.prefix_append _ _

/-- What is written stays. -/
theorem prefix_foldl (parseJson : JsonParse) (cells : List Cell) (w : Written) :
    w.out <+: (cells.foldl (serializeCell parseJson) w).out := by
  induction cells generalizing w with
  | nil => exact List.prefix_refl _
  | cons cell cells ih => exact (prefix_serializeCell w cell).trans (ih _)

/-! ### There and back -/

/-- The cells of chunks, numbered from `i`. -/
def cellsOf (i : ℕ) (chunks : List Chunk) : List Cell := (chunks.zipIdx i).map fun p ↦ p.1.cell p.2

theorem cellsOf_cons (i : ℕ) (chunk : Chunk) (chunks : List Chunk) :
    cellsOf i (chunk :: chunks) = chunk.cell i :: cellsOf (i + 1) chunks := by
  simp [cellsOf, List.zipIdx_cons]

section Has

variable {chunk : Chunk} {m : Marker} {line : Text} {more body : List Text}

section

variable (h : chunk.Has m line more body)
include h

theorem Chunk.Has.cell (i : ℕ) : (chunk.cell i).index = i ∧
    (chunk.cell i).type = canonicalType m.type ∧ (chunk.cell i).rawType = m.type ∧
      (chunk.cell i).source = chunk.source ∧ (chunk.cell i).header = chunk.header := by
  simp [Chunk.cell, h.marker]

theorem Chunk.Has.flatten :
    (line :: (more ++ body)).flatten = chunk.header ++ chunk.source := by
  rw [h.header, h.source]
  simp

theorem Chunk.Has.line_ne_nil : line ≠ [] := by
  rintro rfl
  have := h.opens
  cases this

theorem Chunk.Has.header_ne_nil : chunk.header ≠ [] := by
  rw [h.header]
  exact fun hnil ↦ h.line_ne_nil (List.append_eq_nil_iff.1 hnil).1

/-- Before a line more, everything is closed. -/
theorem Chunk.Has.closed
    (hb : Broken '\n' (line :: (more ++ body) ++ ls)) (hne : ls ≠ []) {out : Text}
    (hout : Closed '\n' out) : Closed '\n' (out ++ chunk.header ++ chunk.source) := by
  rw [List.append_assoc, ← h.flatten]
  exact hout.append (closed_of_terminated (hb.terminated hne))

end

end Has

variable {chunks : List Chunk}

theorem Cut.ne_nil (h : Cut chunks ls) (hne : chunks ≠ []) :
    ls ≠ [] := by
  cases h with
  | nil => exact absurd rfl hne
  | cons => exact List.cons_ne_nil _ _

/-- Chunks are written as the lines they are cut from. -/
theorem Cut.serialize (h : Cut chunks ls) (hb : Broken '\n' ls) (hw : w.Sound)
    (hclosed : chunks ≠ [] → Closed '\n' w.out) (i : ℕ) :
    ((cellsOf i chunks).foldl (serializeCell parseJson) w).out = w.out ++ ls.flatten := by
  induction h generalizing w i with
  | nil => exact (List.append_nil _).symm
  | @cons chunk m line more body chunks ls hhas hcut ih =>
    obtain ⟨-, -, -, hsource, hheader⟩ := hhas.cell i
    have hopen : Closed '\n' w.out := hclosed (List.cons_ne_nil _ _)
    have hwritten : (chunk.cell i).writtenHeader parseJson = chunk.header := by
      rw [Cell.writtenHeader, if_neg fun hc ↦ hhas.header_ne_nil (hheader ▸ hc.1), hheader]
    have hout := out_serializeCell parseJson hw (chunk.cell i) fun _ ↦ hopen
    rw [hwritten, hsource] at hout
    rw [cellsOf_cons, List.foldl_cons,
      ih hb.right (sound_serializeCell hw _) (fun hne ↦ hout ▸ hhas.closed hb (hcut.ne_nil hne) hopen),
      hout, List.flatten_append, hhas.flatten]
    simp only [List.append_assoc]

/-- The document of a text: the preamble and the cells of the chunks. -/
theorem parse_spec (parseJson : JsonParse) (text : Text) :
    ∃ body chunks ls, splitLines (withoutBom text) = body ++ ls ∧ NoMarker body ∧ Cut chunks ls ∧
      parse parseJson text =
        ⟨⟨0, preamble, none, none, [], body.flatten, []⟩ :: cellsOf 1 chunks,
          decide ([bom] <+: text)⟩ := by
  obtain ⟨body, chunks, ls, hls, hbody, hcut, hparse⟩ := parseChunks_spec parseJson text
  refine ⟨body, chunks, ls, hls, hbody, hcut, ?_⟩
  simp only [parse, hparse, List.zipIdx_cons, List.map_cons, cellsOf]
  rfl

/-- A document is written behind its BOM. -/
theorem serialize_eq_iff {text : Text} {doc : NotebookDocument}
    (hbom : doc.bom = decide ([bom] <+: text)) : serialize parseJson doc = text ↔
      (doc.cells.foldl (serializeCell parseJson) ⟨[], []⟩).out = withoutBom text := by
  have htext := bom_append_withoutBom text
  unfold serialize
  rw [hbom]
  simp only [decide_eq_true_eq]
  constructor
  · intro h
    exact List.append_cancel_left (h.trans htext.symm)
  · intro h
    rw [h, htext]

/-- **What was parsed is written as it was.** -/
theorem serialize_parse (parseJson : JsonParse) (text : Text) :
    serialize parseJson (parse parseJson text) = text := by
  obtain ⟨body, chunks, ls, hls, -, hcut, hparse⟩ := parse_spec parseJson text
  have hb : Broken '\n' (body ++ ls) := hls ▸ broken_keepLines _
  have htext : (body ++ ls).flatten = withoutBom text := hls ▸ flatten_keepLines _
  rw [hparse]
  refine (serialize_eq_iff rfl).2 ?_
  rw [List.foldl_cons]
  have hout := out_serializeCell parseJson sound_nil
    ⟨0, preamble, none, none, [], body.flatten, []⟩ fun _ ↦ .inl rfl
  have hfirst : (serializeCell parseJson ⟨[], []⟩
      ⟨0, preamble, none, none, [], body.flatten, []⟩).out = body.flatten := hout
  rw [hcut.serialize hb.right (sound_serializeCell sound_nil _) ?_ 1, hfirst, ← htext,
    List.flatten_append]
  intro hne
  rw [hfirst]
  exact closed_of_terminated (hb.terminated (hcut.ne_nil hne))

end Ember.Notebook
