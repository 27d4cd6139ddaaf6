import Ember.Editor.Frames

/-!
# What a resync does to a file

A resync gives the widget the buffer's text again and reads the document back from it. The text is
the widget's, with `\n` for every line break, so that what the file's line breaks were is forgotten;
and whether there is a BOM is read off the bytes of a save, where one that is the first character of
the text looks the same.
-/

namespace Ember.Editor

open EditorConn

/-! ### Bytes -/

/-- Texts are told apart by their bytes. -/
theorem encode_injective : Function.Injective encode := by
  intro t t' h
  rw [encode, encode, String.toUTF8_eq_toByteArray, String.toUTF8_eq_toByteArray,
    String.toByteArray_inj] at h
  exact String.ofList_injective h

theorem toList_loop (b : ByteArray) (i : ℕ) (r : List UInt8) :
    ByteArray.toList.loop b i r = r.reverse ++ b.data.toList.drop i := by
  fun_induction ByteArray.toList.loop b i r with
  | case1 i r hlt ih =>
    have hi : i < b.data.toList.length := hlt
    have hget : b.get! i = b.data.toList[i] := getElem!_pos b.data i hlt
    rw [ih, List.drop_eq_getElem_cons hi, List.reverse_cons, List.append_assoc, List.singleton_append,
      hget]
  | case2 i r hge =>
    have hi : b.data.toList.length ≤ i := Nat.le_of_not_lt hge
    rw [List.drop_eq_nil_of_le hi, List.append_nil]

/-- The bytes of a text, one character after the other. -/
theorem toList_encode (t : Text) : (encode t).toList = t.flatMap String.utf8EncodeChar := by
  rw [ByteArray.toList, toList_loop, List.reverse_nil, List.nil_append, List.drop_zero]
  exact List.toList_data_toByteArray

/-- No character but the BOM has its three bytes. -/
theorem take_utf8EncodeChar (c : Char) (bytes : List UInt8) :
    (String.utf8EncodeChar c ++ bytes).take 3 = [0xEF, 0xBB, 0xBF] ↔ c = BOM := by
  have hchar : c = BOM ↔ c.val.toNat = 0xFEFF := by
    rw [← Char.val_inj, ← UInt32.toNat_inj]
    rfl
  have hbytes : UInt8.toNat 0xEF = 0xEF ∧ UInt8.toNat 0xBB = 0xBB ∧ UInt8.toNat 0xBF = 0xBF :=
    ⟨rfl, rfl, rfl⟩
  rw [hchar, String.utf8EncodeChar]
  generalize c.val.toNat = v
  -- only three bytes can start with the first one
  split_ifs <;> simp only [List.cons_append, List.nil_append, List.take_succ_cons, List.take_zero,
    List.cons.injEq, and_true, UInt8.ofNat_eq_iff_mod_eq_toNat] <;> omega

/-- The bytes of a text start with a BOM's when the text does. -/
theorem take_encode (t : Text) :
    ((encode t).toList.take 3 == [0xEF, 0xBB, 0xBF]) = decide (t.head? = some BOM) := by
  rw [toList_encode, Bool.eq_iff_iff, beq_iff_eq, decide_eq_true_eq]
  cases t with
  | nil => simp
  | cons c t =>
    rw [List.flatMap_cons, take_utf8EncodeChar, List.head?_cons, Option.some_inj]

/-! ### Line breaks -/

variable {lines : List Text}

/-- Lines joined by `\n` hold no carriage return. -/
theorem not_mem_joinLines (h : ∀ l ∈ lines, Lines.NoBreak '\r' '\n' l) :
    '\r' ∉ joinLines .lf lines := by
  induction lines with
  | nil => exact List.not_mem_nil
  | cons l lines ih =>
    have hl := (h l List.mem_cons_self).1
    have hlines := ih fun m hm ↦ h m (List.mem_cons_of_mem _ hm)
    cases lines with
    | nil => rwa [joinLines, Lines.join, List.intercalate_singleton]
    | cons m lines =>
      rw [joinLines, Lines.join, List.intercalate_cons_cons, List.append_assoc, List.mem_append,
        List.mem_append]
      rintro (hmem | hmem | hmem)
      · exact hl hmem
      · exact absurd hmem (by decide)
      · exact hlines hmem

theorem detectEol_of_not_mem {t : Text} (h : '\r' ∉ t) : detectEol t = .lf := by
  rw [detectEol, if_neg]
  rintro ⟨hlast, -⟩
  exact h ((List.takeWhile_sublist _).subset (List.mem_of_getLast? hlast))

/-- What the widget holds is what the mirror of it holds. -/
theorem mirrorText_joinLines (h : ValidLines lines) :
    mirrorText (joinLines .lf lines) = joinLines .lf lines := by
  rw [mirrorText, detectEol_of_not_mem (not_mem_joinLines h.2), splitLines_joinLines h]

/-- Joining the other way makes another text, but of one line. -/
theorem joinLines_eq_iff (h : ValidLines lines) (eol : Lines.Break) :
    joinLines .lf lines = joinLines eol lines ↔ eol = .lf ∨ lines.length = 1 := by
  obtain ⟨l, lines, rfl⟩ := List.exists_cons_of_ne_nil h.1
  constructor
  · intro heq
    cases eol with
    | lf => exact .inl rfl
    | crlf =>
      cases lines with
      | nil => exact .inr rfl
      | cons m lines =>
        refine absurd ?_ (not_mem_joinLines h.2)
        rw [heq, joinLines, Lines.join, List.intercalate_cons_cons]
        exact List.mem_append_left _ (List.mem_append_right _ List.mem_cons_self)
  · rintro (rfl | hlen)
    · rfl
    · obtain rfl := List.eq_nil_of_length_eq_zero (Nat.succ.inj hlen)
      rw [joinLines, joinLines, Lines.join, Lines.join, List.intercalate_singleton,
        List.intercalate_singleton]

/-- A BOM more makes another text. -/
theorem cons_joinLines_ne (h : ValidLines lines) (eol eol' : Lines.Break) :
    BOM :: joinLines eol lines ≠ joinLines eol' lines := by
  obtain ⟨l, lines, rfl⟩ := List.exists_cons_of_ne_nil h.1
  have hmore : ValidLines ((BOM :: l) :: lines) := by
    refine ⟨List.cons_ne_nil _ _, fun m hm ↦ ?_⟩
    rcases List.mem_cons.1 hm with rfl | hm
    · exact Lines.NoBreak.append (l := [BOM]) ⟨by decide, by decide⟩ (h.2 l List.mem_cons_self)
    · exact h.2 m (List.mem_cons_of_mem _ hm)
  have hjoin : BOM :: joinLines eol (l :: lines) = joinLines eol ((BOM :: l) :: lines) := by
    cases lines <;> rfl
  intro heq
  have hlines := congrArg splitLines (hjoin.symm.trans heq)
  rw [splitLines_joinLines hmore, splitLines_joinLines h] at hlines
  exact List.cons_ne_self _ _ (List.cons.inj hlines).1

/-! ### A resync -/

namespace OpenDocument

/-- The text of a save. -/
def fileText (d : OpenDocument) : Text := if d.bom then BOM :: d.mirror.text else d.mirror.text

theorem saveBytes_eq (d : OpenDocument) : d.saveBytes = encode d.fileText := rfl

/-- The document a resync leaves. -/
def resynced (d : OpenDocument) (generation : ℕ) : OpenDocument :=
  (d.reset d.widgetText (d.saveBytes.toList.take 3 == [0xEF, 0xBB, 0xBF]) generation).1

theorem fileText_resynced (d : OpenDocument) (generation : ℕ) :
    (d.resynced generation).fileText =
      if d.bom = true ∨ d.mirror.text.head? = some BOM then BOM :: d.widgetText else d.widgetText := by
  have htext : (d.resynced generation).mirror.text = d.widgetText :=
    mirrorText_joinLines d.mirror.valid
  have hbom : (d.resynced generation).bom = decide (d.bom = true ∨ d.mirror.text.head? = some BOM) := by
    show (d.saveBytes.toList.take 3 == [0xEF, 0xBB, 0xBF]) = _
    rw [saveBytes_eq, take_encode, fileText]
    cases d.bom <;> simp
  rw [fileText, htext, hbom]
  simp only [decide_eq_true_eq]

/-- **A save after a resync writes what a save before it writes** just when the file's line breaks
are `\n`, or it has none, and no BOM that was not there is seen in the text. -/
theorem saveBytes_resynced (d : OpenDocument) (generation : ℕ) :
    (d.resynced generation).saveBytes = d.saveBytes ↔
      (d.mirror.eol = .lf ∨ d.lines.length = 1) ∧ (d.bom = true ∨ d.mirror.text.head? ≠ some BOM) := by
  have hvalid : ValidLines d.lines := d.mirror.valid
  have htext : d.mirror.text = joinLines d.mirror.eol d.lines := rfl
  rw [saveBytes_eq, saveBytes_eq, encode_injective.eq_iff, fileText_resynced, fileText, widgetText]
  cases hbom : d.bom with
  | true =>
    rw [if_pos (.inl rfl), if_pos rfl, List.cons_inj_right, htext, joinLines_eq_iff hvalid]
    exact (and_iff_left (.inl rfl)).symm
  | false =>
    by_cases hhead : d.mirror.text.head? = some BOM
    · rw [if_pos (.inr hhead), if_neg Bool.false_ne_true]
      refine iff_of_false (cons_joinLines_ne hvalid _ _) fun h ↦ ?_
      exact h.2.elim Bool.false_ne_true (· hhead)
    · rw [if_neg (by simp [hhead]), if_neg Bool.false_ne_true, htext, joinLines_eq_iff hvalid]
      exact (and_iff_left (.inr hhead)).symm

end OpenDocument

namespace SessionCore

/-- What a resync leaves of a document that is open. -/
theorem docs_resync {s : SessionCore} {now : Instant} {uri : UriComponents} {doc : OpenDocument}
    (hdoc : s.docs[uri.key]? = some doc) :
    (s.resync now uri).1.docs[uri.key]? = some (doc.resynced (s.nextGeneration + 1)) := by
  have hreset : (resetDoc { s with now } uri.key doc.widgetText none).docs =
      s.docs.insert uri.key (doc.resynced (s.nextGeneration + 1)) := by
    simp only [resetDoc, hdoc]
    exact ((changes_resetCalls _ _ _ _).trans (changes_resetViews _ _)).keep .docs (by decide)
  have hflush : (s.resync now uri).1.docs =
      (resetDoc { s with now } uri.key doc.widgetText none).docs := by
    simp only [resync, hdoc]
    exact changes_flushDecorations.keep .docs (by decide)
  rw [hflush, hreset, Std.ExtTreeMap.getElem?_insert_self]

/-- **A resync leaves what a save writes** just when the line breaks are `\n`, or there is one line,
and the text does not start with a BOM of its own where the file has none. -/
theorem saveBytes_resync (s : SessionCore) (now : Instant) (uri : UriComponents) {doc : OpenDocument}
    (hdoc : s.docs[uri.key]? = some doc) :
    ∃ doc', (s.resync now uri).1.docs[uri.key]? = some doc' ∧
      (doc'.saveBytes = doc.saveBytes ↔ (doc.mirror.eol = .lf ∨ doc.lines.length = 1) ∧
        (doc.bom = true ∨ doc.mirror.text.head? ≠ some BOM)) :=
  ⟨_, docs_resync hdoc, doc.saveBytes_resynced _⟩

/-- A file with a BOM and two lines that end in `\n`. -/
theorem saveBytes_resync_bom :
    ∃ doc doc', (after (openingCalls [BOM, 'a', '\n'])).docs[aFile.key]? = some doc ∧
      ((after (openingCalls [BOM, 'a', '\n'])).resync 0 aFile).1.docs[aFile.key]? = some doc' ∧
      doc'.saveBytes = doc.saveBytes := by
  have hopen : ((after (openingCalls [BOM, 'a', '\n'])).docs[aFile.key]?).map
      (fun d ↦ (d.mirror.eol, d.bom)) = some (.lf, true) := by decide +kernel
  obtain ⟨doc, hdoc, heq⟩ := Option.map_eq_some_iff.1 hopen
  obtain ⟨heol, hbom⟩ := Prod.mk.inj heq
  obtain ⟨doc', hdoc', hiff⟩ := saveBytes_resync _ 0 aFile hdoc
  exact ⟨doc, doc', hdoc, hdoc', hiff.2 ⟨.inl heol, .inl hbom⟩⟩

/-- **A resync turns `\r\n` into `\n`**: a file of two lines is another one after the next save. -/
theorem not_saveBytes_resync :
    ¬ ∀ languages opts now s, (runs languages opts now).Reachable s → ∀ now uri doc,
      s.docs[uri.key]? = some doc → ∃ doc', (s.resync now uri).1.docs[uri.key]? = some doc' ∧
        doc'.saveBytes = doc.saveBytes := by
  intro h
  have hopen : ((after (openingCalls ['a', '\r', '\n'])).docs[aFile.key]?).map
      (fun d ↦ (d.mirror.eol, d.lines.length)) = some (.crlf, 2) := by decide +kernel
  obtain ⟨doc, hdoc, heq⟩ := Option.map_eq_some_iff.1 hopen
  obtain ⟨heol, hlen⟩ := Prod.mk.inj heq
  obtain ⟨doc', hdoc', hsame⟩ := h plainText .default 0 _ (reachable_after _) 0 aFile doc hdoc
  rw [docs_resync hdoc] at hdoc'
  obtain rfl := Option.some.inj hdoc'
  have hcond := ((doc.saveBytes_resynced _).1 hsame).1
  rw [heol, hlen] at hcond
  exact absurd hcond (by decide)

end SessionCore

end Ember.Editor
