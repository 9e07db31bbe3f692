import XmlIndex.Proofs.Parse.Readability
import XmlIndex.Proofs.Parse.Restriction
import XmlIndex.Proofs.Parse.Shape

/-! # Recording space

Whether space between markup is recorded decides about tokens of space alone. All other tokens are found
in either way, with the same root, the same cache and the same depth, and the same documents are refused.
-/
namespace XmlIndex
set_option autoImplicit false
open Grammar

theorem Scan.forward_nextAfterSpace? : Scan.Forward Scan.nextAfterSpace? := by
  intro c found c' hOk
  cases found with
  | some ch => exact (nextAfterSpace?_advances hOk).reaches
  | none =>
    obtain ⟨space, hReads, -, -, rfl⟩ := nextAfterSpace?_eq_ok_none_iff.mp hOk
    refine ⟨Cursor.doc_advance, Cursor.start_advance, Cursor.stop_advance, ?_, fun hInside => ?_⟩
    · rw [Cursor.offset_advance]
      exact Nat.le_add_right _ _
    · rw [Cursor.offset_advance, Cursor.stop_advance]
      by_cases hNone : space = []
      · rw [hNone]
        exact hInside
      · exact hReads.le_stop hNone

namespace Lex

theorem forward_epilog : Forward epilog := by
  refine (forward_read Scan.forward_nextAfterSpace?).bind fun found => ?_
  cases found with
  | none => exact forward_pure none
  | some ch =>
    refine (forward_require _ _).bind fun _ => (forward_read Scan.forward_tail).bind fun tail => ?_
    cases tail with
    | comment => exact forward_comment.bind fun _ => forward_pure _
    | instruction => exact forward_instruction.bind fun _ => forward_pure _

theorem forward_step (phase : Phase) : Forward (step phase) := by
  cases phase with
  | start => exact (progressive_map some progressive_start).forward
  | markup => exact (progressive_map some progressive_markup).forward
  | attributes place first => exact (progressive_map some (progressive_readAttribute _ _)).forward
  | epilog => exact forward_epilog

theorem forward_run (phase : Phase) : Forward (run phase) := by
  intro s _ s' hOk
  fun_induction run phase s with
  | case1 phase s s₁ hStep =>
    cases hOk
    exact forward_step phase s none _ hStep
  | case2 phase s phase₁ s₁ hStep ih => exact (step_advances hStep).reaches.trans (ih hOk)
  | case3 phase s fault s₁ hStep => cases hOk

end Lex

/-- The token is some of a run of space before markup, in the document of the index. Its text is that space,
unless the range begins inside a code unit. -/
structure Index.IsBlank (x : Index) (t : Token) : Prop where
  kind : t.kind = .characterData
  length_pos : 0 < t.length
  run : (Cursor.atStart x.buffer (contentStart x.buffer x.docOffset x.docLength) (x.docOffset + x.docLength)
    x.encoding).Blank t
  rawText : x.encoding.unitSize ∣ x.docOffset →
    ∃ space, space ≠ [] ∧ IsSpace space ∧ x.rawText t = .ok (String.ofList (space.map Char.ofNat))

/-- What is blank depends on the document and the range alone. -/
theorem Cursor.Blank.congr {c c' : Cursor} {t : Token} (hBlank : c.Blank t) (hDoc : c'.doc = c.doc)
    (hStart : c'.start = c.start) (hStop : c'.stop = c.stop) (hEncoding : c'.encoding = c.encoding) : c'.Blank t := by
  unfold Cursor.Blank at hBlank ⊢
  simp only [hStart, hEncoding, Cursor.readsAt_congr hDoc hStop hEncoding]
  exact hBlank

/-- A piece of a run takes whole units, at the start of one. -/
theorem Index.isBlank_of_blank {x : Index} {t : Token} (hInside : x.docOffset + x.docLength ≤ x.buffer.size)
    (hStart : x.encoding.unitSize ∣ x.docOffset →
      x.encoding.unitSize ∣ contentStart x.buffer x.docOffset x.docLength)
    (hBlank : (Cursor.atStart x.buffer (contentStart x.buffer x.docOffset x.docLength)
      (x.docOffset + x.docLength) x.encoding).Blank t) : x.IsBlank t := by
  obtain ⟨place, before, piece, after, hSpace, hPiece, hReads, hAligned, hKind, hOffset, hLength⟩ := id hBlank
  simp only [Cursor.atStart] at hAligned hOffset hLength
  have hParts := List.forall_mem_append.mp hSpace
  have hPieceSpace : IsSpace piece := (List.forall_mem_append.mp hParts.2).1
  have hUnit : 0 < x.encoding.unitSize := x.encoding.unitSize_pos
  have hSize {text : Chars} (hText : IsSpace text) : x.encoding.size text = text.length * x.encoding.unitSize :=
    Encoding.size_of_ascii (isAscii_of_isSpace hText)
  have hUnits : t.length = piece.length := by
    rw [Token.length, hKind, hLength, hSize hPieceSpace, Nat.mul_div_cancel _ hUnit]
    rfl
  refine ⟨hKind, ?_, hBlank, fun hWhole => ⟨piece, hPiece, hPieceSpace, ?_⟩⟩
  · rw [hUnits]
    exact List.length_pos_iff.mpr hPiece
  · have hHere := (Cursor.readsAt_append.mp (Cursor.readsAt_append.mp hReads).2).1
    have hEnd := hHere.le_stop hPiece
    refine Index.rawText_of_reads ?_ ?_ (Nat.le_trans hEnd hInside) hHere
    · rw [hOffset]
      refine Nat.div_mul_cancel (Nat.dvd_add (hAligned (hStart hWhole)) ?_)
      rw [hSize hParts.1]
      exact Nat.dvd_mul_left _ _
    · rw [hUnits, hSize hPieceSpace]

/-- The second index has the tokens of the first, which stand at the places that are told, and else tokens of
space; what it tells of its tokens is what the first tells, at these places. -/
structure Index.AddsSpace (x y : Index) (f : Nat → Nat) : Prop where
  strictMono : StrictMono f
  tokens : ∀ i < x.tokens.size, y.tokens[f i]? = x.tokens[i]?
  blank : ∀ j t, y.tokens[j]? = some t → (∃ i < x.tokens.size, f i = j) ∨ y.IsBlank t
  root : y.root = x.root.map f
  cache : y.cache = x.cache.mapTokens f
  maxDepth : y.maxDepth = x.maxDepth
  encoding : y.encoding = x.encoding
  namespaces : y.namespaces = x.namespaces

section
variable {cacheDepth : CacheDepth} {namespaces : Bool} {doc : ByteArray} {offset length : Nat} {x y : Index}
  {sort : Token → Prop}

/-- What is blank where a run reads is blank in its index. -/
theorem isBlank_of_run {options : Options} {detected : Detected} {c : Cursor} {s : Lexer} {t : Token}
    (hRange : offset + length ≤ doc.size) (hDetect : detect doc offset (offset + length) namespaces = .ok detected)
    (hRun : Lex.run .start (.atRange options namespaces detected doc offset length) = .ok () s)
    (hMoved : c.Moved s.cursor) (hBlank : c.Blank t) : (s.index doc offset length).1.IsBlank t := by
  have hReaches := Lex.forward_run .start _ _ _ hRun
  obtain ⟨-, hHead, -⟩ := detect_eq_ok_iff.mp hDetect
  have hStart : contentStart doc offset length = offset + detected.mark.size := by
    rw [contentStart, ByteOrderMark.ofHead_eq hHead]
  have hOk : parseRange options namespaces doc offset length = .ok (s.index doc offset length).1 := by
    rw [parseRange_of_detected hRange hDetect, hRun]
  obtain ⟨_, hDetect', hUnit⟩ := unitSize_of_parseRange hOk
  obtain rfl := Except.ok.inj (hDetect.symm.trans hDetect')
  refine Index.isBlank_of_blank hRange (fun hWhole => ?_) ?_
  · rw [hUnit] at hWhole ⊢
    change detected.encoding.unitSize ∣ contentStart doc offset length
    rw [hStart]
    exact Nat.dvd_add hWhole (Detected.mark_of_ofHead hHead).2
  · refine hBlank.congr (hReaches.doc_eq.symm.trans hMoved.doc_eq) ?_ (hReaches.stop_eq.symm.trans hMoved.stop_eq)
      hMoved.encoding_eq
    exact hStart.trans (hReaches.start_eq.symm.trans hMoved.start_eq)

theorem outcome_withSpace {detected : Detected} (hFits : offset + length < sizeLimit detected.encoding namespaces) :
    Variation.whitespace.Outcome (fun _ _ s t => ∃ c, Variation.whitespace.Lexers (some c) s t)
      (Lex.run .start (.atRange ⟨false, cacheDepth⟩ namespaces detected doc offset length))
      (Lex.run .start (.atRange ⟨true, cacheDepth⟩ namespaces detected doc offset length)) := by
  have hSettings : Variation.whitespace.Settings ⟨false, cacheDepth⟩ ⟨true, cacheDepth⟩ namespaces namespaces
      length length :=
    { levels_eq := rfl
      length_le := Nat.le_refl _
      length_eq := fun _ => rfl
      namespaces_eq := fun _ => rfl
      namespaces_off := nofun
      whitespace_eq := fun h => absurd rfl h
      whitespace_on := fun _ => ⟨rfl, rfl⟩ }
  exact (Variation.ends_start (hSettings.lexers hFits)).outcome nofun

/-- Streams of which one has more blank tokens make such indexes. -/
theorem exists_addsSpace (hOk : parseRange ⟨false, cacheDepth⟩ namespaces doc offset length = .ok x)
    (hOk' : parseRange ⟨true, cacheDepth⟩ namespaces doc offset length = .ok y)
    (hSpaced : Spaced sort x.tokens.toList y.tokens.toList) (hBlank : ∀ t, sort t → y.IsBlank t)
    (hEncoding : y.encoding = x.encoding) (hNamespaces : y.namespaces = x.namespaces) : ∃ f, x.AddsSpace y f := by
  have hSort : ∀ t, sort t → t.kind ≠ .startTag := by
    intro t ht hStart
    have hKind := (hBlank t ht).kind
    rw [hStart] at hKind
    cases hKind
  obtain ⟨hCache, hRoot, hMaxDepth⟩ := told_of_parseRange hOk
  obtain ⟨hCache', hRoot', hMaxDepth'⟩ := told_of_parseRange hOk'
  obtain ⟨f, hPlaces⟩ := hSpaced.exists_places
  refine ⟨f, hPlaces.strictMono, ?_, ?_, ?_, ?_, ?_, hEncoding, hNamespaces⟩
  · intro i hi
    rw [← Array.getElem?_toList, ← Array.getElem?_toList]
    exact hPlaces.getElem?_eq i hi
  · intro j t ht
    rw [← Array.getElem?_toList] at ht
    exact (hPlaces.image_or j t ht).imp_right (hBlank t)
  · rw [hRoot', hRoot, hPlaces.root_eq hSort]
  · rw [hCache', hCache, hPlaces.cache_eq hSort]
  · rw [hMaxDepth', hMaxDepth, hSpaced.deepest_eq hSort]

/-- Whether space is recorded or not, a parse ends alike: in indexes of which one adds tokens of space, or in
the same failure. -/
theorem parseRange_whitespace_cases :
    (∃ x y f, parseRange ⟨false, cacheDepth⟩ namespaces doc offset length = .ok x ∧
      parseRange ⟨true, cacheDepth⟩ namespaces doc offset length = .ok y ∧ x.AddsSpace y f) ∨
    ∃ failure, parseRange ⟨false, cacheDepth⟩ namespaces doc offset length = .error failure ∧
      parseRange ⟨true, cacheDepth⟩ namespaces doc offset length = .error failure := by
  by_cases hRange : offset + length ≤ doc.size
  · cases hDetect : detect doc offset (offset + length) namespaces with
    | error cause =>
      exact .inr ⟨_, parseRange_of_undetected hRange hDetect, parseRange_of_undetected hRange hDetect⟩
    | ok detected =>
      have hOff := @parseRange_of_detected ⟨false, cacheDepth⟩ _ _ _ _ _ hRange hDetect
      have hOn := @parseRange_of_detected ⟨true, cacheDepth⟩ _ _ _ _ _ hRange hDetect
      have hRuns := @outcome_withSpace cacheDepth namespaces doc offset length detected (detect_eq_ok_iff.mp hDetect).2.2
      cases hShort : Lex.run .start (.atRange ⟨false, cacheDepth⟩ namespaces detected doc offset length) with
      | ok u s =>
        rw [hShort] at hOff hRuns
        obtain ⟨u', t, hLong, c, hLexers⟩ := hRuns.exists_ok
        rw [hLong] at hOn
        obtain ⟨-, -, hSpaced⟩ := hLexers.spaced rfl
        have hMoved : c.Moved t.cursor := hLexers.cursors.eq_of_ne nofun ▸ hLexers.moves
        obtain ⟨f, hAdds⟩ := exists_addsSpace hOff hOn (hSpaced c rfl)
          (fun _ => isBlank_of_run hRange hDetect hLong hMoved) hLexers.encoding_eq (hLexers.scopes_eq nofun).1
        exact .inl ⟨_, _, f, hOff, hOn, hAdds⟩
      | error fault s =>
        rw [hShort] at hOff hRuns
        cases hLong : Lex.run .start (.atRange ⟨true, cacheDepth⟩ namespaces detected doc offset length) with
        | ok u' t =>
          rw [hLong] at hRuns
          exact hRuns.elim
        | error fault' t =>
          rw [hLong] at hOn hRuns
          obtain ⟨rfl, hCursors⟩ := hRuns.resolve_left id
          exact .inr ⟨_, hOff, hOn.trans (congrArg Except.error (Lexer.failure_congr (hCursors.eq_of_ne nofun) _))⟩
  · have hOutside := Nat.not_le.mp hRange
    exact .inr ⟨_, parseRange_of_outside hOutside, parseRange_of_outside hOutside⟩

end

/-- `<a>`, a tab and `<b/></a>` in 16-bit units after a byte of something else and a mark. -/
def shiftedTab : ByteArray :=
  ⟨#[0x00, 0xFF, 0xFE, 0x3C, 0x00, 0x61, 0x00, 0x3E, 0x00, 0x09, 0x00, 0x3C, 0x00, 0x62, 0x00, 0x2F, 0x00, 0x3E, 0x00,
    0x3C, 0x00, 0x2F, 0x00, 0x61, 0x00, 0x3E, 0x00]⟩

def shiftedTabIndex : Index where
  buffer := shiftedTab
  docOffset := 1
  docLength := 26
  encoding := .utf16 .little
  namespaces := false
  maxDepth := 1
  root := some 1
  tokens := #[⟨.document, -1, 0, 0⟩, ⟨.startTag, 0, 2, 1⟩, ⟨.characterData, 0, 4, 1⟩, ⟨.startTag, 1, 6, 1⟩]
  cache := ⟨#[#[⟨3, none⟩], #[]], #[]⟩

theorem parseRange_shiftedTab : parseRange ⟨true, .automatic⟩ false shiftedTab 1 26 = .ok shiftedTabIndex :=
  @parseRange_of_runWithin _ _ _ _ _ 6 ⟨.utf16 .little, .utf16⟩ _ (by decide) rfl (by with_unfolding_all rfl)

def shiftedTabIndexWithout : Index :=
  { shiftedTabIndex with
    tokens := #[⟨.document, -1, 0, 0⟩, ⟨.startTag, 0, 2, 1⟩, ⟨.startTag, 1, 6, 1⟩]
    cache := ⟨#[#[⟨2, none⟩], #[]], #[]⟩ }

theorem parseRange_shiftedTab_without :
    parseRange ⟨false, .automatic⟩ false shiftedTab 1 26 = .ok shiftedTabIndexWithout :=
  @parseRange_of_runWithin _ _ _ _ _ 6 ⟨.utf16 .little, .utf16⟩ _ (by decide) rfl (by with_unfolding_all rfl)

/-- The tab is a token of space, but its bytes are read one byte too early. -/
theorem parseRange_whitespace_cases_shiftedTab : (∃ f, shiftedTabIndexWithout.AddsSpace shiftedTabIndex f) ∧
    shiftedTabIndex.IsBlank ⟨.characterData, 0, 4, 1⟩ ∧
    shiftedTabIndex.rawBytes ⟨.characterData, 0, 4, 1⟩ = ⟨#[0x00, 0x09]⟩ := by
  obtain ⟨x, y, f, hOff, hOn, hAdds⟩ | ⟨failure, -, hOn⟩ :=
    @parseRange_whitespace_cases .automatic false shiftedTab 1 26
  · obtain rfl : shiftedTabIndexWithout = x := Except.ok.inj (parseRange_shiftedTab_without.symm.trans hOff)
    obtain rfl : shiftedTabIndex = y := Except.ok.inj (parseRange_shiftedTab.symm.trans hOn)
    refine ⟨⟨f, hAdds⟩, (hAdds.blank 2 _ rfl).resolve_left ?_, rfl⟩
    rintro ⟨i, hi, hPlace⟩
    have hSame := hAdds.tokens i hi
    rw [hPlace] at hSame
    have hOther : ∀ i < shiftedTabIndexWithout.tokens.size,
        shiftedTabIndex.tokens[2]? ≠ shiftedTabIndexWithout.tokens[i]? := by decide
    exact hOther i hi hSame
  · cases parseRange_shiftedTab.symm.trans hOn

end XmlIndex
