import XmlIndex.Proofs.Lexer.Acceptance
import XmlIndex.Proofs.Parse.Persistence

/-! # Namespaces are scopes

A document that is parsed without namespaces is parsed with them just if it is qualified. Up to the first
markup the two lexers go the same way; from there on the one with namespaces reads the tree that the other
has found.
-/
namespace XmlIndex
set_option autoImplicit false
open Grammar

section
variable {options : Options} {doc : ByteArray} {offset length : Nat}

namespace Lex
variable {detected : Detected} {t : Lexer}

/-- The first markup is come to with namespaces as it is without, and nothing is in scope there. -/
theorem exists_start_of_start (hDetect : detect doc offset (offset + length) true = .ok detected)
    (hStart : start (.atRange options false detected doc offset length) = .ok .markup t) :
    ∃ t', start (.atRange options true detected doc offset length) = .ok .markup t' ∧
      Lexer.Within t.cursor [] [] t' ∧ t'.hasDoctype = false := by
  let v : Overlay := .withoutNamespaces doc (offset + length) detected.encoding.unitSize
  have hFollows : v.Follows False v.Phases start start := Overlay.lexes_start
  have hBoth := hFollows _ _ (Overlay.lexers_withoutNamespaces options hDetect)
  rw [hStart] at hBoth
  cases hOn : start (.atRange options true detected doc offset length) with
  | error fault t' =>
    rw [hOn] at hBoth
    exact hBoth.elim
  | ok phase t' =>
    rw [hOn] at hBoth
    have hCursor : t'.cursor = t.cursor := hBoth.2.cursor.eq rfl rfl
    obtain ⟨rfl, opening, u, place, -, hReaches, rfl, -⟩ := reaches_of_start rfl hOn
    obtain ⟨-, tokens, hState, -⟩ := hReaches.reads_again
    refine ⟨_, rfl, ⟨hCursor, ?_, ?_, ?_, rfl⟩, ?_⟩
    · rw [hState]
      rfl
    · rw [hState]
      exact .nil
    · rw [hState]
      exact Namespace.Scopes.between_empty
    · rw [hState]
      rfl

/-- The lexer with namespaces succeeds just if the document that the other one has found is qualified. -/
theorem succeeds_start_iff {d : Document} {place : Nat}
    (hDetect : detect doc offset (offset + length) true = .ok detected)
    (hStart : start (.atRange options false detected doc offset length) = .ok .markup (t.lastAt place))
    (hBody : d.BodyWellFormed) (hFits : d.Fits t.cursor.encoding)
    (hReads : t.cursor.Reads (prologText d.prolog ++ (d.root.text ++ d.epilog.text)))
    (hEnds : (t.cursor.advance (prologText d.prolog ++ (d.root.text ++ d.epilog.text))).Ends) :
    Succeeds (run .start) (.atRange options true detected doc offset length) ↔ d.root.Qualified := by
  obtain ⟨t', hStart', hWithin, hDoctype⟩ := exists_start_of_start hDetect hStart
  have hFitsThere : d.Fits (t.lastAt place).cursor.encoding := hFits
  rw [succeeds_run (show step .start = some <$> start from rfl), succeeds_of_ok hStart']
  exact hinges_body hBody hFitsThere (Lexer.reads_lastAt.mpr hReads) (Lexer.ends_lastAt.mpr hEnds) t'
    ⟨hWithin, hDoctype⟩

end Lex

theorem exists_parseRange_iff {namespaces : Bool} {detected : Detected} (hRange : offset + length ≤ doc.size)
    (hDetect : detect doc offset (offset + length) namespaces = .ok detected) :
    (∃ x, parseRange options namespaces doc offset length = .ok x) ↔
      Lex.Succeeds (Lex.run .start) (.atRange options namespaces detected doc offset length) := by
  rw [parseRange_of_detected hRange hDetect]
  constructor
  · rintro ⟨x, hOk⟩
    cases hRun : Lex.run .start (.atRange options namespaces detected doc offset length) with
    | error fault s =>
      rw [hRun] at hOk
      cases hOk
    | ok u s => exact ⟨_, s, hRun, rfl⟩
  · rintro ⟨r, s, hRun, -⟩
    exact ⟨_, by rw [hRun]⟩

/-- A range that is small enough for namespaces is detected as it is without them. -/
theorem detect_of_parseRange {x : Index} {detected : Detected}
    (hOk : parseRange options false doc offset length = .ok x)
    (hDetect : detect doc offset (offset + length) false = .ok detected)
    (hSize : offset + length < sizeLimit x.encoding true) :
    detect doc offset (offset + length) true = .ok detected := by
  obtain ⟨other, hOther, hUnit⟩ := unitSize_of_parseRange hOk
  obtain rfl : detected = other := Except.ok.inj (hDetect.symm.trans hOther)
  obtain ⟨hNonempty, hHead, -⟩ := detect_eq_ok_iff.mp hDetect
  exact detect_eq_ok_iff.mpr ⟨hNonempty, hHead, sizeLimit_eq_of_unitSize hUnit true ▸ hSize⟩

/-- A range that is parsed without namespaces, and is small enough for them, holds a document; it is parsed
with namespaces just if this document is qualified. The document is the one whose tokens were recorded: they
come after those of its opening. -/
theorem parseRange_namespaces_iff {x : Index} (hOk : parseRange options false doc offset length = .ok x)
    (hSize : offset + length < sizeLimit x.encoding true) :
    ∃ (d : Document) (before : List Token), d.Tolerated ∧
      (x.encoding.charactersOf doc offset length).1 = d.text ∧
      x.tokens.toList = before ++ d.bodyTokens x.encoding options.recordWhitespace
        (contentStart doc offset length + x.encoding.size (d.opening.text ++ [CodePoint.lessThan])) ∧
      ((∃ y, parseRange options true doc offset length = .ok y) ↔ d.root.Qualified) := by
  obtain ⟨detected, s, hDetect, hRun, hIndex⟩ := exists_run_of_parseRange hOk
  have hDetectOn := detect_of_parseRange hOk hDetect hSize
  obtain ⟨-, hHead, -⟩ := detect_eq_ok_iff.mp hDetect
  obtain ⟨d, t, place, hTolerated, hFits, hStart, hReaches, hReads, hEnds, hReading⟩ :=
    Lex.exists_body_of_completes rfl rfl rfl ⟨s, hRun, rfl⟩
  obtain ⟨-, tokens, hState, -⟩ := hReaches.reads_again
  obtain ⟨hWhole, hWholeEnds⟩ := Lex.reads_document_of_reaches hReaches hReads hEnds
  have hRecord : t.recordWhitespace = options.recordWhitespace := by
    rw [hState]
    rfl
  have hEncoding : x.encoding = t.cursor.encoding :=
    (congrArg Index.encoding hIndex).trans (congrArg Reading.encoding hReading)
  have hTokens : x.tokens.toList =
      t.tokens ++ d.bodyTokens t.cursor.encoding t.recordWhitespace t.cursor.offset :=
    (congrArg (·.tokens.toList) hIndex).trans (congrArg Reading.tokens hReading)
  have hFirst : contentStart doc offset length = offset + detected.mark.size := by
    rw [contentStart, ByteOrderMark.ofHead_eq hHead]
  rw [hRecord, hReaches.offset_eq, ← hEncoding] at hTokens
  rw [← hEncoding] at hWhole hWholeEnds
  refine ⟨d, t.tokens, hTolerated, congrArg Prod.fst (charactersOf_of_reads ?_ ?_), ?_, ?_⟩
  · rw [hFirst]
    exact hWhole
  · rw [hFirst]
    exact hWholeEnds
  · rw [hFirst]
    exact hTokens
  · rw [exists_parseRange_iff (le_size_of_parseRange hOk) hDetectOn]
    exact Lex.succeeds_start_iff hDetectOn hStart hTolerated.2 hFits hReads hEnds

end

/-- `<a xmlns:p='u'><p:b/></a>` -/
def scopedChild : ByteArray :=
  ⟨#[0x3C, 0x61, 0x20, 0x78, 0x6D, 0x6C, 0x6E, 0x73, 0x3A, 0x70, 0x3D, 0x27, 0x75, 0x27, 0x3E, 0x3C, 0x70, 0x3A, 0x62,
    0x2F, 0x3E, 0x3C, 0x2F, 0x61, 0x3E]⟩

def scopedChildIndex : Index where
  buffer := scopedChild
  docOffset := 0
  docLength := 25
  encoding := .utf8
  namespaces := false
  maxDepth := 1
  root := some 1
  tokens := #[⟨.document, -1, 0, 0⟩, ⟨.startTag, 0, 1, 1⟩, ⟨.namespaceName, 0, 3, 10247⟩, ⟨.attributeValue, 0, 12, 1⟩,
    ⟨.startTag, 1, 16, 2051⟩]
  cache := ⟨#[#[⟨4, none⟩], #[]], #[]⟩

theorem parseRange_scopedChild : parseRange {} false scopedChild 0 25 = .ok scopedChildIndex :=
  @parseRange_of_runWithin _ _ _ _ _ 6 ⟨.utf8, .none⟩ _ (by decide) rfl (by decide +kernel)

theorem parseRange_namespaces_scopedChild :
    parseRange {} false scopedChild 0 25 = .ok scopedChildIndex ∧ 0 + 25 < sizeLimit scopedChildIndex.encoding true ∧
      ∃ (d : Document) (before : List Token), d.Tolerated ∧
        (scopedChildIndex.encoding.charactersOf scopedChild 0 25).1 = d.text ∧
        scopedChildIndex.tokens.toList = before ++ d.bodyTokens scopedChildIndex.encoding ({} : Options).recordWhitespace
          (contentStart scopedChild 0 25 + scopedChildIndex.encoding.size (d.opening.text ++ [CodePoint.lessThan])) ∧
        ((∃ y, parseRange {} true scopedChild 0 25 = .ok y) ↔ d.root.Qualified) :=
  ⟨parseRange_scopedChild, by decide, parseRange_namespaces_iff parseRange_scopedChild (by decide)⟩

end XmlIndex
