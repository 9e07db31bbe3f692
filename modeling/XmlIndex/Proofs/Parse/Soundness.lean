import XmlIndex.Proofs.Parse.Completeness

/-! # Only documents are parsed

The characters of a range that is parsed are those of a document, with namespaces or without and in
any encoding. What is left after them is nothing, or less than a character.
-/
namespace XmlIndex
set_option autoImplicit false
open Grammar

namespace Lex
variable {s : Lexer} {r : Reading}

/-- A lexer that completes its document has come to the first markup past an opening, and the rest of a
document is left. -/
theorem exists_body_of_completes (hOff : s.namespaces = false) (hOutside : s.openTags = [])
    (hDoctype : s.hasDoctype = false) (hCompletes : Completes (run .start) s r) :
    ∃ (d : Document) (t : Lexer) (place : Nat), d.Tolerated ∧ d.Fits t.cursor.encoding ∧
      start s = .ok .markup (t.lastAt place) ∧ s.Reaches (d.opening.text ++ [CodePoint.lessThan]) t ∧
      t.cursor.Reads (prologText d.prolog ++ (d.root.text ++ d.epilog.text)) ∧
      (t.cursor.advance (prologText d.prolog ++ (d.root.text ++ d.epilog.text))).Ends ∧
      r = ⟨t.cursor.encoding, t.tokens ++ d.bodyTokens t.cursor.encoding t.recordWhitespace t.cursor.offset⟩ := by
  have hDepth : s.depth = -1 := by
    rw [Lexer.depth, hOutside]
    rfl
  rw [completes_run (show step .start = some <$> start from rfl), completes_bind] at hCompletes
  obtain ⟨_, _, hStart, hRest⟩ := hCompletes
  obtain ⟨rfl, opening, t, place, hTolerated, hReaches, rfl, -⟩ := reaches_of_start hDepth hStart
  obtain ⟨hOpens, tokens, hState, hOpening⟩ := hReaches.reads_again
  have hOffLater : t.namespaces = false := by rw [hState]; exact hOff
  have hOutsideLater : t.openTags = [] := by rw [hState]; exact hOutside
  have hDoctypeLater : t.hasDoctype = false := by rw [hState]; exact hDoctype
  rw [completes_lastAt hOffLater hOutsideLater, (Lexer.understood t hOffLater).outside hOutsideLater,
    hDoctypeLater] at hRest
  obtain ⟨text, more, hReads, hProlog, hEnds, rfl⟩ := hRest
  obtain ⟨d, hBody, hFits, rfl, rfl⟩ := prolog_document_iff.mp hProlog
  exact ⟨{ d with opening }, t, place, ⟨hTolerated, hBody.prolog, hBody.root, hBody.epilog⟩,
    ⟨hFits.prolog, hFits.root, hFits.epilog⟩, hStart, hReaches, hReads, hEnds, rfl⟩

/-- A document whose opening has been reached, and whose rest is before the lexer, can be read from the start. -/
theorem reads_document_of_reaches {d : Document} {t : Lexer}
    (hReaches : s.Reaches (d.opening.text ++ [CodePoint.lessThan]) t)
    (hReads : t.cursor.Reads (prologText d.prolog ++ (d.root.text ++ d.epilog.text)))
    (hEnds : (t.cursor.advance (prologText d.prolog ++ (d.root.text ++ d.epilog.text))).Ends) :
    (s.cursor.recode t.cursor.encoding).Reads d.text ∧
      ((s.cursor.recode t.cursor.encoding).advance d.text).Ends := by
  rw [hReaches.cursor_eq] at hReads hEnds
  rw [Document.text_eq]
  exact ⟨Cursor.reads_append.mpr ⟨hReaches.reads_again.1, hReads⟩, Cursor.advance_append ▸ hEnds⟩

/-- A lexer that completes its document has one before it, in the encoding that is known in the end,
and the tokens that it writes are laid out along it. -/
theorem exists_document_of_completes (hOff : s.namespaces = false) (hOutside : s.openTags = [])
    (hDoctype : s.hasDoctype = false) (hCompletes : Completes (run .start) s r) :
    ∃ (d : Document) (tokens : List Token), d.Tolerated ∧ (s.cursor.recode r.encoding).Reads d.text ∧
      ((s.cursor.recode r.encoding).advance d.text).Ends ∧ r.tokens = s.tokens ++ tokens ∧
      Layout r.encoding s.cursor.offset d.text tokens := by
  obtain ⟨d, t, place, hTolerated, hFits, -, hReaches, hReads, hEnds, rfl⟩ :=
    exists_body_of_completes hOff hOutside hDoctype hCompletes
  obtain ⟨-, tokens, hState, hOpening⟩ := hReaches.reads_again
  obtain ⟨hWhole, hWholeEnds⟩ := reads_document_of_reaches hReaches hReads hEnds
  have hTokens : t.tokens = s.tokens ++ tokens := by
    conv => lhs; rw [hState]
    exact Draft.toList_append
  refine ⟨d, tokens ++ d.bodyTokens t.cursor.encoding t.recordWhitespace t.cursor.offset, hTolerated,
    hWhole, hWholeEnds, ?_, ?_⟩
  · rw [← List.append_assoc, ← hTokens]
  · have hRest := @Document.layout_body t.cursor.encoding t.cursor.offset t.recordWhitespace d hTolerated.2 hFits
    rw [Document.text_eq]
    exact hOpening.append (hReaches.offset_eq ▸ hRest)

end Lex

def ByteOrderMark.ofHead : List Nat → ByteOrderMark
  | 0xEF :: 0xBB :: 0xBF :: _ => .utf8
  | 0xFE :: 0xFF :: _ => .utf16
  | 0xFF :: 0xFE :: _ => .utf16
  | _ => .none

theorem ByteOrderMark.ofHead_eq {bytes : List Nat} {detected : Detected}
    (hHead : Detected.ofHead bytes = .ok detected) : ByteOrderMark.ofHead bytes = detected.mark := by
  unfold Detected.ofHead at hHead
  split at hHead <;> cases hHead <;> first | rfl | (unfold ByteOrderMark.ofHead; split <;> simp_all)

/-- Where the characters of a range begin. -/
def contentStart (doc : ByteArray) (offset length : Nat) : Nat :=
  offset + (ByteOrderMark.ofHead (headBytes doc offset (offset + length))).size

/-- The characters of a range after its mark, and the fault that ends them, if any. -/
def Encoding.charactersOf (e : Encoding) (doc : ByteArray) (offset length : Nat) : Chars × Option DecodeFault :=
  let (characters, fault?) := e.decodeFrom doc (offset + length) (contentStart doc offset length)
  (characters.map Prod.fst, fault?)

section
variable {options : Options} {namespaces : Bool} {doc : ByteArray} {offset length : Nat} {x : Index}

/-- A range that is parsed holds a document along which its tokens are laid out, and then ends. -/
theorem exists_layout_of_parseRange (hOk : parseRange options namespaces doc offset length = .ok x) :
    ∃ (d : Document) (tokens : List Token), d.Tolerated ∧
      (Cursor.atStart doc (contentStart doc offset length) (offset + length) x.encoding).Reads d.text ∧
      ((Cursor.atStart doc (contentStart doc offset length) (offset + length) x.encoding).advance d.text).Ends ∧
      x.tokens.toList = ⟨.document, -1, 0, 0⟩ :: tokens ∧
      Layout x.encoding (contentStart doc offset length) d.text tokens := by
  obtain ⟨detected, s, hDetect, hRun, hIndex⟩ := exists_run_of_parseRange (parseRange_of_namespaces hOk)
  have hEncoding : x.encoding = s.cursor.encoding := congrArg Index.encoding hIndex
  have hTokens : x.tokens = s.draft.tokens := congrArg Index.tokens hIndex
  obtain ⟨-, hHead, -⟩ := detect_eq_ok_iff.mp hDetect
  obtain ⟨d, tokens, hTolerated, hReads, hEnds, hAll, hLayout⟩ :=
    Lex.exists_document_of_completes rfl rfl rfl ⟨s, hRun, rfl⟩
  rw [Lexer.cursor_atRange] at hReads hEnds
  rw [contentStart, ByteOrderMark.ofHead_eq hHead, hEncoding, hTokens]
  exact ⟨d, tokens, hTolerated, hReads, hEnds, hAll, hLayout⟩

/-- A range that is parsed holds a document, and then ends. -/
theorem exists_document_of_parseRange (hOk : parseRange options namespaces doc offset length = .ok x) :
    ∃ d : Document, d.Tolerated ∧
      (Cursor.atStart doc (contentStart doc offset length) (offset + length) x.encoding).Reads d.text ∧
      ((Cursor.atStart doc (contentStart doc offset length) (offset + length) x.encoding).advance d.text).Ends := by
  obtain ⟨d, tokens, hTolerated, hReads, hEnds, -⟩ := exists_layout_of_parseRange hOk
  exact ⟨d, hTolerated, hReads, hEnds⟩

/-- A text that a range is read as, to where it ends, is all its characters. -/
theorem charactersOf_of_reads {e : Encoding} {text : Chars}
    (hReads : (Cursor.atStart doc (contentStart doc offset length) (offset + length) e).Reads text)
    (hEnds : ((Cursor.atStart doc (contentStart doc offset length) (offset + length) e).advance text).Ends) :
    e.charactersOf doc offset length =
      (text, if contentStart doc offset length + e.size text < offset + length then some .truncated else none) := by
  have hDecode : e.decodeFrom doc (offset + length) (contentStart doc offset length) =
      (text.map fun ch => (ch, e.width ch),
        if contentStart doc offset length + e.size text < offset + length then some .truncated else none) :=
    Cursor.decodeFrom_of_reads hReads hEnds
  rw [Encoding.charactersOf, hDecode]
  simp [Function.comp_def]

/-- A document in UTF-8 has its own characters, whatever part of another comes after them. -/
theorem charactersOf_rendering_append {d : Document} {after : List UInt8} (hTolerated : d.Tolerated)
    (hAfter : after = [] ∨ Encoding.utf8.CutsOff (after.map UInt8.toNat)) :
    Encoding.utf8.charactersOf (rendering d.text ++ after.toByteArray) 0
      (rendering d.text ++ after.toByteArray).size =
        (d.text, if after = [] then none else some .truncated) := by
  let bytes := rendering d.text ++ after.toByteArray
  have hSize : bytes.size = Encoding.utf8.size d.text + after.length := size_rendering_append hTolerated.isValid
  obtain ⟨ch, next, rest, hText, hAscii⟩ := Document.exists_head hTolerated
  have hHead : Detected.ofHead (headBytes bytes 0 bytes.size) = .ok ⟨.utf8, .none⟩ :=
    ofHead_rendering_append hText hAscii hTolerated.isValid
  have hStart : contentStart bytes 0 bytes.size = 0 := by
    rw [contentStart, Nat.zero_add, Nat.zero_add, ByteOrderMark.ofHead_eq hHead]
    rfl
  have hCharacters := @charactersOf_of_reads bytes 0 bytes.size .utf8 d.text
  rw [hStart, Nat.zero_add, Nat.zero_add] at hCharacters
  refine (hCharacters (reads_rendering_append hTolerated.isValid)
    (ends_rendering_append hTolerated.isValid hAfter)).trans ?_
  rw [hSize]
  cases after <;> simp

/-- The characters of a range that is parsed are those of a document. -/
theorem parseRange_sound (hOk : parseRange options namespaces doc offset length = .ok x) :
    ∃ d : Document, d.Tolerated ∧ (x.encoding.charactersOf doc offset length).1 = d.text ∧ IsValid d.text := by
  obtain ⟨d, hTolerated, hReads, hEnds⟩ := exists_document_of_parseRange hOk
  exact ⟨d, hTolerated, congrArg Prod.fst (charactersOf_of_reads hReads hEnds), hTolerated.isValid⟩

theorem parseRange_sound_greeting : ∃ x d, parse {} false (rendering (CodePoint.ofText "<a b='c'>d</a>")) = .ok x ∧
    Document.Tolerated d ∧ (x.encoding.charactersOf (rendering (CodePoint.ofText "<a b='c'>d</a>")) 0
      (rendering (CodePoint.ofText "<a b='c'>d</a>")).size).1 = d.text ∧ IsValid d.text := by
  have hText : CodePoint.ofText "<a b='c'>d</a>" = greeting.text := by decide
  have hSize : (rendering greeting.text).size < 2 ^ 31 := by
    rw [rendering_eq, List.size_toByteArray]
    decide
  rw [hText]
  obtain ⟨x, hOk, -, -⟩ := parse_of_caseless {} greeting_wellFormed.1.caseless trivial greeting_wellFormed.2
    greeting_fits hSize
  obtain ⟨d, hSound⟩ := parseRange_sound hOk
  exact ⟨x, d, hOk, hSound⟩

/-- After the characters of a range that is parsed, those of a document, there is nothing, or bytes too
few for a character: comments, instructions and space alone follow the root. -/
theorem rest_of_parseRange (hOk : parseRange options namespaces doc offset length = .ok x) :
    ∃ (d : Document) (rest : List Nat), d.Tolerated ∧
      (x.encoding.charactersOf doc offset length).1 = d.upToRoot ++ d.epilog.text ∧
      contentStart doc offset length + x.encoding.size d.text + rest.length = offset + length ∧
      BytesAt doc (offset + length) (contentStart doc offset length + x.encoding.size d.text) rest ∧
      (rest = [] ∧ (x.encoding.charactersOf doc offset length).2 = none ∨
        x.encoding.CutsOff rest ∧ (x.encoding.charactersOf doc offset length).2 = some .truncated) := by
  obtain ⟨d, hTolerated, hReads, hEnds⟩ := exists_document_of_parseRange hOk
  obtain ⟨ch, next, more, hText, -⟩ := Document.exists_head hTolerated
  have hRoom : contentStart doc offset length + x.encoding.size d.text ≤ offset + length :=
    hReads.le_stop (hText ▸ List.cons_ne_nil ch _)
  obtain ⟨rest, hBytes, hRest⟩ := exists_bytesAt (le_size_of_parseRange hOk) hRoom
  have hLeft := (Encoding.decodeAt_eq_truncated_iff hBytes hRest).mp (Cursor.ends_advance_iff.mp hEnds)
  have hCharacters := charactersOf_of_reads hReads hEnds
  refine ⟨d, rest, hTolerated, congrArg Prod.fst hCharacters, hRest, hBytes, ?_⟩
  rcases hLeft with rfl | hCut
  · refine .inl ⟨rfl, ?_⟩
    rw [List.length_nil, Nat.add_zero] at hRest
    rw [hCharacters, if_neg (Nat.not_lt.mpr (Nat.le_of_eq hRest.symm))]
  · have hLeast := hCut.bounds.2.1
    refine .inr ⟨hCut, ?_⟩
    rw [hCharacters, if_pos (by omega)]

/-- `<a b='c'>d</a>` and half of a character. -/
def cutGreeting : ByteArray :=
  rendering greeting.text ++ [0xC3].toByteArray

theorem rest_of_cutGreeting : ∃ x d rest, parse {} false cutGreeting = .ok x ∧ Document.Tolerated d ∧
    (x.encoding.charactersOf cutGreeting 0 cutGreeting.size).1 = d.upToRoot ++ d.epilog.text ∧
    contentStart cutGreeting 0 cutGreeting.size + x.encoding.size d.text + rest.length = 0 + cutGreeting.size ∧
    x.encoding.CutsOff rest := by
  have hAfter : ([0xC3] : List UInt8) = [] ∨ Encoding.utf8.CutsOff ([0xC3].map UInt8.toNat) :=
    .inr ⟨by decide, by decide, by decide⟩
  have hSize : cutGreeting.size < 2 ^ 31 := by
    rw [cutGreeting, rendering_append, List.size_toByteArray]
    decide
  obtain ⟨x, hOk, hEncoding, -⟩ := parse_rendering_append {} greeting_wellFormed.1.caseless trivial
    greeting_wellFormed.2 greeting_fits hSize hAfter
  obtain ⟨d, rest, hTolerated, hCharacters, hRest, -, ⟨-, hWhole⟩ | ⟨hCut, -⟩⟩ := rest_of_parseRange hOk
  · have hFault := charactersOf_rendering_append ⟨greeting_wellFormed.1.caseless.tolerated,
      greeting_wellFormed.2⟩ hAfter
    rw [hEncoding, hFault] at hWhole
    cases hWhole
  · exact ⟨x, d, rest, hOk, hTolerated, hCharacters, hRest, hCut⟩

end

/-- What begins like a declaration is one. -/
theorem Grammar.Document.exists_declaration {d : Document} {letters rest : Chars} {ch : CodePoint}
    (hTolerated : d.Tolerated) (hLetters : Matches Instruction.reserved letters)
    (hSpace : CodePoint.isSpace ch = true)
    (hText : d.text = CodePoint.lessThan :: CodePoint.question :: (letters ++ ch :: rest)) :
    ∃ decl space, d.opening = .declaration decl space := by
  cases hOpening : d.opening with
  | declaration decl space => exact ⟨decl, space, rfl⟩
  | blank space =>
    exfalso
    cases space with
    | cons first space =>
      have hFirst : CodePoint.isSpace first = true :=
        (hOpening ▸ hTolerated.1 : (Opening.blank (first :: space)).Tolerated) first List.mem_cons_self
      rw [Document.text, Document.upToRoot, hOpening] at hText
      obtain rfl : first = CodePoint.lessThan := (List.cons.inj hText).1
      cases hFirst
    | nil =>
      -- The scan that looks for a declaration cannot both find one and none.
      obtain ⟨c, hReads⟩ : ∃ c : Cursor, c.Reads d.text := ⟨_, @reads_rendering_append d.text [] hTolerated.isValid⟩
      have hBody : (c.advance [CodePoint.lessThan]).Reads (prologText d.prolog ++ (d.root.text ++ d.epilog.text)) := by
        rw [d.text_eq, hOpening] at hReads
        exact (Cursor.reads_cons.mp hReads).2
      have hOpens : (c.advance [CodePoint.lessThan]).Reads (CodePoint.question :: (letters ++ [ch])) := by
        have hSplit : d.text = CodePoint.lessThan :: ((CodePoint.question :: (letters ++ [ch])) ++ rest) := by
          simp [hText]
        rw [hSplit] at hReads
        exact (Cursor.reads_append.mp (Cursor.reads_cons.mp hReads).2).1
      have hOther : ch ≠ CodePoint.question := by
        rintro rfl
        cases hSpace
      obtain ⟨c', hNone⟩ := opensDeclaration_of_body hTolerated.2 hBody
      have hFound := Scan.opensDeclaration_eq_ok_iff.mpr
        (.inl ⟨letters, ch, hOpens, hLetters, hOther, hSpace.symm, rfl⟩)
      cases hNone.symm.trans hFound

/-- `<?XML version='1.0'?><r/>` -/
def Grammar.capitals : Document where
  opening := .declaration
    { letters := CodePoint.ofText "XML"
      version := ⟨[0x20], CodePoint.ofText "version", ⟨[], [], CodePoint.singleQuote, CodePoint.ofText "1.0"⟩⟩
      encoding := none
      standalone := none
      space := [] } []
  prolog := []
  root := ⟨⟨[0x72], [], []⟩, none⟩
  epilog := ⟨[], []⟩

theorem Grammar.capitals_caseless : capitals.opening.Caseless :=
  ⟨{ letters := ⟨by decide, by decide, by decide, trivial⟩
     version := ⟨⟨by decide, by unfold IsSpace; decide, ⟨nofun, nofun, .inr rfl⟩⟩, rfl, .inl rfl⟩
     encoding := nofun
     standalone := nofun
     space := nofun }, nofun⟩

theorem Grammar.capitals_bodyWellFormed : capitals.BodyWellFormed where
  prolog := ⟨nofun, by decide⟩
  root := ⟨⟨⟨by decide, nofun⟩, nofun, by decide, nofun⟩, nofun⟩
  epilog := ⟨nofun, nofun⟩

theorem Grammar.capitals_fits : capitals.Fits .utf8 where
  prolog := nofun
  root := ⟨⟨⟨by decide, by decide⟩, nofun⟩, nofun⟩
  epilog := nofun

/-- A declaration may begin with capital letters, unlike that of a well-formed document. -/
theorem parses_capitals :
    ∃ x, parse {} false (rendering (CodePoint.ofText "<?XML version='1.0'?><r/>")) = .ok x ∧
      x.encoding.charactersOf (rendering (CodePoint.ofText "<?XML version='1.0'?><r/>")) 0
        (rendering (CodePoint.ofText "<?XML version='1.0'?><r/>")).size =
          (CodePoint.ofText "<?XML version='1.0'?><r/>", none) ∧
      ¬∃ d : Document, d.WellFormed ∧ d.text = CodePoint.ofText "<?XML version='1.0'?><r/>" := by
  have hText : CodePoint.ofText "<?XML version='1.0'?><r/>" = capitals.text := by decide
  have hSize : (rendering capitals.text).size < 2 ^ 31 := by
    rw [rendering_eq, List.size_toByteArray]
    decide
  rw [hText]
  obtain ⟨x, hOk, hEncoding, -⟩ := parse_of_caseless {} capitals_caseless nofun capitals_bodyWellFormed
    capitals_fits hSize
  refine ⟨x, hOk, ?_, ?_⟩
  · have hCharacters := @charactersOf_rendering_append capitals []
      ⟨capitals_caseless.tolerated, capitals_bodyWellFormed⟩ (.inl rfl)
    rw [hEncoding]
    exact rendering_append_nil ▸ hCharacters
  · rintro ⟨d, hWell, hSame⟩
    have hCapitals : capitals.text = CodePoint.lessThan :: CodePoint.question ::
        ([0x58, 0x4D, 0x4C] ++ 0x20 :: CodePoint.ofText "version='1.0'?><r/>") := by decide
    have hLetters : Matches Instruction.reserved [0x58, 0x4D, 0x4C] :=
      ⟨by decide, by decide, by decide, trivial⟩
    obtain ⟨decl, space, hOpening⟩ := Document.exists_declaration
      ⟨hWell.1.caseless.tolerated, hWell.2⟩ hLetters (by decide) (hSame.trans hCapitals)
    have hDeclaration := hWell.1
    rw [hOpening] at hDeclaration
    rw [hCapitals, Document.text, Document.upToRoot, hOpening, Opening.text, Declaration.text,
      hDeclaration.1.letters] at hSame
    exact absurd (List.cons.inj (List.cons.inj (List.cons.inj hSame).2).2).1 (by decide)

end XmlIndex
