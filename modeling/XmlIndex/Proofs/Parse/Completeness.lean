import XmlIndex.Proofs.Grammar.Validity
import XmlIndex.Proofs.Lexer.Start
import XmlIndex.Proofs.Lexer.Understanding
import XmlIndex.Proofs.Text.Rendering
import XmlIndex.Proofs.Translation.Range
import XmlIndex.Proofs.Scan.Ranges

/-! # Every document is parsed

A well-formed document in UTF-8 whose parts can be stored is parsed, and the index has the tokens of
its tree and no others.
-/
namespace XmlIndex
set_option autoImplicit false
open Grammar

section
variable {c : Cursor}

theorem opensDeclaration_of_inner {m : Markup} {rest : Chars} (hWell : m.WellFormed)
    (hReads : c.Reads (m.inner ++ rest)) : ∃ c', Scan.opensDeclaration c = .ok false c' := by
  have hOther {text : Chars} (hText : c.Reads (CodePoint.bang :: text)) :
      ∃ c', Scan.opensDeclaration c = .ok false c' :=
    ⟨c, Scan.opensDeclaration_of_ne (Cursor.reads_cons.mp hText).1 (by decide)⟩
  cases m with
  | comment body => exact hOther hReads
  | «section» body => exact hOther hReads
  | documentType body => exact hOther hReads
  | instruction target data =>
    cases data with
    | none =>
      have hSplit : (Markup.instruction target none).inner ++ rest =
          CodePoint.question :: (target ++ [CodePoint.question]) ++ CodePoint.greaterThan :: rest := by
        simp [Markup.inner]
      rw [hSplit] at hReads
      exact Scan.opensDeclaration_of_target (Cursor.reads_append.mp hReads).1 hWell (by decide)
    | some data =>
      obtain ⟨space, data⟩ := data
      have hSplit : (Markup.instruction target (some (space, data))).inner ++ rest =
          CodePoint.question :: (target ++ [space]) ++
            (data ++ [CodePoint.question, CodePoint.greaterThan] ++ rest) := by
        simp [Markup.inner]
      rw [hSplit] at hReads
      exact Scan.opensDeclaration_of_target (Cursor.reads_append.mp hReads).1 hWell.1
        (CodePoint.isName_of_isSpace hWell.2.1)

theorem opensDeclaration_of_root {root : Root} {rest : Chars} (hWell : root.WellFormed)
    (hReads : c.Reads (root.text ++ rest)) : ∃ c', Scan.opensDeclaration c = .ok false c' := by
  obtain ⟨⟨name, attributes, space⟩, body⟩ := root
  have hName : IsName name := hWell.tag.name
  cases name with
  | nil => exact hName.elim
  | cons first name =>
    refine ⟨c, Scan.opensDeclaration_of_ne (Cursor.reads_cons.mp hReads).1 ?_⟩
    rintro rfl
    exact absurd hName.1 (by decide)

/-- What follows the first bracket is no declaration unless the document has one. -/
theorem opensDeclaration_of_body {d : Document} (hBody : d.BodyWellFormed)
    (hReads : c.Reads (prologText d.prolog ++ (d.root.text ++ d.epilog.text))) :
    ∃ c', Scan.opensDeclaration c = .ok false c' := by
  have hWell := hBody.prolog.wellFormed
  cases hItems : d.prolog with
  | nil =>
    rw [hItems] at hReads
    exact opensDeclaration_of_root hBody.root hReads
  | cons item items =>
    rw [hItems] at hReads hWell
    obtain ⟨m, space⟩ := item
    have hSplit : prologText ((m, space) :: items) ++ (d.root.text ++ d.epilog.text) =
        m.inner ++ (space ++ [CodePoint.lessThan] ++ (prologText items ++
          (d.root.text ++ d.epilog.text))) := by
      simp [prologText]
    rw [hSplit] at hReads
    exact opensDeclaration_of_inner (List.forall_mem_cons.mp hWell).1.1 hReads

end

/-- A text up to the first bracket, and the rest. -/
theorem Grammar.Document.text_eq (d : Document) : d.text = d.opening.text ++ [CodePoint.lessThan] ++
    (prologText d.prolog ++ (d.root.text ++ d.epilog.text)) := by
  simp [Document.text, Document.upToRoot]

namespace Lex
variable {s : Lexer} {d : Document}

theorem completes_lastAt {place : Nat} {r : Reading} (hOff : s.namespaces = false)
    (hOutside : s.openTags = []) :
    Completes (run .markup) (s.lastAt place) r ↔ Completes (run .markup) s r := by
  rw [(Lexer.understood s hOff).outside hOutside, (Lexer.understood (s.lastAt place) hOff).outside hOutside]
  exact Lexer.awaits_lastAt

/-- A lexer after the opening of a document that ends with its range completes it. -/
theorem completes_body (hOff : s.namespaces = false) (hOutside : s.openTags = [])
    (hDoctype : s.hasDoctype = false) (hBody : d.BodyWellFormed) (hFits : d.Fits s.cursor.encoding)
    (hReads : s.cursor.Reads (prologText d.prolog ++ (d.root.text ++ d.epilog.text)))
    (hEnds : (s.cursor.advance (prologText d.prolog ++ (d.root.text ++ d.epilog.text))).Ends) :
    Completes (run .markup) s
      ⟨s.cursor.encoding, s.tokens ++
        d.bodyTokens s.cursor.encoding s.recordWhitespace s.cursor.offset⟩ := by
  refine ((Lexer.understood s hOff).outside hOutside).mpr ⟨_, _, hReads, ?_, hEnds, rfl⟩
  rw [hDoctype]
  exact prolog_document_iff.mpr ⟨d, hBody, hFits, rfl, rfl⟩

/-- A lexer that comes past the opening of a document which ends with its range completes it. -/
theorem completes_of_start {place : Nat} (hOff : s.namespaces = false) (hOutside : s.openTags = [])
    (hDoctype : s.hasDoctype = false) (hBody : d.BodyWellFormed) (hFits : d.Fits s.cursor.encoding)
    (hStart : start s = .ok .markup (((s.past (d.opening.text ++ [CodePoint.lessThan])).add
      (d.opening.tokens s.cursor.encoding s.cursor.offset)).lastAt place))
    (hReads : s.cursor.Reads d.text) (hEnds : (s.cursor.advance d.text).Ends) :
    Completes (run .start) s
      ⟨s.cursor.encoding, s.tokens ++ (d.tokens s.cursor.encoding s.recordWhitespace s.cursor.offset).tail⟩ := by
  rw [d.text_eq] at hReads hEnds
  rw [Cursor.advance_append] at hEnds
  have hAfter : (s.past (d.opening.text ++ [CodePoint.lessThan])).cursor.encoding = s.cursor.encoding :=
    Cursor.encoding_advance
  have hCompletes := completes_body (s := (s.past (d.opening.text ++ [CodePoint.lessThan])).add
    (d.opening.tokens s.cursor.encoding s.cursor.offset)) hOff hOutside hDoctype hBody
      (by exact hAfter ▸ hFits) (Cursor.reads_append.mp hReads).2 hEnds
  rw [completes_run (show step .start = some <$> start from rfl), completes_of_ok hStart]
  refine (completes_lastAt (by exact hOff) (by exact hOutside)).mpr ?_
  simpa [Document.tokens] using hCompletes

/-- No declaration seems to come after the first bracket of a document that has none. -/
theorem opensDeclaration_of_document (hBody : d.BodyWellFormed) (hReads : s.cursor.Reads d.text)
    (hNone : d.opening = .blank []) :
    ∃ c', Scan.opensDeclaration (s.past [CodePoint.lessThan]).cursor = .ok false c' := by
  rw [d.text_eq, hNone] at hReads
  exact opensDeclaration_of_body hBody (Cursor.reads_append.mp hReads).2

/-- A lexer before a document that ends with its range completes it. -/
theorem completes_start (hOff : s.namespaces = false) (hOutside : s.openTags = [])
    (hDoctype : s.hasDoctype = false) (hUtf8 : s.cursor.encoding = .utf8)
    (hOpening : d.opening.Caseless) (hLabel : d.opening.IsUtf8) (hBody : d.BodyWellFormed)
    (hFits : d.Fits .utf8) (hReads : s.cursor.Reads d.text) (hEnds : (s.cursor.advance d.text).Ends) :
    Completes (run .start) s
      ⟨.utf8, s.tokens ++ (d.tokens .utf8 s.recordWhitespace s.cursor.offset).tail⟩ := by
  have hDepth : s.depth = -1 := by
    rw [Lexer.depth, hOutside]
    rfl
  obtain ⟨place, hStart⟩ := start_of_reads hDepth hUtf8 hOpening hLabel (opensDeclaration_of_document hBody hReads)
    (Cursor.reads_append.mp (d.text_eq ▸ hReads)).1
  rw [← hUtf8] at hFits ⊢
  exact completes_of_start hOff hOutside hDoctype hBody hFits hStart hReads hEnds

/-- Without a declaration, so it does in any encoding. -/
theorem start_of_document {space : Chars} (hOpening : d.opening = .blank space) (hSpace : IsSpace space)
    (hBody : d.BodyWellFormed) (hReads : s.cursor.Reads d.text) :
    ∃ place, start s = .ok .markup (((s.past (d.opening.text ++ [CodePoint.lessThan])).add
      (d.opening.tokens s.cursor.encoding s.cursor.offset)).lastAt place) := by
  have hOpens := (Cursor.reads_append.mp (d.text_eq ▸ hReads)).1
  rw [hOpening] at hOpens ⊢
  rw [Opening.tokens, Lexer.add_nil]
  refine start_of_blank hSpace (fun hNone => ?_) hOpens
  exact opensDeclaration_of_document hBody hReads (hOpening.trans (congrArg Opening.blank hNone))

end Lex

section
variable {options : Options} {doc : ByteArray} {offset length : Nat} {d : Document}

/-- The lexer at the start of a range stands after the mark. -/
theorem Lexer.cursor_atRange {namespaces : Bool} {detected : Detected} :
    (Lexer.atRange options namespaces detected doc offset length).cursor =
      .atStart doc (offset + detected.mark.size) (offset + length) detected.encoding :=
  rfl

/-- A range in UTF-8 whose characters are those of a document is parsed. -/
theorem parseRange_of_reads {mark : ByteOrderMark} (hRange : offset + length ≤ doc.size)
    (hDetect : detect doc offset (offset + length) false = .ok ⟨.utf8, mark⟩)
    (hOpening : d.opening.Caseless) (hLabel : d.opening.IsUtf8) (hBody : d.BodyWellFormed)
    (hFits : d.Fits .utf8)
    (hReads : (Cursor.atStart doc (offset + mark.size) (offset + length) .utf8).Reads d.text)
    (hEnds : ((Cursor.atStart doc (offset + mark.size) (offset + length) .utf8).advance d.text).Ends) :
    ∃ x, parseRange options false doc offset length = .ok x ∧ x.encoding = .utf8 ∧
      x.tokens.toList = d.tokens .utf8 options.recordWhitespace (offset + mark.size) := by
  let s := Lexer.atRange options false ⟨.utf8, mark⟩ doc offset length
  obtain ⟨s', hRun, hReading⟩ : Lex.Completes (Lex.run .start) s _ :=
    Lex.completes_start rfl rfl rfl rfl hOpening hLabel hBody hFits hReads hEnds
  rw [parseRange_of_detected hRange hDetect, hRun]
  refine ⟨_, rfl, congrArg Reading.encoding hReading, ?_⟩
  exact congrArg Reading.tokens hReading

end

theorem Grammar.matches_reserved : Matches Instruction.reserved (CodePoint.ofText "xml") :=
  ⟨by decide, by decide, by decide, trivial⟩

theorem Grammar.Opening.WellFormed.caseless {o : Opening} (hWell : o.WellFormed) : o.Caseless := by
  cases o with
  | blank space => exact hWell
  | declaration d space =>
    obtain ⟨hDeclaration, hSpace⟩ := hWell
    refine ⟨{ hDeclaration with letters := ?_ }, hSpace⟩
    rw [hDeclaration.letters]
    exact matches_reserved

theorem Grammar.Opening.Caseless.tolerated {o : Opening} (hWell : o.Caseless) : o.Tolerated := by
  cases o with
  | blank space => exact hWell
  | declaration d space =>
    obtain ⟨hDeclaration, hSpace⟩ := hWell
    refine ⟨{ hDeclaration with standalone := fun a ha => ?_ }, hSpace⟩
    have hPart := hDeclaration.standalone a ha
    refine { hPart with value := ?_ }
    rcases hPart.value with hValue | hValue <;> rw [hValue] <;> unfold Declaration.IsWord <;> decide

/-- A document starts with a bracket or with space, and does not end there. -/
theorem Grammar.Document.exists_head {d : Document} (hTolerated : d.Tolerated) :
    ∃ ch next rest, d.text = ch :: next :: rest ∧ ch < 0x80 := by
  obtain ⟨hOpening, hBody⟩ := hTolerated
  have hInner : ∃ next rest, prologText d.prolog ++ (d.root.text ++ d.epilog.text) = next :: rest := by
    have hRoot := hBody.root.tag.name
    unfold prologText Root.text Tag.text
    cases d.prolog with
    | nil =>
      cases hName : d.root.tag.name with
      | nil => rw [hName] at hRoot; exact hRoot.elim
      | cons => exact ⟨_, _, rfl⟩
    | cons item =>
      obtain ⟨m, space⟩ := item
      cases m with
      | instruction target data => cases data <;> exact ⟨_, _, rfl⟩
      | _ => exact ⟨_, _, rfl⟩
  obtain ⟨next, rest, hNext⟩ := hInner
  rw [Document.text_eq, hNext]
  cases hCases : d.opening with
  | declaration => exact ⟨_, _, _, rfl, by decide⟩
  | blank space =>
    cases space with
    | nil => exact ⟨_, _, _, rfl, by decide⟩
    | cons ch space =>
      rw [hCases] at hOpening
      have hAscii : ch < 0x80 := isAscii_of_isSpace hOpening ch List.mem_cons_self
      cases space <;> exact ⟨_, _, _, rfl, hAscii⟩

theorem ends_rendering_append {text : Chars} {after : List UInt8} (hValid : IsValid text)
    (hAfter : after = [] ∨ Encoding.utf8.CutsOff (after.map UInt8.toNat)) :
    ((Cursor.atStart (rendering text ++ after.toByteArray) 0
      (rendering text ++ after.toByteArray).size .utf8).advance text).Ends := by
  have hStop : Encoding.utf8.size text + (after.map UInt8.toNat).length =
      (rendering text ++ after.toByteArray).size := by
    rw [List.length_map, size_rendering_append hValid]
  have hCut := (Encoding.decodeAt_eq_truncated_iff (bytesAt_rendering_append hValid) hStop).mpr
    (hAfter.imp_left fun h => by rw [h]; rfl)
  rw [← Nat.zero_add (Encoding.utf8.size text)] at hCut
  exact Cursor.ends_advance_iff.mpr hCut

/-- A document that is well-formed, but for the case of its first letters, is parsed if its parts can
be stored, even if a character that is cut off comes after it. -/
theorem parse_rendering_append (options : Options) {d : Document} {after : List UInt8}
    (hOpening : d.opening.Caseless) (hLabel : d.opening.IsUtf8) (hBody : d.BodyWellFormed)
    (hFits : d.Fits .utf8) (hSize : (rendering d.text ++ after.toByteArray).size < 2 ^ 31)
    (hAfter : after = [] ∨ Encoding.utf8.CutsOff (after.map UInt8.toNat)) :
    ∃ x, parse options false (rendering d.text ++ after.toByteArray) = .ok x ∧ x.encoding = .utf8 ∧
      x.tokens.toList = d.tokens .utf8 options.recordWhitespace 0 := by
  have hTolerated : d.Tolerated := ⟨hOpening.tolerated, hBody⟩
  have hReads := @reads_rendering_append d.text after hTolerated.isValid
  have hEnds := ends_rendering_append hTolerated.isValid hAfter
  have hDetect : detect (rendering d.text ++ after.toByteArray) 0 (rendering d.text ++ after.toByteArray).size
      false = .ok ⟨.utf8, .none⟩ := by
    obtain ⟨ch, next, rest, hText, hAscii⟩ := Document.exists_head hTolerated
    refine detect_eq_ok_iff.mpr ⟨?_, ofHead_rendering_append hText hAscii hTolerated.isValid, hSize⟩
    have hFirst := Encoding.width_pos (e := .utf8) ch
    rw [size_rendering_append hTolerated.isValid, hText, Encoding.size_cons]
    omega
  rw [← Nat.zero_add (rendering d.text ++ after.toByteArray).size] at hDetect hReads hEnds
  exact parseRange_of_reads (by omega) hDetect hOpening hLabel hBody hFits hReads hEnds

/-- A document with nothing after it. -/
theorem parse_of_caseless (options : Options) {d : Document} (hOpening : d.opening.Caseless)
    (hLabel : d.opening.IsUtf8) (hBody : d.BodyWellFormed) (hFits : d.Fits .utf8)
    (hSize : (rendering d.text).size < 2 ^ 31) :
    ∃ x, parse options false (rendering d.text) = .ok x ∧ x.encoding = .utf8 ∧
      x.tokens.toList = d.tokens .utf8 options.recordWhitespace 0 := by
  have hParse := @parse_rendering_append options d [] hOpening hLabel hBody hFits
  rw [rendering_append_nil] at hParse
  exact hParse hSize (.inl rfl)

/-- `<a b='c'>d</a>` -/
def Grammar.greeting : Document where
  opening := .blank []
  prolog := []
  root :=
    { tag :=
        { name := [0x61]
          attributes := [⟨[0x20], [0x62], ⟨[], [], CodePoint.singleQuote, [0x63]⟩⟩]
          space := [] }
      body := some (.last [0x64], []) }
  epilog := ⟨[], []⟩

theorem Grammar.greeting_wellFormed : greeting.WellFormed where
  left := nofun
  right :=
    { prolog := ⟨nofun, by decide⟩
      root :=
        { tag :=
            { name := ⟨by decide, nofun⟩
              attributes := by
                intro a ha
                obtain rfl := List.mem_singleton.mp ha
                exact ⟨⟨by decide, by unfold IsSpace; decide, ⟨nofun, nofun, .inr rfl⟩⟩,
                  ⟨by decide, nofun⟩, .char (by decide) .nil⟩
              distinct := by decide
              space := nofun }
          body := by
            rintro _ _ ⟨⟩
            exact ⟨⟨.char (by decide) .nil, by decide⟩, nofun⟩ }
      epilog := ⟨nofun, nofun⟩ }

theorem Grammar.greeting_fits : greeting.Fits .utf8 where
  prolog := nofun
  root :=
    { tag :=
        { name := ⟨by decide, by decide⟩
          attributes := by
            intro a ha
            obtain rfl := List.mem_singleton.mp ha
            exact ⟨⟨by decide, by decide⟩, by unfold TextFits; decide⟩ }
      body := by
        rintro _ _ ⟨⟩
        trivial }
  epilog := nofun

/-- A well-formed document whose parts can be stored is parsed, and its tokens are those of its tree. -/
theorem parse_rendering (options : Options) {d : Document} (hWell : d.WellFormed)
    (hLabel : d.opening.IsUtf8) (hFits : d.Fits .utf8) (hSize : (rendering d.text).size < 2 ^ 31) :
    ∃ x, parse options false (rendering d.text) = .ok x ∧
      x.tokens.toList = d.tokens .utf8 options.recordWhitespace 0 := by
  obtain ⟨x, hOk, -, hTokens⟩ := parse_of_caseless options hWell.1.caseless hLabel hWell.2 hFits hSize
  exact ⟨x, hOk, hTokens⟩

theorem parse_greeting : ∃ x, parse {} false (rendering (CodePoint.ofText "<a b='c'>d</a>")) = .ok x ∧
    x.tokens.toList = [⟨.document, -1, 0, 0⟩, ⟨.startTag, 0, 1, 1⟩, ⟨.attributeName, 0, 3, 1⟩,
      ⟨.attributeValue, 0, 6, 1⟩, ⟨.characterData, 0, 9, 1⟩] := by
  have hText : CodePoint.ofText "<a b='c'>d</a>" = greeting.text := by decide
  have hSize : (rendering greeting.text).size < 2 ^ 31 := by
    rw [rendering_eq, List.size_toByteArray]
    decide
  rw [hText]
  obtain ⟨x, hOk, hTokens⟩ := parse_rendering {} greeting_wellFormed trivial greeting_fits hSize
  exact ⟨x, hOk, hTokens.trans (by decide)⟩

end XmlIndex
