import XmlIndex.Proofs.Parse.Readability
import XmlIndex.Proofs.Parse.Scoping
import XmlIndex.Proofs.Parse.Shape
import XmlIndex.Proofs.Text.Carriers
import XmlIndex.Proofs.Token.Elements
import XmlIndex.Proofs.Token.Spacing

/-! # One text in several encodings

A text without a declaration is parsed in UTF-8 just if it is parsed in UTF-16, and the indexes tell the same of
it. What is read decides alone about this: the bytes of a character never do.
-/
namespace XmlIndex
set_option autoImplicit false
open Grammar

def Grammar.IsDeclared (text : Chars) : Prop :=
  ∃ (d : Declaration) (rest : Chars), d.Tolerated ∧ text = CodePoint.lessThan :: (d.text ++ rest)

structure Grammar.Document.IsPlain (d : Document) (text : Chars) : Prop where
  tolerated : d.Tolerated
  opening : ∃ space, d.opening = .blank space
  text_eq : d.text = text

def Token.ofPrefix (t : Token) : Token :=
  ⟨.characterData, t.depth, t.offset, t.prefixLength⟩

def Index.rawPrefix (x : Index) (t : Token) : Except Fault String :=
  x.rawText t.ofPrefix

structure Index.SameText (x y : Index) (t u : Token) : Prop extends Token.Alike t u where
  text : ∃ text, x.rawText t = .ok text ∧ y.rawText u = .ok text
  stem : ∃ stem, x.rawPrefix t = .ok stem ∧ y.rawPrefix u = .ok stem

/-- The indexes tell the same of the text, wherever its tokens lie. -/
structure Index.SameTexts (x y : Index) : Prop where
  tokens : List.Forall₂ (x.SameText y) x.tokens.toList y.tokens.toList
  root : y.root = x.root
  maxDepth : y.maxDepth = x.maxDepth

section
variable {options : Options} {namespaces : Bool} {text : String} {c : Carrier} {x : Index} {d : Document}

namespace Carrier

theorem cursor_atRange : (Lexer.atRange options namespaces c.detected (c.bytes text) 0 (c.bytes text).size).cursor =
    c.cursor text := by
  rw [Lexer.cursor_atRange, Nat.zero_add, Nat.zero_add]
  rfl

theorem detect_bytes_iff (hPlain : d.IsPlain (CodePoint.ofText text)) {detected : Detected} :
    detect (c.bytes text) 0 (0 + (c.bytes text).size) namespaces = .ok detected ↔
      detected = c.detected ∧ (c.bytes text).size < sizeLimit c.encoding namespaces := by
  obtain ⟨ch, next, rest, hText, hAscii⟩ := Document.exists_head hPlain.tolerated
  have hValid := hPlain.tolerated.isValid
  rw [hPlain.text_eq] at hText hValid
  have hSome : 0 < (c.bytes text).size := by
    have hFirst := @Encoding.width_pos c.encoding ch
    rw [size_bytes, hText, Encoding.size_cons]
    omega
  rw [Nat.zero_add, detect_eq_ok_iff, ofHead_bytes hText hAscii hValid, Except.ok.injEq, eq_comm, and_iff_right hSome]
  exact and_congr_right fun hSame => by rw [hSame]; rfl

end Carrier

section
variable (hDeclared : ¬IsDeclared (CodePoint.ofText text))
include hDeclared

theorem exists_blank_of_reaches {opening : Opening} {s : Lexer} (hOpening : opening.Tolerated)
    (hReaches : (Lexer.atRange options false c.detected (c.bytes text) 0 (c.bytes text).size).Reaches
      (opening.text ++ [CodePoint.lessThan]) s) : ∃ space, opening = .blank space := by
  cases opening with
  | blank space => exact ⟨space, rfl⟩
  | declaration declared space =>
    -- What the lexer has come past it has read, so the text begins with it.
    have hOpens := hReaches.2.1
    rw [Carrier.cursor_atRange] at hOpens
    obtain ⟨rest, hText⟩ := hOpens.prefix_of_ends Carrier.reads_cursor Carrier.ends_cursor
    refine absurd ⟨declared, space ++ ([CodePoint.lessThan] ++ rest), hOpening.1, ?_⟩ hDeclared
    rw [← hText]
    simp [Opening.text]

/-- If the text is parsed it is that of a document. -/
theorem exists_plain_of_parse (hNul : 0 ∉ CodePoint.ofText text) (hMark : (CodePoint.ofText text).head? ≠ some 0xFEFF)
    (hOk : parse options namespaces (c.bytes text) = .ok x) :
    ∃ d : Document, d.IsPlain (CodePoint.ofText text) ∧ d.Fits c.encoding := by
  obtain ⟨detected, s, hDetect, hRun, -⟩ := exists_run_of_parseRange (parseRange_of_namespaces hOk)
  obtain ⟨-, hHead, -⟩ := detect_eq_ok_iff.mp hDetect
  rw [Nat.zero_add] at hHead
  obtain rfl : detected = c.detected := c.detected_of_ofHead hNul hMark hHead
  obtain ⟨d, t, place, hTolerated, hFits, hStart, hReaches, hReads, hEnds, -⟩ :=
    Lex.exists_body_of_completes rfl rfl rfl ⟨s, hRun, rfl⟩
  have hBlank := exists_blank_of_reaches hDeclared hTolerated.1 hReaches
  -- Only a declaration could have changed the encoding.
  obtain ⟨-, opening, u, place', hOpening, hReachesOpening, hSame, hKeeps⟩ := Lex.reaches_of_start rfl hStart
  obtain ⟨space, rfl⟩ := exists_blank_of_reaches hDeclared hOpening hReachesOpening
  have hEncoding : t.cursor.encoding = c.encoding :=
    (congrArg (·.cursor.encoding) hSame).trans (hKeeps space rfl)
  obtain ⟨hWhole, hWholeEnds⟩ := Lex.reads_document_of_reaches hReaches hReads hEnds
  rw [hEncoding, Carrier.cursor_atRange] at hWhole hWholeEnds
  have hText := hWhole.eq_of_ends hWholeEnds Carrier.reads_cursor Carrier.ends_cursor
  exact ⟨d, ⟨hTolerated, hBlank, hText⟩, hEncoding ▸ hFits⟩

end

section
variable (hPlain : d.IsPlain (CodePoint.ofText text))
include hPlain

theorem reads_bytes :
    (Lexer.atRange options false c.detected (c.bytes text) 0 (c.bytes text).size).cursor.Reads d.text ∧
      ((Lexer.atRange options false c.detected (c.bytes text) 0 (c.bytes text).size).cursor.advance d.text).Ends := by
  rw [Carrier.cursor_atRange, hPlain.text_eq]
  exact ⟨Carrier.reads_cursor, Carrier.ends_cursor⟩

theorem start_bytes {s : Lexer} (hStart : s = .atRange options false c.detected (c.bytes text) 0 (c.bytes text).size) :
    ∃ place, Lex.start s = .ok .markup (((s.past (d.opening.text ++ [CodePoint.lessThan])).add
      (d.opening.tokens s.cursor.encoding s.cursor.offset)).lastAt place) := by
  subst hStart
  obtain ⟨space, hOpening⟩ := hPlain.opening
  have hSpace : IsSpace space := (hOpening ▸ hPlain.tolerated.1 : (Opening.blank space).Tolerated)
  exact Lex.start_of_document hOpening hSpace hPlain.tolerated.2 (reads_bytes hPlain).1

variable (hFits : d.Fits c.encoding)
include hFits

theorem completes_bytes : Lex.Completes (Lex.run .start)
    (.atRange options false c.detected (c.bytes text) 0 (c.bytes text).size)
    ⟨c.encoding, d.tokens c.encoding options.recordWhitespace c.mark.size⟩ := by
  obtain ⟨hReads, hEnds⟩ := @reads_bytes options text c d hPlain
  obtain ⟨place, hStart⟩ := start_bytes hPlain rfl
  have hCompletes := Lex.completes_of_start rfl rfl rfl hPlain.tolerated.2 (by exact hFits) hStart hReads hEnds
  rw [Carrier.cursor_atRange] at hCompletes
  exact hCompletes

/-- The text is parsed just if its document is qualified, should that be asked. -/
theorem parse_bytes_iff (hSize : (c.bytes text).size < sizeLimit c.encoding namespaces) :
    (∃ x, parse options namespaces (c.bytes text) = .ok x) ↔ (namespaces = true → d.root.Qualified) := by
  have hDetect := (Carrier.detect_bytes_iff hPlain).mpr ⟨rfl, hSize⟩
  rw [parse, exists_parseRange_iff (Nat.le_of_eq (Nat.zero_add _)) hDetect]
  cases namespaces with
  | false => exact iff_of_true ⟨_, completes_bytes hPlain hFits⟩ nofun
  | true =>
    -- Namespaces matter from the first markup on alone, where the opening has been read.
    obtain ⟨hReads, hEnds⟩ := @reads_bytes options text c d hPlain
    obtain ⟨place, hStart⟩ := start_bytes hPlain rfl
    rw [d.text_eq] at hReads hEnds
    rw [Cursor.advance_append] at hEnds
    have hFitsThere : d.Fits ((c.cursor text).advance (d.opening.text ++ [CodePoint.lessThan])).encoding := by
      rw [Cursor.encoding_advance]
      exact hFits
    rw [← @Carrier.cursor_atRange options false] at hFitsThere
    rw [Lex.succeeds_start_iff hDetect hStart hPlain.tolerated.2 hFitsThere (Cursor.reads_append.mp hReads).2 hEnds]
    exact ⟨fun hQualified _ => hQualified, fun hQualified => hQualified rfl⟩

theorem tokens_of_parse_bytes (hOk : parse options namespaces (c.bytes text) = .ok x) :
    x.encoding = c.encoding ∧ x.tokens.toList = d.tokens c.encoding options.recordWhitespace c.mark.size := by
  obtain ⟨detected, s, hDetect, hRun, hIndex⟩ := exists_run_of_parseRange (parseRange_of_namespaces hOk)
  obtain ⟨rfl, -⟩ := (Carrier.detect_bytes_iff hPlain).mp hDetect
  obtain ⟨s', hRun', hReading⟩ := @completes_bytes options text c d hPlain hFits
  obtain rfl : s = s' := (EStateM.Result.ok.inj (hRun.symm.trans hRun')).2
  exact ⟨(congrArg Index.encoding hIndex).trans (congrArg Reading.encoding hReading),
    (congrArg (·.tokens.toList) hIndex).trans (congrArg Reading.tokens hReading)⟩

end

theorem rawText_of_marks {before inner after : Chars} {t : Token} (hBuffer : x.buffer = c.bytes text)
    (hEncoding : x.encoding = c.encoding) (hText : CodePoint.ofText text = before ++ (inner ++ after))
    (hOffset : t.offset * c.encoding.unitSize = c.mark.size + c.encoding.size before)
    (hLength : t.length * c.encoding.unitSize = c.encoding.size inner) :
    x.rawText t = .ok (String.ofList (inner.map Char.ofNat)) := by
  have hReads := @Carrier.reads_cursor text c
  have hSize := @Carrier.size_bytes text c
  rw [hText] at hReads
  rw [hText, Encoding.size_append, Encoding.size_append] at hSize
  rw [← hEncoding] at hOffset hLength
  refine @Index.rawText_of_reads x t c.mark.size x.buffer.size _ inner hOffset hLength ?_ ?_
  · rw [hBuffer, hEncoding]
    omega
  · rw [hBuffer, hEncoding]
    exact (Cursor.readsAt_append.mp (Cursor.readsAt_append.mp hReads).2).1

theorem texts_of_marks {before inner after stem : Chars} {t : Token} (hBuffer : x.buffer = c.bytes text)
    (hEncoding : x.encoding = c.encoding) (hText : CodePoint.ofText text = before ++ (inner ++ after))
    (hStem : stem <+: inner) (hMarks : Marks c.encoding (c.mark.size + c.encoding.size before) inner stem t) :
    x.rawText t = .ok (String.ofList (inner.map Char.ofNat)) ∧
      x.rawPrefix t = .ok (String.ofList (stem.map Char.ofNat)) := by
  obtain ⟨rest, rfl⟩ := hStem
  refine ⟨rawText_of_marks hBuffer hEncoding hText hMarks.offset hMarks.length, ?_⟩
  rw [List.append_assoc] at hText
  exact rawText_of_marks hBuffer hEncoding hText hMarks.offset hMarks.prefixLength

theorem sameText_of_sameExcerpt {c' : Carrier} {y : Index} {t u : Token}
    (hBuffer : x.buffer = c.bytes text) (hEncoding : x.encoding = c.encoding)
    (hBuffer' : y.buffer = c'.bytes text) (hEncoding' : y.encoding = c'.encoding)
    (hSame : SameExcerpt c.encoding c'.encoding c.mark.size c'.mark.size (CodePoint.ofText text) t u) :
    x.SameText y t u := by
  obtain ⟨hKind, hDepth, before, inner, after, stem, hText, hStem, hMarks, hMarks'⟩ := hSame
  obtain ⟨hHere, hHereStem⟩ := texts_of_marks hBuffer hEncoding hText hStem hMarks
  obtain ⟨hThere, hThereStem⟩ := texts_of_marks hBuffer' hEncoding' hText hStem hMarks'
  exact ⟨⟨hKind, hDepth⟩, ⟨_, hHere, hThere⟩, ⟨_, hHereStem, hThereStem⟩⟩

theorem sameText_document {x y : Index} : x.SameText y .document .document := by
  have hEmpty (x : Index) {t : Token} (hOffset : t.offset = 0) (hLength : t.length = 0) : x.rawText t = .ok "" :=
    @Index.rawText_of_reads x t 0 0 0 [] (by rw [hOffset, Nat.zero_mul]) (by rw [hLength, Nat.zero_mul]; rfl)
      (Nat.zero_le _) trivial
  exact ⟨⟨rfl, rfl⟩, ⟨_, hEmpty x rfl rfl, hEmpty y rfl rfl⟩, ⟨_, hEmpty x rfl rfl, hEmpty y rfl rfl⟩⟩

theorem Carrier.unitSize_dvd_mark : c.encoding.unitSize ∣ c.mark.size := by
  cases c with
  | utf16 order => exact Nat.dvd_refl 2
  | _ => exact Nat.one_dvd _

theorem sameExcerpts_of_plain {c' : Carrier} (hPlain : d.IsPlain (CodePoint.ofText text))
    (hLengths : d.Lengths .utf8 (TextFits .utf8) options.recordWhitespace) :
    ∃ rest rest', d.tokens c.encoding options.recordWhitespace c.mark.size = .document :: rest ∧
      d.tokens c'.encoding options.recordWhitespace c'.mark.size = .document :: rest' ∧
      List.Forall₂ (SameExcerpt c.encoding c'.encoding c.mark.size c'.mark.size (CodePoint.ofText text)) rest rest' := by
  -- A run that fits in UTF-8 fits in both encodings, so it is cut in neither.
  have hWhole : ∀ body, TextFits .utf8 body → TextFits c.encoding body ∧ TextFits c'.encoding body :=
    fun body hFits => ⟨hFits.mono Carrier.noLonger_encoding, hFits.mono Carrier.noLonger_encoding⟩
  have hHere := hLengths.mono (@Carrier.noLonger_encoding c) hWhole
  have hThere := hLengths.mono (@Carrier.noLonger_encoding c') hWhole
  obtain ⟨space, hOpening⟩ := hPlain.opening
  have hTokens (c : Carrier) : d.tokens c.encoding options.recordWhitespace c.mark.size = .document ::
      d.bodyTokens c.encoding options.recordWhitespace
        (c.mark.size + c.encoding.size (d.opening.text ++ [CodePoint.lessThan])) := by
    rw [Document.tokens, hOpening]
    rfl
  refine ⟨_, _, hTokens c, hTokens c', ?_⟩
  rw [← hPlain.text_eq, d.text_eq]
  exact (Twin.after rfl rfl (d.twin_body hPlain.tolerated.2 hHere hThere)).sameExcerpts (fun _ => id)
    Carrier.unitSize_dvd_mark Carrier.unitSize_dvd_mark

/-- Indexes of one document tell the same of it, and have the same cache if it has as many levels. -/
theorem sameTexts_of_plain {c' : Carrier} {y : Index} (hPlain : d.IsPlain (CodePoint.ofText text))
    (hFits : d.Fits c.encoding) (hLengths : d.Lengths .utf8 (TextFits .utf8) options.recordWhitespace)
    (hOk : parse options namespaces (c.bytes text) = .ok x) (hOk' : parse options namespaces (c'.bytes text) = .ok y) :
    x.SameTexts y ∧ (options.cacheDepth.levels (c'.bytes text).size = options.cacheDepth.levels (c.bytes text).size →
      y.cache = x.cache) := by
  have hFits' := hFits.of_lengths (hLengths.mono (@Carrier.noLonger_encoding c') fun _ => id)
  obtain ⟨hEncoding, hTokens⟩ := tokens_of_parse_bytes hPlain hFits hOk
  obtain ⟨hEncoding', hTokens'⟩ := tokens_of_parse_bytes hPlain hFits' hOk'
  obtain ⟨rest, rest', hRest, hRest', hSame⟩ := @sameExcerpts_of_plain options text c d c' hPlain hLengths
  have hTexts : List.Forall₂ (x.SameText y) x.tokens.toList y.tokens.toList := by
    rw [hTokens, hTokens', hRest, hRest']
    refine .cons sameText_document (hSame.imp fun t u => ?_)
    exact sameText_of_sameExcerpt (range_of_parseRange hOk).1 hEncoding (range_of_parseRange hOk').1 hEncoding'
  have hAlike := hTexts.imp fun _ _ h => h.toAlike
  have hDrafts {levels : CacheLevels} := @Draft.alike_ofTokens _ _ levels hAlike
  obtain ⟨hCache, hRoot, hMaxDepth⟩ := told_of_parseRange hOk
  obtain ⟨hCache', hRoot', hMaxDepth'⟩ := told_of_parseRange hOk'
  refine ⟨⟨hTexts, ?_, ?_⟩, fun hLevels => ?_⟩
  · -- The root is found among the tokens, whatever the levels are.
    rw [hRoot', hRoot, hDrafts.root, Draft.root_eq_getLast?, Draft.root_eq_getLast?]
  · rw [hMaxDepth', hMaxDepth, Token.deepest_alike hAlike]
  · rw [hCache', hCache, hLevels, Draft.finish, Draft.finish, hDrafts.cache, hDrafts.waiting]

section
variable (hNul : 0 ∉ CodePoint.ofText text) (hMark : (CodePoint.ofText text).head? ≠ some 0xFEFF)
  (hDeclared : ¬IsDeclared (CodePoint.ofText text))
  (hLengths : ∀ d : Document, d.Tolerated → d.text = CodePoint.ofText text →
    d.Lengths .utf8 (TextFits .utf8) options.recordWhitespace)
  (hSize : ∀ c : Carrier, (c.bytes text).size < sizeLimit c.encoding namespaces)
include hNul hMark hDeclared hLengths hSize

theorem exists_sameTexts (c' : Carrier) (hOk : parse options namespaces (c.bytes text) = .ok x) :
    ∃ y, parse options namespaces (c'.bytes text) = .ok y ∧ x.SameTexts y ∧
      (options.cacheDepth.levels (c'.bytes text).size = options.cacheDepth.levels (c.bytes text).size →
        y.cache = x.cache) := by
  obtain ⟨d, hPlain, hFits⟩ := exists_plain_of_parse hDeclared hNul hMark hOk
  have hShort := hLengths d hPlain.tolerated hPlain.text_eq
  have hFits' := hFits.of_lengths (hShort.mono (@Carrier.noLonger_encoding c') fun _ => id)
  have hQualified := (parse_bytes_iff hPlain hFits (hSize c)).mp ⟨x, hOk⟩
  obtain ⟨y, hOk'⟩ := (parse_bytes_iff hPlain hFits' (hSize c')).mpr hQualified
  exact ⟨y, hOk', sameTexts_of_plain hPlain hFits hShort hOk hOk'⟩

/-- In whatever encoding a text without a declaration is stored, it is parsed, with the same kinds, depths and texts
of tokens, the same root and greatest depth, and the same cache if it has as many levels; or it is refused in all. -/
theorem parse_carriers :
    (∃ x : Carrier → Index, (∀ c, parse options namespaces (c.bytes text) = .ok (x c)) ∧
      ∀ c c', (x c).SameTexts (x c') ∧
        (options.cacheDepth.levels (c'.bytes text).size = options.cacheDepth.levels (c.bytes text).size →
          (x c').cache = (x c).cache)) ∨
    ∀ c : Carrier, ∃ failure, parse options namespaces (c.bytes text) = .error failure := by
  cases hFirst : parse options namespaces (Carrier.utf8.bytes text) with
  | ok first =>
    have hOther (c : Carrier) := exists_sameTexts hNul hMark hDeclared hLengths hSize c hFirst
    choose x hOk _ using hOther
    refine .inl ⟨x, hOk, fun c c' => ?_⟩
    obtain ⟨y, hOk', hSame⟩ := exists_sameTexts hNul hMark hDeclared hLengths hSize c' (hOk c)
    obtain rfl := Except.ok.inj ((hOk c').symm.trans hOk')
    exact hSame
  | error failure =>
    refine .inr fun c => ?_
    cases hOther : parse options namespaces (c.bytes text) with
    | error failure => exact ⟨failure, rfl⟩
    | ok x =>
      obtain ⟨y, hOk, -⟩ := exists_sameTexts hNul hMark hDeclared hLengths hSize .utf8 hOther
      exact absurd (hFirst.symm.trans hOk) nofun

end

end

theorem Carrier.size_bytes_lt {namespaces : Bool} {text : String} {c : Carrier}
    (hShort : Encoding.utf8.size (CodePoint.ofText text) ≤ Token.maxPrefixLength) :
    (c.bytes text).size < sizeLimit c.encoding namespaces := by
  have hUnits := @Carrier.noLonger_encoding c (CodePoint.ofText text)
  have hUnitSize : c.encoding.unitSize ≤ 2 := by
    unfold Encoding.unitSize
    split <;> decide
  have hSize : c.encoding.size (CodePoint.ofText text) ≤ 2 * Token.maxPrefixLength := by
    rw [← Nat.div_mul_cancel (@Encoding.unitSize_dvd_size c.encoding (CodePoint.ofText text)), Nat.mul_comm]
    refine Nat.mul_le_mul hUnitSize (Nat.le_trans hUnits ?_)
    exact Nat.le_trans (Nat.div_le_self _ _) hShort
  have hMark : c.mark.size ≤ 3 := by cases c <;> simp [mark, ByteOrderMark.size]
  have hLimit : 0x40000000 ≤ sizeLimit c.encoding namespaces := by
    unfold sizeLimit
    split <;> decide
  rw [size_bytes]
  unfold Token.maxPrefixLength at hSize
  omega

/-- Its characters take up one to four bytes in UTF-8. -/
def accented : String := "<p:é xmlns:p='ü'>𝄞</p:é>"

def accentedIndex : Index where
  buffer := ⟨#[0x3C, 0x70, 0x3A, 0xC3, 0xA9, 0x20, 0x78, 0x6D, 0x6C, 0x6E, 0x73, 0x3A, 0x70, 0x3D, 0x27, 0xC3, 0xBC,
    0x27, 0x3E, 0xF0, 0x9D, 0x84, 0x9E, 0x3C, 0x2F, 0x70, 0x3A, 0xC3, 0xA9, 0x3E]⟩
  docOffset := 0
  docLength := 30
  encoding := .utf8
  namespaces := true
  maxDepth := 0
  root := some 1
  tokens := #[⟨.document, -1, 0, 0⟩, ⟨.startTag, 0, 1, Token.qualifiedLength 1 4⟩,
    ⟨.namespaceName, 0, 6, Token.qualifiedLength 5 7⟩, ⟨.attributeValue, 0, 15, 2⟩, ⟨.characterData, 0, 19, 4⟩]
  cache := ⟨#[#[], #[]], #[]⟩

theorem parse_accented : parse ⟨false, .shallow⟩ true (Carrier.utf8.bytes accented) = .ok accentedIndex := by
  have hBytes : Carrier.utf8.bytes accented = accentedIndex.buffer := by decide
  rw [hBytes]
  exact @parseRange_of_runWithin _ _ _ _ _ 6 ⟨.utf8, .none⟩ _ (by decide) rfl (by decide +kernel)

theorem parse_carriers_accented :
    0 ∉ CodePoint.ofText accented ∧ (CodePoint.ofText accented).head? ≠ some 0xFEFF ∧
    ¬IsDeclared (CodePoint.ofText accented) ∧
    (∀ d : Document, d.Tolerated → d.text = CodePoint.ofText accented → d.Lengths .utf8 (TextFits .utf8) false) ∧
    (∀ c : Carrier, (c.bytes accented).size < sizeLimit c.encoding true) ∧
    ∃ x : Carrier → Index, (∀ c, parse ⟨false, .shallow⟩ true (c.bytes accented) = .ok (x c)) ∧
      ∀ c c', (x c).SameTexts (x c') ∧ (CacheDepth.shallow.levels (c'.bytes accented).size =
        CacheDepth.shallow.levels (c.bytes accented).size → (x c').cache = (x c).cache) := by
  have hShort : Encoding.utf8.size (CodePoint.ofText accented) ≤ Token.maxPrefixLength := by decide
  have hNul : 0 ∉ CodePoint.ofText accented := by decide
  have hMark : (CodePoint.ofText accented).head? ≠ some 0xFEFF := by decide
  have hDeclared : ¬IsDeclared (CodePoint.ofText accented) := by
    rintro ⟨d, rest, -, hText⟩
    exact absurd (List.cons.inj (List.cons.inj hText).2).1 (by decide)
  have hLengths : ∀ d : Document, d.Tolerated → d.text = CodePoint.ofText accented →
      d.Lengths .utf8 (TextFits .utf8) false :=
    fun d _ hText => .of_short (hText ▸ hShort)
  have hSize : ∀ c : Carrier, (c.bytes accented).size < sizeLimit c.encoding true :=
    fun c => c.size_bytes_lt hShort
  refine ⟨hNul, hMark, hDeclared, hLengths, hSize, ?_⟩
  refine (parse_carriers hNul hMark hDeclared hLengths hSize).resolve_right fun hFails => ?_
  obtain ⟨failure, hFail⟩ := hFails .utf8
  exact absurd (parse_accented.symm.trans hFail) nofun

/-- Its first letters may be capitals, though not in a well-formed document. -/
def capitalized : String := "<?XML version='1.0' encoding='UTF-8'?><a/>"

def capitalizedIndex : Index where
  buffer := ⟨#[0x3C, 0x3F, 0x58, 0x4D, 0x4C, 0x20, 0x76, 0x65, 0x72, 0x73, 0x69, 0x6F, 0x6E, 0x3D, 0x27, 0x31, 0x2E,
    0x30, 0x27, 0x20, 0x65, 0x6E, 0x63, 0x6F, 0x64, 0x69, 0x6E, 0x67, 0x3D, 0x27, 0x55, 0x54, 0x46, 0x2D, 0x38, 0x27,
    0x3F, 0x3E, 0x3C, 0x61, 0x2F, 0x3E]⟩
  docOffset := 0
  docLength := 42
  encoding := .utf8
  namespaces := false
  maxDepth := 0
  root := some 5
  tokens := #[⟨.document, -1, 0, 0⟩, ⟨.declarationName, -1, 6, 7⟩, ⟨.declarationValue, -1, 15, 3⟩,
    ⟨.declarationName, -1, 20, 8⟩, ⟨.declarationValue, -1, 30, 5⟩, ⟨.startTag, 0, 39, 1⟩]
  cache := ⟨#[#[], #[]], #[]⟩

theorem parse_capitalized : parse ⟨false, .shallow⟩ false (Carrier.utf8.bytes capitalized) = .ok capitalizedIndex := by
  have hBytes : Carrier.utf8.bytes capitalized = capitalizedIndex.buffer := by decide
  rw [hBytes]
  exact @parseRange_of_runWithin _ _ _ _ _ 6 ⟨.utf8, .none⟩ _ (by decide) rfl (by decide +kernel)

def capitalizedUtf16 : ByteArray :=
  ⟨#[0xFF, 0xFE, 0x3C, 0x00, 0x3F, 0x00, 0x58, 0x00, 0x4D, 0x00, 0x4C, 0x00, 0x20, 0x00, 0x76, 0x00, 0x65, 0x00,
    0x72, 0x00, 0x73, 0x00, 0x69, 0x00, 0x6F, 0x00, 0x6E, 0x00, 0x3D, 0x00, 0x27, 0x00, 0x31, 0x00, 0x2E, 0x00,
    0x30, 0x00, 0x27, 0x00, 0x20, 0x00, 0x65, 0x00, 0x6E, 0x00, 0x63, 0x00, 0x6F, 0x00, 0x64, 0x00, 0x69, 0x00,
    0x6E, 0x00, 0x67, 0x00, 0x3D, 0x00, 0x27, 0x00, 0x55, 0x00, 0x54, 0x00, 0x46, 0x00, 0x2D, 0x00, 0x38, 0x00,
    0x27, 0x00, 0x3F, 0x00, 0x3E, 0x00, 0x3C, 0x00, 0x61, 0x00, 0x2F, 0x00, 0x3E, 0x00]⟩

/-- In UTF-16 its declaration is contradicted. -/
theorem parse_capitalizedUtf16 : parse ⟨false, .shallow⟩ false ((Carrier.utf16 .little).bytes capitalized) =
    .error ⟨.encoding (.contradicted .utf8 (.utf16 .little)), some ⟨1, 36⟩⟩ := by
  have hBytes : (Carrier.utf16 .little).bytes capitalized = capitalizedUtf16 := by decide
  rw [hBytes]
  exact @parseRange_of_runWithin _ _ _ _ _ 1 ⟨.utf16 .little, .utf16⟩ _ (by decide) rfl (by decide +kernel)

/-- What is no declaration of a well-formed document may still be taken for one. -/
theorem parses_apart_capitals :
    0 ∉ CodePoint.ofText capitalized ∧ (CodePoint.ofText capitalized).head? ≠ some 0xFEFF ∧
    (¬∃ (d : Declaration) (rest : Chars), d.WellFormed ∧
      CodePoint.ofText capitalized = CodePoint.lessThan :: (d.text ++ rest)) ∧
    (∀ d : Document, d.Tolerated → d.text = CodePoint.ofText capitalized → d.Lengths .utf8 (TextFits .utf8) false) ∧
    (∀ c : Carrier, (c.bytes capitalized).size < sizeLimit c.encoding false) ∧
    (∃ x, parse ⟨false, .shallow⟩ false (Carrier.utf8.bytes capitalized) = .ok x) ∧
    ∃ failure, parse ⟨false, .shallow⟩ false ((Carrier.utf16 .little).bytes capitalized) = .error failure := by
  have hShort : Encoding.utf8.size (CodePoint.ofText capitalized) ≤ Token.maxPrefixLength := by decide
  refine ⟨by decide, by decide, ?_, fun d _ hText => .of_short (hText ▸ hShort), fun c => c.size_bytes_lt hShort,
    ⟨_, parse_capitalized⟩, ⟨_, parse_capitalizedUtf16⟩⟩
  rintro ⟨d, rest, hWell, hText⟩
  rw [Declaration.text, hWell.letters] at hText
  exact absurd (List.cons.inj (List.cons.inj (List.cons.inj hText).2).2).1 (by decide)

end XmlIndex
