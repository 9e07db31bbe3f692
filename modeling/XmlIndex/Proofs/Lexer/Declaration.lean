import XmlIndex.Proofs.Grammar.Layout
import XmlIndex.Proofs.Lexer.Markup
import XmlIndex.Proofs.Text.Labels

/-! # The declaration

A declaration is read part by part, each with its name and its value in quotes. The part that names
the encoding may change it, which leaves all that was read before as it is.
-/
namespace XmlIndex
set_option autoImplicit false
open Grammar

def Grammar.Attribute.opening (a : Attribute) : Chars :=
  a.space ++ (a.name ++ a.binding.lead)

def Grammar.Declaration.rest (d : Declaration) : Chars :=
  d.version.text ++ (Declaration.optionalText d.encoding ++ (Declaration.optionalText d.standalone ++
    (d.space ++ [CodePoint.question, CodePoint.greaterThan])))

namespace Lexer

def recode (s : Lexer) (e : Encoding) : Lexer :=
  { s with cursor := s.cursor.recode e }

/-- The lexer has read a text of ASCII; it may have written tokens of it and changed its encoding. -/
def Reaches (s : Lexer) (text : Chars) (s' : Lexer) : Prop :=
  IsAscii text ∧ s.cursor.Reads text ∧
    ∃ e tokens, s.cursor.encoding.Agrees e ∧ Layout s.cursor.encoding s.cursor.offset text tokens ∧
      s' = ((s.past text).add tokens).recode e

variable {s s' s'' : Lexer} {text rest : Chars}

theorem past_recode {e : Encoding} (hAgrees : s.cursor.encoding.Agrees e) (hAscii : IsAscii text) :
    (s.recode e).past text = (s.past text).recode e := by
  have hCursor := Cursor.advance_recode hAgrees hAscii
  unfold past recode
  rw [hCursor]

theorem recode_of_eq {e : Encoding} (hEncoding : s.cursor.encoding = e) : s.recode e = s := by
  subst hEncoding
  rfl

theorem reaches_add {tokens : List Token} (hAscii : IsAscii text) (hReads : s.cursor.Reads text)
    (hLayout : Layout s.cursor.encoding s.cursor.offset text tokens) :
    s.Reaches text ((s.past text).add tokens) :=
  ⟨hAscii, hReads, s.cursor.encoding, tokens, .refl _, hLayout, (recode_of_eq Cursor.encoding_advance).symm⟩

theorem reaches_past (hAscii : IsAscii text) (hReads : s.cursor.Reads text) : s.Reaches text (s.past text) := by
  rw [← add_nil (s := s.past text)]
  exact reaches_add hAscii hReads .blank

theorem Reaches.trans (hText : s.Reaches text s') (hRest : s'.Reaches rest s'') :
    s.Reaches (text ++ rest) s'' := by
  obtain ⟨hTextAscii, hTextReads, e, tokens, hAgrees, hTextLayout, rfl⟩ := hText
  obtain ⟨hRestAscii, hRestReads, e', more, hLater, hRestLayout, rfl⟩ := hRest
  have hThis : ((s.past text).add tokens).cursor.encoding.Agrees e := by
    rw [cursor_add, cursor_past, Cursor.encoding_advance]
    exact hAgrees
  have hPlace : (((s.past text).add tokens).recode e).cursor.offset =
      s.cursor.offset + s.cursor.encoding.size text := Cursor.offset_advance
  rw [hPlace] at hRestLayout
  refine ⟨isAscii_append.mpr ⟨hTextAscii, hRestAscii⟩, Cursor.reads_append.mpr ⟨hTextReads, ?_⟩, e',
    tokens ++ more, hAgrees.trans hLater, hTextLayout.append (hRestLayout.recode hAgrees.symm hRestAscii), ?_⟩
  · exact (Cursor.reads_recode_iff hThis hRestAscii).mp hRestReads
  · rw [past_recode hThis hRestAscii, past_append, ← add_add]
    rfl

theorem Reaches.past (hReaches : s.Reaches text s') (hAscii : IsAscii rest) (hReads : s'.cursor.Reads rest) :
    s.Reaches (text ++ rest) (s'.past rest) :=
  hReaches.trans (reaches_past hAscii hReads)

theorem Reaches.recode {e : Encoding} (hReaches : s.Reaches text s') (hAgrees : s'.cursor.encoding.Agrees e) :
    s.Reaches text (s'.recode e) := by
  obtain ⟨hAscii, hReads, e', tokens, hEarlier, hLayout, rfl⟩ := hReaches
  exact ⟨hAscii, hReads, e, tokens, hEarlier.trans hAgrees, hLayout, rfl⟩

/-- What has been read can be read again under the encoding that is known in the end. -/
theorem Reaches.reads_again (hReaches : s.Reaches text s') :
    (s.recode s'.cursor.encoding).cursor.Reads text ∧
      ∃ tokens, s' = ((s.recode s'.cursor.encoding).past text).add tokens ∧
        Layout s'.cursor.encoding s.cursor.offset text tokens := by
  obtain ⟨hAscii, hReads, e, tokens, hAgrees, hLayout, rfl⟩ := hReaches
  refine ⟨(Cursor.reads_recode_iff hAgrees hAscii).mpr hReads, tokens, ?_, hLayout.recode hAgrees hAscii⟩
  change _ = ((s.recode e).past text).add tokens
  rw [past_recode hAgrees hAscii]
  rfl

theorem Reaches.cursor_eq (hReaches : s.Reaches text s') :
    s'.cursor = (s.cursor.recode s'.cursor.encoding).advance text := by
  obtain ⟨-, tokens, hState, -⟩ := hReaches.reads_again
  exact congrArg Lexer.cursor hState

theorem Reaches.offset_eq (hReaches : s.Reaches text s') :
    s'.cursor.offset = s.cursor.offset + s'.cursor.encoding.size text := by
  conv => lhs; rw [hReaches.cursor_eq]
  exact Cursor.offset_advance

def pastPart (s : Lexer) (a : Attribute) : Lexer :=
  (s.past a.text).add (Declaration.partTokens s.cursor.encoding s.cursor.offset a)

end Lexer

namespace Lex
variable {s s' : Lexer} {u : Unit} {space : Chars}

theorem emitUnits_eq_ok_iff {kind : TokenKind} {place count : Nat} : emitUnits kind place count s = .ok u s' ↔
    s' = s.add [token s.cursor.encoding kind s.depth place (count * s.cursor.encoding.unitSize)] := by
  simp only [emitUnits, unitSize, bind_eq_ok_iff, look_eq_ok_iff, emit_eq_ok_iff]
  constructor
  · rintro ⟨_, _, ⟨rfl, rfl⟩, rfl⟩
    rfl
  · rintro rfl
    exact ⟨_, _, ⟨rfl, rfl⟩, rfl⟩

theorem read_openValue_eq_ok_iff {quote : CodePoint} : read Scan.openValue s = .ok quote s' ↔
    ∃ before after, s.cursor.Reads (before ++ CodePoint.equals :: (after ++ [quote])) ∧ IsSpace before ∧
      IsSpace after ∧ (quote = CodePoint.doubleQuote ∨ quote = CodePoint.singleQuote) ∧
        s' = s.past (before ++ CodePoint.equals :: (after ++ [quote])) := by
  simp only [read_eq_ok_iff, Scan.openValue_eq_ok_iff, Scan.Opens]
  constructor
  · rintro ⟨_, ⟨before, after, hReads, hBefore, hAfter, hQuote, rfl⟩, rfl⟩
    exact ⟨before, after, hReads, hBefore, hAfter, hQuote, rfl⟩
  · rintro ⟨before, after, hReads, hBefore, hAfter, hQuote, rfl⟩
    exact ⟨_, ⟨before, after, hReads, hBefore, hAfter, hQuote, rfl⟩, rfl⟩

theorem read_closeValue_eq_ok_iff {quote : CodePoint} : read (Scan.closeValue quote) s = .ok u s' ↔
    s.cursor.Reads [quote] ∧ s' = s.past [quote] := by
  simp only [read_eq_ok_iff, Scan.closeValue_eq_ok_iff]
  constructor
  · rintro ⟨_, ⟨hReads, rfl⟩, rfl⟩
    exact ⟨hReads, rfl⟩
  · rintro ⟨hReads, rfl⟩
    exact ⟨_, ⟨hReads, rfl⟩, rfl⟩

theorem read_nextSpaced_eq_ok_iff {ch : CodePoint} {spaced : Bool} :
    read Scan.nextSpaced s = .ok (ch, spaced) s' ↔ ∃ space, s.cursor.Reads (space ++ [ch]) ∧ IsSpace space ∧
      CodePoint.isSpace ch = false ∧ spaced = !space.isEmpty ∧ s' = s.past (space ++ [ch]) := by
  simp only [read_eq_ok_iff, Scan.nextSpaced_eq_ok_iff]
  constructor
  · rintro ⟨_, ⟨space, hReads, hSpace, hOther, rfl, rfl⟩, rfl⟩
    exact ⟨space, hReads, hSpace, hOther, rfl, rfl⟩
  · rintro ⟨space, hReads, hSpace, hOther, rfl, rfl⟩
    exact ⟨_, ⟨space, hReads, hSpace, hOther, rfl, rfl⟩, rfl⟩

/-- Reads a part up to its value, after the first character of its name; the result is the quote and
the place of the value. -/
def openPart (rest : Chars) (count : Nat) (cause : SyntaxFault) : Lex (CodePoint × Nat) := do
  let place ← read Scan.last
  require (← read (Scan.skipAll rest)) cause
  emitUnits .declarationName place count
  let quote ← read Scan.openValue
  let value ← read Scan.offset
  return (quote, value)

def pastOpening (s : Lexer) (a : Attribute) : Lexer :=
  (s.past a.opening).add [token s.cursor.encoding .declarationName s.depth
    (s.cursor.offset + s.cursor.encoding.size a.space) (s.cursor.encoding.size a.name)]

theorem openPart_eq_ok_iff {first : CodePoint} {rest : Chars} {count : Nat} {cause : SyntaxFault}
    {found : CodePoint × Nat} (hText : s.cursor.Reads (space ++ [first])) (hAscii : IsAscii (first :: rest))
    (hCount : (first :: rest).length = count) :
    openPart rest count cause (s.past (space ++ [first])) = .ok found s' ↔ ∃ b : Binding,
      b.WellFormed ∧ b.value = [] ∧ s.cursor.Reads (⟨space, first :: rest, b⟩ : Attribute).opening ∧
        found = (b.quote, (⟨space, first :: rest, b⟩ : Attribute).valuePlace s.cursor.encoding s.cursor.offset) ∧
          s' = pastOpening s ⟨space, first :: rest, b⟩ := by
  have hSize : count * s.cursor.encoding.unitSize = s.cursor.encoding.size (first :: rest) := by
    rw [Encoding.size_of_ascii hAscii, hCount]
  have hName : (s.past (space ++ [first])).past rest = s.past (space ++ first :: rest) := by
    rw [← Lexer.past_append]
    simp
  have hOpening : ∀ before after quote, space ++ (first :: rest ++
      (before ++ CodePoint.equals :: (after ++ [quote]))) = (space ++ [first]) ++ (rest ++
        (before ++ CodePoint.equals :: (after ++ [quote]))) := by simp
  simp only [openPart, bind_eq_ok_iff, read_last_eq_ok_iff, require_eq_ok_iff, emitUnits_eq_ok_iff,
    read_openValue_eq_ok_iff, read_offset_eq_ok_iff, pure_eq_ok_iff]
  constructor
  · rintro ⟨_, _, ⟨rfl, rfl⟩, _, _, hSkip, _, _, ⟨rfl, rfl⟩, _, _, rfl, quote, _,
      ⟨before, after, hLead, hBefore, hAfter, hQuote, rfl⟩, _, _, ⟨rfl, rfl⟩, rfl, rfl⟩
    obtain ⟨hRest, rfl⟩ := read_skipAll_eq_ok_true_iff.mp hSkip
    refine ⟨⟨before, after, quote, []⟩, ⟨hBefore, hAfter, hQuote⟩, rfl, ?_, ?_, ?_⟩
    · change s.cursor.Reads (space ++ (first :: rest ++ (before ++ CodePoint.equals :: (after ++ [quote]))))
      rw [hOpening]
      exact Cursor.reads_append.mpr ⟨hText, Cursor.reads_append.mpr ⟨hRest, hLead⟩⟩
    · simp [Attribute.valuePlace, Binding.lead, Nat.add_assoc]
    · rw [hName, Lexer.add_past, ← Lexer.past_append]
      simp [pastOpening, Attribute.opening, Binding.lead, hSize]
  · rintro ⟨⟨before, after, quote, _⟩, ⟨hBefore, hAfter, hQuote⟩, rfl, hAll, rfl, rfl⟩
    change s.cursor.Reads (space ++ (first :: rest ++ (before ++ CodePoint.equals :: (after ++ [quote]))))
      at hAll
    rw [hOpening] at hAll
    obtain ⟨hRest, hLead⟩ := Cursor.reads_append.mp (Cursor.reads_append.mp hAll).2
    refine ⟨_, _, ⟨rfl, rfl⟩, true, _, read_skipAll_eq_ok_true_iff.mpr ⟨hRest, rfl⟩, (), _, ⟨rfl, rfl⟩, (), _,
      rfl, quote, _, ⟨before, after, hLead, hBefore, hAfter, hQuote, rfl⟩, _, _, ⟨rfl, rfl⟩, ?_, ?_⟩
    · simp [Attribute.valuePlace, Binding.lead, Nat.add_assoc]
    · rw [hName, Lexer.add_past, ← Lexer.past_append]
      simp [pastOpening, Attribute.opening, Binding.lead, hSize]

section
variable {name : Chars} {b : Binding} {value : Chars}

abbrev part (space name : Chars) (b : Binding) (value : Chars) : Attribute :=
  ⟨space, name, { b with value }⟩

theorem text_part : (part space name b value).text =
    (⟨space, name, b⟩ : Attribute).opening ++ (value ++ [b.quote]) := by
  simp [Attribute.text, Attribute.opening, Binding.text, Binding.lead]

theorem pastPart_eq (hDepth : s.depth = -1) : (((pastOpening s ⟨space, name, b⟩).past value).add
    [token s.cursor.encoding .declarationValue (-1)
      ((⟨space, name, b⟩ : Attribute).valuePlace s.cursor.encoding s.cursor.offset)
      (s.cursor.encoding.size value)]).past [b.quote] = s.pastPart (part space name b value) := by
  rw [Lexer.add_past, ← Lexer.past_append, pastOpening, Lexer.add_past, ← Lexer.past_append, Lexer.add_add,
    Lexer.pastPart, text_part, hDepth]
  rfl

theorem encoding_pastOpening : (pastOpening s ⟨space, name, b⟩).cursor.encoding = s.cursor.encoding :=
  Cursor.encoding_advance

theorem reads_part : s.cursor.Reads (part space name b value).text ↔
    s.cursor.Reads (⟨space, name, b⟩ : Attribute).opening ∧
      (pastOpening s ⟨space, name, b⟩).cursor.Reads (value ++ [b.quote]) := by
  rw [text_part]
  exact Cursor.reads_append

end

theorem isAscii_of_isVersion {value : Chars} (hVersion : Declaration.IsVersion value) :
    IsAscii value ∧ value.length = 3 := by
  rcases hVersion with rfl | rfl <;> exact ⟨by unfold IsAscii; decide, rfl⟩

theorem versionDeclaration_eq : versionDeclaration 0x76 = (do
    let found ← openPart (CodePoint.ofText "ersion") 7 .versionExpected
    require (← read Scan.version) .unsupportedVersion
    emitUnits .declarationValue found.2 3
    read (Scan.closeValue found.1)) := by
  simp only [versionDeclaration, openPart, bind_assoc, pure_bind]
  rfl

theorem versionDeclaration_eq_ok_iff {first : CodePoint} (hDepth : s.depth = -1) (hSpace : IsSpace space)
    (hNonempty : space ≠ []) (hText : s.cursor.Reads (space ++ [first])) :
    versionDeclaration first (s.past (space ++ [first])) = .ok u s' ↔ ∃ a : Attribute,
      Declaration.Part "version" Declaration.IsVersion a ∧ a.space = space ∧ s.cursor.Reads a.text ∧
        s' = s.pastPart a := by
  have hName : CodePoint.ofText "version" = 0x76 :: CodePoint.ofText "ersion" := rfl
  have hAscii : IsAscii (0x76 :: CodePoint.ofText "ersion") := by unfold IsAscii; decide
  have hCount : ((0x76 : CodePoint) :: CodePoint.ofText "ersion").length = 7 := rfl
  have hState : ∀ (b : Binding) (value : Chars), Declaration.IsVersion value →
      ((((pastOpening s ⟨space, 0x76 :: CodePoint.ofText "ersion", b⟩).past value).add
        [token s.cursor.encoding .declarationValue s.depth
          ((⟨space, 0x76 :: CodePoint.ofText "ersion", b⟩ : Attribute).valuePlace s.cursor.encoding
            s.cursor.offset) (3 * s.cursor.encoding.unitSize)]).past [b.quote]) =
        s.pastPart (part space (CodePoint.ofText "version") b value) := by
    intro b value hValue
    obtain ⟨hValueAscii, hLength⟩ := isAscii_of_isVersion hValue
    rw [hName, ← pastPart_eq hDepth, Encoding.size_of_ascii hValueAscii, hLength, hDepth]
  have hRead : ∀ {t t' : Lexer}, read Scan.version t = .ok true t' ↔
      ∃ value, Declaration.IsVersion value ∧ t.cursor.Reads value ∧ t' = t.past value := by
    intro t t'
    simp only [read_eq_ok_iff, Scan.version_eq_ok_true_iff]
    constructor
    · rintro ⟨_, ⟨value, hValue, hReads, rfl⟩, rfl⟩
      exact ⟨value, hValue, hReads, rfl⟩
    · rintro ⟨value, hValue, hReads, rfl⟩
      exact ⟨_, ⟨value, hValue, hReads, rfl⟩, rfl⟩
  constructor
  · intro hOk
    have hFirst : first = 0x76 := by
      simp only [versionDeclaration, bind_eq_ok_iff, require_eq_ok_iff] at hOk
      obtain ⟨_, _, -, _, _, ⟨hFirst, -⟩, -⟩ := hOk
      exact of_decide_eq_true hFirst
    subst hFirst
    rw [versionDeclaration_eq] at hOk
    simp only [bind_eq_ok_iff, openPart_eq_ok_iff hText hAscii hCount, require_eq_ok_iff, emitUnits_eq_ok_iff,
      read_closeValue_eq_ok_iff] at hOk
    obtain ⟨_, _, ⟨b, hWell, -, hOpening, rfl, rfl⟩, _, _, hVersion, _, _, ⟨rfl, rfl⟩, _, _, rfl, hQuote, rfl⟩ :=
      hOk
    obtain ⟨value, hValue, hReads, rfl⟩ := hRead.mp hVersion
    refine ⟨part space (CodePoint.ofText "version") b value,
      ⟨⟨hNonempty, hSpace, hWell.before, hWell.after, hWell.quote⟩, rfl, hValue⟩, rfl,
      reads_part.mpr ⟨hOpening, Cursor.reads_append.mpr ⟨hReads, hQuote⟩⟩, ?_⟩
    rw [← hState b value hValue]
    simp only [Lexer.cursor_past, Cursor.encoding_advance, encoding_pastOpening]
    rfl
  · rintro ⟨⟨space', name, b⟩, ⟨⟨-, -, hWell⟩, rfl, hValue⟩, rfl, hReads, rfl⟩
    obtain ⟨hOpening, hRest⟩ := (@reads_part _ _ _ { b with value := [] } b.value).mp hReads
    obtain ⟨hValueText, hQuote⟩ := Cursor.reads_append.mp hRest
    obtain rfl : (0x76 : CodePoint) = first := by
      have hHead := (Cursor.reads_append.mp hText).2
      rw [Attribute.opening, Cursor.reads_append] at hOpening
      exact hHead.head_eq hOpening.2
    rw [versionDeclaration_eq]
    simp only [bind_eq_ok_iff, openPart_eq_ok_iff hText hAscii hCount, require_eq_ok_iff, emitUnits_eq_ok_iff,
      read_closeValue_eq_ok_iff]
    refine ⟨_, _, ⟨{ b with value := [] }, ⟨hWell.before, hWell.after, hWell.quote⟩, rfl, hOpening, rfl, rfl⟩,
      true, _, hRead.mpr ⟨b.value, hValue, hValueText, rfl⟩, (), _, ⟨rfl, rfl⟩, (), _, rfl, hQuote, ?_⟩
    refine (hState { b with value := [] } b.value hValue).symm.trans ?_
    simp only [Lexer.cursor_past, Cursor.encoding_advance, encoding_pastOpening]
    rfl

theorem isAscii_quote {quote : CodePoint} (hQuote : quote = CodePoint.doubleQuote ∨ quote = CodePoint.singleQuote) :
    IsAscii [quote] := by
  rcases hQuote with rfl | rfl <;> (unfold IsAscii; decide)

theorem isAscii_opening {a : Attribute} (hSpace : IsSpace a.space) (hName : IsAscii a.name)
    (hBinding : a.binding.WellFormed) : IsAscii a.opening := by
  have hLead : IsAscii a.binding.lead := isAscii_append.mpr ⟨isAscii_of_isSpace hBinding.before,
    isAscii_cons.mpr ⟨by decide, isAscii_append.mpr
      ⟨isAscii_of_isSpace hBinding.after, isAscii_quote hBinding.quote⟩⟩⟩
  exact isAscii_append.mpr ⟨isAscii_of_isSpace hSpace, isAscii_append.mpr ⟨hName, hLead⟩⟩

/-- A text of ASCII that is not too long for one token. -/
theorem textFits_of_isAscii {e : Encoding} {text : Chars} (hAscii : IsAscii text)
    (hShort : text.length ≤ Token.maxLength) : TextFits e text := by
  rw [TextFits, Encoding.size_of_ascii hAscii, Nat.mul_div_cancel _ e.unitSize_pos]
  exact hShort

/-- A text of which the first part has a token. -/
theorem reaches_token {kind : TokenKind} {depth : Int} {body after : Chars} (hSome : body ++ after ≠ [])
    (hKind : kind.isQualified = false) (hAscii : IsAscii (body ++ after)) (hShort : body.length ≤ Token.maxLength)
    (hReads : s.cursor.Reads (body ++ after)) : s.Reaches (body ++ after) ((s.past (body ++ after)).add
      [token s.cursor.encoding kind depth s.cursor.offset (s.cursor.encoding.size body)]) :=
  Lexer.reaches_add hAscii hReads (.token hSome hKind (textFits_of_isAscii (isAscii_append.mp hAscii).1 hShort))

/-- Where the value of a part begins. -/
theorem offset_pastOpening {a : Attribute} :
    (pastOpening s a).cursor.offset = a.valuePlace s.cursor.encoding s.cursor.offset :=
  Cursor.offset_advance

theorem reaches_pastOpening {a : Attribute} (hSpace : IsSpace a.space) (hName : IsAscii a.name)
    (hShort : a.name.length ≤ Token.maxLength) (hBinding : a.binding.WellFormed)
    (hReads : s.cursor.Reads a.opening) : s.Reaches a.opening (pastOpening s a) := by
  have hLead : a.name ++ a.binding.lead ≠ [] := by simp [Binding.lead]
  exact Lexer.reaches_add (isAscii_opening hSpace hName hBinding) hReads
    (.after rfl (.token hLead rfl (textFits_of_isAscii hName hShort)))

theorem standaloneDeclaration_eq : standaloneDeclaration = (do
    let found ← openPart (CodePoint.ofText "tandalone") 10 .standaloneExpected
    let length ← read Scan.standaloneAnswer
    emitUnits .declarationValue found.2 length
    read (Scan.closeValue found.1)) := by
  simp only [standaloneDeclaration, openPart, bind_assoc, pure_bind]

theorem isAscii_of_isWord {value : Chars} (hWord : Declaration.IsWord value) : IsAscii value := by
  intro ch hch
  refine EncodingLabel.lt_of_isAllowed ?_
  rw [EncodingLabel.isAllowed, hWord ch hch]
  rfl

theorem isAscii_standalone : IsAscii (CodePoint.ofText "standalone") := by
  unfold IsAscii
  decide

theorem read_standaloneAnswer_eq_ok {n : Nat} (hOk : read Scan.standaloneAnswer s = .ok n s') :
    ∃ value, s.cursor.Reads value ∧ Declaration.IsWord value ∧ n ≤ min 3 value.length ∧ s' = s.past value := by
  obtain ⟨_, hAnswer, rfl⟩ := read_eq_ok_iff.mp hOk
  obtain ⟨value, hReads, hWord, hLength, rfl⟩ := Scan.standaloneAnswer_eq_ok hAnswer
  exact ⟨value, hReads, hWord, hLength, rfl⟩

theorem read_standaloneAnswer_of_reads {value : Chars} (hValue : Declaration.IsAnswer value)
    (hReads : s.cursor.Reads value) : read Scan.standaloneAnswer s = .ok value.length (s.past value) :=
  read_eq_ok_iff.mpr ⟨_, Scan.standaloneAnswer_of_reads hValue hReads, rfl⟩

section
variable (hText : s.cursor.Reads (space ++ [0x73]))
include hText

theorem openPart_standalone_eq_ok_iff {found : CodePoint × Nat} :
    openPart (CodePoint.ofText "tandalone") 10 .standaloneExpected (s.past (space ++ [0x73])) =
      .ok found s' ↔ ∃ b : Binding, b.WellFormed ∧ b.value = [] ∧
        s.cursor.Reads (⟨space, CodePoint.ofText "standalone", b⟩ : Attribute).opening ∧
          found = (b.quote, (⟨space, CodePoint.ofText "standalone", b⟩ : Attribute).valuePlace
            s.cursor.encoding s.cursor.offset) ∧
            s' = pastOpening s ⟨space, CodePoint.ofText "standalone", b⟩ :=
  openPart_eq_ok_iff hText isAscii_standalone rfl

theorem reaches_of_standaloneDeclaration (hSpace : IsSpace space) (hNonempty : space ≠ [])
    (hOk : standaloneDeclaration (s.past (space ++ [0x73])) = .ok u s') : ∃ a : Attribute,
      Declaration.Part "standalone" Declaration.IsWord a ∧ s.Reaches a.text s' := by
  rw [standaloneDeclaration_eq] at hOk
  simp only [bind_eq_ok_iff, openPart_standalone_eq_ok_iff hText, emitUnits_eq_ok_iff,
    read_closeValue_eq_ok_iff] at hOk
  obtain ⟨_, _, ⟨b, hWell, -, hOpening, rfl, rfl⟩, length, _, hAnswer, _, _, rfl, hQuote, rfl⟩ := hOk
  obtain ⟨value, hReads, hWord, hLength, rfl⟩ := read_standaloneAnswer_eq_ok hAnswer
  refine ⟨part space (CodePoint.ofText "standalone") b value,
    ⟨⟨hNonempty, hSpace, hWell.before, hWell.after, hWell.quote⟩, rfl, hWord⟩, ?_⟩
  have hShort : (CodePoint.ofText "standalone").length ≤ Token.maxLength := by decide
  have hOpened := reaches_pastOpening (a := ⟨space, CodePoint.ofText "standalone", b⟩) hSpace isAscii_standalone
    hShort hWell hOpening
  have hAscii := isAscii_of_isWord hWord
  have hText : value.take length ++ (value.drop length ++ [b.quote]) = value ++ [b.quote] := by
    rw [← List.append_assoc, List.take_append_drop]
  have hTaken : IsAscii (value.take length) := fun ch hch => hAscii ch (List.mem_of_mem_take hch)
  have hCount : (value.take length).length = length := List.length_take_of_le (Nat.le_min.mp hLength).2
  have hSmall : length ≤ Token.maxLength := Nat.le_trans (Nat.le_min.mp hLength).1 (by decide)
  have hValue := @reaches_token (pastOpening s ⟨space, CodePoint.ofText "standalone", b⟩) .declarationValue s.depth
    (value.take length) (value.drop length ++ [b.quote]) (by simp) rfl
    (hText ▸ isAscii_append.mpr ⟨hAscii, isAscii_quote hWell.quote⟩) (hCount.symm ▸ hSmall)
    (hText ▸ Cursor.reads_append.mpr ⟨hReads, hQuote⟩)
  rw [hText, Encoding.size_of_ascii hTaken, hCount, offset_pastOpening, encoding_pastOpening] at hValue
  rw [text_part, Lexer.add_past, ← Lexer.past_append]
  simp only [Lexer.cursor_past, Cursor.encoding_advance, encoding_pastOpening]
  exact hOpened.trans hValue

theorem standaloneDeclaration_of_reads {a : Attribute} (hDepth : s.depth = -1)
    (hPart : Declaration.Part "standalone" Declaration.IsAnswer a) (hSpace : a.space = space)
    (hReads : s.cursor.Reads a.text) :
    standaloneDeclaration (s.past (space ++ [0x73])) = .ok () (s.pastPart a) := by
  obtain ⟨space', name, b⟩ := a
  obtain ⟨⟨-, -, hWell⟩, rfl, hValue⟩ := hPart
  obtain rfl : space' = space := hSpace
  obtain ⟨hOpening, hRest⟩ := (@reads_part _ _ _ { b with value := [] } b.value).mp hReads
  obtain ⟨hValueText, hQuote⟩ := Cursor.reads_append.mp hRest
  have hAscii : IsAscii b.value := by
    rcases hValue with h | h <;> rw [h] <;> (unfold IsAscii; decide)
  rw [standaloneDeclaration_eq]
  simp only [bind_eq_ok_iff, openPart_standalone_eq_ok_iff hText, emitUnits_eq_ok_iff,
    read_closeValue_eq_ok_iff]
  refine ⟨_, _, ⟨{ b with value := [] }, ⟨hWell.before, hWell.after, hWell.quote⟩, rfl, hOpening, rfl, rfl⟩,
    _, _, read_standaloneAnswer_of_reads hValue hValueText, (), _, rfl, hQuote, ?_⟩
  refine (@pastPart_eq _ _ _ { b with value := [] } b.value hDepth).symm.trans ?_
  rw [Encoding.size_of_ascii hAscii]
  simp only [Lexer.cursor_past, Cursor.encoding_advance, encoding_pastOpening]
  rw [← hDepth]
  rfl

end

theorem encodingDeclaration_eq : encodingDeclaration = (do
    let found ← openPart (CodePoint.ofText "ncoding") 8 .encodingExpected
    let label ← read (Scan.label found.1)
    let stop ← read Scan.last
    emit .declarationValue ⟨found.2, stop - found.2⟩
    declareEncoding label) := by
  simp only [encodingDeclaration, openPart, bind_assoc, pure_bind]

theorem declareEncoding_eq_ok {label : String} (hOk : declareEncoding label s = .ok u s') :
    ∃ e, reconcile s.mark s.cursor.encoding label = .ok e ∧ s' = s.recode e := by
  have hMark : look (·.mark) s = .ok s.mark s := rfl
  have hEncoding : read Scan.encoding s = .ok s.cursor.encoding s := rfl
  rw [declareEncoding, bind_of_ok hMark, bind_of_ok hEncoding] at hOk
  cases hReconcile : reconcile s.mark s.cursor.encoding label with
  | error cause =>
    rw [hReconcile] at hOk
    exact (throw_eq_ok_iff.mp hOk).elim
  | ok e =>
    refine ⟨e, rfl, ?_⟩
    rw [hReconcile] at hOk
    simp only at hOk
    split at hOk
    · obtain ⟨-, rfl⟩ := pure_eq_ok_iff.mp hOk
      exact (Lexer.recode_of_eq (Eq.symm ‹_›)).symm
    · have hStop : look (·.cursor.stop) s = .ok s.cursor.stop s := rfl
      have hNamespaces : look (·.namespaces) s = .ok s.namespaces s := rfl
      rw [bind_of_ok hStop, bind_of_ok hNamespaces] at hOk
      cases hSize : checkSize e s.cursor.stop s.namespaces with
      | error cause =>
        rw [hSize] at hOk
        exact (throw_eq_ok_iff.mp hOk).elim
      | ok =>
        rw [hSize] at hOk
        cases hOk
        rfl

theorem declareEncoding_of_same {label : String}
    (hSame : reconcile s.mark s.cursor.encoding label = .ok s.cursor.encoding) :
    declareEncoding label s = .ok () s := by
  have hMark : look (·.mark) s = .ok s.mark s := rfl
  have hEncoding : read Scan.encoding s = .ok s.cursor.encoding s := rfl
  rw [declareEncoding, bind_of_ok hMark, bind_of_ok hEncoding, hSame]
  simp only [if_pos]
  rfl

theorem isAscii_encoding : IsAscii (CodePoint.ofText "encoding") := by
  unfold IsAscii
  decide

theorem read_label_eq_ok_iff {quote : CodePoint} {label : String}
    (hQuote : quote = CodePoint.doubleQuote ∨ quote = CodePoint.singleQuote) :
    read (Scan.label quote) s = .ok label s' ↔ ∃ value, s.cursor.Reads (value ++ [quote]) ∧
      (∀ ch ∈ value, EncodingLabel.isAllowed ch = true) ∧ value.length ≤ EncodingLabel.maxLength ∧
        label = String.ofList (value.map Char.ofNat) ∧ s' = s.past (value ++ [quote]) := by
  simp only [read_eq_ok_iff, Scan.label_eq_ok_iff hQuote]
  constructor
  · rintro ⟨_, ⟨value, hReads, hAllowed, hLength, rfl, rfl⟩, rfl⟩
    exact ⟨value, hReads, hAllowed, hLength, rfl, rfl⟩
  · rintro ⟨value, hReads, hAllowed, hLength, rfl, rfl⟩
    exact ⟨_, ⟨value, hReads, hAllowed, hLength, rfl, rfl⟩, rfl⟩

section
variable (hText : s.cursor.Reads (space ++ [0x65]))
include hText

theorem openPart_encoding_eq_ok_iff {found : CodePoint × Nat} :
    openPart (CodePoint.ofText "ncoding") 8 .encodingExpected (s.past (space ++ [0x65])) =
      .ok found s' ↔ ∃ b : Binding, b.WellFormed ∧ b.value = [] ∧
        s.cursor.Reads (⟨space, CodePoint.ofText "encoding", b⟩ : Attribute).opening ∧
          found = (b.quote, (⟨space, CodePoint.ofText "encoding", b⟩ : Attribute).valuePlace
            s.cursor.encoding s.cursor.offset) ∧
            s' = pastOpening s ⟨space, CodePoint.ofText "encoding", b⟩ :=
  openPart_eq_ok_iff hText isAscii_encoding rfl

theorem reaches_of_encodingDeclaration (hSpace : IsSpace space) (hNonempty : space ≠ [])
    (hOk : encodingDeclaration (s.past (space ++ [0x65])) = .ok u s') : ∃ a : Attribute,
      Declaration.Part "encoding" Declaration.IsLabel a ∧ s.Reaches a.text s' := by
  rw [encodingDeclaration_eq] at hOk
  simp only [bind_eq_ok_iff, openPart_encoding_eq_ok_iff hText, read_last_eq_ok_iff, emit_eq_ok_iff] at hOk
  obtain ⟨_, _, ⟨b, hWell, -, hOpening, rfl, rfl⟩, label, _, hLabel, _, _, ⟨rfl, rfl⟩, _, _, rfl, hDeclare⟩ := hOk
  obtain ⟨value, hReads, hAllowed, hLength, rfl, rfl⟩ := (read_label_eq_ok_iff hWell.quote).mp hLabel
  obtain ⟨e, hReconcile, rfl⟩ := declareEncoding_eq_ok hDeclare
  have hAscii : IsAscii value := fun ch hch => EncodingLabel.lt_of_isAllowed (hAllowed ch hch)
  have hShort : (CodePoint.ofText "encoding").length ≤ Token.maxLength := by decide
  have hOpened := reaches_pastOpening (a := ⟨space, CodePoint.ofText "encoding", b⟩) hSpace isAscii_encoding
    hShort hWell hOpening
  refine ⟨part space (CodePoint.ofText "encoding") b value,
    ⟨⟨hNonempty, hSpace, hWell.before, hWell.after, hWell.quote⟩, rfl, isLabel_of_reconcile hAllowed hReconcile⟩,
    ?_⟩
  have hValue := @reaches_token (pastOpening s ⟨space, CodePoint.ofText "encoding", b⟩) .declarationValue s.depth value
    [b.quote] (by simp) rfl (isAscii_append.mpr ⟨hAscii, isAscii_quote hWell.quote⟩)
    (Nat.le_trans hLength (by decide)) hReads
  rw [text_part]
  refine (hOpened.trans ?_).recode (agrees_of_reconcile hReconcile)
  simp only [Lexer.cursor_past, Cursor.last_advance_append, ← offset_pastOpening, Nat.add_sub_cancel_left,
    Cursor.encoding_advance]
  exact hValue

theorem encodingDeclaration_of_reads {a : Attribute} (hDepth : s.depth = -1) (hEncoding : s.cursor.encoding = .utf8)
    (hPart : Declaration.Part "encoding" Declaration.IsLabel a) (hUtf8 : Declaration.IsUtf8 a.binding.value)
    (hSpace : a.space = space) (hReads : s.cursor.Reads a.text) :
    encodingDeclaration (s.past (space ++ [0x65])) = .ok () (s.pastPart a) := by
  obtain ⟨space', name, b⟩ := a
  obtain ⟨⟨-, -, hWell⟩, rfl, hValue⟩ := hPart
  obtain rfl : space' = space := hSpace
  obtain ⟨hOpening, hRest⟩ := (@reads_part _ _ _ { b with value := [] } b.value).mp hReads
  have hAllowed : ∀ ch ∈ b.value, EncodingLabel.isAllowed ch = true := by
    cases hLabel : b.value with
    | nil => exact fun _ h => (List.not_mem_nil h).elim
    | cons first rest =>
      rw [hLabel] at hValue
      exact List.forall_mem_cons.mpr ⟨by rw [EncodingLabel.isAllowed, hValue.1]; rfl, hValue.2⟩
  have hLength : b.value.length = 5 := by
    have h := congrArg List.length hUtf8
    rwa [List.length_map, List.length_map] at h
  rw [encodingDeclaration_eq]
  simp only [bind_eq_ok_iff, openPart_encoding_eq_ok_iff hText, read_last_eq_ok_iff, emit_eq_ok_iff]
  refine ⟨_, _, ⟨{ b with value := [] }, ⟨hWell.before, hWell.after, hWell.quote⟩, rfl, hOpening, rfl, rfl⟩,
    _, _, (read_label_eq_ok_iff hWell.quote).mpr ⟨b.value, hRest, hAllowed, by rw [hLength]; decide, rfl, rfl⟩,
    _, _, ⟨rfl, rfl⟩, (), _, rfl, ?_⟩
  have hState := @pastPart_eq s space' (CodePoint.ofText "encoding") { b with value := [] }
    b.value hDepth
  rw [Lexer.add_past, ← Lexer.past_append] at hState
  simp only [Lexer.cursor_past, Cursor.last_advance_append, offset_pastOpening, Nat.add_sub_cancel_left,
    Cursor.encoding_advance, encoding_pastOpening]
  rw [← hDepth] at hState
  refine (congrArg (declareEncoding _) hState).trans (declareEncoding_of_same ?_)
  rw [show (s.pastPart _).cursor.encoding = .utf8 from Cursor.encoding_advance.trans hEncoding]
  exact reconcile_utf8 hUtf8

end

end Lex
end XmlIndex
