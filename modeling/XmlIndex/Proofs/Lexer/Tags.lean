import Mathlib.Data.List.Forall2
import XmlIndex.Proofs.Lexer.Writing
import XmlIndex.Proofs.Scan.Spans
import XmlIndex.Proofs.Scan.Values

/-! # Names and values in tags

Without namespaces a start tag is read for its name and its attributes alone. The lexer knows names
by where they stand, so what it knows of open elements and of attributes are texts at places.
-/
namespace XmlIndex
set_option autoImplicit false
open Grammar

namespace Lexer

def Opened (s : Lexer) (names : List Chars) : Prop :=
  List.Forall₂ s.cursor.Covers s.openTags names

/-- The names of the attributes of the tag so far, the latest first. -/
def Seen (s : Lexer) (names : List Chars) : Prop :=
  List.Forall₂ s.cursor.Covers s.attributes names

variable {s s' : Lexer} {names : List Chars}

/-- Names stay where they are while the lexer moves on. -/
theorem forall_covers_congr {c c' : Cursor} {spans : List Span}
    (hCovers : List.Forall₂ c.Covers spans names) (hDoc : c'.doc = c.doc) (hStop : c'.stop = c.stop)
    (hEncoding : c'.encoding = c.encoding) : List.Forall₂ c'.Covers spans names :=
  hCovers.imp fun _ _ h => h.congr hDoc hStop hEncoding

theorem Opened.length_eq (hOpened : s.Opened names) : s.openTags.length = names.length :=
  List.Forall₂.length_eq hOpened

theorem Opened.openTags_ne_nil {name : Chars} (hOpened : s.Opened (name :: names)) : s.openTags ≠ [] := by
  intro h
  rw [Opened, h] at hOpened
  cases hOpened

theorem Opened.depth_eq {name : Chars} (hOpened : s.Opened (name :: names)) : s.depth = names.length := by
  rw [depth, hOpened.length_eq, List.length_cons]
  omega

theorem Seen.past {text : Chars} (hSeen : s.Seen names) : (s.past text).Seen names :=
  forall_covers_congr hSeen Cursor.doc_advance Cursor.stop_advance Cursor.encoding_advance

theorem Opened.past {text : Chars} (hOpened : s.Opened names) : (s.past text).Opened names :=
  forall_covers_congr hOpened Cursor.doc_advance Cursor.stop_advance Cursor.encoding_advance

def push (s : Lexer) (name : Name) : Lexer :=
  { s with
    openTags := name.span :: s.openTags
    maxDepth := max s.maxDepth s.openTags.length
    attributes := [] }

theorem depth_push {name : Name} : (s.push name).depth = s.openTags.length := by
  rw [depth, push, List.length_cons]
  omega

def see (s : Lexer) (name : Name) : Lexer :=
  { s with attributes := name.span :: s.attributes }

def named (s : Lexer) (kind : TokenKind) (own : Chars) : Lexer :=
  ((s.past own).see (Scan.nameAt s.cursor.encoding s.cursor.offset own)).add
    [nameToken s.cursor.encoding kind s.depth s.cursor.offset own]

def valued (s : Lexer) (b : Binding) : Lexer :=
  (s.past b.text).add [token s.cursor.encoding .attributeValue s.depth
    (s.cursor.offset + s.cursor.encoding.size b.lead) (s.cursor.encoding.size b.value)]

def opened (s : Lexer) (name : Chars) : Lexer :=
  ((s.past name).push (Scan.nameAt s.cursor.encoding s.cursor.offset name)).addElement
    s.cursor.encoding s.openTags.length s.cursor.offset name

end Lexer

namespace Scan

theorem covers_nameAt {c : Cursor} {text : Chars} (hReads : c.Reads text) :
    c.Covers (nameAt c.encoding c.offset text).span text :=
  ⟨hReads, rfl⟩

end Scan

namespace Lex
variable {s s' : Lexer} {u : Unit} {name : Name}

section
variable (hOff : s.namespaces = false)
include hOff

theorem namespacesOn_of_off : namespacesOn s = .ok false s :=
  hOff ▸ rfl

theorem checkElementPrefix_of_off : checkElementPrefix name s = .ok () s := by
  unfold checkElementPrefix
  refine bind_eq_ok_iff.mpr ⟨false, s, namespacesOn_of_off hOff, ?_⟩
  rfl

theorem enterScope_of_off : enterScope name s = .ok () s :=
  bind_eq_ok_iff.mpr ⟨false, s, namespacesOn_of_off hOff, rfl⟩

theorem settleRole_of_off {role : AttributeRole} : settleRole role name s = .ok role s := by
  unfold settleRole
  refine bind_eq_ok_iff.mpr ⟨false, s, namespacesOn_of_off hOff, ?_⟩
  rw [Bool.and_false]
  rfl

theorem noteAttribute_of_off {role : AttributeRole} : noteAttribute role name s = .ok () s :=
  bind_eq_ok_iff.mpr ⟨false, s, namespacesOn_of_off hOff, rfl⟩

theorem bindValue_of_off {role : AttributeRole} {value : Span} : bindValue role value s = .ok () s := by
  unfold bindValue
  refine bind_eq_ok_iff.mpr ⟨false, s, namespacesOn_of_off hOff, ?_⟩
  rw [Bool.and_false]
  rfl

theorem closeScope_of_off : closeScope s = .ok () s := by
  rw [closeScope, hOff]
  rfl

end

theorem openElement_eq_ok_iff : openElement name s = .ok u s' ↔
    s.openTags.length ≤ Token.maxDepth ∧ s' = s.push name := by
  simp only [openElement, bind_eq_ok_iff, look_eq_ok_iff, requireAt_eq_ok_iff, update_eq_ok_iff,
    decide_eq_true_eq]
  constructor
  · rintro ⟨_, _, ⟨rfl, rfl⟩, _, _, ⟨hDepth, rfl⟩, rfl⟩
    exact ⟨hDepth, rfl⟩
  · rintro ⟨hDepth, rfl⟩
    exact ⟨_, _, ⟨rfl, rfl⟩, (), _, ⟨hDepth, rfl⟩, rfl⟩

theorem read_nameRest_eq_ok_iff {first ch : CodePoint} (hReads : s.cursor.Reads [first])
    (hFirst : CodePoint.isNameStart first = true) :
    read (Scan.nameRest s.cursor.offset) (s.past [first]) = .ok (ch, name) s' ↔
      ∃ text, s.cursor.Reads (text ++ [ch]) ∧ IsName text ∧ CodePoint.isName ch = false ∧
        name = Scan.nameAt s.cursor.encoding s.cursor.offset text ∧ s' = s.past (text ++ [ch]) := by
  simp only [read_eq_ok_iff, Lexer.cursor_past, Scan.nameRest_eq_ok_iff hReads hFirst]
  constructor
  · rintro ⟨_, ⟨text, hText, hName, hLast, rfl, rfl⟩, rfl⟩
    exact ⟨text, hText, hName, hLast, rfl, rfl⟩
  · rintro ⟨text, hText, hName, hLast, rfl, rfl⟩
    exact ⟨_, ⟨text, hText, hName, hLast, rfl, rfl⟩, rfl⟩

/-- A start tag up to the character after its name. -/
theorem startTag_eq_ok_iff {first : CodePoint} {phase : Phase} (hOff : s.namespaces = false)
    (hReads : s.cursor.Reads [first]) (hFirst : CodePoint.isNameStart first = true) :
    startTag s.cursor.offset (s.past [first]) = .ok phase s' ↔
      ∃ text ch, s.cursor.Reads (text ++ [ch]) ∧ IsName text ∧ CodePoint.isName ch = false ∧
        s.openTags.length ≤ Token.maxDepth ∧ NameFits s.cursor.encoding text ∧
          tagRest ch ((s.opened text).past [ch]) = .ok phase s' := by
  have hTail : ∀ text ch name, name = Scan.nameAt s.cursor.encoding s.cursor.offset text → ((do
      checkElementPrefix name
      openElement name
      emitElement name
      enterScope name
      tagRest ch) (s.past (text ++ [ch])) = .ok phase s' ↔
      s.openTags.length ≤ Token.maxDepth ∧ NameFits s.cursor.encoding text ∧
        tagRest ch ((s.opened text).past [ch]) = .ok phase s') := by
    rintro text ch _ rfl
    have hOffPast : (s.past (text ++ [ch])).namespaces = false := hOff
    have hState : (s.opened text).past [ch] =
        ((s.past (text ++ [ch])).push (Scan.nameAt s.cursor.encoding s.cursor.offset text)).addElement
          s.cursor.encoding s.openTags.length s.cursor.offset text := by
      rw [Lexer.past_append]
      rfl
    have hEncoding : ((s.past (text ++ [ch])).push
        (Scan.nameAt s.cursor.encoding s.cursor.offset text)).cursor.encoding = s.cursor.encoding :=
      Cursor.encoding_advance
    rw [bind_of_ok (checkElementPrefix_of_off hOffPast), hState]
    simp only [bind_eq_ok_iff, openElement_eq_ok_iff]
    constructor
    · rintro ⟨_, _, ⟨hDepth, rfl⟩, _, _, hEmit, _, _, hEnter, hRest⟩
      obtain ⟨hFits, rfl⟩ := (emitElement_eq_ok_iff hEncoding Lexer.depth_push).mp hEmit
      cases hEnter.symm.trans (enterScope_of_off hOffPast)
      exact ⟨hDepth, hFits, hRest⟩
    · rintro ⟨hDepth, hFits, hRest⟩
      exact ⟨(), _, ⟨hDepth, rfl⟩, (), _,
        (emitElement_eq_ok_iff hEncoding Lexer.depth_push).mpr ⟨hFits, rfl⟩, (), _,
        enterScope_of_off hOffPast, hRest⟩
  rw [startTag, bind_eq_ok_iff]
  constructor
  · rintro ⟨⟨ch, _⟩, _, hRead, hOk⟩
    obtain ⟨text, hText, hName, hLast, rfl, rfl⟩ := (read_nameRest_eq_ok_iff hReads hFirst).mp hRead
    exact ⟨text, ch, hText, hName, hLast, (hTail text ch _ rfl).mp hOk⟩
  · rintro ⟨text, ch, hText, hName, hLast, hOk⟩
    exact ⟨(ch, _), _, (read_nameRest_eq_ok_iff hReads hFirst).mpr ⟨text, hText, hName, hLast, rfl, rfl⟩,
      (hTail text ch _ rfl).mpr hOk⟩

theorem read_openAttribute_eq_ok_iff {ch quote : CodePoint} (hReads : s.cursor.Reads [ch]) :
    read (Scan.openAttribute ch) (s.past [ch]) = .ok quote s' ↔ ∃ before after,
      s.cursor.Reads (before ++ CodePoint.equals :: (after ++ [quote])) ∧ IsSpace before ∧
        IsSpace after ∧ (quote = CodePoint.doubleQuote ∨ quote = CodePoint.singleQuote) ∧
          s' = s.past (before ++ CodePoint.equals :: (after ++ [quote])) := by
  simp only [read_eq_ok_iff, Lexer.cursor_past, Scan.openAttribute_eq_ok_iff hReads]
  constructor
  · rintro ⟨_, ⟨before, after, hLead, hBefore, hAfter, hQuote, rfl⟩, rfl⟩
    exact ⟨before, after, hLead, hBefore, hAfter, hQuote, rfl⟩
  · rintro ⟨before, after, hLead, hBefore, hAfter, hQuote, rfl⟩
    exact ⟨_, ⟨before, after, hLead, hBefore, hAfter, hQuote, rfl⟩, rfl⟩

theorem read_attributeValue_eq_ok_iff {quote : CodePoint}
    (hQuote : quote = CodePoint.doubleQuote ∨ quote = CodePoint.singleQuote) :
    read (Scan.attributeValue quote) s = .ok u s' ↔ ∃ value, s.cursor.Reads (value ++ [quote]) ∧
      Escaped (isValueChar quote) value ∧ s' = s.past (value ++ [quote]) := by
  simp only [read_eq_ok_iff, Scan.attributeValue_eq_ok_iff hQuote]
  constructor
  · rintro ⟨_, ⟨value, hText, hValue, rfl⟩, rfl⟩
    exact ⟨value, hText, hValue, rfl⟩
  · rintro ⟨value, hText, hValue, rfl⟩
    exact ⟨_, ⟨value, hText, hValue, rfl⟩, rfl⟩

/-- A value with its equals sign, from the character after the name on. -/
theorem attributeValue_eq_ok_iff {ch : CodePoint} {value : Span} (hReads : s.cursor.Reads [ch]) :
    attributeValue ch (s.past [ch]) = .ok value s' ↔
      ∃ b : Binding, b.WellFormed ∧ Escaped (isValueChar b.quote) b.value ∧ s.cursor.Reads b.text ∧
        value = ⟨s.cursor.offset + s.cursor.encoding.size b.lead, s.cursor.encoding.size b.value⟩ ∧
          s' = s.past b.text := by
  have hSpan : ∀ b : Binding, (⟨(s.past b.lead).cursor.offset,
      ((s.past b.lead).past (b.value ++ [b.quote])).cursor.last - (s.past b.lead).cursor.offset⟩ : Span) =
        ⟨s.cursor.offset + s.cursor.encoding.size b.lead, s.cursor.encoding.size b.value⟩ := by
    simp
  simp only [attributeValue, bind_eq_ok_iff, read_offset_eq_ok_iff, read_last_eq_ok_iff, pure_eq_ok_iff,
    read_openAttribute_eq_ok_iff hReads]
  constructor
  · rintro ⟨quote, _, ⟨before, after, hLead, hBefore, hAfter, hQuote, rfl⟩, _, _, ⟨rfl, rfl⟩, _, _, hRead,
      _, _, ⟨rfl, rfl⟩, rfl, rfl⟩
    obtain ⟨value, hText, hValue, rfl⟩ := (read_attributeValue_eq_ok_iff hQuote).mp hRead
    exact ⟨⟨before, after, quote, value⟩, ⟨hBefore, hAfter, hQuote⟩, hValue,
      Cursor.reads_append.mpr ⟨hLead, hText⟩, hSpan ⟨before, after, quote, value⟩,
      Lexer.past_append.symm⟩
  · rintro ⟨b, hWell, hValue, hText, rfl, rfl⟩
    obtain ⟨hLead, hText⟩ := Cursor.reads_append.mp hText
    exact ⟨b.quote, _, ⟨b.before, b.after, hLead, hWell.before, hWell.after, hWell.quote, rfl⟩, _, _,
      ⟨rfl, rfl⟩, (), _, (read_attributeValue_eq_ok_iff hWell.quote).mpr ⟨b.value, hText, hValue, rfl⟩, _, _,
      ⟨rfl, rfl⟩, (hSpan b).symm, Lexer.past_append⟩

theorem addAttribute_eq_ok_iff {own : Chars} {seen : List Chars} (hSeen : s.Seen seen)
    (hName : s.cursor.Covers name.span own) (hNonempty : own ≠ []) :
    addAttribute name s = .ok u s' ↔ own ∉ seen ∧ s' = s.see name := by
  have hKnown : ∀ (spans : List Span) (seen : List Chars), List.Forall₂ s.cursor.Covers spans seen →
      ((spans.any fun other => Namespace.sameText s.cursor.doc other.offset other.length name.offset
        name.length) = true ↔ own ∈ seen) := by
    intro spans seen hCovers
    induction hCovers with
    | nil => simp
    | cons hFirst _ ih =>
      rw [List.any_cons, Bool.or_eq_true, ih, List.mem_cons, @eq_comm _ own]
      exact or_congr_left (Cursor.sameText_iff hFirst hName hNonempty)
  simp only [addAttribute, bind_eq_ok_iff, look_eq_ok_iff, requireAt_eq_ok_iff, update_eq_ok_iff]
  constructor
  · rintro ⟨_, _, ⟨rfl, rfl⟩, _, _, ⟨hNew, rfl⟩, rfl⟩
    refine ⟨fun h => ?_, rfl⟩
    rw [(hKnown _ _ hSeen).mpr h] at hNew
    cases hNew
  · rintro ⟨hNew, rfl⟩
    refine ⟨_, _, ⟨rfl, rfl⟩, (), _, ⟨?_, rfl⟩, rfl⟩
    rw [Bool.not_eq_true', Bool.eq_false_iff]
    exact fun h => hNew ((hKnown _ _ hSeen).mp h)

/-- What follows a name up to its value tells that the name has ended. -/
theorem exists_text_eq_cons {b : Binding} (hWell : b.WellFormed) : ∃ ch rest, b.text = ch :: rest ∧
    CodePoint.isName ch = false ∧ (ch = CodePoint.equals ∨ CodePoint.isSpace ch = true) := by
  obtain ⟨before, after, quote, value⟩ := b
  cases before with
  | nil => exact ⟨CodePoint.equals, _, rfl, by decide, .inl rfl⟩
  | cons ch before =>
    have hSpace := hWell.before ch List.mem_cons_self
    exact ⟨ch, _, rfl, CodePoint.isName_of_isSpace hSpace, .inr hSpace⟩

theorem kind_eq {own : Chars} {ch : CodePoint}
    (hLast : ch = CodePoint.equals ∨ CodePoint.isSpace ch = true) :
    (if (Scan.roleOf own ch).declares then TokenKind.namespaceName else .attributeName) =
      attributeKind own := by
  have hDeclared : Scan.declaredRole ch = .defaultNamespace := by
    rw [Scan.declaredRole, if_pos]
    rcases hLast with rfl | hSpace
    · rfl
    · rw [hSpace, Bool.or_true]
  rw [Scan.roleOf, attributeKind, declaresNamespace]
  by_cases hPlain : own = CodePoint.ofText "xmlns"
  · rw [if_pos hPlain, hDeclared, beq_iff_eq.mpr hPlain]
    rfl
  · rw [if_neg hPlain, beq_eq_false_iff_ne.mpr hPlain, Bool.false_or]
    simp only [List.isPrefixOf_iff_prefix]
    split <;> rfl

theorem read_attributeName_eq_ok_iff {first ch : CodePoint} {role : AttributeRole}
    (hReads : s.cursor.Reads [first]) (hFirst : CodePoint.isNameStart first = true) :
    (∃ d s₁, read (Scan.attributeRole first) (s.past [first]) = .ok (d, role) s₁ ∧
        read (Scan.nameFrom s.cursor.offset d) s₁ = .ok (ch, name) s') ↔
      ∃ own, s.cursor.Reads (own ++ [ch]) ∧ IsName own ∧ CodePoint.isName ch = false ∧
        role = Scan.roleOf own ch ∧ name = Scan.nameAt s.cursor.encoding s.cursor.offset own ∧
          s' = s.past (own ++ [ch]) := by
  constructor
  · rintro ⟨d, _, hReadRole, hReadName⟩
    obtain ⟨c₁, hRole, rfl⟩ := read_eq_ok_iff.mp hReadRole
    obtain ⟨_, hName, rfl⟩ := read_eq_ok_iff.mp hReadName
    obtain ⟨own, hText, hOwn, hLast, rfl, rfl, rfl⟩ :=
      (Scan.attributeName_eq_ok_iff hReads hFirst).mp ⟨d, c₁, hRole, hName⟩
    exact ⟨own, hText, hOwn, hLast, rfl, rfl, rfl⟩
  · rintro ⟨own, hText, hOwn, hLast, hRole, hName, rfl⟩
    obtain ⟨d, c₁, hRole, hName⟩ := (Scan.attributeName_eq_ok_iff hReads hFirst).mpr
      ⟨own, hText, hOwn, hLast, hRole, hName, rfl⟩
    exact ⟨d, _, read_eq_ok_iff.mpr ⟨c₁, hRole, rfl⟩, read_eq_ok_iff.mpr ⟨_, hName, rfl⟩⟩

def kindOf (role : AttributeRole) : TokenKind :=
  if role.declares then .namespaceName else .attributeName

def readName (place : Nat) (first : CodePoint) : Lex (CodePoint × AttributeRole) := do
  let (ch, role) ← read (Scan.attributeRole first)
  let (ch, name) ← read (Scan.nameFrom place ch)
  let role ← settleRole role name
  addAttribute name
  emitName (kindOf role) name
  noteAttribute role name
  return (ch, role)

def readValue (role : AttributeRole) (ch : CodePoint) : Lex CodePoint := do
  let value ← attributeValue ch
  bindValue role value
  emitBounded .attributeValue value
  read Scan.next

theorem readAttribute_eq {place : Nat} {first : CodePoint} : readAttribute place first = (do
    let (ch, role) ← readName place first
    let next ← readValue role ch
    tagRest next) := by
  simp only [readAttribute, readName, readValue, kindOf, bind_assoc, pure_bind]

theorem readName_eq_ok_iff {first ch : CodePoint} {role : AttributeRole} {seen : List Chars}
    (hOff : s.namespaces = false) (hSeen : s.Seen seen) (hReads : s.cursor.Reads [first])
    (hFirst : CodePoint.isNameStart first = true) :
    readName s.cursor.offset first (s.past [first]) = .ok (ch, role) s' ↔
      ∃ own, s.cursor.Reads (own ++ [ch]) ∧ IsName own ∧ CodePoint.isName ch = false ∧
        role = Scan.roleOf own ch ∧ own ∉ seen ∧ NameFits s.cursor.encoding own ∧
          s' = (s.named (kindOf role) own).past [ch] := by
  have hCovers : ∀ {own : Chars} {ch : CodePoint}, s.cursor.Reads (own ++ [ch]) →
      (s.past (own ++ [ch])).cursor.Covers (Scan.nameAt s.cursor.encoding s.cursor.offset own).span own :=
    fun hText => (Scan.covers_nameAt (Cursor.reads_append.mp hText).1).congr Cursor.doc_advance
      Cursor.stop_advance Cursor.encoding_advance
  have hNonempty : ∀ {own : Chars}, IsName own → own ≠ [] := by
    rintro _ hOwn rfl
    exact hOwn
  have hState : ∀ own kind, ((s.past (own ++ [ch])).see (Scan.nameAt s.cursor.encoding s.cursor.offset own)).add
      [nameToken s.cursor.encoding kind s.depth s.cursor.offset own] = (s.named kind own).past [ch] := by
    intro own kind
    rw [Lexer.past_append]
    rfl
  simp only [readName, bind_eq_ok_iff, pure_eq_ok_iff]
  constructor
  · rintro ⟨⟨d, _⟩, s₁, hRole, ⟨_, _⟩, _, hName, _, _, hSettle, _, _, hAdd, _, _, hEmit, _, _, hNote, hSame, rfl⟩
    cases hSame
    obtain ⟨own, hText, hOwn, hLast, rfl, rfl, rfl⟩ :=
      (read_attributeName_eq_ok_iff hReads hFirst).mp ⟨d, s₁, hRole, hName⟩
    cases hSettle.symm.trans (settleRole_of_off (by exact hOff))
    obtain ⟨hNew, rfl⟩ := (addAttribute_eq_ok_iff hSeen.past (hCovers hText) (hNonempty hOwn)).mp hAdd
    obtain ⟨hFits, rfl⟩ := (emitName_eq_ok_iff Cursor.encoding_advance).mp hEmit
    cases hNote.symm.trans (noteAttribute_of_off (by exact hOff))
    exact ⟨own, hText, hOwn, hLast, rfl, hNew, hFits, hState own _⟩
  · rintro ⟨own, hText, hOwn, hLast, rfl, hNew, hFits, rfl⟩
    obtain ⟨d, s₁, hRole, hName⟩ := (read_attributeName_eq_ok_iff hReads hFirst).mpr
      ⟨own, hText, hOwn, hLast, rfl, rfl, rfl⟩
    exact ⟨(d, _), s₁, hRole, (ch, _), _, hName, _, _, settleRole_of_off (by exact hOff), (), _,
      (addAttribute_eq_ok_iff hSeen.past (hCovers hText) (hNonempty hOwn)).mpr ⟨hNew, rfl⟩, (), _,
      (emitName_eq_ok_iff Cursor.encoding_advance).mpr ⟨hFits, rfl⟩, (), _,
      noteAttribute_of_off (by exact hOff), rfl, (hState own _).symm⟩

theorem readValue_eq_ok_iff {role : AttributeRole} {ch next : CodePoint} (hOff : s.namespaces = false)
    (hReads : s.cursor.Reads [ch]) :
    readValue role ch (s.past [ch]) = .ok next s' ↔
      ∃ b : Binding, b.WellFormed ∧ Escaped (isValueChar b.quote) b.value ∧
        TextFits s.cursor.encoding b.value ∧ s.cursor.Reads (b.text ++ [next]) ∧
          s' = (s.valued b).past [next] := by
  have hState : ∀ b : Binding, (s.past b.text).add [token (s.past b.text).cursor.encoding .attributeValue
      (s.past b.text).depth (s.cursor.offset + s.cursor.encoding.size b.lead)
        (s.cursor.encoding.size b.value)] = s.valued b := by
    intro b
    rw [Lexer.cursor_past, Cursor.encoding_advance]
    rfl
  simp only [readValue, bind_eq_ok_iff, attributeValue_eq_ok_iff hReads, emitBounded_eq_ok_iff,
    read_next_eq_ok_iff, Cursor.reads_append]
  constructor
  · rintro ⟨_, _, ⟨b, hWell, hValue, hText, rfl, rfl⟩, _, _, hBind, _, _, ⟨hFits, rfl⟩, hNext, rfl⟩
    cases hBind.symm.trans (bindValue_of_off (by exact hOff))
    rw [hState]
    rw [Lexer.cursor_past, Cursor.encoding_advance] at hFits
    exact ⟨b, hWell, hValue, hFits, ⟨hText, hNext⟩, rfl⟩
  · rintro ⟨b, hWell, hValue, hFits, ⟨hText, hNext⟩, rfl⟩
    refine ⟨_, _, ⟨b, hWell, hValue, hText, rfl, rfl⟩, (), _, bindValue_of_off (by exact hOff), (), _,
      ⟨?_, rfl⟩, hNext, ?_⟩
    · rw [Lexer.cursor_past, Cursor.encoding_advance]
      exact hFits
    · rw [hState]

/-- An attribute up to the character after its value. -/
theorem readAttribute_eq_ok_iff {first : CodePoint} {phase : Phase} {seen : List Chars}
    (hOff : s.namespaces = false) (hSeen : s.Seen seen) (hReads : s.cursor.Reads [first])
    (hFirst : CodePoint.isNameStart first = true) :
    readAttribute s.cursor.offset first (s.past [first]) = .ok phase s' ↔
      ∃ own b next, s.cursor.Reads (own ++ (b.text ++ [next])) ∧ IsName own ∧ own ∉ seen ∧
        NameFits s.cursor.encoding own ∧ b.WellFormed ∧ Escaped (isValueChar b.quote) b.value ∧
          TextFits s.cursor.encoding b.value ∧
            tagRest next (((s.named (attributeKind own) own).valued b).past [next]) = .ok phase s' := by
  have hEncoding : ∀ kind own, (s.named kind own).cursor.encoding = s.cursor.encoding :=
    fun _ _ => Cursor.encoding_advance
  simp only [readAttribute_eq, bind_eq_ok_iff]
  constructor
  · rintro ⟨⟨ch, role⟩, _, hName, next, _, hValue, hRest⟩
    obtain ⟨own, hText, hOwn, -, rfl, hNew, hFits, rfl⟩ :=
      (readName_eq_ok_iff hOff hSeen hReads hFirst).mp hName
    obtain ⟨hOwnText, hLast⟩ := Cursor.reads_append.mp hText
    obtain ⟨b, hWell, hEscaped, hValueFits, hAll, rfl⟩ :=
      (readValue_eq_ok_iff (by exact hOff) (by exact hLast)).mp hValue
    obtain ⟨c, rest, hHead, -, hEnds⟩ := exists_text_eq_cons hWell
    have hBinding := (Cursor.reads_append.mp hAll).1
    rw [hHead] at hBinding
    obtain rfl := hLast.head_eq hBinding
    rw [show kindOf (Scan.roleOf own c) = attributeKind own from kind_eq hEnds] at hRest hAll hValueFits
    rw [hEncoding] at hValueFits
    exact ⟨own, b, next, Cursor.reads_append.mpr ⟨hOwnText, hAll⟩, hOwn, hNew, hFits, hWell, hEscaped,
      hValueFits, hRest⟩
  · rintro ⟨own, b, next, hText, hOwn, hNew, hFits, hWell, hEscaped, hValueFits, hRest⟩
    obtain ⟨hText, hAll⟩ := Cursor.reads_append.mp hText
    obtain ⟨c, rest, hHead, hLast, hEnds⟩ := exists_text_eq_cons hWell
    have hBinding := (Cursor.reads_append.mp hAll).1
    rw [hHead, Cursor.reads_cons] at hBinding
    rw [← show kindOf (Scan.roleOf own c) = attributeKind own from kind_eq hEnds] at hRest
    refine ⟨(c, _), _, (readName_eq_ok_iff hOff hSeen hReads hFirst).mpr ⟨own,
      Cursor.reads_append.mpr ⟨hText, hBinding.1⟩, hOwn, hLast, rfl, hNew, hFits, rfl⟩, next, _,
      (readValue_eq_ok_iff (by exact hOff) (by exact hBinding.1)).mpr ⟨b, hWell, hEscaped, ?_, hAll, rfl⟩, hRest⟩
    rw [hEncoding]
    exact hValueFits

end Lex
end XmlIndex
