import XmlIndex.Proofs.Grammar.QualifiedNames
import XmlIndex.Proofs.Parse.Scoping

/-! # The names that namespaces admit

With namespaces on, prefixes are looked up, and so a name has one colon at most. But prefixes and local parts are never
tested for being names in their own right.
-/
namespace XmlIndex
set_option autoImplicit false
open Grammar

section
variable {options : Options} {doc : ByteArray} {offset length : Nat} {x : Index}

/-- A range that is parsed with namespaces holds a qualified document, whose tokens are recorded after those of its
opening. -/
theorem exists_qualified_of_parseRange (hOk : parseRange options true doc offset length = .ok x) :
    ∃ (d : Document) (before : List Token), d.Tolerated ∧ d.Fits x.encoding ∧
      (x.encoding.charactersOf doc offset length).1 = d.text ∧
      x.tokens.toList = before ++ d.bodyTokens x.encoding options.recordWhitespace
        (contentStart doc offset length + x.encoding.size (d.opening.text ++ [CodePoint.lessThan])) ∧
      d.root.Qualified := by
  obtain ⟨detected, -, hDetectOn, -, -⟩ := exists_run_of_parseRange hOk
  obtain ⟨other, s, hDetect, hRun, hIndex⟩ := exists_run_of_parseRange (parseRange_of_namespaces hOk)
  obtain rfl : detected = other := Except.ok.inj ((detect_of_namespaces hDetectOn).symm.trans hDetect)
  obtain ⟨d, t, place, hTolerated, hFits, hStart, hReaches, hReads, hEnds, hReading⟩ :=
    Lex.exists_body_of_completes rfl rfl rfl ⟨s, hRun, rfl⟩
  obtain ⟨-, tokens, hState, -⟩ := hReaches.reads_again
  have hEncoding : x.encoding = t.cursor.encoding :=
    (congrArg Index.encoding hIndex).trans (congrArg Reading.encoding hReading)
  have hTokens : x.tokens.toList = t.tokens ++ d.bodyTokens t.cursor.encoding t.recordWhitespace t.cursor.offset :=
    (congrArg (·.tokens.toList) hIndex).trans (congrArg Reading.tokens hReading)
  have hRecord : t.recordWhitespace = options.recordWhitespace := by
    rw [hState]
    rfl
  have hFirst : contentStart doc offset length = offset + detected.mark.size := by
    rw [contentStart, ByteOrderMark.ofHead_eq (detect_eq_ok_iff.mp hDetect).2.1]
  obtain ⟨hWhole, hWholeEnds⟩ := Lex.reads_document_of_reaches hReaches hReads hEnds
  rw [hRecord, hReaches.offset_eq, ← hEncoding] at hTokens
  rw [← hEncoding] at hWhole hWholeEnds
  refine ⟨d, t.tokens, hTolerated, hEncoding ▸ hFits, congrArg Prod.fst (charactersOf_of_reads ?_ ?_), ?_, ?_⟩
  · rw [hFirst]
    exact hWhole
  · rw [hFirst]
    exact hWholeEnds
  · rw [hFirst]
    exact hTokens
  · have hSucceeds := (exists_parseRange_iff (le_size_of_parseRange hOk) hDetectOn).mp ⟨x, hOk⟩
    exact (Lex.succeeds_start_iff hDetectOn hStart hTolerated.2 hFits hReads hEnds).mp hSucceeds

/-- In a document that is parsed with namespaces each name of an element, and of an attribute that declares nothing, has
one colon at most, before which stands nothing or a name without colons that is declared, or `xml`. A prefix is declared
as what follows the last colon of its declaration: that is what the lexer records when it reads the attribute. -/
theorem names_of_parseRange (hOk : parseRange options true doc offset length = .ok x) :
    ∃ (d : Document) (before : List Token), d.Tolerated ∧
      (x.encoding.charactersOf doc offset length).1 = d.text ∧
      x.tokens.toList = before ++ d.bodyTokens x.encoding options.recordWhitespace
        (contentStart doc offset length + x.encoding.size (d.opening.text ++ [CodePoint.lessThan])) ∧
      d.root.Qualified ∧ ∀ t ∈ d.root.tags, t.NamesLoose ∧ ∀ a ∈ t.attributes, Lex.Declares x.encoding a := by
  obtain ⟨d, before, hTolerated, hFits, hText, hTokens, hQualified⟩ := exists_qualified_of_parseRange hOk
  refine ⟨d, before, hTolerated, hText, hTokens, hQualified, fun t ht => ?_⟩
  obtain ⟨outer, hColonFree, hTag⟩ := hQualified.of_mem_tags t ht
  have hWell := hTolerated.2.root.of_mem_tags t ht
  have hTagFits := hFits.root.of_mem_tags t ht
  exact ⟨hTag.namesLoose hColonFree hWell, fun a ha =>
    Lex.declares_of_declaresWell (hWell.attributes a ha) (hTagFits.attributes a ha) (hTag.declaresWell a ha)⟩

end

/-- `<:a xmlns:p='u' xmlns:q:r='v' p:='' p:1=''/>` -/
def looseTag : ByteArray :=
  ⟨#[0x3C, 0x3A, 0x61, 0x20, 0x78, 0x6D, 0x6C, 0x6E, 0x73, 0x3A, 0x70, 0x3D, 0x27, 0x75, 0x27, 0x20, 0x78, 0x6D, 0x6C,
    0x6E, 0x73, 0x3A, 0x71, 0x3A, 0x72, 0x3D, 0x27, 0x76, 0x27, 0x20, 0x70, 0x3A, 0x3D, 0x27, 0x27, 0x20, 0x70, 0x3A,
    0x31, 0x3D, 0x27, 0x27, 0x2F, 0x3E]⟩

def looseTagIndex : Index where
  buffer := looseTag
  docOffset := 0
  docLength := 44
  encoding := .utf8
  namespaces := true
  maxDepth := 0
  root := some 1
  tokens := #[⟨.document, -1, 0, 0⟩, ⟨.startTag, 0, 1, 2⟩, ⟨.namespaceName, 0, 4, 10247⟩, ⟨.attributeValue, 0, 13, 1⟩,
    ⟨.namespaceName, 0, 16, 14345⟩, ⟨.attributeValue, 0, 27, 1⟩, ⟨.attributeName, 0, 30, 2050⟩,
    ⟨.attributeValue, 0, 34, 0⟩, ⟨.attributeName, 0, 36, 2051⟩, ⟨.attributeValue, 0, 41, 0⟩]
  cache := ⟨#[#[], #[]], #[]⟩

theorem parseRange_looseTag : parseRange {} true looseTag 0 44 = .ok looseTagIndex :=
  @parseRange_of_runWithin _ _ _ _ _ 7 ⟨.utf8, .none⟩ _ (by decide) rfl (by decide +kernel)

theorem names_of_looseTag : parseRange {} true looseTag 0 44 = .ok looseTagIndex ∧
    ∃ (d : Document) (before : List Token), d.Tolerated ∧
      (looseTagIndex.encoding.charactersOf looseTag 0 44).1 = d.text ∧
      looseTagIndex.tokens.toList = before ++ d.bodyTokens looseTagIndex.encoding ({} : Options).recordWhitespace
        (contentStart looseTag 0 44 + looseTagIndex.encoding.size (d.opening.text ++ [CodePoint.lessThan])) ∧
      d.root.Qualified ∧
        ∀ t ∈ d.root.tags, t.NamesLoose ∧ ∀ a ∈ t.attributes, Lex.Declares looseTagIndex.encoding a :=
  ⟨parseRange_looseTag, names_of_parseRange parseRange_looseTag⟩

namespace Grammar

def Attribute.quoted (name value : String) : Attribute :=
  ⟨[0x20], CodePoint.ofText name, ⟨[], [], CodePoint.singleQuote, CodePoint.ofText value⟩⟩

def looseNames : Document where
  opening := .blank []
  prolog := []
  root := ⟨⟨CodePoint.ofText ":a", [.quoted "xmlns:p" "u", .quoted "xmlns:q:r" "v", .quoted "p:" "", .quoted "p:1" ""], []⟩,
    none⟩
  epilog := ⟨[], []⟩

theorem looseNames_wellFormed : looseNames.WellFormed := by
  have hSpace : IsSpace [0x20] := by
    unfold IsSpace
    decide
  have hAttribute {name value : String} (hName : IsName (CodePoint.ofText name))
      (hValue : Escaped (isValueChar CodePoint.singleQuote) (CodePoint.ofText value)) :
      (Attribute.quoted name value).WellFormed :=
    ⟨⟨List.cons_ne_nil _ _, hSpace, ⟨nofun, nofun, .inr rfl⟩⟩, hName, hValue⟩
  refine ⟨nofun, ⟨⟨nofun, by decide⟩, ⟨⟨by decide, ?_, by decide, nofun⟩, nofun⟩, ⟨nofun, nofun⟩⟩⟩
  refine List.forall_mem_cons.mpr ⟨hAttribute (by decide) (.char (by decide) .nil), ?_⟩
  refine List.forall_mem_cons.mpr ⟨hAttribute (by decide) (.char (by decide) .nil), ?_⟩
  refine List.forall_mem_cons.mpr ⟨hAttribute (by decide) .nil, ?_⟩
  exact List.forall_mem_cons.mpr ⟨hAttribute (by decide) .nil, nofun⟩

end Grammar

/-- Names that are parsed with namespaces and are not qualified names: nothing before the colon, two colons, nothing after
the colon, a digit after it. -/
theorem parses_looseNames : parseRange {} true looseTag 0 44 = .ok looseTagIndex ∧
    (looseTagIndex.encoding.charactersOf looseTag 0 44).1 = looseNames.text ∧ looseNames.WellFormed ∧
    looseNames.root.tag.names.filter (¬IsQName ·) =
      [CodePoint.ofText ":a", CodePoint.ofText "xmlns:q:r", CodePoint.ofText "p:", CodePoint.ofText "p:1"] :=
  ⟨parseRange_looseTag, by with_unfolding_all rfl, looseNames_wellFormed, by decide⟩

end XmlIndex
