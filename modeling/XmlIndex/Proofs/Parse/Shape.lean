import XmlIndex.Proofs.Lexer.Preamble
import XmlIndex.Proofs.Lexer.Transcripts
import XmlIndex.Proofs.Parse.Persistence
import XmlIndex.Proofs.Token.Shape

/-! # The shape of an index

Whatever range is parsed, its tokens have one shape, on which all that goes through an index relies. It
comes together from the outline of the tokens, from their layout along the text and from the draft that
they tell.
-/
namespace XmlIndex
set_option autoImplicit false
open Grammar

/-- The shape of the tokens of an index, where `before`, `between` and `after` are those around the tokens in
question. -/
structure Index.Shaped (x : Index) : Prop where
  document : ∃ rest, x.tokens.toList = .document :: rest ∧
    ∀ t ∈ rest, t.kind ≠ .document ∧ t.kind ≠ .endTag
  /-- The root is the only element of depth 0. Before it there is no element, and nothing has a depth; after
  its start tag there is neither a document type nor a declaration. -/
  root : ∃ (before after : List Token) (root : Token), x.tokens.toList = before ++ root :: after ∧
    x.root = some before.length ∧ root.kind = .startTag ∧ root.depth = 0 ∧
    (∀ t ∈ before, t.kind ≠ .startTag ∧ t.depth = -1) ∧
    (∀ t ∈ after, t.kind = .startTag → 1 ≤ t.depth ∧ t.depth ≤ Token.maxDepth) ∧
    ∀ t ∈ after, t.kind ≠ .doctype ∧ t.kind ≠ .declarationName ∧ t.kind ≠ .declarationValue
  /-- An element is at most one level deeper than the one before it. -/
  step {before between after : List Token} {tag t : Token} :
    x.tokens.toList = before ++ tag :: (between ++ t :: after) → tag.kind = .startTag → t.kind = .startTag →
      (∀ v ∈ between, v.kind ≠ .startTag) → t.depth ≤ tag.depth + 1
  /-- A name of an attribute, an instruction or a part of the declaration has its value right behind it. -/
  value {before after : List Token} {t : Token} {kind : TokenKind} :
    x.tokens.toList = before ++ t :: after → t.kind.value? = some kind →
      ∃ value rest, after = value :: rest ∧ value.kind = kind ∧ value.depth = t.depth
  /-- Between a start tag and the name of an attribute of it there are only other attributes. -/
  attributeName {before after : List Token} {t : Token} :
    x.tokens.toList = before ++ t :: after → t.kind.isAttributeName = true →
      ∃ earlier tag pairs, before = earlier ++ tag :: pairs ∧ tag.kind = .startTag ∧ tag.depth = t.depth ∧
        Token.AttributesAt t.depth pairs
  text {before after : List Token} {t : Token} :
    x.tokens.toList = before ++ t :: after → t.kind.isText = true →
      ∃ tag, Outline.IsLatest before tag ∧ 0 ≤ t.depth ∧ t.depth ≤ tag.depth
  doctype {before after : List Token} {t : Token} :
    x.tokens.toList = before ++ t :: after → t.kind = .doctype → ∀ v ∈ before, v.kind ≠ .doctype
  /-- From the first token outside the root that comes after it, only comments and instructions follow. -/
  epilog {before after : List Token} {tag t : Token} :
    x.tokens.toList = before ++ t :: after → tag ∈ before → tag.kind = .startTag → t.depth = -1 →
      ∀ v ∈ t :: after, v.kind.isMisc = true ∧ v.depth = -1
  maxDepth : (∀ t ∈ x.tokens.toList, t.kind = .startTag → t.depth ≤ (x.maxDepth : Int)) ∧
    ∃ t ∈ x.tokens.toList, t.kind = .startTag ∧ t.depth = (x.maxDepth : Int)
  /-- All tokens but the first come in the order of what they cover. -/
  order {before after : List Token} {t u : Token} :
    x.tokens.toList = before ++ t :: u :: after → before ≠ [] → t.offset + t.length ≤ u.offset
  /-- All tokens but the first lie within the document, which is counted in code units. -/
  within {before after : List Token} {t : Token} :
    x.tokens.toList = before ++ t :: after → before ≠ [] →
      LiesWithin (x.docOffset / x.encoding.unitSize) ((x.docOffset + x.docLength) / x.encoding.unitSize) t

/-- No element is deeper than the deepest, and one is as deep: the root if nothing else. -/
theorem Outlined.deepest {tokens : List Token} (hOutlined : Outlined tokens) :
    (∀ t ∈ tokens, t.kind = .startTag → t.depth ≤ (Token.deepest tokens : Int)) ∧
      ∃ t ∈ tokens, t.kind = .startTag ∧ t.depth = (Token.deepest tokens : Int) := by
  refine ⟨fun t ht hStart => ?_, ?_⟩
  · have hLe := Token.le_deepest ht hStart
    omega
  · rcases Token.exists_deepest tokens with hZero | ⟨t, ht, hStart, hDeepest⟩
    · obtain ⟨before, root, after, hSplit, hKind, hDepth, -⟩ := hOutlined.exists_root
      exact ⟨root, by simp [hSplit], hKind, by rw [hDepth, hZero]; rfl⟩
    · have hLeast := hOutlined.depth_nonneg ht hStart
      exact ⟨t, ht, hStart, by omega⟩

namespace Lex
variable {s : Lexer} {r : Reading}

/-- The tokens of a document that is completed go on as outlines before the root allow. -/
theorem exists_leads_of_completes (hOff : s.namespaces = false) (hOutside : s.openTags = [])
    (hDoctype : s.hasDoctype = false) (hCompletes : Completes (run .start) s r) :
    ∃ tokens, r.tokens = s.tokens ++ tokens ∧ Outline.Leads (Outline.Before false) tokens Outline.Beyond := by
  obtain ⟨d, t, place, hTolerated, hFits, hStart, -, -, -, rfl⟩ :=
    exists_body_of_completes hOff hOutside hDoctype hCompletes
  obtain ⟨-, opening, hOpening, hLeads⟩ := @leads_start false _ _ _ hOutside hStart
  have hTokens : t.tokens = s.tokens ++ opening := hOpening
  refine ⟨opening ++ d.bodyTokens t.cursor.encoding t.recordWhitespace t.cursor.offset, ?_,
    hLeads.append (d.leads_body hTolerated.2 hFits)⟩
  rw [hTokens, List.append_assoc]

end Lex

section
variable {options : Options} {namespaces : Bool} {doc : ByteArray} {offset length : Nat} {x : Index}

theorem outlined_of_parseRange (hOk : parseRange options namespaces doc offset length = .ok x) :
    Outlined x.tokens.toList := by
  obtain ⟨detected, s, -, hRun, hIndex⟩ := exists_run_of_parseRange (parseRange_of_namespaces hOk)
  have hTokens : x.tokens = s.draft.tokens := congrArg Index.tokens hIndex
  obtain ⟨tokens, hAll, hLeads⟩ := Lex.exists_leads_of_completes rfl rfl rfl ⟨s, hRun, rfl⟩
  have hStream : x.tokens.toList = .document :: tokens := by
    rw [hTokens]
    exact hAll
  rw [hStream]
  exact Outlined.of_leads hLeads

/-- The cache, the root and the greatest depth follow from the tokens. -/
theorem told_of_parseRange (hOk : parseRange options namespaces doc offset length = .ok x) :
    x.cache = (Draft.ofTokens (options.cacheDepth.levels length) x.tokens.toList).finish.cache ∧
      x.root = (Draft.ofTokens (options.cacheDepth.levels length) x.tokens.toList).root ∧
      x.maxDepth = Token.deepest x.tokens.toList := by
  obtain ⟨detected, s, -, hRun, rfl⟩ := exists_run_of_parseRange hOk
  have hTold : s.Told (options.cacheDepth.levels length) := Lex.keeps_run .start _ _ _ Lexer.told_atStart hRun
  have hRoot : s.draft.root = _ := congrArg Draft.root hTold.draft
  exact ⟨congrArg (·.finish.cache) hTold.draft, hRoot, hTold.maxDepth⟩

/-- After the document token come tokens in order, within the range. -/
theorem exists_ordered_of_parseRange (hOk : parseRange options namespaces doc offset length = .ok x) :
    ∃ rest, x.tokens.toList = .document :: rest ∧ rest.Pairwise (fun t u => t.offset + t.length ≤ u.offset) ∧
      ∀ t ∈ rest, LiesWithin (offset / x.encoding.unitSize) ((offset + length) / x.encoding.unitSize) t := by
  obtain ⟨d, rest, hTolerated, hReads, -, hTokens, hLayout⟩ := exists_layout_of_parseRange hOk
  obtain ⟨ch, next, more, hText, -⟩ := Document.exists_head hTolerated
  have hRoom : contentStart doc offset length + x.encoding.size d.text ≤ offset + length :=
    hReads.le_stop (hText ▸ List.cons_ne_nil ch _)
  refine ⟨rest, hTokens, hLayout.pairwise, fun t ht => (hLayout.liesWithin t ht).mono ?_ ?_⟩
  · exact Nat.div_le_div_right (Nat.le_add_right _ _)
  · exact Nat.div_le_div_right hRoom

/-- Every range that is parsed has tokens of the same shape. -/
theorem shaped_of_parseRange (hOk : parseRange options namespaces doc offset length = .ok x) : x.Shaped := by
  have hOutlined := outlined_of_parseRange hOk
  obtain ⟨-, hRoot, hMaxDepth⟩ := told_of_parseRange hOk
  obtain ⟨-, hDocOffset, hDocLength⟩ := range_of_parseRange hOk
  obtain ⟨rest, hTokens, hOrder, hWithin⟩ := exists_ordered_of_parseRange hOk
  have hRest {before after : List Token} {t : Token} (hSplit : x.tokens.toList = before ++ t :: after)
      (hBefore : before ≠ []) : ∃ sooner, before = .document :: sooner ∧ rest = sooner ++ t :: after := by
    cases before with
    | nil => exact (hBefore rfl).elim
    | cons first sooner =>
      obtain ⟨rfl, hSame⟩ := List.cons.inj (hTokens.symm.trans hSplit)
      exact ⟨sooner, rfl, hSame⟩
  exact
    { document := by
        refine ⟨rest, hTokens, fun t ht => ⟨?_, hOutlined.kind_ne_endTag (hTokens ▸ List.mem_cons_of_mem _ ht)⟩⟩
        obtain ⟨before, after, rfl⟩ := List.append_of_mem ht
        have hHere : x.tokens.toList = (.document :: before) ++ t :: after := hTokens
        exact hOutlined.kind_ne_document hHere (by simp)
      root := by
        obtain ⟨before, root, after, hSplit, hKind, hDepth, hFirst, hAfter⟩ := hOutlined.exists_root
        refine ⟨before, after, root, hSplit, ?_, hKind, hDepth, ?_, ?_, ?_⟩
        · rw [hRoot, hSplit]
          refine Draft.root_ofTokens hKind hDepth fun u hu hStart hZero => ?_
          have hDeep := hAfter u hu hStart
          omega
        · intro t ht
          obtain ⟨sooner, later, rfl⟩ := List.append_of_mem ht
          have hHere : x.tokens.toList = sooner ++ t :: (later ++ root :: after) := by simp [hSplit]
          exact ⟨hFirst t ht, hOutlined.depth_of_before hHere (fun v hv => hFirst v (by simp [hv])) (hFirst t ht)⟩
        · intro t ht hStart
          refine ⟨hAfter t ht hStart, ?_⟩
          obtain ⟨sooner, later, rfl⟩ := List.append_of_mem ht
          have hHere : x.tokens.toList = (before ++ root :: sooner) ++ t :: later := by simp [hSplit]
          exact (hOutlined.startTag hHere hStart).1
        · intro t ht
          obtain ⟨sooner, later, rfl⟩ := List.append_of_mem ht
          have hHere : x.tokens.toList = (before ++ root :: sooner) ++ t :: later := by simp [hSplit]
          exact hOutlined.kind_of_inside hHere (by simp) hKind
      step := by
        intro before between after tag t hSplit hTag hStart hBetween
        have hSame : x.tokens.toList = (before ++ tag :: between) ++ t :: after := by simp [hSplit]
        exact ((hOutlined.startTag hSame hStart).2.2 tag ⟨before, between, rfl, hTag, hBetween⟩).2
      value := hOutlined.value
      attributeName := hOutlined.exists_tag
      text := hOutlined.text
      doctype := hOutlined.doctype
      epilog := hOutlined.misc
      maxDepth := by
        rw [hMaxDepth]
        exact hOutlined.deepest
      order := by
        intro before after t u hSplit hBefore
        obtain ⟨sooner, -, rfl⟩ := hRest hSplit hBefore
        exact List.rel_of_pairwise_cons (List.pairwise_append.mp hOrder).2.1 List.mem_cons_self
      within := by
        intro before after t hSplit hBefore
        obtain ⟨sooner, -, rfl⟩ := hRest hSplit hBefore
        rw [hDocOffset, hDocLength]
        exact hWithin t (by simp) }

end

/-- `<a b='c'>d<e><f/></e><e/></a><?p q?>`, after a space. -/
def chapter : ByteArray :=
  ⟨#[0x20, 0x3C, 0x61, 0x20, 0x62, 0x3D, 0x27, 0x63, 0x27, 0x3E, 0x64, 0x3C, 0x65, 0x3E, 0x3C, 0x66, 0x2F, 0x3E,
    0x3C, 0x2F, 0x65, 0x3E, 0x3C, 0x65, 0x2F, 0x3E, 0x3C, 0x2F, 0x61, 0x3E, 0x3C, 0x3F, 0x70, 0x20, 0x71, 0x3F, 0x3E]⟩

def chapterIndex : Index where
  buffer := chapter
  docOffset := 1
  docLength := 36
  encoding := .utf8
  namespaces := true
  maxDepth := 2
  root := some 1
  tokens := #[⟨.document, -1, 0, 0⟩, ⟨.startTag, 0, 2, 1⟩, ⟨.attributeName, 0, 4, 1⟩, ⟨.attributeValue, 0, 7, 1⟩,
    ⟨.characterData, 0, 10, 1⟩, ⟨.startTag, 1, 12, 1⟩, ⟨.startTag, 2, 15, 1⟩, ⟨.startTag, 1, 23, 1⟩,
    ⟨.instructionTarget, -1, 32, 1⟩, ⟨.instructionData, -1, 34, 1⟩]
  cache := ⟨#[#[⟨5, some 0⟩, ⟨7, none⟩], #[⟨6, none⟩]], #[]⟩

theorem parseRange_chapter : parseRange {} true chapter 1 36 = .ok chapterIndex :=
  @parseRange_of_runWithin _ _ _ _ _ 12 ⟨.utf8, .none⟩ _ (by decide) rfl (by with_unfolding_all rfl)

theorem shaped_of_parseRange_chapter : parseRange {} true chapter 1 36 = .ok chapterIndex ∧ chapterIndex.Shaped :=
  ⟨parseRange_chapter, shaped_of_parseRange parseRange_chapter⟩

end XmlIndex
