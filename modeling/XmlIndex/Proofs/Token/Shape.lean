import XmlIndex.Proofs.Grammar.Outlines

/-! # The shape of token streams

In a stream that goes as its outlines allow, from a document token to an outline beyond the root, names
stand before their values, attributes behind their tag, and the root apart from what comes before and
after it. Each fact about a token is read off the outline of what comes before it.
-/
namespace XmlIndex
set_option autoImplicit false

def Token.document : Token :=
  ⟨.document, -1, 0, 0⟩

inductive Token.AttributesAt (depth : Int) : List Token → Prop
  | nil : AttributesAt depth []
  | concat {pairs : List Token} {name value : Token} (hPairs : AttributesAt depth pairs)
      (hName : name.kind.isAttributeName = true) (hValue : value.kind = .attributeValue)
      (hNameDepth : name.depth = depth) (hValueDepth : value.depth = depth) :
      AttributesAt depth (pairs ++ [name, value])

theorem TokenKind.isAttributeName_of_value? {kind : TokenKind} (hKind : kind.value? = some .attributeValue) :
    kind.isAttributeName = true := by
  cases kind <;> first | rfl | cases hKind

namespace Outline
variable {o : Outline} {t u : Token} {kind : TokenKind}

theorem Allows.kind_ne (hAllows : o.Allows t) : t.kind ≠ .document ∧ t.kind ≠ .endTag := by
  constructor <;> (intro hKind; unfold Allows at hAllows; rw [hKind] at hAllows; exact hAllows)

/-- A name has its value come next. -/
theorem Allows.value (hAllows : o.Allows t) (hLast : o.last = some u) (hName : u.kind.value? = some kind) :
    t.kind = kind ∧ t.depth = u.depth := by
  have hFree : ¬o.Free := fun hFree => nomatch (hFree u hLast).symm.trans hName
  have hNames {value : TokenKind} (hNames : o.Names value t.depth) : value = kind ∧ t.depth = u.depth := by
    obtain ⟨v, hSome, hValue, hDepth⟩ := hNames
    obtain rfl := Option.some.inj (hLast.symm.trans hSome)
    exact ⟨Option.some.inj (hValue.symm.trans hName), hDepth.symm⟩
  unfold Allows at hAllows
  cases hKind : t.kind <;> rw [hKind] at hAllows
  case document | endTag => exact hAllows.elim
  case startTag | characterData | comment | instructionTarget | declarationName | cdata | doctype =>
    exact (hFree hAllows.1).elim
  case attributeName | namespaceName =>
    -- An attribute follows a tag or a value, which are no names.
    obtain ⟨-, -, -, v, hSome, hOther, -⟩ := hAllows
    obtain rfl := Option.some.inj (hLast.symm.trans hSome)
    rcases hOther with hOther | hOther <;> rw [hOther] at hName <;> cases hName
  case attributeValue => exact hNames hAllows.2.2.2
  case instructionData | declarationValue => exact hNames hAllows.1

theorem Allows.attributeName (hAllows : o.Allows t) (hKind : t.kind.isAttributeName = true) :
    ∃ u, o.last = some u ∧ (u.kind = .startTag ∨ u.kind = .attributeValue) ∧ u.depth = t.depth := by
  unfold Allows at hAllows
  cases hName : t.kind <;> rw [hName] at hAllows hKind <;> first | exact hAllows.2.2.2 | cases hKind

theorem Allows.attributeValue (hAllows : o.Allows t) (hKind : t.kind = .attributeValue) :
    o.Names .attributeValue t.depth := by
  unfold Allows at hAllows
  rw [hKind] at hAllows
  exact hAllows.2.2.2

theorem Allows.text (hAllows : o.Allows t) (hKind : t.kind.isText = true) :
    ∃ u, o.startTag = some u ∧ 0 ≤ t.depth ∧ t.depth ≤ u.depth := by
  unfold Allows at hAllows
  cases hText : t.kind <;> rw [hText] at hAllows hKind <;> first | exact hAllows.2.2 | cases hKind

theorem Allows.startTag (hAllows : o.Allows t) (hKind : t.kind = .startTag) : t.depth ≤ Token.maxDepth ∧
    (o.startTag = none → t.depth = 0) ∧ ∀ u, o.startTag = some u → 1 ≤ t.depth ∧ t.depth ≤ u.depth + 1 := by
  unfold Allows at hAllows
  rw [hKind] at hAllows
  exact hAllows.2.2

theorem Allows.doctype (hAllows : o.Allows t) (hKind : t.kind = .doctype) : o.hasDoctype = false := by
  unfold Allows at hAllows
  rw [hKind] at hAllows
  exact hAllows.2.2.1

/-- Before the root. -/
theorem Allows.before (hAllows : o.Allows t) (hNone : o.startTag = none) (hKind : t.kind ≠ .startTag) :
    t.depth = -1 := by
  have hSome {P : Token → Prop} (h : ∃ u, o.startTag = some u ∧ P u) : t.depth = -1 := by
    obtain ⟨u, hSome, -⟩ := h
    cases hNone.symm.trans hSome
  unfold Allows at hAllows
  cases hOther : t.kind <;> rw [hOther] at hAllows
  case document | endTag => exact hAllows.elim
  case startTag => exact (hKind hOther).elim
  case comment | instructionTarget | instructionData => exact hAllows.2 (.inl hNone)
  case declarationName | declarationValue => exact hAllows.2.2
  case doctype => exact hAllows.2.2.2
  case characterData | cdata => exact hSome hAllows.2.2
  case attributeName | namespaceName | attributeValue =>
    exact hSome (P := fun _ => True) (hAllows.2.2.1.imp fun _ h => ⟨h, trivial⟩)

/-- After the beginning of the root. -/
theorem Allows.inside (hAllows : o.Allows t) (hSome : o.startTag = some u) :
    t.kind ≠ .doctype ∧ t.kind ≠ .declarationName ∧ t.kind ≠ .declarationValue := by
  have hNone : ¬o.startTag = none := fun hNone => nomatch hNone.symm.trans hSome
  unfold Allows at hAllows
  refine ⟨?_, ?_, ?_⟩ <;> (intro hKind; rw [hKind] at hAllows; exact hNone hAllows.2.1)

/-- A token outside the root that comes after its beginning comes after its end. -/
theorem Allows.misc (hAllows : o.Allows t) (hSome : o.startTag = some u) (hOutside : t.depth = -1) :
    t.kind.isMisc = true := by
  have hNone : ¬o.startTag = none := fun hNone => nomatch hNone.symm.trans hSome
  unfold Allows at hAllows
  cases hKind : t.kind <;> rw [hKind] at hAllows
  case document | endTag => exact hAllows.elim
  case comment | instructionTarget | instructionData => rfl
  case declarationName | declarationValue | doctype => exact (hNone hAllows.2.1).elim
  case startTag =>
    have hLeast := (hAllows.2.2.2.2 u hSome).1
    omega
  case characterData | cdata =>
    obtain ⟨-, -, v, -, hLeast, -⟩ := hAllows
    omega
  case attributeName | namespaceName | attributeValue =>
    have hLeast := hAllows.2.1
    omega

theorem Allows.beyond (hAllows : o.Allows t) (hLeft : o.isLeft = true) (hSome : o.startTag = some u) :
    t.depth = -1 := by
  have hNone : ¬o.startTag = none := fun hNone => nomatch hNone.symm.trans hSome
  have hInside : ¬o.isLeft = false := fun hInside => nomatch hInside.symm.trans hLeft
  unfold Allows at hAllows
  cases hKind : t.kind <;> rw [hKind] at hAllows
  case document | endTag => exact hAllows.elim
  case comment | instructionTarget | instructionData => exact hAllows.2 (.inr hLeft)
  case declarationName | declarationValue | doctype => exact (hNone hAllows.2.1).elim
  case startTag | characterData | cdata => exact (hInside hAllows.2.1).elim
  case attributeName | namespaceName | attributeValue => exact (hInside hAllows.1).elim

end Outline

/-- A stream of tokens that goes on from a document token as its outlines allow, and ends beyond the root. -/
structure Outlined (tokens : List Token) : Prop where
  admits : ∃ rest, tokens = .document :: rest ∧ (Outline.of [.document]).Admits rest
  beyond : (Outline.of tokens).Beyond

namespace Outlined
open Outline
variable {tokens before after between : List Token} {t u : Token} {kind : TokenKind} (hOutlined : Outlined tokens)

theorem of_leads {rest : List Token} (hLeads : Leads (Before false) rest Beyond) :
    Outlined (.document :: rest) := by
  have hBefore : (Outline.of [.document]).Before false :=
    { free := by rintro u ⟨⟩; rfl
      startTag := rfl
      isLeft := rfl
      hasDoctype := rfl }
  obtain ⟨hAdmits, hBeyond⟩ := hLeads _ hBefore
  exact ⟨⟨rest, rfl, hAdmits⟩, hBeyond⟩

include hOutlined

/-- Every token but the first is allowed. -/
theorem allows (hSplit : tokens = before ++ t :: after) (hBefore : before ≠ []) : (Outline.of before).Allows t := by
  obtain ⟨rest, rfl, hAdmits⟩ := hOutlined.admits
  cases before with
  | nil => exact (hBefore rfl).elim
  | cons first before =>
    obtain ⟨rfl, rfl⟩ := List.cons.inj hSplit
    exact hAdmits.allows

theorem allows_of_kind (hSplit : tokens = before ++ t :: after) (hKind : t.kind ≠ .document) :
    (Outline.of before).Allows t := by
  refine hOutlined.allows hSplit ?_
  rintro rfl
  obtain ⟨rest, rfl, -⟩ := hOutlined.admits
  obtain ⟨rfl, -⟩ := List.cons.inj hSplit
  exact hKind rfl

theorem kind_ne_endTag (hMem : t ∈ tokens) : t.kind ≠ .endTag := by
  obtain ⟨before, after, hSplit⟩ := List.append_of_mem hMem
  intro hKind
  exact (hOutlined.allows_of_kind hSplit (by rw [hKind]; nofun)).kind_ne.2 hKind

/-- Only the first token stands for the document. -/
theorem kind_ne_document (hSplit : tokens = before ++ t :: after) (hBefore : before ≠ []) : t.kind ≠ .document :=
  (hOutlined.allows hSplit hBefore).kind_ne.1

/-- A name is not the last token, and the next one is its value. -/
theorem value (hSplit : tokens = before ++ t :: after) (hName : t.kind.value? = some kind) :
    ∃ value rest, after = value :: rest ∧ value.kind = kind ∧ value.depth = t.depth := by
  have hLast : (Outline.of (before ++ [t])).last = some t := by
    rw [last_of, List.getLast?_concat]
  cases after with
  | nil => exact nomatch (hOutlined.beyond.free t (hSplit ▸ hLast)).symm.trans hName
  | cons value rest =>
    have hHere : tokens = (before ++ [t]) ++ value :: rest := by simp [hSplit]
    have hAllows := hOutlined.allows hHere (by simp)
    exact ⟨value, rest, rfl, hAllows.value hLast hName⟩

/-- By induction on what comes before: an attribute stands behind the start tag, or behind another
attribute. -/
theorem exists_tag {before after : List Token} {t : Token} (hSplit : tokens = before ++ t :: after)
    (hName : t.kind.isAttributeName = true) :
    ∃ earlier tag pairs, before = earlier ++ tag :: pairs ∧ tag.kind = .startTag ∧ tag.depth = t.depth ∧
      Token.AttributesAt t.depth pairs := by
  have hOther : t.kind ≠ .document := by
    intro hKind
    rw [hKind] at hName
    cases hName
  obtain ⟨u, hLast, hKind, hDepth⟩ := (hOutlined.allows_of_kind hSplit hOther).attributeName hName
  rw [last_of, List.getLast?_eq_some_iff] at hLast
  obtain ⟨sooner, hSooner⟩ := hLast
  rcases hKind with hTag | hValue
  · exact ⟨sooner, u, [], hSooner, hTag, hDepth, .nil⟩
  · have hHere : tokens = sooner ++ u :: t :: after := by simp [hSplit, hSooner]
    have hAllows := hOutlined.allows_of_kind hHere (by rw [hValue]; nofun)
    obtain ⟨name, hLastName, hNameKind, hNameDepth⟩ := hAllows.attributeValue hValue
    rw [last_of, List.getLast?_eq_some_iff] at hLastName
    obtain ⟨first, hFirst⟩ := hLastName
    have hAttribute := TokenKind.isAttributeName_of_value? hNameKind
    have hThere : tokens = first ++ name :: u :: t :: after := by simp [hSplit, hSooner, hFirst]
    obtain ⟨earlier, tag, pairs, hBefore, hTag, hTagDepth, hPairs⟩ := exists_tag hThere hAttribute
    have hSame : name.depth = t.depth := hNameDepth.trans hDepth
    refine ⟨earlier, tag, pairs ++ [name, u], ?_, hTag, hTagDepth.trans hSame, ?_⟩
    · simp [hSooner, hFirst, hBefore]
    · exact (hSame ▸ hPairs).concat hAttribute hValue hSame hDepth
termination_by before.length
decreasing_by
  simp only [hSooner, hFirst, List.length_append, List.length_singleton]
  omega

/-- Text stands inside the latest element, or an outer one. -/
theorem text (hSplit : tokens = before ++ t :: after) (hText : t.kind.isText = true) :
    ∃ tag, IsLatest before tag ∧ 0 ≤ t.depth ∧ t.depth ≤ tag.depth := by
  have hOther : t.kind ≠ .document := by
    intro hKind
    rw [hKind] at hText
    cases hText
  obtain ⟨tag, hSome, hLeast, hGreatest⟩ := (hOutlined.allows_of_kind hSplit hOther).text hText
  exact ⟨tag, isLatest_of_startTag hSome, hLeast, hGreatest⟩

theorem startTag (hSplit : tokens = before ++ t :: after) (hStart : t.kind = .startTag) :
    t.depth ≤ Token.maxDepth ∧ ((∀ v ∈ before, v.kind ≠ .startTag) → t.depth = 0) ∧
      ∀ tag, IsLatest before tag → 1 ≤ t.depth ∧ t.depth ≤ tag.depth + 1 := by
  obtain ⟨hGreatest, hRoot, hInside⟩ :=
    (hOutlined.allows_of_kind hSplit (by rw [hStart]; nofun)).startTag hStart
  exact ⟨hGreatest, fun hFirst => hRoot (startTag_of_eq_none_iff.mpr hFirst),
    fun tag hLatest => hInside tag (startTag_of_isLatest hLatest)⟩

theorem doctype (hSplit : tokens = before ++ t :: after) (hDoctype : t.kind = .doctype) :
    ∀ v ∈ before, v.kind ≠ .doctype := by
  have hFirst := (hOutlined.allows_of_kind hSplit (by rw [hDoctype]; nofun)).doctype hDoctype
  intro v hMem hKind
  rw [hasDoctype_of_eq_true_iff.mpr ⟨v, hMem, hKind⟩] at hFirst
  cases hFirst

/-- Outside the root, before it. -/
theorem depth_of_before (hSplit : tokens = before ++ t :: after) (hFirst : ∀ v ∈ before, v.kind ≠ .startTag)
    (hOther : t.kind ≠ .startTag) : t.depth = -1 := by
  cases before with
  | nil =>
    obtain ⟨rest, rfl, -⟩ := hOutlined.admits
    obtain ⟨rfl, -⟩ := List.cons.inj hSplit
    rfl
  | cons first before =>
    exact (hOutlined.allows hSplit (by simp)).before (startTag_of_eq_none_iff.mpr hFirst) hOther

theorem kind_of_inside (hSplit : tokens = before ++ t :: after) (hMem : u ∈ before) (hStart : u.kind = .startTag) :
    t.kind ≠ .doctype ∧ t.kind ≠ .declarationName ∧ t.kind ≠ .declarationValue := by
  obtain ⟨v, hSome⟩ := exists_startTag_of_mem hMem hStart
  exact (hOutlined.allows hSplit (List.ne_nil_of_mem hMem)).inside hSome

/-- Once a token lies outside the root that has begun, all do. -/
theorem misc (hSplit : tokens = before ++ t :: after) (hMem : u ∈ before) (hStart : u.kind = .startTag)
    (hOutside : t.depth = -1) : ∀ v ∈ t :: after, v.kind.isMisc = true ∧ v.depth = -1 := by
  refine List.forall_mem_cons.mpr ⟨⟨?_, hOutside⟩, fun v hv => ?_⟩
  · obtain ⟨w, hSome⟩ := exists_startTag_of_mem hMem hStart
    exact (hOutlined.allows hSplit (List.ne_nil_of_mem hMem)).misc hSome hOutside
  · obtain ⟨later, last, rfl⟩ := List.append_of_mem hv
    have hHere : tokens = (before ++ t :: later) ++ v :: last := by simp [hSplit]
    have hAllows := hOutlined.allows hHere (by simp)
    obtain ⟨w, hSome⟩ := exists_startTag_of_mem (List.mem_append_left (t :: later) hMem) hStart
    have hDepth := hAllows.beyond (isLeft_of_append hMem hStart hOutside) hSome
    exact ⟨hAllows.misc hSome hDepth, hDepth⟩

theorem depth_nonneg (hMem : t ∈ tokens) (hStart : t.kind = .startTag) : 0 ≤ t.depth := by
  obtain ⟨before, after, hSplit⟩ := List.append_of_mem hMem
  obtain ⟨-, hRoot, hInside⟩ := (hOutlined.allows_of_kind hSplit (by rw [hStart]; nofun)).startTag hStart
  cases hLatest : (Outline.of before).startTag with
  | none => exact Int.le_of_eq (hRoot hLatest).symm
  | some tag => exact Int.le_trans (by decide) (hInside tag hLatest).1

/-- The first start tag is the root, and all others are deeper. -/
theorem exists_root : ∃ before root after, tokens = before ++ root :: after ∧ root.kind = .startTag ∧
    root.depth = 0 ∧ (∀ t ∈ before, t.kind ≠ .startTag) ∧ ∀ t ∈ after, t.kind = .startTag → 1 ≤ t.depth := by
  obtain ⟨u, hSome⟩ := hOutlined.beyond.startTag
  obtain ⟨earlier, between, hLatest, hStart, -⟩ := isLatest_of_startTag hSome
  have hFound : (tokens.find? fun t => t.kind = .startTag).isSome = true := by
    rw [List.find?_isSome]
    exact ⟨u, by simp [hLatest], by simpa using hStart⟩
  obtain ⟨root, hRoot⟩ := Option.isSome_iff_exists.mp hFound
  obtain ⟨hKind, before, after, hSplit, hBefore⟩ := List.find?_eq_some_iff_append.mp hRoot
  have hRootKind : root.kind = .startTag := by simpa using hKind
  have hFirst : ∀ t ∈ before, t.kind ≠ .startTag := by simpa using hBefore
  refine ⟨before, root, after, hSplit, hRootKind, (hOutlined.startTag hSplit hRootKind).2.1 hFirst, hFirst, ?_⟩
  intro t ht hTag
  obtain ⟨sooner, later, rfl⟩ := List.append_of_mem ht
  have hMem : root ∈ before ++ root :: sooner := by simp
  have hHere : tokens = (before ++ root :: sooner) ++ t :: later := by simp [hSplit]
  obtain ⟨v, hSome⟩ := exists_startTag_of_mem hMem hRootKind
  have hInside := hOutlined.startTag hHere hTag
  exact (hInside.2.2 v (isLatest_of_startTag hSome)).1

end Outlined
end XmlIndex
