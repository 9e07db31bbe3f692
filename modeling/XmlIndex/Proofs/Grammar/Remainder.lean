import XmlIndex.Proofs.Grammar.Tokens
import XmlIndex.Proofs.Scan.References

/-! # What is left of a document

While a document is read, what is left of it depends on the names of the open elements and on
nothing else of what came before. A language holds texts with their tokens; the languages below are
those of the rest of a document from inside an element, from inside a tag, or from its prolog on.
-/
namespace XmlIndex.Grammar
set_option autoImplicit false

/-- Texts, each with its tokens. -/
abbrev Language := Chars → List Token → Prop

def Language.after (text : Chars) (tokens : List Token) (rest : Language) : Language :=
  fun whole all => ∃ others more, rest others more ∧ whole = text ++ others ∧ all = tokens ++ more

section
variable (e : Encoding) (recordSpace : Bool)

def epilog (place : Nat) : Language := fun text tokens =>
  ∃ ep : Epilog, ep.WellFormed ∧ (∀ item ∈ ep.items, item.2.Fits e) ∧ text = ep.text ∧
    tokens = Epilog.tokens e place ep.items

/-- Inside the elements with the given names, the innermost first; `first` tells whether the last
tag was a start tag. -/
def content : (names : List Chars) → (first : Bool) → (place : Nat) → Language
  | [], _, place => epilog e place
  | name :: names, first, place => fun text tokens =>
    ∃ (x : Content) (space : Chars), x.WellFormed ∧ x.Fits e (names.length + 1) ∧ IsSpace space ∧
      Language.after (x.text ++ CodePoint.lessThan :: endTag name space)
        (x.tokens e recordSpace names.length first place)
        (content names false (place + e.size (x.text ++ CodePoint.lessThan :: endTag name space)))
        text tokens

def tagEnd (name : Chars) (names : List Chars) (place : Nat) : Language := fun text tokens =>
  Language.after [CodePoint.slash, CodePoint.greaterThan] []
      (content e recordSpace names false (place + e.size [CodePoint.slash, CodePoint.greaterThan]))
      text tokens ∨
    Language.after [CodePoint.greaterThan] []
      (content e recordSpace (name :: names) true (place + e.size [CodePoint.greaterThan])) text tokens

def element (names : List Chars) (place : Nat) : Language := fun text tokens =>
  ∃ tag : Tag, tag.WellFormed ∧ tag.Fits e ∧ names.length ≤ Token.maxDepth ∧
    Language.after tag.text (tag.tokens e names.length place)
      (tagEnd e recordSpace tag.name names (place + e.size tag.text)) text tokens

def marked (name : Chars) (names : List Chars) (place : Nat) : Language := fun text tokens =>
  (∃ m : Markup, m.WellFormed ∧ m.isDocumentType = false ∧ m.Fits e ∧
      Language.after m.inner (m.tokens e names.length place)
        (content e recordSpace (name :: names) false (place + e.size m.inner)) text tokens) ∨
    element e recordSpace (name :: names) place text tokens ∨
    ∃ space, IsSpace space ∧ Language.after (endTag name space) []
      (content e recordSpace names false (place + e.size (endTag name space))) text tokens

end

section
variable {e : Encoding} {recordSpace first : Bool} {name : Chars} {names : List Chars} {place : Nat}
  {text : Chars} {tokens : List Token}

theorem content_congr {place' : Nat} (hContent : content e recordSpace names first place text tokens)
    (hPlace : place' = place) : content e recordSpace names first place' text tokens :=
  hPlace ▸ hContent

theorem head?_inner_ne_slash (m : Markup) (rest : Chars) :
    ((m.inner ++ rest).head? == some CodePoint.slash) = false := by
  cases m with
  | instruction target data =>
    rcases data with _ | ⟨space, data⟩ <;> rfl
  | _ => rfl

theorem head?_name_ne_slash (hName : IsName name) (rest : Chars) :
    ((name ++ rest).head? == some CodePoint.slash) = false := by
  cases name with
  | nil => exact hName.elim
  | cons first name =>
    refine beq_eq_false_iff_ne.mpr fun h => ?_
    rw [Option.some.inj h] at hName
    exact absurd hName.1 (by decide)

/-- Content is a run of character data up to a bracket, and what may follow the bracket. -/
theorem content_cons_iff : content e recordSpace (name :: names) first place text tokens ↔
    ∃ run rest more, IsRun run ∧ text = run ++ CodePoint.lessThan :: rest ∧
      marked e recordSpace name names (place + e.size (run ++ [CodePoint.lessThan])) rest more ∧
        tokens = runTokens e recordSpace (first && rest.head? == some CodePoint.slash) names.length
          place run ++ more := by
  constructor
  · rintro ⟨x, space, hx, hFits, hSpace, others, more, hOthers, rfl, rfl⟩
    cases x with
    | last run =>
      refine ⟨run, endTag name space ++ others, more, hx, by simp [Content.text],
        .inr (.inr ⟨space, hSpace, others, more, content_congr hOthers ?_, rfl, rfl⟩), ?_⟩
      · simp [Content.text, Nat.add_assoc]
      · simp [Content.tokens, endTag]
    | markup run m rest =>
      refine ⟨run, m.inner ++ (rest.text ++ CodePoint.lessThan :: (endTag name space ++ others)), _,
        hx.1, by simp [Content.text],
        .inl ⟨m, hx.2.1, hx.2.2.1, hFits.1, _, _,
          ⟨rest, space, hx.2.2.2, hFits.2, hSpace, others, more, content_congr hOthers ?_, rfl, rfl⟩,
          by simp, rfl⟩, ?_⟩
      · simp [Content.text, Nat.add_assoc]
      · rw [head?_inner_ne_slash, Bool.and_false]
        simp [Content.tokens]
    | empty run tag rest =>
      refine ⟨run, tag.text ++ CodePoint.slash :: CodePoint.greaterThan :: (rest.text ++
        CodePoint.lessThan :: (endTag name space ++ others)), _, hx.1, by simp [Content.text],
        .inr (.inl ⟨tag, hx.2.1, hFits.2.1, hFits.1, _, _, .inl ⟨_, _,
          ⟨rest, space, hx.2.2, hFits.2.2, hSpace, others, more, content_congr hOthers ?_, rfl, rfl⟩,
          rfl, rfl⟩, by simp, rfl⟩), ?_⟩
      · simp [Content.text, Nat.add_assoc]
      · rw [Tag.text, List.append_assoc, head?_name_ne_slash hx.2.1.name, Bool.and_false]
        simp [Content.tokens, Tag.text, Nat.add_assoc]
    | element run tag inside space' rest =>
      refine ⟨run, tag.text ++ CodePoint.greaterThan :: (inside.text ++ CodePoint.lessThan ::
        (endTag tag.name space' ++ (rest.text ++ CodePoint.lessThan :: (endTag name space ++ others)))),
        _, hx.1, by simp [Content.text],
        .inr (.inl ⟨tag, hx.2.1, hFits.2.1, hFits.1, _, _, .inr ⟨_, _,
          ⟨inside, space', hx.2.2.1, hFits.2.2.1, hx.2.2.2.1, _, _,
            ⟨rest, space, hx.2.2.2.2, hFits.2.2.2, hSpace, others, more, content_congr hOthers ?_, rfl,
              rfl⟩, by simp; rfl, rfl⟩,
          rfl, rfl⟩, by simp, rfl⟩), ?_⟩
      · simp [Content.text, Nat.add_assoc]
      · rw [Tag.text, List.append_assoc, head?_name_ne_slash hx.2.1.name, Bool.and_false]
        simp [Content.tokens, Tag.text, Nat.add_assoc]
  · rintro ⟨run, rest, more, hRun, rfl, hMarked, rfl⟩
    rcases hMarked with ⟨m, hm, hKind, hmFits, others, after, hOthers, rfl, rfl⟩ |
      ⟨tag, hTag, hTagFits, hDepth, _, _, hEnd, rfl, rfl⟩ | ⟨space, hSpace, others, _, hOthers, rfl, rfl⟩
    · obtain ⟨x, space, hx, hFits, hSpace, others, after, hOthers, rfl, rfl⟩ := hOthers
      refine ⟨.markup run m x, space, ⟨hRun, hm, hKind, hx⟩, ⟨hmFits, hFits⟩, hSpace, others, after,
        content_congr hOthers ?_, by simp [Content.text], ?_⟩
      · simp [Content.text, Nat.add_assoc]
      · rw [head?_inner_ne_slash, Bool.and_false]
        simp [Content.tokens]
    · rw [Tag.text, List.append_assoc, head?_name_ne_slash hTag.name, Bool.and_false]
      rcases hEnd with ⟨others, _, hOthers, rfl, rfl⟩ | ⟨others, _, hOthers, rfl, rfl⟩
      · obtain ⟨x, space, hx, hFits, hSpace, others, last, hOthers, rfl, rfl⟩ := hOthers
        refine ⟨.empty run tag x, space, ⟨hRun, hTag, hx⟩, ⟨hDepth, hTagFits, hFits⟩, hSpace, others,
          last, content_congr hOthers ?_, by simp [Content.text, Tag.text], ?_⟩
        · simp [Content.text, Nat.add_assoc]
        · simp [Content.tokens, Tag.text, Nat.add_assoc]
      · obtain ⟨inside, space, hInside, hInsideFits, hSpace, _, _,
          ⟨x, space', hx, hFits, hSpace', others, last, hOthers, rfl, rfl⟩, rfl, rfl⟩ := hOthers
        refine ⟨.element run tag inside space x, space', ⟨hRun, hTag, hInside, hSpace, hx⟩,
          ⟨hDepth, hTagFits, hInsideFits, hFits⟩, hSpace', others, last, content_congr hOthers ?_,
          by simp [Content.text, Tag.text], ?_⟩
        · simp [Content.text, Nat.add_assoc]
        · simp [Content.tokens, Tag.text, Nat.add_assoc]
    · refine ⟨.last run, space, hRun, trivial, hSpace, others, _, content_congr hOthers ?_,
        by simp [Content.text], ?_⟩
      · simp [Content.text, Nat.add_assoc]
      · simp [Content.tokens, endTag]

end

section
variable (e : Encoding) (recordSpace : Bool)

/-- Inside the start tag of an element, after its name or one of its attributes; `seen` are the names
of the attributes so far. -/
def tagRest (name : Chars) (names seen : List Chars) (place : Nat) : Language := fun text tokens =>
  ∃ (attributes : List Attribute) (space : Chars),
    (∀ a ∈ attributes, a.WellFormed ∧ a.Fits e ∧ a.name ∉ seen) ∧
      (attributes.map Attribute.name).Nodup ∧ IsSpace space ∧
        Language.after (Tag.attributeText attributes ++ space)
          (Tag.attributeTokens e names.length place attributes)
          (tagEnd e recordSpace name names (place + e.size (Tag.attributeText attributes ++ space)))
          text tokens

def attributeRest (name : Chars) (names seen : List Chars) (space : Chars) (place : Nat) : Language :=
  fun text tokens => ∃ own binding, (⟨space, own, binding⟩ : Attribute).WellFormed ∧
    (⟨space, own, binding⟩ : Attribute).Fits e ∧ own ∉ seen ∧
      Language.after (own ++ binding.text)
        ((⟨space, own, binding⟩ : Attribute).tokens e names.length place)
        (tagRest e recordSpace name names (own :: seen) (place + e.size (space ++ (own ++ binding.text)))) text tokens

end

section
variable {e : Encoding} {recordSpace : Bool} {name : Chars} {names seen : List Chars} {place : Nat}
  {text : Chars} {tokens : List Token}

theorem tagEnd_congr {place' : Nat} (hEnd : tagEnd e recordSpace name names place text tokens)
    (hPlace : place' = place) : tagEnd e recordSpace name names place' text tokens :=
  hPlace ▸ hEnd

/-- A tag goes on with space, and then with an attribute or its end. -/
theorem tagRest_iff : tagRest e recordSpace name names seen place text tokens ↔
    ∃ space others, IsSpace space ∧ text = space ++ others ∧
      (space ≠ [] ∧ attributeRest e recordSpace name names seen space place others tokens ∨
        tagEnd e recordSpace name names (place + e.size space) others tokens) := by
  constructor
  · rintro ⟨attributes, space, hAttributes, hNodup, hSpace, others, more, hEnd, rfl, rfl⟩
    cases attributes with
    | nil => exact ⟨space, others, hSpace, rfl, .inr hEnd⟩
    | cons a attributes =>
      rw [List.forall_mem_cons] at hAttributes
      rw [List.map_cons, List.nodup_cons] at hNodup
      have hRest : ∀ b ∈ attributes, b.WellFormed ∧ b.Fits e ∧ b.name ∉ a.name :: seen := by
        intro b hb
        obtain ⟨hWell, hFits, hNew⟩ := hAttributes.2 b hb
        refine ⟨hWell, hFits, ?_⟩
        rw [List.mem_cons, not_or]
        exact ⟨fun h => hNodup.1 (h ▸ List.mem_map_of_mem hb), hNew⟩
      refine ⟨a.space, (a.name ++ a.binding.text) ++ (Tag.attributeText attributes ++ space ++ others),
        hAttributes.1.1.space, by simp [Tag.attributeText, Attribute.text], .inl
        ⟨hAttributes.1.1.nonempty, a.name, a.binding, hAttributes.1.1, hAttributes.1.2.1,
          hAttributes.1.2.2, _, _, ⟨attributes, space, hRest, hNodup.2, hSpace, others, more,
            tagEnd_congr hEnd ?_, rfl, rfl⟩, rfl, ?_⟩⟩
      · simp [Tag.attributeText, Attribute.text, Nat.add_assoc]
      · simp [Tag.attributeTokens, Attribute.text]
  · rintro ⟨space, others, hSpace, rfl, ⟨hNonempty, own, binding, hWell, hFits, hNew, _, _,
      ⟨attributes, space', hAttributes, hNodup, hSpace', others, more, hEnd, rfl, rfl⟩, rfl, rfl⟩ | hEnd⟩
    · refine ⟨⟨space, own, binding⟩ :: attributes, space',
        List.forall_mem_cons.mpr ⟨⟨hWell, hFits, hNew⟩, fun b hb => ?_⟩, ?_, hSpace', others, more,
        tagEnd_congr hEnd ?_, by simp [Tag.attributeText, Attribute.text], ?_⟩
      · obtain ⟨hWell, hFits, hNew⟩ := hAttributes b hb
        exact ⟨hWell, hFits, fun h => hNew (List.mem_cons_of_mem _ h)⟩
      · rw [List.map_cons, List.nodup_cons]
        refine ⟨fun h => ?_, hNodup⟩
        obtain ⟨b, hb, hName⟩ := List.mem_map.mp h
        exact (hAttributes b hb).2.2 (hName ▸ List.mem_cons_self)
      · simp [Tag.attributeText, Attribute.text, Nat.add_assoc]
      · simp [Tag.attributeTokens, Attribute.text]
    · exact ⟨[], space, fun _ h => (List.not_mem_nil h).elim, List.nodup_nil, hSpace, others, tokens,
        hEnd, rfl, rfl⟩

theorem element_iff : element e recordSpace names place text tokens ↔
    ∃ name, IsName name ∧ NameFits e name ∧ names.length ≤ Token.maxDepth ∧
      Language.after name [nameToken e .startTag names.length place name]
        (tagRest e recordSpace name names [] (place + e.size name)) text tokens := by
  constructor
  · rintro ⟨⟨name, attributes, space⟩, hWell, hFits, hDepth, others, more, hEnd, rfl, rfl⟩
    refine ⟨name, hWell.name, hFits.name, hDepth, _, _, ⟨attributes, space, fun a ha =>
      ⟨hWell.attributes a ha, hFits.attributes a ha, List.not_mem_nil⟩, hWell.distinct, hWell.space,
      others, more, tagEnd_congr hEnd ?_, rfl, rfl⟩, by simp [Tag.text], rfl⟩
    simp [Tag.text, Nat.add_assoc]
  · rintro ⟨name, hName, hNameFits, hDepth, _, _,
      ⟨attributes, space, hAttributes, hNodup, hSpace, others, more, hEnd, rfl, rfl⟩, rfl, rfl⟩
    refine ⟨⟨name, attributes, space⟩, ⟨hName, fun a ha => (hAttributes a ha).1, hNodup, hSpace⟩,
      ⟨hNameFits, fun a ha => (hAttributes a ha).2.1⟩, hDepth, others, more, tagEnd_congr hEnd ?_,
      by simp [Tag.text], rfl⟩
    simp [Tag.text, Nat.add_assoc]

end

section
variable (e : Encoding) (recordSpace : Bool)

def prolog (hasDoctype : Bool) (place : Nat) : Language := fun text tokens =>
  ∃ items : List (Markup × Chars),
    (∀ item ∈ items, item.1.WellFormed ∧ item.1.isSection = false ∧ IsSpace item.2) ∧
      (∀ item ∈ items, item.1.Fits e) ∧
        (items.filter (·.1.isDocumentType)).length + hasDoctype.toNat ≤ 1 ∧
          Language.after (prologText items) (prologTokens e place items)
            (element e recordSpace [] (place + e.size (prologText items))) text tokens

end

section
variable {e : Encoding} {recordSpace hasDoctype : Bool} {place : Nat} {text : Chars}
  {tokens : List Token}

theorem element_congr {names : List Chars} {place' : Nat}
    (hElement : element e recordSpace names place text tokens) (hPlace : place' = place) :
    element e recordSpace names place' text tokens :=
  hPlace ▸ hElement

theorem single_cons_iff {m : Markup} {space : Chars} {items : List (Markup × Chars)} :
    (((m, space) :: items).filter (·.1.isDocumentType)).length + hasDoctype.toNat ≤ 1 ↔
      (hasDoctype && m.isDocumentType) = false ∧
        (items.filter (·.1.isDocumentType)).length + (hasDoctype || m.isDocumentType).toNat ≤ 1 := by
  rw [List.filter_cons]
  cases m.isDocumentType <;> cases hasDoctype <;> simp

/-- The prolog goes on with markup that is no section, and no second document type, or else the root
begins. -/
theorem prolog_iff : prolog e recordSpace hasDoctype place text tokens ↔
    (∃ (m : Markup) (space : Chars), m.WellFormed ∧ m.isSection = false ∧ m.Fits e ∧ IsSpace space ∧
        (hasDoctype && m.isDocumentType) = false ∧
          Language.after (m.inner ++ (space ++ [CodePoint.lessThan])) (m.tokens e (-1) place)
            (prolog e recordSpace (hasDoctype || m.isDocumentType)
              (place + e.size (m.inner ++ (space ++ [CodePoint.lessThan])))) text tokens) ∨
      element e recordSpace [] place text tokens := by
  constructor
  · rintro ⟨items, hItems, hFits, hSingle, others, more, hRoot, rfl, rfl⟩
    cases items with
    | nil => exact .inr hRoot
    | cons item items =>
      obtain ⟨m, space⟩ := item
      rw [List.forall_mem_cons] at hItems hFits
      rw [single_cons_iff] at hSingle
      refine .inl ⟨m, space, hItems.1.1, hItems.1.2.1, hFits.1, hItems.1.2.2, hSingle.1, _, _,
        ⟨items, hItems.2, hFits.2, hSingle.2, others, more, element_congr hRoot ?_, rfl, rfl⟩, ?_, ?_⟩
      · simp [prologText, Nat.add_assoc]
      · simp [prologText]
      · simp [prologTokens]
  · rintro (⟨m, space, hWell, hSection, hmFits, hSpace, hOnly, _, _,
      ⟨items, hItems, hFits, hSingle, others, more, hRoot, rfl, rfl⟩, rfl, rfl⟩ | hRoot)
    · refine ⟨(m, space) :: items, List.forall_mem_cons.mpr ⟨⟨hWell, hSection, hSpace⟩, hItems⟩,
        List.forall_mem_cons.mpr ⟨hmFits, hFits⟩, single_cons_iff.mpr ⟨hOnly, hSingle⟩, others, more,
        element_congr hRoot ?_, ?_, ?_⟩
      · simp [prologText, Nat.add_assoc]
      · simp [prologText]
      · simp [prologTokens]
    · refine ⟨[], fun _ h => (List.not_mem_nil h).elim, fun _ h => (List.not_mem_nil h).elim, ?_, text,
        tokens, hRoot, rfl, rfl⟩
      cases hasDoctype <;> decide

/-- After the root comes space, and then the end or more markup. -/
theorem epilog_iff : epilog e place text tokens ↔ ∃ space, IsSpace space ∧
    (text = space ∧ tokens = [] ∨ ∃ m : Markup, m.WellFormed ∧ m.isMisc = true ∧ m.Fits e ∧
      Language.after (space ++ CodePoint.lessThan :: m.inner)
        (m.tokens e (-1) (place + e.size (space ++ [CodePoint.lessThan])))
        (epilog e (place + e.size (space ++ CodePoint.lessThan :: m.inner))) text tokens) := by
  have hCongr : ∀ {items : List (Chars × Markup)} {a b : Nat}, a = b →
      Epilog.tokens e a items = Epilog.tokens e b items := fun h => h ▸ rfl
  constructor
  · rintro ⟨⟨items, space⟩, hWell, hFits, rfl, rfl⟩
    cases items with
    | nil => exact ⟨space, hWell.space, .inl ⟨rfl, rfl⟩⟩
    | cons item items =>
      obtain ⟨space', m⟩ := item
      have hItems := List.forall_mem_cons.mp hWell.items
      rw [List.forall_mem_cons] at hFits
      refine ⟨space', hItems.1.1, .inr ⟨m, hItems.1.2.1, hItems.1.2.2, hFits.1, _, _,
        ⟨⟨items, space⟩, ⟨hItems.2, hWell.space⟩, hFits.2, rfl, rfl⟩, ?_, ?_⟩⟩
      · simp [Epilog.text, Epilog.itemsText]
      · rw [Epilog.tokens]
        exact congrArg _ (hCongr (by simp [Nat.add_assoc]))
  · rintro ⟨space, hSpace, ⟨rfl, rfl⟩ | ⟨m, hm, hMisc, hmFits, _, _, ⟨⟨items, space'⟩, hWell, hFits, rfl, rfl⟩,
      rfl, rfl⟩⟩
    · exact ⟨⟨[], text⟩, ⟨fun _ h => (List.not_mem_nil h).elim, hSpace⟩,
        fun _ h => (List.not_mem_nil h).elim, rfl, rfl⟩
    · refine ⟨⟨(space, m) :: items, space'⟩,
        ⟨List.forall_mem_cons.mpr ⟨⟨hSpace, hm, hMisc⟩, hWell.items⟩, hWell.space⟩,
        List.forall_mem_cons.mpr ⟨hmFits, hFits⟩, ?_, ?_⟩
      · simp [Epilog.text, Epilog.itemsText]
      · rw [Epilog.tokens]
        exact congrArg _ (hCongr (by simp [Nat.add_assoc]))

/-- The root element and what follows it. -/
theorem element_nil_iff : element e recordSpace [] place text tokens ↔
    ∃ (root : Root) (ep : Epilog), root.WellFormed ∧ root.Fits e ∧ ep.WellFormed ∧
      (∀ item ∈ ep.items, item.2.Fits e) ∧ text = root.text ++ ep.text ∧
        tokens = root.tokens e recordSpace place ++
          Epilog.tokens e (place + e.size root.text) ep.items := by
  constructor
  · rintro ⟨tag, hTag, hFits, -, _, _, ⟨_, _, ⟨ep, hWell, hEpilogFits, rfl, rfl⟩, rfl, rfl⟩ |
      ⟨_, _, ⟨x, space, hx, hxFits, hSpace, _, _, ⟨ep, hWell, hEpilogFits, rfl, rfl⟩, rfl, rfl⟩, rfl, rfl⟩,
      rfl, rfl⟩
    · refine ⟨⟨tag, none⟩, ep, ⟨hTag, nofun⟩, ⟨hFits, nofun⟩, hWell, hEpilogFits, ?_, ?_⟩
      · simp [Root.text, Root.bodyText]
      · simp [Root.tokens, Root.text, Root.bodyText, Nat.add_assoc]
    · refine ⟨⟨tag, some (x, space)⟩, ep, ⟨hTag, ?_⟩, ⟨hFits, ?_⟩, hWell, hEpilogFits, ?_, ?_⟩
      · rintro _ _ ⟨⟩
        exact ⟨hx, hSpace⟩
      · rintro _ _ ⟨⟩
        exact hxFits
      · simp [Root.text, Root.bodyText]
      · simp [Root.tokens, Root.text, Root.bodyText, Nat.add_assoc]
  · rintro ⟨⟨tag, body⟩, ep, hRoot, hFits, hWell, hEpilogFits, rfl, rfl⟩
    refine ⟨tag, hRoot.tag, hFits.tag, Nat.zero_le _, ?_⟩
    cases body with
    | none =>
      refine ⟨_, _, .inl ⟨_, _, ⟨ep, hWell, hEpilogFits, rfl, rfl⟩, rfl, rfl⟩, ?_, ?_⟩
      · simp [Root.text, Root.bodyText]
      · simp [Root.tokens, Root.text, Root.bodyText, Nat.add_assoc]
    | some body =>
      obtain ⟨x, space⟩ := body
      obtain ⟨hx, hSpace⟩ := hRoot.body x space rfl
      refine ⟨_, _, .inr ⟨_, _, ⟨x, space, hx, hFits.body x space rfl, hSpace, _, _,
        ⟨ep, hWell, hEpilogFits, rfl, rfl⟩, rfl, rfl⟩, rfl, rfl⟩, ?_, ?_⟩
      · simp [Root.text, Root.bodyText]
      · simp [Root.tokens, Root.text, Root.bodyText, Nat.add_assoc]

/-- All that follows the first bracket of a document, but for its declaration. -/
theorem prolog_document_iff : prolog e recordSpace false place text tokens ↔
    ∃ d : Document, d.BodyWellFormed ∧ d.Fits e ∧
      text = prologText d.prolog ++ (d.root.text ++ d.epilog.text) ∧
        tokens = d.bodyTokens e recordSpace place := by
  unfold prolog Language.after
  simp only [element_nil_iff]
  constructor
  · rintro ⟨items, hItems, hFits, hSingle, _, _,
      ⟨root, ep, hRoot, hRootFits, hWell, hEpilogFits, rfl, rfl⟩, rfl, rfl⟩
    exact ⟨⟨.blank [], items, root, ep⟩, ⟨⟨hItems, hSingle⟩, hRoot, hWell⟩,
      ⟨hFits, hRootFits, hEpilogFits⟩, rfl, rfl⟩
  · rintro ⟨⟨opening, items, root, ep⟩, ⟨⟨hItems, hSingle⟩, hRoot, hWell⟩, ⟨hFits, hRootFits, hEpilogFits⟩,
      rfl, rfl⟩
    exact ⟨items, hItems, hFits, hSingle, _, _,
      ⟨root, ep, hRoot, hRootFits, hWell, hEpilogFits, rfl, rfl⟩, rfl, rfl⟩

end
end XmlIndex.Grammar
