import XmlIndex.Proofs.Grammar.Zones
import XmlIndex.Proofs.Parse.Persistence
import XmlIndex.Proofs.Parse.Soundness

/-! # The reserved target

Wherever markup begins in a document that is parsed, before the root, in it or after it, it is no instruction
with the reserved target. The declaration alone begins with these letters, and the document begins with it.
-/
namespace XmlIndex
set_option autoImplicit false

namespace Grammar

def lowerCase (ch : Nat) : Nat :=
  if CodePoint.within 0x41 0x5A ch then ch + 0x20 else ch

def targetOf (text : Chars) : Chars :=
  text.takeWhile CodePoint.isName

def BeginsReserved : Chars → Prop
  | [] => False
  | ch :: rest => ch = CodePoint.question ∧ (targetOf rest).map lowerCase = CodePoint.ofText "xml"

theorem lowerCase_eq_iff {ch : Nat} :
    (lowerCase ch = 0x78 ↔ ch ∈ [(0x78 : Nat), 0x58]) ∧ (lowerCase ch = 0x6D ↔ ch ∈ [(0x6D : Nat), 0x4D]) ∧
      (lowerCase ch = 0x6C ↔ ch ∈ [(0x6C : Nat), 0x4C]) := by
  simp only [lowerCase, CodePoint.within_iff, List.mem_cons, List.not_mem_nil, or_false]
  split <;> omega

/-- Letters of either case are those that are the reserved ones in lower case. -/
theorem matches_reserved_iff {letters : Chars} :
    Matches Instruction.reserved letters ↔ letters.map lowerCase = CodePoint.ofText "xml" := by
  have hText : CodePoint.ofText "xml" = [0x78, 0x6D, 0x6C] := by decide
  rw [hText]
  rcases letters with _ | ⟨x, _ | ⟨m, _ | ⟨l, _ | ⟨ch, rest⟩⟩⟩⟩
  all_goals
    simp only [Instruction.reserved, Matches, List.map_cons, List.map_nil, List.cons.injEq, lowerCase_eq_iff.1, lowerCase_eq_iff.2.1,
      lowerCase_eq_iff.2.2, reduceCtorEq, and_false, and_true]

variable {tail : Chars}

theorem not_beginsReserved_cons {ch : CodePoint} (hOther : ch ≠ CodePoint.question) : ¬BeginsReserved (ch :: tail) :=
  fun hReserved => hOther hReserved.1

theorem targetOf_append {target : Chars} {ch : CodePoint} (hTarget : IsName target)
    (hLast : CodePoint.isName ch = false) : targetOf (target ++ ch :: tail) = target := by
  rw [targetOf, List.takeWhile_append_of_pos hTarget.forall_isName, List.takeWhile_cons_of_neg (by simp [hLast]),
    List.append_nil]

theorem Markup.IsTarget.not_beginsReserved {target : Chars} {ch : CodePoint} (hTarget : Markup.IsTarget target)
    (hLast : CodePoint.isName ch = false) : ¬BeginsReserved (CodePoint.question :: (target ++ ch :: tail)) := by
  rintro ⟨-, hLetters⟩
  rw [targetOf_append hTarget.1 hLast] at hLetters
  exact hTarget.2 (matches_reserved_iff.mpr hLetters)

theorem Markup.WellFormed.not_beginsReserved {m : Markup} (hWell : m.WellFormed) : ¬BeginsReserved (m.inner ++ tail) := by
  cases m with
  | instruction target data? =>
    cases data? with
    | none =>
      have hTarget : Markup.IsTarget target := hWell
      have hText : (Markup.instruction target none).inner ++ tail =
          CodePoint.question :: (target ++ CodePoint.question :: CodePoint.greaterThan :: tail) := by
        simp [Markup.inner]
      rw [hText]
      exact hTarget.not_beginsReserved (by decide)
    | some data =>
      obtain ⟨space, data⟩ := data
      have hText : (Markup.instruction target (some (space, data))).inner ++ tail =
          CodePoint.question :: (target ++ space :: (data ++ CodePoint.question :: CodePoint.greaterThan :: tail)) := by
        simp [Markup.inner]
      rw [hText]
      exact hWell.1.not_beginsReserved (CodePoint.isName_of_isSpace hWell.2.1)
  | comment body | «section» body | documentType body => exact not_beginsReserved_cons (by decide)

theorem IsName.not_beginsReserved {name : Chars} (hName : IsName name) : ¬BeginsReserved (name ++ tail) := by
  cases name with
  | nil => exact hName.elim
  | cons first rest =>
    refine not_beginsReserved_cons ?_
    rintro rfl
    exact hName.question_notMem List.mem_cons_self

def NoneReserved (text : Chars) : Prop :=
  AllMarkup (fun rest => ¬BeginsReserved rest) text

theorem NoneReserved.append_run {run : Chars} (hRun : CodePoint.lessThan ∉ run) (hTail : NoneReserved tail) :
    NoneReserved (run ++ tail) :=
  AllMarkup.append_run hRun hTail

theorem NoneReserved.cons_markup {m : Markup} (hWell : m.WellFormed) (hTail : NoneReserved tail) :
    NoneReserved (CodePoint.lessThan :: (m.inner ++ tail)) :=
  AllMarkup.cons_markup hWell.passes hWell.not_beginsReserved hTail

theorem Tag.WellFormed.not_beginsReserved {t : Tag} (hWell : t.WellFormed) : ¬BeginsReserved (t.text ++ tail) := by
  rw [Tag.text, List.append_assoc]
  exact hWell.name.not_beginsReserved

theorem NoneReserved.cons_tag {t : Tag} (hWell : t.WellFormed) (hTail : NoneReserved tail) :
    NoneReserved (CodePoint.lessThan :: (t.text ++ CodePoint.greaterThan :: tail)) := by
  rw [List.append_cons]
  refine AllMarkup.cons_markup hWell.passes_greaterThan ?_ hTail
  rw [List.append_assoc]
  exact hWell.not_beginsReserved

theorem NoneReserved.cons_emptyTag {t : Tag} (hWell : t.WellFormed) (hTail : NoneReserved tail) :
    NoneReserved (CodePoint.lessThan :: (t.text ++ CodePoint.slash :: CodePoint.greaterThan :: tail)) := by
  have hText : t.text ++ CodePoint.slash :: CodePoint.greaterThan :: tail =
      (t.text ++ [CodePoint.slash, CodePoint.greaterThan]) ++ tail := by simp
  rw [hText]
  refine AllMarkup.cons_markup hWell.passes_slash ?_ hTail
  rw [List.append_assoc]
  exact hWell.not_beginsReserved

theorem NoneReserved.cons_endTag {name space : Chars} (hName : IsName name) (hSpace : IsSpace space)
    (hTail : NoneReserved tail) : NoneReserved (CodePoint.lessThan :: (endTag name space ++ tail)) :=
  AllMarkup.cons_markup (passes_endTag hName hSpace) (not_beginsReserved_cons (by decide)) hTail

theorem Content.WellFormed.noneReserved {x : Content} (hWell : x.WellFormed) (hTail : NoneReserved tail) :
    NoneReserved (x.text ++ tail) := by
  induction x generalizing tail with
  | last run => exact .append_run hWell.lessThan_notMem hTail
  | markup run m rest ih =>
    obtain ⟨hRun, hm, -, hRest⟩ := hWell
    simp only [Content.text, List.append_assoc, List.cons_append]
    exact .append_run hRun.lessThan_notMem (.cons_markup hm (ih hRest hTail))
  | empty run tag rest ih =>
    obtain ⟨hRun, hTag, hRest⟩ := hWell
    simp only [Content.text, List.append_assoc, List.cons_append]
    exact .append_run hRun.lessThan_notMem (.cons_emptyTag hTag (ih hRest hTail))
  | element run tag inside space rest ihInside ihRest =>
    obtain ⟨hRun, hTag, hInside, hSpace, hRest⟩ := hWell
    simp only [Content.text, List.append_assoc, List.cons_append]
    exact .append_run hRun.lessThan_notMem <| .cons_tag hTag <| ihInside hInside <|
      .cons_endTag hTag.name hSpace <| ihRest hRest hTail

theorem Root.WellFormed.noneReserved {r : Root} (hWell : r.WellFormed) (hTail : NoneReserved tail) :
    NoneReserved (CodePoint.lessThan :: (r.text ++ tail)) := by
  obtain ⟨tag, body⟩ := r
  cases body with
  | none =>
    simp only [Root.text, Root.bodyText, List.append_assoc, List.cons_append, List.nil_append]
    exact .cons_emptyTag hWell.tag hTail
  | some body =>
    obtain ⟨inside, space⟩ := body
    obtain ⟨hInside, hSpace⟩ := hWell.body inside space rfl
    simp only [Root.text, Root.bodyText, List.append_assoc, List.cons_append]
    exact .cons_tag hWell.tag <| hInside.noneReserved <| .cons_endTag hWell.tag.name hSpace hTail

theorem Epilog.WellFormed.noneReserved {ep : Epilog} (hWell : ep.WellFormed) : NoneReserved ep.text := by
  obtain ⟨items, space⟩ := ep
  have hItems := hWell.items
  rw [Epilog.text]
  dsimp only at hItems ⊢
  induction items with
  | nil => exact allMarkup_of_notMem hWell.space.lessThan_notMem
  | cons item items ih =>
    obtain ⟨hItem, hRest⟩ := List.forall_mem_cons.mp hItems
    simp only [Epilog.itemsText, List.flatMap_cons, List.append_assoc, List.cons_append]
    exact .append_run hItem.1.lessThan_notMem (.cons_markup hItem.2.1 (ih ⟨hRest, hWell.space⟩ hRest))

theorem noneReserved_prolog {items : List (Markup × Chars)}
    (hItems : ∀ item ∈ items, item.1.WellFormed ∧ item.1.isSection = false ∧ IsSpace item.2)
    (hTail : NoneReserved (CodePoint.lessThan :: tail)) :
    NoneReserved (CodePoint.lessThan :: (prologText items ++ tail)) := by
  induction items with
  | nil => exact hTail
  | cons item items ih =>
    obtain ⟨hItem, hRest⟩ := List.forall_mem_cons.mp hItems
    simp only [prologText, List.flatMap_cons, List.append_assoc, List.cons_append, List.nil_append]
    exact .cons_markup hItem.1 (.append_run hItem.2.2.lessThan_notMem (ih hRest))

/-- The markup after the opening. -/
theorem Document.BodyWellFormed.noneReserved {d : Document} (hBody : d.BodyWellFormed) :
    NoneReserved (CodePoint.lessThan :: (prologText d.prolog ++ (d.root.text ++ d.epilog.text))) :=
  noneReserved_prolog hBody.prolog.wellFormed (hBody.root.noneReserved hBody.epilog.noneReserved)

/-- Only the declaration begins with the reserved target, and only at the start of the document. -/
theorem Document.Tolerated.exists_declaration_of_beginsReserved {d : Document} {before rest : Chars}
    (hTolerated : d.Tolerated) (hText : d.text = before ++ CodePoint.lessThan :: rest)
    (hOutside : Zone.text.after before = .text) (hReserved : BeginsReserved rest) :
    before = [] ∧ ∃ decl : Declaration, decl.Tolerated ∧ decl.text <+: rest := by
  have hBody := hTolerated.2.noneReserved
  cases hOpening : d.opening with
  | blank space =>
    have hSpace : IsSpace space := (hOpening ▸ hTolerated.1 : (Opening.blank space).Tolerated)
    rw [d.text_eq, hOpening, Opening.text, List.append_assoc] at hText
    exact absurd hReserved (hBody.append_run hSpace.lessThan_notMem before rest hText hOutside)
  | declaration decl space =>
    have hDeclared : decl.Tolerated ∧ IsSpace space :=
      (hOpening ▸ hTolerated.1 : (Opening.declaration decl space).Tolerated)
    have hSplit : d.text = CodePoint.lessThan :: (decl.text ++ (space ++
        CodePoint.lessThan :: (prologText d.prolog ++ (d.root.text ++ d.epilog.text)))) := by
      rw [d.text_eq, hOpening]
      simp [Opening.text]
    rw [hSplit] at hText
    obtain ⟨hStart, rfl⟩ | ⟨others, hOthers, hThere⟩ := hDeclared.1.passes.markup_cases hText hOutside
    · exact ⟨hStart, decl, hDeclared.1, List.prefix_append _ _⟩
    · exact absurd hReserved (hBody.append_run hDeclared.2.lessThan_notMem others rest hOthers hThere)

end Grammar

open Grammar

section
variable {options : Options} {namespaces : Bool} {doc : ByteArray} {offset length : Nat} {x : Index}

/-- In whatever is parsed, markup with the reserved target is the declaration, and nothing stands before it. -/
theorem reserved_of_parseRange (hOk : parseRange options namespaces doc offset length = .ok x) :
    ∀ before after, (x.encoding.charactersOf doc offset length).1 =
        before ++ CodePoint.lessThan :: CodePoint.question :: after →
      Zone.text.after before = .text → (targetOf after).map lowerCase = CodePoint.ofText "xml" →
      before = [] ∧ ∃ decl : Declaration, decl.Tolerated ∧ decl.text <+: CodePoint.question :: after := by
  intro before after hText hOutside hTarget
  obtain ⟨d, hTolerated, hReads, hEnds⟩ := exists_document_of_parseRange hOk
  rw [charactersOf_of_reads hReads hEnds] at hText
  exact hTolerated.exists_declaration_of_beginsReserved hText hOutside ⟨rfl, hTarget⟩

end

/-- `<?xMl version='1.0'?><a><?xml-b?></a>` -/
def mixedCase : ByteArray :=
  "<?xMl version='1.0'?><a><?xml-b?></a>".toUTF8

def mixedCaseIndex : Index where
  buffer := mixedCase
  docOffset := 0
  docLength := 37
  encoding := .utf8
  namespaces := false
  maxDepth := 0
  root := some 3
  tokens := #[⟨.document, -1, 0, 0⟩, ⟨.declarationName, -1, 6, 7⟩, ⟨.declarationValue, -1, 15, 3⟩,
    ⟨.startTag, 0, 22, 1⟩, ⟨.instructionTarget, 0, 26, 5⟩, ⟨.instructionData, 0, 31, 0⟩]
  cache := ⟨#[#[], #[]], #[]⟩

theorem parseRange_mixedCase : parseRange {} false mixedCase 0 37 = .ok mixedCaseIndex :=
  @parseRange_of_runWithin _ _ _ _ _ 16 ⟨.utf8, .none⟩ _ (by decide) rfl (by decide +kernel)

theorem charactersOf_mixedCase : (Encoding.utf8.charactersOf mixedCase 0 37).1 = CodePoint.lessThan ::
    CodePoint.question :: CodePoint.ofText "xMl version='1.0'?><a><?xml-b?></a>" := by
  with_unfolding_all rfl

/-- The declaration of a document that is parsed need not be in lower case. -/
theorem parses_mixedCase : ∃ x after, parseRange {} false mixedCase 0 37 = .ok x ∧
    (x.encoding.charactersOf mixedCase 0 37).1 = CodePoint.lessThan :: CodePoint.question :: after ∧
    (targetOf after).map lowerCase = CodePoint.ofText "xml" ∧ targetOf after ≠ CodePoint.ofText "xml" :=
  ⟨_, _, parseRange_mixedCase, charactersOf_mixedCase, by decide, by decide⟩

theorem reserved_of_mixedCase : ∃ x, parseRange {} false mixedCase 0 37 = .ok x ∧ ∃ decl : Declaration,
    decl.Tolerated ∧ decl.text <+: CodePoint.question :: CodePoint.ofText "xMl version='1.0'?><a><?xml-b?></a>" :=
  ⟨_, parseRange_mixedCase,
    (reserved_of_parseRange parseRange_mixedCase [] _ charactersOf_mixedCase rfl (by decide)).2⟩

end XmlIndex
