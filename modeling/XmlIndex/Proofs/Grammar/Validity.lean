import XmlIndex.Proofs.Scan.References
import XmlIndex.Proofs.Scan.Targets

/-! # Valid characters

Well-formedness restricts each part of a document in its own terms. All of them leave out the
characters that XML does not have, so the whole text is of valid characters.
-/
namespace XmlIndex.Grammar
set_option autoImplicit false

variable {text rest : Chars} {ch : CodePoint}

theorem isValid_append : IsValid (text ++ rest) ↔ IsValid text ∧ IsValid rest :=
  List.forall_mem_append

theorem isValid_of_isName {ch : Nat} (hName : CodePoint.isName ch = true) : CodePoint.isValid ch = true := by
  have hEq {d : Nat} : (ch == d) = true ↔ ch = d := beq_iff_eq
  have hColon : CodePoint.colon = (0x3A : Nat) := rfl
  have hHyphen : CodePoint.hyphen = (0x2D : Nat) := rfl
  rw [CodePoint.isValid_iff]
  simp only [CodePoint.isName, CodePoint.isNameStart, CodePoint.isLetter, CodePoint.isDigit,
    Bool.or_eq_true, CodePoint.within_iff, hEq, hColon, hHyphen] at hName
  omega

theorem isValid_of_isLetter (hLetter : CodePoint.isLetter ch = true) : CodePoint.isValid ch = true :=
  isValid_of_isName (by simp [CodePoint.isName, CodePoint.isNameStart, hLetter])

theorem isValid_of_isAllowed {ch : Nat} (hAllowed : EncodingLabel.isAllowed ch = true) :
    CodePoint.isValid ch = true := by
  have hEq {d : Nat} : (ch == d) = true ↔ ch = d := beq_iff_eq
  have hHyphen : CodePoint.hyphen = (0x2D : Nat) := rfl
  rw [CodePoint.isValid_iff]
  simp only [EncodingLabel.isAllowed, CodePoint.isLetter, CodePoint.isDigit, Bool.or_eq_true,
    CodePoint.within_iff, hEq, hHyphen] at hAllowed
  omega

theorem isValid_space (hSpace : CodePoint.isSpace ch = true) : CodePoint.isValid ch = true := by
  rcases CodePoint.isSpace_iff.mp hSpace with rfl | rfl | rfl | rfl <;> decide

theorem IsSpace.isValid (hSpace : IsSpace text) : IsValid text :=
  fun ch hch => isValid_space (hSpace ch hch)

theorem IsName.isValid (hName : IsName text) : IsValid text := by
  cases text with
  | nil => exact isValid_nil
  | cons first rest =>
    exact isValid_cons.mpr ⟨isValid_of_isName (CodePoint.isName_of_isNameStart hName.1),
      fun ch hch => isValid_of_isName (hName.2 ch hch)⟩

theorem Denotes.isValid {c : CodePoint} (hBody : Denotes text c) : IsValid text :=
  fun ch hch => (Reference.isInner_of_denotes hBody ch hch).isValid

theorem Escaped.isValid {plain : CodePoint → Bool}
    (hPlain : ∀ ch, plain ch = true → CodePoint.isValid ch = true) (hEscaped : Escaped plain text) :
    IsValid text := by
  induction hEscaped with
  | nil => exact isValid_nil
  | char hChar hRest ih => exact isValid_cons.mpr ⟨hPlain _ hChar, ih⟩
  | reference hBody hRest ih =>
    simp only [isValid_cons, isValid_append]
    exact ⟨by decide, hBody.isValid, by decide, ih⟩

theorem isValid_of_isTextChar (hChar : isTextChar ch = true) : CodePoint.isValid ch = true :=
  (isTextChar_eq_true_iff.mp hChar).1

theorem isValid_of_isValueChar {quote : CodePoint} (hChar : isValueChar quote ch = true) :
    CodePoint.isValid ch = true :=
  isValid_of_isTextChar (isValueChar_eq_true_iff.mp hChar).1

theorem IsRun.isValid (hRun : IsRun text) : IsValid text :=
  hRun.escaped.isValid fun _ => isValid_of_isTextChar

theorem Attribute.Shaped.isValid {a : Attribute} (hShaped : a.Shaped) (hName : IsValid a.name)
    (hValue : IsValid a.binding.value) : IsValid a.text := by
  have hQuote : CodePoint.isValid a.binding.quote = true := by
    rcases hShaped.binding.quote with h | h <;> rw [h] <;> decide
  simp only [Attribute.text, Binding.text, Binding.lead, isValid_append, isValid_cons, isValid_nil]
  exact ⟨hShaped.space.isValid, hName,
    ⟨hShaped.binding.before.isValid, by decide, hShaped.binding.after.isValid, hQuote, trivial⟩,
    hValue, hQuote, trivial⟩

theorem Attribute.WellFormed.isValid {a : Attribute} (hWell : a.WellFormed) : IsValid a.text :=
  hWell.toShaped.isValid hWell.name.isValid (hWell.value.isValid fun _ => isValid_of_isValueChar)

theorem Tag.WellFormed.isValid {t : Tag} (hWell : t.WellFormed) : IsValid t.text := by
  have hAttributes : IsValid (Tag.attributeText t.attributes) := by
    intro ch hch
    obtain ⟨a, ha, hch⟩ := List.mem_flatMap.mp hch
    exact (hWell.attributes a ha).isValid ch hch
  simp only [Tag.text, isValid_append]
  exact ⟨hWell.name.isValid, hAttributes, hWell.space.isValid⟩

theorem isValid_endTag {name space : Chars} (hName : IsValid name) (hSpace : IsSpace space) :
    IsValid (endTag name space) := by
  simp only [endTag, isValid_cons, isValid_append, isValid_nil]
  exact ⟨by decide, hName, hSpace.isValid, by decide, trivial⟩

theorem Markup.WellFormed.isValid {m : Markup} (hWell : m.WellFormed) : IsValid m.inner := by
  cases m with
  | comment body =>
    simp only [Markup.inner, isValid_append]
    exact ⟨by unfold IsValid; decide, hWell.1, by unfold IsValid; decide⟩
  | «section» body =>
    simp only [Markup.inner, isValid_append, isValid_cons]
    exact ⟨by decide, by decide, by unfold IsValid; decide, hWell.1, by decide, by decide, by decide,
      isValid_nil⟩
  | instruction target data =>
    cases data with
    | none =>
      simp only [Markup.inner, isValid_append, isValid_cons]
      exact ⟨by decide, hWell.1.isValid, by decide, by decide, isValid_nil⟩
    | some data =>
      simp only [Markup.inner, isValid_append, isValid_cons]
      exact ⟨by decide, hWell.1.1.isValid, isValid_space hWell.2.1, hWell.2.2.1, by decide, by decide,
        isValid_nil⟩
  | documentType body =>
    simp only [Markup.inner, isValid_append, isValid_cons]
    exact ⟨by decide, by decide, by unfold IsValid; decide, hWell.1, by decide, isValid_nil⟩

theorem Content.WellFormed.isValid {x : Content} (hWell : x.WellFormed) : IsValid x.text := by
  induction x with
  | last run => exact IsRun.isValid hWell
  | markup run m rest ih =>
    obtain ⟨hRun, hm, -, hRest⟩ := hWell
    simp only [Content.text, isValid_append, isValid_cons]
    exact ⟨hRun.isValid, by decide, hm.isValid, ih hRest⟩
  | empty run tag rest ih =>
    obtain ⟨hRun, hTag, hRest⟩ := hWell
    simp only [Content.text, isValid_append, isValid_cons]
    exact ⟨hRun.isValid, by decide, hTag.isValid, by decide, by decide, ih hRest⟩
  | element run tag inside space rest ihInside ihRest =>
    obtain ⟨hRun, hTag, hInside, hSpace, hRest⟩ := hWell
    simp only [Content.text, isValid_append, isValid_cons]
    exact ⟨hRun.isValid, by decide, hTag.isValid, by decide, ihInside hInside, by decide,
      isValid_endTag hTag.name.isValid hSpace, ihRest hRest⟩

theorem Root.WellFormed.isValid {r : Root} (hWell : r.WellFormed) : IsValid r.text := by
  obtain ⟨tag, body⟩ := r
  simp only [Root.text, isValid_append]
  refine ⟨hWell.tag.isValid, ?_⟩
  cases body with
  | none =>
    simp only [Root.bodyText, isValid_cons]
    exact ⟨by decide, by decide, isValid_nil⟩
  | some body =>
    obtain ⟨inside, space⟩ := body
    obtain ⟨hInside, hSpace⟩ := hWell.body inside space rfl
    simp only [Root.bodyText, isValid_cons, isValid_append]
    exact ⟨by decide, hInside.isValid, by decide, isValid_endTag hWell.tag.name.isValid hSpace⟩

theorem Declaration.Part.isValid {name : String} {IsValue : Chars → Prop} {a : Attribute}
    (hPart : Declaration.Part name IsValue a) (hName : IsValid (CodePoint.ofText name))
    (hValue : ∀ value, IsValue value → IsValid value) : IsValid a.text :=
  hPart.toShaped.isValid (hPart.name ▸ hName) (hValue _ hPart.value)

theorem Declaration.isValid_optionalText {a? : Option Attribute}
    (hText : ∀ a, a? = some a → IsValid a.text) : IsValid (Declaration.optionalText a?) := by
  cases a? with
  | none => exact isValid_nil
  | some a => exact hText a rfl

theorem Declaration.isValid_of_isVersion {value : Chars} (hValue : Declaration.IsVersion value) :
    IsValid value := by
  rcases hValue with rfl | rfl <;> unfold IsValid <;> decide

theorem Declaration.isValid_of_isLabel {value : Chars} (hValue : Declaration.IsLabel value) :
    IsValid value := by
  cases value with
  | nil => exact isValid_nil
  | cons first rest =>
    exact isValid_cons.mpr
      ⟨isValid_of_isLetter hValue.1, fun ch hch => isValid_of_isAllowed (hValue.2 ch hch)⟩

theorem Declaration.Tolerated.isValid {d : Declaration} (hTolerated : d.Tolerated) : IsValid d.text := by
  have hLetters : IsValid d.letters := by
    have hAll : ∀ choices ∈ Instruction.reserved, ∀ ch ∈ choices, CodePoint.isValid ch = true := by
      decide
    intro ch hch
    obtain ⟨choices, hChoices, hMem⟩ := hTolerated.letters.exists_choices hch
    exact hAll choices hChoices ch hMem
  have hVersion : IsValid d.version.text :=
    hTolerated.version.isValid (by unfold IsValid; decide) fun _ => isValid_of_isVersion
  have hEncoding : IsValid (Declaration.optionalText d.encoding) :=
    isValid_optionalText fun a ha =>
      (hTolerated.encoding a ha).isValid (by unfold IsValid; decide) fun _ => isValid_of_isLabel
  have hStandalone : IsValid (Declaration.optionalText d.standalone) :=
    isValid_optionalText fun a ha =>
      (hTolerated.standalone a ha).isValid (by unfold IsValid; decide)
        fun _ hWord ch hch => isValid_of_isLetter (hWord ch hch)
  simp only [Declaration.text, isValid_append, isValid_cons]
  exact ⟨by decide, hLetters, hVersion, hEncoding, hStandalone, hTolerated.space.isValid, by decide,
    by decide, isValid_nil⟩

theorem Opening.Tolerated.isValid {o : Opening} (hTolerated : o.Tolerated) : IsValid o.text := by
  cases o with
  | blank space => exact IsSpace.isValid hTolerated
  | declaration d space =>
    simp only [Opening.text, isValid_cons, isValid_append]
    exact ⟨by decide, hTolerated.1.isValid, hTolerated.2.isValid⟩

theorem IsProlog.isValid {items : List (Markup × Chars)} (hProlog : IsProlog items) :
    IsValid (prologText items) := by
  intro ch hch
  obtain ⟨item, hItem, hch⟩ := List.mem_flatMap.mp hch
  obtain ⟨hWell, -, hSpace⟩ := hProlog.wellFormed item hItem
  have hText : IsValid (item.1.inner ++ (item.2 ++ [CodePoint.lessThan])) := by
    simp only [isValid_append]
    exact ⟨hWell.isValid, hSpace.isValid, by unfold IsValid; decide⟩
  exact hText ch hch

theorem Epilog.WellFormed.isValid {ep : Epilog} (hWell : ep.WellFormed) : IsValid ep.text := by
  simp only [Epilog.text, isValid_append]
  refine ⟨?_, hWell.space.isValid⟩
  intro ch hch
  obtain ⟨item, hItem, hch⟩ := List.mem_flatMap.mp hch
  obtain ⟨hSpace, hMarkup, -⟩ := hWell.items item hItem
  have hText : IsValid (item.1 ++ CodePoint.lessThan :: item.2.inner) := by
    simp only [isValid_append, isValid_cons]
    exact ⟨hSpace.isValid, by decide, hMarkup.isValid⟩
  exact hText ch hch

/-- Whatever is accepted consists of valid characters. -/
theorem Document.Tolerated.isValid {d : Document} (hTolerated : d.Tolerated) : IsValid d.text := by
  obtain ⟨hOpening, hBody⟩ := hTolerated
  simp only [Document.text, Document.upToRoot, isValid_append, isValid_cons]
  exact ⟨⟨hOpening.isValid, by decide, hBody.prolog.isValid, hBody.root.isValid⟩, hBody.epilog.isValid⟩

end XmlIndex.Grammar
