import XmlIndex.Proofs.Grammar.Validity
import XmlIndex.Proofs.Text.Rendering

/-! # Where markup begins

A bracket begins a piece of markup unless it stands within another one, and what a place stands within can be
told from the text before it alone. Each piece of a document's tree leads out of markup at its end, not before.
-/
namespace XmlIndex
set_option autoImplicit false

namespace Grammar

/-- What a place stands within: nothing but text, or a piece of markup. -/
inductive Zone where
  | text
  | opened
  | bang
  | hyphen
  | upTo (terminator seen : Chars)
  /-- The brackets that are open inside. -/
  | documentType (depth : Nat)
  | tag
  | quoted (quote : CodePoint)
  deriving DecidableEq

def Zone.next : Zone → CodePoint → Zone
  | .text, ch => if ch = CodePoint.lessThan then .opened else .text
  | .opened, ch =>
    if ch = CodePoint.question then .upTo Instruction.terminator []
    else if ch = CodePoint.bang then .bang
    else .tag
  | .bang, ch =>
    if ch = CodePoint.hyphen then .hyphen
    else if ch = CodePoint.leftBracket then .upTo CharacterSection.terminator []
    else .documentType 0
  | .hyphen, _ => .upTo [CodePoint.hyphen, CodePoint.hyphen, CodePoint.greaterThan] []
  | .upTo terminator seen, ch =>
    if terminator <:+ seen ++ [ch] then .text else .upTo terminator (seen ++ [ch])
  | .documentType depth, ch =>
    if ch = CodePoint.greaterThan then if depth = 0 then .text else .documentType (depth - 1)
    else if ch = CodePoint.lessThan then .documentType (depth + 1)
    else .documentType depth
  | .tag, ch =>
    if ch = CodePoint.greaterThan then .text
    else if ch = CodePoint.doubleQuote ∨ ch = CodePoint.singleQuote then .quoted ch
    else .tag
  | .quoted quote, ch => if ch = quote then .tag else .quoted quote

def Zone.after (z : Zone) (text : Chars) : Zone :=
  text.foldl next z

def AllMarkup (P : Chars → Prop) (text : Chars) : Prop :=
  ∀ before rest, text = before ++ CodePoint.lessThan :: rest → Zone.text.after before = .text → P rest

/-- The text leads from one zone to another, and out of markup at its end only. -/
def Passes : Zone → Chars → Zone → Prop
  | z, [], z' => z = z'
  | z, ch :: rest, z' => z ≠ .text ∧ Passes (z.next ch) rest z'

section
variable {z z' z'' : Zone} {text rest piece tail run : Chars} {ch : CodePoint} {P : Chars → Prop}

theorem Passes.append (hText : Passes z text z') (hRest : Passes z' rest z'') : Passes z (text ++ rest) z'' := by
  induction text generalizing z with
  | nil => exact (show z = z' from hText) ▸ hRest
  | cons ch text ih => exact ⟨hText.1, ih hText.2⟩

theorem Passes.cons (hInside : z ≠ .text) (hNext : z.next ch = z') (hRest : Passes z' rest z'') :
    Passes z (ch :: rest) z'' :=
  ⟨hInside, hNext ▸ hRest⟩

theorem passes_of_stays (hInside : z ≠ .text) (hStays : ∀ ch ∈ text, z.next ch = z) : Passes z text z := by
  induction text with
  | nil => rfl
  | cons ch text ih =>
    obtain ⟨hFirst, hRest⟩ := List.forall_mem_cons.mp hStays
    exact .cons hInside hFirst (ih hRest)

/-- A place outside markup is not within a piece of it. -/
theorem Passes.exists_append {before : Chars} (hPiece : Passes z piece .text)
    (hText : piece ++ tail = before ++ CodePoint.lessThan :: rest) (hOutside : z.after before = .text) :
    ∃ others, before = piece ++ others ∧ tail = others ++ CodePoint.lessThan :: rest ∧
      Zone.text.after others = .text := by
  induction piece generalizing z before with
  | nil =>
    obtain rfl : z = .text := hPiece
    exact ⟨before, rfl, hText, hOutside⟩
  | cons ch piece ih =>
    cases before with
    | nil => exact absurd hOutside hPiece.1
    | cons d before =>
      obtain ⟨rfl, hRest⟩ := List.cons.inj hText
      obtain ⟨others, rfl, hTail, hOthers⟩ := ih hPiece.2 hRest hOutside
      exact ⟨others, rfl, hTail, hOthers⟩

/-- Markup begins at its own bracket, and then after its end. -/
theorem Passes.markup_cases {before : Chars} (hPiece : Passes .opened piece .text)
    (hText : CodePoint.lessThan :: (piece ++ tail) = before ++ CodePoint.lessThan :: rest)
    (hOutside : Zone.text.after before = .text) :
    before = [] ∧ rest = piece ++ tail ∨
      ∃ others, tail = others ++ CodePoint.lessThan :: rest ∧ Zone.text.after others = .text := by
  cases before with
  | nil => exact .inl ⟨rfl, (List.cons.inj hText).2.symm⟩
  | cons d before =>
    obtain ⟨rfl, hRest⟩ := List.cons.inj hText
    obtain ⟨others, -, hTail, hOthers⟩ := hPiece.exists_append hRest hOutside
    exact .inr ⟨others, hTail, hOthers⟩

theorem AllMarkup.cons_markup (hPiece : Passes .opened piece .text) (hFirst : P (piece ++ tail))
    (hTail : AllMarkup P tail) : AllMarkup P (CodePoint.lessThan :: (piece ++ tail)) := by
  intro before rest hText hOutside
  obtain ⟨-, rfl⟩ | ⟨others, hOthers, hThere⟩ := hPiece.markup_cases hText hOutside
  · exact hFirst
  · exact hTail others rest hOthers hThere

theorem AllMarkup.append_run (hRun : CodePoint.lessThan ∉ run) (hTail : AllMarkup P tail) :
    AllMarkup P (run ++ tail) := by
  induction run with
  | nil => exact hTail
  | cons ch run ih =>
    rw [List.mem_cons, not_or] at hRun
    intro before rest hText hOutside
    cases before with
    | nil => exact absurd (List.cons.inj hText).1.symm hRun.1
    | cons d before =>
      obtain ⟨rfl, hRest⟩ := List.cons.inj hText
      have hNext : Zone.text.next ch = .text := if_neg fun h => hRun.1 h.symm
      have hThere : (Zone.text.next ch).after before = .text := hOutside
      rw [hNext] at hThere
      exact ih hRun.2 before rest hRest hThere

theorem allMarkup_of_notMem (hRun : CodePoint.lessThan ∉ run) : AllMarkup P run := by
  rintro before rest rfl
  exact absurd (List.mem_append_right before List.mem_cons_self) hRun

end

section
variable {terminator body lead rest seen : Chars} {first : CodePoint} {depth : Nat}

theorem passes_upTo_of_seen (hFirst : EndsFirst terminator body) (hSeen : seen ++ rest = body ++ terminator)
    (hNonempty : rest ≠ []) : Passes (.upTo terminator seen) rest .text := by
  induction rest generalizing seen with
  | nil => exact absurd rfl hNonempty
  | cons ch rest ih =>
    have hSplit : (seen ++ [ch]) ++ rest = body ++ terminator := by simpa using hSeen
    cases rest with
    | nil =>
      refine .cons Zone.noConfusion (if_pos ?_) rfl
      rw [List.append_nil] at hSplit
      exact hSplit ▸ List.suffix_append body terminator
    | cons d rest =>
      refine .cons Zone.noConfusion (if_neg fun hEnd => hFirst ?_) (ih hSplit (List.cons_ne_nil d rest))
      -- What has been seen ends before the last character of the terminator.
      have hShort : seen ++ [ch] <+: body ++ terminator.dropLast := by
        have hWhole : seen ++ [ch] <+: body ++ terminator := hSplit ▸ List.prefix_append _ _
        refine List.prefix_of_prefix_length_le hWhole
          ((List.prefix_append_right_inj body).mpr (List.dropLast_prefix terminator)) ?_
        have hLength := congrArg List.length hSplit
        simp only [List.length_append, List.length_cons, List.length_dropLast] at hLength ⊢
        omega
      exact hEnd.isInfix.trans hShort.isInfix

theorem passes_upTo (hFirst : EndsFirst terminator body) (hNonempty : terminator ≠ []) :
    Passes (.upTo terminator []) (body ++ terminator) .text := by
  refine passes_upTo_of_seen hFirst rfl fun hNil => hNonempty ?_
  exact (List.append_eq_nil_iff.mp hNil).2

theorem endsFirst_append (hAbsent : first ∉ lead) (hFirst : EndsFirst (first :: terminator) body) :
    EndsFirst (first :: terminator) (lead ++ body) := by
  rwa [EndsFirst, List.append_assoc, infix_append_iff_of_notMem hAbsent]

theorem endsFirst_of_notMem (hAbsent : first ∉ body) : EndsFirst (first :: terminator) body := by
  have hEnds := endsFirst_append hAbsent (endsFirst_nil (List.cons_ne_nil first terminator))
  rwa [List.append_nil] at hEnds

/-- Where two hyphens come first, they come first with the bracket after them. -/
theorem endsFirst_hyphens (hFirst : EndsFirst [CodePoint.hyphen, CodePoint.hyphen] body) :
    EndsFirst [CodePoint.hyphen, CodePoint.hyphen, CodePoint.greaterThan] body := by
  rintro ⟨before, after, hText⟩
  rcases List.eq_nil_or_concat after with rfl | ⟨others, ch, rfl⟩
  · have hLast := congrArg List.getLast? hText
    simp at hLast
  · refine hFirst ⟨before, CodePoint.greaterThan :: others, ?_⟩
    have hConcat : (before ++ [CodePoint.hyphen, CodePoint.hyphen, CodePoint.greaterThan] ++ others) ++ [ch] =
        (body ++ [CodePoint.hyphen]) ++ [CodePoint.hyphen] := by simpa using hText
    simpa using (List.append_inj' hConcat rfl).1

theorem passes_documentType (hCloses : DocumentType.Closes depth body) :
    Passes (.documentType depth) (body ++ [CodePoint.greaterThan]) .text := by
  induction body generalizing depth with
  | nil =>
    obtain rfl := DocumentType.closes_nil.mp hCloses
    exact .cons Zone.noConfusion rfl rfl
  | cons ch body ih =>
    by_cases hGreater : ch = CodePoint.greaterThan
    · subst hGreater
      obtain ⟨hOpened, hRest⟩ := DocumentType.closes_greaterThan_cons.mp hCloses
      refine .cons Zone.noConfusion ?_ (ih hRest)
      exact if_neg (Nat.pos_iff_ne_zero.mp hOpened)
    · by_cases hLess : ch = CodePoint.lessThan
      · subst hLess
        exact .cons Zone.noConfusion rfl (ih (DocumentType.closes_lessThan_cons.mp hCloses))
      · refine .cons Zone.noConfusion ?_ (ih ((DocumentType.closes_cons_of_ne hGreater hLess).mp hCloses))
        exact (if_neg hGreater).trans (if_neg hLess)

end

section
variable {text body value : Chars} {ch c quote : CodePoint}

def isReferenceChar (ch : CodePoint) : Bool :=
  CodePoint.isLetter ch || CodePoint.isDigit ch || ch == CodePoint.hash

theorem isReferenceChar_of_hexDigit? {ch digit : Nat} (hDigit : Reference.hexDigit? ch = some digit) :
    isReferenceChar ch = true := by
  have hRange : 0x61 ≤ ch ∧ ch ≤ 0x7A ∨ 0x41 ≤ ch ∧ ch ≤ 0x5A ∨ 0x30 ≤ ch ∧ ch ≤ 0x39 := by
    simp only [Reference.hexDigit?, CodePoint.within_iff] at hDigit
    repeat' split at hDigit
    all_goals first
      | omega
      | cases hDigit
  simp only [isReferenceChar, CodePoint.isLetter, CodePoint.isDigit, Bool.or_eq_true, CodePoint.within_iff, or_assoc]
  exact hRange.imp_right (Or.imp_right .inl)

theorem isReferenceChar_of_entries : (EntityName.table.all fun entry =>
    entry.1.toList.all fun ch => isReferenceChar ch.toNat) = true := by
  decide +kernel

theorem isReferenceChar_of_codePoint? (hFound : EntityName.codePoint? (String.ofList (body.map Char.ofNat)) = some c) :
    ∀ ch ∈ body, isReferenceChar ch = true := by
  intro ch hch
  obtain ⟨before, after, hTable, -⟩ := List.lookup_eq_some_iff.mp hFound
  have hEntry := List.all_eq_true.mp isReferenceChar_of_entries (String.ofList (body.map Char.ofNat), c)
    (hTable ▸ List.mem_append_right _ List.mem_cons_self)
  rw [String.toList_ofList, List.all_eq_true] at hEntry
  have hValid := ((EntityName.chars_of_codePoint? hFound).2 ch hch).1.isValid
  rw [← toNat_ofNat_of_isScalar (CodePoint.isScalar_of_isValid hValid)]
  exact hEntry _ (List.mem_map_of_mem hch)

theorem Denotes.isReferenceChar (hBody : Denotes body c) : ∀ ch ∈ body, isReferenceChar ch = true := by
  cases hBody with
  | decimal hDigits _ =>
    exact List.forall_mem_cons.mpr
      ⟨rfl, Reference.forall_of_numeral
        (fun _ _ hDigit => isReferenceChar_of_hexDigit? (Reference.hexDigit?_of_decimalDigit? hDigit)) hDigits⟩
  | hex hDigits _ =>
    exact List.forall_mem_cons.mpr ⟨rfl, List.forall_mem_cons.mpr
      ⟨rfl, Reference.forall_of_numeral (fun _ _ => isReferenceChar_of_hexDigit?) hDigits⟩⟩
  | entity hName => exact isReferenceChar_of_codePoint? hName

theorem Escaped.lessThan_notMem (hRun : Escaped isTextChar text) : CodePoint.lessThan ∉ text := by
  induction hRun with
  | nil => exact List.not_mem_nil
  | char hChar hRest ih =>
    rw [List.mem_cons, not_or]
    exact ⟨fun h => (isTextChar_eq_true_iff.mp hChar).2.1 h.symm, ih⟩
  | reference hBody hRest ih =>
    simp only [List.mem_cons, List.mem_append, not_or]
    exact ⟨by decide, fun hMem => (Reference.isInner_of_denotes hBody _ hMem).notMem (by decide), by decide, ih⟩

theorem IsRun.lessThan_notMem (hRun : IsRun text) : CodePoint.lessThan ∉ text :=
  hRun.escaped.lessThan_notMem

theorem IsSpace.lessThan_notMem (hSpace : IsSpace text) : CodePoint.lessThan ∉ text := by
  intro hMem
  cases hSpace _ hMem

/-- A value ends at the first quote like the one it began with. -/
theorem Escaped.quote_notMem (hQuote : quote = CodePoint.doubleQuote ∨ quote = CodePoint.singleQuote)
    (hValue : Escaped (isValueChar quote) value) : quote ∉ value := by
  have hOther : Grammar.isReferenceChar quote = false ∧ quote ≠ CodePoint.ampersand ∧ quote ≠ CodePoint.semicolon := by
    rcases hQuote with rfl | rfl <;> decide
  induction hValue with
  | nil => exact List.not_mem_nil
  | char hChar hRest ih =>
    rw [List.mem_cons, not_or]
    exact ⟨fun h => (isValueChar_eq_true_iff.mp hChar).2 h.symm, ih⟩
  | @reference body rest c hBody hRest ih =>
    simp only [List.mem_cons, List.mem_append, not_or]
    refine ⟨hOther.2.1, fun hMem => ?_, hOther.2.2, ih⟩
    rw [hBody.isReferenceChar quote hMem] at hOther
    cases hOther.1

end

section
variable {text name space : Chars} {ch quote : CodePoint}

theorem passes_tag (hOther : ∀ ch ∈ text, ch ∉ [CodePoint.greaterThan, CodePoint.doubleQuote, CodePoint.singleQuote]) :
    Passes .tag text .tag := by
  refine passes_of_stays Zone.noConfusion fun ch hch => ?_
  have hPlain := hOther ch hch
  simp only [List.mem_cons, List.not_mem_nil, or_false, not_or] at hPlain
  exact (if_neg hPlain.1).trans (if_neg (not_or.mpr hPlain.2))

theorem notMem_of_isName {others : Chars} (hOthers : ∀ d ∈ others, CodePoint.isName d = false)
    (hName : CodePoint.isName ch = true) : ch ∉ others := by
  intro hMem
  rw [hOthers ch hMem] at hName
  cases hName

theorem notMem_of_isSpace {others : Chars} (hOthers : ∀ d ∈ others, CodePoint.isSpace d = false)
    (hSpace : CodePoint.isSpace ch = true) : ch ∉ others := by
  intro hMem
  rw [hOthers ch hMem] at hSpace
  cases hSpace

theorem IsName.forall_isName (hName : IsName name) : ∀ ch ∈ name, CodePoint.isName ch = true := by
  cases name with
  | nil => exact nofun
  | cons first rest =>
    exact List.forall_mem_cons.mpr ⟨CodePoint.isName_of_isNameStart hName.1, hName.2⟩

theorem IsName.passes (hName : IsName name) : Passes .tag name .tag :=
  passes_tag fun ch hch => notMem_of_isName (by decide) (hName.forall_isName ch hch)

theorem IsSpace.passes (hSpace : IsSpace space) : Passes .tag space .tag :=
  passes_tag fun ch hch => notMem_of_isSpace (by decide) (hSpace ch hch)

theorem passes_quoted {value : Chars} (hQuote : quote = CodePoint.doubleQuote ∨ quote = CodePoint.singleQuote)
    (hValue : quote ∉ value) : Passes .tag (quote :: (value ++ [quote])) .tag := by
  have hOpen : Zone.tag.next quote = .quoted quote := by
    rcases hQuote with rfl | rfl <;> rfl
  have hInside : Passes (.quoted quote) value (.quoted quote) := by
    refine passes_of_stays Zone.noConfusion fun ch hch => if_neg ?_
    rintro rfl
    exact hValue hch
  exact .cons Zone.noConfusion hOpen (hInside.append (.cons Zone.noConfusion (if_pos rfl) rfl))

theorem Attribute.WellFormed.passes {a : Attribute} (hWell : a.WellFormed) : Passes .tag a.text .tag := by
  have hText : a.text = a.space ++ (a.name ++ (a.binding.before ++ ([CodePoint.equals] ++
      (a.binding.after ++ a.binding.quote :: (a.binding.value ++ [a.binding.quote]))))) := by
    simp [Attribute.text, Binding.text, Binding.lead]
  rw [hText]
  exact hWell.space.passes.append <| hWell.name.passes.append <| hWell.binding.before.passes.append <|
    (passes_tag (by decide)).append <| hWell.binding.after.passes.append <|
      passes_quoted hWell.binding.quote (hWell.value.quote_notMem hWell.binding.quote)

theorem passes_attributeText {attributes : List Attribute} (hWell : ∀ a ∈ attributes, a.WellFormed) :
    Passes .tag (Tag.attributeText attributes) .tag := by
  induction attributes with
  | nil => rfl
  | cons a attributes ih =>
    obtain ⟨ha, hRest⟩ := List.forall_mem_cons.mp hWell
    exact ha.passes.append (ih hRest)

theorem IsName.passes_opened (hName : IsName name) : Passes .opened name .tag := by
  cases name with
  | nil => exact hName.elim
  | cons first rest =>
    have hOther := @notMem_of_isName first [CodePoint.question, CodePoint.bang] (by decide)
      (CodePoint.isName_of_isNameStart hName.1)
    simp only [List.mem_cons, List.not_mem_nil, or_false, not_or] at hOther
    refine .cons Zone.noConfusion ((if_neg hOther.1).trans (if_neg hOther.2)) ?_
    exact passes_tag fun ch hch => notMem_of_isName (by decide) (hName.2 ch hch)

theorem Tag.WellFormed.passes {t : Tag} (hWell : t.WellFormed) : Passes .opened t.text .tag :=
  hWell.name.passes_opened.append ((passes_attributeText hWell.attributes).append hWell.space.passes)

example : Zone.text.after (CodePoint.ofText "<a b='/>'") = .tag := by decide

theorem Tag.WellFormed.passes_greaterThan {t : Tag} (hWell : t.WellFormed) :
    Passes .opened (t.text ++ [CodePoint.greaterThan]) .text :=
  hWell.passes.append (.cons Zone.noConfusion rfl rfl)

theorem Tag.WellFormed.passes_slash {t : Tag} (hWell : t.WellFormed) :
    Passes .opened (t.text ++ [CodePoint.slash, CodePoint.greaterThan]) .text :=
  hWell.passes.append (.cons Zone.noConfusion rfl (.cons Zone.noConfusion rfl rfl))

theorem passes_endTag (hName : IsName name) (hSpace : IsSpace space) : Passes .opened (endTag name space) .text :=
  .cons Zone.noConfusion rfl (hName.passes.append (hSpace.passes.append (.cons Zone.noConfusion rfl rfl)))

end

theorem IsName.question_notMem {name : Chars} (hName : IsName name) : CodePoint.question ∉ name := by
  intro hMem
  exact absurd (hName.forall_isName _ hMem) (by decide)

theorem IsSpace.question_notMem {space : Chars} (hSpace : IsSpace space) : CodePoint.question ∉ space := by
  intro hMem
  cases hSpace _ hMem

theorem Markup.WellFormed.passes {m : Markup} (hWell : m.WellFormed) : Passes .opened m.inner .text := by
  cases m with
  | comment body =>
    exact .cons Zone.noConfusion rfl <| .cons Zone.noConfusion rfl <| .cons Zone.noConfusion rfl <|
      passes_upTo (endsFirst_hyphens hWell.2) (List.cons_ne_nil _ _)
  | «section» body =>
    refine .cons Zone.noConfusion rfl <| .cons Zone.noConfusion rfl ?_
    rw [← List.append_assoc]
    exact passes_upTo (endsFirst_append (by decide) hWell.2) (List.cons_ne_nil _ _)
  | instruction target data? =>
    cases data? with
    | none =>
      have hTarget : CodePoint.question ∉ target := IsName.question_notMem hWell.1
      exact .cons Zone.noConfusion rfl (passes_upTo (endsFirst_of_notMem hTarget) (List.cons_ne_nil _ _))
    | some data =>
      obtain ⟨space, data⟩ := data
      obtain ⟨hTarget, hSpace, -, hFirst⟩ := hWell
      have hLead : CodePoint.question ∉ target ++ [space] := by
        rw [List.mem_append, List.mem_singleton, not_or]
        refine ⟨hTarget.1.question_notMem, ?_⟩
        rintro rfl
        cases hSpace
      have hText : (Markup.instruction target (some (space, data))).inner =
          CodePoint.question :: (((target ++ [space]) ++ data) ++ [CodePoint.question, CodePoint.greaterThan]) := by
        simp [Markup.inner]
      rw [hText]
      exact .cons Zone.noConfusion rfl (passes_upTo (endsFirst_append hLead hFirst) (List.cons_ne_nil _ _))
  | documentType body =>
    refine .cons Zone.noConfusion rfl <| .cons Zone.noConfusion rfl <| Passes.append ?_ (passes_documentType (DocumentType.closes_zero_iff.mpr hWell.2))
    exact passes_of_stays Zone.noConfusion (by decide)

namespace Declaration
variable {d : Declaration} {a : Attribute} {name : String} {IsValue : Chars → Prop}

theorem Part.question_notMem (hPart : Part name IsValue a) (hName : CodePoint.question ∉ CodePoint.ofText name)
    (hValue : ∀ value, IsValue value → CodePoint.question ∉ value) : CodePoint.question ∉ a.text := by
  have hQuote : CodePoint.question ≠ a.binding.quote := by
    rcases hPart.binding.quote with h | h <;> rw [h] <;> decide
  simp only [Attribute.text, Binding.text, Binding.lead, List.mem_append, List.mem_cons, List.not_mem_nil, or_false,
    not_or, hPart.name]
  exact ⟨hPart.space.question_notMem, hName,
    ⟨hPart.binding.before.question_notMem, by decide, hPart.binding.after.question_notMem, hQuote⟩,
    hValue _ hPart.value, hQuote⟩

theorem IsLabel.question_notMem {value : Chars} (hLabel : IsLabel value) : CodePoint.question ∉ value := by
  cases value with
  | nil => exact List.not_mem_nil
  | cons first rest =>
    rw [List.mem_cons, not_or]
    refine ⟨?_, fun hMem => absurd (hLabel.2 _ hMem) (by decide)⟩
    rintro rfl
    exact absurd hLabel.1 (by decide)

theorem question_notMem_optionalText {a? : Option Attribute}
    (hText : ∀ a, a? = some a → CodePoint.question ∉ a.text) : CodePoint.question ∉ optionalText a? := by
  cases a? with
  | none => exact List.not_mem_nil
  | some a => exact hText a rfl

/-- No question mark stands in a declaration but those at its ends. -/
theorem Tolerated.passes (hTolerated : d.Tolerated) : Passes .opened d.text .text := by
  have hLetters : CodePoint.question ∉ d.letters := by
    intro hMem
    obtain ⟨choices, hChoices, hMem⟩ := hTolerated.letters.exists_choices hMem
    exact absurd (Scan.isNameStart_of_mem_reserved choices hChoices _ hMem) (by decide)
  have hVersion : CodePoint.question ∉ d.version.text :=
    hTolerated.version.question_notMem (by decide) fun value hValue => by
      rcases hValue with rfl | rfl <;> decide
  have hEncoding : CodePoint.question ∉ optionalText d.encoding :=
    question_notMem_optionalText fun a ha => (hTolerated.encoding a ha).question_notMem (by decide)
      fun _ => IsLabel.question_notMem
  have hStandalone : CodePoint.question ∉ optionalText d.standalone :=
    question_notMem_optionalText fun a ha => (hTolerated.standalone a ha).question_notMem (by decide)
      fun value hWord hMem => absurd (hWord _ hMem) (by decide)
  have hBody : CodePoint.question ∉ d.letters ++ (d.version.text ++ (optionalText d.encoding ++
      (optionalText d.standalone ++ d.space))) := by
    simp only [List.mem_append, not_or]
    exact ⟨hLetters, hVersion, hEncoding, hStandalone, hTolerated.space.question_notMem⟩
  have hText : d.text = CodePoint.question :: ((d.letters ++ (d.version.text ++ (optionalText d.encoding ++
      (optionalText d.standalone ++ d.space)))) ++ [CodePoint.question, CodePoint.greaterThan]) := by
    simp [Declaration.text]
  rw [hText]
  exact .cons Zone.noConfusion rfl (passes_upTo (endsFirst_of_notMem hBody) (List.cons_ne_nil _ _))

end Declaration

end Grammar
end XmlIndex
