import XmlIndex.Parse
import XmlIndex.Proofs.Lexer.Tags

/-! # Invariants of the lexer

Only writing tells the states of a lexer apart for what it has written. A property that is kept by
moving on, by closing elements, by tokens that open no element and by an element with its start tag
is kept by every action, and so by a whole run.
-/
namespace XmlIndex
set_option autoImplicit false

/-- A property of lexers that their actions keep. -/
class Lexer.Invariant (I : Lexer → Prop) : Prop where
  adjust {s s' : Lexer} : I s → s'.draft = s.draft → s'.maxDepth = s.maxDepth →
    s'.openTags.length ≤ s.openTags.length → I s'
  write {s : Lexer} {kind : TokenKind} : I s → kind ≠ .startTag → ∀ offset lengthField,
    I { s with draft := s.draft.write ⟨kind, s.depth, offset, lengthField⟩ }
  element {s : Lexer} : I s → s.openTags.length ≤ Token.maxDepth → ∀ name offset lengthField,
    I { s.push name with draft := s.draft.writeElement s.openTags.length offset lengthField }

namespace Lexer

/-- A run is kept piece by piece. -/
theorem Invariant.writeText {I : Lexer → Prop} [Invariant I] {s : Lexer} {kind : TokenKind}
    (hHolds : I s) (hKind : kind ≠ .startTag) (offset length : Nat) :
    I { s with draft := s.draft.writeText kind s.depth offset length } := by
  suffices hDraft : ∀ depth d, s.depth = depth → I { s with draft := d } →
      I { s with draft := d.writeText kind depth offset length } from hDraft _ _ rfl hHolds
  intro depth d hDepth hHolds
  fun_induction Draft.writeText d kind depth offset length with
  | case1 d offset length hLong ih => exact ih (hDepth ▸ Invariant.write hHolds hKind _ _)
  | case2 d offset length hShort => exact hDepth ▸ Invariant.write hHolds hKind _ _

end Lexer

namespace Lex
variable {α β : Type} {I : Lexer → Prop} {action : Lex α} {next : α → Lex β}

def Keeps (I : Lexer → Prop) (action : Lex α) : Prop :=
  ∀ s a s', I s → action s = .ok a s' → I s'

theorem keeps_pure (a : α) : Keeps I (pure a : Lex α) := by
  rintro s b s' hHolds ⟨⟩
  exact hHolds

theorem keeps_throw (fault : Fault) : Keeps I (throw fault : Lex α) := by
  rintro s a s' hHolds ⟨⟩

theorem keeps_fail (cause : SyntaxFault) : Keeps I (fail cause : Lex α) :=
  keeps_throw _

theorem Keeps.bind (hAction : Keeps I action) (hNext : ∀ a, Keeps I (next a)) : Keeps I (action >>= next) := by
  intro s b s'' hHolds hOk
  obtain ⟨a, s', hFirst, hSecond⟩ := bind_eq_ok_iff.mp hOk
  exact hNext a s' b s'' (hAction s a s' hHolds hFirst) hSecond

theorem Keeps.ite {condition : Prop} [Decidable condition] {yes no : Lex α} (hYes : Keeps I yes)
    (hNo : Keeps I no) : Keeps I (if condition then yes else no) := by
  split
  · exact hYes
  · exact hNo

theorem Keeps.map {f : α → β} (hAction : Keeps I action) : Keeps I (f <$> action) := by
  intro s b s' hHolds hOk
  change EStateM.map f action s = _ at hOk
  unfold EStateM.map at hOk
  split at hOk <;> cases hOk
  exact hAction _ _ _ hHolds ‹_›

theorem keeps_look (view : Lexer → α) : Keeps I (look view) := by
  rintro s a s' hHolds ⟨⟩
  exact hHolds

theorem keeps_update {change : Lexer → Lexer} (hChange : ∀ s, I s → I (change s)) :
    Keeps I (update change) := by
  rintro s a s' hHolds ⟨⟩
  exact hChange s hHolds

theorem keeps_require (condition : Bool) (cause : SyntaxFault) : Keeps I (require condition cause) :=
  .ite (keeps_pure _) (keeps_throw _)

theorem keeps_requireAt (place : Nat) (condition : Bool) (cause : SyntaxFault) :
    Keeps I (requireAt place condition cause) :=
  .ite (keeps_pure _) (keeps_throw _)

theorem keeps_checkName (name : Name) : Keeps I (checkName name) :=
  (keeps_look _).bind fun _ => (keeps_look _).bind fun _ => keeps_requireAt _ _ _

theorem eq_of_checkName {name : Name} {s s' : Lexer} {u : Unit} (hOk : checkName name s = .ok u s') : s' = s := by
  simp only [checkName, bind_eq_ok_iff, look_eq_ok_iff, requireAt_eq_ok_iff] at hOk
  obtain ⟨_, _, ⟨rfl, rfl⟩, _, _, ⟨rfl, rfl⟩, -, rfl⟩ := hOk
  rfl

theorem keeps_checkReserved (place : Nat) (reserved : Namespace.Reserved) :
    Keeps I (checkReserved place reserved) := by
  cases reserved with
  | none => exact keeps_pure _
  | xml => exact keeps_throw _
  | xmlns => exact keeps_throw _

variable [Lexer.Invariant I]

theorem keeps_read (action : Scan α) : Keeps I (read action) := by
  intro s a s' hHolds hOk
  unfold read at hOk
  split at hOk <;> cases hOk
  exact Lexer.Invariant.adjust hHolds rfl rfl (Nat.le_refl _)

/-- A change that concerns neither the draft nor the elements. -/
theorem keeps_adjust {change : Lexer → Lexer} (hSame : ∀ s, (change s).draft = s.draft ∧
    (change s).openTags = s.openTags ∧ (change s).maxDepth = s.maxDepth) : Keeps I (update change) := by
  refine keeps_update fun s hHolds => ?_
  obtain ⟨hDraft, hOpenTags, hMaxDepth⟩ := hSame s
  exact Lexer.Invariant.adjust hHolds hDraft hMaxDepth (Nat.le_of_eq (congrArg List.length hOpenTags))

section
variable {kind : TokenKind} (hKind : kind ≠ .startTag)
include hKind

theorem keeps_emit (span : Span) : Keeps I (emit kind span) :=
  keeps_update fun _ hHolds => Lexer.Invariant.write hHolds hKind _ _

theorem keeps_emitBounded (span : Span) : Keeps I (emitBounded kind span) :=
  (keeps_look _).bind fun _ => (keeps_requireAt _ _ _).bind fun _ => keeps_emit hKind _

theorem keeps_emitText (span : Span) : Keeps I (emitText kind span) :=
  keeps_update fun _ hHolds => Lexer.Invariant.writeText hHolds hKind _ _

theorem keeps_emitUnits (place count : Nat) : Keeps I (emitUnits kind place count) :=
  (keeps_look _).bind fun _ => keeps_emit hKind _

end

theorem keeps_emitName {kind : TokenKind} (hKind : kind ≠ .startTag) (name : Name) :
    Keeps I (emitName kind name) :=
  (keeps_checkName _).bind fun _ =>
    keeps_update fun _ hHolds => Lexer.Invariant.write hHolds hKind _ _

theorem keeps_emitSpace (place stop : Nat) : Keeps I (emitSpace place stop) :=
  (keeps_look _).bind fun _ => .ite (keeps_emitText (by decide) _) (keeps_pure _)

theorem keeps_closeScope : Keeps I closeScope := by
  intro s a s' hHolds hOk
  unfold closeScope at hOk
  split at hOk
  · split at hOk <;> cases hOk
    exact Lexer.Invariant.adjust hHolds rfl rfl (Nat.le_refl _)
  · cases hOk
    exact hHolds

theorem keeps_text (place : Nat) (ch : CodePoint) : Keeps I (text place ch) :=
  (keeps_read _).bind fun _ => (keeps_read _).bind fun _ =>
    (keeps_emitText (by decide) _).bind fun _ => keeps_pure _

theorem keeps_afterMarkup : Keeps I afterMarkup :=
  (keeps_read _).bind fun _ => (keeps_read _).bind fun _ =>
    .ite ((keeps_read _).bind fun _ => (keeps_emitSpace _ _).bind fun _ => keeps_pure _) (keeps_text _ _)

theorem keeps_betweenMarkup : Keeps I betweenMarkup :=
  (keeps_read _).bind fun _ => (keeps_require _ _).bind fun _ => keeps_pure _

theorem keeps_resume : Keeps I resume :=
  (keeps_look _).bind fun _ => .ite keeps_betweenMarkup keeps_afterMarkup

theorem keeps_before (place count : Nat) : Keeps I (before place count) :=
  (keeps_read _).bind fun _ => (keeps_look _).bind fun _ => keeps_pure _

theorem keeps_comment : Keeps I comment :=
  (keeps_read _).bind fun _ => (keeps_read _).bind fun _ => (keeps_before _ _).bind fun _ =>
    keeps_emitText (by decide) _

theorem keeps_characterSection : Keeps I characterSection :=
  (keeps_read _).bind fun _ => (keeps_read _).bind fun _ => (keeps_before _ _).bind fun _ =>
    keeps_emitText (by decide) _

theorem keeps_instructionData : Keeps I instructionData :=
  (keeps_read _).bind fun _ => (keeps_read _).bind fun _ => (keeps_before _ _).bind fun _ =>
    keeps_emitBounded (by decide) _

theorem keeps_instruction : Keeps I instruction :=
  (keeps_read _).bind fun _ => (keeps_read _).bind fun _ => (keeps_read _).bind fun _ =>
    (keeps_emitBounded (by decide) _).bind fun _ =>
      .ite ((keeps_read _).bind fun _ => (keeps_require _ _).bind fun _ => keeps_emit (by decide) _)
        ((keeps_require _ _).bind fun _ => keeps_instructionData)

theorem keeps_documentType : Keeps I documentType :=
  (keeps_look _).bind fun _ => (keeps_require _ _).bind fun _ => (keeps_look _).bind fun _ =>
    (keeps_require _ _).bind fun _ => (keeps_adjust fun _ => by exact ⟨rfl, rfl, rfl⟩).bind fun _ =>
      (keeps_read _).bind fun _ => (keeps_read _).bind fun _ => (keeps_read _).bind fun _ =>
        keeps_emitBounded (by decide) _

theorem keeps_declared : Keeps I declared :=
  (keeps_read _).bind fun _ =>
    .ite ((keeps_read _).bind fun _ => (keeps_require _ _).bind fun _ => keeps_comment)
      (.ite
        ((keeps_read _).bind fun _ => (keeps_require _ _).bind fun _ => (keeps_look _).bind fun _ =>
          (keeps_require _ _).bind fun _ => keeps_characterSection)
        (.ite ((keeps_read _).bind fun _ => (keeps_require _ _).bind fun _ => keeps_documentType)
          (keeps_fail _)))

theorem keeps_declareEncoding (label : String) : Keeps I (declareEncoding label) := by
  refine (keeps_look _).bind fun _ => (keeps_read _).bind fun _ => ?_
  split
  · exact keeps_throw _
  · refine .ite (keeps_pure _) ((keeps_look _).bind fun _ => (keeps_look _).bind fun _ => ?_)
    split
    · exact keeps_throw _
    · exact keeps_read _

theorem keeps_versionDeclaration (ch : CodePoint) : Keeps I (versionDeclaration ch) :=
  (keeps_read _).bind fun _ => (keeps_require _ _).bind fun _ => (keeps_read _).bind fun _ =>
    (keeps_require _ _).bind fun _ => (keeps_emitUnits (by decide) _ _).bind fun _ => (keeps_read _).bind fun _ =>
      (keeps_read _).bind fun _ => (keeps_read _).bind fun _ => (keeps_require _ _).bind fun _ =>
        (keeps_emitUnits (by decide) _ _).bind fun _ => keeps_read _

theorem keeps_encodingDeclaration : Keeps I encodingDeclaration :=
  (keeps_read _).bind fun _ => (keeps_read _).bind fun _ => (keeps_require _ _).bind fun _ =>
    (keeps_emitUnits (by decide) _ _).bind fun _ => (keeps_read _).bind fun _ => (keeps_read _).bind fun _ =>
      (keeps_read _).bind fun _ => (keeps_read _).bind fun _ => (keeps_emit (by decide) _).bind fun _ =>
        keeps_declareEncoding _

theorem keeps_standaloneDeclaration : Keeps I standaloneDeclaration :=
  (keeps_read _).bind fun _ => (keeps_read _).bind fun _ => (keeps_require _ _).bind fun _ =>
    (keeps_emitUnits (by decide) _ _).bind fun _ => (keeps_read _).bind fun _ => (keeps_read _).bind fun _ =>
      (keeps_read _).bind fun _ => (keeps_emitUnits (by decide) _ _).bind fun _ => keeps_read _

theorem keeps_optionalEncoding : Keeps I optionalEncoding :=
  (keeps_read _).bind fun _ => .ite (keeps_encodingDeclaration.bind fun _ => keeps_read _) (keeps_pure _)

theorem keeps_optionalDeclarations : Keeps I optionalDeclarations :=
  keeps_optionalEncoding.bind fun _ =>
    .ite (keeps_standaloneDeclaration.bind fun _ => keeps_read _) (keeps_pure _)

theorem keeps_declaration (ch : CodePoint) : Keeps I (declaration ch) :=
  (keeps_versionDeclaration _).bind fun _ => keeps_optionalDeclarations.bind fun _ =>
    (keeps_require _ _).bind fun _ => (keeps_read _).bind fun _ => (keeps_require _ _).bind fun _ =>
      (keeps_read _).bind fun _ => keeps_require _ _

theorem keeps_spells (span : Span) (text : String) : Keeps I (spells span text) :=
  keeps_read _

theorem keeps_endTag : Keeps I endTag := by
  intro s a s' hHolds hOk
  unfold endTag at hOk
  simp only [bind_eq_ok_iff, read_offset_eq_ok_iff, look_eq_ok_iff] at hOk
  obtain ⟨_, _, ⟨rfl, rfl⟩, openTags, _, ⟨hOpen, rfl⟩, hOk⟩ := hOk
  cases openTags with
  | nil => cases hOk
  | cons name rest =>
    obtain ⟨_, s₁, hAgain, hOk⟩ := bind_eq_ok_iff.mp hOk
    obtain ⟨_, s₂, hSame, hOk⟩ := bind_eq_ok_iff.mp hOk
    obtain ⟨_, s₃, hUpdate, hOk⟩ := bind_eq_ok_iff.mp hOk
    -- Up to the update only the cursor moves.
    obtain ⟨c, -, rfl⟩ := read_eq_ok_iff.mp hAgain
    obtain ⟨-, rfl⟩ := requireAt_eq_ok_iff.mp hSame
    obtain rfl := update_eq_ok_iff.mp hUpdate
    refine ((keeps_read _).bind fun _ => (keeps_require _ _).bind fun _ => .ite (keeps_pure _) keeps_afterMarkup)
      _ _ _ ?_ hOk
    refine Lexer.Invariant.adjust hHolds rfl rfl ?_
    rw [← hOpen]
    exact Nat.le_succ _

theorem keeps_content (opened : Bool) : Keeps I (content opened) :=
  (keeps_read _).bind fun _ => (keeps_read _).bind fun _ =>
    .ite
      ((keeps_read _).bind fun _ => (keeps_read _).bind fun _ =>
        .ite
          (.ite ((keeps_emitText (by decide) _).bind fun _ => keeps_endTag)
            ((keeps_emitSpace _ _).bind fun _ => keeps_endTag))
          ((keeps_emitSpace _ _).bind fun _ => keeps_pure _))
      (keeps_text _ _)

theorem keeps_closeTag (ch : CodePoint) (opened : Bool) : Keeps I (closeTag ch opened) :=
  (keeps_require _ _).bind fun _ => keeps_closeScope.bind fun _ => (keeps_look _).bind fun _ =>
    .ite (keeps_pure _) (keeps_content _)

theorem keeps_tagEnd (ch : CodePoint) : Keeps I (tagEnd ch) := by
  refine .ite (.bind (keeps_update fun s hHolds => ?_) fun _ => ?_) (keeps_closeTag _ _)
  · exact Lexer.Invariant.adjust hHolds rfl rfl (by simp)
  · exact (keeps_read _).bind fun _ => keeps_closeTag _ _

theorem keeps_tagRest (ch : CodePoint) : Keeps I (tagRest ch) :=
  (keeps_read _).bind fun _ => .ite ((keeps_read _).bind fun _ => keeps_pure _) (keeps_tagEnd _)

theorem keeps_checkElementPrefix (name : Name) : Keeps I (checkElementPrefix name) :=
  (keeps_look _).bind fun _ =>
    .ite ((keeps_spells _ _).bind fun _ => keeps_requireAt _ _ _) (keeps_pure _)

theorem keeps_enterScope (name : Name) : Keeps I (enterScope name) :=
  (keeps_look _).bind fun _ =>
    .ite ((keeps_look _).bind fun _ => keeps_adjust fun _ => by exact ⟨rfl, rfl, rfl⟩) (keeps_pure _)

/-- An element is recorded as soon as it is open. -/
theorem holds_of_opened {name : Name} {s s' s'' : Lexer} {u u' : Unit} (hHolds : I s)
    (hOpen : openElement name s = .ok u s') (hEmit : emitElement name s' = .ok u' s'') : I s'' := by
  obtain ⟨hDepth, rfl⟩ := openElement_eq_ok_iff.mp hOpen
  obtain ⟨_, s₁, hCheck, hUpdate⟩ := bind_eq_ok_iff.mp hEmit
  obtain rfl := eq_of_checkName hCheck
  obtain rfl := update_eq_ok_iff.mp hUpdate
  simp only [Lexer.depth_push]
  exact Lexer.Invariant.element hHolds hDepth name _ _

theorem keeps_startTag (place : Nat) : Keeps I (startTag place) := by
  intro s a s' hHolds hOk
  obtain ⟨found, s₁, hRead, hOk⟩ := bind_eq_ok_iff.mp hOk
  obtain ⟨_, s₂, hCheck, hOk⟩ := bind_eq_ok_iff.mp hOk
  obtain ⟨_, s₃, hOpen, hOk⟩ := bind_eq_ok_iff.mp hOk
  obtain ⟨_, s₄, hEmit, hOk⟩ := bind_eq_ok_iff.mp hOk
  have hKept : I s₂ := keeps_checkElementPrefix _ _ _ _ (keeps_read _ _ _ _ hHolds hRead) hCheck
  exact ((keeps_enterScope _).bind fun _ => keeps_tagRest _) _ _ _ (holds_of_opened hKept hOpen hEmit) hOk

theorem keeps_settleRole (role : AttributeRole) (name : Name) : Keeps I (settleRole role name) :=
  (keeps_look _).bind fun _ =>
    .ite
      ((keeps_look _).bind fun _ => (keeps_spells _ _).bind fun _ => (keeps_requireAt _ _ _).bind fun _ =>
        (keeps_spells _ _).bind fun _ => .ite (keeps_pure _) (keeps_pure _))
      (keeps_pure _)

theorem keeps_addAttribute (name : Name) : Keeps I (addAttribute name) :=
  (keeps_look _).bind fun _ => (keeps_requireAt _ _ _).bind fun _ => keeps_adjust fun _ => by exact ⟨rfl, rfl, rfl⟩

theorem keeps_noteAttribute (role : AttributeRole) (name : Name) : Keeps I (noteAttribute role name) := by
  refine (keeps_look _).bind fun _ => .ite ((keeps_look _).bind fun _ => ?_) (keeps_pure _)
  cases role with
  | namespacePrefix => exact keeps_adjust fun _ => by exact ⟨rfl, rfl, rfl⟩
  | plain => exact (keeps_spells _ _).bind fun _ => .ite (keeps_pure _) (keeps_adjust fun _ => by exact ⟨rfl, rfl, rfl⟩)
  | defaultNamespace => exact keeps_pure _
  | xmlPrefix => exact keeps_pure _

theorem keeps_bindValue (role : AttributeRole) (value : Span) : Keeps I (bindValue role value) := by
  refine (keeps_look _).bind fun _ => .ite ((keeps_requireAt _ _ _).bind fun _ => (keeps_read _).bind fun _ => ?_)
    (keeps_pure _)
  cases role with
  | xmlPrefix => exact keeps_requireAt _ _ _
  | namespacePrefix => exact (keeps_adjust fun _ => by exact ⟨rfl, rfl, rfl⟩).bind fun _ => keeps_checkReserved _ _
  | defaultNamespace => exact keeps_checkReserved _ _
  | plain => exact keeps_checkReserved _ _

theorem keeps_attributeValue (ch : CodePoint) : Keeps I (attributeValue ch) :=
  (keeps_read _).bind fun _ => (keeps_read _).bind fun _ => (keeps_read _).bind fun _ =>
    (keeps_read _).bind fun _ => keeps_pure _

theorem keeps_readAttribute (place : Nat) (first : CodePoint) : Keeps I (readAttribute place first) := by
  have hKind (role : AttributeRole) :
      (if role.declares then TokenKind.namespaceName else .attributeName) ≠ .startTag := by
    split <;> nofun
  exact
    (keeps_read _).bind fun _ => (keeps_read _).bind fun _ => (keeps_settleRole _ _).bind fun role =>
      (keeps_addAttribute _).bind fun _ => (keeps_emitName (hKind role) _).bind fun _ =>
        (keeps_noteAttribute _ _).bind fun _ => (keeps_attributeValue _).bind fun _ =>
          (keeps_bindValue _ _).bind fun _ => (keeps_emitBounded (by decide) _).bind fun _ =>
            (keeps_read _).bind fun _ => keeps_tagRest _

theorem keeps_start : Keeps I start :=
  (keeps_read _).bind fun _ =>
    .ite
      ((keeps_read _).bind fun _ =>
        .ite ((keeps_read _).bind fun _ => (keeps_declaration _).bind fun _ => keeps_pure _) (keeps_pure _))
      ((keeps_require _ _).bind fun _ => (keeps_read _).bind fun _ => (keeps_require _ _).bind fun _ => keeps_pure _)

theorem keeps_markup : Keeps I markup :=
  (keeps_read _).bind fun _ => (keeps_read _).bind fun _ =>
    .ite (keeps_startTag _)
      (.ite keeps_endTag
        (.ite (keeps_instruction.bind fun _ => keeps_resume)
          (.ite (keeps_declared.bind fun _ => keeps_resume) (keeps_fail _))))

theorem keeps_epilog : Keeps I epilog := by
  refine (keeps_read _).bind fun found => ?_
  cases found with
  | none => exact keeps_pure _
  | some ch =>
    refine (keeps_require _ _).bind fun _ => (keeps_read _).bind fun tail => ?_
    cases tail with
    | comment => exact keeps_comment.bind fun _ => keeps_pure _
    | instruction => exact keeps_instruction.bind fun _ => keeps_pure _

theorem keeps_step (phase : Phase) : Keeps I (step phase) := by
  cases phase with
  | start => exact keeps_start.map
  | markup => exact keeps_markup.map
  | attributes place first => exact (keeps_readAttribute _ _).map
  | epilog => exact keeps_epilog

/-- What each phase keeps, all of them keep. -/
theorem keeps_run (phase : Phase) : Keeps I (run phase) := by
  intro s u s' hHolds hOk
  fun_induction run phase s with
  | case1 phase s s₁ hStep =>
    cases hOk
    exact keeps_step _ _ _ _ hHolds hStep
  | case2 phase s phase₁ s₁ hStep ih => exact ih (keeps_step _ _ _ _ hHolds hStep) hOk
  | case3 phase s fault s₁ hStep => cases hOk

end Lex

end XmlIndex
