import XmlIndex.Lexer.Document

/-! # Progress of the lexer

No phase moves the cursor back or out of its range, and every phase that asks for another one has
moved it on. So the lexer comes to an end.
-/
namespace XmlIndex
set_option autoImplicit false

namespace Scan

theorem forward_text (ch : CodePoint) : Forward (text ch) :=
  forward_feed _ _ _

theorem forward_reservedLetters (ch : CodePoint) : Forward (reservedLetters ch) := by
  unfold reservedLetters
  split
  · exact (forward_skipEach _).ite (forward_pure _)
  · exact forward_pure _

theorem forward_instructionTarget : Forward instructionTarget :=
  progressive_next.forward.bind fun _ => (forward_require _ _).bind fun _ =>
    (forward_reservedLetters _).bind fun _ =>
      .ite
        (progressive_next.forward.bind fun _ => (forward_require _ _).bind fun _ =>
          .ite (progressive_nextAfter _).forward (forward_pure _))
        (progressive_nextAfter _).forward

theorem forward_openValue : Forward openValue :=
  progressive_next.forward.bind fun _ => (forward_skipSpace _).bind fun _ =>
    (forward_require _ _).bind fun _ => (progressive_nextAfter _).forward.bind fun _ =>
      (forward_require _ _).bind fun _ => forward_pure _

theorem forward_closeValue (quote : CodePoint) : Forward (closeValue quote) :=
  (forward_skip _).bind fun _ => forward_require _ _

theorem forward_version : Forward version :=
  (forward_skipAll _).bind fun _ => .ite (forward_skipAny _) (forward_pure _)

theorem forward_standaloneAnswer : Forward standaloneAnswer :=
  (forward_skipAll _).bind fun _ => .ite (forward_pure _)
    ((forward_skipAll _).bind fun _ => .ite (forward_pure _) (forward_fail _))

theorem forward_nextSpaced : Forward nextSpaced :=
  progressive_next.forward.bind fun _ => (forward_skipSpace _).bind fun _ => forward_pure _

theorem forward_nameEnd (place : Nat) (found : CodePoint × Nat) : Forward (nameEnd place found) :=
  forward_last.bind fun _ => forward_pure _

theorem progressive_nameRest (place : Nat) : Progressive (nameRest place) :=
  (progressive_drive _ _).bind fun _ => forward_nameEnd _ _

theorem forward_nameFrom (place : Nat) (ch : CodePoint) : Forward (nameFrom place ch) :=
  (forward_feed _ _ _).bind fun _ => forward_nameEnd _ _

theorem forward_attributeRole (first : CodePoint) : Forward (attributeRole first) :=
  .ite
    ((forward_skipAll _).bind fun _ =>
      .ite (progressive_next.forward.bind fun _ => forward_pure _) (forward_pure _))
    (forward_pure _)

theorem forward_openAttribute (ch : CodePoint) : Forward (openAttribute ch) :=
  (forward_skipSpace _).bind fun _ => (forward_require _ _).bind fun _ =>
    (progressive_nextAfter _).forward.bind fun _ => (forward_require _ _).bind fun _ =>
      forward_pure _

theorem forward_opensDeclaration : Forward opensDeclaration :=
  (forward_skipEach _).bind fun _ =>
    .ite
      (progressive_next.forward.bind fun _ => (forward_require _ _).bind fun _ => forward_pure _)
      (forward_pure _)

theorem forward_tail : Forward tail := by
  intro c a c' hOk
  unfold tail at hOk
  simp only at hOk
  split at hOk
  · cases hOk
  · refine Forward.bind (forward_skip _) (fun _ => ?_) c a c' hOk
    exact .ite (forward_pure _)
      ((forward_skipAll _).bind fun _ => .ite (forward_pure _) (forward_fail _))

theorem nextAfterSpace?_advances {c c' : Cursor} {ch : CodePoint}
    (hOk : nextAfterSpace? c = .ok (some ch) c') : c.Advances c' := by
  unfold nextAfterSpace? at hOk
  split at hOk <;> cases hOk
  exact progressive_nextAfter _ _ _ _ ‹_›

end Scan

namespace Lex
variable {α β : Type}

/-- Success leaves the cursor where it is or further on. -/
def Forward (action : Lex α) : Prop :=
  ∀ s a s', action s = .ok a s' → s.cursor.Reaches s'.cursor

def Progressive (action : Lex α) : Prop :=
  ∀ s a s', action s = .ok a s' → s.cursor.Advances s'.cursor

theorem bind_eq_ok_iff {action : Lex α} {next : α → Lex β} {s s'' : Lexer} {b : β} :
    (action >>= next) s = .ok b s'' ↔ ∃ a s', action s = .ok a s' ∧ next a s' = .ok b s'' := by
  change EStateM.bind action next s = _ ↔ _
  unfold EStateM.bind
  cases action s with
  | ok a s' =>
    refine ⟨fun h => ⟨a, s', rfl, h⟩, ?_⟩
    rintro ⟨_, _, hAction, hNext⟩
    cases hAction
    exact hNext
  | error fault s' => simp

theorem Progressive.forward {action : Lex α} (h : Progressive action) : Forward action :=
  fun s a s' hOk => (h s a s' hOk).reaches

theorem forward_pure (a : α) : Forward (pure a : Lex α) := by
  intro s b s' hOk
  cases hOk
  exact .refl _

theorem forward_throw (fault : Fault) : Forward (throw fault : Lex α) := by
  intro s a s' hOk
  cases hOk

theorem forward_fail (cause : SyntaxFault) : Forward (fail cause : Lex α) :=
  forward_throw _

theorem Forward.bind {action : Lex α} {next : α → Lex β} (hAction : Forward action)
    (hNext : ∀ a, Forward (next a)) : Forward (action >>= next) := by
  intro s b s'' hOk
  obtain ⟨a, s', hFirst, hSecond⟩ := bind_eq_ok_iff.mp hOk
  exact (hAction s a s' hFirst).trans (hNext a s' b s'' hSecond)

theorem Forward.ite {condition : Prop} [Decidable condition] {yes no : Lex α}
    (hYes : Forward yes) (hNo : Forward no) : Forward (if condition then yes else no) := by
  split
  · exact hYes
  · exact hNo

theorem Progressive.bind {action : Lex α} {next : α → Lex β} (hAction : Progressive action)
    (hNext : ∀ a, Forward (next a)) : Progressive (action >>= next) := by
  intro s b s'' hOk
  obtain ⟨a, s', hFirst, hSecond⟩ := bind_eq_ok_iff.mp hOk
  exact (hAction s a s' hFirst).trans_reaches (hNext a s' b s'' hSecond)

theorem Forward.bind_progressive {action : Lex α} {next : α → Lex β} (hAction : Forward action)
    (hNext : ∀ a, Progressive (next a)) : Progressive (action >>= next) := by
  intro s b s'' hOk
  obtain ⟨a, s', hFirst, hSecond⟩ := bind_eq_ok_iff.mp hOk
  exact (hAction s a s' hFirst).trans_advances (hNext a s' b s'' hSecond)

theorem forward_read {action : Scan α} (hAction : Scan.Forward action) : Forward (read action) := by
  intro s a s' hOk
  unfold read at hOk
  split at hOk <;> cases hOk
  exact hAction _ _ _ ‹_›

theorem progressive_read {action : Scan α} (hAction : Scan.Progressive action) :
    Progressive (read action) := by
  intro s a s' hOk
  unfold read at hOk
  split at hOk <;> cases hOk
  exact hAction _ _ _ ‹_›

theorem forward_look (view : Lexer → α) : Forward (look view) := by
  intro s a s' hOk
  cases hOk
  exact .refl _

theorem forward_update {change : Lexer → Lexer} (hCursor : ∀ s, (change s).cursor = s.cursor) :
    Forward (update change) := by
  intro s a s' hOk
  cases hOk
  rw [hCursor]
  exact .refl _

theorem forward_require (condition : Bool) (cause : SyntaxFault) :
    Forward (require condition cause) :=
  .ite (forward_pure _) (forward_throw _)

theorem forward_requireAt (offset : Nat) (condition : Bool) (cause : SyntaxFault) :
    Forward (requireAt offset condition cause) :=
  .ite (forward_pure _) (forward_throw _)

theorem forward_emit (kind : TokenKind) (span : Span) : Forward (emit kind span) :=
  forward_update fun _ => by rfl

theorem forward_emitBounded (kind : TokenKind) (span : Span) : Forward (emitBounded kind span) :=
  (forward_look _).bind fun _ => (forward_requireAt _ _ _).bind fun _ => forward_emit _ _

theorem forward_emitText (kind : TokenKind) (span : Span) : Forward (emitText kind span) :=
  forward_update fun _ => by rfl

theorem forward_checkName (name : Name) : Forward (checkName name) :=
  (forward_look _).bind fun _ => (forward_look _).bind fun _ => forward_requireAt _ _ _

theorem forward_emitName (kind : TokenKind) (name : Name) : Forward (emitName kind name) :=
  (forward_checkName _).bind fun _ => forward_update fun _ => by rfl

theorem forward_emitElement (name : Name) : Forward (emitElement name) :=
  (forward_checkName _).bind fun _ => forward_update fun _ => by rfl

theorem forward_emitSpace (place stop : Nat) : Forward (emitSpace place stop) :=
  (forward_look _).bind fun _ => .ite (forward_emitText _ _) (forward_pure _)

theorem forward_closeScope : Forward closeScope := by
  intro s a s' hOk
  unfold closeScope at hOk
  split at hOk
  · split at hOk <;> cases hOk
    exact .refl _
  · cases hOk
    exact .refl _

theorem forward_text (place : Nat) (ch : CodePoint) : Forward (text place ch) :=
  (forward_read (Scan.forward_text _)).bind fun _ => (forward_read Scan.forward_last).bind fun _ =>
    (forward_emitText _ _).bind fun _ => forward_pure _

theorem progressive_nextAfterSpace : Progressive (read Scan.nextAfterSpace) :=
  progressive_read (Scan.progressive_nextAfter _)

theorem forward_afterMarkup : Forward afterMarkup :=
  (forward_read Scan.forward_offset).bind fun _ => progressive_nextAfterSpace.forward.bind fun _ =>
    .ite
      ((forward_read Scan.forward_last).bind fun _ => (forward_emitSpace _ _).bind fun _ =>
        forward_pure _)
      (forward_text _ _)

theorem forward_betweenMarkup : Forward betweenMarkup :=
  progressive_nextAfterSpace.forward.bind fun _ => (forward_require _ _).bind fun _ =>
    forward_pure _

theorem forward_resume : Forward resume :=
  (forward_look _).bind fun _ => .ite forward_betweenMarkup forward_afterMarkup

theorem forward_before (place count : Nat) : Forward (before place count) :=
  (forward_read Scan.forward_offset).bind fun _ => (forward_look _).bind fun _ => forward_pure _

theorem forward_comment : Forward comment :=
  (forward_read Scan.forward_offset).bind fun _ =>
    (forward_read (Scan.progressive_drive _ _).forward).bind fun _ =>
      (forward_before _ _).bind fun _ => forward_emitText _ _

theorem forward_characterSection : Forward characterSection :=
  (forward_read Scan.forward_offset).bind fun _ =>
    (forward_read (Scan.progressive_drive _ _).forward).bind fun _ =>
      (forward_before _ _).bind fun _ => forward_emitText _ _

theorem forward_instructionData : Forward instructionData :=
  (forward_read Scan.forward_offset).bind fun _ =>
    (forward_read (Scan.progressive_drive _ _).forward).bind fun _ =>
      (forward_before _ _).bind fun _ => forward_emitBounded _ _

theorem forward_instruction : Forward instruction :=
  (forward_read Scan.forward_offset).bind fun _ =>
    (forward_read Scan.forward_instructionTarget).bind fun _ =>
      (forward_read Scan.forward_last).bind fun _ => (forward_emitBounded _ _).bind fun _ =>
        .ite
          ((forward_read (Scan.forward_skip _)).bind fun _ => (forward_require _ _).bind fun _ =>
            forward_emit _ _)
          ((forward_require _ _).bind fun _ => forward_instructionData)

theorem forward_documentType : Forward documentType :=
  (forward_look _).bind fun _ => (forward_require _ _).bind fun _ => (forward_look _).bind fun _ =>
    (forward_require _ _).bind fun _ => (forward_update fun _ => by rfl).bind fun _ =>
      (forward_read Scan.forward_offset).bind fun _ =>
        (forward_read (Scan.progressive_drive _ _).forward).bind fun _ =>
          (forward_read Scan.forward_last).bind fun _ => forward_emitBounded _ _

theorem forward_declared : Forward declared :=
  (forward_read Scan.progressive_next.forward).bind fun _ =>
    .ite
      ((forward_read (Scan.forward_skip _)).bind fun _ => (forward_require _ _).bind fun _ =>
        forward_comment)
      (.ite
        ((forward_read (Scan.forward_skipAll _)).bind fun _ => (forward_require _ _).bind fun _ =>
          (forward_look _).bind fun _ => (forward_require _ _).bind fun _ =>
            forward_characterSection)
        (.ite
          ((forward_read (Scan.forward_skipAll _)).bind fun _ =>
            (forward_require _ _).bind fun _ => forward_documentType)
          (forward_fail _)))

theorem forward_emitUnits (kind : TokenKind) (place count : Nat) :
    Forward (emitUnits kind place count) :=
  (forward_look _).bind fun _ => forward_emit _ _

theorem forward_declareEncoding (label : String) : Forward (declareEncoding label) := by
  refine (forward_look _).bind fun _ => (forward_read Scan.forward_encoding).bind fun _ => ?_
  split
  · exact forward_throw _
  · refine .ite (forward_pure _) ((forward_look _).bind fun _ => (forward_look _).bind fun _ => ?_)
    split
    · exact forward_throw _
    · exact forward_read (Scan.forward_switchEncoding _)

theorem forward_versionDeclaration (ch : CodePoint) : Forward (versionDeclaration ch) :=
  (forward_read Scan.forward_last).bind fun _ => (forward_require _ _).bind fun _ =>
    (forward_read (Scan.forward_skipAll _)).bind fun _ => (forward_require _ _).bind fun _ =>
      (forward_emitUnits _ _ _).bind fun _ => (forward_read Scan.forward_openValue).bind fun _ =>
        (forward_read Scan.forward_offset).bind fun _ =>
          (forward_read Scan.forward_version).bind fun _ => (forward_require _ _).bind fun _ =>
            (forward_emitUnits _ _ _).bind fun _ => forward_read (Scan.forward_closeValue _)

theorem forward_encodingDeclaration : Forward encodingDeclaration :=
  (forward_read Scan.forward_last).bind fun _ =>
    (forward_read (Scan.forward_skipAll _)).bind fun _ => (forward_require _ _).bind fun _ =>
      (forward_emitUnits _ _ _).bind fun _ => (forward_read Scan.forward_openValue).bind fun _ =>
        (forward_read Scan.forward_offset).bind fun _ =>
          (forward_read (Scan.progressive_drive _ _).forward).bind fun _ =>
            (forward_read Scan.forward_last).bind fun _ => (forward_emit _ _).bind fun _ =>
              forward_declareEncoding _

theorem forward_standaloneDeclaration : Forward standaloneDeclaration :=
  (forward_read Scan.forward_last).bind fun _ =>
    (forward_read (Scan.forward_skipAll _)).bind fun _ => (forward_require _ _).bind fun _ =>
      (forward_emitUnits _ _ _).bind fun _ => (forward_read Scan.forward_openValue).bind fun _ =>
        (forward_read Scan.forward_offset).bind fun _ =>
          (forward_read Scan.forward_standaloneAnswer).bind fun _ =>
            (forward_emitUnits _ _ _).bind fun _ => forward_read (Scan.forward_closeValue _)

theorem forward_optionalEncoding : Forward optionalEncoding :=
  (forward_read Scan.forward_nextSpaced).bind fun _ =>
    .ite
      (forward_encodingDeclaration.bind fun _ => forward_read Scan.forward_nextSpaced)
      (forward_pure _)

theorem forward_optionalDeclarations : Forward optionalDeclarations :=
  forward_optionalEncoding.bind fun _ =>
    .ite
      (forward_standaloneDeclaration.bind fun _ => progressive_nextAfterSpace.forward)
      (forward_pure _)

theorem forward_declaration (ch : CodePoint) : Forward (declaration ch) :=
  (forward_versionDeclaration _).bind fun _ => forward_optionalDeclarations.bind fun _ =>
    (forward_require _ _).bind fun _ => (forward_read (Scan.forward_skip _)).bind fun _ =>
      (forward_require _ _).bind fun _ => progressive_nextAfterSpace.forward.bind fun _ =>
        forward_require _ _

theorem forward_spells (span : Span) (text : String) : Forward (spells span text) :=
  forward_read (Scan.forward_ask _)

theorem forward_endTag : Forward endTag := by
  refine (forward_read Scan.forward_offset).bind fun _ => (forward_look _).bind fun opened => ?_
  split
  · exact forward_throw _
  · exact (forward_read (Scan.forward_skipAgain _ _)).bind fun _ =>
      (forward_requireAt _ _ _).bind fun _ => (forward_update fun _ => by rfl).bind fun _ =>
        progressive_nextAfterSpace.forward.bind fun _ => (forward_require _ _).bind fun _ =>
          .ite (forward_pure _) forward_afterMarkup

theorem forward_content (opened : Bool) : Forward (content opened) :=
  (forward_read Scan.forward_offset).bind fun _ => progressive_nextAfterSpace.forward.bind fun _ =>
    .ite
      ((forward_read Scan.forward_last).bind fun _ =>
        (forward_read (Scan.forward_skip _)).bind fun _ =>
          .ite
            (.ite
              ((forward_emitText _ _).bind fun _ => forward_endTag)
              ((forward_emitSpace _ _).bind fun _ => forward_endTag))
            ((forward_emitSpace _ _).bind fun _ => forward_pure _))
      (forward_text _ _)

theorem forward_closeTag (ch : CodePoint) (opened : Bool) : Forward (closeTag ch opened) :=
  (forward_require _ _).bind fun _ => forward_closeScope.bind fun _ =>
    (forward_look _).bind fun _ => .ite (forward_pure _) (forward_content _)

theorem forward_tagEnd (ch : CodePoint) : Forward (tagEnd ch) :=
  .ite
    ((forward_update fun _ => by rfl).bind fun _ =>
      (forward_read Scan.progressive_next.forward).bind fun _ => forward_closeTag _ _)
    (forward_closeTag _ _)

theorem forward_tagRest (ch : CodePoint) : Forward (tagRest ch) :=
  (forward_read (Scan.forward_skipSpace _)).bind fun _ =>
    .ite ((forward_read Scan.forward_last).bind fun _ => forward_pure _) (forward_tagEnd _)

theorem forward_checkElementPrefix (name : Name) : Forward (checkElementPrefix name) :=
  (forward_look _).bind fun _ =>
    .ite ((forward_spells _ _).bind fun _ => forward_requireAt _ _ _) (forward_pure _)

theorem forward_openElement (name : Name) : Forward (openElement name) :=
  (forward_look _).bind fun _ => (forward_requireAt _ _ _).bind fun _ =>
    forward_update fun _ => by rfl

theorem forward_enterScope (name : Name) : Forward (enterScope name) :=
  (forward_look _).bind fun _ =>
    .ite ((forward_look _).bind fun _ => forward_update fun _ => by rfl) (forward_pure _)

theorem progressive_startTag (place : Nat) : Progressive (startTag place) :=
  (progressive_read (Scan.progressive_nameRest _)).bind fun _ =>
    (forward_checkElementPrefix _).bind fun _ => (forward_openElement _).bind fun _ =>
      (forward_emitElement _).bind fun _ => (forward_enterScope _).bind fun _ => forward_tagRest _

theorem forward_settleRole (role : AttributeRole) (name : Name) : Forward (settleRole role name) :=
  (forward_look _).bind fun _ =>
    .ite
      ((forward_look _).bind fun _ => (forward_spells _ _).bind fun _ =>
        (forward_requireAt _ _ _).bind fun _ => (forward_spells _ _).bind fun _ =>
          .ite (forward_pure _) (forward_pure _))
      (forward_pure _)

theorem forward_addAttribute (name : Name) : Forward (addAttribute name) :=
  (forward_look _).bind fun _ => (forward_requireAt _ _ _).bind fun _ =>
    forward_update fun _ => by rfl

theorem forward_noteAttribute (role : AttributeRole) (name : Name) :
    Forward (noteAttribute role name) := by
  refine (forward_look _).bind fun _ => .ite ((forward_look _).bind fun _ => ?_) (forward_pure _)
  cases role with
  | namespacePrefix => exact forward_update fun _ => by rfl
  | plain => exact (forward_spells _ _).bind fun _ => .ite (forward_pure _) (forward_update fun _ => by rfl)
  | defaultNamespace => exact forward_pure _
  | xmlPrefix => exact forward_pure _

theorem forward_checkReserved (place : Nat) (reserved : Namespace.Reserved) :
    Forward (checkReserved place reserved) := by
  cases reserved with
  | none => exact forward_pure _
  | xml => exact forward_throw _
  | xmlns => exact forward_throw _

theorem forward_bindValue (role : AttributeRole) (value : Span) : Forward (bindValue role value) := by
  refine (forward_look _).bind fun _ => .ite ((forward_requireAt _ _ _).bind fun _ =>
    (forward_read (Scan.forward_ask _)).bind fun _ => ?_) (forward_pure _)
  cases role with
  | xmlPrefix => exact forward_requireAt _ _ _
  | namespacePrefix => exact (forward_update fun _ => by rfl).bind fun _ => forward_checkReserved _ _
  | defaultNamespace => exact forward_checkReserved _ _
  | plain => exact forward_checkReserved _ _

theorem forward_attributeValue (ch : CodePoint) : Forward (attributeValue ch) :=
  (forward_read (Scan.forward_openAttribute _)).bind fun _ =>
    (forward_read Scan.forward_offset).bind fun _ =>
      (forward_read (Scan.progressive_drive _ _).forward).bind fun _ =>
        (forward_read Scan.forward_last).bind fun _ => forward_pure _

theorem progressive_readAttribute (place : Nat) (first : CodePoint) :
    Progressive (readAttribute place first) :=
  (forward_read (Scan.forward_attributeRole _)).bind_progressive fun _ =>
    (forward_read (Scan.forward_nameFrom _ _)).bind_progressive fun _ =>
      (forward_settleRole _ _).bind_progressive fun _ =>
        (forward_addAttribute _).bind_progressive fun _ =>
          (forward_emitName _ _).bind_progressive fun _ =>
            (forward_noteAttribute _ _).bind_progressive fun _ =>
              (forward_attributeValue _).bind_progressive fun _ =>
                (forward_bindValue _ _).bind_progressive fun _ =>
                  (forward_emitBounded _ _).bind_progressive fun _ =>
                    (progressive_read Scan.progressive_next).bind fun _ => forward_tagRest _

theorem progressive_start : Progressive start :=
  (progressive_read Scan.progressive_next).bind fun _ =>
    .ite
      ((forward_read Scan.forward_opensDeclaration.orRewind).bind fun _ =>
        .ite
          (progressive_nextAfterSpace.forward.bind fun _ => (forward_declaration _).bind fun _ =>
            forward_pure _)
          (forward_pure _))
      ((forward_require _ _).bind fun _ => progressive_nextAfterSpace.forward.bind fun _ =>
        (forward_require _ _).bind fun _ => forward_pure _)

theorem progressive_markup : Progressive markup :=
  (forward_read Scan.forward_offset).bind_progressive fun _ =>
    (progressive_read Scan.progressive_next).bind fun _ =>
      .ite (progressive_startTag _).forward
        (.ite forward_endTag
          (.ite (forward_instruction.bind fun _ => forward_resume)
            (.ite (forward_declared.bind fun _ => forward_resume) (forward_fail _))))

theorem epilog_advances {s s' : Lexer} {phase : Phase} (hOk : epilog s = .ok (some phase) s') :
    s.cursor.Advances s'.cursor := by
  obtain ⟨found, s₁, hFound, hRest⟩ := bind_eq_ok_iff.mp hOk
  cases found with
  | none => cases hRest
  | some ch =>
    have hAdvances : s.cursor.Advances s₁.cursor := by
      unfold read at hFound
      split at hFound <;> cases hFound
      exact Scan.nextAfterSpace?_advances ‹_›
    refine hAdvances.trans_reaches (Forward.bind (forward_require _ _) (fun _ => ?_) _ _ _ hRest)
    refine (forward_read Scan.forward_tail).bind fun tail => ?_
    cases tail with
    | comment => exact forward_comment.bind fun _ => forward_pure _
    | instruction => exact forward_instruction.bind fun _ => forward_pure _

theorem progressive_map {action : Lex α} (f : α → β) (hAction : Progressive action) :
    Progressive (f <$> action) := by
  intro s b s' hOk
  change EStateM.map f action s = _ at hOk
  unfold EStateM.map at hOk
  split at hOk <;> cases hOk
  exact hAction _ _ _ ‹_›

theorem step_advances {phase phase' : Phase} {s s' : Lexer}
    (hOk : step phase s = .ok (some phase') s') : s.cursor.Advances s'.cursor := by
  cases phase with
  | start => exact progressive_map some progressive_start _ _ _ hOk
  | markup => exact progressive_map some progressive_markup _ _ _ hOk
  | attributes place first => exact progressive_map some (progressive_readAttribute _ _) _ _ _ hOk
  | epilog => exact epilog_advances hOk

end Lex
end XmlIndex
