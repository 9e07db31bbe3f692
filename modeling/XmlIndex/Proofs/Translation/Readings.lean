import XmlIndex.Proofs.Translation.Scan

/-! # Composite readings of the same bytes

The readings of the grammar follow from those of characters and automata. A name remembers places,
so names at the same place are the result; all else that is read is the same.
-/
namespace XmlIndex
set_option autoImplicit false

namespace Overlay
variable {v : Overlay}

theorem reads_text (ch : CodePoint) : v.Reads Eq (Scan.text ch) (Scan.text ch) :=
  reads_feed (machines_of_placeless Text.placeless_step) rfl ch

theorem reads_comment : v.Reads Eq Scan.comment Scan.comment :=
  reads_of_placeless Comment.placeless_step _

theorem reads_characterSection : v.Reads Eq Scan.characterSection Scan.characterSection :=
  reads_of_placeless CharacterSection.placeless_step _

theorem reads_instructionData : v.Reads Eq Scan.instructionData Scan.instructionData :=
  reads_of_placeless Instruction.placeless_step _

theorem reads_documentType : v.Reads Eq Scan.documentType Scan.documentType :=
  reads_of_placeless DocumentType.placeless_step _

theorem reads_reservedLetters (ch : CodePoint) :
    v.Reads Eq (Scan.reservedLetters ch) (Scan.reservedLetters ch) := by
  unfold Scan.reservedLetters
  split
  · exact .ite (reads_skipEach _) (simulates_pure rfl)
  · exact simulates_pure rfl

theorem reads_instructionTarget : v.Reads Eq Scan.instructionTarget Scan.instructionTarget :=
  reads_next.bind_eq fun first => (reads_require _ _).bind_eq fun _ =>
    (reads_reservedLetters first).bind_eq fun _ =>
      .ite
        (reads_next.bind_eq fun _ => (reads_require _ _).bind_eq fun _ =>
          .ite (reads_nextAfter _) (simulates_pure rfl))
        (reads_nextAfter _)

theorem reads_openValue : v.Reads Eq Scan.openValue Scan.openValue :=
  reads_next.bind_eq fun _ => (reads_skipSpace _).bind_eq fun _ =>
    (reads_require _ _).bind_eq fun _ => reads_nextAfterSpace.bind_eq fun _ =>
      (reads_require _ _).bind_eq fun _ => simulates_pure rfl

theorem reads_closeValue (quote : CodePoint) :
    v.Reads Eq (Scan.closeValue quote) (Scan.closeValue quote) :=
  (reads_skip quote).bind_eq fun _ => reads_require _ _

theorem reads_version : v.Reads Eq Scan.version Scan.version :=
  (reads_skipAll _).bind_eq fun _ => .ite (reads_skipAny _) (simulates_pure rfl)

theorem reads_standaloneAnswer : v.Reads Eq Scan.standaloneAnswer Scan.standaloneAnswer :=
  (reads_skipAll _).bind_eq fun _ => .ite (simulates_pure rfl)
    ((reads_skipAll _).bind_eq fun _ => .ite (simulates_pure rfl) (reads_fail _))

theorem reads_label (quote : CodePoint) : v.Reads Eq (Scan.label quote) (Scan.label quote) :=
  reads_of_placeless (EncodingLabel.placeless_step quote) _

theorem reads_nextSpaced : v.Reads Eq Scan.nextSpaced Scan.nextSpaced :=
  reads_next.bind_eq fun _ => (reads_skipSpace _).bind_eq fun _ => simulates_pure rfl

theorem reads_opensDeclaration : v.Reads Eq Scan.opensDeclaration Scan.opensDeclaration :=
  (reads_skipEach _).bind_eq fun _ =>
    .ite
      (reads_next.bind_eq fun _ => (reads_require _ _).bind_eq fun _ => simulates_pure rfl)
      (simulates_pure rfl)

/-- Both actions succeed, both meet the end of the document, or both fail otherwise. -/
theorem Reads.cases {α : Type} {action action' : Scan α} (hReads : v.Reads Eq action action')
    {c c' : Cursor} (hCursors : v.Cursors c c') :
    (∃ a d d', action c = .ok a d ∧ action' c' = .ok a d' ∧ v.Cursors d d') ∨
      (∃ d d', action c = .error .endOfDocument d ∧ action' c' = .error .endOfDocument d' ∧
        v.Cursors d d') ∨
      ∃ fault fault' d d', fault ≠ .endOfDocument ∧ fault' ≠ .endOfDocument ∧
        action c = .error fault d ∧ action' c' = .error fault' d' ∧ v.Faults fault fault' ∧
        v.Cursors d d' := by
  have hOutcome := hReads c c' hCursors
  cases hOuter : action c <;> cases hInner : action' c' <;> rw [hOuter, hInner] at hOutcome
  case ok.ok =>
    obtain ⟨rfl, hAfter⟩ := hOutcome
    exact .inl ⟨_, _, _, rfl, rfl, hAfter⟩
  case ok.error => exact hOutcome.elim
  case error.ok => exact hOutcome.elim
  case error.error fault d fault' d' =>
    obtain hNone | ⟨hFaults, hAfter⟩ := hOutcome
    · exact hNone.elim
    · by_cases hEnd : fault = .endOfDocument
      · subst hEnd
        cases hFaults
        exact .inr (.inl ⟨d, d', rfl, rfl, hAfter⟩)
      · refine .inr (.inr ⟨fault, fault', d, d', hEnd, ?_, rfl, rfl, hFaults, hAfter⟩)
        cases hFaults with
        | same => exact hEnd
        | placed cause => exact Fault.noConfusion

theorem reads_nextAfterSpace? : v.Reads Eq Scan.nextAfterSpace? Scan.nextAfterSpace? := by
  intro c c' hCursors
  unfold Scan.nextAfterSpace?
  obtain ⟨ch, d, d', hOuter, hInner, hAfter⟩ | ⟨d, d', hOuter, hInner, hAfter⟩ |
    ⟨fault, fault', d, d', hEnd, hEnd', hOuter, hInner, hFaults, hAfter⟩ :=
    reads_nextAfterSpace.cases hCursors
  · rw [hOuter, hInner]
    exact ⟨rfl, hAfter⟩
  · rw [hOuter, hInner]
    exact ⟨rfl, hAfter⟩
  · simp only [hOuter, hInner]
    exact .inr ⟨hFaults, hAfter⟩

theorem reads_tail : v.Reads Eq Scan.tail Scan.tail := by
  intro c c' hCursors
  unfold Scan.tail
  have hOpening : v.Reads Eq
      (do
        if ← Scan.skip CodePoint.question then pure Scan.Tail.instruction
        else if ← Scan.skipAll [CodePoint.bang, CodePoint.hyphen, CodePoint.hyphen] then pure .comment
        else Scan.fail .notTerminated) _ :=
    (reads_skip _).bind_eq fun _ => .ite (simulates_pure rfl)
      ((reads_skipAll _).bind_eq fun _ => .ite (simulates_pure rfl) (reads_fail _))
  obtain ⟨tail, d, d', hOuter, hInner, hAfter⟩ | ⟨d, d', hOuter, hInner, hAfter⟩ |
    ⟨fault, fault', d, d', hEnd, hEnd', hOuter, hInner, hFaults, hAfter⟩ := hOpening.cases hCursors
  · simp only [hOuter, hInner]
    exact ⟨rfl, hAfter⟩
  · simp only [hOuter, hInner]
    exact .inr ⟨.same rfl, hAfter⟩
  · simp only [hOuter, hInner]
    split
    · rename_i hResult
      cases hResult
      exact (hEnd rfl).elim
    · split
      · rename_i hResult
        cases hResult
        exact (hEnd' rfl).elim
      · exact .inr ⟨hFaults, hAfter⟩

def Found (v : Overlay) (found found' : CodePoint × Nat) : Prop :=
  found.1 = found'.1 ∧ v.Place found.2 found'.2

def FoundName (v : Overlay) (found found' : CodePoint × Name) : Prop :=
  found.1 = found'.1 ∧ v.Named found.2 found'.2

theorem machines_nameStep : v.Machines v.Place v.Found Scan.nameStep Scan.nameStep := by
  intro colon colon' a b ch hColon hPlace
  unfold Scan.nameStep
  split
  · change v.Place _ _
    split
    · exact hPlace
    · exact hColon
  · exact ⟨rfl, hColon⟩

section Names
variable {a b : Nat}

theorem reads_nameEnd (hPlace : v.Place a b) {found found' : CodePoint × Nat}
    (hFound : v.Found found found') :
    v.Reads v.FoundName (Scan.nameEnd a found) (Scan.nameEnd b found') :=
  reads_last.bind fun _ _ hStop => simulates_pure ⟨hFound.1, .of_places hPlace hStop hFound.2⟩

theorem reads_nameRest (hPlace : v.Place a b) :
    v.Reads v.FoundName (Scan.nameRest a) (Scan.nameRest b) :=
  (reads_drive machines_nameStep hPlace).bind fun _ _ hFound => reads_nameEnd hPlace hFound

theorem reads_nameFrom (hPlace : v.Place a b) (ch : CodePoint) :
    v.Reads v.FoundName (Scan.nameFrom a ch) (Scan.nameFrom b ch) :=
  (reads_feed machines_nameStep hPlace ch).bind fun _ _ hFound => reads_nameEnd hPlace hFound

end Names

theorem reads_attributeRole (first : CodePoint) :
    v.Reads Eq (Scan.attributeRole first) (Scan.attributeRole first) :=
  .ite
    ((reads_skipAll _).bind_eq fun _ =>
      .ite (reads_next.bind_eq fun _ => simulates_pure rfl) (simulates_pure rfl))
    (simulates_pure rfl)

theorem reads_openAttribute (ch : CodePoint) :
    v.Reads Eq (Scan.openAttribute ch) (Scan.openAttribute ch) :=
  (reads_skipSpace ch).bind_eq fun _ => (reads_require _ _).bind_eq fun _ =>
    reads_nextAfterSpace.bind_eq fun _ => (reads_require _ _).bind_eq fun _ => simulates_pure rfl

theorem reads_attributeValue (quote : CodePoint) :
    v.Reads Eq (Scan.attributeValue quote) (Scan.attributeValue quote) :=
  reads_of_placeless (AttributeValue.placeless_step quote) _

end Overlay
end XmlIndex
