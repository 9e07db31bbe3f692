import XmlIndex.Proofs.Lexer.Writing
import XmlIndex.Proofs.Scan.Languages
import XmlIndex.Proofs.Scan.Targets

/-! # Comments, sections, instructions and document types

Each piece of markup is read exactly if it is well-formed, fits its tokens and may stand where it
stands; the lexer is then after its text and has written its tokens.
-/
namespace XmlIndex
set_option autoImplicit false
open Grammar

namespace Scan
variable {c c' : Cursor} {u : Unit}

theorem comment_eq_ok_iff : comment c = .ok u c' ↔ ∃ body,
    (IsValid body ∧ EndsFirst [CodePoint.hyphen, CodePoint.hyphen] body) ∧
      c.Reads (body ++ [CodePoint.hyphen, CodePoint.hyphen, CodePoint.greaterThan]) ∧
        c' = c.advance (body ++ [CodePoint.hyphen, CodePoint.hyphen, CodePoint.greaterThan]) := by
  rw [comment, drive_eq_ok_iff]
  constructor
  · rintro ⟨_, hReads, hAccepts, rfl⟩
    obtain ⟨body, rfl, hBody⟩ := Comment.accepts_iff.mp hAccepts
    exact ⟨body, hBody, hReads, rfl⟩
  · rintro ⟨body, hBody, hReads, rfl⟩
    exact ⟨_, hReads, Comment.accepts_iff.mpr ⟨body, rfl, hBody⟩, rfl⟩

theorem characterSection_eq_ok_iff : characterSection c = .ok u c' ↔ ∃ body,
    (IsValid body ∧ EndsFirst CharacterSection.terminator body) ∧
      c.Reads (body ++ CharacterSection.terminator) ∧
        c' = c.advance (body ++ CharacterSection.terminator) := by
  rw [characterSection, drive_eq_ok_iff]
  constructor
  · rintro ⟨_, hReads, hAccepts, rfl⟩
    obtain ⟨body, rfl, hBody⟩ := CharacterSection.accepts_iff.mp hAccepts
    exact ⟨body, hBody, hReads, rfl⟩
  · rintro ⟨body, hBody, hReads, rfl⟩
    exact ⟨_, hReads, CharacterSection.accepts_iff.mpr ⟨body, rfl, hBody⟩, rfl⟩

theorem instructionData_eq_ok_iff : instructionData c = .ok u c' ↔ ∃ body,
    (IsValid body ∧ EndsFirst Instruction.terminator body) ∧
      c.Reads (body ++ Instruction.terminator) ∧ c' = c.advance (body ++ Instruction.terminator) := by
  rw [instructionData, drive_eq_ok_iff]
  constructor
  · rintro ⟨_, hReads, hAccepts, rfl⟩
    obtain ⟨body, rfl, hBody⟩ := Instruction.accepts_iff.mp hAccepts
    exact ⟨body, hBody, hReads, rfl⟩
  · rintro ⟨body, hBody, hReads, rfl⟩
    exact ⟨_, hReads, Instruction.accepts_iff.mpr ⟨body, rfl, hBody⟩, rfl⟩

theorem documentType_eq_ok_iff : documentType c = .ok u c' ↔ ∃ body,
    IsValid body ∧ Balanced body ∧ c.Reads (body ++ [CodePoint.greaterThan]) ∧
      c' = c.advance (body ++ [CodePoint.greaterThan]) := by
  rw [documentType, drive_eq_ok_iff]
  constructor
  · rintro ⟨_, hReads, hAccepts, rfl⟩
    obtain ⟨body, rfl, hValid, hCloses⟩ := DocumentType.accepts_iff.mp hAccepts
    exact ⟨body, hValid, DocumentType.closes_zero_iff.mp hCloses, hReads, rfl⟩
  · rintro ⟨body, hValid, hBalanced, hReads, rfl⟩
    exact ⟨_, hReads, DocumentType.accepts_iff.mpr
      ⟨body, rfl, hValid, DocumentType.closes_zero_iff.mpr hBalanced⟩, rfl⟩

end Scan

namespace Lexer

/-- Sections stand inside the root, document types before it and only once. -/
structure Allows (s : Lexer) (m : Markup) : Prop where
  inside : m.isSection = true → s.openTags ≠ []
  outside : m.isDocumentType = true → s.openTags = [] ∧ s.hasDoctype = false

def after (s : Lexer) (m : Markup) : Lexer :=
  { (s.past m.inner).add (m.tokens s.cursor.encoding s.depth s.cursor.offset) with
    hasDoctype := s.hasDoctype || m.isDocumentType }

theorem after_of_not_isDocumentType {s : Lexer} {m : Markup} (hKind : m.isDocumentType = false) :
    s.after m = (s.past m.inner).add (m.tokens s.cursor.encoding s.depth s.cursor.offset) := by
  rw [after, hKind, Bool.or_false]
  rfl

end Lexer

namespace Lex
variable {s s' : Lexer} {u : Unit}

theorem outsideRoot_eq_ok_iff {outside : Bool} :
    outsideRoot s = .ok outside s' ↔ outside = s.openTags.isEmpty ∧ s' = s :=
  look_eq_ok_iff

/-- A body up to a terminator of ASCII; `write` is told where it stands. -/
theorem body_eq_ok_iff {scan : Scan Unit} {terminator : Chars} {P : Chars → Prop}
    {write : Span → Lex Unit} {count : Nat}
    (hScan : ∀ c', scan s.cursor = .ok () c' ↔ ∃ body, P body ∧
      s.cursor.Reads (body ++ terminator) ∧ c' = s.cursor.advance (body ++ terminator))
    (hAscii : ∀ ch ∈ terminator, ch < 0x80) (hCount : terminator.length = count) :
    (do
      let place ← read Scan.offset
      read scan
      let span ← before place count
      write span) s = .ok u s' ↔
    ∃ body, P body ∧ s.cursor.Reads (body ++ terminator) ∧
      write ⟨s.cursor.offset, s.cursor.encoding.size body⟩ (s.past (body ++ terminator)) = .ok u s' := by
  have hSpan : ∀ body : Chars, (s.past (body ++ terminator)).cursor.offset - s.cursor.offset -
      count * (s.past (body ++ terminator)).cursor.encoding.unitSize = s.cursor.encoding.size body := by
    intro body
    rw [Lexer.cursor_past, Cursor.offset_advance, Cursor.encoding_advance, Encoding.size_append,
      Encoding.size_of_ascii hAscii, hCount]
    omega
  simp only [before, unitSize, bind_eq_ok_iff, read_offset_eq_ok_iff, look_eq_ok_iff, pure_eq_ok_iff]
  constructor
  · rintro ⟨_, _, ⟨rfl, rfl⟩, _, _, hRead, _, _, ⟨_, _, ⟨rfl, rfl⟩, _, _, ⟨rfl, rfl⟩, rfl, rfl⟩, hWrite⟩
    obtain ⟨_, hOk, rfl⟩ := read_eq_ok_iff.mp hRead
    obtain ⟨body, hBody, hReads, rfl⟩ := (hScan _).mp hOk
    refine ⟨body, hBody, hReads, ?_⟩
    rw [← hSpan body]
    exact hWrite
  · rintro ⟨body, hBody, hReads, hWrite⟩
    refine ⟨_, _, ⟨rfl, rfl⟩, (), s.past (body ++ terminator),
      read_eq_ok_iff.mpr ⟨_, (hScan _).mpr ⟨body, hBody, hReads, rfl⟩, rfl⟩, _, _,
      ⟨_, _, ⟨rfl, rfl⟩, _, _, ⟨rfl, rfl⟩, rfl, rfl⟩, ?_⟩
    rw [← hSpan body] at hWrite
    exact hWrite

theorem comment_eq_ok_iff : comment s = .ok u s' ↔ ∃ body,
    (IsValid body ∧ EndsFirst [CodePoint.hyphen, CodePoint.hyphen] body) ∧
      s.cursor.Reads (body ++ [CodePoint.hyphen, CodePoint.hyphen, CodePoint.greaterThan]) ∧
        s' = (s.past (body ++ [CodePoint.hyphen, CodePoint.hyphen, CodePoint.greaterThan])).add
          (pieces s.cursor.encoding .comment s.depth s.cursor.offset (s.cursor.encoding.size body)) := by
  refine (body_eq_ok_iff (fun _ => Scan.comment_eq_ok_iff) (by decide) rfl).trans ?_
  simp only [emitText_eq_ok_iff, Lexer.cursor_past, Lexer.depth_past, Cursor.encoding_advance]

theorem characterSection_eq_ok_iff : characterSection s = .ok u s' ↔ ∃ body,
    (IsValid body ∧ EndsFirst CharacterSection.terminator body) ∧
      s.cursor.Reads (body ++ CharacterSection.terminator) ∧
        s' = (s.past (body ++ CharacterSection.terminator)).add
          (pieces s.cursor.encoding .cdata s.depth s.cursor.offset (s.cursor.encoding.size body)) := by
  refine (body_eq_ok_iff (fun _ => Scan.characterSection_eq_ok_iff) (by decide) rfl).trans ?_
  simp only [emitText_eq_ok_iff, Lexer.cursor_past, Lexer.depth_past, Cursor.encoding_advance]

theorem instructionData_eq_ok_iff : instructionData s = .ok u s' ↔ ∃ body,
    (IsValid body ∧ EndsFirst Instruction.terminator body) ∧
      s.cursor.Reads (body ++ Instruction.terminator) ∧ TextFits s.cursor.encoding body ∧
        s' = (s.past (body ++ Instruction.terminator)).add
          [token s.cursor.encoding .instructionData s.depth s.cursor.offset
            (s.cursor.encoding.size body)] := by
  refine (body_eq_ok_iff (fun _ => Scan.instructionData_eq_ok_iff) (by decide) rfl).trans ?_
  simp only [emitBounded_eq_ok_iff, Lexer.cursor_past, Lexer.depth_past, Cursor.encoding_advance,
    TextFits]

theorem read_instructionTarget_eq_ok_iff {ch : CodePoint} :
    read Scan.instructionTarget s = .ok ch s' ↔
      ∃ target, s.cursor.Reads (target ++ [ch]) ∧ IsName target ∧ CodePoint.isName ch = false ∧
        (Matches Instruction.reserved target →
          ch ≠ CodePoint.question ∧ CodePoint.isSpace ch = false) ∧ s' = s.past (target ++ [ch]) := by
  simp only [read_eq_ok_iff, Scan.instructionTarget_eq_ok_iff]
  constructor
  · rintro ⟨_, ⟨target, hReads, hName, hLast, hReserved, rfl⟩, rfl⟩
    exact ⟨target, hReads, hName, hLast, hReserved, rfl⟩
  · rintro ⟨target, hReads, hName, hLast, hReserved, rfl⟩
    exact ⟨_, ⟨target, hReads, hName, hLast, hReserved, rfl⟩, rfl⟩

def instructionRest (ch : CodePoint) (stop : Nat) : Lex Unit := do
  if ch = CodePoint.question then
    require (← read (Scan.skip CodePoint.greaterThan)) .instructionEnd
    emit .instructionData ⟨stop, 0⟩
  else
    require (CodePoint.isSpace ch) .afterTarget
    instructionData

theorem instructionRest_eq_ok_iff {ch : CodePoint} {stop : Nat} :
    instructionRest ch stop s = .ok u s' ↔
      ch = CodePoint.question ∧ s.cursor.Reads [CodePoint.greaterThan] ∧
          s' = (s.past [CodePoint.greaterThan]).add
            [token s.cursor.encoding .instructionData s.depth stop 0] ∨
        CodePoint.isSpace ch = true ∧ ∃ body,
          (IsValid body ∧ EndsFirst Instruction.terminator body) ∧
            s.cursor.Reads (body ++ Instruction.terminator) ∧ TextFits s.cursor.encoding body ∧
              s' = (s.past (body ++ Instruction.terminator)).add
                [token s.cursor.encoding .instructionData s.depth s.cursor.offset
                  (s.cursor.encoding.size body)] := by
  unfold instructionRest
  split
  · subst ‹ch = _›
    have hSpace : CodePoint.isSpace CodePoint.question = false := by decide
    simp only [bind_eq_ok_iff, require_eq_ok_iff, emit_eq_ok_iff, hSpace, Bool.false_eq_true, false_and,
      or_false, true_and]
    constructor
    · rintro ⟨_, _, hSkip, _, _, ⟨rfl, rfl⟩, rfl⟩
      obtain ⟨hReads, rfl⟩ := read_skip_eq_ok_true_iff.mp hSkip
      exact ⟨hReads, by simp⟩
    · rintro ⟨hReads, rfl⟩
      exact ⟨true, _, read_skip_eq_ok_true_iff.mpr ⟨hReads, rfl⟩, (), _, ⟨rfl, rfl⟩, by simp⟩
  · rename_i hOther
    simp only [bind_eq_ok_iff, require_eq_ok_iff, instructionData_eq_ok_iff, hOther, false_and, false_or]
    constructor
    · rintro ⟨_, _, ⟨hSpace, rfl⟩, hData⟩
      exact ⟨hSpace, hData⟩
    · rintro ⟨hSpace, hData⟩
      exact ⟨(), _, ⟨hSpace, rfl⟩, hData⟩

theorem instruction_eq_ok_iff_rest (hReads : s.cursor.Reads [CodePoint.question]) :
    instruction (s.past [CodePoint.question]) = .ok u s' ↔ ∃ target ch,
      s.cursor.Reads (CodePoint.question :: (target ++ [ch])) ∧ IsName target ∧
        CodePoint.isName ch = false ∧ (Matches Instruction.reserved target →
          ch ≠ CodePoint.question ∧ CodePoint.isSpace ch = false) ∧ TextFits s.cursor.encoding target ∧
          instructionRest ch (s.cursor.offset + s.cursor.encoding.size (CodePoint.question :: target))
            ((s.past (CodePoint.question :: (target ++ [ch]))).add
              [token s.cursor.encoding .instructionTarget s.depth
                (s.cursor.offset + s.cursor.encoding.size [CodePoint.question])
                (s.cursor.encoding.size target)]) = .ok u s' := by
  have hUnfold : instruction = (do
      let place ← read Scan.offset
      let ch ← read Scan.instructionTarget
      let stop ← read Scan.last
      emitBounded .instructionTarget ⟨place, stop - place⟩
      instructionRest ch stop) := rfl
  simp only [hUnfold, bind_eq_ok_iff, read_offset_eq_ok_iff, read_last_eq_ok_iff, emitBounded_eq_ok_iff,
    read_instructionTarget_eq_ok_iff]
  constructor
  · rintro ⟨_, _, ⟨rfl, rfl⟩, ch, _, ⟨target, hText, hName, hLast, hReserved, rfl⟩, _, _, ⟨rfl, rfl⟩, _, _,
      ⟨hFits, rfl⟩, hOk⟩
    refine ⟨target, ch, Cursor.reads_cons.mpr ⟨hReads, hText⟩, hName, hLast, hReserved, ?_, ?_⟩
    · simpa [TextFits] using hFits
    · simpa [← Lexer.past_append, Nat.add_assoc, Nat.add_sub_add_left] using hOk
  · rintro ⟨target, ch, hText, hName, hLast, hReserved, hFits, hOk⟩
    refine ⟨_, _, ⟨rfl, rfl⟩, ch, _, ⟨target, (Cursor.reads_cons.mp hText).2, hName, hLast, hReserved, rfl⟩,
      _, _, ⟨rfl, rfl⟩, (), _, ⟨?_, rfl⟩, ?_⟩
    · simpa [TextFits] using hFits
    · simpa [← Lexer.past_append, Nat.add_assoc, Nat.add_sub_add_left] using hOk

/-- An instruction after its question mark. -/
theorem instruction_eq_ok_iff (hReads : s.cursor.Reads [CodePoint.question]) :
    instruction (s.past [CodePoint.question]) = .ok u s' ↔
      ∃ target data, (Markup.instruction target data).WellFormed ∧
        (Markup.instruction target data).Fits s.cursor.encoding ∧
          s.cursor.Reads (Markup.instruction target data).inner ∧
            s' = s.after (.instruction target data) := by
  simp only [instruction_eq_ok_iff_rest hReads, instructionRest_eq_ok_iff, Lexer.cursor_add,
    Lexer.cursor_past, Cursor.encoding_advance, Lexer.depth_add, Lexer.depth_past,
    Lexer.after_of_not_isDocumentType (m := .instruction _ _) rfl]
  constructor
  · rintro ⟨target, ch, hText, hName, hLast, hReserved, hFits, ⟨rfl, hEnd, rfl⟩ |
      ⟨hSpace, data, hData, hEnd, hDataFits, rfl⟩⟩
    · have hAll := Cursor.reads_append.mpr ⟨hText, hEnd⟩
      refine ⟨target, none, ⟨hName, fun h => (hReserved h).1 rfl⟩, hFits,
        by simpa [Markup.inner] using hAll, ?_⟩
      simp [Markup.inner, Markup.tokens, ← Lexer.past_append, Nat.add_assoc]
    · have hAll := Cursor.reads_append.mpr ⟨hText, hEnd⟩
      have hTarget : Markup.IsTarget target := ⟨hName, fun h => by simp [(hReserved h).2] at hSpace⟩
      refine ⟨target, some (ch, data), ⟨hTarget, hSpace, hData⟩, ⟨hFits, hDataFits⟩,
        by simpa [Markup.inner] using hAll, ?_⟩
      simp [Markup.inner, Markup.tokens, ← Lexer.past_append, Nat.add_assoc]
  · rintro ⟨target, _ | ⟨space, data⟩, hWell, hFits, hText, rfl⟩
    · have hAll : s.cursor.Reads ((CodePoint.question :: (target ++ [CodePoint.question])) ++
          [CodePoint.greaterThan]) := by simpa [Markup.inner] using hText
      rw [Cursor.reads_append] at hAll
      refine ⟨target, CodePoint.question, hAll.1, hWell.1, by decide, fun h => (hWell.2 h).elim, hFits,
        .inl ⟨rfl, hAll.2, ?_⟩⟩
      simp [Markup.inner, Markup.tokens, ← Lexer.past_append, Nat.add_assoc]
    · have hAll : s.cursor.Reads ((CodePoint.question :: (target ++ [space])) ++
          (data ++ Instruction.terminator)) := by simpa [Markup.inner] using hText
      rw [Cursor.reads_append] at hAll
      refine ⟨target, space, hAll.1, hWell.1.1, CodePoint.isName_of_isSpace hWell.2.1,
        fun h => (hWell.1.2 h).elim, hFits.1, .inr ⟨hWell.2.1, data, hWell.2.2, hAll.2, hFits.2, ?_⟩⟩
      simp [Markup.inner, Markup.tokens, ← Lexer.past_append, Nat.add_assoc]

theorem read_documentType_eq_ok_iff : read Scan.documentType s = .ok u s' ↔ ∃ body,
    IsValid body ∧ Balanced body ∧ s.cursor.Reads (body ++ [CodePoint.greaterThan]) ∧
      s' = s.past (body ++ [CodePoint.greaterThan]) := by
  simp only [read_eq_ok_iff, Scan.documentType_eq_ok_iff]
  constructor
  · rintro ⟨_, ⟨body, hValid, hBalanced, hReads, rfl⟩, rfl⟩
    exact ⟨body, hValid, hBalanced, hReads, rfl⟩
  · rintro ⟨body, hValid, hBalanced, hReads, rfl⟩
    exact ⟨_, ⟨body, hValid, hBalanced, hReads, rfl⟩, rfl⟩

theorem documentType_eq_ok_iff : documentType s = .ok u s' ↔
    s.openTags = [] ∧ s.hasDoctype = false ∧ ∃ body, IsValid body ∧ Balanced body ∧
      s.cursor.Reads (body ++ [CodePoint.greaterThan]) ∧ TextFits s.cursor.encoding body ∧
        s' = { (s.past (body ++ [CodePoint.greaterThan])).add [token s.cursor.encoding .doctype s.depth
          s.cursor.offset (s.cursor.encoding.size body)] with hasDoctype := true } := by
  simp only [documentType, bind_eq_ok_iff, outsideRoot_eq_ok_iff, look_eq_ok_iff, require_eq_ok_iff,
    update_eq_ok_iff, read_offset_eq_ok_iff, read_last_eq_ok_iff, emitBounded_eq_ok_iff,
    read_documentType_eq_ok_iff]
  have hSize : ∀ (t : Lexer) (body : Chars),
      (t.past (body ++ [CodePoint.greaterThan])).cursor.last - t.cursor.offset =
        t.cursor.encoding.size body := by
    simp
  constructor
  · rintro ⟨_, _, ⟨rfl, rfl⟩, _, _, ⟨hOutside, rfl⟩, _, _, ⟨rfl, rfl⟩, _, _, ⟨hFirst, rfl⟩, _, _, rfl, _, _,
      ⟨rfl, rfl⟩, _, _, ⟨body, hValid, hBalanced, hReads, rfl⟩, _, _, ⟨rfl, rfl⟩, hFits, rfl⟩
    rw [hSize] at hFits
    refine ⟨List.isEmpty_iff.mp hOutside, by simpa using hFirst, body, hValid, hBalanced, hReads,
      by simpa [TextFits] using hFits, ?_⟩
    rw [hSize]
    simp [Lexer.past, Lexer.add, Lexer.depth]
  · rintro ⟨hOutside, hFirst, body, hValid, hBalanced, hReads, hFits, rfl⟩
    refine ⟨_, _, ⟨rfl, rfl⟩, (), _, ⟨List.isEmpty_iff.mpr hOutside, rfl⟩, _, _, ⟨rfl, rfl⟩, (), _,
      ⟨by simpa using hFirst, rfl⟩, (), _, rfl, _, _, ⟨rfl, rfl⟩, (), _,
      ⟨body, hValid, hBalanced, hReads, rfl⟩, _, _, ⟨rfl, rfl⟩, ?_, ?_⟩
    · rw [hSize]
      simpa [TextFits] using hFits
    · rw [hSize]
      simp [Lexer.past, Lexer.add, Lexer.depth]

abbrev commentOpening : Chars :=
  [CodePoint.bang, CodePoint.hyphen, CodePoint.hyphen]

theorem comment_past_eq_ok_iff (hReads : s.cursor.Reads commentOpening) :
    comment (s.past commentOpening) = .ok u s' ↔ ∃ body, (Markup.comment body).WellFormed ∧
      s.cursor.Reads (Markup.comment body).inner ∧ s' = s.after (.comment body) := by
  simp only [comment_eq_ok_iff, Markup.inner, Markup.WellFormed, Markup.tokens, Cursor.reads_append,
    hReads, true_and, Lexer.after_of_not_isDocumentType (m := .comment _) rfl, Lexer.past_append,
    Lexer.cursor_past, Lexer.depth_past, Cursor.encoding_advance, Cursor.offset_advance]

abbrev sectionOpening : Chars :=
  CodePoint.bang :: CodePoint.leftBracket :: CodePoint.ofText "CDATA["

theorem inner_section (body : Chars) : (Markup.section body).inner =
    sectionOpening ++ (body ++ CharacterSection.terminator) :=
  rfl

theorem characterSection_past_eq_ok_iff (hReads : s.cursor.Reads sectionOpening) :
    characterSection (s.past sectionOpening) = .ok u s' ↔ ∃ body, (Markup.section body).WellFormed ∧
      s.cursor.Reads (Markup.section body).inner ∧ s' = s.after (.section body) := by
  simp only [characterSection_eq_ok_iff, inner_section, Markup.WellFormed, Markup.tokens, Cursor.reads_append,
    hReads, true_and, Lexer.after_of_not_isDocumentType (m := .section _) rfl, Lexer.past_append,
    Lexer.cursor_past, Lexer.depth_past, Cursor.encoding_advance, Cursor.offset_advance]

abbrev documentTypeOpening : Chars :=
  CodePoint.bang :: 0x44 :: CodePoint.ofText "OCTYPE"

theorem inner_documentType (body : Chars) : (Markup.documentType body).inner =
    documentTypeOpening ++ (body ++ [CodePoint.greaterThan]) :=
  rfl

theorem documentType_past_eq_ok_iff (hReads : s.cursor.Reads documentTypeOpening) :
    documentType (s.past documentTypeOpening) = .ok u s' ↔
      (s.openTags = [] ∧ s.hasDoctype = false) ∧ ∃ body, (Markup.documentType body).WellFormed ∧
        (Markup.documentType body).Fits s.cursor.encoding ∧
          s.cursor.Reads (Markup.documentType body).inner ∧ s' = s.after (.documentType body) := by
  have hAfter : ∀ body, s.after (.documentType body) =
      { ((s.past documentTypeOpening).past (body ++ [CodePoint.greaterThan])).add
          [token s.cursor.encoding .doctype s.depth
            (s.cursor.offset + s.cursor.encoding.size documentTypeOpening)
            (s.cursor.encoding.size body)] with hasDoctype := true } := by
    intro body
    rw [Lexer.after, inner_documentType, Lexer.past_append]
    simp only [Markup.isDocumentType, Bool.or_true]
    rfl
  simp only [documentType_eq_ok_iff, inner_documentType, hAfter, Markup.WellFormed, Markup.Fits, Cursor.reads_append,
    hReads, true_and, Lexer.openTags_past, Lexer.hasDoctype_past, Lexer.cursor_past, Lexer.depth_past,
    Cursor.encoding_advance, Cursor.offset_advance]
  constructor
  · rintro ⟨hOutside, hFirst, body, hValid, hBalanced, hText, hFits, rfl⟩
    exact ⟨⟨hOutside, hFirst⟩, body, ⟨hValid, hBalanced⟩, hFits, hText, rfl⟩
  · rintro ⟨⟨hOutside, hFirst⟩, body, ⟨hValid, hBalanced⟩, hFits, hText, rfl⟩
    exact ⟨hOutside, hFirst, body, hValid, hBalanced, hText, hFits, rfl⟩

/-- The rest of an opening, without which nothing is read of what it opens. -/
theorem opening_past_eq_ok_iff {scan : Scan Bool} {letters lead : Chars} {cause : SyntaxFault} {action : Lex Unit}
    (hScan : ∀ {c c' : Cursor}, scan c = .ok true c' ↔ c.Reads letters ∧ c' = c.advance letters)
    (hReads : s.cursor.Reads lead) :
    (do require (← read scan) cause; action) (s.past lead) = .ok u s' ↔
      s.cursor.Reads (lead ++ letters) ∧ action (s.past (lead ++ letters)) = .ok u s' := by
  simp only [bind_eq_ok_iff, require_eq_ok_iff, read_eq_ok_iff]
  rw [Cursor.reads_append, Lexer.past_append]
  constructor
  · rintro ⟨_, _, ⟨_, hSkip, rfl⟩, _, _, ⟨rfl, rfl⟩, hOk⟩
    obtain ⟨hLetters, rfl⟩ := hScan.mp hSkip
    exact ⟨⟨hReads, hLetters⟩, hOk⟩
  · rintro ⟨⟨-, hLetters⟩, hOk⟩
    exact ⟨true, _, ⟨_, hScan.mpr ⟨hLetters, rfl⟩, rfl⟩, (), _, ⟨rfl, rfl⟩, hOk⟩

/-- A section stands inside the root. -/
theorem sectionInside_eq_ok_iff (hReads : s.cursor.Reads sectionOpening) :
    (do require (!(← outsideRoot)) .cdataOutsideRoot; characterSection) (s.past sectionOpening) = .ok u s' ↔
      s.openTags ≠ [] ∧ ∃ body, (Markup.section body).WellFormed ∧
        s.cursor.Reads (Markup.section body).inner ∧ s' = s.after (.section body) := by
  simp only [bind_eq_ok_iff, outsideRoot_eq_ok_iff, require_eq_ok_iff]
  rw [← characterSection_past_eq_ok_iff hReads]
  constructor
  · rintro ⟨_, _, ⟨rfl, rfl⟩, _, _, ⟨hInside, rfl⟩, hOk⟩
    exact ⟨by simpa using hInside, hOk⟩
  · rintro ⟨hInside, hOk⟩
    exact ⟨_, _, ⟨rfl, rfl⟩, (), _, ⟨by simpa using hInside, rfl⟩, hOk⟩

/-- Markup after `<!`. -/
theorem declared_eq_ok_iff (hReads : s.cursor.Reads [CodePoint.bang]) :
    declared (s.past [CodePoint.bang]) = .ok u s' ↔
      ∃ m : Markup, m.inner.head? = some CodePoint.bang ∧ m.WellFormed ∧ m.Fits s.cursor.encoding ∧
        s.Allows m ∧ s.cursor.Reads m.inner ∧ s' = s.after m := by
  simp only [declared, bind_eq_ok_iff, read_next_eq_ok_iff]
  constructor
  · rintro ⟨ch, _, ⟨hNext, rfl⟩, hOk⟩
    have hTwo := Cursor.reads_append.mpr ⟨hReads, hNext⟩
    rw [← Lexer.past_append] at hOk
    split at hOk
    · subst ‹ch = _›
      obtain ⟨hOpening, hOk⟩ := (opening_past_eq_ok_iff Scan.skip_eq_ok_true_iff hTwo).mp hOk
      obtain ⟨body, hWell, hText, rfl⟩ := (comment_past_eq_ok_iff hOpening).mp hOk
      exact ⟨.comment body, rfl, hWell, trivial, ⟨nofun, nofun⟩, hText, rfl⟩
    · split at hOk
      · subst ‹ch = _›
        obtain ⟨hOpening, hOk⟩ := (opening_past_eq_ok_iff Scan.skipAll_eq_ok_true_iff hTwo).mp hOk
        obtain ⟨hInside, body, hWell, hText, rfl⟩ := (sectionInside_eq_ok_iff hOpening).mp hOk
        exact ⟨.section body, rfl, hWell, trivial, ⟨fun _ => hInside, nofun⟩, hText, rfl⟩
      · split at hOk
        · subst ‹ch = _›
          obtain ⟨hOpening, hOk⟩ := (opening_past_eq_ok_iff Scan.skipAll_eq_ok_true_iff hTwo).mp hOk
          obtain ⟨hOutside, body, hWell, hFits, hText, rfl⟩ := (documentType_past_eq_ok_iff hOpening).mp hOk
          exact ⟨.documentType body, rfl, hWell, hFits, ⟨nofun, fun _ => hOutside⟩, hText, rfl⟩
        · exact (fail_eq_ok_iff.mp hOk).elim
  · rintro ⟨m, hHead, hWell, hFits, hAllows, hText, rfl⟩
    have hNext {ch : CodePoint} {rest : Chars} (hOpening : s.cursor.Reads (CodePoint.bang :: ch :: rest)) :=
      (Cursor.reads_cons.mp (Cursor.reads_cons.mp hOpening).2).1
    cases m with
    | comment body =>
      have hOpening : s.cursor.Reads commentOpening := (Cursor.reads_append.mp hText).1
      refine ⟨CodePoint.hyphen, _, ⟨hNext hOpening, rfl⟩, ?_⟩
      rw [if_pos rfl, ← Lexer.past_append]
      exact (opening_past_eq_ok_iff Scan.skip_eq_ok_true_iff (Cursor.reads_append.mpr ⟨hReads, hNext hOpening⟩)).mpr
        ⟨hOpening, (comment_past_eq_ok_iff hOpening).mpr ⟨body, hWell, hText, rfl⟩⟩
    | «section» body =>
      have hOpening : s.cursor.Reads sectionOpening := (Cursor.reads_append.mp (inner_section body ▸ hText)).1
      refine ⟨CodePoint.leftBracket, _, ⟨hNext hOpening, rfl⟩, ?_⟩
      rw [if_neg (by decide), if_pos rfl, ← Lexer.past_append]
      exact (opening_past_eq_ok_iff Scan.skipAll_eq_ok_true_iff (Cursor.reads_append.mpr ⟨hReads, hNext hOpening⟩)).mpr
        ⟨hOpening, (sectionInside_eq_ok_iff hOpening).mpr ⟨hAllows.inside rfl, body, hWell, hText, rfl⟩⟩
    | instruction target data => rcases data with _ | ⟨_, _⟩ <;> cases hHead
    | documentType body =>
      have hOpening : s.cursor.Reads documentTypeOpening :=
        (Cursor.reads_append.mp (inner_documentType body ▸ hText)).1
      refine ⟨0x44, _, ⟨hNext hOpening, rfl⟩, ?_⟩
      rw [if_neg (by decide), if_neg (by decide), if_pos rfl, ← Lexer.past_append]
      exact (opening_past_eq_ok_iff Scan.skipAll_eq_ok_true_iff (Cursor.reads_append.mpr ⟨hReads, hNext hOpening⟩)).mpr
        ⟨hOpening, (documentType_past_eq_ok_iff hOpening).mpr ⟨hAllows.outside rfl, body, hWell, hFits, hText, rfl⟩⟩

end Lex
end XmlIndex
