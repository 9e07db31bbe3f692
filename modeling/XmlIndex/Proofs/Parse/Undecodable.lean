import XmlIndex.Proofs.Lexer.Trails
import XmlIndex.Proofs.Parse.Restriction
import XmlIndex.Proofs.Parse.Soundness

/-! # Where bytes that do not decode are reported

A parse that fails for want of a character that decodes reports the place that the cursor remembers, which is that of
the character before. So what is reported is one character too early, or a whole name and its slash in an end tag, and
names the line before if a line feed comes last; only at the very start of the content is it the place itself.
-/
namespace XmlIndex
set_option autoImplicit false
open Grammar

theorem Cursor.charAt_eq_undecodable_iff {c : Cursor} {place : Nat} {cause : DecodeFault} :
    c.charAt place = .error (.encoding (.undecodable cause)) ↔
      cause ≠ .truncated ∧ c.encoding.decodeAt c.doc c.stop place = .error cause := by
  unfold Cursor.charAt
  cases hRead : c.encoding.decodeAt c.doc c.stop place with
  | ok read => simp
  | error fault =>
    simp only [Except.error.injEq]
    constructor
    · intro hFault
      cases fault <;> cases hFault
      all_goals exact ⟨nofun, rfl⟩
    · rintro ⟨hWhole, rfl⟩
      cases fault
      case truncated => exact absurd rfl hWhole
      all_goals rfl

section
variable {options : Options} {namespaces : Bool} {doc : ByteArray} {offset length : Nat} {detected : Detected}

/-- The first bytes are not decoded to tell the encoding. -/
theorem not_isUndecodable_of_detect {cause : EncodingFault}
    (hError : detect doc offset (offset + length) namespaces = .error cause) :
    ¬(Fault.encoding cause).IsUndecodable := by
  unfold detect at hError
  split at hError
  · cases hError
    exact id
  · cases hHead : Detected.ofHead (headBytes doc offset (offset + length)) with
    | ok detected =>
      rw [hHead] at hError
      cases hSize : checkSize detected.encoding (offset + length) namespaces with
      | ok u =>
        change (checkSize detected.encoding (offset + length) namespaces >>= fun _ => pure detected) = _ at hError
        rw [hSize] at hError
        cases hError
      | error cause' =>
        change (checkSize detected.encoding (offset + length) namespaces >>= fun _ => pure detected) = _ at hError
        rw [hSize] at hError
        cases hError
        exact Lex.not_isUndecodable_of_checkSize hSize
    | error cause' =>
      rw [hHead] at hError
      cases hError
      unfold Detected.ofHead at hHead
      split at hHead <;> cases hHead
      all_goals exact id

theorem Lexer.trailed_atRange : (Lexer.atRange options false detected doc offset length).Trailed True :=
  ⟨Cursor.trailed_atStart, Lexer.hasNames_of_nil rfl, rfl, fun _ => rfl⟩

/-- To heed namespaces does not change where a character fails to decode. -/
theorem stuck_of_run_atRange {fault : Fault} {s : Lexer}
    (hDetect : detect doc offset (offset + length) namespaces = .ok detected)
    (hError : Lex.run .start (.atRange options namespaces detected doc offset length) = .error fault s)
    (hUndecodable : fault.IsUndecodable) : s.Stuck fault := by
  cases namespaces with
  | false => exact Lex.stuck_of_run_start Lexer.trailed_atRange hError hUndecodable
  | true =>
    have hRuns := @outcome_withoutNamespaces options doc offset length detected (detect_eq_ok_iff.mp hDetect).2.2
    have hOther : ¬fault.IsNamespace := by
      intro hNamespace
      obtain ⟨cause, -, place, rfl⟩ := hNamespace
      exact hUndecodable
    rw [hError] at hRuns
    cases hPlain : Lex.run .start (.atRange options false detected doc offset length) with
    | ok u t =>
      rw [hPlain] at hRuns
      exact absurd hRuns hOther
    | error fault' t =>
      rw [hPlain] at hRuns
      obtain hAlone | ⟨rfl, hCursors⟩ := hRuns
      · exact absurd hAlone hOther
      · have hStuck := Lex.stuck_of_run_start Lexer.trailed_atRange hPlain hUndecodable
        have hCursor : t.cursor = s.cursor := hCursors.eq_of_ne nofun
        exact ⟨hCursor ▸ hStuck.cursor, hCursor ▸ hStuck.fails⟩

/-- A parse fails for its range, for its first bytes, or where its lexer does. -/
theorem parseRange_eq_error {failure : Failure}
    (hError : parseRange options namespaces doc offset length = .error failure) :
    failure = ⟨.structural (.invalidRange offset length doc.size) none, none⟩ ∨
      (∃ cause, detect doc offset (offset + length) namespaces = .error cause ∧ failure = ⟨.encoding cause, none⟩) ∨
      ∃ detected fault s, offset + length ≤ doc.size ∧ detect doc offset (offset + length) namespaces = .ok detected ∧
        Lex.run .start (.atRange options namespaces detected doc offset length) = .error fault s ∧
        failure = s.failure fault := by
  by_cases hRange : offset + length ≤ doc.size
  · cases hDetect : detect doc offset (offset + length) namespaces with
    | error cause =>
      rw [parseRange_of_undetected hRange hDetect] at hError
      exact .inr (.inl ⟨cause, rfl, (Except.error.inj hError).symm⟩)
    | ok detected =>
      rw [parseRange_of_detected hRange hDetect] at hError
      cases hRun : Lex.run .start (.atRange options namespaces detected doc offset length) with
      | ok u s =>
        rw [hRun] at hError
        cases hError
      | error fault s =>
        rw [hRun] at hError
        exact .inr (.inr ⟨detected, fault, s, hRange, rfl, hRun, (Except.error.inj hError).symm⟩)
  · rw [parseRange_of_outside (Nat.not_le.mp hRange)] at hError
    exact .inl (Except.error.inj hError).symm

/-- The lexer that fails is still in the range. -/
theorem sameSource_of_run_atRange {fault : Fault} {s : Lexer} (hRange : offset + length ≤ doc.size)
    (hDetect : detect doc offset (offset + length) namespaces = .ok detected)
    (hError : Lex.run .start (.atRange options namespaces detected doc offset length) = .error fault s) :
    (Cursor.atStart doc (contentStart doc offset length) (offset + length) s.cursor.encoding).SameSource s.cursor := by
  have hGuarded := @Guarded.run_atStart options _ _ _ _ { draft := .empty (options.cacheDepth.levels length) } _ hRange
    hDetect
  unfold Lexer.atRange at hError
  rw [hError] at hGuarded
  have hSame := Guarded.Lexing.sameRange_of_run (Guarded.safe_atStart hRange hDetect) (by exact trivial) hGuarded
  refine ⟨⟨hSame.doc_eq, ?_, hSame.stop_eq⟩, rfl⟩
  change s.cursor.start = contentStart doc offset length
  rw [hSame.start_eq, contentStart, ByteOrderMark.ofHead_eq (detect_eq_ok_iff.mp hDetect).2.1]
  rfl

/-- The lexer stops before the bytes that do not decode. The position reported is not theirs but that of what was read
last: of the character before, or of the slash of an end tag right after its name. Theirs is further on by just that
text, so the two are the same only if nothing precedes the bytes. -/
theorem parseRange_of_undecodable {cause : DecodeFault} {position : Option Position}
    (hError : parseRange options namespaces doc offset length = .error ⟨.encoding (.undecodable cause), position⟩) :
    ∃ (detected : Detected) (s : Lexer) (text : Chars),
      detect doc offset (offset + length) namespaces = .ok detected ∧
      Lex.run .start (.atRange options namespaces detected doc offset length) =
        .error (.encoding (.undecodable cause)) s ∧
      (Cursor.atStart doc (contentStart doc offset length) (offset + length) s.cursor.encoding).SameSource s.cursor ∧
      s.cursor.encoding.decodeAt doc (offset + length) s.cursor.offset = .error cause ∧
      s.cursor.Trails text ∧ s.cursor.Remembers text ∧
      position = some (s.cursor.position s.cursor.last) ∧
      s.cursor.position s.cursor.offset =
        text.foldl (Position.past s.cursor.encoding) (s.cursor.position s.cursor.last) ∧
      (position = some (s.cursor.position s.cursor.offset) ↔ s.cursor.offset = contentStart doc offset length) := by
  rcases parseRange_eq_error hError with hOutside | ⟨cause', hDetect, hFailure⟩ |
    ⟨detected, fault, s, hRange, hDetect, hRun, hFailure⟩
  · cases hOutside
  · cases hFailure
    exact absurd trivial (not_isUndecodable_of_detect hDetect)
  · have hFault : .encoding (.undecodable cause) = fault :=
      (congrArg Failure.fault hFailure).trans (s.fault_failure fault)
    subst hFault
    have hPosition : position = some (s.cursor.position s.cursor.last) := congrArg Failure.position hFailure
    obtain ⟨⟨text, hTrails, hRemembers⟩, hFails⟩ := stuck_of_run_atRange hDetect hRun trivial
    have hSource := sameSource_of_run_atRange hRange hDetect hRun
    obtain ⟨-, hDecode⟩ := Cursor.charAt_eq_undecodable_iff.mp hFails
    rw [hSource.doc_eq, hSource.stop_eq] at hDecode
    refine ⟨detected, s, text, hDetect, hRun, hSource, hDecode, hTrails, hRemembers, hPosition, hTrails.position_offset,
      ?_⟩
    rw [hPosition, Option.some.injEq, hTrails.position_eq_iff hRemembers, hSource.start_eq]
    rfl

end

/-- `<a>`, a line feed and the byte FF before `</a>` -/
def strayByte : ByteArray :=
  ⟨#[0x3C, 0x61, 0x3E, 0x0A, 0xFF, 0x3C, 0x2F, 0x61, 0x3E]⟩

theorem parseRange_strayByte :
    parseRange {} false strayByte 0 9 = .error ⟨.encoding (.undecodable (.utf8Byte 0xFF)), some ⟨1, 4⟩⟩ :=
  @parseRange_of_runWithin _ _ _ _ _ 3 ⟨.utf8, .none⟩ _ (by decide) rfl (by with_unfolding_all rfl)

/-- The byte stands at the beginning of the second line, but the end of the first one is reported. -/
theorem parseRange_of_undecodable_strayByte :
    parseRange {} false strayByte 0 9 = .error ⟨.encoding (.undecodable (.utf8Byte 0xFF)), some ⟨1, 4⟩⟩ ∧
      ∃ s : Lexer, s.cursor.encoding.decodeAt strayByte (0 + 9) s.cursor.offset = .error (.utf8Byte 0xFF) ∧
        some ⟨1, 4⟩ ≠ some (s.cursor.position s.cursor.offset) := by
  obtain ⟨detected, s, text, -, -, hSource, hDecode, -, -, -, -, hSame⟩ :=
    parseRange_of_undecodable parseRange_strayByte
  refine ⟨parseRange_strayByte, s, hDecode, fun hPosition => ?_⟩
  have hContent : contentStart strayByte 0 9 = 0 := rfl
  have hOffset : s.cursor.offset = 0 := (hSame.mp hPosition).trans hContent
  have hStart : s.cursor.start = 0 := hSource.start_eq.trans hContent
  rw [Cursor.position, hOffset, hStart, Nat.zero_min, Position.ofOffset_self] at hPosition
  cases hPosition

end XmlIndex
