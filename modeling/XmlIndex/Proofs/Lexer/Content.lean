import XmlIndex.Proofs.Lexer.Awaiting

/-! # Runs of character data

Inside the root a run of character data comes before every bracket, be it empty. What the lexer does
with the run depends on the space in it and, after a start tag, on the character after the bracket.
-/
namespace XmlIndex
set_option autoImplicit false
open Grammar

namespace Grammar
variable {space run rest : Chars} {ch : CodePoint}

theorem isTextChar_of_isSpace (hSpace : CodePoint.isSpace ch = true) : isTextChar ch = true := by
  rcases CodePoint.isSpace_iff.mp hSpace with rfl | rfl | rfl | rfl <;> decide

theorem isRun_append_iff (hSpace : IsSpace space) : IsRun (space ++ run) ↔ IsRun run := by
  have hBracket : CodePoint.rightBracket ∉ space := fun h => absurd (hSpace _ h) (by decide)
  have hEscaped : Escaped isTextChar (space ++ run) ↔ Escaped isTextChar run := by
    induction space with
    | nil => rfl
    | cons ch space ih =>
      rw [IsSpace, List.forall_mem_cons] at hSpace
      have hPlain := isTextChar_of_isSpace hSpace.1
      rw [List.mem_cons, not_or] at hBracket
      rw [List.cons_append, escaped_cons_of_ne (isTextChar_eq_true_iff.mp hPlain).2.2,
        ih hSpace.2 hBracket.2, and_iff_right hPlain]
  constructor
  · rintro ⟨hText, hEnd⟩
    exact ⟨hEscaped.mp hText, by rwa [infix_append_iff_of_notMem hBracket] at hEnd⟩
  · rintro ⟨hText, hEnd⟩
    exact ⟨hEscaped.mpr hText, by rwa [infix_append_iff_of_notMem hBracket]⟩

theorem isRun_of_isSpace (hSpace : IsSpace space) : IsRun space := by
  rw [← List.append_nil space, isRun_append_iff hSpace]
  exact Text.isRun_nil

theorem ne_lessThan_of_isRun (hRun : IsRun (ch :: rest)) : ch ≠ CodePoint.lessThan := by
  rintro rfl
  have hChar := (escaped_cons_of_ne (by decide)).mp hRun.escaped
  exact absurd hChar.1 (by decide)

/-- A run that is more than space has a first character that is none. -/
theorem exists_eq_append_of_all (hOther : run.all CodePoint.isSpace = false) :
    ∃ space ch rest, run = space ++ ch :: rest ∧ IsSpace space ∧ CodePoint.isSpace ch = false := by
  induction run with
  | nil => cases hOther
  | cons ch run ih =>
    by_cases hSpace : CodePoint.isSpace ch = true
    · rw [List.all_cons, hSpace, Bool.true_and] at hOther
      obtain ⟨space, d, rest, rfl, hSpaces, hLast⟩ := ih hOther
      exact ⟨ch :: space, d, rest, rfl, List.forall_mem_cons.mpr ⟨hSpace, hSpaces⟩, hLast⟩
    · exact ⟨[], ch, run, rfl, fun _ h => (List.not_mem_nil h).elim, by simpa using hSpace⟩

theorem all_append_eq_false (hOther : CodePoint.isSpace ch = false) :
    (space ++ ch :: rest).all CodePoint.isSpace = false := by
  simp [hOther]

end Grammar

namespace Lex
variable {s s' : Lexer} {phase : Phase}

theorem read_text_eq_ok_iff {ch : CodePoint} {u : Unit} (hReads : s.cursor.Reads [ch]) :
    read (Scan.text ch) (s.past [ch]) = .ok u s' ↔ ∃ run,
      s.cursor.Reads (run ++ [CodePoint.lessThan]) ∧ IsRun run ∧
        s' = s.past (run ++ [CodePoint.lessThan]) := by
  simp only [read_eq_ok_iff, Lexer.cursor_past, Scan.text_eq_ok_iff hReads]
  constructor
  · rintro ⟨_, ⟨run, hText, hRun, rfl⟩, rfl⟩
    exact ⟨run, hText, hRun, rfl⟩
  · rintro ⟨run, hText, hRun, rfl⟩
    exact ⟨_, ⟨run, hText, hRun, rfl⟩, rfl⟩

def runPast (s : Lexer) (whole : Bool) (text : Chars) : Lexer :=
  (s.past (text ++ [CodePoint.lessThan])).add
    (runTokens s.cursor.encoding s.recordWhitespace whole s.depth s.cursor.offset text)

/-- A run that is more than space has its tokens wherever it stands. -/
theorem runPast_of_all {whole : Bool} {text : Chars} (hOther : text.all CodePoint.isSpace = false) :
    runPast s whole text = runPast s false text := by
  simp [runPast, runTokens, runIsToken, hOther]

/-- Text that follows space. -/
theorem text_eq_ok_iff (whole : Bool) {space : Chars} {ch : CodePoint} (hSpace : IsSpace space)
    (hReads : s.cursor.Reads (space ++ [ch])) (hOther : CodePoint.isSpace ch = false)
    (hBracket : ch ≠ CodePoint.lessThan) :
    text s.cursor.offset ch (s.past (space ++ [ch])) = .ok phase s' ↔ phase = .markup ∧
      ∃ rest, s.cursor.Reads (space ++ ch :: rest ++ [CodePoint.lessThan]) ∧ IsRun (space ++ ch :: rest) ∧
        s' = runPast s whole (space ++ ch :: rest) := by
  obtain ⟨hSpaceText, hChar⟩ := Cursor.reads_append.mp hReads
  have hState : ∀ rest, ((s.past space).past (ch :: rest ++ [CodePoint.lessThan])).add
      (pieces s.cursor.encoding .characterData s.depth s.cursor.offset
        (s.cursor.encoding.size (space ++ ch :: rest))) = runPast s whole (space ++ ch :: rest) := by
    intro rest
    rw [runPast, runTokens, if_pos (by simp [runIsToken, hOther]), ← Lexer.past_append,
      List.append_assoc]
  have hSize : ∀ rest, ((s.past space).past (ch :: rest ++ [CodePoint.lessThan])).cursor.last -
      s.cursor.offset = s.cursor.encoding.size (space ++ ch :: rest) := by
    intro rest
    rw [Lexer.cursor_past, Cursor.last_advance_append]
    simp
    omega
  rw [Lexer.past_append]
  simp only [text, bind_eq_ok_iff, read_text_eq_ok_iff (s := s.past space) hChar, read_last_eq_ok_iff,
    emitText_eq_ok_iff, pure_eq_ok_iff]
  constructor
  · rintro ⟨_, _, ⟨run, hText, hRun, rfl⟩, _, _, ⟨rfl, rfl⟩, _, _, rfl, rfl, rfl⟩
    cases run with
    | nil => exact absurd (hChar.head_eq hText).symm hBracket
    | cons d rest =>
      obtain rfl := hChar.head_eq hText
      refine ⟨rfl, rest, ?_, (isRun_append_iff hSpace).mpr hRun, ?_⟩
      · rw [List.append_assoc]
        exact Cursor.reads_append.mpr ⟨hSpaceText, hText⟩
      · rw [hSize, ← hState]
        simp
  · rintro ⟨rfl, rest, hText, hRun, rfl⟩
    rw [List.append_assoc, Cursor.reads_append] at hText
    refine ⟨(), _, ⟨ch :: rest, hText.2, (isRun_append_iff hSpace).mp hRun, rfl⟩, _, _, ⟨rfl, rfl⟩, (), _, rfl,
      rfl, ?_⟩
    rw [hSize, ← hState]
    simp

/-- A run of nothing but space is written once the bracket has been read, and perhaps more. -/
theorem emitSpace_past_eq_ok_iff (more : Chars) {space : Chars} {u : Unit} (hSpace : IsSpace space)
    (hOpen : s.openTags ≠ []) :
    emitSpace s.cursor.offset (s.past (space ++ [CodePoint.lessThan])).cursor.last
        ((s.past (space ++ [CodePoint.lessThan])).past more) = .ok u s' ↔
      s' = (runPast s false space).past more := by
  have hOpenPast : ((s.past (space ++ [CodePoint.lessThan])).past more).openTags.isEmpty = false :=
    List.isEmpty_eq_false_iff.mpr hOpen
  have hSize : (s.past (space ++ [CodePoint.lessThan])).cursor.last =
      s.cursor.offset + s.cursor.encoding.size space :=
    Cursor.last_advance_append _
  have hAll : space.all CodePoint.isSpace = true := List.all_eq_true.mpr hSpace
  have hEmpty : decide (s.cursor.offset < s.cursor.offset + s.cursor.encoding.size space) =
      !space.isEmpty := by
    cases space with
    | nil => simp
    | cons ch space =>
      have hWidth := s.cursor.encoding.width_pos ch
      simp only [Encoding.size_cons, List.isEmpty_cons, Bool.not_false, decide_eq_true_eq]
      omega
  rw [emitSpace_eq_ok_iff, hSize, hOpenPast, hEmpty, Nat.add_sub_cancel_left, runPast, runTokens,
    runIsToken, hAll]
  simp only [Bool.not_false, Bool.and_true, Bool.not_true, Bool.or_self, Bool.false_or,
    Lexer.recordWhitespace_past, Lexer.depth_past, Lexer.cursor_past, Cursor.encoding_advance,
    Lexer.add_past]
  split
  · rfl
  · rw [Lexer.add_nil]

theorem afterMarkup_eq_ok_iff (hOpen : s.openTags ≠ []) : afterMarkup s = .ok phase s' ↔
    phase = .markup ∧ ∃ run, s.cursor.Reads (run ++ [CodePoint.lessThan]) ∧ IsRun run ∧
      s' = runPast s false run := by
  simp only [afterMarkup, bind_eq_ok_iff, read_offset_eq_ok_iff, read_nextAfterSpace_eq_ok_iff]
  constructor
  · rintro ⟨_, _, ⟨rfl, rfl⟩, ch, _, ⟨space, hReads, hSpace, hOther, rfl⟩, hOk⟩
    split at hOk
    · subst ‹ch = _›
      simp only [bind_eq_ok_iff, read_last_eq_ok_iff, pure_eq_ok_iff] at hOk
      obtain ⟨_, _, ⟨rfl, rfl⟩, _, _, hEmit, rfl, rfl⟩ := hOk
      exact ⟨rfl, space, hReads, isRun_of_isSpace hSpace, (emitSpace_past_eq_ok_iff [] hSpace hOpen).mp hEmit⟩
    · obtain ⟨rfl, rest, hText, hRun, rfl⟩ :=
        (text_eq_ok_iff false hSpace hReads hOther ‹ch ≠ CodePoint.lessThan›).mp hOk
      exact ⟨rfl, _, hText, hRun, rfl⟩
  · rintro ⟨rfl, run, hText, hRun, rfl⟩
    by_cases hAll : run.all CodePoint.isSpace = true
    · have hSpace : IsSpace run := List.all_eq_true.mp hAll
      refine ⟨_, _, ⟨rfl, rfl⟩, CodePoint.lessThan, _, ⟨run, hText, hSpace, by decide, rfl⟩, ?_⟩
      rw [if_pos rfl]
      simp only [bind_eq_ok_iff, read_last_eq_ok_iff, pure_eq_ok_iff]
      exact ⟨_, _, ⟨rfl, rfl⟩, (), _, (emitSpace_past_eq_ok_iff [] hSpace hOpen).mpr rfl, trivial, rfl⟩
    · obtain ⟨space, ch, rest, rfl, hSpace, hOther⟩ := exists_eq_append_of_all (by simpa using hAll)
      have hBracket := ne_lessThan_of_isRun ((isRun_append_iff hSpace).mp hRun)
      have hReads : s.cursor.Reads (space ++ [ch]) := by
        rw [List.append_assoc, Cursor.reads_append] at hText
        exact Cursor.reads_append.mpr ⟨hText.1, (Cursor.reads_cons.mp hText.2).1⟩
      refine ⟨_, _, ⟨rfl, rfl⟩, ch, _, ⟨space, hReads, hSpace, hOther, rfl⟩, ?_⟩
      rw [if_neg hBracket]
      exact (text_eq_ok_iff false hSpace hReads hOther hBracket).mpr ⟨rfl, rest, hText, hRun, rfl⟩

def markupFrom (place : Nat) (ch : CodePoint) : Lex Phase :=
  if CodePoint.isNameStart ch then startTag place
  else if ch = CodePoint.slash then endTag
  else if ch = CodePoint.question then do
    instruction
    resume
  else if ch = CodePoint.bang then do
    declared
    resume
  else fail .markupStart

variable {r : Reading}

theorem completes_markup_iff : Completes (run .markup) s r ↔
    ∃ ch, s.cursor.Reads [ch] ∧ Completes (markupFrom s.cursor.offset ch >>= run) (s.past [ch]) r := by
  have hMarkup : markup = (do
      let place ← read Scan.offset
      let ch ← read Scan.next
      markupFrom place ch) := rfl
  rw [completes_run (show step .markup = some <$> markup from rfl), hMarkup]
  simp only [bind_assoc, completes_offset, completes_next]

theorem completes_markup_slash (hReads : s.cursor.Reads [CodePoint.slash]) :
    Completes (run .markup) s r ↔ Completes (endTag >>= run) (s.past [CodePoint.slash]) r := by
  rw [completes_markup_iff]
  constructor
  · rintro ⟨ch, hNext, hOk⟩
    obtain rfl := hReads.head_eq hNext
    exact hOk
  · exact fun hOk => ⟨CodePoint.slash, hReads, hOk⟩

/-- A run that is all that an element has between its tags. -/
theorem runPast_true {text : Chars} : runPast s true text =
    (s.past (text ++ [CodePoint.lessThan])).add
      (pieces s.cursor.encoding .characterData s.depth s.cursor.offset (s.cursor.encoding.size text)) :=
  rfl

def emitRun (opened : Bool) (place stop : Nat) : Lex Unit :=
  if opened then emitText .characterData ⟨place, stop - place⟩ else emitSpace place stop

theorem emitRun_eq_ok_iff {opened : Bool} {space : Chars} {u : Unit} (hSpace : IsSpace space)
    (hOpen : s.openTags ≠ []) :
    emitRun opened s.cursor.offset (s.past (space ++ [CodePoint.lessThan])).cursor.last
        ((s.past (space ++ [CodePoint.lessThan])).past [CodePoint.slash]) = .ok u s' ↔
      s' = (runPast s opened space).past [CodePoint.slash] := by
  cases opened with
  | false => exact emitSpace_past_eq_ok_iff [CodePoint.slash] hSpace hOpen
  | true =>
    rw [emitRun, if_pos rfl, emitText_eq_ok_iff, runPast_true]
    simp

theorem content_eq {opened : Bool} : content opened = (do
    let place ← read Scan.offset
    let ch ← read Scan.nextAfterSpace
    if ch = CodePoint.lessThan then
      let stop ← read Scan.last
      if ← read (Scan.skip CodePoint.slash) then
        emitRun opened place stop
        endTag
      else
        emitSpace place stop
        return .markup
    else text place ch) := by
  unfold content emitRun
  cases opened <;> rfl

/-- The run after a tag; a start tag may be followed by an end tag at once. -/
theorem completes_content_iff {opened : Bool} (hOpen : s.openTags ≠ []) :
    Completes (content opened >>= run) s r ↔
      ∃ text, IsRun text ∧ s.cursor.Reads (text ++ [CodePoint.lessThan]) ∧
        ∃ ch, (s.cursor.advance (text ++ [CodePoint.lessThan])).Reads [ch] ∧
          Completes (run .markup) (runPast s (opened && ch == CodePoint.slash) text) r := by
  simp only [completes_bind, content_eq, bind_eq_ok_iff, read_offset_eq_ok_iff,
    read_nextAfterSpace_eq_ok_iff]
  constructor
  · rintro ⟨phase, s', ⟨_, _, ⟨rfl, rfl⟩, ch, _, ⟨space, hReads, hSpace, hOther, rfl⟩, hOk⟩, hRest⟩
    split at hOk
    · subst ‹ch = _›
      simp only [bind_eq_ok_iff, read_last_eq_ok_iff] at hOk
      obtain ⟨_, _, ⟨rfl, rfl⟩, slash, _, hSkip, hOk⟩ := hOk
      cases slash with
      | true =>
        obtain ⟨hSlash, rfl⟩ := read_skip_eq_ok_true_iff.mp hSkip
        rw [if_pos rfl, bind_eq_ok_iff] at hOk
        obtain ⟨_, _, hEmit, hEnd⟩ := hOk
        obtain rfl := (emitRun_eq_ok_iff hSpace hOpen).mp hEmit
        refine ⟨space, isRun_of_isSpace hSpace, hReads, CodePoint.slash, hSlash, ?_⟩
        rw [beq_self_eq_true, Bool.and_true]
        exact (completes_markup_slash (by exact hSlash)).mpr (completes_bind.mpr ⟨phase, s', hEnd, hRest⟩)
      | false =>
        rw [if_neg Bool.false_ne_true, bind_eq_ok_iff] at hOk
        obtain ⟨_, _, hEmit, hPure⟩ := hOk
        obtain ⟨rfl, rfl⟩ := pure_eq_ok_iff.mp hPure
        obtain ⟨ch, hOther, hNext, rfl⟩ := read_skip_eq_ok_false_iff.mp hSkip
        obtain rfl := (emitSpace_past_eq_ok_iff [] hSpace hOpen).mp hEmit
        refine ⟨space, isRun_of_isSpace hSpace, hReads, ch, hNext, ?_⟩
        rw [beq_eq_false_iff_ne.mpr hOther, Bool.and_false]
        exact hRest
    · obtain ⟨rfl, rest, hText, hRun, rfl⟩ :=
        (text_eq_ok_iff false hSpace hReads hOther ‹ch ≠ CodePoint.lessThan›).mp hOk
      obtain ⟨d, hNext, -⟩ := completes_markup_iff.mp hRest
      refine ⟨_, hRun, hText, d, hNext, ?_⟩
      rw [runPast_of_all (all_append_eq_false hOther)]
      exact hRest
  · rintro ⟨run, hRun, hText, ch, hNext, hRest⟩
    by_cases hAll : run.all CodePoint.isSpace = true
    · have hSpace : IsSpace run := List.all_eq_true.mp hAll
      by_cases hSlash : ch = CodePoint.slash
      · subst hSlash
        rw [beq_self_eq_true, Bool.and_true, completes_markup_slash (by exact hNext), completes_bind] at hRest
        obtain ⟨phase, s', hEnd, hRest⟩ := hRest
        refine ⟨phase, s', ⟨_, _, ⟨rfl, rfl⟩, CodePoint.lessThan, _, ⟨run, hText, hSpace, by decide, rfl⟩,
          ?_⟩, hRest⟩
        rw [if_pos rfl]
        simp only [bind_eq_ok_iff, read_last_eq_ok_iff]
        refine ⟨_, _, ⟨rfl, rfl⟩, true, _, read_skip_eq_ok_true_iff.mpr ⟨hNext, rfl⟩, ?_⟩
        rw [if_pos rfl, bind_eq_ok_iff]
        exact ⟨(), _, (emitRun_eq_ok_iff hSpace hOpen).mpr rfl, hEnd⟩
      · rw [beq_eq_false_iff_ne.mpr hSlash, Bool.and_false] at hRest
        refine ⟨.markup, _, ⟨_, _, ⟨rfl, rfl⟩, CodePoint.lessThan, _, ⟨run, hText, hSpace, by decide, rfl⟩,
          ?_⟩, hRest⟩
        rw [if_pos rfl]
        simp only [bind_eq_ok_iff, read_last_eq_ok_iff]
        refine ⟨_, _, ⟨rfl, rfl⟩, false, _, read_skip_eq_ok_false_iff.mpr ⟨ch, hSlash, hNext, rfl⟩, ?_⟩
        rw [if_neg Bool.false_ne_true, bind_eq_ok_iff]
        exact ⟨(), _, (emitSpace_past_eq_ok_iff [] hSpace hOpen).mpr rfl, rfl⟩
    · obtain ⟨space, first, rest, rfl, hSpace, hOther⟩ := exists_eq_append_of_all (by simpa using hAll)
      have hBracket := ne_lessThan_of_isRun ((isRun_append_iff hSpace).mp hRun)
      have hReads : s.cursor.Reads (space ++ [first]) := by
        rw [List.append_assoc, Cursor.reads_append] at hText
        exact Cursor.reads_append.mpr ⟨hText.1, (Cursor.reads_cons.mp hText.2).1⟩
      refine ⟨.markup, _, ⟨_, _, ⟨rfl, rfl⟩, first, _, ⟨space, hReads, hSpace, hOther, rfl⟩, ?_⟩, hRest⟩
      rw [if_neg hBracket]
      exact (text_eq_ok_iff _ hSpace hReads hOther hBracket).mpr ⟨rfl, rest, hText, hRun, rfl⟩

end Lex
end XmlIndex
