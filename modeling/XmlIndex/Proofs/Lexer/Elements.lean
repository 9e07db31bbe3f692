import XmlIndex.Proofs.Lexer.Content

/-! # Content and the ends of tags

What follows a tag, or a name or a value in one, is read as it must be, provided that all lexers with
less to read are understood.
-/
namespace XmlIndex
set_option autoImplicit false
open Grammar XmlIndex.Lex

namespace Grammar
variable {e : Encoding} {recordSpace : Bool} {name : Chars} {names : List Chars} {place : Nat}
  {text : Chars} {tokens : List Token}

theorem inner_ne_nil (m : Markup) : m.inner ≠ [] := by
  cases m with
  | instruction target data => rcases data with _ | ⟨space, data⟩ <;> exact List.cons_ne_nil _ _
  | _ => exact List.cons_ne_nil _ _

theorem ne_nil_of_element (hElement : element e recordSpace names place text tokens) : text ≠ [] := by
  obtain ⟨tag, hWell, -, -, _, _, -, rfl, -⟩ := hElement
  simp [Tag.text, hWell.name.ne_nil]

theorem ne_nil_of_marked (hMarked : marked e recordSpace name names place text tokens) : text ≠ [] := by
  rcases hMarked with ⟨m, -, -, -, _, _, -, rfl, -⟩ | hElement | ⟨space, -, _, _, -, rfl, -⟩
  · simp [inner_ne_nil]
  · exact ne_nil_of_element hElement
  · simp [endTag]

end Grammar

namespace Lexer
variable {s : Lexer} {name : Chars} {names : List Chars} {r : Reading}

/-- The language of content, character by character. -/
theorem awaits_content_iff {first : Bool} (hDepth : s.depth = names.length) :
    s.Awaits (content s.cursor.encoding s.recordWhitespace (name :: names) first s.cursor.offset) r ↔
      ∃ text, IsRun text ∧ s.cursor.Reads (text ++ [CodePoint.lessThan]) ∧
        ∃ ch, (s.cursor.advance (text ++ [CodePoint.lessThan])).Reads [ch] ∧
          (runPast s (first && ch == CodePoint.slash) text).Awaits
            (marked s.cursor.encoding s.recordWhitespace name names
              (s.cursor.offset + s.cursor.encoding.size (text ++ [CodePoint.lessThan]))) r := by
  simp only [Awaits, content_cons_iff]
  constructor
  · rintro ⟨_, _, hReads, ⟨text, rest, more, hRun, rfl, hMarked, rfl⟩, hEnds, rfl⟩
    obtain ⟨ch, others, rfl⟩ := List.exists_cons_of_ne_nil (ne_nil_of_marked hMarked)
    have hSplit : text ++ CodePoint.lessThan :: ch :: others =
        (text ++ [CodePoint.lessThan]) ++ ch :: others := by simp
    rw [hSplit, Cursor.reads_append] at hReads
    rw [hSplit, Cursor.advance_append] at hEnds
    refine ⟨text, hRun, hReads.1, ch, (Cursor.reads_cons.mp hReads.2).1, ch :: others, more, hReads.2,
      hMarked, hEnds, ?_⟩
    simp [runPast, hDepth, Cursor.encoding_advance]
  · rintro ⟨text, hRun, hText, ch, hNext, rest, more, hReads, hMarked, hEnds, rfl⟩
    obtain ⟨d, others, rfl⟩ := List.exists_cons_of_ne_nil (ne_nil_of_marked hMarked)
    obtain rfl := hNext.head_eq hReads
    have hSplit : text ++ CodePoint.lessThan :: d :: others =
        (text ++ [CodePoint.lessThan]) ++ d :: others := by simp
    refine ⟨_, _, ?_, ⟨text, d :: others, more, hRun, rfl, hMarked, rfl⟩, ?_, ?_⟩
    · rw [hSplit]
      exact Cursor.reads_append.mpr ⟨hText, hReads⟩
    · rw [hSplit, Cursor.advance_append]
      exact hEnds
    · simp [runPast, hDepth]

end Lexer

namespace Lex
variable {s : Lexer} {name : Chars} {names : List Chars} {r : Reading}

section
variable (hOff : s.namespaces = false) (hBelow : s.Below) (hOpened : s.Opened (name :: names))
include hOff hBelow hOpened

theorem completes_run_markup_runPast {text : Chars} {whole : Bool}
    (hText : s.cursor.Reads (text ++ [CodePoint.lessThan])) :
    Completes (run .markup) (runPast s whole text) r ↔ (runPast s whole text).Awaits
      (marked s.cursor.encoding s.recordWhitespace name names
        (s.cursor.offset + s.cursor.encoding.size (text ++ [CodePoint.lessThan]))) r := by
  have hUnderstood := hBelow (runPast s whole text)
    (Lexer.remaining_past_lt hText (by simp)) hOff
  have hOpenedPast : (runPast s whole text).Opened (name :: names) :=
    hOpened.past
  rw [hUnderstood.inside hOpenedPast]
  simp [runPast]

theorem completes_content {opened : Bool} : Completes (content opened >>= run) s r ↔
    s.Awaits (Grammar.content s.cursor.encoding s.recordWhitespace (name :: names) opened s.cursor.offset)
      r := by
  have hOpen := hOpened.openTags_ne_nil
  rw [completes_content_iff hOpen, Lexer.awaits_content_iff hOpened.depth_eq]
  refine exists_congr fun text => and_congr_right fun _ => and_congr_right fun hText =>
    exists_congr fun ch => and_congr_right fun _ => ?_
  exact completes_run_markup_runPast hOff hBelow hOpened hText

theorem completes_afterMarkup : Completes (afterMarkup >>= run) s r ↔
    s.Awaits (Grammar.content s.cursor.encoding s.recordWhitespace (name :: names) false s.cursor.offset)
      r := by
  have hOpen := hOpened.openTags_ne_nil
  simp only [completes_bind, afterMarkup_eq_ok_iff hOpen, Lexer.awaits_content_iff hOpened.depth_eq,
    Bool.false_and]
  constructor
  · rintro ⟨_, _, ⟨rfl, text, hText, hRun, rfl⟩, hRest⟩
    obtain ⟨ch, hNext, -⟩ := completes_markup_iff.mp hRest
    exact ⟨text, hRun, hText, ch, hNext, (completes_run_markup_runPast hOff hBelow hOpened hText).mp hRest⟩
  · rintro ⟨text, hRun, hText, -, -, hRest⟩
    exact ⟨_, _, ⟨rfl, text, hText, hRun, rfl⟩,
      (completes_run_markup_runPast hOff hBelow hOpened hText).mpr hRest⟩

end

/-- After the last tag of the root comes the epilog. -/
theorem completes_afterTag {more : Lex Phase} (first : Bool) (hUnderstood : s.Understood)
    (hOpened : s.Opened names)
    (hMore : ∀ name rest, names = name :: rest → (Completes (more >>= run) s r ↔ s.Awaits
      (Grammar.content s.cursor.encoding s.recordWhitespace names first s.cursor.offset) r)) :
    Completes ((if s.openTags.isEmpty then pure .epilog else more) >>= run) s r ↔ s.Awaits
      (Grammar.content s.cursor.encoding s.recordWhitespace names first s.cursor.offset) r := by
  cases names with
  | nil =>
    have hEmpty : s.openTags = [] := List.forall₂_nil_right_iff.mp hOpened
    rw [hEmpty]
    exact hUnderstood.afterRoot hEmpty
  | cons name rest =>
    obtain ⟨span, spans, -, -, hTags⟩ := List.forall₂_cons_right_iff.mp hOpened
    rw [hTags]
    exact hMore name rest rfl

def popped (s : Lexer) : Lexer :=
  { s with openTags := s.openTags.tail }

theorem opened_popped (hOpened : s.Opened (name :: names)) : (popped s).Opened names := by
  obtain ⟨span, spans, -, hRest, hTags⟩ := List.forall₂_cons_right_iff.mp hOpened
  rw [Lexer.Opened, popped, hTags]
  exact hRest

def skipped (s : Lexer) (text : Chars) : Lexer :=
  { s with cursor := { s.cursor with offset := s.cursor.offset + s.cursor.encoding.size text } }

theorem reads_skipped {text rest : Chars} :
    (skipped s text).cursor.Reads rest ↔ (s.cursor.advance text).Reads rest :=
  Cursor.reads_congr (by simp [skipped]) (by simp [skipped]) (by simp [skipped]) (by simp [skipped])

theorem past_skipped {text rest : Chars} (hNonempty : rest ≠ []) :
    (skipped s text).past rest = s.past (text ++ rest) := by
  rw [Lexer.past_append, Lexer.past, Cursor.advance_congr _ _ _ _ _ hNonempty]
  · rfl
  all_goals simp [skipped]

theorem read_skipAgain_eq_ok_true_iff {span : Span} {s' : Lexer} (hSpan : s.cursor.Covers span name) :
    read (Scan.skipAgain span.offset span.length) s = .ok true s' ↔ s.cursor.Reads name ∧
      s.cursor.offset + s.cursor.encoding.size name < s.cursor.stop ∧ s' = skipped s name := by
  simp only [read_eq_ok_iff, Scan.skipAgain_eq_ok_true_iff hSpan]
  constructor
  · rintro ⟨_, ⟨hReads, hRoom, rfl⟩, rfl⟩
    exact ⟨hReads, hRoom, rfl⟩
  · rintro ⟨hReads, hRoom, rfl⟩
    exact ⟨_, ⟨hReads, hRoom, rfl⟩, rfl⟩

theorem endTag_eq_ok_iff {phase : Phase} {s' : Lexer} (hOpened : s.Opened (name :: names)) :
    endTag s = .ok phase s' ↔ ∃ space, IsSpace space ∧
      s.cursor.Reads (name ++ (space ++ [CodePoint.greaterThan])) ∧
        (if ((popped s).past (name ++ (space ++ [CodePoint.greaterThan]))).openTags.isEmpty then
            pure .epilog else afterMarkup)
          ((popped s).past (name ++ (space ++ [CodePoint.greaterThan]))) = .ok phase s' := by
  obtain ⟨span, spans, hSpan, -, hTags⟩ := List.forall₂_cons_right_iff.mp hOpened
  have hPop : { skipped s name with openTags := spans } = skipped (popped s) name := by
    rw [show spans = s.openTags.tail by rw [hTags]; rfl]
    rfl
  have hRest : spans = (popped s).openTags := by
    rw [popped, hTags]
    rfl
  simp only [endTag, bind_eq_ok_iff, read_offset_eq_ok_iff, look_eq_ok_iff]
  constructor
  · rintro ⟨_, _, ⟨rfl, rfl⟩, _, _, ⟨rfl, rfl⟩, hOk⟩
    rw [hTags] at hOk
    simp only [bind_eq_ok_iff, requireAt_eq_ok_iff, update_eq_ok_iff, read_nextAfterSpace_eq_ok_iff,
      require_eq_ok_iff, decide_eq_true_eq] at hOk
    obtain ⟨_, _, hAgain, _, _, ⟨rfl, rfl⟩, _, _, rfl, _, _, ⟨space, hText, hSpace, -, rfl⟩, _, _, ⟨rfl, rfl⟩,
      hOk⟩ := hOk
    obtain ⟨hName, -, rfl⟩ := (read_skipAgain_eq_ok_true_iff hSpan).mp hAgain
    rw [hPop] at hText hOk
    rw [past_skipped (by simp), hRest] at hOk
    exact ⟨space, hSpace, Cursor.reads_append.mpr ⟨hName, reads_skipped.mp hText⟩, hOk⟩
  · rintro ⟨space, hSpace, hText, hOk⟩
    obtain ⟨hName, hEnd⟩ := Cursor.reads_append.mp hText
    have hRoom : s.cursor.offset + s.cursor.encoding.size name < s.cursor.stop := by
      have hStop := hEnd.le_stop (by simp)
      have hWidth := s.cursor.encoding.width_pos CodePoint.greaterThan
      simp only [Cursor.offset_advance, Cursor.encoding_advance, Cursor.stop_advance, Encoding.size_append,
        Encoding.size_cons, Encoding.size_nil] at hStop
      omega
    refine ⟨_, _, ⟨rfl, rfl⟩, _, _, ⟨rfl, rfl⟩, ?_⟩
    rw [hTags]
    simp only [bind_eq_ok_iff, requireAt_eq_ok_iff, update_eq_ok_iff, read_nextAfterSpace_eq_ok_iff,
      require_eq_ok_iff, decide_eq_true_eq]
    refine ⟨true, _, (read_skipAgain_eq_ok_true_iff hSpan).mpr ⟨hName, hRoom, rfl⟩, (), _, ⟨rfl, rfl⟩, (), _, rfl,
      CodePoint.greaterThan, _, ⟨space, ?_, hSpace, by decide, rfl⟩, (), _, ⟨rfl, rfl⟩, ?_⟩
    · rw [hPop]
      exact reads_skipped.mpr hEnd
    · rw [hPop, past_skipped (by simp), hRest]
      exact hOk

theorem completes_endTag (hOff : s.namespaces = false) (hBelow : s.Below)
    (hOpened : s.Opened (name :: names)) : Completes (endTag >>= run) s r ↔
      ∃ space, IsSpace space ∧ s.cursor.Reads (name ++ (space ++ [CodePoint.greaterThan])) ∧
        (s.past (name ++ (space ++ [CodePoint.greaterThan]))).Awaits
          (Grammar.content s.cursor.encoding s.recordWhitespace names false (s.cursor.offset +
            s.cursor.encoding.size (name ++ (space ++ [CodePoint.greaterThan])))) r := by
  have hAfter : ∀ {space : Chars}, s.cursor.Reads (name ++ (space ++ [CodePoint.greaterThan])) →
      (Completes ((if ((popped s).past (name ++ (space ++ [CodePoint.greaterThan]))).openTags.isEmpty then
          pure .epilog else afterMarkup) >>= run)
        ((popped s).past (name ++ (space ++ [CodePoint.greaterThan]))) r ↔
      (s.past (name ++ (space ++ [CodePoint.greaterThan]))).Awaits
        (Grammar.content s.cursor.encoding s.recordWhitespace names false (s.cursor.offset +
          s.cursor.encoding.size (name ++ (space ++ [CodePoint.greaterThan])))) r) := by
    intro space hText
    have hLess := Lexer.remaining_past_lt hText (by simp)
    have hBelowPast : ((popped s).past (name ++ (space ++ [CodePoint.greaterThan]))).Below :=
      hBelow.mono (Nat.le_of_lt hLess)
    have hOpenedPast : ((popped s).past (name ++ (space ++ [CodePoint.greaterThan]))).Opened names :=
      (opened_popped hOpened).past
    have hUnderstood : ((popped s).past (name ++ (space ++ [CodePoint.greaterThan]))).Understood :=
      hBelow _ hLess hOff
    refine (completes_afterTag false hUnderstood hOpenedPast ?_).trans ?_
    · rintro name rest rfl
      exact completes_afterMarkup hOff hBelowPast hOpenedPast
    · simp only [Lexer.cursor_past, Cursor.encoding_advance, Cursor.offset_advance]
      exact Lexer.awaits_congr rfl rfl
  simp only [completes_bind, endTag_eq_ok_iff hOpened]
  constructor
  · rintro ⟨phase, s', ⟨space, hSpace, hText, hOk⟩, hRest⟩
    exact ⟨space, hSpace, hText, (hAfter hText).mp (completes_bind.mpr ⟨phase, s', hOk, hRest⟩)⟩
  · rintro ⟨space, hSpace, hText, hRest⟩
    obtain ⟨phase, s', hOk, hRest⟩ := completes_bind.mp ((hAfter hText).mpr hRest)
    exact ⟨phase, s', ⟨space, hSpace, hText, hOk⟩, hRest⟩

theorem completes_closeTag {ch : CodePoint} {opened : Bool} (hOff : s.namespaces = false)
    (hUnderstood : s.Understood) (hBelow : s.Below) (hOpened : s.Opened names) :
    Completes (closeTag ch opened >>= run) s r ↔ ch = CodePoint.greaterThan ∧
      s.Awaits (Grammar.content s.cursor.encoding s.recordWhitespace names opened s.cursor.offset) r := by
  have hOutside : outsideRoot s = .ok s.openTags.isEmpty s := rfl
  rw [closeTag, bind_assoc, completes_require, decide_eq_true_eq]
  refine and_congr_right fun _ => ?_
  rw [bind_assoc, completes_of_ok (closeScope_of_off hOff), bind_assoc, completes_of_ok hOutside]
  refine completes_afterTag opened hUnderstood hOpened ?_
  rintro name rest rfl
  exact completes_content hOff hBelow hOpened

theorem completes_tagEnd {ch : CodePoint} (hOff : s.namespaces = false) (hBelow : s.Below)
    (hOpened : s.Opened (name :: names)) (hReads : s.cursor.Reads [ch]) :
    Completes (tagEnd ch >>= run) (s.past [ch]) r ↔
      s.Awaits (Grammar.tagEnd s.cursor.encoding s.recordWhitespace name names s.cursor.offset) r := by
  have hUnderstood : ∀ (t : Lexer) (text : Chars), s.cursor.Reads text → text ≠ [] →
      t.cursor = s.cursor → t.namespaces = false → (t.past text).Understood ∧ (t.past text).Below := by
    intro t text hText hNonempty hCursor hOff
    have hLess : (t.past text).remaining < s.remaining := by
      rw [Lexer.remaining, Lexer.cursor_past, hCursor]
      exact Lexer.remaining_past_lt hText hNonempty
    exact ⟨hBelow _ hLess hOff, hBelow.mono (Nat.le_of_lt hLess)⟩
  unfold Grammar.tagEnd
  rw [Lexer.awaits_or, Lexer.awaits_after, Lexer.awaits_after, Lexer.add_nil, Lexer.add_nil, tagEnd]
  by_cases hSlash : ch = CodePoint.slash
  · subst hSlash
    have hOther : ¬s.cursor.Reads [CodePoint.greaterThan] :=
      fun h => absurd (hReads.head_eq h) (by decide)
    rw [if_pos rfl, or_iff_left (fun h => hOther h.1), bind_assoc, completes_update, bind_assoc,
      completes_next]
    have hPop : ∀ ch, ({ s.past [CodePoint.slash] with openTags := (s.past [CodePoint.slash]).openTags.tail } :
      Lexer).past [ch] = (popped s).past [CodePoint.slash, ch] := fun _ => rfl
    have hGoesOn : s.cursor.Reads [CodePoint.slash, CodePoint.greaterThan] →
        (Completes (closeTag CodePoint.greaterThan false >>= run)
          ((popped s).past [CodePoint.slash, CodePoint.greaterThan]) r ↔
        (s.past [CodePoint.slash, CodePoint.greaterThan]).Awaits
          (Grammar.content s.cursor.encoding s.recordWhitespace names false (s.cursor.offset +
            s.cursor.encoding.size [CodePoint.slash, CodePoint.greaterThan])) r) := by
      intro hText
      obtain ⟨hThis, hRest⟩ := hUnderstood (popped s) _ hText (by simp) rfl hOff
      rw [completes_closeTag (by exact hOff) hThis hRest (opened_popped hOpened).past, and_iff_right rfl]
      simp only [Lexer.cursor_past, Cursor.encoding_advance, Cursor.offset_advance]
      exact Lexer.awaits_congr rfl rfl
    constructor
    · rintro ⟨ch, hNext, hRest⟩
      have hText : s.cursor.Reads [CodePoint.slash, ch] := Cursor.reads_cons.mpr ⟨hReads, hNext⟩
      obtain ⟨hThis, hLater⟩ := hUnderstood (popped s) _ hText (by simp) rfl hOff
      rw [hPop] at hRest
      obtain ⟨rfl, -⟩ :=
        (completes_closeTag (by exact hOff) hThis hLater (opened_popped hOpened).past).mp hRest
      exact ⟨hText, (hGoesOn hText).mp hRest⟩
    · rintro ⟨hText, hRest⟩
      exact ⟨CodePoint.greaterThan, (Cursor.reads_cons.mp hText).2, (hGoesOn hText).mpr hRest⟩
  · have hOther : ¬s.cursor.Reads [CodePoint.slash, CodePoint.greaterThan] :=
      fun h => hSlash (hReads.head_eq h).symm
    obtain ⟨hThis, hLater⟩ := hUnderstood s [ch] hReads (by simp) rfl hOff
    rw [if_neg hSlash, or_iff_right (fun h => hOther h.1),
      completes_closeTag (by exact hOff) hThis hLater hOpened.past]
    constructor
    · rintro ⟨rfl, hRest⟩
      exact ⟨hReads, by simpa using hRest⟩
    · rintro ⟨hText, hRest⟩
      obtain rfl := hReads.head_eq hText
      exact ⟨rfl, by simpa using hRest⟩

/-- Tags go on with a name or end, and neither begins with space. -/
theorem exists_reads_of_tagEnd {e : Encoding} {recordSpace : Bool} {place : Nat}
    (hAwaits : s.Awaits (Grammar.tagEnd e recordSpace name names place) r) :
    ∃ ch, s.cursor.Reads [ch] ∧ CodePoint.isSpace ch = false ∧ CodePoint.isName ch = false := by
  obtain ⟨_, _, hReads, ⟨_, _, -, rfl, -⟩ | ⟨_, _, -, rfl, -⟩, -⟩ := hAwaits
  · exact ⟨CodePoint.slash, (Cursor.reads_cons.mp hReads).1, by decide, by decide⟩
  · exact ⟨CodePoint.greaterThan, (Cursor.reads_cons.mp hReads).1, by decide, by decide⟩

theorem isSpace_of_isNameStart {ch : CodePoint} (hName : CodePoint.isNameStart ch = true) :
    CodePoint.isSpace ch = false := by
  rw [Bool.eq_false_iff]
  intro hSpace
  have hOther := CodePoint.isName_of_isSpace hSpace
  rw [CodePoint.isName_of_isNameStart hName] at hOther
  cases hOther

theorem exists_reads_of_attributeRest {e : Encoding} {recordSpace : Bool} {seen : List Chars} {space : Chars}
    {place : Nat} (hAwaits : s.Awaits (attributeRest e recordSpace name names seen space place) r) :
    ∃ ch, s.cursor.Reads [ch] ∧ CodePoint.isSpace ch = false ∧ CodePoint.isNameStart ch = true := by
  obtain ⟨_, _, hReads, ⟨own, b, hWell, -, -, _, _, -, rfl, -⟩, -⟩ := hAwaits
  cases own with
  | nil => exact hWell.name.elim
  | cons ch own =>
    have hName : CodePoint.isNameStart ch = true := hWell.name.1
    exact ⟨ch, (Cursor.reads_cons.mp hReads).1, isSpace_of_isNameStart hName, hName⟩

theorem awaits_tagRest_iff {seen : List Chars} :
    s.Awaits (Grammar.tagRest s.cursor.encoding s.recordWhitespace name names seen s.cursor.offset) r ↔
      ∃ space, IsSpace space ∧ s.cursor.Reads space ∧
        (space ≠ [] ∧ (s.past space).Awaits (attributeRest s.cursor.encoding s.recordWhitespace name names seen
            space s.cursor.offset) r ∨
          (s.past space).Awaits (Grammar.tagEnd s.cursor.encoding s.recordWhitespace name names
            (s.cursor.offset + s.cursor.encoding.size space)) r) := by
  have hLanguage : ∀ text tokens, Grammar.tagRest s.cursor.encoding s.recordWhitespace name names seen
      s.cursor.offset text tokens ↔ ∃ space, IsSpace space ∧ Language.after space [] (fun text tokens =>
        (space ≠ [] ∧ attributeRest s.cursor.encoding s.recordWhitespace name names seen space s.cursor.offset
          text tokens) ∨ Grammar.tagEnd s.cursor.encoding s.recordWhitespace name names
            (s.cursor.offset + s.cursor.encoding.size space) text tokens) text tokens := by
    intro text tokens
    rw [tagRest_iff]
    constructor
    · rintro ⟨space, others, hSpace, rfl, hRest⟩
      exact ⟨space, hSpace, others, tokens, hRest, rfl, rfl⟩
    · rintro ⟨space, hSpace, others, _, hRest, rfl, rfl⟩
      exact ⟨space, others, hSpace, rfl, hRest⟩
  rw [Lexer.awaits_congr_language hLanguage]
  simp only [Lexer.awaits_exists, Lexer.awaits_and, Lexer.awaits_after, Lexer.awaits_or, Lexer.add_nil]

def tagGoesOn (spaced : Bool) (after : CodePoint) : Lex Phase := do
  if spaced && CodePoint.isNameStart after then
    let place ← read Scan.last
    return .attributes place after
  else tagEnd after

theorem completes_tagGoesOn {space : Chars} {after : CodePoint} {seen : List Chars}
    (hOff : s.namespaces = false) (hBelow : s.Below) (hOpened : s.Opened (name :: names))
    (hSeen : s.Seen seen) (hSpace : IsSpace space) (hText : s.cursor.Reads (space ++ [after])) :
    Completes (tagGoesOn (!space.isEmpty) after >>= run) (s.past (space ++ [after])) r ↔
      space ≠ [] ∧ (s.past space).Awaits (attributeRest s.cursor.encoding s.recordWhitespace name names seen
          space s.cursor.offset) r ∨
        (s.past space).Awaits (Grammar.tagEnd s.cursor.encoding s.recordWhitespace name names
          (s.cursor.offset + s.cursor.encoding.size space)) r := by
  obtain ⟨hSpaceText, hAfter⟩ := Cursor.reads_append.mp hText
  have hNonempty : (!space.isEmpty) = true ↔ space ≠ [] := by simp
  rw [Lexer.past_append, tagGoesOn]
  by_cases hName : space ≠ [] ∧ CodePoint.isNameStart after = true
  · have hUnderstood : (s.past space).Understood :=
      hBelow _ (Lexer.remaining_past_lt hSpaceText hName.1) hOff
    have hPlace : (s.past space).cursor.offset =
        s.cursor.offset + (s.past space).cursor.encoding.size space := by simp
    have hPhase := hUnderstood.inTag (r := r) hOpened.past hSeen.past hAfter hName.2 hSpace hName.1 hPlace
    have hLast : ((s.past space).past [after]).cursor.last = (s.past space).cursor.offset := rfl
    rw [if_pos (by rw [Bool.and_eq_true, hNonempty]; exact hName), or_iff_left, and_iff_right hName.1,
      bind_assoc, completes_last, pure_bind, hLast, hPhase]
    · simp
    · intro hEnd
      obtain ⟨d, hNext, -, hNotName⟩ := exists_reads_of_tagEnd hEnd
      obtain rfl := hAfter.head_eq hNext
      rw [CodePoint.isName_of_isNameStart hName.2] at hNotName
      cases hNotName
  · have hLater : (s.past space).Below := hBelow.mono (Lexer.remaining_past_le hSpaceText)
    rw [if_neg (by rw [Bool.and_eq_true, hNonempty]; exact hName), or_iff_right,
      completes_tagEnd (by exact hOff) hLater hOpened.past hAfter]
    · simp
    · rintro ⟨hNonempty, hRest⟩
      obtain ⟨d, hNext, -, hIsName⟩ := exists_reads_of_attributeRest hRest
      obtain rfl := hAfter.head_eq hNext
      exact hName ⟨hNonempty, hIsName⟩

/-- A name or a value is followed by space and an attribute, or by the end of the tag. -/
theorem completes_tagRest {ch : CodePoint} {seen : List Chars} (hOff : s.namespaces = false)
    (hBelow : s.Below) (hOpened : s.Opened (name :: names)) (hSeen : s.Seen seen)
    (hReads : s.cursor.Reads [ch]) :
    Completes (tagRest ch >>= run) (s.past [ch]) r ↔ s.Awaits
      (Grammar.tagRest s.cursor.encoding s.recordWhitespace name names seen s.cursor.offset) r := by
  have hSkip : ∀ {after : CodePoint} {s' : Lexer}, read (Scan.skipSpace ch) (s.past [ch]) = .ok after s' ↔
      ∃ space, s.cursor.Reads (space ++ [after]) ∧ IsSpace space ∧ CodePoint.isSpace after = false ∧
        s' = s.past (space ++ [after]) := by
    intro after s'
    simp only [read_eq_ok_iff, Lexer.cursor_past, Scan.skipSpace_eq_ok_iff hReads]
    constructor
    · rintro ⟨_, ⟨space, hText, hSpace, hOther, rfl⟩, rfl⟩
      exact ⟨space, hText, hSpace, hOther, rfl⟩
    · rintro ⟨space, hText, hSpace, hOther, rfl⟩
      exact ⟨_, ⟨space, hText, hSpace, hOther, rfl⟩, rfl⟩
  have hSpaced : ∀ {space : Chars} {after : CodePoint}, s.cursor.Reads (space ++ [after]) →
      IsSpace space → CodePoint.isSpace after = false → CodePoint.isSpace ch = !space.isEmpty := by
    intro space after hText hSpace hOther
    cases space with
    | nil =>
      obtain rfl := hReads.head_eq hText
      exact hOther
    | cons first space =>
      obtain rfl := hReads.head_eq hText
      exact hSpace _ List.mem_cons_self
  have hRest : tagRest ch = read (Scan.skipSpace ch) >>= tagGoesOn (CodePoint.isSpace ch) := rfl
  rw [awaits_tagRest_iff, hRest, bind_assoc, completes_bind]
  simp only [hSkip]
  constructor
  · rintro ⟨after, _, ⟨space, hText, hSpace, hOther, rfl⟩, hRest⟩
    rw [hSpaced hText hSpace hOther,
      completes_tagGoesOn hOff hBelow hOpened hSeen hSpace hText] at hRest
    exact ⟨space, hSpace, (Cursor.reads_append.mp hText).1, hRest⟩
  · rintro ⟨space, hSpace, hSpaceText, hRest⟩
    obtain ⟨after, hAfter, hOther⟩ : ∃ after, (s.past space).cursor.Reads [after] ∧
        CodePoint.isSpace after = false := by
      rcases hRest with ⟨-, hRest⟩ | hEnd
      · obtain ⟨after, hAfter, hOther, -⟩ := exists_reads_of_attributeRest hRest
        exact ⟨after, hAfter, hOther⟩
      · obtain ⟨after, hAfter, hOther, -⟩ := exists_reads_of_tagEnd hEnd
        exact ⟨after, hAfter, hOther⟩
    have hText : s.cursor.Reads (space ++ [after]) := Cursor.reads_append.mpr ⟨hSpaceText, hAfter⟩
    refine ⟨after, _, ⟨space, hText, hSpace, hOther, rfl⟩, ?_⟩
    rw [hSpaced hText hSpace hOther]
    exact (completes_tagGoesOn hOff hBelow hOpened hSeen hSpace hText).mpr hRest

end Lex
end XmlIndex
