import XmlIndex.Proofs.Lexer.Elements

/-! # Every lexer is understood

Each phase reads one piece of markup and asks for a phase with less to read, so what a lexer awaits
follows by induction on what is left to read.
-/
namespace XmlIndex
set_option autoImplicit false
open Grammar XmlIndex.Lex

namespace Lex
variable {s : Lexer} {name : Chars} {names : List Chars} {r : Reading}

theorem exists_reads_of_tagRest {e : Encoding} {recordSpace : Bool} {seen : List Chars} {place : Nat}
    (hAwaits : s.Awaits (Grammar.tagRest e recordSpace name names seen place) r) :
    ∃ ch, s.cursor.Reads [ch] ∧ CodePoint.isName ch = false := by
  obtain ⟨text, tokens, hReads, hText, hEnds, hReading⟩ := hAwaits
  obtain ⟨space, others, hSpace, rfl, hRest⟩ := tagRest_iff.mp hText
  cases space with
  | cons ch space =>
    exact ⟨ch, (Cursor.reads_cons.mp hReads).1, CodePoint.isName_of_isSpace (hSpace ch List.mem_cons_self)⟩
  | nil =>
    rcases hRest with ⟨h, -⟩ | hEnd
    · exact absurd rfl h
    · obtain ⟨ch, hNext, -, hLast⟩ :=
        exists_reads_of_tagEnd ⟨others, tokens, hReads, hEnd, hEnds, hReading⟩
      exact ⟨ch, hNext, hLast⟩

section
variable {own : Chars} {b : Binding}

def pastAttribute (s : Lexer) (own : Chars) (b : Binding) : Lexer :=
  (s.named (attributeKind own) own).valued b

theorem cursor_pastAttribute : (pastAttribute s own b).cursor = s.cursor.advance (own ++ b.text) := by
  rw [Cursor.advance_append]
  rfl

theorem opened_pastAttribute (hOpened : s.Opened names) : (pastAttribute s own b).Opened names :=
  Lexer.forall_covers_congr hOpened (by simp [cursor_pastAttribute]) (by simp [cursor_pastAttribute])
    (by simp [cursor_pastAttribute])

theorem seen_pastAttribute {seen : List Chars} (hSeen : s.Seen seen) (hReads : s.cursor.Reads own) :
    (pastAttribute s own b).Seen (own :: seen) :=
  Lexer.forall_covers_congr (List.Forall₂.cons (Scan.covers_nameAt hReads) hSeen)
    (by simp [cursor_pastAttribute]) (by simp [cursor_pastAttribute]) (by simp [cursor_pastAttribute])

theorem tokens_pastAttribute {space : Chars} {place : Nat} {depth : Nat} (hDepth : s.depth = depth)
    (hPlace : s.cursor.offset = place + s.cursor.encoding.size space) :
    (pastAttribute s own b).tokens = s.tokens ++
      (⟨space, own, b⟩ : Attribute).tokens s.cursor.encoding depth place := by
  have hNamedDepth : (s.named (attributeKind own) own).depth = depth := hDepth
  have hNamedCursor : (s.named (attributeKind own) own).cursor = s.cursor.advance own := rfl
  simp only [pastAttribute, Lexer.valued, Lexer.tokens_add, Lexer.tokens_past, hNamedDepth, hNamedCursor]
  simp only [Lexer.named, Lexer.tokens_add, Attribute.tokens, Attribute.valuePlace, hDepth, hPlace,
    Cursor.encoding_advance, Cursor.offset_advance, Encoding.size_append, List.append_assoc,
    List.cons_append, List.nil_append, Nat.add_assoc]
  rfl

end

/-- An attribute whose name begins at the cursor. -/
theorem completes_readAttribute {first : CodePoint} {space : Chars} {seen : List Chars} {place : Nat}
    (hOff : s.namespaces = false) (hBelow : s.Below) (hOpened : s.Opened (name :: names))
    (hSeen : s.Seen seen) (hReads : s.cursor.Reads [first])
    (hFirst : CodePoint.isNameStart first = true) (hSpace : IsSpace space) (hNonempty : space ≠ [])
    (hPlace : s.cursor.offset = place + s.cursor.encoding.size space) :
    Completes (readAttribute s.cursor.offset first >>= run) (s.past [first]) r ↔
      s.Awaits (attributeRest s.cursor.encoding s.recordWhitespace name names seen space place) r := by
  have hRest : ∀ {own : Chars} {b : Binding} {next : CodePoint},
      s.cursor.Reads (own ++ (b.text ++ [next])) →
      (Completes (tagRest next >>= run) ((pastAttribute s own b).past [next]) r ↔
        (pastAttribute s own b).Awaits (Grammar.tagRest s.cursor.encoding s.recordWhitespace name names
          (own :: seen) (place + s.cursor.encoding.size (space ++ (own ++ b.text)))) r) := by
    intro own b next hText
    rw [← List.append_assoc, Cursor.reads_append] at hText
    have hLater : (pastAttribute s own b).Below := by
      refine hBelow.mono ?_
      rw [Lexer.remaining, cursor_pastAttribute]
      exact Lexer.remaining_past_le hText.1
    have hNext : (pastAttribute s own b).cursor.Reads [next] := by
      rw [cursor_pastAttribute]
      exact hText.2
    rw [completes_tagRest (by exact hOff) hLater (opened_pastAttribute hOpened)
      (seen_pastAttribute hSeen (Cursor.reads_append.mp hText.1).1) hNext, cursor_pastAttribute]
    simp [hPlace, Nat.add_assoc]
    rfl
  have hLanguage : ∀ own b, (pastAttribute s own b).Awaits (Grammar.tagRest s.cursor.encoding
      s.recordWhitespace name names (own :: seen)
        (place + s.cursor.encoding.size (space ++ (own ++ b.text)))) r ↔
      ((s.past (own ++ b.text)).add ((⟨space, own, b⟩ : Attribute).tokens s.cursor.encoding names.length
        place)).Awaits (Grammar.tagRest s.cursor.encoding s.recordWhitespace name names (own :: seen)
          (place + s.cursor.encoding.size (space ++ (own ++ b.text)))) r := by
    intro own b
    refine Lexer.awaits_congr cursor_pastAttribute ?_
    rw [tokens_pastAttribute hOpened.depth_eq hPlace, Lexer.tokens_add, Lexer.tokens_past]
  unfold attributeRest
  simp only [Lexer.awaits_exists, Lexer.awaits_and, Lexer.awaits_after]
  simp only [completes_bind, readAttribute_eq_ok_iff hOff hSeen hReads hFirst]
  constructor
  · rintro ⟨phase, s', ⟨own, b, next, hText, hOwn, hNew, hNameFits, hWell, hValue, hFits, hOk⟩, hRun⟩
    have hGoesOn := (hRest hText).mp (completes_bind.mpr ⟨phase, s', hOk, hRun⟩)
    rw [← List.append_assoc, Cursor.reads_append] at hText
    exact ⟨own, b, ⟨⟨hNonempty, hSpace, hWell⟩, hOwn, hValue⟩, ⟨hNameFits, hFits⟩, hNew, hText.1,
      (hLanguage own b).mp hGoesOn⟩
  · rintro ⟨own, b, hWell, hFits, hNew, hText, hGoesOn⟩
    rw [← hLanguage] at hGoesOn
    obtain ⟨next, hNext, -⟩ := exists_reads_of_tagRest hGoesOn
    rw [cursor_pastAttribute] at hNext
    have hAll : s.cursor.Reads (own ++ (b.text ++ [next])) := by
      rw [← List.append_assoc]
      exact Cursor.reads_append.mpr ⟨hText, hNext⟩
    obtain ⟨phase, s', hOk, hRun⟩ := completes_bind.mp ((hRest hAll).mpr hGoesOn)
    exact ⟨phase, s', ⟨own, b, next, hAll, hWell.name, hNew, hFits.name, hWell.binding, hWell.value,
      hFits.value, hOk⟩, hRun⟩

theorem opened_opened {text : Chars} (hOpened : s.Opened names) (hReads : s.cursor.Reads text) :
    (s.opened text).Opened (text :: names) :=
  Lexer.forall_covers_congr (List.Forall₂.cons (Scan.covers_nameAt hReads) hOpened)
    Cursor.doc_advance Cursor.stop_advance Cursor.encoding_advance

theorem tokens_opened {text : Chars} : (s.opened text).tokens = s.tokens ++
    [nameToken s.cursor.encoding .startTag s.openTags.length s.cursor.offset text] :=
  Draft.toList_element

/-- An element whose name begins at the cursor. -/
theorem completes_startTag {first : CodePoint} (hOff : s.namespaces = false) (hBelow : s.Below)
    (hOpened : s.Opened names) (hReads : s.cursor.Reads [first])
    (hFirst : CodePoint.isNameStart first = true) :
    Completes (startTag s.cursor.offset >>= run) (s.past [first]) r ↔
      s.Awaits (element s.cursor.encoding s.recordWhitespace names s.cursor.offset) r := by
  have hRest : ∀ {text : Chars} {next : CodePoint}, s.cursor.Reads (text ++ [next]) →
      (Completes (tagRest next >>= run) ((s.opened text).past [next]) r ↔
        (s.opened text).Awaits (Grammar.tagRest s.cursor.encoding s.recordWhitespace text names []
          (s.cursor.offset + s.cursor.encoding.size text)) r) := by
    intro text next hText
    rw [Cursor.reads_append] at hText
    have hLater : (s.opened text).Below := hBelow.mono (Lexer.remaining_past_le hText.1)
    have hCursor : (s.opened text).cursor = s.cursor.advance text := rfl
    rw [completes_tagRest (by exact hOff) hLater (opened_opened hOpened hText.1) List.Forall₂.nil
      (by exact hText.2), hCursor, Cursor.encoding_advance, Cursor.offset_advance]
    rfl
  have hLanguage : ∀ text, (s.opened text).Awaits (Grammar.tagRest s.cursor.encoding s.recordWhitespace
      text names [] (s.cursor.offset + s.cursor.encoding.size text)) r ↔
      ((s.past text).add [nameToken s.cursor.encoding .startTag names.length s.cursor.offset text]).Awaits
        (Grammar.tagRest s.cursor.encoding s.recordWhitespace text names []
          (s.cursor.offset + s.cursor.encoding.size text)) r := by
    intro text
    refine Lexer.awaits_congr rfl ?_
    rw [tokens_opened, hOpened.length_eq, Lexer.tokens_add, Lexer.tokens_past]
  rw [Lexer.awaits_congr_language fun _ _ => element_iff]
  simp only [Lexer.awaits_exists, Lexer.awaits_and, Lexer.awaits_after]
  simp only [completes_bind, startTag_eq_ok_iff hOff hReads hFirst, hOpened.length_eq]
  constructor
  · rintro ⟨phase, s', ⟨text, next, hText, hName, -, hDepth, hFits, hOk⟩, hRun⟩
    have hGoesOn := (hRest hText).mp (completes_bind.mpr ⟨phase, s', hOk, hRun⟩)
    exact ⟨text, hName, hFits, hDepth, (Cursor.reads_append.mp hText).1, (hLanguage text).mp hGoesOn⟩
  · rintro ⟨text, hName, hFits, hDepth, hText, hGoesOn⟩
    rw [← hLanguage] at hGoesOn
    obtain ⟨next, hNext, hLast⟩ := exists_reads_of_tagRest hGoesOn
    have hAll : s.cursor.Reads (text ++ [next]) := Cursor.reads_append.mpr ⟨hText, hNext⟩
    obtain ⟨phase, s', hOk, hRun⟩ := completes_bind.mp ((hRest hAll).mpr hGoesOn)
    exact ⟨phase, s', ⟨text, next, hAll, hName, hLast, hDepth, hFits, hOk⟩, hRun⟩

theorem instruction_past_eq_ok_iff {s' : Lexer} {u : Unit} (hReads : s.cursor.Reads [CodePoint.question]) :
    instruction (s.past [CodePoint.question]) = .ok u s' ↔
      ∃ m : Markup, m.inner.head? = some CodePoint.question ∧ m.WellFormed ∧ m.Fits s.cursor.encoding ∧
        s.Allows m ∧ s.cursor.Reads m.inner ∧ s' = s.after m := by
  rw [instruction_eq_ok_iff hReads]
  constructor
  · rintro ⟨target, data, hWell, hFits, hText, rfl⟩
    refine ⟨.instruction target data, ?_, hWell, hFits, ⟨nofun, nofun⟩, hText, rfl⟩
    rcases data with _ | ⟨_, _⟩ <;> rfl
  · rintro ⟨m, hHead, hWell, hFits, -, hText, rfl⟩
    cases m with
    | instruction target data => exact ⟨target, data, hWell, hFits, hText, rfl⟩
    | _ => cases hHead

theorem head?_inner (m : Markup) :
    m.inner.head? = some CodePoint.question ∨ m.inner.head? = some CodePoint.bang := by
  cases m with
  | instruction target data => rcases data with _ | ⟨_, _⟩ <;> exact .inl rfl
  | _ => exact .inr rfl

theorem reads_of_head?_inner {m : Markup} {ch : CodePoint} (hHead : m.inner.head? = some ch)
    (hText : s.cursor.Reads m.inner) : s.cursor.Reads [ch] := by
  obtain ⟨rest, hInner⟩ := List.head?_eq_some_iff.mp hHead
  rw [hInner] at hText
  exact (Cursor.reads_cons.mp hText).1

theorem completes_markup_cases : Completes (run .markup) s r ↔
    (∃ m : Markup, m.WellFormed ∧ m.Fits s.cursor.encoding ∧ s.Allows m ∧ s.cursor.Reads m.inner ∧
        Completes (resume >>= run) (s.after m) r) ∨
      (∃ first, s.cursor.Reads [first] ∧ CodePoint.isNameStart first = true ∧
          Completes (startTag s.cursor.offset >>= run) (s.past [first]) r) ∨
        s.cursor.Reads [CodePoint.slash] ∧ Completes (endTag >>= run) (s.past [CodePoint.slash]) r := by
  rw [completes_markup_iff]
  constructor
  · rintro ⟨ch, hReads, hOk⟩
    unfold markupFrom at hOk
    split at hOk
    · exact .inr (.inl ⟨ch, hReads, ‹_›, hOk⟩)
    · split at hOk
      · subst ‹ch = _›
        exact .inr (.inr ⟨hReads, hOk⟩)
      · split at hOk
        · subst ‹ch = _›
          rw [bind_assoc, completes_bind] at hOk
          obtain ⟨_, _, hMarkup, hRest⟩ := hOk
          obtain ⟨m, -, hWell, hFits, hAllows, hText, rfl⟩ := (instruction_past_eq_ok_iff hReads).mp hMarkup
          exact .inl ⟨m, hWell, hFits, hAllows, hText, hRest⟩
        · split at hOk
          · subst ‹ch = _›
            rw [bind_assoc, completes_bind] at hOk
            obtain ⟨_, _, hMarkup, hRest⟩ := hOk
            obtain ⟨m, -, hWell, hFits, hAllows, hText, rfl⟩ := (declared_eq_ok_iff hReads).mp hMarkup
            exact .inl ⟨m, hWell, hFits, hAllows, hText, hRest⟩
          · obtain ⟨_, _, hFail, -⟩ := completes_bind.mp hOk
            exact (fail_eq_ok_iff.mp hFail).elim
  · rintro (⟨m, hWell, hFits, hAllows, hText, hRest⟩ | ⟨first, hReads, hFirst, hOk⟩ | ⟨hReads, hOk⟩)
    · rcases head?_inner m with hHead | hHead
      · have hReads := reads_of_head?_inner hHead hText
        refine ⟨CodePoint.question, hReads, ?_⟩
        change Completes ((instruction >>= fun _ => resume) >>= run) _ _
        rw [bind_assoc, completes_bind]
        exact ⟨(), _, (instruction_past_eq_ok_iff hReads).mpr ⟨m, hHead, hWell, hFits, hAllows, hText, rfl⟩,
          hRest⟩
      · have hReads := reads_of_head?_inner hHead hText
        refine ⟨CodePoint.bang, hReads, ?_⟩
        change Completes ((declared >>= fun _ => resume) >>= run) _ _
        rw [bind_assoc, completes_bind]
        exact ⟨(), _, (declared_eq_ok_iff hReads).mpr ⟨m, hHead, hWell, hFits, hAllows, hText, rfl⟩, hRest⟩
    · refine ⟨first, hReads, ?_⟩
      rw [markupFrom, if_pos hFirst]
      exact hOk
    · exact ⟨CodePoint.slash, hReads, hOk⟩

theorem completes_element (hOff : s.namespaces = false) (hBelow : s.Below) (hOpened : s.Opened names) :
    (∃ first, s.cursor.Reads [first] ∧ CodePoint.isNameStart first = true ∧
        Completes (startTag s.cursor.offset >>= run) (s.past [first]) r) ↔
      s.Awaits (element s.cursor.encoding s.recordWhitespace names s.cursor.offset) r := by
  constructor
  · rintro ⟨first, hReads, hFirst, hOk⟩
    exact (completes_startTag hOff hBelow hOpened hReads hFirst).mp hOk
  · intro hAwaits
    obtain ⟨text, tokens, hReads, hText, hRest⟩ := id hAwaits
    obtain ⟨name, hName, -, -, others, more, -, rfl, -⟩ := element_iff.mp hText
    cases name with
    | nil => exact hName.elim
    | cons first name =>
      have hFirst := (Cursor.reads_cons.mp hReads).1
      exact ⟨first, hFirst, hName.1, (completes_startTag hOff hBelow hOpened hFirst hName.1).mpr hAwaits⟩

theorem tokens_after {m : Markup} :
    (s.after m).tokens = s.tokens ++ m.tokens s.cursor.encoding s.depth s.cursor.offset :=
  Draft.toList_append

theorem below_after {m : Markup} (hBelow : s.Below) (hText : s.cursor.Reads m.inner) : (s.after m).Below :=
  hBelow.mono (Lexer.remaining_past_le hText)

theorem allows_iff_of_ne_nil {m : Markup} (hInside : s.openTags ≠ []) :
    s.Allows m ↔ m.isDocumentType = false := by
  constructor
  · intro hAllows
    by_contra hKind
    exact hInside (hAllows.outside (by simpa using hKind)).1
  · intro hKind
    exact ⟨fun _ => hInside, fun h => by rw [hKind] at h; cases h⟩

/-- After markup inside the root comes more of the content of the element that is open. -/
theorem completes_resume_inside {m : Markup} (hOff : s.namespaces = false) (hBelow : s.Below)
    (hOpened : s.Opened (name :: names)) (hText : s.cursor.Reads m.inner) :
    Completes (resume >>= run) (s.after m) r ↔
      ((s.past m.inner).add (m.tokens s.cursor.encoding names.length s.cursor.offset)).Awaits
        (Grammar.content s.cursor.encoding s.recordWhitespace (name :: names) false
          (s.cursor.offset + s.cursor.encoding.size m.inner)) r := by
  have hOutside : outsideRoot (s.after m) = .ok false (s.after m) := by
    rw [show false = s.openTags.isEmpty from (List.isEmpty_eq_false_iff.mpr hOpened.openTags_ne_nil).symm]
    rfl
  have hCursor : (s.after m).cursor = s.cursor.advance m.inner := rfl
  have hTokens : (s.after m).tokens = ((s.past m.inner).add
      (m.tokens s.cursor.encoding names.length s.cursor.offset)).tokens := by
    rw [tokens_after, hOpened.depth_eq, Lexer.tokens_add, Lexer.tokens_past]
  rw [resume, bind_assoc, completes_of_ok hOutside, if_neg Bool.false_ne_true,
    completes_afterMarkup (by exact hOff) (below_after hBelow hText) (by exact hOpened.past), hCursor,
    Cursor.encoding_advance, Cursor.offset_advance]
  exact Lexer.awaits_congr rfl hTokens

theorem completes_endTag_iff (hOff : s.namespaces = false) (hBelow : s.Below) (hOpened : s.Opened (name :: names)) :
    (s.cursor.Reads [CodePoint.slash] ∧ Completes (endTag >>= run) (s.past [CodePoint.slash]) r) ↔
      ∃ space, IsSpace space ∧ s.cursor.Reads (Grammar.endTag name space) ∧
        (s.past (Grammar.endTag name space)).Awaits (Grammar.content s.cursor.encoding s.recordWhitespace names
          false (s.cursor.offset + s.cursor.encoding.size (Grammar.endTag name space))) r := by
  have hSplit : ∀ space, s.cursor.Reads (Grammar.endTag name space) ↔ s.cursor.Reads [CodePoint.slash] ∧
      (s.past [CodePoint.slash]).cursor.Reads (name ++ (space ++ [CodePoint.greaterThan])) :=
    fun _ => Cursor.reads_cons
  have hEnd : s.cursor.Reads [CodePoint.slash] → (Completes (endTag >>= run) (s.past [CodePoint.slash]) r ↔
      ∃ space, IsSpace space ∧
        (s.past [CodePoint.slash]).cursor.Reads (name ++ (space ++ [CodePoint.greaterThan])) ∧
          (s.past (Grammar.endTag name space)).Awaits (Grammar.content s.cursor.encoding s.recordWhitespace
            names false (s.cursor.offset + s.cursor.encoding.size (Grammar.endTag name space))) r) := by
    intro hReads
    rw [completes_endTag (by exact hOff) (hBelow.mono (Lexer.remaining_past_le hReads)) hOpened.past]
    simp only [Grammar.endTag, Encoding.size_cons, Lexer.cursor_past, Cursor.encoding_advance,
      Cursor.offset_advance, Encoding.size_nil, Nat.add_zero, Nat.add_assoc]
    rfl
  constructor
  · rintro ⟨hReads, hOk⟩
    obtain ⟨space, hSpace, hText, hRest⟩ := (hEnd hReads).mp hOk
    exact ⟨space, hSpace, (hSplit space).mpr ⟨hReads, hText⟩, hRest⟩
  · rintro ⟨space, hSpace, hText, hRest⟩
    obtain ⟨hReads, hText⟩ := (hSplit space).mp hText
    exact ⟨hReads, (hEnd hReads).mpr ⟨space, hSpace, hText, hRest⟩⟩

theorem completes_inside (hOff : s.namespaces = false) (hBelow : s.Below)
    (hOpened : s.Opened (name :: names)) : Completes (run .markup) s r ↔
      s.Awaits (marked s.cursor.encoding s.recordWhitespace name names s.cursor.offset) r := by
  rw [completes_markup_cases, completes_element hOff hBelow hOpened, completes_endTag_iff hOff hBelow hOpened]
  unfold marked
  rw [Lexer.awaits_or, Lexer.awaits_or]
  simp only [Lexer.awaits_exists, Lexer.awaits_and, Lexer.awaits_after, Lexer.add_nil]
  refine or_congr (exists_congr fun m => and_congr_right fun _ => ?_) Iff.rfl
  rw [allows_iff_of_ne_nil hOpened.openTags_ne_nil]
  constructor
  · rintro ⟨hFits, hKind, hText, hRest⟩
    exact ⟨hKind, hFits, hText, (completes_resume_inside hOff hBelow hOpened hText).mp hRest⟩
  · rintro ⟨hKind, hFits, hText, hRest⟩
    exact ⟨hFits, hKind, hText, (completes_resume_inside hOff hBelow hOpened hText).mpr hRest⟩

theorem endTag_of_nil (hOutside : s.openTags = []) :
    endTag s = .error (.structural .unopenedTag (some s.cursor.offset)) s := by
  have hTags : look (·.openTags) s = .ok [] s := hOutside ▸ rfl
  have hPlace : read Scan.offset s = .ok s.cursor.offset s := rfl
  unfold endTag
  rw [bind_of_ok hPlace, bind_of_ok hTags]
  rfl

theorem not_completes_endTag (hOutside : s.openTags = []) : ¬Completes (endTag >>= run) s r := by
  rw [completes_bind]
  rintro ⟨phase, s', hOk, -⟩
  rw [endTag_of_nil hOutside] at hOk
  cases hOk

theorem allows_iff_of_nil {m : Markup} (hOutside : s.openTags = []) :
    s.Allows m ↔ m.isSection = false ∧ (s.hasDoctype && m.isDocumentType) = false := by
  constructor
  · intro hAllows
    refine ⟨?_, ?_⟩
    · by_contra hKind
      exact hAllows.inside (by simpa using hKind) hOutside
    · by_contra hKind
      rw [Bool.not_eq_false, Bool.and_eq_true] at hKind
      rw [(hAllows.outside hKind.2).2] at hKind
      cases hKind.1
  · rintro ⟨hSection, hKind⟩
    refine ⟨fun h => absurd h (by rw [hSection]; exact Bool.false_ne_true), fun h => ⟨hOutside, ?_⟩⟩
    rw [h, Bool.and_true] at hKind
    exact hKind

def afterSpaced (s : Lexer) (m : Markup) (space : Chars) : Lexer :=
  (s.past (m.inner ++ (space ++ [CodePoint.lessThan]))).add (m.tokens s.cursor.encoding (-1) s.cursor.offset)

/-- After markup outside the root comes space up to more markup. -/
theorem completes_resume_outside {m : Markup} (hOff : s.namespaces = false) (hBelow : s.Below)
    (hOutside : s.openTags = []) (hText : s.cursor.Reads m.inner) :
    Completes (resume >>= run) (s.after m) r ↔
      ∃ space, IsSpace space ∧ (s.cursor.advance m.inner).Reads (space ++ [CodePoint.lessThan]) ∧
        (afterSpaced s m space).Awaits
          (prolog s.cursor.encoding s.recordWhitespace (s.hasDoctype || m.isDocumentType)
            (s.cursor.offset + s.cursor.encoding.size (m.inner ++ (space ++ [CodePoint.lessThan])))) r := by
  have hOutsideRoot : outsideRoot (s.after m) = .ok true (s.after m) := by
    rw [show true = s.openTags.isEmpty by rw [hOutside]; rfl]
    rfl
  have hRun : ∀ space, (s.cursor.advance m.inner).Reads (space ++ [CodePoint.lessThan]) →
      (Completes (run .markup) ((s.after m).past (space ++ [CodePoint.lessThan])) r ↔
        (afterSpaced s m space).Awaits
          (prolog s.cursor.encoding s.recordWhitespace (s.hasDoctype || m.isDocumentType)
            (s.cursor.offset + s.cursor.encoding.size (m.inner ++ (space ++ [CodePoint.lessThan])))) r) := by
    intro space hSpaceText
    have hAll : s.cursor.Reads (m.inner ++ (space ++ [CodePoint.lessThan])) :=
      Cursor.reads_append.mpr ⟨hText, hSpaceText⟩
    have hCursor : ((s.after m).past (space ++ [CodePoint.lessThan])).cursor =
        s.cursor.advance (m.inner ++ (space ++ [CodePoint.lessThan])) := by
      rw [Cursor.advance_append]
      rfl
    have hDepth : s.depth = -1 := by
      rw [Lexer.depth, hOutside]
      rfl
    have hTokens : ((s.after m).past (space ++ [CodePoint.lessThan])).tokens = (afterSpaced s m space).tokens := by
      rw [Lexer.tokens_past, tokens_after, hDepth, afterSpaced, Lexer.tokens_add, Lexer.tokens_past]
    have hLess : ((s.after m).past (space ++ [CodePoint.lessThan])).remaining < s.remaining := by
      rw [Lexer.remaining, hCursor]
      exact Lexer.remaining_past_lt hAll (by simp)
    rw [(hBelow _ hLess hOff).outside hOutside, hCursor, Cursor.encoding_advance, Cursor.offset_advance]
    exact Lexer.awaits_congr hCursor hTokens
  rw [resume, bind_assoc, completes_of_ok hOutsideRoot, if_pos rfl, betweenMarkup, bind_assoc, completes_bind]
  simp only [read_nextAfterSpace_eq_ok_iff, bind_assoc, completes_require, decide_eq_true_eq, pure_bind]
  constructor
  · rintro ⟨_, _, ⟨space, hSpaceText, hSpace, -, rfl⟩, rfl, hRest⟩
    exact ⟨space, hSpace, hSpaceText, (hRun space hSpaceText).mp hRest⟩
  · rintro ⟨space, hSpace, hSpaceText, hRest⟩
    exact ⟨CodePoint.lessThan, _, ⟨space, hSpaceText, hSpace, by decide, rfl⟩, rfl,
      (hRun space hSpaceText).mpr hRest⟩

theorem completes_outside (hOff : s.namespaces = false) (hBelow : s.Below) (hOutside : s.openTags = []) :
    Completes (run .markup) s r ↔
      s.Awaits (prolog s.cursor.encoding s.recordWhitespace s.hasDoctype s.cursor.offset) r := by
  have hOpened : s.Opened [] := List.forall₂_nil_right_iff.mpr hOutside
  have hNoEnd : ¬Completes (endTag >>= run) (s.past [CodePoint.slash]) r := not_completes_endTag hOutside
  rw [completes_markup_cases, completes_element hOff hBelow hOpened,
    Lexer.awaits_congr_language fun _ _ => prolog_iff, Lexer.awaits_or]
  simp only [Lexer.awaits_exists, Lexer.awaits_and, Lexer.awaits_after, hNoEnd, and_false, or_false]
  refine or_congr ?_ Iff.rfl
  constructor
  · rintro ⟨m, hWell, hFits, hAllowed, hText, hRest⟩
    obtain ⟨space, hSpace, hSpaceText, hRest⟩ := (completes_resume_outside hOff hBelow hOutside hText).mp hRest
    obtain ⟨hSection, hKind⟩ := (allows_iff_of_nil hOutside).mp hAllowed
    exact ⟨m, space, hWell, hSection, hFits, hSpace, hKind, Cursor.reads_append.mpr ⟨hText, hSpaceText⟩, hRest⟩
  · rintro ⟨m, space, hWell, hSection, hFits, hSpace, hKind, hAll, hRest⟩
    obtain ⟨hText, hSpaceText⟩ := Cursor.reads_append.mp hAll
    exact ⟨m, hWell, hFits, (allows_iff_of_nil hOutside).mpr ⟨hSection, hKind⟩, hText,
      (completes_resume_outside hOff hBelow hOutside hText).mpr ⟨space, hSpace, hSpaceText, hRest⟩⟩

theorem read_nextAfterSpace?_eq_ok_some_iff {ch : CodePoint} {s' : Lexer} :
    read Scan.nextAfterSpace? s = .ok (some ch) s' ↔ ∃ space, s.cursor.Reads (space ++ [ch]) ∧
      IsSpace space ∧ CodePoint.isSpace ch = false ∧ s' = s.past (space ++ [ch]) := by
  simp only [read_eq_ok_iff, Scan.nextAfterSpace?_eq_ok_some_iff]
  constructor
  · rintro ⟨_, ⟨space, hReads, hSpace, hLast, rfl⟩, rfl⟩
    exact ⟨space, hReads, hSpace, hLast, rfl⟩
  · rintro ⟨space, hReads, hSpace, hLast, rfl⟩
    exact ⟨_, ⟨space, hReads, hSpace, hLast, rfl⟩, rfl⟩

theorem read_nextAfterSpace?_eq_ok_none_iff {s' : Lexer} :
    read Scan.nextAfterSpace? s = .ok none s' ↔ ∃ space, s.cursor.Reads space ∧ IsSpace space ∧
      (s.cursor.advance space).Ends ∧ s' = s.past space := by
  simp only [read_eq_ok_iff, Scan.nextAfterSpace?_eq_ok_none_iff]
  constructor
  · rintro ⟨_, ⟨space, hReads, hSpace, hEnds, rfl⟩, rfl⟩
    exact ⟨space, hReads, hSpace, hEnds, rfl⟩
  · rintro ⟨space, hReads, hSpace, hEnds, rfl⟩
    exact ⟨_, ⟨space, hReads, hSpace, hEnds, rfl⟩, rfl⟩

def misc : Lex Unit := do
  match ← read Scan.tail with
  | .comment => comment
  | .instruction => instruction

theorem misc_eq_ok_iff {s' : Lexer} {u : Unit} : misc s = .ok u s' ↔
    ∃ m : Markup, m.WellFormed ∧ m.isMisc = true ∧ m.Fits s.cursor.encoding ∧ s.cursor.Reads m.inner ∧
      s' = s.after m := by
  simp only [misc, bind_eq_ok_iff, read_eq_ok_iff, Scan.tail_eq_ok_iff]
  constructor
  · rintro ⟨_, _, ⟨_, ⟨rfl, hReads, rfl⟩ | ⟨rfl, hReads, rfl⟩, rfl⟩, hOk⟩
    · obtain ⟨target, data, hWell, hFits, hText, rfl⟩ := (instruction_eq_ok_iff hReads).mp hOk
      exact ⟨.instruction target data, hWell, rfl, hFits, hText, rfl⟩
    · obtain ⟨body, hWell, hText, rfl⟩ := (comment_past_eq_ok_iff hReads).mp hOk
      exact ⟨.comment body, hWell, rfl, trivial, hText, rfl⟩
  · rintro ⟨m, hWell, hMisc, hFits, hText, rfl⟩
    cases m with
    | comment body =>
      have hReads : s.cursor.Reads commentOpening := (Cursor.reads_append.mp hText).1
      exact ⟨.comment, _, ⟨_, .inr ⟨rfl, hReads, rfl⟩, rfl⟩,
        (comment_past_eq_ok_iff hReads).mpr ⟨body, hWell, hText, rfl⟩⟩
    | «section» body => cases hMisc
    | instruction target data =>
      have hReads : s.cursor.Reads [CodePoint.question] := by
        rcases data with _ | ⟨_, _⟩ <;> exact (Cursor.reads_cons.mp hText).1
      exact ⟨.instruction, _, ⟨_, .inl ⟨rfl, hReads, rfl⟩, rfl⟩,
        (instruction_eq_ok_iff hReads).mpr ⟨target, data, hWell, hFits, hText, rfl⟩⟩
    | documentType body => cases hMisc

theorem epilog_eq : epilog = (do
    match ← read Scan.nextAfterSpace? with
    | none => return none
    | some ch =>
      require (ch = CodePoint.lessThan) .notTerminated
      misc
      return some .epilog) := by
  unfold epilog misc
  refine bind_congr fun found => ?_
  cases found with
  | none => rfl
  | some ch =>
    simp only [bind_assoc]
    refine bind_congr fun _ => bind_congr fun found => ?_
    cases found <;> rfl

theorem completes_epilog_iff : Completes (run .epilog) s r ↔ ∃ space, IsSpace space ∧
    (s.cursor.Reads space ∧ (s.cursor.advance space).Ends ∧ (s.past space).reading = r ∨
      ∃ m : Markup, m.WellFormed ∧ m.isMisc = true ∧ m.Fits s.cursor.encoding ∧
        s.cursor.Reads (space ++ CodePoint.lessThan :: m.inner) ∧
          Completes (run .epilog) ((s.past (space ++ [CodePoint.lessThan])).after m) r) := by
  have hSplit : ∀ (space : Chars) (m : Markup), space ++ CodePoint.lessThan :: m.inner =
      (space ++ [CodePoint.lessThan]) ++ m.inner := by simp
  have hRun : Completes (run .epilog) s r ↔ Completes (epilog >>= finish) s r := by
    rw [Completes, Completes, run_eq]
    rfl
  rw [hRun, epilog_eq, bind_assoc, completes_bind]
  constructor
  · rintro ⟨found, _, hFound, hOk⟩
    cases found with
    | none =>
      obtain ⟨space, hReads, hSpace, hEnds, rfl⟩ := read_nextAfterSpace?_eq_ok_none_iff.mp hFound
      obtain ⟨_, hOk, hReading⟩ := hOk
      cases hOk
      exact ⟨space, hSpace, .inl ⟨hReads, hEnds, hReading⟩⟩
    | some ch =>
      obtain ⟨space, hReads, hSpace, -, rfl⟩ := read_nextAfterSpace?_eq_ok_some_iff.mp hFound
      simp only [bind_assoc, completes_require, decide_eq_true_eq] at hOk
      obtain ⟨rfl, hOk⟩ := hOk
      obtain ⟨_, _, hMisc, hRest⟩ := completes_bind.mp hOk
      obtain ⟨m, hWell, hKind, hFits, hText, rfl⟩ := misc_eq_ok_iff.mp hMisc
      rw [Lexer.cursor_past, Cursor.encoding_advance] at hFits
      refine ⟨space, hSpace, .inr ⟨m, hWell, hKind, hFits, ?_, hRest⟩⟩
      rw [hSplit]
      exact Cursor.reads_append.mpr ⟨hReads, hText⟩
  · rintro ⟨space, hSpace, ⟨hReads, hEnds, hReading⟩ | ⟨m, hWell, hKind, hFits, hText, hRest⟩⟩
    · exact ⟨none, _, read_nextAfterSpace?_eq_ok_none_iff.mpr ⟨space, hReads, hSpace, hEnds, rfl⟩, _, rfl,
        hReading⟩
    · rw [hSplit, Cursor.reads_append] at hText
      refine ⟨some CodePoint.lessThan, _, read_nextAfterSpace?_eq_ok_some_iff.mpr
        ⟨space, hText.1, hSpace, by decide, rfl⟩, ?_⟩
      simp only [bind_assoc, completes_require, decide_eq_true_eq]
      refine ⟨trivial, completes_bind.mpr ⟨(), _, misc_eq_ok_iff.mpr ⟨m, hWell, hKind, ?_, hText.2, rfl⟩, hRest⟩⟩
      rw [Lexer.cursor_past, Cursor.encoding_advance]
      exact hFits

section
variable {space : Chars} {m : Markup}

theorem cursor_past_after : ((s.past (space ++ [CodePoint.lessThan])).after m).cursor =
    s.cursor.advance (space ++ CodePoint.lessThan :: m.inner) := by
  have hSplit : space ++ CodePoint.lessThan :: m.inner = (space ++ [CodePoint.lessThan]) ++ m.inner := by simp
  rw [hSplit, Cursor.advance_append]
  rfl

theorem remaining_after_lt (hText : s.cursor.Reads (space ++ CodePoint.lessThan :: m.inner)) :
    ((s.past (space ++ [CodePoint.lessThan])).after m).remaining < s.remaining := by
  rw [Lexer.remaining, cursor_past_after]
  exact Lexer.remaining_past_lt hText (by simp)

end

theorem awaits_end {space : Chars} : s.Awaits (fun text tokens => text = space ∧ tokens = []) r ↔
    s.cursor.Reads space ∧ (s.cursor.advance space).Ends ∧ (s.past space).reading = r := by
  have hReading : (s.past space).reading = ⟨s.cursor.encoding, s.tokens⟩ := by
    rw [Lexer.reading, Lexer.tokens_past, Lexer.cursor_past, Cursor.encoding_advance]
  rw [hReading]
  constructor
  · rintro ⟨_, _, hReads, ⟨rfl, rfl⟩, hEnds, rfl⟩
    exact ⟨hReads, hEnds, by rw [List.append_nil]⟩
  · rintro ⟨hReads, hEnds, rfl⟩
    exact ⟨space, [], hReads, ⟨rfl, rfl⟩, hEnds, by rw [List.append_nil]⟩

theorem completes_epilog (hOff : s.namespaces = false) (hBelow : s.Below) (hOutside : s.openTags = []) :
    Completes (run .epilog) s r ↔ s.Awaits (Grammar.epilog s.cursor.encoding s.cursor.offset) r := by
  have hDepth : s.depth = -1 := by
    rw [Lexer.depth, hOutside]
    rfl
  rw [completes_epilog_iff, Lexer.awaits_congr_language fun _ _ => epilog_iff]
  simp only [Lexer.awaits_exists, Lexer.awaits_and, Lexer.awaits_or, Lexer.awaits_after, awaits_end]
  refine exists_congr fun space => and_congr_right fun _ => or_congr_right ?_
  refine exists_congr fun m => and_congr_right fun _ => and_congr_right fun _ => and_congr_right fun _ =>
    and_congr_right fun hText => ?_
  rw [(hBelow _ (remaining_after_lt hText) hOff).afterRoot hOutside, cursor_past_after, Cursor.encoding_advance,
    Cursor.offset_advance]
  refine Lexer.awaits_congr cursor_past_after ?_
  rw [tokens_after, Lexer.depth_past, hDepth, Lexer.tokens_add, Lexer.tokens_past, Lexer.tokens_past,
    Lexer.cursor_past, Cursor.encoding_advance, Cursor.offset_advance]

end Lex

namespace Lexer
open XmlIndex.Lex

/-- Without namespaces, every lexer completes its document exactly if it is as it must be. -/
theorem understood (s : Lexer) (hOff : s.namespaces = false) : s.Understood := by
  -- The induction is on what is left to read; phases that read nothing do not occur.
  induction hSize : s.remaining using Nat.strongRecOn generalizing s with
  | ind size ih =>
    have hBelow : s.Below := by
      intro t hLess hOffLater
      exact ih t.remaining (hSize ▸ hLess) t hOffLater rfl
    refine ⟨completes_inside hOff hBelow, completes_outside hOff hBelow, ?_, completes_epilog hOff hBelow⟩
    intro first space name names seen place r hOpened hSeen hReads hFirst hSpace hNonempty hPlace
    rw [completes_run (show step (.attributes s.cursor.offset first) =
      some <$> readAttribute s.cursor.offset first from rfl)]
    exact completes_readAttribute hOff hBelow hOpened hSeen hReads hFirst hSpace hNonempty hPlace

end Lexer
end XmlIndex
