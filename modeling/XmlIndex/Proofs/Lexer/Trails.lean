import XmlIndex.Proofs.Guarded.Names
import XmlIndex.Proofs.Lexer.Start
import XmlIndex.Proofs.Scan.Trails

/-! # Where a lexer gives up

Without namespaces a lexer decodes nothing but what it reads, so wherever it comes, its cursor remembers the character
before it, and where it fails for a character that does not decode, it stands before that character. Two places take
more care: an end tag is compared as bytes with a name that was read when the element was opened, and a declaration
that is not there is looked for and left again.
-/
namespace XmlIndex
set_option autoImplicit false
open Grammar

/-- The lexer heeds no namespaces, knows the names of its open elements and where it read last; outside there are
none open. -/
structure Lexer.Trailed (outside : Prop) (s : Lexer) : Prop where
  cursor : s.cursor.Trailed
  names : s.HasNames
  plain : s.namespaces = false
  closed : outside → s.openTags = []

structure Lexer.Stuck (s : Lexer) (fault : Fault) : Prop where
  cursor : s.cursor.Trailed
  fails : s.cursor.charAt s.cursor.offset = .error fault

namespace Lexer
variable {outside : Prop} {s s' : Lexer} {tag : Span}

theorem Trailed.inside (hTrailed : s.Trailed outside) : s.Trailed False :=
  { hTrailed with closed := False.elim }

theorem Trailed.moved {c : Cursor} (hTrailed : s.Trailed outside) (hMoved : s.cursor.Moved c) (hCursor : c.Trailed) :
    Trailed outside { s with cursor := c } :=
  { hTrailed with
    cursor := hCursor
    names := hTrailed.names.later hMoved.sameSource (List.Subset.refl _) }

/-- What is written does not matter, nor that elements are closed. -/
theorem Trailed.later (hTrailed : s.Trailed outside) (hCursor : s'.cursor = s.cursor)
    (hTags : s'.openTags ⊆ s.openTags) (hNamespaces : s'.namespaces = s.namespaces) : s'.Trailed outside where
  cursor := hCursor ▸ hTrailed.cursor
  names := hTrailed.names.later (hCursor ▸ .refl) hTags
  plain := hNamespaces.trans hTrailed.plain
  closed hOutside := by
    have hNone := hTrailed.closed hOutside
    rw [hNone] at hTags
    exact List.subset_nil.mp hTags

end Lexer

namespace Lex
variable {α β : Type} {outside : Prop} {s s' : Lexer}

/-- Success has the property, and where a character does not decode, failure leaves a trail. -/
def Marks (Q : α → Lexer → Prop) : EStateM.Result Fault Lexer α → Prop
  | .ok a s => Q a s
  | .error fault s => fault.IsUndecodable → s.Stuck fault

def MarkingTo (outside : Prop) (P : α → Prop) (action : Lex α) : Prop :=
  ∀ s, s.Trailed outside → Marks (fun a s => P a ∧ s.Trailed outside) (action s)

abbrev Marking (outside : Prop) (action : Lex α) : Prop :=
  MarkingTo outside (fun _ => True) action

abbrev Stepping (action : Lex Phase) : Prop :=
  MarkingTo False (· ≠ .start) action

section
variable {P : α → Prop} {R : β → Prop}

theorem Marks.bind {Q : α → Lexer → Prop} {T : β → Lexer → Prop} {action : Lex α} {next : α → Lex β}
    (hAction : Marks Q (action s)) (hNext : ∀ a s', action s = .ok a s' → Q a s' → Marks T (next a s')) :
    Marks T ((action >>= next) s) := by
  cases hResult : action s with
  | ok a s' =>
    rw [hResult] at hAction
    rw [bind_of_ok hResult]
    exact hNext a s' hResult hAction
  | error fault s' =>
    rw [hResult] at hAction
    rw [Lex.bind_of_error hResult]
    exact hAction

theorem MarkingTo.bind {action : Lex α} {next : α → Lex β} (hAction : MarkingTo outside P action)
    (hNext : ∀ a, MarkingTo outside R (next a)) : MarkingTo outside R (action >>= next) :=
  fun s hTrailed => (hAction s hTrailed).bind fun a s' _ hLater => hNext a s' hLater.2

theorem MarkingTo.ite {condition : Prop} [Decidable condition] {yes no : Lex α} (hYes : MarkingTo outside P yes)
    (hNo : MarkingTo outside P no) : MarkingTo outside P (if condition then yes else no) := by
  split
  · exact hYes
  · exact hNo

theorem MarkingTo.map {action : Lex α} {f : α → β} (hAction : MarkingTo outside P action)
    (hResult : ∀ a, P a → R (f a)) : MarkingTo outside R (f <$> action) := by
  intro s hTrailed
  have hFirst := hAction s hTrailed
  change Marks _ (EStateM.map f action s)
  unfold EStateM.map
  cases hOutcome : action s with
  | ok a s' =>
    rw [hOutcome] at hFirst
    exact ⟨hResult a hFirst.1, hFirst.2⟩
  | error fault s' =>
    rw [hOutcome] at hFirst
    exact hFirst

theorem markingTo_pure {a : α} (hResult : P a) : MarkingTo outside P (pure a : Lex α) :=
  fun _ hTrailed => ⟨hResult, hTrailed⟩

theorem marking_pure (a : α) : Marking outside (pure a : Lex α) :=
  markingTo_pure trivial

theorem stepping_pure {phase : Phase} (hPhase : phase ≠ .start) : Stepping (pure phase) :=
  markingTo_pure hPhase

theorem markingTo_throw {fault : Fault} (hOther : ¬fault.IsUndecodable) : MarkingTo outside P (throw fault : Lex α) :=
  fun _ _ hUndecodable => absurd hUndecodable hOther

theorem markingTo_fail (cause : SyntaxFault) : MarkingTo outside P (fail cause : Lex α) :=
  markingTo_throw id

end

theorem marking_require (condition : Bool) (cause : SyntaxFault) : Marking outside (require condition cause) :=
  .ite (marking_pure ()) (markingTo_throw id)

theorem marking_requireAt (place : Nat) (condition : Bool) (cause : SyntaxFault) :
    Marking outside (requireAt place condition cause) :=
  .ite (marking_pure ()) (markingTo_throw id)

theorem marking_look (view : Lexer → α) : Marking outside (look view) :=
  fun _ hTrailed => ⟨trivial, hTrailed⟩

/-- A reading that leaves a trail of the cursor, and moves within the range, leaves one of the lexer. -/
theorem marking_read_of_moved {action : Scan α} (hMarking : Scan.Marking action)
    (hMoved : ∀ c a c', action c = .ok a c' → c.Moved c') : Marking outside (read action) := by
  intro s hTrailed
  have hCursor := hMarking s.cursor hTrailed.cursor
  unfold read
  cases hResult : action s.cursor with
  | ok a c =>
    rw [hResult] at hCursor
    exact ⟨trivial, hTrailed.moved (hMoved _ _ _ hResult) hCursor⟩
  | error fault c =>
    rw [hResult] at hCursor
    exact fun hUndecodable => ⟨hCursor.1, hCursor.2 hUndecodable⟩

theorem moved_of_ok {action : Scan α} (hSteady : Scan.Steady action) (c : Cursor) (a : α) (c' : Cursor)
    (hOk : action c = .ok a c') : c.Moved c' := by
  have hMoved := Guarded.moved_of_steady hSteady c
  rwa [hOk] at hMoved

theorem marking_read {action : Scan α} (hMarking : Scan.Marking action) (hSteady : Scan.Steady action) :
    Marking outside (read action) :=
  marking_read_of_moved hMarking (moved_of_ok hSteady)

theorem marking_offset : Marking outside (read Scan.offset) :=
  marking_read Scan.marking_offset Scan.steady_offset

theorem marking_last : Marking outside (read Scan.last) :=
  marking_read Scan.marking_last Scan.steady_last

theorem marking_next : Marking outside (read Scan.next) :=
  marking_read Scan.marking_next Scan.steady_next

theorem marking_skip (expected : CodePoint) : Marking outside (read (Scan.skip expected)) :=
  marking_read (Scan.marking_skip _) (Scan.steady_skip _)

theorem marking_skipAll (expected : List CodePoint) : Marking outside (read (Scan.skipAll expected)) :=
  marking_read (Scan.marking_skipAll _) (Scan.steady_skipAll _)

theorem marking_nextAfterSpace : Marking outside (read Scan.nextAfterSpace) :=
  marking_read Scan.marking_nextAfterSpace Scan.steady_nextAfterSpace

theorem marking_nextAfterSpace? : Marking outside (read Scan.nextAfterSpace?) := by
  refine marking_read_of_moved Scan.marking_nextAfterSpace? fun c found c' hOk => ?_
  have hMoved := Guarded.moved_of_steady Scan.steady_nextAfterSpace c
  unfold Scan.nextAfterSpace? at hOk
  split at hOk <;> cases hOk
  all_goals
    rw [‹Scan.nextAfterSpace c = _›] at hMoved
    exact hMoved

theorem marking_update {change : Lexer → Lexer} (hChange : ∀ s, (change s).cursor = s.cursor ∧
    (change s).openTags ⊆ s.openTags ∧ (change s).namespaces = s.namespaces) : Marking outside (update change) := by
  intro s hTrailed
  obtain ⟨hCursor, hTags, hNamespaces⟩ := hChange s
  exact ⟨trivial, hTrailed.later hCursor hTags hNamespaces⟩

/-- A change to what is written or remembered of attributes. -/
theorem marking_note {change : Lexer → Lexer} (hChange : ∀ s, (change s).cursor = s.cursor ∧
    (change s).openTags = s.openTags ∧ (change s).namespaces = s.namespaces) : Marking outside (update change) := by
  refine marking_update fun s => ?_
  obtain ⟨hCursor, hTags, hNamespaces⟩ := hChange s
  exact ⟨hCursor, hTags ▸ List.Subset.refl _, hNamespaces⟩

theorem marking_emit (kind : TokenKind) (span : Span) : Marking outside (emit kind span) :=
  marking_note fun _ => ⟨rfl, rfl, rfl⟩

theorem marking_emitBounded (kind : TokenKind) (span : Span) : Marking outside (emitBounded kind span) :=
  (marking_look _).bind fun _ => (marking_requireAt _ _ _).bind fun _ => marking_emit _ _

theorem marking_emitText (kind : TokenKind) (span : Span) : Marking outside (emitText kind span) :=
  marking_note fun _ => ⟨rfl, rfl, rfl⟩

theorem marking_emitUnits (kind : TokenKind) (place count : Nat) : Marking outside (emitUnits kind place count) :=
  (marking_look _).bind fun _ => marking_emit _ _

theorem marking_checkName (name : Name) : Marking outside (checkName name) :=
  (marking_look _).bind fun _ => (marking_look _).bind fun _ => marking_requireAt _ _ _

theorem marking_emitName (kind : TokenKind) (name : Name) : Marking outside (emitName kind name) :=
  (marking_checkName _).bind fun _ => marking_note fun _ => ⟨rfl, rfl, rfl⟩

theorem marking_emitElement (name : Name) : Marking outside (emitElement name) :=
  (marking_checkName _).bind fun _ => marking_note fun _ => ⟨rfl, rfl, rfl⟩

theorem marking_emitSpace (place stop : Nat) : Marking outside (emitSpace place stop) :=
  (marking_look _).bind fun _ => .ite (marking_emitText _ _) (marking_pure _)

theorem stepping_text (place : Nat) (ch : CodePoint) : Stepping (text place ch) :=
  (marking_read (Scan.marking_text _) (Scan.steady_text _)).bind fun _ => marking_last.bind fun _ =>
    (marking_emitText _ _).bind fun _ => stepping_pure nofun

theorem stepping_afterMarkup : Stepping afterMarkup :=
  marking_offset.bind fun _ => marking_nextAfterSpace.bind fun _ =>
    .ite (marking_last.bind fun _ => (marking_emitSpace _ _).bind fun _ => stepping_pure nofun) (stepping_text _ _)

theorem stepping_betweenMarkup : Stepping betweenMarkup :=
  marking_nextAfterSpace.bind fun _ => (marking_require _ _).bind fun _ => stepping_pure nofun

theorem stepping_resume : Stepping resume :=
  (marking_look _).bind fun _ => .ite stepping_betweenMarkup stepping_afterMarkup

theorem marking_before (place count : Nat) : Marking outside (before place count) :=
  marking_offset.bind fun _ => (marking_look _).bind fun _ => marking_pure _

theorem marking_comment : Marking outside comment :=
  marking_offset.bind fun _ => (marking_read Scan.marking_comment Scan.steady_comment).bind fun _ =>
    (marking_before _ _).bind fun _ => marking_emitText _ _

theorem marking_characterSection : Marking outside characterSection :=
  marking_offset.bind fun _ =>
    (marking_read Scan.marking_characterSection Scan.steady_characterSection).bind fun _ =>
      (marking_before _ _).bind fun _ => marking_emitText _ _

theorem marking_instructionData : Marking outside instructionData :=
  marking_offset.bind fun _ => (marking_read Scan.marking_instructionData Scan.steady_instructionData).bind fun _ =>
    (marking_before _ _).bind fun _ => marking_emitBounded _ _

theorem marking_instruction : Marking outside instruction :=
  marking_offset.bind fun _ =>
    (marking_read Scan.marking_instructionTarget Scan.steady_instructionTarget).bind fun _ =>
      marking_last.bind fun _ => (marking_emitBounded _ _).bind fun _ =>
        .ite ((marking_skip _).bind fun _ => (marking_require _ _).bind fun _ => marking_emit _ _)
          ((marking_require _ _).bind fun _ => marking_instructionData)

theorem marking_documentType : Marking outside documentType :=
  (marking_look _).bind fun _ => (marking_require _ _).bind fun _ => (marking_look _).bind fun _ =>
    (marking_require _ _).bind fun _ => (marking_note fun _ => by exact ⟨rfl, rfl, rfl⟩).bind fun _ =>
      marking_offset.bind fun _ => (marking_read Scan.marking_documentType Scan.steady_documentType).bind fun _ =>
        marking_last.bind fun _ => marking_emitBounded _ _

theorem marking_declared : Marking outside declared :=
  marking_next.bind fun _ =>
    .ite ((marking_skip _).bind fun _ => (marking_require _ _).bind fun _ => marking_comment)
      (.ite
        ((marking_skipAll _).bind fun _ => (marking_require _ _).bind fun _ => (marking_look _).bind fun _ =>
          (marking_require _ _).bind fun _ => marking_characterSection)
        (.ite ((marking_skipAll _).bind fun _ => (marking_require _ _).bind fun _ => marking_documentType)
          (markingTo_fail _)))

theorem not_isUndecodable_of_reconcile {mark : ByteOrderMark} {e : Encoding} {label : String} {cause : EncodingFault}
    (hError : reconcile mark e label = .error cause) : ¬(Fault.encoding cause).IsUndecodable := by
  unfold reconcile at hError
  repeat' split at hError
  all_goals cases hError
  all_goals exact id

theorem not_isUndecodable_of_checkSize {e : Encoding} {stop : Nat} {namespaces : Bool} {cause : EncodingFault}
    (hError : checkSize e stop namespaces = .error cause) : ¬(Fault.encoding cause).IsUndecodable := by
  unfold checkSize at hError
  split at hError <;> cases hError
  exact id

/-- A declared encoding takes over from one that reads ASCII in the same way, so the quote before stays what it is. -/
theorem marks_declareEncoding {label : String} {c : Cursor} {value : Chars} {quote : CodePoint}
    (hTrailed : s.Trailed True) (hPlaced : c.Placed) (hReads : c.Reads (value ++ [quote]))
    (hQuote : quote = CodePoint.doubleQuote ∨ quote = CodePoint.singleQuote)
    (hAscii : IsAscii value) (hCursor : s.cursor = c.advance (value ++ [quote])) :
    Marks (fun _ s' => True ∧ s'.Trailed True) (declareEncoding label s) := by
  have hAll : IsAscii (value ++ [quote]) := isAscii_append.mpr ⟨hAscii, isAscii_quote hQuote⟩
  cases hResult : declareEncoding label s with
  | ok u s' =>
    obtain ⟨e, hReconcile, rfl⟩ := declareEncoding_eq_ok hResult
    have hAgrees : c.encoding.Agrees e := by
      have hEncoding := agrees_of_reconcile hReconcile
      rwa [hCursor, Cursor.encoding_advance] at hEncoding
    have hPlaced' : (c.recode e).Placed := ⟨hPlaced.start_le, hAgrees.unitSize_eq ▸ hPlaced.aligned⟩
    have hTrail : (s.cursor.recode e).Trailed := by
      rw [hCursor, ← Cursor.advance_recode hAgrees hAll]
      exact hPlaced'.trailed_append ((Cursor.reads_recode_iff hAgrees hAll).mpr hReads)
    exact ⟨trivial, hTrail, Lexer.hasNames_of_nil (hTrailed.closed trivial), hTrailed.plain, hTrailed.closed⟩
  | error fault s' =>
    intro hUndecodable
    have hMark : look (·.mark) s = .ok s.mark s := rfl
    have hEncoding : read Scan.encoding s = .ok s.cursor.encoding s := rfl
    have hStop : look (·.cursor.stop) s = .ok s.cursor.stop s := rfl
    have hNamespaces : look (·.namespaces) s = .ok s.namespaces s := rfl
    rw [declareEncoding, bind_of_ok hMark, bind_of_ok hEncoding] at hResult
    cases hReconcile : reconcile s.mark s.cursor.encoding label with
    | error cause =>
      rw [hReconcile] at hResult
      cases hResult
      exact absurd hUndecodable (not_isUndecodable_of_reconcile hReconcile)
    | ok e =>
      rw [hReconcile] at hResult
      simp only at hResult
      split at hResult
      · cases hResult
      · rw [bind_of_ok hStop, bind_of_ok hNamespaces] at hResult
        cases hSize : checkSize e s.cursor.stop s.namespaces with
        | error cause =>
          rw [hSize] at hResult
          cases hResult
          exact absurd hUndecodable (not_isUndecodable_of_checkSize hSize)
        | ok =>
          rw [hSize] at hResult
          cases hResult

theorem marking_openValue : Marking outside (read Scan.openValue) :=
  marking_read Scan.marking_openValue Scan.steady_openValue

theorem marking_closeValue (quote : CodePoint) : Marking outside (read (Scan.closeValue quote)) :=
  marking_read (Scan.marking_closeValue _) (Scan.steady_closeValue _)

theorem marking_versionDeclaration (ch : CodePoint) : Marking outside (versionDeclaration ch) :=
  marking_last.bind fun _ => (marking_require _ _).bind fun _ => (marking_skipAll _).bind fun _ =>
    (marking_require _ _).bind fun _ => (marking_emitUnits _ _ _).bind fun _ => marking_openValue.bind fun _ =>
      marking_offset.bind fun _ => (marking_read Scan.marking_version Scan.steady_version).bind fun _ =>
        (marking_require _ _).bind fun _ => (marking_emitUnits _ _ _).bind fun _ => marking_closeValue _

theorem marking_encodingDeclaration : Marking True encodingDeclaration := by
  refine marking_last.bind fun place => (marking_skipAll _).bind fun _ => (marking_require _ _).bind fun _ =>
    (marking_emitUnits _ _ _).bind fun _ => ?_
  intro s hTrailed
  refine (marking_openValue s hTrailed).bind fun quote s₁ hOpen hLater₁ => ?_
  obtain ⟨-, -, -, -, -, hQuote, -⟩ := read_openValue_eq_ok_iff.mp hOpen
  refine (marking_offset s₁ hLater₁.2).bind fun start s₂ hOffset hLater₂ => ?_
  have hLabelled := marking_read (Scan.marking_label quote) (Scan.steady_label quote) s₂ hLater₂.2
  refine hLabelled.bind fun label s₃ hLabel hLater₃ => ?_
  obtain ⟨value, hReads, hAllowed, -, -, rfl⟩ := (read_label_eq_ok_iff hQuote).mp hLabel
  have hAscii : IsAscii value := fun ch hch => EncodingLabel.lt_of_isAllowed (hAllowed ch hch)
  refine (marking_last _ hLater₃.2).bind fun stop s₄ hLast hLater₄ => ?_
  obtain ⟨-, rfl⟩ := read_last_eq_ok_iff.mp hLast
  refine (marking_emit _ _ _ hLater₄.2).bind fun _ s₅ hEmit hLater₅ => ?_
  obtain rfl := emit_eq_ok_iff.mp hEmit
  exact marks_declareEncoding hLater₅.2 hLater₂.2.cursor.placed hReads hQuote hAscii rfl

theorem marking_standaloneDeclaration : Marking outside standaloneDeclaration :=
  marking_last.bind fun _ => (marking_skipAll _).bind fun _ => (marking_require _ _).bind fun _ =>
    (marking_emitUnits _ _ _).bind fun _ => marking_openValue.bind fun _ => marking_offset.bind fun _ =>
      (marking_read Scan.marking_standaloneAnswer Scan.steady_standaloneAnswer).bind fun _ =>
        (marking_emitUnits _ _ _).bind fun _ => marking_closeValue _

theorem marking_nextSpaced : Marking outside (read Scan.nextSpaced) :=
  marking_read Scan.marking_nextSpaced Scan.steady_nextSpaced

theorem marking_optionalEncoding : Marking True optionalEncoding :=
  marking_nextSpaced.bind fun _ =>
    .ite (marking_encodingDeclaration.bind fun _ => marking_nextSpaced) (marking_pure _)

theorem marking_optionalDeclarations : Marking True optionalDeclarations :=
  marking_optionalEncoding.bind fun _ =>
    .ite (marking_standaloneDeclaration.bind fun _ => marking_nextAfterSpace) (marking_pure _)

theorem marking_declaration (ch : CodePoint) : Marking True (declaration ch) :=
  (marking_versionDeclaration _).bind fun _ => marking_optionalDeclarations.bind fun _ =>
    (marking_require _ _).bind fun _ => (marking_skip _).bind fun _ => (marking_require _ _).bind fun _ =>
      marking_nextAfterSpace.bind fun _ => marking_require _ _

def AfterSlash (cursor : Cursor) : Prop :=
  ∃ c : Cursor, c.Placed ∧ c.Reads [CodePoint.slash] ∧ cursor = c.advance [CodePoint.slash]

theorem afterSlash_of_skip (hTrailed : s.Trailed outside) (hSkip : read (Scan.skip CodePoint.slash) s = .ok true s') :
    AfterSlash s'.cursor := by
  obtain ⟨hReads, rfl⟩ := read_skip_eq_ok_true_iff.mp hSkip
  exact ⟨s.cursor, hTrailed.cursor.placed, hReads, rfl⟩

/-- After the name of the element the cursor still remembers the slash. -/
theorem marks_endTag (hTrailed : s.Trailed False) (hSlash : AfterSlash s.cursor) :
    Marks (fun phase s' => phase ≠ .start ∧ s'.Trailed False) (endTag s) := by
  have hOffset : read Scan.offset s = .ok s.cursor.offset s := rfl
  have hTags : look (·.openTags) s = .ok s.openTags s := rfl
  unfold endTag
  rw [bind_of_ok hOffset, bind_of_ok hTags]
  cases hOpen : s.openTags with
  | nil => exact markingTo_throw id s hTrailed
  | cons tag rest =>
    obtain ⟨name, hName, hCovers⟩ := hTrailed.names tag (hOpen ▸ List.mem_cons_self)
    have hRest : rest ⊆ s.openTags := hOpen ▸ List.subset_cons_self _ _
    -- Comparing the name moves the cursor, but changes not what it remembers.
    have hCompared : Marks (fun found s' => found = true → s'.cursor.Trailed ∧ s.cursor.SameSource s'.cursor ∧
        s'.openTags = s.openTags ∧ s'.namespaces = s.namespaces) (read (Scan.skipAgain tag.offset tag.length) s) := by
      cases hResult : read (Scan.skipAgain tag.offset tag.length) s with
      | ok found s' =>
        rintro rfl
        obtain ⟨c', hAgain, rfl⟩ := read_eq_ok_iff.mp hResult
        obtain ⟨hReads, -, rfl⟩ := (Scan.skipAgain_eq_ok_true_iff hCovers).mp hAgain
        obtain ⟨c, hPlaced, hFirst, hCursor⟩ := hSlash
        have hBoth : c.Reads (CodePoint.slash :: name) := Cursor.reads_cons.mpr ⟨hFirst, hCursor ▸ hReads⟩
        refine ⟨hPlaced.trailed_endTag hName hBoth ?_ ?_, ⟨⟨rfl, rfl, rfl⟩, rfl⟩, rfl, rfl⟩
        · rw [hCursor]
        · rw [hCursor, Cursor.encoding_advance]
      | error fault s' =>
        intro hUndecodable
        unfold read at hResult
        split at hResult <;> cases hResult
        exact absurd hUndecodable (Scan.not_isUndecodable_of_skipAgain ‹_›)
    refine hCompared.bind fun found s₁ _ hFound => ?_
    cases found with
    | false => exact fun hUndecodable => hUndecodable.elim
    | true =>
      obtain ⟨hCursor, hSource, hTags, hNamespaces⟩ := hFound rfl
      have hClosed : Lexer.Trailed False { s₁ with openTags := rest } :=
        ⟨hCursor, hTrailed.names.later hSource hRest, hNamespaces.trans hTrailed.plain, False.elim⟩
      refine (marking_nextAfterSpace.bind fun _ => (marking_require _ _).bind fun _ => ?_) _ hClosed
      exact .ite (stepping_pure nofun) stepping_afterMarkup

theorem keeps_cursor_emitSpace {c : Cursor} (place stop : Nat) :
    Keeps (fun s => s.cursor = c) (emitSpace place stop) :=
  (keeps_look _).bind fun _ => .ite (keeps_update fun _ hCursor => hCursor) (keeps_pure _)

theorem stepping_content (opened : Bool) : Stepping (content opened) := by
  refine marking_offset.bind fun place => marking_nextAfterSpace.bind fun ch =>
    .ite (marking_last.bind fun stop => ?_) (stepping_text _ _)
  intro s hTrailed
  refine (marking_skip _ s hTrailed).bind fun found s₁ hSkip hLater => ?_
  have hMarkup : Stepping (do emitSpace place stop; return .markup) :=
    (marking_emitSpace _ _).bind fun _ => stepping_pure nofun
  cases found with
  | false => exact hMarkup s₁ hLater.2
  | true =>
    have hSlash := afterSlash_of_skip hTrailed hSkip
    cases opened with
    | true =>
      refine (marking_emitText _ _ s₁ hLater.2).bind fun _ s₂ hEmit hLater₂ => marks_endTag hLater₂.2 ?_
      obtain rfl := update_eq_ok_iff.mp hEmit
      exact hSlash
    | false =>
      refine (marking_emitSpace _ _ s₁ hLater.2).bind fun _ s₂ hEmit hLater₂ => marks_endTag hLater₂.2 ?_
      rw [keeps_cursor_emitSpace _ _ s₁ _ s₂ rfl hEmit]
      exact hSlash

theorem marking_closeScope : Marking outside closeScope := by
  intro s hTrailed
  rw [closeScope_of_off hTrailed.plain]
  exact ⟨trivial, hTrailed⟩

theorem stepping_closeTag (ch : CodePoint) (opened : Bool) : Stepping (closeTag ch opened) :=
  (marking_require _ _).bind fun _ => marking_closeScope.bind fun _ => (marking_look _).bind fun _ =>
    .ite (stepping_pure nofun) (stepping_content _)

theorem stepping_tagEnd (ch : CodePoint) : Stepping (tagEnd ch) :=
  .ite
    ((marking_update fun _ => by exact ⟨rfl, List.tail_subset _, rfl⟩).bind fun _ => marking_next.bind fun _ =>
      stepping_closeTag _ _)
    (stepping_closeTag _ _)

theorem stepping_tagRest (ch : CodePoint) : Stepping (tagRest ch) :=
  (marking_read (Scan.marking_skipSpace _) (Scan.steady_skipSpace _)).bind fun _ =>
    .ite (marking_last.bind fun _ => stepping_pure nofun) (stepping_tagEnd _)

theorem marking_checkElementPrefix (name : Name) : Marking outside (checkElementPrefix name) := by
  intro s hTrailed
  rw [checkElementPrefix_of_off hTrailed.plain]
  exact ⟨trivial, hTrailed⟩

theorem marking_enterScope (name : Name) : Marking outside (enterScope name) := by
  intro s hTrailed
  rw [enterScope_of_off hTrailed.plain]
  exact ⟨trivial, hTrailed⟩

/-- An element is opened under the name that has been read. -/
theorem marks_openElement {name : Name} {text : Chars} (hTrailed : s.Trailed False) (hName : IsName text)
    (hCovers : s.cursor.Covers name.span text) :
    Marks (fun _ s' => True ∧ s'.Trailed False) (openElement name s) := by
  refine (marking_look _ s hTrailed).bind fun depth s₁ hLook hLater => ?_
  obtain ⟨-, rfl⟩ := look_eq_ok_iff.mp hLook
  refine (marking_requireAt _ _ _ s₁ hTrailed).bind fun _ s₂ hRequire _ => ?_
  obtain ⟨-, rfl⟩ := requireAt_eq_ok_iff.mp hRequire
  have hNames : ∀ tag ∈ name.span :: s₂.openTags, ∃ name, IsName name ∧ s₂.cursor.Covers tag name :=
    List.forall_mem_cons.mpr ⟨⟨text, hName, hCovers⟩, hTrailed.names⟩
  exact ⟨trivial, hTrailed.cursor, hNames, hTrailed.plain, False.elim⟩

theorem marks_startTag {c : Cursor} {first : CodePoint} (hTrailed : s.Trailed False) (hReads : c.Reads [first])
    (hFirst : CodePoint.isNameStart first = true) (hCursor : s.cursor = c.advance [first]) :
    Marks (fun phase s' => phase ≠ .start ∧ s'.Trailed False) (startTag c.offset s) := by
  have hRest := marking_read (Scan.marking_nameRest c.offset) (Scan.steady_nameRest c.offset) s hTrailed
  refine hRest.bind fun found s₁ hRead hLater₁ => ?_
  obtain ⟨ch, name⟩ := found
  obtain ⟨c₁, hNameRest, rfl⟩ := read_eq_ok_iff.mp hRead
  rw [hCursor] at hNameRest
  obtain ⟨text, hText, hName, -, rfl, rfl⟩ := (Scan.nameRest_eq_ok_iff hReads hFirst).mp hNameRest
  have hCovers : (c.advance (text ++ [ch])).Covers (Scan.nameAt c.encoding c.offset text).span text :=
    (Scan.covers_nameAt (Cursor.reads_append.mp hText).1).congr (by simp) (by simp) (by simp)
  refine (marking_checkElementPrefix _ _ hLater₁.2).bind fun _ s₂ hCheck hLater₂ => ?_
  obtain rfl := eq_of_checkElementPrefix hCheck
  refine (marks_openElement hLater₁.2 hName hCovers).bind fun _ s₃ _ hLater₃ => ?_
  exact ((marking_emitElement _).bind fun _ => (marking_enterScope _).bind fun _ => stepping_tagRest _) s₃ hLater₃.2

theorem marking_settleRole (role : AttributeRole) (name : Name) : Marking outside (settleRole role name) := by
  intro s hTrailed
  rw [settleRole_of_off hTrailed.plain]
  exact ⟨trivial, hTrailed⟩

theorem marking_addAttribute (name : Name) : Marking outside (addAttribute name) :=
  (marking_look _).bind fun _ => (marking_requireAt _ _ _).bind fun _ => marking_note fun _ => ⟨rfl, rfl, rfl⟩

theorem marking_noteAttribute (role : AttributeRole) (name : Name) : Marking outside (noteAttribute role name) := by
  intro s hTrailed
  rw [noteAttribute_of_off hTrailed.plain]
  exact ⟨trivial, hTrailed⟩

theorem marking_bindValue (role : AttributeRole) (value : Span) : Marking outside (bindValue role value) := by
  intro s hTrailed
  rw [bindValue_of_off hTrailed.plain]
  exact ⟨trivial, hTrailed⟩

theorem marking_attributeValue (ch : CodePoint) : Marking outside (attributeValue ch) :=
  (marking_read (Scan.marking_openAttribute _) (Scan.steady_openAttribute _)).bind fun _ => marking_offset.bind fun _ =>
    (marking_read (Scan.marking_attributeValue _) (Scan.steady_attributeValue _)).bind fun _ =>
      marking_last.bind fun _ => marking_pure _

theorem stepping_readAttribute (place : Nat) (first : CodePoint) : Stepping (readAttribute place first) :=
  (marking_read (Scan.marking_attributeRole _) (Scan.steady_attributeRole _)).bind fun _ =>
    (marking_read (Scan.marking_nameFrom _ _) (Scan.steady_nameFrom _ _)).bind fun _ =>
      (marking_settleRole _ _).bind fun _ => (marking_addAttribute _).bind fun _ => (marking_emitName _ _).bind fun _ =>
        (marking_noteAttribute _ _).bind fun _ => (marking_attributeValue _).bind fun _ =>
          (marking_bindValue _ _).bind fun _ => (marking_emitBounded _ _).bind fun _ => marking_next.bind fun _ =>
            stepping_tagRest _

theorem stepping_markup : Stepping markup := by
  intro s hTrailed
  refine (marking_offset s hTrailed).bind fun place s₁ hOffset hLater₁ => ?_
  obtain ⟨rfl, rfl⟩ := read_offset_eq_ok_iff.mp hOffset
  refine (marking_next s₁ hTrailed).bind fun ch s₂ hNext hLater₂ => ?_
  obtain ⟨hReads, rfl⟩ := read_next_eq_ok_iff.mp hNext
  split
  · exact marks_startTag hLater₂.2 hReads ‹_› rfl
  · split
    · obtain rfl : ch = CodePoint.slash := ‹_›
      exact marks_endTag hLater₂.2 ⟨s₁.cursor, hTrailed.cursor.placed, hReads, rfl⟩
    · refine MarkingTo.ite ?_ (.ite ?_ ?_) _ hLater₂.2
      · exact marking_instruction.bind fun _ => stepping_resume
      · exact marking_declared.bind fun _ => stepping_resume
      · exact markingTo_fail _

theorem markingTo_epilog : MarkingTo False (fun next => ∀ phase ∈ next, phase ≠ .start) epilog := by
  refine marking_nextAfterSpace?.bind fun found => ?_
  cases found with
  | none => exact markingTo_pure nofun
  | some ch =>
    have hEpilog : MarkingTo False (fun next : Option Phase => ∀ phase ∈ next, phase ≠ .start)
        (pure (some Phase.epilog)) :=
      markingTo_pure (by rintro _ ⟨⟩; nofun)
    refine (marking_require _ _).bind fun _ => (marking_read Scan.marking_tail Scan.steady_tail).bind fun tail => ?_
    cases tail with
    | comment => exact marking_comment.bind fun _ => hEpilog
    | instruction => exact marking_instruction.bind fun _ => hEpilog

theorem markingTo_step {phase : Phase} (hPhase : phase ≠ .start) :
    MarkingTo False (fun next => ∀ phase ∈ next, phase ≠ .start) (step phase) := by
  have hSome (phase : Phase) (hPhase : phase ≠ .start) : ∀ next ∈ some phase, next ≠ .start := by
    rintro _ ⟨⟩
    exact hPhase
  cases phase with
  | start => exact absurd rfl hPhase
  | markup => exact stepping_markup.map hSome
  | attributes place first => exact (stepping_readAttribute _ _).map hSome
  | epilog => exact markingTo_epilog

/-- Phase by phase the lexer leaves a trail, up to a character that does not decode. -/
theorem stuck_of_run {phase : Phase} {fault : Fault} (hPhase : phase ≠ .start) (hTrailed : s.Trailed False)
    (hError : run phase s = .error fault s') (hUndecodable : fault.IsUndecodable) : s'.Stuck fault := by
  have hStep := markingTo_step hPhase s hTrailed
  fun_induction run phase s with
  | case1 phase s s₁ hDone => cases hError
  | case2 phase s phase₁ s₁ hNext ih =>
    rw [hNext] at hStep
    obtain ⟨hPhases, hLater⟩ := hStep
    exact ih (hPhases phase₁ rfl) hLater hError (markingTo_step (hPhases phase₁ rfl) s₁ hLater)
  | case3 phase s fault' s₁ hFails =>
    rw [hFails] at hStep
    cases hError
    exact hStep hUndecodable

/-- What is read after a `<` does not depend on where that began, as long as there is another character. -/
theorem run_lastAt {place : Nat} {ch : CodePoint} (hReads : s.cursor.Reads [ch]) :
    run .markup (s.lastAt place) = run .markup s := by
  have hNext : read Scan.next s = .ok ch (s.past [ch]) := read_next_eq_ok_iff.mpr ⟨hReads, rfl⟩
  have hNext' : read Scan.next (s.lastAt place) = .ok ch (s.past [ch]) :=
    read_next_eq_ok_iff.mpr ⟨Lexer.reads_lastAt.mpr hReads, rfl⟩
  have hOffset (t : Lexer) : read Scan.offset t = .ok t.cursor.offset t := rfl
  have hMarkup : markup (s.lastAt place) = markup s := by
    unfold markup
    rw [bind_of_ok (hOffset s), bind_of_ok (hOffset (s.lastAt place)), bind_of_ok hNext, bind_of_ok hNext']
    rfl
  have hStep : step .markup (s.lastAt place) = step .markup s := by
    change EStateM.map some markup _ = EStateM.map some markup _
    unfold EStateM.map
    rw [hMarkup]
  rw [run_eq, run_eq]
  change EStateM.bind _ _ _ = EStateM.bind _ _ _
  unfold EStateM.bind
  rw [hStep]

theorem exists_reads_of_opensDeclaration {c c' : Cursor} {opens : Bool}
    (hOk : Scan.opensDeclaration c = .ok opens c') : ∃ ch, c.Reads [ch] := by
  simp only [Scan.opensDeclaration, Scan.skipEach, Scan.skipAny, Scan.bind_eq_ok_iff] at hOk
  obtain ⟨_, _, ⟨_, _, ⟨found, _, hSkip, -⟩, -⟩, -⟩ := hOk
  cases found with
  | true => exact ⟨_, (Scan.skip_eq_ok_true_iff.mp hSkip).1⟩
  | false =>
    obtain ⟨ch, -, hReads, -⟩ := Scan.skip_eq_ok_false_iff.mp hSkip
    exact ⟨ch, hReads⟩

/-- Looking for a declaration that is not there takes back all but the memory of the last character. -/
theorem marks_opensDeclaration (hTrailed : s.Trailed True) :
    Marks (fun opens s' => if opens then s'.Trailed True else ∃ place ch, s.cursor.Reads [ch] ∧ s' = s.lastAt place)
      (read (Scan.orRewind Scan.opensDeclaration) s) := by
  have hCursor := Scan.marking_opensDeclaration s.cursor hTrailed.cursor
  unfold read Scan.orRewind
  cases hOpens : Scan.opensDeclaration s.cursor with
  | ok opens c' =>
    rw [hOpens] at hCursor
    cases opens with
    | true => exact hTrailed.moved (moved_of_ok Scan.steady_opensDeclaration _ _ _ hOpens) hCursor
    | false =>
      obtain ⟨ch, hReads⟩ := exists_reads_of_opensDeclaration hOpens
      obtain ⟨text, rfl⟩ := Scan.exists_advance_of_opensDeclaration hOpens
      refine ⟨(s.cursor.advance text).last, ch, hReads, ?_⟩
      simp [Lexer.lastAt]
  | error fault c' =>
    rw [hOpens] at hCursor
    exact fun hUndecodable => ⟨hCursor.1, hCursor.2 hUndecodable⟩

def AfterStart (phase : Phase) (s : Lexer) : Prop :=
  ∃ t : Lexer, t.Trailed False ∧ run phase s = run .markup t

theorem marks_start (hTrailed : s.Trailed True) : Marks AfterStart (start s) := by
  have hMarkup {t : Lexer} (hLater : t.Trailed True) : Marks AfterStart ((pure .markup : Lex Phase) t) :=
    ⟨t, hLater.inside, rfl⟩
  refine (marking_next s hTrailed).bind fun ch s₁ _ hLater₁ => ?_
  split
  · refine (marks_opensDeclaration hLater₁.2).bind fun opens s₂ _ hOpens => ?_
    cases opens with
    | true =>
      refine (marking_nextAfterSpace s₂ hOpens).bind fun first s₃ _ hLater₃ => ?_
      exact (marking_declaration first s₃ hLater₃.2).bind fun _ s₄ _ hLater₄ => hMarkup hLater₄.2
    | false =>
      obtain ⟨place, ch, hReads, rfl⟩ := hOpens
      exact ⟨s₁, hLater₁.2.inside, run_lastAt hReads⟩
  · refine (marking_require _ _ s₁ hLater₁.2).bind fun _ s₂ _ hLater₂ => ?_
    refine (marking_nextAfterSpace s₂ hLater₂.2).bind fun next s₃ _ hLater₃ => ?_
    exact (marking_require _ _ s₃ hLater₃.2).bind fun _ s₄ _ hLater₄ => hMarkup hLater₄.2

/-- A run from the start that ends for a character that does not decode ends before that character. -/
theorem stuck_of_run_start {fault : Fault} (hTrailed : s.Trailed True) (hError : run .start s = .error fault s')
    (hUndecodable : fault.IsUndecodable) : s'.Stuck fault := by
  have hStart := marks_start hTrailed
  rw [show run .start s = (start >>= run) s from run_of_step rfl] at hError
  cases hResult : start s with
  | ok phase s₁ =>
    rw [hResult] at hStart
    obtain ⟨t, hLater, hSame⟩ := hStart
    rw [bind_of_ok hResult, hSame] at hError
    have hMarkup : Phase.markup ≠ .start := nofun
    exact stuck_of_run hMarkup hLater hError hUndecodable
  | error fault' s₁ =>
    rw [hResult] at hStart
    rw [Lex.bind_of_error hResult] at hError
    cases hError
    exact hStart hUndecodable

end Lex
end XmlIndex
