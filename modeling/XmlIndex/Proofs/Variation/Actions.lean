import XmlIndex.Proofs.Variation.Lexers

/-! # Reading text and markup under two settings

All that is read between the tags is read alike. Space between markup is written by the second lexer alone,
if that is in what it differs, and then every token of it is blank.
-/
namespace XmlIndex
set_option autoImplicit false
open Grammar XmlIndex.Lex

namespace Cursor
variable {c : Cursor} {place stop : Nat}

def Spacing (c : Cursor) (place stop : Nat) : Prop :=
  ∃ run, IsSpace run ∧ c.ReadsAt place (run ++ [CodePoint.lessThan]) ∧
    (c.encoding.unitSize ∣ c.start → c.encoding.unitSize ∣ place) ∧ stop = place + c.encoding.size run

/-- A piece of the run is a stretch of it, for each character of it takes one unit. -/
theorem Spacing.blank {depth : Int} {t : Token} (hSpacing : c.Spacing place stop) (hSome : place < stop)
    (ht : t ∈ pieces c.encoding .characterData depth place (stop - place)) : c.Blank t := by
  obtain ⟨run, hSpace, hReads, hAligned, rfl⟩ := hSpacing
  have hSize {text : Chars} (hText : IsSpace text) : c.encoding.size text = text.length * c.encoding.unitSize :=
    Encoding.size_of_ascii (isAscii_of_isSpace hText)
  have hUnit : 0 < c.encoding.unitSize := c.encoding.unitSize_pos
  have hUnits {text : Chars} (hText : IsSpace text) : c.encoding.size text / c.encoding.unitSize = text.length := by
    rw [hSize hText, Nat.mul_div_cancel _ hUnit]
  have hNonempty : run ≠ [] := by
    rintro rfl
    exact absurd hSome (Nat.lt_irrefl _)
  obtain ⟨i, hi, rfl⟩ := mem_pieces.mp ht
  rw [Nat.add_sub_cancel_left, hUnits hSpace] at hi
  have hInside : i * Token.maxLength < run.length := by
    have hPos := List.length_pos_iff.mpr hNonempty
    have hBefore := Nat.le_trans (Nat.mul_le_mul_right Token.maxLength hi) (Nat.div_mul_le_self _ _)
    omega
  let before := run.take (i * Token.maxLength)
  let piece := (run.drop (i * Token.maxLength)).take Token.maxLength
  let after := (run.drop (i * Token.maxLength)).drop Token.maxLength
  have hRun : before ++ (piece ++ after) = run := by
    rw [List.take_append_drop, List.take_append_drop]
  have hAll : IsSpace (before ++ (piece ++ after)) := hRun.symm ▸ hSpace
  have hBefore : before.length = i * Token.maxLength := List.length_take_of_le (Nat.le_of_lt hInside)
  have hPiece : piece.length = min Token.maxLength (run.length - i * Token.maxLength) := by
    rw [List.length_take, List.length_drop]
  have hParts := List.forall_mem_append.mp hAll
  refine ⟨place, before, piece, after, hAll, ?_, ?_, hAligned, rfl, ?_, ?_⟩
  · refine List.ne_nil_of_length_pos ?_
    have hMax : 0 < Token.maxLength := by decide
    omega
  · rw [← List.append_assoc piece, ← List.append_assoc before, hRun]
    exact hReads
  · rw [hSize hParts.1, Nat.add_mul_div_right _ _ hUnit, hBefore]
    rfl
  · rw [hUnits (List.forall_mem_append.mp hParts.2).1, hPiece, pieceAt, Nat.add_sub_cancel_left, hUnits hSpace]

end Cursor

namespace Variation
variable {v : Variation} {frame : Option Cursor} {c : Cursor} {s t : Lexer}

theorem Lexers.moves (hLexers : v.Lexers (some c) s t) : c.Moved s.cursor :=
  hLexers.framed c rfl

/-- What is read at the place of the first lexer is read there by the frame. -/
theorem Lexers.readsAt (hLexers : v.Lexers (some c) s t) {text : Chars} {place : Nat}
    (hReads : s.cursor.ReadsAt place text) : c.ReadsAt place text :=
  have hMoved := hLexers.moves
  (Cursor.readsAt_congr hMoved.doc_eq.symm hMoved.stop_eq.symm hMoved.encoding_eq.symm).mpr hReads

theorem Lexers.spacing {s' : Lexer} (hLexers : v.Lexers (some c) s t)
    (hRead : read Scan.nextAfterSpace s = .ok CodePoint.lessThan s') :
    c.Spacing s.cursor.offset s'.cursor.last := by
  obtain ⟨run, hReads, hSpace, -, rfl⟩ := read_nextAfterSpace_eq_ok_iff.mp hRead
  have hMoved := hLexers.moves
  refine ⟨run, hSpace, hLexers.readsAt hReads, fun hUnit => ?_, ?_⟩
  · rw [← hMoved.encoding_eq] at hUnit ⊢
    rw [← hMoved.start_eq] at hUnit
    exact hLexers.aligned hUnit
  · rw [Lexer.cursor_past, Cursor.last_advance_append, hMoved.encoding_eq]

theorem tracks_emitSpace {place stop : Nat} (hSpacing : c.Spacing place stop) :
    v.Tracks (some c) (emitSpace place stop) := by
  by_cases hSpace : v = .whitespace
  · intro s t hLexers
    obtain ⟨hUnrecorded, -, hSpaced⟩ := hLexers.spaced hSpace
    have hShort : emitSpace place stop s = .ok () s := emitSpace_eq_ok_iff.mpr (by simp [hUnrecorded])
    have hLong : emitSpace place stop t = .ok () _ := emitSpace_eq_ok_iff.mpr rfl
    rw [hShort, hLong]
    refine ⟨rfl, ?_⟩
    split
    · rename_i hWanted
      rw [Bool.and_eq_true, decide_eq_true_eq] at hWanted
      have hEncoding : t.cursor.encoding = c.encoding := hLexers.encoding_eq.trans hLexers.moves.encoding_eq
      refine { hLexers with
        draft_eq := fun h => absurd hSpace h
        spaced := fun _ => (hLexers.spaced hSpace).imp_right fun h => h.imp_right fun hAll d hd => ?_
        begins := nofun }
      have hBlank : ∀ u ∈ pieces t.cursor.encoding .characterData t.depth place (stop - place), c.Blank u := by
        rw [hEncoding]
        exact fun u hu => hSpacing.blank hWanted.2 hu
      have hBoth := (hSpaced c rfl).append (.of_forall hBlank)
      rw [List.append_nil] at hBoth
      cases hd
      rw [Lexer.tokens_add]
      exact hBoth
    · exact hLexers
  · have hWanted : v.Tracks (some c)
        (look fun s => s.recordWhitespace && !s.openTags.isEmpty && decide (place < stop)) :=
      tracks_look fun s t hLexers => by rw [(hLexers.draft_eq hSpace).1, hLexers.openTags_eq]
    exact hWanted.bind fun _ => .ite (tracks_emitText _ _) (tracks_pure _)

/-- A phase after the start; the first character of an attribute has been read at its place. -/
def Ready (s : Lexer) : Phase → Prop
  | .start => False
  | .attributes place first => ∃ s₀ : Lexer, s = s₀.past [first] ∧ s₀.cursor.offset = place ∧
      s₀.cursor.Reads [first] ∧ CodePoint.isNameStart first = true
  | .markup | .epilog => True

abbrev Steps (v : Variation) (c : Cursor) (action : Lex Phase) : Prop :=
  v.Follows (some c) (fun phase s t => v.Lexers (some c) s t ∧ Ready s phase) action

theorem steps_pure {phase : Phase} (hReady : ∀ s, Ready s phase) : v.Steps c (pure phase) :=
  fun s _ hLexers => ⟨rfl, hLexers, hReady s⟩

theorem steps_markup : v.Steps c (pure .markup) :=
  steps_pure fun _ => trivial

theorem steps_epilog : v.Steps c (pure .epilog) :=
  steps_pure fun _ => trivial

theorem steps_text (place : Nat) (ch : CodePoint) : v.Steps c (text place ch) :=
  (tracks_read (Scan.steady_text ch)).bind fun _ => tracks_last.bind fun _ =>
    (tracks_emitText _ _).bind fun _ => steps_markup

theorem steps_afterMarkup : v.Steps c afterMarkup := by
  intro s t hLexers
  refine tracks_offset.bind_ok hLexers fun place s₁ t₁ hOffset hLexers₁ => ?_
  obtain ⟨rfl, rfl⟩ := read_offset_eq_ok_iff.mp hOffset
  refine tracks_nextAfterSpace.bind_ok hLexers₁ fun ch s₂ t₂ hRead hLexers₂ => ?_
  split
  · rename_i hMarkup
    subst hMarkup
    refine tracks_last.bind_ok hLexers₂ fun stop s₃ t₃ hLast hLexers₃ => ?_
    obtain ⟨rfl, rfl⟩ := read_last_eq_ok_iff.mp hLast
    exact ((tracks_emitSpace (hLexers₁.spacing hRead)).bind fun _ => steps_markup) _ _ hLexers₃
  · exact steps_text _ ch _ _ hLexers₂

theorem steps_betweenMarkup : v.Steps c betweenMarkup :=
  tracks_nextAfterSpace.bind fun _ => (tracks_require _ _).bind fun _ => steps_markup

theorem steps_resume : v.Steps c resume :=
  tracks_outsideRoot.bind fun _ => .ite steps_betweenMarkup steps_afterMarkup

section

theorem tracks_before (place count : Nat) : v.Tracks frame (before place count) :=
  tracks_offset.bind fun _ => tracks_unitSize.bind fun _ => tracks_pure _

theorem tracks_comment : v.Tracks frame comment :=
  tracks_offset.bind fun _ => (tracks_read Scan.steady_comment).bind fun _ =>
    (tracks_before _ 3).bind fun _ => tracks_emitText _ _

theorem tracks_characterSection : v.Tracks frame characterSection :=
  tracks_offset.bind fun _ => (tracks_read Scan.steady_characterSection).bind fun _ =>
    (tracks_before _ 3).bind fun _ => tracks_emitText _ _

theorem tracks_instructionData : v.Tracks frame instructionData :=
  tracks_offset.bind fun _ => (tracks_read Scan.steady_instructionData).bind fun _ =>
    (tracks_before _ 2).bind fun _ => tracks_emitBounded _ _

theorem tracks_instruction : v.Tracks frame instruction :=
  tracks_offset.bind fun _ => (tracks_read Scan.steady_instructionTarget).bind fun _ => tracks_last.bind fun _ =>
    (tracks_emitBounded _ _).bind fun _ =>
      .ite ((tracks_skip _).bind fun _ => (tracks_require _ _).bind fun _ => tracks_emit _ _)
        ((tracks_require _ _).bind fun _ => tracks_instructionData)

theorem tracks_documentType : v.Tracks frame documentType := by
  have hKnown : v.Tracks frame (look (·.hasDoctype)) := tracks_look fun _ _ hLexers => hLexers.hasDoctype_eq
  have hUpdate : v.Tracks frame (update ({ · with hasDoctype := true })) :=
    tracks_update fun _ _ hLexers => { hLexers with hasDoctype_eq := rfl }
  exact tracks_outsideRoot.bind fun _ => (tracks_require _ _).bind fun _ => hKnown.bind fun _ =>
    (tracks_require _ _).bind fun _ => hUpdate.bind fun _ => tracks_offset.bind fun _ =>
      (tracks_read Scan.steady_documentType).bind fun _ => tracks_last.bind fun _ => tracks_emitBounded _ _

theorem tracks_declared : v.Tracks frame declared :=
  tracks_next.bind fun _ =>
    .ite ((tracks_skip _).bind fun _ => (tracks_require _ _).bind fun _ => tracks_comment)
      (.ite
        ((tracks_skipAll _).bind fun _ => (tracks_require _ _).bind fun _ => tracks_outsideRoot.bind fun _ =>
          (tracks_require _ _).bind fun _ => tracks_characterSection)
        (.ite ((tracks_skipAll _).bind fun _ => (tracks_require _ _).bind fun _ => tracks_documentType)
          (follows_fail _)))

end

theorem tracks_emitUnits (kind : TokenKind) (place count : Nat) : v.Tracks frame (emitUnits kind place count) :=
  tracks_unitSize.bind fun _ => tracks_emit _ _

theorem tracks_versionDeclaration (ch : CodePoint) : v.Tracks frame (versionDeclaration ch) :=
  tracks_last.bind fun _ => (tracks_require _ _).bind fun _ => (tracks_skipAll _).bind fun _ =>
    (tracks_require _ _).bind fun _ => (tracks_emitUnits _ _ _).bind fun _ =>
      (tracks_read Scan.steady_openValue).bind fun _ => tracks_offset.bind fun _ =>
        (tracks_read Scan.steady_version).bind fun _ => (tracks_require _ _).bind fun _ =>
          (tracks_emitUnits _ _ _).bind fun _ => tracks_read (Scan.steady_closeValue _)

/-- Another encoding with units of the same size leaves nothing to be compared: there are no scopes yet. -/
theorem Lexers.switch {e : Encoding} (hLexers : v.Lexers none s t) (hUnit : e.unitSize = s.cursor.encoding.unitSize) :
    v.Lexers none { s with cursor := { s.cursor with encoding := e } }
      { t with cursor := { t.cursor with encoding := e } } :=
  { hLexers with
    cursors :=
      { hLexers.cursors with
        eq := by
          rw [hLexers.cursors.eq]
          rfl }
    framed := nofun
    aligned := fun hAligned => by
      simp only [hUnit] at hAligned ⊢
      exact hLexers.aligned hAligned
    whole := fun name hName => by
      simp only [hUnit]
      exact hLexers.whole name hName
    fits := fun e' hUnit' => hLexers.fits e' (hUnit'.trans hUnit) }

/-- A declared encoding has units of the same size, so the document fits it under both settings. -/
theorem tracks_declareEncoding (label : String) : v.Tracks none (declareEncoding label) := by
  have hMark : v.Tracks none (look (·.mark)) := tracks_look fun _ _ hLexers => hLexers.mark_eq
  refine hMark.bind fun mark => fun s t hLexers => ?_
  refine (tracks_read Scan.steady_encoding).bind_ok hLexers fun detected s₁ t₁ hEncoding hLexers => ?_
  obtain ⟨_, hDetected, rfl⟩ := read_eq_ok_iff.mp hEncoding
  cases hDetected
  cases hReconcile : reconcile mark s.cursor.encoding label with
  | error cause => exact follows_throw _ _ _ hLexers
  | ok declared =>
    have hUnit : declared.unitSize = s.cursor.encoding.unitSize := (agrees_of_reconcile hReconcile).unitSize_eq
    by_cases hSame : declared = s.cursor.encoding
    · simp only [hSame, if_true]
      exact ⟨trivial, hLexers⟩
    · have hFits := hLexers.fits declared hUnit
      have hShort : checkSize declared s.cursor.stop s.namespaces = .ok () :=
        if_pos (Nat.lt_of_le_of_lt hLexers.cursors.stop_le hFits)
      have hLong : checkSize declared t₁.cursor.stop t₁.namespaces = .ok () := by
        refine if_pos ?_
        by_cases hSetting : v = .namespaces
        · rw [(hLexers.legible hSetting).2.1]
          exact Nat.lt_of_lt_of_le hFits (sizeLimit_le _ _)
        · rw [(hLexers.scopes_eq hSetting).1]
          exact hFits
      simp only [hSame, if_false, bind, EStateM.bind, look, hShort, hLong]
      exact ⟨trivial, hLexers.switch hUnit⟩

theorem tracks_encodingDeclaration : v.Tracks none encodingDeclaration :=
  tracks_last.bind fun _ => (tracks_skipAll _).bind fun _ => (tracks_require _ _).bind fun _ =>
    (tracks_emitUnits _ _ _).bind fun _ => (tracks_read Scan.steady_openValue).bind fun _ =>
      tracks_offset.bind fun _ => (tracks_read (Scan.steady_label _)).bind fun _ => tracks_last.bind fun _ =>
        (tracks_emit _ _).bind fun _ => tracks_declareEncoding _

theorem tracks_standaloneDeclaration : v.Tracks frame standaloneDeclaration :=
  tracks_last.bind fun _ => (tracks_skipAll _).bind fun _ => (tracks_require _ _).bind fun _ =>
    (tracks_emitUnits _ _ _).bind fun _ => (tracks_read Scan.steady_openValue).bind fun _ =>
      tracks_offset.bind fun _ => (tracks_read Scan.steady_standaloneAnswer).bind fun _ =>
        (tracks_emitUnits _ _ _).bind fun _ => tracks_read (Scan.steady_closeValue _)

theorem tracks_nextSpaced : v.Tracks frame (read Scan.nextSpaced) :=
  tracks_read Scan.steady_nextSpaced

theorem tracks_optionalEncoding : v.Tracks none optionalEncoding :=
  tracks_nextSpaced.bind fun _ =>
    .ite (tracks_encodingDeclaration.bind fun _ => tracks_nextSpaced) (tracks_pure _)

theorem tracks_optionalDeclarations : v.Tracks none optionalDeclarations :=
  tracks_optionalEncoding.bind fun _ =>
    .ite (tracks_standaloneDeclaration.bind fun _ => tracks_nextAfterSpace) (tracks_pure _)

theorem tracks_declaration (ch : CodePoint) : v.Tracks none (declaration ch) :=
  (tracks_versionDeclaration ch).bind fun _ => tracks_optionalDeclarations.bind fun _ =>
    (tracks_require _ _).bind fun _ => (tracks_skip _).bind fun _ => (tracks_require _ _).bind fun _ =>
      tracks_nextAfterSpace.bind fun _ => tracks_require _ _

/-- Once the encoding is known for good, the first lexer frames what will be read. -/
theorem Lexers.toFrame (hLexers : v.Lexers none s t) : v.Lexers (some s.cursor) s t :=
  { hLexers with
    framed := by
      rintro _ ⟨⟩
      exact .refl
    legible := fun hSetting => (hLexers.legible hSetting).imp_right fun h => h.imp_right fun _ c _ => by
      rw [(hLexers.begins rfl).1]
      exact Namespace.Scopes.legible_empty
    spaced := fun hSetting => (hLexers.spaced hSetting).imp_right fun h => h.imp_right fun _ c _ => by
      rw [(hLexers.begins rfl).2]
      exact .refl _
    begins := nofun }

/-- Before the first markup the phase after is known. -/
theorem follows_start : v.Follows none (fun phase s t => v.Lexers none s t ∧ phase = Phase.markup) start := by
  have hMarkup : v.Follows none (fun phase s t => v.Lexers none s t ∧ phase = Phase.markup) (pure .markup) :=
    fun _ _ hLexers => ⟨rfl, hLexers, rfl⟩
  exact tracks_next.bind fun _ =>
    .ite
      ((tracks_read (Scan.steady_opensDeclaration.orRewind)).bind fun _ =>
        .ite (tracks_nextAfterSpace.bind fun first => (tracks_declaration first).bind fun _ => hMarkup) hMarkup)
      ((tracks_require _ _).bind fun _ => tracks_nextAfterSpace.bind fun _ => (tracks_require _ _).bind fun _ => hMarkup)

end Variation
end XmlIndex
