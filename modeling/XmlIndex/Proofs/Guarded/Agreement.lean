import XmlIndex.Proofs.Guarded.Safety

/-! # Tested actions

In a safe lexer no test of an action fails, so the action does what it does without tests.
-/
namespace XmlIndex
set_option autoImplicit false

namespace Guarded

/-- The character read last begins at `place` or further on, and ends where the cursor stands or before. -/
structure Begun (place : Nat) (c : Cursor) : Prop where
  place_le : place ≤ c.last
  last_le : c.last + c.encoding.unitSize ≤ c.offset

section
variable {σ α : Type} {c c' : Cursor}

theorem begun_of_reads {text : Grammar.Chars} {ch : CodePoint} (hSame : c' = c.advance (text ++ [ch])) :
    Begun c.offset c' := by
  subst hSame
  have hWidth := c.encoding.unitSize_le_width ch
  refine ⟨by rw [Cursor.last_advance_append]; exact Nat.le_add_right _ _, ?_⟩
  rw [Cursor.last_advance_append, Cursor.encoding_advance, Cursor.offset_advance, Encoding.size_append,
    Encoding.size_cons]
  omega

theorem encoding_of_drive {machine : Automaton σ α} {state : σ} {a : α} (hOk : Scan.drive machine state c = .ok a c') :
    c'.encoding = c.encoding := by
  obtain ⟨text, -, -, rfl⟩ := Scan.drive_eq_ok_iff.mp hOk
  exact Cursor.encoding_advance

theorem begun_of_drive {machine : Automaton σ α} {state : σ} {a : α} (hOk : Scan.drive machine state c = .ok a c') :
    Begun c.offset c' := by
  obtain ⟨text, -, hAccepts, rfl⟩ := Scan.drive_eq_ok_iff.mp hOk
  obtain rfl | ⟨lead, ch, rfl⟩ := List.eq_nil_or_concat text
  · exact (Automaton.not_accepts_nil hAccepts).elim
  · exact begun_of_reads (congrArg c.advance (List.concat_eq_append ..))

theorem begun_of_instructionTarget {ch : CodePoint} (hOk : Scan.instructionTarget c = .ok ch c') :
    Begun c.offset c' := by
  obtain ⟨target, -, -, -, -, hSame⟩ := Scan.instructionTarget_eq_ok_iff.mp hOk
  exact begun_of_reads hSame

end

theorem steady_closeComment : Scan.Steady closeComment :=
  Scan.steady_next.bind fun _ => Scan.steady_require _ _

theorem progressive_closeComment : Scan.Progressive closeComment :=
  Scan.progressive_next.bind fun _ => Scan.forward_require _ _

theorem progressive_instructionTarget : Scan.Progressive Scan.instructionTarget :=
  Scan.progressive_next.bind fun _ => (Scan.forward_require _ _).bind fun _ =>
    (Scan.forward_reservedLetters _).bind fun _ =>
      .ite
        (Scan.progressive_next.forward.bind fun _ => (Scan.forward_require _ _).bind fun _ =>
          .ite (Scan.progressive_nextAfter _).forward (Scan.forward_pure _))
        (Scan.progressive_nextAfter _).forward

namespace Lexing
variable {α : Type} {c : Cursor} {known : Option Encoding} {least least' : Nat} {s s' : Lexer}

theorem read_eq {action : Reading α} {plain : Scan α} (hSame : action s.cursor = ofResult (plain s.cursor)) :
    read action s = ofResult (Lex.read plain s) := by
  unfold read Lex.read
  rw [hSame]
  cases plain s.cursor <;> rfl

theorem lexRead_bind {β : Type} {action : Scan α} {next : α → Scan β} :
    Lex.read (action >>= next) = Lex.read action >>= fun a => Lex.read (next a) := by
  funext s
  cases hAction : action s.cursor with
  | ok a c' =>
    have hFirst : Lex.read action s = .ok a { s with cursor := c' } := by rw [Lex.read, hAction]
    rw [bind_eq_of_ok hFirst, Lex.read, bind_eq_of_ok hAction]
    rfl
  | error fault c' =>
    have hFirst : Lex.read action s = .error fault { s with cursor := c' } := by rw [Lex.read, hAction]
    rw [bind_eq_of_error hFirst, Lex.read, bind_eq_of_error hAction]

section
variable {β : Type}

/-- What is looked up is known to what follows. -/
theorem look_eq_ofResult {view : Lexer → α} {guardedNext : α → Lexing β} {next : α → Lex β}
    (hNext : guardedNext (view s) s = ofResult (next (view s) s)) :
    (lift (Lex.look view) >>= guardedNext) s = ofResult ((Lex.look view >>= next) s) :=
  hNext

theorem offset_eq_ofResult {guardedNext : Nat → Lexing β} {next : Nat → Lex β}
    (hNext : guardedNext s.cursor.offset s = ofResult (next s.cursor.offset s)) :
    (lift (Lex.read Scan.offset) >>= guardedNext) s = ofResult ((Lex.read Scan.offset >>= next) s) :=
  hNext

theorem last_eq_ofResult {guardedNext : Nat → Lexing β} {next : Nat → Lex β}
    (hNext : guardedNext s.cursor.last s = ofResult (next s.cursor.last s)) :
    (lift (Lex.read Scan.last) >>= guardedNext) s = ofResult ((Lex.read Scan.last >>= next) s) :=
  hNext

end

theorem test_bind {β : Type} {condition : Lexer → Bool} {hazard : Hazard} {next : Unit → Lexing β}
    (hCondition : condition s = true) : (test condition hazard >>= next) s = next () s := by
  refine bind_eq_of_ok ?_
  unfold test ask
  dsimp only
  rw [demand_of_true hCondition]

/-- In a safe lexer the depth fits a token. -/
theorem packed_eq (hSafe : Safe least c known s) (write : Lex α) : packed write s = ofResult (write s) := by
  refine test_bind ?_
  have hOpened := hSafe.opened
  unfold Lexer.depth
  rw [Bool.and_eq_true, decide_eq_true_eq, decide_eq_true_eq]
  omega

theorem emitSpace_eq (hSafe : Safe least c known s) (place stop : Nat) :
    emitSpace place stop s = ofResult (Lex.emitSpace place stop s) := by
  refine look_eq_ofResult ?_
  split
  · rename_i hSome
    rw [Bool.and_eq_true, decide_eq_true_eq] at hSome
    rw [distance_bind (Nat.le_of_lt hSome.2)]
    exact packed_eq hSafe _
  · rfl

theorem before_eq {place count : Nat} (hRoom : place + count * s.cursor.encoding.unitSize ≤ s.cursor.offset) :
    before place count s = ofResult (Lex.before place count s) := by
  refine offset_eq_ofResult (look_eq_ofResult ?_)
  exact (distance_bind (by omega)).trans (distance_bind (by omega))

theorem comment_eq (hSafe : Safe least c known s) : comment s = ofResult (Lex.comment s) := by
  have hPlain : Lex.comment = Lex.read Scan.offset >>= fun place => Lex.read hyphens >>= fun _ =>
      Lex.read closeComment >>= fun _ => Lex.before place 3 >>= Lex.emitText .comment := by
    unfold Lex.comment
    rw [scanComment_eq]
    simp only [lexRead_bind, bind_assoc]
  rw [hPlain]
  refine offset_eq_ofResult (bind_eq_ofResult rfl fun _ s₁ hHyphens => ?_)
  obtain ⟨c₁, hOk, rfl⟩ := Lex.read_eq_ok_iff.mp hHyphens
  have hRoom := hyphens_room hOk
  rw [← encoding_of_drive hOk] at hRoom
  refine (bind_eq_of_ok (before_eq hRoom)).trans ?_
  refine bind_eq_ofResult rfl fun _ s₂ hClose => ?_
  -- The character that closes the comment takes as much more as it is said to take of its length.
  have hSafe₁ := (settles_drive _ _).ok hSafe hHyphens
  have hSafe₂ := (settles_read_progressive steady_closeComment progressive_closeComment).ok hSafe₁ hClose
  obtain ⟨c₂, hOk, rfl⟩ := Lex.read_eq_ok_iff.mp hClose
  obtain ⟨hOffset, hEncoding⟩ := @closeComment_room c₁ _ _ hOk
  refine (packed_eq hSafe₂ _).trans (congrArg ofResult ?_)
  change Lex.emitText .comment ⟨s.cursor.offset, c₁.offset - s.cursor.offset - 2 * c₁.encoding.unitSize⟩ _ =
    Lex.emitText .comment ⟨s.cursor.offset, c₂.offset - s.cursor.offset - 3 * c₂.encoding.unitSize⟩ _
  rw [hOffset, hEncoding]
  congr 2
  omega

/-- A body up to a terminator, which the automaton has to find. -/
theorem body_eq {σ : Type} {machine : Automaton σ Unit} {state : σ} {count : Nat} (write : Span → Lex Unit)
    (hSafe : Safe least c known s)
    (hRoom : ∀ {c c' : Cursor} {u : Unit}, Scan.drive machine state c = .ok u c' →
      c.offset + count * c.encoding.unitSize ≤ c'.offset) :
    (do
      let place ← lift (Lex.read Scan.offset)
      lift (Lex.read (Scan.drive machine state))
      packed (write (← before place count)) : Lexing Unit) s =
    ofResult ((do
      let place ← Lex.read Scan.offset
      Lex.read (Scan.drive machine state)
      write (← Lex.before place count) : Lex Unit) s) := by
  refine offset_eq_ofResult (bind_eq_ofResult rfl fun _ s₁ hBody => ?_)
  have hSafe₁ := (settles_drive _ _).ok hSafe hBody
  obtain ⟨c₁, hOk, rfl⟩ := Lex.read_eq_ok_iff.mp hBody
  have hThere := hRoom hOk
  rw [← encoding_of_drive hOk] at hThere
  refine bind_eq_ofResult (before_eq hThere) fun span s₂ hSpan => ?_
  obtain ⟨-, rfl⟩ := EStateM.Result.ok.inj hSpan
  exact packed_eq hSafe₁ _

theorem characterSection_eq (hSafe : Safe least c known s) : characterSection s = ofResult (Lex.characterSection s) :=
  body_eq _ hSafe characterSection_room

theorem instructionData_eq (hSafe : Safe least c known s) : instructionData s = ofResult (Lex.instructionData s) :=
  body_eq _ hSafe instructionData_room

def instructionHead : Lex Bool := do
  let place ← Lex.read Scan.offset
  let ch ← Lex.read Scan.instructionTarget
  let stop ← Lex.read Scan.last
  Lex.emitBounded .instructionTarget ⟨place, stop - place⟩
  if ch = CodePoint.question then
    Lex.require (← Lex.read (Scan.skip CodePoint.greaterThan)) .instructionEnd
    Lex.emit .instructionData ⟨stop, 0⟩
    return false
  else
    Lex.require (CodePoint.isSpace ch) .afterTarget
    return true

theorem ite_bind {β : Type} {condition : Prop} [Decidable condition] {yes no : Lex α} {next : α → Lex β} :
    (if condition then yes else no) >>= next = if condition then yes >>= next else no >>= next := by
  split <;> rfl

theorem lexInstruction_eq :
    Lex.instruction = instructionHead >>= fun found => if found then Lex.instructionData else pure () := by
  have hEmit (kind : TokenKind) (span : Span) : (Lex.emit kind span >>= fun _ => pure ()) = Lex.emit kind span := rfl
  unfold Lex.instruction instructionHead
  simp only [bind_assoc, ite_bind, pure_bind, if_true, Bool.false_eq_true, if_false, hEmit]

theorem settles_instructionHead : Settles c known least (least + 1) instructionHead :=
  settles_offset.bind fun _ =>
    (settles_read_progressive Scan.steady_instructionTarget progressive_instructionTarget).bind fun _ =>
      settles_last.bind fun _ => (settles_emitBounded _ _).bind fun _ =>
        .ite
          ((settles_skip _).bind fun _ => (settles_require _ _).bind fun _ => (settles_emit _ _).bind fun _ =>
            settles_pure _)
          ((settles_require _ _).bind fun _ => settles_pure _)

theorem instruction_eq (hSafe : Safe least c known s) : instruction s = ofResult (instructionHead s) := by
  unfold instruction
  rw [instructionTarget_eq]
  refine offset_eq_ofResult (bind_eq_ofResult rfl fun ch s₁ hTarget => ?_)
  have hSafe₁ :=
    (settles_read_progressive Scan.steady_instructionTarget progressive_instructionTarget).ok hSafe hTarget
  obtain ⟨c₁, hOk, rfl⟩ := Lex.read_eq_ok_iff.mp hTarget
  have hPlace := (begun_of_instructionTarget hOk).place_le
  refine last_eq_ofResult ?_
  rw [distance_bind hPlace]
  refine bind_eq_ofResult (packed_eq hSafe₁ _) fun _ s₃ hEmit => ?_
  have hSafe₃ := (settles_emitBounded _ _).ok hSafe₁ hEmit
  split
  · refine bind_eq_ofResult rfl fun closed s₄ hClosed => bind_eq_ofResult rfl fun _ s₅ hRequire => ?_
    have hSafe₅ := (settles_require _ _).ok ((settles_skip _).ok hSafe₃ hClosed) hRequire
    exact bind_eq_ofResult (packed_eq hSafe₅ _) fun _ _ _ => rfl
  · exact bind_eq_ofResult rfl fun _ _ _ => rfl

theorem encodingDeclaration_eq (hSafe : Safe least c known s) :
    encodingDeclaration s = ofResult (Lex.encodingDeclaration s) := by
  refine bind_eq_ofResult rfl fun place s₁ hPlace => ?_
  replace hSafe := settles_last.ok hSafe hPlace
  refine bind_eq_ofResult rfl fun found s₂ hFound => ?_
  replace hSafe := (settles_skipAll _).ok hSafe hFound
  refine bind_eq_ofResult rfl fun _ s₃ hRequire => ?_
  replace hSafe := (settles_require _ _).ok hSafe hRequire
  refine bind_eq_ofResult (packed_eq hSafe _) fun _ s₄ hEmit => ?_
  replace hSafe := (settles_emitUnits _ _ _).ok hSafe hEmit
  refine bind_eq_ofResult rfl fun quote s₅ hQuote => ?_
  replace hSafe := settles_openValue.ok hSafe hQuote
  refine offset_eq_ofResult (bind_eq_ofResult rfl fun label s₇ hLabel => ?_)
  replace hSafe := (settles_drive _ _).ok hSafe hLabel
  obtain ⟨c₇, hOk, rfl⟩ := Lex.read_eq_ok_iff.mp hLabel
  refine last_eq_ofResult ?_
  rw [distance_bind (begun_of_drive hOk).place_le]
  exact bind_eq_ofResult (packed_eq hSafe _) fun _ _ _ => rfl

theorem optionalEncoding_eq (hSafe : Safe least c known s) :
    optionalEncoding s = ofResult (Lex.optionalEncoding s) := by
  refine bind_eq_ofResult rfl fun found s₁ hFound => ?_
  replace hSafe := settles_nextSpaced.ok hSafe hFound
  split
  · exact bind_eq_ofResult (encodingDeclaration_eq hSafe) fun _ _ _ => rfl
  · rfl

theorem optionalDeclarations_eq (hSafe : Safe least c none s) :
    optionalDeclarations s = ofResult (Lex.optionalDeclarations s) := by
  refine bind_eq_ofResult (optionalEncoding_eq hSafe) fun found s₁ hFound => ?_
  replace hSafe := settles_optionalEncoding.ok hSafe hFound
  split
  · exact bind_eq_ofResult (packed_eq hSafe _) fun _ _ _ => rfl
  · rfl

theorem declaration_eq (hSafe : Safe least c none s) (first : CodePoint) :
    declaration first s = ofResult (Lex.declaration first s) := by
  refine bind_eq_ofResult (packed_eq hSafe _) fun _ s₁ hVersion => ?_
  replace hSafe := (settles_versionDeclaration _).ok hSafe hVersion
  refine bind_eq_ofResult (optionalDeclarations_eq hSafe) fun ch s₂ _ => ?_
  refine bind_eq_ofResult rfl fun _ s₃ _ => bind_eq_ofResult rfl fun closed s₄ _ => ?_
  exact bind_eq_ofResult rfl fun _ s₅ _ => bind_eq_ofResult rfl fun next s₆ _ => rfl

theorem closeScope_eq (hSafe : Safe least c known s) : closeScope s = ofResult (Lex.closeScope s) := by
  unfold closeScope Lex.closeScope
  have hStop : c.stop ≤ s.cursor.doc.size := by
    rw [hSafe.range.doc_eq]
    exact hSafe.stop_le
  rw [close_eq hStop hSafe.scopes]
  split
  · cases Namespace.Scopes.close s.cursor s.scopes <;> rfl
  · rfl

theorem isKnown_eq {name : Name} {unitSize : Nat} (hSafe : Safe least c known s) (hName : name.Within c.stop unitSize) :
    isKnown name s = .ok (s.attributes.any fun other =>
      Namespace.sameText s.cursor.doc other.offset other.length name.offset name.length) := by
  have hStop : c.stop ≤ s.cursor.doc.size := by
    rw [hSafe.range.doc_eq]
    exact hSafe.stop_le
  have hEnd := Nat.le_trans hName.end_le hStop
  rw [isKnown, slice_of_le (Nat.le_add_right _ _) hEnd]
  exact anyM_eq fun other hMem => sameText_eq (Nat.le_trans (hSafe.attributes other hMem) hStop) hEnd

theorem addAttribute_eq {name : Name} {unitSize : Nat} (hSafe : Safe least c known s)
    (hName : name.Within c.stop unitSize) : addAttribute name s = ofResult (Lex.addAttribute name s) := by
  refine bind_eq_ofResult ?_ fun _ _ _ => bind_eq_ofResult rfl fun _ _ _ => rfl
  unfold ask
  rw [isKnown_eq hSafe hName]
  rfl

end Lexing
end Guarded
end XmlIndex
