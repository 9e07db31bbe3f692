import XmlIndex.Proofs.Guarded.Agreement

/-! # Stages of the guarded lexer

At every stage something is left to do of the phase that the lexer is in, and where a phase begins nothing is. A
step of a safe lexer either fails as the rest of the phase does without tests, or leads further on to a stage with
a rest that ends alike. This holds of text and of what surrounds it, and of markup without names.
-/
namespace XmlIndex
set_option autoImplicit false

namespace Guarded

def textRest (place : Nat) : Lex Phase := do
  Lex.read (textFrom .plain)
  let stop ← Lex.read Scan.last
  Lex.emitText .characterData ⟨place, stop - place⟩
  return .markup

def valueRest (role : AttributeRole) (quote : CodePoint) : Lex Phase := do
  let place ← Lex.read Scan.offset
  Lex.read (Scan.attributeValue quote)
  let stop ← Lex.read Scan.last
  Lex.bindValue role ⟨place, stop - place⟩
  Lex.emitBounded .attributeValue ⟨place, stop - place⟩
  let ch ← Lex.read Scan.next
  Lex.tagRest ch

def documentTypeRest : Lex Unit := do
  let place ← Lex.read Scan.offset
  Lex.read Scan.documentType
  let stop ← Lex.read Scan.last
  Lex.emitBounded .doctype ⟨place, stop - place⟩

end Guarded

namespace Stage
open Guarded

def rest : Stage → Lex Phase
  | .start => return .start
  | .declaration first => do
    Lex.declaration first
    return .markup
  | .markup => return .markup
  | .startTag place => Lex.startTag place
  | .attributeName place first => return .attributes place first
  | .attributeValue role quote => valueRest role quote
  | .text place => textRest place
  | .endTag => Lex.endTag
  | .instruction => do
    Lex.instruction
    Lex.resume
  | .instructionData => do
    Lex.instructionData
    Lex.resume
  | .comment => do
    Lex.comment
    Lex.resume
  | .characterSection => do
    Lex.characterSection
    Lex.resume
  | .documentType => do
    documentTypeRest
    Lex.resume
  | .epilog => return .epilog
  | .lastComment => do
    Lex.comment
    return .epilog
  | .lastInstruction => do
    Lex.instruction
    return .epilog

def action : Stage → Lex Phase
  | .start => Lex.start
  | .markup => Lex.markup
  | .attributeName place first => Lex.readAttribute place first
  | stage => stage.rest

/-- What the lexer remembers at a stage lies behind the cursor; sections are found inside the root alone, as text
is, and document types outside of it. -/
def Fits (s : Lexer) : Stage → Prop
  | .startTag place => place ≤ s.cursor.offset
  | .attributeName place _ => Begun place s.cursor
  | .text place => place ≤ s.cursor.offset ∧ s.openTags ≠ []
  | .characterSection => s.openTags ≠ []
  | .documentType => s.openTags = []
  | _ => True

end Stage

namespace Guarded

/-- A step that meets no hazard: it leads to a stage from which the lexer goes on as it would without tests, or
fails with a fault in its place. -/
def Leads (least : Nat) (c : Cursor) :
    EStateM.Result (Mishap Fault) Lexer Stage → EStateM.Result Fault Lexer Phase → Prop
  | .ok stage s, plain => plain = stage.rest s ∧ stage.Fits s ∧ Safe least c none s
  | .error (.fault fault) s, plain => plain = .error fault s ∧ c.SameRange s.cursor
  | .error (.hazard _) _, _ => False

section
variable {α : Type} {c : Cursor} {known : Option Encoding} {least least' place : Nat} {s : Lexer} {ch : CodePoint}

open Lexing

theorem Leads.bind {guarded : Lexing α} {action : Lex α} {guardedNext : α → Lexing Stage} {next : α → Lex Phase}
    (hAgree : guarded s = ofResult (action s)) (hSettled : Settled c known least' (action s))
    (hNext : ∀ a s', action s = .ok a s' → Safe least' c known s' → Leads least c (guardedNext a s') (next a s')) :
    Leads least c ((guarded >>= guardedNext) s) ((action >>= next) s) := by
  cases hAction : action s with
  | ok a s' =>
    rw [hAction] at hAgree hSettled
    rw [bind_eq_of_ok hAgree, bind_eq_of_ok hAction]
    exact hNext a s' hAction hSettled
  | error fault s' =>
    rw [hAction] at hAgree hSettled
    rw [bind_eq_of_error hAgree, bind_eq_of_error hAction]
    exact ⟨rfl, hSettled⟩

/-- An action without tests agrees with itself. -/
theorem Leads.lift {action : Lex α} {guardedNext : α → Lexing Stage} {next : α → Lex Phase}
    (hSettled : Settled c known least' (action s))
    (hNext : ∀ a s', action s = .ok a s' → Safe least' c known s' → Leads least c (guardedNext a s') (next a s')) :
    Leads least c ((lift action >>= guardedNext) s) ((action >>= next) s) :=
  .bind rfl hSettled hNext

/-- What is looked up is known to what follows. -/
theorem Leads.look {view : Lexer → α} {guardedNext : α → Lexing Stage} {next : α → Lex Phase}
    (hNext : Leads least c (guardedNext (view s) s) (next (view s) s)) :
    Leads least c ((Guarded.lift (Lex.look view) >>= guardedNext) s) ((Lex.look view >>= next) s) :=
  hNext

theorem Leads.offset {guardedNext : Nat → Lexing Stage} {next : Nat → Lex Phase}
    (hNext : Leads least c (guardedNext s.cursor.offset s) (next s.cursor.offset s)) :
    Leads least c ((Guarded.lift (Lex.read Scan.offset) >>= guardedNext) s) ((Lex.read Scan.offset >>= next) s) :=
  hNext

theorem Leads.last {guardedNext : Nat → Lexing Stage} {next : Nat → Lex Phase}
    (hNext : Leads least c (guardedNext s.cursor.last s) (next s.cursor.last s)) :
    Leads least c ((Guarded.lift (Lex.read Scan.last) >>= guardedNext) s) ((Lex.read Scan.last >>= next) s) :=
  hNext

theorem Leads.update {guardedNext : Unit → Lexing Stage} {next : Unit → Lex Phase} {change : Lexer → Lexer}
    (hNext : Leads least c (guardedNext () (change s)) (next () (change s))) :
    Leads least c ((Guarded.lift (Lex.update change) >>= guardedNext) s) ((Lex.update change >>= next) s) :=
  hNext

theorem Leads.test {condition : Lexer → Bool} {hazard : Hazard} {next : Unit → Lexing Stage}
    {plain : EStateM.Result Fault Lexer Phase} (hCondition : condition s = true)
    (hNext : Leads least c (next () s) plain) : Leads least c ((test condition hazard >>= next) s) plain := by
  rw [test_bind hCondition]
  exact hNext

theorem Leads.distance {stop : Nat} {next : Nat → Lexing Stage} {plain : EStateM.Result Fault Lexer Phase}
    (hPlace : place ≤ stop) (hNext : Leads least c (next (stop - place) s) plain) :
    Leads least c ((distance place stop >>= next) s) plain := by
  rw [distance_bind hPlace]
  exact hNext

end

section
variable {c : Cursor}

theorem steady_skipWhile (expected : CodePoint) : Scan.Steady (skipWhile expected) := by
  intro c stop hStop
  have hSkip := Scan.steady_skip expected c stop hStop
  fun_induction skipWhile expected c with
  | case1 c c' hOk ih =>
    rw [hOk] at hSkip
    obtain ⟨hMoved, hLonger⟩ := hSkip
    have hStop' : c'.stop ≤ stop := hMoved.stop_eq ▸ hStop
    have hRest := ih hStop' (Scan.steady_skip expected c' stop hStop')
    rw [skipWhile_of_true hLonger]
    cases hShorter : skipWhile expected c' <;> rw [hShorter] at hRest
    · exact ⟨hMoved.trans hRest.1, hRest.2⟩
    · exact ⟨hMoved.trans hRest.1, hRest.2⟩
  | case2 c c' hOk =>
    rw [hOk] at hSkip
    exact ⟨hSkip.1, skipWhile_of_false hSkip.2⟩
  | case3 c fault c' hError =>
    rw [hError] at hSkip
    exact ⟨hSkip.1, hSkip.2.imp_right skipWhile_of_error⟩

theorem forward_skipWhile (expected : CodePoint) : Scan.Forward (skipWhile expected) := by
  intro c u c' hOk
  fun_induction skipWhile expected c with
  | case1 c c₁ hSkip ih => exact (Scan.forward_skip _ _ _ _ hSkip).trans (ih hOk)
  | case2 c c₁ hSkip =>
    cases hOk
    exact Scan.forward_skip _ _ _ _ hSkip
  | case3 => cases hOk

theorem steady_moreBrackets : Scan.Steady moreBrackets :=
  (steady_skipWhile _).bind fun _ => (Scan.steady_skip _).bind fun _ => .ite (Scan.steady_fail _) (Scan.steady_pure _)

theorem forward_moreBrackets : Scan.Forward moreBrackets :=
  (forward_skipWhile _).bind fun _ => (Scan.forward_skip _).bind fun _ => .ite (Scan.forward_fail _) (Scan.forward_pure _)

theorem steady_firstText (ch : CodePoint) : Scan.Steady (firstText ch) :=
  .ite (Scan.steady_pure _)
    (.ite (Scan.steady_reference.bind fun _ => Scan.steady_pure _)
      (.ite ((Scan.steady_skip _).bind fun _ => .ite steady_moreBrackets (Scan.steady_pure _)) (Scan.steady_fail _)))

theorem forward_firstText (ch : CodePoint) : Scan.Forward (firstText ch) :=
  .ite (Scan.forward_pure _)
    (.ite (Scan.progressive_reference.forward.bind fun _ => Scan.forward_pure _)
      (.ite ((Scan.forward_skip _).bind fun _ => .ite forward_moreBrackets (Scan.forward_pure _)) (Scan.forward_fail _)))

end

namespace Lexing
variable {c : Cursor} {known : Option Encoding} {least place : Nat} {s : Lexer} {ch : CodePoint}

theorem lexText_eq (hText : ch ≠ CodePoint.lessThan) :
    Lex.text place ch = Lex.read (firstText ch) >>= fun _ => textRest place := by
  unfold Lex.text textRest
  rw [scanText_eq hText, lexRead_bind, bind_assoc]

/-- The first character of a text has been read. -/
theorem textStart_leads (hSafe : Safe least c known s) (hText : ch ≠ CodePoint.lessThan)
    (hPlace : place ≤ s.cursor.offset) (hOpen : s.openTags ≠ []) :
    Leads least c ((read (textStart ch) >>= fun _ => pure (Stage.text place)) s) (Lex.text place ch s) := by
  rw [lexText_eq hText]
  refine .bind (read_eq (congrFun (textStart_eq ch) _))
    (settles_read (steady_firstText ch) (forward_firstText ch) _ hSafe) fun _ s₁ hFirst hSafe₁ => ?_
  obtain ⟨c₁, hOk, rfl⟩ := Lex.read_eq_ok_iff.mp hFirst
  exact ⟨rfl, ⟨Nat.le_trans hPlace (forward_firstText ch _ _ _ hOk).offset_le, hOpen⟩, hSafe₁.forget⟩

theorem text_leads (hSafe : Safe least c known s) (hFits : (Stage.text place).Fits s) :
    Leads (least + 1) c (text place s) (textRest place s) := by
  obtain ⟨hPlace, hOpen⟩ := hFits
  refine .test (by simpa using hOpen) ?_
  refine .bind (read_eq (congrFun text_eq _)) (settles_drive _ _ _ hSafe) fun _ s₁ hText hSafe₁ => ?_
  obtain ⟨c₁, hOk, rfl⟩ := Lex.read_eq_ok_iff.mp hText
  refine .last (.distance (Nat.le_trans hPlace (begun_of_drive hOk).place_le) ?_)
  exact .bind (packed_eq hSafe₁ _) (settles_emitText _ _ _ hSafe₁) fun _ s₂ _ hSafe₂ => ⟨rfl, trivial, hSafe₂.forget⟩

theorem emitSpace_leads {stop : Nat} {stage : Stage} {next : Lex Phase} (hSafe : Safe least c known s)
    (hRest : ∀ s', next s' = stage.rest s') (hFits : ∀ s', stage.Fits s') :
    Leads least c ((emitSpace place stop >>= fun _ => pure stage) s) ((Lex.emitSpace place stop >>= fun _ => next) s) :=
  .bind (emitSpace_eq hSafe _ _) (settles_emitSpace _ _ _ hSafe) fun _ _ _ hSafe' =>
    ⟨hRest _, hFits _, hSafe'.forget⟩

theorem afterMarkup_leads (hSafe : Safe least c known s) (hOpen : s.openTags ≠ []) :
    Leads least c (afterMarkup s) (Lex.afterMarkup s) := by
  refine .offset (.lift (settles_nextAfterSpace.mono (Nat.le_succ _) _ hSafe) fun ch s₁ hNext hSafe₁ => ?_)
  obtain ⟨c₁, hOk, rfl⟩ := Lex.read_eq_ok_iff.mp hNext
  split
  · exact .last (emitSpace_leads hSafe₁ (fun _ => rfl) fun _ => trivial)
  · rename_i hText
    exact textStart_leads hSafe₁ hText (Scan.progressive_nextAfter _ _ _ _ hOk).reaches.offset_le hOpen

theorem betweenMarkup_leads (hSafe : Safe least c known s) : Leads least c (betweenMarkup s) (Lex.betweenMarkup s) :=
  .lift (settles_nextAfterSpace.mono (Nat.le_succ _) _ hSafe) fun _ _ _ hSafe₁ =>
    .lift (settles_require _ _ _ hSafe₁) fun _ _ _ hSafe₂ => ⟨rfl, trivial, hSafe₂.forget⟩

theorem resume_leads (hSafe : Safe least c known s) : Leads least c (resume s) (Lex.resume s) := by
  refine .look ?_
  split
  · exact betweenMarkup_leads hSafe
  · rename_i hOpen
    exact afterMarkup_leads hSafe (by simpa using hOpen)

/-- Inside the root the lexer resumes after markup. -/
theorem afterMarkup_resumes (hSafe : Safe least c known s) (hOpen : s.openTags ≠ []) :
    Leads least c (afterMarkup s) (Lex.resume s) := by
  have hInside : s.openTags.isEmpty = false := by simpa using hOpen
  have hResume : Lex.resume s = (if s.openTags.isEmpty then Lex.betweenMarkup else Lex.afterMarkup) s := rfl
  rw [hResume, hInside]
  exact afterMarkup_leads hSafe hOpen

theorem betweenMarkup_resumes (hSafe : Safe least c known s) (hOutside : s.openTags = []) :
    Leads least c (betweenMarkup s) (Lex.resume s) := by
  have hResume : Lex.resume s = (if s.openTags.isEmpty then Lex.betweenMarkup else Lex.afterMarkup) s := rfl
  rw [hResume, hOutside]
  exact betweenMarkup_leads hSafe

theorem comment_leads (hSafe : Safe least c known s) : Leads (least + 1) c (step .comment s) (Stage.comment.rest s) :=
  .bind (comment_eq hSafe) (settles_comment _ hSafe) fun _ _ _ hSafe' => resume_leads hSafe'

theorem lastComment_leads (hSafe : Safe least c known s) :
    Leads (least + 1) c (step .lastComment s) (Stage.lastComment.rest s) :=
  .bind (comment_eq hSafe) (settles_comment _ hSafe) fun _ _ _ hSafe' => ⟨rfl, trivial, hSafe'.forget⟩

theorem instructionData_leads (hSafe : Safe least c known s) :
    Leads (least + 1) c (step .instructionData s) (Stage.instructionData.rest s) :=
  .bind (instructionData_eq hSafe) (settles_instructionData _ hSafe) fun _ _ _ hSafe' => resume_leads hSafe'

theorem instruction_bind {next : Lex Phase} : (Lex.instruction >>= fun _ => next) =
    instructionHead >>= fun found => if found then Lex.instructionData >>= fun _ => next else next := by
  rw [lexInstruction_eq]
  simp only [bind_assoc, ite_bind, pure_bind]

theorem instruction_leads (hSafe : Safe least c known s) :
    Leads (least + 1) c (step .instruction s) (Stage.instruction.rest s) := by
  rw [Stage.rest, instruction_bind]
  refine .bind (instruction_eq hSafe) (settles_instructionHead _ hSafe) fun found s₁ _ hSafe₁ => ?_
  split
  · exact ⟨rfl, trivial, hSafe₁.forget⟩
  · exact resume_leads hSafe₁

theorem lastInstruction_leads (hSafe : Safe least c known s) :
    Leads (least + 1) c (step .lastInstruction s) (Stage.lastInstruction.rest s) := by
  rw [Stage.rest, instruction_bind]
  refine .bind (instruction_eq hSafe) (settles_instructionHead _ hSafe) fun found s₁ _ hSafe₁ => ?_
  split
  · exact .bind (instructionData_eq hSafe₁) (settles_instructionData.mono (Nat.le_succ _) _ hSafe₁)
      fun _ _ _ hSafe₂ => ⟨rfl, trivial, hSafe₂.forget⟩
  · exact ⟨rfl, trivial, hSafe₁.forget⟩

theorem characterSection_leads (hSafe : Safe least c known s) (hOpen : s.openTags ≠ []) :
    Leads (least + 1) c (step .characterSection s) (Stage.characterSection.rest s) := by
  refine .bind (characterSection_eq hSafe) (settles_characterSection _ hSafe) fun _ s₁ hSection hSafe₁ => ?_
  refine afterMarkup_resumes hSafe₁ ?_
  obtain ⟨body, -, -, rfl⟩ := Lex.characterSection_eq_ok_iff.mp hSection
  exact hOpen

theorem documentType_agrees (hSafe : Safe least c known s) : documentType s = ofResult (documentTypeRest s) := by
  refine offset_eq_ofResult (bind_eq_ofResult (read_eq (congrFun documentType_eq _)) fun _ s₂ hRead => ?_)
  have hSafe₂ := (settles_drive _ _).ok hSafe hRead
  obtain ⟨c₂, hOk, rfl⟩ := Lex.read_eq_ok_iff.mp hRead
  refine last_eq_ofResult ?_
  rw [distance_bind (begun_of_drive hOk).place_le]
  exact packed_eq hSafe₂ _

theorem settles_documentTypeRest : Settles c known least (least + 1) documentTypeRest :=
  settles_offset.bind fun _ => (settles_drive _ _).bind fun _ => settles_last.bind fun _ => settles_emitBounded _ _

theorem openTags_of_documentTypeRest {u : Unit} {s' : Lexer} (hOk : documentTypeRest s = .ok u s') :
    s'.openTags = s.openTags := by
  simp only [documentTypeRest, Lex.bind_eq_ok_iff, Lex.read_eq_ok_iff, Lex.emitBounded_eq_ok_iff] at hOk
  obtain ⟨_, _, ⟨_, -, rfl⟩, _, _, ⟨_, -, rfl⟩, _, _, ⟨_, -, rfl⟩, -, rfl⟩ := hOk
  rfl

theorem documentType_leads (hSafe : Safe least c known s) (hOutside : s.openTags = []) :
    Leads (least + 1) c (step .documentType s) (Stage.documentType.rest s) :=
  .bind (documentType_agrees hSafe) (settles_documentTypeRest _ hSafe) fun _ _ hDocument hSafe₁ =>
    betweenMarkup_resumes hSafe₁ ((openTags_of_documentTypeRest hDocument).trans hOutside)

theorem declared_bind : (Lex.declared >>= fun _ => Lex.resume) = (do
    let ch ← Lex.read Scan.next
    if ch = CodePoint.hyphen then
      Lex.require (← Lex.read (Scan.skip CodePoint.hyphen)) .commentStart
      Stage.comment.rest
    else if ch = CodePoint.leftBracket then
      Lex.require (← Lex.read (Scan.skipAll (CodePoint.ofText "CDATA["))) .cdataStart
      Lex.require (!(← Lex.outsideRoot)) .cdataOutsideRoot
      Stage.characterSection.rest
    else if ch = 0x44 then
      Lex.require (← Lex.read (Scan.skipAll (CodePoint.ofText "OCTYPE"))) .doctypeStart
      Lex.require (← Lex.outsideRoot) .misplacedDoctype
      Lex.require (!(← Lex.look (·.hasDoctype))) .secondDoctype
      Lex.update ({ · with hasDoctype := true })
      Stage.documentType.rest
    else Lex.fail .declarationStart) := by
  have hFail : (Lex.fail .declarationStart >>= fun _ : Unit => Lex.resume) = Lex.fail .declarationStart := rfl
  unfold Lex.declared Lex.documentType Stage.rest documentTypeRest
  simp only [bind_assoc, ite_bind, hFail]

theorem declared_leads (hSafe : Safe least c known s) :
    Leads least c (declared s) ((Lex.declared >>= fun _ => Lex.resume) s) := by
  rw [declared_bind]
  refine .lift (settles_next.mono (Nat.le_succ _) _ hSafe) fun ch s₁ _ hSafe₁ => ?_
  split
  · exact .lift (settles_skip _ _ hSafe₁) fun _ _ _ hSafe₂ =>
      .lift (settles_require _ _ _ hSafe₂) fun _ _ _ hSafe₃ => ⟨rfl, trivial, hSafe₃.forget⟩
  · split
    · refine .lift (settles_skipAll _ _ hSafe₁) fun _ s₂ _ hSafe₂ => ?_
      refine .lift (settles_require _ _ _ hSafe₂) fun _ s₃ _ hSafe₃ => .look ?_
      refine .lift (settles_require _ _ _ hSafe₃) fun _ s₄ hRequire hSafe₄ => ?_
      obtain ⟨hInside, rfl⟩ := Lex.require_eq_ok_iff.mp hRequire
      exact ⟨rfl, by simpa [Stage.Fits] using hInside, hSafe₄.forget⟩
    · split
      · refine .lift (settles_skipAll _ _ hSafe₁) fun _ s₂ _ hSafe₂ => ?_
        refine .lift (settles_require _ _ _ hSafe₂) fun _ s₃ _ hSafe₃ => .look ?_
        refine .lift (settles_require _ _ _ hSafe₃) fun _ s₄ hRequire hSafe₄ => .look ?_
        obtain ⟨hOutside, rfl⟩ := Lex.require_eq_ok_iff.mp hRequire
        refine .lift (settles_require _ _ _ hSafe₄) fun _ s₅ hRequire hSafe₅ => .update ?_
        obtain ⟨-, rfl⟩ := Lex.require_eq_ok_iff.mp hRequire
        exact ⟨rfl, by simpa [Stage.Fits] using hOutside, { hSafe₅.forget with }⟩
      · exact ⟨rfl, hSafe₁.range⟩

end Lexing
end Guarded
end XmlIndex
