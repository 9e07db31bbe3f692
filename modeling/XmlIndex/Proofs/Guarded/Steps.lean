import XmlIndex.Proofs.Guarded.Stages

/-! # Steps of the guarded lexer

Tags are read name by name and value by value, each from a place that lies behind. So from a safe lexer every step
leads on.
-/
namespace XmlIndex
set_option autoImplicit false

namespace Guarded

section
variable {c c' : Cursor} {place : Nat}

theorem Begun.advance (hBegun : Begun place c) (text : Grammar.Chars) : Begun place (c.advance text) := by
  obtain rfl | ⟨lead, ch, rfl⟩ := List.eq_nil_or_concat text
  · exact hBegun
  · rw [List.concat_eq_append]
    have hLater := @begun_of_reads c _ lead ch rfl
    have hPlace := hBegun.place_le
    have hLast := hBegun.last_le
    exact ⟨Nat.le_trans (by omega) hLater.place_le, hLater.last_le⟩

/-- Whatever is looked for in the name of an attribute, its place lies behind. -/
theorem Begun.attributeRole {first : CodePoint} {found : CodePoint × AttributeRole} (hBegun : Begun place c)
    (hOk : Scan.attributeRole first c = .ok found c') : Begun place c' := by
  by_cases hFirst : first = 0x78
  · subst hFirst
    obtain ⟨-, -, rfl⟩ | ⟨-, -, _, _, _, _, -, -, -, rfl⟩ := Scan.attributeRole_eq_ok_iff.mp hOk
    · exact hBegun.advance _
    · exact hBegun.advance _
  · rw [Scan.attributeRole, if_neg hFirst] at hOk
    obtain ⟨-, rfl⟩ := pure_eq_ok_iff.mp hOk
    exact hBegun

theorem progressive_openAttribute (ch : CodePoint) : Scan.Progressive (Scan.openAttribute ch) := by
  intro c quote c' hOk
  obtain ⟨after, c₁, hSkip, hRest⟩ := Scan.bind_eq_ok_iff.mp hOk
  obtain ⟨_, c₂, hRequire, hQuote⟩ := Scan.bind_eq_ok_iff.mp hRest
  obtain ⟨-, rfl⟩ := Scan.require_eq_ok_iff.mp hRequire
  refine (Scan.forward_skipSpace _ _ _ _ hSkip).trans_advances ?_
  exact Scan.Progressive.bind (Scan.progressive_nextAfter _)
    (fun _ => (Scan.forward_require _ _).bind fun _ => Scan.forward_pure _) _ _ _ hQuote

end

namespace Lexing
variable {c : Cursor} {known : Option Encoding} {least place : Nat} {s : Lexer}

theorem endTag_leads (hSafe : Safe least c known s) : Leads (least + 1) c (step .endTag s) (Stage.endTag.rest s) := by
  refine .offset (.look ?_)
  cases hTags : s.openTags with
  | nil => exact ⟨rfl, hSafe.range⟩
  | cons name rest =>
    have hOpened := hSafe.opened
    have hOpen := hSafe.openTags
    rw [hTags] at hOpened hOpen
    have hStop := hSafe.stop_le_size
    have hKnown : name.offset + name.length ≤ s.cursor.doc.size := by
      rw [hSafe.range.doc_eq]
      exact Nat.le_trans (hOpen name List.mem_cons_self) hSafe.stop_le
    refine .test (decide_eq_true (Nat.le_of_succ_le_succ hOpened)) ?_
    refine .bind (read_eq (skipAgain_eq hStop hKnown)) (settles_skipAgain _ _ _ hSafe) fun same s₁ hSame hSafe₁ => ?_
    obtain ⟨c₁, -, rfl⟩ := Lex.read_eq_ok_iff.mp hSame
    refine .lift (settles_requireAt _ _ _ _ hSafe₁) fun _ s₂ hRequire hSafe₂ => .update ?_
    obtain ⟨-, rfl⟩ := Lex.requireAt_eq_ok_iff.mp hRequire
    have hSafe₃ : Safe least c known { s with cursor := c₁, openTags := rest } :=
      { hSafe₂ with
        opened := Nat.le_of_succ_le hOpened
        openTags := fun span hMem => hOpen span (List.mem_cons_of_mem _ hMem) }
    refine .lift (settles_nextAfterSpace _ hSafe₃) fun ch s₄ hNext hSafe₄ => ?_
    obtain ⟨c₄, -, rfl⟩ := Lex.read_eq_ok_iff.mp hNext
    refine .lift (settles_require _ _ _ hSafe₄) fun _ s₅ hRequire hSafe₅ => ?_
    obtain ⟨-, rfl⟩ := Lex.require_eq_ok_iff.mp hRequire
    split
    · exact ⟨rfl, trivial, hSafe₅.forget⟩
    · rename_i hRest
      exact afterMarkup_leads hSafe₅ (by simpa using hRest)

theorem content_leads (hSafe : Safe least c known s) (hOpen : s.openTags ≠ []) (opened : Bool) :
    Leads least c (content opened s) (Lex.content opened s) := by
  refine .offset (.lift (settles_nextAfterSpace.mono (Nat.le_succ _) _ hSafe) fun ch s₁ hNext hSafe₁ => ?_)
  obtain ⟨c₁, hOk, rfl⟩ := Lex.read_eq_ok_iff.mp hNext
  split
  · refine .last (.lift (settles_skip _ _ hSafe₁) fun slash s₂ _ hSafe₂ => ?_)
    split
    · split
      · refine .distance (begun_of_drive hOk).place_le ?_
        exact .bind (packed_eq hSafe₂ _) (settles_emitText _ _ _ hSafe₂) fun _ s₃ _ hSafe₃ =>
          ⟨rfl, trivial, hSafe₃.forget⟩
      · exact emitSpace_leads hSafe₂ (fun _ => rfl) fun _ => trivial
    · exact emitSpace_leads hSafe₂ (fun _ => rfl) fun _ => trivial
  · rename_i hText
    exact textStart_leads hSafe₁ hText (Scan.progressive_nextAfter _ _ _ _ hOk).reaches.offset_le hOpen

theorem closeTag_leads (hSafe : Safe least c known s) (ch : CodePoint) (opened : Bool) :
    Leads least c (closeTag ch opened s) (Lex.closeTag ch opened s) := by
  refine .lift (settles_require _ _ _ hSafe) fun _ s₁ _ hSafe₁ => ?_
  refine .bind (closeScope_eq hSafe₁) (settles_closeScope _ hSafe₁) fun _ s₂ _ hSafe₂ => .look ?_
  split
  · exact ⟨rfl, trivial, hSafe₂.forget⟩
  · rename_i hOpen
    exact content_leads hSafe₂ (by simpa using hOpen) opened

theorem tagEnd_leads (hSafe : Safe least c known s) (ch : CodePoint) :
    Leads least c (tagEnd ch s) (Lex.tagEnd ch s) := by
  unfold tagEnd Lex.tagEnd
  split
  · exact .lift (settles_popTag _ hSafe) fun _ _ _ hSafe₁ =>
      .lift (settles_next.mono (Nat.le_succ _) _ hSafe₁) fun _ _ _ hSafe₂ => closeTag_leads hSafe₂ _ false
  · exact closeTag_leads hSafe ch true

theorem tagRest_leads (hSafe : Safe least c known s) (ch : CodePoint) :
    Leads least c (tagRest ch s) (Lex.tagRest ch s) := by
  refine .lift (settles_read (Scan.steady_skipSpace ch) (Scan.forward_skipSpace ch) _ hSafe)
    fun after s₁ hAfter hSafe₁ => ?_
  obtain ⟨c₁, hOk, rfl⟩ := Lex.read_eq_ok_iff.mp hAfter
  split
  · rename_i hName
    rw [Scan.skipSpace, if_pos (Bool.and_eq_true_iff.mp hName).1] at hOk
    have hBegun := begun_of_drive hOk
    exact .last ⟨rfl, ⟨Nat.le_refl _, hBegun.last_le⟩, hSafe₁.forget⟩
  · exact tagEnd_leads hSafe₁ after

theorem startTag_leads (hSafe : Safe least c known s) (hPlace : place ≤ s.cursor.offset) :
    Leads (least + 1) c (step (.startTag place) s) ((Stage.startTag place).rest s) := by
  refine .bind (read_eq (nameRest_eq hPlace))
    (settles_read_progressive (Scan.steady_nameRest place) (Scan.progressive_nameRest place) _ hSafe.know)
    fun found s₁ hFound hSafe₁ => ?_
  obtain ⟨c₁, hOk, rfl⟩ := Lex.read_eq_ok_iff.mp hFound
  obtain ⟨ch, name⟩ := found
  have hName := (nameRest_within hPlace hOk).mono hSafe₁.offset_le
  refine .lift (settles_checkElementPrefix _ hSafe₁) fun _ s₂ _ hSafe₂ => ?_
  refine .lift (settles_openElement hName _ hSafe₂) fun _ s₃ _ hSafe₃ => ?_
  refine .test (decide_eq_true hSafe₃.opened) ?_
  refine .bind (packed_eq hSafe₃ _) (settles_emitElement _ _ hSafe₃) fun _ s₄ _ hSafe₄ => ?_
  exact .lift (settles_enterScope hName _ hSafe₄) fun _ s₅ _ hSafe₅ => tagRest_leads hSafe₅ ch

theorem readAttribute_eq (first : CodePoint) : Lex.readAttribute place first = (do
    let (ch, role) ← Lex.read (Scan.attributeRole first)
    let (ch, name) ← Lex.read (Scan.nameFrom place ch)
    let role ← Lex.settleRole role name
    Lex.addAttribute name
    Lex.emitName (if role.declares then .namespaceName else .attributeName) name
    Lex.noteAttribute role name
    let quote ← Lex.read (Scan.openAttribute ch)
    valueRest role quote) := by
  unfold Lex.readAttribute Lex.attributeValue valueRest
  simp only [bind_assoc, pure_bind]

theorem attributeName_leads {first : CodePoint} (hSafe : Safe least c known s) (hBegun : Begun place s.cursor) :
    Leads (least + 1) c (step (.attributeName place first) s) ((Stage.attributeName place first).action s) := by
  rw [Stage.action, readAttribute_eq]
  refine .lift (settles_read (Scan.steady_attributeRole first) (Scan.forward_attributeRole first) _ hSafe.know)
    fun found s₁ hRole hSafe₁ => ?_
  obtain ⟨c₁, hOk₁, rfl⟩ := Lex.read_eq_ok_iff.mp hRole
  obtain ⟨ch, role⟩ := found
  have hBegun₁ := hBegun.attributeRole hOk₁
  refine .bind (read_eq (nameFrom_eq hBegun₁.place_le hBegun₁.last_le))
    (settles_read (Scan.steady_nameFrom place ch) (Scan.forward_nameFrom place ch) _ hSafe₁)
    fun found s₂ hFound hSafe₂ => ?_
  obtain ⟨c₂, hOk₂, rfl⟩ := Lex.read_eq_ok_iff.mp hFound
  obtain ⟨ch, name⟩ := found
  have hName := (nameFrom_within hBegun₁.place_le hBegun₁.last_le hOk₂).mono hSafe₂.offset_le
  have hEncoding : c₁.encoding = s.cursor.encoding := hSafe₁.encoding_eq _ rfl
  rw [hEncoding] at hName
  refine .lift (settles_settleRole _ _ hSafe₂) fun role s₃ _ hSafe₃ => ?_
  refine .bind (addAttribute_eq hSafe₃ hName) (settles_addAttribute hName _ hSafe₃) fun _ s₄ _ hSafe₄ => ?_
  refine .bind (packed_eq hSafe₄ _) (settles_emitName _ _ _ hSafe₄) fun _ s₅ _ hSafe₅ => ?_
  refine .lift (settles_noteAttribute role hName _ hSafe₅) fun _ s₆ _ hSafe₆ => ?_
  exact .lift (settles_read_progressive (Scan.steady_openAttribute ch) (progressive_openAttribute ch) _ hSafe₆)
    fun _ _ _ hSafe₇ => ⟨rfl, trivial, hSafe₇.forget⟩

theorem attributeValue_leads {role : AttributeRole} {quote : CodePoint} (hSafe : Safe least c known s) :
    Leads (least + 1) c (step (.attributeValue role quote) s) ((Stage.attributeValue role quote).rest s) := by
  refine .offset (.bind (read_eq (congrFun (attributeValue_eq quote) _)) (settles_drive _ _ _ hSafe)
    fun _ s₁ hValue hSafe₁ => ?_)
  obtain ⟨c₁, hOk, rfl⟩ := Lex.read_eq_ok_iff.mp hValue
  refine .last (.distance (begun_of_drive hOk).place_le ?_)
  refine .lift (settles_bindValue _ _ _ hSafe₁) fun _ s₂ _ hSafe₂ => ?_
  refine .bind (packed_eq hSafe₂ _) (settles_emitBounded _ _ _ hSafe₂) fun _ s₃ _ hSafe₃ => ?_
  exact .lift (settles_next.mono (Nat.le_succ _) _ hSafe₃) fun ch s₄ _ hSafe₄ => tagRest_leads hSafe₄ ch

theorem start_leads (hSafe : Safe least c known s) : Leads (least + 1) c (step .start s) (Stage.start.action s) := by
  refine .lift (settles_next _ hSafe) fun ch s₁ _ hSafe₁ => ?_
  split
  · refine .lift (settles_read Scan.steady_opensDeclaration.orRewind Scan.forward_opensDeclaration.orRewind _ hSafe₁)
      fun found s₂ _ hSafe₂ => ?_
    split
    · exact .lift (settles_nextAfterSpace.mono (Nat.le_succ _) _ hSafe₂) fun _ _ _ hSafe₃ =>
        ⟨rfl, trivial, hSafe₃.forget⟩
    · exact ⟨rfl, trivial, hSafe₂.forget⟩
  · refine .lift (settles_require _ _ _ hSafe₁) fun _ s₂ _ hSafe₂ => ?_
    exact .lift (settles_nextAfterSpace.mono (Nat.le_succ _) _ hSafe₂) fun _ _ _ hSafe₃ =>
      .lift (settles_require _ _ _ hSafe₃) fun _ _ _ hSafe₄ => ⟨rfl, trivial, hSafe₄.forget⟩

theorem declaration_leads {first : CodePoint} (hSafe : Safe least c none s) :
    Leads (least + 1) c (step (.declaration first) s) ((Stage.declaration first).rest s) :=
  .bind (declaration_eq hSafe first) (settles_declaration first _ hSafe) fun _ _ _ hSafe₁ => ⟨rfl, trivial, hSafe₁⟩

theorem markup_leads (hSafe : Safe least c known s) : Leads (least + 1) c (step .markup s) (Stage.markup.action s) := by
  refine .offset (.lift (settles_next _ hSafe) fun ch s₁ hNext hSafe₁ => ?_)
  obtain ⟨c₁, hOk, rfl⟩ := Lex.read_eq_ok_iff.mp hNext
  split
  · exact ⟨rfl, (Scan.progressive_next _ _ _ hOk).reaches.offset_le, hSafe₁.forget⟩
  · split
    · exact ⟨rfl, trivial, hSafe₁.forget⟩
    · split
      · exact ⟨rfl, trivial, hSafe₁.forget⟩
      · split
        · exact declared_leads hSafe₁
        · exact ⟨rfl, hSafe₁.range⟩

/-- Where no document may end, a step leads on from every stage. -/
theorem step_leads {stage : Stage} (hSafe : Safe least c none s) (hFits : stage.Fits s) (hStage : stage ≠ .epilog) :
    Leads (least + 1) c (step stage s) (stage.action s) := by
  cases stage with
  | start => exact start_leads hSafe
  | declaration first => exact declaration_leads hSafe
  | markup => exact markup_leads hSafe
  | startTag place => exact startTag_leads hSafe hFits
  | attributeName place first => exact attributeName_leads hSafe hFits
  | attributeValue role quote => exact attributeValue_leads hSafe
  | text place => exact text_leads hSafe hFits
  | endTag => exact endTag_leads hSafe
  | instruction => exact instruction_leads hSafe
  | instructionData => exact instructionData_leads hSafe
  | comment => exact comment_leads hSafe
  | characterSection => exact characterSection_leads hSafe hFits
  | documentType => exact documentType_leads hSafe hFits
  | epilog => exact absurd rfl hStage
  | lastComment => exact lastComment_leads hSafe
  | lastInstruction => exact lastInstruction_leads hSafe

def lastMarkupRest (ch : CodePoint) : Lex Phase := do
  Lex.require (ch = CodePoint.lessThan) .notTerminated
  match ← Lex.read Scan.tail with
  | .comment => Stage.lastComment.rest
  | .instruction => Stage.lastInstruction.rest

theorem lastMarkup_leads (hSafe : Safe least c known s) (ch : CodePoint) :
    Leads least c (lastMarkup ch s) (lastMarkupRest ch s) := by
  refine .lift (settles_require _ _ _ hSafe) fun _ s₁ _ hSafe₁ => ?_
  refine .lift (settles_read Scan.steady_tail Scan.forward_tail _ hSafe₁) fun found s₂ _ hSafe₂ => ?_
  cases found with
  | comment => exact ⟨rfl, trivial, hSafe₂.forget⟩
  | instruction => exact ⟨rfl, trivial, hSafe₂.forget⟩

theorem ne_endOfDocument_of_tail {c c' : Cursor} {fault : Fault} (hError : Scan.tail c = .error fault c') :
    fault ≠ .endOfDocument := by
  unfold Scan.tail at hError
  dsimp only at hError
  split at hError
  · cases hError
    exact nofun
  · rename_i hOther
    rintro rfl
    exact hOther _ hError

/-- The end of the document is no fault of the markup after the root. -/
theorem ne_endOfDocument_of_lastMarkup {s' : Lexer} {ch : CodePoint} {fault : Fault}
    (hError : lastMarkup ch s = .error (.fault fault) s') : fault ≠ .endOfDocument := by
  unfold lastMarkup Lex.require at hError
  by_cases hMarkup : ch = CodePoint.lessThan
  · rw [if_pos (decide_eq_true hMarkup)] at hError
    change EStateM.bind (lift (Lex.read Scan.tail)) _ s = _ at hError
    unfold EStateM.bind lift Lex.read at hError
    cases hTail : Scan.tail s.cursor with
    | ok found c' =>
      rw [hTail] at hError
      cases found <;> cases hError
    | error fault' c' =>
      rw [hTail] at hError
      cases hError
      exact ne_endOfDocument_of_tail hTail
  · rw [if_neg (by simpa using hMarkup)] at hError
    cases hError
    exact nofun

theorem lexEpilog_of_ok {ch : CodePoint} {c' : Cursor} (hOk : Scan.nextAfterSpace s.cursor = .ok ch c') :
    Lex.epilog s = (some <$> lastMarkupRest ch) { s with cursor := c' } := by
  have hFound : Lex.read Scan.nextAfterSpace? s = .ok (some ch) { s with cursor := c' } := by
    rw [Lex.read, Scan.nextAfterSpace?, hOk]
  have hMap (markup : Lex Unit) : some <$> (markup >>= fun _ => pure Phase.epilog) =
      markup >>= fun _ => pure (some Phase.epilog) := by
    rw [map_bind]
    rfl
  rw [Lex.epilog, bind_eq_of_ok hFound, lastMarkupRest, map_bind]
  refine congrFun (bind_congr fun _ => ?_) _
  rw [map_bind]
  refine bind_congr fun found => ?_
  cases found with
  | comment => exact (hMap Lex.comment).symm
  | instruction => exact (hMap Lex.instruction).symm

end Lexing
end Guarded
end XmlIndex
