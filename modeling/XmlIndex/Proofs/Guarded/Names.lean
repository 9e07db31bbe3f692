import Mathlib.Data.List.Infix
import XmlIndex.Proofs.Guarded.Runs
import XmlIndex.Proofs.Lexer.Preamble

/-! # Names of open elements

The lexer knows an open element by the stretch where its name stands. Only a start tag adds such a stretch, which is
a name by then; whatever else is done leaves the range and the encoding as they are and opens nothing. The declaration
alone changes the encoding, before anything is open.
-/
namespace XmlIndex
set_option autoImplicit false
open Grammar

structure Cursor.SameSource (c c' : Cursor) : Prop extends c.SameRange c' where
  encoding_eq : c'.encoding = c.encoding

theorem Cursor.Moved.sameSource {c c' : Cursor} (hMoved : c.Moved c') : c.SameSource c' :=
  ⟨hMoved.sameRange, hMoved.encoding_eq⟩

theorem Cursor.SameSource.refl {c : Cursor} : c.SameSource c :=
  ⟨⟨rfl, rfl, rfl⟩, rfl⟩

theorem Cursor.SameSource.trans {c c' c'' : Cursor} (hFirst : c.SameSource c') (hSecond : c'.SameSource c'') :
    c.SameSource c'' :=
  ⟨hFirst.toSameRange.trans hSecond.toSameRange, hSecond.encoding_eq.trans hFirst.encoding_eq⟩

namespace Lexer
variable {s s' : Lexer}

def HasNames (s : Lexer) : Prop :=
  ∀ tag ∈ s.openTags, ∃ name, IsName name ∧ s.cursor.Covers tag name

theorem hasNames_of_nil (hOutside : s.openTags = []) : s.HasNames := by
  intro tag hTag
  rw [hOutside] at hTag
  cases hTag

theorem HasNames.later (hNames : s.HasNames) (hSource : s.cursor.SameSource s'.cursor)
    (hTags : s'.openTags ⊆ s.openTags) : s'.HasNames := by
  intro tag hTag
  obtain ⟨name, hName, hCovers⟩ := hNames tag (hTags hTag)
  exact ⟨name, hName, hCovers.congr hSource.doc_eq hSource.stop_eq hSource.encoding_eq⟩

end Lexer

namespace Lex
variable {α : Type}

theorem names_read {action : Scan α} (hSteady : Scan.Steady action) : Keeps Lexer.HasNames (read action) := by
  intro s a s' hNames hOk
  obtain ⟨c, hRead, rfl⟩ := read_eq_ok_iff.mp hOk
  have hMoved := Guarded.moved_of_steady hSteady s.cursor
  rw [hRead] at hMoved
  exact hNames.later hMoved.sameSource (List.Subset.refl _)

/-- Asking leaves any property as it is. -/
theorem keeps_ask {I : Lexer → Prop} (question : Cursor → Except Fault α) : Keeps I (read (Scan.ask question)) := by
  intro s a s' hHolds hOk
  obtain ⟨c, hRead, rfl⟩ := read_eq_ok_iff.mp hOk
  unfold Scan.ask at hRead
  split at hRead <;> cases hRead
  exact hHolds

theorem eq_of_checkElementPrefix {name : Name} {s s' : Lexer} {u : Unit} (hOk : checkElementPrefix name s = .ok u s') :
    s' = s :=
  Eq.symm <| Keeps.bind (keeps_look _)
    (fun _ => .ite ((keeps_ask _).bind fun _ => keeps_requireAt _ _ _) (keeps_pure _)) s u s' rfl hOk

theorem names_update {change : Lexer → Lexer}
    (hChange : ∀ s, (change s).cursor = s.cursor ∧ (change s).openTags ⊆ s.openTags) :
    Keeps Lexer.HasNames (update change) := by
  refine keeps_update fun s hNames => hNames.later ?_ (hChange s).2
  rw [(hChange s).1]
  exact .refl

/-- A change that concerns neither the cursor nor the open elements. -/
theorem names_note {change : Lexer → Lexer}
    (hChange : ∀ s, (change s).cursor = s.cursor ∧ (change s).openTags = s.openTags) :
    Keeps Lexer.HasNames (update change) :=
  names_update fun s => ⟨(hChange s).1, (hChange s).2 ▸ List.Subset.refl _⟩

theorem names_emit (kind : TokenKind) (span : Span) : Keeps Lexer.HasNames (emit kind span) :=
  names_note fun _ => ⟨rfl, rfl⟩

theorem names_emitBounded (kind : TokenKind) (span : Span) : Keeps Lexer.HasNames (emitBounded kind span) :=
  (keeps_look _).bind fun _ => (keeps_requireAt _ _ _).bind fun _ => names_emit _ _

theorem names_emitText (kind : TokenKind) (span : Span) : Keeps Lexer.HasNames (emitText kind span) :=
  names_note fun _ => ⟨rfl, rfl⟩

theorem names_emitName (kind : TokenKind) (name : Name) : Keeps Lexer.HasNames (emitName kind name) :=
  (keeps_checkName _).bind fun _ => names_note fun _ => ⟨rfl, rfl⟩

theorem names_emitElement (name : Name) : Keeps Lexer.HasNames (emitElement name) :=
  (keeps_checkName _).bind fun _ => names_note fun _ => ⟨rfl, rfl⟩

theorem names_enterScope (name : Name) : Keeps Lexer.HasNames (enterScope name) :=
  (keeps_look _).bind fun _ => .ite ((keeps_look _).bind fun _ => names_note fun _ => ⟨rfl, rfl⟩) (keeps_pure _)

theorem names_settleRole (role : AttributeRole) (name : Name) : Keeps Lexer.HasNames (settleRole role name) :=
  (keeps_look _).bind fun _ =>
    .ite
      ((keeps_look _).bind fun _ => (keeps_ask _).bind fun _ => (keeps_requireAt _ _ _).bind fun _ =>
        (keeps_ask _).bind fun _ => .ite (keeps_pure _) (keeps_pure _))
      (keeps_pure _)

theorem names_noteAttribute (role : AttributeRole) (name : Name) : Keeps Lexer.HasNames (noteAttribute role name) := by
  refine (keeps_look _).bind fun _ => .ite ((keeps_look _).bind fun _ => ?_) (keeps_pure _)
  cases role with
  | namespacePrefix => exact names_note fun _ => ⟨rfl, rfl⟩
  | plain => exact (keeps_ask _).bind fun _ => .ite (keeps_pure _) (names_note fun _ => ⟨rfl, rfl⟩)
  | defaultNamespace => exact keeps_pure _
  | xmlPrefix => exact keeps_pure _

theorem names_bindValue (role : AttributeRole) (value : Span) : Keeps Lexer.HasNames (bindValue role value) := by
  refine (keeps_look _).bind fun _ => .ite ((keeps_requireAt _ _ _).bind fun _ => (keeps_ask _).bind fun _ => ?_)
    (keeps_pure _)
  cases role with
  | xmlPrefix => exact keeps_requireAt _ _ _
  | namespacePrefix => exact (names_note fun _ => by exact ⟨rfl, rfl⟩).bind fun _ => keeps_checkReserved _ _
  | defaultNamespace => exact keeps_checkReserved _ _
  | plain => exact keeps_checkReserved _ _

end Lex

namespace Guarded

def StaysIn {α : Type} (action : Reading α) : Prop :=
  ∀ c a c', action c = .ok a c' → c.SameSource c'

section
variable {α β σ : Type}

theorem bind_eq_ok {ε : Type} {action : EStateM ε σ α} {next : α → EStateM ε σ β} {s s' : σ} {b : β}
    (hOk : (action >>= next) s = .ok b s') : ∃ a s₁, action s = .ok a s₁ ∧ next a s₁ = .ok b s' := by
  change EStateM.bind action next s = _ at hOk
  unfold EStateM.bind at hOk
  split at hOk
  · exact ⟨_, _, ‹_›, hOk⟩
  · cases hOk

theorem StaysIn.bind {action : Reading α} {next : α → Reading β} (hAction : StaysIn action)
    (hNext : ∀ a, StaysIn (next a)) : StaysIn (action >>= next) := by
  intro c b c' hOk
  obtain ⟨a, c₁, hFirst, hSecond⟩ := bind_eq_ok hOk
  exact (hAction _ _ _ hFirst).trans (hNext _ _ _ _ hSecond)

theorem staysIn_pure (a : α) : StaysIn (pure a : Reading α) := by
  rintro c b c' ⟨⟩
  exact .refl

theorem lift_eq_ok {action : EStateM Fault σ α} {s s' : σ} {a : α} (hOk : lift action s = .ok a s') :
    action s = .ok a s' := by
  unfold lift ofResult at hOk
  split at hOk <;> cases hOk
  assumption

theorem staysIn_lift {action : Scan α} (hSteady : Scan.Steady action) : StaysIn (lift action) := by
  intro c a c' hOk
  have hMoved := moved_of_steady hSteady c
  rw [lift_eq_ok hOk] at hMoved
  exact hMoved.sameSource

theorem ask_eq_ok {question : σ → Guarded Fault α} {s s' : σ} {a : α} (hOk : ask question s = .ok a s') : s' = s := by
  unfold ask at hOk
  split at hOk <;> cases hOk
  rfl

theorem staysIn_distance (place stop : Nat) : StaysIn (distance place stop) := by
  intro c a c' hOk
  rw [ask_eq_ok hOk]
  exact .refl

theorem staysIn_drive (machine : Automaton σ α) (test : σ → Nat → CodePoint → Option Hazard) (state : σ) :
    StaysIn (drive machine test state) := by
  intro c a c' hOk
  have hNextMoved {c c₁ : Cursor} {ch : CodePoint} (hNext : Scan.next c = .ok ch c₁) : c.SameSource c₁ := by
    have hMoved := moved_of_steady Scan.steady_next c
    rw [hNext] at hMoved
    exact hMoved.sameSource
  fun_induction drive machine test state c with
  | case1 | case2 | case5 => cases hOk
  | case3 state c ch c₁ hNext _ state' _ ih => exact (hNextMoved hNext).trans (ih hOk)
  | case4 state c ch c₁ hNext =>
    cases hOk
    exact hNextMoved hNext

theorem staysIn_feed (machine : Automaton σ α) (test : σ → Nat → CodePoint → Option Hazard) (state : σ)
    (ch : CodePoint) : StaysIn (feed machine test state ch) := by
  intro c a c' hOk
  unfold feed at hOk
  split at hOk
  · cases hOk
  · split at hOk
    · exact staysIn_drive _ _ _ _ _ _ hOk
    · cases hOk
      exact .refl
    · cases hOk

theorem staysIn_nameFrom (place : Nat) (ch : CodePoint) : StaysIn (nameFrom place ch) :=
  (staysIn_feed _ _ _ _).bind fun _ => (staysIn_lift Scan.steady_last).bind fun _ =>
    (staysIn_distance _ _).bind fun _ => (staysIn_distance _ _).bind fun _ => staysIn_pure _

theorem staysIn_skipAgain (offset length : Nat) : StaysIn (skipAgain offset length) := by
  intro c a c' hOk
  obtain ⟨c₁, _, ⟨⟩, hOk⟩ := bind_eq_ok hOk
  split at hOk
  · cases hOk
  · obtain ⟨same, _, hAsk, hOk⟩ := bind_eq_ok hOk
    obtain rfl := ask_eq_ok hAsk
    cases same <;> cases hOk
    · exact .refl
    · exact ⟨⟨rfl, rfl, rfl⟩, rfl⟩

end

namespace Lexing
variable {α β : Type}

def KeepsNames (action : Lexing α) : Prop :=
  ∀ s a s', s.HasNames → action s = .ok a s' → s'.HasNames

theorem keepsNames_pure (a : α) : KeepsNames (pure a : Lexing α) := by
  rintro s b s' hNames ⟨⟩
  exact hNames

theorem KeepsNames.bind {action : Lexing α} {next : α → Lexing β} (hAction : KeepsNames action)
    (hNext : ∀ a, KeepsNames (next a)) : KeepsNames (action >>= next) := by
  intro s b s' hNames hOk
  obtain ⟨a, s₁, hFirst, hSecond⟩ := bind_eq_ok hOk
  exact hNext a _ _ _ (hAction _ _ _ hNames hFirst) hSecond

theorem KeepsNames.ite {condition : Prop} [Decidable condition] {yes no : Lexing α} (hYes : KeepsNames yes)
    (hNo : KeepsNames no) : KeepsNames (if condition then yes else no) := by
  split
  · exact hYes
  · exact hNo

theorem keepsNames_lift {action : Lex α} (hKeeps : Lex.Keeps Lexer.HasNames action) : KeepsNames (lift action) :=
  fun s a s' hNames hOk => hKeeps s a s' hNames (lift_eq_ok hOk)

theorem keepsNames_scan {action : Scan α} (hSteady : Scan.Steady action) : KeepsNames (lift (Lex.read action)) :=
  keepsNames_lift (Lex.names_read hSteady)

theorem keepsNames_look (view : Lexer → α) : KeepsNames (lift (Lex.look view)) :=
  keepsNames_lift (Lex.keeps_look _)

theorem keepsNames_require (condition : Bool) (cause : SyntaxFault) : KeepsNames (lift (Lex.require condition cause)) :=
  keepsNames_lift (Lex.keeps_require _ _)

theorem keepsNames_requireAt (place : Nat) (condition : Bool) (cause : SyntaxFault) :
    KeepsNames (lift (Lex.requireAt place condition cause)) :=
  keepsNames_lift (Lex.keeps_requireAt _ _ _)

theorem keepsNames_ask (question : Lexer → Guarded Fault α) : KeepsNames (ask question) := by
  intro s a s' hNames hOk
  rwa [ask_eq_ok hOk]

theorem read_eq_ok {action : Reading α} {s s' : Lexer} {a : α} (hOk : read action s = .ok a s') :
    ∃ c, action s.cursor = .ok a c ∧ s' = { s with cursor := c } := by
  unfold read at hOk
  split at hOk <;> cases hOk
  exact ⟨_, ‹_›, rfl⟩

theorem keepsNames_read {action : Reading α} (hStays : StaysIn action) : KeepsNames (read action) := by
  intro s a s' hNames hOk
  obtain ⟨c, hRead, rfl⟩ := read_eq_ok hOk
  exact hNames.later (hStays _ _ _ hRead) (List.Subset.refl _)

theorem keepsNames_packed {write : Lex α} (hKeeps : Lex.Keeps Lexer.HasNames write) : KeepsNames (packed write) :=
  (keepsNames_ask _).bind fun _ => keepsNames_lift hKeeps

theorem keepsNames_emitSpace (place stop : Nat) : KeepsNames (emitSpace place stop) :=
  (keepsNames_look _).bind fun _ =>
    .ite ((keepsNames_ask _).bind fun _ => keepsNames_packed (Lex.names_emitText _ _)) (keepsNames_pure _)

theorem keepsNames_before (place count : Nat) : KeepsNames (before place count) :=
  (keepsNames_scan Scan.steady_offset).bind fun _ => (keepsNames_look _).bind fun _ =>
    (keepsNames_ask _).bind fun _ => (keepsNames_ask _).bind fun _ => keepsNames_pure _

theorem keepsNames_textStart (ch : CodePoint) : KeepsNames (read (textStart ch)) := by
  rw [textStart_eq]
  exact keepsNames_read (staysIn_lift (steady_firstText ch))

theorem keepsNames_comment : KeepsNames comment :=
  (keepsNames_scan Scan.steady_offset).bind fun _ => (keepsNames_scan (Scan.steady_drive _ _)).bind fun _ =>
    (keepsNames_before _ _).bind fun _ => (keepsNames_scan steady_closeComment).bind fun _ =>
      keepsNames_packed (Lex.names_emitText _ _)

theorem keepsNames_characterSection : KeepsNames characterSection :=
  (keepsNames_scan Scan.steady_offset).bind fun _ => (keepsNames_scan (Scan.steady_drive _ _)).bind fun _ =>
    (keepsNames_before _ _).bind fun _ => keepsNames_packed (Lex.names_emitText _ _)

theorem keepsNames_instructionData : KeepsNames instructionData :=
  (keepsNames_scan Scan.steady_offset).bind fun _ => (keepsNames_scan (Scan.steady_drive _ _)).bind fun _ =>
    (keepsNames_before _ _).bind fun _ => keepsNames_packed (Lex.names_emitBounded _ _)

theorem keepsNames_instruction : KeepsNames instruction := by
  unfold instruction
  rw [instructionTarget_eq]
  exact
    (keepsNames_scan Scan.steady_offset).bind fun _ => (keepsNames_scan Scan.steady_instructionTarget).bind fun _ =>
      (keepsNames_scan Scan.steady_last).bind fun _ => (keepsNames_ask _).bind fun _ =>
        (keepsNames_packed (Lex.names_emitBounded _ _)).bind fun _ =>
          .ite
            ((keepsNames_scan (Scan.steady_skip _)).bind fun _ => (keepsNames_require _ _).bind fun _ =>
              (keepsNames_packed (Lex.names_emit _ _)).bind fun _ => keepsNames_pure _)
            ((keepsNames_require _ _).bind fun _ => keepsNames_pure _)

theorem keepsNames_documentType : KeepsNames documentType := by
  unfold documentType
  rw [documentType_eq]
  exact
    (keepsNames_scan Scan.steady_offset).bind fun _ =>
      (keepsNames_read (staysIn_lift Scan.steady_documentType)).bind fun _ =>
        (keepsNames_scan Scan.steady_last).bind fun _ => (keepsNames_ask _).bind fun _ =>
          keepsNames_packed (Lex.names_emitBounded _ _)

theorem keepsNames_closeScope : KeepsNames closeScope := by
  intro s a s' hNames hOk
  unfold closeScope at hOk
  repeat' split at hOk
  all_goals cases hOk
  all_goals exact hNames

theorem keepsNames_addAttribute (name : Name) : KeepsNames (addAttribute name) :=
  (keepsNames_ask _).bind fun _ => (keepsNames_requireAt _ _ _).bind fun _ =>
    keepsNames_lift (Lex.names_note fun _ => ⟨rfl, rfl⟩)

end Lexing
end Guarded

/-- A start tag begins with the first character of a name, and a document with no element open. -/
def Stage.Begins (s : Lexer) : Stage → Prop
  | .start | .declaration _ => s.openTags = []
  | .startTag place => ∃ (c : Cursor) (first : CodePoint), c.offset = place ∧ c.Reads [first] ∧
      CodePoint.isNameStart first = true ∧ s.cursor = c.advance [first]
  | _ => True

namespace Guarded.Lexing
variable {α : Type} {s s' : Lexer} {stage stage' : Stage}

def LeadsOn (action : Lexing Stage) : Prop :=
  ∀ s stage s', s.HasNames → action s = .ok stage s' → s'.HasNames ∧ stage.Begins s'

theorem leadsOn_pure (hStage : ∀ s, stage.Begins s) : LeadsOn (pure stage) := by
  rintro s stage' s' hNames ⟨⟩
  exact ⟨hNames, hStage s⟩

theorem leadsOn_fail (cause : SyntaxFault) : LeadsOn (lift (Lex.fail cause)) := by
  rintro s stage' s' hNames ⟨⟩

theorem KeepsNames.leadsOn {action : Lexing α} {next : α → Lexing Stage} (hAction : KeepsNames action)
    (hNext : ∀ a, LeadsOn (next a)) : LeadsOn (action >>= next) := by
  intro s stage s' hNames hOk
  obtain ⟨a, s₁, hFirst, hSecond⟩ := bind_eq_ok hOk
  exact hNext a _ _ _ (hAction _ _ _ hNames hFirst) hSecond

theorem LeadsOn.ite {condition : Prop} [Decidable condition] {yes no : Lexing Stage} (hYes : LeadsOn yes)
    (hNo : LeadsOn no) : LeadsOn (if condition then yes else no) := by
  split
  · exact hYes
  · exact hNo

theorem leadsOn_afterMarkup : LeadsOn afterMarkup :=
  (keepsNames_scan Scan.steady_offset).leadsOn fun _ => (keepsNames_scan Scan.steady_nextAfterSpace).leadsOn fun _ =>
    .ite
      ((keepsNames_scan Scan.steady_last).leadsOn fun _ => (keepsNames_emitSpace _ _).leadsOn fun _ =>
        leadsOn_pure fun _ => trivial)
      ((keepsNames_textStart _).leadsOn fun _ => leadsOn_pure fun _ => trivial)

theorem leadsOn_betweenMarkup : LeadsOn betweenMarkup :=
  (keepsNames_scan Scan.steady_nextAfterSpace).leadsOn fun _ => (keepsNames_require _ _).leadsOn fun _ =>
    leadsOn_pure fun _ => trivial

theorem leadsOn_resume : LeadsOn resume :=
  (keepsNames_look _).leadsOn fun _ => .ite leadsOn_betweenMarkup leadsOn_afterMarkup

theorem leadsOn_text (place : Nat) : LeadsOn (text place) := by
  unfold text
  rw [text_eq]
  exact
    (keepsNames_ask _).leadsOn fun _ => (keepsNames_read (staysIn_lift (Scan.steady_drive _ _))).leadsOn fun _ =>
      (keepsNames_scan Scan.steady_last).leadsOn fun _ => (keepsNames_ask _).leadsOn fun _ =>
        (keepsNames_packed (Lex.names_emitText _ _)).leadsOn fun _ => leadsOn_pure fun _ => trivial

theorem leadsOn_declared : LeadsOn declared :=
  (keepsNames_scan Scan.steady_next).leadsOn fun _ =>
    .ite
      ((keepsNames_scan (Scan.steady_skip _)).leadsOn fun _ => (keepsNames_require _ _).leadsOn fun _ =>
        leadsOn_pure fun _ => trivial)
      (.ite
        ((keepsNames_scan (Scan.steady_skipAll _)).leadsOn fun _ => (keepsNames_require _ _).leadsOn fun _ =>
          (keepsNames_look _).leadsOn fun _ => (keepsNames_require _ _).leadsOn fun _ => leadsOn_pure fun _ => trivial)
        (.ite
          ((keepsNames_scan (Scan.steady_skipAll _)).leadsOn fun _ => (keepsNames_require _ _).leadsOn fun _ =>
            (keepsNames_look _).leadsOn fun _ => (keepsNames_require _ _).leadsOn fun _ =>
              (keepsNames_look _).leadsOn fun _ => (keepsNames_require _ _).leadsOn fun _ =>
                (keepsNames_lift (Lex.names_note fun _ => by exact ⟨rfl, rfl⟩)).leadsOn fun _ =>
                  leadsOn_pure fun _ => trivial)
          (leadsOn_fail _)))

theorem leadsOn_endTag : LeadsOn endTag := by
  refine (keepsNames_scan Scan.steady_offset).leadsOn fun place => ?_
  intro s stage s' hNames hOk
  obtain ⟨openTags, s₁, hLook, hOk⟩ := bind_eq_ok hOk
  obtain ⟨hTags, rfl⟩ := Lex.look_eq_ok_iff.mp (lift_eq_ok hLook)
  cases openTags with
  | nil => cases hOk
  | cons name rest =>
    obtain ⟨_, s₂, hTest, hTested⟩ := bind_eq_ok hOk
    rw [ask_eq_ok hTest] at hTested
    obtain ⟨same, s₃, hRead, hCompared⟩ := bind_eq_ok hTested
    obtain ⟨c₃, hAgain, rfl⟩ := read_eq_ok hRead
    obtain ⟨_, s₄, hRequire, hSame⟩ := bind_eq_ok hCompared
    obtain ⟨-, rfl⟩ := Lex.requireAt_eq_ok_iff.mp (lift_eq_ok hRequire)
    obtain ⟨_, _, ⟨⟩, hClosed⟩ := bind_eq_ok hSame
    -- The element is closed; the others have the names they had.
    have hLater : Lexer.HasNames { s₁ with cursor := c₃, openTags := rest } :=
      hNames.later (staysIn_skipAgain _ _ _ _ _ hAgain) (hTags ▸ List.subset_cons_self name rest)
    refine (keepsNames_scan Scan.steady_nextAfterSpace).leadsOn (fun _ => (keepsNames_require _ _).leadsOn fun _ => ?_)
      _ _ _ hLater hClosed
    exact .ite (leadsOn_pure fun _ => trivial) leadsOn_afterMarkup

theorem leadsOn_content (opened : Bool) : LeadsOn (content opened) :=
  (keepsNames_scan Scan.steady_offset).leadsOn fun _ => (keepsNames_scan Scan.steady_nextAfterSpace).leadsOn fun _ =>
    .ite
      ((keepsNames_scan Scan.steady_last).leadsOn fun _ => (keepsNames_scan (Scan.steady_skip _)).leadsOn fun _ =>
        .ite
          (.ite
            ((keepsNames_ask _).leadsOn fun _ => (keepsNames_packed (Lex.names_emitText _ _)).leadsOn fun _ =>
              leadsOn_pure fun _ => trivial)
            ((keepsNames_emitSpace _ _).leadsOn fun _ => leadsOn_pure fun _ => trivial))
          ((keepsNames_emitSpace _ _).leadsOn fun _ => leadsOn_pure fun _ => trivial))
      ((keepsNames_textStart _).leadsOn fun _ => leadsOn_pure fun _ => trivial)

theorem leadsOn_closeTag (ch : CodePoint) (opened : Bool) : LeadsOn (closeTag ch opened) :=
  (keepsNames_require _ _).leadsOn fun _ => keepsNames_closeScope.leadsOn fun _ => (keepsNames_look _).leadsOn fun _ =>
    .ite (leadsOn_pure fun _ => trivial) (leadsOn_content _)

theorem leadsOn_tagEnd (ch : CodePoint) : LeadsOn (tagEnd ch) :=
  .ite
    ((keepsNames_lift (Lex.names_update fun _ => by exact ⟨rfl, List.tail_subset _⟩)).leadsOn fun _ =>
      (keepsNames_scan Scan.steady_next).leadsOn fun _ => leadsOn_closeTag _ _)
    (leadsOn_closeTag _ _)

theorem leadsOn_tagRest (ch : CodePoint) : LeadsOn (tagRest ch) :=
  (keepsNames_scan (Scan.steady_skipSpace _)).leadsOn fun _ =>
    .ite ((keepsNames_scan Scan.steady_last).leadsOn fun _ => leadsOn_pure fun _ => trivial) (leadsOn_tagEnd _)

/-- The name of a start tag is added to those of the elements that are open. -/
theorem startTag_leadsOn {place : Nat} (hNames : s.HasNames) (hBegins : (Stage.startTag place).Begins s)
    (hOk : startTag place s = .ok stage s') : s'.HasNames ∧ stage.Begins s' := by
  obtain ⟨c₀, first, rfl, hFirst, hStart, hCursor⟩ := hBegins
  obtain ⟨⟨ch, name⟩, s₁, hFound, hOk⟩ := bind_eq_ok hOk
  obtain ⟨c₁, hRead, rfl⟩ := read_eq_ok hFound
  have hPlace : c₀.offset ≤ s.cursor.offset := by
    rw [hCursor, Cursor.offset_advance]
    exact Nat.le_add_right _ _
  rw [nameRest_eq hPlace, hCursor] at hRead
  have hRest : Scan.nameRest c₀.offset (c₀.advance [first]) = .ok (ch, name) c₁ := lift_eq_ok hRead
  obtain ⟨text, hText, hName, -, rfl, rfl⟩ := (Scan.nameRest_eq_ok_iff hFirst hStart).mp hRest
  have hSource : s.cursor.SameSource (c₀.advance (text ++ [ch])) := by
    rw [hCursor]
    exact ⟨⟨by simp, by simp, by simp⟩, by simp⟩
  have hCovers : (c₀.advance (text ++ [ch])).Covers (Scan.nameAt c₀.encoding c₀.offset text).span text :=
    (Scan.covers_nameAt (Cursor.reads_append.mp hText).1).congr (by simp) (by simp) (by simp)
  have hNames₁ : Lexer.HasNames { s with cursor := c₀.advance (text ++ [ch]) } :=
    hNames.later hSource (List.Subset.refl _)
  obtain ⟨_, s₂, hCheck, hChecked⟩ := bind_eq_ok hOk
  rw [Lex.eq_of_checkElementPrefix (lift_eq_ok hCheck)] at hChecked
  obtain ⟨_, s₃, hOpen, hOpened⟩ := bind_eq_ok hChecked
  obtain ⟨-, rfl⟩ := Lex.openElement_eq_ok_iff.mp (lift_eq_ok hOpen)
  have hPushed : (Lexer.push { s with cursor := c₀.advance (text ++ [ch]) }
      (Scan.nameAt c₀.encoding c₀.offset text)).HasNames :=
    List.forall_mem_cons.mpr ⟨⟨text, hName, hCovers⟩, hNames₁⟩
  refine (keepsNames_ask _).leadsOn (fun _ => (keepsNames_packed (Lex.names_emitElement _)).leadsOn fun _ =>
    (keepsNames_lift (Lex.names_enterScope _)).leadsOn fun _ => leadsOn_tagRest ch) _ _ _ hPushed hOpened

theorem leadsOn_attributeName (place : Nat) (first : CodePoint) : LeadsOn (attributeName place first) :=
  (keepsNames_scan (Scan.steady_attributeRole _)).leadsOn fun _ =>
    (keepsNames_read (staysIn_nameFrom _ _)).leadsOn fun _ =>
      (keepsNames_lift (Lex.names_settleRole _ _)).leadsOn fun _ => (keepsNames_addAttribute _).leadsOn fun _ =>
        (keepsNames_packed (Lex.names_emitName _ _)).leadsOn fun _ =>
          (keepsNames_lift (Lex.names_noteAttribute _ _)).leadsOn fun _ =>
            (keepsNames_scan (Scan.steady_openAttribute _)).leadsOn fun _ => leadsOn_pure fun _ => trivial

theorem leadsOn_attributeValue (role : AttributeRole) (quote : CodePoint) : LeadsOn (attributeValue role quote) := by
  unfold attributeValue
  rw [attributeValue_eq]
  exact
    (keepsNames_scan Scan.steady_offset).leadsOn fun _ =>
      (keepsNames_read (staysIn_lift (Scan.steady_attributeValue _))).leadsOn fun _ =>
        (keepsNames_scan Scan.steady_last).leadsOn fun _ => (keepsNames_ask _).leadsOn fun _ =>
          (keepsNames_lift (Lex.names_bindValue _ _)).leadsOn fun _ =>
            (keepsNames_packed (Lex.names_emitBounded _ _)).leadsOn fun _ =>
              (keepsNames_scan Scan.steady_next).leadsOn fun _ => leadsOn_tagRest _

theorem start_leadsOn (hOutside : s.openTags = []) (hOk : start s = .ok stage s') :
    s'.openTags = [] ∧ stage.Begins s' := by
  obtain ⟨ch, s₁, hNext, hRest⟩ := bind_eq_ok hOk
  obtain ⟨c₁, -, rfl⟩ := Lex.read_eq_ok_iff.mp (lift_eq_ok hNext)
  split at hRest
  · obtain ⟨found, s₂, hOpens, hFound⟩ := bind_eq_ok hRest
    obtain ⟨c₂, -, rfl⟩ := Lex.read_eq_ok_iff.mp (lift_eq_ok hOpens)
    split at hFound
    · obtain ⟨first, s₃, hFirst, hDeclaration⟩ := bind_eq_ok hFound
      obtain ⟨c₃, -, rfl⟩ := Lex.read_eq_ok_iff.mp (lift_eq_ok hFirst)
      cases hDeclaration
      exact ⟨hOutside, hOutside⟩
    · cases hFound
      exact ⟨hOutside, trivial⟩
  · obtain ⟨_, s₂, hSpace, hSpaced⟩ := bind_eq_ok hRest
    obtain ⟨-, rfl⟩ := Lex.require_eq_ok_iff.mp (lift_eq_ok hSpace)
    obtain ⟨next, s₃, hNext, hMarkup⟩ := bind_eq_ok hSpaced
    obtain ⟨c₃, -, rfl⟩ := Lex.read_eq_ok_iff.mp (lift_eq_ok hNext)
    obtain ⟨_, s₄, hLess, hDone⟩ := bind_eq_ok hMarkup
    obtain ⟨-, rfl⟩ := Lex.require_eq_ok_iff.mp (lift_eq_ok hLess)
    cases hDone
    exact ⟨hOutside, trivial⟩

theorem markup_leadsOn (hNames : s.HasNames) (hOk : markup s = .ok stage s') : s'.HasNames ∧ stage.Begins s' := by
  obtain ⟨place, s₁, hOffset, hRest⟩ := bind_eq_ok hOk
  obtain ⟨rfl, rfl⟩ := Lex.read_offset_eq_ok_iff.mp (lift_eq_ok hOffset)
  obtain ⟨first, s₂, hNext, hMarkup⟩ := bind_eq_ok hRest
  obtain ⟨c₂, hRead, rfl⟩ := Lex.read_eq_ok_iff.mp (lift_eq_ok hNext)
  have hNames₂ := keepsNames_scan Scan.steady_next _ _ _ hNames hNext
  split at hMarkup
  · obtain ⟨hFirst, rfl⟩ := Scan.next_eq_ok_iff.mp hRead
    cases hMarkup
    exact ⟨hNames₂, _, first, rfl, hFirst, ‹_›, rfl⟩
  · have hEndTag := @leadsOn_pure .endTag fun _ => trivial
    have hInstruction := @leadsOn_pure .instruction fun _ => trivial
    exact LeadsOn.ite hEndTag (.ite hInstruction (.ite leadsOn_declared (leadsOn_fail _))) _ _ _ hNames₂ hMarkup

theorem leadsOn_epilog : LeadsOn epilog := by
  refine (keepsNames_scan Scan.steady_nextAfterSpace).leadsOn fun _ => (keepsNames_require _ _).leadsOn fun _ =>
    (keepsNames_scan Scan.steady_tail).leadsOn fun found => ?_
  cases found with
  | comment => exact @leadsOn_pure .lastComment fun _ => trivial
  | instruction => exact @leadsOn_pure .lastInstruction fun _ => trivial

/-- A step names what it opens. -/
theorem step_leadsOn {c : Cursor} (hSafe : Safe s.cursor.offset c none s) (hNames : s.HasNames) (hBegins : stage.Begins s)
    (hOk : step stage s = .ok stage' s') : s'.HasNames ∧ stage'.Begins s' := by
  cases stage with
  | start =>
    obtain ⟨hOutside, hBegins'⟩ := start_leadsOn hBegins hOk
    exact ⟨Lexer.hasNames_of_nil hOutside, hBegins'⟩
  | declaration first =>
    obtain ⟨_, s₁, hDeclaration, ⟨⟩⟩ := bind_eq_ok hOk
    rw [declaration_eq hSafe] at hDeclaration
    have hOutside := (@Lex.leads_declaration false first s () _ hBegins (lift_eq_ok hDeclaration)).1
    exact ⟨Lexer.hasNames_of_nil hOutside, trivial⟩
  | markup => exact markup_leadsOn hNames hOk
  | startTag place => exact startTag_leadsOn hNames hBegins hOk
  | attributeName place first => exact leadsOn_attributeName _ _ _ _ _ hNames hOk
  | attributeValue role quote => exact leadsOn_attributeValue _ _ _ _ _ hNames hOk
  | text place => exact leadsOn_text _ _ _ _ hNames hOk
  | endTag => exact leadsOn_endTag _ _ _ hNames hOk
  | instruction =>
    refine keepsNames_instruction.leadsOn (fun _ => .ite ?_ leadsOn_resume) _ _ _ hNames hOk
    exact @leadsOn_pure .instructionData fun _ => trivial
  | instructionData => exact keepsNames_instructionData.leadsOn (fun _ => leadsOn_resume) _ _ _ hNames hOk
  | comment => exact keepsNames_comment.leadsOn (fun _ => leadsOn_resume) _ _ _ hNames hOk
  | characterSection => exact keepsNames_characterSection.leadsOn (fun _ => leadsOn_afterMarkup) _ _ _ hNames hOk
  | documentType => exact keepsNames_documentType.leadsOn (fun _ => leadsOn_betweenMarkup) _ _ _ hNames hOk
  | epilog => exact leadsOn_epilog _ _ _ hNames hOk
  | lastComment =>
    exact keepsNames_comment.leadsOn (fun _ => @leadsOn_pure .epilog fun _ => trivial) _ _ _ hNames hOk
  | lastInstruction =>
    have hEpilog := @leadsOn_pure .epilog fun _ => trivial
    exact keepsNames_instruction.leadsOn (fun _ => .ite (keepsNames_instructionData.leadsOn fun _ => hEpilog) hEpilog)
      _ _ _ hNames hOk

/-- Wherever a run comes to, the elements that are open there have names. -/
theorem Reachable.hasNames {c : Cursor} {first : Lexer} (hFirst : Safe first.cursor.offset c none first)
    (hOutside : first.openTags = []) (hReachable : Reachable first stage s) : s.HasNames ∧ stage.Begins s := by
  induction hReachable with
  | start => exact ⟨Lexer.hasNames_of_nil hOutside, hOutside⟩
  | step hEarlier hStep ih => exact step_leadsOn (hEarlier.safe hFirst).1 ih.1 ih.2 hStep

end Guarded.Lexing
end XmlIndex
