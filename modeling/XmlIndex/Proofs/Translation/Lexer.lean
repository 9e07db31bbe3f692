import XmlIndex.Proofs.Translation.Writing

/-! # The lexer over the same bytes

Each action of the lexer simulates itself, for it is composed of readings, writings and checks that
do. What is done for namespaces concerns the scopes alone; where the inner lexer has none, the outer
one does it without a trace or fails.
-/
namespace XmlIndex
set_option autoImplicit false

def Lex.Quiet {α : Type} (action : Lex α) : Prop :=
  ∀ s a s', action s = .ok a s' → ∃ scopes, s' = { s with scopes }

namespace Lex
variable {α β : Type}

theorem quiet_pure (a : α) : Quiet (pure a : Lex α) := by
  intro s b s' hOk
  cases hOk
  exact ⟨s.scopes, rfl⟩

theorem quiet_throw (fault : Fault) : Quiet (throw fault : Lex α) := by
  intro s a s' hOk
  cases hOk

theorem Quiet.bind {action : Lex α} {next : α → Lex β} (hAction : Quiet action)
    (hNext : ∀ a, Quiet (next a)) : Quiet (action >>= next) := by
  intro s b s'' hOk
  obtain ⟨a, s', hFirst, hSecond⟩ := bind_eq_ok_iff.mp hOk
  obtain ⟨scopes, rfl⟩ := hAction s a s' hFirst
  obtain ⟨scopes', rfl⟩ := hNext a _ b s'' hSecond
  exact ⟨scopes', rfl⟩

theorem Quiet.ite {condition : Prop} [Decidable condition] {yes no : Lex α} (hYes : Quiet yes)
    (hNo : Quiet no) : Quiet (if condition then yes else no) := by
  split
  · exact hYes
  · exact hNo

theorem quiet_look (view : Lexer → α) : Quiet (look view) := by
  intro s a s' hOk
  cases hOk
  exact ⟨s.scopes, rfl⟩

theorem quiet_requireAt (offset : Nat) (condition : Bool) (cause : SyntaxFault) :
    Quiet (requireAt offset condition cause) :=
  .ite (quiet_pure _) (quiet_throw _)

theorem quiet_ask (question : Cursor → Except Fault α) : Quiet (read (Scan.ask question)) := by
  intro s a s' hOk
  unfold read Scan.ask at hOk
  cases hAnswer : question s.cursor <;> rw [hAnswer] at hOk <;> cases hOk
  exact ⟨s.scopes, rfl⟩

theorem quiet_spells (span : Span) (text : String) : Quiet (spells span text) :=
  quiet_ask _

theorem quiet_scopes (change : Lexer → Namespace.Scopes) :
    Quiet (update fun s => { s with scopes := change s }) := by
  intro s a s' hOk
  cases hOk
  exact ⟨_, rfl⟩

theorem quiet_checkReserved (place : Nat) (reserved : Namespace.Reserved) :
    Quiet (checkReserved place reserved) := by
  cases reserved with
  | none => exact quiet_pure _
  | xml => exact quiet_throw _
  | xmlns => exact quiet_throw _

end Lex

namespace Overlay
variable {v : Overlay} {α β : Type} {Q : α → β → Prop}

open XmlIndex.Lex

/-- Without namespaces inside, a quiet action outside has no counterpart. -/
theorem lexes_of_quiet (hLenient : v.lenient) {action : Lex α} {b : β} (hQuiet : Quiet action)
    (hResult : ∀ s a s', action s = .ok a s' → Q a b) : v.Lexes Q action (pure b) := by
  intro s s' hLexers
  cases hOuter : action s with
  | ok a s₁ =>
    obtain ⟨scopes, rfl⟩ := hQuiet s a s₁ hOuter
    exact ⟨hResult s a _ hOuter,
      { hLexers with namespaces_eq := fun hStrict => (hStrict hLenient).elim }⟩
  | error fault s₁ => exact outcome_of_lenient hLenient _

/-- The inner lexer may leave namespaces alone; else both have them or neither. -/
def SameNamespaces (v : Overlay) (on on' : Bool) : Prop :=
  (v.lenient → on' = false) ∧ (¬v.lenient → on = on')

theorem lexes_namespacesOn : v.Lexes v.SameNamespaces namespacesOn namespacesOn :=
  lexes_look fun _ _ hLexers =>
    ⟨hLexers.namespaces_off, fun hStrict => (hLexers.namespaces_eq hStrict).1⟩

/-- The scopes change alike. -/
theorem lexes_scopes (hStrict : ¬v.lenient) {change change' : Lexer → Namespace.Scopes}
    (hChange : ∀ s s', v.Lexers s s' → v.Scoped s.scopes s'.scopes →
      v.Scoped (change s) (change' s')) :
    v.Lexes Eq (update fun s => { s with scopes := change s })
      (update fun s => { s with scopes := change' s }) :=
  lexes_update fun s s' hLexers => { hLexers with
    namespaces_eq := fun _ =>
      have hBoth := hLexers.namespaces_eq hStrict
      ⟨hBoth.1, hChange s s' hLexers hBoth.2⟩ }

inductive Phases (v : Overlay) : Phase → Phase → Prop where
  | start : v.Phases .start .start
  | markup : v.Phases .markup .markup
  | attributes {a b : Nat} (hPlace : v.Place a b) (first : CodePoint) :
    v.Phases (.attributes a first) (.attributes b first)
  | epilog : v.Phases .epilog .epilog

section Content
variable {lenient : Prop} {a b : Nat}

theorem lexes_offset : v.Follows lenient v.Place (read Scan.offset) (read Scan.offset) :=
  lexes_read reads_offset

theorem lexes_last : v.Follows lenient v.Place (read Scan.last) (read Scan.last) :=
  lexes_read reads_last

theorem lexes_nextAfterSpace :
    v.Follows lenient Eq (read Scan.nextAfterSpace) (read Scan.nextAfterSpace) :=
  lexes_read reads_nextAfterSpace

theorem lexes_text (hPlace : v.Place a b) (ch : CodePoint) :
    v.Lexes v.Phases (text a ch) (text b ch) :=
  (lexes_read (reads_text ch)).bind_eq fun _ => lexes_last.bind fun _ _ hStop =>
    (lexes_emitText _ hPlace (hPlace.sub_eq hStop)).bind_eq fun _ => simulates_pure .markup

theorem lexes_afterMarkup : v.Lexes v.Phases afterMarkup afterMarkup :=
  lexes_offset.bind fun _ _ hPlace => lexes_nextAfterSpace.bind_eq fun _ =>
    .ite
      (lexes_last.bind fun _ _ hStop => (lexes_emitSpace hPlace hStop).bind_eq fun _ =>
        simulates_pure .markup)
      (lexes_text hPlace _)

theorem lexes_betweenMarkup : v.Lexes v.Phases betweenMarkup betweenMarkup :=
  lexes_nextAfterSpace.bind_eq fun _ => (lexes_require _ _).bind_eq fun _ =>
    simulates_pure .markup

theorem lexes_resume : v.Lexes v.Phases resume resume :=
  lexes_outsideRoot.bind_eq fun _ => .ite lexes_betweenMarkup lexes_afterMarkup

end Content

theorem lexes_before {a b : Nat} (hPlace : v.Place a b) (count : Nat) :
    v.Lexes (fun span span' => v.Place span.offset span'.offset ∧ span.length = span'.length)
      (before a count) (before b count) := by
  refine lexes_offset.bind fun stop stop' hStop => lexes_unitSize.bind fun size size' hSize => ?_
  obtain ⟨rfl, -⟩ := hSize
  refine simulates_pure ⟨hPlace, ?_⟩
  simp only
  rw [hPlace.sub_eq hStop]

theorem lexes_comment : v.Lexes Eq comment comment :=
  lexes_offset.bind fun _ _ hPlace => (lexes_read reads_comment).bind_eq fun _ =>
    (lexes_before hPlace 3).bind fun _ _ hSpan => lexes_emitText _ hSpan.1 hSpan.2

theorem lexes_characterSection : v.Lexes Eq characterSection characterSection :=
  lexes_offset.bind fun _ _ hPlace => (lexes_read reads_characterSection).bind_eq fun _ =>
    (lexes_before hPlace 3).bind fun _ _ hSpan => lexes_emitText _ hSpan.1 hSpan.2

theorem lexes_instructionData : v.Lexes Eq instructionData instructionData :=
  lexes_offset.bind fun _ _ hPlace => (lexes_read reads_instructionData).bind_eq fun _ =>
    (lexes_before hPlace 2).bind fun _ _ hSpan => lexes_emitBounded _ hSpan.1 hSpan.2

theorem lexes_instruction : v.Lexes Eq instruction instruction :=
  lexes_offset.bind fun _ _ hPlace => (lexes_read reads_instructionTarget).bind_eq fun _ =>
    lexes_last.bind fun _ _ hStop =>
      (lexes_emitBounded _ hPlace (hPlace.sub_eq hStop)).bind_eq fun _ =>
        .ite
          ((lexes_read (reads_skip _)).bind_eq fun _ => (lexes_require _ _).bind_eq fun _ =>
            lexes_emit _ hStop rfl)
          ((lexes_require _ _).bind_eq fun _ => lexes_instructionData)

theorem lexes_documentType : v.Lexes Eq documentType documentType := by
  refine lexes_outsideRoot.bind_eq fun _ => (lexes_require _ _).bind_eq fun _ => ?_
  have hDoctype : v.Lexes Eq (look (·.hasDoctype)) (look (·.hasDoctype)) :=
    lexes_look fun _ _ hLexers => hLexers.hasDoctype_eq
  refine hDoctype.bind_eq fun _ => (lexes_require _ _).bind_eq fun _ => ?_
  have hUpdate : v.Lexes Eq (update ({ · with hasDoctype := true }))
      (update ({ · with hasDoctype := true })) :=
    lexes_update fun _ _ hLexers => { hLexers with hasDoctype_eq := rfl }
  exact hUpdate.bind_eq fun _ => lexes_offset.bind fun _ _ hPlace =>
    (lexes_read reads_documentType).bind_eq fun _ => lexes_last.bind fun _ _ hStop =>
      lexes_emitBounded _ hPlace (hPlace.sub_eq hStop)

theorem lexes_declared : v.Lexes Eq declared declared :=
  (lexes_read reads_next).bind_eq fun _ =>
    .ite
      ((lexes_read (reads_skip _)).bind_eq fun _ => (lexes_require _ _).bind_eq fun _ =>
        lexes_comment)
      (.ite
        ((lexes_read (reads_skipAll _)).bind_eq fun _ => (lexes_require _ _).bind_eq fun _ =>
          lexes_outsideRoot.bind_eq fun _ => (lexes_require _ _).bind_eq fun _ =>
            lexes_characterSection)
        (.ite
          ((lexes_read (reads_skipAll _)).bind_eq fun _ => (lexes_require _ _).bind_eq fun _ =>
            lexes_documentType)
          (lexes_fail _)))

end Overlay
end XmlIndex
