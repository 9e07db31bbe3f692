import XmlIndex.Proofs.Grammar.Outlines
import XmlIndex.Proofs.Lexer.Start

/-! # The outline of an opening

Outside the root all tokens have depth -1. Up to the first markup the lexer writes the parts of the
declaration, each a name with its value, so it leads from an outline before the root to another.
-/
namespace XmlIndex
set_option autoImplicit false
open Outline

namespace Lex
variable {α β : Type} {action : Lex α} {P Q R : Outline → Prop}

/-- While no element is open, the tokens that the action writes lead from outlines of one sort to
outlines of another. -/
def Leads (P : Outline → Prop) (action : Lex α) (Q : Outline → Prop) : Prop :=
  ∀ s a s', s.openTags = [] → action s = .ok a s' →
    s'.openTags = [] ∧ ∃ tokens, s'.tokens = s.tokens ++ tokens ∧ Outline.Leads P tokens Q

theorem Leads.bind {next : α → Lex β} (hAction : Leads P action Q) (hNext : ∀ a, Leads Q (next a) R) :
    Leads P (action >>= next) R := by
  intro s b s'' hOutside hOk
  obtain ⟨a, s', hFirst, hSecond⟩ := bind_eq_ok_iff.mp hOk
  obtain ⟨hOutsideLater, tokens, hTokens, hLeads⟩ := hAction s a s' hOutside hFirst
  obtain ⟨hOutsideLast, more, hMore, hLeadsMore⟩ := hNext a s' b s'' hOutsideLater hSecond
  refine ⟨hOutsideLast, tokens ++ more, ?_, hLeads.append hLeadsMore⟩
  rw [hMore, hTokens, List.append_assoc]

theorem Leads.ite {condition : Prop} [Decidable condition] {yes no : Lex α} (hYes : Leads P yes Q)
    (hNo : Leads P no Q) : Leads P (if condition then yes else no) Q := by
  split
  · exact hYes
  · exact hNo

/-- What writes nothing leaves the outline as it is. -/
theorem leads_of_silent (hSilent : ∀ s a s', action s = .ok a s' →
    s'.openTags = s.openTags ∧ s'.draft = s.draft) : Leads P action P := by
  intro s a s' hOutside hOk
  obtain ⟨hOpenTags, hDraft⟩ := hSilent s a s' hOk
  refine ⟨hOpenTags.trans hOutside, [], ?_, leads_nil⟩
  rw [List.append_nil, Lexer.tokens, hDraft]
  rfl

theorem leads_pure (a : α) : Leads P (pure a : Lex α) P :=
  leads_of_silent (by rintro s b s' ⟨⟩; exact ⟨rfl, rfl⟩)

theorem leads_look (view : Lexer → α) : Leads P (look view) P :=
  leads_of_silent (by rintro s b s' ⟨⟩; exact ⟨rfl, rfl⟩)

theorem leads_require (condition : Bool) (cause : SyntaxFault) : Leads P (require condition cause) P :=
  leads_of_silent fun s a s' hOk => by
    obtain ⟨-, rfl⟩ := require_eq_ok_iff.mp hOk
    exact ⟨rfl, rfl⟩

theorem leads_read (action : Scan α) : Leads P (read action) P :=
  leads_of_silent fun s a s' hOk => by
    obtain ⟨c, -, rfl⟩ := read_eq_ok_iff.mp hOk
    exact ⟨rfl, rfl⟩

/-- Whatever the encoding, tokens are left as they are. -/
theorem leads_declareEncoding (label : String) : Leads P (declareEncoding label) P :=
  leads_of_silent fun s a s' hOk => by
    obtain ⟨e, -, rfl⟩ := declareEncoding_eq_ok hOk
    exact ⟨rfl, rfl⟩

section
variable {kind : TokenKind} {span : Span}

theorem leads_emit (hToken : ∀ t : Token, t.kind = kind → t.depth = -1 → Outline.Leads P [t] Q) :
    Leads P (emit kind span) Q := by
  intro s a s' hOutside hOk
  obtain rfl := update_eq_ok_iff.mp hOk
  have hDepth : s.depth = -1 := by
    rw [Lexer.depth, hOutside]
    rfl
  exact ⟨hOutside, _, Array.toList_push, hToken _ rfl hDepth⟩

theorem leads_emitUnits {place count : Nat}
    (hToken : ∀ t : Token, t.kind = kind → t.depth = -1 → Outline.Leads P [t] Q) :
    Leads P (emitUnits kind place count) Q :=
  (leads_look _).bind fun _ => leads_emit hToken

end

section
variable {doctype : Bool}

theorem leads_versionDeclaration (ch : CodePoint) :
    Leads (Before doctype) (versionDeclaration ch) (Before doctype) :=
  (leads_read _).bind fun _ => (leads_require _ _).bind fun _ => (leads_read _).bind fun _ =>
    (leads_require _ _).bind fun _ =>
      (leads_emitUnits fun _ hKind hDepth => leads_declarationName hKind hDepth).bind fun _ =>
        (leads_read _).bind fun _ => (leads_read _).bind fun _ => (leads_read _).bind fun _ =>
          (leads_require _ _).bind fun _ =>
            (leads_emitUnits fun _ hKind hDepth => leads_declarationValue hKind hDepth).bind fun _ => leads_read _

theorem leads_encodingDeclaration : Leads (Before doctype) encodingDeclaration (Before doctype) :=
  (leads_read _).bind fun _ => (leads_read _).bind fun _ => (leads_require _ _).bind fun _ =>
    (leads_emitUnits fun _ hKind hDepth => leads_declarationName hKind hDepth).bind fun _ =>
      (leads_read _).bind fun _ => (leads_read _).bind fun _ => (leads_read _).bind fun _ =>
        (leads_read _).bind fun _ =>
          (leads_emit fun _ hKind hDepth => leads_declarationValue hKind hDepth).bind fun _ =>
            leads_declareEncoding _

theorem leads_standaloneDeclaration : Leads (Before doctype) standaloneDeclaration (Before doctype) :=
  (leads_read _).bind fun _ => (leads_read _).bind fun _ => (leads_require _ _).bind fun _ =>
    (leads_emitUnits fun _ hKind hDepth => leads_declarationName hKind hDepth).bind fun _ =>
      (leads_read _).bind fun _ => (leads_read _).bind fun _ => (leads_read _).bind fun _ =>
        (leads_emitUnits fun _ hKind hDepth => leads_declarationValue hKind hDepth).bind fun _ => leads_read _

theorem leads_optionalEncoding : Leads (Before doctype) optionalEncoding (Before doctype) :=
  (leads_read _).bind fun _ => .ite (leads_encodingDeclaration.bind fun _ => leads_read _) (leads_pure _)

theorem leads_optionalDeclarations : Leads (Before doctype) optionalDeclarations (Before doctype) :=
  leads_optionalEncoding.bind fun _ =>
    .ite (leads_standaloneDeclaration.bind fun _ => leads_read _) (leads_pure _)

theorem leads_declaration (ch : CodePoint) : Leads (Before doctype) (declaration ch) (Before doctype) :=
  (leads_versionDeclaration _).bind fun _ => leads_optionalDeclarations.bind fun _ =>
    (leads_require _ _).bind fun _ => (leads_read _).bind fun _ => (leads_require _ _).bind fun _ =>
      (leads_read _).bind fun _ => leads_require _ _

theorem leads_start : Leads (Before doctype) start (Before doctype) :=
  (leads_read _).bind fun _ =>
    .ite
      ((leads_read _).bind fun _ =>
        .ite ((leads_read _).bind fun _ => (leads_declaration _).bind fun _ => leads_pure _) (leads_pure _))
      ((leads_require _ _).bind fun _ => (leads_read _).bind fun _ => (leads_require _ _).bind fun _ => leads_pure _)

end

end Lex
end XmlIndex
