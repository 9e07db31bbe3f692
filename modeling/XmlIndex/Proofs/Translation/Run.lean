import XmlIndex.Proofs.Lexer.Awaiting
import XmlIndex.Proofs.Translation.Elements

/-! # Runs over the same bytes

Phase by phase the two lexers stay together, so they end in the same way. From this follow both uses
of an overlay: a range is parsed as the document that it is, and to leave namespaces alone only
accepts more.
-/
namespace XmlIndex
set_option autoImplicit false

namespace Overlay
variable {v : Overlay}

open XmlIndex.Lex

/-- Up to the first markup namespaces do not matter, so neither lexer fails alone. -/
theorem lexes_start {lenient : Prop} : v.Follows lenient v.Phases start start :=
  (lexes_read reads_next).bind_eq fun _ =>
    .ite
      ((lexes_read (reads_orRewind reads_opensDeclaration)).bind_eq fun _ =>
        .ite
          (lexes_nextAfterSpace.bind_eq fun first => (lexes_declaration first).bind_eq fun _ =>
            simulates_pure .markup)
          (simulates_pure .markup))
      ((lexes_require _ _).bind_eq fun _ => lexes_nextAfterSpace.bind_eq fun _ =>
        (lexes_require _ _).bind_eq fun _ => simulates_pure .markup)

theorem lexes_markup : v.Lexes v.Phases markup markup :=
  lexes_offset.bind fun _ _ hPlace => (lexes_read reads_next).bind_eq fun _ =>
    .ite (lexes_startTag hPlace)
      (.ite lexes_endTag
        (.ite (lexes_instruction.bind_eq fun _ => lexes_resume)
          (.ite (lexes_declared.bind_eq fun _ => lexes_resume) (lexes_fail _))))

theorem lexes_epilog : v.Lexes (Option.Rel v.Phases) epilog epilog := by
  refine (lexes_read reads_nextAfterSpace?).bind_eq fun found => ?_
  cases found with
  | none => exact simulates_pure .none
  | some ch =>
    refine (lexes_require _ _).bind_eq fun _ => (lexes_read reads_tail).bind_eq fun tail => ?_
    cases tail with
    | comment => exact lexes_comment.bind_eq fun _ => simulates_pure (.some .epilog)
    | instruction => exact lexes_instruction.bind_eq fun _ => simulates_pure (.some .epilog)

theorem lexes_step {phase phase' : Phase} (hPhases : v.Phases phase phase') :
    v.Lexes (Option.Rel v.Phases) (step phase) (step phase') := by
  cases hPhases with
  | start => exact lexes_start.map fun _ _ => .some
  | markup => exact lexes_markup.map fun _ _ => .some
  | attributes hPlace first => exact (lexes_readAttribute hPlace first).map fun _ _ => .some
  | epilog => exact lexes_epilog

/-- Induction along the outer run, whose steps the inner one follows. -/
theorem lexes_run {phase phase' : Phase} (hPhases : v.Phases phase phase') :
    v.Lexes Eq (run phase) (run phase') := by
  intro s s' hLexers
  have hBoth := lexes_step hPhases s s' hLexers
  fun_induction run phase s generalizing phase' s' with
  | case1 phase s s₁ hStep =>
    rw [hStep] at hBoth
    have hRun : run phase' s' = (step phase' >>= finish) s' := run_eq
    cases hStep' : step phase' s' with
    | ok next s₁' =>
      rw [hStep'] at hBoth
      obtain ⟨hNone, hAfter⟩ := hBoth
      cases hNone
      rw [hRun, bind_of_ok hStep']
      exact ⟨rfl, hAfter⟩
    | error fault s₁' =>
      rw [hStep'] at hBoth
      exact hBoth.elim
  | case2 phase s phase₁ s₁ hStep ih =>
    rw [hStep] at hBoth
    have hRun : run phase' s' = (step phase' >>= finish) s' := run_eq
    cases hStep' : step phase' s' with
    | ok next s₁' =>
      rw [hStep'] at hBoth
      obtain ⟨hSome, hAfter⟩ := hBoth
      cases hSome with
      | some hNext =>
        rw [hRun, bind_of_ok hStep']
        exact ih hNext s₁' hAfter (lexes_step hNext s₁ s₁' hAfter)
    | error fault s₁' =>
      rw [hStep'] at hBoth
      exact hBoth.elim
  | case3 phase s fault s₁ hStep =>
    rw [hStep] at hBoth
    cases hStep' : step phase' s' with
    | ok next s₁' =>
      rw [hStep'] at hBoth
      exact outcome_of_lenient hBoth _
    | error fault' s₁' =>
      rw [hStep'] at hBoth
      rw [run_eq, bind_of_error hStep']
      exact hBoth

end Overlay
end XmlIndex
