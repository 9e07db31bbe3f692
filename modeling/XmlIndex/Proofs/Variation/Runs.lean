import XmlIndex.Proofs.Variation.Elements

/-! # Runs under two settings

Phase by phase two lexers stay side by side, so they end alike. Only where the document goes on, the second
lexer may have more to read when the first is done with its root.
-/
namespace XmlIndex
set_option autoImplicit false
open Grammar XmlIndex.Lex

namespace Variation
variable {v : Variation} {c : Cursor} {s t : Lexer} {phase : Phase}

theorem steps_markupPhase : v.Steps c markup := by
  intro s t hLexers
  refine tracks_offset.bind_ok hLexers fun place s₁ t₁ hOffset hLexers₁ => ?_
  obtain ⟨rfl, rfl⟩ := read_offset_eq_ok_iff.mp hOffset
  refine tracks_next.bind_ok hLexers₁ fun ch s₂ t₂ hRead hLexers₂ => ?_
  obtain ⟨hReads, rfl⟩ := read_next_eq_ok_iff.mp hRead
  split
  · exact outcome_startTag hLexers₂ hReads ‹_›
  · refine Follows.outcome ?_ hLexers₂
    exact .ite steps_endTag
      (.ite (tracks_instruction.bind fun _ => steps_resume)
        (.ite (tracks_declared.bind fun _ => steps_resume) (follows_fail _)))

/-- What follows the character after the root, if there is one. -/
theorem follows_tail (ch : CodePoint) : v.Follows (some c)
    (fun next s t => v.Lexers (some c) s t ∧ ∀ phase ∈ next, Ready s phase) (do
      require (ch = CodePoint.lessThan) .notTerminated
      match ← read Scan.tail with
      | .comment => comment
      | .instruction => instruction
      return some .epilog) := by
  have hEpilog : v.Follows (some c) (fun next s t => v.Lexers (some c) s t ∧ ∀ phase ∈ next, Ready s phase)
      (pure (some Phase.epilog)) := by
    refine fun s t hLexers => ⟨rfl, hLexers, ?_⟩
    rintro _ ⟨⟩
    trivial
  refine (tracks_require _ _).bind fun _ => (tracks_read Scan.steady_tail).bind fun tail => ?_
  cases tail with
  | comment => exact tracks_comment.bind fun _ => hEpilog
  | instruction => exact tracks_instruction.bind fun _ => hEpilog

/-- After the root the first lexer may meet its end and be done, while the document goes on. -/
theorem outcome_epilog (hLexers : v.Lexers (some c) s t) :
    (v = .extent ∧ ∃ cursor, s.cursor.Moved cursor ∧ Lex.epilog s = .ok none { s with cursor }) ∨
      v.Outcome (fun a b s t => b = a ∧ v.Lexers (some c) s t ∧ ∀ phase ∈ a, Ready s phase)
        (Lex.epilog s) (Lex.epilog t) := by
  have hAgreed (hAgrees : Scan.Agrees s.cursor t.cursor.stop (Scan.nextAfterSpace? s.cursor)
      (Scan.nextAfterSpace? t.cursor)) : v.Outcome (fun a b s t => b = a ∧ v.Lexers (some c) s t ∧
        ∀ phase ∈ a, Ready s phase) (Lex.epilog s) (Lex.epilog t) := by
    refine (hLexers.outcome_read hAgrees).bind fun _ found s' t' _ hBoth => ?_
    obtain ⟨rfl, hLexers'⟩ := hBoth
    cases found with
    | none => exact ⟨rfl, hLexers', nofun⟩
    | some ch => exact (follows_tail ch).outcome hLexers'
  have hBoth := @Scan.nextAfterSpace?_longer s.cursor t.cursor.stop hLexers.cursors.stop_le
  rw [← hLexers.cursors.eq] at hBoth
  obtain ⟨cursor, hMoved, hNone⟩ | hAgrees := hBoth
  · by_cases hExtent : v = .extent
    · have hRead : Lex.read Scan.nextAfterSpace? s = .ok none { s with cursor } := by
        unfold Lex.read
        rw [hNone]
      refine .inl ⟨hExtent, cursor, hMoved, ?_⟩
      unfold Lex.epilog
      rw [bind_of_ok hRead]
      rfl
    · refine .inr (hAgreed ?_)
      rw [hLexers.cursors.eq_of_ne hExtent, hNone]
      exact ⟨hMoved, by rw [← hMoved.stop_eq]; rfl⟩
  · exact .inr (hAgreed hAgrees)

theorem outcome_step (hReady : Ready s phase) (hLexers : v.Lexers (some c) s t) :
    (v = .extent ∧ phase = .epilog ∧ ∃ cursor, s.cursor.Moved cursor ∧ step phase s = .ok none { s with cursor }) ∨
      v.Outcome (fun a b s t => b = a ∧ v.Lexers (some c) s t ∧ ∀ phase ∈ a, Ready s phase)
        (step phase s) (step phase t) := by
  have hSome : ∀ (phase : Phase) s t, v.Lexers (some c) s t ∧ Ready s phase →
      v.Lexers (some c) s t ∧ ∀ next ∈ some phase, Ready s next := by
    rintro phase s t ⟨hLexers, hReady⟩
    refine ⟨hLexers, ?_⟩
    rintro _ ⟨⟩
    exact hReady
  cases phase with
  | start => exact hReady.elim
  | markup => exact .inr ((steps_markupPhase.outcome hLexers).map hSome)
  | attributes place first =>
    obtain ⟨s₀, rfl, rfl, hReads, hFirst⟩ := hReady
    exact .inr ((outcome_readAttribute hLexers hReads hFirst).map hSome)
  | epilog => exact (outcome_epilog hLexers).imp_left fun h => ⟨h.1, rfl, h.2⟩

/-- The runs end alike; or the first is done, and the second goes on after its root from a lexer that stands
where the first stood before it met its end. -/
def Ends (v : Variation) (r : EStateM.Result Fault Lexer Unit) (r' : EStateM.Result Fault Lexer Unit) : Prop :=
  (v = .extent ∧ ∃ c s t cursor, v.Lexers (some c) s t ∧ s.cursor.Moved cursor ∧ r = .ok () { s with cursor } ∧
      r' = run .epilog t) ∨
    v.Outcome (fun _ _ s t => ∃ c, v.Lexers (some c) s t) r r'

theorem ends_run (hReady : Ready s phase) (hLexers : v.Lexers (some c) s t) : v.Ends (run phase s) (run phase t) := by
  have hBoth := outcome_step hReady hLexers
  have hRun : run phase t = (step phase >>= finish) t := run_eq
  -- The induction is along the first run, whose steps the second one follows.
  fun_induction run phase s generalizing t with
  | case1 phase s s₁ hStep =>
    obtain ⟨hExtent, rfl, cursor, hMoved, hDone⟩ | hBoth := hBoth
    · rw [hDone] at hStep
      cases hStep
      exact .inl ⟨hExtent, c, s, t, cursor, hLexers, hMoved, rfl, rfl⟩
    · rw [hStep] at hBoth
      obtain ⟨next, t₁, hStep', rfl, hAfter, -⟩ := hBoth.exists_ok
      rw [hRun, bind_of_ok hStep']
      exact .inr ⟨c, hAfter⟩
  | case2 phase s phase₁ s₁ hStep ih =>
    obtain ⟨hExtent, rfl, cursor, hMoved, hDone⟩ | hBoth := hBoth
    · rw [hDone] at hStep
      cases hStep
    · rw [hStep] at hBoth
      obtain ⟨next, t₁, hStep', rfl, hAfter, hNext⟩ := hBoth.exists_ok
      rw [hRun, bind_of_ok hStep']
      exact ih (hNext phase₁ rfl) hAfter (outcome_step (hNext phase₁ rfl) hAfter) run_eq
  | case3 phase s fault s₁ hStep =>
    obtain ⟨hExtent, rfl, cursor, hMoved, hDone⟩ | hBoth := hBoth
    · rw [hDone] at hStep
      cases hStep
    · rw [hStep] at hBoth
      rw [hRun]
      exact .inr hBoth.bind_of_error

theorem ends_start (hLexers : v.Lexers none s t) : v.Ends (run .start s) (run .start t) := by
  have hRun (u : Lexer) : run .start u = (start >>= run) u := run_of_step rfl
  have hBoth := follows_start s t hLexers
  rw [hRun, hRun]
  cases hShort : start s with
  | ok phase s' =>
    rw [hShort] at hBoth
    obtain ⟨phase', t', hLong, rfl, hAfter, rfl⟩ := hBoth.exists_ok
    rw [bind_of_ok hShort, bind_of_ok hLong]
    exact ends_run trivial hAfter.toFrame
  | error fault s' =>
    rw [hShort] at hBoth
    rw [Lex.bind_of_error hShort]
    exact .inr hBoth.bind_of_error

/-- Where the document ends for both lexers, the runs end alike. -/
theorem Ends.outcome {r r' : EStateM.Result Fault Lexer Unit} (hEnds : v.Ends r r') (hExtent : v ≠ .extent) :
    v.Outcome (fun _ _ s t => ∃ c, v.Lexers (some c) s t) r r' :=
  hEnds.resolve_left fun h => hExtent h.1

structure Settings (v : Variation) (options options' : Options) (namespaces namespaces' : Bool)
    (length length' : Nat) : Prop where
  levels_eq : options'.cacheDepth.levels length' = options.cacheDepth.levels length
  length_le : length ≤ length'
  length_eq : v ≠ .extent → length' = length
  namespaces_eq : v ≠ .namespaces → namespaces' = namespaces
  namespaces_off : v = .namespaces → namespaces = true ∧ namespaces' = false
  whitespace_eq : v ≠ .whitespace → options'.recordWhitespace = options.recordWhitespace
  whitespace_on : v = .whitespace → options.recordWhitespace = false ∧ options'.recordWhitespace = true

section
variable {options options' : Options} {namespaces namespaces' : Bool} {length length' offset : Nat} {doc : ByteArray}
  {detected : Detected}

theorem Settings.lexers (hSettings : v.Settings options options' namespaces namespaces' length length')
    (hFits : offset + length' < sizeLimit detected.encoding namespaces) :
    v.Lexers none (.atRange options namespaces detected doc offset length)
      (.atRange options' namespaces' detected doc offset length') where
  cursors := ⟨rfl, Nat.add_le_add_left hSettings.length_le offset, fun hSame =>
    congrArg (offset + ·) (hSettings.length_eq hSame)⟩
  framed := nofun
  aligned := id
  whole := nofun
  mark_eq := rfl
  openTags_eq := rfl
  attributes_eq := rfl
  maxDepth_eq := rfl
  hasDoctype_eq := rfl
  scopes_eq hSame := ⟨hSettings.namespaces_eq hSame, rfl⟩
  legible hSetting := ⟨(hSettings.namespaces_off hSetting).1, (hSettings.namespaces_off hSetting).2, nofun⟩
  draft_eq hSame := by
    refine ⟨hSettings.whitespace_eq hSame, ?_⟩
    simp only [Lexer.atRange, Lexer.atStart, hSettings.levels_eq]
  spaced hSetting := ⟨(hSettings.whitespace_on hSetting).1, (hSettings.whitespace_on hSetting).2, nofun⟩
  begins _ := ⟨rfl, rfl⟩
  fits e hUnit := by
    rw [sizeLimit_eq_of_unitSize hUnit]
    exact hFits

end

end Variation
end XmlIndex
