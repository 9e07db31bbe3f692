import XmlIndex.Proofs.Parse.Runs
import XmlIndex.Proofs.Variation.Runs

/-! # Namespaces only restrict

A document parsed with namespaces is parsed as without them, or is refused for its names in namespaces. So
to heed them changes no token and no other fault.
-/
namespace XmlIndex
set_option autoImplicit false

section
variable {options : Options} {doc : ByteArray} {offset length : Nat}

theorem Lexer.failure_congr {s t : Lexer} (hCursor : t.cursor = s.cursor) (fault : Fault) :
    t.failure fault = s.failure fault := by
  unfold Lexer.failure
  rw [hCursor]

theorem Lexer.fault_failure (s : Lexer) (fault : Fault) : (s.failure fault).fault = fault := by
  cases fault <;> rfl

/-- The size limit aside, what is detected does not depend on namespaces. -/
theorem detect_withoutNamespaces {stop : Nat}
    (hSize : ∀ detected, Detected.ofHead (headBytes doc offset stop) = .ok detected →
      stop < sizeLimit detected.encoding true) :
    detect doc offset stop false = detect doc offset stop true := by
  refine detect_congr Iff.rfl rfl fun detected hHead => ?_
  have hFits := hSize detected hHead
  exact ⟨Nat.lt_of_lt_of_le hFits (sizeLimit_le _ _), hFits⟩

theorem outcome_withoutNamespaces {detected : Detected} (hFits : offset + length < sizeLimit detected.encoding true) :
    Variation.namespaces.Outcome (fun _ _ s t => ∃ c, Variation.namespaces.Lexers (some c) s t)
      (Lex.run .start (.atRange options true detected doc offset length))
      (Lex.run .start (.atRange options false detected doc offset length)) := by
  have hSettings : Variation.namespaces.Settings options options true false length length :=
    { levels_eq := rfl
      length_le := Nat.le_refl _
      length_eq := fun _ => rfl
      namespaces_eq := fun h => absurd rfl h
      namespaces_off := fun _ => ⟨rfl, rfl⟩
      whitespace_eq := fun _ => rfl
      whitespace_on := nofun }
  exact (Variation.ends_start (hSettings.lexers hFits)).outcome nofun

/-- A parse with namespaces ends as that without them, but for the flag that the index keeps, or it fails for
names in namespaces. -/
theorem parseRange_namespaces_cases
    (hSize : ∀ detected, Detected.ofHead (headBytes doc offset (offset + length)) = .ok detected →
      offset + length ≤ doc.size → offset + length < sizeLimit detected.encoding true) :
    (∃ x, parseRange options true doc offset length = .ok x ∧ x.namespaces = true ∧
      parseRange options false doc offset length = .ok { x with namespaces := false }) ∨
    (∃ failure, parseRange options true doc offset length = .error failure ∧
      parseRange options false doc offset length = .error failure) ∨
    ∃ failure, parseRange options true doc offset length = .error failure ∧ failure.fault.IsNamespace := by
  by_cases hRange : offset + length ≤ doc.size
  · have hDetects := detect_withoutNamespaces fun detected hHead => hSize detected hHead hRange
    cases hDetect : detect doc offset (offset + length) true with
    | error cause =>
      rw [parseRange_of_undetected hRange hDetect, parseRange_of_undetected hRange (hDetects.trans hDetect)]
      exact .inr (.inl ⟨_, rfl, rfl⟩)
    | ok detected =>
      rw [parseRange_of_detected hRange hDetect, parseRange_of_detected hRange (hDetects.trans hDetect)]
      have hRuns := @outcome_withoutNamespaces options doc offset length detected (detect_eq_ok_iff.mp hDetect).2.2
      revert hRuns
      cases Lex.run .start (.atRange options true detected doc offset length) <;>
        cases Lex.run .start (.atRange options false detected doc offset length) <;> intro hRuns
      case ok.ok s _ t =>
        obtain ⟨c, hLexers⟩ := hRuns
        obtain ⟨hOn, hOff, -⟩ := hLexers.legible rfl
        refine .inl ⟨_, rfl, hOn, ?_⟩
        change Except.ok (Index.mk doc offset length t.cursor.encoding t.namespaces t.maxDepth t.draft.root
          t.draft.tokens (t.draft.cache.settle t.draft.waiting 1)) = Except.ok (Index.mk doc offset length
            s.cursor.encoding false s.maxDepth s.draft.root s.draft.tokens (s.draft.cache.settle s.draft.waiting 1))
        rw [hOff, hLexers.encoding_eq, hLexers.maxDepth_eq, (hLexers.draft_eq nofun).2]
      case ok.error => exact hRuns.elim
      case error.ok fault s _ t => exact .inr (.inr ⟨_, rfl, (s.fault_failure fault).symm ▸ hRuns⟩)
      case error.error fault s _ t =>
        obtain hAlone | ⟨rfl, hCursors⟩ := hRuns
        · exact .inr (.inr ⟨_, rfl, (s.fault_failure fault).symm ▸ hAlone⟩)
        · exact .inr (.inl ⟨_, rfl, congrArg Except.error (Lexer.failure_congr (hCursors.eq_of_ne nofun) _)⟩)
  · have hOutside := Nat.not_le.mp hRange
    exact .inr (.inl ⟨_, parseRange_of_outside hOutside, parseRange_of_outside hOutside⟩)

end

/-- `<a b:c=""/>`, whose attribute has a prefix that nothing declares. -/
def strayPrefix : ByteArray :=
  ⟨#[0x3C, 0x61, 0x20, 0x62, 0x3A, 0x63, 0x3D, 0x22, 0x22, 0x2F, 0x3E]⟩

def strayPrefixIndex : Index where
  buffer := strayPrefix
  docOffset := 0
  docLength := 11
  encoding := .utf8
  namespaces := false
  maxDepth := 0
  root := some 1
  tokens := #[⟨.document, -1, 0, 0⟩, ⟨.startTag, 0, 1, 1⟩, ⟨.attributeName, 0, 3, Token.qualifiedLength 1 3⟩,
    ⟨.attributeValue, 0, 8, 0⟩]
  cache := ⟨#[#[], #[]], #[]⟩

def strayPrefixFailure : Failure :=
  ⟨.structural .unqualifiedAttribute (some 3), some ⟨1, 4⟩⟩

theorem parseRange_strayPrefix : parseRange {} false strayPrefix 0 11 = .ok strayPrefixIndex :=
  @parseRange_of_runWithin _ _ _ _ _ 4 ⟨.utf8, .none⟩ _ (by decide) rfl (by with_unfolding_all rfl)

theorem parseRange_strayPrefix_namespaces : parseRange {} true strayPrefix 0 11 = .error strayPrefixFailure :=
  @parseRange_of_runWithin _ _ _ _ _ 4 ⟨.utf8, .none⟩ _ (by decide) rfl (by with_unfolding_all rfl)

/-- It is parsed without namespaces, and with them refused for its prefix. -/
theorem parseRange_namespaces_cases_strayPrefix :
    parseRange {} false strayPrefix 0 11 = .ok strayPrefixIndex ∧
    parseRange {} true strayPrefix 0 11 = .error strayPrefixFailure ∧ strayPrefixFailure.fault.IsNamespace := by
  have hFits (detected : Detected) (hHead : Detected.ofHead (headBytes strayPrefix 0 (0 + 11)) = .ok detected)
      (_ : 0 + 11 ≤ strayPrefix.size) : 0 + 11 < sizeLimit detected.encoding true := by
    have hDetected : Detected.ofHead (headBytes strayPrefix 0 11) = .ok ⟨.utf8, .none⟩ := by decide
    obtain rfl : ⟨.utf8, .none⟩ = detected := Except.ok.inj (hDetected.symm.trans hHead)
    decide
  refine ⟨parseRange_strayPrefix, parseRange_strayPrefix_namespaces, ?_⟩
  obtain ⟨x, hOk, -⟩ | ⟨failure, -, hFails⟩ | ⟨failure, hFails, hNamespace⟩ :=
    @parseRange_namespaces_cases {} strayPrefix 0 11 hFits
  · exact absurd (parseRange_strayPrefix_namespaces.symm.trans hOk) nofun
  · exact absurd (parseRange_strayPrefix.symm.trans hFails) nofun
  · obtain rfl := Except.error.inj (parseRange_strayPrefix_namespaces.symm.trans hFails)
    exact hNamespace

end XmlIndex
