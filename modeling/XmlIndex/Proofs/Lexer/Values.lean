import XmlIndex.Proofs.Lexer.Qualifying
import XmlIndex.Proofs.Text.Transcription

/-! # Values that are compared

A value that the lexer has read decodes as a text in which all references are whole. What it resolves to
is therefore found within it, and comparing values is comparing what they resolve to.
-/
namespace XmlIndex
set_option autoImplicit false
open Grammar

namespace Cursor
variable {c : Cursor} {a b span : Span} {text resolved resolved' : Chars}

/-- The lexer has read an attribute's value there. -/
def HoldsValue (c : Cursor) (span : Span) : Prop :=
  ∃ ch s s', Lex.attributeValue ch s = .ok span s' ∧
    s'.cursor.doc = c.doc ∧ s'.cursor.stop = c.stop ∧ s'.cursor.encoding = c.encoding

def ResolvesTo (c : Cursor) (span : Span) (resolved : Chars) : Prop :=
  ∃ characters, c.encoding.decodeFrom c.doc (span.offset + span.length) span.offset = (characters, none) ∧
    Resolves (characters.map Prod.fst) resolved

theorem HoldsValue.exists_covers (hValue : c.HoldsValue span) :
    ∃ text resolved, c.Covers span text ∧ Resolves text resolved := by
  obtain ⟨ch, s, s', hOk, hDoc, hStop, hEncoding⟩ := hValue
  obtain ⟨text, resolved, hCovers, hResolves⟩ := Lex.exists_covers_of_attributeValue hOk
  exact ⟨text, resolved, hCovers.congr hDoc.symm hStop.symm hEncoding.symm, hResolves⟩

theorem ResolvesTo.unique (hSpan : c.ResolvesTo span resolved) (hOther : c.ResolvesTo span resolved') :
    resolved = resolved' := by
  obtain ⟨_, hDecode, hResolves⟩ := hSpan
  obtain ⟨_, hDecode', hResolves'⟩ := hOther
  obtain rfl := (Prod.mk.inj (hDecode.symm.trans hDecode')).1
  exact hResolves.unique hResolves'

theorem ResolvesTo.iff_eq (hSpan : c.ResolvesTo span resolved) : c.ResolvesTo span resolved' ↔ resolved' = resolved := by
  constructor
  · intro hOther
    exact hOther.unique hSpan
  · rintro rfl
    exact hSpan

/-- The end of the span cuts no character off. -/
theorem Covers.resolvesTo (hCovers : c.Covers span text) (hResolves : Resolves text resolved) :
    c.ResolvesTo span resolved := by
  obtain ⟨bytes, hSpells, hBytes⟩ := readsAt_iff_bytesAt.mp hCovers.reads
  have hEnd : span.offset + bytes.length = span.offset + span.length := by
    rw [hSpells.length_eq, hCovers.length_eq]
  refine ⟨_, Encoding.decodeFrom_of_bytesAt hSpells (hBytes.restop (Nat.le_of_eq hEnd)) hEnd, ?_⟩
  rw [List.map_map]
  exact (List.map_id text).symm ▸ hResolves

theorem HoldsValue.exists_resolvesTo (hValue : c.HoldsValue span) :
    ∃ text resolved, c.Covers span text ∧ Resolves text resolved ∧ c.ResolvesTo span resolved := by
  obtain ⟨text, resolved, hCovers, hResolves⟩ := hValue.exists_covers
  exact ⟨text, resolved, hCovers, hResolves, hCovers.resolvesTo hResolves⟩

theorem resolvedEq_eq_ok_true_iff (hA : c.HoldsValue a) (hB : c.HoldsValue b) :
    c.resolvedEq a.offset a.length b.offset b.length = .ok true ↔
      ∃ resolved, c.ResolvesTo a resolved ∧ c.ResolvesTo b resolved := by
  obtain ⟨_, left, hCovers, hResolves, hLeft⟩ := hA.exists_resolvesTo
  obtain ⟨_, right, hCovers', hResolves', hRight⟩ := hB.exists_resolvesTo
  rw [hCovers.length_eq, hCovers'.length_eq,
    resolvedEq_of_resolves hResolves hResolves' hCovers.reads hCovers'.reads, Except.ok.injEq, decide_eq_true_eq]
  constructor
  · rintro rfl
    exact ⟨left, hLeft, hRight⟩
  · rintro ⟨resolved, hA, hB⟩
    rw [hLeft.unique hA, hRight.unique hB]

theorem equivalence_resolvedEq (c : Cursor) : Equivalence fun a b : {span // c.HoldsValue span} =>
    c.resolvedEq a.1.offset a.1.length b.1.offset b.1.length = .ok true where
  refl a := by
    obtain ⟨_, resolved, -, -, hResolved⟩ := a.2.exists_resolvesTo
    exact (resolvedEq_eq_ok_true_iff a.2 a.2).mpr ⟨resolved, hResolved, hResolved⟩
  symm {a b} hSame := by
    obtain ⟨resolved, hA, hB⟩ := (resolvedEq_eq_ok_true_iff a.2 b.2).mp hSame
    exact (resolvedEq_eq_ok_true_iff b.2 a.2).mpr ⟨resolved, hB, hA⟩
  trans {a b d} hSame hSame' := by
    obtain ⟨resolved, hA, hB⟩ := (resolvedEq_eq_ok_true_iff a.2 b.2).mp hSame
    obtain ⟨resolved', hB', hD⟩ := (resolvedEq_eq_ok_true_iff b.2 d.2).mp hSame'
    obtain rfl := hB.unique hB'
    exact (resolvedEq_eq_ok_true_iff a.2 d.2).mpr ⟨resolved, hA, hD⟩

/-- Each value that has been read resolves to one text. Comparing two such values, or one with a text or with the
reserved namespaces, never fails and compares these texts; so values are equal as by an equivalence. -/
theorem resolvedEq_of_holdsValue (c : Cursor) :
    (∀ a b, c.HoldsValue a → c.HoldsValue b → ∃ left right,
      (∀ resolved, c.ResolvesTo a resolved ↔ resolved = left) ∧
      (∀ resolved, c.ResolvesTo b resolved ↔ resolved = right) ∧
      c.resolvedEq a.offset a.length b.offset b.length = .ok (decide (left = right)) ∧
      (∀ s, c.spellsResolved a.offset a.length s = .ok (decide (left = s))) ∧
      Namespace.reserved a.offset a.length c = .ok (if left = CodePoint.ofText Namespace.xml then .xml
        else if left = CodePoint.ofText Namespace.xmlns then .xmlns else .none)) ∧
    Equivalence fun a b : {span // c.HoldsValue span} =>
      c.resolvedEq a.1.offset a.1.length b.1.offset b.1.length = .ok true := by
  refine ⟨?_, c.equivalence_resolvedEq⟩
  intro a b hA hB
  obtain ⟨_, left, hCovers, hResolves, hLeft⟩ := hA.exists_resolvesTo
  obtain ⟨_, right, hCovers', hResolves', hRight⟩ := hB.exists_resolvesTo
  refine ⟨left, right, fun _ => hLeft.iff_eq, fun _ => hRight.iff_eq, ?_, ?_, ?_⟩
  · rw [hCovers.length_eq, hCovers'.length_eq]
    exact resolvedEq_of_resolves hResolves hResolves' hCovers.reads hCovers'.reads
  · intro s
    rw [hCovers.length_eq]
    exact spellsResolvedFrom_of_resolves hResolves hCovers.reads
  · rw [hCovers.length_eq]
    exact reserved_of_resolves hResolves hCovers.reads

def twoSpellings : Cursor :=
  .atStart "<r a='&#x63;' b='c'/>".toUTF8 0 21 .utf8

theorem holdsValue_twoSpellings : twoSpellings.HoldsValue ⟨6, 6⟩ ∧ twoSpellings.HoldsValue ⟨17, 1⟩ := by
  constructor
  · exact ⟨CodePoint.equals, ⟨{ twoSpellings with offset := 5 }, .none, false, false, [], [], 0, false, {}, .empty .three⟩,
      _, by with_unfolding_all rfl, by rfl, by rfl, by rfl⟩
  · exact ⟨CodePoint.equals, ⟨{ twoSpellings with offset := 16 }, .none, false, false, [], [], 0, false, {}, .empty .three⟩,
      _, by with_unfolding_all rfl, by rfl, by rfl, by rfl⟩

theorem resolvesTo_twoSpellings : twoSpellings.ResolvesTo ⟨6, 6⟩ [0x63] ∧ twoSpellings.ResolvesTo ⟨17, 1⟩ [0x63] := by
  constructor
  · refine ⟨(CodePoint.ofText "&#x63;").map fun ch => (ch, 1), by with_unfolding_all rfl, ?_⟩
    exact .reference (@Denotes.hex (CodePoint.ofText "63") _ (by decide) (by decide)) .nil
  · exact ⟨[(0x63, 1)], by with_unfolding_all rfl, .char (by decide) .nil⟩

/-- Both spellings are equal to each other and to the letter. -/
theorem resolvedEq_twoSpellings : twoSpellings.resolvedEq 6 6 17 1 = .ok true ∧
    twoSpellings.spellsResolved 6 6 [0x63] = .ok true ∧ Namespace.reserved 6 6 twoSpellings = .ok .none := by
  obtain ⟨hFirst, hSecond⟩ := holdsValue_twoSpellings
  obtain ⟨left, right, hLeft, hRight, hEq, hSpells, hReserved⟩ :=
    (resolvedEq_of_holdsValue twoSpellings).1 ⟨6, 6⟩ ⟨17, 1⟩ hFirst hSecond
  obtain rfl := (hLeft _).mp resolvesTo_twoSpellings.1
  obtain rfl := (hRight _).mp resolvesTo_twoSpellings.2
  exact ⟨hEq, hSpells [0x63], hReserved⟩

end Cursor
end XmlIndex
