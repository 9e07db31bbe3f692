import Mathlib.Data.List.Induction
import XmlIndex.Proofs.Lexer.Invariants

/-! # Drafts told by their tokens

All that a draft holds beside its tokens follows from them: written again one after the other, they
give the same cache, the same waiting element and the same root. The greatest depth is that of the
start tags.
-/
namespace XmlIndex
set_option autoImplicit false

namespace Draft
variable {d : Draft} {t : Token} {levels : CacheLevels} {tokens before after : List Token}

/-- Writes a token as it was written first. -/
def rewrite (d : Draft) (t : Token) : Draft :=
  if t.kind = .startTag then d.writeElement t.depth t.offset t.lengthField else d.write t

def ofTokens (levels : CacheLevels) (tokens : List Token) : Draft :=
  tokens.foldl rewrite (empty levels)

theorem ofTokens_append_singleton :
    ofTokens levels (tokens ++ [t]) = (ofTokens levels tokens).rewrite t :=
  List.foldl_concat ..

theorem toList_writeElement {depth : Int} {offset lengthField : Nat} :
    (d.writeElement depth offset lengthField).tokens.toList =
      d.tokens.toList ++ [⟨.startTag, depth, offset, lengthField⟩] := by
  rw [writeElement, tokens_recordElement, write, Array.toList_push]

theorem toList_rewrite : (d.rewrite t).tokens.toList = d.tokens.toList ++ [t] := by
  unfold rewrite
  split
  · rename_i hStart
    rw [toList_writeElement, ← hStart]
  · exact Array.toList_push

theorem toList_ofTokens : (ofTokens levels tokens).tokens.toList = tokens := by
  induction tokens using List.reverseRecOn with
  | nil => rfl
  | append_singleton tokens t ih => rw [ofTokens_append_singleton, toList_rewrite, ih]

theorem size_ofTokens : (ofTokens levels tokens).tokens.size = tokens.length := by
  rw [← Array.length_toList, toList_ofTokens]

theorem root_rewrite : (d.rewrite t).root =
    if t.kind = .startTag ∧ t.depth = 0 then some d.tokens.size else d.root := by
  unfold rewrite
  by_cases hStart : t.kind = .startTag
  · rw [if_pos hStart, writeElement, recordElement]
    by_cases hRoot : t.depth = 0
    · rw [if_pos hRoot, if_pos ⟨hStart, hRoot⟩]
    · have hOther : ¬(t.kind = .startTag ∧ t.depth = 0) := fun h => hRoot h.2
      rw [if_neg hRoot, if_neg hOther]
      split <;> rfl
  · rw [if_neg hStart, if_neg fun h => hStart h.1]
    rfl

/-- The root is the last start tag that lies outside all others. -/
theorem root_ofTokens (hStart : t.kind = .startTag) (hRoot : t.depth = 0)
    (hAfter : ∀ u ∈ after, u.kind = .startTag → u.depth ≠ 0) :
    (ofTokens levels (before ++ t :: after)).root = some before.length := by
  induction after using List.reverseRecOn with
  | nil => rw [ofTokens_append_singleton, root_rewrite, if_pos ⟨hStart, hRoot⟩, size_ofTokens]
  | append_singleton after u ih =>
    have hSplit : before ++ t :: (after ++ [u]) = (before ++ t :: after) ++ [u] := by simp
    rw [hSplit, ofTokens_append_singleton, root_rewrite, if_neg]
    · exact ih fun v hv => hAfter v (by simp [hv])
    · exact fun h => hAfter u (by simp) h.1 h.2

end Draft

def Token.deepest (tokens : List Token) : Nat :=
  tokens.foldl (fun depth t => if t.kind = .startTag then max depth t.depth.toNat else depth) 0

theorem Token.deepest_append_singleton (tokens : List Token) (t : Token) :
    deepest (tokens ++ [t]) =
      if t.kind = .startTag then max (deepest tokens) t.depth.toNat else deepest tokens :=
  List.foldl_concat ..

theorem Token.le_deepest {tokens : List Token} {t : Token} (hMem : t ∈ tokens) (hStart : t.kind = .startTag) :
    t.depth.toNat ≤ deepest tokens := by
  induction tokens using List.reverseRecOn with
  | nil => cases hMem
  | append_singleton tokens u ih =>
    rw [deepest_append_singleton]
    rcases List.mem_append.mp hMem with hMem | hMem
    · have hLe := ih hMem
      split <;> omega
    · obtain rfl := List.mem_singleton.mp hMem
      rw [if_pos hStart]
      exact Nat.le_max_right _ _

theorem Token.exists_deepest (tokens : List Token) :
    deepest tokens = 0 ∨ ∃ t ∈ tokens, t.kind = .startTag ∧ t.depth.toNat = deepest tokens := by
  induction tokens using List.reverseRecOn with
  | nil => exact .inl rfl
  | append_singleton tokens u ih =>
    rw [deepest_append_singleton]
    by_cases hStart : u.kind = .startTag ∧ deepest tokens ≤ u.depth.toNat
    · rw [if_pos hStart.1, Nat.max_eq_right hStart.2]
      exact .inr ⟨u, by simp, hStart.1, rfl⟩
    · have hSame : (if u.kind = .startTag then max (deepest tokens) u.depth.toNat else deepest tokens) =
          deepest tokens := by
        split
        · exact Nat.max_eq_left (Nat.le_of_not_le fun h => hStart ⟨‹_›, h⟩)
        · rfl
      rw [hSame]
      exact ih.imp_right fun ⟨t, ht, hDeepest⟩ => ⟨t, List.mem_append_left _ ht, hDeepest⟩

/-- The draft follows from its tokens, and so does the greatest depth. -/
structure Lexer.Told (levels : CacheLevels) (s : Lexer) : Prop where
  draft : s.draft = .ofTokens levels s.draft.tokens.toList
  maxDepth : s.maxDepth = Token.deepest s.draft.tokens.toList

namespace Lexer
variable {s : Lexer} {levels : CacheLevels}

theorem Told.write {kind : TokenKind} (hTold : s.Told levels) (hKind : kind ≠ .startTag)
    (offset lengthField : Nat) :
    Told levels { s with draft := s.draft.write ⟨kind, s.depth, offset, lengthField⟩ } where
  draft := by
    simp only [Draft.write, Array.toList_push, Draft.ofTokens_append_singleton]
    rw [← hTold.draft, Draft.rewrite, if_neg hKind]
    rfl
  maxDepth := by
    simp only [Draft.write, Array.toList_push, Token.deepest_append_singleton, if_neg hKind]
    exact hTold.maxDepth

theorem Told.element (hTold : s.Told levels) (name : Name) (offset lengthField : Nat) :
    Told levels { s.push name with
      draft := s.draft.writeElement s.openTags.length offset lengthField } where
  draft := by
    simp only [Draft.toList_writeElement, Draft.ofTokens_append_singleton]
    rw [← hTold.draft, Draft.rewrite, if_pos rfl]
  maxDepth := by
    simp only [Draft.toList_writeElement, Token.deepest_append_singleton, if_true, Int.toNat_natCast]
    rw [← hTold.maxDepth]
    rfl

instance : Invariant (Told levels) where
  adjust hTold hDraft hMaxDepth _ := ⟨hDraft ▸ hTold.draft, hDraft ▸ hMaxDepth ▸ hTold.maxDepth⟩
  write hTold hKind := hTold.write hKind
  element hTold _ := hTold.element

theorem told_atStart {options : Options} {namespaces : Bool} {detected : Detected} {doc : ByteArray}
    {offset stop : Nat} :
    (atStart options namespaces detected doc offset stop { draft := .empty levels }).Told levels where
  draft := rfl
  maxDepth := rfl

end Lexer
end XmlIndex
