import XmlIndex.Proofs.Index.Drafts
import XmlIndex.Proofs.Lexer.Invariants

/-! # What the lexer keeps of its draft

Elements are opened one inside the other, and each is recorded as soon as it is open. So the draft
is sound after every action of the lexer, and with it the index of a document that is complete.
-/
namespace XmlIndex
set_option autoImplicit false

structure Lexer.Sound (s : Lexer) : Prop where
  draft : s.draft.Sound
  reaches : s.draft.Reaches s.openTags.length
  openTags_le : s.openTags.length ≤ Token.maxDepth + 1
  maxDepth_le : s.maxDepth ≤ Token.maxDepth

namespace Lexer.Sound
variable {s : Lexer}

theorem depth_bounds (hSound : s.Sound) : -1 ≤ s.depth ∧ s.depth ≤ Token.maxDepth := by
  have hOpen := hSound.openTags_le
  unfold Lexer.depth
  omega

theorem write (hSound : s.Sound) (kind : TokenKind) (offset lengthField : Nat) :
    Lexer.Sound { s with draft := s.draft.write ⟨kind, s.depth, offset, lengthField⟩ } :=
  { hSound with draft := hSound.draft.write hSound.depth_bounds }

/-- An element is recorded as soon as it is open. -/
theorem element (hSound : s.Sound) (hDepth : s.openTags.length ≤ Token.maxDepth) (name : Name)
    (offset lengthField : Nat) : Lexer.Sound { s.push name with
      draft := s.draft.writeElement s.openTags.length offset lengthField } := by
  obtain ⟨hDraft, hReaches⟩ := hSound.draft.writeElement hSound.reaches hDepth
  exact
    { draft := hDraft
      reaches := hReaches
      openTags_le := Nat.succ_le_succ hDepth
      maxDepth_le := Nat.max_le.mpr ⟨hSound.maxDepth_le, hDepth⟩ }

/-- It does not matter where the cursor is, nor that fewer elements are open. -/
theorem adjust {s' : Lexer} (hSound : s.Sound) (hDraft : s'.draft = s.draft)
    (hMaxDepth : s'.maxDepth = s.maxDepth) (hFewer : s'.openTags.length ≤ s.openTags.length) :
    s'.Sound where
  draft := hDraft ▸ hSound.draft
  reaches := hDraft ▸ hSound.reaches.mono hFewer
  openTags_le := Nat.le_trans hFewer hSound.openTags_le
  maxDepth_le := hMaxDepth ▸ hSound.maxDepth_le

instance : Invariant Lexer.Sound where
  adjust := adjust
  write hSound _ := hSound.write _
  element := element

end Lexer.Sound

namespace Lexer

theorem sound_atStart {options : Options} {namespaces : Bool} {detected : Detected} {doc : ByteArray}
    {offset stop : Nat} {levels : CacheLevels} :
    (atStart options namespaces detected doc offset stop { draft := .empty levels }).Sound where
  draft := (Draft.sound_empty levels).write ⟨by decide, by decide⟩
  reaches := nofun
  openTags_le := Nat.zero_le _
  maxDepth_le := Nat.zero_le _

end Lexer

/-- The index points to tokens that it has, and its depths can be stored. -/
structure Index.Sound (x : Index) : Prop where
  tokens : ∀ t ∈ x.tokens, t.IsShallow
  levels : ∃ levels : CacheLevels, x.cache.levels = levels.count
  cache : x.cache.Sound x.tokens.size
  root_lt : ∀ root, x.root = some root → root < x.tokens.size
  maxDepth_le : x.maxDepth ≤ Token.maxDepth

theorem Lexer.Sound.index {s : Lexer} (hSound : s.Sound) (doc : ByteArray) (offset length : Nat) :
    (s.index doc offset length).1.Sound where
  tokens := hSound.draft.tokens
  levels := by
    obtain ⟨levels, hLevels⟩ := hSound.draft.levels
    exact ⟨levels, LocationCache.levels_settle.trans hLevels⟩
  cache := hSound.draft.cache
  root_lt := hSound.draft.root_lt
  maxDepth_le := hSound.maxDepth_le

end XmlIndex
