import XmlIndex.Proofs.Grammar.Layout
import XmlIndex.Proofs.Index.Reencoding

/-! # The fields of a token record

A record is four fields side by side, each in bits of its own. So a token that fits is read back as it was,
and every record of a known kind is that of one token. When a token is moved back, the lower half of its
record changes and the upper half, with kind, depth and length, stays.
-/
namespace XmlIndex
set_option autoImplicit false

namespace Token

/-- As many bits of a word as `width`, from bit `low` up. -/
def bits (word : UInt64) (low width : Nat) : UInt64 :=
  word >>> .ofNat low &&& .ofNat (2 ^ width - 1)

/-- The fields of the token stand side by side in the word, from the top down. -/
structure Fills (t : Token) (word : UInt64) : Prop where
  kind : bits word 60 4 = .ofNat t.kind.code
  depth : bits word 52 8 = .ofNat (depthByte t.depth)
  lengthField : bits word 32 20 = .ofNat t.lengthField
  offset : bits word 0 32 = .ofNat t.offset

variable {t : Token} {word : UInt64} {low width n prefixLength nameLength : Nat}

theorem toNat_bits (hLow : low < 64) (hWidth : width < 64) :
    (bits word low width).toNat = word.toNat / 2 ^ low % 2 ^ width := by
  have hMask : 2 ^ width - 1 < 2 ^ 64 :=
    Nat.lt_of_le_of_lt (Nat.sub_le ..) (Nat.pow_lt_pow_right (by decide) hWidth)
  rw [bits, UInt64.toNat_and, UInt64.toNat_shiftRight, toNat_ofNat_of_lt (Nat.lt_trans hLow (by decide)),
    toNat_ofNat_of_lt hMask, Nat.mod_eq_of_lt hLow, Nat.shiftRight_eq_div_pow, Nat.and_two_pow_sub_one_eq_mod]

theorem bits_eq_ofNat_iff (hLow : low < 64) (hWidth : width < 64) (hSmall : n < 0x10000000000000000) :
    bits word low width = .ofNat n ↔ word.toNat / 2 ^ low % 2 ^ width = n := by
  rw [← UInt64.toNat_inj, toNat_bits hLow hWidth, toNat_ofNat_of_lt hSmall]

theorem fills_pack (hStorable : t.Storable) : t.Fills t.pack := by
  have hKind := t.kind.code_lt
  have hDepth : depthByte t.depth ≤ 0xFF := depthByte_le
  have hWord := toNat_pack hStorable
  obtain ⟨-, -, hLength, hOffset⟩ := hStorable
  unfold maxLength at hLength
  constructor <;> rw [bits_eq_ofNat_iff (by decide) (by decide)] <;> omega

theorem unpack?_eq_some_iff : unpack? word = some t ↔ t.Storable ∧ t.pack = word := by
  constructor
  · intro hToken
    exact ⟨storable_of_unpack? hToken, pack_of_unpack? hToken⟩
  · rintro ⟨hStorable, rfl⟩
    exact unpack?_pack hStorable

/-- Of the depths that fit, -1 is the only one whose byte is all ones. -/
theorem Fills.depth_eq_iff (hFills : t.Fills word) (hStorable : t.Storable) :
    bits word 52 8 = 0xFF ↔ t.depth = -1 := by
  have hByte : depthByte t.depth ≤ 0xFF := depthByte_le
  obtain ⟨hLeast, hGreatest, -, -⟩ := hStorable
  rw [hFills.depth, ← UInt64.toNat_inj, toNat_ofNat_of_lt (by omega)]
  change depthByte t.depth = 0xFF ↔ _
  unfold depthByte
  unfold maxDepth at hGreatest
  omega

/-- Moving a record back touches its lower half alone. -/
theorem bits_rebase (delta : Nat) (word : UInt64) : bits (rebase delta word) 32 32 = bits word 32 32 := by
  apply UInt64.toNat_inj.mp
  rw [toNat_bits (by decide) (by decide), toNat_bits (by decide) (by decide), toNat_rebase]
  omega

theorem Storable.qualified (hStorable : t.Storable) (hPrefix : prefixLength ≤ maxPrefixLength)
    (hName : nameLength ≤ maxNameLength) :
    { t with lengthField := qualifiedLength prefixLength nameLength }.Storable := by
  obtain ⟨hLeast, hGreatest, -, hOffset⟩ := hStorable
  exact ⟨hLeast, hGreatest, Grammar.qualifiedLength_le hPrefix hName, hOffset⟩

/-- Packing and unpacking are inverse to each other between the tokens that fit and the records of a known
kind; depth -1 is the byte of ones. The two lengths of a name are read back from the one field they share,
and of a token that is moved back only the offset changes. -/
theorem records_lossless (t : Token) (word : UInt64) :
    (unpack? word = some t ↔ t.Storable ∧ t.pack = word) ∧
    (unpack? word = some t → t.Fills word ∧ (bits word 52 8 = 0xFF ↔ t.depth = -1)) ∧
    (t.Storable → t.kind.isQualified = true → ∀ prefixLength ≤ maxPrefixLength, ∀ nameLength ≤ maxNameLength,
      ∃ name : Token, unpack? { t with lengthField := qualifiedLength prefixLength nameLength }.pack = some name ∧
        name.prefixLength = prefixLength ∧ name.length = nameLength) ∧
    (unpack? word = some t → ∀ delta : Nat, ∃ moved : Token, unpack? (rebase delta word) = some moved ∧
      moved = { t with offset := moved.offset } ∧ (moved.offset : Int) = max 0 ((t.offset : Int) - delta) ∧
      bits (rebase delta word) 32 32 = bits word 32 32) := by
  refine ⟨unpack?_eq_some_iff, ?fields, ?names, ?moved⟩
  case fields =>
    intro hToken
    obtain ⟨hStorable, rfl⟩ := unpack?_eq_some_iff.mp hToken
    have hFills := fills_pack hStorable
    exact ⟨hFills, hFills.depth_eq_iff hStorable⟩
  case names =>
    intro hStorable hKind prefixLength hPrefix nameLength hName
    refine ⟨_, unpack?_pack (hStorable.qualified hPrefix hName), ?_, ?_⟩
    · rw [Token.prefixLength, if_pos hKind, Grammar.qualifiedLength_div hName]
    · rw [Token.length, if_pos hKind, Grammar.qualifiedLength_mod hName]
  case moved =>
    intro hToken delta
    obtain ⟨hStorable, rfl⟩ := unpack?_eq_some_iff.mp hToken
    refine ⟨{ t with offset := t.offset - delta }, ?_, rfl, ?_, bits_rebase delta t.pack⟩
    · rw [rebase_pack hStorable, unpack?_pack (hStorable.moveBack delta)]
    · change ((t.offset - delta : Nat) : Int) = _
      omega

/-- The greatest values of all fields, and the record of a document. -/
theorem records_lossless_greatest :
    unpack? 0x0FEFFFFFFFFFFFFF = some ⟨.startTag, 254, 0xFFFFFFFF, 0xFFFFF⟩ ∧
    pack ⟨.startTag, 254, 0xFFFFFFFF, 0xFFFFF⟩ = 0x0FEFFFFFFFFFFFFF ∧
    (∃ name : Token, unpack? (pack ⟨.startTag, 254, 0xFFFFFFFF, qualifiedLength 511 2047⟩) = some name ∧
      name.prefixLength = 511 ∧ name.length = 2047) ∧
    (∃ moved : Token, unpack? (rebase 0xFFFFFFFE 0x0FEFFFFFFFFFFFFF) = some moved ∧ (moved.offset : Int) = 1) ∧
    (∃ moved : Token, unpack? (rebase 0x100000000 0x0FEFFFFFFFFFFFFF) = some moved ∧ (moved.offset : Int) = 0) ∧
    bits 0xDFF0000000000000 52 8 = 0xFF := by
  have hToken : unpack? 0x0FEFFFFFFFFFFFFF = some ⟨.startTag, 254, 0xFFFFFFFF, 0xFFFFF⟩ := by decide
  have hDocument : unpack? 0xDFF0000000000000 = some ⟨.document, -1, 0, 0⟩ := by decide
  obtain ⟨hRecord, -, hNames, hMoves⟩ :=
    records_lossless ⟨.startTag, 254, 0xFFFFFFFF, 0xFFFFF⟩ 0x0FEFFFFFFFFFFFFF
  obtain ⟨-, hFields, -, -⟩ := records_lossless ⟨.document, -1, 0, 0⟩ 0xDFF0000000000000
  obtain ⟨hStorable, hPack⟩ := hRecord.mp hToken
  obtain ⟨moved, hMoved, -, hOffset, -⟩ := hMoves hToken 0xFFFFFFFE
  obtain ⟨first, hFirst, -, hStart, -⟩ := hMoves hToken 0x100000000
  exact ⟨hToken, hPack, hNames hStorable rfl 511 (by decide) 2047 (by decide), ⟨moved, hMoved, hOffset⟩,
    ⟨first, hFirst, hStart⟩, (hFields hDocument).2.mpr rfl⟩

end Token
end XmlIndex
