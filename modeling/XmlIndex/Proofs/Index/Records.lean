import Mathlib.Algebra.Ring.Nat
import XmlIndex.Index.Layout

/-! # Records of an index file

Numbers, tokens and cache entries are stored in fields of fixed width. Each is read back as it was
written if it fits its field, and whatever is read fits.
-/
namespace XmlIndex
set_option autoImplicit false

theorem toList_loop (doc : ByteArray) (i : Nat) (reversed : List UInt8) :
    ByteArray.toList.loop doc i reversed = reversed.reverse ++ doc.data.toList.drop i := by
  fun_induction ByteArray.toList.loop doc i reversed with
  | case1 i reversed hInside ih =>
    have hByte : doc.get! i = doc.data.toList.get ⟨i, hInside⟩ := getElem!_pos doc.data i hInside
    rw [ih, List.reverse_cons, List.append_assoc, hByte, List.drop_eq_getElem_cons hInside]
    rfl
  | case2 i reversed hOutside =>
    have hNone : doc.data.toList.drop i = [] := List.drop_eq_nil_of_le (Nat.le_of_not_lt hOutside)
    rw [hNone, List.append_nil]

theorem toByteArray_toList (doc : ByteArray) : doc.toList.toByteArray = doc := by
  rw [ByteArray.toList, toList_loop, List.reverse_nil, List.nil_append, List.drop_zero]
  exact ByteArray.ext (List.data_toByteArray.trans Array.toArray_toList)

theorem toList_toByteArray (bytes : List UInt8) : bytes.toByteArray.toList = bytes := by
  rw [ByteArray.toList, toList_loop, List.reverse_nil, List.nil_append, List.drop_zero, List.data_toByteArray]

theorem length_toList (doc : ByteArray) : doc.toList.length = doc.size := by
  rw [← List.size_toByteArray, toByteArray_toList]

theorem ofLittleEndian_littleEndian (count n : Nat) :
    ofLittleEndian (littleEndian count n) = n % 256 ^ count := by
  induction count generalizing n with
  | zero => simp [littleEndian, ofLittleEndian, Nat.mod_one]
  | succ count ih =>
    have hByte : n % 256 < 2 ^ 8 := Nat.mod_lt _ (by decide)
    simp only [littleEndian, ofLittleEndian, ih, UInt8.toNat_ofNat', Nat.mod_eq_of_lt hByte]
    rw [Nat.pow_succ, Nat.mul_comm (256 ^ count), Nat.mod_mul]

theorem ofLittleEndian_lt (bytes : List UInt8) : ofLittleEndian bytes < 256 ^ bytes.length := by
  induction bytes with
  | nil => exact Nat.zero_lt_one
  | cons byte bytes ih =>
    have hByte : byte.toNat < 256 := byte.toNat_lt
    rw [ofLittleEndian, List.length_cons, Nat.pow_succ]
    omega

theorem toNat_ofNat_of_lt {n : Nat} (hSmall : n < 0x10000000000000000) : (UInt64.ofNat n).toNat = n := by
  rw [UInt64.toNat_ofNat', Nat.mod_eq_of_lt hSmall]

structure Token.Storable (t : Token) : Prop where
  depth_ge : -1 ≤ t.depth
  depth_le : t.depth ≤ Token.maxDepth
  lengthField_le : t.lengthField ≤ Token.maxLength
  offset_lt : t.offset < 0x100000000

namespace Token
variable {t : Token} {word : UInt64}

theorem depthByte_le {depth : Int} : depthByte depth ≤ 0xFF := by
  unfold depthByte
  omega

theorem ofDepthByte_depthByte {depth : Int} (hLeast : -1 ≤ depth) (hGreatest : depth ≤ maxDepth) :
    ofDepthByte (depthByte depth) = depth := by
  unfold ofDepthByte depthByte maxDepth at *
  split <;> omega

theorem ofDepthByte_bounds {byte : Nat} (hByte : byte ≤ 0xFF) :
    -1 ≤ ofDepthByte byte ∧ ofDepthByte byte ≤ maxDepth := by
  unfold ofDepthByte maxDepth
  split <;> omega

theorem toNat_pack (hStorable : t.Storable) : t.pack.toNat =
    0x1000000000000000 * t.kind.code + 0x10000000000000 * depthByte t.depth +
      0x100000000 * t.lengthField + t.offset := by
  have hKind := t.kind.code_lt
  have hDepth : depthByte t.depth ≤ 0xFF := depthByte_le
  obtain ⟨-, -, hLength, hOffset⟩ := hStorable
  unfold maxLength at hLength
  rw [pack, toNat_ofNat_of_lt] <;> omega

theorem unpack?_pack (hStorable : t.Storable) : unpack? t.pack = some t := by
  have hDepth : depthByte t.depth ≤ 0xFF := depthByte_le
  have hDepthBack := ofDepthByte_depthByte hStorable.depth_ge hStorable.depth_le
  have hWord := toNat_pack hStorable
  obtain ⟨-, -, hLength, hOffset⟩ := hStorable
  unfold maxLength at hLength
  have hKindPart : t.pack.toNat / 0x1000000000000000 = t.kind.code := by omega
  have hDepthPart : t.pack.toNat / 0x10000000000000 % 0x100 = depthByte t.depth := by omega
  have hLengthPart : t.pack.toNat / 0x100000000 % 0x100000 = t.lengthField := by omega
  have hOffsetPart : t.pack.toNat % 0x100000000 = t.offset := by omega
  rw [unpack?, hKindPart, hDepthPart, hLengthPart, hOffsetPart, TokenKind.ofCode?_code, hDepthBack]
  rfl

theorem toNat_and_offsetMask (word : UInt64) : (word &&& offsetMask).toNat = word.toNat % 2 ^ 32 := by
  rw [UInt64.toNat_and]
  exact Nat.and_two_pow_sub_one_eq_mod word.toNat 32

theorem toNat_and_not_offsetMask (word : UInt64) :
    (word &&& ~~~offsetMask).toNat = 2 ^ 32 * (word.toNat / 2 ^ 32) := by
  have hUpper : word.toNat / 2 ^ 32 < 2 ^ 32 := Nat.div_lt_of_lt_mul word.toNat_lt
  have hMask : (~~~offsetMask).toNat = 2 ^ 32 * (2 ^ 32 - 1) := rfl
  rw [UInt64.toNat_and, hMask, ← Nat.div_add_mod (_ &&& _) (2 ^ 32), Nat.and_div_two_pow, Nat.and_mod_two_pow,
    Nat.mul_div_cancel_left _ (Nat.two_pow_pos 32), Nat.mul_mod_right, Nat.and_zero,
    Nat.and_two_pow_sub_one_eq_mod, Nat.mod_eq_of_lt hUpper, Nat.add_zero]

/-- The lower half of the word is moved and its upper half kept. -/
theorem toNat_rebase (delta : Nat) (word : UInt64) : (rebase delta word).toNat =
    2 ^ 32 * (word.toNat / 2 ^ 32) + (word.toNat % 2 ^ 32 - delta) := by
  have hOffset : word.toNat % 2 ^ 32 - delta < 2 ^ 32 :=
    Nat.lt_of_le_of_lt (Nat.sub_le ..) (Nat.mod_lt _ (Nat.two_pow_pos 32))
  rw [rebase, UInt64.toNat_or, toNat_and_not_offsetMask, toNat_and_offsetMask, toNat_ofNat_of_lt (by omega),
    Nat.two_pow_add_eq_or_of_lt hOffset]

@[simp] theorem rebase_zero (word : UInt64) : rebase 0 word = word := by
  rw [← UInt64.toNat_inj, toNat_rebase, Nat.sub_zero, Nat.div_add_mod]

theorem Storable.moveBack (hStorable : t.Storable) (delta : Nat) :
    Storable { t with offset := t.offset - delta } :=
  { hStorable with offset_lt := Nat.lt_of_le_of_lt (Nat.sub_le ..) hStorable.offset_lt }

/-- A record is moved as its token is. -/
theorem rebase_pack (hStorable : t.Storable) (delta : Nat) :
    rebase delta t.pack = pack { t with offset := t.offset - delta } := by
  have hOffset := hStorable.offset_lt
  rw [← UInt64.toNat_inj, toNat_rebase, toNat_pack hStorable, toNat_pack (hStorable.moveBack delta)]
  dsimp only
  omega

theorem storable_of_unpack? (hToken : unpack? word = some t) : t.Storable := by
  obtain ⟨kind, -, rfl⟩ := Option.map_eq_some_iff.mp hToken
  obtain ⟨hLeast, hGreatest⟩ := @ofDepthByte_bounds (word.toNat / 0x10000000000000 % 0x100) (by omega)
  refine ⟨hLeast, hGreatest, ?_, Nat.mod_lt _ (by decide)⟩
  unfold maxLength
  exact Nat.le_of_lt_succ (Nat.mod_lt _ (by decide))

end Token

structure CacheEntry.Storable (e : CacheEntry) : Prop where
  token_lt : e.token < 0x100000000
  child_lt : ∀ child, e.firstChild = some child → child < CacheEntry.noChild

namespace CacheEntry
variable {e : CacheEntry}

theorem child_eq (hStorable : e.Storable) :
    e.firstChild.getD noChild < 0x100000000 ∧
      (if e.firstChild.getD noChild = noChild then none else some (e.firstChild.getD noChild)) =
        e.firstChild := by
  cases hChild : e.firstChild with
  | none => exact ⟨by decide, rfl⟩
  | some child =>
    have hSmall := hStorable.child_lt child hChild
    rw [Option.getD_some, if_neg (Nat.ne_of_lt hSmall)]
    exact ⟨Nat.lt_trans hSmall (by decide), rfl⟩

theorem unpack_pack (hStorable : e.Storable) : unpack e.pack = e := by
  obtain ⟨hChildSmall, hChild⟩ := child_eq hStorable
  have hToken := hStorable.token_lt
  have hWord : e.pack.toNat = 0x100000000 * e.token + e.firstChild.getD noChild := by
    rw [pack, toNat_ofNat_of_lt] <;> omega
  have hTokenPart : e.pack.toNat / 0x100000000 = e.token := by omega
  have hChildPart : e.pack.toNat % 0x100000000 = e.firstChild.getD noChild := by omega
  rw [unpack, hTokenPart, hChildPart]
  exact congrArg _ hChild

theorem storable_unpack (word : UInt64) : (unpack word).Storable := by
  have hWord := word.toNat_lt
  refine ⟨?_, fun child hChild => ?_⟩
  · change word.toNat / 0x100000000 < 0x100000000
    omega
  · have hSmall : word.toNat % 0x100000000 < 0x100000000 := Nat.mod_lt _ (by decide)
    simp only [unpack] at hChild
    split at hChild
    · cases hChild
    · obtain rfl := Option.some.inj hChild
      unfold noChild at *
      omega

end CacheEntry
end XmlIndex
