import XmlIndex.Proofs.Scan.Reading
import XmlIndex.Text.Detection

/-! # Texts in UTF-8

A text written out in UTF-8 reads back as that text, and begins with no byte that could be taken for
a mark or for half of a wider unit.
-/
namespace XmlIndex
set_option autoImplicit false

/-- A text in UTF-8. -/
def rendering (text : List CodePoint) : ByteArray :=
  (String.ofList (text.map Char.ofNat)).toUTF8

section Bytes
variable {before bytes after : List UInt8} {stop i : Nat}

theorem byteAt?_toByteArray (hStop : i < stop) :
    byteAt? bytes.toByteArray stop i = bytes[i]?.map UInt8.toNat := by
  rw [byteAt?, if_pos hStop]
  by_cases hSize : i < bytes.length
  · rw [dif_pos (List.size_toByteArray ▸ hSize), List.getElem_toByteArray, List.getElem?_eq_getElem hSize,
      Option.map_some]
  · rw [dif_neg (List.size_toByteArray ▸ hSize), List.getElem?_eq_none (Nat.le_of_not_lt hSize),
      Option.map_none]

/-- Bytes in the middle of a list are found there. -/
theorem bytesAt_toByteArray (hStop : before.length + bytes.length ≤ stop) :
    BytesAt (before ++ (bytes ++ after)).toByteArray stop before.length (bytes.map UInt8.toNat) := by
  induction bytes generalizing before with
  | nil => exact trivial
  | cons byte bytes ih =>
    rw [List.length_cons] at hStop
    refine ⟨?_, ?_⟩
    · rw [byteAt?_toByteArray (by omega)]
      simp
    · have hRoom : (before ++ [byte]).length + bytes.length ≤ stop := by
        rw [List.length_append, List.length_singleton]
        omega
      simpa using ih hRoom

end Bytes

theorem CodePoint.isScalar_of_isValid {ch : Nat} (hValid : CodePoint.isValid ch = true) :
    CodePoint.IsScalar ch := by
  rw [CodePoint.isValid_iff] at hValid
  rw [CodePoint.isScalar_iff]
  omega

theorem toNat_ofNat_of_isScalar {ch : Nat} (hScalar : CodePoint.IsScalar ch) :
    (Char.ofNat ch).toNat = ch := by
  have hChar : ch.isValidChar := by
    rw [CodePoint.isScalar_iff] at hScalar
    unfold Nat.isValidChar
    omega
  unfold Char.ofNat
  rw [dif_pos hChar]
  rfl

/-- The encoder agrees with that of the library. -/
theorem utf8EncodeChar_ofNat {ch : Nat} (hScalar : CodePoint.IsScalar ch) :
    (String.utf8EncodeChar (Char.ofNat ch)).map UInt8.toNat = Utf8.encode ch := by
  have hChar : (Char.ofNat ch).val.toNat = ch := toNat_ofNat_of_isScalar hScalar
  have hBound : ch < 0x110000 := by
    rw [CodePoint.isScalar_iff] at hScalar
    omega
  unfold String.utf8EncodeChar Utf8.encode
  simp only [hChar]
  by_cases hOne : ch < 0x80
  · rw [if_pos (by omega), if_pos hOne]
    simp only [List.map_cons, List.map_nil, UInt8.toNat_ofNat']
    rw [Nat.mod_eq_of_lt (by omega)]
  · rw [if_neg (by omega), if_neg hOne]
    by_cases hTwo : ch < 0x800
    · rw [if_pos (by omega), if_pos hTwo]
      simp only [Utf8.tail, List.map_cons, List.map_nil, UInt8.toNat_ofNat', List.cons.injEq, and_true]
      omega
    · rw [if_neg (by omega), if_neg hTwo]
      by_cases hThree : ch < 0x10000
      · rw [if_pos (by omega), if_pos hThree]
        simp only [Utf8.tail, List.map_cons, List.map_nil, UInt8.toNat_ofNat', List.cons.injEq, and_true]
        omega
      · rw [if_neg (by omega), if_neg hThree]
        simp only [Utf8.tail, List.map_cons, List.map_nil, UInt8.toNat_ofNat', List.cons.injEq, and_true]
        omega

variable {text : List CodePoint} {after : List UInt8}

def renderedBytes (text : List CodePoint) : List UInt8 :=
  (text.map Char.ofNat).flatMap String.utf8EncodeChar

theorem rendering_eq : rendering text = (renderedBytes text).toByteArray := by
  rw [rendering, String.toUTF8_eq_toByteArray, String.toByteArray_ofList]
  rfl

theorem rendering_append :
    rendering text ++ after.toByteArray = (renderedBytes text ++ after).toByteArray := by
  rw [rendering_eq, List.toByteArray_append]

theorem rendering_append_nil : rendering text ++ [].toByteArray = rendering text :=
  ByteArray.append_empty

theorem spells_renderedBytes (hScalar : ∀ ch ∈ text, CodePoint.IsScalar ch) :
    Encoding.utf8.Spells text ((renderedBytes text).map UInt8.toNat) := by
  induction text with
  | nil => rfl
  | cons ch text ih =>
    obtain ⟨hFirst, hRest⟩ := List.forall_mem_cons.mp hScalar
    refine ⟨Utf8.encode ch, _, ⟨hFirst, rfl⟩, ih hRest, ?_⟩
    rw [renderedBytes, List.map_cons, List.flatMap_cons, List.map_append, utf8EncodeChar_ofNat hFirst]
    rfl

theorem isScalar_of_forall_isValid (hValid : ∀ ch ∈ text, CodePoint.isValid ch = true) :
    ∀ ch ∈ text, CodePoint.IsScalar ch :=
  fun ch hch => CodePoint.isScalar_of_isValid (hValid ch hch)

theorem length_renderedBytes (hValid : ∀ ch ∈ text, CodePoint.isValid ch = true) :
    (renderedBytes text).length = Encoding.utf8.size text := by
  rw [← (spells_renderedBytes (isScalar_of_forall_isValid hValid)).length_eq, List.length_map]

theorem size_rendering_append (hValid : ∀ ch ∈ text, CodePoint.isValid ch = true) :
    (rendering text ++ after.toByteArray).size = Encoding.utf8.size text + after.length := by
  rw [rendering_append, List.size_toByteArray, List.length_append, length_renderedBytes hValid]

/-- The rendering of a text, with more bytes after it, reads as the text. -/
theorem reads_rendering_append (hValid : ∀ ch ∈ text, CodePoint.isValid ch = true) :
    (Cursor.atStart (rendering text ++ after.toByteArray) 0
      (rendering text ++ after.toByteArray).size .utf8).Reads text := by
  rw [rendering_append]
  refine Cursor.readsAt_iff_bytesAt.mpr
    ⟨_, spells_renderedBytes (isScalar_of_forall_isValid hValid), @bytesAt_toByteArray [] _ _ _ ?_⟩
  rw [List.length_nil, Nat.zero_add, Cursor.atStart, List.size_toByteArray, List.length_append]
  exact Nat.le_add_right _ _

/-- The bytes after a rendering are found there. -/
theorem bytesAt_rendering_append (hValid : ∀ ch ∈ text, CodePoint.isValid ch = true) :
    BytesAt (rendering text ++ after.toByteArray) (rendering text ++ after.toByteArray).size
      (Encoding.utf8.size text) (after.map UInt8.toNat) := by
  have hBytes := @bytesAt_toByteArray (renderedBytes text) after [] _ (Nat.le_refl _)
  rwa [List.append_nil, length_renderedBytes hValid, ← rendering_append, ← size_rendering_append hValid] at hBytes

/-- The bytes of a character other than the first begin with another byte than zero. -/
theorem Utf8.exists_head_encode {c : Nat} (hChar : c ≠ 0) :
    ∃ byte rest, Utf8.encode c = byte :: rest ∧ byte ≠ 0 := by
  unfold Utf8.encode
  repeat' split
  · exact ⟨_, _, rfl, hChar⟩
  all_goals exact ⟨_, _, rfl, by omega⟩

theorem ne_zero_of_isValid {ch : Nat} (hValid : CodePoint.isValid ch = true) : ch ≠ 0 := by
  rintro rfl
  cases hValid

theorem Detected.ofHead_of_ne_zero {first second : Nat} {rest : List Nat} (hAscii : first < 0x80)
    (hFirst : first ≠ 0) (hSecond : second ≠ 0) :
    Detected.ofHead (first :: second :: rest) = .ok ⟨.utf8, .none⟩ := by
  unfold Detected.ofHead
  split <;> simp_all

theorem headBytes_toByteArray (bytes : List UInt8) :
    headBytes bytes.toByteArray 0 bytes.length = (bytes.take 4).map UInt8.toNat := by
  have hByte (i : Nat) : byteAt? bytes.toByteArray bytes.length i = bytes[i]?.map UInt8.toNat := by
    by_cases hStop : i < bytes.length
    · exact byteAt?_toByteArray hStop
    · rw [byteAt?_eq_none_of_le (Nat.le_of_not_lt hStop), List.getElem?_eq_none (Nat.le_of_not_lt hStop)]
      rfl
  unfold headBytes
  rw [funext hByte]
  rcases bytes with _ | ⟨a, _ | ⟨b, _ | ⟨c, _ | ⟨d, bytes⟩⟩⟩⟩ <;> rfl

/-- A text that begins with a character of ASCII is found to be in UTF-8, without a mark, whatever
comes after its second character. -/
theorem ofHead_rendering_append {ch next : CodePoint} {rest : List CodePoint} (hText : text = ch :: next :: rest)
    (hAscii : ch < 0x80) (hValid : ∀ d ∈ text, CodePoint.isValid d = true) :
    Detected.ofHead (headBytes (rendering text ++ after.toByteArray) 0
      (rendering text ++ after.toByteArray).size) = .ok ⟨.utf8, .none⟩ := by
  subst hText
  obtain ⟨_, _, ⟨-, rfl⟩, ⟨_, others, ⟨-, rfl⟩, -, rfl⟩, hBytes⟩ :=
    spells_renderedBytes (isScalar_of_forall_isValid hValid)
  obtain ⟨hFirst, hRest⟩ := List.forall_mem_cons.mp hValid
  obtain ⟨second, more, hSecond, hNonzero⟩ :=
    Utf8.exists_head_encode (ne_zero_of_isValid (List.forall_mem_cons.mp hRest).1)
  rw [Utf8.encode, if_pos hAscii, hSecond] at hBytes
  rw [rendering_append, List.size_toByteArray, headBytes_toByteArray, List.map_take, List.map_append, hBytes]
  exact Detected.ofHead_of_ne_zero hAscii (ne_zero_of_isValid hFirst) hNonzero

end XmlIndex
