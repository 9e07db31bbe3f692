import XmlIndex.Proofs.Scan.Values

/-! # Texts and encodings

A text of ASCII reads alike under all encodings by bytes, so a declaration that was read before its
encoding was known need not be read again.
-/
namespace XmlIndex
set_option autoImplicit false
open Grammar

def IsAscii (text : Chars) : Prop :=
  ∀ ch ∈ text, ch < 0x80

theorem isAscii_append {text rest : Chars} : IsAscii (text ++ rest) ↔ IsAscii text ∧ IsAscii rest :=
  List.forall_mem_append

theorem isAscii_cons {ch : CodePoint} {text : Chars} : IsAscii (ch :: text) ↔ ch < 0x80 ∧ IsAscii text :=
  List.forall_mem_cons

theorem isAscii_of_isSpace {space : Chars} (hSpace : IsSpace space) : IsAscii space := by
  intro ch hch
  rcases CodePoint.isSpace_iff.mp (hSpace ch hch) with rfl | rfl | rfl | rfl <;> decide

namespace Encoding
variable {e e' e'' : Encoding} {ch : CodePoint}

def Agrees (e e' : Encoding) : Prop :=
  e' = e ∨ e.isUtf16 = false ∧ e'.isUtf16 = false

theorem Agrees.refl (e : Encoding) : e.Agrees e :=
  .inl rfl

theorem Agrees.symm (hAgrees : e.Agrees e') : e'.Agrees e :=
  hAgrees.imp Eq.symm And.symm

theorem Agrees.trans (hAgrees : e.Agrees e') (hLater : e'.Agrees e'') : e.Agrees e'' := by
  rcases hAgrees with rfl | ⟨hOne, hTwo⟩
  · exact hLater
  · rcases hLater with rfl | ⟨-, hThree⟩
    · exact .inr ⟨hOne, hTwo⟩
    · exact .inr ⟨hOne, hThree⟩

theorem Agrees.unitSize_eq (hAgrees : e.Agrees e') : e'.unitSize = e.unitSize := by
  rcases hAgrees with rfl | ⟨hOne, hTwo⟩
  · rfl
  · rw [unitSize, unitSize, hOne, hTwo]

theorem Agrees.width_eq (hAgrees : e.Agrees e') (hAscii : ch < 0x80) : e'.width ch = e.width ch := by
  rw [e'.width_of_lt hAscii, e.width_of_lt hAscii, hAgrees.unitSize_eq]

theorem Agrees.size_eq {text : Chars} (hAgrees : e.Agrees e') (hAscii : IsAscii text) :
    e'.size text = e.size text := by
  rw [e'.size_of_ascii hAscii, e.size_of_ascii hAscii, hAgrees.unitSize_eq]

theorem Agrees.encodes_iff {bytes : List Nat} (hAgrees : e.Agrees e') (hAscii : ch < 0x80) :
    e'.Encodes ch bytes ↔ e.Encodes ch bytes := by
  rcases hAgrees with rfl | ⟨hOne, hTwo⟩
  · rfl
  · rw [encodes_ascii_iff hTwo hAscii, encodes_ascii_iff hOne hAscii]

/-- Every text takes at most as many code units in the second encoding as in the first. -/
def NoLonger (e e' : Encoding) : Prop :=
  ∀ text : Chars, e'.size text / e'.unitSize ≤ e.size text / e.unitSize

/-- In UTF-16 a character takes no more code units than bytes in UTF-8. -/
theorem width_utf16_le (order : ByteOrder) (ch : CodePoint) :
    (Encoding.utf16 order).width ch ≤ 2 * Encoding.utf8.width ch := by
  change (Utf16.encode order ch).length ≤ 2 * (Utf8.encode ch).length
  unfold Utf16.encode
  split
  · have hSome := List.length_pos_iff.mpr (Utf8.encode_ne_nil ch)
    rw [order.length_bytes]
    omega
  · have hLong : (Utf8.encode ch).length = 4 := by
      rw [Utf8.encode, if_neg (by omega), if_neg (by omega), if_neg (by omega), List.length_cons, Utf8.length_tail]
    rw [hLong, List.length_append, order.length_bytes, order.length_bytes]
    decide

theorem noLonger_utf16 (order : ByteOrder) : Encoding.utf8.NoLonger (.utf16 order) := by
  intro text
  have hSize : (Encoding.utf16 order).size text ≤ 2 * Encoding.utf8.size text := by
    induction text with
    | nil => exact Nat.le_refl _
    | cons ch text ih =>
      have hWidth := width_utf16_le order ch
      rw [size_cons, size_cons]
      omega
  change _ / 2 ≤ _ / 1
  omega

end Encoding

namespace Cursor

def recode (c : Cursor) (e : Encoding) : Cursor :=
  { c with encoding := e }

variable {c : Cursor} {e : Encoding} {text : Chars}

@[simp] theorem encoding_recode : (c.recode e).encoding = e :=
  rfl

theorem readsAt_recode_iff {offset : Nat} (hAgrees : c.encoding.Agrees e) (hAscii : IsAscii text) :
    (c.recode e).ReadsAt offset text ↔ c.ReadsAt offset text := by
  induction text generalizing offset with
  | nil => rfl
  | cons ch text ih =>
    rw [isAscii_cons] at hAscii
    have hWidth := hAgrees.width_eq hAscii.1
    have hChar : (c.recode e).charAt offset = .ok (ch, c.encoding.width ch) ↔
        c.charAt offset = .ok (ch, c.encoding.width ch) := by
      simp only [charAt_eq_ok_iff, Encoding.decodeAt_eq_ok_iff, encoding_recode,
        hAgrees.encodes_iff hAscii.1]
      rfl
    simp only [ReadsAt, encoding_recode, hWidth, hChar, ih hAscii.2]

theorem reads_recode_iff (hAgrees : c.encoding.Agrees e) (hAscii : IsAscii text) :
    (c.recode e).Reads text ↔ c.Reads text :=
  readsAt_recode_iff hAgrees hAscii

theorem advance_recode (hAgrees : c.encoding.Agrees e) (hAscii : IsAscii text) :
    (c.recode e).advance text = (c.advance text).recode e := by
  induction text generalizing c with
  | nil => rfl
  | cons ch text ih =>
    rw [isAscii_cons] at hAscii
    have hRest := ih (c := { c with offset := c.offset + c.encoding.width ch, last := c.offset }) hAgrees
      hAscii.2
    rw [advance, encoding_recode, hAgrees.width_eq hAscii.1]
    exact hRest

end Cursor

end XmlIndex
