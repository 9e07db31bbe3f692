import XmlIndex.Proofs.Scan.Ranges
import XmlIndex.Proofs.Scan.Recoding
import XmlIndex.Proofs.Text.Rendering

/-! # Texts in UTF-8 and in UTF-16

A text can be stored in four ways whose first bytes tell the encoding: in UTF-8, with a mark or without, and in
UTF-16, with a mark and in either order. A cursor after the mark reads the text, to its end.
-/
namespace XmlIndex
set_option autoImplicit false
open Grammar

inductive Carrier where
  | utf8
  | utf8Marked
  | utf16 (order : ByteOrder)
  deriving DecidableEq, Repr

def Utf16.rendering (order : ByteOrder) (text : Chars) : List UInt8 :=
  (text.flatMap (encode order)).map UInt8.ofNat

namespace Carrier

def encoding : Carrier → Encoding
  | .utf8 | .utf8Marked => .utf8
  | .utf16 order => .utf16 order

def mark : Carrier → ByteOrderMark
  | .utf8 => .none
  | .utf8Marked => .utf8
  | .utf16 _ => .utf16

def markBytes : Carrier → List UInt8
  | .utf8 => []
  | .utf8Marked => [0xEF, 0xBB, 0xBF]
  | .utf16 .little => [0xFF, 0xFE]
  | .utf16 .big => [0xFE, 0xFF]

def bytes (c : Carrier) (text : String) : ByteArray :=
  c.markBytes.toByteArray ++ match c with
    | .utf8 | .utf8Marked => text.toUTF8
    | .utf16 order => (Utf16.rendering order (CodePoint.ofText text)).toByteArray

def detected (c : Carrier) : Detected :=
  ⟨c.encoding, c.mark⟩

end Carrier

variable {text : String} {c : Carrier}

theorem CodePoint.isScalar_of_mem_ofText {ch : CodePoint} (hch : ch ∈ CodePoint.ofText text) : CodePoint.IsScalar ch := by
  obtain ⟨char, -, rfl⟩ := List.mem_map.mp hch
  have hChar : char.toNat < 0xD800 ∨ 0xDFFF < char.toNat ∧ char.toNat < 0x110000 := char.valid
  rw [CodePoint.isScalar_iff]
  omega

theorem rendering_ofText : rendering (CodePoint.ofText text) = text.toUTF8 := by
  rw [rendering, CodePoint.ofText, List.map_map]
  simp [Function.comp_def]

theorem Utf16.lt_of_mem_encode {order : ByteOrder} {ch byte : Nat} (hScalar : CodePoint.IsScalar ch)
    (hByte : byte ∈ encode order ch) : byte < 256 := by
  have hUnit {unit : Nat} (hUnit : unit < 0x10000) (hMem : byte ∈ order.bytes unit) : byte < 256 := by
    cases order <;> simp only [ByteOrder.bytes, List.mem_cons, List.not_mem_nil, or_false] at hMem <;> omega
  rw [CodePoint.isScalar_iff] at hScalar
  unfold encode at hByte
  split at hByte
  · exact hUnit ‹_› hByte
  · rcases List.mem_append.mp hByte with hHigh | hLow
    · exact hUnit (by omega) hHigh
    · exact hUnit (by omega) hLow

theorem Encoding.spells_flatMap {order : ByteOrder} {chars : Chars} (hScalar : ∀ ch ∈ chars, CodePoint.IsScalar ch) :
    (Encoding.utf16 order).Spells chars (chars.flatMap (Utf16.encode order)) := by
  induction chars with
  | nil => rfl
  | cons ch chars ih =>
    obtain ⟨hFirst, hRest⟩ := List.forall_mem_cons.mp hScalar
    exact ⟨Utf16.encode order ch, _, ⟨hFirst, rfl⟩, ih hRest, List.flatMap_cons⟩

theorem Utf16.spells_rendering {order : ByteOrder} {chars : Chars} (hScalar : ∀ ch ∈ chars, CodePoint.IsScalar ch) :
    (Encoding.utf16 order).Spells chars ((rendering order chars).map UInt8.toNat) := by
  have hBytes : (rendering order chars).map UInt8.toNat = chars.flatMap (encode order) := by
    rw [rendering, List.map_map]
    refine (List.map_congr_left fun byte hByte => ?_).trans (List.map_id _)
    obtain ⟨ch, hch, hByte⟩ := List.mem_flatMap.mp hByte
    exact UInt8.toNat_ofNat_of_lt' (lt_of_mem_encode (hScalar ch hch) hByte)
  rw [hBytes]
  exact Encoding.spells_flatMap hScalar

theorem Carrier.noLonger_encoding : Encoding.utf8.NoLonger c.encoding := by
  cases c with
  | utf16 order => exact Encoding.noLonger_utf16 order
  | _ => exact fun _ => Nat.le_refl _

namespace Carrier

theorem length_markBytes : c.markBytes.length = c.mark.size := by
  cases c with
  | utf16 order => cases order <;> rfl
  | _ => rfl

theorem exists_bytes : ∃ body : List UInt8, c.bytes text = (c.markBytes ++ body).toByteArray ∧
    c.encoding.Spells (CodePoint.ofText text) (body.map UInt8.toNat) := by
  have hScalar : ∀ ch ∈ CodePoint.ofText text, CodePoint.IsScalar ch := fun _ => CodePoint.isScalar_of_mem_ofText
  have hUtf8 : text.toUTF8 = (renderedBytes (CodePoint.ofText text)).toByteArray := by
    rw [← rendering_ofText, rendering_eq]
  cases c with
  | utf16 order => exact ⟨_, List.toByteArray_append.symm, Utf16.spells_rendering hScalar⟩
  | _ => exact ⟨_, (congrArg (_ ++ ·) hUtf8).trans List.toByteArray_append.symm, spells_renderedBytes hScalar⟩

theorem size_bytes : (c.bytes text).size = c.mark.size + c.encoding.size (CodePoint.ofText text) := by
  obtain ⟨body, hBytes, hSpells⟩ := @exists_bytes text c
  rw [hBytes, List.size_toByteArray, List.length_append, length_markBytes, ← hSpells.length_eq, List.length_map]

def cursor (c : Carrier) (text : String) : Cursor :=
  .atStart (c.bytes text) c.mark.size (c.bytes text).size c.encoding

theorem reads_cursor : (c.cursor text).Reads (CodePoint.ofText text) := by
  obtain ⟨body, hBytes, hSpells⟩ := @exists_bytes text c
  have hPlaced := @bytesAt_toByteArray c.markBytes body [] (c.bytes text).size
    (by rw [hBytes, List.size_toByteArray, List.length_append])
  rw [List.append_nil, ← hBytes, length_markBytes] at hPlaced
  exact Cursor.readsAt_iff_bytesAt.mpr ⟨_, hSpells, hPlaced⟩

theorem ends_cursor : ((c.cursor text).advance (CodePoint.ofText text)).Ends := by
  refine Cursor.ends_of_stop_le ?_
  rw [Cursor.stop_advance, Cursor.offset_advance]
  exact Nat.le_of_eq size_bytes

theorem ofHead_of_marked (hMarked : c ≠ .utf8) :
    Detected.ofHead (headBytes (c.bytes text) 0 (c.bytes text).size) = .ok c.detected := by
  obtain ⟨body, hBytes, -⟩ := @exists_bytes text c
  rw [hBytes, List.size_toByteArray, headBytes_toByteArray]
  cases c with
  | utf8 => exact absurd rfl hMarked
  | utf8Marked => rfl
  | utf16 order => cases order <;> rfl

end Carrier

theorem Utf8.lt_of_encode_eq {ch byte : Nat} {rest : List Nat} (hScalar : CodePoint.IsScalar ch)
    (hEncode : encode ch = byte :: rest) : byte < 0xF8 := by
  rw [CodePoint.isScalar_iff] at hScalar
  unfold encode at hEncode
  split_ifs at hEncode
  all_goals
    have hByte := (List.cons.inj hEncode).1
    omega

/-- The mark in UTF-8 is that character alone. -/
theorem Utf8.eq_of_encode_mark {ch : Nat} {more rest : List Nat}
    (hEncode : encode ch ++ more = 0xEF :: 0xBB :: 0xBF :: rest) : ch = 0xFEFF := by
  unfold encode at hEncode
  -- The first byte tells that there are three, and all of them together the character.
  split_ifs at hEncode
  all_goals
    simp only [tail, List.cons_append, List.cons.injEq] at hEncode
    omega

theorem Utf8.ne_zero_of_mem_encode {ch byte : Nat} (hChar : ch ≠ 0) (hByte : byte ∈ encode ch) : byte ≠ 0 := by
  unfold encode tail tail tail tail at hByte
  split_ifs at hByte
  all_goals
    simp only [List.mem_cons, List.not_mem_nil, or_false] at hByte
    omega

theorem Encoding.ne_zero_of_spells {chars : Chars} {bytes : List Nat} (hNul : 0 ∉ chars)
    (hSpells : Encoding.utf8.Spells chars bytes) : 0 ∉ bytes := by
  induction chars generalizing bytes with
  | nil =>
    rw [show bytes = [] from hSpells]
    exact List.not_mem_nil
  | cons ch chars ih =>
    obtain ⟨_, others, ⟨-, rfl⟩, hOthers, rfl⟩ := hSpells
    rw [List.mem_cons, not_or] at hNul
    rw [List.mem_append]
    rintro (hZero | hZero)
    · exact Utf8.ne_zero_of_mem_encode (Ne.symm hNul.1) hZero rfl
    · exact ih hNul.2 hOthers hZero

theorem Encoding.exists_head_of_spells {chars : Chars} {bytes : List Nat} (hSome : bytes ≠ [])
    (hSpells : Encoding.utf8.Spells chars bytes) :
    ∃ ch others, chars.head? = some ch ∧ CodePoint.IsScalar ch ∧ bytes = Utf8.encode ch ++ others := by
  cases chars with
  | nil => exact absurd hSpells hSome
  | cons ch chars =>
    obtain ⟨_, others, ⟨hScalar, rfl⟩, -, rfl⟩ := hSpells
    exact ⟨ch, others, rfl, hScalar, rfl⟩

theorem Detected.eq_of_ofHead {bytes : List Nat} {detected : Detected} (hHead : ofHead bytes = .ok detected)
    (hNul : 0 ∉ bytes) (hLead : ∀ byte rest, bytes = byte :: rest → byte < 0xF8)
    (hMark : ∀ rest, bytes ≠ 0xEF :: 0xBB :: 0xBF :: rest) : detected = ⟨.utf8, .none⟩ := by
  unfold ofHead at hHead
  split at hHead <;> cases hHead
  · exact absurd (hLead _ _ rfl) (by decide)
  · exact absurd (hLead _ _ rfl) (by decide)
  · exact absurd rfl (hMark _)
  · exact absurd List.mem_cons_self hNul
  · exact absurd (by simp) hNul
  · rfl

namespace Carrier

/-- Without a mark a text is taken to be in UTF-8, unless it is refused or begins like one with a mark. -/
theorem detected_of_ofHead {detected : Detected} (hNul : 0 ∉ CodePoint.ofText text)
    (hMark : (CodePoint.ofText text).head? ≠ some 0xFEFF)
    (hHead : Detected.ofHead (headBytes (c.bytes text) 0 (c.bytes text).size) = .ok detected) :
    detected = c.detected := by
  by_cases hMarked : c = .utf8
  · obtain ⟨body, hBytes, hSpells⟩ := @exists_bytes text c
    subst hMarked
    rw [hBytes, List.size_toByteArray, headBytes_toByteArray, List.map_take] at hHead
    -- No byte is zero, so what is looked at cannot be taken for UTF-16 without a mark.
    have hNone := Encoding.ne_zero_of_spells hNul hSpells
    have hAll {byte : Nat} {rest : List Nat} (hFirst : (body.map UInt8.toNat).take 4 = byte :: rest) :
        body.map UInt8.toNat = byte :: (rest ++ (body.map UInt8.toNat).drop 4) := by
      rw [← List.cons_append, ← hFirst, List.take_append_drop]
    refine Detected.eq_of_ofHead hHead (fun hZero => hNone (List.mem_of_mem_take hZero)) ?_ ?_
    · intro byte rest hFirst
      rw [hAll hFirst] at hSpells
      obtain ⟨ch, others, -, hScalar, hBody⟩ := Encoding.exists_head_of_spells (List.cons_ne_nil _ _) hSpells
      obtain ⟨head, tail, hEncode⟩ := List.exists_cons_of_ne_nil (Utf8.encode_ne_nil ch)
      rw [hEncode] at hBody
      obtain rfl : byte = head := (List.cons.inj hBody).1
      exact Utf8.lt_of_encode_eq hScalar hEncode
    · intro rest hFirst
      rw [hAll hFirst] at hSpells
      obtain ⟨ch, others, hChar, -, hBody⟩ := Encoding.exists_head_of_spells (List.cons_ne_nil _ _) hSpells
      exact hMark (hChar.trans (congrArg some (Utf8.eq_of_encode_mark hBody.symm)))
  · exact Except.ok.inj (hHead.symm.trans (ofHead_of_marked hMarked))

/-- A text that begins with a character of ASCII is found to be in UTF-8 without a mark. -/
theorem ofHead_bytes {ch next : CodePoint} {rest : Chars} (hText : CodePoint.ofText text = ch :: next :: rest)
    (hAscii : ch < 0x80) (hValid : IsValid (CodePoint.ofText text)) :
    Detected.ofHead (headBytes (c.bytes text) 0 (c.bytes text).size) = .ok c.detected := by
  by_cases hMarked : c = .utf8
  · have hHead := @ofHead_rendering_append _ [] _ _ _ hText hAscii hValid
    rw [rendering_append_nil, rendering_ofText] at hHead
    subst hMarked
    have hBytes : Carrier.utf8.bytes text = text.toUTF8 := ByteArray.empty_append
    rw [hBytes]
    exact hHead
  · exact ofHead_of_marked hMarked

end Carrier
end XmlIndex
