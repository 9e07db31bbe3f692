import XmlIndex.Proofs.Text.Transcription

/-! # Encodings of all of Unicode

UTF-8 and UTF-16 have bytes for every character. Decoding undoes them and accepts nothing else, so a
range of bytes is read to its end just if it is a text in that encoding, and one text only.
-/
namespace XmlIndex
set_option autoImplicit false

def bytesBetween (doc : ByteArray) (stop i : Nat) : List Nat :=
  (doc.extract i stop).toList.map UInt8.toNat

section
variable {doc : ByteArray} {stop i : Nat} {bytes : List Nat} {e : Encoding} {characters : List (CodePoint × Nat)}

theorem length_bytesBetween (hDoc : stop ≤ doc.size) (hStop : i ≤ stop) :
    i + (bytesBetween doc stop i).length = stop := by
  rw [bytesBetween, List.length_map, length_toList, ByteArray.size_extract]
  omega

theorem bytesAt_bytesBetween (hDoc : stop ≤ doc.size) (hStop : i ≤ stop) :
    BytesAt doc stop i (bytesBetween doc stop i) := by
  have hLength := length_bytesBetween hDoc hStop
  refine .of_forall fun k hk => ?_
  have hSize : k < (doc.extract i stop).size := by
    rwa [bytesBetween, List.length_map, length_toList] at hk
  have hByte : byteAt? (doc.extract i stop) (doc.extract i stop).size (0 + k) = some (bytesBetween doc stop i)[k] :=
    (bytesAt_toList (doc.extract i stop)).byteAt?_eq hk
  rw [Nat.zero_add, byteAt?, if_pos hSize, dif_pos hSize, ByteArray.getElem_extract] at hByte
  rw [byteAt?, if_pos (by omega), dif_pos (by omega)]
  exact hByte

theorem bytesAt_iff_isPrefix (hDoc : stop ≤ doc.size) (hStop : i ≤ stop) :
    BytesAt doc stop i bytes ↔ bytes <+: bytesBetween doc stop i := by
  have hRange := bytesAt_bytesBetween hDoc hStop
  have hLength := length_bytesBetween hDoc hStop
  constructor
  · intro hBytes
    by_cases hNil : bytes = []
    · exact hNil ▸ List.nil_prefix
    · have hRoom := hBytes.le_stop hNil
      rw [← List.take_append_drop bytes.length (bytesBetween doc stop i), BytesAt.append_iff] at hRange
      refine List.prefix_iff_eq_take.mpr (hBytes.unique hRange.1 ?_)
      rw [List.length_take]
      omega
  · rintro ⟨rest, hRest⟩
    rw [← hRest, BytesAt.append_iff] at hRange
    exact hRange.1

/-- A range is read to its end just if its bytes are those of a text. -/
theorem Encoding.decodeFrom_eq_iff_spells (hDoc : stop ≤ doc.size) (hStop : i ≤ stop) :
    e.decodeFrom doc stop i = (characters, none) ↔
      ∃ text, e.Spells text (bytesBetween doc stop i) ∧ characters = text.map fun ch => (ch, e.width ch) := by
  have hRange := bytesAt_bytesBetween hDoc hStop
  have hLength := length_bytesBetween hDoc hStop
  constructor
  · intro hWhole
    obtain ⟨-, bytes, hSpells, hBytes, hEnd⟩ := exists_spells_of_decodeFrom hStop hWhole
    obtain rfl := hBytes.unique hRange (by omega)
    exact ⟨_, hSpells, (Prod.mk.inj (hWhole.symm.trans (decodeFrom_of_bytesAt hSpells hRange hLength))).1⟩
  · rintro ⟨text, hSpells, rfl⟩
    exact decodeFrom_of_bytesAt hSpells hRange hLength

end

/-- The encodings that have every character. -/
inductive UnicodeForm where
  | utf8
  | utf16 (order : ByteOrder)

def ByteOrder.unit : ByteOrder → (first second : Nat) → Nat
  | .big, first, second => 256 * first + second
  | .little, first, second => 256 * second + first

theorem ByteOrder.unit_eq_iff {order : ByteOrder} {first second unit : Nat} (hFirst : first < 256)
    (hSecond : second < 256) : order.bytes unit = [first, second] ↔ unit = order.unit first second := by
  cases order <;> simp only [bytes, ByteOrder.unit, List.cons.injEq, and_true] <;> omega

namespace UnicodeForm

def encoding : UnicodeForm → Encoding
  | .utf8 => .utf8
  | .utf16 order => .utf16 order

/-- The bytes of a character: the shortest form of UTF-8, or the one or two units of UTF-16. -/
def bytes : UnicodeForm → Char → List Nat
  | .utf8, ch => (String.utf8EncodeChar ch).map UInt8.toNat
  | .utf16 order, ch => Utf16.encode order ch.toNat

/-- How many bytes the first byte or unit calls for. Where it begins no character of several bytes or
units, it is alone. -/
def promised : UnicodeForm → List Nat → Nat
  | .utf8, lead :: _ =>
    if 0xC2 ≤ lead ∧ lead < 0xE0 then 2
    else if 0xE0 ≤ lead ∧ lead < 0xF0 then 3
    else if 0xF0 ≤ lead ∧ lead < 0xF5 then 4
    else 1
  | .utf8, [] => 1
  | .utf16 order, first :: second :: _ =>
    if 0xD800 ≤ order.unit first second ∧ order.unit first second < 0xDC00 then 4 else 2
  | .utf16 _, _ => 2

variable {form : UnicodeForm} {c : Nat} {list rest : List Nat} {text : List CodePoint} {ch : Char}

theorem bytes_utf8 : bytes .utf8 ch = Utf8.encode ch.toNat := by
  rw [← utf8EncodeChar_ofNat (Encoding.isScalar_toNat ch), Char.ofNat_toNat]
  rfl

theorem length_bytes : (form.bytes ch).length = form.encoding.width ch.toNat := by
  cases form with
  | utf8 => exact congrArg List.length bytes_utf8
  | utf16 order => rfl

theorem encodes_iff : form.encoding.Encodes c list ↔ ∃ ch : Char, ch.toNat = c ∧ form.bytes ch = list := by
  constructor
  · intro hEncodes
    cases form with
    | utf8 =>
      obtain ⟨hScalar, rfl⟩ := hEncodes
      exact ⟨Char.ofNat c, toNat_ofNat_of_isScalar hScalar, utf8EncodeChar_ofNat hScalar⟩
    | utf16 order =>
      obtain ⟨hScalar, rfl⟩ := hEncodes
      exact ⟨Char.ofNat c, toNat_ofNat_of_isScalar hScalar,
        congrArg (Utf16.encode order) (toNat_ofNat_of_isScalar hScalar)⟩
  · rintro ⟨ch, rfl, rfl⟩
    cases form with
    | utf8 => exact ⟨Encoding.isScalar_toNat ch, bytes_utf8⟩
    | utf16 order => exact ⟨Encoding.isScalar_toNat ch, rfl⟩

theorem spells_iff : form.encoding.Spells text list ↔
    ∃ chars : List Char, chars.map Char.toNat = text ∧ chars.flatMap form.bytes = list := by
  constructor
  · intro hSpells
    induction text generalizing list with
    | nil => exact ⟨[], rfl, Eq.symm hSpells⟩
    | cons c text ih =>
      obtain ⟨first, others, hFirst, hOthers, rfl⟩ := hSpells
      obtain ⟨ch, rfl, rfl⟩ := encodes_iff.mp hFirst
      obtain ⟨chars, rfl, rfl⟩ := ih hOthers
      exact ⟨ch :: chars, rfl, rfl⟩
  · rintro ⟨chars, rfl, rfl⟩
    induction chars with
    | nil => rfl
    | cons ch chars ih => exact ⟨form.bytes ch, _, encodes_iff.mpr ⟨ch, rfl, rfl⟩, ih, rfl⟩

theorem promised_unit {order : ByteOrder} {unit : Nat} : promised (.utf16 order) (order.bytes unit ++ rest) =
    if 0xD800 ≤ unit ∧ unit < 0xDC00 then 4 else 2 := by
  have hUnit : 256 * (unit / 256) + unit % 256 = unit := Nat.div_add_mod unit 256
  cases order <;> simp only [ByteOrder.bytes, List.cons_append, promised, ByteOrder.unit, hUnit]

/-- A character is as long as its first byte or unit calls for. -/
theorem promised_bytes : form.promised (form.bytes ch ++ rest) = (form.bytes ch).length := by
  have hScalar := CodePoint.isScalar_iff.mp (Encoding.isScalar_toNat ch)
  cases form with
  | utf8 =>
    rw [bytes_utf8]
    unfold Utf8.encode
    repeat' split
    all_goals
      simp only [List.cons_append, promised, List.length_cons, Utf8.length_tail, List.length_nil]
      repeat' split
      all_goals omega
  | utf16 order =>
    change promised (.utf16 order) (Utf16.encode order ch.toNat ++ rest) = (Utf16.encode order ch.toNat).length
    unfold Utf16.encode
    split
    · rw [promised_unit, if_neg (by omega), order.length_bytes]
    · rw [List.append_assoc, promised_unit, if_pos (by omega), List.length_append, order.length_bytes,
        order.length_bytes]

theorem cutsOff_iff (hNonempty : list ≠ []) (hBytes : ∀ byte ∈ list, byte < 256) :
    form.encoding.CutsOff list ↔ list.length < form.promised list := by
  cases form with
  | utf8 =>
    obtain ⟨lead, rest, rfl⟩ := List.exists_cons_of_ne_nil hNonempty
    simp only [encoding, Encoding.CutsOff, promised, List.length_cons]
    repeat' split
    all_goals omega
  | utf16 order =>
    rcases list with _ | ⟨first, _ | ⟨second, rest⟩⟩
    · exact absurd rfl hNonempty
    · simp [encoding, Encoding.CutsOff, promised]
    · have hFirst := hBytes first List.mem_cons_self
      have hSecond := hBytes second (List.mem_cons_of_mem _ List.mem_cons_self)
      simp only [encoding, Encoding.CutsOff, promised, ByteOrder.unit_eq_iff hFirst hSecond, exists_eq_left,
        List.length_cons]
      split
      · omega
      · omega

variable {doc : ByteArray} {stop i : Nat}

theorem lt_of_mem_bytesBetween {byte : Nat} (hByte : byte ∈ bytesBetween doc stop i) : byte < 256 := by
  obtain ⟨byte, -, rfl⟩ := List.mem_map.mp hByte
  exact UInt8.toNat_lt byte

theorem decodeAt_eq_ok_iff {w : Nat} (hDoc : stop ≤ doc.size) (hStop : i ≤ stop) :
    form.encoding.decodeAt doc stop i = .ok (c, w) ↔
      ∃ ch : Char, ch.toNat = c ∧ (form.bytes ch).length = w ∧ form.bytes ch <+: bytesBetween doc stop i := by
  rw [Encoding.decodeAt_eq_ok_iff]
  constructor
  · rintro ⟨list, hEncodes, rfl, hBytes⟩
    obtain ⟨ch, rfl, rfl⟩ := encodes_iff.mp hEncodes
    exact ⟨ch, rfl, rfl, (bytesAt_iff_isPrefix hDoc hStop).mp hBytes⟩
  · rintro ⟨ch, rfl, rfl, hPrefix⟩
    exact ⟨_, encodes_iff.mpr ⟨ch, rfl, rfl⟩, rfl, (bytesAt_iff_isPrefix hDoc hStop).mpr hPrefix⟩

theorem decodeAt_eq_truncated_iff (hDoc : stop ≤ doc.size) (hStop : i ≤ stop) :
    form.encoding.decodeAt doc stop i = .error .truncated ↔
      (bytesBetween doc stop i).length < form.promised (bytesBetween doc stop i) := by
  rw [Encoding.decodeAt_eq_truncated_iff (bytesAt_bytesBetween hDoc hStop) (length_bytesBetween hDoc hStop)]
  by_cases hNil : bytesBetween doc stop i = []
  · rw [hNil]
    cases form <;> simp [promised]
  · rw [or_iff_right hNil]
    exact cutsOff_iff hNil fun byte hByte => lt_of_mem_bytesBetween hByte

theorem decodeFrom_eq_iff {characters : List (CodePoint × Nat)} (hDoc : stop ≤ doc.size) (hStop : i ≤ stop) :
    form.encoding.decodeFrom doc stop i = (characters, none) ↔
      ∃ chars : List Char, chars.flatMap form.bytes = bytesBetween doc stop i ∧
        characters = chars.map fun ch => (ch.toNat, (form.bytes ch).length) := by
  rw [Encoding.decodeFrom_eq_iff_spells hDoc hStop]
  constructor
  · rintro ⟨text, hSpells, rfl⟩
    obtain ⟨chars, rfl, hBytes⟩ := spells_iff.mp hSpells
    refine ⟨chars, hBytes, ?_⟩
    simp only [List.map_map, Function.comp_def, length_bytes]
  · rintro ⟨chars, hBytes, rfl⟩
    refine ⟨_, spells_iff.mpr ⟨chars, rfl, hBytes⟩, ?_⟩
    simp only [List.map_map, Function.comp_def, length_bytes]

/-- The library takes the same bytes for UTF-8. -/
theorem isValidUTF8_iff (hDoc : stop ≤ doc.size) (hStop : i ≤ stop) :
    (doc.extract i stop).IsValidUTF8 ↔ ∃ characters, Encoding.utf8.decodeFrom doc stop i = (characters, none) := by
  constructor
  · rintro ⟨chars, hBytes⟩
    refine ⟨_, (@decodeFrom_eq_iff .utf8 _ _ _ _ hDoc hStop).mpr ⟨chars, ?_, rfl⟩⟩
    rw [bytesBetween, hBytes, List.utf8Encode, toList_toByteArray, List.map_flatMap]
    rfl
  · rintro ⟨characters, hDecode⟩
    obtain ⟨chars, hBytes, -⟩ := (@decodeFrom_eq_iff .utf8 _ _ _ _ hDoc hStop).mp hDecode
    have hList : (chars.flatMap String.utf8EncodeChar).map UInt8.toNat = bytesBetween doc stop i := by
      rw [← hBytes, List.map_flatMap]
      rfl
    have hSame := List.map_inj_right (fun _ _ => UInt8.toNat_inj.mp) |>.mp hList
    exact ⟨chars, by rw [List.utf8Encode, hSame, toByteArray_toList]⟩

/-- A character is decoded just where its bytes stand, and a range just if it is a text. Decoding ends too soon just
where fewer bytes are left than the first one or the first unit calls for. No two ranges decode to one text. -/
theorem decodes_exactly (form : UnicodeForm) {doc : ByteArray} {stop i : Nat} (hDoc : stop ≤ doc.size)
    (hStop : i ≤ stop) :
    (∀ c w, form.encoding.decodeAt doc stop i = .ok (c, w) ↔
      ∃ ch : Char, ch.toNat = c ∧ (form.bytes ch).length = w ∧ form.bytes ch <+: bytesBetween doc stop i) ∧
    (form.encoding.decodeAt doc stop i = .error .truncated ↔
      (bytesBetween doc stop i).length < form.promised (bytesBetween doc stop i)) ∧
    (∀ characters, form.encoding.decodeFrom doc stop i = (characters, none) ↔
      ∃ chars : List Char, chars.flatMap form.bytes = bytesBetween doc stop i ∧
        characters = chars.map fun ch => (ch.toNat, (form.bytes ch).length)) ∧
    ∀ {doc' : ByteArray} {stop' i' : Nat}, stop' ≤ doc'.size → i' ≤ stop' → ∀ characters characters',
      form.encoding.decodeFrom doc stop i = (characters, none) →
      form.encoding.decodeFrom doc' stop' i' = (characters', none) →
      characters.map Prod.fst = characters'.map Prod.fst → bytesBetween doc stop i = bytesBetween doc' stop' i' := by
  refine ⟨fun c w => decodeAt_eq_ok_iff hDoc hStop, decodeAt_eq_truncated_iff hDoc hStop,
    fun characters => decodeFrom_eq_iff hDoc hStop, ?_⟩
  intro doc' stop' i' hDoc' hStop' characters characters' hDecode hDecode' hSame
  obtain ⟨text, hSpells, rfl⟩ := (Encoding.decodeFrom_eq_iff_spells hDoc hStop).mp hDecode
  obtain ⟨text', hSpells', rfl⟩ := (Encoding.decodeFrom_eq_iff_spells hDoc' hStop').mp hDecode'
  obtain rfl : text = text' := by simpa [List.map_map, Function.comp_def] using hSame
  exact hSpells.unique hSpells'

/-- A clef takes a pair of surrogates, which is cut off where fewer than four bytes are left. -/
theorem decodes_clef :
    (Encoding.utf16 .big).decodeAt ⟨#[0xD8, 0x34, 0xDD, 0x1E]⟩ 4 0 = .ok (0x1D11E, 4) ∧
    (Encoding.utf16 .big).decodeAt ⟨#[0xD8, 0x34, 0xDD, 0x1E]⟩ 3 0 = .error .truncated ∧
    ¬∃ w, Encoding.utf8.decodeAt ⟨#[0xED, 0xA0, 0xB4]⟩ 3 0 = .ok (0xD834, w) := by
  refine ⟨?_, ?_, ?_⟩
  · exact ((decodes_exactly (.utf16 .big) (by decide) (by decide)).1 0x1D11E 4).mpr
      ⟨Char.ofNat 0x1D11E, by decide, by decide, by decide +kernel⟩
  · exact (decodes_exactly (.utf16 .big) (by decide) (by decide)).2.1.mpr (by decide +kernel)
  · rintro ⟨w, hRead⟩
    obtain ⟨ch, hSame, -⟩ := ((decodes_exactly .utf8 (by decide) (by decide)).1 _ _).mp hRead
    have hScalar := CodePoint.isScalar_iff.mp (Encoding.isScalar_toNat ch)
    omega

end UnicodeForm
end XmlIndex
