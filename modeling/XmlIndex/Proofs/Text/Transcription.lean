import XmlIndex.Proofs.Index.Records
import XmlIndex.Proofs.Scan.Ranges
import XmlIndex.Proofs.Scan.Spans
import XmlIndex.Proofs.Text.Rendering

/-! # Bytes that are texts

Bytes decode as a text from start to end if they are what the text is spelled with, one character
after the other. In UTF-8 that is to be valid, and bytes of ASCII are their own code points in all
encodings by bytes.
-/
namespace XmlIndex
set_option autoImplicit false

theorem byteAt?_lt {doc : ByteArray} {stop i byte : Nat} (hByte : byteAt? doc stop i = some byte) :
    byte < 0x100 := by
  unfold byteAt? at hByte
  split at hByte
  · split at hByte
    · obtain rfl := Option.some.inj hByte
      exact UInt8.toNat_lt _
    · cases hByte
  · cases hByte

/-- Every decoder yields characters, never a surrogate. -/
theorem Encoding.isScalar_of_decodeAt {e : Encoding} {doc : ByteArray} {stop i c w : Nat}
    (hRead : e.decodeAt doc stop i = .ok (c, w)) : CodePoint.IsScalar c := by
  obtain ⟨bytes, hBytes, -, hFound⟩ := decodeAt_eq_ok_iff.mp hRead
  cases e with
  | utf8 => exact hBytes.1
  | utf16 => exact hBytes.1
  | ascii => exact .inl (Nat.lt_trans hBytes.1 (by decide))
  | latin1 =>
    obtain rfl : bytes = [c] := hBytes
    exact .inl (Nat.lt_trans (byteAt?_lt hFound.1) (by decide))
  | _ =>
    obtain ⟨byte, hMapped, -⟩ := (encodes_of_page? rfl).mp hBytes
    exact (CodePage.lawful _).isScalar hMapped

section
variable {doc : ByteArray} {stop stop' i : Nat} {bytes : List Nat}

theorem byteAt?_of_lt {byte : Nat} (hByte : byteAt? doc stop i = some byte) (hStop : i < stop') :
    byteAt? doc stop' i = some byte :=
  byteAt?_eq_some_iff.mpr ⟨hStop, (byteAt?_eq_some_iff.mp hByte).2⟩

theorem BytesAt.of_forall (hAll : ∀ k (hk : k < bytes.length), byteAt? doc stop (i + k) = some bytes[k]) :
    BytesAt doc stop i bytes := by
  induction bytes generalizing i with
  | nil => trivial
  | cons byte bytes ih =>
    refine ⟨hAll 0 (Nat.succ_pos _), ih fun k hk => ?_⟩
    rw [Nat.add_assoc, Nat.add_comm 1]
    exact hAll (k + 1) (Nat.succ_lt_succ hk)

/-- What stands in a range does not depend on where it ends. -/
theorem BytesAt.restop (hBytes : BytesAt doc stop i bytes) (hRoom : i + bytes.length ≤ stop') :
    BytesAt doc stop' i bytes :=
  .of_forall fun _ hk => byteAt?_of_lt (hBytes.byteAt?_eq hk) (Nat.lt_of_lt_of_le (Nat.add_lt_add_left hk i) hRoom)

end

theorem bytesAt_toList (bytes : ByteArray) : BytesAt bytes bytes.size 0 (bytes.toList.map UInt8.toNat) := by
  have hWhole := @bytesAt_toByteArray [] bytes.toList [] bytes.size (by simp [length_toList])
  rwa [List.append_nil, List.nil_append, toByteArray_toList] at hWhole

theorem BytesAt.eq_toList {bytes : ByteArray} {list : List Nat} (hBytes : BytesAt bytes bytes.size 0 list)
    (hLength : list.length = bytes.size) : list = bytes.toList.map UInt8.toNat :=
  hBytes.unique (bytesAt_toList bytes) (by rw [List.length_map, length_toList, hLength])

namespace Encoding
variable {e : Encoding} {bytes doc : ByteArray} {stop i : Nat} {text : List CodePoint} {s : String}
  {characters : List (CodePoint × Nat)}

/-- Decoding the bytes from start to end yields the text. -/
def Decodes (e : Encoding) (bytes : ByteArray) (s : String) : Prop :=
  ∃ characters, e.decodeFrom bytes bytes.size 0 = (characters, none) ∧
    CodePoint.ofText s = characters.map Prod.fst

theorem exists_spells_of_decodeFrom (hStop : i ≤ stop) (hDecode : e.decodeFrom doc stop i = (characters, none)) :
    (∀ read ∈ characters, CodePoint.IsScalar read.1) ∧ ∃ list, e.Spells (characters.map Prod.fst) list ∧
      BytesAt doc stop i list ∧ i + list.length = stop := by
  induction characters generalizing i with
  | nil =>
    refine ⟨nofun, [], rfl, trivial, Nat.le_antisymm hStop (Nat.not_lt.mp fun hMore => ?_)⟩
    cases hRead : e.decodeAt doc stop i with
    | error fault => cases (decodeFrom_of_error hMore hRead).symm.trans hDecode
    | ok read => cases (decodeFrom_of_ok hRead).symm.trans hDecode
  | cons read characters ih =>
    have hMore : i < stop := Nat.not_le.mp fun hEnd => nomatch (decodeFrom_of_le hEnd).symm.trans hDecode
    cases hRead : e.decodeAt doc stop i with
    | error fault => cases (decodeFrom_of_error hMore hRead).symm.trans hDecode
    | ok found =>
      obtain ⟨c, w⟩ := found
      rw [decodeFrom_of_ok hRead] at hDecode
      obtain ⟨hCharacters, hFault⟩ := Prod.mk.inj hDecode
      obtain ⟨rfl, hOthers⟩ := List.cons.inj hCharacters
      obtain ⟨first, hFirst, rfl, hFound⟩ := decodeAt_eq_ok_iff.mp hRead
      obtain ⟨hScalars, others, hSpells, hRest, hEnd⟩ :=
        ih (decodeAt_width hRead).2 (Prod.ext hOthers hFault)
      refine ⟨List.forall_mem_cons.mpr ⟨isScalar_of_decodeAt hRead, hScalars⟩, first ++ others,
        ⟨first, others, hFirst, hSpells, rfl⟩, BytesAt.append_iff.mpr ⟨hFound, hRest⟩, ?_⟩
      rw [List.length_append, ← hEnd, Nat.add_assoc]

theorem decodeFrom_of_bytesAt {list : List Nat} (hSpells : e.Spells text list) (hBytes : BytesAt doc stop i list)
    (hEnd : i + list.length = stop) : e.decodeFrom doc stop i = (text.map fun ch => (ch, e.width ch), none) := by
  rw [hSpells.length_eq] at hEnd
  have hReads : (Cursor.atStart doc i stop e).Reads text :=
    Cursor.readsAt_iff_bytesAt.mpr ⟨_, hSpells, hBytes⟩
  have hEnds : ((Cursor.atStart doc i stop e).advance text).Ends := by
    refine Cursor.ends_of_stop_le ?_
    rw [Cursor.stop_advance, Cursor.offset_advance]
    exact Nat.le_of_eq hEnd.symm
  exact (Cursor.decodeFrom_of_reads hReads hEnds).trans
    (congrArg _ (if_neg (Nat.not_lt.mpr (Nat.le_of_eq hEnd.symm))))

theorem decodeFrom_of_spells (hSpells : e.Spells text (bytes.toList.map UInt8.toNat)) :
    e.decodeFrom bytes bytes.size 0 = (text.map fun ch => (ch, e.width ch), none) := by
  refine decodeFrom_of_bytesAt hSpells (bytesAt_toList bytes) ?_
  rw [Nat.zero_add, List.length_map, length_toList]

/-- Bytes decode as one text at most. -/
theorem decodes_iff_of_spells (hSpells : e.Spells text (bytes.toList.map UInt8.toNat)) :
    e.Decodes bytes s ↔ CodePoint.ofText s = text := by
  have hText : (text.map fun ch => (ch, e.width ch)).map Prod.fst = text := by
    rw [List.map_map]
    exact List.map_id _
  unfold Decodes
  rw [decodeFrom_of_spells hSpells]
  constructor
  · rintro ⟨_, hDecode, rest⟩
    rw [rest, ← (Prod.mk.inj hDecode).1, hText]
  · intro hSame
    exact ⟨_, rfl, hSame.trans hText.symm⟩

theorem decodes_iff_spells : e.Decodes bytes s ↔
    e.Spells (CodePoint.ofText s) (bytes.toList.map UInt8.toNat) := by
  constructor
  · rintro ⟨characters, hDecode, hText⟩
    obtain ⟨-, list, hSpells, hBytes, hEnd⟩ := exists_spells_of_decodeFrom (Nat.zero_le _) hDecode
    rw [hText, ← hBytes.eq_toList (by omega)]
    exact hSpells
  · intro hSpells
    exact (decodes_iff_of_spells hSpells).mpr rfl

theorem ofList_ofText : String.ofList ((CodePoint.ofText s).map Char.ofNat) = s := by
  have hSame : (Char.ofNat ∘ Char.toNat) = id := funext Char.ofNat_toNat
  rw [CodePoint.ofText, List.map_map, hSame, List.map_id, String.ofList_toList]

theorem ofText_ofList (hScalar : ∀ ch ∈ text, CodePoint.IsScalar ch) :
    CodePoint.ofText (String.ofList (text.map Char.ofNat)) = text := by
  rw [CodePoint.ofText, String.toList_ofList, List.map_map]
  exact (List.map_congr_left fun ch hch => toNat_ofNat_of_isScalar (hScalar ch hch)).trans (List.map_id _)

theorem decodes_iff_of_decodeFrom (hDecode : e.decodeFrom bytes bytes.size 0 = (characters, none)) :
    e.Decodes bytes s ↔ s = String.ofList (characters.map fun read => Char.ofNat read.1) := by
  have hMap : (characters.map fun read => Char.ofNat read.1) = (characters.map Prod.fst).map Char.ofNat := by
    rw [List.map_map]
    rfl
  rw [hMap]
  constructor
  · rintro ⟨_, hAgain, hText⟩
    obtain rfl := (Prod.mk.inj (hAgain.symm.trans hDecode)).1
    rw [← hText, ofList_ofText]
  · rintro rfl
    obtain ⟨hScalar, -⟩ := exists_spells_of_decodeFrom (Nat.zero_le _) hDecode
    exact ⟨characters, hDecode, ofText_ofList (List.forall_mem_map.mpr hScalar)⟩

theorem not_decodes_of_fault {fault : DecodeFault}
    (hDecode : e.decodeFrom bytes bytes.size 0 = (characters, some fault)) : ¬e.Decodes bytes s := by
  rintro ⟨_, hAgain, -⟩
  cases hAgain.symm.trans hDecode

theorem spells_utf8_iff {list : List Nat} : Encoding.utf8.Spells text list ↔
    (∀ ch ∈ text, CodePoint.IsScalar ch) ∧ list = (renderedBytes text).map UInt8.toNat := by
  constructor
  · intro hSpells
    have hScalar : ∀ ch ∈ text, CodePoint.IsScalar ch := by
      induction text generalizing list with
      | nil => exact nofun
      | cons ch text ih =>
        obtain ⟨first, others, hFirst, hOthers, -⟩ := hSpells
        exact List.forall_mem_cons.mpr ⟨hFirst.1, ih hOthers⟩
    exact ⟨hScalar, hSpells.unique (spells_renderedBytes hScalar)⟩
  · rintro ⟨hScalar, rfl⟩
    exact spells_renderedBytes hScalar

theorem isScalar_toNat (ch : Char) : CodePoint.IsScalar ch.toNat := by
  have hValid := ch.valid
  rw [CodePoint.isScalar_iff]
  unfold UInt32.isValidChar Nat.isValidChar at hValid
  have hSame : ch.toNat = ch.val.toNat := rfl
  omega

theorem renderedBytes_ofText : (renderedBytes (CodePoint.ofText s)).toByteArray = s.toUTF8 := by
  rw [← rendering_eq, rendering, ofList_ofText]

/-- The library takes the same bytes for UTF-8 as the decoder, and for the same text. -/
theorem decodes_utf8_iff : Encoding.utf8.Decodes bytes s ↔ bytes = s.toUTF8 := by
  have hScalar : ∀ ch ∈ CodePoint.ofText s, CodePoint.IsScalar ch := by
    intro ch hch
    obtain ⟨c, -, rfl⟩ := List.mem_map.mp hch
    exact isScalar_toNat c
  rw [decodes_iff_spells, spells_utf8_iff, and_iff_right hScalar, ← renderedBytes_ofText]
  constructor
  · intro hBytes
    have hList := List.map_inj_right (fun _ _ => UInt8.toNat_inj.mp) |>.mp hBytes
    rw [← hList, toByteArray_toList]
  · rintro rfl
    rw [toList_toByteArray]

theorem fromUTF8?_eq_some_iff : String.fromUTF8? bytes = some s ↔ Encoding.utf8.Decodes bytes s := by
  rw [decodes_utf8_iff, String.fromUTF8?, Option.dite_none_right_eq_some]
  constructor
  · rintro ⟨hValid, hText⟩
    obtain rfl := Option.some.inj hText
    rfl
  · rintro rfl
    exact ⟨s.isValidUTF8, rfl⟩

theorem spells_self {list : List Nat} (hUtf16 : e.isUtf16 = false) (hAscii : ∀ byte ∈ list, byte < 0x80) :
    e.Spells list list := by
  induction list with
  | nil => rfl
  | cons byte list ih =>
    obtain ⟨hFirst, hRest⟩ := List.forall_mem_cons.mp hAscii
    exact ⟨[byte], list, (encodes_ascii_iff hUtf16 hFirst).mpr rfl, ih hRest, rfl⟩

theorem spells_ascii_iff {list : List Nat} :
    Encoding.ascii.Spells text list ↔ (∀ byte ∈ list, byte < 0x80) ∧ text = list := by
  constructor
  · intro hSpells
    induction text generalizing list with
    | nil =>
      obtain rfl : list = [] := hSpells
      exact ⟨nofun, rfl⟩
    | cons ch text ih =>
      obtain ⟨_, others, ⟨hSmall, rfl⟩, hOthers, rfl⟩ := hSpells
      obtain ⟨hRest, rfl⟩ := ih hOthers
      exact ⟨List.forall_mem_cons.mpr ⟨hSmall, hRest⟩, rfl⟩
  · rintro ⟨hAscii, rfl⟩
    exact spells_self rfl hAscii

/-- Bytes of ASCII are one text in all encodings by bytes. -/
theorem decodes_of_ascii (hUtf16 : e.isUtf16 = false) (hAscii : ∀ byte ∈ bytes.toList, byte.toNat < 0x80) :
    e.Decodes bytes s ↔ Encoding.ascii.Decodes bytes s := by
  have hList : ∀ byte ∈ bytes.toList.map UInt8.toNat, byte < 0x80 := List.forall_mem_map.mpr hAscii
  rw [decodes_iff_of_spells (spells_self hUtf16 hList), decodes_iff_of_spells (spells_self rfl hList)]

theorem not_decodes_ascii {byte : UInt8} (hByte : byte ∈ bytes.toList) (hLarge : 0x80 ≤ byte.toNat) :
    ¬Encoding.ascii.Decodes bytes s := by
  intro hDecodes
  have hSmall := (spells_ascii_iff.mp (decodes_iff_spells.mp hDecodes)).1 _ (List.mem_map_of_mem hByte)
  omega

end Encoding
end XmlIndex
