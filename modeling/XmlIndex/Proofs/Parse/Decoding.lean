import XmlIndex.Proofs.Parse.Readability
import XmlIndex.Proofs.Parse.Truncation

/-! # Texts and the decoder of the document

The text of a token is what the decoder of the document reads of its bytes, except in ASCII, where it
is what the bytes are in UTF-8. A document that was parsed in ASCII has no other bytes under its tokens;
one that was loaded may have.
-/
namespace XmlIndex
set_option autoImplicit false
open Grammar

theorem Grammar.Layout.le_offset {e : Encoding} {place : Nat} {text : Chars} {tokens : List Token} {t : Token}
    (hLayout : Layout e place text tokens) (ht : t ∈ tokens) : place / e.unitSize ≤ t.offset := by
  induction hLayout with
  | blank => exact (List.not_mem_nil ht).elim
  | name => exact Nat.le_of_eq (congrArg Token.offset (List.mem_singleton.mp ht)).symm
  | run =>
    obtain ⟨i, -, rfl⟩ := mem_pieces.mp ht
    exact Nat.le_add_right _ _
  | append _ _ ih ihRest =>
    obtain ht | ht := List.mem_append.mp ht
    · exact ih ht
    · exact Nat.le_trans (Nat.div_le_div_right (Nat.le_add_right _ _)) (ihRest ht)

namespace Index
variable {x : Index} {t : Token}

/-- A byte of a token, at its place in the buffer. -/
theorem exists_byteAt?_of_mem {byte : UInt8} (hByte : byte ∈ (x.rawBytes t).toList) :
    ∃ k < t.length * x.encoding.unitSize, byteAt? x.buffer (t.offset * x.encoding.unitSize +
      t.length * x.encoding.unitSize) (t.offset * x.encoding.unitSize + k) = some byte.toNat := by
  obtain ⟨k, hk, rfl⟩ := List.mem_iff_getElem.mp hByte
  have hInside : k < t.length * x.encoding.unitSize := by
    rw [length_toList, rawBytes, ByteArray.size_extract] at hk
    omega
  have hAlone := (bytesAt_toList (x.rawBytes t)).byteAt?_eq (k := k) (by rwa [List.length_map])
  rw [Nat.zero_add, List.getElem_map] at hAlone
  refine ⟨k, hInside, Eq.trans ?_ (byteAt?_of_lt hAlone hInside)⟩
  exact (Overlay.ofRange x.buffer (t.offset * x.encoding.unitSize) (t.length * x.encoding.unitSize) 1).byteAt?_eq k

end Index

section
variable {options : Options} {namespaces : Bool} {doc : ByteArray} {offset length : Nat} {x : Index} {t : Token}

/-- Under the tokens of a document that is parsed in ASCII there is nothing else. -/
theorem ascii_of_parseRange (hOk : parseRange options namespaces doc offset length = .ok x) (ht : t ∈ x.tokens)
    (hAscii : x.encoding = .ascii) {byte : UInt8} (hByte : byte ∈ (x.rawBytes t).toList) : byte.toNat < 0x80 := by
  obtain ⟨d, tokens, -, hReads, -, hTokens, hLayout⟩ := exists_layout_of_parseRange hOk
  obtain ⟨hBuffer, -, -⟩ := range_of_parseRange hOk
  obtain ⟨list, hSpells, hBytes⟩ := Cursor.readsAt_iff_bytesAt.mp hReads
  obtain ⟨k, hk, hHere⟩ := Index.exists_byteAt?_of_mem hByte
  have hUnit : x.encoding.unitSize = 1 := by rw [hAscii]; rfl
  rw [← Array.mem_toList_iff, hTokens] at ht
  rw [hUnit, Nat.mul_one] at hk
  obtain rfl | ht := List.mem_cons.mp ht
  · exact absurd hk (Nat.not_lt_zero k)
  · have hFirst := hLayout.le_offset ht
    have hLast := (hLayout.isPlaced (hUnit ▸ Nat.one_dvd _) ht).inside
    have hCount : list.length = x.encoding.size d.text := hSpells.length_eq
    rw [hUnit, Nat.div_one] at hFirst
    rw [hUnit, Nat.mul_one, ← hCount] at hLast
    rw [hUnit, Nat.mul_one, Nat.mul_one, hBuffer] at hHere
    -- The byte stands among those that the document was read from.
    obtain ⟨j, hj⟩ := Nat.exists_eq_add_of_le (Nat.le_trans hFirst (Nat.le_add_right t.offset k))
    have hIndex : j < list.length := by omega
    have hThere := hBytes.byteAt?_eq hIndex
    have hSame : byte.toNat = list[j] := by
      rw [hj] at hHere
      exact Option.some.inj ((byteAt?_eq_some_iff.mp hHere).2.symm.trans (byteAt?_eq_some_iff.mp hThere).2)
    rw [hSame]
    change Encoding.Spells x.encoding d.text list at hSpells
    rw [hAscii] at hSpells
    exact (Encoding.spells_ascii_iff.mp hSpells).1 _ (List.getElem_mem _)

end

namespace Index
variable {x : Index} {t : Token}

/-- The text of a token is what the decoder reads of its bytes. Only a document in ASCII that was loaded can
have a byte under a token that the decoder refuses; there the text is that of the bytes in UTF-8. -/
theorem rawText_eq_ok_iff (hObtained : x.Obtained) (ht : t ∈ x.tokens) :
    (∀ s, x.rawText t = .ok s ↔ x.encoding.Decodes (x.rawBytes t) s) ∨
    (∃ file doc, decode file = .ok x ∨ decodeWith doc file = .ok x) ∧ x.encoding = .ascii ∧
      (∀ s, ¬x.encoding.Decodes (x.rawBytes t) s) ∧ ∀ s, x.rawText t = .ok s ↔ x.rawBytes t = s.toUTF8 := by
  by_cases hAscii : x.encoding = .ascii
  · by_cases hBytes : ∀ byte ∈ (x.rawBytes t).toList, byte.toNat < 0x80
    · refine .inl fun s => ?_
      rw [rawText_eq_ok_iff_decodes, hAscii]
      exact Encoding.decodes_of_ascii rfl hBytes
    · push Not at hBytes
      obtain ⟨byte, hByte, hLarge⟩ := hBytes
      refine .inr ⟨?_, hAscii, fun s => ?_, fun s => ?_⟩
      · cases hObtained with
        | parsed hOk => exact absurd (ascii_of_parseRange hOk ht hAscii hByte) (Nat.not_lt.mpr hLarge)
        | loaded hOk => exact ⟨_, .empty, .inl hOk⟩
        | loadedWith hOk => exact ⟨_, _, .inr hOk⟩
      · rw [hAscii]
        exact Encoding.not_decodes_ascii hByte hLarge
      · rw [rawText_eq_ok_iff_decodes, hAscii]
        exact Encoding.decodes_utf8_iff
  · refine .inl fun s => ?_
    rw [rawText_eq_ok_iff_decodes, Encoding.forText_of_ne hAscii]

/-- The index of `<a>é</a>`, in UTF-8 but said to be in ASCII. -/
def mislabeled : Index where
  buffer := [0x3C, 0x61, 0x3E, 0xC3, 0xA9, 0x3C, 0x2F, 0x61, 0x3E].toByteArray
  docOffset := 0
  docLength := 9
  encoding := .ascii
  namespaces := false
  maxDepth := 0
  root := some 1
  tokens := #[⟨.document, -1, 0, 0⟩, ⟨.startTag, 0, 1, 1⟩, ⟨.characterData, 0, 3, 2⟩]
  cache := ⟨#[#[], #[]], #[]⟩

theorem rawText_eq_ok_iff_mislabeled : ∃ t ∈ mislabeled.tokens,
    decode (mislabeled.encode .combined) = .ok mislabeled ∧ mislabeled.rawText t = .ok "é" ∧
      ∀ s, ¬mislabeled.encoding.Decodes (mislabeled.rawBytes t) s := by
  have hOk : decode (mislabeled.encode .combined) = .ok mislabeled := by with_unfolding_all rfl
  have ht : (⟨.characterData, 0, 3, 2⟩ : Token) ∈ mislabeled.tokens :=
    Array.mem_of_getElem? (rfl : mislabeled.tokens[2]? = some _)
  have hBytes : mislabeled.rawBytes ⟨.characterData, 0, 3, 2⟩ = "é".toUTF8 := rfl
  have hRefused : Encoding.ascii.decodeFrom (mislabeled.rawBytes ⟨.characterData, 0, 3, 2⟩)
      (mislabeled.rawBytes ⟨.characterData, 0, 3, 2⟩).size 0 = ([], some (.asciiByte 0xC3)) := by with_unfolding_all rfl
  have hNone (s : String) : ¬Encoding.ascii.Decodes (mislabeled.rawBytes ⟨.characterData, 0, 3, 2⟩) s :=
    Encoding.not_decodes_of_fault hRefused
  refine ⟨_, ht, hOk, ?_, hNone⟩
  obtain hSame | ⟨-, -, -, hText⟩ := rawText_eq_ok_iff (.loaded hOk) ht
  · have hText : mislabeled.rawText ⟨.characterData, 0, 3, 2⟩ = .ok "é" :=
      rawText_eq_ok_iff_decodes.mpr (Encoding.decodes_utf8_iff.mpr hBytes)
    exact absurd ((hSame "é").mp hText) (hNone "é")
  · exact (hText "é").mpr hBytes

end Index

end XmlIndex
