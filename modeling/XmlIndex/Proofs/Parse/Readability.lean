import XmlIndex.Proofs.Parse.Persistence
import XmlIndex.Proofs.Text.Transcription

/-! # Texts of tokens

A token that begins and ends with characters of its document has a text. All tokens do, except where
a run that is too long for one token is cut: it is cut after so many units, whatever stands there.
-/
namespace XmlIndex
set_option autoImplicit false
open Grammar

section
variable {doc : ByteArray} {stop i : Nat} {bytes : List Nat}

/-- The bytes of a part of a buffer, in a buffer of their own. -/
theorem BytesAt.extract (hBytes : BytesAt doc stop i bytes) :
    BytesAt (doc.extract i (i + bytes.length)) bytes.length 0 bytes := by
  refine .of_forall fun k hk => ?_
  have hByte := byteAt?_of_lt (hBytes.byteAt?_eq hk) (Nat.add_lt_add_left hk i)
  rw [Nat.zero_add, ← hByte]
  exact ((Overlay.ofRange doc i bytes.length 1).byteAt?_eq k).symm

end

namespace Encoding
variable {e : Encoding} {text : Chars}

def forText : Encoding → Encoding
  | .ascii => .utf8
  | e => e

theorem forText_of_ne (hOther : e ≠ .ascii) : e.forText = e := by
  unfold forText
  split
  · exact absurd rfl hOther
  · rfl

theorem isAscii_of_spells {bytes : List Nat} (hSpells : Encoding.ascii.Spells text bytes) : IsAscii text := by
  induction text generalizing bytes with
  | nil => exact fun _ => nofun
  | cons ch text ih =>
    obtain ⟨_, _, hFirst, hOthers, -⟩ := hSpells
    exact isAscii_cons.mpr ⟨hFirst.1, ih hOthers⟩

end Encoding

namespace Cursor
variable {c : Cursor} {text : Chars}

theorem reads_forText (hReads : c.Reads text) :
    (c.recode c.encoding.forText).Reads text ∧ c.encoding.forText.size text = c.encoding.size text := by
  by_cases hAscii : c.encoding = .ascii
  · obtain ⟨bytes, hSpells, -⟩ := readsAt_iff_bytesAt.mp hReads
    rw [hAscii] at hSpells
    have hText := Encoding.isAscii_of_spells hSpells
    have hAgrees : c.encoding.Agrees .utf8 := .inr ⟨by rw [hAscii]; rfl, rfl⟩
    rw [hAscii]
    exact ⟨(reads_recode_iff hAgrees hText).mpr hReads, (hAscii ▸ hAgrees).size_eq hText⟩
  · rw [Encoding.forText_of_ne hAscii]
    exact ⟨hReads, rfl⟩

/-- A text that takes up a whole range is all that is decoded of it. -/
theorem decodeFrom_forText (hReads : c.Reads text) (hStop : c.stop = c.offset + c.encoding.size text) :
    c.encoding.forText.decodeFrom c.doc c.stop c.offset =
      (text.map fun ch => (ch, c.encoding.forText.width ch), none) := by
  obtain ⟨hSame, hSize⟩ := reads_forText hReads
  have hEnd : c.stop = c.offset + c.encoding.forText.size text := hSize ▸ hStop
  have hEnds : ((c.recode c.encoding.forText).advance text).Ends := by
    refine ends_of_stop_le ?_
    rw [stop_advance, offset_advance]
    exact Nat.le_of_eq hEnd
  exact (decodeFrom_of_reads hSame hEnds).trans
    (congrArg _ (if_neg (Nat.not_lt.mpr (Nat.le_of_eq hEnd))))

/-- What is read of a document is read of its bytes alone. -/
theorem ReadsAt.extract {offset : Nat} (hReads : c.ReadsAt offset text) :
    (atStart (c.doc.extract offset (offset + c.encoding.size text)) 0 (c.encoding.size text)
      c.encoding).Reads text := by
  obtain ⟨bytes, hSpells, hBytes⟩ := readsAt_iff_bytesAt.mp hReads
  rw [← hSpells.length_eq]
  exact readsAt_iff_bytesAt.mpr ⟨bytes, hSpells, hBytes.extract⟩

end Cursor

namespace Index
variable {x : Index} {t : Token}

theorem rawText_of_utf8 (hEncoding : x.encoding.forText = .utf8) :
    x.rawText t = (String.fromUTF8? (x.rawBytes t)).elim (.error (.encoding .notUtf8)) .ok := by
  simp only [rawText]
  split
  · cases String.fromUTF8? (x.rawBytes t) <;> rfl
  · cases String.fromUTF8? (x.rawBytes t) <;> rfl
  · rename_i hUtf8 hAscii
    rw [Encoding.forText_of_ne hAscii] at hEncoding
    exact absurd hEncoding hUtf8

/-- A token has a text if its bytes decode as one, those of ASCII in UTF-8. -/
theorem rawText_eq_ok_iff_decodes {s : String} :
    x.rawText t = .ok s ↔ x.encoding.forText.Decodes (x.rawBytes t) s := by
  by_cases hUtf8 : x.encoding.forText = .utf8
  · rw [rawText_of_utf8 hUtf8, hUtf8, ← Encoding.fromUTF8?_eq_some_iff]
    cases String.fromUTF8? (x.rawBytes t) with
    | none => exact ⟨nofun, nofun⟩
    | some text => exact ⟨fun h => congrArg some (Except.ok.inj h), fun h => congrArg Except.ok (Option.some.inj h)⟩
  · have hAscii : x.encoding ≠ .ascii := fun hAscii => hUtf8 (hAscii ▸ rfl)
    rw [Encoding.forText_of_ne hAscii] at hUtf8 ⊢
    -- The encodings that the library reads are excluded, so the outer match is decided.
    simp only [rawText]
    split
    · rename_i hDecode
      exact ⟨nofun, fun hDecodes => absurd hDecodes (Encoding.not_decodes_of_fault hDecode)⟩
    · rename_i characters hDecode
      rw [Encoding.decodes_iff_of_decodeFrom hDecode, Except.ok.injEq, eq_comm]

theorem rawText_of_decodeFrom {characters : List (CodePoint × Nat)}
    (hDecode : x.encoding.forText.decodeFrom (x.rawBytes t) (x.rawBytes t).size 0 = (characters, none)) :
    x.rawText t = .ok (String.ofList (characters.map fun read => Char.ofNat read.1)) :=
  rawText_eq_ok_iff_decodes.mpr ((Encoding.decodes_iff_of_decodeFrom hDecode).mpr rfl)

/-- A token that covers characters of its document has them as its text. -/
theorem rawText_of_reads {start stop place : Nat} {inner : Chars}
    (hOffset : t.offset * x.encoding.unitSize = place) (hLength : t.length * x.encoding.unitSize = x.encoding.size inner)
    (hInside : place + x.encoding.size inner ≤ x.buffer.size)
    (hReads : (Cursor.atStart x.buffer start stop x.encoding).ReadsAt place inner) :
    x.rawText t = .ok (String.ofList (inner.map Char.ofNat)) := by
  have hBytes : x.rawBytes t = x.buffer.extract place (place + x.encoding.size inner) := by
    rw [rawBytes, hOffset, hLength]
  have hSize : (x.rawBytes t).size = x.encoding.size inner := by
    rw [hBytes, ByteArray.size_extract, Nat.min_eq_left hInside, Nat.add_sub_cancel_left]
  have hAlone : (Cursor.atStart (x.rawBytes t) 0 (x.rawBytes t).size x.encoding).Reads inner := by
    rw [hSize, hBytes]
    exact hReads.extract
  have hDecode := Cursor.decodeFrom_forText hAlone (hSize.trans (Nat.zero_add _).symm)
  rw [rawText_of_decodeFrom hDecode, List.map_map]
  rfl

/-- The first byte of a token. -/
theorem byteAt?_rawBytes {byte : Nat} (hByte : byteAt? x.buffer x.buffer.size (t.offset * x.encoding.unitSize) = some byte)
    (hSome : 0 < t.length) : byteAt? (x.rawBytes t) (x.rawBytes t).size 0 = some byte := by
  have hLength : 0 < t.length * x.encoding.unitSize := Nat.mul_pos hSome x.encoding.unitSize_pos
  have hFirst := (Overlay.ofRange x.buffer (t.offset * x.encoding.unitSize) (t.length * x.encoding.unitSize) 1).byteAt?_eq 0
  have hHere : byteAt? (x.rawBytes t) (t.length * x.encoding.unitSize) 0 = some byte :=
    hFirst.symm.trans (byteAt?_of_lt hByte (Nat.lt_add_of_pos_right hLength))
  have hStart := lt_stop_of_byteAt?_eq_some hByte
  refine byteAt?_of_lt hHere ?_
  rw [rawBytes, ByteArray.size_extract]
  omega

/-- Bytes that begin inside a character of UTF-8 are no text. -/
theorem rawText_of_continuation {byte : Nat} (hEncoding : x.encoding = .utf8)
    (hByte : byteAt? (x.rawBytes t) (x.rawBytes t).size 0 = some byte) (hInside : 0x80 ≤ byte ∧ byte < 0xC2) :
    x.rawText t = .error (.encoding .notUtf8) := by
  have hDecode : Encoding.utf8.decodeAt (x.rawBytes t) (x.rawBytes t).size 0 = .error (.utf8Byte byte) := by
    change Utf8.decodeAt _ _ _ = _
    unfold Utf8.decodeAt
    simp only [hByte]
    rw [if_neg (Nat.not_lt.mpr hInside.1), if_pos hInside.2]
  have hFrom := Encoding.decodeFrom_of_error (lt_stop_of_byteAt?_eq_some hByte) hDecode
  rw [rawText_of_utf8 (congrArg Encoding.forText hEncoding)]
  cases hText : String.fromUTF8? (x.rawBytes t) with
  | none => rfl
  | some text => exact absurd (Encoding.fromUTF8?_eq_some_iff.mp hText) (Encoding.not_decodes_of_fault hFrom)

end Index

/-- `<a>`, so many times `é`, and `</a>`. -/
def Grammar.accents (count : Nat) : Document where
  opening := .blank []
  prolog := []
  root := ⟨⟨[0x61], [], []⟩, some (.last (List.replicate count 0xE9), [])⟩
  epilog := ⟨[], []⟩

namespace Grammar
variable {count : Nat}

theorem size_replicate {e : Encoding} {ch : CodePoint} : e.size (List.replicate count ch) = count * e.width ch := by
  rw [Encoding.size, List.map_replicate, List.sum_replicate_nat]

theorem isRun_replicate {ch : CodePoint} (hPlain : isTextChar ch = true) (hOther : ch ≠ CodePoint.rightBracket) :
    IsRun (List.replicate count ch) where
  escaped := by
    induction count with
    | zero => exact .nil
    | succ count ih => exact .char hPlain ih
  noSectionEnd hEnd := hOther (List.eq_of_mem_replicate (hEnd.subset List.mem_cons_self)).symm

theorem accents_bodyWellFormed : (accents count).BodyWellFormed where
  prolog := ⟨nofun, Nat.zero_le _⟩
  root :=
    { tag := ⟨⟨by decide, nofun⟩, nofun, List.nodup_nil, nofun⟩
      body := by
        rintro _ _ ⟨⟩
        exact ⟨isRun_replicate (by decide) (by decide), nofun⟩ }
  epilog := ⟨nofun, nofun⟩

theorem accents_fits : (accents count).Fits .utf8 where
  prolog := nofun
  root :=
    { tag := ⟨show NameFits .utf8 [0x61] from ⟨by decide, by decide⟩, nofun⟩
      body := by
        rintro _ _ ⟨⟩
        trivial }
  epilog := nofun

theorem mem_tokens_accents {recordSpace : Bool} {t : Token}
    (ht : t ∈ pieces .utf8 .characterData 0 3 (Encoding.utf8.size (List.replicate count 0xE9))) :
    t ∈ (accents count).tokens .utf8 recordSpace 0 := by
  have hInside : t ∈ (accents count).root.tokens .utf8 recordSpace 1 :=
    List.mem_append_right _ ht
  exact List.mem_cons_of_mem _ (List.mem_append_right _ (List.mem_append_right _ (List.mem_append_left _ hInside)))

theorem width_accent : Encoding.utf8.width 0xE9 = 2 := by
  decide

theorem text_accents : (accents count).text =
    [CodePoint.lessThan, 0x61, CodePoint.greaterThan] ++ (List.replicate count 0xE9 ++
      [CodePoint.lessThan, CodePoint.slash, 0x61, CodePoint.greaterThan]) := by
  simp [accents, Document.text, Document.upToRoot, Opening.text, prologText, Root.text, Root.bodyText, Tag.text,
    Tag.attributeText, Content.text, endTag, Epilog.text, Epilog.itemsText]

theorem accents_tolerated : (accents count).Tolerated :=
  ⟨nofun, accents_bodyWellFormed⟩

theorem size_rendering_accents : (rendering (accents count).text).size = 7 + count * 2 := by
  have hSize := @size_rendering_append _ [] (@accents_tolerated count).isValid
  rw [rendering_append_nil] at hSize
  rw [hSize, text_accents, Encoding.size_append, Encoding.size_append, size_replicate, width_accent]
  have hEnds : Encoding.utf8.size [CodePoint.lessThan, 0x61, CodePoint.greaterThan] = 3 ∧
    Encoding.utf8.size [CodePoint.lessThan, CodePoint.slash, 0x61, CodePoint.greaterThan] = 4 := by decide
  rw [hEnds.1, hEnds.2, List.length_nil]
  omega

/-- The second byte of a character that comes after so many others. -/
theorem bytesAt_accents {before place : Nat} (hBefore : before < count) (hPlace : place = 3 + before * 2 + 1) :
    BytesAt (rendering (accents count).text) (rendering (accents count).text).size place [0xA9] := by
  obtain ⟨after, rfl⟩ := Nat.exists_eq_add_of_lt hBefore
  have hReads := @reads_rendering_append _ [] (@accents_tolerated (before + after + 1)).isValid
  rw [rendering_append_nil] at hReads
  have hText : (accents (before + after + 1)).text =
      ([CodePoint.lessThan, 0x61, CodePoint.greaterThan] ++ List.replicate before 0xE9) ++ ([0xE9] ++
        (List.replicate after 0xE9 ++ [CodePoint.lessThan, CodePoint.slash, 0x61, CodePoint.greaterThan])) := by
    have hSplit : List.replicate (before + after + 1) 0xE9 =
        List.replicate before 0xE9 ++ (0xE9 :: List.replicate after 0xE9) := by
      rw [Nat.add_assoc, ← List.replicate_append_replicate]
      rfl
    simp [text_accents, hSplit]
  conv at hReads => arg 2; rw [hText]
  have hChar := (Cursor.readsAt_append.mp (Cursor.readsAt_append.mp hReads).2).1
  obtain ⟨_, ⟨_, _, ⟨-, rfl⟩, rfl, rfl⟩, hBytes⟩ := Cursor.readsAt_iff_bytesAt.mp hChar
  have hSize : Encoding.utf8.size ([CodePoint.lessThan, 0x61, CodePoint.greaterThan] ++ List.replicate before 0xE9) =
      3 + before * 2 := by
    rw [Encoding.size_append, size_replicate, width_accent]
    rfl
  have hSecond : BytesAt (rendering (accents (before + after + 1)).text) (rendering (accents (before + after + 1)).text).size
      (0 + Encoding.utf8.size ([CodePoint.lessThan, 0x61, CodePoint.greaterThan] ++ List.replicate before 0xE9) + 1)
      [0xA9] := hBytes.2
  rwa [hSize, Nat.zero_add, ← hPlace] at hSecond

end Grammar

/-- The second token of a long run of `é` begins inside one of them. -/
theorem Grammar.exists_piece_of_accents {count : Nat} (hMany : 524288 ≤ count) :
    ∃ t ∈ pieces .utf8 .characterData 0 3 (Encoding.utf8.size (List.replicate count 0xE9)),
      t.offset = 3 + 524287 * 2 + 1 ∧ 0 < t.length := by
  have hUnit : Encoding.utf8.unitSize = 1 := rfl
  have hUnits : Encoding.utf8.size (List.replicate count 0xE9) / Encoding.utf8.unitSize = count * 2 := by
    rw [size_replicate, width_accent, hUnit, Nat.div_one]
  refine ⟨_, mem_pieces.mpr ⟨1, ?_, rfl⟩, ?_, ?_⟩
  · rw [hUnits]
    unfold Token.maxLength
    omega
  · rw [pieceAt, hUnit, Nat.div_one, Nat.one_mul, Token.maxLength]
  · rw [length_pieceAt rfl, hUnits]
    unfold Token.maxLength
    omega

/-- A long run of `é` is cut after its first byte. -/
theorem exists_unreadable_of_accents {count : Nat} (hMany : 524288 ≤ count) (hFew : count < 2 ^ 29) :
    ∃ x t, parse {} false (rendering (accents count).text) = .ok x ∧ t ∈ x.tokens ∧
      x.rawText t = .error (.encoding .notUtf8) := by
  have hSize : (rendering (accents count).text).size < 2 ^ 31 := by
    rw [size_rendering_accents]
    omega
  obtain ⟨x, hOk, hEncoding, hTokens⟩ := parse_of_caseless {} (show (accents count).opening.Caseless from nofun)
    trivial accents_bodyWellFormed accents_fits hSize
  obtain ⟨hBuffer, -, -⟩ := range_of_parseRange hOk
  obtain ⟨t, hPiece, hOffset, hLength⟩ := exists_piece_of_accents hMany
  have ht : t ∈ x.tokens := Array.mem_toList_iff.mp (hTokens ▸ mem_tokens_accents hPiece)
  refine ⟨x, t, hOk, ht, @Index.rawText_of_continuation x t 0xA9 hEncoding (Index.byteAt?_rawBytes ?_ hLength) (by decide)⟩
  rw [hBuffer, hEncoding, show Encoding.utf8.unitSize = 1 from rfl, Nat.mul_one]
  exact (@bytesAt_accents count 524287 _ (by omega) hOffset).1

/-- Every token has a text, but for one that was cut from a longer run within a character. -/
theorem rawText_of_parse {options : Options} {namespaces : Bool} {doc : ByteArray} {x : Index} {t : Token}
    (hOk : parse options namespaces doc = .ok x) (ht : t ∈ x.tokens) :
    (∃ text, x.rawText t = .ok text) ∨ IsPiece x.tokens.toList t ∧
      ¬IsExcerpt x.encoding (contentStart doc 0 doc.size) (x.encoding.charactersOf doc 0 doc.size).1 t := by
  obtain ⟨rfl, -, -⟩ := range_of_parseRange hOk
  obtain ⟨text, tokens, hTokens, hCharacters, hReads, hInside, -, hPlaced⟩ := exists_placed_of_parse hOk
  rw [← Array.mem_toList_iff, hTokens] at ht
  rw [hTokens, hCharacters]
  obtain rfl | ht := List.mem_cons.mp ht
  · have hEmpty := @Index.rawText_of_reads x ⟨.document, -1, 0, 0⟩ 0 0 0 [] (Nat.zero_mul _) (Nat.zero_mul _)
      (Nat.zero_le _) trivial
    exact .inl ⟨_, hEmpty⟩
  · by_cases hExcerpt : IsExcerpt x.encoding (contentStart x.buffer 0 x.buffer.size) text t
    · obtain ⟨before, inner, after, rfl, hOffset, hLength⟩ := hExcerpt
      rw [Encoding.size_append, Encoding.size_append] at hInside
      have hInner := (Cursor.readsAt_append.mp (Cursor.readsAt_append.mp hReads).2).1
      exact .inl ⟨_, Index.rawText_of_reads hOffset hLength (by omega) hInner⟩
    · have hPiece := (hPlaced t ht).excerpt.resolve_left hExcerpt
      exact .inr ⟨hPiece.mono fun _ => List.mem_cons_of_mem _, hExcerpt⟩

theorem rawText_of_parse_accents : ∃ x t, parse {} false (rendering (accents 524288).text) = .ok x ∧
    t ∈ x.tokens ∧ x.rawText t = .error (.encoding .notUtf8) ∧ IsPiece x.tokens.toList t := by
  obtain ⟨x, t, hOk, ht, hError⟩ := @exists_unreadable_of_accents 524288 (Nat.le_refl _) (by decide)
  obtain ⟨text, hText⟩ | ⟨hPiece, -⟩ := rawText_of_parse hOk ht
  · cases hError.symm.trans hText
  · exact ⟨x, t, hOk, ht, hError, hPiece⟩

end XmlIndex
