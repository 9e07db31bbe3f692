import XmlIndex.Proofs.Lexer.Drafting
import XmlIndex.Proofs.Parse.Soundness

/-! # Files of what is parsed

All that a parse finds lies inside its document and fits the fields of a file, so that the file gives
it back. The file of a range is that of its bytes alone: what is loaded has lost where the range lay.
-/
namespace XmlIndex
set_option autoImplicit false
open Grammar

namespace Token

theorem storable_document : Storable ⟨.document, -1, 0, 0⟩ :=
  ⟨by decide, by decide, by decide, by decide⟩

theorem rebase_document (units : Nat) :
    rebase units (pack ⟨.document, -1, 0, 0⟩) = pack ⟨.document, -1, 0, 0⟩ := by
  rw [rebase_pack storable_document, Nat.zero_sub]

theorem rebase_later {units : Nat} {t : Token} (hStorable : (later units t).Storable) :
    rebase units (later units t).pack = t.pack := by
  rw [rebase_pack hStorable, later, Nat.add_sub_cancel]

end Token

/-- Of two indexes of one document, that which begins later is stored as the other. -/
theorem Index.Later.encode_eq {x x' : Index} (hLater : Index.Later (x.docOffset / x.encoding.unitSize) x x')
    (hOffset : x'.docOffset = 0) (hLength : x'.docLength = x.docLength) (hDocument : x'.document = x.document)
    (hFirst : x'.tokens.toList.head? = some ⟨.document, -1, 0, 0⟩)
    (hStorable : ∀ t ∈ x.tokens.toList, t.Storable) (kind : FileKind) : x.encode kind = x'.encode kind := by
  obtain ⟨first, rest, hInner, hOuter⟩ := hLater.tokens_eq
  rw [hInner] at hFirst
  cases hFirst
  have hHeader : IndexFile.header x kind = IndexFile.header x' kind := by
    unfold IndexFile.header
    rw [hLater.encoding_eq, hLater.namespaces_eq, hLater.root_eq, hLater.maxDepth_eq, hLater.cache_eq, hLength]
  have hEmbedded : IndexFile.embedded x kind = IndexFile.embedded x' kind := by
    unfold IndexFile.embedded
    rw [hDocument, hLength]
  have hTokens : IndexFile.tokens x = IndexFile.tokens x' := by
    simp only [IndexFile.tokens, hOuter, hInner, hOffset, Nat.zero_div, List.map_cons, List.map_map,
      Token.rebase_document, Token.rebase_zero]
    congr 2
    apply List.map_congr_left
    intro t ht
    apply Token.rebase_later
    apply hStorable
    rw [hOuter]
    exact List.mem_cons_of_mem _ (List.mem_map_of_mem ht)
  unfold Index.encode IndexFile.upperLevels IndexFile.leaves
  rw [hHeader, hEmbedded, hTokens, hLater.cache_eq]

theorem sizeLimit_lt (e : Encoding) (namespaces : Bool) : sizeLimit e namespaces < CacheEntry.noChild := by
  unfold sizeLimit
  split <;> decide

section
variable {options : Options} {namespaces : Bool} {doc : ByteArray} {offset length : Nat} {x : Index}

theorem sound_of_parseRange (hOk : parseRange options namespaces doc offset length = .ok x) : x.Sound := by
  obtain ⟨detected, s, -, hRun, rfl⟩ := exists_run_of_parseRange hOk
  exact (Lex.keeps_run .start _ _ _ Lexer.sound_atStart hRun).index doc offset length

/-- The mark of a document takes up whole units. -/
theorem unitSize_dvd_contentStart (hOk : parse options namespaces doc = .ok x) :
    x.encoding.unitSize ∣ contentStart doc 0 doc.size := by
  obtain ⟨detected, hDetect, hUnit⟩ := unitSize_of_parseRange hOk
  obtain ⟨-, hHead, -⟩ := detect_eq_ok_iff.mp hDetect
  rw [contentStart, ByteOrderMark.ofHead_eq hHead, Nat.zero_add, hUnit]
  exact (Detected.mark_of_ofHead hHead).2

/-- The tokens of a document but the first stand along its text, in which there are as many characters. -/
theorem exists_placed_of_parse (hOk : parse options namespaces doc = .ok x) :
    ∃ (text : Chars) (tokens : List Token), x.tokens.toList = ⟨.document, -1, 0, 0⟩ :: tokens ∧
      (x.encoding.charactersOf doc 0 doc.size).1 = text ∧
      (Cursor.atStart doc (contentStart doc 0 doc.size) doc.size x.encoding).Reads text ∧
      contentStart doc 0 doc.size + x.encoding.size text ≤ doc.size ∧ tokens.length ≤ x.encoding.size text ∧
      ∀ t ∈ tokens, IsPlaced x.encoding (contentStart doc 0 doc.size) text tokens t := by
  have hUnit := unitSize_dvd_contentStart hOk
  obtain ⟨d, tokens, hTolerated, hReads, hEnds, hTokens, hLayout⟩ := exists_layout_of_parseRange hOk
  have hCharacters := congrArg Prod.fst (charactersOf_of_reads hReads hEnds)
  obtain ⟨ch, next, rest, hText, -⟩ := Document.exists_head hTolerated
  rw [Nat.zero_add] at hReads
  exact ⟨d.text, tokens, hTokens, hCharacters, hReads, hReads.le_stop (hText ▸ List.cons_ne_nil ch _), hLayout.length_le,
    fun t ht => hLayout.isPlaced hUnit ht⟩

theorem head?_of_parse (hOk : parse options namespaces doc = .ok x) :
    x.tokens.toList.head? = some ⟨.document, -1, 0, 0⟩ := by
  obtain ⟨text, tokens, hTokens, -⟩ := exists_placed_of_parse hOk
  rw [hTokens]
  rfl

theorem stop_lt_of_parseRange (hOk : parseRange options namespaces doc offset length = .ok x) :
    offset + length < CacheEntry.noChild := by
  obtain ⟨detected, -, hDetect, -⟩ := exists_run_of_parseRange hOk
  exact Nat.lt_trans (detect_eq_ok_iff.mp hDetect).2.2 (sizeLimit_lt _ _)

theorem size_lt_of_parse (hOk : parse options namespaces doc = .ok x) : doc.size < CacheEntry.noChild :=
  Nat.zero_add doc.size ▸ stop_lt_of_parseRange hOk

/-- What is found in a document can be loaded. -/
theorem loadable_of_parse (hOk : parse options namespaces doc = .ok x) : x.Loadable := by
  have hSound := sound_of_parseRange hOk
  obtain ⟨hBuffer, hOffset, hLength⟩ := range_of_parseRange hOk
  obtain ⟨text, tokens, hTokens, -, -, hText, hCount, hPlaced⟩ := exists_placed_of_parse hOk
  have hDoc := size_lt_of_parse hOk
  have hMany : x.tokens.size ≤ CacheEntry.noChild := by
    rw [← Array.length_toList, hTokens, List.length_cons]
    omega
  have hEach : ∀ t ∈ x.tokens, t.lengthField ≤ Token.maxLength ∧
      (t.offset + t.length) * x.encoding.unitSize ≤ doc.size := by
    intro t ht
    rw [← Array.mem_toList_iff, hTokens] at ht
    obtain rfl | ht := List.mem_cons.mp ht
    · exact ⟨Nat.zero_le _, by simp [Token.length, TokenKind.isQualified]⟩
    · exact ⟨(hPlaced t ht).lengthField_le, Nat.le_trans (hPlaced t ht).inside hText⟩
  have hOffsets : ∀ t ∈ x.tokens, t.offset ≤ doc.size := fun t ht =>
    Nat.le_trans (Nat.le_trans (Nat.le_add_right _ t.length)
      (Nat.le_mul_of_pos_right _ x.encoding.unitSize_pos)) (hEach t ht).2
  have hUpper := hSound.cache.storable hMany
  have hLeaves := hSound.cache.size_leaves_le
  unfold CacheEntry.noChild at hDoc hMany
  exact
    { docOffset_eq := hOffset
      docLength_eq := by rw [hLength, hBuffer]
      size_lt := by rw [hBuffer]; omega
      maxDepth_lt := Nat.lt_of_le_of_lt hSound.maxDepth_le (by decide)
      levels := hSound.levels
      root_lt := fun root hRoot =>
        ⟨hSound.root_lt root hRoot, Nat.lt_of_lt_of_le (hSound.root_lt root hRoot) hMany⟩
      tokens_storable := fun t ht =>
        ⟨(hSound.tokens t ht).1, (hSound.tokens t ht).2, (hEach t ht).1,
          Nat.lt_of_le_of_lt (hOffsets t ht) (Nat.lt_trans hDoc (by decide))⟩
      tokens_inside := fun t ht => hBuffer ▸ (hEach t ht).2
      tokens_lt := Nat.lt_of_le_of_lt hMany (by decide)
      cache_linked := hSound.cache.toLinked
      upper_storable := fun level hLevel => ⟨by have := (hUpper level hLevel).1; omega, (hUpper level hLevel).2⟩
      leaves_lt := by omega
      leaves_storable := fun token hLeaf => by
        have hToken := hSound.cache.leaf_lt token hLeaf
        omega }

/-- Wherever a range begins in its buffer, the tokens fit their records. -/
theorem storable_of_parseRange (hOk : parseRange options namespaces doc offset length = .ok x) :
    ∀ t ∈ x.tokens.toList, t.Storable := by
  obtain ⟨x', hInner, -, hLater⟩ := later_of_parseRange hOk
  have hLoadable := loadable_of_parse hInner
  have hStop := stop_lt_of_parseRange hOk
  obtain ⟨hBuffer, -, -⟩ := range_of_parseRange hInner
  obtain ⟨first, rest, hTokens, hOuter⟩ := hLater.tokens_eq
  have hInside : x'.buffer.size = length := by
    have hRange := le_size_of_parseRange hOk
    rw [hBuffer, ByteArray.size_extract]
    omega
  have hEach (t : Token) (ht : t ∈ first :: rest) : t.Storable ∧ t.offset * x.encoding.unitSize ≤ length := by
    rw [← hTokens, Array.mem_toList_iff] at ht
    refine ⟨hLoadable.tokens_storable t ht, ?_⟩
    rw [hLater.encoding_eq, ← hInside]
    exact Nat.le_trans (Nat.mul_le_mul_right _ (Nat.le_add_right _ t.length)) (hLoadable.tokens_inside t ht)
  intro t ht
  rw [hOuter] at ht
  obtain rfl | hMem := List.mem_cons.mp ht
  · exact (hEach t List.mem_cons_self).1
  · obtain ⟨u, hu, rfl⟩ := List.mem_map.mp hMem
    obtain ⟨hStorable, hPlace⟩ := hEach u (List.mem_cons_of_mem first hu)
    refine { hStorable with offset_lt := ?_ }
    have hUnits := Nat.div_mul_le_self offset x.encoding.unitSize
    calc u.offset + offset / x.encoding.unitSize
        ≤ (u.offset + offset / x.encoding.unitSize) * x.encoding.unitSize :=
          Nat.le_mul_of_pos_right _ x.encoding.unitSize_pos
      _ ≤ length + offset := by rw [Nat.add_mul]; exact Nat.add_le_add hPlace hUnits
      _ < CacheEntry.noChild := Nat.add_comm offset length ▸ hStop
      _ < 0x100000000 := by decide

/-- A range is stored as its bytes alone are, and these can be loaded. -/
theorem stored_of_parseRange (hOk : parseRange options namespaces doc offset length = .ok x) :
    ∃ x', parse options namespaces (doc.extract offset (offset + length)) = .ok x' ∧ x'.Loadable ∧
      x'.document = x.document ∧ Index.Later (offset / x.encoding.unitSize) x x' ∧
      ∀ kind, x.encode kind = x'.encode kind := by
  obtain ⟨-, hOffset, hLength⟩ := range_of_parseRange hOk
  obtain ⟨x', hInner, hDocument, hLater⟩ := later_of_parseRange hOk
  have hLoadable := loadable_of_parse hInner
  have hSame : x'.docLength = x.docLength := by
    have hRange := le_size_of_parseRange hOk
    rw [hLength, (range_of_parseRange hInner).2.2, ByteArray.size_extract]
    omega
  exact ⟨x', hInner, hLoadable, hDocument, hLater, Index.Later.encode_eq (hOffset ▸ hLater)
    hLoadable.docOffset_eq hSame hDocument (head?_of_parse hInner) (storable_of_parseRange hOk)⟩

end

section
variable {options : Options} {namespaces : Bool} {doc : ByteArray} {offset length : Nat} {x : Index}

/-- Files of either kind give back the index of the document alone, which is that of a whole buffer itself. -/
theorem decode_of_parseRange (hOk : parseRange options namespaces doc offset length = .ok x) :
    ∃ x', parse options namespaces (doc.extract offset (offset + length)) = .ok x' ∧
      Index.decode (x.encode .combined) = .ok x' ∧
      Index.decodeWith x.document (x.encode .separate) = .ok x' ∧
      Index.decodeWith x.document (x.encode .combined) = .ok x' ∧
      (offset = 0 → length = doc.size → x' = x) := by
  obtain ⟨x', hInner, hLoadable, hDocument, -, hStored⟩ := stored_of_parseRange hOk
  refine ⟨x', hInner, ?_, ?_, ?_, ?_⟩
  · rw [hStored]
    exact Index.decode_encode hLoadable
  · rw [hStored, ← hDocument]
    exact Index.decodeWith_encode hLoadable .separate
  · rw [hStored, ← hDocument]
    exact Index.decodeWith_encode hLoadable .combined
  · rintro rfl rfl
    rw [Nat.zero_add, ByteArray.extract_zero_size] at hInner
    exact Except.ok.inj (hInner.symm.trans hOk)

theorem decode_of_parseRange_shiftedTag : parseRange {} false shiftedTag 1 10 = .ok shiftedIndex ∧
    ∃ x', parse {} false (shiftedTag.extract 1 11) = .ok x' ∧
      Index.decode (shiftedIndex.encode .combined) = .ok x' ∧
      Index.decodeWith shiftedIndex.document (shiftedIndex.encode .separate) = .ok x' ∧
      Index.decodeWith shiftedIndex.document (shiftedIndex.encode .combined) = .ok x' := by
  obtain ⟨x', hInner, hCombined, hSeparate, hOther, -⟩ := decode_of_parseRange parseRange_shiftedTag
  exact ⟨parseRange_shiftedTag, x', hInner, hCombined, hSeparate, hOther⟩

/-- The bytes that a token covers if its document begins at `start`, in units of so many bytes. -/
def Token.bytesIn (doc : ByteArray) (unit start : Nat) (t : Token) : ByteArray :=
  doc.extract (start + t.offset * unit) (start + t.offset * unit + t.length * unit)

/-- The tokens of a range are looked for whole units after the start of the buffer. -/
theorem map_rawBytes_of_later {x' : Index} (hBuffer : x.buffer = doc)
    (hFirst : x'.tokens.toList.head? = some ⟨.document, -1, 0, 0⟩)
    (hLater : Index.Later (offset / x.encoding.unitSize) x x') : x.tokens.map x.rawBytes =
      x'.tokens.map (Token.bytesIn doc x.encoding.unitSize (offset / x.encoding.unitSize * x.encoding.unitSize)) := by
  obtain ⟨first, rest, hInner, hOuter⟩ := hLater.tokens_eq
  rw [hInner] at hFirst
  cases hFirst
  rw [← Array.toList_inj, Array.toList_map, Array.toList_map, hInner, hOuter, List.map_cons, List.map_cons,
    List.map_map]
  congr 1
  · simp [Index.rawBytes, Token.bytesIn, Token.length, TokenKind.isQualified]
  · refine List.map_congr_left fun t _ => ?_
    change x.buffer.extract ((t.offset + _) * _) ((t.offset + _) * _ + t.length * _) = _
    rw [hBuffer, Nat.add_mul, Nat.add_comm (t.offset * _)]
    rfl

theorem map_rawBytes_extract {x' : Index} (hBuffer : x'.buffer = doc.extract offset (offset + length))
    (hInside : ∀ t ∈ x'.tokens, (t.offset + t.length) * x'.encoding.unitSize ≤ length) :
    x'.tokens.map x'.rawBytes = x'.tokens.map (Token.bytesIn doc x'.encoding.unitSize offset) := by
  refine Array.map_congr_left fun t ht => ?_
  have hEnd := hInside t ht
  rw [Nat.add_mul] at hEnd
  rw [Index.rawBytes, hBuffer, ByteArray.extract_extract, Nat.min_eq_left (Nat.add_le_add_left hEnd _),
    ← Nat.add_assoc]
  rfl

/-- However an index is obtained, its tokens cover the bytes that stand where the range begins, unless
that is inside a code unit: the index of such a range looks for them from the start of the unit on. -/
theorem rawBytes_of_parseRange (hOk : parseRange options namespaces doc offset length = .ok x) :
    ∃ x' combined separate, parse options namespaces (doc.extract offset (offset + length)) = .ok x' ∧
      Index.decode (x.encode .combined) = .ok combined ∧
      Index.decodeWith x.document (x.encode .separate) = .ok separate ∧
      combined.tokens.map combined.rawBytes = x'.tokens.map x'.rawBytes ∧
      separate.tokens.map separate.rawBytes = x'.tokens.map x'.rawBytes ∧
      x'.tokens.map x'.rawBytes = x'.tokens.map (Token.bytesIn doc x.encoding.unitSize offset) ∧
      x.tokens.map x.rawBytes = x'.tokens.map (Token.bytesIn doc x.encoding.unitSize
        (offset / x.encoding.unitSize * x.encoding.unitSize)) ∧
      (x.encoding.unitSize ∣ offset → x.tokens.map x.rawBytes = x'.tokens.map x'.rawBytes) := by
  obtain ⟨x', hInner, hLoadable, hDocument, hLater, hStored⟩ := stored_of_parseRange hOk
  obtain ⟨hBuffer, -, -⟩ := range_of_parseRange hOk
  obtain ⟨hBuffer', -, -⟩ := range_of_parseRange hInner
  have hInside : ∀ t ∈ x'.tokens, (t.offset + t.length) * x'.encoding.unitSize ≤ length := fun t ht =>
    Nat.le_trans (hLoadable.tokens_inside t ht) (by rw [hBuffer', ByteArray.size_extract]; omega)
  have hAlone := map_rawBytes_extract hBuffer' hInside
  rw [← hLater.encoding_eq] at hAlone
  have hRange := map_rawBytes_of_later hBuffer (head?_of_parse hInner) hLater
  refine ⟨x', x', x', hInner, ?_, ?_, rfl, rfl, hAlone, hRange, fun hWhole => ?_⟩
  · rw [hStored]
    exact Index.decode_encode hLoadable
  · rw [hStored, ← hDocument]
    exact Index.decodeWith_encode hLoadable .separate
  · rw [hRange, hAlone, Nat.div_mul_cancel hWhole]

/-- The name of the tag in 16-bit units is read one byte too early. -/
theorem rawBytes_of_parseRange_shiftedTag : ∃ x x', parseRange {} false shiftedTag 1 10 = .ok x ∧
    parse {} false (shiftedTag.extract 1 11) = .ok x' ∧
    x'.tokens.map x'.rawBytes = #[.empty, ⟨#[0x61, 0x00]⟩] ∧ x.tokens.map x.rawBytes = #[.empty, ⟨#[0x00, 0x61]⟩] := by
  obtain ⟨x', -, -, hInner, -, -, -, -, hAlone, hRange, -⟩ := rawBytes_of_parseRange parseRange_shiftedTag
  obtain rfl := Except.ok.inj (parse_shiftedTag.symm.trans hInner)
  refine ⟨shiftedIndex, _, parseRange_shiftedTag, hInner, hAlone.trans ?_, hRange.trans ?_⟩
  · with_unfolding_all rfl
  · with_unfolding_all rfl

end
end XmlIndex
