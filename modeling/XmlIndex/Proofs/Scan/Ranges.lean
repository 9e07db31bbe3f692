import XmlIndex.Proofs.Scan.Values

/-! # Whole ranges

A range decodes, character after character, to its end or to the first fault. A text that is read to
where a document ends is all that the range decodes to, but for bytes of a character that is cut off.
-/
namespace XmlIndex
set_option autoImplicit false
open Grammar

/-- Bytes that begin a character and are too few for it; those after the first may be any. -/
def Encoding.CutsOff : Encoding → List Nat → Prop
  | .utf8, lead :: rest =>
    0xC2 ≤ lead ∧ lead < 0xF5 ∧
      rest.length + 1 < if lead < 0xE0 then 2 else if lead < 0xF0 then 3 else 4
  | .utf16 _, [_] => True
  | .utf16 order, first :: second :: rest =>
    (∃ unit, order.bytes unit = [first, second] ∧ 0xD800 ≤ unit ∧ unit < 0xDC00) ∧ rest.length < 2
  | _, _ => False

/-- Only characters of several bytes can be cut off, and three bytes are left at most. -/
theorem Encoding.CutsOff.bounds {e : Encoding} {bytes : List Nat} (hCut : e.CutsOff bytes) :
    (e = .utf8 ∨ e.isUtf16 = true) ∧ 1 ≤ bytes.length ∧ bytes.length ≤ 3 := by
  unfold CutsOff at hCut
  split at hCut
  · refine ⟨.inl rfl, ?_⟩
    simp only [List.length_cons]
    split at hCut
    · omega
    · split at hCut <;> omega
  · exact ⟨.inr rfl, Nat.le_refl 1, Nat.le_add_right 1 2⟩
  · refine ⟨.inr rfl, ?_⟩
    simp only [List.length_cons]
    omega
  · exact hCut.elim

theorem exists_bytesAt {doc : ByteArray} {stop i : Nat} (hDoc : stop ≤ doc.size) (hStop : i ≤ stop) :
    ∃ bytes, BytesAt doc stop i bytes ∧ i + bytes.length = stop := by
  induction hCount : stop - i generalizing i with
  | zero => exact ⟨[], trivial, by simp only [List.length_nil]; omega⟩
  | succ count ih =>
    obtain ⟨bytes, hBytes, hEnd⟩ := ih (i := i + 1) (by omega) (by omega)
    have hByte : byteAt? doc stop i = some doc[i].toNat := by
      rw [byteAt?, if_pos (by omega), dif_pos (by omega)]
    refine ⟨doc[i].toNat :: bytes, ⟨hByte, hBytes⟩, ?_⟩
    simp only [List.length_cons]
    omega

section
variable {e : Encoding} {doc : ByteArray} {stop i : Nat} {bytes : List Nat}

theorem Utf8.continuation_ne_truncated {count value : Nat} (hBytes : BytesAt doc stop i bytes)
    (hRoom : count ≤ bytes.length) : Utf8.continuation doc stop count i value ≠ .error .truncated := by
  induction count generalizing i value bytes with
  | zero => simp [Utf8.continuation]
  | succ count ih =>
    cases bytes with
    | nil => cases hRoom
    | cons byte bytes =>
      rw [Utf8.continuation, hBytes.1]
      simp only
      split
      · exact ih hBytes.2 (Nat.le_of_succ_le_succ hRoom)
      · simp

theorem Utf8.sequence_eq_truncated_iff {lead : Nat} {width least value : Nat}
    (hBytes : BytesAt doc stop i (lead :: bytes)) (hStop : i + (lead :: bytes).length = stop)
    (hWidth : 0 < width) :
    Utf8.sequence doc stop i width least value = .error .truncated ↔ bytes.length + 1 < width := by
  rw [List.length_cons] at hStop
  unfold Utf8.sequence
  by_cases hRoom : stop < i + width
  · rw [if_pos hRoom]
    simp only [true_iff]
    omega
  · rw [if_neg hRoom]
    have hRest : Utf8.continuation doc stop (width - 1) (i + 1) value ≠ .error .truncated :=
      Utf8.continuation_ne_truncated hBytes.2 (by omega)
    have hWhole : ¬bytes.length + 1 < width := by omega
    simp only [hWhole, iff_false]
    split
    · rename_i fault hFault
      rintro ⟨⟩
      exact hRest hFault
    · split <;> simp

theorem Utf8.decodeAt_eq_truncated_iff {lead : Nat} (hBytes : BytesAt doc stop i (lead :: bytes))
    (hStop : i + (lead :: bytes).length = stop) :
    Utf8.decodeAt doc stop i = .error .truncated ↔ Encoding.utf8.CutsOff (lead :: bytes) := by
  rw [Utf8.decodeAt, hBytes.1]
  unfold Encoding.CutsOff
  simp only
  repeat' split
  all_goals first
    | (rw [Utf8.sequence_eq_truncated_iff hBytes hStop (by decide)]; omega)
    | (simp only [reduceCtorEq, false_iff, Except.error.injEq]; omega)

theorem Utf16.unitAt?_eq_none_iff {order : ByteOrder} (hBytes : BytesAt doc stop i bytes)
    (hStop : i + bytes.length = stop) : Utf16.unitAt? order doc stop i = none ↔ bytes.length < 2 := by
  rw [Utf16.unitAt?]
  rcases bytes with _ | ⟨first, _ | ⟨second, rest⟩⟩
  · rw [byteAt?_eq_none_of_le (i := i) (Nat.le_of_eq hStop.symm)]
    simp
  · rw [byteAt?_eq_none_of_le (i := i + 1) (Nat.le_of_eq hStop.symm)]
    simp
  · rw [hBytes.1, hBytes.2.1]
    simp

theorem Utf16.decodeAt_eq_truncated_iff {order : ByteOrder} {first : Nat}
    (hBytes : BytesAt doc stop i (first :: bytes)) (hStop : i + (first :: bytes).length = stop) :
    Utf16.decodeAt order doc stop i = .error .truncated ↔ (Encoding.utf16 order).CutsOff (first :: bytes) := by
  cases bytes with
  | nil =>
    rw [Utf16.decodeAt, (Utf16.unitAt?_eq_none_iff hBytes hStop).mpr (Nat.lt_succ_self 1)]
    exact iff_of_true rfl trivial
  | cons second rest =>
    obtain ⟨unit, hUnit⟩ : ∃ unit, Utf16.unitAt? order doc stop i = some unit := by
      rw [Utf16.unitAt?, hBytes.1, hBytes.2.1]
      exact ⟨_, rfl⟩
    have hHigh : (∃ unit, order.bytes unit = [first, second] ∧ 0xD800 ≤ unit ∧ unit < 0xDC00) ↔
        0xD800 ≤ unit ∧ unit < 0xDC00 := by
      constructor
      · rintro ⟨unit', hPair, hLeast, hLess⟩
        have hAt : BytesAt doc stop i (order.bytes unit') := hPair ▸ ⟨hBytes.1, hBytes.2.1, trivial⟩
        have hSame := Utf16.unitAt?_eq_some_iff.mpr ⟨show unit' < 0x10000 by omega, hAt⟩
        obtain rfl : unit = unit' := Option.some.inj (hUnit.symm.trans hSame)
        exact ⟨hLeast, hLess⟩
      · rintro ⟨hLeast, hLess⟩
        exact ⟨unit, (Utf16.unitAt?_eq_some_iff.mp hUnit).2.unique ⟨hBytes.1, hBytes.2.1, trivial⟩
          (order.length_bytes unit), hLeast, hLess⟩
    have hRest : Utf16.unitAt? order doc stop (i + 2) = none ↔ rest.length < 2 := by
      refine Utf16.unitAt?_eq_none_iff hBytes.2.2 ?_
      rw [← hStop, List.length_cons, List.length_cons]
      omega
    change _ ↔ (∃ unit, order.bytes unit = [first, second] ∧ 0xD800 ≤ unit ∧ unit < 0xDC00) ∧ rest.length < 2
    rw [hHigh, ← hRest, Utf16.decodeAt, hUnit]
    simp only
    split
    · simp only [reduceCtorEq, false_iff]
      omega
    · split
      · simp only [Except.error.injEq, reduceCtorEq, false_iff]
        omega
      · cases Utf16.unitAt? order doc stop (i + 2) with
        | none => simp only [and_true, true_iff]; omega
        | some low => simp only [reduceCtorEq, and_false, iff_false]; split <;> simp

theorem Encoding.decodeAt_of_le (hStop : stop ≤ i) : e.decodeAt doc stop i = .error .truncated := by
  have hByte : byteAt? doc stop i = none := byteAt?_eq_none_of_le hStop
  have hPage (page : CodePage) : CodePage.decodeAt page doc stop i = .error .truncated := by
    rw [CodePage.decodeAt, hByte]
  cases e with
  | utf8 => exact (Utf8.decodeAt.eq_def ..).trans (by rw [hByte])
  | ascii => exact (Ascii.decodeAt.eq_def ..).trans (by rw [hByte])
  | latin1 => exact (Latin1.decodeAt.eq_def ..).trans (by rw [hByte])
  | utf16 order =>
    have hUnit : Utf16.unitAt? order doc stop i = none := by rw [Utf16.unitAt?, hByte]
    exact (Utf16.decodeAt.eq_def ..).trans (by rw [hUnit])
  | _ => exact hPage _

/-- Decoding ends too soon exactly at the end and where a character is cut off. -/
theorem Encoding.decodeAt_eq_truncated_iff (hBytes : BytesAt doc stop i bytes)
    (hStop : i + bytes.length = stop) :
    e.decodeAt doc stop i = .error .truncated ↔ bytes = [] ∨ e.CutsOff bytes := by
  cases bytes with
  | nil => exact iff_of_true (Encoding.decodeAt_of_le (Nat.le_of_eq hStop.symm)) (.inl rfl)
  | cons byte bytes =>
    have hPage (page : CodePage) : CodePage.decodeAt page doc stop i ≠ .error .truncated := by
      rw [CodePage.decodeAt, hBytes.1]
      simp only
      split <;> simp
    simp only [reduceCtorEq, false_or]
    cases e with
    | utf8 => exact Utf8.decodeAt_eq_truncated_iff hBytes hStop
    | utf16 order => exact Utf16.decodeAt_eq_truncated_iff hBytes hStop
    | ascii =>
      refine iff_of_false (fun hRead => ?_) id
      rw [Encoding.decodeAt, Ascii.decodeAt, hBytes.1] at hRead
      simp only at hRead
      split at hRead <;> cases hRead
    | latin1 =>
      refine iff_of_false (fun hRead => ?_) id
      rw [Encoding.decodeAt, Latin1.decodeAt, hBytes.1] at hRead
      cases hRead
    | _ => exact iff_of_false (hPage _) id

end

namespace Encoding
variable {e : Encoding} {doc : ByteArray} {stop i : Nat}

theorem decodeFrom_of_ok {c w : Nat} (hRead : e.decodeAt doc stop i = .ok (c, w)) :
    e.decodeFrom doc stop i =
      ((c, w) :: (e.decodeFrom doc stop (i + w)).1, (e.decodeFrom doc stop (i + w)).2) := by
  have hWidth := decodeAt_width hRead
  rw [decodeFrom, if_pos (by omega)]
  split <;> simp_all

theorem decodeFrom_of_error {fault : DecodeFault} (hStop : i < stop)
    (hRead : e.decodeAt doc stop i = .error fault) : e.decodeFrom doc stop i = ([], some fault) := by
  rw [decodeFrom, if_pos hStop]
  split <;> simp_all

theorem decodeFrom_of_le (hStop : stop ≤ i) : e.decodeFrom doc stop i = ([], none) := by
  rw [decodeFrom, if_neg (Nat.not_lt.mpr hStop)]

end Encoding

namespace Cursor
variable {c : Cursor} {text : Chars}

theorem ends_iff : c.Ends ↔ c.encoding.decodeAt c.doc c.stop c.offset = .error .truncated := by
  unfold Ends charAt
  split
  · simp_all
  · rename_i cause hRead
    rw [hRead]
    cases cause <;> simp [Fault.ofDecode]

theorem ends_advance_iff : (c.advance text).Ends ↔
    c.encoding.decodeAt c.doc c.stop (c.offset + c.encoding.size text) = .error .truncated := by
  rw [ends_iff, encoding_advance, doc_advance, stop_advance, offset_advance]

theorem ends_of_stop_le (hStop : c.stop ≤ c.offset) : c.Ends :=
  ends_iff.mpr (Encoding.decodeAt_of_le hStop)

/-- Nothing, or less than a character, is left of the document. -/
theorem decodeFrom_of_ends (hEnds : c.Ends) :
    c.encoding.decodeFrom c.doc c.stop c.offset = ([], if c.offset < c.stop then some .truncated else none) := by
  by_cases hStop : c.offset < c.stop
  · rw [if_pos hStop]
    exact Encoding.decodeFrom_of_error hStop (ends_iff.mp hEnds)
  · rw [if_neg hStop]
    exact Encoding.decodeFrom_of_le (Nat.not_lt.mp hStop)

/-- The characters of the range are those of a text read to the end. -/
theorem decodeFrom_of_reads (hReads : c.Reads text) (hEnds : (c.advance text).Ends) :
    c.encoding.decodeFrom c.doc c.stop c.offset = (text.map fun ch => (ch, c.encoding.width ch),
      if c.offset + c.encoding.size text < c.stop then some .truncated else none) := by
  induction text generalizing c with
  | nil => exact decodeFrom_of_ends hEnds
  | cons ch text ih =>
    obtain ⟨hHead, hTail⟩ := Cursor.reads_cons.mp hReads
    have hRest := ih hTail hEnds
    simp only [encoding_advance, doc_advance, stop_advance, offset_advance, Encoding.size_cons,
      Encoding.size_nil, Nat.add_zero] at hRest
    rw [Encoding.decodeFrom_of_ok (charAt_eq_ok_iff.mp (reads_singleton_iff.mp hHead)), hRest]
    simp [Nat.add_assoc]

/-- Where a text has been read to the end, whatever else is read there is the beginning of it. -/
theorem Reads.prefix_of_ends {other : Chars} (hOther : c.Reads other) (hReads : c.Reads text)
    (hEnds : (c.advance text).Ends) : other <+: text := by
  induction text generalizing c other with
  | nil =>
    cases other with
    | nil => exact List.prefix_rfl
    | cons ch other => exact absurd ((charAt_eq_ok_iff.mp hOther.1).symm.trans (ends_iff.mp hEnds)) nofun
  | cons ch text ih =>
    cases other with
    | nil => exact List.nil_prefix
    | cons first other =>
      obtain ⟨hHead, hTail⟩ := reads_cons.mp hReads
      obtain rfl : first = ch := hHead.head_eq hOther
      exact List.cons_prefix_cons.mpr ⟨rfl, ih (reads_cons.mp hOther).2 hTail hEnds⟩

theorem Reads.eq_of_ends {other : Chars} (hOther : c.Reads other) (hOtherEnds : (c.advance other).Ends)
    (hReads : c.Reads text) (hEnds : (c.advance text).Ends) : other = text :=
  (hOther.prefix_of_ends hReads hEnds).eq_of_length_le (hReads.prefix_of_ends hOther hOtherEnds).length_le

end Cursor
end XmlIndex
