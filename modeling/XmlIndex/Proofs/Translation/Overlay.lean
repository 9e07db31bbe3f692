import Mathlib.Data.List.Forall2
import Mathlib.Data.Nat.ModEq
import XmlIndex.Parse
import XmlIndex.Proofs.Text.Encoders

/-! # The same bytes in two documents

An overlay holds a range of an outer document against the beginning of an inner one: the bytes are
the same, the offsets differ by `delta`. What a lexer finds in the one it finds in the other. A
place is compared by its offset, and so that it counts as many code units more, either `delta` or
the place itself is a whole number of units.

An overlay may be lenient: then the outer lexer may fail where the inner one goes on, and the inner
one knows no namespaces. Over one and the same document this compares the two settings.
-/
namespace XmlIndex
set_option autoImplicit false

structure Overlay where
  outer : ByteArray
  inner : ByteArray
  delta : Nat
  stop : Nat
  unit : Nat
  lenient : Prop
  getElem?_eq : ∀ i, i < stop → outer[delta + i]? = inner[i]?

namespace Overlay

/-- The document itself, with namespaces left alone inside. -/
def withoutNamespaces (doc : ByteArray) (stop unit : Nat) : Overlay where
  outer := doc
  inner := doc
  delta := 0
  stop
  unit
  lenient := True
  getElem?_eq i _ := by rw [Nat.zero_add]

theorem getElem?_extract {doc : ByteArray} {offset stop i : Nat} (hRange : offset + i < stop) :
    doc[offset + i]? = (doc.extract offset stop)[i]? := by
  by_cases hSize : offset + i < doc.size
  · have hExtract : i < (doc.extract offset stop).size := by
      rw [ByteArray.size_extract]
      omega
    rw [getElem?_pos doc (offset + i) hSize, getElem?_pos (doc.extract offset stop) i hExtract,
      ByteArray.getElem_extract]
  · have hExtract : ¬i < (doc.extract offset stop).size := by
      rw [ByteArray.size_extract]
      omega
    rw [getElem?_neg doc (offset + i) hSize, getElem?_neg (doc.extract offset stop) i hExtract]

/-- A range of a document, with the bytes of the range alone inside. -/
def ofRange (doc : ByteArray) (offset length unit : Nat) : Overlay where
  outer := doc
  inner := doc.extract offset (offset + length)
  delta := offset
  stop := length
  unit
  lenient := False
  getElem?_eq i hRange := getElem?_extract (by omega)

variable {v : Overlay}

structure Place (v : Overlay) (a b : Nat) : Prop where
  eq : a = v.delta + b
  le : b ≤ v.stop
  aligned : v.unit ∣ v.delta ∨ v.unit ∣ b

structure Stretch (v : Overlay) (s t : Span) : Prop where
  begins : v.Place s.offset t.offset
  length_eq : s.length = t.length
  ends : v.Place (s.offset + s.length) (t.offset + t.length)

structure Named (v : Overlay) (m n : Name) : Prop where
  stretch : v.Stretch m.span n.span
  prefix_eq : m.prefixLength = n.prefixLength
  prefix_le : n.offset + n.prefixLength ≤ v.stop

section Places
variable {a b a' b' width : Nat}

theorem Place.add (hPlace : v.Place a b) (hUnit : v.unit ∣ width) (hStop : b + width ≤ v.stop) :
    v.Place (a + width) (b + width) where
  eq := by rw [hPlace.eq, Nat.add_assoc]
  le := hStop
  aligned := hPlace.aligned.imp_right fun hAligned => Nat.dvd_add hAligned hUnit

theorem Place.sub_eq (hPlace : v.Place a b) (hOther : v.Place a' b') : a' - a = b' - b := by
  rw [hPlace.eq, hOther.eq, Nat.add_sub_add_left]

/-- A place lies `delta` further in code units as well. -/
theorem Place.div_eq (hPlace : v.Place a b) : a / v.unit = v.delta / v.unit + b / v.unit := by
  rw [hPlace.eq]
  rcases hPlace.aligned with hDelta | hInner
  · exact Nat.add_div_of_dvd_right hDelta
  · exact Nat.add_div_of_dvd_left hInner

theorem Stretch.of_places (hPlace : v.Place a b) (hStop : v.Place a' b') :
    v.Stretch ⟨a, a' - a⟩ ⟨b, b' - b⟩ where
  begins := hPlace
  length_eq := hPlace.sub_eq hStop
  ends := by
    have hOuter := hPlace.eq
    have hOuter' := hStop.eq
    by_cases hOrder : b ≤ b'
    · convert hStop using 1 <;> simp only <;> omega
    · convert hPlace using 1 <;> simp only <;> omega

/-- The length of a stretch fits after any place that leaves room for it. -/
theorem Stretch.after {s t : Span} (hStretch : v.Stretch s t) (hPlace : v.Place a b)
    (hRoom : b + t.length ≤ v.stop) : v.Place (a + s.length) (b + t.length) where
  eq := by rw [hPlace.eq, hStretch.length_eq, Nat.add_assoc]
  le := hRoom
  aligned := by
    rcases hPlace.aligned with hDelta | hInner
    · exact .inl hDelta
    · rcases hStretch.begins.aligned with hDelta | hBegins
      · exact .inl hDelta
      · rcases hStretch.ends.aligned with hDelta | hEnds
        · exact .inl hDelta
        · exact .inr (Nat.dvd_add hInner ((Nat.dvd_add_right hBegins).mp hEnds))

theorem Named.of_places {colon colon' : Nat} (hPlace : v.Place a b) (hStop : v.Place a' b')
    (hColon : v.Place colon colon') : v.Named ⟨a, a' - a, colon - a⟩ ⟨b, b' - b, colon' - b⟩ where
  stretch := .of_places hPlace hStop
  prefix_eq := hPlace.sub_eq hColon
  prefix_le := by
    have := hPlace.le
    have := hColon.le
    simp only
    omega

end Places

theorem byteAt?_eq (v : Overlay) (i : Nat) :
    byteAt? v.outer (v.delta + v.stop) (v.delta + i) = byteAt? v.inner v.stop i := by
  have hByte : ∀ (doc : ByteArray) (stop i : Nat),
      byteAt? doc stop i = if i < stop then doc[i]?.map UInt8.toNat else none := by
    intro doc stop i
    unfold byteAt?
    by_cases hSize : i < doc.size
    · rw [getElem?_pos doc i hSize, dif_pos hSize, Option.map_some]
    · rw [getElem?_neg doc i hSize, dif_neg hSize, Option.map_none]
  rw [hByte, hByte]
  by_cases hStop : i < v.stop
  · rw [if_pos hStop, if_pos (by omega), v.getElem?_eq i hStop]
  · rw [if_neg hStop, if_neg (by omega)]

theorem unitAt?_eq (v : Overlay) (order : ByteOrder) (i : Nat) :
    Utf16.unitAt? order v.outer (v.delta + v.stop) (v.delta + i) =
      Utf16.unitAt? order v.inner v.stop i := by
  unfold Utf16.unitAt?
  rw [v.byteAt?_eq, Nat.add_assoc, v.byteAt?_eq]

theorem continuation_eq (v : Overlay) (count i value : Nat) :
    Utf8.continuation v.outer (v.delta + v.stop) count (v.delta + i) value =
      Utf8.continuation v.inner v.stop count i value := by
  induction count generalizing i value with
  | zero => rfl
  | succ count ih =>
    unfold Utf8.continuation
    rw [v.byteAt?_eq]
    simp only [Nat.add_assoc, ih]

theorem sequence_eq (v : Overlay) (i width least lead : Nat) :
    Utf8.sequence v.outer (v.delta + v.stop) (v.delta + i) width least lead =
      Utf8.sequence v.inner v.stop i width least lead := by
  unfold Utf8.sequence
  rw [Nat.add_assoc, Nat.add_assoc, v.continuation_eq]
  simp only [Nat.add_lt_add_iff_left]

theorem decodeAt_page_eq (v : Overlay) (page : CodePage) (i : Nat) :
    CodePage.decodeAt page v.outer (v.delta + v.stop) (v.delta + i) =
      CodePage.decodeAt page v.inner v.stop i := by
  unfold CodePage.decodeAt
  rw [v.byteAt?_eq]

theorem decodeAt_eq (v : Overlay) (e : Encoding) (i : Nat) :
    e.decodeAt v.outer (v.delta + v.stop) (v.delta + i) = e.decodeAt v.inner v.stop i := by
  cases e with
  | utf8 =>
    change Utf8.decodeAt _ _ _ = Utf8.decodeAt _ _ _
    unfold Utf8.decodeAt
    simp only [v.byteAt?_eq, v.sequence_eq]
  | ascii =>
    change Ascii.decodeAt _ _ _ = Ascii.decodeAt _ _ _
    unfold Ascii.decodeAt
    rw [v.byteAt?_eq]
  | latin1 =>
    change Latin1.decodeAt _ _ _ = Latin1.decodeAt _ _ _
    unfold Latin1.decodeAt
    rw [v.byteAt?_eq]
  | utf16 order =>
    change Utf16.decodeAt _ _ _ _ = Utf16.decodeAt _ _ _ _
    unfold Utf16.decodeAt
    rw [Nat.add_assoc, v.unitAt?_eq, v.unitAt?_eq]
  | _ => exact v.decodeAt_page_eq _ i

theorem sameBytes_eq (v : Overlay) {a b length : Nat} (hFirst : a + length ≤ v.stop)
    (hSecond : b + length ≤ v.stop) :
    Cursor.sameBytes v.outer length (v.delta + a) (v.delta + b) =
      Cursor.sameBytes v.inner length a b := by
  induction length generalizing a b with
  | zero => rfl
  | succ length ih =>
    unfold Cursor.sameBytes
    rw [v.getElem?_eq a (by omega), v.getElem?_eq b (by omega), Nat.add_assoc, Nat.add_assoc,
      ih (by omega) (by omega)]

theorem afterBytes_eq (v : Overlay) (counts : UInt8 → Bool) {count i : Nat}
    (hRange : i + count ≤ v.stop) (p : Position) :
    Position.afterBytes counts v.outer count (v.delta + i) p =
      Position.afterBytes counts v.inner count i p := by
  induction count generalizing i p with
  | zero => rfl
  | succ count ih =>
    unfold Position.afterBytes
    rw [v.getElem?_eq i (by omega)]
    split
    · rfl
    · have hRest : i + 1 + count ≤ v.stop := by omega
      exact ih hRest _

theorem afterUnits_eq (v : Overlay) (order : ByteOrder) {count i : Nat}
    (hRange : i + 2 * count ≤ v.stop) (p : Position) :
    Position.afterUnits order v.outer count (v.delta + i) p =
      Position.afterUnits order v.inner count i p := by
  induction count generalizing i p with
  | zero => rfl
  | succ count ih =>
    unfold Position.afterUnits
    rw [v.getElem?_eq i (by omega), Nat.add_assoc, v.getElem?_eq (i + 1) (by omega)]
    split
    · have hRest : i + 2 + 2 * count ≤ v.stop := by omega
      exact ih hRest _
    · rfl

theorem ofOffset_eq (v : Overlay) (e : Encoding) {start offset : Nat} (hStop : offset ≤ v.stop) :
    Position.ofOffset e v.outer (v.delta + start) (v.delta + offset) =
      Position.ofOffset e v.inner start offset := by
  -- nothing is walked over if the offset lies before the start
  by_cases hStart : start ≤ offset
  · cases e with
    | utf16 order =>
      simp only [Position.ofOffset, Nat.add_sub_add_left]
      exact v.afterUnits_eq order (by omega) _
    | utf8 =>
      simp only [Position.ofOffset, Nat.add_sub_add_left]
      exact v.afterBytes_eq _ (by omega) _
    | _ =>
      simp only [Position.ofOffset, Nat.add_sub_add_left]
      exact v.afterBytes_eq _ (by omega) _
  · have hNone : offset - start = 0 := by omega
    cases e <;> simp only [Position.ofOffset, Nat.add_sub_add_left, hNone] <;> rfl

end Overlay
end XmlIndex
