import XmlIndex.Lexer.State
import XmlIndex.Proofs.Grammar.Syntax
import XmlIndex.Proofs.Scan.Outcome

/-! # Stretches of the document

The lexer compares names by their bytes. Two stretches that read as texts have the same bytes
exactly if the texts are the same.
-/
namespace XmlIndex
set_option autoImplicit false
open Grammar

theorem byteAt?_eq_some_iff {doc : ByteArray} {stop i byte : Nat} :
    byteAt? doc stop i = some byte ↔ i < stop ∧ doc[i]?.map UInt8.toNat = some byte := by
  unfold byteAt?
  by_cases hStop : i < stop
  · rw [if_pos hStop, and_iff_right hStop]
    by_cases hSize : i < doc.size
    · rw [dif_pos hSize, getElem?_pos doc i hSize, Option.map_some]
    · rw [dif_neg hSize, getElem?_neg doc i hSize, Option.map_none]
  · simp [hStop]

namespace Cursor
variable {doc : ByteArray} {stop a b : Nat} {bytes : List Nat}

/-- Bytes known at one place stand at another exactly if the two stretches are equal. -/
theorem sameBytes_iff_bytesAt (hKnown : BytesAt doc stop b bytes) (hRoom : a + bytes.length ≤ stop) :
    sameBytes doc bytes.length a b = true ↔ BytesAt doc stop a bytes := by
  induction bytes generalizing a b with
  | nil => exact iff_of_true rfl trivial
  | cons byte bytes ih =>
    rw [List.length_cons] at hRoom
    have hByte : (doc[a]? == doc[b]?) = true ↔ byteAt? doc stop a = some byte := by
      have hInjective : ∀ {x y : UInt8}, x.toNat = y.toNat → x = y := UInt8.toNat_inj.mp
      obtain ⟨y, hb, rfl⟩ := Option.map_eq_some_iff.mp (byteAt?_eq_some_iff.mp hKnown.1).2
      rw [byteAt?_eq_some_iff, hb, beq_iff_eq, Option.map_eq_some_iff]
      constructor
      · exact fun h => ⟨by omega, y, h, rfl⟩
      · rintro ⟨-, x, hx, hSame⟩
        rw [hx, hInjective hSame]
    rw [List.length_cons, sameBytes, Bool.and_eq_true, hByte, BytesAt, ih hKnown.2 (by omega)]

variable {c c' : Cursor} {text other : Chars} {offset place : Nat}

theorem sameBytes_iff_readsAt (hKnown : c.ReadsAt place text)
    (hRoom : offset + c.encoding.size text ≤ c.stop) :
    sameBytes c.doc (c.encoding.size text) offset place = true ↔ c.ReadsAt offset text := by
  obtain ⟨bytes, hSpells, hBytes⟩ := readsAt_iff_bytesAt.mp hKnown
  rw [← hSpells.length_eq] at hRoom ⊢
  rw [sameBytes_iff_bytesAt hBytes hRoom, readsAt_iff_bytesAt]
  constructor
  · exact fun h => ⟨bytes, hSpells, h⟩
  · rintro ⟨bytes', hSpells', h⟩
    rwa [hSpells.unique hSpells']

/-- Two texts of one size at one place are the same. -/
theorem ReadsAt.eq_of_size (hText : c.ReadsAt offset text) (hOther : c.ReadsAt offset other)
    (hSize : c.encoding.size text = c.encoding.size other) : text = other := by
  induction text generalizing offset other with
  | nil =>
    cases other with
    | nil => rfl
    | cons ch other =>
      rw [Encoding.size_nil, Encoding.size_cons] at hSize
      have := Encoding.width_pos (e := c.encoding) ch
      omega
  | cons ch text ih =>
    cases other with
    | nil =>
      rw [Encoding.size_nil, Encoding.size_cons] at hSize
      have := Encoding.width_pos (e := c.encoding) ch
      omega
    | cons d other =>
      have hHead : ch = d := congrArg Prod.fst (Except.ok.inj (hText.1.symm.trans hOther.1))
      subst hHead
      rw [ih hText.2 hOther.2 (by simpa using hSize)]

structure Covers (c : Cursor) (span : Span) (text : Chars) : Prop where
  reads : c.ReadsAt span.offset text
  length_eq : span.length = c.encoding.size text

theorem Covers.congr {span : Span} (hCovers : c.Covers span text) (hDoc : c'.doc = c.doc)
    (hStop : c'.stop = c.stop) (hEncoding : c'.encoding = c.encoding) : c'.Covers span text :=
  ⟨(readsAt_congr hDoc hStop hEncoding).mpr hCovers.reads, by rw [hEncoding]; exact hCovers.length_eq⟩

theorem sameText_iff {span span' : Span} (hSpan : c.Covers span text) (hSpan' : c.Covers span' other)
    (hNonempty : other ≠ []) :
    Namespace.sameText c.doc span.offset span.length span'.offset span'.length = true ↔
      text = other := by
  rw [Namespace.sameText, Bool.and_eq_true, beq_iff_eq, hSpan.length_eq, hSpan'.length_eq]
  constructor
  · rintro ⟨hSize, hSame⟩
    have hText : text ≠ [] := by
      rintro rfl
      exact hNonempty (hSpan'.reads.eq_of_size trivial hSize.symm)
    have hRoom := hSpan.reads.le_stop hText
    rw [hSize] at hSame hRoom
    exact hSpan.reads.eq_of_size ((sameBytes_iff_readsAt hSpan'.reads hRoom).mp hSame) hSize
  · rintro rfl
    exact ⟨rfl, (sameBytes_iff_readsAt hSpan'.reads (hSpan.reads.le_stop hNonempty)).mpr hSpan.reads⟩

end Cursor

namespace Scan
variable {c c' : Cursor} {span : Span} {name : Chars}

/-- A name comes again, and something after it. -/
theorem skipAgain_eq_ok_true_iff (hSpan : c.Covers span name) :
    skipAgain span.offset span.length c = .ok true c' ↔
      c.Reads name ∧ c.offset + c.encoding.size name < c.stop ∧
        c' = { c with offset := c.offset + c.encoding.size name } := by
  rw [skipAgain, hSpan.length_eq]
  by_cases hRoom : c.stop ≤ c.offset + c.encoding.size name
  · rw [if_pos hRoom]
    simp only [reduceCtorEq, false_iff]
    rintro ⟨-, h, -⟩
    omega
  · rw [if_neg hRoom]
    have hSame := @Cursor.sameBytes_iff_readsAt c _ c.offset _ hSpan.reads (by omega)
    by_cases hReads : c.Reads name
    · rw [if_pos (hSame.mpr hReads), EStateM.Result.ok.injEq, eq_comm (a := c')]
      simp only [true_and, hReads]
      exact ⟨fun h => ⟨by omega, h⟩, fun h => h.2⟩
    · rw [if_neg fun h => hReads (hSame.mp h)]
      simp [hReads]

end Scan
end XmlIndex
