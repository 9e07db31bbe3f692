import XmlIndex.Text.CodePage
import XmlIndex.Text.Encoding

/-! # Decoding one character

The character at an offset of a document is read from the bytes before `stop` alone. UTF-8 and
UTF-16 are strict: no overlong form, no lone surrogate, nothing above `U+10FFFF`. A character that
would run past `stop` is `truncated`, whatever its first bytes promise.
-/
namespace XmlIndex
set_option autoImplicit false

inductive DecodeFault where
  | truncated
  | utf8Byte (byte : Nat)
  | utf8Sequence (c : CodePoint)
  | asciiByte (byte : Nat)
  | unmapped (byte : Nat) (page : CodePage)
  | highSurrogate
  | lowSurrogate
  deriving DecidableEq, Repr

/-- The byte at `i`, as a number, if it lies before `stop`. -/
@[inline] def byteAt? (doc : ByteArray) (stop i : Nat) : Option Nat :=
  if i < stop then
    if h : i < doc.size then some doc[i].toNat else none
  else none

theorem byteAt?_eq_none_of_le {doc : ByteArray} {stop i : Nat} (hStop : stop ≤ i) :
    byteAt? doc stop i = none := by
  simp [byteAt?, Nat.not_lt.mpr hStop]

theorem lt_stop_of_byteAt?_eq_some {doc : ByteArray} {stop i byte : Nat}
    (hByte : byteAt? doc stop i = some byte) : i < stop := by
  unfold byteAt? at hByte
  split at hByte
  · assumption
  · cases hByte

abbrev Decoded := Except DecodeFault (CodePoint × Nat)

namespace Utf8

def continuation (doc : ByteArray) (stop : Nat) : (count i value : Nat) → Except DecodeFault CodePoint
  | 0, _, value => .ok value
  | count + 1, i, value =>
    match byteAt? doc stop i with
    | none => .error .truncated
    | some byte =>
      if 0x80 ≤ byte ∧ byte ≤ 0xBF then continuation doc stop count (i + 1) (64 * value + (byte - 0x80))
      else .error (.utf8Byte byte)

/-- A sequence of `width` bytes whose first contributes `lead`; `least` is the smallest code point
that needs so many. -/
def sequence (doc : ByteArray) (stop i width least lead : Nat) : Decoded :=
  if stop < i + width then .error .truncated
  else
    match continuation doc stop (width - 1) (i + 1) lead with
    | .error fault => .error fault
    | .ok c => if least ≤ c ∧ CodePoint.IsScalar c then .ok (c, width) else .error (.utf8Sequence c)

def decodeAt (doc : ByteArray) (stop i : Nat) : Decoded :=
  match byteAt? doc stop i with
  | none => .error .truncated
  | some byte =>
    if byte < 0x80 then .ok (byte, 1)
    else if byte < 0xC2 then .error (.utf8Byte byte)
    else if byte < 0xE0 then sequence doc stop i 2 0x80 (byte - 0xC0)
    else if byte < 0xF0 then sequence doc stop i 3 0x800 (byte - 0xE0)
    else if byte < 0xF5 then sequence doc stop i 4 0x10000 (byte - 0xF0)
    else .error (.utf8Byte byte)

end Utf8

namespace Utf16

@[inline] def unitAt? (order : ByteOrder) (doc : ByteArray) (stop i : Nat) : Option Nat :=
  match byteAt? doc stop i, byteAt? doc stop (i + 1) with
  | some first, some second =>
    some (match order with
      | .big => 256 * first + second
      | .little => 256 * second + first)
  | _, _ => none

def ofPair (high low : Nat) : Nat :=
  0x10000 + 0x400 * (high - 0xD800) + (low - 0xDC00)

def decodeAt (order : ByteOrder) (doc : ByteArray) (stop i : Nat) : Decoded :=
  match unitAt? order doc stop i with
  | none => .error .truncated
  | some unit =>
    if unit < 0xD800 ∨ 0xDFFF < unit then .ok (unit, 2)
    else if 0xDC00 ≤ unit then .error .lowSurrogate
    else
      match unitAt? order doc stop (i + 2) with
      | none => .error .truncated
      | some low =>
        if 0xDC00 ≤ low ∧ low ≤ 0xDFFF then .ok (ofPair unit low, 4)
        else .error .highSurrogate

end Utf16

namespace Ascii

def decodeAt (doc : ByteArray) (stop i : Nat) : Decoded :=
  match byteAt? doc stop i with
  | none => .error .truncated
  | some byte => if byte < 0x80 then .ok (byte, 1) else .error (.asciiByte byte)

end Ascii

namespace CodePage

def decodeAt (page : CodePage) (doc : ByteArray) (stop i : Nat) : Decoded :=
  match byteAt? doc stop i with
  | none => .error .truncated
  | some byte =>
    match page.codePoint? byte with
    | some c => .ok (c, 1)
    | none => .error (.unmapped byte page)

end CodePage

namespace Latin1

def decodeAt (doc : ByteArray) (stop i : Nat) : Decoded :=
  match byteAt? doc stop i with
  | none => .error .truncated
  | some byte => .ok (byte, 1)

end Latin1

namespace Encoding

/-- The character of `doc` at offset `i`, read from the bytes before `stop`. The Turkish and Thai
parts of ISO 8859 are read by the Windows pages that extend them. -/
def decodeAt : Encoding → ByteArray → (stop i : Nat) → Decoded
  | .utf8 => Utf8.decodeAt
  | .ascii => Ascii.decodeAt
  | .latin1 => Latin1.decodeAt
  | .utf16 order => Utf16.decodeAt order
  | .iso8859_2 => CodePage.decodeAt .iso8859_2
  | .iso8859_3 => CodePage.decodeAt .iso8859_3
  | .iso8859_4 => CodePage.decodeAt .iso8859_4
  | .iso8859_5 => CodePage.decodeAt .iso8859_5
  | .iso8859_6 => CodePage.decodeAt .iso8859_6
  | .iso8859_7 => CodePage.decodeAt .iso8859_7
  | .iso8859_8 => CodePage.decodeAt .iso8859_8
  | .iso8859_9 => CodePage.decodeAt .windows1254
  | .iso8859_10 => CodePage.decodeAt .iso8859_10
  | .iso8859_11 => CodePage.decodeAt .windows874
  | .iso8859_13 => CodePage.decodeAt .iso8859_13
  | .iso8859_14 => CodePage.decodeAt .iso8859_14
  | .iso8859_15 => CodePage.decodeAt .iso8859_15
  | .iso8859_16 => CodePage.decodeAt .iso8859_16
  | .windows1250 => CodePage.decodeAt .windows1250
  | .windows1251 => CodePage.decodeAt .windows1251
  | .windows1252 => CodePage.decodeAt .windows1252
  | .windows1253 => CodePage.decodeAt .windows1253
  | .windows1254 => CodePage.decodeAt .windows1254
  | .windows1255 => CodePage.decodeAt .windows1255
  | .windows1256 => CodePage.decodeAt .windows1256
  | .windows1257 => CodePage.decodeAt .windows1257
  | .windows1258 => CodePage.decodeAt .windows1258

end Encoding

theorem Utf8.sequence_width {doc : ByteArray} {stop i width least lead c w : Nat}
    (hRead : Utf8.sequence doc stop i width least lead = .ok (c, w)) :
    w = width ∧ i + width ≤ stop := by
  unfold Utf8.sequence at hRead
  split at hRead
  · cases hRead
  · split at hRead
    · cases hRead
    · split at hRead <;> cases hRead
      omega

theorem Utf8.decodeAt_width {doc : ByteArray} {stop i c w : Nat}
    (hRead : Utf8.decodeAt doc stop i = .ok (c, w)) : 0 < w ∧ i + w ≤ stop := by
  unfold Utf8.decodeAt at hRead
  split at hRead
  · cases hRead
  · rename_i byte hByte
    have hStop := lt_stop_of_byteAt?_eq_some hByte
    split at hRead
    · cases hRead
      omega
    · repeat' split at hRead
      all_goals first
        | (have hWidth := Utf8.sequence_width hRead; omega)
        | cases hRead

theorem Utf16.lt_stop_of_unitAt?_eq_some {order : ByteOrder} {doc : ByteArray} {stop i unit : Nat}
    (hUnit : Utf16.unitAt? order doc stop i = some unit) : i + 1 < stop := by
  unfold Utf16.unitAt? at hUnit
  split at hUnit
  · exact lt_stop_of_byteAt?_eq_some ‹_›
  · cases hUnit

theorem Utf16.decodeAt_width {order : ByteOrder} {doc : ByteArray} {stop i c w : Nat}
    (hRead : Utf16.decodeAt order doc stop i = .ok (c, w)) : 0 < w ∧ i + w ≤ stop := by
  unfold Utf16.decodeAt at hRead
  split at hRead
  · cases hRead
  · rename_i unit hUnit
    have hStop := Utf16.lt_stop_of_unitAt?_eq_some hUnit
    split at hRead
    · cases hRead
      omega
    · split at hRead
      · cases hRead
      · split at hRead
        · cases hRead
        · rename_i low hLow
          have hLowStop := Utf16.lt_stop_of_unitAt?_eq_some hLow
          split at hRead
          · simp only [Except.ok.injEq, Prod.mk.injEq] at hRead
            omega
          · cases hRead

theorem Ascii.decodeAt_width {doc : ByteArray} {stop i c w : Nat}
    (hRead : Ascii.decodeAt doc stop i = .ok (c, w)) : 0 < w ∧ i + w ≤ stop := by
  unfold Ascii.decodeAt at hRead
  split at hRead
  · cases hRead
  · have hStop := lt_stop_of_byteAt?_eq_some ‹_›
    split at hRead <;> cases hRead
    omega

theorem Latin1.decodeAt_width {doc : ByteArray} {stop i c w : Nat}
    (hRead : Latin1.decodeAt doc stop i = .ok (c, w)) : 0 < w ∧ i + w ≤ stop := by
  unfold Latin1.decodeAt at hRead
  split at hRead
  · cases hRead
  · have hStop := lt_stop_of_byteAt?_eq_some ‹_›
    cases hRead
    omega

theorem CodePage.decodeAt_width {page : CodePage} {doc : ByteArray} {stop i c w : Nat}
    (hRead : CodePage.decodeAt page doc stop i = .ok (c, w)) : 0 < w ∧ i + w ≤ stop := by
  unfold CodePage.decodeAt at hRead
  split at hRead
  · cases hRead
  · have hStop := lt_stop_of_byteAt?_eq_some ‹_›
    split at hRead <;> cases hRead
    omega

/-- A character read lies before `stop` and has at least one byte. -/
theorem Encoding.decodeAt_width {encoding : Encoding} {doc : ByteArray} {stop i c w : Nat}
    (hRead : encoding.decodeAt doc stop i = .ok (c, w)) : 0 < w ∧ i + w ≤ stop := by
  cases encoding with
  | utf8 => exact Utf8.decodeAt_width hRead
  | ascii => exact Ascii.decodeAt_width hRead
  | latin1 => exact Latin1.decodeAt_width hRead
  | utf16 order => exact Utf16.decodeAt_width hRead
  | _ => exact CodePage.decodeAt_width hRead

namespace Encoding

/-- Reads characters from offset `i` to `stop`; a fault ends the reading. -/
def decodeFrom (encoding : Encoding) (doc : ByteArray) (stop i : Nat) :
    List (CodePoint × Nat) × Option DecodeFault :=
  if i < stop then
    match hRead : encoding.decodeAt doc stop i with
    | .error fault => ([], some fault)
    | .ok (c, width) =>
      have : 0 < width ∧ i + width ≤ stop := decodeAt_width hRead
      let rest := decodeFrom encoding doc stop (i + width)
      ((c, width) :: rest.1, rest.2)
  else ([], none)
termination_by stop - i

end Encoding
end XmlIndex
