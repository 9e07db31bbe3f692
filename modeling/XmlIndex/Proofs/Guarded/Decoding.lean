import XmlIndex.Proofs.Scan.Ranges

/-! # Guarded decoding

A guarded computation tests before every step that could go wrong whether it may be taken: whether the
bytes of a slice and the elements of an array are there, whether a difference is not below zero. Where a
test fails it stops with a hazard. What is decoded is the window of a document, its bytes up to the end of
the range, and there no decoder meets a hazard.
-/
namespace XmlIndex
set_option autoImplicit false

/-- What no computation may do: subtract more than there is, slice or index what is not there, pack a token
at a depth that does not fit, find text outside the root, or take more steps than it is allowed. -/
inductive Hazard where
  | underflow
  | slice
  | element
  | depth
  | textOutsideRoot
  | steps
  deriving DecidableEq, Repr

inductive Mishap (ε : Type) where
  | fault (fault : ε)
  | hazard (hazard : Hazard)

abbrev Guarded (ε α : Type) := Except (Mishap ε) α

namespace Guarded
variable {ε δ α β : Type}

def fail (fault : ε) : Guarded ε α :=
  .error (.fault fault)

def demand (condition : Bool) (hazard : Hazard) : Guarded ε Unit :=
  if condition then .ok () else .error (.hazard hazard)

def minus (a b : Nat) : Guarded ε Nat := do
  demand (b ≤ a) .underflow
  return a - b

def slice (bytes : ByteArray) (start stop : Nat) : Guarded ε ByteArray := do
  demand (start ≤ stop && stop ≤ bytes.size) .slice
  return bytes.extract start stop

def element (bytes : ByteArray) (i : Nat) : Guarded ε Nat :=
  if h : i < bytes.size then .ok bytes[i].toNat else .error (.hazard .element)

def plain : Except ε α → Guarded ε α
  | .ok a => .ok a
  | .error fault => fail fault

def mapFault (f : ε → δ) : Guarded ε α → Guarded δ α
  | .ok a => .ok a
  | .error (.fault fault) => fail (f fault)
  | .error (.hazard hazard) => .error (.hazard hazard)

theorem ok_bind (a : α) (next : α → Guarded ε β) : (Except.ok a >>= next) = next a :=
  rfl

theorem demand_of_true {condition : Bool} {hazard : Hazard} (hCondition : condition = true) :
    (demand condition hazard : Guarded ε Unit) = .ok () :=
  if_pos hCondition

theorem minus_of_le {a b : Nat} (hLe : b ≤ a) : (minus a b : Guarded ε Nat) = .ok (a - b) := by
  rw [minus, demand_of_true (decide_eq_true hLe)]
  rfl

theorem slice_of_le {bytes : ByteArray} {start stop : Nat} (hStart : start ≤ stop) (hStop : stop ≤ bytes.size) :
    (slice bytes start stop : Guarded ε ByteArray) = .ok (bytes.extract start stop) := by
  rw [slice, demand_of_true (by simp [hStart, hStop])]
  rfl

def continuation (rest : ByteArray) : (count i value : Nat) → Guarded DecodeFault CodePoint
  | 0, _, value => .ok value
  | count + 1, i, value => do
    let byte ← element rest i
    if 0x80 ≤ byte ∧ byte ≤ 0xBF then continuation rest count (i + 1) (64 * value + (byte - 0x80))
    else fail (.utf8Byte byte)

def sequence (window : ByteArray) (i width least lead : Nat) : Guarded DecodeFault (CodePoint × Nat) := do
  if window.size < i + width then fail .truncated
  else
    let rest ← slice window (i + 1) (i + width)
    let c ← continuation rest (width - 1) 0 lead
    if least ≤ c ∧ CodePoint.IsScalar c then return (c, width) else fail (.utf8Sequence c)

def utf8 (window : ByteArray) (i : Nat) : Guarded DecodeFault (CodePoint × Nat) := do
  let byte ← element window i
  if byte < 0x80 then return (byte, 1)
  else if byte < 0xC2 then fail (.utf8Byte byte)
  else if byte < 0xE0 then sequence window i 2 0x80 (byte - 0xC0)
  else if byte < 0xF0 then sequence window i 3 0x800 (byte - 0xE0)
  else if byte < 0xF5 then sequence window i 4 0x10000 (byte - 0xF0)
  else fail (.utf8Byte byte)

def unit (order : ByteOrder) (window : ByteArray) (i : Nat) : Guarded DecodeFault Nat := do
  if window.size < i + 2 then fail .truncated
  else
    let first ← element window i
    let second ← element window (i + 1)
    return match order with
      | .big => 256 * first + second
      | .little => 256 * second + first

def utf16 (order : ByteOrder) (window : ByteArray) (i : Nat) : Guarded DecodeFault (CodePoint × Nat) := do
  let high ← unit order window i
  if high < 0xD800 ∨ 0xDFFF < high then return (high, 2)
  else if 0xDC00 ≤ high then fail .lowSurrogate
  else
    let low ← unit order window (i + 2)
    if 0xDC00 ≤ low ∧ low ≤ 0xDFFF then
      return (0x10000 + 0x400 * (← minus high 0xD800) + (← minus low 0xDC00), 4)
    else fail .highSurrogate

def ascii (window : ByteArray) (i : Nat) : Guarded DecodeFault (CodePoint × Nat) := do
  let byte ← element window i
  if byte < 0x80 then return (byte, 1) else fail (.asciiByte byte)

def latin1 (window : ByteArray) (i : Nat) : Guarded DecodeFault (CodePoint × Nat) := do
  let byte ← element window i
  return (byte, 1)

def codePage (page : CodePage) (window : ByteArray) (i : Nat) : Guarded DecodeFault (CodePoint × Nat) := do
  let byte ← element window i
  demand (byte < 0x100) .element
  match page.codePoint? byte with
  | some c => return (c, 1)
  | none => fail (.unmapped byte page)

def decodeAt (e : Encoding) : (window : ByteArray) → (i : Nat) → Guarded DecodeFault (CodePoint × Nat) :=
  match e.page? with
  | some page => codePage page
  | none =>
    match e with
    | .ascii => ascii
    | .latin1 => latin1
    | .utf16 order => utf16 order
    | _ => utf8

section
variable {doc : ByteArray} {stop i : Nat} (hStop : stop ≤ doc.size)
include hStop

theorem size_window : (doc.extract 0 stop).size = stop := by
  rw [ByteArray.size_extract, Nat.min_eq_left hStop, Nat.sub_zero]

/-- An element of a slice is a byte of the document. -/
theorem element_extract {start stop' : Nat} (hFits : stop' ≤ stop) (hInside : start + i < stop') :
    ∃ byte < 0x100, byteAt? doc stop (start + i) = some byte ∧
      (element (doc.extract start stop') i : Guarded DecodeFault Nat) = .ok byte := by
  have hByte : start + i < doc.size := by omega
  have hSlice : i < (doc.extract start stop').size := by
    rw [ByteArray.size_extract]
    omega
  refine ⟨doc[start + i].toNat, UInt8.toNat_lt _, ?_, ?_⟩
  · rw [byteAt?, if_pos (by omega), dif_pos hByte]
  · rw [element, dif_pos hSlice, ByteArray.getElem_extract]

theorem element_window (hInside : i < stop) :
    ∃ byte < 0x100, byteAt? doc stop i = some byte ∧
      (element (doc.extract 0 stop) i : Guarded DecodeFault Nat) = .ok byte := by
  have hElement := @element_extract doc stop i hStop 0 stop (Nat.le_refl _) (by omega)
  rwa [Nat.zero_add] at hElement

theorem continuation_eq {width count j value : Nat} (hFits : i + width ≤ stop) (hCount : j + count + 1 = width) :
    continuation ((doc.extract 0 stop).extract (i + 1) (i + width)) count j value =
      plain (Utf8.continuation doc stop count (i + 1 + j) value) := by
  induction count generalizing j value with
  | zero => rfl
  | succ count ih =>
    have hWindow : (doc.extract 0 stop).extract (i + 1) (i + width) = doc.extract (i + 1) (i + width) := by
      rw [ByteArray.extract_extract, Nat.zero_add, Nat.zero_add, Nat.min_eq_left hFits]
    obtain ⟨byte, -, hByte, hElement⟩ := @element_extract doc stop j hStop (i + 1) (i + width) hFits (by omega)
    rw [continuation, hWindow, hElement, ok_bind, Utf8.continuation, hByte]
    dsimp only
    split
    · rw [← hWindow]
      exact ih (by omega)
    · rfl

theorem sequence_eq {width least lead : Nat} (hWidth : 1 ≤ width) :
    sequence (doc.extract 0 stop) i width least lead = plain (Utf8.sequence doc stop i width least lead) := by
  rw [sequence, size_window hStop, Utf8.sequence]
  split
  · rfl
  · rename_i hFits
    rw [slice_of_le (by omega) (by rw [size_window hStop]; omega), ok_bind,
      continuation_eq hStop (by omega) (by omega), Nat.add_zero]
    cases Utf8.continuation doc stop (width - 1) (i + 1) lead with
    | error fault => rfl
    | ok c =>
      change (if _ then _ else _) = plain (if _ then _ else _)
      split <;> rfl

theorem utf8_eq (hInside : i < stop) : utf8 (doc.extract 0 stop) i = plain (Utf8.decodeAt doc stop i) := by
  obtain ⟨byte, -, hByte, hElement⟩ := element_window hStop hInside
  rw [utf8, hElement, ok_bind, Utf8.decodeAt, hByte]
  dsimp only
  rw [sequence_eq hStop (by decide), sequence_eq hStop (by decide), sequence_eq hStop (by decide)]
  repeat' split
  all_goals rfl

theorem unit_eq (order : ByteOrder) : unit order (doc.extract 0 stop) i =
    match Utf16.unitAt? order doc stop i with
    | some unit => .ok unit
    | none => fail .truncated := by
  rw [unit, size_window hStop]
  by_cases hFits : stop < i + 2
  · have hSecond : byteAt? doc stop (i + 1) = none := byteAt?_eq_none_of_le (by omega)
    rw [if_pos hFits, Utf16.unitAt?, hSecond]
    cases byteAt? doc stop i <;> rfl
  · obtain ⟨first, -, hFirst, hElement⟩ := element_window hStop (by omega : i < stop)
    obtain ⟨second, -, hSecond, hElement'⟩ := element_window hStop (by omega : i + 1 < stop)
    rw [if_neg hFits, hElement, ok_bind, hElement', ok_bind, Utf16.unitAt?, hFirst, hSecond]
    cases order <;> rfl

theorem utf16_eq (order : ByteOrder) : utf16 order (doc.extract 0 stop) i = plain (Utf16.decodeAt order doc stop i) := by
  rw [utf16, unit_eq hStop, Utf16.decodeAt]
  cases Utf16.unitAt? order doc stop i with
  | none => rfl
  | some high =>
    dsimp only [ok_bind]
    split
    · rfl
    · split
      · rfl
      · rename_i hSurrogate hHigh
        rw [unit_eq hStop]
        cases Utf16.unitAt? order doc stop (i + 2) with
        | none => rfl
        | some low =>
          dsimp only [ok_bind]
          split
          · rw [minus_of_le (by omega), minus_of_le (by omega)]
            rfl
          · rfl

theorem ascii_eq (hInside : i < stop) : ascii (doc.extract 0 stop) i = plain (Ascii.decodeAt doc stop i) := by
  obtain ⟨byte, -, hByte, hElement⟩ := element_window hStop hInside
  rw [ascii, hElement, ok_bind, Ascii.decodeAt, hByte]
  dsimp only
  split <;> rfl

theorem latin1_eq (hInside : i < stop) : latin1 (doc.extract 0 stop) i = plain (Latin1.decodeAt doc stop i) := by
  obtain ⟨byte, -, hByte, hElement⟩ := element_window hStop hInside
  rw [latin1, hElement, ok_bind, Latin1.decodeAt, hByte]
  rfl

theorem codePage_eq (page : CodePage) (hInside : i < stop) :
    codePage page (doc.extract 0 stop) i = plain (page.decodeAt doc stop i) := by
  obtain ⟨byte, hSmall, hByte, hElement⟩ := element_window hStop hInside
  rw [codePage, hElement, ok_bind, demand_of_true (decide_eq_true hSmall), ok_bind, CodePage.decodeAt, hByte]
  cases hFound : page.codePoint? byte <;> simp only [hFound] <;> rfl

/-- In a window every decoder comes to its result. -/
theorem decodeAt_eq (e : Encoding) (hInside : i < stop) :
    decodeAt e (doc.extract 0 stop) i = plain (e.decodeAt doc stop i) := by
  cases e with
  | utf8 => exact utf8_eq hStop hInside
  | ascii => exact ascii_eq hStop hInside
  | latin1 => exact latin1_eq hStop hInside
  | utf16 order => exact utf16_eq hStop order
  | _ => exact codePage_eq hStop _ hInside

end

/-- A character is decoded only before the end of the range, and from the window alone. -/
def charAt (c : Cursor) (offset : Nat) : Guarded Fault (CodePoint × Nat) := do
  if c.stop ≤ offset then fail .endOfDocument
  else
    let window ← slice c.doc 0 c.stop
    mapFault .ofDecode (decodeAt c.encoding window offset)

/-- Wherever a character is looked for in a range of the buffer, no access is out of it. -/
theorem charAt_eq {c : Cursor} (hStop : c.stop ≤ c.doc.size) (offset : Nat) :
    charAt c offset = plain (c.charAt offset) := by
  rw [charAt, Cursor.charAt]
  by_cases hEnd : c.stop ≤ offset
  · rw [if_pos hEnd, Encoding.decodeAt_of_le hEnd]
    rfl
  · rw [if_neg hEnd, slice_of_le (Nat.zero_le _) hStop, ok_bind, decodeAt_eq hStop _ (by omega)]
    cases c.encoding.decodeAt c.doc c.stop offset <;> rfl

end Guarded
end XmlIndex
