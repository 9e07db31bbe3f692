import Mathlib.Algebra.Ring.Nat
import XmlIndex.Proofs.Text.CodePages
import XmlIndex.Text.Decoding

/-! # Encoders

What a decoder reads is what the encoder of the same encoding writes: the bytes of a character are
determined by the character, and any place that holds them reads as that character.
-/
namespace XmlIndex
set_option autoImplicit false

theorem CodePoint.isScalar_iff {c : Nat} :
    CodePoint.IsScalar c ↔ c < 0xD800 ∨ 0xDFFF < c ∧ c ≤ 0x10FFFF :=
  Iff.rfl

theorem CodePoint.within_iff {least greatest c : Nat} :
    CodePoint.within least greatest c = true ↔ least ≤ c ∧ c ≤ greatest :=
  CodePoint.within_eq_true_iff

theorem CodePoint.isValid_iff {c : Nat} : CodePoint.isValid c = true ↔
    0x20 ≤ c ∧ c ≤ 0xD7FF ∨ c = 0x0A ∨ c = 0x09 ∨ c = 0x0D ∨ 0xE000 ≤ c ∧ c ≤ 0xFFFD ∨
      0x10000 ≤ c ∧ c ≤ 0x10FFFF := by
  simp only [CodePoint.isValid, Bool.or_eq_true, CodePoint.within_iff, beq_iff_eq, or_assoc]

/-- The bytes from `i` on begin with the given ones, all before `stop`. -/
def BytesAt (doc : ByteArray) (stop : Nat) : (i : Nat) → List Nat → Prop
  | _, [] => True
  | i, byte :: rest => byteAt? doc stop i = some byte ∧ BytesAt doc stop (i + 1) rest

namespace BytesAt
variable {doc : ByteArray} {stop i : Nat} {bytes rest : List Nat}

theorem append_iff : BytesAt doc stop i (bytes ++ rest) ↔
    BytesAt doc stop i bytes ∧ BytesAt doc stop (i + bytes.length) rest := by
  induction bytes generalizing i with
  | nil => simp [BytesAt]
  | cons byte bytes ih =>
    simp only [List.cons_append, BytesAt, ih, List.length_cons, and_assoc]
    rw [Nat.add_right_comm, Nat.add_assoc]

theorem byteAt?_eq (hBytes : BytesAt doc stop i bytes) {k : Nat} (hk : k < bytes.length) :
    byteAt? doc stop (i + k) = some bytes[k] := by
  induction bytes generalizing i k with
  | nil => cases hk
  | cons byte bytes ih =>
    cases k with
    | zero => exact hBytes.1
    | succ k =>
      have h := ih hBytes.2 (Nat.lt_of_succ_lt_succ hk)
      rwa [Nat.add_right_comm, Nat.add_assoc] at h

theorem le_stop (hBytes : BytesAt doc stop i bytes) (hNonempty : bytes ≠ []) :
    i + bytes.length ≤ stop := by
  have hLength := List.length_pos_iff.mpr hNonempty
  have h := lt_stop_of_byteAt?_eq_some (hBytes.byteAt?_eq (k := bytes.length - 1) (by omega))
  omega

/-- Of two lists of bytes of one length at one place, neither differs from the other. -/
theorem unique {other : List Nat} (hBytes : BytesAt doc stop i bytes)
    (hOther : BytesAt doc stop i other) (hLength : bytes.length = other.length) :
    bytes = other := by
  induction bytes generalizing i other with
  | nil => exact (List.length_eq_zero_iff.mp hLength.symm).symm
  | cons byte bytes ih =>
    cases other with
    | nil => cases hLength
    | cons byte' other =>
      have hHead : byte = byte' := Option.some.inj (hBytes.1.symm.trans hOther.1)
      rw [hHead, ih hBytes.2 hOther.2 (Nat.succ.inj hLength)]

end BytesAt

namespace Utf8

def tail (c : Nat) : (count : Nat) → List Nat
  | 0 => []
  | count + 1 => (0x80 + c / 64 ^ count % 64) :: tail c count

def encode (c : Nat) : List Nat :=
  if c < 0x80 then [c]
  else if c < 0x800 then (0xC0 + c / 64 ^ 1) :: tail c 1
  else if c < 0x10000 then (0xE0 + c / 64 ^ 2) :: tail c 2
  else (0xF0 + c / 64 ^ 3) :: tail c 3

theorem length_tail (c count : Nat) : (tail c count).length = count := by
  induction count with
  | zero => rfl
  | succ count ih => simp [tail, ih]

theorem encode_ne_nil (c : Nat) : encode c ≠ [] := by
  unfold encode
  repeat' split
  all_goals exact List.cons_ne_nil _ _

theorem continuation_eq_ok_iff {doc : ByteArray} {stop count i value c : Nat} :
    continuation doc stop count i value = .ok c ↔
      BytesAt doc stop i (tail c count) ∧ c / 64 ^ count = value := by
  induction count generalizing i value with
  | zero => simp [continuation, tail, BytesAt, eq_comm]
  | succ count ih =>
    have hDiv : c / 64 ^ (count + 1) = c / 64 ^ count / 64 := by
      rw [Nat.div_div_eq_div_mul, Nat.pow_succ]
    rw [continuation, tail, BytesAt, hDiv]
    cases hByte : byteAt? doc stop i with
    | none => simp
    | some byte =>
      simp only [Option.some.injEq]
      split
      · rename_i hRange
        rw [ih]
        constructor
        · rintro ⟨hTail, hValue⟩
          exact ⟨⟨by omega, hTail⟩, by omega⟩
        · rintro ⟨⟨hHead, hTail⟩, hValue⟩
          exact ⟨hTail, by omega⟩
      · rename_i hRange
        simp only [reduceCtorEq, false_iff]
        omega

theorem sequence_eq_ok_iff {doc : ByteArray} {stop i count least lead c w : Nat} :
    sequence doc stop i (count + 1) least lead = .ok (c, w) ↔
      w = count + 1 ∧ i + count < stop ∧ BytesAt doc stop (i + 1) (tail c count) ∧
        c / 64 ^ count = lead ∧ least ≤ c ∧ CodePoint.IsScalar c := by
  unfold sequence
  split
  · simp only [reduceCtorEq, false_iff]
    omega
  · rename_i hStop
    rw [Nat.add_sub_cancel]
    cases hRead : continuation doc stop count (i + 1) lead with
    | error fault =>
      simp only [reduceCtorEq, false_iff]
      rintro ⟨-, -, hTail, hLead, -⟩
      rw [continuation_eq_ok_iff.mpr ⟨hTail, hLead⟩] at hRead
      cases hRead
    | ok c' =>
      have hBytes := continuation_eq_ok_iff.mp hRead
      simp only
      constructor
      · intro h
        split at h
        · cases h
          exact ⟨rfl, by omega, hBytes.1, hBytes.2, ‹_›⟩
        · cases h
      · rintro ⟨rfl, -, hTail, hLead, hLeast⟩
        rw [continuation_eq_ok_iff.mpr ⟨hTail, hLead⟩] at hRead
        cases hRead
        rw [if_pos hLeast]

/-- A sequence that has been read is the encoding of its character, if that begins with the byte before it. -/
theorem encodes_of_sequence {doc : ByteArray} {stop i count least lead byte c w : Nat}
    (hByte : byteAt? doc stop i = some byte) (hRead : sequence doc stop i (count + 1) least lead = .ok (c, w))
    (hEncode : c / 64 ^ count = lead → least ≤ c → encode c = byte :: tail c count) :
    CodePoint.IsScalar c ∧ w = (encode c).length ∧ BytesAt doc stop i (encode c) := by
  obtain ⟨rfl, -, hTail, hLead, hLeast, hScalar⟩ := sequence_eq_ok_iff.mp hRead
  rw [hEncode hLead hLeast, List.length_cons, length_tail]
  exact ⟨hScalar, rfl, hByte, hTail⟩

theorem sequence_of_bytesAt {doc : ByteArray} {stop i count least lead byte c : Nat}
    (hBytes : BytesAt doc stop i (byte :: tail c count)) (hLead : c / 64 ^ count = lead) (hLeast : least ≤ c)
    (hScalar : CodePoint.IsScalar c) :
    sequence doc stop i (count + 1) least lead = .ok (c, (byte :: tail c count).length) := by
  have hStop := hBytes.le_stop (List.cons_ne_nil _ _)
  rw [List.length_cons, length_tail] at hStop ⊢
  exact sequence_eq_ok_iff.mpr ⟨rfl, by omega, hBytes.2, hLead, hLeast, hScalar⟩

theorem decodeAt_eq_ok_iff {doc : ByteArray} {stop i c w : Nat} :
    decodeAt doc stop i = .ok (c, w) ↔
      CodePoint.IsScalar c ∧ w = (encode c).length ∧ BytesAt doc stop i (encode c) := by
  constructor
  · intro hRead
    unfold decodeAt at hRead
    cases hByte : byteAt? doc stop i with
    | none => simp [hByte] at hRead
    | some byte =>
      simp only [hByte] at hRead
      split at hRead
      · cases hRead
        have hEncode : encode c = [c] := if_pos ‹_›
        rw [hEncode, CodePoint.isScalar_iff]
        exact ⟨by omega, rfl, hByte, trivial⟩
      · split at hRead
        · cases hRead
        · split at hRead
          · refine encodes_of_sequence hByte hRead fun hLead hLeast => ?_
            rw [encode, if_neg (by omega), if_pos (by omega), hLead, Nat.add_sub_cancel' (by omega)]
          · split at hRead
            · refine encodes_of_sequence hByte hRead fun hLead hLeast => ?_
              rw [encode, if_neg (by omega), if_neg (by omega), if_pos (by omega), hLead,
                Nat.add_sub_cancel' (by omega)]
            · split at hRead
              · refine encodes_of_sequence hByte hRead fun hLead hLeast => ?_
                rw [encode, if_neg (by omega), if_neg (by omega), if_neg (by omega), hLead,
                  Nat.add_sub_cancel' (by omega)]
              · cases hRead
  · rintro ⟨hScalar, rfl, hBytes⟩
    have hMax : c < 0x110000 := by
      rw [CodePoint.isScalar_iff] at hScalar
      omega
    unfold encode at hBytes ⊢
    unfold decodeAt
    split at hBytes
    · rw [if_pos ‹_›]
      simp [hBytes.1, ‹c < 0x80›]
    · split at hBytes
      · rw [if_neg ‹¬c < 0x80›, if_pos ‹c < 0x800›, hBytes.1]
        dsimp only
        rw [if_neg (by omega), if_neg (by omega), if_pos (by omega)]
        exact sequence_of_bytesAt hBytes (by omega) (by omega) hScalar
      · split at hBytes
        · rw [if_neg ‹¬c < 0x80›, if_neg ‹¬c < 0x800›, if_pos ‹c < 0x10000›, hBytes.1]
          dsimp only
          rw [if_neg (by omega), if_neg (by omega), if_neg (by omega), if_pos (by omega)]
          exact sequence_of_bytesAt hBytes (by omega) (by omega) hScalar
        · rw [if_neg ‹¬c < 0x80›, if_neg ‹¬c < 0x800›, if_neg ‹¬c < 0x10000›, hBytes.1]
          dsimp only
          rw [if_neg (by omega), if_neg (by omega), if_neg (by omega), if_neg (by omega), if_pos (by omega)]
          exact sequence_of_bytesAt hBytes (by omega) (by omega) hScalar

end Utf8

theorem lt_of_byteAt?_eq_some {doc : ByteArray} {stop i byte : Nat}
    (hByte : byteAt? doc stop i = some byte) : byte < 256 := by
  unfold byteAt? at hByte
  split at hByte
  · split at hByte <;> cases hByte
    exact UInt8.toNat_lt _
  · cases hByte

def ByteOrder.bytes : ByteOrder → (unit : Nat) → List Nat
  | .big, unit => [unit / 256, unit % 256]
  | .little, unit => [unit % 256, unit / 256]

theorem ByteOrder.length_bytes (order : ByteOrder) (unit : Nat) : (order.bytes unit).length = 2 := by
  cases order <;> rfl

namespace Utf16

def encode (order : ByteOrder) (c : Nat) : List Nat :=
  if c < 0x10000 then order.bytes c
  else order.bytes (0xD800 + (c - 0x10000) / 0x400) ++ order.bytes (0xDC00 + (c - 0x10000) % 0x400)

theorem unitAt?_eq_some_iff {order : ByteOrder} {doc : ByteArray} {stop i unit : Nat} :
    unitAt? order doc stop i = some unit ↔
      unit < 0x10000 ∧ BytesAt doc stop i (order.bytes unit) := by
  unfold unitAt?
  cases hFirst : byteAt? doc stop i with
  | none => cases order <;> simp [ByteOrder.bytes, BytesAt, hFirst]
  | some first =>
    cases hSecond : byteAt? doc stop (i + 1) with
    | none => cases order <;> simp [ByteOrder.bytes, BytesAt, hSecond]
    | some second =>
      have hFirst' := lt_of_byteAt?_eq_some hFirst
      have hSecond' := lt_of_byteAt?_eq_some hSecond
      cases order <;>
        simp only [ByteOrder.bytes, BytesAt, hFirst, hSecond, Option.some.injEq, and_true] <;> omega

theorem ofPair_split {c : Nat} (hLarge : 0x10000 ≤ c) :
    ofPair (0xD800 + (c - 0x10000) / 0x400) (0xDC00 + (c - 0x10000) % 0x400) = c := by
  unfold ofPair
  omega

theorem decodeAt_eq_ok_iff {order : ByteOrder} {doc : ByteArray} {stop i c w : Nat} :
    decodeAt order doc stop i = .ok (c, w) ↔
      CodePoint.IsScalar c ∧ w = (encode order c).length ∧ BytesAt doc stop i (encode order c) := by
  rw [CodePoint.isScalar_iff]
  constructor
  · intro hRead
    unfold decodeAt at hRead
    cases hUnit : unitAt? order doc stop i with
    | none => simp [hUnit] at hRead
    | some unit =>
      have hBytes := unitAt?_eq_some_iff.mp hUnit
      simp only [hUnit] at hRead
      split at hRead
      · cases hRead
        have hEncode : encode order c = order.bytes c := if_pos hBytes.1
        rw [hEncode, order.length_bytes]
        exact ⟨by omega, rfl, hBytes.2⟩
      · split at hRead
        · cases hRead
        · cases hLow : unitAt? order doc stop (i + 2) with
          | none => simp [hLow] at hRead
          | some low =>
            have hLowBytes := unitAt?_eq_some_iff.mp hLow
            simp only [hLow] at hRead
            split at hRead
            · have hPair := Prod.mk.inj (Except.ok.inj hRead)
              have hValue : ofPair unit low = c := hPair.1
              unfold ofPair at hValue
              have hEncode : encode order c = order.bytes unit ++ order.bytes low := by
                rw [encode, if_neg (by omega), show 0xD800 + (c - 0x10000) / 0x400 = unit by omega,
                  show 0xDC00 + (c - 0x10000) % 0x400 = low by omega]
              rw [hEncode, BytesAt.append_iff, List.length_append, order.length_bytes,
                order.length_bytes]
              exact ⟨by omega, hPair.2.symm, hBytes.2, hLowBytes.2⟩
            · cases hRead
  · rintro ⟨hScalar, rfl, hBytes⟩
    unfold encode at hBytes ⊢
    unfold decodeAt
    split at hBytes
    · rw [if_pos ‹_›, unitAt?_eq_some_iff.mpr ⟨‹_›, hBytes⟩, order.length_bytes]
      simp only
      rw [if_pos (by omega)]
    · rw [BytesAt.append_iff, order.length_bytes] at hBytes
      rw [if_neg ‹_›, unitAt?_eq_some_iff.mpr ⟨by omega, hBytes.1⟩, List.length_append,
        order.length_bytes, order.length_bytes]
      simp only
      rw [if_neg (by omega), if_neg (by omega), unitAt?_eq_some_iff.mpr ⟨by omega, hBytes.2⟩]
      simp only
      rw [if_pos (by omega), ofPair_split (by omega)]

end Utf16

theorem Ascii.decodeAt_eq_ok_iff {doc : ByteArray} {stop i c w : Nat} :
    Ascii.decodeAt doc stop i = .ok (c, w) ↔ c < 0x80 ∧ w = 1 ∧ byteAt? doc stop i = some c := by
  unfold Ascii.decodeAt
  cases byteAt? doc stop i with
  | none => simp
  | some byte =>
    simp only [Option.some.injEq]
    constructor
    · intro hRead
      split at hRead <;> cases hRead
      exact ⟨‹_›, rfl, rfl⟩
    · rintro ⟨hSmall, rfl, rfl⟩
      exact if_pos hSmall

theorem Latin1.decodeAt_eq_ok_iff {doc : ByteArray} {stop i c w : Nat} :
    Latin1.decodeAt doc stop i = .ok (c, w) ↔ w = 1 ∧ byteAt? doc stop i = some c := by
  unfold Latin1.decodeAt
  cases byteAt? doc stop i with
  | none => simp
  | some byte =>
    simp only [Option.some.injEq, Except.ok.injEq, Prod.mk.injEq]
    exact ⟨fun h => ⟨h.2.symm, h.1⟩, fun h => ⟨h.2, h.1.symm⟩⟩

namespace CodePage

theorem decodeAt_eq_ok_iff {page : CodePage} {doc : ByteArray} {stop i c w : Nat} :
    CodePage.decodeAt page doc stop i = .ok (c, w) ↔
      w = 1 ∧ ∃ byte, page.codePoint? byte = some c ∧ byteAt? doc stop i = some byte := by
  unfold CodePage.decodeAt
  cases byteAt? doc stop i with
  | none => simp
  | some byte =>
    simp only [Option.some.injEq]
    cases hMapped : page.codePoint? byte with
    | none =>
      simp only [reduceCtorEq, false_iff]
      rintro ⟨-, _, h, rfl⟩
      rw [hMapped] at h
      cases h
    | some c' =>
      simp only [Except.ok.injEq, Prod.mk.injEq]
      constructor
      · rintro ⟨rfl, rfl⟩
        exact ⟨rfl, byte, hMapped, rfl⟩
      · rintro ⟨rfl, _, h, rfl⟩
        exact ⟨Option.some.inj (hMapped.symm.trans h), rfl⟩

end CodePage

namespace Encoding

def page? : Encoding → Option CodePage
  | .iso8859_2 => some .iso8859_2
  | .iso8859_3 => some .iso8859_3
  | .iso8859_4 => some .iso8859_4
  | .iso8859_5 => some .iso8859_5
  | .iso8859_6 => some .iso8859_6
  | .iso8859_7 => some .iso8859_7
  | .iso8859_8 => some .iso8859_8
  | .iso8859_9 => some .windows1254
  | .iso8859_10 => some .iso8859_10
  | .iso8859_11 => some .windows874
  | .iso8859_13 => some .iso8859_13
  | .iso8859_14 => some .iso8859_14
  | .iso8859_15 => some .iso8859_15
  | .iso8859_16 => some .iso8859_16
  | .windows1250 => some .windows1250
  | .windows1251 => some .windows1251
  | .windows1252 => some .windows1252
  | .windows1253 => some .windows1253
  | .windows1254 => some .windows1254
  | .windows1255 => some .windows1255
  | .windows1256 => some .windows1256
  | .windows1257 => some .windows1257
  | .windows1258 => some .windows1258
  | .ascii | .latin1 | .utf8 | .utf16 _ => none

/-- The bytes of a character. A character that the encoding lacks has none. -/
def Encodes (e : Encoding) (c : Nat) (bytes : List Nat) : Prop :=
  match e with
  | .utf8 => CodePoint.IsScalar c ∧ bytes = Utf8.encode c
  | .utf16 order => CodePoint.IsScalar c ∧ bytes = Utf16.encode order c
  | .ascii => c < 0x80 ∧ bytes = [c]
  | .latin1 => bytes = [c]
  | e => ∃ byte, (e.page?.bind fun page => page.codePoint? byte) = some c ∧ bytes = [byte]

def width (e : Encoding) (c : Nat) : Nat :=
  match e with
  | .utf8 => (Utf8.encode c).length
  | .utf16 order => (Utf16.encode order c).length
  | _ => 1

theorem decodeAt_of_page? {e : Encoding} {page : CodePage} (hPage : e.page? = some page) :
    e.decodeAt = CodePage.decodeAt page := by
  cases e <;> cases hPage <;> rfl

theorem encodes_of_page? {e : Encoding} {page : CodePage} {c : Nat} {bytes : List Nat}
    (hPage : e.page? = some page) :
    e.Encodes c bytes ↔ ∃ byte, page.codePoint? byte = some c ∧ bytes = [byte] := by
  cases e <;> cases hPage <;> exact Iff.rfl

theorem decodeAt_eq_ok_iff_of_page? {e : Encoding} {page : CodePage} {doc : ByteArray}
    {stop i c w : Nat} (hPage : e.page? = some page) :
    e.decodeAt doc stop i = .ok (c, w) ↔
      ∃ bytes, e.Encodes c bytes ∧ w = bytes.length ∧ BytesAt doc stop i bytes := by
  rw [decodeAt_of_page? hPage, CodePage.decodeAt_eq_ok_iff]
  simp only [encodes_of_page? hPage]
  constructor
  · rintro ⟨rfl, byte, hMapped, hByte⟩
    exact ⟨[byte], ⟨byte, hMapped, rfl⟩, rfl, hByte, trivial⟩
  · rintro ⟨_, ⟨byte, hMapped, rfl⟩, rfl, hByte, -⟩
    exact ⟨rfl, byte, hMapped, hByte⟩

/-- Decoding undoes encoding, and nothing else decodes. -/
theorem decodeAt_eq_ok_iff {e : Encoding} {doc : ByteArray} {stop i c w : Nat} :
    e.decodeAt doc stop i = .ok (c, w) ↔
      ∃ bytes, e.Encodes c bytes ∧ w = bytes.length ∧ BytesAt doc stop i bytes := by
  cases e with
  | utf8 =>
    rw [show Encoding.utf8.decodeAt = Utf8.decodeAt from rfl, Utf8.decodeAt_eq_ok_iff]
    exact ⟨fun h => ⟨_, ⟨h.1, rfl⟩, h.2⟩, by rintro ⟨_, ⟨hScalar, rfl⟩, h⟩; exact ⟨hScalar, h⟩⟩
  | utf16 order =>
    rw [show (Encoding.utf16 order).decodeAt = Utf16.decodeAt order from rfl,
      Utf16.decodeAt_eq_ok_iff]
    exact ⟨fun h => ⟨_, ⟨h.1, rfl⟩, h.2⟩, by rintro ⟨_, ⟨hScalar, rfl⟩, h⟩; exact ⟨hScalar, h⟩⟩
  | ascii =>
    rw [show Encoding.ascii.decodeAt = Ascii.decodeAt from rfl, Ascii.decodeAt_eq_ok_iff]
    constructor
    · rintro ⟨hSmall, rfl, hByte⟩
      exact ⟨[c], ⟨hSmall, rfl⟩, rfl, hByte, trivial⟩
    · rintro ⟨_, ⟨hSmall, rfl⟩, rfl, hByte, -⟩
      exact ⟨hSmall, rfl, hByte⟩
  | latin1 =>
    rw [show Encoding.latin1.decodeAt = Latin1.decodeAt from rfl, Latin1.decodeAt_eq_ok_iff]
    constructor
    · rintro ⟨rfl, hByte⟩
      exact ⟨[c], rfl, rfl, hByte, trivial⟩
    · rintro ⟨_, rfl, rfl, hByte, -⟩
      exact ⟨rfl, hByte⟩
  | _ => exact decodeAt_eq_ok_iff_of_page? rfl

theorem Encodes.unique {e : Encoding} {c : Nat} {bytes bytes' : List Nat}
    (hBytes : e.Encodes c bytes) (hBytes' : e.Encodes c bytes') : bytes = bytes' := by
  cases e with
  | utf8 => exact hBytes.2.trans hBytes'.2.symm
  | utf16 order => exact hBytes.2.trans hBytes'.2.symm
  | ascii => exact hBytes.2.trans hBytes'.2.symm
  | latin1 => exact Eq.trans hBytes (Eq.symm hBytes')
  | _ =>
    obtain ⟨byte, hMapped, rfl⟩ := (encodes_of_page? rfl).mp hBytes
    obtain ⟨byte', hMapped', rfl⟩ := (encodes_of_page? rfl).mp hBytes'
    rw [(CodePage.lawful _).injective _ _ _ hMapped hMapped']

theorem Encodes.length_eq {e : Encoding} {c : Nat} {bytes : List Nat} (hBytes : e.Encodes c bytes) :
    bytes.length = e.width c := by
  cases e with
  | utf8 => rw [hBytes.2]; rfl
  | utf16 order => rw [hBytes.2]; rfl
  | ascii => rw [hBytes.2]; rfl
  | latin1 => rw [show bytes = [c] from hBytes]; rfl
  | _ =>
    obtain ⟨byte, -, rfl⟩ := hBytes
    rfl

theorem eq_width_of_decodeAt {e : Encoding} {doc : ByteArray} {stop i c w : Nat}
    (hRead : e.decodeAt doc stop i = .ok (c, w)) : w = e.width c := by
  obtain ⟨bytes, hBytes, rfl, -⟩ := decodeAt_eq_ok_iff.mp hRead
  exact hBytes.length_eq

theorem length_encode_of_lt {c : Nat} (hAscii : c < 0x80) (order : ByteOrder) :
    (Utf16.encode order c).length = 2 := by
  rw [Utf16.encode, if_pos (by omega), order.length_bytes]

/-- A character of ASCII takes one code unit. -/
theorem width_of_lt (e : Encoding) {c : Nat} (hAscii : c < 0x80) : e.width c = e.unitSize := by
  cases e with
  | utf8 => exact congrArg List.length (if_pos hAscii)
  | utf16 order => exact length_encode_of_lt hAscii order
  | _ => rfl

theorem unitSize_eq_two_pow (e : Encoding) : e.unitSize = 2 ^ e.unitShift := by
  unfold unitSize unitShift
  split <;> rfl

theorem unitSize_dvd_width (e : Encoding) (c : Nat) : e.unitSize ∣ e.width c := by
  cases e with
  | utf16 order =>
    change 2 ∣ (Utf16.encode order c).length
    unfold Utf16.encode
    split
    · exact ⟨1, order.length_bytes c⟩
    · rw [List.length_append, order.length_bytes, order.length_bytes]
      exact ⟨2, rfl⟩
  | _ => exact Nat.one_dvd _

/-- All encodings by bytes agree on ASCII. -/
theorem encodes_ascii_iff {e : Encoding} {c : Nat} {bytes : List Nat} (hUtf16 : e.isUtf16 = false)
    (hAscii : c < 0x80) : e.Encodes c bytes ↔ bytes = [c] := by
  cases e with
  | utf8 =>
    rw [← show Utf8.encode c = [c] from if_pos hAscii]
    exact and_iff_right (.inl (Nat.lt_trans hAscii (by decide)))
  | utf16 order => cases hUtf16
  | ascii => exact and_iff_right hAscii
  | latin1 => exact Iff.rfl
  | _ =>
    rw [encodes_of_page? rfl]
    constructor
    · rintro ⟨byte, hMapped, rfl⟩
      rw [(CodePage.lawful _).eq_of_lt hMapped hAscii]
    · rintro rfl
      exact ⟨c, (CodePage.lawful _).lower c hAscii, rfl⟩

end Encoding

end XmlIndex
