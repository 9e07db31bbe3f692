import Mathlib.Data.List.DropRight
import Mathlib.Data.List.Induction
import Mathlib.Data.Nat.ModEq
import XmlIndex.Proofs.Scan.Spans
import XmlIndex.Text.Position

/-! # Lines and columns of a text

A place is found by walking over bytes or code units, but the lines are those of the text: the walk over the
bytes of a character comes to one move over the character. All encodings agree on it but for the surrogate
pairs of UTF-16, each half of which counts as a column.
-/
namespace XmlIndex
set_option autoImplicit false
open Grammar

namespace Encoding

def columns (e : Encoding) (ch : CodePoint) : Nat :=
  if e.isUtf16 = true ∧ 0x10000 ≤ ch then 2 else 1

variable {e : Encoding} {ch : CodePoint} {text : Chars}

theorem columns_of_lt (hSmall : ch < 0x10000) : e.columns ch = 1 :=
  if_neg fun h => Nat.not_le.mpr hSmall h.2

theorem columns_of_single (hUtf16 : e.isUtf16 = false) : e.columns ch = 1 := by
  rw [columns, hUtf16]
  exact if_neg nofun

theorem columns_of_pair {order : ByteOrder} (hLarge : ¬ch < 0x10000) : (Encoding.utf16 order).columns ch = 2 :=
  if_pos ⟨rfl, Nat.not_lt.mp hLarge⟩

theorem columns_eq_one_iff : e.columns ch = 1 ↔ (e.isUtf16 = true → ch < 0x10000) := by
  unfold columns
  split
  · rename_i hPair
    exact iff_of_false (by decide) fun h => Nat.not_le.mpr (h hPair.1) hPair.2
  · rename_i hSingle
    exact iff_of_true rfl fun hUtf16 => Nat.not_le.mp fun hLarge => hSingle ⟨hUtf16, hLarge⟩

theorem one_le_columns : 1 ≤ e.columns ch := by
  unfold columns
  split <;> decide

theorem length_le_sum_columns : text.length ≤ (text.map e.columns).sum := by
  induction text with
  | nil => exact Nat.le_refl 0
  | cons ch text ih =>
    rw [List.length_cons, List.map_cons, List.sum_cons, Nat.add_comm]
    exact Nat.add_le_add one_le_columns ih

/-- Columns are characters unless one of them takes two. -/
theorem sum_columns_eq_length_iff :
    (text.map e.columns).sum = text.length ↔ (e.isUtf16 = true → ∀ ch ∈ text, ch < 0x10000) := by
  induction text with
  | nil => exact iff_of_true rfl fun _ => nofun
  | cons ch text ih =>
    have hColumns := @one_le_columns e ch
    have hRest := @length_le_sum_columns e text
    rw [List.map_cons, List.sum_cons, List.length_cons]
    calc e.columns ch + (text.map e.columns).sum = text.length + 1
      _ ↔ e.columns ch = 1 ∧ (text.map e.columns).sum = text.length := by omega
      _ ↔ (e.isUtf16 = true → ∀ d ∈ ch :: text, d < 0x10000) := by
        rw [columns_eq_one_iff, ih, ← imp_and]
        simp only [List.forall_mem_cons]

end Encoding

def Grammar.lastLine (text : Chars) : Chars :=
  text.rtakeWhile (· != 0x0A)

theorem Grammar.lastLine_concat (text : Chars) (ch : CodePoint) :
    lastLine (text ++ [ch]) = if ch = 0x0A then [] else lastLine text ++ [ch] := by
  rw [lastLine, List.rtakeWhile_concat, lastLine]
  by_cases hFeed : ch = 0x0A <;> simp [hFeed]

namespace Position

def past (e : Encoding) (p : Position) (ch : CodePoint) : Position :=
  if ch = 0x0A then p.nextLine else ⟨p.line, p.column + e.columns ch⟩

variable {e : Encoding} {doc : ByteArray} {stop i n : Nat} {text : Chars} {ch : CodePoint}

/-- The place after a text, as its lines and the columns of its last one. -/
theorem foldl_past (text : Chars) : text.foldl (past e) first =
    ⟨text.count 0x0A + 1, ((lastLine text).map e.columns).sum + 1⟩ := by
  induction text using List.reverseRecOn with
  | nil => rfl
  | append_singleton text ch ih =>
    rw [List.foldl_append, ih, List.foldl_cons, List.foldl_nil, List.count_append, lastLine_concat, past]
    by_cases hFeed : ch = 0x0A
    · simp [hFeed, nextLine]
    · simp [hFeed, Nat.add_right_comm]

/-- Every character moves on, to another line or by a column at least. -/
theorem foldl_past_later (text : Chars) (p : Position) : p.line < (text.foldl (past e) p).line ∨
    p.line = (text.foldl (past e) p).line ∧ p.column + text.length ≤ (text.foldl (past e) p).column := by
  induction text generalizing p with
  | nil => exact .inr ⟨rfl, Nat.le_refl _⟩
  | cons ch text ih =>
    have hRest := ih (past e p ch)
    rw [List.foldl_cons, List.length_cons]
    by_cases hFeed : ch = 0x0A
    · have hLine : (past e p ch).line = p.line + 1 := by
        rw [past, if_pos hFeed]
        rfl
      omega
    · have hColumns := @Encoding.one_le_columns e ch
      have hPlace : (past e p ch).line = p.line ∧ (past e p ch).column = p.column + e.columns ch := by
        rw [past, if_neg hFeed]
        exact ⟨rfl, rfl⟩
      omega

theorem foldl_past_ne {p : Position} (hNonempty : text ≠ []) : text.foldl (past e) p ≠ p := by
  intro hSame
  have hLength := List.length_pos_of_ne_nil hNonempty
  have hLater := @foldl_past_later e text p
  rw [hSame] at hLater
  omega

section
variable {counts : UInt8 → Bool} {p : Position} {byte : Nat} {bytes : List Nat}

def pastBytes (counts : UInt8 → Bool) (p : Position) (bytes : List Nat) : Position :=
  bytes.foldl (fun p byte => step counts (UInt8.ofNat byte) p) p

theorem afterBytes_append (hBytes : BytesAt doc stop i bytes) :
    afterBytes counts doc (bytes.length + n) i p =
      afterBytes counts doc n (i + bytes.length) (pastBytes counts p bytes) := by
  induction bytes generalizing i p with
  | nil => rw [List.length_nil, Nat.zero_add]; rfl
  | cons byte bytes ih =>
    obtain ⟨-, hByte⟩ := byteAt?_eq_some_iff.mp hBytes.1
    obtain ⟨byte', hFound, rfl⟩ := Option.map_eq_some_iff.mp hByte
    rw [List.length_cons, Nat.add_right_comm, afterBytes, hFound]
    refine (ih hBytes.2).trans ?_
    rw [pastBytes, pastBytes, List.foldl_cons, UInt8.ofNat_toNat, Nat.add_assoc, Nat.add_comm 1]

theorem afterBytes_add (m : Nat) : afterBytes counts doc (m + n) i p =
    afterBytes counts doc n (i + m) (afterBytes counts doc m i p) := by
  induction m generalizing i p with
  | zero => rw [Nat.zero_add, Nat.add_zero, afterBytes]
  | succ m ih =>
    rw [Nat.add_right_comm]
    cases hByte : doc[i]? with
    | some byte =>
      rw [afterBytes, afterBytes, hByte, Nat.add_comm m 1, ← Nat.add_assoc]
      exact ih
    | none =>
      -- Past the end of the buffer nothing is counted.
      have hEnd : doc[i + (m + 1)]? = none := by
        rw [getElem?_eq_none_iff] at hByte ⊢
        exact fun h => hByte (Nat.lt_of_le_of_lt (Nat.le_add_right _ _) h)
      have hStays : afterBytes counts doc n (i + (m + 1)) p = p := by
        cases n with
        | zero => rfl
        | succ n => rw [afterBytes, hEnd]
      rw [afterBytes, afterBytes, hByte]
      exact hStays.symm

/-- If the bytes of each character come to one move, those of a text come to its moves. -/
theorem afterBytes_of_spells (hStep : ∀ {ch first i p}, e.Encodes ch first → BytesAt doc stop i first →
      pastBytes counts p first = past e p ch)
    (hSpells : e.Spells text bytes) (hBytes : BytesAt doc stop i bytes) :
    afterBytes counts doc (e.size text) i p = text.foldl (past e) p := by
  induction text generalizing i p bytes with
  | nil => rfl
  | cons ch text ih =>
    obtain ⟨first, others, hFirst, hOthers, rfl⟩ := hSpells
    obtain ⟨hHead, hTail⟩ := BytesAt.append_iff.mp hBytes
    rw [Encoding.size_cons, ← hFirst.length_eq, afterBytes_append hHead, hStep hFirst hHead, List.foldl_cons]
    exact ih hOthers hTail

theorem step_ofNat (hByte : byte < 256) : step counts (UInt8.ofNat byte) p =
    if byte = 0x0A then p.nextLine else if counts (UInt8.ofNat byte) = true then p.nextColumn else p := by
  have hFeed : (UInt8.ofNat byte == 0x0A) = true ↔ byte = 0x0A := by
    rw [beq_iff_eq, ← UInt8.toNat_inj, UInt8.toNat_ofNat_of_lt' hByte]
    rfl
  rw [step]
  exact if_congr hFeed rfl rfl

end

theorem pastBytes_of_single {p : Position} {byte : Nat} (hByte : byte < 256) (hFeed : byte = 0x0A ↔ ch = 0x0A)
    (hColumns : e.columns ch = 1) : pastBytes (fun _ => true) p [byte] = past e p ch := by
  rw [pastBytes, List.foldl_cons, List.foldl_nil, step_ofNat hByte, past, hColumns]
  exact if_congr hFeed rfl rfl

theorem beginsCharacter_ofNat {byte : Nat} (hByte : byte < 256) :
    beginsCharacter (UInt8.ofNat byte) = true ↔ byte < 0x80 ∨ 0xC0 ≤ byte := by
  have hAll : ∀ byte : Fin 256, beginsCharacter (UInt8.ofNat byte) = true ↔ byte.val < 0x80 ∨ 0xC0 ≤ byte.val := by
    decide +kernel
  exact hAll ⟨byte, hByte⟩

theorem pastBytes_tail {p : Position} (c count : Nat) :
    pastBytes beginsCharacter p (Utf8.tail c count) = p := by
  induction count with
  | zero => rfl
  | succ count ih =>
    rw [Utf8.tail, pastBytes, List.foldl_cons, step_ofNat (by omega), if_neg (by omega),
      if_neg (mt (beginsCharacter_ofNat (by omega)).mp (by omega))]
    exact ih

theorem pastBytes_lead {p : Position} {lead c count : Nat} (hLead : lead < 256) (hHigh : 0xC0 ≤ lead)
    (hLarge : c ≠ 0x0A) : pastBytes beginsCharacter p (lead :: Utf8.tail c count) = past .utf8 p c := by
  rw [pastBytes, List.foldl_cons, step_ofNat hLead, if_neg (by omega),
    if_pos ((beginsCharacter_ofNat hLead).mpr (.inr hHigh)), past, if_neg hLarge]
  exact pastBytes_tail c count

theorem pastBytes_utf8 {p : Position} (hScalar : CodePoint.IsScalar ch) :
    pastBytes beginsCharacter p (Utf8.encode ch) = past .utf8 p ch := by
  rw [CodePoint.isScalar_iff] at hScalar
  unfold Utf8.encode
  split
  · rw [pastBytes, List.foldl_cons, List.foldl_nil, step_ofNat (by omega), past,
      if_pos ((beginsCharacter_ofNat (by omega)).mpr (.inl ‹_›))]
    rfl
  · split
    · exact pastBytes_lead (by omega) (by omega) (by omega)
    · split
      · exact pastBytes_lead (by omega) (by omega) (by omega)
      · exact pastBytes_lead (by omega) (by omega) (by omega)

section
variable {order : ByteOrder} {p : Position} {unit : Nat} {bytes : List Nat}

theorem isLineFeed_iff {first second : UInt8} (hUnit : order.bytes unit = [first.toNat, second.toNat]) :
    isLineFeed order first second = true ↔ unit = 0x0A := by
  cases order with
  | big =>
    obtain ⟨hFirst, hSecond⟩ : unit / 256 = first.toNat ∧ unit % 256 = second.toNat := by
      simpa [ByteOrder.bytes] using hUnit
    simp only [isLineFeed, Bool.and_eq_true, beq_iff_eq, ← UInt8.toNat_inj, ← hFirst, ← hSecond,
      show (0 : UInt8).toNat = 0 from rfl, show (0x0A : UInt8).toNat = 0x0A from rfl]
    omega
  | little =>
    obtain ⟨hFirst, hSecond⟩ : unit % 256 = first.toNat ∧ unit / 256 = second.toNat := by
      simpa [ByteOrder.bytes] using hUnit
    simp only [isLineFeed, Bool.and_eq_true, beq_iff_eq, ← UInt8.toNat_inj, ← hFirst, ← hSecond,
      show (0 : UInt8).toNat = 0 from rfl, show (0x0A : UInt8).toNat = 0x0A from rfl]
    omega

theorem afterUnits_succ (hBytes : BytesAt doc stop i (order.bytes unit)) : afterUnits order doc (n + 1) i p =
    afterUnits order doc n (i + 2) (if unit = 0x0A then p.nextLine else p.nextColumn) := by
  obtain ⟨a, b, hUnit⟩ : ∃ a b, order.bytes unit = [a, b] :=
    List.length_eq_two.mp (order.length_bytes unit)
  rw [hUnit] at hBytes
  obtain ⟨first, hFirst, rfl⟩ := Option.map_eq_some_iff.mp (byteAt?_eq_some_iff.mp hBytes.1).2
  obtain ⟨second, hSecond, rfl⟩ := Option.map_eq_some_iff.mp (byteAt?_eq_some_iff.mp hBytes.2.1).2
  rw [afterUnits, hFirst, hSecond]
  exact congrArg (afterUnits order doc n (i + 2)) (if_congr (isLineFeed_iff hUnit) rfl rfl)

theorem afterUnits_add (m : Nat) : afterUnits order doc (m + n) i p =
    afterUnits order doc n (i + 2 * m) (afterUnits order doc m i p) := by
  induction m generalizing i p with
  | zero => rw [Nat.zero_add, Nat.mul_zero, Nat.add_zero, afterUnits]
  | succ m ih =>
    rw [Nat.add_right_comm, Nat.mul_succ, Nat.add_comm (2 * m), ← Nat.add_assoc]
    cases hSecond : doc[i + 1]? with
    | some second =>
      have hInside : i < doc.size := by
        obtain ⟨h, -⟩ := getElem?_eq_some_iff.mp hSecond
        exact Nat.lt_of_succ_lt h
      rw [afterUnits, afterUnits, getElem?_pos doc i hInside, hSecond]
      exact ih
    | none =>
      have hStays (count j : Nat) (hLater : i ≤ j) : afterUnits order doc count j p = p := by
        have hEnd : doc[j + 1]? = none := by
          rw [getElem?_eq_none_iff] at hSecond ⊢
          exact fun h => hSecond (Nat.lt_of_le_of_lt (Nat.succ_le_succ hLater) h)
        cases count with
        | zero => rfl
        | succ count => rw [afterUnits, hEnd]; cases doc[j]? <;> rfl
      rw [hStays _ _ (Nat.le_refl i), hStays _ _ (Nat.le_refl i), hStays _ _ (by omega)]

/-- The two halves of a surrogate pair are two moves. -/
theorem afterUnits_past (hBytes : BytesAt doc stop i (Utf16.encode order ch)) :
    afterUnits order doc ((Utf16.encode order ch).length / 2 + n) i p =
      afterUnits order doc n (i + (Utf16.encode order ch).length) (past (.utf16 order) p ch) := by
  unfold Utf16.encode at hBytes ⊢
  split at hBytes
  · rw [if_pos ‹_›, order.length_bytes, Nat.add_comm, afterUnits_succ hBytes, past, Encoding.columns_of_lt ‹_›]
    rfl
  · rename_i hLarge
    obtain ⟨hHigh, hLow⟩ := BytesAt.append_iff.mp hBytes
    have hOther : ch ≠ 0x0A := by
      rintro rfl
      exact hLarge (by decide)
    rw [order.length_bytes] at hLow
    rw [if_neg hLarge, List.length_append, order.length_bytes, order.length_bytes, Nat.add_comm, afterUnits_succ hHigh,
      afterUnits_succ hLow, if_neg (by omega), if_neg (by omega), past, if_neg hOther, Encoding.columns_of_pair hLarge]
    rfl

theorem afterUnits_of_spells (hSpells : (Encoding.utf16 order).Spells text bytes) (hBytes : BytesAt doc stop i bytes) :
    afterUnits order doc ((Encoding.utf16 order).size text / 2) i p = text.foldl (past (.utf16 order)) p := by
  induction text generalizing i p bytes with
  | nil => rw [Encoding.size_nil, Nat.zero_div, afterUnits, List.foldl_nil]
  | cons ch text ih =>
    obtain ⟨first, others, hFirst, hOthers, rfl⟩ := hSpells
    obtain ⟨hHead, hTail⟩ := BytesAt.append_iff.mp hBytes
    have hEven : 2 ∣ (Encoding.utf16 order).width ch := (Encoding.utf16 order).unitSize_dvd_width ch
    rw [hFirst.2] at hHead hTail
    rw [Encoding.size_cons, Nat.add_div_of_dvd_right hEven, List.foldl_cons]
    exact (afterUnits_past hHead).trans (ih hOthers hTail)

end

/-- In an encoding of one byte for each character, only the line feed is stored as one. -/
theorem pastBytes_single {p : Position} {first : List Nat} (hUtf16 : e.isUtf16 = false) (hUtf8 : e ≠ .utf8)
    (hFirst : e.Encodes ch first) (hBytes : BytesAt doc stop i first) :
    pastBytes (fun _ => true) p first = past e p ch := by
  have hColumns : e.columns ch = 1 := Encoding.columns_of_single hUtf16
  have hOne {byte : Nat} (hByte : first = [byte]) (hFeed : byte = 0x0A → ch = 0x0A) :
      pastBytes (fun _ => true) p first = past e p ch := by
    subst hByte
    refine pastBytes_of_single (lt_of_byteAt?_eq_some hBytes.1) ⟨hFeed, ?_⟩ hColumns
    rintro rfl
    exact List.head_eq_of_cons_eq ((Encoding.encodes_ascii_iff hUtf16 (by decide)).mp hFirst)
  cases e with
  | utf8 => exact absurd rfl hUtf8
  | utf16 order => cases hUtf16
  | ascii => exact hOne hFirst.2 id
  | latin1 => exact hOne hFirst id
  | _ =>
    obtain ⟨byte, hMapped, hByte⟩ := (Encoding.encodes_of_page? rfl).mp hFirst
    refine hOne hByte ?_
    rintro rfl
    exact (Option.some.inj (((CodePage.lawful _).lower _ (by decide)).symm.trans hMapped)).symm

theorem ofOffset_self (start : Nat) : ofOffset e doc start start = first := by
  unfold ofOffset
  rw [Nat.sub_self]
  cases e <;> rfl

/-- From a place among whole code units the position moves on over what is read there. -/
theorem ofOffset_add_of_spells {start place : Nat} {bytes : List Nat} (hStart : start ≤ place)
    (hUnit : e.unitSize ∣ place - start) (hSpells : e.Spells text bytes) (hBytes : BytesAt doc stop place bytes) :
    ofOffset e doc start (place + e.size text) = text.foldl (past e) (ofOffset e doc start place) := by
  have hPlace : start + (place - start) = place := Nat.add_sub_of_le hStart
  have hSingle (hUtf16 : e.isUtf16 = false) (hUtf8 : e ≠ .utf8) (p : Position) :
      afterBytes (fun _ => true) doc (e.size text) place p = text.foldl (past e) p :=
    afterBytes_of_spells (pastBytes_single hUtf16 hUtf8) hSpells hBytes
  unfold ofOffset
  rw [Nat.sub_add_comm hStart]
  cases e with
  | utf8 =>
    rw [afterBytes_add, hPlace]
    exact afterBytes_of_spells (fun hFirst _ => by rw [hFirst.2]; exact pastBytes_utf8 hFirst.1) hSpells hBytes
  | utf16 order =>
    change 2 ∣ place - start at hUnit
    have hHalves : 2 * ((place - start) / 2) = place - start := Nat.mul_div_cancel' hUnit
    simp only [Nat.add_div_of_dvd_right hUnit, afterUnits_add, hHalves, hPlace]
    exact afterUnits_of_spells hSpells hBytes
  | _ =>
    refine (afterBytes_add (place - start)).trans ?_
    rw [hPlace]
    exact hSingle rfl nofun _

theorem eq_characters_iff {line : Nat} : (⟨line, 1 + (text.map e.columns).sum⟩ : Position) = ⟨line, 1 + text.length⟩ ↔
    (e.isUtf16 = true → ∀ ch ∈ text, ch < 0x10000) := by
  rw [← Encoding.sum_columns_eq_length_iff]
  simp

section
variable {c c' : Cursor} {start start' : Nat}

theorem ofOffset_add {place : Nat} (hStart : start ≤ place) (hUnit : c.encoding.unitSize ∣ place - start)
    (hReads : c.ReadsAt place text) : ofOffset c.encoding c.doc start (place + c.encoding.size text) =
      text.foldl (past c.encoding) (ofOffset c.encoding c.doc start place) := by
  obtain ⟨bytes, hSpells, hBytes⟩ := Cursor.readsAt_iff_bytesAt.mp hReads
  exact ofOffset_add_of_spells hStart hUnit hSpells hBytes

theorem ofOffset_of_readsAt (hReads : c.ReadsAt start text) :
    ofOffset c.encoding c.doc start (start + c.encoding.size text) =
      ⟨1 + text.count 0x0A, 1 + ((lastLine text).map c.encoding.columns).sum⟩ := by
  rw [ofOffset_add (Nat.le_refl start) (by rw [Nat.sub_self]; exact Nat.dvd_zero _) hReads, ofOffset_self, foldl_past,
    Nat.add_comm 1, Nat.add_comm 1]

/-- At a boundary of characters the line counts the line feeds before it and the column what stands after the last of
them: characters, except that in UTF-16 one of a supplementary plane counts twice. There, and only there, a place has
not the same position in UTF-8 and in UTF-16. -/
theorem ofOffset_of_boundary (hReads : c.ReadsAt start text) (hOther : c'.ReadsAt start' text) (k : Nat) :
    ofOffset c.encoding c.doc start (start + c.encoding.size (text.take k)) =
        ⟨1 + (text.take k).count 0x0A, 1 + ((lastLine (text.take k)).map c.encoding.columns).sum⟩ ∧
      (ofOffset c.encoding c.doc start (start + c.encoding.size (text.take k)) =
          ⟨1 + (text.take k).count 0x0A, 1 + (lastLine (text.take k)).length⟩ ↔
        (c.encoding.isUtf16 = true → ∀ ch ∈ lastLine (text.take k), ch < 0x10000)) ∧
      (c.encoding.isUtf16 = false → c'.encoding.isUtf16 = true →
        (ofOffset c.encoding c.doc start (start + c.encoding.size (text.take k)) =
            ofOffset c'.encoding c'.doc start' (start' + c'.encoding.size (text.take k)) ↔
          ∀ ch ∈ lastLine (text.take k), ch < 0x10000)) := by
  rw [← List.take_append_drop k text, Cursor.readsAt_append] at hReads hOther
  rw [ofOffset_of_readsAt hReads.1, ofOffset_of_readsAt hOther.1]
  refine ⟨rfl, eq_characters_iff, fun hSingle hUtf16 => ?_⟩
  rw [eq_characters_iff.mpr fun h => absurd (hSingle.symm.trans h) nofun, eq_comm, eq_characters_iff,
    forall_prop_of_true hUtf16]

end

/-- A line feed, a supplementary character and a letter, in both encodings. -/
theorem ofOffset_of_boundary_emoji :
    ofOffset .utf8 ⟨#[0x61, 0x0A, 0xF0, 0x9F, 0x98, 0x80, 0x62]⟩ 0 6 = ⟨2, 2⟩ ∧
      ofOffset .utf8 ⟨#[0x61, 0x0A, 0xF0, 0x9F, 0x98, 0x80, 0x62]⟩ 0 6 ≠ ofOffset (.utf16 .little)
        ⟨#[0x61, 0, 0x0A, 0, 0x3D, 0xD8, 0x00, 0xDE, 0x62, 0]⟩ 0 8 := by
  have hReads : (Cursor.atStart ⟨#[0x61, 0x0A, 0xF0, 0x9F, 0x98, 0x80, 0x62]⟩ 0 7 .utf8).ReadsAt 0
      [0x61, 0x0A, 0x1F600, 0x62] := ⟨rfl, rfl, rfl, rfl, trivial⟩
  have hOther : (Cursor.atStart ⟨#[0x61, 0, 0x0A, 0, 0x3D, 0xD8, 0x00, 0xDE, 0x62, 0]⟩ 0 10 (.utf16 .little)).ReadsAt 0
      [0x61, 0x0A, 0x1F600, 0x62] := ⟨rfl, rfl, rfl, rfl, trivial⟩
  obtain ⟨hPlace, -, hSame⟩ := ofOffset_of_boundary hReads hOther 3
  exact ⟨hPlace, mt (hSame rfl rfl).mp (by decide)⟩

end Position
end XmlIndex
