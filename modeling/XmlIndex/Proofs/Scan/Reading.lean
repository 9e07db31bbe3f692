import XmlIndex.Proofs.Text.Encoders
import XmlIndex.Scan.Progress

/-! # Reading characters

A cursor reads a text if the text decodes from its offset, character by character. Every action
that succeeds is characterised by the text it has read: `advance` is the cursor after that text.
-/
namespace XmlIndex
set_option autoImplicit false

namespace Encoding

def size (e : Encoding) (text : List CodePoint) : Nat :=
  (text.map e.width).sum

variable {e : Encoding} {text rest : List CodePoint}

@[simp] theorem size_nil : e.size [] = 0 :=
  rfl

@[simp] theorem size_cons (ch : CodePoint) : e.size (ch :: rest) = e.width ch + e.size rest := by
  simp [size]

@[simp] theorem size_append : e.size (text ++ rest) = e.size text + e.size rest := by
  simp [size]

theorem unitSize_dvd_size : e.unitSize ∣ e.size text := by
  induction text with
  | nil => exact Nat.dvd_zero _
  | cons ch rest ih =>
    rw [size_cons]
    exact Nat.dvd_add (e.unitSize_dvd_width ch) ih

/-- Every character of ASCII takes one code unit. -/
theorem size_of_ascii (hAscii : ∀ ch ∈ text, ch < 0x80) : e.size text = text.length * e.unitSize := by
  induction text with
  | nil => simp
  | cons ch rest ih =>
    rw [size_cons, e.width_of_lt (hAscii ch List.mem_cons_self),
      ih fun ch hch => hAscii ch (List.mem_cons_of_mem _ hch), List.length_cons, Nat.succ_mul,
      Nat.add_comm]

theorem width_pos (ch : CodePoint) : 0 < e.width ch := by
  cases e with
  | utf8 => exact List.length_pos_iff.mpr (Utf8.encode_ne_nil ch)
  | utf16 order =>
    change 0 < (Utf16.encode order ch).length
    unfold Utf16.encode
    split <;> simp [ByteOrder.length_bytes]
  | _ => exact Nat.one_pos

def Spells (e : Encoding) : List CodePoint → List Nat → Prop
  | [], bytes => bytes = []
  | ch :: rest, bytes => ∃ first others, e.Encodes ch first ∧ Spells e rest others ∧
      bytes = first ++ others

theorem Spells.unique {bytes bytes' : List Nat} (hBytes : e.Spells text bytes)
    (hBytes' : e.Spells text bytes') : bytes = bytes' := by
  induction text generalizing bytes bytes' with
  | nil => exact Eq.trans hBytes (Eq.symm hBytes')
  | cons ch rest ih =>
    obtain ⟨first, others, hFirst, hOthers, rfl⟩ := hBytes
    obtain ⟨first', others', hFirst', hOthers', rfl⟩ := hBytes'
    rw [hFirst.unique hFirst', ih hOthers hOthers']

theorem Spells.length_eq {bytes : List Nat} (hBytes : e.Spells text bytes) :
    bytes.length = e.size text := by
  induction text generalizing bytes with
  | nil => rw [show bytes = [] from hBytes]; rfl
  | cons ch rest ih =>
    obtain ⟨first, others, hFirst, hOthers, rfl⟩ := hBytes
    rw [List.length_append, hFirst.length_eq, ih hOthers, size_cons]

end Encoding

namespace Cursor

/-- The characters from `offset` on begin with the given text. -/
def ReadsAt (c : Cursor) : (offset : Nat) → List CodePoint → Prop
  | _, [] => True
  | offset, ch :: rest => c.charAt offset = .ok (ch, c.encoding.width ch) ∧
      ReadsAt c (offset + c.encoding.width ch) rest

def Reads (c : Cursor) (text : List CodePoint) : Prop :=
  c.ReadsAt c.offset text

def advance (c : Cursor) : List CodePoint → Cursor
  | [] => c
  | ch :: rest => advance { c with offset := c.offset + c.encoding.width ch, last := c.offset } rest

variable {c c' : Cursor} {text rest : List CodePoint} {offset : Nat}

theorem charAt_eq_ok_iff {ch w : Nat} :
    c.charAt offset = .ok (ch, w) ↔ c.encoding.decodeAt c.doc c.stop offset = .ok (ch, w) := by
  unfold charAt
  split <;> simp_all

theorem eq_width_of_charAt {ch w : Nat} (hRead : c.charAt offset = .ok (ch, w)) :
    w = c.encoding.width ch :=
  Encoding.eq_width_of_decodeAt (charAt_eq_ok_iff.mp hRead)

/-- What is read depends on the range and the encoding alone. -/
theorem readsAt_congr (hDoc : c'.doc = c.doc) (hStop : c'.stop = c.stop)
    (hEncoding : c'.encoding = c.encoding) : c'.ReadsAt offset text ↔ c.ReadsAt offset text := by
  induction text generalizing offset with
  | nil => exact Iff.rfl
  | cons ch rest ih => simp only [ReadsAt, charAt, hDoc, hStop, hEncoding, ih]

theorem readsAt_append : c.ReadsAt offset (text ++ rest) ↔
    c.ReadsAt offset text ∧ c.ReadsAt (offset + c.encoding.size text) rest := by
  induction text generalizing offset with
  | nil => simp [ReadsAt]
  | cons ch text ih =>
    simp only [List.cons_append, ReadsAt, ih, Encoding.size_cons, and_assoc, Nat.add_assoc]

theorem readsAt_iff_bytesAt : c.ReadsAt offset text ↔
    ∃ bytes, c.encoding.Spells text bytes ∧ BytesAt c.doc c.stop offset bytes := by
  induction text generalizing offset with
  | nil =>
    exact ⟨fun _ => ⟨[], rfl, trivial⟩, fun _ => trivial⟩
  | cons ch rest ih =>
    rw [ReadsAt, ih, charAt_eq_ok_iff, Encoding.decodeAt_eq_ok_iff]
    constructor
    · rintro ⟨⟨first, hFirst, -, hBytes⟩, others, hOthers, hRest⟩
      refine ⟨first ++ others, ⟨first, others, hFirst, hOthers, rfl⟩, BytesAt.append_iff.mpr ?_⟩
      rw [hFirst.length_eq]
      exact ⟨hBytes, hRest⟩
    · rintro ⟨_, ⟨first, others, hFirst, hOthers, rfl⟩, hBytes⟩
      rw [BytesAt.append_iff, hFirst.length_eq] at hBytes
      exact ⟨⟨first, hFirst, hFirst.length_eq.symm, hBytes.1⟩, others, hOthers, hBytes.2⟩

theorem ReadsAt.le_stop (hReads : c.ReadsAt offset text) (hNonempty : text ≠ []) :
    offset + c.encoding.size text ≤ c.stop := by
  induction text generalizing offset with
  | nil => exact absurd rfl hNonempty
  | cons ch rest ih =>
    rw [Encoding.size_cons]
    cases rest with
    | nil => exact (Scan.charAt_width hReads.1).2
    | cons ch' rest =>
      have h := ih hReads.2 (List.cons_ne_nil _ _)
      omega

/-- Two texts read at one place agree as far as both go. -/
theorem ReadsAt.eq_of_length {other : List CodePoint} (hText : c.ReadsAt offset text)
    (hOther : c.ReadsAt offset other) (hLength : text.length = other.length) : text = other := by
  induction text generalizing offset other with
  | nil => exact (List.length_eq_zero_iff.mp hLength.symm).symm
  | cons ch text ih =>
    cases other with
    | nil => cases hLength
    | cons ch' other =>
      have hHead : ch = ch' := congrArg Prod.fst (Except.ok.inj (hText.1.symm.trans hOther.1))
      subst hHead
      rw [ih hText.2 hOther.2 (Nat.succ.inj hLength)]

theorem advance_append : c.advance (text ++ rest) = (c.advance text).advance rest := by
  induction text generalizing c with
  | nil => rfl
  | cons ch text ih => exact ih

@[simp] theorem advance_nil : c.advance [] = c :=
  rfl

@[simp] theorem doc_advance : (c.advance text).doc = c.doc := by
  induction text generalizing c with
  | nil => rfl
  | cons ch text ih => exact ih

@[simp] theorem start_advance : (c.advance text).start = c.start := by
  induction text generalizing c with
  | nil => rfl
  | cons ch text ih => exact ih

@[simp] theorem stop_advance : (c.advance text).stop = c.stop := by
  induction text generalizing c with
  | nil => rfl
  | cons ch text ih => exact ih

@[simp] theorem encoding_advance : (c.advance text).encoding = c.encoding := by
  induction text generalizing c with
  | nil => rfl
  | cons ch text ih => exact ih

@[simp] theorem offset_advance : (c.advance text).offset = c.offset + c.encoding.size text := by
  induction text generalizing c with
  | nil => rfl
  | cons ch text ih => simp [advance, ih, Nat.add_assoc]

/-- `last` is where the last character of the text begins. -/
@[simp] theorem last_advance_append (ch : CodePoint) :
    (c.advance (text ++ [ch])).last = c.offset + c.encoding.size text := by
  rw [advance_append]
  simp [advance]

@[simp] theorem last_advance_cons_append (first ch : CodePoint) :
    (c.advance (first :: (text ++ [ch]))).last =
      c.offset + (c.encoding.width first + c.encoding.size text) := by
  rw [← List.cons_append, last_advance_append, Encoding.size_cons]

theorem last_advance_singleton (ch : CodePoint) : (c.advance [ch]).last = c.offset :=
  rfl

@[simp] theorem readsAt_advance : (c.advance text).ReadsAt offset rest ↔ c.ReadsAt offset rest :=
  readsAt_congr doc_advance stop_advance encoding_advance

theorem reads_append : c.Reads (text ++ rest) ↔ c.Reads text ∧ (c.advance text).Reads rest := by
  rw [Reads, readsAt_append, Reads, Reads, readsAt_advance, offset_advance]

theorem reads_cons {ch : CodePoint} :
    c.Reads (ch :: rest) ↔ c.Reads [ch] ∧ (c.advance [ch]).Reads rest :=
  @reads_append _ [ch] _

theorem reads_nil : c.Reads [] :=
  trivial

theorem reads_singleton_iff {ch : CodePoint} :
    c.Reads [ch] ↔ c.charAt c.offset = .ok (ch, c.encoding.width ch) :=
  and_iff_left trivial

/-- A character read is a text of its own. -/
theorem reads_of_charAt {ch w : Nat} (hRead : c.charAt c.offset = .ok (ch, w)) :
    c.Reads [ch] ∧ w = c.encoding.width ch := by
  have hWidth := eq_width_of_charAt hRead
  exact ⟨reads_singleton_iff.mpr (hWidth ▸ hRead), hWidth⟩

theorem Reads.head_eq {ch d : CodePoint} (hReads : c.Reads [ch]) (hOther : c.Reads (d :: rest)) :
    d = ch :=
  List.head_eq_of_cons_eq ((reads_cons.mp hOther).1.eq_of_length hReads rfl)

/-- `last` of a cursor does not matter to the text that follows, nor to the cursor after it. -/
theorem advance_congr (hDoc : c'.doc = c.doc) (hStart : c'.start = c.start) (hStop : c'.stop = c.stop)
    (hEncoding : c'.encoding = c.encoding) (hOffset : c'.offset = c.offset) (hNonempty : text ≠ []) :
    c'.advance text = c.advance text := by
  cases text with
  | nil => exact absurd rfl hNonempty
  | cons ch rest => simp only [advance, hDoc, hStart, hStop, hEncoding, hOffset]

theorem reads_congr (hDoc : c'.doc = c.doc) (hStop : c'.stop = c.stop)
    (hEncoding : c'.encoding = c.encoding) (hOffset : c'.offset = c.offset) :
    c'.Reads text ↔ c.Reads text := by
  rw [Reads, Reads, hOffset, readsAt_congr hDoc hStop hEncoding]

end Cursor

end XmlIndex
