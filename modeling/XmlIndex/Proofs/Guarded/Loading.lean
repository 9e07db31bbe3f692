import Mathlib.Tactic.IntervalCases
import XmlIndex.Proofs.Guarded.Decoding
import XmlIndex.Proofs.Index.Files

/-! # Guarded loading

A loader looks encodings up in tables and reads padding into a buffer of eight bytes, whatever numbers the file
holds. With tests before these steps it does what it does without, on every file. What it has loaded can be looked
at: no token leads to bytes outside the document, and none is decoded past its own bytes.
-/
namespace XmlIndex
set_option autoImplicit false

namespace Guarded
open IndexFile
variable {ε α β : Type}

def entry (table : Array α) (i : Nat) : Guarded ε α :=
  if h : i < table.size then .ok table[i] else .error (.hazard .element)

theorem entry_of_lt {table : Array α} {i : Nat} (hInside : i < table.size) :
    (entry table i : Guarded ε α) = .ok table[i] :=
  dif_pos hInside

def parts : Array Encoding :=
  #[.latin1, .iso8859_2, .iso8859_3, .iso8859_4, .iso8859_5, .iso8859_6, .iso8859_7, .iso8859_8, .iso8859_9,
    .iso8859_10, .iso8859_11, .iso8859_13, .iso8859_14, .iso8859_15, .iso8859_16]

def windowsPages : Array Encoding :=
  #[.windows1250, .windows1251, .windows1252, .windows1253, .windows1254, .windows1255, .windows1256, .windows1257,
    .windows1258]

/-- Codes after the free one are one further from their places in the table. -/
def encodingOfCode (code : Nat) : Guarded ε (Option Encoding) := do
  if code = 0 then return some .ascii
  else if code = 1 then return some .latin1
  else if code = 2 then return some .utf8
  else if 3 ≤ code ∧ code ≤ 12 then return some (← entry parts (← minus code 2))
  else if 14 ≤ code ∧ code ≤ 17 then return some (← entry parts (← minus code 3))
  else if 18 ≤ code ∧ code ≤ 26 then return some (← entry windowsPages (← minus code 18))
  else if code = 63 then return some (.utf16 .big)
  else if code = 64 then return some (.utf16 .little)
  else return none

theorem encodingOfCode_eq (code : Nat) : (encodingOfCode code : Guarded ε _) = .ok (Encoding.ofCode? code) := by
  by_cases hSmall : code ≤ 64
  · interval_cases code <;> rfl
  · have hNone : Encoding.ofCode? code = none := by
      refine List.find?_eq_none.mpr fun e _ hCode => hSmall ?_
      rw [← eq_of_beq hCode]
      cases e with
      | utf16 order => cases order <;> decide
      | _ => decide
    unfold encodingOfCode
    rw [hNone, if_neg (by omega), if_neg (by omega), if_neg (by omega), if_neg (by omega), if_neg (by omega),
      if_neg (by omega), if_neg (by omega), if_neg (by omega)]
    rfl

abbrev Loading := StateT (List UInt8) (Guarded LoadError)

namespace Loading

def lift (action : Load α) : Loading α := fun remaining =>
  plain (action remaining)

def test (guarded : Guarded LoadError α) : Loading α :=
  StateT.lift guarded

def padding (length : Nat) : Guarded LoadError Nat :=
  return (← minus 8 (length % 8)) % 8

def pad : ByteArray :=
  (List.replicate 8 0).toByteArray

def skip (length : Nat) : Loading Unit := do
  let target ← test (do slice pad 0 (← padding length))
  lift (Load.skip target.size)

def header : Loading Header := do
  lift (Load.require ((← lift (Load.bytes 4)) = magic) .badMagic)
  let (version, code, flags, maxDepth, levelCount) ← lift settings
  let kind ← lift (Load.orFail (FileKind.ofVersion? version) (.unsupportedVersion version))
  let encoding ← lift (Load.orFail (← test (encodingOfCode code)) (.unknownEncoding code))
  let levels ← lift (Load.orFail (CacheLevels.ofCount? levelCount) (.corrupt .levels))
  let root ← lift (Load.number 4)
  lift (Load.require ((← lift (Load.number 8)) = 0) (.corrupt .documentOffset))
  let docLength ← lift (Load.number 8)
  lift (Load.require ((flags / 2 % 2 = 1) = kind.embeds) (.corrupt .embeddedFlag))
  return {
    kind, encoding, maxDepth, levels, docLength
    namespaces := flags % 2 = 1
    root := if root = noRoot then none else some root }

def cache (levels : CacheLevels) : Loading LocationCache := do
  let count ← test (minus levels.count 1)
  let upper ← lift (Load.many (Load.counted loadEntry) count #[])
  let leaves ← lift (Load.counted (Load.number 4))
  skip (4 * leaves.size)
  return ⟨upper, leaves⟩

def body (header : Header) (doc : ByteArray) : Loading Index := do
  let tokens ← lift (Load.counted loadToken)
  let cache ← cache header.levels
  lift (Load.require (header.root.all (· < tokens.size)) (.corrupt .root))
  lift (Load.require (tokens.all (inDocument header.encoding doc.size)) (.corrupt .tokenRange))
  lift (checkCache tokens.size cache)
  return {
    buffer := doc
    docOffset := 0
    docLength := doc.size
    encoding := header.encoding
    namespaces := header.namespaces
    maxDepth := header.maxDepth
    root := header.root
    tokens, cache }

def combined : Loading Index := do
  let header ← header
  lift (Load.require header.kind.embeds .missingDocument)
  let doc := (← lift (Load.upTo header.docLength)).toByteArray
  lift (Load.require (doc.size = header.docLength) (.documentSize header.docLength doc.size))
  skip doc.size
  body header doc

def embedded (header : Header) : Loading Unit := do
  if header.kind.embeds then
    let embedded ← lift (Load.upTo header.docLength)
    lift (Load.require (embedded.length = header.docLength) (.corrupt .embeddedDocument))
    skip header.docLength
  else pure ()

def separate (doc : ByteArray) : Loading Index := do
  let header ← header
  lift (Load.require (doc.size = header.docLength) (.documentSize header.docLength doc.size))
  embedded header
  body header doc

theorem lift_pure (a : α) : lift (pure a) = pure a :=
  rfl

theorem lift_bind (action : Load α) (next : α → Load β) :
    lift (action >>= next) = lift action >>= fun a => lift (next a) := by
  funext remaining
  change plain (action remaining >>= fun r => next r.1 r.2) = plain (action remaining) >>= _
  cases action remaining <;> rfl

theorem test_ok_bind (a : α) (next : α → Loading β) : (test (.ok a) >>= next) = next a :=
  rfl

theorem run'_lift (action : Load α) (remaining : List UInt8) :
    (lift action).run' remaining = plain (action.run' remaining) := by
  change (plain (action remaining) >>= fun r => pure r.1) = plain (action remaining >>= fun r => pure r.1)
  cases action remaining <;> rfl

theorem padding_eq (length : Nat) : padding length = .ok (IndexFile.padding length) := by
  have hLess : length % 8 < 8 := Nat.mod_lt _ (by decide)
  rw [padding, minus_of_le (Nat.le_of_lt hLess)]
  rfl

/-- Padding fits the buffer it is read into. -/
theorem skip_eq (length : Nat) : skip length = lift (Load.skip (IndexFile.padding length)) := by
  have hSize : pad.size = 8 := List.size_toByteArray
  have hFits : IndexFile.padding length ≤ pad.size := hSize ▸ Nat.le_of_lt (padding_lt length)
  rw [skip, padding_eq, ok_bind, slice_of_le (Nat.zero_le _) hFits, test_ok_bind, ByteArray.size_extract,
    Nat.min_eq_left hFits, Nat.sub_zero]

theorem header_eq : header = lift loadHeader := by
  simp only [header, loadHeader, lift_bind, encodingOfCode_eq, test_ok_bind]
  rfl

theorem cache_eq (levels : CacheLevels) : cache levels = lift (loadCache levels) := by
  have hCount : 1 ≤ levels.count := by
    cases levels <;> decide
  simp only [cache, loadCache, lift_bind, lift_pure, minus_of_le hCount, test_ok_bind, skip_eq]

theorem body_eq (header : Header) (doc : ByteArray) : body header doc = lift (loadBody header doc) := by
  simp only [body, loadBody, lift_bind, lift_pure, cache_eq]

theorem combined_eq : combined = lift loadCombined := by
  simp only [combined, loadCombined, lift_bind, header_eq, skip_eq, body_eq]

theorem embedded_eq (header : Header) : embedded header = lift (skipDocument header) := by
  unfold embedded skipDocument
  split
  · simp only [lift_bind, skip_eq]
  · rfl

theorem separate_eq (doc : ByteArray) : separate doc = lift (loadSeparate doc) := by
  simp only [separate, loadSeparate, lift_bind, header_eq, embedded_eq, body_eq]

end Loading

def decode (file : List UInt8) : Guarded LoadError Index :=
  Loading.combined.run' file

def decodeWith (doc : ByteArray) (file : List UInt8) : Guarded LoadError Index :=
  (Loading.separate doc).run' file

theorem decode_eq (file : List UInt8) : decode file = plain (Index.decode file) := by
  rw [decode, Loading.combined_eq, Loading.run'_lift, Index.decode]

theorem decodeWith_eq (doc : ByteArray) (file : List UInt8) :
    decodeWith doc file = plain (Index.decodeWith doc file) := by
  rw [decodeWith, Loading.separate_eq, Loading.run'_lift, Index.decodeWith]

def document (x : Index) : Guarded ε ByteArray :=
  slice x.buffer x.docOffset (x.docOffset + x.docLength)

def rawBytes (x : Index) (i : Nat) : Guarded ε ByteArray := do
  let t ← entry x.tokens i
  let size := x.encoding.unitSize
  slice x.buffer (t.offset * size) (t.offset * size + t.length * size)

def characters (e : Encoding) (bytes : ByteArray) : (steps i : Nat) → Guarded DecodeFault (List CodePoint)
  | 0, _ => .error (.hazard .steps)
  | steps + 1, i => do
    if i < bytes.size then
      let (c, width) ← decodeAt e bytes i
      return c :: (← characters e bytes steps (i + width))
    else return []

/-- A text as a whole. A character has a byte at least, so there is a step for each. -/
def decoded (e : Encoding) (bytes : ByteArray) : Guarded Fault String := do
  let found ← mapFault .ofDecode (characters e bytes (bytes.size + 1) 0)
  return String.ofList (found.map Char.ofNat)

def rawText (x : Index) (i : Nat) : Guarded Fault String := do
  let bytes ← rawBytes x i
  match x.encoding with
  | .utf8 | .ascii =>
    match String.fromUTF8? bytes with
    | some text => return text
    | none => fail (.encoding .notUtf8)
  | encoding => decoded encoding bytes

def verdict : List (CodePoint × Nat) × Option DecodeFault → Except DecodeFault (List CodePoint)
  | (_, some fault) => .error fault
  | (found, none) => .ok (found.map Prod.fst)

theorem characters_eq {e : Encoding} {bytes : ByteArray} {steps i : Nat} (hSteps : bytes.size - i < steps) :
    characters e bytes steps i = plain (verdict (e.decodeFrom bytes bytes.size i)) := by
  induction steps generalizing i with
  | zero => exact absurd hSteps (Nat.not_lt_zero _)
  | succ steps ih =>
    rw [characters]
    by_cases hMore : i < bytes.size
    · have hDecode := decodeAt_eq (Nat.le_refl bytes.size) e hMore
      rw [ByteArray.extract_zero_size] at hDecode
      rw [if_pos hMore, hDecode]
      cases hRead : e.decodeAt bytes bytes.size i with
      | error fault =>
        rw [Encoding.decodeFrom_of_error hMore hRead]
        rfl
      | ok read =>
        obtain ⟨c, width⟩ := read
        have hWidth := Encoding.decodeAt_width hRead
        rw [Encoding.decodeFrom_of_ok hRead]
        change (characters e bytes steps (i + width) >>= _) = _
        rw [ih (by omega)]
        rcases e.decodeFrom bytes bytes.size (i + width) with ⟨found, none | fault⟩ <;> rfl
    · rw [if_neg hMore, Encoding.decodeFrom_of_le (Nat.not_lt.mp hMore)]
      rfl

theorem decoded_eq (e : Encoding) (bytes : ByteArray) :
    decoded e bytes = plain (match e.decodeFrom bytes bytes.size 0 with
      | (_, some fault) => .error (.ofDecode fault)
      | (found, none) => .ok (String.ofList (found.map fun read => Char.ofNat read.1))) := by
  rw [decoded, @characters_eq e bytes (bytes.size + 1) 0 (Nat.lt_succ_self _)]
  rcases e.decodeFrom bytes bytes.size 0 with ⟨found, none | fault⟩
  · change Except.ok (String.ofList ((found.map Prod.fst).map Char.ofNat)) = _
    rw [List.map_map]
    rfl
  · rfl

section
variable {x : Index} {i : Nat} {hInside : i < x.tokens.size}

theorem rawBytes_eq (hFits : (x.tokens[i].offset + x.tokens[i].length) * x.encoding.unitSize ≤ x.buffer.size) :
    (rawBytes x i : Guarded ε ByteArray) = .ok (x.rawBytes x.tokens[i]) := by
  rw [Nat.add_mul] at hFits
  rw [rawBytes, entry_of_lt hInside, ok_bind]
  exact slice_of_le (Nat.le_add_right _ _) hFits

/-- Every token that lies inside is decoded, as far as it can be, from its own bytes. -/
theorem rawText_eq (hFits : (x.tokens[i].offset + x.tokens[i].length) * x.encoding.unitSize ≤ x.buffer.size) :
    rawText x i = plain (x.rawText x.tokens[i]) := by
  rw [rawText, rawBytes_eq hFits, ok_bind, Index.rawText]
  generalize x.rawBytes x.tokens[i] = bytes
  cases x.encoding with
  | utf8 => cases String.fromUTF8? bytes <;> rfl
  | ascii => cases String.fromUTF8? bytes <;> rfl
  | _ => exact decoded_eq _ _

end

/-- No file leads a loader outside, whatever it holds, and all that a loaded index leads to is there. -/
theorem files_load_without_hazard (file : List UInt8) (doc : ByteArray) :
    decode file = plain (Index.decode file) ∧ decodeWith doc file = plain (Index.decodeWith doc file) ∧
    ∀ x : Index, Index.decode file = .ok x ∨ Index.decodeWith doc file = .ok x →
      (x.cache.levels = 3 ∨ x.cache.levels = 5) ∧
      (∀ root, x.root = some root → root < x.tokens.size) ∧
      (∀ t ∈ x.tokens, Token.unpack? t.pack = some t ∧
        (t.offset + t.length) * x.encoding.unitSize ≤ x.document.size) ∧
      (document x : Guarded Fault ByteArray) = .ok x.document ∧
      (∀ i (hi : i < x.tokens.size), (rawBytes x i : Guarded Fault ByteArray) = .ok (x.rawBytes x.tokens[i]) ∧
        (x.rawBytes x.tokens[i]).size = x.tokens[i].length * x.encoding.unitSize ∧
        rawText x i = plain (x.rawText x.tokens[i])) ∧
      (∀ level, ∀ entry ∈ x.cache.entries (level + 1), entry.token < x.tokens.size ∧
        ∀ child, entry.firstChild = some child → child < x.cache.levelSize (level + 2)) ∧
      ∀ leaf ∈ x.cache.leaves, leaf < x.tokens.size := by
  refine ⟨decode_eq file, decodeWith_eq doc file, fun x hOk => ?_⟩
  have hLoadable : x.Loadable :=
    hOk.elim Index.loadable_of_decode fun hOk => (Index.loadable_of_decodeWith hOk).1
  obtain ⟨levels, hLevels⟩ := hLoadable.levels
  obtain ⟨hToken, hChild, hLeaf⟩ := hLoadable.cache_linked
  have hInside (i : Nat) (hi : i < x.tokens.size) := hLoadable.tokens_inside _ (Array.getElem_mem hi)
  refine ⟨?_, fun root hRoot => (hLoadable.root_lt root hRoot).1, fun t ht => ⟨?_, ?_⟩, ?_,
    fun i hi => ⟨rawBytes_eq (hInside i hi), Index.size_rawBytes (hInside i hi), rawText_eq (hInside i hi)⟩,
    fun level entry h => ⟨hToken level entry h, hChild level entry h⟩, hLeaf⟩
  · rw [hLevels]
    cases levels <;> decide
  · exact Token.unpack?_pack (hLoadable.tokens_storable t ht)
  · rw [IndexFile.document_eq hLoadable]
    exact hLoadable.tokens_inside t ht
  · refine slice_of_le (Nat.le_add_right _ _) ?_
    rw [hLoadable.docOffset_eq, hLoadable.docLength_eq, Nat.zero_add]

theorem files_load_without_hazard_nested :
    decode (Index.nested.encode .combined) = .ok Index.nested ∧
    rawText Index.nested 2 = .ok "b" ∧ 1 < Index.nested.tokens.size := by
  have hOk := Index.decode_encode Index.nested_loadable
  obtain ⟨hSame, -, hSafe⟩ := files_load_without_hazard (Index.nested.encode .combined) .empty
  obtain ⟨-, hRoot, -, -, hText, -⟩ := hSafe _ (.inl hOk)
  refine ⟨hSame.trans (congrArg plain hOk), ?_, hRoot 1 rfl⟩
  rw [(hText 2 (by decide)).2.2]
  rfl

end Guarded
end XmlIndex
