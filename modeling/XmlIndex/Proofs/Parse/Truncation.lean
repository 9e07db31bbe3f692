import XmlIndex.Proofs.Index.Loaders
import XmlIndex.Proofs.Parse.Persistence

/-! # Files that are cut short

Loading goes through a file from front to back and needs every byte of it. So whatever is missing at its
end is missed: a document that is cut short by its length, anything else by a short read.
-/
namespace XmlIndex
set_option autoImplicit false

namespace Load
variable {α β : Type} {action : Load α} {next : α → Load β}

/-- What the action reads it reads again whatever follows, and fails for want of bytes if any of them is
missing. -/
def Thorough (action : Load α) : Prop :=
  ∀ before a after, action before = .ok (a, after) → ∃ read, before = read ++ after ∧ action.Reads read a ∧
    ∀ count < read.length, action (read.take count) = .error .shortRead

theorem thorough_pure (a : α) : Thorough (pure a : Load α) := by
  intro before b after hOk
  obtain ⟨rfl, rfl⟩ := pure_eq_ok_iff.mp hOk
  exact ⟨[], rfl, reads_pure, nofun⟩

theorem thorough_throw (error : LoadError) : Thorough (throw error : Load α) :=
  fun _ _ _ hOk => nomatch hOk

theorem Thorough.bind (hAction : Thorough action) (hNext : ∀ a, Thorough (next a)) :
    Thorough (action >>= next) := by
  intro before b after hOk
  obtain ⟨a, between, hFirst, hSecond⟩ := bind_eq_ok_iff.mp hOk
  obtain ⟨read, rfl, hReads, hCut⟩ := hAction before a between hFirst
  obtain ⟨read', rfl, hReads', hCut'⟩ := hNext a between b after hSecond
  refine ⟨read ++ read', (List.append_assoc ..).symm, hReads.bind hReads', fun count hCount => ?_⟩
  by_cases hFirstPart : count < read.length
  · rw [List.take_append_of_le_length (Nat.le_of_lt hFirstPart)]
    exact bind_of_error (hCut count hFirstPart)
  · rw [List.length_append] at hCount
    rw [List.take_append, List.take_of_length_le (Nat.not_lt.mp hFirstPart), bind_of_ok (hReads _)]
    exact hCut' _ (by omega)

theorem thorough_require (condition : Bool) (error : LoadError) : Thorough (require condition error) := by
  unfold require
  split
  · exact thorough_pure ()
  · exact thorough_throw error

theorem thorough_orFail (value? : Option α) (error : LoadError) : Thorough (orFail value? error) := by
  cases value? with
  | none => exact thorough_throw error
  | some a => exact thorough_pure a

theorem thorough_lift (check : Except LoadError Unit) : Thorough (liftM check : Load Unit) := by
  cases check with
  | error error => exact thorough_throw error
  | ok => exact thorough_pure ()

theorem splitExactly?_of_lt {count : Nat} {list : List α} (hShort : list.length < count) :
    splitExactly? count list = none := by
  cases hSplit : splitExactly? count list with
  | none => rfl
  | some found =>
    obtain ⟨first, rest⟩ := found
    obtain ⟨rfl, rfl⟩ := eq_append_of_splitExactly? hSplit
    rw [List.length_append] at hShort
    omega

theorem thorough_bytes (count : Nat) : Thorough (bytes count) := by
  intro before read after hOk
  obtain ⟨rfl, rfl⟩ := bytes_eq_ok_iff.mp hOk
  refine ⟨read, rfl, reads_bytes rfl, fun fewer hFewer => ?_⟩
  rw [bytes, splitExactly?_of_lt]
  exact Nat.lt_of_le_of_lt (List.length_take_le ..) hFewer

theorem thorough_number (count : Nat) : Thorough (number count) :=
  (thorough_bytes count).bind fun _ => thorough_pure _

theorem thorough_skip (count : Nat) : Thorough (skip count) :=
  (thorough_bytes count).bind fun _ => thorough_pure _

theorem thorough_many {item : Load α} (hItem : Thorough item) (count : Nat) (found : Array α) :
    Thorough (many item count found) := by
  induction count generalizing found with
  | zero => exact thorough_pure found
  | succ count ih => exact hItem.bind fun a => ih (found.push a)

theorem thorough_counted {item : Load α} (hItem : Thorough item) : Thorough (counted item) :=
  (thorough_number 8).bind fun count => thorough_many hItem count #[]

/-- Bytes that are read as a whole cannot be read in part. -/
theorem Thorough.cut (hThorough : Thorough action) {written : List UInt8} {a : α} (hReads : action.Reads written a)
    {count : Nat} (hCount : count < written.length) : action (written.take count) = .error .shortRead := by
  obtain ⟨read, hRead, -, hCut⟩ := hThorough (written ++ []) a [] (hReads [])
  obtain rfl := List.append_cancel_right hRead
  exact hCut count hCount

end Load

namespace IndexFile
open Load

theorem thorough_settings : Thorough settings := by
  refine (thorough_bytes 8).bind fun read => ?_
  split
  · exact thorough_pure _
  · exact thorough_throw _

theorem thorough_loadHeader : Thorough loadHeader :=
  (thorough_bytes 4).bind fun _ => (thorough_require _ _).bind fun _ => thorough_settings.bind fun _ =>
    (thorough_orFail _ _).bind fun _ => (thorough_orFail _ _).bind fun _ => (thorough_orFail _ _).bind fun _ =>
      (thorough_number 4).bind fun _ => (thorough_number 8).bind fun _ => (thorough_require _ _).bind fun _ =>
        (thorough_number 8).bind fun _ => (thorough_require _ _).bind fun _ => thorough_pure _

theorem thorough_loadToken : Thorough loadToken :=
  (thorough_number 8).bind fun _ => thorough_orFail _ _

theorem thorough_loadEntry : Thorough loadEntry :=
  (thorough_number 8).bind fun _ => thorough_pure _

theorem thorough_loadCache (levels : CacheLevels) : Thorough (loadCache levels) :=
  (thorough_many (thorough_counted thorough_loadEntry) _ _).bind fun _ =>
    (thorough_counted (thorough_number 4)).bind fun _ => (thorough_skip _).bind fun _ => thorough_pure _

theorem thorough_loadBody (header : Header) (doc : ByteArray) : Thorough (loadBody header doc) :=
  (thorough_counted thorough_loadToken).bind fun _ => (thorough_loadCache _).bind fun _ =>
    (thorough_require _ _).bind fun _ => (thorough_require _ _).bind fun _ => (thorough_lift _).bind fun _ =>
      thorough_pure _

variable {x : Index} {kind : FileKind} {levels : CacheLevels} {doc : ByteArray} {count : Nat}

theorem docLength_headerOf : (headerOf x kind levels).docLength = x.docLength :=
  rfl

theorem length_header (x : Index) (kind : FileKind) : (header x kind).length = headerSize := by
  simp [header, length_littleEndian, magic, headerSize]

def trailer (x : Index) : List UInt8 :=
  zeros (padding x.docLength) ++ (tokens x ++ (upperLevels x ++ leaves x))

theorem encode_combined : x.encode .combined = header x .combined ++ (x.document.toList ++ trailer x) := by
  simp only [Index.encode, embedded, trailer, FileKind.embeds, if_true, List.append_assoc]

theorem encode_separate :
    x.encode .separate = header x .separate ++ (tokens x ++ (upperLevels x ++ leaves x)) := by
  simp [Index.encode, embedded, FileKind.embeds]

theorem reads_loadRest (hLoadable : x.Loadable) (hLevels : x.cache.levels = levels.count) :
    (loadRest (headerOf x kind levels) x.buffer).Reads (trailer x) x :=
  (reads_skip List.length_replicate).bind (reads_loadBody hLoadable hLevels)

theorem thorough_loadRest (header : Header) (doc : ByteArray) : Thorough (loadRest header doc) :=
  (thorough_skip _).bind fun _ => thorough_loadBody header doc

theorem loadHeader_take (hLoadable : x.Loadable) {rest : List UInt8} (hCount : count < headerSize) :
    loadHeader ((header x kind ++ rest).take count) = .error .shortRead := by
  obtain ⟨levels, hLevels⟩ := hLoadable.levels
  have hHeader := length_header x kind
  rw [List.take_append_of_le_length (by omega)]
  exact thorough_loadHeader.cut (reads_loadHeader hLoadable hLevels) (by omega)

theorem loadHeader_take_of_le (hLoadable : x.Loadable) (hLevels : x.cache.levels = levels.count)
    {rest : List UInt8} (hCount : headerSize ≤ count) :
    loadHeader ((header x kind ++ rest).take count) =
      .ok (headerOf x kind levels, rest.take (count - headerSize)) := by
  have hHeader := length_header x kind
  rw [List.take_append, List.take_of_length_le (by omega), hHeader]
  exact reads_loadHeader hLoadable hLevels _

/-- A file cut within its document tells how much of the document is left. -/
theorem loadCombined_take (hLoadable : x.Loadable) (hCount : count < (x.encode .combined).length) :
    loadCombined ((x.encode .combined).take count) =
      .error (if headerSize ≤ count ∧ count < headerSize + x.docLength then
        .documentSize x.docLength (count - headerSize) else .shortRead) := by
  obtain ⟨levels, hLevels⟩ := hLoadable.levels
  have hDocument : x.document.toList.length = x.docLength := by
    rw [document_eq hLoadable, length_toList, hLoadable.docLength_eq]
  rw [encode_combined] at hCount ⊢
  simp only [List.length_append, length_header, hDocument] at hCount
  by_cases hInHeader : count < headerSize
  · rw [if_neg (by omega)]
    exact bind_of_error (loadHeader_take hLoadable hInHeader)
  · rw [loadCombined_eq (loadHeader_take_of_le hLoadable hLevels (Nat.not_lt.mp hInHeader)) rfl, docLength_headerOf]
    by_cases hInDocument : count < headerSize + x.docLength
    · have hLeft : (((x.document.toList ++ trailer x).take (count - headerSize)).take x.docLength).length =
          count - headerSize := by
        simp only [List.length_take, List.length_append, hDocument]
        omega
      rw [hLeft, if_neg (by omega), if_pos ⟨Nat.not_lt.mp hInHeader, hInDocument⟩]
    · have hRest : (x.document.toList ++ trailer x).take (count - headerSize) =
          x.document.toList ++ (trailer x).take (count - headerSize - x.docLength) := by
        rw [List.take_append, List.take_of_length_le (by omega), hDocument]
      rw [hRest, List.take_left' hDocument, List.drop_left' hDocument, if_pos hDocument, if_neg (by omega),
        toByteArray_toList, document_eq hLoadable]
      exact (thorough_loadRest _ _).cut (reads_loadRest hLoadable hLevels) (by omega)

theorem loadSeparate_take (hLoadable : x.Loadable) (hCount : count < (x.encode .separate).length) :
    loadSeparate x.document ((x.encode .separate).take count) = .error .shortRead := by
  obtain ⟨levels, hLevels⟩ := hLoadable.levels
  rw [encode_separate] at hCount ⊢
  rw [List.length_append, length_header] at hCount
  by_cases hInHeader : count < headerSize
  · exact bind_of_error (loadHeader_take hLoadable hInHeader)
  · have hSize : x.buffer.size = (headerOf x .separate levels).docLength := hLoadable.docLength_eq.symm
    rw [loadSeparate, bind_of_ok (loadHeader_take_of_le hLoadable hLevels (Nat.not_lt.mp hInHeader)),
      document_eq hLoadable, bind_require_of_true (decide_eq_true hSize)]
    exact (thorough_loadBody _ _).cut (reads_loadBody hLoadable hLevels) (by omega)

end IndexFile

namespace Index
open IndexFile

/-- An index that a parse or a load has given. -/
inductive Obtained : Index → Prop
  | parsed {options : Options} {namespaces : Bool} {doc : ByteArray} {offset length : Nat} {x : Index}
    (hOk : parseRange options namespaces doc offset length = .ok x) : Obtained x
  | loaded {file : List UInt8} {x : Index} (hOk : decode file = .ok x) : Obtained x
  | loadedWith {doc : ByteArray} {file : List UInt8} {x : Index} (hOk : decodeWith doc file = .ok x) : Obtained x

variable {x : Index}

/-- The files of such an index are those of one that can be loaded. -/
theorem Obtained.exists_loadable (hObtained : x.Obtained) : ∃ x' : Index, x'.Loadable ∧ x'.document = x.document ∧
    x'.docLength = x.docLength ∧ ∀ kind, x.encode kind = x'.encode kind := by
  cases hObtained with
  | @parsed options namespaces doc offset length _ hOk =>
    obtain ⟨x', hInner, hLoadable, hDocument, -, hStored⟩ := stored_of_parseRange hOk
    have hRange := le_size_of_parseRange hOk
    refine ⟨x', hLoadable, hDocument, ?_, hStored⟩
    rw [(range_of_parseRange hOk).2.2, (range_of_parseRange hInner).2.2, ByteArray.size_extract]
    omega
  | loaded hOk => exact ⟨x, loadable_of_decode hOk, rfl, rfl, fun _ => rfl⟩
  | loadedWith hOk => exact ⟨x, (loadable_of_decodeWith hOk).1, rfl, rfl, fun _ => rfl⟩

/-- Whatever is missing at the end of a file, it cannot be loaded any more. -/
theorem decode_take (hObtained : x.Obtained) :
    (∀ count < (x.encode .combined).length, decode ((x.encode .combined).take count) =
      .error (if headerSize ≤ count ∧ count < headerSize + x.docLength then
        .documentSize x.docLength (count - headerSize) else .shortRead)) ∧
    ∀ count < (x.encode .separate).length,
      decodeWith x.document ((x.encode .separate).take count) = .error .shortRead := by
  obtain ⟨x', hLoadable, hDocument, hLength, hStored⟩ := hObtained.exists_loadable
  rw [hStored, hStored, ← hDocument, ← hLength]
  refine ⟨fun count hCount => ?_, fun count hCount => ?_⟩
  · change Prod.fst <$> loadCombined _ = _
    rw [loadCombined_take hLoadable hCount]
    rfl
  · change Prod.fst <$> loadSeparate _ _ = _
    rw [loadSeparate_take hLoadable hCount]
    rfl

/-- Cut after five bytes of `<a><b/></a>`, and within its header. -/
theorem decode_take_nested : decode (nested.encode .combined) = .ok nested ∧
    decode ((nested.encode .combined).take 37) = .error (.documentSize 11 5) ∧
    decodeWith nested.document ((nested.encode .separate).take 31) = .error .shortRead := by
  have hOk := decode_encode nested_loadable
  obtain ⟨hCombined, hSeparate⟩ := decode_take (.loaded hOk)
  refine ⟨hOk, hCombined 37 ?_, hSeparate 31 ?_⟩
  · rw [encode_combined, List.length_append, length_header, List.length_append, document_eq nested_loadable,
      length_toList, ← nested_loadable.docLength_eq]
    exact Nat.lt_of_lt_of_le (by decide : 37 < 32 + 11) (Nat.add_le_add_left (Nat.le_add_right 11 _) 32)
  · rw [encode_separate, List.length_append, length_header]
    exact Nat.lt_of_lt_of_le (by decide : 31 < 32) (Nat.le_add_right _ _)

end Index
end XmlIndex
