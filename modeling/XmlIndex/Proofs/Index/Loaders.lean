import XmlIndex.Proofs.Index.Files

/-! # The two ways to load a combined file

A combined file can be loaded for itself or against the bytes of its document. The header tells both
loaders how much of the file the document takes up; past it and its padding they read the same body. So
one loads the file if the other does, and the two indexes differ in their documents at most.
-/
namespace XmlIndex
set_option autoImplicit false

namespace IndexFile
open Load

/-- The file begins as a combined one does. -/
def IsCombined (file : List UInt8) : Prop :=
  magic ++ [UInt8.ofNat FileKind.combined.version] <+: file

def recordedLength (file : List UInt8) : Nat :=
  ofLittleEndian ((file.drop 24).take 8)

variable {file before after : List UInt8} {header : Header} {doc : ByteArray} {x : Index}

theorem settings_eq_ok {found : Nat × Nat × Nat × Nat × Nat} (hSettings : settings before = .ok (found, after)) :
    ∃ first others, before = first :: others ++ after ∧ others.length = 7 ∧ found.1 = first.toNat := by
  obtain ⟨read, between, hBytes, hRest⟩ := bind_eq_ok_iff.mp hSettings
  obtain ⟨rfl, hLength⟩ := bytes_eq_ok_iff.mp hBytes
  rcases read with _ | ⟨b₀, _ | ⟨b₁, _ | ⟨b₂, _ | ⟨b₃, _ | ⟨b₄, read⟩⟩⟩⟩⟩
  all_goals cases hRest
  exact ⟨b₀, b₁ :: b₂ :: b₃ :: b₄ :: read, rfl, Nat.succ.inj hLength, rfl⟩

theorem number_eq_ok {count n : Nat} (hNumber : number count before = .ok (n, after)) :
    ∃ read, before = read ++ after ∧ read.length = count ∧ n = ofLittleEndian read := by
  obtain ⟨read, _, hBytes, hPure⟩ := bind_eq_ok_iff.mp hNumber
  obtain ⟨rfl, rfl⟩ := Load.pure_eq_ok_iff.mp hPure
  obtain ⟨rfl, hLength⟩ := bytes_eq_ok_iff.mp hBytes
  exact ⟨read, rfl, hLength, rfl⟩

/-- A header takes up its 32 bytes; the version is the fifth of them, the length the last eight. -/
theorem header_eq_of_loadHeader (hHeader : loadHeader file = .ok (header, after)) :
    after = file.drop headerSize ∧ header.docLength = recordedLength file ∧
      ∃ version, file[4]? = some version ∧ FileKind.ofVersion? version.toNat = some header.kind := by
  unfold loadHeader at hHeader
  obtain ⟨mark, _, hMark, hHeader⟩ := bind_eq_ok_iff.mp hHeader
  obtain ⟨_, _, hMagic, hHeader⟩ := bind_eq_ok_iff.mp hHeader
  obtain ⟨⟨version, code, flags, depth, levelCount⟩, _, hSettings, hHeader⟩ := bind_eq_ok_iff.mp hHeader
  obtain ⟨kind, _, hKind, hHeader⟩ := bind_eq_ok_iff.mp hHeader
  obtain ⟨encoding, _, hEncoding, hHeader⟩ := bind_eq_ok_iff.mp hHeader
  obtain ⟨levels, _, hLevels, hHeader⟩ := bind_eq_ok_iff.mp hHeader
  obtain ⟨root, _, hRoot, hHeader⟩ := bind_eq_ok_iff.mp hHeader
  obtain ⟨offset, _, hZero, hHeader⟩ := bind_eq_ok_iff.mp hHeader
  obtain ⟨_, _, hOffset, hHeader⟩ := bind_eq_ok_iff.mp hHeader
  obtain ⟨docLength, _, hLength, hHeader⟩ := bind_eq_ok_iff.mp hHeader
  obtain ⟨_, _, hEmbeds, hHeader⟩ := bind_eq_ok_iff.mp hHeader
  obtain ⟨rfl, rfl⟩ := Load.pure_eq_ok_iff.mp hHeader
  -- Each part is known with its length, so the places of the version and of the length are.
  obtain ⟨rfl, hMarkLength⟩ := bytes_eq_ok_iff.mp hMark
  obtain ⟨-, rfl⟩ := require_eq_ok_iff.mp hMagic
  obtain ⟨first, others, rfl, hOthers, hVersion⟩ := settings_eq_ok hSettings
  obtain ⟨hFound, rfl⟩ := orFail_eq_ok_iff.mp hKind
  obtain ⟨-, rfl⟩ := orFail_eq_ok_iff.mp hEncoding
  obtain ⟨-, rfl⟩ := orFail_eq_ok_iff.mp hLevels
  obtain ⟨rootBytes, rfl, hRootLength, -⟩ := number_eq_ok hRoot
  obtain ⟨zeroBytes, rfl, hZeroLength, -⟩ := number_eq_ok hZero
  obtain ⟨-, rfl⟩ := require_eq_ok_iff.mp hOffset
  obtain ⟨lengthBytes, rfl, hLengthLength, hDocLength⟩ := number_eq_ok hLength
  obtain ⟨-, rfl⟩ := require_eq_ok_iff.mp hEmbeds
  have hFront : (mark ++ (first :: others) ++ rootBytes ++ zeroBytes).length = 24 := by
    simp only [List.length_append, List.length_cons]
    omega
  have hFile : mark ++ (first :: others ++ (rootBytes ++ (zeroBytes ++ (lengthBytes ++ after)))) =
      (mark ++ (first :: others) ++ rootBytes ++ zeroBytes) ++ (lengthBytes ++ after) := by
    simp only [List.append_assoc]
  refine ⟨?_, ?_, first, ?_, hVersion ▸ hFound⟩
  · rw [hFile, ← List.append_assoc, List.drop_left' (by rw [List.length_append, hFront, hLengthLength]; rfl)]
  · rw [hDocLength, recordedLength, hFile, List.drop_left' hFront, List.take_left' hLengthLength]
  · rw [List.getElem?_append_right (Nat.le_of_eq hMarkLength), hMarkLength]
    rfl

theorem kind_of_isCombined (hCombined : IsCombined file) (hHeader : loadHeader file = .ok (header, after)) :
    header.kind = .combined := by
  obtain ⟨-, -, version, hVersion, hKind⟩ := header_eq_of_loadHeader hHeader
  obtain ⟨rest, rfl⟩ := hCombined
  obtain rfl := Option.some.inj hVersion
  exact (Option.some.inj hKind).symm

variable {rest : List UInt8} {doc' : ByteArray}

def loadRest (header : Header) (doc : ByteArray) : Load Index := do
  skip (padding header.docLength)
  loadBody header doc

/-- The body is read alike against all documents of one size. -/
theorem loadBody_map (hSize : doc'.size = doc.size) : loadBody header doc' =
    (fun x : Index => { x with buffer := doc' }) <$> loadBody header doc := by
  simp only [loadBody, map_bind, map_pure, hSize]

theorem loadRest_map (hSize : doc'.size = doc.size) : loadRest header doc' =
    (fun x : Index => { x with buffer := doc' }) <$> loadRest header doc := by
  simp only [loadRest, map_bind, loadBody_map hSize]

theorem loadCombined_eq (hHeader : loadHeader file = .ok (header, rest)) (hKind : header.kind = .combined) :
    loadCombined file =
      if (rest.take header.docLength).length = header.docLength then
        loadRest header (rest.take header.docLength).toByteArray (rest.drop header.docLength)
      else .error (.documentSize header.docLength (rest.take header.docLength).length) := by
  have hUpTo : upTo header.docLength rest = .ok (rest.take header.docLength, rest.drop header.docLength) := rfl
  rw [loadCombined, bind_of_ok hHeader, bind_require_of_true (hKind ▸ rfl), bind_of_ok hUpTo, List.size_toByteArray]
  by_cases hThere : (rest.take header.docLength).length = header.docLength
  · rw [if_pos hThere, bind_require_of_true (decide_eq_true hThere), hThere, loadRest]
  · rw [if_neg hThere, bind_require_of_false (decide_eq_false hThere)]

theorem loadSeparate_eq (hHeader : loadHeader file = .ok (header, rest)) (hKind : header.kind = .combined)
    (hSize : doc.size = header.docLength) : loadSeparate doc file =
      if (rest.take header.docLength).length = header.docLength then
        loadRest header doc (rest.drop header.docLength)
      else .error (.corrupt .embeddedDocument) := by
  have hEmbeds : header.kind.embeds = true := hKind ▸ rfl
  have hUpTo : upTo header.docLength rest = .ok (rest.take header.docLength, rest.drop header.docLength) := rfl
  rw [loadSeparate, bind_of_ok hHeader, bind_require_of_true (decide_eq_true hSize), skipDocument, if_pos hEmbeds,
    bind_assoc, bind_of_ok hUpTo, bind_assoc]
  by_cases hThere : (rest.take header.docLength).length = header.docLength
  · rw [if_pos hThere, bind_require_of_true (decide_eq_true hThere), loadRest]
  · rw [if_neg hThere, bind_require_of_false (decide_eq_false hThere)]

def embeddedDocument (file : List UInt8) : ByteArray :=
  ((file.drop headerSize).take (recordedLength file)).toByteArray

end IndexFile

namespace Index
open IndexFile
variable {file : List UInt8} {doc : ByteArray}

theorem run_eq_ok_iff {action : Load Index} {x : Index} :
    action.run' file = .ok x ↔ ∃ after, action file = .ok (x, after) := by
  refine ⟨Load.exists_of_run, ?_⟩
  rintro ⟨after, hOk⟩
  change (action file >>= fun r => pure r.1) = _
  rw [hOk]
  rfl

theorem map_eq_ok_iff {action : Load Index} {f : Index → Index} {y : Index} {after : List UInt8} :
    (f <$> action) file = .ok (y, after) ↔ ∃ x, action file = .ok (x, after) ∧ y = f x := by
  rw [map_eq_pure_bind, Load.bind_eq_ok_iff]
  constructor
  · rintro ⟨x, between, hOk, hPure⟩
    obtain ⟨rfl, rfl⟩ := Load.pure_eq_ok_iff.mp hPure
    exact ⟨x, hOk, rfl⟩
  · rintro ⟨x, hOk, rfl⟩
    exact ⟨x, after, hOk, rfl⟩

theorem buffer_of_loadRest {header : Header} {x : Index} {after : List UInt8}
    (hOk : loadRest header doc file = .ok (x, after)) : x.buffer = doc := by
  rw [loadRest_map rfl] at hOk
  obtain ⟨x', -, rfl⟩ := map_eq_ok_iff.mp hOk
  rfl

section
variable (hCombined : IsCombined file)
include hCombined

theorem decodeWith_eq_ok_iff (hSize : doc.size = recordedLength file) (y : Index) :
    decodeWith doc file = .ok y ↔ ∃ x, decode file = .ok x ∧ y = { x with buffer := doc } := by
  simp only [decodeWith, decode, run_eq_ok_iff]
  cases hHeader : loadHeader file with
  | error error =>
    have hFails {next : Header → Load Index} : (loadHeader >>= next) file = .error error :=
      Load.bind_of_error hHeader
    simp only [loadSeparate, loadCombined, hFails, reduceCtorEq, exists_false, false_and]
  | ok found =>
    obtain ⟨header, rest⟩ := found
    have hKind := kind_of_isCombined hCombined hHeader
    obtain ⟨-, hLength, -⟩ := header_eq_of_loadHeader hHeader
    rw [← hLength] at hSize
    rw [loadSeparate_eq hHeader hKind hSize, loadCombined_eq hHeader hKind]
    split
    · rename_i hThere
      have hSame : doc.size = (rest.take header.docLength).toByteArray.size := by
        rw [List.size_toByteArray, hThere, hSize]
      simp only [loadRest_map hSame, map_eq_ok_iff]
      exact ⟨fun ⟨after, x, hOk, hEq⟩ => ⟨x, ⟨after, hOk⟩, hEq⟩, fun ⟨x, ⟨after, hOk⟩, hEq⟩ => ⟨after, x, hOk, hEq⟩⟩
    · exact ⟨nofun, nofun⟩

theorem buffer_of_decode {x : Index} (hOk : decode file = .ok x) : x.buffer = embeddedDocument file := by
  obtain ⟨after, hLoad⟩ := run_eq_ok_iff.mp hOk
  obtain ⟨header, rest, hHeader, -⟩ := Load.bind_eq_ok_iff.mp hLoad
  obtain ⟨hRest, hLength, -⟩ := header_eq_of_loadHeader hHeader
  rw [loadCombined_eq hHeader (kind_of_isCombined hCombined hHeader)] at hLoad
  split at hLoad
  · rw [buffer_of_loadRest hLoad, embeddedDocument, hRest, hLength]
  · cases hLoad

/-- Against the document that the file has itself, both loaders come to the same result, be it a failure. -/
theorem decodeWith_embeddedDocument (hSize : (embeddedDocument file).size = recordedLength file) :
    decodeWith (embeddedDocument file) file = decode file := by
  suffices hSame : loadSeparate (embeddedDocument file) file = loadCombined file by
    change Prod.fst <$> loadSeparate _ file = Prod.fst <$> loadCombined file
    rw [hSame]
  cases hHeader : loadHeader file with
  | error error => exact (Load.bind_of_error hHeader).trans (Load.bind_of_error hHeader).symm
  | ok found =>
    obtain ⟨header, rest⟩ := found
    have hKind := kind_of_isCombined hCombined hHeader
    obtain ⟨hRest, hLength, -⟩ := header_eq_of_loadHeader hHeader
    have hEmbedded : embeddedDocument file = (rest.take header.docLength).toByteArray := by
      rw [embeddedDocument, hRest, hLength]
    rw [hEmbedded, ← hLength] at hSize
    rw [hEmbedded, loadSeparate_eq hHeader hKind hSize, loadCombined_eq hHeader hKind,
      if_pos (List.size_toByteArray.symm.trans hSize), if_pos (List.size_toByteArray.symm.trans hSize)]

/-- A combined file is loaded against bytes of the right length if it is loaded for itself, and then the two
indexes are the same but for the document. -/
theorem decodeWith_of_isCombined (hSize : doc.size = recordedLength file) :
    ((∃ y, decodeWith doc file = .ok y) ↔ ∃ x, decode file = .ok x) ∧
    (∀ x y, decode file = .ok x → decodeWith doc file = .ok y →
      y = { x with buffer := doc } ∧ x.document = embeddedDocument file ∧ y.document = doc) ∧
    (doc = embeddedDocument file → decodeWith doc file = decode file) := by
  have hBoth := decodeWith_eq_ok_iff hCombined hSize
  refine ⟨?_, fun x y hx hy => ?_, ?_⟩
  · simp only [hBoth]
    exact ⟨fun ⟨y, x, hx, hy⟩ => ⟨x, hx⟩, fun ⟨x, hx⟩ => ⟨_, x, hx, rfl⟩⟩
  · obtain ⟨x', hx', rfl⟩ := (hBoth y).mp hy
    obtain rfl := Except.ok.inj (hx.symm.trans hx')
    refine ⟨rfl, ?_, document_eq (loadable_of_decodeWith hy).1⟩
    rw [document_eq (loadable_of_decode hx), buffer_of_decode hCombined hx]
  · rintro rfl
    exact decodeWith_embeddedDocument hCombined hSize

end

theorem isCombined_encode (x : Index) : IsCombined (x.encode .combined) := by
  refine ⟨?rest, ?_⟩
  rotate_left
  · simp only [encode, header, List.append_assoc, List.map_cons, List.cons_append]
    rfl

theorem recordedLength_encode {x : Index} (hLoadable : x.Loadable) (kind : FileKind) :
    recordedLength (x.encode kind) = x.docLength := by
  obtain ⟨levels, hLevels⟩ := hLoadable.levels
  have hHeader := @reads_loadHeader x kind levels hLoadable hLevels
    (embedded x kind ++ (IndexFile.tokens x ++ (upperLevels x ++ leaves x)))
  obtain ⟨-, hLength, -⟩ := header_eq_of_loadHeader hHeader
  rw [encode]
  simp only [List.append_assoc]
  exact hLength.symm

/-- Eleven spaces in place of `<a><b/></a>`. -/
theorem decodeWith_of_isCombined_nested : ∃ doc : ByteArray, doc ≠ nested.document ∧
    decode (nested.encode .combined) = .ok nested ∧
    decodeWith doc (nested.encode .combined) = .ok { nested with buffer := doc } := by
  have hSize : (List.replicate 11 0x20).toByteArray.size = recordedLength (nested.encode .combined) := by
    rw [recordedLength_encode nested_loadable, List.size_toByteArray]
    rfl
  obtain ⟨hLoads, hAgree, -⟩ := decodeWith_of_isCombined (isCombined_encode nested) hSize
  have hSelf := decode_encode nested_loadable
  obtain ⟨y, hy⟩ := hLoads.mpr ⟨nested, hSelf⟩
  obtain ⟨rfl, -, -⟩ := hAgree nested y hSelf hy
  refine ⟨_, ?_, hSelf, hy⟩
  rw [document_eq nested_loadable]
  intro hSame
  have hBytes := congrArg ByteArray.data hSame
  simp only [nested, List.data_toByteArray] at hBytes
  exact absurd hBytes (by decide)

end Index
end XmlIndex
