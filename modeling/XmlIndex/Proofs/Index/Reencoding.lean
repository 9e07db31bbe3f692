import XmlIndex.Proofs.Index.Loaders

/-! # Files written again

Every record of a file is a value in one way only: what is read of it is written back as the same
bytes. So an index that was loaded is written as the file it came from, but for the bytes that
loading passes over.
-/
namespace XmlIndex
set_option autoImplicit false

theorem littleEndian_ofLittleEndian (bytes : List UInt8) :
    littleEndian bytes.length (ofLittleEndian bytes) = bytes := by
  induction bytes with
  | nil => rfl
  | cons byte bytes ih =>
    have hByte : byte.toNat < 256 := byte.toNat_lt
    have hFirst : (byte.toNat + 256 * ofLittleEndian bytes) % 256 = byte.toNat := by omega
    have hRest : (byte.toNat + 256 * ofLittleEndian bytes) / 256 = ofLittleEndian bytes := by omega
    rw [List.length_cons, ofLittleEndian, littleEndian, hFirst, hRest, ih, UInt8.ofNat_toNat]

theorem Token.depthByte_ofDepthByte {byte : Nat} (hByte : byte ≤ 0xFF) :
    depthByte (ofDepthByte byte) = byte := by
  unfold depthByte ofDepthByte
  split <;> omega

/-- No two words are the same token. -/
theorem Token.pack_of_unpack? {word : UInt64} {t : Token} (hToken : unpack? word = some t) :
    t.pack = word := by
  obtain ⟨kind, hKind, rfl⟩ := Option.map_eq_some_iff.mp hToken
  have hWord := word.toNat_lt
  have hDepth : depthByte (ofDepthByte (word.toNat / 0x10000000000000 % 0x100)) =
      word.toNat / 0x10000000000000 % 0x100 := depthByte_ofDepthByte (by omega)
  refine UInt64.toNat_inj.mp ?_
  rw [toNat_pack (storable_of_unpack? hToken)]
  dsimp only
  rw [hDepth, TokenKind.code_of_ofCode?_eq_some hKind]
  omega

theorem CacheEntry.pack_unpack (word : UInt64) : (unpack word).pack = word := by
  have hWord := word.toNat_lt
  have hChild : (unpack word).firstChild.getD noChild = word.toNat % 0x100000000 := by
    rw [unpack]
    split
    · exact Eq.symm ‹_›
    · rfl
  have hToken : (unpack word).token = word.toNat / 0x100000000 := rfl
  refine UInt64.toNat_inj.mp ?_
  rw [pack, hChild, hToken, toNat_ofNat_of_lt] <;> omega

theorem FileKind.version_of_ofVersion? {n : Nat} {kind : FileKind} (hKind : ofVersion? n = some kind) :
    kind.version = n := by
  unfold ofVersion? at hKind
  split at hKind <;> cases hKind <;> rfl

theorem CacheLevels.count_of_ofCount? {n : Nat} {levels : CacheLevels} (hLevels : ofCount? n = some levels) :
    levels.count = n := by
  unfold ofCount? at hLevels
  split at hLevels <;> cases hLevels <;> rfl

namespace Load
variable {α : Type} {action item : Load α} {write : α → List UInt8} {before after : List UInt8}

/-- Whatever the action reads as `a` is `write a`. -/
def Restores (action : Load α) (write : α → List UInt8) : Prop :=
  ∀ before a after, action before = .ok (a, after) → before = write a ++ after

theorem restores_number (count : Nat) : (number count).Restores (littleEndian count) := by
  intro before n after hNumber
  obtain ⟨read, rfl, rfl, rfl⟩ := IndexFile.number_eq_ok hNumber
  rw [littleEndian_ofLittleEndian]

theorem skip_eq_ok {count : Nat} {u : Unit} (hSkip : skip count before = .ok (u, after)) :
    ∃ gap : List UInt8, before = gap ++ after ∧ gap.length = count := by
  obtain ⟨gap, _, hBytes, hPure⟩ := bind_eq_ok_iff.mp hSkip
  obtain ⟨-, rfl⟩ := pure_eq_ok_iff.mp hPure
  exact ⟨gap, bytes_eq_ok_iff.mp hBytes⟩

theorem upTo_eq_ok {count : Nat} {read : List UInt8} (hUpTo : upTo count before = .ok (read, after)) :
    before = read ++ after := by
  obtain ⟨rfl, rfl⟩ := Prod.mk.inj (Except.ok.inj hUpTo)
  exact (List.take_append_drop count before).symm

theorem exists_of_many (hItem : item.Restores write) {count : Nat} {found all : Array α}
    (hMany : many item count found before = .ok (all, after)) :
    ∃ list : List α, all = found ++ list.toArray ∧ list.length = count ∧ before = list.flatMap write ++ after := by
  induction count generalizing found before with
  | zero =>
    obtain ⟨rfl, rfl⟩ := pure_eq_ok_iff.mp hMany
    exact ⟨[], by simp, rfl, rfl⟩
  | succ count ih =>
    obtain ⟨a, between, ha, hRest⟩ := bind_eq_ok_iff.mp hMany
    obtain ⟨list, rfl, rfl, rfl⟩ := ih hRest
    refine ⟨a :: list, by simp, rfl, ?_⟩
    rw [hItem _ _ _ ha, List.flatMap_cons, List.append_assoc]

theorem restores_counted (hItem : item.Restores write) :
    (counted item).Restores fun items => littleEndian 8 items.size ++ items.toList.flatMap write := by
  intro before items after hCounted
  obtain ⟨count, between, hCount, hMany⟩ := bind_eq_ok_iff.mp hCounted
  obtain ⟨list, rfl, rfl, rfl⟩ := exists_of_many hItem hMany
  rw [restores_number 8 _ _ _ hCount, Array.empty_append]
  exact (List.append_assoc ..).symm

/-- A section of words that are items in one way only. -/
theorem restores_words {pack : α → UInt64} (hItem : item.Restores fun a => littleEndian 8 (pack a).toNat) :
    (counted item).Restores fun items => IndexFile.words (items.toList.map pack) := by
  intro before items after hCounted
  dsimp only
  rw [IndexFile.words, List.length_map, Array.length_toList, List.flatMap_map]
  exact restores_counted hItem _ _ _ hCounted

end Load

namespace IndexFile
open Load

theorem restores_loadToken : loadToken.Restores fun t => littleEndian 8 t.pack.toNat := by
  intro before t after hToken
  obtain ⟨word, between, hWord, hToken⟩ := bind_eq_ok_iff.mp hToken
  obtain ⟨hUnpack, rfl⟩ := orFail_eq_ok_iff.mp hToken
  have hPack : t.pack.toNat = word := by
    rw [Token.pack_of_unpack? hUnpack, toNat_ofNat_of_lt (lt_of_number hWord)]
  dsimp only
  rw [hPack]
  exact restores_number 8 _ _ _ hWord

theorem restores_loadEntry : loadEntry.Restores fun entry => littleEndian 8 entry.pack.toNat := by
  intro before entry after hEntry
  obtain ⟨word, between, hWord, hEntry⟩ := bind_eq_ok_iff.mp hEntry
  obtain ⟨rfl, rfl⟩ := Load.pure_eq_ok_iff.mp hEntry
  have hPack : (CacheEntry.unpack (.ofNat word)).pack.toNat = word := by
    rw [CacheEntry.pack_unpack, toNat_ofNat_of_lt (lt_of_number hWord)]
  dsimp only
  rw [hPack]
  exact restores_number 8 _ _ _ hWord

def leafRecords (x : Index) : List UInt8 :=
  littleEndian 8 x.cache.leaves.size ++ x.cache.leaves.toList.flatMap fun token => littleEndian 4 token

def headerWith (x : Index) (kind : FileKind) (flags : UInt8) (spare : List UInt8) : List UInt8 :=
  magic ++ [UInt8.ofNat kind.version, .ofNat x.encoding.code] ++ [flags] ++
    [UInt8.ofNat x.maxDepth, .ofNat x.cache.levels] ++ spare ++
    (littleEndian 4 (x.root.getD noRoot) ++ littleEndian 8 0 ++ littleEndian 8 x.docLength)

def fileWith (x : Index) (flags : UInt8) (spare gap gap' : List UInt8) : List UInt8 :=
  headerWith x .combined flags spare ++ x.document.toList ++ gap ++
    (tokens x ++ upperLevels x ++ leafRecords x) ++ gap'

variable {x : Index} {kind : FileKind} {header : Header} {doc : ByteArray} {file before after : List UInt8}

theorem encode_eq_fileWith (x : Index) : x.encode .combined =
    fileWith x (.ofNat (flags x.namespaces .combined)) (zeros 3) (zeros (padding x.docLength))
      (zeros (padding (4 * x.cache.leaves.size))) := by
  simp only [Index.encode, IndexFile.header, headerWith, embedded, leaves, leafRecords, fileWith, FileKind.embeds,
    if_true, List.append_assoc, List.map_cons, List.map_nil, zeros]
  rfl

theorem settings_eq_ok_iff {version code flags depth levels : Nat} :
    settings before = .ok ((version, code, flags, depth, levels), after) ↔
      ∃ (v c f d l : UInt8) (spare : List UInt8), spare.length = 3 ∧
        before = [v, c, f, d, l] ++ spare ++ after ∧ version = v.toNat ∧ code = c.toNat ∧ flags = f.toNat ∧
          depth = d.toNat ∧ levels = l.toNat := by
  constructor
  · intro hSettings
    obtain ⟨read, between, hBytes, hRest⟩ := bind_eq_ok_iff.mp hSettings
    obtain ⟨rfl, hLength⟩ := bytes_eq_ok_iff.mp hBytes
    rcases read with _ | ⟨v, _ | ⟨c, _ | ⟨f, _ | ⟨d, _ | ⟨l, spare⟩⟩⟩⟩⟩
    all_goals cases hRest
    exact ⟨v, c, f, d, l, spare, by simpa using hLength, rfl, rfl, rfl, rfl, rfl, rfl⟩
  · rintro ⟨v, c, f, d, l, spare, hSpare, rfl, rfl, rfl, rfl, rfl, rfl⟩
    have hBytes : bytes 8 ([v, c, f, d, l] ++ spare ++ after) = .ok ([v, c, f, d, l] ++ spare, after) :=
      bytes_eq_ok_iff.mpr ⟨rfl, by simp [hSpare]⟩
    exact bind_eq_ok_iff.mpr ⟨_, _, hBytes, rfl⟩

/-- The flags that a header tells are the two lowest bits of their byte. -/
theorem ofNat_flags {byte : UInt8} (hEmbeds : (decide (byte.toNat / 2 % 2 = 1)) = kind.embeds) :
    UInt8.ofNat (flags (decide (byte.toNat % 2 = 1)) kind) = byte &&& 3 := by
  have hLow : byte.toNat &&& 3 = byte.toNat % 4 := Nat.and_two_pow_sub_one_eq_mod byte.toNat 2
  refine UInt8.toNat_inj.mp ?_
  rw [flags, ← hEmbeds, UInt8.toNat_and, UInt8.toNat_ofNat']
  change _ = byte.toNat &&& 3
  rw [hLow]
  by_cases hFirst : byte.toNat % 2 = 1 <;> by_cases hSecond : byte.toNat / 2 % 2 = 1 <;>
    simp only [hFirst, hSecond, decide_true, decide_false, Bool.toNat_true, Bool.toNat_false] <;> omega

structure Header.Describes (header : Header) (x : Index) : Prop where
  encoding_eq : x.encoding = header.encoding
  namespaces_eq : x.namespaces = header.namespaces
  maxDepth_eq : x.maxDepth = header.maxDepth
  levels_eq : x.cache.levels = header.levels.count
  root_eq : x.root = header.root
  docLength_eq : x.docLength = header.docLength

theorem header_of_loadHeader (hHeader : loadHeader file = .ok (header, after)) :
    ∃ (flagBits : UInt8) (spare : List UInt8), spare.length = 3 ∧
      (∀ x, header.Describes x → file = headerWith x header.kind flagBits spare ++ after) ∧
        UInt8.ofNat (flags header.namespaces header.kind) = flagBits &&& 3 := by
  unfold loadHeader at hHeader
  obtain ⟨mark, _, hMark, hHeader⟩ := bind_eq_ok_iff.mp hHeader
  obtain ⟨_, _, hMagic, hHeader⟩ := bind_eq_ok_iff.mp hHeader
  obtain ⟨⟨version, code, flagNumber, depth, levelCount⟩, _, hSettings, hHeader⟩ := bind_eq_ok_iff.mp hHeader
  obtain ⟨kind, _, hKind, hHeader⟩ := bind_eq_ok_iff.mp hHeader
  obtain ⟨encoding, _, hEncoding, hHeader⟩ := bind_eq_ok_iff.mp hHeader
  obtain ⟨levels, _, hLevels, hHeader⟩ := bind_eq_ok_iff.mp hHeader
  obtain ⟨root, _, hRoot, hHeader⟩ := bind_eq_ok_iff.mp hHeader
  obtain ⟨offset, _, hZero, hHeader⟩ := bind_eq_ok_iff.mp hHeader
  obtain ⟨_, _, hOffset, hHeader⟩ := bind_eq_ok_iff.mp hHeader
  obtain ⟨docLength, _, hLength, hHeader⟩ := bind_eq_ok_iff.mp hHeader
  obtain ⟨_, _, hEmbeds, hHeader⟩ := bind_eq_ok_iff.mp hHeader
  obtain ⟨rfl, rfl⟩ := Load.pure_eq_ok_iff.mp hHeader
  -- From the front on, the file before each action is put together from what the action has read.
  obtain ⟨rfl, -⟩ := bytes_eq_ok_iff.mp hMark
  obtain ⟨hSame, rfl⟩ := require_eq_ok_iff.mp hMagic
  obtain rfl := of_decide_eq_true hSame
  obtain ⟨v, c, f, d, l, spare, hSpare, rfl, rfl, rfl, rfl, rfl, rfl⟩ := settings_eq_ok_iff.mp hSettings
  obtain ⟨hKindFound, rfl⟩ := orFail_eq_ok_iff.mp hKind
  obtain ⟨hEncodingFound, rfl⟩ := orFail_eq_ok_iff.mp hEncoding
  obtain ⟨hLevelsFound, rfl⟩ := orFail_eq_ok_iff.mp hLevels
  obtain rfl := restores_number 4 _ _ _ hRoot
  obtain rfl := restores_number 8 _ _ _ hZero
  obtain ⟨hNull, rfl⟩ := require_eq_ok_iff.mp hOffset
  obtain rfl := of_decide_eq_true hNull
  obtain rfl := restores_number 8 _ _ _ hLength
  obtain ⟨hFlag, rfl⟩ := require_eq_ok_iff.mp hEmbeds
  refine ⟨f, spare, hSpare, fun x hDescribes => ?_, ofNat_flags ?_⟩
  · have hRootBack : (if root = noRoot then none else some root).getD noRoot = root := by
      split
      · exact Eq.symm ‹_›
      · rfl
    obtain ⟨hCode, -, hDepth, hCount, hRoot, hLength⟩ := hDescribes
    simp only [headerWith, hCode, hDepth, hCount, hRoot, hLength, FileKind.version_of_ofVersion? hKindFound,
      Encoding.code_of_ofCode?_eq_some hEncodingFound, CacheLevels.count_of_ofCount? hLevelsFound, hRootBack,
      UInt8.ofNat_toNat, List.append_assoc, List.cons_append, List.nil_append]
  · simpa using hFlag

theorem body_of_loadBody (hSize : doc.size = header.docLength) (hBody : loadBody header doc before = .ok (x, after)) :
    header.Describes x ∧ ∃ gap : List UInt8, gap.length = padding (4 * x.cache.leaves.size) ∧
      before = tokens x ++ (upperLevels x ++ (leafRecords x ++ (gap ++ after))) := by
  obtain ⟨tokens, _, hTokens, hBody⟩ := bind_eq_ok_iff.mp hBody
  obtain ⟨cache, _, hCache, hBody⟩ := bind_eq_ok_iff.mp hBody
  obtain ⟨_, _, hRoot, hBody⟩ := bind_eq_ok_iff.mp hBody
  obtain ⟨_, _, hInside, hBody⟩ := bind_eq_ok_iff.mp hBody
  obtain ⟨_, _, hLinks, hBody⟩ := bind_eq_ok_iff.mp hBody
  obtain ⟨rfl, rfl⟩ := Load.pure_eq_ok_iff.mp hBody
  obtain ⟨-, rfl⟩ := require_eq_ok_iff.mp hRoot
  obtain ⟨-, rfl⟩ := require_eq_ok_iff.mp hInside
  obtain ⟨-, rfl⟩ := lift_eq_ok_iff.mp hLinks
  obtain ⟨upper, _, hUpper, hCache⟩ := bind_eq_ok_iff.mp hCache
  obtain ⟨leaves, _, hLeaves, hCache⟩ := bind_eq_ok_iff.mp hCache
  obtain ⟨_, _, hGap, hCache⟩ := bind_eq_ok_iff.mp hCache
  obtain ⟨rfl, rfl⟩ := Load.pure_eq_ok_iff.mp hCache
  obtain ⟨gap, rfl, hGapLength⟩ := skip_eq_ok hGap
  obtain ⟨levels, rfl, hCount, rfl⟩ := exists_of_many (restores_words restores_loadEntry) hUpper
  have hLevels : levels.length + 1 = header.levels.count := by
    rw [hCount]
    cases header.levels <;> rfl
  refine ⟨⟨rfl, rfl, rfl, ?_, rfl, hSize⟩, gap, hGapLength, ?_⟩
  · simpa [LocationCache.levels] using hLevels
  · have hTokenBytes := restores_words restores_loadToken _ _ _ hTokens
    have hLeafBytes := restores_counted (restores_number 4) _ _ _ hLeaves
    simp only [hTokenBytes, hLeafBytes, IndexFile.tokens, upperLevels, leafRecords, Array.empty_append,
      List.append_assoc, Nat.zero_div, Token.rebase_zero]

/-- A file that is loaded has every byte but those that loading passes over from its index. -/
theorem fileWith_of_loadCombined (hLoad : loadCombined file = .ok (x, after)) :
    ∃ (flagBits : UInt8) (spare gap gap' : List UInt8), file = fileWith x flagBits spare gap gap' ++ after ∧
      UInt8.ofNat (flags x.namespaces .combined) = flagBits &&& 3 ∧ spare.length = 3 ∧
        gap.length = padding x.docLength ∧ gap'.length = padding (4 * x.cache.leaves.size) := by
  obtain ⟨header, _, hHeader, hLoad⟩ := bind_eq_ok_iff.mp hLoad
  obtain ⟨_, _, hEmbeds, hLoad⟩ := bind_eq_ok_iff.mp hLoad
  obtain ⟨document, _, hDocument, hLoad⟩ := bind_eq_ok_iff.mp hLoad
  obtain ⟨_, _, hSize, hLoad⟩ := bind_eq_ok_iff.mp hLoad
  obtain ⟨_, _, hGap, hBody⟩ := bind_eq_ok_iff.mp hLoad
  obtain ⟨hKind, rfl⟩ := require_eq_ok_iff.mp hEmbeds
  obtain ⟨hThere, rfl⟩ := require_eq_ok_iff.mp hSize
  obtain ⟨gap, rfl, hGapLength⟩ := skip_eq_ok hGap
  obtain ⟨hDescribes, gap', hGapLength', rfl⟩ := body_of_loadBody (of_decide_eq_true hThere) hBody
  obtain rfl := upTo_eq_ok hDocument
  obtain ⟨flagBits, spare, hSpare, hFile, hFlags⟩ := header_of_loadHeader hHeader
  have hLoaded := loadable_of_loadBody (bounded_of_loadHeader hHeader) (of_decide_eq_true hThere) hBody
  have hDocumentBytes : x.document.toList = document := by
    rw [document_eq hLoaded.1, hLoaded.2, toList_toByteArray]
  have hCombined : header.kind = .combined := by
    cases hHeaderKind : header.kind with
    | combined => rfl
    | separate => rw [hHeaderKind] at hKind; cases hKind
  refine ⟨flagBits, spare, gap, gap', ?_, ?_, hSpare, ?_, hGapLength'⟩
  · rw [hFile x hDescribes, hCombined, fileWith, hDocumentBytes]
    simp only [List.append_assoc]
  · rw [hDescribes.namespaces_eq, ← hCombined]
    exact hFlags
  · rw [hGapLength, hDescribes.docLength_eq, of_decide_eq_true hThere]

theorem length_words (items : List UInt64) : (words items).length = 8 + 8 * items.length := by
  simp [words, List.length_flatMap, length_littleEndian, List.map_const', Nat.mul_comm]

theorem length_tokens (x : Index) : (tokens x).length = 8 + 8 * x.tokens.size := by
  rw [tokens, length_words, List.length_map, Array.length_toList]

theorem length_upperLevels (x : Index) : (upperLevels x).length =
    x.cache.upper.foldl (fun total level => total + (8 + 8 * level.size)) 0 := by
  rw [upperLevels, List.length_flatMap, ← Array.foldl_toList, List.sum_eq_foldl_nat, List.foldl_map]
  simp only [length_words, List.length_map, Array.length_toList]

theorem length_leafRecords (x : Index) : (leafRecords x).length = 8 + 4 * x.cache.leaves.size := by
  simp [leafRecords, List.length_flatMap, length_littleEndian, List.map_const', Nat.mul_comm]

theorem length_headerWith {flagBits : UInt8} {spare : List UInt8} (hSpare : spare.length = 3) :
    (headerWith x kind flagBits spare).length = headerSize := by
  simp [headerWith, length_littleEndian, magic, headerSize, hSpare]

theorem length_fileWith {flagBits : UInt8} {spare gap gap' : List UInt8} (hSpare : spare.length = 3)
    (hGap : gap.length = padding x.docLength) (hGap' : gap'.length = padding (4 * x.cache.leaves.size))
    (hDocument : x.document.size = x.docLength) :
    (fileWith x flagBits spare gap gap').length = x.encodedSize .combined := by
  have hHeader := @length_headerWith x .combined flagBits _ hSpare
  simp only [fileWith, List.length_append, hHeader, length_toList, hDocument, hGap, hGap', length_tokens,
    length_upperLevels, length_leafRecords, Index.encodedSize, FileKind.embeds, if_true]
  omega

end IndexFile

namespace Index
open IndexFile

/-- The bits of a combined file that its index tells: all but the unused flags, the unused bytes of
the header, and the padding after the document and after the leaves. -/
def mask (x : Index) (i : Nat) : UInt8 :=
  if i = 6 then 3
  else if 9 ≤ i ∧ i < 12 then 0
  else if headerSize + x.docLength ≤ i ∧ i < headerSize + x.docLength + padding x.docLength then 0
  else if x.encodedSize .combined - padding (4 * x.cache.leaves.size) ≤ i then 0
  else 0xFF

def masked (mask : Nat → UInt8) (start : Nat) (bytes : List UInt8) : List UInt8 :=
  bytes.mapIdx fun i byte => byte &&& mask (start + i)

section
variable {mask : Nat → UInt8} {start : Nat} {bytes bytes' : List UInt8}

theorem masked_append {masked₁ masked₂ : List UInt8} (hFirst : masked mask start bytes = masked₁)
    (hSecond : masked mask (start + bytes.length) bytes' = masked₂) :
    masked mask start (bytes ++ bytes') = masked₁ ++ masked₂ := by
  rw [← hFirst, ← hSecond]
  simp [masked, List.mapIdx_append, Nat.add_left_comm, Nat.add_comm]

theorem masked_of_kept (hMask : ∀ i < bytes.length, mask (start + i) = 0xFF) : masked mask start bytes = bytes := by
  refine List.ext_getElem (by simp [masked]) fun i hi hi' => ?_
  simp only [masked, List.getElem_mapIdx, hMask i hi']
  exact UInt8.and_neg_one

theorem masked_of_dropped (hMask : ∀ i < bytes.length, mask (start + i) = 0) :
    masked mask start bytes = zeros bytes.length := by
  refine List.ext_getElem (by simp [masked, zeros]) fun i hi hi' => ?_
  simp only [masked, List.length_mapIdx] at hi
  simp [masked, zeros, hMask i hi]

end

variable {x : Index}

theorem mask_of_kept {i : Nat} (hFlags : i ≠ 6) (hSpare : i < 9 ∨ 12 ≤ i)
    (hGap : i < headerSize + x.docLength ∨ headerSize + x.docLength + padding x.docLength ≤ i)
    (hGap' : i < x.encodedSize .combined - padding (4 * x.cache.leaves.size)) : x.mask i = 0xFF := by
  rw [mask, if_neg hFlags, if_neg (by omega), if_neg (by omega), if_neg (by omega)]

theorem masked_headerWith {flagBits : UInt8} {spare : List UInt8} (hSpare : spare.length = 3)
    (hSize : headerSize ≤ x.encodedSize .combined - padding (4 * x.cache.leaves.size)) :
    masked x.mask 0 (headerWith x .combined flagBits spare) =
      headerWith x .combined (flagBits &&& 3) (zeros 3) := by
  have hMagic : magic.length = 4 := rfl
  have hHeaderSize : headerSize = 32 := rfl
  refine masked_append (masked_append (masked_append (masked_append (masked_append ?magic ?version) ?flags) ?levels)
    ?spare) ?places
  case flags => rfl
  case spare =>
    rw [← hSpare]
    refine masked_of_dropped fun i hi => ?_
    simp only [List.length_append, hMagic, List.length_cons, List.length_nil]
    rw [Index.mask, if_neg (by omega), if_pos (by omega)]
  all_goals
    refine masked_of_kept fun i hi => ?_
    simp only [List.length_append, length_littleEndian, hSpare, hMagic, List.length_cons, List.length_nil] at hi ⊢
    exact mask_of_kept (by omega) (by omega) (.inl (by omega)) (by omega)

theorem masked_fileWith {flagBits : UInt8} {spare gap gap' : List UInt8} (hSpare : spare.length = 3)
    (hGap : gap.length = padding x.docLength) (hGap' : gap'.length = padding (4 * x.cache.leaves.size))
    (hDocument : x.document.size = x.docLength) :
    masked x.mask 0 (fileWith x flagBits spare gap gap') =
      fileWith x (flagBits &&& 3) (zeros 3) (zeros (padding x.docLength))
        (zeros (padding (4 * x.cache.leaves.size))) := by
  have hSize := @length_fileWith x flagBits _ _ _ hSpare hGap hGap' hDocument
  have hHeader := @length_headerWith x .combined flagBits _ hSpare
  have hDocumentLength : x.document.toList.length = x.docLength := (length_toList _).trans hDocument
  rw [fileWith, List.length_append, List.length_append, List.length_append, List.length_append, hHeader,
    hDocumentLength, hGap, hGap'] at hSize
  have hHeaderSize : headerSize = 32 := rfl
  refine masked_append (masked_append (masked_append (masked_append ?header ?document) ?padding) ?records) ?remainder
  case header => exact masked_headerWith hSpare (by omega)
  case document =>
    refine masked_of_kept fun i hi => ?_
    rw [hHeader]
    exact mask_of_kept (by omega) (.inr (by omega)) (.inl (by omega)) (by omega)
  case padding =>
    rw [← hGap]
    refine masked_of_dropped fun i hi => ?_
    rw [List.length_append, hHeader, hDocumentLength, mask, if_neg (by omega), if_neg (by omega), if_pos (by omega)]
  case records =>
    refine masked_of_kept fun i hi => ?_
    rw [List.length_append, List.length_append, hHeader, hDocumentLength, hGap]
    exact mask_of_kept (by omega) (.inr (by omega)) (.inr (by omega)) (by omega)
  case remainder =>
    rw [← hGap']
    refine masked_of_dropped fun i hi => ?_
    rw [List.length_append, List.length_append, List.length_append, hHeader, hDocumentLength, hGap, mask,
      if_neg (by omega), if_neg (by omega), if_neg (by omega), if_pos (by omega)]

/-- Loading a file loses nothing of it but unused bits. -/
theorem encode_of_decode {file : List UInt8} (hOk : decode file = .ok x) :
    x.encodedSize .combined ≤ file.length ∧
      x.encode .combined = (file.take (x.encodedSize .combined)).mapIdx fun i byte => byte &&& x.mask i := by
  obtain ⟨after, hLoad⟩ := Load.exists_of_run hOk
  obtain ⟨flagBits, spare, gap, gap', rfl, hFlags, hSpare, hGap, hGap'⟩ := fileWith_of_loadCombined hLoad
  have hLoadable := loadable_of_loadCombined hLoad
  have hDocument : x.document.size = x.docLength := by
    rw [document_eq hLoadable, hLoadable.docLength_eq]
  have hSize := @length_fileWith x flagBits _ _ _ hSpare hGap hGap' hDocument
  rw [List.take_left' hSize, encode_eq_fileWith, hFlags, ← masked_fileWith hSpare hGap hGap' hDocument]
  refine ⟨?_, ?_⟩
  · rw [← hSize, List.length_append]
    exact Nat.le_add_right _ _
  · simp only [masked, Nat.zero_add]

/-- A file of `nested` with something in every byte and every bit that loading passes over. -/
def scribbled : List UInt8 :=
  magic ++ [1, 2, 0xFE, 1, 3, 7, 8, 9] ++ littleEndian 4 1 ++ littleEndian 8 0 ++ littleEndian 8 11 ++
    nested.document.toList ++ [1, 2, 3, 4, 5] ++ IndexFile.tokens nested ++ upperLevels nested ++ leaves nested ++ [6]

theorem encode_of_decode_scribbled : decode scribbled = .ok nested ∧
    nested.encode .combined =
      (scribbled.take (nested.encodedSize .combined)).mapIdx fun i byte => byte &&& nested.mask i := by
  have hOk : decode scribbled = .ok nested := by with_unfolding_all rfl
  exact ⟨hOk, (encode_of_decode hOk).2⟩

end Index
end XmlIndex
