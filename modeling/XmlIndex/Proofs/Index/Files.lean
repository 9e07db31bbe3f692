import XmlIndex.Proofs.Index.Loading

/-! # Files and the indexes they hold

An index is loadable if it is that of a whole buffer, all of it fits the fields of a file, and
everything in it points to something that is there. What is written of such an index is loaded as it
was, and whatever is loaded is such an index.
-/
namespace XmlIndex
set_option autoImplicit false

/-- All that a cache points to is there: tokens, and the first children of its entries. -/
structure LocationCache.Linked (cache : LocationCache) (tokenCount : Nat) : Prop where
  token_lt : ∀ level, ∀ entry ∈ cache.entries (level + 1), entry.token < tokenCount
  child_lt : ∀ level, ∀ entry ∈ cache.entries (level + 1), ∀ child, entry.firstChild = some child →
    child < cache.levelSize (level + 2)
  leaf_lt : ∀ token ∈ cache.leaves, token < tokenCount

theorem LocationCache.entries_succ {cache : LocationCache} {level : Nat} (hLevel : level < cache.upper.size) :
    cache.entries (level + 1) = cache.upper[level] := by
  rw [entries, Nat.add_sub_cancel, Array.getD_eq_getD_getElem?, Array.getElem?_eq_getElem hLevel]
  rfl

namespace IndexFile
variable {tokenCount : Nat}

theorem checkEntries_cons {nextSize : Nat} {entry : CacheEntry} {rest : List CacheEntry} :
    checkEntries tokenCount nextSize (entry :: rest) = .ok () ↔ (entry.token < tokenCount ∧
      ∀ child, entry.firstChild = some child → child < nextSize) ∧
        checkEntries tokenCount nextSize rest = .ok () := by
  rw [checkEntries]
  by_cases hToken : tokenCount ≤ entry.token
  · rw [if_pos hToken]
    exact ⟨nofun, fun h => absurd h.1.1 (Nat.not_lt.mpr hToken)⟩
  · rw [if_neg hToken]
    cases hFirst : entry.firstChild with
    | none => simp [Nat.not_le.mp hToken]
    | some child =>
      by_cases hChild : nextSize ≤ child
      · simp [hChild, Nat.not_lt.mpr hChild]
      · simp [hChild, Nat.not_le.mp hToken, Nat.not_le.mp hChild]

theorem checkEntries_eq_ok_iff {nextSize : Nat} {entries : List CacheEntry} :
    checkEntries tokenCount nextSize entries = .ok () ↔ ∀ entry ∈ entries, entry.token < tokenCount ∧
      ∀ child, entry.firstChild = some child → child < nextSize := by
  induction entries with
  | nil => exact ⟨fun _ => nofun, fun _ => rfl⟩
  | cons entry entries ih => rw [checkEntries_cons, List.forall_mem_cons, ih]

theorem checkLevels_cons {leafCount : Nat} {level : Array CacheEntry} {rest : List (Array CacheEntry)} :
    checkLevels tokenCount leafCount (level :: rest) = .ok () ↔
      checkEntries tokenCount ((rest.head?.map Array.size).getD leafCount) level.toList = .ok () ∧
        checkLevels tokenCount leafCount rest = .ok () := by
  cases rest <;>
  · conv => lhs; lhs; unfold checkLevels
    simp only [List.head?_nil, List.head?_cons, Option.map_none, Option.map_some, Option.getD_none,
      Option.getD_some]
    split <;> rename_i hEntries
    · exact ⟨nofun, fun h => nomatch hEntries.symm.trans h.1⟩
    · exact ⟨fun h => ⟨hEntries, h⟩, fun h => h.2⟩

/-- Every entry leads to a token, and to an entry of the level after its own. -/
theorem checkLevels_eq_ok_iff {leafCount : Nat} {levels : List (Array CacheEntry)} :
    checkLevels tokenCount leafCount levels = .ok () ↔ ∀ i (hi : i < levels.length),
      ∀ entry ∈ levels[i], entry.token < tokenCount ∧ ∀ child, entry.firstChild = some child →
        child < (levels[i + 1]?.map Array.size).getD leafCount := by
  induction levels with
  | nil => exact ⟨fun _ _ hi => absurd hi (Nat.not_lt_zero _), fun _ => rfl⟩
  | cons level rest ih =>
    rw [checkLevels_cons, checkEntries_eq_ok_iff, ih]
    constructor
    · rintro ⟨hLevel, hRest⟩ i hi
      cases i with
      | zero => simpa [List.head?_eq_getElem?] using hLevel
      | succ i => exact hRest i (Nat.lt_of_succ_lt_succ hi)
    · intro hAll
      refine ⟨?_, fun i hi => hAll (i + 1) (Nat.succ_lt_succ hi)⟩
      simpa [List.head?_eq_getElem?] using hAll 0 (Nat.zero_lt_succ _)

theorem checkCache_eq_ok_iff {cache : LocationCache} :
    checkCache tokenCount cache = .ok () ↔ cache.Linked tokenCount := by
  have hOutside {level : Nat} (hLevel : cache.upper.size ≤ level) : cache.entries (level + 1) = #[] := by
    rw [LocationCache.entries, Nat.add_sub_cancel, Array.getD_eq_getD_getElem?, Array.getElem?_eq_none hLevel]
    rfl
  have hNext {level : Nat} (hLevel : level < cache.upper.size) :
      (cache.upper.toList[level + 1]?.map Array.size).getD cache.leaves.size = cache.levelSize (level + 2) := by
    rw [LocationCache.levelSize, LocationCache.levels, Array.getElem?_toList]
    by_cases hLast : level + 1 < cache.upper.size
    · rw [if_neg (by omega), LocationCache.entries_succ hLast, Array.getElem?_eq_getElem hLast]
      rfl
    · rw [if_pos (by omega), Array.getElem?_eq_none (by omega)]
      rfl
  have hCheck : checkCache tokenCount cache = .ok () ↔
      checkLevels tokenCount cache.leaves.size cache.upper.toList = .ok () ∧
        ∀ token ∈ cache.leaves, token < tokenCount := by
    unfold checkCache
    split
    · rename_i hLevels
      exact ⟨nofun, fun h => nomatch hLevels.symm.trans h.1⟩
    · rename_i hLevels
      have hLeaves : (cache.leaves.any (tokenCount ≤ ·)) = false ↔ ∀ token ∈ cache.leaves, token < tokenCount := by
        simp only [Array.any_eq_false', decide_eq_true_eq, Nat.not_le]
      rw [hLevels, ← hLeaves]
      cases cache.leaves.any (tokenCount ≤ ·)
      · exact ⟨fun _ => ⟨rfl, rfl⟩, fun _ => rfl⟩
      · exact ⟨nofun, nofun⟩
  rw [hCheck, checkLevels_eq_ok_iff]
  constructor
  · rintro ⟨hUpper, hLeaves⟩
    have hAll : ∀ level, ∀ entry ∈ cache.entries (level + 1), entry.token < tokenCount ∧
        ∀ child, entry.firstChild = some child → child < cache.levelSize (level + 2) := by
      intro level entry hEntry
      by_cases hLevel : level < cache.upper.size
      · rw [LocationCache.entries_succ hLevel] at hEntry
        exact hNext hLevel ▸ hUpper level hLevel entry hEntry
      · rw [hOutside (Nat.not_lt.mp hLevel)] at hEntry
        exact absurd hEntry (Array.not_mem_empty entry)
    exact ⟨fun level entry h => (hAll level entry h).1, fun level entry h => (hAll level entry h).2, hLeaves⟩
  · rintro ⟨hToken, hChild, hLeaf⟩
    refine ⟨fun level hLevel entry hEntry => ?_, hLeaf⟩
    have hMem : entry ∈ cache.entries (level + 1) := by
      rw [LocationCache.entries_succ hLevel]
      exact hEntry
    exact ⟨hToken level entry hMem, hNext hLevel ▸ hChild level entry hMem⟩

end IndexFile

/-- The index of a whole buffer, all of which fits a file and points to what is there. -/
structure Index.Loadable (x : Index) : Prop where
  docOffset_eq : x.docOffset = 0
  docLength_eq : x.docLength = x.buffer.size
  size_lt : x.buffer.size < 0x10000000000000000
  maxDepth_lt : x.maxDepth < 0x100
  levels : ∃ levels : CacheLevels, x.cache.levels = levels.count
  root_lt : ∀ root, x.root = some root → root < x.tokens.size ∧ root < IndexFile.noRoot
  tokens_storable : ∀ t ∈ x.tokens, t.Storable
  tokens_inside : ∀ t ∈ x.tokens, (t.offset + t.length) * x.encoding.unitSize ≤ x.buffer.size
  tokens_lt : x.tokens.size < 0x10000000000000000
  cache_linked : x.cache.Linked x.tokens.size
  upper_storable : ∀ level ∈ x.cache.upper,
    level.size < 0x10000000000000000 ∧ ∀ entry ∈ level, entry.Storable
  leaves_lt : x.cache.leaves.size < 0x10000000000000000
  leaves_storable : ∀ token ∈ x.cache.leaves, token < 0x100000000

theorem CacheLevels.ofCount?_count (levels : CacheLevels) : ofCount? levels.count = some levels := by
  cases levels <;> rfl

theorem CacheLevels.count_lt (levels : CacheLevels) : levels.count < 0x100 := by
  cases levels <;> decide

theorem FileKind.ofVersion?_version (kind : FileKind) : ofVersion? kind.version = some kind := by
  cases kind <;> rfl

theorem Encoding.code_lt (e : Encoding) : e.code < 0x100 := by
  cases e with
  | utf16 order => cases order <;> decide
  | _ => decide

theorem padding_lt (length : Nat) : IndexFile.padding length < 8 :=
  Nat.mod_lt _ (by decide)

namespace IndexFile
open Load
variable {x : Index} {kind : FileKind} {levels : CacheLevels}

def headerOf (x : Index) (kind : FileKind) (levels : CacheLevels) : Header where
  kind
  encoding := x.encoding
  namespaces := x.namespaces
  maxDepth := x.maxDepth
  levels
  root := x.root
  docLength := x.docLength

theorem reads_settings (hDepth : x.maxDepth < 0x100) (hLevels : x.cache.levels < 0x100) :
    settings.Reads ([kind.version, x.encoding.code, flags x.namespaces kind, x.maxDepth, x.cache.levels,
      0, 0, 0].map UInt8.ofNat)
      (kind.version, x.encoding.code, flags x.namespaces kind, x.maxDepth, x.cache.levels) := by
  have hVersion : kind.version < 0x100 := by cases kind <;> decide
  have hFlags : flags x.namespaces kind < 0x100 := by
    cases x.namespaces <;> cases kind <;> decide
  have hCode := x.encoding.code_lt
  have hByte {n : Nat} (hSmall : n < 0x100) : (UInt8.ofNat n).toNat = n := by
    rw [UInt8.toNat_ofNat', Nat.mod_eq_of_lt hSmall]
  have hBytes : (bytes 8).Reads ([kind.version, x.encoding.code, flags x.namespaces kind, x.maxDepth,
    x.cache.levels, 0, 0, 0].map UInt8.ofNat) _ := reads_bytes rfl
  intro after
  rw [settings, bind_eq_ok_iff]
  refine ⟨_, _, hBytes after, ?_⟩
  simp only [List.map_cons, hByte hVersion, hByte hCode, hByte hFlags, hByte hDepth, hByte hLevels]
  rfl

theorem reads_loadHeader (hLoadable : x.Loadable) (hLevels : x.cache.levels = levels.count) :
    loadHeader.Reads (header x kind) (headerOf x kind levels) := by
  have hRoot : x.root.getD noRoot < 256 ^ 4 := by
    cases hRoot : x.root with
    | none => decide
    | some root => exact Nat.lt_trans (hLoadable.root_lt root hRoot).2 (by decide)
  have hLength : x.docLength < 256 ^ 8 := hLoadable.docLength_eq ▸ hLoadable.size_lt
  have hEmbeds : flags x.namespaces kind / 2 % 2 = kind.embeds.toNat := by
    cases x.namespaces <;> cases kind <;> rfl
  have hNamespaces : decide (flags x.namespaces kind % 2 = 1) = x.namespaces := by
    cases x.namespaces <;> cases kind <;> rfl
  have hRootBack : (if x.root.getD noRoot = noRoot then none else some (x.root.getD noRoot)) = x.root := by
    cases hRoot : x.root with
    | none => rfl
    | some root => exact if_neg (Nat.ne_of_lt (hLoadable.root_lt root hRoot).2)
  simp only [header, List.append_assoc]
  unfold loadHeader
  refine (reads_bytes (show magic.length = 4 from rfl)).bind ?_
  refine Reads.bind_nil (reads_require (decide_eq_true rfl)) ?_
  refine (reads_settings hLoadable.maxDepth_lt (hLevels ▸ levels.count_lt)).bind ?_
  simp only [FileKind.ofVersion?_version, Encoding.ofCode?_code, hLevels, CacheLevels.ofCount?_count]
  refine .bind_nil reads_orFail (.bind_nil reads_orFail (.bind_nil reads_orFail ?_))
  refine (reads_number hRoot).bind ((reads_number (by decide)).bind (.bind_nil (reads_require rfl) ?_))
  rw [← List.append_nil (littleEndian 8 x.docLength)]
  refine (reads_number hLength).bind (.bind_nil (reads_require ?_) ?_)
  · rw [hEmbeds]
    cases kind <;> rfl
  · rw [hNamespaces, hRootBack]
    exact reads_pure

theorem reads_word (word : UInt64) :
    (number 8).Reads (littleEndian 8 word.toNat) word.toNat :=
  reads_number word.toNat_lt

theorem reads_loadToken {t : Token} (hStorable : t.Storable) :
    loadToken.Reads (littleEndian 8 t.pack.toNat) t := by
  rw [← List.append_nil (littleEndian 8 t.pack.toNat)]
  refine (reads_word t.pack).bind ?_
  rw [UInt64.ofNat_toNat, Token.unpack?_pack hStorable]
  exact reads_orFail

theorem reads_loadEntry {entry : CacheEntry} (hStorable : entry.Storable) :
    loadEntry.Reads (littleEndian 8 entry.pack.toNat) entry := by
  have hEntry := (reads_word entry.pack).bind_pure fun n => CacheEntry.unpack (.ofNat n)
  rwa [UInt64.ofNat_toNat, CacheEntry.unpack_pack hStorable] at hEntry

/-- A section of words, one for each item. -/
theorem reads_words {α : Type} {item : Load α} {pack : α → UInt64} {items : Array α}
    (hItems : ∀ a ∈ items, item.Reads (littleEndian 8 (pack a).toNat) a)
    (hCount : items.size < 0x10000000000000000) :
    (counted item).Reads (words (items.toList.map pack)) items := by
  have hAll := reads_counted hItems hCount
  rwa [words, List.length_map, Array.length_toList, List.flatMap_map]

theorem reads_loadCache (hLoadable : x.Loadable) (hLevels : x.cache.levels = levels.count) :
    (loadCache levels).Reads (upperLevels x ++ leaves x) x.cache := by
  have hUpper : (many (counted loadEntry) x.cache.upper.toList.length #[]).Reads (upperLevels x)
      (#[] ++ x.cache.upper.toList.toArray) := by
    refine reads_many fun level hLevel => ?_
    obtain ⟨hCount, hEntries⟩ := hLoadable.upper_storable level (Array.mem_toList_iff.mp hLevel)
    exact reads_words (fun entry hEntry => reads_loadEntry (hEntries entry hEntry)) hCount
  have hLeaves : (counted (number 4)).Reads (littleEndian 8 x.cache.leaves.size ++
      (x.cache.leaves.toList.flatMap fun token => littleEndian 4 token)) x.cache.leaves :=
    reads_counted (fun token hToken => reads_number (hLoadable.leaves_storable token hToken))
      hLoadable.leaves_lt
  have hCount : x.cache.upper.toList.length = levels.count - 1 := by
    rw [← hLevels, LocationCache.levels, Nat.add_sub_cancel, Array.length_toList]
  rw [hCount] at hUpper
  refine hUpper.bind (hLeaves.bind ?_)
  rw [Array.toArray_toList, Array.empty_append]
  exact (reads_skip List.length_replicate).bind_pure fun _ => x.cache

theorem reads_loadBody (hLoadable : x.Loadable) (hLevels : x.cache.levels = levels.count) :
    (loadBody (headerOf x kind levels) x.buffer).Reads (tokens x ++ (upperLevels x ++ leaves x)) x := by
  have hTokens : (counted loadToken).Reads (tokens x) x.tokens := by
    simp only [tokens, hLoadable.docOffset_eq, Nat.zero_div, Token.rebase_zero]
    exact reads_words (fun t ht => reads_loadToken (hLoadable.tokens_storable t ht)) hLoadable.tokens_lt
  have hRoot : x.root.all (· < x.tokens.size) = true := by
    cases hRoot : x.root with
    | none => rfl
    | some root => exact decide_eq_true (hLoadable.root_lt root hRoot).1
  have hInside : x.tokens.all (inDocument x.encoding x.buffer.size) = true :=
    Array.all_eq_true'.mpr fun t ht => decide_eq_true (hLoadable.tokens_inside t ht)
  refine hTokens.bind ?_
  rw [← List.append_nil (upperLevels x ++ leaves x)]
  refine (reads_loadCache hLoadable hLevels).bind (.bind_nil (reads_require hRoot)
    (.bind_nil (reads_require hInside) (.bind_nil (reads_lift (checkCache_eq_ok_iff.mpr hLoadable.cache_linked)) ?_)))
  have hSame : x = { x with docOffset := 0, docLength := x.buffer.size } := by
    rw [← hLoadable.docOffset_eq, ← hLoadable.docLength_eq]
  conv => rhs; rw [hSame]
  exact reads_pure

theorem document_eq (hLoadable : x.Loadable) : x.document = x.buffer := by
  rw [Index.document, hLoadable.docOffset_eq, hLoadable.docLength_eq, Nat.zero_add]
  exact ByteArray.extract_zero_size

theorem embedded_eq (hLoadable : x.Loadable) :
    embedded x .combined = x.buffer.toList ++ zeros (padding x.buffer.size) := by
  rw [← hLoadable.docLength_eq, ← document_eq hLoadable]
  rfl

theorem reads_loadCombined (hLoadable : x.Loadable) : loadCombined.Reads (x.encode .combined) x := by
  obtain ⟨levels, hLevels⟩ := hLoadable.levels
  have hLength : x.buffer.toList.length = x.docLength := by
    rw [length_toList, hLoadable.docLength_eq]
  rw [Index.encode, embedded_eq hLoadable]
  simp only [List.append_assoc]
  refine (reads_loadHeader hLoadable hLevels).bind (.bind_nil (reads_require rfl) ?_)
  refine (reads_upTo hLength).bind ?_
  rw [toByteArray_toList]
  refine .bind_nil (reads_require (decide_eq_true hLoadable.docLength_eq.symm)) ?_
  exact (reads_skip List.length_replicate).bind (reads_loadBody hLoadable hLevels)

theorem reads_loadSeparate (hLoadable : x.Loadable) (kind : FileKind) :
    (loadSeparate x.document).Reads (x.encode kind) x := by
  obtain ⟨levels, hLevels⟩ := hLoadable.levels
  have hLength : x.buffer.toList.length = x.docLength := by
    rw [length_toList, hLoadable.docLength_eq]
  have hSkip : (skipDocument (headerOf x kind levels)).Reads (embedded x kind) () := by
    cases kind with
    | separate => exact reads_pure
    | combined =>
      rw [embedded_eq hLoadable]
      refine (reads_upTo hLength).bind (.bind_nil (reads_require (decide_eq_true hLength)) ?_)
      rw [← hLoadable.docLength_eq]
      exact reads_skip List.length_replicate
  rw [Index.encode, document_eq hLoadable]
  simp only [List.append_assoc]
  refine (reads_loadHeader hLoadable hLevels).bind ?_
  refine .bind_nil (reads_require (decide_eq_true hLoadable.docLength_eq.symm)) ?_
  exact hSkip.bind (reads_loadBody hLoadable hLevels)

variable {header : Header} {doc : ByteArray} {before after : List UInt8}

theorem settings_bounds {version code flags depth levelCount : Nat}
    (hSettings : settings before = .ok ((version, code, flags, depth, levelCount), after)) :
    depth < 0x100 := by
  obtain ⟨read, between, -, hRest⟩ := bind_eq_ok_iff.mp hSettings
  rcases read with _ | ⟨b₀, _ | ⟨b₁, _ | ⟨b₂, _ | ⟨b₃, _ | ⟨b₄, read⟩⟩⟩⟩⟩
  all_goals cases hRest
  exact b₃.toNat_lt

structure Header.Bounded (header : Header) : Prop where
  maxDepth_lt : header.maxDepth < 0x100
  root_lt : ∀ root, header.root = some root → root < noRoot
  docLength_lt : header.docLength < 0x10000000000000000

theorem bounded_of_loadHeader (hHeader : loadHeader before = .ok (header, after)) : header.Bounded := by
  unfold loadHeader at hHeader
  obtain ⟨_, _, -, hHeader⟩ := bind_eq_ok_iff.mp hHeader
  obtain ⟨_, _, -, hHeader⟩ := bind_eq_ok_iff.mp hHeader
  obtain ⟨⟨version, code, flags, depth, levelCount⟩, _, hSettings, hHeader⟩ := bind_eq_ok_iff.mp hHeader
  obtain ⟨kind, _, -, hHeader⟩ := bind_eq_ok_iff.mp hHeader
  obtain ⟨encoding, _, -, hHeader⟩ := bind_eq_ok_iff.mp hHeader
  obtain ⟨levels, _, -, hHeader⟩ := bind_eq_ok_iff.mp hHeader
  obtain ⟨root, _, hRoot, hHeader⟩ := bind_eq_ok_iff.mp hHeader
  obtain ⟨_, _, -, hHeader⟩ := bind_eq_ok_iff.mp hHeader
  obtain ⟨_, _, -, hHeader⟩ := bind_eq_ok_iff.mp hHeader
  obtain ⟨docLength, _, hLength, hHeader⟩ := bind_eq_ok_iff.mp hHeader
  obtain ⟨_, _, -, hHeader⟩ := bind_eq_ok_iff.mp hHeader
  obtain ⟨rfl, -⟩ := Load.pure_eq_ok_iff.mp hHeader
  refine ⟨settings_bounds hSettings, ?_, lt_of_number hLength⟩
  intro found hFound
  have hSmall := lt_of_number hRoot
  simp only at hFound
  split at hFound
  · cases hFound
  · obtain rfl := Option.some.inj hFound
    unfold noRoot at *
    omega

theorem storable_of_loadToken {t : Token} (hToken : loadToken before = .ok (t, after)) : t.Storable := by
  obtain ⟨word, _, -, hToken⟩ := bind_eq_ok_iff.mp hToken
  exact Token.storable_of_unpack? (orFail_eq_ok_iff.mp hToken).1

theorem storable_of_loadEntry {entry : CacheEntry} (hEntry : loadEntry before = .ok (entry, after)) :
    entry.Storable := by
  obtain ⟨word, _, -, hEntry⟩ := bind_eq_ok_iff.mp hEntry
  obtain ⟨rfl, -⟩ := Load.pure_eq_ok_iff.mp hEntry
  exact CacheEntry.storable_unpack _

theorem loadable_of_loadBody (hBounded : header.Bounded) (hSize : doc.size = header.docLength)
    (hBody : loadBody header doc before = .ok (x, after)) : x.Loadable ∧ x.buffer = doc := by
  obtain ⟨tokens, _, hTokens, hBody⟩ := bind_eq_ok_iff.mp hBody
  obtain ⟨cache, _, hCache, hBody⟩ := bind_eq_ok_iff.mp hBody
  obtain ⟨_, _, hRoot, hBody⟩ := bind_eq_ok_iff.mp hBody
  obtain ⟨_, _, hInside, hBody⟩ := bind_eq_ok_iff.mp hBody
  obtain ⟨_, _, hLinks, hBody⟩ := bind_eq_ok_iff.mp hBody
  obtain ⟨rfl, -⟩ := Load.pure_eq_ok_iff.mp hBody
  obtain ⟨hTokens, hTokenCount⟩ := forall_of_counted storable_of_loadToken hTokens
  obtain ⟨upper, _, hUpper, hCache⟩ := bind_eq_ok_iff.mp hCache
  obtain ⟨leaves, _, hLeaves, hCache⟩ := bind_eq_ok_iff.mp hCache
  obtain ⟨_, _, -, hCache⟩ := bind_eq_ok_iff.mp hCache
  obtain ⟨rfl, -⟩ := Load.pure_eq_ok_iff.mp hCache
  obtain ⟨hUpper, hUpperCount⟩ := forall_of_many
    (fun hLevel => (forall_of_counted storable_of_loadEntry hLevel).symm) (by simp) hUpper
  obtain ⟨hLeaves, hLeafCount⟩ := forall_of_counted lt_of_number hLeaves
  rw [Array.size_empty, Nat.zero_add] at hUpperCount
  have hLevels : LocationCache.levels ⟨upper, leaves⟩ = header.levels.count := by
    rw [LocationCache.levels, hUpperCount]
    cases header.levels <;> rfl
  refine ⟨?_, rfl⟩
  exact
    { docOffset_eq := rfl
      docLength_eq := rfl
      size_lt := hSize ▸ hBounded.docLength_lt
      maxDepth_lt := hBounded.maxDepth_lt
      levels := ⟨header.levels, hLevels⟩
      root_lt := fun root hSome => by
        rw [show header.root = some root from hSome] at hRoot
        exact ⟨of_decide_eq_true (require_eq_ok_iff.mp hRoot).1, hBounded.root_lt root hSome⟩
      tokens_storable := hTokens
      tokens_inside := fun t ht =>
        of_decide_eq_true (Array.all_eq_true'.mp (require_eq_ok_iff.mp hInside).1 t ht)
      tokens_lt := hTokenCount
      cache_linked := checkCache_eq_ok_iff.mp (lift_eq_ok_iff.mp hLinks).1
      upper_storable := hUpper
      leaves_lt := hLeafCount
      leaves_storable := hLeaves }

theorem loadable_of_loadCombined (hLoad : loadCombined before = .ok (x, after)) : x.Loadable := by
  obtain ⟨header, _, hHeader, hLoad⟩ := bind_eq_ok_iff.mp hLoad
  obtain ⟨_, _, -, hLoad⟩ := bind_eq_ok_iff.mp hLoad
  obtain ⟨embedded, _, -, hLoad⟩ := bind_eq_ok_iff.mp hLoad
  obtain ⟨_, _, hSize, hLoad⟩ := bind_eq_ok_iff.mp hLoad
  obtain ⟨_, _, -, hLoad⟩ := bind_eq_ok_iff.mp hLoad
  exact (loadable_of_loadBody (bounded_of_loadHeader hHeader)
    (of_decide_eq_true (require_eq_ok_iff.mp hSize).1) hLoad).1

theorem loadable_of_loadSeparate (hLoad : loadSeparate doc before = .ok (x, after)) :
    x.Loadable ∧ x.buffer = doc := by
  obtain ⟨header, _, hHeader, hLoad⟩ := bind_eq_ok_iff.mp hLoad
  obtain ⟨_, _, hSize, hLoad⟩ := bind_eq_ok_iff.mp hLoad
  obtain ⟨_, _, -, hLoad⟩ := bind_eq_ok_iff.mp hLoad
  exact loadable_of_loadBody (bounded_of_loadHeader hHeader)
    (of_decide_eq_true (require_eq_ok_iff.mp hSize).1) hLoad

end IndexFile

namespace Index
variable {x : Index}

/-- A combined file holds the whole index. -/
theorem decode_encode (hLoadable : x.Loadable) : decode (x.encode .combined) = .ok x :=
  (IndexFile.reads_loadCombined hLoadable).run_eq

/-- A file of either kind holds the whole index but for the document. -/
theorem decodeWith_encode (hLoadable : x.Loadable) (kind : FileKind) :
    decodeWith x.document (x.encode kind) = .ok x :=
  (IndexFile.reads_loadSeparate hLoadable kind).run_eq

theorem loadable_of_decode {file : List UInt8} (hOk : decode file = .ok x) : x.Loadable := by
  obtain ⟨after, hLoad⟩ := Load.exists_of_run hOk
  exact IndexFile.loadable_of_loadCombined hLoad

theorem loadable_of_decodeWith {doc : ByteArray} {file : List UInt8} (hOk : decodeWith doc file = .ok x) :
    x.Loadable ∧ x.buffer = doc := by
  obtain ⟨after, hLoad⟩ := Load.exists_of_run hOk
  exact IndexFile.loadable_of_loadSeparate hLoad

theorem size_rawBytes {t : Token} (hInside : (t.offset + t.length) * x.encoding.unitSize ≤ x.buffer.size) :
    (x.rawBytes t).size = t.length * x.encoding.unitSize := by
  rw [Nat.add_mul] at hInside
  rw [rawBytes, ByteArray.size_extract, Nat.min_eq_left hInside, Nat.add_sub_cancel_left]

/-- The index of `<a><b/></a>`. -/
def nested : Index where
  buffer := [0x3C, 0x61, 0x3E, 0x3C, 0x62, 0x2F, 0x3E, 0x3C, 0x2F, 0x61, 0x3E].toByteArray
  docOffset := 0
  docLength := 11
  encoding := .utf8
  namespaces := false
  maxDepth := 1
  root := some 1
  tokens := #[⟨.document, -1, 0, 0⟩, ⟨.startTag, 0, 1, 1⟩, ⟨.startTag, 1, 4, 1⟩]
  cache := ⟨#[#[⟨2, none⟩], #[]], #[]⟩

theorem nested_loadable : nested.Loadable := by
  have hSize : nested.buffer.size = 11 := List.size_toByteArray
  have hTokens : ∀ t ∈ nested.tokens, t.Storable ∧ (t.offset + t.length) * 1 ≤ 11 := by
    simp only [nested, List.mem_toArray, List.forall_mem_cons, List.not_mem_nil]
    exact ⟨⟨⟨by decide, by decide, by decide, by decide⟩, by decide⟩,
      ⟨⟨by decide, by decide, by decide, by decide⟩, by decide⟩,
      ⟨⟨by decide, by decide, by decide, by decide⟩, by decide⟩, nofun⟩
  have hUpper : ∀ level ∈ nested.cache.upper, level.size < 0x10000000000000000 ∧
      ∀ entry ∈ level, entry = ⟨2, none⟩ := by
    simp [nested]
  have hEntries : ∀ level, ∀ entry ∈ nested.cache.entries (level + 1), entry = ⟨2, none⟩ := by
    intro level entry hEntry
    rw [LocationCache.entries, Array.getD_eq_getD_getElem?] at hEntry
    cases hLevel : nested.cache.upper[level + 1 - 1]? with
    | none =>
      rw [hLevel] at hEntry
      cases Array.not_mem_empty entry hEntry
    | some found =>
      rw [hLevel] at hEntry
      exact (hUpper found (Array.mem_of_getElem? hLevel)).2 entry hEntry
  exact
    { docOffset_eq := rfl
      docLength_eq := hSize.symm
      size_lt := by rw [hSize]; decide
      maxDepth_lt := by decide
      levels := ⟨.three, rfl⟩
      root_lt := fun _ hRoot => Option.some.inj hRoot ▸ ⟨by decide, by decide⟩
      tokens_storable := fun t ht => (hTokens t ht).1
      tokens_inside := fun t ht => hSize ▸ (hTokens t ht).2
      tokens_lt := by decide
      cache_linked :=
        { token_lt := fun level entry h => hEntries level entry h ▸ by decide
          child_lt := fun level entry h child hChild => by
            rw [hEntries level entry h] at hChild
            cases hChild
          leaf_lt := nofun }
      upper_storable := fun level hLevel => ⟨(hUpper level hLevel).1, fun entry hEntry =>
        (hUpper level hLevel).2 entry hEntry ▸ ⟨by decide, nofun⟩⟩
      leaves_lt := by decide
      leaves_storable := nofun }

end Index
end XmlIndex
