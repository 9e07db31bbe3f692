import Mathlib.Algebra.BigOperators.Ring.List
import XmlIndex.Proofs.Index.Reencoding
import XmlIndex.Proofs.Parse.Truncation

/-! # Where the sections of a file stand

The size of a file and the places of its sections follow from four numbers and the sizes of the upper levels,
without a byte of it being written. All of them are multiples of eight: the header and every record of a
token or an entry are, and the document and the leaves are padded.
-/
namespace XmlIndex
set_option autoImplicit false

namespace IndexFile

/-- The tokens come after the header, and after the document with its padding if that is embedded. -/
def tokensStart (x : Index) (kind : FileKind) : Nat :=
  headerSize + if kind.embeds then x.docLength + padding x.docLength else 0

def levelStart (x : Index) (kind : FileKind) (count : Nat) : Nat :=
  tokensStart x kind + (8 + 8 * x.tokens.size) +
    ((x.cache.upper.toList.take count).map fun level => 8 + 8 * level.size).sum

def leavesStart (x : Index) (kind : FileKind) : Nat :=
  levelStart x kind x.cache.upper.size

/-- The section stands in the file at a place that is a multiple of eight. -/
def StandsAt (file part : List UInt8) (place : Nat) : Prop :=
  part <+: file.drop place ∧ 8 ∣ place

def level (entries : Array CacheEntry) : List UInt8 :=
  words (entries.toList.map CacheEntry.pack)

variable {x : Index} {kind : FileKind} {count : Nat}

theorem dvd_add_padding (length : Nat) : 8 ∣ length + padding length := by
  unfold padding
  omega

theorem dvd_tokensStart : 8 ∣ tokensStart x kind := by
  unfold tokensStart headerSize
  split
  · exact Nat.dvd_add (by decide) (dvd_add_padding x.docLength)
  · decide

theorem dvd_levelStart : 8 ∣ levelStart x kind count := by
  refine Nat.dvd_add (Nat.dvd_add dvd_tokensStart (by omega)) (List.dvd_sum ?_)
  intro size hSize
  obtain ⟨entries, -, rfl⟩ := List.mem_map.mp hSize
  omega

theorem length_level (entries : Array CacheEntry) : (level entries).length = 8 + 8 * entries.size := by
  rw [level, length_words, List.length_map, Array.length_toList]

theorem length_levels (levels : List (Array CacheEntry)) :
    (levels.flatMap level).length = (levels.map fun entries => 8 + 8 * entries.size).sum := by
  simp only [List.length_flatMap, length_level]

theorem length_leaves (x : Index) : (leaves x).length =
    8 + (4 * x.cache.leaves.size + padding (4 * x.cache.leaves.size)) := by
  have hLeaves : leaves x = leafRecords x ++ zeros (padding (4 * x.cache.leaves.size)) := rfl
  rw [hLeaves, List.length_append, length_leafRecords, zeros, List.length_replicate, Nat.add_assoc]

theorem upperLevels_eq (x : Index) : upperLevels x = x.cache.upper.toList.flatMap level :=
  rfl

theorem take_upper (x : Index) : x.cache.upper.toList.take x.cache.upper.size = x.cache.upper.toList := by
  rw [← Array.length_toList, List.take_length]

theorem encodedSize_eq (x : Index) (kind : FileKind) : x.encodedSize kind =
    leavesStart x kind + (8 + (4 * x.cache.leaves.size + padding (4 * x.cache.leaves.size))) := by
  have hUpper : x.cache.upper.foldl (fun total entries => total + (8 + 8 * entries.size)) 0 =
      (x.cache.upper.toList.map fun entries => 8 + 8 * entries.size).sum := by
    rw [← length_upperLevels, upperLevels_eq, length_levels]
  rw [Index.encodedSize, hUpper, leavesStart, levelStart, take_upper, tokensStart]
  simp only [Nat.add_assoc]

theorem encode_eq (x : Index) (kind : FileKind) : x.encode kind =
    header x kind ++ embedded x kind ++ tokens x ++
      (x.cache.upper.toList.take x.cache.upper.size).flatMap level ++ leaves x := by
  rw [take_upper]
  rfl

theorem StandsAt.of_append {file before part after : List UInt8} {place : Nat}
    (hFile : file = before ++ (part ++ after)) (hPlace : before.length = place) (hAligned : 8 ∣ place) :
    StandsAt file part place := by
  refine ⟨?_, hAligned⟩
  rw [hFile, List.drop_left' hPlace]
  exact List.prefix_append part after

section Embedded

-- A document that is to be embedded has to be there: what is missing of it is not written.
variable (hRange : kind.embeds = true → x.docOffset + x.docLength ≤ x.buffer.size)
include hRange

theorem length_embedded : (embedded x kind).length = if kind.embeds then x.docLength + padding x.docLength else 0 := by
  unfold embedded
  split
  · rename_i hEmbeds
    have hDocument : x.document.size = x.docLength := by
      rw [Index.document, ByteArray.size_extract, Nat.min_eq_left (hRange hEmbeds), Nat.add_sub_cancel_left]
    rw [List.length_append, length_toList, hDocument, zeros, List.length_replicate]
  · rfl

theorem length_before_tokens : (header x kind ++ embedded x kind).length = tokensStart x kind := by
  rw [List.length_append, length_header, length_embedded hRange, tokensStart]

theorem length_before_level (count : Nat) :
    (header x kind ++ embedded x kind ++ tokens x ++ (x.cache.upper.toList.take count).flatMap level).length =
      levelStart x kind count := by
  rw [List.length_append, List.length_append, length_before_tokens hRange, length_tokens, length_levels, levelStart]

theorem standsAt_tokens : StandsAt (x.encode kind) (tokens x) (tokensStart x kind) := by
  apply StandsAt.of_append _ (length_before_tokens hRange) dvd_tokensStart
  · exact upperLevels x ++ leaves x
  · simp only [Index.encode, List.append_assoc]

theorem standsAt_level (hCount : count < x.cache.upper.size) :
    StandsAt (x.encode kind) (level x.cache.upper[count]) (levelStart x kind count) := by
  have hUpper : x.cache.upper.toList = x.cache.upper.toList.take count ++
      x.cache.upper[count] :: x.cache.upper.toList.drop (count + 1) := by
    rw [← Array.getElem_toList, List.getElem_cons_drop, List.take_append_drop]
  apply StandsAt.of_append _ (length_before_level hRange count) dvd_levelStart
  · exact (x.cache.upper.toList.drop (count + 1)).flatMap level ++ leaves x
  · rw [Index.encode, upperLevels_eq]
    conv => lhs; rw [hUpper]
    simp only [List.flatMap_append, List.flatMap_cons, List.append_assoc]

theorem standsAt_leaves : StandsAt (x.encode kind) (leaves x) (leavesStart x kind) := by
  apply StandsAt.of_append _ (length_before_level hRange _) dvd_levelStart
  · exact []
  · rw [List.append_nil, encode_eq]

end Embedded

end IndexFile

namespace Index
open IndexFile
variable {x : Index}

theorem Loadable.range_le (hLoadable : x.Loadable) : x.docOffset + x.docLength ≤ x.buffer.size := by
  rw [hLoadable.docOffset_eq, hLoadable.docLength_eq, Nat.zero_add]

/-- The document of an index that a parse or a load has given is there. -/
theorem Obtained.range_le (hObtained : x.Obtained) : x.docOffset + x.docLength ≤ x.buffer.size := by
  cases hObtained with
  | parsed hOk =>
    obtain ⟨rfl, rfl, rfl⟩ := range_of_parseRange hOk
    exact le_size_of_parseRange hOk
  | loaded hOk => exact (loadable_of_decode hOk).range_le
  | loadedWith hOk => exact (loadable_of_decodeWith hOk).1.range_le

/-- The size of a file and the places of its sections are what is computed without writing it, and all of them
are multiples of eight. A document that is to be embedded has to be there, as it is in every index that a parse
or a load has given. -/
theorem encode_aligned (x : Index) (kind : FileKind)
    (hRange : kind.embeds = true → x.docOffset + x.docLength ≤ x.buffer.size) :
    (x.encode kind).length = x.encodedSize kind ∧ 8 ∣ x.encodedSize kind ∧
    StandsAt (x.encode kind) (IndexFile.tokens x) (tokensStart x kind) ∧
    (∀ i (hi : i < x.cache.upper.size), StandsAt (x.encode kind) (level x.cache.upper[i]) (levelStart x kind i)) ∧
    StandsAt (x.encode kind) (leaves x) (leavesStart x kind) := by
  refine ⟨?_, ?_, standsAt_tokens hRange, fun i hi => standsAt_level hRange hi, standsAt_leaves hRange⟩
  · rw [encode_eq, List.length_append, length_before_level hRange, length_leaves, encodedSize_eq, leavesStart]
  · rw [encodedSize_eq]
    exact Nat.dvd_add dvd_levelStart (Nat.dvd_add (by decide) (dvd_add_padding _))

/-- `<a><b><c><d/></c></b></a>`, after a space. -/
def staircase : ByteArray :=
  ⟨#[0x20, 0x3C, 0x61, 0x3E, 0x3C, 0x62, 0x3E, 0x3C, 0x63, 0x3E, 0x3C, 0x64, 0x2F, 0x3E, 0x3C, 0x2F, 0x63, 0x3E,
    0x3C, 0x2F, 0x62, 0x3E, 0x3C, 0x2F, 0x61, 0x3E]⟩

def staircaseIndex : Index where
  buffer := staircase
  docOffset := 1
  docLength := 25
  encoding := .utf8
  namespaces := false
  maxDepth := 3
  root := some 1
  tokens := #[⟨.document, -1, 0, 0⟩, ⟨.startTag, 0, 2, 1⟩, ⟨.startTag, 1, 5, 1⟩, ⟨.startTag, 2, 8, 1⟩,
    ⟨.startTag, 3, 11, 1⟩]
  cache := ⟨#[#[⟨2, some 0⟩], #[⟨3, some 0⟩]], #[4]⟩

theorem parseRange_staircase : parseRange {} false staircase 1 25 = .ok staircaseIndex :=
  @parseRange_of_runWithin _ _ _ _ _ 12 ⟨.utf8, .none⟩ _ (by decide) rfl (by with_unfolding_all rfl)

/-- Both the document and the leaves are padded. -/
theorem encode_aligned_staircase : staircaseIndex.docOffset + staircaseIndex.docLength ≤ staircaseIndex.buffer.size ∧
    (staircaseIndex.encode .combined).length = 160 ∧
    StandsAt (staircaseIndex.encode .combined) (IndexFile.tokens staircaseIndex) 64 ∧
    StandsAt (staircaseIndex.encode .combined) (level #[⟨3, some 0⟩]) 128 ∧
    StandsAt (staircaseIndex.encode .separate) (leaves staircaseIndex) 112 := by
  have hRange := (Obtained.parsed parseRange_staircase).range_le
  obtain ⟨hLength, -, hTokens, hLevels, -⟩ := encode_aligned staircaseIndex .combined fun _ => hRange
  obtain ⟨-, -, -, -, hLeaves⟩ := encode_aligned staircaseIndex .separate fun _ => hRange
  exact ⟨hRange, hLength, hTokens, hLevels 1 (by decide), hLeaves⟩

end Index
end XmlIndex
