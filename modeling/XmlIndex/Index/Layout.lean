import XmlIndex.Index.Basic
import XmlIndex.Token.Record

/-! # Index files

A file is a header of 32 bytes, the document if it is embedded, the tokens, the upper levels of the
location cache and its leaves. Numbers are little-endian; every section begins at a multiple of
eight. A combined file embeds the document, a separate one gives its length alone; either way
tokens are stored as if the document began at offset 0.
-/
namespace XmlIndex
set_option autoImplicit false

def littleEndian : (count n : Nat) → List UInt8
  | 0, _ => []
  | count + 1, n => .ofNat (n % 256) :: littleEndian count (n / 256)

def ofLittleEndian : List UInt8 → Nat
  | [] => 0
  | byte :: rest => byte.toNat + 256 * ofLittleEndian rest

theorem length_littleEndian (count n : Nat) : (littleEndian count n).length = count := by
  induction count generalizing n with
  | zero => rfl
  | succ count ih => simp [littleEndian, ih]

inductive FileKind where
  | combined
  | separate
  deriving DecidableEq, Repr

namespace FileKind

def version : FileKind → Nat
  | .combined => 1
  | .separate => 2

def ofVersion? : Nat → Option FileKind
  | 1 => some .combined
  | 2 => some .separate
  | _ => none

def embeds : FileKind → Bool
  | .combined => true
  | .separate => false

end FileKind

namespace IndexFile

def magic : List UInt8 := [0x56, 0x54, 0x44, 0x58]

def headerSize : Nat := 32

def noRoot : Nat := 0xFFFFFFFF

/-- Bytes from `length` up to the next multiple of eight. -/
def padding (length : Nat) : Nat :=
  (8 - length % 8) % 8

def zeros (count : Nat) : List UInt8 :=
  List.replicate count 0

def flags (namespaces : Bool) (kind : FileKind) : Nat :=
  namespaces.toNat + 2 * kind.embeds.toNat

def header (x : Index) (kind : FileKind) : List UInt8 :=
  magic ++
    [kind.version, x.encoding.code, flags x.namespaces kind, x.maxDepth, x.cache.levels, 0, 0, 0].map
      UInt8.ofNat ++
    littleEndian 4 (x.root.getD noRoot) ++ littleEndian 8 0 ++ littleEndian 8 x.docLength

/-- A count and so many 64-bit words. -/
def words (items : List UInt64) : List UInt8 :=
  littleEndian 8 items.length ++ items.flatMap fun word => littleEndian 8 word.toNat

def embedded (x : Index) (kind : FileKind) : List UInt8 :=
  if kind.embeds then x.document.toList ++ zeros (padding x.docLength) else []

def tokens (x : Index) : List UInt8 :=
  let delta := x.docOffset / x.encoding.unitSize
  words (x.tokens.toList.map fun t => Token.rebase delta t.pack)

def upperLevels (x : Index) : List UInt8 :=
  x.cache.upper.toList.flatMap fun level => words (level.toList.map CacheEntry.pack)

def leaves (x : Index) : List UInt8 :=
  littleEndian 8 x.cache.leaves.size ++
    (x.cache.leaves.toList.flatMap fun token => littleEndian 4 token) ++
    zeros (padding (4 * x.cache.leaves.size))

end IndexFile

namespace Index

def encode (x : Index) (kind : FileKind) : List UInt8 :=
  IndexFile.header x kind ++ IndexFile.embedded x kind ++ IndexFile.tokens x ++
    IndexFile.upperLevels x ++ IndexFile.leaves x

def encodedSize (x : Index) (kind : FileKind) : Nat :=
  let document := if kind.embeds then x.docLength + IndexFile.padding x.docLength else 0
  let upper := x.cache.upper.foldl (fun total level => total + (8 + 8 * level.size)) 0
  let leaves := 4 * x.cache.leaves.size
  IndexFile.headerSize + document + (8 + 8 * x.tokens.size) + upper +
    (8 + leaves + IndexFile.padding leaves)

end Index
end XmlIndex
