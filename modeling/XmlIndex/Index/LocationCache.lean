/-! # Location caches

A cache lists the start tags of the upper element depths, level by level: level `d` holds the
elements of depth `d`, in document order. An entry of an upper level also tells where in the next
level the first child of its element stands; the last level holds tokens alone.

An element is entered late, when the element after it tells whether it has a child. So one element
may be waiting, and it is always the one recorded last.
-/
namespace XmlIndex
set_option autoImplicit false

inductive CacheLevels where
  | three
  | five
  deriving DecidableEq, Repr

def CacheLevels.count : CacheLevels → Nat
  | .three => 3
  | .five => 5

def CacheLevels.ofCount? : Nat → Option CacheLevels
  | 3 => some .three
  | 5 => some .five
  | _ => none

structure CacheEntry where
  token : Nat
  firstChild : Option Nat
  deriving DecidableEq, Repr

namespace CacheEntry

def noChild : Nat := 0xFFFFFFFF

/-- The stored form: the token in the upper half of a 64-bit word, the child in the lower. -/
def pack (e : CacheEntry) : UInt64 :=
  .ofNat (0x100000000 * (e.token % 0x100000000) + e.firstChild.getD noChild % 0x100000000)

def unpack (word : UInt64) : CacheEntry :=
  let child := word.toNat % 0x100000000
  ⟨word.toNat / 0x100000000, if child = noChild then none else some child⟩

end CacheEntry

/-- Levels 1 to `n - 1` with their entries, and the tokens of level `n`. -/
structure LocationCache where
  upper : Array (Array CacheEntry)
  leaves : Array Nat
  deriving DecidableEq, Repr

namespace LocationCache

def empty (levels : CacheLevels) : LocationCache :=
  ⟨Array.replicate (levels.count - 1) #[], #[]⟩

def levels (cache : LocationCache) : Nat :=
  cache.upper.size + 1

def reset (levels : Nat) (cache : LocationCache) : LocationCache :=
  let upper := cache.upper.shrink (levels - 1)
  let upper := upper ++ Array.replicate (levels - 1 - upper.size) #[]
  { cache with upper := upper.map (·.shrink 0), leaves := cache.leaves.shrink 0 }

/-- Nothing of the old cache is left, not even its number of levels. -/
theorem reset_eq (levels : Nat) (cache : LocationCache) :
    cache.reset levels = ⟨Array.replicate (levels - 1) #[], #[]⟩ := by
  have hSize : min (levels - 1) cache.upper.size + (levels - 1 - min (levels - 1) cache.upper.size) = levels - 1 := by
    omega
  simp [reset, Array.map_const', hSize]

theorem reset_count (levels : CacheLevels) (cache : LocationCache) : cache.reset levels.count = empty levels :=
  cache.reset_eq levels.count

def entries (cache : LocationCache) (level : Nat) : Array CacheEntry :=
  cache.upper.getD (level - 1) #[]

def isEmpty (cache : LocationCache) : Bool :=
  cache.leaves.isEmpty && cache.upper.all Array.isEmpty

def byteSize (cache : LocationCache) : Nat :=
  cache.upper.foldl (fun total level => total + 8 * level.size) 0 + 4 * cache.leaves.size

def levelSize (cache : LocationCache) (level : Nat) : Nat :=
  if level = cache.levels then cache.leaves.size else (cache.entries level).size

def addEntry (cache : LocationCache) (level : Nat) (entry : CacheEntry) : LocationCache :=
  { cache with upper := cache.upper.modify (level - 1) (·.push entry) }

def addLeaf (cache : LocationCache) (token : Nat) : LocationCache :=
  { cache with leaves := cache.leaves.push token }

end LocationCache

structure Recorded where
  depth : Nat
  token : Nat
  deriving DecidableEq, Repr

namespace LocationCache

/-- Enters the waiting element as childless, if it is at least as deep as `depth` and above the
last level. -/
def settle (cache : LocationCache) (waiting : Option Recorded) (depth : Nat) : LocationCache :=
  match waiting with
  | none => cache
  | some w =>
    if depth ≤ w.depth ∧ w.depth < cache.levels then cache.addEntry w.depth ⟨w.token, none⟩
    else cache

/-- Enters the waiting element once the next one, at `depth`, is known: a child's place in its own
level is where that level ends. -/
def follow (cache : LocationCache) (waiting : Option Recorded) (depth : Nat) : LocationCache :=
  match waiting with
  | none => cache
  | some w =>
    if w.depth + 1 = depth then
      cache.addEntry w.depth ⟨w.token, some (cache.levelSize depth)⟩
    else if depth < cache.levels then cache.settle waiting depth
    else cache

/-- Records an element of depth at least 1; deeper elements than the cache covers leave it as it
is. -/
def record (cache : LocationCache) (waiting : Option Recorded) (element : Recorded) :
    LocationCache × Option Recorded :=
  if cache.levels < element.depth then (cache, waiting)
  else
    let cache := cache.follow waiting element.depth
    let cache := if element.depth = cache.levels then cache.addLeaf element.token else cache
    (cache, some element)

end LocationCache
end XmlIndex
