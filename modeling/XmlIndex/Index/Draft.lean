import XmlIndex.Index.LocationCache
import XmlIndex.Token.Basic

/-! # Index drafts

A draft gathers the tokens and the location cache of a document while it is read. A start tag is
also recorded in the cache; the first of depth 0 becomes the root. Runs of text longer than one
token can be are written as several tokens, each beginning where the one before it ends.
-/
namespace XmlIndex
set_option autoImplicit false

structure Draft where
  tokens : Array Token
  cache : LocationCache
  waiting : Option Recorded
  root : Option Nat
  deriving DecidableEq, Repr

namespace Draft

def empty (levels : CacheLevels) : Draft :=
  ⟨#[], .empty levels, none, none⟩

def write (d : Draft) (t : Token) : Draft :=
  { d with tokens := d.tokens.push t }

def recordElement (d : Draft) (depth : Int) (token : Nat) : Draft :=
  if depth = 0 then { d with root := some token }
  else if 0 < depth then
    match d with
    | ⟨tokens, cache, waiting, root⟩ =>
      let (cache, waiting) := cache.record waiting ⟨depth.toNat, token⟩
      ⟨tokens, cache, waiting, root⟩
  else d

def writeElement (d : Draft) (depth : Int) (offset lengthField : Nat) : Draft :=
  let token := d.tokens.size
  (d.write ⟨.startTag, depth, offset, lengthField⟩).recordElement depth token

def writeText (d : Draft) (kind : TokenKind) (depth : Int) (offset length : Nat) : Draft :=
  if Token.maxLength < length then
    writeText (d.write ⟨kind, depth, offset, Token.maxLength⟩) kind depth
      (offset + Token.maxLength) (length - Token.maxLength)
  else d.write ⟨kind, depth, offset, length⟩
termination_by length
decreasing_by
  unfold Token.maxLength at *
  omega

/-- Enters the element that is still waiting when the document ends. -/
def finish (d : Draft) : Draft :=
  { d with cache := d.cache.settle d.waiting 1 }

def reset (levels : CacheLevels) (d : Draft) : Draft :=
  { d with
    tokens := d.tokens.shrink 0
    cache := d.cache.reset levels.count
    waiting := none
    root := none }

theorem reset_eq (levels : CacheLevels) (d : Draft) : d.reset levels = empty levels := by
  simp [reset, LocationCache.reset_count, empty]

def take (d : Draft) : (Array Token × LocationCache × Option Nat) × Draft :=
  ((d.tokens, d.cache, d.root),
    ⟨#[], ⟨Array.replicate d.cache.upper.size #[], #[]⟩, none, none⟩)

/-- Takes the buffers of an index in place of its own: the tokens if they are more, the cache if it
has as many levels. Both buffers are then cleared, and nothing else is. -/
def reclaim (d : Draft) (tokens : Array Token := #[]) (cache : LocationCache := d.cache) : Draft :=
  let d := if d.tokens.size < tokens.size then { d with tokens } else d
  let d := if cache.levels = d.cache.levels then { d with cache } else d
  { d with
    tokens := d.tokens.shrink 0
    cache := d.cache.reset d.cache.levels }

theorem reclaim_eq (d : Draft) (tokens : Array Token) (cache : LocationCache) :
    d.reclaim tokens cache = { d with tokens := #[], cache := d.cache.reset d.cache.levels } := by
  -- What a reset leaves depends on the number of levels alone.
  by_cases hTokens : d.tokens.size < tokens.size <;> by_cases hLevels : cache.levels = d.cache.levels <;>
    simp [reclaim, hTokens, hLevels, LocationCache.reset_eq]

end Draft
end XmlIndex
