import XmlIndex.Index.Layout

/-! # Loading index files

A file is read from front to back; reading past its end is a short read. What is read must make
sense: known kinds of tokens, tokens inside the document, and links of the cache that lead to
tokens and entries there are. Counts come from the file, so reading is bounded by the bytes that
remain and not by them.
-/
namespace XmlIndex
set_option autoImplicit false

inductive Corruption where
  | levels
  | documentOffset
  | embeddedFlag
  | tokenKind
  | root
  | tokenRange
  | cacheToken
  | cacheChild
  | embeddedDocument
  deriving DecidableEq, Repr

def Corruption.text : Corruption → String
  | .levels => "location cache level count"
  | .documentOffset => "document offset"
  | .embeddedFlag => "embedded flag does not match version"
  | .tokenKind => "token type"
  | .root => "root pointer"
  | .tokenRange => "token range outside the document"
  | .cacheToken => "location cache token"
  | .cacheChild => "location cache child"
  | .embeddedDocument => "truncated embedded document"

inductive LoadError where
  | shortRead
  | badMagic
  | unsupportedVersion (version : Nat)
  | unknownEncoding (code : Nat)
  | corrupt (cause : Corruption)
  | documentSize (expected actual : Nat)
  | missingDocument
  deriving DecidableEq, Repr

def LoadError.message : LoadError → String
  | .shortRead => "I/O error: failed to fill whole buffer"
  | .badMagic => "not an index file (bad magic)"
  | .unsupportedVersion version => s!"unsupported index format version {version}"
  | .unknownEncoding code => s!"unknown encoding code {code}"
  | .corrupt cause => s!"corrupt index: {cause.text}"
  | .documentSize expected actual =>
    s!"document size mismatch: index expects {expected} bytes, found {actual}"
  | .missingDocument => "index does not embed its document; load it with the document bytes"

/-- Reads from the bytes that remain. -/
abbrev Load := StateT (List UInt8) (Except LoadError)

def splitExactly? {α : Type} : Nat → List α → Option (List α × List α)
  | 0, rest => some ([], rest)
  | _ + 1, [] => none
  | count + 1, a :: rest =>
    match splitExactly? count rest with
    | some (first, others) => some (a :: first, others)
    | none => none

namespace Load

def bytes (count : Nat) : Load (List UInt8) := fun remaining =>
  match splitExactly? count remaining with
  | some (first, rest) => .ok (first, rest)
  | none => .error .shortRead

def number (count : Nat) : Load Nat := do
  return ofLittleEndian (← bytes count)

def skip (count : Nat) : Load Unit := do
  let _ ← bytes count

/-- Up to `count` bytes, fewer only if no more remain. -/
def upTo (count : Nat) : Load (List UInt8) := fun remaining =>
  .ok (remaining.take count, remaining.drop count)

def many {α : Type} (item : Load α) : (count : Nat) → Array α → Load (Array α)
  | 0, items => pure items
  | count + 1, items => do
    let a ← item
    many item count (items.push a)

def counted {α : Type} (item : Load α) : Load (Array α) := do
  many item (← number 8) #[]

def fail {α : Type} (error : LoadError) : Load α := throw error

def require (condition : Bool) (error : LoadError) : Load Unit :=
  if condition then pure () else throw error

def orFail {α : Type} (value? : Option α) (error : LoadError) : Load α :=
  match value? with
  | some a => pure a
  | none => throw error

end Load

namespace IndexFile

structure Header where
  kind : FileKind
  encoding : Encoding
  namespaces : Bool
  maxDepth : Nat
  levels : CacheLevels
  root : Option Nat
  docLength : Nat
  deriving DecidableEq, Repr

/-- The eight numbers after the magic: version, encoding, flags, depth, levels and three that are
not used. -/
def settings : Load (Nat × Nat × Nat × Nat × Nat) := do
  match (← Load.bytes 8).map UInt8.toNat with
  | version :: encoding :: flags :: maxDepth :: levels :: _ =>
    return (version, encoding, flags, maxDepth, levels)
  | _ => Load.fail .shortRead

def loadHeader : Load Header := do
  Load.require ((← Load.bytes 4) = magic) .badMagic
  let (version, code, flags, maxDepth, levelCount) ← settings
  let kind ← Load.orFail (FileKind.ofVersion? version) (.unsupportedVersion version)
  let encoding ← Load.orFail (Encoding.ofCode? code) (.unknownEncoding code)
  let levels ← Load.orFail (CacheLevels.ofCount? levelCount) (.corrupt .levels)
  let root ← Load.number 4
  Load.require ((← Load.number 8) = 0) (.corrupt .documentOffset)
  let docLength ← Load.number 8
  Load.require ((flags / 2 % 2 = 1) = kind.embeds) (.corrupt .embeddedFlag)
  return {
    kind, encoding, maxDepth, levels, docLength
    namespaces := flags % 2 = 1
    root := if root = noRoot then none else some root }

def loadToken : Load Token := do
  Load.orFail (Token.unpack? (.ofNat (← Load.number 8))) (.corrupt .tokenKind)

def loadEntry : Load CacheEntry := do
  return CacheEntry.unpack (.ofNat (← Load.number 8))

def loadCache (levels : CacheLevels) : Load LocationCache := do
  let upper ← Load.many (Load.counted loadEntry) (levels.count - 1) #[]
  let leaves ← Load.counted (Load.number 4)
  Load.skip (padding (4 * leaves.size))
  return ⟨upper, leaves⟩

def inDocument (encoding : Encoding) (docLength : Nat) (t : Token) : Bool :=
  (t.offset + t.length) * encoding.unitSize ≤ docLength

def checkEntries (tokenCount nextSize : Nat) : List CacheEntry → Except LoadError Unit
  | [] => .ok ()
  | entry :: rest =>
    if tokenCount ≤ entry.token then .error (.corrupt .cacheToken)
    else if entry.firstChild.any (nextSize ≤ ·) then .error (.corrupt .cacheChild)
    else checkEntries tokenCount nextSize rest

def checkLevels (tokenCount leafCount : Nat) : List (Array CacheEntry) → Except LoadError Unit
  | [] => .ok ()
  | level :: rest =>
    let nextSize := match rest with
      | [] => leafCount
      | next :: _ => next.size
    match checkEntries tokenCount nextSize level.toList with
    | .error error => .error error
    | .ok () => checkLevels tokenCount leafCount rest

def checkCache (tokenCount : Nat) (cache : LocationCache) : Except LoadError Unit :=
  match checkLevels tokenCount cache.leaves.size cache.upper.toList with
  | .error error => .error error
  | .ok () =>
    if cache.leaves.any (tokenCount ≤ ·) then .error (.corrupt .cacheToken) else .ok ()

def loadBody (header : Header) (doc : ByteArray) : Load Index := do
  let tokens ← Load.counted loadToken
  let cache ← loadCache header.levels
  Load.require (header.root.all (· < tokens.size)) (.corrupt .root)
  Load.require (tokens.all (inDocument header.encoding doc.size)) (.corrupt .tokenRange)
  checkCache tokens.size cache
  return {
    buffer := doc
    docOffset := 0
    docLength := doc.size
    encoding := header.encoding
    namespaces := header.namespaces
    maxDepth := header.maxDepth
    root := header.root
    tokens, cache }

def loadCombined : Load Index := do
  let header ← loadHeader
  Load.require header.kind.embeds .missingDocument
  let doc := (← Load.upTo header.docLength).toByteArray
  Load.require (doc.size = header.docLength) (.documentSize header.docLength doc.size)
  Load.skip (padding doc.size)
  loadBody header doc

/-- Passes over the document that a combined file embeds. -/
def skipDocument (header : Header) : Load Unit := do
  if header.kind.embeds then
    let embedded ← Load.upTo header.docLength
    Load.require (embedded.length = header.docLength) (.corrupt .embeddedDocument)
    Load.skip (padding header.docLength)
  else pure ()

def loadSeparate (doc : ByteArray) : Load Index := do
  let header ← loadHeader
  Load.require (doc.size = header.docLength) (.documentSize header.docLength doc.size)
  skipDocument header
  loadBody header doc

end IndexFile

namespace Index

/-- Loads a combined file. -/
def decode (file : List UInt8) : Except LoadError Index :=
  IndexFile.loadCombined.run' file

/-- Loads a file of either kind against the bytes of its document. -/
def decodeWith (doc : ByteArray) (file : List UInt8) : Except LoadError Index :=
  (IndexFile.loadSeparate doc).run' file

end Index
end XmlIndex
