import XmlIndex.Fault
import XmlIndex.Index.Draft

/-! # Indexes

An index is a document with the tokens found in it. Tokens point into the whole buffer that the
document is a range of; nothing is copied out of it.
-/
namespace XmlIndex
set_option autoImplicit false

local instance decidableEqBytes : DecidableEq ByteArray :=
  ByteArray.instDecidableEq

structure Index where
  buffer : ByteArray
  docOffset : Nat
  docLength : Nat
  encoding : Encoding
  namespaces : Bool
  maxDepth : Nat
  root : Option Nat
  tokens : Array Token
  cache : LocationCache
  deriving DecidableEq

namespace Index

/-- What can be used again when the index is given up. -/
def parts (x : Index) : ByteArray × Array Token × LocationCache :=
  (x.buffer, x.tokens, x.cache)

def document (x : Index) : ByteArray :=
  x.buffer.extract x.docOffset (x.docOffset + x.docLength)

/-- The bytes a token covers; its offset and length are in code units. -/
def rawBytes (x : Index) (t : Token) : ByteArray :=
  let size := x.encoding.unitSize
  x.buffer.extract (t.offset * size) (t.offset * size + t.length * size)

/-- The text of a token, references left as they are written. Text in ASCII is taken for UTF-8, which
the library reads as a whole; all other encodings are decoded character by character. -/
def rawText (x : Index) (t : Token) : Except Fault String :=
  let bytes := x.rawBytes t
  match x.encoding with
  | .utf8 | .ascii =>
    match String.fromUTF8? bytes with
    | some text => .ok text
    | none => .error (.encoding .notUtf8)
  | encoding =>
    match encoding.decodeFrom bytes bytes.size 0 with
    | (_, some fault) => .error (.ofDecode fault)
    | (characters, none) => .ok (String.ofList (characters.map fun read => Char.ofNat read.1))

end Index
end XmlIndex
