import XmlIndex.Token.Basic

/-! # Token records

A token is stored as one 64-bit word: four bits of kind, eight of depth, twenty of length and
thirty-two of offset, from the top down. Depth -1 is stored as 255.
-/
namespace XmlIndex
set_option autoImplicit false

namespace Token

def depthByte (depth : Int) : Nat :=
  (depth % 256).toNat

def ofDepthByte (byte : Nat) : Int :=
  if byte = 255 then -1 else byte

def pack (t : Token) : UInt64 :=
  .ofNat (0x1000000000000000 * t.kind.code + 0x10000000000000 * depthByte t.depth +
    0x100000000 * (t.lengthField % 0x100000) + t.offset % 0x100000000)

def offsetMask : UInt64 := 0xFFFFFFFF

/-- The record of the same token in a document that begins `delta` units later. An offset below that
becomes 0, and all other bits are kept. -/
def rebase (delta : Nat) (word : UInt64) : UInt64 :=
  let offset := (word &&& offsetMask).toNat - delta
  word &&& ~~~offsetMask ||| .ofNat offset

def unpack? (word : UInt64) : Option Token :=
  (TokenKind.ofCode? (word.toNat / 0x1000000000000000)).map fun kind =>
    { kind
      depth := ofDepthByte (word.toNat / 0x10000000000000 % 0x100)
      offset := word.toNat % 0x100000000
      lengthField := word.toNat / 0x100000000 % 0x100000 }

end Token
end XmlIndex
