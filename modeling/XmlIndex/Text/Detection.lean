import XmlIndex.Fault

/-! # Detecting the encoding

The first bytes of a document settle its byte order: a byte order mark, or an unmarked `<?` in
16-bit units. Anything else begins as UTF-8. Offsets are stored in 32 bits, which bounds the end
of a document; names in namespaces keep one bit more in reserve unless units are 16 bits wide.
-/
namespace XmlIndex
set_option autoImplicit false

inductive ByteOrderMark where
  | none
  | utf8
  | utf16
  deriving DecidableEq, Repr

def ByteOrderMark.size : ByteOrderMark → Nat
  | .none => 0
  | .utf8 => 3
  | .utf16 => 2

structure Detected where
  encoding : Encoding
  mark : ByteOrderMark
  deriving DecidableEq, Repr

namespace Detected

/-- What the first bytes tell; only the first four matter. -/
def ofHead : List Nat → Except EncodingFault Detected
  | 0xFE :: 0xFF :: _ => .ok ⟨.utf16 .big, .utf16⟩
  | 0xFE :: _ => .error (.unknownMark 0xFE)
  | 0xFF :: 0xFE :: _ => .ok ⟨.utf16 .little, .utf16⟩
  | 0xFF :: _ => .error (.unknownMark 0xFF)
  | 0xEF :: 0xBB :: 0xBF :: _ => .ok ⟨.utf8, .utf8⟩
  | 0xEF :: _ => .error (.unknownMark 0xEF)
  | 0x00 :: 0x3C :: 0x00 :: 0x3F :: _ => .ok ⟨.utf16 .big, .none⟩
  | 0x3C :: 0x00 :: 0x3F :: 0x00 :: _ => .ok ⟨.utf16 .little, .none⟩
  | 0x00 :: _ => .error (.strayNul .big)
  | 0x3C :: 0x00 :: _ => .error (.strayNul .little)
  | _ => .ok ⟨.utf8, .none⟩

end Detected

/-- Least end offset that is too large. -/
def sizeLimit (encoding : Encoding) (namespaces : Bool) : Nat :=
  if namespaces ∧ ¬encoding.isUtf16 then 0x40000000 else 0x80000000

def checkSize (encoding : Encoding) (stop : Nat) (namespaces : Bool) : Except EncodingFault Unit :=
  if stop < sizeLimit encoding namespaces then .ok ()
  else .error (.tooLarge (sizeLimit encoding namespaces))

def headBytes (doc : ByteArray) (offset stop : Nat) : List Nat :=
  [offset, offset + 1, offset + 2, offset + 3].filterMap (byteAt? doc stop)

def detect (doc : ByteArray) (offset stop : Nat) (namespaces : Bool) : Except EncodingFault Detected :=
  if stop ≤ offset then .error .emptyDocument
  else do
    let detected ← Detected.ofHead (headBytes doc offset stop)
    checkSize detected.encoding stop namespaces
    return detected

end XmlIndex
