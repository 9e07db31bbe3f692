import XmlIndex.Text.Encoding

/-! # Lines and columns

The place of an offset is found by walking the bytes before it: a line feed opens a line, every
other character moves one column on. In UTF-8 a continuation byte belongs to the character before
it; in UTF-16 the walk goes by whole code units.
-/
namespace XmlIndex
set_option autoImplicit false

/-- Line and column, both counted from 1. -/
structure Position where
  line : Nat
  column : Nat
  deriving DecidableEq, Repr

namespace Position

def first : Position := ⟨1, 1⟩

def nextLine (p : Position) : Position := ⟨p.line + 1, 1⟩

def nextColumn (p : Position) : Position := ⟨p.line, p.column + 1⟩

def text (p : Position) : String :=
  s!"line {p.line}, column {p.column}"

/-- The move over one byte; `counts` tells the bytes that begin a character. -/
@[specialize] def step (counts : UInt8 → Bool) (byte : UInt8) (p : Position) : Position :=
  if byte == 0x0A then p.nextLine
  else if counts byte then p.nextColumn
  else p

@[specialize] def afterBytes (counts : UInt8 → Bool) (doc : ByteArray) :
    (count i : Nat) → Position → Position
  | 0, _, p => p
  | count + 1, i, p =>
    match doc[i]? with
    | none => p
    | some byte => afterBytes counts doc count (i + 1) (step counts byte p)

def isLineFeed (order : ByteOrder) (first second : UInt8) : Bool :=
  match order with
  | .big => first == 0 && second == 0x0A
  | .little => first == 0x0A && second == 0

def afterUnits (order : ByteOrder) (doc : ByteArray) : (count i : Nat) → Position → Position
  | 0, _, p => p
  | count + 1, i, p =>
    match doc[i]?, doc[i + 1]? with
    | some first, some second =>
      afterUnits order doc count (i + 2) (if isLineFeed order first second then p.nextLine else p.nextColumn)
    | _, _ => p

def beginsCharacter (byte : UInt8) : Bool :=
  byte &&& 0xC0 != 0x80

def ofOffset (encoding : Encoding) (doc : ByteArray) (start offset : Nat) : Position :=
  match encoding with
  | .utf16 order => afterUnits order doc ((offset - start) / 2) start first
  | .utf8 => afterBytes beginsCharacter doc (offset - start) start first
  | _ => afterBytes (fun _ => true) doc (offset - start) start first

end Position
end XmlIndex
