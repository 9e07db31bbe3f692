import XmlIndex.Fault

/-! # Cursors

A cursor walks a range of a document, one character at a time. A `Scan` is a reading action: when
it fails the cursor stays where the failing read began, so that the failure can be placed and the
reading can go on. `last` is the offset of the character consumed last.
-/
namespace XmlIndex
set_option autoImplicit false

structure Cursor where
  doc : ByteArray
  start : Nat
  stop : Nat
  offset : Nat
  last : Nat
  encoding : Encoding

abbrev Scan := EStateM Fault Cursor

namespace Cursor

def atStart (doc : ByteArray) (start stop : Nat) (encoding : Encoding) : Cursor :=
  ⟨doc, start, stop, start, start, encoding⟩

def charAt (c : Cursor) (offset : Nat) : Except Fault (CodePoint × Nat) :=
  match c.encoding.decodeAt c.doc c.stop offset with
  | .ok read => .ok read
  | .error cause => .error (.ofDecode cause)

def bytes (c : Cursor) (offset length : Nat) : ByteArray :=
  c.doc.extract offset (offset + length)

def sameBytes (doc : ByteArray) : (length a b : Nat) → Bool
  | 0, _, _ => true
  | length + 1, a, b => doc[a]? == doc[b]? && sameBytes doc length (a + 1) (b + 1)

def spellsFrom (c : Cursor) (stop : Nat) : (offset : Nat) → List CodePoint → Except Fault Bool
  | offset, [] => .ok (offset == stop)
  | offset, expected :: rest =>
    if stop ≤ offset then .ok false
    else
      match c.charAt offset with
      | .error fault => .error fault
      | .ok (ch, width) => if ch = expected then spellsFrom c stop (offset + width) rest else .ok false

def spells (c : Cursor) (offset length : Nat) (expected : List CodePoint) : Except Fault Bool :=
  c.spellsFrom (offset + length) offset expected

/-- Where an offset lies; an offset past the range counts as its end. -/
def position (c : Cursor) (offset : Nat) : Position :=
  .ofOffset c.encoding c.doc c.start (min offset c.stop)

end Cursor

namespace Scan

def next : Scan CodePoint := fun c =>
  match c.charAt c.offset with
  | .error fault => .error fault c
  | .ok (ch, width) => .ok ch { c with offset := c.offset + width, last := c.offset }

def skip (expected : CodePoint) : Scan Bool := fun c =>
  match c.charAt c.offset with
  | .error fault => .error fault c
  | .ok (ch, width) =>
    if ch = expected then .ok true { c with offset := c.offset + width, last := c.offset }
    else .ok false c

/-- Consumes the expected characters up to the first that differs; true if none does. -/
def skipAll : List CodePoint → Scan Bool
  | [] => pure true
  | expected :: rest => do
    if ← skip expected then skipAll rest else pure false

def skipAny : List CodePoint → Scan Bool
  | [] => pure false
  | choice :: rest => do
    if ← skip choice then pure true else skipAny rest

/-- Consumes one character of each set in turn, up to the first set that has no match. -/
def skipEach : List (List CodePoint) → Scan Bool
  | [] => pure true
  | choices :: rest => do
    if ← skipAny choices then skipEach rest else pure false

def offset : Scan Nat := fun c => .ok c.offset c

def last : Scan Nat := fun c => .ok c.last c

def encoding : Scan Encoding := fun c => .ok c.encoding c

def seek (offset : Nat) : Scan Unit := fun c => .ok () { c with offset }

/-- Consumes the bytes of an earlier stretch if they come again; something must follow them. -/
def skipAgain (offset length : Nat) : Scan Bool := fun c =>
  if c.stop ≤ c.offset + length then .error .endOfDocument c
  else if Cursor.sameBytes c.doc length c.offset offset then
    .ok true { c with offset := c.offset + length }
  else .ok false c

def switchEncoding (encoding : Encoding) : Scan Unit := fun c => .ok () { c with encoding }

/-- Tests for what lies ahead; if the test says no, the cursor goes back to where it began. -/
def orRewind (test : Scan Bool) : Scan Bool := fun c =>
  match test c with
  | .ok false c' => .ok false { c' with offset := c.offset }
  | result => result

def ask {α : Type} (question : Cursor → Except Fault α) : Scan α := fun c =>
  match question c with
  | .ok a => .ok a c
  | .error fault => .error fault c

def fail {α : Type} (cause : SyntaxFault) : Scan α :=
  throw (.structural cause none)

def require (condition : Bool) (cause : SyntaxFault) : Scan Unit :=
  if condition then pure () else fail cause

end Scan
end XmlIndex
