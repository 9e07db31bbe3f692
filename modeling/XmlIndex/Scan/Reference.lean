import XmlIndex.Scan.Automaton
import XmlIndex.Scan.EntityName

/-! # Character and entity references

A reference is read after its `&`: `#` and decimal digits, `#x` and hexadecimal digits, or a name
of the entity table, up to the `;`. Its number must fit 32 bits and be a valid character; a number
without digits is 0. A name has at most nine characters.
-/
namespace XmlIndex
set_option autoImplicit false

namespace Reference

inductive State where
  | start
  | number
  | decimal (value : Nat)
  | hex (value : Nat)
  | name (reversed : List CodePoint)

def maxNameLength : Nat := 9

def decimalDigit? (ch : CodePoint) : Option Nat :=
  if CodePoint.within 0x30 0x39 ch then some (ch - 0x30) else none

def hexDigit? (ch : CodePoint) : Option Nat :=
  if CodePoint.within 0x30 0x39 ch then some (ch - 0x30)
  else if CodePoint.within 0x61 0x66 ch then some (ch - 0x57)
  else if CodePoint.within 0x41 0x46 ch then some (ch - 0x37)
  else none

def reject {σ : Type} (cause : ReferenceFault) : Verdict σ CodePoint :=
  .reject (.reference cause)

def ofNumber (value : Nat) : Verdict State CodePoint :=
  if CodePoint.isValid value then .done value else reject (.invalidCharacter value)

def ofName (reversed : List CodePoint) : Verdict State CodePoint :=
  let name := String.ofList (reversed.reverse.map Char.ofNat)
  match EntityName.codePoint? name with
  | some c => .done c
  | none => reject (.unknownName name)

/-- The value with one more digit, as long as it fits 32 bits. -/
def extend (state : Nat → State) (value : Nat) : Verdict State CodePoint :=
  if value < 0x100000000 then .more (state value) else reject .outOfRange

def decimalStep (value : Nat) (ch : CodePoint) : Verdict State CodePoint :=
  if ch = CodePoint.semicolon then ofNumber value
  else
    match decimalDigit? ch with
    | some digit => extend .decimal (10 * value + digit)
    | none => reject .decimalDigit

def hexStep (value : Nat) (ch : CodePoint) : Verdict State CodePoint :=
  if ch = CodePoint.semicolon then ofNumber value
  else
    match hexDigit? ch with
    | some digit => extend .hex (16 * value + digit)
    | none => reject .hexDigit

def nameStep (reversed : List CodePoint) (ch : CodePoint) : Verdict State CodePoint :=
  if ch = CodePoint.semicolon then ofName reversed
  else if reversed.length < maxNameLength then .more (.name (ch :: reversed))
  else reject .longName

def step : State → CodePoint → Verdict State CodePoint
  | .start, ch => if ch = CodePoint.hash then .more .number else nameStep [] ch
  | .number, ch => if ch = 0x78 then .more (.hex 0) else decimalStep 0 ch
  | .decimal value, ch => decimalStep value ch
  | .hex value, ch => hexStep value ch
  | .name reversed, ch => nameStep reversed ch

end Reference

namespace Scan

def reference : Scan CodePoint :=
  drive (fun state _ ch => Reference.step state ch) .start

def nextResolved : Scan CodePoint := do
  let ch ← next
  if ch = CodePoint.ampersand then reference else pure ch

end Scan

namespace Cursor

/-- The character at an offset after resolving a reference there, with the bytes it spans. -/
def resolvedAt (c : Cursor) (offset : Nat) : Except Fault (CodePoint × Nat) :=
  match Scan.nextResolved { c with offset } with
  | .ok ch c' => .ok (ch, c'.offset - offset)
  | .error fault _ => .error fault

end Cursor
end XmlIndex
