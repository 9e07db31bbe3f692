import XmlIndex.Lexer.State

/-! # Text and what surrounds markup

Inside the root element a piece of markup is followed by more markup or by text, with spaces
before either; outside, spaces alone may stand between markup. Text ends at `<`; it holds no `]]>`,
and its references are read through.
-/
namespace XmlIndex
set_option autoImplicit false

/-- What the lexer does next: begin, read markup after its `<`, read an attribute whose first
character has been consumed, or look for the end of the document. -/
inductive Phase where
  | start
  | markup
  | attributes (place : Nat) (first : CodePoint)
  | epilog
  deriving DecidableEq, Repr

namespace Text

inductive State where
  | plain
  | bracket
  | brackets
  | reference (state : Reference.State)

def plainStep (ch : CodePoint) : Verdict State Unit :=
  if ch = CodePoint.lessThan then .done ()
  else if CodePoint.isContent ch then .more .plain
  else if ch = CodePoint.ampersand then .more (.reference .start)
  else if ch = CodePoint.rightBracket then .more .bracket
  else .reject (.structural (.invalidCharacter .text) none)

def step : State → CodePoint → Verdict State Unit
  | .plain, ch => plainStep ch
  | .bracket, ch => if ch = CodePoint.rightBracket then .more .brackets else plainStep ch
  | .brackets, ch =>
    if ch = CodePoint.rightBracket then .more .brackets
    else if ch = CodePoint.greaterThan then .reject (.structural .sectionEnd none)
    else plainStep ch
  | .reference state, ch =>
    match Reference.step state ch with
    | .more state' => .more (.reference state')
    | .done _ => .more .plain
    | .reject fault => .reject fault

end Text

namespace Scan

def text (ch : CodePoint) : Scan Unit :=
  feed (fun state _ ch => Text.step state ch) .plain ch

end Scan

namespace Lex

/-- Text that begins at `place`, with `ch` its first character that is no space. -/
def text (place : Nat) (ch : CodePoint) : Lex Phase := do
  read (Scan.text ch)
  let stop ← read Scan.last
  emitText .characterData ⟨place, stop - place⟩
  return .markup

def afterMarkup : Lex Phase := do
  let place ← read Scan.offset
  let ch ← read Scan.nextAfterSpace
  if ch = CodePoint.lessThan then
    let stop ← read Scan.last
    emitSpace place stop
    return .markup
  else text place ch

def betweenMarkup : Lex Phase := do
  let ch ← read Scan.nextAfterSpace
  require (ch = CodePoint.lessThan) .textOutsideRoot
  return .markup

def resume : Lex Phase := do
  if ← outsideRoot then betweenMarkup else afterMarkup

end Lex
end XmlIndex
