import XmlIndex.Lexer.Declaration
import XmlIndex.Lexer.Element
import XmlIndex.Lexer.Markup

/-! # Documents

A document is an optional declaration, markup up to the root element, the root, and then nothing but
comments, instructions and space. The lexer goes phase by phase until the document ends after its
root.
-/
namespace XmlIndex
set_option autoImplicit false

namespace Scan

def opensDeclaration : Scan Bool := do
  if ← skipEach ([CodePoint.question] :: Instruction.reserved) then
    let ch ← next
    require (ch != CodePoint.question) .emptyDeclaration
    return CodePoint.isSpace ch
  else return false

def nextAfterSpace? : Scan (Option CodePoint) := fun c =>
  match nextAfterSpace c with
  | .ok ch c' => .ok (some ch) c'
  | .error .endOfDocument c' => .ok none c'
  | .error fault c' => .error fault c'

inductive Tail where
  | comment
  | instruction

/-- Tells the markup after the root by its opening; the end of the document is no answer. -/
def tail : Scan Tail := fun c =>
  let opening : Scan Tail := do
    if ← skip CodePoint.question then pure .instruction
    else if ← skipAll [CodePoint.bang, CodePoint.hyphen, CodePoint.hyphen] then pure .comment
    else fail .notTerminated
  match opening c with
  | .error .endOfDocument c' => .error (.structural .notTerminated none) c'
  | result => result

end Scan

namespace Lex

def start : Lex Phase := do
  let ch ← read Scan.next
  if ch = CodePoint.lessThan then
    if ← read (Scan.orRewind Scan.opensDeclaration) then
      let first ← read Scan.nextAfterSpace
      declaration first
      return .markup
    else return .markup
  else
    require (CodePoint.isSpace ch) .notStarted
    let next ← read Scan.nextAfterSpace
    require (next = CodePoint.lessThan) .notStarted
    return .markup

def markup : Lex Phase := do
  let place ← read Scan.offset
  let ch ← read Scan.next
  if CodePoint.isNameStart ch then startTag place
  else if ch = CodePoint.slash then endTag
  else if ch = CodePoint.question then
    instruction
    resume
  else if ch = CodePoint.bang then
    declared
    resume
  else fail .markupStart

/-- After the root: nothing when the document ends. -/
def epilog : Lex (Option Phase) := do
  match ← read Scan.nextAfterSpace? with
  | none => return none
  | some ch =>
    require (ch = CodePoint.lessThan) .notTerminated
    match ← read Scan.tail with
    | .comment => comment
    | .instruction => instruction
    return some .epilog

def step : Phase → Lex (Option Phase)
  | .start => some <$> start
  | .markup => some <$> markup
  | .attributes place first => some <$> readAttribute place first
  | .epilog => epilog

end Lex
end XmlIndex
