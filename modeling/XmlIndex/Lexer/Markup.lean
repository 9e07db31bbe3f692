import XmlIndex.Lexer.Content

/-! # Comments, sections, instructions and the document type

Each of these is read from the character after its opening. A comment ends at its first `--`, which
must be `-->`; a section at its first `]]>`; an instruction at its first `?>`; a document type
declaration at the `>` that balances its brackets.
-/
namespace XmlIndex
set_option autoImplicit false

namespace Comment

inductive State where
  | body
  | hyphen
  | hyphens

def step : State → CodePoint → Verdict State Unit
  | .hyphens, ch =>
    if ch = CodePoint.greaterThan then .done () else .reject (.structural .doubleHyphen none)
  | state, ch =>
    if !CodePoint.isValid ch then .reject (.structural (.invalidCharacter .comment) none)
    else if ch = CodePoint.hyphen then .more (if state matches .hyphen then .hyphens else .hyphen)
    else .more .body

end Comment

namespace CharacterSection

inductive State where
  | body
  | bracket
  | brackets

def step : State → CodePoint → Verdict State Unit
  | state, ch =>
    if !CodePoint.isValid ch then .reject (.structural (.invalidCharacter .cdata) none)
    else if ch = CodePoint.rightBracket then
      .more (if state matches .body then .bracket else .brackets)
    else if ch = CodePoint.greaterThan && state matches .brackets then .done ()
    else .more .body

end CharacterSection

namespace Instruction

/-- The state tells whether the character before was a question mark. -/
def step (question : Bool) (ch : CodePoint) : Verdict Bool Unit :=
  if !CodePoint.isValid ch then .reject (.structural (.invalidCharacter .instructionData) none)
  else if ch = CodePoint.greaterThan && question then .done ()
  else .more (ch = CodePoint.question)

def reserved : List (List CodePoint) :=
  [[0x78, 0x58], [0x6D, 0x4D], [0x6C, 0x4C]]

end Instruction

namespace DocumentType

def step (opened : Nat) (ch : CodePoint) : Verdict Nat Unit :=
  if !CodePoint.isValid ch then .reject (.structural (.invalidCharacter .doctype) none)
  else if ch = CodePoint.greaterThan then
    if opened ≤ 1 then .done () else .more (opened - 1)
  else if ch = CodePoint.lessThan then .more (opened + 1)
  else .more opened

end DocumentType

namespace Scan

def comment : Scan Unit :=
  drive (fun state _ ch => Comment.step state ch) .body

def characterSection : Scan Unit :=
  drive (fun state _ ch => CharacterSection.step state ch) .body

def instructionData : Scan Unit :=
  drive (fun question _ ch => Instruction.step question ch) false

def documentType : Scan Unit :=
  drive (fun opened _ ch => DocumentType.step opened ch) 1

def reservedLetters (ch : CodePoint) : Scan Bool :=
  match Instruction.reserved with
  | first :: rest => if first.contains ch then skipEach rest else pure false
  | [] => pure false

def instructionTarget : Scan CodePoint := do
  let first ← next
  require (CodePoint.isNameStart first) (.invalidCharacter .instructionTarget)
  if ← reservedLetters first then
    let ch ← next
    require (ch != CodePoint.question && !CodePoint.isSpace ch) .reservedTarget
    if CodePoint.isName ch then nextAfter CodePoint.isName else pure ch
  else nextAfter CodePoint.isName

end Scan

namespace Lex

/-- The bytes from `place` up to a terminator of `count` code units that was just consumed. -/
def before (place count : Nat) : Lex Span := do
  let stop ← read Scan.offset
  let size ← unitSize
  return ⟨place, stop - place - count * size⟩

def comment : Lex Unit := do
  let place ← read Scan.offset
  read Scan.comment
  emitText .comment (← before place 3)

def characterSection : Lex Unit := do
  let place ← read Scan.offset
  read Scan.characterSection
  emitText .cdata (← before place 3)

def instructionData : Lex Unit := do
  let place ← read Scan.offset
  read Scan.instructionData
  emitBounded .instructionData (← before place 2)

/-- An instruction without data closes right after its target, and has empty data there. -/
def instruction : Lex Unit := do
  let place ← read Scan.offset
  let ch ← read Scan.instructionTarget
  let stop ← read Scan.last
  emitBounded .instructionTarget ⟨place, stop - place⟩
  if ch = CodePoint.question then
    require (← read (Scan.skip CodePoint.greaterThan)) .instructionEnd
    emit .instructionData ⟨stop, 0⟩
  else
    require (CodePoint.isSpace ch) .afterTarget
    instructionData

def documentType : Lex Unit := do
  require (← outsideRoot) .misplacedDoctype
  require (!(← look (·.hasDoctype))) .secondDoctype
  update ({ · with hasDoctype := true })
  let place ← read Scan.offset
  read Scan.documentType
  let stop ← read Scan.last
  emitBounded .doctype ⟨place, stop - place⟩

def declared : Lex Unit := do
  let ch ← read Scan.next
  if ch = CodePoint.hyphen then
    require (← read (Scan.skip CodePoint.hyphen)) .commentStart
    comment
  else if ch = CodePoint.leftBracket then
    require (← read (Scan.skipAll (CodePoint.ofText "CDATA["))) .cdataStart
    require (!(← outsideRoot)) .cdataOutsideRoot
    characterSection
  else if ch = 0x44 then
    require (← read (Scan.skipAll (CodePoint.ofText "OCTYPE"))) .doctypeStart
    documentType
  else fail .declarationStart

end Lex
end XmlIndex
