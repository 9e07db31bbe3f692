import XmlIndex.Lexer.State
import XmlIndex.Text.EncodingLabel

/-! # The XML declaration

The declaration gives the version, then perhaps the encoding and whether the document stands
alone. A declared encoding must agree with what the first bytes told; without a mark of any kind it
may replace UTF-8 by another encoding of single bytes.
-/
namespace XmlIndex
set_option autoImplicit false

namespace EncodingLabel

def maxLength : Nat := 40

def isAllowed (ch : CodePoint) : Bool :=
  CodePoint.isLetter ch || CodePoint.isDigit ch || ch == CodePoint.hyphen || ch == 0x5F || ch == 0x2E

def step (quote : CodePoint) (reversed : List Char) (ch : CodePoint) : Verdict (List Char) String :=
  if ch = quote then .done (String.ofList reversed.reverse)
  else if isAllowed ch && decide (reversed.length < maxLength) then
    .more (Char.ofNat ch :: reversed)
  else .reject (.encoding .malformedLabel)

end EncodingLabel

/-- The encoding to go on with when `label` is declared, given the one in use. -/
def reconcile (mark : ByteOrderMark) (detected : Encoding) (label : String) :
    Except EncodingFault Encoding :=
  if label.toList.map Char.toUpper = "UTF-16".toList then
    if !detected.isUtf16 then .error (.noSwitch detected "UTF-16")
    else if mark = .utf16 then .ok detected
    else .error .unmarkedUtf16
  else
    match Encoding.ofLabel? label with
    | none => .error (.unknownLabel label)
    | some declared =>
      if detected.isUtf16 then
        if declared = detected then .ok detected else .error (.contradicted declared detected)
      else if declared.isUtf16 then .error (.noSwitch detected declared.name)
      else if mark = .utf8 ∧ declared ≠ .utf8 then .error (.marked declared)
      else .ok declared

namespace Scan

def openValue : Scan CodePoint := do
  let ch ← next
  let ch ← skipSpace ch
  require (ch = CodePoint.equals) .declarationEquals
  let quote ← nextAfterSpace
  require (quote = CodePoint.doubleQuote || quote = CodePoint.singleQuote) .declarationQuote
  return quote

def closeValue (quote : CodePoint) : Scan Unit := do
  require (← skip quote) .declarationUnclosed

/-- Reads the only two versions there are. -/
def version : Scan Bool := do
  if ← skipAll (CodePoint.ofText "1.") then skipAny [0x30, 0x31] else pure false

/-- Reads the answer to whether the document stands alone; the result is its length. -/
def standaloneAnswer : Scan Nat := do
  if ← skipAll (CodePoint.ofText "yes") then pure 3
  else if ← skipAll (CodePoint.ofText "no") then pure 2
  else fail .standaloneValue

def label (quote : CodePoint) : Scan String :=
  drive (fun reversed _ ch => EncodingLabel.step quote reversed ch) []

/-- Reads a character and, if it is a space, goes on to the next that is none; also tells whether
there was a space. -/
def nextSpaced : Scan (CodePoint × Bool) := do
  let ch ← next
  let after ← skipSpace ch
  return (after, CodePoint.isSpace ch)

end Scan

namespace Lex

def emitUnits (kind : TokenKind) (place count : Nat) : Lex Unit := do
  let size ← unitSize
  emit kind ⟨place, count * size⟩

def declareEncoding (label : String) : Lex Unit := do
  let mark ← look (·.mark)
  let detected ← read Scan.encoding
  match reconcile mark detected label with
  | .error cause => throw (.encoding cause)
  | .ok declared =>
    if declared = detected then pure ()
    else
      let stop ← look (·.cursor.stop)
      let namespaces ← look (·.namespaces)
      match checkSize declared stop namespaces with
      | .error cause => throw (.encoding cause)
      | .ok () => read (Scan.switchEncoding declared)

def versionDeclaration (ch : CodePoint) : Lex Unit := do
  let place ← read Scan.last
  require (ch = 0x76) .versionExpected
  require (← read (Scan.skipAll (CodePoint.ofText "ersion"))) .versionExpected
  emitUnits .declarationName place 7
  let quote ← read Scan.openValue
  let value ← read Scan.offset
  require (← read Scan.version) .unsupportedVersion
  emitUnits .declarationValue value 3
  read (Scan.closeValue quote)

def encodingDeclaration : Lex Unit := do
  let place ← read Scan.last
  require (← read (Scan.skipAll (CodePoint.ofText "ncoding"))) .encodingExpected
  emitUnits .declarationName place 8
  let quote ← read Scan.openValue
  let value ← read Scan.offset
  let label ← read (Scan.label quote)
  let stop ← read Scan.last
  emit .declarationValue ⟨value, stop - value⟩
  declareEncoding label

def standaloneDeclaration : Lex Unit := do
  let place ← read Scan.last
  require (← read (Scan.skipAll (CodePoint.ofText "tandalone"))) .standaloneExpected
  emitUnits .declarationName place 10
  let quote ← read Scan.openValue
  let value ← read Scan.offset
  let length ← read Scan.standaloneAnswer
  emitUnits .declarationValue value length
  read (Scan.closeValue quote)

def optionalEncoding : Lex (CodePoint × Bool) := do
  let found ← read Scan.nextSpaced
  if found.2 && found.1 = 0x65 then
    encodingDeclaration
    read Scan.nextSpaced
  else return found

/-- What follows the version, up to the character that must close the declaration. -/
def optionalDeclarations : Lex CodePoint := do
  let found ← optionalEncoding
  if found.2 && found.1 = 0x73 then
    standaloneDeclaration
    read Scan.nextAfterSpace
  else return found.1

def declaration (ch : CodePoint) : Lex Unit := do
  versionDeclaration ch
  let ch ← optionalDeclarations
  require (ch = CodePoint.question) .declarationEnd
  require (← read (Scan.skip CodePoint.greaterThan)) .declarationEnd
  let ch ← read Scan.nextAfterSpace
  require (ch = CodePoint.lessThan) .afterDeclaration

end Lex
end XmlIndex
