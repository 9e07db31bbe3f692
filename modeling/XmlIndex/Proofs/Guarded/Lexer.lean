import XmlIndex.Parse
import XmlIndex.Proofs.Guarded.Markup

/-! # The guarded lexer

A lexer in small steps, each of which ends where a token begins. There are sixteen stages, and a step takes the
lexer from one to the next. Whatever a step subtracts, slices, looks up or packs is tested first, and a run may
take only so many steps. How single characters and references are read is tested apart, at any place of a range.
-/
namespace XmlIndex
set_option autoImplicit false

/-- Where the lexer is between two steps, with what it has to remember; where a token begins right there, its
place is the cursor's. -/
inductive Stage where
  | start
  | declaration (first : CodePoint)
  | markup
  | startTag (place : Nat)
  | attributeName (place : Nat) (first : CodePoint)
  | attributeValue (role : AttributeRole) (quote : CodePoint)
  | text (place : Nat)
  | endTag
  | instruction
  | instructionData
  | comment
  | characterSection
  | documentType
  | epilog
  | lastComment
  | lastInstruction
  deriving DecidableEq

namespace Guarded

abbrev Lexing := EStateM (Mishap Fault) Lexer

namespace Lexing
variable {α : Type}

def read (action : Reading α) : Lexing α := fun s =>
  match action s.cursor with
  | .ok a cursor => .ok a { s with cursor }
  | .error mishap cursor => .error mishap { s with cursor }

def test (condition : Lexer → Bool) (hazard : Hazard) : Lexing Unit :=
  ask fun s => demand (condition s) hazard

/-- Writes tokens at the depth of the lexer, which has to fit them. -/
def packed (write : Lex α) : Lexing α := do
  test (fun s => -1 ≤ s.depth && s.depth ≤ Token.maxDepth) .depth
  lift write

def emitSpace (place stop : Nat) : Lexing Unit := do
  let wanted ← lift (Lex.look fun s => s.recordWhitespace && !s.openTags.isEmpty && decide (place < stop))
  if wanted then
    let length ← distance place stop
    packed (Lex.emitText .characterData ⟨place, length⟩)
  else pure ()

def before (place count : Nat) : Lexing Span := do
  let stop ← lift (Lex.read Scan.offset)
  let size ← lift Lex.unitSize
  let whole ← distance place stop
  let length ← distance (count * size) whole
  return ⟨place, length⟩

def afterMarkup : Lexing Stage := do
  let place ← lift (Lex.read Scan.offset)
  let ch ← lift (Lex.read Scan.nextAfterSpace)
  if ch = CodePoint.lessThan then
    let stop ← lift (Lex.read Scan.last)
    emitSpace place stop
    return .markup
  else
    read (textStart ch)
    return .text place

def betweenMarkup : Lexing Stage := do
  let ch ← lift (Lex.read Scan.nextAfterSpace)
  lift (Lex.require (ch = CodePoint.lessThan) .textOutsideRoot)
  return .markup

def resume : Lexing Stage := do
  if ← lift Lex.outsideRoot then betweenMarkup else afterMarkup

def text (place : Nat) : Lexing Stage := do
  test (!·.openTags.isEmpty) .textOutsideRoot
  read Guarded.text
  let stop ← lift (Lex.read Scan.last)
  let length ← distance place stop
  packed (Lex.emitText .characterData ⟨place, length⟩)
  return .markup

def comment : Lexing Unit := do
  let place ← lift (Lex.read Scan.offset)
  lift (Lex.read hyphens)
  let span ← before place 2
  lift (Lex.read closeComment)
  packed (Lex.emitText .comment span)

def characterSection : Lexing Unit := do
  let place ← lift (Lex.read Scan.offset)
  lift (Lex.read Scan.characterSection)
  packed (Lex.emitText .cdata (← before place 3))

def instructionData : Lexing Unit := do
  let place ← lift (Lex.read Scan.offset)
  lift (Lex.read Scan.instructionData)
  packed (Lex.emitBounded .instructionData (← before place 2))

def instruction : Lexing Bool := do
  let place ← lift (Lex.read Scan.offset)
  let ch ← lift (Lex.read instructionTarget)
  let stop ← lift (Lex.read Scan.last)
  let length ← distance place stop
  packed (Lex.emitBounded .instructionTarget ⟨place, length⟩)
  if ch = CodePoint.question then
    lift (Lex.require (← lift (Lex.read (Scan.skip CodePoint.greaterThan))) .instructionEnd)
    packed (Lex.emit .instructionData ⟨stop, 0⟩)
    return false
  else
    lift (Lex.require (CodePoint.isSpace ch) .afterTarget)
    return true

def documentType : Lexing Unit := do
  let place ← lift (Lex.read Scan.offset)
  read Guarded.documentType
  let stop ← lift (Lex.read Scan.last)
  let length ← distance place stop
  packed (Lex.emitBounded .doctype ⟨place, length⟩)

def declared : Lexing Stage := do
  let ch ← lift (Lex.read Scan.next)
  if ch = CodePoint.hyphen then
    lift (Lex.require (← lift (Lex.read (Scan.skip CodePoint.hyphen))) .commentStart)
    return .comment
  else if ch = CodePoint.leftBracket then
    lift (Lex.require (← lift (Lex.read (Scan.skipAll (CodePoint.ofText "CDATA[")))) .cdataStart)
    lift (Lex.require (!(← lift Lex.outsideRoot)) .cdataOutsideRoot)
    return .characterSection
  else if ch = 0x44 then
    lift (Lex.require (← lift (Lex.read (Scan.skipAll (CodePoint.ofText "OCTYPE")))) .doctypeStart)
    lift (Lex.require (← lift Lex.outsideRoot) .misplacedDoctype)
    lift (Lex.require (!(← lift (Lex.look (·.hasDoctype)))) .secondDoctype)
    lift (Lex.update ({ · with hasDoctype := true }))
    return .documentType
  else lift (Lex.fail .declarationStart)

def encodingDeclaration : Lexing Unit := do
  let place ← lift (Lex.read Scan.last)
  lift (Lex.require (← lift (Lex.read (Scan.skipAll (CodePoint.ofText "ncoding")))) .encodingExpected)
  packed (Lex.emitUnits .declarationName place 8)
  let quote ← lift (Lex.read Scan.openValue)
  let value ← lift (Lex.read Scan.offset)
  let label ← lift (Lex.read (Scan.label quote))
  let stop ← lift (Lex.read Scan.last)
  let length ← distance value stop
  packed (Lex.emit .declarationValue ⟨value, length⟩)
  lift (Lex.declareEncoding label)

def optionalEncoding : Lexing (CodePoint × Bool) := do
  let found ← lift (Lex.read Scan.nextSpaced)
  if found.2 && found.1 = 0x65 then
    encodingDeclaration
    lift (Lex.read Scan.nextSpaced)
  else return found

def optionalDeclarations : Lexing CodePoint := do
  let found ← optionalEncoding
  if found.2 && found.1 = 0x73 then
    packed Lex.standaloneDeclaration
    lift (Lex.read Scan.nextAfterSpace)
  else return found.1

def declaration (first : CodePoint) : Lexing Unit := do
  packed (Lex.versionDeclaration first)
  let ch ← optionalDeclarations
  lift (Lex.require (ch = CodePoint.question) .declarationEnd)
  lift (Lex.require (← lift (Lex.read (Scan.skip CodePoint.greaterThan))) .declarationEnd)
  let ch ← lift (Lex.read Scan.nextAfterSpace)
  lift (Lex.require (ch = CodePoint.lessThan) .afterDeclaration)

/-- An end tag after its `</`. The names of open elements are kept on a stack with a place for each depth. -/
def endTag : Lexing Stage := do
  let place ← lift (Lex.read Scan.offset)
  match ← lift (Lex.look (·.openTags)) with
  | [] => throw (.fault (.structural .unopenedTag (some place)))
  | name :: rest =>
    test (fun _ => rest.length ≤ Token.maxDepth) .element
    lift (Lex.requireAt place (← read (skipAgain name.offset name.length)) .mismatchedTag)
    lift (Lex.update ({ · with openTags := rest }))
    let ch ← lift (Lex.read Scan.nextAfterSpace)
    lift (Lex.require (ch = CodePoint.greaterThan) (.invalidCharacter .endTag))
    if rest.isEmpty then return .epilog else afterMarkup

def content (opened : Bool) : Lexing Stage := do
  let place ← lift (Lex.read Scan.offset)
  let ch ← lift (Lex.read Scan.nextAfterSpace)
  if ch = CodePoint.lessThan then
    let stop ← lift (Lex.read Scan.last)
    if ← lift (Lex.read (Scan.skip CodePoint.slash)) then
      if opened then
        let length ← distance place stop
        packed (Lex.emitText .characterData ⟨place, length⟩)
        return .endTag
      else
        emitSpace place stop
        return .endTag
    else
      emitSpace place stop
      return .markup
  else
    read (textStart ch)
    return .text place

def closeScope : Lexing Unit := fun s =>
  if s.namespaces then
    match close s.cursor s.scopes with
    | .ok () scopes => .ok () { s with scopes }
    | .error mishap scopes => .error mishap { s with scopes }
  else .ok () s

def closeTag (ch : CodePoint) (opened : Bool) : Lexing Stage := do
  lift (Lex.require (ch = CodePoint.greaterThan) (.invalidCharacter .startTag))
  closeScope
  if ← lift Lex.outsideRoot then return .epilog else content opened

def tagEnd (ch : CodePoint) : Lexing Stage := do
  if ch = CodePoint.slash then
    lift (Lex.update fun s => { s with openTags := s.openTags.tail })
    let ch ← lift (Lex.read Scan.next)
    closeTag ch false
  else closeTag ch true

def tagRest (ch : CodePoint) : Lexing Stage := do
  let after ← lift (Lex.read (Scan.skipSpace ch))
  if CodePoint.isSpace ch && CodePoint.isNameStart after then
    let place ← lift (Lex.read Scan.last)
    return .attributeName place after
  else tagEnd after

def startTag (place : Nat) : Lexing Stage := do
  let (ch, name) ← read (nameRest place)
  lift (Lex.checkElementPrefix name)
  lift (Lex.openElement name)
  test (·.openTags.length ≤ Token.maxDepth + 1) .element
  packed (Lex.emitElement name)
  lift (Lex.enterScope name)
  tagRest ch

/-- Whether an attribute of the tag has the same name; its bytes are taken even for the first one. -/
def isKnown (name : Name) (s : Lexer) : Guarded Fault Bool := do
  discard (slice s.cursor.doc name.offset (name.offset + name.length))
  s.attributes.anyM fun other => sameText s.cursor.doc other.offset other.length name.offset name.length

def addAttribute (name : Name) : Lexing Unit := do
  let known ← ask (isKnown name)
  lift (Lex.requireAt name.offset (!known) .duplicateAttribute)
  lift (Lex.update fun s => { s with attributes := name.span :: s.attributes })

def attributeName (place : Nat) (first : CodePoint) : Lexing Stage := do
  let (ch, role) ← lift (Lex.read (Scan.attributeRole first))
  let (ch, name) ← read (nameFrom place ch)
  let role ← lift (Lex.settleRole role name)
  addAttribute name
  packed (Lex.emitName (if role.declares then .namespaceName else .attributeName) name)
  lift (Lex.noteAttribute role name)
  let quote ← lift (Lex.read (Scan.openAttribute ch))
  return .attributeValue role quote

def attributeValue (role : AttributeRole) (quote : CodePoint) : Lexing Stage := do
  let place ← lift (Lex.read Scan.offset)
  read (Guarded.attributeValue quote)
  let stop ← lift (Lex.read Scan.last)
  let length ← distance place stop
  lift (Lex.bindValue role ⟨place, length⟩)
  packed (Lex.emitBounded .attributeValue ⟨place, length⟩)
  let ch ← lift (Lex.read Scan.next)
  tagRest ch

/-- The first markup of the document. What turns out not to be a declaration is read again. -/
def start : Lexing Stage := do
  let ch ← lift (Lex.read Scan.next)
  if ch = CodePoint.lessThan then
    if ← lift (Lex.read (Scan.orRewind Scan.opensDeclaration)) then
      let first ← lift (Lex.read Scan.nextAfterSpace)
      return .declaration first
    else return .markup
  else
    lift (Lex.require (CodePoint.isSpace ch) .notStarted)
    let next ← lift (Lex.read Scan.nextAfterSpace)
    lift (Lex.require (next = CodePoint.lessThan) .notStarted)
    return .markup

def markup : Lexing Stage := do
  let place ← lift (Lex.read Scan.offset)
  let ch ← lift (Lex.read Scan.next)
  if CodePoint.isNameStart ch then return .startTag place
  else if ch = CodePoint.slash then return .endTag
  else if ch = CodePoint.question then return .instruction
  else if ch = CodePoint.bang then declared
  else lift (Lex.fail .markupStart)

def lastMarkup (ch : CodePoint) : Lexing Stage := do
  lift (Lex.require (ch = CodePoint.lessThan) .notTerminated)
  match ← lift (Lex.read Scan.tail) with
  | .comment => return .lastComment
  | .instruction => return .lastInstruction

def epilog : Lexing Stage := do
  lastMarkup (← lift (Lex.read Scan.nextAfterSpace))

def step : Stage → Lexing Stage
  | .start => start
  | .declaration first => do
    declaration first
    return .markup
  | .markup => markup
  | .startTag place => startTag place
  | .attributeName place first => attributeName place first
  | .attributeValue role quote => attributeValue role quote
  | .text place => text place
  | .endTag => endTag
  | .instruction => do
    if ← instruction then return .instructionData else resume
  | .instructionData => do
    instructionData
    resume
  | .comment => do
    comment
    resume
  | .characterSection => do
    characterSection
    afterMarkup
  | .documentType => do
    documentType
    betweenMarkup
  | .epilog => epilog
  | .lastComment => do
    comment
    return .epilog
  | .lastInstruction => do
    if ← instruction then instructionData else pure ()
    return .epilog

/-- Takes steps until one fails, `count` at most. The end of the document is no failure after the root. -/
def run : (count : Nat) → Stage → Lexer → EStateM.Result (Mishap Fault) Lexer Unit
  | 0, _, s => .error (.hazard .steps) s
  | count + 1, stage, s =>
    match step stage s with
    | .ok next s' => run count next s'
    | .error mishap s' =>
      match mishap, stage with
      | .fault .endOfDocument, .epilog => .ok () s'
      | mishap, _ => .error mishap s'

end Lexing

def failure {ε : Type} (s : Lexer) (fault : Fault) : Guarded ε Failure :=
  match fault with
  | .endOfDocument => .ok ⟨.endOfDocument, none⟩
  | fault => do
    let position ← position s.cursor (fault.offset?.getD s.cursor.last)
    return ⟨fault, some position⟩

/-- Parses the document of `length` bytes at `offset`; the run takes at most one step more than there are bytes. -/
def parseRange {ε : Type} (options : Options) (namespaces : Bool) (doc : ByteArray) (offset length : Nat) (w : Workspace) :
    Guarded ε (Except Failure Index × Workspace) :=
  if doc.size < offset + length then
    .ok (.error ⟨.structural (.invalidRange offset length doc.size) none, none⟩, w)
  else
    match detect doc offset (offset + length) namespaces with
    | .error cause => .ok (.error ⟨.encoding cause, none⟩, w)
    | .ok detected =>
      match Lexing.run (length + 1) .start (.atStart options namespaces detected doc offset (offset + length) w) with
      | .error (.hazard hazard) _ => .error (.hazard hazard)
      | .error (.fault fault) s => do
        let failure ← failure s fault
        return (.error failure, s.workspace)
      | .ok () s =>
        let (x, w) := s.index doc offset length
        .ok (.ok x, w)

end Guarded
end XmlIndex
