import XmlIndex.Lexer.Content

/-! # Elements

A start tag is read name first, then attribute by attribute; the name of the open element is kept
so that its end tag can be compared byte for byte. With namespaces on, prefixes are declared and
used as the attributes come, and settled when the tag closes.
-/
namespace XmlIndex
set_option autoImplicit false

inductive AttributeRole where
  | plain
  | defaultNamespace
  | namespacePrefix
  | xmlPrefix
  deriving DecidableEq, Repr

def AttributeRole.declares : AttributeRole → Bool
  | .plain => false
  | _ => true

namespace AttributeValue

inductive State where
  | body
  | reference (state : Reference.State)

def step (quote : CodePoint) : State → CodePoint → Verdict State Unit
  | .body, ch =>
    if ch = quote then .done ()
    else if !CodePoint.isValid ch || ch = CodePoint.lessThan then
      .reject (.structural (.invalidCharacter .attributeValue) none)
    else if ch = CodePoint.ampersand then .more (.reference .start)
    else .more .body
  | .reference state, ch =>
    match Reference.step state ch with
    | .more state' => .more (.reference state')
    | .done _ => .more .body
    | .reject fault => .reject fault

end AttributeValue

namespace Scan

/-- Remembers the place of the last colon of a name. -/
def nameStep (colon place : Nat) (ch : CodePoint) : Verdict Nat (CodePoint × Nat) :=
  if CodePoint.isName ch then .more (if ch = CodePoint.colon then place else colon)
  else .done (ch, colon)

def nameEnd (place : Nat) (found : CodePoint × Nat) : Scan (CodePoint × Name) := do
  let stop ← last
  return (found.1, ⟨place, stop - place, found.2 - place⟩)

def nameRest (place : Nat) : Scan (CodePoint × Name) := do
  nameEnd place (← drive nameStep place)

def nameFrom (place : Nat) (ch : CodePoint) : Scan (CodePoint × Name) := do
  nameEnd place (← feed nameStep place ch)

/-- What follows the letters `xmlns` tells a declaration from an attribute of a longer name. -/
def declaredRole (ch : CodePoint) : AttributeRole :=
  if ch = CodePoint.equals || CodePoint.isSpace ch then .defaultNamespace
  else if ch = CodePoint.colon then .namespacePrefix
  else .plain

/-- Looks for a namespace declaration in a name that begins with `first`; the result is the
character to go on from. -/
def attributeRole (first : CodePoint) : Scan (CodePoint × AttributeRole) := do
  if first = 0x78 then
    if ← skipAll (CodePoint.ofText "mlns") then
      let ch ← next
      return (ch, declaredRole ch)
    else return (first, .plain)
  else return (first, .plain)

def openAttribute (ch : CodePoint) : Scan CodePoint := do
  let ch ← skipSpace ch
  require (ch = CodePoint.equals) .attributeEquals
  let quote ← nextAfterSpace
  require (quote = CodePoint.doubleQuote || quote = CodePoint.singleQuote) .unquotedValue
  return quote

def attributeValue (quote : CodePoint) : Scan Unit :=
  drive (fun state _ ch => AttributeValue.step quote state ch) .body

end Scan

namespace Lex

def spells (span : Span) (text : String) : Lex Bool :=
  read (Scan.ask (·.spells span.offset span.length (CodePoint.ofText text)))

def prefixSpan (name : Name) : Span :=
  ⟨name.offset, name.prefixLength⟩

def namespacesOn : Lex Bool :=
  look (·.namespaces)

/-- An end tag after its `</`. Its name must be that of the innermost open element. -/
def endTag : Lex Phase := do
  let place ← read Scan.offset
  match ← look (·.openTags) with
  | [] => throw (.structural .unopenedTag (some place))
  | name :: rest =>
    requireAt place (← read (Scan.skipAgain name.offset name.length)) .mismatchedTag
    update ({ · with openTags := rest })
    let ch ← read Scan.nextAfterSpace
    require (ch = CodePoint.greaterThan) (.invalidCharacter .endTag)
    if rest.isEmpty then return .epilog else afterMarkup

/-- The content after a start tag. An element that ends at once still has a text, be it empty;
`opened` is false after an empty-element tag. -/
def content (opened : Bool) : Lex Phase := do
  let place ← read Scan.offset
  let ch ← read Scan.nextAfterSpace
  if ch = CodePoint.lessThan then
    let stop ← read Scan.last
    if ← read (Scan.skip CodePoint.slash) then
      if opened then
        emitText .characterData ⟨place, stop - place⟩
        endTag
      else
        emitSpace place stop
        endTag
    else
      emitSpace place stop
      return .markup
  else text place ch

def closeTag (ch : CodePoint) (opened : Bool) : Lex Phase := do
  require (ch = CodePoint.greaterThan) (.invalidCharacter .startTag)
  closeScope
  if ← outsideRoot then return .epilog else content opened

def tagEnd (ch : CodePoint) : Lex Phase := do
  if ch = CodePoint.slash then
    update fun s => { s with openTags := s.openTags.tail }
    let ch ← read Scan.next
    closeTag ch false
  else closeTag ch true

/-- What follows a name or a value in a start tag: another attribute after space, or the end. -/
def tagRest (ch : CodePoint) : Lex Phase := do
  let after ← read (Scan.skipSpace ch)
  if CodePoint.isSpace ch && CodePoint.isNameStart after then
    let place ← read Scan.last
    return .attributes place after
  else tagEnd after

def checkElementPrefix (name : Name) : Lex Unit := do
  if (← namespacesOn) && name.prefixLength != 0 then
    requireAt name.offset (!(← spells (prefixSpan name) "xmlns")) .xmlnsElement
  else pure ()

def openElement (name : Name) : Lex Unit := do
  let depth ← look (·.openTags.length)
  requireAt name.offset (depth ≤ Token.maxDepth) .tooDeep
  update fun s =>
    { s with
      openTags := name.span :: s.openTags
      maxDepth := max s.maxDepth depth
      attributes := [] }

def enterScope (name : Name) : Lex Unit := do
  if ← namespacesOn then
    let size ← unitSize
    update fun s =>
      let depth := s.openTags.length - 1
      let element := if name.prefixLength = 0 then none else some (name.toPrefixed size)
      { s with scopes := s.scopes.enter depth element }
  else pure ()

def startTag (place : Nat) : Lex Phase := do
  let (ch, name) ← read (Scan.nameRest place)
  checkElementPrefix name
  openElement name
  emitElement name
  enterScope name
  tagRest ch

def settleRole (role : AttributeRole) (name : Name) : Lex AttributeRole := do
  if role = .namespacePrefix && (← namespacesOn) then
    let declared := name.localSpan (← unitSize)
    requireAt name.offset (!(← spells declared "xmlns")) .xmlnsRedeclared
    if ← spells declared "xml" then return .xmlPrefix else return .namespacePrefix
  else return role

def addAttribute (name : Name) : Lex Unit := do
  let known ← look fun s =>
    s.attributes.any fun other =>
      Namespace.sameText s.cursor.doc other.offset other.length name.offset name.length
  requireAt name.offset (!known) .duplicateAttribute
  update fun s => { s with attributes := name.span :: s.attributes }

/-- With namespaces on, a declaring name keeps its prefix for the value to come, and any other
prefixed name is to be qualified; the prefix `xml` needs neither. -/
def noteAttribute (role : AttributeRole) (name : Name) : Lex Unit := do
  if (← namespacesOn) && name.prefixLength != 0 then
    let size ← unitSize
    match role with
    | .namespacePrefix =>
      let declared := name.localSpan size
      update fun s => { s with scopes := s.scopes.declare declared.offset declared.length }
    | .plain =>
      if ← spells (prefixSpan name) "xml" then pure ()
      else update fun s => { s with scopes := s.scopes.addAttribute (name.toPrefixed size) }
    | .defaultNamespace | .xmlPrefix => pure ()
  else pure ()

def checkReserved (place : Nat) : Namespace.Reserved → Lex Unit
  | .none => pure ()
  | .xml => throw (.structural .xmlNamespaceDeclared (some place))
  | .xmlns => throw (.structural .xmlnsNamespaceDeclared (some place))

def bindValue (role : AttributeRole) (value : Span) : Lex Unit := do
  if role.declares && (← namespacesOn) then
    requireAt value.offset (role = .defaultNamespace || value.length != 0) .emptyNamespace
    let reserved ← read (Scan.ask (Namespace.reserved value.offset value.length))
    match role with
    | .xmlPrefix => requireAt value.offset (reserved = .xml) .xmlRebound
    | .namespacePrefix =>
      update fun s => { s with scopes := s.scopes.bind value.offset value.length }
      checkReserved value.offset reserved
    | .defaultNamespace | .plain => checkReserved value.offset reserved
  else pure ()

def attributeValue (ch : CodePoint) : Lex Span := do
  let quote ← read (Scan.openAttribute ch)
  let place ← read Scan.offset
  read (Scan.attributeValue quote)
  let stop ← read Scan.last
  return ⟨place, stop - place⟩

/-- An attribute whose name begins at `place` with `first`, which has been consumed. -/
def readAttribute (place : Nat) (first : CodePoint) : Lex Phase := do
  let (ch, role) ← read (Scan.attributeRole first)
  let (ch, name) ← read (Scan.nameFrom place ch)
  let role ← settleRole role name
  addAttribute name
  emitName (if role.declares then .namespaceName else .attributeName) name
  noteAttribute role name
  let value ← attributeValue ch
  bindValue role value
  emitBounded .attributeValue value
  let ch ← read Scan.next
  tagRest ch

end Lex
end XmlIndex
