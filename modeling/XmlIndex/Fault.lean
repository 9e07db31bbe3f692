import XmlIndex.Text.Decoding
import XmlIndex.Text.Position
import XmlIndex.Token.Basic

/-! # Faults of a document

Each fault is a cause; its kind and its wording are functions of the cause. A `Failure` is a fault
with the place it is reported at, and a `Report` is what a reader of the failure sees.
-/
namespace XmlIndex
set_option autoImplicit false

def hexText (width n : Nat) : String :=
  let digits := (Nat.toDigits 16 n).map Char.toUpper
  String.ofList (List.replicate (width - digits.length) '0' ++ digits)

def DecodeFault.message : DecodeFault → String
  | .truncated => "premature end of document"
  | .utf8Byte byte => s!"invalid UTF-8 byte 0x{hexText 2 byte}"
  | .utf8Sequence c => s!"invalid UTF-8 sequence decoding to U+{hexText 4 c}"
  | .asciiByte byte => s!"invalid ASCII byte 0x{hexText 2 byte}"
  | .unmapped byte page => s!"byte 0x{hexText 2 byte} is not mapped in {page.name}"
  | .highSurrogate => "UTF-16 high surrogate without low surrogate"
  | .lowSurrogate => "unpaired UTF-16 low surrogate"

inductive EncodingFault where
  | undecodable (cause : DecodeFault)
  | emptyDocument
  | unknownMark (first : Nat)
  | strayNul (order : ByteOrder)
  | tooLarge (limit : Nat)
  | malformedLabel
  | unknownLabel (label : String)
  | unmarkedUtf16
  | noSwitch (detected : Encoding) (label : String)
  | contradicted (declared detected : Encoding)
  | marked (declared : Encoding)
  | notUtf8
  deriving DecidableEq, Repr

def EncodingFault.message : EncodingFault → String
  | .undecodable cause => cause.message
  | .emptyDocument => "document is zero sized"
  | .unknownMark first => s!"unknown byte order mark {hexText 2 first}"
  | .strayNul .big => "not UTF-16BE"
  | .strayNul .little => "not UTF-16LE"
  | .tooLarge limit => s!"document size exceeds the {limit} byte addressing limit"
  | .malformedLabel => "malformed encoding name"
  | .unknownLabel label => s!"unsupported encoding {label}"
  | .unmarkedUtf16 => "UTF-16 declared without a byte order mark"
  | .noSwitch detected label => s!"can't switch from {detected.name} to {label}"
  | .contradicted declared detected =>
    s!"declared encoding {declared.name} contradicts the detected {detected.name}"
  | .marked declared =>
    s!"can't switch from UTF-8 to {declared.name} after a UTF-8 byte order mark"
  | .notUtf8 => "token is not valid UTF-8"

inductive ReferenceFault where
  | hexDigit
  | decimalDigit
  | outOfRange
  | invalidCharacter (c : CodePoint)
  | longName
  | unknownName (name : String)
  deriving DecidableEq, Repr

def ReferenceFault.message : ReferenceFault → String
  | .hexDigit => "illegal char following &#x"
  | .decimalDigit => "illegal char following &#"
  | .outOfRange => "character reference out of range"
  | .invalidCharacter c => s!"character reference to invalid XML char #x{hexText 1 c}"
  | .longName => "illegal char following &"
  | .unknownName name =>
    s!"unknown entity &{name.map fun c => if c.toNat < 0x80 then c else Char.ofNat 0};"

inductive Region where
  | startTag
  | endTag
  | attributeValue
  | text
  | comment
  | cdata
  | instructionTarget
  | instructionData
  | doctype
  deriving DecidableEq, Repr

def Region.name : Region → String
  | .startTag => "start tag"
  | .endTag => "end tag"
  | .attributeValue => "attribute value"
  | .text => "text content"
  | .comment => "comment"
  | .cdata => "CDATA"
  | .instructionTarget => "PI target"
  | .instructionData => "PI value"
  | .doctype => "DOCTYPE"

inductive SyntaxFault where
  | invalidRange (offset length size : Nat)
  | notStarted
  | notTerminated
  | invalidCharacter (region : Region)
  | tooLong (kind : TokenKind)
  | longName
  | tooDeep
  | emptyDeclaration
  | versionExpected
  | unsupportedVersion
  | declarationEquals
  | declarationQuote
  | declarationUnclosed
  | encodingExpected
  | standaloneExpected
  | standaloneValue
  | declarationEnd
  | afterDeclaration
  | markupStart
  | declarationStart
  | commentStart
  | cdataStart
  | doctypeStart
  | cdataOutsideRoot
  | misplacedDoctype
  | secondDoctype
  | textOutsideRoot
  | doubleHyphen
  | reservedTarget
  | instructionEnd
  | afterTarget
  | unopenedTag
  | mismatchedTag
  | duplicateAttribute
  | attributeEquals
  | unquotedValue
  | sectionEnd
  | xmlnsElement
  | xmlnsRedeclared
  | emptyNamespace
  | xmlRebound
  | xmlNamespaceDeclared
  | xmlnsNamespaceDeclared
  | unqualifiedElement
  | unqualifiedAttribute
  | collidingAttributes
  deriving DecidableEq, Repr

def SyntaxFault.message : SyntaxFault → String
  | .invalidRange offset length size =>
    s!"invalid document range {offset}+{length} for a buffer of {size} bytes"
  | .notStarted => "XML not starting properly"
  | .notTerminated => "XML not terminated properly"
  | .invalidCharacter region => s!"invalid char in {region.name}"
  | .tooLong kind => s!"{kind.name} too long"
  | .longName => "name prefix or qualified name too long"
  | .tooDeep => "element depth exceeds the maximum of 254"
  | .emptyDeclaration => "premature end of XML declaration"
  | .versionExpected => "XML declaration must start with version"
  | .unsupportedVersion => "unsupported XML version"
  | .declarationEquals => "'=' expected in XML declaration"
  | .declarationQuote => "quote expected in XML declaration"
  | .declarationUnclosed => "unterminated value in XML declaration"
  | .encodingExpected => "encoding expected in XML declaration"
  | .standaloneExpected => "standalone expected in XML declaration"
  | .standaloneValue => "standalone must be yes or no"
  | .declarationEnd => "invalid XML declaration termination"
  | .afterDeclaration => "invalid char after XML declaration"
  | .markupStart => "invalid char after <"
  | .declarationStart => "unrecognized char after <!"
  | .commentStart => "invalid comment opening"
  | .cdataStart => "invalid CDATA opening"
  | .doctypeStart => "invalid DOCTYPE opening"
  | .cdataOutsideRoot => "CDATA outside the root element"
  | .misplacedDoctype => "DOCTYPE declaration in the wrong place"
  | .secondDoctype => "only one DOCTYPE declaration is allowed"
  | .textOutsideRoot => "character data outside the root element"
  | .doubleHyphen => "-- inside a comment"
  | .reservedTarget => "[xX][mM][lL] is not a valid PI target"
  | .instructionEnd => "invalid PI termination"
  | .afterTarget => "invalid char after PI target"
  | .unopenedTag => "end tag without a start tag"
  | .mismatchedTag => "start/end tag mismatch"
  | .duplicateAttribute => "attribute name not unique"
  | .attributeEquals => "'=' expected after attribute name"
  | .unquotedValue => "attribute value must be quoted"
  | .sectionEnd => "]]> in character data"
  | .xmlnsElement => "xmlns can't be an element prefix"
  | .xmlnsRedeclared => "xmlns prefix can't be re-declared"
  | .emptyNamespace => "prefixed namespace URI can't be empty"
  | .xmlRebound => "xml prefix can only be bound to its reserved URI"
  | .xmlNamespaceDeclared => "reserved xml namespace URI can't be declared"
  | .xmlnsNamespaceDeclared => "reserved xmlns namespace URI can't be declared"
  | .unqualifiedElement => "element not qualified"
  | .unqualifiedAttribute => "prefixed attribute not qualified"
  | .collidingAttributes => "qualified attribute names collide"

inductive FaultKind where
  | encoding
  | reference
  | endOfDocument
  | structural
  deriving DecidableEq, Repr

/-- A fault met while reading; a structural one may name the offset it concerns. -/
inductive Fault where
  | endOfDocument
  | encoding (cause : EncodingFault)
  | reference (cause : ReferenceFault)
  | structural (cause : SyntaxFault) (offset? : Option Nat)
  deriving DecidableEq, Repr

namespace Fault

/-- A character cut off by the end of the document ends it. -/
def ofDecode : DecodeFault → Fault
  | .truncated => .endOfDocument
  | cause => .encoding (.undecodable cause)

def kind : Fault → FaultKind
  | .endOfDocument => .endOfDocument
  | .encoding _ => .encoding
  | .reference _ => .reference
  | .structural .. => .structural

def message : Fault → String
  | .endOfDocument => "premature end of document"
  | .encoding cause => cause.message
  | .reference cause => cause.message
  | .structural cause _ => cause.message

def offset? : Fault → Option Nat
  | .structural _ offset? => offset?
  | _ => none

end Fault

/-- What is shown of a failure; the end of the document has neither a wording of its own nor a
position. -/
structure Report where
  kind : FaultKind
  message : String
  position : Option Position
  deriving DecidableEq, Repr

namespace Report

def make (kind : FaultKind) (message : String) (position : Option Position) : Report :=
  match kind with
  | .endOfDocument => ⟨.endOfDocument, Fault.endOfDocument.message, none⟩
  | kind => ⟨kind, message, position⟩

def isEndOfDocument (report : Report) : Bool :=
  report.kind = .endOfDocument

def place : Option Position → String
  | none => ""
  | some position => s!" ({position.text})"

def text (report : Report) : String :=
  match report.kind with
  | .endOfDocument => report.message
  | .encoding => s!"encoding error: {report.message}{place report.position}"
  | .reference => s!"entity error: {report.message}{place report.position}"
  | .structural => s!"parse error: {report.message}{place report.position}"

end Report

structure Failure where
  fault : Fault
  position : Option Position
  deriving DecidableEq, Repr

def Failure.report (failure : Failure) : Report :=
  .make failure.fault.kind failure.fault.message failure.position

end XmlIndex
