import XmlIndex.Lexer.Declaration
import XmlIndex.Lexer.Markup

/-! # Documents as syntax trees

A document is a tree whose leaves keep every character, spaces and quotes included, so it has one
text. Well-formedness is a property of the tree; nothing here knows of bytes or of reading.
-/
namespace XmlIndex.Grammar
set_option autoImplicit false

abbrev Chars := List CodePoint

def IsSpace (text : Chars) : Prop :=
  ∀ ch ∈ text, CodePoint.isSpace ch = true

def IsValid (text : Chars) : Prop :=
  ∀ ch ∈ text, CodePoint.isValid ch = true

def IsName : Chars → Prop
  | [] => False
  | first :: rest => CodePoint.isNameStart first = true ∧ ∀ ch ∈ rest, CodePoint.isName ch = true

theorem IsName.ne_nil {name : Chars} (hName : IsName name) : name ≠ [] := by
  rintro rfl
  exact hName

/-- The part of a name before its last colon. -/
def prefixOf : Chars → Chars
  | [] => []
  | ch :: rest => if CodePoint.colon ∈ rest then ch :: prefixOf rest else []

def Matches : List Chars → Chars → Prop
  | [], [] => True
  | choices :: rest, ch :: text => ch ∈ choices ∧ Matches rest text
  | _, _ => False

/-- What follows `body` is the first occurrence of the terminator. -/
def EndsFirst (terminator body : Chars) : Prop :=
  ¬terminator <:+: body ++ terminator.dropLast

/-- Brackets close no more than was opened before, and all of them. -/
def Balanced (body : Chars) : Prop :=
  (∀ start, start <+: body → start.count CodePoint.greaterThan ≤ start.count CodePoint.lessThan) ∧
    body.count CodePoint.greaterThan = body.count CodePoint.lessThan

def numeral (base : Nat) (digit? : CodePoint → Option Nat) (value : Nat) : Chars → Option Nat
  | [] => some value
  | ch :: rest => (digit? ch).bind fun digit => numeral base digit? (base * value + digit) rest

/-- What stands between the `&` and the `;` of a reference, and the character it stands for. -/
inductive Denotes : Chars → CodePoint → Prop where
  | decimal {digits : Chars} {c : CodePoint} :
      numeral 10 Reference.decimalDigit? 0 digits = some c → CodePoint.isValid c = true →
      Denotes (CodePoint.hash :: digits) c
  | hex {digits : Chars} {c : CodePoint} :
      numeral 16 Reference.hexDigit? 0 digits = some c → CodePoint.isValid c = true →
      Denotes (CodePoint.hash :: 0x78 :: digits) c
  | entity {name : Chars} {c : CodePoint} :
      EntityName.codePoint? (String.ofList (name.map Char.ofNat)) = some c → Denotes name c

inductive Escaped (plain : CodePoint → Bool) : Chars → Prop where
  | nil : Escaped plain []
  | char {ch : CodePoint} {rest : Chars} :
      plain ch = true → Escaped plain rest → Escaped plain (ch :: rest)
  | reference {body rest : Chars} {c : CodePoint} : Denotes body c → Escaped plain rest →
      Escaped plain (CodePoint.ampersand :: (body ++ CodePoint.semicolon :: rest))

def isTextChar (ch : CodePoint) : Bool :=
  CodePoint.isValid ch && ch != CodePoint.lessThan && ch != CodePoint.ampersand

def isValueChar (quote ch : CodePoint) : Bool :=
  isTextChar ch && ch != quote

structure IsRun (run : Chars) : Prop where
  escaped : Escaped isTextChar run
  noSectionEnd : ¬[CodePoint.rightBracket, CodePoint.rightBracket, CodePoint.greaterThan] <:+: run

structure Binding where
  before : Chars
  after : Chars
  quote : CodePoint
  value : Chars

namespace Binding

def lead (b : Binding) : Chars :=
  b.before ++ CodePoint.equals :: (b.after ++ [b.quote])

def text (b : Binding) : Chars :=
  b.lead ++ (b.value ++ [b.quote])

structure WellFormed (b : Binding) : Prop where
  before : IsSpace b.before
  after : IsSpace b.after
  quote : b.quote = CodePoint.doubleQuote ∨ b.quote = CodePoint.singleQuote

end Binding

structure Attribute where
  space : Chars
  name : Chars
  binding : Binding

namespace Attribute

def text (a : Attribute) : Chars :=
  a.space ++ (a.name ++ a.binding.text)

structure Shaped (a : Attribute) : Prop where
  nonempty : a.space ≠ []
  space : IsSpace a.space
  binding : a.binding.WellFormed

structure WellFormed (a : Attribute) : Prop extends a.Shaped where
  name : IsName a.name
  value : Escaped (isValueChar a.binding.quote) a.binding.value

end Attribute

/-- A start tag or an empty-element tag, between its brackets. -/
structure Tag where
  name : Chars
  attributes : List Attribute
  space : Chars

namespace Tag

def attributeText (attributes : List Attribute) : Chars :=
  attributes.flatMap Attribute.text

def text (t : Tag) : Chars :=
  t.name ++ (attributeText t.attributes ++ t.space)

structure WellFormed (t : Tag) : Prop where
  name : IsName t.name
  attributes : ∀ a ∈ t.attributes, a.WellFormed
  distinct : (t.attributes.map Attribute.name).Nodup
  space : IsSpace t.space

end Tag

def endTag (name space : Chars) : Chars :=
  CodePoint.slash :: (name ++ (space ++ [CodePoint.greaterThan]))

inductive Markup where
  | comment (body : Chars)
  | section (body : Chars)
  | instruction (target : Chars) (data : Option (CodePoint × Chars))
  | documentType (body : Chars)

namespace Markup

/-- The text after the first bracket. -/
def inner : Markup → Chars
  | .comment body =>
    [CodePoint.bang, CodePoint.hyphen, CodePoint.hyphen] ++
      (body ++ [CodePoint.hyphen, CodePoint.hyphen, CodePoint.greaterThan])
  | .section body =>
    CodePoint.bang :: CodePoint.leftBracket :: (CodePoint.ofText "CDATA[" ++
      (body ++ [CodePoint.rightBracket, CodePoint.rightBracket, CodePoint.greaterThan]))
  | .instruction target none =>
    CodePoint.question :: (target ++ [CodePoint.question, CodePoint.greaterThan])
  | .instruction target (some (space, data)) =>
    CodePoint.question :: (target ++ space :: (data ++ [CodePoint.question, CodePoint.greaterThan]))
  | .documentType body =>
    CodePoint.bang :: 0x44 :: (CodePoint.ofText "OCTYPE" ++ (body ++ [CodePoint.greaterThan]))

def IsTarget (target : Chars) : Prop :=
  IsName target ∧ ¬Matches Instruction.reserved target

def WellFormed : Markup → Prop
  | .comment body => IsValid body ∧ EndsFirst [CodePoint.hyphen, CodePoint.hyphen] body
  | .section body =>
    IsValid body ∧
      EndsFirst [CodePoint.rightBracket, CodePoint.rightBracket, CodePoint.greaterThan] body
  | .instruction target none => IsTarget target
  | .instruction target (some (space, data)) =>
    IsTarget target ∧ CodePoint.isSpace space = true ∧ IsValid data ∧
      EndsFirst [CodePoint.question, CodePoint.greaterThan] data
  | .documentType body => IsValid body ∧ Balanced body

def isSection : Markup → Bool
  | .section _ => true
  | _ => false

def isDocumentType : Markup → Bool
  | .documentType _ => true
  | _ => false

def isMisc (m : Markup) : Bool :=
  !m.isSection && !m.isDocumentType

end Markup

/-- What stands inside an element; a run of character data, perhaps empty, precedes each piece. -/
inductive Content where
  | last (run : Chars)
  | markup (run : Chars) (m : Markup) (rest : Content)
  | empty (run : Chars) (tag : Tag) (rest : Content)
  | element (run : Chars) (tag : Tag) (inside : Content) (space : Chars) (rest : Content)

namespace Content

def text : Content → Chars
  | .last run => run
  | .markup run m rest => run ++ CodePoint.lessThan :: (m.inner ++ rest.text)
  | .empty run tag rest =>
    run ++ CodePoint.lessThan :: (tag.text ++ CodePoint.slash :: CodePoint.greaterThan :: rest.text)
  | .element run tag inside space rest =>
    run ++ CodePoint.lessThan :: (tag.text ++ CodePoint.greaterThan :: (inside.text ++
      CodePoint.lessThan :: (endTag tag.name space ++ rest.text)))

def WellFormed : Content → Prop
  | .last run => IsRun run
  | .markup run m rest =>
    IsRun run ∧ m.WellFormed ∧ m.isDocumentType = false ∧ rest.WellFormed
  | .empty run tag rest => IsRun run ∧ tag.WellFormed ∧ rest.WellFormed
  | .element run tag inside space rest =>
    IsRun run ∧ tag.WellFormed ∧ inside.WellFormed ∧ IsSpace space ∧ rest.WellFormed

end Content

/-- The root element; it is an empty-element tag if there is no body. -/
structure Root where
  tag : Tag
  body : Option (Content × Chars)

namespace Root

def bodyText (name : Chars) : Option (Content × Chars) → Chars
  | none => [CodePoint.slash, CodePoint.greaterThan]
  | some (inside, space) =>
    CodePoint.greaterThan :: (inside.text ++ CodePoint.lessThan :: endTag name space)

def text (r : Root) : Chars :=
  r.tag.text ++ bodyText r.tag.name r.body

structure WellFormed (r : Root) : Prop where
  tag : r.tag.WellFormed
  body : ∀ inside space, r.body = some (inside, space) → inside.WellFormed ∧ IsSpace space

end Root

structure Declaration where
  letters : Chars
  version : Attribute
  encoding : Option Attribute
  standalone : Option Attribute
  space : Chars

namespace Declaration

def optionalText (a? : Option Attribute) : Chars :=
  a?.elim [] Attribute.text

def text (d : Declaration) : Chars :=
  CodePoint.question :: (d.letters ++ (d.version.text ++ (optionalText d.encoding ++
    (optionalText d.standalone ++ (d.space ++ [CodePoint.question, CodePoint.greaterThan])))))

structure Part (name : String) (IsValue : Chars → Prop) (a : Attribute) : Prop extends a.Shaped where
  name : a.name = CodePoint.ofText name
  value : IsValue a.binding.value

def IsVersion (value : Chars) : Prop :=
  value = CodePoint.ofText "1.0" ∨ value = CodePoint.ofText "1.1"

/-- A letter, then letters, digits, full stops, underscores and hyphens. -/
def IsLabel : Chars → Prop
  | [] => False
  | first :: rest => CodePoint.isLetter first = true ∧ ∀ ch ∈ rest, EncodingLabel.isAllowed ch = true

def IsAnswer (value : Chars) : Prop :=
  value = CodePoint.ofText "yes" ∨ value = CodePoint.ofText "no"

/-- The parts of a declaration, for given ideas of its letters and of the answer whether the
document stands alone. -/
structure Parts (IsLetters IsAnswer : Chars → Prop) (d : Declaration) : Prop where
  letters : IsLetters d.letters
  version : Part "version" IsVersion d.version
  encoding : ∀ a, d.encoding = some a → Part "encoding" IsLabel a
  standalone : ∀ a, d.standalone = some a → Part "standalone" IsAnswer a
  space : IsSpace d.space

def WellFormed (d : Declaration) : Prop :=
  d.Parts (· = CodePoint.ofText "xml") IsAnswer

/-- Well-formed but for the case of the first letters. -/
def Caseless (d : Declaration) : Prop :=
  d.Parts (Matches Instruction.reserved) IsAnswer

def IsWord (value : Chars) : Prop :=
  ∀ ch ∈ value, CodePoint.isLetter ch = true

/-- A declaration whose first letters may be of either case, with any word to tell whether the
document stands alone. -/
def Tolerated (d : Declaration) : Prop :=
  d.Parts (Matches Instruction.reserved) IsWord

end Declaration

inductive Opening where
  | blank (space : Chars)
  | declaration (d : Declaration) (space : Chars)

namespace Opening

def text : Opening → Chars
  | .blank space => space
  | .declaration d space => CodePoint.lessThan :: (d.text ++ space)

def WellFormed : Opening → Prop
  | .blank space => IsSpace space
  | .declaration d space => d.WellFormed ∧ IsSpace space

def Caseless : Opening → Prop
  | .blank space => IsSpace space
  | .declaration d space => d.Caseless ∧ IsSpace space

def Tolerated : Opening → Prop
  | .blank space => IsSpace space
  | .declaration d space => d.Tolerated ∧ IsSpace space

end Opening

def prologText (items : List (Markup × Chars)) : Chars :=
  items.flatMap fun item => item.1.inner ++ (item.2 ++ [CodePoint.lessThan])

structure IsProlog (items : List (Markup × Chars)) : Prop where
  wellFormed : ∀ item ∈ items, item.1.WellFormed ∧ item.1.isSection = false ∧ IsSpace item.2
  single : (items.filter (·.1.isDocumentType)).length ≤ 1

structure Epilog where
  items : List (Chars × Markup)
  space : Chars

namespace Epilog

def itemsText (items : List (Chars × Markup)) : Chars :=
  items.flatMap fun item => item.1 ++ CodePoint.lessThan :: item.2.inner

def text (ep : Epilog) : Chars :=
  itemsText ep.items ++ ep.space

structure WellFormed (ep : Epilog) : Prop where
  items : ∀ item ∈ ep.items, IsSpace item.1 ∧ item.2.WellFormed ∧ item.2.isMisc = true
  space : IsSpace ep.space

end Epilog

structure Document where
  opening : Opening
  prolog : List (Markup × Chars)
  root : Root
  epilog : Epilog

namespace Document

def upToRoot (d : Document) : Chars :=
  d.opening.text ++ CodePoint.lessThan :: (prologText d.prolog ++ d.root.text)

def text (d : Document) : Chars :=
  d.upToRoot ++ d.epilog.text

structure BodyWellFormed (d : Document) : Prop where
  prolog : IsProlog d.prolog
  root : d.root.WellFormed
  epilog : d.epilog.WellFormed

def WellFormed (d : Document) : Prop :=
  d.opening.WellFormed ∧ d.BodyWellFormed

def Tolerated (d : Document) : Prop :=
  d.opening.Tolerated ∧ d.BodyWellFormed

end Document

end XmlIndex.Grammar
