import XmlIndex.Proofs.Grammar.Syntax
import XmlIndex.Proofs.Scan.Reading

/-! # The tokens of a document

Each part of a document has its tokens, given the place in bytes where it begins and its depth. A
run of character data has a token unless it is space between two pieces of markup; such space is a
token if space is recorded, and always if it is all that an element has between its tags.
-/
namespace XmlIndex.Grammar
set_option autoImplicit false

section
variable (e : Encoding)

def token (kind : TokenKind) (depth : Int) (place size : Nat) : Token :=
  ⟨kind, depth, place / e.unitSize, size / e.unitSize⟩

/-- A text of `size` bytes in tokens of the greatest length, but for the last. -/
def pieces (kind : TokenKind) (depth : Int) (place size : Nat) : List Token :=
  let length := size / e.unitSize
  (List.range ((length - 1) / Token.maxLength + 1)).map fun i =>
    ⟨kind, depth, place / e.unitSize + i * Token.maxLength,
      min Token.maxLength (length - i * Token.maxLength)⟩

def nameToken (kind : TokenKind) (depth : Int) (place : Nat) (name : Chars) : Token :=
  ⟨kind, depth, place / e.unitSize,
    Token.qualifiedLength (e.size (prefixOf name) / e.unitSize) (e.size name / e.unitSize)⟩

/-- Both lengths of a name can be stored. -/
def NameFits (name : Chars) : Prop :=
  e.size (prefixOf name) / e.unitSize ≤ Token.maxPrefixLength ∧
    e.size name / e.unitSize ≤ Token.maxNameLength

def TextFits (text : Chars) : Prop :=
  e.size text / e.unitSize ≤ Token.maxLength

end

def declaresNamespace (name : Chars) : Bool :=
  name == CodePoint.ofText "xmlns" || (CodePoint.ofText "xmlns:").isPrefixOf name

def attributeKind (name : Chars) : TokenKind :=
  if declaresNamespace name then .namespaceName else .attributeName

namespace Attribute
variable (e : Encoding)

def valuePlace (place : Nat) (a : Attribute) : Nat :=
  place + e.size (a.space ++ (a.name ++ a.binding.lead))

def tokens (depth : Int) (place : Nat) (a : Attribute) : List Token :=
  [nameToken e (attributeKind a.name) depth (place + e.size a.space) a.name,
    token e .attributeValue depth (a.valuePlace e place) (e.size a.binding.value)]

structure Fits (a : Attribute) : Prop where
  name : NameFits e a.name
  value : TextFits e a.binding.value

end Attribute

namespace Tag
variable (e : Encoding)

def attributeTokens (depth : Int) : (place : Nat) → List Attribute → List Token
  | _, [] => []
  | place, a :: rest => a.tokens e depth place ++ attributeTokens depth (place + e.size a.text) rest

def tokens (depth : Int) (place : Nat) (t : Tag) : List Token :=
  nameToken e .startTag depth place t.name ::
    attributeTokens e depth (place + e.size t.name) t.attributes

structure Fits (t : Tag) : Prop where
  name : NameFits e t.name
  attributes : ∀ a ∈ t.attributes, a.Fits e

end Tag

namespace Markup
variable (e : Encoding)

/-- The tokens of markup whose first bracket ends at `place`. -/
def tokens (depth : Int) (place : Nat) : Markup → List Token
  | .comment body =>
    pieces e .comment depth
      (place + e.size [CodePoint.bang, CodePoint.hyphen, CodePoint.hyphen]) (e.size body)
  | .section body =>
    pieces e .cdata depth
      (place + e.size (CodePoint.bang :: CodePoint.leftBracket :: CodePoint.ofText "CDATA["))
      (e.size body)
  | .instruction target none =>
    let place := place + e.size [CodePoint.question]
    [token e .instructionTarget depth place (e.size target),
      token e .instructionData depth (place + e.size target) 0]
  | .instruction target (some (space, data)) =>
    let place := place + e.size [CodePoint.question]
    [token e .instructionTarget depth place (e.size target),
      token e .instructionData depth (place + e.size (target ++ [space])) (e.size data)]
  | .documentType body =>
    [token e .doctype depth
      (place + e.size (CodePoint.bang :: 0x44 :: CodePoint.ofText "OCTYPE")) (e.size body)]

def Fits : Markup → Prop
  | .comment _ | .section _ => True
  | .instruction target none => TextFits e target
  | .instruction target (some (_, data)) => TextFits e target ∧ TextFits e data
  | .documentType body => TextFits e body

end Markup

/-- Whether a run has a token: as all that an element has between its tags, or else unless it is
space. -/
def runIsToken (recordSpace whole : Bool) (run : Chars) : Bool :=
  whole || !run.all CodePoint.isSpace || recordSpace && !run.isEmpty

def runTokens (e : Encoding) (recordSpace whole : Bool) (depth : Int) (place : Nat) (run : Chars) :
    List Token :=
  if runIsToken recordSpace whole run then pieces e .characterData depth place (e.size run) else []

namespace Content
variable (e : Encoding)

def tokens (recordSpace : Bool) (depth : Int) : (first : Bool) → (place : Nat) → Content → List Token
  | first, place, .last run => runTokens e recordSpace first depth place run
  | _, place, .markup run m rest =>
    let inner := place + e.size (run ++ [CodePoint.lessThan])
    runTokens e recordSpace false depth place run ++ (m.tokens e depth inner ++
      tokens recordSpace depth false (inner + e.size m.inner) rest)
  | _, place, .empty run tag rest =>
    let inner := place + e.size (run ++ [CodePoint.lessThan])
    runTokens e recordSpace false depth place run ++ (tag.tokens e (depth + 1) inner ++
      tokens recordSpace depth false
        (inner + e.size (tag.text ++ [CodePoint.slash, CodePoint.greaterThan])) rest)
  | _, place, .element run tag inside space rest =>
    let inner := place + e.size (run ++ [CodePoint.lessThan])
    let body := inner + e.size (tag.text ++ [CodePoint.greaterThan])
    runTokens e recordSpace false depth place run ++ (tag.tokens e (depth + 1) inner ++
      (tokens recordSpace (depth + 1) true body inside ++
        tokens recordSpace depth false
          (body + e.size (inside.text ++ CodePoint.lessThan :: endTag tag.name space)) rest))

/-- All names and texts can be stored, and elements lie no deeper than they may inside `depth` open
elements. -/
def Fits : (depth : Nat) → Content → Prop
  | _, .last _ => True
  | depth, .markup _ m rest => m.Fits e ∧ Fits depth rest
  | depth, .empty _ tag rest => depth ≤ Token.maxDepth ∧ tag.Fits e ∧ Fits depth rest
  | depth, .element _ tag inside _ rest =>
    depth ≤ Token.maxDepth ∧ tag.Fits e ∧ Fits (depth + 1) inside ∧ Fits depth rest

end Content

namespace Root
variable (e : Encoding)

def tokens (recordSpace : Bool) (place : Nat) (r : Root) : List Token :=
  r.tag.tokens e 0 place ++ match r.body with
    | none => []
    | some (inside, _) =>
      inside.tokens e recordSpace 0 true (place + e.size (r.tag.text ++ [CodePoint.greaterThan]))

structure Fits (r : Root) : Prop where
  tag : r.tag.Fits e
  body : ∀ inside space, r.body = some (inside, space) → inside.Fits e 1

end Root

namespace Declaration
variable (e : Encoding)

def partTokens (place : Nat) (a : Attribute) : List Token :=
  [token e .declarationName (-1) (place + e.size a.space) (e.size a.name),
    token e .declarationValue (-1) (a.valuePlace e place) (e.size a.binding.value)]

def optionalTokens (place : Nat) (a? : Option Attribute) : List Token :=
  a?.elim [] (partTokens e place)

def tokens (place : Nat) (d : Declaration) : List Token :=
  let version := place + e.size (CodePoint.question :: d.letters)
  let encoding := version + e.size d.version.text
  let standalone := encoding + e.size (optionalText d.encoding)
  partTokens e version d.version ++
    (optionalTokens e encoding d.encoding ++ optionalTokens e standalone d.standalone)

end Declaration

namespace Opening

def tokens (e : Encoding) (place : Nat) : Opening → List Token
  | .blank _ => []
  | .declaration d _ => d.tokens e (place + e.size [CodePoint.lessThan])

end Opening

def prologTokens (e : Encoding) : (place : Nat) → List (Markup × Chars) → List Token
  | _, [] => []
  | place, (m, space) :: rest =>
    m.tokens e (-1) place ++
      prologTokens e (place + e.size (m.inner ++ (space ++ [CodePoint.lessThan]))) rest

namespace Epilog
variable (e : Encoding)

def tokens : (place : Nat) → List (Chars × Markup) → List Token
  | _, [] => []
  | place, (space, m) :: rest =>
    let inner := place + e.size (space ++ [CodePoint.lessThan])
    m.tokens e (-1) inner ++ tokens (inner + e.size m.inner) rest

end Epilog

namespace Document
variable (e : Encoding)

/-- The tokens of all that follows the first bracket, which ends at `place`, but for a declaration. -/
def bodyTokens (recordSpace : Bool) (place : Nat) (d : Document) : List Token :=
  let root := place + e.size (prologText d.prolog)
  prologTokens e place d.prolog ++
    (d.root.tokens e recordSpace root ++ Epilog.tokens e (root + e.size d.root.text) d.epilog.items)

def tokens (recordSpace : Bool) (place : Nat) (d : Document) : List Token :=
  ⟨.document, -1, 0, 0⟩ :: (d.opening.tokens e place ++
    d.bodyTokens e recordSpace (place + e.size (d.opening.text ++ [CodePoint.lessThan])))

structure Fits (d : Document) : Prop where
  prolog : ∀ item ∈ d.prolog, item.1.Fits e
  root : d.root.Fits e
  epilog : ∀ item ∈ d.epilog.items, item.2.Fits e

end Document

end XmlIndex.Grammar
