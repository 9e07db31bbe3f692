/-! # Tokens

A token names a stretch of the document by its offset and length, both in code units. Names of
elements and attributes share one length field between the prefix and the whole name.
-/
namespace XmlIndex
set_option autoImplicit false

inductive TokenKind where
  | startTag
  | endTag
  | attributeName
  | namespaceName
  | attributeValue
  | characterData
  | comment
  | instructionTarget
  | instructionData
  | declarationName
  | declarationValue
  | cdata
  | doctype
  | document
  deriving DecidableEq, Repr

namespace TokenKind

def all : List TokenKind :=
  [.startTag, .endTag, .attributeName, .namespaceName, .attributeValue, .characterData, .comment,
    .instructionTarget, .instructionData, .declarationName, .declarationValue, .cdata, .doctype,
    .document]

def code : TokenKind → Nat
  | .startTag => 0
  | .endTag => 1
  | .attributeName => 2
  | .namespaceName => 3
  | .attributeValue => 4
  | .characterData => 5
  | .comment => 6
  | .instructionTarget => 7
  | .instructionData => 8
  | .declarationName => 9
  | .declarationValue => 10
  | .cdata => 11
  | .doctype => 12
  | .document => 13

def ofCode? : Nat → Option TokenKind
  | 0 => some .startTag
  | 1 => some .endTag
  | 2 => some .attributeName
  | 3 => some .namespaceName
  | 4 => some .attributeValue
  | 5 => some .characterData
  | 6 => some .comment
  | 7 => some .instructionTarget
  | 8 => some .instructionData
  | 9 => some .declarationName
  | 10 => some .declarationValue
  | 11 => some .cdata
  | 12 => some .doctype
  | 13 => some .document
  | _ => none

theorem ofCode?_code (kind : TokenKind) : ofCode? kind.code = some kind := by
  cases kind <;> rfl

theorem code_lt (kind : TokenKind) : kind.code < 14 := by
  cases kind <;> decide

theorem code_of_ofCode?_eq_some {n : Nat} {kind : TokenKind} (hKind : ofCode? n = some kind) :
    kind.code = n := by
  unfold ofCode? at hKind
  split at hKind <;> cases hKind <;> rfl

def name : TokenKind → String
  | .startTag => "start_tag"
  | .endTag => "end_tag"
  | .attributeName => "attr_name"
  | .namespaceName => "attr_ns"
  | .attributeValue => "attr_val"
  | .characterData => "character_data"
  | .comment => "comment"
  | .instructionTarget => "pi_name"
  | .instructionData => "pi_val"
  | .declarationName => "dec_attr_name"
  | .declarationValue => "dec_attr_val"
  | .cdata => "cdata"
  | .doctype => "dtd_val"
  | .document => "document"

/-- Whether the length field holds the length of a prefix beside that of the name. -/
def isQualified : TokenKind → Bool
  | .startTag | .attributeName | .namespaceName => true
  | _ => false

end TokenKind

/-- A token; `depth` is -1 outside the root element. -/
structure Token where
  kind : TokenKind
  depth : Int
  offset : Nat
  lengthField : Nat
  deriving DecidableEq, Repr

namespace Token

def maxDepth : Nat := 254

def maxLength : Nat := 0xFFFFF

def maxPrefixLength : Nat := 511

def maxNameLength : Nat := 2047

/-- The length field of a name, with the length of its prefix in the upper nine bits. -/
def qualifiedLength (prefixLength nameLength : Nat) : Nat :=
  prefixLength <<< 11 ||| nameLength

def length (t : Token) : Nat :=
  if t.kind.isQualified then t.lengthField % 2048 else t.lengthField

def prefixLength (t : Token) : Nat :=
  if t.kind.isQualified then t.lengthField / 2048 else 0

end Token
end XmlIndex
