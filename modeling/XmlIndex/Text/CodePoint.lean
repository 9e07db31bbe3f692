/-! # Character classes of XML 1.0

A code point is a natural number, so every class is a decidable condition on numbers. The ranges
are those of the fifth edition; a content character may stand in text without being escaped.
-/
namespace XmlIndex
set_option autoImplicit false

abbrev CodePoint := Nat

namespace CodePoint

abbrev lessThan : CodePoint := 0x3C
abbrev greaterThan : CodePoint := 0x3E
abbrev slash : CodePoint := 0x2F
abbrev question : CodePoint := 0x3F
abbrev bang : CodePoint := 0x21
abbrev equals : CodePoint := 0x3D
abbrev ampersand : CodePoint := 0x26
abbrev colon : CodePoint := 0x3A
abbrev semicolon : CodePoint := 0x3B
abbrev hash : CodePoint := 0x23
abbrev hyphen : CodePoint := 0x2D
abbrev leftBracket : CodePoint := 0x5B
abbrev rightBracket : CodePoint := 0x5D
abbrev doubleQuote : CodePoint := 0x22
abbrev singleQuote : CodePoint := 0x27

def ofText (text : String) : List CodePoint :=
  text.toList.map Char.toNat

@[inline] def within (least greatest c : CodePoint) : Bool :=
  decide (least ≤ c) && decide (c ≤ greatest)

theorem within_eq_true_iff {least greatest c : CodePoint} :
    within least greatest c = true ↔ least ≤ c ∧ c ≤ greatest := by
  simp [within]

def isSpace (c : CodePoint) : Bool :=
  c == 0x20 || c == 0x0A || c == 0x09 || c == 0x0D

/-- Any character but a surrogate, `U+FFFE`, `U+FFFF` or a control other than tab and line ends. -/
def isValid (c : CodePoint) : Bool :=
  within 0x20 0xD7FF c || c == 0x0A || c == 0x09 || c == 0x0D || within 0xE000 0xFFFD c ||
    within 0x10000 0x10FFFF c

def isContent (c : CodePoint) : Bool :=
  isValid c && c != lessThan && c != ampersand && c != rightBracket

def isDigit (c : CodePoint) : Bool :=
  within 0x30 0x39 c

def isLetter (c : CodePoint) : Bool :=
  within 0x61 0x7A c || within 0x41 0x5A c

def isNameStart (c : CodePoint) : Bool :=
  isLetter c || c == 0x5F || c == colon || within 0xC0 0xD6 c || within 0xD8 0xF6 c ||
    within 0xF8 0x2FF c || within 0x370 0x37D c || within 0x37F 0x1FFF c ||
    within 0x200C 0x200D c || within 0x2070 0x218F c || within 0x2C00 0x2FEF c ||
    within 0x3001 0xD7FF c || within 0xF900 0xFDCF c || within 0xFDF0 0xFFFD c ||
    within 0x10000 0xEFFFF c

def isName (c : CodePoint) : Bool :=
  isNameStart c || isDigit c || c == hyphen || c == 0x2E || c == 0xB7 ||
    within 0x300 0x36F c || within 0x203F 0x2040 c

/-- A Unicode scalar value: any code point that is no surrogate. -/
def IsScalar (c : CodePoint) : Prop :=
  c < 0xD800 ∨ 0xDFFF < c ∧ c ≤ 0x10FFFF

instance (c : CodePoint) : Decidable (IsScalar c) :=
  inferInstanceAs (Decidable (_ ∨ _))

theorem isName_of_isNameStart {c : CodePoint} (hStart : isNameStart c = true) :
    isName c = true := by
  simp [isName, hStart]

end CodePoint
end XmlIndex
