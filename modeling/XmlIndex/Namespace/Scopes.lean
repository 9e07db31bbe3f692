import XmlIndex.Namespace.Uri

/-! # Namespace scopes

Prefixes are declared for the rest of their element. Each open element keeps the declarations that
were in force when its start tag closed, the latest first, so leaving an element restores those of
its parent. The element and its prefixed attributes are qualified when the start tag closes, after
all its declarations are known.
-/
namespace XmlIndex
set_option autoImplicit false

structure PrefixedName where
  offset : Nat
  prefixLength : Nat
  localOffset : Nat
  localLength : Nat
  deriving DecidableEq, Repr

namespace Namespace

/-- A prefix and the namespace name it is bound to, as bytes of the document. -/
structure Declaration where
  prefixOffset : Nat
  prefixLength : Nat
  uriOffset : Nat
  uriLength : Nat
  deriving DecidableEq, Repr

/-- Declarations in force, those of each open element, and what the current start tag has named so
far. -/
structure Scopes where
  inForce : List Declaration := []
  opened : List (List Declaration) := []
  pending : Option (Nat × Nat) := none
  attributes : Array PrefixedName := #[]
  element : Option PrefixedName := none
  deriving DecidableEq, Repr

namespace Scopes

def depth (s : Scopes) : Nat :=
  s.opened.length

def reset (s : Scopes) : Scopes :=
  { s with inForce := [], opened := [], pending := none, attributes := s.attributes.shrink 0, element := none }

theorem reset_eq (s : Scopes) : s.reset = {} := by
  simp [reset]

/-- A start tag begins inside `depth` open elements: the scopes of all others are left. -/
def enter (depth : Nat) (element : Option PrefixedName) (s : Scopes) : Scopes :=
  let s := { s with element, attributes := #[], pending := none }
  if depth < s.depth then
    let opened := s.opened.drop (s.depth - depth)
    { s with opened, inForce := opened.headD [] }
  else s

def declare (offset length : Nat) (s : Scopes) : Scopes :=
  { s with pending := some (offset, length) }

def bind (offset length : Nat) (s : Scopes) : Scopes :=
  match s.pending with
  | none => s
  | some (prefixOffset, prefixLength) =>
    { s with
      pending := none
      inForce := ⟨prefixOffset, prefixLength, offset, length⟩ :: s.inForce }

def addAttribute (name : PrefixedName) (s : Scopes) : Scopes :=
  { s with attributes := s.attributes.push name }

end Scopes

def sameText (doc : ByteArray) (a aLength b bLength : Nat) : Bool :=
  aLength == bLength && Cursor.sameBytes doc aLength a b

def lookup (c : Cursor) (declarations : List Declaration) (name : PrefixedName) :
    Option Declaration :=
  declarations.find? fun d =>
    sameText c.doc d.prefixOffset d.prefixLength name.offset name.prefixLength

def qualify (c : Cursor) (declarations : List Declaration) :
    List PrefixedName → Except Fault (List (PrefixedName × Declaration))
  | [] => .ok []
  | name :: rest =>
    match lookup c declarations name with
    | none => .error (.structural .unqualifiedAttribute (some name.offset))
    | some d =>
      match qualify c declarations rest with
      | .ok others => .ok ((name, d) :: others)
      | .error fault => .error fault

def checkApart (c : Cursor) (first : PrefixedName × Declaration) :
    List (PrefixedName × Declaration) → Except Fault Unit
  | [] => .ok ()
  | (name, d) :: rest =>
    if sameText c.doc first.1.localOffset first.1.localLength name.localOffset name.localLength then
      match c.resolvedEq first.2.uriOffset first.2.uriLength d.uriOffset d.uriLength with
      | .error fault => .error fault
      | .ok true => .error (.structural .collidingAttributes (some name.offset))
      | .ok false => checkApart c first rest
    else checkApart c first rest

def checkDistinct (c : Cursor) : List (PrefixedName × Declaration) → Except Fault Unit
  | [] => .ok ()
  | first :: rest =>
    match checkApart c first rest with
    | .error fault => .error fault
    | .ok () => checkDistinct c rest

def checkAttributes (c : Cursor) (declarations : List Declaration) (names : List PrefixedName) :
    Except Fault Unit :=
  match qualify c declarations names with
  | .error fault => .error fault
  | .ok qualified => checkDistinct c qualified

def checkElement (c : Cursor) (declarations : List Declaration) (name : PrefixedName) :
    Except Fault Unit :=
  match c.spells name.offset name.prefixLength (CodePoint.ofText "xml") with
  | .error fault => .error fault
  | .ok isXml =>
    if isXml || (lookup c declarations name).isSome then .ok ()
    else .error (.structural .unqualifiedElement (some name.offset))

namespace Scopes

/-- The start tag closes: its scope opens, and its names are qualified. A failure leaves the scope
open. -/
def close (c : Cursor) : EStateM Fault Scopes Unit := fun s =>
  let opened := { s with opened := s.inForce :: s.opened, attributes := #[] }
  match checkAttributes c s.inForce s.attributes.toList with
  | .error fault => .error fault opened
  | .ok () =>
    let closed := { opened with element := none }
    match s.element with
    | none => .ok () closed
    | some name =>
      match checkElement c s.inForce name with
      | .ok () => .ok () closed
      | .error fault => .error fault closed

end Scopes
end Namespace
end XmlIndex
