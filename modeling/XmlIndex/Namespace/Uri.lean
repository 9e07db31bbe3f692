import XmlIndex.Scan.Progress

/-! # Namespace names

Namespace names are compared as stretches of the document after their references are resolved, so
every spelling of one name is the same name. Two names are reserved.
-/
namespace XmlIndex
set_option autoImplicit false

namespace Cursor

def sameResolved (c : Cursor) (aStop bStop a b : Nat) : Except Fault Bool :=
  if a < aStop ∧ b < bStop then
    match _ : c.resolvedAt a with
    | .error fault => .error fault
    | .ok (ch, width) =>
      match c.resolvedAt b with
      | .error fault => .error fault
      | .ok (ch', width') =>
        if ch = ch' then sameResolved c aStop bStop (a + width) (b + width') else .ok false
  else .ok (decide (aStop ≤ a) && decide (bStop ≤ b))
termination_by aStop - a
decreasing_by
  have := resolvedAt_width ‹c.resolvedAt _ = _›
  omega

/-- Whether two stretches are equal after resolving references. -/
def resolvedEq (c : Cursor) (a aLength b bLength : Nat) : Except Fault Bool :=
  c.sameResolved (a + aLength) (b + bLength) a b

def spellsResolvedFrom (c : Cursor) (stop : Nat) : (offset : Nat) → List CodePoint → Except Fault Bool
  | offset, [] => .ok (decide (stop ≤ offset))
  | offset, expected :: rest =>
    if stop ≤ offset then .ok false
    else
      match c.resolvedAt offset with
      | .error fault => .error fault
      | .ok (ch, width) =>
        if ch = expected then spellsResolvedFrom c stop (offset + width) rest else .ok false

def spellsResolved (c : Cursor) (offset length : Nat) (expected : List CodePoint) :
    Except Fault Bool :=
  c.spellsResolvedFrom (offset + length) offset expected

end Cursor

namespace Namespace

def xml : String := "http://www.w3.org/XML/1998/namespace"

def xmlns : String := "http://www.w3.org/2000/xmlns/"

inductive Reserved where
  | none
  | xml
  | xmlns
  deriving DecidableEq, Repr

def reserved (offset length : Nat) (c : Cursor) : Except Fault Reserved := do
  if ← c.spellsResolved offset length (CodePoint.ofText xml) then return .xml
  else if ← c.spellsResolved offset length (CodePoint.ofText xmlns) then return .xmlns
  else return .none

end Namespace
end XmlIndex
