import XmlIndex.Namespace.Scopes
import XmlIndex.Proofs.Guarded.Positions
import XmlIndex.Proofs.Guarded.References

/-! # Guarded scopes

Names are compared as slices of the document. The scopes remember stretches of it, and as long as these lie
in the document every name is looked up, and a start tag closed, without a hazard.
-/
namespace XmlIndex
set_option autoImplicit false
open Namespace

theorem sameBytes_iff_take {doc : ByteArray} {length a b : Nat} (hFirst : a + length ≤ doc.size)
    (hSecond : b + length ≤ doc.size) : Cursor.sameBytes doc length a b = true ↔
      (doc.data.toList.drop a).take length = (doc.data.toList.drop b).take length := by
  induction length generalizing a b with
  | zero => simp only [Cursor.sameBytes, List.take_zero]
  | succ length ih =>
    obtain ⟨byte, hByte, hDrop⟩ := Guarded.drop_eq_cons (by omega : a < doc.size)
    obtain ⟨byte', hByte', hDrop'⟩ := Guarded.drop_eq_cons (by omega : b < doc.size)
    rw [Cursor.sameBytes, hByte, hByte', hDrop, hDrop', List.take_succ_cons, List.take_succ_cons,
      Bool.and_eq_true, ih (by omega) (by omega), beq_iff_eq, Option.some.injEq, List.cons.injEq]

namespace Guarded
variable {ε : Type} {doc : ByteArray}

def sameText (doc : ByteArray) (a aLength b bLength : Nat) : Guarded ε Bool := do
  let first ← slice doc a (a + aLength)
  let second ← slice doc b (b + bLength)
  return first.data.toList == second.data.toList

theorem sameText_eq {a aLength b bLength : Nat} (hFirst : a + aLength ≤ doc.size) (hSecond : b + bLength ≤ doc.size) :
    (sameText doc a aLength b bLength : Guarded ε Bool) = .ok (Namespace.sameText doc a aLength b bLength) := by
  rw [sameText, slice_of_le (Nat.le_add_right _ _) hFirst, ok_bind, slice_of_le (Nat.le_add_right _ _) hSecond, ok_bind]
  refine congrArg Except.ok ?_
  rw [Bool.eq_iff_iff, beq_iff_eq, toList_extract, toList_extract, Nat.add_sub_cancel_left, Nat.add_sub_cancel_left,
    Namespace.sameText, Bool.and_eq_true, beq_iff_eq]
  constructor
  · intro hSame
    have hLength := congrArg List.length hSame
    simp only [List.length_take, List.length_drop] at hLength
    have hSize : doc.data.toList.length = doc.size := rfl
    obtain rfl : aLength = bLength := by omega
    exact ⟨rfl, (sameBytes_iff_take hFirst hSecond).mpr hSame⟩
  · rintro ⟨rfl, hSame⟩
    exact (sameBytes_iff_take hFirst hSecond).mp hSame

theorem findM?_eq {α : Type} {test : α → Guarded ε Bool} {holds : α → Bool} {items : List α}
    (hTest : ∀ item ∈ items, test item = .ok (holds item)) : items.findM? test = .ok (items.find? holds) := by
  induction items with
  | nil => rfl
  | cons item rest ih =>
    rw [List.findM?, hTest item List.mem_cons_self, ok_bind, List.find?]
    cases holds item with
    | true => rfl
    | false => exact ih fun other hMem => hTest other (List.mem_cons_of_mem _ hMem)

theorem anyM_eq {α : Type} {test : α → Guarded ε Bool} {holds : α → Bool} {items : List α}
    (hTest : ∀ item ∈ items, test item = .ok (holds item)) : items.anyM test = .ok (items.any holds) := by
  induction items with
  | nil => rfl
  | cons item rest ih =>
    rw [List.anyM, hTest item List.mem_cons_self, ok_bind, List.any_cons]
    cases holds item with
    | true => rfl
    | false => exact ih fun other hMem => hTest other (List.mem_cons_of_mem _ hMem)

/-- The bytes of the prefix are taken even where nothing is declared. -/
def lookup (c : Cursor) (declarations : List Declaration) (name : PrefixedName) : Guarded Fault (Option Declaration) := do
  discard (slice c.doc name.offset (name.offset + name.prefixLength))
  declarations.findM? fun d => sameText c.doc d.prefixOffset d.prefixLength name.offset name.prefixLength

def qualify (c : Cursor) (declarations : List Declaration) :
    List PrefixedName → Guarded Fault (List (PrefixedName × Declaration))
  | [] => .ok []
  | name :: rest => do
    match ← lookup c declarations name with
    | none => fail (.structural .unqualifiedAttribute (some name.offset))
    | some d => return (name, d) :: (← qualify c declarations rest)

/-- Characters are resolved at any offset without a hazard, so no test stands before them. -/
def checkApart (c : Cursor) (first : PrefixedName × Declaration) :
    List (PrefixedName × Declaration) → Guarded Fault Unit
  | [] => .ok ()
  | (name, d) :: rest => do
    if ← sameText c.doc first.1.localOffset first.1.localLength name.localOffset name.localLength then
      if ← plain (c.resolvedEq first.2.uriOffset first.2.uriLength d.uriOffset d.uriLength) then
        fail (.structural .collidingAttributes (some name.offset))
      else checkApart c first rest
    else checkApart c first rest

def checkDistinct (c : Cursor) : List (PrefixedName × Declaration) → Guarded Fault Unit
  | [] => .ok ()
  | first :: rest => do
    checkApart c first rest
    checkDistinct c rest

def checkAttributes (c : Cursor) (declarations : List Declaration) (names : List PrefixedName) : Guarded Fault Unit := do
  checkDistinct c (← qualify c declarations names)

def checkElement (c : Cursor) (declarations : List Declaration) (name : PrefixedName) : Guarded Fault Unit := do
  if ← plain (c.spells name.offset name.prefixLength (CodePoint.ofText "xml")) then .ok ()
  else if (← lookup c declarations name).isSome then .ok ()
  else fail (.structural .unqualifiedElement (some name.offset))

def close (c : Cursor) : EStateM (Mishap Fault) Scopes Unit := fun s =>
  let opened := { s with opened := s.inForce :: s.opened, attributes := #[] }
  match checkAttributes c s.inForce s.attributes.toList with
  | .error mishap => .error mishap opened
  | .ok () =>
    let closed := { opened with element := none }
    match s.element with
    | none => .ok () closed
    | some name =>
      match checkElement c s.inForce name with
      | .ok () => .ok () closed
      | .error mishap => .error mishap closed

end Guarded

def PrefixedName.Within (stop : Nat) (name : PrefixedName) : Prop :=
  name.offset + name.prefixLength ≤ stop ∧ name.localOffset + name.localLength ≤ stop

namespace Namespace

def Declaration.Within (stop : Nat) (d : Declaration) : Prop :=
  d.prefixOffset + d.prefixLength ≤ stop

namespace Scopes

structure Within (stop : Nat) (s : Scopes) : Prop where
  inForce : ∀ d ∈ s.inForce, d.Within stop
  opened : ∀ declarations ∈ s.opened, ∀ d ∈ declarations, d.Within stop
  pending : ∀ waiting ∈ s.pending, waiting.1 + waiting.2 ≤ stop
  attributes : ∀ name ∈ s.attributes.toList, name.Within stop
  element : ∀ name ∈ s.element, name.Within stop

variable {stop : Nat} {s : Scopes}

theorem within_reset : s.reset.Within stop := by
  rw [reset_eq]
  exact ⟨nofun, nofun, nofun, nofun, nofun⟩

theorem Within.enter {depth : Nat} {element : Option PrefixedName} (hWithin : s.Within stop)
    (hElement : ∀ name ∈ element, name.Within stop) : (s.enter depth element).Within stop := by
  unfold Scopes.enter
  dsimp only
  split
  · have hOpened : ∀ declarations ∈ s.opened.drop (s.depth - depth), ∀ d ∈ declarations, d.Within stop :=
      fun declarations hMem => hWithin.opened declarations (List.mem_of_mem_drop hMem)
    refine ⟨?_, hOpened, nofun, nofun, hElement⟩
    change ∀ d ∈ (s.opened.drop (s.depth - depth)).headD [], d.Within stop
    generalize s.opened.drop (s.depth - depth) = opened at hOpened
    cases opened with
    | nil => exact nofun
    | cons declarations rest => exact hOpened declarations List.mem_cons_self
  · exact ⟨hWithin.inForce, hWithin.opened, nofun, nofun, hElement⟩

theorem Within.declare {offset length : Nat} (hWithin : s.Within stop) (hPrefix : offset + length ≤ stop) :
    (s.declare offset length).Within stop :=
  { hWithin with
    pending := by
      rintro waiting ⟨⟩
      exact hPrefix }

theorem Within.bind {offset length : Nat} (hWithin : s.Within stop) : (s.bind offset length).Within stop := by
  unfold Scopes.bind
  split
  · exact hWithin
  · rename_i prefixOffset prefixLength hWaiting
    refine { hWithin with pending := nofun, inForce := ?_ }
    rw [List.forall_mem_cons]
    exact ⟨hWithin.pending _ hWaiting, hWithin.inForce⟩

theorem Within.addAttribute {name : PrefixedName} (hWithin : s.Within stop) (hName : name.Within stop) :
    (s.addAttribute name).Within stop := by
  refine { hWithin with attributes := ?_ }
  simp only [Scopes.addAttribute, Array.toList_push, List.mem_append, List.mem_singleton]
  rintro other (hMem | rfl)
  · exact hWithin.attributes other hMem
  · exact hName

theorem Within.close {c : Cursor} {u : Unit} {s' : Scopes} (hWithin : s.Within stop) (hOk : close c s = .ok u s') :
    s'.Within stop := by
  have hClosed : { s with opened := s.inForce :: s.opened, attributes := #[], element := none }.Within stop :=
    { hWithin with
      opened := by
        rw [List.forall_mem_cons]
        exact ⟨hWithin.inForce, hWithin.opened⟩
      attributes := nofun
      element := nofun }
  unfold Scopes.close at hOk
  dsimp only at hOk
  split at hOk
  · cases hOk
  · split at hOk
    · cases hOk
      exact hClosed
    · split at hOk <;> cases hOk
      exact hClosed

end Scopes
end Namespace

namespace Guarded

section
variable {c : Cursor} {stop : Nat} {declarations : List Declaration} (hStop : stop ≤ c.doc.size)
  (hDeclarations : ∀ d ∈ declarations, d.Within stop)
include hStop

section
include hDeclarations

theorem lookup_eq {name : PrefixedName} (hName : name.Within stop) :
    lookup c declarations name = .ok (Namespace.lookup c declarations name) := by
  have hPrefix := hName.1
  rw [lookup, slice_of_le (Nat.le_add_right _ _) (by omega)]
  exact findM?_eq fun d hMem => sameText_eq (Nat.le_trans (hDeclarations d hMem) hStop) (by omega)

theorem qualify_eq {names : List PrefixedName} (hNames : ∀ name ∈ names, name.Within stop) :
    qualify c declarations names = plain (Namespace.qualify c declarations names) := by
  induction names with
  | nil => rfl
  | cons name rest ih =>
    obtain ⟨hName, hRest⟩ := List.forall_mem_cons.mp hNames
    rw [qualify, lookup_eq hStop hDeclarations hName, ok_bind, Namespace.qualify]
    cases Namespace.lookup c declarations name with
    | none => rfl
    | some d =>
      dsimp only
      rw [ih hRest]
      cases Namespace.qualify c declarations rest <;> rfl

theorem checkElement_eq {name : PrefixedName} (hName : name.Within stop) :
    checkElement c declarations name = plain (Namespace.checkElement c declarations name) := by
  rw [checkElement, Namespace.checkElement, lookup_eq hStop hDeclarations hName]
  cases c.spells name.offset name.prefixLength (CodePoint.ofText "xml") with
  | error fault => rfl
  | ok isXml =>
    cases isXml with
    | true => rfl
    | false =>
      change (if (Namespace.lookup c declarations name).isSome = true then _ else _) =
        plain (if (Namespace.lookup c declarations name).isSome = true then _ else _)
      split <;> rfl

end

theorem checkApart_eq {first : PrefixedName × Declaration} {names : List (PrefixedName × Declaration)}
    (hFirst : first.1.Within stop) (hNames : ∀ name ∈ names, name.1.Within stop) :
    checkApart c first names = plain (Namespace.checkApart c first names) := by
  induction names with
  | nil => rfl
  | cons name rest ih =>
    obtain ⟨hName, hRest⟩ := List.forall_mem_cons.mp hNames
    rw [checkApart, sameText_eq (Nat.le_trans hFirst.2 hStop) (Nat.le_trans hName.2 hStop), ok_bind, Namespace.checkApart]
    split
    · cases c.resolvedEq first.2.uriOffset first.2.uriLength name.2.uriOffset name.2.uriLength with
      | error fault => rfl
      | ok same =>
        cases same with
        | true => rfl
        | false => exact ih hRest
    · exact ih hRest

theorem checkDistinct_eq {names : List (PrefixedName × Declaration)} (hNames : ∀ name ∈ names, name.1.Within stop) :
    checkDistinct c names = plain (Namespace.checkDistinct c names) := by
  induction names with
  | nil => rfl
  | cons first rest ih =>
    obtain ⟨hFirst, hRest⟩ := List.forall_mem_cons.mp hNames
    rw [checkDistinct, checkApart_eq hStop hFirst hRest, Namespace.checkDistinct]
    cases Namespace.checkApart c first rest with
    | error fault => rfl
    | ok u => exact ih hRest

end

/-- The names that are qualified are those of the attributes. -/
theorem mem_of_qualify {c : Cursor} {declarations : List Declaration} {names : List PrefixedName}
    {qualified : List (PrefixedName × Declaration)} (hOk : Namespace.qualify c declarations names = .ok qualified) :
    ∀ name ∈ qualified, name.1 ∈ names := by
  induction names generalizing qualified with
  | nil =>
    cases hOk
    exact nofun
  | cons name rest ih =>
    rw [Namespace.qualify] at hOk
    split at hOk
    · cases hOk
    · split at hOk <;> cases hOk
      rename_i hRest
      rw [List.forall_mem_cons]
      exact ⟨List.mem_cons_self, fun other hMem => List.mem_cons_of_mem _ (ih hRest other hMem)⟩

theorem checkAttributes_eq {c : Cursor} {stop : Nat} {declarations : List Declaration} {names : List PrefixedName}
    (hStop : stop ≤ c.doc.size) (hDeclarations : ∀ d ∈ declarations, d.Within stop)
    (hNames : ∀ name ∈ names, name.Within stop) :
    checkAttributes c declarations names = plain (Namespace.checkAttributes c declarations names) := by
  rw [checkAttributes, qualify_eq hStop hDeclarations hNames, Namespace.checkAttributes]
  cases hQualified : Namespace.qualify c declarations names with
  | error fault => rfl
  | ok qualified => exact checkDistinct_eq hStop fun name hMem => hNames _ (mem_of_qualify hQualified name hMem)

/-- A start tag closes without a hazard. -/
theorem close_eq {c : Cursor} {stop : Nat} {s : Scopes} (hStop : stop ≤ c.doc.size) (hWithin : s.Within stop) :
    close c s = ofResult (Scopes.close c s) := by
  unfold close Scopes.close
  rw [checkAttributes_eq hStop hWithin.inForce hWithin.attributes]
  cases Namespace.checkAttributes c s.inForce s.attributes.toList with
  | error fault => rfl
  | ok u =>
    dsimp only [plain]
    cases hElement : s.element with
    | none => rfl
    | some name =>
      dsimp only
      rw [checkElement_eq hStop hWithin.inForce (hWithin.element name hElement)]
      cases Namespace.checkElement c s.inForce name <;> rfl

end Guarded
end XmlIndex
