import XmlIndex.Proofs.Translation.Readings

/-! # Namespaces over the same bytes

Prefixes are compared byte by byte and namespace names after resolving their references; both look
at bytes of the range alone. So the same declarations are found, the same names are qualified, and
the same faults are named at the same places.
-/
namespace XmlIndex
set_option autoImplicit false

namespace Overlay
variable {v : Overlay}

def Answers {α β : Type} (v : Overlay) (Q : α → β → Prop) : Except Fault α → Except Fault β → Prop
  | .ok a, .ok b => Q a b
  | .error fault, .error fault' => v.Faults fault fault'
  | _, _ => False

section Answers
variable {α β : Type} {Q : α → β → Prop} {c c' : Cursor}

theorem answers_of_eq {answer answer' : Except Fault α} (hEq : answer = answer')
    (hPlaceless : ∀ fault, answer' = .error fault → fault.offset? = none) :
    v.Answers Eq answer answer' := by
  subst hEq
  cases answer with
  | ok a => exact rfl
  | error fault => exact .same (hPlaceless fault rfl)

theorem Answers.bind {γ δ : Type} {P : γ → δ → Prop} {answer : Except Fault α}
    {answer' : Except Fault β} {next : α → Except Fault γ} {next' : β → Except Fault δ}
    (hAnswers : v.Answers Q answer answer')
    (hNext : ∀ a b, Q a b → v.Answers P (next a) (next' b)) :
    v.Answers P (answer >>= next) (answer' >>= next') := by
  cases answer <;> cases answer'
  case ok.ok a b => exact hNext a b hAnswers
  case error.error => exact hAnswers
  all_goals exact hAnswers.elim

theorem answers_ok {a : α} {b : β} (hResult : Q a b) : v.Answers Q (.ok a) (.ok b) :=
  hResult

theorem Answers.ite {condition : Prop} [Decidable condition] {yes no : Except Fault α}
    {yes' no' : Except Fault β} (hYes : v.Answers Q yes yes') (hNo : v.Answers Q no no') :
    v.Answers Q (if condition then yes else no) (if condition then yes' else no') := by
  split
  · exact hYes
  · exact hNo

theorem reads_ask {question : Cursor → Except Fault α} {question' : Cursor → Except Fault β}
    (hAnswers : ∀ c c', v.Cursors c c' → v.Answers Q (question c) (question' c')) :
    v.Reads Q (Scan.ask question) (Scan.ask question') := by
  intro c c' hCursors
  have hAnswer := hAnswers c c' hCursors
  unfold Scan.ask
  cases hOuter : question c <;> cases hInner : question' c' <;> rw [hOuter, hInner] at hAnswer
  case ok.ok => exact ⟨hAnswer, hCursors⟩
  case ok.error => exact hAnswer.elim
  case error.ok => exact hAnswer.elim
  case error.error => exact .inr ⟨hAnswer, hCursors⟩

theorem placeless_of_spellsFrom {stop offset : Nat} {expected : List CodePoint} {fault : Fault}
    (hSpells : c.spellsFrom stop offset expected = .error fault) : fault.offset? = none := by
  induction expected generalizing offset with
  | nil => cases hSpells
  | cons ch rest ih =>
    unfold Cursor.spellsFrom at hSpells
    split at hSpells
    · cases hSpells
    · split at hSpells
      · rename_i hRead
        cases hSpells
        exact placeless_of_charAt hRead
      · split at hSpells
        · exact ih hSpells
        · cases hSpells

theorem Cursors.spells (hCursors : v.Cursors c c') (offset length : Nat) (expected : List CodePoint) :
    v.Answers Eq (c.spells (v.delta + offset) length expected) (c'.spells offset length expected) :=
  answers_of_eq (hCursors.spells_eq offset length expected) fun _ => placeless_of_spellsFrom

end Answers

section Resolved
variable {c c' : Cursor} {a b a' b' : Nat}

theorem reads_reference : v.Reads Eq Scan.reference Scan.reference :=
  reads_of_placeless Reference.placeless_step _

theorem reads_nextResolved : v.Reads Eq Scan.nextResolved Scan.nextResolved :=
  reads_next.bind_eq fun _ => .ite reads_reference (simulates_pure rfl)

/-- The same character is resolved at the same place, and the place after it is the same again. -/
theorem Cursors.resolvedAt (hCursors : v.Cursors c c') (hPlace : v.Place a b) :
    v.Answers
      (fun read read' => read = read' ∧ 0 < read'.2 ∧ v.Place (a + read.2) (b + read'.2))
      (c.resolvedAt a) (c'.resolvedAt b) := by
  have hOutcome := reads_nextResolved _ _ (hCursors.seek hPlace)
  unfold Cursor.resolvedAt
  cases hOuter : Scan.nextResolved { c with offset := a } <;>
    cases hInner : Scan.nextResolved { c' with offset := b } <;> rw [hOuter, hInner] at hOutcome
  case ok.ok ch d ch' d' =>
    obtain ⟨rfl, hAfter⟩ := hOutcome
    have hOuterMoves : a < d.offset := (Scan.progressive_nextResolved _ _ _ hOuter).offset_lt
    have hInnerMoves : b < d'.offset := (Scan.progressive_nextResolved _ _ _ hInner).offset_lt
    refine ⟨?_, Nat.sub_pos_of_lt hInnerMoves, ?_⟩
    · rw [hPlace.sub_eq hAfter.offset]
    · simp only
      rw [Nat.add_sub_cancel' (Nat.le_of_lt hOuterMoves),
        Nat.add_sub_cancel' (Nat.le_of_lt hInnerMoves)]
      exact hAfter.offset
  case ok.error => exact hOutcome.elim
  case error.ok => exact hOutcome.elim
  case error.error => exact hOutcome.elim False.elim And.left

theorem sameResolved_eq (aStop bStop : Nat) : c.sameResolved aStop bStop a b =
    if a < aStop ∧ b < bStop then do
      let first ← c.resolvedAt a
      let second ← c.resolvedAt b
      if first.1 = second.1 then c.sameResolved aStop bStop (a + first.2) (b + second.2)
      else .ok false
    else .ok (decide (aStop ≤ a) && decide (bStop ≤ b)) := by
  rw [Cursor.sameResolved]
  split
  · split <;> rename_i hRead <;> rw [hRead]
    · rfl
    · cases c.resolvedAt b <;> rfl
  · rfl

/-- Induction on what is left of the first stretch. -/
theorem Cursors.sameResolved (hCursors : v.Cursors c c') (hFirst : v.Place a a')
    (hSecond : v.Place b b') (aStop bStop : Nat) :
    v.Answers Eq (c.sameResolved (v.delta + aStop) (v.delta + bStop) a b)
      (c'.sameResolved aStop bStop a' b') := by
  induction hLeft : aStop - a' using Nat.strong_induction_on generalizing a b a' b' with
  | _ left ih =>
    subst hLeft
    have hInside : a < v.delta + aStop ∧ b < v.delta + bStop ↔ a' < aStop ∧ b' < bStop := by
      rw [hFirst.eq, hSecond.eq, Nat.add_lt_add_iff_left, Nat.add_lt_add_iff_left]
    rw [sameResolved_eq, sameResolved_eq]
    simp only [hInside]
    split
    · refine (hCursors.resolvedAt hFirst).bind ?_
      rintro first _ ⟨rfl, hWidth, hNext⟩
      refine (hCursors.resolvedAt hSecond).bind ?_
      rintro second _ ⟨rfl, -, hNext'⟩
      refine .ite (ih _ ?_ hNext hNext' rfl) (answers_ok rfl)
      omega
    · refine answers_ok ?_
      rw [hFirst.eq, hSecond.eq]
      simp only [Nat.add_le_add_iff_left]

theorem spellsResolvedFrom_cons {stop : Nat} {ch : CodePoint} {rest : List CodePoint} :
    c.spellsResolvedFrom stop a (ch :: rest) =
      if stop ≤ a then .ok false
      else
        c.resolvedAt a >>= fun read =>
          if read.1 = ch then c.spellsResolvedFrom stop (a + read.2) rest else .ok false := by
  rw [Cursor.spellsResolvedFrom]
  split
  · rfl
  · cases c.resolvedAt a <;> rfl

theorem Cursors.spellsResolvedFrom (hCursors : v.Cursors c c') (hPlace : v.Place a a') (stop : Nat)
    (expected : List CodePoint) :
    v.Answers Eq (c.spellsResolvedFrom (v.delta + stop) a expected)
      (c'.spellsResolvedFrom stop a' expected) := by
  have hStop {a a' : Nat} (hPlace : v.Place a a') : v.delta + stop ≤ a ↔ stop ≤ a' := by
    rw [hPlace.eq, Nat.add_le_add_iff_left]
  induction expected generalizing a a' with
  | nil =>
    simp only [Cursor.spellsResolvedFrom, hStop hPlace]
    exact answers_ok rfl
  | cons ch rest ih =>
    rw [spellsResolvedFrom_cons, spellsResolvedFrom_cons]
    simp only [hStop hPlace]
    refine .ite (answers_ok rfl) ((hCursors.resolvedAt hPlace).bind ?_)
    rintro read _ ⟨rfl, -, hNext⟩
    exact .ite (ih hNext) (answers_ok rfl)

theorem Cursors.reserved (hCursors : v.Cursors c c') {value value' : Span}
    (hValue : v.Stretch value value') :
    v.Answers Eq (Namespace.reserved value.offset value.length c)
      (Namespace.reserved value'.offset value'.length c') := by
  have hSpells (expected : List CodePoint) :
      v.Answers Eq (c.spellsResolved value.offset value.length expected)
        (c'.spellsResolved value'.offset value'.length expected) := by
    have hStop : value.offset + value.length = v.delta + (value'.offset + value'.length) :=
      hValue.ends.eq
    unfold Cursor.spellsResolved
    rw [hStop]
    exact hCursors.spellsResolvedFrom hValue.begins _ _
  refine (hSpells _).bind ?_
  rintro isXml _ rfl
  refine .ite (answers_ok rfl) ((hSpells _).bind ?_)
  rintro isXmlns _ rfl
  exact .ite (answers_ok rfl) (answers_ok rfl)

end Resolved

/-- Stretches of the same bytes; an empty one may lie anywhere. -/
structure Covers (v : Overlay) (s t : Span) : Prop where
  offset_eq : s.offset = v.delta + t.offset
  length_eq : s.length = t.length
  within : t.length = 0 ∨ t.offset + t.length ≤ v.stop

structure Prefixed (v : Overlay) (m n : PrefixedName) : Prop where
  place : v.Place m.offset n.offset
  leading : v.Covers ⟨m.offset, m.prefixLength⟩ ⟨n.offset, n.prefixLength⟩
  trailing : v.Covers ⟨m.localOffset, m.localLength⟩ ⟨n.localOffset, n.localLength⟩

structure Declared (v : Overlay) (d e : Namespace.Declaration) : Prop where
  leading : v.Covers ⟨d.prefixOffset, d.prefixLength⟩ ⟨e.prefixOffset, e.prefixLength⟩
  value : v.Stretch ⟨d.uriOffset, d.uriLength⟩ ⟨e.uriOffset, e.uriLength⟩

theorem Stretch.covers {s t : Span} (hStretch : v.Stretch s t) : v.Covers s t :=
  ⟨hStretch.begins.eq, hStretch.length_eq, .inr hStretch.ends.le⟩

theorem Named.leading {m n : Name} (hNamed : v.Named m n) :
    v.Covers ⟨m.offset, m.prefixLength⟩ ⟨n.offset, n.prefixLength⟩ :=
  ⟨hNamed.stretch.begins.eq, hNamed.prefix_eq, .inr hNamed.prefix_le⟩

theorem Named.trailing {m n : Name} (hNamed : v.Named m n) (unitSize : Nat) :
    v.Covers (m.localSpan unitSize) (n.localSpan unitSize) := by
  have hOffset : m.offset = v.delta + n.offset := hNamed.stretch.begins.eq
  have hLength : m.length = n.length := hNamed.stretch.length_eq
  have hPrefix := hNamed.prefix_eq
  have hStop : n.offset + n.length ≤ v.stop := hNamed.stretch.ends.le
  refine ⟨?_, ?_, ?_⟩ <;> simp only [Name.localSpan] <;> omega

theorem Named.toPrefixed {m n : Name} (hNamed : v.Named m n) (unitSize : Nat) :
    v.Prefixed (m.toPrefixed unitSize) (n.toPrefixed unitSize) :=
  ⟨hNamed.stretch.begins, hNamed.leading, hNamed.trailing unitSize⟩

theorem sameText_eq {s t s' t' : Span} (hFirst : v.Covers s t) (hSecond : v.Covers s' t') :
    Namespace.sameText v.outer s.offset s.length s'.offset s'.length =
      Namespace.sameText v.inner t.offset t.length t'.offset t'.length := by
  unfold Namespace.sameText
  rw [hFirst.length_eq, hSecond.length_eq]
  by_cases hLength : t.length = t'.length
  · congr 1
    by_cases hEmpty : t.length = 0
    · rw [hEmpty]
      rfl
    · rw [hFirst.offset_eq, hSecond.offset_eq]
      have hFirstWithin := hFirst.within
      have hSecondWithin := hSecond.within
      exact v.sameBytes_eq (by omega) (by omega)
  · rw [beq_false_of_ne hLength, Bool.false_and, Bool.false_and]

structure Scoped (v : Overlay) (s t : Namespace.Scopes) : Prop where
  inForce : List.Forall₂ v.Declared s.inForce t.inForce
  opened : List.Forall₂ (List.Forall₂ v.Declared) s.opened t.opened
  pending : Option.Rel (fun p q => v.Covers ⟨p.1, p.2⟩ ⟨q.1, q.2⟩) s.pending t.pending
  attributes : List.Forall₂ v.Prefixed s.attributes.toList t.attributes.toList
  element : Option.Rel v.Prefixed s.element t.element

theorem scoped_empty : v.Scoped {} {} :=
  ⟨.nil, .nil, .none, .nil, .none⟩

section Scopes
open Namespace
variable {s t : Scopes} {c c' : Cursor} {declarations declarations' : List Declaration}
  {names names' : List PrefixedName} {m n : PrefixedName}

theorem Scoped.enter (hScoped : v.Scoped s t) (depth : Nat) {element element' : Option PrefixedName}
    (hElement : Option.Rel v.Prefixed element element') :
    v.Scoped (s.enter depth element) (t.enter depth element') := by
  have hLength : s.opened.length = t.opened.length := hScoped.opened.length_eq
  have hOpened := List.forall₂_drop (t.opened.length - depth) hScoped.opened
  by_cases hDepth : depth < t.opened.length <;>
    simp only [Scopes.enter, Scopes.depth, hLength, hDepth, if_true, if_false]
  · refine ⟨?_, hOpened, .none, .nil, hElement⟩
    revert hOpened
    generalize List.drop _ s.opened = outer, List.drop _ t.opened = inner
    rintro (_ | ⟨hHead, -⟩)
    · exact .nil
    · exact hHead
  · exact ⟨hScoped.inForce, hScoped.opened, .none, .nil, hElement⟩

theorem Scoped.declare (hScoped : v.Scoped s t) {leading leading' : Span}
    (hLeading : v.Covers leading leading') :
    v.Scoped (s.declare leading.offset leading.length) (t.declare leading'.offset leading'.length) :=
  { hScoped with pending := .some hLeading }

theorem Scoped.bind (hScoped : v.Scoped s t) {value value' : Span}
    (hValue : v.Stretch value value') :
    v.Scoped (s.bind value.offset value.length) (t.bind value'.offset value'.length) := by
  unfold Scopes.bind
  cases hPending : s.pending <;> cases hPending' : t.pending <;>
    have hBoth := hScoped.pending <;> rw [hPending, hPending'] at hBoth <;> cases hBoth
  · exact hScoped
  · rename_i hLeading
    exact { hScoped with
      pending := .none
      inForce := .cons ⟨hLeading, hValue⟩ hScoped.inForce }

theorem Scoped.addAttribute (hScoped : v.Scoped s t) (hName : v.Prefixed m n) :
    v.Scoped (s.addAttribute m) (t.addAttribute n) := by
  refine { hScoped with attributes := ?_ }
  simp only [Scopes.addAttribute, Array.toList_push]
  exact List.rel_append hScoped.attributes (.cons hName .nil)

/-- The same declaration is found for a prefix, if any is. -/
theorem Cursors.lookup (hCursors : v.Cursors c c')
    (hDeclarations : List.Forall₂ v.Declared declarations declarations') (hName : v.Prefixed m n) :
    Option.Rel v.Declared (lookup c declarations m) (lookup c' declarations' n) := by
  unfold Namespace.lookup
  rw [hCursors.doc_eq, hCursors.doc_eq']
  induction hDeclarations with
  | nil => exact .none
  | cons hHead hRest ih =>
    have hSame := sameText_eq hHead.leading hName.leading
    simp only at hSame
    rw [List.find?_cons, List.find?_cons, hSame]
    split
    · exact .some hHead
    · exact ih

theorem Cursors.qualify (hCursors : v.Cursors c c')
    (hDeclarations : List.Forall₂ v.Declared declarations declarations')
    (hNames : List.Forall₂ v.Prefixed names names') :
    v.Answers (List.Forall₂ fun p q => v.Prefixed p.1 q.1 ∧ v.Declared p.2 q.2)
      (qualify c declarations names) (qualify c' declarations' names') := by
  induction hNames with
  | nil => exact answers_ok .nil
  | @cons m n rest rest' hName hRest ih =>
    have hFound := hCursors.lookup hDeclarations hName
    unfold Namespace.qualify
    cases hOuter : Namespace.lookup c declarations m <;>
      cases hInner : Namespace.lookup c' declarations' n <;>
      rw [hOuter, hInner] at hFound <;> cases hFound
    · exact .placed _ hName.place
    · rename_i hDeclared
      revert ih
      cases Namespace.qualify c declarations rest <;>
        cases Namespace.qualify c' declarations' rest' <;> intro ih
      case ok.ok => exact answers_ok (.cons ⟨hName, hDeclared⟩ ih)
      case error.error => exact ih
      all_goals exact ih.elim

theorem checkApart_cons {first second : PrefixedName × Declaration}
    {rest : List (PrefixedName × Declaration)} :
    checkApart c first (second :: rest) =
      if sameText c.doc first.1.localOffset first.1.localLength second.1.localOffset
          second.1.localLength then
        c.resolvedEq first.2.uriOffset first.2.uriLength second.2.uriOffset second.2.uriLength >>=
          fun equal =>
            if equal then .error (.structural .collidingAttributes (some second.1.offset))
            else checkApart c first rest
      else checkApart c first rest := by
  rw [checkApart]
  split
  · cases c.resolvedEq first.2.uriOffset first.2.uriLength second.2.uriOffset second.2.uriLength with
    | error fault => rfl
    | ok equal => cases equal <;> rfl
  · rfl

theorem checkDistinct_cons {first : PrefixedName × Declaration}
    {rest : List (PrefixedName × Declaration)} :
    checkDistinct c (first :: rest) = checkApart c first rest >>= fun _ => checkDistinct c rest := by
  rw [checkDistinct]
  cases checkApart c first rest <;> rfl

theorem checkAttributes_eq :
    checkAttributes c declarations names = qualify c declarations names >>= checkDistinct c := by
  rw [checkAttributes]
  cases qualify c declarations names <;> rfl

theorem checkElement_eq :
    checkElement c declarations m =
      c.spells m.offset m.prefixLength (CodePoint.ofText "xml") >>= fun isXml =>
        if isXml || (Namespace.lookup c declarations m).isSome then .ok ()
        else .error (.structural .unqualifiedElement (some m.offset)) := by
  rw [checkElement]
  cases c.spells m.offset m.prefixLength (CodePoint.ofText "xml") <;> rfl

theorem Cursors.resolvedEq (hCursors : v.Cursors c c') {value value' other other' : Span}
    (hValue : v.Stretch value value') (hOther : v.Stretch other other') :
    v.Answers Eq (c.resolvedEq value.offset value.length other.offset other.length)
      (c'.resolvedEq value'.offset value'.length other'.offset other'.length) := by
  unfold Cursor.resolvedEq
  rw [hValue.ends.eq, hOther.ends.eq]
  exact hCursors.sameResolved hValue.begins hOther.begins _ _

def Qualified (v : Overlay) (p q : PrefixedName × Declaration) : Prop :=
  v.Prefixed p.1 q.1 ∧ v.Declared p.2 q.2

section Qualified
variable {first first' : PrefixedName × Declaration}
  {others others' : List (PrefixedName × Declaration)}

theorem Cursors.checkApart (hCursors : v.Cursors c c') (hFirst : v.Qualified first first')
    (hOthers : List.Forall₂ v.Qualified others others') :
    v.Answers Eq (checkApart c first others) (checkApart c' first' others') := by
  induction hOthers with
  | nil => exact answers_ok rfl
  | cons hSecond hRest ih =>
    rw [checkApart_cons, checkApart_cons, hCursors.doc_eq, hCursors.doc_eq']
    have hSame := sameText_eq hFirst.1.trailing hSecond.1.trailing
    simp only at hSame
    rw [hSame]
    refine .ite ((hCursors.resolvedEq hFirst.2.value hSecond.2.value).bind ?_) ih
    rintro equal _ rfl
    exact .ite (.placed _ hSecond.1.place) ih

theorem Cursors.checkDistinct (hCursors : v.Cursors c c')
    (hOthers : List.Forall₂ v.Qualified others others') :
    v.Answers Eq (checkDistinct c others) (checkDistinct c' others') := by
  induction hOthers with
  | nil => exact answers_ok rfl
  | cons hFirst hRest ih =>
    rw [checkDistinct_cons, checkDistinct_cons]
    exact (hCursors.checkApart hFirst hRest).bind fun _ _ _ => ih

end Qualified

theorem Cursors.checkAttributes (hCursors : v.Cursors c c')
    (hDeclarations : List.Forall₂ v.Declared declarations declarations')
    (hNames : List.Forall₂ v.Prefixed names names') :
    v.Answers Eq (checkAttributes c declarations names) (checkAttributes c' declarations' names') := by
  rw [checkAttributes_eq, checkAttributes_eq]
  exact (hCursors.qualify hDeclarations hNames).bind fun _ _ hOthers => hCursors.checkDistinct hOthers

theorem Cursors.checkElement (hCursors : v.Cursors c c')
    (hDeclarations : List.Forall₂ v.Declared declarations declarations') (hName : v.Prefixed m n) :
    v.Answers Eq (checkElement c declarations m) (checkElement c' declarations' n) := by
  have hXml : v.Answers Eq (c.spells m.offset m.prefixLength (CodePoint.ofText "xml"))
      (c'.spells n.offset n.prefixLength (CodePoint.ofText "xml")) := by
    have hLength : m.prefixLength = n.prefixLength := hName.leading.length_eq
    rw [hName.place.eq, hLength]
    exact hCursors.spells _ _ _
  have hFound : (Namespace.lookup c declarations m).isSome =
      (Namespace.lookup c' declarations' n).isSome := by
    have hLookup := hCursors.lookup hDeclarations hName
    revert hLookup
    generalize Namespace.lookup c declarations m = found, Namespace.lookup c' declarations' n = found'
    rintro (_ | _) <;> rfl
  rw [checkElement_eq, checkElement_eq, hFound]
  refine hXml.bind ?_
  rintro isXml _ rfl
  exact .ite (answers_ok rfl) (.placed _ hName.place)

/-- The scopes stay related whether the start tag may close or not. -/
theorem simulates_close (hCursors : v.Cursors c c') :
    v.Simulates False v.Scoped Eq (Scopes.close c) (Scopes.close c') := by
  intro s t hScoped
  have hAttributes := hCursors.checkAttributes hScoped.inForce hScoped.attributes
  have hOpened : v.Scoped { s with opened := s.inForce :: s.opened, attributes := #[] }
      { t with opened := t.inForce :: t.opened, attributes := #[] } :=
    { hScoped with opened := .cons hScoped.inForce hScoped.opened, attributes := .nil }
  unfold Scopes.close
  simp only
  cases hOuter : Namespace.checkAttributes c s.inForce s.attributes.toList <;>
    cases hInner : Namespace.checkAttributes c' t.inForce t.attributes.toList <;>
    rw [hOuter, hInner] at hAttributes
  case ok.error => exact hAttributes.elim
  case error.ok => exact hAttributes.elim
  case error.error => exact .inr ⟨hAttributes, hOpened⟩
  case ok.ok =>
    cases hName : s.element <;> cases hName' : t.element <;>
      have hElement := hScoped.element <;> rw [hName, hName'] at hElement
    case none.none => exact ⟨rfl, { hOpened with element := Option.Rel.none }⟩
    case none.some => cases hElement
    case some.none => cases hElement
    case some.some name name' =>
      cases hElement with
      | some hElement =>
        have hAnswer := hCursors.checkElement hScoped.inForce hElement
        simp only
        cases hOuter : Namespace.checkElement c s.inForce name <;>
          cases hInner : Namespace.checkElement c' t.inForce name' <;>
          rw [hOuter, hInner] at hAnswer
        case ok.ok => exact ⟨rfl, { hOpened with element := Option.Rel.none }⟩
        case error.error => exact .inr ⟨hAnswer, { hOpened with element := Option.Rel.none }⟩
        all_goals exact hAnswer.elim

end Scopes
end Overlay
end XmlIndex
