import XmlIndex.Proofs.Lexer.Qualifying
import XmlIndex.Proofs.Variation.Readings

/-! # Scopes that can be read

What the scopes point to has been read before: prefixes and names are characters, and the values of
declarations resolve. So to read them once more never fails, and a start tag that does not close fails for
its namespaces alone.
-/
namespace XmlIndex
set_option autoImplicit false
open Grammar

def SyntaxFault.ofNamespaces : List SyntaxFault :=
  [.xmlnsElement, .xmlnsRedeclared, .emptyNamespace, .xmlRebound, .xmlNamespaceDeclared, .xmlnsNamespaceDeclared,
    .unqualifiedElement, .unqualifiedAttribute, .collidingAttributes]

def Fault.IsNamespace (fault : Fault) : Prop :=
  ∃ cause ∈ SyntaxFault.ofNamespaces, ∃ place, fault = .structural cause (some place)

namespace Fault
variable {cause : SyntaxFault} {place : Nat}

theorem isNamespace_of_mem (hCause : cause ∈ SyntaxFault.ofNamespaces) :
    (Fault.structural cause (some place)).IsNamespace :=
  ⟨cause, hCause, place, rfl⟩

end Fault

namespace Namespace
variable {c c' : Cursor} {declarations : List Declaration} {n : PrefixedName} {names : List PrefixedName}
  {fault : Fault}

theorem exists_forall₂ {α β : Type} {R : α → β → Prop} {l : List α} (hAll : ∀ a ∈ l, ∃ b, R a b) :
    ∃ m, List.Forall₂ R l m := by
  induction l with
  | nil => exact ⟨[], .nil⟩
  | cons a l ih =>
    obtain ⟨⟨b, hFirst⟩, hRest⟩ := List.forall_mem_cons.mp hAll
    obtain ⟨m, hOthers⟩ := ih hRest
    exact ⟨b :: m, .cons hFirst hOthers⟩

theorem isNamespace_of_qualify (hError : qualify c declarations names = .error fault) : fault.IsNamespace := by
  induction names with
  | nil => cases hError
  | cons n names ih =>
    rw [qualify_cons] at hError
    split at hError
    · cases hError
      exact Fault.isNamespace_of_mem (by decide)
    · rename_i hOthers
      cases hError
      exact ih hOthers
    · cases hError

section
variable {scope : Environment} {first : PrefixedName × Declaration} {others : List (PrefixedName × Declaration)}
  {name : Chars} {found : List Chars}

theorem isNamespace_of_checkApart (hFirst : Resolved c scope first name)
    (hOthers : List.Forall₂ (Resolved c scope) others found) (hError : checkApart c first others = .error fault) :
    fault.IsNamespace := by
  induction hOthers with
  | nil => cases hError
  | @cons second other others found hSecond hRest ih =>
    obtain ⟨uri, resolved, -, hResolves, hCovers⟩ := hFirst.declared
    obtain ⟨uri', resolved', -, hResolves', hCovers'⟩ := hSecond.declared
    have hLength : first.2.uriLength = c.encoding.size uri := hCovers.length_eq
    have hLength' : second.2.uriLength = c.encoding.size uri' := hCovers'.length_eq
    have hEqual := Cursor.resolvedEq_of_resolves hResolves hResolves' hCovers.reads hCovers'.reads
    simp only at hEqual
    rw [Overlay.checkApart_cons, hLength, hLength', hEqual] at hError
    split at hError
    · change (if decide (resolved = resolved') = true then _ else _) = _ at hError
      split at hError
      · cases hError
        exact Fault.isNamespace_of_mem (by decide)
      · exact ih hError
    · exact ih hError

theorem isNamespace_of_checkDistinct (hOthers : List.Forall₂ (Resolved c scope) others found)
    (hError : checkDistinct c others = .error fault) : fault.IsNamespace := by
  induction hOthers with
  | nil => cases hError
  | @cons first name others found hFirst hRest ih =>
    rw [Overlay.checkDistinct_cons] at hError
    cases hApart : checkApart c first others with
    | error fault' =>
      rw [hApart] at hError
      cases hError
      exact isNamespace_of_checkApart hFirst hRest hApart
    | ok u =>
      rw [hApart] at hError
      exact ih hError

end

theorem isNamespace_of_checkAttributes (hBinds : ∀ d ∈ declarations, ∃ bound, c.Binds d bound)
    (hNames : ∀ n ∈ names, ∃ name, c.Names n name) (hError : checkAttributes c declarations names = .error fault) :
    fault.IsNamespace := by
  obtain ⟨scope, hScope⟩ := exists_forall₂ hBinds
  obtain ⟨found, hFound⟩ := exists_forall₂ hNames
  rw [Overlay.checkAttributes_eq] at hError
  cases hQualified : qualify c declarations names with
  | error fault' =>
    rw [hQualified] at hError
    cases hError
    exact isNamespace_of_qualify hQualified
  | ok qualified =>
    rw [hQualified] at hError
    exact isNamespace_of_checkDistinct (resolved_of_qualify hScope hFound hQualified) hError

theorem isNamespace_of_checkElement {name : Chars} (hName : c.Names n name)
    (hError : checkElement c declarations n = .error fault) : fault.IsNamespace := by
  have hLength : n.prefixLength = c.encoding.size (prefixOf name) := hName.leading.length_eq
  have hSpells := @Cursor.spells_of_readsAt c _ _ (CodePoint.ofText "xml") hName.leading.reads
  simp only at hSpells
  rw [Overlay.checkElement_eq, hLength, hSpells] at hError
  change (if _ then _ else _) = _ at hError
  split at hError
  · cases hError
  · cases hError
    exact Fault.isNamespace_of_mem (by decide)

namespace Scopes
variable {s : Scopes}

structure Legible (c : Cursor) (s : Scopes) : Prop where
  inForce : ∀ d ∈ s.inForce, ∃ bound, c.Binds d bound
  opened : ∀ declarations ∈ s.opened, ∀ d ∈ declarations, ∃ bound, c.Binds d bound
  pending : ∀ p ∈ s.pending, ∃ text, c.Covers ⟨p.1, p.2⟩ text
  attributes : ∀ n ∈ s.attributes.toList, ∃ name, c.Names n name
  element : ∀ n ∈ s.element, ∃ name, c.Names n name

theorem legible_empty : Legible c {} :=
  ⟨nofun, nofun, nofun, nofun, nofun⟩

theorem Legible.moved (hLegible : Legible c s) (hMoved : c.Moved c') : Legible c' s where
  inForce d hd := (hLegible.inForce d hd).imp fun _ h => h.congr hMoved.doc_eq hMoved.stop_eq hMoved.encoding_eq
  opened declarations hDeclarations d hd := (hLegible.opened declarations hDeclarations d hd).imp fun _ h =>
    h.congr hMoved.doc_eq hMoved.stop_eq hMoved.encoding_eq
  pending p hp := (hLegible.pending p hp).imp fun _ h => h.congr hMoved.doc_eq hMoved.stop_eq hMoved.encoding_eq
  attributes n hn := (hLegible.attributes n hn).imp fun _ h =>
    h.congr hMoved.doc_eq hMoved.stop_eq hMoved.encoding_eq
  element n hn := (hLegible.element n hn).imp fun _ h => h.congr hMoved.doc_eq hMoved.stop_eq hMoved.encoding_eq

theorem Legible.enter (hLegible : Legible c s) (depth : Nat) {element : Option PrefixedName}
    (hElement : ∀ n ∈ element, ∃ name, c.Names n name) : Legible c (s.enter depth element) := by
  by_cases hDepth : depth < s.opened.length
  · rw [enter_of_lt hDepth]
    have hOpened : ∀ declarations ∈ s.opened.drop (s.opened.length - depth), ∀ d ∈ declarations,
        ∃ bound, c.Binds d bound := fun declarations h => hLegible.opened declarations (List.mem_of_mem_drop h)
    refine ⟨fun d hd => ?_, hOpened, nofun, nofun, hElement⟩
    cases hKept : s.opened.drop (s.opened.length - depth) with
    | nil =>
      rw [hKept] at hd
      cases hd
    | cons first rest =>
      rw [hKept] at hd
      exact hOpened first (by simp [hKept]) d hd
  · rw [enter_of_le (Nat.not_lt.mp hDepth)]
    exact ⟨hLegible.inForce, hLegible.opened, nofun, nofun, hElement⟩

theorem Legible.declare (hLegible : Legible c s) {span : Span} (hCovers : ∃ text, c.Covers span text) :
    Legible c (s.declare span.offset span.length) :=
  { hLegible with
    pending := by
      rintro _ ⟨⟩
      exact hCovers }

theorem Legible.bind (hLegible : Legible c s) {value : Span} {text : Chars} (hCovers : c.Covers value text)
    (hResolves : ∃ resolved, Resolves text resolved) : Legible c (s.bind value.offset value.length) := by
  unfold Scopes.bind
  cases hPending : s.pending with
  | none => exact hLegible
  | some leading =>
    obtain ⟨p, hLeading⟩ := hLegible.pending leading hPending
    refine { hLegible with pending := nofun, inForce := List.forall_mem_cons.mpr ⟨?_, hLegible.inForce⟩ }
    exact ⟨(p, text), hLeading, hCovers, hResolves⟩

theorem Legible.addAttribute (hLegible : Legible c s) (hName : ∃ name, c.Names n name) :
    Legible c (s.addAttribute n) := by
  refine { hLegible with attributes := ?_ }
  rw [Scopes.addAttribute, Array.toList_push, List.forall_mem_append, List.forall_mem_singleton]
  exact ⟨hLegible.attributes, hName⟩

theorem Legible.closed (hLegible : Legible c s) : Legible c s.closed :=
  ⟨hLegible.inForce, List.forall_mem_cons.mpr ⟨hLegible.inForce, hLegible.opened⟩, hLegible.pending, nofun, nofun⟩

/-- A start tag closes, or its names are not qualified. -/
theorem Legible.close_cases (hLegible : Legible c s) : Scopes.close c s = .ok () s.closed ∨
    ∃ fault t, Scopes.close c s = .error fault t ∧ fault.IsNamespace := by
  unfold Scopes.close
  cases hCheck : checkAttributes c s.inForce s.attributes.toList with
  | error fault =>
    exact .inr ⟨fault, _, rfl, isNamespace_of_checkAttributes hLegible.inForce hLegible.attributes hCheck⟩
  | ok u =>
    cases hElement : s.element with
    | none => exact .inl rfl
    | some n =>
      obtain ⟨name, hName⟩ := hLegible.element n hElement
      simp only
      cases hInScope : checkElement c s.inForce n with
      | error fault => exact .inr ⟨fault, _, rfl, isNamespace_of_checkElement hName hInScope⟩
      | ok u => exact .inl rfl

end Scopes
end Namespace
end XmlIndex
