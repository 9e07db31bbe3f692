import XmlIndex.Namespace.Uri
import XmlIndex.Proofs.Grammar.Tokens

/-! # Qualified names

With namespaces, the prefix of a name must be declared by the element at which it stands or by one
around it, and what counts is the latest of these declarations. The declarations in force are thus an
environment that is passed down the tree; an element that has ended leaves nothing behind.
-/
namespace XmlIndex.Grammar
set_option autoImplicit false

/-- The part of a name after its last colon. -/
def localOf : Chars → Chars
  | [] => []
  | ch :: rest =>
    if CodePoint.colon ∈ rest then localOf rest else if ch = CodePoint.colon then rest else ch :: rest

/-- The second text is the first with each reference replaced by the character it stands for. -/
inductive Resolves : Chars → Chars → Prop where
  | nil : Resolves [] []
  | char {ch : CodePoint} {rest resolved : Chars} :
      ch ≠ CodePoint.ampersand → Resolves rest resolved → Resolves (ch :: rest) (ch :: resolved)
  | reference {body rest resolved : Chars} {c : CodePoint} : Denotes body c → Resolves rest resolved →
      Resolves (CodePoint.ampersand :: (body ++ CodePoint.semicolon :: rest)) (c :: resolved)

/-- Prefixes with the values that declare them, the latest first. -/
abbrev Environment := List (Chars × Chars)

namespace Attribute

def declaresPrefix (a : Attribute) : Bool :=
  (CodePoint.ofText "xmlns:").isPrefixOf a.name

/-- What the attribute adds to the environment: `xml` is known without a declaration. -/
def bound? (a : Attribute) : Option (Chars × Chars) :=
  if a.declaresPrefix && localOf a.name != CodePoint.ofText "xml" then some (localOf a.name, a.binding.value)
  else none

/-- `xmlns` is not declared, no prefix is declared to be nothing, and the reserved names are left to the
prefixes they belong to. -/
structure DeclaresWell (a : Attribute) : Prop where
  notXmlns : a.declaresPrefix = true → localOf a.name ≠ CodePoint.ofText "xmlns"
  nonempty : a.declaresPrefix = true → a.binding.value ≠ []
  xml : a.declaresPrefix = true → localOf a.name = CodePoint.ofText "xml" →
    Resolves a.binding.value (CodePoint.ofText Namespace.xml)
  unreserved : declaresNamespace a.name = true →
    ¬(a.declaresPrefix = true ∧ localOf a.name = CodePoint.ofText "xml") →
      ¬Resolves a.binding.value (CodePoint.ofText Namespace.xml) ∧
        ¬Resolves a.binding.value (CodePoint.ofText Namespace.xmlns)

def isQualified (a : Attribute) : Bool :=
  !declaresNamespace a.name && !(prefixOf a.name).isEmpty && prefixOf a.name != CodePoint.ofText "xml"

end Attribute

def InScope (scope : Environment) (name : Chars) : Prop :=
  prefixOf name = [] ∨ prefixOf name = CodePoint.ofText "xml" ∨ prefixOf name ∈ scope.map Prod.fst

/-- The names have different local parts, or their prefixes are declared as different namespaces. -/
def Apart (scope : Environment) (name other : Chars) : Prop :=
  localOf name = localOf other → ∀ uri uri' text, scope.lookup (prefixOf name) = some uri →
    scope.lookup (prefixOf other) = some uri' → ¬(Resolves uri text ∧ Resolves uri' text)

def Closes (scope : Environment) (element : Chars) (names : List Chars) : Prop :=
  (∀ name ∈ names, prefixOf name ∈ scope.map Prod.fst) ∧ names.Pairwise (Apart scope) ∧ InScope scope element

namespace Tag

/-- What is declared inside a tag: it matters not where among the attributes. -/
def scope (outer : Environment) (t : Tag) : Environment :=
  (t.attributes.filterMap Attribute.bound?).reverse ++ outer

def qualifiedNames (t : Tag) : List Chars :=
  (t.attributes.filter Attribute.isQualified).map Attribute.name

structure Qualified (outer : Environment) (t : Tag) : Prop where
  notXmlns : prefixOf t.name ≠ CodePoint.ofText "xmlns"
  declaresWell : ∀ a ∈ t.attributes, a.DeclaresWell
  name : InScope (t.scope outer) t.name
  attributes : ∀ a ∈ t.attributes, declaresNamespace a.name = false → InScope (t.scope outer) a.name
  apart : (t.attributes.filter Attribute.isQualified).Pairwise fun a b => Apart (t.scope outer) a.name b.name

end Tag

def Content.Qualified : Environment → Content → Prop
  | _, .last _ => True
  | scope, .markup _ _ rest => rest.Qualified scope
  | scope, .empty _ tag rest => tag.Qualified scope ∧ rest.Qualified scope
  | scope, .element _ tag inside _ rest =>
    tag.Qualified scope ∧ inside.Qualified (tag.scope scope) ∧ rest.Qualified scope

structure Root.Qualified (r : Root) : Prop where
  tag : r.tag.Qualified []
  body : ∀ inside space, r.body = some (inside, space) → inside.Qualified (r.tag.scope [])

section
variable {name : Chars}

theorem prefixOf_append_localOf (hColon : CodePoint.colon ∈ name) :
    prefixOf name ++ CodePoint.colon :: localOf name = name := by
  induction name with
  | nil => cases hColon
  | cons ch rest ih =>
    rw [prefixOf, localOf]
    by_cases hRest : CodePoint.colon ∈ rest
    · rw [if_pos hRest, if_pos hRest, List.cons_append, ih hRest]
    · obtain rfl := (List.mem_cons.mp hColon).resolve_right hRest
      rw [if_neg hRest, if_neg hRest, if_pos rfl, List.nil_append]

theorem colon_mem_of_prefixOf (hPrefix : prefixOf name ≠ []) : CodePoint.colon ∈ name := by
  cases name with
  | nil => exact absurd rfl hPrefix
  | cons ch rest =>
    rw [prefixOf] at hPrefix
    by_cases hRest : CodePoint.colon ∈ rest
    · exact List.mem_cons_of_mem _ hRest
    · exact absurd (if_neg hRest) hPrefix

end

section
variable {a : Attribute} {rest : List Attribute}

/-- An attribute declares outside the scope of those after it. -/
theorem Attribute.declared_cons {scope : Environment} : ((a :: rest).filterMap Attribute.bound?).reverse ++ scope =
    (rest.filterMap Attribute.bound?).reverse ++ (a.bound?.toList ++ scope) := by
  rw [List.filterMap_cons]
  cases a.bound? <;> simp

theorem Attribute.qualifiedNames_cons {names : List Chars} :
    names ++ ((a :: rest).filter Attribute.isQualified).map Attribute.name =
      (names ++ if a.isQualified then [a.name] else []) ++
        (rest.filter Attribute.isQualified).map Attribute.name := by
  rw [List.filter_cons, List.append_assoc]
  split <;> rfl

end

theorem Attribute.isQualified_of_plain {a : Attribute} (hPlain : declaresNamespace a.name = false)
    (hPrefix : prefixOf a.name ≠ []) : a.isQualified = !decide (prefixOf a.name = CodePoint.ofText "xml") := by
  rw [Attribute.isQualified, hPlain, List.isEmpty_eq_false_iff.mpr hPrefix, Bool.not_false, Bool.true_and,
    Bool.true_and, bne, beq_eq_decide]

theorem Attribute.inScope_iff {scope : Environment} {a : Attribute} :
    (declaresNamespace a.name = false → InScope scope a.name) ↔
      (a.isQualified = true → prefixOf a.name ∈ scope.map Prod.fst) := by
  rw [Attribute.isQualified, Bool.and_eq_true, Bool.and_eq_true, Bool.not_eq_true', Bool.not_eq_true',
    List.isEmpty_eq_false_iff, bne_iff_ne, InScope]
  grind

/-- A tag is qualified in the order in which it is read. -/
theorem Tag.qualified_iff {outer : Environment} {t : Tag} : t.Qualified outer ↔
    prefixOf t.name ≠ CodePoint.ofText "xmlns" ∧ (∀ a ∈ t.attributes, a.DeclaresWell) ∧
      Closes (t.scope outer) t.name t.qualifiedNames := by
  have hAttributes : (∀ a ∈ t.attributes, declaresNamespace a.name = false → InScope (t.scope outer) a.name) ↔
      ∀ name ∈ t.qualifiedNames, prefixOf name ∈ (t.scope outer).map Prod.fst := by
    simp only [qualifiedNames, List.forall_mem_map, List.mem_filter, and_imp, Attribute.inScope_iff]
  rw [Closes, ← hAttributes, qualifiedNames, List.pairwise_map]
  exact ⟨fun h => ⟨h.notXmlns, h.declaresWell, h.attributes, h.apart, h.name⟩,
    fun ⟨hName, hWell, hScope, hApart, hElement⟩ => ⟨hName, hWell, hElement, hScope, hApart⟩⟩

end XmlIndex.Grammar
