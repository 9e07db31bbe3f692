import XmlIndex.Proofs.Grammar.Qualification

/-! # Names with colons

A prefix is declared as what stands after the last colon of a name, and a name is qualified by what stands before its
last colon. So a declared prefix holds no colon, nor does what follows the prefix: the names of a qualified tree have
one colon at most. Whether there is anything before or after it, and how the local part begins, is not asked.
-/
namespace XmlIndex.Grammar
set_option autoImplicit false

instance : DecidablePred IsName
  | [] => isFalse id
  | first :: rest =>
    inferInstanceAs (Decidable (CodePoint.isNameStart first = true ∧ ∀ ch ∈ rest, CodePoint.isName ch = true))

def IsNCName (name : Chars) : Prop :=
  IsName name ∧ CodePoint.colon ∉ name

instance : DecidablePred IsNCName := fun _ =>
  inferInstanceAs (Decidable (_ ∧ _))

def IsQName (name : Chars) : Prop :=
  IsNCName name ∨ ∃ lead last, IsNCName lead ∧ IsNCName last ∧ name = lead ++ CodePoint.colon :: last

/-- A name without colons, or one with a colon before which there may be nothing, and after which there may be any
characters of names. -/
def IsLooseQName (name : Chars) : Prop :=
  IsNCName name ∨ ∃ lead last, (lead = [] ∨ IsNCName lead) ∧ (∀ ch ∈ last, CodePoint.isName ch = true) ∧
    CodePoint.colon ∉ last ∧ name = lead ++ CodePoint.colon :: last

section
variable {name lead last : Chars}

theorem colon_notMem_localOf : CodePoint.colon ∉ localOf name := by
  induction name with
  | nil => exact List.not_mem_nil
  | cons ch rest ih =>
    rw [localOf]
    split
    · exact ih
    · split
      · assumption
      · exact List.not_mem_cons_of_ne_of_not_mem (Ne.symm ‹_›) ‹_›

/-- The parts of a name are those at its last colon. -/
theorem parts_of_append (hLast : CodePoint.colon ∉ last) :
    prefixOf (lead ++ CodePoint.colon :: last) = lead ∧ localOf (lead ++ CodePoint.colon :: last) = last := by
  induction lead with
  | nil => simp [prefixOf, localOf, hLast]
  | cons ch lead ih => simp [prefixOf, localOf, ih]

theorem isQName_iff : IsQName name ↔ IsNCName name ∨
    CodePoint.colon ∈ name ∧ IsNCName (prefixOf name) ∧ IsNCName (localOf name) := by
  refine or_congr Iff.rfl ⟨?_, fun ⟨hColon, hPrefix, hLocal⟩ =>
    ⟨_, _, hPrefix, hLocal, (prefixOf_append_localOf hColon).symm⟩⟩
  rintro ⟨lead, last, hLead, hLast, rfl⟩
  obtain ⟨hPrefix, hLocal⟩ := @parts_of_append lead last hLast.2
  rw [hPrefix, hLocal]
  exact ⟨by simp, hLead, hLast⟩

instance : DecidablePred IsQName := fun _ =>
  decidable_of_iff' _ isQName_iff

/-- All that is asked of a name is that its prefix holds no colon. -/
theorem isLooseQName_of_prefix (hName : IsName name) (hPrefix : CodePoint.colon ∉ prefixOf name) : IsLooseQName name := by
  by_cases hColon : CodePoint.colon ∈ name
  · have hSplit := prefixOf_append_localOf hColon
    have hChars : ∀ ch ∈ name, CodePoint.isName ch = true := by
      cases name with
      | nil => exact hName.elim
      | cons first rest => exact List.forall_mem_cons.mpr ⟨CodePoint.isName_of_isNameStart hName.1, hName.2⟩
    refine .inr ⟨prefixOf name, localOf name, ?_, ?_, colon_notMem_localOf, hSplit.symm⟩
    · cases hLead : prefixOf name with
      | nil => exact .inl rfl
      | cons first rest =>
        rw [hLead] at hSplit hPrefix
        rw [← hSplit] at hName
        exact .inr ⟨⟨hName.1, fun ch hch => hName.2 ch (List.mem_append_left _ hch)⟩, hPrefix⟩
    · exact fun ch hch => hChars ch (hSplit ▸ List.mem_append_right _ (List.mem_cons_of_mem _ hch))
  · exact .inl ⟨hName, hColon⟩

end

def Tag.names (t : Tag) : List Chars :=
  t.name :: t.attributes.map Attribute.name

def Environment.ColonFree (scope : Environment) : Prop :=
  ∀ declared ∈ scope.map Prod.fst, CodePoint.colon ∉ declared

/-- An attribute that declares a prefix may have any number of colons; the prefix is what follows the last of them. -/
structure Tag.NamesLoose (t : Tag) : Prop where
  name : IsLooseQName t.name
  attributes : ∀ a ∈ t.attributes, declaresNamespace a.name = false → IsLooseQName a.name
  declarations : ∀ a ∈ t.attributes, a.declaresPrefix = true → ∃ lead declared,
    a.name = lead ++ CodePoint.colon :: declared ∧ CodePoint.colon ∉ declared ∧
      (declared ≠ CodePoint.ofText "xml" → a.bound? = some (declared, a.binding.value))

namespace Content

def tags : Content → List Tag
  | .last _ => []
  | .markup _ _ rest => rest.tags
  | .empty _ tag rest => tag :: rest.tags
  | .element _ tag inside _ rest => tag :: (inside.tags ++ rest.tags)

end Content

def Root.tags (r : Root) : List Tag :=
  r.tag :: match r.body with
    | none => []
    | some (inside, _) => inside.tags

section
variable {scope : Environment} {name : Chars}

theorem InScope.isLooseQName (hScope : scope.ColonFree) (hIn : InScope scope name) (hName : IsName name) :
    IsLooseQName name := by
  refine isLooseQName_of_prefix hName ?_
  rcases hIn with hNone | hXml | hDeclared
  · rw [hNone]
    exact List.not_mem_nil
  · rw [hXml]
    decide
  · exact hScope _ hDeclared

theorem Attribute.colon_notMem_of_bound {a : Attribute} {bound : Chars × Chars} (hBound : a.bound? = some bound) :
    CodePoint.colon ∉ bound.1 := by
  unfold Attribute.bound? at hBound
  split at hBound <;> cases hBound
  exact colon_notMem_localOf

theorem Attribute.exists_declared {a : Attribute} (hDeclares : a.declaresPrefix = true) : ∃ lead declared,
    a.name = lead ++ CodePoint.colon :: declared ∧ CodePoint.colon ∉ declared ∧
      (declared ≠ CodePoint.ofText "xml" → a.bound? = some (declared, a.binding.value)) := by
  have hColon : CodePoint.colon ∈ a.name :=
    (List.isPrefixOf_iff_prefix.mp hDeclares).subset (by decide)
  refine ⟨prefixOf a.name, localOf a.name, (prefixOf_append_localOf hColon).symm, colon_notMem_localOf, fun hOther => ?_⟩
  exact if_pos (Bool.and_eq_true_iff.mpr ⟨hDeclares, bne_iff_ne.mpr hOther⟩)

theorem Tag.colonFree_scope (hScope : scope.ColonFree) (t : Tag) : (t.scope scope).ColonFree := by
  intro declared hDeclared
  obtain ⟨bound, hBound, rfl⟩ := List.mem_map.mp hDeclared
  rcases List.mem_append.mp hBound with hHere | hOuter
  · obtain ⟨a, -, hBinds⟩ := List.mem_filterMap.mp (List.mem_reverse.mp hHere)
    exact Attribute.colon_notMem_of_bound hBinds
  · exact hScope _ (List.mem_map_of_mem hOuter)

theorem Tag.Qualified.namesLoose {t : Tag} (hQualified : t.Qualified scope) (hScope : scope.ColonFree)
    (hWell : t.WellFormed) : t.NamesLoose where
  name := hQualified.name.isLooseQName (t.colonFree_scope hScope) hWell.name
  attributes := fun a ha hPlain =>
    (hQualified.attributes a ha hPlain).isLooseQName (t.colonFree_scope hScope) (hWell.attributes a ha).name
  declarations := fun _ _ hDeclares => Attribute.exists_declared hDeclares

end

theorem Root.forall_mem_tags {r : Root} {p : Tag → Prop} (hTag : p r.tag)
    (hBody : ∀ inside space, r.body = some (inside, space) → ∀ t ∈ inside.tags, p t) : ∀ t ∈ r.tags, p t := by
  refine List.forall_mem_cons.mpr ⟨hTag, ?_⟩
  cases hSome : r.body with
  | none => exact nofun
  | some body => exact hBody _ _ hSome

theorem Content.WellFormed.of_mem_tags {x : Content} (hWell : x.WellFormed) : ∀ t ∈ x.tags, t.WellFormed := by
  induction x with
  | last run => exact nofun
  | markup run m rest ih => exact ih hWell.2.2.2
  | empty run tag rest ih => exact List.forall_mem_cons.mpr ⟨hWell.2.1, ih hWell.2.2⟩
  | element run tag inside space rest ihInside ihRest =>
    obtain ⟨-, hTag, hInside, -, hRest⟩ := hWell
    exact List.forall_mem_cons.mpr ⟨hTag, List.forall_mem_append.mpr ⟨ihInside hInside, ihRest hRest⟩⟩

theorem Root.WellFormed.of_mem_tags {r : Root} (hWell : r.WellFormed) : ∀ t ∈ r.tags, t.WellFormed :=
  r.forall_mem_tags hWell.tag fun inside space hBody => (hWell.body inside space hBody).1.of_mem_tags

section
variable {e : Encoding}

theorem Content.Fits.of_mem_tags {x : Content} {depth : Nat} (hFits : x.Fits e depth) : ∀ t ∈ x.tags, t.Fits e := by
  induction x generalizing depth with
  | last run => exact nofun
  | markup run m rest ih => exact ih hFits.2
  | empty run tag rest ih => exact List.forall_mem_cons.mpr ⟨hFits.2.1, ih hFits.2.2⟩
  | element run tag inside space rest ihInside ihRest =>
    obtain ⟨-, hTag, hInside, hRest⟩ := hFits
    exact List.forall_mem_cons.mpr ⟨hTag, List.forall_mem_append.mpr ⟨ihInside hInside, ihRest hRest⟩⟩

theorem Root.Fits.of_mem_tags {r : Root} (hFits : r.Fits e) : ∀ t ∈ r.tags, t.Fits e :=
  r.forall_mem_tags hFits.tag fun inside space hBody => (hFits.body inside space hBody).of_mem_tags

end

/-- Each tag is qualified by an environment without colons in its prefixes. -/
theorem Content.Qualified.of_mem_tags {x : Content} {scope : Environment} (hQualified : x.Qualified scope)
    (hScope : scope.ColonFree) : ∀ t ∈ x.tags, ∃ outer : Environment, outer.ColonFree ∧ t.Qualified outer := by
  induction x generalizing scope with
  | last run => exact nofun
  | markup run m rest ih => exact ih hQualified hScope
  | empty run tag rest ih => exact List.forall_mem_cons.mpr ⟨⟨scope, hScope, hQualified.1⟩, ih hQualified.2 hScope⟩
  | element run tag inside space rest ihInside ihRest =>
    obtain ⟨hTag, hInside, hRest⟩ := hQualified
    exact List.forall_mem_cons.mpr ⟨⟨scope, hScope, hTag⟩,
      List.forall_mem_append.mpr ⟨ihInside hInside (tag.colonFree_scope hScope), ihRest hRest hScope⟩⟩

theorem Root.Qualified.of_mem_tags {r : Root} (hQualified : r.Qualified) :
    ∀ t ∈ r.tags, ∃ outer : Environment, outer.ColonFree ∧ t.Qualified outer := by
  have hNothing : Environment.ColonFree [] := nofun
  exact r.forall_mem_tags ⟨[], hNothing, hQualified.tag⟩ fun inside space hBody =>
    (hQualified.body inside space hBody).of_mem_tags (r.tag.colonFree_scope hNothing)

end XmlIndex.Grammar
