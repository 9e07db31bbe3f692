import XmlIndex.Proofs.Grammar.Layout
import XmlIndex.Proofs.Token.Outline

/-! # The outline of a document

The tokens of a document come as their outline allows: before the root, inside it and after it. Inside
an element the latest start tag is at least as deep as the element, whatever its content.
-/
namespace XmlIndex
set_option autoImplicit false
open Grammar

namespace Outline
variable {o : Outline} {t name value : Token} {tokens : List Token} {depth : Int} {doctype : Bool}

structure Before (doctype : Bool) (o : Outline) : Prop where
  free : o.Free
  startTag : o.startTag = none
  isLeft : o.isLeft = false
  hasDoctype : o.hasDoctype = doctype

structure Declaring (doctype : Bool) (o : Outline) : Prop where
  names : o.Names .declarationValue (-1)
  startTag : o.startTag = none
  isLeft : o.isLeft = false
  hasDoctype : o.hasDoctype = doctype

structure Inside (depth : Int) (o : Outline) : Prop where
  free : o.Free
  isLeft : o.isLeft = false
  startTag : ∃ u, o.startTag = some u ∧ depth ≤ u.depth

structure Tagged (depth : Int) (o : Outline) : Prop where
  isLeft : o.isLeft = false
  startTag : ∃ u, o.startTag = some u ∧ depth ≤ u.depth
  last : ∃ u, o.last = some u ∧ (u.kind = .startTag ∨ u.kind = .attributeValue) ∧ u.depth = depth

structure Beyond (o : Outline) : Prop where
  free : o.Free
  startTag : ∃ u, o.startTag = some u

theorem free_push (hKind : t.kind.value? = none) : (o.push t).Free := by
  rintro u ⟨⟩
  exact hKind

theorem startTag_push (hKind : t.kind ≠ .startTag) : (o.push t).startTag = o.startTag :=
  if_neg hKind

theorem isLeft_push (hLeft : o.isLeft = false) (hDepth : 0 ≤ t.depth) : (o.push t).isLeft = false := by
  have hInside : t.depth ≠ -1 := by omega
  simp [push, hLeft, hInside]

theorem Tagged.inside (hTagged : o.Tagged depth) : o.Inside depth where
  free u hLast := by
    obtain ⟨v, hSome, hKind, -⟩ := hTagged.last
    obtain rfl := Option.some.inj (hSome.symm.trans hLast)
    rcases hKind with hKind | hKind <;> rw [hKind] <;> rfl
  isLeft := hTagged.isLeft
  startTag := hTagged.startTag

theorem Inside.beyond (hInside : o.Inside depth) : o.Beyond where
  free := hInside.free
  startTag := hInside.startTag.imp fun _ => And.left

theorem Inside.mono {less : Int} (hInside : o.Inside depth) (hLess : less ≤ depth) : o.Inside less where
  free := hInside.free
  isLeft := hInside.isLeft
  startTag := hInside.startTag.imp fun _ h => ⟨h.1, Int.le_trans hLess h.2⟩

/-- Comments and instructions of the given depth may come, and change nothing. -/
structure Hosts (P : Outline → Prop) (depth : Int) : Prop where
  free {o : Outline} : P o → o.Free
  outside {o : Outline} : P o → o.startTag = none ∨ o.isLeft = true → depth = -1
  push {o : Outline} {t : Token} : P o → t.kind.value? = none → t.kind ≠ .startTag → t.kind ≠ .doctype →
    t.depth = depth → P (o.push t)

theorem hosts_before : Hosts (Before doctype) (-1) where
  free hBefore := hBefore.free
  outside _ _ := rfl
  push hBefore hKind hStart hOther hDepth :=
    { free := free_push hKind
      startTag := (startTag_push hStart).trans hBefore.startTag
      isLeft := by simp [Outline.push, hBefore.isLeft, hBefore.startTag]
      hasDoctype := by simp [Outline.push, hBefore.hasDoctype, hOther] }

theorem hosts_inside (hLeast : 0 ≤ depth) : Hosts (Inside depth) depth where
  free hInside := hInside.free
  outside hInside hOutside := by
    obtain ⟨u, hSome, -⟩ := hInside.startTag
    rw [hSome, hInside.isLeft] at hOutside
    simp at hOutside
  push hInside hKind hStart _ hDepth :=
    { free := free_push hKind
      isLeft := isLeft_push hInside.isLeft (hDepth ▸ hLeast)
      startTag := by rw [startTag_push hStart]; exact hInside.startTag }

theorem hosts_beyond : Hosts Beyond (-1) where
  free hBeyond := hBeyond.free
  outside _ _ := rfl
  push hBeyond hKind hStart _ _ :=
    { free := free_push hKind
      startTag := by rw [startTag_push hStart]; exact hBeyond.startTag }

section
variable {P : Outline → Prop}

theorem leads_of_forall (hEach : ∀ t ∈ tokens, Leads P [t] P) : Leads P tokens P := by
  induction tokens with
  | nil => exact leads_nil
  | cons t tokens ih =>
    obtain ⟨hFirst, hRest⟩ := List.forall_mem_cons.mp hEach
    exact hFirst.cons (ih hRest)

theorem leads_comment (hHosts : Hosts P depth) (hKind : t.kind = .comment) (hDepth : t.depth = depth) :
    Leads P [t] P := by
  refine leads_singleton (fun o hP => ?_) fun o hP => ?_
  · unfold Allows
    rw [hKind, hDepth]
    exact ⟨hHosts.free hP, hHosts.outside hP⟩
  · exact hHosts.push hP (by rw [hKind]; rfl) (by rw [hKind]; decide) (by rw [hKind]; decide) hDepth

theorem names_push {kind : TokenKind} (hKind : name.kind.value? = some kind) :
    (o.push name).Names kind name.depth :=
  ⟨name, rfl, hKind, rfl⟩

/-- A name and its value leave the outline that the value alone would leave. -/
theorem push_push (hName : name.kind ≠ .startTag ∧ name.kind ≠ .doctype)
    (hDepth : name.depth = value.depth) : (o.push name).push value = o.push value := by
  rw [push, startTag_push hName.1]
  simp [push, hName.2, hDepth]

theorem leads_instruction (hHosts : Hosts P depth) (hName : name.kind = .instructionTarget)
    (hValue : value.kind = .instructionData) (hNameDepth : name.depth = depth)
    (hValueDepth : value.depth = depth) : Leads P [name, value] P := by
  have hKind : name.kind.value? = some .instructionData := by rw [hName]; rfl
  have hOther : name.kind ≠ .startTag ∧ name.kind ≠ .doctype := by
    rw [hName]
    decide
  intro o hP
  refine ⟨⟨?_, ?_, trivial⟩, ?_⟩
  · unfold Allows
    rw [hName, hNameDepth]
    exact ⟨hHosts.free hP, hHosts.outside hP⟩
  · unfold Allows
    rw [hValue, startTag_push hOther.1, hValueDepth]
    exact ⟨hNameDepth ▸ names_push hKind, fun hOutside => hOutside.elim
      (fun hNone => hHosts.outside hP (.inl hNone))
      fun hLeft => by
        simp only [push, hNameDepth, Bool.or_eq_true, Bool.and_eq_true, decide_eq_true_eq] at hLeft
        exact hLeft.elim (fun h => hHosts.outside hP (.inr h)) And.right⟩
  · change P ((o.push name).push value)
    rw [push_push hOther (hNameDepth.trans hValueDepth.symm)]
    exact hHosts.push hP (by rw [hValue]; rfl) (by rw [hValue]; decide) (by rw [hValue]; decide) hValueDepth

end

theorem leads_text (hLeast : 0 ≤ depth) (hKind : t.kind = .characterData ∨ t.kind = .cdata)
    (hDepth : t.depth = depth) : Leads (Inside depth) [t] (Inside depth) := by
  refine leads_singleton (fun o hInside => ?_) fun o hInside => ?_
  · obtain ⟨u, hSome, hDeep⟩ := hInside.startTag
    have hText : ∃ u, o.startTag = some u ∧ 0 ≤ t.depth ∧ t.depth ≤ u.depth :=
      ⟨u, hSome, hDepth.symm ▸ hLeast, hDepth.symm ▸ hDeep⟩
    unfold Allows
    rcases hKind with hKind | hKind <;> rw [hKind] <;> exact ⟨hInside.free, hInside.isLeft, hText⟩
  · refine (hosts_inside hLeast).push hInside ?_ ?_ ?_ hDepth <;>
      rcases hKind with hKind | hKind <;> rw [hKind] <;> decide

theorem leads_declarationName (hKind : t.kind = .declarationName) (hDepth : t.depth = -1) :
    Leads (Before doctype) [t] (Declaring doctype) := by
  have hValue : t.kind.value? = some .declarationValue := by rw [hKind]; rfl
  have hOther : t.kind ≠ .startTag := by rw [hKind]; decide
  refine leads_singleton (fun o hBefore => ?_) fun o hBefore => ?_
  · unfold Allows
    rw [hKind]
    exact ⟨hBefore.free, hBefore.startTag, hDepth⟩
  · exact
      { names := hDepth ▸ names_push hValue
        startTag := (startTag_push hOther).trans hBefore.startTag
        isLeft := by simp [push, hBefore.isLeft, hBefore.startTag]
        hasDoctype := by simp [push, hBefore.hasDoctype, hKind] }

theorem leads_declarationValue (hKind : t.kind = .declarationValue) (hDepth : t.depth = -1) :
    Leads (Declaring doctype) [t] (Before doctype) := by
  have hOther : t.kind ≠ .startTag := by rw [hKind]; decide
  refine leads_singleton (fun o hDeclaring => ?_) fun o hDeclaring => ?_
  · unfold Allows
    rw [hKind, hDepth]
    exact ⟨hDeclaring.names, hDeclaring.startTag, rfl⟩
  · exact
      { free := free_push (by rw [hKind]; rfl)
        startTag := (startTag_push hOther).trans hDeclaring.startTag
        isLeft := by simp [push, hDeclaring.isLeft, hDeclaring.startTag]
        hasDoctype := by simp [push, hDeclaring.hasDoctype, hKind] }

theorem leads_doctype (hKind : t.kind = .doctype) (hDepth : t.depth = -1) :
    Leads (Before false) [t] (Before true) := by
  refine leads_singleton (fun o hBefore => ?_) fun o hBefore => ?_
  · unfold Allows
    rw [hKind]
    exact ⟨hBefore.free, hBefore.startTag, hBefore.hasDoctype, hDepth⟩
  · have hOther : t.kind ≠ .startTag := by rw [hKind]; decide
    exact
      { free := free_push (by rw [hKind]; rfl)
        startTag := (startTag_push hOther).trans hBefore.startTag
        isLeft := by simp [push, hBefore.isLeft, hBefore.startTag]
        hasDoctype := by simp [push, hKind] }

theorem leads_attribute (hLeast : 0 ≤ depth)
    (hName : name.kind = .attributeName ∨ name.kind = .namespaceName)
    (hValue : value.kind = .attributeValue) (hNameDepth : name.depth = depth)
    (hValueDepth : value.depth = depth) : Leads (Tagged depth) [name, value] (Tagged depth) := by
  have hKind : name.kind.value? = some .attributeValue := by
    rcases hName with hName | hName <;> rw [hName] <;> rfl
  have hOther : name.kind ≠ .startTag ∧ name.kind ≠ .doctype := by
    rcases hName with hName | hName <;> rw [hName] <;> decide
  have hPlain : value.kind ≠ .startTag := by rw [hValue]; decide
  intro o hTagged
  have hTag := hTagged.inside.beyond.startTag
  refine ⟨⟨?_, ?_, trivial⟩, ?_⟩
  · have hAllows := And.intro hTagged.isLeft (And.intro hLeast (And.intro hTag hTagged.last))
    unfold Allows
    rw [hNameDepth]
    rcases hName with hName | hName <;> rw [hName] <;> exact hAllows
  · unfold Allows
    rw [hValue, hValueDepth, startTag_push hOther.1]
    exact ⟨isLeft_push hTagged.isLeft (hNameDepth ▸ hLeast), hLeast, hTag, hNameDepth ▸ names_push hKind⟩
  · change Tagged depth ((o.push name).push value)
    rw [push_push hOther (hNameDepth.trans hValueDepth.symm)]
    exact
      { isLeft := isLeft_push hTagged.isLeft (hValueDepth ▸ hLeast)
        startTag := by rw [startTag_push hPlain]; exact hTagged.startTag
        last := ⟨value, rfl, .inr hValue, hValueDepth⟩ }

/-- A start tag opens the root, or an element inside another. -/
theorem leads_startTag {P : Outline → Prop} (hKind : t.kind = .startTag) (hGreatest : t.depth ≤ Token.maxDepth)
    (hLeast : 0 ≤ t.depth)
    (hFrom : ∀ o, P o → (∃ doctype, o.Before doctype) ∧ t.depth = 0 ∨ 1 ≤ t.depth ∧ o.Inside (t.depth - 1)) :
    Leads P [t] (Tagged t.depth) := by
  refine leads_singleton (fun o hP => ?_) fun o hP => ?_
  · unfold Allows
    rw [hKind]
    rcases hFrom o hP with ⟨⟨doctype, hBefore⟩, hRoot⟩ | ⟨hDeep, hInside⟩
    · refine ⟨hBefore.free, hBefore.isLeft, hGreatest, fun _ => hRoot, fun u hSome => ?_⟩
      rw [hBefore.startTag] at hSome
      cases hSome
    · obtain ⟨v, hSome, hParent⟩ := hInside.startTag
      refine ⟨hInside.free, hInside.isLeft, hGreatest, fun hNone => ?_, fun u hLatest => ⟨hDeep, ?_⟩⟩
      · rw [hSome] at hNone
        cases hNone
      · obtain rfl := Option.some.inj (hSome.symm.trans hLatest)
        omega
  · have hLeft : o.isLeft = false := by
      rcases hFrom o hP with ⟨⟨doctype, hBefore⟩, -⟩ | ⟨-, hInside⟩
      · exact hBefore.isLeft
      · exact hInside.isLeft
    exact
      { isLeft := isLeft_push hLeft hLeast
        startTag := ⟨t, if_pos hKind, Int.le_refl _⟩
        last := ⟨t, rfl, .inl hKind, rfl⟩ }

end Outline

namespace Grammar
open Outline
variable {e : Encoding} {place : Nat} {depth : Int}

theorem Tag.leads_attributes (hLeast : 0 ≤ depth) (attributes : List Attribute) :
    Leads (Tagged depth) (Tag.attributeTokens e depth place attributes) (Tagged depth) := by
  induction attributes generalizing place with
  | nil => exact leads_nil
  | cons a rest ih =>
    have hKind : attributeKind a.name = .attributeName ∨ attributeKind a.name = .namespaceName := by
      unfold attributeKind
      split
      · exact .inr rfl
      · exact .inl rfl
    exact (leads_attribute hLeast hKind rfl rfl rfl).append ih

theorem Tag.leads {P : Outline → Prop} (tag : Tag) (hGreatest : depth ≤ Token.maxDepth) (hLeast : 0 ≤ depth)
    (hFrom : ∀ o, P o → (∃ doctype, o.Before doctype) ∧ depth = 0 ∨ 1 ≤ depth ∧ o.Inside (depth - 1)) :
    Leads P (tag.tokens e depth place) (Inside depth) :=
  (leads_startTag rfl hGreatest hLeast hFrom).cons
    ((Tag.leads_attributes hLeast tag.attributes).imp (fun _ h => h) fun _ h => h.inside)

theorem leads_pieces {P : Outline → Prop} {kind : TokenKind} {size : Nat}
    (hEach : ∀ t : Token, t.kind = kind → t.depth = depth → Leads P [t] P) :
    Leads P (pieces e kind depth place size) P := by
  refine leads_of_forall fun t ht => ?_
  obtain ⟨i, -, rfl⟩ := mem_pieces.mp ht
  exact hEach _ rfl rfl

theorem leads_runTokens {recordSpace whole : Bool} {run : Chars} (hLeast : 0 ≤ depth) :
    Leads (Inside depth) (runTokens e recordSpace whole depth place run) (Inside depth) := by
  unfold runTokens
  split
  · exact leads_pieces fun t hKind hDepth => leads_text hLeast (.inl hKind) hDepth
  · exact leads_nil

theorem Markup.leads_misc {P : Outline → Prop} {m : Markup} (hHosts : Hosts P depth) (hMisc : m.isMisc = true) :
    Leads P (m.tokens e depth place) P := by
  cases m with
  | comment body => exact leads_pieces fun t hKind hDepth => leads_comment hHosts hKind hDepth
  | instruction target data =>
    cases data with
    | none => exact leads_instruction hHosts rfl rfl rfl rfl
    | some data => exact leads_instruction hHosts rfl rfl rfl rfl
  | «section» body | documentType body => cases hMisc

theorem Markup.leads_inside {m : Markup} (hLeast : 0 ≤ depth) (hNoDoctype : m.isDocumentType = false) :
    Leads (Inside depth) (m.tokens e depth place) (Inside depth) := by
  cases hSection : m.isSection with
  | false =>
    have hMisc : m.isMisc = true := by rw [Markup.isMisc, hSection, hNoDoctype]; rfl
    exact leads_misc (hosts_inside hLeast) hMisc
  | true =>
    cases m with
    | «section» body => exact leads_pieces fun t hKind hDepth => leads_text hLeast (.inr hKind) hDepth
    | comment body | instruction target data | documentType body => cases hSection

/-- By induction on the content: nested elements only add start tags that are deeper. -/
theorem Content.leads {recordSpace first : Bool} {x : Content} {level : Nat} (hWell : x.WellFormed)
    (hFits : x.Fits e level) (hLevel : depth + 1 = level) (hLeast : 0 ≤ depth) :
    Leads (Inside depth) (x.tokens e recordSpace depth first place) (Inside depth) := by
  induction x generalizing place depth first level with
  | last run => exact leads_runTokens hLeast
  | markup run m rest ih =>
    obtain ⟨-, -, hNoDoctype, hRest⟩ := hWell
    exact (leads_runTokens hLeast).append
      ((m.leads_inside hLeast hNoDoctype).append (ih hRest hFits.2 hLevel hLeast))
  | empty run tag rest ih =>
    obtain ⟨-, -, hRest⟩ := hWell
    obtain ⟨hDeep, -, hRestFits⟩ := hFits
    have hTag : Leads (Inside depth) (tag.tokens e (depth + 1)
        (place + e.size (run ++ [CodePoint.lessThan]))) (Inside (depth + 1)) :=
      tag.leads (by omega) (by omega) fun o hInside => .inr ⟨by omega, hInside.mono (by omega)⟩
    exact (leads_runTokens hLeast).append ((hTag.imp (fun _ h => h) fun _ h => h.mono (by omega)).append
      (ih hRest hRestFits hLevel hLeast))
  | element run tag inside space rest ihInside ihRest =>
    obtain ⟨-, -, hInside, -, hRest⟩ := hWell
    obtain ⟨hDeep, -, hInsideFits, hRestFits⟩ := hFits
    have hTag : Leads (Inside depth) (tag.tokens e (depth + 1)
        (place + e.size (run ++ [CodePoint.lessThan]))) (Inside (depth + 1)) :=
      tag.leads (by omega) (by omega) fun o hInside => .inr ⟨by omega, hInside.mono (by omega)⟩
    have hContent : Leads (Inside (depth + 1)) (inside.tokens e recordSpace (depth + 1) true
        (place + e.size (run ++ [CodePoint.lessThan]) + e.size (tag.text ++ [CodePoint.greaterThan])))
        (Inside (depth + 1)) :=
      ihInside hInside hInsideFits (by omega : depth + 1 + 1 = ((level + 1 : Nat) : Int)) (by omega)
    exact (leads_runTokens hLeast).append (hTag.append
      ((hContent.imp (fun _ h => h) fun _ h => h.mono (by omega)).append
        (ihRest hRest hRestFits hLevel hLeast)))

theorem Root.leads {recordSpace : Bool} {r : Root} (hWell : r.WellFormed) (hFits : r.Fits e) :
    Leads (fun o => ∃ doctype, o.Before doctype) (r.tokens e recordSpace place) (Inside 0) := by
  obtain ⟨tag, body⟩ := r
  have hTag : Leads (fun o => ∃ doctype, o.Before doctype) (tag.tokens e 0 place) (Inside 0) :=
    tag.leads (by decide) (Int.le_refl 0) fun o hBefore => .inl ⟨hBefore, rfl⟩
  cases body with
  | none => exact hTag.append leads_nil
  | some body =>
    obtain ⟨inside, space⟩ := body
    exact hTag.append (inside.leads (hWell.body inside space rfl).1 (hFits.body inside space rfl) rfl
      (Int.le_refl 0))

theorem leads_prolog {doctype : Bool} {items : List (Markup × Chars)}
    (hItems : ∀ item ∈ items, item.1.isSection = false)
    (hSingle : (items.filter (·.1.isDocumentType)).length + doctype.toNat ≤ 1) :
    Leads (Before doctype) (prologTokens e place items) (fun o => ∃ doctype, o.Before doctype) := by
  induction items generalizing place doctype with
  | nil => exact leads_nil.imp (fun _ h => h) fun _ h => ⟨doctype, h⟩
  | cons item items ih =>
    obtain ⟨m, space⟩ := item
    obtain ⟨hSection, hRest⟩ := List.forall_mem_cons.mp hItems
    cases hDoctype : m.isDocumentType with
    | false =>
      have hMisc : m.isMisc = true := by
        rw [Markup.isMisc, hDoctype, show m.isSection = false from hSection]
        rfl
      rw [List.filter_cons_of_neg (by simp [hDoctype])] at hSingle
      exact (m.leads_misc hosts_before hMisc).append (ih hRest hSingle)
    | true =>
      rw [List.filter_cons_of_pos (by simp [hDoctype]), List.length_cons] at hSingle
      have hFirst : doctype = false := by
        cases doctype
        · rfl
        · simp at hSingle
      subst hFirst
      cases m with
      | documentType body => exact (leads_doctype rfl rfl).cons (ih hRest (by simpa using hSingle))
      | comment body | «section» body | instruction target data => cases hDoctype

theorem Epilog.leads {items : List (Chars × Markup)} (hMisc : ∀ item ∈ items, item.2.isMisc = true) :
    Leads Beyond (Epilog.tokens e place items) Beyond := by
  induction items generalizing place with
  | nil => exact leads_nil
  | cons item items ih =>
    obtain ⟨hFirst, hRest⟩ := List.forall_mem_cons.mp hMisc
    exact (item.2.leads_misc hosts_beyond hFirst).append (ih hRest)

theorem Document.leads_body {recordSpace : Bool} {d : Document} (hWell : d.BodyWellFormed) (hFits : d.Fits e) :
    Leads (Before false) (d.bodyTokens e recordSpace place) Beyond := by
  have hProlog : Leads (Before false) (prologTokens e place d.prolog) (fun o => ∃ doctype, o.Before doctype) :=
    leads_prolog (fun item h => (hWell.prolog.wellFormed item h).2.1) hWell.prolog.single
  have hRoot : Leads (fun o => ∃ doctype, o.Before doctype)
      (d.root.tokens e recordSpace (place + e.size (prologText d.prolog))) Beyond :=
    (Root.leads hWell.root hFits.root).imp (fun _ h => h) fun _ h => h.beyond
  exact hProlog.append (hRoot.append (Epilog.leads fun item h => (hWell.epilog.items item h).2.2))

end Grammar
end XmlIndex
