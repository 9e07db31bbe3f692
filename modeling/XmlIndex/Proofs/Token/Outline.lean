import Mathlib.Data.List.Induction
import XmlIndex.Token.Basic

/-! # Outlines of token streams

Which token may come next depends on little of what came before: the token just before it, the
latest start tag, whether the root has been left and whether there was a document type. An outline
keeps that much; it says of each kind when and at which depth it may come.
-/
namespace XmlIndex
set_option autoImplicit false

namespace TokenKind

def value? : TokenKind → Option TokenKind
  | .attributeName | .namespaceName => some .attributeValue
  | .instructionTarget => some .instructionData
  | .declarationName => some .declarationValue
  | _ => none

def isAttributeName : TokenKind → Bool
  | .attributeName | .namespaceName => true
  | _ => false

def isText : TokenKind → Bool
  | .characterData | .cdata => true
  | _ => false

def isMisc : TokenKind → Bool
  | .comment | .instructionTarget | .instructionData => true
  | _ => false

end TokenKind

structure Outline where
  last : Option Token := none
  startTag : Option Token := none
  /-- A token outside the root has come after it. -/
  isLeft : Bool := false
  hasDoctype : Bool := false

namespace Outline

def push (o : Outline) (t : Token) : Outline where
  last := some t
  startTag := if t.kind = .startTag then some t else o.startTag
  isLeft := o.isLeft || o.startTag.isSome && decide (t.depth = -1)
  hasDoctype := o.hasDoctype || decide (t.kind = .doctype)

def Free (o : Outline) : Prop :=
  ∀ u, o.last = some u → u.kind.value? = none

def Names (o : Outline) (kind : TokenKind) (depth : Int) : Prop :=
  ∃ u, o.last = some u ∧ u.kind.value? = some kind ∧ u.depth = depth

def Allows (o : Outline) (t : Token) : Prop :=
  match t.kind with
  | .document | .endTag => False
  | .declarationName => o.Free ∧ o.startTag = none ∧ t.depth = -1
  | .declarationValue => o.Names .declarationValue t.depth ∧ o.startTag = none ∧ t.depth = -1
  | .doctype => o.Free ∧ o.startTag = none ∧ o.hasDoctype = false ∧ t.depth = -1
  | .comment | .instructionTarget =>
    o.Free ∧ (o.startTag = none ∨ o.isLeft = true → t.depth = -1)
  | .instructionData =>
    o.Names .instructionData t.depth ∧ (o.startTag = none ∨ o.isLeft = true → t.depth = -1)
  | .startTag =>
    o.Free ∧ o.isLeft = false ∧ t.depth ≤ Token.maxDepth ∧ (o.startTag = none → t.depth = 0) ∧
      ∀ u, o.startTag = some u → 1 ≤ t.depth ∧ t.depth ≤ u.depth + 1
  | .attributeName | .namespaceName =>
    o.isLeft = false ∧ 0 ≤ t.depth ∧ (∃ u, o.startTag = some u) ∧
      ∃ u, o.last = some u ∧ (u.kind = .startTag ∨ u.kind = .attributeValue) ∧ u.depth = t.depth
  | .attributeValue =>
    o.isLeft = false ∧ 0 ≤ t.depth ∧ (∃ u, o.startTag = some u) ∧ o.Names .attributeValue t.depth
  | .characterData | .cdata =>
    o.Free ∧ o.isLeft = false ∧ ∃ u, o.startTag = some u ∧ 0 ≤ t.depth ∧ t.depth ≤ u.depth

def Admits : Outline → List Token → Prop
  | _, [] => True
  | o, t :: rest => o.Allows t ∧ (o.push t).Admits rest

def run (o : Outline) (tokens : List Token) : Outline :=
  tokens.foldl push o

variable {o : Outline} {t u : Token} {tokens rest before after : List Token}

theorem run_append : o.run (tokens ++ rest) = (o.run tokens).run rest :=
  List.foldl_append

theorem admits_append : o.Admits (tokens ++ rest) ↔ o.Admits tokens ∧ (o.run tokens).Admits rest := by
  induction tokens generalizing o with
  | nil => exact (iff_of_eq (true_and _)).symm
  | cons t tokens ih => exact (and_congr_right fun _ => ih).trans and_assoc.symm

theorem Admits.allows (hAdmits : o.Admits (before ++ t :: after)) : (o.run before).Allows t :=
  (admits_append.mp hAdmits).2.1

/-- From outlines of one sort the tokens lead to outlines of another. -/
def Leads (P : Outline → Prop) (tokens : List Token) (Q : Outline → Prop) : Prop :=
  ∀ o, P o → o.Admits tokens ∧ Q (o.run tokens)

section
variable {P Q R : Outline → Prop}

theorem leads_nil : Leads P [] P :=
  fun _ hP => ⟨trivial, hP⟩

theorem leads_singleton (hAllows : ∀ o, P o → o.Allows t) (hPush : ∀ o, P o → Q (o.push t)) :
    Leads P [t] Q :=
  fun o hP => ⟨⟨hAllows o hP, trivial⟩, hPush o hP⟩

theorem Leads.append (hTokens : Leads P tokens Q) (hRest : Leads Q rest R) :
    Leads P (tokens ++ rest) R := by
  intro o hP
  obtain ⟨hAdmits, hQ⟩ := hTokens o hP
  obtain ⟨hAdmitsRest, hR⟩ := hRest _ hQ
  exact ⟨admits_append.mpr ⟨hAdmits, hAdmitsRest⟩, run_append ▸ hR⟩

theorem Leads.cons (hFirst : Leads P [t] Q) (hRest : Leads Q rest R) : Leads P (t :: rest) R :=
  hFirst.append hRest

theorem Leads.imp {P' Q' : Outline → Prop} (hLeads : Leads P tokens Q) (hBefore : ∀ o, P' o → P o)
    (hAfter : ∀ o, Q o → Q' o) : Leads P' tokens Q' := by
  intro o hP
  obtain ⟨hAdmits, hQ⟩ := hLeads o (hBefore o hP)
  exact ⟨hAdmits, hAfter _ hQ⟩

end

/-- The outline of all tokens before one. -/
def of (before : List Token) : Outline :=
  run {} before

theorem of_append_singleton : of (before ++ [t]) = (of before).push t :=
  run_append

theorem last_of : (of before).last = before.getLast? := by
  induction before using List.reverseRecOn with
  | nil => rfl
  | append_singleton before t => rw [of_append_singleton, List.getLast?_concat]; rfl

def IsLatest (before : List Token) (u : Token) : Prop :=
  ∃ earlier between, before = earlier ++ u :: between ∧ u.kind = .startTag ∧
    ∀ v ∈ between, v.kind ≠ .startTag

theorem isLatest_concat (hStart : t.kind = .startTag) : IsLatest (before ++ [t]) t :=
  ⟨before, [], rfl, hStart, nofun⟩

theorem IsLatest.concat (hLatest : IsLatest before u) (hOther : t.kind ≠ .startTag) : IsLatest (before ++ [t]) u := by
  obtain ⟨earlier, between, rfl, hStart, hBetween⟩ := hLatest
  refine ⟨earlier, between ++ [t], by simp, hStart, fun v hv => ?_⟩
  rcases List.mem_append.mp hv with hv | hv
  · exact hBetween v hv
  · rwa [List.mem_singleton.mp hv]

theorem startTag_of_eq_none_iff : (of before).startTag = none ↔ ∀ v ∈ before, v.kind ≠ .startTag := by
  induction before using List.reverseRecOn with
  | nil => exact iff_of_true rfl nofun
  | append_singleton before t ih =>
    rw [of_append_singleton, push]
    by_cases hStart : t.kind = .startTag
    · rw [if_pos hStart]
      exact iff_of_false nofun fun hNone => hNone t (by simp) hStart
    · rw [if_neg hStart, ih]
      simp [or_imp, forall_and, hStart]

theorem isLatest_of_startTag (hLatest : (of before).startTag = some u) : IsLatest before u := by
  induction before using List.reverseRecOn with
  | nil => cases hLatest
  | append_singleton before t ih =>
    rw [of_append_singleton, push] at hLatest
    by_cases hStart : t.kind = .startTag
    · rw [if_pos hStart] at hLatest
      cases hLatest
      exact isLatest_concat hStart
    · rw [if_neg hStart] at hLatest
      exact (ih hLatest).concat hStart

theorem exists_startTag_of_mem (hMem : u ∈ before) (hStart : u.kind = .startTag) :
    ∃ v, (of before).startTag = some v := by
  rw [← Option.ne_none_iff_exists']
  exact fun hNone => startTag_of_eq_none_iff.mp hNone u hMem hStart

theorem startTag_of_isLatest (hLatest : IsLatest before u) : (of before).startTag = some u := by
  obtain ⟨earlier, between, rfl, hStart, hOther⟩ := hLatest
  induction between using List.reverseRecOn with
  | nil => rw [of_append_singleton, push, if_pos hStart]
  | append_singleton between t ih =>
    have hSplit : earlier ++ u :: (between ++ [t]) = (earlier ++ u :: between) ++ [t] := by simp
    rw [hSplit, of_append_singleton, push, if_neg (hOther t (by simp))]
    exact ih fun v hv => hOther v (by simp [hv])

theorem hasDoctype_of_eq_true_iff : (of before).hasDoctype = true ↔ ∃ v ∈ before, v.kind = .doctype := by
  induction before using List.reverseRecOn with
  | nil => exact iff_of_false nofun nofun
  | append_singleton before t ih =>
    rw [of_append_singleton, push]
    simp [ih, or_and_right, exists_or]

/-- Once a token outside the root has come after it, the root has been left. -/
theorem isLeft_of_append {later : List Token} (hMem : u ∈ before) (hStart : u.kind = .startTag)
    (hOutside : t.depth = -1) : (of (before ++ t :: later)).isLeft = true := by
  induction later using List.reverseRecOn with
  | nil =>
    obtain ⟨v, hSome⟩ := exists_startTag_of_mem hMem hStart
    simp [of_append_singleton, push, hSome, hOutside]
  | append_singleton later w ih =>
    have hSplit : before ++ t :: (later ++ [w]) = (before ++ t :: later) ++ [w] := by simp
    rw [hSplit, of_append_singleton, push, ih]
    rfl

end Outline
end XmlIndex
