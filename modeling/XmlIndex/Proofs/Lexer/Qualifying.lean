import XmlIndex.Proofs.Lexer.Scopes
import XmlIndex.Proofs.Lexer.Understanding

/-! # Names and values in namespaces

With namespaces, reading a tag is reading it without them and some checks, each of which passes just if
the tag is as qualified names must be. What is read is known beforehand here, so each action is
described by the condition on which it succeeds and by the one way in which it then does.
-/
namespace XmlIndex
set_option autoImplicit false
open Grammar

namespace Lexer

def withScopes (s : Lexer) (scopes : Namespace.Scopes) : Lexer :=
  { s with scopes }

theorem valued_withScopes {s : Lexer} {b : Binding} {scopes later : Namespace.Scopes} :
    ((s.withScopes scopes).valued b).withScopes later = (s.valued b).withScopes later :=
  rfl

end Lexer

namespace Lex
variable {α β : Type} {s s' s'' : Lexer} {p q : Prop} {a : α} {b : β} {action : Lex α} {next : α → Lex β}

/-- The action succeeds just if the condition holds, and then in one way. -/
def Yields (action : Lex α) (s : Lexer) (condition : Prop) (a : α) (s' : Lexer) : Prop :=
  ∀ b t, action s = .ok b t ↔ condition ∧ b = a ∧ t = s'

theorem yields_of_ok (hOk : action s = .ok a s') : Yields action s True a s' := by
  intro b t
  rw [hOk, EStateM.Result.ok.injEq, true_and, eq_comm, @eq_comm _ t]

theorem yields_of_iff {u : Unit} {action : Lex Unit}
    (hOk : ∀ (u : Unit) (t : Lexer), action s = .ok u t ↔ p ∧ t = s') : Yields action s p u s' :=
  fun _ _ => (hOk _ _).trans (and_congr_right fun _ => (and_iff_right rfl).symm)

theorem Yields.congr (hYields : Yields action s p a s') (hCondition : p ↔ q) : Yields action s q a s' :=
  fun b t => (hYields b t).trans (and_congr_left fun _ => hCondition)

theorem Yields.bind (hFirst : Yields action s p a s') (hNext : Yields (next a) s' q b s'') :
    Yields (action >>= next) s (p ∧ q) b s'' := by
  intro b t
  rw [bind_eq_ok_iff]
  constructor
  · rintro ⟨_, _, hAction, hOk⟩
    obtain ⟨hp, rfl, rfl⟩ := (hFirst _ _).mp hAction
    obtain ⟨hq, rfl, rfl⟩ := (hNext _ _).mp hOk
    exact ⟨⟨hp, hq⟩, rfl, rfl⟩
  · rintro ⟨⟨hp, hq⟩, rfl, rfl⟩
    exact ⟨_, _, (hFirst _ _).mpr ⟨hp, rfl, rfl⟩, (hNext _ _).mpr ⟨hq, rfl, rfl⟩⟩

/-- Where the first action is sure to succeed, the condition is that of the rest. -/
theorem Yields.of_ok (hOk : action s = .ok a s') (hNext : Yields (next a) s' q b s'') :
    Yields (action >>= next) s q b s'' :=
  ((yields_of_ok hOk).bind hNext).congr (and_iff_right trivial)

theorem yields_pure : Yields (pure a : Lex α) s True a s :=
  yields_of_ok rfl

theorem yields_requireAt {offset : Nat} {condition : Bool} {cause : SyntaxFault} (hCondition : condition = true ↔ p) :
    Yields (requireAt offset condition cause) s p () s :=
  yields_of_iff fun _ _ => by rw [requireAt_eq_ok_iff, hCondition]

end Lex

namespace Grammar

def Unreserved (value : Chars) : Prop :=
  ¬Resolves value (CodePoint.ofText Namespace.xml) ∧ ¬Resolves value (CodePoint.ofText Namespace.xmlns)

/-- The values that an attribute may have in its role. -/
def Admits : AttributeRole → Chars → Prop
  | .plain, _ => True
  | .defaultNamespace, value => Unreserved value
  | .namespacePrefix, value => value ≠ [] ∧ Unreserved value
  | .xmlPrefix, value => value ≠ [] ∧ Resolves value (CodePoint.ofText Namespace.xml)

namespace Attribute
variable {a : Attribute}

def role (a : Attribute) : AttributeRole :=
  if a.name = CodePoint.ofText "xmlns" then .defaultNamespace
  else if a.declaresPrefix then if localOf a.name = CodePoint.ofText "xml" then .xmlPrefix else .namespacePrefix
  else .plain

theorem role_of_name (hName : a.name = CodePoint.ofText "xmlns") :
    a.role = .defaultNamespace ∧ a.declaresPrefix = false := by
  refine ⟨if_pos hName, ?_⟩
  rw [declaresPrefix, hName]
  decide

theorem ne_of_declaresPrefix (hPrefix : a.declaresPrefix = true) : a.name ≠ CodePoint.ofText "xmlns" := by
  intro hName
  rw [(role_of_name hName).2] at hPrefix
  cases hPrefix

theorem role_of_declaresPrefix (hPrefix : a.declaresPrefix = true) :
    a.role = if localOf a.name = CodePoint.ofText "xml" then .xmlPrefix else .namespacePrefix := by
  rw [role, if_neg (ne_of_declaresPrefix hPrefix), if_pos hPrefix]

theorem role_of_plain (hPlain : declaresNamespace a.name = false) :
    a.role = .plain ∧ a.declaresPrefix = false := by
  rw [declaresNamespace, Bool.or_eq_false_iff, beq_eq_false_iff_ne] at hPlain
  have hPrefix : a.declaresPrefix = false := hPlain.2
  exact ⟨by rw [role, if_neg hPlain.1, hPrefix]; rfl, hPrefix⟩

theorem declaresNamespace_of_declaresPrefix (hPrefix : a.declaresPrefix = true) :
    declaresNamespace a.name = true := by
  rw [declaresNamespace, show (CodePoint.ofText "xmlns:").isPrefixOf a.name = true from hPrefix, Bool.or_true]

/-- Each attribute has one role. -/
theorem role_cases (a : Attribute) : declaresNamespace a.name = false ∨ a.name = CodePoint.ofText "xmlns" ∨
    a.declaresPrefix = true := by
  rw [declaresPrefix, ← Bool.not_eq_true, declaresNamespace, Bool.or_eq_true, beq_iff_eq]
  tauto

theorem declares_role : a.role.declares = declaresNamespace a.name := by
  rcases a.role_cases with hPlain | hName | hPrefix
  · rw [(role_of_plain hPlain).1, hPlain]
    rfl
  · rw [(role_of_name hName).1, hName]
    rfl
  · rw [role_of_declaresPrefix hPrefix, declaresNamespace_of_declaresPrefix hPrefix]
    split <;> rfl

theorem declaresWell_iff : a.DeclaresWell ↔
    (a.declaresPrefix = true → localOf a.name ≠ CodePoint.ofText "xmlns") ∧ Admits a.role a.binding.value := by
  rcases a.role_cases with hPlain | hName | hPrefix
  · obtain ⟨hRole, hNone⟩ := role_of_plain hPlain
    rw [hRole, hNone]
    refine iff_of_true ⟨?_, ?_, ?_, ?_⟩ ⟨nofun, trivial⟩ <;> simp [hNone, hPlain]
  · obtain ⟨hRole, hNone⟩ := role_of_name hName
    rw [hRole, hNone]
    have hDeclares : declaresNamespace a.name = true := by
      rw [hName]
      decide
    constructor
    · intro h
      exact ⟨nofun, h.unreserved hDeclares (by simp [hNone])⟩
    · rintro ⟨-, h⟩
      exact ⟨by simp [hNone], by simp [hNone], by simp [hNone], fun _ _ => h⟩
  · have hDeclares := declaresNamespace_of_declaresPrefix hPrefix
    rw [role_of_declaresPrefix hPrefix]
    by_cases hXml : localOf a.name = CodePoint.ofText "xml"
    · rw [if_pos hXml]
      constructor
      · exact fun h => ⟨h.notXmlns, h.nonempty hPrefix, h.xml hPrefix hXml⟩
      · rintro ⟨hName, hNonempty, hValue⟩
        exact ⟨hName, fun _ => hNonempty, fun _ _ => hValue, fun _ h => absurd ⟨hPrefix, hXml⟩ h⟩
    · rw [if_neg hXml]
      constructor
      · exact fun h => ⟨h.notXmlns, h.nonempty hPrefix, h.unreserved hDeclares fun hBoth => hXml hBoth.2⟩
      · rintro ⟨hName, hNonempty, hValue⟩
        exact ⟨hName, fun _ => hNonempty, fun _ h => absurd h hXml, fun _ _ => hValue⟩

/-- The letters before the last colon do not tell which prefix is declared. -/
theorem roleOf_eq {ch : CodePoint} (hLast : ch = CodePoint.equals ∨ CodePoint.isSpace ch = true) :
    Scan.roleOf a.name ch = if a.declaresPrefix = true then .namespacePrefix else a.role := by
  have hDeclared : Scan.declaredRole ch = .defaultNamespace := by
    rw [Scan.declaredRole, if_pos]
    rcases hLast with rfl | hSpace
    · rfl
    · rw [hSpace, Bool.or_true]
  have hLetters : CodePoint.ofText "xmlns:" <+: a.name ↔ a.declaresPrefix = true :=
    List.isPrefixOf_iff_prefix.symm
  rw [Scan.roleOf, hDeclared]
  simp only [hLetters]
  rcases a.role_cases with hPlain | hName | hPrefix
  · obtain ⟨hRole, hNone⟩ := role_of_plain hPlain
    have hOther : a.name ≠ CodePoint.ofText "xmlns" := by
      intro h
      rw [(role_of_name h).1] at hRole
      cases hRole
    simp [hRole, hNone, hOther]
  · obtain ⟨hRole, hNone⟩ := role_of_name hName
    simp [hRole, hNone, hName]
  · simp [hPrefix, ne_of_declaresPrefix hPrefix]

theorem role_ne_namespacePrefix (hPrefix : a.declaresPrefix ≠ true) : a.role ≠ .namespacePrefix := by
  rcases a.role_cases with hPlain | hName | hDeclares
  · rw [(role_of_plain hPlain).1]
    decide
  · rw [(role_of_name hName).1]
    decide
  · exact absurd hDeclares hPrefix

/-- A declaration of a prefix has a colon, and something before it. -/
theorem prefixOf_ne_nil (hPrefix : a.declaresPrefix = true) : prefixOf a.name ≠ [] := by
  obtain ⟨rest, hName⟩ := List.isPrefixOf_iff_prefix.mp hPrefix
  rw [← hName, show CodePoint.ofText "xmlns:" = [0x78, 0x6D, 0x6C, 0x6E, 0x73, CodePoint.colon] from rfl]
  simp [prefixOf]

end Attribute
end Grammar

namespace Namespace.Scopes

/-- What an attribute whose name stands at `place` tells the scopes, before its value is read. -/
def noted (e : Encoding) (place : Nat) (a : Attribute) (s : Scopes) : Scopes :=
  let name := Scan.nameAt e place a.name
  match a.role with
  | .namespacePrefix => s.declare (name.localSpan e.unitSize).offset (name.localSpan e.unitSize).length
  | .plain => if a.isQualified then s.addAttribute (name.toPrefixed e.unitSize) else s
  | .defaultNamespace | .xmlPrefix => s

def settled (e : Encoding) (place value : Nat) (a : Attribute) (s : Scopes) : Scopes :=
  if a.role = .namespacePrefix then (s.noted e place a).bind value (e.size a.binding.value)
  else s.noted e place a

end Namespace.Scopes

namespace Lex
variable {s : Lexer} {e : Encoding} {place : Nat} {own text : Chars} {a : Attribute}

theorem read_ask_of_ok {α : Type} {question : Cursor → Except Fault α} {answer : α}
    (hAnswer : question s.cursor = .ok answer) : read (Scan.ask question) s = .ok answer s := by
  unfold read Scan.ask
  rw [hAnswer]

theorem spells_of_covers {span : Span} (expected : String) (hCovers : s.cursor.Covers span text) :
    spells span expected s = .ok (decide (text = CodePoint.ofText expected)) s := by
  refine read_ask_of_ok ?_
  rw [show span.length = s.cursor.encoding.size text from hCovers.length_eq]
  exact Cursor.spells_of_readsAt hCovers.reads

section
variable (hOn : s.namespaces = true) (hEncoding : s.cursor.encoding = e)
include hOn

theorem namespacesOn_of_on : namespacesOn s = .ok true s :=
  hOn ▸ rfl

include hEncoding

theorem yields_checkElementPrefix (hReads : s.cursor.ReadsAt place own) :
    Yields (checkElementPrefix (Scan.nameAt e place own)) s (prefixOf own ≠ CodePoint.ofText "xmlns") () s := by
  subst hEncoding
  refine .of_ok (namespacesOn_of_on hOn) ?_
  rw [Bool.true_and]
  by_cases hPrefix : prefixOf own = []
  · rw [if_neg (by simp [Scan.nameAt, hPrefix])]
    refine yields_pure.congr (iff_of_true trivial ?_)
    rw [hPrefix]
    decide
  · have hSome : ((Scan.nameAt s.cursor.encoding place own).prefixLength != 0) = true :=
      bne_iff_ne.mpr (mt Encoding.size_eq_zero_iff.mp hPrefix)
    rw [if_pos hSome]
    refine .of_ok (spells_of_covers "xmlns" (Scan.covers_prefixOf hReads)) (yields_requireAt ?_)
    simp

theorem enterScope_of_on : enterScope (Scan.nameAt e place own) s = .ok () (s.withScopes (s.scopes.enter
    (s.openTags.length - 1)
    (if prefixOf own = [] then none else some ((Scan.nameAt e place own).toPrefixed e.unitSize)))) := by
  subst hEncoding
  have hUnit : unitSize s = .ok s.cursor.encoding.unitSize s := rfl
  rw [enterScope, bind_of_ok (namespacesOn_of_on hOn), if_pos rfl, bind_of_ok hUnit]
  simp only [update, Lexer.withScopes, Scan.nameAt, Encoding.size_eq_zero_iff]

theorem yields_settleRole {ch : CodePoint} (hReads : s.cursor.ReadsAt place a.name)
    (hLast : ch = CodePoint.equals ∨ CodePoint.isSpace ch = true) :
    Yields (settleRole (Scan.roleOf a.name ch) (Scan.nameAt e place a.name)) s
      (a.declaresPrefix = true → localOf a.name ≠ CodePoint.ofText "xmlns") a.role s := by
  subst hEncoding
  rw [Attribute.roleOf_eq hLast, settleRole]
  refine .of_ok (namespacesOn_of_on hOn) ?_
  rw [Bool.and_true]
  by_cases hPrefix : a.declaresPrefix = true
  · have hLocal := Scan.covers_localOf hReads (colon_mem_of_prefixOf (Attribute.prefixOf_ne_nil hPrefix))
    have hUnit : unitSize s = .ok s.cursor.encoding.unitSize s := rfl
    rw [if_pos hPrefix, if_pos (decide_eq_true rfl), Attribute.role_of_declaresPrefix hPrefix]
    refine .of_ok hUnit (.of_ok (spells_of_covers "xmlns" hLocal) ?_)
    have hSettles : Yields (do
        if ← spells ((Scan.nameAt s.cursor.encoding place a.name).localSpan s.cursor.encoding.unitSize) "xml" then
          return AttributeRole.xmlPrefix
        else return AttributeRole.namespacePrefix) s True
        (if localOf a.name = CodePoint.ofText "xml" then .xmlPrefix else .namespacePrefix) s := by
      refine .of_ok (spells_of_covers "xml" hLocal) ?_
      simp only [decide_eq_true_eq]
      split <;> exact yields_pure
    exact ((yields_requireAt (p := localOf a.name ≠ CodePoint.ofText "xmlns") (by simp)).bind hSettles).congr
      (by simp [hPrefix])
  · rw [if_neg hPrefix, if_neg (by simpa using Attribute.role_ne_namespacePrefix hPrefix)]
    exact yields_pure.congr (iff_of_true trivial fun h => absurd h hPrefix)

theorem noteAttribute_of_on (hReads : s.cursor.ReadsAt place a.name) :
    noteAttribute a.role (Scan.nameAt e place a.name) s = .ok () (s.withScopes (s.scopes.noted e place a)) := by
  subst hEncoding
  have hUnit : unitSize s = .ok s.cursor.encoding.unitSize s := rfl
  have hSome : ((Scan.nameAt s.cursor.encoding place a.name).prefixLength != 0) = true ↔ prefixOf a.name ≠ [] :=
    bne_iff_ne.trans (not_congr Encoding.size_eq_zero_iff)
  rw [noteAttribute, bind_of_ok (namespacesOn_of_on hOn), Bool.true_and, Namespace.Scopes.noted]
  rcases a.role_cases with hPlain | hName | hPrefix
  · rw [(Attribute.role_of_plain hPlain).1]
    by_cases hPrefix : prefixOf a.name = []
    · rw [if_neg (by simpa [hSome] using hPrefix), Attribute.isQualified, hPrefix, List.isEmpty_nil, Bool.not_true,
        Bool.and_false, Bool.false_and]
      rfl
    · have hSpells : spells (prefixSpan (Scan.nameAt s.cursor.encoding place a.name)) "xml" s =
          .ok (decide (prefixOf a.name = CodePoint.ofText "xml")) s :=
        spells_of_covers "xml" (Scan.covers_prefixOf hReads)
      rw [if_pos (hSome.mpr hPrefix), bind_of_ok hUnit, Attribute.isQualified_of_plain hPlain hPrefix]
      refine (bind_of_ok hSpells).trans ?_
      by_cases hXml : prefixOf a.name = CodePoint.ofText "xml"
      · rw [hXml]
        rfl
      · rw [decide_eq_false hXml]
        rfl
  · rw [(Attribute.role_of_name hName).1]
    split
    · rw [bind_of_ok hUnit]
      rfl
    · rfl
  · rw [if_pos (hSome.mpr (Attribute.prefixOf_ne_nil hPrefix)), bind_of_ok hUnit,
      Attribute.role_of_declaresPrefix hPrefix]
    by_cases hXml : localOf a.name = CodePoint.ofText "xml"
    · rw [if_pos hXml]
      rfl
    · rw [if_neg hXml]
      rfl

end

section
variable {value resolved : Chars}

theorem yields_checkReserved (hResolves : Resolves value resolved) :
    Yields (checkReserved place (if resolved = CodePoint.ofText Namespace.xml then .xml
      else if resolved = CodePoint.ofText Namespace.xmlns then .xmlns else .none)) s (Unreserved value) () s := by
  have hValue : ∀ text, Resolves value text ↔ resolved = text :=
    fun _ => ⟨hResolves.unique, fun h => h ▸ hResolves⟩
  simp only [Unreserved, hValue]
  refine yields_of_iff fun u t => ?_
  split
  · simp [checkReserved, throw_eq_ok_iff, *]
  · split
    · simp [checkReserved, throw_eq_ok_iff, *]
    · simp [checkReserved, pure_eq_ok_iff, *]

theorem yields_bindValue {role : AttributeRole} {span : Span} (hOn : s.namespaces = true)
    (hCovers : s.cursor.Covers span value) (hResolves : Resolves value resolved) :
    Yields (bindValue role span) s (Admits role value) () (s.withScopes
      (if role = .namespacePrefix then s.scopes.bind span.offset span.length else s.scopes)) := by
  have hNonempty : (span.length != 0) = true ↔ value ≠ [] := by
    rw [bne_iff_ne, hCovers.length_eq]
    exact not_congr Encoding.size_eq_zero_iff
  have hReserved : read (Scan.ask (Namespace.reserved span.offset span.length)) s =
      .ok (if resolved = CodePoint.ofText Namespace.xml then .xml
        else if resolved = CodePoint.ofText Namespace.xmlns then .xmlns else .none) s := by
    refine read_ask_of_ok ?_
    rw [hCovers.length_eq]
    exact Cursor.reserved_of_resolves hResolves hCovers.reads
  have hValue : Resolves value (CodePoint.ofText Namespace.xml) ↔ resolved = CodePoint.ofText Namespace.xml :=
    ⟨hResolves.unique, fun h => h ▸ hResolves⟩
  refine .of_ok (namespacesOn_of_on hOn) ?_
  rw [Bool.and_true]
  cases role with
  | plain => exact yields_pure
  | defaultNamespace =>
    refine ((yields_requireAt (p := True) (by simp)).bind (.of_ok hReserved (yields_checkReserved hResolves))).congr ?_
    exact and_iff_right trivial
  | namespacePrefix =>
    refine (yields_requireAt (p := value ≠ []) (by simpa using hNonempty)).bind (.of_ok hReserved ?_)
    exact .of_ok rfl (yields_checkReserved hResolves)
  | xmlPrefix =>
    refine (yields_requireAt (p := value ≠ []) (by simpa using hNonempty)).bind (.of_ok hReserved ?_)
    refine yields_requireAt ?_
    rw [hValue]
    by_cases hXml : resolved = CodePoint.ofText Namespace.xml
    · simp [hXml]
    · rw [if_neg hXml]
      split <;> simp [hXml]

end

section
variable {outer : List Environment} {scope : Environment} {element : Chars} {names : List Chars}

theorem yields_closeScope (hOn : s.namespaces = true)
    (hInside : s.scopes.Inside s.cursor outer scope element names) :
    Yields closeScope s (Closes scope element names) () (s.withScopes s.scopes.closed) := by
  have hClose : ∀ u scopes, Namespace.Scopes.close s.cursor s.scopes = .ok u scopes ↔ _ :=
    fun _ _ => hInside.close_eq_ok_iff
  refine yields_of_iff fun u t => ?_
  rw [closeScope, if_pos hOn]
  cases hResult : Namespace.Scopes.close s.cursor s.scopes with
  | ok v scopes =>
    obtain ⟨hQualified, rfl⟩ := (hClose v scopes).mp hResult
    rw [and_iff_right hQualified, EStateM.Result.ok.injEq, and_iff_right rfl, eq_comm]
    rfl
  | error fault scopes =>
    refine iff_of_false (fun h => by cases h) fun h => ?_
    have hOk := (hClose () _).mpr ⟨h.1, rfl⟩
    rw [hResult] at hOk
    cases hOk

end

section
variable {seen : List Chars} {first ch next : CodePoint}

theorem yields_readName (hOn : s.namespaces = true) (hSeen : s.Seen seen) (hNew : a.name ∉ seen)
    (hName : IsName a.name) (hFits : NameFits s.cursor.encoding a.name) (hFirst : s.cursor.Reads [first])
    (hStart : CodePoint.isNameStart first = true) (hReads : s.cursor.Reads (a.name ++ [ch]))
    (hEnd : CodePoint.isName ch = false) (hLast : ch = CodePoint.equals ∨ CodePoint.isSpace ch = true) :
    Yields (readName s.cursor.offset first) (s.past [first])
      (a.declaresPrefix = true → localOf a.name ≠ CodePoint.ofText "xmlns") (ch, a.role)
      (((s.named (attributeKind a.name) a.name).withScopes
        (s.scopes.noted s.cursor.encoding s.cursor.offset a)).past [ch]) := by
  have hText := (Cursor.reads_append.mp hReads).1
  have hEncoding : (s.past (a.name ++ [ch])).cursor.encoding = s.cursor.encoding := Cursor.encoding_advance
  have hThere : (s.past (a.name ++ [ch])).cursor.ReadsAt s.cursor.offset a.name := Cursor.readsAt_advance.mpr hText
  have hCovers : (s.past (a.name ++ [ch])).cursor.Covers
      (Scan.nameAt s.cursor.encoding s.cursor.offset a.name).span a.name :=
    (Scan.covers_nameAt hText).congr Cursor.doc_advance Cursor.stop_advance Cursor.encoding_advance
  obtain ⟨d, s₁, hRole, hRest⟩ := (read_attributeName_eq_ok_iff hFirst hStart).mpr
    ⟨a.name, hReads, hName, hEnd, rfl, rfl, rfl⟩
  have hKind : kindOf a.role = attributeKind a.name := by
    rw [kindOf, Attribute.declares_role]
    rfl
  have hState : (((s.past (a.name ++ [ch])).see (Scan.nameAt s.cursor.encoding s.cursor.offset a.name)).add
      [nameToken s.cursor.encoding (attributeKind a.name) s.depth s.cursor.offset a.name]).withScopes
        (s.scopes.noted s.cursor.encoding s.cursor.offset a) =
      ((s.named (attributeKind a.name) a.name).withScopes
        (s.scopes.noted s.cursor.encoding s.cursor.offset a)).past [ch] := by
    rw [Lexer.past_append]
    rfl
  rw [readName, ← hState]
  refine .of_ok hRole (.of_ok hRest (((yields_settleRole (s := s.past (a.name ++ [ch])) hOn hEncoding
    hThere hLast).bind ?_).congr (and_iff_left trivial)))
  refine .of_ok ((addAttribute_eq_ok_iff (u := ()) hSeen.past hCovers hName.ne_nil).mpr ⟨hNew, rfl⟩) ?_
  rw [hKind]
  refine .of_ok ((emitName_eq_ok_iff (s := (s.past (a.name ++ [ch])).see _) (u := ()) hEncoding).mpr ⟨hFits, rfl⟩) ?_
  exact .of_ok (noteAttribute_of_on (s := ((s.past (a.name ++ [ch])).see _).add _) hOn hEncoding hThere) yields_pure

/-- The span of a value that has been read. -/
theorem exists_covers_of_attributeValue {s s' : Lexer} {ch : CodePoint} {value : Span}
    (hOk : attributeValue ch s = .ok value s') :
    ∃ text resolved, s'.cursor.Covers value text ∧ Resolves text resolved := by
  simp only [attributeValue, bind_eq_ok_iff, read_offset_eq_ok_iff, read_last_eq_ok_iff, pure_eq_ok_iff] at hOk
  obtain ⟨quote, _, hOpen, _, s₁, ⟨rfl, rfl⟩, _, _, hRead, _, _, ⟨rfl, rfl⟩, rfl, rfl⟩ := hOk
  have hQuote : quote = CodePoint.doubleQuote ∨ quote = CodePoint.singleQuote := by
    obtain ⟨_, hOpen, -⟩ := read_eq_ok_iff.mp hOpen
    simp only [Scan.openAttribute, Scan.bind_eq_ok_iff, Scan.require_eq_ok_iff, pure_eq_ok_iff] at hOpen
    obtain ⟨_, _, -, _, _, -, _, _, -, _, _, ⟨hQuote, -⟩, rfl, -⟩ := hOpen
    simpa using hQuote
  obtain ⟨text, hReads, hValue, rfl⟩ := (read_attributeValue_eq_ok_iff hQuote).mp hRead
  obtain ⟨resolved, hResolves⟩ := exists_resolves_of_isValueChar hValue
  refine ⟨text, resolved, ⟨?_, ?_⟩, hResolves⟩
  · rw [Lexer.cursor_past]
    exact (Cursor.readsAt_congr Cursor.doc_advance Cursor.stop_advance Cursor.encoding_advance).mpr
      (Cursor.reads_append.mp hReads).1
  · rw [Lexer.cursor_past, Cursor.last_advance_append, Nat.add_sub_cancel_left, Cursor.encoding_advance]

theorem yields_readValue (hOn : s.namespaces = true) (hWell : a.binding.WellFormed)
    (hValue : Escaped (isValueChar a.binding.quote) a.binding.value)
    (hFits : TextFits s.cursor.encoding a.binding.value) (hFirst : s.cursor.Reads [ch])
    (hReads : s.cursor.Reads (a.binding.text ++ [next])) :
    Yields (readValue a.role ch) (s.past [ch]) (Admits a.role a.binding.value) next
      (((s.valued a.binding).withScopes (if a.role = .namespacePrefix then
        s.scopes.bind (s.cursor.offset + s.cursor.encoding.size a.binding.lead)
          (s.cursor.encoding.size a.binding.value) else s.scopes)).past [next]) := by
  obtain ⟨resolved, hResolves⟩ := exists_resolves_of_isValueChar hValue
  obtain ⟨hText, hNext⟩ := Cursor.reads_append.mp hReads
  have hEncoding : (s.past a.binding.text).cursor.encoding = s.cursor.encoding := Cursor.encoding_advance
  have hCovers : (s.past a.binding.text).cursor.Covers ⟨s.cursor.offset + s.cursor.encoding.size a.binding.lead,
      s.cursor.encoding.size a.binding.value⟩ a.binding.value := by
    refine ⟨Cursor.readsAt_advance.mpr ?_, congrArg (Encoding.size · _) hEncoding.symm⟩
    exact (Cursor.readsAt_append.mp (Cursor.readsAt_append.mp hText).2).1
  rw [readValue]
  refine .of_ok ((attributeValue_eq_ok_iff hFirst).mpr ⟨a.binding, hWell, hValue, hText, rfl, rfl⟩) ?_
  refine ((yields_bindValue (s := s.past a.binding.text) hOn hCovers hResolves).bind ?_).congr (and_iff_left trivial)
  refine .of_ok ((emitBounded_eq_ok_iff (u := ())).mpr ⟨?_, rfl⟩) (yields_of_ok (read_next_eq_ok_iff.mpr ⟨hNext, ?_⟩))
  · change s.cursor.encoding.size a.binding.value / (s.past a.binding.text).cursor.encoding.unitSize ≤ _
    rw [hEncoding]
    exact hFits
  · rw [Lexer.valued, ← hEncoding]
    rfl

def readWhole (place : Nat) (first : CodePoint) : Lex CodePoint := do
  let (ch, role) ← readName place first
  readValue role ch

theorem readAttribute_eq_readWhole {place : Nat} : readAttribute place first = readWhole place first >>= tagRest := by
  rw [readAttribute_eq, readWhole, bind_assoc]

def afterAttribute (s : Lexer) (a : Attribute) : Lexer :=
  (pastAttribute s a.name a.binding).withScopes (s.scopes.settled s.cursor.encoding s.cursor.offset
    (s.cursor.offset + s.cursor.encoding.size (a.name ++ a.binding.lead)) a)

theorem yields_readWhole (hOn : s.namespaces = true) (hSeen : s.Seen seen) (hNew : a.name ∉ seen)
    (hWell : a.WellFormed) (hFits : a.Fits s.cursor.encoding) (hFirst : s.cursor.Reads [first])
    (hStart : CodePoint.isNameStart first = true) (hReads : s.cursor.Reads (a.name ++ (a.binding.text ++ [next]))) :
    Yields (readWhole s.cursor.offset first) (s.past [first]) a.DeclaresWell next
      ((afterAttribute s a).past [next]) := by
  obtain ⟨ch, rest, hHead, hEnd, hLast⟩ := exists_text_eq_cons hWell.binding
  obtain ⟨hName, hBinding⟩ := Cursor.reads_append.mp hReads
  have hCh : (s.cursor.advance a.name).Reads [ch] := by
    rw [hHead, List.cons_append, Cursor.reads_cons] at hBinding
    exact hBinding.1
  have hEncoding : (s.cursor.advance a.name).encoding = s.cursor.encoding := Cursor.encoding_advance
  have hScopes : s.scopes.settled s.cursor.encoding s.cursor.offset
      (s.cursor.offset + s.cursor.encoding.size (a.name ++ a.binding.lead)) a =
      if a.role = .namespacePrefix then (s.scopes.noted s.cursor.encoding s.cursor.offset a).bind
        ((s.cursor.advance a.name).offset + (s.cursor.advance a.name).encoding.size a.binding.lead)
        ((s.cursor.advance a.name).encoding.size a.binding.value)
      else s.scopes.noted s.cursor.encoding s.cursor.offset a := by
    rw [Namespace.Scopes.settled, Cursor.offset_advance, hEncoding, Encoding.size_append, Nat.add_assoc]
  have hReadName := yields_readName hOn hSeen hNew hWell.name hFits.name hFirst hStart
    (Cursor.reads_append.mpr ⟨hName, hCh⟩) hEnd hLast
  have hFitsThere : TextFits (s.cursor.advance a.name).encoding a.binding.value := by
    rw [hEncoding]
    exact hFits.value
  have hReadValue := yields_readValue (s := (s.named (attributeKind a.name) a.name).withScopes
    (s.scopes.noted s.cursor.encoding s.cursor.offset a)) hOn hWell.binding hWell.value hFitsThere hCh hBinding
  rw [Lexer.valued_withScopes] at hReadValue
  rw [afterAttribute, hScopes]
  exact (hReadName.bind hReadValue).congr Attribute.declaresWell_iff.symm

end

end Lex

namespace Namespace.Scopes
variable {c : Cursor} {s : Scopes} {outer : List Environment} {scope : Environment} {element : Chars}
  {names : List Chars} {a : Attribute} {place value : Nat}

/-- What an attribute does to the scopes: it is kept until it can be qualified, or does nothing, or declares what it
binds. -/
theorem settled_cases (s : Scopes) (e : Encoding) (place value : Nat) (a : Attribute) :
    (a.isQualified = true ∧ prefixOf a.name ≠ [] ∧ a.bound? = none ∧
      s.settled e place value a = s.addAttribute ((Scan.nameAt e place a.name).toPrefixed e.unitSize)) ∨
    (a.isQualified = false ∧ a.bound? = none ∧ s.settled e place value a = s) ∨
    (a.isQualified = false ∧ prefixOf a.name ≠ [] ∧ a.bound? = some (localOf a.name, a.binding.value) ∧
      s.settled e place value a =
        { s with
          pending := none
          inForce := ⟨((Scan.nameAt e place a.name).localSpan e.unitSize).offset,
            ((Scan.nameAt e place a.name).localSpan e.unitSize).length, value, e.size a.binding.value⟩ :: s.inForce }) := by
  rw [Attribute.bound?, Scopes.settled, noted]
  rcases a.role_cases with hPlain | hDefault | hPrefix
  · obtain ⟨hRole, hNone⟩ := Attribute.role_of_plain hPlain
    by_cases hQualified : a.isQualified = true
    · have hLead : prefixOf a.name ≠ [] := fun h => by simp [Attribute.isQualified, h] at hQualified
      exact .inl ⟨hQualified, hLead, by simp [hNone], by simp [hRole, hQualified]⟩
    · exact .inr (.inl ⟨by simpa using hQualified, by simp [hNone], by simp [hRole, hQualified]⟩)
  · obtain ⟨hRole, hNone⟩ := Attribute.role_of_name hDefault
    have hDeclares : declaresNamespace a.name = true := by
      rw [hDefault]
      decide
    exact .inr (.inl ⟨by simp [Attribute.isQualified, hDeclares], by simp [hNone], by simp [hRole]⟩)
  · have hOther : a.isQualified = false := by
      simp [Attribute.isQualified, Attribute.declaresNamespace_of_declaresPrefix hPrefix]
    rw [Attribute.role_of_declaresPrefix hPrefix, hPrefix]
    by_cases hXml : localOf a.name = CodePoint.ofText "xml"
    · exact .inr (.inl ⟨hOther, by simp [hXml], by simp [hXml]⟩)
    · refine .inr (.inr ⟨hOther, Attribute.prefixOf_ne_nil hPrefix, by simp [hXml], ?_⟩)
      rw [if_neg hXml]
      rfl

section
variable (hName : c.ReadsAt place a.name) (hValue : c.ReadsAt value a.binding.value)
  (hResolves : ∃ resolved, Resolves a.binding.value resolved)
include hName hValue hResolves

/-- The declarations that an attribute puts in force bind what it binds. -/
theorem exists_binds_settled (s : Scopes) : ∃ added, (s.settled c.encoding place value a).inForce = added ++ s.inForce ∧
    List.Forall₂ c.Binds added a.bound?.toList := by
  obtain ⟨-, -, hNone, hSettled⟩ | ⟨-, hNone, hSettled⟩ | ⟨-, hLead, hSome, hSettled⟩ :=
    settled_cases s c.encoding place value a
  · rw [hSettled, hNone]
    exact ⟨[], rfl, .nil⟩
  · rw [hSettled, hNone]
    exact ⟨[], rfl, .nil⟩
  · rw [hSettled, hSome]
    exact ⟨[_], rfl, .cons ⟨Scan.covers_localOf hName (colon_mem_of_prefixOf hLead), ⟨hValue, rfl⟩, hResolves⟩ .nil⟩

theorem Inside.settled (hInside : Inside c s outer scope element names) :
    Inside c (s.settled c.encoding place value a) outer (a.bound?.toList ++ scope) element
      (names ++ if a.isQualified then [a.name] else []) := by
  have hInForce : List.Forall₂ c.Binds (s.settled c.encoding place value a).inForce (a.bound?.toList ++ scope) := by
    obtain ⟨added, hAdded, hBinds⟩ := exists_binds_settled hName hValue hResolves s
    exact hAdded ▸ List.rel_append hBinds hInside.inForce
  obtain ⟨hQualified, hLead, -, hSettled⟩ | ⟨hOther, -, hSettled⟩ | ⟨hOther, -, -, hSettled⟩ :=
    settled_cases s c.encoding place value a
  · rw [hSettled] at hInForce ⊢
    refine ⟨hInside.opened, hInForce, ?_, hInside.element⟩
    rw [addAttribute, Array.toList_push, if_pos hQualified]
    exact List.rel_append hInside.attributes (.cons (Scan.names_toPrefixed hName (colon_mem_of_prefixOf hLead)) .nil)
  all_goals
    rw [hSettled] at hInForce ⊢
    refine ⟨hInside.opened, hInForce, ?_, hInside.element⟩
    rw [hOther, if_neg Bool.false_ne_true, List.append_nil]
    exact hInside.attributes

end

end Namespace.Scopes
end XmlIndex
