import XmlIndex.Proofs.Lexer.Qualifying

/-! # Tags in their environments

A tree that is well-formed is read with namespaces. All that can go wrong are its tags, so whether the
lexer succeeds from the beginning of a part on hinges on whether the tags of the part are qualified, and on
what comes after it. The environments are those that pass down the tree.
-/
namespace XmlIndex
set_option autoImplicit false
open Grammar XmlIndex.Lex

namespace Lex
variable {α : Type} {s s' : Lexer} {p q : Prop}

def Succeeds (action : Lex Unit) (s : Lexer) : Prop :=
  ∃ r, Completes action s r

section
variable {action : Lex α} {next : α → Lex Unit} {a : α}

theorem succeeds_of_ok (hOk : action s = .ok a s') : Succeeds (action >>= next) s ↔ Succeeds (next a) s' :=
  exists_congr fun _ => completes_of_ok hOk

theorem Yields.succeeds (hYields : Yields action s p a s') :
    Succeeds (action >>= next) s ↔ p ∧ Succeeds (next a) s' := by
  constructor
  · rintro ⟨r, hCompletes⟩
    obtain ⟨b, t, hOk, hRest⟩ := completes_bind.mp hCompletes
    obtain ⟨hp, rfl, rfl⟩ := (hYields b t).mp hOk
    exact ⟨hp, r, hRest⟩
  · rintro ⟨hp, r, hRest⟩
    exact ⟨r, completes_bind.mpr ⟨a, s', (hYields a s').mpr ⟨hp, rfl, rfl⟩, hRest⟩⟩

theorem succeeds_run {phase : Phase} {action : Lex Phase} (hStep : step phase = some <$> action) :
    Succeeds (run phase) s ↔ Succeeds (action >>= run) s :=
  exists_congr fun _ => completes_run hStep

end

/-- Wherever it is begun, `text` having been read, the action succeeds just if `p`. -/
def Hinges (place : Lexer → Prop) (text : Chars) (action : Lex Unit) (p : Prop) : Prop :=
  ∀ s, place s → (Succeeds action (s.past text) ↔ p)

end Lex

namespace Namespace.Scopes
variable {c : Cursor} {s : Scopes} {outer : List Environment} {scope : Environment} {element : Chars}
  {names : List Chars} {text : Chars}

theorem forall_binds_advance {declarations : List Declaration} (hBinds : List.Forall₂ c.Binds declarations scope) :
    List.Forall₂ (c.advance text).Binds declarations scope :=
  hBinds.imp fun _ _ h => h.congr Cursor.doc_advance Cursor.stop_advance Cursor.encoding_advance

theorem Between.advance (hBetween : Between c s outer) : Between (c.advance text) s outer := by
  obtain ⟨left, kept, hOpened, hKept, hInForce⟩ := hBetween
  exact ⟨left, kept, hOpened, hKept.imp fun _ _ => forall_binds_advance, hInForce⟩

theorem Inside.advance (hInside : Inside c s outer scope element names) :
    Inside (c.advance text) s outer scope element names := by
  have hNames : ∀ {n name}, c.Names n name → (c.advance text).Names n name :=
    fun h => h.congr Cursor.doc_advance Cursor.stop_advance Cursor.encoding_advance
  refine ⟨hInside.opened.imp fun _ _ => forall_binds_advance, forall_binds_advance hInside.inForce,
    hInside.attributes.imp fun _ _ => hNames, ?_⟩
  have hElement := hInside.element
  split at hElement
  · rwa [if_pos ‹_›]
  · obtain ⟨n, hSome, hName⟩ := hElement
    rw [if_neg ‹_›]
    exact ⟨n, hSome, hNames hName⟩

end Namespace.Scopes

namespace Lexer
variable {c : Cursor} {s : Lexer} {names pending : List Chars} {outer : List Environment} {scope : Environment}
  {name text : Chars}

structure Within (c : Cursor) (names : List Chars) (outer : List Environment) (s : Lexer) : Prop where
  cursor : s.cursor = c
  on : s.namespaces = true
  opened : s.Opened names
  scopes : s.scopes.Between c outer
  length : outer.length = names.length

/-- Inside the start tag of the element `name`, whose attributes have made the environment `scope` so far
and have the names `pending` to be qualified. -/
structure InTag (c : Cursor) (name : Chars) (names : List Chars) (outer : List Environment) (scope : Environment)
    (pending : List Chars) (s : Lexer) : Prop where
  cursor : s.cursor = c
  on : s.namespaces = true
  opened : s.Opened (name :: names)
  scopes : s.scopes.Inside c outer scope name pending
  length : outer.length = names.length

theorem Opened.isEmpty_eq (hOpened : s.Opened names) : s.openTags.isEmpty = names.isEmpty := by
  rw [Bool.eq_iff_iff, List.isEmpty_iff_length_eq_zero, List.isEmpty_iff_length_eq_zero, hOpened.length_eq]

theorem Within.past (hWithin : Within c names outer s) : Within (c.advance text) names outer (s.past text) :=
  ⟨congrArg (Cursor.advance · text) hWithin.cursor, hWithin.on, hWithin.opened.past, hWithin.scopes.advance,
    hWithin.length⟩

theorem InTag.past (hInTag : InTag c name names outer scope pending s) :
    InTag (c.advance text) name names outer scope pending (s.past text) :=
  ⟨congrArg (Cursor.advance · text) hInTag.cursor, hInTag.on, hInTag.opened.past, hInTag.scopes.advance,
    hInTag.length⟩

end Lexer

namespace Lex
open Lexer
variable {s : Lexer} {c : Cursor} {names pending seen : List Chars} {outer : List Environment} {scope : Environment}
  {name space : Chars} {p : Prop} {first last : CodePoint}

theorem succeeds_tagRest (hFirst : s.cursor.Reads [first]) (hReads : s.cursor.Reads (space ++ [last]))
    (hSpace : IsSpace space) (hLast : CodePoint.isSpace last = false) :
    Succeeds (tagRest first >>= run) (s.past [first]) ↔
      Succeeds (tagGoesOn (!space.isEmpty) last >>= run) (s.past (space ++ [last])) := by
  have hSkip : read (Scan.skipSpace first) (s.past [first]) = .ok last (s.past (space ++ [last])) :=
    read_eq_ok_iff.mpr ⟨_, (Scan.skipSpace_eq_ok_iff hFirst).mpr ⟨space, hReads, hSpace, hLast, rfl⟩, rfl⟩
  have hSpaced : CodePoint.isSpace first = !space.isEmpty := by
    cases space with
    | nil =>
      obtain rfl := hFirst.head_eq hReads
      exact hLast
    | cons ch space =>
      obtain rfl := hFirst.head_eq hReads
      exact hSpace _ List.mem_cons_self
  rw [show tagRest first = read (Scan.skipSpace first) >>= tagGoesOn (CodePoint.isSpace first) from rfl, hSpaced,
    bind_assoc]
  exact succeeds_of_ok hSkip

/-- With namespaces on, and after attributes of other names, reading the attribute puts in force a declaration of what it
binds, if it binds anything, and no other. -/
def Declares (e : Encoding) (a : Attribute) : Prop :=
  ∀ ⦃s : Lexer⦄ ⦃seen : List Chars⦄ ⦃first next : CodePoint⦄, s.namespaces = true → s.cursor.encoding = e → s.Seen seen →
    a.name ∉ seen → s.cursor.Reads [first] → s.cursor.Reads (a.name ++ (a.binding.text ++ [next])) →
    ∃ s' added, readAttribute s.cursor.offset first (s.past [first]) = tagRest next s' ∧
      s'.cursor = s.cursor.advance (a.name ++ (a.binding.text ++ [next])) ∧
      s'.scopes.inForce = added ++ s.scopes.inForce ∧ List.Forall₂ s'.cursor.Binds added a.bound?.toList

section
variable {a : Attribute}

theorem readsAt_value (hReads : s.cursor.Reads (a.name ++ a.binding.text)) :
    s.cursor.ReadsAt (s.cursor.offset + s.cursor.encoding.size (a.name ++ a.binding.lead)) a.binding.value := by
  rw [Encoding.size_append, ← Nat.add_assoc]
  have hThere := (Cursor.readsAt_append.mp (Cursor.readsAt_append.mp hReads).2).2
  exact (Cursor.readsAt_append.mp hThere).1

theorem declares_of_declaresWell (hWell : a.WellFormed) {e : Encoding} (hFits : a.Fits e) (hDeclares : a.DeclaresWell) :
    Declares e a := by
  rintro s seen first next hOn rfl hSeen hNew hFirst hReads
  have hStart : CodePoint.isNameStart first = true := by
    obtain ⟨ch, own, hName⟩ := List.exists_cons_of_ne_nil hWell.name.ne_nil
    have hIsName := hWell.name
    rw [hName] at hReads hIsName
    exact hFirst.head_eq hReads ▸ hIsName.1
  have hWhole := (yields_readWhole hOn hSeen hNew hWell hFits hFirst hStart hReads next _).mpr ⟨hDeclares, rfl, rfl⟩
  rw [← List.append_assoc, Cursor.reads_append] at hReads
  obtain ⟨added, hAdded, hBinds⟩ := Namespace.Scopes.exists_binds_settled (Cursor.reads_append.mp hReads.1).1
    (readsAt_value hReads.1) (exists_resolves_of_isValueChar hWell.value) s.scopes
  have hCursor : ((afterAttribute s a).past [next]).cursor = s.cursor.advance (a.name ++ (a.binding.text ++ [next])) := by
    rw [← List.append_assoc, Cursor.advance_append]
    exact congrArg (Cursor.advance · [next]) cursor_pastAttribute
  refine ⟨(afterAttribute s a).past [next], added, ?_, hCursor, hAdded, ?_⟩
  · rw [readAttribute_eq_readWhole, bind_of_ok hWhole]
  · rw [hCursor]
    exact Namespace.Scopes.forall_binds_advance hBinds

theorem inTag_afterAttribute (hInTag : InTag c name names outer scope pending s) (hWell : a.WellFormed)
    (hReads : c.Reads (a.name ++ a.binding.text)) :
    InTag (c.advance (a.name ++ a.binding.text)) name names outer (a.bound?.toList ++ scope)
      (pending ++ if a.isQualified then [a.name] else []) (afterAttribute s a) := by
  obtain ⟨rfl, hOn, hOpened, hScopes, hLength⟩ := hInTag
  exact ⟨cursor_pastAttribute, hOn, opened_pastAttribute hOpened,
    (hScopes.settled (Cursor.reads_append.mp hReads).1 (readsAt_value hReads)
      (exists_resolves_of_isValueChar hWell.value)).advance, hLength⟩

end

theorem seen_afterAttribute {a : Attribute} (hSeen : s.Seen seen) (hReads : s.cursor.Reads a.name) :
    (afterAttribute s a).Seen (a.name :: seen) :=
  seen_pastAttribute hSeen hReads

/-- A tag goes on with an attribute just if that declares what it may. -/
theorem succeeds_attribute {a : Attribute} {next : CodePoint} (hOn : s.namespaces = true) (hSeen : s.Seen seen)
    (hNew : a.name ∉ seen) (hWell : a.WellFormed) (hFits : a.Fits s.cursor.encoding) (hFirst : s.cursor.Reads [first])
    (hReads : s.cursor.Reads (a.text ++ [next])) : Succeeds (tagRest first >>= run) (s.past [first]) ↔
      a.DeclaresWell ∧ Succeeds (tagRest next >>= run) ((afterAttribute (s.past a.space) a).past [next]) := by
  obtain ⟨ch, own, hName⟩ := List.exists_cons_of_ne_nil hWell.name.ne_nil
  have hStart : CodePoint.isNameStart ch = true := by
    have hIsName := hWell.name
    rw [hName] at hIsName
    exact hIsName.1
  rw [Attribute.text, List.append_assoc, List.append_assoc, Cursor.reads_append] at hReads
  obtain ⟨hSpace, hRest⟩ := hReads
  have hCh : (s.past a.space).cursor.Reads [ch] := by
    rw [hName, List.cons_append, Cursor.reads_cons] at hRest
    exact hRest.1
  have hFitsThere : a.Fits (s.past a.space).cursor.encoding := by
    rw [Lexer.cursor_past, Cursor.encoding_advance]
    exact hFits
  have hSpaced : (!a.space.isEmpty && CodePoint.isNameStart ch) = true := by
    rw [hStart, Bool.and_true, Bool.not_eq_true', List.isEmpty_eq_false_iff]
    exact hWell.nonempty
  have hPlace : read Scan.last ((s.past a.space).past [ch]) =
      .ok (s.past a.space).cursor.offset ((s.past a.space).past [ch]) := rfl
  rw [succeeds_tagRest hFirst (Cursor.reads_append.mpr ⟨hSpace, hCh⟩) hWell.space (isSpace_of_isNameStart hStart),
    tagGoesOn, if_pos hSpaced, Lexer.past_append, bind_assoc, succeeds_of_ok hPlace, pure_bind,
    succeeds_run rfl, readAttribute_eq_readWhole, bind_assoc]
  exact (yields_readWhole (s := s.past a.space) hOn hSeen.past hNew hWell hFitsThere hCh hStart hRest).succeeds

/-- What a tag declares is in force from then on, and matters when the tag ends. -/
theorem hinges_tagRest {attributes : List Attribute} (hWell : ∀ a ∈ attributes, a.WellFormed)
    (hFits : ∀ a ∈ attributes, a.Fits c.encoding) (hNodup : (attributes.map Attribute.name).Nodup)
    (hNew : ∀ a ∈ attributes, a.name ∉ seen) (hSpace : IsSpace space) (hLast : CodePoint.isSpace last = false)
    (hOther : CodePoint.isNameStart last = false)
    (hReads : c.Reads (Tag.attributeText attributes ++ (space ++ [last]))) (hFirst : c.Reads [first])
    (hEnd : Hinges (InTag (c.advance (Tag.attributeText attributes ++ space)) name names outer
        ((attributes.filterMap Attribute.bound?).reverse ++ scope)
        (pending ++ (attributes.filter Attribute.isQualified).map Attribute.name))
      [last] (tagEnd last >>= run) p) :
    Hinges (fun s => InTag c name names outer scope pending s ∧ s.Seen seen) [first] (tagRest first >>= run)
      ((∀ a ∈ attributes, a.DeclaresWell) ∧ p) := by
  rintro s ⟨hInTag, hSeen⟩
  induction attributes generalizing s c first scope pending seen with
  | nil =>
    obtain rfl := hInTag.cursor
    have hGoesOn : tagGoesOn (!space.isEmpty) last = tagEnd last := by
      rw [tagGoesOn, hOther, Bool.and_false]
      rfl
    have hAgain := hEnd (s.past space) (by simpa [Tag.attributeText] using hInTag.past)
    rw [succeeds_tagRest hFirst hReads hSpace hLast, hGoesOn, Lexer.past_append, hAgain]
    simp
  | cons a rest ih =>
    rw [List.forall_mem_cons] at hWell hFits hNew
    rw [List.map_cons, List.nodup_cons] at hNodup
    obtain ⟨next, others, hNext⟩ : ∃ next others, Tag.attributeText rest ++ (space ++ [last]) = next :: others :=
      List.exists_cons_of_ne_nil (by simp)
    have hText : Tag.attributeText (a :: rest) = a.text ++ Tag.attributeText rest := List.flatMap_cons
    rw [hText, List.append_assoc, Cursor.reads_append] at hReads
    have hHead : (c.advance a.text).Reads [next] := (Cursor.reads_cons.mp (hNext ▸ hReads.2)).1
    obtain rfl := hInTag.cursor
    rw [succeeds_attribute hInTag.on hSeen hNew.1 hWell.1 hFits.1 hFirst (Cursor.reads_append.mpr ⟨hReads.1, hHead⟩),
      List.forall_mem_cons, and_assoc]
    refine and_congr_right fun _ => ?_
    have hOwn : (s.cursor.advance a.space).Reads (a.name ++ a.binding.text) := (Cursor.reads_append.mp hReads.1).2
    have hAdvance : (s.cursor.advance a.space).advance (a.name ++ a.binding.text) = s.cursor.advance a.text :=
      Cursor.advance_append.symm
    have hThere := inTag_afterAttribute hInTag.past hWell.1 hOwn
    rw [hAdvance] at hThere
    refine ih (c := s.cursor.advance a.text) hWell.2 ?_ hNodup.2 ?_ hReads.2 hHead ?_ _ hThere
      (seen_afterAttribute hSeen.past (Cursor.reads_append.mp hOwn).1)
    · rw [Cursor.encoding_advance]
      exact hFits.2
    · intro b hb
      rw [List.mem_cons, not_or]
      exact ⟨fun h => hNodup.1 (h ▸ List.mem_map_of_mem hb), hNew.2 b hb⟩
    · rw [hText, List.append_assoc, Cursor.advance_append] at hEnd
      rwa [Attribute.declared_cons, Attribute.qualifiedNames_cons] at hEnd

def entered (s : Lexer) (name : Chars) : Lexer :=
  (s.opened name).withScopes (s.scopes.enter s.openTags.length (if prefixOf name = [] then none
    else some ((Scan.nameAt s.cursor.encoding s.cursor.offset name).toPrefixed s.cursor.encoding.unitSize)))

theorem succeeds_startTag {ch : CodePoint} (hOn : s.namespaces = true) (hName : IsName name)
    (hFits : NameFits s.cursor.encoding name) (hDepth : s.openTags.length ≤ Token.maxDepth)
    (hFirst : s.cursor.Reads [first]) (hStart : CodePoint.isNameStart first = true)
    (hReads : s.cursor.Reads (name ++ [ch])) (hEnd : CodePoint.isName ch = false) :
    Succeeds (startTag s.cursor.offset >>= run) (s.past [first]) ↔
      prefixOf name ≠ CodePoint.ofText "xmlns" ∧ Succeeds (tagRest ch >>= run) ((entered s name).past [ch]) := by
  have hEncoding : (s.past (name ++ [ch])).cursor.encoding = s.cursor.encoding := Cursor.encoding_advance
  have hThere : (s.past (name ++ [ch])).cursor.ReadsAt s.cursor.offset name :=
    Cursor.readsAt_advance.mpr (Cursor.reads_append.mp hReads).1
  have hRest := (read_nameRest_eq_ok_iff hFirst hStart).mpr ⟨name, hReads, hName, hEnd, rfl, rfl⟩
  have hPrefix := yields_checkElementPrefix (s := s.past (name ++ [ch])) hOn hEncoding hThere
  have hOpen : openElement (Scan.nameAt s.cursor.encoding s.cursor.offset name) (s.past (name ++ [ch])) =
      .ok () ((s.past (name ++ [ch])).push (Scan.nameAt s.cursor.encoding s.cursor.offset name)) :=
    openElement_eq_ok_iff.mpr ⟨hDepth, rfl⟩
  have hEmit : emitElement (Scan.nameAt s.cursor.encoding s.cursor.offset name)
      ((s.past (name ++ [ch])).push (Scan.nameAt s.cursor.encoding s.cursor.offset name)) =
        .ok () ((s.opened name).past [ch]) := by
    have hOpened : (s.opened name).past [ch] =
        ((s.past (name ++ [ch])).push (Scan.nameAt s.cursor.encoding s.cursor.offset name)).addElement
          s.cursor.encoding s.openTags.length s.cursor.offset name := by
      rw [Lexer.past_append]
      rfl
    have hDepthThere : ((s.past (name ++ [ch])).push (Scan.nameAt s.cursor.encoding s.cursor.offset name)).depth =
        s.openTags.length := Lexer.depth_push
    rw [hOpened]
    refine (emitElement_eq_ok_iff ?_ hDepthThere).mpr ⟨hFits, rfl⟩
    exact hEncoding
  have hEnter : enterScope (Scan.nameAt s.cursor.encoding s.cursor.offset name) ((s.opened name).past [ch]) =
      .ok () ((entered s name).past [ch]) := enterScope_of_on hOn (Cursor.encoding_advance.trans Cursor.encoding_advance)
  rw [startTag, bind_assoc, succeeds_of_ok hRest, bind_assoc, hPrefix.succeeds, bind_assoc,
    succeeds_of_ok hOpen, bind_assoc, succeeds_of_ok hEmit, bind_assoc, succeeds_of_ok hEnter]

theorem inTag_entered (hWithin : Within c names outer s) (hReads : c.Reads name) :
    InTag (c.advance name) name names outer (outer.headD []) [] (entered s name) := by
  obtain ⟨rfl, hOn, hOpened, hScopes, hLength⟩ := hWithin
  refine ⟨rfl, hOn, opened_opened hOpened hReads, ?_, hLength⟩
  have hDepth : s.openTags.length = outer.length := by rw [hOpened.length_eq, hLength]
  rw [entered, hDepth]
  refine (hScopes.enter ?_).advance
  split
  · rfl
  · exact ⟨_, rfl, Scan.names_toPrefixed hReads (colon_mem_of_prefixOf ‹_›)⟩

def leaving (names : List Chars) (more : Lex Phase) : Lex Phase :=
  if names.isEmpty then pure .epilog else more

theorem succeeds_closeTag {opened : Bool} {within : List Chars} (hOn : s.namespaces = true)
    (hInside : s.scopes.Inside s.cursor outer scope name pending) (hOpened : s.Opened within) :
    Succeeds (closeTag CodePoint.greaterThan opened >>= run) s ↔ Closes scope name pending ∧
      Succeeds (leaving within (content opened) >>= run) (s.withScopes s.scopes.closed) := by
  have hBracket : require (CodePoint.greaterThan = CodePoint.greaterThan) (.invalidCharacter .startTag) s = .ok () s :=
    rfl
  have hOutside : outsideRoot (s.withScopes s.scopes.closed) =
      .ok within.isEmpty (s.withScopes s.scopes.closed) := by
    rw [← hOpened.isEmpty_eq]
    rfl
  rw [closeTag, bind_assoc, succeeds_of_ok hBracket, bind_assoc, (yields_closeScope hOn hInside).succeeds, bind_assoc,
    succeeds_of_ok hOutside]
  rfl

theorem hinges_greaterThan
    (hRest : Hinges (Within (c.advance [CodePoint.greaterThan]) (name :: names) (scope :: outer)) []
      (content true >>= run) p) :
    Hinges (InTag c name names outer scope pending) [CodePoint.greaterThan] (tagEnd CodePoint.greaterThan >>= run)
      (Closes scope name pending ∧ p) := by
  intro s hInTag
  obtain ⟨hCursor, hOn, hOpened, hScopes, hLength⟩ : InTag (c.advance [CodePoint.greaterThan]) name names outer scope
    pending (s.past [CodePoint.greaterThan]) := hInTag.past
  rw [tagEnd, if_neg (by decide), succeeds_closeTag hOn (hCursor ▸ hScopes) hOpened]
  refine and_congr_right fun _ => hRest ((s.past [CodePoint.greaterThan]).withScopes s.scopes.closed) ?_
  exact ⟨hCursor, hOn, hOpened, hScopes.between, congrArg Nat.succ hLength⟩

theorem hinges_slash (hReads : c.Reads [CodePoint.slash, CodePoint.greaterThan])
    (hRest : Hinges (Within (c.advance [CodePoint.slash, CodePoint.greaterThan]) names outer) []
      (leaving names (content false) >>= run) p) :
    Hinges (InTag c name names outer scope pending) [CodePoint.slash] (tagEnd CodePoint.slash >>= run)
      (Closes scope name pending ∧ p) := by
  intro s hInTag
  obtain ⟨hCursor, hOn, hOpened, hScopes, hLength⟩ : InTag (c.advance [CodePoint.slash, CodePoint.greaterThan]) name
    names outer scope pending (s.past [CodePoint.slash, CodePoint.greaterThan]) := hInTag.past
  have hPopped := opened_popped hOpened
  have hUpdate : update (fun s => { s with openTags := s.openTags.tail }) (s.past [CodePoint.slash]) =
      .ok () (popped (s.past [CodePoint.slash])) := rfl
  have hBracket : (popped (s.past [CodePoint.slash])).cursor.Reads [CodePoint.greaterThan] := by
    rw [hInTag.cursor.symm] at hReads
    exact (Cursor.reads_cons.mp hReads).2
  have hNext := read_next_eq_ok_iff.mpr ⟨hBracket, rfl⟩
  rw [tagEnd, if_pos rfl, bind_assoc, succeeds_of_ok hUpdate, bind_assoc, succeeds_of_ok hNext]
  refine (succeeds_closeTag (s := popped (s.past [CodePoint.slash, CodePoint.greaterThan])) hOn (hCursor ▸ hScopes)
    hPopped).trans (and_congr_right fun _ => ?_)
  exact hRest ((popped (s.past [CodePoint.slash, CodePoint.greaterThan])).withScopes s.scopes.closed)
    ⟨hCursor, hOn, hPopped, hScopes.between.leave, hLength⟩

theorem succeeds_markup {ch : CodePoint} (hReads : s.cursor.Reads [ch]) : Succeeds (run .markup) s ↔
    Succeeds (markupFrom s.cursor.offset ch >>= run) (s.past [ch]) := by
  refine exists_congr fun r => completes_markup_iff.trans ?_
  constructor
  · rintro ⟨d, hNext, hOk⟩
    obtain rfl := hReads.head_eq hNext
    exact hOk
  · exact fun hOk => ⟨ch, hReads, hOk⟩

/-- What follows the name of an element is no part of it. -/
theorem isName_of_tagGoesOn {t : Tag} {ch : CodePoint} {others : Chars} (hWell : t.WellFormed)
    (hLast : last = CodePoint.slash ∨ last = CodePoint.greaterThan)
    (hNext : Tag.attributeText t.attributes ++ (t.space ++ [last]) = ch :: others) : CodePoint.isName ch = false := by
  obtain ⟨_, attributes, space⟩ := t
  cases attributes with
  | cons a rest =>
    have ha := hWell.attributes a List.mem_cons_self
    obtain ⟨d, more, hSpace⟩ := List.exists_cons_of_ne_nil ha.nonempty
    rw [Tag.attributeText, List.flatMap_cons, Attribute.text, hSpace] at hNext
    obtain rfl := (List.cons.inj hNext).1
    exact CodePoint.isName_of_isSpace (ha.space d (hSpace ▸ List.mem_cons_self))
  | nil =>
    cases space with
    | cons d more =>
      obtain rfl := (List.cons.inj hNext).1
      exact CodePoint.isName_of_isSpace (hWell.space d List.mem_cons_self)
    | nil =>
      obtain rfl := (List.cons.inj hNext).1
      rcases hLast with rfl | rfl <;> decide

section
variable {t : Tag} (hWell : t.WellFormed) (hFits : t.Fits c.encoding) (hDepth : names.length ≤ Token.maxDepth)
include hWell hFits hDepth

theorem hinges_startTag (hLast : last = CodePoint.slash ∨ last = CodePoint.greaterThan)
    (hReads : c.Reads (t.text ++ [last])) (hEnd : Hinges (InTag (c.advance t.text) t.name names outer
      (t.scope (outer.headD [])) t.qualifiedNames) [last] (tagEnd last >>= run)
      (Closes (t.scope (outer.headD [])) t.name t.qualifiedNames ∧ p)) :
    Hinges (Within c names outer) [] (run .markup) (t.Qualified (outer.headD []) ∧ p) := by
  intro s hWithin
  obtain rfl := hWithin.cursor
  have hKind : CodePoint.isSpace last = false ∧ CodePoint.isNameStart last = false := by
    rcases hLast with rfl | rfl <;> decide
  obtain ⟨first, own, hName⟩ := List.exists_cons_of_ne_nil hWell.name.ne_nil
  have hStart : CodePoint.isNameStart first = true := by
    have hIsName := hWell.name
    rw [hName] at hIsName
    exact hIsName.1
  rw [Tag.text, List.append_assoc, List.append_assoc, Cursor.reads_append] at hReads
  rw [Tag.text, Cursor.advance_append] at hEnd
  have hFirst : s.cursor.Reads [first] := by
    rw [hName, Cursor.reads_cons] at hReads
    exact hReads.1.1
  obtain ⟨ch, others, hNext⟩ : ∃ ch others, Tag.attributeText t.attributes ++ (t.space ++ [last]) = ch :: others :=
    List.exists_cons_of_ne_nil (by simp)
  have hCh : (s.cursor.advance t.name).Reads [ch] := by
    rw [hNext, Cursor.reads_cons] at hReads
    exact hReads.2.1
  have hEnds := isName_of_tagGoesOn hWell hLast hNext
  have hDepthThere : s.openTags.length ≤ Token.maxDepth := by
    rw [hWithin.opened.length_eq]
    exact hDepth
  have hTag := @hinges_tagRest (s.cursor.advance t.name) names [] [] outer (outer.headD []) _ _ _ _ _ _ hWell.attributes
    (by rw [Cursor.encoding_advance]; exact hFits.attributes) hWell.distinct (fun _ _ => List.not_mem_nil) hWell.space
    hKind.1 hKind.2 hReads.2 hCh hEnd (entered s t.name) ⟨inTag_entered hWithin hReads.1, .nil⟩
  rw [Lexer.past_nil, succeeds_markup hFirst, markupFrom, if_pos hStart, succeeds_startTag hWithin.on hWell.name
    hFits.name hDepthThere hFirst hStart (Cursor.reads_append.mpr ⟨hReads.1, hCh⟩) hEnds, hTag, Tag.qualified_iff]
  tauto

/-- After a start tag its environment is in force. -/
theorem hinges_openTag (hReads : c.Reads (t.text ++ [CodePoint.greaterThan]))
    (hRest : Hinges (Within (c.advance (t.text ++ [CodePoint.greaterThan])) (t.name :: names)
      (t.scope (outer.headD []) :: outer)) [] (content true >>= run) p) :
    Hinges (Within c names outer) [] (run .markup) (t.Qualified (outer.headD []) ∧ p) := by
  rw [Cursor.advance_append] at hRest
  exact hinges_startTag hWell hFits hDepth (.inr rfl) hReads (hinges_greaterThan hRest)

/-- An empty-element tag leaves nothing behind. -/
theorem hinges_emptyTag (hReads : c.Reads (t.text ++ [CodePoint.slash, CodePoint.greaterThan]))
    (hRest : Hinges (Within (c.advance (t.text ++ [CodePoint.slash, CodePoint.greaterThan])) names outer) []
      (leaving names (content false) >>= run) p) :
    Hinges (Within c names outer) [] (run .markup) (t.Qualified (outer.headD []) ∧ p) := by
  rw [Cursor.advance_append] at hRest
  obtain ⟨hText, hEnd⟩ := Cursor.reads_append.mp hReads
  exact hinges_startTag hWell hFits hDepth (.inl rfl)
    (Cursor.reads_append.mpr ⟨hText, (Cursor.reads_cons.mp hEnd).1⟩) (hinges_slash hEnd hRest)

end

end Lex
end XmlIndex
