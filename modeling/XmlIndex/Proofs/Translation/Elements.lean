import XmlIndex.Proofs.Text.Labels
import XmlIndex.Proofs.Translation.Lexer

/-! # The declaration and the elements over the same bytes

An encoding that is declared has units of the same size, so the range fits it as well. The names of
open elements and of attributes are kept as stretches at the same place, and are compared by bytes
of the range.
-/
namespace XmlIndex
set_option autoImplicit false

namespace Overlay
variable {v : Overlay} {α β : Type} {Q : α → β → Prop} {a b : Nat}

open XmlIndex.Lex

section
variable {lenient : Prop}

theorem lexes_emitUnits (kind : TokenKind) (hPlace : v.Place a b) (count : Nat) :
    v.Follows lenient Eq (emitUnits kind a count) (emitUnits kind b count) := by
  refine lexes_unitSize.bind fun size size' hSize => ?_
  obtain ⟨rfl, -⟩ := hSize
  exact lexes_emit kind hPlace rfl

theorem reads_switchEncoding {e : Encoding} (hUnit : e.unitSize = v.unit) :
    v.Reads Eq (Scan.switchEncoding e) (Scan.switchEncoding e) :=
  fun _ _ hCursors => ⟨rfl, { hCursors with encoding_eq := rfl, unitSize_eq := hUnit }⟩

theorem checkSize_of_lt {e : Encoding} {stop : Nat} {namespaces : Bool}
    (hFits : stop < sizeLimit e namespaces) : checkSize e stop namespaces = .ok () :=
  if_pos hFits

/-- A declared encoding of the same units fits the range, so nothing keeps it from being used. -/
theorem lexes_declareEncoding (label : String) :
    v.Follows lenient Eq (declareEncoding label) (declareEncoding label) := by
  have hMark : v.Follows lenient Eq (look (·.mark)) (look (·.mark)) :=
    lexes_look fun _ _ hLexers => hLexers.mark_eq
  refine hMark.bind_eq fun mark => (lexes_read reads_encoding).bind ?_
  rintro detected _ ⟨rfl, hUnit⟩
  cases hReconcile : reconcile mark detected label with
  | error cause => exact simulates_throw (.same rfl)
  | ok declared =>
    have hDeclared : declared.unitSize = v.unit :=
      (agrees_of_reconcile hReconcile).unitSize_eq.trans hUnit
    refine .ite (simulates_pure rfl) fun s s' hLexers => ?_
    have hOuter : checkSize declared s.cursor.stop s.namespaces = .ok () :=
      checkSize_of_lt (hLexers.cursor.stop_eq ▸ hLexers.fits declared hDeclared)
    have hInner : checkSize declared s'.cursor.stop s'.namespaces = .ok () :=
      checkSize_of_lt (hLexers.cursor.stop_eq' ▸ hLexers.fits' declared hDeclared)
    simp only [bind, EStateM.bind, look, hOuter, hInner]
    exact lexes_read (reads_switchEncoding hDeclared) s s' hLexers

theorem lexes_versionDeclaration (ch : CodePoint) :
    v.Follows lenient Eq (versionDeclaration ch) (versionDeclaration ch) :=
  lexes_last.bind fun _ _ hPlace => (lexes_require _ _).bind_eq fun _ =>
    (lexes_read (reads_skipAll _)).bind_eq fun _ => (lexes_require _ _).bind_eq fun _ =>
      (lexes_emitUnits _ hPlace _).bind_eq fun _ => (lexes_read reads_openValue).bind_eq fun _ =>
        lexes_offset.bind fun _ _ hValue => (lexes_read reads_version).bind_eq fun _ =>
          (lexes_require _ _).bind_eq fun _ => (lexes_emitUnits _ hValue _).bind_eq fun _ =>
            lexes_read (reads_closeValue _)

theorem lexes_encodingDeclaration : v.Follows lenient Eq encodingDeclaration encodingDeclaration :=
  lexes_last.bind fun _ _ hPlace => (lexes_read (reads_skipAll _)).bind_eq fun _ =>
    (lexes_require _ _).bind_eq fun _ => (lexes_emitUnits _ hPlace _).bind_eq fun _ =>
      (lexes_read reads_openValue).bind_eq fun _ => lexes_offset.bind fun _ _ hValue =>
        (lexes_read (reads_label _)).bind_eq fun _ => lexes_last.bind fun _ _ hStop =>
          (lexes_emit _ hValue (hValue.sub_eq hStop)).bind_eq fun _ => lexes_declareEncoding _

theorem lexes_standaloneDeclaration : v.Follows lenient Eq standaloneDeclaration standaloneDeclaration :=
  lexes_last.bind fun _ _ hPlace => (lexes_read (reads_skipAll _)).bind_eq fun _ =>
    (lexes_require _ _).bind_eq fun _ => (lexes_emitUnits _ hPlace _).bind_eq fun _ =>
      (lexes_read reads_openValue).bind_eq fun _ => lexes_offset.bind fun _ _ hValue =>
        (lexes_read reads_standaloneAnswer).bind_eq fun _ =>
          (lexes_emitUnits _ hValue _).bind_eq fun _ => lexes_read (reads_closeValue _)

theorem lexes_optionalEncoding : v.Follows lenient Eq optionalEncoding optionalEncoding :=
  (lexes_read reads_nextSpaced).bind_eq fun _ =>
    .ite
      (lexes_encodingDeclaration.bind_eq fun _ => lexes_read reads_nextSpaced)
      (simulates_pure rfl)

theorem lexes_optionalDeclarations : v.Follows lenient Eq optionalDeclarations optionalDeclarations :=
  lexes_optionalEncoding.bind_eq fun _ =>
    .ite
      (lexes_standaloneDeclaration.bind_eq fun _ => lexes_nextAfterSpace)
      (simulates_pure rfl)

theorem lexes_declaration (ch : CodePoint) : v.Follows lenient Eq (declaration ch) (declaration ch) :=
  (lexes_versionDeclaration ch).bind_eq fun _ => lexes_optionalDeclarations.bind_eq fun _ =>
    (lexes_require _ _).bind_eq fun _ => (lexes_read (reads_skip _)).bind_eq fun _ =>
      (lexes_require _ _).bind_eq fun _ => lexes_nextAfterSpace.bind_eq fun _ =>
        lexes_require _ _

end

theorem lexes_openTags :
    v.Lexes (List.Forall₂ v.Stretch) (look (·.openTags)) (look (·.openTags)) :=
  lexes_look fun _ _ hLexers => hLexers.openTags

theorem lexes_endTag : v.Lexes v.Phases endTag endTag := by
  refine lexes_offset.bind fun place place' hPlace => lexes_openTags.bind ?_
  rintro _ _ (_ | @⟨s, t, rest, rest', hName, hRest⟩)
  · exact simulates_throw (.placed _ hPlace)
  · have hLength : rest.isEmpty = rest'.isEmpty := by cases hRest <;> rfl
    simp only
    rw [hLength]
    refine (lexes_read (reads_skipAgain hName)).bind_eq fun _ => ?_
    refine (lexes_requireAt hPlace _ _).bind_eq fun _ => ?_
    have hUpdate : v.Lexes Eq (update ({ · with openTags := rest }))
        (update ({ · with openTags := rest' })) :=
      lexes_update fun _ _ hLexers => { hLexers with openTags := hRest }
    exact hUpdate.bind_eq fun _ => lexes_nextAfterSpace.bind_eq fun _ =>
      (lexes_require _ _).bind_eq fun _ => .ite (simulates_pure .epilog) lexes_afterMarkup

theorem lexes_content (opened : Bool) : v.Lexes v.Phases (content opened) (content opened) :=
  lexes_offset.bind fun _ _ hPlace => lexes_nextAfterSpace.bind_eq fun _ =>
    .ite
      (lexes_last.bind fun _ _ hStop => (lexes_read (reads_skip _)).bind_eq fun _ =>
        .ite
          (.ite
            ((lexes_emitText _ hPlace (hPlace.sub_eq hStop)).bind_eq fun _ => lexes_endTag)
            ((lexes_emitSpace hPlace hStop).bind_eq fun _ => lexes_endTag))
          ((lexes_emitSpace hPlace hStop).bind_eq fun _ => simulates_pure .markup))
      (lexes_text hPlace _)

theorem quiet_closeScope : Quiet closeScope := by
  intro s a s' hOk
  unfold closeScope at hOk
  split at hOk
  · split at hOk <;> cases hOk
    exact ⟨_, rfl⟩
  · cases hOk
    exact ⟨s.scopes, rfl⟩

theorem lexes_closeScope : v.Lexes Eq closeScope closeScope := by
  by_cases hLenient : v.lenient
  · intro s s' hLexers
    have hInner : closeScope s' = .ok () s' := by
      unfold closeScope
      rw [hLexers.namespaces_off hLenient]
      rfl
    rw [hInner]
    exact lexes_of_quiet hLenient quiet_closeScope (fun _ _ _ _ => rfl) s s' hLexers
  · intro s s' hLexers
    obtain ⟨hOn, hScoped⟩ := hLexers.namespaces_eq hLenient
    have hClose := simulates_close hLexers.cursor s.scopes s'.scopes hScoped
    unfold closeScope
    by_cases hInside : s'.namespaces = true
    · rw [if_pos (hOn.trans hInside), if_pos hInside]
      cases hOuter : Namespace.Scopes.close s.cursor s.scopes <;>
        cases hInner : Namespace.Scopes.close s'.cursor s'.scopes <;>
        rw [hOuter, hInner] at hClose
      case ok.ok => exact ⟨rfl, { hLexers with namespaces_eq := fun _ => ⟨hOn, hClose.2⟩ }⟩
      case error.error =>
        obtain hNone | ⟨hFaults, hAfter⟩ := hClose
        · exact hNone.elim
        · exact .inr ⟨hFaults, { hLexers with namespaces_eq := fun _ => ⟨hOn, hAfter⟩ }⟩
      all_goals exact hClose.elim
    · rw [if_neg (hOn ▸ hInside), if_neg hInside]
      exact ⟨rfl, hLexers⟩

theorem lexes_closeTag (ch : CodePoint) (opened : Bool) :
    v.Lexes v.Phases (closeTag ch opened) (closeTag ch opened) :=
  (lexes_require _ _).bind_eq fun _ => lexes_closeScope.bind_eq fun _ =>
    lexes_outsideRoot.bind_eq fun _ => .ite (simulates_pure .epilog) (lexes_content opened)

theorem lexes_tagEnd (ch : CodePoint) : v.Lexes v.Phases (tagEnd ch) (tagEnd ch) := by
  refine .ite ?_ (lexes_closeTag ch true)
  have hTail {l l' : List Span} (hTags : List.Forall₂ v.Stretch l l') :
      List.Forall₂ v.Stretch l.tail l'.tail := by
    cases hTags with
    | nil => exact .nil
    | cons hName hRest => exact hRest
  have hUpdate : v.Lexes Eq (update fun s => { s with openTags := s.openTags.tail })
      (update fun s => { s with openTags := s.openTags.tail }) :=
    lexes_update fun _ _ hLexers => { hLexers with openTags := hTail hLexers.openTags }
  exact hUpdate.bind_eq fun _ => (lexes_read reads_next).bind_eq fun ch => lexes_closeTag ch false

theorem lexes_tagRest (ch : CodePoint) : v.Lexes v.Phases (tagRest ch) (tagRest ch) :=
  (lexes_read (reads_skipSpace ch)).bind_eq fun after =>
    .ite (lexes_last.bind fun _ _ hPlace => simulates_pure (.attributes hPlace after))
      (lexes_tagEnd after)

section Names
variable {m n : Name}

theorem lexes_spells {span span' : Span} (hCovers : v.Covers span span') (text : String) :
    v.Lexes Eq (spells span text) (spells span' text) := by
  refine lexes_read (reads_ask fun c c' hCursors => ?_)
  rw [hCovers.offset_eq, hCovers.length_eq]
  exact hCursors.spells _ _ _

theorem lexes_checkElementPrefix (hNamed : v.Named m n) :
    v.Lexes Eq (checkElementPrefix m) (checkElementPrefix n) := by
  refine lexes_namespacesOn.bind fun on on' hOn => ?_
  by_cases hLenient : v.lenient
  · rw [hOn.1 hLenient, Bool.false_and]
    exact lexes_of_quiet hLenient
      (.ite ((quiet_spells _ _).bind fun _ => quiet_requireAt _ _ _) (quiet_pure _))
      fun _ _ _ _ => rfl
  · rw [hOn.2 hLenient, hNamed.prefix_eq]
    exact .ite
      ((lexes_spells hNamed.leading _).bind_eq fun _ =>
        lexes_requireAt hNamed.stretch.begins _ _)
      (simulates_pure rfl)

theorem lexes_openElement (hNamed : v.Named m n) :
    v.Lexes Eq (openElement m) (openElement n) := by
  have hDepth : v.Lexes Eq (look (·.openTags.length)) (look (·.openTags.length)) :=
    lexes_look fun _ _ hLexers => hLexers.openTags.length_eq
  refine hDepth.bind_eq fun depth => (lexes_requireAt hNamed.stretch.begins _ _).bind_eq fun _ => ?_
  refine lexes_update fun s s' hLexers => { hLexers with
    openTags := .cons hNamed.stretch hLexers.openTags
    attributes := .nil
    maxDepth_eq := ?_ }
  simp only [hLexers.maxDepth_eq]

theorem lexes_enterScope (hNamed : v.Named m n) : v.Lexes Eq (enterScope m) (enterScope n) := by
  refine lexes_namespacesOn.bind fun on on' hOn => ?_
  by_cases hLenient : v.lenient
  · rw [hOn.1 hLenient]
    exact lexes_of_quiet hLenient
      (.ite ((quiet_look _).bind fun _ => quiet_scopes _) (quiet_pure _)) fun _ _ _ _ => rfl
  · rw [hOn.2 hLenient]
    refine .ite (lexes_unitSize.bind ?_) (simulates_pure rfl)
    rintro size _ ⟨rfl, -⟩
    refine lexes_scopes hLenient fun s s' hLexers hScoped => ?_
    rw [hLexers.openTags.length_eq, hNamed.prefix_eq]
    refine hScoped.enter _ ?_
    split
    · exact .none
    · exact .some (hNamed.toPrefixed size)

theorem lexes_startTag (hPlace : v.Place a b) : v.Lexes v.Phases (startTag a) (startTag b) := by
  refine (lexes_read (reads_nameRest hPlace)).bind ?_
  rintro ⟨ch, m⟩ ⟨_, n⟩ ⟨rfl, hNamed⟩
  exact (lexes_checkElementPrefix hNamed).bind_eq fun _ => (lexes_openElement hNamed).bind_eq fun _ =>
    (lexes_emitElement hNamed).bind_eq fun _ => (lexes_enterScope hNamed).bind_eq fun _ =>
      lexes_tagRest ch

def SameRole (v : Overlay) (role role' : AttributeRole) : Prop :=
  role.declares = role'.declares ∧ (¬v.lenient → role = role')

theorem lexes_settleRole (role : AttributeRole) (hNamed : v.Named m n) :
    v.Lexes v.SameRole (settleRole role m) (settleRole role n) := by
  refine lexes_namespacesOn.bind fun on on' hOn => ?_
  by_cases hLenient : v.lenient
  · rw [hOn.1 hLenient, Bool.and_false]
    refine lexes_of_quiet hLenient ?_ ?_
    · exact .ite
        ((quiet_look _).bind fun _ => (quiet_spells _ _).bind fun _ =>
          (quiet_requireAt _ _ _).bind fun _ => (quiet_spells _ _).bind fun _ =>
            .ite (quiet_pure _) (quiet_pure _))
        (quiet_pure _)
    · intro s settled s' hOk
      refine ⟨?_, fun hStrict => (hStrict hLenient).elim⟩
      split at hOk
      · rename_i hPrefix
        rw [Bool.and_eq_true, decide_eq_true_eq] at hPrefix
        rw [hPrefix.1]
        obtain ⟨size, s₁, -, hOk⟩ := bind_eq_ok_iff.mp hOk
        obtain ⟨isXmlns, s₂, -, hOk⟩ := bind_eq_ok_iff.mp hOk
        obtain ⟨_, s₃, -, hOk⟩ := bind_eq_ok_iff.mp hOk
        obtain ⟨isXml, s₄, -, hOk⟩ := bind_eq_ok_iff.mp hOk
        split at hOk <;> cases hOk <;> rfl
      · cases hOk
        rfl
  · rw [hOn.2 hLenient]
    refine .ite (lexes_unitSize.bind ?_) (simulates_pure ⟨rfl, fun _ => rfl⟩)
    rintro size _ ⟨rfl, -⟩
    have hDeclared := hNamed.trailing size
    exact (lexes_spells hDeclared _).bind_eq fun _ =>
      (lexes_requireAt hNamed.stretch.begins _ _).bind_eq fun _ =>
        (lexes_spells hDeclared _).bind_eq fun _ =>
          .ite (simulates_pure ⟨rfl, fun _ => rfl⟩) (simulates_pure ⟨rfl, fun _ => rfl⟩)

theorem any_sameText_eq {known known' : List Span} (hKnown : List.Forall₂ v.Stretch known known')
    (hNamed : v.Named m n) :
    (known.any fun other =>
        Namespace.sameText v.outer other.offset other.length m.offset m.length) =
      known'.any fun other =>
        Namespace.sameText v.inner other.offset other.length n.offset n.length := by
  induction hKnown with
  | nil => rfl
  | cons hOther hRest ih =>
    have hSame := sameText_eq hOther.covers hNamed.stretch.covers
    simp only [Name.span] at hSame
    rw [List.any_cons, List.any_cons, hSame, ih]

theorem lexes_addAttribute (hNamed : v.Named m n) :
    v.Lexes Eq (addAttribute m) (addAttribute n) := by
  refine Simulates.bind_eq (lexes_look fun s s' hLexers => ?_) fun known => ?_
  · rw [hLexers.cursor.doc_eq, hLexers.cursor.doc_eq']
    exact any_sameText_eq hLexers.attributes hNamed
  · exact (lexes_requireAt hNamed.stretch.begins _ _).bind_eq fun _ =>
      lexes_update fun _ _ hLexers => { hLexers with
        attributes := .cons hNamed.stretch hLexers.attributes }

theorem lexes_noteAttribute {role role' : AttributeRole} (hRole : v.SameRole role role')
    (hNamed : v.Named m n) : v.Lexes Eq (noteAttribute role m) (noteAttribute role' n) := by
  refine lexes_namespacesOn.bind fun on on' hOn => ?_
  by_cases hLenient : v.lenient
  · rw [hOn.1 hLenient, Bool.false_and]
    refine lexes_of_quiet hLenient (.ite ((quiet_look _).bind fun _ => ?_) (quiet_pure _))
      fun _ _ _ _ => rfl
    cases role with
    | plain => exact (quiet_spells _ _).bind fun _ => .ite (quiet_pure _) (quiet_scopes _)
    | defaultNamespace => exact quiet_pure _
    | namespacePrefix => exact quiet_scopes _
    | xmlPrefix => exact quiet_pure _
  · obtain rfl := hRole.2 hLenient
    rw [hOn.2 hLenient, hNamed.prefix_eq]
    refine .ite (lexes_unitSize.bind ?_) (simulates_pure rfl)
    rintro size _ ⟨rfl, -⟩
    cases role with
    | plain =>
      exact (lexes_spells hNamed.leading _).bind_eq fun _ =>
        .ite (simulates_pure rfl) (lexes_scopes hLenient fun s s' _ hScoped =>
          hScoped.addAttribute (hNamed.toPrefixed size))
    | defaultNamespace => exact simulates_pure rfl
    | namespacePrefix =>
      exact lexes_scopes hLenient fun s s' _ hScoped => hScoped.declare (hNamed.trailing size)
    | xmlPrefix => exact simulates_pure rfl

theorem lexes_checkReserved (hPlace : v.Place a b) (reserved : Namespace.Reserved) :
    v.Lexes Eq (checkReserved a reserved) (checkReserved b reserved) := by
  cases reserved with
  | none => exact simulates_pure rfl
  | xml => exact simulates_throw (.placed _ hPlace)
  | xmlns => exact simulates_throw (.placed _ hPlace)

end Names

theorem lexes_bindValue {role role' : AttributeRole} (hRole : v.SameRole role role')
    {value value' : Span} (hValue : v.Stretch value value') :
    v.Lexes Eq (bindValue role value) (bindValue role' value') := by
  refine lexes_namespacesOn.bind fun on on' hOn => ?_
  by_cases hLenient : v.lenient
  · rw [hOn.1 hLenient, Bool.and_false]
    refine lexes_of_quiet hLenient
      (.ite ((quiet_requireAt _ _ _).bind fun _ => (quiet_ask _).bind fun _ => ?_) (quiet_pure _))
      fun _ _ _ _ => rfl
    cases role with
    | plain => exact quiet_checkReserved _ _
    | defaultNamespace => exact quiet_checkReserved _ _
    | namespacePrefix => exact (quiet_scopes _).bind fun _ => quiet_checkReserved _ _
    | xmlPrefix => exact quiet_requireAt _ _ _
  · obtain rfl := hRole.2 hLenient
    have hReserved : v.Lexes Eq
        (read (Scan.ask (Namespace.reserved value.offset value.length)))
        (read (Scan.ask (Namespace.reserved value'.offset value'.length))) :=
      lexes_read (reads_ask fun _ _ hCursors => hCursors.reserved hValue)
    rw [hOn.2 hLenient, hValue.length_eq]
    rw [hValue.length_eq] at hReserved
    refine .ite ((lexes_requireAt hValue.begins _ _).bind_eq fun _ => hReserved.bind_eq
      fun reserved => ?_) (simulates_pure rfl)
    cases role with
    | plain => exact lexes_checkReserved hValue.begins _
    | defaultNamespace => exact lexes_checkReserved hValue.begins _
    | namespacePrefix =>
      have hBind : v.Lexes Eq
          (update fun s => { s with scopes := s.scopes.bind value.offset value'.length })
          (update fun s => { s with scopes := s.scopes.bind value'.offset value'.length }) :=
        lexes_scopes hLenient fun s s' _ hScoped => hValue.length_eq ▸ hScoped.bind hValue
      exact hBind.bind_eq fun _ => lexes_checkReserved hValue.begins _
    | xmlPrefix => exact lexes_requireAt hValue.begins _ _

theorem lexes_attributeValue (ch : CodePoint) :
    v.Lexes v.Stretch (attributeValue ch) (attributeValue ch) :=
  (lexes_read (reads_openAttribute ch)).bind_eq fun quote => lexes_offset.bind fun _ _ hPlace =>
    (lexes_read (reads_attributeValue quote)).bind_eq fun _ => lexes_last.bind fun _ _ hStop =>
      simulates_pure (.of_places hPlace hStop)

theorem lexes_readAttribute (hPlace : v.Place a b) (first : CodePoint) :
    v.Lexes v.Phases (readAttribute a first) (readAttribute b first) := by
  refine (lexes_read (reads_attributeRole first)).bind_eq fun (ch, role) => ?_
  refine (lexes_read (reads_nameFrom hPlace ch)).bind ?_
  rintro ⟨ch, m⟩ ⟨_, n⟩ ⟨rfl, hNamed⟩
  refine (lexes_settleRole role hNamed).bind fun role role' hRole => ?_
  refine (lexes_addAttribute hNamed).bind_eq fun _ => ?_
  rw [hRole.1]
  exact (lexes_emitName _ hNamed).bind_eq fun _ => (lexes_noteAttribute hRole hNamed).bind_eq fun _ =>
    (lexes_attributeValue ch).bind fun _ _ hValue => (lexes_bindValue hRole hValue).bind_eq fun _ =>
      (lexes_emitBounded _ hValue.begins hValue.length_eq).bind_eq fun _ =>
        (lexes_read reads_next).bind_eq fun after => lexes_tagRest after

end Overlay
end XmlIndex
