import XmlIndex.Proofs.Variation.Actions
import XmlIndex.Proofs.Variation.Confinement

/-! # Reading tags under two settings

Tags are read alike up to what is done for namespaces. A lexer that knows none does nothing where the other
one minds its scopes; else both do the same.
-/
namespace XmlIndex
set_option autoImplicit false
open Grammar XmlIndex.Lex

namespace Variation
variable {v : Variation} {c : Cursor} {s t : Lexer}

/-- Where the second lexer knows no namespaces, a confined action of the first is nothing to it. -/
theorem outcome_of_confined {α β : Type} {P : α → Prop} {action : Lex α} {action' : Lex β} {b : β}
    (hConfined : Confined c P action) (hSetting : v = .namespaces) (hLexers : v.Lexers (some c) s t)
    (hOff : action' t = .ok b t) :
    v.Outcome (fun a b' s t => P a ∧ b' = b ∧ v.Lexers (some c) s t) (action s) (action' t) := by
  obtain ⟨hOn, hWithout, hLegible⟩ := hLexers.legible hSetting
  have hBoth := hConfined s hLexers.moves hOn (hLegible c rfl)
  rw [hOff]
  cases hRun : action s with
  | ok a s' =>
    rw [hRun] at hBoth
    obtain ⟨hResult, scopes, rfl, hLater⟩ := hBoth
    refine ⟨hResult, rfl, { hLexers with
      scopes_eq := fun h => absurd hSetting h
      legible := fun _ => ⟨hOn, hWithout, ?_⟩
      begins := nofun }⟩
    rintro _ ⟨⟩
    exact hLater
  | error fault s' =>
    rw [hRun] at hBoth
    exact outcome_of_alone (hSetting ▸ hBoth) _

/-- An action for namespaces alone is confined where the settings differ in them; elsewhere it is the same. -/
theorem tracks_of_confined {action : Lex Unit} (hConfined : Confined c (fun _ => True) action)
    (hOff : ∀ t : Lexer, t.namespaces = false → action t = .ok () t)
    (hSame : v ≠ .namespaces → v.Tracks (some c) action) : v.Tracks (some c) action := by
  by_cases hSetting : v = .namespaces
  · intro s t hLexers
    have hWithout := (hLexers.legible hSetting).2.1
    exact (outcome_of_confined hConfined hSetting hLexers (hOff t hWithout)).mono fun _ _ _ _ h => h.2
  · exact hSame hSetting

section
variable (hSetting : v ≠ .namespaces)
include hSetting

theorem tracks_namespacesOn : v.Tracks (some c) namespacesOn :=
  tracks_look fun _ _ hLexers => (hLexers.scopes_eq hSetting).1

theorem tracks_scopes {change : Lexer → Namespace.Scopes}
    (hChange : ∀ s t, v.Lexers (some c) s t → change t = change s) :
    v.Tracks (some c) (update fun s => { s with scopes := change s }) :=
  tracks_update fun s t hLexers => { hLexers with
    scopes_eq := fun _ => ⟨(hLexers.scopes_eq hSetting).1, hChange s t hLexers⟩
    legible := fun h => absurd h hSetting
    begins := nofun }

end

theorem tracks_spells (span : Span) (text : String) : v.Tracks (some c) (spells span text) :=
  tracks_read (Scan.steady_ask fun _ _ hStop => Cursor.spells_longer hStop _ _ _)

theorem tracks_closeScope : v.Tracks (some c) closeScope := by
  refine tracks_of_confined confined_closeScope (fun _ => closeScope_of_off) fun hSetting s t hLexers => ?_
  obtain ⟨hOn, hScopes⟩ := hLexers.scopes_eq hSetting
  have hClose : (∃ fault scopes, Namespace.Scopes.close s.cursor s.scopes = .error fault scopes ∧ v.alone fault) ∨
      Namespace.Scopes.close t.cursor t.scopes = Namespace.Scopes.close s.cursor s.scopes := by
    rw [hScopes]
    by_cases hExtent : v = .extent
    · rw [hLexers.cursors.eq]
      refine (Namespace.Scopes.close_longer hLexers.cursors.stop_le s.scopes).imp_left ?_
      rintro ⟨fault, scopes, hShort, hUnfinished⟩
      exact ⟨fault, scopes, hShort, hExtent ▸ hUnfinished⟩
    · exact .inr (by rw [hLexers.cursors.eq_of_ne hExtent])
  unfold closeScope
  by_cases hNamespaces : s.namespaces = true
  · rw [if_pos hNamespaces, if_pos (hOn.trans hNamespaces)]
    obtain ⟨fault, scopes, hShort, hAlone⟩ | hSame := hClose
    · rw [hShort]
      exact outcome_of_alone hAlone _
    · rw [hSame]
      cases Namespace.Scopes.close s.cursor s.scopes with
      | ok u scopes =>
        exact ⟨rfl, { hLexers with
          scopes_eq := fun _ => ⟨hOn, rfl⟩
          legible := fun h => absurd h hSetting
          begins := nofun }⟩
      | error fault scopes => exact .inr ⟨rfl, hLexers.cursors⟩
  · rw [if_neg hNamespaces, if_neg (hOn ▸ hNamespaces)]
    exact ⟨rfl, hLexers⟩

theorem tracks_openTags : v.Tracks (some c) (look (·.openTags)) :=
  tracks_look fun _ _ hLexers => hLexers.openTags_eq

/-- Names of open elements are whole units, and so is what is skipped where one comes again. -/
theorem steps_endTag : v.Steps c endTag := by
  refine tracks_offset.bind fun place s t hLexers => ?_
  refine tracks_openTags.bind_ok hLexers fun openTags s₁ t₁ hTags hLexers₁ => ?_
  obtain ⟨rfl, rfl⟩ := look_eq_ok_iff.mp hTags
  have hWhole : ∀ name ∈ s₁.openTags, c.encoding.unitSize ∣ name.length := by
    rw [← hLexers₁.moves.encoding_eq]
    exact hLexers₁.whole
  cases hOpen : s₁.openTags with
  | nil => exact follows_throw _ _ _ hLexers₁
  | cons name rest =>
    rw [hOpen] at hWhole
    obtain ⟨hName, hRest⟩ := List.forall_mem_cons.mp hWhole
    have hUpdate : v.Tracks (some c) (update ({ · with openTags := rest })) :=
      tracks_update fun _ _ hLexers => { hLexers with
        openTags_eq := rfl
        whole := hLexers.moves.encoding_eq.symm ▸ hRest }
    rw [← hLexers₁.moves.encoding_eq] at hName
    have hAgrees := @Scan.agrees_skipAgain _ _ name.offset _ hLexers₁.cursors.stop_le hName
    rw [← hLexers₁.cursors.eq] at hAgrees
    refine (hLexers₁.outcome_read hAgrees).bind fun same _ s₂ t₂ _ hBoth => ?_
    obtain ⟨rfl, hLexers₂⟩ := hBoth
    refine Follows.outcome ?_ hLexers₂
    exact (tracks_requireAt _ _ _).bind fun _ => hUpdate.bind fun _ => tracks_nextAfterSpace.bind fun _ =>
      (tracks_require _ _).bind fun _ => .ite steps_epilog steps_afterMarkup

theorem steps_content (opened : Bool) : v.Steps c (content opened) := by
  intro s t hLexers
  refine tracks_offset.bind_ok hLexers fun place s₁ t₁ hOffset hLexers₁ => ?_
  obtain ⟨rfl, rfl⟩ := read_offset_eq_ok_iff.mp hOffset
  refine tracks_nextAfterSpace.bind_ok hLexers₁ fun ch s₂ t₂ hRead hLexers₂ => ?_
  split
  · rename_i hMarkup
    subst hMarkup
    refine tracks_last.bind_ok hLexers₂ fun stop s₃ t₃ hLast hLexers₃ => ?_
    obtain ⟨rfl, rfl⟩ := read_last_eq_ok_iff.mp hLast
    have hSpace := tracks_emitSpace (v := v) (hLexers₁.spacing hRead)
    refine Follows.outcome ?_ hLexers₃
    exact (tracks_skip _).bind fun _ =>
      .ite
        (.ite ((tracks_emitText _ _).bind fun _ => steps_endTag) (hSpace.bind fun _ => steps_endTag))
        (hSpace.bind fun _ => steps_markup)
  · exact steps_text _ ch _ _ hLexers₂

theorem steps_closeTag (ch : CodePoint) (opened : Bool) : v.Steps c (closeTag ch opened) :=
  (tracks_require _ _).bind fun _ => tracks_closeScope.bind fun _ => tracks_outsideRoot.bind fun _ =>
    .ite steps_epilog (steps_content opened)

theorem steps_tagEnd (ch : CodePoint) : v.Steps c (tagEnd ch) := by
  have hUpdate : v.Tracks (some c) (update fun s => { s with openTags := s.openTags.tail }) :=
    tracks_update fun _ _ hLexers => { hLexers with
      openTags_eq := congrArg List.tail hLexers.openTags_eq
      whole := fun name hName => hLexers.whole name (List.mem_of_mem_tail hName) }
  exact .ite (hUpdate.bind fun _ => tracks_next.bind fun ch => steps_closeTag ch false) (steps_closeTag ch true)

/-- The first character of an attribute is read as that of no space. -/
theorem steps_tagRest (ch : CodePoint) : v.Steps c (tagRest ch) := by
  intro s t hLexers
  refine (tracks_read (Scan.steady_skipSpace ch)).bind_ok hLexers fun after s₁ t₁ hRead hLexers₁ => ?_
  split
  · rename_i hAttribute
    rw [Bool.and_eq_true] at hAttribute
    refine tracks_last.bind_ok hLexers₁ fun place s₂ t₂ hLast hLexers₂ => ?_
    obtain ⟨rfl, rfl⟩ := read_last_eq_ok_iff.mp hLast
    have hSpace : Scan.skipSpace ch = Scan.nextAfterSpace := if_pos hAttribute.1
    rw [hSpace] at hRead
    obtain ⟨space, hReads, -, -, rfl⟩ := read_nextAfterSpace_eq_ok_iff.mp hRead
    refine ⟨rfl, hLexers₂, s.past space, Lexer.past_append, ?_, (Cursor.reads_append.mp hReads).2, hAttribute.2⟩
    rw [Lexer.cursor_past, Lexer.cursor_past, Cursor.last_advance_append, Cursor.offset_advance]
  · exact steps_tagEnd after _ _ hLexers₁

section
variable {place : Nat} {own : Chars} (hReads : c.ReadsAt place own)
include hReads

theorem tracks_checkElementPrefix : v.Tracks (some c) (checkElementPrefix (Scan.nameAt c.encoding place own)) :=
  tracks_of_confined (confined_checkElementPrefix hReads) (fun _ => checkElementPrefix_of_off) fun hSetting =>
    (tracks_namespacesOn hSetting).bind fun _ =>
      .ite ((tracks_spells _ _).bind fun _ => tracks_requireAt _ _ _) (tracks_pure _)

theorem tracks_enterScope : v.Tracks (some c) (enterScope (Scan.nameAt c.encoding place own)) := by
  refine tracks_of_confined (confined_enterScope hReads) (fun _ => enterScope_of_off) fun hSetting => ?_
  refine (tracks_namespacesOn hSetting).bind fun _ => .ite (tracks_unitSize.bind fun size => ?_) (tracks_pure _)
  refine tracks_scopes hSetting fun s t hLexers => ?_
  rw [hLexers.openTags_eq, (hLexers.scopes_eq hSetting).2]

end

theorem tracks_openElement {name : Name} (hWhole : c.encoding.unitSize ∣ name.length) :
    v.Tracks (some c) (openElement name) := by
  have hDepth : v.Tracks (some c) (look (·.openTags.length)) :=
    tracks_look fun _ _ hLexers => congrArg List.length hLexers.openTags_eq
  refine hDepth.bind fun depth => (tracks_requireAt _ _ _).bind fun _ => tracks_update fun s t hLexers => ?_
  exact { hLexers with
    openTags_eq := congrArg (name.span :: ·) hLexers.openTags_eq
    whole := List.forall_mem_cons.mpr ⟨hLexers.moves.encoding_eq.symm ▸ hWhole, hLexers.whole⟩
    attributes_eq := rfl
    maxDepth_eq := congrArg (max · depth) hLexers.maxDepth_eq }

theorem outcome_startTag {first : CodePoint} (hLexers : v.Lexers (some c) (s.past [first]) t)
    (hReads : s.cursor.Reads [first]) (hFirst : CodePoint.isNameStart first = true) :
    v.Outcome (fun a b s t => b = a ∧ v.Lexers (some c) s t ∧ Ready s a) (startTag s.cursor.offset (s.past [first]))
      (startTag s.cursor.offset t) := by
  refine (tracks_read (Scan.steady_nameRest _)).bind_ok hLexers fun (ch, name) s₁ t₁ hRead hLexers₁ => ?_
  obtain ⟨own, hText, -, -, rfl, rfl⟩ := (read_nameRest_eq_ok_iff hReads hFirst).mp hRead
  have hEncoding : s.cursor.encoding = c.encoding :=
    Cursor.encoding_advance.symm.trans hLexers.moves.encoding_eq
  have hThere : c.ReadsAt s.cursor.offset own :=
    hLexers₁.readsAt (Cursor.readsAt_advance.mpr (Cursor.reads_append.mp hText).1)
  rw [hEncoding]
  refine Follows.outcome ?_ hLexers₁
  exact (tracks_checkElementPrefix hThere).bind fun _ => (tracks_openElement Encoding.unitSize_dvd_size).bind fun _ =>
    (tracks_emitElement _).bind fun _ => (tracks_enterScope hThere).bind fun _ => steps_tagRest ch

/-- Only the first lexer may tell the prefix `xml` from others. -/
def SameRole (v : Variation) (role role' : AttributeRole) : Prop :=
  role'.declares = role.declares ∧ (v ≠ .namespaces → role' = role)

theorem tracks_addAttribute (name : Name) : v.Tracks (some c) (addAttribute name) := by
  refine Tracks.bind (tracks_look fun s t hLexers => ?_) fun known => ?_
  · rw [hLexers.attributes_eq, hLexers.doc_eq]
  · exact (tracks_requireAt _ _ _).bind fun _ => tracks_update fun s t hLexers =>
      { hLexers with attributes_eq := congrArg (name.span :: ·) hLexers.attributes_eq }

theorem tracks_attributeValue (ch : CodePoint) : v.Tracks (some c) (attributeValue ch) :=
  (tracks_read (Scan.steady_openAttribute ch)).bind fun _ => tracks_offset.bind fun _ =>
    (tracks_read (Scan.steady_attributeValue _)).bind fun _ => tracks_last.bind fun _ => tracks_pure _

theorem tracks_checkReserved (place : Nat) (reserved : Namespace.Reserved) :
    v.Tracks (some c) (checkReserved place reserved) := by
  cases reserved with
  | none => exact tracks_pure ()
  | xml => exact follows_throw _
  | xmlns => exact follows_throw _

section
variable {role role' : AttributeRole}

/-- An action that depends on the role does so for namespaces alone. -/
theorem outcome_of_role (action : AttributeRole → Lex Unit) (hRole : v.SameRole role role')
    (hConfined : Confined c (fun _ => True) (action role))
    (hOff : ∀ t : Lexer, t.namespaces = false → action role' t = .ok () t)
    (hSame : v ≠ .namespaces → v.Tracks (some c) (action role)) (hLexers : v.Lexers (some c) s t) :
    v.Outcome (fun _ _ s t => v.Lexers (some c) s t) (action role s) (action role' t) := by
  by_cases hSetting : v = .namespaces
  · have hWithout := (hLexers.legible hSetting).2.1
    exact (outcome_of_confined hConfined hSetting hLexers (hOff t hWithout)).mono fun _ _ _ _ h => h.2.2
  · rw [hRole.2 hSetting]
    exact (hSame hSetting s t hLexers).mono fun _ _ _ _ h => h.2

theorem outcome_bindValue {value : Span} {text resolved : Chars} (hRole : v.SameRole role role')
    (hCovers : c.Covers value text) (hResolves : Resolves text resolved) (hLexers : v.Lexers (some c) s t) :
    v.Outcome (fun _ _ s t => v.Lexers (some c) s t) (bindValue role value s) (bindValue role' value t) := by
  refine outcome_of_role (bindValue · value) hRole (confined_bindValue role hCovers hResolves)
    (fun _ h => bindValue_of_off h) (fun hSetting => ?_) hLexers
  refine (tracks_namespacesOn hSetting).bind fun _ => .ite ?_ (tracks_pure _)
  refine (tracks_requireAt _ _ _).bind fun _ => Tracks.bind
    (tracks_read (Scan.steady_ask fun _ _ hStop => Cursor.reserved_longer hStop _ _)) fun reserved => ?_
  cases role with
  | plain => exact tracks_checkReserved _ _
  | defaultNamespace => exact tracks_checkReserved _ _
  | namespacePrefix =>
    have hBind : v.Tracks (some c)
        (update fun s => { s with scopes := s.scopes.bind value.offset value.length }) :=
      tracks_scopes hSetting fun s t hLexers => by rw [(hLexers.scopes_eq hSetting).2]
    exact hBind.bind fun _ => tracks_checkReserved _ _
  | xmlPrefix => exact tracks_requireAt _ _ _

variable {place : Nat} {own : Chars} (hReads : c.ReadsAt place own)
include hReads

theorem outcome_settleRole (hColon : role = .namespacePrefix → CodePoint.colon ∈ own)
    (hLexers : v.Lexers (some c) s t) :
    v.Outcome (fun a b s t => v.SameRole a b ∧ v.Lexers (some c) s t)
      (settleRole role (Scan.nameAt c.encoding place own) s) (settleRole role (Scan.nameAt c.encoding place own) t) := by
  by_cases hSetting : v = .namespaces
  · have hWithout := (hLexers.legible hSetting).2.1
    refine (outcome_of_confined (confined_settleRole hReads hColon) hSetting hLexers
      (settleRole_of_off hWithout)).mono fun a b s t h => ?_
    obtain ⟨hDeclares, rfl, hLater⟩ := h
    exact ⟨⟨hDeclares.symm, fun h => absurd hSetting h⟩, hLater⟩
  · have hTracks : v.Tracks (some c) (settleRole role (Scan.nameAt c.encoding place own)) :=
      (tracks_namespacesOn hSetting).bind fun _ => .ite
        (tracks_unitSize.bind fun _ => (tracks_spells _ _).bind fun _ => (tracks_requireAt _ _ _).bind fun _ =>
          (tracks_spells _ _).bind fun _ => .ite (tracks_pure _) (tracks_pure _))
        (tracks_pure _)
    refine (hTracks s t hLexers).mono fun a b s t h => ?_
    obtain ⟨rfl, hLater⟩ := h
    exact ⟨⟨rfl, fun _ => rfl⟩, hLater⟩

theorem outcome_noteAttribute (hRole : v.SameRole role role') (hLexers : v.Lexers (some c) s t) :
    v.Outcome (fun _ _ s t => v.Lexers (some c) s t) (noteAttribute role (Scan.nameAt c.encoding place own) s)
      (noteAttribute role' (Scan.nameAt c.encoding place own) t) := by
  refine outcome_of_role (noteAttribute · (Scan.nameAt c.encoding place own)) hRole
    (confined_noteAttribute hReads role) (fun _ h => noteAttribute_of_off h) (fun hSetting => ?_) hLexers
  refine (tracks_namespacesOn hSetting).bind fun _ => .ite (tracks_unitSize.bind fun size => ?_) (tracks_pure _)
  cases role with
  | plain =>
    exact (tracks_spells _ _).bind fun _ => .ite (tracks_pure _)
      (tracks_scopes hSetting fun s t hLexers => by rw [(hLexers.scopes_eq hSetting).2])
  | defaultNamespace => exact tracks_pure _
  | namespacePrefix => exact tracks_scopes hSetting fun s t hLexers => by rw [(hLexers.scopes_eq hSetting).2]
  | xmlPrefix => exact tracks_pure _

end

/-- The letters `xmlns` before a colon tell the role that declares a prefix. -/
theorem colon_mem_of_roleOf {own : Chars} {ch : CodePoint} (hLast : CodePoint.isName ch = false)
    (hRole : Scan.roleOf own ch = .namespacePrefix) : CodePoint.colon ∈ own := by
  unfold Scan.roleOf at hRole
  split at hRole
  · have hColon : CodePoint.isName CodePoint.colon = true := by decide
    unfold Scan.declaredRole at hRole
    split at hRole
    · cases hRole
    · split at hRole
      · rename_i hEnd
        rw [hEnd, hColon] at hLast
        cases hLast
      · cases hRole
  · split at hRole
    · rename_i hPrefix
      exact hPrefix.subset (by decide)
    · cases hRole

theorem outcome_readAttribute {first : CodePoint} (hLexers : v.Lexers (some c) (s.past [first]) t)
    (hReads : s.cursor.Reads [first]) (hFirst : CodePoint.isNameStart first = true) :
    v.Outcome (fun a b s t => b = a ∧ v.Lexers (some c) s t ∧ Ready s a)
      (readAttribute s.cursor.offset first (s.past [first])) (readAttribute s.cursor.offset first t) := by
  refine (tracks_read (Scan.steady_attributeRole first)).bind_ok hLexers fun (d, role) s₁ t₁ hReadRole hLexers₁ => ?_
  refine (tracks_read (Scan.steady_nameFrom _ d)).bind_ok hLexers₁ fun (ch, name) s₂ t₂ hReadName hLexers₂ => ?_
  obtain ⟨own, hText, -, hLast, rfl, rfl, rfl⟩ :=
    (read_attributeName_eq_ok_iff hReads hFirst).mp ⟨d, s₁, hReadRole, hReadName⟩
  have hEncoding : s.cursor.encoding = c.encoding :=
    Cursor.encoding_advance.symm.trans hLexers.moves.encoding_eq
  have hThere : c.ReadsAt s.cursor.offset own :=
    hLexers₂.readsAt (Cursor.readsAt_advance.mpr (Cursor.reads_append.mp hText).1)
  rw [hEncoding]
  refine (outcome_settleRole hThere (colon_mem_of_roleOf hLast) hLexers₂).bind
    fun role role' s₃ t₃ _ hSettled => ?_
  obtain ⟨hRole, hLexers₃⟩ := hSettled
  rw [hRole.1]
  refine ((tracks_addAttribute _).outcome hLexers₃).bind fun _ _ s₄ t₄ _ ⟨_, hLexers₄⟩ => ?_
  refine ((tracks_emitName _ _).outcome hLexers₄).bind fun _ _ s₅ t₅ _ ⟨_, hLexers₅⟩ => ?_
  refine (outcome_noteAttribute hThere hRole hLexers₅).bind fun _ _ s₆ t₆ _ hLexers₆ => ?_
  refine ((tracks_attributeValue ch).outcome hLexers₆).bind fun value _ s₇ t₇ hValue hBoth => ?_
  obtain ⟨rfl, hLexers₇⟩ := hBoth
  obtain ⟨text, resolved, hCovers, hResolves⟩ := exists_covers_of_attributeValue hValue
  have hHere : c.Covers _ text := hCovers.congr hLexers₇.moves.doc_eq.symm hLexers₇.moves.stop_eq.symm
    hLexers₇.moves.encoding_eq.symm
  refine (outcome_bindValue hRole hHere hResolves hLexers₇).bind fun _ _ s₈ t₈ _ hLexers₈ => ?_
  refine Follows.outcome ?_ hLexers₈
  exact (tracks_emitBounded _ _).bind fun _ => tracks_next.bind fun after => steps_tagRest after

end Variation
end XmlIndex
