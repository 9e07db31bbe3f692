import XmlIndex.Proofs.Translation.Namespaces

/-! # Lexers over the same bytes

Two lexers are related if they have read the same, have opened the same elements and have written
the same tokens, those of the outer one lying further on by the units of `delta`. Only the document
token, which has no place, is the same in both.
-/
namespace XmlIndex
set_option autoImplicit false

def Token.later (units : Nat) (t : Token) : Token :=
  { t with offset := t.offset + units }

namespace Overlay
variable {v : Overlay}

def units (v : Overlay) : Nat :=
  v.delta / v.unit

structure Drafts (v : Overlay) (d d' : Draft) : Prop where
  cache_eq : d.cache = d'.cache
  waiting_eq : d.waiting = d'.waiting
  root_eq : d.root = d'.root
  tokens : ∃ first rest, d'.tokens.toList = first :: rest ∧
    d.tokens.toList = first :: rest.map (Token.later v.units)

section Drafts
variable {d d' : Draft} {depth : Int}

theorem Drafts.size_eq (hDrafts : v.Drafts d d') : d.tokens.size = d'.tokens.size := by
  obtain ⟨first, rest, hInner, hOuter⟩ := hDrafts.tokens
  rw [← Array.length_toList, ← Array.length_toList, hInner, hOuter, List.length_cons,
    List.length_cons, List.length_map]

theorem Drafts.write (hDrafts : v.Drafts d d') (t : Token) :
    v.Drafts (d.write (t.later v.units)) (d'.write t) := by
  obtain ⟨first, rest, hInner, hOuter⟩ := hDrafts.tokens
  refine { hDrafts with tokens := ⟨first, rest ++ [t], ?_, ?_⟩ }
  · rw [Draft.write, Array.toList_push, hInner]
    rfl
  · rw [Draft.write, Array.toList_push, hOuter, List.map_append]
    rfl

theorem Drafts.writeText (hDrafts : v.Drafts d d') (kind : TokenKind) (depth : Int)
    (offset length : Nat) :
    v.Drafts (d.writeText kind depth (offset + v.units) length)
      (d'.writeText kind depth offset length) := by
  fun_induction Draft.writeText d' kind depth offset length generalizing d with
  | case1 d' offset length hLong ih =>
    rw [Draft.writeText, if_pos hLong, Nat.add_right_comm]
    exact ih (hDrafts.write ⟨kind, depth, offset, Token.maxLength⟩)
  | case2 d' offset length hShort =>
    rw [Draft.writeText, if_neg hShort]
    exact hDrafts.write ⟨kind, depth, offset, length⟩

theorem Drafts.recordElement (hDrafts : v.Drafts d d') (depth : Int) (token : Nat) :
    v.Drafts (d.recordElement depth token) (d'.recordElement depth token) := by
  unfold Draft.recordElement
  split
  · exact { hDrafts with root_eq := rfl }
  · split
    · have hRecord := congrArg₂ (fun cache waiting => LocationCache.record cache waiting
        ⟨depth.toNat, token⟩) hDrafts.cache_eq hDrafts.waiting_eq
      exact { hDrafts with
        cache_eq := congrArg Prod.fst hRecord
        waiting_eq := congrArg Prod.snd hRecord }
    · exact hDrafts

theorem Drafts.writeElement (hDrafts : v.Drafts d d') (depth : Int) (offset lengthField : Nat) :
    v.Drafts (d.writeElement depth (offset + v.units) lengthField)
      (d'.writeElement depth offset lengthField) := by
  unfold Draft.writeElement
  simp only
  rw [hDrafts.size_eq]
  exact (hDrafts.write ⟨.startTag, depth, offset, lengthField⟩).recordElement depth _

end Drafts

/-- The encoding may change on the way, but not the size of its units, which bounds the range. -/
structure Lexers (v : Overlay) (s s' : Lexer) : Prop where
  cursor : v.Cursors s.cursor s'.cursor
  mark_eq : s.mark = s'.mark
  recordWhitespace_eq : s.recordWhitespace = s'.recordWhitespace
  openTags : List.Forall₂ v.Stretch s.openTags s'.openTags
  attributes : List.Forall₂ v.Stretch s.attributes s'.attributes
  maxDepth_eq : s.maxDepth = s'.maxDepth
  hasDoctype_eq : s.hasDoctype = s'.hasDoctype
  draft : v.Drafts s.draft s'.draft
  namespaces_eq : ¬v.lenient → s.namespaces = s'.namespaces ∧ v.Scoped s.scopes s'.scopes
  namespaces_off : v.lenient → s'.namespaces = false
  fits : ∀ e : Encoding, e.unitSize = v.unit → v.delta + v.stop < sizeLimit e s.namespaces
  fits' : ∀ e : Encoding, e.unitSize = v.unit → v.stop < sizeLimit e s'.namespaces

abbrev Follows {α β : Type} (v : Overlay) (lenient : Prop) (Q : α → β → Prop) (action : Lex α)
    (action' : Lex β) : Prop :=
  v.Simulates lenient v.Lexers Q action action'

abbrev Lexes {α β : Type} (v : Overlay) (Q : α → β → Prop) (action : Lex α) (action' : Lex β) :
    Prop :=
  v.Follows v.lenient Q action action'

section Lexers
variable {lenient : Prop} {α β : Type} {Q : α → β → Prop} {s s' : Lexer} {a b : Nat}

theorem Lexers.unitSize_eq (hLexers : v.Lexers s s') : s.cursor.encoding.unitSize = v.unit :=
  hLexers.cursor.encoding_eq ▸ hLexers.cursor.unitSize_eq

theorem Lexers.length_eq (hLexers : v.Lexers s s') (bytes : Nat) : s.units bytes = s'.units bytes := by
  unfold Lexer.units
  rw [hLexers.cursor.encoding_eq]

theorem Lexers.units_eq (hLexers : v.Lexers s s') (hPlace : v.Place a b) :
    s.units a = s'.units b + v.units := by
  unfold Lexer.units Overlay.units
  rw [hLexers.unitSize_eq, hLexers.cursor.unitSize_eq, hPlace.div_eq, Nat.add_comm]

theorem Lexers.depth_eq (hLexers : v.Lexers s s') : s.depth = s'.depth := by
  unfold Lexer.depth
  rw [hLexers.openTags.length_eq]

theorem Lexers.isEmpty_eq (hLexers : v.Lexers s s') : s.openTags.isEmpty = s'.openTags.isEmpty := by
  have hOpenTags := hLexers.openTags
  revert hOpenTags
  generalize s.openTags = outer, s'.openTags = inner
  rintro (_ | _) <;> rfl

theorem lexes_read {action : Scan α} {action' : Scan β} (hReads : v.Reads Q action action') :
    v.Follows lenient Q (Lex.read action) (Lex.read action') := by
  intro s s' hLexers
  have hOutcome := hReads _ _ hLexers.cursor
  unfold Lex.read
  cases hOuter : action s.cursor <;> cases hInner : action' s'.cursor <;>
    rw [hOuter, hInner] at hOutcome
  case ok.ok => exact ⟨hOutcome.1, { hLexers with cursor := hOutcome.2 }⟩
  case error.error =>
    obtain hNone | ⟨hFaults, hAfter⟩ := hOutcome
    · exact hNone.elim
    · exact .inr ⟨hFaults, { hLexers with cursor := hAfter }⟩
  all_goals exact hOutcome.elim

theorem lexes_look {view : Lexer → α} {view' : Lexer → β}
    (hView : ∀ s s', v.Lexers s s' → Q (view s) (view' s')) :
    v.Follows lenient Q (Lex.look view) (Lex.look view') :=
  fun s s' hLexers => ⟨hView s s' hLexers, hLexers⟩

theorem lexes_update {change change' : Lexer → Lexer}
    (hChange : ∀ s s', v.Lexers s s' → v.Lexers (change s) (change' s')) :
    v.Follows lenient Eq (Lex.update change) (Lex.update change') :=
  fun s s' hLexers => ⟨rfl, hChange s s' hLexers⟩

theorem lexes_fail (cause : SyntaxFault) : v.Lexes Q (Lex.fail cause) (Lex.fail cause) :=
  simulates_throw (.same rfl)

theorem lexes_require (condition : Bool) (cause : SyntaxFault) :
    v.Follows lenient Eq (Lex.require condition cause) (Lex.require condition cause) :=
  .ite (simulates_pure rfl) (simulates_throw (.same rfl))

theorem lexes_requireAt (hPlace : v.Place a b) (condition : Bool) (cause : SyntaxFault) :
    v.Lexes Eq (Lex.requireAt a condition cause) (Lex.requireAt b condition cause) :=
  .ite (simulates_pure rfl) (simulates_throw (.placed cause hPlace))

theorem lexes_outsideRoot : v.Lexes Eq Lex.outsideRoot Lex.outsideRoot :=
  lexes_look fun _ _ hLexers => hLexers.isEmpty_eq

theorem lexes_unitSize : v.Follows lenient (fun u u' => u = u' ∧ u = v.unit) Lex.unitSize Lex.unitSize :=
  lexes_look fun _ _ hLexers =>
    ⟨hLexers.unitSize_eq.trans hLexers.cursor.unitSize_eq.symm, hLexers.unitSize_eq⟩

end Lexers

section Writing
variable {lenient : Prop} {span span' : Span} {m n : Name}

theorem lexes_emit (kind : TokenKind) (hPlace : v.Place span.offset span'.offset)
    (hLength : span.length = span'.length) : v.Follows lenient Eq (Lex.emit kind span) (Lex.emit kind span') := by
  refine lexes_update fun s s' hLexers => { hLexers with draft := ?_ }
  simp only
  rw [hLexers.depth_eq, hLexers.units_eq hPlace, hLexers.length_eq, hLength]
  exact hLexers.draft.write ⟨kind, _, _, _⟩

theorem lexes_emitBounded (kind : TokenKind) (hPlace : v.Place span.offset span'.offset)
    (hLength : span.length = span'.length) :
    v.Lexes Eq (Lex.emitBounded kind span) (Lex.emitBounded kind span') := by
  have hUnits : v.Lexes Eq (Lex.look (·.units span.length)) (Lex.look (·.units span'.length)) :=
    lexes_look fun _ _ hLexers => hLength ▸ hLexers.length_eq _
  exact hUnits.bind_eq fun _ => (lexes_requireAt hPlace _ _).bind_eq fun _ =>
    lexes_emit kind hPlace hLength

theorem lexes_emitText (kind : TokenKind) (hPlace : v.Place span.offset span'.offset)
    (hLength : span.length = span'.length) :
    v.Lexes Eq (Lex.emitText kind span) (Lex.emitText kind span') := by
  refine lexes_update fun s s' hLexers => { hLexers with draft := ?_ }
  simp only
  rw [hLexers.depth_eq, hLexers.units_eq hPlace, hLexers.length_eq, hLength]
  exact hLexers.draft.writeText kind _ _ _

theorem lexes_checkName (hNamed : v.Named m n) : v.Lexes Eq (Lex.checkName m) (Lex.checkName n) := by
  have hLength : m.length = n.length := hNamed.stretch.length_eq
  unfold Lex.checkName
  rw [hNamed.prefix_eq, hLength]
  refine Simulates.bind_eq (lexes_look fun _ _ hLexers => hLexers.length_eq _) fun _ => ?_
  refine Simulates.bind_eq (lexes_look fun _ _ hLexers => hLexers.length_eq _) fun _ => ?_
  exact lexes_requireAt hNamed.stretch.begins _ _

theorem Lexers.nameField_eq {s s' : Lexer} (hLexers : v.Lexers s s') (hNamed : v.Named m n) :
    Lex.nameField s m = Lex.nameField s' n := by
  have hLength : m.length = n.length := hNamed.stretch.length_eq
  unfold Lex.nameField
  rw [hNamed.prefix_eq, hLength, hLexers.length_eq, hLexers.length_eq]

theorem lexes_emitName (kind : TokenKind) (hNamed : v.Named m n) :
    v.Lexes Eq (Lex.emitName kind m) (Lex.emitName kind n) := by
  refine (lexes_checkName hNamed).bind_eq fun _ => ?_
  refine lexes_update fun s s' hLexers => { hLexers with draft := ?_ }
  have hPlace : v.Place m.offset n.offset := hNamed.stretch.begins
  simp only
  rw [hLexers.depth_eq, hLexers.units_eq hPlace, hLexers.nameField_eq hNamed]
  exact hLexers.draft.write ⟨kind, _, _, _⟩

theorem lexes_emitElement (hNamed : v.Named m n) :
    v.Lexes Eq (Lex.emitElement m) (Lex.emitElement n) := by
  refine (lexes_checkName hNamed).bind_eq fun _ => ?_
  refine lexes_update fun s s' hLexers => { hLexers with draft := ?_ }
  have hPlace : v.Place m.offset n.offset := hNamed.stretch.begins
  simp only
  rw [hLexers.depth_eq, hLexers.units_eq hPlace, hLexers.nameField_eq hNamed]
  exact hLexers.draft.writeElement _ _ _

theorem lexes_emitSpace {place place' stop stop' : Nat} (hPlace : v.Place place place')
    (hStop : v.Place stop stop') :
    v.Lexes Eq (Lex.emitSpace place stop) (Lex.emitSpace place' stop') := by
  refine Simulates.bind_eq (lexes_look fun s s' hLexers => ?_) fun wanted => ?_
  · have hOrder : place < stop ↔ place' < stop' := by
      rw [hPlace.eq, hStop.eq, Nat.add_lt_add_iff_left]
    simp only [hLexers.recordWhitespace_eq, hLexers.isEmpty_eq, hOrder]
  · exact .ite (lexes_emitText _ hPlace (hPlace.sub_eq hStop)) (simulates_pure rfl)

end Writing
end Overlay
end XmlIndex
