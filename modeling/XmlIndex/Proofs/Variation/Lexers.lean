import XmlIndex.Proofs.Token.Spacing
import XmlIndex.Proofs.Translation.Range
import XmlIndex.Proofs.Variation.Legibility

/-! # One document under two settings

Two lexers over one document differ in one respect: where the document ends, whether namespaces matter, or
whether space between markup is recorded. They stay side by side, action by action; only the first may fail
alone, and only for what they differ in.
-/
namespace XmlIndex
set_option autoImplicit false
open Grammar

/-- What sets the second lexer apart: its document goes on, it leaves namespaces alone, or it records space. -/
inductive Variation where
  | extent
  | namespaces
  | whitespace
  deriving DecidableEq

/-- The token is some of a run of space before markup. The run begins with a unit if the document does. -/
def Cursor.Blank (c : Cursor) (t : Token) : Prop :=
  ∃ place before piece after, IsSpace (before ++ (piece ++ after)) ∧ piece ≠ [] ∧
    c.ReadsAt place (before ++ (piece ++ (after ++ [CodePoint.lessThan]))) ∧
    (c.encoding.unitSize ∣ c.start → c.encoding.unitSize ∣ place) ∧ t.kind = .characterData ∧
    t.offset = (place + c.encoding.size before) / c.encoding.unitSize ∧
    t.lengthField = c.encoding.size piece / c.encoding.unitSize

namespace Variation
variable {v : Variation}

def alone : Variation → Fault → Prop
  | .extent, fault => fault.IsUnfinished
  | .namespaces, fault => fault.IsNamespace
  | .whitespace, _ => False

structure Cursors (v : Variation) (c d : Cursor) : Prop where
  eq : d = c.upTo d.stop
  stop_le : c.stop ≤ d.stop
  stop_eq : v ≠ .extent → d.stop = c.stop

/-- Two lexers side by side. From the first markup on the encoding stays, and a cursor in it, the frame,
tells what the first lexer has read; before, there are no scopes and no space is recorded. -/
structure Lexers (v : Variation) (frame : Option Cursor) (s t : Lexer) : Prop where
  cursors : v.Cursors s.cursor t.cursor
  framed : ∀ c ∈ frame, c.Moved s.cursor
  aligned : s.cursor.encoding.unitSize ∣ s.cursor.start → s.cursor.encoding.unitSize ∣ s.cursor.offset
  whole : ∀ name ∈ s.openTags, s.cursor.encoding.unitSize ∣ name.length
  mark_eq : t.mark = s.mark
  openTags_eq : t.openTags = s.openTags
  attributes_eq : t.attributes = s.attributes
  maxDepth_eq : t.maxDepth = s.maxDepth
  hasDoctype_eq : t.hasDoctype = s.hasDoctype
  scopes_eq : v ≠ .namespaces → t.namespaces = s.namespaces ∧ t.scopes = s.scopes
  legible : v = .namespaces → s.namespaces = true ∧ t.namespaces = false ∧ ∀ c ∈ frame, s.scopes.Legible c
  draft_eq : v ≠ .whitespace → t.recordWhitespace = s.recordWhitespace ∧ t.draft = s.draft
  spaced : v = .whitespace → s.recordWhitespace = false ∧ t.recordWhitespace = true ∧
    ∀ c ∈ frame, Spaced c.Blank s.tokens t.tokens
  begins : frame = none → s.scopes = {} ∧ t.tokens = s.tokens
  fits : ∀ e : Encoding, e.unitSize = s.cursor.encoding.unitSize → t.cursor.stop < sizeLimit e s.namespaces

/-- Both succeed with related results, or both fail with one fault at one place; the first may fail alone. -/
def Outcome {α β : Type} (v : Variation) (R : α → β → Lexer → Lexer → Prop) :
    EStateM.Result Fault Lexer α → EStateM.Result Fault Lexer β → Prop
  | .ok a s, .ok b t => R a b s t
  | .error fault s, .error fault' t => v.alone fault ∨ fault' = fault ∧ v.Cursors s.cursor t.cursor
  | .error fault _, .ok _ _ => v.alone fault
  | .ok _ _, .error _ _ => False

def Follows {α : Type} (v : Variation) (frame : Option Cursor) (R : α → Lexer → Lexer → Prop) (action : Lex α) : Prop :=
  ∀ s t, v.Lexers frame s t → v.Outcome (fun a b s' t' => b = a ∧ R a s' t') (action s) (action t)

abbrev Tracks {α : Type} (v : Variation) (frame : Option Cursor) (action : Lex α) : Prop :=
  v.Follows frame (fun _ => v.Lexers frame) action

section
variable {α β γ δ : Type} {frame : Option Cursor} {s t : Lexer}

theorem Outcome.mono {R P : α → β → Lexer → Lexer → Prop} {r : EStateM.Result Fault Lexer α}
    {r' : EStateM.Result Fault Lexer β} (hOutcome : v.Outcome R r r') (hMono : ∀ a b s t, R a b s t → P a b s t) :
    v.Outcome P r r' := by
  cases r <;> cases r'
  case ok.ok => exact hMono _ _ _ _ hOutcome
  all_goals exact hOutcome

theorem outcome_of_alone {R : α → β → Lexer → Lexer → Prop} {fault : Fault} (hAlone : v.alone fault)
    (r : EStateM.Result Fault Lexer β) : v.Outcome R (.error fault s) r := by
  cases r
  · exact hAlone
  · exact .inl hAlone

theorem Outcome.exists_ok {R : α → β → Lexer → Lexer → Prop} {a : α} {r : EStateM.Result Fault Lexer β}
    (hOutcome : v.Outcome R (.ok a s) r) : ∃ b t, r = .ok b t ∧ R a b s t := by
  cases r with
  | ok b t => exact ⟨b, t, rfl, hOutcome⟩
  | error fault t => exact hOutcome.elim

/-- When the first has failed, it does not matter what the second would do next. -/
theorem Outcome.bind_of_error {R : α → β → Lexer → Lexer → Prop} {P : γ → δ → Lexer → Lexer → Prop} {fault : Fault}
    {action : Lex β} {next : β → Lex δ} (hFirst : v.Outcome R (.error fault s) (action t)) :
    v.Outcome P (.error fault s) ((action >>= next) t) := by
  cases hLong : action t with
  | ok b t' =>
    rw [hLong] at hFirst
    exact outcome_of_alone hFirst _
  | error fault' t' =>
    rw [hLong] at hFirst
    rw [Lex.bind_of_error hLong]
    exact hFirst

theorem Outcome.bind {R : α → β → Lexer → Lexer → Prop} {P : γ → δ → Lexer → Lexer → Prop} {action : Lex α}
    {action' : Lex β} {next : α → Lex γ} {next' : β → Lex δ} (hFirst : v.Outcome R (action s) (action' t))
    (hNext : ∀ a b s' t', action s = .ok a s' → R a b s' t' → v.Outcome P (next a s') (next' b t')) :
    v.Outcome P ((action >>= next) s) ((action' >>= next') t) := by
  cases hShort : action s with
  | ok a s' =>
    rw [hShort] at hFirst
    obtain ⟨b, t', hLong, hBoth⟩ := hFirst.exists_ok
    rw [Lex.bind_of_ok hShort, Lex.bind_of_ok hLong]
    exact hNext a b s' t' hShort hBoth
  | error fault s' =>
    rw [hShort] at hFirst
    rw [Lex.bind_of_error hShort]
    exact hFirst.bind_of_error

theorem Follows.outcome {R : α → Lexer → Lexer → Prop} {action : Lex α} (hAction : v.Follows frame R action)
    (hLexers : v.Lexers frame s t) : v.Outcome (fun a b s t => b = a ∧ R a s t) (action s) (action t) :=
  hAction s t hLexers

/-- What follows may use what the first action has done. -/
theorem Follows.bind_ok {R : α → Lexer → Lexer → Prop} {P : β → Lexer → Lexer → Prop} {action : Lex α}
    {next : α → Lex β} (hAction : v.Follows frame R action) (hLexers : v.Lexers frame s t)
    (hNext : ∀ a s' t', action s = .ok a s' → R a s' t' →
      v.Outcome (fun a b s t => b = a ∧ P a s t) (next a s') (next a t')) :
    v.Outcome (fun a b s t => b = a ∧ P a s t) ((action >>= next) s) ((action >>= next) t) := by
  refine (hAction s t hLexers).bind fun a b s' t' hOk hBoth => ?_
  obtain ⟨rfl, hR⟩ := hBoth
  exact hNext _ s' t' hOk hR

theorem Tracks.bind {P : β → Lexer → Lexer → Prop} {action : Lex α} {next : α → Lex β} (hAction : v.Tracks frame action)
    (hNext : ∀ a, v.Follows frame P (next a)) : v.Follows frame P (action >>= next) :=
  fun _ _ hLexers => Follows.bind_ok hAction hLexers fun a _ _ _ hLater => hNext a _ _ hLater

theorem Follows.ite {R : α → Lexer → Lexer → Prop} {condition : Prop} [Decidable condition] {yes no : Lex α}
    (hYes : v.Follows frame R yes) (hNo : v.Follows frame R no) :
    v.Follows frame R (if condition then yes else no) := by
  split
  · exact hYes
  · exact hNo

theorem Outcome.map {R : α → Lexer → Lexer → Prop} {P : β → Lexer → Lexer → Prop} {action : Lex α} {f : α → β}
    (hAction : v.Outcome (fun a b s t => b = a ∧ R a s t) (action s) (action t))
    (hMono : ∀ a s t, R a s t → P (f a) s t) :
    v.Outcome (fun a b s t => b = a ∧ P a s t) ((f <$> action) s) ((f <$> action) t) := by
  change v.Outcome _ (EStateM.map f action s) (EStateM.map f action t)
  unfold EStateM.map
  cases hShort : action s <;> cases hLong : action t <;> rw [hShort, hLong] at hAction
  case ok.ok => exact ⟨congrArg f hAction.1, hMono _ _ _ hAction.2⟩
  all_goals exact hAction

theorem tracks_pure (a : α) : v.Tracks frame (pure a) :=
  fun _ _ hLexers => ⟨rfl, hLexers⟩

theorem follows_throw {R : α → Lexer → Lexer → Prop} (fault : Fault) : v.Follows frame R (throw fault) :=
  fun _ _ hLexers => .inr ⟨rfl, hLexers.cursors⟩

theorem follows_fail {R : α → Lexer → Lexer → Prop} (cause : SyntaxFault) : v.Follows frame R (Lex.fail cause) :=
  follows_throw _

theorem tracks_require (condition : Bool) (cause : SyntaxFault) : v.Tracks frame (Lex.require condition cause) :=
  .ite (tracks_pure ()) (follows_throw _)

theorem tracks_requireAt (place : Nat) (condition : Bool) (cause : SyntaxFault) :
    v.Tracks frame (Lex.requireAt place condition cause) :=
  .ite (tracks_pure ()) (follows_throw _)

theorem tracks_look {view : Lexer → α} (hView : ∀ s t, v.Lexers frame s t → view t = view s) :
    v.Tracks frame (Lex.look view) :=
  fun s t hLexers => ⟨hView s t hLexers, hLexers⟩

theorem tracks_update {change : Lexer → Lexer}
    (hChange : ∀ s t, v.Lexers frame s t → v.Lexers frame (change s) (change t)) : v.Tracks frame (Lex.update change) :=
  fun s t hLexers => ⟨rfl, hChange s t hLexers⟩

end

section
variable {α : Type} {frame : Option Cursor} {s t : Lexer}

theorem Cursors.refl (c : Cursor) : v.Cursors c c :=
  ⟨rfl, Nat.le_refl _, fun _ => rfl⟩

theorem Cursors.moved {c d c' : Cursor} (hCursors : v.Cursors c d) (hMoved : c.Moved c') :
    v.Cursors c' (c'.upTo d.stop) where
  eq := rfl
  stop_le := hMoved.stop_eq ▸ hCursors.stop_le
  stop_eq hSame := hMoved.stop_eq ▸ hCursors.stop_eq hSame

theorem Cursors.eq_of_ne {c d : Cursor} (hCursors : v.Cursors c d) (hSame : v ≠ .extent) : d = c := by
  rw [hCursors.eq, hCursors.stop_eq hSame]
  rfl

theorem Lexers.encoding_eq (hLexers : v.Lexers frame s t) : t.cursor.encoding = s.cursor.encoding := by
  rw [hLexers.cursors.eq]
  rfl

theorem Lexers.doc_eq (hLexers : v.Lexers frame s t) : t.cursor.doc = s.cursor.doc := by
  rw [hLexers.cursors.eq]
  rfl

theorem Lexers.units_eq (hLexers : v.Lexers frame s t) (bytes : Nat) : t.units bytes = s.units bytes := by
  rw [Lexer.units, hLexers.encoding_eq]
  rfl

theorem Lexers.depth_eq (hLexers : v.Lexers frame s t) : t.depth = s.depth := by
  rw [Lexer.depth, hLexers.openTags_eq]
  rfl

theorem Lexers.moved {c : Cursor} (hLexers : v.Lexers frame s t) (hMoved : s.cursor.Moved c) :
    v.Lexers frame { s with cursor := c } { t with cursor := c.upTo t.cursor.stop } :=
  { hLexers with
    cursors := hLexers.cursors.moved hMoved
    framed := fun c hc => (hLexers.framed c hc).trans hMoved
    aligned := fun hUnit => by
      rw [hMoved.start_eq, hMoved.encoding_eq] at hUnit
      rw [hMoved.encoding_eq]
      exact hMoved.aligned (hLexers.aligned hUnit)
    whole := fun name hName => by
      rw [hMoved.encoding_eq]
      exact hLexers.whole name hName
    fits := fun e hUnit => hLexers.fits e (by rwa [hMoved.encoding_eq] at hUnit) }

/-- Where the cursors agree, the lexers do. -/
theorem Lexers.outcome_read {action : Scan α} (hLexers : v.Lexers frame s t)
    (hAgrees : Scan.Agrees s.cursor t.cursor.stop (action s.cursor) (action t.cursor)) :
    v.Outcome (fun a b s t => b = a ∧ v.Lexers frame s t) (Lex.read action s) (Lex.read action t) := by
  unfold Lex.read
  cases hShort : action s.cursor with
  | ok a c =>
    rw [hShort] at hAgrees
    rw [hAgrees.2]
    exact ⟨rfl, hLexers.moved hAgrees.1⟩
  | error fault c =>
    rw [hShort] at hAgrees
    obtain ⟨hMoved, hUnfinished | hLonger⟩ := hAgrees
    · by_cases hExtent : v = .extent
      · have hAlone : v.alone fault := hExtent ▸ hUnfinished
        exact outcome_of_alone hAlone _
      · rw [hLexers.cursors.eq_of_ne hExtent, hShort]
        exact .inr ⟨rfl, .refl c⟩
    · rw [hLonger]
      exact .inr ⟨rfl, hLexers.cursors.moved hMoved⟩

theorem tracks_read {action : Scan α} (hSteady : Scan.Steady action) : v.Tracks frame (Lex.read action) := by
  intro s t hLexers
  have hAgrees := hSteady s.cursor t.cursor.stop hLexers.cursors.stop_le
  rw [← hLexers.cursors.eq] at hAgrees
  exact hLexers.outcome_read hAgrees

theorem tracks_offset : v.Tracks frame (Lex.read Scan.offset) :=
  tracks_read Scan.steady_offset

theorem tracks_last : v.Tracks frame (Lex.read Scan.last) :=
  tracks_read Scan.steady_last

theorem tracks_next : v.Tracks frame (Lex.read Scan.next) :=
  tracks_read Scan.steady_next

theorem tracks_skip (expected : CodePoint) : v.Tracks frame (Lex.read (Scan.skip expected)) :=
  tracks_read (Scan.steady_skip expected)

theorem tracks_skipAll (expected : List CodePoint) : v.Tracks frame (Lex.read (Scan.skipAll expected)) :=
  tracks_read (Scan.steady_skipAll expected)

theorem tracks_nextAfterSpace : v.Tracks frame (Lex.read Scan.nextAfterSpace) :=
  tracks_read Scan.steady_nextAfterSpace

theorem tracks_outsideRoot : v.Tracks frame Lex.outsideRoot :=
  tracks_look fun _ _ hLexers => congrArg List.isEmpty hLexers.openTags_eq

theorem tracks_unitSize : v.Tracks frame Lex.unitSize :=
  tracks_look fun _ _ hLexers => congrArg Encoding.unitSize hLexers.encoding_eq

end

section
variable {frame : Option Cursor} {s t : Lexer} {tokens : List Token}

theorem Lexers.write (hLexers : v.Lexers frame s t) (change : Draft → Draft)
    (hWrites : ∀ d, (change d).tokens.toList = d.tokens.toList ++ tokens) :
    v.Lexers frame { s with draft := change s.draft } { t with draft := change t.draft } :=
  { hLexers with
    draft_eq := fun hSame => (hLexers.draft_eq hSame).imp_right (congrArg change)
    spaced := fun hSpace => (hLexers.spaced hSpace).imp_right fun h => h.imp_right fun hAll c hc => by
      rw [Lexer.tokens, Lexer.tokens, hWrites, hWrites]
      exact (hAll c hc).append (.refl tokens)
    begins := fun hNone => (hLexers.begins hNone).imp_right fun hTokens => by
      rw [Lexer.tokens, Lexer.tokens, hWrites, hWrites]
      exact congrArg (· ++ tokens) hTokens }

theorem tracks_emit (kind : TokenKind) (span : Span) : v.Tracks frame (Lex.emit kind span) := by
  refine tracks_update fun s t hLexers => ?_
  simp only
  rw [hLexers.depth_eq, hLexers.units_eq, hLexers.units_eq]
  exact hLexers.write (·.write _) fun d => by rw [Draft.write_eq, Draft.toList_append]

theorem tracks_emitBounded (kind : TokenKind) (span : Span) : v.Tracks frame (Lex.emitBounded kind span) := by
  have hLength : v.Tracks frame (Lex.look (·.units span.length)) :=
    tracks_look fun _ _ hLexers => hLexers.units_eq _
  exact hLength.bind fun _ => (tracks_requireAt _ _ _).bind fun _ => tracks_emit kind span

theorem tracks_emitText (kind : TokenKind) (span : Span) : v.Tracks frame (Lex.emitText kind span) := by
  refine tracks_update fun s t hLexers => ?_
  simp only
  rw [hLexers.depth_eq, hLexers.units_eq, hLexers.units_eq]
  exact hLexers.write (·.writeText kind _ _ _) fun d => by rw [Draft.writeText_eq, Draft.toList_append]

theorem tracks_checkName (name : Name) : v.Tracks frame (Lex.checkName name) := by
  have hLength (bytes : Nat) : v.Tracks frame (Lex.look (·.units bytes)) :=
    tracks_look fun _ _ hLexers => hLexers.units_eq _
  exact (hLength _).bind fun _ => (hLength _).bind fun _ => tracks_requireAt _ _ _

theorem Lexers.nameField_eq (hLexers : v.Lexers frame s t) (name : Name) : Lex.nameField t name = Lex.nameField s name := by
  rw [Lex.nameField, hLexers.units_eq, hLexers.units_eq]
  rfl

theorem tracks_emitName (kind : TokenKind) (name : Name) : v.Tracks frame (Lex.emitName kind name) := by
  refine (tracks_checkName name).bind fun _ => tracks_update fun s t hLexers => ?_
  simp only
  rw [hLexers.depth_eq, hLexers.units_eq, hLexers.nameField_eq]
  exact hLexers.write (·.write _) fun d => by rw [Draft.write_eq, Draft.toList_append]

theorem tracks_emitElement (name : Name) : v.Tracks frame (Lex.emitElement name) := by
  refine (tracks_checkName name).bind fun _ => tracks_update fun s t hLexers => ?_
  simp only
  rw [hLexers.depth_eq, hLexers.units_eq, hLexers.nameField_eq]
  exact hLexers.write (·.writeElement _ _ _) fun d => by
    rw [Draft.writeElement, Draft.tokens_recordElement, Draft.write_eq, Draft.toList_append]

end
end Variation
end XmlIndex
