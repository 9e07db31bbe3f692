import XmlIndex.Proofs.Guarded.Lexer

/-! # Safe lexers

A lexer is safe if its cursor is in a range of the buffer, few enough elements are open, and the names it
remembers end before the range does. The actions of the lexer keep it safe, and those that fail leave the
range as it is.
-/
namespace XmlIndex
set_option autoImplicit false

structure Cursor.SameRange (c c' : Cursor) : Prop where
  doc_eq : c'.doc = c.doc
  start_eq : c'.start = c.start
  stop_eq : c'.stop = c.stop

theorem Cursor.Moved.sameRange {c c' : Cursor} (hMoved : c.Moved c') : c.SameRange c' :=
  ⟨hMoved.doc_eq, hMoved.start_eq, hMoved.stop_eq⟩

theorem Cursor.SameRange.trans {c c' c'' : Cursor} (hFirst : c.SameRange c') (hSecond : c'.SameRange c'') :
    c.SameRange c'' :=
  ⟨hSecond.doc_eq.trans hFirst.doc_eq, hSecond.start_eq.trans hFirst.start_eq, hSecond.stop_eq.trans hFirst.stop_eq⟩

def Span.Within (stop : Nat) (span : Span) : Prop :=
  span.offset + span.length ≤ stop

namespace Guarded

/-- The lexer reads the range of `c` and has come to `least` or further; its encoding may be known. -/
structure Safe (least : Nat) (c : Cursor) (known : Option Encoding) (s : Lexer) : Prop where
  range : c.SameRange s.cursor
  encoding_eq : ∀ e ∈ known, s.cursor.encoding = e
  start_le : c.start ≤ c.stop
  stop_le : c.stop ≤ c.doc.size
  least_le : least ≤ s.cursor.offset
  offset_le : s.cursor.offset ≤ c.stop
  opened : s.openTags.length ≤ Token.maxDepth + 1
  openTags : ∀ span ∈ s.openTags, span.Within c.stop
  attributes : ∀ span ∈ s.attributes, span.Within c.stop
  scopes : s.scopes.Within c.stop

def Settled {α : Type} (c : Cursor) (known : Option Encoding) (least : Nat) : EStateM.Result Fault Lexer α → Prop
  | .ok _ s => Safe least c known s
  | .error _ s => c.SameRange s.cursor

/-- From a safe lexer the action comes to a safe one, which is further on if `least'` is. -/
def Settles {α : Type} (c : Cursor) (known : Option Encoding) (least least' : Nat) (action : Lex α) : Prop :=
  ∀ s, Safe least c known s → Settled c known least' (action s)

section
variable {α β : Type} {c : Cursor} {known : Option Encoding} {least least' least'' : Nat} {s s' : Lexer}

theorem Safe.mono (hSafe : Safe least c known s) (hLe : least' ≤ least) : Safe least' c known s :=
  { hSafe with least_le := Nat.le_trans hLe hSafe.least_le }

theorem Safe.here (hSafe : Safe least c known s) : Safe s.cursor.offset c known s :=
  { hSafe with least_le := Nat.le_refl _ }

theorem Safe.know (hSafe : Safe least c known s) : Safe least c (some s.cursor.encoding) s :=
  { hSafe with encoding_eq := fun _ hKnown => Option.some.inj hKnown }

theorem Safe.stop_le_size (hSafe : Safe least c known s) : s.cursor.stop ≤ s.cursor.doc.size := by
  rw [hSafe.range.stop_eq, hSafe.range.doc_eq]
  exact hSafe.stop_le

theorem Settles.ok {action : Lex α} {a : α} (hSettles : Settles c known least least' action)
    (hSafe : Safe least c known s) (hOk : action s = .ok a s') : Safe least' c known s' := by
  have hResult := hSettles s hSafe
  rw [hOk] at hResult
  exact hResult

theorem Settles.error {action : Lex α} {fault : Fault} (hSettles : Settles c known least least' action)
    (hSafe : Safe least c known s) (hError : action s = .error fault s') : c.SameRange s'.cursor := by
  have hResult := hSettles s hSafe
  rw [hError] at hResult
  exact hResult

theorem settles_pure (a : α) : Settles c known least least (pure a) :=
  fun _ hSafe => hSafe

theorem settles_throw (fault : Fault) : Settles c known least least' (throw fault : Lex α) :=
  fun _ hSafe => hSafe.range

theorem Settles.bind {action : Lex α} {next : α → Lex β} (hAction : Settles c known least least' action)
    (hNext : ∀ a, Settles c known least' least'' (next a)) : Settles c known least least'' (action >>= next) := by
  intro s hSafe
  cases hResult : action s with
  | ok a s' =>
    rw [bind_eq_of_ok hResult]
    exact hNext a s' (hAction.ok hSafe hResult)
  | error fault s' =>
    rw [bind_eq_of_error hResult]
    exact hAction.error hSafe hResult

theorem Settles.ite {condition : Prop} [Decidable condition] {yes no : Lex α} (hYes : Settles c known least least' yes)
    (hNo : Settles c known least least' no) : Settles c known least least' (if condition then yes else no) := by
  split
  · exact hYes
  · exact hNo

theorem Settles.mono {action : Lex α} (hAction : Settles c known least least' action) (hLe : least'' ≤ least') :
    Settles c known least least'' action := by
  intro s hSafe
  have hResult := hAction s hSafe
  cases hOk : action s <;> rw [hOk] at hResult
  · exact hResult.mono hLe
  · exact hResult

theorem settles_require (condition : Bool) (cause : SyntaxFault) :
    Settles c known least least (Lex.require condition cause) :=
  .ite (settles_pure _) (settles_throw _)

theorem settles_requireAt (place : Nat) (condition : Bool) (cause : SyntaxFault) :
    Settles c known least least (Lex.requireAt place condition cause) :=
  .ite (settles_pure _) (settles_throw _)

theorem settles_look (view : Lexer → α) : Settles c known least least (Lex.look view) :=
  fun _ hSafe => hSafe

/-- What is looked up is known to what follows. -/
theorem settles_look_bind {view : Lexer → α} {next : α → Lex β}
    (hNext : ∀ s, Safe least c known s → Settled c known least' (next (view s) s)) :
    Settles c known least least' (Lex.look view >>= next) :=
  hNext

theorem settles_unitSize : Settles c known least least Lex.unitSize :=
  settles_look _

theorem settles_update {change : Lexer → Lexer} (hChange : ∀ s, Safe least c known s → Safe least c known (change s)) :
    Settles c known least least (Lex.update change) :=
  hChange

theorem moved_of_steady {action : Scan α} (hSteady : Scan.Steady action) (c : Cursor) :
    match action c with
    | .ok _ c' => c.Moved c'
    | .error _ c' => c.Moved c' := by
  have hBoth := hSteady c c.stop (Nat.le_refl _)
  cases hResult : action c <;> rw [hResult] at hBoth <;> exact hBoth.1

/-- The lexer moved on within its range. -/
theorem Safe.read {cursor : Cursor} (hSafe : Safe least c known s) (hRange : s.cursor.SameRange cursor)
    (hEncoding : cursor.encoding = s.cursor.encoding) (hLeast : least' ≤ cursor.offset)
    (hOffset : cursor.offset ≤ cursor.stop) : Safe least' c known { s with cursor } :=
  { hSafe with
    range := hSafe.range.trans hRange
    encoding_eq := fun e hKnown => hEncoding.trans (hSafe.encoding_eq e hKnown)
    least_le := hLeast
    offset_le := by
      rw [← hSafe.range.stop_eq, ← hRange.stop_eq]
      exact hOffset }

theorem Safe.offset_le_stop (hSafe : Safe least c known s) : s.cursor.offset ≤ s.cursor.stop := by
  rw [hSafe.range.stop_eq]
  exact hSafe.offset_le

theorem settles_read {action : Scan α} (hSteady : Scan.Steady action) (hForward : Scan.Forward action) :
    Settles c known least least (Lex.read action) := by
  intro s hSafe
  have hMoved := moved_of_steady hSteady s.cursor
  unfold Lex.read
  cases hResult : action s.cursor with
  | ok a cursor =>
    rw [hResult] at hMoved
    have hReaches := hForward _ _ _ hResult
    exact hSafe.read hMoved.sameRange hMoved.encoding_eq (Nat.le_trans hSafe.least_le hReaches.offset_le)
      (hReaches.offset_le_stop hSafe.offset_le_stop)
  | error fault cursor =>
    rw [hResult] at hMoved
    exact hSafe.range.trans hMoved.sameRange

theorem settles_read_progressive {action : Scan α} (hSteady : Scan.Steady action)
    (hProgressive : Scan.Progressive action) : Settles c known least (least + 1) (Lex.read action) := by
  intro s hSafe
  have hMoved := moved_of_steady hSteady s.cursor
  unfold Lex.read
  cases hResult : action s.cursor with
  | ok a cursor =>
    rw [hResult] at hMoved
    have hAdvances := hProgressive _ _ _ hResult
    exact hSafe.read hMoved.sameRange hMoved.encoding_eq (Nat.lt_of_le_of_lt hSafe.least_le hAdvances.offset_lt)
      hAdvances.offset_le
  | error fault cursor =>
    rw [hResult] at hMoved
    exact hSafe.range.trans hMoved.sameRange

theorem settles_ask (question : Cursor → Except Fault α) :
    Settles c known least least (Lex.read (Scan.ask question)) := by
  intro s hSafe
  unfold Lex.read Scan.ask
  cases question s.cursor with
  | ok a => exact hSafe
  | error fault => exact hSafe.range

theorem settles_spells (span : Span) (text : String) : Settles c known least least (Lex.spells span text) :=
  settles_ask _

theorem settles_offset : Settles c known least least (Lex.read Scan.offset) :=
  settles_read Scan.steady_offset Scan.forward_offset

theorem settles_last : Settles c known least least (Lex.read Scan.last) :=
  settles_read Scan.steady_last Scan.forward_last

theorem settles_next : Settles c known least (least + 1) (Lex.read Scan.next) :=
  settles_read_progressive Scan.steady_next Scan.progressive_next

theorem settles_nextAfterSpace : Settles c known least (least + 1) (Lex.read Scan.nextAfterSpace) :=
  settles_read_progressive Scan.steady_nextAfterSpace (Scan.progressive_nextAfter _)

theorem settles_drive {σ : Type} (machine : Automaton σ α) (state : σ) :
    Settles c known least (least + 1) (Lex.read (Scan.drive machine state)) :=
  settles_read_progressive (Scan.steady_drive _ _) (Scan.progressive_drive _ _)

theorem settles_skip (expected : CodePoint) : Settles c known least least (Lex.read (Scan.skip expected)) :=
  settles_read (Scan.steady_skip _) (Scan.forward_skip _)

theorem settles_skipAll (expected : List CodePoint) : Settles c known least least (Lex.read (Scan.skipAll expected)) :=
  settles_read (Scan.steady_skipAll _) (Scan.forward_skipAll _)

theorem settles_skipAgain (place length : Nat) :
    Settles c known least least (Lex.read (Scan.skipAgain place length)) := by
  intro s hSafe
  unfold Lex.read
  cases hResult : Scan.skipAgain place length s.cursor with
  | ok same cursor =>
    have hReaches := Scan.forward_skipAgain _ _ _ _ _ hResult
    refine hSafe.read ⟨hReaches.doc_eq, hReaches.start_eq, hReaches.stop_eq⟩ ?_
      (Nat.le_trans hSafe.least_le hReaches.offset_le) (hReaches.offset_le_stop hSafe.offset_le_stop)
    unfold Scan.skipAgain at hResult
    repeat' split at hResult
    all_goals cases hResult
    all_goals rfl
  | error fault cursor =>
    unfold Scan.skipAgain at hResult
    repeat' split at hResult
    all_goals cases hResult
    exact hSafe.range

/-- A change of the draft. -/
theorem Safe.write (hSafe : Safe least c known s) (draft : Draft) : Safe least c known { s with draft } :=
  { hSafe with }

theorem settles_emit (kind : TokenKind) (span : Span) : Settles c known least least (Lex.emit kind span) :=
  settles_update fun _ hSafe => hSafe.write _

theorem settles_emitBounded (kind : TokenKind) (span : Span) : Settles c known least least (Lex.emitBounded kind span) :=
  (settles_look _).bind fun _ => (settles_requireAt _ _ _).bind fun _ => settles_emit _ _

theorem settles_emitText (kind : TokenKind) (span : Span) : Settles c known least least (Lex.emitText kind span) :=
  settles_update fun _ hSafe => hSafe.write _

theorem settles_emitUnits (kind : TokenKind) (place count : Nat) :
    Settles c known least least (Lex.emitUnits kind place count) :=
  settles_unitSize.bind fun _ => settles_emit _ _

theorem settles_emitSpace (place stop : Nat) : Settles c known least least (Lex.emitSpace place stop) :=
  (settles_look _).bind fun _ => .ite (settles_emitText _ _) (settles_pure _)

theorem settles_checkName (name : Name) : Settles c known least least (Lex.checkName name) :=
  (settles_look _).bind fun _ => (settles_look _).bind fun _ => settles_requireAt _ _ _

theorem settles_emitName (kind : TokenKind) (name : Name) : Settles c known least least (Lex.emitName kind name) :=
  (settles_checkName _).bind fun _ => settles_update fun _ hSafe => hSafe.write _

theorem settles_emitElement (name : Name) : Settles c known least least (Lex.emitElement name) :=
  (settles_checkName _).bind fun _ => settles_update fun _ hSafe => hSafe.write _

end

section
variable {c : Cursor} {known : Option Encoding} {least : Nat} {name : Name}

/-- The parts of a name end before the range does. -/
theorem prefixed_within {stop unitSize : Nat} (hName : name.Within stop unitSize) (hPrefix : name.prefixLength ≠ 0) :
    (name.toPrefixed unitSize).Within stop := by
  have hEnd := hName.end_le
  have hColon := hName.prefix_le hPrefix
  unfold Name.toPrefixed Name.localSpan
  exact ⟨by simp only; omega, by simp only; omega⟩

theorem span_within {stop unitSize : Nat} (hName : name.Within stop unitSize) : name.span.Within stop :=
  hName.end_le

theorem settles_closeScope : Settles c known least least Lex.closeScope := by
  intro s hSafe
  unfold Lex.closeScope
  split
  · split
    · exact { hSafe with scopes := hSafe.scopes.close ‹_› }
    · exact hSafe.range
  · exact hSafe

theorem settles_popTag : Settles c known least least (Lex.update fun s => { s with openTags := s.openTags.tail }) :=
  settles_update fun s hSafe =>
    { hSafe with
      opened := by
        have hOpened := hSafe.opened
        rw [List.length_tail]
        omega
      openTags := fun span hMem => hSafe.openTags span (List.mem_of_mem_tail hMem) }

theorem settles_checkElementPrefix : Settles c known least least (Lex.checkElementPrefix name) :=
  (settles_look _).bind fun _ => .ite ((settles_spells _ _).bind fun _ => settles_requireAt _ _ _) (settles_pure _)

theorem settles_openElement {unitSize : Nat} (hName : name.Within c.stop unitSize) :
    Settles c known least least (Lex.openElement name) := by
  refine settles_look_bind fun s hSafe => ?_
  unfold Lex.requireAt
  split
  · rename_i hDepth
    exact
      { hSafe with
        opened := Nat.succ_le_succ (of_decide_eq_true hDepth)
        openTags := List.forall_mem_cons.mpr ⟨span_within hName, hSafe.openTags⟩
        attributes := nofun }
  · exact hSafe.range

theorem settles_enterScope {e : Encoding} (hName : name.Within c.stop e.unitSize) :
    Settles c (some e) least least (Lex.enterScope name) := by
  refine (settles_look _).bind fun _ => .ite (settles_look_bind fun s hSafe => ?_) (settles_pure _)
  refine { hSafe with scopes := hSafe.scopes.enter ?_ }
  rw [hSafe.encoding_eq e rfl]
  split
  · exact nofun
  · rintro prefixed ⟨⟩
    exact prefixed_within hName ‹_›

theorem settles_settleRole (role : AttributeRole) : Settles c known least least (Lex.settleRole role name) :=
  (settles_look _).bind fun _ =>
    .ite
      (settles_unitSize.bind fun _ => (settles_spells _ _).bind fun _ => (settles_requireAt _ _ _).bind fun _ =>
        (settles_spells _ _).bind fun _ => .ite (settles_pure _) (settles_pure _))
      (settles_pure _)

theorem settles_addAttribute {unitSize : Nat} (hName : name.Within c.stop unitSize) :
    Settles c known least least (Lex.addAttribute name) :=
  (settles_look _).bind fun _ => (settles_requireAt _ _ _).bind fun _ => settles_update fun _ hSafe =>
    { hSafe with attributes := List.forall_mem_cons.mpr ⟨span_within hName, hSafe.attributes⟩ }

theorem settles_noteAttribute {e : Encoding} (role : AttributeRole) (hName : name.Within c.stop e.unitSize) :
    Settles c (some e) least least (Lex.noteAttribute role name) := by
  refine settles_look_bind fun s hSafe => ?_
  split
  · rename_i hPrefixed
    obtain ⟨-, hPrefix⟩ := Bool.and_eq_true_iff.mp hPrefixed
    have hParts := prefixed_within hName (by simpa using hPrefix)
    refine settles_look_bind (fun s hSafe => ?_) s hSafe
    rw [hSafe.encoding_eq e rfl]
    cases role with
    | namespacePrefix => exact { hSafe with scopes := hSafe.scopes.declare hParts.2 }
    | plain =>
      refine Settles.bind (settles_spells _ _) (fun _ => .ite (settles_pure _) (settles_update fun s hSafe => ?_)) s hSafe
      exact { hSafe with scopes := hSafe.scopes.addAttribute hParts }
    | defaultNamespace => exact hSafe
    | xmlPrefix => exact hSafe
  · exact hSafe

theorem settles_checkReserved (place : Nat) (reserved : Namespace.Reserved) :
    Settles c known least least (Lex.checkReserved place reserved) := by
  cases reserved with
  | none => exact settles_pure _
  | xml => exact settles_throw _
  | xmlns => exact settles_throw _

theorem settles_bindValue (role : AttributeRole) (value : Span) :
    Settles c known least least (Lex.bindValue role value) := by
  refine (settles_look _).bind fun _ => .ite ((settles_requireAt _ _ _).bind fun _ => (settles_ask _).bind fun _ => ?_)
    (settles_pure _)
  cases role with
  | xmlPrefix => exact settles_requireAt _ _ _
  | namespacePrefix =>
    exact .bind (settles_update fun _ hSafe => { hSafe with scopes := hSafe.scopes.bind }) fun _ =>
      settles_checkReserved _ _
  | defaultNamespace => exact settles_checkReserved _ _
  | plain => exact settles_checkReserved _ _

end

section
variable {c : Cursor} {known : Option Encoding} {least : Nat}

theorem Safe.forget {s : Lexer} (hSafe : Safe least c known s) : Safe least c none s :=
  { hSafe with encoding_eq := nofun }

/-- The encoding that is taken over is any. -/
theorem settles_declareEncoding (label : String) : Settles c none least least (Lex.declareEncoding label) := by
  refine (settles_look _).bind fun _ => (settles_read Scan.steady_encoding Scan.forward_encoding).bind fun _ => ?_
  split
  · exact settles_throw _
  · refine .ite (settles_pure _) ((settles_look _).bind fun _ => (settles_look _).bind fun _ => ?_)
    split
    · exact settles_throw _
    · exact fun s hSafe => { hSafe with range := hSafe.range.trans ⟨rfl, rfl, rfl⟩, encoding_eq := nofun }

theorem settles_openValue : Settles c known least least (Lex.read Scan.openValue) :=
  settles_read Scan.steady_openValue Scan.forward_openValue

theorem settles_closeValue (quote : CodePoint) : Settles c known least least (Lex.read (Scan.closeValue quote)) :=
  settles_read (Scan.steady_closeValue _) (Scan.forward_closeValue _)

theorem settles_nextSpaced : Settles c known least least (Lex.read Scan.nextSpaced) :=
  settles_read Scan.steady_nextSpaced Scan.forward_nextSpaced

theorem settles_versionDeclaration (first : CodePoint) : Settles c known least least (Lex.versionDeclaration first) :=
  settles_last.bind fun _ => (settles_require _ _).bind fun _ => (settles_skipAll _).bind fun _ =>
    (settles_require _ _).bind fun _ => (settles_emitUnits _ _ _).bind fun _ => settles_openValue.bind fun _ =>
      settles_offset.bind fun _ => (settles_read Scan.steady_version Scan.forward_version).bind fun _ =>
        (settles_require _ _).bind fun _ => (settles_emitUnits _ _ _).bind fun _ => settles_closeValue _

theorem settles_encodingDeclaration : Settles c none least least Lex.encodingDeclaration :=
  settles_last.bind fun _ => (settles_skipAll _).bind fun _ => (settles_require _ _).bind fun _ =>
    (settles_emitUnits _ _ _).bind fun _ => settles_openValue.bind fun _ => settles_offset.bind fun _ =>
      ((settles_drive _ _).mono (Nat.le_succ _)).bind fun _ => settles_last.bind fun _ =>
        (settles_emit _ _).bind fun _ => settles_declareEncoding _

theorem settles_standaloneDeclaration : Settles c known least least Lex.standaloneDeclaration :=
  settles_last.bind fun _ => (settles_skipAll _).bind fun _ => (settles_require _ _).bind fun _ =>
    (settles_emitUnits _ _ _).bind fun _ => settles_openValue.bind fun _ => settles_offset.bind fun _ =>
      (settles_read Scan.steady_standaloneAnswer Scan.forward_standaloneAnswer).bind fun _ =>
        (settles_emitUnits _ _ _).bind fun _ => settles_closeValue _

theorem settles_optionalEncoding : Settles c none least least Lex.optionalEncoding :=
  settles_nextSpaced.bind fun _ => .ite (settles_encodingDeclaration.bind fun _ => settles_nextSpaced) (settles_pure _)

theorem settles_optionalDeclarations : Settles c none least least Lex.optionalDeclarations :=
  settles_optionalEncoding.bind fun _ =>
    .ite (settles_standaloneDeclaration.bind fun _ => settles_nextAfterSpace.mono (Nat.le_succ _)) (settles_pure _)

theorem settles_declaration (first : CodePoint) : Settles c none least (least + 1) (Lex.declaration first) :=
  (settles_versionDeclaration _).bind fun _ => settles_optionalDeclarations.bind fun _ =>
    (settles_require _ _).bind fun _ => (settles_skip _).bind fun _ => (settles_require _ _).bind fun _ =>
      settles_nextAfterSpace.bind fun _ => settles_require _ _

end

section
variable {c : Cursor} {known : Option Encoding} {least : Nat}

theorem settles_before (place count : Nat) : Settles c known least least (Lex.before place count) :=
  settles_offset.bind fun _ => settles_unitSize.bind fun _ => settles_pure _

theorem settles_comment : Settles c known least (least + 1) Lex.comment :=
  settles_offset.bind fun _ => (settles_drive _ _).bind fun _ => (settles_before _ _).bind fun _ => settles_emitText _ _

theorem settles_characterSection : Settles c known least (least + 1) Lex.characterSection :=
  settles_offset.bind fun _ => (settles_drive _ _).bind fun _ => (settles_before _ _).bind fun _ => settles_emitText _ _

theorem settles_instructionData : Settles c known least (least + 1) Lex.instructionData :=
  settles_offset.bind fun _ => (settles_drive _ _).bind fun _ => (settles_before _ _).bind fun _ =>
    settles_emitBounded _ _

end

end Guarded
end XmlIndex
